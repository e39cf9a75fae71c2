import Onepass.Proofs.Flow

/-!
# Onepass.Proofs.Hops

Which lines a jump goes over. The jumps of lowered code are those over a string, over a routine,
over a part of a branch, out of a loop and back to its front, and each construct has its own lines:
`Woven` says how they lie in one another.

* `weaves_of_lowers`  -- lowered code is woven.
* `woven_of_generate` -- so is what stands behind the head of a listing.
* `Woven.lands`       -- a jump stays within the construct that it stands in.
* `Woven.apart`       -- nothing jumps into a loop from in front of it.
* `Woven.skips`       -- only branches and loops go over instructions of their own frame.
-/

namespace Onepass

open Assembly Lowering

namespace Assembly

/-- Lines with the routines around them. -/
abbrev Frames := List (List Nat × Line)

/-- A label has one place. -/
def Frames.Unique (fs : Frames) : Prop :=
  ∀ (a b : Nat) (s s' : List Nat) (x : Symbol), fs[a]? = some (s, .label x) →
    fs[b]? = some (s', .label x) → a = b

/-- The line at the first place may jump to the second one. -/
def Hop (fs : Frames) (a b : Nat) : Prop :=
  ∃ (s s' : List Nat) (l : Line) (x : Symbol), fs[a]? = some (s, l) ∧ l.jump? = some x ∧
    fs[b]? = some (s', .label x)

/-- The label is one behind lines that a condition leaves out: behind a part of a branch or behind
the body of a loop. -/
def Symbol.isSkip : Symbol → Bool
  | .branchElse _ | .branchEnd _ | .loopExit _ => true
  | _ => false

/-- The lines from place `i` up to place `j`, within the routines `s`, are constructs one behind the
other, with their parts in them. -/
inductive Woven (fs : Frames) : Nat → Nat → List Nat → Prop where
  | nil {k s} : Woven fs k k s
  /-- A line that does not jump. -/
  | line {k s l} : fs[k]? = some (s, l) → l.jump? = none → Woven fs k (k + 1) s
  | append {i j k s} : Woven fs i j s → Woven fs j k s → Woven fs i k s
  /-- A string, behind the jump over its bytes. -/
  | text {k s n ds} : fs[k]? = some (s, .instr (.jmp (.textEnd n))) →
      fs[k + 1]? = some (s, .data (.text n) ds) → fs[k + 2]? = some (s, .label (.textEnd n)) →
      Woven fs k (k + 3) s
  | routine {k m s n} : fs[k]? = some (s, .instr (.jmp (.routineEnd n))) →
      Woven fs (k + 1) m (n :: s) → fs[m]? = some (s, .label (.routineEnd n)) →
      Woven fs k (m + 1) s
  /-- The two parts of a branch. -/
  | branch {k m j s n} : fs[k]? = some (s, .instr (.je (.branchElse n))) →
      Woven fs (k + 1) m s → fs[m]? = some (s, .instr (.jmp (.branchEnd n))) →
      fs[m + 1]? = some (s, .label (.branchElse n)) → Woven fs (m + 2) j s →
      fs[j]? = some (s, .label (.branchEnd n)) → Woven fs k (j + 1) s
  /-- The condition and the body of a loop. -/
  | loop {k m j s n} : fs[k]? = some (s, .label (.loopStart n)) → Woven fs (k + 1) m s →
      fs[m]? = some (s, .instr (.je (.loopExit n))) → Woven fs (m + 1) j s →
      fs[j]? = some (s, .instr (.jmp (.loopStart n))) →
      fs[j + 1]? = some (s, .label (.loopExit n)) → Woven fs k (j + 2) s

namespace Hop

variable {fs : Frames} {a b m : Nat} {s s' : List Nat} {l : Line} {x : Symbol}

/-- A jump whose label is known goes there. -/
theorem eq_of_jump (h : Hop fs a b) (hu : fs.Unique) (ha : fs[a]? = some (s, l))
    (hx : l.jump? = some x) (hm : fs[m]? = some (s', .label x)) : b = m := by
  obtain ⟨_, _, _, y, ha', hy, hb⟩ := h
  cases ha.symm.trans ha'
  cases hx.symm.trans hy
  exact hu b m _ _ x hb hm

theorem not_of_jump? (ha : fs[a]? = some (s, l)) (hl : l.jump? = none) : ¬ Hop fs a b := by
  rintro ⟨_, _, _, y, ha', hy, -⟩
  cases ha.symm.trans ha'
  cases hl.symm.trans hy

end Hop

namespace Woven

variable {fs : Frames} {i j k m a b p q d : Nat} {s s' : List Nat} {n : Nat} {l : Line}

theorem le (h : Woven fs i j s) : i ≤ j := by
  induction h with
  | nil | line | text => omega
  | append _ _ ih ih' | branch _ _ _ _ _ _ ih ih' | loop _ _ _ _ _ _ ih ih' => omega
  | routine _ _ _ ih => omega

/-! ## Where the jumps of a construct stand -/

theorem hop_of_text (hu : fs.Unique) {ds : List Datum}
    (hjmp : fs[k]? = some (s, .instr (.jmp (.textEnd n))))
    (hdata : fs[k + 1]? = some (s, .data (.text n) ds))
    (hend : fs[k + 2]? = some (s, .label (.textEnd n))) (h : Hop fs a b) (ha : k ≤ a)
    (ha' : a < k + 3) : a = k ∧ b = k + 2 := by
  obtain rfl | rfl | rfl : a = k ∨ a = k + 1 ∨ a = k + 2 := by omega
  · exact ⟨rfl, h.eq_of_jump hu hjmp rfl hend⟩
  · exact absurd h (Hop.not_of_jump? hdata rfl)
  · exact absurd h (Hop.not_of_jump? hend rfl)

theorem hop_of_routine (hu : fs.Unique) (hjmp : fs[k]? = some (s, .instr (.jmp (.routineEnd n))))
    (hend : fs[m]? = some (s, .label (.routineEnd n))) (h : Hop fs a b) (ha : k ≤ a)
    (ha' : a < m + 1) : (a = k ∧ b = m) ∨ (k + 1 ≤ a ∧ a < m) := by
  obtain rfl | ha | rfl : a = k ∨ (k + 1 ≤ a ∧ a < m) ∨ a = m := by omega
  · exact .inl ⟨rfl, h.eq_of_jump hu hjmp rfl hend⟩
  · exact .inr ha
  · exact absurd h (Hop.not_of_jump? hend rfl)

theorem hop_of_branch (hu : fs.Unique) (hje : fs[k]? = some (s, .instr (.je (.branchElse n))))
    (hjmp : fs[m]? = some (s, .instr (.jmp (.branchEnd n))))
    (helse : fs[m + 1]? = some (s, .label (.branchElse n)))
    (hend : fs[j]? = some (s, .label (.branchEnd n))) (h : Hop fs a b) (ha : k ≤ a)
    (ha' : a < j + 1) :
    (a = k ∧ b = m + 1) ∨ (k + 1 ≤ a ∧ a < m) ∨ (a = m ∧ b = j) ∨ (m + 2 ≤ a ∧ a < j) := by
  obtain rfl | ha | rfl | rfl | ha | rfl :
      a = k ∨ (k + 1 ≤ a ∧ a < m) ∨ a = m ∨ a = m + 1 ∨ (m + 2 ≤ a ∧ a < j) ∨ a = j := by omega
  · exact .inl ⟨rfl, h.eq_of_jump hu hje rfl helse⟩
  · exact .inr (.inl ha)
  · exact .inr (.inr (.inl ⟨rfl, h.eq_of_jump hu hjmp rfl hend⟩))
  · exact absurd h (Hop.not_of_jump? helse rfl)
  · exact .inr (.inr (.inr ha))
  · exact absurd h (Hop.not_of_jump? hend rfl)

theorem hop_of_loop (hu : fs.Unique) (hstart : fs[k]? = some (s, .label (.loopStart n)))
    (hje : fs[m]? = some (s, .instr (.je (.loopExit n))))
    (hjmp : fs[j]? = some (s, .instr (.jmp (.loopStart n))))
    (hexit : fs[j + 1]? = some (s, .label (.loopExit n))) (h : Hop fs a b) (ha : k ≤ a)
    (ha' : a < j + 2) :
    (k + 1 ≤ a ∧ a < m) ∨ (a = m ∧ b = j + 1) ∨ (m + 1 ≤ a ∧ a < j) ∨ (a = j ∧ b = k) := by
  obtain rfl | ha | rfl | ha | rfl | rfl :
      a = k ∨ (k + 1 ≤ a ∧ a < m) ∨ a = m ∨ (m + 1 ≤ a ∧ a < j) ∨ a = j ∨ a = j + 1 := by omega
  · exact absurd h (Hop.not_of_jump? hstart rfl)
  · exact .inl ha
  · exact .inr (.inl ⟨rfl, h.eq_of_jump hu hje rfl hexit⟩)
  · exact .inr (.inr (.inl ha))
  · exact .inr (.inr (.inr ⟨rfl, h.eq_of_jump hu hjmp rfl hstart⟩))
  · exact absurd h (Hop.not_of_jump? hexit rfl)

/-! ## Whole constructs -/

/-- A jump stays within the construct that it stands in. -/
theorem lands (h : Woven fs i j s) (hu : fs.Unique) (hop : Hop fs a b) (ha : i ≤ a) (ha' : a < j) :
    i ≤ b ∧ b < j := by
  induction h with
  | nil => omega
  | @line k s l hl hjump =>
    obtain rfl : a = k := by omega
    exact absurd hop (Hop.not_of_jump? hl hjump)
  | @append i j k s h h' ih ih' =>
    have hle := h.le
    have hle' := h'.le
    by_cases haj : a < j
    · have := ih ha haj
      omega
    · have := ih' (by omega) ha'
      omega
  | text hjmp hdata hend =>
    have := hop_of_text hu hjmp hdata hend hop ha ha'
    omega
  | routine hjmp hbody hend ih =>
    have hle := hbody.le
    rcases hop_of_routine hu hjmp hend hop ha ha' with hjump | hin
    · omega
    · have := ih hin.1 hin.2
      omega
  | branch hje hyes hjmp helse hno hend ihy ihn =>
    have hle := hyes.le
    have hle' := hno.le
    rcases hop_of_branch hu hje hjmp helse hend hop ha ha' with hjump | hin | hjump | hin
    · omega
    · have := ihy hin.1 hin.2
      omega
    · omega
    · have := ihn hin.1 hin.2
      omega
  | loop hstart hcond hje hbody hjmp hexit ihc ihb =>
    have hle := hcond.le
    have hle' := hbody.le
    rcases hop_of_loop hu hstart hje hjmp hexit hop ha ha' with hin | hjump | hin | hjump
    · have := ihc hin.1 hin.2
      omega
    · omega
    · have := ihb hin.1 hin.2
      omega
    · omega

/-- When one jump goes forward and another one back, the second does not go from behind the label
of the first to a place between the first and its label. -/
theorem apart (h : Woven fs i j s) (hu : fs.Unique) (hab : Hop fs a b) (hpq : Hop fs p q)
    (ha : i ≤ a) (ha' : a < j) (hp : i ≤ p) (hp' : p < j) : ¬ (a < q ∧ q < b ∧ b ≤ p) := by
  induction h with
  | nil => omega
  | @line k s l hl hjump =>
    obtain rfl : a = k := by omega
    exact absurd hab (Hop.not_of_jump? hl hjump)
  | @append i j k s h h' ih ih' =>
    by_cases haj : a < j <;> by_cases hpj : p < j
    · exact ih ha haj hp hpj
    · have := h.lands hu hab ha haj
      have := h'.lands hu hpq (by omega) hp'
      omega
    · have := h'.lands hu hab (by omega) ha'
      omega
    · exact ih' (by omega) ha' (by omega) hp'
  | text hjmp hdata hend =>
    have := hop_of_text hu hjmp hdata hend hab ha ha'
    have := hop_of_text hu hjmp hdata hend hpq hp hp'
    omega
  | routine hjmp hbody hend ih =>
    rcases hop_of_routine hu hjmp hend hab ha ha' with hjump | hin <;>
      rcases hop_of_routine hu hjmp hend hpq hp hp' with hjump' | hin'
    · omega
    · omega
    · omega
    · exact ih hin.1 hin.2 hin'.1 hin'.2
  | @branch k m j s n hje hyes hjmp helse hno hend ihy ihn =>
    have hle := hyes.le
    have hle' := hno.le
    have hyes₁ := hyes.lands hu hab
    have hyes₂ := hyes.lands hu hpq
    have hno₁ := hno.lands hu hab
    have hno₂ := hno.lands hu hpq
    have hfrom := hop_of_branch hu hje hjmp helse hend hab ha ha'
    have hfrom' := hop_of_branch hu hje hjmp helse hend hpq hp hp'
    -- Both in one of the parts, or else the bounds are enough.
    by_cases hy : (k + 1 ≤ a ∧ a < m) ∧ k + 1 ≤ p ∧ p < m
    · exact ihy hy.1.1 hy.1.2 hy.2.1 hy.2.2
    by_cases hn : (m + 2 ≤ a ∧ a < j) ∧ m + 2 ≤ p ∧ p < j
    · exact ihn hn.1.1 hn.1.2 hn.2.1 hn.2.2
    omega
  | @loop k m j s n hstart hcond hje hbody hjmp hexit ihc ihb =>
    have hle := hcond.le
    have hle' := hbody.le
    have hcond₁ := hcond.lands hu hab
    have hcond₂ := hcond.lands hu hpq
    have hbody₁ := hbody.lands hu hab
    have hbody₂ := hbody.lands hu hpq
    have hfrom := hop_of_loop hu hstart hje hjmp hexit hab ha ha'
    have hfrom' := hop_of_loop hu hstart hje hjmp hexit hpq hp hp'
    by_cases hc : (k + 1 ≤ a ∧ a < m) ∧ k + 1 ≤ p ∧ p < m
    · exact ihc hc.1.1 hc.1.2 hc.2.1 hc.2.2
    by_cases hb : (m + 1 ≤ a ∧ a < j) ∧ m + 1 ≤ p ∧ p < j
    · exact ihb hb.1.1 hb.1.2 hb.2.1 hb.2.2
    omega

/-- The routines around a construct are around all its lines. -/
theorem suffix (h : Woven fs i j s) (hl : fs[p]? = some (s', l)) (hp : i ≤ p) (hp' : p < j) :
    s <:+ s' := by
  have at_line {k : Nat} {s : List Nat} {m : Line} (hk : fs[k]? = some (s, m)) (hpk : p = k) :
      s <:+ s' := by
    subst hpk
    cases hk.symm.trans hl
    exact List.suffix_rfl
  induction h with
  | nil => omega
  | line hk => exact at_line hk (by omega)
  | append _ _ ih ih' =>
    rcases Nat.lt_or_ge p _ with h | h
    · exact ih hp h
    · exact ih' h hp'
  | @text k s n ds hjmp hdata hend =>
    obtain h | h | h : p = k ∨ p = k + 1 ∨ p = k + 2 := by omega
    · exact at_line hjmp h
    · exact at_line hdata h
    · exact at_line hend h
  | @routine k m s n hjmp _ hend ih =>
    obtain h | h | h : p = k ∨ (k + 1 ≤ p ∧ p < m) ∨ p = m := by omega
    · exact at_line hjmp h
    · exact (List.suffix_cons n s).trans (ih h.1 h.2)
    · exact at_line hend h
  | @branch k m j s n hje _ hjmp helse _ hend ihy ihn =>
    obtain h | h | h | h | h | h : p = k ∨ (k + 1 ≤ p ∧ p < m) ∨ p = m ∨ p = m + 1 ∨
      (m + 2 ≤ p ∧ p < j) ∨ p = j := by omega
    · exact at_line hje h
    · exact ihy h.1 h.2
    · exact at_line hjmp h
    · exact at_line helse h
    · exact ihn h.1 h.2
    · exact at_line hend h
  | @loop k m j s n hstart _ hje _ hjmp hexit ihc ihb =>
    obtain h | h | h | h | h | h : p = k ∨ (k + 1 ≤ p ∧ p < m) ∨ p = m ∨ (m + 1 ≤ p ∧ p < j) ∨
      p = j ∨ p = j + 1 := by omega
    · exact at_line hstart h
    · exact ihc h.1 h.2
    · exact at_line hje h
    · exact ihb h.1 h.2
    · exact at_line hjmp h
    · exact at_line hexit h

/-- What goes over an instruction of its own frame is a branch or a loop that leaves it out: the
lines of a routine are in another frame, and the bytes of a string are no instruction. -/
theorem skips (h : Woven fs i j s) (hu : fs.Unique) (hop : Hop fs a b) (ha : i ≤ a) (ha' : a < j)
    (had : a < d) (hdb : d < b) {t : List Nat} {instr : Instr} (hl : fs[a]? = some (t, l))
    (hd : fs[d]? = some (t, .instr instr)) : ∃ x, l.jump? = some x ∧ x.isSkip = true := by
  have at_line {k : Nat} {s : List Nat} {m : Line} {x : Symbol} (hk : fs[k]? = some (s, m))
      (hx : m.jump? = some x) (hskip : x.isSkip = true) (hak : a = k) :
      ∃ x, l.jump? = some x ∧ x.isSkip = true := by
    subst hak
    cases hk.symm.trans hl
    exact ⟨x, hx, hskip⟩
  induction h with
  | nil => omega
  | @line k s m hk hjump =>
    obtain rfl : a = k := by omega
    exact absurd hop (Hop.not_of_jump? hk hjump)
  | append _ _ ih ih' =>
    rcases Nat.lt_or_ge a _ with h | h
    · exact ih ha h
    · exact ih' h ha'
  | @text k s n ds hjmp hdata hend =>
    obtain ⟨rfl, rfl⟩ := hop_of_text hu hjmp hdata hend hop ha ha'
    obtain rfl : d = a + 1 := by omega
    cases hdata.symm.trans hd
  | @routine k m s n hjmp hbody hend ih =>
    rcases hop_of_routine hu hjmp hend hop ha ha' with ⟨rfl, rfl⟩ | hin
    · cases hjmp.symm.trans hl
      exact absurd (hbody.suffix hd had hdb).length_le (Nat.not_succ_le_self _)
    · exact ih hin.1 hin.2
  | branch hje hyes hjmp helse hno hend ihy ihn =>
    rcases hop_of_branch hu hje hjmp helse hend hop ha ha' with ⟨h, -⟩ | hin | ⟨h, -⟩ | hin
    · exact at_line hje rfl rfl h
    · exact ihy hin.1 hin.2
    · exact at_line hjmp rfl rfl h
    · exact ihn hin.1 hin.2
  | loop hstart hcond hje hbody hjmp hexit ihc ihb =>
    rcases hop_of_loop hu hstart hje hjmp hexit hop ha ha' with hin | ⟨h, -⟩ | hin | ⟨-, h⟩
    · exact ihc hin.1 hin.2
    · exact at_line hje rfl rfl h
    · exact ihb hin.1 hin.2
    · omega

end Woven

/-- The lines stand in `fs` from place `k` on. -/
def Lie (fs : Frames) : Nat → Frames → Prop
  | _, [] => True
  | k, q :: qs => fs[k]? = some q ∧ Lie fs (k + 1) qs

theorem lie_append {fs : Frames} {k : Nat} {qs rs : Frames} :
    Lie fs k (qs ++ rs) ↔ Lie fs k qs ∧ Lie fs (k + qs.length) rs := by
  induction qs generalizing k with
  | nil => simp [Lie]
  | cons q qs ih =>
    simp only [List.cons_append, Lie, ih, List.length_cons, and_assoc]
    rw [Nat.add_assoc, Nat.add_comm 1]

theorem lie_of_eq {fs pre qs post : Frames} (h : fs = pre ++ (qs ++ post)) :
    Lie fs pre.length qs := by
  induction qs generalizing pre with
  | nil => trivial
  | cons q qs ih =>
    refine ⟨by simp [h], ?_⟩
    have := @ih (pre ++ [q]) (by simpa using h)
    simpa using this

@[simp] theorem length_framed (ls : List Line) (rs : List Nat) :
    (framed ls rs).length = ls.length := by
  induction ls generalizing rs with
  | nil => rfl
  | cons l ls ih => rw [framed, List.length_cons, ih, List.length_cons]

/-- Wherever the lines stand, they are woven. -/
def Weaves (c : List Line) : Prop :=
  ∀ (fs : Frames) (k : Nat) (s : List Nat), Lie fs k (framed c s) → Woven fs k (k + c.length) s

namespace Weaves

variable {a b c : List Line}

theorem append (hn : Nested a) (ha : Weaves a) (hb : Weaves b) : Weaves (a ++ b) := by
  intro fs k s h
  rw [hn.framed_append, lie_append, length_framed] at h
  rw [List.length_append, ← Nat.add_assoc]
  exact .append (ha fs k s h.1) (hb fs _ s h.2)

theorem nil : Weaves [] := fun _ _ _ _ => .nil

/-- Lines that do not jump. -/
theorem straight (hp : ∀ l ∈ c, l.isPlain = true) (hj : ∀ l ∈ c, l.jump? = none) : Weaves c := by
  induction c with
  | nil => exact nil
  | cons l c ih =>
    rw [List.forall_mem_cons] at hp hj
    intro fs k s h
    rw [framed_of_isPlain hp.1] at h
    have hrest := ih hp.2 hj.2 fs (k + 1) s h.2
    rw [Nat.add_assoc, Nat.add_comm 1] at hrest
    exact .append (.line h.1 hj.1) hrest

theorem cons {l : Line} (hp : l.isPlain = true) (hj : l.jump? = none) (hc : Weaves c) :
    Weaves (l :: c) := by
  refine append (a := [l]) (.line hp .nil) (straight ?_ ?_) hc
  · simpa using hp
  · simpa using hj

theorem snoc {l : Line} (hn : Nested c) (hc : Weaves c) (hp : l.isPlain = true)
    (hj : l.jump? = none) : Weaves (c ++ [l]) :=
  append hn hc (cons hp hj nil)

theorem string (i : Nat) (w : String) : Weaves (stringCode i w) := by
  intro fs k s h
  obtain ⟨hjmp, hdata, hend, hmov, -⟩ := h
  exact .append (.text hjmp hdata hend) (.line hmov rfl)

theorem routine {i : Nat} {f : String} (hn : Nested c) (hc : Weaves c) :
    Weaves (.instr (.jmp (.routineEnd i)) :: .label (.routine f) ::
      (c ++ [.label (.routineEnd i)])) := by
  intro fs k s h
  simp only [framed, Line.outer, Line.inner, hn.framed_append, Lie, lie_append, length_framed,
    List.tail_cons] at h
  obtain ⟨hjmp, hentry, hbody, hend, -⟩ := h
  have := Woven.routine hjmp (.append (.line hentry rfl) (hc fs _ _ hbody)) hend
  simpa [Nat.add_assoc, Nat.add_comm, Nat.add_left_comm] using this

theorem branch {i : Nat} (hna : Nested a) (ha : Weaves a) (hnb : Nested b) (hb : Weaves b) :
    Weaves (.instr (.je (.branchElse i)) :: (a ++ .instr (.jmp (.branchEnd i)) ::
      .label (.branchElse i) :: (b ++ [.label (.branchEnd i)]))) := by
  intro fs k s h
  simp only [framed, Line.outer, Line.inner, hna.framed_append, hnb.framed_append, Lie, lie_append,
    length_framed] at h
  obtain ⟨hje, hyes, hjmp, helse, hno, hend, -⟩ := h
  have := Woven.branch hje (ha fs _ _ hyes) hjmp helse (hb fs _ _ hno) hend
  simpa [Nat.add_assoc, Nat.add_comm, Nat.add_left_comm] using this

theorem loop {i : Nat} (hna : Nested a) (ha : Weaves a) (hnb : Nested b) (hb : Weaves b) :
    Weaves (.label (.loopStart i) :: (a ++ .instr (.je (.loopExit i)) ::
      (b ++ [.instr (.jmp (.loopStart i)), .label (.loopExit i)]))) := by
  intro fs k s h
  simp only [framed, Line.outer, Line.inner, hna.framed_append, hnb.framed_append, Lie, lie_append,
    length_framed] at h
  obtain ⟨hstart, hcond, hje, hbody, hjmp, hexit, -⟩ := h
  have := Woven.loop hstart (ha fs _ _ hcond) hje (hb fs _ _ hbody) hjmp hexit
  simpa [Nat.add_assoc, Nat.add_comm, Nat.add_left_comm] using this

end Weaves
end Assembly

theorem weaves_of_lowers {p t c t' v} (h : Lowers p t c t' v) : Weaves c := by
  induction h with
  | var | int | declare => exact .cons rfl rfl .nil
  | str => exact .string _ _
  | @binary _ op _ _ _ _ _ _ _ _ _ _ hr hl _ ihr ihl =>
    have hop : Weaves (.instr (.pop .ebx) :: op.code) :=
      .cons rfl rfl (.straight (isPlain_code op) (jump?_code op))
    exact .append (nested_of_lowers hr) ihr (.cons rfl rfl (.append (nested_of_lowers hl) ihl hop))
  | unary h _ ih =>
    exact .append (nested_of_lowers h) ih (.straight (isPlain_unaryCode _) (jump?_unaryCode _))
  | read => exact .straight (by decide) (by decide)
  | call _ _ h ih =>
    exact .append (nested_of_lowers h) ih (.straight (isPlain_callCode _ _) (jump?_callCode _ _))
  | assign h _ ih => exact .snoc (nested_of_lowers h) ih rfl rfl
  | define _ h _ ih => exact .cons rfl rfl (.snoc (nested_of_lowers h) ih rfl rfl)
  | print h ih => exact .append (nested_of_lowers h) ih (.straight (by decide) (by decide))
  | ret h ih => exact .append (nested_of_lowers h) ih (.straight (by decide) (by decide))
  | @branch i _ _ _ _ _ _ _ _ _ _ _ _ _ hc hy hn ihc ihy ihn =>
    have hparts := Weaves.branch (i := i) (nested_of_lowers hy) ihy (nested_of_lowers hn) ihn
    exact .append (nested_of_lowers hc) ihc (.cons rfl rfl hparts)
  | @loop i e body t c t₁ a c₁ t₂ a₁ hc hb ihc ihb =>
    have htest : Nested (c ++ [.instr (.cmp (.reg .eax) (.sym (.fixed .false)))]) :=
      (nested_of_lowers hc).append (.line rfl .nil)
    have hloop := Weaves.loop (i := i) htest (.snoc (nested_of_lowers hc) ihc rfl rfl)
      (nested_of_lowers hb) ihb
    simpa [jumpIfFalse] using hloop
  | @function i f ps body t rs s c u v _ _ hb ih =>
    have hplain : ∀ l ∈ (Line.instr (.mov (.reg .eax) (.imm 0)) :: leave.map .instr ++
        [.equ (.frameSize i) u.scope.frameSize.toInt]), l.isPlain = true := by
      simp [leave, Line.isPlain]
    have hend := Weaves.straight hplain (by simp [leave, Line.jump?, Instr.jump?])
    have hbody := Weaves.append (nested_of_lowers hb) ih hend
    have hnested := (nested_of_lowers hb).append (.of_isPlain hplain)
    have hroutine := Weaves.routine (i := i) (f := f)
      (c := .instr (.push (.reg .ebp)) :: .instr (.mov (.reg .ebp) (.reg .esp)) ::
        .instr (.sub (.reg .esp) (.sym (.frameSize i))) :: _)
      (.line rfl (.line rfl (.line rfl hnested)))
      (.cons rfl rfl (.cons rfl rfl (.cons rfl rfl hbody)))
    simpa [enter, finish] using hroutine
  | block _ ih | last _ _ ih => exact ih
  | skip | nil | noArgs => exact .nil
  | cons _ hn _ ih ihrest => exact .append (nested_of_lowers hn) ih ihrest
  | arg hrest hn ihrest ih =>
    exact .append (nested_of_lowers hrest) ihrest (.snoc (nested_of_lowers hn) ih rfl rfl)

/-- What stands behind the head of a listing. -/
theorem lie_behind_head (ls : List Line) :
    Lie (framed (head ++ ls) []) head.length (framed ls []) := by
  have hhead : Nested head := .of_isPlain isPlain_head
  have hsplit : framed (head ++ ls) [] = framed head [] ++ (framed ls [] ++ []) := by
    rw [hhead.framed_append, List.append_nil]
  have := lie_of_eq hsplit
  rwa [length_framed] at this

/-- The lines behind the head of a listing are woven. -/
theorem woven_of_generate {root : Node Nat} {l : Listing} (h : generate root = .ok l) :
    Woven (framed l.lines []) head.length l.lines.length [] := by
  obtain ⟨c, t, v, hc, hlines⟩ := lines_of_generate h
  have hfoot : Weaves foot := .straight isPlain_foot (by decide)
  have hall : Weaves (.instr (.sub (.reg .esp) (.sym .mainFrameSize)) ::
      (c ++ .equ .mainFrameSize t.scope.frameSize.toInt :: foot)) :=
    .cons rfl rfl (.append (nested_of_lowers hc) (weaves_of_lowers hc) (.cons rfl rfl hfoot))
  rw [hlines, List.length_append]
  exact hall _ _ [] (lie_behind_head _)

end Onepass
