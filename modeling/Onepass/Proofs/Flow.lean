import Mathlib.Logic.Relation
import Onepass.Proofs.Nesting

/-!
# Onepass.Proofs.Flow

Where control goes in a listing. `Moves` is one step of it: to the next line, along a jump,
whichever way a condition turns out, into what is called, and back behind the call. `Structured`
lists what holds of every run that begins at the entry of the program or of a function.

* `structured_of_compile` -- control leaves a frame by calls and returns only, and never comes to
  the bytes of a string.
-/

namespace Onepass

open Assembly Lowering

namespace Assembly

/-- Where control is: at a line, with the lines that the calls under way come back to, the last
call first. -/
structure Control where
  line : Nat
  returns : List Nat

/-- One step of control. It passes a call too, as if what is called came back. -/
inductive Moves (ls : List Line) : Control → Control → Prop where
  | next {i r l l'} : ls[i]? = some l → l.falls = true → ls[i + 1]? = some l' →
      Moves ls ⟨i, r⟩ ⟨i + 1, r⟩
  | jump {i j r l x} : ls[i]? = some l → l.jump? = some x → ls[j]? = some (.label x) →
      Moves ls ⟨i, r⟩ ⟨j, r⟩
  | call {i j r l x} : ls[i]? = some l → l.callee? = some x → ls[j]? = some (.label x) →
      Moves ls ⟨i, r⟩ ⟨j, (i + 1) :: r⟩
  | ret {i j r} : ls[i]? = some (.instr .ret) → Moves ls ⟨i, j :: r⟩ ⟨j, r⟩

/-- The first line of a frame's code: the entry of the program or of a function. -/
def Line.isEntry : Line → Bool
  | .label (.fixed .main) | .label (.routine _) => true
  | _ => false

/-- Control comes to the place on a run from an entry. -/
def Reached (ls : List Line) (p : Control) : Prop :=
  ∃ e l, ls[e]? = some l ∧ l.isEntry = true ∧ Relation.ReflTransGen (Moves ls) ⟨e, []⟩ p

/-- How control passes from a line with the routines `s` around it to one with the routines
`s'`. -/
inductive Passes (ls : List Line) (p q : Control) (s s' : List Nat) : Prop where
  /-- Within a frame. -/
  | within : s' = s → q.returns = p.returns → Passes ls p q s s'
  /-- Into a routine, by a call of its function, to its first line. -/
  | enters {f i r} : ls[p.line]? = some (.instr (.call (.routine f))) →
      (framed ls [])[q.line - 1]? = some (r, .instr (.jmp (.routineEnd i))) →
      ls[q.line]? = some (.label (.routine f)) → s' = i :: r →
      q.returns = (p.line + 1) :: p.returns → Passes ls p q s s'
  /-- Into one of the fixed routines, which no function's routine is around. -/
  | asks {f} : ls[p.line]? = some (.instr (.call (.fixed f))) →
      ls[q.line]? = some (.label (.fixed f)) → s' = [] →
      q.returns = (p.line + 1) :: p.returns → Passes ls p q s s'
  /-- Back behind a call. -/
  | leaves : ls[p.line]? = some (.instr .ret) → p.returns = q.line :: q.returns →
      Passes ls p q s s'

/-- The control flow of a listing is that of routines and of the code around them. -/
structure Structured (ls : List Line) : Prop where
  /-- Routines lie one behind the other or one in the other. -/
  nested : Nested ls
  /-- A number is that of one routine. -/
  routine : ∀ i j k : Nat, ls[j]? = some (.label (.routineEnd i)) →
    ls[k]? = some (.label (.routineEnd i)) → j = k
  /-- A jump goes to one line, and this is in the frame of the jump. -/
  jump : ∀ (i : Nat) (s : List Nat) (l : Line) (x : Symbol),
    (framed ls [])[i]? = some (s, l) → l.jump? = some x → ∃ j : Nat,
    (framed ls [])[j]? = some (s, .label x) ∧ ∀ k, ls[k]? = some (.label x) → k = j
  /-- Control stays in its frame, but for calls and returns. -/
  pass : ∀ p q, Reached ls p → Moves ls p q → ∀ s l s' l',
    (framed ls [])[p.line]? = some (s, l) → (framed ls [])[q.line]? = some (s', l') →
    Passes ls p q s s'
  /-- Control never comes to the bytes of a string. -/
  bytes : ∀ p, Reached ls p → ∀ i ds, ls[p.line]? ≠ some (.data (.text i) ds)

/-- Control may come to the line: it is neither the bytes of a string nor the size of a routine's
frame. -/
def Line.isLive : Line → Bool
  | .data (.text _) _ | .equ (.frameSize _) _ => false
  | _ => true

/-- Any line that there is at the place is live. -/
def Live (ls : List Line) (i : Nat) : Prop := ∀ l, ls[i]? = some l → l.isLive = true

/-- How the lines of a listing are arranged. -/
structure Arranged (ls : List Line) : Prop where
  nested : Nested ls
  orderly : Orderly ls
  jumps : JumpsStay ls []
  calls : ∀ l ∈ ls, ∀ x ∈ l.callee?, x.isCallable = true
  /-- The fixed routines stand outside the others. -/
  fixed : ∀ f s, (s, .label (.fixed f)) ∈ framed ls [] → s = []
  nodup : (definitions ls).Nodup

namespace Line

variable {l l' : Line} {s : List Nat}

theorem callee?_eq_some {x : Symbol} : l.callee? = some x ↔ l = .instr (.call x) := by
  constructor
  · intro h
    unfold callee? at h
    split at h
    · cases h
      rfl
    · cases h
  · rintro rfl
    rfl

theorem falls_of_callee? {x : Symbol} (h : l.callee? = some x) : l.falls = true := by
  rw [callee?_eq_some.mp h]
  rfl

theorem inner_of_falls (h : l.falls = true) : l.inner s = s := by
  unfold inner
  split
  · cases h
  · rfl

/-- Control does not pass out of a routine to the label behind it: what stands before that label
is not run. -/
theorem outer_of_follows (h : Follows l l') (hl : l.isLive = true) : l'.outer s = s := by
  unfold outer
  split
  · obtain ⟨n, rfl⟩ := h
    cases hl
  · rfl

theorem isLive_of_follows (h : Follows l l') (hl : l.falls = true) : l'.isLive = true := by
  unfold isLive
  split
  · cases h.symm.trans hl
  · cases h.symm.trans hl
  · rfl

end Line

namespace Arranged

variable {ls : List Line} {i j : Nat} {l l' : Line}

theorem follows (h : Arranged ls) (hl : ls[i]? = some l) (hl' : ls[i + 1]? = some l') :
    Follows l l' := by
  obtain ⟨hi, rfl⟩ := List.getElem?_eq_some_iff.mp hl
  obtain ⟨hi', rfl⟩ := List.getElem?_eq_some_iff.mp hl'
  exact List.isChain_iff_getElem.mp h.orderly.chain i hi'

/-- Behind a line that control passes, the next line is live. -/
theorem live_next (h : Arranged ls) (hl : ls[i]? = some l) (hf : l.falls = true) :
    Live ls (i + 1) :=
  fun _ hl' => Line.isLive_of_follows (h.follows hl hl') hf

theorem live_label {x : Symbol} (hl : ls[j]? = some (.label x)) : Live ls j := by
  intro m hm
  cases hl.symm.trans hm
  rfl

/-- Control is at a live line, and so are the lines that it comes back to. -/
structure Sound (ls : List Line) (p : Control) : Prop where
  line : Live ls p.line
  returns : ∀ j ∈ p.returns, Live ls j

theorem sound_of_moves (h : Arranged ls) {p q : Control} (hp : Sound ls p) (hm : Moves ls p q) :
    Sound ls q := by
  cases hm with
  | next hl hf _ => exact ⟨h.live_next hl hf, hp.returns⟩
  | jump _ _ hj => exact ⟨live_label hj, hp.returns⟩
  | call hl hx hj =>
    refine ⟨live_label hj, ?_⟩
    intro k hk
    rcases List.mem_cons.mp hk with rfl | hk
    · exact h.live_next hl (Line.falls_of_callee? hx)
    · exact hp.returns k hk
  | ret _ =>
    obtain ⟨hj, hr⟩ := List.forall_mem_cons.mp hp.returns
    exact ⟨hj, hr⟩

theorem sound_of_reached (h : Arranged ls) {p : Control} (hp : Reached ls p) : Sound ls p := by
  obtain ⟨e, l, hl, hentry, hrun⟩ := hp
  induction hrun with
  | refl =>
    refine ⟨?_, nofun⟩
    intro m hm
    cases hl.symm.trans hm
    unfold Line.isEntry at hentry
    split at hentry
    · rfl
    · rfl
    · cases hentry
  | tail _ hm ih => exact h.sound_of_moves ih hm

theorem jump (h : Arranged ls) {s : List Nat} {x : Symbol}
    (hi : (framed ls [])[i]? = some (s, l)) (hx : l.jump? = some x) :
    ∃ j : Nat, (framed ls [])[j]? = some (s, .label x) ∧ ∀ k, ls[k]? = some (.label x) → k = j := by
  have hmem := h.jumps (s, l) (List.mem_of_getElem? hi) x hx
  obtain ⟨j, hj⟩ := List.mem_iff_getElem?.mp hmem
  exact ⟨j, hj, fun k hk => index_of_defines h.nodup hk (line_of_framed hj) rfl rfl⟩

/-- The entry of a routine stands behind the jump over it. -/
theorem entry (h : Arranged ls) {s : List Nat} {f : String}
    (hj : (framed ls [])[j]? = some (s, .label (.routine f))) :
    ∃ i r, (framed ls [])[j - 1]? = some (r, .instr (.jmp (.routineEnd i))) ∧ s = i :: r := by
  have hline := line_of_framed hj
  cases j with
  | zero =>
    rw [← List.head?_eq_getElem?] at hline
    cases h.orderly.first _ hline
  | succ k =>
    obtain ⟨hk, -⟩ := List.getElem?_eq_some_iff.mp hline
    have hprev : ls[k]? = some ls[k] := List.getElem?_eq_getElem (by omega)
    obtain ⟨i, hi⟩ := h.follows hprev hline
    rw [hi] at hprev
    obtain ⟨r, hr⟩ := exists_framed [] hprev
    exact ⟨i, r, hr, framed_succ hr hj⟩

theorem pass (h : Arranged ls) {p q : Control} (hp : Reached ls p) (hm : Moves ls p q)
    {s s' : List Nat} (hs : (framed ls [])[p.line]? = some (s, l))
    (hs' : (framed ls [])[q.line]? = some (s', l')) : Passes ls p q s s' := by
  cases hm with
  | next hl hf hl' =>
    cases hl.symm.trans (line_of_framed hs)
    cases hl'.symm.trans (line_of_framed hs')
    have hlive := (h.sound_of_reached hp).line l hl
    refine .within ?_ rfl
    rw [framed_succ hs hs', Line.inner_of_falls hf, Line.outer_of_follows (h.follows hl hl') hlive]
  | jump hl hx hj =>
    cases hl.symm.trans (line_of_framed hs)
    obtain ⟨k, hk, hunique⟩ := h.jump hs hx
    cases hunique _ hj
    cases hk.symm.trans hs'
    exact .within rfl rfl
  | call hl hx hj =>
    cases hl.symm.trans (line_of_framed hs)
    cases hj.symm.trans (line_of_framed hs')
    rw [Line.callee?_eq_some.mp hx] at hl
    have hcallable := h.calls _ (List.mem_of_getElem? (line_of_framed hs)) _ hx
    unfold Symbol.isCallable at hcallable
    split at hcallable
    · obtain ⟨i, r, hjump, hinner⟩ := h.entry hs'
      exact .enters hl hjump hj hinner rfl
    · exact .asks hl hj (h.fixed _ s' (List.mem_of_getElem? hs')) rfl
    · cases hcallable
  | ret hl => exact .leaves hl rfl

theorem structured (h : Arranged ls) : Structured ls where
  nested := h.nested
  routine := fun _ _ _ hj hk => index_of_defines h.nodup hj hk rfl rfl
  jump := fun _ _ _ _ hi hx => h.jump hi hx
  pass := fun _ _ hp hm _ _ _ _ hs hs' => h.pass hp hm hs hs'
  bytes := fun p hp i ds hl => by cases (h.sound_of_reached hp).line _ hl

end Arranged

theorem isPlain_head : ∀ l ∈ head, l.isPlain = true := by decide

theorem isPlain_foot : ∀ l ∈ foot, l.isPlain = true := by decide

end Assembly

/-- Code that is lowered has no label of the fixed part. -/
theorem label_fixed_not_mem {p t c t' v} (h : Lowers p t c t' v) (f : Fixed) :
    .label (.fixed f) ∉ c := by
  intro hmem
  have hdefined : Symbol.fixed f ∈ definitions c := List.mem_filterMap.mpr ⟨_, hmem, rfl⟩
  rcases isOwn_of_mem h _ hdefined with ⟨i, hi⟩ | ⟨g, hg⟩
  · cases hi
  · cases hg

/-- A listing is the code of the root, lowered, with its frame around it. -/
theorem lines_of_generate {root : Node Nat} {l : Listing} (h : generate root = .ok l) :
    ∃ c t v, Lowers (.node root) ⟨.empty, .empty⟩ c t v ∧
      l.lines = head ++ (.instr (.sub (.reg .esp) (.sym .mainFrameSize)) ::
        (c ++ .equ .mainFrameSize t.scope.frameSize.toInt :: foot)) := by
  obtain ⟨c, t, v, hc, hbody⟩ := lowers_of_generate h
  exact ⟨c, t, v, hc, by simp [Listing.lines, hbody]⟩

theorem framed_lines {c : List Line} (hc : Nested c) (n : Int) :
    framed (head ++ (.instr (.sub (.reg .esp) (.sym .mainFrameSize)) ::
        (c ++ .equ .mainFrameSize n :: foot))) [] =
      framed head [] ++ ([], .instr (.sub (.reg .esp) (.sym .mainFrameSize))) ::
        (framed c [] ++ ([], .equ .mainFrameSize n) :: framed foot []) := by
  have hhead : Nested head := .of_isPlain isPlain_head
  rw [hhead.framed_append, framed_of_isPlain rfl, hc.framed_append, framed_of_isPlain rfl]

theorem arranged_of_generate {root : Node Nat} {l : Listing} (hids : root.ids.Nodup)
    (h : generate root = .ok l) : Arranged l.lines := by
  obtain ⟨c, t, v, hc, hlines⟩ := lines_of_generate h
  have hhead : Nested head := .of_isPlain isPlain_head
  have hcode := nested_of_lowers hc
  have hframed := framed_lines hcode t.scope.frameSize.toInt
  refine ⟨?_, ?_, ?_, ?_, ?_, (nodup_symbols_of_generate hids h).of_append_left⟩
  · rw [hlines]
    exact hhead.append (.line rfl (hcode.append (.line rfl (.of_isPlain isPlain_foot))))
  · rw [hlines]
    refine Orderly.append (.of_isFree (by decide)) (.cons rfl ?_)
    exact (orderly_of_lowers hc).append (.cons rfl (.of_isFree (by decide)))
  · rw [hlines]
    refine JumpsStay.append hhead (.of_isPlain isPlain_head (by decide)) ?_
    refine JumpsStay.cons rfl rfl ((jumps_of_lowers hc []).append hcode ?_)
    exact .cons rfl rfl (.of_isPlain isPlain_foot (by decide))
  · have hends : ∀ l ∈ head ++ foot, ∀ x ∈ l.callee?, x.isCallable = true := by decide
    rw [hlines]
    intro l hl x hx
    simp only [List.mem_append, List.mem_cons] at hl
    rcases hl with hl | rfl | hl | rfl | hl
    · exact hends l (List.mem_append_left _ hl) x hx
    · cases hx
    · exact calls_of_lowers hc l hl x hx
    · cases hx
    · exact hends l (List.mem_append_right _ hl) x hx
  · intro f s hs
    rw [hlines, hframed, framed_of_isPlain_all isPlain_head, framed_of_isPlain_all isPlain_foot] at hs
    simp only [List.mem_append, List.mem_cons, List.mem_map, Prod.mk.injEq] at hs
    rcases hs with ⟨_, -, rfl, -⟩ | ⟨-, hs⟩ | hs | ⟨-, hs⟩ | ⟨_, -, rfl, -⟩
    · rfl
    · cases hs
    · exact absurd (mem_of_framed hs) (label_fixed_not_mem hc f)
    · cases hs
    · rfl

/-- Control in a listing is as the program has it: it leaves a frame by calls and returns only. -/
theorem structured_of_compile {source : String} {l : Listing} (h : compile source = .ok l) :
    Structured l.lines := by
  obtain ⟨root, hroot, hgen⟩ := compile_eq_ok.mp h
  exact (arranged_of_generate (nodup_ids_of_parse hroot) hgen).structured

/-- A function in a loop in another function, with strings among the lines of each. -/
def inlineRoutines : String :=
  "function f(n)\nwhile n do\nfunction g()\nprint(\"a\")\nend\nn = g()\nend\nreturn \"b\"\nend\n"

theorem structured_of_inlineRoutines :
    ∃ l, compile inlineRoutines = .ok l ∧ Structured l.lines := by
  have hok : (compile inlineRoutines).toBool = true := by decide +kernel
  obtain ⟨l, hl⟩ := ok_of_toBool hok
  exact ⟨l, hl, structured_of_compile hl⟩

end Onepass
