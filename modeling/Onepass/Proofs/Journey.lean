import Onepass.Proofs.Declared

/-!
# Onepass.Proofs.Journey

Whether a local variable is zeroed before it is read. A frame has one scope, whatever branches and
loops its declarations stand in, so the code of a declaration may be jumped over on the way from
the front of the frame to a load of the variable. `Journey` is a path of control on that way.

* `Progress.step`        -- what one step keeps: the declaration is still ahead, or control was at
  it, or a branch or a loop left it out.
* `declared_of_journey`  -- at the load, one of the latter two is the case.
* `load_before_declared` -- the last one does occur.
-/

namespace Onepass

open Assembly Lowering

namespace Assembly

/-- A path of control from the line that makes a frame to a line of the same activation, which the
lines `r` are to come back to. In between control may be in what the frame calls, but does not come
back out of the frame. -/
structure Journey (ls : List Line) (r : List Nat) (run : Nat → Control) (n : Nat) : Prop where
  opens : ∃ x, ls[(run 0).line]? = some (framing x)
  step : ∀ k < n, Moves ls (run k) (run (k + 1))
  within : ∀ k ≤ n, r <:+ (run k).returns
  start : (run 0).returns = r
  finish : (run n).returns = r

/-- The line at the first place jumps to the second one, over a part of a branch or the body of a
loop. -/
def Skips (ls : List Line) (a b : Nat) : Prop :=
  ∃ l x, ls[a]? = some l ∧ l.jump? = some x ∧ x.isSkip = true ∧ ls[b]? = some (.label x)

/-- Control is at place `p` in the activation, or comes back to it there. -/
def Control.Stands (r : List Nat) (p : Nat) (c : Control) : Prop :=
  c = ⟨p, r⟩ ∨ p :: r <:+ c.returns

/-- How the place in the activation changes with one step of control. -/
inductive Onward (ls : List Line) (r : List Nat) (p : Nat) (c c' : Control) : Prop where
  | stays : c'.Stands r p → Onward ls r p c c'
  | falls {l} : c = ⟨p, r⟩ → ls[p]? = some l → l.falls = true → c'.Stands r (p + 1) →
      Onward ls r p c c'
  | jumps {q l x} : c = ⟨p, r⟩ → ls[p]? = some l → l.jump? = some x → ls[q]? = some (.label x) →
      c' = ⟨q, r⟩ → Onward ls r p c c'

theorem onward_of_moves {ls : List Line} {r : List Nat} {p : Nat} {c c' : Control}
    (hc : c.Stands r p) (hm : Moves ls c c') (hr : r <:+ c'.returns) : Onward ls r p c c' := by
  rcases hc with rfl | hc
  · cases hm with
    | next hl hf _ => exact .falls rfl hl hf (.inl rfl)
    | jump hl hx hj => exact .jumps rfl hl hx hj rfl
    | call hl hx _ => exact .falls rfl hl (Line.falls_of_callee? hx) (.inr List.suffix_rfl)
    | ret => exact absurd hr.length_le (Nat.not_succ_le_self _)
  · cases hm with
    | next | jump => exact .stays (.inr hc)
    | call => exact .stays (.inr (hc.trans (List.suffix_cons _ _)))
    | ret =>
      rcases List.suffix_cons_iff.mp hc with heq | hc
      · cases heq
        exact .stays (.inl rfl)
      · exact .stays (.inr hc)

theorem Control.eq_of_stands {r : List Nat} {p : Nat} {c : Control} (h : c.Stands r p)
    (hc : c.returns = r) : c = ⟨p, r⟩ := by
  rcases h with h | h
  · exact h
  · rw [hc] at h
    exact absurd h.length_le (Nat.not_succ_le_self _)

/-- When control is at place `p`, before step `m`: the line `d` is not behind it, or control was
there, or jumped over it and has not come back in front of the label since. -/
inductive Seen (ls : List Line) (r : List Nat) (run : Nat → Control) (k₀ d m p : Nat) : Prop where
  | ahead : p ≤ d → Seen ls r run k₀ d m p
  | passed {k} : k < m → run k = ⟨d, r⟩ → Seen ls r run k₀ d m p
  | skipped {k a b} : k < m → run k = ⟨a, r⟩ → run (k + 1) = ⟨b, r⟩ → Skips ls a b → k₀ ≤ a →
      a < d → d < b → b ≤ p → Seen ls r run k₀ d m p

/-- Where control is in its activation before step `m`, in code that begins with place `k₀`. -/
structure Progress (ls : List Line) (r : List Nat) (run : Nat → Control) (k₀ : Nat) (s : List Nat)
    (m p : Nat) : Prop where
  stands : (run m).Stands r p
  live : Live ls p
  frame : ∀ s' l, (framed ls [])[p]? = some (s', l) → s' = s
  region : k₀ ≤ p
  seen : ∀ d w, (framed ls [])[d]? = some (s, zeroing w) → (run 0).line ≤ d →
    Seen ls r run k₀ d m p

namespace Arranged

variable {ls : List Line}

theorem unique (h : Arranged ls) : Frames.Unique (framed ls []) := by
  intro a b s s' x ha hb
  exact index_of_defines h.nodup (line_of_framed ha) (line_of_framed hb) rfl rfl

/-- A jump stays in its frame. -/
theorem frame_of_jump (h : Arranged ls) {p q : Nat} {s s' : List Nat} {l l' : Line} {x : Symbol}
    (hp : (framed ls [])[p]? = some (s, l)) (hx : l.jump? = some x)
    (hq : (framed ls [])[q]? = some (s', l')) (hlabel : l' = .label x) : s' = s := by
  subst hlabel
  obtain ⟨j, hj, hunique⟩ := h.jump hp hx
  cases hunique q (line_of_framed hq)
  cases hj.symm.trans hq
  rfl

end Arranged

theorem hop_of_lines {ls : List Line} {a b : Nat} {l : Line} {x : Symbol} (ha : ls[a]? = some l)
    (hx : l.jump? = some x) (hb : ls[b]? = some (.label x)) : Hop (framed ls []) a b := by
  obtain ⟨s, hs⟩ := exists_framed [] ha
  obtain ⟨s', hs'⟩ := exists_framed [] hb
  exact ⟨s, s', l, x, hs, hx, hs'⟩

namespace Progress

variable {ls : List Line} {r s : List Nat} {run : Nat → Control} {k₀ m p : Nat}

theorem stay (h : Progress ls r run k₀ s m p) (hs : (run (m + 1)).Stands r p) :
    Progress ls r run k₀ s (m + 1) p := by
  refine ⟨hs, h.live, h.frame, h.region, ?_⟩
  intro d w hd hfirst
  cases h.seen d w hd hfirst with
  | ahead hle => exact .ahead hle
  | passed hk hd => exact .passed (by omega) hd
  | skipped hk ha hb hskips hregion had hdb hbp =>
    exact .skipped (by omega) ha hb hskips hregion had hdb hbp

theorem fall (h : Progress ls r run k₀ s m p) (harr : Arranged ls) {l : Line}
    (hm : run m = ⟨p, r⟩) (hl : ls[p]? = some l) (hf : l.falls = true)
    (hs : (run (m + 1)).Stands r (p + 1)) : Progress ls r run k₀ s (m + 1) (p + 1) := by
  refine ⟨hs, harr.live_next hl hf, ?_, by have := h.region; omega, ?_⟩
  · intro s' l' hl'
    obtain ⟨t, ht⟩ := exists_framed [] hl
    rw [framed_succ ht hl', h.frame t l ht, Line.inner_of_falls hf,
      Line.outer_of_follows (harr.follows hl (line_of_framed hl')) (h.live l hl)]
  · intro d w hd hfirst
    cases h.seen d w hd hfirst with
    | ahead hle =>
      rcases Nat.lt_or_eq_of_le hle with hlt | rfl
      · exact .ahead hlt
      · exact .passed (Nat.lt_succ_self m) hm
    | passed hk hd => exact .passed (by omega) hd
    | skipped hk ha hb hskips hregion had hdb hbp =>
      exact .skipped (by omega) ha hb hskips hregion had hdb (by omega)

theorem leap (h : Progress ls r run k₀ s m p) (harr : Arranged ls)
    (hwoven : Woven (framed ls []) k₀ ls.length []) {q : Nat} {l : Line} {x : Symbol}
    (hm : run m = ⟨p, r⟩) (hl : ls[p]? = some l) (hx : l.jump? = some x)
    (hq : ls[q]? = some (.label x)) (hs : run (m + 1) = ⟨q, r⟩) :
    Progress ls r run k₀ s (m + 1) q := by
  obtain ⟨t, ht⟩ := exists_framed [] hl
  obtain rfl : t = s := h.frame t l ht
  have hplace {i : Nat} {l : Line} (hi : ls[i]? = some l) : i < ls.length :=
    (List.getElem?_eq_some_iff.mp hi).1
  have hop := hop_of_lines hl hx hq
  refine ⟨.inl hs, Arranged.live_label hq, ?_, (hwoven.lands harr.unique hop h.region (hplace hl)).1,
    ?_⟩
  · intro s' l' hl'
    exact harr.frame_of_jump ht hx hl' (Option.some.inj ((line_of_framed hl').symm.trans hq))
  · intro d w hd hfirst
    rcases Nat.lt_or_ge d q with hdq | hqd
    · cases h.seen d w hd hfirst with
      | ahead hle =>
        -- The jump goes over the declaration.
        have hpd : p ≠ d := by
          rintro rfl
          cases hl.symm.trans (line_of_framed hd)
          cases hx
        obtain ⟨y, hy, hskip⟩ := hwoven.skips harr.unique hop h.region (hplace hl) (by omega) hdq
          ht hd
        cases hx.symm.trans hy
        exact .skipped (Nat.lt_succ_self m) hm hs ⟨l, x, hl, hx, hskip, hq⟩ h.region (by omega) hdq
          (Nat.le_refl q)
      | passed hk hd => exact .passed (by omega) hd
      | @skipped k a b hk ha hb hskips hregion had hdb hbp =>
        -- The jump does not come back between an earlier one and its label.
        obtain ⟨l', y, hl', hy, -, hb'⟩ := id hskips
        have hapart := hwoven.apart harr.unique (hop_of_lines hl' hy hb') hop hregion (hplace hl')
          h.region (hplace hl)
        exact .skipped (by omega) ha hb hskips hregion had hdb (by omega)
    · exact .ahead hqd

/-- One step of control. -/
theorem step (h : Progress ls r run k₀ s m p) (harr : Arranged ls)
    (hwoven : Woven (framed ls []) k₀ ls.length []) (hm : Moves ls (run m) (run (m + 1)))
    (hr : r <:+ (run (m + 1)).returns) : ∃ q, Progress ls r run k₀ s (m + 1) q := by
  cases onward_of_moves h.stands hm hr with
  | stays hs => exact ⟨p, h.stay hs⟩
  | falls hp hl hf hs => exact ⟨p + 1, h.fall harr hp hl hf hs⟩
  | jumps hp hl hx hq hs => exact ⟨_, h.leap harr hwoven hp hl hx hq hs⟩

end Progress

/-- A whole journey. -/
theorem progress_of_journey {ls : List Line} {r : List Nat} {run : Nat → Control} {k₀ n : Nat}
    {s : List Nat} {x : Symbol} (harr : Arranged ls)
    (hwoven : Woven (framed ls []) k₀ ls.length []) (hj : Journey ls r run n)
    (hs : (framed ls [])[(run 0).line]? = some (s, framing x)) (hk : k₀ ≤ (run 0).line) :
    ∀ m ≤ n, ∃ p, Progress ls r run k₀ s m p := by
  intro m hm
  induction m with
  | zero =>
    refine ⟨(run 0).line, .inl ?_, ?_, ?_, hk, fun _ _ _ => .ahead⟩
    · rw [← hj.start]
    · intro l hl
      cases hl.symm.trans (line_of_framed hs)
      rfl
    · intro s' l hl
      cases hl.symm.trans hs
      rfl
  | succ m ih =>
    obtain ⟨p, hp⟩ := ih (by omega)
    exact hp.step harr hwoven (hj.step m hm) (hj.within (m + 1) hm)

end Assembly

/-- On a journey to the load of a variable below the frame's base there is, between the line that
makes the frame and the load, a line of the frame that zeroes the variable. Control was there in
this activation, unless it jumped over that line, in a branch or a loop that the load stands
behind. -/
theorem declared_of_journey {source : String} {root : Node Nat} {l : Listing}
    (hroot : (Source.parse source 0).1 = .ok root) (h : compile source = .ok l)
    (hps : ∀ f ∈ root.functions, f.params.length < 2 ^ 29) {r : List Nat} {run : Nat → Control}
    {n : Nat} (hj : Journey l.lines r run n) {w : Word}
    (hload : l.lines[(run n).line]? = some (loading w)) (hw : w.slt 0 = false) :
    ∃ s d, (framed l.lines [])[(run 0).line]? = some (s, framing (sizeWithin s)) ∧
      (framed l.lines [])[d]? = some (s, zeroing w) ∧
      (framed l.lines [])[(run n).line]? = some (s, loading w) ∧
      (run 0).line < d ∧ d < (run n).line ∧
      ((∃ k < n, run k = ⟨d, r⟩) ∨
        ∃ k < n, ∃ a b, run k = ⟨a, r⟩ ∧ run (k + 1) = ⟨b, r⟩ ∧ Skips l.lines a b ∧
          a < d ∧ d < b ∧ b ≤ (run n).line) := by
  obtain ⟨root', hroot', hgen⟩ := compile_eq_ok.mp h
  cases hroot.symm.trans hroot'
  have hids := nodup_ids_of_parse hroot
  have hback := backed_of_generate hgen hps
  have hplace {i : Nat} {m : Line} (hi : l.lines[i]? = some m) : i < l.lines.length :=
    (List.getElem?_eq_some_iff.mp hi).1
  obtain ⟨x, hopen⟩ := hj.opens
  obtain ⟨hregion, hone⟩ := framing_of_generate hids hgen hopen
  obtain ⟨s, hs⟩ := exists_framed [] hopen
  obtain rfl : x = sizeWithin s :=
    (hback _ (Nat.zero_le _) (hplace hopen)).framing s x hs
  obtain ⟨p, hp⟩ := progress_of_journey (arranged_of_generate hids hgen) (woven_of_generate hgen) hj
    hs hregion n (Nat.le_refl n)
  have hend := Control.eq_of_stands hp.stands hj.finish
  rw [hend] at hload ⊢
  obtain ⟨t, ht⟩ := exists_framed [] hload
  obtain rfl : t = s := hp.frame t _ ht
  obtain ⟨d, hdp, hd⟩ := (hback p (Nat.zero_le _) (hplace hload)).loading t w ht hw
  obtain ⟨o, hod, ho⟩ :=
    (hback d (Nat.zero_le _) (hplace (line_of_framed hd))).zeroing t w hd
  obtain rfl := hone o (line_of_framed ho)
  refine ⟨t, d, hs, hd, ht, hod, hdp, ?_⟩
  cases hp.seen d w hd (Nat.le_of_lt hod) with
  | ahead hle => omega
  | passed hk hkd => exact .inl ⟨_, hk, hkd⟩
  | skipped hk ha hb hskips _ had hdb hbp =>
    exact .inr ⟨_, hk, _, _, ha, hb, hskips, had, hdb, hbp⟩

/-- A declaration in a branch, and a load behind the branch. -/
def readBehindBranch : String := "if 0 then\nlocal x = 7\nend\nprint(x)\n"

def readBehindBranchCode : Listing :=
  ⟨[framing .mainFrameSize,
    .instr (.mov (.reg .eax) (.imm 0)),
    .instr (.cmp (.reg .eax) (.sym (.fixed .false))),
    .instr (.je (.branchElse 3)),
    zeroing 4,
    .instr (.mov (.reg .eax) (.imm 7)),
    .instr (.mov (.slot 4) (.reg .eax)),
    .instr (.jmp (.branchEnd 3)),
    .label (.branchElse 3),
    .label (.branchEnd 3),
    loading 4] ++ printCode.map .instr ++ [.equ .mainFrameSize 4]⟩

theorem compile_readBehindBranch : compile readBehindBranch = .ok readBehindBranchCode := by
  decide +kernel

/-- The way through the branch. -/
def throughBranch (k : Nat) : Control := ⟨head.length + if k < 8 then k else k + 1, []⟩

theorem journey_throughBranch : Journey readBehindBranchCode.lines [] throughBranch 9 where
  opens := ⟨.mainFrameSize, rfl⟩
  step := by
    intro k hk
    obtain rfl | rfl | rfl | rfl | rfl | rfl | rfl | rfl | rfl : k = 0 ∨ k = 1 ∨ k = 2 ∨ k = 3 ∨
      k = 4 ∨ k = 5 ∨ k = 6 ∨ k = 7 ∨ k = 8 := by omega
    · exact .next (i := head.length) rfl rfl rfl
    · exact .next (i := head.length + 1) rfl rfl rfl
    · exact .next (i := head.length + 2) rfl rfl rfl
    · exact .next (i := head.length + 3) rfl rfl rfl
    · exact .next (i := head.length + 4) rfl rfl rfl
    · exact .next (i := head.length + 5) rfl rfl rfl
    · exact .next (i := head.length + 6) rfl rfl rfl
    · exact .jump (i := head.length + 7) (j := head.length + 9) rfl rfl rfl
    · exact .next (i := head.length + 9) rfl rfl rfl
  within := fun _ _ => List.suffix_rfl
  start := rfl
  finish := rfl

theorem declared_on_throughBranch :
    ∃ d, readBehindBranchCode.lines[d]? = some (zeroing 4) ∧ ∃ k < 9, throughBranch k = ⟨d, []⟩ := by
  have hfew : (Source.parse readBehindBranch 0).1.toOption.all (·.functions.isEmpty) = true := by
    decide +kernel
  obtain ⟨root, hroot, -⟩ := compile_eq_ok.mp compile_readBehindBranch
  rw [hroot, Except.toOption, Option.all_some, List.isEmpty_iff] at hfew
  obtain ⟨s, d, -, hd, -, -, -, hway⟩ := declared_of_journey hroot compile_readBehindBranch
    (by simp [hfew]) journey_throughBranch (w := 4) rfl rfl
  refine ⟨d, line_of_framed hd, ?_⟩
  rcases hway with hpassed | ⟨k, hk, a, b, ha, hb, -, had, hdb, -⟩
  · exact hpassed
  · -- The only jump on the way goes over one line, which is a label.
    simp only [throughBranch, Control.mk.injEq, and_true] at ha hb
    obtain rfl : d = head.length + 8 := by split at ha <;> split at hb <;> omega
    cases line_of_framed hd

/-- The way past the branch: its condition jumps over the declaration. -/
def pastBranch (k : Nat) : Control := ⟨head.length + if k < 4 then k else k + 4, []⟩

theorem journey_pastBranch : Journey readBehindBranchCode.lines [] pastBranch 6 where
  opens := ⟨.mainFrameSize, rfl⟩
  step := by
    intro k hk
    obtain rfl | rfl | rfl | rfl | rfl | rfl : k = 0 ∨ k = 1 ∨ k = 2 ∨ k = 3 ∨ k = 4 ∨ k = 5 := by
      omega
    · exact .next (i := head.length) rfl rfl rfl
    · exact .next (i := head.length + 1) rfl rfl rfl
    · exact .next (i := head.length + 2) rfl rfl rfl
    · exact .jump (i := head.length + 3) (j := head.length + 8) rfl rfl rfl
    · exact .next (i := head.length + 8) rfl rfl rfl
    · exact .next (i := head.length + 9) rfl rfl rfl
  within := fun _ _ => List.suffix_rfl
  start := rfl
  finish := rfl

/-- A variable can be read when nothing was stored in its place. -/
theorem load_before_declared : ∃ l r run n w, compile readBehindBranch = .ok l ∧
    Journey l.lines r run n ∧ l.lines[(run n).line]? = some (loading w) ∧ w.slt 0 = false ∧
    ∀ k < n, ∀ src, l.lines[(run k).line]? ≠ some (.instr (.mov (.slot w) src)) := by
  refine ⟨_, [], pastBranch, 6, 4, compile_readBehindBranch, journey_pastBranch, rfl, rfl, ?_⟩
  intro k hk src hstore
  obtain rfl | rfl | rfl | rfl | rfl | rfl : k = 0 ∨ k = 1 ∨ k = 2 ∨ k = 3 ∨ k = 4 ∨ k = 5 := by
    omega
  all_goals cases hstore

end Onepass
