import Onepass.Proofs.Simulation

/-!
# Onepass.Proofs.Control

The lowered code of branches, loops, blocks and declarations of functions does what the program
says, one lemma for each rule of `Run`.

* `Follows.yes`, `Follows.no`                     -- one side of a branch runs.
* `Follows.exit`, `Follows.again`, `Follows.leave` -- one turn of a loop.
* `Follows.drop`, `Follows.cons`, `Follows.stop`   -- the first statement of a block.
-/

namespace Onepass

open Assembly Lowering

namespace Machine

variable {m : Machine} {s : State} {S : Scope} {σ σ' : Store} {fs : List Function}
  {k q d i : Nat} {o : Outcome} {ω ω₁ ω₂ ω₃ : World} {v w : Word} {e n : Node Nat}
  {ys ns body rest : List (Node Nat)} {x : Symbol}

theorem steps_label (hx : m.lines[k]? = some (.label x)) (hs : s.pc = k) :
    m.Steps s { s with pc := k + 1 } := by
  subst hs
  exact .single (step_label hx)

/-- A jump leads to the line behind its label. -/
theorem steps_jmp (hm : m.Image fs) {k' : Nat} (hjmp : m.lines[k']? = some (.instr (.jmp x)))
    (hx : m.lines[k]? = some (.label x)) (hs : s.pc = k') : m.Steps s { s with pc := k + 1 } := by
  subst hs
  exact .cons (step_jmp hjmp (hm.target_eq hx)) (steps_label hx rfl)

namespace Follows

/-- The condition of a branch or a loop is computed and tested. -/
theorem condition (hm : m.Image fs) {t t' : Tables} {c : List Line} {a : Value}
    (he : Follows m q d (.node e) σ ω (.value w) ω₁) (hl : Lowers (.node e) t c t' a)
    (hc : m.At s.pc c) (hj : m.At (s.pc + c.length) ((jumpIfFalse x).map .instr))
    (hx : m.lines[k]? = some (.label x)) (hS : t'.scope.Within S) (hin : Inside S σ s)
    (hroom : 8 * e.size + d * q ≤ s.esp.toNat) (hω : s.world = ω) :
    ∃ s', m.Steps s s' ∧
      s'.pc = (if w = 0 then k else s.pc + c.length + ((jumpIfFalse x).map Line.instr).length) ∧
      Keeps s s' ∧ s'.world = ω₁ := by
  obtain ⟨s₁, hs₁, hpc₁, hw₁, hk₁, hω₁⟩ := he hl ⟨hc, hS, hin, hroom⟩ hω
  rw [← hpc₁] at hj
  obtain ⟨s₂, hs₂, hpc₂, hk₂, hω₂⟩ := run_jumpIfFalse hm hj (hm.target_eq hx)
  refine ⟨s₂, hs₁.trans hs₂, ?_, hk₁.trans hk₂, hω₂.trans hω₁⟩
  rw [hpc₂, hw₁, hpc₁]
  rfl

theorem yes (hm : m.Image fs) (he : Follows m q d (.node e) σ ω (.value w) ω₁) (hw : w ≠ 0)
    (hb : Follows m q d (.block ys) σ ω₁ o ω₂) :
    Follows m q d (.node (.branch i e ys ns)) σ ω o ω₂ := by
  intro t c t' v S s hl hr hω
  cases hl with
  | @branch _ _ _ _ _ c t₁ _ c₁ t₂ _ c₂ _ _ hl hl₁ hl₂ =>
    have hroom := hr.room
    simp only [Piece.size, Node.size] at hroom
    have hS₂ := (within_of_lowers hl₂).trans hr.within
    obtain ⟨hc, hcode⟩ := at_append.mp hr.code
    obtain ⟨hj, hcode⟩ := at_append.mp hcode
    obtain ⟨hc₁, hjmp, helse, hcode⟩ := at_append.mp hcode
    obtain ⟨-, hend, -⟩ := at_append.mp hcode
    obtain ⟨s₁, hs₁, hpc₁, hk₁, hω₁⟩ := condition hm he hl hc hj helse
      ((within_of_lowers hl₁).trans hS₂) hr.inside (by omega) hω
    rw [if_neg hw] at hpc₁
    rw [← hpc₁] at hc₁ hjmp hend
    have hrun := hb hl₁
      ⟨hc₁, hS₂, hr.inside.keeps hk₁, by rw [hk₁.esp]; simp only [Piece.size]; omega⟩ hω₁
    -- The other side is jumped over.
    have hgo : ∀ s', s'.pc = s₁.pc + c₁.length → m.Steps s' { s' with pc := _ } :=
      fun _ => steps_jmp hm hjmp hend
    refine ((hrun.goto hgo).of_keeps hs₁ hk₁ hr.inside).cast ?_
    simp only [List.length_append, List.length_cons, List.length_nil]
    omega

theorem no (hm : m.Image fs) (he : Follows m q d (.node e) σ ω (.value 0) ω₁)
    (hb : Follows m q d (.block ns) σ ω₁ o ω₂) :
    Follows m q d (.node (.branch i e ys ns)) σ ω o ω₂ := by
  intro t c t' v S s hl hr hω
  cases hl with
  | @branch _ _ _ _ _ c t₁ _ c₁ t₂ _ c₂ _ _ hl hl₁ hl₂ =>
    have hroom := hr.room
    simp only [Piece.size, Node.size] at hroom
    have hS₂ := (within_of_lowers hl₂).trans hr.within
    obtain ⟨hc, hcode⟩ := at_append.mp hr.code
    obtain ⟨hj, hcode⟩ := at_append.mp hcode
    obtain ⟨-, -, helse, hcode⟩ := at_append.mp hcode
    obtain ⟨hc₂, hend, -⟩ := at_append.mp hcode
    obtain ⟨s₁, hs₁, hpc₁, hk₁, hω₁⟩ := condition hm he hl hc hj helse
      ((within_of_lowers hl₁).trans hS₂) hr.inside (by omega) hω
    rw [if_pos rfl] at hpc₁
    rw [← hpc₁] at helse hc₂ hend
    have hin₁ := hr.inside.keeps hk₁
    have hrun := hb (s := s₁.next) hl₂
      ⟨hc₂, hr.within, hin₁.setPc _, by simp only [Piece.size, State.next, hk₁.esp]; omega⟩ hω₁
    have hgo : ∀ s', s'.pc = s₁.pc + 1 + c₂.length → m.Steps s' { s' with pc := _ } :=
      fun _ => steps_label hend
    refine ((hrun.goto hgo).of_keeps (hs₁.trans (.single (step_label helse)))
      ⟨hk₁.esp, hk₁.ebp, hk₁.stack⟩ hr.inside).cast ?_
    simp only [List.length_append, List.length_cons, List.length_nil]
    omega

/-- A loop is entered: its condition leads behind it or to its body. -/
theorem turn (hm : m.Image fs) {t t₁ t' : Tables} {c c₁ : List Line} {a a₁ : Value}
    (he : Follows m q d (.node e) σ ω (.value w) ω₁) (hl : Lowers (.node e) t c t₁ a)
    (hl₁ : Lowers (.block body) t₁ c₁ t' a₁)
    (hr : Ready m q d (.node (.loop i e body))
      (.label (.loopStart i) :: (c ++ ((jumpIfFalse (.loopExit i)).map .instr ++
        (c₁ ++ [.instr (.jmp (.loopStart i)), .label (.loopExit i)])))) t' S σ s)
    (hω : s.world = ω) :
    ∃ s₁, m.Steps s s₁ ∧ Keeps s s₁ ∧ s₁.world = ω₁ ∧
      if w = 0 then
        s₁.pc + 1 = s.pc + (.label (.loopStart i) :: (c ++ ((jumpIfFalse (.loopExit i)).map .instr ++
          (c₁ ++ [.instr (.jmp (.loopStart i)), .label (.loopExit i)])))).length ∧
        m.lines[s₁.pc]? = some (.label (.loopExit i))
      else
        Ready m q d (.block body) c₁ t' S σ s₁ ∧
        m.lines[s₁.pc + c₁.length]? = some (.instr (.jmp (.loopStart i))) := by
  have hroom := hr.room
  simp only [Piece.size, Node.size] at hroom
  obtain ⟨hstart, hcode⟩ := hr.code
  obtain ⟨hc, hcode⟩ := at_append.mp hcode
  obtain ⟨hj, hcode⟩ := at_append.mp hcode
  obtain ⟨hc₁, hjmp, hexit, -⟩ := at_append.mp hcode
  obtain ⟨s₁, hs₁, hpc₁, hk₁, hω₁⟩ := condition (s := s.next) hm he hl hc hj hexit
    ((within_of_lowers hl₁).trans hr.within) (hr.inside.setPc _)
    (by simp only [State.next]; omega) hω
  have hk : Keeps s s₁ := ⟨hk₁.esp, hk₁.ebp, hk₁.stack⟩
  refine ⟨s₁, .cons (step_label hstart) hs₁, hk, hω₁, ?_⟩
  by_cases hw : w = 0
  · rw [if_pos hw] at hpc₁ ⊢
    rw [← hpc₁] at hexit
    refine ⟨?_, hexit⟩
    simp only [List.length_append, List.length_cons, List.length_nil]
    omega
  · rw [if_neg hw] at hpc₁ ⊢
    change s₁.pc = s.pc + 1 + c.length + _ at hpc₁
    rw [← hpc₁] at hc₁ hjmp
    exact ⟨⟨hc₁, hr.within, hr.inside.keeps hk, by rw [hk.esp]; simp only [Piece.size]; omega⟩, hjmp⟩

theorem exit (hm : m.Image fs) (he : Follows m q d (.node e) σ ω (.value 0) ω₁) :
    Follows m q d (.node (.loop i e body)) σ ω (.falls σ) ω₁ := by
  intro t c t' v S s hl hr hω
  cases hl with
  | loop hl hl₁ =>
    obtain ⟨s₁, hs₁, hk₁, hω₁, hend⟩ := turn hm he hl hl₁ hr hω
    rw [if_pos rfl] at hend
    refine ⟨_, hs₁.trans (steps_label hend.2 rfl), hend.1, (hr.inside.keeps hk₁).setPc _, ?_, hω₁⟩
    exact ⟨hk₁.esp, hk₁.ebp, fun a ha _ => hk₁.stack a ha⟩

theorem again (hm : m.Image fs) (he : Follows m q d (.node e) σ ω (.value w) ω₁) (hw : w ≠ 0)
    (hb : Follows m q d (.block body) σ ω₁ (.falls σ') ω₂)
    (hloop : Follows m q d (.node (.loop i e body)) σ' ω₂ o ω₃) (ho : o.Ends) :
    Follows m q d (.node (.loop i e body)) σ ω o ω₃ := by
  intro t c t' v S s hl hr hω
  cases hl with
  | loop hl hl₁ =>
    obtain ⟨s₁, hs₁, hk₁, hω₁, hbody⟩ := turn hm he hl hl₁ hr hω
    rw [if_neg hw] at hbody
    obtain ⟨s₂, hs₂, hpc₂, hin₂, hst₂, hω₂⟩ := hb hl₁ hbody.1 hω₁
    -- Back at the start.
    have hs₃ : m.step s₂ = some { s₂ with pc := s.pc } :=
      step_jmp (hpc₂ ▸ hbody.2) (hm.target_eq hr.code.1)
    have hst : Stays S s { s₂ with pc := s.pc } :=
      (Stays.of_keeps hk₁).trans ⟨hst₂.esp, hst₂.ebp, hst₂.stack⟩
    have hesp := hst₂.esp.trans hk₁.esp
    have hrun := hloop (s := { s₂ with pc := s.pc }) (.loop hl hl₁)
      ⟨hr.code, hr.within, hin₂.setPc _, hesp ▸ hr.room⟩ hω₂
    exact hrun.of_stays (hs₁.trans (hs₂.trans (.single hs₃))) hst hr.inside ho

theorem leave (hm : m.Image fs) (he : Follows m q d (.node e) σ ω (.value w) ω₁) (hw : w ≠ 0)
    (hb : Follows m q d (.block body) σ ω₁ (.returns v) ω₂) :
    Follows m q d (.node (.loop i e body)) σ ω (.returns v) ω₂ := by
  intro t c t' v S s hl hr hω
  cases hl with
  | loop hl hl₁ =>
    obtain ⟨s₁, hs₁, hk₁, hω₁, hbody⟩ := turn hm he hl hl₁ hr hω
    rw [if_neg hw] at hbody
    have hrun := hb hl₁ hbody.1 hω₁
    exact Reaches.of_keeps (o := .returns _) hs₁ hk₁ hr.inside hrun

theorem function (hm : m.Image fs) {f : String} {ps : List String} :
    Follows m q d (.node (.function i f ps body)) σ ω (.falls σ) ω := by
  intro t c t' v S s hl hr hω
  cases hl with
  | @function _ _ _ _ _ _ _ c u _ =>
    obtain ⟨henter, hcode⟩ := at_append.mp hr.code
    obtain ⟨-, hcode⟩ := at_append.mp hcode
    obtain ⟨-, -, -, -, -, hend, -⟩ := hcode
    have hgo := steps_jmp hm henter.1 hend rfl
    refine ⟨_, hgo, ?_, hr.inside.setPc _, ⟨rfl, rfl, fun _ _ _ => rfl⟩, hω⟩
    have hfinish : (finish i u.scope.frameSize).length = 6 := rfl
    simp only [List.length_append, hfinish]
    omega

theorem inner (hb : Follows m q d (.block body) σ ω o ω₁) :
    Follows m q d (.node (.block i body)) σ ω o ω₁ := by
  intro t c t' v S s hl hr hω
  have hroom := hr.room
  simp only [Piece.size, Node.size] at hroom
  cases hl with
  | block hl =>
    exact hb hl ⟨hr.code, hr.within, hr.inside, by simp only [Piece.size]; omega⟩ hω

theorem skip : Follows m q d (.node (.skip i)) σ ω (.falls σ) ω := by
  intro t c t' v S s hl hr hω
  cases hl with
  | skip => exact ⟨s, .refl, rfl, hr.inside, .of_keeps (.refl s), hω⟩

theorem nil : Follows m q d (.block []) σ ω (.falls σ) ω := by
  intro t c t' v S s hl hr hω
  cases hl with
  | nil => exact ⟨s, .refl, rfl, hr.inside, .of_keeps (.refl s), hω⟩

theorem drop (hn : Follows m q d (.node n) σ ω (.value w) ω₁) (hreturn : n.isReturn = false)
    (hb : Follows m q d (.block rest) σ ω₁ o ω₂) :
    Follows m q d (.block (n :: rest)) σ ω o ω₂ := by
  intro t c t' v S s hl hr hω
  have hroom := hr.room
  simp only [Piece.size, Node.sizes] at hroom
  cases hl with
  | last hret => rw [hreturn] at hret; cases hret
  | cons _ hl hl' =>
    obtain ⟨hc, hcode⟩ := at_append.mp hr.code
    obtain ⟨s₁, hs₁, hpc₁, -, hk₁, hω₁⟩ := hn hl
      ⟨hc, (within_of_lowers hl').trans hr.within, hr.inside, by simp only [Piece.size]; omega⟩ hω
    rw [← hpc₁] at hcode
    have hrun := hb hl' ⟨hcode, hr.within, hr.inside.keeps hk₁,
      by rw [hk₁.esp]; simp only [Piece.size]; omega⟩ hω₁
    refine (hrun.of_keeps hs₁ hk₁ hr.inside).cast ?_
    rw [hpc₁, List.length_append, Nat.add_assoc]

theorem cons (hn : Follows m q d (.node n) σ ω (.falls σ') ω₁) (hreturn : n.isReturn = false)
    (hb : Follows m q d (.block rest) σ' ω₁ o ω₂) (ho : o.Ends) :
    Follows m q d (.block (n :: rest)) σ ω o ω₂ := by
  intro t c t' v S s hl hr hω
  have hroom := hr.room
  simp only [Piece.size, Node.sizes] at hroom
  cases hl with
  | last hret => rw [hreturn] at hret; cases hret
  | cons _ hl hl' =>
    obtain ⟨hc, hcode⟩ := at_append.mp hr.code
    obtain ⟨s₁, hs₁, hpc₁, hin₁, hst₁, hω₁⟩ := hn hl
      ⟨hc, (within_of_lowers hl').trans hr.within, hr.inside, by simp only [Piece.size]; omega⟩ hω
    rw [← hpc₁] at hcode
    have hrun := hb hl' ⟨hcode, hr.within, hin₁,
      by rw [hst₁.esp]; simp only [Piece.size]; omega⟩ hω₁
    refine (hrun.of_stays hs₁ hst₁ hr.inside ho).cast ?_
    rw [hpc₁, List.length_append, Nat.add_assoc]

theorem stop (hn : Follows m q d (.node n) σ ω (.returns v) ω₁) :
    Follows m q d (.block (n :: rest)) σ ω (.returns v) ω₁ := by
  intro t c t' v S s hl hr hω
  have hroom := hr.room
  simp only [Piece.size, Node.sizes] at hroom
  cases hl with
  | last _ hl =>
    exact hn hl ⟨hr.code, hr.within, hr.inside, by simp only [Piece.size]; omega⟩ hω
  | cons _ hl hl' =>
    obtain ⟨hc, -⟩ := at_append.mp hr.code
    have hrun := hn hl
      ⟨hc, (within_of_lowers hl').trans hr.within, hr.inside, by simp only [Piece.size]; omega⟩ hω
    exact hrun

end Follows
end Machine
end Onepass
