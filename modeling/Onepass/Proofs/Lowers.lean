import Onepass.Compiler

/-!
# Onepass.Proofs.Lowers

Successful lowering as a relation. `Lowers p t c t' v` says that the piece `p` of a program,
lowered while the tables are `t`, gives the lines `c` and the value `v` and leaves the tables
`t'`. There is one rule for each kind of node, so a property of emitted code is proved by
induction on it and without opening the emitters again.

* `lowers_of_evaluate` -- what `evaluate` does when it succeeds.
* `emit_of_lowers` -- and the other way: the relation says nothing else.
* `lowers_of_generate` -- the listing of a program: its frame, the code of its root, the size of
  its frame.
-/

namespace Onepass

open Assembly Lowering

namespace Emitter

variable {α β : Type}

/-- A sequence succeeds if both parts do, and emits the lines of both. -/
theorem bind_eq_ok {x : Emitter α} {f : α → Emitter β} {t t' : Tables} {c : List Line} {b : β} :
    (x >>= f) t = ⟨c, t', .ok b⟩ ↔
      ∃ c₁ t₁ a c₂, x t = ⟨c₁, t₁, .ok a⟩ ∧ f a t₁ = ⟨c₂, t', .ok b⟩ ∧ c = c₁ ++ c₂ := by
  cases hx : x t with
  | mk c₁ t₁ r =>
    cases r with
    | error e =>
      rw [bind_apply_error (e := e) (by rw [hx])]
      simp
    | ok a =>
      rw [bind_apply_ok (a := a) (by rw [hx]), hx]
      cases hf : f a t₁ with
      | mk c₂ t₂ r₂ =>
        simp only [Emission.mk.injEq, Except.ok.injEq]
        constructor
        · rintro ⟨rfl, rfl, rfl⟩
          exact ⟨c₁, t₁, a, c₂, ⟨rfl, rfl, rfl⟩, hf, rfl⟩
        · rintro ⟨_, _, _, _, ⟨rfl, rfl, rfl⟩, hf', rfl⟩
          rw [hf] at hf'
          cases hf'
          exact ⟨rfl, rfl, rfl⟩

theorem bind_ok {x : Emitter α} {f : α → Emitter β} {t t₁ t₂ : Tables} {c c₁ c₂ : List Line}
    {a : α} {b : β} (hx : x t = ⟨c₁, t₁, .ok a⟩) (hf : f a t₁ = ⟨c₂, t₂, .ok b⟩)
    (hc : c = c₁ ++ c₂) : (x >>= f) t = ⟨c, t₂, .ok b⟩ :=
  bind_eq_ok.mpr ⟨c₁, t₁, a, c₂, hx, hf, hc⟩

theorem pure_eq_ok {a b : α} {t t' : Tables} {c : List Line} :
    (Pure.pure a : Emitter α) t = ⟨c, t', .ok b⟩ ↔ c = [] ∧ t' = t ∧ b = a := by
  simp only [pure_apply, Emission.mk.injEq, Except.ok.injEq]
  grind

theorem emit_eq_ok {code c : List Line} {t t' : Tables} {u : Unit} :
    emit code t = ⟨c, t', .ok u⟩ ↔ c = code ∧ t' = t := by
  simp only [emit, Emission.mk.injEq, and_true]
  grind

theorem instrs_eq_ok {code : List Instr} {c : List Line} {t t' : Tables} {u : Unit} :
    instrs code t = ⟨c, t', .ok u⟩ ↔ c = code.map .instr ∧ t' = t := emit_eq_ok

theorem emit_bind_eq_ok {code : List Line} {f : Unit → Emitter β} {t t' : Tables} {c : List Line}
    {b : β} :
    (emit code >>= f) t = ⟨c, t', .ok b⟩ ↔ ∃ c₂, f () t = ⟨c₂, t', .ok b⟩ ∧ c = code ++ c₂ := by
  rw [bind_eq_ok]
  constructor
  · rintro ⟨_, _, _, c₂, hcode, hf, rfl⟩
    cases hcode
    exact ⟨c₂, hf, rfl⟩
  · rintro ⟨c₂, hf, rfl⟩
    exact ⟨_, _, _, c₂, rfl, hf, rfl⟩

theorem instrs_bind_eq_ok {code : List Instr} {f : Unit → Emitter β} {t t' : Tables}
    {c : List Line} {b : β} :
    (instrs code >>= f) t = ⟨c, t', .ok b⟩ ↔
      ∃ c₂, f () t = ⟨c₂, t', .ok b⟩ ∧ c = code.map .instr ++ c₂ := emit_bind_eq_ok

theorem ofExcept_eq_ok {r : Except Error α} {c : List Line} {t t' : Tables} {a : α} :
    ofExcept r t = ⟨c, t', .ok a⟩ ↔ c = [] ∧ t' = t ∧ r = .ok a := by
  simp only [ofExcept, Emission.mk.injEq]
  grind

theorem find_eq_ok {x : String} {c : List Line} {t t' : Tables} {slot : Slot} :
    find x t = ⟨c, t', .ok slot⟩ ↔ c = [] ∧ t' = t ∧ t.scope.find x = .ok slot := by
  simp only [find, Emission.mk.injEq]
  grind

theorem findRoutine_eq_ok {f : String} {c : List Line} {t t' : Tables} {r : Routine} :
    findRoutine f t = ⟨c, t', .ok r⟩ ↔ c = [] ∧ t' = t ∧ t.routines.find f = .ok r := by
  simp only [findRoutine, Emission.mk.injEq]
  grind

theorem changeScope_eq_ok {change : Scope → Except Error (α × Scope)} {c : List Line}
    {t t' : Tables} {a : α} :
    changeScope change t = ⟨c, t', .ok a⟩ ↔
      c = [] ∧ ∃ s, change t.scope = .ok (a, s) ∧ t' = { t with scope := s } := by
  cases h : change t.scope with
  | error e => simp [changeScope, h]
  | ok p =>
    obtain ⟨b, s⟩ := p
    simp only [changeScope, h, Emission.mk.injEq, Except.ok.injEq, Prod.mk.injEq]
    constructor
    · rintro ⟨rfl, rfl, rfl⟩
      exact ⟨rfl, s, ⟨rfl, rfl⟩, rfl⟩
    · rintro ⟨rfl, _, ⟨rfl, rfl⟩, rfl⟩
      exact ⟨rfl, rfl, rfl⟩

theorem declareRoutine_eq_ok {f : String} {ps : List String} {c : List Line} {t t' : Tables}
    {u : Unit} :
    declareRoutine f ps t = ⟨c, t', .ok u⟩ ↔
      c = [] ∧ ∃ rs, t.routines.declare f ps = .ok rs ∧ t' = { t with routines := rs } := by
  cases h : t.routines.declare f ps with
  | error e => simp [declareRoutine, h]
  | ok rs =>
    simp only [declareRoutine, h, Emission.mk.injEq, Except.ok.injEq]
    constructor
    · rintro ⟨rfl, rfl, -⟩
      exact ⟨rfl, rs, rfl, rfl⟩
    · rintro ⟨rfl, _, rfl, rfl⟩
      exact ⟨rfl, rfl, trivial⟩

theorem frameSize_eq_ok {c : List Line} {t t' : Tables} {w : Word} :
    frameSize t = ⟨c, t', .ok w⟩ ↔ c = [] ∧ t' = t ∧ w = t.scope.frameSize := by
  simp only [frameSize, Emission.mk.injEq, Except.ok.injEq]
  grind

theorem inFrame_eq_ok {x : Emitter α} {c : List Line} {t t' : Tables} {a : α} :
    inFrame x t = ⟨c, t', .ok a⟩ ↔
      ∃ u, x { t with scope := .empty } = ⟨c, u, .ok a⟩ ∧ t' = { u with scope := t.scope } := by
  simp only [inFrame]
  cases h : x { t with scope := .empty } with
  | mk c₁ u r =>
    simp only [Emission.mk.injEq]
    constructor
    · rintro ⟨rfl, rfl, rfl⟩
      exact ⟨u, ⟨rfl, rfl, rfl⟩, rfl⟩
    · rintro ⟨_, ⟨rfl, rfl, rfl⟩, rfl⟩
      exact ⟨rfl, rfl, rfl⟩

end Emitter

namespace Scope

/-- The scope with parameters declared in order. -/
def declareParams : Scope → List String → Except Error Scope
  | s, [] => .ok s
  | s, x :: xs => (s.declareParam x).bind fun p => p.2.declareParams xs

end Scope

namespace Routines

/-- The functions after the result of one is known. -/
def noted (rs : Routines) (function : String) (ty : Ty) : Routines :=
  if ty = .void then rs else rs.returning function ty

end Routines

/-- What is lowered at one go. -/
inductive Piece where
  | node (n : Node Nat)
  | block (body : List (Node Nat))
  | args (args : List (Node Nat))

/-- The piece, lowered from the first tables, gives the lines and leaves the second tables and the
value. The value of arguments says nothing. -/
inductive Lowers : Piece → Tables → List Line → Tables → Value → Prop where
  | var {i x t slot} : t.scope.find x = .ok slot →
      Lowers (.node (.var i x)) t [.instr (.mov (.reg .eax) (.slot slot.offset))] t
        (.unknown slot.ty)
  | int {i n t} :
      Lowers (.node (.int i n)) t [.instr (.mov (.reg .eax) (.imm n.toInt))] t (.int n)
  | str {i s t} : Lowers (.node (.str i s)) t (stringCode i s) t (.str s)
  | binary {i op l r t c₁ t₁ b c₂ t₂ a v} : Lowers (.node r) t c₁ t₁ b →
      Lowers (.node l) t₁ c₂ t₂ a → op.fold a b = .ok v →
      Lowers (.node (.binary i op l r)) t
        (c₁ ++ .instr (.push (.reg .eax)) :: (c₂ ++ .instr (.pop .ebx) :: op.code)) t₂ v
  | unary {i op e t c t' a v} : Lowers (.node e) t c t' a → op.fold a = .ok v →
      Lowers (.node (.unary i op e)) t (c ++ op.code.map .instr) t' v
  | read {i t} : Lowers (.node (.read i)) t (readCode.map .instr) t (.unknown .int)
  | call {i f as t r c t' v} : t.routines.find f = .ok r → r.params.length = as.length →
      Lowers (.args as) t c t' v →
      Lowers (.node (.call i f as)) t (c ++ (callCode f as.length).map .instr) t'
        (.unknown r.returns)
  | assign {i x e t c t' a slot s} : Lowers (.node e) t c t' a →
      t'.scope.retag x a.ty = .ok (slot, s) →
      Lowers (.node (.assign i x e)) t (c ++ [.instr (.mov (.slot slot.offset) (.reg .eax))])
        { t' with scope := s } .void
  | declare {i x t slot s} : t.scope.declareLocal x .int = .ok (slot, s) →
      Lowers (.node (.declare i x)) t [.instr (.mov (.slot slot.offset) (.imm 0))]
        { t with scope := s } .void
  | define {i x e t slot s c t' a slot' s'} : t.scope.declareLocal x .int = .ok (slot, s) →
      Lowers (.node e) { t with scope := s } c t' a → t'.scope.retag x a.ty = .ok (slot', s') →
      Lowers (.node (.define i x e)) t
        (.instr (.mov (.slot slot.offset) (.imm 0)) ::
          (c ++ [.instr (.mov (.slot slot.offset) (.reg .eax))])) { t' with scope := s' } .void
  | print {i e t c t' a} : Lowers (.node e) t c t' a →
      Lowers (.node (.print i e)) t (c ++ printCode.map .instr) t' .void
  | ret {i e t c t' a} : Lowers (.node e) t c t' a →
      Lowers (.node (.ret i e)) t (c ++ leave.map .instr) t' a
  | branch {i e ys ns t c t₁ a c₁ t₂ a₁ c₂ t₃ a₂} : Lowers (.node e) t c t₁ a →
      Lowers (.block ys) t₁ c₁ t₂ a₁ → Lowers (.block ns) t₂ c₂ t₃ a₂ →
      Lowers (.node (.branch i e ys ns)) t
        (c ++ ((jumpIfFalse (.branchElse i)).map .instr ++
          (c₁ ++ .instr (.jmp (.branchEnd i)) :: .label (.branchElse i) ::
            (c₂ ++ [.label (.branchEnd i)])))) t₃ .void
  | loop {i e body t c t₁ a c₁ t₂ a₁} : Lowers (.node e) t c t₁ a →
      Lowers (.block body) t₁ c₁ t₂ a₁ →
      Lowers (.node (.loop i e body)) t
        (.label (.loopStart i) :: (c ++ ((jumpIfFalse (.loopExit i)).map .instr ++
          (c₁ ++ [.instr (.jmp (.loopStart i)), .label (.loopExit i)])))) t₂ .void
  | function {i f ps body t rs s c u v} : t.routines.declare f ps = .ok rs →
      Scope.empty.declareParams ps = .ok s → Lowers (.block body) ⟨s, rs⟩ c u v →
      Lowers (.node (.function i f ps body)) t
        (enter i f ++ (c ++ finish i u.scope.frameSize)) ⟨t.scope, u.routines.noted f v.ty⟩ .void
  | block {i body t c t' v} : Lowers (.block body) t c t' v →
      Lowers (.node (.block i body)) t c t' v
  | skip {i t} : Lowers (.node (.skip i)) t [] t .void
  | nil {t} : Lowers (.block []) t [] t .void
  /-- A block ends with a `return` of its own. -/
  | last {n rest t c t' v} : n.isReturn = true → Lowers (.node n) t c t' v →
      Lowers (.block (n :: rest)) t c t' v
  | cons {n rest t c₁ t₁ a c₂ t₂ v} : n.isReturn = false → Lowers (.node n) t c₁ t₁ a →
      Lowers (.block rest) t₁ c₂ t₂ v → Lowers (.block (n :: rest)) t (c₁ ++ c₂) t₂ v
  | noArgs {t} : Lowers (.args []) t [] t .void
  | arg {n rest t c₁ t₁ a c₂ t₂ b} : Lowers (.args rest) t c₁ t₁ a →
      Lowers (.node n) t₁ c₂ t₂ b →
      Lowers (.args (n :: rest)) t (c₁ ++ (c₂ ++ [.instr (.push (.reg .eax))])) t₂ .void

theorem declareParams_eq_ok {ps : List String} {c : List Line} {t t' : Tables} {u : Unit} :
    Lowering.declareParams ps t = ⟨c, t', .ok u⟩ ↔
      c = [] ∧ ∃ s, t.scope.declareParams ps = .ok s ∧ t' = { t with scope := s } := by
  induction ps generalizing t c with
  | nil =>
    simp only [Lowering.declareParams, Emitter.pure_eq_ok, Scope.declareParams, Except.ok.injEq]
    constructor
    · rintro ⟨rfl, rfl, -⟩
      exact ⟨rfl, _, rfl, rfl⟩
    · rintro ⟨rfl, _, rfl, rfl⟩
      exact ⟨rfl, rfl, trivial⟩
  | cons x xs ih =>
    simp only [Lowering.declareParams, Emitter.bind_eq_ok, Emitter.changeScope_eq_ok, ih,
      Scope.declareParams]
    cases h : t.scope.declareParam x with
    | error e => simp [Except.bind]
    | ok p =>
      obtain ⟨slot, s⟩ := p
      simp only [Except.bind, Except.ok.injEq, Prod.mk.injEq]
      constructor
      · rintro ⟨_, _, _, _, ⟨rfl, _, ⟨rfl, rfl⟩, rfl⟩, ⟨rfl, s', hs, rfl⟩, rfl⟩
        exact ⟨rfl, s', hs, rfl⟩
      · rintro ⟨rfl, s', hs, rfl⟩
        exact ⟨[], _, slot, [], ⟨rfl, s, ⟨rfl, rfl⟩, rfl⟩, ⟨rfl, s', hs, rfl⟩, rfl⟩

theorem noteResult_eq_ok {f : String} {ty : Ty} {c : List Line} {t t' : Tables} {u : Unit} :
    noteResult f ty t = ⟨c, t', .ok u⟩ ↔
      c = [] ∧ t' = { t with routines := t.routines.noted f ty } := by
  by_cases h : ty = .void
  · simp [noteResult, h, Emitter.pure_eq_ok, Routines.noted]
  · simp only [noteResult, h, if_false, Emitter.returning, Routines.noted, Emission.mk.injEq]
    grind

theorem checkArity_eq_ok {r : Routine} {f : String} {n : Nat} {u : Unit} :
    r.checkArity f n = .ok u ↔ r.params.length = n := by
  by_cases h : r.params.length = n <;> simp [Routine.checkArity, h]

mutual

theorem lowers_of_evaluate : ∀ (n : Node Nat) {t c t' v}, evaluate n t = ⟨c, t', .ok v⟩ →
    Lowers (.node n) t c t' v
  | .var _ _, t, c, t', v, h => by
    simp only [evaluate, ↓Emitter.instrs_bind_eq_ok, Emitter.bind_eq_ok, Emitter.find_eq_ok,
      Emitter.pure_eq_ok] at h
    obtain ⟨_, _, slot, _, ⟨rfl, rfl, hx⟩, ⟨_, ⟨rfl, rfl, rfl⟩, rfl⟩, rfl⟩ := h
    exact .var hx
  | .int _ _, t, c, t', v, h => by
    simp only [evaluate, Emitter.instrs_bind_eq_ok, Emitter.pure_eq_ok] at h
    obtain ⟨_, ⟨rfl, rfl, rfl⟩, rfl⟩ := h
    exact .int
  | .str _ _, t, c, t', v, h => by
    simp only [evaluate, Emitter.emit_bind_eq_ok, Emitter.pure_eq_ok] at h
    obtain ⟨_, ⟨rfl, rfl, rfl⟩, rfl⟩ := h
    simpa using Lowers.str
  | .binary _ op l r, t, c, t', v, h => by
    simp only [evaluate, ↓Emitter.instrs_bind_eq_ok, ↓Emitter.emit_bind_eq_ok, Emitter.bind_eq_ok,
      Emitter.ofExcept_eq_ok, Emitter.pure_eq_ok] at h
    obtain ⟨_, _, b, _, hr, ⟨_, ⟨_, _, a, _, hl, ⟨_, ⟨_, _, _, _, ⟨rfl, rfl, hv⟩,
      ⟨_, ⟨rfl, rfl, rfl⟩, rfl⟩, rfl⟩, rfl⟩, rfl⟩, rfl⟩, rfl⟩ := h
    simpa using Lowers.binary (lowers_of_evaluate r hr) (lowers_of_evaluate l hl) hv
  | .unary _ op e, t, c, t', v, h => by
    simp only [evaluate, ↓Emitter.instrs_bind_eq_ok, Emitter.bind_eq_ok, Emitter.ofExcept_eq_ok,
      Emitter.pure_eq_ok] at h
    obtain ⟨_, _, a, _, he, ⟨_, _, _, _, ⟨rfl, rfl, hv⟩, ⟨_, ⟨rfl, rfl, rfl⟩, rfl⟩, rfl⟩,
      rfl⟩ := h
    simpa using Lowers.unary (lowers_of_evaluate e he) hv
  | .read _, t, c, t', v, h => by
    simp only [evaluate, Emitter.instrs_bind_eq_ok, Emitter.pure_eq_ok] at h
    obtain ⟨_, ⟨rfl, rfl, rfl⟩, rfl⟩ := h
    simpa using Lowers.read
  | .call _ f as, t, c, t', v, h => by
    simp only [evaluate, ↓Emitter.instrs_bind_eq_ok, Emitter.bind_eq_ok, Emitter.findRoutine_eq_ok,
      Emitter.ofExcept_eq_ok, Emitter.pure_eq_ok, checkArity_eq_ok] at h
    obtain ⟨_, _, r, _, ⟨rfl, rfl, hf⟩, ⟨_, _, _, _, ⟨rfl, rfl, hn⟩, ⟨_, _, _, _, has,
      ⟨_, ⟨rfl, rfl, rfl⟩, rfl⟩, rfl⟩, rfl⟩, rfl⟩ := h
    simpa using Lowers.call hf hn (lowers_of_pushArgs as has)
  | .assign _ x e, t, c, t', v, h => by
    simp only [evaluate, ↓Emitter.instrs_bind_eq_ok, Emitter.bind_eq_ok,
      Emitter.changeScope_eq_ok, Emitter.pure_eq_ok] at h
    obtain ⟨_, _, a, _, he, ⟨_, _, slot, _, ⟨rfl, s, hs, rfl⟩, ⟨_, ⟨rfl, rfl, rfl⟩, rfl⟩, rfl⟩,
      rfl⟩ := h
    simpa using Lowers.assign (lowers_of_evaluate e he) hs
  | .declare _ x, t, c, t', v, h => by
    simp only [evaluate, ↓Emitter.instrs_bind_eq_ok, Emitter.bind_eq_ok,
      Emitter.changeScope_eq_ok, Emitter.pure_eq_ok] at h
    obtain ⟨_, _, slot, _, ⟨rfl, s, hs, rfl⟩, ⟨_, ⟨rfl, rfl, rfl⟩, rfl⟩, rfl⟩ := h
    exact .declare hs
  | .define _ x e, t, c, t', v, h => by
    simp only [evaluate, ↓Emitter.instrs_bind_eq_ok, Emitter.bind_eq_ok,
      Emitter.changeScope_eq_ok, Emitter.pure_eq_ok] at h
    obtain ⟨_, _, slot, _, ⟨rfl, s, hs, rfl⟩, ⟨_, ⟨_, _, a, _, he, ⟨_, _, slot', _,
      ⟨rfl, s', hs', rfl⟩, ⟨_, ⟨rfl, rfl, rfl⟩, rfl⟩, rfl⟩, rfl⟩, rfl⟩, rfl⟩ := h
    simpa using Lowers.define hs (lowers_of_evaluate e he) hs'
  | .print _ e, t, c, t', v, h => by
    simp only [evaluate, ↓Emitter.instrs_bind_eq_ok, Emitter.bind_eq_ok, Emitter.pure_eq_ok] at h
    obtain ⟨_, _, a, _, he, ⟨_, ⟨rfl, rfl, rfl⟩, rfl⟩, rfl⟩ := h
    simpa using Lowers.print (lowers_of_evaluate e he)
  | .ret _ e, t, c, t', v, h => by
    simp only [evaluate, ↓Emitter.instrs_bind_eq_ok, Emitter.bind_eq_ok, Emitter.pure_eq_ok] at h
    obtain ⟨_, _, a, _, he, ⟨_, ⟨rfl, rfl, rfl⟩, rfl⟩, rfl⟩ := h
    simpa using Lowers.ret (lowers_of_evaluate e he)
  | .branch i e ys ns, t, c, t', v, h => by
    simp only [evaluate, ↓Emitter.instrs_bind_eq_ok, ↓Emitter.emit_bind_eq_ok, Emitter.bind_eq_ok,
      Emitter.pure_eq_ok] at h
    obtain ⟨_, _, a, _, he, ⟨_, ⟨_, _, _, _, hys, ⟨_, ⟨_, _, _, _, hns, ⟨_, ⟨rfl, rfl, rfl⟩, rfl⟩,
      rfl⟩, rfl⟩, rfl⟩, rfl⟩, rfl⟩ := h
    simpa using Lowers.branch (lowers_of_evaluate e he) (lowers_of_evaluateBlock ys hys)
      (lowers_of_evaluateBlock ns hns)
  | .loop i e body, t, c, t', v, h => by
    rw [evaluate, Emitter.emit_bind_eq_ok] at h
    simp only [↓Emitter.instrs_bind_eq_ok, ↓Emitter.emit_bind_eq_ok, Emitter.bind_eq_ok,
      Emitter.pure_eq_ok] at h
    obtain ⟨_, ⟨_, _, a, _, he, ⟨_, ⟨_, _, _, _, hb, ⟨_, ⟨rfl, rfl, rfl⟩, rfl⟩, rfl⟩, rfl⟩, rfl⟩,
      rfl⟩ := h
    simpa using Lowers.loop (lowers_of_evaluate e he) (lowers_of_evaluateBlock body hb)
  | .function i f ps body, t, c, t', v, h => by
    simp only [evaluate, ↓Emitter.emit_bind_eq_ok, Emitter.bind_eq_ok,
      Emitter.declareRoutine_eq_ok, Emitter.emit_eq_ok, Emitter.inFrame_eq_ok, declareParams_eq_ok,
      noteResult_eq_ok, Emitter.frameSize_eq_ok, Emitter.pure_eq_ok] at h
    obtain ⟨_, _, _, _, ⟨rfl, rs, hrs, rfl⟩, ⟨_, ⟨_, _, _, _, ⟨_, hbody, rfl⟩, ⟨rfl, rfl, rfl⟩,
      rfl⟩, rfl⟩, rfl⟩ := h
    obtain ⟨_, _, _, _, ⟨rfl, s, hs, rfl⟩, ⟨_, u, v, _, hb, ⟨_, _, _, _, ⟨rfl, rfl⟩,
      ⟨_, _, _, _, ⟨rfl, rfl, rfl⟩, ⟨rfl, rfl⟩, rfl⟩, rfl⟩, rfl⟩, rfl⟩ := hbody
    simpa using Lowers.function hrs hs (lowers_of_evaluateBlock body hb)
  | .block _ body, t, c, t', v, h => by
    rw [evaluate] at h
    exact .block (lowers_of_evaluateBlock body h)
  | .skip _, t, c, t', v, h => by
    simp only [evaluate, Emitter.pure_eq_ok] at h
    obtain ⟨rfl, rfl, rfl⟩ := h
    exact .skip

theorem lowers_of_evaluateBlock : ∀ (body : List (Node Nat)) {t c t' v},
    evaluateBlock body t = ⟨c, t', .ok v⟩ → Lowers (.block body) t c t' v
  | [], t, c, t', v, h => by
    simp only [evaluateBlock, Emitter.pure_eq_ok] at h
    obtain ⟨rfl, rfl, rfl⟩ := h
    exact .nil
  | n :: rest, t, c, t', v, h => by
    simp only [evaluateBlock, Emitter.bind_eq_ok] at h
    obtain ⟨c₁, t₁, a, c₂, hn, hrest, rfl⟩ := h
    split at hrest
    · rename_i hret
      rw [Emitter.pure_eq_ok] at hrest
      obtain ⟨rfl, rfl, rfl⟩ := hrest
      simpa using Lowers.last hret (lowers_of_evaluate n hn)
    · rename_i hret
      exact .cons (by simpa using hret) (lowers_of_evaluate n hn)
        (lowers_of_evaluateBlock rest hrest)

theorem lowers_of_pushArgs : ∀ (as : List (Node Nat)) {t c t' u},
    pushArgs as t = ⟨c, t', .ok u⟩ → Lowers (.args as) t c t' .void
  | [], t, c, t', u, h => by
    simp only [pushArgs, Emitter.pure_eq_ok] at h
    obtain ⟨rfl, rfl, -⟩ := h
    exact .noArgs
  | n :: rest, t, c, t', u, h => by
    simp only [pushArgs, Emitter.bind_eq_ok, Emitter.instrs_eq_ok] at h
    obtain ⟨_, _, _, _, hrest, ⟨_, _, _, _, hn, ⟨rfl, rfl⟩, rfl⟩, rfl⟩ := h
    simpa using Lowers.arg (lowers_of_pushArgs rest hrest) (lowers_of_evaluate n hn)

end

/-- The emitter of a piece. -/
def Piece.emit : Piece → Emitter Value
  | .node n => evaluate n
  | .block body => evaluateBlock body
  | .args as => do
    pushArgs as
    return .void

theorem pushArgs_of_emit {as : List (Node Nat)} {t c t' v}
    (h : (Piece.args as).emit t = ⟨c, t', .ok v⟩) : pushArgs as t = ⟨c, t', .ok ()⟩ := by
  simp only [Piece.emit, Emitter.bind_eq_ok, Emitter.pure_eq_ok] at h
  obtain ⟨c₁, t₁, _, _, h, ⟨rfl, rfl, rfl⟩, rfl⟩ := h
  rw [List.append_nil]
  exact h

open Emitter in
theorem emit_of_lowers {p t c t' v} (h : Lowers p t c t' v) : p.emit t = ⟨c, t', .ok v⟩ := by
  induction h with
  | var hx =>
    simp only [Piece.emit, evaluate]
    exact bind_ok (find_eq_ok.mpr ⟨rfl, rfl, hx⟩) (bind_ok rfl rfl rfl) rfl
  | int | str | read =>
    simp only [Piece.emit, evaluate]
    exact bind_ok rfl rfl rfl
  | binary _ _ hop ihr ihl =>
    simp only [Piece.emit, evaluate] at *
    exact bind_ok ihr (bind_ok rfl (bind_ok ihl (bind_ok rfl
      (bind_ok (ofExcept_eq_ok.mpr ⟨rfl, rfl, hop⟩) (bind_ok rfl rfl rfl) rfl) rfl) rfl) rfl)
      (by simp)
  | unary _ hop ih =>
    simp only [Piece.emit, evaluate] at *
    exact bind_ok ih (bind_ok (ofExcept_eq_ok.mpr ⟨rfl, rfl, hop⟩) (bind_ok rfl rfl rfl) rfl)
      (by simp)
  | call hf hn _ ih =>
    have has := pushArgs_of_emit ih
    simp only [Piece.emit, evaluate]
    exact bind_ok (findRoutine_eq_ok.mpr ⟨rfl, rfl, hf⟩) (bind_ok
      (ofExcept_eq_ok.mpr ⟨rfl, rfl, checkArity_eq_ok (u := ()).mpr hn⟩) (bind_ok has
        (bind_ok rfl rfl rfl) rfl) rfl) (by simp)
  | assign _ hs ih =>
    simp only [Piece.emit, evaluate] at *
    exact bind_ok ih (bind_ok (changeScope_eq_ok.mpr ⟨rfl, _, hs, rfl⟩) (bind_ok rfl rfl rfl) rfl)
      (by simp)
  | declare hs =>
    simp only [Piece.emit, evaluate]
    exact bind_ok (changeScope_eq_ok.mpr ⟨rfl, _, hs, rfl⟩) (bind_ok rfl rfl rfl) rfl
  | define hs _ hs' ih =>
    simp only [Piece.emit, evaluate] at *
    exact bind_ok (changeScope_eq_ok.mpr ⟨rfl, _, hs, rfl⟩) (bind_ok rfl (bind_ok ih
      (bind_ok (changeScope_eq_ok.mpr ⟨rfl, _, hs', rfl⟩) (bind_ok rfl rfl rfl) rfl) rfl) rfl)
      (by simp)
  | print _ ih | ret _ ih =>
    simp only [Piece.emit, evaluate] at *
    exact bind_ok ih (bind_ok rfl rfl rfl) (by simp)
  | branch _ _ _ ihc ihy ihn =>
    simp only [Piece.emit, evaluate] at *
    exact bind_ok ihc (bind_ok rfl (bind_ok ihy (bind_ok rfl (bind_ok ihn
      (bind_ok rfl rfl rfl) rfl) rfl) rfl) rfl) (by simp)
  | loop _ _ ihc ihb =>
    simp only [Piece.emit, evaluate] at *
    exact bind_ok rfl (bind_ok ihc (bind_ok rfl (bind_ok ihb (bind_ok rfl rfl rfl) rfl) rfl) rfl)
      (by simp)
  | @function _ _ _ _ _ rs _ _ _ _ hrs hs _ ih =>
    simp only [Piece.emit, evaluate] at *
    have hroutine := declareRoutine_eq_ok (u := ()).mpr ⟨rfl, _, hrs, rfl⟩
    have hparams := declareParams_eq_ok (t := ⟨.empty, rs⟩) (u := ()).mpr ⟨rfl, _, hs, rfl⟩
    exact bind_ok hroutine (bind_ok rfl (bind_ok
      (inFrame_eq_ok.mpr ⟨_, bind_ok hparams (bind_ok ih
        (bind_ok (noteResult_eq_ok (u := ()).mpr ⟨rfl, rfl⟩) (bind_ok rfl rfl rfl) rfl) rfl) rfl,
        rfl⟩) rfl rfl) rfl) (by simp)
  | block _ ih =>
    simp only [Piece.emit, evaluate] at *
    exact ih
  | skip =>
    simp only [Piece.emit, evaluate]
    rfl
  | nil =>
    simp only [Piece.emit, evaluateBlock]
    rfl
  | noArgs =>
    simp only [Piece.emit, pushArgs]
    rfl
  | last hret _ ih =>
    simp only [Piece.emit, evaluateBlock, hret] at *
    exact bind_ok ih rfl (by simp)
  | cons hret _ _ ih ihrest =>
    simp only [Piece.emit, evaluateBlock, hret] at *
    exact bind_ok ih ihrest rfl
  | arg _ _ ihrest ih =>
    have has := pushArgs_of_emit ihrest
    simp only [Piece.emit, pushArgs] at *
    exact bind_ok (bind_ok has (bind_ok ih rfl rfl) rfl) rfl (by simp)

/-- A listing is the frame's opening, the code of the root and the size of the frame. -/
theorem lowers_of_generate {root : Node Nat} {listing : Listing}
    (h : generate root = .ok listing) :
    ∃ c t v, Lowers (.node root) ⟨.empty, .empty⟩ c t v ∧
      listing.body = .instr (.sub (.reg .esp) (.sym .mainFrameSize)) ::
        (c ++ [.equ .mainFrameSize t.scope.frameSize.toInt]) := by
  simp only [generate, generateWith] at h
  cases hp : program root ⟨.empty, .empty⟩ with
  | mk code t r =>
    rw [hp] at h
    cases r with
    | error e => cases h
    | ok u =>
      cases h
      simp only [program, Emitter.bind_eq_ok, Emitter.instrs_eq_ok, Emitter.emit_eq_ok,
        Emitter.frameSize_eq_ok] at hp
      obtain ⟨_, _, _, _, ⟨rfl, rfl⟩, ⟨c, t, v, _, hc, ⟨_, _, _, _, ⟨rfl, rfl, rfl⟩, ⟨rfl, rfl⟩,
        rfl⟩, rfl⟩, rfl⟩ := hp
      exact ⟨c, t, v, lowers_of_evaluate root hc, rfl⟩

/-- A text that is compiled is a program, whose tree is lowered. -/
theorem compile_eq_ok {source : String} {listing : Listing} :
    compile source = .ok listing ↔
      ∃ root, (Source.parse source 0).1 = .ok root ∧ generate root = .ok listing := by
  cases h : (Source.parse source 0).1 with
  | error e => simp [compile, Compiler.compile, Compiler.new, h, Except.bind]
  | ok root => simp [compile, Compiler.compile, Compiler.new, h, Except.bind]

theorem ok_of_toBool {ε α : Type} {x : Except ε α} (h : x.toBool = true) : ∃ a, x = .ok a := by
  cases x with
  | error e => cases h
  | ok a => exact ⟨a, rfl⟩

end Onepass
