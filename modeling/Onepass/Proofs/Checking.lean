import Onepass.Lowering

/-!
# Onepass.Proofs.Checking

The rules of names and types, apart from the code. A checker knows the variables of the frame it
is in, each with the type of what it was last given, and the functions declared so far, each with
the number of its parameters and the type of its result. It has no numbers, no addresses and no
values.

* `check` -- the type of a node, the parts looked at in the order in which they are run.
* `typecheck` -- the outcome for a whole program.
* `tracks_evaluate` -- the emitter of a node ends as the checker does, with the same names known.
* `generate_eq_typecheck` -- so a program has code if and only if it passes, and otherwise the
  error of the one is that of the other.
-/

namespace Onepass
namespace Dictionary

variable {α β : Type}

def map (d : Dictionary α) (f : α → β) : Dictionary β := ⟨d.entries.map fun (x, a) => (x, f a)⟩

@[simp] theorem get?_map (d : Dictionary α) (f : α → β) (x : String) :
    (d.map f).get? x = (d.get? x).map f := by
  obtain ⟨entries⟩ := d
  simp only [get?, map]
  induction entries with
  | nil => rfl
  | cons e entries ih =>
    obtain ⟨y, a⟩ := e
    cases h : x == y <;> simp only [List.map_cons, List.lookup_cons, h, ih, Option.map_some]

@[simp] theorem contains_map (d : Dictionary α) (f : α → β) (x : String) :
    (d.map f).contains x = d.contains x := by
  simp [contains]

theorem map_modify (d : Dictionary α) (x : String) {f : α → β} {g : α → α} {k : β → β}
    (h : ∀ a, f (g a) = k (f a)) : (d.modify x g).map f = (d.map f).modify x k := by
  simp only [map, modify, List.map_map, Dictionary.mk.injEq]
  refine List.map_congr_left ?_
  rintro ⟨y, a⟩ -
  by_cases hy : y = x <;> simp [hy, h]

end Dictionary

/-- What a caller sees of a function. -/
structure Signature where
  params : Nat
  returns : Ty

structure Names where
  vars : Dictionary Ty
  functions : Dictionary Signature

abbrev Checker := StateT Names (Except Error)

namespace Checker

variable {α : Type}

def var (x : String) : Checker Ty := fun n =>
  match n.vars.get? x with
  | some ty => .ok (ty, n)
  | none => .error (.undeclaredVariable x)

/-- A new variable is an integer. -/
def declareVar (x : String) : Checker Unit := fun n =>
  if n.vars.contains x then .error (.duplicateVariable x)
  else .ok ((), { n with vars := n.vars.insert x .int })

/-- The variable holds something of type `ty` from here on. -/
def setVar (x : String) (ty : Ty) : Checker Unit := fun n =>
  if n.vars.contains x then .ok ((), { n with vars := n.vars.modify x fun _ => ty })
  else .error (.undeclaredVariable x)

def function (f : String) : Checker Signature := fun n =>
  match n.functions.get? f with
  | some s => .ok (s, n)
  | none => .error (.undeclaredFunction f)

/-- The result of a new function is an integer. -/
def declareFunction (f : String) (params : Nat) : Checker Unit := fun n =>
  if n.functions.contains f then .error (.duplicateFunction f)
  else .ok ((), { n with functions := n.functions.insert f ⟨params, .int⟩ })

/-- What a body that ends without a `return` of its own gives says nothing of the result. -/
def setResult (f : String) (ty : Ty) : Checker Unit := fun n =>
  if ty = .void then .ok ((), n)
  else .ok ((), { n with functions := n.functions.modify f fun s => { s with returns := ty } })

/-- The variables around a frame are not seen from within, and are as before behind it. -/
def inFrame (c : Checker α) : Checker α := fun n =>
  (c { n with vars := .empty }).map fun (a, inner) => (a, { inner with vars := n.vars })

end Checker

def Signature.checkArity (s : Signature) (f : String) (given : Nat) : Except Error Unit :=
  if s.params = given then .ok () else .error (.arity f s.params given)

/-- Arithmetic is for integers, a comparison for two things of one type, and joining for anything
that an expression gives. -/
def BinaryOp.check (op : BinaryOp) (left right : Ty) : Except Error Ty :=
  match op with
  | .arith op =>
    if left = .int ∧ right = .int then .ok .int else .error (.arithmetic op left right)
  | .relation op =>
    if left = right ∧ left ≠ .void then .ok .int else .error (.mismatch op left right)
  | .concat =>
    if left = .void ∨ right = .void then .error (.concat left right) else .ok .string

def UnaryOp.check (op : UnaryOp) (ty : Ty) : Except Error Ty :=
  if ty = .int then .ok .int else .error (.operand op ty)

namespace Checker

variable {ι : Type}

mutual

/-- The type of a node. Of a call it is the one known when the function's name is looked up. -/
def check : Node ι → Checker Ty
  | .var _ x => var x
  | .int _ _ => return .int
  | .str _ _ => return .string
  | .read _ => return .int
  | .binary _ op left right => do
    let r ← check right
    let l ← check left
    op.check l r
  | .unary _ op operand => do
    op.check (← check operand)
  | .call _ f args => do
    let s ← function f
    s.checkArity f args.length
    checkArgs args
    return s.returns
  | .assign _ x value => do
    setVar x (← check value)
    return .void
  | .declare _ x => do
    declareVar x
    return .void
  | .define _ x value => do
    declareVar x
    setVar x (← check value)
    return .void
  | .print _ value => do
    let _ ← check value
    return .void
  | .ret _ value => check value
  | .branch _ cond yes no => do
    let _ ← check cond
    let _ ← checkBlock yes
    let _ ← checkBlock no
    return .void
  | .loop _ cond body => do
    let _ ← check cond
    let _ ← checkBlock body
    return .void
  | .function _ f params body => do
    declareFunction f params.length
    inFrame do
      params.forM declareVar
      setResult f (← checkBlock body)
    return .void
  | .block _ body => checkBlock body
  | .skip _ => return .void

/-- The first `return` among the statements themselves is the last that is looked at. -/
def checkBlock : List (Node ι) → Checker Ty
  | [] => return .void
  | s :: rest => do
    let ty ← check s
    if s.isReturn then return ty else checkBlock rest

/-- The last argument is looked at first. -/
def checkArgs : List (Node ι) → Checker Unit
  | [] => return ()
  | a :: rest => do
    checkArgs rest
    let _ ← check a
    return ()

end

/-- Is the program well formed, and if not, what is the first thing that is wrong? -/
def typecheck (root : Node ι) : Except Error Unit :=
  (check root ⟨.empty, .empty⟩).map fun _ => ()

end Checker

namespace Tables

def names (t : Tables) : Names :=
  ⟨t.scope.slots.map (·.ty), t.routines.map fun r => ⟨r.params.length, r.returns⟩⟩

end Tables

open Checker Emitter

/-- The checker ends as the emitter does, with the same names known. -/
def Tracks {α β : Type} (view : α → β) (x : Emitter α) (c : Checker β) : Prop :=
  ∀ t, c t.names = (x t).result.map fun a => (view a, (x t).tables.names)

namespace Tracks

variable {α β γ δ : Type} {view : α → β} {view' : γ → δ}

theorem bind {x : Emitter α} {f : α → Emitter γ} {c : Checker β} {k : β → Checker δ}
    (hx : Tracks view x c) (hf : ∀ a, Tracks view' (f a) (k (view a))) :
    Tracks view' (x >>= f) (c >>= k) := by
  intro t
  have hc := hx t
  show (c t.names >>= fun p => k p.1 p.2) = _
  cases hr : (x t).result with
  | error e => rw [hc, bind_apply_error hr, hr]; rfl
  | ok a =>
    rw [hc, bind_apply_ok hr, hr]
    exact hf a (x t).tables

theorem pure {a : α} {b : β} (h : view a = b) : Tracks view (Pure.pure a) (Pure.pure b) :=
  h ▸ fun _ => rfl

/-- What comes behind the last thing that a checker looks at. -/
theorem last {view' : γ → β} {x : Emitter α} {f : α → Emitter γ} {c : Checker β}
    (hx : Tracks view x c) (hf : ∀ a, Tracks view' (f a) (Pure.pure (view a))) :
    Tracks view' (x >>= f) c := by
  rw [← bind_pure c]
  exact hx.bind hf

theorem ofExcept {r : Except Error α} {s : Except Error β} (h : s = r.map view) :
    Tracks view (Emitter.ofExcept r) (liftM s) := by
  intro t
  subst h
  cases r <;> rfl

/-- Lines that are emitted are nothing to a checker. -/
theorem emit_pure (code : List Assembly.Line) :
    Tracks id (Emitter.emit code) (Pure.pure ()) := fun _ => rfl

theorem instrs_pure (code : List Assembly.Instr) :
    Tracks id (Emitter.instrs code) (Pure.pure ()) := fun _ => rfl

theorem emit {code : List Assembly.Line} {f : Unit → Emitter γ} {c : Checker δ}
    (hf : Tracks view' (f ()) c) : Tracks view' (Emitter.emit code >>= f) c := fun t => hf t

theorem instrs {code : List Assembly.Instr} {f : Unit → Emitter γ} {c : Checker δ}
    (hf : Tracks view' (f ()) c) : Tracks view' (Emitter.instrs code >>= f) c := emit hf

theorem frameSize {f : Word → Emitter γ} {c : Checker δ} (hf : ∀ w, Tracks view' (f w) c) :
    Tracks view' (Emitter.frameSize >>= f) c := fun t => hf _ t

theorem inFrame {x : Emitter α} {c : Checker β} (hx : Tracks view x c) :
    Tracks view (Emitter.inFrame x) (Checker.inFrame c) := by
  intro t
  have hc : c { t.names with vars := .empty } = _ := hx { t with scope := .empty }
  simp only [Checker.inFrame, Emitter.inFrame, hc]
  cases (x { t with scope := .empty }).result <;> rfl

theorem find (x : String) : Tracks Slot.ty (Emitter.find x) (var x) := by
  intro t
  simp only [var, Emitter.find, Scope.find, Tables.names, Dictionary.get?_map]
  cases t.scope.slots.get? x <;> rfl

theorem declareLocal (x : String) :
    Tracks (fun _ => ()) (changeScope (·.declareLocal x .int)) (declareVar x) := by
  intro t
  simp only [declareVar, changeScope, Scope.declareLocal, Tables.names, Dictionary.contains_map]
  cases t.scope.slots.contains x <;> rfl

theorem declareParam (x : String) :
    Tracks (fun _ => ()) (changeScope (·.declareParam x)) (declareVar x) := by
  intro t
  simp only [declareVar, changeScope, Scope.declareParam, Tables.names, Dictionary.contains_map]
  cases t.scope.slots.contains x <;> rfl

theorem declareParams (xs : List String) :
    Tracks id (Lowering.declareParams xs) (xs.forM declareVar) := by
  induction xs with
  | nil => exact pure rfl
  | cons x xs ih => exact (declareParam x).bind fun _ => ih

theorem retag (x : String) (ty : Ty) :
    Tracks (fun _ => ()) (changeScope (·.retag x ty)) (setVar x ty) := by
  intro t
  have hm := t.scope.slots.map_modify x (f := Slot.ty) (g := fun s => { s with ty })
    (k := fun _ => ty) fun _ => rfl
  cases h : t.scope.slots.get? x <;>
    simp [setVar, changeScope, Scope.retag, Tables.names, Dictionary.contains, Except.map, h, hm]

theorem findRoutine (f : String) :
    Tracks (fun r => ⟨r.params.length, r.returns⟩) (Emitter.findRoutine f) (function f) := by
  intro t
  simp only [function, Emitter.findRoutine, Routines.find, Tables.names, Dictionary.get?_map]
  cases t.routines.get? f <;> rfl

theorem declareRoutine (f : String) (params : List String) :
    Tracks id (Emitter.declareRoutine f params) (declareFunction f params.length) := by
  intro t
  simp only [declareFunction, Emitter.declareRoutine, Routines.declare, Tables.names,
    Dictionary.contains_map]
  cases t.routines.contains f <;> rfl

theorem noteResult (f : String) (ty : Ty) :
    Tracks id (Lowering.noteResult f ty) (setResult f ty) := by
  intro t
  by_cases h : ty = .void
  · simp [setResult, Lowering.noteResult, h, pure_apply, Except.map]
  · have hm := t.routines.map_modify f
      (f := fun r => (⟨r.params.length, r.returns⟩ : Signature))
      (g := fun r => { r with returns := ty }) (k := fun s => { s with returns := ty })
      fun _ => rfl
    simp [setResult, Lowering.noteResult, h, returning, Routines.returning, Tables.names, hm,
      Except.map]

end Tracks

theorem BinaryOp.check_eq_fold (op : BinaryOp) (l r : Value) :
    op.check l.ty r.ty = (op.fold l r).map Value.ty := by
  rcases op with op | op | _
  · cases l <;> cases r <;> rfl
  · cases l <;> cases r <;> rfl
  · cases l <;> cases r <;> rfl

theorem UnaryOp.check_eq_fold (op : UnaryOp) (v : Value) :
    op.check v.ty = (op.fold v).map Value.ty := by
  cases v <;> rfl

theorem Signature.checkArity_eq (r : Routine) (f : String) (given : Nat) :
    Signature.checkArity ⟨r.params.length, r.returns⟩ f given =
      (r.checkArity f given).map id := by
  simp only [Signature.checkArity, Routine.checkArity]
  split <;> rfl

mutual

theorem tracks_evaluate : ∀ t : Node Nat, Tracks Value.ty (evaluate t) (check t)
  | .var _ x => by
    simp only [evaluate, check]
    refine (Tracks.find x).last fun slot => ?_
    exact .instrs (.pure (Value.ty_unknown _))
  | .int _ n => by
    simp only [evaluate, check]
    exact .instrs (.pure rfl)
  | .str _ s => by
    simp only [evaluate, check]
    exact .emit (.pure rfl)
  | .read _ => by
    simp only [evaluate, check]
    exact .instrs (.pure rfl)
  | .binary _ op left right => by
    simp only [evaluate, check]
    refine (tracks_evaluate right).bind fun r => .instrs ?_
    refine (tracks_evaluate left).bind fun l => .instrs ?_
    refine (Tracks.ofExcept (op.check_eq_fold l r)).last fun v => ?_
    exact .emit (.pure rfl)
  | .unary _ op operand => by
    simp only [evaluate, check]
    refine (tracks_evaluate operand).bind fun v => ?_
    refine (Tracks.ofExcept (op.check_eq_fold v)).last fun w => ?_
    exact .instrs (.pure rfl)
  | .call _ f args => by
    simp only [evaluate, check]
    refine (Tracks.findRoutine f).bind fun r => ?_
    refine (Tracks.ofExcept (Signature.checkArity_eq r f _)).bind fun _ => ?_
    refine (tracks_pushArgs args).bind fun _ => .instrs (.pure (Value.ty_unknown _))
  | .assign _ x value => by
    simp only [evaluate, check]
    refine (tracks_evaluate value).bind fun v => ?_
    exact (Tracks.retag x v.ty).bind fun _ => .instrs (.pure rfl)
  | .declare _ x => by
    simp only [evaluate, check]
    exact (Tracks.declareLocal x).bind fun _ => .instrs (.pure rfl)
  | .define _ x value => by
    simp only [evaluate, check]
    refine (Tracks.declareLocal x).bind fun _ => .instrs ?_
    refine (tracks_evaluate value).bind fun v => ?_
    exact (Tracks.retag x v.ty).bind fun _ => .instrs (.pure rfl)
  | .print _ value => by
    simp only [evaluate, check]
    exact (tracks_evaluate value).bind fun _ => .instrs (.pure rfl)
  | .ret _ value => by
    simp only [evaluate, check]
    refine (tracks_evaluate value).last fun v => ?_
    exact .instrs (.pure rfl)
  | .branch _ cond yes no => by
    simp only [evaluate, check]
    refine (tracks_evaluate cond).bind fun _ => .instrs ?_
    refine (tracks_evaluateBlock yes).bind fun _ => .emit ?_
    exact (tracks_evaluateBlock no).bind fun _ => .emit (.pure rfl)
  | .loop _ cond body => by
    simp only [evaluate, check]
    refine .emit ((tracks_evaluate cond).bind fun _ => .instrs ?_)
    exact (tracks_evaluateBlock body).bind fun _ => .emit (.pure rfl)
  | .function _ f params body => by
    simp only [evaluate, check]
    refine (Tracks.declareRoutine f params).bind fun _ => .emit ?_
    refine Tracks.bind (Tracks.inFrame (?_ : Tracks id _ _)) fun _ => .pure rfl
    refine (Tracks.declareParams params).bind fun _ => ?_
    refine (tracks_evaluateBlock body).bind fun result => ?_
    refine (Tracks.noteResult f result.ty).last fun _ => ?_
    exact .frameSize fun _ => .emit_pure _
  | .block _ body => by
    simp only [evaluate, check]
    exact tracks_evaluateBlock body
  | .skip _ => by
    simp only [evaluate, check]
    exact .pure rfl

theorem tracks_evaluateBlock : ∀ ts : List (Node Nat),
    Tracks Value.ty (evaluateBlock ts) (checkBlock ts)
  | [] => by
    simp only [evaluateBlock, checkBlock]
    exact .pure rfl
  | s :: rest => by
    simp only [evaluateBlock, checkBlock]
    refine (tracks_evaluate s).bind fun v => ?_
    split
    · exact .pure rfl
    · exact tracks_evaluateBlock rest

theorem tracks_pushArgs : ∀ ts : List (Node Nat), Tracks id (pushArgs ts) (checkArgs ts)
  | [] => by
    simp only [pushArgs, checkArgs]
    exact .pure rfl
  | a :: rest => by
    simp only [pushArgs, checkArgs]
    refine (tracks_pushArgs rest).bind fun _ => (tracks_evaluate a).bind fun _ => ?_
    exact .instrs_pure _

end

theorem result_program (root : Node Nat) (t : Tables) :
    (program root t).result = (evaluate root t).result.map fun _ => () := by
  show ((evaluate root >>= fun _ => do emit [.equ .mainFrameSize (← frameSize).toInt]) t).result = _
  cases h : (evaluate root t).result with
  | ok v => rw [bind_apply_ok h]; rfl
  | error e => rw [bind_apply_error h]; rfl

/-- A program has code if and only if it passes the checker, and otherwise the error that comes
out is the checker's. -/
theorem generate_eq_typecheck (root : Node Nat) :
    (generate root).map (fun _ => ()) = typecheck root := by
  have h : check root ⟨.empty, .empty⟩ = _ := tracks_evaluate root ⟨.empty, .empty⟩
  simp only [typecheck, h, generate, generateWith, result_program]
  cases (evaluate root ⟨.empty, .empty⟩).result <;> rfl

/-- Of three unknown names it is the function's that is reported: the right operand comes first,
and within it the function before its arguments. -/
example :
    typecheck (.binary () (.arith .add) (.var () "x") (.call () "f" [.var () "y"]) : Tree) =
      .error (.undeclaredFunction "f") := by rfl

end Onepass
