import Mathlib.Data.Set.Function
import Onepass.Lowering

/-!
# Onepass.Proofs.Renaming

Names and numbers are compared with each other and written down, and nothing else is done with
them. A `Renaming` has new numbers for the nodes of a program and new names for its variables and
for its functions.

* `renames_evaluate` -- the emitter of a renamed node does under the new names what that of the
  node does under the old ones.
* `generate_rename`  -- a renamed program has the renamed listing or the renamed error.
* `generate_respell` -- with new names alone, a listing is as before but for the entries of the
  functions.
-/

namespace Onepass

/-- New numbers for nodes, and new names for variables and for functions. -/
structure Renaming where
  number : Nat → Nat
  var : String → String
  function : String → String

/-- Names that differ have new names that differ, of variables in `V` and of functions in `F`. -/
structure Renaming.Apart (ρ : Renaming) (V F : Set String) : Prop where
  var : Set.InjOn ρ.var V
  function : Set.InjOn ρ.function F

/-! ## What is renamed -/

namespace Assembly

/-- Symbols have the numbers of nodes and the names of functions in them, and no variable's. -/
def Symbol.rename (number : Nat → Nat) (function : String → String) : Symbol → Symbol
  | .fixed f => .fixed f
  | .routine f => .routine (function f)
  | .routineEnd i => .routineEnd (number i)
  | .text i => .text (number i)
  | .textEnd i => .textEnd (number i)
  | .branchElse i => .branchElse (number i)
  | .branchEnd i => .branchEnd (number i)
  | .loopStart i => .loopStart (number i)
  | .loopExit i => .loopExit (number i)
  | .frameSize i => .frameSize (number i)
  | .mainFrameSize => .mainFrameSize

section

variable (number : Nat → Nat) (function : String → String)

def Operand.rename : Operand → Operand
  | .reg r => .reg r
  | .imm n => .imm n
  | .sym s => .sym (s.rename number function)
  | .slot offset => .slot offset
  | .cell s => .cell (s.rename number function)

def Instr.rename : Instr → Instr
  | .mov dst src => .mov (dst.rename number function) (src.rename number function)
  | .push src => .push (src.rename number function)
  | .pop r => .pop r
  | .add dst src => .add (dst.rename number function) (src.rename number function)
  | .sub dst src => .sub (dst.rename number function) (src.rename number function)
  | .imul src => .imul (src.rename number function)
  | .cdq => .cdq
  | .idiv src => .idiv (src.rename number function)
  | .and dst src => .and (dst.rename number function) (src.rename number function)
  | .or dst src => .or (dst.rename number function) (src.rename number function)
  | .xor dst src => .xor (dst.rename number function) (src.rename number function)
  | .neg dst => .neg (dst.rename number function)
  | .cmp left right => .cmp (left.rename number function) (right.rename number function)
  | .jmp x => .jmp (x.rename number function)
  | .je x => .je (x.rename number function)
  | .jg x => .jg (x.rename number function)
  | .jl x => .jl (x.rename number function)
  | .call x => .call (x.rename number function)
  | .ret => .ret
  | .interrupt => .interrupt

def Line.rename : Line → Line
  | .blank => .blank
  | .comment text => .comment text
  | .instr i => .instr (i.rename number function)
  | .label s => .label (s.rename number function)
  | .equ s value => .equ (s.rename number function) value
  | .data s items => .data (s.rename number function) items
  | .zeros s count => .zeros (s.rename number function) count
  | .reserve s count => .reserve (s.rename number function) count
  | .segment name => .segment name
  | .codeSection name => .codeSection name
  | .global s => .global (s.rename number function)
  | .external s => .external (s.rename number function)
  | .remark line text => .remark line.rename text

def Listing.rename (l : Listing) : Listing := ⟨l.body.map (Line.rename number function)⟩

end

end Assembly

/-- The error with the names in it renamed. -/
def Error.rename (var function : String → String) : Error → Error
  | .duplicateVariable x => .duplicateVariable (var x)
  | .undeclaredVariable x => .undeclaredVariable (var x)
  | .duplicateFunction f => .duplicateFunction (function f)
  | .undeclaredFunction f => .undeclaredFunction (function f)
  | .arity f expected given => .arity (function f) expected given
  | e => e

namespace Node

section

variable (ρ : Renaming)

mutual

def rename : Node Nat → Node Nat
  | .var i x => .var (ρ.number i) (ρ.var x)
  | .int i n => .int (ρ.number i) n
  | .str i s => .str (ρ.number i) s
  | .binary i op l r => .binary (ρ.number i) op l.rename r.rename
  | .unary i op e => .unary (ρ.number i) op e.rename
  | .read i => .read (ρ.number i)
  | .call i f es => .call (ρ.number i) (ρ.function f) (renames es)
  | .assign i x e => .assign (ρ.number i) (ρ.var x) e.rename
  | .declare i x => .declare (ρ.number i) (ρ.var x)
  | .define i x e => .define (ρ.number i) (ρ.var x) e.rename
  | .print i e => .print (ρ.number i) e.rename
  | .ret i e => .ret (ρ.number i) e.rename
  | .branch i c ys ns => .branch (ρ.number i) c.rename (renames ys) (renames ns)
  | .loop i c es => .loop (ρ.number i) c.rename (renames es)
  | .function i f ps es =>
    .function (ρ.number i) (ρ.function f) (ps.map ρ.var) (renames es)
  | .block i es => .block (ρ.number i) (renames es)
  | .skip i => .skip (ρ.number i)

def renames : List (Node Nat) → List (Node Nat)
  | [] => []
  | e :: es => e.rename :: renames es

end

end

variable {ι : Type}

mutual

/-- The names of the variables in a tree, parameters included. -/
def varNames : Node ι → List String
  | .int _ _ | .str _ _ | .read _ | .skip _ => []
  | .var _ x | .declare _ x => [x]
  | .assign _ x e | .define _ x e => x :: e.varNames
  | .unary _ _ e | .print _ e | .ret _ e => e.varNames
  | .binary _ _ l r => l.varNames ++ r.varNames
  | .call _ _ es | .block _ es => blockVarNames es
  | .branch _ c ys ns => c.varNames ++ (blockVarNames ys ++ blockVarNames ns)
  | .loop _ c es => c.varNames ++ blockVarNames es
  | .function _ _ ps es => ps ++ blockVarNames es

def blockVarNames : List (Node ι) → List String
  | [] => []
  | e :: es => e.varNames ++ blockVarNames es

end

mutual

/-- The names of the functions in a tree, declared or called. -/
def functionNames : Node ι → List String
  | .var _ _ | .int _ _ | .str _ _ | .read _ | .declare _ _ | .skip _ => []
  | .unary _ _ e | .assign _ _ e | .define _ _ e | .print _ e | .ret _ e => e.functionNames
  | .binary _ _ l r => l.functionNames ++ r.functionNames
  | .call _ f es | .function _ f _ es => f :: blockFunctionNames es
  | .branch _ c ys ns => c.functionNames ++ (blockFunctionNames ys ++ blockFunctionNames ns)
  | .loop _ c es => c.functionNames ++ blockFunctionNames es
  | .block _ es => blockFunctionNames es

def blockFunctionNames : List (Node ι) → List String
  | [] => []
  | e :: es => e.functionNames ++ blockFunctionNames es

end

@[simp] theorem isReturn_rename (ρ : Renaming) (t : Node Nat) :
    (t.rename ρ).isReturn = t.isReturn := by
  cases t <;> rfl

@[simp] theorem length_renames (ρ : Renaming) (ts : List (Node Nat)) :
    (renames ρ ts).length = ts.length := by
  induction ts with
  | nil => rfl
  | cons t ts ih => simp [renames, ih]

end Node

/-! ## The tables of names -/

namespace Dictionary

variable {α β : Type}

def rename (name : String → String) (f : α → β) (d : Dictionary α) : Dictionary β :=
  ⟨d.entries.map fun (x, a) => (name x, f a)⟩

/-- All the names of the dictionary are in `S`. -/
def Within (d : Dictionary α) (S : Set String) : Prop := ∀ e ∈ d.entries, e.1 ∈ S

section

variable {d : Dictionary α} {S : Set String} {x : String}

theorem within_empty : (empty : Dictionary α).Within S := nofun

theorem Within.insert (h : d.Within S) (hx : x ∈ S) (a : α) : (d.insert x a).Within S :=
  List.forall_mem_cons.mpr ⟨hx, h⟩

theorem Within.modify (h : d.Within S) (x : String) (g : α → α) : (d.modify x g).Within S := by
  intro e he
  obtain ⟨⟨y, a⟩, hy, rfl⟩ := List.mem_map.mp he
  exact h (y, a) hy

variable {name : String → String} {f : α → β}

theorem get?_rename (hname : Set.InjOn name S) (h : d.Within S) (hx : x ∈ S) :
    (d.rename name f).get? (name x) = (d.get? x).map f := by
  obtain ⟨entries⟩ := d
  simp only [get?, rename]
  induction entries with
  | nil => rfl
  | cons e entries ih =>
    obtain ⟨y, a⟩ := e
    obtain ⟨hy, h⟩ := List.forall_mem_cons.mp h
    have heq : (name x == name y) = (x == y) := by
      rw [Bool.eq_iff_iff, beq_iff_eq, beq_iff_eq]
      exact hname.eq_iff hx hy
    cases hxy : x == y <;>
      simp only [List.map_cons, List.lookup_cons, heq, hxy, ih h, Option.map_some]

theorem contains_rename (hname : Set.InjOn name S) (h : d.Within S) (hx : x ∈ S) :
    (d.rename name f).contains (name x) = d.contains x := by
  simp [contains, get?_rename hname h hx]

theorem rename_modify (hname : Set.InjOn name S) (h : d.Within S) (hx : x ∈ S) {g : α → α}
    {k : β → β} (hg : ∀ a, f (g a) = k (f a)) :
    (d.modify x g).rename name f = (d.rename name f).modify (name x) k := by
  simp only [rename, modify, List.map_map, Dictionary.mk.injEq]
  refine List.map_congr_left ?_
  rintro ⟨y, a⟩ hy
  have heq : name y = name x ↔ y = x := hname.eq_iff (h _ hy) hx
  by_cases hyx : y = x <;> simp [heq, hyx, hg]

end

end Dictionary

def Routine.rename (var : String → String) (r : Routine) : Routine :=
  { r with params := r.params.map var }

namespace Tables

/-- The tables under the new names. Slots have no names in them. -/
def rename (ρ : Renaming) (t : Tables) : Tables :=
  ⟨{ t.scope with slots := t.scope.slots.rename ρ.var id },
    t.routines.rename ρ.function (Routine.rename ρ.var)⟩

structure Within (t : Tables) (V F : Set String) : Prop where
  vars : t.scope.slots.Within V
  functions : t.routines.Within F

end Tables

/-- What was emitted, under the new names; `view` renames the result. -/
def Emission.rename {α β : Type} (ρ : Renaming) (view : α → β) (e : Emission α) : Emission β :=
  ⟨e.code.map (Assembly.Line.rename ρ.number ρ.function), e.tables.rename ρ,
    (e.result.map view).mapError (Error.rename ρ.var ρ.function)⟩

/-- From tables with names in `V` and `F`, the second emitter does under the new names what the
first one does under the old ones, and leaves names in `V` and `F`. -/
def Renames {α β : Type} (ρ : Renaming) (V F : Set String) (view : α → β) (x : Emitter α)
    (y : Emitter β) : Prop :=
  ∀ t, t.Within V F → y (t.rename ρ) = (x t).rename ρ view ∧ (x t).tables.Within V F

open Assembly Lowering Emitter

namespace Renames

variable {α β γ δ : Type} {ρ : Renaming} {V F : Set String} {view : α → β} {view' : γ → δ}

theorem bind {x : Emitter α} {y : Emitter β} {f : α → Emitter γ} {g : β → Emitter δ}
    (hx : Renames ρ V F view x y) (hf : ∀ a, Renames ρ V F view' (f a) (g (view a))) :
    Renames ρ V F view' (x >>= f) (y >>= g) := by
  intro t ht
  obtain ⟨hy, hnext⟩ := hx t ht
  cases hr : (x t).result with
  | error e =>
    have hr' : (y (t.rename ρ)).result = .error (e.rename ρ.var ρ.function) := by
      rw [hy]
      simp only [Emission.rename, hr]
      rfl
    rw [bind_apply_error hr, bind_apply_error hr', hy]
    exact ⟨rfl, hnext⟩
  | ok a =>
    have hr' : (y (t.rename ρ)).result = .ok (view a) := by
      rw [hy]
      simp only [Emission.rename, hr]
      rfl
    obtain ⟨hg, hlast⟩ := hf a _ hnext
    rw [bind_apply_ok hr, bind_apply_ok hr', hy]
    simp only [Emission.rename, hg, List.map_append]
    exact ⟨trivial, hlast⟩

theorem pure {a : α} {b : β} (h : view a = b) :
    Renames ρ V F view (Pure.pure a) (Pure.pure b) := h ▸ fun _ ht => ⟨rfl, ht⟩

theorem emit {code code' : List Line} (h : code' = code.map (Line.rename ρ.number ρ.function)) :
    Renames ρ V F id (Emitter.emit code) (Emitter.emit code') := h ▸ fun _ ht => ⟨rfl, ht⟩

theorem instrs {code code' : List Instr}
    (h : code' = code.map (Instr.rename ρ.number ρ.function)) :
    Renames ρ V F id (Emitter.instrs code) (Emitter.instrs code') := by
  subst h
  exact emit (by simp [Line.rename])

theorem ofExcept {r : Except Error α} {r' : Except Error β}
    (h : r' = (r.map view).mapError (Error.rename ρ.var ρ.function)) :
    Renames ρ V F view (Emitter.ofExcept r) (Emitter.ofExcept r') :=
  h ▸ fun _ ht => ⟨rfl, ht⟩

theorem frameSize : Renames ρ V F id Emitter.frameSize Emitter.frameSize :=
  fun _ ht => ⟨rfl, ht⟩

theorem inFrame {x : Emitter α} {y : Emitter β} (h : Renames ρ V F view x y) :
    Renames ρ V F view (Emitter.inFrame x) (Emitter.inFrame y) := by
  intro t ht
  obtain ⟨hy, hnext⟩ := h { t with scope := .empty } ⟨Dictionary.within_empty, ht.functions⟩
  have hy' : y { t.rename ρ with scope := .empty } = _ := hy
  simp only [Emitter.inFrame, hy']
  exact ⟨rfl, ht.vars, hnext.functions⟩

section

variable (h : ρ.Apart V F) {x f : String} (hx : x ∈ V) (hf : f ∈ F)
include h

section

include hx

theorem find : Renames ρ V F id (Emitter.find x) (Emitter.find (ρ.var x)) := by
  intro t ht
  refine ⟨?_, ht⟩
  simp only [Emitter.find, Scope.find, Tables.rename, Emission.rename,
    Dictionary.get?_rename h.var ht.vars hx]
  cases t.scope.slots.get? x <;> rfl

theorem declareLocal (ty : Ty) : Renames ρ V F id (changeScope (·.declareLocal x ty))
    (changeScope (·.declareLocal (ρ.var x) ty)) := by
  intro t ht
  simp only [changeScope, Scope.declareLocal, Tables.rename, Emission.rename,
    Dictionary.contains_rename h.var ht.vars hx]
  cases t.scope.slots.contains x with
  | true => exact ⟨rfl, ht⟩
  | false => exact ⟨rfl, ht.vars.insert hx _, ht.functions⟩

theorem declareParam : Renames ρ V F id (changeScope (·.declareParam x))
    (changeScope (·.declareParam (ρ.var x))) := by
  intro t ht
  simp only [changeScope, Scope.declareParam, Tables.rename, Emission.rename,
    Dictionary.contains_rename h.var ht.vars hx]
  cases t.scope.slots.contains x with
  | true => exact ⟨rfl, ht⟩
  | false => exact ⟨rfl, ht.vars.insert hx _, ht.functions⟩

theorem retag (ty : Ty) : Renames ρ V F id (changeScope (·.retag x ty))
    (changeScope (·.retag (ρ.var x) ty)) := by
  intro t ht
  have hget := Dictionary.get?_rename (f := id) h.var ht.vars hx
  have hmodify := Dictionary.rename_modify (f := id) (g := fun s : Slot => { s with ty })
    (k := fun s => { s with ty }) h.var ht.vars hx fun _ => rfl
  simp only [changeScope, Scope.retag, Tables.rename, Emission.rename, hget]
  cases t.scope.slots.get? x with
  | none => exact ⟨rfl, ht⟩
  | some slot =>
    simp only [Option.map_some, ← hmodify]
    exact ⟨rfl, ht.vars.modify x _, ht.functions⟩

end

theorem declareParams {xs : List String} (hxs : ∀ x ∈ xs, x ∈ V) :
    Renames ρ V F id (Lowering.declareParams xs) (Lowering.declareParams (xs.map ρ.var)) := by
  induction xs with
  | nil => exact pure rfl
  | cons x xs ih =>
    rw [List.forall_mem_cons] at hxs
    exact (declareParam h hxs.1).bind fun _ => ih hxs.2

include hf

theorem findRoutine : Renames ρ V F (Routine.rename ρ.var) (Emitter.findRoutine f)
    (Emitter.findRoutine (ρ.function f)) := by
  intro t ht
  refine ⟨?_, ht⟩
  simp only [Emitter.findRoutine, Routines.find, Tables.rename, Emission.rename,
    Dictionary.get?_rename h.function ht.functions hf]
  cases t.routines.get? f <;> rfl

theorem declareRoutine (ps : List String) : Renames ρ V F id (Emitter.declareRoutine f ps)
    (Emitter.declareRoutine (ρ.function f) (ps.map ρ.var)) := by
  intro t ht
  simp only [Emitter.declareRoutine, Routines.declare, Tables.rename, Emission.rename,
    Dictionary.contains_rename h.function ht.functions hf]
  cases t.routines.contains f with
  | true => exact ⟨rfl, ht⟩
  | false => exact ⟨rfl, ht.vars, ht.functions.insert hf _⟩

theorem noteResult (ty : Ty) :
    Renames ρ V F id (Lowering.noteResult f ty) (Lowering.noteResult (ρ.function f) ty) := by
  unfold Lowering.noteResult
  split
  · exact pure rfl
  · intro t ht
    have hmodify := Dictionary.rename_modify (f := Routine.rename ρ.var)
      (g := fun r => { r with returns := ty }) (k := fun r => { r with returns := ty }) h.function
      ht.functions hf fun _ => rfl
    refine ⟨?_, ht.vars, ht.functions.modify f _⟩
    simp only [returning, Routines.returning, Tables.rename, Emission.rename, hmodify]
    rfl

end

end Renames

/-! ## Code -/

section

variable (number : Nat → Nat) (function : String → String)

theorem rename_code (op : BinaryOp) : op.code.map (Line.rename number function) = op.code := by
  rcases op with (_ | _ | _ | _ | _ | _) | (_ | _ | _) | _ <;> rfl

theorem rename_unaryCode (op : UnaryOp) :
    op.code.map (Instr.rename number function) = op.code := by
  cases op <;> rfl

theorem rename_callCode (f : String) (n : Nat) :
    (callCode f n).map (Instr.rename number function) = callCode (function f) n := by
  simp only [callCode]
  split <;> rfl

end

variable {ρ : Renaming} {V F : Set String}

/-- Errors of operators have no names in them. -/
theorem fold_rename (op : BinaryOp) (l r : Value) :
    op.fold l r = ((op.fold l r).map id).mapError (Error.rename ρ.var ρ.function) := by
  rcases op with op | op | _
  · cases l <;> cases r <;> rfl
  · cases l <;> cases r <;> rfl
  · cases l <;> cases r <;> rfl

theorem unaryFold_rename (op : UnaryOp) (v : Value) :
    op.fold v = ((op.fold v).map id).mapError (Error.rename ρ.var ρ.function) := by
  cases v <;> rfl

theorem checkArity_rename (r : Routine) (f : String) (n : Nat) :
    (r.rename ρ.var).checkArity (ρ.function f) n =
      ((r.checkArity f n).map id).mapError (Error.rename ρ.var ρ.function) := by
  simp only [Routine.checkArity, Routine.rename, List.length_map]
  split <;> rfl

mutual

theorem renames_evaluate (h : ρ.Apart V F) : ∀ t : Node Nat, (∀ x ∈ t.varNames, x ∈ V) →
    (∀ f ∈ t.functionNames, f ∈ F) → Renames ρ V F id (evaluate t) (evaluate (t.rename ρ))
  | .var _ x, hv, _ => by
    simp only [evaluate, Node.rename]
    refine (Renames.find h (hv x (.head _))).bind fun slot => ?_
    exact (Renames.instrs rfl).bind fun _ => .pure rfl
  | .int _ n, _, _ => by
    simp only [evaluate, Node.rename]
    exact (Renames.instrs rfl).bind fun _ => .pure rfl
  | .str _ s, _, _ => by
    simp only [evaluate, Node.rename]
    exact (Renames.emit rfl).bind fun _ => .pure rfl
  | .read _, _, _ => by
    simp only [evaluate, Node.rename]
    exact (Renames.instrs rfl).bind fun _ => .pure rfl
  | .skip _, _, _ => by
    simp only [evaluate, Node.rename]
    exact .pure rfl
  | .binary _ op left right, hv, hf => by
    simp only [Node.varNames, Node.functionNames, List.forall_mem_append] at hv hf
    simp only [evaluate, Node.rename]
    refine (renames_evaluate h right hv.2 hf.2).bind fun r => ?_
    refine (Renames.instrs rfl).bind fun _ => ?_
    refine (renames_evaluate h left hv.1 hf.1).bind fun l => ?_
    refine (Renames.instrs rfl).bind fun _ => ?_
    refine (Renames.ofExcept (fold_rename op l r)).bind fun v => ?_
    exact (Renames.emit (rename_code _ _ op).symm).bind fun _ => .pure rfl
  | .unary _ op operand, hv, hf => by
    simp only [evaluate, Node.rename]
    refine (renames_evaluate h operand hv hf).bind fun v => ?_
    refine (Renames.ofExcept (unaryFold_rename op v)).bind fun w => ?_
    exact (Renames.instrs (rename_unaryCode _ _ op).symm).bind fun _ => .pure rfl
  | .call _ f args, hv, hf => by
    simp only [Node.functionNames, List.forall_mem_cons] at hf
    simp only [evaluate, Node.rename, Node.length_renames]
    refine (Renames.findRoutine h hf.1).bind fun r => ?_
    refine (Renames.ofExcept (checkArity_rename r f _)).bind fun _ => ?_
    refine (renames_pushArgs h args hv hf.2).bind fun _ => ?_
    exact (Renames.instrs (rename_callCode _ _ f _).symm).bind fun _ => .pure rfl
  | .assign _ x value, hv, hf => by
    simp only [Node.varNames, List.forall_mem_cons] at hv
    simp only [evaluate, Node.rename]
    refine (renames_evaluate h value hv.2 hf).bind fun v => ?_
    refine (Renames.retag h hv.1 v.ty).bind fun slot => ?_
    exact (Renames.instrs rfl).bind fun _ => .pure rfl
  | .declare _ x, hv, _ => by
    simp only [evaluate, Node.rename]
    refine (Renames.declareLocal h (hv x (.head _)) .int).bind fun slot => ?_
    exact (Renames.instrs rfl).bind fun _ => .pure rfl
  | .define _ x value, hv, hf => by
    simp only [Node.varNames, List.forall_mem_cons] at hv
    simp only [evaluate, Node.rename]
    refine (Renames.declareLocal h hv.1 .int).bind fun slot => ?_
    refine (Renames.instrs rfl).bind fun _ => ?_
    refine (renames_evaluate h value hv.2 hf).bind fun v => ?_
    refine (Renames.retag h hv.1 v.ty).bind fun _ => ?_
    exact (Renames.instrs rfl).bind fun _ => .pure rfl
  | .print _ value, hv, hf => by
    simp only [evaluate, Node.rename]
    refine (renames_evaluate h value hv hf).bind fun _ => ?_
    exact (Renames.instrs rfl).bind fun _ => .pure rfl
  | .ret _ value, hv, hf => by
    simp only [evaluate, Node.rename]
    refine (renames_evaluate h value hv hf).bind fun v => ?_
    exact (Renames.instrs rfl).bind fun _ => .pure rfl
  | .branch _ cond yes no, hv, hf => by
    simp only [Node.varNames, Node.functionNames, List.forall_mem_append] at hv hf
    simp only [evaluate, Node.rename]
    refine (renames_evaluate h cond hv.1 hf.1).bind fun _ => ?_
    refine (Renames.instrs rfl).bind fun _ => ?_
    refine (renames_evaluateBlock h yes hv.2.1 hf.2.1).bind fun _ => ?_
    refine (Renames.emit rfl).bind fun _ => ?_
    refine (renames_evaluateBlock h no hv.2.2 hf.2.2).bind fun _ => ?_
    exact (Renames.emit rfl).bind fun _ => .pure rfl
  | .loop _ cond body, hv, hf => by
    simp only [Node.varNames, Node.functionNames, List.forall_mem_append] at hv hf
    simp only [evaluate, Node.rename]
    refine (Renames.emit rfl).bind fun _ => ?_
    refine (renames_evaluate h cond hv.1 hf.1).bind fun _ => ?_
    refine (Renames.instrs rfl).bind fun _ => ?_
    refine (renames_evaluateBlock h body hv.2 hf.2).bind fun _ => ?_
    exact (Renames.emit rfl).bind fun _ => .pure rfl
  | .function _ f params body, hv, hf => by
    simp only [Node.varNames, Node.functionNames, List.forall_mem_append, List.forall_mem_cons]
      at hv hf
    simp only [evaluate, Node.rename]
    refine (Renames.declareRoutine h hf.1 params).bind fun _ => ?_
    refine (Renames.emit rfl).bind fun _ => ?_
    refine (Renames.inFrame (?_ : Renames ρ V F id _ _)).bind fun _ => .pure rfl
    refine (Renames.declareParams h hv.1).bind fun _ => ?_
    refine (renames_evaluateBlock h body hv.2 hf.2).bind fun result => ?_
    refine (Renames.noteResult h hf.1 result.ty).bind fun _ => ?_
    exact Renames.frameSize.bind fun size => .emit rfl
  | .block _ body, hv, hf => by
    simp only [evaluate, Node.rename]
    exact renames_evaluateBlock h body hv hf

theorem renames_evaluateBlock (h : ρ.Apart V F) : ∀ ts : List (Node Nat),
    (∀ x ∈ Node.blockVarNames ts, x ∈ V) → (∀ f ∈ Node.blockFunctionNames ts, f ∈ F) →
    Renames ρ V F id (evaluateBlock ts) (evaluateBlock (Node.renames ρ ts))
  | [], _, _ => by
    simp only [evaluateBlock, Node.renames]
    exact .pure rfl
  | s :: rest, hv, hf => by
    simp only [Node.blockVarNames, Node.blockFunctionNames, List.forall_mem_append] at hv hf
    simp only [evaluateBlock, Node.renames, Node.isReturn_rename]
    refine (renames_evaluate h s hv.1 hf.1).bind fun v => ?_
    split
    · exact .pure rfl
    · exact renames_evaluateBlock h rest hv.2 hf.2

theorem renames_pushArgs (h : ρ.Apart V F) : ∀ ts : List (Node Nat),
    (∀ x ∈ Node.blockVarNames ts, x ∈ V) → (∀ f ∈ Node.blockFunctionNames ts, f ∈ F) →
    Renames ρ V F id (pushArgs ts) (pushArgs (Node.renames ρ ts))
  | [], _, _ => by
    simp only [pushArgs, Node.renames]
    exact .pure rfl
  | a :: rest, hv, hf => by
    simp only [Node.blockVarNames, Node.blockFunctionNames, List.forall_mem_append] at hv hf
    simp only [pushArgs, Node.renames]
    refine (renames_pushArgs h rest hv.2 hf.2).bind fun _ => ?_
    refine (renames_evaluate h a hv.1 hf.1).bind fun _ => ?_
    exact .instrs rfl

end

/-- A renamed program has the renamed listing or the renamed error. -/
theorem generate_rename {root : Node Nat} (h : ρ.Apart V F) (hv : ∀ x ∈ root.varNames, x ∈ V)
    (hf : ∀ f ∈ root.functionNames, f ∈ F) :
    generate (root.rename ρ) = ((generate root).map (Listing.rename ρ.number ρ.function)).mapError
      (Error.rename ρ.var ρ.function) := by
  have hprogram : Renames ρ V F id (program root) (program (root.rename ρ)) := by
    refine (Renames.instrs rfl).bind fun _ => ?_
    refine (renames_evaluate h root hv hf).bind fun _ => ?_
    exact Renames.frameSize.bind fun size => .emit rfl
  obtain ⟨hrenamed, -⟩ := hprogram ⟨.empty, .empty⟩
    ⟨Dictionary.within_empty, Dictionary.within_empty⟩
  have hrenamed' : program (root.rename ρ) ⟨.empty, .empty⟩ = _ := hrenamed
  simp only [generate, generateWith, hrenamed', Emission.rename]
  cases (program root ⟨.empty, .empty⟩).result <;> rfl

/-- Names carry no meaning: under new names, different where the old ones are, a program has the
same listing but for the entries of its functions, or the same error but for the name in it. The
names of variables and those of functions are apart. -/
theorem generate_respell {root : Node Nat} {r s : String → String}
    (hr : ∀ x ∈ root.varNames, ∀ y ∈ root.varNames, r x = r y → x = y)
    (hs : ∀ f ∈ root.functionNames, ∀ g ∈ root.functionNames, s f = s g → f = g) :
    generate (root.rename ⟨id, r, s⟩) =
      ((generate root).map (Listing.rename id s)).mapError (Error.rename r s) := by
  refine generate_rename (V := { x | x ∈ root.varNames }) (F := { f | f ∈ root.functionNames })
    ⟨?_, ?_⟩ (fun _ hx => hx) (fun _ hf => hf)
  · exact fun x hx y hy => hr x hx y hy
  · exact fun f hf g hg => hs f hf g hg

/-- A function and a variable of one name, and a parameter. -/
def sharedName : Node Nat :=
  .block 8 [.function 2 "f" ["x"] [.ret 1 (.var 0 "x")], .define 4 "f" (.int 3 1),
    .print 7 (.call 6 "f" [.var 5 "f"])]

/-- The two variables change names with each other. -/
theorem generate_respell_sharedName :
    let r : String → String := fun x => if x = "f" then "x" else "f"
    (generate sharedName).toBool = true ∧
      generate (sharedName.rename ⟨id, r, fun _ => "g"⟩) =
        ((generate sharedName).map (Listing.rename id fun _ => "g")).mapError
          (Error.rename r fun _ => "g") :=
  ⟨by decide +kernel, generate_respell (by decide +kernel) (by decide +kernel)⟩

end Onepass
