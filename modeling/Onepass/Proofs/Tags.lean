import Mathlib.Logic.Relation
import Onepass.Proofs.Checking
import Onepass.Proofs.Grammar
import Onepass.Proofs.Reading
import Onepass.Session

/-!
# Onepass.Proofs.Tags

Expressions have the type of data, a number or a string, and statements have `void`. In programs
that were read no statement stands where a value is needed, and then `void` is never noted for a
variable or as the result of a function, and no error names it.

A `Moment` is a piece of a program that is evaluated and the names known at that time. `Enters`
leads to the moments that the evaluation of one consists of.

* `keeps_expression` -- an expression whose names are of data has the type of data.
* `sound_of_visits`  -- what holds at one moment holds at all that the evaluation comes to.
* `sound_of_source`  -- so it does for a program that is compiled, and for statements of programs
  in a session, whatever failed before them.
-/

namespace Onepass

/-! ## Names and errors -/

namespace Dictionary

variable {α : Type} {P : α → Prop} {d : Dictionary α}

/-- `P` holds of all that the names of the dictionary stand for. -/
def All (P : α → Prop) (d : Dictionary α) : Prop := ∀ e ∈ d.entries, P e.2

theorem all_empty : All P empty := nofun

theorem All.of_get? (h : All P d) {x : String} {a : α} (ha : d.get? x = some a) : P a := by
  obtain ⟨before, behind, hentries, -⟩ := List.lookup_eq_some_iff.mp ha
  exact h (x, a) (by simp [hentries])

theorem All.insert (h : All P d) (x : String) {a : α} (ha : P a) : All P (d.insert x a) :=
  List.forall_mem_cons.mpr ⟨ha, h⟩

theorem All.modify (h : All P d) (x : String) {f : α → α} (hf : ∀ a, P a → P (f a)) :
    All P (d.modify x f) := by
  intro e he
  obtain ⟨⟨y, a⟩, hy, rfl⟩ := List.mem_map.mp he
  have ha : P a := h _ hy
  dsimp only
  split
  · exact hf a ha
  · exact ha

end Dictionary

/-- The variables of the frame and the results of the functions are of data. -/
structure Tables.Solid (t : Tables) : Prop where
  vars : t.scope.slots.All (·.ty ≠ .void)
  functions : t.routines.All (·.returns ≠ .void)

theorem Tables.solid_empty : Tables.Solid ⟨.empty, .empty⟩ :=
  ⟨Dictionary.all_empty, Dictionary.all_empty⟩

/-- The error is not one of joining, and the types that it names are of data. -/
def Error.OnData : Error → Prop
  | .arithmetic _ left right | .mismatch _ left right => left ≠ .void ∧ right ≠ .void
  | .operand _ ty => ty ≠ .void
  | .concat _ _ => False
  | _ => True

/-- A result is as `post` says, and an error is on data. -/
def Settled {α : Type} (post : α → Prop) : Except Error α → Prop
  | .ok a => post a
  | .error e => e.OnData

structure Emission.Clean {α : Type} (post : α → Prop) (e : Emission α) : Prop where
  tables : e.tables.Solid
  result : Settled post e.result

/-- Where names are of data, the emitter leaves them so, and has a result as `post` says. -/
def Keeps {α : Type} (post : α → Prop) (x : Emitter α) : Prop := ∀ t, t.Solid → (x t).Clean post

open Emitter

namespace Keeps

variable {α β : Type} {post : α → Prop} {post' : β → Prop} {x : Emitter α}

theorem bind {f : α → Emitter β} (hx : Keeps post x) (hf : ∀ a, post a → Keeps post' (f a)) :
    Keeps post' (x >>= f) := by
  intro t ht
  obtain ⟨hnext, hresult⟩ := hx t ht
  cases hr : (x t).result with
  | error e =>
    rw [hr] at hresult
    rw [bind_apply_error hr]
    exact ⟨hnext, hresult⟩
  | ok a =>
    rw [hr] at hresult
    rw [bind_apply_ok hr]
    obtain ⟨hlast, hvalue⟩ := hf a hresult _ hnext
    exact ⟨hlast, hvalue⟩

theorem any (h : Keeps post x) : Keeps (fun _ => True) x := by
  intro t ht
  obtain ⟨hnext, hresult⟩ := h t ht
  refine ⟨hnext, ?_⟩
  cases hr : (x t).result with
  | error e =>
    rw [hr] at hresult
    exact hresult
  | ok a => trivial

theorem ofExcept {r : Except Error α} (h : Settled post r) : Keeps post (Emitter.ofExcept r) :=
  fun _ ht => ⟨ht, h⟩

theorem pure {a : α} (h : post a) : Keeps post (Pure.pure a) := fun _ ht => ⟨ht, h⟩

theorem emit (code : List Assembly.Line) : Keeps (fun _ => True) (Emitter.emit code) :=
  fun _ ht => ⟨ht, trivial⟩

theorem instrs (code : List Assembly.Instr) : Keeps (fun _ => True) (Emitter.instrs code) :=
  emit _

theorem frameSize : Keeps (fun _ => True) Emitter.frameSize := fun _ ht => ⟨ht, trivial⟩

theorem inFrame (h : Keeps post x) : Keeps post (Emitter.inFrame x) := by
  intro t ht
  obtain ⟨hnext, hresult⟩ := h { t with scope := .empty } ⟨Dictionary.all_empty, ht.functions⟩
  exact ⟨⟨ht.vars, hnext.functions⟩, hresult⟩

theorem find (x : String) : Keeps (·.ty ≠ .void) (Emitter.find x) := by
  intro t ht
  refine ⟨ht, ?_⟩
  simp only [Emitter.find, Scope.find]
  cases h : t.scope.slots.get? x with
  | none => trivial
  | some slot => exact ht.vars.of_get? h

theorem findRoutine (f : String) : Keeps (·.returns ≠ .void) (Emitter.findRoutine f) := by
  intro t ht
  refine ⟨ht, ?_⟩
  simp only [Emitter.findRoutine, Routines.find]
  cases h : t.routines.get? f with
  | none => trivial
  | some r => exact ht.functions.of_get? h

theorem declareLocal (x : String) :
    Keeps (fun _ => True) (changeScope (·.declareLocal x .int)) := by
  intro t ht
  simp only [changeScope, Scope.declareLocal]
  cases t.scope.slots.contains x with
  | true => exact ⟨ht, trivial⟩
  | false => exact ⟨⟨ht.vars.insert x (by simp), ht.functions⟩, trivial⟩

theorem declareParam (x : String) : Keeps (fun _ => True) (changeScope (·.declareParam x)) := by
  intro t ht
  simp only [changeScope, Scope.declareParam]
  cases t.scope.slots.contains x with
  | true => exact ⟨ht, trivial⟩
  | false => exact ⟨⟨ht.vars.insert x (by simp), ht.functions⟩, trivial⟩

theorem declareParams (xs : List String) :
    Keeps (fun _ => True) (Lowering.declareParams xs) := by
  induction xs with
  | nil => exact pure trivial
  | cons x xs ih => exact (declareParam x).bind fun _ _ => ih

theorem retag (x : String) {ty : Ty} (hty : ty ≠ .void) :
    Keeps (fun _ => True) (changeScope (·.retag x ty)) := by
  intro t ht
  simp only [changeScope, Scope.retag]
  cases t.scope.slots.get? x with
  | none => exact ⟨ht, trivial⟩
  | some slot => exact ⟨⟨ht.vars.modify x fun _ _ => hty, ht.functions⟩, trivial⟩

theorem declareRoutine (f : String) (ps : List String) :
    Keeps (fun _ => True) (Emitter.declareRoutine f ps) := by
  intro t ht
  simp only [Emitter.declareRoutine, Routines.declare]
  cases t.routines.contains f with
  | true => exact ⟨ht, trivial⟩
  | false => exact ⟨⟨ht.vars, ht.functions.insert f (by simp)⟩, trivial⟩

/-- The type of a body without a `return` of its own is not noted. -/
theorem noteResult (f : String) (ty : Ty) :
    Keeps (fun _ => True) (Lowering.noteResult f ty) := by
  unfold Lowering.noteResult
  split
  · exact pure trivial
  · rename_i hty
    exact fun _ ht => ⟨⟨ht.vars, ht.functions.modify f fun _ _ => hty⟩, trivial⟩

end Keeps

theorem settled_fold (op : BinaryOp) {l r : Value} (hl : l.ty ≠ .void) (hr : r.ty ≠ .void) :
    Settled (fun v : Value => v.ty ≠ .void) (op.fold l r) := by
  rcases op with op | op | _
  · cases l <;> cases r <;> simp_all [BinaryOp.fold, Settled, Error.OnData, Value.ty]
  · cases l <;> cases r <;> simp_all [BinaryOp.fold, Settled, Error.OnData, Value.ty]
  · have hdata : ¬ (l.ty = .void ∨ r.ty = .void) := not_or.mpr ⟨hl, hr⟩
    simp only [BinaryOp.fold, if_neg hdata]
    exact nofun

theorem settled_unaryFold (op : UnaryOp) {v : Value} (hv : v.ty ≠ .void) :
    Settled (fun v : Value => v.ty ≠ .void) (op.fold v) := by
  cases v <;> simp_all [UnaryOp.fold, Settled, Error.OnData, Value.ty]

theorem settled_checkArity (r : Routine) (f : String) (n : Nat) :
    Settled (fun _ => True) (r.checkArity f n) := by
  unfold Routine.checkArity
  split
  · trivial
  · trivial

/-! ## Evaluation -/

mutual

theorem keeps_expression : ∀ n : Node Nat, n.isExpression = true →
    Keeps (·.ty ≠ .void) (evaluate n)
  | .var _ x, _ => by
    simp only [evaluate]
    refine (Keeps.find x).bind fun slot hslot => (Keeps.instrs _).bind fun _ _ => .pure ?_
    rw [Value.ty_unknown]
    exact hslot
  | .int _ n, _ => by
    simp only [evaluate]
    exact (Keeps.instrs _).bind fun _ _ => .pure nofun
  | .str _ s, _ => by
    simp only [evaluate]
    exact (Keeps.emit _).bind fun _ _ => .pure nofun
  | .read _, _ => by
    simp only [evaluate]
    exact (Keeps.instrs _).bind fun _ _ => .pure nofun
  | .binary _ op left right, h => by
    simp only [Node.isExpression, Bool.and_eq_true] at h
    simp only [evaluate]
    refine (keeps_expression right h.2).bind fun r hr => ?_
    refine (Keeps.instrs _).bind fun _ _ => ?_
    refine (keeps_expression left h.1).bind fun l hl => ?_
    refine (Keeps.instrs _).bind fun _ _ => ?_
    refine (Keeps.ofExcept (settled_fold op hl hr)).bind fun v hv => ?_
    exact (Keeps.emit _).bind fun _ _ => .pure hv
  | .unary _ op operand, h => by
    simp only [evaluate]
    refine (keeps_expression operand h).bind fun v hv => ?_
    refine (Keeps.ofExcept (settled_unaryFold op hv)).bind fun w hw => ?_
    exact (Keeps.instrs _).bind fun _ _ => .pure hw
  | .call _ f args, h => by
    simp only [evaluate]
    refine (Keeps.findRoutine f).bind fun r hr => ?_
    refine (Keeps.ofExcept (settled_checkArity r f _)).bind fun _ _ => ?_
    refine (keeps_args args h).bind fun _ _ => (Keeps.instrs _).bind fun _ _ => .pure ?_
    rw [Value.ty_unknown]
    exact hr

theorem keeps_args : ∀ as : List (Node Nat), Node.areExpressions as = true →
    Keeps (fun _ => True) (pushArgs as)
  | [], _ => by
    simp only [pushArgs]
    exact .pure trivial
  | a :: rest, h => by
    simp only [Node.areExpressions, Bool.and_eq_true] at h
    simp only [pushArgs]
    refine (keeps_args rest h.2).bind fun _ _ => ?_
    exact (keeps_expression a h.1).bind fun _ _ => .instrs _

end

mutual

theorem keeps_statement (b : Bool) : ∀ n : Node Nat, n.isStatement b = true →
    Keeps (fun _ => True) (evaluate n)
  | .var _ _, _ | .int _ _, _ | .str _ _, _ | .read _, _ => (keeps_expression _ rfl).any
  | .binary i op l r, h => (keeps_expression (.binary i op l r) h).any
  | .unary i op e, h => (keeps_expression (.unary i op e) h).any
  | .call i f as, h => (keeps_expression (.call i f as) h).any
  | .skip _, _ => by
    simp only [evaluate]
    exact .pure trivial
  | .assign _ x value, h => by
    simp only [evaluate]
    refine (keeps_expression value h).bind fun v hv => ?_
    refine (Keeps.retag x hv).bind fun _ _ => ?_
    exact (Keeps.instrs _).bind fun _ _ => .pure trivial
  | .declare _ x, _ => by
    simp only [evaluate]
    refine (Keeps.declareLocal x).bind fun _ _ => ?_
    exact (Keeps.instrs _).bind fun _ _ => .pure trivial
  | .define _ x value, h => by
    simp only [evaluate]
    refine (Keeps.declareLocal x).bind fun _ _ => ?_
    refine (Keeps.instrs _).bind fun _ _ => ?_
    refine (keeps_expression value h).bind fun v hv => ?_
    refine (Keeps.retag x hv).bind fun _ _ => ?_
    exact (Keeps.instrs _).bind fun _ _ => .pure trivial
  | .print _ value, h => by
    simp only [evaluate]
    refine (keeps_expression value h).bind fun _ _ => ?_
    exact (Keeps.instrs _).bind fun _ _ => .pure trivial
  | .ret _ value, h => by
    simp only [Node.isStatement, Bool.and_eq_true] at h
    simp only [evaluate]
    refine (keeps_expression value h.2).bind fun _ _ => ?_
    exact (Keeps.instrs _).bind fun _ _ => .pure trivial
  | .branch _ cond yes no, h => by
    simp only [Node.isStatement, Bool.and_eq_true] at h
    simp only [evaluate]
    refine (keeps_expression cond h.1.1).bind fun _ _ => ?_
    refine (Keeps.instrs _).bind fun _ _ => ?_
    refine (keeps_block b yes h.1.2).bind fun _ _ => ?_
    refine (Keeps.emit _).bind fun _ _ => ?_
    refine (keeps_block b no h.2).bind fun _ _ => ?_
    exact (Keeps.emit _).bind fun _ _ => .pure trivial
  | .loop _ cond body, h => by
    simp only [Node.isStatement, Bool.and_eq_true] at h
    simp only [evaluate]
    refine (Keeps.emit _).bind fun _ _ => ?_
    refine (keeps_expression cond h.1).bind fun _ _ => ?_
    refine (Keeps.instrs _).bind fun _ _ => ?_
    refine (keeps_block b body h.2).bind fun _ _ => ?_
    exact (Keeps.emit _).bind fun _ _ => .pure trivial
  | .function _ f params body, h => by
    simp only [evaluate]
    refine (Keeps.declareRoutine f params).bind fun _ _ => ?_
    refine (Keeps.emit _).bind fun _ _ => ?_
    refine (Keeps.inFrame (?_ : Keeps (fun _ => True) _)).bind fun _ _ => .pure trivial
    refine (Keeps.declareParams params).bind fun _ _ => ?_
    refine (keeps_block true body h).bind fun result _ => ?_
    refine (Keeps.noteResult f result.ty).bind fun _ _ => ?_
    exact Keeps.frameSize.bind fun _ _ => .emit _

theorem keeps_block (b : Bool) : ∀ ns : List (Node Nat), Node.areStatements b ns = true →
    Keeps (fun _ => True) (evaluateBlock ns)
  | [], _ => by
    simp only [evaluateBlock]
    exact .pure trivial
  | s :: rest, h => by
    simp only [Node.areStatements, Bool.and_eq_true] at h
    simp only [evaluateBlock]
    refine (keeps_statement b s h.1).bind fun v _ => ?_
    split
    · exact .pure trivial
    · exact keeps_block b rest h.2

end

/-! ## Moments -/

/-- A piece of a program that is evaluated, and the names known at that time. -/
structure Moment where
  piece : Piece
  tables : Tables

def Moment.emission (m : Moment) : Emission Value := m.piece.emit m.tables

/-- The evaluation of the first moment has that of the second one for a part of its own. -/
inductive Enters : Moment → Moment → Prop where
  | right {i op l r t} : Enters ⟨.node (.binary i op l r), t⟩ ⟨.node r, t⟩
  | left {i op l r t v} : (evaluate r t).result = .ok v →
      Enters ⟨.node (.binary i op l r), t⟩ ⟨.node l, (evaluate r t).tables⟩
  | operand {i op e t} : Enters ⟨.node (.unary i op e), t⟩ ⟨.node e, t⟩
  | args {i f as t r} : t.routines.find f = .ok r → r.checkArity f as.length = .ok () →
      Enters ⟨.node (.call i f as), t⟩ ⟨.args as, t⟩
  | assign {i x e t} : Enters ⟨.node (.assign i x e), t⟩ ⟨.node e, t⟩
  | define {i x e t slot s} : t.scope.declareLocal x .int = .ok (slot, s) →
      Enters ⟨.node (.define i x e), t⟩ ⟨.node e, { t with scope := s }⟩
  | print {i e t} : Enters ⟨.node (.print i e), t⟩ ⟨.node e, t⟩
  | ret {i e t} : Enters ⟨.node (.ret i e), t⟩ ⟨.node e, t⟩
  | condition {i c ys ns t} : Enters ⟨.node (.branch i c ys ns), t⟩ ⟨.node c, t⟩
  | yes {i c ys ns t v} : (evaluate c t).result = .ok v →
      Enters ⟨.node (.branch i c ys ns), t⟩ ⟨.block ys, (evaluate c t).tables⟩
  | no {i c ys ns t v w} : (evaluate c t).result = .ok v →
      (evaluateBlock ys (evaluate c t).tables).result = .ok w →
      Enters ⟨.node (.branch i c ys ns), t⟩
        ⟨.block ns, (evaluateBlock ys (evaluate c t).tables).tables⟩
  | test {i c body t} : Enters ⟨.node (.loop i c body), t⟩ ⟨.node c, t⟩
  | loop {i c body t v} : (evaluate c t).result = .ok v →
      Enters ⟨.node (.loop i c body), t⟩ ⟨.block body, (evaluate c t).tables⟩
  | function {i f ps body t rs} : t.routines.declare f ps = .ok rs →
      (Lowering.declareParams ps ⟨.empty, rs⟩).result = .ok () →
      Enters ⟨.node (.function i f ps body), t⟩
        ⟨.block body, (Lowering.declareParams ps ⟨.empty, rs⟩).tables⟩
  | block {i body t} : Enters ⟨.node (.block i body), t⟩ ⟨.block body, t⟩
  | first {n rest t} : Enters ⟨.block (n :: rest), t⟩ ⟨.node n, t⟩
  | rest {n rest t v} : (evaluate n t).result = .ok v → n.isReturn = false →
      Enters ⟨.block (n :: rest), t⟩ ⟨.block rest, (evaluate n t).tables⟩
  | others {a rest t} : Enters ⟨.args (a :: rest), t⟩ ⟨.args rest, t⟩
  | argument {a rest t} : (pushArgs rest t).result = .ok () →
      Enters ⟨.args (a :: rest), t⟩ ⟨.node a, (pushArgs rest t).tables⟩

/-- The evaluation of the first moment comes to that of the second one. -/
abbrev Visits : Moment → Moment → Prop := Relation.ReflTransGen Enters

/-- What holds at a moment of a program that was read. -/
structure Moment.Sound (m : Moment) : Prop where
  before : m.tables.Solid
  after : m.emission.tables.Solid
  /-- A function's frame is so from its first parameter on. -/
  params : ∀ (i : Nat) (f : String) (ps : List String) (body : List (Node Nat)) (rs : Routines),
    m.piece = .node (.function i f ps body) → m.tables.routines.declare f ps = .ok rs →
    ∀ k, (Lowering.declareParams (ps.take k) ⟨.empty, rs⟩).tables.Solid
  value : ∀ (n : Node Nat) (v : Value), m.piece = .node n → n.isExpression = true →
    m.emission.result = .ok v → v.ty ≠ .void
  error : ∀ e, m.emission.result = .error e → e.OnData

namespace Piece

/-- A value stands wherever one is needed. -/
def Proper : Piece → Prop
  | .node (.block _ body) | .block body => ∃ b, Node.areStatements b body = true
  | .node n => ∃ b, n.isStatement b = true
  | .args as => Node.areExpressions as = true

theorem proper_of_isStatement {n : Node Nat} {b : Bool} (h : n.isStatement b = true) :
    (Piece.node n).Proper := by
  unfold Proper
  split
  · cases ‹_ = _›
    cases h
  · cases ‹_ = _›
  · cases ‹_ = _›
    exact ⟨b, h⟩
  · cases ‹_ = _›

theorem proper_of_isExpression {n : Node Nat} (h : n.isExpression = true) :
    (Piece.node n).Proper :=
  proper_of_isStatement (Node.isStatement_of_isExpression (b := false) h)

theorem Proper.keeps {p : Piece} (h : p.Proper) : Keeps (fun _ => True) p.emit := by
  unfold Proper at h
  split at h
  · obtain ⟨b, h⟩ := h
    simp only [emit, evaluate]
    exact keeps_block b _ h
  · obtain ⟨b, h⟩ := h
    exact keeps_block b _ h
  · obtain ⟨b, h⟩ := h
    exact keeps_statement b _ h
  · exact (keeps_args _ h).bind fun _ _ => .pure trivial

end Piece

/-- A frame begins without variables, where the function is known already. -/
theorem Tables.Solid.declare {t : Tables} (ht : t.Solid) {f : String} {ps : List String}
    {rs : Routines} (h : t.routines.declare f ps = .ok rs) : Tables.Solid ⟨.empty, rs⟩ := by
  have hdeclared := (Keeps.declareRoutine f ps t ht).tables
  simp only [Emitter.declareRoutine, h] at hdeclared
  exact ⟨Dictionary.all_empty, hdeclared.functions⟩

/-- Values stand where they are needed, and names are of data. -/
structure Moment.Fit (m : Moment) : Prop where
  proper : m.piece.Proper
  solid : m.tables.Solid

namespace Moment.Fit

variable {m m' : Moment}

theorem enters (h : m.Fit) (he : Enters m m') : m'.Fit := by
  obtain ⟨hp, ht⟩ := h
  cases he
  -- What the shape of the first piece says of its parts.
  all_goals simp only [Piece.Proper, Node.isStatement, Node.areStatements, Node.areExpressions,
    Bool.and_eq_true] at hp
  case right =>
    obtain ⟨_, -, hr⟩ := hp
    exact ⟨Piece.proper_of_isExpression hr, ht⟩
  case left =>
    obtain ⟨_, hl, hr⟩ := hp
    exact ⟨Piece.proper_of_isExpression hl, (keeps_expression _ hr _ ht).tables⟩
  case operand | assign | print =>
    obtain ⟨_, hp⟩ := hp
    exact ⟨Piece.proper_of_isExpression hp, ht⟩
  case args =>
    obtain ⟨_, hp⟩ := hp
    exact ⟨hp, ht⟩
  case define x _ _ _ _ hx =>
    obtain ⟨_, hp⟩ := hp
    have hdeclared := (Keeps.declareLocal x _ ht).tables
    simp only [changeScope, hx] at hdeclared
    exact ⟨Piece.proper_of_isExpression hp, hdeclared⟩
  case ret =>
    obtain ⟨_, -, hp⟩ := hp
    exact ⟨Piece.proper_of_isExpression hp, ht⟩
  case condition =>
    obtain ⟨_, ⟨hc, -⟩, -⟩ := hp
    exact ⟨Piece.proper_of_isExpression hc, ht⟩
  case yes =>
    obtain ⟨b, ⟨hc, hys⟩, -⟩ := hp
    exact ⟨⟨b, hys⟩, (keeps_expression _ hc _ ht).tables⟩
  case no =>
    obtain ⟨b, ⟨hc, hys⟩, hns⟩ := hp
    have hbehind := (keeps_expression _ hc _ ht).tables
    exact ⟨⟨b, hns⟩, (keeps_block b _ hys _ hbehind).tables⟩
  case test =>
    obtain ⟨_, hc, -⟩ := hp
    exact ⟨Piece.proper_of_isExpression hc, ht⟩
  case loop =>
    obtain ⟨b, hc, hbody⟩ := hp
    exact ⟨⟨b, hbody⟩, (keeps_expression _ hc _ ht).tables⟩
  case function hrs _ =>
    obtain ⟨_, hbody⟩ := hp
    exact ⟨⟨true, hbody⟩, (Keeps.declareParams _ _ (ht.declare hrs)).tables⟩
  case block => exact ⟨hp, ht⟩
  case first =>
    obtain ⟨b, hn, -⟩ := hp
    exact ⟨Piece.proper_of_isStatement hn, ht⟩
  case rest =>
    obtain ⟨b, hn, hrest⟩ := hp
    exact ⟨⟨b, hrest⟩, (keeps_statement b _ hn _ ht).tables⟩
  case others => exact ⟨hp.2, ht⟩
  case argument => exact ⟨Piece.proper_of_isExpression hp.1, (keeps_args _ hp.2 _ ht).tables⟩

theorem sound (h : m.Fit) : m.Sound := by
  obtain ⟨hp, ht⟩ := h
  obtain ⟨hafter, hresult⟩ := hp.keeps m.tables ht
  refine ⟨ht, hafter, ?_, ?_, ?_⟩
  · intro i f ps body rs _ hrs k
    exact (Keeps.declareParams _ _ (ht.declare hrs)).tables
  · intro n v hn hexpression hv
    have hvalue := (keeps_expression n hexpression m.tables ht).result
    simp only [Moment.emission, hn, Piece.emit] at hv
    rw [hv] at hvalue
    exact hvalue
  · intro e he
    simp only [Moment.emission] at he
    rw [he] at hresult
    exact hresult

theorem sound_of_visits (h : m.Fit) (hv : Visits m m') : m'.Sound := by
  have hfit : m'.Fit := by
    induction hv with
    | refl => exact h
    | tail _ he ih => exact ih.enters he
  exact hfit.sound

end Moment.Fit

/-! ## Programs that were read -/

namespace Node

variable {ι : Type}

mutual

/-- The statements in a tree, at any depth. -/
def statements : Node ι → List (Node ι)
  | .branch _ _ ys ns => blockStatements ys ++ blockStatements ns
  | .loop _ _ body | .function _ _ _ body | .block _ body => blockStatements body
  | _ => []

def blockStatements : List (Node ι) → List (Node ι)
  | [] => []
  | n :: rest => n :: (n.statements ++ blockStatements rest)

end

mutual

theorem isStatement_of_mem (b : Bool) : ∀ n : Node ι, n.isStatement b = true →
    ∀ s ∈ n.statements, ∃ b, s.isStatement b = true
  | .branch _ c ys ns, h => by
    simp only [isStatement, Bool.and_eq_true] at h
    simp only [statements, List.forall_mem_append]
    exact ⟨isStatement_of_mem_block b ys h.1.2, isStatement_of_mem_block b ns h.2⟩
  | .loop _ c body, h => by
    simp only [isStatement, Bool.and_eq_true] at h
    exact isStatement_of_mem_block b body h.2
  | .function _ _ _ body, h => isStatement_of_mem_block true body h
  | .block _ _, h => by cases h
  | .var _ _, _ | .int _ _, _ | .str _ _, _ | .read _, _ | .declare _ _, _ | .skip _, _
  | .unary _ _ _, _ | .binary _ _ _ _, _ | .call _ _ _, _ | .assign _ _ _, _ | .define _ _ _, _
  | .print _ _, _ | .ret _ _, _ => nofun

theorem isStatement_of_mem_block (b : Bool) : ∀ ns : List (Node ι), areStatements b ns = true →
    ∀ s ∈ blockStatements ns, ∃ b, s.isStatement b = true
  | [], _ => nofun
  | n :: rest, h => by
    simp only [areStatements, Bool.and_eq_true] at h
    simp only [blockStatements, List.forall_mem_cons, List.forall_mem_append]
    exact ⟨⟨b, h.1⟩, isStatement_of_mem b n h.1, isStatement_of_mem_block b rest h.2⟩

end

/-- The node is a statement of a program that was read, at any depth. -/
def IsRead (s : Node Nat) : Prop :=
  ∃ (source : String) (first : Nat) (root : Node Nat),
    (Source.parse source first).1 = .ok root ∧ s ∈ root.statements

theorem IsRead.isStatement {s : Node Nat} (h : s.IsRead) : ∃ b, s.isStatement b = true := by
  obtain ⟨source, first, root, hroot, hs⟩ := h
  obtain ⟨i, body, rfl, hbody⟩ := statements_of_parse hroot
  exact isStatement_of_mem_block false body hbody s hs

end Node

theorem Cursor.onData_of_feed (c : Cursor) {e : Error} (h : c.feed.failure = some e) :
    e.OnData := by
  fun_induction Cursor.feed c with
  | case1 c e' c' hc =>
    cases h
    simp only [Cursor.next] at hc
    split at hc
    · cases hc
    · cases hc
      trivial
  | case2 => cases h
  | case3 _ _ _ _ _ _ _ ih => exact ih h

open Reader in
/-- The errors of the reader name no types. -/
theorem onData_of_parse {source : String} {first : Nat} {e : Error}
    (h : (Source.parse source first).1 = .error e) : e.OnData := by
  simp only [Source.parse, readProgram] at h
  cases hrun : State.start.run (Source.feed source).tokens with
  | error stop =>
    obtain ⟨_, _, _, _, _, _, _, _, herror⟩ := State.run_eq_error hrun
    rw [hrun] at h
    cases h
    rw [herror]
    trivial
  | ok s =>
    rw [hrun] at h
    cases hfailure : (Source.feed source).failure with
    | none =>
      rw [hfailure] at h
      cases h
    | some e' =>
      rw [hfailure] at h
      cases h
      exact Cursor.onData_of_feed _ hfailure

namespace Session

/-- The names known behind statements that an empty session evaluates in turn, in one scope. -/
def tablesBehind (nodes : List (Node Nat)) : Tables :=
  let (_, scope, s) := Session.new.evaluateAll .empty nodes
  ⟨scope, s.routines⟩

theorem solid_of_evaluateAll {nodes : List (Node Nat)}
    (h : ∀ n ∈ nodes, ∃ b, n.isStatement b = true) {s : Session} {scope : Scope}
    (hs : Tables.Solid ⟨scope, s.routines⟩) :
    Tables.Solid ⟨(s.evaluateAll scope nodes).2.1, (s.evaluateAll scope nodes).2.2.routines⟩ := by
  induction nodes generalizing s scope with
  | nil => exact hs
  | cons n rest ih =>
    rw [List.forall_mem_cons] at h
    obtain ⟨⟨b, hn⟩, hrest⟩ := h
    exact ih hrest (keeps_statement b n hn _ hs).tables

end Session

/-- A program that was read is fit to be compiled. -/
theorem fit_of_parse {source : String} {first : Nat} {root : Node Nat}
    (h : (Source.parse source first).1 = .ok root) :
    Moment.Fit ⟨.node root, ⟨.empty, .empty⟩⟩ := by
  obtain ⟨i, body, rfl, hbody⟩ := statements_of_parse h
  exact ⟨⟨false, hbody⟩, Tables.solid_empty⟩

/-- A statement is fit to be evaluated in a session, whatever failed there before. -/
theorem fit_of_session {before : List (Node Nat)} {s : Node Nat} (hbefore : ∀ n ∈ before, n.IsRead)
    (hs : s.IsRead) : Moment.Fit ⟨.node s, Session.tablesBehind before⟩ := by
  obtain ⟨b, hstatement⟩ := hs.isStatement
  refine ⟨Piece.proper_of_isStatement hstatement, ?_⟩
  exact Session.solid_of_evaluateAll (fun n hn => (hbefore n hn).isStatement) Tables.solid_empty

theorem onData_of_compile {source : String} {e : Error} (h : compile source = .error e) :
    e.OnData := by
  simp only [compile, Compiler.compile, Compiler.new] at h
  cases hroot : (Source.parse source 0).1 with
  | error e' =>
    rw [hroot] at h
    cases h
    exact onData_of_parse hroot
  | ok root =>
    rw [hroot] at h
    simp only [Except.bind, generate, generateWith, result_program] at h
    cases hresult : (evaluate root ⟨.empty, .empty⟩).result with
    | error e' =>
      rw [hresult] at h
      cases h
      exact (fit_of_parse hroot).sound.error e hresult
    | ok v =>
      rw [hresult] at h
      cases h

/-- No `void` comes from a text: while a program is compiled, and while statements of programs that
were read are evaluated one behind the other, whatever failed before, every variable and every
result of a function is of data at every moment, every expression that has a value has one of
data, and errors are on data. -/
theorem sound_of_source :
    (∀ source : String,
      (∀ root, (Source.parse source 0).1 = .ok root →
        ∀ m, Visits ⟨.node root, ⟨.empty, .empty⟩⟩ m → m.Sound) ∧
      ∀ e, compile source = .error e → e.OnData) ∧
    ∀ (before : List (Node Nat)) (s : Node Nat), (∀ n ∈ before, n.IsRead) → s.IsRead →
      ∀ m, Visits ⟨.node s, Session.tablesBehind before⟩ m → m.Sound := by
  refine ⟨fun source => ⟨?_, fun e he => onData_of_compile he⟩, ?_⟩
  · intro root hroot m hm
    exact (fit_of_parse hroot).sound_of_visits hm
  · intro before s hbefore hs m hm
    exact (fit_of_session hbefore hs).sound_of_visits hm

/-- A tree that no text has may join two statements. -/
example : generate (.binary 2 .concat (.skip 0) (.skip 1)) = .error (.concat .void .void) := by
  rfl

end Onepass
