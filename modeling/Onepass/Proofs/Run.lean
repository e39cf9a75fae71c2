import Onepass.Proofs.Functions
import Onepass.Proofs.Machine

/-!
# Onepass.Proofs.Run

What programs do, for programs that only compute with integers. `Run fs d p σ ω o ω'` says that
the piece `p`, run in a frame with the variables `σ` while the world is `ω`, ends with `o` in the
world `ω'`, calls being nested no deeper than `d`; `fs` are the functions of the program.

There is no rule for a quotient that does not exist, for a variable without a value, for reading
when no number is left, and none for strings: such runs do not end here.

* `Prints` -- a program ends and has printed some numbers.
-/

namespace Onepass

/-- The values of the variables of a frame. -/
abbrev Store := String → Option Word

namespace Store

def empty : Store := fun _ => none

def set (σ : Store) (x : String) (w : Word) : Store := fun y => if y = x then some w else σ y

/-- Parameters with their values. -/
def ofParams (ps : List String) (ws : List Word) : Store := fun x => (ps.zip ws).lookup x

end Store

/-- How a piece ends. -/
inductive Outcome where
  | value (w : Word)
  /-- The values of arguments. -/
  | values (ws : List Word)
  /-- The run goes on behind the piece. -/
  | falls (σ : Store)
  /-- A function is left. -/
  | returns (w : Word)

namespace Outcome

/-- The result of a function whose body ends like this. -/
def result? : Outcome → Option Word
  | .returns w => some w
  | .falls _ => some 0
  | _ => none

/-- The outcome of a statement. -/
def Ends (o : Outcome) : Prop := (∃ σ, o = .falls σ) ∨ ∃ w, o = .returns w

end Outcome

namespace BinaryOp

/-- The result on two integers, if there is one. -/
def eval? : BinaryOp → Word → Word → Option Word
  | .arith .div, a, b => if b = 0 ∨ (a = Word.least ∧ b = -1) then none else some (a.sdiv b)
  | .arith op, a, b => some (op.eval a b)
  | .relation op, a, b => some (Word.ofBool (op.holds (compare a.toInt b.toInt)))
  | .concat, _, _ => none

end BinaryOp

inductive Run (fs : List Function) : Nat → Piece → Store → World → Outcome → World → Prop where
  | var {d i x σ ω w} : σ x = some w → Run fs d (.node (.var i x)) σ ω (.value w) ω
  | int {d i n σ ω} : Run fs d (.node (.int i n)) σ ω (.value n) ω
  | read {d i σ w input printed} :
      Run fs d (.node (.read i)) σ ⟨w :: input, printed⟩ (.value w) ⟨input, printed⟩
  | unary {d i op e σ ω a ω'} : Run fs d (.node e) σ ω (.value a) ω' →
      Run fs d (.node (.unary i op e)) σ ω (.value (op.eval a)) ω'
  | binary {d i op l r σ ω b ω₁ a ω₂ w} : Run fs d (.node r) σ ω (.value b) ω₁ →
      Run fs d (.node l) σ ω₁ (.value a) ω₂ → op.eval? a b = some w →
      Run fs d (.node (.binary i op l r)) σ ω (.value w) ω₂
  | call {d i f as σ ω ws ω₁ g o ω₂ w} : Run fs (d + 1) (.args as) σ ω (.values ws) ω₁ →
      fs.find? (·.name = f) = some g → g.params.length = ws.length →
      Run fs d (.block g.body) (.ofParams g.params ws) ω₁ o ω₂ → o.result? = some w →
      Run fs (d + 1) (.node (.call i f as)) σ ω (.value w) ω₂
  | noArgs {d σ ω} : Run fs d (.args []) σ ω (.values []) ω
  /-- The last argument comes first. -/
  | arg {d n rest σ ω ws ω₁ w ω₂} : Run fs d (.args rest) σ ω (.values ws) ω₁ →
      Run fs d (.node n) σ ω₁ (.value w) ω₂ →
      Run fs d (.args (n :: rest)) σ ω (.values (w :: ws)) ω₂
  | assign {d i x e σ ω w ω'} : Run fs d (.node e) σ ω (.value w) ω' →
      Run fs d (.node (.assign i x e)) σ ω (.falls (σ.set x w)) ω'
  | declare {d i x σ ω} : Run fs d (.node (.declare i x)) σ ω (.falls (σ.set x 0)) ω
  | define {d i x e σ ω w ω'} : Run fs d (.node e) (σ.set x 0) ω (.value w) ω' →
      Run fs d (.node (.define i x e)) σ ω (.falls ((σ.set x 0).set x w)) ω'
  | print {d i e σ ω w ω'} : Run fs d (.node e) σ ω (.value w) ω' →
      Run fs d (.node (.print i e)) σ ω (.falls σ) { ω' with printed := ω'.printed ++ [w] }
  | ret {d i e σ ω w ω'} : Run fs d (.node e) σ ω (.value w) ω' →
      Run fs d (.node (.ret i e)) σ ω (.returns w) ω'
  | yes {d i e ys ns σ ω w ω₁ o ω₂} : Run fs d (.node e) σ ω (.value w) ω₁ → w ≠ 0 →
      Run fs d (.block ys) σ ω₁ o ω₂ → Run fs d (.node (.branch i e ys ns)) σ ω o ω₂
  | no {d i e ys ns σ ω ω₁ o ω₂} : Run fs d (.node e) σ ω (.value 0) ω₁ →
      Run fs d (.block ns) σ ω₁ o ω₂ → Run fs d (.node (.branch i e ys ns)) σ ω o ω₂
  | exit {d i e body σ ω ω'} : Run fs d (.node e) σ ω (.value 0) ω' →
      Run fs d (.node (.loop i e body)) σ ω (.falls σ) ω'
  | again {d i e body σ ω w ω₁ σ' ω₂ o ω₃} : Run fs d (.node e) σ ω (.value w) ω₁ → w ≠ 0 →
      Run fs d (.block body) σ ω₁ (.falls σ') ω₂ → Run fs d (.node (.loop i e body)) σ' ω₂ o ω₃ →
      Run fs d (.node (.loop i e body)) σ ω o ω₃
  | leave {d i e body σ ω w ω₁ v ω₂} : Run fs d (.node e) σ ω (.value w) ω₁ → w ≠ 0 →
      Run fs d (.block body) σ ω₁ (.returns v) ω₂ →
      Run fs d (.node (.loop i e body)) σ ω (.returns v) ω₂
  /-- A function that is declared is not run. -/
  | function {d i f ps body σ ω} : Run fs d (.node (.function i f ps body)) σ ω (.falls σ) ω
  | inner {d i body σ ω o ω'} : Run fs d (.block body) σ ω o ω' →
      Run fs d (.node (.block i body)) σ ω o ω'
  | skip {d i σ ω} : Run fs d (.node (.skip i)) σ ω (.falls σ) ω
  | nil {d σ ω} : Run fs d (.block []) σ ω (.falls σ) ω
  /-- An expression may stand as a statement. -/
  | drop {d n rest σ ω w ω₁ o ω₂} : Run fs d (.node n) σ ω (.value w) ω₁ →
      Run fs d (.block rest) σ ω₁ o ω₂ → Run fs d (.block (n :: rest)) σ ω o ω₂
  | cons {d n rest σ ω σ' ω₁ o ω₂} : Run fs d (.node n) σ ω (.falls σ') ω₁ →
      Run fs d (.block rest) σ' ω₁ o ω₂ → Run fs d (.block (n :: rest)) σ ω o ω₂
  | stop {d n rest σ ω v ω₁} : Run fs d (.node n) σ ω (.returns v) ω₁ →
      Run fs d (.block (n :: rest)) σ ω (.returns v) ω₁

theorem Node.length_le_sizes (body : List (Node Nat)) : body.length ≤ Node.sizes body := by
  induction body with
  | nil => exact Nat.le_refl 0
  | cons n rest ih =>
    have := n.size_pos
    rw [List.length_cons, Node.sizes]
    omega

namespace Piece

/-- The number of nodes. -/
def size : Piece → Nat
  | .node n => n.size
  | .block body => Node.sizes body
  | .args as => Node.sizes as

/-- Is the piece a block or a loop? -/
def IsControl : Piece → Prop
  | .block _ | .node (.loop _ _ _) => True
  | _ => False

end Piece

theorem ends_of_run {fs : List Function} {d p σ ω o ω'} (h : Run fs d p σ ω o ω')
    (hp : p.IsControl) : o.Ends := by
  induction h with
  | exit | nil => exact .inl ⟨_, rfl⟩
  | leave | stop => exact .inr ⟨_, rfl⟩
  | again _ _ _ _ _ _ ih => exact ih trivial
  | drop _ _ _ ih => exact ih trivial
  | cons _ _ _ ih => exact ih trivial
  | _ => cases hp

/-- Arguments have a value each. -/
theorem length_of_run {fs : List Function} {d as σ ω ws ω'}
    (h : Run fs d (.args as) σ ω (.values ws) ω') : ws.length = as.length := by
  induction as generalizing ws ω' with
  | nil =>
    cases h
    rfl
  | cons n rest ih =>
    cases h with
    | arg hrest _ => rw [List.length_cons, List.length_cons, ih hrest]

/-- The program ends with `printed` when it is given the numbers `input`, its calls being nested
no deeper than `d`. -/
def Prints (root : Node Nat) (d : Nat) (input printed : List Word) : Prop :=
  ∃ σ rest, Run root.functions d (.node root) .empty ⟨input, []⟩ (.falls σ) ⟨rest, printed⟩

end Onepass
