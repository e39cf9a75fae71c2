import Onepass.Word

/-!
# Onepass.Operator

The operators of the language, their spelling, their binding strength and their meaning on
words. Binary operators fall into three families by the operands they take: numbers only
(`Arith`), two operands of one type (`Relation`), anything that has a text (`concat`).

`BinaryOp.level` orders them from the loosest, 1, to the tightest, 5.
-/

namespace Onepass

/-- Operators on two integers. -/
inductive Arith where
  | add
  | sub
  | mul
  | div
  | and
  | or
  deriving DecidableEq, Repr

namespace Arith

def spelling : Arith → String
  | .add => "+"
  | .sub => "-"
  | .mul => "*"
  | .div => "/"
  | .and => "and"
  | .or => "or"

/-- The result on two words; `and` and `or` work bit by bit. -/
def eval : Arith → Word → Word → Word
  | .add, a, b => a + b
  | .sub, a, b => a - b
  | .mul, a, b => a * b
  | .div, a, b => Word.quotient a b
  | .and, a, b => a &&& b
  | .or, a, b => a ||| b

end Arith

/-- Comparisons. -/
inductive Relation where
  | greater
  | less
  | equal
  deriving DecidableEq, Repr

namespace Relation

def spelling : Relation → String
  | .greater => ">"
  | .less => "<"
  | .equal => "=="

/-- Does the relation hold of two things ordered like this? -/
def holds : Relation → Ordering → Bool
  | .greater, o => o == .gt
  | .less, o => o == .lt
  | .equal, o => o == .eq

end Relation

inductive BinaryOp where
  | arith (op : Arith)
  | relation (op : Relation)
  | concat
  deriving DecidableEq, Repr

namespace BinaryOp

def spelling : BinaryOp → String
  | .arith op => op.spelling
  | .relation op => op.spelling
  | .concat => ".."

def level : BinaryOp → Nat
  | .arith .or => 1
  | .arith .and => 2
  | .relation _ => 3
  | .arith .add | .arith .sub | .concat => 4
  | .arith .mul | .arith .div => 5

theorem level_pos (op : BinaryOp) : 0 < op.level := by
  rcases op with op | op | _
  · cases op <;> decide
  · cases op <;> decide
  · decide

end BinaryOp

inductive UnaryOp where
  | plus
  | neg
  | not
  deriving DecidableEq, Repr

namespace UnaryOp

def spelling : UnaryOp → String
  | .plus => "+"
  | .neg => "-"
  | .not => "not"

def eval : UnaryOp → Word → Word
  | .plus, a => a
  | .neg, a => -a
  | .not, a => Word.ofBool (a == 0)

end UnaryOp
end Onepass
