import Onepass.Word

/-!
# Onepass.Value

Type tags, and the values that stand in for the results of expressions while a program is
compiled. A value exists to carry its tag: what only the running program knows is represented
by `Value.unknown`, the zero of its type.
-/

namespace Onepass

inductive Ty where
  | int
  | string
  /-- The tag of a statement; no operand has it. -/
  | void
  deriving DecidableEq, Repr

namespace Ty

def name : Ty → String
  | .int => "INT"
  | .string => "STRING"
  | .void => "VOID"

end Ty

inductive Value where
  | int (value : Word)
  | str (text : String)
  | void
  deriving DecidableEq, Repr

namespace Value

def unknown : Ty → Value
  | .int => .int 0
  | .string => .str ""
  | .void => .void

def ty : Value → Ty
  | .int _ => .int
  | .str _ => .string
  | .void => .void

/-- The number of an integer, 0 for anything else. -/
def asInt : Value → Word
  | .int w => w
  | _ => 0

def display : Value → String
  | .int w => w.text
  | .str s => s
  | .void => ""

@[simp] theorem ty_unknown (t : Ty) : (unknown t).ty = t := by
  cases t <;> rfl

end Value
end Onepass
