import Onepass.Dictionary
import Onepass.Error

/-!
# Onepass.Routine

The functions of a program. A function is declared once and known from there on, in its own body
too; its result counts as an integer until a result of its body is known.
-/

namespace Onepass

structure Routine where
  params : List String
  returns : Ty
  deriving DecidableEq, Repr

namespace Routine

/-- A call has as many arguments as the function has parameters. -/
def checkArity (r : Routine) (name : String) (given : Nat) : Except Error Unit :=
  if r.params.length = given then .ok () else .error (.arity name r.params.length given)

end Routine

abbrev Routines := Dictionary Routine

namespace Routines

def find (rs : Routines) (name : String) : Except Error Routine :=
  match rs.get? name with
  | some r => .ok r
  | none => .error (.undeclaredFunction name)

def declare (rs : Routines) (name : String) (params : List String) : Except Error Routines :=
  if rs.contains name then .error (.duplicateFunction name)
  else .ok (rs.insert name ⟨params, .int⟩)

/-- Notes the type of a function's result. -/
def returning (rs : Routines) (name : String) (ty : Ty) : Routines :=
  rs.modify name fun r => { r with returns := ty }

end Routines
end Onepass
