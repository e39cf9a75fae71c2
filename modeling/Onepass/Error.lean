import Onepass.Operator
import Onepass.Text.Quoted
import Onepass.Token
import Onepass.Value

/-!
# Onepass.Error

Why a compilation fails, and the one wording of every cause. The first error ends a
compilation.
-/

namespace Onepass

/-- Why no token begins at some place of a text. -/
inductive LexicalCause where
  | badCharacter (c : Char)
  | unclosedString
  /-- A dot that no second dot follows; `next` is what follows it instead. -/
  | loneDot (next : Option Char)
  | integerTooLarge (digits : String)
  deriving DecidableEq, Repr

namespace LexicalCause

def message : LexicalCause → String
  | .badCharacter c => "not a valid character: " ++ Text.quoted c
  | .unclosedString => "quotation mark is not closed"
  | .loneDot next =>
    "not a valid operator: '." ++ (next.map String.singleton).getD "" ++ "'"
  | .integerTooLarge digits => "integer literal " ++ digits ++ " does not fit in 32 bits"

end LexicalCause

inductive Error where
  | lexical (line : Nat) (cause : LexicalCause)
  | unexpected (line : Nat) (expected : List Category) (actual : Category)
  | arithmetic (op : Arith) (left right : Ty)
  | mismatch (op : Relation) (left right : Ty)
  | operand (op : UnaryOp) (ty : Ty)
  | concat (left right : Ty)
  | duplicateVariable (name : String)
  | undeclaredVariable (name : String)
  | duplicateFunction (name : String)
  | undeclaredFunction (name : String)
  | arity (name : String) (expected given : Nat)
  deriving DecidableEq, Repr

namespace Error

def message : Error → String
  | .lexical line cause => "line " ++ toString line ++ ": " ++ cause.message
  | .unexpected line expected actual =>
    "line " ++ toString line ++ ": expected one of [" ++
      ", ".intercalate (expected.map Category.name) ++ "], got " ++ actual.name
  | .arithmetic op left right =>
    "\"" ++ op.spelling ++ "\" operator is only allowed with INT data, got " ++ left.name ++
      " and " ++ right.name
  | .mismatch op left right =>
    "\"" ++ op.spelling ++ "\" operator can't be used between data with different types (" ++
      left.name ++ " and " ++ right.name ++ ")"
  | .operand op ty =>
    "unary \"" ++ op.spelling ++ "\" operator is only allowed with INT data, got " ++ ty.name
  | .concat left right =>
    "\"..\" operator is only allowed with INT or STRING data, got " ++ left.name ++ " and " ++
      right.name
  | .duplicateVariable name => "variable " ++ name ++ " already declared"
  | .undeclaredVariable name => "variable " ++ name ++ " not declared"
  | .duplicateFunction name => "function " ++ name ++ " already declared"
  | .undeclaredFunction name => "function " ++ name ++ " not declared"
  | .arity name expected given =>
    "function " ++ name ++ " expects " ++ toString expected ++ " arguments, " ++
      toString given ++ " given"

end Error
end Onepass
