import Onepass.Lowering
import Onepass.Source

/-!
# Onepass.Compiler

The compiler: the text of a program to its listing. All that a `Compiler` keeps from one
program to the next is the first number that no node has had, so that labels of two listings
never meet.
-/

namespace Onepass

structure Compiler where
  nextId : Nat
  deriving DecidableEq, Repr

namespace Compiler

def new : Compiler := ⟨0⟩

def compile (c : Compiler) (source : String) : Except Error Assembly.Listing × Compiler :=
  let (root, next) := Source.parse source c.nextId
  (root.bind generate, ⟨next⟩)

end Compiler

/-- The listing of one program. -/
def compile (source : String) : Except Error Assembly.Listing := (Compiler.new.compile source).1

end Onepass
