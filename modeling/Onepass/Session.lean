import Onepass.Lowering

/-!
# Onepass.Session

One listing that grows while nodes are evaluated one after the other, each in a scope of the
caller's choice. Code and names that came before an error stay, so a session goes on after one.
-/

namespace Onepass

structure Session where
  /-- The code so far. -/
  code : List Assembly.Line
  routines : Routines

namespace Session

def new : Session := ⟨[], .empty⟩

def evaluate (s : Session) (scope : Scope) (node : Node Nat) :
    Except Error Value × Scope × Session :=
  let e := Onepass.evaluate node ⟨scope, s.routines⟩
  (e.result, e.tables.scope, ⟨s.code ++ e.code, e.tables.routines⟩)

/-- Evaluates nodes in turn, also behind one that fails. -/
def evaluateAll (s : Session) (scope : Scope) :
    List (Node Nat) → List (Except Error Value) × Scope × Session
  | [] => ([], scope, s)
  | node :: rest =>
    let (result, scope, s) := s.evaluate scope node
    let (results, scope, s) := s.evaluateAll scope rest
    (result :: results, scope, s)

/-- The listing with the program `root` behind the code so far. -/
def finish (s : Session) (root : Node Nat) : Except Error Assembly.Listing :=
  (generateWith s.routines root).map fun listing => ⟨s.code ++ listing.body⟩

end Session
end Onepass
