import Onepass.Comment
import Onepass.Reader.Step
import Onepass.Tree.Numbering

/-!
# Onepass.Source

From the text of a program to its tree, comments removed and nodes numbered.
-/

namespace Onepass
namespace Source

/-- The tokens of a program's text. -/
def feed (source : String) : Feed := (Cursor.ofString (Comment.strip source)).feed

/-- The program in a text, its nodes numbered from `first`, and the first number left. Numbers
are used up by a text that is no program too: one for each node built until reading ended. -/
def parse (source : String) (first : Nat) : Except Error (Node Nat) × Nat :=
  match Reader.readProgram (feed source) with
  | .ok tree =>
    let (node, next) := tree.number first
    (.ok node, next)
  | .error stop => (.error stop.error, first + stop.built)

end Source
end Onepass
