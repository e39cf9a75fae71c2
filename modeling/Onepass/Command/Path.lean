/-!
# Onepass.Command.Path

Paths as text. A path's name is what stands behind its last slash; a name's extension is what
stands behind its last dot, unless that dot is its first character.

* `parts`         -- the pieces between slashes.
* `withExtension` -- the path with another extension.
-/

namespace Onepass
namespace Command
namespace Path

/-- The pieces between slashes, empty ones included. -/
def pieces : List Char → List (List Char)
  | [] => [[]]
  | c :: cs =>
    if c = '/' then [] :: pieces cs
    else
      match pieces cs with
      | [] => [[c]]
      | p :: ps => (c :: p) :: ps

/-- The names on the way, empty pieces left out. -/
def parts (path : String) : List String :=
  ((pieces path.toList).filter fun p => !p.isEmpty).map String.ofList

/-- The characters up to the last one that is `c`, with it; none if there is no `c`. -/
def upTo (c : Char) (cs : List Char) : List Char := (cs.reverse.dropWhile (· != c)).reverse

/-- The characters behind the last one that is `c`. -/
def behind (c : Char) (cs : List Char) : List Char := (cs.reverse.takeWhile (· != c)).reverse

/-- A name without its extension, the dot kept. -/
def withDot (name : List Char) : List Char :=
  if (upTo '.' name).length ≤ 1 then name else upTo '.' name

/-- A name without its extension and its dot. -/
def stem (name : List Char) : List Char :=
  if (upTo '.' name).length ≤ 1 then name else (upTo '.' name).dropLast

/-- Names of directories have no extension. -/
def isDots (name : List Char) : Bool := name = [] || name = ['.'] || name = ['.', '.']

/-- The path with the extension `ext` in place of its own, or behind its name if that has none.
The extension goes first and the dot after it; where two dots alone are left in between, the
path is that of a directory and takes no extension. -/
def withExtension (ext path : String) : String :=
  let dir := upTo '/' path.toList
  let name := behind '/' path.toList
  if isDots name then path
  else if isDots (withDot name) then String.ofList (dir ++ withDot name)
  else String.ofList (dir ++ stem (withDot name) ++ '.' :: ext.toList)

end Path
end Command
end Onepass
