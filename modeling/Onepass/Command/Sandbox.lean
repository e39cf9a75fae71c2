import Onepass.Command.Host
import Onepass.Command.Path

/-!
# Onepass.Command.Sandbox

A host without an outside: files in a value, and streams as texts. A file is known by the names
on the way to it from the working directory; the directories are those on the way to some file.
What lies above the working directory is a bare chain of directories.
-/

namespace Onepass
namespace Command

/-- What a file or a stream holds: a text, or bytes that may or may not spell one. -/
inductive Content where
  | text (s : String)
  | bytes (data : List UInt8)
  deriving DecidableEq, Repr

instance : Coe String Content := ⟨.text⟩

namespace Content

def toText : Content → Except Refusal String
  | .text s => .ok s
  | .bytes data => decodeText ⟨data.toArray⟩

end Content

structure Disk where
  files : List (List String × Content)

namespace Disk

def file? (d : Disk) (place : List String) : Option Content := d.files.lookup place

/-- The root's parent is the root. -/
def root : List String := ["/"]

def parent (place : List String) : List String :=
  if place = root then root
  else if place.all (· = "..") then place ++ [".."]
  else place.dropLast

def isDirectory (d : Disk) (place : List String) : Bool :=
  place = root || place.all (· = "..") ||
    d.files.any fun (file, _) => place.length < file.length && place.isPrefixOf file

/-- A name may take 255 bytes, a path 4095. -/
def nameFits (name : String) : Bool := name.utf8ByteSize ≤ 255

def pathFits (path : String) : Bool := path.utf8ByteSize ≤ 4095

/-- The last name of a place, which is looked up only after the way to it. -/
def lastNameFits (place : List String) : Bool := (place.getLast?.map nameFits).getD true

/-- Follows names from a directory. The result is the place of the last one, not yet looked up,
or `none` where the names lead to a directory without naming it. -/
def follow (d : Disk) (dir : List String) : List String → Except Refusal (Option (List String))
  | [] => .ok none
  | "." :: rest => d.follow dir rest
  | ".." :: rest => d.follow (parent dir) rest
  | name :: rest =>
    if rest.isEmpty then .ok (some (dir ++ [name]))
    else if !nameFits name then .error .nameTooLong
    else if d.isDirectory (dir ++ [name]) then d.follow (dir ++ [name]) rest
    else if (d.file? (dir ++ [name])).isSome then .error .notDirectory
    else .error .notFound

def locate (d : Disk) (path : String) : Except Refusal (Option (List String)) :=
  if path.isEmpty then .error .notFound
  else if !pathFits path then .error .nameTooLong
  else d.follow (if path.toList.head? = some '/' then root else []) (Path.parts path)

/-- A slash at the end asks for a directory. -/
def asksForDirectory (path : String) : Bool := path.toList.getLast? = some '/'

def read (d : Disk) (path : String) : Except Refusal String :=
  match d.locate path with
  | .error r => .error r
  | .ok none => .error .isDirectory
  | .ok (some place) =>
    if !lastNameFits place then .error .nameTooLong
    else if d.isDirectory place then .error .isDirectory
    else
      match d.file? place with
      | none => .error .notFound
      | some content =>
        if asksForDirectory path then .error .notDirectory else content.toText

def put (d : Disk) (place : List String) (content : Content) : Disk :=
  ⟨(place, content) :: d.files.filter fun (file, _) => file ≠ place⟩

/-- The place of the file that is opened for writing. A path that asks for a directory is refused
before its last name is looked up. -/
def opened (d : Disk) (path : String) : Except Refusal (List String) :=
  match d.locate path with
  | .error r => .error r
  | .ok none => .error .isDirectory
  | .ok (some place) =>
    if asksForDirectory path then .error .isDirectory
    else if !lastNameFits place then .error .nameTooLong
    else if d.isDirectory place then .error .isDirectory
    else .ok place

end Disk

/-- The outside as a value. It keeps no log. -/
structure World where
  disk : Disk
  input : Content
  printed : String
  complaints : String

abbrev Sandbox := StateM World

instance : Host Sandbox where
  readInput := do return (← get).input.toText
  readFile path := do return (← get).disk.read path
  writeFile path text := do
    match (← get).disk.opened path with
    | .ok place =>
      modify fun w => { w with disk := w.disk.put place text }
      return .ok ()
    | .error r => return .error r
  print text := do
    modify fun w => { w with printed := w.printed ++ text }
    return .ok ()
  complain text := modify fun w => { w with complaints := w.complaints ++ text }
  log _ := return ()

end Command
end Onepass
