import Onepass.Event

/-!
# Onepass.Command.Host

What the command line needs from the outside: standard input and output, a place for complaints,
a log, and files. Reading a file gives its text or the reason why there is none.
-/

namespace Onepass
namespace Command

/-- Why a file or a stream could not be read or written. -/
inductive Refusal where
  | notFound
  | notDirectory
  | isDirectory
  | nameTooLong
  /-- The bytes are no text. -/
  | notText
  | other (message : String)
  deriving DecidableEq, Repr

namespace Refusal

def message : Refusal → String
  | .notFound => "No such file or directory (os error 2)"
  | .notDirectory => "Not a directory (os error 20)"
  | .isDirectory => "Is a directory (os error 21)"
  | .nameTooLong => "File name too long (os error 36)"
  | .notText => "stream did not contain valid UTF-8"
  | .other message => message

end Refusal

/-- The text that bytes spell. -/
def decodeText (bytes : ByteArray) : Except Refusal String :=
  match String.fromUTF8? bytes with
  | some s => .ok s
  | none => .error .notText

class Host (m : Type → Type) where
  /-- All of standard input. -/
  readInput : m (Except Refusal String)
  readFile (path : String) : m (Except Refusal String)
  writeFile (path text : String) : m (Except Refusal Unit)
  print (text : String) : m (Except Refusal Unit)
  complain (text : String) : m Unit
  /-- Writes the line of an event that is shown. -/
  log (event : Event) : m Unit

end Command
end Onepass
