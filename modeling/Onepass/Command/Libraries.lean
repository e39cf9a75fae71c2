import Onepass.Command.Host
import Onepass.Command.Options
import Onepass.Error
import Onepass.Text.Trim

/-!
# Onepass.Command.Libraries

What the command line leaves to libraries: `clap` takes the arguments, `clap_stdin` delivers the
text of the input, and `anyhow` words the report of a step that failed. The steps of the command
line are the same whatever these do; `Libraries.standard` is what they do. How `tracing` words a
line of the log is a matter of the host.
-/

namespace Onepass
namespace Command

/-- Why a step failed. -/
inductive Cause where
  | refused (r : Refusal)
  | rejected (e : Error)
  deriving DecidableEq, Repr

namespace Cause

def message : Cause → String
  | .refused r => r.message
  | .rejected e => e.message

end Cause

structure Libraries where
  /-- What the arguments ask for. -/
  request : List String → Request
  /-- What is delivered of the text of an input. -/
  text : String → String
  /-- What is said of a step that failed. -/
  report (step : String) (cause : Cause) : String

/-- A character of a message that is moved to the right. -/
def moved (c : Char) : String := if c = '\n' then "\n    " else String.singleton c

/-- A message moved to the right; its further lines too. -/
def indented (message : String) : String := "    " ++ String.join (message.toList.map moved)

/-- The report of `anyhow`: the step, and its cause below. -/
def failure (step : String) (cause : Cause) : String :=
  "Error: " ++ step ++ "\n\nCaused by:\n" ++ indented cause.message ++ "\n"

/-- What the libraries do. -/
def Libraries.standard : Libraries := ⟨Request.ofArgs, Text.trimEnd, failure⟩

end Command
end Onepass
