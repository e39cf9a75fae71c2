import Onepass.Command.Run

/-!
# Onepass.Main

The program: the command line over the files and streams of the machine it runs on.
-/

namespace Onepass
namespace Command

/-- The system's own words for an error, with its number. -/
def refusalOf : IO.Error → Refusal
  | .noFileOrDirectory _ _ _ => .notFound
  | .inappropriateType _ 20 _ => .notDirectory
  | .inappropriateType _ 21 _ => .isDirectory
  | .alreadyExists _ code details | .interrupted _ code details
  | .invalidArgument _ code details | .permissionDenied _ code details
  | .resourceExhausted _ code details | .inappropriateType _ code details
  | .noSuchThing _ code details =>
    .other (details ++ " (os error " ++ toString code ++ ")")
  | .otherError code details | .resourceBusy code details | .hardwareFault code details
  | .unsupportedOperation code details | .illegalOperation code details
  | .protocolError code details | .timeExpired code details | .resourceVanished code details
  | .unsatisfiedConstraints code details =>
    .other (details ++ " (os error " ++ toString code ++ ")")
  | e => .other e.toString

/-- Runs a step that can fail. -/
def attempt {α : Type} (step : IO α) : IO (Except Refusal α) := do
  match ← step.toBaseIO with
  | .ok a => return .ok a
  | .error e => return .error (refusalOf e)

instance : Host IO where
  readInput := do
    return (← attempt do (← IO.getStdin).readBinToEnd).bind decodeText
  readFile path := do
    return (← attempt (IO.FS.readBinFile path)).bind decodeText
  writeFile path text := attempt (IO.FS.writeFile path text)
  print text := attempt do (← IO.getStdout).putStr text
  complain text := do (← IO.getStderr).putStr text
  log event := do (← IO.getStderr).putStr event.text

end Command
end Onepass

def main (args : List String) : IO UInt32 := do
  return (← Onepass.Command.run args).toUInt32
