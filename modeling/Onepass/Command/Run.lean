import Onepass.Command.Libraries
import Onepass.Command.Path
import Onepass.Logging

/-!
# Onepass.Command.Run

The command line: read a source, compile it, write the listing. The steps come in this order, and
the first that fails ends the run with code 1, so nothing is written where there is no listing.
Wrong arguments end it with code 2. The log goes along with the steps, as far as its events are
shown.
-/

namespace Onepass
namespace Command

namespace Options

def fromInput (o : Options) : Bool := o.input = "-"

/-- Where the listing goes: a path, or standard output. A listing of a file goes beside it. -/
def destination (o : Options) : Option String :=
  match o.output with
  | some path => some path
  | none => if o.fromInput then none else some (Path.withExtension "asm" o.input)

end Options

/-- This and the other texts about the command line itself are those of `clap`. -/
def version : String := "lunac 0.1.0\n"

def usage : String := "Usage: lunac [OPTIONS] <INPUT>\n"

def help : String :=
  "Compiles a Lua-like source file to 32-bit x86 NASM assembly\n\n" ++ usage ++
    "\nArguments:\n" ++
    "  <INPUT>  Source file, or `-` to read from stdin\n" ++
    "\nOptions:\n" ++
    "  -o, --output <OUTPUT>  Output path [default: the input path with an `.asm` extension, " ++
    "or stdout for stdin]\n" ++
    "  -v, --verbose...       Log more (-v info, -vv debug, -vvv trace)\n" ++
    "  -h, --help             Print help\n" ++
    "  -V, --version          Print version\n"

section

variable {m : Type → Type} [Monad m] [Host m]

/-- Logs the events that the options let through. -/
def note (o : Options) : List Event → m Unit
  | [] => return ()
  | event :: rest => do
    if event.shown o.verbose then Host.log event
    note o rest

/-- What the input holds. -/
def fetch (o : Options) : m (Except Refusal String) :=
  if o.fromInput then Host.readInput else Host.readFile o.input

variable (lib : Libraries) (o : Options)

def giveUp (step : String) (cause : Cause) : m Nat := do
  Host.complain (lib.report step cause)
  return 1

/-- The text of a listing goes where it belongs. -/
def deliver (text : String) : m Nat := do
  match o.destination with
  | none =>
    match ← Host.print text with
    | .error r => giveUp lib "writing to stdout" (.refused r)
    | .ok () => return 0
  | some path =>
    match ← Host.writeFile path text with
    | .error r => giveUp lib ("writing " ++ path) (.refused r)
    | .ok () =>
      note o [.wrote path]
      return 0

/-- A source, if there is one, is compiled. -/
def process : Except Refusal String → m Nat
  | .error r => giveUp lib ("reading " ++ o.input) (.refused r)
  | .ok source => do
    note o (Compiler.new.log (lib.text source))
    match compile (lib.text source) with
    | .error e => giveUp lib ("compiling " ++ o.input) (.rejected e)
    | .ok listing => deliver lib o listing.text

def build : m Nat := do
  note o [.compiling o.input]
  process lib o (← fetch o)

/-- A run with the given arguments; its result is the exit code. -/
def runWith (args : List String) : m Nat := do
  match lib.request args with
  | .compile options => build lib options
  | .help =>
    let _ ← Host.print help
    return 0
  | .version =>
    let _ ← Host.print version
    return 0
  | .misuse reason =>
    Host.complain ("error: " ++ reason.message ++ "\n\n" ++ usage ++
      "\nFor more information, try '--help'.\n")
    return 2

end

/-- A run of the program. -/
def run {m : Type → Type} [Monad m] [Host m] (args : List String) : m Nat := runWith .standard args

end Command
end Onepass
