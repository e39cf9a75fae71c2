/-!
# Onepass.Command.Options

The arguments of the command line, as the `clap` library takes them: one after the other, and the
first that is wrong, or that asks for the help or the version, decides.
-/

namespace Onepass
namespace Command

/-- What a compilation from the command line is told. -/
structure Options where
  /-- A path, or `-` for standard input. -/
  input : String
  output : Option String
  /-- How often a longer log was asked for. -/
  verbose : Nat
  deriving DecidableEq, Repr

/-- Why the arguments are wrong. -/
inductive Misuse where
  | unknownOption (option : String)
  | unexpectedValue (option : String)
  | missingValue
  | emptyValue
  | repeatedOutput
  | unexpectedArgument (argument : String)
  | missingInput
  deriving DecidableEq, Repr

namespace Misuse

/-- The words that `clap` has for it. -/
def message : Misuse → String
  | .unknownOption option => "unexpected argument '" ++ option ++ "' found"
  | .unexpectedValue option =>
    "unexpected value for '" ++ option ++ "' found; no more were expected"
  | .missingValue => "a value is required for '--output <OUTPUT>' but none was supplied"
  | .emptyValue => "a value is required for '--output <OUTPUT>' but none was supplied"
  | .repeatedOutput => "the argument '--output <OUTPUT>' cannot be used multiple times"
  | .unexpectedArgument argument => "unexpected argument '" ++ argument ++ "' found"
  | .missingInput => "the following required arguments were not provided:\n  <INPUT>"

end Misuse

inductive Request where
  | compile (options : Options)
  | help
  | version
  | misuse (m : Misuse)
  deriving DecidableEq, Repr

/-- What the arguments so far say. -/
structure Progress where
  input : Option String
  output : Option String
  verbose : Nat
  /-- The next argument is the value of `-o`. -/
  waiting : Bool
  /-- Behind `--` every argument is an input. -/
  plain : Bool
  deriving DecidableEq, Repr

namespace Progress

def start : Progress := ⟨none, none, 0, false, false⟩

def giveInput (p : Progress) (path : String) : Except Request Progress :=
  match p.input with
  | none => .ok { p with input := some path }
  | some _ => .error (.misuse (.unexpectedArgument path))

def giveOutput (p : Progress) (path : String) : Except Request Progress :=
  if path.isEmpty then .error (.misuse .emptyValue)
  else
    match p.output with
    | none => .ok { p with output := some path, waiting := false }
    | some _ => .error (.misuse .repeatedOutput)

/-- The count stops at the largest byte. -/
def giveVerbose (p : Progress) : Progress := { p with verbose := min (p.verbose + 1) 255 }

/-- The letters of an argument with one dash. The rest of it is the value of `o`. -/
def shorts (p : Progress) : List Char → Except Request Progress
  | [] => .ok p
  | 'v' :: rest => p.giveVerbose.shorts rest
  | 'h' :: _ => .error .help
  | 'V' :: _ => .error .version
  | 'o' :: [] => .ok { p with waiting := true }
  | 'o' :: '=' :: value => p.giveOutput (String.ofList value)
  | 'o' :: value => p.giveOutput (String.ofList value)
  | c :: _ => .error (.misuse (.unknownOption (String.ofList ['-', c])))

/-- An argument with two dashes, its name and perhaps a value behind an equals sign. -/
def long (p : Progress) (name : String) (value : Option String) : Except Request Progress :=
  match name, value with
  | "output", some v => p.giveOutput v
  | "output", none => .ok { p with waiting := true }
  | "verbose", none => .ok p.giveVerbose
  | "help", none => .error .help
  | "version", none => .error .version
  | "verbose", some _ | "help", some _ | "version", some _ =>
    .error (.misuse (.unexpectedValue ("--" ++ name)))
  | _, _ => .error (.misuse (.unknownOption ("--" ++ name)))

/-- A long option's name, and its value if there is an equals sign. -/
def splitLong (cs : List Char) : String × Option String :=
  match cs.dropWhile (· != '=') with
  | [] => (String.ofList cs, none)
  | _ :: value => (String.ofList (cs.takeWhile (· != '=')), some (String.ofList value))

def take (p : Progress) (arg : String) : Except Request Progress :=
  if p.plain then p.giveInput arg
  else
    match arg.toList with
    | '-' :: c :: rest =>
      if p.waiting then .error (.misuse .missingValue)
      else if c = '-' then
        if rest.isEmpty then .ok { p with plain := true }
        else p.long (splitLong rest).1 (splitLong rest).2
      else p.shorts (c :: rest)
    | _ => if p.waiting then p.giveOutput arg else p.giveInput arg

def takeAll (p : Progress) : List String → Except Request Progress
  | [] => .ok p
  | arg :: rest =>
    match p.take arg with
    | .ok p => p.takeAll rest
    | .error r => .error r

def finish (p : Progress) : Request :=
  if p.waiting then .misuse .missingValue
  else
    match p.input with
    | some input => .compile ⟨input, p.output, p.verbose⟩
    | none => .misuse .missingInput

end Progress

namespace Request

/-- What the arguments ask for, taken as `clap` takes them. -/
def ofArgs (args : List String) : Request :=
  match Progress.start.takeAll args with
  | .ok p => p.finish
  | .error r => r

end Request
end Command
end Onepass
