import Onepass.Token

/-!
# Onepass.Event

What a compilation tells of itself while it goes on. Every event has a level, and how many levels
are shown depends on how often more was asked for.
-/

namespace Onepass

/-- The levels, those of greater weight first. -/
inductive Severity where
  | warn
  | info
  | debug
  | trace
  deriving DecidableEq, Repr

namespace Severity

def name : Severity → String
  | .warn => "WARN"
  | .info => "INFO"
  | .debug => "DEBUG"
  | .trace => "TRACE"

def rank : Severity → Nat
  | .warn => 0
  | .info => 1
  | .debug => 2
  | .trace => 3

/-- The last level that is shown where more was asked for `count` times. -/
def ofCount : Nat → Severity
  | 0 => .warn
  | 1 => .info
  | 2 => .debug
  | _ => .trace

end Severity

inductive Event where
  | compiling (input : String)
  | token (t : Token)
  | parsed (statements : Nat)
  | declaredLocal (name : String) (offset : Word)
  | declaredFunction (name : String) (params : Nat)
  | generatedFunction (name : String) (frameSize : Word)
  | mainFrame (frameSize : Word)
  | wrote (output : String)
  deriving DecidableEq, Repr

namespace Event

def level : Event → Severity
  | .compiling _ | .wrote _ => .info
  | .token _ => .trace
  | _ => .debug

def message : Event → String
  | .compiling _ => "compiling"
  | .token _ => "token"
  | .parsed _ => "parsed program"
  | .declaredLocal _ _ => "declared local"
  | .declaredFunction _ _ => "declared function"
  | .generatedFunction _ _ => "generated function"
  | .mainFrame _ => "main frame"
  | .wrote _ => "wrote assembly"

/-- What an event carries, by name. -/
def fields : Event → List (String × String)
  | .compiling input => [("input", input)]
  | .token t => [("line", toString t.line), ("kind", t.category.name)]
  | .parsed statements => [("statements", toString statements)]
  | .declaredLocal name offset => [("name", name), ("offset", offset.text)]
  | .declaredFunction name params => [("name", name), ("params", toString params)]
  | .generatedFunction name frameSize => [("name", name), ("frame_size", frameSize.text)]
  | .mainFrame frameSize => [("frame_size", frameSize.text)]
  | .wrote output => [("output", output)]

/-- An event as one line, without the time. -/
def text (e : Event) : String :=
  e.level.name ++ " " ++ e.message ++
    String.join (e.fields.map fun f => " " ++ f.1 ++ "=" ++ f.2) ++ "\n"

/-- Whether an event is shown where more was asked for `count` times. -/
def shown (count : Nat) (e : Event) : Bool := e.level.rank ≤ (Severity.ofCount count).rank

/-- No event is a warning. -/
theorem shown_zero (e : Event) : e.shown 0 = false := by
  cases e <;> rfl

end Event
end Onepass
