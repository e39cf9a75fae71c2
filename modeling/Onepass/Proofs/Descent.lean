import Onepass.Source

/-!
# Onepass.Proofs.Descent

Reading by recursive descent, with one token in hand and the next one fetched when that is taken.
Nothing here says that reading comes to an end: the functions are least fixed points in a monad in
which a computation may have no result. That they always have one, and how many tokens they fetch
on the way, is the subject of `Onepass.Proofs.Consumption`. What they read is what the machine of
`Onepass.Reader.Step` reads, by `Onepass.Proofs.Ending`.

A loop is a function of its own, and so is its body: one that gives `none` where the loop ends. The
operators come from a `Grammar`, of which reading has to know that the end of a text is none.

* `Grammar.operation`    -- operations of a level and tighter, a loop over those of the level.
* `Grammar.statement`, `Grammar.block` -- statements up to a word that ends their block.
* `Grammar.program`      -- statements up to the end of the text.
* `Grammar.parse`        -- a text, from the first token on.
-/

namespace Onepass
namespace Descent

open Reader

/-- What a part of reading works on. -/
structure Desk where
  cursor : Cursor
  current : Token
  /-- What the calls for tokens gave, the last one first. -/
  calls : List (Except Error Token)
  /-- The first number that no node has. -/
  next : Nat

/-- A part of reading. One that does not come to an end is `none` on a desk. -/
abbrev Part := ExceptT Error (StateT Desk Option)

/-- The lexeme in hand. -/
def current : Part Lexeme := fun d => some (.ok d.current.lexeme, d)

section

variable {α β : Type} {x : Part α} {f : α → Part β} {d d' : Desk}

theorem bind_of_ok {a : α} (h : x d = some (.ok a, d')) : (x >>= f) d = f a d' := by
  change Option.bind (x d) _ = _
  rw [h]
  rfl

theorem bind_of_error {e : Error} (h : x d = some (.error e, d')) :
    (x >>= f) d = some (.error e, d') := by
  change Option.bind (x d) _ = _
  rw [h]
  rfl

theorem bind_of_none (h : x d = none) : (x >>= f) d = none := by
  change Option.bind (x d) _ = _
  rw [h]
  rfl

theorem bind_congr_at {y : Part α} (h : x d = y d) (f : α → Part β) :
    (x >>= f) d = (y >>= f) d := by
  change Option.bind (x d) _ = Option.bind (y d) _
  rw [h]

theorem bind_current (f : Lexeme → Part β) (d : Desk) :
    (current >>= f) d = f d.current.lexeme d := bind_of_ok rfl

end

/-- A call for a token, which becomes the one in hand. -/
def advance : Part Unit := fun d =>
  match d.cursor.next with
  | (.ok t, c) => some (.ok (), { d with cursor := c, current := t, calls := .ok t :: d.calls })
  | (.error e, c) => some (.error e, { d with cursor := c, calls := .error e :: d.calls })

/-- A node with the first number that is left. -/
def draw (node : Nat → Node Nat) : Part (Node Nat) := fun d =>
  some (.ok (node d.next), { d with next := d.next + 1 })

def unexpected {α : Type} (expected : List Category) : Part α := fun d =>
  some (.error (.unexpected d.current.line expected d.current.category), d)

/-- Takes the mark if it is in hand. -/
def takes (m : Mark) : Part Bool := do
  if (← current) = .mark m then
    advance
    return true
  else
    return false

def expect (m : Mark) : Part Unit := do
  if (← takes m) then
    return ()
  else
    unexpected [.mark m]

def name : Part String := do
  match ← current with
  | .ident x =>
    advance
    return x
  | _ => unexpected [.ident]

/-- A statement ends with its line, or where the text ends; the end of the text stays in hand. -/
def endStatement : Part Unit := do
  if (← takes .newline) then
    return ()
  else if (← current) = .mark .eof then
    return ()
  else
    unexpected [.mark .newline, .mark .eof]

/-- What the part gives, time and again, until it gives nothing. -/
def Part.many {α : Type} (x : Part (Option α)) : Part (List α) := do
  match ← x with
  | some a =>
    let as ← x |>.many
    return a :: as
  | none => return []
partial_fixpoint

def nextParam? : Part (Option String) := do
  if (← takes .comma) then
    let x ← name
    return some x
  else
    return none

def params : Part (List String) := do
  expect .openParen
  if (← takes .closeParen) then
    return []
  else
    let x ← name
    let xs ← nextParam?.many
    expect .closeParen
    return x :: xs

/-- What reading a text comes to. -/
structure Report where
  outcome : Except Error (Node Nat)
  /-- What the calls for tokens gave, the last one first. -/
  calls : List (Except Error Token)
  /-- The first number left. -/
  next : Nat

/-- The grammar, up to its operators. -/
structure Grammar where
  unary? : Category → Option UnaryOp
  binary? : Category → Option BinaryOp
  /-- Binary operators bind with a strength of 1 to this. -/
  tightest : Nat
  /-- The end of the text is taken by no part. -/
  unary?_eof : unary? (.mark .eof) = none
  binary?_eof : binary? (.mark .eof) = none

/-- The grammar with the operators of the language. -/
def grammar : Grammar := ⟨unaryOp?, binaryOp?, 5, rfl, rfl⟩

namespace Grammar

mutual

def operand (g : Grammar) : Part (Node Nat) := do
  match ← current with
  | .ident x =>
    advance
    if (← current) = .mark .openParen then
      let args ← g |>.arguments
      draw (.call · x args)
    else
      draw (.var · x)
  | .int n =>
    advance
    draw (.int · n)
  | .string s =>
    advance
    draw (.str · s)
  | .mark .openParen =>
    advance
    let e ← g |>.operation 1
    expect .closeParen
    return e
  | .mark .kRead =>
    advance
    expect .openParen
    expect .closeParen
    draw .read
  | .mark m =>
    -- the marks left are unary operators and what begins no operand
    match g.unary? (.mark m) with
    | some op =>
      advance
      let e ← g |>.operand
      draw (.unary · op e)
    | none => unexpected Mode.operandStart
partial_fixpoint

/-- Operations of the level and of tighter ones. -/
def operation (g : Grammar) (level : Nat) : Part (Node Nat) :=
  if g.tightest < level then g |>.operand
  else do
    let left ← g |>.operation (level + 1)
    g |>.operations level left
partial_fixpoint

/-- The loop over the operators of the level, which group to the left. -/
def operations (g : Grammar) (level : Nat) (left : Node Nat) : Part (Node Nat) := do
  match ← g |>.nextOperation? level left with
  | some t => g |>.operations level t
  | none => return left
partial_fixpoint

def nextOperation? (g : Grammar) (level : Nat) (left : Node Nat) : Part (Option (Node Nat)) := do
  match g.binary? (← current).category with
  | some op =>
    if op.level = level then
      advance
      let right ← g |>.operation (level + 1)
      let t ← draw (.binary · op left right)
      return some t
    else
      return none
  | none => return none
partial_fixpoint

def arguments (g : Grammar) : Part (List (Node Nat)) := do
  expect .openParen
  if (← takes .closeParen) then
    return []
  else
    let e ← g |>.operation 1
    let es ← g |>.moreArguments
    expect .closeParen
    return e :: es
partial_fixpoint

def moreArguments (g : Grammar) : Part (List (Node Nat)) := do
  match ← g |>.nextArgument? with
  | some e =>
    let es ← g |>.moreArguments
    return e :: es
  | none => return []
partial_fixpoint

def nextArgument? (g : Grammar) : Part (Option (Node Nat)) := do
  if (← takes .comma) then
    let e ← g |>.operation 1
    return some e
  else
    return none
partial_fixpoint

end

/-- A statement behind the name it begins with. -/
def nameSentence (g : Grammar) (x : String) : Part (Node Nat) := do
  if (← takes .assign) then
    let e ← g.operation 1
    draw (.assign · x e)
  else if (← current) = .mark .openParen then
    let args ← g.arguments
    draw (.call · x args)
  else
    unexpected [.mark .assign, .mark .openParen]

/-- A declaration behind `local`. -/
def localSentence (g : Grammar) : Part (Node Nat) := do
  let x ← name
  if (← takes .assign) then
    let e ← g.operation 1
    draw (.define · x e)
  else
    draw (.declare · x)

def returnSentence (g : Grammar) : Part (Node Nat) := do
  let e ← g.operation 1
  draw (.ret · e)

def printSentence (g : Grammar) : Part (Node Nat) := do
  expect .openParen
  let e ← g.operation 1
  expect .closeParen
  draw (.print · e)

mutual

def functionSentence (g : Grammar) : Part (Node Nat) := do
  let f ← name
  let ps ← params
  expect .newline
  let body ← g |>.block true [.kEnd]
  expect .kEnd
  draw (.function · f ps body)
partial_fixpoint

def loopSentence (g : Grammar) (inFunction : Bool) : Part (Node Nat) := do
  let c ← g.operation 1
  expect .kDo
  expect .newline
  let body ← g |>.block inFunction [.kEnd]
  expect .kEnd
  draw (.loop · c body)
partial_fixpoint

def branchSentence (g : Grammar) (inFunction : Bool) : Part (Node Nat) := do
  let c ← g.operation 1
  expect .kThen
  expect .newline
  let yes ← g |>.block inFunction [.kEnd, .kElse]
  let no ← g |>.elseBlock inFunction
  expect .kEnd
  draw (.branch · c yes no)
partial_fixpoint

/-- A statement without its end. -/
def sentence (g : Grammar) (inFunction : Bool) : Part (Node Nat) := do
  match ← current with
  | .ident x =>
    advance
    g.nameSentence x
  | .mark .kLocal =>
    advance
    g.localSentence
  | .mark .kFunction =>
    advance
    g |>.functionSentence
  | .mark .kReturn =>
    if inFunction then
      advance
      g.returnSentence
    else
      unexpected Mode.topLevelStart
  | .mark .kPrint =>
    advance
    g.printSentence
  | .mark .kWhile =>
    advance
    g |>.loopSentence inFunction
  | .mark .kIf =>
    advance
    g |>.branchSentence inFunction
  -- an empty statement: its line end is not taken yet
  | .mark .newline => draw .skip
  | _ => unexpected Mode.statementStart
partial_fixpoint

def elseBlock (g : Grammar) (inFunction : Bool) : Part (List (Node Nat)) := do
  if (← takes .kElse) then
    expect .newline
    g |>.block inFunction [.kEnd]
  else
    return []
partial_fixpoint

def statement (g : Grammar) (inFunction : Bool) : Part (Node Nat) := do
  let t ← g |>.sentence inFunction
  endStatement
  return t
partial_fixpoint

/-- The loop over the statements up to one of `stops`. -/
def block (g : Grammar) (inFunction : Bool) (stops : List Mark) : Part (List (Node Nat)) := do
  match ← g |>.nextInBlock? inFunction stops with
  | some t =>
    let ts ← g |>.block inFunction stops
    return t :: ts
  | none => return []
partial_fixpoint

def nextInBlock? (g : Grammar) (inFunction : Bool) (stops : List Mark) :
    Part (Option (Node Nat)) := do
  let l ← current
  if l ∈ stops.map Lexeme.mark then
    return none
  else if l = .mark .eof then
    unexpected (stops.map Category.mark)
  else
    let t ← g |>.statement inFunction
    return some t
partial_fixpoint

end

def nextInProgram? (g : Grammar) : Part (Option (Node Nat)) := do
  if (← current) = .mark .eof then
    return none
  else
    let t ← g.statement false
    return some t

def program (g : Grammar) : Part (Node Nat) := do
  let ts ← g.nextInProgram?.many
  draw (.block · ts)

/-- Comments are removed and the first token is fetched, then the program is read. -/
def parse (g : Grammar) (source : String) (first : Nat) : Option Report :=
  match (Cursor.ofString (Comment.strip source)).next with
  | (.error e, _) => some ⟨.error e, [.error e], first⟩
  | (.ok t, c) =>
    (g.program ⟨c, t, [.ok t], first⟩).map fun (outcome, d) => ⟨outcome, d.calls, d.next⟩

end Grammar
end Descent
end Onepass
