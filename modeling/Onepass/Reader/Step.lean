import Onepass.Cursor
import Onepass.Reader.State

/-!
# Onepass.Reader.Step

How a reader of programs takes a token. First the token, as the one that follows, settles what
stands before it (`State.settle`): operators that bind no looser take their operands, and a
statement that can be complete is complete. Then the token is taken (`State.shift?`), or it is
one that cannot stand here and `State.expected` lists those that could.

* `State.step`  -- one token.
* `State.run`   -- tokens up to the first that cannot stand where it does.
* `readProgram` -- the program that the tokens of a text make. A wrong token is reported before
  a later failure to find tokens.
-/

namespace Onepass
namespace Reader

def binaryOp? : Category → Option BinaryOp
  | .mark .plus => some (.arith .add)
  | .mark .minus => some (.arith .sub)
  | .mark .star => some (.arith .mul)
  | .mark .slash => some (.arith .div)
  | .mark .kAnd => some (.arith .and)
  | .mark .kOr => some (.arith .or)
  | .mark .greater => some (.relation .greater)
  | .mark .less => some (.relation .less)
  | .mark .equal => some (.relation .equal)
  | .mark .concat => some .concat
  | _ => none

def unaryOp? : Category → Option UnaryOp
  | .mark .plus => some .plus
  | .mark .minus => some .neg
  | .mark .kNot => some .not
  | _ => none

/-- The binding strength of what follows an operand, 0 if it is no operator. -/
def followLevel (next : Category) : Nat := ((binaryOp? next).map BinaryOp.level).getD 0

/-- Gives `t` to the operators on the stack that bind at least as tightly as `level`. Unary
operators bind tightest. -/
def reduce (level : Nat) : List Pending → Tree → List Pending × Tree
  | .unary op :: rest, t => reduce level rest (.unary () op t)
  | .binary op l :: rest, t =>
    if level ≤ op.level then reduce level rest (.binary () op l t) else (.binary op l :: rest, t)
  | rest, t => (rest, t)

namespace Purpose

/-- The statement that an expression completes, unless more has to follow it. -/
def complete? : Purpose → Tree → Option Tree
  | .assign x, t => some (.assign () x t)
  | .define x, t => some (.define () x t)
  | .ret, t => some (.ret () t)
  | .call, t => some t
  | _, _ => none

end Purpose

/-- What an operand becomes before a token of category `next`. -/
def settleOperand (ctx : Context) (t : Tree) (next : Category) : Mode :=
  match ctx.purpose, ctx.stack with
  | .call, [] => .done t true
  | purpose, stack =>
    let (stack, t) := reduce (followLevel next) stack t
    match stack, binaryOp? next, purpose.complete? t with
    | [], none, some statement => .done statement true
    | _, _, _ => .behind ⟨purpose, stack⟩ t true

namespace Mode

def settle (m : Mode) (next : Category) : Mode :=
  match m with
  | .behind ctx t _ => settleOperand ctx t next
  | .operandName ctx x =>
    if next = .mark .openParen then m else settleOperand ctx (.var () x) next
  | .localName x => if next = .mark .assign then m else .done (.declare () x) true
  | .done t _ => .done t true
  | m => m

/-- The mode behind a token with which an operand begins. -/
def beginOperand? (ctx : Context) : Lexeme → Option Mode
  | .ident x => some (.operandName ctx x)
  | .int n => some (.behind ctx (.int () n) false)
  | .string s => some (.behind ctx (.str () s) false)
  | .mark .openParen => some (.operand (ctx.push .group))
  | .mark .kRead => some (.readWord ctx)
  | .mark m => (unaryOp? (.mark m)).map fun op => .operand (ctx.push (.unary op))

/-- The mode behind a token that follows the operand `t`. -/
def continueOperand? (ctx : Context) (t : Tree) (l : Lexeme) : Option Mode :=
  match binaryOp? l.category with
  | some op => some (.operand (ctx.push (.binary op t)))
  | none =>
    match ctx.stack, ctx.purpose, l with
    | .group :: rest, purpose, .mark .closeParen => some (.behind ⟨purpose, rest⟩ t true)
    | .argument f args :: rest, purpose, .mark .comma =>
      some (.operand ⟨purpose, .argument f (t :: args) :: rest⟩)
    | .argument f args :: rest, purpose, .mark .closeParen =>
      some (.behind ⟨purpose, rest⟩ (.call () f (t :: args).reverse) false)
    | [], .print, .mark .closeParen => some (.done (.print () t) false)
    | [], .loop, .mark .kDo => some (.lineBreak (.loop t))
    | [], .branch, .mark .kThen => some (.lineBreak (.thenPart t))
    | _, _, _ => none

/-- The mode behind a token that neither ends a statement nor opens or closes a block. -/
def shift? : Mode → Lexeme → Option Mode
  | .name x, .mark .assign => some (.operand ⟨.assign x, []⟩)
  | .name f, .mark .openParen => some (.argsOpen ⟨.call, []⟩ f)
  | .localWord, .ident x => some (.localName x)
  | .localName x, .mark .assign => some (.operand ⟨.define x, []⟩)
  | .functionWord, .ident f => some (.functionName f)
  | .functionName f, .mark .openParen => some (.paramsOpen f)
  | .paramsOpen f, .mark .closeParen => some (.lineBreak (.function f []))
  | .paramsOpen f, .ident x => some (.param f [x])
  | .param f params, .mark .comma => some (.paramNext f params)
  | .param f params, .mark .closeParen => some (.lineBreak (.function f params.reverse))
  | .paramNext f params, .ident x => some (.param f (x :: params))
  | .printWord, .mark .openParen => some (.operand ⟨.print, []⟩)
  | .operand ctx, l => beginOperand? ctx l
  | .operandName ctx f, .mark .openParen => some (.argsOpen ctx f)
  | .argsOpen ctx f, .mark .closeParen => some (.behind ctx (.call () f []) false)
  | .argsOpen ctx f, l => beginOperand? (ctx.push (.argument f [])) l
  | .readWord ctx, .mark .openParen => some (.readOpen ctx)
  | .readOpen ctx, .mark .closeParen => some (.behind ctx (.read ()) false)
  | .behind ctx t _, l => continueOperand? ctx t l
  | _, _ => none

def statementStart : List Category :=
  [.ident, .mark .kLocal, .mark .kFunction, .mark .kReturn, .mark .kPrint, .mark .kWhile,
   .mark .kIf, .mark .newline]

/-- Outside every function `return` begins no statement. -/
def topLevelStart : List Category :=
  [.ident, .mark .kLocal, .mark .kFunction, .mark .kPrint, .mark .kWhile, .mark .kIf,
   .mark .newline]

def operandStart : List Category :=
  [.ident, .int, .string, .mark .plus, .mark .minus, .mark .kNot, .mark .openParen, .mark .kRead]

/-- What is said to be able to follow, end of blocks and of the text apart. -/
def expected : Mode → List Category
  | .fresh => statementStart
  | .name _ => [.mark .assign, .mark .openParen]
  | .localWord | .functionWord | .paramsOpen _ | .paramNext _ _ => [.ident]
  | .localName _ => [.mark .assign]
  | .functionName _ | .printWord | .readWord _ | .operandName _ _ => [.mark .openParen]
  | .param _ _ | .readOpen _ => [.mark .closeParen]
  | .operand _ | .argsOpen _ _ => operandStart
  | .behind ⟨.loop, []⟩ _ _ => [.mark .kDo]
  | .behind ⟨.branch, []⟩ _ _ => [.mark .kThen]
  | .behind _ _ _ => [.mark .closeParen]
  | .lineBreak _ => [.mark .newline]
  | .done _ _ => [.mark .newline, .mark .eof]
  | .accepted => []

end Mode

namespace State

def settle (s : State) (next : Category) : State := { s with mode := s.mode.settle next }

def withMode (s : State) (m : Mode) : State := { s with mode := m }

/-- The finished statement `t` joins its block. -/
def append (s : State) (t : Tree) (m : Mode) : State := ⟨t :: s.before, s.around, m⟩

/-- The state behind the first token of a statement, or behind a word that ends a block. -/
def begin? (s : State) : Lexeme → Option State
  | .ident x => some (s.withMode (.name x))
  | .mark .newline => some (s.append (.skip ()) .fresh)
  | .mark .kLocal => some (s.withMode .localWord)
  | .mark .kFunction => some (s.withMode .functionWord)
  | .mark .kPrint => some (s.withMode .printWord)
  | .mark .kWhile => some (s.withMode (.operand ⟨.loop, []⟩))
  | .mark .kIf => some (s.withMode (.operand ⟨.branch, []⟩))
  | .mark .kReturn => if s.inFunction then some (s.withMode (.operand ⟨.ret, []⟩)) else none
  | .mark .kElse =>
    match s.around with
    | (.thenPart cond, before) :: around =>
      some ⟨before, around, .lineBreak (.elsePart cond s.before.reverse)⟩
    | _ => none
  | .mark .kEnd =>
    match s.around with
    | (k, before) :: around => some ⟨before, around, .done (k.close s.before.reverse) false⟩
    | [] => none
  | .mark .eof => if s.around.isEmpty then some (s.withMode .accepted) else none
  | _ => none

/-- The state behind a token, for a state that the token has settled; `none` where the token
cannot stand. -/
def shift? (s : State) (l : Lexeme) : Option State :=
  match s.mode, l with
  | .fresh, l => s.begin? l
  | .done t _, .mark .newline => some (s.append t .fresh)
  | .done t _, .mark .eof => if s.around.isEmpty then some (s.append t .accepted) else none
  | .lineBreak k, .mark .newline => some ⟨[], (k, s.before) :: s.around, .fresh⟩
  | m, l => (m.shift? l).map s.withMode

/-- The tokens named when one of category `next` cannot stand here. -/
def expected (s : State) (next : Category) : List Category :=
  match s.mode, next, s.around with
  | .fresh, .mark .eof, (k, _) :: _ => k.terminators.map .mark
  | .done _ _, .mark .eof, (k, _) :: _ => k.terminators.map .mark
  | .fresh, .mark .kReturn, _ => Mode.topLevelStart
  | m, _, _ => m.expected

end State

/-- Why reading ended early, and how many nodes were built until then. -/
structure Stop where
  error : Error
  built : Nat

namespace State

def step (s : State) (t : Token) : Except Stop State :=
  let s := s.settle t.category
  match s.shift? t.lexeme with
  | some s' => .ok s'
  | none => .error ⟨.unexpected t.line (s.expected t.category) t.category, s.size⟩

def run (s : State) : List Token → Except Stop State
  | [] => .ok s
  | t :: ts =>
    match s.step t with
    | .ok s' => s'.run ts
    | .error stop => .error stop

theorem run_append (s : State) (ts us : List Token) :
    s.run (ts ++ us) = (s.run ts).bind fun s' => s'.run us := by
  induction ts generalizing s with
  | nil => rfl
  | cons t ts ih =>
    simp only [List.cons_append, run]
    cases s.step t with
    | ok s' => exact ih s'
    | error stop => rfl

end State

def readProgram (feed : Feed) : Except Stop Tree :=
  match State.start.run feed.tokens, feed.failure with
  | .error stop, _ => .error stop
  | .ok s, some e => .error ⟨e, s.size⟩
  | .ok s, none => .ok s.program

end Reader
end Onepass
