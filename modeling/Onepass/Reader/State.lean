import Onepass.Error
import Onepass.Tree

/-!
# Onepass.Reader.State

What a reader of programs knows between two tokens. It holds the statements finished so far,
the blocks that are open around them, and how far the statement at hand has come. Within an
expression that is a stack of things that wait for an operand.

A node counts as built once the token behind its last token is known, so a state says of the
tree it has just closed whether that token is still to come. `State.size` is the number of
nodes built.
-/

namespace Onepass
namespace Reader

/-- What the expression at hand is for. -/
inductive Purpose where
  | assign (name : String)
  | define (name : String)
  | ret
  | print
  | loop
  | branch
  /-- A call that is a statement: nothing may follow the closing parenthesis. -/
  | call

/-- What waits for an operand. Arguments are kept newest first. -/
inductive Pending where
  | unary (op : UnaryOp)
  | binary (op : BinaryOp) (left : Tree)
  | group
  | argument (function : String) (done : List Tree)

/-- The surroundings of an operand, innermost first. -/
structure Context where
  purpose : Purpose
  stack : List Pending

/-- What a block belongs to. -/
inductive Construct where
  | function (name : String) (params : List String)
  | loop (cond : Tree)
  /-- The block behind `then`. -/
  | thenPart (cond : Tree)
  /-- The block behind `else`. -/
  | elsePart (cond : Tree) (yes : List Tree)

/-- How far the statement at hand has come. Parameters are kept newest first. -/
inductive Mode where
  /-- A statement may begin. -/
  | fresh
  /-- The statement begins with a name. -/
  | name (x : String)
  | localWord
  | localName (x : String)
  | functionWord
  | functionName (f : String)
  /-- Behind the parenthesis that opens the parameters. -/
  | paramsOpen (f : String)
  /-- Behind a comma between parameters. -/
  | paramNext (f : String) (params : List String)
  /-- Behind a parameter. -/
  | param (f : String) (params : List String)
  | printWord
  /-- An operand has to begin. -/
  | operand (ctx : Context)
  /-- The operand is a variable or a call. -/
  | operandName (ctx : Context) (x : String)
  /-- Behind the parenthesis that opens the arguments. -/
  | argsOpen (ctx : Context) (f : String)
  | readWord (ctx : Context)
  | readOpen (ctx : Context)
  /-- Behind an operand; `built` if its root is a built node. -/
  | behind (ctx : Context) (t : Tree) (built : Bool)
  /-- A line end has to open the block. -/
  | lineBreak (k : Construct)
  /-- Behind a statement; `built` if its root is a built node. -/
  | done (t : Tree) (built : Bool)
  /-- Behind the end of the text. -/
  | accepted

structure State where
  /-- The statements of the innermost open block, newest first. -/
  before : List Tree
  /-- The constructs around it, innermost first, each with the statements before it. -/
  around : List (Construct × List Tree)
  mode : Mode

/-- The front of a program. -/
def State.start : State := ⟨[], [], .fresh⟩

namespace Pending

def size : Pending → Nat
  | .unary _ | .group => 0
  | .binary _ left => left.size
  | .argument _ done => Node.sizes done

def sizes : List Pending → Nat
  | [] => 0
  | p :: ps => p.size + sizes ps

end Pending

namespace Context

def push (ctx : Context) (p : Pending) : Context := { ctx with stack := p :: ctx.stack }

def size (ctx : Context) : Nat := Pending.sizes ctx.stack

end Context

namespace Construct

def isFunction : Construct → Bool
  | .function _ _ => true
  | _ => false

def size : Construct → Nat
  | .function _ _ => 0
  | .loop cond | .thenPart cond => cond.size
  | .elsePart cond yes => cond.size + Node.sizes yes

/-- The statement made of the construct and the block behind it. -/
def close (body : List Tree) : Construct → Tree
  | .function f params => .function () f params body
  | .loop cond => .loop () cond body
  | .thenPart cond => .branch () cond body []
  | .elsePart cond yes => .branch () cond yes body

/-- The nodes in constructs and in the statements before them. -/
def sizes : List (Construct × List Tree) → Nat
  | [] => 0
  | (k, before) :: around => k.size + Node.sizes before + sizes around

/-- The reserved words that can end the block. -/
def terminators : Construct → List Mark
  | .thenPart _ => [.kEnd, .kElse]
  | _ => [.kEnd]

end Construct

/-- The nodes of a tree that are built, all but perhaps its root. -/
def builtSize (t : Tree) (built : Bool) : Nat := if built then t.size else t.size - 1

namespace Mode

def size : Mode → Nat
  | .operand ctx | .operandName ctx _ | .argsOpen ctx _ | .readWord ctx | .readOpen ctx => ctx.size
  | .behind ctx t built => ctx.size + builtSize t built
  | .lineBreak k => k.size
  | .done t built => builtSize t built
  | _ => 0

end Mode

namespace State

/-- The number of nodes built. -/
def size (s : State) : Nat :=
  Node.sizes s.before + Construct.sizes s.around + s.mode.size

/-- A `return` belongs to the innermost function around it. -/
def inFunction (s : State) : Bool := s.around.any fun (k, _) => k.isFunction

/-- The program read, for an accepting state. -/
def program (s : State) : Tree := .block () s.before.reverse

end State
end Reader
end Onepass
