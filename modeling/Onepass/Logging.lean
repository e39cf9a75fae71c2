import Onepass.Compiler
import Onepass.Event

/-!
# Onepass.Logging

What is logged while a program is compiled: the tokens that are fetched, the program when it has
been read, and then, in the order of the code, what is declared and what is finished. What was
logged before an error stays logged.
-/

namespace Onepass

namespace Reader

/-- The tokens fetched: those that can stand where they do, and the first that cannot. -/
def State.fetched (s : State) : List Token → List Token
  | [] => []
  | t :: ts =>
    match s.step t with
    | .ok s' => t :: s'.fetched ts
    | .error _ => [t]

end Reader

namespace Emission

variable {α : Type} {e : Emission α} {log : α → Tables → List Event}

/-- What is logged behind an emission; nothing where that fails. -/
def behind (e : Emission α) (log : α → Tables → List Event) : List Event :=
  match e.result with
  | .ok a => log a e.tables
  | .error _ => []

theorem behind_of_ok {a : α} (h : e.result = .ok a) : e.behind log = log a e.tables := by
  simp only [behind, h]

theorem behind_of_error {error : Error} (h : e.result = .error error) : e.behind log = [] := by
  simp only [behind, h]

end Emission

namespace Node

open Emitter Lowering

mutual

/-- What is logged while the code of a node is emitted. -/
def log : Node Nat → Tables → List Event
  | .var _ _, _ | .int _ _, _ | .str _ _, _ | .read _, _ | .skip _, _ => []
  | .binary _ _ left right, t =>
    right.log t ++ (evaluate right t).behind fun _ => left.log
  | .unary _ _ operand, t => operand.log t
  | .call _ f args, t =>
    (findRoutine f t).behind fun routine t =>
      (ofExcept (routine.checkArity f args.length) t).behind fun _ => logArgs args
  | .assign _ _ value, t => value.log t
  | .declare _ x, t =>
    (changeScope (·.declareLocal x .int) t).behind fun slot _ => [.declaredLocal x slot.offset]
  | .define _ x value, t =>
    (changeScope (·.declareLocal x .int) t).behind fun slot t =>
      .declaredLocal x slot.offset :: value.log t
  | .print _ value, t => value.log t
  | .ret _ value, t => value.log t
  | .branch _ cond yes no, t =>
    cond.log t ++ (evaluate cond t).behind fun _ t =>
      logBlock yes t ++ (evaluateBlock yes t).behind fun _ => logBlock no
  | .loop _ cond body, t => cond.log t ++ (evaluate cond t).behind fun _ => logBlock body
  | .function _ f params body, t =>
    (declareRoutine f params t).behind fun _ t =>
      .declaredFunction f params.length ::
        (declareParams params { t with scope := .empty }).behind fun _ t =>
          logBlock body t ++ (evaluateBlock body t).behind fun _ t =>
            [.generatedFunction f t.scope.frameSize]
  | .block _ body, t => logBlock body t

def logBlock : List (Node Nat) → Tables → List Event
  | [], _ => []
  | s :: rest, t =>
    s.log t ++ if s.isReturn then [] else (evaluate s t).behind fun _ => logBlock rest

def logArgs : List (Node Nat) → Tables → List Event
  | [], _ => []
  | a :: rest, t => logArgs rest t ++ (pushArgs rest t).behind fun _ => a.log

end

/-- What is logged while the code of a program is emitted. -/
def logProgram (root : Node Nat) (t : Tables) : List Event :=
  root.log t ++ (evaluate root t).behind fun _ t => [.mainFrame t.scope.frameSize]

/-- The statements that a block consists of. -/
def body : Node Nat → List (Node Nat)
  | .block _ body => body
  | _ => []

end Node

/-- What is logged while a source is compiled. -/
def Compiler.log (c : Compiler) (source : String) : List Event :=
  (Reader.State.start.fetched (Source.feed source).tokens).map .token ++
    match (Source.parse source c.nextId).1 with
    | .error _ => []
    | .ok root => .parsed root.body.length :: root.logProgram ⟨.empty, .empty⟩

end Onepass
