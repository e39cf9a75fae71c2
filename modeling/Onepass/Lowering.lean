import Onepass.Assembly.Listing
import Onepass.Emission
import Onepass.Tree

/-!
# Onepass.Lowering

Trees to code, types checked on the way. The code of an expression leaves its result in EAX. A
binary operator has its right operand first, which waits on the stack, so that when the
operation comes the left operand is in EAX and the right one in EBX.

* `evaluate` -- the code of a node, and a value that stands for its result.
* `generate` -- the listing of a whole program.
-/

namespace Onepass

open Assembly

namespace Arith

/-- Leaves the result of EAX and EBX in EAX. -/
def code : Arith → List Instr
  | .add => [.add (.reg .eax) (.reg .ebx)]
  | .sub => [.sub (.reg .eax) (.reg .ebx)]
  | .mul => [.imul (.reg .ebx)]
  | .div => [.cdq, .idiv (.reg .ebx)]
  | .and => [.and (.reg .eax) (.reg .ebx)]
  | .or => [.or (.reg .eax) (.reg .ebx)]

end Arith

namespace Relation

/-- The routine that answers from the flags of a comparison. -/
def routine : Relation → Symbol
  | .greater => .fixed .ifGreater
  | .less => .fixed .ifLess
  | .equal => .fixed .ifEqual

end Relation

namespace BinaryOp

/-- Leaves the result of EAX and EBX in EAX. Strings are not joined when the program runs: EAX
keeps the left one. -/
def code : BinaryOp → List Line
  | .arith op => op.code.map .instr
  | .relation op =>
    [.instr (.cmp (.reg .eax) (.reg .ebx)), .instr (.call op.routine)]
  | .concat => [.comment ".. (concatenation is resolved at compile time only)"]

/-- The value of an operator, or the types that it does not take. Relations hold between two
numbers or between two strings, never across. -/
def fold : BinaryOp → Value → Value → Except Error Value
  | .arith op, .int a, .int b => .ok (.int (op.eval a b))
  | .arith op, l, r => .error (.arithmetic op l.ty r.ty)
  | .relation op, .int a, .int b =>
    .ok (.int (Word.ofBool (op.holds (compare a.toInt b.toInt))))
  | .relation op, .str a, .str b => .ok (.int (Word.ofBool (op.holds (compare a b))))
  | .relation op, l, r => .error (.mismatch op l.ty r.ty)
  | .concat, l, r =>
    if l.ty = .void ∨ r.ty = .void then .error (.concat l.ty r.ty)
    else .ok (.str (l.display ++ r.display))

end BinaryOp

namespace UnaryOp

/-- Leaves the result of EAX in EAX. -/
def code : UnaryOp → List Instr
  | .plus => []
  | .neg => [.neg (.reg .eax)]
  | .not => [.cmp (.reg .eax) (.sym (.fixed .false)), .call (.fixed .ifEqual)]

def fold (op : UnaryOp) : Value → Except Error Value
  | .int a => .ok (.int (op.eval a))
  | v => .error (.operand op v.ty)

end UnaryOp

namespace Lowering

/-- The bytes lie in the code, behind a jump over them; EAX gets their address. -/
def stringCode (id : Nat) (s : String) : List Line :=
  [.instr (.jmp (.textEnd id)),
   .data (.text id) ((s.toUTF8.data.toList.map fun b => .byte b.toNat) ++ [.byte 0]),
   .label (.textEnd id),
   .instr (.mov (.reg .eax) (.sym (.text id)))]

/-- Reads a number into EAX. -/
def readCode : List Instr :=
  [.push (.sym (.fixed .scanint)),
   .push (.sym (.fixed .formatin)),
   .call (.fixed .scanf),
   .add (.reg .esp) (.imm 8),
   .mov (.reg .eax) (.cell (.fixed .scanint))]

/-- Prints the number in EAX. -/
def printCode : List Instr :=
  [.push (.reg .eax),
   .push (.sym (.fixed .formatout)),
   .call (.fixed .printf),
   .add (.reg .esp) (.imm 8)]

/-- Jumps to `target` if EAX is 0. -/
def jumpIfFalse (target : Symbol) : List Instr :=
  [.cmp (.reg .eax) (.sym (.fixed .false)), .je target]

/-- Leaves the frame and the routine with the result in EAX. -/
def leave : List Instr := [.mov (.reg .esp) (.reg .ebp), .pop .ebp, .ret]

/-- The front of a routine, which is not run where it stands. -/
def enter (id : Nat) (function : String) : List Line :=
  [.instr (.jmp (.routineEnd id)),
   .label (.routine function),
   .instr (.push (.reg .ebp)),
   .instr (.mov (.reg .ebp) (.reg .esp)),
   .instr (.sub (.reg .esp) (.sym (.frameSize id)))]

/-- The end of a routine, which gives 0 if the body does not return. -/
def finish (id : Nat) (frameSize : Word) : List Line :=
  .instr (.mov (.reg .eax) (.imm 0)) :: leave.map .instr ++
    [.equ (.frameSize id) frameSize.toInt, .label (.routineEnd id)]

/-- Calls a function with `args` arguments on the stack and takes them off again. -/
def callCode (function : String) (args : Nat) : List Instr :=
  .call (.routine function) ::
    if args = 0 then [] else [.add (.reg .esp) (.imm (4 * args))]

def declareParams : List String → Emitter Unit
  | [] => pure ()
  | x :: xs => do
    let _ ← Emitter.changeScope (·.declareParam x)
    declareParams xs

/-- Notes the type of a function's result, if its body has one. -/
def noteResult (function : String) (ty : Ty) : Emitter Unit :=
  if ty = .void then pure () else Emitter.returning function ty

end Lowering

open Lowering Emitter

mutual

def evaluate : Node Nat → Emitter Value
  | .var _ x => do
    let slot ← find x
    instrs [.mov (.reg .eax) (.slot slot.offset)]
    return .unknown slot.ty
  | .int _ n => do
    instrs [.mov (.reg .eax) (.imm n.toInt)]
    return .int n
  | .str id s => do
    emit (stringCode id s)
    return .str s
  | .binary _ op left right => do
    let r ← evaluate right
    instrs [.push (.reg .eax)]
    let l ← evaluate left
    instrs [.pop .ebx]
    let v ← ofExcept (op.fold l r)
    emit op.code
    return v
  | .unary _ op operand => do
    let v ← ofExcept (op.fold (← evaluate operand))
    instrs op.code
    return v
  | .read _ => do
    instrs readCode
    return .unknown .int
  | .call _ f args => do
    let routine ← findRoutine f
    ofExcept (routine.checkArity f args.length)
    pushArgs args
    instrs (callCode f args.length)
    return .unknown routine.returns
  | .assign _ x value => do
    let v ← evaluate value
    let slot ← changeScope (·.retag x v.ty)
    instrs [.mov (.slot slot.offset) (.reg .eax)]
    return .void
  | .declare _ x => do
    let slot ← changeScope (·.declareLocal x .int)
    instrs [.mov (.slot slot.offset) (.imm 0)]
    return .void
  | .define _ x value => do
    let slot ← changeScope (·.declareLocal x .int)
    instrs [.mov (.slot slot.offset) (.imm 0)]
    let v ← evaluate value
    let _ ← changeScope (·.retag x v.ty)
    instrs [.mov (.slot slot.offset) (.reg .eax)]
    return .void
  | .print _ value => do
    let _ ← evaluate value
    instrs printCode
    return .void
  | .ret _ value => do
    let v ← evaluate value
    instrs leave
    return v
  | .branch id cond yes no => do
    let _ ← evaluate cond
    instrs (jumpIfFalse (.branchElse id))
    let _ ← evaluateBlock yes
    emit [.instr (.jmp (.branchEnd id)), .label (.branchElse id)]
    let _ ← evaluateBlock no
    emit [.label (.branchEnd id)]
    return .void
  | .loop id cond body => do
    emit [.label (.loopStart id)]
    let _ ← evaluate cond
    instrs (jumpIfFalse (.loopExit id))
    let _ ← evaluateBlock body
    emit [.instr (.jmp (.loopStart id)), .label (.loopExit id)]
    return .void
  | .function id f params body => do
    declareRoutine f params
    emit (enter id f)
    inFrame do
      declareParams params
      let result ← evaluateBlock body
      noteResult f result.ty
      emit (finish id (← frameSize))
    return .void
  | .block _ body => evaluateBlock body
  | .skip _ => return .void

/-- A block is left by the first `return` among its own statements, whose value is the block's;
what stands behind it is not looked at. -/
def evaluateBlock : List (Node Nat) → Emitter Value
  | [] => return .void
  | s :: rest => do
    let v ← evaluate s
    if s.isReturn then return v else evaluateBlock rest

/-- Arguments are pushed from the last to the first. -/
def pushArgs : List (Node Nat) → Emitter Unit
  | [] => return ()
  | a :: rest => do
    pushArgs rest
    let _ ← evaluate a
    instrs [.push (.reg .eax)]

end

/-- The code of a program, within the frame of the top level. -/
def program (root : Node Nat) : Emitter Unit := do
  instrs [.sub (.reg .esp) (.sym .mainFrameSize)]
  let _ ← evaluate root
  emit [.equ .mainFrameSize (← frameSize).toInt]

/-- The listing of a program in which the functions of `routines` are known. -/
def generateWith (routines : Routines) (root : Node Nat) : Except Error Listing :=
  let e := program root ⟨.empty, routines⟩
  e.result.map fun _ => ⟨e.code⟩

def generate (root : Node Nat) : Except Error Listing := generateWith .empty root

end Onepass
