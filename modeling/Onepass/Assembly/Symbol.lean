/-!
# Onepass.Assembly.Symbol

Names in an assembly listing. Those of the fixed part of every listing are `Fixed`; the others
carry the number of the node that they belong to, or the name that the program gave to a
function. Functions live under names of their own, so a program cannot take a name that the
listing needs.
-/

namespace Onepass
namespace Assembly

/-- Names that every listing has. -/
inductive Fixed where
  | sysExit
  | sysRead
  | sysWrite
  | stdinNumber
  | stdoutNumber
  | true
  | false
  | formatin
  | formatout
  | scanint
  | res
  | main
  | scanf
  | printf
  | fflush
  | stdout
  | ifEqual
  | ifGreater
  | ifLess
  | answerFalse
  | answerTrue
  | answered
  deriving DecidableEq, Repr

namespace Fixed

def name : Fixed → String
  | .sysExit => "SYS_EXIT"
  | .sysRead => "SYS_READ"
  | .sysWrite => "SYS_WRITE"
  | .stdinNumber => "STDIN"
  | .stdoutNumber => "STDOUT"
  | .true => "True"
  | .false => "False"
  | .formatin => "formatin"
  | .formatout => "formatout"
  | .scanint => "scanint"
  | .res => "res"
  | .main => "main"
  | .scanf => "scanf"
  | .printf => "printf"
  | .fflush => "fflush"
  | .stdout => "stdout"
  | .ifEqual => "binop_je"
  | .ifGreater => "binop_jg"
  | .ifLess => "binop_jl"
  | .answerFalse => "binop_false"
  | .answerTrue => "binop_true"
  | .answered => "binop_exit"

end Fixed

inductive Symbol where
  | fixed (f : Fixed)
  /-- The entry of a function's routine. -/
  | routine (function : String)
  /-- The place behind a routine. -/
  | routineEnd (id : Nat)
  /-- The bytes of a string. -/
  | text (id : Nat)
  | textEnd (id : Nat)
  | branchElse (id : Nat)
  | branchEnd (id : Nat)
  | loopStart (id : Nat)
  | loopExit (id : Nat)
  /-- The size of a routine's frame. -/
  | frameSize (id : Nat)
  | mainFrameSize
  deriving DecidableEq, Repr

namespace Symbol

def name : Symbol → String
  | .fixed f => f.name
  | .routine function => "func_" ++ function
  | .routineEnd id => "skip_func_" ++ toString id
  | .text id => "str_" ++ toString id
  | .textEnd id => "str_end_" ++ toString id
  | .branchElse id => "if_else_" ++ toString id
  | .branchEnd id => "if_end_" ++ toString id
  | .loopStart id => "while_loop_" ++ toString id
  | .loopExit id => "while_exit_" ++ toString id
  | .frameSize id => "frame_size_" ++ toString id
  | .mainFrameSize => "frame_size_main"

end Symbol
end Assembly
end Onepass
