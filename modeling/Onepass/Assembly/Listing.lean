import Onepass.Assembly.Line

/-!
# Onepass.Assembly.Listing

A complete listing: the code of a program between a fixed head and a fixed foot. The head has
the constants, the data for reading and printing numbers, the routines that turn the flags of a
comparison into 0 or 1, and the entry with its frame; the foot flushes the output and leaves.
-/

namespace Onepass
namespace Assembly

def constants : List Line :=
  [.comment "constants",
   .equ (.fixed .sysExit) 1,
   .equ (.fixed .sysRead) 3,
   .equ (.fixed .sysWrite) 4,
   .equ (.fixed .stdinNumber) 0,
   .equ (.fixed .stdoutNumber) 1,
   .equ (.fixed .true) 1,
   .equ (.fixed .false) 0]

def storage : List Line :=
  [.segment ".data",
   .blank,
   .data (.fixed .formatin) [.chars "%d", .byte 0],
   .remark (.data (.fixed .formatout) [.chars "%d", .byte 10, .byte 0])
     "newline, nul terminator",
   .remark (.zeros (.fixed .scanint) 4) "32-bit integer",
   .blank,
   .segment ".bss",
   .reserve (.fixed .res) 1]

def linkage : List Line :=
  [.codeSection ".text",
   .global (.fixed .main),
   .external (.fixed .scanf),
   .external (.fixed .printf),
   .external (.fixed .fflush),
   .external (.fixed .stdout)]

/-- One entry per relation; each leaves 1 in EAX if the flags say so and 0 otherwise. -/
def comparisons : List Line :=
  [.comment "comparison results: flags from a prior CMP in, 0/1 in EAX out",
   .label (.fixed .ifEqual),
   .instr (.je (.fixed .answerTrue)),
   .instr (.jmp (.fixed .answerFalse)),
   .blank,
   .label (.fixed .ifGreater),
   .instr (.jg (.fixed .answerTrue)),
   .instr (.jmp (.fixed .answerFalse)),
   .blank,
   .label (.fixed .ifLess),
   .instr (.jl (.fixed .answerTrue)),
   .instr (.jmp (.fixed .answerFalse)),
   .blank,
   .label (.fixed .answerFalse),
   .instr (.mov (.reg .eax) (.sym (.fixed .false))),
   .instr (.jmp (.fixed .answered)),
   .label (.fixed .answerTrue),
   .instr (.mov (.reg .eax) (.sym (.fixed .true))),
   .label (.fixed .answered),
   .instr .ret]

def entry : List Line :=
  [.label (.fixed .main),
   .blank,
   .instr (.push (.reg .ebp)),
   .instr (.mov (.reg .ebp) (.reg .esp)),
   .blank,
   .comment "generated code"]

def head : List Line :=
  constants ++ [.blank] ++ storage ++ [.blank] ++ linkage ++ [.blank] ++ comparisons ++ [.blank] ++
    entry

def foot : List Line :=
  [.blank,
   .comment "exit",
   .instr (.push (.cell (.fixed .stdout))),
   .instr (.call (.fixed .fflush)),
   .instr (.add (.reg .esp) (.imm 4)),
   .blank,
   .instr (.mov (.reg .esp) (.reg .ebp)),
   .instr (.pop .ebp),
   .blank,
   .instr (.mov (.reg .eax) (.sym (.fixed .sysExit))),
   .instr (.xor (.reg .ebx) (.reg .ebx)),
   .instr .interrupt]

structure Listing where
  /-- The code of the program. -/
  body : List Line
  deriving DecidableEq, Repr

namespace Listing

def lines (l : Listing) : List Line := head ++ l.body ++ foot

def text (l : Listing) : String := render l.lines

end Listing
end Assembly
end Onepass
