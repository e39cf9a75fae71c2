import Onepass.Assembly.Symbol
import Onepass.Word

/-!
# Onepass.Assembly.Line

The lines of an assembly listing: instructions of the 32-bit machine, labels, constants, data
and the directives around them. `Line.text` writes a line, `render` a list of lines, each with
its line end.
-/

namespace Onepass
namespace Assembly

inductive Reg where
  | eax
  | ebx
  | esp
  | ebp
  deriving DecidableEq, Repr

namespace Reg

def name : Reg → String
  | .eax => "EAX"
  | .ebx => "EBX"
  | .esp => "ESP"
  | .ebp => "EBP"

end Reg

/-- The text of a place in a frame. A positive offset counts down from the frame's base, a
negative one counts up. -/
def address (offset : Word) : String :=
  if offset.slt 0 then "[EBP+" ++ (-offset).text ++ "]" else "[EBP-" ++ offset.text ++ "]"

inductive Operand where
  | reg (r : Reg)
  | imm (value : Int)
  /-- The value of a symbol: a constant or an address. -/
  | sym (s : Symbol)
  /-- The word in the frame at an offset. -/
  | slot (offset : Word)
  /-- The word at a symbol's address. -/
  | cell (s : Symbol)
  deriving DecidableEq, Repr

namespace Operand

def text : Operand → String
  | .reg r => r.name
  | .imm value => toString value
  | .sym s => s.name
  | .slot offset => "DWORD " ++ address offset
  | .cell s => "DWORD [" ++ s.name ++ "]"

end Operand

inductive Instr where
  | mov (dst src : Operand)
  | push (src : Operand)
  | pop (r : Reg)
  | add (dst src : Operand)
  | sub (dst src : Operand)
  | imul (src : Operand)
  | cdq
  | idiv (src : Operand)
  | and (dst src : Operand)
  | or (dst src : Operand)
  | xor (dst src : Operand)
  | neg (dst : Operand)
  | cmp (left right : Operand)
  | jmp (target : Symbol)
  | je (target : Symbol)
  | jg (target : Symbol)
  | jl (target : Symbol)
  | call (target : Symbol)
  | ret
  /-- The request to the operating system. -/
  | interrupt
  deriving DecidableEq, Repr

namespace Instr

def unary (mnemonic : String) (a : Operand) : String := mnemonic ++ " " ++ a.text

def binary (mnemonic : String) (a b : Operand) : String :=
  mnemonic ++ " " ++ a.text ++ ", " ++ b.text

def text : Instr → String
  | .mov dst src => binary "MOV" dst src
  | .push src => unary "PUSH" src
  | .pop r => unary "POP" (.reg r)
  | .add dst src => binary "ADD" dst src
  | .sub dst src => binary "SUB" dst src
  | .imul src => unary "IMUL" src
  | .cdq => "CDQ"
  | .idiv src => unary "IDIV" src
  | .and dst src => binary "AND" dst src
  | .or dst src => binary "OR" dst src
  | .xor dst src => binary "XOR" dst src
  | .neg dst => unary "NEG" dst
  | .cmp left right => binary "CMP" left right
  | .jmp target => unary "JMP" (.sym target)
  | .je target => unary "JE" (.sym target)
  | .jg target => unary "JG" (.sym target)
  | .jl target => unary "JL" (.sym target)
  | .call target => unary "CALL" (.sym target)
  | .ret => "RET"
  | .interrupt => "INT 0x80"

end Instr

/-- A piece of initial data. -/
inductive Datum where
  | byte (value : Nat)
  | chars (text : String)
  deriving DecidableEq, Repr

namespace Datum

def text : Datum → String
  | .byte value => toString value
  | .chars s => "\"" ++ s ++ "\""

end Datum

inductive Line where
  | blank
  | comment (text : String)
  | instr (i : Instr)
  | label (s : Symbol)
  | equ (s : Symbol) (value : Int)
  | data (s : Symbol) (items : List Datum)
  /-- Zero bytes. -/
  | zeros (s : Symbol) (count : Nat)
  | reserve (s : Symbol) (count : Nat)
  /-- A line that says where the lines behind it belong. -/
  | segment (name : String)
  | codeSection (name : String)
  | global (s : Symbol)
  | external (s : Symbol)
  /-- A line with a remark behind it. -/
  | remark (line : Line) (text : String)
  deriving DecidableEq, Repr

namespace Line

def text : Line → String
  | .blank => ""
  | .comment text => "; " ++ text
  | .instr i => i.text
  | .label s => s.name ++ ":"
  | .equ s value => s.name ++ " equ " ++ toString value
  | .data s items => s.name ++ ": db " ++ ", ".intercalate (items.map Datum.text)
  | .zeros s count => s.name ++ ": times " ++ toString count ++ " db 0"
  | .reserve s count => s.name ++ " RESB " ++ toString count
  | .segment name => "segment " ++ name
  | .codeSection name => "section " ++ name
  | .global s => "global " ++ s.name
  | .external s => "extern " ++ s.name
  | .remark line text => line.text ++ " ; " ++ text

end Line

/-- The lines in order, each with its line end. -/
def render (lines : List Line) : String :=
  String.join (lines.map fun l => l.text ++ "\n")

@[simp] theorem render_nil : render [] = "" := rfl

theorem render_cons (l : Line) (ls : List Line) :
    render (l :: ls) = l.text ++ "\n" ++ render ls := by
  simp [render]

theorem render_append (ls ms : List Line) : render (ls ++ ms) = render ls ++ render ms := by
  induction ls with
  | nil => simp
  | cons l ls ih => simp [render_cons, ih, String.append_assoc]

end Assembly
end Onepass
