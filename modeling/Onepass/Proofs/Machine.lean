import Mathlib.Algebra.Group.Int.Defs
import Mathlib.Algebra.Group.Nat.Defs
import Onepass.Assembly.Listing

/-!
# Onepass.Proofs.Machine

A machine that runs listings: registers and stack of 32-bit words, flags of the last comparison,
one routine of the outside that reads numbers and one that prints them.

* `step`  -- runs one line; `none` where the machine would fault or has no meaning here.
* `Steps` -- any number of lines.

The stack is an array of cells at byte addresses, used only at multiples of 4. A return address is
a cell of its own kind, so a program can neither compute one nor take one for a number. Flags are
known behind a comparison only; other arithmetic leaves them open, and so do outside routines,
which may also change EAX, EDX and their part of the stack: their arguments and all below.
-/

namespace Onepass

/-- The numbers that are left to read, and those printed so far. -/
structure World where
  input : List Word
  printed : List Word

namespace Machine

open Assembly

inductive Cell where
  | word (w : Word)
  /-- The place behind a call. -/
  | code (line : Nat)

structure Flags where
  zero : Bool
  sign : Bool
  overflow : Bool

namespace Flags

/-- The flags of a difference. -/
def ofSub (a b : Word) : Flags := ⟨a - b == 0, (a - b).msb, BitVec.ssubOverflow a b⟩

def equal (f : Flags) : Bool := f.zero

def less (f : Flags) : Bool := f.sign != f.overflow

def greater (f : Flags) : Bool := !f.zero && f.sign == f.overflow

/-- The sign of a wrapped difference is wrong exactly if it does not fit. -/
theorem bmod_neg_iff {d : Int} (h : -2 ^ 32 < d) (h' : d < 2 ^ 32) :
    d.bmod (2 ^ 32) < 0 ↔ ((d < 0) ↔ ¬ (2 ^ 31 ≤ d ∨ d < -2 ^ 31)) := by
  rw [Int.bmod_def]
  split <;> omega

theorem less_ofSub (a b : Word) : (ofSub a b).less = decide (a.toInt < b.toInt) := by
  have ha := BitVec.toInt_lt (x := a)
  have ha' := BitVec.le_toInt a
  have hb := BitVec.toInt_lt (x := b)
  have hb' := BitVec.le_toInt b
  have hsub : (a - b).toInt = (a.toInt - b.toInt).bmod (2 ^ 32) := BitVec.toInt_sub
  have hsign : (a - b).msb = true ↔ (a.toInt - b.toInt).bmod (2 ^ 32) < 0 := by
    rw [BitVec.msb_eq_toInt, decide_eq_true_eq, hsub]
  have hover : BitVec.ssubOverflow a b = true ↔
      2 ^ 31 ≤ a.toInt - b.toInt ∨ a.toInt - b.toInt < -2 ^ 31 := by
    simp [BitVec.ssubOverflow]
  rw [bmod_neg_iff (by omega) (by omega), ← hover] at hsign
  rw [Bool.eq_iff_iff, decide_eq_true_eq, less, ofSub, bne_iff_ne, ne_eq, Bool.eq_iff_iff, hsign]
  by_cases h : BitVec.ssubOverflow a b = true <;> simp [h]

theorem equal_ofSub (a b : Word) : (ofSub a b).equal = decide (a.toInt = b.toInt) := by
  simp only [ofSub, equal]
  rw [Bool.eq_iff_iff]
  simp only [beq_iff_eq, decide_eq_true_eq, BitVec.toInt_inj]
  bv_omega

theorem greater_ofSub (a b : Word) : (ofSub a b).greater = decide (b.toInt < a.toInt) := by
  have hg : (ofSub a b).greater = (!(ofSub a b).equal && !(ofSub a b).less) := by
    simp only [greater, equal, less]
    cases (ofSub a b).sign <;> cases (ofSub a b).overflow <;> rfl
  rw [hg, equal_ofSub, less_ofSub, Bool.eq_iff_iff]
  simp
  omega

end Flags

structure State where
  /-- The line to run next. -/
  pc : Nat
  eax : Word
  ebx : Word
  edx : Word
  esp : Word
  ebp : Word
  flags : Option Flags
  stack : Nat → Cell
  /-- The words at symbols. -/
  data : Symbol → Word
  world : World

namespace State

def reg (s : State) : Reg → Word
  | .eax => s.eax
  | .ebx => s.ebx
  | .esp => s.esp
  | .ebp => s.ebp

def setReg (s : State) (r : Reg) (w : Word) : State :=
  match r with
  | .eax => { s with eax := w }
  | .ebx => { s with ebx := w }
  | .esp => { s with esp := w }
  | .ebp => { s with ebp := w }

def next (s : State) : State := { s with pc := s.pc + 1 }

def setFlags (s : State) (f : Option Flags) : State := { s with flags := f }

def load (s : State) (a : Word) : Option Cell :=
  if a.toNat % 4 = 0 then some (s.stack a.toNat) else none

def loadWord (s : State) (a : Word) : Option Word :=
  match s.load a with
  | some (.word w) => some w
  | _ => none

def store (s : State) (a : Word) (c : Cell) : Option State :=
  if a.toNat % 4 = 0 then some { s with stack := fun n => if n = a.toNat then c else s.stack n }
  else none

def push (s : State) (c : Cell) : Option State :=
  { s with esp := s.esp - 4 }.store (s.esp - 4) c

def assign (s : State) (w : Word) : Operand → Option State
  | .reg r => some (s.setReg r w)
  | .slot offset => s.store (s.ebp - offset) (.word w)
  | _ => none

/-- The quotient toward zero and the remainder of the 64 bits in EDX and EAX, unless there is no
quotient of 32 bits. -/
def divide (s : State) (d : Word) : Option State :=
  let n := (s.edx ++ s.eax).toInt
  let q := n.tdiv d.toInt
  if d = 0 ∨ q < -2 ^ 31 ∨ 2 ^ 31 ≤ q then none
  else some { s.next with
    eax := BitVec.ofInt 32 q
    edx := BitVec.ofInt 32 (n.tmod d.toInt)
    flags := none }

end State

/-- The line puts data at a symbol. -/
def places (x : Symbol) (items : List Datum) : Line → Bool
  | .data y js => y = x ∧ js = items
  | .remark l _ => places x items l
  | _ => false

end Machine

/-- A listing in place, and the outside. -/
structure Machine where
  lines : List Assembly.Line
  /-- Where symbols are. -/
  address : Assembly.Symbol → Word
  /-- What outside routines leave in EAX, in EDX and in their part of the stack. -/
  eax : Machine.State → Word
  edx : Machine.State → Word
  scratch : Machine.State → Nat → Machine.Cell

namespace Machine

open Assembly

variable (m : Machine)

/-- The line of a label. -/
def target (x : Symbol) : Option Nat := m.lines.findIdx? fun l => l = .label x

/-- The value of a constant. -/
def constant? (x : Symbol) : Option Word :=
  m.lines.findSome? fun
    | .equ y n => if y = x then some (BitVec.ofInt 32 n) else none
    | _ => none

/-- A symbol stands for its constant, or else for its address. -/
def symbol (x : Symbol) : Word := (m.constant? x).getD (m.address x)

def value (s : State) : Operand → Option Word
  | .reg r => some (s.reg r)
  | .imm n => some (BitVec.ofInt 32 n)
  | .sym x => some (m.symbol x)
  | .slot offset => s.loadWord (s.ebp - offset)
  | .cell x => some (s.data x)

/-- The state behind a call of an outside routine. -/
def outside (s : State) : State :=
  { s.next with
    eax := m.eax s
    edx := m.edx s
    flags := none
    stack := fun n => if n < s.esp.toNat + 8 then m.scratch s n else s.stack n }

def holds (x : Symbol) (items : List Datum) : Bool := m.lines.any (places x items)

/-- The two routines of the outside. Each has a format at the top of the stack, a decimal number
or a line with one, and a word behind it: where to put the number read, or the number to print. -/
def external (s : State) (f : Symbol) : Option State :=
  if .external f ∈ m.lines then
    match f, s.loadWord s.esp, s.loadWord (s.esp + 4), s.world.input with
    | .fixed .scanf, some form, some place, w :: rest =>
      if form = m.address (.fixed .formatin) ∧ m.holds (.fixed .formatin) [.chars "%d", .byte 0] ∧
          place = m.address (.fixed .scanint) then
        some { m.outside s with
          data := fun x => if x = .fixed .scanint then w else s.data x
          world := { s.world with input := rest } }
      else none
    | .fixed .printf, some form, some w, _ =>
      if form = m.address (.fixed .formatout) ∧
          m.holds (.fixed .formatout) [.chars "%d", .byte 10, .byte 0] then
        some { m.outside s with world := { s.world with printed := s.world.printed ++ [w] } }
      else none
    | _, _, _, _ => none
  else none

def jump (s : State) (x : Symbol) : Option State := (m.target x).map fun k => { s with pc := k }

def jumpIf (s : State) (x : Symbol) (test : Flags → Bool) : Option State :=
  s.flags.bind fun f => if test f then m.jump s x else some s.next

/-- An operation on two operands, the result in the first, that leaves the flags open. -/
def operate (s : State) (dst src : Operand) (op : Word → Word → Word) : Option State :=
  (m.value s dst).bind fun a => (m.value s src).bind fun b =>
    (s.assign (op a b) dst).map fun s' => (s'.setFlags none).next

def exec (s : State) : Instr → Option State
  | .mov dst src => (m.value s src).bind fun w => (s.assign w dst).map State.next
  | .push src => (m.value s src).bind fun w => (s.push (.word w)).map State.next
  | .pop r => (s.loadWord s.esp).map fun w => ({ s with esp := s.esp + 4 }.setReg r w).next
  | .add dst src => m.operate s dst src (· + ·)
  | .sub dst src => m.operate s dst src (· - ·)
  | .and dst src => m.operate s dst src (· &&& ·)
  | .or dst src => m.operate s dst src (· ||| ·)
  | .xor dst src => m.operate s dst src (· ^^^ ·)
  | .neg dst => m.operate s dst dst fun a _ => -a
  | .imul src => (m.value s src).map fun b =>
    let product := s.eax.toInt * b.toInt
    { s.next with
      eax := BitVec.ofInt 32 product
      edx := BitVec.ofInt 32 (product / 2 ^ 32)
      flags := none }
  | .cdq => some { s.next with edx := if s.eax.msb then -1 else 0 }
  | .idiv src => (m.value s src).bind fun d => s.divide d
  | .cmp left right => (m.value s left).bind fun a => (m.value s right).map fun b =>
    (s.setFlags (some (.ofSub a b))).next
  | .jmp x => m.jump s x
  | .je x => m.jumpIf s x Flags.equal
  | .jg x => m.jumpIf s x Flags.greater
  | .jl x => m.jumpIf s x Flags.less
  | .call x =>
    match m.target x with
    | some k => (s.push (.code (s.pc + 1))).map fun s' => { s' with pc := k }
    | none => m.external s x
  | .ret =>
    match s.load s.esp with
    | some (.code k) => some { s with pc := k, esp := s.esp + 4 }
    | _ => none
  | .interrupt => none

def step (s : State) : Option State :=
  match m.lines[s.pc]? with
  | some (.instr i) => m.exec s i
  | some .blank | some (.comment _) | some (.label _) | some (.equ _ _) => some s.next
  | _ => none

inductive Steps : State → State → Prop where
  | refl {s : State} : Steps s s
  | cons {s s' s'' : State} : m.step s = some s' → Steps s' s'' → Steps s s''

namespace Steps

variable {m} {s s' s'' : State}

theorem single (h : m.step s = some s') : m.Steps s s' := .cons h .refl

theorem trans (h : m.Steps s s') (h' : m.Steps s' s'') : m.Steps s s'' := by
  induction h with
  | refl => exact h'
  | cons hs _ ih => exact .cons hs (ih h')

end Steps
end Machine
end Onepass
