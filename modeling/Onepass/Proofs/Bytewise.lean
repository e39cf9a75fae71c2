import Mathlib.Logic.Relation
import Onepass.Proofs.Fragments

/-!
# Onepass.Proofs.Bytewise

The machine again, with a memory of bytes. The stack is a part of the memory and may lie anywhere,
at any address and whatever the memory holds: addresses wrap around, and nothing has to stand at a
multiple of 4. It runs what arithmetic needs: operations on registers, the stack, comparisons,
jumps and calls of routines in the listing.

* `holds_store`, `Holds.load` -- a word or a return address that is stored can be loaded.
* `Keeps n`    -- a run gives the stack back, and changes at most the `n` bytes below it.
* `run_code`, `run_unary` -- an operator leaves its result in EAX.
-/

namespace Onepass

open Assembly Machine

/-- The calls in the code of a unary operator. -/
def UnaryOp.calls : UnaryOp → Nat
  | .plus | .neg => 0
  | .not => 1

namespace Bytewise

/-- What a byte of memory holds. The bytes of a return address are of their own kind, so a program
can neither compute one nor take one for a number. -/
inductive Byte where
  | num (b : BitVec 8)
  /-- A part of the place behind a call. -/
  | code (line part : Nat)

/-- The bytes of a word, the lowest first, or those of a return address. -/
def byte : Cell → Nat → Byte
  | .word w, i => .num (w.extractLsb' (8 * i) 8)
  | .code line, i => .code line i

/-- What four bytes make, if they belong together. -/
def cell? : Byte → Byte → Byte → Byte → Option Cell
  | .num b₀, .num b₁, .num b₂, .num b₃ => some (.word (b₃ ++ b₂ ++ b₁ ++ b₀))
  | .code k₀ 0, .code k₁ 1, .code k₂ 2, .code k₃ 3 =>
    if k₁ = k₀ ∧ k₂ = k₀ ∧ k₃ = k₀ then some (.code k₀) else none
  | _, _, _, _ => none

theorem cell?_byte (c : Cell) : cell? (byte c 0) (byte c 1) (byte c 2) (byte c 3) = some c := by
  cases c with
  | word w =>
    have hw : w.extractLsb' 24 8 ++ w.extractLsb' 16 8 ++ w.extractLsb' 8 8 ++
        w.extractLsb' 0 8 = w := by
      rw [BitVec.extractLsb'_append_extractLsb'_eq_extractLsb' (by omega),
        BitVec.extractLsb'_append_extractLsb'_eq_extractLsb' (by omega),
        BitVec.extractLsb'_append_extractLsb'_eq_extractLsb' (by omega)]
      exact BitVec.extractLsb'_eq_self
    exact congrArg (fun w => some (Cell.word w)) hw
  | code line => simp [byte, cell?]

structure State where
  /-- The line to run next. -/
  pc : Nat
  eax : Word
  ebx : Word
  edx : Word
  esp : Word
  ebp : Word
  flags : Option Flags
  memory : Word → Byte

namespace State

def reg (s : State) : Reg → Word
  | .eax => s.eax
  | .ebx => s.ebx
  | .esp => s.esp
  | .ebp => s.ebp

def setReg (s : State) (r : Reg) (w : Word) : State :=
  match r with
  | .eax => { s with eax := w }
  | .ebx => { s with ebx := w }
  | .esp => { s with esp := w }
  | .ebp => { s with ebp := w }

def next (s : State) : State := { s with pc := s.pc + 1 }

def load (s : State) (a : Word) : Option Cell :=
  cell? (s.memory a) (s.memory (a + 1)) (s.memory (a + 2)) (s.memory (a + 3))

def store (s : State) (a : Word) (c : Cell) : State :=
  { s with memory := fun x => if (x - a).toNat < 4 then byte c (x - a).toNat else s.memory x }

def push (s : State) (c : Cell) : State := { s with esp := s.esp - 4 }.store (s.esp - 4) c

/-- The quotient toward zero and the remainder of the 64 bits in EDX and EAX, unless there is no
quotient of 32 bits. -/
def divide (s : State) (d : Word) : Option State :=
  let n := (s.edx ++ s.eax).toInt
  let q := n.tdiv d.toInt
  if d = 0 ∨ q < -2 ^ 31 ∨ 2 ^ 31 ≤ q then none
  else some { s.next with
    eax := BitVec.ofInt 32 q
    edx := BitVec.ofInt 32 (n.tmod d.toInt)
    flags := none }

/-- A cell at an address, byte by byte. -/
def Holds (s : State) (a : Word) (c : Cell) : Prop :=
  ∀ k < 4, s.memory (a + BitVec.ofNat 32 k) = byte c k

theorem Holds.load {s : State} {a : Word} {c : Cell} (h : s.Holds a c) : s.load a = some c := by
  have h₀ : s.memory a = byte c 0 := by simpa using h 0 (by omega)
  have h₁ : s.memory (a + 1) = byte c 1 := h 1 (by omega)
  have h₂ : s.memory (a + 2) = byte c 2 := h 2 (by omega)
  have h₃ : s.memory (a + 3) = byte c 3 := h 3 (by omega)
  rw [State.load, h₀, h₁, h₂, h₃, cell?_byte]

theorem holds_store (s : State) (a : Word) (c : Cell) : (s.store a c).Holds a c := by
  intro k hk
  have hoffset : (a + BitVec.ofNat 32 k - a).toNat = k := by bv_omega
  simp only [store, hoffset, if_pos hk]

end State

variable (m : Machine)

def value (s : State) : Operand → Option Word
  | .reg r => some (s.reg r)
  | .imm n => some (BitVec.ofInt 32 n)
  | .sym x => some (m.symbol x)
  | _ => none

def jump (s : State) (x : Symbol) : Option State := (m.target x).map fun k => { s with pc := k }

def jumpIf (s : State) (x : Symbol) (test : Flags → Bool) : Option State :=
  s.flags.bind fun f => if test f then jump m s x else some s.next

/-- An operation on a register and an operand, the result in the register, that leaves the flags
open. -/
def operate (s : State) (r : Reg) (src : Operand) (op : Word → Word → Word) : Option State :=
  (value m s src).map fun b => { s.setReg r (op (s.reg r) b) with flags := none }.next

def exec (s : State) : Instr → Option State
  | .mov (.reg r) src => (value m s src).map fun w => (s.setReg r w).next
  | .push src => (value m s src).map fun w => (s.push (.word w)).next
  | .pop r =>
    match s.load s.esp with
    | some (.word w) => some ({ s with esp := s.esp + 4 }.setReg r w).next
    | _ => none
  | .add (.reg r) src => operate m s r src (· + ·)
  | .sub (.reg r) src => operate m s r src (· - ·)
  | .and (.reg r) src => operate m s r src (· &&& ·)
  | .or (.reg r) src => operate m s r src (· ||| ·)
  | .xor (.reg r) src => operate m s r src (· ^^^ ·)
  | .neg (.reg r) => operate m s r (.reg r) fun a _ => -a
  | .imul src => (value m s src).map fun b =>
    let product := s.eax.toInt * b.toInt
    { s.next with
      eax := BitVec.ofInt 32 product
      edx := BitVec.ofInt 32 (product / 2 ^ 32)
      flags := none }
  | .cdq => some { s.next with edx := if s.eax.msb then -1 else 0 }
  | .idiv src => (value m s src).bind fun d => s.divide d
  | .cmp left right => (value m s left).bind fun a => (value m s right).map fun b =>
    { s.next with flags := some (.ofSub a b) }
  | .jmp x => jump m s x
  | .je x => jumpIf m s x Flags.equal
  | .jg x => jumpIf m s x Flags.greater
  | .jl x => jumpIf m s x Flags.less
  | .call x => (m.target x).map fun k => { s.push (.code (s.pc + 1)) with pc := k }
  | .ret =>
    match s.load s.esp with
    | some (.code k) => some { s with pc := k, esp := s.esp + 4 }
    | _ => none
  | _ => none

def step (s : State) : Option State :=
  match m.lines[s.pc]? with
  | some (.instr i) => exec m s i
  | some .blank | some (.comment _) | some (.label _) | some (.equ _ _) => some s.next
  | _ => none

/-- The machine comes from the one state to the other. -/
def Runs : State → State → Prop := Relation.ReflTransGen fun s s' => step m s = some s'

variable {m} {s s' s'' : State} {c : Cell} {n k : Nat}

namespace Runs

theorem refl (s : State) : Runs m s s := Relation.ReflTransGen.refl

theorem cons (h : step m s = some s') (h' : Runs m s' s'') : Runs m s s'' :=
  Relation.ReflTransGen.head h h'

theorem single (h : step m s = some s') : Runs m s s' := Relation.ReflTransGen.single h

theorem trans (h : Runs m s s') (h' : Runs m s' s'') : Runs m s s'' :=
  Relation.ReflTransGen.trans h h'

end Runs

/-- A run that ends with the stack as it found it and in the same frame. Of the memory it changes
at most `n` bytes, those right below the top of the stack. -/
structure Keeps (n : Nat) (s s' : State) : Prop where
  esp : s'.esp = s.esp
  ebp : s'.ebp = s.ebp
  memory : ∀ a, n ≤ (s.esp - 1 - a).toNat → s'.memory a = s.memory a

namespace Keeps

theorem refl (n : Nat) (s : State) : Keeps n s s := ⟨rfl, rfl, fun _ _ => rfl⟩

theorem trans (h : Keeps n s s') (h' : Keeps n s' s'') : Keeps n s s'' := by
  refine ⟨h'.esp.trans h.esp, h'.ebp.trans h.ebp, fun a ha => ?_⟩
  rw [h'.memory a (by rw [h.esp]; exact ha), h.memory a ha]

theorem mono {j k : Nat} (hjk : j ≤ k) (h : Keeps j s s') : Keeps k s s' :=
  ⟨h.esp, h.ebp, fun a ha => h.memory a (hjk.trans ha)⟩

/-- From four bytes further down, the bytes of the cell in between are as far away as can be. -/
theorem toNat_cell {top : Word} {i : Nat} (hi : i < 4) :
    (top - 1 - (top + BitVec.ofNat 32 i)).toNat = 2 ^ 32 - 1 - i := by
  bv_omega

theorem toNat_sub_four {top a : Word} (h : 4 ≤ (top - 1 - a).toNat) :
    (top - 4 - 1 - a).toNat + 4 = (top - 1 - a).toNat := by
  bv_omega

theorem not_cell {top a : Word} (h : 4 ≤ (top - 1 - a).toNat) : ¬ (a - (top - 4)).toNat < 4 := by
  bv_omega

/-- A run behind a push leaves what was pushed on top, and taking it off gives the stack back. -/
theorem pop (h : Keeps n { s.push c with pc := k } s') (hn : n + 4 ≤ 2 ^ 32) :
    s'.load s'.esp = some c ∧ Keeps (n + 4) s { s' with esp := s'.esp + 4 } := by
  have hesp : s'.esp = s.esp - 4 := h.esp
  have hmemory (a : Word) (ha : n ≤ (s.esp - 4 - 1 - a).toNat) :
      s'.memory a = (s.push c).memory a := h.memory a ha
  refine ⟨State.Holds.load fun i hi => ?_, ⟨?_, h.ebp, fun a ha => ?_⟩⟩
  · have hfar : n ≤ (s.esp - 4 - 1 - (s.esp - 4 + BitVec.ofNat 32 i)).toNat := by
      rw [toNat_cell hi]
      omega
    rw [hesp, hmemory _ hfar]
    exact State.holds_store _ _ c i hi
  · show s'.esp + 4 = s.esp
    rw [hesp, BitVec.sub_add_cancel]
  · show s'.memory a = s.memory a
    have hfour : 4 ≤ (s.esp - 1 - a).toNat := by omega
    have hfar : n ≤ (s.esp - 4 - 1 - a).toNat := by
      have := toNat_sub_four hfour
      omega
    rw [hmemory a hfar]
    exact if_neg (not_cell hfour)

end Keeps

/-! ## Single lines -/

theorem step_instr {i : Instr} (h : m.lines[s.pc]? = some (.instr i)) :
    step m s = exec m s i := by
  simp [step, h]

theorem step_label {x : Symbol} (h : m.lines[s.pc]? = some (.label x)) :
    step m s = some s.next := by
  simp [step, h]

theorem step_mov_eax {src : Operand} {w : Word}
    (h : m.lines[s.pc]? = some (.instr (.mov (.reg .eax) src))) (hw : value m s src = some w) :
    step m s = some { s with pc := s.pc + 1, eax := w } := by
  rw [step_instr h, exec, hw]
  rfl

theorem step_jmp {x : Symbol} {k : Nat} (h : m.lines[s.pc]? = some (.instr (.jmp x)))
    (ht : m.target x = some k) : step m s = some { s with pc := k } := by
  rw [step_instr h, exec, jump, ht, Option.map_some]

theorem step_jumpIf {i : Instr} {x : Symbol} {test : Flags → Bool} {f : Flags} {k : Nat}
    (h : m.lines[s.pc]? = some (.instr i)) (hi : exec m s i = jumpIf m s x test)
    (hf : s.flags = some f) (ht : m.target x = some k) :
    step m s = some { s with pc := if test f then k else s.pc + 1 } := by
  have hj : jumpIf m s x test = if test f then jump m s x else some s.next := by
    rw [jumpIf, hf, Option.bind_some]
  rw [step_instr h, hi, hj, jump, ht]
  cases test f <;> rfl

theorem step_ret {r : Nat} (h : m.lines[s.pc]? = some (.instr .ret))
    (htop : s.load s.esp = some (.code r)) :
    step m s = some { s with pc := r, esp := s.esp + 4 } := by
  rw [step_instr h, exec, htop]

/-! ## The routines of the head -/

section Head

variable (hm : head <+: m.lines)

include hm

theorem line_of_head {l : Line} (h : head[k]? = some l) : m.lines[k]? = some l := by
  obtain ⟨hk, hl⟩ := List.getElem?_eq_some_iff.mp h
  rw [← hl]
  exact List.prefix_iff_getElem?.mp hm k hk

theorem target_of_head {x : Symbol} (h : head[k]? = some (.label x)) : m.target x = some k :=
  target_eq_of_prefix hm (by decide) h

theorem symbol_false : m.symbol (.fixed .false) = 0 :=
  symbol_eq_of_prefix hm (n := 0) (by decide) (by decide)

theorem symbol_true : m.symbol (.fixed .true) = 1 :=
  symbol_eq_of_prefix hm (n := 1) (by decide) (by decide)

omit hm in
/-- Where the lines of the routines stand in the head. -/
theorem at_head : ({ m with lines := head } : Machine).At Image.comparisonsAt comparisons :=
  Image.at_comparisons_of_prefix List.prefix_rfl

/-- The common end of the routines that answer from flags. -/
theorem answer (b : Bool) {r : Nat}
    (hpc : m.target (.fixed (if b then .answerTrue else .answerFalse)) = some s.pc)
    (htop : s.load s.esp = some (.code r)) :
    Runs m s { s with pc := r, eax := Word.ofBool b, esp := s.esp + 4 } := by
  have h := at_head (m := m)
  simp only [comparisons, At] at h
  obtain ⟨-, -, -, -, -, -, -, -, -, -, -, -, -, hfalse, hmovf, hjmp, htrue, hmovt, hend, hret,
    -⟩ := h
  cases b with
  | false =>
    have hs := Option.some.inj (hpc.symm.trans (target_of_head hm hfalse))
    rw [← hs] at hfalse hmovf hjmp
    have hw : value m s.next (.sym (.fixed .false)) = some 0 := congrArg some (symbol_false hm)
    refine .cons (step_label (line_of_head hm hfalse)) ?_
    refine .cons (step_mov_eax (s := s.next) (line_of_head hm hmovf) hw) ?_
    refine .cons (step_jmp (line_of_head hm hjmp) (target_of_head hm hend)) ?_
    refine .cons (step_label (line_of_head hm hend)) ?_
    exact .single (step_ret (line_of_head hm hret) htop)
  | true =>
    have hs := Option.some.inj (hpc.symm.trans (target_of_head hm htrue))
    rw [← hs] at htrue hmovt hend hret
    have hw : value m s.next (.sym (.fixed .true)) = some 1 := congrArg some (symbol_true hm)
    refine .cons (step_label (line_of_head hm htrue)) ?_
    refine .cons (step_mov_eax (s := s.next) (line_of_head hm hmovt) hw) ?_
    refine .cons (step_label (line_of_head hm hend)) ?_
    exact .single (step_ret (line_of_head hm hret) htop)

/-- The routine of a relation answers whether it holds. -/
theorem answer_relation {op : Relation} {f : Flags} {r : Nat}
    (hpc : m.target op.routine = some s.pc) (hf : s.flags = some f)
    (htop : s.load s.esp = some (.code r)) :
    Runs m s { s with pc := r, eax := Word.ofBool (op.test f), esp := s.esp + 4 } := by
  have h := at_head (m := m)
  simp only [comparisons, At] at h
  obtain ⟨-, heq, hje, hjmpe, -, hgt, hjg, hjmpg, -, hlt, hjl, hjmpl, -, hfalse, -, -, htrue,
    -⟩ := h
  have hfalse := target_of_head hm hfalse
  have htrue := target_of_head hm htrue
  -- A conditional jump to one answer, then a jump to the other.
  have run {i : Instr} {test : Flags → Bool} {k : Nat}
      (hlabel : head[k]? = some (.label op.routine))
      (hi : head[k + 1]? = some (.instr i))
      (hj : head[k + 1 + 1]? = some (.instr (.jmp (.fixed .answerFalse))))
      (hx : ∀ s, exec m s i = jumpIf m s (.fixed .answerTrue) test) :
      Runs m s { s with pc := r, eax := Word.ofBool (test f), esp := s.esp + 4 } := by
    have hk := Option.some.inj (hpc.symm.trans (target_of_head hm hlabel))
    rw [← hk] at hlabel hi hj
    refine .cons (step_label (line_of_head hm hlabel)) ?_
    refine .cons (step_jumpIf (s := s.next) (line_of_head hm hi) (hx _) hf htrue) ?_
    cases htest : test f with
    | true => exact answer (s := { s with pc := _ }) hm true htrue htop
    | false =>
      refine .cons (step_jmp (s := s.next.next) (line_of_head hm hj) hfalse) ?_
      exact answer (s := { s with pc := _ }) hm false hfalse htop
  cases op with
  | greater => exact run hgt hjg hjmpg fun _ => rfl
  | less => exact run hlt hjl hjmpl fun _ => rfl
  | equal => exact run heq hje hjmpe fun _ => rfl

theorem target_routine (op : Relation) : ∃ k, m.target op.routine = some k := by
  have h := at_head (m := m)
  simp only [comparisons, At] at h
  obtain ⟨-, heq, -, -, -, hgt, -, -, -, hlt, -⟩ := h
  cases op with
  | greater => exact ⟨_, target_of_head hm hgt⟩
  | less => exact ⟨_, target_of_head hm hlt⟩
  | equal => exact ⟨_, target_of_head hm heq⟩

/-- A comparison and the call of the routine that answers it. -/
theorem run_compare {op : Relation} {l r : Operand} {a b : Word}
    (hcmp : m.lines[s.pc]? = some (.instr (.cmp l r)))
    (hcall : m.lines[s.pc + 1]? = some (.instr (.call op.routine)))
    (hl : value m s l = some a) (hr : value m s r = some b) :
    ∃ s', Runs m s s' ∧ s'.pc = s.pc + 2 ∧
      s'.eax = Word.ofBool (op.holds (compare a.toInt b.toInt)) ∧ Keeps 4 s s' := by
  obtain ⟨k, hk⟩ := target_routine hm op
  have hfirst : step m s = some { s.next with flags := some (.ofSub a b) } := by
    rw [step_instr hcmp, exec, hl, hr]
    rfl
  let s₁ : State := { s.next with flags := some (.ofSub a b) }
  let s₂ : State := { s₁.push (.code (s₁.pc + 1)) with pc := k }
  have hsecond : step m s₁ = some s₂ := by
    rw [step_instr (s := s₁) hcall, exec, hk]
    rfl
  obtain ⟨htop, hkeeps⟩ := Keeps.pop (Keeps.refl 0 s₂) (by omega)
  have hrun := answer_relation hm (s := s₂) hk rfl htop
  rw [Relation.test_ofSub] at hrun
  exact ⟨_, .cons hfirst (.cons hsecond hrun), rfl, rfl,
    ⟨hkeeps.esp, hkeeps.ebp, hkeeps.memory⟩⟩

end Head

/-! ## Operators -/

/-- A quotient that exists is the one that the machine finds. -/
theorem divide_eq {w : Word} (hx : (s.edx ++ s.eax).toInt = s.eax.toInt)
    (hw : (BinaryOp.arith .div).eval? s.eax s.ebx = some w) :
    ∃ r, s.divide s.ebx = some { s.next with eax := w, edx := r, flags := none } := by
  obtain ⟨hzero, hq⟩ := toInt_quotient hw
  have hlt := BitVec.toInt_lt (x := w)
  have hle := BitVec.le_toInt w
  have hfits : ¬ (s.ebx = 0 ∨ w.toInt < -2 ^ 31 ∨ 2 ^ 31 ≤ w.toInt) := by
    rintro (h | h | h)
    · exact hzero h
    · omega
    · omega
  refine ⟨BitVec.ofInt 32 (s.eax.toInt.tmod s.ebx.toInt), ?_⟩
  simp only [State.divide, hx, hq, if_neg hfits, BitVec.ofInt_toInt]

theorem run_arith {op : Arith} {w : Word} (hw : (BinaryOp.arith op).eval? s.eax s.ebx = some w)
    (hat : m.At s.pc (BinaryOp.arith op).code) :
    ∃ s', Runs m s s' ∧ s'.pc = s.pc + (BinaryOp.arith op).code.length ∧ s'.eax = w ∧
      Keeps 0 s s' := by
  cases op with
  | div =>
    obtain ⟨hcdq, hdiv, -⟩ := hat
    obtain ⟨r, hr⟩ := divide_eq (s := { s.next with edx := if s.eax.msb then -1 else 0 })
      (toInt_extend s.eax) hw
    exact ⟨_, .cons (step_instr hcdq) (.single ((step_instr
      (s := { s.next with edx := if s.eax.msb then -1 else 0 }) hdiv).trans hr)), rfl, rfl,
      ⟨rfl, rfl, fun _ _ => rfl⟩⟩
  | mul =>
    cases hw
    exact ⟨_, .single (step_instr hat.1), rfl, ofInt_mul s.eax s.ebx, ⟨rfl, rfl, fun _ _ => rfl⟩⟩
  | add | sub | and | or =>
    cases hw
    exact ⟨_, .single (step_instr hat.1), rfl, rfl, ⟨rfl, rfl, fun _ _ => rfl⟩⟩

/-- The code of a binary operator leaves its result in EAX. -/
theorem run_code (hm : head <+: m.lines) (op : BinaryOp) {w : Word}
    (hw : op.eval? s.eax s.ebx = some w) (hat : m.At s.pc op.code) :
    ∃ s', Runs m s s' ∧ s'.pc = s.pc + op.code.length ∧ s'.eax = w ∧ Keeps 4 s s' := by
  rcases op with op | op | _
  · obtain ⟨s', hrun, hpc, heax, hkeeps⟩ := run_arith hw hat
    exact ⟨s', hrun, hpc, heax, hkeeps.mono (by omega)⟩
  · obtain ⟨hcmp, hcall, -⟩ := hat
    cases hw
    exact run_compare hm hcmp hcall rfl rfl
  · cases hw

/-- The code of a unary operator leaves its result in EAX. -/
theorem run_unary (hm : head <+: m.lines) (op : UnaryOp) (hat : m.At s.pc (op.code.map .instr)) :
    ∃ s', Runs m s s' ∧ s'.pc = s.pc + op.code.length ∧ s'.eax = op.eval s.eax ∧
      Keeps (4 * op.calls) s s' := by
  cases op with
  | plus => exact ⟨s, .refl s, rfl, rfl, .refl 0 s⟩
  | neg => exact ⟨_, .single (step_instr hat.1), rfl, rfl, ⟨rfl, rfl, fun _ _ => rfl⟩⟩
  | not =>
    obtain ⟨hcmp, hcall, -⟩ := hat
    have hequal : m.lines[s.pc + 1]? = some (.instr (.call Relation.equal.routine)) := hcall
    have hfalse : value m s (.sym (.fixed .false)) = some 0 := congrArg some (symbol_false hm)
    have hrun := run_compare hm hcmp hequal rfl hfalse
    rw [State.reg, compare_zero] at hrun
    exact hrun

end Bytewise
end Onepass
