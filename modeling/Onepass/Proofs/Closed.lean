import Onepass.Proofs.Bytewise
import Onepass.Proofs.Lowers

/-!
# Onepass.Proofs.Closed

Expressions of numbers alone. Such an expression has its value while it is compiled, where it
stands for the type, and once more when its code runs. `Node.constant?` says what the value is;
`evaluate` finds it, and so does the code, wherever the stack lies and whatever is in the
registers and in the memory.

* `lowers_of_constant?` -- the value while the expression is compiled.
* `run_constant`        -- the value when its code runs.
* `agree_of_constant`   -- both, with what the run leaves as it was.
-/

namespace Onepass

open Assembly

namespace Node

variable {ι : Type}

/-- The value of an expression of numbers, sums, differences, products, quotients, comparisons,
`and`, `or`, signs and `not`; there is none if something else is in it or a quotient is missing. -/
def constant? : Node ι → Option Word
  | .int _ n => some n
  | .binary _ op l r => (constant? l).bind fun a => (constant? r).bind fun b => op.eval? a b
  | .unary _ op e => (constant? e).map op.eval
  | _ => none

/-- How many words the code of such an expression needs on the stack. The right operand of a binary
operator waits there for the left one, and a routine is called with nothing else of the operator
on the stack. -/
def depth : Node ι → Nat
  | .binary _ _ l r => max r.depth (l.depth + 1)
  | .unary _ op e => max e.depth op.calls
  | _ => 0

end Node

theorem BinaryOp.fold_of_eval? {op : BinaryOp} {a b w : Word} (h : op.eval? a b = some w) :
    op.fold (.int a) (.int b) = .ok (.int w) := by
  rcases op with op | op | _
  · cases op with
    | div =>
      rw [eval?] at h
      split at h
      · cases h
      · rename_i hdef
        cases h
        simp only [fold, Arith.eval, Word.quotient, if_neg hdef]
    | _ =>
      cases h
      rfl
  · cases h
    rfl
  · cases h

theorem lowers_of_constant? {e : Node Nat} {v : Word} (he : e.constant? = some v) (t : Tables) :
    ∃ c, Lowers (.node e) t c t (.int v) := by
  fun_induction Node.constant? e generalizing v with
  | case1 i n =>
    cases he
    exact ⟨_, .int⟩
  | case2 i op l r ihl ihr =>
    obtain ⟨a, ha, hb⟩ := Option.bind_eq_some_iff.mp he
    obtain ⟨b, hb, hv⟩ := Option.bind_eq_some_iff.mp hb
    obtain ⟨c₁, h₁⟩ := ihr hb
    obtain ⟨c₂, h₂⟩ := ihl ha
    exact ⟨_, .binary h₁ h₂ (op.fold_of_eval? hv)⟩
  | case3 i op e ih =>
    obtain ⟨a, ha, rfl⟩ := Option.map_eq_some_iff.mp he
    obtain ⟨c, h⟩ := ih ha
    exact ⟨_, .unary h rfl⟩
  | case4 => cases he

namespace Bytewise

variable {m : Machine}

/-- The code of an expression of numbers leaves its value in EAX. The stack may lie anywhere, as
long as what the code puts there does not fill the whole memory. -/
theorem run_constant (hm : head <+: m.lines) {e : Node Nat} {v : Word}
    (he : e.constant? = some v) {t c t' x} (h : Lowers (.node e) t c t' x)
    (hroom : 4 * e.depth ≤ 2 ^ 32) {s : State} (hat : m.At s.pc c) :
    ∃ s', Runs m s s' ∧ s'.pc = s.pc + c.length ∧ s'.eax = v ∧ Keeps (4 * e.depth) s s' := by
  fun_induction Node.constant? e generalizing v t c t' x s with
  | case1 i n =>
    cases he
    cases h
    have hvalue : value m s (.imm n.toInt) = some n := congrArg some BitVec.ofInt_toInt
    exact ⟨_, .single (step_mov_eax hat.1 hvalue), rfl, rfl, ⟨rfl, rfl, fun _ _ => rfl⟩⟩
  | case2 i op l r ihl ihr =>
    obtain ⟨a, ha, hb⟩ := Option.bind_eq_some_iff.mp he
    obtain ⟨b, hb, hv⟩ := Option.bind_eq_some_iff.mp hb
    cases h with
    | @binary _ _ _ _ _ c₁ _ _ c₂ _ _ _ hr hl _ =>
    rw [Node.depth] at hroom
    obtain ⟨hat₁, hpush, hrest⟩ := Machine.at_append.mp hat
    obtain ⟨hat₂, hpop, hop⟩ := Machine.at_append.mp hrest
    -- The right operand, which then waits on the stack.
    obtain ⟨s₁, hrun₁, hpc₁, heax₁, hkeeps₁⟩ := ihr hb hr (by omega) hat₁
    let s₂ : State := (s₁.push (.word s₁.eax)).next
    have hstep₁ : step m s₁ = some s₂ := by
      rw [← hpc₁] at hpush
      rw [step_instr hpush]
      rfl
    have hpc₂ : s₂.pc = s.pc + c₁.length + 1 := congrArg (· + 1) hpc₁
    -- The left operand, above it.
    rw [← hpc₂] at hat₂ hpop hop
    obtain ⟨s₃, hrun₂, hpc₃, heax₃, hkeeps₂⟩ := ihl ha hl (by omega) hat₂
    obtain ⟨htop, hback⟩ := hkeeps₂.pop (by omega)
    rw [← hpc₃] at hpop hop
    let s₄ : State := { s₃ with pc := s₃.pc + 1, ebx := s₁.eax, esp := s₃.esp + 4 }
    have hstep₂ : step m s₃ = some s₄ := by
      rw [step_instr hpop, exec, htop]
      rfl
    -- The operator, with both at hand.
    obtain ⟨s₅, hrun₃, hpc₅, heax₅, hkeeps₃⟩ := run_code (s := s₄) hm op
      (by rw [show s₄.eax = a from heax₃, show s₄.ebx = b from heax₁]; exact hv) hop
    refine ⟨s₅, hrun₁.trans (.cons hstep₁ (hrun₂.trans (.cons hstep₂ hrun₃))), ?_, heax₅, ?_⟩
    · have hpc₄ : s₄.pc = s₃.pc + 1 := rfl
      simp only [List.length_append, List.length_cons]
      omega
    · have hstack : Keeps (4 * l.depth + 4) s₁ s₄ := ⟨hback.esp, hback.ebp, hback.memory⟩
      rw [Node.depth]
      exact ((hkeeps₁.mono (by omega)).trans (hstack.mono (by omega))).trans
        (hkeeps₃.mono (by omega))
  | case3 i op e ih =>
    obtain ⟨a, ha, rfl⟩ := Option.map_eq_some_iff.mp he
    cases h with
    | unary h =>
    rw [Node.depth] at hroom
    obtain ⟨hat₁, hop⟩ := Machine.at_append.mp hat
    obtain ⟨s₁, hrun₁, hpc₁, heax₁, hkeeps₁⟩ := ih ha h (by omega) hat₁
    rw [← hpc₁] at hop
    obtain ⟨s₂, hrun₂, hpc₂, heax₂, hkeeps₂⟩ := run_unary hm op hop
    refine ⟨s₂, hrun₁.trans hrun₂, ?_, heax₂.trans (congrArg op.eval heax₁), ?_⟩
    · simp only [List.length_append, List.length_map]
      omega
    · rw [Node.depth]
      exact (hkeeps₁.mono (by omega)).trans (hkeeps₂.mono (by omega))
  | case4 => cases he

end Bytewise

open Bytewise in
/-- An expression of numbers has one value, while it is compiled and when its code runs. The code
may stand anywhere behind the head, and the run may begin with anything in the registers and in
the memory. It gives back the stack and the frame and changes no more of the memory than the words
that it needs below the top of the stack; so it changes nothing at or above the top, unless there
is too little below and addresses wrap around. -/
theorem agree_of_constant {m : Machine} (hm : head <+: m.lines) {e : Node Nat} {v : Word}
    (he : e.constant? = some v) (t : Tables) :
    ∃ c, evaluate e t = ⟨c, t, .ok (.int v)⟩ ∧
      (4 * e.depth ≤ 2 ^ 32 → ∀ s : State, m.At s.pc c →
        ∃ s', Runs m s s' ∧ s'.pc = s.pc + c.length ∧ s'.eax = v ∧ s'.esp = s.esp ∧
          s'.ebp = s.ebp ∧
          (∀ a, 4 * e.depth ≤ (s.esp - 1 - a).toNat → s'.memory a = s.memory a) ∧
          (4 * e.depth ≤ s.esp.toNat → ∀ a, s.esp.toNat ≤ a.toNat →
            s'.memory a = s.memory a)) := by
  obtain ⟨c, hc⟩ := lowers_of_constant? he t
  refine ⟨c, emit_of_lowers hc, fun hroom s hat => ?_⟩
  obtain ⟨s', hrun, hpc, heax, hkeeps⟩ := run_constant hm he hc hroom hat
  refine ⟨s', hrun, hpc, heax, hkeeps.esp, hkeeps.ebp, hkeeps.memory, fun hbelow a ha => ?_⟩
  have hout : 4 * e.depth ≤ (s.esp - 1 - a).toNat := by bv_omega
  exact hkeeps.memory a hout

/-- `-7 / 2 < not 0` -/
def negativeQuotient : Node Nat :=
  .binary 6 (.relation .less) (.binary 3 (.arith .div) (.unary 1 .neg (.int 0 7)) (.int 2 2))
    (.unary 5 .not (.int 4 0))

/-- Lines behind the head. -/
def Machine.behindHead (c : List Line) : Machine where
  lines := head ++ c
  address _ := 0
  eax _ := 0
  edx _ := 0
  scratch _ _ := .word 0

/-- The run begins behind the head, with a stack at no multiple of 4. -/
def Bytewise.State.behindHead : Bytewise.State where
  pc := head.length
  eax := 11
  ebx := 12
  edx := 13
  esp := 1001
  ebp := 14
  flags := none
  memory _ := .num 165

open Bytewise in
theorem agree_of_negativeQuotient :
    ∃ c, evaluate negativeQuotient ⟨.empty, .empty⟩ = ⟨c, ⟨.empty, .empty⟩, .ok (.int 1)⟩ ∧
      head <+: (Machine.behindHead c).lines ∧ negativeQuotient.constant? = some 1 ∧
      4 * negativeQuotient.depth ≤ State.behindHead.esp.toNat ∧
      ∃ s', Runs (.behindHead c) .behindHead s' ∧ s'.eax = 1 ∧ s'.esp = 1001 ∧ s'.ebp = 14 ∧
        ∀ a : Word, 1001 ≤ a.toNat → s'.memory a = .num 165 := by
  have hvalue : negativeQuotient.constant? = some 1 := by decide
  let c := (evaluate negativeQuotient ⟨.empty, .empty⟩).code
  have hhead : head <+: (Machine.behindHead c).lines := List.prefix_append _ _
  obtain ⟨c', hc, hrun⟩ := agree_of_constant hhead hvalue ⟨.empty, .empty⟩
  have hsame : c' = c := (congrArg Emission.code hc).symm
  have hlines : (Machine.behindHead c).lines = head ++ c' ++ [] := by
    rw [hsame, List.append_nil]
    rfl
  obtain ⟨s', hs', -, heax, hesp, hebp, -, hmemory⟩ :=
    hrun (by decide) .behindHead (Machine.at_of_lines hlines)
  exact ⟨c, hsame ▸ hc, hhead, hvalue, by decide, s', hs', heax, hesp, hebp, hmemory (by decide)⟩

end Onepass
