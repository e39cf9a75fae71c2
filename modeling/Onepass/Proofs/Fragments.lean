import Onepass.Proofs.Image
import Onepass.Proofs.Run

/-!
# Onepass.Proofs.Fragments

What stretches of lowered code do on the machine: the code of an operator, of reading and of
printing, and of a jump on a condition. `Keeps s s'` says that `s'` has the stack of `s`.

* `run_code`, `run_unary` -- an operator leaves its result in EAX.
* `run_read`, `run_print`  -- numbers go in and out through the outside.
* `run_jumpIfFalse`        -- the jump is taken if EAX is zero.
-/

namespace Onepass

open Assembly Lowering

namespace Relation

open Machine

/-- The test that the routine of a relation makes. -/
def test : Relation → Flags → Bool
  | .greater => Flags.greater
  | .less => Flags.less
  | .equal => Flags.equal

theorem test_ofSub (op : Relation) (a b : Word) :
    op.test (.ofSub a b) = op.holds (compare a.toInt b.toInt) := by
  cases op with
  | greater =>
    rw [test, Flags.greater_ofSub, holds, Bool.eq_iff_iff, decide_eq_true_eq, beq_iff_eq,
      Int.compare_eq_gt]
  | less =>
    rw [test, Flags.less_ofSub, holds, Bool.eq_iff_iff, decide_eq_true_eq, beq_iff_eq,
      Int.compare_eq_lt]
  | equal =>
    rw [test, Flags.equal_ofSub, holds, Bool.eq_iff_iff, decide_eq_true_eq, beq_iff_eq,
      Int.compare_eq_eq]

end Relation

namespace Machine

variable {m : Machine} {s s' s'' : State} {fs : List Function}

/-- A run that ends with the stack as it found it, and in the same frame. -/
structure Keeps (s s' : State) : Prop where
  esp : s'.esp = s.esp
  ebp : s'.ebp = s.ebp
  stack : ∀ a, s.esp.toNat ≤ a → s'.stack a = s.stack a

namespace Keeps

theorem refl (s : State) : Keeps s s := ⟨rfl, rfl, fun _ _ => rfl⟩

theorem trans (h : Keeps s s') (h' : Keeps s' s'') : Keeps s s'' := by
  refine ⟨h'.esp.trans h.esp, h'.ebp.trans h.ebp, fun a ha => ?_⟩
  rw [h'.stack a (by rw [h.esp]; exact ha), h.stack a ha]

end Keeps

/-- The common end of the routines that answer from flags. -/
theorem answer (hm : m.Image fs) (b : Bool) {r : Nat}
    (hpc : m.target (.fixed (if b then .answerTrue else .answerFalse)) = some s.pc)
    (ha : s.esp.toNat % 4 = 0) (htop : s.stack s.esp.toNat = .code r) :
    m.Steps s { s with pc := r, eax := Word.ofBool b, esp := s.esp + 4 } := by
  have h := hm.at_comparisons
  simp only [comparisons, At] at h
  obtain ⟨-, -, -, -, -, -, -, -, -, -, -, -, -, hfalse, hmovf, hjmp, htrue, hmovt, hend, hret, -⟩ :=
    h
  have hlast {k : Nat} {s₁ : State} (hlabel : m.lines[k]? = some (.label (.fixed .answered)))
      (hret : m.lines[k + 1]? = some (.instr .ret)) (hpc : s₁.pc = k) (he : s₁.esp = s.esp)
      (hst : s₁.stack = s.stack) : m.Steps s₁ { s₁ with pc := r, esp := s₁.esp + 4 } := by
    subst hpc
    refine .cons (step_label hlabel) (.single ?_)
    exact step_ret (s := s₁.next) hret (by rw [← he] at ha; exact ha)
      (by rw [← he, ← hst] at htop; exact htop)
  cases b with
  | false =>
    have hs := Option.some.inj (hpc.symm.trans (hm.target_eq hfalse))
    rw [← hs] at hfalse hmovf hjmp
    have hw : m.value s.next (.sym (.fixed .false)) = some 0 := by rw [value, hm.symbol_false]
    refine .cons (step_label hfalse) (.cons (step_mov_eax (s := s.next) hmovf hw) ?_)
    refine .cons (step_jmp hjmp (hm.target_eq hend)) ?_
    exact hlast hend hret rfl rfl rfl
  | true =>
    have hs := Option.some.inj (hpc.symm.trans (hm.target_eq htrue))
    rw [← hs] at htrue hmovt hend hret
    have hw : m.value s.next (.sym (.fixed .true)) = some 1 := by rw [value, hm.symbol_true]
    refine .cons (step_label htrue) (.cons (step_mov_eax (s := s.next) hmovt hw) ?_)
    exact hlast hend hret rfl rfl rfl

/-- The routine of a relation answers whether it holds. -/
theorem answer_relation (hm : m.Image fs) {op : Relation} {f : Flags} {r : Nat}
    (hpc : m.target op.routine = some s.pc) (hf : s.flags = some f) (ha : s.esp.toNat % 4 = 0)
    (htop : s.stack s.esp.toNat = .code r) :
    m.Steps s { s with pc := r, eax := Word.ofBool (op.test f), esp := s.esp + 4 } := by
  have h := hm.at_comparisons
  simp only [comparisons, At] at h
  obtain ⟨-, heq, hje, hjmpe, -, hgt, hjg, hjmpg, -, hlt, hjl, hjmpl, -, hfalse, -, -, htrue, -⟩ := h
  have hfalse := hm.target_eq hfalse
  have htrue := hm.target_eq htrue
  -- A conditional jump to one answer, then a jump to the other.
  have run {i : Instr} {test : Flags → Bool}
      (hlabel : m.lines[s.pc]? = some (.label op.routine))
      (hi : m.lines[s.pc + 1]? = some (.instr i))
      (hj : m.lines[s.pc + 1 + 1]? = some (.instr (.jmp (.fixed .answerFalse))))
      (hx : ∀ s, m.exec s i = m.jumpIf s (.fixed .answerTrue) test) :
      m.Steps s { s with pc := r, eax := Word.ofBool (test f), esp := s.esp + 4 } := by
    refine .cons (step_label hlabel) (.cons (step_jumpIf (s := s.next) hi (hx _) hf htrue) ?_)
    cases htest : test f with
    | true => exact answer (s := { s with pc := _ }) hm true htrue ha htop
    | false =>
      refine .cons (step_jmp (s := s.next.next) hj hfalse) ?_
      exact answer (s := { s with pc := _ }) hm false hfalse ha htop
  cases op with
  | greater =>
    have hs := Option.some.inj (hpc.symm.trans (hm.target_eq hgt))
    rw [← hs] at hgt hjg hjmpg
    exact run hgt hjg hjmpg fun _ => rfl
  | less =>
    have hs := Option.some.inj (hpc.symm.trans (hm.target_eq hlt))
    rw [← hs] at hlt hjl hjmpl
    exact run hlt hjl hjmpl fun _ => rfl
  | equal =>
    have hs := Option.some.inj (hpc.symm.trans (hm.target_eq heq))
    rw [← hs] at heq hje hjmpe
    exact run heq hje hjmpe fun _ => rfl

/-- Sign extension to EDX and EAX. -/
theorem toInt_extend (a : Word) : ((if a.msb then -1 else 0 : Word) ++ a).toInt = a.toInt := by
  have h := BitVec.msb_eq_decide a
  rw [BitVec.toInt_append, BitVec.toInt_eq_toNat_cond a]
  cases hm : a.msb
  · rw [hm] at h
    simp at h ⊢
    omega
  · rw [hm] at h
    simp at h ⊢
    omega

/-- A quotient that exists is that of the numbers, and its divisor is not zero. -/
theorem toInt_quotient {a b w : Word} (h : (BinaryOp.arith .div).eval? a b = some w) :
    b ≠ 0 ∧ a.toInt.tdiv b.toInt = w.toInt := by
  rw [BinaryOp.eval?] at h
  split at h
  · cases h
  rename_i hdef
  rw [not_or] at hdef
  cases h
  refine ⟨hdef.1, (BitVec.toInt_sdiv_of_ne_or_ne a b ?_).symm⟩
  by_cases ha : a = BitVec.intMin 32
  · exact .inr fun hb => hdef.2 ⟨ha, hb⟩
  · exact .inl ha

theorem ofInt_mul (a b : Word) : BitVec.ofInt 32 (a.toInt * b.toInt) = a * b :=
  BitVec.eq_of_toInt_eq (by rw [BitVec.toInt_ofInt]; exact (BitVec.toInt_mul _ _).symm)

/-- A quotient that exists is the one that the machine finds. -/
theorem divide_eq {w : Word} (hx : (s.edx ++ s.eax).toInt = s.eax.toInt)
    (hw : (BinaryOp.arith .div).eval? s.eax s.ebx = some w) :
    ∃ r, s.divide s.ebx = some { s.next with eax := w, edx := r, flags := none } := by
  obtain ⟨hzero, hq⟩ := toInt_quotient hw
  have hlt := BitVec.toInt_lt (x := w)
  have hle := BitVec.le_toInt w
  have hfits : ¬ (s.ebx = 0 ∨ w.toInt < -2 ^ 31 ∨ 2 ^ 31 ≤ w.toInt) := by
    rintro (h | h | h)
    · exact hzero h
    · omega
    · omega
  refine ⟨BitVec.ofInt 32 (s.eax.toInt.tmod s.ebx.toInt), ?_⟩
  simp only [State.divide, hx, hq, if_neg hfits, BitVec.ofInt_toInt]

theorem run_arith {op : Arith} {w : Word} (hw : (BinaryOp.arith op).eval? s.eax s.ebx = some w)
    (hat : m.At s.pc (BinaryOp.arith op).code) :
    ∃ s', m.Steps s s' ∧ s'.pc = s.pc + (BinaryOp.arith op).code.length ∧ s'.eax = w ∧
      Keeps s s' ∧ s'.world = s.world := by
  cases op with
  | div =>
    obtain ⟨hcdq, hdiv, -⟩ := hat
    obtain ⟨r, hr⟩ := divide_eq (s := { s.next with edx := if s.eax.msb then -1 else 0 })
      (toInt_extend s.eax) hw
    exact ⟨_, .cons (step_instr hcdq) (.single ((step_instr
      (s := { s.next with edx := if s.eax.msb then -1 else 0 }) hdiv).trans hr)), rfl, rfl,
      ⟨rfl, rfl, fun _ _ => rfl⟩, rfl⟩
  | mul =>
    cases hw
    refine ⟨_, .single (step_instr hat.1), rfl, ?_, ⟨rfl, rfl, fun _ _ => rfl⟩, rfl⟩
    exact ofInt_mul s.eax s.ebx
  | add | sub | and | or =>
    cases hw
    exact ⟨_, .single (step_instr hat.1), rfl, rfl, ⟨rfl, rfl, fun _ _ => rfl⟩, rfl⟩

theorem run_compare (hm : m.Image fs) {op : Relation} {l r : Operand} {a b : Word}
    (hcmp : m.lines[s.pc]? = some (.instr (.cmp l r)))
    (hcall : m.lines[s.pc + 1]? = some (.instr (.call op.routine)))
    (hl : m.value s l = some a) (hr : m.value s r = some b) (he : 4 ≤ s.esp.toNat)
    (ha : s.esp.toNat % 4 = 0) :
    ∃ s', m.Steps s s' ∧ s'.pc = s.pc + 2 ∧
      s'.eax = Word.ofBool (op.holds (compare a.toInt b.toInt)) ∧ Keeps s s' ∧
      s'.world = s.world := by
  obtain ⟨k, hk⟩ := hm.target_routine op
  obtain ⟨s₂, hs₂, hpc, hp⟩ := step_call (s := (s.setFlags (some (.ofSub a b))).next) hcall hk he ha
  have hesp := hp.esp
  have hrun := answer_relation hm (s := s₂) (by rw [hpc]; exact hk) hp.flags
    (by simp only [State.next, State.setFlags] at hesp; omega) hp.top
  rw [Relation.test_ofSub, hp.esp_eq] at hrun
  refine ⟨_, .cons (step_cmp hcmp hl hr) (.cons hs₂ hrun), rfl, rfl, ⟨rfl, hp.ebp, ?_⟩, hp.world⟩
  intro a ha
  exact hp.stack a ha

/-- The code of a binary operator leaves its result in EAX. -/
theorem run_code (hm : m.Image fs) (op : BinaryOp) {w : Word}
    (hw : op.eval? s.eax s.ebx = some w) (hat : m.At s.pc op.code) (he : 4 ≤ s.esp.toNat)
    (ha : s.esp.toNat % 4 = 0) :
    ∃ s', m.Steps s s' ∧ s'.pc = s.pc + op.code.length ∧ s'.eax = w ∧ Keeps s s' ∧
      s'.world = s.world := by
  rcases op with op | op | _
  · exact run_arith hw hat
  · obtain ⟨hcmp, hcall, -⟩ := hat
    cases hw
    exact run_compare hm hcmp hcall rfl rfl he ha
  · cases hw

theorem compare_zero (a : Word) :
    Relation.equal.holds (compare a.toInt (0 : Word).toInt) = (a == 0) := by
  rw [Relation.holds, Bool.eq_iff_iff, beq_iff_eq, beq_iff_eq, Int.compare_eq_eq, BitVec.toInt_inj]

theorem run_unary (hm : m.Image fs) (op : UnaryOp) (hat : m.At s.pc (op.code.map .instr))
    (he : 4 ≤ s.esp.toNat) (ha : s.esp.toNat % 4 = 0) :
    ∃ s', m.Steps s s' ∧ s'.pc = s.pc + op.code.length ∧ s'.eax = op.eval s.eax ∧ Keeps s s' ∧
      s'.world = s.world := by
  cases op with
  | plus => exact ⟨s, .refl, rfl, rfl, .refl s, rfl⟩
  | neg => exact ⟨_, .single (step_instr hat.1), rfl, rfl, ⟨rfl, rfl, fun _ _ => rfl⟩, rfl⟩
  | not =>
    obtain ⟨hcmp, hcall, -⟩ := hat
    have hequal : m.lines[s.pc + 1]? = some (.instr (.call Relation.equal.routine)) := hcall
    have hfalse : m.value s (.sym (.fixed .false)) = some 0 := by rw [value, hm.symbol_false]
    have hrun := run_compare hm hcmp hequal rfl hfalse he ha
    rw [State.reg, compare_zero] at hrun
    exact hrun

/-- Two words are put on the stack for an outside routine and taken off again. -/
theorem run_external {f : Symbol} {first second : Operand} {w₁ w₂ : Word} {ω : World}
    {P : (Symbol → Word) → Prop}
    (hat : m.At s.pc [.instr (.push first), .instr (.push second), .instr (.call f),
      .instr (.add (.reg .esp) (.imm 8))])
    (hf : m.target f = none) (h₁ : m.value s first = some w₁)
    (h₂ : ∀ s', m.value s' second = some w₂) (he : 8 ≤ s.esp.toNat) (ha : s.esp.toNat % 4 = 0)
    (hx : ∀ s', s'.loadWord s'.esp = some w₂ → s'.loadWord (s'.esp + 4) = some w₁ →
      s'.world = s.world →
      ∃ d, m.external s' f = some { m.outside s' with data := d, world := ω } ∧ P d) :
    ∃ s', m.Steps s s' ∧ s'.pc = s.pc + 4 ∧ Keeps s s' ∧ s'.world = ω ∧ P s'.data := by
  obtain ⟨hpush₁, hpush₂, hcall, hadd, -⟩ := hat
  obtain ⟨s₁, hs₁, hpc₁, hp₁⟩ := step_push hpush₁ h₁ (by omega) ha
  have hesp₁ := hp₁.esp
  rw [← hpc₁] at hpush₂ hcall hadd
  obtain ⟨s₂, hs₂, hpc₂, hp₂⟩ := step_push hpush₂ (h₂ s₁) (by omega) (by omega)
  have hesp₂ := hp₂.esp
  rw [← hpc₂] at hcall hadd
  have htop : s₂.loadWord s₂.esp = some w₂ := loadWord_eq (by omega) hp₂.top
  have hnext : s₂.loadWord (s₂.esp + 4) = some w₁ := by
    rw [hp₂.esp_eq]
    exact loadWord_eq (by omega) ((hp₂.stack _ (Nat.le_refl _)).trans hp₁.top)
  obtain ⟨d, hd, hP⟩ := hx s₂ htop hnext (hp₂.world.trans hp₁.world)
  have hs₃ := step_instr hcall
  rw [exec, hf] at hs₃
  refine ⟨_, .cons hs₁ (.cons hs₂ (.cons (hs₃.trans hd) (.single (step_add_esp hadd)))), ?_, ?_,
    rfl, hP⟩
  · show s₂.pc + 1 + 1 = s.pc + 4
    omega
  · have hback : s₂.esp + 8#32 = s.esp := by
      rw [← hp₁.esp_eq, ← hp₂.esp_eq, BitVec.add_assoc]
      rfl
    refine ⟨hback, hp₂.ebp.trans hp₁.ebp, fun a ha => ?_⟩
    have hge : ¬ a < s₂.esp.toNat + 8 := by omega
    show (if a < s₂.esp.toNat + 8 then _ else _) = _
    rw [if_neg hge, hp₂.stack a (by omega), hp₁.stack a ha]


theorem external_scanf (hm : m.Image fs) {w : Word} {input printed : List Word}
    (htop : s.loadWord s.esp = some (m.address (.fixed .formatin)))
    (hnext : s.loadWord (s.esp + 4) = some (m.address (.fixed .scanint)))
    (hworld : s.world = ⟨w :: input, printed⟩) :
    m.external s (.fixed .scanf) = some { m.outside s with
      data := fun x => if x = .fixed .scanint then w else s.data x
      world := ⟨input, printed⟩ } := by
  have hext : .external (.fixed .scanf) ∈ m.lines := hm.mem_of_head (by decide)
  have hdata : Line.data (.fixed .formatin) [.chars "%d", .byte 0] ∈ m.lines :=
    hm.mem_of_head (by decide)
  have hholds : m.holds (.fixed .formatin) [.chars "%d", .byte 0] = true :=
    List.any_eq_true.mpr ⟨_, hdata, by decide⟩
  unfold external
  simp only [if_pos hext, htop, hnext, hworld, hholds, and_self, if_true]

theorem external_printf (hm : m.Image fs) {w : Word} {ω : World}
    (htop : s.loadWord s.esp = some (m.address (.fixed .formatout)))
    (hnext : s.loadWord (s.esp + 4) = some w) (hworld : s.world = ω) :
    m.external s (.fixed .printf) = some { m.outside s with
      world := { ω with printed := ω.printed ++ [w] } } := by
  have hext : .external (.fixed .printf) ∈ m.lines := hm.mem_of_head (by decide)
  have hdata : Line.remark (.data (.fixed .formatout) [.chars "%d", .byte 10, .byte 0])
      "newline, nul terminator" ∈ m.lines := hm.mem_of_head (by decide)
  have hholds : m.holds (.fixed .formatout) [.chars "%d", .byte 10, .byte 0] = true :=
    List.any_eq_true.mpr ⟨_, hdata, by decide⟩
  unfold external
  simp only [if_pos hext, htop, hnext, hholds, and_self, if_true, hworld]

theorem run_read (hm : m.Image fs) (hat : m.At s.pc (readCode.map .instr)) {w : Word}
    {input printed : List Word} (hw : s.world = ⟨w :: input, printed⟩) (he : 8 ≤ s.esp.toNat)
    (ha : s.esp.toNat % 4 = 0) :
    ∃ s', m.Steps s s' ∧ s'.pc = s.pc + readCode.length ∧ s'.eax = w ∧ Keeps s s' ∧
      s'.world = ⟨input, printed⟩ := by
  obtain ⟨hat, hmov, -⟩ := (at_append (a := (readCode.map .instr).take 4)).mp hat
  have hplace : m.symbol (.fixed .scanint) = m.address (.fixed .scanint) :=
    hm.symbol_eq_address (l := .remark (.zeros (.fixed .scanint) 4) "32-bit integer")
      (hm.mem_of_head (by decide)) rfl (by simp)
  have hform : m.symbol (.fixed .formatin) = m.address (.fixed .formatin) :=
    hm.symbol_eq_address (l := .data (.fixed .formatin) [.chars "%d", .byte 0])
      (hm.mem_of_head (by decide)) rfl (by simp)
  have hnone : m.target (.fixed .scanf) = none := hm.target_eq_none (hm.mem_of_head (by decide))
  obtain ⟨s₁, hs₁, hpc₁, hk₁, hw₁, hd₁⟩ := run_external hat hnone
    (by rw [value, hplace]) (fun s' => by rw [value, hform]) he ha
    (P := fun d => d (.fixed .scanint) = w) fun s' htop hnext hworld =>
      ⟨_, external_scanf hm htop hnext (hworld.trans hw), if_pos rfl⟩
  change m.lines[s.pc + 4]? = _ at hmov
  rw [← hpc₁] at hmov
  refine ⟨_, hs₁.trans (.single (step_mov_eax hmov rfl)), ?_, hd₁,
    ⟨hk₁.esp, hk₁.ebp, hk₁.stack⟩, hw₁⟩
  show s₁.pc + 1 = _
  rw [hpc₁]
  rfl

theorem run_print (hm : m.Image fs) (hat : m.At s.pc (printCode.map .instr))
    (he : 8 ≤ s.esp.toNat) (ha : s.esp.toNat % 4 = 0) :
    ∃ s', m.Steps s s' ∧ s'.pc = s.pc + printCode.length ∧ Keeps s s' ∧
      s'.world = { s.world with printed := s.world.printed ++ [s.eax] } := by
  have hform : m.symbol (.fixed .formatout) = m.address (.fixed .formatout) :=
    hm.symbol_eq_address
      (l := .remark (.data (.fixed .formatout) [.chars "%d", .byte 10, .byte 0])
        "newline, nul terminator") (hm.mem_of_head (by decide)) rfl (by simp)
  have hnone : m.target (.fixed .printf) = none := hm.target_eq_none (hm.mem_of_head (by decide))
  obtain ⟨s₁, hs₁, hpc₁, hk₁, hw₁, -⟩ := run_external hat hnone rfl
    (fun s' => by rw [value, hform]) he ha
    (P := fun _ => True) fun s' htop hnext hworld =>
      ⟨_, external_printf hm htop hnext hworld, trivial⟩
  exact ⟨s₁, hs₁, hpc₁, hk₁, hw₁⟩

/-- The jump is taken if EAX is zero. -/
theorem run_jumpIfFalse (hm : m.Image fs) {x : Symbol} {k : Nat}
    (hat : m.At s.pc ((jumpIfFalse x).map .instr)) (hx : m.target x = some k) :
    ∃ s', m.Steps s s' ∧ s'.pc = (if s.eax = 0 then k else s.pc + 2) ∧ Keeps s s' ∧
      s'.world = s.world := by
  obtain ⟨hcmp, hje, -⟩ := hat
  have hfalse : m.value s (.sym (.fixed .false)) = some 0 := by rw [value, hm.symbol_false]
  have hs₁ := step_cmp hcmp rfl hfalse
  have hs₂ := step_jumpIf (s := (s.setFlags (some (.ofSub s.eax 0))).next) hje rfl rfl hx
  refine ⟨_, .cons hs₁ (.single hs₂), ?_, ⟨rfl, rfl, fun _ _ => rfl⟩, rfl⟩
  have htest : (Flags.ofSub s.eax 0).equal = true ↔ s.eax = 0 := by
    rw [Flags.equal_ofSub, decide_eq_true_eq, BitVec.toInt_inj]
  show (if (Flags.ofSub s.eax 0).equal = true then k else s.pc + 1 + 1) = _
  simp only [htest]

end Machine
end Onepass
