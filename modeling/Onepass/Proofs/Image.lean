import Onepass.Proofs.Machine
import Onepass.Proofs.Symbols

/-!
# Onepass.Proofs.Image

A linked listing on the machine. `Image m fs` says that the machine has a listing in which every
symbol has one meaning, with the fixed part in front and the routines of the functions `fs`.

* `target_eq`, `symbol_eq` -- a label is where it stands, a constant is what its line says.
* `step_push`, ...         -- what the machine does at one line.
-/

namespace Onepass

open Assembly

namespace Word

theorem toNat_sub_four {a : Word} (h : 4 ≤ a.toNat) : (a - 4).toNat = a.toNat - 4 := by
  bv_omega

theorem toNat_add_four {a : Word} (h : a.toNat + 4 < 2 ^ 32) : (a + 4).toNat = a.toNat + 4 := by
  bv_omega

end Word

namespace Machine

variable {m : Machine} {s s' s'' : State}

/-- The lines `c` stand from line `k` on. -/
def At (m : Machine) : Nat → List Line → Prop
  | _, [] => True
  | k, l :: ls => m.lines[k]? = some l ∧ At m (k + 1) ls

theorem at_append {k : Nat} {a b : List Line} :
    m.At k (a ++ b) ↔ m.At k a ∧ m.At (k + a.length) b := by
  induction a generalizing k with
  | nil => simp [At]
  | cons l a ih =>
    simp only [List.cons_append, At, ih, List.length_cons, and_assoc]
    rw [Nat.add_assoc, Nat.add_comm 1]

theorem at_of_lines {pre c post : List Line} (h : m.lines = pre ++ c ++ post) :
    m.At pre.length c := by
  induction c generalizing pre with
  | nil => trivial
  | cons l c ih =>
    refine ⟨by simp [h], ?_⟩
    have := @ih (pre ++ [l]) (by simpa using h)
    simpa using this

/-! ## Single lines -/

theorem step_instr {i : Instr} (h : m.lines[s.pc]? = some (.instr i)) :
    m.step s = m.exec s i := by
  simp [step, h]

theorem step_label {x : Symbol} (h : m.lines[s.pc]? = some (.label x)) :
    m.step s = some s.next := by
  simp [step, h]

/-- A cell is put on the stack. -/
structure Pushed (s s' : State) (c : Cell) : Prop where
  esp : s'.esp.toNat + 4 = s.esp.toNat
  top : s'.stack s'.esp.toNat = c
  stack : ∀ a, s.esp.toNat ≤ a → s'.stack a = s.stack a
  eax : s'.eax = s.eax
  ebx : s'.ebx = s.ebx
  ebp : s'.ebp = s.ebp
  flags : s'.flags = s.flags
  world : s'.world = s.world

theorem push_eq (c : Cell) (he : 4 ≤ s.esp.toNat) (ha : s.esp.toNat % 4 = 0) (k : Nat) :
    ∃ s', s.push c = some s' ∧ Pushed s { s' with pc := k } c := by
  have hesp := Word.toNat_sub_four he
  refine ⟨_, by rw [State.push, State.store, if_pos (by rw [hesp]; omega)], ?_⟩
  refine ⟨by simp only [hesp]; omega, by simp, fun a ha => ?_, rfl, rfl, rfl, rfl, rfl⟩
  have hne : a ≠ (s.esp - 4).toNat := by omega
  simp only [if_neg hne]

theorem step_push {src : Operand} {w : Word}
    (h : m.lines[s.pc]? = some (.instr (.push src))) (hw : m.value s src = some w)
    (he : 4 ≤ s.esp.toNat) (ha : s.esp.toNat % 4 = 0) :
    ∃ s', m.step s = some s' ∧ s'.pc = s.pc + 1 ∧ Pushed s s' (.word w) := by
  obtain ⟨s', hs', hp⟩ := push_eq (.word w) he ha (s.pc + 1)
  have hpc : s'.pc = s.pc := by
    rw [State.push, State.store] at hs'
    split at hs'
    · cases hs'
      rfl
    · cases hs'
  refine ⟨s'.next, by rw [step_instr h, exec, hw, Option.bind_some, hs', Option.map_some], ?_, ?_⟩
  · rw [State.next, hpc]
  · rw [State.next, hpc]
    exact hp

theorem step_call {x : Symbol} {k : Nat} (h : m.lines[s.pc]? = some (.instr (.call x)))
    (ht : m.target x = some k) (he : 4 ≤ s.esp.toNat) (ha : s.esp.toNat % 4 = 0) :
    ∃ s', m.step s = some s' ∧ s'.pc = k ∧ Pushed s s' (.code (s.pc + 1)) := by
  obtain ⟨s', hs', hp⟩ := push_eq (.code (s.pc + 1)) he ha k
  exact ⟨_, by rw [step_instr h, exec, ht]; simp only [hs', Option.map_some], rfl, hp⟩

theorem step_pop {r : Reg} {w : Word} (h : m.lines[s.pc]? = some (.instr (.pop r)))
    (ha : s.esp.toNat % 4 = 0) (htop : s.stack s.esp.toNat = .word w) :
    m.step s = some ({ s with esp := s.esp + 4 }.setReg r w).next := by
  rw [step_instr h, exec, State.loadWord, State.load, if_pos ha, htop, Option.map_some]

theorem step_ret {k : Nat} (h : m.lines[s.pc]? = some (.instr .ret)) (ha : s.esp.toNat % 4 = 0)
    (htop : s.stack s.esp.toNat = .code k) :
    m.step s = some { s with pc := k, esp := s.esp + 4 } := by
  rw [step_instr h, exec, State.load, if_pos ha, htop]

theorem step_jmp {x : Symbol} {k : Nat} (h : m.lines[s.pc]? = some (.instr (.jmp x)))
    (ht : m.target x = some k) : m.step s = some { s with pc := k } := by
  rw [step_instr h, exec, jump, ht, Option.map_some]

theorem step_cmp {a b : Word} {l r : Operand} (h : m.lines[s.pc]? = some (.instr (.cmp l r)))
    (hl : m.value s l = some a) (hr : m.value s r = some b) :
    m.step s = some (s.setFlags (some (.ofSub a b))).next := by
  rw [step_instr h, exec, hl, hr]
  rfl

theorem Pushed.esp_eq {c : Cell} (h : Pushed s s' c) : s'.esp + 4 = s.esp := by
  have := h.esp
  have := s.esp.isLt
  apply BitVec.eq_of_toNat_eq
  rw [Word.toNat_add_four (by omega)]
  omega

theorem loadWord_eq {a : Word} {w : Word} (ha : a.toNat % 4 = 0) (hw : s.stack a.toNat = .word w) :
    s.loadWord a = some w := by
  rw [State.loadWord, State.load, if_pos ha, hw]

theorem step_mov_eax {src : Operand} {w : Word}
    (h : m.lines[s.pc]? = some (.instr (.mov (.reg .eax) src))) (hw : m.value s src = some w) :
    m.step s = some { s with pc := s.pc + 1, eax := w } := by
  rw [step_instr h, exec, hw]
  rfl

theorem step_jumpIf {i : Instr} {x : Symbol} {test : Flags → Bool} {f : Flags} {k : Nat}
    (h : m.lines[s.pc]? = some (.instr i)) (hi : m.exec s i = m.jumpIf s x test)
    (hf : s.flags = some f) (ht : m.target x = some k) :
    m.step s = some { s with pc := if test f then k else s.pc + 1 } := by
  have hj : m.jumpIf s x test = if test f then m.jump s x else some s.next := by
    rw [jumpIf, hf, Option.bind_some]
  rw [step_instr h, hi, hj, jump, ht]
  cases test f <;> rfl

theorem step_add_esp {n : Nat}
    (h : m.lines[s.pc]? = some (.instr (.add (.reg .esp) (.imm n)))) :
    m.step s = some { s with pc := s.pc + 1, esp := s.esp + BitVec.ofNat 32 n, flags := none } := by
  rw [step_instr h, exec, operate, value, value, Option.bind_some, Option.bind_some,
    BitVec.ofInt_natCast]
  rfl

/-! ## Listings in place -/

/-- A label is where it stands in lines in front that define it once, whatever lies behind. -/
theorem target_eq_of_prefix {front : List Line} (hfront : front <+: m.lines)
    (hd : (definitions front).Nodup) {x : Symbol} {k : Nat} (h : front[k]? = some (.label x)) :
    m.target x = some k := by
  obtain ⟨rest, hrest⟩ := hfront
  obtain ⟨hk, hl⟩ := List.getElem?_eq_some_iff.mp h
  have hfound : front.findIdx? (fun l => l = .label x) = some k := by
    rw [List.findIdx?_eq_some_iff_getElem]
    refine ⟨hk, by simpa using hl, fun j hj hjl => ?_⟩
    have hjk : front[j]? = some (.label x) := by
      rw [List.getElem?_eq_getElem (by omega)]
      simpa using hjl
    have := index_of_defines hd hjk h rfl rfl
    omega
  rw [target, ← hrest, List.findIdx?_append, hfound]
  rfl

/-- A constant is what its line says in lines in front that define it once. -/
theorem symbol_eq_of_prefix {front : List Line} (hfront : front <+: m.lines)
    (hd : (definitions front).Nodup) {x : Symbol} {n : Int} (h : .equ x n ∈ front) :
    m.symbol x = BitVec.ofInt 32 n := by
  obtain ⟨rest, hrest⟩ := hfront
  obtain ⟨before, behind, rfl⟩ := List.append_of_mem h
  have hconstant : m.constant? x = some (BitVec.ofInt 32 n) := by
    rw [constant?, ← hrest, List.findSome?_append, Option.or_eq_some_iff,
      List.findSome?_eq_some_iff]
    refine .inl ⟨before, _, behind, rfl, if_pos rfl, fun l hl => ?_⟩
    split
    · rename_i y k
      refine if_neg ?_
      rintro rfl
      rw [definitions, List.filterMap_append, List.nodup_append] at hd
      exact hd.2.2 y (List.mem_filterMap.mpr ⟨_, hl, rfl⟩) y
        (List.mem_filterMap.mpr ⟨_, List.mem_cons_self, rfl⟩) rfl
    · rfl
  rw [symbol, hconstant]
  rfl

structure Image (m : Machine) (fs : List Function) : Prop where
  nodup : (definitions m.lines ++ externals m.lines).Nodup
  head : head <+: m.lines
  routines : ∀ f ∈ fs, ∃ r, f.LowersTo r ∧ r <:+: m.lines

namespace Image

variable {fs : List Function}

theorem target_eq (hm : m.Image fs) {x : Symbol} {k : Nat}
    (h : m.lines[k]? = some (.label x)) : m.target x = some k :=
  target_eq_of_prefix List.prefix_rfl hm.nodup.of_append_left h

/-- What the outside has is not defined. -/
theorem target_eq_none (hm : m.Image fs) {x : Symbol} (h : .external x ∈ m.lines) :
    m.target x = none := by
  rw [target, List.findIdx?_eq_none_iff]
  intro l hl
  simp only [decide_eq_false_iff_not]
  rintro rfl
  have hdef : x ∈ definitions m.lines := List.mem_filterMap.mpr ⟨_, hl, rfl⟩
  have hext : x ∈ externals m.lines := List.mem_filterMap.mpr ⟨_, h, rfl⟩
  exact (List.nodup_append.mp hm.nodup).2.2 x hdef x hext rfl

theorem symbol_eq (hm : m.Image fs) {x : Symbol} {n : Int} (h : .equ x n ∈ m.lines) :
    m.symbol x = BitVec.ofInt 32 n :=
  symbol_eq_of_prefix List.prefix_rfl hm.nodup.of_append_left h

theorem mem_of_head (hm : m.Image fs) {l : Line} (h : l ∈ Assembly.head) : l ∈ m.lines :=
  hm.head.subset h

theorem symbol_false (hm : m.Image fs) : m.symbol (.fixed .false) = 0 :=
  hm.symbol_eq (hm.mem_of_head (by decide : Line.equ (.fixed .false) 0 ∈ Assembly.head))

theorem symbol_true (hm : m.Image fs) : m.symbol (.fixed .true) = 1 :=
  hm.symbol_eq (hm.mem_of_head (by decide : Line.equ (.fixed .true) 1 ∈ Assembly.head))

/-- A symbol that is defined, but not as a constant, stands for its address. -/
theorem symbol_eq_address (hm : m.Image fs) {l : Line} {x : Symbol} (hl : l ∈ m.lines)
    (hd : l.defines = some x) (hne : ∀ n, l ≠ .equ x n) : m.symbol x = m.address x := by
  have hc : m.constant? x = none := by
    rw [constant?, List.findSome?_eq_none_iff]
    intro l' hl'
    split
    · rename_i y n
      split
      · rename_i hy
        subst hy
        exact absurd (eq_of_defines hm.nodup.of_append_left hl hl' hd rfl) (hne n)
      · rfl
    · rfl
  rw [symbol, hc]
  rfl

/-- Where the routines stand that answer from flags. -/
def comparisonsAt : Nat :=
  (constants ++ [Line.blank] ++ storage ++ [Line.blank] ++ linkage ++ [Line.blank]).length

theorem at_comparisons_of_prefix (h : Assembly.head <+: m.lines) :
    m.At comparisonsAt comparisons := by
  obtain ⟨rest, hrest⟩ := h
  have hlines : m.lines = (constants ++ [Line.blank] ++ storage ++ [Line.blank] ++ linkage ++
      [Line.blank]) ++ comparisons ++ ([.blank] ++ entry ++ rest) := by
    rw [← hrest, Assembly.head]
    simp only [List.append_assoc]
  exact at_of_lines hlines

theorem at_comparisons (hm : m.Image fs) : m.At comparisonsAt comparisons :=
  at_comparisons_of_prefix hm.head

theorem target_routine (hm : m.Image fs) (op : Relation) :
    ∃ k, m.target op.routine = some k := by
  have h := hm.at_comparisons
  simp only [comparisons, At] at h
  obtain ⟨-, heq, -, -, -, hgt, -, -, -, hlt, -⟩ := h
  cases op with
  | greater => exact ⟨_, hm.target_eq hgt⟩
  | less => exact ⟨_, hm.target_eq hlt⟩
  | equal => exact ⟨_, hm.target_eq heq⟩

end Image
end Machine
end Onepass
