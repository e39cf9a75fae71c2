import Onepass.Proofs.Fragments
import Onepass.Proofs.Layout

/-!
# Onepass.Proofs.Activation

A frame on the stack while its code runs. The scope `S` is the frame as it is when all of its code
is lowered, so that it has all variables from the start.

* `Inside S σ s` -- the machine is in such a frame, and the variables that have a value have it
  in memory.
* `Owns S b a`   -- the address `a` is a variable's, in the frame with the base `b`.
* `Stays S s s'` -- a run that ends with the stack as it found it but for the variables.
-/

namespace Onepass
namespace Machine

open Assembly Lowering

variable {m : Machine} {s s' s'' : State} {S : Scope} {σ : Store}

/-- The address is a variable's, in the frame with the base `b`. -/
def Owns (S : Scope) (b : Word) (a : Nat) : Prop :=
  ∃ x offset, S.place? x = some offset ∧ a = (b - offset).toNat

structure Inside (S : Scope) (σ : Store) (s : State) : Prop where
  aligned : s.esp.toNat % 4 = 0
  base : s.ebp.toNat % 4 = 0
  below : s.esp.toNat + 4 * S.locals ≤ s.ebp.toNat
  above : s.ebp.toNat + 4 * (S.params + 2) ≤ 2 ^ 32
  holds : ∃ ps ds, S.Holds ps ds
  store : ∀ x w, σ x = some w →
    ∃ offset, S.place? x = some offset ∧ s.stack (s.ebp - offset).toNat = .word w

theorem toNat_sub_local {b : Word} {i : Nat} (h : 4 * (i + 1) ≤ b.toNat) :
    (b - Scope.localOffset (i + 1)).toNat = b.toNat - 4 * (i + 1) := by
  have hb := b.isLt
  have hk := Word.toNat_ofNat (k := 4 * (i + 1)) (by omega)
  rw [Scope.localOffset, BitVec.toNat_sub, hk]
  omega

theorem toNat_sub_param {b : Word} {i : Nat} (h : b.toNat + 4 * (i + 2) < 2 ^ 32) :
    (b - Scope.paramOffset (i + 1)).toNat = b.toNat + 4 * (i + 2) := by
  have hk := Word.toNat_ofNat (k := 4 * (i + 2)) (by omega)
  rw [Scope.paramOffset, BitVec.sub_neg, BitVec.toNat_add, hk]
  omega

namespace Inside

/-- The address of a variable is below the base, or above the return address. -/
theorem address (h : Inside S σ s) {ps ds : List String} (hS : S.Holds ps ds) {x : String}
    {offset : Word} (hx : S.place? x = some offset) :
    (∃ i, ds[i]? = some x ∧ i < S.locals ∧
      (s.ebp - offset).toNat = s.ebp.toNat - 4 * (i + 1)) ∨
    ∃ i, ps[i]? = some x ∧ i < S.params ∧ (s.ebp - offset).toNat = s.ebp.toNat + 4 * (i + 2) := by
  have hbelow := h.below
  have habove := h.above
  rcases List.mem_append.mp (hS.known x offset hx) with hmem | hmem
  · obtain ⟨i, hi⟩ := List.mem_iff_getElem?.mp hmem
    have hlt := (List.getElem?_eq_some_iff.mp hi).1
    rw [hS.param i x hi] at hx
    cases hx
    rw [← hS.params] at hlt
    exact .inr ⟨i, hi, hlt, toNat_sub_param (by omega)⟩
  · obtain ⟨i, hi⟩ := List.mem_iff_getElem?.mp hmem
    have hlt := (List.getElem?_eq_some_iff.mp hi).1
    rw [hS.var i x hi] at hx
    cases hx
    rw [← hS.locals] at hlt
    exact .inl ⟨i, hi, hlt, toNat_sub_local (by omega)⟩

/-- Where the variables are: aligned, on the stack, and not where the frame is linked to the one
before it. -/
theorem owns (h : Inside S σ s) {a : Nat} (ha : Owns S s.ebp a) :
    a % 4 = 0 ∧ s.esp.toNat ≤ a ∧ a ≠ s.ebp.toNat ∧ a ≠ s.ebp.toNat + 4 ∧
      a < s.ebp.toNat + 4 * (S.params + 2) := by
  obtain ⟨ps, ds, hS⟩ := h.holds
  obtain ⟨x, offset, hx, rfl⟩ := ha
  have hbelow := h.below
  have hbase := h.base
  rcases h.address hS hx with ⟨i, -, hlt, hi⟩ | ⟨i, -, hlt, hi⟩ <;> omega

theorem injective (h : Inside S σ s) {x y : String} {v w : Word} (hx : S.place? x = some v)
    (hy : S.place? y = some w) (ha : (s.ebp - v).toNat = (s.ebp - w).toNat) : x = y := by
  obtain ⟨ps, ds, hS⟩ := h.holds
  have hbelow := h.below
  rcases h.address hS hx with ⟨i, hxi, hlt, hi⟩ | ⟨i, hxi, hlt, hi⟩ <;>
    rcases h.address hS hy with ⟨j, hyj, hlt', hj⟩ | ⟨j, hyj, hlt', hj⟩
  · have hij : i = j := by omega
    rw [hij, hyj] at hxi
    exact (Option.some.inj hxi).symm
  · omega
  · omega
  · have hij : i = j := by omega
    rw [hij, hyj] at hxi
    exact (Option.some.inj hxi).symm

/-- More on the stack, and the variables as they were. -/
theorem mono (h : Inside S σ s) (hebp : s'.ebp = s.ebp) (hesp : s'.esp.toNat ≤ s.esp.toNat)
    (ha : s'.esp.toNat % 4 = 0) (hst : ∀ a, s.esp.toNat ≤ a → s'.stack a = s.stack a) :
    Inside S σ s' := by
  have hbelow := h.below
  refine ⟨ha, hebp ▸ h.base, by rw [hebp]; omega, hebp ▸ h.above, h.holds, fun x w hx => ?_⟩
  obtain ⟨offset, hp, hw⟩ := h.store x w hx
  refine ⟨offset, hp, ?_⟩
  have hown := h.owns ⟨x, offset, hp, rfl⟩
  rw [hebp, hst _ hown.2.1, hw]

theorem keeps (h : Inside S σ s) (hk : Keeps s s') : Inside S σ s' :=
  h.mono hk.ebp (Nat.le_of_eq (congrArg BitVec.toNat hk.esp)) (hk.esp ▸ h.aligned) hk.stack

theorem pushed (h : Inside S σ s) {c : Cell} (hp : Pushed s s' c) : Inside S σ s' := by
  have := hp.esp
  have := h.aligned
  exact h.mono hp.ebp (by omega) (by omega) hp.stack

theorem setPc (h : Inside S σ s) (k : Nat) : Inside S σ { s with pc := k } :=
  ⟨h.aligned, h.base, h.below, h.above, h.holds, h.store⟩

/-- A variable is read from its place. -/
theorem value_slot (h : Inside S σ s) {x : String} {w offset : Word} (hx : σ x = some w)
    (hp : S.place? x = some offset) : m.value s (.slot offset) = some w := by
  obtain ⟨offset', hp', hw⟩ := h.store x w hx
  rw [hp] at hp'
  cases hp'
  exact loadWord_eq (h.owns ⟨x, offset, hp, rfl⟩).1 hw

end Inside

/-- The state with a word at an address. -/
def State.put (s : State) (a : Nat) (w : Word) : State :=
  { s with stack := fun n => if n = a then .word w else s.stack n }

/-- A variable is written at its place. -/
theorem step_mov_slot (h : Inside S σ s) {x : String} {offset w : Word} {src : Operand}
    (hl : m.lines[s.pc]? = some (.instr (.mov (.slot offset) src)))
    (hv : m.value s src = some w) (hp : S.place? x = some offset) :
    m.step s = some (s.put (s.ebp - offset).toNat w).next := by
  rw [step_instr hl, exec, hv, Option.bind_some, State.assign, State.store,
    if_pos (h.owns ⟨x, offset, hp, rfl⟩).1]
  rfl

theorem Inside.put (h : Inside S σ s) {x : String} {offset : Word} (hp : S.place? x = some offset)
    (w : Word) : Inside S (σ.set x w) (s.put (s.ebp - offset).toNat w) := by
  refine ⟨h.aligned, h.base, h.below, h.above, h.holds, fun y v hy => ?_⟩
  by_cases hyx : y = x
  · subst hyx
    rw [Store.set, if_pos rfl] at hy
    cases hy
    exact ⟨offset, hp, if_pos rfl⟩
  · rw [Store.set, if_neg hyx] at hy
    obtain ⟨offset', hp', hv⟩ := h.store y v hy
    refine ⟨offset', hp', ?_⟩
    have hne : (s.ebp - offset').toNat ≠ (s.ebp - offset).toNat := fun ha =>
      hyx (h.injective hp' hp ha)
    exact (if_neg hne).trans hv

/-- A run in a frame that leaves the stack as it was but for the frame's variables. -/
structure Stays (S : Scope) (s s' : State) : Prop where
  esp : s'.esp = s.esp
  ebp : s'.ebp = s.ebp
  stack : ∀ a, s.esp.toNat ≤ a → ¬ Owns S s.ebp a → s'.stack a = s.stack a

namespace Stays

theorem of_keeps (h : Keeps s s') : Stays S s s' := ⟨h.esp, h.ebp, fun a ha _ => h.stack a ha⟩

theorem trans (h : Stays S s s') (h' : Stays S s' s'') : Stays S s s'' := by
  refine ⟨h'.esp.trans h.esp, h'.ebp.trans h.ebp, fun a ha hn => ?_⟩
  rw [h'.stack a (by rw [h.esp]; exact ha) (by rw [h.ebp]; exact hn), h.stack a ha hn]

theorem put {x : String} {offset : Word} (hp : S.place? x = some offset) (w : Word) :
    Stays S s (s.put (s.ebp - offset).toNat w).next := by
  refine ⟨rfl, rfl, fun a _ hn => ?_⟩
  have hne : a ≠ (s.ebp - offset).toNat := fun ha => hn ⟨x, offset, hp, ha⟩
  exact if_neg hne

/-- The links to the frame before are still there. -/
theorem links (h : Stays S s s') (hs : Inside S σ s) :
    s'.stack s.ebp.toNat = s.stack s.ebp.toNat ∧
      s'.stack (s.ebp.toNat + 4) = s.stack (s.ebp.toNat + 4) := by
  have hbelow := hs.below
  constructor
  · exact h.stack _ (by omega) fun ho => (hs.owns ho).2.2.1 rfl
  · exact h.stack _ (by omega) fun ho => (hs.owns ho).2.2.2.1 rfl

end Stays
end Machine
end Onepass
