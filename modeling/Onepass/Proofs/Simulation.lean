import Onepass.Proofs.Activation
import Onepass.Proofs.Ids

/-!
# Onepass.Proofs.Simulation

Lowered code does what the program says. `Reaches m S s k o ω` says that the machine gets from
`s` to line `k` with the outcome `o` of a piece, in the world `ω`; from a `return` it gets to the
place behind the call instead.

* `Reaches.of_stays`, `Reaches.of_keeps` -- a run goes on where another one has ended.
* `Follows` -- the code of a piece does what one run of the piece does, whatever the frame. Here it
  is shown for expressions and for what changes one variable.
-/

namespace Onepass

open Assembly Lowering

namespace Machine

variable {m : Machine} {s s₁ s' : State} {S : Scope} {σ : Store} {fs : List Function}
  {k k₁ : Nat} {o : Outcome} {ω : World}

/-- Arguments are on the stack, the first at the top. -/
structure PushedAll (s s' : State) (ws : List Word) : Prop where
  esp : s'.esp.toNat + 4 * ws.length = s.esp.toNat
  ebp : s'.ebp = s.ebp
  args : ∀ i w, ws[i]? = some w → s'.stack (s'.esp.toNat + 4 * i) = .word w
  stack : ∀ a, s.esp.toNat ≤ a → s'.stack a = s.stack a

/-- A function is left for the place `r` behind its call, with the base `b` before it. -/
structure Left (S : Scope) (s s' : State) (b : Word) (r : Nat) : Prop where
  pc : s'.pc = r
  ebp : s'.ebp = b
  esp : s'.esp = s.ebp + 8
  stack : ∀ a, s.ebp.toNat + 8 ≤ a → ¬ Owns S s.ebp a → s'.stack a = s.stack a

theorem Inside.pushedAll (h : Inside S σ s) {ws : List Word} (hp : PushedAll s s' ws) :
    Inside S σ s' := by
  have := hp.esp
  have := h.aligned
  exact h.mono hp.ebp (by omega) (by omega) hp.stack

namespace PushedAll

variable {ws : List Word}

theorem keeps (h : PushedAll s s₁ ws) (hk : Keeps s₁ s') : PushedAll s s' ws := by
  have hesp := h.esp
  refine ⟨by rw [hk.esp, hesp], hk.ebp.trans h.ebp, fun i w hw => ?_, fun a ha => ?_⟩
  · rw [hk.esp, hk.stack _ (by omega), h.args i w hw]
  · rw [hk.stack a (by omega), h.stack a ha]

theorem push {w : Word} (h : PushedAll s s₁ ws) (hp : Pushed s₁ s' (.word w)) :
    PushedAll s s' (w :: ws) := by
  have hesp := h.esp
  have hesp' := hp.esp
  refine ⟨by rw [List.length_cons]; omega, hp.ebp.trans h.ebp, ?_, fun a ha => ?_⟩
  · intro i v hv
    cases i with
    | zero =>
      cases hv
      exact hp.top
    | succ i =>
      have ha : s'.esp.toNat + 4 * (i + 1) = s₁.esp.toNat + 4 * i := by omega
      rw [ha, hp.stack _ (by omega), h.args i v hv]
  · rw [hp.stack a (by omega), h.stack a ha]

end PushedAll

def Reaches (m : Machine) (S : Scope) (s : State) (k : Nat) : Outcome → World → Prop
  | .value w, ω => ∃ s', m.Steps s s' ∧ s'.pc = k ∧ s'.eax = w ∧ Keeps s s' ∧ s'.world = ω
  | .values ws, ω => ∃ s', m.Steps s s' ∧ s'.pc = k ∧ PushedAll s s' ws ∧ s'.world = ω
  | .falls σ, ω => ∃ s', m.Steps s s' ∧ s'.pc = k ∧ Inside S σ s' ∧ Stays S s s' ∧ s'.world = ω
  | .returns w, ω => ∀ b r, s.stack s.ebp.toNat = .word b → s.stack (s.ebp.toNat + 4) = .code r →
      ∃ s', m.Steps s s' ∧ s'.eax = w ∧ Left S s s' b r ∧ s'.world = ω

namespace Reaches

/-- Behind a run that changed variables. -/
theorem of_stays (hs : m.Steps s s₁) (hst : Stays S s s₁) (hin : Inside S σ s) (ho : o.Ends)
    (h : Reaches m S s₁ k o ω) : Reaches m S s k o ω := by
  rcases ho with ⟨σ', rfl⟩ | ⟨w, rfl⟩
  · obtain ⟨s', hs', hpc, hin', hst', hω⟩ := h
    exact ⟨s', hs.trans hs', hpc, hin', hst.trans hst', hω⟩
  · intro b r hb hr
    obtain ⟨hl, hl'⟩ := hst.links hin
    rw [← hl, ← hst.ebp] at hb
    rw [← hl', ← hst.ebp] at hr
    obtain ⟨s', hs', hw, hleft, hω⟩ := h b r hb hr
    refine ⟨s', hs.trans hs', hw, ⟨hleft.pc, hleft.ebp, hst.ebp ▸ hleft.esp, ?_⟩, hω⟩
    intro a ha hn
    have hbelow := hin.below
    rw [hleft.stack a (by rw [hst.ebp]; exact ha) (by rw [hst.ebp]; exact hn),
      hst.stack a (by omega) hn]

/-- Behind a run that leaves the stack as it was. -/
theorem of_keeps (hs : m.Steps s s₁) (hk : Keeps s s₁) (hin : Inside S σ s)
    (h : Reaches m S s₁ k o ω) : Reaches m S s k o ω := by
  cases o with
  | value w =>
    obtain ⟨s', hs', hpc, hw, hk', hω⟩ := h
    exact ⟨s', hs.trans hs', hpc, hw, hk.trans hk', hω⟩
  | values ws =>
    obtain ⟨s', hs', hpc, hp, hω⟩ := h
    refine ⟨s', hs.trans hs', hpc, ⟨hk.esp ▸ hp.esp, hp.ebp.trans hk.ebp, hp.args, ?_⟩, hω⟩
    intro a ha
    rw [hp.stack a (by rw [hk.esp]; exact ha), hk.stack a ha]
  | falls σ =>
    obtain ⟨s', hs', hpc, hin', hst, hω⟩ := h
    exact ⟨s', hs.trans hs', hpc, hin', (Stays.of_keeps hk).trans hst, hω⟩
  | returns w => exact of_stays hs (.of_keeps hk) hin (.inr ⟨w, rfl⟩) h

theorem cast (h : Reaches m S s k₁ o ω) (hk : k₁ = k) : Reaches m S s k o ω := hk ▸ h

/-- Before lines that only lead to another place. -/
theorem goto (h : Reaches m S s k₁ o ω)
    (hgo : ∀ s', s'.pc = k₁ → m.Steps s' { s' with pc := k }) : Reaches m S s k o ω := by
  cases o with
  | value w =>
    obtain ⟨s', hs', hpc, hw, hk, hω⟩ := h
    exact ⟨_, hs'.trans (hgo s' hpc), rfl, hw, ⟨hk.esp, hk.ebp, hk.stack⟩, hω⟩
  | values ws =>
    obtain ⟨s', hs', hpc, hp, hω⟩ := h
    exact ⟨_, hs'.trans (hgo s' hpc), rfl, ⟨hp.esp, hp.ebp, hp.args, hp.stack⟩, hω⟩
  | falls σ =>
    obtain ⟨s', hs', hpc, hin, hst, hω⟩ := h
    exact ⟨_, hs'.trans (hgo s' hpc), rfl, hin.setPc k, ⟨hst.esp, hst.ebp, hst.stack⟩, hω⟩
  | returns w => exact h

end Reaches

/-- The code `c` of a piece is about to run in the frame `S`, with room for calls nested `d` deep
that take `q` bytes each. -/
structure Ready (m : Machine) (q d : Nat) (p : Piece) (c : List Line) (t' : Tables) (S : Scope)
    (σ : Store) (s : State) : Prop where
  code : m.At s.pc c
  within : t'.scope.Within S
  inside : Inside S σ s
  room : 8 * p.size + d * q ≤ s.esp.toNat

/-- The code of a piece does what one run of the piece does. -/
def Follows (m : Machine) (q d : Nat) (p : Piece) (σ : Store) (ω : World) (o : Outcome)
    (ω' : World) : Prop :=
  ∀ ⦃t c t' v S s⦄, Lowers p t c t' v → Ready m q d p c t' S σ s → s.world = ω →
    Reaches m S s (s.pc + c.length) o ω'

namespace Follows

variable {q d i : Nat} {ω₁ ω₂ : World} {w : Word} {x : String} {e l r n : Node Nat}

theorem var (hx : σ x = some w) : Follows m q d (.node (.var i x)) σ ω (.value w) ω := by
  intro t c t' v S s hl hr hω
  cases hl with
  | var hf =>
    have hp := hr.within x _ (Scope.place?_of_find hf)
    have hs := step_mov_eax hr.code.1 (hr.inside.value_slot hx hp)
    exact ⟨_, .single hs, rfl, rfl, ⟨rfl, rfl, fun _ _ => rfl⟩, hω⟩

theorem int : Follows m q d (.node (.int i w)) σ ω (.value w) ω := by
  intro t c t' v S s hl hr hω
  cases hl with
  | int =>
    have hs := step_mov_eax hr.code.1 rfl
    refine ⟨_, .single hs, rfl, ?_, ⟨rfl, rfl, fun _ _ => rfl⟩, hω⟩
    exact BitVec.ofInt_toInt

theorem read (hm : m.Image fs) {input printed : List Word} :
    Follows m q d (.node (.read i)) σ ⟨w :: input, printed⟩ (.value w) ⟨input, printed⟩ := by
  intro t c t' v S s hl hr hω
  cases hl with
  | read =>
    have hroom := hr.room
    simp only [Piece.size, Node.size] at hroom
    have := run_read hm hr.code hω (by omega) hr.inside.aligned
    simpa [Reaches] using this

theorem unary (hm : m.Image fs) {op : UnaryOp}
    (he : Follows m q d (.node e) σ ω (.value w) ω₁) :
    Follows m q d (.node (.unary i op e)) σ ω (.value (op.eval w)) ω₁ := by
  intro t c t' v S s hl hr hω
  cases hl with
  | @unary _ _ _ _ c _ _ _ hl _ =>
    have hroom := hr.room
    simp only [Piece.size, Node.size] at hroom
    obtain ⟨hcode, hop⟩ := at_append.mp hr.code
    obtain ⟨s₁, hs₁, hpc₁, hw₁, hk₁, hω₁⟩ :=
      he hl ⟨hcode, hr.within, hr.inside, by simp only [Piece.size]; omega⟩ hω
    rw [← hpc₁] at hop
    have hin₁ := hr.inside.keeps hk₁
    obtain ⟨s₂, hs₂, hpc₂, hw₂, hk₂, hω₂⟩ := run_unary hm op hop
      (by rw [hk₁.esp]; omega) hin₁.aligned
    refine ⟨s₂, hs₁.trans hs₂, ?_, ?_, hk₁.trans hk₂, hω₂.trans hω₁⟩
    · rw [hpc₂, hpc₁, List.length_append, List.length_map, Nat.add_assoc]
    · rw [hw₂, hw₁]

theorem binary (hm : m.Image fs) {op : BinaryOp} {a b : Word}
    (her : Follows m q d (.node r) σ ω (.value b) ω₁)
    (hel : Follows m q d (.node l) σ ω₁ (.value a) ω₂) (hw : op.eval? a b = some w) :
    Follows m q d (.node (.binary i op l r)) σ ω (.value w) ω₂ := by
  intro t c t' v S s hl hr hω
  cases hl with
  | @binary _ _ _ _ _ c₁ t₁ _ c₂ _ _ _ hlr hll _ =>
    have hroom := hr.room
    simp only [Piece.size, Node.size] at hroom
    obtain ⟨hc₁, hpush, hcode⟩ := at_append.mp hr.code
    obtain ⟨hc₂, hpop, hop⟩ := at_append.mp hcode
    have hin := hr.inside
    -- The right operand, which waits on the stack.
    obtain ⟨s₁, hs₁, hpc₁, hw₁, hk₁, hω₁⟩ := her hlr
      ⟨hc₁, (within_of_lowers hll).trans hr.within, hin, by simp only [Piece.size]; omega⟩ hω
    have hesp₁ := congrArg BitVec.toNat hk₁.esp
    rw [← hpc₁] at hpush hc₂ hpop hop
    have hin₁ := hin.keeps hk₁
    obtain ⟨s₂, hs₂, hpc₂, hp₂⟩ := step_push hpush rfl (by omega) hin₁.aligned
    have hesp₂ := hp₂.esp
    rw [← hpc₂] at hc₂ hpop hop
    have hin₂ := hin₁.pushed hp₂
    -- The left operand.
    obtain ⟨s₃, hs₃, hpc₃, hw₃, hk₃, hω₃⟩ := hel hll
      ⟨hc₂, hr.within, hin₂, by simp only [Piece.size]; omega⟩ (hp₂.world.trans hω₁)
    rw [← hpc₃] at hpop hop
    have hin₃ := hin₂.keeps hk₃
    have htop : s₃.stack s₃.esp.toNat = .word b := by
      rw [hk₃.esp, hk₃.stack _ (Nat.le_refl _), hp₂.top]
      exact congrArg Cell.word hw₁
    have hs₄ := step_pop hpop hin₃.aligned htop
    have hback : s₃.esp + 4 = s.esp := by rw [hk₃.esp, hp₂.esp_eq, hk₁.esp]
    have hesp₄ : (s₃.esp + 4).toNat = s.esp.toNat := congrArg BitVec.toNat hback
    -- The operator.
    have hin₀ := hin.aligned
    obtain ⟨s₅, hs₅, hpc₅, hw₅, hk₅, hω₅⟩ :=
      run_code (s := ({ s₃ with esp := s₃.esp + 4 }.setReg .ebx b).next) hm op (w := w)
        (by rw [← hw, ← hw₃]; rfl) hop
        (by show 4 ≤ (s₃.esp + 4).toNat; omega) (by show (s₃.esp + 4).toNat % 4 = 0; omega)
    refine ⟨s₅, hs₁.trans (.cons hs₂ (hs₃.trans (.cons hs₄ hs₅))), ?_, hw₅, ?_, hω₅.trans hω₃⟩
    · have hpc₄ : s₅.pc = s₃.pc + 1 + op.code.length := hpc₅
      simp only [List.length_append, List.length_cons]
      omega
    · refine ⟨hk₅.esp.trans hback, hk₅.ebp.trans (hk₃.ebp.trans (hp₂.ebp.trans hk₁.ebp)), ?_⟩
      intro a ha
      have h₅ : s₅.stack a = s₃.stack a := hk₅.stack a (hesp₄.symm ▸ ha)
      rw [h₅, hk₃.stack a (by omega), hp₂.stack a (by omega), hk₁.stack a ha]

theorem noArgs : Follows m q d (.args []) σ ω (.values []) ω := by
  intro t c t' v S s hl hr hω
  cases hl with
  | noArgs => exact ⟨s, .refl, rfl, ⟨rfl, rfl, by simp, fun _ _ => rfl⟩, hω⟩

theorem arg {rest : List (Node Nat)} {ws : List Word} (hlen : ws.length = rest.length)
    (hes : Follows m q d (.args rest) σ ω (.values ws) ω₁)
    (he : Follows m q d (.node n) σ ω₁ (.value w) ω₂) :
    Follows m q d (.args (n :: rest)) σ ω (.values (w :: ws)) ω₂ := by
  intro t c t' v S s hl hr hω
  cases hl with
  | @arg _ _ _ c₁ t₁ _ c₂ _ _ hls hl =>
    have hroom := hr.room
    simp only [Piece.size, Node.sizes] at hroom
    have hsizes := Node.length_le_sizes rest
    have hsize := n.size_pos
    obtain ⟨hc₁, hcode⟩ := at_append.mp hr.code
    obtain ⟨hc₂, hpush, -⟩ := at_append.mp hcode
    have hin := hr.inside
    obtain ⟨s₁, hs₁, hpc₁, hp₁, hω₁⟩ := hes hls
      ⟨hc₁, (within_of_lowers hl).trans hr.within, hin, by simp only [Piece.size]; omega⟩ hω
    have hesp₁ := hp₁.esp
    rw [← hpc₁] at hc₂ hpush
    have hin₁ := hin.pushedAll hp₁
    obtain ⟨s₂, hs₂, hpc₂, hw₂, hk₂, hω₂⟩ := he hl
      ⟨hc₂, hr.within, hin₁, by simp only [Piece.size]; omega⟩ hω₁
    rw [← hpc₂] at hpush
    obtain ⟨s₃, hs₃, hpc₃, hp₃⟩ := step_push hpush rfl (by rw [hk₂.esp]; omega)
      (hin₁.keeps hk₂).aligned
    refine ⟨s₃, hs₁.trans (hs₂.trans (.single hs₃)), ?_, ?_, hp₃.world.trans hω₂⟩
    · simp only [List.length_append, List.length_cons, List.length_nil]
      omega
    · exact hw₂ ▸ (hp₁.keeps hk₂).push hp₃

theorem assign (he : Follows m q d (.node e) σ ω (.value w) ω₁) :
    Follows m q d (.node (.assign i x e)) σ ω (.falls (σ.set x w)) ω₁ := by
  intro t c t' v S s hl hr hω
  cases hl with
  | @assign _ _ _ _ c t₁ _ slot _ hl hx =>
    have hroom := hr.room
    simp only [Piece.size, Node.size] at hroom
    obtain ⟨hcode, hmov, -⟩ := at_append.mp hr.code
    have hp := hr.within x _ (Scope.place?_of_find (Scope.find_of_retag hx))
    obtain ⟨s₁, hs₁, hpc₁, hw₁, hk₁, hω₁⟩ := he hl
      ⟨hcode, (Scope.Within.retag hx).trans hr.within, hr.inside, by simp only [Piece.size]; omega⟩
      hω
    rw [← hpc₁] at hmov
    have hin₁ := hr.inside.keeps hk₁
    have hs₂ := step_mov_slot (w := w) hin₁ hmov (congrArg some hw₁) hp
    refine ⟨_, hs₁.trans (.single hs₂), ?_, (hin₁.put hp w).setPc _,
      (Stays.of_keeps hk₁).trans (.put hp w), hω₁⟩
    show s₁.pc + 1 = _
    rw [hpc₁, List.length_append, Nat.add_assoc]
    rfl

/-- A new variable is zero. -/
theorem run_declare {t : Tables} {slot : Slot} {S' : Scope}
    (hx : t.scope.declareLocal x .int = .ok (slot, S')) (hS : S'.Within S) (hin : Inside S σ s)
    (hmov : m.lines[s.pc]? = some (.instr (.mov (.slot slot.offset) (.imm 0)))) :
    ∃ s', m.Steps s s' ∧ s'.pc = s.pc + 1 ∧ Inside S (σ.set x 0) s' ∧ Stays S s s' ∧
      s'.world = s.world := by
  have hp := hS x _ (Scope.place?_of_find (Scope.find_of_declareLocal hx))
  have hs := step_mov_slot (w := 0) hin hmov rfl hp
  exact ⟨_, .single hs, rfl, (hin.put hp 0).setPc _, .put hp 0, rfl⟩

theorem declare : Follows m q d (.node (.declare i x)) σ ω (.falls (σ.set x 0)) ω := by
  intro t c t' v S s hl hr hω
  cases hl with
  | declare hx =>
    obtain ⟨s₁, hs₁, hpc₁, hin₁, hst₁, hω₁⟩ := run_declare hx hr.within hr.inside hr.code.1
    exact ⟨s₁, hs₁, hpc₁, hin₁, hst₁, hω₁.trans hω⟩

theorem define (he : Follows m q d (.node e) (σ.set x 0) ω (.value w) ω₁) :
    Follows m q d (.node (.define i x e)) σ ω (.falls ((σ.set x 0).set x w)) ω₁ := by
  intro t c t' v S s hl hr hω
  cases hl with
  | @define _ _ _ _ slot S₁ c t₁ _ slot' S₂ hx hl hx' =>
    have hroom := hr.room
    simp only [Piece.size, Node.size] at hroom
    obtain ⟨hzero, hcode⟩ := hr.code
    obtain ⟨hcode, hmov, -⟩ := at_append.mp hcode
    have hret : t₁.scope.Within S := (Scope.Within.retag hx').trans hr.within
    have hdec : S₁.Within S := (within_of_lowers hl).trans hret
    have hp := hdec x _ (Scope.place?_of_find (Scope.find_of_declareLocal hx))
    obtain ⟨s₁, hs₁, hpc₁, hin₁, hst₁, hω₁⟩ := run_declare hx hdec hr.inside hzero
    rw [← hpc₁] at hcode hmov
    obtain ⟨s₂, hs₂, hpc₂, hw₂, hk₂, hω₂⟩ := he hl
      ⟨hcode, hret, hin₁, by rw [hst₁.esp]; simp only [Piece.size]; omega⟩ (hω₁.trans hω)
    rw [← hpc₂] at hmov
    have hin₂ := hin₁.keeps hk₂
    have hs₃ := step_mov_slot (w := w) hin₂ hmov (congrArg some hw₂) hp
    refine ⟨_, hs₁.trans (hs₂.trans (.single hs₃)), ?_, (hin₂.put hp w).setPc _,
      (hst₁.trans (.of_keeps hk₂)).trans (.put hp w), hω₂⟩
    show s₂.pc + 1 = _
    simp only [List.length_append, List.length_cons, List.length_nil]
    omega

theorem print (hm : m.Image fs) (he : Follows m q d (.node e) σ ω (.value w) ω₁) :
    Follows m q d (.node (.print i e)) σ ω (.falls σ)
      { ω₁ with printed := ω₁.printed ++ [w] } := by
  intro t c t' v S s hl hr hω
  cases hl with
  | @print _ _ _ c _ _ hl =>
    have hroom := hr.room
    simp only [Piece.size, Node.size] at hroom
    have hsize := e.size_pos
    obtain ⟨hcode, hprint⟩ := at_append.mp hr.code
    obtain ⟨s₁, hs₁, hpc₁, hw₁, hk₁, hω₁⟩ := he hl
      ⟨hcode, hr.within, hr.inside, by simp only [Piece.size]; omega⟩ hω
    rw [← hpc₁] at hprint
    have hin₁ := hr.inside.keeps hk₁
    obtain ⟨s₂, hs₂, hpc₂, hk₂, hω₂⟩ := run_print hm hprint (by rw [hk₁.esp]; omega) hin₁.aligned
    refine ⟨s₂, hs₁.trans hs₂, ?_, hin₁.keeps hk₂, .of_keeps (hk₁.trans hk₂), ?_⟩
    · rw [hpc₂, hpc₁, List.length_append, List.length_map, Nat.add_assoc]
    · rw [hω₂, hω₁, hw₁]

end Follows
end Machine
end Onepass
