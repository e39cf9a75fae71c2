import Onepass.Proofs.Simulation

/-!
# Onepass.Proofs.Calls

Calls on the machine: a routine is entered with its arguments above the place to return to, makes
its frame below it, and takes the frame down when it is left.

* `run_enter`, `run_leave` -- a frame is made and taken down.
* `Follows.ret`            -- a `return` leaves the routine.
* `Follows.call`           -- a call gives the result and removes its arguments.
-/

namespace Onepass

open Assembly Lowering

namespace Store

/-- A parameter's value is the argument in its place. -/
theorem exists_of_ofParams {ps : List String} {ws : List Word} {x : String} {w : Word}
    (h : ofParams ps ws x = some w) : ∃ i : Nat, ps[i]? = some x ∧ ws[i]? = some w := by
  induction ps generalizing ws with
  | nil => cases h
  | cons p ps ih =>
    cases ws with
    | nil => cases h
    | cons v ws =>
      by_cases hx : x = p
      · subst hx
        simp only [ofParams, List.zip_cons_cons, List.lookup_cons, beq_self_eq_true] at h
        exact ⟨0, rfl, h⟩
      · rw [ofParams, List.zip_cons_cons, List.lookup_cons, beq_eq_false_iff_ne.mpr hx] at h
        obtain ⟨i, hi, hw⟩ := ih h
        exact ⟨i + 1, hi, hw⟩

end Store

/-- A frame has room for as many variables as there are nodes. -/
theorem locals_of_lowers {p t c t' v} (h : Lowers p t c t' v) :
    t'.scope.locals ≤ t.scope.locals + p.size := by
  induction h with
  | var | int | str | read | skip | nil | noArgs | function => exact Nat.le_add_right _ _
  | unary _ _ ih | call _ _ _ ih | print _ ih | ret _ ih | block _ ih | last _ _ ih =>
    simp only [Piece.size, Node.size, Node.sizes] at *
    omega
  | binary _ _ _ ih ih' | loop _ _ ih ih' | cons _ _ _ ih ih' | arg _ _ ih ih' =>
    simp only [Piece.size, Node.size, Node.sizes] at *
    omega
  | branch _ _ _ ih ihy ihn =>
    simp only [Piece.size, Node.size] at *
    omega
  | assign _ hs ih =>
    have := (Scope.retag_eq_ok hs).2.2.1
    simp only [Piece.size, Node.size] at *
    omega
  | declare hs =>
    obtain ⟨-, -, rfl⟩ := Scope.declareLocal_eq_ok hs
    simp only [Piece.size, Node.size]
    omega
  | define hs _ hs' ih =>
    obtain ⟨-, -, rfl⟩ := Scope.declareLocal_eq_ok hs
    have := (Scope.retag_eq_ok hs').2.2.1
    simp only [Piece.size, Node.size] at *
    omega

namespace Machine

variable {m : Machine} {s s₁ s' : State} {S : Scope} {σ : Store} {fs : List Function}
  {k q d i : Nat} {o : Outcome} {ω ω₁ ω₂ : World} {w : Word}

/-- The end of a routine takes its frame down. -/
theorem run_leave (hat : m.At s.pc (leave.map .instr)) (hin : Inside S σ s) {b : Word} {r : Nat}
    (hb : s.stack s.ebp.toNat = .word b) (hr : s.stack (s.ebp.toNat + 4) = .code r) :
    ∃ s', m.Steps s s' ∧ s'.eax = s.eax ∧ Left S s s' b r ∧ s'.world = s.world := by
  obtain ⟨hmov, hpop, hret, -⟩ := hat
  have habove := hin.above
  have hbase := hin.base
  have hebp : (s.ebp + 4).toNat = s.ebp.toNat + 4 := Word.toNat_add_four (by omega)
  have hs₁ : m.step s = some { s with pc := s.pc + 1, esp := s.ebp } := step_instr hmov
  have hs₂ := step_pop (s := { s with pc := s.pc + 1, esp := s.ebp }) hpop hbase hb
  have hs₃ := step_ret (k := r)
    (s := ({ s with pc := s.pc + 1, esp := s.ebp + 4 }.setReg .ebp b).next) hret
    (by show (s.ebp + 4).toNat % 4 = 0; omega) (by show s.stack (s.ebp + 4).toNat = _; rw [hebp, hr])
  refine ⟨_, .cons hs₁ (.cons hs₂ (.single hs₃)), rfl, ⟨rfl, rfl, ?_, fun _ _ _ => rfl⟩, rfl⟩
  exact BitVec.add_assoc s.ebp 4 4

/-- A routine has been called in the state `s`, and has made its frame. -/
structure Entered (S : Scope) (s s' : State) : Prop where
  base : s'.ebp.toNat + 8 = s.esp.toNat
  esp : s'.esp.toNat + 4 * S.locals = s'.ebp.toNat
  link : s'.stack s'.ebp.toNat = .word s.ebp
  back : s'.stack (s'.ebp.toNat + 4) = .code (s.pc + 1)
  stack : ∀ a, s.esp.toNat ≤ a → s'.stack a = s.stack a
  world : s'.world = s.world

theorem run_enter {f : String} (hm : m.Image fs)
    (hcall : m.lines[s.pc]? = some (.instr (.call (.routine f)))) (hat : m.At k (enter i f))
    (hsize : m.symbol (.frameSize i) = S.frameSize) (hroom : 4 * S.locals + 8 ≤ s.esp.toNat)
    (ha : s.esp.toNat % 4 = 0) :
    ∃ s', m.Steps s s' ∧ s'.pc = k + (enter i f).length ∧ Entered S s s' := by
  obtain ⟨-, hlabel, hpush, hmov, hsub, -⟩ := hat
  obtain ⟨s₁, hs₁, hpc₁, hp₁⟩ := step_call hcall (hm.target_eq hlabel) (by omega) ha
  have hesp₁ := hp₁.esp
  rw [← hpc₁] at hlabel hpush hmov hsub
  obtain ⟨s₂, hs₂, hpc₂, hp₂⟩ := step_push (s := s₁.next) hpush rfl
    (by show 4 ≤ s₁.esp.toNat; omega) (by show s₁.esp.toNat % 4 = 0; omega)
  have hesp₂ : s₂.esp.toNat + 4 = s₁.esp.toNat := hp₂.esp
  change s₂.pc = s₁.pc + 1 + 1 at hpc₂
  rw [← hpc₂] at hmov hsub
  have hs₃ : m.step s₂ = some { s₂ with pc := s₂.pc + 1, ebp := s₂.esp } := step_instr hmov
  have hs₄ : m.step { s₂ with pc := s₂.pc + 1, ebp := s₂.esp } = some { s₂ with
      pc := s₂.pc + 1 + 1, ebp := s₂.esp, esp := s₂.esp - S.frameSize, flags := none } := by
    rw [step_instr hsub, exec, operate, value, value, hsize]
    rfl
  have hlocals := Word.toNat_ofNat (k := 4 * S.locals) (by omega)
  refine ⟨_, .cons hs₁ (.cons (step_label hlabel) (.cons hs₂ (.cons hs₃ (.single hs₄)))), ?_, ?_⟩
  · show s₂.pc + 1 + 1 = _
    rw [hpc₂, hpc₁]
    rfl
  · refine ⟨?_, ?_, ?_, ?_, ?_, hp₂.world.trans hp₁.world⟩
    · show s₂.esp.toNat + 8 = _
      omega
    · show (s₂.esp - S.frameSize).toNat + 4 * S.locals = s₂.esp.toNat
      rw [Scope.frameSize, Scope.localOffset, BitVec.toNat_sub, hlocals]
      omega
    · exact hp₂.top.trans (congrArg Cell.word hp₁.ebp)
    · show s₂.stack (s₂.esp.toNat + 4) = _
      rw [hesp₂]
      exact (hp₂.stack _ (Nat.le_refl _)).trans hp₁.top
    · intro a ha
      show s₂.stack a = _
      rw [hp₂.stack a (by show s₁.esp.toNat ≤ a; omega)]
      exact hp₁.stack a ha

/-- The parameters of a routine that was entered are its arguments. -/
theorem Entered.inside (h : Entered S s s') {ps ds : List String} {ws : List Word}
    (hS : S.Holds ps ds) (hlen : ps.length = ws.length) (ha : s.esp.toNat % 4 = 0)
    (hfits : s.esp.toNat + 4 * ws.length < 2 ^ 32)
    (hargs : ∀ i w, ws[i]? = some w → s.stack (s.esp.toNat + 4 * i) = .word w) :
    Inside S (.ofParams ps ws) s' := by
  have hbase := h.base
  have hesp := h.esp
  have hparams := hS.params
  refine ⟨by omega, by omega, by omega, by omega, ⟨ps, ds, hS⟩, fun x w hx => ?_⟩
  obtain ⟨i, hp, hw⟩ := Store.exists_of_ofParams hx
  have hi := (List.getElem?_eq_some_iff.mp hw).1
  refine ⟨_, hS.param i x hp, ?_⟩
  have haddr : s'.ebp.toNat + 4 * (i + 2) = s.esp.toNat + 4 * i := by omega
  rw [toNat_sub_param (by omega), haddr, h.stack _ (by omega), hargs i w hw]

namespace Follows

variable {e : Node Nat} {f : String} {g : Function} {as : List (Node Nat)} {ws : List Word}

theorem ret (he : Follows m q d (.node e) σ ω (.value w) ω₁) :
    Follows m q d (.node (.ret i e)) σ ω (.returns w) ω₁ := by
  intro t c t' v S s hl hr hω
  cases hl with
  | ret hl =>
    have hroom := hr.room
    simp only [Piece.size, Node.size] at hroom
    obtain ⟨hcode, hleave⟩ := at_append.mp hr.code
    obtain ⟨s₁, hs₁, hpc₁, hw₁, hk₁, hω₁⟩ := he hl
      ⟨hcode, hr.within, hr.inside, by simp only [Piece.size]; omega⟩ hω
    rw [← hpc₁] at hleave
    have hin₁ := hr.inside.keeps hk₁
    refine Reaches.of_keeps (k := 0) (o := .returns w) hs₁ hk₁ hr.inside fun b r hb hr => ?_
    obtain ⟨s₂, hs₂, hw₂, hleft, hω₂⟩ := run_leave hleave hin₁ hb hr
    exact ⟨s₂, hs₂, hw₂.trans hw₁, hleft, hω₂.trans hω₁⟩

/-- The rest of a routine behind its body, which gives 0 if the body has not returned. -/
theorem left_of_reaches (h : Reaches m S s k o ω) (hw : o.result? = some w)
    (hat : m.At k (.instr (.mov (.reg .eax) (.imm 0)) :: Lowering.leave.map .instr))
    (hin : Inside S σ s) {b : Word} {r : Nat} (hb : s.stack s.ebp.toNat = .word b)
    (hr : s.stack (s.ebp.toNat + 4) = .code r) :
    ∃ s', m.Steps s s' ∧ s'.eax = w ∧ Left S s s' b r ∧ s'.world = ω := by
  cases o with
  | value | values => cases hw
  | returns v =>
    cases hw
    exact h b r hb hr
  | falls τ =>
    cases hw
    obtain ⟨s₁, hs₁, hpc₁, hin₁, hst₁, hω₁⟩ := h
    rw [← hpc₁] at hat
    have hs₂ := step_mov_eax (w := 0) hat.1 rfl
    have hst : Stays S s { s₁ with pc := s₁.pc + 1, eax := 0 } :=
      ⟨hst₁.esp, hst₁.ebp, hst₁.stack⟩
    have hin₂ : Inside S τ { s₁ with pc := s₁.pc + 1, eax := 0 } :=
      hin₁.mono rfl (Nat.le_refl _) hin₁.aligned fun _ _ => rfl
    refine Reaches.of_stays (k := 0) (o := .returns 0) (hs₁.trans (.single hs₂)) hst hin
      (.inr ⟨_, rfl⟩) (fun b r hb hr => ?_) b r hb hr
    obtain ⟨s₃, hs₃, hw₃, hleft, hω₃⟩ := run_leave hat.2 hin₂ hb hr
    exact ⟨s₃, hs₃, hw₃, hleft, hω₃.trans hω₁⟩

/-- A function is called with its arguments on the stack, where they stay. -/
theorem run_routine (hm : m.Image fs) (hg : g ∈ fs) (hq : 12 * Node.sizes g.body + 8 ≤ q)
    (hbody : Follows m q d (.block g.body) (.ofParams g.params ws) ω o ω₁)
    (hw : o.result? = some w) (hps : g.params.length = ws.length)
    (hcall : m.lines[s.pc]? = some (.instr (.call (.routine g.name))))
    (hargs : ∀ i w, ws[i]? = some w → s.stack (s.esp.toNat + 4 * i) = .word w)
    (hfits : s.esp.toNat + 4 * ws.length < 2 ^ 32) (hroom : (d + 1) * q ≤ s.esp.toNat)
    (ha : s.esp.toNat % 4 = 0) (hω : s.world = ω) :
    ∃ s', m.Steps s s' ∧ s'.pc = s.pc + 1 ∧ s'.eax = w ∧ s'.esp = s.esp ∧ s'.ebp = s.ebp ∧
      (∀ a, s.esp.toNat + 4 * ws.length ≤ a → s'.stack a = s.stack a) ∧ s'.world = ω₁ := by
  obtain ⟨r, ⟨S₀, rs, body, t, v, hS₀, hl, rfl⟩, pre, post, hlines⟩ := hm.routines g hg
  obtain ⟨henter, hcode⟩ := at_append.mp (at_of_lines hlines.symm)
  obtain ⟨hcode, hfinish⟩ := at_append.mp hcode
  have hS := holds_of_lowers hl (Scope.Holds.empty.declareParams hS₀)
  have hlocals := locals_of_lowers hl
  have hnone : S₀.locals = 0 := (Scope.Holds.empty.declareParams hS₀).locals
  simp only [Piece.size, hnone] at hlocals
  rw [Nat.add_mul] at hroom
  -- The frame of the function.
  have hsize : m.symbol (.frameSize g.id) = t.scope.frameSize := by
    rw [hm.symbol_eq (n := t.scope.frameSize.toInt) (by simp [← hlines, finish]),
      BitVec.ofInt_toInt]
  obtain ⟨s₁, hs₁, hpc₁, hent⟩ := run_enter hm hcall henter hsize (by omega) ha
  have hin := hent.inside hS hps ha hfits hargs
  have hbase := hent.base
  have hesp := hent.esp
  rw [← hpc₁] at hcode hfinish
  -- The body, and the way back.
  have hrun := hbody hl
    ⟨hcode, .refl _, hin, by simp only [Piece.size]; omega⟩ (hent.world.trans hω)
  obtain ⟨s₂, hs₂, hw₂, hleft, hω₂⟩ :=
    left_of_reaches hrun hw (at_append.mp hfinish).1 hin hent.link hent.back
  refine ⟨s₂, hs₁.trans hs₂, hleft.pc, hw₂, ?_, hleft.ebp, fun a ha' => ?_, hω₂⟩
  · rw [hleft.esp]
    apply BitVec.eq_of_toNat_eq
    have hlt := s.esp.isLt
    have height : (8 : Word).toNat = 8 := rfl
    rw [BitVec.toNat_add, height]
    omega
  · have hparams : t.scope.params = ws.length := hS.params.trans hps
    have hn : ¬ Owns t.scope s₁.ebp a := by
      intro ho
      have hlt := (hin.owns ho).2.2.2.2
      omega
    rw [hleft.stack a (by omega) hn, hent.stack a (by omega)]

theorem call (hm : m.Image fs) (hq : 12 * Node.sizes g.body + 8 ≤ q)
    (has : Follows m q (d + 1) (.args as) σ ω (.values ws) ω₁) (hlen : ws.length = as.length)
    (hg : g ∈ fs) (hf : g.name = f) (hps : g.params.length = ws.length)
    (hbody : Follows m q d (.block g.body) (.ofParams g.params ws) ω₁ o ω₂)
    (hw : o.result? = some w) :
    Follows m q (d + 1) (.node (.call i f as)) σ ω (.value w) ω₂ := by
  subst hf
  intro t c t' v S s hl hr hω
  cases hl with
  | @call _ _ _ _ _ c _ _ _ _ hl =>
    have hroom := hr.room
    simp only [Piece.size, Node.size] at hroom
    have hsizes := Node.length_le_sizes as
    have hin := hr.inside
    obtain ⟨hcode, hcall, hadd⟩ := at_append.mp hr.code
    obtain ⟨s₁, hs₁, hpc₁, hp₁, hω₁⟩ := has hl
      ⟨hcode, hr.within, hin, by simp only [Piece.size]; omega⟩ hω
    have hesp₁ := hp₁.esp
    have hlt := s.esp.isLt
    rw [← hpc₁] at hcall hadd
    obtain ⟨s₂, hs₂, hpc₂, hw₂, hesp₂, hebp₂, hst₂, hω₂⟩ := run_routine hm hg hq hbody hw hps hcall
      hp₁.args (by omega) (by omega) (hin.pushedAll hp₁).aligned hω₁
    have hst : ∀ a, s.esp.toNat ≤ a → s₂.stack a = s.stack a := by
      intro a ha
      rw [hst₂ a (by omega), hp₁.stack a ha]
    -- The arguments are removed, if there are any.
    by_cases hzero : as.length = 0
    · have hesp : s₂.esp = s.esp := by
        apply BitVec.eq_of_toNat_eq
        rw [hesp₂]
        omega
      refine ⟨s₂, hs₁.trans hs₂, ?_, hw₂, ⟨hesp, hebp₂.trans hp₁.ebp, hst⟩, hω₂⟩
      rw [hpc₂, hpc₁, callCode, if_pos hzero, List.length_append, Nat.add_assoc]
      rfl
    · rw [if_neg hzero] at hadd
      rw [← hpc₂] at hadd
      have hs₃ := step_add_esp (n := 4 * as.length) hadd.1
      have hesp : s₂.esp + BitVec.ofNat 32 (4 * as.length) = s.esp := by
        apply BitVec.eq_of_toNat_eq
        rw [hesp₂, BitVec.toNat_add, BitVec.toNat_ofNat]
        omega
      refine ⟨_, hs₁.trans (hs₂.trans (.single hs₃)), ?_, hw₂, ⟨hesp, hebp₂.trans hp₁.ebp, hst⟩, hω₂⟩
      show s₂.pc + 1 = _
      rw [hpc₂, hpc₁, callCode, if_neg hzero, List.length_append, Nat.add_assoc, Nat.add_assoc]
      rfl

end Follows
end Machine
end Onepass
