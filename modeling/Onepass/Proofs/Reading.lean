import Onepass.Proofs.Phrase
import Onepass.Reader.Step

/-!
# Onepass.Proofs.Reading

The reader as a machine on lexemes. Lines of tokens matter for messages only, so `State.take?`
takes a lexeme and `Reaches s ls s'` says that the lexemes `ls` lead from `s` to `s'`. A run that
succeeds is a way of the machine (`run_eq_ok`), and one that fails ends a way at the token that
cannot stand there (`run_eq_error`).

The rest is about what stands before an operand: a stack that a token of some level leaves as it
is (`Stable`), and a context in which an operand is read at all (`Context.Open`).
-/

namespace Onepass
namespace Reader

theorem binaryOp?_mark (op : BinaryOp) : binaryOp? (.mark op.mark) = some op := by
  rcases op with op | op | _
  · cases op <;> rfl
  · cases op <;> rfl
  · rfl

theorem eq_mark_of_binaryOp? {next : Category} {op : BinaryOp} (h : binaryOp? next = some op) :
    next = .mark op.mark := by
  unfold binaryOp? at h
  split at h <;> cases h <;> rfl

theorem eq_mark_of_unaryOp? {next : Category} {op : UnaryOp} (h : unaryOp? next = some op) :
    next = .mark op.mark := by
  unfold unaryOp? at h
  split at h <;> cases h <;> rfl

theorem followLevel_mark (op : BinaryOp) : followLevel (.mark op.mark) = op.level := by
  rw [followLevel, binaryOp?_mark]
  rfl

theorem followLevel_le (next : Category) : followLevel next ≤ 5 := by
  rw [followLevel]
  cases h : binaryOp? next with
  | none => exact Nat.zero_le 5
  | some op => exact op.level_le

namespace State

/-- The state behind a lexeme, if it can stand here. -/
def take? (s : State) (l : Lexeme) : Option State := (s.settle l.category).shift? l

theorem step_eq_ok {s s' : State} {t : Token} : s.step t = .ok s' ↔ s.take? t.lexeme = some s' := by
  unfold step take?
  change _ ↔ (s.settle t.category).shift? t.lexeme = some s'
  dsimp only
  cases h : (s.settle t.category).shift? t.lexeme <;> simp

theorem step_eq_error {s : State} {t : Token} {stop : Stop} (h : s.step t = .error stop) :
    s.take? t.lexeme = none ∧
      ∃ expected, stop.error = .unexpected t.line expected t.category := by
  unfold step at h
  dsimp only at h
  split at h
  · cases h
  · rename_i hnone
    cases h
    exact ⟨hnone, _, rfl⟩

end State

/-- The lexemes lead from the one state to the other. -/
inductive Reaches : State → List Lexeme → State → Prop where
  | refl {s} : Reaches s [] s
  | cons {s s' s'' l ls} : s.take? l = some s' → Reaches s' ls s'' → Reaches s (l :: ls) s''

namespace Reaches

variable {s s' s'' : State} {l : Lexeme} {ls rs : List Lexeme}

theorem single (h : s.take? l = some s') : Reaches s [l] s' := .cons h .refl

theorem trans (h₁ : Reaches s ls s') (h₂ : Reaches s' rs s'') : Reaches s (ls ++ rs) s'' := by
  induction h₁ with
  | refl => exact h₂
  | cons hs _ ih => exact .cons hs (ih h₂)

theorem snoc (h₁ : Reaches s ls s') (h₂ : s'.take? l = some s'') : Reaches s (ls ++ [l]) s'' :=
  h₁.trans (.single h₂)

/-- A way through two stretches passes a state between them. -/
theorem split (h : Reaches s (ls ++ rs) s'') :
    ∃ s', Reaches s ls s' ∧ Reaches s' rs s'' := by
  induction ls generalizing s with
  | nil => exact ⟨s, .refl, h⟩
  | cons l ls ih =>
    cases h with
    | cons hs hrest =>
      obtain ⟨s', h₁, h₂⟩ := ih hrest
      exact ⟨s', .cons hs h₁, h₂⟩

theorem unique (h₁ : Reaches s ls s') (h₂ : Reaches s ls s'') : s' = s'' := by
  induction h₁ with
  | refl => cases h₂; rfl
  | cons hs _ ih =>
    cases h₂ with
    | cons hs' hrest =>
      rw [hs] at hs'
      cases hs'
      exact ih hrest

end Reaches

namespace State

theorem run_eq_ok {s s' : State} {ts : List Token} :
    s.run ts = .ok s' ↔ Reaches s (ts.map Token.lexeme) s' := by
  induction ts generalizing s with
  | nil =>
    simp only [run, Except.ok.injEq, List.map_nil]
    constructor
    · rintro rfl
      exact .refl
    · intro h
      cases h
      rfl
  | cons t ts ih =>
    rw [run, List.map_cons]
    cases hs : s.step t with
    | error stop =>
      simp only [reduceCtorEq, false_iff]
      intro h
      cases h with
      | cons h _ =>
        rw [(step_eq_error hs).1] at h
        cases h
    | ok s₁ =>
      have hs' := step_eq_ok.mp hs
      simp only [ih]
      constructor
      · exact .cons hs'
      · intro h
        cases h with
        | cons h hrest =>
          rw [hs'] at h
          cases h
          exact hrest

/-- A run fails at the first token that the machine cannot take. -/
theorem run_eq_error {s : State} {ts : List Token} {stop : Stop} (h : s.run ts = .error stop) :
    ∃ before t after s', ts = before ++ t :: after ∧
      Reaches s (before.map Token.lexeme) s' ∧ s'.take? t.lexeme = none ∧
      ∃ expected, stop.error = .unexpected t.line expected t.category := by
  induction ts generalizing s with
  | nil => cases h
  | cons t ts ih =>
    rw [run] at h
    split at h
    · rename_i s₁ hs
      obtain ⟨before, u, after, s', rfl, hreach, hu⟩ := ih h
      exact ⟨t :: before, u, after, s', rfl, .cons (step_eq_ok.mp hs) hreach, hu⟩
    · rename_i stop' hs
      cases h
      exact ⟨[], t, ts, s, rfl, .refl, step_eq_error hs⟩

/-- What the mode takes changes the mode alone. -/
theorem shift?_of_mode {s : State} {l : Lexeme} {m : Mode} (h : s.mode.shift? l = some m) :
    s.shift? l = some (s.withMode m) := by
  unfold shift?
  split
  · rename_i hm
    rw [hm] at h
    cases h
  · rename_i hm
    rw [hm] at h
    cases h
  · rename_i hm
    rw [hm] at h
    cases h
  · rename_i hm
    rw [hm] at h
    cases h
  · rw [h]
    rfl

end State

namespace Mode

/-- The lexemes lead from the one mode to the other within a statement. -/
def Leads (m : Mode) (ls : List Lexeme) (m' : Mode) : Prop :=
  ∀ before around, Reaches ⟨before, around, m⟩ ls ⟨before, around, m'⟩

namespace Leads

variable {m m' m'' : Mode} {l : Lexeme} {ls rs : List Lexeme}

theorem refl : Leads m [] m := fun _ _ => .refl

theorem settled (hs : m.settle l.category = m') (h : m'.shift? l = some m'') :
    Leads m [l] m'' := by
  intro before around
  refine .single ?_
  rw [State.take?, State.settle]
  exact State.shift?_of_mode (by rw [← hs] at h; exact h)

theorem single (hs : m.settle l.category = m) (h : m.shift? l = some m') : Leads m [l] m' :=
  settled hs h

theorem trans (h₁ : Leads m ls m') (h₂ : Leads m' rs m'') : Leads m (ls ++ rs) m'' :=
  fun before around => (h₁ before around).trans (h₂ before around)

theorem cons (h₁ : Leads m [l] m') (h₂ : Leads m' ls m'') : Leads m (l :: ls) m'' :=
  h₁.trans h₂

end Leads
end Mode

/-- A token of the level takes nothing from the stack. -/
def Stable (level : Nat) : List Pending → Prop
  | .unary _ :: _ => False
  | .binary op _ :: _ => op.level < level
  | _ => True

theorem reduce_of_stable {level : Nat} {stack : List Pending} (h : Stable level stack) (t : Tree) :
    reduce level stack t = (stack, t) := by
  cases stack with
  | nil => rfl
  | cons p rest =>
    cases p with
    | unary op => exact h.elim
    | binary op l => rw [reduce, if_neg (Nat.not_le_of_lt h)]
    | group | argument => rfl

theorem Stable.mono {j k : Nat} (hjk : j ≤ k) {stack : List Pending} (h : Stable j stack) :
    Stable k stack := by
  cases stack with
  | nil => trivial
  | cons p rest =>
    cases p with
    | unary op => exact h
    | binary op l => exact Nat.lt_of_lt_of_le h hjk
    | group | argument => trivial

namespace Context

/-- An operand can be read here: in a call that is a statement, only one of its arguments. -/
def Open (ctx : Context) : Prop := ctx.purpose = .call → ctx.stack ≠ []

theorem Open.of_ne {ctx : Context} (h : ctx.purpose ≠ .call) : ctx.Open := fun hp => absurd hp h

/-- The one place where no operand is read is behind a call that is a statement. -/
theorem eq_of_not_open (ctx : Context) (h : ¬ ctx.Open) : ctx = ⟨.call, []⟩ := by
  obtain ⟨p, st⟩ := ctx
  simp only [Context.Open, Classical.not_imp, Classical.not_not] at h
  obtain ⟨rfl, rfl⟩ := h
  rfl

theorem open_push (ctx : Context) (p : Pending) : (ctx.push p).Open := fun _ => List.cons_ne_nil _ _

end Context

/-- In an open context the operand is given to the operators that the next token does not hold
back. -/
theorem settleOperand_of_open {ctx : Context} (h : ctx.Open) (t : Tree) (next : Category) :
    settleOperand ctx t next =
      let (stack, t) := reduce (followLevel next) ctx.stack t
      match stack, binaryOp? next, ctx.purpose.complete? t with
      | [], none, some statement => .done statement true
      | _, _, _ => .behind ⟨ctx.purpose, stack⟩ t true := by
  obtain ⟨purpose, stack⟩ := ctx
  cases purpose with
  | call =>
    cases stack with
    | nil => exact absurd rfl (h rfl)
    | cons p rest => rfl
  | _ => rfl

end Reader
end Onepass
