import Onepass.Proofs.Parsing

/-!
# Onepass.Proofs.Precedence

Operands with operators between them, as they stand in a program without parentheses around them.
Which operator takes what can be said without the grammar: split at the rightmost of the operators
that bind loosest, then split both sides in the same way (`Splits`).

* `exists_splits`, `splits_unique` -- there is one way to do so.
* `derives_of_splits` -- what it gives is what the grammar derives.
* `tree_of_chain` -- and what is read, wherever in a program the expression stands.
-/

namespace Onepass

/-- Operands with operators between them. -/
structure Chain (α : Type) where
  first : α
  /-- Each operator with the operand behind it. -/
  rest : List (BinaryOp × α)

/-- How operators take operands. -/
inductive Shape (α : Type) where
  | operand (a : α)
  | operation (op : BinaryOp) (left right : Shape α)

section

variable {α : Type}

namespace Chain

/-- Two chains with an operator between them. -/
def join (left : Chain α) (op : BinaryOp) (right : Chain α) : Chain α :=
  ⟨left.first, left.rest ++ (op, right.first) :: right.rest⟩

end Chain

/-- The operands and operators from left to right. -/
def Shape.inorder : Shape α → Chain α
  | .operand a => ⟨a, []⟩
  | .operation op l r => l.inorder.join op r.inorder

/-- The chain is split at the rightmost operator of its loosest level, and so is what stands on
either side of it. -/
inductive Splits : Chain α → Shape α → Prop where
  | operand {a} : Splits ⟨a, []⟩ (.operand a)
  | operation {left op right l r} : (∀ x ∈ left.rest, op.level ≤ x.1.level) →
      (∀ x ∈ right.rest, op.level < x.1.level) → Splits left l → Splits right r →
      Splits (left.join op right) (.operation op l r)

theorem inorder_of_splits {c : Chain α} {σ : Shape α} (h : Splits c σ) : σ.inorder = c := by
  induction h with
  | operand => rfl
  | operation _ _ _ _ ihl ihr => rw [Shape.inorder, ihl, ihr]

/-- Some operator is the rightmost one of the loosest level. -/
theorem exists_loosest {ops : List (BinaryOp × α)} (h : ops ≠ []) : ∃ before y after,
    ops = before ++ y :: after ∧ (∀ x ∈ before, y.1.level ≤ x.1.level) ∧
      ∀ x ∈ after, y.1.level < x.1.level := by
  induction ops with
  | nil => exact absurd rfl h
  | cons z ops ih =>
    cases ops with
    | nil => exact ⟨[], z, [], rfl, by simp, by simp⟩
    | cons w ops =>
      obtain ⟨before, y, after, heq, hbefore, hafter⟩ := ih (List.cons_ne_nil w ops)
      rw [heq]
      by_cases hz : z.1.level < y.1.level
      · -- Nothing behind is as loose as the first operator.
        refine ⟨[], z, before ++ y :: after, rfl, by simp, fun x hx => ?_⟩
        rcases List.mem_append.mp hx with hx | hx
        · exact Nat.lt_of_lt_of_le hz (hbefore x hx)
        · rcases List.mem_cons.mp hx with rfl | hx
          · exact hz
          · exact Nat.lt_trans hz (hafter x hx)
      · refine ⟨z :: before, y, after, rfl, fun x hx => ?_, hafter⟩
        rcases List.mem_cons.mp hx with rfl | hx
        · exact Nat.le_of_not_lt hz
        · exact hbefore x hx

/-- There is no second one further to the right. -/
theorem nil_of_loosest {more after after' : List (BinaryOp × α)} {y y' : BinaryOp × α}
    (h : y :: after = more ++ y' :: after') (hafter : ∀ x ∈ after, y.1.level < x.1.level)
    (hmore : ∀ x ∈ more, y'.1.level ≤ x.1.level) : more = [] := by
  cases more with
  | nil => rfl
  | cons z more =>
    cases h
    have hle := hmore y (by simp)
    have hlt := hafter y' (by simp)
    omega

theorem loosest_unique {before after before' after' : List (BinaryOp × α)} {y y' : BinaryOp × α}
    (h : before ++ y :: after = before' ++ y' :: after')
    (hbefore : ∀ x ∈ before, y.1.level ≤ x.1.level) (hafter : ∀ x ∈ after, y.1.level < x.1.level)
    (hbefore' : ∀ x ∈ before', y'.1.level ≤ x.1.level)
    (hafter' : ∀ x ∈ after', y'.1.level < x.1.level) :
    before = before' ∧ y = y' ∧ after = after' := by
  rcases List.append_eq_append_iff.mp h with ⟨more, rfl, hrest⟩ | ⟨more, rfl, hrest⟩
  · obtain rfl := nil_of_loosest hrest hafter fun x hx => hbefore' x (by simp [hx])
    cases hrest
    exact ⟨(List.append_nil _).symm, rfl, rfl⟩
  · obtain rfl := nil_of_loosest hrest hafter' fun x hx => hbefore x (by simp [hx])
    cases hrest
    exact ⟨List.append_nil _, rfl, rfl⟩

theorem exists_splits (c : Chain α) : ∃ σ, Splits c σ := by
  obtain ⟨a, ops⟩ := c
  induction hn : ops.length using Nat.strong_induction_on generalizing a ops with
  | _ n ih =>
    subst hn
    cases ops with
    | nil => exact ⟨_, .operand⟩
    | cons z ops =>
      obtain ⟨before, ⟨op, b⟩, after, heq, hbefore, hafter⟩ :=
        exists_loosest (List.cons_ne_nil z ops)
      rw [heq] at ih ⊢
      obtain ⟨l, hl⟩ := ih before.length (by simp) a before rfl
      obtain ⟨r, hr⟩ := ih after.length (by simp; omega) b after rfl
      have hsplits : Splits (Chain.join ⟨a, before⟩ op ⟨b, after⟩) _ :=
        .operation hbefore hafter hl hr
      exact ⟨_, hsplits⟩

theorem splits_unique {c : Chain α} {σ τ : Shape α} (hσ : Splits c σ) (hτ : Splits c τ) :
    σ = τ := by
  induction hσ generalizing τ with
  | operand =>
    generalize hc : (⟨_, []⟩ : Chain α) = c at hτ
    cases hτ with
    | operand =>
      cases hc
      rfl
    | operation => simp [Chain.join] at hc
  | @operation left op right l r hleft hright _ _ ihl ihr =>
    generalize hc : left.join op right = c at hτ
    cases hτ with
    | operand => simp [Chain.join] at hc
    | @operation left' op' right' l' r' hleft' hright' hl' hr' =>
      obtain ⟨a, before⟩ := left
      obtain ⟨b, after⟩ := right
      obtain ⟨a', before'⟩ := left'
      obtain ⟨b', after'⟩ := right'
      simp only [Chain.join, Chain.mk.injEq] at hc
      obtain ⟨rfl, hc⟩ := hc
      obtain ⟨rfl, hop, rfl⟩ := loosest_unique hc hleft hright hleft' hright'
      cases hop
      rw [ihl hl', ihr hr']

end

/-! ## Chains in programs -/

/-- An operand as it is written. -/
structure Factor where
  tree : Tree
  lexemes : List Lexeme
  derives : Derives (.operand tree) lexemes

/-- The lexemes of a chain of operands. -/
def Chain.lexemes (c : Chain Factor) : List Lexeme :=
  c.first.lexemes ++ c.rest.flatMap fun (op, a) => .mark op.mark :: a.lexemes

/-- The tree in which operators take operands like this. -/
def Shape.tree : Shape Factor → Tree
  | .operand a => a.tree
  | .operation op l r => .binary () op l.tree r.tree

theorem Chain.lexemes_join (left : Chain Factor) (op : BinaryOp) (right : Chain Factor) :
    (left.join op right).lexemes = left.lexemes ++ .mark op.mark :: right.lexemes := by
  simp [join, lexemes]

/-- If no operator of the chain is looser than the level, it makes up an operation of the level. -/
theorem derives_of_splits {c : Chain Factor} {σ : Shape Factor} (h : Splits c σ) {k : Nat}
    (hk : k ≤ 6) (hc : ∀ x ∈ c.rest, k ≤ x.1.level) :
    Derives (.operation k σ.tree) c.lexemes := by
  induction h generalizing k with
  | @operand a =>
    have ha := a.derives.operation hk
    simpa [Shape.tree, Chain.lexemes] using ha
  | @operation left op right l r hleft hright _ _ ihl ihr =>
    have hlevel := op.level_le
    have hop : k ≤ op.level := hc (op, right.first) (by simp [Chain.join])
    rw [Shape.tree, Chain.lexemes_join]
    have hl := ihl (by omega) hleft
    have hr := ihr (by omega) hright
    exact (Derives.binary rfl hl hr).looser hop

/-- Lexemes make up one program only. -/
theorem program_unique {t u : Tree} {ls : List Lexeme} (ht : Derives (.program t) ls)
    (hu : Derives (.program u) ls) : t = u := by
  obtain ⟨s, hs, -, rfl⟩ := Reader.reaches_of_derives ht
  obtain ⟨s', hs', -, rfl⟩ := Reader.reaches_of_derives hu
  rw [hs.unique hs']

/-- And one expression only. -/
theorem expression_unique {t u : Tree} {ls : List Lexeme} (ht : Derives (.expression t) ls)
    (hu : Derives (.expression u) ls) : t = u := by
  have hprogram {t : Tree} (h : Derives (.expression t) ls) :=
    Derives.openProgram .nil (Derives.assign (x := "x") h)
  cases program_unique (hprogram ht) (hprogram hu)
  rfl

/-- A sign or a `not` takes the one operand behind it. -/
theorem operand_of_unary {op : UnaryOp} {t : Tree} {ls : List Lexeme}
    (h : Derives (.operand t) (.mark op.mark :: ls)) :
    ∃ u, t = .unary () op u ∧ Derives (.operand u) ls := by
  generalize hls : Lexeme.mark op.mark :: ls = ls' at h
  cases h with
  | @unary op' u _ hu =>
    cases op <;> cases op' <;> cases hls <;> exact ⟨u, rfl, hu⟩
  | var | int | str | call => cases hls
  | read | group => cases op <;> cases hls

/-- A place for an expression in a program, and the program that an expression there makes. -/
structure Place where
  before : List Lexeme
  after : List Lexeme
  fill : Tree → Tree
  derives : ∀ {t ls}, Derives (.expression t) ls →
    Derives (.program (fill t)) (before ++ (ls ++ after))

/-- Operators take operands as splitting at the rightmost of the loosest ones says: there is one way
to split; read from left to right it is what was written; no other tree is derived by the grammar;
and it is the tree that is read, wherever in a program the chain stands. What stands between the
operators stays as it is, and an operator in front of an operand has that operand alone. -/
theorem tree_of_chain (c : Chain Factor) : ∃ σ, (∀ τ, Splits c τ ↔ τ = σ) ∧ σ.inorder = c ∧
    (∀ t, Derives (.expression t) c.lexemes ↔ t = σ.tree) ∧
    (∀ (p : Place) (source : String) (first : Nat), (Source.feed source).failure = none →
      (Source.feed source).lexemes = p.before ++ (c.lexemes ++ p.after) →
      ∃ root, (Source.parse source first).1 = .ok root ∧ root.erase = p.fill σ.tree) ∧
    ∀ (a : Factor) (op : UnaryOp) (ls : List Lexeme), a.lexemes = .mark op.mark :: ls →
      ∃ u, a.tree = .unary () op u ∧ Derives (.operand u) ls := by
  obtain ⟨σ, hσ⟩ := exists_splits c
  have hexpr : Derives (.expression σ.tree) c.lexemes :=
    derives_of_splits hσ (by decide) fun x _ => x.1.level_pos
  refine ⟨σ, fun τ => ⟨fun hτ => splits_unique hτ hσ, ?_⟩, inorder_of_splits hσ,
    fun t => ⟨fun ht => expression_unique ht hexpr, ?_⟩, ?_, ?_⟩
  · rintro rfl
    exact hσ
  · rintro rfl
    exact hexpr
  · intro p source first hnone hlexemes
    refine (parse_iff_derives.2 source first _).mpr ⟨hnone, ?_⟩
    rw [hlexemes]
    exact p.derives hexpr
  · intro a op ls hls
    exact operand_of_unary (hls ▸ a.derives)

/-! ## Four operands -/

namespace Factor

def var (x : String) : Factor := ⟨.var () x, [.ident x], .var⟩

def neg (a : Factor) : Factor :=
  ⟨.unary () .neg a.tree, .mark .minus :: a.lexemes, .unary a.derives⟩

/-- Two variables and `or`, in parentheses. -/
def either (x y : String) : Factor where
  tree := .binary () (.arith .or) (.var () x) (.var () y)
  lexemes := [.mark .openParen, .ident x, .mark .kOr, .ident y, .mark .closeParen]
  derives :=
    have hx : Derives (.operation 1 (.var () x)) [.ident x] := Derives.var.operation (by decide)
    have hy : Derives (.operation 2 (.var () y)) [.ident y] := Derives.var.operation (by decide)
    have hor : Derives (.operation 1 (.binary () (.arith .or) (.var () x) (.var () y)))
        ([.ident x] ++ .mark .kOr :: [.ident y]) := .binary rfl hx hy
    hor.group

end Factor

/-- The value in an assignment that is a whole program. -/
def Place.value (x : String) : Place where
  before := [.ident x, .mark .assign]
  after := [.mark .eof]
  fill t := .block () [.assign () x t]
  derives h := .openProgram .nil (.assign h)

/-- `-a + b * (c or d) - e` -/
def fourOperands : Chain Factor :=
  ⟨.neg (.var "a"),
    [(.arith .add, .var "b"), (.arith .mul, .either "c" "d"), (.arith .sub, .var "e")]⟩

def fourOperandsShape : Shape Factor :=
  .operation (.arith .sub)
    (.operation (.arith .add) (.operand (.neg (.var "a")))
      (.operation (.arith .mul) (.operand (.var "b")) (.operand (.either "c" "d"))))
    (.operand (.var "e"))

theorem splits_fourOperands : Splits fourOperands fourOperandsShape := by
  have hmul : Splits (Chain.join ⟨Factor.var "b", []⟩ (.arith .mul) ⟨.either "c" "d", []⟩) _ :=
    .operation nofun nofun .operand .operand
  have hadd : Splits (Chain.join ⟨Factor.neg (.var "a"), []⟩ (.arith .add) _) _ :=
    .operation nofun (by simp [Chain.join, BinaryOp.level]) .operand hmul
  have hsub : Splits (Chain.join _ (.arith .sub) ⟨Factor.var "e", []⟩) _ :=
    .operation (by simp [Chain.join, BinaryOp.level]) nofun hadd .operand
  exact hsub

theorem tree_of_fourOperands :
    (Source.feed "x = -a + b * (c or d) - e").failure = none ∧
      (Source.feed "x = -a + b * (c or d) - e").lexemes =
        (Place.value "x").before ++ (fourOperands.lexemes ++ (Place.value "x").after) ∧
      ∃ root, (Source.parse "x = -a + b * (c or d) - e" 0).1 = .ok root ∧
        root.erase = .block () [.assign () "x" fourOperandsShape.tree] := by
  have hnone : (Source.feed "x = -a + b * (c or d) - e").failure = none := by decide +kernel
  have hlexemes : (Source.feed "x = -a + b * (c or d) - e").lexemes =
      (Place.value "x").before ++ (fourOperands.lexemes ++ (Place.value "x").after) := by
    decide +kernel
  obtain ⟨σ, hσ, -, -, hparse, -⟩ := tree_of_chain fourOperands
  obtain rfl := (hσ fourOperandsShape).mp splits_fourOperands
  exact ⟨hnone, hlexemes, hparse (Place.value "x") _ 0 hnone hlexemes⟩

end Onepass
