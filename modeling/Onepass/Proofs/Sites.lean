import Onepass.Proofs.Depth
import Onepass.Proofs.Symbols

/-!
# Onepass.Proofs.Sites

Where the code of each part of a program stands. The number of lines of a piece does not depend on
the tables, so the place of each part follows from the tree: `Placed body p k` says that the code of
the piece `p` of the program `body` begins with line `k` of the program's code.

* `length_of_lowers` -- the number of lines.
* `site_of_placed`   -- the code of the piece does stand there, at a level that is known.
* `owned_of_lowers`  -- each call of a function, each `RET` and each jump over a string is part of
  the code of a node that is placed.
-/

namespace Onepass

open Assembly Lowering

namespace Node

mutual

/-- The number of lines of a node's code. -/
def extent : Node Nat → Nat
  | .var _ _ | .int _ _ | .declare _ _ => 1
  | .str i s => (stringCode i s).length
  | .binary _ op l r => r.extent + (l.extent + (op.code.length + 1) + 1)
  | .unary _ op e => e.extent + op.code.length
  | .read _ => readCode.length
  | .call _ f as => argExtent as + (callCode f as.length).length
  | .assign _ _ e => e.extent + 1
  | .define _ _ e => e.extent + 1 + 1
  | .print _ e => e.extent + printCode.length
  | .ret _ e => e.extent + leave.length
  | .branch _ c ys ns => c.extent + (2 + (blockExtent ys + (blockExtent ns + 1 + 1 + 1)))
  | .loop _ c body => c.extent + (2 + (blockExtent body + 2)) + 1
  | .function i f _ body => (enter i f).length + (blockExtent body + (finish i 0).length)
  | .block _ body => blockExtent body
  | .skip _ => 0

def blockExtent : List (Node Nat) → Nat
  | [] => 0
  | n :: rest => n.extent + if n.isReturn then 0 else blockExtent rest

def argExtent : List (Node Nat) → Nat
  | [] => 0
  | n :: rest => argExtent rest + (n.extent + 1)

end

end Node

open Node

def Piece.extent : Piece → Nat
  | .node n => n.extent
  | .block body => blockExtent body
  | .args as => argExtent as

theorem length_of_lowers {p t c t' v} (h : Lowers p t c t' v) : c.length = p.extent := by
  induction h with
  | last hret _ ih =>
    rw [ih, Piece.extent, Piece.extent, blockExtent, if_pos hret]
    rfl
  | cons hret _ _ ih ihrest =>
    rw [List.length_append, ih, ihrest, Piece.extent, Piece.extent, Piece.extent, blockExtent, hret]
    rfl
  | branch _ _ _ ihc ihy ihn =>
    simp only [Piece.extent, extent] at *
    simp [ihc, ihy, ihn, jumpIfFalse]
    omega
  | loop _ _ ihc ihb =>
    simp only [Piece.extent, extent] at *
    simp [ihc, ihb, jumpIfFalse]
    omega
  | _ => simp_all [Piece.extent, extent, argExtent, blockExtent, finish]

theorem length_of_node {n : Node Nat} {t c t' v} (h : Lowers (.node n) t c t' v) :
    c.length = n.extent :=
  length_of_lowers h

theorem length_of_block {ns : List (Node Nat)} {t c t' v} (h : Lowers (.block ns) t c t' v) :
    c.length = blockExtent ns :=
  length_of_lowers h

/-- What a piece stands for: statements, or values that are needed. -/
inductive Position where
  | statement
  | value

/-- The code of the piece begins with the line. The first line of a program makes its frame. -/
inductive Placed (body : List (Node Nat)) : Position → Piece → Nat → Prop where
  | root : Placed body .statement (.block body) 1
  | operand {r i op e k} : Placed body r (.node (.unary i op e)) k →
      Placed body .value (.node e) k
  | right {r i op x y k} : Placed body r (.node (.binary i op x y)) k →
      Placed body .value (.node y) k
  | left {r i op x y k} : Placed body r (.node (.binary i op x y)) k →
      Placed body .value (.node x) (k + y.extent + 1)
  | args {r i f as k} : Placed body r (.node (.call i f as)) k → Placed body .value (.args as) k
  | otherArgs {n rest k} : Placed body .value (.args (n :: rest)) k →
      Placed body .value (.args rest) k
  | arg {n rest k} : Placed body .value (.args (n :: rest)) k →
      Placed body .value (.node n) (k + argExtent rest)
  | assigned {i x e k} : Placed body .statement (.node (.assign i x e)) k →
      Placed body .value (.node e) k
  | defined {i x e k} : Placed body .statement (.node (.define i x e)) k →
      Placed body .value (.node e) (k + 1)
  | printed {i e k} : Placed body .statement (.node (.print i e)) k → Placed body .value (.node e) k
  | returned {i e k} : Placed body .statement (.node (.ret i e)) k → Placed body .value (.node e) k
  | condition {i c ys ns k} : Placed body .statement (.node (.branch i c ys ns)) k →
      Placed body .value (.node c) k
  | yes {i c ys ns k} : Placed body .statement (.node (.branch i c ys ns)) k →
      Placed body .statement (.block ys) (k + c.extent + 2)
  | no {i c ys ns k} : Placed body .statement (.node (.branch i c ys ns)) k →
      Placed body .statement (.block ns) (k + c.extent + 2 + blockExtent ys + 1 + 1)
  | loopCondition {i c es k} : Placed body .statement (.node (.loop i c es)) k →
      Placed body .value (.node c) (k + 1)
  | turn {i c es k} : Placed body .statement (.node (.loop i c es)) k →
      Placed body .statement (.block es) (k + 1 + c.extent + 2)
  | routine {i f ps es k} : Placed body .statement (.node (.function i f ps es)) k →
      Placed body .statement (.block es) (k + 5)
  | first {n rest k} : Placed body .statement (.block (n :: rest)) k →
      Placed body .statement (.node n) k
  | others {n rest k} : Placed body .statement (.block (n :: rest)) k → n.isReturn = false →
      Placed body .statement (.block rest) (k + n.extent)

/-- The piece stands in the body of a function. -/
def InRoutine (body : List (Node Nat)) (p : Piece) (k : Nat) : Prop :=
  ∃ i f ps es k₀, Placed body .statement (.node (.function i f ps es)) k₀ ∧ k₀ + 5 ≤ k ∧
    k + p.extent ≤ k₀ + 5 + blockExtent es

/-- The piece may stand there, in a function or at the top level. -/
def Piece.suits (b : Bool) : Position → Piece → Bool
  | .statement, p => p.isStatement b
  | .value, p => p.isExpression

structure Suits (body : List (Node Nat)) (b : Bool) (r : Position) (p : Piece) (k : Nat) :
    Prop where
  suits : p.suits b r = true
  routine : b = true → InRoutine body p k

section

variable {body : List (Node Nat)} {b : Bool} {r r₁ : Position} {p p₁ : Piece} {k k₁ : Nat}

theorem Suits.part (h : Suits body b r p k) (hsuits : p₁.suits b r₁ = true)
    (hk : k ≤ k₁ ∧ k₁ + p₁.extent ≤ k + p.extent) : Suits body b r₁ p₁ k₁ := by
  refine ⟨hsuits, fun hb => ?_⟩
  obtain ⟨i, f, ps, es, k₀, hp, hk₀, hes⟩ := h.routine hb
  exact ⟨i, f, ps, es, k₀, hp, by omega, by omega⟩

/-- Nodes that compute have expressions below them wherever they stand. -/
theorem Suits.value {n : Node Nat} (h : Suits body b r (.node n) k)
    (hn : ∀ b, n.isStatement b = n.isExpression) : n.isExpression = true := by
  cases r with
  | statement => exact (hn b).symm.trans h.suits
  | value => exact h.suits

theorem suits_of_placed (hbody : areStatements false body = true) (h : Placed body r p k) :
    ∃ b, Suits body b r p k := by
  induction h with
  | root => exact ⟨false, hbody, nofun⟩
  | operand _ ih =>
    obtain ⟨b, hs⟩ := ih
    refine ⟨b, hs.part (hs.value fun _ => rfl) ?_⟩
    simp only [Piece.extent, extent]
    omega
  | right _ ih =>
    obtain ⟨b, hs⟩ := ih
    obtain ⟨-, hy⟩ := Bool.and_eq_true_iff.mp (hs.value fun _ => rfl)
    refine ⟨b, hs.part hy ?_⟩
    simp only [Piece.extent, extent]
    omega
  | left _ ih =>
    obtain ⟨b, hs⟩ := ih
    obtain ⟨hx, -⟩ := Bool.and_eq_true_iff.mp (hs.value fun _ => rfl)
    refine ⟨b, hs.part hx ?_⟩
    simp only [Piece.extent, extent]
    omega
  | args _ ih =>
    obtain ⟨b, hs⟩ := ih
    refine ⟨b, hs.part (hs.value fun _ => rfl) ?_⟩
    simp only [Piece.extent, extent]
    omega
  | otherArgs _ ih =>
    obtain ⟨b, hs⟩ := ih
    obtain ⟨-, hrest⟩ := Bool.and_eq_true_iff.mp hs.suits
    refine ⟨b, hs.part hrest ?_⟩
    simp only [Piece.extent, argExtent]
    omega
  | arg _ ih =>
    obtain ⟨b, hs⟩ := ih
    obtain ⟨hn, -⟩ := Bool.and_eq_true_iff.mp hs.suits
    refine ⟨b, hs.part hn ?_⟩
    simp only [Piece.extent, argExtent]
    omega
  | assigned _ ih | defined _ ih | printed _ ih =>
    obtain ⟨b, hs⟩ := ih
    refine ⟨b, hs.part hs.suits ?_⟩
    simp only [Piece.extent, extent]
    omega
  | returned _ ih =>
    obtain ⟨b, hs⟩ := ih
    obtain ⟨-, he⟩ := Bool.and_eq_true_iff.mp hs.suits
    refine ⟨b, hs.part he ?_⟩
    simp only [Piece.extent, extent]
    omega
  | condition _ ih =>
    obtain ⟨b, hs⟩ := ih
    obtain ⟨hboth, -⟩ := Bool.and_eq_true_iff.mp hs.suits
    refine ⟨b, hs.part (Bool.and_eq_true_iff.mp hboth).1 ?_⟩
    simp only [Piece.extent, extent]
    omega
  | yes _ ih =>
    obtain ⟨b, hs⟩ := ih
    obtain ⟨hboth, -⟩ := Bool.and_eq_true_iff.mp hs.suits
    refine ⟨b, hs.part (Bool.and_eq_true_iff.mp hboth).2 ?_⟩
    simp only [Piece.extent, extent]
    omega
  | no _ ih =>
    obtain ⟨b, hs⟩ := ih
    obtain ⟨-, hns⟩ := Bool.and_eq_true_iff.mp hs.suits
    refine ⟨b, hs.part hns ?_⟩
    simp only [Piece.extent, extent]
    omega
  | loopCondition _ ih =>
    obtain ⟨b, hs⟩ := ih
    obtain ⟨hc, -⟩ := Bool.and_eq_true_iff.mp hs.suits
    refine ⟨b, hs.part hc ?_⟩
    simp only [Piece.extent, extent]
    omega
  | turn _ ih =>
    obtain ⟨b, hs⟩ := ih
    obtain ⟨-, hes⟩ := Bool.and_eq_true_iff.mp hs.suits
    refine ⟨b, hs.part hes ?_⟩
    simp only [Piece.extent, extent]
    omega
  | @routine i f ps es k hp ih =>
    obtain ⟨b, hs⟩ := ih
    refine ⟨true, hs.suits, fun _ => ?_⟩
    exact ⟨i, f, ps, es, k, hp, Nat.le_refl _, Nat.le_refl _⟩
  | first _ ih =>
    obtain ⟨b, hs⟩ := ih
    obtain ⟨hn, -⟩ := Bool.and_eq_true_iff.mp hs.suits
    refine ⟨b, hs.part hn ?_⟩
    simp only [Piece.extent, blockExtent]
    omega
  | others _ hreturn ih =>
    obtain ⟨b, hs⟩ := ih
    obtain ⟨-, hrest⟩ := Bool.and_eq_true_iff.mp hs.suits
    refine ⟨b, hs.part hrest ?_⟩
    simp only [Piece.extent, blockExtent, hreturn, Bool.false_eq_true, if_false]
    omega

theorem isExpression_of_placed (hbody : areStatements false body = true)
    (h : Placed body .value p k) : p.isExpression = true := by
  obtain ⟨b, hs⟩ := suits_of_placed hbody h
  exact hs.suits

end

namespace Assembly

/-- The level at a line of a program's code. -/
def levelAt (ls : List Line) (i : Nat) : Option Level := levelAfter (ls.take i) (.bare 4)

/-- The lines `c` stand behind `k` lines that leave `d` bytes on the frame. -/
def Spot (ls : List Line) (k d : Nat) (c : List Line) : Prop :=
  ∃ pre post, ls = pre ++ (c ++ post) ∧ pre.length = k ∧
    levelAfter pre (.bare 4) = some (.framed d)

namespace Spot

variable {ls a c : List Line} {l : Line} {k d e i : Nat}

theorem front (h : Spot ls k d (a ++ c)) : Spot ls k d a := by
  obtain ⟨pre, post, rfl, hk, hd⟩ := h
  exact ⟨pre, c ++ post, by rw [List.append_assoc], hk, hd⟩

theorem behind (h : Spot ls k d (a ++ c)) (ha : levelAfter a (.framed d) = some (.framed e)) :
    Spot ls (k + a.length) e c := by
  obtain ⟨pre, post, rfl, hk, hd⟩ := h
  refine ⟨pre ++ a, post, ?_, ?_, levelAfter_trans hd ha⟩
  · simp only [List.append_assoc]
  · rw [List.length_append, hk]

theorem next (h : Spot ls k d (l :: c)) (hl : l.follow (.framed d) = some (.framed e)) :
    Spot ls (k + 1) e c :=
  h.behind (a := [l]) (levelAfter_cons hl rfl)

theorem level (h : Spot ls k d c) (hi : i ≤ c.length) :
    levelAt ls (k + i) = levelAfter (c.take i) (.framed d) := by
  obtain ⟨pre, post, rfl, rfl, hd⟩ := h
  rw [levelAt, List.take_append, List.take_of_length_le (Nat.le_add_right _ i),
    Nat.add_sub_cancel_left, List.take_append_of_le_length hi, levelAfter_append, hd]
  rfl

theorem first (h : Spot ls k d c) : levelAt ls k = some (.framed d) :=
  h.level (Nat.zero_le c.length)

theorem last (h : Spot ls k d c) (hc : levelAfter c (.framed d) = some (.framed e)) :
    levelAt ls (k + c.length) = some (.framed e) := by
  rw [h.level (Nat.le_refl _), List.take_length, hc]

theorem line (h : Spot ls k d a) (hi : i < a.length) : ls[k + i]? = a[i]? := by
  obtain ⟨pre, post, rfl, rfl, -⟩ := h
  rw [List.getElem?_append_right (Nat.le_add_right _ i), Nat.add_sub_cancel_left,
    List.getElem?_append_left hi]

end Spot
end Assembly

/-- The code `c` of a piece where it stands in the code of a program with the functions `fs`. -/
structure Site (ls : List Line) (fs : List Function) (r : Position) (p : Piece) (k d : Nat)
    (t : Tables) (c : List Line) (t' : Tables) (v : Value) : Prop where
  lowers : Lowers p t c t' v
  spot : Spot ls k d c
  known : ∀ f ps, t'.routines.params? f = some ps → paramsIn fs f = some ps
  empty : r = .statement → d = 0

theorem site_of_placed {ls : List Line} {fs : List Function} {body : List (Node Nat)}
    (hbody : areStatements false body = true) {t₀ c₀ t₀' v₀}
    (hroot : Site ls fs .statement (.block body) 1 0 t₀ c₀ t₀' v₀) {r : Position} {p : Piece}
    {k : Nat} (h : Placed body r p k) : ∃ d t c t' v, Site ls fs r p k d t c t' v := by
  induction h with
  | root => exact ⟨_, _, _, _, _, hroot⟩
  | operand _ ih =>
    obtain ⟨d, t, c, t', v, hl, hs, hknown, -⟩ := ih
    cases hl with
    | unary hl => exact ⟨_, _, _, _, _, hl, hs.front, hknown, nofun⟩
  | right _ ih =>
    obtain ⟨d, t, c, t', v, hl, hs, hknown, -⟩ := ih
    cases hl with
    | binary hr hl =>
      refine ⟨_, _, _, _, _, hr, hs.front, fun f ps hf => ?_, nofun⟩
      exact hknown f ps (params?_mono hl hf)
  | left hp ih =>
    obtain ⟨d, t, c, t', v, hl, hs, hknown, -⟩ := ih
    cases hl with
    | binary hr hl =>
      have hright := isExpression_of_placed hbody hp.right
      have hs' := hs.behind (above_of_lowers hr hright d).levelAfter_eq
      rw [length_of_lowers hr] at hs'
      exact ⟨_, _, _, _, _, hl, (hs'.next rfl).front, hknown, nofun⟩
  | args _ ih =>
    obtain ⟨d, t, c, t', v, hl, hs, hknown, -⟩ := ih
    cases hl with
    | call _ _ hl => exact ⟨_, _, _, _, _, hl, hs.front, hknown, nofun⟩
  | otherArgs _ ih =>
    obtain ⟨d, t, c, t', v, hl, hs, hknown, -⟩ := ih
    cases hl with
    | arg hrest hl =>
      refine ⟨_, _, _, _, _, hrest, hs.front, fun f ps hf => ?_, nofun⟩
      exact hknown f ps (params?_mono hl hf)
  | arg hp ih =>
    obtain ⟨d, t, c, t', v, hl, hs, hknown, -⟩ := ih
    cases hl with
    | arg hrest hl =>
      have hothers := isExpression_of_placed hbody hp.otherArgs
      have hs' := hs.behind (above_of_lowers hrest hothers d).levelAfter_eq
      rw [length_of_lowers hrest] at hs'
      exact ⟨_, _, _, _, _, hl, hs'.front, hknown, nofun⟩
  | assigned _ ih =>
    obtain ⟨d, t, c, t', v, hl, hs, hknown, -⟩ := ih
    cases hl with
    | assign hl => exact ⟨_, _, _, _, _, hl, hs.front, hknown, nofun⟩
  | defined _ ih =>
    obtain ⟨d, t, c, t', v, hl, hs, hknown, -⟩ := ih
    cases hl with
    | define _ hl => exact ⟨_, _, _, _, _, hl, (hs.next rfl).front, hknown, nofun⟩
  | printed _ ih =>
    obtain ⟨d, t, c, t', v, hl, hs, hknown, -⟩ := ih
    cases hl with
    | print hl => exact ⟨_, _, _, _, _, hl, hs.front, hknown, nofun⟩
  | returned _ ih =>
    obtain ⟨d, t, c, t', v, hl, hs, hknown, -⟩ := ih
    cases hl with
    | ret hl => exact ⟨_, _, _, _, _, hl, hs.front, hknown, nofun⟩
  | condition _ ih =>
    obtain ⟨d, t, c, t', v, hl, hs, hknown, -⟩ := ih
    cases hl with
    | branch hl hys hns =>
      refine ⟨_, _, _, _, _, hl, hs.front, fun f ps hf => ?_, nofun⟩
      exact hknown f ps (params?_mono hns (params?_mono hys hf))
  | yes hp ih =>
    obtain ⟨d, t, c, t', v, hl, hs, hknown, hd⟩ := ih
    cases hd rfl
    cases hl with
    | branch hl hys hns =>
      have hcond := isExpression_of_placed hbody hp.condition
      have hs' := hs.behind (levelAfter_of_expression hl hcond)
      rw [length_of_lowers hl] at hs'
      refine ⟨_, _, _, _, _, hys, (hs'.behind rfl).front, fun f ps hf => ?_, fun _ => rfl⟩
      exact hknown f ps (params?_mono hns hf)
  | no hp ih =>
    obtain ⟨d, t, c, t', v, hl, hs, hknown, hd⟩ := ih
    cases hd rfl
    cases hl with
    | branch hl hys hns =>
      have hcond := isExpression_of_placed hbody hp.condition
      obtain ⟨b, hyes⟩ := suits_of_placed hbody hp.yes
      have hs' := hs.behind (levelAfter_of_expression hl hcond)
      rw [length_of_lowers hl] at hs'
      have hs'' := (hs'.behind rfl).behind (levelAfter_of_lowers hys hyes.suits)
      rw [length_of_lowers hys] at hs''
      exact ⟨_, _, _, _, _, hns, ((hs''.next rfl).next rfl).front, hknown, fun _ => rfl⟩
  | loopCondition _ ih =>
    obtain ⟨d, t, c, t', v, hl, hs, hknown, hd⟩ := ih
    cases hd rfl
    cases hl with
    | loop hl hes =>
      refine ⟨_, _, _, _, _, hl, (hs.next rfl).front, fun f ps hf => ?_, nofun⟩
      exact hknown f ps (params?_mono hes hf)
  | turn hp ih =>
    obtain ⟨d, t, c, t', v, hl, hs, hknown, hd⟩ := ih
    cases hd rfl
    cases hl with
    | loop hl hes =>
      have hcond := isExpression_of_placed hbody hp.loopCondition
      have hs' := (hs.next rfl).behind (levelAfter_of_expression hl hcond)
      rw [length_of_lowers hl] at hs'
      exact ⟨_, _, _, _, _, hes, (hs'.behind rfl).front, hknown, fun _ => rfl⟩
  | routine _ ih =>
    obtain ⟨d, t, c, t', v, hl, hs, hknown, hd⟩ := ih
    cases hd rfl
    cases hl with
    | @function _ f _ _ _ _ _ _ u v _ _ hes =>
      refine ⟨_, _, _, _, _, hes, (hs.behind rfl).front, fun g ps hg => ?_, fun _ => rfl⟩
      exact hknown g ps (by rw [Routines.params?_noted]; exact hg)
  | first _ ih =>
    obtain ⟨d, t, c, t', v, hl, hs, hknown, hd⟩ := ih
    cases hl with
    | last _ hl => exact ⟨_, _, _, _, _, hl, hs, hknown, hd⟩
    | cons _ hl hrest =>
      refine ⟨_, _, _, _, _, hl, hs.front, fun f ps hf => ?_, hd⟩
      exact hknown f ps (params?_mono hrest hf)
  | others hp hreturn ih =>
    obtain ⟨d, t, c, t', v, hl, hs, hknown, hd⟩ := ih
    cases hd rfl
    cases hl with
    | last hret => cases hreturn.symm.trans hret
    | cons _ hl hrest =>
      obtain ⟨b, hfirst⟩ := suits_of_placed hbody hp.first
      have hs' := hs.behind (levelAfter_of_lowers hl hfirst.suits)
      rw [length_of_lowers hl] at hs'
      exact ⟨_, _, _, _, _, hrest, hs', hknown, fun _ => rfl⟩

/-! ## Lines and the nodes that they belong to -/

/-- The line is one of the lines of a node that is placed, if it is a call of a function, a `RET`
or a jump over a string. -/
def Owned (body : List (Node Nat)) (i : Nat) : Line → Prop
  | .instr (.call (.routine f)) =>
    ∃ r j as k, Placed body r (.node (.call j f as)) k ∧ i = k + argExtent as
  | .instr .ret =>
    (∃ j e k, Placed body .statement (.node (.ret j e)) k ∧ i = k + e.extent + 2) ∨
      ∃ j f ps es k, Placed body .statement (.node (.function j f ps es)) k ∧
        i = k + 5 + blockExtent es + 3
  | .instr (.jmp (.textEnd j)) => ∃ r s, Placed body r (.node (.str j s)) i
  | .instr (.je (.textEnd _)) | .instr (.jg (.textEnd _)) | .instr (.jl (.textEnd _)) => False
  | _ => True

def AllOwned (body : List (Node Nat)) : Nat → List Line → Prop
  | _, [] => True
  | i, l :: ls => Owned body i l ∧ AllOwned body (i + 1) ls

section

variable {body : List (Node Nat)} {k : Nat} {a c : List Line}

theorem AllOwned.append (ha : AllOwned body k a) (hc : AllOwned body (k + a.length) c) :
    AllOwned body k (a ++ c) := by
  induction a generalizing k with
  | nil => exact hc
  | cons l a ih =>
    rw [List.length_cons, Nat.add_comm a.length, ← Nat.add_assoc] at hc
    exact ⟨ha.1, ih ha.2 hc⟩

theorem AllOwned.line (h : AllOwned body k a) {i : Nat} {l : Line} (hl : a[i]? = some l) :
    Owned body (k + i) l := by
  induction a generalizing k i with
  | nil => cases hl
  | cons l' a ih =>
    cases i with
    | zero =>
      cases hl
      exact h.1
    | succ i =>
      rw [Nat.add_comm i, ← Nat.add_assoc]
      exact ih h.2 hl

theorem allOwned_code (op : BinaryOp) : AllOwned body k op.code := by
  rcases op with (_ | _ | _ | _ | _ | _) | (_ | _ | _) | _ <;> simp [BinaryOp.code, Arith.code,
    Relation.routine, AllOwned, Owned]

theorem allOwned_unaryCode (op : UnaryOp) : AllOwned body k (op.code.map .instr) := by
  cases op <;> simp [UnaryOp.code, AllOwned, Owned]

theorem statement_of_placed (hbody : areStatements false body = true) {r : Position} {p : Piece}
    (h : Placed body r p k) (hp : p.isExpression = false) : r = .statement := by
  cases r with
  | statement => rfl
  | value => cases hp.symm.trans (isExpression_of_placed hbody h)

theorem owned_of_lowers (hbody : areStatements false body = true) {p t c t' v}
    (h : Lowers p t c t' v) {r : Position} (hp : Placed body r p k) : AllOwned body k c := by
  induction h generalizing r k with
  | var | int | declare => exact ⟨trivial, trivial⟩
  | str => exact ⟨⟨r, _, hp⟩, trivial, trivial, trivial, trivial⟩
  | @binary _ op _ _ _ _ _ _ _ _ _ _ hr hl _ ihr ihl =>
    have hleft := ihl hp.left
    rw [← length_of_node hr] at hleft
    refine (ihr hp.right).append ⟨trivial, AllOwned.append hleft ?_⟩
    exact ⟨trivial, allOwned_code op⟩
  | unary _ _ ih => exact (ih hp.operand).append (allOwned_unaryCode _)
  | read => simp [readCode, AllOwned, Owned]
  | @call i f as _ _ _ _ _ _ _ has ih =>
    refine (ih hp.args).append ⟨⟨r, i, as, k, hp, by rw [length_of_lowers has]; rfl⟩, ?_⟩
    split <;> simp [AllOwned, Owned]
  | assign _ _ ih =>
    cases statement_of_placed hbody hp rfl
    exact (ih hp.assigned).append ⟨trivial, trivial⟩
  | define _ _ _ ih =>
    cases statement_of_placed hbody hp rfl
    exact ⟨trivial, (ih hp.defined).append ⟨trivial, trivial⟩⟩
  | print _ ih =>
    cases statement_of_placed hbody hp rfl
    exact (ih hp.printed).append (by simp [printCode, AllOwned, Owned])
  | @ret i e _ _ _ _ hl ih =>
    cases statement_of_placed hbody hp rfl
    refine (ih hp.returned).append ⟨trivial, trivial, .inl ⟨i, e, k, hp, ?_⟩, trivial⟩
    rw [length_of_lowers hl]
    rfl
  | branch hc hy _ ihc ihy ihn =>
    cases statement_of_placed hbody hp rfl
    have hyes := ihy hp.yes
    have hno := ihn hp.no
    rw [← length_of_block hy, ← length_of_node hc] at hno
    rw [← length_of_node hc] at hyes
    refine (ihc hp.condition).append (AllOwned.append ⟨trivial, trivial, trivial⟩ ?_)
    exact AllOwned.append hyes ⟨trivial, trivial, AllOwned.append hno ⟨trivial, trivial⟩⟩
  | loop hc _ ihc ihb =>
    cases statement_of_placed hbody hp rfl
    have hturn := ihb hp.turn
    rw [← length_of_node hc] at hturn
    refine ⟨trivial, (ihc hp.loopCondition).append (AllOwned.append ⟨trivial, trivial, trivial⟩ ?_)⟩
    exact AllOwned.append hturn ⟨trivial, trivial, trivial⟩
  | @function i f ps es _ _ _ c u v _ _ hes ih =>
    cases statement_of_placed hbody hp rfl
    refine AllOwned.append (by simp [enter, AllOwned, Owned]) ((ih hp.routine).append ?_)
    refine ⟨trivial, trivial, trivial, .inr ⟨i, f, ps, es, k, hp, ?_⟩, trivial, trivial, trivial⟩
    rw [length_of_lowers hes]
    rfl
  | block =>
    obtain ⟨b, hs⟩ := suits_of_placed hbody hp
    cases r <;> cases hs.suits
  | skip | nil | noArgs => trivial
  | last _ _ ih =>
    cases statement_of_placed hbody hp rfl
    exact ih hp.first
  | cons hret hl _ ih ihrest =>
    cases statement_of_placed hbody hp rfl
    have hrest := ihrest (hp.others hret)
    rw [← length_of_node hl] at hrest
    exact (ih hp.first).append hrest
  | arg hrest _ ihrest ih =>
    obtain ⟨b, hs⟩ := suits_of_placed hbody hp
    cases r with
    | statement => cases hs.suits
    | value =>
      have hfirst := ih hp.arg
      have hlen : _ = argExtent _ := length_of_lowers hrest
      rw [← hlen] at hfirst
      exact (ihrest hp.otherArgs).append (AllOwned.append hfirst ⟨trivial, trivial⟩)

end

end Onepass
