import Onepass.Proofs.Grammar

/-!
# Onepass.Proofs.Depth

What is on the stack at each line of a program's code, found by going through the lines in order.
`Instr.after` is what one instruction does to it. Behind a `RET` and behind the jump over a routine
the next line is not reached from the line before; `Line.follow` says what holds there: the frame
is empty, and the routine has been called. A label and the jumps to it have one level, which is
known from its symbol.

* `above_of_lowers` -- the code of an expression ends at the depth that it began with, and never
  goes below it. The code of arguments puts one word on top for each.
* `levelAfter_of_lowers` -- the code of statements begins and ends with nothing on the frame.
* `label_of_jump` -- each jump goes to a label of the same code.
-/

namespace Onepass
namespace Assembly

/-- What a routine has put on the stack. -/
inductive Level where
  /-- Bytes on top of the frame. -/
  | framed (bytes : Nat)
  /-- Bytes on top of the return address, while there is no frame. -/
  | bare (bytes : Nat)
  deriving DecidableEq, Repr

/-- The level that a label has, unless it is one inside an expression. -/
def Symbol.level? : Symbol → Option Level
  | .textEnd _ => none
  | .routine _ => some (.bare 0)
  | _ => some (.framed 0)

namespace Instr

/-- What the instruction writes. -/
def dst? : Instr → Option Operand
  | .mov dst _ | .add dst _ | .sub dst _ | .and dst _ | .or dst _ | .xor dst _ | .neg dst => some dst
  | .pop r => some (.reg r)
  | _ => none

/-- The level behind the instruction, if it can run at that level. A call leaves the stack as it
is, and a frame is taken down whatever is on top of it. -/
def after (i : Instr) (v : Level) : Option Level :=
  match i, v with
  | .push _, .framed n => some (.framed (n + 4))
  | .push _, .bare n => some (.bare (n + 4))
  | .pop .ebx, .framed n => if 4 ≤ n then some (.framed (n - 4)) else none
  | .pop .ebp, .bare n => if 4 ≤ n then some (.bare (n - 4)) else none
  | .add (.reg .esp) (.imm k), .framed n =>
    if 0 ≤ k ∧ k ≤ n then some (.framed (n - k.toNat)) else none
  | .mov (.reg .ebp) (.reg .esp), .bare n => some (.bare n)
  | .sub (.reg .esp) (.sym _), .bare n => if n = 4 then some (.framed 0) else none
  | .mov (.reg .esp) (.reg .ebp), .framed _ => some (.bare 4)
  | .ret, v => if v = .bare 0 then some v else none
  | i, v => if i.dst? = some (.reg .esp) ∨ i.dst? = some (.reg .ebp) then none else some v

/-- The label that the instruction may jump to. -/
def jump? : Instr → Option Symbol
  | .jmp x | .je x | .jg x | .jl x => some x
  | _ => none

/-- Can the next line be run behind the instruction? -/
def falls : Instr → Bool
  | .jmp _ | .ret => false
  | _ => true

end Instr

namespace Line

def after : Line → Level → Option Level
  | .instr i, v => i.after v
  | _, v => some v

def jump? : Line → Option Symbol
  | .instr i => i.jump?
  | _ => none

def falls : Line → Bool
  | .instr i => i.falls
  | _ => true

/-- The label that the line is or jumps to. -/
def label? : Line → Option Symbol
  | .label x => some x
  | l => l.jump?

/-- The level of the next line. -/
def pass : Line → Level → Option Level
  | .instr .ret, v => if v = .bare 0 then some (.framed 0) else none
  | .instr (.jmp (.routineEnd _)), _ => some (.bare 0)
  | l, v => l.after v

/-- The level of the next line, if labels are at their levels. -/
def follow (l : Line) (v : Level) : Option Level :=
  if (l.label?.bind Symbol.level?).all (· = v) then l.pass v else none

theorem pass_of_falls {l : Line} {v : Level} (h : l.falls = true) : l.pass v = l.after v := by
  unfold pass
  split
  · cases h
  · cases h
  · rfl

end Line

/-- The level behind the lines. -/
def levelAfter : List Line → Level → Option Level
  | [], v => some v
  | l :: ls, v => (l.follow v).bind (levelAfter ls)

theorem levelAfter_append (a b : List Line) (v : Level) :
    levelAfter (a ++ b) v = (levelAfter a v).bind (levelAfter b) := by
  induction a generalizing v with
  | nil => rfl
  | cons l a ih =>
    rw [List.cons_append, levelAfter, levelAfter]
    cases l.follow v with
    | none => rfl
    | some w => exact ih w

theorem levelAfter_cons {l : Line} {ls : List Line} {v w z : Level} (hl : l.follow v = some w)
    (h : levelAfter ls w = some z) : levelAfter (l :: ls) v = some z := by
  rw [levelAfter, hl]
  exact h

theorem levelAfter_trans {a b : List Line} {v w z : Level} (ha : levelAfter a v = some w)
    (hb : levelAfter b w = some z) : levelAfter (a ++ b) v = some z := by
  rw [levelAfter_append, ha]
  exact hb

/-- Lines in a frame with `m` bytes on it at first and `n` at last, and never less than `d`. -/
inductive Above (d : Nat) : Nat → List Line → Nat → Prop where
  | nil {n} : d ≤ n → Above d n [] n
  | cons {m m' n l ls} : d ≤ m → l.follow (.framed m) = some (.framed m') → Above d m' ls n →
      Above d m (l :: ls) n

namespace Above

variable {d e m m' n : Nat} {a b : List Line} {l : Line}

theorem append (ha : Above d m a m') (hb : Above d m' b n) : Above d m (a ++ b) n := by
  induction ha with
  | nil => exact hb
  | cons hd hl _ ih => exact .cons hd hl (ih hb)

theorem mono (hde : d ≤ e) (h : Above e m a n) : Above d m a n := by
  induction h with
  | nil hd => exact .nil (Nat.le_trans hde hd)
  | cons hd hl _ ih => exact .cons (Nat.le_trans hde hd) hl ih

theorem levelAfter_eq (h : Above d m a n) : levelAfter a (.framed m) = some (.framed n) := by
  induction h with
  | nil => rfl
  | cons _ hl _ ih => rw [levelAfter, hl, Option.bind_some, ih]

/-- The depth at each line. -/
theorem take (h : Above d m a n) (i : Nat) :
    ∃ k, d ≤ k ∧ levelAfter (a.take i) (.framed m) = some (.framed k) := by
  induction h generalizing i with
  | nil hd => exact ⟨_, hd, by rw [List.take_nil, levelAfter]⟩
  | cons hd hl _ ih =>
    cases i with
    | zero => exact ⟨_, hd, rfl⟩
    | succ i =>
      obtain ⟨k, hk, hs⟩ := ih i
      exact ⟨k, hk, by rw [List.take_succ_cons, levelAfter, hl, Option.bind_some, hs]⟩

theorem line (h : l.follow (.framed d) = some (.framed d)) : Above d d [l] d :=
  .cons (Nat.le_refl d) h (.nil (Nat.le_refl d))

/-- Lines that leave the depth as it is. -/
theorem of_neutral (h : ∀ l ∈ a, ∀ m, l.follow (.framed m) = some (.framed m)) : Above d d a d := by
  induction a with
  | nil => exact .nil (Nat.le_refl d)
  | cons l a ih =>
    obtain ⟨hl, ha⟩ := List.forall_mem_cons.mp h
    exact .cons (Nat.le_refl d) (hl d) (ih ha)

theorem push {o : Operand} : Above d d [.instr (.push o)] (d + 4) :=
  .cons (Nat.le_refl d) rfl (.nil (Nat.le_add_right d 4))

theorem pop : Above d (d + 4) [.instr (.pop .ebx)] d := by
  refine .cons (Nat.le_add_right d 4) ?_ (.nil (Nat.le_refl d))
  show (if 4 ≤ d + 4 then some (Level.framed (d + 4 - 4)) else none) = _
  rw [if_pos (Nat.le_add_left 4 d), Nat.add_sub_cancel]

theorem remove {k : Nat} : Above d (d + k) [.instr (.add (.reg .esp) (.imm k))] d := by
  refine .cons (Nat.le_add_right d k) ?_ (.nil (Nat.le_refl d))
  show (if (0 : Int) ≤ k ∧ (k : Int) ≤ (d + k : Nat) then _ else _) = _
  rw [if_pos (by omega), Int.toNat_natCast, Nat.add_sub_cancel]

end Above

end Assembly

open Assembly Lowering

theorem neutral_code (op : BinaryOp) :
    ∀ l ∈ op.code, ∀ m, l.follow (.framed m) = some (.framed m) := by
  rcases op with (_ | _ | _ | _ | _ | _) | (_ | _ | _) | _ <;> intro l hl m <;>
    simp only [BinaryOp.code, Arith.code, Relation.routine, List.map, List.mem_cons,
      List.not_mem_nil, or_false] at hl
  all_goals first
    | (subst hl; rfl)
    | (rcases hl with rfl | rfl <;> rfl)

theorem neutral_unaryCode (op : UnaryOp) :
    ∀ l ∈ op.code.map Line.instr, ∀ m, l.follow (.framed m) = some (.framed m) := by
  intro l hl m
  cases op <;> simp only [UnaryOp.code, List.map, List.mem_cons, List.not_mem_nil, or_false] at hl
  · subst hl
    rfl
  · rcases hl with rfl | rfl <;> rfl

theorem neutral_stringCode (i : Nat) (s : String) :
    ∀ l ∈ stringCode i s, ∀ m, l.follow (.framed m) = some (.framed m) := by
  intro l hl m
  simp only [stringCode, List.mem_cons, List.not_mem_nil, or_false] at hl
  rcases hl with rfl | rfl | rfl | rfl <;> rfl

/-- Two words for an outside routine are put on the stack and removed. -/
theorem above_external {d : Nat} {first second : Operand} {f : Symbol} :
    Above d d [.instr (.push first), .instr (.push second), .instr (.call f),
      .instr (.add (.reg .esp) (.imm 8))] d := by
  have htwo : Above d d [.instr (.push first), .instr (.push second)] (d + 8) :=
    Above.push.append (Above.push.mono (Nat.le_add_right d 4))
  have hcall : Above d (d + 8) [.instr (.call f)] (d + 8) :=
    .cons (Nat.le_add_right d 8) rfl (.nil (Nat.le_add_right d 8))
  exact htwo.append (hcall.append (Above.remove (k := 8)))

/-- The code of a call, the arguments being on the stack. -/
theorem above_callCode (f : String) (n d : Nat) :
    Above d (d + 4 * n) ((callCode f n).map .instr) d := by
  have hcall : Above d (d + 4 * n) [.instr (.call (.routine f))] (d + 4 * n) :=
    .cons (Nat.le_add_right d _) rfl (.nil (Nat.le_add_right d _))
  by_cases h : n = 0
  · subst h
    exact hcall
  · rw [callCode, if_neg h]
    exact hcall.append (Above.remove (k := 4 * n))

namespace Piece

/-- How much more is on the stack behind the piece. -/
def pushed : Piece → Nat
  | .args as => 4 * as.length
  | _ => 0

/-- The piece holds statements only. -/
def isStatement (b : Bool) : Piece → Bool
  | .node n => n.isStatement b
  | .block body => Node.areStatements b body
  | .args _ => false

/-- The piece holds expressions only. -/
def isExpression : Piece → Bool
  | .node n => n.isExpression
  | .args as => Node.areExpressions as
  | .block _ => false

end Piece

theorem above_of_lowers {p t c t' v} (h : Lowers p t c t' v) (hp : p.isExpression = true) (d : Nat) :
    Above d d c (d + p.pushed) := by
  induction h generalizing d with
  | var | int => exact .line rfl
  | str => exact .of_neutral (neutral_stringCode _ _)
  | @binary _ op _ _ _ _ _ _ _ _ _ _ _ _ _ ihr ihl =>
    obtain ⟨hl, hr⟩ := Bool.and_eq_true_iff.mp hp
    have hleft := (ihl hl (d + 4)).mono (Nat.le_add_right d 4)
    exact (ihr hr d).append (Above.push.append
      (hleft.append (Above.pop.append (.of_neutral (neutral_code op)))))
  | unary _ _ ih => exact (ih hp d).append (.of_neutral (neutral_unaryCode _))
  | read => exact above_external.append (.line rfl)
  | call _ _ _ ih => exact (ih hp d).append (above_callCode _ _ d)
  | noArgs => exact .nil (Nat.le_refl d)
  | @arg n rest _ _ _ _ _ _ _ _ _ ihrest ihn =>
    obtain ⟨hn, hrest⟩ := Bool.and_eq_true_iff.mp hp
    have hfirst := (ihn hn (d + 4 * rest.length)).mono (Nat.le_add_right d _)
    have hpush := (Above.push (d := d + 4 * rest.length) (o := .reg .eax)).mono
      (Nat.le_add_right d _)
    have hall := (ihrest hrest d).append (hfirst.append hpush)
    have hlen : d + (Piece.args (n :: rest)).pushed = d + 4 * rest.length + 4 := by
      rw [Piece.pushed, List.length_cons]
      omega
    rw [hlen]
    exact hall
  | assign | declare | define | print | ret | branch | loop | function | block | skip | nil | last
  | cons => cases hp

/-- The code of an expression that begins with nothing on the frame. -/
theorem levelAfter_of_expression {n : Node Nat} {t c t' v} (h : Lowers (.node n) t c t' v)
    (hn : n.isExpression = true) : levelAfter c (.framed 0) = some (.framed 0) :=
  (above_of_lowers h hn 0).levelAfter_eq

theorem levelAfter_of_lowers {p t c t' v} {b : Bool} (h : Lowers p t c t' v)
    (hp : p.isStatement b = true) : levelAfter c (.framed 0) = some (.framed 0) := by
  induction h generalizing b with
  | var | int | read => rfl
  | str => exact (Above.of_neutral (neutral_stringCode _ _)).levelAfter_eq
  | binary hr hl hop => exact levelAfter_of_expression (.binary (i := 0) hr hl hop) hp
  | unary hl hop => exact levelAfter_of_expression (.unary (i := 0) hl hop) hp
  | call hf hn has => exact levelAfter_of_expression (.call (i := 0) hf hn has) hp
  | assign hl => exact levelAfter_trans (levelAfter_of_expression hl hp) rfl
  | declare => rfl
  | define _ hl =>
    exact levelAfter_cons rfl (levelAfter_trans (levelAfter_of_expression hl hp) rfl)
  | print hl => exact levelAfter_trans (levelAfter_of_expression hl hp) rfl
  | ret hl =>
    obtain ⟨-, he⟩ := Bool.and_eq_true_iff.mp hp
    exact levelAfter_trans (levelAfter_of_expression hl he) rfl
  | branch hl _ _ _ ihy ihn =>
    obtain ⟨hp, hn⟩ := Bool.and_eq_true_iff.mp hp
    obtain ⟨he, hy⟩ := Bool.and_eq_true_iff.mp hp
    exact levelAfter_trans (levelAfter_of_expression hl he) (levelAfter_trans rfl
      (levelAfter_trans (ihy hy) (levelAfter_cons rfl (levelAfter_cons rfl
        (levelAfter_trans (ihn hn) rfl)))))
  | loop hl _ _ ih =>
    obtain ⟨he, hb⟩ := Bool.and_eq_true_iff.mp hp
    exact levelAfter_cons rfl (levelAfter_trans (levelAfter_of_expression hl he)
      (levelAfter_trans rfl (levelAfter_trans (ih hb) rfl)))
  | function _ _ _ ih =>
    exact levelAfter_trans rfl (levelAfter_trans (ih hp) rfl)
  | block => cases hp
  | skip | nil => rfl
  | last _ _ ih => exact ih (Bool.and_eq_true_iff.mp hp).1
  | cons _ _ _ ih ihrest =>
    obtain ⟨hn, hrest⟩ := Bool.and_eq_true_iff.mp hp
    exact levelAfter_trans (ih hn) (ihrest hrest)
  | noArgs | arg => cases hp

/-! ## Jumps -/

theorem jump?_code (op : BinaryOp) : ∀ l ∈ op.code, l.jump? = none := by
  rcases op with (_ | _ | _ | _ | _ | _) | (_ | _ | _) | _ <;> decide

theorem jump?_unaryCode (op : UnaryOp) : ∀ l ∈ op.code.map Line.instr, l.jump? = none := by
  cases op <;> decide

theorem jump?_callCode (f : String) (n : Nat) :
    ∀ l ∈ (callCode f n).map Line.instr, l.jump? = none := by
  by_cases h : n = 0 <;> simp [callCode, h, Line.jump?, Instr.jump?]

attribute [local simp] Line.jump? Instr.jump? stringCode readCode printCode jumpIfFalse leave enter
  finish

theorem label_of_jump {p t c t' v} (h : Lowers p t c t' v) :
    ∀ l ∈ c, ∀ x, l.jump? = some x → .label x ∈ c := by
  induction h with
  | @binary _ op =>
    have hop := jump?_code op
    simp at *
    grind
  | @unary _ op =>
    have hop := jump?_unaryCode op
    simp at *
    grind
  | @call _ f as =>
    have hcall := jump?_callCode f as.length
    simp at *
    grind
  | _ =>
    simp at *
    try grind

end Onepass
