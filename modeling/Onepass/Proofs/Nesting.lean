import Mathlib.Data.List.Chain
import Onepass.Proofs.Depth
import Onepass.Proofs.Symbols

/-!
# Onepass.Proofs.Nesting

Routines stand where their functions are declared, inside the code around them: in loops, in
branches and in other routines. `Nested` says that they lie one behind the other or one in the
other, and `framed` gives each line the routines around it.

* `nested_of_lowers`  -- lowered code has whole routines only.
* `jumps_of_lowers`   -- a jump and its label have the same routines around them.
* `orderly_of_lowers` -- what is not to be run stands behind a line that control does not pass.
-/

namespace Onepass
namespace Assembly

/-- The line neither begins nor enters nor ends a routine. -/
def Line.isPlain : Line → Bool
  | .instr (.jmp (.routineEnd _)) | .label (.routine _) | .label (.routineEnd _) => false
  | _ => true

/-- Whole routines among other lines. A routine is the jump over it, its entry, the lines inside
and the label behind it. -/
inductive Nested : List Line → Prop where
  | nil : Nested []
  | line {l ls} : l.isPlain = true → Nested ls → Nested (l :: ls)
  | routine {i f ls ms} : Nested ls → Nested ms →
      Nested (.instr (.jmp (.routineEnd i)) :: .label (.routine f) ::
        (ls ++ .label (.routineEnd i) :: ms))

/-- The routines around a line, when `rs` are those around what comes before it. -/
def Line.outer (l : Line) (rs : List Nat) : List Nat :=
  match l with
  | .label (.routineEnd _) => rs.tail
  | _ => rs

/-- The routines around what comes behind a line, when `rs` are those around the line. -/
def Line.inner (l : Line) (rs : List Nat) : List Nat :=
  match l with
  | .instr (.jmp (.routineEnd i)) => i :: rs
  | _ => rs

/-- Each line with the routines around it, the innermost first. -/
def framed : List Line → List Nat → List (List Nat × Line)
  | [], _ => []
  | l :: ls, rs => (l.outer rs, l) :: framed ls (l.inner (l.outer rs))

section

variable {l l' : Line} {ls ms : List Line} {rs s s' : List Nat} {i : Nat}

theorem Line.outer_of_isPlain (h : l.isPlain = true) : l.outer rs = rs := by
  unfold Line.outer
  split
  · cases h
  · rfl

theorem Line.inner_of_isPlain (h : l.isPlain = true) : l.inner rs = rs := by
  unfold Line.inner
  split
  · cases h
  · rfl

theorem framed_of_isPlain (h : l.isPlain = true) :
    framed (l :: ls) rs = (rs, l) :: framed ls rs := by
  rw [framed, Line.outer_of_isPlain h, Line.inner_of_isPlain h]

theorem map_framed (ls : List Line) (rs : List Nat) : (framed ls rs).map Prod.snd = ls := by
  induction ls generalizing rs with
  | nil => rfl
  | cons l ls ih => rw [framed, List.map_cons, ih]

theorem line_of_framed (h : (framed ls rs)[i]? = some (s, l)) : ls[i]? = some l := by
  rw [← map_framed ls rs, List.getElem?_map, h]
  rfl

theorem mem_of_framed (h : (s, l) ∈ framed ls rs) : l ∈ ls := by
  rw [← map_framed ls rs]
  exact List.mem_map_of_mem h

theorem exists_framed (rs : List Nat) (h : ls[i]? = some l) :
    ∃ s, (framed ls rs)[i]? = some (s, l) := by
  rw [← map_framed ls rs, List.getElem?_map, Option.map_eq_some_iff] at h
  obtain ⟨⟨s, l'⟩, hi, rfl⟩ := h
  exact ⟨s, hi⟩

/-- The routines around a line follow from those around the line before it. -/
theorem framed_succ (h : (framed ls rs)[i]? = some (s, l))
    (h' : (framed ls rs)[i + 1]? = some (s', l')) : s' = l'.outer (l.inner s) := by
  induction ls generalizing rs i with
  | nil => cases h
  | cons m ls ih =>
    cases i with
    | succ i => exact ih h h'
    | zero =>
      cases ls with
      | nil => cases h'
      | cons m' ls =>
        cases h
        cases h'
        rfl

namespace Nested

theorem append (h : Nested ls) (h' : Nested ms) : Nested (ls ++ ms) := by
  induction h with
  | nil => exact h'
  | line hl _ ih => exact .line hl ih
  | routine hls _ _ ih =>
    rw [List.cons_append, List.cons_append, List.append_assoc, List.cons_append]
    exact .routine hls ih

theorem of_isPlain (h : ∀ l ∈ ls, l.isPlain = true) : Nested ls := by
  induction ls with
  | nil => exact .nil
  | cons l ls ih =>
    rw [List.forall_mem_cons] at h
    exact .line h.1 (ih h.2)

/-- Behind whole routines the routines around are those around their front. -/
theorem framed_append (h : Nested ls) (ms : List Line) (rs : List Nat) :
    framed (ls ++ ms) rs = framed ls rs ++ framed ms rs := by
  induction h generalizing ms rs with
  | nil => rfl
  | line hl _ ih =>
    rw [List.cons_append, framed_of_isPlain hl, framed_of_isPlain hl, ih, List.cons_append]
  | @routine i f as bs _ _ ihas ihbs =>
    simp only [List.cons_append, List.append_assoc, framed, Line.outer, Line.inner, List.tail_cons,
      ihas (.label (.routineEnd i) :: (bs ++ ms)), ihas (.label (.routineEnd i) :: bs), ihbs]

end Nested

end

/-- May the second line stand right behind the first one? Bytes and the size of a routine's frame
are not run, so control must not pass to them; the entry of a routine and the label behind it
have fixed lines before them. -/
def Follows (l l' : Line) : Prop :=
  match l' with
  | .data (.text _) _ | .equ (.frameSize _) _ => l.falls = false
  | .label (.routine _) => ∃ i, l = .instr (.jmp (.routineEnd i))
  | .label (.routineEnd i) => ∃ n, l = .equ (.frameSize i) n
  | _ => True

/-- The line may stand behind any other. -/
def Line.isFree (l : Line) : Bool :=
  match l with
  | .data (.text _) _ | .equ (.frameSize _) _ | .label (.routine _) | .label (.routineEnd _) => false
  | _ => true

theorem follows_of_isFree {l l' : Line} (h : l'.isFree = true) : Follows l l' := by
  unfold Follows
  split
  all_goals first
    | cases h
    | trivial

/-- Each line stands where it may, and the first one may stand anywhere. -/
structure Orderly (ls : List Line) : Prop where
  chain : ls.IsChain Follows
  first : ∀ l ∈ ls.head?, l.isFree = true

namespace Orderly

variable {l : Line} {ls ms : List Line}

theorem nil : Orderly [] := ⟨.nil, nofun⟩

theorem append (h : Orderly ls) (h' : Orderly ms) : Orderly (ls ++ ms) := by
  constructor
  · rw [List.isChain_append]
    exact ⟨h.chain, h'.chain, fun _ _ l hl => follows_of_isFree (h'.first l hl)⟩
  · cases ls with
    | nil => exact h'.first
    | cons l ls => exact h.first

theorem single (h : l.isFree = true) : Orderly [l] :=
  ⟨.singleton l, fun m hm => by cases hm; exact h⟩

theorem cons (h : l.isFree = true) (h' : Orderly ls) : Orderly (l :: ls) := (single h).append h'

theorem of_isFree (h : ∀ l ∈ ls, l.isFree = true) : Orderly ls := by
  induction ls with
  | nil => exact .nil
  | cons l ls ih =>
    rw [List.forall_mem_cons] at h
    exact .cons h.1 (ih h.2)

theorem instrs (is : List Instr) : Orderly (is.map .instr) := by
  refine .of_isFree fun l hl => ?_
  obtain ⟨i, -, rfl⟩ := List.mem_map.mp hl
  rfl

end Orderly
end Assembly

open Assembly Lowering

theorem isPlain_code (op : BinaryOp) : ∀ l ∈ op.code, l.isPlain = true := by
  rcases op with (_ | _ | _ | _ | _ | _) | (_ | _ | _) | _ <;> decide

theorem isPlain_unaryCode (op : UnaryOp) : ∀ l ∈ op.code.map Line.instr, l.isPlain = true := by
  cases op <;> decide

theorem isPlain_callCode (f : String) (n : Nat) :
    ∀ l ∈ (callCode f n).map Line.instr, l.isPlain = true := by
  by_cases h : n = 0 <;> simp [callCode, h, Line.isPlain]

theorem nested_of_lowers {p t c t' v} (h : Lowers p t c t' v) : Nested c := by
  induction h with
  | var | int | declare => exact .line rfl .nil
  | str => exact .line rfl (.line rfl (.line rfl (.line rfl .nil)))
  | binary _ _ _ ihr ihl =>
    exact ihr.append (.line rfl (ihl.append (.line rfl (.of_isPlain (isPlain_code _)))))
  | unary _ _ ih => exact ih.append (.of_isPlain (isPlain_unaryCode _))
  | read => exact .of_isPlain (by decide)
  | call _ _ _ ih => exact ih.append (.of_isPlain (isPlain_callCode _ _))
  | assign _ _ ih => exact ih.append (.line rfl .nil)
  | define _ _ _ ih => exact .line rfl (ih.append (.line rfl .nil))
  | print _ ih => exact ih.append (.of_isPlain (by decide))
  | ret _ ih => exact ih.append (.of_isPlain (by decide))
  | branch _ _ _ ihc ihy ihn =>
    exact ihc.append (.line rfl (.line rfl (ihy.append (.line rfl (.line rfl
      (ihn.append (.line rfl .nil)))))))
  | loop _ _ ihc ihb =>
    exact .line rfl (ihc.append (.line rfl (.line rfl (ihb.append (.line rfl (.line rfl .nil))))))
  | @function i f ps body t rs s c u v _ _ _ ih =>
    have hfront : Nested [.instr (.push (.reg .ebp)), .instr (.mov (.reg .ebp) (.reg .esp)),
        .instr (.sub (.reg .esp) (.sym (.frameSize i)))] := .of_isPlain (by simp [Line.isPlain])
    have hend : Nested (.instr (.mov (.reg .eax) (.imm 0)) :: leave.map .instr ++
        [.equ (.frameSize i) u.scope.frameSize.toInt]) :=
      .of_isPlain (by simp [leave, Line.isPlain])
    have hroutine := Nested.routine (i := i) (f := f) (hfront.append (ih.append hend)) .nil
    simpa [enter, finish] using hroutine
  | block _ ih | last _ _ ih => exact ih
  | skip | nil | noArgs => exact .nil
  | cons _ _ _ ih ihrest => exact ih.append ihrest
  | arg _ _ ihrest ih => exact ihrest.append (ih.append (.line rfl .nil))

theorem orderly_code (op : BinaryOp) : Orderly op.code := by
  refine .of_isFree ?_
  rcases op with (_ | _ | _ | _ | _ | _) | (_ | _ | _) | _ <;> decide

/-- The bytes of a string stand behind the jump over them. -/
theorem orderly_stringCode (i : Nat) (s : String) : Orderly (stringCode i s) := by
  refine ⟨?_, by simp [stringCode, Line.isFree]⟩
  simp [stringCode, Follows, Line.falls, Instr.falls]

theorem orderly_enter (i : Nat) (f : String) : Orderly (enter i f) := by
  refine ⟨?_, by simp [enter, Line.isFree]⟩
  simp [enter, Follows]

/-- The size of a frame stands behind a `RET`. -/
theorem orderly_finish (i : Nat) (w : Word) : Orderly (finish i w) := by
  refine ⟨?_, by simp [finish, leave, Line.isFree]⟩
  simp [finish, leave, Follows, Line.falls, Instr.falls]

theorem orderly_of_lowers {p t c t' v} (h : Lowers p t c t' v) : Orderly c := by
  induction h with
  | var | int | declare => exact .single rfl
  | str => exact orderly_stringCode _ _
  | binary _ _ _ ihr ihl =>
    exact ihr.append (.cons rfl (ihl.append (.cons rfl (orderly_code _))))
  | unary _ _ ih => exact ih.append (.instrs _)
  | read => exact .instrs _
  | call _ _ _ ih => exact ih.append (.instrs _)
  | assign _ _ ih => exact ih.append (.single rfl)
  | define _ _ _ ih => exact .cons rfl (ih.append (.single rfl))
  | print _ ih => exact ih.append (.instrs _)
  | ret _ ih => exact ih.append (.instrs _)
  | branch _ _ _ ihc ihy ihn =>
    exact ihc.append ((Orderly.instrs _).append (ihy.append (.cons rfl (.cons rfl
      (ihn.append (.single rfl))))))
  | loop _ _ ihc ihb =>
    exact .cons rfl (ihc.append ((Orderly.instrs _).append (ihb.append (.cons rfl (.single rfl)))))
  | function _ _ _ ih => exact (orderly_enter _ _).append (ih.append (orderly_finish _ _))
  | block _ ih | last _ _ ih => exact ih
  | skip | nil | noArgs => exact .nil
  | cons _ _ _ ih ihrest => exact ih.append ihrest
  | arg _ _ ihrest ih => exact ihrest.append (ih.append (.single rfl))

/-! ## Jumps and calls -/

namespace Assembly

/-- Each jump has its label among the lines, with the same routines around it. -/
def JumpsStay (ls : List Line) (rs : List Nat) : Prop :=
  ∀ q ∈ framed ls rs, ∀ x ∈ q.2.jump?, (q.1, .label x) ∈ framed ls rs

theorem framed_of_isPlain_all {ls : List Line} (h : ∀ l ∈ ls, l.isPlain = true) (rs : List Nat) :
    framed ls rs = ls.map (rs, ·) := by
  induction ls with
  | nil => rfl
  | cons l ls ih =>
    rw [List.forall_mem_cons] at h
    rw [framed_of_isPlain h.1, ih h.2, List.map_cons]

namespace JumpsStay

variable {ls ms : List Line} {rs : List Nat}

theorem of_isPlain (hp : ∀ l ∈ ls, l.isPlain = true)
    (h : ∀ l ∈ ls, ∀ x ∈ l.jump?, .label x ∈ ls) : JumpsStay ls rs := by
  rw [JumpsStay, framed_of_isPlain_all hp]
  intro q hq x hx
  obtain ⟨l, hl, rfl⟩ := List.mem_map.mp hq
  exact List.mem_map_of_mem (h l hl x hx)

theorem append (hn : Nested ls) (h : JumpsStay ls rs) (h' : JumpsStay ms rs) :
    JumpsStay (ls ++ ms) rs := by
  rw [JumpsStay, hn.framed_append]
  intro q hq x hx
  rcases List.mem_append.mp hq with hq | hq
  · exact List.mem_append_left _ (h q hq x hx)
  · exact List.mem_append_right _ (h' q hq x hx)

theorem cons {l : Line} (hp : l.isPlain = true) (hl : l.jump? = none) (h : JumpsStay ms rs) :
    JumpsStay (l :: ms) rs := by
  refine append (.line hp .nil) (of_isPlain ?_ ?_) h
  · simpa using hp
  · simp [hl]

end JumpsStay

/-- What a line calls. -/
def Line.callee? : Line → Option Symbol
  | .instr (.call x) => some x
  | _ => none

end Assembly

theorem framed_append_of_lowers {p t c t' v} (h : Lowers p t c t' v) (ms : List Line)
    (rs : List Nat) : framed (c ++ ms) rs = framed c rs ++ framed ms rs :=
  (nested_of_lowers h).framed_append ms rs

attribute [local simp] framed Line.outer Line.inner Line.jump? Instr.jump? stringCode readCode
  printCode jumpIfFalse leave enter finish

/-- Strings, branches, loops and functions jump, each to a label of their own. -/
theorem jumps_of_lowers {p t c t' v} (h : Lowers p t c t' v) (rs : List Nat) : JumpsStay c rs := by
  simp only [JumpsStay]
  induction h generalizing rs with
  | @binary _ op =>
    have hop := framed_of_isPlain_all (isPlain_code op)
    have hjump := jump?_code op
    simp (disch := assumption) [framed_append_of_lowers, hop] at *
    grind
  | @unary _ op =>
    have hop := framed_of_isPlain_all (isPlain_unaryCode op)
    have hjump := jump?_unaryCode op
    simp (disch := assumption) [framed_append_of_lowers, hop] at *
    grind
  | @call _ f as =>
    have hop := framed_of_isPlain_all (isPlain_callCode f as.length)
    have hjump := jump?_callCode f as.length
    simp (disch := assumption) [framed_append_of_lowers, hop] at *
    grind
  | _ =>
    simp (disch := assumption) [framed_append_of_lowers] at *
    try grind

/-- The symbol is one that code may call. -/
def Assembly.Symbol.isCallable : Symbol → Bool
  | .routine _ | .fixed _ => true
  | _ => false

theorem calls_code (op : BinaryOp) : ∀ l ∈ op.code, ∀ x ∈ l.callee?, x.isCallable = true := by
  rcases op with (_ | _ | _ | _ | _ | _) | (_ | _ | _) | _ <;> decide

theorem calls_unaryCode (op : UnaryOp) :
    ∀ l ∈ op.code.map Line.instr, ∀ x ∈ l.callee?, x.isCallable = true := by
  cases op <;> decide

theorem calls_callCode (f : String) (n : Nat) :
    ∀ l ∈ (callCode f n).map Line.instr, ∀ x ∈ l.callee?, x.isCallable = true := by
  by_cases h : n = 0 <;> simp [callCode, h, Line.callee?, Symbol.isCallable]

theorem calls_of_lowers {p t c t' v} (h : Lowers p t c t' v) :
    ∀ l ∈ c, ∀ x ∈ l.callee?, x.isCallable = true := by
  induction h with
  | @binary _ op =>
    have hop := calls_code op
    simp [Line.callee?] at *
    grind
  | @unary _ op =>
    have hop := calls_unaryCode op
    simp [Line.callee?] at *
    grind
  | @call _ f as =>
    have hop := calls_callCode f as.length
    simp [Line.callee?] at *
    grind
  | _ =>
    simp [Line.callee?, Symbol.isCallable] at *
    try grind

end Onepass
