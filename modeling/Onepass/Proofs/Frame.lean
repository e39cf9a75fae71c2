import Onepass.Proofs.Layout
import Onepass.Proofs.Symbols

/-!
# Onepass.Proofs.Frame

The frame that a listing gives to the top level and to each function: which lines belong to it,
and what they say of its places. Routines stand inside the code around them, so the lines of a
frame are those of a stretch of the listing without the routines in it.

* `frame_append` -- lowered code has whole routines only, so frames are read piece by piece.
* `places_of_lowers` -- the places in the lines of a frame are those of the names that the
  program uses there, one by one.
* `laidOut_of_compile` -- all places lie in the frame, and different variables have different
  ones.
-/

namespace Onepass
namespace Assembly

namespace Operand

/-- The text of a place in the frame. -/
def place? : Operand → Option String
  | .slot offset => some (address offset)
  | .reg _ | .imm _ | .sym _ | .cell _ => none

end Operand

/-- The places in the frame that an instruction names. -/
def Instr.places (i : Instr) : List String := i.operands.filterMap Operand.place?

namespace Line

def places : Line → List String
  | .instr i => i.places
  | .remark l _ => l.places
  | _ => []

/-- The line is the entry of a routine. -/
def opens : Line → Bool
  | .label (.routine _) => true
  | _ => false

/-- The line is the place behind a routine. -/
def closes : Line → Bool
  | .label (.routineEnd _) => true
  | _ => false

end Line

def places (ls : List Line) : List String := ls.flatMap Line.places

/-- The lines of a frame from here on, when `n` routines inside it are open: up to the end of its
own routine, and without the routines inside it. -/
def frame : Nat → List Line → List Line
  | _, [] => []
  | n, l :: ls =>
    if l.opens then frame (n + 1) ls
    else if l.closes then if n = 0 then [] else frame (n - 1) ls
    else if n = 0 then l :: frame 0 ls else frame n ls

/-- The lines of a function's frame. -/
def routineFrame (function : String) (ls : List Line) : List Line :=
  frame 0 (ls.dropWhile (· ≠ .label (.routine function))).tail

section

variable (i : Instr) (l : Line) (ls ms : List Line)

@[simp] theorem frame_nil (n : Nat) : frame n [] = [] := rfl

@[simp] theorem frame_instr : frame 0 (.instr i :: ls) = .instr i :: frame 0 ls := rfl

@[simp] theorem frame_routine (n : Nat) (f : String) :
    frame n (.label (.routine f) :: ls) = frame (n + 1) ls := rfl

@[simp] theorem frame_routineEnd_succ (n j : Nat) :
    frame (n + 1) (.label (.routineEnd j) :: ls) = frame n ls := rfl

@[simp] theorem frame_routineEnd_zero (j : Nat) : frame 0 (.label (.routineEnd j) :: ls) = [] := rfl

end

/-- The places that the lines of a frame name, in order. -/
def ownPlaces (ls : List Line) : List String := places (frame 0 ls)

section

variable (i : Instr) (is : List Instr) (ls : List Line)

@[simp] theorem ownPlaces_nil : ownPlaces [] = [] := rfl

@[simp] theorem ownPlaces_instr : ownPlaces (.instr i :: ls) = i.places ++ ownPlaces ls :=
  List.flatMap_cons

@[simp] theorem ownPlaces_instrs_append :
    ownPlaces (is.map .instr ++ ls) = is.flatMap Instr.places ++ ownPlaces ls := by
  induction is with
  | nil => rfl
  | cons i is ih => simp [ih]

@[simp] theorem ownPlaces_instrs : ownPlaces (is.map .instr) = is.flatMap Instr.places := by
  simpa using ownPlaces_instrs_append is []

@[simp] theorem ownPlaces_branchElse (j : Nat) :
    ownPlaces (.label (.branchElse j) :: ls) = ownPlaces ls := rfl

@[simp] theorem ownPlaces_branchEnd (j : Nat) :
    ownPlaces (.label (.branchEnd j) :: ls) = ownPlaces ls := rfl

@[simp] theorem ownPlaces_loopStart (j : Nat) :
    ownPlaces (.label (.loopStart j) :: ls) = ownPlaces ls := rfl

@[simp] theorem ownPlaces_loopExit (j : Nat) :
    ownPlaces (.label (.loopExit j) :: ls) = ownPlaces ls := rfl

end

/-- Lines with whole routines only. -/
inductive Balanced : List Line → Prop where
  | nil : Balanced []
  | line {l ls} : l.opens = false → l.closes = false → Balanced ls → Balanced (l :: ls)
  | append {ls ms} : Balanced ls → Balanced ms → Balanced (ls ++ ms)
  | routine {f i ls} : Balanced ls →
      Balanced (.label (.routine f) :: (ls ++ [.label (.routineEnd i)]))

namespace Balanced

theorem instrs (is : List Instr) : Balanced (is.map .instr) := by
  induction is with
  | nil => exact .nil
  | cons i is ih => exact .line rfl rfl ih

theorem plain {ls : List Line} (h : ∀ l ∈ ls, l.opens = false ∧ l.closes = false) :
    Balanced ls := by
  induction ls with
  | nil => exact .nil
  | cons l ls ih =>
    rw [List.forall_mem_cons] at h
    exact .line h.1.1 h.1.2 (ih h.2)

/-- Inside a routine, nothing of it belongs to the frame. -/
theorem frame_succ {ls : List Line} (h : Balanced ls) (n : Nat) (rest : List Line) :
    frame (n + 1) (ls ++ rest) = frame (n + 1) rest := by
  induction h generalizing n rest with
  | nil => rfl
  | line ho hc _ ih => simp [frame, ho, hc, ih]
  | append _ _ ih₁ ih₂ => rw [List.append_assoc, ih₁, ih₂]
  | routine _ ih => simp [ih]

theorem frame_append {ls : List Line} (h : Balanced ls) (rest : List Line) :
    frame 0 (ls ++ rest) = frame 0 ls ++ frame 0 rest := by
  induction h generalizing rest with
  | nil => rfl
  | line ho hc _ ih => simp [frame, ho, hc, ih]
  | append _ _ ih₁ ih₂ => rw [List.append_assoc, ih₁, ih₁, ih₂, List.append_assoc]
  | routine hb _ =>
    rw [List.cons_append, frame_routine, List.append_assoc, frame_succ hb, frame_routine,
      frame_succ hb]
    rfl

theorem ownPlaces_append {ls : List Line} (h : Balanced ls) (rest : List Line) :
    ownPlaces (ls ++ rest) = ownPlaces ls ++ ownPlaces rest := by
  rw [ownPlaces, h.frame_append]
  exact List.flatMap_append

end Balanced

end Assembly

open Assembly Lowering

theorem balanced_code (op : BinaryOp) : Balanced op.code := by
  cases op with
  | arith op => exact .instrs _
  | relation op => exact .line rfl rfl (.line rfl rfl .nil)
  | concat => exact .line rfl rfl .nil

theorem balanced_of_lowers {p t c t' v} (h : Lowers p t c t' v) : Balanced c := by
  induction h with
  | var _ | int | declare _ => exact .line rfl rfl .nil
  | str => exact .line rfl rfl (.line rfl rfl (.line rfl rfl (.line rfl rfl .nil)))
  | read => exact .instrs _
  | skip | nil | noArgs => exact .nil
  | unary _ _ ih | call _ _ _ ih | print _ ih | ret _ ih => exact ih.append (.instrs _)
  | assign _ _ ih => exact ih.append (.line rfl rfl .nil)
  | define _ _ _ ih => exact .line rfl rfl (ih.append (.line rfl rfl .nil))
  | @binary i op l r t c₁ t₁ b c₂ t₂ a v _ _ _ ihr ihl =>
    exact ihr.append (.line rfl rfl (ihl.append (.line rfl rfl (balanced_code op))))
  | branch _ _ _ ihc ihy ihn =>
    exact ihc.append ((Balanced.instrs _).append (ihy.append
      (.line rfl rfl (.line rfl rfl (ihn.append (.line rfl rfl .nil))))))
  | loop _ _ ihc ihb =>
    exact .line rfl rfl (ihc.append ((Balanced.instrs _).append (ihb.append
      (.line rfl rfl (.line rfl rfl .nil)))))
  | @function i f ps body t rs s c u v _ _ _ ih =>
    have hend : Balanced (.instr (.mov (.reg .eax) (.imm 0)) :: leave.map .instr ++
        [.equ (.frameSize i) u.scope.frameSize.toInt]) :=
      .append (.line rfl rfl (.instrs _)) (.line rfl rfl .nil)
    have hfront : Balanced [.instr (.push (.reg .ebp)), .instr (.mov (.reg .ebp) (.reg .esp)),
        .instr (.sub (.reg .esp) (.sym (.frameSize i)))] := .instrs [_, _, _]
    have := Balanced.routine (f := f) (i := i) (hfront.append (ih.append hend))
    simpa [enter, finish] using Balanced.line (l := .instr (.jmp (.routineEnd i))) rfl rfl this
  | block _ ih | last _ _ ih => exact ih
  | cons _ _ _ ihn ihrest => exact ihn.append ihrest
  | arg _ _ ihrest ihn => exact ihrest.append (ihn.append (.line rfl rfl .nil))

/-- A routine leaves the frame around it nothing but the jump over it. -/
theorem frame_enter {c : List Line} (hc : Balanced c) (i : Nat) (f : String) (w : Word)
    (rest : List Line) :
    frame 0 (enter i f ++ (c ++ (finish i w ++ rest))) =
      .instr (.jmp (.routineEnd i)) :: frame 0 rest := by
  show Line.instr (.jmp (.routineEnd i)) :: frame 1 (c ++ (finish i w ++ rest)) = _
  rw [hc.frame_succ]
  rfl

/-- The frame of a routine is its front, the frame of its body and its end. -/
theorem frame_routine_body {c : List Line} (hc : Balanced c) (i : Nat) (w : Word)
    (rest : List Line) :
    frame 0 (.instr (.push (.reg .ebp)) :: .instr (.mov (.reg .ebp) (.reg .esp)) ::
        .instr (.sub (.reg .esp) (.sym (.frameSize i))) :: (c ++ (finish i w ++ rest))) =
      .instr (.push (.reg .ebp)) :: .instr (.mov (.reg .ebp) (.reg .esp)) ::
        .instr (.sub (.reg .esp) (.sym (.frameSize i))) ::
          (frame 0 c ++ .instr (.mov (.reg .eax) (.imm 0)) :: (leave.map .instr ++
            [.equ (.frameSize i) w.toInt])) := by
  rw [frame_instr, frame_instr, frame_instr, hc.frame_append]
  rfl

namespace Node

mutual

/-- The names of the places that the code of a node goes to, in order. -/
def occurrences : Node Nat → List String
  | .int _ _ | .str _ _ | .read _ | .skip _ | .function _ _ _ _ => []
  | .var _ x | .declare _ x => [x]
  | .assign _ x e => e.occurrences ++ [x]
  | .define _ x e => x :: (e.occurrences ++ [x])
  | .unary _ _ e | .print _ e | .ret _ e => e.occurrences
  | .binary _ _ l r => r.occurrences ++ l.occurrences
  | .call _ _ as => argOccurrences as
  | .branch _ c ys ns => c.occurrences ++ (blockOccurrences ys ++ blockOccurrences ns)
  | .loop _ c body => c.occurrences ++ blockOccurrences body
  | .block _ body => blockOccurrences body

def blockOccurrences : List (Node Nat) → List String
  | [] => []
  | n :: rest => n.occurrences ++ if n.isReturn then [] else blockOccurrences rest

def argOccurrences : List (Node Nat) → List String
  | [] => []
  | n :: rest => argOccurrences rest ++ n.occurrences

end

end Node

namespace Piece

def occurrences : Piece → List String
  | .node n => n.occurrences
  | .block body => Node.blockOccurrences body
  | .args as => Node.argOccurrences as

end Piece

/-- The text of a name's place. -/
def Scope.address? (s : Scope) (x : String) : Option String := (s.place? x).map address

@[simp] theorem ownPlaces_code (op : BinaryOp) : ownPlaces op.code = [] := by
  rcases op with op | op | _
  · cases op <;> rfl
  · rfl
  · rfl

@[simp] theorem places_unary (op : UnaryOp) : op.code.flatMap Instr.places = [] := by
  cases op <;> rfl

@[simp] theorem places_callCode (f : String) (n : Nat) :
    (callCode f n).flatMap Instr.places = [] := by
  simp only [callCode]
  split <;> rfl

attribute [local simp] Instr.places Instr.operands Operand.place? List.filterMap_cons jumpIfFalse
  printCode leave Scope.address? Piece.occurrences Node.occurrences Node.blockOccurrences
  Node.argOccurrences

/-- The lines of a frame name the places of the names that are used there. -/
theorem places_of_lowers {p t c t' v} (h : Lowers p t c t' v) {s : Scope}
    (hs : t'.scope.Within s) : (ownPlaces c).map some = p.occurrences.map s.address? := by
  induction h with
  | @var i x t slot hx =>
    have hplace := hs x _ (Scope.place?_of_find hx)
    simp [hplace]
  | int | str | read | skip | nil | noArgs => rfl
  | unary hc _ ih | call _ _ hc ih | print hc ih | ret hc ih =>
    have hp := (balanced_of_lowers hc).ownPlaces_append
    simpa [hp] using ih hs
  | block _ ih => exact ih hs
  | @assign i x e t c t' a slot s' hc hr ih =>
    obtain ⟨hx, -, -, -⟩ := Scope.retag_eq_ok hr
    have hplace := hs x _ (Scope.Within.retag hr _ _ hx)
    have hp := (balanced_of_lowers hc).ownPlaces_append
    have hc := ih ((Scope.Within.retag hr).trans hs)
    simpa [hp, hplace] using hc
  | @declare i x t slot s' hd =>
    have hplace := hs x _ (Scope.place?_of_find (Scope.find_of_declareLocal hd))
    simp [hplace]
  | @define i x e t slot s₁ c t' a slot' s₂ hd hc hr ih =>
    have ht := (Scope.Within.retag hr).trans hs
    have hplace := ht x _ (within_of_lowers hc _ _
      (Scope.place?_of_find (Scope.find_of_declareLocal hd)))
    have hp := (balanced_of_lowers hc).ownPlaces_append
    simpa [hp, hplace] using ih ht
  | binary hr hl _ ihr ihl =>
    have hpr := (balanced_of_lowers hr).ownPlaces_append
    have hpl := (balanced_of_lowers hl).ownPlaces_append
    have hr := ihr ((within_of_lowers hl).trans hs)
    simpa [hpr, hpl] using congrArg₂ (· ++ ·) hr (ihl hs)
  | branch hc hy hn ihc ihy ihn =>
    have hpc := (balanced_of_lowers hc).ownPlaces_append
    have hpy := (balanced_of_lowers hy).ownPlaces_append
    have hpn := (balanced_of_lowers hn).ownPlaces_append
    have hyn := (within_of_lowers hn).trans hs
    have hc := ihc ((within_of_lowers hy).trans hyn)
    simpa [hpc, hpy, hpn] using
      congrArg₂ (· ++ ·) hc (congrArg₂ (· ++ ·) (ihy hyn) (ihn hs))
  | loop hc hb ihc ihb =>
    have hpc := (balanced_of_lowers hc).ownPlaces_append
    have hpb := (balanced_of_lowers hb).ownPlaces_append
    have hc := ihc ((within_of_lowers hb).trans hs)
    simpa [hpc, hpb] using
      congrArg₂ (· ++ ·) hc (ihb hs)
  | @function i f ps body t rs s' c u v _ _ hb _ =>
    have hframe := frame_enter (balanced_of_lowers hb) i f u.scope.frameSize []
    rw [List.append_nil] at hframe
    rw [ownPlaces, hframe]
    rfl
  | last hr _ ih => simpa [hr] using ih hs
  | cons hr hn hrest ihn ihrest =>
    have hp := (balanced_of_lowers hn).ownPlaces_append
    have hn := ihn ((within_of_lowers hrest).trans hs)
    simpa [hp, hr] using congrArg₂ (· ++ ·) hn (ihrest hs)
  | arg hrest hn ihrest ihn =>
    have hpr := (balanced_of_lowers hrest).ownPlaces_append
    have hpn := (balanced_of_lowers hn).ownPlaces_append
    have hrest := ihrest ((within_of_lowers hn).trans hs)
    simpa [hpr, hpn] using congrArg₂ (· ++ ·) hrest (ihn hs)

/-! ## The places of a frame -/

theorem below_injective {a b : Nat}
    (h : "[EBP-" ++ toString a ++ "]" = "[EBP-" ++ toString b ++ "]") : a = b := by
  replace h := String.toList_inj.mpr h
  simpa [toDigits_inj] using h

theorem above_injective {a b : Nat}
    (h : "[EBP+" ++ toString a ++ "]" = "[EBP+" ++ toString b ++ "]") : a = b := by
  replace h := String.toList_inj.mpr h
  simpa [toDigits_inj] using h

theorem below_ne_above (a b : Nat) :
    "[EBP-" ++ toString a ++ "]" ≠ "[EBP+" ++ toString b ++ "]" := by
  intro h
  replace h := String.toList_inj.mpr h
  simp at h

theorem address_localOffset {n : Nat} (h : 4 * n < 2 ^ 31) :
    address (Scope.localOffset n) = "[EBP-" ++ toString (4 * n) ++ "]" := by
  have hi : (Word.ofNat (4 * n)).toInt = ((4 * n : Nat) : Int) := Word.toInt_ofNat h
  have hs : (Scope.localOffset n).slt 0 = false := by
    have hzero : (0 : Word).toInt = 0 := rfl
    rw [BitVec.slt, Scope.localOffset, hi, hzero, decide_eq_false_iff_not]
    omega
  rw [address, hs, if_neg Bool.false_ne_true, Scope.localOffset, Word.text, hi]
  rfl

theorem address_paramOffset {n : Nat} (h : 4 * (n + 1) < 2 ^ 31) :
    address (Scope.paramOffset n) = "[EBP+" ++ toString (4 * (n + 1)) ++ "]" := by
  have hi : (Word.ofNat (4 * (n + 1))).toInt = ((4 * (n + 1) : Nat) : Int) := Word.toInt_ofNat h
  rw [address, Scope.slt_paramOffset (by omega), if_pos rfl, Scope.paramOffset, BitVec.neg_neg, Word.text, hi]
  rfl

/-- The lines of a frame with the parameters `ps` and the body `p`: how large they say that it
is, and the places that they name, `place x` wherever the program has `x`. -/
structure LaidOut (ls : List Line) (size : Symbol) (ps : List String) (p : Piece)
    (place : String → String) : Prop where
  size : ∀ n, .equ size n ∈ ls ↔ n = 4 * p.declarations.length
  places : places ls = p.occurrences.map place
  known : ∀ x ∈ p.occurrences, x ∈ ps ++ p.declarations
  injective : ∀ x ∈ ps ++ p.declarations, ∀ y ∈ ps ++ p.declarations, place x = place y → x = y
  below : ∀ x ∈ p.declarations, ∃ k, place x = "[EBP-" ++ toString k ++ "]" ∧
    4 ∣ k ∧ 4 ≤ k ∧ k ≤ 4 * p.declarations.length
  above : ∀ x ∈ ps, ∃ k, place x = "[EBP+" ++ toString k ++ "]" ∧
    4 ∣ k ∧ 8 ≤ k ∧ k ≤ 4 * (ps.length + 1)

namespace Scope

/-- The text of a name's place, nothing if it has none. -/
def address (s : Scope) (x : String) : String := (s.address? x).getD ""

namespace Holds

variable {s : Scope} {ps ds : List String}

theorem address_var (hs : s.Holds ps ds) (hsmall : ps.length + ds.length < 2 ^ 29 - 1) {i : Nat}
    {x : String} (hx : ds[i]? = some x) :
    s.address x = "[EBP-" ++ toString (4 * (i + 1)) ++ "]" := by
  have hi := (List.getElem?_eq_some_iff.mp hx).1
  rw [address, address?, hs.var i x hx]
  exact address_localOffset (by omega)

theorem address_param (hs : s.Holds ps ds) (hsmall : ps.length + ds.length < 2 ^ 29 - 1) {i : Nat}
    {x : String} (hx : ps[i]? = some x) :
    s.address x = "[EBP+" ++ toString (4 * (i + 2)) ++ "]" := by
  have hi := (List.getElem?_eq_some_iff.mp hx).1
  rw [address, address?, hs.param i x hx]
  exact address_paramOffset (by omega)

theorem address_injective (hs : s.Holds ps ds) (hsmall : ps.length + ds.length < 2 ^ 29 - 1)
    {x y : String} (hx : x ∈ ps ++ ds) (hy : y ∈ ps ++ ds) (h : s.address x = s.address y) :
    x = y := by
  rcases List.mem_append.mp hx with hx | hx
  · obtain ⟨i, hi⟩ := List.mem_iff_getElem?.mp hx
    rcases List.mem_append.mp hy with hy | hy
    · obtain ⟨j, hj⟩ := List.mem_iff_getElem?.mp hy
      rw [hs.address_param hsmall hi, hs.address_param hsmall hj] at h
      have hij : i = j := by
        have := above_injective h
        omega
      rw [hij, hj] at hi
      exact (Option.some.inj hi).symm
    · obtain ⟨j, hj⟩ := List.mem_iff_getElem?.mp hy
      rw [hs.address_param hsmall hi, hs.address_var hsmall hj] at h
      exact absurd h.symm (below_ne_above _ _)
  · obtain ⟨i, hi⟩ := List.mem_iff_getElem?.mp hx
    rcases List.mem_append.mp hy with hy | hy
    · obtain ⟨j, hj⟩ := List.mem_iff_getElem?.mp hy
      rw [hs.address_var hsmall hi, hs.address_param hsmall hj] at h
      exact absurd h (below_ne_above _ _)
    · obtain ⟨j, hj⟩ := List.mem_iff_getElem?.mp hy
      rw [hs.address_var hsmall hi, hs.address_var hsmall hj] at h
      have hij : i = j := by
        have := below_injective h
        omega
      rw [hij, hj] at hi
      exact (Option.some.inj hi).symm

end Holds
end Scope

theorem laidOut_of_lowers {p t c t' v} (h : Lowers p t c t' v) {ps : List String}
    (ht : t.scope.Holds ps []) (hsmall : ps.length + p.declarations.length < 2 ^ 29 - 1)
    {ls : List Line} {size : Symbol} (hplaces : Assembly.places ls = ownPlaces c)
    (hsize : ∀ n, .equ size n ∈ ls ↔ n = t'.scope.frameSize.toInt) :
    LaidOut ls size ps p t'.scope.address := by
  have hs : t'.scope.Holds ps p.declarations := holds_of_lowers h ht
  have hown := places_of_lowers h (Scope.Within.refl _)
  have hplaced : ∀ x ∈ p.occurrences, ∃ a, t'.scope.address? x = some a := by
    intro x hx
    have hmem : t'.scope.address? x ∈ (ownPlaces c).map some := by
      rw [hown]
      exact List.mem_map_of_mem hx
    obtain ⟨a, -, ha⟩ := List.mem_map.mp hmem
    exact ⟨a, ha.symm⟩
  constructor
  · intro n
    have hi : t'.scope.frameSize.toInt = ((4 * p.declarations.length : Nat) : Int) := by
      rw [Scope.frameSize, hs.locals, Scope.localOffset]
      exact Word.toInt_ofNat (by omega)
    rw [hsize, hi]
    norm_cast
  · rw [hplaces]
    apply List.map_injective_iff.mpr fun _ _ => Option.some.inj
    rw [hown, List.map_map]
    apply List.map_congr_left
    intro x hx
    obtain ⟨a, ha⟩ := hplaced x hx
    simp only [Function.comp, Scope.address, ha, Option.getD_some]
  · intro x hx
    obtain ⟨a, ha⟩ := hplaced x hx
    obtain ⟨w, hw, -⟩ := Option.map_eq_some_iff.mp ha
    exact hs.known x w hw
  · intro x hx y hy
    exact hs.address_injective hsmall hx hy
  · intro x hx
    obtain ⟨i, hi⟩ := List.mem_iff_getElem?.mp hx
    have := (List.getElem?_eq_some_iff.mp hi).1
    exact ⟨_, hs.address_var hsmall hi, ⟨_, rfl⟩, by omega, by omega⟩
  · intro x hx
    obtain ⟨i, hi⟩ := List.mem_iff_getElem?.mp hx
    have := (List.getElem?_eq_some_iff.mp hi).1
    exact ⟨_, hs.address_param hsmall hi, ⟨_, rfl⟩, by omega, by omega⟩

/-! ## The frames of a listing -/

theorem mem_of_mem_frame {l : Line} {ls : List Line} {n : Nat} (h : l ∈ frame n ls) : l ∈ ls := by
  induction ls generalizing n with
  | nil => simp at h
  | cons m ls ih =>
    rw [frame] at h
    split at h
    · exact List.mem_cons_of_mem _ (ih h)
    split at h
    · split at h
      · cases h
      · exact List.mem_cons_of_mem _ (ih h)
    split at h
    · rcases List.mem_cons.mp h with rfl | h
      · exact List.mem_cons_self
      · exact List.mem_cons_of_mem _ (ih h)
    · exact List.mem_cons_of_mem _ (ih h)

/-- The size of a frame has one value. -/
theorem equ_iff {ls : List Line} (hd : (definitions ls).Nodup) {s : Symbol} {n m : Int}
    {own : List Line} (hown : ∀ l ∈ own, l ∈ ls) (h : .equ s m ∈ own) :
    .equ s n ∈ own ↔ n = m := by
  constructor
  · intro hn
    have := eq_of_defines hd (hown _ hn) (hown _ h) rfl rfl
    simpa using this
  · rintro rfl
    exact h

theorem frame_lines {root : Node Nat} {c t v} (h : Lowers (.node root) ⟨.empty, .empty⟩ c t v)
    (n : Int) :
    frame 0 (head ++ (.instr (.sub (.reg .esp) (.sym .mainFrameSize)) ::
        (c ++ [.equ .mainFrameSize n])) ++ foot) =
      head ++ .instr (.sub (.reg .esp) (.sym .mainFrameSize)) ::
        (frame 0 c ++ .equ .mainFrameSize n :: foot) := by
  have hhead : Balanced head := .plain (by decide)
  rw [List.append_assoc, hhead.frame_append, List.cons_append, frame_instr, List.append_assoc,
    (balanced_of_lowers h).frame_append]
  rfl

theorem routineFrame_append {f : String} {pre : List Line} (rest : List Line)
    (h : .label (.routine f) ∉ pre) :
    routineFrame f (pre ++ .label (.routine f) :: rest) = frame 0 rest := by
  have hpre : ∀ l ∈ pre, decide (l ≠ .label (.routine f)) = true := by
    intro l hl
    simp only [decide_eq_true_eq]
    rintro rfl
    exact h hl
  rw [routineFrame, List.dropWhile_append_of_pos hpre]
  simp

theorem places_append (ls ms : List Line) : places (ls ++ ms) = places ls ++ places ms :=
  List.flatMap_append

/-- The frame of the top level. -/
theorem laidOut_main {root : Node Nat} {c t v} {l : Listing}
    (hd : (definitions l.lines).Nodup) (h : Lowers (.node root) ⟨.empty, .empty⟩ c t v)
    (hbody : l.body = .instr (.sub (.reg .esp) (.sym .mainFrameSize)) ::
      (c ++ [.equ .mainFrameSize t.scope.frameSize.toInt]))
    (hsmall : root.declarations.length < 2 ^ 29 - 1) :
    LaidOut (frame 0 l.lines) .mainFrameSize [] (.node root) t.scope.address := by
  have hframe := frame_lines h t.scope.frameSize.toInt
  rw [← hbody] at hframe
  change frame 0 l.lines = _ at hframe
  refine laidOut_of_lowers h .empty (by simpa [Piece.declarations] using hsmall) ?_ fun n => ?_
  · have hhead : places head = [] := rfl
    have hfoot : places (.equ .mainFrameSize t.scope.frameSize.toInt :: foot) = [] := rfl
    rw [hframe, places_append, hhead, places, List.flatMap_cons]
    change [] ++ ([] ++ places (frame 0 c ++ _)) = _
    rw [places_append, hfoot, List.append_nil]
    rfl
  · refine equ_iff hd (fun k hk => mem_of_mem_frame hk) ?_
    simp [hframe]

theorem not_mem_of_nodup {pre rest : List Line} {l : Line} {s : Symbol}
    (hd : (definitions (pre ++ l :: rest)).Nodup) (hs : l.defines = some s) : l ∉ pre := by
  intro hl
  rw [definitions_append, List.nodup_append] at hd
  exact hd.2.2 s (List.mem_filterMap.mpr ⟨l, hl, hs⟩) s (by simp [hs]) rfl

/-- The frame of a function. -/
theorem laidOut_routine {f : Function} {r : List Line} {ls : List Line}
    (hd : (definitions ls).Nodup) (hr : f.LowersTo r) (hin : r <:+: ls)
    (hsmall : f.params.length + (Node.blockDeclarations f.body).length < 2 ^ 29 - 1) :
    ∃ place, LaidOut (routineFrame f.name ls) (.frameSize f.id) f.params (.block f.body) place := by
  obtain ⟨s, rs, c, t, v, hs, hc, rfl⟩ := hr
  obtain ⟨pre, post, rfl⟩ := hin
  have hls : pre ++ (enter f.id f.name ++ (c ++ finish f.id t.scope.frameSize)) ++ post =
      (pre ++ [.instr (.jmp (.routineEnd f.id))]) ++ .label (.routine f.name) ::
        (.instr (.push (.reg .ebp)) :: .instr (.mov (.reg .ebp) (.reg .esp)) ::
          .instr (.sub (.reg .esp) (.sym (.frameSize f.id))) ::
            (c ++ (finish f.id t.scope.frameSize ++ post))) := by
    simp [enter]
  rw [hls] at hd ⊢
  rw [routineFrame_append _ (not_mem_of_nodup hd rfl)]
  have hframe := frame_routine_body (balanced_of_lowers hc) f.id t.scope.frameSize post
  have hps : s.Holds f.params [] := by simpa using Scope.Holds.empty.declareParams hs
  refine ⟨_, laidOut_of_lowers hc hps hsmall ?_ fun n => ?_⟩
  · have hend : places (.instr (.mov (.reg .eax) (.imm 0)) :: (leave.map .instr ++
        [.equ (.frameSize f.id) t.scope.frameSize.toInt])) = [] := rfl
    rw [hframe]
    change [] ++ ([] ++ ([] ++ places (frame 0 c ++ _))) = _
    rw [places_append, hend, List.append_nil]
    rfl
  · refine equ_iff hd (fun k hk => ?_) ?_
    · exact List.mem_append_right _ (List.mem_cons_of_mem _ (mem_of_mem_frame hk))
    · simp [hframe]

/-- The routines of a listing are those of the functions of its program. -/
theorem mem_label_iff {root : Node Nat} {c t v} {l : Listing}
    (h : Lowers (.node root) ⟨.empty, .empty⟩ c t v)
    (hbody : l.body = .instr (.sub (.reg .esp) (.sym .mainFrameSize)) ::
      (c ++ [.equ .mainFrameSize t.scope.frameSize.toInt])) (f : String) :
    .label (.routine f) ∈ l.lines ↔ ∃ g ∈ root.functions, g.name = f := by
  constructor
  · intro hl
    have hmem : Symbol.routine f ∈ definitions l.lines :=
      List.mem_filterMap.mpr ⟨_, hl, rfl⟩
    have hin := (symbols_of_body h hbody).mem_iff.mp (List.mem_append_left _ hmem)
    have hc : .routine f ∈ definitions c := by
      obtain ⟨fs, -, hhead⟩ := head_symbols
      rw [hhead] at hin
      simpa using hin
    rw [← List.count_pos_iff, count_routine h, List.count_pos_iff] at hc
    simpa [Piece.functions] using hc
  · rintro ⟨g, hg, rfl⟩
    obtain ⟨r, ⟨_, _, _, _, _, _, _, rfl⟩, hin⟩ := routine_of_mem h hg
    have hr := hin.subset (List.mem_append_left _ (by simp [enter] : .label (.routine g.name) ∈ _))
    simp [Listing.lines, hbody, hr]

/-- In a listing every variable of a frame has one place, inside the frame, and the frame is as
large as its variables need. -/
theorem laidOut_of_compile {source : String} {l : Listing} (h : compile source = .ok l) :
    ∃ root, (Source.parse source 0).1 = .ok root ∧
      (root.declarations.length < 2 ^ 29 - 1 →
        ∃ place, LaidOut (frame 0 l.lines) .mainFrameSize [] (.node root) place) ∧
      (∀ f, .label (.routine f) ∈ l.lines ↔ ∃ g ∈ root.functions, g.name = f) ∧
      ∀ f ∈ root.functions,
        f.params.length + (Node.blockDeclarations f.body).length < 2 ^ 29 - 1 →
        ∃ place, LaidOut (routineFrame f.name l.lines) (.frameSize f.id) f.params (.block f.body)
          place := by
  obtain ⟨root, hroot, hgen⟩ := compile_eq_ok.mp h
  have hd := List.Nodup.of_append_left (nodup_symbols_of_generate (nodup_ids_of_parse hroot) hgen)
  obtain ⟨c, t, v, hc, hbody⟩ := lowers_of_generate hgen
  have hin : c <:+: l.lines := by
    rw [Listing.lines, hbody]
    exact List.infix_append_of_infix_left (List.infix_append_of_infix_right
      (List.infix_cons (List.infix_append_of_infix_left List.infix_rfl)))
  refine ⟨root, hroot, fun hsmall => ⟨_, laidOut_main hd hc hbody hsmall⟩, mem_label_iff hc hbody,
    fun f hf hsmall => ?_⟩
  obtain ⟨r, hr, hrc⟩ := routine_of_mem hc hf
  exact laidOut_routine hd hr (hrc.trans hin) hsmall

/-- A function inside a function, and variables in a loop and in a branch. -/
def nested : String :=
  "local a\nfunction f(n)\nfunction g(n, m)\nreturn n + m\nend\nwhile n do\nlocal b = n\nend\n" ++
    "end\nif a then\nlocal c\nend\n"

theorem laidOut_of_nested : ∃ l root, compile nested = .ok l ∧
    (Source.parse nested 0).1 = .ok root ∧
    (∃ place, LaidOut (frame 0 l.lines) .mainFrameSize [] (.node root) place) ∧
    root.functions.map (·.name) = ["f", "g"] ∧
    ∀ f ∈ root.functions, ∃ place,
      LaidOut (routineFrame f.name l.lines) (.frameSize f.id) f.params (.block f.body) place := by
  have hok : (compile nested).toBool = true := by decide +kernel
  obtain ⟨l, hl⟩ := ok_of_toBool hok
  obtain ⟨root, hroot, hmain, -, hfunctions⟩ := laidOut_of_compile hl
  have hsmall : (Source.parse nested 0).1.toOption.all (fun root =>
      root.declarations.length < 2 ^ 29 - 1 ∧ root.functions.map (·.name) = ["f", "g"] ∧
        ∀ f ∈ root.functions,
          f.params.length + (Node.blockDeclarations f.body).length < 2 ^ 29 - 1) = true := by
    decide +kernel
  rw [hroot] at hsmall
  simp only [Except.toOption, Option.all_some, decide_eq_true_eq] at hsmall
  obtain ⟨hdecls, hnames, hfs⟩ := hsmall
  exact ⟨l, root, hl, hroot, hmain hdecls, hnames, fun f hf => hfunctions f hf (hfs f hf)⟩

end Onepass