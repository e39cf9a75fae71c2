import Onepass.Proofs.Hops
import Onepass.Proofs.Layout

/-!
# Onepass.Proofs.Declared

What the load of a local variable relies on: a line in front of it, in the same frame, that zeroes
the variable's place. That line is part of the code of the variable's declaration, and stands
behind the line that makes the frame.

* `backs_of_lowers`     -- in lowered code every such load is backed.
* `backed_of_generate`  -- so it is in a listing.
* `framing_of_generate` -- a frame is made in one place.
-/

namespace Onepass

open Assembly Lowering

namespace Assembly

/-- The line that makes a frame. -/
def framing (size : Symbol) : Line := .instr (.sub (.reg .esp) (.sym size))

/-- The line that zeroes a variable. -/
def zeroing (w : Word) : Line := .instr (.mov (.slot w) (.imm 0))

/-- The line that reads a variable. -/
def loading (w : Word) : Line := .instr (.mov (.reg .eax) (.slot w))

/-- The size of the frame that a line with these routines around it runs in. -/
def sizeWithin : List Nat → Symbol
  | [] => .mainFrameSize
  | i :: _ => .frameSize i

namespace Line

/-- The line neither makes a frame nor zeroes nor reads a variable. -/
def isQuiet : Line → Bool
  | .instr (.sub (.reg .esp) (.sym _)) | .instr (.mov (.slot _) (.imm 0))
  | .instr (.mov (.reg .eax) (.slot _)) => false
  | _ => true

end Line

/-- A variable below the frame's base is zeroed before it is read, behind the line that makes the
frame. -/
structure Backed (fs : Frames) (p : Nat) : Prop where
  loading : ∀ s w, fs[p]? = some (s, loading w) → w.slt 0 = false →
    ∃ d < p, fs[d]? = some (s, zeroing w)
  zeroing : ∀ s w, fs[p]? = some (s, zeroing w) → ∃ o < p, fs[o]? = some (s, framing (sizeWithin s))
  framing : ∀ s x, fs[p]? = some (s, framing x) → x = sizeWithin s

/-- The lines from place `i` up to place `j` are backed. -/
def BackedOn (fs : Frames) (i j : Nat) : Prop := ∀ p, i ≤ p → p < j → Backed fs p

namespace BackedOn

variable {fs : Frames} {i j k : Nat}

theorem append (h : BackedOn fs i j) (h' : BackedOn fs j k) : BackedOn fs i k := by
  intro p hp hp'
  rcases Nat.lt_or_ge p j with hj | hj
  · exact h p hp hj
  · exact h' p hj hp'

theorem single (h : Backed fs k) : BackedOn fs k (k + 1) := by
  intro p hp hp'
  obtain rfl : p = k := by omega
  exact h

theorem nil : BackedOn fs k k := fun p hp hp' => absurd hp' (by omega)

end BackedOn

theorem Backed.of_isQuiet {fs : Frames} {k : Nat} {s : List Nat} {l : Line}
    (hk : fs[k]? = some (s, l)) (hl : l.isQuiet = true) : Backed fs k := by
  constructor <;>
  · intro s' y hy
    cases hk.symm.trans hy
    cases hl

theorem Backed.of_framing {fs : Frames} {k : Nat} {s : List Nat}
    (hk : fs[k]? = some (s, Assembly.framing (sizeWithin s))) : Backed fs k := by
  constructor
  · intro s' w hw
    cases hk.symm.trans hw
  · intro s' w hw
    cases hk.symm.trans hw
  · intro s' x hx
    cases hk.symm.trans hx
    rfl

theorem BackedOn.of_isQuiet {fs qs : Frames} {k : Nat} (h : Lie fs k qs)
    (hq : ∀ q ∈ qs, q.2.isQuiet = true) : BackedOn fs k (k + qs.length) := by
  induction qs generalizing k with
  | nil => exact .nil
  | cons q qs ih =>
    rw [List.forall_mem_cons] at hq
    have hrest := ih h.2 hq.2
    rw [Nat.add_assoc, Nat.add_comm 1] at hrest
    exact (BackedOn.single (.of_isQuiet h.1 hq.1)).append hrest

/-- Each variable of the scope that lies below the frame's base is zeroed in front of place `k`, in
the frame of the routines `s`. -/
def Zeroed (fs : Frames) (k : Nat) (s : List Nat) (S : Scope) : Prop :=
  ∀ x w, S.place? x = some w → w.slt 0 = false → ∃ d < k, fs[d]? = some (s, zeroing w)

theorem Zeroed.mono {fs : Frames} {k k' : Nat} {s : List Nat} {S : Scope} (h : Zeroed fs k s S)
    (hk : k ≤ k') : Zeroed fs k' s S := by
  intro x w hx hw
  obtain ⟨d, hd, hline⟩ := h x w hx hw
  exact ⟨d, by omega, hline⟩

/-- Wherever the lines stand in a frame that is made already, they are backed and zero the variables
by which the second scope has more than the first. -/
def Backs (c : List Line) (S S' : Scope) : Prop :=
  ∀ (fs : Frames) (k : Nat) (s : List Nat), Lie fs k (framed c s) →
    (∃ o < k, fs[o]? = some (s, framing (sizeWithin s))) → Zeroed fs k s S →
    BackedOn fs k (k + c.length) ∧ Zeroed fs (k + c.length) s S'

namespace Backs

variable {a b c : List Line} {S S₁ S' : Scope} {l : Line}

theorem append (hn : Nested a) (ha : Backs a S S₁) (hb : Backs b S₁ S') :
    Backs (a ++ b) S S' := by
  intro fs k s h hopen hS
  rw [hn.framed_append, lie_append, length_framed] at h
  obtain ⟨ha, hS₁⟩ := ha fs k s h.1 hopen hS
  have hopen' : ∃ o < k + a.length, fs[o]? = some (s, framing (sizeWithin s)) := by
    obtain ⟨o, ho, hline⟩ := hopen
    exact ⟨o, by omega, hline⟩
  obtain ⟨hb, hS'⟩ := hb fs _ s h.2 hopen' hS₁
  rw [List.length_append, ← Nat.add_assoc]
  exact ⟨ha.append hb, hS'⟩

theorem quiet (h : ∀ l ∈ c, l.isQuiet = true) : Backs c S S := by
  intro fs k s hl _ hS
  have := BackedOn.of_isQuiet hl fun q hq => h q.2 (mem_of_framed hq)
  rw [length_framed] at this
  exact ⟨this, hS.mono (Nat.le_add_right _ _)⟩

theorem nil : Backs [] S S := quiet (by simp)

theorem cons (hp : l.isPlain = true) (hl : l.isQuiet = true) (hc : Backs c S S') :
    Backs (l :: c) S S' :=
  append (a := [l]) (.line hp .nil) (quiet (by simpa using hl)) hc

theorem snoc (hn : Nested c) (hc : Backs c S S') (hl : l.isQuiet = true) :
    Backs (c ++ [l]) S S' :=
  append hn hc (quiet (by simpa using hl))

theorem loading {x : String} {w : Word} (hx : S.place? x = some w) : Backs [loading w] S S := by
  intro fs k s h _ hS
  refine ⟨.single ⟨?_, ?_, ?_⟩, hS.mono (Nat.le_add_right _ _)⟩
  · intro s' w' hw'
    cases h.1.symm.trans hw'
    exact hS x w hx
  · intro s' w' hw'
    cases h.1.symm.trans hw'
  · intro s' y hy
    cases h.1.symm.trans hy

/-- The line that a declaration begins with. -/
theorem zeroing {x : String} {ty : Ty} {slot : Slot} (h : S.declareLocal x ty = .ok (slot, S')) :
    Backs [zeroing slot.offset] S S' := by
  intro fs k s hl hopen hS
  refine ⟨.single ⟨?_, ?_, ?_⟩, ?_⟩
  · intro s' w' hw'
    cases hl.1.symm.trans hw'
  · intro s' w' hw'
    cases hl.1.symm.trans hw'
    exact hopen
  · intro s' y hy
    cases hl.1.symm.trans hy
  · intro y w hy hw
    obtain ⟨-, -, rfl⟩ := Scope.declareLocal_eq_ok h
    rw [Scope.place?_insert] at hy
    split at hy
    · cases hy
      exact ⟨k, Nat.lt_succ_self k, hl.1⟩
    · exact hS.mono (Nat.le_add_right _ _) y w hy hw

/-- Of the second scope only the places matter. -/
theorem of_place? (h : Backs c S S₁) (hplace : ∀ x, S'.place? x = S₁.place? x) :
    Backs c S S' := by
  intro fs k s hl hopen hS
  obtain ⟨hb, hS₁⟩ := h fs k s hl hopen hS
  refine ⟨hb, ?_⟩
  intro x w hx
  rw [hplace] at hx
  exact hS₁ x w hx

/-- The lines of a routine. Its parameters lie above the base of its frame. -/
theorem routine {i : Nat} {f : String} {w : Word} (hn : Nested c) (hc : Backs c S₁ S')
    (habove : ∀ x w, S₁.place? x = some w → w.slt 0 = true) :
    Backs (enter i f ++ (c ++ finish i w)) S S := by
  intro fs k s hl hopen hS
  refine ⟨?_, hS.mono (Nat.le_add_right _ _)⟩
  simp only [enter, framed, List.cons_append, List.nil_append, Line.outer, Line.inner,
    hn.framed_append, Lie, lie_append, length_framed] at hl
  obtain ⟨hjmp, hentry, hpush, hmov, hsub, hbody, hfinish⟩ := hl
  have henter : BackedOn fs k (k + 4) :=
    (((BackedOn.single (.of_isQuiet hjmp rfl)).append (.single (.of_isQuiet hentry rfl))).append
      (.single (.of_isQuiet hpush rfl))).append (.single (.of_isQuiet hmov rfl))
  have hmake : Backed fs (k + 4) := .of_framing hsub
  have hparams : Zeroed fs (k + 5) (i :: s) S₁ := by
    intro x w hx hw
    rw [habove x w hx] at hw
    cases hw
  have hin := (hc fs (k + 5) (i :: s) hbody ⟨k + 4, by omega, hsub⟩ hparams).1
  have hend := BackedOn.of_isQuiet hfinish fun q hq => by
    have hq := mem_of_framed hq
    simp only [finish, leave, List.map_cons, List.map_nil, List.cons_append, List.nil_append,
      List.mem_cons, List.not_mem_nil, or_false] at hq
    rcases hq with hq | hq | hq | hq | hq | hq <;> rw [hq] <;> rfl
  rw [length_framed] at hend
  have hall := ((henter.append (.single hmake)).append hin).append hend
  have hlength : (enter i f).length = 5 := rfl
  rwa [List.length_append, List.length_append, hlength, ← Nat.add_assoc, ← Nat.add_assoc]

end Backs
end Assembly

theorem isQuiet_code (op : BinaryOp) : ∀ l ∈ op.code, l.isQuiet = true := by
  rcases op with (_ | _ | _ | _ | _ | _) | (_ | _ | _) | _ <;> decide

theorem isQuiet_unaryCode (op : UnaryOp) : ∀ l ∈ op.code.map Line.instr, l.isQuiet = true := by
  cases op <;> decide

theorem isQuiet_callCode (f : String) (n : Nat) :
    ∀ l ∈ (callCode f n).map Line.instr, l.isQuiet = true := by
  by_cases h : n = 0 <;> simp [callCode, h, Line.isQuiet]

/-- Parameters lie above the frame's base. -/
theorem slt_of_declareParams {ps : List String} {S : Scope}
    (h : Scope.empty.declareParams ps = .ok S) (hps : ps.length < 2 ^ 29) {x : String} {w : Word}
    (hx : S.place? x = some w) : w.slt 0 = true := by
  have hS : S.Holds ps [] := Scope.Holds.empty.declareParams h
  obtain ⟨i, hi⟩ := List.mem_iff_getElem?.mp (hS.known x w hx)
  rw [List.append_nil] at hi
  obtain ⟨hlt, -⟩ := List.getElem?_eq_some_iff.mp hi
  cases (hS.param i x hi).symm.trans hx
  exact Scope.slt_paramOffset (by omega)

/-- In lowered code each variable is zeroed in front of the loads of it, in the frame of its
declaration. -/
theorem backs_of_lowers {p t c t' v} (h : Lowers p t c t' v)
    (hps : ∀ f ∈ p.functions, f.params.length < 2 ^ 29) : Backs c t.scope t'.scope := by
  induction h with
  | var hx => exact .loading (Scope.place?_of_find hx)
  | int => exact .quiet (by simp [Line.isQuiet])
  | str => exact .quiet (by simp [stringCode, Line.isQuiet])
  | read => exact .quiet (by decide)
  | skip | nil | noArgs => exact .nil
  | @binary _ op _ _ _ _ _ _ _ _ _ _ hr hl _ ihr ihl =>
    rw [Piece.functions, Node.functions, List.forall_mem_append] at hps
    exact .append (nested_of_lowers hr) (ihr hps.1) (.cons rfl rfl
      (.append (nested_of_lowers hl) (ihl hps.2) (.cons rfl rfl (.quiet (isQuiet_code op)))))
  | unary h _ ih => exact .append (nested_of_lowers h) (ih hps) (.quiet (isQuiet_unaryCode _))
  | call _ _ h ih => exact .append (nested_of_lowers h) (ih hps) (.quiet (isQuiet_callCode _ _))
  | assign h hs ih =>
    exact .of_place? (.snoc (nested_of_lowers h) (ih hps) rfl) (Scope.retag_eq_ok hs).2.1
  | declare hs => exact .zeroing hs
  | define hs h hs' ih =>
    exact .append (a := [zeroing _]) (.line rfl .nil) (.zeroing hs)
      (.of_place? (.snoc (nested_of_lowers h) (ih hps) rfl) (Scope.retag_eq_ok hs').2.1)
  | print h ih => exact .append (nested_of_lowers h) (ih hps) (.quiet (by decide))
  | ret h ih => exact .append (nested_of_lowers h) (ih hps) (.quiet (by decide))
  | @branch i _ _ _ _ _ _ _ _ _ _ _ _ _ hc hy hn ihc ihy ihn =>
    rw [Piece.functions, Node.functions, List.forall_mem_append, List.forall_mem_append] at hps
    have hno := Backs.snoc (l := .label (.branchEnd i)) (nested_of_lowers hn) (ihn hps.2.2) rfl
    have hyes := Backs.append (nested_of_lowers hy) (ihy hps.2.1)
      (.cons (l := .instr (.jmp (.branchEnd i))) rfl rfl
        (.cons (l := .label (.branchElse i)) rfl rfl hno))
    exact .append (nested_of_lowers hc) (ihc hps.1) (.cons rfl rfl (.cons rfl rfl hyes))
  | @loop i _ _ _ _ _ _ _ t₂ _ hc hb ihc ihb =>
    rw [Piece.functions, Node.functions, List.forall_mem_append] at hps
    have hend : Backs [.instr (.jmp (.loopStart i)), .label (.loopExit i)] t₂.scope t₂.scope :=
      .quiet (by simp [Line.isQuiet])
    have hbody := Backs.append (nested_of_lowers hb) (ihb hps.2) hend
    exact .cons rfl rfl (.append (nested_of_lowers hc) (ihc hps.1)
      (.cons rfl rfl (.cons rfl rfl hbody)))
  | function _ hs hb ih =>
    rw [Piece.functions, Node.functions, List.forall_mem_cons] at hps
    exact .routine (nested_of_lowers hb) (ih hps.2) fun x w => slt_of_declareParams hs hps.1
  | block _ ih => exact ih hps
  | last hret _ ih => exact ih (by simpa [Piece.functions, Node.blockFunctions, hret] using hps)
  | cons hret hn _ ih ihrest =>
    simp only [Piece.functions, Node.blockFunctions, hret, List.forall_mem_append] at hps
    exact .append (nested_of_lowers hn) (ih hps.1) (ihrest hps.2)
  | arg hrest hn ihrest ih =>
    rw [Piece.functions, Node.argFunctions, List.forall_mem_append] at hps
    exact .append (nested_of_lowers hrest) (ihrest hps.1)
      (.snoc (nested_of_lowers hn) (ih hps.2) rfl)

/-! ## Listings -/

namespace Assembly

/-- The size of the frame that the line makes. -/
def Line.makes? : Line → Option Symbol
  | .instr (.sub (.reg .esp) (.sym x)) => some x
  | _ => none

/-- The sizes of the frames that the lines make. -/
def framings (ls : List Line) : List Symbol := ls.filterMap Line.makes?

section

variable (l : Line) (ls ms : List Line)

@[simp] theorem framings_nil : framings [] = [] := rfl

@[simp] theorem framings_cons : framings (l :: ls) = l.makes?.toList ++ framings ls := by
  cases h : l.makes? <;> simp [framings, h]

@[simp] theorem framings_append : framings (ls ++ ms) = framings ls ++ framings ms :=
  List.filterMap_append

end

theorem framings_of_isQuiet {ls : List Line} (h : ∀ l ∈ ls, l.isQuiet = true) :
    framings ls = [] := by
  rw [framings, List.filterMap_eq_nil_iff]
  intro l hl
  have := h l hl
  unfold Line.makes?
  split
  · cases this
  · rfl

end Assembly

/-- Each routine makes one frame and says its size. -/
theorem count_framings_le {p t c t' v} (h : Lowers p t c t' v) (x : Symbol) :
    (framings c).count x ≤ (definitions c).count x := by
  induction h with
  | @binary _ op =>
    simp [framings_of_isQuiet (isQuiet_code op), List.count_append, Line.makes?] at *
    omega
  | @unary _ op =>
    simp [framings_of_isQuiet (isQuiet_unaryCode op)] at *
    omega
  | @call _ f as =>
    simp [framings_of_isQuiet (isQuiet_callCode f as.length)] at *
    omega
  | block _ ih | last _ _ ih => exact ih
  | _ =>
    simp [Line.makes?, Line.defines, stringCode, readCode, printCode, jumpIfFalse, leave, enter,
      finish, List.count_append, List.count_cons] at *
    try omega

theorem isQuiet_head : ∀ l ∈ head, l.isQuiet = true := by decide

theorem isQuiet_foot : ∀ l ∈ foot, l.isQuiet = true := by decide

section

variable {root : Node Nat} {l : Listing}

/-- A frame is made in one place, behind the head of the listing. -/
theorem framing_of_generate (hids : root.ids.Nodup) (h : generate root = .ok l) {o : Nat}
    {x : Symbol} (ho : l.lines[o]? = some (framing x)) :
    head.length ≤ o ∧ ∀ o', l.lines[o']? = some (framing x) → o' = o := by
  have hdefined : (definitions l.lines).Nodup := (nodup_symbols_of_generate hids h).of_append_left
  obtain ⟨c, t, v, hc, hlines⟩ := lines_of_generate h
  rw [hlines] at ho hdefined ⊢
  constructor
  · by_contra hlt
    rw [List.getElem?_append_left (by omega)] at ho
    cases isQuiet_head _ (List.mem_of_getElem? ho)
  · have hnodup : (framings (head ++ (framing .mainFrameSize ::
        (c ++ .equ .mainFrameSize t.scope.frameSize.toInt :: foot)))).Nodup := by
      rw [List.nodup_iff_count_le_one] at hdefined ⊢
      intro y
      refine le_trans ?_ (hdefined y)
      have := count_framings_le hc y
      simp [framings_of_isQuiet isQuiet_head, framings_of_isQuiet isQuiet_foot, framing,
        Line.makes?, Line.defines, List.count_cons]
      omega
    intro o' ho'
    exact index_of_filterMap hnodup ho' ho rfl rfl

theorem backedOn_head (ls : List Line) : BackedOn (framed (head ++ ls) []) 0 head.length := by
  intro p _ hp
  have hline : (head ++ ls)[p]? = some head[p] :=
    (List.getElem?_append_left hp).trans (List.getElem?_eq_getElem hp)
  obtain ⟨s, hs⟩ := exists_framed [] hline
  exact .of_isQuiet hs (isQuiet_head _ (List.getElem_mem hp))

/-- Every load of a local variable in a listing is backed. -/
theorem backed_of_generate (h : generate root = .ok l)
    (hps : ∀ f ∈ root.functions, f.params.length < 2 ^ 29) :
    BackedOn (framed l.lines []) 0 l.lines.length := by
  obtain ⟨c, t, v, hc, hlines⟩ := lines_of_generate h
  rw [hlines]
  obtain ⟨hopen, hlie⟩ := lie_behind_head (framing .mainFrameSize ::
    (c ++ .equ .mainFrameSize t.scope.frameSize.toInt :: foot))
  have hcode : Backs (c ++ .equ .mainFrameSize t.scope.frameSize.toInt :: foot) .empty t.scope :=
    .append (nested_of_lowers hc) (backs_of_lowers hc hps) (.cons rfl rfl (.quiet isQuiet_foot))
  have hempty : ∀ fs k s, Zeroed fs k s .empty := by simp [Zeroed, Scope.place?, Scope.empty]
  have hrest := (hcode _ _ [] hlie ⟨_, Nat.lt_succ_self _, hopen⟩ (hempty _ _ _)).1
  have hall := ((backedOn_head _).append (.single (.of_framing hopen))).append hrest
  rwa [List.length_append, List.length_cons, Nat.add_comm _ 1, ← Nat.add_assoc]

end

end Onepass
