import Mathlib.Data.List.Nodup
import Onepass.Proofs.Functions
import Onepass.Proofs.Ids

/-!
# Onepass.Proofs.Symbols

The symbols of a listing: which it defines, which it uses and which it leaves to the outside.

* `name_injective` -- different symbols have different names, whatever the functions are called.
* `count_node_le`, `count_routine` -- what the code of a piece defines: symbols with the numbers
  of its own nodes, and the routines of its own functions.
* `mem_definitions_of_uses`, `mem_services_of_uses`, `known_of_uses` -- what it uses: those, symbols
  of the fixed part, and known routines.
* `linked_of_generate` -- nothing is defined twice and nothing is used that nobody defines.
-/

namespace Onepass
namespace Assembly

theorem toDigits_inj {m n : Nat} : Nat.toDigits 10 m = Nat.toDigits 10 n ↔ m = n := by
  constructor
  · intro h
    rw [← Nat.ofDigitChars_ten_toDigits (n := m), h, Nat.ofDigitChars_ten_toDigits]
  · rintro rfl
    rfl

/-- A number does not begin with anything but a digit. -/
theorem toDigits_ne_cons {c : Char} {cs : List Char} {n : Nat} (hc : c.isDigit = false) :
    Nat.toDigits 10 n ≠ c :: cs := by
  intro h
  have hd := Nat.isDigit_of_mem_toDigits (b := 10) (n := n) (c := c) (by decide) (by decide)
    (by simp [h])
  rw [hc] at hd
  cases hd

theorem cons_ne_toDigits {c : Char} {cs : List Char} {n : Nat} (hc : c.isDigit = false) :
    c :: cs ≠ Nat.toDigits 10 n := (toDigits_ne_cons hc).symm

namespace Fixed

theorem name_inj {a b : Fixed} (h : a.name = b.name) : a = b := by
  cases a <;> cases b <;> simp [name] at h ⊢

/-- No fixed name begins like the names of another family. -/
theorem name_ne {f : Fixed} {s : Symbol} (hs : ∀ f, s ≠ .fixed f) : f.name ≠ s.name := by
  intro h
  rw [← String.toList_inj] at h
  cases s with
  | fixed g => exact hs g rfl
  | _ => cases f <;> simp [Symbol.name, name] at h

end Fixed

namespace Symbol

theorem name_injective {a b : Symbol} (h : a.name = b.name) : a = b := by
  cases a with
  | fixed f =>
    cases b with
    | fixed g => rw [Fixed.name_inj h]
    | _ => exact absurd h (Fixed.name_ne (by simp))
  | _ =>
    cases b with
    | fixed g => exact absurd h.symm (Fixed.name_ne (by simp))
    | _ =>
      -- Two prefixes differ, or one is longer than the other by something that is no digit.
      replace h := String.toList_inj.mpr h
      simp_all [name, toDigits_ne_cons, cons_ne_toDigits, toDigits_inj, String.toList_inj]

/-- The number of the node that a symbol belongs to. -/
def node? : Symbol → Option Nat
  | .routineEnd i | .text i | .textEnd i | .branchElse i | .branchEnd i | .loopStart i
  | .loopExit i | .frameSize i => some i
  | .fixed _ | .routine _ | .mainFrameSize => none

/-- Is the symbol one that the code of a piece can define? -/
def IsOwn (s : Symbol) : Prop := (∃ i, s.node? = some i) ∨ ∃ f, s = .routine f

end Symbol

def Operand.symbols : Operand → List Symbol
  | .sym s | .cell s => [s]
  | .reg _ | .imm _ | .slot _ => []

/-- The operands as they are written. -/
def Instr.operands : Instr → List Operand
  | .mov a b | .add a b | .sub a b | .and a b | .or a b | .xor a b | .cmp a b => [a, b]
  | .push a | .imul a | .idiv a | .neg a => [a]
  | .pop r => [.reg r]
  | .jmp s | .je s | .jg s | .jl s | .call s => [.sym s]
  | .cdq | .ret | .interrupt => []

def Instr.symbols (i : Instr) : List Symbol := i.operands.flatMap Operand.symbols

namespace Line

/-- The symbol that a line defines. -/
def defines : Line → Option Symbol
  | .label s | .equ s _ | .data s _ | .zeros s _ | .reserve s _ => some s
  | .remark l _ => l.defines
  | _ => none

/-- The symbols that a line refers to. -/
def uses : Line → List Symbol
  | .instr i => i.symbols
  | .global s => [s]
  | .remark l _ => l.uses
  | _ => []

/-- The symbol that a line declares as defined elsewhere. -/
def declares : Line → Option Symbol
  | .external s => some s
  | .remark l _ => l.declares
  | _ => none

end Line

def definitions (ls : List Line) : List Symbol := ls.filterMap Line.defines

def uses (ls : List Line) : List Symbol := ls.flatMap Line.uses

def externals (ls : List Line) : List Symbol := ls.filterMap Line.declares

section

variable (l : Line) (ls ms : List Line) (is : List Instr)

@[simp] theorem definitions_nil : definitions [] = [] := rfl

@[simp] theorem definitions_cons :
    definitions (l :: ls) = l.defines.toList ++ definitions ls := by
  cases h : l.defines <;> simp [definitions, h]

@[simp] theorem definitions_append :
    definitions (ls ++ ms) = definitions ls ++ definitions ms := List.filterMap_append

@[simp] theorem definitions_instrs : definitions (is.map .instr) = [] := by
  induction is with
  | nil => rfl
  | cons i is ih => simpa [Line.defines] using ih

@[simp] theorem externals_nil : externals [] = [] := rfl

@[simp] theorem externals_cons :
    externals (l :: ls) = l.declares.toList ++ externals ls := by
  cases h : l.declares <;> simp [externals, h]

@[simp] theorem externals_append :
    externals (ls ++ ms) = externals ls ++ externals ms := List.filterMap_append

@[simp] theorem externals_instrs : externals (is.map .instr) = [] := by
  induction is with
  | nil => rfl
  | cons i is ih => simpa [Line.declares] using ih

@[simp] theorem uses_nil : uses [] = [] := rfl

@[simp] theorem uses_cons : uses (l :: ls) = l.uses ++ uses ls := List.flatMap_cons

@[simp] theorem uses_append : uses (ls ++ ms) = uses ls ++ uses ms := List.flatMap_append

@[simp] theorem uses_instrs : uses (is.map .instr) = is.flatMap Instr.symbols := by
  simp only [uses, List.flatMap_map]
  rfl

end

/-- What one thing in a list gives is given in one place. -/
theorem index_of_filterMap {α β : Type} {f : α → Option β} {xs : List α}
    (hd : (xs.filterMap f).Nodup) {x y : α} {b : β} {i j : Nat} (hx : xs[i]? = some x)
    (hy : xs[j]? = some y) (h : f x = some b) (h' : f y = some b) : i = j := by
  have hlt {i j : Nat} {x y : α} (hx : xs[i]? = some x) (hy : xs[j]? = some y) (h : f x = some b)
      (h' : f y = some b) : ¬ i < j := by
    intro hij
    obtain ⟨hi, rfl⟩ := List.getElem?_eq_some_iff.mp hx
    obtain ⟨hj, rfl⟩ := List.getElem?_eq_some_iff.mp hy
    rw [List.Nodup, List.pairwise_filterMap, List.pairwise_iff_getElem] at hd
    exact hd i j hi hj hij b h b h' rfl
  have h₁ := hlt hx hy h h'
  have h₂ := hlt hy hx h' h
  omega

/-- A symbol that is defined once is defined in one place. -/
theorem index_of_defines {ls : List Line} (hd : (definitions ls).Nodup) {l l' : Line} {s : Symbol}
    {i j : Nat} (hl : ls[i]? = some l) (hl' : ls[j]? = some l') (h : l.defines = some s)
    (h' : l'.defines = some s) : i = j :=
  index_of_filterMap hd hl hl' h h'

theorem eq_of_defines {ls : List Line} (hd : (definitions ls).Nodup) {l l' : Line} {s : Symbol}
    (hl : l ∈ ls) (hl' : l' ∈ ls) (h : l.defines = some s) (h' : l'.defines = some s) :
    l = l' := by
  obtain ⟨i, hi⟩ := List.mem_iff_getElem?.mp hl
  obtain ⟨j, hj⟩ := List.mem_iff_getElem?.mp hl'
  rw [index_of_defines hd hi hj h h', hj] at hi
  exact (Option.some.inj hi).symm

/-- Every name has one meaning, and every name that is used has one: in the listing itself, or
outside if the listing says so. -/
structure Linked (ls : List Line) : Prop where
  unique : ((definitions ls ++ externals ls).map Symbol.name).Nodup
  resolved : ∀ s ∈ uses ls, s.name ∈ (definitions ls ++ externals ls).map Symbol.name

/-- As different symbols have different names, the symbols themselves are enough. -/
theorem linked_of_symbols {ls : List Line} (hu : (definitions ls ++ externals ls).Nodup)
    (hr : ∀ s ∈ uses ls, s ∈ definitions ls ++ externals ls) : Linked ls where
  unique := hu.map fun _ _ => Symbol.name_injective
  resolved := fun s hs => List.mem_map_of_mem (hr s hs)

end Assembly

open Assembly Lowering

/-! ## What a piece defines -/

@[simp] theorem definitions_code (op : BinaryOp) : definitions op.code = [] := by
  cases op with
  | arith op => exact definitions_instrs _
  | relation op => rfl
  | concat => rfl

@[simp] theorem definitions_enter (i : Nat) (f : String) :
    definitions (enter i f) = [.routine f] := rfl

@[simp] theorem definitions_finish (i : Nat) (w : Word) :
    definitions (finish i w) = [.frameSize i, .routineEnd i] := rfl

@[simp] theorem definitions_stringCode (i : Nat) (w : String) :
    definitions (stringCode i w) = [.text i, .textEnd i] := rfl

attribute [local simp] Line.defines

/-- Of one node's symbols, each once: no symbol of a number more often than the number. -/
theorem count_le_of_node {l : List Symbol} {s : Symbol} {i j : Nat} (hs : s.node? = some i)
    (hl : l.Nodup) (hj : ∀ x ∈ l, x.node? = some j) : l.count s ≤ [j].count i := by
  by_cases h : s ∈ l
  · have hij := hj s h
    rw [hs, Option.some.injEq] at hij
    subst hij
    rw [hl.count, if_pos h]
    simp
  · rw [List.count_eq_zero_of_not_mem h]
    exact Nat.zero_le _

/-- A symbol of a node is defined at most as often as its number stands in the tree. -/
theorem count_node_le {p t c t' v} (h : Lowers p t c t' v) {s : Symbol} {i : Nat}
    (hs : s.node? = some i) : (definitions c).count s ≤ p.ids.count i := by
  have own (j : Nat) {l : List Symbol} (hl : l.Nodup) (hj : ∀ x ∈ l, x.node? = some j) :
      l.count s ≤ [j].count i := count_le_of_node hs hl hj
  induction h with
  | var _ | int | read | declare _ | skip | nil | noArgs => simp
  | @str j w =>
    have := own j (l := [.text j, .textEnd j]) (by simp) (by simp [Symbol.node?])
    simpa [Piece.ids, Node.ids] using this
  | @branch j e ys ns t c t₁ a c₁ t₂ a₁ c₂ t₃ a₂ _ _ _ ihc ihy ihn =>
    have := own j (l := [.branchElse j, .branchEnd j]) (by simp) (by simp [Symbol.node?])
    simp [Piece.ids, Node.ids, List.count_append, List.count_cons] at *
    omega
  | @loop j e body t c t₁ a c₁ t₂ a₁ _ _ ihc ihb =>
    have := own j (l := [.loopStart j, .loopExit j]) (by simp) (by simp [Symbol.node?])
    simp [Piece.ids, Node.ids, List.count_append, List.count_cons] at *
    omega
  | @function j f ps body t rs t' c u v _ _ _ ih =>
    have := own j (l := [.frameSize j, .routineEnd j]) (by simp) (by simp [Symbol.node?])
    have hf : Symbol.routine f ≠ s := by
      rintro rfl
      cases hs
    simp [Piece.ids, Node.ids, List.count_append, List.count_cons, hf] at *
    omega
  | _ =>
    simp [Piece.ids, Node.ids, Node.idss, List.count_append] at *
    omega

/-- The routine of a name is defined as often as a function of that name is declared. -/
theorem count_routine {p t c t' v} (h : Lowers p t c t' v) (f : String) :
    (definitions c).count (.routine f) = (p.functions.map (·.name)).count f := by
  induction h with
  | var _ | int | read | declare _ | skip | nil | noArgs | str =>
    simp [Piece.functions, Node.functions, Node.blockFunctions, Node.argFunctions]
  | last hr _ ih => simpa [Piece.functions, Node.blockFunctions, hr] using ih
  | cons hr _ _ ihn ihrest =>
    simp [Piece.functions, Node.blockFunctions, hr] at *
    omega
  | function _ _ _ ih =>
    simp [Piece.functions, Node.functions, List.count_cons] at *
    omega
  | _ =>
    simp [Piece.functions, Node.functions, Node.argFunctions] at *
    omega

/-- Nothing else is defined. -/
theorem isOwn_of_mem {p t c t' v} (h : Lowers p t c t' v) : ∀ s ∈ definitions c, s.IsOwn := by
  induction h with
  | _ => simp [Symbol.IsOwn, Symbol.node?, or_imp, forall_and] at * <;> tauto

/-- A symbol is defined once by a piece whose nodes have different numbers. -/
theorem nodup_definitions {p t c t' v} (h : Lowers p t c t' v) (hids : p.ids.Nodup) :
    (definitions c).Nodup := by
  rw [List.nodup_iff_count]
  intro s
  by_cases hs : s ∈ definitions c
  · rcases isOwn_of_mem h s hs with ⟨i, hi⟩ | ⟨f, rfl⟩
    · exact (count_node_le h hi).trans (List.nodup_iff_count.mp hids i)
    · rw [count_routine h]
      exact List.nodup_iff_count.mp (fresh_of_lowers h).nodup f
  · rw [List.count_eq_zero_of_not_mem hs]
    exact Nat.zero_le _

/-! ## What a piece uses -/

/-- The symbols of the fixed part that generated code refers to. -/
def services : List Symbol :=
  [.fixed .false, .fixed .formatin, .fixed .formatout, .fixed .scanint, .fixed .scanf,
   .fixed .printf, .fixed .ifEqual, .fixed .ifGreater, .fixed .ifLess]

theorem mem_services_of_code (op : BinaryOp) : ∀ s ∈ uses op.code, s ∈ services := by
  rcases op with op | op | _ <;> [cases op; cases op; skip] <;> decide

theorem mem_services_of_unary (op : UnaryOp) :
    ∀ s ∈ op.code.flatMap Instr.symbols, s ∈ services := by
  cases op <;> decide

@[simp] theorem symbols_callCode (f : String) (n : Nat) :
    (callCode f n).flatMap Instr.symbols = [.routine f] := by
  by_cases h : n = 0 <;> simp [callCode, h, Instr.symbols, Instr.operands, Operand.symbols]

theorem node?_of_mem_services : ∀ s ∈ services, s.node? = none := by decide

theorem routine_not_mem_services (f : String) : .routine f ∉ services := by simp [services]

attribute [local simp] Line.uses Instr.symbols Instr.operands Operand.symbols stringCode readCode printCode
  jumpIfFalse leave enter finish

/-- What belongs to a node is used only where it is defined. -/
theorem mem_definitions_of_uses {p t c t' v} (h : Lowers p t c t' v) :
    ∀ s ∈ uses c, s.node? ≠ none → s ∈ definitions c := by
  induction h with
  | @binary i op l r t c₁ t₁ b c₂ t₂ a v _ _ _ ihr ihl =>
    have hop : ∀ s ∈ uses op.code, s.node? = none := fun s hs =>
      node?_of_mem_services s (mem_services_of_code op s hs)
    simp [or_imp, forall_and] at *
    grind
  | @unary i op e t c t' a v _ _ ih =>
    have hop : ∀ s ∈ op.code.flatMap Instr.symbols, s.node? = none := fun s hs =>
      node?_of_mem_services s (mem_services_of_unary op s hs)
    simp [or_imp, forall_and] at *
    grind
  | _ => simp [or_imp, forall_and, Symbol.node?] at * <;> tauto

theorem mem_services_of_uses {p t c t' v} (h : Lowers p t c t' v) :
    ∀ s ∈ uses c, s.node? = none → s ∈ services ∨ ∃ f, s = .routine f := by
  induction h with
  | @binary i op l r t c₁ t₁ b c₂ t₂ a v _ _ _ ihr ihl =>
    have hop := mem_services_of_code op
    simp [or_imp, forall_and] at *
    grind
  | @unary i op e t c t' a v _ _ ih =>
    have hop := mem_services_of_unary op
    simp [or_imp, forall_and] at *
    grind
  | _ => simp [or_imp, forall_and, Symbol.node?, services] at * <;> tauto

/-- A routine that is used belongs to a function that is known behind the piece. -/
theorem known_of_uses {p t c t' v} (h : Lowers p t c t' v) {f : String} (hf : .routine f ∈ uses c) :
    ∃ ps, t'.routines.params? f = some ps := by
  induction h with
  | @binary i op l r t c₁ t₁ b c₂ t₂ a v _ hl _ ihr ihl =>
    have hop : .routine f ∉ uses op.code := fun h =>
      routine_not_mem_services f (mem_services_of_code op _ h)
    simp [hop] at hf
    rcases hf with hf | hf
    · obtain ⟨ps, hps⟩ := ihr hf
      exact ⟨ps, params?_mono hl hps⟩
    · exact ihl hf
  | @unary i op e t c t' a v _ _ ih =>
    have hop : .routine f ∉ op.code.flatMap Instr.symbols := fun h =>
      routine_not_mem_services f (mem_services_of_unary op _ h)
    simp [-List.mem_flatMap, hop] at hf
    exact ih hf
  | @call i g as t r c t' v hr hn hc ih =>
    simp only [uses_append, uses_instrs, symbols_callCode, List.mem_append, List.mem_singleton,
      Symbol.routine.injEq] at hf
    rcases hf with hf | rfl
    · exact ih hf
    · exact ⟨r.params, params?_mono hc (Routines.params?_of_find hr)⟩
  | branch _ hy hn ihc ihy ihn =>
    simp at hf
    rcases hf with hf | hf | hf
    · obtain ⟨ps, hps⟩ := ihc hf
      exact ⟨ps, params?_mono hn (params?_mono hy hps)⟩
    · obtain ⟨ps, hps⟩ := ihy hf
      exact ⟨ps, params?_mono hn hps⟩
    · exact ihn hf
  | loop _ hb ihc ihb =>
    simp at hf
    rcases hf with hf | hf
    · obtain ⟨ps, hps⟩ := ihc hf
      exact ⟨ps, params?_mono hb hps⟩
    · exact ihb hf
  | cons _ _ hrest ihn ihrest =>
    rw [uses_append, List.mem_append] at hf
    rcases hf with hf | hf
    · obtain ⟨ps, hps⟩ := ihn hf
      exact ⟨ps, params?_mono hrest hps⟩
    · exact ihrest hf
  | arg _ hn ihrest ihn =>
    simp at hf
    rcases hf with hf | hf
    · obtain ⟨ps, hps⟩ := ihrest hf
      exact ⟨ps, params?_mono hn hps⟩
    · exact ihn hf
  | function _ _ _ ih =>
    simp only [Routines.params?_noted]
    exact ih (by simpa using hf)
  | last _ _ ih | block _ ih => exact ih hf
  | assign _ _ ih | define _ _ _ ih | print _ ih | ret _ ih => exact ih (by simpa using hf)
  | var _ | int | str | read | declare _ | skip | nil | noArgs => simp at hf

theorem externals_code (op : BinaryOp) : externals op.code = [] := by
  cases op with
  | arith op => exact externals_instrs _
  | relation op => rfl
  | concat => rfl

attribute [local simp] Line.declares

theorem externals_of_lowers {p t c t' v} (h : Lowers p t c t' v) : externals c = [] := by
  induction h with
  | _ => simp [externals_code, *]

/-! ## Whole listings -/

/-- A symbol that the code of a whole program uses is defined there, or in the fixed part. -/
theorem resolved_of_lowers {root : Node Nat} {c t v}
    (h : Lowers (.node root) ⟨.empty, .empty⟩ c t v) :
    ∀ s ∈ uses c, s ∈ definitions c ∨ s ∈ services := by
  intro s hs
  by_cases hn : s.node? = none
  · rcases mem_services_of_uses h s hs hn with hserv | ⟨f, rfl⟩
    · exact .inr hserv
    · obtain ⟨ps, hps⟩ := known_of_uses h hs
      have hnone : (⟨.empty, .empty⟩ : Tables).routines.params? f = none := rfl
      rw [params?_of_lowers h, hnone, Option.none_or] at hps
      obtain ⟨g, hg, rfl, -⟩ := exists_of_paramsIn hps
      left
      rw [← List.count_pos_iff, count_routine h, List.count_pos_iff]
      exact List.mem_map_of_mem hg
  · exact .inl (mem_definitions_of_uses h s hs hn)

/-- The fixed part has fixed names only, each for one thing. -/
theorem head_symbols :
    ∃ fs : List Fixed, fs.Nodup ∧ definitions head ++ externals head = fs.map .fixed :=
  ⟨[.sysExit, .sysRead, .sysWrite, .stdinNumber, .stdoutNumber, .true, .false, .formatin,
    .formatout, .scanint, .res, .ifEqual, .ifGreater, .ifLess, .answerFalse, .answerTrue,
    .answered, .main, .scanf, .printf, .fflush, .stdout], by decide, rfl⟩

theorem services_subset_head : ∀ s ∈ services, s ∈ definitions head ++ externals head := by decide

theorem uses_of_head_foot :
    ∀ s ∈ uses head ++ uses foot, s ∈ definitions head ++ externals head := by decide

theorem nodup_symbols {root : Node Nat} {c t v} (hids : root.ids.Nodup)
    (h : Lowers (.node root) ⟨.empty, .empty⟩ c t v) :
    ((definitions head ++ externals head) ++ (definitions c ++ [Symbol.mainFrameSize])).Nodup := by
  obtain ⟨fs, hfs, hhead⟩ := head_symbols
  have hown := isOwn_of_mem h
  rw [hhead, List.nodup_append, List.nodup_append]
  refine ⟨hfs.map (fun f g => Symbol.fixed.inj), ⟨nodup_definitions h hids, by simp, ?_⟩, ?_⟩
  · intro s hs s' hs'
    rw [List.mem_singleton] at hs'
    rintro rfl
    simpa [hs', Symbol.IsOwn, Symbol.node?] using hown s hs
  · intro s hs s' hs'
    obtain ⟨f, -, rfl⟩ := List.mem_map.mp hs
    rintro rfl
    rcases List.mem_append.mp hs' with hs' | hs'
    · simpa [Symbol.IsOwn, Symbol.node?] using hown _ hs'
    · simp at hs'

theorem symbols_of_body {root : Node Nat} {c t v} {l : Listing}
    (h : Lowers (.node root) ⟨.empty, .empty⟩ c t v)
    (hbody : l.body = .instr (.sub (.reg .esp) (.sym .mainFrameSize)) ::
      (c ++ [.equ .mainFrameSize t.scope.frameSize.toInt])) :
    (definitions l.lines ++ externals l.lines).Perm
      ((definitions head ++ externals head) ++ (definitions c ++ [Symbol.mainFrameSize])) := by
  have hd : definitions l.lines = definitions head ++ (definitions c ++ [.mainFrameSize]) := by
    simp [Listing.lines, hbody, foot]
  have he : externals l.lines = externals head := by
    simp [Listing.lines, hbody, foot, externals_of_lowers h]
  rw [hd, he, List.append_assoc (definitions head), List.append_assoc (definitions head)]
  exact List.perm_append_comm.append_left _

theorem nodup_symbols_of_generate {root : Node Nat} {listing : Listing} (hids : root.ids.Nodup)
    (h : generate root = .ok listing) :
    (definitions listing.lines ++ externals listing.lines).Nodup := by
  obtain ⟨c, t, v, hc, hbody⟩ := lowers_of_generate h
  exact (symbols_of_body hc hbody).nodup_iff.mpr (nodup_symbols hids hc)

theorem mem_symbols_of_generate {root : Node Nat} {listing : Listing}
    (h : generate root = .ok listing) :
    ∀ s ∈ uses listing.lines, s ∈ definitions listing.lines ++ externals listing.lines := by
  obtain ⟨c, t, v, hc, hbody⟩ := lowers_of_generate h
  intro s hs
  rw [(symbols_of_body hc hbody).mem_iff]
  simp [Listing.lines, hbody] at hs
  rcases hs with hs | rfl | hs | hs
  · exact List.mem_append_left _ (uses_of_head_foot s (List.mem_append_left _ hs))
  · simp
  · rcases resolved_of_lowers hc s hs with hs | hs
    · simp [hs]
    · exact List.mem_append_left _ (services_subset_head s hs)
  · exact List.mem_append_left _ (uses_of_head_foot s (List.mem_append_right _ hs))

/-- The listing of a tree with a number for each node is linked, whatever its functions are
called. -/
theorem linked_of_generate {root : Node Nat} {listing : Listing} (hids : root.ids.Nodup)
    (h : generate root = .ok listing) : Linked listing.lines :=
  linked_of_symbols (nodup_symbols_of_generate hids h) (mem_symbols_of_generate h)

/-- A function may be called like a label. -/
theorem linked_of_function_end : ∃ listing,
    generate (.block 7 [.function 3 "end_3" ["n"] [.branch 2 (.var 0 "n") [.skip 1] []],
      .print 6 (.call 5 "end_3" [.int 4 1])]) = .ok listing ∧ Linked listing.lines := by
  have hids : (Node.block 7 [.function 3 "end_3" ["n"] [.branch 2 (.var 0 "n") [.skip 1] []],
      .print 6 (.call 5 "end_3" [.int 4 1])]).ids.Nodup := by decide
  exact ⟨_, rfl, linked_of_generate hids rfl⟩

/-- Programs have a number for each node. -/
theorem linked_of_compile {source : String} {listing : Listing}
    (h : compile source = .ok listing) : Linked listing.lines := by
  obtain ⟨root, hroot, hgen⟩ := compile_eq_ok.mp h
  exact linked_of_symbols (nodup_symbols_of_generate (nodup_ids_of_parse hroot) hgen)
    (mem_symbols_of_generate hgen)

end Onepass
