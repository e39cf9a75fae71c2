import Onepass.Proofs.Symbols
import Onepass.Proofs.Templates

/-!
# Onepass.Proofs.StringData

Strings in the text of a listing. A string is written down once, as bytes in a line of its own,
and can be read back from there; no other line depends on what it says. So nothing in a string
can end a line, begin a remark or name a label.

* `readString?`          -- reads a string from the text of a line.
* `data_of_lowers`       -- the lines with strings in them are those of the literals that are run.
* `contained_of_compile` -- what the text of the code of a compiled program is made of.
-/

namespace Onepass

open Assembly

/-! ## Lines that are read -/

/-- The number and the data in a line `str_N: db data`. -/
def dataLine? (line : String) : Option (Nat × List Char) :=
  match line.toList with
  | 's' :: 't' :: 'r' :: '_' :: rest =>
    match rest.dropWhile Char.isDigit with
    | ':' :: ' ' :: 'd' :: 'b' :: ' ' :: data =>
      if rest.takeWhile Char.isDigit = [] then none
      else some (decimal (rest.takeWhile Char.isDigit), data)
    | _ => none
  | _ => none

/-- The byte that decimal digits stand for. -/
def byte? (digits : List Char) : Option UInt8 :=
  if digits ≠ [] ∧ digits.all Char.isDigit ∧ decimal digits < 256 then
    some (UInt8.ofNat (decimal digits))
  else none

/-- Bytes with commas between them, and blanks anywhere. -/
def bytes? (data : List Char) : Option (List UInt8) :=
  ((data.filter (· ≠ ' ')).splitOn ',').mapM byte?

/-- The string in front of a final zero. -/
def string? (bytes : List UInt8) : Option String :=
  if bytes.getLast? = some 0 then String.fromUTF8? ⟨bytes.dropLast.toArray⟩ else none

/-- The number and the string in a line. -/
def readString? (line : String) : Option (Nat × String) :=
  (dataLine? line).bind fun (i, data) => ((bytes? data).bind string?).map fun s => (i, s)

/-- What begins like the line of a string is read as one. -/
theorem dataLine?_prefix (i : Nat) (data : String) :
    dataLine? ("str_" ++ toString i ++ ": db " ++ data) = some (i, data.toList) := by
  have hstop : ∀ c ∈ (':' :: ' ' :: 'd' :: 'b' :: ' ' :: data.toList).head?,
      c.isDigit = false := by
    simp
  have htake := takeWhile_append_stop (isDigit_of_mem_toDigits (n := i)) hstop
  have hdrop := dropWhile_append_stop (isDigit_of_mem_toDigits (n := i)) hstop
  have hline : ("str_" ++ toString i ++ ": db " ++ data).toList = 's' :: 't' :: 'r' :: '_' ::
      (Nat.toDigits 10 i ++ ':' :: ' ' :: 'd' :: 'b' :: ' ' :: data.toList) := by
    simp
  rw [dataLine?, hline]
  simp only [htake, hdrop, decimal_toDigits, if_neg Nat.toDigits_ne_nil]

theorem byte?_toString (b : UInt8) : byte? (toString b.toNat).toList = some b := by
  have htext : (toString b.toNat).toList = Nat.toDigits 10 b.toNat := Nat.toList_repr
  have hall : (Nat.toDigits 10 b.toNat).all Char.isDigit = true :=
    List.all_eq_true.mpr isDigit_of_mem_toDigits
  rw [htext, byte?, decimal_toDigits, if_pos ⟨Nat.toDigits_ne_nil, hall, b.toNat_lt⟩,
    UInt8.ofNat_toNat]

/-- Digits are left when blanks are taken out. -/
theorem filter_bytesText (bs : List UInt8) : (bytesText bs).toList.filter (· ≠ ' ') =
    [','].intercalate (bs.map fun b => (toString b.toNat).toList) := by
  have hdigits (b : UInt8) :
      (toString b.toNat).toList.filter (· ≠ ' ') = (toString b.toNat).toList := by
    refine List.filter_eq_self.mpr fun c hc => ?_
    have hdigit := isDigit_of_mem_toDigits c (Nat.toList_repr ▸ hc)
    rw [decide_eq_true_eq]
    rintro rfl
    exact absurd hdigit (by decide)
  rw [bytesText, String.toList_intercalate, List.map_map]
  induction bs with
  | nil => rfl
  | cons b bs ih =>
    cases bs with
    | nil => simpa using hdigits b
    | cons b' bs =>
      simp only [List.map_cons, List.intercalate_cons_cons, List.filter_append] at ih ⊢
      rw [ih, Function.comp_apply, hdigits]
      rfl

theorem bytes?_bytesText {bs : List UInt8} (h : bs ≠ []) :
    bytes? (bytesText bs).toList = some bs := by
  rw [bytes?, filter_bytesText, List.splitOn_intercalate _ _ (by simpa using h)]
  · clear h
    induction bs with
    | nil => rfl
    | cons b bs ih =>
      rw [List.map_cons, List.mapM_cons, byte?_toString, ih]
      rfl
  · intro part hpart hcomma
    obtain ⟨b, -, rfl⟩ := List.mem_map.mp hpart
    have hdigit := isDigit_of_mem_toDigits ',' (Nat.toList_repr ▸ hcomma)
    exact absurd hdigit (by decide)

theorem string?_stringBytes (s : String) : string? (stringBytes s) = some s := by
  have hlast : (stringBytes s).getLast? = some 0 := List.getLast?_concat
  have hbytes : (⟨(stringBytes s).dropLast.toArray⟩ : ByteArray) = s.toUTF8 := by
    rw [stringBytes, List.dropLast_concat]
  rw [string?, if_pos hlast, hbytes]
  exact dif_pos s.isValidUTF8

/-- A string is read from its line. -/
theorem readString?_str (i : Nat) (s : String) :
    readString? (Literal.str i s).line.text = some (i, s) := by
  rw [readString?, text_str, dataLine?_prefix, Option.bind_some]
  dsimp only
  rw [bytes?_bytesText (stringBytes_ne_nil s), Option.bind_some, string?_stringBytes, Option.map_some]

/-! ## The strings of a program -/

/-- The string in a literal, with the number of its node. -/
def Literal.str? : Literal → Option (Nat × String)
  | .int _ => none
  | .str i s => some (i, s)

/-- The strings that are run, in the order in which they are. -/
def Node.strings (t : Node Nat) : List (Nat × String) := t.literals.filterMap Literal.str?

def Piece.literals : Piece → List Literal
  | .node n => n.literals
  | .block body => Node.blockLiterals body
  | .args as => Node.argLiterals as

/-- The lines of strings. -/
def stringLines (ls : List Literal) : List Line :=
  (ls.filterMap Literal.str?).map fun (i, s) => (Literal.str i s).line

theorem stringLines_append (ls ms : List Literal) :
    stringLines (ls ++ ms) = stringLines ls ++ stringLines ms := by
  simp [stringLines]

namespace Assembly

/-- Does a line look like the line of a string? -/
def Line.isData (l : Line) : Bool := (dataLine? l.text).isSome

/-- The lines that look like lines of strings. -/
def dataLines (ls : List Line) : List Line := ls.filter Line.isData

section

variable {l : Line} {ls ms : List Line}

@[simp] theorem dataLines_nil : dataLines [] = [] := rfl

@[simp] theorem dataLines_append : dataLines (ls ++ ms) = dataLines ls ++ dataLines ms :=
  List.filter_append _ _

theorem isData_instr (i : Instr) : (Line.instr i).isData = false := by
  cases i <;> simp [Line.isData, dataLine?, Line.text, Instr.text, Instr.unary, Instr.binary]

@[simp] theorem dataLines_instr (i : Instr) : dataLines (.instr i :: ls) = dataLines ls :=
  List.filter_cons_of_neg (by rw [isData_instr]; exact Bool.false_ne_true)

@[simp] theorem dataLines_instrs (is : List Instr) : dataLines (is.map .instr) = [] := by
  induction is with
  | nil => rfl
  | cons i is ih => rw [List.map_cons, dataLines_instr, ih]

theorem dataLines_of_not (h : l.isData = false) : dataLines (l :: ls) = dataLines ls :=
  List.filter_cons_of_neg (by rw [h]; exact Bool.false_ne_true)

/-- No label in code has a number right behind `str_`. -/
theorem dataLines_label {s : Symbol} (hs : s.IsOwn) (htext : ∀ i, s ≠ .text i) :
    dataLines (.label s :: ls) = dataLines ls := by
  refine dataLines_of_not ?_
  rcases hs with ⟨i, hi⟩ | ⟨f, rfl⟩
  · cases s with
    | text j => exact absurd rfl (htext j)
    | fixed | routine | mainFrameSize => cases hi
    | _ => simp [Line.isData, dataLine?, Line.text, Symbol.name]
  · simp [Line.isData, dataLine?, Line.text, Symbol.name]

theorem isData_str (i : Nat) (s : String) : (Literal.str i s).line.isData = true := by
  rw [Line.isData, text_str, dataLine?_prefix]
  rfl

end

end Assembly

open Lowering

theorem dataLines_code (op : BinaryOp) : dataLines op.code = [] := by
  rcases op with op | op | _
  · exact dataLines_instrs op.code
  · simp [BinaryOp.code]
  · decide

theorem dataLines_stringCode (i : Nat) (s : String) :
    dataLines (stringCode i s) = stringLines [.str i s] := by
  have hcode : stringCode i s = .instr (.jmp (.textEnd i)) :: (Literal.str i s).line ::
      .label (.textEnd i) :: [.instr (.mov (.reg .eax) (.sym (.text i)))] := rfl
  rw [hcode, dataLines_instr, dataLines, List.filter_cons_of_pos (isData_str i s)]
  refine congrArg (List.cons _) ?_
  exact (dataLines_label (s := .textEnd i) (.inl ⟨i, rfl⟩) (by simp)).trans (dataLines_instr _)

theorem dataLines_enter (i : Nat) (f : String) : dataLines (enter i f) = [] := by
  rw [enter, dataLines_instr, dataLines_label (s := .routine f) (.inr ⟨f, rfl⟩) (by simp)]
  exact dataLines_instrs [_, _, _]

theorem dataLines_finish (i : Nat) (size : Word) : dataLines (finish i size) = [] := by
  have hequ : (Line.equ (.frameSize i) size.toInt).isData = false := by
    simp [Line.isData, dataLine?, Line.text, Symbol.name]
  rw [finish, List.cons_append, dataLines_instr, dataLines_append, dataLines_instrs,
    dataLines_of_not hequ, dataLines_label (s := .routineEnd i) (.inl ⟨i, rfl⟩) (by simp)]
  rfl

/-- The lines in the code of a piece that look like lines of strings are the lines of the strings
that are run. -/
theorem data_of_lowers {p t c t' v} (h : Lowers p t c t' v) :
    dataLines c = stringLines p.literals := by
  induction h with
  | var | declare => exact dataLines_instr _
  | int => exact dataLines_instr _
  | str => exact dataLines_stringCode _ _
  | binary _ _ _ ihr ihl =>
    simp [ihr, ihl, dataLines_code, Piece.literals, Node.literals, stringLines_append]
  | unary _ _ ih => simp [ih, Piece.literals, Node.literals]
  | read => exact dataLines_instrs _
  | call _ _ _ ih => simp [ih, Piece.literals, Node.literals]
  | assign _ _ ih => simp [ih, Piece.literals, Node.literals]
  | define _ _ _ ih => simp [ih, Piece.literals, Node.literals]
  | print _ ih => simp [ih, Piece.literals, Node.literals]
  | ret _ ih => simp [ih, Piece.literals, Node.literals]
  | @branch i _ _ _ _ _ _ _ _ _ _ _ _ _ _ _ _ ihc ihy ihn =>
    have helse {ls : List Line} : dataLines (.label (.branchElse i) :: ls) = dataLines ls :=
      dataLines_label (.inl ⟨i, rfl⟩) (by simp)
    have hend {ls : List Line} : dataLines (.label (.branchEnd i) :: ls) = dataLines ls :=
      dataLines_label (.inl ⟨i, rfl⟩) (by simp)
    simp [ihc, ihy, ihn, helse, hend, Piece.literals, Node.literals, stringLines_append]
  | @loop i _ _ _ _ _ _ _ _ _ _ _ ihc ih =>
    have hstart {ls : List Line} : dataLines (.label (.loopStart i) :: ls) = dataLines ls :=
      dataLines_label (.inl ⟨i, rfl⟩) (by simp)
    have hexit {ls : List Line} : dataLines (.label (.loopExit i) :: ls) = dataLines ls :=
      dataLines_label (.inl ⟨i, rfl⟩) (by simp)
    simp [ihc, ih, hstart, hexit, Piece.literals, Node.literals, stringLines_append]
  | function _ _ _ ih =>
    simp [ih, dataLines_enter, dataLines_finish, Piece.literals, Node.literals]
  | block _ ih => exact ih
  | skip | nil | noArgs => rfl
  | last hret _ ih => simp [ih, hret, Piece.literals, Node.blockLiterals]
  | cons hret _ _ ih ihrest =>
    simp [ih, ihrest, hret, Piece.literals, Node.blockLiterals, stringLines_append]
  | arg _ _ ihrest ih =>
    simp [ih, ihrest, Piece.literals, Node.argLiterals, stringLines_append]

theorem dataLines_body {root : Node Nat} {l : Listing} (h : generate root = .ok l) :
    dataLines l.body = root.strings.map fun (i, s) => (Literal.str i s).line := by
  obtain ⟨c, t, v, hc, hbody⟩ := lowers_of_generate h
  have hequ : (Line.equ .mainFrameSize t.scope.frameSize.toInt).isData = false := by
    simp [Line.isData, dataLine?, Line.text, Symbol.name]
  rw [hbody, dataLines_instr, dataLines_append, data_of_lowers hc, dataLines_of_not hequ]
  exact List.append_nil _

/-- No two strings are of one node. -/
theorem nodup_strings {root : Node Nat} {l : Listing} (h : generate root = .ok l)
    (hids : root.ids.Nodup) : (root.strings.map Prod.fst).Nodup := by
  obtain ⟨c, t, v, hc, -⟩ := lowers_of_generate h
  have hsub : List.Sublist ((dataLines c).filterMap Line.defines) (definitions c) :=
    List.filter_sublist.filterMap _
  have hdefined : (dataLines c).filterMap Line.defines =
      (root.strings.map Prod.fst).map Symbol.text := by
    rw [data_of_lowers hc, stringLines, List.filterMap_map, List.map_map, ← List.filterMap_eq_map]
    rfl
  have hnodup := (nodup_definitions hc hids).sublist hsub
  rw [hdefined] at hnodup
  exact hnodup.of_map _

/-- The line begins as the line of the string with the number does. -/
def beginsAs (i : Nat) (line : String) : Bool :=
  ("str_" ++ toString i ++ ": db ").toList <+: line.toList

theorem dataLine?_of_beginsAs {i : Nat} {line : String} (h : beginsAs i line = true) :
    ∃ data, dataLine? line = some (i, data) := by
  obtain ⟨data, hdata⟩ := of_decide_eq_true h
  have hline : line = "str_" ++ toString i ++ ": db " ++ String.ofList data :=
    String.toList_inj.mp (by rw [String.toList_append, String.toList_ofList, hdata])
  exact ⟨_, hline ▸ dataLine?_prefix i (String.ofList data)⟩

theorem beginsAs_str (i j : Nat) (s : String) :
    beginsAs i (Literal.str j s).line.text = decide (j = i) := by
  by_cases hij : j = i
  · subst hij
    rw [text_str, decide_eq_true rfl]
    exact decide_eq_true ⟨_, String.toList_append.symm⟩
  · rw [decide_eq_false hij, Bool.eq_false_iff]
    intro h
    obtain ⟨data, hdata⟩ := dataLine?_of_beginsAs h
    rw [text_str, dataLine?_prefix] at hdata
    cases hdata
    exact hij rfl

theorem filter_fst {ss : List (Nat × String)} (hnodup : (ss.map Prod.fst).Nodup) {i : Nat}
    {s : String} (h : (i, s) ∈ ss) : ss.filter (fun x => x.1 = i) = [(i, s)] := by
  induction ss with
  | nil => cases h
  | cons x ss ih =>
    rw [List.map_cons, List.nodup_cons] at hnodup
    rcases List.mem_cons.mp h with rfl | h
    · rw [List.filter_cons_of_pos (by simp), List.filter_eq_nil_iff.mpr]
      intro y hy hi
      exact hnodup.1 (List.mem_map.mpr ⟨y, hy, by simpa using hi⟩)
    · have hx : x.1 ≠ i := fun hx => hnodup.1 (hx ▸ List.mem_map_of_mem h)
      rw [List.filter_cons_of_neg (by simpa using hx), ih hnodup.2 h]

/-- A string that is run has exactly one line. -/
theorem filter_beginsAs {root : Node Nat} {l : Listing} (h : generate root = .ok l)
    (hids : root.ids.Nodup) {i : Nat} {s : String} (hs : (i, s) ∈ root.strings) :
    (l.body.map Line.text).filter (beginsAs i) =
      ["str_" ++ toString i ++ ": db " ++ bytesText (stringBytes s)] := by
  have hdata : l.body.filter (beginsAs i ∘ Line.text) =
      (dataLines l.body).filter (beginsAs i ∘ Line.text) := by
    rw [dataLines, List.filter_filter]
    refine List.filter_congr fun line _ => ?_
    cases hbegins : (beginsAs i ∘ Line.text) line with
    | false => rfl
    | true =>
      obtain ⟨data, hline⟩ := dataLine?_of_beginsAs hbegins
      simp [Line.isData, hline]
  have hone : (dataLines l.body).filter (beginsAs i ∘ Line.text) = [(Literal.str i s).line] := by
    rw [dataLines_body h, List.filter_map]
    have hfst : (beginsAs i ∘ Line.text) ∘ (fun (x : Nat × String) => (Literal.str x.1 x.2).line) =
        fun x => decide (x.1 = i) := funext fun x => beginsAs_str i x.1 x.2
    rw [hfst, filter_fst (nodup_strings h hids) hs]
    rfl
  rw [List.filter_map, hdata, hone, List.map_singleton, text_str]

/-! ## Other strings -/

namespace Node

variable (f : Nat → String → String)

mutual

/-- The tree with other strings. -/
def retext : Node Nat → Node Nat
  | .var i x => .var i x
  | .int i n => .int i n
  | .str i s => .str i (f i s)
  | .binary i op l r => .binary i op l.retext r.retext
  | .unary i op e => .unary i op e.retext
  | .read i => .read i
  | .call i g es => .call i g (retexts es)
  | .assign i x e => .assign i x e.retext
  | .declare i x => .declare i x
  | .define i x e => .define i x e.retext
  | .print i e => .print i e.retext
  | .ret i e => .ret i e.retext
  | .branch i c ys ns => .branch i c.retext (retexts ys) (retexts ns)
  | .loop i c es => .loop i c.retext (retexts es)
  | .function i g ps es => .function i g ps (retexts es)
  | .block i es => .block i (retexts es)
  | .skip i => .skip i

def retexts : List (Node Nat) → List (Node Nat)
  | [] => []
  | e :: es => e.retext :: retexts es

end

mutual

theorem alike_retext : ∀ t : Node Nat, Alike t (t.retext f)
  | .var _ _ => .var
  | .int _ _ => .int
  | .str _ _ => .str
  | .binary _ _ l r => .binary (alike_retext l) (alike_retext r)
  | .unary _ _ e => .unary (alike_retext e)
  | .read _ => .read
  | .call _ _ es => .call (allAlike_retexts es)
  | .assign _ _ e => .assign (alike_retext e)
  | .declare _ _ => .declare
  | .define _ _ e => .define (alike_retext e)
  | .print _ e => .print (alike_retext e)
  | .ret _ e => .ret (alike_retext e)
  | .branch _ c ys ns => .branch (alike_retext c) (allAlike_retexts ys) (allAlike_retexts ns)
  | .loop _ c es => .loop (alike_retext c) (allAlike_retexts es)
  | .function _ _ _ es => .function (allAlike_retexts es)
  | .block _ es => .block (allAlike_retexts es)
  | .skip _ => .skip

theorem allAlike_retexts : ∀ ts : List (Node Nat), AllAlike ts (retexts f ts)
  | [] => .nil
  | t :: ts => .cons (alike_retext t) (allAlike_retexts ts)

end

end Node

/-- The literal with another string. -/
def Literal.retext (f : Nat → String → String) : Literal → Literal
  | .int n => .int n
  | .str i s => .str i (f i s)

namespace Node

variable (f : Nat → String → String)

mutual

theorem literals_retext : ∀ t : Node Nat,
    (t.retext f).literals = t.literals.map (Literal.retext f)
  | .var _ _ | .int _ _ | .str _ _ | .read _ | .declare _ _ | .skip _ => rfl
  | .unary _ _ e | .assign _ _ e | .define _ _ e | .print _ e | .ret _ e => literals_retext e
  | .binary _ _ l r => by simp [retext, literals, literals_retext l, literals_retext r]
  | .call _ _ es => argLiterals_retexts es
  | .branch _ c ys ns => by
    simp [retext, literals, literals_retext c, blockLiterals_retexts ys, blockLiterals_retexts ns]
  | .loop _ c es => by simp [retext, literals, literals_retext c, blockLiterals_retexts es]
  | .function _ _ _ es | .block _ es => blockLiterals_retexts es

theorem blockLiterals_retexts : ∀ ts : List (Node Nat),
    blockLiterals (retexts f ts) = (blockLiterals ts).map (Literal.retext f)
  | [] => rfl
  | t :: ts => by
    have hreturn := (alike_retext f t).isReturn
    cases ht : t.isReturn with
    | true => simp [retexts, blockLiterals, ← hreturn, ht, literals_retext t]
    | false =>
      simp [retexts, blockLiterals, ← hreturn, ht, literals_retext t, blockLiterals_retexts ts]

theorem argLiterals_retexts : ∀ ts : List (Node Nat),
    argLiterals (retexts f ts) = (argLiterals ts).map (Literal.retext f)
  | [] => rfl
  | t :: ts => by simp [retexts, argLiterals, literals_retext t, argLiterals_retexts ts]

end

end Node

section

variable {α : Type} [DecidableEq α]

/-- Lists that differ only where `p` is true are the same elsewhere. -/
theorem filter_eq_of_differences {p : α → Bool} {as bs : List α} (hlength : as.length = bs.length)
    (h : ∀ x ∈ differences as bs, p x.1 = true ∧ p x.2 = true) :
    as.filter (fun a => !p a) = bs.filter (fun b => !p b) := by
  induction as generalizing bs with
  | nil => rw [List.eq_nil_of_length_eq_zero hlength.symm]
  | cons a as ih =>
    cases bs with
    | nil => cases hlength
    | cons b bs =>
      have hone : [a].length = [b].length := rfl
      have hcons : differences (a :: as) (b :: bs) = differences [a] [b] ++ differences as bs :=
        differences_append hone
      rw [hcons, List.forall_mem_append] at h
      have hrest := ih (Nat.succ_inj.mp hlength) h.2
      by_cases hab : a = b
      · rw [hab, List.filter_cons, List.filter_cons, hrest]
      · obtain ⟨ha, hb⟩ := h.1 (a, b) (by simp [differences, hab])
        simp [ha, hb, hrest]

theorem of_mem_differences_map {g : α → α} {as : List α} {a b : α}
    (h : (a, b) ∈ differences as (as.map g)) : a ≠ b ∧ b = g a := by
  have hzip : as.zip (as.map g) = as.map fun a => (a, g a) := by
    simpa using List.zip_map' (f := id) (g := g) (l := as)
  rw [differences, hzip, List.mem_filter, List.mem_map] at h
  obtain ⟨⟨a, -, heq⟩, hne⟩ := h
  cases heq
  exact ⟨of_decide_eq_true hne, rfl⟩

end

/-- Only the lines of strings depend on what strings say. -/
theorem generate_retext (f : Nat → String → String) {root : Node Nat} {l : Listing}
    (h : generate root = .ok l) : ∃ l', generate (root.retext f) = .ok l' ∧
      l'.body.filter (fun line => !line.isData) = l.body.filter (fun line => !line.isData) := by
  simp only [generate, generateWith] at h ⊢
  rcases agree_program (root.alike_retext f) ⟨.empty, .empty⟩ with
    ⟨e, hroot, -⟩ | ⟨_, _, hroot, htext, -, -, hcode⟩
  · rw [hroot] at h
    cases h
  · rw [hroot] at h
    cases h
    refine ⟨_, by rw [htext]; rfl, (filter_eq_of_differences hcode.length ?_).symm⟩
    intro x hx
    rw [hcode.lines, Node.literals_retext] at hx
    obtain ⟨⟨a, b⟩, hab, rfl⟩ := List.mem_map.mp hx
    obtain ⟨hne, rfl⟩ := of_mem_differences_map hab
    cases a with
    | int n => exact absurd rfl hne
    | str i s => exact ⟨isData_str i s, isData_str i (f i s)⟩

/-! ## The text -/

/-- What the text of a program's code is made of. -/
structure Contained (root : Node Nat) (l : Listing) (lines : List String) : Prop where
  /-- The code stands between the fixed parts of the listing. -/
  text : l.text = render head ++ (render l.body ++ render foot)
  /-- It is cut at its line ends into the lines, with nothing behind the last. -/
  split : (render l.body).toList.splitOn '\n' = lines.map String.toList ++ [[]]
  /-- Every line is a template with its places filled. -/
  templates : ∀ line ∈ lines, ∃ ps ∈ templates, Fits ps line
  /-- Read back from the lines, there are the strings that are run, in order, and no others. -/
  strings : lines.filterMap readString? = root.strings
  /-- Each has one line of its own. -/
  once : ∀ i s, (i, s) ∈ root.strings →
    lines.filter (beginsAs i) = ["str_" ++ toString i ++ ": db " ++ bytesText (stringBytes s)]
  /-- With other strings in the program, the other lines are the same. -/
  others : ∀ f, ∃ l', generate (root.retext f) = .ok l' ∧
    (l'.body.map Line.text).filter (fun line => (dataLine? line).isNone) =
      lines.filter (fun line => (dataLine? line).isNone)

theorem filter_text (ls : List Line) :
    (ls.map Line.text).filter (fun line => (dataLine? line).isNone) =
      (ls.filter (fun line => !line.isData)).map Line.text := by
  rw [List.filter_map]
  refine congrArg _ (List.filter_congr fun line _ => ?_)
  simp [Line.isData]

theorem filterMap_readString? (ls : List Line) :
    (ls.map Line.text).filterMap readString? =
      ((dataLines ls).map Line.text).filterMap readString? := by
  rw [List.filterMap_map, List.filterMap_map, dataLines, List.filterMap_filter]
  refine List.filterMap_congr fun line _ => ?_
  cases hdata : dataLine? line.text with
  | none => simp [readString?, hdata]
  | some data => simp [Line.isData, hdata]

/-- The text of a compiled program is made of fixed lines, with numbers, bytes and names of
functions in their places; every string that is run can be read from the one line that it has, and
shows nowhere else. -/
theorem contained_of_compile {source : String} {l : Listing} (h : compile source = .ok l) :
    ∃ root lines, (Source.parse source 0).1 = .ok root ∧ Contained root l lines := by
  obtain ⟨root, hroot, hl⟩ := compile_eq_ok.mp h
  have htemplated := templated_body hl (isName_of_parse hroot)
  have hids := nodup_ids_of_parse hroot
  refine ⟨root, l.body.map Line.text, hroot, ?_, ?_, ?_, ?_, fun i s => filter_beginsAs hl hids, ?_⟩
  · rw [Listing.text, Listing.lines, render_append, render_append, String.append_assoc]
  · rw [splitOn_render htemplated, List.map_map]
    rfl
  · intro line hline
    obtain ⟨l', hl', rfl⟩ := List.mem_map.mp hline
    exact htemplated l' hl'
  · have hread : (readString? ∘ Line.text) ∘ (fun x : Nat × String => (Literal.str x.1 x.2).line) =
        some := funext fun x => readString?_str x.1 x.2
    rw [filterMap_readString?, dataLines_body hl, List.filterMap_map, List.filterMap_map]
    exact hread ▸ List.filterMap_some
  · intro f
    obtain ⟨l', hl', hsame⟩ := generate_retext f hl
    exact ⟨l', hl', by rw [filter_text, filter_text, hsame]⟩

/-- A line end, what looks like a remark and an instruction, a zero, and a letter beyond ASCII. -/
def awkward : String := "\n; \nRET\x00é"

theorem contained_of_awkward : ∃ l lines,
    compile ("print(\"" ++ awkward ++ "\")") = .ok l ∧
      (Source.parse ("print(\"" ++ awkward ++ "\")") 0).1 =
        .ok (.block 2 [.print 1 (.str 0 awkward)]) ∧
      Contained (.block 2 [.print 1 (.str 0 awkward)]) l lines := by
  have hcompile : (compile ("print(\"" ++ awkward ++ "\")")).toBool = true := by decide +kernel
  have hparse : (Source.parse ("print(\"" ++ awkward ++ "\")") 0).1 =
      .ok (.block 2 [.print 1 (.str 0 awkward)]) := by decide +kernel
  obtain ⟨l, hl⟩ := ok_of_toBool hcompile
  obtain ⟨root, lines, hroot, hcontained⟩ := contained_of_compile hl
  rw [hparse] at hroot
  cases hroot
  exact ⟨l, lines, hl, hparse, hcontained⟩

/-- It is written down like this. -/
example : (Literal.str 0 awkward).line.text =
    "str_0: db 10, 59, 32, 10, 82, 69, 84, 0, 195, 169, 0" := by
  decide +kernel

end Onepass
