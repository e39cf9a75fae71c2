import Onepass.Proofs.Literals
import Onepass.Proofs.Lowers
import Onepass.Proofs.Printing
import Onepass.Proofs.Renaming

/-!
# Onepass.Proofs.Templates

The lines that code is made of, as text. There are finitely many `templates`, fixed texts with
places for a number, for bytes or for the name of a function, and a line of a program's code is
one of them with its places filled.

* `templated_of_lowers`  -- so it is for the code of every piece of a program.
* `newline_not_mem_text` -- what fits a template has no line end in it.
-/

namespace Onepass

open Assembly Lowering

/-- A piece of a line: a text, or a place for one. -/
inductive Part where
  | fixed (text : String)
  /-- A number in decimal. -/
  | number
  /-- Bytes in decimal, with commas between them. -/
  | bytes
  /-- The name of a function. -/
  | name
  deriving DecidableEq

/-- Bytes as they are written down. -/
def bytesText (bs : List UInt8) : String := ", ".intercalate (bs.map fun b => toString b.toNat)

/-- The bytes of a string, and a zero behind them. -/
def stringBytes (s : String) : List UInt8 := s.toUTF8.data.toList ++ [0]

theorem stringBytes_ne_nil (s : String) : stringBytes s ≠ [] := by
  simp [stringBytes]

/-- The text can stand for the part. -/
inductive Part.Fits : Part → String → Prop where
  | fixed {s} : Fits (.fixed s) s
  | number (n : Int) : Fits .number (toString n)
  | bytes {bs} : bs ≠ [] → Fits .bytes (bytesText bs)
  | name {x} : x ≠ "" → (∀ c ∈ x.toList, isNamePart c = true) → Fits .name x

theorem Part.Fits.nat (n : Nat) : Part.number.Fits (toString n) := .number n

theorem Part.Fits.of_isName {x : String} (h : isName x = true) : Part.name.Fits x := by
  simp only [isName, Bool.and_eq_true] at h
  obtain ⟨⟨hfirst, hall⟩, -⟩ := h
  refine .name ?_ (List.all_eq_true.mp hall)
  rintro rfl
  simp at hfirst

/-- The text is one for each part, in order. -/
inductive Fits : List Part → String → Prop where
  | nil : Fits [] ""
  | cons {p ps s rest} : p.Fits s → Fits ps rest → Fits (p :: ps) (s ++ rest)

/-- The lines without a place. -/
def fixedTexts : List String :=
  ["PUSH EAX", "POP EBX", "PUSH EBP", "POP EBP", "MOV EBP, ESP", "MOV ESP, EBP", "RET",
   "ADD EAX, EBX", "SUB EAX, EBX", "IMUL EBX", "CDQ", "IDIV EBX", "AND EAX, EBX", "OR EAX, EBX",
   "CMP EAX, EBX", "CALL binop_je", "CALL binop_jg", "CALL binop_jl",
   "; .. (concatenation is resolved at compile time only)",
   "NEG EAX", "CMP EAX, False",
   "PUSH scanint", "PUSH formatin", "CALL scanf", "MOV EAX, DWORD [scanint]",
   "PUSH formatout", "CALL printf",
   "SUB ESP, frame_size_main"]

/-- The lines with places. -/
def openTemplates : List (List Part) :=
  [[.fixed "MOV EAX, ", .number],
   [.fixed "ADD ESP, ", .number],
   [.fixed "MOV EAX, DWORD [EBP-", .number, .fixed "]"],
   [.fixed "MOV EAX, DWORD [EBP+", .number, .fixed "]"],
   [.fixed "MOV DWORD [EBP-", .number, .fixed "], EAX"],
   [.fixed "MOV DWORD [EBP+", .number, .fixed "], EAX"],
   [.fixed "MOV DWORD [EBP-", .number, .fixed "], 0"],
   [.fixed "MOV DWORD [EBP+", .number, .fixed "], 0"],
   [.fixed "JMP str_end_", .number],
   [.fixed "str_", .number, .fixed ": db ", .bytes],
   [.fixed "str_end_", .number, .fixed ":"],
   [.fixed "MOV EAX, str_", .number],
   [.fixed "JE if_else_", .number],
   [.fixed "JMP if_end_", .number],
   [.fixed "if_else_", .number, .fixed ":"],
   [.fixed "if_end_", .number, .fixed ":"],
   [.fixed "while_loop_", .number, .fixed ":"],
   [.fixed "JE while_exit_", .number],
   [.fixed "JMP while_loop_", .number],
   [.fixed "while_exit_", .number, .fixed ":"],
   [.fixed "CALL func_", .name],
   [.fixed "func_", .name, .fixed ":"],
   [.fixed "JMP skip_func_", .number],
   [.fixed "skip_func_", .number, .fixed ":"],
   [.fixed "SUB ESP, frame_size_", .number],
   [.fixed "frame_size_", .number, .fixed " equ ", .number],
   [.fixed "frame_size_main equ ", .number]]

def templates : List (List Part) := fixedTexts.map (fun s => [.fixed s]) ++ openTemplates

/-- A line that fits a template. -/
def Templated (l : Line) : Prop := ∃ ps ∈ templates, Fits ps l.text

namespace Fits

theorem text (s : String) : Fits [.fixed s] s := by
  have h : Fits [.fixed s] (s ++ "") := .cons .fixed .nil
  rwa [String.append_empty] at h

theorem last {p : Part} {s : String} (h : p.Fits s) (a : String) : Fits [.fixed a, p] (a ++ s) := by
  have h : Fits [.fixed a, p] (a ++ (s ++ "")) := .cons .fixed (.cons h .nil)
  rwa [String.append_empty] at h

theorem inside {p : Part} {s : String} (h : p.Fits s) (a b : String) :
    Fits [.fixed a, p, .fixed b] (a ++ (s ++ b)) :=
  .cons .fixed (.cons h (text b))

end Fits

theorem address_eq (offset : Word) : ∃ n : Int,
    address offset = "[EBP-" ++ toString n ++ "]" ∨
      address offset = "[EBP+" ++ toString n ++ "]" := by
  unfold address
  split
  · exact ⟨_, .inr rfl⟩
  · exact ⟨_, .inl rfl⟩

namespace Templated

variable {l : Line} {a b s : String} {p : Part}

theorem fixed (h : l.text ∈ fixedTexts) : Templated l :=
  ⟨_, List.mem_append_left _ (List.mem_map_of_mem h), .text _⟩

theorem last (h : [.fixed a, p] ∈ openTemplates) (hs : p.Fits s)
    (hl : l.text.toList = a.toList ++ s.toList) : Templated l := by
  have hl : l.text = a ++ s := String.toList_inj.mp (by rw [hl, String.toList_append])
  exact ⟨_, List.mem_append_right _ h, hl ▸ Fits.last hs a⟩

theorem inside (h : [.fixed a, p, .fixed b] ∈ openTemplates) (hs : p.Fits s)
    (hl : l.text.toList = a.toList ++ (s.toList ++ b.toList)) : Templated l := by
  have hl : l.text = a ++ (s ++ b) :=
    String.toList_inj.mp (by rw [hl, String.toList_append, String.toList_append])
  exact ⟨_, List.mem_append_right _ h, hl ▸ Fits.inside hs a b⟩

/-- The place of a variable lies below the base of the frame or above it. -/
theorem slot (offset : Word) (hbelow : [.fixed (a ++ "[EBP-"), .number, .fixed ("]" ++ b)] ∈
    openTemplates) (habove : [.fixed (a ++ "[EBP+"), .number, .fixed ("]" ++ b)] ∈ openTemplates)
    (hl : l.text.toList = a.toList ++ ((address offset).toList ++ b.toList)) : Templated l := by
  obtain ⟨n, h | h⟩ := address_eq offset
  · exact .inside hbelow (.number n) (by simp [hl, h])
  · exact .inside habove (.number n) (by simp [hl, h])

end Templated

/-- The lines of one statement or operator, all of which fit. -/
def AllTemplated (ls : List Line) : Prop := ∀ l ∈ ls, Templated l

namespace AllTemplated

variable {l : Line} {ls ms : List Line}

theorem nil : AllTemplated [] := nofun

theorem cons (h : Templated l) (hs : AllTemplated ls) : AllTemplated (l :: ls) :=
  List.forall_mem_cons.mpr ⟨h, hs⟩

theorem append (h : AllTemplated ls) (h' : AllTemplated ms) : AllTemplated (ls ++ ms) :=
  List.forall_mem_append.mpr ⟨h, h'⟩

theorem single (h : Templated l) : AllTemplated [l] := .cons h .nil

theorem fixed (h : ∀ l ∈ ls, l.text ∈ fixedTexts) : AllTemplated ls := fun l hl => .fixed (h l hl)

end AllTemplated

section

attribute [local simp] Line.text Instr.text Instr.unary Instr.binary Operand.text Reg.name
  Symbol.name

/-! Lines with one place. -/

theorem templated_imm (n : Int) : Templated (.instr (.mov (.reg .eax) (.imm n))) :=
  .last (a := "MOV EAX, ") (by decide) (.number n) (by simp)

theorem templated_drop (n : Int) : Templated (.instr (.add (.reg .esp) (.imm n))) :=
  .last (a := "ADD ESP, ") (by decide) (.number n) (by simp)

theorem templated_load (offset : Word) :
    Templated (.instr (.mov (.reg .eax) (.slot offset))) :=
  .slot offset (a := "MOV EAX, DWORD ") (b := "") (by decide) (by decide) (by simp)

theorem templated_store (offset : Word) :
    Templated (.instr (.mov (.slot offset) (.reg .eax))) :=
  .slot offset (a := "MOV DWORD ") (b := ", EAX") (by decide) (by decide) (by simp)

theorem templated_clear (offset : Word) : Templated (.instr (.mov (.slot offset) (.imm 0))) := by
  have hzero : (Int.repr 0).toList = ['0'] := by decide
  exact .slot offset (a := "MOV DWORD ") (b := ", 0") (by decide) (by decide) (by simp [hzero])

/-- The line of a string. -/
theorem text_str (i : Nat) (s : String) : (Literal.str i s).line.text =
    "str_" ++ toString i ++ ": db " ++ bytesText (stringBytes s) := by
  have hitems : (s.toUTF8.data.toList.map (fun b => Datum.byte b.toNat) ++ [Datum.byte 0]).map
      Datum.text = (stringBytes s).map fun b => toString b.toNat := by
    rw [stringBytes, List.map_append, List.map_append, List.map_map]
    rfl
  rw [Literal.line, Line.text, hitems]
  rfl

theorem templated_stringCode (i : Nat) (s : String) : AllTemplated (stringCode i s) := by
  have hjmp : Templated (.instr (.jmp (.textEnd i))) :=
    .last (a := "JMP str_end_") (by decide) (.nat i) (by simp)
  have hdata : Templated (Literal.str i s).line := by
    have hfits : Fits [.fixed "str_", .number, .fixed ": db ", .bytes]
        ("str_" ++ (toString i ++ (": db " ++ bytesText (stringBytes s)))) :=
      .cons .fixed (.cons (.nat i) (.last (.bytes (stringBytes_ne_nil s)) _))
    refine ⟨[.fixed "str_", .number, .fixed ": db ", .bytes],
      List.mem_append_right _ (by decide), ?_⟩
    rwa [text_str, String.append_assoc, String.append_assoc]
  have hend : Templated (.label (.textEnd i)) :=
    .inside (a := "str_end_") (b := ":") (by decide) (.nat i) (by simp)
  have haddress : Templated (.instr (.mov (.reg .eax) (.sym (.text i)))) :=
    .last (a := "MOV EAX, str_") (by decide) (.nat i) (by simp)
  exact .cons hjmp (.cons hdata (.cons hend (.single haddress)))

theorem templated_callCode {f : String} (hf : isName f = true) (n : Nat) :
    AllTemplated ((callCode f n).map .instr) := by
  have hcall : Templated (.instr (.call (.routine f))) :=
    .last (a := "CALL func_") (by decide) (.of_isName hf) (by simp)
  unfold callCode
  split
  · exact .single hcall
  · exact .cons hcall (.single (templated_drop _))

theorem templated_enter {f : String} (hf : isName f = true) (i : Nat) :
    AllTemplated (enter i f) := by
  have hjmp : Templated (.instr (.jmp (.routineEnd i))) :=
    .last (a := "JMP skip_func_") (by decide) (.nat i) (by simp)
  have hlabel : Templated (.label (.routine f)) :=
    .inside (a := "func_") (b := ":") (by decide) (.of_isName hf) (by simp)
  have hsub : Templated (.instr (.sub (.reg .esp) (.sym (.frameSize i)))) :=
    .last (a := "SUB ESP, frame_size_") (by decide) (.nat i) (by simp)
  exact .cons hjmp (.cons hlabel (.cons (.fixed (by decide)) (.cons (.fixed (by decide))
    (.single hsub))))

theorem templated_finish (i : Nat) (size : Word) : AllTemplated (finish i size) := by
  have hequ : Templated (.equ (.frameSize i) size.toInt) := by
    have hfits : Fits [.fixed "frame_size_", .number, .fixed " equ ", .number]
        ("frame_size_" ++ (toString i ++ (" equ " ++ toString size.toInt))) :=
      .cons .fixed (.cons (.nat i) (.last (.number _) _))
    refine ⟨[.fixed "frame_size_", .number, .fixed " equ ", .number],
      List.mem_append_right _ (by decide), ?_⟩
    rwa [Line.text, Symbol.name, String.append_assoc, String.append_assoc]
  have hlabel : Templated (.label (.routineEnd i)) :=
    .inside (a := "skip_func_") (b := ":") (by decide) (.nat i) (by simp)
  exact .cons (templated_imm 0) (.append (.fixed (by decide)) (.cons hequ (.single hlabel)))

/-- The lines of a branch around its condition and its blocks. -/
theorem templated_branch {c₁ c₂ : List Line} (h₁ : AllTemplated c₁) (h₂ : AllTemplated c₂)
    (i : Nat) :
    AllTemplated ((jumpIfFalse (.branchElse i)).map .instr ++
      (c₁ ++ .instr (.jmp (.branchEnd i)) :: .label (.branchElse i) ::
        (c₂ ++ [.label (.branchEnd i)]))) := by
  have helse : Templated (.instr (.je (.branchElse i))) :=
    .last (a := "JE if_else_") (by decide) (.nat i) (by simp)
  have hjmp : Templated (.instr (.jmp (.branchEnd i))) :=
    .last (a := "JMP if_end_") (by decide) (.nat i) (by simp)
  have hlabel : Templated (.label (.branchElse i)) :=
    .inside (a := "if_else_") (b := ":") (by decide) (.nat i) (by simp)
  have hend : Templated (.label (.branchEnd i)) :=
    .inside (a := "if_end_") (b := ":") (by decide) (.nat i) (by simp)
  have htest : AllTemplated ((jumpIfFalse (.branchElse i)).map .instr) :=
    .cons (.fixed (by decide)) (.single helse)
  exact htest.append (h₁.append (.cons hjmp (.cons hlabel (h₂.append (.single hend)))))

/-- The lines of a loop around its condition and its block. -/
theorem templated_loop {c c₁ : List Line} (h : AllTemplated c) (h₁ : AllTemplated c₁) (i : Nat) :
    AllTemplated (.label (.loopStart i) :: (c ++ ((jumpIfFalse (.loopExit i)).map .instr ++
      (c₁ ++ [.instr (.jmp (.loopStart i)), .label (.loopExit i)])))) := by
  have hstart : Templated (.label (.loopStart i)) :=
    .inside (a := "while_loop_") (b := ":") (by decide) (.nat i) (by simp)
  have hexit : Templated (.instr (.je (.loopExit i))) :=
    .last (a := "JE while_exit_") (by decide) (.nat i) (by simp)
  have hjmp : Templated (.instr (.jmp (.loopStart i))) :=
    .last (a := "JMP while_loop_") (by decide) (.nat i) (by simp)
  have hlabel : Templated (.label (.loopExit i)) :=
    .inside (a := "while_exit_") (b := ":") (by decide) (.nat i) (by simp)
  have htest : AllTemplated ((jumpIfFalse (.loopExit i)).map .instr) :=
    .cons (.fixed (by decide)) (.single hexit)
  exact .cons hstart (h.append (htest.append (h₁.append (.cons hjmp (.single hlabel)))))

end

theorem templated_readCode : AllTemplated (readCode.map .instr) :=
  .cons (.fixed (by decide)) (.cons (.fixed (by decide)) (.cons (.fixed (by decide))
    (.cons (templated_drop 8) (.single (.fixed (by decide))))))

theorem templated_printCode : AllTemplated (printCode.map .instr) :=
  .cons (.fixed (by decide)) (.cons (.fixed (by decide)) (.cons (.fixed (by decide))
    (.single (templated_drop 8))))

theorem templated_code (op : BinaryOp) : AllTemplated op.code := by
  refine .fixed ?_
  rcases op with op | op | _
  · cases op <;> decide
  · cases op <;> decide
  · decide

theorem templated_unaryCode (op : UnaryOp) : AllTemplated (op.code.map .instr) := by
  refine .fixed ?_
  cases op <;> decide

/-! ## The code of a program -/

/-- The names of the functions that are declared or called. -/
def Piece.functionNames : Piece → List String
  | .node n => n.functionNames
  | .block body => Node.blockFunctionNames body
  | .args as => Node.blockFunctionNames as

/-- The code of a piece whose functions have names is made of lines that fit. -/
theorem templated_of_lowers {p t c t' v} (h : Lowers p t c t' v)
    (hf : ∀ f ∈ p.functionNames, isName f = true) : AllTemplated c := by
  induction h with
  | var => exact .single (templated_load _)
  | int => exact .single (templated_imm _)
  | str => exact templated_stringCode _ _
  | binary _ _ _ ihr ihl =>
    simp only [Piece.functionNames, Node.functionNames, List.forall_mem_append] at hf
    exact (ihr hf.2).append (.cons (.fixed (by decide)) ((ihl hf.1).append
      (.cons (.fixed (by decide)) (templated_code _))))
  | unary _ _ ih => exact (ih hf).append (templated_unaryCode _)
  | read => exact templated_readCode
  | call _ _ _ ih =>
    simp only [Piece.functionNames, Node.functionNames, List.forall_mem_cons] at hf
    exact (ih hf.2).append (templated_callCode hf.1 _)
  | assign _ _ ih => exact (ih hf).append (.single (templated_store _))
  | declare => exact .single (templated_clear _)
  | define _ _ _ ih =>
    exact .cons (templated_clear _) ((ih hf).append (.single (templated_store _)))
  | print _ ih => exact (ih hf).append templated_printCode
  | ret _ ih => exact (ih hf).append (.fixed (by decide))
  | branch _ _ _ ihc ihy ihn =>
    simp only [Piece.functionNames, Node.functionNames, List.forall_mem_append] at hf
    exact (ihc hf.1).append (templated_branch (ihy hf.2.1) (ihn hf.2.2) _)
  | loop _ _ ihc ih =>
    simp only [Piece.functionNames, Node.functionNames, List.forall_mem_append] at hf
    exact templated_loop (ihc hf.1) (ih hf.2) _
  | function _ _ _ ih =>
    simp only [Piece.functionNames, Node.functionNames, List.forall_mem_cons] at hf
    exact (templated_enter hf.1 _).append ((ih hf.2).append (templated_finish _ _))
  | block _ ih => exact ih hf
  | skip | nil | noArgs => exact .nil
  | last _ _ ih =>
    simp only [Piece.functionNames, Node.blockFunctionNames, List.forall_mem_append] at hf
    exact ih hf.1
  | cons _ _ _ ih ihrest =>
    simp only [Piece.functionNames, Node.blockFunctionNames, List.forall_mem_append] at hf
    exact (ih hf.1).append (ihrest hf.2)
  | arg _ _ ihrest ih =>
    simp only [Piece.functionNames, Node.blockFunctionNames, List.forall_mem_append] at hf
    exact (ihrest hf.2).append ((ih hf.1).append (.single (.fixed (by decide))))

theorem templated_body {root : Node Nat} {l : Listing} (h : generate root = .ok l)
    (hf : ∀ f ∈ root.functionNames, isName f = true) : AllTemplated l.body := by
  obtain ⟨c, t, v, hc, hbody⟩ := lowers_of_generate h
  have hlast : Templated (.equ .mainFrameSize t.scope.frameSize.toInt) := by
    refine .last (a := "frame_size_main equ ") (by decide) (.number t.scope.frameSize.toInt) ?_
    simp [Line.text, Symbol.name]
  rw [hbody]
  exact .cons (.fixed (by decide)) ((templated_of_lowers hc hf).append (.single hlast))

namespace Node

variable {ι : Type}

mutual

theorem isName_of_isLegible : ∀ e : Node ι, e.erase.isLegible = true →
    ∀ f ∈ e.functionNames, isName f = true
  | .var _ _, _ | .int _ _, _ | .str _ _, _ | .read _, _ => nofun
  | .unary _ _ e, h => isName_of_isLegible e h
  | .binary _ _ l r, h => by
    simp only [erase, isLegible, Bool.and_eq_true] at h
    exact List.forall_mem_append.mpr ⟨isName_of_isLegible l h.1, isName_of_isLegible r h.2⟩
  | .call _ f es, h => by
    simp only [erase, isLegible, Bool.and_eq_true] at h
    exact List.forall_mem_cons.mpr ⟨h.1, isName_of_areLegible es h.2⟩

theorem isName_of_areLegible : ∀ es : List (Node ι), areLegible (erases es) = true →
    ∀ f ∈ blockFunctionNames es, isName f = true
  | [], _ => nofun
  | e :: es, h => by
    simp only [erases, areLegible, Bool.and_eq_true] at h
    exact List.forall_mem_append.mpr ⟨isName_of_isLegible e h.1, isName_of_areLegible es h.2⟩

end

mutual

theorem isName_of_isLine (b : Bool) : ∀ s : Node ι, s.erase.isLine b = true →
    ∀ f ∈ s.functionNames, isName f = true
  | .declare _ _, _ | .skip _, _ => nofun
  | .assign _ _ e, h | .define _ _ e, h | .ret _ e, h => by
    simp only [erase, isLine, Bool.and_eq_true] at h
    exact isName_of_isLegible e h.2
  | .print _ e, h => isName_of_isLegible e h
  | .call _ f es, h => by
    simp only [erase, isLine, Bool.and_eq_true] at h
    exact List.forall_mem_cons.mpr ⟨h.1, isName_of_areLegible es h.2⟩
  | .branch _ c ys ns, h => by
    simp only [erase, isLine, Bool.and_eq_true] at h
    exact List.forall_mem_append.mpr ⟨isName_of_isLegible c h.1.1,
      List.forall_mem_append.mpr ⟨isName_of_areLines b ys h.1.2, isName_of_areLines b ns h.2⟩⟩
  | .loop _ c es, h => by
    simp only [erase, isLine, Bool.and_eq_true] at h
    exact List.forall_mem_append.mpr ⟨isName_of_isLegible c h.1, isName_of_areLines b es h.2⟩
  | .function _ f _ es, h => by
    simp only [erase, isLine, Bool.and_eq_true] at h
    exact List.forall_mem_cons.mpr ⟨h.1.1, isName_of_areLines true es h.2⟩

theorem isName_of_areLines (b : Bool) : ∀ ss : List (Node ι), areLines b (erases ss) = true →
    ∀ f ∈ blockFunctionNames ss, isName f = true
  | [], _ => nofun
  | s :: ss, h => by
    simp only [erases, areLines, Bool.and_eq_true] at h
    exact List.forall_mem_append.mpr ⟨isName_of_isLine b s h.1, isName_of_areLines b ss h.2⟩

end

end Node

/-- The functions of a program that was read have names. -/
theorem isName_of_parse {source : String} {first : Nat} {root : Node Nat}
    (h : (Source.parse source first).1 = .ok root) :
    ∀ f ∈ root.functionNames, isName f = true := by
  have hprogram := isProgram_of_parse h
  cases root with
  | block _ body => exact Node.isName_of_areLines false body hprogram
  | _ => cases hprogram

/-! ## Line ends -/

theorem mem_intercalate {c : Char} {sep : List Char} {parts : List (List Char)}
    (h : c ∈ sep.intercalate parts) : c ∈ sep ∨ ∃ part ∈ parts, c ∈ part := by
  induction parts with
  | nil => simp at h
  | cons part parts ih =>
    cases parts with
    | nil =>
      rw [List.intercalate_singleton] at h
      exact .inr ⟨part, by simp, h⟩
    | cons next parts =>
      rw [List.intercalate_cons_cons, List.mem_append, List.mem_append] at h
      rcases h with (h | h) | h
      · exact .inr ⟨part, by simp, h⟩
      · exact .inl h
      · rcases ih h with h | ⟨other, hother, h⟩
        · exact .inl h
        · exact .inr ⟨other, List.mem_cons_of_mem _ hother, h⟩

theorem newline_not_mem_toString (n : Nat) : '\n' ∉ (toString n).toList := by
  intro h
  have hdigit := isDigit_of_mem_toDigits _ (Nat.toList_repr ▸ h)
  exact absurd hdigit (by decide)

/-- The template has no line end in the part. -/
def Part.onLine : Part → Bool
  | .fixed a => !a.toList.contains '\n'
  | _ => true

theorem Part.Fits.newline_not_mem {p : Part} {s : String} (h : p.Fits s) (hp : p.onLine = true) :
    '\n' ∉ s.toList := by
  cases h with
  | fixed => simpa [onLine] using hp
  | number n =>
    cases n with
    | ofNat n => exact newline_not_mem_toString n
    | negSucc n =>
      change '\n' ∉ ("-" ++ toString (n + 1)).toList
      rw [String.toList_append, List.mem_append]
      exact not_or.mpr ⟨by decide, newline_not_mem_toString (n + 1)⟩
  | bytes =>
    rw [bytesText, String.toList_intercalate]
    intro h
    rcases mem_intercalate h with h | ⟨part, hpart, h⟩
    · exact absurd h (by decide)
    · simp only [List.map_map, List.mem_map, Function.comp_apply] at hpart
      obtain ⟨b, -, rfl⟩ := hpart
      exact newline_not_mem_toString b.toNat h
  | name _ hall => exact fun h => absurd (hall _ h) (by decide)

theorem onLine_templates : ∀ ps ∈ templates, ∀ p ∈ ps, p.onLine = true := by
  decide +kernel

theorem Fits.newline_not_mem {ps : List Part} {s : String} (h : Fits ps s)
    (hps : ∀ p ∈ ps, p.onLine = true) : '\n' ∉ s.toList := by
  induction h with
  | nil => simp
  | cons hp _ ih =>
    rw [List.forall_mem_cons] at hps
    rw [String.toList_append, List.mem_append]
    exact not_or.mpr ⟨hp.newline_not_mem hps.1, ih hps.2⟩

/-- What fits a template stays on its line. -/
theorem newline_not_mem_text {l : Line} (h : Templated l) : '\n' ∉ l.text.toList := by
  obtain ⟨ps, hps, hfits⟩ := h
  exact hfits.newline_not_mem (onLine_templates ps hps)

/-- So the lines of a text can be told apart. -/
theorem splitOn_render {ls : List Line} (h : AllTemplated ls) :
    (render ls).toList.splitOn '\n' = ls.map (·.text.toList) ++ [[]] := by
  have hrender : (render ls).toList = ['\n'].intercalate (ls.map (·.text.toList) ++ [[]]) := by
    clear h
    induction ls with
    | nil => simp
    | cons l ls ih =>
      have hne : ls.map (·.text.toList) ++ [[]] ≠ [] := by simp
      obtain ⟨next, rest, hnext⟩ := List.exists_cons_of_ne_nil hne
      rw [render_cons, String.toList_append, String.toList_append, ih, List.map_cons,
        List.cons_append, hnext, List.intercalate_cons_cons]
      rfl
  rw [hrender]
  refine List.splitOn_intercalate _ (fun part hpart => ?_) (by simp)
  rcases List.mem_append.mp hpart with hpart | hpart
  · obtain ⟨l, hl, rfl⟩ := List.mem_map.mp hpart
    exact newline_not_mem_text (h l hl)
  · rw [List.mem_singleton.mp hpart]
    exact List.not_mem_nil

end Onepass
