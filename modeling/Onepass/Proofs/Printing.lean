import Onepass.Proofs.Spelling

/-!
# Onepass.Proofs.Printing

Trees as text. `text` writes a program, each statement on a line of its own and each operand in
parentheses, and what is written is read as the tree that it came from.

* `isLegible`, `isLine`, `isProgram` -- the trees that there is a text for.
* `derives_lexemes`, `derives_lines` -- what is written is in the grammar.
* `isProgram_of_parse` -- there is a text for every program that was read.
* `parse_text` -- reading undoes writing, numbers aside.
-/

namespace Onepass

@[simp] theorem BinaryOp.mark_ne_eof (op : BinaryOp) : op.mark ≠ .eof := by
  rcases op with op | op | _
  · cases op <;> decide
  · cases op <;> decide
  · decide

@[simp] theorem UnaryOp.mark_ne_eof (op : UnaryOp) : op.mark ≠ .eof := by
  cases op <;> decide

namespace Node

variable {ι : Type}

mutual

/-- An expression with a text: names that can be used, numbers from 0 on, strings without
quotation marks. -/
def isLegible : Node ι → Bool
  | .var _ x => isName x
  | .int _ n => 0 ≤ n.toInt
  | .str _ s => !s.toList.contains '"'
  | .read _ => true
  | .unary _ _ e => e.isLegible
  | .binary _ _ l r => l.isLegible && r.isLegible
  | .call _ f as => isName f && areLegible as
  | _ => false

def areLegible : List (Node ι) → Bool
  | [] => true
  | e :: es => e.isLegible && areLegible es

end

mutual

/-- A statement with a text, in a function or at the top level. -/
def isLine (inFunction : Bool) : Node ι → Bool
  | .assign _ x e | .define _ x e => isName x && e.isLegible
  | .declare _ x => isName x
  | .call _ f as => isName f && areLegible as
  | .print _ e => e.isLegible
  | .ret _ e => inFunction && e.isLegible
  | .branch _ c ys ns => c.isLegible && areLines inFunction ys && areLines inFunction ns
  | .loop _ c body => c.isLegible && areLines inFunction body
  | .function _ f ps body => isName f && ps.all isName && areLines true body
  | .skip _ => true
  | _ => false

def areLines (inFunction : Bool) : List (Node ι) → Bool
  | [] => true
  | s :: rest => s.isLine inFunction && areLines inFunction rest

end

/-- A program with a text. -/
def isProgram : Node ι → Bool
  | .block _ body => areLines false body
  | _ => false

/-- Lexemes in parentheses. -/
def parens (ls : List Lexeme) : List Lexeme := .mark .openParen :: (ls ++ [.mark .closeParen])

mutual

/-- The lexemes of an expression or a statement. Operands are in parentheses; what closes a
statement's line is not among them. -/
def lexemes : Node ι → List Lexeme
  | .var _ x => [.ident x]
  | .int _ n => [.int n]
  | .str _ s => [.string s]
  | .read _ => .mark .kRead :: parens []
  | .unary _ op e => .mark op.mark :: parens e.lexemes
  | .binary _ op l r => parens l.lexemes ++ .mark op.mark :: parens r.lexemes
  | .call _ f as => .ident f :: parens (list as)
  | .assign _ x e => .ident x :: .mark .assign :: e.lexemes
  | .declare _ x => [.mark .kLocal, .ident x]
  | .define _ x e => .mark .kLocal :: .ident x :: .mark .assign :: e.lexemes
  | .print _ e => .mark .kPrint :: parens e.lexemes
  | .ret _ e => .mark .kReturn :: e.lexemes
  | .branch _ c ys [] =>
    .mark .kIf :: (c.lexemes ++ .mark .kThen :: .mark .newline :: (lines ys ++ [.mark .kEnd]))
  | .branch _ c ys (n :: ns) =>
    .mark .kIf :: (c.lexemes ++ .mark .kThen :: .mark .newline :: (lines ys ++
      .mark .kElse :: .mark .newline :: (lines (n :: ns) ++ [.mark .kEnd])))
  | .loop _ c body =>
    .mark .kWhile :: (c.lexemes ++ .mark .kDo :: .mark .newline :: (lines body ++ [.mark .kEnd]))
  | .function _ f ps body =>
    .mark .kFunction :: .ident f :: .mark .openParen :: (Lexeme.names ps ++
      .mark .closeParen :: .mark .newline :: (lines body ++ [.mark .kEnd]))
  | .block _ body => lines body
  | .skip _ => []

/-- Expressions with commas between them. -/
def list : List (Node ι) → List Lexeme
  | [] => []
  | e :: es => e.lexemes ++ listRest es

def listRest : List (Node ι) → List Lexeme
  | [] => []
  | e :: es => .mark .comma :: (e.lexemes ++ listRest es)

/-- Statements, each with the end of its line. -/
def lines : List (Node ι) → List Lexeme
  | [] => []
  | s :: rest => s.lexemes ++ .mark .newline :: lines rest

end

/-- The text of a program. -/
def text (t : Node ι) : String := String.ofList (Lexeme.render t.lexemes)

mutual

/-- The grammar derives what is written, an operand by its parentheses. -/
theorem derives_lexemes : ∀ e : Node ι, e.isLegible = true →
    Derives (.expression e.erase) e.lexemes
  | .var _ _, _ => Derives.var.operation (by decide)
  | .int _ _, _ => Derives.int.operation (by decide)
  | .str _ _, _ => Derives.str.operation (by decide)
  | .read _, _ => Derives.read.operation (by decide)
  | .unary _ op e, h => by
    have he := (derives_lexemes e h).group
    exact (Derives.unary he).operation (by decide)
  | .binary i op l r, h => by
    simp only [isLegible, Bool.and_eq_true] at h
    have hl := (derives_lexemes l h.1).group
    have hr := (derives_lexemes r h.2).group
    have hlevel := op.level_le
    have hop : Derives (.operation op.level (binary i op l r).erase) (binary i op l r).lexemes :=
      .binary rfl (hl.operation (by omega)) (hr.operation (by omega))
    exact hop.looser op.level_pos
  | .call _ f as, h => by
    simp only [isLegible, Bool.and_eq_true] at h
    exact (derives_arguments as h.2).call.operation (by decide)

theorem derives_arguments : ∀ es : List (Node ι), areLegible es = true →
    Derives (.arguments (erases es)) (parens (list es))
  | [], _ => .noArguments
  | e :: es, h => by
    simp only [areLegible, Bool.and_eq_true] at h
    have hrest := derives_listRest es h.2 (derives_lexemes e h.1).first
    exact hrest.arguments

theorem derives_listRest : ∀ (es : List (Node ι)), areLegible es = true → ∀ {done : List Tree}
    {ls : List Lexeme}, Derives (.list done) ls →
      Derives (.list (done ++ erases es)) (ls ++ listRest es)
  | [], _, done, ls, hdone => by simpa [erases, listRest] using hdone
  | e :: es, h, done, ls, hdone => by
    simp only [areLegible, Bool.and_eq_true] at h
    have hrest := derives_listRest es h.2 (hdone.more (derives_lexemes e h.1))
    simpa [erases, listRest] using hrest

end


mutual

/-- One more line behind those that were derived. -/
theorem derives_line (b : Bool) : ∀ s : Node ι, s.isLine b = true → ∀ {done : List Tree}
    {ls : List Lexeme}, Derives (.lines b done) ls →
      Derives (.lines b (done ++ [s.erase])) (ls ++ (s.lexemes ++ [.mark .newline]))
  | .skip _, _, _, _, hdone => hdone.skip
  | .declare _ _, _, _, _, hdone => hdone.line .declare
  | .assign _ _ e, h, _, _, hdone => by
    simp only [isLine, Bool.and_eq_true] at h
    exact hdone.line (derives_lexemes e h.2).assign
  | .define _ _ e, h, _, _, hdone => by
    simp only [isLine, Bool.and_eq_true] at h
    exact hdone.line (derives_lexemes e h.2).define
  | .call _ _ as, h, _, _, hdone => by
    simp only [isLine, Bool.and_eq_true] at h
    exact hdone.line (derives_arguments as h.2).invoke
  | .print _ e, h, _, _, hdone => hdone.line (derives_lexemes e h).print
  | .ret _ e, h, _, _, hdone => by
    simp only [isLine, Bool.and_eq_true] at h
    obtain ⟨rfl, he⟩ := h
    exact hdone.line (derives_lexemes e he).ret
  | .branch _ c ys [], h, _, _, hdone => by
    simp only [isLine, Bool.and_eq_true] at h
    have hyes := derives_lines b ys h.1.2 .nil
    exact hdone.line (.branch (derives_lexemes c h.1.1) hyes)
  | .branch _ c ys (n :: ns), h, _, _, hdone => by
    simp only [isLine, Bool.and_eq_true] at h
    have hyes := derives_lines b ys h.1.2 .nil
    have hno := derives_lines b (n :: ns) h.2 .nil
    exact hdone.line (.branchElse (derives_lexemes c h.1.1) hyes hno)
  | .loop _ c body, h, _, _, hdone => by
    simp only [isLine, Bool.and_eq_true] at h
    have hbody := derives_lines b body h.2 .nil
    exact hdone.line (.loop (derives_lexemes c h.1) hbody)
  | .function _ _ _ body, h, _, _, hdone => by
    simp only [isLine, Bool.and_eq_true] at h
    have hbody := derives_lines true body h.2 .nil
    exact hdone.line (.function hbody)

theorem derives_lines (b : Bool) : ∀ ss : List (Node ι), areLines b ss = true → ∀ {done : List Tree}
    {ls : List Lexeme}, Derives (.lines b done) ls →
      Derives (.lines b (done ++ erases ss)) (ls ++ lines ss)
  | [], _, done, ls, hdone => by simpa [erases, lines] using hdone
  | s :: ss, h, done, ls, hdone => by
    simp only [areLines, Bool.and_eq_true] at h
    have hrest := derives_lines b ss h.2 (derives_line b s h.1 hdone)
    simpa [erases, lines] using hrest

end

section

open Lexeme

@[simp] theorem all_parens (ls : List Lexeme) :
    (parens ls).all isWritable = ls.all isWritable := by
  simp [parens]

theorem writable_names {ps : List String} (h : ps.all isName = true) :
    (names ps).all isWritable = true := by
  cases ps with
  | nil => rfl
  | cons p ps => simpa [names] using h

mutual

/-- Every lexeme of an expression with a text can be written. -/
theorem writable_lexemes : ∀ e : Node ι, e.isLegible = true → e.lexemes.all isWritable = true
  | .var _ _, h | .int _ _, h | .str _ _, h => by simpa [lexemes, isLegible] using h
  | .read _, _ => rfl
  | .unary _ op e, h => by simpa [lexemes] using writable_lexemes e h
  | .binary _ op l r, h => by
    simp only [isLegible, Bool.and_eq_true] at h
    simp [lexemes, writable_lexemes l h.1, writable_lexemes r h.2]
  | .call _ f as, h => by
    simp only [isLegible, Bool.and_eq_true] at h
    simp [lexemes, h.1, writable_list as h.2]

theorem writable_list : ∀ es : List (Node ι), areLegible es = true →
    (list es).all isWritable = true
  | [], _ => rfl
  | e :: es, h => by
    simp only [areLegible, Bool.and_eq_true] at h
    simp [list, writable_lexemes e h.1, writable_listRest es h.2]

theorem writable_listRest : ∀ es : List (Node ι), areLegible es = true →
    (listRest es).all isWritable = true
  | [], _ => rfl
  | e :: es, h => by
    simp only [areLegible, Bool.and_eq_true] at h
    simp [listRest, writable_lexemes e h.1, writable_listRest es h.2]

end

mutual

theorem writable_line (b : Bool) : ∀ s : Node ι, s.isLine b = true →
    s.lexemes.all isWritable = true
  | .skip _, _ => rfl
  | .declare _ x, h => by simpa [lexemes, isLine] using h
  | .assign _ x e, h | .define _ x e, h => by
    simp only [isLine, Bool.and_eq_true] at h
    simp [lexemes, h.1, writable_lexemes e h.2]
  | .call _ f as, h => by
    simp only [isLine, Bool.and_eq_true] at h
    simp [lexemes, h.1, writable_list as h.2]
  | .print _ e, h => by simp [lexemes, writable_lexemes e h]
  | .ret _ e, h => by
    simp only [isLine, Bool.and_eq_true] at h
    simp [lexemes, writable_lexemes e h.2]
  | .branch _ c ys [], h => by
    simp only [isLine, Bool.and_eq_true] at h
    simp [lexemes, writable_lexemes c h.1.1, writable_lines b ys h.1.2]
  | .branch _ c ys (n :: ns), h => by
    simp only [isLine, Bool.and_eq_true] at h
    have hno := writable_lines b (n :: ns) h.2
    simp [lexemes, writable_lexemes c h.1.1, writable_lines b ys h.1.2, hno]
  | .loop _ c body, h => by
    simp only [isLine, Bool.and_eq_true] at h
    simp [lexemes, writable_lexemes c h.1, writable_lines b body h.2]
  | .function _ f ps body, h => by
    simp only [isLine, Bool.and_eq_true] at h
    simp [lexemes, h.1.1, writable_names h.1.2, writable_lines true body h.2]

theorem writable_lines (b : Bool) : ∀ ss : List (Node ι), areLines b ss = true →
    (lines ss).all isWritable = true
  | [], _ => rfl
  | s :: ss, h => by
    simp only [areLines, Bool.and_eq_true] at h
    simp [lines, writable_line b s h.1, writable_lines b ss h.2]

end

end

/-- What was written of a program is read as the program. -/
theorem readProgram_text {t : Node ι} (h : t.isProgram = true) :
    Reader.readProgram (Source.feed t.text) = .ok t.erase := by
  cases t with
  | block i body =>
    have hbody : Derives (.program (block i body).erase) (lines body ++ [.mark .eof]) :=
      .program (derives_lines false body h .nil)
    have hwritable := List.all_eq_true.mp (writable_lines false body h)
    obtain ⟨hnone, hlexemes⟩ := Lexeme.lexemes_render hwritable
    refine readProgram_feed_iff.mpr ⟨hnone, ?_⟩
    rw [text, lexemes, hlexemes]
    exact hbody
  | _ => cases h

end Node

/-- There is a text for what the phrase stands for. -/
def Phrase.HasText : Phrase → Prop
  | .operand t | .operation _ t => t.isLegible = true
  | .list ts | .arguments ts => Node.areLegible ts = true
  | .statement b t => t.isLine b = true
  | .lines b ts => Node.areLines b ts = true
  | .program t => t.isProgram = true

section

open Node

theorem areLegible_append (ts us : List Tree) :
    areLegible (ts ++ us) = (areLegible ts && areLegible us) := by
  induction ts with
  | nil => rfl
  | cons t ts ih => simp [areLegible, ih, Bool.and_assoc]

theorem areLines_append (b : Bool) (ts us : List Tree) :
    areLines b (ts ++ us) = (areLines b ts && areLines b us) := by
  induction ts with
  | nil => rfl
  | cons t ts ih => simp [areLines, ih, Bool.and_assoc]

theorem all_isName_of_names {ps : List String}
    (h : ∀ l ∈ Lexeme.names ps, l ≠ .mark .eof → l.isWritable = true) : ps.all isName = true := by
  cases ps with
  | nil => rfl
  | cons p ps =>
    simp only [Lexeme.names, List.mem_cons, List.mem_flatMap] at h
    have hp := h (.ident p) (.inl rfl) (by simp)
    have hps : ∀ q ∈ ps, isName q = true :=
      fun q hq => h (.ident q) (.inr ⟨q, hq, by simp⟩) (by simp)
    simpa using ⟨hp, hps⟩

/-- The grammar derives nothing that has no text. -/
theorem hasText_of_derives {p : Phrase} {ls : List Lexeme} (h : Derives p ls)
    (hls : ∀ l ∈ ls, l ≠ .mark .eof → l.isWritable = true) : p.HasText := by
  induction h with
  | var | int | str | declare => simpa [Phrase.HasText, isLegible, isLine] using hls
  | read | noArguments | nil => rfl
  | tightest _ ih | tighter _ ih => exact ih hls
  | unary _ ih | group _ ih | arguments _ ih | ret _ ih | print _ ih | program _ ih =>
    exact ih fun l hl => hls l (by simp [hl])
  | call _ ih | invoke _ ih | assign _ ih | define _ ih =>
    have he := ih fun l hl => hls l (by simp [hl])
    exact Bool.and_eq_true_iff.mpr ⟨hls (.ident _) (by simp) (by simp), he⟩
  | binary _ _ _ ihl ihr | loop _ _ ihl ihr =>
    have hl := ihl fun l hl => hls l (by simp [hl])
    have hr := ihr fun l hl => hls l (by simp [hl])
    exact Bool.and_eq_true_iff.mpr ⟨hl, hr⟩
  | branch _ _ ihc ihy =>
    have hc := ihc fun l hl => hls l (by simp [hl])
    have hy := ihy fun l hl => hls l (by simp [hl])
    exact Bool.and_eq_true_iff.mpr ⟨Bool.and_eq_true_iff.mpr ⟨hc, hy⟩, rfl⟩
  | branchElse _ _ _ ihc ihy ihn =>
    have hc := ihc fun l hl => hls l (by simp [hl])
    have hy := ihy fun l hl => hls l (by simp [hl])
    have hn := ihn fun l hl => hls l (by simp [hl])
    exact Bool.and_eq_true_iff.mpr ⟨Bool.and_eq_true_iff.mpr ⟨hc, hy⟩, hn⟩
  | @function _ _ ps _ _ _ ih =>
    have hps : ps.all isName = true := all_isName_of_names fun l hl =>
      hls l (by simp [hl])
    have hbody := ih fun l hl => hls l (by simp [hl])
    refine Bool.and_eq_true_iff.mpr ⟨Bool.and_eq_true_iff.mpr ⟨?_, hps⟩, hbody⟩
    exact hls (.ident _) (by simp) (by simp)
  | first _ ih => exact Bool.and_eq_true_iff.mpr ⟨ih hls, rfl⟩
  | more _ _ ihs iht =>
    have hs := ihs fun l hl => hls l (by simp [hl])
    have ht := iht fun l hl => hls l (by simp [hl])
    exact (areLegible_append _ _).trans
      (Bool.and_eq_true_iff.mpr ⟨hs, Bool.and_eq_true_iff.mpr ⟨ht, rfl⟩⟩)
  | skip _ ih =>
    have hs := ih fun l hl => hls l (by simp [hl])
    exact (areLines_append _ _ _).trans (Bool.and_eq_true_iff.mpr ⟨hs, rfl⟩)
  | line _ _ ihs iht | openProgram _ _ ihs iht =>
    have hs := ihs fun l hl => hls l (by simp [hl])
    have ht := iht fun l hl => hls l (by simp [hl])
    exact (areLines_append _ _ _).trans
      (Bool.and_eq_true_iff.mpr ⟨hs, Bool.and_eq_true_iff.mpr ⟨ht, rfl⟩⟩)

end

/-- Every program that was read has a text. -/
theorem isProgram_of_parse {source : String} {first : Nat} {root : Node Nat}
    (h : (Source.parse source first).1 = .ok root) : root.erase.isProgram = true := by
  have hread := readProgram_feed_iff.mp (parse_eq_ok_iff.mp ⟨root, h, rfl⟩)
  refine hasText_of_derives hread.2 fun l hl hne => ?_
  obtain ⟨t, ht, rfl⟩ := List.mem_map.mp hl
  exact writable_of_feed ht hne

/-- Reading undoes writing, numbers aside. -/
theorem parse_text {ι : Type} (t : Node ι) (h : t.isProgram = true) (first : Nat) :
    ∃ root, (Source.parse t.text first).1 = .ok root ∧ root.erase = t.erase :=
  parse_eq_ok_iff.mpr (Node.readProgram_text h)

/-- Strings that look like comments and go on over a line end, signs behind signs, names that begin
like reserved words, empty lines, a branch with a second block only and one without statements. -/
def oddities : Tree :=
  .block () [
    .function () "f" ["_a", "ending"] [
      .branch () (.binary () (.relation .equal) (.var () "_a") (.int () 2147483647))
        [.skip (), .ret () (.str () "a -- b\n-- c")] [],
      .loop () (.unary () .not (.unary () .neg (.unary () .neg (.var () "ending")))) []],
    .skip (),
    .define () "x" (.call () "f" [.read (), .str () ""]),
    .branch () (.var () "x") [] [.skip ()]]

theorem parse_text_oddities :
    oddities.isProgram = true ∧
      ∃ root, (Source.parse oddities.text 0).1 = .ok root ∧ root.erase = oddities.erase :=
  ⟨by decide +kernel, parse_text oddities (by decide +kernel) 0⟩

/-- Operands are in parentheses, so that a second sign is no comment. -/
example :
    Node.text (.block () [
      .branch () (.binary () .concat (.var () "x") (.unary () .neg (.unary () .neg (.int () 3))))
        [.skip ()] []] : Tree) = "if (x) .. (- (- (3))) then\n\nend\n" := by
  decide +kernel

end Onepass
