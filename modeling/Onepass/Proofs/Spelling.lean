import Onepass.Proofs.Layout
import Onepass.Proofs.Parsing

/-!
# Onepass.Proofs.Spelling

Lexemes as text. What ends a lexeme is the character behind it: a blank, a line end, a parenthesis
or a comma ends whatever stands before it, and `render` takes care that one of them stands behind
each lexeme that needs an end (`ends_gap`).

* `lexemes_render` -- the text that lexemes are written to has those lexemes and no others, its
  comments removed.
* `writable_of_feed` -- and every lexeme that a text has can be written.
-/

namespace Onepass

/-- A name that a program can use: letters, digits and `_`, no digit in front, no reserved word. -/
def isName (x : String) : Bool :=
  x.toList.head?.any isNameStart && x.toList.all isNamePart && Mark.keyword? x == none

namespace Mark

/-- How a mark is written. The end of the text is not written. -/
def spelling : Mark → String
  | .plus => "+"
  | .minus => "-"
  | .star => "*"
  | .slash => "/"
  | .openParen => "("
  | .closeParen => ")"
  | .comma => ","
  | .less => "<"
  | .greater => ">"
  | .equal => "=="
  | .concat => ".."
  | .assign => "="
  | .newline => "\n"
  | .eof => ""
  | .kPrint => "print"
  | .kRead => "read"
  | .kAnd => "and"
  | .kOr => "or"
  | .kNot => "not"
  | .kIf => "if"
  | .kThen => "then"
  | .kElse => "else"
  | .kWhile => "while"
  | .kDo => "do"
  | .kEnd => "end"
  | .kLocal => "local"
  | .kFunction => "function"
  | .kReturn => "return"

end Mark

namespace Lexeme

def spelling : Lexeme → List Char
  | .int n => Nat.toDigits 10 n.toNat
  | .string s => '"' :: (s.toList ++ ['"'])
  | .ident x => x.toList
  | .mark m => m.spelling.toList

/-- Is there a text for it? There is none for a number below 0 and for a string with a quotation
mark. -/
def isWritable : Lexeme → Bool
  | .int n => 0 ≤ n.toInt
  | .string s => !s.toList.contains '"'
  | .ident x => isName x
  | .mark m => m ≠ .eof

@[simp] theorem isWritable_int (n : Word) : (int n).isWritable = decide (0 ≤ n.toInt) := rfl

@[simp] theorem isWritable_string (s : String) :
    (string s).isWritable = !s.toList.contains '"' := rfl

@[simp] theorem isWritable_ident (x : String) : (ident x).isWritable = isName x := rfl

@[simp] theorem isWritable_mark (m : Mark) : (mark m).isWritable = decide (m ≠ .eof) := rfl

/-- Is there no blank between the two? -/
def joins : Lexeme → Lexeme → Bool
  | .mark .openParen, _ | .mark .newline, _ => true
  | _, .mark .closeParen | _, .mark .comma | _, .mark .newline => true
  | .ident _, .mark .openParen | .mark .kPrint, .mark .openParen
  | .mark .kRead, .mark .openParen => true
  | _, _ => false

/-- What stands behind a lexeme, up to the next one. -/
def gap (l : Lexeme) : Option Lexeme → List Char
  | none => []
  | some m => if l.joins m then [] else [' ']

/-- Lexemes one after the other. -/
def render : List Lexeme → List Char
  | [] => []
  | l :: ls => l.spelling ++ (l.gap ls.head? ++ render ls)

end Lexeme

/-- Does the character end whatever lexeme stands before it? -/
def isBreak (c : Char) : Bool := [' ', '\n', '(', ')', ','].contains c

/-- The text is empty or begins with a break. -/
def Breaks (cs : List Char) : Prop := ∀ c ∈ cs.head?, isBreak c = true

/-- Behind a lexeme stands what ends it, if it needs an end. -/
def Lexeme.Ends (l : Lexeme) (rest : List Char) : Prop :=
  l ≠ .mark .openParen → l ≠ .mark .newline → Breaks rest

section

variable {c : Char}

theorem isNamePart_of_isBreak (h : isBreak c = true) : isNamePart c = false := by
  simp only [isBreak, List.contains_iff_mem, List.mem_cons, List.not_mem_nil, or_false] at h
  rcases h with rfl | rfl | rfl | rfl | rfl <;> decide

theorem isNamePart_of_isDigit (h : c.isDigit = true) : isNamePart c = true := by
  simp [isNamePart, Char.isAlphanum, h]

theorem isDigit_of_isBreak (h : isBreak c = true) : c.isDigit = false := by
  cases hd : c.isDigit with
  | false => rfl
  | true =>
    have hpart := isNamePart_of_isBreak h
    rw [isNamePart_of_isDigit hd] at hpart
    cases hpart

end

namespace Lexeme

theorem ends_of_joins {l m : Lexeme} (h : l.joins m = true) (rest : List Char) :
    l.Ends (m.spelling ++ rest) := by
  intro hl hl'
  have hm : m = .mark .closeParen ∨ m = .mark .comma ∨ m = .mark .newline ∨
      m = .mark .openParen := by
    unfold joins at h
    split at h <;> simp_all
  rcases hm with rfl | rfl | rfl | rfl <;> simp [Breaks, spelling, Mark.spelling, isBreak]

/-- Whatever needs an end has one. -/
theorem ends_gap (l : Lexeme) (ls : List Lexeme) : l.Ends (l.gap ls.head? ++ render ls) := by
  cases ls with
  | nil => simp [Ends, Breaks, gap, render]
  | cons m ls =>
    simp only [List.head?_cons, gap, render]
    split
    · rename_i h
      exact ends_of_joins h _
    · simp [Ends, Breaks, isBreak]

end Lexeme

section

variable {p : Char → Bool} {cs rest : List Char}

theorem takeWhile_append_stop (h : ∀ c ∈ cs, p c = true) (hr : ∀ c ∈ rest.head?, p c = false) :
    (cs ++ rest).takeWhile p = cs := by
  rw [List.takeWhile_append_of_pos h]
  cases rest with
  | nil => simp
  | cons c rest => simp [hr c rfl]

theorem dropWhile_append_stop (h : ∀ c ∈ cs, p c = true) (hr : ∀ c ∈ rest.head?, p c = false) :
    (cs ++ rest).dropWhile p = rest := by
  rw [List.dropWhile_append_of_pos h]
  cases rest with
  | nil => rfl
  | cons c rest => simp [hr c rfl]

end

theorem decimal_toDigits (n : Nat) : decimal (Nat.toDigits 10 n) = n :=
  Nat.ofDigitChars_ten_toDigits

theorem isDigit_of_isNameStart {c : Char} (h : isNameStart c = true) : c.isDigit = false := by
  simp only [isNameStart, Bool.or_eq_true, decide_eq_true_eq] at h
  rw [Bool.eq_false_iff, ne_eq, Char.isDigit_iff_toNat]
  intro hdigit
  rcases h with h | rfl
  · -- Letters lie behind the digits.
    rcases Bool.or_eq_true_iff.mp h with hupper | hlower
    · have hle : 65 ≤ c.toNat := UInt32.le_iff_toNat_le.mp (of_decide_eq_true hupper).1
      exact absurd (hle.trans hdigit.2) (by decide)
    · have hlow := of_decide_eq_true (Bool.and_eq_true_iff.mp hlower).1
      have hle : 97 ≤ c.toNat := UInt32.le_iff_toNat_le.mp hlow
      exact absurd (hle.trans hdigit.2) (by decide)
  · exact absurd hdigit.2 (by decide)

theorem toNat_le_largest {n : Word} (h : 0 ≤ n.toInt) : n.toNat ≤ Word.largest := by
  have hn := BitVec.toInt_eq_toNat_cond n
  unfold Word.largest
  split at hn <;> omega

section

variable {rest : List Char}

theorem scan_word {x : String} (hx : x.toList.head?.any isNameStart = true)
    (hall : x.toList.all isNamePart = true) (hstop : ∀ c ∈ rest.head?, isNamePart c = false) :
    scan (x.toList ++ rest) = .ok (wordLexeme x, rest) := by
  have htake := takeWhile_append_stop (List.all_eq_true.mp hall) hstop
  have hdrop := dropWhile_append_stop (List.all_eq_true.mp hall) hstop
  cases hcs : x.toList with
  | nil => simp [hcs] at hx
  | cons c cs =>
    rw [hcs] at htake hdrop hx
    have hc : isNameStart c = true := by simpa using hx
    have hne : c ≠ '\n' := by rintro rfl; revert hc; decide
    simp only [List.cons_append] at htake hdrop ⊢
    simp [scan, hne, isDigit_of_isNameStart hc, hc, scanWord, htake, hdrop, ← hcs]

theorem scan_digits {ds : List Char} (hds : ds ≠ []) (hdigits : ∀ c ∈ ds, c.isDigit = true)
    (hstop : ∀ c ∈ rest.head?, c.isDigit = false) : scan (ds ++ rest) =
      if decimal ds ≤ Word.largest then .ok (.int (Word.ofNat (decimal ds)), rest)
      else .error (.integerTooLarge (String.ofList ds)) := by
  have htake := takeWhile_append_stop hdigits hstop
  have hdrop := dropWhile_append_stop hdigits hstop
  cases ds with
  | nil => exact absurd rfl hds
  | cons c cs =>
    have hc : c.isDigit = true := hdigits c List.mem_cons_self
    have hne : c ≠ '\n' := by rintro rfl; revert hc; decide
    simp only [List.cons_append] at htake hdrop ⊢
    simp [scan, hne, hc, scanInt, htake, hdrop]

theorem isDigit_of_mem_toDigits {n : Nat} : ∀ c ∈ Nat.toDigits 10 n, c.isDigit = true :=
  fun _ hc => Nat.isDigit_of_mem_toDigits (by decide) (by decide) hc

theorem scan_int {n : Word} (hn : 0 ≤ n.toInt) (hstop : ∀ c ∈ rest.head?, c.isDigit = false) :
    scan (Nat.toDigits 10 n.toNat ++ rest) = .ok (.int n, rest) := by
  rw [scan_digits Nat.toDigits_ne_nil isDigit_of_mem_toDigits hstop, decimal_toDigits,
    if_pos (toNat_le_largest hn), Word.ofNat, BitVec.ofNat_toNat, BitVec.setWidth_eq]

theorem scan_assign (hstop : rest.head? ≠ some '=') :
    scan ('=' :: rest) = .ok (.mark .assign, rest) := by
  cases rest with
  | nil => rfl
  | cons c rest =>
    have hc : c ≠ '=' := by simpa using hstop
    have hkind : '='.isDigit = false ∧ isNameStart '=' = false := by decide
    simp [scan, hkind, hc]

end

theorem scan_string {s : String} (hs : '"' ∉ s.toList) (rest : List Char) :
    scan ('"' :: (s.toList ++ '"' :: rest)) = .ok (.string s, rest) := by
  have hplain : ∀ c ∈ s.toList, (c != '"') = true := by
    intro c hc
    rw [bne_iff_ne]
    rintro rfl
    exact hs hc
  have hstop : ∀ c ∈ ('"' :: rest).head?, (c != '"') = false := by simp
  have htake := takeWhile_append_stop hplain hstop
  have hdrop := dropWhile_append_stop hplain hstop
  simp [scan, isNameStart, scanString, htake, hdrop]

theorem scan_mark {m : Mark} (hm : m ≠ .eof) {rest : List Char}
    (hr : m ≠ .openParen → m ≠ .newline → Breaks rest) :
    scan (m.spelling.toList ++ rest) = .ok (.mark m, rest) := by
  cases m with
  | eof => exact absurd rfl hm
  | assign =>
    refine scan_assign fun hnext => ?_
    have hbreak := hr (by simp) (by simp) '=' hnext
    cases hbreak
  | openParen | newline | closeParen | comma | plus | minus | star | slash | less | greater
  | equal | concat => rfl
  | _ =>
    refine scan_word (by decide) (by decide) fun c hc => ?_
    exact isNamePart_of_isBreak (hr (by simp) (by simp) c hc)

namespace Lexeme

theorem scan_spelling {l : Lexeme} (hl : l.isWritable = true) {rest : List Char}
    (hr : l.Ends rest) : scan (l.spelling ++ rest) = .ok (l, rest) := by
  cases l with
  | int n =>
    refine scan_int (by simpa using hl) fun c hc => ?_
    exact isDigit_of_isBreak (hr (by simp) (by simp) c hc)
  | string s =>
    simp only [isWritable, Bool.not_eq_true', List.contains_eq_mem, decide_eq_false_iff_not] at hl
    simpa [spelling] using scan_string hl rest
  | ident x =>
    simp only [isWritable, isName, Bool.and_eq_true, beq_iff_eq] at hl
    obtain ⟨⟨hstart, hall⟩, hword⟩ := hl
    have h := scan_word hstart hall fun c hc =>
      isNamePart_of_isBreak (hr (by simp) (by simp) c hc)
    rwa [wordLexeme, hword] at h
  | mark m =>
    have hm : m ≠ .eof := by simpa using hl
    exact scan_mark hm fun h h' => hr (by simpa using h) (by simpa using h')

end Lexeme

/-- No lexeme begins with a blank. -/
theorem dropWhile_of_scan {cs : List Char} {r : Lexeme × List Char} (h : scan cs = .ok r) :
    cs.dropWhile isBlank = cs := by
  cases cs with
  | nil => rfl
  | cons c cs =>
    cases hc : isBlank c with
    | false => simp [hc]
    | true =>
      simp only [isBlank, Bool.or_eq_true, decide_eq_true_eq] at hc
      rcases hc with (rfl | rfl) | rfl <;> cases h

theorem Cursor.next_of_scan {blanks cs rest : List Char} {l : Lexeme}
    (hblanks : ∀ c ∈ blanks, isBlank c = true) (h : scan cs = .ok (l, rest)) (line : Nat) :
    (⟨blanks ++ cs, line⟩ : Cursor).next = (.ok ⟨l, line⟩, ⟨rest, line + l.lineBreaks⟩) := by
  simp only [next, List.dropWhile_append_of_pos hblanks, dropWhile_of_scan h, h]

theorem Cursor.scan_of_next {c c' : Cursor} {t : Token} (h : c.next = (.ok t, c')) :
    scan (c.rest.dropWhile isBlank) = .ok (t.lexeme, c'.rest) ∧ t.line = c.line ∧
      c'.line = c.line + t.lexeme.lineBreaks := by
  simp only [next] at h
  split at h
  · rename_i l rest hscan
    cases h
    exact ⟨hscan, rfl, rfl⟩
  · cases h

theorem Cursor.scan_of_next_error {c c' : Cursor} {e : Error} (h : c.next = (.error e, c')) :
    ∃ cause, scan (c.rest.dropWhile isBlank) = .error cause ∧ e = .lexical c.line cause ∧
      c' = ⟨c.rest.dropWhile isBlank, c.line⟩ := by
  simp only [next] at h
  split at h
  · cases h
  · rename_i cause hscan
    cases h
    exact ⟨cause, hscan, rfl, rfl⟩

namespace Lexeme

theorem isBlank_gap (l : Lexeme) (next : Option Lexeme) : ∀ c ∈ l.gap next, isBlank c = true := by
  intro c hc
  unfold gap at hc
  split at hc
  · cases hc
  · split at hc
    · cases hc
    · rw [List.mem_singleton.mp hc]
      decide

theorem next_spelling {l : Lexeme} (hl : l.isWritable = true) {blanks rest : List Char}
    (hblanks : ∀ c ∈ blanks, isBlank c = true) (hr : l.Ends rest) (line : Nat) :
    (⟨blanks ++ (l.spelling ++ rest), line⟩ : Cursor).next =
      (.ok ⟨l, line⟩, ⟨rest, line + l.lineBreaks⟩) :=
  Cursor.next_of_scan hblanks (scan_spelling hl hr) line

theorem feed_render {ls : List Lexeme} (h : ∀ l ∈ ls, l.isWritable = true) {blanks : List Char}
    (hblanks : ∀ c ∈ blanks, isBlank c = true) (line : Nat) :
    ∃ ts, (⟨blanks ++ render ls, line⟩ : Cursor).feed = ⟨ts, none⟩ ∧
      ts.map Token.lexeme = ls ++ [.mark .eof] := by
  induction ls generalizing blanks line with
  | nil =>
    have hnext : (⟨blanks ++ render [], line⟩ : Cursor).next =
        (.ok ⟨.mark .eof, line⟩, ⟨[], line⟩) := by
      rw [Cursor.next, List.dropWhile_append_of_pos hblanks]
      rfl
    exact ⟨_, Cursor.feed_of_eof hnext rfl, rfl⟩
  | cons l ls ih =>
    have hl := h l List.mem_cons_self
    have hnext := next_spelling hl hblanks (ends_gap l ls) line
    have hne : l ≠ .mark .eof := by rintro rfl; cases hl
    obtain ⟨ts, hfeed, hts⟩ := ih (fun m hm => h m (List.mem_cons_of_mem l hm))
      (isBlank_gap l ls.head?) (line + l.lineBreaks)
    refine ⟨⟨l, line⟩ :: ts, ?_, by simp [hts]⟩
    rw [render, Cursor.feed_of_token hnext hne, hfeed]

end Lexeme

namespace Comment

/-- Text without quotation marks and dashes is no comment and begins none. -/
theorem stripFrom_plain {cs : List Char} (h : ∀ c ∈ cs, c ≠ '"' ∧ c ≠ '-') (rest : List Char) :
    stripFrom .code (cs ++ rest) = cs ++ stripFrom .code rest := by
  induction cs with
  | nil => rfl
  | cons c cs ih =>
    have hc := h c List.mem_cons_self
    simp [stripFrom, hc, ih fun d hd => h d (List.mem_cons_of_mem c hd)]

/-- Nothing in a string begins a comment. -/
theorem stripFrom_quoted {cs : List Char} (h : '"' ∉ cs) (rest : List Char) :
    stripFrom .quoted (cs ++ '"' :: rest) = cs ++ '"' :: stripFrom .code rest := by
  induction cs with
  | nil => simp [stripFrom]
  | cons c cs ih =>
    simp only [List.mem_cons, not_or] at h
    have hc : c ≠ '"' := fun hc => h.1 hc.symm
    simp [stripFrom, hc, ih h.2]

/-- A dash alone begins no comment. -/
theorem stripFrom_dash {rest : List Char} (h : rest.head? ≠ some '-') :
    stripFrom .code ('-' :: rest) = '-' :: stripFrom .code rest := by
  simp [stripFrom, h]

end Comment

namespace Lexeme

open Comment

theorem ne_of_isNamePart {c : Char} (h : isNamePart c = true) : c ≠ '"' ∧ c ≠ '-' := by
  constructor <;> rintro rfl <;> revert h <;> decide

theorem plain_spelling {m : Mark} (hm : m ≠ .minus) :
    ∀ c ∈ m.spelling.toList, c ≠ '"' ∧ c ≠ '-' := by
  cases m with
  | minus => exact absurd rfl hm
  | _ => simp [Mark.spelling]

theorem stripFrom_spelling {l : Lexeme} (hl : l.isWritable = true) {rest : List Char}
    (hr : l.Ends rest) :
    stripFrom .code (l.spelling ++ rest) = l.spelling ++ stripFrom .code rest := by
  cases l with
  | int n =>
    refine stripFrom_plain (fun c hc => ne_of_isNamePart (isNamePart_of_isDigit ?_)) rest
    exact isDigit_of_mem_toDigits c hc
  | string s =>
    have hs : '"' ∉ s.toList := by simpa using hl
    simp [spelling, stripFrom, stripFrom_quoted hs]
  | ident x =>
    simp only [isWritable, isName, Bool.and_eq_true, List.all_eq_true] at hl
    exact stripFrom_plain (fun c hc => ne_of_isNamePart (hl.1.2 c hc)) rest
  | mark m =>
    by_cases hm : m = .minus
    · subst hm
      refine stripFrom_dash fun hdash => ?_
      have := hr (by simp) (by simp) '-' hdash
      cases this
    · exact stripFrom_plain (plain_spelling hm) rest

theorem stripFrom_render {ls : List Lexeme} (h : ∀ l ∈ ls, l.isWritable = true) :
    stripFrom .code (render ls) = render ls := by
  induction ls with
  | nil => rfl
  | cons l ls ih =>
    have hgap : ∀ c ∈ l.gap ls.head?, c ≠ '"' ∧ c ≠ '-' := by
      intro c hc
      have hblank := isBlank_gap l _ c hc
      constructor <;> rintro rfl <;> revert hblank <;> decide
    rw [render, stripFrom_spelling (h l List.mem_cons_self) (ends_gap l ls),
      stripFrom_plain hgap, ih fun m hm => h m (List.mem_cons_of_mem l hm)]

/-- What was written is what is read. -/
theorem lexemes_render {ls : List Lexeme} (h : ∀ l ∈ ls, l.isWritable = true) :
    (Source.feed (String.ofList (render ls))).failure = none ∧
      (Source.feed (String.ofList (render ls))).lexemes = ls ++ [.mark .eof] := by
  obtain ⟨ts, hfeed, hts⟩ := feed_render h (fun _ hc => absurd hc List.not_mem_nil) 1
  have htext : Source.feed (String.ofList (render ls)) = ⟨ts, none⟩ := by
    rw [← hfeed]
    simp [Source.feed, Comment.strip, Cursor.ofString, stripFrom_render h]
  rw [htext]
  exact ⟨rfl, hts⟩

end Lexeme

section

open Lexeme

variable {cs rest : List Char} {l : Lexeme}

theorem writable_of_scanInt (h : scanInt cs = .ok (l, rest)) : l.isWritable = true := by
  simp only [scanInt] at h
  split at h
  · rename_i hle
    cases h
    have hvalue := Word.toInt_ofNat (Nat.lt_succ_of_le hle)
    simp [hvalue]
  · cases h

/-- What holds of all entries of a table holds of the one that is found. -/
theorem of_lookup {α β : Type} [BEq α] [LawfulBEq α] {table : List (α × β)} {a : α} {b : β}
    {P : α × β → Prop} (h : table.lookup a = some b) (hall : ∀ e ∈ table, P e) : P (a, b) := by
  obtain ⟨before, behind, rfl, -⟩ := List.lookup_eq_some_iff.mp h
  exact hall (a, b) (by simp)

theorem writable_of_scanWord {c : Char} (hc : isNameStart c = true) :
    (scanWord (c :: cs)).1.isWritable = true := by
  simp only [scanWord, wordLexeme]
  split
  · rename_i m hm
    have hall : ∀ e ∈ Mark.keywords, e.2 ≠ .eof := by decide
    simpa using of_lookup hm hall
  · rename_i hword
    have hstart : ((c :: cs).takeWhile isNamePart).head?.any isNameStart = true := by
      simp [isNamePart_of_isNameStart hc, hc]
    simp only [isWritable_ident, isName, String.toList_ofList, hstart, List.all_takeWhile, hword]
    rfl

theorem quote_not_mem_takeWhile (cs : List Char) : '"' ∉ cs.takeWhile (· != '"') := by
  intro hmem
  cases List.all_eq_true.mp List.all_takeWhile _ hmem

theorem writable_of_scanString (h : scanString cs = .ok (l, rest)) : l.isWritable = true := by
  simp only [scanString] at h
  split at h
  · cases h
  · cases h
    simpa using quote_not_mem_takeWhile cs

/-- The other way: a lexeme that a text begins with can be written. -/
theorem writable_of_scan (h : scan cs = .ok (l, rest)) (hl : l ≠ .mark .eof) :
    l.isWritable = true := by
  cases cs with
  | nil => cases h; exact absurd rfl hl
  | cons c cs =>
    simp only [scan] at h
    split at h
    · cases h; rfl
    split at h
    · exact writable_of_scanInt h
    split at h
    · rename_i hc
      have hw : (scanWord (c :: cs)).1.isWritable = true := writable_of_scanWord hc
      cases h
      exact hw
    split at h
    · exact writable_of_scanString h
    split at h
    · split at h <;> cases h <;> rfl
    split at h
    · split at h <;> cases h
      rfl
    · split at h
      · rename_i m hm
        cases h
        have hall : ∀ e ∈ Mark.symbols, e.2 ≠ .eof := by decide
        simpa using of_lookup hm hall
      · cases h

theorem writable_of_feed {c : Cursor} {t : Token} (h : t ∈ c.feed.tokens)
    (ht : t.lexeme ≠ .mark .eof) : t.lexeme.isWritable = true := by
  fun_induction Cursor.feed c with
  | case1 => cases h
  | case2 c t' c' hc heof =>
    rw [List.mem_singleton.mp h] at ht
    exact absurd heof ht
  | case3 c t' c' hc hne hlt more ih =>
    rcases List.mem_cons.mp h with rfl | h
    · obtain ⟨hscan, -, -⟩ := Cursor.scan_of_next hc
      exact writable_of_scan hscan ht
    · exact ih h

end
end Onepass
