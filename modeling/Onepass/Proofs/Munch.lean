import Onepass.Proofs.Spelling

/-!
# Onepass.Proofs.Munch

What tokens a text has, said without the lexer. A text is blanks and lexemes in turn, and every
lexeme is the longest: no more of the text behind it can be taken so that it still has the form of
a lexeme. Of digits every run has the form of a lexeme; one that is too large is none.

* `scan_eq_ok_iff` -- the lexeme that the lexer finds is the longest one that the text begins with.
* `blames_of_scan` -- where none begins, the error is the one that the first character calls for.
* `munches_of_feed` -- so the lexer divides a text as far as it can be divided.
* `tokenize_munches` -- a text has tokens if and only if it can be divided so, and they are those
  of the division; otherwise there is a first place where no lexeme begins, and the error says why.
-/

namespace Onepass

namespace Lexeme

/-- The text is one of the lexeme. Zeros may stand in front of an integer. -/
def IsText (w : List Char) : Lexeme → Prop
  | .int n =>
    (w ≠ [] ∧ ∀ c ∈ w, c.isDigit = true) ∧ decimal w ≤ Word.largest ∧ n = Word.ofNat (decimal w)
  | .string s => w = '"' :: (s.toList ++ ['"']) ∧ '"' ∉ s.toList
  | .ident x => w = x.toList ∧ isName x = true
  | .mark m => w = m.spelling.toList ∧ m ≠ .eof

end Lexeme

/-- The text has the form of a lexeme: it is made of digits, or it is the text of a lexeme. -/
def IsForm (w : List Char) : Prop :=
  (w ≠ [] ∧ ∀ c ∈ w, c.isDigit = true) ∨ ∃ l : Lexeme, l.IsText w

/-- Nothing of what stands behind can be taken as well. -/
def Longest (w rest : List Char) : Prop :=
  ∀ more, more ≠ [] → more <+: rest → ¬ IsForm (w ++ more)

/-- The text begins with the lexeme, and `rest` is what stands behind. -/
def Munch (cs : List Char) (l : Lexeme) (rest : List Char) : Prop :=
  ∃ w, cs = w ++ rest ∧ l.IsText w ∧ Longest w rest

/-- The text is blanks and lexemes in turn, and `left` behind the last blanks. -/
inductive Munches : List Char → List Lexeme → List Char → Prop where
  | blanks {bs left} : (∀ c ∈ bs, isBlank c = true) → Munches (bs ++ left) [] left
  | lexeme {bs cs l rest ls left} : (∀ c ∈ bs, isBlank c = true) → Munch cs l rest →
      Munches rest ls left → Munches (bs ++ cs) (l :: ls) left

/-- What is wrong with a text that begins with no lexeme: its first character tells. -/
inductive Blames : List Char → LexicalCause → Prop where
  | badCharacter {c rest} : isBlank c = false → c.isDigit = false → c ≠ '"' → c ≠ '.' →
      Blames (c :: rest) (.badCharacter c)
  | unclosedString {rest} : Blames ('"' :: rest) .unclosedString
  | loneDot {rest} : Blames ('.' :: rest) (.loneDot rest.head?)
  | integerTooLarge {ds rest} : ds ≠ [] → (∀ c ∈ ds, c.isDigit = true) →
      (∀ c ∈ rest.head?, c.isDigit = false) →
      Blames (ds ++ rest) (.integerTooLarge (String.ofList ds))

/-! ## Forms -/

/-- What can stand behind the first character in a form. -/
def Continues (c : Char) (w : List Char) : Prop :=
  if c.isDigit then ∀ d ∈ w, d.isDigit = true
  else if isNameStart c then ∀ d ∈ w, isNamePart d = true
  else if c = '"' then '"' ∉ w.dropLast
  else if c = '=' then w = [] ∨ w = ['=']
  else if c = '.' then w = ['.']
  else w = []

theorem continues_of_isForm {c : Char} {w : List Char} (h : IsForm (c :: w)) : Continues c w := by
  have hnumber (hdigits : ∀ d ∈ c :: w, d.isDigit = true) : Continues c w := by
    obtain ⟨hc, hw⟩ := List.forall_mem_cons.mp hdigits
    rwa [Continues, if_pos hc]
  rcases h with ⟨-, hdigits⟩ | ⟨l, hl⟩
  · exact hnumber hdigits
  · cases l with
    | int n => exact hnumber hl.1.2
    | string s =>
      obtain ⟨hw, hs⟩ := hl
      cases hw
      simpa [Continues, isNameStart] using hs
    | ident x =>
      obtain ⟨hw, hx⟩ := hl
      simp only [isName, ← hw, List.head?_cons, Option.any_some, List.all_cons,
        Bool.and_eq_true, List.all_eq_true] at hx
      obtain ⟨⟨hc, -, hall⟩, -⟩ := hx
      rw [Continues, isDigit_of_isNameStart hc, if_neg Bool.false_ne_true, if_pos hc]
      exact hall
    | mark m =>
      obtain ⟨hw, hm⟩ := hl
      cases m with
      | eof => exact absurd rfl hm
      | _ =>
        simp only [Mark.spelling, String.reduceToList, List.cons.injEq] at hw
        obtain ⟨rfl, rfl⟩ := hw
        simp [Continues, isNameStart, isNamePart]

section

variable {w rest : List Char}

theorem longest_of_stop {p : Char → Bool}
    (hform : ∀ d more, IsForm (w ++ d :: more) → p d = true)
    (hstop : ∀ d ∈ rest.head?, p d = false) : Longest w rest := by
  rintro more hmore ⟨left, rfl⟩ hlonger
  cases more with
  | nil => exact hmore rfl
  | cons d more =>
    have htrue := hform d more hlonger
    rw [hstop d rfl] at htrue
    cases htrue

/-- What no form goes on behind is the longest, whatever comes. -/
theorem longest_of_closed (hform : ∀ d more, ¬ IsForm (w ++ d :: more)) : Longest w rest :=
  longest_of_stop (p := fun _ => false) (fun d more h => absurd h (hform d more)) fun _ _ => rfl

theorem Longest.stop (h : Longest w rest) {p : Char → Bool}
    (hform : ∀ d, p d = true → IsForm (w ++ [d])) : ∀ d ∈ rest.head?, p d = false := by
  intro d hd
  cases hp : p d with
  | false => rfl
  | true =>
    obtain ⟨more, rfl⟩ : ∃ more, rest = d :: more := List.head?_eq_some_iff.mp hd
    exact absurd (hform d hp) (h [d] (by simp) ⟨more, rfl⟩)

end

theorem Mark.spelling_of_keyword? {word : String} {m : Mark} (h : Mark.keyword? word = some m) :
    word = m.spelling ∧ m ≠ .eof := by
  have hall : ∀ e ∈ keywords, e.1 = e.2.spelling ∧ e.2 ≠ .eof := by decide
  exact of_lookup h hall

theorem Mark.spelling_of_symbol? {c : Char} {m : Mark} (h : Mark.symbol? c = some m) :
    m.spelling.toList = [c] ∧ m ≠ .eof := by
  have hall : ∀ e ∈ symbols, e.2.spelling.toList = [e.1] ∧ e.2 ≠ .eof := by decide
  exact of_lookup h hall

theorem isText_wordLexeme {w : List Char} (hstart : w.head?.any isNameStart = true)
    (hall : w.all isNamePart = true) : (wordLexeme (String.ofList w)).IsText w := by
  unfold wordLexeme
  split
  · rename_i m hm
    obtain ⟨hw, heof⟩ := Mark.spelling_of_keyword? hm
    exact ⟨by rw [← hw, String.toList_ofList], heof⟩
  · rename_i hword
    exact ⟨String.toList_ofList.symm, by simp [isName, hstart, hall, hword]⟩

/-! ## The lexer finds the longest lexeme -/

namespace Longest

variable {w rest : List Char}

theorem stop_digit (h : Longest w rest) (hw : ∀ c ∈ w, c.isDigit = true) :
    ∀ d ∈ rest.head?, d.isDigit = false := by
  refine h.stop fun d hd => .inl ⟨by simp, ?_⟩
  simpa [or_imp, forall_and, hd] using hw

theorem stop_word (h : Longest w rest) (hstart : w.head?.any isNameStart = true)
    (hall : w.all isNamePart = true) : ∀ d ∈ rest.head?, isNamePart d = false := by
  refine h.stop fun d hd => .inr ⟨_, isText_wordLexeme ?_ ?_⟩
  · cases w with
    | nil => cases hstart
    | cons c w => exact hstart
  · rw [List.all_append, hall]
    simpa using hd

end Longest

theorem scan_of_munch {cs rest : List Char} {l : Lexeme} (h : Munch cs l rest) :
    scan cs = .ok (l, rest) := by
  obtain ⟨w, rfl, hl, h⟩ := h
  cases l with
  | int n =>
    obtain ⟨⟨hne, hdigits⟩, hle, rfl⟩ := hl
    rw [scan_digits hne hdigits (h.stop_digit hdigits), if_pos hle]
  | string s =>
    obtain ⟨rfl, hs⟩ := hl
    simpa using scan_string hs rest
  | ident x =>
    obtain ⟨rfl, hx⟩ := hl
    simp only [isName, Bool.and_eq_true, beq_iff_eq] at hx
    obtain ⟨⟨hstart, hall⟩, hword⟩ := hx
    rw [scan_word hstart hall (h.stop_word hstart hall), wordLexeme, hword]
  | mark m =>
    obtain ⟨rfl, hm⟩ := hl
    cases m with
    | eof => exact absurd rfl hm
    | assign =>
      have hstop : ∀ d ∈ rest.head?, (d == '=') = false := h.stop fun d hd => by
        rw [beq_iff_eq.mp hd]
        exact .inr ⟨.mark .equal, rfl, by decide⟩
      exact scan_assign fun hnext => absurd (hstop _ hnext) (by decide)
    | openParen | newline | closeParen | comma | plus | minus | star | slash | less | greater
    | equal | concat => rfl
    | _ => exact scan_word (by decide) (by decide) (h.stop_word (by decide) (by decide))

section

variable {c : Char} {cs rest : List Char} {l : Lexeme}

theorem stop_of_dropWhile (p : Char → Bool) (cs : List Char) :
    ∀ c ∈ (cs.dropWhile p).head?, p c = false := by
  intro c hc
  have hstop := List.head?_dropWhile_not p cs
  rw [Option.mem_def.mp hc] at hstop
  exact hstop

theorem munch_of_scanInt (hc : c.isDigit = true) (h : scanInt (c :: cs) = .ok (l, rest)) :
    Munch (c :: cs) l rest := by
  simp only [scanInt] at h
  split at h
  · rename_i hle
    cases h
    refine ⟨_, List.takeWhile_append_dropWhile.symm, ⟨⟨?_, ?_⟩, hle, rfl⟩, ?_⟩
    · simp [hc]
    · exact List.all_eq_true.mp List.all_takeWhile
    · refine longest_of_stop (fun d more hform => ?_) (stop_of_dropWhile _ _)
      rw [List.takeWhile_cons_of_pos hc] at hform
      have hcontinues := continues_of_isForm hform
      rw [Continues, if_pos hc] at hcontinues
      exact hcontinues d (by simp)
  · cases h

theorem munch_of_scanWord (hc : isNameStart c = true) :
    Munch (c :: cs) (scanWord (c :: cs)).1 (scanWord (c :: cs)).2 := by
  refine ⟨_, List.takeWhile_append_dropWhile.symm, isText_wordLexeme ?_ List.all_takeWhile, ?_⟩
  · simp [isNamePart_of_isNameStart hc, hc]
  · refine longest_of_stop (fun d more hform => ?_) (stop_of_dropWhile _ _)
    rw [List.takeWhile_cons_of_pos (isNamePart_of_isNameStart hc)] at hform
    have hcontinues := continues_of_isForm hform
    rw [Continues, isDigit_of_isNameStart hc, if_neg Bool.false_ne_true, if_pos hc] at hcontinues
    exact hcontinues d (by simp)

/-- The closing quotation mark of a string, and what stands behind it. -/
theorem eq_of_dropWhile_quote {q : Char} (h : cs.dropWhile (· != '"') = q :: rest) :
    cs = cs.takeWhile (· != '"') ++ '"' :: rest := by
  have hstop := stop_of_dropWhile (· != '"') cs
  rw [h] at hstop
  obtain rfl : q = '"' := by simpa using hstop q rfl
  rw [← h, List.takeWhile_append_dropWhile]

theorem munch_of_scanString (h : scanString cs = .ok (l, rest)) : Munch ('"' :: cs) l rest := by
  simp only [scanString] at h
  split at h
  · cases h
  · rename_i q rest' hdrop
    cases h
    have hcs := eq_of_dropWhile_quote hdrop
    have hplain := quote_not_mem_takeWhile cs
    refine ⟨'"' :: (cs.takeWhile (· != '"') ++ ['"']), ?_, ⟨by simp, by simpa using hplain⟩, ?_⟩
    · simpa using hcs
    · refine longest_of_closed fun d more hform => ?_
      have hcontinues := continues_of_isForm hform
      simp [Continues, isNameStart] at hcontinues

/-- A mark that nothing goes on behind. -/
theorem munch_mark {m : Mark} {w : List Char} (hm : m.spelling.toList = c :: w) (heof : m ≠ .eof)
    (hclosed : ∀ d more, ¬ Continues c (w ++ d :: more)) :
    Munch (c :: (w ++ rest)) (.mark m) rest :=
  ⟨c :: w, rfl, ⟨hm.symm, heof⟩,
    longest_of_closed fun d more hform => hclosed d more (continues_of_isForm hform)⟩

theorem munch_assign (h : rest.head? ≠ some '=') : Munch ('=' :: rest) (.mark .assign) rest := by
  refine ⟨['='], rfl, ⟨rfl, by decide⟩,
    longest_of_stop (p := (· == '=')) (fun d more hform => ?_) ?_⟩
  · have hcontinues := continues_of_isForm hform
    simp [Continues, isNameStart] at hcontinues
    simp [hcontinues.1]
  · intro d hd
    rw [beq_eq_false_iff_ne]
    rintro rfl
    exact h hd

theorem munch_of_scan (h : scan cs = .ok (l, rest)) (hcs : cs ≠ []) : Munch cs l rest := by
  cases cs with
  | nil => exact absurd rfl hcs
  | cons c cs =>
    simp only [scan] at h
    split at h
    · rename_i hc
      cases h
      subst hc
      refine munch_mark (w := []) rfl (by decide) fun d more => ?_
      simp [Continues, isNameStart]
    split at h
    · rename_i hc
      exact munch_of_scanInt hc h
    split at h
    · rename_i hc
      have hword : Munch (c :: cs) _ _ := munch_of_scanWord hc
      cases h
      exact hword
    split at h
    · rename_i hc
      exact hc ▸ munch_of_scanString h
    split at h
    · rename_i hc
      subst hc
      split at h
      · cases h
        refine munch_mark (w := ['=']) rfl (by decide) fun d more => ?_
        simp [Continues, isNameStart]
      · rename_i hnext
        cases h
        exact munch_assign fun hhead => hnext _ (List.head?_eq_some_iff.mp hhead).choose_spec
    split at h
    · rename_i hc
      subst hc
      split at h
      · cases h
        refine munch_mark (w := ['.']) rfl (by decide) fun d more => ?_
        simp [Continues, isNameStart]
      · cases h
    · rename_i hdigit hname hquote hequal hdot
      split at h
      · rename_i m hm
        cases h
        obtain ⟨hspelling, heof⟩ := Mark.spelling_of_symbol? hm
        refine munch_mark (w := []) hspelling heof fun d more => ?_
        simp [Continues, hdigit, hname, hquote, hequal, hdot]
      · cases h

theorem blames_of_scan {cause : LexicalCause} (h : scan cs = .error cause)
    (hblank : ∀ c ∈ cs.head?, isBlank c = false) : Blames cs cause := by
  cases cs with
  | nil => cases h
  | cons c cs =>
    simp only [scan] at h
    split at h
    · cases h
    split at h
    · rename_i hc
      simp only [scanInt] at h
      split at h
      · cases h
      · cases h
        have hdigits := List.all_eq_true.mp (List.all_takeWhile (p := Char.isDigit) (l := c :: cs))
        have hblames := Blames.integerTooLarge (by simp [hc]) hdigits
          (stop_of_dropWhile Char.isDigit (c :: cs))
        rwa [List.takeWhile_append_dropWhile] at hblames
    split at h
    · cases h
    split at h
    · rename_i hc
      subst hc
      simp only [scanString] at h
      split at h
      · cases h
        exact .unclosedString
      · cases h
    split at h
    · split at h <;> cases h
    split at h
    · rename_i hc
      subst hc
      split at h <;> cases h
      exact .loneDot
    · rename_i hdigit hname hquote hequal hdot
      split at h
      · cases h
      · cases h
        exact .badCharacter (hblank c rfl) (by simpa using hdigit) hquote hdot

end

/-- The lexer finds the longest lexeme, and the end of the text where there is nothing. -/
theorem scan_eq_ok_iff {cs rest : List Char} {l : Lexeme} :
    scan cs = .ok (l, rest) ↔ Munch cs l rest ∨ (cs = [] ∧ l = .mark .eof ∧ rest = []) := by
  constructor
  · intro h
    by_cases hcs : cs = []
    · subst hcs
      cases h
      exact .inr ⟨rfl, rfl, rfl⟩
    · exact .inl (munch_of_scan h hcs)
  · rintro (h | ⟨rfl, rfl, rfl⟩)
    · exact scan_of_munch h
    · rfl

theorem Munch.ne_eof {cs rest : List Char} {l : Lexeme} (h : Munch cs l rest) :
    l ≠ .mark .eof := by
  rintro rfl
  obtain ⟨w, -, hl, -⟩ := h
  exact hl.2 rfl

/-! ## Whole texts -/

/-- How many line ends the lexemes span. -/
def lineBreaks : List Lexeme → Nat
  | [] => 0
  | l :: ls => l.lineBreaks + lineBreaks ls

theorem feed_of_munches {cs left : List Char} {ls : List Lexeme} (h : Munches cs ls left)
    (hleft : left = []) (line : Nat) : ∃ ts, (⟨cs, line⟩ : Cursor).feed = ⟨ts, none⟩ ∧
      ts.map Token.lexeme = ls ++ [.mark .eof] := by
  induction h generalizing line with
  | @blanks bs left hbs =>
    subst hleft
    exact ⟨_, Cursor.feed_of_eof (Cursor.next_of_scan hbs rfl line) rfl, rfl⟩
  | @lexeme bs cs l rest ls left hbs hmunch _ ih =>
    obtain ⟨ts, hfeed, hts⟩ := ih hleft (line + l.lineBreaks)
    have hnext := Cursor.next_of_scan hbs (scan_of_munch hmunch) line
    refine ⟨⟨l, line⟩ :: ts, ?_, by simp [hts]⟩
    rw [Cursor.feed_of_token hnext hmunch.ne_eof, hfeed]

/-- All blanks in front. -/
theorem munches_blanks (cs : List Char) : Munches cs [] (cs.dropWhile isBlank) := by
  have hdivide : Munches (cs.takeWhile isBlank ++ cs.dropWhile isBlank) [] _ :=
    .blanks (List.all_eq_true.mp List.all_takeWhile)
  rwa [List.takeWhile_append_dropWhile] at hdivide

theorem Munches.cons {cs rest left : List Char} {l : Lexeme} {ls : List Lexeme}
    (h : Munch (cs.dropWhile isBlank) l rest) (hrest : Munches rest ls left) :
    Munches cs (l :: ls) left := by
  have hdivide : Munches (cs.takeWhile isBlank ++ cs.dropWhile isBlank) _ _ :=
    .lexeme (List.all_eq_true.mp List.all_takeWhile) h hrest
  rwa [List.takeWhile_append_dropWhile] at hdivide

/-- A token that is found, the end of the text apart, is the longest lexeme behind the blanks. -/
theorem Cursor.munch_of_next {c c' : Cursor} {t : Token} (h : c.next = (.ok t, c'))
    (ht : t.lexeme ≠ .mark .eof) :
    Munch (c.rest.dropWhile isBlank) t.lexeme c'.rest ∧ c'.line = c.line + t.lexeme.lineBreaks := by
  obtain ⟨hscan, -, hline⟩ := scan_of_next h
  rcases scan_eq_ok_iff.mp hscan with hmunch | ⟨-, heof, -⟩
  · exact ⟨hmunch, hline⟩
  · exact absurd heof ht

/-- The lexer divides the text, up to where no lexeme begins. -/
theorem munches_of_feed (c : Cursor) : ∃ ls left, Munches c.rest ls left ∧
    ((left = [] ∧ c.feed.failure = none ∧ c.feed.tokens.map Token.lexeme = ls ++ [.mark .eof]) ∨
      (¬ ∃ l rest, Munch left l rest) ∧ ∃ cause, Blames left cause ∧
        c.feed.failure = some (.lexical (c.line + lineBreaks ls) cause)) := by
  fun_induction Cursor.feed c with
  -- The lexer divides at every token; where it stops no other division goes on either, since the
  -- longest lexeme is found wherever there is one.
  | case1 c e c' hc =>
    obtain ⟨cause, hscan, rfl, -⟩ := Cursor.scan_of_next_error hc
    have hblames := blames_of_scan hscan (stop_of_dropWhile _ _)
    refine ⟨[], _, munches_blanks c.rest, .inr ⟨?_, cause, hblames, rfl⟩⟩
    rintro ⟨l, rest, hmunch⟩
    rw [scan_of_munch hmunch] at hscan
    cases hscan
  | case2 c t c' hc heof =>
    obtain ⟨hscan, -, -⟩ := Cursor.scan_of_next hc
    rcases scan_eq_ok_iff.mp hscan with hmunch | ⟨hnil, -, -⟩
    · exact absurd heof hmunch.ne_eof
    · exact ⟨[], _, munches_blanks c.rest, .inl ⟨hnil, rfl, by simpa using heof⟩⟩
  | case3 c t c' hc hne hlt more ih =>
    obtain ⟨ls, left, hrest, houtcome⟩ := ih
    obtain ⟨hmunch, hline⟩ := Cursor.munch_of_next hc hne
    refine ⟨t.lexeme :: ls, left, .cons hmunch hrest, ?_⟩
    rcases houtcome with ⟨hleft, hnone, hlexemes⟩ | ⟨hstuck, cause, hblames, hsome⟩
    · exact .inl ⟨hleft, hnone, by simp [more, hlexemes]⟩
    · refine .inr ⟨hstuck, cause, hblames, ?_⟩
      rw [hline, Nat.add_assoc] at hsome
      exact hsome

/-- The tokens of a text are its division into blanks and longest lexemes. Where there is none, the
text is divided up to a first place where no lexeme begins, and the error is of that place. -/
theorem tokenize_munches (text : String) :
    (∀ ls, (∃ ts, tokenize text = .ok ts ∧ ts.map Token.lexeme = ls ++ [.mark .eof]) ↔
      Munches text.toList ls []) ∧
    ((¬ ∃ ls, Munches text.toList ls []) →
      ∃ ls left cause, Munches text.toList ls left ∧ (¬ ∃ l rest, Munch left l rest) ∧
        Blames left cause ∧ tokenize text = .error (.lexical (1 + lineBreaks ls) cause)) := by
  obtain ⟨ls, left, hdivide, houtcome⟩ := munches_of_feed (.ofString text)
  constructor
  · intro ls'
    constructor
    · rintro ⟨ts, hts, hlexemes⟩
      rcases houtcome with ⟨rfl, hnone, hfeed⟩ | ⟨-, cause, -, hsome⟩
      · simp only [tokenize, Feed.toExcept, hnone] at hts
        cases hts
        rw [hfeed] at hlexemes
        rw [← List.append_cancel_right hlexemes]
        exact hdivide
      · simp only [tokenize, Feed.toExcept, hsome] at hts
        cases hts
    · intro h
      obtain ⟨ts, hfeed, hts⟩ := feed_of_munches h rfl 1
      refine ⟨ts, ?_, hts⟩
      have hfeed' : (Cursor.ofString text).feed = ⟨ts, none⟩ := hfeed
      rw [tokenize, hfeed']
      rfl
  · intro hno
    rcases houtcome with ⟨rfl, -, -⟩ | ⟨hstuck, cause, hblames, hsome⟩
    · exact absurd ⟨ls, hdivide⟩ hno
    · refine ⟨ls, left, cause, hdivide, hstuck, hblames, ?_⟩
      simp only [tokenize, Feed.toExcept, hsome]
      rfl

example : (tokenize "1abc===..\t7").toOption.map (·.map Token.lexeme) =
    some [.int 1, .ident "abc", .mark .equal, .mark .assign, .mark .concat, .int 7,
      .mark .eof] := by
  decide +kernel

end Onepass
