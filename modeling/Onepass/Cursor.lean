import Onepass.Error

/-!
# Onepass.Cursor

Tokens from a text, one at a time.

* `scan`        -- the lexeme that a text begins with: the longest run of its class.
* `Cursor.next` -- the next token, behind blanks. Where none begins the cursor moves over the
  blanks only, so the same failure comes again; at the end of the text so does the end.
* `Cursor.feed` -- all tokens up to the end of the text or up to the first failure.
-/

namespace Onepass

/-- Blanks stand between tokens; a line end is a token. -/
def isBlank (c : Char) : Bool := c = ' ' || c = '\t' || c = '\r'

def isNameStart (c : Char) : Bool := c.isAlpha || c = '_'

def isNamePart (c : Char) : Bool := c.isAlphanum || c = '_'

/-- The number that decimal digits stand for. -/
def decimal (digits : List Char) : Nat :=
  digits.foldl (fun n c => 10 * n + (c.toNat - '0'.toNat)) 0

/-- A run of letters is a reserved word or a name. -/
def wordLexeme (word : String) : Lexeme :=
  match Mark.keyword? word with
  | some m => .mark m
  | none => .ident word

def scanInt (cs : List Char) : Except LexicalCause (Lexeme × List Char) :=
  let digits := cs.takeWhile Char.isDigit
  if decimal digits ≤ Word.largest then
    .ok (.int (Word.ofNat (decimal digits)), cs.dropWhile Char.isDigit)
  else
    .error (.integerTooLarge (String.ofList digits))

def scanWord (cs : List Char) : Lexeme × List Char :=
  (wordLexeme (String.ofList (cs.takeWhile isNamePart)), cs.dropWhile isNamePart)

/-- The string that begins behind an opening quotation mark. -/
def scanString (cs : List Char) : Except LexicalCause (Lexeme × List Char) :=
  match cs.dropWhile (· != '"') with
  | [] => .error .unclosedString
  | _ :: rest => .ok (.string (String.ofList (cs.takeWhile (· != '"'))), rest)

/-- The lexeme at the front of a text that does not begin with a blank, and the rest. -/
def scan : List Char → Except LexicalCause (Lexeme × List Char)
  | [] => .ok (.mark .eof, [])
  | c :: rest =>
    if c = '\n' then .ok (.mark .newline, rest)
    else if c.isDigit then scanInt (c :: rest)
    else if isNameStart c then .ok (scanWord (c :: rest))
    else if c = '"' then scanString rest
    else if c = '=' then
      match rest with
      | '=' :: rest' => .ok (.mark .equal, rest')
      | _ => .ok (.mark .assign, rest)
    else if c = '.' then
      match rest with
      | '.' :: rest' => .ok (.mark .concat, rest')
      | _ => .error (.loneDot rest.head?)
    else
      match Mark.symbol? c with
      | some m => .ok (.mark m, rest)
      | none => .error (.badCharacter c)

/-- A place in a text. -/
structure Cursor where
  rest : List Char
  line : Nat
  deriving DecidableEq, Repr

/-- Tokens in order, and the failure that ended them. -/
structure Feed where
  tokens : List Token
  failure : Option Error
  deriving DecidableEq, Repr

namespace Cursor

/-- The front of a text. Lines count from 1. -/
def ofString (text : String) : Cursor := ⟨text.toList, 1⟩

def next (c : Cursor) : Except Error Token × Cursor :=
  let rest := c.rest.dropWhile isBlank
  match scan rest with
  | .ok (lexeme, rest') => (.ok ⟨lexeme, c.line⟩, ⟨rest', c.line + lexeme.lineBreaks⟩)
  | .error cause => (.error (.lexical c.line cause), ⟨rest, c.line⟩)

end Cursor

theorem length_dropWhile_le {α : Type} (p : α → Bool) (xs : List α) :
    (xs.dropWhile p).length ≤ xs.length := by
  induction xs with
  | nil => simp
  | cons x xs ih =>
    simp only [List.dropWhile_cons]
    split
    · exact Nat.le_succ_of_le ih
    · simp

theorem length_dropWhile_lt {α : Type} {p : α → Bool} {x : α} (xs : List α) (h : p x = true) :
    ((x :: xs).dropWhile p).length < (x :: xs).length := by
  simp only [List.dropWhile_cons, h, if_true, List.length_cons]
  exact Nat.lt_succ_of_le (length_dropWhile_le p xs)

theorem isNamePart_of_isNameStart {c : Char} (h : isNameStart c = true) : isNamePart c = true := by
  simp only [isNameStart, isNamePart, Char.isAlphanum, Bool.or_eq_true] at *
  rcases h with h | h
  · exact .inl (.inl h)
  · exact .inr h

/-- A lexeme other than the end of the text takes at least one character. -/
theorem length_scan_lt {cs rest : List Char} {l : Lexeme} (h : scan cs = .ok (l, rest))
    (hl : l ≠ .mark .eof) : rest.length < cs.length := by
  cases cs with
  | nil =>
    simp only [scan, Except.ok.injEq, Prod.mk.injEq] at h
    exact absurd h.1.symm hl
  | cons c cs =>
    simp only [scan] at h
    split at h
    · cases h; simp
    split at h
    · rename_i hd
      simp only [scanInt] at h
      split at h
      · cases h; exact length_dropWhile_lt cs hd
      · cases h
    split at h
    · rename_i hn
      simp only [scanWord, Except.ok.injEq, Prod.mk.injEq] at h
      rw [← h.2]
      exact length_dropWhile_lt cs (isNamePart_of_isNameStart hn)
    split at h
    · simp only [scanString] at h
      split at h
      · cases h
      · rename_i q rest' hr
        cases h
        have := length_dropWhile_le (· != '"') cs
        rw [hr] at this
        simp only [List.length_cons] at *
        omega
    split at h
    · split at h <;> cases h <;> simp only [List.length_cons] <;> omega
    split at h
    · split at h <;> cases h
      simp only [List.length_cons]
      omega
    · split at h <;> cases h
      simp

namespace Cursor

theorem length_next_lt {c c' : Cursor} {t : Token} (h : c.next = (.ok t, c'))
    (ht : t.lexeme ≠ .mark .eof) : c'.rest.length < c.rest.length := by
  simp only [next] at h
  split at h
  · rename_i lexeme rest' hs
    cases h
    exact Nat.lt_of_lt_of_le (length_scan_lt hs ht) (length_dropWhile_le _ _)
  · cases h

def feed (c : Cursor) : Feed :=
  match h : c.next with
  | (.error e, _) => ⟨[], some e⟩
  | (.ok t, c') =>
    if ht : t.lexeme = .mark .eof then ⟨[t], none⟩
    else
      have := length_next_lt h ht
      let more := c'.feed
      ⟨t :: more.tokens, more.failure⟩
termination_by c.rest.length

theorem feed_of_error {c c' : Cursor} {e : Error} (h : c.next = (.error e, c')) :
    c.feed = ⟨[], some e⟩ := by
  rw [feed]
  split
  · rename_i h'
    rw [h] at h'
    cases h'
    rfl
  · rename_i h'
    rw [h] at h'
    cases h'

theorem feed_of_eof {c c' : Cursor} {t : Token} (h : c.next = (.ok t, c'))
    (ht : t.lexeme = .mark .eof) : c.feed = ⟨[t], none⟩ := by
  rw [feed]
  split
  · rename_i h'
    rw [h] at h'
    cases h'
  · rename_i h'
    rw [h] at h'
    cases h'
    rw [dif_pos ht]

theorem feed_of_token {c c' : Cursor} {t : Token} (h : c.next = (.ok t, c'))
    (ht : t.lexeme ≠ .mark .eof) : c.feed = ⟨t :: c'.feed.tokens, c'.feed.failure⟩ := by
  rw [feed]
  split
  · rename_i h'
    rw [h] at h'
    cases h'
  · rename_i h'
    rw [h] at h'
    cases h'
    rw [dif_neg ht]

end Cursor

namespace Feed

/-- All tokens of a text, or the failure that ends them. -/
def toExcept (f : Feed) : Except Error (List Token) :=
  match f.failure with
  | some e => .error e
  | none => .ok f.tokens

end Feed

/-- The tokens of a text up to its end, comments not looked for. -/
def tokenize (text : String) : Except Error (List Token) :=
  (Cursor.ofString text).feed.toExcept

end Onepass
