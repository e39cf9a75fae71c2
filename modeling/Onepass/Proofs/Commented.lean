import Mathlib.Logic.Relation
import Onepass.Proofs.Munch

/-!
# Onepass.Proofs.Commented

Comments can be removed first, or be passed over where a token could begin. The first way counts
quotation marks, the second one knows of tokens only; they find the same tokens on the same lines.

* `Commented.next` -- the next token of a text with comments in it.
* `scan_strip` -- without comments, a text begins with the same lexeme as with them.
* `tokenize_strip` -- the tokens are the same, and so is the error. Only what is said to follow a
  lone dot may be a different character, if a comment follows it.
-/

namespace Onepass

namespace Commented

/-- A comment goes up to the end of its line, which stays. -/
def skipComment : List Char → List Char
  | '-' :: '-' :: rest => rest.dropWhile (· != '\n')
  | cs => cs

/-- The next token, behind blanks and at most one comment, since a comment ends at a line end. -/
def next (c : Cursor) : Except Error Token × Cursor :=
  Cursor.next { c with rest := skipComment (c.rest.dropWhile isBlank) }

theorem length_skipComment_le (cs : List Char) : (skipComment cs).length ≤ cs.length := by
  unfold skipComment
  split
  · rename_i rest
    exact Nat.le_succ_of_le (Nat.le_succ_of_le (length_dropWhile_le _ rest))
  · exact Nat.le_refl _

theorem length_next_lt {c c' : Cursor} {t : Token} (h : next c = (.ok t, c'))
    (ht : t.lexeme ≠ .mark .eof) : c'.rest.length < c.rest.length := by
  have hskip := length_skipComment_le (c.rest.dropWhile isBlank)
  have hblanks := length_dropWhile_le isBlank c.rest
  exact Nat.lt_of_lt_of_le (Cursor.length_next_lt h ht) (Nat.le_trans hskip hblanks)

def feed (c : Cursor) : Feed :=
  match h : next c with
  | (.error e, _) => ⟨[], some e⟩
  | (.ok t, c') =>
    if ht : t.lexeme = .mark .eof then ⟨[t], none⟩
    else
      have := length_next_lt h ht
      let more := feed c'
      ⟨t :: more.tokens, more.failure⟩
termination_by c.rest.length

/-- The tokens of a text with comments in it. -/
def tokenize (text : String) : Except Error (List Token) := (feed (.ofString text)).toExcept

/-- Tokens are found in turn from the first place to the second one. -/
abbrev Comes : Cursor → Cursor → Prop :=
  Relation.ReflTransGen fun c c' => ∃ t, next c = (.ok t, c')

/-- A lone dot stands here, and a comment directly behind it. -/
def DotComment (c : Cursor) (after : List Char) : Prop :=
  c.rest.dropWhile isBlank = '.' :: '-' :: '-' :: after

theorem skipComment_cases (cs : List Char) :
    skipComment cs = cs ∨ ∀ c ∈ (skipComment cs).head?, c = '\n' := by
  unfold skipComment
  split
  · right
    intro c hc
    simpa using stop_of_dropWhile (· != '\n') _ c hc
  · exact .inl rfl

theorem skipComment_eq {cs : List Char} (h : ∀ after, cs ≠ '-' :: '-' :: after) :
    skipComment cs = cs := by
  unfold skipComment
  split
  · exact absurd rfl (h _)
  · rfl

/-- What stands in front when a comment was passed over begins no other. -/
theorem not_dashes_of_skipComment {c : Char} {cs rest : List Char}
    (h : skipComment cs = c :: rest) : ¬ (c = '-' ∧ rest.head? = some '-') := by
  rintro ⟨rfl, hhead⟩
  unfold skipComment at h
  split at h
  · have hstop := stop_of_dropWhile (· != '\n') _ '-' (by rw [h]; rfl)
    cases hstop
  · rename_i hno
    obtain ⟨rest', rfl⟩ := List.head?_eq_some_iff.mp hhead
    exact hno rest' h

/-- One comment is all there is in front of a line end. -/
theorem skipComment_skipComment (cs : List Char) :
    skipComment (skipComment cs) = skipComment cs :=
  skipComment_eq fun _ h => not_dashes_of_skipComment h ⟨rfl, rfl⟩

theorem dropWhile_skipComment (cs : List Char) :
    (skipComment (cs.dropWhile isBlank)).dropWhile isBlank =
      skipComment (cs.dropWhile isBlank) := by
  have hstop : ∀ c ∈ (skipComment (cs.dropWhile isBlank)).head?, isBlank c = false := by
    intro c hc
    rcases skipComment_cases (cs.dropWhile isBlank) with hsame | hline
    · exact stop_of_dropWhile isBlank cs c (hsame ▸ hc)
    · rw [hline c hc]
      decide
  cases h : skipComment (cs.dropWhile isBlank) with
  | nil => rfl
  | cons c rest => rw [List.dropWhile_cons_of_neg (by simp [hstop c (by rw [h]; rfl)])]

end Commented

open Commented

/-! ## Texts without their comments -/

namespace Comment

theorem stripFrom_comment (cs : List Char) :
    stripFrom .comment cs = stripFrom .code (cs.dropWhile (· != '\n')) := by
  induction cs with
  | nil => rfl
  | cons c cs ih =>
    by_cases hc : c = '\n'
    · simp [stripFrom, hc]
    · simp [stripFrom, hc, ih]

theorem stripFrom_skipComment (cs : List Char) :
    stripFrom .code (skipComment cs) = stripFrom .code cs := by
  unfold skipComment
  split
  · simp [stripFrom, stripFrom_comment]
  · rfl

/-- A character that begins no string and no comment. -/
theorem stripFrom_cons {c : Char} {cs : List Char} (hquote : c ≠ '"')
    (hdash : ¬ (c = '-' ∧ cs.head? = some '-')) :
    stripFrom .code (c :: cs) = c :: stripFrom .code cs := by
  rw [stripFrom, if_neg hquote, if_neg hdash]

/-- A comment leaves its line end, and the character in front of anything else stays. -/
theorem head?_stripFrom (cs : List Char) :
    (stripFrom .code cs).head? = (skipComment cs).head? := by
  rw [← stripFrom_skipComment]
  cases h : skipComment cs with
  | nil => rfl
  | cons c rest =>
    by_cases hquote : c = '"'
    · simp [stripFrom, hquote]
    · rw [stripFrom_cons hquote (not_dashes_of_skipComment h), List.head?_cons, List.head?_cons]

/-- A run of characters that begins no string and no comment is found in what is left as well. -/
theorem span_stripFrom {p : Char → Bool} (hp : ∀ c ∈ ['"', '-', '\n'], p c = false)
    (cs : List Char) :
    (stripFrom .code cs).takeWhile p = cs.takeWhile p ∧
      (stripFrom .code cs).dropWhile p = stripFrom .code (cs.dropWhile p) := by
  have hrun : ∀ c ∈ cs.takeWhile p, p c = true := List.all_eq_true.mp List.all_takeWhile
  have hstop : ∀ c ∈ (stripFrom .code (cs.dropWhile p)).head?, p c = false := by
    intro c hc
    rw [head?_stripFrom] at hc
    rcases skipComment_cases (cs.dropWhile p) with hsame | hline
    · exact stop_of_dropWhile p cs c (hsame ▸ hc)
    · exact hp c (by simp [hline c hc])
  have hplain : ∀ c ∈ cs.takeWhile p, c ≠ '"' ∧ c ≠ '-' := by
    intro c hc
    constructor <;> rintro rfl
    · exact absurd (hrun _ hc) (by simp [hp])
    · exact absurd (hrun _ hc) (by simp [hp])
  have hsplit : stripFrom .code cs = cs.takeWhile p ++ stripFrom .code (cs.dropWhile p) := by
    rw [← stripFrom_plain hplain, List.takeWhile_append_dropWhile]
  rw [hsplit]
  exact ⟨takeWhile_append_stop hrun hstop, dropWhile_append_stop hrun hstop⟩

/-- A text that ends in a string keeps all its characters. -/
theorem stripFrom_open {cs : List Char} (h : '"' ∉ cs) : stripFrom .quoted cs = cs := by
  induction cs with
  | nil => rfl
  | cons c cs ih =>
    simp only [List.mem_cons, not_or] at h
    rw [stripFrom, if_neg fun hc => h.1 hc.symm, ih h.2]

/-- A string is found with the same characters, dashes among them. -/
theorem scanString_stripFrom (cs : List Char) :
    scanString (stripFrom .quoted cs) =
      (scanString cs).map fun found => (found.1, stripFrom .code found.2) := by
  have hplain := quote_not_mem_takeWhile cs
  cases hdrop : cs.dropWhile (· != '"') with
  | nil =>
    have hcs := List.takeWhile_append_dropWhile (p := (· != '"')) (l := cs)
    rw [hdrop, List.append_nil] at hcs
    rw [stripFrom_open (hcs ▸ hplain), scanString, hdrop]
    rfl
  | cons q rest =>
    have hrun : ∀ c ∈ cs.takeWhile (· != '"'), (c != '"') = true :=
      List.all_eq_true.mp List.all_takeWhile
    have hquote : ∀ c ∈ ('"' :: stripFrom .code rest).head?, (c != '"') = false := by simp
    have hleft : stripFrom .quoted cs =
        cs.takeWhile (· != '"') ++ '"' :: stripFrom .code rest := by
      rw [← stripFrom_quoted hplain, ← eq_of_dropWhile_quote hdrop]
    rw [hleft, scanString, takeWhile_append_stop hrun hquote, dropWhile_append_stop hrun hquote,
      scanString, hdrop]
    rfl

theorem scanInt_stripFrom (cs : List Char) :
    scanInt (stripFrom .code cs) =
      (scanInt cs).map fun found => (found.1, stripFrom .code found.2) := by
  obtain ⟨htake, hdrop⟩ := span_stripFrom (p := Char.isDigit) (by simp) cs
  simp only [scanInt, htake, hdrop]
  split <;> rfl

theorem scanWord_stripFrom (cs : List Char) :
    scanWord (stripFrom .code cs) = ((scanWord cs).1, stripFrom .code (scanWord cs).2) := by
  obtain ⟨htake, hdrop⟩ := span_stripFrom (p := isNamePart) (by simp [isNamePart]) cs
  simp only [scanWord, htake, hdrop]

theorem head?_of_stripFrom {c : Char} {cs : List Char} (hc : c ≠ '\n')
    (h : (stripFrom .code cs).head? = some c) : cs.head? = some c := by
  rw [head?_stripFrom] at h
  rcases skipComment_cases cs with hsame | hline
  · rwa [← hsame]
  · exact absurd (hline c h) hc

theorem scan_equal_stripFrom (cs : List Char) :
    scan ('=' :: stripFrom .code cs) =
      (scan ('=' :: cs)).map fun found => (found.1, stripFrom .code found.2) := by
  by_cases h : cs.head? = some '='
  · obtain ⟨rest, rfl⟩ := List.head?_eq_some_iff.mp h
    rw [stripFrom_cons (by decide) (by simp)]
    rfl
  · rw [scan_assign h, scan_assign (mt (head?_of_stripFrom (by decide)) h)]
    rfl

theorem scan_dot {cs : List Char} (h : cs.head? ≠ some '.') :
    scan ('.' :: cs) = .error (.loneDot cs.head?) := by
  cases cs with
  | nil => rfl
  | cons c cs =>
    have hc : c ≠ '.' := by simpa using h
    simp [scan, isNameStart, hc]

/-- A dot that is alone stays alone, but what follows it may have been a comment. -/
theorem scan_dot_stripFrom {cs : List Char} (h : cs.head? ≠ some '.') :
    scan ('.' :: stripFrom .code cs) = .error (.loneDot (skipComment cs).head?) := by
  rw [scan_dot (mt (head?_of_stripFrom (by decide)) h), head?_stripFrom]

/-- A text that begins with no comment begins with the same lexeme when comments are removed. Not
so a lone dot: what is said to follow it could be the dash of a comment. -/
theorem scan_strip {cs : List Char} (hfront : skipComment cs = cs)
    (hdot : ∀ after, cs ≠ '.' :: '-' :: '-' :: after) :
    scan (stripFrom .code cs) =
      (scan cs).map fun found => (found.1, stripFrom .code found.2) := by
  cases cs with
  | nil => rfl
  | cons c cs =>
    have hdash := not_dashes_of_skipComment hfront
    by_cases hquote : c = '"'
    · subst hquote
      simpa [stripFrom, scan, isNameStart] using scanString_stripFrom cs
    have hkept := stripFrom_cons hquote hdash
    -- For these two the character behind counts, and it may be the dash of a comment.
    by_cases hequal : c = '='
    · subst hequal
      rw [hkept, scan_equal_stripFrom]
    by_cases hlone : c = '.'
    · subst hlone
      rw [hkept]
      by_cases hnext : cs.head? = some '.'
      · obtain ⟨rest, rfl⟩ := List.head?_eq_some_iff.mp hnext
        rw [stripFrom_cons (by decide) (by simp)]
        rfl
      · rw [scan_dot_stripFrom hnext, scan_dot hnext, skipComment_eq fun after hcs =>
          hdot after (by rw [hcs])]
        rfl
    · rw [hkept]
      simp only [scan, if_neg hquote, if_neg hequal, if_neg hlone]
      split
      · rfl
      split
      · rw [← hkept, scanInt_stripFrom]
      split
      · rw [← hkept, scanWord_stripFrom]
        rfl
      · cases Mark.symbol? c <;> rfl

end Comment

/-! ## The two ways through a text -/

/-- The same place when the comments behind it are removed. -/
def Cursor.strip (c : Cursor) : Cursor := ⟨Comment.stripFrom .code c.rest, c.line⟩

section

variable {c : Cursor} {after : List Char}

theorem dropWhile_strip (c : Cursor) : c.strip.rest.dropWhile isBlank =
    Comment.stripFrom .code (skipComment (c.rest.dropWhile isBlank)) := by
  rw [Comment.stripFrom_skipComment]
  exact (Comment.span_stripFrom (by simp [isBlank]) c.rest).2

theorem next_strip (hdot : ∀ after, ¬ DotComment c after) :
    c.strip.next = ((Commented.next c).1, (Commented.next c).2.strip) := by
  have hdash : ∀ after, skipComment (c.rest.dropWhile isBlank) ≠ '.' :: '-' :: '-' :: after := by
    intro after hafter
    rcases skipComment_cases (c.rest.dropWhile isBlank) with hsame | hline
    · exact hdot after (hsame.symm.trans hafter)
    · rw [hafter] at hline
      exact absurd (hline '.' rfl) (by decide)
  have hscan := Comment.scan_strip (skipComment_skipComment _) hdash
  simp only [Commented.next, Cursor.next, dropWhile_strip, dropWhile_skipComment, hscan]
  cases scan (skipComment (c.rest.dropWhile isBlank)) <;> rfl

/-- Only what is said to follow the dot is different. -/
theorem next_dotComment (h : DotComment c after) :
    (Commented.next c).1 = .error (.lexical c.line (.loneDot (some '-'))) ∧
      c.strip.next.1 = .error (.lexical c.line (.loneDot (after.dropWhile (· != '\n')).head?)) := by
  have hfront : skipComment (c.rest.dropWhile isBlank) = '.' :: '-' :: '-' :: after := by
    rw [h]
    rfl
  have hscan : scan (Comment.stripFrom .code ('.' :: '-' :: '-' :: after)) =
      .error (.loneDot (after.dropWhile (· != '\n')).head?) := by
    rw [Comment.stripFrom_cons (by decide) (by simp), Comment.scan_dot_stripFrom (by simp)]
    rfl
  constructor
  · rw [Commented.next, hfront]
    rfl
  · simp only [Cursor.next, dropWhile_strip, hfront, hscan]
    rfl

theorem not_dotComment_of_ok {t : Token} {c' : Cursor} (h : Commented.next c = (.ok t, c')) :
    ∀ after, ¬ DotComment c after := by
  intro after hafter
  have hraw := (next_dotComment hafter).1
  rw [h] at hraw
  cases hraw

end

/-- The feeds are the same, unless a lone dot with a comment behind it ends them. -/
theorem feed_strip (c : Cursor) : c.strip.feed = Commented.feed c ∨
    ∃ c' after ts, Comes c c' ∧ DotComment c' after ∧
      Commented.feed c = ⟨ts, some (.lexical c'.line (.loneDot (some '-')))⟩ ∧
      c.strip.feed =
        ⟨ts, some (.lexical c'.line (.loneDot (after.dropWhile (· != '\n')).head?))⟩ := by
  fun_induction Commented.feed c with
  | case1 c e c' hc =>
    -- Only here can the two ways part: a token that is found is no lone dot.
    by_cases hdot : ∃ after, DotComment c after
    · obtain ⟨after, hafter⟩ := hdot
      obtain ⟨hraw, hleft⟩ := next_dotComment hafter
      rw [hc] at hraw
      cases hraw
      exact .inr ⟨c, after, [], .refl, hafter, rfl, Cursor.feed_of_error (Prod.ext hleft rfl)⟩
    · have hnext := next_strip (not_exists.mp hdot)
      rw [hc] at hnext
      exact .inl (Cursor.feed_of_error hnext)
  | case2 c t c' hc heof =>
    have hnext := next_strip (not_dotComment_of_ok hc)
    rw [hc] at hnext
    exact .inl (Cursor.feed_of_eof hnext heof)
  | case3 c t c' hc hne hlt more ih =>
    have hnext := next_strip (not_dotComment_of_ok hc)
    rw [hc] at hnext
    rw [Cursor.feed_of_token hnext hne]
    rcases ih with hsame | ⟨c'', after, ts, hcomes, hafter, hraw, hleft⟩
    · exact .inl (by rw [hsame])
    · refine .inr ⟨c'', after, t :: ts, .head ⟨t, hc⟩ hcomes, hafter, ?_, ?_⟩
      · simp only [more, hraw]
      · simp only [hleft]

/-- Comments removed first or passed over between tokens, the tokens are the same, with their
payloads and lines, and so is the error of a text that has none. A lone dot with a comment directly
behind it is an error both ways and on the same line, but what is said to follow the dot is the
first dash in one of them and what the comment leaves in the other. -/
theorem tokenize_strip (source : String) :
    (∀ ts, tokenize (Comment.strip source) = .ok ts ↔ Commented.tokenize source = .ok ts) ∧
    ∀ e, Commented.tokenize source = .error e → tokenize (Comment.strip source) = .error e ∨
      ∃ c after, Comes (.ofString source) c ∧ DotComment c after ∧
        e = .lexical c.line (.loneDot (some '-')) ∧
        tokenize (Comment.strip source) =
          .error (.lexical c.line (.loneDot (after.dropWhile (· != '\n')).head?)) := by
  have hstrip : Cursor.ofString (Comment.strip source) = (Cursor.ofString source).strip := by
    simp [Cursor.ofString, Cursor.strip, Comment.strip]
  rw [tokenize, Commented.tokenize, hstrip]
  rcases feed_strip (.ofString source) with hsame | ⟨c, after, ts, hcomes, hafter, hraw, hleft⟩
  · rw [hsame]
    exact ⟨fun _ => .rfl, fun e he => .inl he⟩
  · rw [hraw, hleft]
    constructor
    · intro ts'
      constructor <;> intro h <;> cases h
    · intro e he
      cases he
      exact .inr ⟨c, after, hcomes, hafter, rfl, rfl⟩

example : Commented.tokenize "\"a--\" -- \"\n" =
    .ok [⟨.string "a--", 1⟩, ⟨.mark .newline, 1⟩, ⟨.mark .eof, 2⟩] := by
  decide +kernel

example : Commented.tokenize "x .-- y" = .error (.lexical 1 (.loneDot (some '-'))) ∧
    tokenize (Comment.strip "x .-- y") = .error (.lexical 1 (.loneDot none)) := by
  decide +kernel

end Onepass
