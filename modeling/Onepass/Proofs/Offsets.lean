import Mathlib.Data.List.DropRight
import Onepass.Proofs.Lines

/-!
# Onepass.Proofs.Offsets

The lexer over a text that stays where it is. A place in the text is a number of characters, the
text from a place on exists only for places within the text, and how far a number or a word goes
is told by its bytes. `next?` has no result where a place outside the text is asked for.

It is the lexer that takes what is left of the text (`next?_eq`), so it never fails to have a
result, and all that is known about the one holds of the other.

* `scan?_eq`       -- the lexeme at a place is the one that the rest of the text begins with.
* `exists_call`    -- one call: where it starts, where it ends.
* `again_of_stops` -- the end of the text and an error come again at the place they lead to.
* `calls_of_text`  -- any number of calls.
-/

namespace Onepass
namespace Offsets

/-- A place in a text, by the number of characters in front of it, and its line. -/
structure Spot where
  index : Nat
  line : Nat
  deriving DecidableEq, Repr

/-- The text from the index on. Behind the end of the text there is none. -/
def tail? (text : List Char) (i : Nat) : Option (List Char) :=
  if i ≤ text.length then some (text.drop i) else none

/-- The bytes of the characters. -/
def bytes (cs : List Char) : Nat := (String.ofList cs).utf8ByteSize

def skipBlanks (text : List Char) (i : Nat) : Nat :=
  match h : text[i]? with
  | some c =>
    have := (List.getElem?_eq_some_iff.mp h).1
    if isBlank c then skipBlanks text (i + 1) else i
  | none => i
termination_by text.length - i

/-- What is found at a place, and the place behind it. -/
abbrev Found := Except LexicalCause Lexeme × Nat

def scanInt? (text : List Char) (i : Nat) : Option Found := do
  let digits := (← tail? text i).takeWhile Char.isDigit
  return if decimal digits ≤ Word.largest then
      (.ok (.int (Word.ofNat (decimal digits))), i + bytes digits)
    else (.error (.integerTooLarge (String.ofList digits)), i)

def scanWord? (text : List Char) (i : Nat) : Option Found := do
  let word := (← tail? text i).takeWhile isNamePart
  return (.ok (wordLexeme (String.ofList word)), i + bytes word)

/-- The string whose opening quotation mark is at the place. Its characters are counted, since they
may have more than one byte. -/
def scanString? (text : List Char) (i : Nat) : Option Found := do
  let body := (← tail? text (i + 1)).takeWhile (· != '"')
  return if text[i + (body.length + 1)]? = some '"' then
      (.ok (.string (String.ofList body)), i + (body.length + 2))
    else (.error .unclosedString, i)

/-- The lexeme at a place that no blank is at. -/
def scan? (text : List Char) (i : Nat) : Option Found :=
  match text[i]? with
  | none => some (.ok (.mark .eof), i)
  | some c =>
    if c = '\n' then some (.ok (.mark .newline), i + 1)
    else if c.isDigit then scanInt? text i
    else if isNameStart c then scanWord? text i
    else if c = '"' then scanString? text i
    else if c = '=' then
      some (if text[i + 1]? = some '=' then (.ok (.mark .equal), i + 2)
        else (.ok (.mark .assign), i + 1))
    else if c = '.' then
      some (if text[i + 1]? = some '.' then (.ok (.mark .concat), i + 2)
        else (.error (.loneDot text[i + 1]?), i))
    else
      some (match Mark.symbol? c with
        | some m => (.ok (.mark m), i + 1)
        | none => (.error (.badCharacter c), i))

/-- The next token, and the place where the one after it is looked for. -/
def next? (text : List Char) (s : Spot) : Option (Except Error Token × Spot) := do
  let (found, i) ← scan? text (skipBlanks text s.index)
  return match found with
    | .ok l => (.ok ⟨l, s.line⟩, ⟨i, s.line + l.lineBreaks⟩)
    | .error cause => (.error (.lexical s.line cause), ⟨i, s.line⟩)

/-- The place in front of the `n`-th call, counted from 0. -/
def spot? (text : List Char) : Nat → Option Spot
  | 0 => some ⟨0, 1⟩
  | n + 1 => do
    let s ← spot? text n
    let (_, s') ← next? text s
    return s'

/-! ## The rest of the text -/

section

variable {text rest : List Char} {i : Nat}

theorem tail?_of_le (h : i ≤ text.length) : tail? text i = some (text.drop i) := if_pos h

theorem index_of_drop {w : List Char} (hi : i ≤ text.length) (h : text.drop i = w ++ rest) :
    text.length - rest.length = i + w.length ∧ text.drop (i + w.length) = rest := by
  have hlength := congrArg List.length h
  rw [List.length_drop, List.length_append] at hlength
  refine ⟨by omega, ?_⟩
  rw [← List.drop_drop, h, List.drop_left]

/-- A run of characters of one byte each: its bytes tell how far it goes. -/
theorem bytes_eq {cs : List Char} (h : ∀ c ∈ cs, c.val ≤ 127) : bytes cs = cs.length := by
  induction cs with
  | nil => rfl
  | cons c cs ih =>
    obtain ⟨hc, hcs⟩ := List.forall_mem_cons.mp h
    have hrest := ih hcs
    rw [bytes] at hrest ⊢
    rw [String.ofList_cons, String.utf8ByteSize_append, String.utf8ByteSize_singleton, hrest,
      Char.utf8Size_eq_one_iff.mpr hc, List.length_cons, Nat.add_comm]

theorem val_le_of_isDigit {c : Char} (h : c.isDigit = true) : c.val ≤ 127 := by
  have hc : c.val ≤ '9'.val := of_decide_eq_true (Bool.and_eq_true_iff.mp h).2
  exact UInt32.le_trans hc (by decide)

theorem val_le_of_isNamePart {c : Char} (h : isNamePart c = true) : c.val ≤ 127 := by
  rcases Bool.or_eq_true_iff.mp h with h | h
  · rcases Bool.or_eq_true_iff.mp h with h | h
    · rcases Bool.or_eq_true_iff.mp h with h | h
      · have hc : 'A'.val ≤ c.val ∧ c.val ≤ 'Z'.val := of_decide_eq_true h
        exact UInt32.le_trans hc.2 (by decide)
      · have hc : c.val ≤ 'z'.val := of_decide_eq_true (Bool.and_eq_true_iff.mp h).2
        exact UInt32.le_trans hc (by decide)
    · exact val_le_of_isDigit h
  · rw [of_decide_eq_true h]
    decide

theorem bytes_takeWhile {p : Char → Bool} (hp : ∀ c, p c = true → c.val ≤ 127) (cs : List Char) :
    bytes (cs.takeWhile p) = (cs.takeWhile p).length :=
  bytes_eq fun c hc => hp c (List.all_eq_true.mp List.all_takeWhile c hc)

end

/-! ## The two lexers -/

/-- What is found at a place, told by what the lexer finds in the rest of the text. -/
def ofScan (text : List Char) (i : Nat) :
    Except LexicalCause (Lexeme × List Char) → Found
  | .ok (l, rest) => (.ok l, text.length - rest.length)
  | .error cause => (.error cause, i)

section

variable {text : List Char} {i : Nat}

theorem skipBlanks_eq (hi : i ≤ text.length) :
    skipBlanks text i ≤ text.length ∧
      text.drop (skipBlanks text i) = (text.drop i).dropWhile isBlank := by
  fun_induction skipBlanks text i with
  | case1 i c h hlt hblank ih =>
    obtain ⟨hle, hdrop⟩ := ih hlt
    obtain ⟨hi, hc⟩ := List.getElem?_eq_some_iff.mp h
    refine ⟨hle, ?_⟩
    rw [hdrop, List.drop_eq_getElem_cons hi, hc, List.dropWhile_cons_of_pos hblank]
  | case2 i c h hlt hblank =>
    obtain ⟨hi, hc⟩ := List.getElem?_eq_some_iff.mp h
    refine ⟨hlt.le, ?_⟩
    rw [List.drop_eq_getElem_cons hi, hc, List.dropWhile_cons_of_neg hblank]
  | case3 i h =>
    refine ⟨hi, ?_⟩
    rw [List.drop_of_length_le (List.getElem?_eq_none_iff.mp h), List.dropWhile_nil]

theorem scanInt?_eq (hi : i ≤ text.length) :
    scanInt? text i = some (ofScan text i (scanInt (text.drop i))) := by
  have hindex := (index_of_drop hi (List.takeWhile_append_dropWhile (p := Char.isDigit)).symm).1
  simp only [scanInt?, tail?_of_le hi, Option.bind_eq_bind, Option.bind_some, scanInt]
  split
  · simp [ofScan, hindex, bytes_takeWhile fun _ => val_le_of_isDigit]
  · rfl

theorem scanWord?_eq (hi : i ≤ text.length) :
    scanWord? text i = some (ofScan text i (.ok (scanWord (text.drop i)))) := by
  have hindex := (index_of_drop hi (List.takeWhile_append_dropWhile (p := isNamePart)).symm).1
  simp [scanWord?, tail?_of_le hi, scanWord, ofScan, hindex,
    bytes_takeWhile fun _ => val_le_of_isNamePart]

/-- The text behind an opening quotation mark begins within the text. -/
theorem scanString?_eq (hi : i < text.length) :
    scanString? text i = some (ofScan text i (scanString (text.drop (i + 1)))) := by
  have hcut := List.takeWhile_append_dropWhile (p := (· != '"')) (l := text.drop (i + 1))
  have hindex := index_of_drop hi hcut.symm
  have hbehind : text[i + (((text.drop (i + 1)).takeWhile (· != '"')).length + 1)]? =
      ((text.drop (i + 1)).dropWhile (· != '"')).head? := by
    rw [← hindex.2, List.head?_drop, Nat.succ_add, ← Nat.add_assoc]
  simp only [scanString?, tail?_of_le (Nat.succ_le_of_lt hi), Option.bind_eq_bind,
    Option.bind_some, hbehind, scanString]
  cases hrest : (text.drop (i + 1)).dropWhile (· != '"') with
  | nil => rfl
  | cons q rest =>
    have hquote : q = '"' := by
      have hstop := stop_of_dropWhile (· != '"') (text.drop (i + 1)) q (by rw [hrest]; rfl)
      simpa using hstop
    rw [hrest, List.length_cons] at hindex
    simp [ofScan, hquote]
    omega

/-- One character of the text is taken, or two. -/
theorem ofScan_symbol {c : Char} {rest : List Char} (h : text.drop i = c :: rest) (l : Lexeme) :
    ofScan text i (.ok (l, rest)) = (.ok l, i + 1) ∧
      ∀ d rest', rest = d :: rest' → ofScan text i (.ok (l, rest')) = (.ok l, i + 2) := by
  have hlength := congrArg List.length h
  rw [List.length_drop, List.length_cons] at hlength
  refine ⟨?_, ?_⟩
  · rw [ofScan, show text.length - rest.length = i + 1 by omega]
  · rintro d rest' rfl
    rw [List.length_cons] at hlength
    rw [ofScan, show text.length - rest'.length = i + 2 by omega]

/-- The lexeme at a place is the one that the rest of the text begins with. -/
theorem scan?_eq (hi : i ≤ text.length) :
    scan? text i = some (ofScan text i (scan (text.drop i))) := by
  unfold scan?
  split
  · rename_i hnone
    have hend := List.getElem?_eq_none_iff.mp hnone
    rw [List.drop_of_length_le hend, scan, ofScan, List.length_nil,
      show text.length - 0 = i by omega]
  · rename_i c hc
    obtain ⟨hlt, hget⟩ := List.getElem?_eq_some_iff.mp hc
    obtain ⟨rest, hrest⟩ : ∃ rest, text.drop (i + 1) = rest := ⟨_, rfl⟩
    have hdrop : text.drop i = c :: rest := by
      rw [List.drop_eq_getElem_cons hlt, hget, hrest]
    have hnext : text[i + 1]? = rest.head? := by rw [← hrest, List.head?_drop]
    have hint := scanInt?_eq hi
    have hword := scanWord?_eq hi
    have hstring := scanString?_eq hlt
    rw [hdrop] at hint hword ⊢
    rw [hrest] at hstring
    rw [hnext]
    simp only [scan]
    split
    · rw [(ofScan_symbol hdrop _).1]
    split
    · exact hint
    split
    · exact hword
    split
    · exact hstring
    split
    · split
      · rename_i hhead
        obtain ⟨rest', rfl⟩ := List.head?_eq_some_iff.mp hhead
        exact congrArg some ((ofScan_symbol hdrop _).2 _ rest' rfl).symm
      · rename_i hhead
        split
        · exact absurd rfl hhead
        · rw [(ofScan_symbol hdrop _).1]
    split
    · split
      · rename_i hhead
        obtain ⟨rest', rfl⟩ := List.head?_eq_some_iff.mp hhead
        exact congrArg some ((ofScan_symbol hdrop _).2 _ rest' rfl).symm
      · rename_i hhead
        split
        · exact absurd rfl hhead
        · rfl
    · cases Mark.symbol? c with
      | some m => rw [(ofScan_symbol hdrop _).1]
      | none => rfl

end
end Offsets

/-! ## Calls that come again -/

/-- Nothing follows: an error, or the end of the text. -/
def Stops (r : Except Error Token) : Prop := ∀ t, r = .ok t → t.lexeme = .mark .eof

namespace Cursor

variable {c c' : Cursor} {r : Except Error Token}

/-- The end of the text and an error come again, on the same line, at the place they lead to. -/
theorem next_of_stops (h : c.next = (r, c')) (hr : Stops r) : c'.next = (r, c') := by
  cases r with
  | error e =>
    obtain ⟨cause, hscan, rfl, rfl⟩ := scan_of_next_error h
    simp only [next, List.dropWhile_idempotent _ _, hscan]
  | ok t =>
    obtain ⟨hscan, hline, hmoves⟩ := scan_of_next h
    obtain ⟨lexeme, line⟩ := t
    obtain rfl : lexeme = .mark .eof := hr _ rfl
    obtain ⟨rest, line'⟩ := c'
    rcases scan_eq_ok_iff.mp hscan with hmunch | ⟨-, -, hrest⟩
    · exact absurd rfl hmunch.ne_eof
    · cases hrest
      cases hline
      cases hmoves
      rfl

theorem after_succ (c : Cursor) (k : Nat) : c.after (k + 1) = (c.after k).next.2 := by
  induction k generalizing c with
  | zero => rfl
  | succ k ih => exact ih c.next.2

theorem next_after_of_stops (c : Cursor) {k : Nat} (hr : Stops (c.after k).next.1) {m : Nat}
    (hm : k ≤ m) : (c.after m).next.1 = (c.after k).next.1 := by
  have hagain : ∀ j, (c.after (k + 1 + j)).next = (c.after k).next := by
    intro j
    induction j with
    | zero =>
      rw [Nat.add_zero, after_succ]
      exact next_of_stops rfl hr
    | succ j ih =>
      rw [← Nat.add_assoc, after_succ, ih]
      exact next_of_stops rfl hr
  rcases Nat.eq_or_lt_of_le hm with rfl | hlt
  · rfl
  · obtain ⟨j, rfl⟩ := Nat.exists_eq_add_of_le hlt
    rw [hagain]

end Cursor

/-! ## Any number of calls -/

namespace Offsets

/-- What is left of the text at the place. -/
def Spot.cursor (text : List Char) (s : Spot) : Cursor := ⟨text.drop s.index, s.line⟩

/-- A call at the place `s` gives `r` and leads to `s'`. -/
structure Call (text : List Char) (s : Spot) (r : Except Error Token) (s' : Spot) : Prop where
  /-- No place outside the text is asked for. -/
  result : next? text s = some (r, s')
  /-- The lexer finds the same in the rest of the text. -/
  next : (s.cursor text).next = (r, s'.cursor text)
  within : s'.index ≤ text.length
  forward : s.index ≤ s'.index
  /-- A token leads to the place just behind its lexeme, blanks in front of it. -/
  token : ∀ t, r = .ok t → t.lexeme ≠ .mark .eof → s.index < s'.index ∧ ∃ blanks w,
    text.drop s.index = blanks ++ (w ++ text.drop s'.index) ∧ (∀ c ∈ blanks, isBlank c = true) ∧
      t.lexeme.IsText w ∧ Longest w (text.drop s'.index)
  /-- An error leads over blanks only. -/
  failure : ∀ e, r = .error e → s'.line = s.line ∧ ∃ blanks,
    text.drop s.index = blanks ++ text.drop s'.index ∧ ∀ c ∈ blanks, isBlank c = true

section

variable {text : List Char} {s : Spot}

/-- The lexer over the whole text is the one over what is left of it. -/
theorem next?_eq (h : s.index ≤ text.length) : ∃ r s', next? text s = some (r, s') ∧
    (s.cursor text).next = (r, s'.cursor text) ∧ s'.index ≤ text.length := by
  obtain ⟨hle, hblanks⟩ := skipBlanks_eq h
  have hscan := scan?_eq hle
  cases hfound : scan (text.drop (skipBlanks text s.index)) with
  | error cause =>
    have hnext : (s.cursor text).next =
        (.error (.lexical s.line cause), ⟨text.drop (skipBlanks text s.index), s.line⟩) := by
      simp only [Spot.cursor, Cursor.next, ← hblanks, hfound]
    rw [hfound] at hscan
    refine ⟨_, ⟨skipBlanks text s.index, s.line⟩, ?_, hnext, hle⟩
    simp [next?, hscan, ofScan]
  | ok found =>
    obtain ⟨l, rest⟩ := found
    have hnext : (s.cursor text).next = (.ok ⟨l, s.line⟩, ⟨rest, s.line + l.lineBreaks⟩) := by
      simp only [Spot.cursor, Cursor.next, ← hblanks, hfound]
    rw [hfound] at hscan
    have hsuffix : rest <:+ text := by
      obtain ⟨passed, hpassed, -⟩ := Cursor.moves_next (s.cursor text)
      rw [hnext] at hpassed
      exact .trans ⟨passed, hpassed.symm⟩ (List.drop_suffix _ text)
    rw [List.suffix_iff_eq_drop.mp hsuffix] at hnext
    refine ⟨_, ⟨text.length - rest.length, s.line + l.lineBreaks⟩, ?_, hnext, Nat.sub_le _ _⟩
    simp [next?, hscan, ofScan]

theorem exists_call (h : s.index ≤ text.length) : ∃ r s', Call text s r s' := by
  obtain ⟨r, s', hresult, hnext, hwithin⟩ := next?_eq h
  obtain ⟨passed, hpassed, -⟩ := Cursor.moves_next (s.cursor text)
  rw [hnext] at hpassed
  have hlength := congrArg List.length hpassed
  simp only [Spot.cursor, List.length_append, List.length_drop] at hlength
  refine ⟨r, s', hresult, hnext, hwithin, by omega, ?_, ?_⟩
  · rintro t rfl ht
    obtain ⟨⟨w, hw, hl, hlongest⟩, -⟩ := Cursor.munch_of_next hnext ht
    have hdivide : text.drop s.index = (text.drop s.index).takeWhile isBlank ++ (w ++ _) :=
      hw ▸ List.takeWhile_append_dropWhile.symm
    have hlengths := congrArg List.length hdivide
    have hpos := List.length_pos_iff.mpr hl.ne_nil
    simp only [Spot.cursor, List.length_append, List.length_drop] at hlengths
    exact ⟨by omega, _, w, hdivide, List.all_eq_true.mp List.all_takeWhile, hl, hlongest⟩
  · rintro e rfl
    obtain ⟨cause, -, -, hfront⟩ := Cursor.scan_of_next_error hnext
    obtain ⟨hrest, hsame⟩ := Cursor.mk.inj hfront
    refine ⟨hsame, (text.drop s.index).takeWhile isBlank, ?_,
      List.all_eq_true.mp List.all_takeWhile⟩
    rw [hrest]
    exact List.takeWhile_append_dropWhile.symm

theorem spot?_eq (text : String) (n : Nat) : ∃ s, spot? text.toList n = some s ∧
    s.index ≤ text.toList.length ∧ (Cursor.ofString text).after n = s.cursor text.toList := by
  induction n with
  | zero => exact ⟨⟨0, 1⟩, rfl, Nat.zero_le _, rfl⟩
  | succ n ih =>
    obtain ⟨s, hs, hle, hafter⟩ := ih
    obtain ⟨r, s', hresult, hnext, hwithin⟩ := next?_eq hle
    refine ⟨s', ?_, hwithin, ?_⟩
    · simp [spot?, hs, hresult]
    · rw [Cursor.after_succ, hafter, hnext]

end

/-- The calls for tokens, one after the other, of which the `n`-th one is made at the place `s`.
The places are within the text and go forward only, and no other place is asked for; a token
leads behind its lexeme, and an error over blanks at most. If a call gives an error, or the end of
the text, all later calls give the same. -/
theorem calls_of_text (text : String) (n : Nat) : ∃ s r s',
    spot? text.toList n = some s ∧ s.index ≤ text.toList.length ∧
    (Cursor.ofString text).after n = s.cursor text.toList ∧ Call text.toList s r s' ∧
    (Stops r → ∀ m, n ≤ m → ∃ u u', spot? text.toList m = some u ∧
      next? text.toList u = some (r, u')) := by
  obtain ⟨s, hs, hle, hafter⟩ := spot?_eq text n
  obtain ⟨r, s', hcall⟩ := exists_call hle
  refine ⟨s, r, s', hs, hle, hafter, hcall, fun hr m hm => ?_⟩
  obtain ⟨u, hu, hleu, hafteru⟩ := spot?_eq text m
  obtain ⟨r', u', hresult, hnext, -⟩ := next?_eq hleu
  have hn : ((Cursor.ofString text).after n).next.1 = r := by rw [hafter, hcall.next]
  have hsame := Cursor.next_after_of_stops _ (hn ▸ hr) hm
  rw [hafteru, hnext, hn] at hsame
  subst hsame
  exact ⟨u, u', hu, hresult⟩

end Offsets
end Onepass
