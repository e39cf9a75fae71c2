import Mathlib.Data.List.TakeWhile
import Onepass.Proofs.Lines

/-!
# Onepass.Proofs.Joining

Two texts one behind the other, the first of them whole lines. Comments and tokens of the joined
text are those of the two texts, if the first one has no wrong token: only a line end is in front
of the second text then, no comment and no string is open there, and the lexeme that the line end
is takes nothing of what follows.

* `stripFrom_append` -- comments are removed from both texts on their own, the second one in the
  zone where the first one ends.
* `strip_append`     -- which is code, if the lexer closes all strings.
* `scan_append`      -- a lexeme of the first text is one of the joined text.
* `feed_append`      -- the tokens of the joined text.
-/

namespace Onepass

/-- The text is empty or its last line is ended. -/
def Lined (cs : List Char) : Prop := ∀ c ∈ cs.getLast?, c = '\n'

namespace Lined

variable {cs ds : List Char} {c : Char}

theorem nil : Lined [] := nofun

theorem of_append (h : Lined (cs ++ ds)) : Lined ds := by
  intro c hc
  refine h c ?_
  rw [List.getLast?_append, Option.mem_def.mp hc]
  rfl

theorem mem (h : Lined cs) (hcs : cs ≠ []) : '\n' ∈ cs := by
  have hlast := List.getLast?_eq_getLast_of_ne_nil hcs
  rw [← h _ hlast]
  exact List.getLast_mem hcs

theorem cons (h : Lined cs) (hc : cs = [] → c = '\n') : Lined (c :: cs) := by
  intro d hd
  rw [List.getLast?_cons] at hd
  cases hlast : cs.getLast? with
  | none =>
    rw [hlast] at hd
    cases hd
    exact hc (List.getLast?_eq_none_iff.mp hlast)
  | some e =>
    rw [hlast] at hd
    cases hd
    exact h e hlast

theorem tail (h : Lined (c :: cs)) : Lined cs := of_append (show Lined ([c] ++ cs) from h)

/-- Behind another character a line end has to come. -/
theorem ne_nil (h : Lined (c :: cs)) (hc : c ≠ '\n') : cs ≠ [] := by
  rintro rfl
  exact hc (h c rfl)

theorem mem_tail (h : Lined (c :: cs)) (hc : c ≠ '\n') : '\n' ∈ cs := h.tail.mem (h.ne_nil hc)

end Lined

/-! ## Comments -/

namespace Comment

/-- The zone behind a character that `next` follows. -/
def Zone.step (zone : Zone) (c : Char) (next : Option Char) : Zone :=
  match zone with
  | .comment => if c = '\n' then .code else .comment
  | .quoted => if c = '"' then .code else .quoted
  | .code => if c = '"' then .quoted else if c = '-' ∧ next = some '-' then .comment else .code

/-- The zone in which a text ends. -/
def zoneAfter : Zone → List Char → Zone
  | zone, [] => zone
  | zone, c :: cs => zoneAfter (zone.step c cs.head?) cs

/-- The characters behind which a comment goes on are those that are removed. -/
theorem stripFrom_step (zone : Zone) (c : Char) (cs : List Char) :
    stripFrom zone (c :: cs) =
      if zone.step c cs.head? = .comment then stripFrom (zone.step c cs.head?) cs
      else c :: stripFrom (zone.step c cs.head?) cs := by
  cases zone with
  | comment =>
    simp only [stripFrom, Zone.step]
    split <;> rfl
  | quoted =>
    simp only [stripFrom, Zone.step]
    split <;> rfl
  | code =>
    simp only [stripFrom, Zone.step]
    split
    · rfl
    · split <;> rfl

/-- A line end closes a comment. -/
theorem step_newline (zone : Zone) (next : Option Char) : zone.step '\n' next ≠ .comment := by
  cases zone <;> simp [Zone.step]

/-- A quotation mark that is left opens a string or closes it. -/
theorem step_eq_quoted_iff (zone : Zone) (c : Char) (next : Option Char) :
    zone.step c next = .quoted ↔
      (zone = .quoted ↔ ¬ (c = '"' ∧ zone.step c next ≠ .comment)) := by
  cases zone with
  | code =>
    simp only [Zone.step]
    split
    · simp_all
    · split <;> simp_all
  | quoted =>
    simp only [Zone.step]
    split <;> simp_all
  | comment =>
    simp only [Zone.step]
    split <;> simp_all

/-- No two dashes meet where the first text ends with another character. -/
theorem stripFrom_append {cs : List Char} (h : cs.getLast? ≠ some '-') (zone : Zone)
    (ds : List Char) :
    stripFrom zone (cs ++ ds) = stripFrom zone cs ++ stripFrom (zoneAfter zone cs) ds := by
  induction cs generalizing zone with
  | nil => cases zone <;> rfl
  | cons c cs ih =>
    have hstep : zone.step c (cs ++ ds).head? = zone.step c cs.head? := by
      cases cs with
      | nil =>
        have hc : c ≠ '-' := fun hc => h (congrArg some hc)
        cases zone <;> simp [Zone.step, hc]
      | cons d cs => rfl
    have htail : cs.getLast? ≠ some '-' := by
      cases cs with
      | nil => nofun
      | cons d cs => exact h
    rw [List.cons_append, stripFrom_step, stripFrom_step zone c cs, hstep, ih htail, zoneAfter]
    split <;> rfl

theorem zoneAfter_ne_comment {cs : List Char} (h : Lined cs) {zone : Zone}
    (hzone : zone ≠ .comment) : zoneAfter zone cs ≠ .comment := by
  -- Within the text the zone may be that of a comment, but not behind a line end.
  suffices ∀ zone, cs ≠ [] → zoneAfter zone cs ≠ .comment by
    cases cs with
    | nil => exact hzone
    | cons c cs => exact this zone nofun
  clear hzone zone
  induction cs with
  | nil => nofun
  | cons c cs ih =>
    intro zone _
    rw [zoneAfter]
    by_cases hcs : cs = []
    · subst hcs
      rw [h c rfl]
      exact step_newline zone none
    · exact ih h.tail _ hcs

/-- Whether a string is open is told by the quotation marks that are left. -/
theorem count_quote_stripFrom (zone : Zone) (cs : List Char) :
    zoneAfter zone cs = .quoted ↔ (zone = .quoted ↔ (stripFrom zone cs).count '"' % 2 = 0) := by
  induction cs generalizing zone with
  | nil => cases zone <;> decide
  | cons c cs ih =>
    rw [zoneAfter, ih, stripFrom_step, step_eq_quoted_iff]
    by_cases hcomment : zone.step c cs.head? = .comment
    · simp [hcomment]
    · by_cases hc : c = '"'
      · subst hc
        have hparity : ∀ n : Nat, (n + 1) % 2 = 0 ↔ ¬ n % 2 = 0 := by omega
        simp only [hcomment, ne_eq, not_false_eq_true, and_self, not_true_eq_false, if_false,
          List.count_cons_self, hparity]
        tauto
      · simp [hcomment, hc]

/-- Whole lines stay whole lines. -/
theorem lined_stripFrom {cs : List Char} (h : Lined cs) (zone : Zone) :
    Lined (stripFrom zone cs) := by
  induction cs generalizing zone with
  | nil => cases zone <;> exact .nil
  | cons c cs ih =>
    rw [stripFrom_step]
    split
    · exact ih h.tail _
    · refine (ih h.tail _).cons fun hnil => ?_
      by_contra hc
      have hcount := count_stripFrom (zone.step c cs.head?) cs
      rw [hnil] at hcount
      exact List.count_eq_zero.mp hcount.symm (h.mem_tail hc)

end Comment

/-! ## Lexemes -/

section

variable {p : Char → Bool} {cs : List Char} {c : Char}

theorem dropWhile_ne_nil (hc : c ∈ cs) (hp : p c = false) : cs.dropWhile p ≠ [] := by
  intro hnil
  rw [List.dropWhile_eq_nil_iff.mp hnil c hc] at hp
  cases hp

theorem dropWhile_append_of_mem (hc : c ∈ cs) (hp : p c = false) (ds : List Char) :
    (cs ++ ds).dropWhile p = cs.dropWhile p ++ ds := by
  rw [List.dropWhile_append, if_neg]
  simpa using dropWhile_ne_nil hc hp

theorem takeWhile_append_of_mem (hc : c ∈ cs) (hp : p c = false) (ds : List Char) :
    (cs ++ ds).takeWhile p = cs.takeWhile p := by
  rw [List.takeWhile_append, if_neg]
  intro hlength
  have hcs := List.takeWhile_append_dropWhile (p := p) (l := cs)
  have hnil : (cs.dropWhile p).length = 0 := by
    have := congrArg List.length hcs
    rw [List.length_append] at this
    omega
  exact dropWhile_ne_nil hc hp (List.length_eq_zero_iff.mp hnil)

end

/-- Only the line end is a lexeme that ends a line. -/
theorem Lexeme.eq_newline_of_isText {l : Lexeme} {w : List Char} (h : l.IsText w) (hw : Lined w) :
    l = .mark .newline := by
  have hmem := hw.mem h.ne_nil
  cases l with
  | int n => cases h.1.2 _ hmem
  | string s =>
    obtain ⟨rfl, -⟩ := h
    have hlast := hw '"' (by rw [← List.cons_append, List.getLast?_concat]; rfl)
    cases hlast
  | ident x =>
    obtain ⟨rfl, hx⟩ := h
    simp only [isName, Bool.and_eq_true, List.all_eq_true] at hx
    cases hx.1.2 _ hmem
  | mark m =>
    obtain ⟨rfl, -⟩ := h
    cases m <;> first | rfl | exact absurd hmem (by decide)

section

variable {cs rest : List Char} {l : Lexeme}

theorem eq_newline_of_scan (h : Lined cs) (hcs : cs ≠ []) (hscan : scan cs = .ok (l, [])) :
    l = .mark .newline := by
  obtain ⟨w, hw, hl, -⟩ := munch_of_scan hscan hcs
  rw [List.append_nil] at hw
  exact l.eq_newline_of_isText hl (hw ▸ h)

theorem lined_of_scan (h : Lined cs) (hcs : cs ≠ []) (hscan : scan cs = .ok (l, rest)) :
    Lined rest := by
  obtain ⟨w, rfl, -⟩ := munch_of_scan hscan hcs
  exact h.of_append

theorem scanInt_append (hmem : '\n' ∈ cs) (hscan : scanInt cs = .ok (l, rest)) (ds : List Char) :
    scanInt (cs ++ ds) = .ok (l, rest ++ ds) := by
  rw [scanInt, takeWhile_append_of_mem hmem (by decide), dropWhile_append_of_mem hmem (by decide)]
  simp only [scanInt] at hscan
  split at hscan
  · cases hscan
    rw [if_pos ‹_›]
  · cases hscan

theorem scanWord_append (hmem : '\n' ∈ cs) (ds : List Char) :
    scanWord (cs ++ ds) = ((scanWord cs).1, (scanWord cs).2 ++ ds) := by
  rw [scanWord, takeWhile_append_of_mem hmem (by decide), dropWhile_append_of_mem hmem (by decide)]
  rfl

/-- A string that is closed stays as it is. -/
theorem scanString_append (hscan : scanString cs = .ok (l, rest)) (ds : List Char) :
    scanString (cs ++ ds) = .ok (l, rest ++ ds) := by
  simp only [scanString] at hscan
  split at hscan
  · cases hscan
  · rename_i q behind hbehind
    cases hscan
    have hquote : '"' ∈ cs := by
      rw [eq_of_dropWhile_quote hbehind]
      simp
    rw [scanString, takeWhile_append_of_mem hquote (by decide),
      dropWhile_append_of_mem hquote (by decide), hbehind]
    rfl

/-- What stands behind whole lines is not taken into their lexemes. -/
theorem scan_append (h : Lined cs) (hcs : cs ≠ []) (hscan : scan cs = .ok (l, rest))
    (ds : List Char) : scan (cs ++ ds) = .ok (l, rest ++ ds) := by
  obtain ⟨c, cs, rfl⟩ := List.exists_cons_of_ne_nil hcs
  by_cases hc : c = '\n'
  · subst hc
    cases hscan
    rfl
  obtain ⟨d, cs, rfl⟩ := List.exists_cons_of_ne_nil (h.ne_nil hc)
  have hmem := List.mem_cons_of_mem c (h.mem_tail hc)
  simp only [scan, hc, if_false, List.cons_append] at hscan ⊢
  split at hscan
  · rw [if_pos ‹_›]
    exact scanInt_append hmem hscan ds
  rw [if_neg ‹_›]
  split at hscan
  · rw [if_pos ‹_›]
    cases hscan
    exact congrArg Except.ok (scanWord_append hmem ds)
  rw [if_neg ‹_›]
  split at hscan
  · rw [if_pos ‹_›]
    exact scanString_append hscan ds
  rw [if_neg ‹_›]
  -- What is left are symbols, and a line end stands at the latest behind the first character.
  split at hscan
  · rw [if_pos ‹_›]
    split at hscan
    · rename_i heq
      cases heq
      cases hscan
      rfl
    · rename_i hne
      cases hscan
      split
      · rename_i heq
        cases heq
        exact absurd rfl (hne cs)
      · rfl
  rw [if_neg ‹_›]
  split at hscan
  · rw [if_pos ‹_›]
    split at hscan
    · rename_i heq
      cases heq
      cases hscan
      rfl
    · cases hscan
  rw [if_neg ‹_›]
  split at hscan
  · cases hscan
    rfl
  · cases hscan

end

/-! ## Tokens -/

namespace Token

/-- The token `n` lines further on. -/
def moved (n : Nat) (t : Token) : Token := ⟨t.lexeme, t.line + n⟩

end Token

namespace Error

/-- The error `n` lines further on. Errors of types and names have no line. -/
def moved (n : Nat) : Error → Error
  | .lexical line cause => .lexical (line + n) cause
  | .unexpected line expected actual => .unexpected (line + n) expected actual
  | e => e

end Error

namespace Cursor

theorem next_moved (n : Nat) (c : Cursor) : (⟨c.rest, c.line + n⟩ : Cursor).next =
    ((c.next.1.map (Token.moved n)).mapError (Error.moved n), ⟨c.next.2.rest, c.next.2.line + n⟩) := by
  simp only [next]
  cases scan (c.rest.dropWhile isBlank) with
  | ok r => simp [Except.map, Except.mapError, Token.moved, Nat.add_right_comm]
  | error cause => rfl

theorem feed_moved (n : Nat) (c : Cursor) : (⟨c.rest, c.line + n⟩ : Cursor).feed =
    ⟨c.feed.tokens.map (Token.moved n), c.feed.failure.map (Error.moved n)⟩ := by
  fun_induction feed c with
  | case1 c e c' hc =>
    have hnext := next_moved n c
    rw [hc] at hnext
    exact feed_of_error hnext
  | case2 c t c' hc heof =>
    have hnext := next_moved n c
    rw [hc] at hnext
    exact feed_of_eof hnext heof
  | case3 c t c' hc hne hlt more ih =>
    have hnext := next_moved n c
    rw [hc] at hnext
    rw [feed_of_token hnext hne, ih]
    rfl

section

variable {c c' : Cursor} {t : Token}

/-- A token that is found in whole lines: its lexeme, behind the blanks. -/
theorem scan_of_lined (h : Lined c.rest) (hc : c.next = (.ok t, c')) (ht : t.lexeme ≠ .mark .eof) :
    c.rest ≠ [] ∧ c.front.rest ≠ [] ∧ Lined c.front.rest ∧
      scan c.front.rest = .ok (t.lexeme, c'.rest) := by
  obtain ⟨hscan, -, -⟩ := scan_of_next hc
  obtain ⟨blanks, hblanks, -⟩ := moves_front c
  have hfront : c.front.rest ≠ [] := by
    intro hnil
    rw [show c.rest.dropWhile isBlank = [] from hnil, scan, Except.ok.injEq, Prod.mk.injEq] at hscan
    exact ht hscan.1.symm
  refine ⟨fun hnil => ?_, hfront, (hblanks ▸ h).of_append, hscan⟩
  rw [hnil] at hblanks
  exact hfront (List.append_eq_nil_iff.mp hblanks.symm).2

theorem next_append (h : Lined c.rest) (hc : c.next = (.ok t, c')) (ht : t.lexeme ≠ .mark .eof)
    (ds : List Char) :
    (⟨c.rest ++ ds, c.line⟩ : Cursor).next = (.ok t, ⟨c'.rest ++ ds, c'.line⟩) := by
  obtain ⟨hrest, hfront, hlined, hscan⟩ := scan_of_lined h hc ht
  obtain ⟨-, hline, hmoves⟩ := scan_of_next hc
  obtain ⟨lexeme, line⟩ := t
  subst hline
  have hjoined := scan_append hlined hfront hscan ds
  simp only [front] at hjoined
  simp only [next]
  rw [dropWhile_append_of_mem (h.mem hrest) (by decide), hjoined, hmoves]

end

/-- A text of whole lines that has no wrong token has its tokens in front of any text, the end of
the text apart; behind them the lexer is where it would begin with that text, some lines further on.
The last of them is a line end, if there is one at all. -/
theorem feed_append (c : Cursor) (h : Lined c.rest) (hnone : c.feed.failure = none) :
    ∃ ts, c.feed.tokens = ts ++ [⟨.mark .eof, c.line + c.rest.count '\n'⟩] ∧
      (ts = [] → c.rest = []) ∧ (∀ t ∈ ts.getLast?, t.lexeme = .mark .newline) ∧
      ∀ ds, let f := (⟨ds, c.line + c.rest.count '\n'⟩ : Cursor).feed
        (⟨c.rest ++ ds, c.line⟩ : Cursor).feed = ⟨ts ++ f.tokens, f.failure⟩ := by
  fun_induction feed c with
  | case1 => cases hnone
  | case2 c t c' hc heof =>
    obtain ⟨lexeme, line⟩ := t
    obtain ⟨hscan, rfl, -⟩ := scan_of_next hc
    cases heof
    have hrest : c.rest = [] := by
      by_contra hne
      have hmem := h.mem hne
      rcases scan_eq_ok_iff.mp hscan with hmunch | ⟨hnil, -, -⟩
      · exact hmunch.ne_eof rfl
      · exact dropWhile_ne_nil hmem (by decide) hnil
    exact ⟨[], by simp [hrest], fun _ => hrest, by simp, by simp [hrest]⟩
  | case3 c t c' hc hne hlt more ih =>
    obtain ⟨-, hfront, hlined, hscan⟩ := scan_of_lined h hc hne
    have hlast : c.line + c.rest.count '\n' = c'.line + c'.rest.count '\n' := by
      obtain ⟨passed, hpassed, hmoved⟩ := moves_next c
      rw [hc] at hpassed hmoved
      rw [hmoved, hpassed, List.count_append, Nat.add_assoc]
    obtain ⟨ts, htokens, hnil, hend, hjoined⟩ := ih (lined_of_scan hlined hfront hscan) hnone
    refine ⟨t :: ts, ?_, fun hts => absurd hts (List.cons_ne_nil t ts), ?_, fun ds => ?_⟩
    · rw [hlast]
      exact congrArg (t :: ·) htokens
    · intro u hu
      rw [List.getLast?_cons] at hu
      cases hts : ts.getLast? with
      | some u' =>
        rw [hts] at hu
        cases hu
        exact hend u' hts
      | none =>
        rw [hts] at hu
        cases hu
        rw [hnil (List.getLast?_eq_none_iff.mp hts)] at hscan
        exact eq_newline_of_scan hlined hfront hscan
    · rw [hlast, feed_of_token (next_append h hc hne ds) hne, hjoined]
      rfl

end Cursor

/-! ## Quotation marks -/

theorem Lexeme.count_quote_of_isText {l : Lexeme} {w : List Char} (h : l.IsText w) :
    w.count '"' % 2 = 0 := by
  cases l with
  | int n =>
    rw [List.count_eq_zero.mpr fun hmem => ?_]
    cases h.1.2 _ hmem
  | string s =>
    obtain ⟨rfl, hs⟩ := h
    simp [List.count_eq_zero.mpr hs]
  | ident x =>
    obtain ⟨rfl, hx⟩ := h
    simp only [isName, Bool.and_eq_true, List.all_eq_true] at hx
    rw [List.count_eq_zero.mpr fun hmem => ?_]
    cases hx.1.2 _ hmem
  | mark m =>
    obtain ⟨rfl, -⟩ := h
    cases m <;> decide

theorem Munches.count_quote {cs left : List Char} {ls : List Lexeme} (h : Munches cs ls left) :
    cs.count '"' % 2 = left.count '"' % 2 := by
  have hblanks : ∀ bs : List Char, (∀ c ∈ bs, isBlank c = true) → bs.count '"' = 0 := by
    intro bs hbs
    refine List.count_eq_zero.mpr fun hmem => ?_
    cases hbs _ hmem
  induction h with
  | blanks hbs => rw [List.count_append, hblanks _ hbs, Nat.zero_add]
  | lexeme hbs hmunch _ ih =>
    obtain ⟨w, rfl, hl, -⟩ := hmunch
    have := Lexeme.count_quote_of_isText hl
    rw [List.count_append, List.count_append, hblanks _ hbs, ← ih]
    omega

/-- The lexer closes all strings. -/
theorem Cursor.count_quote_of_feed {c : Cursor} (hnone : c.feed.failure = none) :
    c.rest.count '"' % 2 = 0 := by
  obtain ⟨ls, left, hmunches, ⟨rfl, -⟩ | ⟨-, cause, -, hsome⟩⟩ := munches_of_feed c
  · exact hmunches.count_quote
  · rw [hnone] at hsome
    cases hsome

/-- Whole lines without a wrong token end in code, so nothing in them makes a comment or a string
of what stands behind. -/
theorem strip_append {p : String} (h : Lined p.toList)
    (hnone : (Source.feed p).failure = none) (q : String) :
    (Comment.strip (p ++ q)).toList =
      (Comment.strip p).toList ++ (Comment.strip q).toList := by
  have hquotes := Cursor.count_quote_of_feed hnone
  simp only [Cursor.ofString, Comment.toList_strip] at hquotes
  have hzone : Comment.zoneAfter .code p.toList = .code := by
    have hcomment : Comment.zoneAfter .code p.toList ≠ .comment :=
      Comment.zoneAfter_ne_comment h (by decide)
    have hquoted := Comment.count_quote_stripFrom .code p.toList
    cases hz : Comment.zoneAfter .code p.toList with
    | code => rfl
    | quoted => simp [hz, hquotes] at hquoted
    | comment => exact absurd hz hcomment
  rw [Comment.toList_strip, Comment.toList_strip, Comment.toList_strip, String.toList_append,
    Comment.stripFrom_append fun hlast => absurd (h _ hlast) (by decide), hzone]

end Onepass
