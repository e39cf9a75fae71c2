import Onepass.Compiler
import Onepass.Proofs.Checking
import Onepass.Proofs.Munch
import Onepass.Proofs.Viability

/-!
# Onepass.Proofs.Lines

The lines in messages are those of the source as it was written. The lexer has the source without
its comments before it, and counts line ends at two places: at a line end that is a token, and at
the end of a string, which may go over several lines.

* `count_take_origin` -- a character that is left has as many line ends in front of it as the place
  that it comes from.
* `moves_next`, `moves_after` -- the line goes on by the line ends that are passed.
* `lines_of_source` -- so a token has the line of the place where it begins in the source, and an
  error that names a line has that of what is wrong.
-/

namespace Onepass

/-! ## Places in the source -/

namespace Comment

/-- The places of the characters that are left. -/
def keptFrom : Zone → List Char → List Nat
  | _, [] => []
  | .comment, c :: rest =>
    if c = '\n' then 0 :: (keptFrom .code rest).map (· + 1)
    else (keptFrom .comment rest).map (· + 1)
  | .quoted, c :: rest =>
    0 :: (keptFrom (if c = '"' then .code else .quoted) rest).map (· + 1)
  | .code, c :: rest =>
    if c = '"' then 0 :: (keptFrom .quoted rest).map (· + 1)
    else if c = '-' ∧ rest.head? = some '-' then (keptFrom .comment rest).map (· + 1)
    else 0 :: (keptFrom .code rest).map (· + 1)

/-- The place that the `i`-th character of what is left comes from. What is behind the last one
comes from the end. -/
def origin (zone : Zone) (cs : List Char) (i : Nat) : Nat := ((keptFrom zone cs)[i]?).getD cs.length

/-- A character is left, or it is removed and ends no line. -/
theorem keeps_or_removes (zone : Zone) (c : Char) (cs : List Char) : ∃ zone',
    (stripFrom zone (c :: cs) = c :: stripFrom zone' cs ∧
      keptFrom zone (c :: cs) = 0 :: (keptFrom zone' cs).map (· + 1)) ∨
    (c ≠ '\n' ∧ stripFrom zone (c :: cs) = stripFrom zone' cs ∧
      keptFrom zone (c :: cs) = (keptFrom zone' cs).map (· + 1)) := by
  cases zone with
  | code =>
    simp only [stripFrom, keptFrom]
    split
    · exact ⟨_, .inl ⟨rfl, rfl⟩⟩
    split
    · rename_i h
      refine ⟨_, .inr ⟨?_, rfl, rfl⟩⟩
      rw [h.1]
      decide
    · exact ⟨_, .inl ⟨rfl, rfl⟩⟩
  | quoted => exact ⟨_, .inl ⟨rfl, rfl⟩⟩
  | comment =>
    simp only [stripFrom, keptFrom]
    split
    · exact ⟨_, .inl ⟨rfl, rfl⟩⟩
    · rename_i h
      exact ⟨_, .inr ⟨h, rfl, rfl⟩⟩

section

variable {zone zone' : Zone} {c : Char} {cs : List Char}

theorem getD_map_succ (ns : List Nat) (i n : Nat) :
    ((ns.map (· + 1))[i]?).getD (n + 1) = (ns[i]?).getD n + 1 := by
  rw [List.getElem?_map]
  cases ns[i]? <;> rfl

theorem origin_zero (h : keptFrom zone (c :: cs) = 0 :: (keptFrom zone' cs).map (· + 1)) :
    origin zone (c :: cs) 0 = 0 := by
  rw [origin, h]
  rfl

theorem origin_succ (h : keptFrom zone (c :: cs) = 0 :: (keptFrom zone' cs).map (· + 1)) (i : Nat) :
    origin zone (c :: cs) (i + 1) = origin zone' cs i + 1 := by
  rw [origin, h, List.getElem?_cons_succ, List.length_cons, getD_map_succ, origin]

theorem origin_removed (h : keptFrom zone (c :: cs) = (keptFrom zone' cs).map (· + 1)) (i : Nat) :
    origin zone (c :: cs) i = origin zone' cs i + 1 := by
  rw [origin, h, List.length_cons, getD_map_succ, origin]

end

theorem getElem?_origin (zone : Zone) (cs : List Char) (i : Nat) :
    cs[origin zone cs i]? = (stripFrom zone cs)[i]? := by
  induction cs generalizing zone i with
  | nil => cases zone <;> simp [stripFrom]
  | cons c cs ih =>
    obtain ⟨zone', ⟨hstrip, hkept⟩ | ⟨-, hstrip, hkept⟩⟩ := keeps_or_removes zone c cs
    · cases i with
      | zero => rw [origin_zero hkept, hstrip, List.getElem?_cons_zero, List.getElem?_cons_zero]
      | succ i =>
        rw [origin_succ hkept, hstrip, List.getElem?_cons_succ, List.getElem?_cons_succ, ih]
    · rw [origin_removed hkept, hstrip, List.getElem?_cons_succ, ih]

/-- The comments in front of a place end no line. -/
theorem count_take_origin (zone : Zone) (cs : List Char) (i : Nat) :
    (cs.take (origin zone cs i)).count '\n' = ((stripFrom zone cs).take i).count '\n' := by
  induction cs generalizing zone i with
  | nil => cases zone <;> simp [stripFrom]
  | cons c cs ih =>
    obtain ⟨zone', ⟨hstrip, hkept⟩ | ⟨hc, hstrip, hkept⟩⟩ := keeps_or_removes zone c cs
    · cases i with
      | zero => rw [origin_zero hkept, List.take_zero, List.take_zero]
      | succ i =>
        rw [origin_succ hkept, hstrip, List.take_succ_cons, List.take_succ_cons, List.count_cons,
          List.count_cons, ih]
    · rw [origin_removed hkept, hstrip, List.take_succ_cons, List.count_cons_of_ne hc, ih]

theorem toList_strip (source : String) :
    (strip source).toList = stripFrom .code source.toList := String.toList_ofList

end Comment

/-! ## The lexer on its way -/

theorem Lexeme.count_of_isText {l : Lexeme} {w : List Char} (h : l.IsText w) :
    w.count '\n' = l.lineBreaks := by
  cases l with
  | int n =>
    refine List.count_eq_zero.mpr fun hmem => ?_
    cases h.1.2 _ hmem
  | string s =>
    obtain ⟨rfl, -⟩ := h
    simp [Lexeme.lineBreaks]
  | ident x =>
    obtain ⟨rfl, hx⟩ := h
    simp only [isName, Bool.and_eq_true, List.all_eq_true] at hx
    refine List.count_eq_zero.mpr fun hmem => ?_
    cases hx.1.2 _ hmem
  | mark m =>
    obtain ⟨rfl, -⟩ := h
    cases m <;> decide

theorem Lexeme.IsText.ne_nil {l : Lexeme} {w : List Char} (h : l.IsText w) : w ≠ [] := by
  cases l with
  | int n => exact h.1.1
  | string s =>
    obtain ⟨rfl, -⟩ := h
    exact List.cons_ne_nil _ _
  | ident x =>
    rintro rfl
    obtain ⟨hx, hname⟩ := h
    simp [isName, ← hx] at hname
  | mark m =>
    obtain ⟨rfl, hm⟩ := h
    cases m with
    | eof => exact absurd rfl hm
    | _ => decide

namespace Cursor

variable {c c' c'' : Cursor}

/-- From the first place to the second one text is passed, and the line goes on with it. -/
def Moves (c c' : Cursor) : Prop :=
  ∃ passed, c.rest = passed ++ c'.rest ∧ c'.line = c.line + passed.count '\n'

theorem Moves.refl (c : Cursor) : c.Moves c := ⟨[], rfl, rfl⟩

theorem Moves.trans (h : c.Moves c') (h' : c'.Moves c'') : c.Moves c'' := by
  obtain ⟨passed, hrest, hline⟩ := h
  obtain ⟨more, hrest', hline'⟩ := h'
  refine ⟨passed ++ more, ?_, ?_⟩
  · rw [hrest, hrest', List.append_assoc]
  · rw [hline', hline, List.count_append, Nat.add_assoc]

/-- The place in front of the next token. -/
def front (c : Cursor) : Cursor := ⟨c.rest.dropWhile isBlank, c.line⟩

theorem moves_front (c : Cursor) : c.Moves c.front := by
  refine ⟨_, List.takeWhile_append_dropWhile.symm, ?_⟩
  have hblanks : '\n' ∉ c.rest.takeWhile isBlank := by
    intro hmem
    cases List.all_eq_true.mp List.all_takeWhile _ hmem
  rw [List.count_eq_zero.mpr hblanks]
  rfl

theorem moves_next (c : Cursor) : c.Moves c.next.2 := by
  refine (moves_front c).trans ?_
  simp only [next, front]
  split
  · rename_i l rest hscan
    rcases scan_eq_ok_iff.mp hscan with ⟨w, hw, hl, -⟩ | ⟨hnil, rfl, rfl⟩
    · exact ⟨w, hw, by rw [l.count_of_isText hl]⟩
    · exact ⟨[], hnil, rfl⟩
  · exact .refl _

/-- The place behind the first `k` tokens. -/
def after (c : Cursor) : Nat → Cursor
  | 0 => c
  | k + 1 => c.next.2.after k

theorem moves_after (c : Cursor) (k : Nat) : c.Moves (c.after k) := by
  induction k generalizing c with
  | zero => exact .refl c
  | succ k ih => exact (moves_next c).trans (ih c.next.2)

theorem next_of_token (c : Cursor) {t : Token} :
    ∀ k, c.feed.tokens[k]? = some t → (c.after k).next.1 = .ok t := by
  fun_induction feed c with
  | case1 c e c' hc =>
    intro k h
    cases h
  | case2 c t' c' hc heof =>
    intro k h
    cases k with
    | zero =>
      cases h
      rw [after, hc]
    | succ k => cases h
  | case3 c t' c' hc hne hlt more ih =>
    intro k h
    cases k with
    | zero =>
      cases h
      rw [after, hc]
    | succ k =>
      rw [after, hc]
      exact ih k h

theorem next_of_failure {e : Error} (h : c.feed.failure = some e) :
    (c.after c.feed.tokens.length).next.1 = .error e := by
  fun_induction feed c with
  | case1 c e' c' hc =>
    cases h
    rw [List.length_nil, after, hc]
  | case2 c t c' hc heof => cases h
  | case3 c t c' hc hne hlt more ih =>
    rw [List.length_cons, after, hc]
    exact ih h

/-- What is passed in front of a token, or where none begins, is blanks and the tokens before. -/
theorem munches_after (c : Cursor) :
    ∀ k, k < c.feed.tokens.length ∨ k = c.feed.tokens.length ∧ c.feed.failure.isSome →
      Munches c.rest ((c.feed.tokens.take k).map Token.lexeme) (c.after k).front.rest := by
  fun_induction feed c with
  | case1 c e c' hc =>
    intro k h
    obtain rfl : k = 0 := by simpa using h
    exact munches_blanks c.rest
  | case2 c t c' hc heof =>
    intro k h
    obtain rfl : k = 0 := by simpa using h
    exact munches_blanks c.rest
  | case3 c t c' hc hne hlt more ih =>
    intro k h
    cases k with
    | zero => exact munches_blanks c.rest
    | succ k =>
      obtain ⟨hmunch, -⟩ := munch_of_next hc hne
      have hrest := ih k (by simpa [more] using h)
      rw [after, hc]
      exact .cons hmunch hrest

end Cursor

namespace Source

/-- The place of the source in front of its `k`-th token, counted from 0, comments removed. -/
def front (source : String) (k : Nat) : Cursor :=
  ((Cursor.ofString (Comment.strip source)).after k).front

/-- The place in the source of the first character of its `k`-th token. Behind the last token that
is found, it is the place where none begins. -/
def place (source : String) (k : Nat) : Nat :=
  Comment.origin .code source.toList
    ((Comment.strip source).toList.length - (front source k).rest.length)

/-- The line of a place: one more than the line ends in front of it. -/
def lineAt (source : String) (place : Nat) : Nat := 1 + (source.toList.take place).count '\n'

/-- What the lexer has passed in front of a token. -/
theorem exists_passed (source : String) (k : Nat) : ∃ passed,
    Comment.stripFrom .code source.toList = passed ++ (front source k).rest ∧
      (front source k).line = 1 + passed.count '\n' ∧
      place source k = Comment.origin .code source.toList passed.length := by
  have hmoves : (Cursor.ofString (Comment.strip source)).Moves (front source k) :=
    (Cursor.moves_after _ k).trans (Cursor.moves_front _)
  obtain ⟨passed, hrest, hline⟩ := hmoves
  have hstrip : (Comment.strip source).toList = passed ++ (front source k).rest := hrest
  refine ⟨passed, by rw [← Comment.toList_strip, hstrip], hline, ?_⟩
  rw [place, hstrip, List.length_append, Nat.add_sub_cancel]

theorem line_front (source : String) (k : Nat) :
    (front source k).line = lineAt source (place source k) := by
  obtain ⟨passed, hrest, hline, hplace⟩ := exists_passed source k
  -- The lexer has counted in what is left of the source, which has the same line ends in front.
  rw [hline, hplace, lineAt, Comment.count_take_origin, hrest, List.take_left' rfl]

theorem getElem?_place (source : String) (k : Nat) :
    source.toList[place source k]? = (front source k).rest.head? := by
  obtain ⟨passed, hrest, -, hplace⟩ := exists_passed source k
  rw [hplace, Comment.getElem?_origin, hrest, List.getElem?_append_right (Nat.le_refl _),
    Nat.sub_self, List.head?_eq_getElem?]

end Source

/-! ## Errors with a line -/

/-- The line that the error names. -/
def Error.line? : Error → Option Nat
  | .lexical line _ | .unexpected line _ _ => some line
  | _ => none

namespace Checker

variable {α β ι : Type}

/-- Errors of the checker name no line. -/
def Unplaced (c : Checker α) : Prop := ∀ n e, c n = .error e → e.line? = none

namespace Unplaced

theorem pure (a : α) : Unplaced (Pure.pure a) := nofun

theorem bind {c : Checker α} {k : α → Checker β} (hc : Unplaced c) (hk : ∀ a, Unplaced (k a)) :
    Unplaced (c >>= k) := by
  intro n e h
  have h : (c n >>= fun p => k p.1 p.2) = .error e := h
  cases hn : c n with
  | error e' =>
    rw [hn] at h
    cases h
    exact hc n e hn
  | ok p =>
    rw [hn] at h
    exact hk p.1 p.2 e h

theorem var (x : String) : Unplaced (Checker.var x) := by
  intro n e h
  unfold Checker.var at h
  split at h <;> cases h
  rfl

theorem declareVar (x : String) : Unplaced (Checker.declareVar x) := by
  intro n e h
  unfold Checker.declareVar at h
  split at h <;> cases h
  rfl

theorem setVar (x : String) (ty : Ty) : Unplaced (Checker.setVar x ty) := by
  intro n e h
  unfold Checker.setVar at h
  split at h <;> cases h
  rfl

theorem function (f : String) : Unplaced (Checker.function f) := by
  intro n e h
  unfold Checker.function at h
  split at h <;> cases h
  rfl

theorem declareFunction (f : String) (params : Nat) :
    Unplaced (Checker.declareFunction f params) := by
  intro n e h
  unfold Checker.declareFunction at h
  split at h <;> cases h
  rfl

theorem setResult (f : String) (ty : Ty) : Unplaced (Checker.setResult f ty) := by
  intro n e h
  unfold Checker.setResult at h
  split at h <;> cases h

theorem inFrame {c : Checker α} (hc : Unplaced c) : Unplaced (Checker.inFrame c) := by
  intro n e h
  unfold Checker.inFrame at h
  cases hinner : c { n with vars := .empty } with
  | error e' =>
    rw [hinner] at h
    cases h
    exact hc _ e hinner
  | ok p =>
    rw [hinner] at h
    cases h

theorem params (xs : List String) : Unplaced (xs.forM Checker.declareVar) := by
  induction xs with
  | nil => exact pure ()
  | cons x xs ih => exact (declareVar x).bind fun _ => ih

theorem ofExcept {r : Except Error α} (hr : ∀ e, r = .error e → e.line? = none) :
    Unplaced (liftM r) := by
  intro n e h
  cases r with
  | error e' =>
    cases h
    exact hr e rfl
  | ok a => cases h

end Unplaced

theorem unplaced_binary (op : BinaryOp) (l r : Ty) : Unplaced (liftM (op.check l r)) := by
  refine .ofExcept fun e h => ?_
  rcases op with op | op | _ <;> simp only [BinaryOp.check] at h <;> split at h <;> cases h <;> rfl

theorem unplaced_unary (op : UnaryOp) (ty : Ty) : Unplaced (liftM (op.check ty)) := by
  refine .ofExcept fun e h => ?_
  unfold UnaryOp.check at h
  split at h <;> cases h
  rfl

theorem unplaced_arity (s : Signature) (f : String) (given : Nat) :
    Unplaced (liftM (s.checkArity f given)) := by
  refine .ofExcept fun e h => ?_
  unfold Signature.checkArity at h
  split at h <;> cases h
  rfl

mutual

theorem unplaced_check : ∀ n : Node ι, Unplaced (check n)
  | .var _ x => by
    simp only [check]
    exact .var x
  | .int _ _ | .str _ _ | .read _ | .skip _ => by
    simp only [check]
    exact .pure _
  | .binary _ op left right => by
    simp only [check]
    refine (unplaced_check right).bind fun r => (unplaced_check left).bind fun l => ?_
    exact unplaced_binary op l r
  | .unary _ op operand => by
    simp only [check]
    exact (unplaced_check operand).bind fun ty => unplaced_unary op ty
  | .call _ f args => by
    simp only [check]
    refine (Unplaced.function f).bind fun s => (unplaced_arity s f _).bind fun _ => ?_
    exact (unplaced_checkArgs args).bind fun _ => .pure _
  | .assign _ x value => by
    simp only [check]
    refine (unplaced_check value).bind fun ty => ?_
    exact (Unplaced.setVar x ty).bind fun _ => .pure _
  | .declare _ x => by
    simp only [check]
    exact (Unplaced.declareVar x).bind fun _ => .pure _
  | .define _ x value => by
    simp only [check]
    refine (Unplaced.declareVar x).bind fun _ => (unplaced_check value).bind fun ty => ?_
    exact (Unplaced.setVar x ty).bind fun _ => .pure _
  | .print _ value => by
    simp only [check]
    exact (unplaced_check value).bind fun _ => .pure _
  | .ret _ value => by
    simp only [check]
    exact unplaced_check value
  | .branch _ cond yes no => by
    simp only [check]
    refine (unplaced_check cond).bind fun _ => (unplaced_checkBlock yes).bind fun _ => ?_
    exact (unplaced_checkBlock no).bind fun _ => .pure _
  | .loop _ cond body => by
    simp only [check]
    refine (unplaced_check cond).bind fun _ => ?_
    exact (unplaced_checkBlock body).bind fun _ => .pure _
  | .function _ f params body => by
    simp only [check]
    refine (Unplaced.declareFunction f _).bind fun _ => ?_
    refine (Unplaced.inFrame ?_).bind fun _ => .pure _
    refine (Unplaced.params params).bind fun _ => (unplaced_checkBlock body).bind fun ty => ?_
    exact .setResult f ty
  | .block _ body => by
    simp only [check]
    exact unplaced_checkBlock body

theorem unplaced_checkBlock : ∀ ns : List (Node ι), Unplaced (checkBlock ns)
  | [] => by
    simp only [checkBlock]
    exact .pure _
  | n :: rest => by
    simp only [checkBlock]
    refine (unplaced_check n).bind fun ty => ?_
    split
    · exact .pure ty
    · exact unplaced_checkBlock rest

theorem unplaced_checkArgs : ∀ ns : List (Node ι), Unplaced (checkArgs ns)
  | [] => by
    simp only [checkArgs]
    exact .pure _
  | n :: rest => by
    simp only [checkArgs]
    refine (unplaced_checkArgs rest).bind fun _ => ?_
    exact (unplaced_check n).bind fun _ => .pure _

end

end Checker

/-- Errors of the code for a tree name no line. -/
theorem line?_of_generate {root : Node Nat} {e : Error} (h : generate root = .error e) :
    e.line? = none := by
  have htracks : Checker.check root ⟨.empty, .empty⟩ = _ := tracks_evaluate root ⟨.empty, .empty⟩
  simp only [generate, generateWith, result_program] at h
  cases hresult : (evaluate root ⟨.empty, .empty⟩).result with
  | error e' =>
    rw [hresult] at h htracks
    cases h
    exact Checker.unplaced_check root _ e htracks
  | ok v =>
    rw [hresult] at h
    cases h

/-- So an error with a line is one of the text. -/
theorem Compiler.parse_of_compile {c : Compiler} {source : String} {e : Error} {line : Nat}
    (h : (c.compile source).1 = .error e) (hline : e.line? = some line) :
    ∃ stop, Reader.readProgram (Source.feed source) = .error stop ∧ stop.error = e := by
  simp only [compile, Source.parse] at h
  split at h
  · rw [line?_of_generate h] at hline
    cases hline
  · rename_i stop hstop
    cases h
    exact ⟨stop, hstop, rfl⟩

/-! ## The lines that are reported -/

namespace Source

variable {source : String}

theorem scan_of_token {k : Nat} {t : Token} (h : (feed source).tokens[k]? = some t) :
    ∃ rest, scan (front source k).rest = .ok (t.lexeme, rest) ∧ t.line = (front source k).line := by
  obtain ⟨hscan, hline, -⟩ := Cursor.scan_of_next (Prod.ext (Cursor.next_of_token _ k h) rfl)
  exact ⟨_, hscan, hline⟩

theorem scan_of_failure {e : Error} (h : (feed source).failure = some e) :
    ∃ cause, scan (front source (feed source).tokens.length).rest = .error cause ∧
      e = .lexical (front source (feed source).tokens.length).line cause := by
  obtain ⟨cause, hscan, herror, -⟩ :=
    Cursor.scan_of_next_error (Prod.ext (Cursor.next_of_failure h) rfl)
  exact ⟨cause, hscan, herror⟩

end Source

/-- The character at which what is wrong begins. -/
def LexicalCause.first? : LexicalCause → Option Char
  | .badCharacter c => some c
  | .unclosedString => some '"'
  | .loneDot _ => some '.'
  | .integerTooLarge digits => digits.toList.head?

theorem Blames.head? {left : List Char} {cause : LexicalCause} (h : Blames left cause) :
    ∃ c, cause.first? = some c ∧ left.head? = some c := by
  cases h with
  | badCharacter | unclosedString | loneDot => exact ⟨_, rfl, rfl⟩
  | @integerTooLarge ds rest hds =>
    cases ds with
    | nil => exact absurd rfl hds
    | cons d ds => exact ⟨d, by simp [LexicalCause.first?], rfl⟩

namespace Source

/-- Reading stops where tokens could not be found, or at a token that cannot stand where it does. -/
theorem stop_cases {source : String} {stop : Reader.Stop}
    (h : Reader.readProgram (feed source) = .error stop) :
    (feed source).failure = some stop.error ∨ ∃ k t expected, (feed source).tokens[k]? = some t ∧
      Viable ((feed source).lexemes.take k) ∧ ¬ Viable ((feed source).lexemes.take (k + 1)) ∧
      stop.error = .unexpected t.line expected t.category := by
  unfold Reader.readProgram at h
  split at h
  · rename_i hrun
    cases h
    obtain ⟨k, t, expected, ht, hviable, hwrong, herror⟩ := Reader.first_wrong_of_run hrun
    exact .inr ⟨k, t, expected, ht, hviable k (Nat.le_refl k), hwrong, herror⟩
  · rename_i hfailure
    cases h
    exact .inl hfailure
  · cases h

theorem munches_front {source : String} {k : Nat} (h : k < (feed source).tokens.length ∨
      k = (feed source).tokens.length ∧ (feed source).failure.isSome) :
    Munches (Comment.strip source).toList ((feed source).lexemes.take k) (front source k).rest := by
  have hmunches := Cursor.munches_after _ k h
  rwa [List.map_take] at hmunches

theorem first_of_token {source : String} {k : Nat} {t : Token}
    (h : (feed source).tokens[k]? = some t) (ht : t.lexeme ≠ .mark .eof) :
    ∃ ch more, t.lexeme.IsText (ch :: more) ∧ ch :: more <+: (front source k).rest ∧
      source.toList[place source k]? = some ch := by
  obtain ⟨rest, hscan, -⟩ := scan_of_token h
  rcases scan_eq_ok_iff.mp hscan with ⟨w, hw, hl, -⟩ | ⟨-, heof, -⟩
  · cases w with
    | nil => exact absurd rfl hl.ne_nil
    | cons ch more => exact ⟨ch, more, hl, ⟨rest, hw.symm⟩, by rw [getElem?_place, hw]; rfl⟩
  · exact absurd heof ht

theorem line_of_eof {source : String} {k : Nat} {t : Token}
    (h : (feed source).tokens[k]? = some t) (ht : t.lexeme = .mark .eof) :
    t.line = 1 + source.toList.count '\n' := by
  obtain ⟨rest, hscan, hline⟩ := scan_of_token h
  rcases scan_eq_ok_iff.mp hscan with hmunch | ⟨hnil, -, -⟩
  · exact absurd ht hmunch.ne_eof
  · obtain ⟨passed, hrest, hpassed, -⟩ := exists_passed source k
    rw [hnil, List.append_nil] at hrest
    rw [hline, hpassed, ← hrest, Comment.count_stripFrom]

end Source

open Source

/-- Every token has the line of the place in the source where its first character stands, and the
end of the text has the last line. An error of the lexer has the line of the place that no lexeme
begins at; of a string that is not closed this is the quotation mark. An error of the reader has
the line of the first token behind which what has been read begins no program. A place is known by
what stands in front of it: comments removed, these are blanks and the tokens before. -/
theorem lines_of_source (source : String) (c : Compiler) :
    (∀ k t, (feed source).tokens[k]? = some t →
      Munches (Comment.strip source).toList ((feed source).lexemes.take k) (front source k).rest ∧
      t.line = lineAt source (place source k) ∧
      (t.lexeme = .mark .eof → t.line = 1 + source.toList.count '\n') ∧
      (t.lexeme ≠ .mark .eof → ∃ ch more, t.lexeme.IsText (ch :: more) ∧
        ch :: more <+: (front source k).rest ∧ source.toList[place source k]? = some ch)) ∧
    (∀ line cause, (c.compile source).1 = .error (.lexical line cause) →
      ∃ k ch, k = (feed source).tokens.length ∧
        Munches (Comment.strip source).toList (feed source).lexemes (front source k).rest ∧
        Blames (front source k).rest cause ∧ line = lineAt source (place source k) ∧
        cause.first? = some ch ∧ source.toList[place source k]? = some ch) ∧
    (∀ line expected actual, (c.compile source).1 = .error (.unexpected line expected actual) →
      ∃ k t, (feed source).tokens[k]? = some t ∧ t.category = actual ∧
        Viable ((feed source).lexemes.take k) ∧ ¬ Viable ((feed source).lexemes.take (k + 1)) ∧
        line = lineAt source (place source k)) := by
  have hline {k : Nat} {t : Token} (h : (feed source).tokens[k]? = some t) :
      t.line = lineAt source (place source k) := by
    obtain ⟨rest, -, hline⟩ := scan_of_token h
    rw [hline, line_front]
  refine ⟨fun k t h => ⟨?_, hline h, line_of_eof h, first_of_token h⟩, ?_, ?_⟩
  · obtain ⟨hk, -⟩ := List.getElem?_eq_some_iff.mp h
    exact munches_front (.inl hk)
  · intro line cause h
    obtain ⟨stop, hstop, herror⟩ := Compiler.parse_of_compile h rfl
    rcases stop_cases hstop with hfailure | ⟨k, t, expected, -, -, -, hwrong⟩
    · obtain ⟨cause', hscan, hlexical⟩ := scan_of_failure hfailure
      rw [herror] at hlexical
      cases hlexical
      have hmunches := munches_front (.inr ⟨rfl, by rw [hfailure]; rfl⟩)
      have hblames := blames_of_scan hscan (stop_of_dropWhile _ _)
      obtain ⟨ch, hfirst, hhead⟩ := hblames.head?
      refine ⟨_, ch, rfl, ?_, hblames, line_front _ _, hfirst, by rw [getElem?_place, hhead]⟩
      rwa [Feed.lexemes, ← List.map_take, List.take_length] at hmunches
    · rw [herror] at hwrong
      cases hwrong
  · intro line expected actual h
    obtain ⟨stop, hstop, herror⟩ := Compiler.parse_of_compile h rfl
    rcases stop_cases hstop with hfailure | ⟨k, t, expected, ht, hviable, hwrong, hunexpected⟩
    · obtain ⟨cause, -, hlexical⟩ := scan_of_failure hfailure
      rw [herror] at hlexical
      cases hlexical
    · rw [herror] at hunexpected
      cases hunexpected
      exact ⟨k, t, ht, rfl, hviable, hwrong, hline ht⟩

/-- A comment, a string over two lines, and a string that is not closed. -/
example : (Compiler.new.compile "x = 1 -- \"\ny = \"a\nb\" .. \"c\n").1 =
    .error (.lexical 3 .unclosedString) := by
  decide +kernel

end Onepass
