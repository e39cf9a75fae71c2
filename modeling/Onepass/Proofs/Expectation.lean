import Onepass.Proofs.Munch
import Onepass.Proofs.Viability

/-!
# Onepass.Proofs.Expectation

What a message about a wrong token promises. It lists kinds of tokens, and all but two sorts of
them can stand where the wrong token does, whatever is open there (`take?_of_listed`).

* The words that end a block are listed where the text ends inside it. A line has to end in front
  of them, and the end of the text has ended the last one, so they may stand behind its line end.
* `return` is listed wherever a statement may begin. Only inside a function is it a statement
  (`inFunction_of_return`), and whether the reader is inside one can be told from the lexemes before
  (`words_of_reaches`).

`expectation_of_error` puts this together for every text.
-/

namespace Onepass

/-- The words of the constructs that are open, innermost first, behind one more lexeme. -/
def openedBy (words : List Mark) : Lexeme → List Mark
  | .mark .kFunction => .kFunction :: words
  | .mark .kWhile => .kWhile :: words
  | .mark .kIf => .kIf :: words
  | .mark .kEnd => words.tail
  | _ => words

/-- The words of the constructs that have begun and not ended, innermost first. -/
def openWords (ls : List Lexeme) : List Mark := ls.foldl openedBy []

/-- A function has begun and not ended. -/
def InFunction (ls : List Lexeme) : Prop := .kFunction ∈ openWords ls

/-- The lexemes up to the end of their last line. -/
def endLine (ls : List Lexeme) : List Lexeme :=
  if ls.getLast? = some (.mark .newline) then ls else ls ++ [.mark .newline]

/-- What it means that `expected` is listed where `actual` stands behind the lexemes. -/
structure Expectation (ls : List Lexeme) (expected : List Category) (actual : Category) :
    Prop where
  /-- What is found is not listed. -/
  found : actual ∉ expected
  /-- A lexeme of a kind listed can stand there. -/
  next : ∀ l : Lexeme, l.category ∈ expected → l ∉ [.mark .eof, .mark .kEnd, .mark .kElse] →
    (l = .mark .kReturn → InFunction ls) → Viable (ls ++ [l])
  /-- A word that ends a block is missed at the end of the text. It can begin the next line. -/
  ending : ∀ k ∈ [Mark.kEnd, Mark.kElse], .mark k ∈ expected →
    actual = .mark .eof ∧ Viable (endLine ls ++ [.mark k])

namespace Reader

/-! ## The words of what is open -/

/-- The word that the construct begins with. -/
def Construct.word : Construct → Mark
  | .function _ _ => .kFunction
  | .loop _ => .kWhile
  | .thenPart _ | .elsePart _ _ => .kIf

namespace Mode

/-- The word of the construct whose block is still to come. -/
def words : Mode → List Mark
  | .functionWord | .functionName _ | .paramsOpen _ | .paramNext _ _ | .param _ _ => [.kFunction]
  | .operand ctx | .operandName ctx _ | .argsOpen ctx _ | .readWord ctx | .readOpen ctx
  | .behind ctx _ _ =>
    match ctx.purpose with
    | .loop => [.kWhile]
    | .branch => [.kIf]
    | _ => []
  | .lineBreak k => [k.word]
  | _ => []

/-- A lexeme within a statement: it opens no construct and ends neither one nor a line. -/
structure Within (m : Mode) (l : Lexeme) (m' : Mode) : Prop where
  words : m'.words = m.words
  openedBy (ws : List Mark) : openedBy ws l = ws
  fresh : m' ≠ .fresh
  newline : l ≠ .mark .newline

variable {m m' : Mode} {ctx : Context} {l : Lexeme}

theorem within_of_beginOperand? (h : beginOperand? ctx l = some m')
    (hm : m.words = (Mode.operand ctx).words) : m.Within l m' := by
  rcases l with n | s | x | k
  · cases h; exact ⟨hm.symm, fun _ => rfl, by simp, by simp⟩
  · cases h; exact ⟨hm.symm, fun _ => rfl, by simp, by simp⟩
  · cases h; exact ⟨hm.symm, fun _ => rfl, by simp, by simp⟩
  · cases k <;> cases h <;> exact ⟨hm.symm, fun _ => rfl, by simp, by simp⟩

theorem within_of_continueOperand? {t : Tree} {built : Bool}
    (h : continueOperand? ctx t l = some m') : (Mode.behind ctx t built).Within l m' := by
  obtain ⟨p, st⟩ := ctx
  unfold continueOperand? at h
  split at h
  · rename_i op hop
    cases h
    rcases l with n | s | x | k
    · cases hop
    · cases hop
    · cases hop
    · cases k <;> cases hop <;> exact ⟨rfl, fun _ => rfl, by simp, by simp⟩
  · dsimp only at h
    split at h <;> cases h <;> exact ⟨rfl, fun _ => rfl, by simp, by simp⟩

theorem within_of_shift? (h : m.shift? l = some m') : m.Within l m' := by
  unfold shift? at h
  split at h
  all_goals
    first
    | exact within_of_beginOperand? h rfl
    | exact within_of_continueOperand? h
    | cases h <;> exact ⟨rfl, fun _ => rfl, by simp, by simp⟩

theorem words_settleOperand (ctx : Context) (t : Tree) (next : Category) :
    (settleOperand ctx t next).words = (Mode.operand ctx).words := by
  by_cases hopen : ctx.Open
  · rw [settleOperand_of_open hopen]
    dsimp only
    split
    · -- an expression that completes its statement is no condition
      rename_i hcomplete
      obtain ⟨p, st⟩ := ctx
      cases p <;> cases hcomplete <;> rfl
    · rfl
  · obtain rfl := ctx.eq_of_not_open hopen
    rfl

theorem words_settle (m : Mode) (next : Category) : (m.settle next).words = m.words := by
  cases m with
  | behind ctx t built => exact words_settleOperand ctx t next
  | operandName ctx x =>
    rw [settle]
    split
    · rfl
    · exact words_settleOperand ctx _ next
  | localName x =>
    rw [settle]
    split <;> rfl
  | _ => rfl

end Mode

namespace State

/-- The words of the constructs that are open, innermost first. -/
def words (s : State) : List Mark := s.mode.words ++ s.around.map fun c => c.1.word

/-- What every lexeme does, wherever it is taken: to what is open, and to the line. -/
structure Tells (s : State) (l : Lexeme) (s' : State) : Prop where
  words : s'.words = openedBy s.words l
  line : s'.mode = .fresh ↔ l = .mark .newline

variable {s s' : State} {l : Lexeme}

theorem tells_of_begin? (hs : s.mode = .fresh) (h : s.begin? l = some s') : s.Tells l s' := by
  obtain ⟨before, around, m⟩ := s
  dsimp only at hs
  subst hs
  rcases l with n | s | x | k
  · cases h
  · cases h
  · cases h
    exact ⟨rfl, by simp [withMode]⟩
  · cases k with
    | kReturn | eof =>
      simp only [begin?] at h
      split at h <;> cases h
      exact ⟨rfl, by simp [withMode]⟩
    | kElse | kEnd =>
      simp only [begin?] at h
      split at h <;> cases h
      exact ⟨rfl, by simp⟩
    | _ =>
      cases h <;> exact ⟨rfl, by simp [withMode, append]⟩

theorem tells_of_shift? (h : s.shift? l = some s') : s.Tells l s' := by
  unfold shift? at h
  split at h
  · rename_i hm
    exact tells_of_begin? hm h
  · rename_i hm
    cases h
    exact ⟨by simp [words, hm, append, Mode.words, openedBy], by simp [append]⟩
  · rename_i hm
    split at h <;> cases h
    exact ⟨by simp [words, hm, append, Mode.words, openedBy], by simp [append]⟩
  · rename_i hm
    cases h
    exact ⟨by simp [words, hm, Mode.words, openedBy], by simp⟩
  · obtain ⟨m, hm, rfl⟩ := Option.map_eq_some_iff.mp h
    have hwithin := Mode.within_of_shift? hm
    refine ⟨?_, fun hfresh => absurd hfresh hwithin.fresh, fun hl => absurd hl hwithin.newline⟩
    rw [hwithin.openedBy]
    simp [words, withMode, hwithin.words]

theorem tells_of_take? (h : s.take? l = some s') : s.Tells l s' := by
  have hshift := tells_of_shift? h
  refine ⟨?_, hshift.line⟩
  rw [hshift.words]
  simp [words, settle, Mode.words_settle]

end State

/-- The words open behind a way are those open behind its lexemes. -/
theorem words_of_reaches {s s' : State} {ls : List Lexeme} (h : Reaches s ls s') :
    s'.words = ls.foldl openedBy s.words := by
  induction h with
  | refl => rfl
  | cons hs _ ih => rw [ih, (State.tells_of_take? hs).words, List.foldl_cons]

theorem inFunction_of_openWords {s : State} {ls : List Lexeme} (h : Reaches .start ls s)
    (hfresh : s.mode = .fresh) (hin : InFunction ls) : s.inFunction = true := by
  have hwords : s.words = openWords ls := words_of_reaches h
  rw [InFunction, ← hwords, State.words, hfresh] at hin
  obtain ⟨c, hc, hword⟩ := List.mem_map.mp hin
  refine List.any_eq_true.mpr ⟨c, hc, ?_⟩
  obtain ⟨k, before⟩ := c
  cases k with
  | function => rfl
  | loop | thenPart | elsePart => cases hword

theorem inFunction_of_reaches {s : State} {ls : List Lexeme} (h : Reaches .start ls s)
    (hin : s.inFunction = true) : InFunction ls := by
  have hwords : s.words = openWords ls := words_of_reaches h
  obtain ⟨⟨k, before⟩, hc, hk⟩ := List.any_eq_true.mp hin
  rw [InFunction, ← hwords]
  refine List.mem_append_right _ (List.mem_map.mpr ⟨_, hc, ?_⟩)
  cases k with
  | function => rfl
  | loop | thenPart | elsePart => cases hk

/-- `return` is no part of another statement. -/
theorem Mode.shift?_return (m : Mode) : m.shift? (.mark .kReturn) = none := by
  cases m with
  | behind ctx t built =>
    obtain ⟨p, st⟩ := ctx
    cases st with
    | nil => cases p <;> rfl
    | cons x st => cases x <;> rfl
  | _ => rfl

theorem State.inFunction_of_return {s s' : State} (h : s.shift? (.mark .kReturn) = some s') :
    s.inFunction = true := by
  obtain ⟨before, around, m⟩ := s
  by_cases hm : m = .fresh
  · subst hm
    by_contra hin
    have hnone : State.shift? ⟨before, around, .fresh⟩ (.mark .kReturn) = none := if_neg hin
    rw [hnone] at h
    cases h
  · have hmode : State.shift? ⟨before, around, m⟩ (.mark .kReturn) =
        (m.shift? (.mark .kReturn)).map (State.withMode ⟨before, around, m⟩) := by
      cases m with
      | fresh => exact absurd rfl hm
      | _ => rfl
    rw [hmode, Mode.shift?_return] at h
    cases h

/-- A statement may begin at the start and behind line ends only. -/
theorem getLast?_of_reaches {s : State} {ls : List Lexeme} (h : Reaches .start ls s)
    (hls : ls ≠ []) : s.mode = .fresh ↔ ls.getLast? = some (.mark .newline) := by
  obtain ⟨front, l, rfl⟩ := List.eq_nil_or_concat' ls |>.resolve_left hls
  obtain ⟨s₁, -, hlast⟩ := h.split
  cases hlast with
  | cons htake hrest =>
    cases hrest
    rw [(State.tells_of_take? htake).line]
    simp

/-! ## Which of the kinds listed can be taken -/

theorem stable_reduce (level : Nat) (st : List Pending) (t : Tree) :
    Stable level (reduce level st t).1 := by
  fun_induction reduce level st t with
  | case1 op rest t ih => exact ih
  | case2 op l rest t hlevel ih => exact ih
  | case3 op l rest t hlevel => exact Nat.lt_of_not_le hlevel
  | case4 rest t hunary hbinary =>
    cases rest with
    | nil => trivial
    | cons p rest =>
      cases p with
      | unary op => exact (hunary op rest rfl).elim
      | binary op l => exact (hbinary op l rest rfl).elim
      | group | argument => trivial

/-- Tokens that are no operators are all alike to an operand. -/
theorem settleOperand_congr {ctx : Context} {t : Tree} {next next' : Category}
    (h : binaryOp? next = none) (h' : binaryOp? next' = none) :
    settleOperand ctx t next = settleOperand ctx t next' := by
  unfold settleOperand followLevel
  rw [h, h']

/-- Before a token that is no operator, an operand completes its statement, or no operator is left
that could take it. -/
theorem settleOperand_cases (ctx : Context) (t : Tree) {next : Category}
    (h : binaryOp? next = none) :
    (∃ u, settleOperand ctx t next = .done u true) ∨
    ∃ st u, settleOperand ctx t next = .behind ⟨ctx.purpose, st⟩ u true ∧ Stable 0 st ∧
      (st = [] → ctx.purpose.complete? u = none) := by
  by_cases hopen : ctx.Open
  · rw [settleOperand_of_open hopen]
    have hstable := stable_reduce (followLevel next) ctx.stack t
    have hlevel : followLevel next = 0 := by rw [followLevel, h]; rfl
    rw [hlevel] at hstable ⊢
    dsimp only
    split
    · exact .inl ⟨_, rfl⟩
    · rename_i hmore
      refine .inr ⟨_, _, rfl, hstable, fun hnil => ?_⟩
      cases hu : ctx.purpose.complete? (reduce 0 ctx.stack t).2 with
      | none => rfl
      | some statement => exact (hmore statement hnil h hu).elim
  · obtain rfl := ctx.eq_of_not_open hopen
    exact .inl ⟨t, rfl⟩

theorem exists_behind_of_operator {ctx : Context} (hopen : ctx.Open) (t : Tree) {next : Category}
    {op : BinaryOp} (h : binaryOp? next = some op) :
    ∃ st u, settleOperand ctx t next = .behind ⟨ctx.purpose, st⟩ u true := by
  rw [settleOperand_of_open hopen]
  dsimp only
  split
  · rename_i hnone _
    rw [h] at hnone
    cases hnone
  · exact ⟨_, _, rfl⟩

theorem eq_mark_of_category {l : Lexeme} {k : Mark} (h : l.category = .mark k) : l = .mark k := by
  cases l <;> cases h
  rfl

theorem exists_ident {l : Lexeme} (h : l.category = .ident) : ∃ x, l = .ident x := by
  cases l <;> cases h
  exact ⟨_, rfl⟩

namespace Mode

theorem exists_beginOperand?_of_listed {l : Lexeme} (hl : l.category ∈ operandStart)
    (ctx : Context) : ∃ m, beginOperand? ctx l = some m := by
  rcases l with n | s | x | k
  · exact ⟨_, rfl⟩
  · exact ⟨_, rfl⟩
  · exact ⟨_, rfl⟩
  · cases k with
    | plus | minus | kNot | openParen | kRead => exact ⟨_, rfl⟩
    | _ => exact absurd hl (by simp [operandStart, Lexeme.category])

theorem shift?_argsOpen {ctx : Context} {f : String} {l : Lexeme} (hl : l ≠ .mark .closeParen) :
    (Mode.argsOpen ctx f).shift? l = beginOperand? (ctx.push (.argument f [])) l := by
  rcases l with n | s | x | k
  · rfl
  · rfl
  · rfl
  · cases k with
    | closeParen => exact absurd rfl hl
    | _ => rfl

/-- Where no operator is left, what is listed behind the operand is the one token that goes on with
what is around it. -/
theorem shift?_of_listed {p : Purpose} {st : List Pending} {t : Tree} {built : Bool} {l : Lexeme}
    (hst : Stable 0 st) (hp : st = [] → p.complete? t = none)
    (hl : l.category ∈ (Mode.behind ⟨p, st⟩ t built).expected) :
    l ≠ .mark .openParen ∧ binaryOp? l.category = none ∧
      ∃ m, (Mode.behind ⟨p, st⟩ t built).shift? l = some m := by
  cases st with
  | nil =>
    cases p with
    | assign | define | ret | call => cases hp rfl
    | print | loop | branch =>
      obtain rfl := eq_mark_of_category (List.mem_singleton.mp hl)
      exact ⟨by simp, rfl, _, rfl⟩
  | cons x rest =>
    have hclose : l.category = .mark .closeParen := by cases p <;> exact List.mem_singleton.mp hl
    obtain rfl := eq_mark_of_category hclose
    cases x with
    | unary op => exact hst.elim
    | binary op left => exact (Nat.not_lt_zero _ hst).elim
    | group | argument => exact ⟨by simp, rfl, _, rfl⟩

end Mode

namespace State

variable {s : State} {l l' : Lexeme}

theorem take?_of_done {t : Tree} {built : Bool}
    (h : s.mode.settle (.mark .newline) = .done t built) :
    s.take? (.mark .newline) = some (s.append t .fresh) := by
  simp [take?, settle, Lexeme.category, h, shift?, append]

theorem take?_eof_of_done {t : Tree} {built : Bool} (h : s.mode.settle (.mark .eof) = .done t built)
    (haround : s.around = []) : s.take? (.mark .eof) = some (s.append t .accepted) := by
  simp [take?, settle, Lexeme.category, h, shift?, append, haround]

theorem take?_of_mode {m : Mode} (h : (s.mode.settle l.category).shift? l = some m) :
    s.take? l = some (s.withMode m) := by
  have hshift : (s.settle l.category).mode.shift? l = some m := h
  exact shift?_of_mode hshift

/-- Behind an operand, in a mode that settles as behind it. -/
theorem take?_of_operand {ctx : Context} {t : Tree} (hoffers : s.mode.Offers ctx t 5)
    (hl : s.mode.settle l.category = settleOperand ctx t l.category) (hnone : s.take? l = none)
    (hl' : l'.category ∈ (s.mode.settle l.category).expected) (heof : l' ≠ .mark .eof) :
    ∃ s', s.take? l' = some s' := by
  have hnewline : s.mode.settle (.mark .newline) = settleOperand ctx t (.mark .newline) :=
    hoffers.any 5 _ (by decide) (by decide)
  rw [hl] at hl'
  have hdone {u : Tree} (hu : settleOperand ctx t l.category = .done u true)
      (hsame : settleOperand ctx t (.mark .newline) = settleOperand ctx t l.category) :
      ∃ s', s.take? l' = some s' := by
    rw [hu] at hl'
    have hl'newline : l' = .mark .newline := by
      rcases List.mem_pair.mp hl' with h | h
      · exact eq_mark_of_category h
      · exact absurd (eq_mark_of_category h) heof
    subst hl'newline
    exact ⟨_, take?_of_done (hnewline.trans (hsame.trans hu))⟩
  cases hop : binaryOp? l.category with
  | none =>
    rcases settleOperand_cases ctx t hop with ⟨u, hu⟩ | ⟨st, u, hu, hst, hp⟩
    · exact hdone hu (settleOperand_congr rfl hop)
    · rw [hu] at hl'
      obtain ⟨hparen, hop', m, hm⟩ := Mode.shift?_of_listed hst hp hl'
      have hsame : s.mode.settle l'.category = .behind ⟨ctx.purpose, st⟩ u true := by
        rw [← hu, settleOperand_congr hop hop']
        exact hoffers.any 5 _ (fun h => hparen (eq_mark_of_category h)) (followLevel_le _)
      exact ⟨_, take?_of_mode (hsame ▸ hm)⟩
  | some op =>
    by_cases hopen : ctx.Open
    · obtain ⟨st, u, hu⟩ := exists_behind_of_operator hopen t hop
      have hshift : (s.mode.settle l.category).shift? l =
          some (.operand (Context.push ⟨ctx.purpose, st⟩ (.binary op u))) := by
        simp only [hl, hu, Mode.shift?, Mode.continueOperand?, hop]
      rw [take?_of_mode hshift] at hnone
      cases hnone
    · -- a call that is a statement ends it, even before an operator
      obtain rfl := ctx.eq_of_not_open hopen
      exact hdone (u := t) rfl rfl

theorem exists_begin?_of_listed (hl : l.category ∈ Mode.statementStart)
    (hret : l = .mark .kReturn → s.inFunction = true) : ∃ s', s.begin? l = some s' := by
  rcases l with n | str | x | k
  · exact absurd hl (by simp [Mode.statementStart, Lexeme.category])
  · exact absurd hl (by simp [Mode.statementStart, Lexeme.category])
  · exact ⟨_, rfl⟩
  · cases k with
    | newline | kLocal | kFunction | kPrint | kWhile | kIf => exact ⟨_, rfl⟩
    | kReturn => exact ⟨_, if_pos (hret rfl)⟩
    | _ => exact absurd hl (by simp [Mode.statementStart, Lexeme.category])

/-- A token of a kind that the mode lists can be taken. -/
theorem take?_of_listed (hnone : s.take? l = none)
    (hl' : l'.category ∈ (s.mode.settle l.category).expected) (heof : l' ≠ .mark .eof)
    (hret : l' = .mark .kReturn → s.mode = .fresh → s.inFunction = true) :
    ∃ s', s.take? l' = some s' := by
  -- a statement that is complete can end with its line
  have hends {t : Tree} {built : Bool} (hdone : s.mode.settle l.category = .done t built)
      (hnewline : s.mode.settle (.mark .newline) = .done t built) :
      ∃ s', s.take? l' = some s' := by
    rw [hdone] at hl'
    rcases List.mem_pair.mp hl' with h | h
    · exact ⟨_, eq_mark_of_category h ▸ take?_of_done hnewline⟩
    · exact absurd (eq_mark_of_category h) heof
  obtain ⟨before, around, m⟩ := s
  cases m with
  | fresh => exact exists_begin?_of_listed hl' fun h => hret h rfl
  | name x =>
    rcases List.mem_pair.mp hl' with h | h
    · obtain rfl := eq_mark_of_category h
      exact ⟨_, rfl⟩
    · obtain rfl := eq_mark_of_category h
      exact ⟨_, rfl⟩
  | localWord | functionWord | paramsOpen | paramNext =>
    obtain ⟨x, rfl⟩ := exists_ident (List.mem_singleton.mp hl')
    exact ⟨_, rfl⟩
  | functionName | param | printWord | readWord | readOpen | lineBreak =>
    obtain rfl := eq_mark_of_category (List.mem_singleton.mp hl')
    exact ⟨_, rfl⟩
  | localName x =>
    by_cases hassign : l.category = .mark .assign
    · obtain rfl := eq_mark_of_category hassign
      cases hnone
    · exact hends (if_neg hassign) rfl
  | operand ctx =>
    obtain ⟨m, hm⟩ := Mode.exists_beginOperand?_of_listed hl' ctx
    exact ⟨_, take?_of_mode hm⟩
  | argsOpen ctx f =>
    obtain ⟨m, hm⟩ := Mode.exists_beginOperand?_of_listed hl' (ctx.push (.argument f []))
    have hclose : l' ≠ .mark .closeParen := by
      rintro rfl
      cases hm
    exact ⟨_, take?_of_mode ((Mode.shift?_argsOpen hclose).trans hm)⟩
  | operandName ctx x =>
    by_cases hparen : l.category = .mark .openParen
    · obtain rfl := eq_mark_of_category hparen
      cases hnone
    · exact take?_of_operand (Mode.offers_operandName ctx x 5) (if_neg hparen) hnone hl' heof
  | behind ctx t built =>
    exact take?_of_operand (Mode.offers_behind ctx t built 5) rfl hnone hl' heof
  | done t built => exact hends rfl rfl
  | accepted => cases hl'

end State

theorem Construct.mem_of_terminators {c : Construct} {k : Mark} (h : k ∈ c.terminators) :
    k ∈ [Mark.kEnd, Mark.kElse] := by
  cases c with
  | thenPart => exact h
  | _ => exact List.mem_cons.mpr (.inl (List.mem_singleton.mp h))

/-! ## What is said where a lexeme cannot be taken -/

namespace Mode

/-- No mode lists a word that ends a block, and only behind a statement one lists the end of the
text. -/
theorem of_listed {m : Mode} {c : Category} (h : c ∈ m.expected) :
    c ∉ [.mark .kEnd, .mark .kElse] ∧ (c = .mark .eof → ∃ t built, m = .done t built) := by
  have hother {cs : List Category}
      (hcs : ∀ c ∈ cs, c ∉ [.mark .kEnd, .mark .kElse] ∧ c ≠ .mark .eof) (hc : c ∈ cs) :
      c ∉ [.mark .kEnd, .mark .kElse] ∧ (c = .mark .eof → ∃ t built, m = .done t built) :=
    ⟨(hcs c hc).1, fun heof => absurd heof (hcs c hc).2⟩
  by_cases hdone : ∃ t built, m = .done t built
  · obtain ⟨t, built, rfl⟩ := hdone
    refine ⟨?_, fun _ => ⟨t, built, rfl⟩⟩
    rcases List.mem_pair.mp h with rfl | rfl <;> decide
  · unfold expected at h
    split at h <;> first | exact hother (by decide) h | exact absurd ⟨_, _, rfl⟩ hdone

theorem eq_fresh_of_settle {m : Mode} {next : Category} (h : m.settle next = .fresh) :
    m = .fresh := by
  have hoperand (ctx : Context) (t : Tree) : settleOperand ctx t next ≠ .fresh := by
    obtain ⟨p, st⟩ := ctx
    unfold settleOperand
    split
    · simp
    · dsimp only
      split <;> simp
  cases m with
  | fresh => rfl
  | behind ctx t built => exact (hoperand ctx t h).elim
  | operandName ctx x =>
    rw [settle] at h
    split at h
    · exact h
    · exact (hoperand ctx _ h).elim
  | localName x =>
    rw [settle] at h
    split at h <;> cases h
  | _ => cases h

/-- The end of the text and the end of a line complete the same statements. -/
theorem settle_newline_of_eof {m : Mode} {t : Tree} {built : Bool}
    (h : m.settle (.mark .eof) = .done t built) : m.settle (.mark .newline) = .done t built := by
  cases m with
  | behind ctx u b => exact (settleOperand_congr rfl rfl).trans h
  | operandName ctx x =>
    rw [settle, if_neg (by decide)] at h ⊢
    exact (settleOperand_congr rfl rfl).trans h
  | localName x => exact h
  | done u b => exact h
  | _ => cases h

end Mode

namespace State

/-- The text ends where a statement may begin or has ended, inside a block. -/
structure Misses (s : State) (next : Category) (k : Mark) : Prop where
  next : next = .mark .eof
  mode : s.mode = .fresh ∨ ∃ t built, s.mode = .done t built
  construct : ∃ c before around, s.around = (c, before) :: around ∧ k ∈ c.terminators

/-- The kinds named are those the mode lists, apart from ends of blocks, and from `return` where
that is the wrong token. -/
theorem expected_cases {s : State} {next k : Category} (h : k ∈ s.expected next) :
    (∃ m, k = .mark m ∧ s.Misses next m) ∨
    (k ∈ s.mode.expected ∧ (k = .mark .kReturn → s.mode = .fresh → next ≠ .mark .kReturn) ∧
      (∀ t built, s.mode = .done t built → next = .mark .eof → s.around = [])) := by
  unfold expected at h
  split at h
  · rename_i c before around hm haround
    obtain ⟨m, hterm, rfl⟩ := List.mem_map.mp h
    exact .inl ⟨m, rfl, rfl, .inl hm, c, before, around, haround, hterm⟩
  · rename_i t built c before around hm haround
    obtain ⟨m, hterm, rfl⟩ := List.mem_map.mp h
    exact .inl ⟨m, rfl, rfl, .inr ⟨t, built, hm⟩, c, before, around, haround, hterm⟩
  · rename_i hm
    have htop : ∀ c ∈ Mode.topLevelStart, c ∈ Mode.statementStart ∧ c ≠ .mark .kReturn := by
      decide
    refine .inr ⟨?_, fun hret => absurd hret (htop k h).2, ?_⟩
    · rw [hm]
      exact (htop k h).1
    · intro t built hdone
      rw [hm] at hdone
      cases hdone
  · rename_i hreturn _ hdone
    refine .inr ⟨h, fun _ hm hnext => hreturn hm hnext, ?_⟩
    intro t built hm hnext
    rcases haround : s.around with _ | ⟨⟨c, before⟩, around⟩
    · rfl
    · exact (hdone t built c before around hm hnext haround).elim

theorem take?_of_terminator {c : Construct} {before : List Tree}
    {around : List (Construct × List Tree)} {k : Mark} {s : State} (hm : s.mode = .fresh)
    (haround : s.around = (c, before) :: around) (hk : k ∈ c.terminators) :
    ∃ s', s.take? (.mark k) = some s' := by
  obtain ⟨inner, _, _⟩ := s
  dsimp only at hm haround
  subst hm haround
  cases c with
  | thenPart cond =>
    rcases List.mem_pair.mp hk with rfl | rfl
    · exact ⟨_, rfl⟩
    · exact ⟨_, rfl⟩
  | function | loop | elsePart =>
    obtain rfl := List.mem_singleton.mp hk
    exact ⟨_, rfl⟩

/-- What is said about a lexeme that cannot be taken. -/
theorem run_of_refused {s s' : State} {before : List Token} {t : Token}
    (h : Reaches s (before.map Token.lexeme) s') (ht : s'.take? t.lexeme = none)
    (after : List Token) :
    ∃ built, s.run (before ++ t :: after) = .error
      ⟨.unexpected t.line ((s'.settle t.category).expected t.category) t.category, built⟩ := by
  have hstep : s'.step t = .error
      ⟨.unexpected t.line ((s'.settle t.category).expected t.category) t.category,
        (s'.settle t.category).size⟩ := by
    have hshift : (s'.settle t.category).shift? t.lexeme = none := ht
    simp only [step, hshift]
  refine ⟨(s'.settle t.category).size, ?_⟩
  rw [run_append, run_eq_ok.mpr h, Except.bind, run, hstep]

end State

theorem ne_nil_of_reaches {s : State} {ls : List Lexeme} (h : Reaches .start ls s)
    (haround : s.around ≠ []) : ls ≠ [] := by
  rintro rfl
  cases h
  exact haround rfl

/-- A word that ends a block can stand at the beginning of the next line. -/
theorem viable_of_misses {s : State} {ls : List Lexeme} {next : Category} {k : Mark}
    (h : Reaches .start ls s) (hmisses : (s.settle next).Misses next k) :
    Viable (endLine ls ++ [.mark k]) := by
  obtain ⟨rfl, hmode, c, before, around, haround, hk⟩ := hmisses
  have haround : s.around = (c, before) :: around := haround
  have hne := ne_nil_of_reaches h (by rw [haround]; simp)
  have hline := getLast?_of_reaches h hne
  rcases hmode with hfresh | ⟨t, built, hdone⟩
  · have hm : s.mode = .fresh := Mode.eq_fresh_of_settle hfresh
    obtain ⟨s', hs'⟩ := State.take?_of_terminator hm haround hk
    rw [endLine, if_pos (hline.mp hm)]
    exact viable_iff.mpr ⟨s', h.snoc hs'⟩
  · -- the end of the text has ended the statement, so the end of a line can
    have hdone : s.mode.settle (.mark .eof) = .done t built := hdone
    have hnewline := State.take?_of_done (Mode.settle_newline_of_eof hdone)
    obtain ⟨s', hs'⟩ := State.take?_of_terminator (s := s.append t .fresh) rfl haround hk
    have hm : s.mode ≠ .fresh := by
      intro hm
      rw [hm] at hdone
      cases hdone
    rw [endLine, if_neg (fun hlast => hm (hline.mpr hlast))]
    exact viable_iff.mpr ⟨s', (h.snoc hnewline).snoc hs'⟩

/-- What is named where a lexeme cannot be taken. -/
theorem expectation_of_refused {s : State} {ls : List Lexeme} {l : Lexeme} (h : Reaches .start ls s)
    (hnone : s.take? l = none) :
    Expectation ls ((s.settle l.category).expected l.category) l.category where
  found := by
    intro hl
    rcases State.expected_cases hl with ⟨k, hk, hmisses⟩ | ⟨hlisted, hreturn, hdone⟩
    · obtain ⟨c, -, -, -, hterm⟩ := hmisses.construct
      have hend := Construct.mem_of_terminators hterm
      rw [hmisses.next] at hk
      cases hk
      exact absurd hend (by decide)
    · by_cases heof : l.category = .mark .eof
      · obtain ⟨t, built, hm⟩ := (Mode.of_listed hlisted).2 heof
        obtain rfl := eq_mark_of_category heof
        rw [State.take?_eof_of_done hm (hdone t built hm rfl)] at hnone
        cases hnone
      · have hret : l = .mark .kReturn → s.mode = .fresh → s.inFunction = true := by
          rintro rfl hm
          exact (hreturn rfl (by rw [State.settle, hm]; rfl) rfl).elim
        obtain ⟨s', hs'⟩ := State.take?_of_listed hnone hlisted (fun h => heof (h ▸ rfl)) hret
        rw [hnone] at hs'
        cases hs'
  next := by
    intro l' hl' hother hin
    rcases State.expected_cases hl' with ⟨k, hk, hmisses⟩ | ⟨hlisted, -, -⟩
    · obtain ⟨c, -, -, -, hterm⟩ := hmisses.construct
      have hend := Construct.mem_of_terminators hterm
      refine (hother ?_).elim
      rw [eq_mark_of_category hk]
      rcases List.mem_pair.mp hend with rfl | rfl <;> decide
    · have heof : l' ≠ .mark .eof := fun h => hother (by simp [h])
      obtain ⟨s', hs'⟩ := State.take?_of_listed hnone hlisted heof
        fun hreturn hm => inFunction_of_openWords h hm (hin hreturn)
      exact viable_iff.mpr ⟨s', h.snoc hs'⟩
  ending := by
    intro k hk hlisted
    rcases State.expected_cases hlisted with ⟨m, hm, hmisses⟩ | ⟨hmode, -, -⟩
    · cases hm
      exact ⟨hmisses.next, viable_of_misses h hmisses⟩
    · refine absurd ?_ (Mode.of_listed hmode).1
      rcases List.mem_pair.mp hk with rfl | rfl <;> decide

theorem reaches_iff_foldlM {s s' : State} {ls : List Lexeme} :
    Reaches s ls s' ↔ ls.foldlM State.take? s = some s' := by
  induction ls generalizing s with
  | nil =>
    constructor
    · rintro ⟨⟩
      rfl
    · rintro ⟨⟩
      exact .refl
  | cons l ls ih =>
    rw [List.foldlM_cons]
    constructor
    · rintro (_ | ⟨hs, hrest⟩)
      rw [hs]
      exact ih.mp hrest
    · intro h
      obtain ⟨s₁, hs, hrest⟩ := Option.bind_eq_some_iff.mp h
      exact .cons hs (ih.mpr hrest)

theorem viable_iff_isSome {ls : List Lexeme} :
    Viable ls ↔ (ls.foldlM State.take? State.start).isSome := by
  simp only [viable_iff, reaches_iff_foldlM, Option.isSome_iff_exists]

end Reader

instance : DecidablePred Viable := fun _ => decidable_of_iff _ Reader.viable_iff_isSome.symm

/-- A failure to find tokens is no wrong token. -/
theorem Cursor.failure_ne_unexpected (c : Cursor) (line : Nat) (expected : List Category)
    (actual : Category) : c.feed.failure ≠ some (.unexpected line expected actual) := by
  intro h
  obtain ⟨ls, left, -, ⟨-, hnone, -⟩ | ⟨-, cause, -, hlexical⟩⟩ := munches_of_feed c
  · rw [hnone] at h
    cases h
  · rw [hlexical] at h
    cases h

open Reader

/-- Where a parse fails with a wrong token, what it lists is what can stand there instead. -/
theorem expectation_of_error {source : String} {first line : Nat} {expected : List Category}
    {actual : Category}
    (h : (Source.parse source first).1 = .error (.unexpected line expected actual)) :
    ∃ before t after, (Source.feed source).tokens = before ++ t :: after ∧
      t.line = line ∧ t.category = actual ∧
      Viable (before.map Token.lexeme) ∧ ¬ Viable (before.map Token.lexeme ++ [t.lexeme]) ∧
      Expectation (before.map Token.lexeme) expected actual := by
  simp only [Source.parse, readProgram] at h
  cases hrun : State.start.run (Source.feed source).tokens with
  | error stop =>
    rw [hrun] at h
    obtain ⟨before, t, after, s, htokens, hs, ht, -⟩ := State.run_eq_error hrun
    obtain ⟨built, hbuilt⟩ := State.run_of_refused hs ht after
    rw [htokens, hbuilt] at hrun
    cases hrun
    cases h
    exact ⟨before, t, after, htokens, rfl, rfl, viable_iff.mpr ⟨s, hs⟩, not_viable_of_take? hs ht,
      expectation_of_refused hs ht⟩
  | ok s =>
    rw [hrun] at h
    cases hfailure : (Source.feed source).failure with
    | none =>
      rw [hfailure] at h
      cases h
    | some e =>
      rw [hfailure] at h
      cases h
      exact absurd hfailure (Cursor.failure_ne_unexpected _ _ _ _)

/-- A stray parenthesis in a function, where `return` is listed and can stand. -/
theorem expectation_of_strayParen :
    (Source.parse "function f()\n)\n" 0).1 =
        .error (.unexpected 2 Mode.statementStart (.mark .closeParen)) ∧
      ∃ before t after, (Source.feed "function f()\n)\n").tokens = before ++ t :: after ∧
        t.line = 2 ∧ t.category = .mark .closeParen ∧
        Viable (before.map Token.lexeme) ∧ ¬ Viable (before.map Token.lexeme ++ [t.lexeme]) ∧
        Expectation (before.map Token.lexeme) Mode.statementStart (.mark .closeParen) :=
  have h : (Source.parse "function f()\n)\n" 0).1 =
      .error (.unexpected 2 Mode.statementStart (.mark .closeParen)) := by decide +kernel
  ⟨h, expectation_of_error h⟩

/-- Only inside a function does `return` begin a statement. -/
theorem inFunction_of_return {ls : List Lexeme} (h : Viable (ls ++ [.mark .kReturn])) :
    InFunction ls := by
  obtain ⟨s', hs'⟩ := viable_iff.mp h
  obtain ⟨s, hs, hlast⟩ := hs'.split
  cases hlast with
  | cons htake hrest =>
    have hin : (s.settle (.mark .kReturn)).inFunction = true := State.inFunction_of_return htake
    exact inFunction_of_reaches hs hin

/-- A wrong token that is not `return` has it listed outside every function too, against what can
stand there. -/
example :
    (Source.parse ")\n" 0).1 = .error (.unexpected 1 Mode.statementStart (.mark .closeParen)) ∧
      .mark .kReturn ∈ Mode.statementStart ∧ ¬ Viable [.mark .kReturn] := by
  decide +kernel

/-- Where the text ends behind a statement of a block, `end` is listed, but the line of the
statement has to end before it. -/
theorem listed_not_viable :
    (Source.parse "while 1 do\nprint(1)" 0).1 =
        .error (.unexpected 2 [.mark .kEnd] (.mark .eof)) ∧
      (Source.feed "while 1 do\nprint(1)").lexemes[8]? = some (.mark .eof) ∧
      ¬ Viable ((Source.feed "while 1 do\nprint(1)").lexemes.take 8 ++ [.mark .kEnd]) := by
  decide +kernel

end Onepass
