import Onepass.Proofs.Parsing

/-!
# Onepass.Proofs.Viability

Which lexemes can begin a program, and which error is reported.

From every state there is a way on: operands can be given, parentheses closed, constructs ended
(`completes`). So the reader takes a lexeme only if the lexemes so far can begin a program
(`viable_iff`), and where the text stops being the front of one, it says so at once.

* `earliest_error` -- a failure to find tokens is reported behind viable lexemes, else the first
  token behind which they are viable no more.
-/

namespace Onepass

/-- Some continuation of the lexemes is a program. -/
def Viable (ls : List Lexeme) : Prop := ∃ rest t, Derives (.program t) (ls ++ rest)

/-- The tokens go up to the end of the text and make up a program. -/
def Feed.IsProgram (f : Feed) : Prop := f.failure = none ∧ ∃ t, Derives (.program t) f.lexemes

theorem Viable.of_isPrefix {ls rs : List Lexeme} (h : Viable rs) (hls : ls <+: rs) : Viable ls := by
  obtain ⟨us, rfl⟩ := hls
  obtain ⟨rest, t, ht⟩ := h
  exact ⟨us ++ rest, t, by rwa [← List.append_assoc]⟩

namespace Reader

theorem binaryOp?_of_followLevel {next : Category} (h : followLevel next ≤ 0) :
    binaryOp? next = none := by
  cases hop : binaryOp? next with
  | none => rfl
  | some op =>
    rw [followLevel, hop] at h
    exact absurd op.level_pos (Nat.not_lt_of_le h)

/-- Behind some lexemes the state accepts. -/
def State.Completes (s : State) : Prop := ∃ ls s', Reaches s ls s' ∧ s'.mode = .accepted

namespace State.Completes

variable {before : List Tree} {around : List (Construct × List Tree)}

theorem of_reaches {s s' : State} {ls : List Lexeme} (h : Reaches s ls s')
    (hs : s'.Completes) : s.Completes := by
  obtain ⟨rs, s'', hrest, hs''⟩ := hs
  exact ⟨ls ++ rs, s'', h.trans hrest, hs''⟩

theorem of_leads {m m' : Mode} {ls : List Lexeme} (h : m.Leads ls m')
    (hs : State.Completes ⟨before, around, m'⟩) : State.Completes ⟨before, around, m⟩ :=
  .of_reaches (h before around) hs

/-- Between statements, the constructs are ended one by one. -/
theorem fresh (before : List Tree) (around : List (Construct × List Tree)) :
    State.Completes ⟨before, around, .fresh⟩ := by
  induction around generalizing before with
  | nil => exact ⟨[.mark .eof], _, .single rfl, rfl⟩
  | cons c around ih =>
    obtain ⟨k, outer⟩ := c
    have hend : State.take? ⟨before, (k, outer) :: around, .fresh⟩ (.mark .kEnd) =
        some ⟨outer, around, .done (k.close before.reverse) false⟩ := rfl
    have hline : State.take? ⟨outer, around, .done (k.close before.reverse) false⟩
        (.mark .newline) = some ⟨k.close before.reverse :: outer, around, .fresh⟩ := rfl
    exact .of_reaches (.cons hend (.single hline)) (ih _)

theorem ends {m : Mode} {t : Tree} (h : m.settle (.mark .newline) = .done t true) :
    State.Completes ⟨before, around, m⟩ := by
  have hline : State.take? ⟨before, around, m⟩ (.mark .newline) =
      some ⟨t :: before, around, .fresh⟩ := by
    simp [take?, settle, Lexeme.category, h, shift?, append]
  exact .of_reaches (.single hline) (.fresh _ _)

theorem lineBreak (k : Construct) : State.Completes ⟨before, around, .lineBreak k⟩ := by
  have hline : State.take? ⟨before, around, .lineBreak k⟩ (.mark .newline) =
      some ⟨[], (k, before) :: around, .fresh⟩ := rfl
  exact .of_reaches (.single hline) (.fresh _ _)

end State.Completes

namespace Mode

/-- An operand in front of which an operator waits is as good as the operation, for a token that
is no operator. -/
theorem Offers.unary {m : Mode} {p : Purpose} {st : List Pending} {op : UnaryOp} {t : Tree}
    (h : m.Offers ⟨p, .unary op :: st⟩ t 0) : m.Offers ⟨p, st⟩ (.unary () op t) 0 := by
  intro next hnext hlevel
  rw [h next hnext hlevel]
  by_cases hopen : Context.Open ⟨p, st⟩
  · exact settleOperand_unary hopen op t next
  · cases Context.eq_of_not_open _ hopen
    have hop := binaryOp?_of_followLevel hlevel
    simp [settleOperand, reduce, hop, Purpose.complete?]

theorem Offers.binary {m : Mode} {p : Purpose} {st : List Pending} {op : BinaryOp} {l t : Tree}
    (h : m.Offers ⟨p, .binary op l :: st⟩ t 0) : m.Offers ⟨p, st⟩ (.binary () op l t) 0 := by
  intro next hnext hlevel
  rw [h next hnext hlevel]
  by_cases hopen : Context.Open ⟨p, st⟩
  · exact settleOperand_binary hopen (hlevel.trans (Nat.zero_le _)) l t
  · cases Context.eq_of_not_open _ hopen
    have hop := binaryOp?_of_followLevel hlevel
    have hzero : followLevel next = 0 := Nat.le_zero.mp hlevel
    simp [settleOperand, reduce, hop, hzero, Purpose.complete?]

end Mode

namespace State.Completes

variable {before : List Tree} {around : List (Construct × List Tree)}

/-- Behind an operand, what is open around it is closed from the inside out. -/
theorem offers {m : Mode} {p : Purpose} {st : List Pending} {t : Tree}
    (h : m.Offers ⟨p, st⟩ t 0) : State.Completes ⟨before, around, m⟩ := by
  induction st generalizing m t with
  | nil =>
    have hnewline := h (.mark .newline) (by decide) (Nat.le_refl 0)
    cases p with
    | assign | define | ret | call => exact .ends hnewline
    | print =>
      have hdone : m.Leads [.mark .closeParen] (.done (.print () t) false) :=
        h.close (.of_ne (by simp)) (by decide) rfl trivial (fun _ => rfl) rfl
      exact .of_leads hdone (.ends (t := .print () t) rfl)
    | loop =>
      exact .of_leads (h.close (k := .kDo) (.of_ne (by simp)) (by decide) rfl trivial (fun _ => rfl) rfl)
        (.lineBreak _)
    | branch =>
      exact .of_leads (h.close (k := .kThen) (.of_ne (by simp)) (by decide) rfl trivial (fun _ => rfl) rfl)
        (.lineBreak _)
  | cons x st ih =>
    cases x with
    | unary op => exact ih h.unary
    | binary op l => exact ih h.binary
    | group =>
      have hpush : m.Offers (Context.push ⟨p, st⟩ .group) t 0 := h
      have hclose : m.Leads [.mark .closeParen] (.behind ⟨p, st⟩ t true) :=
        hpush.close_push (by decide) rfl trivial rfl
      exact .of_leads hclose (ih (Mode.offers_behind _ _ true _))
    | argument f done =>
      have hpush : m.Offers (Context.push ⟨p, st⟩ (.argument f done)) t 0 := h
      have hclose : m.Leads [.mark .closeParen]
          (.behind ⟨p, st⟩ (.call () f (t :: done).reverse) false) :=
        hpush.close_push (by decide) rfl trivial rfl
      exact .of_leads hclose (ih (Mode.offers_behind _ _ false _))

theorem operand (ctx : Context) : State.Completes ⟨before, around, .operand ctx⟩ := by
  have hname : (Mode.operand ctx).Leads [.ident "x"] (.operandName ctx "x") := .single rfl rfl
  exact .of_leads hname (.offers (Mode.offers_operandName ctx "x" 0))

theorem behind (ctx : Context) (t : Tree) (built : Bool) :
    State.Completes ⟨before, around, .behind ctx t built⟩ :=
  .offers (Mode.offers_behind ctx t built 0)

theorem param (f : String) (ps : List String) :
    State.Completes ⟨before, around, .param f ps⟩ := by
  have hclose : (Mode.param f ps).Leads [.mark .closeParen]
      (.lineBreak (.function f ps.reverse)) := .single rfl rfl
  exact .of_leads hclose (.lineBreak _)

end State.Completes

/-- There is a way on from every state. -/
theorem completes (s : State) : s.Completes := by
  obtain ⟨before, around, m⟩ := s
  cases m with
  | fresh => exact .fresh _ _
  | name x =>
    have hassign : (Mode.name x).Leads [.mark .assign] (.operand ⟨.assign x, []⟩) := .single rfl rfl
    exact .of_leads hassign (.operand _)
  | localWord =>
    have hname : Mode.localWord.Leads [.ident "x"] (.localName "x") := .single rfl rfl
    exact .of_leads hname (.ends (t := .declare () "x") rfl)
  | localName x => exact .ends (t := .declare () x) rfl
  | functionWord => exact .of_leads (Mode.leads_function "f" []) (.lineBreak _)
  | functionName f =>
    have hopen : (Mode.functionName f).Leads [.mark .openParen] (.paramsOpen f) := .single rfl rfl
    have hclose : (Mode.paramsOpen f).Leads [.mark .closeParen] (.lineBreak (.function f [])) :=
      .single rfl rfl
    exact .of_leads (hopen.cons hclose) (.lineBreak _)
  | paramsOpen f =>
    have hclose : (Mode.paramsOpen f).Leads [.mark .closeParen] (.lineBreak (.function f [])) :=
      .single rfl rfl
    exact .of_leads hclose (.lineBreak _)
  | paramNext f ps =>
    have hname : (Mode.paramNext f ps).Leads [.ident "x"] (.param f ("x" :: ps)) := .single rfl rfl
    exact .of_leads hname (.param f _)
  | param f ps => exact .param f ps
  | printWord =>
    have hopen : Mode.printWord.Leads [.mark .openParen] (.operand ⟨.print, []⟩) := .single rfl rfl
    exact .of_leads hopen (.operand _)
  | operand ctx => exact .operand ctx
  | operandName ctx x => exact .offers (Mode.offers_operandName ctx x 0)
  | argsOpen ctx f =>
    have hclose : (Mode.argsOpen ctx f).Leads [.mark .closeParen]
        (.behind ctx (.call () f []) false) := .single rfl rfl
    exact .of_leads hclose (.behind ctx _ _)
  | readWord ctx =>
    have hopen : (Mode.readWord ctx).Leads [.mark .openParen] (.readOpen ctx) := .single rfl rfl
    have hclose : (Mode.readOpen ctx).Leads [.mark .closeParen] (.behind ctx (.read ()) false) :=
      .single rfl rfl
    exact .of_leads (hopen.cons hclose) (.behind ctx _ _)
  | readOpen ctx =>
    have hclose : (Mode.readOpen ctx).Leads [.mark .closeParen] (.behind ctx (.read ()) false) :=
      .single rfl rfl
    exact .of_leads hclose (.behind ctx _ _)
  | behind ctx t built => exact .behind ctx t built
  | lineBreak k => exact .lineBreak k
  | done t built => exact .ends (t := t) rfl
  | accepted => exact ⟨[], _, .refl, rfl⟩

/-- The reader takes lexemes as long as they can begin a program. -/
theorem viable_iff {ls : List Lexeme} : Viable ls ↔ ∃ s, Reaches .start ls s := by
  constructor
  · rintro ⟨rest, t, ht⟩
    obtain ⟨s, hs, -⟩ := reaches_of_derives ht
    obtain ⟨s', hs', -⟩ := hs.split
    exact ⟨s', hs'⟩
  · rintro ⟨s, hs⟩
    obtain ⟨rest, s', hrest, hs'⟩ := completes s
    exact ⟨rest, _, derives_of_reaches (hs.trans hrest) hs'⟩

/-- Where the reader stops, the lexemes cease to be viable. -/
theorem not_viable_of_take? {s : State} {ls : List Lexeme} {l : Lexeme} (h : Reaches .start ls s)
    (hl : s.take? l = none) : ¬ Viable (ls ++ [l]) := by
  intro hviable
  obtain ⟨s'', hs''⟩ := viable_iff.mp hviable
  obtain ⟨s', hs', hlast⟩ := hs''.split
  cases hs'.unique h
  cases hlast with
  | cons htake _ =>
    rw [hl] at htake
    cases htake

/-- A wrong token is the first behind which the lexemes are not viable. -/
theorem first_wrong_of_run {ts : List Token} {stop : Stop} (h : State.start.run ts = .error stop) :
    ∃ j t expected, ts[j]? = some t ∧
      (∀ i ≤ j, Viable ((ts.map Token.lexeme).take i)) ∧
      ¬ Viable ((ts.map Token.lexeme).take (j + 1)) ∧
      stop.error = .unexpected t.line expected t.category := by
  obtain ⟨before, t, after, s, rfl, hs, ht, expected, herror⟩ := State.run_eq_error h
  have htake : ((before ++ t :: after).map Token.lexeme).take before.length =
      before.map Token.lexeme := by simp
  refine ⟨before.length, t, expected, by simp, fun i hi => ?_, ?_, herror⟩
  · refine (viable_iff.mpr ⟨s, hs⟩).of_isPrefix ?_
    rw [← htake]
    exact List.take_prefix_take_left hi
  · have hnext : ((before ++ t :: after).map Token.lexeme).take (before.length + 1) =
        before.map Token.lexeme ++ [t.lexeme] := by
      simp [List.take_append, List.take_of_length_le]
    rw [hnext]
    exact not_viable_of_take? hs ht

end Reader

open Reader

/-- Tokens that end with the text are viable only if they are a program. -/
theorem isProgram_of_viable {source : String} (hnone : (Source.feed source).failure = none)
    (h : Viable (Source.feed source).lexemes) : (Source.feed source).IsProgram := by
  obtain ⟨s, hs⟩ := viable_iff.mp h
  exact ⟨hnone, s.program, (readProgram_feed_iff.mp (readProgram_eq_ok.mpr ⟨hnone, s, hs, rfl⟩)).2⟩

/-- Behind viable tokens it is the failure to find another one that is reported. For any other
text that is no program it is the first token behind which what has been read is not viable, with
its line and what it is, even if no token is found later. -/
theorem earliest_error (source : String) (first : Nat) :
    (∀ e, Viable (Source.feed source).lexemes → (Source.feed source).failure = some e →
      (Source.parse source first).1 = .error e) ∧
    (¬ (Viable (Source.feed source).lexemes ∧ ∃ e, (Source.feed source).failure = some e) →
      ¬ (Source.feed source).IsProgram →
      ∃ j t expected, (Source.feed source).tokens[j]? = some t ∧
        (∀ i ≤ j, Viable ((Source.feed source).lexemes.take i)) ∧
        ¬ Viable ((Source.feed source).lexemes.take (j + 1)) ∧
        (Source.parse source first).1 = .error (.unexpected t.line expected t.category)) := by
  constructor
  · intro e hviable he
    obtain ⟨s, hs⟩ := viable_iff.mp hviable
    have hrun := State.run_eq_ok.mpr hs
    simp [Source.parse, readProgram, hrun, he]
  · intro hlexical hprogram
    cases hrun : State.start.run (Source.feed source).tokens with
    | error stop =>
      obtain ⟨j, t, expected, ht, hbefore, hwrong, herror⟩ := first_wrong_of_run hrun
      refine ⟨j, t, expected, ht, hbefore, hwrong, ?_⟩
      simp [Source.parse, readProgram, hrun, herror]
    | ok s =>
      have hviable : Viable (Source.feed source).lexemes :=
        viable_iff.mpr ⟨s, State.run_eq_ok.mp hrun⟩
      cases hfailure : (Source.feed source).failure with
      | none => exact absurd (isProgram_of_viable hfailure hviable) hprogram
      | some e => exact absurd ⟨hviable, e, hfailure⟩ hlexical

/-- A second operand is wrong before a character that begins no token. -/
example : (Source.parse "x = 1 2 @" 0).1 =
      .error (.unexpected 1 [.mark .newline, .mark .eof] .int) ∧
    (Source.parse "x = 1 + @" 0).1 = .error (.lexical 1 (.badCharacter '@')) := by
  decide +kernel

end Onepass
