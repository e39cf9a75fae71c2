import Onepass.Proofs.Grammar
import Onepass.Proofs.Ids
import Onepass.Proofs.Joining

/-!
# Onepass.Proofs.Concatenation

Programs one behind the other. A program of whole lines leaves the reader where a program begins,
but for the statements read so far, and these the reader never looks at again.

* `State.onto`       -- a state with statements more in front of the program.
* `run_onto`         -- from there the reader does what it does without them.
* `run_of_lined`     -- where the tokens of a program of whole lines lead.
* `readProgram_join` -- so the trees of two programs are joined, and the error of the second one is
  that of both.
* `parse_append`     -- the same for texts, with numbers and lines.
-/

namespace Onepass
namespace Reader

open Node

namespace State

/-- The statements of a block, with those of `base` in front of them if no other block is around.
Statements are kept newest first. -/
def ground (base : List Tree) : List (Construct × List Tree) → List Tree → List Tree
  | [], before => before ++ base
  | _ :: _, before => before

def groundAll (base : List Tree) : List (Construct × List Tree) → List (Construct × List Tree)
  | [] => []
  | (k, before) :: around => (k, ground base around before) :: groundAll base around

/-- The state behind the statements of `base`. -/
def onto (base : List Tree) (s : State) : State :=
  ⟨ground base s.around s.before, groundAll base s.around, s.mode⟩

variable (base : List Tree)

@[simp] theorem ground_cons (around : List (Construct × List Tree)) (t : Tree)
    (before : List Tree) : ground base around (t :: before) = t :: ground base around before := by
  cases around <;> rfl

@[simp] theorem isEmpty_groundAll (around : List (Construct × List Tree)) :
    (groundAll base around).isEmpty = around.isEmpty := by
  cases around <;> rfl

theorem inFunction_onto (s : State) : (s.onto base).inFunction = s.inFunction := by
  obtain ⟨before, around, mode⟩ := s
  simp only [inFunction, onto]
  induction around with
  | nil => rfl
  | cons k around ih => simp only [groundAll, List.any_cons, ih]

theorem sizes_ground (around : List (Construct × List Tree)) (before : List Tree) :
    sizes (ground base around before) + Construct.sizes (groundAll base around) =
      sizes before + Construct.sizes around + sizes base := by
  induction around generalizing before with
  | nil => simp [ground, groundAll, Construct.sizes, sizes_append]
  | cons k around ih =>
    obtain ⟨k, outer⟩ := k
    have houter := ih outer
    simp only [groundAll, Construct.sizes]
    rw [ground]
    omega

theorem size_onto (s : State) : (s.onto base).size = s.size + sizes base := by
  have := sizes_ground base s.around s.before
  simp only [size, onto]
  omega

theorem begin?_onto (s : State) (l : Lexeme) :
    (s.onto base).begin? l = (s.begin? l).map (onto base) := by
  cases l with
  | mark m =>
    cases m with
    | newline => simp only [begin?, append, Option.map_some, onto, ground_cons]
    | kReturn =>
      simp only [begin?, inFunction_onto]
      split <;> rfl
    | eof =>
      simp only [begin?, onto, isEmpty_groundAll]
      split <;> rfl
    | kElse | kEnd =>
      obtain ⟨before, around, mode⟩ := s
      cases around with
      | nil => rfl
      | cons k around =>
        obtain ⟨k, outer⟩ := k
        cases k <;> rfl
    | _ => rfl
  | _ => rfl

theorem map_withMode_onto (s : State) (m : Option Mode) :
    m.map (s.onto base).withMode = (m.map s.withMode).map (onto base) := by
  cases m <;> rfl

theorem shift?_onto (s : State) (l : Lexeme) :
    (s.onto base).shift? l = (s.shift? l).map (onto base) := by
  obtain ⟨before, around, mode⟩ := s
  cases mode with
  | fresh => exact begin?_onto base _ l
  | done t built =>
    cases l with
    | mark m =>
      cases m with
      | newline => simp only [shift?, append, Option.map_some, onto, ground_cons]
      | eof =>
        simp only [shift?, append, onto, isEmpty_groundAll]
        split
        · simp only [Option.map_some, onto, ground_cons]
        · rfl
      | _ => rfl
    | _ => rfl
  | lineBreak k =>
    cases l with
    | mark m => cases m <;> rfl
    | _ => rfl
  | accepted => rfl
  | _ => exact map_withMode_onto base _ _

theorem expected_onto (s : State) (next : Category) :
    (s.onto base).expected next = s.expected next := by
  obtain ⟨before, around, mode⟩ := s
  cases around with
  | nil => rfl
  | cons k around =>
    cases mode with
    | fresh | done =>
      cases next with
      | mark m => cases m <;> rfl
      | _ => rfl
    | _ => rfl

end State

namespace Stop

/-- The stop `lines` further on, with `built` nodes more. -/
def moved (lines built : Nat) (stop : Stop) : Stop := ⟨stop.error.moved lines, stop.built + built⟩

end Stop

namespace State

variable (base : List Tree)

theorem step_onto (lines : Nat) (s : State) (t : Token) :
    (s.onto base).step (t.moved lines) =
      ((s.step t).map (onto base)).mapError (Stop.moved lines (sizes base)) := by
  have hsettle : (s.onto base).settle t.category = (s.settle t.category).onto base := rfl
  unfold step
  dsimp only [Token.moved, Token.category] at hsettle ⊢
  rw [hsettle, shift?_onto]
  cases (s.settle t.lexeme.category).shift? t.lexeme with
  | some s' => rfl
  | none =>
    simp only [Option.map_none, expected_onto, size_onto]
    rfl

theorem run_onto (lines : Nat) (s : State) (ts : List Token) :
    (s.onto base).run (ts.map (Token.moved lines)) =
      ((s.run ts).map (onto base)).mapError (Stop.moved lines (sizes base)) := by
  induction ts generalizing s with
  | nil => rfl
  | cons t ts ih =>
    simp only [List.map_cons, run, step_onto]
    cases s.step t with
    | ok s' => exact ih s'
    | error stop => rfl

/-! ## Whole lines -/

theorem mode_shift?_newline (m : Mode) : m.shift? (.mark .newline) = none := by
  cases m with
  | behind ctx t built =>
    obtain ⟨purpose, stack⟩ := ctx
    cases stack with
    | nil => cases purpose <;> rfl
    | cons p rest => cases p <;> rfl
  | _ => rfl

/-- Behind the end of a line a statement may begin. -/
theorem fresh_of_newline {s s' : State} {t : Token} (ht : t.lexeme = .mark .newline)
    (h : s.step t = .ok s') : s'.mode = .fresh := by
  unfold step at h
  dsimp only at h
  split at h
  · rename_i hshift
    cases h
    rw [ht] at hshift
    unfold shift? at hshift
    split at hshift
    · cases hshift
      rfl
    · cases hshift
      rfl
    · rename_i hne
      cases hne
    · cases hshift
      rfl
    · rw [mode_shift?_newline] at hshift
      cases hshift
  · cases h

theorem run_concat {ts : List Token} {t : Token} {s s' : State}
    (h : s.run (ts ++ [t]) = .ok s') : ∃ s₁, s.run ts = .ok s₁ ∧ s₁.step t = .ok s' := by
  rw [run_append] at h
  cases hts : s.run ts with
  | error stop =>
    rw [hts] at h
    cases h
  | ok s₁ =>
    rw [hts] at h
    change s₁.run [t] = .ok s' at h
    rw [run] at h
    split at h
    · rename_i hstep
      cases h
      exact ⟨s₁, rfl, hstep⟩
    · cases h

theorem fresh_of_run {ts : List Token} {s s' : State} (hs : s.mode = .fresh)
    (hts : ∀ t ∈ ts.getLast?, t.lexeme = .mark .newline) (h : s.run ts = .ok s') :
    s'.mode = .fresh := by
  rcases List.eq_nil_or_concat' ts with rfl | ⟨front, t, rfl⟩
  · cases h
    exact hs
  · obtain ⟨s₁, -, hstep⟩ := run_concat h
    exact fresh_of_newline (hts t (by simp)) hstep

/-- The end of the text, where a statement may begin: the program is what was read. -/
theorem eq_of_eof {s s' : State} {line : Nat} (hs : s.mode = .fresh)
    (h : s.step ⟨.mark .eof, line⟩ = .ok s') : s = start.onto s'.before := by
  obtain ⟨before, around, mode⟩ := s
  cases hs
  cases around with
  | nil =>
    cases h
    rfl
  | cons k around => cases h

/-- Where the tokens of a program lead that is made of whole lines. -/
theorem run_of_lined {ts : List Token} {line : Nat} {s : State}
    (hts : ∀ t ∈ ts.getLast?, t.lexeme = .mark .newline)
    (h : start.run (ts ++ [⟨.mark .eof, line⟩]) = .ok s) :
    start.run ts = .ok (start.onto s.before) := by
  obtain ⟨s₁, hrun, hstep⟩ := run_concat h
  rw [hrun, eq_of_eof (fresh_of_run rfl hts hrun) hstep]

/-- A program is accepted outside all constructs. -/
theorem around_of_feed {c : Cursor} {s : State} (h : start.run c.feed.tokens = .ok s)
    (hnone : c.feed.failure = none) : s.around = [] := by
  obtain ⟨ts, t, hts, ht⟩ := tokens_of_feed c hnone
  rw [hts] at h
  obtain ⟨s₁, -, hstep⟩ := run_concat h
  exact around_of_eof ht hstep

theorem program_onto (base : List Tree) {s : State} (hs : s.around = []) :
    (s.onto base).program = .block () (base.reverse ++ s.before.reverse) := by
  simp only [program, onto, hs, ground, List.reverse_append]

end State

/-- A text that has a program has no wrong token. -/
theorem run_of_readProgram {f : Feed} {tree : Tree} (h : readProgram f = .ok tree) :
    f.failure = none ∧ ∃ s, State.start.run f.tokens = .ok s ∧ tree = s.program := by
  unfold readProgram at h
  split at h
  · cases h
  · cases h
  · rename_i s hrun hnone
    cases h
    exact ⟨hnone, s, hrun, rfl⟩

end Reader

open Reader

/-- The tokens of two texts, one behind the other. -/
theorem feed_join {p : String} (hp : Lined p.toList) (hnone : (Source.feed p).failure = none) :
    ∃ ts line, (Source.feed p).tokens = ts ++ [⟨.mark .eof, line⟩] ∧
      (∀ t ∈ ts.getLast?, t.lexeme = .mark .newline) ∧
      ∀ q, Source.feed (p ++ q) =
        ⟨ts ++ (Source.feed q).tokens.map (Token.moved (p.toList.count '\n')),
          (Source.feed q).failure.map (Error.moved (p.toList.count '\n'))⟩ := by
  have hcount : (Comment.strip p).toList.count '\n' = p.toList.count '\n' := by
    rw [Comment.toList_strip, Comment.count_stripFrom]
  have hlined : Lined (Comment.strip p).toList := by
    rw [Comment.toList_strip]
    exact Comment.lined_stripFrom hp .code
  obtain ⟨ts, htokens, -, hend, hjoined⟩ :=
    Cursor.feed_append (Cursor.ofString (Comment.strip p)) hlined hnone
  refine ⟨ts, _, htokens, hend, fun q => ?_⟩
  have hmoved := Cursor.feed_moved (p.toList.count '\n') (Cursor.ofString (Comment.strip q))
  have hboth := hjoined (Comment.strip q).toList
  simp only [Cursor.ofString, hcount] at hmoved hboth
  rw [hmoved, ← strip_append hp hnone q] at hboth
  exact hboth

/-- The program of two texts, one behind the other. -/
theorem readProgram_join {p : String} (hp : Lined p.toList) {tree : Tree}
    (h : readProgram (Source.feed p) = .ok tree) :
    ∃ body, tree = .block () body ∧ ∀ q : String,
      (∀ t, readProgram (Source.feed q) = .ok t →
        ∃ more, t = .block () more ∧
          readProgram (Source.feed (p ++ q)) = .ok (.block () (body ++ more))) ∧
      ∀ stop, readProgram (Source.feed q) = .error stop →
        readProgram (Source.feed (p ++ q)) =
          .error (stop.moved (p.toList.count '\n') (Node.sizes body)) := by
  obtain ⟨hnone, s, hrun, rfl⟩ := run_of_readProgram h
  obtain ⟨ts, line, htokens, hend, hjoined⟩ := feed_join hp hnone
  rw [htokens] at hrun
  refine ⟨s.before.reverse, rfl, fun q => ?_⟩
  have hboth : State.start.run (Source.feed (p ++ q)).tokens =
      ((State.start.run (Source.feed q).tokens).map (State.onto s.before)).mapError
        (Stop.moved (p.toList.count '\n') (Node.sizes s.before)) := by
    rw [hjoined q, State.run_append, State.run_of_lined hend hrun]
    exact State.run_onto s.before _ .start _
  constructor
  · intro t ht
    obtain ⟨hq, u, hu, rfl⟩ := run_of_readProgram ht
    have haround : u.around = [] := State.around_of_feed hu hq
    refine ⟨u.before.reverse, rfl, ?_⟩
    rw [hu] at hboth
    rw [readProgram, hboth, hjoined q, hq]
    exact congrArg Except.ok (State.program_onto s.before haround)
  · intro stop hstop
    rw [Node.sizes_reverse]
    unfold readProgram at hstop
    split at hstop
    · rename_i hu
      cases hstop
      rw [hu] at hboth
      rw [readProgram, hboth]
      rfl
    · rename_i u e hu hq
      cases hstop
      rw [hu] at hboth
      rw [readProgram, hboth, hjoined q, hq, Stop.moved, ← State.size_onto]
      rfl
    · cases hstop

namespace Node

theorem numbers_append (n : Nat) (ts us : List Tree) :
    numbers n (ts ++ us) =
      ((numbers n ts).1 ++ (numbers (numbers n ts).2 us).1, (numbers (numbers n ts).2 us).2) := by
  induction ts generalizing n with
  | nil => rfl
  | cons t ts ih => simp only [List.cons_append, numbers, ih]

/-- The root is numbered last. -/
theorem id_number (n : Nat) (t : Tree) : (number n t).1.id + 1 = (number n t).2 := by
  cases t <;> rfl

/-- The first number that is left behind statements. -/
theorem next_numbers_eq (n : Nat) (ts : List Tree) :
    (numbers n ts).2 = ((numbers n ts).1.getLast?.map (·.id + 1)).getD n := by
  rcases List.eq_nil_or_concat' ts with rfl | ⟨front, t, rfl⟩
  · rfl
  · simp [numbers_append, numbers, id_number]

end Node

/-- Errors of reading have a line. -/
theorem Source.line_of_stop {source : String} {stop : Reader.Stop}
    (h : readProgram (Source.feed source) = .error stop) :
    ∃ line, stop.error.line? = some line := by
  rcases Source.stop_cases h with hfailure | ⟨k, t, expected, -, -, -, hwrong⟩
  · obtain ⟨cause, -, hlexical⟩ := Source.scan_of_failure hfailure
    exact ⟨_, by rw [hlexical]; rfl⟩
  · exact ⟨_, by rw [hwrong]; rfl⟩

/-- Programs concatenate. Behind a program that is empty or ends with a line end, a text makes a
program with it if and only if it is one; then its statements, numbered from where the last
statement in front of them left it, follow those in front. Otherwise its error comes out, as many
lines further on as there are in front. -/
theorem parse_append {p : String} (hend : p = "" ∨ ∃ lines, p = lines ++ "\n") {first : Nat}
    {root : Node Nat} (hroot : (Source.parse p first).1 = .ok root) :
    ∃ i ss, root = .block i ss ∧ i = (ss.getLast?.map (·.id + 1)).getD first ∧
      ∀ q : String,
        (∀ k, (∃ r, (Source.parse (p ++ q) first).1 = .ok r) ↔
          ∃ r, (Source.parse q k).1 = .ok r) ∧
        (∀ r, (Source.parse q i).1 = .ok r →
          ∃ j us, r = .block j us ∧ (Source.parse (p ++ q) first).1 = .ok (.block j (ss ++ us))) ∧
        (∀ k e, (Source.parse q k).1 = .error e → (∃ line, e.line? = some line) ∧
          (Source.parse (p ++ q) first).1 = .error (e.moved (p.toList.count '\n'))) ∧
        (Source.parse (p ++ q) first).2 = (Source.parse q i).2 := by
  have hlined : Lined p.toList := by
    rcases hend with rfl | ⟨lines, rfl⟩
    · exact .nil
    · intro c hc
      rw [String.toList_append, show "\n".toList = ['\n'] from rfl, List.getLast?_concat] at hc
      cases hc
      rfl
  obtain ⟨tree, htree, rfl⟩ := Source.parse_eq_ok hroot
  obtain ⟨body, rfl, hjoin⟩ := readProgram_join hlined htree
  refine ⟨_, _, rfl, Node.next_numbers_eq first body, fun q => ?_⟩
  obtain ⟨hok, herror⟩ := hjoin q
  cases hq : readProgram (Source.feed q) with
  | ok t =>
    obtain ⟨more, rfl, hboth⟩ := hok t hq
    refine ⟨fun k => ?_, fun r hr => ?_, fun k e he => ?_, ?_⟩
    · simp [Source.parse, hq, hboth]
    · simp only [Source.parse, hq] at hr
      cases hr
      refine ⟨_, _, rfl, ?_⟩
      simp only [Source.parse, hboth, Node.number, Node.numbers_append]
    · simp only [Source.parse, hq] at he
      cases he
    · simp only [Source.parse, hq, hboth, Node.number, Node.numbers_append]
  | error stop =>
    have hboth := herror stop hq
    refine ⟨fun k => ?_, fun r hr => ?_, fun k e he => ?_, ?_⟩
    · simp [Source.parse, hq, hboth]
    · simp only [Source.parse, hq] at hr
      cases hr
    · simp only [Source.parse, hq] at he
      cases he
      refine ⟨Source.line_of_stop hq, ?_⟩
      simp only [Source.parse, hboth, Stop.moved]
    · simp only [Source.parse, hq, hboth, Stop.moved, Node.next_numbers]
      omega

/-- A function with a call behind it, and with a text behind it whose third line is wrong. -/
theorem parse_behind_function :
    let p := "function f()\nreturn 1\nend\n"
    (Source.parse (p ++ "print(f())\n") 0).1 = .ok (.block 5
      [.function 2 "f" [] [.ret 1 (.int 0 1)], .print 4 (.call 3 "f" [])]) ∧
    (Source.parse (p ++ "x = 1\n\ny = )\n") 0).1 =
      .error (.unexpected 6 Mode.operandStart (.mark .closeParen)) := by
  intro p
  have hp : (Source.parse p 0).1 = .ok (.block 3 [.function 2 "f" [] [.ret 1 (.int 0 1)]]) := by
    decide +kernel
  have hend : p = "" ∨ ∃ lines, p = lines ++ "\n" := .inr ⟨"function f()\nreturn 1\nend", rfl⟩
  have hlines : p.toList.count '\n' = 3 := by decide +kernel
  obtain ⟨i, ss, hroot, -, hbehind⟩ := parse_append hend hp
  cases hroot
  constructor
  · obtain ⟨j, us, hr, hboth⟩ := (hbehind "print(f())\n").2.1
      (.block 5 [.print 4 (.call 3 "f" [])]) (by decide +kernel)
    cases hr
    exact hboth
  · have hmoved := ((hbehind "x = 1\n\ny = )\n").2.2.1 0
      (.unexpected 3 Mode.operandStart (.mark .closeParen)) (by decide +kernel)).2
    rw [hlines] at hmoved
    exact hmoved

end Onepass
