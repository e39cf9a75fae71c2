import Onepass.Proofs.Recognition
import Onepass.Proofs.Transcript

/-!
# Onepass.Proofs.Parsing

The reader accepts what the grammar derives and nothing else, and makes the tree of the derivation.

* `accepts_iff` -- on lexemes.
* `parse_iff_derives` -- on tokens, whatever their lines, and on the text of a program.
-/

namespace Onepass

namespace Reader

/-- The end of the text is the last that the reader takes. -/
theorem accepted_of_take? {s s' : State} (h : s.take? (.mark .eof) = some s') :
    s'.mode = .accepted := by
  unfold State.take? State.shift? at h
  split at h
  · rw [State.begin?] at h
    split at h
    · cases h
      rfl
    · cases h
  · rename_i hne
    cases hne
  · split at h
    · cases h
      rfl
    · cases h
  · rename_i hne
    cases hne
  · rw [State.mode_shift?_eof] at h
    cases h

theorem accepted_of_reaches {s s' : State} {ls : List Lexeme}
    (h : Reaches s (ls ++ [.mark .eof]) s') : s'.mode = .accepted := by
  obtain ⟨s₁, -, hlast⟩ := h.split
  cases hlast with
  | cons heof hrest =>
    cases hrest
    exact accepted_of_take? heof

/-- Accepted with a tree is derived with that tree. -/
theorem accepts_iff {ls : List Lexeme} {t : Tree} :
    (∃ s, Reaches .start ls s ∧ s.mode = .accepted ∧ s.program = t) ↔ Derives (.program t) ls := by
  constructor
  · rintro ⟨s, hreach, hs, rfl⟩
    exact derives_of_reaches hreach hs
  · exact reaches_of_derives

theorem readProgram_eq_ok {feed : Feed} {t : Tree} :
    readProgram feed = .ok t ↔ feed.failure = none ∧
      ∃ s, Reaches .start (feed.tokens.map Token.lexeme) s ∧ s.program = t := by
  unfold readProgram
  cases hrun : State.start.run feed.tokens with
  | error stop =>
    simp only [reduceCtorEq, false_iff]
    rintro ⟨-, s, hs, -⟩
    rw [State.run_eq_ok.mpr hs] at hrun
    cases hrun
  | ok s =>
    have hs := State.run_eq_ok.mp hrun
    cases feed.failure with
    | some e => simp
    | none =>
      simp only [Except.ok.injEq, true_and]
      constructor
      · rintro rfl
        exact ⟨s, hs, rfl⟩
      · rintro ⟨s', hs', rfl⟩
        rw [hs.unique hs']

/-- A program is read from tokens that end where the text ends. -/
theorem readProgram_iff_derives (ts : List Token) {e : Token} (he : e.lexeme = .mark .eof)
    (t : Tree) :
    readProgram ⟨ts ++ [e], none⟩ = .ok t ↔
      Derives (.program t) (ts.map Token.lexeme ++ [.mark .eof]) := by
  rw [readProgram_eq_ok, ← accepts_iff]
  simp only [List.map_append, List.map_cons, List.map_nil, he, true_and]
  constructor
  · rintro ⟨s, hs, ht⟩
    exact ⟨s, hs, accepted_of_reaches hs, ht⟩
  · rintro ⟨s, hs, -, ht⟩
    exact ⟨s, hs, ht⟩

end Reader

/-- The lexemes of a text up to its end, or up to where no token begins. -/
def Feed.lexemes (f : Feed) : List Lexeme := f.tokens.map Token.lexeme

open Reader

/-- The program in a text, numbers aside. -/
theorem parse_eq_ok_iff {source : String} {first : Nat} {t : Tree} :
    (∃ root, (Source.parse source first).1 = .ok root ∧ root.erase = t) ↔
      readProgram (Source.feed source) = .ok t := by
  constructor
  · rintro ⟨root, hroot, rfl⟩
    obtain ⟨t, ht, rfl⟩ := Source.parse_eq_ok hroot
    rwa [Node.erase_number]
  · intro h
    refine ⟨(t.number first).1, ?_, Node.erase_number first t⟩
    rw [Source.parse, h]

theorem readProgram_feed_iff {source : String} {t : Tree} :
    readProgram (Source.feed source) = .ok t ↔ (Source.feed source).failure = none ∧
      Derives (.program t) (Source.feed source).lexemes := by
  have hend : (Source.feed source).failure = none → ∃ ts e,
      (Source.feed source).tokens = ts ++ [e] ∧ e.lexeme = .mark .eof := tokens_of_feed _
  rw [Feed.lexemes]
  generalize Source.feed source = feed at *
  obtain ⟨tokens, failure⟩ := feed
  cases failure with
  | some e => simp [readProgram_eq_ok]
  | none =>
    obtain ⟨ts, e, rfl, he⟩ := hend rfl
    rw [readProgram_iff_derives ts he]
    simp [he]

/-- Tokens up to the end of the text are read if the grammar derives them, and so is a text, all of
which has to be tokens. The tree read is the one of the derivation; numbers come on top of it. -/
theorem parse_iff_derives :
    (∀ (ts : List Token) (line : Nat) (t : Tree),
      readProgram ⟨ts ++ [⟨.mark .eof, line⟩], none⟩ = .ok t ↔
        Derives (.program t) (ts.map Token.lexeme ++ [.mark .eof])) ∧
    ∀ (source : String) (first : Nat) (t : Tree),
      (∃ root, (Source.parse source first).1 = .ok root ∧ root.erase = t) ↔
        (Source.feed source).failure = none ∧ Derives (.program t) (Source.feed source).lexemes := by
  constructor
  · intro ts line t
    exact readProgram_iff_derives ts rfl t
  · intro source first t
    rw [parse_eq_ok_iff, readProgram_feed_iff]

/-- Two operators of one level, a looser one before them, and a construct without `else`. -/
example : (Source.parse "if x < 1 - 2 - y then\nend" 0).1 =
    .ok (.block 8 [.branch 7 (.binary 6 (.relation .less) (.var 0 "x")
      (.binary 5 (.arith .sub) (.binary 3 (.arith .sub) (.int 1 1) (.int 2 2)) (.var 4 "y")))
      [] []]) := by
  decide +kernel

end Onepass
