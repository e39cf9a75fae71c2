import Onepass.Proofs.Consumption
import Onepass.Proofs.Expectation

/-!
# Onepass.Proofs.Agreement

Reading by descent beside the machine of `Onepass.Reader.Step`. The machine has run up to the token
in hand, and what it comes to with that token and those behind it stays the same on the way
(`Stands`): that is the outcome of the whole text, which a failure has to be (`Meets`). A part that
succeeds leaves the machine behind what it has read.

Where the machine settles an operand only when it sees the next token, reading by descent has drawn
its node before. So the machine's state is taken as settled: two states that take the token in hand
alike may stand for each other (`Stands.congr`).

* `Meets.expect`, `Meets.name`, `Meets.close` -- a token that has to follow, or the same complaint.
* `operates` -- operands and operations, by induction on the calls for tokens that are left.
-/

namespace Onepass

namespace Reader

@[simp]
theorem Context.size_push (ctx : Context) (p : Pending) :
    (ctx.push p).size = p.size + ctx.size := rfl

@[simp]
theorem Context.size_pop (ctx : Context) (p : Pending) :
    Context.size ⟨(ctx.push p).purpose, ctx.stack⟩ = ctx.size := rfl

@[simp]
theorem Context.size_nil (purpose : Purpose) : Context.size ⟨purpose, []⟩ = 0 := rfl

namespace State

/-- What the machine comes to with the tokens of a feed. -/
def finish (s : State) (feed : Feed) : Except Stop Tree :=
  match s.run feed.tokens, feed.failure with
  | .error stop, _ => .error stop
  | .ok s', some e => .error ⟨e, s'.size⟩
  | .ok s', none => .ok s'.program

theorem finish_of_error {s : State} {t : Token} {feed : Feed} {ts : List Token} {stop : Stop}
    (hfeed : feed.tokens = t :: ts) (h : s.step t = .error stop) : s.finish feed = .error stop := by
  rw [finish, hfeed, run, h]

theorem finish_congr {s s' : State} {t : Token} {feed : Feed} {ts : List Token}
    (hfeed : feed.tokens = t :: ts) (h : s.step t = s'.step t) :
    s.finish feed = s'.finish feed := by
  rw [finish, finish, hfeed, run, run, h]

theorem step_of_alike {s s' : State} {t : Token}
    (hshift : (s.settle t.category).shift? t.lexeme = (s'.settle t.category).shift? t.lexeme)
    (hexpected :
      (s.settle t.category).expected t.category = (s'.settle t.category).expected t.category)
    (hsize : (s.settle t.category).size = (s'.settle t.category).size) : s.step t = s'.step t := by
  rw [step, step, hshift, hexpected, hsize]

theorem step_congr {s s' : State} {t : Token} (h : s.settle t.category = s'.settle t.category) :
    s.step t = s'.step t := by
  rw [step, step, h]

/-- The machine cannot take the lexeme, of which it says what it expected instead. -/
structure Refuses (s : State) (l : Lexeme) (expected : List Category) : Prop where
  shift : (s.settle l.category).shift? l = none
  expected : (s.settle l.category).expected l.category = expected
  size : (s.settle l.category).size = s.size

theorem Refuses.step {s : State} {t : Token} {expected : List Category}
    (h : s.Refuses t.lexeme expected) :
    s.step t = .error ⟨.unexpected t.line expected t.category, s.size⟩ := by
  have hshift : (s.settle t.category).shift? t.lexeme = none := h.shift
  have hexpected : (s.settle t.category).expected t.category = expected := h.expected
  have hsize : (s.settle t.category).size = s.size := h.size
  simp only [State.step, hshift, hexpected, hsize]

end State
end Reader

namespace Descent

open Reader

/-- The outcome with its nodes numbered, and the first number left. -/
def numbered (first : Nat) : Except Stop Tree → Except Error (Node Nat) × Nat
  | .ok tree => (.ok (tree.number first).1, (tree.number first).2)
  | .error stop => (.error stop.error, first + stop.built)

theorem numbered_readProgram (source : String) (first : Nat) :
    numbered first (State.start.finish (Source.feed source)) = Source.parse source first := by
  change numbered first (readProgram (Source.feed source)) = _
  rw [Source.parse]
  cases readProgram (Source.feed source) <;> rfl

/-- The token in hand and those behind it. -/
def Desk.feed (d : Desk) : Feed :=
  if d.current.lexeme = .mark .eof then ⟨[d.current], none⟩
  else ⟨d.current :: d.cursor.feed.tokens, d.cursor.feed.failure⟩

theorem Desk.exists_feed (d : Desk) : ∃ ts, d.feed.tokens = d.current :: ts := by
  rw [Desk.feed]
  split
  · exact ⟨_, rfl⟩
  · exact ⟨_, rfl⟩

theorem Desk.feed_of_next {c : Cursor} {d : Desk} (h : c.next = (.ok d.current, d.cursor)) :
    d.feed = c.feed := by
  rw [Desk.feed]
  split
  · rename_i ht
    rw [Cursor.feed_of_eof h ht]
  · rename_i ht
    rw [Cursor.feed_of_token h ht]

/-- The machine stands before the token in hand, it comes to the outcome in the end, and as many
numbers are used up as it has built nodes. -/
structure Stands (outcome : Except Error (Node Nat) × Nat) (first : Nat) (s : State) (d : Desk) :
    Prop where
  comes : numbered first (s.finish d.feed) = outcome
  next : d.next = first + s.size

/-- A success of the part is as stated, and a failure of it is the outcome. -/
structure Meets {α : Type} (outcome : Except Error (Node Nat) × Nat) (Q : α → Desk → Prop)
    (x : Part α) (d : Desk) : Prop where
  ok : ∀ a d', x d = some (.ok a, d') → Q a d'
  error : ∀ e d', x d = some (.error e, d') → outcome = (.error e, d'.next)

section

variable {outcome : Except Error (Node Nat) × Nat} {first : Nat} {s u : State} {d : Desk}

namespace Stands

theorem congr (h : Stands outcome first s d) (hstep : s.step d.current = u.step d.current)
    (hsize : s.size = u.size) : Stands outcome first u d := by
  obtain ⟨ts, hts⟩ := d.exists_feed
  refine ⟨?_, hsize ▸ h.next⟩
  rw [← State.finish_congr hts hstep]
  exact h.comes

/-- The machine has built a node, and its number is used up. -/
theorem drawn (h : Stands outcome first s d) (hstep : s.step d.current = u.step d.current)
    (hsize : u.size = s.size + 1) : Stands outcome first u { d with next := d.next + 1 } := by
  obtain ⟨ts, hts⟩ := d.exists_feed
  refine ⟨?_, ?_⟩
  · change numbered first (u.finish d.feed) = outcome
    rw [← State.finish_congr hts hstep]
    exact h.comes
  · rw [hsize]
    exact congrArg (· + 1) h.next

theorem refused {expected : List Category} (h : Stands outcome first s d)
    (hr : s.Refuses d.current.lexeme expected) :
    outcome = (.error (.unexpected d.current.line expected d.current.category), d.next) := by
  obtain ⟨ts, hts⟩ := d.exists_feed
  rw [← h.comes, State.finish_of_error hts hr.step, h.next]
  rfl

/-- A token is taken. -/
theorem advanced {c : Cursor} {t : Token} (h : Stands outcome first s d)
    (hd : d.current.lexeme ≠ .mark .eof) (htake : s.take? d.current.lexeme = some u)
    (hsize : u.size = s.size) (hnext : d.cursor.next = (.ok t, c)) :
    Stands outcome first u { d with cursor := c, current := t, calls := .ok t :: d.calls } := by
  have hfeed : d.feed = ⟨d.current :: d.cursor.feed.tokens, d.cursor.feed.failure⟩ := if_neg hd
  have hfeed' : Desk.feed { d with cursor := c, current := t, calls := .ok t :: d.calls } =
      d.cursor.feed := Desk.feed_of_next hnext
  refine ⟨?_, hsize ▸ h.next⟩
  rw [← h.comes, hfeed', hfeed, State.finish, State.finish, State.run, State.step_eq_ok.mpr htake]

theorem missed {c : Cursor} {e : Error} (h : Stands outcome first s d)
    (hd : d.current.lexeme ≠ .mark .eof) (htake : s.take? d.current.lexeme = some u)
    (hsize : u.size = s.size) (hnext : d.cursor.next = (.error e, c)) :
    outcome = (.error e, d.next) := by
  have hfeed : d.feed = ⟨d.current :: d.cursor.feed.tokens, d.cursor.feed.failure⟩ := if_neg hd
  rw [← h.comes, hfeed, State.finish, State.run, State.step_eq_ok.mpr htake,
    Cursor.feed_of_error hnext, h.next, ← hsize]
  rfl

end Stands

namespace Meets

variable {α β : Type} {Q : α → Desk → Prop}

theorem congr {x y : Part α} {d' : Desk} (h : x d = y d') (hy : Meets outcome Q y d') :
    Meets outcome Q x d :=
  ⟨fun a d₁ hd => hy.ok a d₁ (h.symm.trans hd), fun e d₁ hd => hy.error e d₁ (h.symm.trans hd)⟩

theorem mono {x : Part α} {R : α → Desk → Prop} (h : Meets outcome R x d)
    (hQ : ∀ a d', R a d' → Q a d') : Meets outcome Q x d :=
  ⟨fun a d' hd => hQ a d' (h.ok a d' hd), h.error⟩

theorem pure {a : α} (h : Q a d) : Meets outcome Q (Pure.pure a) d := by
  refine ⟨fun a' d' hd => ?_, fun e d' hd => ?_⟩
  · cases hd
    exact h
  · cases hd

theorem error_of {x : Part α} {e : Error} {d' : Desk} (h : x d = some (.error e, d'))
    (ho : outcome = (.error e, d'.next)) : Meets outcome Q x d := by
  refine ⟨fun a d₁ hd => ?_, fun e' d₁ hd => ?_⟩
  · rw [h] at hd
    cases hd
  · rw [h] at hd
    cases hd
    exact ho

theorem current {f : Lexeme → Part α} (h : Meets outcome Q (f d.current.lexeme) d) :
    Meets outcome Q (Descent.current >>= f) d :=
  .congr (bind_of_ok rfl) h

theorem seq {x : Part β} {f : β → Part α} {R : β → Desk → Prop} (hx : Meets outcome R x d)
    (hf : ∀ b d', x d = some (.ok b, d') → R b d' → Meets outcome Q (f b) d') :
    Meets outcome Q (x >>= f) d := by
  rcases h : x d with _ | ⟨e | b, d'⟩
  · refine ⟨fun a d' hd => ?_, fun e d' hd => ?_⟩
    · rw [bind_of_none h] at hd
      cases hd
    · rw [bind_of_none h] at hd
      cases hd
  · exact .error_of (bind_of_error h) (hx.error e d' h)
  · exact .congr (bind_of_ok h) (hf b d' h (hx.ok b d' h))

/-- What the first part has taken is known apart. -/
theorem bind {x : Part β} {f : β → Part α} {R : β → Desk → Prop} {due : β → Nat}
    (hc : Consumes due 0 x d) (hx : Meets outcome R x d)
    (hf : ∀ b d', d'.left + due b ≤ d.left → R b d' → Meets outcome Q (f b) d') :
    Meets outcome Q (x >>= f) d :=
  .seq hx fun b d' h => hf b d' (hc.passes h).left

theorem advance {l : Lexeme} {f : Unit → Part α} (hs : Stands outcome first s d)
    (hcur : d.current.lexeme = l) (hl : l ≠ .mark .eof) (htake : s.take? l = some u)
    (hsize : u.size = s.size)
    (hf : ∀ d', d'.left < d.left → d'.next = d.next → Stands outcome first u d' →
      Meets outcome Q (f ()) d') :
    Meets outcome Q (Descent.advance >>= f) d := by
  subst hcur
  obtain ⟨d₁, hstep, hfetch⟩ | ⟨e, d₁, hstep, hmiss⟩ := advance_cases hl
  · refine .congr (bind_of_ok hstep) (hf d₁ hfetch.left hfetch.next ?_)
    rw [Descent.advance] at hstep
    split at hstep
    · rename_i hnext
      cases hstep
      exact hs.advanced hl htake hsize hnext
    · cases hstep
  · refine .error_of (bind_of_error hstep) ?_
    rw [hmiss.next]
    rw [Descent.advance] at hstep
    split at hstep
    · cases hstep
    · rename_i hnext
      cases hstep
      exact hs.missed hl htake hsize hnext

theorem takes {m : Mark} {f : Bool → Part α} (hm : m ≠ .eof) (hs : Stands outcome first s d)
    (htake : s.take? (.mark m) = some u) (hsize : u.size = s.size)
    (htrue : ∀ d', d'.left < d.left → d'.next = d.next → Stands outcome first u d' →
      Meets outcome Q (f true) d')
    (hfalse : d.current.lexeme ≠ .mark m → Meets outcome Q (f false) d) :
    Meets outcome Q (Descent.takes m >>= f) d := by
  rw [Descent.takes, bind_assoc]
  refine .current ?_
  split
  · rename_i hcur
    rw [bind_assoc]
    simp only [pure_bind]
    exact .advance hs hcur (fun h => hm (Lexeme.mark.inj h)) htake hsize htrue
  · rename_i hcur
    exact hfalse hcur

theorem expect {m : Mark} {f : Unit → Part α} (hm : m ≠ .eof) (hs : Stands outcome first s d)
    (htake : s.take? (.mark m) = some u) (hsize : u.size = s.size)
    (hr : d.current.lexeme ≠ .mark m → s.Refuses d.current.lexeme [.mark m])
    (hf : ∀ d', d'.left < d.left → d'.next = d.next → Stands outcome first u d' →
      Meets outcome Q (f ()) d') :
    Meets outcome Q (Descent.expect m >>= f) d := by
  rw [Descent.expect, bind_assoc]
  exact .takes hm hs htake hsize hf fun hcur => .error_of rfl (hs.refused (hr hcur))

theorem name {f : String → Part α} {m : String → State} (hs : Stands outcome first s d)
    (htake : ∀ x, s.take? (.ident x) = some (m x)) (hsize : ∀ x, (m x).size = s.size)
    (hr : (∀ x, d.current.lexeme ≠ .ident x) → s.Refuses d.current.lexeme [.ident])
    (hf : ∀ x d', d'.left < d.left → d'.next = d.next → Stands outcome first (m x) d' →
      Meets outcome Q (f x) d') :
    Meets outcome Q (Descent.name >>= f) d := by
  rw [Descent.name, bind_assoc]
  refine .current ?_
  split
  · rename_i x hcur
    rw [bind_assoc]
    simp only [pure_bind]
    exact .advance hs hcur Lexeme.noConfusion (htake x) (hsize x) (hf x)
  · rename_i hcur
    exact .error_of rfl (hs.refused (hr hcur))

theorem draw {node : Nat → Node Nat} {f : Node Nat → Part α}
    (h : Meets outcome Q (f (node d.next)) { d with next := d.next + 1 }) :
    Meets outcome Q (Descent.draw node >>= f) d :=
  .congr (bind_of_ok rfl) h

theorem draw_last {Q : Node Nat → Desk → Prop} {node : Nat → Node Nat}
    (h : Q (node d.next) { d with next := d.next + 1 }) :
    Meets outcome Q (Descent.draw node) d :=
  .congr (congrFun (bind_pure (Descent.draw node)).symm d) (.draw (.pure h))

end Meets

end

section

variable {ctx : Context} {t : Tree} {l : Lexeme} {before : List Tree}
  {around : List (Construct × List Tree)}

theorem take?_of_leads {m m' : Mode} (h : m.Leads [l] m') :
    State.take? ⟨before, around, m⟩ l = some ⟨before, around, m'⟩ := by
  cases h before around with
  | cons hs hrest =>
    cases hrest
    exact hs

/-- A mode that no token settles, and that this one does not lead on. -/
theorem refuses_mode {m : Mode} {expected : List Category} (hshift : m.shift? l = none)
    (hsettle : m.settle l.category = m)
    (hmode : State.shift? ⟨before, around, m⟩ l =
      (m.shift? l).map (State.withMode ⟨before, around, m⟩))
    (hexpected : State.expected ⟨before, around, m⟩ l.category = expected) :
    State.Refuses ⟨before, around, m⟩ l expected := by
  refine ⟨?_, ?_, ?_⟩ <;> rw [State.settle] <;> dsimp only <;> rw [hsettle]
  · rw [hmode, hshift]
    rfl
  · exact hexpected

/-- In these modes only some marks and names lead on, whatever is around them. -/
def isFixed : Mode → Bool
  | .name _ | .localWord | .functionWord | .functionName _ | .paramsOpen _ | .paramNext _ _
  | .param _ _ | .printWord | .readWord _ | .readOpen _ => true
  | _ => false

/-- Of what leads on from such a mode only a parenthesis and a comma are not listed. -/
theorem refuses_fixed {m : Mode} {expected : List Category} (hm : isFixed m = true)
    (hexpected : m.expected = expected) (hl : l.category ∉ expected)
    (hclose : ∀ f, m = .paramsOpen f → l ≠ .mark .closeParen)
    (hcomma : ∀ f ps, m = .param f ps → l ≠ .mark .comma) :
    State.Refuses ⟨before, around, m⟩ l expected := by
  subst hexpected
  cases m <;> cases hm
  all_goals
    refine refuses_mode ?_ rfl rfl rfl
    unfold Mode.shift?
    split <;> simp_all [Mode.expected, Lexeme.category]

/-- No operator follows, and the token is not what the surroundings of the operand wait for. -/
theorem refuses_behind {expected : List Category} (hopen : ctx.Open) (hstable : Stable 0 ctx.stack)
    (hlevel : followLevel l.category < 1)
    (hmore : ctx.stack = [] → ctx.purpose.complete? t = none)
    (hcont : Mode.continueOperand? ctx t l = none)
    (hexpected : (Mode.behind ctx t true).expected = expected) :
    State.Refuses ⟨before, around, .behind ctx t true⟩ l expected := by
  have hsettle : State.settle ⟨before, around, .behind ctx t true⟩ l.category =
      ⟨before, around, .behind ctx t true⟩ := by
    rw [State.settle]
    dsimp only [Mode.settle]
    rw [settleOperand_of_stable hopen (by rwa [Nat.lt_one_iff.mp hlevel]) fun h _ => hmore h]
  refine ⟨?_, ?_, ?_⟩
  · rw [hsettle]
    simp only [State.shift?, Mode.shift?, hcont, Option.map_none]
  · rw [hsettle]
    exact hexpected
  · rw [hsettle]

theorem size_behind (ctx : Context) (t : Tree) :
    State.size ⟨before, around, .behind ctx t true⟩ =
      State.size ⟨before, around, .behind ctx t false⟩ + 1 := by
  have := t.size_pos
  simp only [State.size, Mode.size, builtSize, if_true, Bool.false_eq_true, if_false]
  omega

theorem size_argsOpen (ctx : Context) (f : String) :
    State.size ⟨before, around, .argsOpen ctx f⟩ =
      State.size ⟨before, around, .operand (ctx.push (.argument f []))⟩ := by
  simp [State.size, Mode.size, Pending.size, Node.sizes]

/-- Behind the parenthesis that opens arguments, an expression begins as behind a comma. -/
theorem step_argsOpen {f : String} {u : Token} (h : u.lexeme ≠ .mark .closeParen) :
    State.step ⟨before, around, .argsOpen ctx f⟩ u =
      State.step ⟨before, around, .operand (ctx.push (.argument f []))⟩ u := by
  have hshift : Mode.shift? (.argsOpen ctx f) u.lexeme =
      Mode.beginOperand? (ctx.push (.argument f [])) u.lexeme := by
    rw [Mode.shift?]
    exact h
  refine State.step_of_alike ?_ rfl (size_argsOpen ctx f)
  simp only [State.settle, Mode.settle, State.shift?, hshift]
  rfl

theorem beginOperand?_mark {m : Mark} (hopen : m ≠ .openParen) (hread : m ≠ .kRead) :
    Mode.beginOperand? ctx (.mark m) =
      (unaryOp? (.mark m)).map fun op => .operand (ctx.push (.unary op)) := by
  cases m <;> first | rfl | contradiction

end

theorem expected_push (ctx : Context) (p : Pending) (t : Tree) (built : Bool) :
    (Mode.behind (ctx.push p) t built).expected = [.mark .closeParen] := by
  rcases ctx with ⟨purpose, stack⟩
  cases purpose <;> rfl

/-- Of what leads on from an operand, operators apart, only a comma is not listed. -/
theorem continueOperand?_eq_none {ctx : Context} {t : Tree} {l : Lexeme}
    (hop : binaryOp? l.category = none) (hl : l.category ∉ (Mode.behind ctx t true).expected)
    (hcomma : ∀ f done rest, ctx.stack = .argument f done :: rest → l ≠ .mark .comma) :
    Mode.continueOperand? ctx t l = none := by
  obtain ⟨purpose, stack⟩ := ctx
  unfold Mode.continueOperand?
  rw [hop]
  dsimp only
  split <;> simp_all [Lexeme.category, Mode.expected]

theorem not_mem_of_ne {l : Lexeme} {k : Mark} (h : l ≠ .mark k) : l.category ∉ [Category.mark k] :=
  fun hmem => h (eq_mark_of_category (List.mem_singleton.mp hmem))

namespace Meets

variable {outcome : Except Error (Node Nat) × Nat} {first : Nat} {before : List Tree}
  {around : List (Construct × List Tree)} {d : Desk} {α : Type} {Q : α → Desk → Prop}

/-- The only mark listed in a mode. -/
theorem expect_fixed {m u : Mode} {k : Mark} {f : Unit → Part α}
    (hs : Stands outcome first ⟨before, around, m⟩ d) (hm : isFixed m = true)
    (hexpected : m.expected = [.mark k]) (hk : k ≠ .eof)
    (hcomma : ∀ f ps, m = .param f ps → d.current.lexeme ≠ .mark .comma)
    (htake : State.take? ⟨before, around, m⟩ (.mark k) = some ⟨before, around, u⟩)
    (hsize : u.size = m.size)
    (hf : ∀ d', d'.left < d.left → d'.next = d.next → Stands outcome first ⟨before, around, u⟩ d' →
      Meets outcome Q (f ()) d') :
    Meets outcome Q (Descent.expect k >>= f) d := by
  refine .expect hk hs htake (congrArg (Node.sizes before + Construct.sizes around + ·) hsize)
    (fun hcur => refuses_fixed hm hexpected (not_mem_of_ne hcur) ?_ hcomma) hf
  rintro f rfl
  cases hexpected

/-- A name where nothing else is listed. -/
theorem name_fixed {m : Mode} {u : String → Mode} {f : String → Part α}
    (hs : Stands outcome first ⟨before, around, m⟩ d) (hm : isFixed m = true)
    (hexpected : m.expected = [.ident])
    (hclose : ∀ f, m = .paramsOpen f → d.current.lexeme ≠ .mark .closeParen)
    (htake : ∀ x, State.take? ⟨before, around, m⟩ (.ident x) = some ⟨before, around, u x⟩)
    (hsize : ∀ x, (u x).size = m.size)
    (hf : ∀ x d', d'.left < d.left → d'.next = d.next →
      Stands outcome first ⟨before, around, u x⟩ d' → Meets outcome Q (f x) d') :
    Meets outcome Q (Descent.name >>= f) d := by
  refine .name hs htake
    (fun x => congrArg (Node.sizes before + Construct.sizes around + ·) (hsize x))
    (fun hcur => refuses_fixed hm hexpected (fun hmem => ?_) hclose ?_) hf
  · obtain ⟨x, hx⟩ := exists_ident (List.mem_singleton.mp hmem)
    exact hcur x hx
  · rintro f ps rfl
    cases hexpected

/-- The mark that the surroundings of an operand wait for when no operator follows it. -/
theorem close {ctx : Context} {t : Tree} {k : Mark} {m : Mode} {f : Unit → Part α}
    (hs : Stands outcome first ⟨before, around, .behind ctx t true⟩ d)
    (hlevel : followLevel d.current.category < 1) (hopen : ctx.Open) (hstable : Stable 0 ctx.stack)
    (hmore : ctx.stack = [] → ctx.purpose.complete? t = none)
    (hk : k ≠ .openParen ∧ k ≠ .eof ∧ binaryOp? (.mark k) = none)
    (hexpected : (Mode.behind ctx t true).expected = [.mark k])
    (hcomma : ∀ f done rest, ctx.stack = .argument f done :: rest → d.current.lexeme ≠ .mark .comma)
    (htake : Mode.continueOperand? ctx t (.mark k) = some m)
    (hsize : m.size = (Mode.behind ctx t true).size)
    (hf : ∀ d', d'.left < d.left → d'.next = d.next → Stands outcome first ⟨before, around, m⟩ d' →
      Meets outcome Q (f ()) d') :
    Meets outcome Q (Descent.expect k >>= f) d := by
  have hleads : (Mode.behind ctx t true).Leads [.mark k] m :=
    (Mode.offers_behind ctx t true 0).close hopen hk.1 hk.2.2 hstable hmore htake
  refine .expect hk.2.1 hs (take?_of_leads hleads) ?_ (fun hcur => ?_) hf
  · exact congrArg (Node.sizes before + Construct.sizes around + ·) hsize
  · refine refuses_behind hopen hstable hlevel hmore ?_ hexpected
    exact continueOperand?_eq_none (binaryOp?_of_followLevel (Nat.le_of_lt_succ hlevel))
      (hexpected ▸ not_mem_of_ne hcur) hcomma

/-- The parenthesis behind what is in parentheses. -/
theorem close_push {ctx : Context} {p : Pending} {t : Tree} {m : Mode} {f : Unit → Part α}
    (hs : Stands outcome first ⟨before, around, .behind (ctx.push p) t true⟩ d)
    (hlevel : followLevel d.current.category < 1) (hstable : Stable 0 (ctx.push p).stack)
    (hcomma : ∀ f done, p = .argument f done → d.current.lexeme ≠ .mark .comma)
    (htake : Mode.continueOperand? (ctx.push p) t (.mark .closeParen) = some m)
    (hsize : m.size = (Mode.behind (ctx.push p) t true).size)
    (hf : ∀ d', d'.left < d.left → d'.next = d.next → Stands outcome first ⟨before, around, m⟩ d' →
      Meets outcome Q (f ()) d') :
    Meets outcome Q (Descent.expect .closeParen >>= f) d :=
  .close hs hlevel (ctx.open_push p) hstable (fun h => absurd h (List.cons_ne_nil _ _)) (by decide)
    (expected_push ctx p t true) (fun f done _ h => hcomma f done (List.cons.inj h).1) htake hsize
    hf

end Meets

section

variable (outcome : Except Error (Node Nat) × Nat) (first : Nat) (before : List Tree)
  (around : List (Construct × List Tree))

/-- An operation of the level has been read with the numbers from `n` on, and no operator of the
level follows. -/
structure Behind (ctx : Context) (level n : Nat) (t : Node Nat) (d : Desk) : Prop where
  stands : Stands outcome first ⟨before, around, .behind ctx t.erase true⟩ d
  number : t.erase.number n = (t, d.next)
  level : followLevel d.current.category < level

variable {outcome first before around} in
/-- The node with which an operation ends, its parts numbered before it. -/
theorem Behind.drawn {ctx : Context} {level n : Nat} {node : Node Nat} {t : Tree} {s : State}
    {d : Desk} (hs : Stands outcome first s d) (hnumber : t.number n = (node, d.next + 1))
    (hsettle : s.settle d.current.category =
      ⟨before, around, (Mode.behind ctx t false).settle d.current.category⟩)
    (hsize : State.size ⟨before, around, .behind ctx t false⟩ = s.size)
    (hlevel : followLevel d.current.category < level) :
    Behind outcome first before around ctx level n node { d with next := d.next + 1 } := by
  obtain rfl : node.erase = t := by rw [← Node.erase_number n t, hnumber]
  exact ⟨hs.drawn (State.step_congr hsettle) (by rw [size_behind, hsize]), hnumber, hlevel⟩

/-- Arguments behind `done` have been read, and neither a comma nor an operator follows. -/
def BehindArguments (ctx : Context) (f : String) (done : List Tree) (n : Nat) (es : List (Node Nat))
    (d : Desk) : Prop :=
  ∃ done' t', (t' :: done').reverse = done.reverse ++ Node.erases es ∧
    Stands outcome first ⟨before, around, .behind (ctx.push (.argument f done')) t' true⟩ d ∧
    Node.numbers n (Node.erases es) = (es, d.next) ∧
    followLevel d.current.category < 1 ∧ d.current.lexeme ≠ .mark .comma

/-- Where the machine waits for an operand, operands and operations are read as it reads them. -/
structure Operates (d : Desk) : Prop where
  operand : ∀ ctx : Context, ctx.Open → Stands outcome first ⟨before, around, .operand ctx⟩ d →
    Meets outcome (Behind outcome first before around ctx 6 d.next) grammar.operand d
  operation : ∀ level ctx, 0 < level → ctx.Open → Stable level ctx.stack →
    Stands outcome first ⟨before, around, .operand ctx⟩ d →
    Meets outcome (Behind outcome first before around ctx level d.next) (grammar.operation level) d

variable {outcome first before around} {n : Nat}

theorem Operates.expression {ctx : Context} {d : Desk} (h : Operates outcome first before around d)
    (hopen : ctx.Open) (hstable : Stable 1 ctx.stack)
    (hs : Stands outcome first ⟨before, around, .operand ctx⟩ d) :
    Meets outcome (Behind outcome first before around ctx 1 d.next) (grammar.operation 1) d :=
  h.operation 1 ctx Nat.one_pos hopen hstable hs

variable (ih : ∀ d : Desk, d.left < n → Operates outcome first before around d)

include ih

theorem meets_nextArgument {ctx : Context} {f : String} {done : List Tree} {t : Tree} {d : Desk}
    (hd : d.left ≤ n)
    (hs : Stands outcome first ⟨before, around, .behind (ctx.push (.argument f done)) t true⟩ d) :
    Meets outcome (fun e d' => match e with
      | some e =>
        Behind outcome first before around (ctx.push (.argument f (t :: done))) 1 d.next e d'
      | none => d' = d ∧ d.current.lexeme ≠ .mark .comma) grammar.nextArgument? d := by
  have hcomma : (Mode.behind (ctx.push (.argument f done)) t true).Leads [.mark .comma]
      (.operand (ctx.push (.argument f (t :: done)))) :=
    (Mode.offers_behind (ctx.push (.argument f done)) t true 1).close_push (by decide) rfl trivial
      rfl
  rw [Grammar.nextArgument?]
  refine .takes (by decide) hs (take?_of_leads hcomma) ?_ (fun d₁ h₁ hn₁ hs₁ => ?_)
    fun hcur => .pure ⟨rfl, hcur⟩
  · simp [State.size, Mode.size, builtSize, Pending.size, Node.sizes]
    omega
  · have hopen := ctx.open_push (.argument f (t :: done))
    refine .bind (progress_operation d₁ 1) ((ih d₁ (by omega)).expression hopen trivial hs₁)
      fun e d₂ _ he => .pure ?_
    rw [← hn₁]
    exact he

theorem meets_moreArguments {ctx : Context} {f : String} {done : List Tree} {t : Tree} {d : Desk}
    (hd : d.left ≤ n)
    (hs : Stands outcome first ⟨before, around, .behind (ctx.push (.argument f done)) t true⟩ d)
    (hlevel : followLevel d.current.category < 1) :
    Meets outcome (BehindArguments outcome first before around ctx f (t :: done) d.next)
      grammar.moreArguments d := by
  induction hk : d.left using Nat.strongRecOn generalizing d done t with
  | ind k ihk =>
    rw [Grammar.moreArguments]
    refine .bind (turns_nextArgument d) (meets_nextArgument ih hd hs) fun a d₁ h₁ ha => ?_
    cases a with
    | none =>
      obtain ⟨rfl, hcur⟩ := ha
      exact .pure ⟨done, t, by simp [Node.erases], hs, rfl, hlevel, hcur⟩
    | some e =>
      have hlt : d₁.left < d.left := h₁
      refine .bind (stays_moreArguments d₁)
        (ihk d₁.left (by omega) (by omega) ha.stands ha.level rfl) fun es d₂ _ hes => .pure ?_
      obtain ⟨done', t', hargs, hs₂, hnum, hlevel₂, hcur₂⟩ := hes
      refine ⟨done', t', ?_, hs₂, ?_, hlevel₂, hcur₂⟩
      · rw [hargs]
        simp [Node.erases]
      · simp only [Node.erases, Node.numbers, ha.number, hnum]

/-- Between parentheses, the first of which is in hand. -/
theorem meets_arguments (ctx : Context) (f : String) {s : State} {d : Desk} (hd : d.left ≤ n)
    (hs : Stands outcome first s d) (hcur : d.current.lexeme = .mark .openParen)
    (htake : s.take? (.mark .openParen) = some ⟨before, around, .argsOpen ctx f⟩)
    (hsize : State.size ⟨before, around, .argsOpen ctx f⟩ = s.size) :
    Meets outcome (fun es d' =>
      Stands outcome first ⟨before, around, .behind ctx (.call () f (Node.erases es)) false⟩ d' ∧
      Node.numbers d.next (Node.erases es) = (es, d'.next)) grammar.arguments d := by
  rw [Grammar.arguments]
  refine .expect (by decide) hs htake hsize (fun h => absurd hcur h) fun d₁ h₁ hn₁ hs₁ => ?_
  refine .takes (by decide) hs₁ (u := ⟨before, around, .behind ctx (.call () f []) false⟩) rfl rfl
    (fun d₂ _ hn₂ hs₂ => .pure ⟨hs₂, ?_⟩) fun hcur₁ => ?_
  · rw [hn₂, hn₁]
    rfl
  · have hopen := ctx.open_push (.argument f [])
    have hs₁' : Stands outcome first ⟨before, around, .operand (ctx.push (.argument f []))⟩ d₁ :=
      hs₁.congr (step_argsOpen hcur₁) (size_argsOpen ctx f)
    refine .bind (progress_operation d₁ 1) ((ih d₁ (by omega)).expression hopen trivial hs₁')
      fun e d₂ h₂ he => ?_
    refine .bind (stays_moreArguments d₂)
      (meets_moreArguments ih (by omega) he.stands he.level) fun es d₃ _ hes => ?_
    obtain ⟨done, t, hargs, hs₃, hnum, hlevel, hcomma⟩ := hes
    refine .close_push hs₃ hlevel trivial (fun _ _ _ => hcomma) rfl ?_
      fun d₄ _ hn₄ hs₄ => .pure ⟨?_, ?_⟩
    · simp only [Mode.size, builtSize, if_true, Bool.false_eq_true, if_false, Node.size,
        Node.sizes_reverse, Node.sizes, Context.size_pop, Context.size_push, Pending.size]
      omega
    · have hall : (t :: done).reverse = Node.erases (e :: es) := by
        rw [hargs]
        rfl
      rw [← hall]
      exact hs₄
    · simp only [Node.erases, Node.numbers, ← hn₁, he.number, hnum, hn₄]

theorem meets_operand {ctx : Context} {d : Desk} (hd : d.left ≤ n) (hopen : ctx.Open)
    (hs : Stands outcome first ⟨before, around, .operand ctx⟩ d) :
    Meets outcome (Behind outcome first before around ctx 6 d.next) grammar.operand d := by
  have hlevel : ∀ d' : Desk, followLevel d'.current.category < 6 :=
    fun d' => Nat.lt_succ_of_le (followLevel_le _)
  rw [Grammar.operand]
  refine .current ?_
  split
  · rename_i x hcur
    refine .advance hs hcur Lexeme.noConfusion (u := ⟨before, around, .operandName ctx x⟩) rfl rfl
      fun d₁ h₁ hn₁ hs₁ => .current ?_
    split
    · rename_i hcur₁
      refine .bind (progress_arguments d₁) (meets_arguments ih ctx x (by omega) hs₁ hcur₁ rfl rfl)
        fun es d₂ _ hes => .draw_last ?_
      obtain ⟨hs₂, hnum⟩ := hes
      exact .drawn hs₂ (by rw [← hn₁, Node.number, hnum]) rfl rfl (hlevel d₂)
    · rename_i hcur₁
      refine .draw_last (.drawn (t := .var () x) hs₁ (by rw [hn₁]; rfl) ?_ rfl (hlevel d₁))
      have hparen : d₁.current.category ≠ .mark .openParen := fun h => hcur₁ (eq_mark_of_category h)
      simp only [State.settle, Mode.settle, if_neg hparen]
  · rename_i k hcur
    refine .advance hs hcur Lexeme.noConfusion
      (u := ⟨before, around, .behind ctx (.int () k) false⟩) rfl rfl
      fun d₁ _ hn₁ hs₁ => .draw_last ?_
    exact .drawn hs₁ (by rw [hn₁]; rfl) rfl rfl (hlevel d₁)
  · rename_i k hcur
    refine .advance hs hcur Lexeme.noConfusion
      (u := ⟨before, around, .behind ctx (.str () k) false⟩) rfl rfl
      fun d₁ _ hn₁ hs₁ => .draw_last ?_
    exact .drawn hs₁ (by rw [hn₁]; rfl) rfl rfl (hlevel d₁)
  · rename_i hcur
    refine .advance hs hcur (by decide) (u := ⟨before, around, .operand (ctx.push .group)⟩) rfl ?_
      fun d₁ h₁ hn₁ hs₁ => ?_
    · simp [State.size, Mode.size, Pending.size]
    · have hgroup := ctx.open_push .group
      refine .bind (progress_operation d₁ 1) ((ih d₁ (by omega)).expression hgroup trivial hs₁)
        fun e d₂ _ he => ?_
      refine .close_push he.stands he.level trivial (fun _ _ h => Pending.noConfusion h) rfl ?_
        fun d₃ _ hn₃ hs₃ => .pure ?_
      · simp [Mode.size, Pending.size]
      · exact ⟨hs₃, by rw [← hn₁, he.number, hn₃], hlevel d₃⟩
  · rename_i hcur
    refine .advance hs hcur (by decide) (u := ⟨before, around, .readWord ctx⟩) rfl rfl
      fun d₁ _ hn₁ hs₁ => ?_
    refine .expect_fixed (u := .readOpen ctx) hs₁ rfl rfl (by decide) (by simp) rfl rfl
      fun d₂ _ hn₂ hs₂ => ?_
    refine .expect_fixed (u := .behind ctx (.read ()) false) hs₂ rfl rfl (by decide) (by simp) rfl
      rfl fun d₃ _ hn₃ hs₃ => .draw_last ?_
    exact .drawn hs₃ (by rw [hn₃, hn₂, hn₁]; rfl) rfl rfl (hlevel d₃)
  · rename_i m hparen hread hcur
    split
    · rename_i op hunary
      have hop : unaryOp? (.mark m) = some op := hunary
      refine .advance hs hcur (fun h => ne_eof_of_unary? hunary (Lexeme.mark.inj h))
        (u := ⟨before, around, .operand (ctx.push (.unary op))⟩) ?_ ?_ fun d₁ h₁ hn₁ hs₁ => ?_
      · refine take?_of_leads (.single rfl ?_)
        rw [Mode.shift?, beginOperand?_mark hparen hread, hop]
        rfl
      · simp [State.size, Mode.size, Pending.size]
      · have hunaryOpen := ctx.open_push (.unary op)
        refine .bind (progress_operand d₁) ((ih d₁ (by omega)).operand _ hunaryOpen hs₁)
          fun e d₂ _ he => .draw_last ?_
        refine .drawn (t := .unary () op e.erase) he.stands ?_ ?_ ?_ (hlevel d₂)
        · simp only [Node.number, ← hn₁, he.number]
        · simp only [State.settle, Mode.settle, settleOperand_unary hopen]
        · simp [State.size, Mode.size, builtSize, Pending.size, Node.size]
    · rename_i hunary
      have hop : unaryOp? (.mark m) = none := hunary
      refine .error_of rfl (hs.refused (refuses_mode ?_ rfl rfl rfl))
      rw [hcur, Mode.shift?, beginOperand?_mark hparen hread, hop]
      rfl

/-- The operation to the left of the operator is numbered from `k` on. -/
theorem meets_nextOperation {level k : Nat} {ctx : Context} {left : Node Nat} {d : Desk}
    (hd : d.left ≤ n) (hlevel : 0 < level) (hopen : ctx.Open) (hstable : Stable level ctx.stack)
    (hleft : Behind outcome first before around ctx (level + 1) k left d) :
    Meets outcome (fun e d' => match e with
      | some t => Behind outcome first before around ctx (level + 1) k t d'
      | none => d' = d ∧ followLevel d.current.category ≠ level)
      (grammar.nextOperation? level left) d := by
  rw [Grammar.nextOperation?]
  refine .current ?_
  split
  · rename_i op hbinary
    have hop : binaryOp? d.current.category = some op := hbinary
    have hmark : d.current.lexeme = .mark op.mark := eq_mark_of_category (eq_mark_of_binaryOp? hop)
    split
    · rename_i heq
      subst heq
      have hright := ctx.open_push (.binary op left.erase)
      refine .advance hleft.stands hmark (fun h => ne_eof_of_binary? hbinary (hmark.trans h))
        (u := ⟨before, around, .operand (ctx.push (.binary op left.erase))⟩) ?_ ?_
        fun d₁ h₁ hn₁ hs₁ => ?_
      · exact take?_of_leads
          ((Mode.offers_behind ctx left.erase true op.level).operator hopen hstable)
      · simp [State.size, Mode.size, builtSize, Pending.size]
        omega
      · have hoperation := (ih d₁ (by omega)).operation (op.level + 1) _ (Nat.succ_pos _) hright
          (Nat.lt_succ_self op.level) hs₁
        refine .bind (progress_operation d₁ _) hoperation fun right d₂ _ he => .draw (.pure ?_)
        have hfollow : followLevel d₂.current.category ≤ op.level := Nat.le_of_lt_succ he.level
        refine .drawn (t := .binary () op left.erase right.erase) he.stands ?_ ?_ ?_ he.level
        · simp only [Node.number, hleft.number, ← hn₁, he.number]
        · simp only [State.settle, Mode.settle, settleOperand_binary hopen hfollow]
        · simp [State.size, Mode.size, builtSize, Pending.size, Node.size]
          omega
    · rename_i hne
      refine .pure ⟨rfl, fun h => hne ?_⟩
      rwa [Token.category, hmark, Lexeme.category, followLevel_mark] at h
  · rename_i hbinary
    have hop : binaryOp? d.current.lexeme.category = none := hbinary
    refine .pure ⟨rfl, fun h => ?_⟩
    rw [followLevel, Token.category, hop] at h
    exact absurd h hlevel.ne

theorem meets_operations {level k : Nat} {ctx : Context} {left : Node Nat} {d : Desk}
    (hd : d.left ≤ n) (hlevel : 0 < level) (hopen : ctx.Open) (hstable : Stable level ctx.stack)
    (hleft : Behind outcome first before around ctx (level + 1) k left d) :
    Meets outcome (Behind outcome first before around ctx level k)
      (grammar.operations level left) d := by
  induction hk : d.left using Nat.strongRecOn generalizing d left with
  | ind j ihj =>
    rw [Grammar.operations]
    refine .bind (turns_nextOperation d level left)
      (meets_nextOperation ih hd hlevel hopen hstable hleft) fun a d₁ h₁ ha => ?_
    cases a with
    | none =>
      obtain ⟨rfl, hne⟩ := ha
      exact .pure ⟨hleft.stands, hleft.number, by have := hleft.level; omega⟩
    | some t =>
      have hlt : d₁.left < d.left := h₁
      exact ihj d₁.left (by omega) (by omega) ha rfl

theorem meets_operation {ctx : Context} {d : Desk} (hd : d.left ≤ n) (level : Nat)
    (hlevel : 0 < level) (hopen : ctx.Open) (hstable : Stable level ctx.stack)
    (hs : Stands outcome first ⟨before, around, .operand ctx⟩ d) :
    Meets outcome (Behind outcome first before around ctx level d.next)
      (grammar.operation level) d := by
  rw [Grammar.operation]
  split
  · rename_i hlevel'
    refine (meets_operand ih hd hopen hs).mono fun t d' ht => ⟨ht.stands, ht.number, ?_⟩
    exact Nat.lt_of_lt_of_le ht.level hlevel'
  · refine .bind (progress_operation d (level + 1)) (meets_operation hd (level + 1) (Nat.succ_pos _)
      hopen (hstable.mono (Nat.le_succ _)) hs) fun left d₁ h₁ hleft => ?_
    exact meets_operations ih (by omega) hlevel hopen hstable hleft
termination_by grammar.tightest + 1 - level

end

theorem operates (outcome : Except Error (Node Nat) × Nat) (first : Nat) (before : List Tree)
    (around : List (Construct × List Tree)) (d : Desk) :
    Operates outcome first before around d := by
  induction hk : d.left using Nat.strongRecOn generalizing d with
  | ind k ih =>
    subst hk
    have ih' : ∀ d' : Desk, d'.left < d.left → Operates outcome first before around d' :=
      fun d' hlt => ih d'.left hlt d' rfl
    exact ⟨fun ctx => meets_operand ih' (Nat.le_refl _),
      fun level ctx => meets_operation ih' (Nat.le_refl _) level⟩

end Descent
end Onepass
