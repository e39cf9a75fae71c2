import Onepass.Proofs.Descent

/-!
# Onepass.Proofs.Consumption

What reading by descent uses up. A call for a token takes a character of the text at least, until it
gives the end of the text, and none is made after that (`Desk.left`). So what can still be called
for goes down along every part that takes a token, and that is what the recursions are on.

A node is drawn for a token taken before. Parts are compared by how many tokens are due from them
and how many nodes they may draw on tokens taken in front of them (`Passes`). The node of an empty
statement is drawn before its line end is taken: where that call fails one node has no token, and
the first token of the text, which no part takes, makes up for it (`Fails`).

* `Consumes` -- a part ends, and what it has used up then, with a rule for each primitive.
* `progress_operation`, `stays_block` -- by induction on the calls that are left.
* `report_of_parse` -- a whole text.
-/

namespace Onepass
namespace Descent

open Reader

/-- The calls gave tokens, none of them the end of the text. -/
def Going (calls : List (Except Error Token)) : Prop :=
  ∀ call ∈ calls, ∃ t, call = .ok t ∧ t.lexeme ≠ .mark .eof

/-- The number of calls that gave a token. -/
def fetched (calls : List (Except Error Token)) : Nat := calls.countP Except.isOk

theorem fetched_ok (t : Token) (calls : List (Except Error Token)) :
    fetched (.ok t :: calls) = fetched calls + 1 :=
  List.countP_cons_of_pos rfl

theorem fetched_error (e : Error) (calls : List (Except Error Token)) :
    fetched (.error e :: calls) = fetched calls :=
  List.countP_cons_of_neg Bool.false_ne_true

namespace Desk

/-- How many calls there can still be, at most: each takes a character, except one for the end of
the text. -/
def left (d : Desk) : Nat := if d.current.lexeme = .mark .eof then 0 else d.cursor.rest.length + 1

/-- The token in hand is what the last call gave, and no call before it gave the end of the text. -/
def Logged (d : Desk) : Prop := ∃ earlier, d.calls = .ok d.current :: earlier ∧ Going earlier

theorem Logged.going {d : Desk} (h : d.Logged) (hd : d.current.lexeme ≠ .mark .eof) :
    Going d.calls := by
  obtain ⟨earlier, hcalls, hgoing⟩ := h
  rw [hcalls]
  exact List.forall_mem_cons.mpr ⟨⟨d.current, rfl, hd⟩, hgoing⟩

theorem Logged.going_tail {d : Desk} (h : d.Logged) : Going d.calls.tail := by
  obtain ⟨earlier, hcalls, hgoing⟩ := h
  rw [hcalls]
  exact hgoing

end Desk

/-- From the one desk to the other at least `due` tokens are taken, and at most `spare` nodes more
are drawn than tokens taken. -/
structure Passes (due spare : Nat) (d d' : Desk) : Prop where
  logged : d.Logged → d'.Logged
  left : d'.left + due ≤ d.left
  calls : d'.calls.length + d'.left ≤ d.calls.length + d.left
  taken : fetched d.calls + due ≤ fetched d'.calls
  drawn : d'.next + fetched d.calls ≤ d.next + fetched d'.calls + spare

/-- The same of a failure, which may come between the node of an empty statement and the token for
it. -/
structure Fails (spare : Nat) (d d' : Desk) : Prop where
  going : d.Logged → Going d'.calls.tail
  calls : d'.calls.length ≤ d.calls.length + d.left
  drawn : d'.next + fetched d.calls ≤ d.next + fetched d'.calls + spare + 1

/-- A token is taken, and nothing else happens. -/
structure Fetches (d d' : Desk) : Prop where
  logged : d.Logged → d'.Logged
  left : d'.left < d.left
  calls : d'.calls.length = d.calls.length + 1
  fetched : fetched d'.calls = fetched d.calls + 1
  next : d'.next = d.next

/-- A call fails, and nothing else happens. -/
structure Misses (d d' : Desk) : Prop where
  going : d.Logged → Going d'.calls.tail
  calls : d'.calls.length ≤ d.calls.length + d.left
  fetched : fetched d'.calls = fetched d.calls
  next : d'.next = d.next

section

variable {due spare : Nat} {d d' d'' : Desk}

theorem Passes.refl : Passes 0 spare d d :=
  ⟨id, Nat.le_refl _, Nat.le_refl _, Nat.le_refl _, Nat.le_add_right _ _⟩

theorem Fails.refl : Fails spare d d :=
  ⟨Desk.Logged.going_tail, Nat.le_add_right _ _, Nat.le_add_right _ (spare + 1)⟩

theorem Passes.mono {due' spare' : Nat} (h : Passes due spare d d') (hdue : due' ≤ due)
    (hspare : spare ≤ spare') : Passes due' spare' d d' where
  logged := h.logged
  left := Nat.le_trans (Nat.add_le_add_left hdue _) h.left
  calls := h.calls
  taken := Nat.le_trans (Nat.add_le_add_left hdue _) h.taken
  drawn := Nat.le_trans h.drawn (Nat.add_le_add_left hspare _)

theorem Fails.mono {spare' : Nat} (h : Fails spare d d') (hspare : spare ≤ spare') :
    Fails spare' d d' :=
  ⟨h.going, h.calls, Nat.le_trans h.drawn (Nat.succ_le_succ (Nat.add_le_add_left hspare _))⟩

theorem Passes.trans {done : Nat} (h₁ : Passes done 0 d d')
    (h₂ : Passes (due - done) spare d' d'') : Passes due spare d d'' where
  logged := h₂.logged ∘ h₁.logged
  left := by
    have := h₁.left
    have := h₂.left
    omega
  calls := Nat.le_trans h₂.calls h₁.calls
  taken := by
    have := h₁.taken
    have := h₂.taken
    omega
  drawn := by
    have := h₁.drawn
    have := h₂.drawn
    omega

theorem Passes.fails (h₁ : Passes due 0 d d') (h₂ : Fails spare d' d'') : Fails spare d d'' where
  going := h₂.going ∘ h₁.logged
  calls := Nat.le_trans h₂.calls h₁.calls
  drawn := by
    have := h₁.drawn
    have := h₂.drawn
    omega

/-- The token taken is one node more to spare. -/
theorem Fetches.passes (h₁ : Fetches d d') (h₂ : Passes (due - 1) (spare + 1) d' d'') :
    Passes due spare d d'' where
  logged := h₂.logged ∘ h₁.logged
  left := by
    have := h₁.left
    have := h₂.left
    omega
  calls := by
    have := h₁.left
    have := h₁.calls
    have := h₂.calls
    omega
  taken := by
    have := h₁.fetched
    have := h₂.taken
    omega
  drawn := by
    have := h₁.fetched
    have := h₁.next
    have := h₂.drawn
    omega

theorem Fetches.fails (h₁ : Fetches d d') (h₂ : Fails (spare + 1) d' d'') : Fails spare d d'' where
  going := h₂.going ∘ h₁.logged
  calls := by
    have := h₁.left
    have := h₁.calls
    have := h₂.calls
    omega
  drawn := by
    have := h₁.fetched
    have := h₁.next
    have := h₂.drawn
    omega

theorem Misses.fails (h : Misses d d') : Fails spare d d' where
  going := h.going
  calls := h.calls
  drawn := by
    have := h.fetched
    have := h.next
    omega

/-- A call while the end of the text is not in hand. -/
theorem advance_cases (hd : d.current.lexeme ≠ .mark .eof) :
    (∃ d', advance d = some (.ok (), d') ∧ Fetches d d') ∨
      ∃ e d', advance d = some (.error e, d') ∧ Misses d d' := by
  have hleft : d.left = d.cursor.rest.length + 1 := if_neg hd
  rw [advance]
  rcases hnext : d.cursor.next with ⟨e | t, c⟩
  · refine .inr ⟨e, _, rfl, fun h => h.going hd, ?_, fetched_error e d.calls, rfl⟩
    rw [hleft]
    exact Nat.add_le_add_left (Nat.succ_pos _) _
  · have hlogged (h : d.Logged) : Desk.Logged ⟨c, t, .ok t :: d.calls, d.next⟩ :=
      ⟨d.calls, rfl, h.going hd⟩
    refine .inl ⟨_, rfl, hlogged, ?_, rfl, fetched_ok t d.calls, rfl⟩
    rw [hleft, Desk.left]
    dsimp only
    split
    · exact Nat.succ_pos _
    · rename_i ht
      exact Nat.succ_lt_succ (Cursor.length_next_lt hnext ht)

end

/-- The part comes to an end on the desk. If it succeeds it has taken as many tokens as are due for
what it gives. -/
inductive Consumes {α : Type} (due : α → Nat) (spare : Nat) (x : Part α) (d : Desk) : Prop where
  | ok {a : α} {d' : Desk} (h : x d = some (.ok a, d')) (hp : Passes (due a) spare d d')
  | error {e : Error} {d' : Desk} (h : x d = some (.error e, d')) (hf : Fails spare d d')

namespace Consumes

variable {α β : Type} {due : α → Nat} {spare : Nat} {d : Desk}

theorem congr {x y : Part α} (h : x d = y d) (hy : Consumes due spare y d) :
    Consumes due spare x d := by
  cases hy with
  | ok hd hp => exact .ok (h.trans hd) hp
  | error hd hf => exact .error (h.trans hd) hf

/-- What a success has taken. -/
theorem passes {x : Part α} {a : α} {d' : Desk} (h : Consumes due spare x d)
    (hx : x d = some (.ok a, d')) : Passes (due a) spare d d' := by
  cases h with
  | error hd _ =>
    rw [hx] at hd
    cases hd
  | ok hd hpasses =>
    rw [hx] at hd
    cases hd
    exact hpasses

theorem mono {x : Part α} {due' : α → Nat} {spare' : Nat} (h : Consumes due spare x d)
    (hdue : ∀ a, due' a ≤ due a) (hle : spare ≤ spare') : Consumes due' spare' x d := by
  cases h with
  | ok h hpasses => exact .ok h (hpasses.mono (hdue _) hle)
  | error h hfails => exact .error h (hfails.mono hle)

theorem pure {a : α} (h : due a = 0) : Consumes due spare (Pure.pure a) d :=
  .ok rfl (h ▸ .refl)

theorem unexpected (expected : List Category) :
    Consumes due spare (Descent.unexpected expected) d :=
  .error rfl .refl

theorem draw {node : Nat → Node Nat} {f : Node Nat → Part α}
    (hf : ∀ d', d'.left = d.left → Consumes due spare (f (node d.next)) d') :
    Consumes due (spare + 1) (Descent.draw node >>= f) d := by
  have hstep : Descent.draw node d = some (.ok (node d.next), { d with next := d.next + 1 }) := rfl
  cases hf { d with next := d.next + 1 } rfl with
  | error h hfails =>
    refine .error ((bind_of_ok hstep).trans h) ⟨hfails.going, hfails.calls, ?_⟩
    have := hfails.drawn
    dsimp only at this
    omega
  | ok h hpasses =>
    refine .ok ((bind_of_ok hstep).trans h)
      ⟨hpasses.logged, hpasses.left, hpasses.calls, hpasses.taken, ?_⟩
    have := hpasses.drawn
    dsimp only at this
    omega

theorem draw_last {due : Node Nat → Nat} {node : Nat → Node Nat} (h : due (node d.next) = 0) :
    Consumes due (spare + 1) (Descent.draw node) d :=
  .congr (congrFun (bind_pure (Descent.draw node)).symm d) (.draw fun _ _ => .pure h)

theorem current {f : Lexeme → Part α} (h : Consumes due spare (f d.current.lexeme) d) :
    Consumes due spare (Descent.current >>= f) d :=
  .congr (bind_of_ok rfl) h

theorem bind {x : Part β} {f : β → Part α} {done : β → Nat} (hx : Consumes done 0 x d)
    (hf : ∀ b d', d'.left + done b ≤ d.left → Consumes (due · - done b) spare (f b) d') :
    Consumes due spare (x >>= f) d := by
  cases hx with
  | error h hfails => exact .error (bind_of_error h) (hfails.mono (Nat.zero_le spare))
  | @ok b d₁ h hpasses =>
    cases hf b d₁ hpasses.left with
    | error h₁ hfails => exact .error ((bind_of_ok h).trans h₁) (hpasses.fails hfails)
    | ok h₁ hpasses₁ => exact .ok ((bind_of_ok h).trans h₁) (hpasses.trans hpasses₁)

theorem advance {l : Lexeme} {f : Unit → Part α} (hcur : d.current.lexeme = l) (hl : l ≠ .mark .eof)
    (hf : ∀ d', d'.left < d.left → Consumes (due · - 1) (spare + 1) (f ()) d') :
    Consumes due spare (Descent.advance >>= f) d := by
  obtain ⟨d₁, hstep, hfetch⟩ | ⟨e, d₁, hstep, hmiss⟩ := advance_cases (hcur ▸ hl)
  · cases hf d₁ hfetch.left with
    | error h hfails => exact .error ((bind_of_ok hstep).trans h) (hfetch.fails hfails)
    | ok h hpasses => exact .ok ((bind_of_ok hstep).trans h) (hfetch.passes hpasses)
  · exact .error (bind_of_error hstep) hmiss.fails

theorem takes {m : Mark} {f : Bool → Part α} (hm : m ≠ .eof)
    (htrue : ∀ d', d'.left < d.left → Consumes (due · - 1) (spare + 1) (f true) d')
    (hfalse : d.current.lexeme ≠ .mark m → Consumes due spare (f false) d) :
    Consumes due spare (Descent.takes m >>= f) d := by
  rw [Descent.takes, bind_assoc]
  refine .current ?_
  split
  · rename_i hcur
    rw [bind_assoc]
    simp only [pure_bind]
    exact .advance hcur (fun h => hm (Lexeme.mark.inj h)) htrue
  · rename_i hcur
    exact hfalse hcur

theorem expect {m : Mark} {f : Unit → Part α} (hm : m ≠ .eof)
    (hf : ∀ d', d'.left < d.left → Consumes (due · - 1) (spare + 1) (f ()) d') :
    Consumes due spare (Descent.expect m >>= f) d := by
  rw [Descent.expect, bind_assoc]
  exact .takes hm hf fun _ => .error rfl .refl

theorem name {f : String → Part α}
    (hf : ∀ x d', d'.left < d.left → Consumes (due · - 1) (spare + 1) (f x) d') :
    Consumes due spare (Descent.name >>= f) d := by
  rw [Descent.name, bind_assoc]
  refine .current ?_
  split
  · rename_i x hcur
    rw [bind_assoc]
    simp only [pure_bind]
    exact .advance hcur Lexeme.noConfusion (hf x)
  · exact .error rfl .refl

end Consumes

/-- The part takes a token at least. -/
abbrev Progress {α : Type} (x : Part α) (d : Desk) : Prop := Consumes (fun _ => 1) 0 x d

/-- The part comes to an end. -/
abbrev Stays {α : Type} (x : Part α) (d : Desk) : Prop := Consumes (fun _ => 0) 0 x d

/-- The part comes to an end, a token having been taken in front of it. -/
abbrev Draws {α : Type} (x : Part α) (d : Desk) : Prop := Consumes (fun _ => 0) 1 x d

/-- A turn of a loop takes a token at least. -/
abbrev Turns {α : Type} (x : Part (Option α)) (d : Desk) : Prop :=
  Consumes (fun a => if a.isSome then 1 else 0) 0 x d

/-- Whenever the part gives something it has taken a token. -/
def Advances {α : Type} (x : Part (Option α)) : Prop :=
  ∀ d a d', x d = some (.ok (some a), d') → fetched d.calls < fetched d'.calls

theorem Advances.of_turns {α : Type} {x : Part (Option α)} (h : ∀ d, Turns x d) : Advances x :=
  fun d _ _ hstep => ((h d).passes hstep).taken

theorem stays_many {α : Type} {x : Part (Option α)} (h : ∀ d, Turns x d) (d : Desk) :
    Stays x.many d := by
  induction hk : d.left using Nat.strongRecOn generalizing d with
  | ind k ih =>
    subst hk
    rw [Part.many]
    refine .bind (h d) fun a d₁ h₁ => ?_
    cases a with
    | none => exact .pure rfl
    | some x => exact .bind (ih d₁.left h₁ d₁ rfl) fun as d₂ _ => .pure rfl

theorem turns_nextParam (d : Desk) : Turns nextParam? d := by
  rw [nextParam?]
  refine .takes (by decide) (fun d₁ h₁ => ?_) fun _ => .pure rfl
  exact .name fun x d₂ _ => .pure rfl

theorem progress_params (d : Desk) : Progress params d := by
  rw [params]
  refine .expect (by decide) fun d₁ _ => ?_
  refine .takes (by decide) (fun d₂ _ => .pure rfl) fun _ => ?_
  refine .name fun x d₂ _ => ?_
  refine .bind (stays_many turns_nextParam d₂) fun xs d₃ _ => ?_
  exact .expect (by decide) fun d₄ _ => .pure rfl

theorem stays_endStatement (d : Desk) : Stays endStatement d := by
  rw [endStatement]
  refine .takes (by decide) (fun d₁ _ => .pure rfl) fun _ => .current ?_
  split
  · exact .pure rfl
  · exact .unexpected _

section

variable {g : Grammar}

theorem ne_eof_of_binary? {l : Lexeme} {op : BinaryOp} (h : g.binary? l.category = some op) :
    l ≠ .mark .eof := by
  rintro rfl
  cases g.binary?_eof.symm.trans h

theorem ne_eof_of_unary? {m : Mark} {op : UnaryOp} (h : g.unary? (.mark m) = some op) :
    m ≠ .eof := by
  rintro rfl
  cases g.unary?_eof.symm.trans h

section

variable {n : Nat} (ih : ∀ d : Desk, d.left < n → ∀ level, Progress (g.operation level) d)

include ih

theorem turns_nextArgument_of_lt {d : Desk} (hd : d.left ≤ n) : Turns g.nextArgument? d := by
  rw [Grammar.nextArgument?]
  refine .takes (by decide) (fun d₁ h₁ => ?_) fun _ => .pure rfl
  exact .bind (ih d₁ (by omega) 1) fun e d₂ _ => .pure rfl

theorem stays_moreArguments_of_lt {d : Desk} (hd : d.left ≤ n) : Stays g.moreArguments d := by
  induction hk : d.left using Nat.strongRecOn generalizing d with
  | ind k ihk =>
    rw [Grammar.moreArguments]
    refine .bind (turns_nextArgument_of_lt ih hd) fun a d₁ h₁ => ?_
    cases a with
    | none => exact .pure rfl
    | some e =>
      have hlt : d₁.left < d.left := h₁
      exact .bind (ihk d₁.left (by omega) (by omega) rfl) fun es d₂ _ => .pure rfl

theorem progress_arguments_of_lt {d : Desk} (hd : d.left ≤ n) : Progress g.arguments d := by
  rw [Grammar.arguments]
  refine .expect (by decide) fun d₁ h₁ => ?_
  refine .takes (by decide) (fun d₂ h₂ => .pure rfl) fun _ => ?_
  refine .bind (ih d₁ (by omega) 1) fun e d₂ h₂ => ?_
  refine .bind (stays_moreArguments_of_lt ih (by omega)) fun es d₃ h₃ => ?_
  exact .expect (by decide) fun d₄ h₄ => .pure rfl

theorem progress_operand_of_lt {d : Desk} (hd : d.left ≤ n) : Progress g.operand d := by
  rw [Grammar.operand]
  refine .current ?_
  split
  · rename_i x hcur
    refine .advance hcur Lexeme.noConfusion fun d₁ h₁ => .current ?_
    split
    · refine .bind (progress_arguments_of_lt ih (by omega)) fun args d₂ h₂ => .draw_last rfl
    · exact .draw_last rfl
  · rename_i k hcur
    exact .advance hcur Lexeme.noConfusion fun d₁ h₁ => .draw_last rfl
  · rename_i s hcur
    exact .advance hcur Lexeme.noConfusion fun d₁ h₁ => .draw_last rfl
  · rename_i hcur
    refine .advance hcur (by decide) fun d₁ h₁ => ?_
    refine .bind (ih d₁ (by omega) 1) fun e d₂ h₂ => ?_
    exact .expect (by decide) fun d₃ h₃ => .pure rfl
  · rename_i hcur
    refine .advance hcur (by decide) fun d₁ h₁ => ?_
    refine .expect (by decide) fun d₂ h₂ => ?_
    exact .expect (by decide) fun d₃ h₃ => .draw_last rfl
  · rename_i m _ _ hcur
    split
    · rename_i op hop
      refine .advance hcur (fun h => ne_eof_of_unary? hop (Lexeme.mark.inj h)) fun d₁ h₁ => ?_
      have hoperand : Progress g.operand d₁ := by
        have h := ih d₁ (by omega) (g.tightest + 1)
        rwa [Grammar.operation, if_pos (Nat.lt_succ_self _)] at h
      exact .bind hoperand fun e d₂ h₂ => .draw_last rfl
    · exact .unexpected _

theorem turns_nextOperation_of_lt {d : Desk} (hd : d.left ≤ n) (level : Nat) (left : Node Nat) :
    Turns (g.nextOperation? level left) d := by
  rw [Grammar.nextOperation?]
  refine .current ?_
  split
  · rename_i op hop
    split
    · refine .advance rfl (ne_eof_of_binary? hop) fun d₁ h₁ => ?_
      refine .bind (ih d₁ (by omega) (level + 1)) fun right d₂ h₂ => ?_
      exact .draw fun d₃ _ => .pure rfl
    · exact .pure rfl
  · exact .pure rfl

theorem stays_operations_of_lt {d : Desk} (hd : d.left ≤ n) (level : Nat) (left : Node Nat) :
    Stays (g.operations level left) d := by
  induction hk : d.left using Nat.strongRecOn generalizing d left with
  | ind k ihk =>
    rw [Grammar.operations]
    refine .bind (turns_nextOperation_of_lt ih hd level left) fun a d₁ h₁ => ?_
    cases a with
    | none => exact .pure rfl
    | some t =>
      have hlt : d₁.left < d.left := h₁
      exact ihk d₁.left (by omega) (by omega) t rfl

theorem progress_operation_of_lt {d : Desk} (hd : d.left ≤ n) (level : Nat) :
    Progress (g.operation level) d := by
  rw [Grammar.operation]
  split
  · exact progress_operand_of_lt ih hd
  · rename_i hlevel
    refine .bind (progress_operation_of_lt hd (level + 1)) fun left d₁ h₁ => ?_
    exact stays_operations_of_lt ih (by omega) level left
termination_by g.tightest + 1 - level

end

/-- By induction on the calls that are left: what is within an operation comes behind a token of
its own. -/
theorem progress_operation (d : Desk) (level : Nat) : Progress (g.operation level) d := by
  induction hk : d.left using Nat.strongRecOn generalizing d level with
  | ind k ih =>
    subst hk
    exact progress_operation_of_lt (fun d' hlt level' => ih d'.left hlt d' level' rfl)
      (Nat.le_refl _) level

theorem turns_nextOperation (d : Desk) (level : Nat) (left : Node Nat) :
    Turns (g.nextOperation? level left) d :=
  turns_nextOperation_of_lt (fun d' _ => progress_operation d') (Nat.le_refl _) level left

theorem turns_nextArgument (d : Desk) : Turns g.nextArgument? d :=
  turns_nextArgument_of_lt (fun d' _ => progress_operation d') (Nat.le_refl _)

theorem stays_moreArguments (d : Desk) : Stays g.moreArguments d :=
  stays_moreArguments_of_lt (fun d' _ => progress_operation d') (Nat.le_refl _)

theorem progress_arguments (d : Desk) : Progress g.arguments d :=
  progress_arguments_of_lt (fun d' _ => progress_operation d') (Nat.le_refl _)

theorem progress_operand (d : Desk) : Progress g.operand d :=
  progress_operand_of_lt (fun d' _ => progress_operation d') (Nat.le_refl _)

theorem draws_nameSentence (d : Desk) (x : String) : Draws (g.nameSentence x) d := by
  rw [Grammar.nameSentence]
  refine .takes (by decide) (fun d₁ _ => ?_) fun _ => .current ?_
  · exact .bind (progress_operation d₁ 1) fun e d₂ _ => .draw_last rfl
  · split
    · exact .bind (progress_arguments d) fun args d₁ _ => .draw_last rfl
    · exact .unexpected _

theorem draws_localSentence (d : Desk) : Draws g.localSentence d := by
  rw [Grammar.localSentence]
  refine .name fun x d₁ _ => .takes (by decide) (fun d₂ _ => ?_) fun _ => ?_
  · exact .bind (progress_operation d₂ 1) fun e d₃ _ => .draw_last rfl
  · rw [if_neg Bool.false_ne_true]
    exact .draw_last rfl

theorem draws_returnSentence (d : Desk) : Draws g.returnSentence d := by
  rw [Grammar.returnSentence]
  exact .bind (progress_operation d 1) fun e d₁ _ => .draw_last rfl

theorem draws_printSentence (d : Desk) : Draws g.printSentence d := by
  rw [Grammar.printSentence]
  refine .expect (by decide) fun d₁ _ => .bind (progress_operation d₁ 1) fun e d₂ _ => ?_
  exact .expect (by decide) fun d₃ _ => .draw_last rfl

theorem sentence_of_newline {d : Desk} (h : d.current.lexeme = .mark .newline) (inFunction : Bool) :
    g.sentence inFunction d = some (.ok (.skip d.next), { d with next := d.next + 1 }) := by
  rw [Grammar.sentence, bind_current, h]
  rfl

theorem endStatement_of_newline {d : Desk} (h : d.current.lexeme = .mark .newline) :
    endStatement d = advance d := by
  rw [endStatement, takes, bind_assoc, bind_current, if_pos h]
  simp

theorem statement_of_newline {d : Desk} (h : d.current.lexeme = .mark .newline)
    (inFunction : Bool) :
    g.statement inFunction d =
      (advance >>= fun _ => pure (.skip d.next)) { d with next := d.next + 1 } := by
  rw [Grammar.statement, bind_of_ok (sentence_of_newline h inFunction)]
  exact bind_congr_at (endStatement_of_newline (d := { d with next := d.next + 1 }) h) _

/-- The node of an empty statement is one ahead of the tokens if the call behind it fails. -/
theorem progress_statement_of_newline {d : Desk} (h : d.current.lexeme = .mark .newline)
    (inFunction : Bool) : Progress (g.statement inFunction) d := by
  obtain ⟨d₁, hstep, hfetch⟩ | ⟨e, d₁, hstep, hmiss⟩ :=
    advance_cases (d := { d with next := d.next + 1 }) (by rw [h]; decide)
  · have hcalls : d₁.calls.length = d.calls.length + 1 := hfetch.calls
    have hleft : d₁.left < d.left := hfetch.left
    have hfetched : fetched d₁.calls = fetched d.calls + 1 := hfetch.fetched
    have hnext : d₁.next = d.next + 1 := hfetch.next
    refine .ok ((statement_of_newline h inFunction).trans (bind_of_ok hstep)) ?_
    exact ⟨hfetch.logged, hleft, by omega, by omega, by omega⟩
  · have hfetched : fetched d₁.calls = fetched d.calls := hmiss.fetched
    have hnext : d₁.next = d.next + 1 := hmiss.next
    refine .error ((statement_of_newline h inFunction).trans (bind_of_error hstep)) ?_
    exact ⟨hmiss.going, hmiss.calls, by omega⟩

section

variable {n : Nat}
  (ih : ∀ d : Desk, d.left < n → ∀ inFunction stops, Stays (g.block inFunction stops) d)

include ih

theorem stays_elseBlock_of_lt {d : Desk} (hd : d.left ≤ n) (inFunction : Bool) :
    Stays (g.elseBlock inFunction) d := by
  rw [Grammar.elseBlock]
  refine .takes (by decide) (fun d₁ h₁ => ?_) fun _ => .pure rfl
  refine .expect (by decide) fun d₂ h₂ => ?_
  exact (ih d₂ (by omega) inFunction [.kEnd]).mono (fun _ => Nat.zero_le _) (Nat.zero_le _)

theorem draws_functionSentence_of_lt {d : Desk} (hd : d.left ≤ n) : Draws g.functionSentence d := by
  rw [Grammar.functionSentence]
  refine .name fun f d₁ h₁ => .bind (progress_params d₁) fun ps d₂ h₂ => ?_
  refine .expect (by decide) fun d₃ h₃ => ?_
  refine .bind (ih d₃ (by omega) true [.kEnd]) fun body d₄ _ => ?_
  exact .expect (by decide) fun d₅ _ => .draw_last rfl

theorem draws_loopSentence_of_lt {d : Desk} (hd : d.left ≤ n) (inFunction : Bool) :
    Draws (g.loopSentence inFunction) d := by
  rw [Grammar.loopSentence]
  refine .bind (progress_operation d 1) fun c d₁ h₁ => ?_
  refine .expect (by decide) fun d₂ h₂ => .expect (by decide) fun d₃ h₃ => ?_
  refine .bind (ih d₃ (by omega) inFunction [.kEnd]) fun body d₄ _ => ?_
  exact .expect (by decide) fun d₅ _ => .draw_last rfl

theorem draws_branchSentence_of_lt {d : Desk} (hd : d.left ≤ n) (inFunction : Bool) :
    Draws (g.branchSentence inFunction) d := by
  rw [Grammar.branchSentence]
  refine .bind (progress_operation d 1) fun c d₁ h₁ => ?_
  refine .expect (by decide) fun d₂ h₂ => .expect (by decide) fun d₃ h₃ => ?_
  refine .bind (ih d₃ (by omega) inFunction [.kEnd, .kElse]) fun yes d₄ h₄ => ?_
  refine .bind (stays_elseBlock_of_lt ih (by omega) inFunction) fun no d₅ _ => ?_
  exact .expect (by decide) fun d₆ _ => .draw_last rfl

/-- An empty statement apart, which is finished before its line end is taken. -/
theorem progress_sentence_of_lt {d : Desk} (hd : d.left ≤ n) (inFunction : Bool)
    (hline : d.current.lexeme ≠ .mark .newline) : Progress (g.sentence inFunction) d := by
  rw [Grammar.sentence]
  refine .current ?_
  split
  · rename_i x hcur
    exact .advance hcur Lexeme.noConfusion fun d₁ _ => draws_nameSentence d₁ x
  · rename_i hcur
    exact .advance hcur (by decide) fun d₁ _ => draws_localSentence d₁
  · rename_i hcur
    exact .advance hcur (by decide) fun d₁ h₁ => draws_functionSentence_of_lt ih (by omega)
  · rename_i hcur
    split
    · exact .advance hcur (by decide) fun d₁ _ => draws_returnSentence d₁
    · exact .unexpected _
  · rename_i hcur
    exact .advance hcur (by decide) fun d₁ _ => draws_printSentence d₁
  · rename_i hcur
    exact .advance hcur (by decide) fun d₁ h₁ => draws_loopSentence_of_lt ih (by omega) inFunction
  · rename_i hcur
    exact .advance hcur (by decide) fun d₁ h₁ => draws_branchSentence_of_lt ih (by omega) inFunction
  · rename_i hcur
    exact absurd hcur hline
  · exact .unexpected _

theorem progress_statement_of_lt {d : Desk} (hd : d.left ≤ n) (inFunction : Bool) :
    Progress (g.statement inFunction) d := by
  by_cases hline : d.current.lexeme = .mark .newline
  · exact progress_statement_of_newline hline inFunction
  · rw [Grammar.statement]
    refine .bind (progress_sentence_of_lt ih hd inFunction hline) fun t d₁ _ => ?_
    exact .bind (stays_endStatement d₁) fun _ d₂ _ => .pure rfl

theorem turns_nextInBlock_of_lt {d : Desk} (hd : d.left ≤ n) (inFunction : Bool)
    (stops : List Mark) : Turns (g.nextInBlock? inFunction stops) d := by
  rw [Grammar.nextInBlock?]
  refine .current ?_
  split
  · exact .pure rfl
  · split
    · exact .error rfl .refl
    · exact .bind (progress_statement_of_lt ih hd inFunction) fun t d₁ _ => .pure rfl

end

theorem stays_block (d : Desk) (inFunction : Bool) (stops : List Mark) :
    Stays (g.block inFunction stops) d := by
  induction hk : d.left using Nat.strongRecOn generalizing d inFunction stops with
  | ind k ih =>
    subst hk
    rw [Grammar.block]
    refine .bind (turns_nextInBlock_of_lt (fun d' hlt b s => ih d'.left hlt d' b s rfl)
      (Nat.le_refl _) inFunction stops) fun a d₁ h₁ => ?_
    cases a with
    | none => exact .pure rfl
    | some t => exact .bind (ih d₁.left h₁ d₁ inFunction stops rfl) fun ts d₂ _ => .pure rfl

theorem stays_elseBlock (d : Desk) (inFunction : Bool) : Stays (g.elseBlock inFunction) d :=
  stays_elseBlock_of_lt (fun d' _ => stays_block d') (Nat.le_refl _) inFunction

theorem progress_statement (d : Desk) (inFunction : Bool) : Progress (g.statement inFunction) d :=
  progress_statement_of_lt (fun d' _ => stays_block d') (Nat.le_refl _) inFunction

theorem turns_nextInBlock (d : Desk) (inFunction : Bool) (stops : List Mark) :
    Turns (g.nextInBlock? inFunction stops) d :=
  turns_nextInBlock_of_lt (fun d' _ => stays_block d') (Nat.le_refl _) inFunction stops

theorem turns_nextInProgram (d : Desk) : Turns g.nextInProgram? d := by
  rw [Grammar.nextInProgram?]
  refine .current ?_
  split
  · exact .pure rfl
  · exact .bind (progress_statement d false) fun t d₁ _ => .pure rfl

end

/-- Reading a text ends, and how many calls it makes until then and how many numbers it uses up. -/
theorem report_of_parse (g : Grammar) (source : String) (first : Nat) :
    ∃ p, g.parse source first = some p ∧
      p.calls.length ≤ (Comment.strip source).length + 1 ∧
      Going p.calls.tail ∧
      p.next ≤ first + fetched p.calls := by
  rw [Grammar.parse]
  rcases hnext : (Cursor.ofString (Comment.strip source)).next with ⟨e | t, c⟩
  · exact ⟨_, rfl, Nat.le_add_left _ _, fun _ h => absurd h List.not_mem_nil, Nat.le_add_right _ _⟩
  · have hlogged : Desk.Logged ⟨c, t, [.ok t], first⟩ :=
      ⟨[], rfl, fun _ h => absurd h List.not_mem_nil⟩
    have hleft : Desk.left ⟨c, t, [.ok t], first⟩ ≤ (Comment.strip source).length := by
      rw [Desk.left]
      split
      · exact Nat.zero_le _
      · rename_i ht
        exact Cursor.length_next_lt hnext ht
    dsimp only [Grammar.program]
    cases stays_many (turns_nextInProgram (g := g)) ⟨c, t, [.ok t], first⟩ with
    | @error e d' h hfails =>
      rw [bind_of_error h]
      have hcalls : d'.calls.length ≤ 1 + _ := hfails.calls
      have hdrawn : d'.next + 1 ≤ first + fetched d'.calls + 0 + 1 := hfails.drawn
      exact ⟨_, rfl, by dsimp only; omega, hfails.going hlogged, by dsimp only; omega⟩
    | @ok ts d' h hpasses =>
      rw [bind_of_ok h]
      have hcalls : d'.calls.length + d'.left ≤ 1 + _ := hpasses.calls
      have hdrawn : d'.next + 1 ≤ first + fetched d'.calls + 0 := hpasses.drawn
      exact ⟨_, rfl, by dsimp only; omega, (hpasses.logged hlogged).going_tail, hdrawn⟩

end Descent
end Onepass
