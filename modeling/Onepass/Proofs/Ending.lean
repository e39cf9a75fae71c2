import Onepass.Proofs.Agreement

/-!
# Onepass.Proofs.Ending

Reading by descent comes to an end on every text, and to what the machine comes to. Between
statements the machine may stand before a statement where reading by descent has one finished: at
the end of the text that makes no difference (`step_done`), and a text may end there.

* `meets_sentence` -- a statement, one lemma for each kind.
* `blocks`         -- the lines of a block, by induction on the calls for tokens that are left.
* `parse_agrees`   -- a text.
* `reading_ends`   -- it ends, after so many calls and so many numbers, and every turn of a loop
  takes a token.
-/

namespace Onepass
namespace Descent

open Reader

section

variable (outcome : Except Error (Node Nat) × Nat) (first : Nat) (before : List Tree)
  (around : List (Construct × List Tree))

/-- A statement has been read with the numbers from `n` on. -/
structure Done (n : Nat) (t : Node Nat) (d : Desk) : Prop where
  stands : Stands outcome first ⟨before, around, .done t.erase true⟩ d
  number : t.erase.number n = (t, d.next)

/-- Statements have been read with the numbers from `n` on, up to a token of which `stop` holds. -/
structure Lines (stop : Lexeme → Prop) (n : Nat) (ts : List (Node Nat)) (d : Desk) : Prop where
  stands : Stands outcome first ⟨(Node.erases ts).reverse ++ before, around, .fresh⟩ d
  numbers : Node.numbers n (Node.erases ts) = (ts, d.next)
  stop : stop d.current.lexeme

variable {outcome first before around} {d : Desk} {n : Nat}

theorem Lines.cons {stop : Lexeme → Prop} {k : Nat} {t : Node Nat} {ts : List (Node Nat)}
    (h : Lines outcome first (t.erase :: before) around stop k ts d)
    (ht : t.erase.number n = (t, k)) : Lines outcome first before around stop n (t :: ts) d := by
  refine ⟨?_, ?_, h.stop⟩
  · simpa [Node.erases] using h.stands
  · simp only [Node.erases, Node.numbers, ht, h.numbers]

theorem size_done (t : Tree) :
    State.size ⟨before, around, .done t true⟩ = State.size ⟨before, around, .done t false⟩ + 1 := by
  have := t.size_pos
  simp only [State.size, Mode.size, builtSize, if_true, Bool.false_eq_true, if_false]
  omega

theorem Done.drawn {node : Node Nat} {t : Tree} {s : State} (hs : Stands outcome first s d)
    (hnumber : t.number n = (node, d.next + 1))
    (hstep : s.step d.current = State.step ⟨before, around, .done t true⟩ d.current)
    (hsize : State.size ⟨before, around, .done t false⟩ = s.size) :
    Done outcome first before around n node { d with next := d.next + 1 } := by
  obtain rfl : node.erase = t := by rw [← Node.erase_number n t, hnumber]
  exact ⟨hs.drawn hstep (by rw [size_done, hsize]), hnumber⟩

/-- An expression that completes a statement. -/
theorem settle_complete {p : Purpose} {t statement : Tree} {next : Category} {built : Bool}
    (hp : p ≠ .call) (hcomplete : p.complete? t = some statement) (hnext : followLevel next < 1) :
    (Mode.behind ⟨p, []⟩ t built).settle next = .done statement true := by
  dsimp only [Mode.settle]
  rw [settleOperand_of_open (.of_ne hp)]
  dsimp only [reduce]
  rw [binaryOp?_of_followLevel (Nat.le_of_lt_succ hnext), hcomplete]

theorem meets_nextParam {f : String} {qs : List String}
    (hs : Stands outcome first ⟨before, around, .param f qs⟩ d) :
    Meets outcome (fun x d' => match x with
      | some x => Stands outcome first ⟨before, around, .param f (x :: qs)⟩ d' ∧ d'.next = d.next
      | none => d' = d ∧ d.current.lexeme ≠ .mark .comma) nextParam? d := by
  rw [nextParam?]
  refine .takes (by decide) hs (u := ⟨before, around, .paramNext f qs⟩) rfl rfl
    (fun d₁ _ hn₁ hs₁ => ?_) fun hcur => .pure ⟨rfl, hcur⟩
  exact .name_fixed (u := fun x => .param f (x :: qs)) hs₁ rfl rfl (by simp) (fun _ => rfl)
    (fun _ => rfl) fun x d₂ _ hn₂ hs₂ => .pure ⟨hs₂, hn₂.trans hn₁⟩

theorem meets_moreParams {f : String} {qs : List String}
    (hs : Stands outcome first ⟨before, around, .param f qs⟩ d) :
    Meets outcome (fun xs d' =>
      Stands outcome first ⟨before, around, .param f (xs.reverse ++ qs)⟩ d' ∧ d'.next = d.next ∧
      d'.current.lexeme ≠ .mark .comma) nextParam?.many d := by
  induction hk : d.left using Nat.strongRecOn generalizing d qs with
  | ind k ih =>
    subst hk
    rw [Part.many]
    refine .bind (turns_nextParam d) (meets_nextParam hs) fun a d₁ h₁ ha => ?_
    cases a with
    | none =>
      obtain ⟨rfl, hcur⟩ := ha
      exact .pure ⟨hs, rfl, hcur⟩
    | some x =>
      obtain ⟨hs₁, hn₁⟩ := ha
      refine .bind (stays_many turns_nextParam d₁) (ih d₁.left h₁ hs₁ rfl)
        fun xs d₂ _ hxs => .pure ?_
      obtain ⟨hs₂, hn₂, hcur⟩ := hxs
      exact ⟨by simpa using hs₂, hn₂.trans hn₁, hcur⟩

theorem meets_params {f : String} (hs : Stands outcome first ⟨before, around, .functionName f⟩ d) :
    Meets outcome (fun ps d' =>
      Stands outcome first ⟨before, around, .lineBreak (.function f ps)⟩ d' ∧ d'.next = d.next)
      params d := by
  rw [params]
  refine .expect_fixed (u := .paramsOpen f) hs rfl rfl (by decide) (by simp) rfl rfl
    fun d₁ _ hn₁ hs₁ => ?_
  refine .takes (by decide) hs₁ (u := ⟨before, around, .lineBreak (.function f [])⟩) rfl rfl
    (fun d₂ _ hn₂ hs₂ => .pure ⟨hs₂, hn₂.trans hn₁⟩) fun hclose => ?_
  refine .name_fixed (u := fun x => .param f [x]) hs₁ rfl rfl (fun _ _ => hclose) (fun _ => rfl)
    (fun _ => rfl) fun x d₂ _ hn₂ hs₂ => ?_
  refine .bind (stays_many turns_nextParam d₂) (meets_moreParams hs₂) fun xs d₃ _ hxs => ?_
  obtain ⟨hs₃, hn₃, hcomma⟩ := hxs
  refine .expect_fixed (u := .lineBreak (.function f (x :: xs))) hs₃ rfl rfl (by decide)
    (fun _ _ _ => hcomma) ?_ rfl fun d₄ _ hn₄ hs₄ => .pure ⟨hs₄, ?_⟩
  · exact take?_of_leads (.single rfl (by simp [Mode.shift?]))
  · rw [hn₄, hn₃, hn₂, hn₁]

/-- The expression of an assignment, a definition or a return, which it completes. -/
theorem meets_completed {p : Purpose} {wrap : Tree → Tree} {node : Node Nat → Nat → Node Nat}
    {k : Nat} (hp : p ≠ .call) (hcomplete : ∀ t, p.complete? t = some (wrap t))
    (hnumber : ∀ t, (wrap t).number k = (node (t.number k).1 (t.number k).2, (t.number k).2 + 1))
    (hsize : ∀ t, (wrap t).size = t.size + 1)
    (hs : Stands outcome first ⟨before, around, .operand ⟨p, []⟩⟩ d) (hk : d.next = k) :
    Meets outcome (Done outcome first before around k)
      (grammar.operation 1 >>= fun e => draw (node e)) d := by
  have hopen : Context.Open ⟨p, []⟩ := .of_ne hp
  have hexpression := (operates outcome first before around d).expression hopen trivial hs
  refine .bind (progress_operation d 1) hexpression fun e d₁ _ he => .draw_last ?_
  refine .drawn (t := wrap e.erase) he.stands ?_ (State.step_congr ?_) ?_
  · rw [hnumber, ← hk, he.number]
  · simp only [State.settle, settle_complete hp (hcomplete e.erase) he.level]
    rfl
  · simp [State.size, Mode.size, builtSize, hsize]

/-- The expression in front of a parenthesis or word that it does not complete its statement
without. -/
theorem meets_followed {p : Purpose} {k : Mark} {m : Tree → Mode} {α : Type} {Q : α → Desk → Prop}
    {f : Node Nat → Unit → Part α} (hp : p ≠ .call) (hcomplete : ∀ t, p.complete? t = none)
    (hk : k ≠ .openParen ∧ k ≠ .eof ∧ binaryOp? (.mark k) = none)
    (hexpected : ∀ t, (Mode.behind ⟨p, []⟩ t true).expected = [.mark k])
    (htake : ∀ t, Mode.continueOperand? ⟨p, []⟩ t (.mark k) = some (m t))
    (hsize : ∀ t, (m t).size = t.size)
    (hs : Stands outcome first ⟨before, around, .operand ⟨p, []⟩⟩ d)
    (hf : ∀ e d', d'.left < d.left → e.erase.number d.next = (e, d'.next) →
      Stands outcome first ⟨before, around, m e.erase⟩ d' → Meets outcome Q (f e ()) d') :
    Meets outcome Q (grammar.operation 1 >>= fun e => expect k >>= f e) d := by
  have hopen : Context.Open ⟨p, []⟩ := .of_ne hp
  have hexpression := (operates outcome first before around d).expression hopen trivial hs
  refine .bind (progress_operation d 1) hexpression fun e d₁ h₁ he => ?_
  refine .close he.stands he.level hopen trivial (fun _ => hcomplete _) hk (hexpected _)
    (by simp) (htake _) ?_ fun d₂ h₂ hn₂ hs₂ => hf e d₂ (by omega) ?_ hs₂
  · rw [hsize]
    simp [Mode.size, builtSize]
  · rw [he.number, hn₂]

theorem meets_nameSentence {x : String} (hs : Stands outcome first ⟨before, around, .name x⟩ d) :
    Meets outcome (Done outcome first before around d.next) (grammar.nameSentence x) d := by
  rw [Grammar.nameSentence]
  refine .takes (by decide) hs (u := ⟨before, around, .operand ⟨.assign x, []⟩⟩) rfl rfl
    (fun d₁ _ hn₁ hs₁ => ?_) fun hassign => .current ?_
  · exact meets_completed (by simp) (fun _ => rfl) (fun _ => rfl) (fun _ => rfl) hs₁ hn₁
  · split
    · rename_i hparen
      have harguments := meets_arguments (fun d' _ => operates outcome first before around d')
        ⟨.call, []⟩ x (Nat.le_refl _) hs hparen rfl rfl
      refine .bind (progress_arguments d) harguments fun args d₁ _ hargs => .draw_last ?_
      obtain ⟨hs₁, hnum⟩ := hargs
      exact .drawn hs₁ (by rw [Node.number, hnum]) (State.step_congr rfl)
        (by simp [State.size, Mode.size])
    · rename_i hparen
      refine .error_of rfl (hs.refused (refuses_fixed rfl rfl (fun hmem => ?_) (by simp) (by simp)))
      rcases List.mem_pair.mp hmem with h | h
      · exact hassign (eq_mark_of_category h)
      · exact hparen (eq_mark_of_category h)

theorem meets_localSentence (hs : Stands outcome first ⟨before, around, .localWord⟩ d) :
    Meets outcome (Done outcome first before around d.next) grammar.localSentence d := by
  rw [Grammar.localSentence]
  refine .name_fixed (u := fun x => .localName x) hs rfl rfl (by simp) (fun _ => rfl) (fun _ => rfl)
    fun x d₁ _ hn₁ hs₁ => ?_
  refine .takes (by decide) hs₁ (u := ⟨before, around, .operand ⟨.define x, []⟩⟩) rfl rfl
    (fun d₂ _ hn₂ hs₂ => ?_) fun hassign => ?_
  · exact meets_completed (by simp) (fun _ => rfl) (fun _ => rfl) (fun _ => rfl) hs₂ (hn₂.trans hn₁)
  · have hother : d₁.current.category ≠ .mark .assign := fun h => hassign (eq_mark_of_category h)
    rw [if_neg Bool.false_ne_true]
    refine .draw_last (.drawn (t := .declare () x) hs₁ (by rw [hn₁]; rfl) (State.step_congr ?_) rfl)
    simp only [State.settle, Mode.settle, if_neg hother]

theorem meets_returnSentence (hs : Stands outcome first ⟨before, around, .operand ⟨.ret, []⟩⟩ d) :
    Meets outcome (Done outcome first before around d.next) grammar.returnSentence d :=
  meets_completed (by simp) (fun _ => rfl) (fun _ => rfl) (fun _ => rfl) hs rfl

theorem meets_printSentence (hs : Stands outcome first ⟨before, around, .printWord⟩ d) :
    Meets outcome (Done outcome first before around d.next) grammar.printSentence d := by
  rw [Grammar.printSentence]
  refine .expect_fixed (u := .operand ⟨.print, []⟩) hs rfl rfl (by decide) (by simp) rfl rfl
    fun d₁ _ hn₁ hs₁ => ?_
  refine meets_followed (m := fun t => .done (.print () t) false) (by simp) (fun _ => rfl)
    (by decide) (fun _ => rfl) (fun _ => rfl) (fun _ => rfl) hs₁
    fun e d₂ _ hnum hs₂ => .draw_last ?_
  refine .drawn (t := .print () e.erase) hs₂ ?_ (State.step_congr rfl) rfl
  rw [Node.number, ← hn₁, hnum]

theorem size_close (k : Construct) (body : List Tree) :
    (k.close body).size = k.size + Node.sizes body + 1 := by
  cases k <;> simp [Construct.close, Construct.size, Node.size, Node.sizes]

/-- The word that ends a block makes a statement of it and its construct. -/
theorem meets_end {k : Construct} {b : List Tree} {node : Nat → Node Nat}
    (hs : Stands outcome first ⟨b.reverse, (k, before) :: around, .fresh⟩ d)
    (hcur : d.current.lexeme = .mark .kEnd)
    (hnumber : (k.close b).number n = (node d.next, d.next + 1)) :
    Meets outcome (Done outcome first before around n) (expect .kEnd >>= fun _ => draw node) d := by
  refine .expect (by decide) hs (u := ⟨before, around, .done (k.close b) false⟩) ?_ ?_
    (fun h => absurd hcur h) fun d₁ _ hn₁ hs₁ => .draw_last ?_
  · simp [State.take?, State.settle, Mode.settle, State.shift?, State.begin?]
  · simp [State.size, Mode.size, builtSize, Construct.sizes, Node.sizes_reverse, size_close]
    omega
  · exact .drawn hs₁ (by rw [hnumber, hn₁]) (State.step_congr rfl) rfl

/-- At the end of the text a finished statement may as well have joined its block. -/
theorem step_done {t : Tree} {u : Token} (hu : u.lexeme = .mark .eof) :
    State.step ⟨before, around, .done t true⟩ u = State.step ⟨t :: before, around, .fresh⟩ u := by
  have hcategory : u.category = .mark .eof := congrArg Lexeme.category hu
  cases around with
  | nil =>
    have hdone : State.step ⟨before, [], .done t true⟩ u = .ok ⟨t :: before, [], .accepted⟩ :=
      State.step_eq_ok.mpr (by rw [hu]; rfl)
    have hfresh : State.step ⟨t :: before, [], .fresh⟩ u = .ok ⟨t :: before, [], .accepted⟩ :=
      State.step_eq_ok.mpr (by rw [hu]; rfl)
    rw [hdone, hfresh]
  | cons kb rest =>
    refine State.step_of_alike ?_ ?_ ?_
    · rw [hu, hcategory]
      rfl
    · rw [hcategory]
      rfl
    · rw [hcategory]
      simp [State.size, State.settle, Mode.settle, Mode.size, builtSize, Node.sizes]
      omega

theorem refuses_done {t : Tree} {l : Lexeme} (hnewline : l ≠ .mark .newline)
    (heof : l ≠ .mark .eof) :
    State.Refuses ⟨before, around, .done t true⟩ l [.mark .newline, .mark .eof] := by
  have hnext : l.category ≠ .mark .eof := fun h => heof (eq_mark_of_category h)
  refine refuses_mode rfl rfl ?_ ?_
  · unfold State.shift?
    split <;> simp_all
  · unfold State.expected
    split <;> simp_all [Mode.expected]

theorem meets_endStatement {t : Node Nat} {k : Nat}
    (ht : Done outcome first before around k t d) :
    Meets outcome (fun _ d' => Stands outcome first ⟨t.erase :: before, around, .fresh⟩ d' ∧
      d'.next = d.next) endStatement d := by
  rw [endStatement]
  refine .takes (by decide) ht.stands (u := ⟨t.erase :: before, around, .fresh⟩) rfl ?_
    (fun d₁ _ hn₁ hs₁ => .pure ⟨hs₁, hn₁⟩) fun hnewline => .current ?_
  · simp [State.size, Mode.size, builtSize, Node.sizes]
    omega
  · split
    · rename_i heof
      refine .pure ⟨ht.stands.congr (step_done heof) ?_, rfl⟩
      simp [State.size, Mode.size, builtSize, Node.sizes]
      omega
    · rename_i heof
      exact .error_of rfl (ht.stands.refused (refuses_done hnewline heof))

section

/-- No statement begins with the token, and it ends neither the block nor the text. -/
theorem refuses_fresh {l : Lexeme} (hl : l.category ∉ Mode.statementStart) (heof : l ≠ .mark .eof)
    (hstop : ∀ k rest around', around = (k, rest) :: around' → l ∉ k.terminators.map Lexeme.mark) :
    State.Refuses ⟨before, around, .fresh⟩ l Mode.statementStart := by
  cases l with
  | ident x => exact absurd List.mem_cons_self hl
  | int n => exact ⟨rfl, rfl, rfl⟩
  | string s => exact ⟨rfl, rfl, rfl⟩
  | mark m =>
    cases m with
    | eof => exact absurd rfl heof
    | newline | kLocal | kFunction | kReturn | kPrint | kWhile | kIf => exact absurd (by decide) hl
    | kEnd =>
      cases around with
      | nil => exact ⟨rfl, rfl, rfl⟩
      | cons kb rest =>
        refine absurd ?_ (hstop kb.1 kb.2 rest rfl)
        cases kb.1 <;> exact List.mem_cons_self
    | kElse =>
      cases around with
      | nil => exact ⟨rfl, rfl, rfl⟩
      | cons kb rest =>
        obtain ⟨k, b⟩ := kb
        cases k with
        | thenPart c =>
          exact absurd (List.mem_cons_of_mem _ List.mem_cons_self) (hstop _ b rest rfl)
        | _ => exact ⟨rfl, rfl, rfl⟩
    | _ => exact ⟨rfl, rfl, rfl⟩

/-- Where a block has been opened, its lines are read as the machine reads them. -/
def Blocks (outcome : Except Error (Node Nat) × Nat) (first : Nat) (d : Desk) : Prop :=
  ∀ k before rest around, Stands outcome first ⟨before, (k, rest) :: around, .fresh⟩ d →
    Meets outcome
      (Lines outcome first before ((k, rest) :: around) (· ∈ k.terminators.map Lexeme.mark) d.next)
      (grammar.block (inFunction ((k, rest) :: around)) k.terminators) d

variable (ih : ∀ d : Desk, d.left < n → Blocks outcome first d)

include ih

/-- From the line end that opens a block to the word that ends it. -/
theorem meets_lineBreak {k : Construct} {inside : Bool} {stops : List Mark} {α : Type}
    {Q : α → Desk → Prop} {f : List (Node Nat) → Part α} (hd : d.left ≤ n)
    (hinside : inFunction ((k, before) :: around) = inside) (hstops : k.terminators = stops)
    (hs : Stands outcome first ⟨before, around, .lineBreak k⟩ d)
    (hf : ∀ ts d', d'.left < d.left →
      Lines outcome first [] ((k, before) :: around) (· ∈ stops.map Lexeme.mark) d.next ts d' →
      Meets outcome Q (f ts) d') :
    Meets outcome Q (expect .newline >>= fun _ => grammar.block inside stops >>= f) d := by
  subst hinside hstops
  refine .expect (by decide) hs (u := ⟨[], (k, before) :: around, .fresh⟩) rfl ?_
    (fun hcur => refuses_mode ?_ rfl ?_ rfl) fun d₁ h₁ hn₁ hs₁ => ?_
  · simp [State.size, Mode.size, Construct.sizes, Node.sizes]
    omega
  · unfold Mode.shift?
    split <;> simp_all
  · unfold State.shift?
    split <;> simp_all
  · refine .bind (stays_block d₁ _ _) (ih d₁ (by omega) k [] before around hs₁)
      fun ts d₂ h₂ hts => ?_
    exact hf ts d₂ (by omega) (hn₁ ▸ hts)

/-- What stands between `then` and the last `end`, an `else` with its block or nothing. -/
theorem meets_elseBlock {c : Tree} {yes : List Tree} (hd : d.left ≤ n)
    (hs : Stands outcome first ⟨yes.reverse, (.thenPart c, before) :: around, .fresh⟩ d)
    (hcur : d.current.lexeme ∈ [Mark.kEnd, .kElse].map Lexeme.mark) :
    Meets outcome (fun no d' => ∃ k body,
      (k : Construct).close body = .branch () c yes (Node.erases no) ∧
      Stands outcome first ⟨body.reverse, (k, before) :: around, .fresh⟩ d' ∧
      Node.numbers d.next (Node.erases no) = (no, d'.next) ∧ d'.current.lexeme = .mark .kEnd)
      (grammar.elseBlock (inFunction around)) d := by
  rw [Grammar.elseBlock]
  refine .takes (by decide) hs (u := ⟨before, around, .lineBreak (.elsePart c yes)⟩) ?_ ?_
    (fun d₁ h₁ hn₁ hs₁ => ?_) fun helse => .pure ⟨.thenPart c, yes, rfl, hs, rfl, ?_⟩
  · simp [State.take?, State.settle, Mode.settle, State.shift?, State.begin?]
  · simp [State.size, Mode.size, Construct.sizes, Construct.size, Node.sizes_reverse]
    omega
  · rw [← bind_pure (grammar.block (inFunction around) [.kEnd])]
    refine meets_lineBreak ih (by omega) rfl rfl hs₁ fun no d₂ _ hno => .pure ?_
    refine ⟨.elsePart c yes, Node.erases no, rfl, ?_, hn₁ ▸ hno.numbers, by simpa using hno.stop⟩
    simpa using hno.stands
  · simpa [helse] using hcur

theorem meets_functionSentence (hd : d.left ≤ n)
    (hs : Stands outcome first ⟨before, around, .functionWord⟩ d) :
    Meets outcome (Done outcome first before around d.next) grammar.functionSentence d := by
  rw [Grammar.functionSentence]
  refine .name_fixed (u := fun x => .functionName x) hs rfl rfl (by simp) (fun _ => rfl)
    (fun _ => rfl) fun f d₁ h₁ hn₁ hs₁ => ?_
  refine .bind (progress_params d₁) (meets_params hs₁) fun ps d₂ h₂ hps => ?_
  obtain ⟨hs₂, hn₂⟩ := hps
  refine meets_lineBreak ih (by omega) (by simp [inFunction, Construct.isFunction]) rfl hs₂
    fun body d₃ _ hbody => ?_
  refine meets_end (k := .function f ps) (b := Node.erases body) (by simpa using hbody.stands)
    (by simpa using hbody.stop) ?_
  rw [Construct.close, Node.number, ← hn₁, ← hn₂, hbody.numbers]

theorem meets_loopSentence (hd : d.left ≤ n)
    (hs : Stands outcome first ⟨before, around, .operand ⟨.loop, []⟩⟩ d) :
    Meets outcome (Done outcome first before around d.next)
      (grammar.loopSentence (inFunction around)) d := by
  rw [Grammar.loopSentence]
  refine meets_followed (m := fun t => .lineBreak (.loop t)) (by simp) (fun _ => rfl) (by decide)
    (fun _ => rfl) (fun _ => rfl) (fun _ => rfl) hs fun c d₁ h₁ hnum hs₁ => ?_
  refine meets_lineBreak ih (by omega) rfl rfl hs₁ fun body d₂ _ hbody => ?_
  refine meets_end (k := .loop c.erase) (b := Node.erases body) (by simpa using hbody.stands)
    (by simpa using hbody.stop) ?_
  simp only [Construct.close, Node.number, hnum, hbody.numbers]

theorem meets_branchSentence (hd : d.left ≤ n)
    (hs : Stands outcome first ⟨before, around, .operand ⟨.branch, []⟩⟩ d) :
    Meets outcome (Done outcome first before around d.next)
      (grammar.branchSentence (inFunction around)) d := by
  rw [Grammar.branchSentence]
  refine meets_followed (m := fun t => .lineBreak (.thenPart t)) (by simp) (fun _ => rfl)
    (by decide) (fun _ => rfl) (fun _ => rfl) (fun _ => rfl) hs fun c d₁ h₁ hnum hs₁ => ?_
  refine meets_lineBreak ih (by omega) rfl rfl hs₁ fun yes d₂ h₂ hyes => ?_
  refine .bind (stays_elseBlock d₂ _)
    (meets_elseBlock ih (by omega) (by simpa using hyes.stands) hyes.stop) fun no d₃ _ hno => ?_
  obtain ⟨k, body, hclose, hs₃, hnumno, hcur₃⟩ := hno
  refine meets_end hs₃ hcur₃ ?_
  simp only [hclose, Node.number, hnum, hyes.numbers, hnumno]

/-- A statement where no block and no text ends. -/
theorem meets_sentence (hd : d.left ≤ n) (hs : Stands outcome first ⟨before, around, .fresh⟩ d)
    (heof : d.current.lexeme ≠ .mark .eof)
    (hstop : ∀ k rest around', around = (k, rest) :: around' →
      d.current.lexeme ∉ k.terminators.map Lexeme.mark) :
    Meets outcome (Done outcome first before around d.next)
      (grammar.sentence (inFunction around)) d := by
  rw [Grammar.sentence]
  refine .current ?_
  split
  · rename_i x hcur
    refine .advance hs hcur Lexeme.noConfusion (u := ⟨before, around, .name x⟩) rfl rfl
      fun d₁ _ hn₁ hs₁ => ?_
    exact hn₁ ▸ meets_nameSentence hs₁
  · rename_i hcur
    refine .advance hs hcur (by decide) (u := ⟨before, around, .localWord⟩) rfl rfl
      fun d₁ _ hn₁ hs₁ => ?_
    exact hn₁ ▸ meets_localSentence hs₁
  · rename_i hcur
    refine .advance hs hcur (by decide) (u := ⟨before, around, .functionWord⟩) rfl rfl
      fun d₁ h₁ hn₁ hs₁ => ?_
    exact hn₁ ▸ meets_functionSentence ih (by omega) hs₁
  · rename_i hcur
    split
    · rename_i hinside
      refine .advance hs hcur (by decide) (u := ⟨before, around, .operand ⟨.ret, []⟩⟩)
        (if_pos hinside) rfl fun d₁ _ hn₁ hs₁ => ?_
      exact hn₁ ▸ meets_returnSentence hs₁
    · rename_i hinside
      refine .error_of rfl (hs.refused ?_)
      rw [hcur]
      exact ⟨if_neg hinside, rfl, rfl⟩
  · rename_i hcur
    refine .advance hs hcur (by decide) (u := ⟨before, around, .printWord⟩) rfl rfl
      fun d₁ _ hn₁ hs₁ => ?_
    exact hn₁ ▸ meets_printSentence hs₁
  · rename_i hcur
    refine .advance hs hcur (by decide) (u := ⟨before, around, .operand ⟨.loop, []⟩⟩) rfl rfl
      fun d₁ h₁ hn₁ hs₁ => ?_
    exact hn₁ ▸ meets_loopSentence ih (by omega) hs₁
  · rename_i hcur
    refine .advance hs hcur (by decide) (u := ⟨before, around, .operand ⟨.branch, []⟩⟩) rfl rfl
      fun d₁ h₁ hn₁ hs₁ => ?_
    exact hn₁ ▸ meets_branchSentence ih (by omega) hs₁
  · rename_i hcur
    have hfresh : State.step ⟨before, around, .fresh⟩ d.current =
        .ok ⟨.skip () :: before, around, .fresh⟩ := State.step_eq_ok.mpr (by rw [hcur]; rfl)
    have hdone : State.step ⟨before, around, .done (.skip ()) true⟩ d.current =
        .ok ⟨.skip () :: before, around, .fresh⟩ := State.step_eq_ok.mpr (by rw [hcur]; rfl)
    exact .draw_last (.drawn (t := .skip ()) hs rfl (hfresh.trans hdone.symm) rfl)
  · rename_i hident hlocal hfunction hreturn hprint hwhile hif hnewline
    refine .error_of rfl (hs.refused (refuses_fresh (fun hmem => ?_) heof hstop))
    simp only [Mode.statementStart, List.mem_cons, List.not_mem_nil, or_false] at hmem
    rcases hmem with h | h | h | h | h | h | h | h
    · obtain ⟨x, hx⟩ := exists_ident h
      exact hident x hx
    · exact hlocal (eq_mark_of_category h)
    · exact hfunction (eq_mark_of_category h)
    · exact hreturn (eq_mark_of_category h)
    · exact hprint (eq_mark_of_category h)
    · exact hwhile (eq_mark_of_category h)
    · exact hif (eq_mark_of_category h)
    · exact hnewline (eq_mark_of_category h)

/-- A statement with its end, where no block and no text ends. -/
theorem meets_statement (hd : d.left ≤ n) (hs : Stands outcome first ⟨before, around, .fresh⟩ d)
    (heof : d.current.lexeme ≠ .mark .eof)
    (hstop : ∀ k rest around', around = (k, rest) :: around' →
      d.current.lexeme ∉ k.terminators.map Lexeme.mark) :
    Meets outcome (fun t d' => Stands outcome first ⟨t.erase :: before, around, .fresh⟩ d' ∧
      t.erase.number d.next = (t, d'.next)) (grammar.statement (inFunction around)) d := by
  rw [Grammar.statement]
  refine .seq (meets_sentence ih hd hs heof hstop) fun t d₁ _ ht => ?_
  refine .seq (meets_endStatement ht) fun _ d₂ _ hend => .pure ⟨hend.1, ?_⟩
  rw [ht.number, hend.2]

theorem meets_nextInBlock {k : Construct} {rest : List Tree} (hd : d.left ≤ n)
    (hs : Stands outcome first ⟨before, (k, rest) :: around, .fresh⟩ d) :
    Meets outcome (fun t d' => match t with
      | some t => Stands outcome first ⟨t.erase :: before, (k, rest) :: around, .fresh⟩ d' ∧
        t.erase.number d.next = (t, d'.next)
      | none => d' = d ∧ d.current.lexeme ∈ k.terminators.map Lexeme.mark)
      (grammar.nextInBlock? (inFunction ((k, rest) :: around)) k.terminators) d := by
  rw [Grammar.nextInBlock?]
  refine .current ?_
  split
  · rename_i hstop
    exact .pure ⟨rfl, hstop⟩
  · rename_i hstop
    split
    · rename_i heof
      refine .error_of rfl (hs.refused ?_)
      rw [heof]
      exact ⟨rfl, rfl, rfl⟩
    · rename_i heof
      refine .seq (meets_statement ih hd hs heof ?_) fun t d₁ _ ht => .pure ht
      intro k' rest' around' heq
      cases heq
      exact hstop

end

theorem blocks (outcome : Except Error (Node Nat) × Nat) (first : Nat) (d : Desk) :
    Blocks outcome first d := by
  induction hk : d.left using Nat.strongRecOn generalizing d with
  | ind j ih =>
    subst hk
    have ih' : ∀ d' : Desk, d'.left < d.left → Blocks outcome first d' :=
      fun d' hlt => ih d'.left hlt d' rfl
    intro k before rest around hs
    rw [Grammar.block]
    refine .bind (turns_nextInBlock d _ _) (meets_nextInBlock ih' (Nat.le_refl _) hs)
      fun a d₁ h₁ ha => ?_
    cases a with
    | none =>
      obtain ⟨rfl, hstop⟩ := ha
      exact .pure ⟨hs, rfl, hstop⟩
    | some t =>
      obtain ⟨hs₁, hnum⟩ := ha
      refine .bind (stays_block d₁ _ _) (ih' d₁ h₁ k _ rest around hs₁) fun ts d₂ _ hts => .pure ?_
      exact hts.cons hnum

theorem meets_nextInProgram {before : List Tree} {d : Desk}
    (hs : Stands outcome first ⟨before, [], .fresh⟩ d) :
    Meets outcome (fun t d' => match t with
      | some t => Stands outcome first ⟨t.erase :: before, [], .fresh⟩ d' ∧
        t.erase.number d.next = (t, d'.next)
      | none => d' = d ∧ d.current.lexeme = .mark .eof) grammar.nextInProgram? d := by
  rw [Grammar.nextInProgram?]
  refine .current ?_
  split
  · rename_i heof
    exact .pure ⟨rfl, heof⟩
  · rename_i heof
    have hstatement := meets_statement (fun d' _ => blocks outcome first d') (Nat.le_refl _) hs heof
      fun _ _ _ h => absurd h.symm (List.cons_ne_nil _ _)
    exact .seq hstatement fun t d₁ _ ht => .pure ht

theorem meets_statements {before : List Tree} {d : Desk}
    (hs : Stands outcome first ⟨before, [], .fresh⟩ d) :
    Meets outcome (Lines outcome first before [] (· = .mark .eof) d.next)
      grammar.nextInProgram?.many d := by
  induction hk : d.left using Nat.strongRecOn generalizing d before with
  | ind j ih =>
    subst hk
    rw [Part.many]
    refine .bind (turns_nextInProgram d) (meets_nextInProgram hs) fun a d₁ h₁ ha => ?_
    cases a with
    | none =>
      obtain ⟨rfl, heof⟩ := ha
      exact .pure ⟨hs, rfl, heof⟩
    | some t =>
      obtain ⟨hs₁, hnum⟩ := ha
      exact .bind (stays_many turns_nextInProgram d₁) (ih d₁.left h₁ hs₁ rfl)
        fun ts d₂ _ hts => .pure (hts.cons hnum)

/-- Where the text ends, the lines read are the program. -/
theorem Lines.comes {ts : List (Node Nat)} {d : Desk}
    (h : Lines outcome first [] [] (· = .mark .eof) first ts d) :
    outcome = (.ok (.block d.next ts), d.next + 1) := by
  have hfeed : d.feed = ⟨[d.current], none⟩ := if_pos h.stop
  have hstep : State.step ⟨(Node.erases ts).reverse ++ [], [], .fresh⟩ d.current =
      .ok ⟨(Node.erases ts).reverse ++ [], [], .accepted⟩ :=
    State.step_eq_ok.mpr (by rw [h.stop]; rfl)
  rw [← h.stands.comes, hfeed, State.finish, State.run, hstep]
  simp only [State.run, State.program, List.append_nil, List.reverse_reverse, numbered, Node.number,
    h.numbers]

theorem meets_program {d : Desk} (hs : Stands outcome first State.start d) :
    Meets outcome (fun t d' => outcome = (.ok t, d'.next)) grammar.program d := by
  have hnext : d.next = first := hs.next
  rw [Grammar.program]
  refine .seq (meets_statements hs) fun ts d₁ _ hts => .draw_last ?_
  exact (hnext ▸ hts).comes

end

/-- Reading by descent gives what the machine gives, numbers included. -/
theorem parse_agrees {source : String} {first : Nat} {p : Report}
    (h : grammar.parse source first = some p) :
    (p.outcome, p.next) = Source.parse source first := by
  rw [← numbered_readProgram, Source.feed]
  rw [Grammar.parse] at h
  split at h
  · rename_i hnext
    cases h
    rw [Cursor.feed_of_error hnext]
    rfl
  · rename_i t c hnext
    have hfeed : Desk.feed ⟨c, t, [.ok t], first⟩ = (Cursor.ofString (Comment.strip source)).feed :=
      Desk.feed_of_next hnext
    have hprogram := meets_program (d := ⟨c, t, [.ok t], first⟩) ⟨rfl, rfl⟩
    rw [← hfeed]
    rcases hrun : grammar.program ⟨c, t, [.ok t], first⟩ with _ | ⟨e | root, d⟩
    · rw [hrun] at h
      cases h
    · rw [hrun] at h
      cases h
      exact (hprogram.error e d hrun).symm
    · rw [hrun] at h
      cases h
      exact (hprogram.ok root d hrun).symm

/-- Reading a text always ends. It calls for a token at most once for each character that is no
comment and once more, and never again once it has the end of the text or a call has failed; it
uses up at most as many numbers as it has got tokens; and every turn of a loop that succeeds takes
a token. -/
theorem reading_ends (source : String) (first : Nat) :
    (∃ p, grammar.parse source first = some p ∧
      (p.outcome, p.next) = Source.parse source first ∧
      p.calls.length ≤ (Comment.strip source).length + 1 ∧
      Going p.calls.tail ∧
      p.next ≤ first + fetched p.calls) ∧
    Advances grammar.nextInProgram? ∧
    (∀ inFunction stops, Advances (grammar.nextInBlock? inFunction stops)) ∧
    (∀ level left, Advances (grammar.nextOperation? level left)) ∧
    Advances grammar.nextArgument? ∧
    Advances nextParam? := by
  obtain ⟨p, hparse, hcalls, hgoing, hdrawn⟩ := report_of_parse grammar source first
  refine ⟨⟨p, hparse, parse_agrees hparse, hcalls, hgoing, hdrawn⟩, ?_⟩
  exact ⟨.of_turns turns_nextInProgram,
    fun inFunction stops => .of_turns fun d => turns_nextInBlock d inFunction stops,
    fun level left => .of_turns fun d => turns_nextOperation d level left,
    .of_turns turns_nextArgument,
    .of_turns turns_nextParam⟩

end Descent
end Onepass
