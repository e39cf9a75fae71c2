import Onepass.Proofs.Ids

/-!
# Onepass.Proofs.Grammar

The shape of programs that were read. Expressions hold expressions only, statements stand in
blocks only, and `return` stands in functions only. The reader keeps this of all that it holds, at
each token.

* `step_proper`         -- one token.
* `statements_of_parse` -- a program is a block of statements of the top level.
-/

namespace Onepass
namespace Node

variable {ι : Type}

mutual

/-- The tree may stand where a value is needed. -/
def isExpression : Node ι → Bool
  | .var _ _ | .int _ _ | .str _ _ | .read _ => true
  | .unary _ _ e => e.isExpression
  | .binary _ _ l r => l.isExpression && r.isExpression
  | .call _ _ as => areExpressions as
  | _ => false

def areExpressions : List (Node ι) → Bool
  | [] => true
  | n :: rest => n.isExpression && areExpressions rest

end

mutual

/-- The tree may stand in a block, of a function or of the top level. -/
def isStatement (inFunction : Bool) : Node ι → Bool
  | .skip _ | .declare _ _ | .var _ _ | .int _ _ | .str _ _ | .read _ => true
  | .unary _ _ e | .assign _ _ e | .define _ _ e | .print _ e => e.isExpression
  | .binary _ _ l r => l.isExpression && r.isExpression
  | .call _ _ as => areExpressions as
  | .ret _ e => inFunction && e.isExpression
  | .branch _ c ys ns =>
    c.isExpression && areStatements inFunction ys && areStatements inFunction ns
  | .loop _ c body => c.isExpression && areStatements inFunction body
  | .function _ _ _ body => areStatements true body
  | .block _ _ => false

def areStatements (inFunction : Bool) : List (Node ι) → Bool
  | [] => true
  | n :: rest => n.isStatement inFunction && areStatements inFunction rest

end

theorem isStatement_of_isExpression {b : Bool} {n : Node ι} (h : n.isExpression = true) :
    n.isStatement b = true := by
  cases n <;> first | exact h | cases h

theorem areExpressions_iff {ns : List (Node ι)} :
    areExpressions ns = true ↔ ∀ n ∈ ns, n.isExpression = true := by
  induction ns with
  | nil => simp [areExpressions]
  | cons n ns ih => simp [areExpressions, ih]

theorem areStatements_iff {b : Bool} {ns : List (Node ι)} :
    areStatements b ns = true ↔ ∀ n ∈ ns, n.isStatement b = true := by
  induction ns with
  | nil => simp [areStatements]
  | cons n ns ih => simp [areStatements, ih]

mutual

theorem isExpression_erase : ∀ n : Node ι, n.erase.isExpression = n.isExpression
  | .var _ _ | .int _ _ | .str _ _ | .read _ | .declare _ _ | .skip _ | .assign _ _ _
  | .define _ _ _ | .print _ _ | .ret _ _ | .branch _ _ _ _ | .loop _ _ _ | .function _ _ _ _
  | .block _ _ => rfl
  | .unary _ _ e => isExpression_erase e
  | .binary _ _ l r => by
    simp only [erase, isExpression, isExpression_erase l, isExpression_erase r]
  | .call _ _ as => areExpressions_erases as

theorem areExpressions_erases : ∀ ns : List (Node ι), areExpressions (erases ns) = areExpressions ns
  | [] => rfl
  | n :: ns => by
    simp only [erases, areExpressions, isExpression_erase n, areExpressions_erases ns]

end

mutual

theorem isStatement_erase (b : Bool) : ∀ n : Node ι, n.erase.isStatement b = n.isStatement b
  | .var _ _ | .int _ _ | .str _ _ | .read _ | .declare _ _ | .skip _ | .block _ _ => rfl
  | .unary _ _ e | .assign _ _ e | .define _ _ e | .print _ e => isExpression_erase e
  | .ret _ e => by simp only [erase, isStatement, isExpression_erase e]
  | .binary _ _ l r => by
    simp only [erase, isStatement, isExpression_erase l, isExpression_erase r]
  | .call _ _ as => areExpressions_erases as
  | .branch _ c ys ns => by
    simp only [erase, isStatement, isExpression_erase c, areStatements_erases b ys,
      areStatements_erases b ns]
  | .loop _ c body => by
    simp only [erase, isStatement, isExpression_erase c, areStatements_erases b body]
  | .function _ _ _ body => areStatements_erases true body

theorem areStatements_erases (b : Bool) : ∀ ns : List (Node ι),
    areStatements b (erases ns) = areStatements b ns
  | [] => rfl
  | n :: ns => by
    simp only [erases, areStatements, isStatement_erase b n, areStatements_erases b ns]

end

end Node

namespace Reader

open Node

/-- Does one of the constructs make what it holds a part of a function? -/
def inFunction (around : List (Construct × List Tree)) : Bool := around.any fun (k, _) => k.isFunction

namespace Pending

def Proper : Pending → Prop
  | .unary _ | .group => True
  | .binary _ left => left.isExpression = true
  | .argument _ done => ∀ t ∈ done, t.isExpression = true

end Pending

/-- A context in a function or at the top level. -/
structure Context.Proper (b : Bool) (ctx : Context) : Prop where
  purpose : ctx.purpose = .ret → b = true
  stack : ∀ p ∈ ctx.stack, p.Proper

def Construct.Proper (b : Bool) : Construct → Prop
  | .function _ _ => True
  | .loop cond | .thenPart cond => cond.isExpression = true
  | .elsePart cond yes => cond.isExpression = true ∧ ∀ t ∈ yes, t.isStatement b = true

def Mode.Proper (b : Bool) : Mode → Prop
  | .operand ctx | .operandName ctx _ | .argsOpen ctx _ | .readWord ctx | .readOpen ctx =>
    ctx.Proper b
  | .behind ctx t _ => ctx.Proper b ∧ t.isExpression = true
  | .lineBreak k => k.Proper b
  | .done t _ => t.isStatement b = true
  | _ => True

/-- Each construct and the statements before it are proper where they stand. -/
def Surrounded : List (Construct × List Tree) → Prop
  | [] => True
  | (k, before) :: around =>
    k.Proper (inFunction around) ∧ (∀ t ∈ before, t.isStatement (inFunction around) = true) ∧
      Surrounded around

structure State.Proper (s : State) : Prop where
  before : ∀ t ∈ s.before, t.isStatement s.inFunction = true
  around : Surrounded s.around
  mode : s.mode.Proper s.inFunction

theorem Pending.Proper.cons {f : String} {done : List Tree} {t : Tree}
    (h : (Pending.argument f done).Proper) (ht : t.isExpression = true) :
    ∀ n ∈ t :: done, n.isExpression = true :=
  List.forall_mem_cons.mpr ⟨ht, h⟩

theorem Context.Proper.start {b : Bool} {purpose : Purpose} (h : purpose = .ret → b = true) :
    Context.Proper b ⟨purpose, []⟩ :=
  ⟨h, fun _ hp => nomatch hp⟩

theorem Context.Proper.push {b : Bool} {ctx : Context} (h : ctx.Proper b) {p : Pending}
    (hp : p.Proper) : (ctx.push p).Proper b :=
  ⟨h.purpose, List.forall_mem_cons.mpr ⟨hp, h.stack⟩⟩

theorem reduce_proper (level : Nat) {stack : List Pending} {t : Tree}
    (hs : ∀ p ∈ stack, p.Proper) (ht : t.isExpression = true) :
    (∀ p ∈ (reduce level stack t).1, p.Proper) ∧ (reduce level stack t).2.isExpression = true := by
  induction stack generalizing t with
  | nil => exact ⟨hs, ht⟩
  | cons p rest ih =>
    obtain ⟨hp, hrest⟩ := List.forall_mem_cons.mp hs
    cases p with
    | unary op => exact ih hrest ht
    | binary op l =>
      rw [reduce]
      split
      · exact ih hrest (by rw [isExpression, hp, ht]; rfl)
      · exact ⟨hs, ht⟩
    | group | argument => exact ⟨hs, ht⟩

theorem complete?_proper {b : Bool} {purpose : Purpose} {t statement : Tree}
    (hp : purpose = .ret → b = true) (ht : t.isExpression = true)
    (h : purpose.complete? t = some statement) : statement.isStatement b = true := by
  cases purpose with
  | assign | define =>
    cases h
    exact ht
  | ret =>
    cases h
    rw [isStatement, hp rfl, ht]
    rfl
  | call =>
    cases h
    exact isStatement_of_isExpression ht
  | print | loop | branch => cases h

theorem settleOperand_proper {b : Bool} {ctx : Context} {t : Tree} {next : Category}
    (hc : ctx.Proper b) (ht : t.isExpression = true) : (settleOperand ctx t next).Proper b := by
  rw [settleOperand]
  split
  · exact isStatement_of_isExpression ht
  · rename_i purpose stack hcall
    obtain ⟨hs, ht'⟩ := reduce_proper (followLevel next) hc.stack ht
    dsimp only
    split
    · rename_i hcomplete
      exact complete?_proper hc.purpose ht' hcomplete
    · exact ⟨⟨hc.purpose, hs⟩, ht'⟩

theorem settle_proper {b : Bool} {m : Mode} {next : Category} (h : m.Proper b) :
    (m.settle next).Proper b := by
  cases m with
  | behind => exact settleOperand_proper h.1 h.2
  | operandName ctx x =>
    rw [Mode.settle]
    split
    · exact h
    · exact settleOperand_proper h rfl
  | localName x =>
    rw [Mode.settle]
    split
    · exact h
    · rfl
  | _ => exact h

theorem beginOperand?_proper {b : Bool} {ctx : Context} {l : Lexeme} {m : Mode}
    (hc : ctx.Proper b) (h : Mode.beginOperand? ctx l = some m) : m.Proper b := by
  unfold Mode.beginOperand? at h
  split at h
  · cases h
    exact hc
  · cases h
    exact ⟨hc, rfl⟩
  · cases h
    exact ⟨hc, rfl⟩
  · cases h
    exact hc.push trivial
  · cases h
    exact hc
  · obtain ⟨op, -, rfl⟩ := Option.map_eq_some_iff.mp h
    exact hc.push trivial

theorem continueOperand?_proper {b : Bool} {ctx : Context} {t : Tree} {l : Lexeme} {m : Mode}
    (hc : ctx.Proper b) (ht : t.isExpression = true)
    (h : Mode.continueOperand? ctx t l = some m) : m.Proper b := by
  have hstack := hc.stack
  unfold Mode.continueOperand? at h
  split at h
  · cases h
    exact hc.push ht
  split at h
  · rename_i hgroup _
    rw [hgroup] at hstack
    cases h
    exact ⟨⟨hc.purpose, (List.forall_mem_cons.mp hstack).2⟩, ht⟩
  · rename_i hargs _
    rw [hargs] at hstack
    obtain ⟨hdone, hrest⟩ := List.forall_mem_cons.mp hstack
    cases h
    exact ⟨hc.purpose, List.forall_mem_cons.mpr ⟨hdone.cons ht, hrest⟩⟩
  · rename_i hargs _
    rw [hargs] at hstack
    obtain ⟨hdone, hrest⟩ := List.forall_mem_cons.mp hstack
    cases h
    refine ⟨⟨hc.purpose, hrest⟩, areExpressions_iff.mpr fun n hn => ?_⟩
    exact hdone.cons ht n (List.mem_reverse.mp hn)
  · cases h
    exact ht
  · cases h
    exact ht
  · cases h
    exact ht
  · cases h

theorem mode_shift?_proper {b : Bool} {m m' : Mode} {l : Lexeme} (hm : m.Proper b)
    (h : m.shift? l = some m') : m'.Proper b := by
  unfold Mode.shift? at h
  split at h
  -- A statement has an expression of its own, outside all others.
  case h_1 | h_2 | h_4 | h_12 =>
    cases h
    exact .start nofun
  case h_13 => exact beginOperand?_proper hm h
  case h_14 =>
    cases h
    exact hm
  case h_15 =>
    cases h
    exact ⟨hm, rfl⟩
  case h_16 =>
    refine beginOperand?_proper (hm.push (p := .argument _ []) ?_) h
    exact fun _ hn => nomatch hn
  case h_17 =>
    cases h
    exact hm
  case h_18 =>
    cases h
    exact ⟨hm, rfl⟩
  case h_19 => exact continueOperand?_proper hm.1 hm.2 h
  case h_20 => cases h
  -- What is left has no expression.
  all_goals
    cases h
    trivial

/-- The statement that a construct and its block make. -/
theorem close_proper {b : Bool} {k : Construct} {body : List Tree} (hk : k.Proper b)
    (hbody : ∀ t ∈ body, t.isStatement (k.isFunction || b) = true) :
    (k.close body).isStatement b = true := by
  have hall := areStatements_iff.mpr hbody
  cases k with
  | function => exact hall
  | loop cond =>
    simp only [Construct.close, isStatement, Bool.and_eq_true]
    exact ⟨hk, hall⟩
  | thenPart cond =>
    simp only [Construct.close, isStatement, areStatements, Bool.and_eq_true, Bool.and_true]
    exact ⟨hk, hall⟩
  | elsePart cond yes =>
    simp only [Construct.close, isStatement, Bool.and_eq_true]
    exact ⟨⟨hk.1, areStatements_iff.mpr hk.2⟩, hall⟩

namespace State

theorem Proper.withMode {s : State} (hs : s.Proper) {m : Mode} (hm : m.Proper s.inFunction) :
    (s.withMode m).Proper :=
  ⟨hs.before, hs.around, hm⟩

theorem Proper.append {s : State} (hs : s.Proper) {t : Tree} {m : Mode}
    (ht : t.isStatement s.inFunction = true) (hm : m.Proper s.inFunction) :
    (s.append t m).Proper :=
  ⟨List.forall_mem_cons.mpr ⟨ht, hs.before⟩, hs.around, hm⟩

theorem begin?_proper {s s' : State} {l : Lexeme} (hs : s.Proper) (h : s.begin? l = some s') :
    s'.Proper := by
  have haround := hs.around
  have hbefore : ∀ t ∈ s.before, t.isStatement (Reader.inFunction s.around) = true := hs.before
  unfold begin? at h
  split at h
  case h_2 =>
    cases h
    exact hs.append rfl trivial
  case h_6 | h_7 =>
    cases h
    exact hs.withMode (.start nofun)
  case h_8 =>
    split at h
    · rename_i hin
      cases h
      exact hs.withMode (.start fun _ => hin)
    · cases h
  case h_9 =>
    split at h
    · rename_i hk
      rw [hk] at haround hbefore
      cases h
      refine ⟨haround.2.1, haround.2.2, haround.1, fun t ht => ?_⟩
      exact hbefore t (List.mem_reverse.mp ht)
    · cases h
  case h_10 =>
    split at h
    · rename_i hk
      rw [hk] at haround hbefore
      cases h
      refine ⟨haround.2.1, haround.2.2, close_proper haround.1 fun t ht => ?_⟩
      exact hbefore t (List.mem_reverse.mp ht)
    · cases h
  case h_11 =>
    split at h
    · cases h
      exact hs.withMode trivial
    · cases h
  case h_12 => cases h
  all_goals
    cases h
    exact hs.withMode trivial

theorem shift?_proper {s s' : State} {l : Lexeme} (hs : s.Proper) (h : s.shift? l = some s') :
    s'.Proper := by
  have hmode := hs.mode
  unfold shift? at h
  split at h
  · exact begin?_proper hs h
  · rename_i hm
    rw [hm] at hmode
    cases h
    exact hs.append hmode trivial
  · rename_i hm
    rw [hm] at hmode
    split at h
    · cases h
      exact hs.append hmode trivial
    · cases h
  · rename_i hm
    rw [hm] at hmode
    cases h
    refine ⟨?_, ⟨hmode, hs.before, hs.around⟩, trivial⟩
    exact fun _ ht => nomatch ht
  · obtain ⟨m, hm, rfl⟩ := Option.map_eq_some_iff.mp h
    exact hs.withMode (mode_shift?_proper hmode hm)

theorem step_proper {s s' : State} {t : Token} (hs : s.Proper) (h : s.step t = .ok s') :
    s'.Proper := by
  unfold step at h
  have hsettled : (s.settle t.category).Proper :=
    ⟨hs.before, hs.around, settle_proper hs.mode⟩
  dsimp only at h
  split at h
  · rename_i hshift
    cases h
    exact shift?_proper hsettled hshift
  · cases h

theorem run_proper {s s' : State} {ts : List Token} (hs : s.Proper) (h : s.run ts = .ok s') :
    s'.Proper := by
  induction ts generalizing s with
  | nil =>
    cases h
    exact hs
  | cons t ts ih =>
    rw [run] at h
    split at h
    · rename_i hstep
      exact ih (step_proper hs hstep) h
    · cases h

theorem start_proper : State.start.Proper := ⟨by simp [start], trivial, trivial⟩

theorem mode_shift?_eof (m : Mode) : m.shift? (.mark .eof) = none := by
  cases m with
  | behind ctx t built =>
    obtain ⟨purpose, stack⟩ := ctx
    cases stack with
    | nil => cases purpose <;> rfl
    | cons p rest => cases p <;> rfl
  | _ => rfl

/-- The text ends outside all constructs. -/
theorem around_of_eof {s s' : State} {t : Token} (ht : t.lexeme = .mark .eof)
    (h : s.step t = .ok s') : s'.around = [] := by
  unfold step at h
  dsimp only at h
  split at h
  · rename_i hshift
    cases h
    rw [ht] at hshift
    unfold shift? at hshift
    split at hshift
    · rw [begin?] at hshift
      split at hshift
      · cases hshift
        exact List.isEmpty_iff.mp ‹_›
      · cases hshift
    · rename_i hne
      cases hne
    · split at hshift
      · cases hshift
        exact List.isEmpty_iff.mp ‹_›
      · cases hshift
    · rename_i hne
      cases hne
    · rw [mode_shift?_eof] at hshift
      cases hshift
  · cases h

end State
end Reader

/-- The tokens of a text that has no wrong ones end where the text ends. -/
theorem tokens_of_feed (c : Cursor) (h : c.feed.failure = none) :
    ∃ ts t, c.feed.tokens = ts ++ [t] ∧ t.lexeme = .mark .eof := by
  fun_induction Cursor.feed c with
  | case1 => cases h
  | case2 c t c' hc ht => exact ⟨[], t, rfl, ht⟩
  | case3 c t c' hc ht hlt more ih =>
    obtain ⟨ts, t', hts, ht'⟩ := ih h
    exact ⟨t :: ts, t', by rw [hts]; rfl, ht'⟩

open Reader in
theorem isStatement_of_readProgram {c : Cursor} {tree : Tree}
    (h : readProgram c.feed = .ok tree) :
    ∃ body, tree = .block () body ∧ ∀ t ∈ body, t.isStatement false = true := by
  unfold readProgram at h
  split at h
  · cases h
  · cases h
  · rename_i s hrun hnone
    cases h
    obtain ⟨ts, t, hts, ht⟩ := tokens_of_feed c hnone
    rw [hts, State.run_append] at hrun
    cases hs : State.start.run ts with
    | error stop =>
      rw [hs] at hrun
      cases hrun
    | ok s₁ =>
      rw [hs] at hrun
      change s₁.run [t] = .ok s at hrun
      rw [State.run] at hrun
      split at hrun
      · rename_i hstep
        cases hrun
        have hproper := State.step_proper (State.run_proper State.start_proper hs) hstep
        have htop : s.inFunction = false := by
          rw [State.inFunction, State.around_of_eof ht hstep]
          rfl
        refine ⟨_, rfl, fun n hn => ?_⟩
        rw [← htop]
        exact hproper.before n (List.mem_reverse.mp hn)
      · cases hrun

/-- A program is a block of statements of the top level. -/
theorem statements_of_parse {source : String} {n : Nat} {root : Node Nat}
    (h : (Source.parse source n).1 = .ok root) :
    ∃ i body, root = .block i body ∧ Node.areStatements false body = true := by
  obtain ⟨tree, htree, rfl⟩ := Source.parse_eq_ok h
  obtain ⟨body, rfl, hbody⟩ := isStatement_of_readProgram htree
  refine ⟨_, _, rfl, ?_⟩
  rw [← Node.areStatements_erases, Node.erases_numbers]
  exact Node.areStatements_iff.mpr hbody

end Onepass
