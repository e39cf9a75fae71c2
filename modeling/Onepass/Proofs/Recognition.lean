import Onepass.Proofs.Grammar
import Onepass.Proofs.Reading

/-!
# Onepass.Proofs.Recognition

The reader takes whatever the grammar derives, and makes the tree of the derivation.

Behind an expression the reader does not know yet how far it goes: that is for the next token to
say. So what is kept of a phrase is which mode the reader settles in before each token that may
follow: `Mode.Offers` for operands and operations, `Mode.Ends` for statements.

* `recognized_of_derives` -- every phrase, by induction on its derivation.
* `reaches_of_derives` -- a program is accepted.
-/

namespace Onepass
namespace Reader

namespace Mode

/-- Before every token that holds back the operators of the level, and so may follow such an
operation, the mode settles as behind the operand `t`. -/
def Offers (m : Mode) (ctx : Context) (t : Tree) (level : Nat) : Prop :=
  ∀ next, next ≠ .mark .openParen → followLevel next ≤ level → m.settle next = settleOperand ctx t next

/-- The mode settles as behind the statement `t` where a line or the text ends. -/
structure Ends (m : Mode) (t : Tree) : Prop where
  newline : m.settle (.mark .newline) = .done t true
  eof : m.settle (.mark .eof) = .done t true

theorem offers_behind (ctx : Context) (t : Tree) (built : Bool) (level : Nat) :
    (Mode.behind ctx t built).Offers ctx t level := fun _ _ _ => rfl

theorem offers_operandName (ctx : Context) (x : String) (level : Nat) :
    (Mode.operandName ctx x).Offers ctx (.var () x) level := by
  intro next hnext _
  rw [settle, if_neg hnext]

theorem Offers.mono {m : Mode} {ctx : Context} {t : Tree} {j k : Nat} (h : m.Offers ctx t k)
    (hjk : j ≤ k) : m.Offers ctx t j :=
  fun next hnext hlevel => h next hnext (Nat.le_trans hlevel hjk)

/-- No token follows above level 5. -/
theorem Offers.any {m : Mode} {ctx : Context} {t : Tree} (h : m.Offers ctx t 5) (k : Nat) :
    m.Offers ctx t k :=
  fun next hnext _ => h next hnext (followLevel_le next)

end Mode

theorem settleOperand_unary {ctx : Context} (h : ctx.Open) (op : UnaryOp) (t : Tree)
    (next : Category) :
    settleOperand (ctx.push (.unary op)) t next = settleOperand ctx (.unary () op t) next := by
  rw [settleOperand_of_open h, settleOperand_of_open (ctx.open_push _)]
  rfl

theorem settleOperand_binary {ctx : Context} (h : ctx.Open) {op : BinaryOp} {next : Category}
    (hlevel : followLevel next ≤ op.level) (l t : Tree) :
    settleOperand (ctx.push (.binary op l)) t next =
      settleOperand ctx (.binary () op l t) next := by
  rw [settleOperand_of_open h, settleOperand_of_open (ctx.open_push _)]
  simp only [Context.push, reduce, if_pos hlevel]

/-- Where nothing on the stack gives way and the expression goes on, the operand stays. -/
theorem settleOperand_of_stable {ctx : Context} {t : Tree} {next : Category} (h : ctx.Open)
    (hstable : Stable (followLevel next) ctx.stack)
    (hmore : ctx.stack = [] → binaryOp? next = none → ctx.purpose.complete? t = none) :
    settleOperand ctx t next = .behind ctx t true := by
  rw [settleOperand_of_open h, reduce_of_stable hstable]
  dsimp only
  split
  · rename_i hstack hop hcomplete
    rw [hmore hstack hop] at hcomplete
    cases hcomplete
  · rfl

theorem ends_of_offers {m : Mode} {purpose : Purpose} {t statement : Tree}
    (hm : m.Offers ⟨purpose, []⟩ t 1) (hcall : purpose ≠ .call)
    (hcomplete : purpose.complete? t = some statement) : m.Ends statement := by
  have hopen : Context.Open ⟨purpose, []⟩ := .of_ne hcall
  constructor
  · rw [hm _ (by decide) (by decide), settleOperand_of_open hopen]
    dsimp only [reduce]
    rw [hcomplete]
    rfl
  · rw [hm _ (by decide) (by decide), settleOperand_of_open hopen]
    dsimp only [reduce]
    rw [hcomplete]
    rfl

namespace Mode

/-- An operator behind an operation of its level waits for another operand. -/
theorem Offers.operator {m : Mode} {ctx : Context} {op : BinaryOp} {t : Tree}
    (hm : m.Offers ctx t op.level) (hopen : ctx.Open) (hstable : Stable op.level ctx.stack) :
    m.Leads [.mark op.mark] (.operand (ctx.push (.binary op t))) := by
  have hnext : Category.mark op.mark ≠ .mark .openParen := by
    rcases op with op | op | _
    · cases op <;> decide
    · cases op <;> decide
    · decide
  have hlevel := followLevel_mark op
  refine .settled ((hm _ hnext hlevel.le).trans (settleOperand_of_stable hopen ?_ ?_)) ?_
  · exact hlevel ▸ hstable
  · intro _ hnone
    rw [binaryOp?_mark] at hnone
    cases hnone
  · simp only [shift?, continueOperand?, Lexeme.category, binaryOp?_mark]

/-- A token that is no operator and goes on with what is around the operand. -/
theorem Offers.close {m m' : Mode} {ctx : Context} {t : Tree} {level : Nat} {k : Mark}
    (hm : m.Offers ctx t level) (hopen : ctx.Open) (hk : k ≠ .openParen)
    (hop : binaryOp? (.mark k) = none) (hstable : Stable 0 ctx.stack)
    (hmore : ctx.stack = [] → ctx.purpose.complete? t = none)
    (h : continueOperand? ctx t (.mark k) = some m') : m.Leads [.mark k] m' := by
  have hlevel : followLevel (.mark k) = 0 := by rw [followLevel, hop]; rfl
  refine .settled ((hm _ (fun h => hk (Category.mark.inj h)) ?_).trans
    (settleOperand_of_stable hopen ?_ fun hstack _ => hmore hstack)) h
  · exact hlevel.le.trans (Nat.zero_le level)
  · exact hlevel ▸ hstable

/-- What waits in front of the operand takes the token. -/
theorem Offers.close_push {m m' : Mode} {ctx : Context} {x : Pending} {t : Tree} {level : Nat}
    {k : Mark} (hm : m.Offers (ctx.push x) t level) (hk : k ≠ .openParen)
    (hop : binaryOp? (.mark k) = none) (hstable : Stable 0 (ctx.push x).stack)
    (h : continueOperand? (ctx.push x) t (.mark k) = some m') : m.Leads [.mark k] m' :=
  hm.close (ctx.open_push x) hk hop hstable (fun h => absurd h (List.cons_ne_nil _ _)) h

/-- Behind the parenthesis that opens arguments, an expression begins as behind a comma. -/
theorem leads_argsOpen {ctx : Context} {f : String} {l : Lexeme} {ls : List Lexeme} {m : Mode}
    (h : (Mode.operand (ctx.push (.argument f []))).Leads (l :: ls) m) :
    (Mode.argsOpen ctx f).Leads (l :: ls) m := by
  intro before around
  cases h before around with
  | cons hs hrest =>
    refine .cons ?_ hrest
    rw [← hs]
    cases l with
    | mark k =>
      cases k with
      | closeParen => cases hs
      | _ => rfl
    | _ => rfl

theorem leads_param (f : String) (ps qs : List String) :
    (Mode.param f qs).Leads (ps.flatMap fun y => [.mark .comma, .ident y])
      (.param f (ps.reverse ++ qs)) := by
  induction ps generalizing qs with
  | nil => exact .refl
  | cons p ps ih =>
    rw [List.flatMap_cons, List.reverse_cons, List.append_assoc]
    exact .trans (.cons (.single rfl rfl) (.single rfl rfl)) (ih (p :: qs))

/-- The front of a function behind its first word. -/
theorem leads_function (f : String) (ps : List String) :
    Mode.functionWord.Leads
      (.ident f :: .mark .openParen :: (Lexeme.names ps ++ [.mark .closeParen]))
      (.lineBreak (.function f ps)) := by
  have hname : Mode.functionWord.Leads [.ident f] (.functionName f) := .single rfl rfl
  have hopen : (Mode.functionName f).Leads [.mark .openParen] (.paramsOpen f) := .single rfl rfl
  refine hname.cons (hopen.cons ?_)
  cases ps with
  | nil => exact .single rfl rfl
  | cons p ps =>
    have hfirst : (Mode.paramsOpen f).Leads [.ident p] (.param f [p]) := .single rfl rfl
    have hclose : (Mode.param f (ps.reverse ++ [p])).Leads [.mark .closeParen]
        (.lineBreak (.function f (p :: ps))) := .single rfl (by simp [shift?])
    exact hfirst.cons ((leads_param f ps [p]).trans hclose)

end Mode

/-- What the reader makes of the lexemes of a phrase, wherever the phrase may stand. -/
def Recognized : Phrase → List Lexeme → Prop
  | .operand t, ls => ∀ ctx : Context, ctx.Open →
    ∃ m, (Mode.operand ctx).Leads ls m ∧ m.Offers ctx t 5
  | .operation k t, ls => ∀ ctx : Context, ctx.Open → Stable k ctx.stack →
    ∃ m, (Mode.operand ctx).Leads ls m ∧ m.Offers ctx t k
  | .list ts, ls => ∀ ctx f, ∃ done t m, ts = (t :: done).reverse ∧
    (Mode.argsOpen ctx f).Leads ls m ∧ m.Offers (ctx.push (.argument f done)) t 1
  | .arguments ts, ls => ∃ rest, ls = .mark .openParen :: rest ∧
    ∀ ctx f, (Mode.argsOpen ctx f).Leads rest (.behind ctx (.call () f ts) false)
  | .statement b t, ls => ∀ before around, (b = true → inFunction around = true) →
    ∃ m, Reaches ⟨before, around, .fresh⟩ ls ⟨before, around, m⟩ ∧ m.Ends t
  | .lines b ts, ls => ∀ before around, (b = true → inFunction around = true) →
    Reaches ⟨before, around, .fresh⟩ ls ⟨ts.reverse ++ before, around, .fresh⟩
  | .program t, ls => ∃ s, Reaches .start ls s ∧ s.mode = .accepted ∧ s.program = t

/-- A line end opens the block of a construct, and its lines follow. -/
theorem reaches_block {b : Bool} {k : Construct} {ts : List Tree} {ls : List Lexeme}
    (h : Recognized (.lines b ts) ls) (before : List Tree)
    (around : List (Construct × List Tree))
    (hin : b = true → inFunction ((k, before) :: around) = true) :
    Reaches ⟨before, around, .lineBreak k⟩ (.mark .newline :: ls)
      ⟨ts.reverse, (k, before) :: around, .fresh⟩ := by
  have hopen : State.take? ⟨before, around, .lineBreak k⟩ (.mark .newline) =
      some ⟨[], (k, before) :: around, .fresh⟩ := rfl
  have hlines := h [] ((k, before) :: around) hin
  rw [List.append_nil] at hlines
  exact .cons hopen hlines

/-- The block of a construct up to its `end`. -/
theorem reaches_end {b : Bool} {k : Construct} {ts : List Tree} {ls : List Lexeme}
    (h : Recognized (.lines b ts) ls) (before : List Tree)
    (around : List (Construct × List Tree))
    (hin : b = true → inFunction ((k, before) :: around) = true) :
    Reaches ⟨before, around, .lineBreak k⟩ (.mark .newline :: (ls ++ [.mark .kEnd]))
      ⟨before, around, .done (k.close ts) false⟩ := by
  refine (reaches_block h before around hin).snoc ?_
  simp [State.take?, State.settle, Mode.settle, State.shift?, State.begin?]

theorem ends_done (t : Tree) (built : Bool) : (Mode.done t built).Ends t := ⟨rfl, rfl⟩

/-- The first lexeme of a statement, and what follows it. -/
theorem reaches_statement {l : Lexeme} {m m' : Mode} {ls : List Lexeme}
    (hl : ∀ s : State, s.begin? l = some (s.withMode m)) (h : m.Leads ls m') (before : List Tree)
    (around : List (Construct × List Tree)) :
    Reaches ⟨before, around, .fresh⟩ (l :: ls) ⟨before, around, m'⟩ :=
  .cons (hl ⟨before, around, .fresh⟩) (h before around)

/-- The expression of a statement. -/
theorem leads_expression {t : Tree} {ls : List Lexeme} (h : Recognized (.expression t) ls)
    {p : Purpose} (hcall : p ≠ .call) :
    ∃ m, (Mode.operand ⟨p, []⟩).Leads ls m ∧ m.Offers ⟨p, []⟩ t 1 :=
  h ⟨p, []⟩ (.of_ne hcall) trivial

/-- The word behind the condition of a construct. -/
theorem leads_construct {t : Tree} {ls : List Lexeme} (h : Recognized (.expression t) ls)
    {p : Purpose} (hcall : p ≠ .call) {l : Mark} {k : Construct}
    (hl : l ≠ .openParen) (hop : binaryOp? (.mark l) = none)
    (hmore : p.complete? t = none)
    (hk : Mode.continueOperand? ⟨p, []⟩ t (.mark l) = some (.lineBreak k)) :
    (Mode.operand ⟨p, []⟩).Leads (ls ++ [.mark l]) (.lineBreak k) := by
  obtain ⟨m, hm, hoffers⟩ := leads_expression h hcall
  exact hm.trans (hoffers.close (.of_ne hcall) hl hop trivial (fun _ => hmore) hk)

theorem recognized_of_derives {p : Phrase} {ls : List Lexeme} (h : Derives p ls) :
    Recognized p ls := by
  induction h with
  | var => exact fun ctx _ => ⟨_, .single rfl rfl, Mode.offers_operandName ctx _ _⟩
  | int => exact fun ctx _ => ⟨_, .single rfl rfl, Mode.offers_behind ctx _ false _⟩
  | str => exact fun ctx _ => ⟨_, .single rfl rfl, Mode.offers_behind ctx _ false _⟩
  | read =>
    intro ctx _
    refine ⟨.behind ctx (.read ()) false, ?_, Mode.offers_behind ctx _ _ _⟩
    exact .cons (.single rfl rfl) (.cons (.single rfl rfl) (.single rfl rfl))
  | call _ ih =>
    intro ctx _
    obtain ⟨rest, rfl, hrest⟩ := ih
    refine ⟨_, ?_, Mode.offers_behind ctx _ false _⟩
    exact .cons (.single rfl rfl) (.cons (.single rfl rfl) (hrest ctx _))
  | @unary op t ls _ ih =>
    intro ctx hopen
    obtain ⟨m, hm, hoffers⟩ := ih (ctx.push (.unary op)) (ctx.open_push _)
    refine ⟨m, .cons (.single rfl (by cases op <;> rfl)) hm, fun next hnext hlevel => ?_⟩
    rw [hoffers next hnext hlevel, settleOperand_unary hopen]
  | @group t ls _ ih =>
    intro ctx _
    have hopen := ctx.open_push .group
    obtain ⟨m, hm, hoffers⟩ := ih (ctx.push .group) hopen trivial
    refine ⟨.behind ctx t true, ?_, Mode.offers_behind ctx _ _ _⟩
    refine .cons (.single rfl rfl) (hm.trans ?_)
    exact hoffers.close_push (by decide) rfl trivial rfl
  | tightest _ ih =>
    intro ctx hopen _
    obtain ⟨m, hm, hoffers⟩ := ih ctx hopen
    exact ⟨m, hm, hoffers.any _⟩
  | tighter _ ih =>
    intro ctx hopen hstable
    obtain ⟨m, hm, hoffers⟩ := ih ctx hopen (hstable.mono (Nat.le_succ _))
    exact ⟨m, hm, hoffers.mono (Nat.le_succ _)⟩
  | @binary k op l r ls rs hk _ _ ihl ihr =>
    subst hk
    intro ctx hopen hstable
    obtain ⟨m, hm, hoffers⟩ := ihl ctx hopen hstable
    obtain ⟨m', hm', hoffers'⟩ := ihr (ctx.push (.binary op l)) (ctx.open_push _)
      (Nat.lt_succ_self op.level)
    refine ⟨m', hm.trans (.cons (hoffers.operator hopen hstable) hm'),
      fun next hnext hlevel => ?_⟩
    rw [hoffers' next hnext (Nat.le_succ_of_le hlevel), settleOperand_binary hopen hlevel]
  | @first t ls hexpr ih =>
    intro ctx f
    obtain ⟨m, hm, hoffers⟩ := ih (ctx.push (.argument f [])) (ctx.open_push _) trivial
    obtain ⟨l, ls, rfl⟩ := List.exists_cons_of_ne_nil hexpr.ne_nil
    exact ⟨[], t, m, rfl, Mode.leads_argsOpen hm, hoffers⟩
  | @more ts t ls rs _ _ ihs ih =>
    intro ctx f
    obtain ⟨done, u, m, rfl, hm, hoffers⟩ := ihs ctx f
    obtain ⟨m', hm', hoffers'⟩ := ih (ctx.push (.argument f (u :: done))) (ctx.open_push _) trivial
    refine ⟨u :: done, t, m', by simp, hm.trans (.cons ?_ hm'), hoffers'⟩
    exact hoffers.close_push (by decide) rfl trivial rfl
  | noArguments => exact ⟨_, rfl, fun ctx f => .single rfl rfl⟩
  | arguments _ ih =>
    refine ⟨_, rfl, fun ctx f => ?_⟩
    obtain ⟨done, t, m, rfl, hm, hoffers⟩ := ih ctx f
    refine hm.trans ?_
    exact hoffers.close_push (by decide) rfl trivial rfl
  | @assign b x t ls _ ih =>
    intro before around _
    obtain ⟨m, hm, hoffers⟩ := leads_expression ih (p := .assign x) (by simp)
    exact ⟨m, reaches_statement (fun _ => rfl) (.cons (.single rfl rfl) hm) before around,
      ends_of_offers hoffers (by simp) rfl⟩
  | @invoke b f as ls _ ih =>
    intro before around _
    obtain ⟨rest, rfl, hrest⟩ := ih
    have hcall := hrest ⟨.call, []⟩ f
    exact ⟨_, reaches_statement (fun _ => rfl) (.cons (.single rfl rfl) hcall) before around,
      rfl, rfl⟩
  | @declare b x =>
    intro before around _
    exact ⟨_, reaches_statement (fun _ => rfl) (.single rfl rfl) before around, rfl, rfl⟩
  | @define b x t ls _ ih =>
    intro before around _
    obtain ⟨m, hm, hoffers⟩ := leads_expression ih (p := .define x) (by simp)
    exact ⟨m, reaches_statement (fun _ => rfl)
      (.cons (.single rfl rfl) (.cons (.single rfl rfl) hm)) before around,
      ends_of_offers hoffers (by simp) rfl⟩
  | ret _ ih =>
    intro before around hin
    obtain ⟨m, hm, hoffers⟩ := leads_expression ih (p := .ret) (by simp)
    have hbegin : State.take? ⟨before, around, .fresh⟩ (.mark .kReturn) =
        some ⟨before, around, .operand ⟨.ret, []⟩⟩ := if_pos (hin rfl)
    exact ⟨m, .cons hbegin (hm before around), ends_of_offers hoffers (by simp) rfl⟩
  | print _ ih =>
    intro before around _
    obtain ⟨m, hm, hoffers⟩ := leads_expression ih (p := .print) (by simp)
    have hclose := hm.trans (hoffers.close (k := .closeParen) (.of_ne (by simp)) (by decide) rfl trivial
      (fun _ => rfl) rfl)
    exact ⟨_, reaches_statement (fun _ => rfl) (.cons (.single rfl rfl) hclose) before around,
      ends_done _ false⟩
  | @function b f ps body ls _ ih =>
    intro before around _
    have hfront := reaches_statement (l := .mark .kFunction) (fun _ => rfl)
      (Mode.leads_function f ps) before around
    have hbody := reaches_end (k := .function f ps) ih before around fun _ => rfl
    exact ⟨_, by simpa [Construct.close] using hfront.trans hbody, ends_done _ false⟩
  | @loop b c body cs ls _ _ ihc ih =>
    intro before around hin
    have hcond := reaches_statement (l := .mark .kWhile) (fun _ => rfl)
      (leads_construct ihc (p := .loop) (by simp) (l := .kDo) (by decide) rfl rfl rfl) before around
    have hbody := reaches_end (k := .loop c) ih before around hin
    exact ⟨_, by simpa [Construct.close] using hcond.trans hbody, ends_done _ false⟩
  | @branch b c yes cs ls _ _ ihc ih =>
    intro before around hin
    have hcond := reaches_statement (l := .mark .kIf) (fun _ => rfl)
      (leads_construct ihc (p := .branch) (by simp) (l := .kThen) (by decide) rfl rfl rfl) before around
    have hbody := reaches_end (k := .thenPart c) ih before around hin
    exact ⟨_, by simpa [Construct.close] using hcond.trans hbody, ends_done _ false⟩
  | @branchElse b c yes no cs ls rs _ _ _ ihc ihy ihn =>
    intro before around hin
    have hcond := reaches_statement (l := .mark .kIf) (fun _ => rfl)
      (leads_construct ihc (p := .branch) (by simp) (l := .kThen) (by decide) rfl rfl rfl) before around
    have helse : State.take? ⟨yes.reverse, (.thenPart c, before) :: around, .fresh⟩ (.mark .kElse) =
        some ⟨before, around, .lineBreak (.elsePart c yes)⟩ := by
      simp [State.take?, State.settle, Mode.settle, State.shift?, State.begin?]
    have hyes := (reaches_block (k := .thenPart c) ihy before around hin).snoc helse
    have hno := reaches_end (k := .elsePart c yes) ihn before around hin
    exact ⟨_, by simpa [Construct.close] using (hcond.trans hyes).trans hno, ends_done _ false⟩
  | nil => exact fun _ _ _ => .refl
  | skip _ ih =>
    intro before around hin
    rw [List.reverse_append]
    exact (ih before around hin).snoc rfl
  | line _ _ ihs ih =>
    intro before around hin
    obtain ⟨m, hm, hends⟩ := ih _ around hin
    rw [List.reverse_append]
    refine (ihs before around hin).trans (hm.snoc ?_)
    simp [State.take?, State.settle, Lexeme.category, hends.newline, State.shift?, State.append]
  | program _ ih =>
    refine ⟨_, (ih [] [] (by simp)).snoc rfl, rfl, ?_⟩
    simp [State.program, State.withMode, State.settle]
  | @openProgram body t ls rs _ _ ihs ih =>
    obtain ⟨m, hm, hends⟩ := ih (body.reverse ++ []) [] (by simp)
    have heof : State.take? ⟨body.reverse ++ [], [], m⟩ (.mark .eof) =
        some ⟨t :: (body.reverse ++ []), [], .accepted⟩ := by
      simp [State.take?, State.settle, Lexeme.category, hends.eof, State.shift?, State.append]
    exact ⟨_, (ihs [] [] (by simp)).trans (hm.snoc heof), rfl, by simp [State.program]⟩

/-- A program is accepted. -/
theorem reaches_of_derives {t : Tree} {ls : List Lexeme} (h : Derives (.program t) ls) :
    ∃ s, Reaches .start ls s ∧ s.mode = .accepted ∧ s.program = t :=
  recognized_of_derives h

end Reader
end Onepass
