import Onepass.Proofs.Grammar
import Onepass.Proofs.Reading

/-!
# Onepass.Proofs.Transcript

What the reader has read is what it holds. Every part of a state stands for a stretch of the
lexemes read so far, and the stretches make up all of them: the constructs around the block with
what stands before them (`Surrounds`), the finished statements of the block, and the statement at
hand (`Mode.Reads`), of which the context of an operand is a part (`Awaits`).

* `take?_reads` -- one lexeme more.
* `derives_of_reaches` -- so an accepting state holds a program that the grammar derives.
-/

namespace Onepass
namespace Reader

namespace Purpose

/-- The lexemes of a statement before its expression. -/
def front : Purpose → List Lexeme
  | .assign x => [.ident x, .mark .assign]
  | .define x => [.mark .kLocal, .ident x, .mark .assign]
  | .ret => [.mark .kReturn]
  | .print => [.mark .kPrint, .mark .openParen]
  | .loop => [.mark .kWhile]
  | .branch => [.mark .kIf]
  | .call => []

end Purpose

/-- Behind the lexemes, counted from the front of the statement, an operand is due in the
context. -/
inductive Awaits (b : Bool) : Context → List Lexeme → Prop where
  | start {p} : p ≠ .call → (p = .ret → b = true) → Awaits b ⟨p, []⟩ p.front
  | invoke {f} : Awaits b ⟨.call, [.argument f []]⟩ [.ident f, .mark .openParen]
  | unary {p st ls op} : Awaits b ⟨p, st⟩ ls →
      Awaits b ⟨p, .unary op :: st⟩ (ls ++ [.mark op.mark])
  | binary {p st ls op l rs} : Awaits b ⟨p, st⟩ ls → Stable op.level st →
      Derives (.operation op.level l) rs →
      Awaits b ⟨p, .binary op l :: st⟩ (ls ++ (rs ++ [.mark op.mark]))
  | group {p st ls} : Awaits b ⟨p, st⟩ ls → Awaits b ⟨p, .group :: st⟩ (ls ++ [.mark .openParen])
  | call {p st ls f} : Awaits b ⟨p, st⟩ ls →
      Awaits b ⟨p, .argument f [] :: st⟩ (ls ++ [.ident f, .mark .openParen])
  | comma {p st ls f done t rs} : Awaits b ⟨p, .argument f done :: st⟩ ls →
      Derives (.expression t) rs →
      Awaits b ⟨p, .argument f (t :: done) :: st⟩ (ls ++ (rs ++ [.mark .comma]))

/-- The front of a construct, up to the line end that opens its block. -/
inductive Heads (b : Bool) : Construct → List Lexeme → Prop where
  | function {f ps} : Heads b (.function f ps)
      (.mark .kFunction :: .ident f :: .mark .openParen ::
        (Lexeme.names ps ++ [.mark .closeParen]))
  | loop {c cs} : Derives (.expression c) cs →
      Heads b (.loop c) (.mark .kWhile :: (cs ++ [.mark .kDo]))
  | thenPart {c cs} : Derives (.expression c) cs →
      Heads b (.thenPart c) (.mark .kIf :: (cs ++ [.mark .kThen]))
  | elsePart {c yes cs ls} : Derives (.expression c) cs → Derives (.lines b yes) ls →
      Heads b (.elsePart c yes)
        (.mark .kIf :: (cs ++ .mark .kThen :: .mark .newline :: (ls ++ [.mark .kElse])))

namespace Mode

/-- The lexemes of the statement at hand. -/
inductive Reads (b : Bool) : Mode → List Lexeme → Prop where
  | fresh : Reads b .fresh []
  | name {x} : Reads b (.name x) [.ident x]
  | localWord : Reads b .localWord [.mark .kLocal]
  | localName {x} : Reads b (.localName x) [.mark .kLocal, .ident x]
  | functionWord : Reads b .functionWord [.mark .kFunction]
  | functionName {f} : Reads b (.functionName f) [.mark .kFunction, .ident f]
  | paramsOpen {f} : Reads b (.paramsOpen f) [.mark .kFunction, .ident f, .mark .openParen]
  | param {f ps} : ps ≠ [] → Reads b (.param f ps)
      (.mark .kFunction :: .ident f :: .mark .openParen :: Lexeme.names ps.reverse)
  | paramNext {f ps} : ps ≠ [] → Reads b (.paramNext f ps)
      (.mark .kFunction :: .ident f :: .mark .openParen ::
        (Lexeme.names ps.reverse ++ [.mark .comma]))
  | printWord : Reads b .printWord [.mark .kPrint]
  | operand {ctx ls} : Awaits b ctx ls → Reads b (.operand ctx) ls
  | operandName {ctx ls x} : Awaits b ctx ls → Reads b (.operandName ctx x) (ls ++ [.ident x])
  | argsOpen {ctx ls f} : Awaits b (ctx.push (.argument f [])) ls → Reads b (.argsOpen ctx f) ls
  | readWord {ctx ls} : Awaits b ctx ls → Reads b (.readWord ctx) (ls ++ [.mark .kRead])
  | readOpen {ctx ls} : Awaits b ctx ls →
      Reads b (.readOpen ctx) (ls ++ [.mark .kRead, .mark .openParen])
  | behind {ctx ls t rs built} : Awaits b ctx ls → Derives (.operand t) rs →
      Reads b (.behind ctx t built) (ls ++ rs)
  /-- Behind a call that is a statement. -/
  | invoked {t ls built} : Derives (.statement b t) ls →
      Reads b (.behind ⟨.call, []⟩ t built) ls
  | lineBreak {k ls} : Heads b k ls → Reads b (.lineBreak k) ls
  | done {t ls built} : Derives (.statement b t) ls → Reads b (.done t built) ls

/-- The lexemes of the statement at hand, once the next token has settled it: the operand has
become an operation as tight as the token asks for. -/
inductive Settles (b : Bool) (next : Category) : Mode → List Lexeme → Prop where
  | behind {ctx ls t rs} : Awaits b ctx ls → Stable (followLevel next) ctx.stack →
      Derives (.operation (followLevel next) t) rs → Settles b next (.behind ctx t true) (ls ++ rs)
  | other {m ls} : (∀ ctx t built, m ≠ .behind ctx t built) → Reads b m ls → Settles b next m ls

end Mode

/-- The lexemes of constructs and of the statements before them, up to the block at hand. -/
inductive Surrounds : List (Construct × List Tree) → List Lexeme → Prop where
  | nil : Surrounds [] []
  | cons {k before around ls bs hs} : Surrounds around ls →
      Derives (.lines (inFunction around) before.reverse) bs → Heads (inFunction around) k hs →
      Surrounds ((k, before) :: around) (ls ++ (bs ++ (hs ++ [.mark .newline])))

/-- The lexemes make up what the state holds. -/
inductive State.Reads : State → List Lexeme → Prop where
  | inside {before around m ls bs ms} : Surrounds around ls →
      Derives (.lines (Reader.inFunction around) before.reverse) bs →
      m.Reads (Reader.inFunction around) ms → Reads ⟨before, around, m⟩ (ls ++ (bs ++ ms))
  | accepted {before ls} : Derives (.program (.block () before.reverse)) ls →
      Reads ⟨before, [], .accepted⟩ ls

namespace Awaits

variable {b : Bool}

/-- The context of an operand is open. -/
theorem isOpen {ctx : Context} {ls : List Lexeme} (h : Awaits b ctx ls) : ctx.Open := by
  cases h with
  | start hp => exact fun h => absurd h hp
  | _ => exact fun _ => List.cons_ne_nil _ _

theorem of_nil {p : Purpose} {ls : List Lexeme} (h : Awaits b ⟨p, []⟩ ls) :
    p ≠ .call ∧ (p = .ret → b = true) ∧ ls = p.front := by
  cases h with
  | start hp hret => exact ⟨hp, hret, rfl⟩

/-- The arguments of a call up to the one at hand, and what stands before the call. -/
theorem argument {p : Purpose} {f : String} {done : List Tree} {st : List Pending}
    {ls : List Lexeme} (h : Awaits b ⟨p, .argument f done :: st⟩ ls) :
    ∃ before rs, ls = before ++ .ident f :: .mark .openParen :: rs ∧
      (Awaits b ⟨p, st⟩ before ∨ p = .call ∧ st = [] ∧ before = []) ∧
      (done = [] ∧ rs = [] ∨ ∃ us, Derives (.list done.reverse) us ∧ rs = us ++ [.mark .comma]) := by
  generalize hctx : (⟨p, .argument f done :: st⟩ : Context) = ctx at h
  induction h generalizing done with
  | invoke =>
    cases hctx
    exact ⟨[], [], rfl, .inr ⟨rfl, rfl, rfl⟩, .inl ⟨rfl, rfl⟩⟩
  | call h =>
    cases hctx
    exact ⟨_, [], rfl, .inl h, .inl ⟨rfl, rfl⟩⟩
  | @comma p st ls f done t us _ ht ih =>
    cases hctx
    obtain ⟨before, rs, rfl, hbefore, hdone⟩ := ih rfl
    refine ⟨before, rs ++ (us ++ [.mark .comma]), by simp, hbefore, .inr ?_⟩
    rw [List.reverse_cons]
    obtain ⟨rfl, rfl⟩ | ⟨vs, hvs, rfl⟩ := hdone
    · exact ⟨us, .first ht, rfl⟩
    · exact ⟨_, .more hvs ht, by simp⟩
  | start | unary | binary | group => cases hctx

/-- A call is an operand, or a statement if nothing is around it. -/
theorem called {p : Purpose} {f : String} {done as : List Tree} {st : List Pending}
    {ls us : List Lexeme} (h : Awaits b ⟨p, .argument f done :: st⟩ ls)
    (has : ∀ rs, (done = [] ∧ rs = [] ∨
      ∃ us, Derives (.list done.reverse) us ∧ rs = us ++ [.mark .comma]) →
      Derives (.arguments as) (.mark .openParen :: (rs ++ us))) (built : Bool) :
    (Mode.behind ⟨p, st⟩ (.call () f as) built).Reads b (ls ++ us) := by
  obtain ⟨before, rs, rfl, hbefore, hdone⟩ := h.argument
  have has := has rs hdone
  simp only [List.append_assoc, List.cons_append]
  obtain hbefore | ⟨rfl, rfl, rfl⟩ := hbefore
  · exact .behind hbefore (.call has)
  · exact .invoked (.invoke has)

/-- How tight an operand is: at least of the level, or any on a stack with no operators that
could take it. -/
def Fits (level : Nat) (stack : List Pending) (t : Tree) (rs : List Lexeme) : Prop :=
  Derives (.operand t) rs ∨ ∃ k, level ≤ k ∧ Stable k stack ∧ Derives (.operation k t) rs

/-- Operators take their operands from the lexemes read. -/
theorem reduce {ctx : Context} {ls rs : List Lexeme} {t : Tree} {level : Nat} (hlevel : level ≤ 5)
    (h : Awaits b ctx ls) (ht : Fits level ctx.stack t rs) :
    ∃ ls' rs', ls ++ rs = ls' ++ rs' ∧
      Awaits b ⟨ctx.purpose, (Reader.reduce level ctx.stack t).1⟩ ls' ∧
      Stable level (Reader.reduce level ctx.stack t).1 ∧
      Derives (.operation level (Reader.reduce level ctx.stack t).2) rs' := by
  -- What nothing takes is of the level asked for.
  have hrest {k : Nat} {st : List Pending} {t : Tree} {rs : List Lexeme}
      (ht : Fits k st t rs) (hk : k ≤ 6) : Derives (.operation k t) rs := by
    obtain ht | ⟨j, hj, -, ht⟩ := ht
    · exact ht.operation hk
    · exact ht.looser hj
  induction h generalizing t rs with
  | start hp hret => exact ⟨_, rs, rfl, .start hp hret, trivial, hrest ht (by omega)⟩
  | invoke => exact ⟨_, rs, rfl, .invoke, trivial, hrest ht (by omega)⟩
  | group h => exact ⟨_, rs, rfl, .group h, trivial, hrest ht (by omega)⟩
  | call h => exact ⟨_, rs, rfl, .call h, trivial, hrest ht (by omega)⟩
  | comma h hu => exact ⟨_, rs, rfl, .comma h hu, trivial, hrest ht (by omega)⟩
  | unary h ih =>
    obtain ht | ⟨k, -, hk, -⟩ := ht
    · obtain ⟨ls', rs', heq, h'⟩ := ih (.inl ht.unary)
      exact ⟨ls', rs', by rw [← heq]; simp, h'⟩
    · exact hk.elim
  | @binary p st ls op l us h hst hl ih =>
    have hr : Derives (.operation (op.level + 1) t) rs := by
      obtain ht | ⟨k, -, hk, ht⟩ := ht
      · exact ht.operation (Nat.succ_le_succ op.level_le)
      · exact ht.looser hk
    rw [Reader.reduce]
    split
    · rename_i hle
      obtain ⟨ls', rs', heq, h'⟩ := ih (.inr ⟨op.level, hle, hst, .binary rfl hl hr⟩)
      exact ⟨ls', rs', by rw [← heq]; simp, h'⟩
    · rename_i hlt
      exact ⟨_, rs, rfl, .binary h hst hl, Nat.lt_of_not_le hlt, hrest ht (by omega)⟩

/-- An expression that completes its statement. -/
theorem complete {p : Purpose} {t statement : Tree} {rs ls : List Lexeme}
    (h : Awaits b ⟨p, []⟩ ls) (ht : Derives (.expression t) rs)
    (hcomplete : p.complete? t = some statement) :
    Derives (.statement b statement) (ls ++ rs) := by
  obtain ⟨hp, hret, rfl⟩ := h.of_nil
  cases p with
  | assign x =>
    cases hcomplete
    exact .assign ht
  | define x =>
    cases hcomplete
    exact .define ht
  | ret =>
    cases hcomplete
    rw [hret rfl]
    exact .ret ht
  | call => exact absurd rfl hp
  | print | loop | branch => cases hcomplete

/-- An operand in a context, before the next token. -/
theorem settle {ctx : Context} {ls rs : List Lexeme} {t : Tree} (h : Awaits b ctx ls)
    (ht : Derives (.operand t) rs) (next : Category) :
    (settleOperand ctx t next).Settles b next (ls ++ rs) := by
  obtain ⟨ls', rs', heq, h', hstable, ht'⟩ := h.reduce (followLevel_le next) (.inl ht)
  rw [heq, settleOperand_of_open h.isOpen]
  dsimp only
  split
  · rename_i hstack hop hcomplete
    have hzero : followLevel next = 0 := by rw [followLevel, hop]; rfl
    rw [hstack] at h'
    rw [hzero] at ht' hcomplete
    exact .other (by simp) (.done (h'.complete ht'.expression hcomplete))
  · exact .behind h' hstable ht'

end Awaits

/-- A construct and its block are a statement. -/
theorem statement_of_heads {b : Bool} {k : Construct} {hs ls : List Lexeme} {body : List Tree}
    (hk : Heads b k hs) (h : Derives (.lines (k.isFunction || b) body) ls) :
    Derives (.statement b (k.close body)) (hs ++ .mark .newline :: (ls ++ [.mark .kEnd])) := by
  cases hk with
  | @function f ps =>
    have hstatement : Derives (.statement b (.function () f ps body)) _ := .function h
    simpa [Construct.close] using hstatement
  | loop hc =>
    have hstatement := Derives.loop (b := b) hc h
    simpa [Construct.close] using hstatement
  | thenPart hc =>
    have hstatement := Derives.branch (b := b) hc h
    simpa [Construct.close] using hstatement
  | elsePart hc hyes =>
    have hstatement := Derives.branchElse (b := b) hc hyes h
    simpa [Construct.close] using hstatement

namespace Mode

variable {b : Bool}

/-- The next token settles the statement at hand and reads nothing. -/
theorem Reads.settle {m : Mode} {ls : List Lexeme} (h : m.Reads b ls) (next : Category) :
    (m.settle next).Settles b next ls := by
  cases h with
  | localName =>
    rw [Mode.settle]
    split
    · exact .other (by simp) .localName
    · exact .other (by simp) (.done .declare)
  | operandName h =>
    rw [Mode.settle]
    split
    · exact .other (by simp) (.operandName h)
    · exact h.settle .var next
  | behind h ht => exact h.settle ht next
  | invoked h => exact .other (m := .done _ _) (by simp) (.done h)
  | done h => exact .other (m := .done _ _) (by simp) (.done h)
  | fresh => exact .other (m := .fresh) (by simp) .fresh
  | name => exact .other (m := .name _) (by simp) .name
  | localWord => exact .other (m := .localWord) (by simp) .localWord
  | functionWord => exact .other (m := .functionWord) (by simp) .functionWord
  | functionName => exact .other (m := .functionName _) (by simp) .functionName
  | paramsOpen => exact .other (m := .paramsOpen _) (by simp) .paramsOpen
  | param h => exact .other (m := .param _ _) (by simp) (.param h)
  | paramNext h => exact .other (m := .paramNext _ _) (by simp) (.paramNext h)
  | printWord => exact .other (m := .printWord) (by simp) .printWord
  | operand h => exact .other (m := .operand _) (by simp) (.operand h)
  | argsOpen h => exact .other (m := .argsOpen _ _) (by simp) (.argsOpen h)
  | readWord h => exact .other (m := .readWord _) (by simp) (.readWord h)
  | readOpen h => exact .other (m := .readOpen _) (by simp) (.readOpen h)
  | lineBreak h => exact .other (m := .lineBreak _) (by simp) (.lineBreak h)

/-- The front of an operand. -/
theorem beginOperand?_reads {ctx : Context} {l : Lexeme} {m : Mode} {ls : List Lexeme}
    (h : Awaits b ctx ls) (hm : beginOperand? ctx l = some m) : m.Reads b (ls ++ [l]) := by
  unfold beginOperand? at hm
  split at hm
  · cases hm
    exact .operandName h
  · cases hm
    exact .behind h .int
  · cases hm
    exact .behind h .str
  · cases hm
    exact .operand (.group h)
  · cases hm
    exact .readWord h
  · obtain ⟨op, hop, rfl⟩ := Option.map_eq_some_iff.mp hm
    cases eq_mark_of_unaryOp? hop
    exact .operand (.unary h)

/-- What follows an operand. -/
theorem continueOperand?_reads {p : Purpose} {stack : List Pending} {t : Tree} {l : Lexeme}
    {m : Mode} {ls rs : List Lexeme} (h : Awaits b ⟨p, stack⟩ ls)
    (hstable : Stable (followLevel l.category) stack)
    (ht : Derives (.operation (followLevel l.category) t) rs)
    (hm : continueOperand? ⟨p, stack⟩ t l = some m) : m.Reads b (ls ++ (rs ++ [l])) := by
  unfold continueOperand? at hm
  dsimp only at hm
  split at hm
  · rename_i op hop
    have hl := eq_mark_of_binaryOp? hop
    rw [hl, followLevel_mark] at hstable ht
    cases hm
    cases l with
    | mark k =>
      cases hl
      exact .operand (h.binary hstable ht)
    | _ => cases hl
  · rename_i hop
    have hzero : followLevel l.category = 0 := by rw [followLevel, hop]; rfl
    rw [hzero] at ht
    have ht := ht.expression
    split at hm
    · cases hm
      cases h with
      | group h => simpa using Reads.behind h ht.group
    · cases hm
      exact .operand (h.comma ht)
    · cases hm
      refine h.called (fun us hdone => ?_) false
      rw [List.reverse_cons]
      obtain ⟨rfl, rfl⟩ | ⟨vs, hvs, rfl⟩ := hdone
      · exact .arguments (.first ht)
      · simpa using Derives.arguments (hvs.more ht)
    · cases hm
      obtain ⟨-, -, rfl⟩ := h.of_nil
      exact .done (.print ht)
    · cases hm
      obtain ⟨-, -, rfl⟩ := h.of_nil
      exact .lineBreak (.loop ht)
    · cases hm
      obtain ⟨-, -, rfl⟩ := h.of_nil
      exact .lineBreak (.thenPart ht)
    · cases hm

/-- A settled mode and the token that settled it. -/
theorem Settles.shift? {m m' : Mode} {l : Lexeme} {ls : List Lexeme}
    (h : m.Settles b l.category ls) (hm : m.shift? l = some m') : m'.Reads b (ls ++ [l]) := by
  cases h with
  | behind h hstable ht =>
    rw [List.append_assoc]
    exact continueOperand?_reads h hstable ht hm
  | other hbehind h =>
    -- One case for each rule of `shift?`, in its order; the mode of the rule says what was read.
    unfold Mode.shift? at hm
    split at hm
    case h_1 =>
      cases hm
      cases h
      exact .operand (.start (by simp) (by simp))
    case h_2 =>
      cases hm
      cases h
      exact .argsOpen .invoke
    case h_3 =>
      cases hm
      cases h
      exact .localName
    case h_4 =>
      cases hm
      cases h
      exact .operand (.start (by simp) (by simp))
    case h_5 =>
      cases hm
      cases h
      exact .functionName
    case h_6 =>
      cases hm
      cases h
      exact .paramsOpen
    case h_7 =>
      cases hm
      cases h
      exact .lineBreak .function
    case h_8 =>
      cases hm
      cases h
      exact .param (List.cons_ne_nil _ _)
    case h_9 =>
      cases hm
      cases h with
      | param hps => exact .paramNext hps
    case h_10 =>
      cases hm
      cases h
      exact .lineBreak .function
    case h_11 =>
      cases hm
      rename_i f ps x
      cases h with
      | paramNext hps =>
        have hnames := Lexeme.names_snoc (mt List.reverse_eq_nil_iff.mp hps) x
        simpa [hnames] using Reads.param (b := b) (f := f) (List.cons_ne_nil x ps)
    case h_12 =>
      cases hm
      cases h
      exact .operand (.start (by simp) (by simp))
    case h_13 =>
      cases h with
      | operand h => exact beginOperand?_reads h hm
    case h_14 =>
      cases hm
      cases h with
      | operandName h => simpa using Reads.argsOpen (.call h)
    case h_15 =>
      cases hm
      cases h with
      | argsOpen h =>
        refine Awaits.called h (fun us hdone => ?_) false
        obtain ⟨-, rfl⟩ | ⟨vs, hvs, -⟩ := hdone
        · exact .noArguments
        · exact absurd rfl hvs.list_ne_nil
    case h_16 =>
      cases h with
      | argsOpen h => exact beginOperand?_reads h hm
    case h_17 =>
      cases hm
      cases h with
      | readWord h => simpa using Reads.readOpen h
    case h_18 =>
      cases hm
      cases h with
      | readOpen h => simpa using Reads.behind h .read
    case h_19 => exact absurd rfl (hbehind _ _ _)
    case h_20 => cases hm

end Mode

namespace State

/-- The first lexeme of a statement, or a word that ends a block. -/
theorem begin?_reads {s s' : State} {l : Lexeme} {ls : List Lexeme} (h : s.Reads ls)
    (hm : s.mode = .fresh) (hs : s.begin? l = some s') : s'.Reads (ls ++ [l]) := by
  cases h with
  | accepted => cases hm
  | @inside before around m os bs ms hos hbs hms =>
    subst hm
    cases hms
    have hstart {m : Mode} (h : m.Reads (Reader.inFunction around) [l]) :
        State.Reads ⟨before, around, m⟩ (os ++ (bs ++ []) ++ [l]) := by
      simpa using State.Reads.inside hos hbs h
    unfold begin? at hs
    dsimp only at hs
    split at hs
    · cases hs
      exact hstart .name
    · cases hs
      have hskip : Derives (.lines (Reader.inFunction around) (.skip () :: before).reverse)
          (bs ++ [.mark .newline]) := by
        rw [List.reverse_cons]
        exact .skip hbs
      simpa [State.append] using State.Reads.inside hos hskip .fresh
    · cases hs
      exact hstart .localWord
    · cases hs
      exact hstart .functionWord
    · cases hs
      exact hstart .printWord
    · cases hs
      exact hstart (.operand (.start (by simp) (by simp)))
    · cases hs
      exact hstart (.operand (.start (by simp) (by simp)))
    · split at hs
      · rename_i hin
        cases hs
        exact hstart (.operand (.start (by simp) fun _ => hin))
      · cases hs
    · split at hs
      · cases hs
        cases hos with
        | cons hos hbefore hheads =>
          cases hheads with
          | thenPart hc =>
            simpa using State.Reads.inside hos hbefore (.lineBreak (.elsePart hc hbs))
      · cases hs
    · split at hs
      · cases hs
        cases hos with
        | cons hos hbefore hheads =>
          simpa using State.Reads.inside hos hbefore (.done (statement_of_heads hheads hbs))
      · cases hs
    · split at hs
      · rename_i hempty
        cases hs
        cases List.isEmpty_iff.mp hempty
        cases hos
        simpa [State.withMode] using State.Reads.accepted (.program hbs)
      · cases hs
    · cases hs

/-- What has been read, and one lexeme more. -/
theorem take?_reads {s s' : State} {l : Lexeme} {ls : List Lexeme} (h : s.Reads ls)
    (hs : s.take? l = some s') : s'.Reads (ls ++ [l]) := by
  rw [take?, settle] at hs
  cases h with
  | accepted =>
    cases hs
  | @inside before around m os bs ms hos hbs hms =>
    have hm := hms.settle l.category
    generalize m.settle l.category = m at hm hs
    unfold shift? at hs
    split at hs
    · rename_i hfresh
      cases hfresh
      cases hm with
      | other _ hms => exact begin?_reads (.inside hos hbs hms) rfl hs
    · rename_i t _ hdone
      cases hdone
      cases hs
      cases hm with
      | other _ hms =>
        cases hms with
        | done ht =>
          have hline : Derives (.lines (Reader.inFunction around) (t :: before).reverse)
              (bs ++ (ms ++ [.mark .newline])) := by
            rw [List.reverse_cons]
            exact .line hbs ht
          simpa [State.append] using State.Reads.inside hos hline .fresh
    · rename_i t _ hdone
      cases hdone
      split at hs
      · rename_i hempty
        cases hs
        cases List.isEmpty_iff.mp hempty
        cases hos
        cases hm with
        | other _ hms =>
          cases hms with
          | done ht =>
            have hprogram : Derives (.program (.block () (t :: before).reverse))
                (bs ++ (ms ++ [.mark .eof])) := by
              rw [List.reverse_cons]
              exact .openProgram hbs ht
            simpa [State.append] using State.Reads.accepted hprogram
      · cases hs
    · rename_i k hbreak
      cases hbreak
      cases hs
      cases hm with
      | other _ hms =>
        cases hms with
        | lineBreak hheads =>
          simpa using State.Reads.inside (hos.cons hbs hheads) .nil .fresh
    · obtain ⟨m', hm', rfl⟩ := Option.map_eq_some_iff.mp hs
      simpa [State.withMode] using State.Reads.inside hos hbs (hm.shift? hm')

end State

theorem Reaches.reads {s s' : State} {ls rs : List Lexeme} (hreach : Reaches s rs s')
    (h : s.Reads ls) : s'.Reads (ls ++ rs) := by
  induction hreach generalizing ls with
  | refl => simpa using h
  | cons hs _ ih => simpa using ih (State.take?_reads h hs)

theorem reads_start : State.start.Reads [] := by
  have hlines : Derives (.lines (inFunction []) ([] : List Tree).reverse) [] := .nil
  exact .inside .nil hlines .fresh

/-- A program that is accepted is derived by the grammar. -/
theorem derives_of_reaches {s : State} {ls : List Lexeme} (h : Reaches .start ls s)
    (hs : s.mode = .accepted) : Derives (.program s.program) ls := by
  have hreads := h.reads reads_start
  rw [List.nil_append] at hreads
  cases hreads with
  | accepted h => exact h
  | inside _ _ hms =>
    cases hs
    cases hms

end Reader
end Onepass
