import Onepass.Proofs.Checking

/-!
# Onepass.Proofs.Literals

What a literal says is written down and is used for nothing else. The value that a node has while
its program is compiled does depend on literals; its type does not, and only the type is looked at.

* `Alike` -- two trees are the same but for what their literals say.
* `literals` -- the literals of a tree that are run, in the order in which they are.
* `generate_alike` -- programs that are alike fail with the same error, or have listings that
  differ in the lines of those literals that differ, and in no others.
-/

namespace Onepass

open Assembly Lowering Emitter

/-- A literal, as far as its code depends on it. -/
inductive Literal where
  | int (value : Word)
  | str (id : Nat) (text : String)
  deriving DecidableEq, Repr

namespace Literal

/-- The line in which a literal is written down. -/
def line : Literal → Line
  | .int n => .instr (.mov (.reg .eax) (.imm n.toInt))
  | .str id s =>
    .data (.text id) ((s.toUTF8.data.toList.map fun b => .byte b.toNat) ++ [.byte 0])

theorem line_injective : Function.Injective line := by
  intro x y h
  cases x <;> cases y <;> simp only [line, reduceCtorEq] at h
  case int.int m n =>
    simp only [Line.instr.injEq, Instr.mov.injEq, Operand.imm.injEq, true_and] at h
    rw [BitVec.toInt_inj.mp h]
  case str.str i s j u =>
    simp only [Line.data.injEq, Symbol.text.injEq, List.append_cancel_right_eq] at h
    obtain ⟨rfl, hbytes⟩ := h
    have hlist := (List.map_inj_right fun a b hab => ?_).mp hbytes
    · rw [String.toByteArray_inj.mp (ByteArray.ext (Array.toList_inj.mp hlist))]
    · exact UInt8.toNat_inj.mp (Datum.byte.inj hab)

end Literal

/-! ## Trees with other literals -/

namespace Node

mutual

/-- The trees are the same but for what their literals say. -/
inductive Alike : Node Nat → Node Nat → Prop where
  | var {i x} : Alike (.var i x) (.var i x)
  | int {i m n} : Alike (.int i m) (.int i n)
  | str {i s u} : Alike (.str i s) (.str i u)
  | binary {i op l r l' r'} : Alike l l' → Alike r r' →
      Alike (.binary i op l r) (.binary i op l' r')
  | unary {i op e e'} : Alike e e' → Alike (.unary i op e) (.unary i op e')
  | read {i} : Alike (.read i) (.read i)
  | call {i f es es'} : AllAlike es es' → Alike (.call i f es) (.call i f es')
  | assign {i x e e'} : Alike e e' → Alike (.assign i x e) (.assign i x e')
  | declare {i x} : Alike (.declare i x) (.declare i x)
  | define {i x e e'} : Alike e e' → Alike (.define i x e) (.define i x e')
  | print {i e e'} : Alike e e' → Alike (.print i e) (.print i e')
  | ret {i e e'} : Alike e e' → Alike (.ret i e) (.ret i e')
  | branch {i c ys ns c' ys' ns'} : Alike c c' → AllAlike ys ys' → AllAlike ns ns' →
      Alike (.branch i c ys ns) (.branch i c' ys' ns')
  | loop {i c es c' es'} : Alike c c' → AllAlike es es' → Alike (.loop i c es) (.loop i c' es')
  | function {i f ps es es'} : AllAlike es es' →
      Alike (.function i f ps es) (.function i f ps es')
  | block {i es es'} : AllAlike es es' → Alike (.block i es) (.block i es')
  | skip {i} : Alike (.skip i) (.skip i)

inductive AllAlike : List (Node Nat) → List (Node Nat) → Prop where
  | nil : AllAlike [] []
  | cons {e e' es es'} : Alike e e' → AllAlike es es' → AllAlike (e :: es) (e' :: es')

end

theorem Alike.isReturn {t u : Node Nat} (h : Alike t u) : t.isReturn = u.isReturn := by
  cases h <;> rfl

theorem AllAlike.length {ts us : List (Node Nat)} (h : AllAlike ts us) :
    ts.length = us.length := by
  induction us generalizing ts with
  | nil => cases h; rfl
  | cons u us ih =>
    cases h with
    | cons _ hrest => simp [ih hrest]

mutual

/-- The literals in the code of a tree, in its order. -/
def literals : Node Nat → List Literal
  | .var _ _ | .read _ | .declare _ _ | .skip _ => []
  | .int _ n => [.int n]
  | .str i s => [.str i s]
  | .binary _ _ l r => r.literals ++ l.literals
  | .unary _ _ e | .assign _ _ e | .define _ _ e | .print _ e | .ret _ e => e.literals
  | .call _ _ es => argLiterals es
  | .branch _ c ys ns => c.literals ++ (blockLiterals ys ++ blockLiterals ns)
  | .loop _ c es => c.literals ++ blockLiterals es
  | .function _ _ _ es | .block _ es => blockLiterals es

/-- There is no code for what stands behind a `return`. -/
def blockLiterals : List (Node Nat) → List Literal
  | [] => []
  | s :: rest => s.literals ++ if s.isReturn then [] else blockLiterals rest

def argLiterals : List (Node Nat) → List Literal
  | [] => []
  | a :: rest => argLiterals rest ++ a.literals

end

end Node

/-! ## Lines that differ -/

/-- What two lists of one length have at the same place, where it is not the same. -/
def differences {α : Type} [DecidableEq α] (as bs : List α) : List (α × α) :=
  (as.zip bs).filter fun (a, b) => a ≠ b

section

variable {α β : Type} [DecidableEq α] [DecidableEq β]

@[simp] theorem differences_self (as : List α) : differences as as = [] := by
  induction as with
  | nil => rfl
  | cons a as ih => simpa [differences] using ih

theorem differences_append {as bs as' bs' : List α} (h : as.length = bs.length) :
    differences (as ++ as') (bs ++ bs') = differences as bs ++ differences as' bs' := by
  simp [differences, List.zip_append h]

end

/-- The lines of the second list are those of the first one, with the literals in `bs` written where
those in `as` were. -/
structure Rewritten (as bs : List Literal) (code code' : List Line) : Prop where
  literals : as.length = bs.length
  length : code.length = code'.length
  lines : differences code code' = (differences as bs).map (Prod.map Literal.line Literal.line)

namespace Rewritten

variable {as bs as' bs' : List Literal} {code code' more more' : List Line}

theorem refl (code : List Line) : Rewritten [] [] code code := by
  refine ⟨rfl, rfl, ?_⟩
  rw [differences_self]
  rfl

theorem append (h : Rewritten as bs code code') (h' : Rewritten as' bs' more more') :
    Rewritten (as ++ as') (bs ++ bs') (code ++ more) (code' ++ more') := by
  refine ⟨?_, ?_, ?_⟩
  · simp [h.literals, h'.literals]
  · simp [h.length, h'.length]
  · rw [differences_append h.length, differences_append h.literals, h.lines, h'.lines,
      List.map_append]

theorem line (x y : Literal) : Rewritten [x] [y] [x.line] [y.line] := by
  refine ⟨rfl, rfl, ?_⟩
  by_cases hxy : x = y
  · simp [hxy]
  · simp [differences, hxy, Literal.line_injective.ne hxy]

theorem text (id : Nat) (s u : String) :
    Rewritten [.str id s] [.str id u] (stringCode id s) (stringCode id u) :=
  (refl [.instr (.jmp (.textEnd id))]).append ((line (.str id s) (.str id u)).append (refl _))

end Rewritten

/-! ## Emitters -/

/-- Whatever names are known, both emitters fail with the same error, or both succeed: with results
that are related, with the same names known, and with the same code but for the literals. -/
def Agree {α β : Type} (R : α → β → Prop) (as bs : List Literal) (x : Emitter α)
    (y : Emitter β) : Prop :=
  ∀ t, (∃ e, (x t).result = .error e ∧ (y t).result = .error e) ∨
    ∃ a b, (x t).result = .ok a ∧ (y t).result = .ok b ∧ R a b ∧
      (x t).tables = (y t).tables ∧ Rewritten as bs (x t).code (y t).code

/-- The types are the same, whatever the values are. -/
def SameType (v w : Value) : Prop := v.ty = w.ty

namespace Agree

variable {α β γ δ : Type} {R : α → β → Prop} {S : γ → δ → Prop} {as bs as' bs' : List Literal}

theorem refl (x : Emitter α) : Agree Eq [] [] x x := by
  intro t
  cases hx : (x t).result with
  | error e => exact .inl ⟨e, rfl, rfl⟩
  | ok a => exact .inr ⟨a, a, rfl, rfl, rfl, rfl, .refl _⟩

theorem bind {x : Emitter α} {y : Emitter β} {f : α → Emitter γ} {g : β → Emitter δ}
    (hxy : Agree R as bs x y) (hfg : ∀ a b, R a b → Agree S as' bs' (f a) (g b)) :
    Agree S (as ++ as') (bs ++ bs') (x >>= f) (y >>= g) := by
  intro t
  rcases hxy t with ⟨e, hx, hy⟩ | ⟨a, b, hx, hy, hab, htables, hcode⟩
  · rw [bind_apply_error hx, bind_apply_error hy]
    exact .inl ⟨e, rfl, rfl⟩
  · rw [bind_apply_ok hx, bind_apply_ok hy, ← htables]
    rcases hfg a b hab (x t).tables with ⟨e, hf, hg⟩ | ⟨c, d, hf, hg, hcd, hlast, hmore⟩
    · exact .inl ⟨e, hf, hg⟩
    · exact .inr ⟨c, d, hf, hg, hcd, hlast, hcode.append hmore⟩

/-- What both do first is the same. -/
theorem step {x : Emitter α} {f : α → Emitter γ} {g : α → Emitter δ}
    (hfg : ∀ a, Agree S as bs (f a) (g a)) : Agree S as bs (x >>= f) (x >>= g) :=
  (refl x).bind fun a _ hab => hab ▸ hfg a

/-- What both do behind is the same. -/
theorem last {x : Emitter α} {y : Emitter β} {f : α → Emitter γ} {g : β → Emitter δ}
    (hxy : Agree R as bs x y) (hfg : ∀ a b, R a b → Agree S [] [] (f a) (g b)) :
    Agree S as bs (x >>= f) (y >>= g) := by
  simpa using hxy.bind hfg

theorem pure {a : α} {b : β} (h : R a b) : Agree R [] [] (Pure.pure a) (Pure.pure b) :=
  fun _ => .inr ⟨a, b, rfl, rfl, h, rfl, .refl _⟩

theorem emit {code code' : List Line} (h : Rewritten as bs code code') :
    Agree Eq as bs (Emitter.emit code) (Emitter.emit code') :=
  fun _ => .inr ⟨(), (), rfl, rfl, rfl, rfl, h⟩

theorem ofExcept {r s : Except Error Value} (h : r.map Value.ty = s.map Value.ty) :
    Agree SameType [] [] (Emitter.ofExcept r) (Emitter.ofExcept s) := by
  intro t
  cases r <;> cases s <;> simp only [Except.map, Except.error.injEq, Except.ok.injEq,
    reduceCtorEq] at h
  · exact .inl ⟨_, rfl, congrArg _ h.symm⟩
  · exact .inr ⟨_, _, rfl, rfl, h, rfl, .refl _⟩

theorem inFrame {x : Emitter α} {y : Emitter β} (h : Agree R as bs x y) :
    Agree R as bs (Emitter.inFrame x) (Emitter.inFrame y) := by
  intro t
  rcases h { t with scope := .empty } with ⟨e, hx, hy⟩ | ⟨a, b, hx, hy, hab, htables, hcode⟩
  · exact .inl ⟨e, hx, hy⟩
  · refine .inr ⟨a, b, hx, hy, hab, ?_, hcode⟩
    simp only [Emitter.inFrame, htables]

end Agree

theorem agree_fold (op : BinaryOp) {l r l' r' : Value} (hl : SameType l l') (hr : SameType r r') :
    Agree SameType [] [] (ofExcept (op.fold l r)) (ofExcept (op.fold l' r')) := by
  refine .ofExcept ?_
  rw [← op.check_eq_fold, ← op.check_eq_fold, hl, hr]

theorem agree_unaryFold (op : UnaryOp) {v w : Value} (h : SameType v w) :
    Agree SameType [] [] (ofExcept (op.fold v)) (ofExcept (op.fold w)) := by
  refine .ofExcept ?_
  rw [← op.check_eq_fold, ← op.check_eq_fold, h]

open Node

mutual

theorem agree_evaluate : ∀ {t u : Node Nat}, Alike t u →
    Agree SameType t.literals u.literals (evaluate t) (evaluate u)
  | _, _, .var => by
    simp only [evaluate, literals]
    exact .step fun slot => .step fun _ => .pure rfl
  | _, _, .int (m := m) (n := n) => by
    simp only [evaluate, literals]
    exact (Agree.emit (.line (.int m) (.int n))).last fun _ _ _ => .pure rfl
  | _, _, .str => by
    simp only [evaluate, literals]
    exact (Agree.emit (.text _ _ _)).last fun _ _ _ => .pure rfl
  | _, _, .binary hl hr => by
    simp only [evaluate, literals]
    refine (agree_evaluate hr).bind fun r r' hr => .step fun _ => ?_
    refine (agree_evaluate hl).last fun l l' hl => .step fun _ => ?_
    refine (agree_fold _ hl hr).bind fun v w hvw => .step fun _ => .pure hvw
  | _, _, .unary h => by
    simp only [evaluate, literals]
    refine (agree_evaluate h).last fun v w hvw => ?_
    exact (agree_unaryFold _ hvw).bind fun v w hvw => .step fun _ => .pure hvw
  | _, _, .read => by
    simp only [evaluate, literals]
    exact .step fun _ => .pure rfl
  | _, _, .call hargs => by
    simp only [evaluate, literals, ← hargs.length]
    refine .step fun routine => .step fun _ => ?_
    exact (agree_pushArgs hargs).last fun _ _ _ => .step fun _ => .pure rfl
  | _, _, .assign h => by
    simp only [evaluate, literals]
    refine (agree_evaluate h).last fun v w hvw => ?_
    rw [hvw]
    exact .step fun slot => .step fun _ => .pure rfl
  | _, _, .declare => by
    simp only [evaluate, literals]
    exact .step fun slot => .step fun _ => .pure rfl
  | _, _, .define h => by
    simp only [evaluate, literals]
    refine .step fun slot => .step fun _ => (agree_evaluate h).last fun v w hvw => ?_
    rw [hvw]
    exact .step fun _ => .step fun _ => .pure rfl
  | _, _, .print h => by
    simp only [evaluate, literals]
    exact (agree_evaluate h).last fun _ _ _ => .step fun _ => .pure rfl
  | _, _, .ret h => by
    simp only [evaluate, literals]
    exact (agree_evaluate h).last fun _ _ hvw => .step fun _ => .pure hvw
  | _, _, .branch hc hyes hno => by
    simp only [evaluate, literals]
    refine (agree_evaluate hc).bind fun _ _ _ => .step fun _ => ?_
    refine (agree_evaluateBlock hyes).bind fun _ _ _ => .step fun _ => ?_
    exact (agree_evaluateBlock hno).last fun _ _ _ => .step fun _ => .pure rfl
  | _, _, .loop hc hbody => by
    simp only [evaluate, literals]
    refine .step fun _ => (agree_evaluate hc).bind fun _ _ _ => .step fun _ => ?_
    exact (agree_evaluateBlock hbody).last fun _ _ _ => .step fun _ => .pure rfl
  | _, _, .function hbody => by
    simp only [evaluate, literals]
    refine .step fun _ => .step fun _ => ?_
    refine (Agree.inFrame (R := Eq) ?_).last fun _ _ _ => .pure rfl
    refine .step fun _ => (agree_evaluateBlock hbody).last fun v w hvw => ?_
    rw [hvw]
    exact .refl _
  | _, _, .block hbody => by
    simp only [evaluate, literals]
    exact agree_evaluateBlock hbody
  | _, _, .skip => by
    simp only [evaluate, literals]
    exact .pure rfl

theorem agree_evaluateBlock : ∀ {ts us : List (Node Nat)}, AllAlike ts us →
    Agree SameType (blockLiterals ts) (blockLiterals us) (evaluateBlock ts) (evaluateBlock us)
  | _, _, .nil => by
    simp only [evaluateBlock, blockLiterals]
    exact .pure rfl
  | _, _, .cons h hrest => by
    simp only [evaluateBlock, blockLiterals, ← h.isReturn]
    refine (agree_evaluate h).bind fun v w hvw => ?_
    split
    · exact .pure hvw
    · exact agree_evaluateBlock hrest

theorem agree_pushArgs : ∀ {ts us : List (Node Nat)}, AllAlike ts us →
    Agree Eq (argLiterals ts) (argLiterals us) (pushArgs ts) (pushArgs us)
  | _, _, .nil => by
    simp only [pushArgs, argLiterals]
    exact .pure rfl
  | _, _, .cons h hrest => by
    simp only [pushArgs, argLiterals]
    refine (agree_pushArgs hrest).bind fun _ _ _ => ?_
    exact (agree_evaluate h).last fun _ _ _ => .refl _

end

theorem agree_program {t u : Node Nat} (h : t.Alike u) :
    Agree Eq t.literals u.literals (program t) (program u) := by
  refine .step fun _ => (agree_evaluate h).last fun _ _ _ => ?_
  exact .refl _

/-- What literals say is never used for anything: programs that are the same but for their literals
fail with the same error, or have listings of the same length, which differ in the lines of those
literals that differ, and in no others. -/
theorem generate_alike {t u : Node Nat} (h : t.Alike u) :
    (∃ e, generate t = .error e ∧ generate u = .error e) ∨
      ∃ l m, generate t = .ok l ∧ generate u = .ok m ∧ l.body.length = m.body.length ∧
        differences l.body m.body =
          (differences t.literals u.literals).map (Prod.map Literal.line Literal.line) := by
  simp only [generate, generateWith]
  rcases agree_program h ⟨.empty, .empty⟩ with ⟨e, ht, hu⟩ | ⟨_, _, ht, hu, -, -, hcode⟩
  · exact .inl ⟨e, by rw [ht]; rfl, by rw [hu]; rfl⟩
  · exact .inr ⟨_, _, by rw [ht]; rfl, by rw [hu]; rfl, hcode.length, hcode.lines⟩

/-- A condition and a divisor that are known before the program runs, and a string. -/
def constantTree (n : Word) (s : String) : Node Nat :=
  .block 10 [.branch 7 (.binary 2 (.relation .equal) (.int 0 n) (.int 1 0))
    [.print 6 (.binary 5 (.arith .div) (.int 3 1) (.int 4 n))] [], .print 9 (.str 8 s)]

/-- The condition holds and the quotient does not exist, or the other way round. -/
theorem generate_alike_constants :
    (generate (constantTree 0 "a")).toBool = true ∧
      (constantTree 0 "a").Alike (constantTree 7 "bc") ∧
      ((∃ e, generate (constantTree 0 "a") = .error e ∧ generate (constantTree 7 "bc") = .error e) ∨
        ∃ l m, generate (constantTree 0 "a") = .ok l ∧ generate (constantTree 7 "bc") = .ok m ∧
          l.body.length = m.body.length ∧
          differences l.body m.body =
            (differences (constantTree 0 "a").literals (constantTree 7 "bc").literals).map
              (Prod.map Literal.line Literal.line)) :=
  have h : (constantTree 0 "a").Alike (constantTree 7 "bc") :=
    .block (.cons (.branch (.binary .int .int) (.cons (.print (.binary .int .int)) .nil) .nil)
      (.cons (.print .str) .nil))
  ⟨by decide +kernel, h, generate_alike h⟩

end Onepass
