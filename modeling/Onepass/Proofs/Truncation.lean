import Onepass.Proofs.Checking
import Onepass.Proofs.Tags

/-!
# Onepass.Proofs.Truncation

What stands behind a `return`. A list of statements is evaluated up to the first `return` among its
own statements, and no further; a `return` inside one of them does not end the list.

* `Node.truncate`        -- the tree with every list of statements cut behind its first `return`.
* `evaluate_truncate`    -- what is cut has no part in the code, the names or the result.
* `evaluateBlock_append` -- statements without a `return` of their own go on into those behind them.
* `part_of_visits`       -- the code of what an evaluation comes to stands in its code, and an error
  there is its error.
* `generate_truncate`    -- for whole programs.
-/

namespace Onepass

namespace Node

variable {ι : Type}

mutual

/-- Every list of statements cut behind its first `return`. Arguments of a call are no
statements, so none of them is cut. -/
def truncate : Node ι → Node ι
  | .var i x => .var i x
  | .int i n => .int i n
  | .str i s => .str i s
  | .binary i op l r => .binary i op l.truncate r.truncate
  | .unary i op e => .unary i op e.truncate
  | .read i => .read i
  | .call i f as => .call i f (truncateArgs as)
  | .assign i x e => .assign i x e.truncate
  | .declare i x => .declare i x
  | .define i x e => .define i x e.truncate
  | .print i e => .print i e.truncate
  | .ret i e => .ret i e.truncate
  | .branch i c ys ns => .branch i c.truncate (truncateBlock ys) (truncateBlock ns)
  | .loop i c body => .loop i c.truncate (truncateBlock body)
  | .function i f ps body => .function i f ps (truncateBlock body)
  | .block i body => .block i (truncateBlock body)
  | .skip i => .skip i

def truncateBlock : List (Node ι) → List (Node ι)
  | [] => []
  | n :: rest => n.truncate :: if n.isReturn then [] else truncateBlock rest

def truncateArgs : List (Node ι) → List (Node ι)
  | [] => []
  | n :: rest => n.truncate :: truncateArgs rest

end

theorem isReturn_truncate (n : Node ι) : n.truncate.isReturn = n.isReturn := by
  cases n <;> simp [truncate, isReturn]

theorem length_truncateArgs (as : List (Node ι)) : (truncateArgs as).length = as.length := by
  induction as with
  | nil => rfl
  | cons a as ih => simp [truncateArgs, ih]

end Node

open Node Emitter

mutual

/-- The emitter of a tree is that of the truncated tree. -/
theorem evaluate_truncate : ∀ n : Node Nat, evaluate n.truncate = evaluate n
  | .var _ _ | .int _ _ | .str _ _ | .read _ | .declare _ _ | .skip _ => by simp only [truncate]
  | .unary _ _ e | .assign _ _ e | .define _ _ e | .print _ e | .ret _ e => by
    simp only [truncate, evaluate, evaluate_truncate e]
  | .binary _ _ l r => by
    simp only [truncate, evaluate, evaluate_truncate l, evaluate_truncate r]
  | .call _ _ as => by
    simp only [truncate, evaluate, length_truncateArgs, pushArgs_truncate as]
  | .branch _ c ys ns => by
    simp only [truncate, evaluate, evaluate_truncate c, evaluateBlock_truncate ys,
      evaluateBlock_truncate ns]
  | .loop _ c body => by
    simp only [truncate, evaluate, evaluate_truncate c, evaluateBlock_truncate body]
  | .function _ _ _ body | .block _ body => by
    simp only [truncate, evaluate, evaluateBlock_truncate body]

theorem evaluateBlock_truncate : ∀ ns : List (Node Nat),
    evaluateBlock (truncateBlock ns) = evaluateBlock ns
  | [] => by simp only [truncateBlock]
  | n :: rest => by
    simp only [truncateBlock, evaluateBlock, evaluate_truncate n, isReturn_truncate]
    -- behind a `return` neither side looks at a list; elsewhere the cut goes on
    cases n.isReturn with
    | true => rfl
    | false => simp only [Bool.false_eq_true, if_false, evaluateBlock_truncate rest]

theorem pushArgs_truncate : ∀ as : List (Node Nat), pushArgs (truncateArgs as) = pushArgs as
  | [] => by simp only [truncateArgs]
  | a :: rest => by
    simp only [truncateArgs, pushArgs, evaluate_truncate a, pushArgs_truncate rest]

end

theorem Emitter.bind_bind {α β γ : Type} (x : Emitter α) (f : α → Emitter β)
    (g : β → Emitter γ) : ((x >>= f) >>= g) = x >>= fun a => f a >>= g := by
  funext t
  cases hx : (x t).result with
  | error e =>
    have hf : ((x >>= f) t).result = .error e := by rw [bind_apply_error hx]
    rw [bind_apply_error hf, bind_apply_error hx, bind_apply_error hx]
  | ok a =>
    have hxf := bind_apply_ok (f := f) hx
    rw [bind_apply_ok hx]
    cases hf : (f a (x t).tables).result with
    | error e =>
      have hr : ((x >>= f) t).result = .error e := by rw [hxf, ← hf]
      rw [bind_apply_error hr, bind_apply_error hf, hxf]
    | ok b =>
      have hr : ((x >>= f) t).result = .ok b := by rw [hxf, ← hf]
      rw [bind_apply_ok hr, bind_apply_ok hf, hxf]
      simp only [List.append_assoc]

/-- Statements without a `return` among them go on into the statements behind them, whatever
stands inside them. -/
theorem evaluateBlock_append {before : List (Node Nat)} (h : ∀ n ∈ before, n.isReturn = false)
    (after : List (Node Nat)) :
    evaluateBlock (before ++ after) = evaluateBlock before >>= fun _ => evaluateBlock after := by
  induction before with
  | nil =>
    simp only [List.nil_append, evaluateBlock]
    rfl
  | cons n before ih =>
    obtain ⟨hn, hbefore⟩ := List.forall_mem_cons.mp h
    simp only [List.cons_append, evaluateBlock, hn, Bool.false_eq_true, if_false, ih hbefore,
      Emitter.bind_bind]

/-! ## What an evaluation comes to -/

/-- The lines of the first emission stand in those of the second one, and its error ends it. -/
structure Emission.Part {α β : Type} (inner : Emission α) (outer : Emission β) : Prop where
  code : inner.code <:+: outer.code
  error : ∀ e, inner.result = .error e → outer.result = .error e

namespace Emission.Part

variable {α β γ : Type}

theorem refl (e : Emission α) : e.Part e := ⟨List.infix_refl _, fun _ h => h⟩

theorem trans {e : Emission α} {e' : Emission β} {e'' : Emission γ} (h : e.Part e')
    (h' : e'.Part e'') : e.Part e'' :=
  ⟨h.code.trans h'.code, fun x hx => h'.error x (h.error x hx)⟩

variable {e : Emission γ} {x : Emitter α} {f : α → Emitter β} {t : Tables}

/-- In the first half of a sequence. -/
theorem first (h : e.Part (x t)) : e.Part ((x >>= f) t) := by
  refine h.trans ?_
  cases hx : (x t).result with
  | error e' =>
    rw [bind_apply_error hx]
    refine ⟨List.infix_refl _, fun _ he => ?_⟩
    rw [hx] at he
    cases he
    rfl
  | ok a =>
    rw [bind_apply_ok hx]
    refine ⟨(List.prefix_append _ _).isInfix, fun e' he' => ?_⟩
    rw [hx] at he'
    cases he'

/-- In the second half, where the first one succeeds. -/
theorem next {a : α} (hx : (x t).result = .ok a) (h : e.Part (f a (x t).tables)) :
    e.Part ((x >>= f) t) := by
  refine h.trans ?_
  rw [bind_apply_ok hx]
  exact ⟨(List.suffix_append _ _).isInfix, fun _ he => he⟩

theorem emit {code : List Assembly.Line} {f : Unit → Emitter β} (h : e.Part (f () t)) :
    e.Part ((Emitter.emit code >>= f) t) := next rfl h

theorem inFrame (h : e.Part (x { t with scope := .empty })) : e.Part (Emitter.inFrame x t) :=
  ⟨h.code, h.error⟩

/-- Arguments say as a piece what they say as arguments. -/
theorem args {as : List (Node Nat)} (h : e.Part (pushArgs as t)) :
    e.Part ((Piece.args as).emit t) := first h

theorem of_args {as : List (Node Nat)} (h : (pushArgs as t).Part e) :
    ((Piece.args as).emit t).Part e := by
  refine Part.trans ?_ h
  simp only [Piece.emit]
  cases hr : (pushArgs as t).result with
  | error e' =>
    rw [bind_apply_error hr]
    refine ⟨List.infix_refl _, fun _ he => ?_⟩
    cases he
    exact hr
  | ok u =>
    rw [bind_apply_ok hr]
    refine ⟨by simp [pure_apply], fun e he => ?_⟩
    cases he

end Emission.Part

open Emission in
/-- A part of an evaluation: what runs before it succeeds and emits lines of its own. -/
theorem part_of_enters {m m' : Moment} (h : Enters m m') : m'.emission.Part m.emission := by
  cases h
  all_goals simp only [Moment.emission, Piece.emit, evaluate, evaluateBlock]
  case right | assign | print | ret | condition | first => exact .first (.refl _)
  case operand => exact .first (.refl _)
  case left hr => exact .next hr (.emit (.first (.refl _)))
  case args hr harity =>
    refine .next (x := Emitter.findRoutine _) hr ?_
    exact .next (x := Emitter.ofExcept _) harity (.first (.of_args (.refl _)))
  case define x _ _ slot s hs =>
    have hdeclared : changeScope (·.declareLocal x .int) _ = ⟨[], _, .ok slot⟩ :=
      changeScope_eq_ok.mpr ⟨rfl, s, hs, rfl⟩
    refine .next (a := slot) (by rw [hdeclared]) ?_
    rw [hdeclared]
    exact .emit (.first (.refl _))
  case yes hc => exact .next hc (.emit (.first (.refl _)))
  case no hc hys => exact .next hc (.emit (.next hys (.emit (.first (.refl _)))))
  case test => exact .emit (.first (.refl _))
  case loop hc => exact .emit (.next hc (.emit (.first (.refl _))))
  case function f ps _ _ rs hrs hps =>
    have hdeclared : declareRoutine f ps _ = ⟨[], _, .ok ()⟩ :=
      declareRoutine_eq_ok.mpr ⟨rfl, rs, hrs, rfl⟩
    refine .next (a := ()) (by rw [hdeclared]) ?_
    rw [hdeclared]
    exact .emit (.first (.inFrame (.next hps (.first (.refl _)))))
  case block => exact .refl _
  case rest hn hr =>
    refine .next hn ?_
    simp only [hr, Bool.false_eq_true, if_false]
    exact .refl _
  case others => exact .args (.first (.of_args (.refl _)))
  case argument ha => exact .args (.next ha (.first (.refl _)))

/-- What an evaluation comes to is a part of it. -/
theorem part_of_visits {m m' : Moment} (h : Visits m m') : m'.emission.Part m.emission := by
  induction h with
  | refl => exact .refl _
  | tail _ he ih => exact (part_of_enters he).trans ih

/-- Behind statements that succeed without a `return` among them come those behind them. -/
theorem visits_append {before : List (Node Nat)} (h : ∀ n ∈ before, n.isReturn = false)
    (after : List (Node Nat)) {t : Tables} {v : Value}
    (hv : (evaluateBlock before t).result = .ok v) :
    Visits ⟨.block (before ++ after), t⟩ ⟨.block after, (evaluateBlock before t).tables⟩ := by
  induction before generalizing t with
  | nil => exact .refl
  | cons n before ih =>
    obtain ⟨hn, hbefore⟩ := List.forall_mem_cons.mp h
    simp only [evaluateBlock, hn, Bool.false_eq_true, if_false] at hv ⊢
    cases hr : (evaluate n t).result with
    | error e =>
      rw [bind_apply_error hr] at hv
      cases hv
    | ok a =>
      rw [bind_apply_ok hr] at hv ⊢
      exact .head (.rest hr hn) (ih hbefore hv)

/-- An error within a program is the program's, and lines emitted there are lines of its listing. -/
theorem generate_of_visits {root : Node Nat} {m : Moment}
    (h : Visits ⟨.node root, ⟨.empty, .empty⟩⟩ m) :
    (∀ e, m.emission.result = .error e → generate root = .error e) ∧
      ∀ listing, generate root = .ok listing → m.emission.code <:+: listing.body := by
  have hpart : m.emission.Part (program root ⟨.empty, .empty⟩) :=
    .emit (.first (part_of_visits h))
  refine ⟨fun e he => ?_, fun listing hlisting => ?_⟩
  · simp only [generate, generateWith, hpart.error e he, Except.map]
  · simp only [generate, generateWith] at hlisting
    cases hr : (program root ⟨.empty, .empty⟩).result with
    | error e =>
      rw [hr] at hlisting
      cases hlisting
    | ok u =>
      rw [hr] at hlisting
      cases hlisting
      exact hpart.code

/-- Of a list of statements what stands behind its first `return` has no part in the assembly or
the error of a program, whatever it is. A `return` inside a statement ends no list but its own: an
error before is the list's; otherwise the statements behind are evaluated next, their lines follow,
and their result, an error too, is the list's. Within a program such an error is the program's, and
the lines are lines of its listing. -/
theorem generate_truncate :
    (∀ root : Node Nat, generate root.truncate = generate root) ∧
    ∀ (before after : List (Node Nat)) (t : Tables), (∀ n ∈ before, n.isReturn = false) →
      let front := evaluateBlock before t
      let next := evaluateBlock after front.tables
      (∀ e, front.result = .error e →
        evaluateBlock (before ++ after) t = ⟨front.code, front.tables, .error e⟩) ∧
      ∀ v, front.result = .ok v →
        evaluateBlock (before ++ after) t =
          ⟨front.code ++ next.code, next.tables, next.result⟩ ∧
        ∀ root : Node Nat,
          Visits ⟨.node root, ⟨.empty, .empty⟩⟩ ⟨.block (before ++ after), t⟩ →
          Visits ⟨.node root, ⟨.empty, .empty⟩⟩ ⟨.block after, front.tables⟩ ∧
          (∀ e, next.result = .error e → generate root = .error e) ∧
          ∀ listing, generate root = .ok listing →
            front.code ++ next.code <:+: listing.body := by
  refine ⟨fun root => ?_, fun before after t hbefore => ⟨fun e he => ?_, fun v hv => ?_⟩⟩
  · simp only [generate, generateWith, program, evaluate_truncate root]
  · rw [evaluateBlock_append hbefore, bind_apply_error he]
  · have hlist : evaluateBlock (before ++ after) t = _ :=
      (congrFun (evaluateBlock_append hbefore after) t).trans (bind_apply_ok hv)
    refine ⟨hlist, fun root hroot => ?_⟩
    have hafter := hroot.trans (visits_append hbefore after hv)
    refine ⟨hafter, (generate_of_visits hafter).1, fun listing hlisting => ?_⟩
    have hcode := (generate_of_visits hroot).2 listing hlisting
    simp only [Moment.emission, Piece.emit, hlist] at hcode
    exact hcode

/-- Behind a branch that returns, an unknown variable is still an error. -/
theorem generate_return_in_branch :
    let body : List (Node Nat) :=
      [.branch 1 (.int 2 0) [.ret 3 (.int 4 1)] [], .assign 5 "x" (.int 6 7)]
    generate (.function 0 "f" [] body) = .error (.undeclaredVariable "x") := by
  have hbody := generate_truncate.2 [.branch 1 (.int 2 0) [.ret 3 (.int 4 1)] []]
    [.assign 5 "x" (.int 6 7)] ⟨.empty, Dictionary.empty.insert "f" ⟨[], .int⟩⟩
    (by simp [Node.isReturn])
  exact ((hbody.2 .void rfl).2 _ (.single (.function rfl rfl))).2.1 _ rfl

end Onepass
