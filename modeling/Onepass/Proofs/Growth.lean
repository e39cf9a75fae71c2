import Mathlib.Order.Defs.Unbundled
import Onepass.Proofs.Frame
import Onepass.Session

/-!
# Onepass.Proofs.Growth

Evaluation only adds, also where it fails halfway. What was declared before stays as it was, but
for the types of variables; and lines are written behind those there are, without a look at them.

* `Scope.Grown`       -- a scope with some variables more, each below those before it.
* `Emitter.Leads`     -- however an emitter ends, the tables it leaves are so related to those it
  began with.
* `leads_evaluate`    -- evaluation leads to tables with more in them.
* `Scope.Reachable`   -- the scopes that declarations and evaluations make out of an empty one.
* `adds_of_reachable` -- what evaluating a node in such a scope adds to a session.
-/

namespace Onepass

open Assembly Lowering

namespace Scope

/-- The second scope has the variables of the first, each in its place, and behind them the local
variables `xs`, in the order of declaration. -/
structure Grown (s s' : Scope) (xs : List String) : Prop where
  within : s.Within s'
  fresh : ∀ x ∈ xs, s.place? x = none
  nodup : xs.Nodup
  new : ∀ i x, xs[i]? = some x → s'.place? x = some (localOffset (s.locals + i + 1))
  known : ∀ x w, s'.place? x = some w → s.place? x = some w ∨ x ∈ xs
  locals : s'.locals = s.locals + xs.length
  params : s'.params = s.params

namespace Grown

variable {s s' s'' : Scope} {xs ys : List String} {x : String} {ty : Ty} {slot : Slot}

theorem refl (s : Scope) : s.Grown s [] :=
  ⟨.refl s, nofun, .nil, nofun, fun _ _ h => .inl h, rfl, rfl⟩

theorem place_of_mem (h : s.Grown s' xs) (hx : x ∈ xs) : ∃ w, s'.place? x = some w := by
  obtain ⟨i, hi⟩ := List.mem_iff_getElem?.mp hx
  exact ⟨_, h.new i x hi⟩

theorem trans (h : s.Grown s' xs) (h' : s'.Grown s'' ys) : s.Grown s'' (xs ++ ys) where
  within := h.within.trans h'.within
  fresh := by
    rw [List.forall_mem_append]
    refine ⟨h.fresh, fun y hy => Option.eq_none_iff_forall_ne_some.mpr fun w hw => ?_⟩
    have hnew := h'.fresh y hy
    rw [h.within y w hw] at hnew
    cases hnew
  nodup := by
    refine List.nodup_append'.mpr ⟨h.nodup, h'.nodup, fun x hx hy => ?_⟩
    obtain ⟨w, hw⟩ := h.place_of_mem hx
    have hnew := h'.fresh x hy
    rw [hw] at hnew
    cases hnew
  new := by
    intro i x hx
    rw [List.getElem?_append] at hx
    split at hx
    · exact h'.within x _ (h.new i x hx)
    · have hplace := h'.new _ x hx
      have hi : s'.locals + (i - xs.length) = s.locals + i := by
        have := h.locals
        omega
      rwa [hi] at hplace
  known := by
    intro x w hx
    rw [List.mem_append]
    rcases h'.known x w hx with hx | hx
    · exact (h.known x w hx).imp_right .inl
    · exact .inr (.inr hx)
  locals := by
    rw [h'.locals, h.locals, List.length_append, Nat.add_assoc]
  params := h'.params.trans h.params

theorem declareLocal (h : s.declareLocal x ty = .ok (slot, s')) : s.Grown s' [x] := by
  have hwithin := Within.declareLocal h
  obtain ⟨hnew, hslot, rfl⟩ := declareLocal_eq_ok h
  refine ⟨hwithin, by simpa using hnew, List.nodup_singleton x, ?_, ?_, rfl, rfl⟩
  · intro i y hy
    rw [List.getElem?_singleton] at hy
    split at hy
    · rename_i hi
      cases hy
      rw [place?_insert, if_pos rfl, hslot, hi]
    · cases hy
  · intro y w hy
    rw [place?_insert] at hy
    split at hy
    · rename_i hyx
      exact .inr (by simp [hyx])
    · exact .inl hy

theorem retag (h : s.retag x ty = .ok (slot, s')) : s.Grown s' [] := by
  obtain ⟨-, hplace, hlocals, hparams⟩ := retag_eq_ok h
  exact ⟨.retag h, nofun, .nil, nofun, fun y w hy => .inl (by rwa [hplace] at hy), hlocals, hparams⟩

theorem holds (h : s.Grown s' xs) {ps ds : List String} (hs : s.Holds ps ds) :
    s'.Holds ps (ds ++ xs) where
  params := h.params.trans hs.params
  locals := by rw [h.locals, hs.locals, List.length_append]
  param := fun i x hx => h.within x _ (hs.param i x hx)
  var := by
    intro i x hx
    rw [List.getElem?_append] at hx
    split at hx
    · exact h.within x _ (hs.var i x hx)
    · have hplace := h.new _ x hx
      have hi : s.locals + (i - ds.length) = i := by
        have := hs.locals
        omega
      rwa [hi] at hplace
  known := by
    intro x w hx
    rw [← List.append_assoc, List.mem_append]
    exact (h.known x w hx).imp_left (hs.known x w)

end Grown
end Scope

namespace Tables

/-- More variables, more functions. -/
structure Grown (t t' : Tables) : Prop where
  scope : ∃ xs, t.scope.Grown t'.scope xs
  routines : ∀ f r, t.routines.get? f = some r → t'.routines.get? f = some r

/-- The functions other than `own` stay what they are. -/
def Retains (own : String) (t t' : Tables) : Prop :=
  ∀ f r, f ≠ own → t.routines.get? f = some r → t'.routines.get? f = some r

theorem Grown.retains {t t' : Tables} (h : t.Grown t') (own : String) : t.Retains own t' :=
  fun f r _ hf => h.routines f r hf

/-- The same variables. -/
def SameScope (t t' : Tables) : Prop := t'.scope = t.scope

instance : IsPreorder Tables Grown where
  refl t := ⟨⟨[], .refl t.scope⟩, fun _ _ h => h⟩
  trans := by
    rintro t t' t'' ⟨⟨xs, hs⟩, hrs⟩ ⟨⟨ys, hs'⟩, hrs'⟩
    exact ⟨⟨xs ++ ys, hs.trans hs'⟩, fun f r hf => hrs' f r (hrs f r hf)⟩

instance (own : String) : IsPreorder Tables (Retains own) where
  refl _ := fun _ _ _ h => h
  trans _ _ _ h h' := fun f r hown hf => h' f r hown (h f r hown hf)

instance : IsPreorder Tables SameScope where
  refl _ := rfl
  trans _ _ _ h h' := Eq.trans h' h

end Tables

open Tables

namespace Emitter

variable {α β : Type} {R : Tables → Tables → Prop} {x : Emitter α}

/-- Whatever tables the emitter begins with and however it ends, those it leaves are so related to
them. -/
def Leads (R : Tables → Tables → Prop) (x : Emitter α) : Prop := ∀ t, R t (x t).tables

namespace Leads

theorem mono {R' : Tables → Tables → Prop} (h : Leads R x) (hR : ∀ t t', R t t' → R' t t') :
    Leads R' x := fun t => hR t _ (h t)

section

variable [IsPreorder Tables R]

/-- An emitter that changes nothing. -/
theorem still (h : ∀ t, (x t).tables = t) : Leads R x := by
  intro t
  rw [h]
  exact refl_of R t

theorem pure (a : α) : Leads R (Pure.pure a) := still fun _ => rfl

theorem emit (code : List Line) : Leads R (Emitter.emit code) := still fun _ => rfl

theorem instrs (code : List Instr) : Leads R (Emitter.instrs code) := still fun _ => rfl

theorem ofExcept (r : Except Error α) : Leads R (Emitter.ofExcept r) := still fun _ => rfl

theorem bind {f : α → Emitter β} (hx : Leads R x) (hf : ∀ a, Leads R (f a)) :
    Leads R (x >>= f) := by
  intro t
  cases h : (x t).result with
  | error e =>
    rw [bind_apply_error h]
    exact hx t
  | ok a =>
    rw [bind_apply_ok h]
    exact trans_of R (hx t) (hf a _)

theorem changeScope {change : Scope → Except Error (α × Scope)}
    (h : ∀ t a s, change t.scope = .ok (a, s) → R t { t with scope := s }) :
    Leads R (Emitter.changeScope change) := by
  intro t
  simp only [Emitter.changeScope]
  split
  · exact h t _ _ ‹_›
  · exact refl_of R t

end

theorem declareLocal (y : String) (ty : Ty) :
    Leads Grown (Emitter.changeScope (·.declareLocal y ty)) :=
  .changeScope fun _ _ _ h => ⟨⟨[y], .declareLocal h⟩, fun _ _ hf => hf⟩

theorem retag (y : String) (ty : Ty) : Leads Grown (Emitter.changeScope (·.retag y ty)) :=
  .changeScope fun _ _ _ h => ⟨⟨[], .retag h⟩, fun _ _ hf => hf⟩

/-- What is declared within a frame is not seen around it. -/
theorem inFrame (x : Emitter α) : Leads SameScope (Emitter.inFrame x) := fun _ => rfl

theorem inFrame_retains {own : String} (h : Leads (Retains own) x) :
    Leads (Retains own) (Emitter.inFrame x) := fun t => h { t with scope := .empty }

theorem declareParams {own : String} (ps : List String) :
    Leads (Retains own) (Lowering.declareParams ps) := by
  induction ps with
  | nil =>
    simp only [Lowering.declareParams]
    exact .pure ()
  | cons p ps ih =>
    simp only [Lowering.declareParams]
    exact (Leads.changeScope fun _ _ _ _ _ _ _ hf => hf).bind fun _ => ih

theorem declareRoutine (f : String) (ps : List String) :
    Leads (Retains f) (Emitter.declareRoutine f ps) := by
  intro t g r hg hr
  simp only [Emitter.declareRoutine, Routines.declare]
  split
  · rename_i rs hrs
    split at hrs
    · cases hrs
    · cases hrs
      rw [Dictionary.get?_insert, if_neg hg, hr]
  · exact hr

theorem noteResult (f : String) (ty : Ty) : Leads (Retains f) (Lowering.noteResult f ty) := by
  rw [Lowering.noteResult]
  split
  · exact .pure ()
  · intro t g r hg hr
    simp only [Emitter.returning, Routines.returning]
    rw [Dictionary.get?_modify, if_neg hg, hr]

end Leads
end Emitter

open Emitter

/-- A function's declaration leaves the variables around it alone, whatever becomes of its
body. -/
theorem leads_function_sameScope (i : Nat) (f : String) (ps : List String)
    (body : List (Node Nat)) : Leads SameScope (evaluate (.function i f ps body)) := by
  simp only [evaluate]
  refine Leads.bind (fun t => ?_) fun _ => ?_
  · simp only [declareRoutine]
    split <;> rfl
  refine (Leads.emit _).bind fun _ => ?_
  exact (Leads.inFrame _).bind fun _ => .pure _

/-- A function's declaration changes nothing that is known but of its own name. -/
theorem leads_function_retains (i : Nat) (f : String) (ps : List String)
    {body : List (Node Nat)} (h : Leads Grown (evaluateBlock body)) :
    Leads (Retains f) (evaluate (.function i f ps body)) := by
  simp only [evaluate]
  refine (Leads.declareRoutine f ps).bind fun _ => ?_
  refine (Leads.emit _).bind fun _ => ?_
  refine (Leads.inFrame_retains ?_).bind fun _ => .pure _
  refine (Leads.declareParams ps).bind fun _ => ?_
  refine (h.mono fun _ _ hgrown => hgrown.retains f).bind fun v => ?_
  refine (Leads.noteResult f v.ty).bind fun _ => ?_
  exact Leads.bind (.still fun _ => rfl) fun _ => .emit _

/-- The function's own name is new, or nothing is done. -/
theorem leads_function (i : Nat) (f : String) (ps : List String) {body : List (Node Nat)}
    (h : Leads Grown (evaluateBlock body)) : Leads Grown (evaluate (.function i f ps body)) := by
  intro t
  have hscope : ((evaluate (.function i f ps body) t).tables).scope = t.scope :=
    leads_function_sameScope i f ps body t
  refine ⟨⟨[], ?_⟩, fun g r hg => ?_⟩
  · rw [hscope]
    exact .refl _
  cases hf : t.routines.get? f with
  | none =>
    refine leads_function_retains i f ps h t g r ?_ hg
    rintro rfl
    rw [hf] at hg
    cases hg
  | some r' =>
    have hfails : (declareRoutine f ps t).result = .error (.duplicateFunction f) := by
      simp [declareRoutine, Routines.declare, Dictionary.contains, hf]
    have hkept : (declareRoutine f ps t).tables = t := by
      simp [declareRoutine, Routines.declare, Dictionary.contains, hf]
    simp only [evaluate]
    rw [bind_apply_error hfails, hkept]
    exact hg

mutual

theorem leads_evaluate : ∀ n : Node Nat, Leads Grown (evaluate n)
  | .var _ x => by
    simp only [evaluate]
    exact Leads.bind (.still fun _ => rfl) fun _ => (Leads.instrs _).bind fun _ => .pure _
  | .int _ _ | .read _ => by
    simp only [evaluate]
    exact (Leads.instrs _).bind fun _ => .pure _
  | .str _ _ => by
    simp only [evaluate]
    exact (Leads.emit _).bind fun _ => .pure _
  | .binary _ op l r => by
    simp only [evaluate]
    refine (leads_evaluate r).bind fun _ => ?_
    refine (Leads.instrs _).bind fun _ => ?_
    refine (leads_evaluate l).bind fun _ => ?_
    refine (Leads.instrs _).bind fun _ => ?_
    refine (Leads.ofExcept _).bind fun _ => ?_
    exact (Leads.emit _).bind fun _ => .pure _
  | .unary _ op e => by
    simp only [evaluate]
    refine (leads_evaluate e).bind fun _ => ?_
    exact (Leads.ofExcept _).bind fun _ => (Leads.instrs _).bind fun _ => .pure _
  | .call _ f as => by
    simp only [evaluate]
    refine Leads.bind (.still fun _ => rfl) fun _ => ?_
    refine (Leads.ofExcept _).bind fun _ => ?_
    refine (leads_pushArgs as).bind fun _ => ?_
    exact (Leads.instrs _).bind fun _ => .pure _
  | .assign _ x e => by
    simp only [evaluate]
    refine (leads_evaluate e).bind fun v => ?_
    exact (Leads.retag x v.ty).bind fun _ => (Leads.instrs _).bind fun _ => .pure _
  | .declare _ x => by
    simp only [evaluate]
    exact (Leads.declareLocal x _).bind fun _ => (Leads.instrs _).bind fun _ => .pure _
  | .define _ x e => by
    simp only [evaluate]
    refine (Leads.declareLocal x _).bind fun _ => ?_
    refine (Leads.instrs _).bind fun _ => ?_
    refine (leads_evaluate e).bind fun v => ?_
    exact (Leads.retag x v.ty).bind fun _ => (Leads.instrs _).bind fun _ => .pure _
  | .print _ e | .ret _ e => by
    simp only [evaluate]
    exact (leads_evaluate e).bind fun _ => (Leads.instrs _).bind fun _ => .pure _
  | .branch _ c ys ns => by
    simp only [evaluate]
    refine (leads_evaluate c).bind fun _ => ?_
    refine (Leads.instrs _).bind fun _ => ?_
    refine (leads_evaluateBlock ys).bind fun _ => ?_
    refine (Leads.emit _).bind fun _ => ?_
    refine (leads_evaluateBlock ns).bind fun _ => ?_
    exact (Leads.emit _).bind fun _ => .pure _
  | .loop _ c body => by
    simp only [evaluate]
    refine (Leads.emit _).bind fun _ => ?_
    refine (leads_evaluate c).bind fun _ => ?_
    refine (Leads.instrs _).bind fun _ => ?_
    refine (leads_evaluateBlock body).bind fun _ => ?_
    exact (Leads.emit _).bind fun _ => .pure _
  | .function i f ps body => leads_function i f ps (leads_evaluateBlock body)
  | .block _ body => by
    simp only [evaluate]
    exact leads_evaluateBlock body
  | .skip _ => by
    simp only [evaluate]
    exact .pure _

theorem leads_evaluateBlock : ∀ ns : List (Node Nat), Leads Grown (evaluateBlock ns)
  | [] => by
    simp only [evaluateBlock]
    exact .pure _
  | n :: rest => by
    simp only [evaluateBlock]
    refine (leads_evaluate n).bind fun _ => ?_
    split
    · exact .pure _
    · exact leads_evaluateBlock rest

theorem leads_pushArgs : ∀ as : List (Node Nat), Leads Grown (pushArgs as)
  | [] => by
    simp only [pushArgs]
    exact .pure _
  | a :: rest => by
    simp only [pushArgs]
    refine (leads_pushArgs rest).bind fun _ => ?_
    exact (leads_evaluate a).bind fun _ => .instrs _

end

/-! ## Sessions -/

namespace Scope

/-- The scopes that come about: an empty one, and what declarations and evaluations make of it, in
whatever sessions and however these end. -/
inductive Reachable : Scope → Prop where
  | empty : Reachable .empty
  | declareLocal {s x ty slot s'} : Reachable s → s.declareLocal x ty = .ok (slot, s') →
      Reachable s'
  | declareParam {s x slot s'} : Reachable s → s.declareParam x = .ok (slot, s') → Reachable s'
  | retag {s x ty slot s'} : Reachable s → s.retag x ty = .ok (slot, s') → Reachable s'
  | evaluate {s} (session : Session) (n : Node Nat) : Reachable s →
      Reachable (session.evaluate s n).2.1

theorem grown_of_evaluate (session : Session) (s : Scope) (n : Node Nat) :
    ∃ xs, s.Grown (session.evaluate s n).2.1 xs :=
  (leads_evaluate n ⟨s, session.routines⟩).scope

theorem holds_of_reachable {s : Scope} (h : s.Reachable) : ∃ ps ds, s.Holds ps ds := by
  induction h with
  | empty => exact ⟨[], [], .empty⟩
  | declareLocal _ hs ih =>
    obtain ⟨ps, ds, ih⟩ := ih
    exact ⟨ps, _, ih.declareLocal hs⟩
  | declareParam _ hs ih =>
    obtain ⟨ps, ds, ih⟩ := ih
    exact ⟨_, ds, ih.declareParam hs⟩
  | retag _ hs ih =>
    obtain ⟨ps, ds, ih⟩ := ih
    exact ⟨ps, ds, ih.retag hs⟩
  | evaluate session n _ ih =>
    obtain ⟨ps, ds, ih⟩ := ih
    obtain ⟨xs, hxs⟩ := grown_of_evaluate session _ n
    exact ⟨ps, _, hxs.holds ih⟩

/-- Two names of one place are one name. -/
theorem Holds.place_injective {s : Scope} {ps ds : List String} (hs : s.Holds ps ds)
    (hsmall : s.locals + s.params < 2 ^ 29 - 1) {x y : String} {w : Word}
    (hx : s.place? x = some w) (hy : s.place? y = some w) : x = y := by
  refine hs.address_injective ?_ (hs.known x w hx) (hs.known y w hy) ?_
  · rw [← hs.params, ← hs.locals, Nat.add_comm]
    exact hsmall
  · simp only [address, address?, hx, hy]

/-- The frame grows by a word for each new variable. -/
theorem Grown.frameSize {s s' : Scope} {xs : List String} (h : s.Grown s' xs)
    (hsmall : s'.locals < 2 ^ 29 - 1) :
    s'.frameSize.toInt = s.frameSize.toInt + 4 * xs.length := by
  have hlocals := h.locals
  rw [Scope.frameSize, Scope.frameSize, localOffset, localOffset, hlocals,
    Word.toInt_ofNat (by omega), Word.toInt_ofNat (by omega)]
  omega

end Scope

namespace Session

/-- Evaluating the node in the scope adds `lines` to the code of the session and `names` to the
scope. -/
structure Adds (s : Session) (scope : Scope) (n : Node Nat) (lines : List Line)
    (names : List String) : Prop where
  /-- Whole lines stand behind the old text. -/
  text : render (s.evaluate scope n).2.2.code =
    render s.code ++ String.join (lines.map fun l => l.text ++ "\n")
  /-- The new lines, the result and the tables are the same behind any other code. -/
  anywhere : ∀ before : List Line, Session.evaluate ⟨before, s.routines⟩ scope n =
    ((s.evaluate scope n).1, (s.evaluate scope n).2.1,
      ⟨before ++ lines, (s.evaluate scope n).2.2.routines⟩)
  /-- Old names keep their places, new ones take the next ones. -/
  places : scope.Grown (s.evaluate scope n).2.1 names
  size : (s.evaluate scope n).2.1.frameSize.toInt = scope.frameSize.toInt + 4 * names.length
  /-- The place of a new name is no other name's. -/
  apart : ∀ x ∈ names, ∀ y w, (s.evaluate scope n).2.1.place? x = some w →
    (s.evaluate scope n).2.1.place? y = some w → y = x
  /-- A function that is known stays what it is, its result's type too. -/
  functions : ∀ f r, s.routines.get? f = some r →
    (s.evaluate scope n).2.2.routines.get? f = some r
  /-- A function's declaration leaves the scope around it as it is. -/
  function : ∀ i f ps body, n = .function i f ps body → (s.evaluate scope n).2.1 = scope

end Session

/-- Evaluating a node of any shape only adds, whatever its result or its error: to any session,
and to any scope that comes about. -/
theorem adds_of_reachable {scope : Scope} (hscope : scope.Reachable) (s : Session) (n : Node Nat)
    (hsmall : (s.evaluate scope n).2.1.locals + (s.evaluate scope n).2.1.params < 2 ^ 29 - 1) :
    ∃ lines names, s.Adds scope n lines names := by
  obtain ⟨ps, ds, hholds⟩ := Scope.holds_of_reachable hscope
  obtain ⟨names, hgrown⟩ := Scope.grown_of_evaluate s scope n
  refine ⟨(evaluate n ⟨scope, s.routines⟩).code, names, ?_⟩
  constructor
  · exact render_append _ _
  · exact fun before => rfl
  · exact hgrown
  · exact hgrown.frameSize (by omega)
  · intro x _ y w hx hy
    exact (hgrown.holds hholds).place_injective hsmall hy hx
  · exact (leads_evaluate n ⟨scope, s.routines⟩).routines
  · rintro i f fs body rfl
    exact leads_function_sameScope i f fs body ⟨scope, s.routines⟩

/-- A variable and a half of a function: the error in its body ends both. -/
theorem adds_half_a_function :
    let scope : Scope := ⟨⟨[("b", ⟨.int, 4⟩), ("a", ⟨.int, -8⟩)]⟩, 1, 1⟩
    let n : Node Nat :=
      .block 0 [.define 1 "x" (.str 2 "5"), .function 3 "g" ["x"] [.print 4 (.var 5 "b")]]
    (Session.new.evaluate scope n).1 = .error (.undeclaredVariable "b") ∧
      ∃ lines names, Session.new.Adds scope n lines names := by
  refine ⟨rfl, adds_of_reachable ?_ Session.new _ (by decide)⟩
  have hparam : Scope.empty.declareParam "a" = .ok (_, _) := rfl
  have hlocal : Scope.declareLocal ⟨⟨[("a", ⟨.int, -8⟩)]⟩, 0, 1⟩ "b" .int = .ok (_, _) := rfl
  exact .declareLocal (.declareParam .empty hparam) hlocal

end Onepass
