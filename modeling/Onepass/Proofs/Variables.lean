import Onepass.Proofs.Growth

/-!
# Onepass.Proofs.Variables

A scope over any sequence of calls. What it answers is a matter of the calls so far and of what was
said to them: who was declared, in which order and as what, and who has been given a new type
since. `Answers` is that account, which knows of no scope, and `Records` says that a scope and a
history agree.

* `records_reply`      -- one call keeps the agreement.
* `answers_of_history` -- so every reply of a run is the one that the history before it asks for; a
  call that is refused changes nothing, and no two names ever share a place.
-/

namespace Onepass
namespace Scope

/-- What a scope can be called for. -/
inductive Call where
  | declareLocal (x : String) (ty : Ty)
  | declareParam (x : String)
  | find (x : String)
  | retag (x : String) (ty : Ty)
  | frameSize
  deriving DecidableEq, Repr

inductive Reply where
  | slot (slot : Slot)
  | size (n : Word)
  | refused (e : Error)
  deriving DecidableEq, Repr

/-- A scope that refuses a call is the scope from there on. -/
def orElse (s : Scope) : Except Error (Slot × Scope) → Reply × Scope
  | .ok (slot, s') => (.slot slot, s')
  | .error e => (.refused e, s)

/-- The reply to a call, and the scope from there on. -/
def reply (s : Scope) : Call → Reply × Scope
  | .declareLocal x ty => s.orElse (s.declareLocal x ty)
  | .declareParam x => s.orElse (s.declareParam x)
  | .find x => s.orElse ((s.find x).map fun slot => (slot, s))
  | .retag x ty => s.orElse (s.retag x ty)
  | .frameSize => (.size s.frameSize, s)

/-- The scope behind calls. -/
def after (s : Scope) (calls : List Call) : Scope := calls.foldl (fun s c => (s.reply c).2) s

/-- Calls and what was said to them, in order. -/
abbrev History := List (Call × Reply)

/-- The calls with the replies of the scope. -/
def history (s : Scope) : List Call → History
  | [] => []
  | c :: calls => (c, (s.reply c).1) :: (s.reply c).2.history calls

namespace History

/-- The local variables that were declared, in order. -/
def locals (past : History) : List String :=
  past.filterMap fun
    | (.declareLocal x _, .slot _) => some x
    | _ => none

/-- The parameters that were declared, in order. -/
def params (past : History) : List String :=
  past.filterMap fun
    | (.declareParam x, .slot _) => some x
    | _ => none

/-- What was said when `x` was declared. -/
def declared? (past : History) (x : String) : Option Slot :=
  past.findSome? fun
    | (.declareLocal y _, .slot slot) | (.declareParam y, .slot slot) =>
      if y = x then some slot else none
    | _ => none

/-- The type that `x` was given last, if it was given one after its declaration. -/
def retagged? (past : History) (x : String) : Option Ty :=
  (past.filterMap fun
    | (.retag y ty, .slot _) => if y = x then some ty else none
    | _ => none).getLast?

/-- What is said to a call behind a history. -/
def Answers (past : History) : Call → Reply → Prop
  | .declareLocal x ty, r =>
    match past.declared? x with
    | some _ => r = .refused (.duplicateVariable x)
    | none => ∃ w : Word, w.toInt = 4 * (past.locals.length + 1 : Nat) ∧ r = .slot ⟨ty, w⟩
  | .declareParam x, r =>
    match past.declared? x with
    | some _ => r = .refused (.duplicateVariable x)
    | none => ∃ w : Word, w.toInt = -4 * (past.params.length + 1 + 1 : Nat) ∧ r = .slot ⟨.int, w⟩
  | .find x, r =>
    match past.declared? x with
    | some slot => r = .slot ⟨(past.retagged? x).getD slot.ty, slot.offset⟩
    | none => r = .refused (.undeclaredVariable x)
  | .retag x ty, r =>
    match past.declared? x with
    | some slot => r = .slot ⟨ty, slot.offset⟩
    | none => r = .refused (.undeclaredVariable x)
  | .frameSize, r => ∃ w : Word, w.toInt = 4 * past.locals.length ∧ r = .size w

/-- The number of declarations that were not refused. -/
def granted (past : History) : Nat := past.locals.length + past.params.length

variable {past : History}

theorem locals_append (past more : History) : locals (past ++ more) = past.locals ++ more.locals :=
  List.filterMap_append

theorem params_append (past more : History) : params (past ++ more) = past.params ++ more.params :=
  List.filterMap_append

theorem declared?_append (past more : History) (x : String) :
    declared? (past ++ more) x = (past.declared? x).or (more.declared? x) :=
  List.findSome?_append

theorem retagged?_append (past more : History) (x : String) :
    retagged? (past ++ more) x = (more.retagged? x).or (past.retagged? x) := by
  rw [retagged?, List.filterMap_append, List.getLast?_append]
  rfl

theorem granted_append (past more : History) :
    granted (past ++ more) = past.granted + more.granted := by
  rw [granted, locals_append, params_append, List.length_append, List.length_append, granted,
    granted]
  omega

/-- Nothing was declared, and nothing was given another type. -/
structure Still (more : History) : Prop where
  locals : more.locals = []
  params : more.params = []
  declared : ∀ x, more.declared? x = none
  retagged : ∀ x, more.retagged? x = none

theorem still_refused (c : Call) (e : Error) : Still [(c, .refused e)] := by
  refine ⟨?_, ?_, ?_, ?_⟩
  · cases c <;> rfl
  · cases c <;> rfl
  · intro x
    cases c <;> rfl
  · intro x
    cases c <;> rfl

theorem still_find (x : String) (slot : Slot) : Still [(.find x, .slot slot)] :=
  ⟨rfl, rfl, fun _ => rfl, fun _ => rfl⟩

theorem still_frameSize (n : Word) : Still [(.frameSize, .size n)] :=
  ⟨rfl, rfl, fun _ => rfl, fun _ => rfl⟩

end History

open History

/-- The scope agrees with the history. -/
structure Records (s : Scope) (past : History) : Prop where
  holds : s.Holds past.params past.locals
  slots : ∀ x, s.slots.get? x =
    (past.declared? x).map fun slot => ⟨(past.retagged? x).getD slot.ty, slot.offset⟩
  /-- Only what was declared was given another type. -/
  untagged : ∀ x, past.declared? x = none → past.retagged? x = none

namespace Records

variable {s s' : Scope} {past more : History} {x : String} {ty : Ty} {slot : Slot}

theorem start : Scope.empty.Records [] :=
  ⟨.empty, by intro x; rfl, by intro x _; rfl⟩

theorem still (h : s.Records past) (hmore : more.Still) : s.Records (past ++ more) := by
  have hdeclared : ∀ x, declared? (past ++ more) x = past.declared? x := by
    intro x
    rw [declared?_append, hmore.declared, Option.or_none]
  have hretagged : ∀ x, retagged? (past ++ more) x = past.retagged? x := by
    intro x
    rw [retagged?_append, hmore.retagged, Option.none_or]
  refine ⟨?_, ?_, ?_⟩
  · rw [locals_append, params_append, hmore.locals, hmore.params, List.append_nil, List.append_nil]
    exact h.holds
  · intro x
    rw [hdeclared, hretagged]
    exact h.slots x
  · intro x
    rw [hdeclared, hretagged]
    exact h.untagged x

/-- A name that is declared is new, to the scope and to the history. -/
theorem declared?_eq_none (h : s.Records past) (hx : s.place? x = none) :
    past.declared? x = none := by
  rw [place?, h.slots] at hx
  simpa using hx

/-- The slots behind a declaration are those that the history asks for. -/
theorem insert (h : s.Records past) (slot : Slot) (hx : past.declared? x = none)
    (hmore : ∀ y, more.declared? y = if y = x then some slot else none)
    (htags : ∀ y, more.retagged? y = none)
    (hholds : s'.Holds (History.params (past ++ more)) (History.locals (past ++ more)))
    (hslots : s'.slots = s.slots.insert x slot) : s'.Records (past ++ more) := by
  have hretagged : ∀ y, retagged? (past ++ more) y = past.retagged? y := by
    intro y
    rw [retagged?_append, htags, Option.none_or]
  refine ⟨hholds, ?_, ?_⟩
  · intro y
    rw [hslots, Dictionary.get?_insert, declared?_append, hretagged, hmore]
    by_cases hy : y = x
    · subst hy
      rw [if_pos rfl, if_pos rfl, hx, h.untagged y hx]
      rfl
    · rw [if_neg hy, if_neg hy, Option.or_none]
      exact h.slots y
  · intro y hy
    rw [declared?_append, Option.or_eq_none_iff] at hy
    rw [hretagged]
    exact h.untagged y hy.1

theorem declareLocal (h : s.Records past) (hd : s.declareLocal x ty = .ok (slot, s')) :
    s'.Records (past ++ [(.declareLocal x ty, .slot slot)]) := by
  have hholds := h.holds.declareLocal hd
  obtain ⟨hnew, hslot, rfl⟩ := declareLocal_eq_ok hd
  refine h.insert slot (h.declared?_eq_none hnew) ?_ (fun _ => rfl) ?_ rfl
  · intro y
    by_cases hy : y = x
    · simp [declared?, hy]
    · simp [declared?, hy, Ne.symm hy]
  · rw [locals_append, params_append]
    simpa [History.locals, History.params] using hholds

theorem declareParam (h : s.Records past) (hd : s.declareParam x = .ok (slot, s')) :
    s'.Records (past ++ [(.declareParam x, .slot slot)]) := by
  have hholds := h.holds.declareParam hd
  obtain ⟨hnew, hslot, rfl⟩ := declareParam_eq_ok hd
  refine h.insert slot (h.declared?_eq_none hnew) ?_ (fun _ => rfl) ?_ rfl
  · intro y
    by_cases hy : y = x
    · simp [declared?, hy]
    · simp [declared?, hy, Ne.symm hy]
  · rw [locals_append, params_append]
    simpa [History.locals, History.params] using hholds

theorem retag (h : s.Records past) (hr : s.retag x ty = .ok (slot, s')) :
    s'.Records (past ++ [(.retag x ty, .slot slot)]) := by
  have hholds := h.holds.retag hr
  simp only [Scope.retag] at hr
  split at hr
  · rename_i old hold
    cases hr
    have hretagged : ∀ y, retagged? (past ++ [(.retag x ty, .slot { old with ty })]) y =
        if y = x then some ty else past.retagged? y := by
      intro y
      rw [retagged?_append]
      by_cases hy : y = x
      · simp [retagged?, hy]
      · simp [retagged?, hy, Ne.symm hy]
    have hdeclared : ∀ y, declared? (past ++ [(.retag x ty, .slot { old with ty })]) y =
        past.declared? y := by
      intro y
      rw [declared?_append]
      exact Option.or_none
    refine ⟨?_, ?_, ?_⟩
    · rw [locals_append, params_append]
      simpa [History.locals, History.params] using hholds
    · intro y
      rw [Dictionary.get?_modify, hdeclared, hretagged, h.slots]
      by_cases hy : y = x
      · cases past.declared? y <;> simp [hy]
      · simp [hy]
    · intro y hy
      rw [hdeclared] at hy
      by_cases hyx : y = x
      · subst hyx
        rw [h.slots, hy] at hold
        cases hold
      · rw [hretagged, if_neg hyx]
        exact h.untagged y hy
  · cases hr

end Records

/-- One call keeps the agreement. -/
theorem records_reply {s : Scope} {past : History} (h : s.Records past) (c : Call) :
    (s.reply c).2.Records (past ++ [(c, (s.reply c).1)]) := by
  cases c with
  | declareLocal x ty =>
    rw [reply]
    cases hd : s.declareLocal x ty with
    | error e => exact h.still (still_refused _ e)
    | ok p => exact h.declareLocal hd
  | declareParam x =>
    rw [reply]
    cases hd : s.declareParam x with
    | error e => exact h.still (still_refused _ e)
    | ok p => exact h.declareParam hd
  | find x =>
    rw [reply]
    cases hf : s.find x with
    | error e => exact h.still (still_refused _ e)
    | ok slot => exact h.still (still_find x slot)
  | retag x ty =>
    rw [reply]
    cases hr : s.retag x ty with
    | error e => exact h.still (still_refused _ e)
    | ok p => exact h.retag hr
  | frameSize => exact h.still (still_frameSize _)

/-- A run keeps it. -/
theorem records_after {s : Scope} {past : History} (h : s.Records past) (calls : List Call) :
    (s.after calls).Records (past ++ s.history calls) := by
  induction calls generalizing s past with
  | nil => simpa [after, history] using h
  | cons c calls ih =>
    have hrest := ih (records_reply h c)
    rwa [List.append_assoc] at hrest

theorem records_of_calls (calls : List Call) :
    (empty.after calls).Records (empty.history calls) := records_after .start calls

variable {s : Scope} {past : History}

/-- Nothing is there but what was declared. -/
theorem Records.contains_iff (h : s.Records past) (x : String) :
    s.slots.contains x = true ↔ (past.declared? x).isSome = true := by
  rw [Dictionary.contains, h.slots, Option.isSome_map]

theorem Records.reply_declareLocal (h : s.Records past) (x : String) (ty : Ty) :
    (s.reply (.declareLocal x ty)).1 = if (past.declared? x).isSome
      then .refused (.duplicateVariable x)
      else .slot ⟨ty, localOffset (past.locals.length + 1)⟩ := by
  rw [reply, Scope.declareLocal, ← h.holds.locals]
  by_cases hx : (past.declared? x).isSome = true
  · rw [if_pos hx, if_pos ((h.contains_iff x).mpr hx)]
    rfl
  · rw [if_neg hx, if_neg (mt (h.contains_iff x).mp hx)]
    rfl

theorem Records.reply_declareParam (h : s.Records past) (x : String) :
    (s.reply (.declareParam x)).1 = if (past.declared? x).isSome
      then .refused (.duplicateVariable x)
      else .slot ⟨.int, paramOffset (past.params.length + 1)⟩ := by
  rw [reply, Scope.declareParam, ← h.holds.params]
  by_cases hx : (past.declared? x).isSome = true
  · rw [if_pos hx, if_pos ((h.contains_iff x).mpr hx)]
    rfl
  · rw [if_neg hx, if_neg (mt (h.contains_iff x).mp hx)]
    rfl

theorem toInt_localOffset {n : Nat} (h : n < 2 ^ 29) : (localOffset n).toInt = 4 * (n : Int) := by
  rw [localOffset, Word.toInt_ofNat (by omega)]
  omega

theorem toInt_paramOffset {n : Nat} (h : n + 1 < 2 ^ 29) :
    (paramOffset n).toInt = -4 * (n + 1 : Nat) := by
  have hn := Word.toInt_ofNat (k := 4 * (n + 1)) (by omega)
  have hmin : Word.ofNat (4 * (n + 1)) ≠ BitVec.intMin 32 := by
    intro heq
    rw [heq] at hn
    have hneg : (BitVec.intMin 32).toInt = -2147483648 := by decide
    omega
  rw [paramOffset, BitVec.toInt_neg_of_ne_intMin hmin, hn]
  omega

/-- A reply is the one that the history asks for. -/
theorem answers_reply (h : s.Records past) (c : Call)
    (hsmall : granted (past ++ [(c, (s.reply c).1)]) < 2 ^ 29 - 1) :
    past.Answers c (s.reply c).1 := by
  rw [granted_append] at hsmall
  cases c with
  | declareLocal x ty =>
    rw [h.reply_declareLocal] at hsmall ⊢
    cases hx : past.declared? x with
    | some slot =>
      simp only [Answers, hx]
      rfl
    | none =>
      simp only [hx] at hsmall
      change past.granted + 1 < _ at hsmall
      rw [granted] at hsmall
      simp only [Answers, hx]
      exact ⟨_, toInt_localOffset (by omega), rfl⟩
  | declareParam x =>
    rw [h.reply_declareParam] at hsmall ⊢
    cases hx : past.declared? x with
    | some slot =>
      simp only [Answers, hx]
      rfl
    | none =>
      simp only [hx] at hsmall
      change past.granted + 1 < _ at hsmall
      rw [granted] at hsmall
      simp only [Answers, hx]
      exact ⟨_, toInt_paramOffset (by omega), rfl⟩
  | find x =>
    simp only [reply, find, h.slots, Answers]
    cases past.declared? x <;> rfl
  | retag x ty =>
    simp only [reply, Scope.retag, h.slots, Answers]
    cases past.declared? x <;> rfl
  | frameSize =>
    rw [granted] at hsmall
    refine ⟨_, ?_, rfl⟩
    rw [frameSize, h.holds.locals, toInt_localOffset (by omega)]

/-- A call that is refused leaves the scope as it is. -/
theorem reply_of_refused {c : Call} {e : Error} (h : (s.reply c).1 = .refused e) :
    (s.reply c).2 = s := by
  have hkeep : ∀ r : Except Error (Slot × Scope), (s.orElse r).1 = .refused e →
      (s.orElse r).2 = s := by
    intro r hr
    cases r with
    | error e' => rfl
    | ok p => cases hr
  cases c with
  | declareLocal x ty => exact hkeep _ h
  | declareParam x => exact hkeep _ h
  | find x => exact hkeep _ h
  | retag x ty => exact hkeep _ h
  | frameSize => cases h

theorem history_append (s : Scope) (calls more : List Call) :
    s.history (calls ++ more) = s.history calls ++ (s.after calls).history more := by
  induction calls generalizing s with
  | nil => rfl
  | cons c calls ih =>
    rw [List.cons_append, history, ih]
    rfl

/-- Two names that were declared have places that read differently. -/
theorem Records.address_ne (h : s.Records past) (hsmall : past.granted < 2 ^ 29 - 1) {x y : String}
    {a b : Slot} (hx : past.declared? x = some a) (hy : past.declared? y = some b) (hne : x ≠ y) :
    a.address ≠ b.address := by
  have hplace : ∀ z slot, past.declared? z = some slot → s.place? z = some slot.offset := by
    intro z slot hz
    rw [place?, h.slots, hz]
    rfl
  have hcount : past.params.length + past.locals.length < 2 ^ 29 - 1 := by
    rw [granted] at hsmall
    omega
  intro haddress
  refine hne (h.holds.address_injective hcount (h.holds.known x _ (hplace x a hx))
    (h.holds.known y _ (hplace y b hy)) ?_)
  rw [address, address, address?, address?, hplace x a hx, hplace y b hy]
  exact haddress

/-- A scope that starts out empty, called any number of times. Each reply is the one that the calls
and replies before it ask for, and behind a refusal the scope is what it was. Whatever two names
were declared, their places read differently. -/
theorem answers_of_history (calls : List Call)
    (hsmall : (empty.history calls).granted < 2 ^ 29 - 1) :
    (∀ before c rest, calls = before ++ c :: rest →
      (empty.history before).Answers c ((empty.after before).reply c).1 ∧
      ∀ e, ((empty.after before).reply c).1 = .refused e →
        ((empty.after before).reply c).2 = empty.after before) ∧
    ∀ x y a b, (empty.history calls).declared? x = some a →
      (empty.history calls).declared? y = some b → x ≠ y → a.address ≠ b.address := by
  constructor
  · rintro before c rest rfl
    refine ⟨answers_reply (records_of_calls before) c ?_, fun e => reply_of_refused⟩
    rw [List.append_cons, history_append, granted_append, history_append] at hsmall
    exact Nat.lt_of_le_of_lt (Nat.le_add_right _ _) hsmall
  · intro x y a b
    exact (records_of_calls calls).address_ne hsmall

/-- Both kinds of declaration in turn, each with a call that is refused behind it. -/
theorem answers_of_mixedCalls :
    let calls : List Call := [.declareParam "a", .declareLocal "x" .int, .declareLocal "a" .string,
      .declareParam "b", .retag "x" .string, .retag "y" .int, .declareLocal "y" .string, .find "x",
      .find "z", .frameSize]
    (empty.history calls).granted = 4 ∧
      (∀ before c rest, calls = before ++ c :: rest →
        (empty.history before).Answers c ((empty.after before).reply c).1) ∧
      (empty.history calls).map (·.2) = [.slot ⟨.int, -8⟩, .slot ⟨.int, 4⟩,
        .refused (.duplicateVariable "a"), .slot ⟨.int, -12⟩, .slot ⟨.string, 4⟩,
        .refused (.undeclaredVariable "y"), .slot ⟨.string, 8⟩, .slot ⟨.string, 4⟩,
        .refused (.undeclaredVariable "z"), .size 8] := by
  intro calls
  have hcount : (empty.history calls).granted = 4 := by decide
  refine ⟨hcount, ?_, by decide⟩
  intro before c rest hcalls
  exact ((answers_of_history calls (by rw [hcount]; decide)).1 before c rest hcalls).1

end Scope
end Onepass
