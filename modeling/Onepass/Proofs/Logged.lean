import Onepass.Logging
import Onepass.Proofs.Lowers

/-!
# Onepass.Proofs.Logged

What the log of a compilation says. Its tokens are those of the text, or those up to the first wrong
one (`fetched_of_run`, `fetched_of_wrong`). What is logged while code is emitted is told by the code
too: places that are made ready for local variables, routines that begin, and frames whose size is
known. Both tell the same in the same order.

* `tells_evaluate`   -- so it is of every node, also of one with an error in it. `Tells` is closed
  under sequences, so there is one step for each kind of node.
* `notes_of_compile` -- so it is of a listing and the log of its compilation.
-/

namespace Onepass

/-! ## Tokens -/

namespace Reader
namespace State

variable {s s' : State} {before : List Token}

/-- Tokens that can stand where they do are fetched, and then what comes behind them. -/
theorem fetched_append (h : s.run before = .ok s') (rest : List Token) :
    s.fetched (before ++ rest) = before ++ s'.fetched rest := by
  induction before generalizing s with
  | nil =>
    cases h
    rfl
  | cons t before ih =>
    rw [run] at h
    cases hstep : s.step t with
    | error stop =>
      rw [hstep] at h
      cases h
    | ok u =>
      rw [hstep] at h
      rw [List.cons_append, fetched, hstep, List.cons_append, ← ih h]

/-- A text that is read is fetched to its end. -/
theorem fetched_of_run (h : s.run before = .ok s') : s.fetched before = before := by
  have hall := fetched_append h []
  rwa [List.append_nil, fetched, List.append_nil] at hall

/-- A wrong token is the last that is fetched. -/
theorem fetched_of_wrong {t : Token} {stop : Stop} (h : s.run before = .ok s')
    (ht : s'.step t = .error stop) (after : List Token) :
    s.fetched (before ++ t :: after) = before ++ [t] := by
  rw [fetched_append h, fetched, ht]

end State
end Reader

/-! ## Code -/

open Assembly Lowering Emitter

/-- What code and log both tell of. -/
inductive Note where
  /-- A local variable has a place, and 0 in it. -/
  | zeroed (offset : Word)
  | entered (function : String)
  | sized (frameSize : Int)
  deriving DecidableEq, Repr

def Assembly.Line.note? : Line → Option Note
  | .instr (.mov (.slot offset) (.imm _)) => some (.zeroed offset)
  | .label (.routine f) => some (.entered f)
  | .equ _ frameSize => some (.sized frameSize)
  | _ => none

def Event.note? : Event → Option Note
  | .declaredLocal _ offset => some (.zeroed offset)
  | .declaredFunction f _ => some (.entered f)
  | .generatedFunction _ frameSize | .mainFrame frameSize => some (.sized frameSize.toInt)
  | _ => none

/-- The code of an emitter tells what `log` tells. -/
def Tells {α : Type} (x : Emitter α) (log : Tables → List Event) : Prop :=
  ∀ t, (x t).code.filterMap Line.note? = (log t).filterMap Event.note?

/-- The code of an emitter tells nothing. -/
abbrev Quiet {α : Type} (x : Emitter α) : Prop := Tells x fun _ => []

section

variable {α β : Type} {x : Emitter α} {f : α → Emitter β} {log : Tables → List Event}
  {more : α → Tables → List Event}

namespace Tells

theorem bind (hx : Tells x log) (hf : ∀ a, Tells (f a) (more a)) :
    Tells (x >>= f) fun t => log t ++ (x t).behind more := by
  intro t
  rw [List.filterMap_append, ← hx t]
  cases h : (x t).result with
  | ok a =>
    rw [bind_apply_ok h, Emission.behind_of_ok h, ← hf a]
    exact List.filterMap_append ..
  | error e =>
    rw [bind_apply_error h, Emission.behind_of_error h]
    exact (List.append_nil _).symm

/-- Behind the last that is told. -/
theorem bind_quiet (hx : Tells x log) (hf : ∀ a, Quiet (f a)) : Tells (x >>= f) log := by
  intro t
  rw [hx.bind hf t, List.filterMap_append]
  cases h : (x t).result with
  | ok a => rw [Emission.behind_of_ok h, List.filterMap_nil, List.append_nil]
  | error e => rw [Emission.behind_of_error h, List.filterMap_nil, List.append_nil]

/-- A frame has a scope of its own. -/
theorem inFrame (hx : Tells x log) :
    Tells (inFrame x) fun t => log { t with scope := .empty } := fun _ => hx _

theorem emit {code : List Line} {events : List Event}
    (h : code.filterMap Line.note? = events.filterMap Event.note?) :
    Tells (emit code) fun _ => events := fun _ => h

theorem instrs {code : List Instr} {events : List Event}
    (h : (code.map Line.instr).filterMap Line.note? = events.filterMap Event.note?) :
    Tells (instrs code) fun _ => events := emit h

theorem emit_bind {code : List Line} {events : List Event} {f : Unit → Emitter β}
    (h : code.filterMap Line.note? = events.filterMap Event.note?) (hf : Tells (f ()) log) :
    Tells (Emitter.emit code >>= f) fun t => events ++ log t := by
  have hboth : Tells (Emitter.emit code >>= f) fun t =>
      events ++ (Emitter.emit code t).behind fun _ => log := bind (emit h) fun _ => hf
  exact hboth

/-- Lines that tell nothing are passed over. -/
theorem skip_emit {code : List Line} {f : Unit → Emitter β}
    (h : code.filterMap Line.note? = []) (hf : Tells (f ()) log) :
    Tells (Emitter.emit code >>= f) log := by
  have hcode : code.filterMap Line.note? = ([] : List Event).filterMap Event.note? := h
  exact emit_bind hcode hf

theorem skip_instrs {code : List Instr} {f : Unit → Emitter β}
    (h : (code.map Line.instr).filterMap Line.note? = []) (hf : Tells (f ()) log) :
    Tells (Emitter.instrs code >>= f) log := skip_emit h hf

end Tells

namespace Quiet

/-- Before the first that is told. -/
theorem bind (hx : Quiet x) (hf : ∀ a, Tells (f a) (more a)) :
    Tells (x >>= f) fun t => (x t).behind more := Tells.bind hx hf

theorem pure (a : α) : Quiet (Pure.pure a) := fun _ => rfl

theorem ofExcept (r : Except Error α) : Quiet (ofExcept r) := fun _ => rfl

theorem find (name : String) : Quiet (find name) := fun _ => rfl

theorem findRoutine (name : String) : Quiet (findRoutine name) := fun _ => rfl

theorem changeScope (change : Scope → Except Error (α × Scope)) : Quiet (changeScope change) := by
  intro t
  rw [Emitter.changeScope]
  split <;> rfl

theorem declareRoutine (name : String) (params : List String) :
    Quiet (declareRoutine name params) := by
  intro t
  rw [Emitter.declareRoutine]
  split <;> rfl

theorem declareParams (params : List String) : Quiet (declareParams params) := by
  induction params with
  | nil => exact .pure ()
  | cons x params ih => exact (Quiet.changeScope _).bind_quiet fun _ => ih

end Quiet

end

theorem note?_code (op : BinaryOp) : op.code.filterMap Line.note? = [] := by
  rcases op with op | op | _
  · cases op <;> rfl
  · cases op <;> rfl
  · rfl

/-- The size of a frame is that of its scope, whatever is noted of the result. -/
theorem tells_finish (id : Nat) (f : String) (ty : Ty) :
    Tells (do noteResult f ty; emit (finish id (← frameSize)))
      fun t => [.generatedFunction f t.scope.frameSize] := by
  intro t
  by_cases hty : ty = .void
  · rw [noteResult, if_pos hty]
    rfl
  · rw [noteResult, if_neg hty]
    rfl

mutual

theorem tells_evaluate : ∀ n : Node Nat, Tells (evaluate n) n.log
  | .var _ x => by
    simp only [evaluate]
    exact (Quiet.find x).bind_quiet fun _ => .skip_instrs rfl (Quiet.pure _)
  | .int _ _ | .read _ => by
    simp only [evaluate]
    exact .skip_instrs rfl (Quiet.pure _)
  | .str _ _ => by
    simp only [evaluate]
    exact .skip_emit rfl (Quiet.pure _)
  | .binary _ op left right => by
    simp only [evaluate]
    refine (tells_evaluate right).bind fun _ => .skip_instrs rfl ?_
    refine (tells_evaluate left).bind_quiet fun _ => .skip_instrs rfl ?_
    exact (Quiet.ofExcept _).bind_quiet fun _ => .skip_emit (note?_code op) (Quiet.pure _)
  | .unary _ op operand => by
    simp only [evaluate]
    refine (tells_evaluate operand).bind_quiet fun _ => (Quiet.ofExcept _).bind_quiet fun _ => ?_
    cases op <;> exact .skip_instrs rfl (Quiet.pure _)
  | .call _ f args => by
    simp only [evaluate]
    refine (Quiet.findRoutine f).bind fun routine => (Quiet.ofExcept _).bind fun _ => ?_
    refine (tells_pushArgs args).bind_quiet fun _ => .skip_instrs ?_ (Quiet.pure _)
    rw [callCode]
    split <;> rfl
  | .assign _ x value => by
    simp only [evaluate]
    refine (tells_evaluate value).bind_quiet fun _ => (Quiet.changeScope _).bind_quiet fun _ => ?_
    exact .skip_instrs rfl (Quiet.pure _)
  | .declare _ x => by
    simp only [evaluate]
    refine (Quiet.changeScope _).bind fun slot => ?_
    exact Tells.bind_quiet (.instrs rfl) fun _ => .pure _
  | .define _ x value => by
    simp only [evaluate]
    refine (Quiet.changeScope _).bind fun slot => ?_
    have hslot : [Line.instr (.mov (.slot slot.offset) (.imm 0))].filterMap Line.note? =
      [Event.declaredLocal x slot.offset].filterMap Event.note? := rfl
    refine .emit_bind hslot ?_
    refine (tells_evaluate value).bind_quiet fun _ => (Quiet.changeScope _).bind_quiet fun _ => ?_
    exact .skip_instrs rfl (Quiet.pure _)
  | .print _ value | .ret _ value => by
    simp only [evaluate]
    exact (tells_evaluate value).bind_quiet fun _ => .skip_instrs rfl (Quiet.pure _)
  | .branch _ cond yes no => by
    simp only [evaluate]
    refine (tells_evaluate cond).bind fun _ => .skip_instrs rfl ?_
    refine (tells_evaluateBlock yes).bind fun _ => .skip_emit rfl ?_
    exact (tells_evaluateBlock no).bind_quiet fun _ => .skip_emit rfl (Quiet.pure _)
  | .loop _ cond body => by
    simp only [evaluate]
    refine .skip_emit rfl ((tells_evaluate cond).bind fun _ => .skip_instrs rfl ?_)
    exact (tells_evaluateBlock body).bind_quiet fun _ => .skip_emit rfl (Quiet.pure _)
  | .function id f params body => by
    simp only [evaluate]
    refine (Quiet.declareRoutine f params).bind fun _ => ?_
    have henter : (enter id f).filterMap Line.note? =
      [Event.declaredFunction f params.length].filterMap Event.note? := rfl
    refine .emit_bind henter ?_
    have hbody := (Quiet.declareParams params).bind fun _ =>
      (tells_evaluateBlock body).bind fun result => tells_finish id f result.ty
    exact Tells.bind_quiet hbody.inFrame fun _ => .pure _
  | .block _ body => by
    simp only [evaluate]
    exact tells_evaluateBlock body
  | .skip _ => by
    simp only [evaluate]
    exact Quiet.pure _

theorem tells_evaluateBlock :
    ∀ body : List (Node Nat), Tells (evaluateBlock body) (Node.logBlock body)
  | [] => by
    simp only [evaluateBlock]
    exact Quiet.pure _
  | s :: rest => by
    simp only [evaluateBlock]
    intro t
    rw [Node.logBlock]
    cases s.isReturn with
    | true =>
      rw [if_pos rfl, List.append_nil]
      exact (tells_evaluate s).bind_quiet (fun _ => .pure _) t
    | false =>
      rw [if_neg Bool.false_ne_true]
      exact (tells_evaluate s).bind (fun _ => tells_evaluateBlock rest) t

theorem tells_pushArgs : ∀ args : List (Node Nat), Tells (pushArgs args) (Node.logArgs args)
  | [] => by
    simp only [pushArgs]
    exact Quiet.pure _
  | a :: rest => by
    simp only [pushArgs]
    refine (tells_pushArgs rest).bind fun _ => ?_
    have hpush : Quiet (instrs [.push (.reg .eax)]) := .instrs rfl
    exact (tells_evaluate a).bind_quiet fun _ => hpush

end

/-- A program tells what is logged of it, as far as it is compiled. -/
theorem notes_of_program (root : Node Nat) (t : Tables) :
    (program root t).code.filterMap Line.note? = (root.logProgram t).filterMap Event.note? := by
  have hsize : Tells (do emit [.equ .mainFrameSize (← frameSize).toInt]) fun t =>
      [.mainFrame t.scope.frameSize] := fun _ => rfl
  have hprogram : Tells (program root) root.logProgram :=
    .skip_instrs rfl ((tells_evaluate root).bind fun _ => hsize)
  exact hprogram t

/-- The lines of a listing, and what was logged while its source was compiled. -/
theorem notes_of_compile {source : String} {listing : Listing}
    (h : compile source = .ok listing) :
    listing.body.filterMap Line.note? = (Compiler.new.log source).filterMap Event.note? := by
  obtain ⟨root, hroot, hlisting⟩ := compile_eq_ok.mp h
  have hbody : listing.body = (program root ⟨.empty, .empty⟩).code := by
    rw [generate, generateWith] at hlisting
    cases hresult : (program root ⟨.empty, .empty⟩).result with
    | error e =>
      rw [hresult] at hlisting
      cases hlisting
    | ok u =>
      rw [hresult] at hlisting
      cases hlisting
      rfl
  have htokens (ts : List Token) : (ts.map Event.token).filterMap Event.note? = [] := by
    simp [Event.note?]
  have hparsed : (Source.parse source Compiler.new.nextId).1 = .ok root := hroot
  rw [Compiler.log, hparsed, List.filterMap_append, htokens, hbody, notes_of_program]
  rfl

/-- The tokens come first, then the number of statements, then what the code tells. -/
example : Compiler.new.log "local x\n" =
    [.token ⟨.mark .kLocal, 1⟩, .token ⟨.ident "x", 1⟩, .token ⟨.mark .newline, 1⟩,
      .token ⟨.mark .eof, 2⟩, .parsed 1, .declaredLocal "x" 4, .mainFrame 4] := by
  decide +kernel

end Onepass
