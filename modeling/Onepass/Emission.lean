import Onepass.Routine
import Onepass.Scope

/-!
# Onepass.Emission

Computations that emit code. An `Emitter` reads and changes the tables of declared names, emits
lines, and ends with a result or an error. The lines emitted and the names declared before an
error stay. Lines are only ever added behind those there are, so an emitter does not see them
and says only which it adds.
-/

namespace Onepass

/-- The names declared so far. -/
structure Tables where
  scope : Scope
  routines : Routines

/-- What an emitter did. -/
structure Emission (α : Type) where
  code : List Assembly.Line
  tables : Tables
  result : Except Error α

def Emitter (α : Type) : Type := Tables → Emission α

namespace Emitter

variable {α β : Type}

def pure (a : α) : Emitter α := fun t => ⟨[], t, .ok a⟩

def bind (x : Emitter α) (f : α → Emitter β) : Emitter β := fun t =>
  let first := x t
  match first.result with
  | .ok a =>
    let second := f a first.tables
    ⟨first.code ++ second.code, second.tables, second.result⟩
  | .error e => ⟨first.code, first.tables, .error e⟩

instance : Monad Emitter where
  pure := Emitter.pure
  bind := Emitter.bind

theorem pure_apply (a : α) (t : Tables) : (Pure.pure a : Emitter α) t = ⟨[], t, .ok a⟩ := rfl

theorem bind_apply_ok {x : Emitter α} {f : α → Emitter β} {t : Tables} {a : α}
    (h : (x t).result = .ok a) :
    (x >>= f) t =
      let second := f a (x t).tables
      ⟨(x t).code ++ second.code, second.tables, second.result⟩ := by
  show Emitter.bind x f t = _
  simp only [Emitter.bind, h]

theorem bind_apply_error {x : Emitter α} {f : α → Emitter β} {t : Tables} {e : Error}
    (h : (x t).result = .error e) : (x >>= f) t = ⟨(x t).code, (x t).tables, .error e⟩ := by
  show Emitter.bind x f t = _
  simp only [Emitter.bind, h]

def emit (code : List Assembly.Line) : Emitter Unit := fun t => ⟨code, t, .ok ()⟩

def instrs (code : List Assembly.Instr) : Emitter Unit := emit (code.map .instr)

/-- The value of a check that emits nothing. -/
def ofExcept (r : Except Error α) : Emitter α := fun t => ⟨[], t, r⟩

def find (name : String) : Emitter Slot := fun t => ⟨[], t, t.scope.find name⟩

/-- Does `change` to the scope; nothing where it fails. -/
def changeScope (change : Scope → Except Error (α × Scope)) : Emitter α := fun t =>
  match change t.scope with
  | .ok (a, scope) => ⟨[], { t with scope }, .ok a⟩
  | .error e => ⟨[], t, .error e⟩

def findRoutine (name : String) : Emitter Routine := fun t => ⟨[], t, t.routines.find name⟩

def declareRoutine (name : String) (params : List String) : Emitter Unit := fun t =>
  match t.routines.declare name params with
  | .ok routines => ⟨[], { t with routines }, .ok ()⟩
  | .error e => ⟨[], t, .error e⟩

def returning (name : String) (ty : Ty) : Emitter Unit := fun t =>
  ⟨[], { t with routines := t.routines.returning name ty }, .ok ()⟩

def frameSize : Emitter Word := fun t => ⟨[], t, .ok t.scope.frameSize⟩

/-- Runs an emitter in a scope of its own. The scope around it is the same afterwards, whatever
happens. -/
def inFrame (x : Emitter α) : Emitter α := fun t =>
  let inner := x { t with scope := .empty }
  { inner with tables := { inner.tables with scope := t.scope } }

end Emitter
end Onepass
