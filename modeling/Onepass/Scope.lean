import Onepass.Assembly.Line
import Onepass.Dictionary
import Onepass.Error

/-!
# Onepass.Scope

The variables of one frame: of the top level or of one function's body. Scopes do not nest and
do not see each other.

Local variables lie below the base of the frame, the first at offset 4, the next at 8.
Parameters lie above it, behind the saved base and the return address: the first at offset -8,
the next at -12. A name stands for one variable only, and its place never moves.
-/

namespace Onepass

/-- A variable: the type of what it was last given, and its place. -/
structure Slot where
  ty : Ty
  offset : Word
  deriving DecidableEq, Repr

namespace Slot

def address (s : Slot) : String := Assembly.address s.offset

end Slot

structure Scope where
  slots : Dictionary Slot
  locals : Nat
  params : Nat

namespace Scope

def empty : Scope := ⟨.empty, 0, 0⟩

/-- The place of the `n`-th local variable, counted from 1. -/
def localOffset (n : Nat) : Word := Word.ofNat (4 * n)

/-- The place of the `n`-th parameter, counted from 1. -/
def paramOffset (n : Nat) : Word := -Word.ofNat (4 * (n + 1))

def find (s : Scope) (name : String) : Except Error Slot :=
  match s.slots.get? name with
  | some slot => .ok slot
  | none => .error (.undeclaredVariable name)

def declareLocal (s : Scope) (name : String) (ty : Ty) : Except Error (Slot × Scope) :=
  if s.slots.contains name then .error (.duplicateVariable name)
  else
    let slot := ⟨ty, localOffset (s.locals + 1)⟩
    .ok (slot, { s with slots := s.slots.insert name slot, locals := s.locals + 1 })

/-- A parameter counts as an integer until it is given something else. -/
def declareParam (s : Scope) (name : String) : Except Error (Slot × Scope) :=
  if s.slots.contains name then .error (.duplicateVariable name)
  else
    let slot := ⟨.int, paramOffset (s.params + 1)⟩
    .ok (slot, { s with slots := s.slots.insert name slot, params := s.params + 1 })

/-- The variable holds something of type `ty` from here on. -/
def retag (s : Scope) (name : String) (ty : Ty) : Except Error (Slot × Scope) :=
  match s.slots.get? name with
  | some slot =>
    let slots := s.slots.modify name fun slot => { slot with ty }
    .ok ({ slot with ty }, { s with slots })
  | none => .error (.undeclaredVariable name)

theorem find_of_declareLocal {s s' : Scope} {x : String} {ty : Ty} {slot : Slot}
    (h : s.declareLocal x ty = .ok (slot, s')) : s'.find x = .ok slot := by
  simp only [declareLocal] at h
  split at h
  · cases h
  · cases h
    simp [find, Dictionary.get?_insert]

theorem find_of_retag {s s' : Scope} {x : String} {ty : Ty} {slot : Slot}
    (h : s.retag x ty = .ok (slot, s')) : s'.find x = .ok slot := by
  simp only [retag] at h
  split at h
  · rename_i old hx
    cases h
    simp [find, Dictionary.get?_modify, hx]
  · cases h

/-- The bytes that the local variables take. -/
def frameSize (s : Scope) : Word := localOffset s.locals

end Scope
end Onepass
