/-!
# Onepass.Dictionary

Finite maps from names. A look-up sees the newest entry of a name.
-/

namespace Onepass

structure Dictionary (α : Type) where
  entries : List (String × α)

namespace Dictionary

variable {α : Type}

def empty : Dictionary α := ⟨[]⟩

def get? (d : Dictionary α) (name : String) : Option α := d.entries.lookup name

def contains (d : Dictionary α) (name : String) : Bool := (d.get? name).isSome

def insert (d : Dictionary α) (name : String) (a : α) : Dictionary α :=
  ⟨(name, a) :: d.entries⟩

/-- Changes what a name stands for, if it stands for anything. -/
def modify (d : Dictionary α) (name : String) (f : α → α) : Dictionary α :=
  ⟨d.entries.map fun (x, a) => (x, if x = name then f a else a)⟩

@[simp] theorem get?_empty (x : String) : (empty : Dictionary α).get? x = none := rfl

theorem get?_insert (d : Dictionary α) (x y : String) (a : α) :
    (d.insert x a).get? y = if y = x then some a else d.get? y := by
  by_cases h : y = x
  · subst h; simp [get?, insert]
  · have hb : (y == x) = false := by simpa using h
    simp [get?, insert, List.lookup_cons, hb, h]

theorem get?_modify (d : Dictionary α) (x y : String) (f : α → α) :
    (d.modify x f).get? y = if y = x then (d.get? y).map f else d.get? y := by
  obtain ⟨entries⟩ := d
  simp only [get?, modify]
  induction entries with
  | nil => simp
  | cons e entries ih =>
    obtain ⟨z, a⟩ := e
    by_cases hz : y = z
    · subst hz
      by_cases hx : y = x <;> simp [hx]
    · have hb : (y == z) = false := by simpa using hz
      simp only [List.map_cons, List.lookup_cons, hb]
      exact ih

end Dictionary
end Onepass
