/-!
# Onepass.Word

Words of the target machine: 32 bits, read as signed numbers. Sums, differences and products
wrap around. `Word.quotient` rounds toward zero and is 0 in the two cases in which the machine
would fault.
-/

namespace Onepass

abbrev Word := BitVec 32

namespace Word

/-- The largest number that an integer literal can have. -/
def largest : Nat := 2147483647

/-- `-2 ^ 31`, the only word whose negation is itself and not zero. -/
def least : Word := BitVec.intMin 32

def ofNat (n : Nat) : Word := BitVec.ofNat 32 n

/-- A truth value as the machine holds it. -/
def ofBool (b : Bool) : Word := if b then 1 else 0

/-- Signed division toward zero, 0 where there is no quotient of 32 bits. -/
def quotient (a b : Word) : Word :=
  if b = 0 ∨ (a = least ∧ b = -1) then 0 else a.sdiv b

/-- The signed decimal form. -/
def text (w : Word) : String := toString w.toInt

end Word
end Onepass
