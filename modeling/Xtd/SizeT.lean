import Mathlib

/-!
# Unsigned 64-bit arithmetic

`std::size_t` values are natural numbers below `modulus`; sums and differences wrap around.  A sum that stays below the
modulus and a difference that does not go below zero are exact.
-/

namespace SizeT

/-- The number of values of a `std::size_t`. -/
def modulus : Nat := 2 ^ 64

def add (a b : Nat) : Nat := (a + b) % modulus

def sub (a b : Nat) : Nat := (a + (modulus - b)) % modulus

theorem add_eq {a b : Nat} (h : a + b < modulus) : add a b = a + b := Nat.mod_eq_of_lt h

theorem add_add (a b c : Nat) : add (add a b) c = add a (b + c) := by
  unfold add
  rw [Nat.mod_add_mod, Nat.add_assoc]

theorem sub_eq {a b : Nat} (h : b ≤ a) (ha : a < modulus) : sub a b = a - b := by
  unfold sub
  have e : a + (modulus - b) = (a - b) + modulus := by omega
  rw [e, Nat.add_mod_right, Nat.mod_eq_of_lt (by omega)]

end SizeT
