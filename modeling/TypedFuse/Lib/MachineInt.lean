import Mathlib.Algebra.Group.Int.Defs
import Mathlib.Algebra.Group.Nat.Defs
import Mathlib.Tactic.Common

/-!
# Fixed-width integers

`MachineInt` says what the integer types of a machine share: each value is an integer in a range,
and each integer in the range is one value.  `checked` is the value of an integer, if the type has
it, so `checked (toInt x + toInt y)` is Rust's `checked_add`, `checked n` its `try_from`, and a
`none` where the source has a plain operator is an overflow.
-/

/-- A type of integers from `lo` up to, but not including, `hi`. -/
class MachineInt (T : Type) where
  lo : Int
  hi : Int
  toInt : T → Int
  ofInt : Int → T
  lo_le (x : T) : lo ≤ toInt x
  lt_hi (x : T) : toInt x < hi
  toInt_ofInt {n : Int} : lo ≤ n → n < hi → toInt (ofInt n) = n
  toInt_inj {x y : T} : toInt x = toInt y → x = y

namespace MachineInt

instance : MachineInt UInt64 where
  lo := 0
  hi := 2 ^ 64
  toInt x := x.toNat
  ofInt n := .ofNat n.toNat
  lo_le x := Int.natCast_nonneg _
  lt_hi x := by
    have := x.toNat_lt
    omega
  toInt_ofInt {n} nonneg lt := by
    rw [UInt64.toNat_ofNat_of_lt' (by simp only [UInt64.size]; omega)]
    omega
  toInt_inj eq := UInt64.toNat_inj.mp (Int.ofNat_inj.mp eq)

instance : MachineInt UInt32 where
  lo := 0
  hi := 2 ^ 32
  toInt x := x.toNat
  ofInt n := .ofNat n.toNat
  lo_le x := Int.natCast_nonneg _
  lt_hi x := by
    have := x.toNat_lt
    omega
  toInt_ofInt {n} nonneg lt := by
    rw [UInt32.toNat_ofNat_of_lt' (by simp only [UInt32.size]; omega)]
    omega
  toInt_inj eq := UInt32.toNat_inj.mp (Int.ofNat_inj.mp eq)

instance : MachineInt Int64 where
  lo := -2 ^ 63
  hi := 2 ^ 63
  toInt := Int64.toInt
  ofInt := Int64.ofInt
  lo_le := Int64.le_toInt
  lt_hi := Int64.toInt_lt
  toInt_ofInt le lt := Int64.toInt_ofInt_of_le le lt
  toInt_inj := Int64.toInt.inj

instance : MachineInt Int32 where
  lo := -2 ^ 31
  hi := 2 ^ 31
  toInt := Int32.toInt
  ofInt := Int32.ofInt
  lo_le := Int32.le_toInt
  lt_hi := Int32.toInt_lt
  toInt_ofInt le lt := Int32.toInt_ofInt_of_le le lt
  toInt_inj := Int32.toInt.inj

variable {T : Type} [MachineInt T] {n : Int} {x : T}

/-- The value of `n`, if the type has it. -/
def checked (n : Int) : Option T := if lo T ≤ n ∧ n < hi T then some (ofInt n) else none

theorem checked_eq_some : checked n = some x ↔ toInt x = n := by
  unfold checked
  constructor
  · intro h
    split at h
    · rename_i range
      cases h
      exact toInt_ofInt range.1 range.2
    · cases h
  · rintro rfl
    rw [if_pos ⟨lo_le x, lt_hi x⟩]
    exact congrArg some (toInt_inj (toInt_ofInt (lo_le x) (lt_hi x)))

theorem exists_toInt (le : lo T ≤ n) (lt : n < hi T) : ∃ x : T, toInt x = n :=
  ⟨ofInt n, toInt_ofInt le lt⟩

theorem checked_eq_none : (checked n : Option T) = none ↔ n < lo T ∨ hi T ≤ n := by
  unfold checked
  split
  · simp only [reduceCtorEq, false_iff]
    omega
  · simp only [true_iff]
    omega

end MachineInt
