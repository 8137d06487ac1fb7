/-
# EthP2P.Lib.GoInt — machine integers as wrapped integers

Fixed-width arithmetic is integer arithmetic followed by a wrap into the type's range.  A function
model applies `int64` where the program's `int` arithmetic can overflow; `int64_of_fits` removes it
again where the operands are known to be small.
-/
import Mathlib.Order.Basic
import Mathlib.Tactic.Linarith

namespace EthP2P.Lib

/-- The value is one of Go's `int`. -/
def FitsInt64 (x : Int) : Prop := -2 ^ 63 ≤ x ∧ x < 2 ^ 63

instance (x : Int) : Decidable (FitsInt64 x) := inferInstanceAs (Decidable (_ ∧ _))

/-- The value is one of Go's `int32`. -/
def FitsInt32 (x : Int) : Prop := -2 ^ 31 ≤ x ∧ x < 2 ^ 31

instance (x : Int) : Decidable (FitsInt32 x) := inferInstanceAs (Decidable (_ ∧ _))

/-- Wrap into the range of `int`. -/
def int64 (x : Int) : Int := x.bmod (2 ^ 64)

/-- Wrap into the range of `int32`. -/
def int32 (x : Int) : Int := x.bmod (2 ^ 32)

theorem fits_int64 (x : Int) : FitsInt64 (int64 x) := by
  have hlo := Int.le_bmod (x := x) (m := 2 ^ 64) (by decide)
  have hhi := Int.bmod_lt (x := x) (m := 2 ^ 64) (by decide)
  unfold FitsInt64 int64
  norm_num at hlo hhi ⊢
  exact ⟨hlo, hhi⟩

theorem fits_int32 (x : Int) : FitsInt32 (int32 x) := by
  have hlo := Int.le_bmod (x := x) (m := 2 ^ 32) (by decide)
  have hhi := Int.bmod_lt (x := x) (m := 2 ^ 32) (by decide)
  unfold FitsInt32 int32
  norm_num at hlo hhi ⊢
  exact ⟨hlo, hhi⟩

theorem int64_of_fits {x : Int} (h : FitsInt64 x) : int64 x = x := by
  obtain ⟨hlo, hhi⟩ := h
  apply Int.bmod_eq_of_le_mul_two
  · norm_num at hlo ⊢
    omega
  · norm_num at hhi ⊢
    omega

/-- Wrapping does not see multiples of the period. -/
theorem int64_sub_period (x : Int) : int64 x = int64 (x - 2 ^ 64) := by
  have hx : x = (x - 2 ^ 64) + ((2 ^ 64 : Nat) : Int) := by omega
  unfold int64
  conv_lhs => rw [hx]
  exact Int.add_bmod_right _ _

/-- A value below `2^64` that is not negative after the wrap did not wrap. -/
theorem int64_eq_of_nonneg {x : Int} (hlo : 0 ≤ x) (hhi : x < 2 ^ 64) (h : 0 ≤ int64 x) : int64 x = x := by
  by_cases hfit : x < 2 ^ 63
  · exact int64_of_fits ⟨by omega, hfit⟩
  have hshift : int64 (x - 2 ^ 64) = x - 2 ^ 64 := int64_of_fits ⟨by omega, by omega⟩
  have hwrap := int64_sub_period x
  omega

theorem int32_of_fits {x : Int} (hlo : 0 ≤ x) (hhi : x < 2 ^ 31) : int32 x = x := by
  apply Int.bmod_eq_of_le_mul_two
  · norm_num
    omega
  · norm_num at hhi ⊢
    omega

/-- The order of `uint32` is that of its values. -/
instance uint32LinearOrder : LinearOrder UInt32 where
  le_refl a := UInt32.le_iff_toNat_le.mpr (Nat.le_refl _)
  le_trans a b c hab hbc := by
    rw [UInt32.le_iff_toNat_le] at *
    exact Nat.le_trans hab hbc
  lt_iff_le_not_ge a b := by
    rw [UInt32.lt_iff_toNat_lt, UInt32.le_iff_toNat_le, UInt32.le_iff_toNat_le]
    exact lt_iff_le_not_ge
  le_antisymm a b hab hba := by
    rw [UInt32.le_iff_toNat_le] at *
    exact UInt32.toNat_inj.mp (Nat.le_antisymm hab hba)
  le_total a b := by
    rw [UInt32.le_iff_toNat_le, UInt32.le_iff_toNat_le]
    exact Nat.le_total _ _
  toDecidableLE := inferInstance
  toDecidableEq := inferInstance
  toDecidableLT := inferInstance

end EthP2P.Lib
