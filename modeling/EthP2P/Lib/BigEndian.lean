/-
# EthP2P.Lib.BigEndian — numbers as byte strings, most significant byte first

`beValue` reads a byte string, `beBytes w` writes the low `w` bytes of a number.  A byte string without a
leading zero is determined by its value: it is what is left of the fixed-width encoding once the zeros in
front are dropped (`dropZeros_beBytes`).
-/
import Mathlib.Data.List.Induction
import Mathlib.Algebra.Order.Ring.Nat
import Mathlib.Tactic.Ring

namespace EthP2P.Lib

/-- `value = value<<8 | b` over the bytes, from zero. -/
def beValue (bs : List UInt8) : Nat := bs.foldl (fun v b => v * 256 + b.toNat) 0

/-- The low `w` bytes of `n`. -/
def beBytes : Nat → Nat → List UInt8
  | 0, _ => []
  | w + 1, n => beBytes w (n / 256) ++ [UInt8.ofNat n]

/-- The zeros in front are dropped. -/
def dropZeros (bs : List UInt8) : List UInt8 := bs.dropWhile (· == 0)

variable {bs : List UInt8} {w n : Nat}

@[simp] theorem beValue_nil : beValue [] = 0 := rfl

@[simp] theorem beValue_concat (bs : List UInt8) (b : UInt8) : beValue (bs ++ [b]) = beValue bs * 256 + b.toNat := by
  simp [beValue]

@[simp] theorem length_beBytes (w n : Nat) : (beBytes w n).length = w := by
  induction w generalizing n with
  | zero => rfl
  | succ w ih => simp [beBytes, ih]

theorem beValue_lt (bs : List UInt8) : beValue bs < 256 ^ bs.length := by
  induction bs using List.reverseRecOn with
  | nil => simp
  | append_singleton bs b ih =>
    have hb : b.toNat < 256 := b.toNat_lt
    rw [beValue_concat, List.length_append, List.length_singleton, pow_succ]
    omega

/-- Writing, then reading, is the identity below `256 ^ w`. -/
theorem beValue_beBytes (h : n < 256 ^ w) : beValue (beBytes w n) = n := by
  induction w generalizing n with
  | zero =>
    rw [pow_zero] at h
    simp [beBytes]
    omega
  | succ w ih =>
    have hdiv : n / 256 < 256 ^ w := by
      rw [pow_succ] at h
      omega
    rw [beBytes, beValue_concat, ih hdiv, UInt8.toNat_ofNat']
    omega

/-- Reading, then writing at the same width, is the identity. -/
theorem beBytes_beValue (h : bs.length = w) : beBytes w (beValue bs) = bs := by
  induction bs using List.reverseRecOn generalizing w with
  | nil =>
    subst h
    rfl
  | append_singleton bs b ih =>
    have hb : b.toNat < 256 := b.toNat_lt
    obtain ⟨w, rfl⟩ : ∃ v, w = v + 1 := ⟨bs.length, by simpa using h.symm⟩
    have hlen : bs.length = w := by simpa using h
    have hdiv : (beValue bs * 256 + b.toNat) / 256 = beValue bs := by omega
    have hlow : UInt8.ofNat (beValue bs * 256 + b.toNat) = b := by
      apply UInt8.toNat_inj.mp
      rw [UInt8.toNat_ofNat']
      omega
    rw [beBytes, beValue_concat, hdiv, ih hlen, hlow]

theorem beValue_zeros (k : Nat) (bs : List UInt8) : beValue (List.replicate k 0 ++ bs) = beValue bs := by
  have hzero : List.foldl (fun v (b : UInt8) => v * 256 + b.toNat) 0 (List.replicate k 0) = 0 := by
    induction k with
    | zero => rfl
    | succ k ih => simpa [List.replicate_succ] using ih
  rw [beValue, List.foldl_append, hzero, beValue]

theorem head_dropZeros (bs : List UInt8) : (dropZeros bs).head? ≠ some 0 := by
  intro h
  have hnot := List.head?_dropWhile_not (· == (0 : UInt8)) bs
  rw [show bs.dropWhile (· == 0) = dropZeros bs from rfl, h] at hnot
  simp at hnot

theorem dropZeros_zeros (k : Nat) (h : bs.head? ≠ some 0) : dropZeros (List.replicate k 0 ++ bs) = bs := by
  induction k with
  | zero =>
    cases bs with
    | nil => rfl
    | cons b bs =>
      have hb : (b == 0) = false := by simpa using h
      simp [dropZeros, hb]
  | succ k ih => simpa [dropZeros, List.replicate_succ] using ih

/-- A byte string without a leading zero, from its value. -/
theorem dropZeros_beBytes (hlen : bs.length ≤ w) (h : bs.head? ≠ some 0) :
    dropZeros (beBytes w (beValue bs)) = bs := by
  have hpad : (List.replicate (w - bs.length) 0 ++ bs).length = w := by
    simp
    omega
  rw [← beValue_zeros (w - bs.length) bs, beBytes_beValue hpad, dropZeros_zeros _ h]

theorem exists_zeros (bs : List UInt8) : ∃ k, bs = List.replicate k 0 ++ dropZeros bs := by
  induction bs with
  | nil => exact ⟨0, rfl⟩
  | cons b bs ih =>
    by_cases hb : b = 0
    · subst hb
      obtain ⟨k, hk⟩ := ih
      refine ⟨k + 1, ?_⟩
      have hdrop : dropZeros (0 :: bs) = dropZeros bs := by simp [dropZeros]
      rw [hdrop, List.replicate_succ, List.cons_append, ← hk]
    · refine ⟨0, ?_⟩
      simp [dropZeros, hb]

theorem length_dropZeros_le (bs : List UInt8) : (dropZeros bs).length ≤ bs.length :=
  (List.dropWhile_sublist _).length_le

/-- The number behind a minimal encoding. -/
theorem beValue_dropZeros (h : n < 256 ^ w) : beValue (dropZeros (beBytes w n)) = n := by
  obtain ⟨k, hk⟩ := exists_zeros (beBytes w n)
  calc beValue (dropZeros (beBytes w n))
      = beValue (List.replicate k 0 ++ dropZeros (beBytes w n)) := (beValue_zeros k _).symm
    _ = beValue (beBytes w n) := by rw [← hk]
    _ = n := beValue_beBytes h

end EthP2P.Lib
