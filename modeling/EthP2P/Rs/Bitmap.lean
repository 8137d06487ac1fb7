/-
# EthP2P.Rs.Bitmap — which chunks a party holds

A bitmap (`bitmap.go`) is a byte string; bit `i` is bit `i % 8` of byte `i / 8`.  Every caller passes
an index it has checked to be non-negative, so indices are naturals.  Reading a bit beyond the end gives
`false` and writing one does nothing; these two facts and the pointwise reading of each update are all
that is used elsewhere, together with the count of the set bits (`onesCount_eq_length`).
-/
import Mathlib.Data.List.Nodup
import Mathlib.Data.List.Perm.Basic
import Mathlib.Data.Nat.Bitwise
import EthP2P.Wire.Codes

namespace EthP2P.Rs

open Wire

abbrev Bitmap := Bytes

namespace Bitmap

/-- The number of bytes for `n` bits. -/
def bytesFor (n : Nat) : Nat := (n + 7) / 8

/-- All bits clear. -/
def new (n : Nat) : Bitmap := List.replicate (bytesFor n) 0

/-- The mask of a bit within its byte. -/
def mask (i : Nat) : UInt8 := 1 <<< (UInt8.ofNat (i % 8))

/-- `Set`; beyond the end it does nothing. -/
def set (b : Bitmap) (i : Nat) : Bitmap :=
  if i ≥ b.length * 8 then b else List.modify b (i / 8) (· ||| mask i)

/-- `Get`; beyond the end it is `false`. -/
def get (b : Bitmap) (i : Nat) : Bool :=
  if i ≥ b.length * 8 then false else (b.getD (i / 8) 0 &&& mask i) != 0

/-- `Unset`; beyond the end it does nothing. -/
def unset (b : Bitmap) (i : Nat) : Bitmap :=
  if i ≥ b.length * 8 then b else List.modify b (i / 8) (· &&& ~~~(mask i))

/-- The first `n` bits set, the padding clear. -/
def allOnes (n : Nat) : Bitmap := (List.range n).foldl set (new n)

/-- The number of set bits of a byte. -/
def onesCount8 (x : UInt8) : Nat := (List.range 8).countP fun k => x &&& mask k != 0

/-- The number of set bits. -/
def onesCount (b : Bitmap) : Nat := (b.map onesCount8).sum

/-- `Or`, on the common length. -/
def or (b other : Bitmap) : Bitmap :=
  b.mapIdx fun i x => x ||| other.getD i 0

/-! ## Reading bits -/

theorem toNat_mask (i : Nat) : (mask i).toNat = 2 ^ (i % 8) := by
  have hlt : i % 8 < 8 := Nat.mod_lt _ (by decide)
  have hpow : 2 ^ (i % 8) < 2 ^ 8 := Nat.pow_lt_pow_right (by decide) hlt
  rw [mask, UInt8.toNat_shiftLeft, UInt8.toNat_ofNat', Nat.mod_eq_of_lt (by omega : i % 8 < 2 ^ 8),
    Nat.mod_eq_of_lt hlt, Nat.shiftLeft_eq]
  simpa using Nat.mod_eq_of_lt hpow

/-- A byte masked with bit `i` is non-zero when it has that bit. -/
theorem and_mask_ne_zero (x : UInt8) (i : Nat) : (x &&& mask i != 0) = x.toNat.testBit (i % 8) := by
  have hand : (x &&& mask i).toNat = (x.toNat.testBit (i % 8)).toNat * 2 ^ (i % 8) := by
    rw [UInt8.toNat_and, toNat_mask, Nat.and_two_pow]
  have hzero : x &&& mask i = 0 ↔ (x &&& mask i).toNat = 0 := by
    rw [← UInt8.toNat_inj]
    rfl
  cases hbit : x.toNat.testBit (i % 8) with
  | false =>
    rw [hbit] at hand
    have : x &&& mask i = 0 := hzero.mpr (by simpa using hand)
    simp [this]
  | true =>
    rw [hbit] at hand
    have : x &&& mask i ≠ 0 := fun h => by
      rw [hzero.mp h, Bool.toNat_true, Nat.one_mul] at hand
      exact Nat.ne_of_gt (Nat.two_pow_pos _) hand.symm
    simp [this]

variable {b : Bitmap} {i : Nat}

theorem get_eq_testBit (h : i < b.length * 8) : get b i = (b.getD (i / 8) 0).toNat.testBit (i % 8) := by
  rw [get, if_neg (by omega), and_mask_ne_zero]

theorem get_of_length_le (h : b.length * 8 ≤ i) : get b i = false := by
  rw [get, if_pos h]

@[simp] theorem length_set (b : Bitmap) (i : Nat) : (set b i).length = b.length := by
  unfold set
  split
  · rfl
  · exact List.length_modify ..

@[simp] theorem length_new (n : Nat) : (new n).length = bytesFor n := List.length_replicate ..

theorem get_new (n i : Nat) : get (new n) i = false := by
  by_cases h : i < (new n).length * 8
  · rw [get_eq_testBit h, new]
    have hbyte : (List.replicate (bytesFor n) (0 : UInt8)).getD (i / 8) 0 = 0 := by
      rw [List.getD_eq_getElem?_getD, List.getElem?_replicate]
      split <;> rfl
    rw [hbyte]
    exact Nat.zero_testBit _
  · exact get_of_length_le (by omega)

/-- An update of one byte that changes one bit of it, read bit by bit. -/
theorem get_modify {f : UInt8 → UInt8} (bit : Bool) (hf : ∀ x k, k < 8 →
      (f x).toNat.testBit k = if k = i % 8 then bit else x.toNat.testBit k) (hi : i < b.length * 8) (j : Nat) :
    get (List.modify b (i / 8) f) j = if j = i then bit else get b j := by
  by_cases hj : j < b.length * 8
  · have hlen : j / 8 < b.length := by omega
    rw [get_eq_testBit (by simpa using hj), get_eq_testBit hj]
    simp only [List.getD_eq_getElem?_getD, List.getElem?_modify]
    rw [List.getElem?_eq_getElem hlen]
    by_cases hbyte : i / 8 = j / 8
    · simp only [hbyte, if_true, Option.map_eq_map, Option.map_some, Option.getD_some]
      rw [hf _ _ (Nat.mod_lt _ (by decide))]
      have hij : j % 8 = i % 8 ↔ j = i := by omega
      simp only [hij]
    · have hij : j ≠ i := fun heq => hbyte (by rw [heq])
      simp [hbyte, hij]
  · rw [get_of_length_le (by simpa using hj), get_of_length_le (by omega), if_neg (by omega)]

/-- Setting a bit within the bitmap sets that bit and no other. -/
theorem get_set (h : i < b.length * 8) (j : Nat) : get (set b i) j = (decide (j = i) || get b j) := by
  rw [set, if_neg (by omega), get_modify true (fun x k _ => ?_) h]
  · split <;> simp [*]
  · rw [UInt8.toNat_or, toNat_mask, Nat.testBit_or, Nat.testBit_two_pow]
    split <;> simp [eq_comm, *]

@[simp] theorem length_unset (b : Bitmap) (i : Nat) : (unset b i).length = b.length := by
  unfold unset
  split
  · rfl
  · exact List.length_modify ..

theorem testBit_and_not (x y : UInt8) {k : Nat} (hk : k < 8) :
    (x &&& ~~~y).toNat.testBit k = (x.toNat.testBit k && !y.toNat.testBit k) := by
  have hbit : ∀ z : UInt8, z.toNat.testBit k = z.toBitVec.getLsbD k := fun z => rfl
  rw [hbit, hbit, hbit, UInt8.toBitVec_and, UInt8.toBitVec_not, BitVec.getLsbD_and, BitVec.getLsbD_not]
  simp [hk]

/-- Clearing a bit clears that bit and no other. -/
theorem get_unset (b : Bitmap) (i j : Nat) : get (unset b i) j = (!decide (j = i) && get b j) := by
  unfold unset
  split
  · rename_i hi
    by_cases hij : j = i
    · rw [get_of_length_le (hij ▸ hi), Bool.and_false]
    · simp [hij]
  rw [get_modify false (fun x k hk => ?_) (by omega)]
  · split <;> simp [*]
  · rw [testBit_and_not _ _ hk, toNat_mask, Nat.testBit_two_pow]
    split <;> simp [eq_comm, *]

/-- Clearing a bit that is not set changes nothing that can be read. -/
theorem get_unset_of_not (h : get b i = false) (j : Nat) : get (unset b i) j = get b j := by
  rw [get_unset]
  by_cases hij : j = i
  · rw [hij, h, Bool.and_false]
  · simp [hij]

@[simp] theorem length_or (b other : Bitmap) : (or b other).length = b.length := List.length_mapIdx

/-- Within the bitmap, `or` adds the bits of the other one. -/
theorem get_or (h : i < b.length * 8) (other : Bitmap) : get (or b other) i = (get b i || get other i) := by
  have hlen : i / 8 < b.length := by omega
  rw [get_eq_testBit (by simpa using h), get_eq_testBit h, or]
  simp only [List.getD_eq_getElem?_getD, List.getElem?_mapIdx]
  rw [List.getElem?_eq_getElem hlen]
  simp only [Option.map_some, Option.getD_some, UInt8.toNat_or, Nat.testBit_or]
  by_cases hother : i < other.length * 8
  · rw [get_eq_testBit hother, List.getD_eq_getElem?_getD]
  · rw [get_of_length_le (by omega), List.getElem?_eq_none (by omega)]
    simp

/-! ## Counting bits -/

theorem onesCount8_eq (x : UInt8) : onesCount8 x = (List.range 8).countP fun k => x.toNat.testBit k := by
  refine List.countP_congr fun k hk => ?_
  have hk : k < 8 := List.mem_range.mp hk
  rw [and_mask_ne_zero, Nat.mod_eq_of_lt hk]

/-- The count is the number of positions whose bit is set. -/
theorem onesCount_eq_countP (b : Bitmap) : onesCount b = (List.range (b.length * 8)).countP (get b) := by
  induction b with
  | nil => rfl
  | cons x b ih =>
    have hfirst : ∀ k, k < 8 → get (x :: b) k = x.toNat.testBit k := by
      intro k hk
      rw [get_eq_testBit (by simp; omega), Nat.div_eq_of_lt hk, Nat.mod_eq_of_lt hk]
      rfl
    have hrest : ∀ k, k < b.length * 8 → get (x :: b) (8 + k) = get b k := by
      intro k hk
      rw [get_eq_testBit (by simp; omega), get_eq_testBit hk,
        show (8 + k) / 8 = k / 8 + 1 by omega, show (8 + k) % 8 = k % 8 by omega]
      rfl
    have hsplit : (x :: b).length * 8 = 8 + b.length * 8 := by
      rw [List.length_cons]
      omega
    rw [hsplit, List.range_add, List.countP_append, List.countP_map]
    have hhead : (List.range 8).countP (get (x :: b)) = onesCount8 x := by
      rw [onesCount8_eq]
      exact List.countP_congr fun k hk => by rw [hfirst k (List.mem_range.mp hk)]
    have htail : (List.range (b.length * 8)).countP (get (x :: b) ∘ (8 + ·)) = onesCount b := by
      rw [ih]
      exact List.countP_congr fun k hk => by
        rw [Function.comp_apply, hrest k (List.mem_range.mp hk)]
    rw [hhead, htail]
    rfl

/-- A list without repetitions of exactly the set positions has the count as its length. -/
theorem onesCount_eq_length {l : List Nat} (hnodup : l.Nodup)
    (hmem : ∀ i, i ∈ l ↔ get b i = true) : onesCount b = l.length := by
  rw [onesCount_eq_countP, List.countP_eq_length_filter]
  apply List.Perm.length_eq
  rw [List.perm_ext_iff_of_nodup (List.nodup_range.filter _) hnodup]
  intro i
  rw [List.mem_filter, List.mem_range, hmem]
  refine ⟨And.right, fun hget => ⟨?_, hget⟩⟩
  by_contra hlen
  rw [get_of_length_le (by omega)] at hget
  cases hget

end Bitmap

end EthP2P.Rs
