/-
# EthP2P.Lib.Blocks — cutting a list into blocks of one length

`blocks n l` is `l` cut into consecutive blocks of `n`, the last one possibly shorter.  When `n`
divides the length all blocks have length `n`, and joining the first `j` of them gives back the first
`n * j` entries.
-/
import Mathlib.Data.List.Basic

namespace EthP2P.Lib

variable {A : Type*}

/-- Consecutive blocks of `n` entries. -/
def blocks (n : Nat) (l : List A) : List (List A) :=
  (List.range ((l.length + n - 1) / n)).map fun i => (l.drop (i * n)).take n

variable {l : List A}

theorem length_blocks {n k : Nat} (hn : 0 < n) (hl : l.length = n * k) : (blocks n l).length = k := by
  have hdiv : (l.length + n - 1) / n = k := by
    rw [hl, show n * k + n - 1 = (n - 1) + n * k by omega, Nat.add_mul_div_left _ _ hn,
      Nat.div_eq_of_lt (by omega), Nat.zero_add]
  simp [blocks, hdiv]

theorem length_of_mem_blocks {n k : Nat} {b : List A} (hn : 0 < n) (hl : l.length = n * k) (hb : b ∈ blocks n l) :
    b.length = n := by
  have hcount := length_blocks hn hl
  simp only [blocks, List.length_map, List.length_range] at hcount
  simp only [blocks, List.mem_map, List.mem_range, hcount] at hb
  obtain ⟨i, hi, rfl⟩ := hb
  have hroom : i * n + n ≤ l.length := by
    calc i * n + n = n * (i + 1) := by rw [Nat.mul_add, Nat.mul_comm]; omega
      _ ≤ n * k := Nat.mul_le_mul_left n hi
      _ = l.length := hl.symm
  rw [List.length_take, List.length_drop]
  omega

/-- The first `j` blocks joined are the first `j * n` entries. -/
theorem flatten_take_blocks {n k j : Nat} (hn : 0 < n) (hl : l.length = n * k) (hj : j ≤ k) :
    ((blocks n l).take j).flatten = l.take (j * n) := by
  induction j with
  | zero => simp
  | succ j ih =>
    have hget : (blocks n l)[j]? = some ((l.drop (j * n)).take n) := by
      have hcount := length_blocks hn hl
      simp only [blocks, List.length_map, List.length_range] at hcount
      simp [blocks, hcount, show j < k by omega]
    rw [List.take_add_one, hget, List.flatten_append, ih (by omega), Nat.succ_mul, List.take_add]
    simp

end EthP2P.Lib
