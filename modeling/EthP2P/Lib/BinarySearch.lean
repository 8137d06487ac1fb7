/-
# EthP2P.Lib.BinarySearch — `slices.BinarySearch`

The search keeps an interval in which the target's place must lie.  On a strictly ascending list the
target is found exactly when it is in the list (`binarySearch_found`).
-/
import Mathlib.Order.Defs.LinearOrder
import Mathlib.Order.Lattice

namespace EthP2P.Lib

variable {α : Type*} [LinearOrder α]

/-- The loop over the interval from `i` to `j`, which shrinks in every round. -/
def searchLoop (x : List α) (target : α) : Nat → Nat → Nat → Nat
  | 0, i, _ => i
  | fuel + 1, i, j =>
    if i < j then
      let h := (i + j) / 2
      if (x[h]?).any (fun y => decide (y < target)) then searchLoop x target fuel (h + 1) j
      else searchLoop x target fuel i h
    else i

/-- Where `target` is or belongs, and whether it is there. -/
def binarySearch (x : List α) (target : α) : Nat × Bool :=
  let i := searchLoop x target x.length 0 x.length
  (i, x[i]? == some target)

/-- The result is the first place whose element is not below the target. -/
theorem searchLoop_spec {x : List α} (hx : x.Pairwise (· < ·)) {target : α} {fuel i j : Nat}
    (hfuel : j - i ≤ fuel) (hij : i ≤ j) (hj : j ≤ x.length) (hlow : ∀ k y, k < i → x[k]? = some y → y < target)
    (hhigh : ∀ k y, j ≤ k → x[k]? = some y → ¬ y < target) :
    (∀ k y, k < searchLoop x target fuel i j → x[k]? = some y → y < target) ∧
      ∀ k y, searchLoop x target fuel i j ≤ k → x[k]? = some y → ¬ y < target := by
  induction fuel generalizing i j with
  | zero =>
    obtain rfl : i = j := by omega
    exact ⟨hlow, hhigh⟩
  | succ fuel ih =>
    unfold searchLoop
    split
    · rename_i hlt
      dsimp only
      have hmid : (i + j) / 2 < x.length := by omega
      have hget : x[(i + j) / 2]? = some x[(i + j) / 2] := List.getElem?_eq_getElem hmid
      -- elements on either side of the middle compare with it
      have hsorted : ∀ (k k' : Nat) (y y' : α), k < k' → x[k]? = some y → x[k']? = some y' → y < y' := by
        intro k k' y y' hk hy hy'
        obtain ⟨hk', rfl⟩ := List.getElem?_eq_some_iff.mp hy'
        obtain ⟨_, rfl⟩ := List.getElem?_eq_some_iff.mp hy
        exact List.pairwise_iff_getElem.mp hx k k' _ hk' hk
      rw [hget, Option.any_some]
      by_cases hbelow : x[(i + j) / 2] < target
      · rw [if_pos (by simpa using hbelow)]
        refine ih (by omega) (by omega) hj ?_ hhigh
        intro k y hk hy
        rcases Nat.lt_or_ge k ((i + j) / 2) with hk' | hk'
        · exact lt_trans (hsorted k _ y _ hk' hy hget) hbelow
        obtain rfl : k = (i + j) / 2 := by omega
        rw [hget] at hy
        exact Option.some.inj hy ▸ hbelow
      rw [if_neg (by simpa using hbelow)]
      refine ih (by omega) (by omega) (by omega) hlow ?_
      intro k y hk hy hlt'
      rcases Nat.lt_or_ge ((i + j) / 2) k with hk' | hk'
      · exact hbelow (lt_trans (hsorted _ k _ y hk' hget hy) hlt')
      obtain rfl : k = (i + j) / 2 := by omega
      rw [hget] at hy
      exact hbelow (Option.some.inj hy ▸ hlt')
    · obtain rfl : i = j := by omega
      exact ⟨hlow, hhigh⟩

theorem binarySearch_found {x : List α} (hx : x.Pairwise (· < ·)) (target : α) :
    (binarySearch x target).2 = true ↔ target ∈ x := by
  have hbelow : ∀ k y, k < 0 → x[k]? = some y → y < target := by
    intro k y hk
    omega
  have habove : ∀ k y, x.length ≤ k → x[k]? = some y → ¬ y < target := by
    intro k y hk hy
    rw [List.getElem?_eq_none hk] at hy
    cases hy
  have hfuel : x.length - 0 ≤ x.length := Nat.sub_le _ _
  obtain ⟨hlow, hhigh⟩ := searchLoop_spec hx hfuel (Nat.zero_le _) (Nat.le_refl _) hbelow habove
  simp only [binarySearch, beq_iff_eq]
  generalize searchLoop x target x.length 0 x.length = i at hlow hhigh
  constructor
  · intro hi
    exact List.mem_of_getElem? hi
  intro hmem
  obtain ⟨p, hp⟩ := List.mem_iff_getElem?.mp hmem
  have hip : i ≤ p := by
    by_contra hlt
    exact lt_irrefl _ (hlow p target (by omega) hp)
  rcases Nat.eq_or_lt_of_le hip with rfl | hlt
  · exact hp
  -- an element before the target would be below it
  obtain ⟨hp', rfl⟩ := List.getElem?_eq_some_iff.mp hp
  have hi : x[i]? = some x[i] := List.getElem?_eq_getElem (by omega)
  exact absurd (List.pairwise_iff_getElem.mp hx i p (by omega) hp' hlt) (hhigh i _ (Nat.le_refl _) hi)

end EthP2P.Lib
