/-
# EthP2P.Lib.HeapOrder — the order of a binary heap

A heap whose comparison is that of a key keeps each parent's key at most its children's, so the root has
the least key of all (`root_le`).  While an entry travels, the order holds away from its position, and the
entries below it are not below its parent: `OrderedExcept` and `Spans`.  Both loops carry these two
through every swap and end in an ordered heap.
-/
import Mathlib.Order.Lattice
import EthP2P.Lib.Heap

namespace EthP2P.Lib.HeapInterface

variable {H E κ : Type*} [LinearOrder κ]

/-- The comparison is that of the keys, and a swap exchanges two keys. -/
structure Keyed (I : HeapInterface H E) (key : H → Nat → κ) : Prop where
  less : ∀ h i j, I.less h i j = true ↔ key h i < key h j
  len_swap : ∀ h i j, I.len (I.swap h i j) = I.len h
  key_swap : ∀ h i j k, i < I.len h → j < I.len h →
    key (I.swap h i j) k = if k = j then key h i else if k = i then key h j else key h k

/-- The first `n` positions are in order: no entry is below its parent. -/
def OrderedTo (key : H → Nat → κ) (h : H) (n : Nat) : Prop :=
  ∀ k, 0 < k → k < n → key h ((k - 1) / 2) ≤ key h k

/-- The pairs of parent and child that do not touch position `i` are in order. -/
def OrderedExcept (key : H → Nat → κ) (h : H) (n i : Nat) : Prop :=
  ∀ k, 0 < k → k < n → k ≠ i → (k - 1) / 2 ≠ i → key h ((k - 1) / 2) ≤ key h k

/-- The children of position `i` are not below its parent. -/
def Spans (key : H → Nat → κ) (h : H) (n i : Nat) : Prop :=
  0 < i → ∀ k, 0 < k → k < n → (k - 1) / 2 = i → key h ((i - 1) / 2) ≤ key h k

section
variable {key : H → Nat → κ} {h h' : H} {n i j : Nat}

/-- The root has the least key. -/
theorem root_le (ho : OrderedTo key h n) {k : Nat} (hk : k < n) : key h 0 ≤ key h k := by
  induction k using Nat.strong_induction_on with
  | _ k ih =>
    rcases Nat.eq_zero_or_pos k with rfl | hpos
    · exact le_refl _
    · exact le_trans (ih ((k - 1) / 2) (by omega) (by omega)) (ho k hpos hk)

/-- A heap in order in which one key has been replaced. -/
theorem OrderedTo.replaced (ho : OrderedTo key h n) (hsame : ∀ k, k < n → k ≠ i → key h' k = key h k) :
    OrderedExcept key h' n i ∧ Spans key h' n i := by
  refine ⟨?_, ?_⟩
  · intro k hpos hk hki hparent
    rw [hsame _ (by omega) hparent, hsame k hk hki]
    exact ho k hpos hk
  intro hi k hpos hk hparent
  rw [hsame _ (by omega) (by omega), hsame k hk (by omega)]
  exact le_trans (ho i hi (by omega)) (hparent ▸ ho k hpos hk)

/-- The travelling entry is at most its children: only the pair with its parent may be out of order. -/
theorem OrderedExcept.above (he : OrderedExcept key h n i)
    (hchildren : ∀ k, 0 < k → k < n → (k - 1) / 2 = i → key h i ≤ key h k) :
    ∀ k, 0 < k → k < n → k ≠ i → key h ((k - 1) / 2) ≤ key h k := by
  intro k hpos hk hki
  by_cases hparent : (k - 1) / 2 = i
  · rw [hparent]
    exact hchildren k hpos hk hparent
  · exact he k hpos hk hki hparent

end

variable {I : HeapInterface H E} {key : H → Nat → κ}

/-! ## Towards the root -/

variable {h : H} {j n i : Nat}

theorem upLoop_ordered (hI : I.Keyed key) (fuel : Nat) (hfuel : j < fuel) (hj : j < n)
    (hn : n ≤ I.len h) (hrest : ∀ k, 0 < k → k < n → k ≠ j → key h ((k - 1) / 2) ≤ key h k)
    (hspans : Spans key h n j) : OrderedTo key (I.upLoop fuel h j) n := by
  induction fuel generalizing h j with
  | zero => omega
  | succ fuel ih =>
    unfold upLoop
    dsimp only
    split
    · rename_i hstop
      intro k hpos hk
      by_cases hkj : k = j
      · subst hkj
        rcases hstop with hroot | hless
        · omega
        by_contra hlt
        have := (hI.less h k ((k - 1) / 2)).mpr (not_le.mp hlt)
        rw [hless] at this
        cases this
      · exact hrest k hpos hk hkj
    rename_i hgo
    obtain ⟨hne, hless⟩ := not_or.mp hgo
    have hlt : key h j < key h ((j - 1) / 2) := (hI.less _ _ _).mp (by simpa using hless)
    have hpos : 0 < j := by omega
    have hswap := hI.key_swap h ((j - 1) / 2) j
    have hparent : (j - 1) / 2 < j := by omega
    apply ih (by omega) (by omega)
    · rw [hI.len_swap]
      exact hn
    · -- the pairs around the two positions: the smaller key has moved to the parent
      intro k hk0 hk hki
      rw [hswap _ (by omega) (by omega), hswap k (by omega) (by omega)]
      by_cases hkj : k = j
      · subst hkj
        rw [if_pos rfl, if_neg (by omega), if_pos rfl]
        exact hlt.le
      rw [if_neg hkj, if_neg hki]
      by_cases hpj : (k - 1) / 2 = j
      · rw [if_pos hpj]
        exact hspans hpos k hk0 hk hpj
      rw [if_neg hpj]
      by_cases hpi : (k - 1) / 2 = (j - 1) / 2
      · rw [if_pos hpi]
        have := hrest k hk0 hk hkj
        rw [hpi] at this
        exact le_trans hlt.le this
      · rw [if_neg hpi]
        exact hrest k hk0 hk hkj
    · -- the old parent was not below its own parent, nor were its children
      intro hi k hk0 hk hparent'
      have hgrand := hrest ((j - 1) / 2) hi (by omega) (by omega)
      rw [hswap _ (by omega) (by omega), hswap k (by omega) (by omega), if_neg (by omega),
        if_neg (by omega)]
      by_cases hkj : k = j
      · rw [if_pos hkj]
        exact hgrand
      rw [if_neg hkj, if_neg (by omega)]
      have := hrest k hk0 hk hkj
      rw [hparent'] at this
      exact le_trans hgrand this

theorem up_ordered (hI : I.Keyed key) (hj : j < n) (hn : n ≤ I.len h)
    (hrest : ∀ k, 0 < k → k < n → k ≠ j → key h ((k - 1) / 2) ≤ key h k) (hspans : Spans key h n j) :
    OrderedTo key (I.up h j) n :=
  upLoop_ordered hI (j + 1) (Nat.lt_succ_self j) hj hn hrest hspans

/-! ## Away from the root -/

/-- The child with the smaller key. -/
theorem smaller_child (hI : I.Keyed key) (h : H) (hchild : 2 * i + 1 < n) (hj : I.child h i n = j) :
    i < j ∧ j < n ∧ (j - 1) / 2 = i ∧ ∀ k, 0 < k → k < n → (k - 1) / 2 = i → key h j ≤ key h k := by
  have hcases : ∀ k, 0 < k → (k - 1) / 2 = i → k = 2 * i + 1 ∨ k = 2 * i + 1 + 1 := by
    intro k hk hparent
    omega
  unfold child at hj
  dsimp only at hj
  split at hj
  · rename_i hright
    have hlt := (hI.less _ _ _).mp hright.2
    refine ⟨by omega, by omega, by omega, ?_⟩
    intro k hk0 hk hparent
    rcases hcases k hk0 hparent with rfl | rfl
    · rw [← hj]
      exact hlt.le
    · rw [← hj]
  rename_i hleft
  refine ⟨by omega, by omega, by omega, ?_⟩
  intro k hk0 hk hparent
  rcases hcases k hk0 hparent with rfl | rfl
  · rw [← hj]
  rw [← hj]
  by_contra hlt
  exact hleft ⟨hk, (hI.less _ _ _).mpr (not_le.mp hlt)⟩

/-- The loop stays where it is, above its children, or moves and leaves the heap in order. -/
theorem downLoop_ordered (hI : I.Keyed key) (fuel : Nat) (hfuel : n ≤ i + fuel)
    (hn : n ≤ I.len h) (hexcept : OrderedExcept key h n i) (hspans : Spans key h n i) :
    (I.downLoop fuel h i n = (h, i) ∧ ∀ k, 0 < k → k < n → (k - 1) / 2 = i → key h i ≤ key h k) ∨
      (i < (I.downLoop fuel h i n).2 ∧ OrderedTo key (I.downLoop fuel h i n).1 n) := by
  induction fuel generalizing h i with
  | zero =>
    refine .inl ⟨rfl, ?_⟩
    intro k hk0 hk hparent
    omega
  | succ fuel ih =>
    unfold downLoop
    dsimp only
    split
    · refine .inl ⟨rfl, ?_⟩
      intro k hk0 hk hparent
      omega
    rename_i hchild
    generalize hj : I.child h i n = j
    obtain ⟨hij, hjn, hparent, hmin⟩ := smaller_child hI h (by omega) hj
    split
    · -- the smaller child is not below the entry
      rename_i hless
      refine .inl ⟨rfl, ?_⟩
      intro k hk0 hk hk'
      refine le_trans ?_ (hmin k hk0 hk hk')
      by_contra hlt
      have := (hI.less h j i).mpr (not_le.mp hlt)
      rw [hless] at this
      cases this
    rename_i hless
    have hlt : key h j < key h i := (hI.less _ _ _).mp (by simpa using hless)
    have hswap := hI.key_swap h i j
    -- away from the entry's new position the order holds
    have hexcept' : OrderedExcept key (I.swap h i j) n j := by
      intro k hk0 hk hkj hpj
      rw [hswap _ (by omega) (by omega), hswap k (by omega) (by omega), if_neg hpj, if_neg hkj]
      by_cases hpi : (k - 1) / 2 = i
      · rw [if_pos hpi, if_neg (by omega)]
        exact hmin k hk0 hk hpi
      rw [if_neg hpi]
      by_cases hki : k = i
      · rw [if_pos hki]
        subst hki
        exact hspans hk0 j (by omega) hjn hparent
      · rw [if_neg hki]
        exact hexcept k hk0 hk hki hpi
    have hspans' : Spans key (I.swap h i j) n j := by
      intro _ k hk0 hk hkj
      rw [hparent, hswap i (by omega) (by omega), hswap k (by omega) (by omega), if_neg (by omega),
        if_pos rfl, if_neg (by omega), if_neg (by omega), ← hkj]
      exact hexcept k hk0 hk (by omega) (by omega)
    refine .inr ?_
    rcases ih (by omega) (by rw [hI.len_swap]; exact hn) hexcept' hspans' with ⟨hstay, habove⟩ | ⟨hmove, ho⟩
    · rw [hstay]
      refine ⟨hij, fun k hk0 hk => ?_⟩
      by_cases hkj : k = j
      · subst hkj
        rw [hparent, hswap i (by omega) (by omega), hswap k (by omega) (by omega), if_neg (by omega),
          if_pos rfl, if_pos rfl]
        exact hlt.le
      · exact hexcept'.above habove k hk0 hk hkj
    · exact ⟨by omega, ho⟩

theorem down_ordered (hI : I.Keyed key) (hn : n ≤ I.len h)
    (hexcept : OrderedExcept key h n i) (hspans : Spans key h n i) :
    (I.down h i n = (h, false) ∧ ∀ k, 0 < k → k < n → (k - 1) / 2 = i → key h i ≤ key h k) ∨
      ((I.down h i n).2 = true ∧ OrderedTo key (I.down h i n).1 n) := by
  unfold down
  dsimp only
  rcases downLoop_ordered hI (n + 1) (by omega) hn hexcept hspans with ⟨hstay, habove⟩ | ⟨hmove, ho⟩
  · rw [hstay]
    exact .inl ⟨by simp, habove⟩
  · exact .inr ⟨by simpa using hmove, ho⟩

/-! ## The operations -/

section

variable (hI : I.Keyed key)
include hI

/-- The order is restored around one of the first `n` positions. -/
theorem settle_ordered (hi : i < n) (hn : n ≤ I.len h) (hexcept : OrderedExcept key h n i)
    (hspans : Spans key h n i) :
    OrderedTo key (if (I.down h i n).2 then (I.down h i n).1 else I.up (I.down h i n).1 i) n := by
  rcases down_ordered hI hn hexcept hspans with ⟨hstay, habove⟩ | ⟨hmove, ho⟩
  · rw [hstay]
    exact up_ordered hI hi hn (hexcept.above habove) hspans
  · rw [if_pos hmove]
    exact ho

theorem fix_ordered (hi : i < I.len h)
    (hexcept : OrderedExcept key h (I.len h) i) (hspans : Spans key h (I.len h) i) :
    OrderedTo key (I.fix h i) (I.len h) :=
  settle_ordered hI hi (le_refl _) hexcept hspans

/-- An entry appended to a heap in order travels up. -/
theorem heapPush_ordered {e : E} (ho : OrderedTo key h (I.len h))
    (hlen : I.len (I.push h e) = I.len h + 1) (hpush : ∀ k, k < I.len h → key (I.push h e) k = key h k) :
    OrderedTo key (I.heapPush h e) (I.len h + 1) := by
  unfold heapPush
  dsimp only
  rw [hlen, Nat.add_sub_cancel]
  apply up_ordered hI (Nat.lt_succ_self _) (le_of_eq hlen.symm)
  · intro k hk0 hk hne
    rw [hpush _ (by omega), hpush k (by omega)]
    exact ho k hk0 (by omega)
  · intro _ k hk0 hk hparent
    omega

/-- The last entry takes the place of another, and is moved to where it belongs among those before it. -/
theorem remove_ordered (ho : OrderedTo key h (I.len h)) (hi : i < I.len h - 1)
    (hn : n = I.len h - 1) : OrderedTo key (if (I.down (I.swap h i n) i n).2 then (I.down (I.swap h i n) i n).1
      else I.up (I.down (I.swap h i n) i n).1 i) n := by
  subst hn
  have hshort : OrderedTo key h (I.len h - 1) := fun k hk0 hk => ho k hk0 (by omega)
  have hsame : ∀ k, k < I.len h - 1 → k ≠ i → key (I.swap h i (I.len h - 1)) k = key h k := by
    intro k hk hki
    rw [hI.key_swap h i _ k (by omega) (by omega), if_neg (by omega), if_neg hki]
  obtain ⟨hexcept, hspans⟩ := hshort.replaced hsame
  refine settle_ordered hI hi ?_ hexcept hspans
  rw [hI.len_swap]
  omega

/-- What `heapPop` hands to `pop`: the root is at the end, and the entries before it are in order. -/
theorem heapPop_ordered (ho : OrderedTo key h (I.len h)) :
    OrderedTo key (I.down (I.swap h 0 (I.len h - 1)) 0 (I.len h - 1)).1 (I.len h - 1) := by
  rcases Nat.eq_zero_or_pos (I.len h - 1) with hzero | hpos
  · intro k _ hk
    omega
  have hordered := remove_ordered hI ho hpos rfl
  split at hordered
  · exact hordered
  · -- at the root there is nothing to move up
    exact hordered

end

end EthP2P.Lib.HeapInterface
