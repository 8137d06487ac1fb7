/-
# EthP2P.Lib.Heap — the algorithms of a binary heap over an interface

`container/heap` works on any collection that can compare and swap two positions and append and
remove at the end.  The algorithms here are the package's, over a record of these operations; the two
loops carry fuel, and the bound they are started with always suffices: a position only decreases in
`up`, and only increases below `n` in `down`.
-/
import Mathlib.Data.Nat.Basic

namespace EthP2P.Lib

/-- `heap.Interface` for a collection `H` of entries `E`. -/
structure HeapInterface (H E : Type*) where
  len : H → Nat
  less : H → Nat → Nat → Bool
  swap : H → Nat → Nat → H
  push : H → E → H
  pop : H → Option (E × H)

namespace HeapInterface

variable {H E : Type*} (I : HeapInterface H E)

/-- Move the entry at `j` towards the root. -/
def upLoop : Nat → H → Nat → H
  | 0, h, _ => h
  | fuel + 1, h, j =>
    let i := (j - 1) / 2
    if i = j ∨ I.less h j i = false then h else upLoop fuel (I.swap h i j) i

/-- `up`. -/
def up (h : H) (j : Nat) : H := I.upLoop (j + 1) h j

/-- The child of `i` that `down` compares with it: the right one if it is below the left one. -/
def child (h : H) (i n : Nat) : Nat :=
  let j₁ := 2 * i + 1
  if j₁ + 1 < n ∧ I.less h (j₁ + 1) j₁ = true then j₁ + 1 else j₁

/-- Move the entry at `i` away from the root within the first `n` positions; the position it ends
in. -/
def downLoop : Nat → H → Nat → Nat → H × Nat
  | 0, h, i, _ => (h, i)
  | fuel + 1, h, i, n =>
    if 2 * i + 1 ≥ n then (h, i)
    else
      let j := I.child h i n
      if I.less h j i = false then (h, i) else downLoop fuel (I.swap h i j) j n

/-- `down`, and whether the entry moved. -/
def down (h : H) (i n : Nat) : H × Bool :=
  let r := I.downLoop (n + 1) h i n
  (r.1, decide (i < r.2))

/-- `Push`. -/
def heapPush (h : H) (x : E) : H :=
  let h := I.push h x
  I.up h (I.len h - 1)

/-- `Pop`; it takes the root. -/
def heapPop (h : H) : Option (E × H) :=
  let n := I.len h - 1
  I.pop (I.down (I.swap h 0 n) 0 n).1

/-- Restore the order around a changed entry. -/
def fix (h : H) (i : Nat) : H :=
  let r := I.down h i (I.len h)
  if r.2 then r.1 else I.up r.1 i

/-- `Remove`; the last entry takes the place of the one at `i`. -/
def remove (h : H) (i : Nat) : Option (E × H) :=
  let n := I.len h - 1
  let h :=
    if n = i then h
    else
      let r := I.down (I.swap h i n) i n
      if r.2 then r.1 else I.up r.1 i
  I.pop h

/-! ## What the algorithms keep

A property of the collection that survives a swap of two positions below `m` survives the loops, as long
as they are started below `m`. -/

theorem child_lt (h : H) {i n : Nat} (hi : 2 * i + 1 < n) : I.child h i n < n := by
  unfold child
  dsimp only
  split <;> omega

section Keeps

variable {I} {K : H → Prop} {m : Nat} (hswap : ∀ h i j, i < m → j < m → K h → K (I.swap h i j))
include hswap

variable {h : H} {i n : Nat}

/-- What swaps keep, the loops keep. -/
theorem keeps_upLoop (fuel : Nat) (hh : K h) {j : Nat} (hj : j < m) : K (I.upLoop fuel h j) := by
  induction fuel generalizing h j with
  | zero => exact hh
  | succ fuel ih =>
    unfold upLoop
    dsimp only
    split
    · exact hh
    · have hparent : (j - 1) / 2 < m := by omega
      exact ih (hswap _ _ _ hparent hj hh) hparent

theorem keeps_downLoop (fuel : Nat) (hh : K h) (hi : i < m) (hn : n ≤ m) : K (I.downLoop fuel h i n).1 := by
  induction fuel generalizing h i with
  | zero => exact hh
  | succ fuel ih =>
    unfold downLoop
    dsimp only
    split
    · exact hh
    rename_i hchild
    have hj : I.child h i n < m := lt_of_lt_of_le (I.child_lt h (not_le.mp hchild)) hn
    split
    · exact hh
    · exact ih (hswap _ _ _ hi hj hh) hj

theorem keeps_up (hh : K h) {j : Nat} (hj : j < m) : K (I.up h j) := keeps_upLoop hswap _ hh hj

theorem keeps_down (hh : K h) (hi : i < m) (hn : n ≤ m) : K (I.down h i n).1 :=
  keeps_downLoop hswap _ hh hi hn

/-- An entry moves away from the root or, if it stays there, towards it. -/
theorem keeps_settle (hh : K h) (hi : i < m) (hn : n ≤ m) :
    K (if (I.down h i n).2 then (I.down h i n).1 else I.up (I.down h i n).1 i) := by
  have hdown := keeps_down hswap hh hi hn
  split
  · exact hdown
  · exact keeps_up hswap hdown hi

theorem keeps_fix (hh : K h) (hi : i < m) (hlen : I.len h ≤ m) : K (I.fix h i) :=
  keeps_settle hswap hh hi hlen

/-- The entry that is popped comes off a collection with the property. -/
theorem keeps_heapPop {h' : H} {e : E} (hh : K h) (hpos : 0 < m) (hlen : I.len h ≤ m)
    (hpop : I.heapPop h = some (e, h')) : ∃ h₀, K h₀ ∧ I.pop h₀ = some (e, h') := by
  have hlast : I.len h - 1 < m := by omega
  exact ⟨_, keeps_down hswap (hswap _ _ _ hpos hlast hh) hpos (by omega), hpop⟩

end Keeps

/-! ## The algorithms with their positions checked

A comparison or a swap of a position out of range is `none`. -/

section Checked

variable {H E : Type} (I : HeapInterface H E)

/-- `less`, of positions within the collection. -/
def lessIn (h : H) (i j : Nat) : Option Bool :=
  if i < I.len h ∧ j < I.len h then some (I.less h i j) else none

/-- `swap`, of positions within the collection. -/
def swapIn (h : H) (i j : Nat) : Option H := if i < I.len h ∧ j < I.len h then some (I.swap h i j) else none

/-- `upLoop`. -/
def upLoopIn : Nat → H → Nat → Option H
  | 0, h, _ => some h
  | fuel + 1, h, j =>
    let i := (j - 1) / 2
    if i = j then some h
    else do if ← I.lessIn h j i then upLoopIn fuel (← I.swapIn h i j) i else some h

/-- `child`. -/
def childIn (h : H) (i n : Nat) : Option Nat := do
  let j₁ := 2 * i + 1
  if j₁ + 1 < n then return if ← I.lessIn h (j₁ + 1) j₁ then j₁ + 1 else j₁ else return j₁

/-- `downLoop`. -/
def downLoopIn : Nat → H → Nat → Nat → Option (H × Nat)
  | 0, h, i, _ => some (h, i)
  | fuel + 1, h, i, n =>
    if 2 * i + 1 ≥ n then some (h, i)
    else do
      let j ← I.childIn h i n
      if ← I.lessIn h j i then downLoopIn fuel (← I.swapIn h i j) j n else some (h, i)

/-- `heapPush`. -/
def heapPushIn (h : H) (x : E) : Option H :=
  let h := I.push h x
  I.upLoopIn (I.len h - 1 + 1) h (I.len h - 1)

/-- `heapPop`. -/
def heapPopIn (h : H) : Option (E × H) := do
  let n := I.len h - 1
  let r ← I.downLoopIn (n + 1) (← I.swapIn h 0 n) 0 n
  I.pop r.1

/-- `fix`. -/
def fixIn (h : H) (i : Nat) : Option H := do
  let r ← I.downLoopIn (I.len h + 1) h i (I.len h)
  if i < r.2 then some r.1 else I.upLoopIn (i + 1) r.1 i

variable {I} {h : H} {i j n : Nat}

theorem lessIn_eq (hi : i < I.len h) (hj : j < I.len h) : I.lessIn h i j = some (I.less h i j) := if_pos ⟨hi, hj⟩

theorem swapIn_eq (hi : i < I.len h) (hj : j < I.len h) : I.swapIn h i j = some (I.swap h i j) := if_pos ⟨hi, hj⟩

theorem childIn_eq (hn : n ≤ I.len h) : I.childIn h i n = some (I.child h i n) := by
  unfold childIn child
  by_cases hlt : 2 * i + 1 + 1 < n
  · simp [hlt, lessIn_eq (I := I) (h := h) (i := 2 * i + 1 + 1) (j := 2 * i + 1) (by omega) (by omega)]
  · simp [hlt]

variable (hlen : ∀ h i j, I.len (I.swap h i j) = I.len h)
include hlen

theorem upLoopIn_eq (fuel : Nat) (hj : j < I.len h) : I.upLoopIn fuel h j = some (I.upLoop fuel h j) := by
  induction fuel generalizing h j with
  | zero => rfl
  | succ fuel ih =>
    have hparent : (j - 1) / 2 < I.len h := by omega
    have hloop := ih (h := I.swap h ((j - 1) / 2) j) (by rwa [hlen])
    unfold upLoopIn upLoop
    by_cases hroot : (j - 1) / 2 = j
    · simp [hroot]
    simp only [lessIn_eq hj hparent, swapIn_eq hparent hj, Option.bind_eq_bind, Option.bind_some, hloop]
    cases I.less h j ((j - 1) / 2) <;> simp [hroot]

/-- The loop stays below `n`. -/
theorem downLoopIn_eq (fuel : Nat) (hi : i < I.len h) (hn : n ≤ I.len h) :
    I.downLoopIn fuel h i n = some (I.downLoop fuel h i n) := by
  induction fuel generalizing h i with
  | zero => rfl
  | succ fuel ih =>
    unfold downLoopIn downLoop
    dsimp only
    split
    · rfl
    rename_i hchild
    have hj : I.child h i n < I.len h := lt_of_lt_of_le (I.child_lt h (not_le.mp hchild)) hn
    rw [childIn_eq hn]
    generalize I.child h i n = j at hj ⊢
    have hloop := ih (h := I.swap h i j) (i := j) (by rwa [hlen]) (by rwa [hlen])
    simp only [lessIn_eq hj hi, swapIn_eq hi hj, Option.bind_eq_bind, Option.bind_some, hloop]
    cases I.less h j i <;> simp

theorem len_downLoop (fuel : Nat) (hi : i < I.len h) (hn : n ≤ I.len h) :
    I.len (I.downLoop fuel h i n).1 = I.len h :=
  keeps_downLoop (K := fun g => I.len g = I.len h) (fun g i j _ _ hg => (hlen g i j).trans hg) fuel rfl hi hn

theorem fixIn_eq (hi : i < I.len h) : I.fixIn h i = some (I.fix h i) := by
  have hup := upLoopIn_eq hlen (i + 1) (h := (I.downLoop (I.len h + 1) h i (I.len h)).1) (j := i)
    (by rwa [len_downLoop hlen _ hi le_rfl])
  simp only [fixIn, fix, down, up, downLoopIn_eq hlen _ hi le_rfl, Option.bind_eq_bind, Option.bind_some, hup,
    decide_eq_true_eq]
  split <;> rfl

theorem heapPushIn_eq (x : E) (hpos : 0 < I.len (I.push h x)) : I.heapPushIn h x = some (I.heapPush h x) :=
  upLoopIn_eq hlen _ (by omega)

theorem heapPopIn_eq (hpos : 0 < I.len h) : I.heapPopIn h = I.heapPop h := by
  have hlast : I.len h - 1 < I.len h := by omega
  have hdown := downLoopIn_eq hlen (I.len h - 1 + 1) (h := I.swap h 0 (I.len h - 1)) (i := 0) (n := I.len h - 1)
    (by rwa [hlen]) (by rw [hlen]; omega)
  simp only [heapPopIn, heapPop, down, swapIn_eq hpos hlast, Option.bind_eq_bind, Option.bind_some, hdown]

end Checked

end HeapInterface

end EthP2P.Lib
