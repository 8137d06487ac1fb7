/-
# EthP2P.Lib.Ring — a linked list whose elements have identity

`container/list` hands out the element it inserted, and removes by element.  Elements are numbered
in the order in which they are created: the number is the element's identity and at the same time
its ticket, since elements are only ever appended at the back.  The structure carries the two facts
that make the numbers tickets, so every ring is in ticket order.
-/
import Mathlib.Data.List.Basic
import Mathlib.Data.List.Nodup

namespace EthP2P.Lib

/-- A list of values with their element numbers, in increasing order, all below `next`. -/
structure Ring (A : Type*) where
  items : List (Nat × A)
  next : Nat
  sorted : (items.map Prod.fst).Pairwise (· < ·)
  bound : ∀ e ∈ items, e.1 < next

namespace Ring

variable {A : Type*}

instance : EmptyCollection (Ring A) := ⟨⟨[], 0, .nil, by simp⟩⟩

/-- Append a value; its element is number `r.next`. -/
def pushBack (r : Ring A) (a : A) : Ring A where
  items := r.items ++ [(r.next, a)]
  next := r.next + 1
  sorted := by
    rw [List.map_append, List.pairwise_append]
    refine ⟨r.sorted, List.pairwise_singleton _ _, ?_⟩
    intro t ht t' ht'
    obtain ⟨e, he, rfl⟩ := List.mem_map.mp ht
    have hnew : t' = r.next := by simpa using ht'
    rw [hnew]
    exact r.bound e he
  bound := by
    intro e he
    rcases List.mem_append.mp he with he | he
    · have := r.bound e he
      omega
    have hnew : e = (r.next, a) := by simpa using he
    rw [hnew]
    exact Nat.lt_succ_self r.next

/-- Remove the element numbered `t`. -/
def remove (r : Ring A) (t : Nat) : Ring A where
  items := r.items.filter fun e => e.1 ≠ t
  next := r.next
  sorted := r.sorted.sublist (List.Sublist.map _ List.filter_sublist)
  bound e he := r.bound e (List.mem_of_mem_filter he)

/-- The first element. -/
def front (r : Ring A) : Option (Nat × A) := r.items.head?

variable {r : Ring A} {a b : A} {t t' : Nat}

@[simp] theorem mem_pushBack {e : Nat × A} : e ∈ (r.pushBack a).items ↔ e ∈ r.items ∨ e = (r.next, a) := by
  simp [pushBack]

@[simp] theorem mem_remove {e : Nat × A} : e ∈ (r.remove t).items ↔ e ∈ r.items ∧ e.1 ≠ t := by
  simp [remove]

/-- An element number stands for one value. -/
theorem value_unique (h : (t, a) ∈ r.items) (h' : (t, b) ∈ r.items) : a = b := by
  have hnd : (r.items.map Prod.fst).Nodup := r.sorted.imp fun hlt => Nat.ne_of_lt hlt
  exact congrArg Prod.snd (List.inj_on_of_nodup_map hnd h h' rfl)

theorem mem_of_front (h : r.front = some (t, a)) : (t, a) ∈ r.items :=
  List.mem_of_mem_head? h

/-- Removing the front leaves the tail. -/
theorem items_remove_front (h : r.front = some (t, a)) : r.items = (t, a) :: (r.remove t).items := by
  have hsorted := r.sorted
  unfold front at h
  cases hitems : r.items with
  | nil => rw [hitems] at h; cases h
  | cons e es =>
    rw [hitems] at h hsorted
    obtain rfl : e = (t, a) := by simpa using h
    have htail : ∀ e ∈ es, e.1 ≠ t := by
      intro e he
      have hlt := (List.pairwise_cons.mp hsorted).1 e.1 (List.mem_map_of_mem he)
      exact Nat.ne_of_gt hlt
    have hfilter : es.filter (fun e => e.1 ≠ t) = es :=
      List.filter_eq_self.mpr fun e he => by simpa using htail e he
    simp only [remove, hitems, List.filter_cons, ne_eq, not_true_eq_false, decide_false, Bool.false_eq_true, if_false]
    rw [show es.filter (fun e => decide ¬e.1 = t) = es from hfilter]

/-- The front is the oldest element. -/
theorem front_lt (h : r.front = some (t, a)) (h' : (t', b) ∈ r.items) (hne : t' ≠ t) : t < t' := by
  have hsorted := r.sorted
  rw [items_remove_front h] at hsorted
  refine (List.pairwise_cons.mp hsorted).1 t' (List.mem_map.mpr ⟨(t', b), ?_, rfl⟩)
  exact mem_remove.mpr ⟨h', hne⟩

end Ring

end EthP2P.Lib
