/-
# EthP2P.Lib.Logs — histories tagged by a key

A history of a system with many parties is one list of tagged entries, in the order in which they
happened.  `logOf k` is the part of one party.
-/
import Mathlib.Data.List.Basic
import EthP2P.Lib.Maps

namespace EthP2P.Lib

variable {K A : Type*} [DecidableEq K]

/-- The entries tagged `k`, in order. -/
def logOf (k : K) (log : List (K × A)) : List A :=
  log.filterMap fun e => if e.1 = k then some e.2 else none

@[simp] theorem logOf_nil (k : K) : logOf k ([] : List (K × A)) = [] := rfl

@[simp] theorem logOf_append (k : K) (log log' : List (K × A)) :
    logOf k (log ++ log') = logOf k log ++ logOf k log' := List.filterMap_append

@[simp] theorem logOf_singleton (k k' : K) (a : A) : logOf k [(k', a)] = if k' = k then [a] else [] := by
  by_cases h : k' = k <;> simp [logOf, h]

/-- Entries that all carry the same tag. -/
theorem logOf_map_pair (k k' : K) (as : List A) : logOf k (as.map fun a => (k', a)) = if k' = k then as else [] := by
  induction as with
  | nil => simp
  | cons a as ih =>
    rw [List.map_cons, ← List.singleton_append, logOf_append, logOf_singleton, ih]
    split <;> rfl

theorem mem_logOf {k : K} {a : A} {log : List (K × A)} : a ∈ logOf k log ↔ (k, a) ∈ log := by
  simp only [logOf, List.mem_filterMap]
  constructor
  · rintro ⟨⟨k', a'⟩, hmem, heq⟩
    split at heq
    · rename_i hk
      cases heq
      exact hk ▸ hmem
    · cases heq
  · intro hmem
    exact ⟨(k, a), hmem, by simp⟩

/-- One entry for each value of a map: a value that has one key only gets one. -/
theorem logOf_entries {J : Type*} [DecidableEq J] {m : Map J K} {v : K} {k : J}
    (hkey : ∀ k', m.get k' = some v → k' = k) (a : A) :
    logOf v (m.entries.map fun e => (e.2, a)) = if m.get k = some v then [a] else [] := by
  have hlist : ∀ l : List (J × K), (l.map Prod.fst).Nodup → (∀ e ∈ l, e.2 = v → e.1 = k) →
      logOf v (l.map fun e => (e.2, a)) = if (k, v) ∈ l then [a] else [] := by
    intro l
    induction l with
    | nil => exact fun _ _ => rfl
    | cons e l ih =>
      intro hnodup hall
      obtain ⟨hnot, hnodup⟩ := List.nodup_cons.mp hnodup
      rw [List.map_cons, ← List.singleton_append, logOf_append, logOf_singleton,
        ih hnodup fun e' he' => hall e' (List.mem_cons_of_mem _ he')]
      by_cases hv : e.2 = v
      · -- the one entry with this value: its key does not come again
        have hk : e.1 = k := hall e List.mem_cons_self hv
        have habsent : (k, v) ∉ l := by
          intro hmem
          exact hnot (hk ▸ List.mem_map_of_mem (f := Prod.fst) hmem)
        have hmem : (k, v) ∈ e :: l := by
          rw [← hk, ← hv]
          exact List.mem_cons_self
        rw [if_pos hv, if_neg habsent, if_pos hmem]
        rfl
      · have hiff : (k, v) ∈ e :: l ↔ (k, v) ∈ l := by
          rw [List.mem_cons]
          exact or_iff_right fun heq => hv (congrArg Prod.snd heq).symm
        simp only [if_neg hv, hiff, List.nil_append]
  have hnodup : (m.entries.map Prod.fst).Nodup := by
    rw [Map.entries_keys]
    exact m.keys_nodup
  rw [hlist m.entries hnodup fun e he hv => hkey e.1 (hv ▸ Map.mem_entries.mp he)]
  simp only [Map.mem_entries]

end EthP2P.Lib
