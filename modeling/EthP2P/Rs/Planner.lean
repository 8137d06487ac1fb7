/-
# EthP2P.Rs.Planner — which chunk to send next

`emitPlanner` (`emit.go`) is a binary heap of the held chunks, least allocated first, with the position
of each chunk kept in a map so that an entry can be changed in place.

Seen from outside it is a finite map from chunks to entries.  `Holds h m` says that `h` stores the map `m`
with the positions right; each operation then reads as an update of `m`, whatever the heap does with the
order.  `Ordered` is what the order is for: the first entry has the least key.
-/
import Mathlib.Data.Prod.Lex
import Mathlib.Logic.Function.Basic
import EthP2P.Lib.GoInt
import EthP2P.Lib.HeapOrder
import EthP2P.Lib.Maps
import EthP2P.Lib.Runs

namespace EthP2P.Rs

open Lib Function HeapInterface List Option

/-- The allocation and send state of one chunk. -/
structure EmitEntry where
  idx : Int
  times : Int := 0
  sent : Int := 0
  priority : UInt32 := 0
  deriving DecidableEq, Repr

/-- Entries are ordered by their allocations, then by their priority. -/
def EmitEntry.key (e : EmitEntry) : Int ×ₗ UInt32 := toLex (e.times, e.priority)

structure EmitPlanner where
  idToIndex : Map Int Nat := ∅
  entries : List EmitEntry := []

namespace EmitPlanner

variable (h : EmitPlanner)

def len : Nat := h.entries.length

/-- The entry at a position. -/
def entry (i : Nat) : EmitEntry := h.entries.getD i { idx := 0 }

def less (i j : Nat) : Bool :=
  let a := h.entry i
  let b := h.entry j
  if a.times ≠ b.times then a.times < b.times else a.priority < b.priority

def swap (i j : Nat) : EmitPlanner :=
  let entries := (h.entries.set i (h.entry j)).set j (h.entry i)
  { entries := entries
    idToIndex := (h.idToIndex.set (entries.getD i { idx := 0 }).idx i).set (entries.getD j { idx := 0 }).idx j }

def push (ec : EmitEntry) : EmitPlanner :=
  { idToIndex := h.idToIndex.set ec.idx h.entries.length, entries := h.entries ++ [ec] }

def pop : Option (EmitEntry × EmitPlanner) :=
  h.entries.getLast?.map fun ec =>
    (ec, { idToIndex := h.idToIndex.del ec.idx, entries := h.entries.dropLast })

/-- The planner as a `heap.Interface`. -/
def heap : HeapInterface EmitPlanner EmitEntry :=
  { len := len, less := less, swap := swap, push := push, pop := pop }

/-- Write the entry at a position. -/
def modify (h : EmitPlanner) (i : Nat) (f : EmitEntry → EmitEntry) : EmitPlanner :=
  { h with entries := h.entries.modify i f }

def Insert (ec : EmitEntry) : EmitPlanner :=
  match h.idToIndex.get ec.idx with
  | some i => heap.fix (h.modify i fun _ => ec) i
  | none => heap.heapPush h ec

def Top : Option EmitEntry := h.entries.head?

/-- `PopFront` on a non-empty planner. -/
def PopFront : Option (EmitEntry × EmitPlanner) := heap.heapPop h

/-- Change the `times` of a chunk and restore the order.  The callers add one or take one away, so the `int` of
the source would wrap only after `2 ^ 63` allocations of one chunk. -/
def addTimes (id delta : Int) : EmitPlanner :=
  match h.idToIndex.get id with
  | none => h
  | some i => heap.fix (h.modify i fun ec => { ec with times := ec.times + delta }) i

def Increment (id : Int) : EmitPlanner := h.addTimes id 1

def Decrement (id : Int) : EmitPlanner := h.addTimes id (-1)

def Delete (id : Int) : Option EmitPlanner :=
  match h.idToIndex.get id with
  | none => some h
  | some i => (heap.remove h i).map Prod.snd

/-- `AddSent`; the strategy adds one for each report of a success, so `Sent` does not wrap either. -/
def AddSent (id delta : Int) : EmitPlanner :=
  match h.idToIndex.get id with
  | none => h
  | some i => h.modify i fun ec => { ec with sent := ec.sent + delta }

/-! ## The planner as a map -/

/-- The entry of a chunk. -/
def lookup (id : Int) : Option EmitEntry := (h.idToIndex.get id).bind fun i => h.entries[i]?

/-- The planner stores the entries `m`, and knows where each of them is. -/
structure Holds (h : EmitPlanner) (m : Int → Option EmitEntry) : Prop where
  at_position : ∀ i e, h.entries[i]? = some e → h.idToIndex.get e.idx = some i
  positioned : ∀ id i, h.idToIndex.get id = some i → ∃ e, h.entries[i]? = some e ∧ e.idx = id
  model : ∀ id, m id = h.lookup id

section
variable {h h' : EmitPlanner} {m : Int → Option EmitEntry} {e : EmitEntry}

/-- What the planner stores, read off its entries and its index. -/
theorem Holds.of_positions (hat : ∀ i e, h.entries[i]? = some e → h.idToIndex.get e.idx = some i ∧ m e.idx = some e)
    (hpos : ∀ id i, h.idToIndex.get id = some i → ∃ e, h.entries[i]? = some e ∧ e.idx = id)
    (hnone : ∀ id, h.idToIndex.get id = none → m id = none) : h.Holds m := by
  refine ⟨fun i e he => (hat i e he).1, hpos, fun id => ?_⟩
  rw [lookup]
  cases hid : h.idToIndex.get id with
  | none => exact hnone id hid
  | some i =>
    obtain ⟨e, he, rfl⟩ := hpos id i hid
    rw [bind_some, he]
    exact (hat i e he).2

theorem holds_empty : Holds {} fun _ => none := by
  refine ⟨?_, ?_, ?_⟩
  · intro i e he
    simp at he
  · intro id i hi
    simp at hi
  · intro id
    rfl

variable {i j : Nat} {id : Int}

section

variable (hh : h.Holds m)
include hh

theorem Holds.of_entry (he : h.entries[i]? = some e) : m e.idx = some e := by
  rw [hh.model, lookup, hh.at_position i e he]
  exact he

/-- An entry of the map is at a position. -/
theorem Holds.position (he : m id = some e) :
    ∃ i, h.idToIndex.get id = some i ∧ h.entries[i]? = some e ∧ e.idx = id := by
  rw [hh.model] at he
  obtain ⟨i, hi, hentry⟩ := bind_eq_some_iff.mp he
  obtain ⟨e', he', hid⟩ := hh.positioned id i hi
  cases hentry.symm.trans he'
  exact ⟨i, hi, hentry, hid⟩

theorem Holds.idx_eq (he : m id = some e) : e.idx = id := by
  obtain ⟨_, _, _, hid⟩ := hh.position he
  exact hid

theorem Holds.get_none (hid : m id = none) : h.idToIndex.get id = none := by
  by_contra hne
  obtain ⟨i, hi⟩ := ne_none_iff_exists'.mp hne
  obtain ⟨e, he, rfl⟩ := hh.positioned id i hi
  rw [hh.of_entry he] at hid
  cases hid

theorem Holds.none_of_get (hid : h.idToIndex.get id = none) : m id = none := by
  rw [hh.model, lookup, hid]
  rfl

/-- Two entries at different positions are of different chunks. -/
theorem Holds.idx_ne {e' : EmitEntry} (hi : h.entries[i]? = some e)
    (hj : h.entries[j]? = some e') (hij : i ≠ j) : e.idx ≠ e'.idx := by
  intro heq
  have hpos := hh.at_position i e hi
  rw [heq, hh.at_position j e' hj] at hpos
  exact hij (some.inj hpos).symm

end

theorem getElem?_swap (h : EmitPlanner) {a b : EmitEntry} (hi : h.entries[i]? = some a)
    (hj : h.entries[j]? = some b) (k : Nat) :
    (h.swap i j).entries[k]? = if k = j then some a else if k = i then some b else h.entries[k]? := by
  have hilen : i < h.entries.length := (List.getElem?_eq_some_iff.mp hi).1
  have hjlen : j < h.entries.length := (List.getElem?_eq_some_iff.mp hj).1
  have hentry : h.entry i = a ∧ h.entry j = b := by
    simp [entry, getD_eq_getElem?_getD, hi, hj]
  simp only [swap, hentry, getElem?_set, length_set]
  by_cases hk : k = j
  · simp [hk, hjlen]
  by_cases hk' : k = i
  · subst hk'
    simp [hilen, Ne.symm hk, hk]
  · simp [hk, hk', Ne.symm hk, Ne.symm hk']

theorem get_swap (h : EmitPlanner) {a b : EmitEntry} (hi : h.entries[i]? = some a)
    (hj : h.entries[j]? = some b) (id : Int) :
    (h.swap i j).idToIndex.get id
      = if id = a.idx then some j else if id = b.idx then some i else h.idToIndex.get id := by
  have hatj : (h.swap i j).entries.getD j { idx := 0 } = a := by
    rw [getD_eq_getElem?_getD, getElem?_swap h hi hj, if_pos rfl]
    rfl
  have hati : (h.swap i j).entries.getD i { idx := 0 } = if i = j then a else b := by
    rw [getD_eq_getElem?_getD, getElem?_swap h hi hj, if_pos rfl]
    split <;> rfl
  have hget : (h.swap i j).idToIndex
      = (h.idToIndex.set ((h.swap i j).entries.getD i { idx := 0 }).idx i).set
          ((h.swap i j).entries.getD j { idx := 0 }).idx j := rfl
  rw [hget, hatj, hati, Map.get_set, Map.get_set]
  by_cases hid : id = a.idx
  · rw [if_pos hid, if_pos hid]
  rw [if_neg hid, if_neg hid]
  by_cases hij : i = j
  · -- the same position twice
    subst hij
    cases hi.symm.trans hj
    rw [if_pos rfl, if_neg hid]
  · rw [if_neg hij]

theorem Holds.swap (hh : h.Holds m) (hi : i < h.entries.length) (hj : j < h.entries.length) :
    (h.swap i j).Holds m := by
  obtain ⟨a, ha⟩ : ∃ a, h.entries[i]? = some a := ⟨_, getElem?_eq_getElem hi⟩
  obtain ⟨b, hb⟩ : ∃ b, h.entries[j]? = some b := ⟨_, getElem?_eq_getElem hj⟩
  have hentries := getElem?_swap h ha hb
  have hget := get_swap h ha hb
  refine .of_positions (fun k e he => ?_) (fun id k hk => ?_) fun id hid => ?_
  · rw [hentries] at he
    rw [hget]
    split at he
    · rename_i hkj
      cases he
      exact ⟨by rw [if_pos rfl, hkj], hh.of_entry ha⟩
    rename_i hkj
    split at he
    · rename_i hki
      cases he
      have hij : j ≠ i := fun heq => hkj (hki.trans heq.symm)
      exact ⟨by rw [if_neg (hh.idx_ne hb ha hij), if_pos rfl, hki], hh.of_entry hb⟩
    · rename_i hki
      rw [if_neg (hh.idx_ne he ha hki), if_neg (hh.idx_ne he hb hkj)]
      exact ⟨hh.at_position k e he, hh.of_entry he⟩
  · rw [hget] at hk
    split at hk
    · rename_i hid
      cases hk
      exact ⟨a, by rw [hentries, if_pos rfl], hid.symm⟩
    rename_i hida
    split at hk
    · rename_i hid
      cases hk
      have hij : i ≠ j := by
        rintro rfl
        exact hida (hid.trans (congrArg EmitEntry.idx (some.inj (hb.symm.trans ha))))
      exact ⟨b, by rw [hentries, if_neg hij, if_pos rfl], hid.symm⟩
    -- the chunks of other positions stay where they are
    rename_i hidb
    obtain ⟨e, he, rfl⟩ := hh.positioned id k hk
    have hki : k ≠ i := by
      rintro rfl
      exact hida (congrArg EmitEntry.idx (some.inj (he.symm.trans ha)))
    have hkj : k ≠ j := by
      rintro rfl
      exact hidb (congrArg EmitEntry.idx (some.inj (he.symm.trans hb)))
    exact ⟨e, by rw [hentries, if_neg hkj, if_neg hki]; exact he, rfl⟩
  · rw [hget] at hid
    split at hid
    · cases hid
    split at hid
    · cases hid
    · exact hh.none_of_get hid

/-- The planner stores the entries `m` in `n` positions. -/
def HoldsIn (m : Int → Option EmitEntry) (n : Nat) (h : EmitPlanner) : Prop :=
  h.Holds m ∧ h.entries.length = n

/-- Swaps within the planner keep what it holds. -/
theorem holdsIn_swap {n : Nat} (h : EmitPlanner) (i j : Nat) (hi : i < n) (hj : j < n) (hh : HoldsIn m n h) :
    HoldsIn m n (heap.swap h i j) := by
  obtain ⟨hh, rfl⟩ := hh
  refine ⟨hh.swap hi hj, ?_⟩
  simp [heap, EmitPlanner.swap]

theorem Holds.push (hh : h.Holds m) (hnew : m e.idx = none) : (h.push e).Holds (update m e.idx (some e)) := by
  have hfresh := hh.get_none hnew
  have hne : ∀ (k : Nat) (e' : EmitEntry), h.entries[k]? = some e' → e'.idx ≠ e.idx := by
    intro k e' he' heq
    rw [← heq, hh.at_position k e' he'] at hfresh
    cases hfresh
  refine .of_positions (fun k e' he' => ?_) (fun id k hk => ?_) fun id hid => ?_
  · simp only [EmitPlanner.push, getElem?_append] at he' ⊢
    rw [Map.get_set]
    split at he'
    · rw [if_neg (hne k e' he'), update_of_ne (hne k e' he')]
      exact ⟨hh.at_position k e' he', hh.of_entry he'⟩
    rename_i hk
    obtain ⟨hk', rfl⟩ : k - h.entries.length = 0 ∧ e' = e := by
      simpa [getElem?_singleton, eq_comm] using he'
    rw [if_pos rfl, update_self]
    exact ⟨congrArg some (by omega), rfl⟩
  · simp only [EmitPlanner.push, Map.get_set] at hk ⊢
    split at hk
    · rename_i hid
      cases hk
      exact ⟨e, by simp, hid.symm⟩
    · obtain ⟨e', he', hid⟩ := hh.positioned id k hk
      exact ⟨e', by rw [List.getElem?_append_left (List.getElem?_eq_some_iff.mp he').1]; exact he', hid⟩
  · simp only [EmitPlanner.push, Map.get_set] at hid
    split at hid
    · cases hid
    rename_i hne'
    rw [update_of_ne hne']
    exact hh.none_of_get hid

/-- An entry is changed in its place. -/
theorem Holds.modify (hh : h.Holds m) (hi : h.entries[i]? = some e) {f : EmitEntry → EmitEntry}
    (hf : (f e).idx = e.idx) : (h.modify i f).Holds (update m e.idx (some (f e))) := by
  have hentries : ∀ k, (h.modify i f).entries[k]? = if k = i then some (f e) else h.entries[k]? := by
    intro k
    simp only [EmitPlanner.modify, getElem?_modify]
    by_cases hk : k = i
    · subst hk
      simp [hi]
    · simp [hk, Ne.symm hk]
  have hget : ∀ id, (h.modify i f).idToIndex.get id = h.idToIndex.get id := fun _ => rfl
  refine .of_positions (fun k e' he' => ?_) (fun id k hk => ?_) fun id hid => ?_
  · rw [hentries] at he'
    rw [hget]
    split at he'
    · rename_i hk
      cases he'
      rw [hf, hk, update_self]
      exact ⟨hh.at_position i e hi, rfl⟩
    · rename_i hk
      rw [update_of_ne (hh.idx_ne he' hi hk)]
      exact ⟨hh.at_position k e' he', hh.of_entry he'⟩
  · obtain ⟨e', he', rfl⟩ := hh.positioned id k hk
    rw [hentries]
    split
    · rename_i hk'
      subst hk'
      cases hi.symm.trans he'
      exact ⟨f e, rfl, hf⟩
    · exact ⟨e', he', rfl⟩
  · have hne : id ≠ e.idx := by
      rintro rfl
      rw [hget, hh.at_position i e hi] at hid
      cases hid
    rw [update_of_ne hne]
    exact hh.none_of_get hid

theorem Holds.pop (hh : h.Holds m) (hpop : h.pop = some (e, h')) :
    m e.idx = some e ∧ h'.Holds (update m e.idx none) := by
  obtain ⟨e', hlast, heq⟩ := map_eq_some_iff.mp hpop
  obtain ⟨rfl, rfl⟩ := Prod.mk.inj heq
  have hat : h.entries[h.entries.length - 1]? = some e' := by
    rw [← getLast?_eq_getElem?]
    exact hlast
  have hdrop : ∀ k, h.entries.dropLast[k]? = if k < h.entries.length - 1 then h.entries[k]? else none := by
    intro k
    rw [dropLast_eq_take, getElem?_take]
  refine ⟨hh.of_entry hat, .of_positions (fun k a ha => ?_) (fun id k hk => ?_) fun id hid => ?_⟩
  · rw [hdrop] at ha
    split at ha
    · rename_i hk
      have hne := hh.idx_ne ha hat (by omega)
      rw [Map.get_del, if_neg hne, update_of_ne hne]
      exact ⟨hh.at_position k a ha, hh.of_entry ha⟩
    · cases ha
  · rw [Map.get_del] at hk
    split at hk
    · cases hk
    rename_i hid
    obtain ⟨a, ha, rfl⟩ := hh.positioned id k hk
    have hlt : k < h.entries.length := (List.getElem?_eq_some_iff.mp ha).1
    have hk' : k ≠ h.entries.length - 1 := by
      rintro rfl
      exact hid (congrArg EmitEntry.idx (some.inj (ha.symm.trans hat)))
    exact ⟨a, by rw [hdrop, if_pos (by omega)]; exact ha, rfl⟩
  · by_cases hne : id = e'.idx
    · rw [hne, update_self]
    rw [Map.get_del, if_neg hne] at hid
    rw [update_of_ne hne]
    exact hh.none_of_get hid

/-! ### The operations as updates of the map -/

section

variable (hh : h.Holds m)
include hh

theorem Holds.fix (hi : i < h.entries.length) : (heap.fix h i).Holds m :=
  (keeps_fix (K := HoldsIn m _) holdsIn_swap ⟨hh, rfl⟩ hi (Nat.le_refl _)).1

theorem Holds.insert (e : EmitEntry) : (h.Insert e).Holds (update m e.idx (some e)) := by
  unfold Insert
  split
  · rename_i i hi
    obtain ⟨e', he', hid⟩ := hh.positioned e.idx i hi
    have hmodify := hh.modify he' (f := fun _ => e) hid.symm
    rw [hid] at hmodify
    refine hmodify.fix ?_
    have hlt := (List.getElem?_eq_some_iff.mp he').1
    simpa [EmitPlanner.modify] using hlt
  · rename_i hnone
    have hpush := hh.push (hh.none_of_get hnone)
    have hlast : heap.len (heap.push h e) - 1 < (h.push e).entries.length := by
      simp [heap, len, EmitPlanner.push]
    exact (keeps_up (K := HoldsIn _ _) holdsIn_swap ⟨hpush, rfl⟩ hlast).1

theorem addTimes_none (hid : m id = none) (delta : Int) : h.addTimes id delta = h := by
  rw [addTimes, hh.get_none hid]

theorem Holds.addTimes (hid : m id = some e) (delta : Int) :
    (h.addTimes id delta).Holds (update m id (some { e with times := e.times + delta })) := by
  obtain ⟨i, hi, he, rfl⟩ := hh.position hid
  rw [EmitPlanner.addTimes, hi]
  refine (hh.modify he (f := fun ec => { ec with times := ec.times + delta }) rfl).fix ?_
  have hlt := (List.getElem?_eq_some_iff.mp he).1
  simpa [EmitPlanner.modify] using hlt

theorem addSent_none (hid : m id = none) (delta : Int) : h.AddSent id delta = h := by
  rw [AddSent, hh.get_none hid]

theorem Holds.addSent (hid : m id = some e) (delta : Int) :
    (h.AddSent id delta).Holds (update m id (some { e with sent := e.sent + delta })) := by
  obtain ⟨i, hi, he, rfl⟩ := hh.position hid
  rw [AddSent, hi]
  exact hh.modify he (f := fun ec => { ec with sent := ec.sent + delta }) rfl

theorem Holds.top (htop : h.Top = some e) : m e.idx = some e := by
  apply hh.of_entry (i := 0)
  rw [← head?_eq_getElem?]
  exact htop

end

/-- Nothing can be popped off an empty planner. -/
theorem popFront_none (htop : h.Top = none) : h.PopFront = none := by
  obtain ⟨idToIndex, entries⟩ := h
  obtain rfl := head?_eq_none_iff.mp htop
  rfl

theorem Holds.popFront (hh : h.Holds m) (hpop : h.PopFront = some (e, h')) :
    m e.idx = some e ∧ h'.Holds (update m e.idx none) := by
  by_cases hempty : h.entries = []
  · rw [popFront_none (head?_eq_none_iff.mpr hempty)] at hpop
    cases hpop
  have hpos : 0 < h.entries.length := length_pos_iff.mpr hempty
  obtain ⟨h₀, ⟨hh₀, _⟩, hlast⟩ :=
    keeps_heapPop (K := HoldsIn m _) holdsIn_swap ⟨hh, rfl⟩ hpos (Nat.le_refl _) hpop
  exact hh₀.pop hlast

end

/-! ## The order -/

/-- The key at a position. -/
def keyAt (i : Nat) : Int ×ₗ UInt32 := (h.entry i).key

/-- No entry is below its parent in the heap. -/
def Ordered : Prop := OrderedTo keyAt h h.len

section
variable {h h' : EmitPlanner} {m : Int → Option EmitEntry} {e : EmitEntry}

theorem less_iff (h : EmitPlanner) (i j : Nat) : h.less i j = true ↔ h.keyAt i < h.keyAt j := by
  unfold less keyAt EmitEntry.key
  dsimp only
  rw [Prod.Lex.toLex_lt_toLex]
  by_cases heq : (h.entry i).times = (h.entry j).times
  · simp [heq]
  · simp [heq]

theorem length_swap (h : EmitPlanner) (i j : Nat) : (h.swap i j).entries.length = h.entries.length := by
  simp [swap]

theorem keyed : heap.Keyed keyAt where
  less := less_iff
  len_swap := length_swap
  key_swap h i j k hi hj := by
    have hget := getElem?_swap h (getElem?_eq_getElem hi) (getElem?_eq_getElem hj) k
    have hat : ∀ {l : Nat} (hl : l < h.entries.length), h.entry l = h.entries[l] := by
      intro l hl
      rw [entry, getD_eq_getElem?_getD, getElem?_eq_getElem hl]
      rfl
    show (EmitEntry.key ((h.swap i j).entries.getD k _)) = _
    rw [getD_eq_getElem?_getD, hget]
    unfold keyAt
    split
    · rw [hat hi]
      rfl
    split
    · rw [hat hj]
      rfl
    · rw [← getD_eq_getElem?_getD]
      rfl

theorem len_fix (h : EmitPlanner) {i : Nat} (hi : i < h.len) : (heap.fix h i).len = h.len :=
  keeps_fix (K := fun h' => h'.len = h.len)
    (fun h' i j _ _ hlen => (length_swap h' i j).trans hlen) rfl hi (Nat.le_refl _)

/-- An entry of an ordered planner is replaced and put in its place. -/
theorem Ordered.fix (ho : h.Ordered) {i : Nat} (hi : i < h.len) (f : EmitEntry → EmitEntry) :
    (heap.fix (h.modify i f) i).Ordered := by
  have hlen : (h.modify i f).len = h.len := length_modify ..
  have hsame : ∀ k, k ≠ i → (h.modify i f).keyAt k = h.keyAt k := by
    intro k hk
    simp [keyAt, entry, EmitPlanner.modify, getD_eq_getElem?_getD, Ne.symm hk]
  obtain ⟨hexcept, hspans⟩ := ho.replaced fun k _ => hsame k
  unfold Ordered
  rw [len_fix _ (by omega)]
  rw [← hlen] at hexcept hspans
  exact fix_ordered keyed (show i < heap.len (h.modify i f) by change i < (h.modify i f).len; omega) hexcept hspans

theorem Ordered.insert (ho : h.Ordered) (hh : h.Holds m) (e : EmitEntry) : (h.Insert e).Ordered := by
  unfold Insert
  split
  · rename_i i hi
    obtain ⟨e', he', _⟩ := hh.positioned e.idx i hi
    exact ho.fix (List.getElem?_eq_some_iff.mp he').1 _
  have hlen : heap.len (heap.push h e) = h.len + 1 := by
    simp [heap, len, EmitPlanner.push]
  have hpush : ∀ k, k < heap.len h → (heap.push h e).keyAt k = h.keyAt k := by
    intro k hk
    show EmitEntry.key ((h.entries ++ [e]).getD k _) = _
    rw [getD_eq_getElem?_getD, getElem?_append_left hk, ← getD_eq_getElem?_getD]
    rfl
  have hordered := heapPush_ordered keyed ho hlen hpush
  have hlast : heap.len (heap.push h e) - 1 < heap.len (heap.push h e) := by omega
  have hsame : (heap.heapPush h e).len = h.len + 1 :=
    keeps_up (I := heap) (K := fun h' => h'.len = h.len + 1)
      (fun h' i j _ _ hlen => (length_swap h' i j).trans hlen) hlen hlast
  unfold Ordered
  rw [hsame]
  exact hordered

theorem Ordered.addTimes (ho : h.Ordered) (hh : h.Holds m) (id delta : Int) : (h.addTimes id delta).Ordered := by
  unfold EmitPlanner.addTimes
  split
  · exact ho
  rename_i i hi
  obtain ⟨e', he', _⟩ := hh.positioned id i hi
  exact ho.fix (List.getElem?_eq_some_iff.mp he').1 _

/-- The sends do not count in the order. -/
theorem Ordered.addSent (ho : h.Ordered) (id delta : Int) : (h.AddSent id delta).Ordered := by
  unfold AddSent
  split
  · exact ho
  rename_i i _
  have hkey : ∀ k, (h.modify i fun ec => { ec with sent := ec.sent + delta }).keyAt k = h.keyAt k := by
    intro k
    unfold keyAt entry EmitPlanner.modify
    rw [getD_eq_getElem?_getD, getElem?_modify, getD_eq_getElem?_getD]
    cases h.entries[k]? with
    | none => rfl
    | some e => by_cases hk : i = k <;> simp [hk, EmitEntry.key]
  intro k hk0 hk
  rw [hkey, hkey]
  exact ho k hk0 (by simpa [len, EmitPlanner.modify] using hk)

/-- The entry `e` comes after `n` others. -/
def Last (e : EmitEntry) (n : Nat) (h : EmitPlanner) : Prop := h.entries[n]? = some e ∧ h.len = n + 1

/-- Swaps among the others leave it there. -/
theorem last_swap {n : Nat} (h : EmitPlanner) (i j : Nat) (hi : i < n) (hj : j < n) (hl : Last e n h) :
    Last e n (heap.swap h i j) := by
  have hlen : h.entries.length = n + 1 := hl.2
  refine ⟨?_, (length_swap h i j).trans hl.2⟩
  show (h.swap i j).entries[n]? = some e
  rw [getElem?_swap h (getElem?_eq_getElem (by omega)) (getElem?_eq_getElem (by omega)),
    if_neg (by omega), if_neg (by omega)]
  exact hl.1

theorem last_of_swap {i : Nat} (he : h.entries[i]? = some e) : Last e (h.len - 1) (h.swap i (h.len - 1)) := by
  have hi : i < h.len := (List.getElem?_eq_some_iff.mp he).1
  have hlast : h.len - 1 < h.entries.length := by
    show h.len - 1 < h.len
    omega
  refine ⟨?_, ?_⟩
  · rw [getElem?_swap h he (getElem?_eq_getElem hlast), if_pos rfl]
  show (h.swap i (h.len - 1)).entries.length = _
  rw [length_swap]
  show h.len = _
  omega

/-- The last entry is popped, and the others are a heap of their own. -/
theorem Last.pop {n : Nat} (hl : Last e n h) (ho : OrderedTo keyAt h n) :
    ∃ h', h.pop = some (e, h') ∧ h'.Ordered ∧ h'.len = n := by
  have hlen : h.entries.length = n + 1 := hl.2
  have hpop : h.entries.getLast? = some e := by
    rw [getLast?_eq_getElem?, hlen]
    exact hl.1
  have hdrop : h.entries.dropLast.length = n := by
    rw [length_dropLast]
    omega
  refine ⟨{ idToIndex := h.idToIndex.del e.idx, entries := h.entries.dropLast }, ?_, ?_, hdrop⟩
  · rw [EmitPlanner.pop, hpop]
    rfl
  intro k hk0 hk
  have hk' : k < n := hdrop ▸ hk
  have hkey : ∀ i, i < n → EmitEntry.key (h.entries.dropLast.getD i { idx := 0 }) = h.keyAt i := by
    intro i hi
    rw [getD_eq_getElem?_getD, dropLast_eq_take, getElem?_take, if_pos (by omega),
      ← getD_eq_getElem?_getD]
    rfl
  show EmitEntry.key (h.entries.dropLast.getD _ _) ≤ EmitEntry.key (h.entries.dropLast.getD _ _)
  rw [hkey _ (by omega), hkey k hk']
  exact ho k hk0 hk'

/-- A planner with a first entry gives it up, and the others stay in order. -/
theorem Ordered.popFront (ho : h.Ordered) (htop : h.Top = some e) :
    ∃ h', h.PopFront = some (e, h') ∧ h'.Ordered ∧ h'.len + 1 = h.len := by
  have he : h.entries[0]? = some e := by
    rw [← head?_eq_getElem?]
    exact htop
  have hpos : 0 < h.len := (List.getElem?_eq_some_iff.mp he).1
  have hlast : Last e (h.len - 1) (heap.down (h.swap 0 (h.len - 1)) 0 (h.len - 1)).1 := by
    rcases Nat.eq_zero_or_pos (h.len - 1) with hone | hmore
    · -- there is one entry only, and nothing to compare
      have hl := last_of_swap he
      rw [hone] at hl ⊢
      exact hl
    · exact keeps_down last_swap (last_of_swap he) hmore (Nat.le_refl _)
  obtain ⟨h', hpop, ho', hlen⟩ := hlast.pop (heapPop_ordered keyed ho)
  exact ⟨h', hpop, ho', by omega⟩

/-- A chunk is taken out of the planner, wherever it is. -/
theorem Ordered.delete (ho : h.Ordered) (hh : h.Holds m) (id : Int) :
    ∃ h', h.Delete id = some h' ∧ h'.Ordered ∧ h'.Holds (update m id none) := by
  unfold Delete
  cases hid : h.idToIndex.get id with
  | none =>
    refine ⟨h, rfl, ho, ?_⟩
    rw [← hh.none_of_get hid, update_eq_self]
    exact hh
  | some i =>
    obtain ⟨e, he, rfl⟩ := hh.positioned id i hid
    have hi : i < h.len := (List.getElem?_eq_some_iff.mp he).1
    -- the entry is brought to the end first, unless it is there
    obtain ⟨h₀, hremove, hh₀, hlast, hord⟩ : ∃ h₀, heap.remove h i = h₀.pop ∧ h₀.Holds m ∧
        Last e (h.len - 1) h₀ ∧ OrderedTo keyAt h₀ (h.len - 1) := by
      by_cases hend : h.len - 1 = i
      · refine ⟨h, ?_, hh, ⟨hend ▸ he, by omega⟩, fun k hk0 hk => ho k hk0 (by omega)⟩
        show heap.pop (if h.len - 1 = i then h else _) = _
        rw [if_pos hend]
        rfl
      have hmore : i < h.len - 1 := by omega
      refine ⟨_, ?_, ?_, ?_, remove_ordered keyed ho hmore rfl⟩
      · show heap.pop (if h.len - 1 = i then h else _) = _
        rw [if_neg hend]
        rfl
      · have hswap := holdsIn_swap h i (h.len - 1) hi (show h.len - 1 < h.len by omega) ⟨hh, rfl⟩
        exact (keeps_settle (K := HoldsIn m h.len) holdsIn_swap hswap hi (Nat.sub_le ..)).1
      · exact keeps_settle last_swap (last_of_swap he) hmore (Nat.le_refl _)
    obtain ⟨h', hpop, ho', _⟩ := hlast.pop hord
    refine ⟨h', ?_, ho', (hh₀.pop hpop).2⟩
    show (heap.remove h i).map Prod.snd = some h'
    rw [hremove, hpop]
    rfl

/-- The first entry is not above any other. -/
theorem Ordered.top_le (ho : h.Ordered) (hh : h.Holds m) (htop : h.Top = some e) {id : Int} {e' : EmitEntry}
    (he' : m id = some e') : e.key ≤ e'.key := by
  obtain ⟨i, _, hi, _⟩ := hh.position he'
  have hlt := (List.getElem?_eq_some_iff.mp hi).1
  have hroot := root_le ho hlt
  have hat : ∀ {k : Nat} {e : EmitEntry}, h.entries[k]? = some e → h.keyAt k = e.key := by
    intro k e hk
    unfold keyAt entry
    rw [getD_eq_getElem?_getD, hk]
    rfl
  rwa [hat hi, hat (by rw [← head?_eq_getElem?]; exact htop)] at hroot

theorem Ordered.foldl_insert (ho : h.Ordered) (hh : h.Holds m) (l : List EmitEntry) :
    (l.foldl EmitPlanner.Insert h).Ordered := by
  induction l generalizing h m with
  | nil => exact ho
  | cons e l ih => exact ih (ho.insert hh e) (hh.insert e)

end

/-! ## Whole runs -/

inductive Op
  | insert (ec : EmitEntry)
  | popFront
  | increment (id : Int)
  | decrement (id : Int)
  | delete (id : Int)
  | addSent (id delta : Int)
  | top

/-- A planner, and beside it a map to which the same operations are applied. -/
structure Mirrored where
  planner : EmitPlanner := {}
  map : Int → Option EmitEntry := fun _ => none

namespace Mirrored

/-- The map with the entry of a chunk changed, if it has one. -/
def adjust (x : Mirrored) (id : Int) (f : EmitEntry → EmitEntry) : Int → Option EmitEntry :=
  update x.map id ((x.map id).map f)

/-- One operation on both.  The map loses the entry that `PopFront` returned; a `PopFront` that has nothing to
return is not made. -/
def step (x : Mirrored) : Op → Mirrored
  | .insert ec => ⟨x.planner.Insert ec, update x.map ec.idx (some ec)⟩
  | .popFront =>
    match x.planner.PopFront with
    | none => x
    | some (ec, planner) => ⟨planner, update x.map ec.idx none⟩
  | .increment id => ⟨x.planner.Increment id, x.adjust id fun ec => { ec with times := ec.times + 1 }⟩
  | .decrement id => ⟨x.planner.Decrement id, x.adjust id fun ec => { ec with times := ec.times - 1 }⟩
  | .delete id =>
    match x.planner.Delete id with
    | none => x
    | some planner => ⟨planner, update x.map id none⟩
  | .addSent id delta => ⟨x.planner.AddSent id delta, x.adjust id fun ec => { ec with sent := ec.sent + delta }⟩
  | .top => x

structure Inv (x : Mirrored) : Prop where
  holds : x.planner.Holds x.map
  ordered : x.planner.Ordered

variable {x : Mirrored}

theorem holds_adjust {planner : EmitPlanner} {id : Int} {f : EmitEntry → EmitEntry}
    (hnone : x.map id = none → planner.Holds x.map)
    (hsome : ∀ ec, x.map id = some ec → planner.Holds (update x.map id (some (f ec)))) :
    planner.Holds (x.adjust id f) := by
  unfold adjust
  cases hid : x.map id with
  | none =>
    rw [map_none, ← hid, update_eq_self]
    exact hnone hid
  | some ec => exact hsome ec hid

theorem inv_addTimes (h : Inv x) (id delta : Int) :
    Inv ⟨x.planner.addTimes id delta, x.adjust id fun ec => { ec with times := ec.times + delta }⟩ := by
  refine ⟨holds_adjust (fun hid => ?_) fun ec hid => h.holds.addTimes hid delta, h.ordered.addTimes h.holds id delta⟩
  rw [addTimes_none h.holds hid]
  exact h.holds

/-- A first entry is there to be popped, and nothing is below it. -/
theorem Inv.front (h : Inv x) {ec : EmitEntry} (htop : x.planner.Top = some ec) :
    ∃ planner, x.planner.PopFront = some (ec, planner) ∧ Inv ⟨planner, update x.map ec.idx none⟩ := by
  obtain ⟨planner, hpop, ho, _⟩ := h.ordered.popFront htop
  exact ⟨planner, hpop, (h.holds.popFront hpop).2, ho⟩

theorem inv_step (h : Inv x) (op : Op) : Inv (x.step op) := by
  cases op with
  | insert ec => exact ⟨h.holds.insert ec, h.ordered.insert h.holds ec⟩
  | popFront =>
    cases htop : x.planner.Top with
    | none =>
      have hnone : x.planner.PopFront = none := popFront_none htop
      simp only [step, hnone]
      exact h
    | some ec =>
      obtain ⟨planner, hpop, hinv⟩ := h.front htop
      simp only [step, hpop]
      exact hinv
  | increment id => exact inv_addTimes h id 1
  | decrement id => exact inv_addTimes h id (-1)
  | delete id =>
    obtain ⟨planner, hdel, ho, hh⟩ := h.ordered.delete h.holds id
    simp only [step, hdel]
    exact ⟨hh, ho⟩
  | addSent id delta =>
    refine ⟨holds_adjust (fun hid => ?_) fun ec hid => h.holds.addSent hid delta, h.ordered.addSent id delta⟩
    show (x.planner.AddSent id delta).Holds x.map
    rw [addSent_none h.holds hid]
    exact h.holds
  | top => exact h

end Mirrored

/-- **The planner is a map with a least entry.**  After any operations its index is the inverse of the positions and
no chunk has two entries; no entry is below its parent; its entries are those of the map to which the same
operations were applied.  Unless it is empty, `Top` and `PopFront` return an entry with none below it, and a `Delete`
always returns. -/
theorem planner_mirrors_map (ops : List Op) :
    let x := exec Mirrored.step {} ops
    let h := x.planner
    (∀ id i, h.idToIndex.get id = some i ↔ (h.entries[i]?).map (·.idx) = some id) ∧
    (∀ (i j : Nat) (e e' : EmitEntry), h.entries[i]? = some e → h.entries[j]? = some e' → e.idx = e'.idx → i = j) ∧
    (∀ k, 0 < k → k < h.len → h.less k ((k - 1) / 2) = false) ∧
    (∀ id e, x.map id = some e ↔ e ∈ h.entries ∧ e.idx = id) ∧
    (h.entries ≠ [] → ∃ e h', h.Top = some e ∧ h.PopFront = some (e, h') ∧ e ∈ h.entries ∧
      ∀ e' ∈ h.entries, ¬ e'.key < e.key) ∧
    ∀ id, (h.Delete id).isSome := by
  have hinit : Mirrored.Inv {} := ⟨holds_empty, fun k _ hk => absurd hk (Nat.not_lt_zero k)⟩
  obtain ⟨hh, ho⟩ := exec_invariant Mirrored.step (I := Mirrored.Inv) (fun _ op hx => Mirrored.inv_step hx op) hinit ops
  generalize exec Mirrored.step {} ops = x at hh ho
  have hmem : ∀ e, e ∈ x.planner.entries → x.map e.idx = some e := by
    intro e he
    obtain ⟨i, hi⟩ := mem_iff_getElem?.mp he
    exact hh.of_entry hi
  refine ⟨fun id i => ⟨fun hi => ?_, fun hi => ?_⟩, fun i j e e' hi hj heq => ?_, fun k hk0 hk => ?_,
    fun id e => ⟨fun he => ?_, ?_⟩, fun hne => ?_, fun id => ?_⟩
  · obtain ⟨e, he, hid⟩ := hh.positioned id i hi
    rw [he, map_some, hid]
  · obtain ⟨e, he, rfl⟩ := map_eq_some_iff.mp hi
    exact hh.at_position i e he
  · by_contra hij
    exact hh.idx_ne hi hj hij heq
  · rw [Bool.eq_false_iff, ne_eq, less_iff, not_lt]
    exact ho k hk0 hk
  · obtain ⟨i, _, hi, hid⟩ := hh.position he
    exact ⟨mem_of_getElem? hi, hid⟩
  · rintro ⟨he, rfl⟩
    exact hmem e he
  · obtain ⟨e, es, hes⟩ := exists_cons_of_ne_nil hne
    have htop : x.planner.Top = some e := by
      rw [Top, hes]
      rfl
    obtain ⟨h', hpop, _⟩ := ho.popFront htop
    refine ⟨e, h', htop, hpop, hes ▸ mem_cons_self, fun e' he' => not_lt.mpr ?_⟩
    exact ho.top_le hh htop (hmem e' he')
  · obtain ⟨h', hdel, _⟩ := ho.delete hh id
    rw [hdel]
    rfl

end EmitPlanner

end EthP2P.Rs
