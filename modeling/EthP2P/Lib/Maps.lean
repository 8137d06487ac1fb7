/-
# EthP2P.Lib.Maps — finite maps with an unspecified iteration order

A finite map is Mathlib's `AList` at a constant value family, behind an interface in which a lookup
has one type for all keys.  What is added is the pointwise reading of an update (`get_set`,
`get_del`), a map over the values and a sum of them, and the iteration: a loop over a map visits every key once in an
order the language does not fix, so an iteration takes an `Order`, any rearrangement of the key list.
-/
import Mathlib.Algebra.BigOperators.Group.List.Basic
import Mathlib.Data.List.AList
import Mathlib.Data.List.Perm.Basic

namespace EthP2P.Lib

/-- A finite map from `K` to `V`. -/
def Map (K V : Type*) := AList (fun _ : K => V)

/-- One outcome of the unspecified order in which a map is iterated. -/
structure Order (K : Type*) where
  arrange : List K → List K
  perm : ∀ l, (arrange l).Perm l

/-- The order in which the keys are stored. -/
def Order.stored (K : Type*) : Order K := ⟨id, fun _ => .refl _⟩

namespace Map

variable {K V W : Type*}

instance : EmptyCollection (Map K V) := ⟨(∅ : AList fun _ : K => V)⟩

def entries (m : Map K V) : List (K × V) := (AList.entries m).map fun e => (e.1, e.2)

def keys (m : Map K V) : List K := AList.keys m

/-- The keys in the order one loop over the map visits them. -/
def range (o : Order K) (m : Map K V) : List K := o.arrange m.keys

theorem keys_nodup (m : Map K V) : m.keys.Nodup := AList.keys_nodup m

variable {k : K} {m : Map K V}

theorem mem_range {o : Order K} : k ∈ m.range o ↔ k ∈ m.keys :=
  (o.perm m.keys).mem_iff

theorem range_nodup (o : Order K) (m : Map K V) : (m.range o).Nodup :=
  (o.perm m.keys).nodup_iff.mpr m.keys_nodup

/-! ## Lookup, update, removal -/

variable [DecidableEq K]

def get (m : Map K V) (k : K) : Option V := AList.lookup k m

def set (m : Map K V) (k : K) (v : V) : Map K V := AList.insert k v m

def del (m : Map K V) (k : K) : Map K V := AList.erase k m

@[simp] theorem get_empty (k : K) : (∅ : Map K V).get k = none := rfl

@[simp] theorem get_set (m : Map K V) (a : K) (v : V) (k : K) :
    (m.set a v).get k = if k = a then some v else m.get k := by
  by_cases h : k = a
  · subst h
    rw [if_pos rfl]
    exact AList.lookup_insert m
  · rw [if_neg h]
    exact AList.lookup_insert_ne h

@[simp] theorem get_del (m : Map K V) (a k : K) : (m.del a).get k = if k = a then none else m.get k := by
  by_cases h : k = a
  · subst h
    rw [if_pos rfl]
    exact AList.lookup_erase k m
  · rw [if_neg h]
    exact AList.lookup_erase_ne h

@[simp] theorem set_set (m : Map K V) (k : K) (v w : V) : (m.set k v).set k w = m.set k w :=
  AList.insert_insert m

theorem mem_keys : k ∈ m.keys ↔ ∃ v, m.get k = some v := by
  rw [← Option.isSome_iff_exists]
  exact (AList.mem_keys.symm.trans AList.lookup_isSome.symm)

theorem mem_keys_of_get {v : V} (h : m.get k = some v) : k ∈ m.keys :=
  mem_keys.mpr ⟨v, h⟩

theorem mem_entries {v : V} : (k, v) ∈ m.entries ↔ m.get k = some v := by
  have hlookup : m.get k = some v ↔ (⟨k, v⟩ : Sigma fun _ : K => V) ∈ AList.entries m :=
    AList.mem_lookup_iff
  rw [hlookup, entries, List.mem_map]
  constructor
  · rintro ⟨⟨k', v'⟩, he, heq⟩
    cases heq
    exact he
  · intro he
    exact ⟨⟨k, v⟩, he, rfl⟩

omit [DecidableEq K] in
theorem entries_keys (m : Map K V) : m.entries.map Prod.fst = m.keys := by
  unfold entries keys
  rw [List.map_map]
  rfl

theorem length_keys_del_lt {v : V} (h : m.get k = some v) : (m.del k).keys.length < m.keys.length := by
  have hmem : k ∈ m.keys := mem_keys_of_get h
  have hpos : 0 < m.keys.length := List.length_pos_of_mem hmem
  have hdel : (m.del k).keys = m.keys.erase k := AList.keys_erase k m
  rw [hdel, List.length_erase_of_mem hmem]
  omega

/-! ## Mapping over the values -/

omit [DecidableEq K] in
private theorem keys_mapVals (f : K → V → W) (l : List (Sigma fun _ : K => V)) :
    (l.map fun e => (⟨e.1, f e.1 e.2⟩ : Sigma fun _ : K => W)).keys = l.keys := by
  simp [List.keys, Function.comp_def]

/-- Apply `f` to every value; `f` also sees the key. -/
def mapVals (f : K → V → W) (m : Map K V) : Map K W :=
  (⟨(AList.entries m).map fun e => ⟨e.1, f e.1 e.2⟩, by
    rw [List.NodupKeys, keys_mapVals]
    exact AList.nodupKeys m⟩ : AList fun _ : K => W)

@[simp] theorem get_mapVals (f : K → V → W) (m : Map K V) (k : K) : (m.mapVals f).get k = (m.get k).map (f k) := by
  obtain ⟨es, hes⟩ := m
  change List.dlookup k (es.map fun e => (⟨e.1, f e.1 e.2⟩ : Sigma fun _ : K => W)) = (List.dlookup k es).map (f k)
  clear hes
  induction es with
  | nil => rfl
  | cons e es ih =>
    obtain ⟨a, v⟩ := e
    by_cases h : k = a
    · subst h; simp
    · simp only [List.map_cons]
      rw [List.dlookup_cons_ne _ _ h, List.dlookup_cons_ne _ _ h, ih]

/-! ## Summing over the values -/

section Total

variable {A : Type*} [AddCommMonoid A] (f : V → A)

/-- The sum of `f` over the values. -/
def total (m : Map K V) : A := (m.entries.map fun e => f e.2).sum

omit [DecidableEq K] in
@[simp] theorem total_empty : (∅ : Map K V).total f = 0 := rfl

variable {m : Map K V}

theorem total_del_of_none (h : m.get k = none) : (m.del k).total f = m.total f := by
  have hkeys : k ∉ (AList.entries m).keys := by
    rw [← List.dlookup_eq_none]
    exact h
  have hentries : (AList.erase k m).entries = AList.entries m := List.kerase_of_notMem_keys hkeys
  show (((AList.erase k m).entries.map fun e => (e.1, e.2)).map fun e => f e.2).sum = _
  rw [hentries]
  rfl

theorem total_del {v : V} (h : m.get k = some v) : f v + (m.del k).total f = m.total f := by
  have hmem : (⟨k, v⟩ : Sigma fun _ : K => V) ∈ AList.entries m := AList.mem_lookup_iff.mp h
  obtain ⟨before, after, hsplit⟩ := List.append_of_mem hmem
  have hperm : (AList.entries m).Perm (⟨k, v⟩ :: (before ++ after)) := by
    rw [hsplit]
    exact List.perm_middle
  -- removing the key from the rearranged list removes its head
  have hrest : (AList.erase k m).entries.Perm (before ++ after) := by
    have hhead : List.kerase k (⟨k, v⟩ :: (before ++ after)) = before ++ after := List.kerase_cons_eq rfl
    rw [← hhead]
    exact List.Perm.kerase (AList.nodupKeys m) hperm
  have hall := ((hperm.trans (hrest.symm.cons _)).map fun e : Sigma fun _ : K => V => f e.2).sum_eq
  simp only [total, entries, List.map_map]
  rw [List.map_cons, List.sum_cons] at hall
  exact hall.symm

theorem total_set (m : Map K V) (k : K) (v : V) : (m.set k v).total f = f v + (m.del k).total f := by
  have hentries : (AList.insert k v m).entries = ⟨k, v⟩ :: (AList.erase k m).entries := rfl
  show (((AList.insert k v m).entries.map fun e => (e.1, e.2)).map fun e => f e.2).sum = _
  rw [hentries, List.map_cons, List.map_cons, List.sum_cons]
  rfl

theorem total_eq_zero (h : ∀ k v, m.get k = some v → f v = 0) : m.total f = 0 := by
  have hzero : ∀ x ∈ m.entries.map (fun e => f e.2), x = 0 := by
    intro x hx
    obtain ⟨e, he, rfl⟩ := List.mem_map.mp hx
    exact h e.1 e.2 (mem_entries.mp he)
  rw [total, List.eq_replicate_of_mem hzero, List.sum_replicate, nsmul_zero]

end Total

end Map

end EthP2P.Lib
