/-
`std::collections::BTreeMap` as `amount.rs` uses it: a finite map whose
entries iterate in key order. It is the list of its entries with strictly
increasing keys, a field of the structure, so no map with a repeated key or
entries out of order can be built.

`get`, `insert` and `remove` say what they do pointwise (`get_insert`,
`get_remove`); a map is determined by its `get` (`ext_get`), which is what
makes two maps built in different orders equal. `insert_of_lt` is the step of
a rebuild in key order: a key above every key present goes at the end.
-/
import Mathlib.Order.Basic
import Mathlib.Data.List.Sort

namespace Masp

variable {K V : Type} [LinearOrder K]

/-! ## Entry lists -/

/-- The value of the first entry with key `k`. -/
def getEntry : List (K × V) → K → Option V
  | [], _ => none
  | (k', v) :: rest, k => if k' = k then some v else getEntry rest k

/-- Insert `(k, v)` before the first larger key, replacing an entry with key `k`. -/
def insertEntry : List (K × V) → K → V → List (K × V)
  | [], k, v => [(k, v)]
  | (k', v') :: rest, k, v =>
    if k < k' then (k, v) :: (k', v') :: rest
    else if k = k' then (k, v) :: rest
    else (k', v') :: insertEntry rest k v

theorem getEntry_insertEntry (l : List (K × V)) (k k' : K) (v : V) :
    getEntry (insertEntry l k v) k' = if k = k' then some v else getEntry l k' := by
  induction l with
  | nil => rfl
  | cons e rest ih =>
    obtain ⟨a, b⟩ := e
    simp only [insertEntry]
    split
    · rfl
    · split
      · next h => subst h; by_cases hk : k = k' <;> simp [getEntry, hk]
      · next h1 h2 =>
        by_cases ha : a = k'
        · subst ha; simp [getEntry, h2]
        · simp [getEntry, ha, ih]

theorem mem_keys_insertEntry {l : List (K × V)} {k k' : K} {v : V}
    (h : k' ∈ (insertEntry l k v).map Prod.fst) : k' = k ∨ k' ∈ l.map Prod.fst := by
  induction l with
  | nil => simpa [insertEntry] using h
  | cons e rest ih =>
    obtain ⟨a, b⟩ := e
    simp only [insertEntry] at h
    split at h
    · simpa using h
    · split at h
      · next he => subst he; simpa using h
      · simp only [List.map_cons, List.mem_cons] at h ⊢
        rcases h with h | h
        · exact .inr (.inl h)
        · exact (ih h).imp_right .inr

theorem sorted_insertEntry {l : List (K × V)} (h : (l.map Prod.fst).Pairwise (· < ·)) (k : K)
    (v : V) : ((insertEntry l k v).map Prod.fst).Pairwise (· < ·) := by
  induction l with
  | nil => simp [insertEntry]
  | cons e rest ih =>
    obtain ⟨a, b⟩ := e
    simp only [List.map_cons, List.pairwise_cons] at h
    simp only [insertEntry]
    split
    · next hk =>
      simp only [List.map_cons, List.pairwise_cons, List.mem_cons]
      exact ⟨fun c hc => hc.elim (· ▸ hk) (fun hc => hk.trans (h.1 c hc)), h.1, h.2⟩
    · split
      · next h2 => subst h2; simpa using h
      · next h1 h2 =>
        have hak : a < k := lt_of_le_of_ne (not_lt.mp h1) (Ne.symm h2)
        simp only [List.map_cons, List.pairwise_cons]
        refine ⟨fun c hc => ?_, ih h.2⟩
        rcases mem_keys_insertEntry hc with rfl | hc
        · exact hak
        · exact h.1 c hc

/-- Inserting a key above every key present appends it. -/
theorem insertEntry_of_lt {l : List (K × V)} {k : K} (h : ∀ k' ∈ l.map Prod.fst, k' < k) (v : V) :
    insertEntry l k v = l ++ [(k, v)] := by
  induction l with
  | nil => rfl
  | cons e rest ih =>
    obtain ⟨a, b⟩ := e
    have hak : a < k := h a (by simp)
    simp only [insertEntry, not_lt.mpr hak.le, if_false, Ne.symm (ne_of_lt hak),
      List.cons_append, ih fun c hc => h c (by simp [hc])]

theorem getEntry_filter (l : List (K × V)) (k k' : K) :
    getEntry (l.filter fun e => e.1 ≠ k) k' = if k = k' then none else getEntry l k' := by
  induction l with
  | nil => simp [getEntry]
  | cons e rest ih =>
    obtain ⟨a, b⟩ := e
    by_cases ha : a = k
    · subst ha
      rw [List.filter_cons_of_neg (by simp), ih]
      by_cases hk : a = k' <;> simp [getEntry, hk]
    · rw [List.filter_cons_of_pos (by simpa using ha), getEntry, ih]
      by_cases hk : a = k'
      · subst hk; simp [getEntry, Ne.symm ha]
      · simp [getEntry, hk]

theorem getEntry_eq_none {l : List (K × V)} {k : K} (h : k ∉ l.map Prod.fst) :
    getEntry l k = none := by
  induction l with
  | nil => rfl
  | cons e rest ih =>
    simp only [List.map_cons, List.mem_cons, not_or] at h
    simp [getEntry, Ne.symm h.1, ih h.2]

theorem getEntry_map_snd {W : Type} (f : V → W) (l : List (K × V)) (k : K) :
    getEntry (l.map fun e => (e.1, f e.2)) k = (getEntry l k).map f := by
  induction l with
  | nil => rfl
  | cons e rest ih => by_cases h : e.1 = k <;> simp [getEntry, h, ih]

theorem getEntry_eq_some {l : List (K × V)} (h : (l.map Prod.fst).Pairwise (· < ·)) {k : K}
    {v : V} : getEntry l k = some v ↔ (k, v) ∈ l := by
  induction l with
  | nil => simp [getEntry]
  | cons e rest ih =>
    obtain ⟨a, b⟩ := e
    simp only [List.map_cons, List.pairwise_cons] at h
    by_cases ha : a = k
    · subst ha
      have : (a, v) ∉ rest := fun hm => lt_irrefl a (h.1 a (List.mem_map_of_mem _ hm))
      simp [getEntry, this, eq_comm]
    · simp [getEntry, ha, ih h.2, Ne.symm ha]

/-! ## Maps -/

/-- A `BTreeMap<K, V>`: its entries in key order. -/
structure BTreeMap (K V : Type) [LinearOrder K] where
  entries : List (K × V)
  sorted : (entries.map Prod.fst).Pairwise (· < ·)

namespace BTreeMap

def empty : BTreeMap K V := ⟨[], .nil⟩

def get (m : BTreeMap K V) (k : K) : Option V := getEntry m.entries k

def insert (m : BTreeMap K V) (k : K) (v : V) : BTreeMap K V :=
  ⟨insertEntry m.entries k v, sorted_insertEntry m.sorted k v⟩

def remove (m : BTreeMap K V) (k : K) : BTreeMap K V :=
  ⟨m.entries.filter fun e => e.1 ≠ k, m.sorted.sublist ((List.filter_sublist _).map _)⟩

/-- `keys()`, in order. -/
def keys (m : BTreeMap K V) : List K := m.entries.map Prod.fst

@[simp] theorem get_empty (k : K) : (empty : BTreeMap K V).get k = none := rfl

@[simp] theorem get_insert (m : BTreeMap K V) (k k' : K) (v : V) :
    (m.insert k v).get k' = if k = k' then some v else m.get k' :=
  getEntry_insertEntry _ _ _ _

@[simp] theorem get_remove (m : BTreeMap K V) (k k' : K) :
    (m.remove k).get k' = if k = k' then none else m.get k' :=
  getEntry_filter _ _ _

theorem get_eq_some {m : BTreeMap K V} {k : K} {v : V} : m.get k = some v ↔ (k, v) ∈ m.entries :=
  getEntry_eq_some m.sorted

theorem nodup_keys (m : BTreeMap K V) : (m.entries.map Prod.fst).Nodup :=
  m.sorted.imp ne_of_lt

theorem mem_keys {m : BTreeMap K V} {k : K} : k ∈ m.keys ↔ (m.get k).isSome := by
  simp only [keys, List.mem_map, Option.isSome_iff_exists, get_eq_some]
  exact ⟨fun ⟨⟨a, b⟩, h, ha⟩ => ⟨b, ha ▸ h⟩, fun ⟨b, h⟩ => ⟨(k, b), h, rfl⟩⟩

/-- A map is determined by what `get` returns. -/
theorem ext_get {m m' : BTreeMap K V} (h : ∀ k, m.get k = m'.get k) : m = m' := by
  have hs : ∀ m : BTreeMap K V, m.entries.Sorted fun a b => a.1 < b.1 := fun m =>
    List.pairwise_map.mp m.sorted
  have hn : ∀ m : BTreeMap K V, m.entries.Nodup := fun m =>
    List.Pairwise.imp (fun h he => by subst he; exact lt_irrefl _ h) (hs m)
  haveI : IsAntisymm (K × V) fun a b => a.1 < b.1 :=
    ⟨fun _ _ h1 h2 => absurd (h1.trans h2) (lt_irrefl _)⟩
  have hperm : m.entries.Perm m'.entries := (List.perm_ext_iff_of_nodup (hn m) (hn m')).mpr
    fun ⟨k, v⟩ => by rw [← get_eq_some, ← get_eq_some, h]
  obtain ⟨l, hl⟩ := m
  obtain ⟨l', hl'⟩ := m'
  obtain rfl : l = l' := List.eq_of_perm_of_sorted hperm (hs ⟨l, hl⟩) (hs ⟨l', hl'⟩)
  rfl

theorem entries_insert_of_lt {m : BTreeMap K V} {k : K} (h : ∀ k' ∈ m.keys, k' < k) (v : V) :
    (m.insert k v).entries = m.entries ++ [(k, v)] :=
  insertEntry_of_lt h v

end BTreeMap

end Masp
