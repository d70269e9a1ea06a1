/-!
Finite maps that remember the order in which their keys were first inserted: symbol tables, metadata
repositories and the channels a decoder reads are listed in that order. A map is a list of entries in which
no key occurs twice; the proof is part of the value, so every operation keeps it. The view is `get?`, and
each operation comes with its equation under that view.
-/

namespace TypedTree

/-- Entries in the order of their first insertion, no key twice. -/
structure OrderedMap (κ ν : Type) where
  entries : List (κ × ν)
  nodup_keys : (entries.map Prod.fst).Nodup

namespace OrderedMap

variable {κ ν : Type}

def empty : OrderedMap κ ν := ⟨[], List.nodup_nil⟩

instance : Inhabited (OrderedMap κ ν) := ⟨empty⟩

/-- The keys, first inserted first. -/
def keys (m : OrderedMap κ ν) : List κ := m.entries.map Prod.fst

/-- The values, in the order of their keys. -/
def values (m : OrderedMap κ ν) : List ν := m.entries.map Prod.snd

def size (m : OrderedMap κ ν) : Nat := m.entries.length

def isEmpty (m : OrderedMap κ ν) : Bool := m.entries.isEmpty

@[ext] theorem ext {m n : OrderedMap κ ν} (h : m.entries = n.entries) : m = n := by
  cases m; cases n; cases h; rfl

/-- Every value replaced by its image; keys and order stay. -/
def mapValues {ν' : Type} (f : ν → ν') (m : OrderedMap κ ν) : OrderedMap κ ν' :=
  ⟨m.entries.map fun e => (e.1, f e.2), by
    have h := m.nodup_keys
    rwa [List.map_map, show (Prod.fst ∘ fun e : κ × ν => (e.1, f e.2)) = Prod.fst from rfl]⟩

variable [DecidableEq κ]

def get? (m : OrderedMap κ ν) (k : κ) : Option ν :=
  (m.entries.find? fun e => e.1 = k).map Prod.snd

def contains (m : OrderedMap κ ν) (k : κ) : Bool := decide (k ∈ m.keys)

/-- Adds an entry at the end; a key already present keeps its place and its value. -/
def insertNew (m : OrderedMap κ ν) (k : κ) (v : ν) : OrderedMap κ ν :=
  if h : k ∈ m.keys then m
  else ⟨m.entries ++ [(k, v)], by
    rw [List.map_append, List.nodup_append]
    refine ⟨m.nodup_keys, List.nodup_cons.mpr ⟨List.not_mem_nil, List.nodup_nil⟩, ?_⟩
    intro a ha b hb hab
    rw [List.map_cons, List.map_nil, List.mem_singleton] at hb
    subst hb; subst hab; exact h ha⟩

/-- Changes the value stored under `k`, if there is one; keys and order stay. -/
def modify (m : OrderedMap κ ν) (k : κ) (f : ν → ν) : OrderedMap κ ν :=
  ⟨m.entries.map fun e => if e.1 = k then (e.1, f e.2) else e, by
    have h : (Prod.fst ∘ fun e : κ × ν => if e.1 = k then (e.1, f e.2) else e) = Prod.fst := by
      funext e; simp only [Function.comp]; split <;> rfl
    rw [List.map_map, h]
    exact m.nodup_keys⟩

/-- Stores `v` under `k`: in place if `k` is present, at the end otherwise. -/
def insert (m : OrderedMap κ ν) (k : κ) (v : ν) : OrderedMap κ ν :=
  if k ∈ m.keys then m.modify k fun _ => v else m.insertNew k v

/-! ### The view -/

@[simp] theorem get?_empty (k : κ) : (empty : OrderedMap κ ν).get? k = none := rfl

theorem get?_eq_none_iff {m : OrderedMap κ ν} {k : κ} : m.get? k = none ↔ k ∉ m.keys := by
  simp only [get?, Option.map_eq_none_iff, List.find?_eq_none, decide_eq_true_eq, keys, List.mem_map, not_exists,
    not_and]

theorem mem_keys_of_get? {m : OrderedMap κ ν} {k : κ} {v : ν} (h : m.get? k = some v) : k ∈ m.keys :=
  Decidable.byContradiction fun hk => by
    rw [get?_eq_none_iff.mpr hk] at h
    cases h

theorem contains_eq_isSome (m : OrderedMap κ ν) (k : κ) : m.contains k = (m.get? k).isSome := by
  by_cases h : k ∈ m.keys
  · have : m.get? k ≠ none := fun hn => get?_eq_none_iff.mp hn h
    rw [contains, decide_eq_true h]
    exact (Option.isSome_iff_ne_none.mpr this).symm
  · rw [contains, decide_eq_false h, get?_eq_none_iff.mpr h]
    rfl

theorem get?_insertNew (m : OrderedMap κ ν) (k j : κ) (v : ν) :
    (m.insertNew k v).get? j = if k ∉ m.keys ∧ j = k then some v else m.get? j := by
  by_cases h : k ∈ m.keys
  · simp [insertNew, h]
  · by_cases hj : j = k
    · have hn : m.entries.find? (fun e => decide (e.1 = k)) = none := by
        simpa [get?] using get?_eq_none_iff.mpr h
      simp [insertNew, h, get?, hj, hn]
    · have hj' : ¬k = j := fun e => hj e.symm
      simp [insertNew, h, get?, hj, hj']

theorem get?_modify (m : OrderedMap κ ν) (k j : κ) (f : ν → ν) :
    (m.modify k f).get? j = if j = k then (m.get? j).map f else m.get? j := by
  obtain ⟨es, hes⟩ := m
  simp only [get?, modify]
  clear hes
  induction es with
  | nil => split <;> rfl
  | cons e es ih =>
    simp only [List.map_cons, List.find?_cons]
    by_cases hj : j = k
    · subst hj
      by_cases he : e.1 = j
      · simp [he]
      · simpa [he] using ih
    · by_cases he : e.1 = k
      · have hkj : ¬k = j := fun h => hj h.symm
        simpa [he, hj, hkj] using ih
      · by_cases hej : e.1 = j
        · simp [hej, hj]
        · simpa [he, hej, hj] using ih

theorem get?_insert (m : OrderedMap κ ν) (k j : κ) (v : ν) :
    (m.insert k v).get? j = if j = k then some v else m.get? j := by
  by_cases h : k ∈ m.keys
  · rw [insert, if_pos h, get?_modify]
    by_cases hj : j = k
    · subst hj
      have hs : (m.get? j).isSome := by rw [← contains_eq_isSome, contains, decide_eq_true h]
      obtain ⟨w, hw⟩ := Option.isSome_iff_exists.mp hs
      rw [if_pos rfl, if_pos rfl, hw]
      rfl
    · rw [if_neg hj, if_neg hj]
  · rw [insert, if_neg h, get?_insertNew]
    by_cases hj : j = k <;> simp [h, hj]

/-! ### Keys -/

theorem keys_insertNew (m : OrderedMap κ ν) (k : κ) (v : ν) :
    (m.insertNew k v).keys = if k ∈ m.keys then m.keys else m.keys ++ [k] := by
  by_cases h : k ∈ m.keys
  · rw [insertNew, dif_pos h, if_pos h]
  · rw [insertNew, dif_neg h, if_neg h]
    simp [keys]

@[simp] theorem keys_modify (m : OrderedMap κ ν) (k : κ) (f : ν → ν) : (m.modify k f).keys = m.keys := by
  simp only [keys, modify, List.map_map]
  congr 1
  funext e
  simp only [Function.comp]
  split <;> rfl

theorem keys_insert (m : OrderedMap κ ν) (k : κ) (v : ν) :
    (m.insert k v).keys = if k ∈ m.keys then m.keys else m.keys ++ [k] := by
  by_cases h : k ∈ m.keys
  · rw [insert, if_pos h, keys_modify, if_pos h]
  · rw [insert, if_neg h, keys_insertNew]

end OrderedMap

end TypedTree
