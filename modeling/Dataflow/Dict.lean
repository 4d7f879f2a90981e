/-!
# Dictionaries in insertion order

A finite map that remembers the order in which its keys were first set.  Setting a key again
replaces the value and keeps the place.

* `Dict`: the entries and the proof that no key occurs twice.
* `get?`, `insert`, `alter`, `modify`, `mapValues`: the operations.
* `get?_insert`, `get?_alter`, `get?_eq_some`: look-up rules.
-/

namespace Dataflow

section

variable {κ ν : Type} [DecidableEq κ]

theorem lookup_cons_eq (k k' : κ) (v : ν) (l : List (κ × ν)) :
    ((k, v) :: l).lookup k' = if k' = k then some v else l.lookup k' := by
  rw [List.lookup_cons]
  by_cases h : k' = k
  · simp [h]
  · simp [h, beq_false_of_ne h]

/-- Where no key comes up twice, an entry is listed exactly when it is found. -/
theorem mem_iff_lookup {l : List (κ × ν)} (h : (l.map Prod.fst).Nodup) {k : κ} {v : ν} :
    (k, v) ∈ l ↔ l.lookup k = some v := by
  induction l with
  | nil => simp
  | cons p rest ih =>
    obtain ⟨j, w⟩ := p
    rw [List.map_cons, List.nodup_cons] at h
    rw [lookup_cons_eq, List.mem_cons]
    by_cases e : k = j
    · subst e
      have hrest : (k, v) ∉ rest := fun hmem => h.1 (List.mem_map.2 ⟨_, hmem, rfl⟩)
      simp [hrest, eq_comm]
    · simp [e, ih h.2]

end

/-- A finite map whose entries are listed in the order in which their keys were first set. -/
structure Dict (κ ν : Type) where
  entries : List (κ × ν)
  nodup : (entries.map Prod.fst).Nodup
deriving DecidableEq

namespace Dict

variable {κ ν : Type}

/-- The dictionary without entries. -/
def empty : Dict κ ν where
  entries := []
  nodup := .nil

/-- Keys in order. -/
def keys (d : Dict κ ν) : List κ :=
  d.entries.map Prod.fst

/-- Values in order. -/
def values (d : Dict κ ν) : List ν :=
  d.entries.map Prod.snd

/-- Number of entries. -/
def size (d : Dict κ ν) : Nat :=
  d.entries.length

/-- There are no entries, as a test. -/
def isEmpty (d : Dict κ ν) : Bool :=
  d.entries.isEmpty

/-- Applies a function to every value. -/
def mapValues (d : Dict κ ν) (f : ν → ν) : Dict κ ν where
  entries := d.entries.map fun e => (e.1, f e.2)
  nodup := by simpa [Function.comp_def] using d.nodup

variable [DecidableEq κ]

/-- The value under a key. -/
def get? (d : Dict κ ν) (k : κ) : Option ν :=
  d.entries.lookup k

/-- There is an entry for the key, as a test. -/
def contains (d : Dict κ ν) (k : κ) : Bool :=
  (d.get? k).isSome

/-- Sets the entry for `k` in a list of entries: in its place if there is one, else at the end. -/
def insertList (k : κ) (v : ν) : List (κ × ν) → List (κ × ν)
  | [] => [(k, v)]
  | (k', v') :: rest => if k' = k then (k, v) :: rest else (k', v') :: insertList k v rest

theorem mem_keys_insertList {k x : κ} {v : ν} {l : List (κ × ν)} :
    x ∈ (insertList k v l).map Prod.fst ↔ x = k ∨ x ∈ l.map Prod.fst := by
  induction l with
  | nil => simp [insertList]
  | cons e rest ih =>
    obtain ⟨k', v'⟩ := e
    rw [insertList]
    split
    · rename_i h
      subst h
      simp
    · rw [List.map_cons, List.mem_cons, ih]
      simp only [List.map_cons, List.mem_cons]
      constructor <;> rintro (h | h | h) <;> simp [h]

theorem nodup_insertList (k : κ) (v : ν) {l : List (κ × ν)} (h : (l.map Prod.fst).Nodup) :
    ((insertList k v l).map Prod.fst).Nodup := by
  induction l with
  | nil => simp [insertList]
  | cons e rest ih =>
    obtain ⟨k', v'⟩ := e
    rw [List.map_cons, List.nodup_cons] at h
    rw [insertList]
    split
    · rename_i hk
      subst hk
      exact List.nodup_cons.2 h
    · rename_i hk
      refine List.nodup_cons.2 ⟨fun hmem => ?_, ih h.2⟩
      rcases mem_keys_insertList.1 hmem with e | hmem
      · exact hk e
      · exact h.1 hmem

/-- Sets the value under a key. -/
def insert (d : Dict κ ν) (k : κ) (v : ν) : Dict κ ν where
  entries := insertList k v d.entries
  nodup := nodup_insertList k v d.nodup

/-- Sets the value under a key to a function of what was there. -/
def alter (d : Dict κ ν) (k : κ) (change : Option ν → ν) : Dict κ ν :=
  d.insert k (change (d.get? k))

/-- The dictionary of a list of entries, set one after another. -/
def ofList (l : List (κ × ν)) : Dict κ ν :=
  l.foldl (fun d e => d.insert e.1 e.2) empty

/-- Applies a function to the value under a key, if there is one. -/
def modify (d : Dict κ ν) (k : κ) (f : ν → ν) : Dict κ ν where
  entries := d.entries.map fun e => if e.1 = k then (e.1, f e.2) else e
  nodup := by
    have : (Prod.fst ∘ fun e : κ × ν => if e.1 = k then (e.1, f e.2) else e) = Prod.fst := by
      funext e
      simp only [Function.comp]
      split <;> rfl
    simpa [List.map_map, this] using d.nodup

/-! ## Look-up rules -/

variable {d : Dict κ ν} {k x : κ} {v : ν}

theorem lookup_insertList {l : List (κ × ν)} :
    (insertList k v l).lookup x = if x = k then some v else l.lookup x := by
  induction l with
  | nil => exact lookup_cons_eq k x v []
  | cons e l ih =>
    obtain ⟨k', v'⟩ := e
    rw [insertList]
    by_cases hk : k' = k
    · subst hk
      rw [if_pos rfl, lookup_cons_eq, lookup_cons_eq]
      by_cases hx : x = k' <;> simp [hx]
    · rw [if_neg hk, lookup_cons_eq, lookup_cons_eq, ih]
      by_cases hx : x = k'
      · subst hx
        simp [hk]
      · simp [hx]

@[simp] theorem get?_empty : (empty : Dict κ ν).get? k = none :=
  rfl

theorem get?_insert : (d.insert k v).get? x = if x = k then some v else d.get? x :=
  lookup_insertList

theorem get?_alter {change : Option ν → ν} :
    (d.alter k change).get? x = if x = k then some (change (d.get? k)) else d.get? x :=
  get?_insert

/-- A new key is set at the end. -/
theorem insertList_of_not_mem {l : List (κ × ν)} (h : k ∉ l.map Prod.fst) :
    insertList k v l = l ++ [(k, v)] := by
  induction l with
  | nil => rfl
  | cons e l ih =>
    obtain ⟨hk, hl⟩ := not_or.1 (mt List.mem_cons.2 h)
    rw [insertList, if_neg (Ne.symm hk), ih hl, List.cons_append]

/-- An entry is found exactly if it is listed. -/
theorem get?_eq_some : d.get? k = some v ↔ (k, v) ∈ d.entries :=
  (mem_iff_lookup d.nodup).symm

theorem get?_of_mem (h : (k, v) ∈ d.entries) : d.get? k = some v :=
  get?_eq_some.2 h

theorem contains_iff_mem_keys : d.contains k = true ↔ k ∈ d.keys := by
  rw [contains, Option.isSome_iff_exists, keys, List.mem_map]
  constructor
  · rintro ⟨v, hv⟩
    exact ⟨(k, v), get?_eq_some.1 hv, rfl⟩
  · rintro ⟨⟨k', v⟩, hv, rfl⟩
    exact ⟨v, get?_of_mem hv⟩

end Dict

end Dataflow
