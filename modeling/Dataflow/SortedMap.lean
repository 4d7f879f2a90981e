import Dataflow.Dict
import Dataflow.SortedSet

/-!
# Sorted maps

A finite map kept as a list of entries with strictly ascending keys.  Equal look-ups mean equal
maps.

* `SortedMap`: the entries and the proof that their keys ascend.
* `get?`, `insert`, `alter`: the operations, each with its look-up rule.
* `SortedMap.ext`: look-ups determine the map.
* `get?_ofList`, `ofList_of_perm`: maps of lists of entries.
-/

namespace Dataflow

/-- A finite map, listed by ascending key. -/
structure SortedMap (κ ν : Type) [KeyOrder κ] where
  entries : List (κ × ν)
  ascending : entries.Pairwise fun a b => KeyOrder.precedes a.1 b.1 = true
deriving DecidableEq

namespace SortedMap

open KeyOrder

variable {κ ν : Type} [KeyOrder κ]

/-! ## Ascending entries -/

/-- Sets the entry for `k` in an ascending list of entries. -/
def insertList (k : κ) (v : ν) : List (κ × ν) → List (κ × ν)
  | [] => [(k, v)]
  | (k', v') :: rest =>
    if precedes k k' then (k, v) :: (k', v') :: rest
    else if precedes k' k then (k', v') :: insertList k v rest
    else (k, v) :: rest

theorem mem_insertList {k : κ} {v : ν} {e : κ × ν} {l : List (κ × ν)} (h : e ∈ insertList k v l) :
    e = (k, v) ∨ e ∈ l := by
  induction l with
  | nil => simpa [insertList] using h
  | cons p rest ih =>
    obtain ⟨k', v'⟩ := p
    rw [insertList] at h
    split at h
    · simpa using h
    · split at h
      · rcases List.mem_cons.1 h with h | h
        · simp [h]
        · rcases ih h with h | h <;> simp [h]
      · rcases List.mem_cons.1 h with h | h <;> simp [h]

theorem ascending_insertList (k : κ) (v : ν) {l : List (κ × ν)}
    (h : l.Pairwise fun a b => precedes a.1 b.1 = true) :
    (insertList k v l).Pairwise fun a b => precedes a.1 b.1 = true := by
  induction l with
  | nil => simp [insertList]
  | cons p rest ih =>
    obtain ⟨k', v'⟩ := p
    rw [List.pairwise_cons] at h
    rw [insertList]
    split
    · rename_i hk
      refine List.pairwise_cons.2 ⟨fun x hx => ?_, List.pairwise_cons.2 h⟩
      rcases List.mem_cons.1 hx with rfl | hx
      · exact hk
      · exact KeyOrder.trans hk (h.1 x hx)
    · split
      · rename_i hk
        refine List.pairwise_cons.2 ⟨fun x hx => ?_, ih h.2⟩
        rcases mem_insertList hx with rfl | hx
        · exact hk
        · exact h.1 x hx
      · rename_i h1 h2
        have : k = k' := eq_of_incomparable (by simpa using h1) (by simpa using h2)
        subst this
        exact List.pairwise_cons.2 h

/-! ## Operations -/

/-- The map without entries. -/
def empty : SortedMap κ ν where
  entries := []
  ascending := .nil

/-- The value under a key. -/
def get? [DecidableEq κ] (m : SortedMap κ ν) (k : κ) : Option ν :=
  m.entries.lookup k

/-- The value under a key, or a given one where the key is absent. -/
def getD [DecidableEq κ] (m : SortedMap κ ν) (k : κ) (fallback : ν) : ν :=
  (m.get? k).getD fallback

/-- There is an entry for the key, as a test. -/
def contains [DecidableEq κ] (m : SortedMap κ ν) (k : κ) : Bool :=
  (m.get? k).isSome

/-- Sets the value under a key. -/
def insert (m : SortedMap κ ν) (k : κ) (v : ν) : SortedMap κ ν where
  entries := insertList k v m.entries
  ascending := ascending_insertList k v m.ascending

/-- Sets the value under a key to a function of what was there. -/
def alter [DecidableEq κ] (m : SortedMap κ ν) (k : κ) (change : Option ν → ν) : SortedMap κ ν :=
  m.insert k (change (m.get? k))

/-- The map of a list of entries; of two entries for one key the later counts. -/
def ofList (l : List (κ × ν)) : SortedMap κ ν :=
  l.foldl (fun m e => m.insert e.1 e.2) empty

/-- Keys in ascending order. -/
def keys (m : SortedMap κ ν) : List κ :=
  m.entries.map Prod.fst

/-- Number of entries. -/
def size (m : SortedMap κ ν) : Nat :=
  m.entries.length

/-- There are no entries, as a test. -/
def isEmpty (m : SortedMap κ ν) : Bool :=
  m.entries.isEmpty

/-! ## Look-up rules -/

variable [DecidableEq κ]

@[simp] theorem get?_empty (k : κ) : (empty : SortedMap κ ν).get? k = none := rfl

theorem lookup_insertList (k k' : κ) (v : ν) (l : List (κ × ν)) :
    (insertList k v l).lookup k' = if k' = k then some v else l.lookup k' := by
  induction l with
  | nil => rw [insertList, lookup_cons_eq]
  | cons p rest ih =>
    obtain ⟨j, w⟩ := p
    rw [insertList]
    split
    · rw [lookup_cons_eq]
    · split
      · rename_i hjk
        rw [lookup_cons_eq, lookup_cons_eq, ih]
        by_cases h : k' = k
        · have : ¬ k' = j := fun e => ne_of_precedes hjk (e.symm.trans h)
          rw [if_neg this, if_pos h, if_pos h]
        · rw [if_neg h, if_neg h]
      · rename_i h1 h2
        have e : k = j := eq_of_incomparable (by simpa using h1) (by simpa using h2)
        subst e
        rw [lookup_cons_eq, lookup_cons_eq]
        by_cases h : k' = k
        · rw [if_pos h, if_pos h]
        · rw [if_neg h, if_neg h, if_neg h]

@[simp] theorem get?_insert (m : SortedMap κ ν) (k k' : κ) (v : ν) :
    (m.insert k v).get? k' = if k' = k then some v else m.get? k' :=
  lookup_insertList k k' v m.entries

@[simp] theorem get?_alter (m : SortedMap κ ν) (k k' : κ) (change : Option ν → ν) :
    (m.alter k change).get? k' = if k' = k then some (change (m.get? k)) else m.get? k' :=
  get?_insert ..

omit [DecidableEq κ] in
theorem nodup_keys (m : SortedMap κ ν) : (m.entries.map Prod.fst).Nodup := by
  rw [List.Nodup, List.pairwise_map]
  exact m.ascending.imp ne_of_precedes

/-- An entry is listed exactly when the look-up finds it. -/
theorem mem_entries_iff {m : SortedMap κ ν} {k : κ} {v : ν} :
    (k, v) ∈ m.entries ↔ m.get? k = some v :=
  mem_iff_lookup m.nodup_keys

/-! ## Look-ups determine the map -/

theorem eq_of_lookup_eq {l r : List (κ × ν)} (hl : l.Pairwise fun a b => precedes a.1 b.1 = true)
    (hr : r.Pairwise fun a b => precedes a.1 b.1 = true)
    (h : ∀ k, l.lookup k = r.lookup k) : l = r := by
  -- in an ascending list a look-up finds exactly its members, which decide the rest
  have look : ∀ {s : List (κ × ν)} (_ : s.Pairwise fun a b => precedes a.1 b.1 = true)
      (k : κ) (v : ν), (k, v) ∈ s ↔ s.lookup k = some v :=
    fun hs k v => mem_entries_iff (m := ⟨_, hs⟩)
  have hmem : ∀ e, e ∈ l ↔ e ∈ r := fun ⟨k, v⟩ => by rw [look hl, look hr, h k]
  clear h look
  induction l generalizing r with
  | nil =>
    cases r with
    | nil => rfl
    | cons b _ => exact absurd ((hmem b).2 (by simp)) (by simp)
  | cons a l ih =>
    cases r with
    | nil => exact absurd ((hmem a).1 (by simp)) (by simp)
    | cons b r =>
      rw [List.pairwise_cons] at hl hr
      -- otherwise each of the two heads would precede the other
      have hab : a = b := by
        rcases List.mem_cons.1 ((hmem a).1 (by simp)) with e | ha
        · exact e
        · rcases List.mem_cons.1 ((hmem b).2 (by simp)) with e | hb
          · exact e.symm
          · exact absurd (hl.1 b hb) (by simp [KeyOrder.asymm (hr.1 a ha)])
      subst hab
      refine congrArg _ (ih hl.2 hr.2 fun x => ⟨fun hx => ?_, fun hx => ?_⟩)
      · rcases List.mem_cons.1 ((hmem x).1 (List.mem_cons_of_mem _ hx)) with rfl | hx'
        · exact absurd (hl.1 x hx) (by simp [KeyOrder.irrefl])
        · exact hx'
      · rcases List.mem_cons.1 ((hmem x).2 (List.mem_cons_of_mem _ hx)) with rfl | hx'
        · exact absurd (hr.1 x hx) (by simp [KeyOrder.irrefl])
        · exact hx'

/-- Two maps with the same look-ups are equal. -/
@[ext] theorem ext {m n : SortedMap κ ν} (h : ∀ k, m.get? k = n.get? k) : m = n := by
  obtain ⟨l, hl⟩ := m
  obtain ⟨r, hr⟩ := n
  have : l = r := eq_of_lookup_eq hl hr h
  subst this
  rfl

/-! ## Entries set one after another -/

theorem get?_foldl_insert (l : List (κ × ν)) (m : SortedMap κ ν) (k : κ) :
    (l.foldl (fun m e => m.insert e.1 e.2) m).get? k = (l.reverse.lookup k).or (m.get? k) := by
  induction l generalizing m with
  | nil => rfl
  | cons e rest ih =>
    rw [List.foldl_cons, ih, get?_insert, List.reverse_cons, List.lookup_append, lookup_cons_eq,
      Option.or_assoc]
    by_cases hk : k = e.1
    · simp [hk]
    · simp [hk]

/-- Of two entries for one key the later is found. -/
theorem get?_ofList (l : List (κ × ν)) (k : κ) : (ofList l).get? k = l.reverse.lookup k := by
  rw [ofList, get?_foldl_insert, get?_empty, Option.or_none]

/-- A map is the map of its entries, in whatever order they are set. -/
theorem ofList_of_perm {m : SortedMap κ ν} {l : List (κ × ν)} (h : l.Perm m.entries) :
    ofList l = m := by
  have hnodup : (l.reverse.map Prod.fst).Nodup :=
    (((List.reverse_perm l).trans h).map Prod.fst).nodup_iff.2 m.nodup_keys
  refine ext fun k => Option.ext fun v => ?_
  rw [get?_ofList, ← mem_iff_lookup hnodup, List.mem_reverse, h.mem_iff, mem_entries_iff]

end SortedMap

end Dataflow
