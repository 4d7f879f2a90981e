import Dataflow.Order

/-!
# Sorted sets

A finite set kept as a strictly ascending list.  Two sets with the same members are the same value,
so equality of facts is equality of contents.

* `SortedSet`: the list and the proof that it ascends.
* `insert`, `erase`, `union`, `ofList`: the operations, each with its membership rule.
* `SortedSet.ext`: members determine the set.
-/

namespace Dataflow

/-- A finite set of keys, listed in ascending order without repeats. -/
structure SortedSet (α : Type) [KeyOrder α] where
  toList : List α
  ascending : toList.Pairwise fun a b => KeyOrder.precedes a b = true
deriving DecidableEq

namespace SortedSet

open KeyOrder

variable {α : Type} [KeyOrder α]

/-! ## Ascending lists -/

/-- Places `a` in an ascending list, unless it is there already. -/
def insertList (a : α) : List α → List α
  | [] => [a]
  | b :: rest =>
    if precedes a b then a :: b :: rest
    else if precedes b a then b :: insertList a rest
    else b :: rest

theorem mem_insertList {a x : α} {l : List α} : x ∈ insertList a l ↔ x = a ∨ x ∈ l := by
  induction l with
  | nil => simp [insertList]
  | cons b rest ih =>
    rw [insertList]
    split
    · simp
    · split
      · simp only [List.mem_cons, ih]
        constructor <;> rintro (h | h | h) <;> simp [h]
      · rename_i h h'
        have : a = b := eq_of_incomparable (by simpa using h) (by simpa using h')
        subst this
        simp

theorem ascending_insertList (a : α) {l : List α} (h : l.Pairwise fun a b => precedes a b = true) :
    (insertList a l).Pairwise fun a b => precedes a b = true := by
  induction l with
  | nil => simp [insertList]
  | cons b rest ih =>
    rw [List.pairwise_cons] at h
    rw [insertList]
    split
    · rename_i hab
      refine List.pairwise_cons.2 ⟨fun x hx => ?_, List.pairwise_cons.2 h⟩
      rcases List.mem_cons.1 hx with rfl | hx
      · exact hab
      · exact KeyOrder.trans hab (h.1 x hx)
    · split
      · rename_i hba
        refine List.pairwise_cons.2 ⟨fun x hx => ?_, ih h.2⟩
        rcases mem_insertList.1 hx with rfl | hx
        · exact hba
        · exact h.1 x hx
      · exact List.pairwise_cons.2 h

/-! ## Operations -/

instance : Membership α (SortedSet α) where
  mem s a := a ∈ s.toList

/-- Membership, as a test. -/
def contains [DecidableEq α] (s : SortedSet α) (a : α) : Bool :=
  s.toList.contains a

/-- The set without members. -/
def empty : SortedSet α where
  toList := []
  ascending := .nil

/-- Adds one member. -/
def insert (s : SortedSet α) (a : α) : SortedSet α where
  toList := insertList a s.toList
  ascending := ascending_insertList a s.ascending

/-- Removes one member. -/
def erase [DecidableEq α] (s : SortedSet α) (a : α) : SortedSet α where
  toList := s.toList.filter (· ≠ a)
  ascending := s.ascending.filter _

/-- Keeps the members that pass a test. -/
def filter (s : SortedSet α) (test : α → Bool) : SortedSet α where
  toList := s.toList.filter test
  ascending := s.ascending.filter _

/-- Adds every element of a list. -/
def insertMany (s : SortedSet α) (l : List α) : SortedSet α :=
  l.foldl insert s

/-- The set of the elements of a list. -/
def ofList (l : List α) : SortedSet α :=
  empty.insertMany l

/-- All members of both sets. -/
def union (s t : SortedSet α) : SortedSet α :=
  s.insertMany t.toList

/-- Every member of the first set is in the second, as a test. -/
def subset [DecidableEq α] (s t : SortedSet α) : Bool :=
  s.toList.all t.contains

/-- Number of members. -/
def size (s : SortedSet α) : Nat :=
  s.toList.length

/-- There are no members, as a test. -/
def isEmpty (s : SortedSet α) : Bool :=
  s.toList.isEmpty

/-! ## Membership rules -/

theorem mem_def {s : SortedSet α} {a : α} : a ∈ s ↔ a ∈ s.toList := Iff.rfl

@[simp] theorem contains_iff [DecidableEq α] {s : SortedSet α} {a : α} :
    s.contains a = true ↔ a ∈ s := by
  simp [contains, mem_def]

@[simp] theorem not_mem_empty {a : α} : ¬ a ∈ (empty : SortedSet α) := by
  simp [mem_def, empty]

@[simp] theorem mem_insert {s : SortedSet α} {a x : α} : x ∈ s.insert a ↔ x = a ∨ x ∈ s :=
  mem_insertList

@[simp] theorem mem_erase [DecidableEq α] {s : SortedSet α} {a x : α} :
    x ∈ s.erase a ↔ x ∈ s ∧ x ≠ a := by
  simp [mem_def, erase]

@[simp] theorem mem_filter {s : SortedSet α} {test : α → Bool} {x : α} :
    x ∈ s.filter test ↔ x ∈ s ∧ test x = true := by
  simp [mem_def, filter]

@[simp] theorem mem_insertMany {s : SortedSet α} {l : List α} {x : α} :
    x ∈ s.insertMany l ↔ x ∈ s ∨ x ∈ l := by
  induction l generalizing s with
  | nil => simp [insertMany]
  | cons a rest ih =>
    have : s.insertMany (a :: rest) = (s.insert a).insertMany rest := rfl
    rw [this, ih, mem_insert, List.mem_cons]
    constructor
    · rintro ((h | h) | h) <;> simp [h]
    · rintro (h | h | h) <;> simp [h]

@[simp] theorem mem_ofList {l : List α} {x : α} : x ∈ ofList l ↔ x ∈ l := by
  simp [ofList]

@[simp] theorem mem_union {s t : SortedSet α} {x : α} : x ∈ s.union t ↔ x ∈ s ∨ x ∈ t :=
  mem_insertMany

@[simp] theorem subset_iff [DecidableEq α] {s t : SortedSet α} :
    s.subset t = true ↔ ∀ x ∈ s, x ∈ t := by
  simp [subset, mem_def, contains]

theorem isEmpty_iff {s : SortedSet α} : s.isEmpty = true ↔ s = empty := by
  cases s with
  | mk l h => cases l <;> simp [isEmpty, empty]

/-! ## Members determine the set -/

theorem eq_of_mem_iff {l r : List α} (hl : l.Pairwise fun a b => precedes a b = true)
    (hr : r.Pairwise fun a b => precedes a b = true) (h : ∀ x, x ∈ l ↔ x ∈ r) : l = r := by
  induction l generalizing r with
  | nil =>
    cases r with
    | nil => rfl
    | cons b _ => exact absurd ((h b).2 (by simp)) (by simp)
  | cons a l ih =>
    cases r with
    | nil => exact absurd ((h a).1 (by simp)) (by simp)
    | cons b r =>
      rw [List.pairwise_cons] at hl hr
      -- otherwise each of the two heads would precede the other
      have hab : a = b := by
        rcases List.mem_cons.1 ((h a).1 (by simp)) with e | ha
        · exact e
        · rcases List.mem_cons.1 ((h b).2 (by simp)) with e | hb
          · exact e.symm
          · exact absurd (hl.1 b hb) (by simp [KeyOrder.asymm (hr.1 a ha)])
      subst hab
      refine congrArg _ (ih hl.2 hr.2 fun x => ⟨fun hx => ?_, fun hx => ?_⟩)
      · rcases List.mem_cons.1 ((h x).1 (List.mem_cons_of_mem _ hx)) with rfl | hx'
        · exact absurd (hl.1 x hx) (by simp [KeyOrder.irrefl])
        · exact hx'
      · rcases List.mem_cons.1 ((h x).2 (List.mem_cons_of_mem _ hx)) with rfl | hx'
        · exact absurd (hr.1 x hx) (by simp [KeyOrder.irrefl])
        · exact hx'

/-- Two sets with the same members are equal. -/
@[ext] theorem ext {s t : SortedSet α} (h : ∀ x, x ∈ s ↔ x ∈ t) : s = t := by
  cases s with
  | mk l hl =>
    cases t with
    | mk r hr =>
      have : l = r := eq_of_mem_iff hl hr h
      subst this
      rfl

end SortedSet

end Dataflow
