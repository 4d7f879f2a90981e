import Dataflow.Fact.IndexSet

/-!
# The laws of facts

What the solver may rely on when it joins and compares facts.  A lattice of facts is *lawful* when
its join is associative, commutative and idempotent, the bottom is neutral, and the order is the one
the join defines.

* `LawfulJoinLattice`: the laws.
* `leq_refl`, `leq_trans`, `leq_antisymm`: the order is a partial order.
* `leq_join_left`, `leq_join_right`, `join_leq`: the join is the least upper bound of two facts.
* `leq_joinAll`, `joinAll_leq`: the join of a list is the least upper bound of its members.
* `JoinLattice.Semilattice`: all that is promised of facts; `JoinLattice.semilattice`: lawful facts
  keep it.
* the lattice of index sets is lawful.
-/

namespace Dataflow

open JoinLattice

/-- The laws of a join semilattice with a least element. -/
class LawfulJoinLattice (F : Type) [JoinLattice F] : Prop where
  join_assoc : ∀ a b c : F, join (join a b) c = join a (join b c)
  join_comm : ∀ a b : F, join a b = join b a
  join_self : ∀ a : F, join a a = a
  bottom_join : ∀ a : F, join bottom a = a
  /-- A fact is below another exactly when joining it in changes nothing. -/
  leq_iff : ∀ a b : F, leq a b = true ↔ join b a = b

namespace JoinLattice

variable {F : Type} [JoinLattice F] [LawfulJoinLattice F] {a b c : F}

/-! ## The order -/

theorem leq_iff : leq a b = true ↔ join b a = b :=
  LawfulJoinLattice.leq_iff a b

@[simp] theorem leq_refl (a : F) : leq a a = true :=
  leq_iff.2 (LawfulJoinLattice.join_self a)

theorem leq_trans (hab : leq a b = true) (hbc : leq b c = true) : leq a c = true := by
  rw [leq_iff] at *
  calc join c a = join (join c b) a := by rw [hbc]
    _ = join c (join b a) := LawfulJoinLattice.join_assoc c b a
    _ = c := by rw [hab, hbc]

theorem leq_antisymm (hab : leq a b = true) (hba : leq b a = true) : a = b := by
  rw [leq_iff] at *
  rw [← hba, LawfulJoinLattice.join_comm, hab]

@[simp] theorem bottom_leq (a : F) : leq bottom a = true := by
  rw [leq_iff, LawfulJoinLattice.join_comm]
  exact LawfulJoinLattice.bottom_join a

theorem leq_join_left (a b : F) : leq a (join a b) = true := by
  rw [leq_iff, LawfulJoinLattice.join_comm, ← LawfulJoinLattice.join_assoc,
    LawfulJoinLattice.join_self]

theorem leq_join_right (a b : F) : leq b (join a b) = true := by
  rw [leq_iff, LawfulJoinLattice.join_assoc, LawfulJoinLattice.join_self]

theorem join_leq (hac : leq a c = true) (hbc : leq b c = true) : leq (join a b) c = true := by
  rw [leq_iff] at *
  rw [← LawfulJoinLattice.join_assoc, hac, hbc]

/-! ## Joins of lists -/

theorem foldl_join_leq {l : List F} (ha : leq a c = true) (hl : ∀ x ∈ l, leq x c = true) :
    leq (l.foldl join a) c = true := by
  induction l generalizing a with
  | nil => exact ha
  | cons x rest ih =>
    exact ih (join_leq ha (hl x List.mem_cons_self)) fun y hy => hl y (List.mem_cons_of_mem _ hy)

theorem leq_foldl_join {l : List F} (h : leq c a = true ∨ ∃ x ∈ l, leq c x = true) :
    leq c (l.foldl join a) = true := by
  induction l generalizing a with
  | nil => simpa using h
  | cons x rest ih =>
    refine ih ?_
    rcases h with hca | ⟨y, hy, hcy⟩
    · exact Or.inl (leq_trans hca (leq_join_left a x))
    · rcases List.mem_cons.1 hy with rfl | hy
      · exact Or.inl (leq_trans hcy (leq_join_right a y))
      · exact Or.inr ⟨y, hy, hcy⟩

theorem leq_joinAll {l : List F} (h : a ∈ l) : leq a (joinAll l) = true :=
  leq_foldl_join (Or.inr ⟨a, h, leq_refl a⟩)

theorem joinAll_leq {l : List F} (h : ∀ x ∈ l, leq x a = true) : leq (joinAll l) a = true :=
  foldl_join_leq (bottom_leq a) h

/-- A join grows with what is joined. -/
theorem joinAll_map_leq {ι : Type} {l : List ι} {f g : ι → F}
    (h : ∀ x ∈ l, leq (f x) (g x) = true) :
    leq (joinAll (l.map f)) (joinAll (l.map g)) = true := by
  refine joinAll_leq fun y hy => ?_
  obtain ⟨x, hx, rfl⟩ := List.mem_map.1 hy
  exact leq_trans (h x hx) (leq_joinAll (List.mem_map_of_mem hx))

/-- Only the members of a list count: neither their order nor how often they come up. -/
theorem joinAll_congr {l l' : List F} (h : ∀ x, x ∈ l ↔ x ∈ l') : joinAll l = joinAll l' :=
  leq_antisymm (joinAll_leq fun x hx => leq_joinAll ((h x).1 hx))
    (joinAll_leq fun x hx => leq_joinAll ((h x).2 hx))

/-- Joining from the right is joining the reversed list from the left. -/
theorem foldr_join_eq (l : List F) : l.foldr join bottom = joinAll l := by
  have hflip : (fun a b : F => join b a) = join :=
    funext fun a => funext fun b => LawfulJoinLattice.join_comm b a
  calc l.foldr join bottom
    _ = joinAll l.reverse := by rw [← List.foldl_reverse, hflip]; rfl
    _ = joinAll l := joinAll_congr fun _ => List.mem_reverse

/-- A property of facts that the bottom has and joining keeps holds of the join of a list. -/
theorem joinAll_induction {F : Type} [JoinLattice F] {P : F → Prop} (hbottom : P bottom)
    (hjoin : ∀ a b, P a → P b → P (join a b)) {l : List F} (hl : ∀ x ∈ l, P x) : P (joinAll l) := by
  have fold : ∀ (l : List F) (a : F), P a → (∀ x ∈ l, P x) → P (l.foldl join a) := by
    intro l
    induction l with
    | nil => intro a ha _; exact ha
    | cons x rest ih =>
      intro a ha hl
      exact ih _ (hjoin a x ha (hl x List.mem_cons_self)) fun y hy =>
        hl y (List.mem_cons_of_mem _ hy)
  exact fold l bottom hbottom hl

/-! ## All laws at once -/

/-- What is promised of a type of facts: a join semilattice whose order is the one that its join
defines. -/
structure Semilattice (F : Type) [JoinLattice F] [DecidableEq F] : Prop where
  comm : ∀ a b : F, join a b = join b a
  assoc : ∀ a b c : F, join (join a b) c = join a (join b c)
  idem : ∀ a : F, join a a = a
  bottom_join : ∀ a : F, join bottom a = a
  join_bottom : ∀ a : F, join a bottom = a
  refl : ∀ a : F, leq a a = true
  trans : ∀ a b c : F, leq a b = true → leq b c = true → leq a c = true
  antisymm : ∀ a b : F, leq a b = true → leq b a = true → a = b
  upper : ∀ a b : F, leq a (join a b) = true ∧ leq b (join a b) = true
  least : ∀ a b c : F, leq a c = true → leq b c = true → leq (join a b) c = true
  /-- The order is the one read off the join. -/
  leq_eq : ∀ a b : F, leq a b = (JoinLattice.ofJoin (bottom : F) join grows).leq a b
  /-- The join of a list is that of any list with the same members, from either side. -/
  joinAll_eq : ∀ l l' : List F, (∀ x, x ∈ l ↔ x ∈ l') →
    joinAll l = l'.foldl join bottom ∧ joinAll l = l'.foldr join bottom

/-- Lawful facts keep all promises. -/
theorem semilattice (F : Type) [JoinLattice F] [LawfulJoinLattice F] [DecidableEq F] :
    Semilattice F where
  comm := LawfulJoinLattice.join_comm
  assoc := LawfulJoinLattice.join_assoc
  idem := LawfulJoinLattice.join_self
  bottom_join := LawfulJoinLattice.bottom_join
  join_bottom a := by rw [LawfulJoinLattice.join_comm, LawfulJoinLattice.bottom_join]
  refl := leq_refl
  trans _ _ _ := leq_trans
  antisymm _ _ := leq_antisymm
  upper a b := ⟨leq_join_left a b, leq_join_right a b⟩
  least _ _ _ := join_leq
  leq_eq a b := by
    rw [Bool.eq_iff_iff, leq_iff]
    exact decide_eq_true_iff.symm
  joinAll_eq l l' h := by
    rw [foldr_join_eq]
    exact ⟨joinAll_congr h, joinAll_congr h⟩

end JoinLattice

/-! ## Index sets -/

namespace IndexSet

theorem leq_iff_subset {s t : IndexSet} : leq s t = true ↔ ∀ x ∈ s, x ∈ t :=
  SortedSet.subset_iff

theorem mem_join {s t : IndexSet} {x : Nat} : x ∈ join s t ↔ x ∈ s ∨ x ∈ t :=
  SortedSet.mem_union

instance : LawfulJoinLattice IndexSet where
  join_assoc a b c := SortedSet.ext fun x => by simp only [mem_join, or_assoc]
  join_comm a b := SortedSet.ext fun x => by simp only [mem_join, or_comm]
  join_self a := SortedSet.ext fun x => by simp only [mem_join, or_self]
  bottom_join a := SortedSet.ext fun x => by
    rw [mem_join]
    exact ⟨fun h => h.resolve_left SortedSet.not_mem_empty, Or.inr⟩
  leq_iff a b := by
    rw [leq_iff_subset]
    constructor
    · intro h
      refine SortedSet.ext fun x => ?_
      rw [mem_join]
      exact ⟨fun hx => hx.elim id (h x), Or.inl⟩
    · intro h x hx
      rw [← h, mem_join]
      exact Or.inr hx

end IndexSet

end Dataflow
