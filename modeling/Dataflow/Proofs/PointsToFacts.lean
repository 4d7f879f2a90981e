import Dataflow.Fact.PointsTo
import Dataflow.Proofs.Lattice

/-!
# The laws of points-to facts

A points-to fact is determined by two views: which cells have an entry, and which cells they may
refer to.  Every operation has one rule for each view, and the laws of the lattice follow from the
rules.

* `PointsTo.Tracks`: a cell has an entry, possibly without targets.
* `PointsTo.ext_views`: the two views determine the fact.
* `leq_iff_views`: one fact is below another exactly when both views are.
* `tracks_join`, `mem_targets_join`, `tracks_addMany`, `mem_targets_addMany`: the rules of the
  operations.
* the lattice of points-to facts is lawful, also with entries that have no targets.
* `facts_semilattice`: **all laws of both kinds of facts**.
-/

namespace Dataflow

namespace PointsTo

/-! ## The two views -/

/-- The cell has an entry. -/
def Tracks (fact : PointsTo) (cell : Cell) : Prop :=
  ∃ targets, fact.map.get? cell = some targets

@[simp] theorem pointsTo_iff {fact : PointsTo} {p q : Cell} :
    fact.pointsTo p q = true ↔ q ∈ fact.targets p :=
  SortedSet.contains_iff

@[simp] theorem mem_pointees {fact : PointsTo} {p q : Cell} :
    q ∈ fact.pointees p ↔ q ∈ fact.targets p := Iff.rfl

theorem targets_of_get {fact : PointsTo} {cell : Cell} {s : SortedSet Cell}
    (h : fact.map.get? cell = some s) :
    fact.targets cell = s := by
  simp [targets, SortedMap.getD, h]

theorem targets_of_not_tracks {fact : PointsTo} {cell : Cell} (h : ¬ fact.Tracks cell) :
    fact.targets cell = .empty := by
  have hnone : fact.map.get? cell = none := by
    cases hget : fact.map.get? cell with
    | none => rfl
    | some s => exact absurd ⟨s, hget⟩ h
  simp [targets, SortedMap.getD, hnone]

theorem get_of_tracks {fact : PointsTo} {cell : Cell} (h : fact.Tracks cell) :
    fact.map.get? cell = some (fact.targets cell) := by
  obtain ⟨s, hs⟩ := h
  rw [targets_of_get hs, hs]

/-- A cell with a target has an entry. -/
theorem tracks_of_mem {fact : PointsTo} {p q : Cell} (h : q ∈ fact.targets p) : fact.Tracks p := by
  by_cases hp : fact.Tracks p
  · exact hp
  · rw [targets_of_not_tracks hp] at h
    exact absurd h SortedSet.not_mem_empty

/-- Whether a cell has an entry, and its targets, determine the entry. -/
theorem get?_eq_of_views {a b : PointsTo} {c : Cell} (htracks : a.Tracks c ↔ b.Tracks c)
    (htargets : ∀ x, x ∈ a.targets c ↔ x ∈ b.targets c) : a.map.get? c = b.map.get? c := by
  have hsame : a.targets c = b.targets c := SortedSet.ext htargets
  by_cases hc : a.Tracks c
  · rw [get_of_tracks hc, get_of_tracks (htracks.1 hc), hsame]
  · have hnone : ∀ {fact : PointsTo}, ¬ fact.Tracks c → fact.map.get? c = none := by
      intro fact hfact
      exact Option.eq_none_iff_forall_ne_some.2 fun s hs => hfact ⟨s, hs⟩
    rw [hnone hc, hnone fun hb => hc (htracks.2 hb)]

/-- Entries and targets determine the fact. -/
theorem ext_views {a b : PointsTo} (htracks : ∀ c, a.Tracks c ↔ b.Tracks c)
    (htargets : ∀ c x, x ∈ a.targets c ↔ x ∈ b.targets c) : a = b := by
  cases a
  cases b
  exact congrArg PointsTo.mk (SortedMap.ext fun c => get?_eq_of_views (htracks c) (htargets c))

theorem leq_iff_views {a b : PointsTo} :
    JoinLattice.leq a b = true ↔
      (∀ c, a.Tracks c → b.Tracks c) ∧ ∀ c x, x ∈ a.targets c → x ∈ b.targets c := by
  show a.leq b = true ↔ _
  simp only [PointsTo.leq, List.all_eq_true]
  constructor
  · intro h
    -- the order goes through the entries of the smaller fact, empty ones included
    have hentry : ∀ c, a.Tracks c → b.Tracks c ∧ ∀ x, x ∈ a.targets c → x ∈ b.targets c := by
      rintro c ⟨s, hs⟩
      have hc := h (c, s) (SortedMap.mem_entries_iff.2 hs)
      cases hb : b.map.get? c with
      | none => simp [hb] at hc
      | some t =>
        simp only [hb, SortedSet.subset_iff] at hc
        refine ⟨⟨t, hb⟩, fun x hx => ?_⟩
        rw [targets_of_get hb]
        exact hc x (targets_of_get hs ▸ hx)
    exact ⟨fun c hc => (hentry c hc).1, fun c x hx => (hentry c (tracks_of_mem hx)).2 x hx⟩
  · rintro ⟨htracks, htargets⟩ ⟨c, s⟩ hmem
    have hs : a.map.get? c = some s := SortedMap.mem_entries_iff.1 hmem
    rw [get_of_tracks (htracks c ⟨s, hs⟩)]
    refine SortedSet.subset_iff.2 fun x hx => htargets c x ?_
    rw [targets_of_get hs]
    exact hx

/-! ## Rules of the operations -/

@[simp] theorem not_tracks_empty {c : Cell} : ¬ empty.Tracks c := by
  rintro ⟨s, hs⟩
  simp [empty] at hs

@[simp] theorem not_mem_targets_empty {c x : Cell} : ¬ x ∈ empty.targets c := by
  rw [targets_of_not_tracks not_tracks_empty]
  exact SortedSet.not_mem_empty

/-- Joining an entry in makes the entry. -/
theorem tracks_joinEntry {fact : PointsTo} {entry : Cell × SortedSet Cell} {c : Cell} :
    (fact.joinEntry entry).Tracks c ↔ fact.Tracks c ∨ c = entry.1 := by
  simp only [Tracks, joinEntry, SortedMap.get?_alter]
  by_cases hc : c = entry.1
  · simp [hc]
  · simp [hc]

theorem mem_targets_joinEntry {fact : PointsTo} {entry : Cell × SortedSet Cell} {c x : Cell} :
    x ∈ (fact.joinEntry entry).targets c ↔ x ∈ fact.targets c ∨ (c = entry.1 ∧ x ∈ entry.2) := by
  simp only [targets, joinEntry, SortedMap.getD, SortedMap.get?_alter]
  by_cases hc : c = entry.1
  · simp [hc]
  · simp [hc]

/-- Both views of a fact into which a list of entries was joined. -/
theorem views_foldl_joinEntry (l : List (Cell × SortedSet Cell)) (fact : PointsTo) (c : Cell) :
    ((l.foldl joinEntry fact).Tracks c ↔ fact.Tracks c ∨ ∃ e ∈ l, c = e.1) ∧
      ∀ x, x ∈ (l.foldl joinEntry fact).targets c ↔
        x ∈ fact.targets c ∨ ∃ e ∈ l, c = e.1 ∧ x ∈ e.2 := by
  induction l generalizing fact with
  | nil => simp
  | cons e rest ih =>
    rw [List.foldl_cons]
    obtain ⟨htracks, htargets⟩ := ih (fact.joinEntry e)
    refine ⟨?_, fun x => ?_⟩
    · rw [htracks, tracks_joinEntry]
      simp [or_assoc]
    · rw [htargets, mem_targets_joinEntry]
      simp [or_assoc]

theorem tracks_join {a b : PointsTo} {c : Cell} :
    (JoinLattice.join a b).Tracks c ↔ a.Tracks c ∨ b.Tracks c := by
  rw [show (JoinLattice.join a b).Tracks c ↔ _ from (views_foldl_joinEntry b.map.entries a c).1]
  refine or_congr Iff.rfl ⟨?_, ?_⟩
  · rintro ⟨⟨k, s⟩, hmem, rfl⟩
    exact ⟨s, SortedMap.mem_entries_iff.1 hmem⟩
  · rintro ⟨s, hs⟩
    exact ⟨(c, s), SortedMap.mem_entries_iff.2 hs, rfl⟩

theorem mem_targets_join {a b : PointsTo} {c x : Cell} :
    x ∈ (JoinLattice.join a b).targets c ↔ x ∈ a.targets c ∨ x ∈ b.targets c := by
  have hjoin : x ∈ (JoinLattice.join a b).targets c ↔ _ :=
    (views_foldl_joinEntry b.map.entries a c).2 x
  rw [hjoin]
  refine or_congr Iff.rfl ⟨?_, ?_⟩
  · rintro ⟨⟨k, s⟩, hmem, rfl, hx⟩
    rw [targets_of_get (SortedMap.mem_entries_iff.1 hmem)]
    exact hx
  · intro hx
    have hget := get_of_tracks (tracks_of_mem hx)
    exact ⟨(c, b.targets c), SortedMap.mem_entries_iff.2 hget, rfl, hx⟩

theorem tracks_add {fact : PointsTo} {p q c : Cell} :
    (fact.add p q).Tracks c ↔ fact.Tracks c ∨ c = p := by
  simp only [Tracks, add, SortedMap.get?_alter]
  by_cases hc : c = p
  · simp [hc]
  · simp [hc]

theorem mem_targets_add {fact : PointsTo} {p q c x : Cell} :
    x ∈ (fact.add p q).targets c ↔ x ∈ fact.targets c ∨ (c = p ∧ x = q) := by
  simp only [targets, add, SortedMap.getD, SortedMap.get?_alter]
  by_cases hc : c = p
  · simp [hc, or_comm]
  · simp [hc]

/-- Adding no targets makes no entry. -/
theorem tracks_addMany {fact : PointsTo} {p c : Cell} {l : List Cell} :
    (fact.addMany p l).Tracks c ↔ fact.Tracks c ∨ (c = p ∧ l ≠ []) := by
  induction l generalizing fact with
  | nil => simp [addMany]
  | cons q rest ih =>
    have hstep : fact.addMany p (q :: rest) = (fact.add p q).addMany p rest := rfl
    rw [hstep, ih, tracks_add]
    constructor
    · rintro ((h | h) | h)
      · exact Or.inl h
      · exact Or.inr ⟨h, List.cons_ne_nil _ _⟩
      · exact Or.inr ⟨h.1, List.cons_ne_nil _ _⟩
    · rintro (h | h)
      · exact Or.inl (Or.inl h)
      · exact Or.inl (Or.inr h.1)

theorem mem_targets_addMany {fact : PointsTo} {p c x : Cell} {l : List Cell} :
    x ∈ (fact.addMany p l).targets c ↔ x ∈ fact.targets c ∨ (c = p ∧ x ∈ l) := by
  induction l generalizing fact with
  | nil => simp [addMany]
  | cons q rest ih =>
    have hstep : fact.addMany p (q :: rest) = (fact.add p q).addMany p rest := rfl
    rw [hstep, ih, mem_targets_add, List.mem_cons]
    constructor
    · rintro ((h | h) | h)
      · exact Or.inl h
      · exact Or.inr ⟨h.1, Or.inl h.2⟩
      · exact Or.inr ⟨h.1, Or.inr h.2⟩
    · rintro (h | ⟨hc, h | h⟩)
      · exact Or.inl (Or.inl h)
      · exact Or.inl (Or.inr ⟨hc, h⟩)
      · exact Or.inr ⟨hc, h⟩

/-! ## The lattice -/

instance : LawfulJoinLattice PointsTo where
  join_assoc a b c := ext_views (fun _ => by simp only [tracks_join, or_assoc])
    fun _ _ => by simp only [mem_targets_join, or_assoc]
  join_comm a b := ext_views (fun _ => by rw [tracks_join, tracks_join, or_comm])
    fun _ _ => by rw [mem_targets_join, mem_targets_join, or_comm]
  join_self a := ext_views (fun _ => by rw [tracks_join, or_self])
    fun _ _ => by rw [mem_targets_join, or_self]
  bottom_join a := by
    refine ext_views (fun c => ?_) fun c x => ?_
    · rw [tracks_join]
      exact ⟨fun h => h.resolve_left not_tracks_empty, Or.inr⟩
    · rw [mem_targets_join]
      exact ⟨fun h => h.resolve_left not_mem_targets_empty, Or.inr⟩
  leq_iff a b := by
    rw [leq_iff_views]
    constructor
    · rintro ⟨htracks, htargets⟩
      refine ext_views (fun c => ?_) fun c x => ?_
      · rw [tracks_join]
        exact ⟨fun h => h.elim id (htracks c), Or.inl⟩
      · rw [mem_targets_join]
        exact ⟨fun h => h.elim id (htargets c x), Or.inl⟩
    · intro h
      refine ⟨fun c hc => ?_, fun c x hx => ?_⟩
      · rw [← h, tracks_join]
        exact Or.inr hc
      · rw [← h, mem_targets_join]
        exact Or.inr hx

end PointsTo

/-- **Both kinds of facts are semilattices**, and points-to facts are so also where cells have
entries without targets: such an entry is kept by the join, asked for by the order, and told apart
by equality. -/
theorem facts_semilattice : JoinLattice.Semilattice IndexSet ∧ JoinLattice.Semilattice PointsTo :=
  ⟨JoinLattice.semilattice IndexSet, JoinLattice.semilattice PointsTo⟩

/-- An entry without targets makes a fact that is above the bottom, and not equal to it. -/
example :
    let fact : PointsTo := ⟨.ofList [(.register 0, .empty)]⟩
    JoinLattice.leq fact .empty = false ∧ JoinLattice.join .empty fact = fact ∧ fact ≠ .empty := by
  decide

end Dataflow
