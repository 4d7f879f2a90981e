import Dataflow.Solver.Worklist

/-!
# What worklists promise

The flags of a worklist agree with its queue, and no index waits twice.  Both hold of the empty
worklist and are kept by every operation, so the queue alone says what waits.

* `Worklist.Valid`: the invariant.
* `queue_push`, `mem_queue_pushMany`: what waits after a push.
* `queue_pushMany_of_fresh`: new indices are queued in the order in which they come.
* `length_queue_pushMany_le`: a push adds at most one place to the queue.
* `Valid.of_pop`: what waits after a pop.
-/

namespace Dataflow

namespace Worklist

/-- The flags tell what is queued, and nothing is queued twice. -/
structure Valid (w : Worklist) (size : Nat) : Prop where
  size_pending : w.pending.size = size
  isPending_iff : ∀ index, w.isPending index = true ↔ index ∈ w.queue
  nodup : w.queue.Nodup

variable {w : Worklist} {size : Nat}

theorem Valid.lt_size (h : w.Valid size) {index : Nat} (hmem : index ∈ w.queue) : index < size := by
  have hflag := (h.isPending_iff index).2 hmem
  rw [isPending] at hflag
  cases hget : w.pending[index]? with
  | none => simp [hget] at hflag
  | some flag =>
    have := (Array.getElem?_eq_some_iff.1 hget).1
    rwa [h.size_pending] at this

theorem valid_ofSize (size : Nat) : (ofSize size).Valid size where
  size_pending := Array.size_replicate
  isPending_iff index := by
    simp only [isPending, ofSize, Array.getElem?_replicate]
    split
    · simp
    · simp
  nodup := .nil

/-! ## Pushing -/

/-- An index is queued at the end, unless it waits already or is out of bounds. -/
theorem queue_push (h : w.Valid size) (index : Nat) :
    (w.push index).queue =
      if index < size ∧ index ∉ w.queue then w.queue ++ [index] else w.queue := by
  have hflag : w.isPending index = false ↔ index ∉ w.queue := by
    rw [← h.isPending_iff index, Bool.not_eq_true]
  simp only [push, h.size_pending, hflag]
  split
  · rfl
  · rfl

theorem Valid.push (h : w.Valid size) (index : Nat) : (w.push index).Valid size := by
  have hqueue := queue_push h index
  -- the flags and the queue change together, or not at all
  by_cases hnew : index < size ∧ index ∉ w.queue
  · rw [if_pos hnew] at hqueue
    have hpending : (w.push index).pending = w.pending.setIfInBounds index true := by
      have hflag : w.isPending index = false := by
        rw [← Bool.not_eq_true, h.isPending_iff index]
        exact hnew.2
      rw [Worklist.push, if_pos ⟨h.size_pending.symm ▸ hnew.1, hflag⟩]
    refine ⟨?_, fun other => ?_, ?_⟩
    · rw [hpending, Array.size_setIfInBounds, h.size_pending]
    · rw [hqueue, isPending, hpending, Array.getElem?_setIfInBounds, List.mem_append,
        List.mem_singleton, ← h.isPending_iff other, isPending, h.size_pending]
      by_cases heq : index = other
      · subst heq
        simp [hnew.1]
      · simp [heq, Ne.symm heq]
    · rw [hqueue, List.nodup_append]
      refine ⟨h.nodup, by simp, fun a ha b hb => ?_⟩
      rw [List.mem_singleton] at hb
      rintro rfl
      exact hnew.2 (hb ▸ ha)
  · have hsame : w.push index = w := by
      rw [Worklist.push, if_neg]
      rintro ⟨hlt, hflag⟩
      rw [h.size_pending] at hlt
      refine hnew ⟨hlt, fun hmem => ?_⟩
      rw [(h.isPending_iff index).2 hmem] at hflag
      cases hflag
    rw [hsame]
    exact h

theorem pushMany_cons (w : Worklist) (index : Nat) (rest : List Nat) :
    w.pushMany (index :: rest) = (w.push index).pushMany rest := rfl

theorem Valid.pushMany (h : w.Valid size) (l : List Nat) : (w.pushMany l).Valid size := by
  induction l generalizing w with
  | nil => exact h
  | cons index rest ih => exact ih (h.push index)

/-- What waits after pushes: what waited before, and everything pushed that is in bounds. -/
theorem mem_queue_pushMany (h : w.Valid size) {l : List Nat} {other : Nat} :
    other ∈ (w.pushMany l).queue ↔ other ∈ w.queue ∨ (other ∈ l ∧ other < size) := by
  induction l generalizing w with
  | nil => simp [pushMany]
  | cons index rest ih =>
    have hpush : other ∈ (w.push index).queue ↔
        other ∈ w.queue ∨ (other = index ∧ other < size) := by
      rw [queue_push h index]
      split
      · rename_i hnew
        rw [List.mem_append, List.mem_singleton]
        exact or_congr Iff.rfl ⟨fun heq => ⟨heq, heq ▸ hnew.1⟩, And.left⟩
      · rename_i hold
        refine ⟨Or.inl, fun hor => hor.elim id ?_⟩
        rintro ⟨rfl, hlt⟩
        exact Decidable.byContradiction fun hmem => hold ⟨hlt, hmem⟩
    rw [pushMany_cons, ih (h.push index), hpush, List.mem_cons, or_assoc, ← or_and_right]

/-- Pushes leave the queue as long as it was, or longer by at most their number. -/
theorem length_queue_pushMany_le (h : w.Valid size) (l : List Nat) :
    w.queue.length ≤ (w.pushMany l).queue.length ∧
      (w.pushMany l).queue.length ≤ w.queue.length + l.length := by
  induction l generalizing w with
  | nil => exact ⟨Nat.le_refl _, Nat.le_refl _⟩
  | cons index rest ih =>
    have hpush : w.queue.length ≤ (w.push index).queue.length ∧
        (w.push index).queue.length ≤ w.queue.length + 1 := by
      rw [queue_push h index]
      split
      · simp
      · simp
    have hrest := ih (h.push index)
    rw [pushMany_cons, List.length_cons]
    omega

/-- Distinct new indices are queued in the order in which they come. -/
theorem queue_pushMany_of_fresh (h : w.Valid size) {l : List Nat} (hnodup : l.Nodup)
    (hlt : ∀ index ∈ l, index < size) (hfresh : ∀ index ∈ l, index ∉ w.queue) :
    (w.pushMany l).queue = w.queue ++ l := by
  induction l generalizing w with
  | nil => simp [pushMany]
  | cons index rest ih =>
    rw [List.nodup_cons] at hnodup
    have hqueue : (w.push index).queue = w.queue ++ [index] := by
      rw [queue_push h index]
      exact if_pos ⟨hlt index List.mem_cons_self, hfresh index List.mem_cons_self⟩
    rw [pushMany_cons, ih (h.push index) hnodup.2 (fun i hi => hlt i (List.mem_cons_of_mem _ hi)),
      hqueue]
    · simp
    · intro i hi hmem
      rw [hqueue, List.mem_append, List.mem_singleton] at hmem
      rcases hmem with hmem | rfl
      · exact hfresh i (List.mem_cons_of_mem _ hi) hmem
      · exact hnodup.1 hi

/-! ## Popping -/

theorem pop?_eq_some {index : Nat} {rest : Worklist} (h : w.pop? = some (index, rest)) :
    w.queue = index :: rest.queue ∧ rest.pending = w.pending.setIfInBounds index false := by
  rw [pop?] at h
  cases hqueue : w.queue with
  | nil => simp [hqueue] at h
  | cons first tail =>
    simp only [hqueue, Option.some.injEq, Prod.mk.injEq] at h
    obtain ⟨rfl, rfl⟩ := h
    exact ⟨rfl, rfl⟩

theorem isEmpty_iff_queue : w.isEmpty = true ↔ w.queue = [] := by
  rw [isEmpty, List.isEmpty_iff]

theorem exists_pop_of_not_isEmpty (h : w.isEmpty = false) :
    ∃ index rest, w.pop? = some (index, rest) := by
  cases hqueue : w.queue with
  | nil => simp [isEmpty, hqueue] at h
  | cons first tail => exact ⟨first, _, by rw [pop?, hqueue]⟩

theorem Valid.of_pop (h : w.Valid size) {index : Nat} {rest : Worklist}
    (hpop : w.pop? = some (index, rest)) :
    rest.Valid size := by
  obtain ⟨hqueue, hpending⟩ := pop?_eq_some hpop
  have hnodup := h.nodup
  rw [hqueue, List.nodup_cons] at hnodup
  refine ⟨?_, fun other => ?_, hnodup.2⟩
  · rw [hpending, Array.size_setIfInBounds, h.size_pending]
  · have hold := h.isPending_iff other
    rw [hqueue, List.mem_cons, isPending] at hold
    rw [isPending, hpending, Array.getElem?_setIfInBounds]
    by_cases heq : index = other
    · subst heq
      have hlt : index < w.pending.size := by
        rw [h.size_pending]
        exact h.lt_size (hqueue ▸ List.mem_cons_self)
      simp [hlt, hnodup.1]
    · simp only [if_neg heq]
      rw [hold]
      exact ⟨fun hor => hor.resolve_left (Ne.symm heq), Or.inr⟩

end Worklist

end Dataflow
