import Mathlib.Data.List.Induction
import Mathlib.Order.Bounds.Basic
import Mathlib.Order.Nat
import Dataflow.Proofs.Worklist

/-!
# Calls on a worklist

Pushes and pops come in any order, and an index may be pushed while it waits, after it was popped,
or out of bounds.  What a worklist holds can be told from the calls alone: the indices in bounds
that were pushed since they were last popped, and the one that was pushed first since then comes
first.

* `Worklist.Call`, `Worklist.after`: calls, and the worklist after them.
* `Worklist.Event`, `Worklist.history`: what each call did.
* `Worklist.WaitsSince`: when an index began to wait, by the history.
* `Worklist.Explained`: the queue is what the history says; `Explained.push`, `Explained.pop`: every
  call keeps it so.
* `Worklist.began_lt_of_popped`: the order of two pops.
* `Worklist.calls_inOrder`: **after all calls the queue and the flags agree, and indices come back
  in the order in which they began to wait.**
-/

namespace Dataflow

namespace Worklist

/-- A call on a worklist. -/
inductive Call where
  | push (index : Nat)
  | pop
deriving DecidableEq

/-- What a call did. -/
inductive Event where
  /-- An index was given, whether or not it was queued. -/
  | pushed (index : Nat)
  /-- The longest waiting index was taken, if any. -/
  | popped (index : Option Nat)
deriving DecidableEq

/-- The worklist after one more call.  A pop from an empty worklist changes nothing. -/
def next (w : Worklist) : Call → Worklist
  | .push index => w.push index
  | .pop => (w.pop?.map Prod.snd).getD w

/-- What a call does to a worklist. -/
def event (w : Worklist) : Call → Event
  | .push index => .pushed index
  | .pop => .popped (w.pop?.map Prod.fst)

/-- The worklist after calls, beginning with nothing waiting. -/
def after (size : Nat) (calls : List Call) : Worklist :=
  calls.foldl next (ofSize size)

/-- What each call did, in order. -/
def history (size : Nat) (calls : List Call) : List Event :=
  calls.mapIdx fun time call => (after size (calls.take time)).event call

/-- The times at which an index was pushed since it was last popped. -/
def pushesSincePop (events : List Event) (index : Nat) : Set Nat :=
  {time | events[time]? = some (.pushed index) ∧
    ∀ later, time < later → events[later]? ≠ some (.popped (some index))}

/-- An index began to wait when it was first pushed since it was last popped. -/
def WaitsSince (events : List Event) (index time : Nat) : Prop :=
  IsLeast (pushesSincePop events index) time

/-! ## Histories -/

theorem after_concat (size : Nat) (calls : List Call) (call : Call) :
    after size (calls ++ [call]) = (after size calls).next call := by
  rw [after, List.foldl_append]
  rfl

theorem getElem?_history {size time : Nat} {calls : List Call} {e : Event} :
    (history size calls)[time]? = some e ↔
      ∃ call, calls[time]? = some call ∧ (after size (calls.take time)).event call = e := by
  rw [history, List.getElem?_mapIdx, Option.map_eq_some_iff]

theorem length_history (size : Nat) (calls : List Call) :
    (history size calls).length = calls.length :=
  List.length_mapIdx

/-- The history of the first calls is the first part of the history. -/
theorem history_take (size count : Nat) (calls : List Call) :
    history size (calls.take count) = (history size calls).take count := by
  refine List.ext_getElem? fun time => Option.ext fun e => ?_
  rw [getElem?_history, List.getElem?_take, List.getElem?_take]
  by_cases hlt : time < count
  · rw [if_pos hlt, if_pos hlt, getElem?_history, List.take_take,
      Nat.min_eq_left (Nat.le_of_lt hlt)]
  · simp [hlt]

theorem history_concat (size : Nat) (calls : List Call) (call : Call) :
    history size (calls ++ [call]) = history size calls ++ [(after size calls).event call] := by
  have hfirst := history_take size calls.length (calls ++ [call])
  rw [List.take_left] at hfirst
  have hlast : (history size (calls ++ [call]))[calls.length]? =
      some ((after size calls).event call) :=
    getElem?_history.2 ⟨call, List.getElem?_concat_length, by rw [List.take_left]⟩
  have hall := List.take_of_length_le (Nat.le_of_eq (length_history size (calls ++ [call])))
  rw [List.length_append, List.length_singleton, List.take_add_one, ← hfirst, hlast,
    Option.toList_some] at hall
  exact hall.symm

/-! ## Waiting, by the history -/

variable {events : List Event} {e : Event} {index time : Nat}

theorem WaitsSince.lt_length (h : WaitsSince events index time) : time < events.length :=
  (List.getElem?_eq_some_iff.1 h.1.1).1

/-- One more event: a push is one more time, a pop ends them all. -/
theorem mem_pushesSincePop_concat :
    time ∈ pushesSincePop (events ++ [e]) index ↔
      (time ∈ pushesSincePop events index ∧ e ≠ .popped (some index)) ∨
        (time = events.length ∧ e = .pushed index) := by
  -- the longer history has the event at its end, and the shorter one before
  have hget : ∀ k, (events ++ [e])[k]? = if k = events.length then some e else events[k]? := by
    intro k
    split
    · rename_i heq
      rw [heq, List.getElem?_concat_length]
    · rename_i hne
      rcases Nat.lt_or_gt_of_ne hne with hlt | hgt
      · exact List.getElem?_append_left hlt
      · rw [List.getElem?_eq_none (Nat.le_of_lt hgt),
          List.getElem?_eq_none (by rw [List.length_append]; exact hgt)]
  have hbound : ∀ {k x}, events[k]? = some x → k < events.length :=
    fun h => (List.getElem?_eq_some_iff.1 h).1
  simp only [pushesSincePop, Set.mem_ofPred_eq, hget]
  constructor
  · rintro ⟨hpush, hlater⟩
    split at hpush
    · rename_i heq
      exact Or.inr ⟨heq, Option.some.inj hpush⟩
    · refine Or.inl ⟨⟨hpush, fun later hlt hpop => ?_⟩, fun hlast => ?_⟩
      · have := hlater later hlt
        rw [if_neg (Nat.ne_of_lt (hbound hpop))] at this
        exact this hpop
      · have := hlater events.length (hbound hpush)
        rw [if_pos rfl, hlast] at this
        exact this rfl
  · rintro (⟨⟨hpush, hlater⟩, hlast⟩ | ⟨rfl, rfl⟩)
    · refine ⟨by rw [if_neg (Nat.ne_of_lt (hbound hpush)), hpush], fun later hlt => ?_⟩
      split
      · exact fun heq => hlast (Option.some.inj heq)
      · exact hlater later hlt
    · refine ⟨by rw [if_pos rfl], fun later hlt => ?_⟩
      rw [if_neg (Nat.ne_of_gt hlt), List.getElem?_eq_none (Nat.le_of_lt hlt)]
      exact nofun

/-- What another index does changes nothing. -/
theorem waitsSince_concat_other (hpush : e ≠ .pushed index) (hpop : e ≠ .popped (some index)) :
    WaitsSince (events ++ [e]) index time ↔ WaitsSince events index time := by
  have hsame : pushesSincePop (events ++ [e]) index = pushesSincePop events index := by
    ext k
    simp [mem_pushesSincePop_concat, hpush, hpop]
  rw [WaitsSince, hsame, WaitsSince]

/-- After a pop an index waits no longer. -/
theorem not_waitsSince_popped : ¬ WaitsSince (events ++ [.popped (some index)]) index time := by
  intro h
  simpa [mem_pushesSincePop_concat] using h.1

/-- After a push an index waits: since now, or since it began to wait before. -/
theorem waitsSince_concat_pushed :
    WaitsSince (events ++ [.pushed index]) index time ↔
      WaitsSince events index time ∨
        ((∀ earlier, ¬ WaitsSince events index earlier) ∧ time = events.length) := by
  have hmem : ∀ k, k ∈ pushesSincePop (events ++ [.pushed index]) index ↔
      k ∈ pushesSincePop events index ∨ k = events.length := by
    intro k
    simp [mem_pushesSincePop_concat]
  by_cases hwaits : ∃ earlier, WaitsSince events index earlier
  · obtain ⟨earlier, hearlier⟩ := hwaits
    have hnew : WaitsSince (events ++ [.pushed index]) index earlier := by
      refine ⟨(hmem _).2 (Or.inl hearlier.1), fun k hk => ?_⟩
      rcases (hmem k).1 hk with hk | rfl
      · exact hearlier.2 hk
      · exact Nat.le_of_lt hearlier.lt_length
    constructor
    · intro h
      exact Or.inl (h.unique hnew ▸ hearlier)
    · rintro (h | ⟨hnone, -⟩)
      · exact h.unique hearlier ▸ hnew
      · exact absurd hearlier (hnone earlier)
  · rw [not_exists] at hwaits
    -- a push since the last pop would have a first one
    have hempty : ∀ k, k ∉ pushesSincePop events index := by
      intro k hk
      classical
      exact hwaits _ (Nat.isLeast_find ⟨k, hk⟩)
    have hnew : WaitsSince (events ++ [.pushed index]) index events.length := by
      refine ⟨(hmem _).2 (Or.inr rfl), fun k hk => ?_⟩
      exact Nat.le_of_eq (((hmem k).1 hk).resolve_left (hempty k)).symm
    constructor
    · intro h
      exact Or.inr ⟨hwaits, h.unique hnew⟩
    · rintro (h | ⟨-, rfl⟩)
      · exact absurd h (hwaits time)
      · exact hnew

/-! ## The queue, explained by the history -/

/-- By the history, the first index began to wait before the second one. -/
def BeganBefore (events : List Event) (i j : Nat) : Prop :=
  ∀ s t, WaitsSince events i s → WaitsSince events j t → s < t

/-- Only the times at which the members of a list began to wait count for their order. -/
theorem pairwise_beganBefore {events' : List Event} {l : List Nat}
    (h : l.Pairwise (BeganBefore events))
    (hsame : ∀ index ∈ l, ∀ time, WaitsSince events' index time ↔ WaitsSince events index time) :
    l.Pairwise (BeganBefore events') := by
  refine h.imp_of_mem fun hi hj hlt s t hs ht => ?_
  exact hlt s t ((hsame _ hi s).1 hs) ((hsame _ hj t).1 ht)

/-- The queue holds what waits by the history, in the order in which it began to wait. -/
structure Explained (events : List Event) (w : Worklist) (size : Nat) : Prop where
  valid : w.Valid size
  waits : ∀ index, index ∈ w.queue ↔ index < size ∧ ∃ time, WaitsSince events index time
  inOrder : w.queue.Pairwise (BeganBefore events)

variable {w : Worklist} {size : Nat}

/-- Only the queue counts, and when the indices in bounds began to wait. -/
theorem Explained.of_same (h : Explained events w size) {events' : List Event} {w' : Worklist}
    (hvalid : w'.Valid size) (hqueue : w'.queue = w.queue)
    (hsame : ∀ index < size, ∀ time, WaitsSince events' index time ↔ WaitsSince events index time) :
    Explained events' w' size where
  valid := hvalid
  waits index := by
    rw [hqueue, h.waits index]
    exact and_congr_right fun hlt => exists_congr fun time => (hsame index hlt time).symm
  inOrder := by
    rw [hqueue]
    exact pairwise_beganBefore h.inOrder fun index hmem => hsame index (h.valid.lt_size hmem)

theorem explained_ofSize (size : Nat) : Explained [] (ofSize size) size where
  valid := valid_ofSize size
  waits index := by
    refine iff_of_false List.not_mem_nil ?_
    rintro ⟨-, time, h⟩
    exact absurd h.lt_length (Nat.not_lt_zero time)
  inOrder := .nil

/-- **A push** queues an index that begins to wait, and changes nothing else. -/
theorem Explained.push (h : Explained events w size) (index : Nat) :
    Explained (events ++ [.pushed index]) (w.push index) size := by
  have hqueue := queue_push h.valid index
  have hother : ∀ other, other ≠ index → ∀ time,
      WaitsSince (events ++ [.pushed index]) other time ↔ WaitsSince events other time := by
    intro other hne time
    refine waitsSince_concat_other ?_ nofun
    rintro ⟨⟩
    exact hne rfl
  by_cases hnew : index < size ∧ index ∉ w.queue
  · rw [if_pos hnew] at hqueue
    have hnone : ∀ time, ¬ WaitsSince events index time :=
      fun time hwaits => hnew.2 ((h.waits index).2 ⟨hnew.1, time, hwaits⟩)
    have hne : ∀ {other}, other ∈ w.queue → other ≠ index := fun hmem heq => hnew.2 (heq ▸ hmem)
    refine ⟨h.valid.push index, fun other => ?_, ?_⟩
    · rw [hqueue, List.mem_append, List.mem_singleton]
      by_cases heq : other = index
      · subst heq
        exact iff_of_true (Or.inr rfl) ⟨hnew.1, _, waitsSince_concat_pushed.2 (Or.inr ⟨hnone, rfl⟩)⟩
      · simp only [heq, or_false, h.waits other, hother other heq]
    · rw [hqueue, List.pairwise_append]
      have hold := pairwise_beganBefore h.inOrder fun other hmem => hother other (hne hmem)
      refine ⟨hold, List.pairwise_singleton _ _, ?_⟩
      -- the new index waits since now, all others began before
      intro i hi j hj s t hs ht
      rw [List.mem_singleton] at hj
      subst hj
      obtain ⟨-, rfl⟩ := (waitsSince_concat_pushed.1 ht).resolve_left (hnone t)
      exact ((hother i (hne hi) s).1 hs).lt_length
  · rw [if_neg hnew] at hqueue
    refine h.of_same (h.valid.push index) hqueue fun other hlt time => ?_
    by_cases heq : other = index
    · -- it waits already, and goes on waiting since the same time
      subst heq
      have hmem : other ∈ w.queue := Decidable.byContradiction fun hmem => hnew ⟨hlt, hmem⟩
      obtain ⟨-, earlier, hearlier⟩ := (h.waits other).1 hmem
      rw [waitsSince_concat_pushed]
      exact or_iff_left fun hnone => hnone.1 earlier hearlier
    · exact hother other heq time

/-- **A pop** takes the first index off the queue, and no other. -/
theorem Explained.pop (h : Explained events w size) :
    Explained (events ++ [w.event .pop]) (w.next .pop) size := by
  cases hpop : w.pop? with
  | none =>
    have hevent : w.event .pop = .popped none := by rw [event, hpop]; rfl
    have hnext : w.next .pop = w := by rw [next, hpop]; rfl
    rw [hevent, hnext]
    exact h.of_same h.valid rfl fun _ _ _ => waitsSince_concat_other nofun nofun
  | some taken =>
    obtain ⟨index, rest⟩ := taken
    have hevent : w.event .pop = .popped (some index) := by rw [event, hpop]; rfl
    have hnext : w.next .pop = rest := by rw [next, hpop]; rfl
    have hqueue := (pop?_eq_some hpop).1
    have hnodup := h.valid.nodup
    have hinOrder := h.inOrder
    rw [hqueue, List.nodup_cons] at hnodup
    rw [hqueue, List.pairwise_cons] at hinOrder
    -- the pop ends the waiting of its own index only
    have hother : ∀ other, other ≠ index → ∀ time,
        WaitsSince (events ++ [.popped (some index)]) other time ↔
          WaitsSince events other time := by
      intro other hne time
      refine waitsSince_concat_other nofun ?_
      rintro ⟨⟩
      exact hne rfl
    have hne : ∀ {other}, other ∈ rest.queue → other ≠ index :=
      fun hmem heq => hnodup.1 (heq ▸ hmem)
    rw [hevent, hnext]
    refine ⟨h.valid.of_pop hpop, fun other => ?_, ?_⟩
    · by_cases heq : other = index
      · subst heq
        exact iff_of_false hnodup.1 fun hwaits => hwaits.2.elim fun _ => not_waitsSince_popped
      · have hold := h.waits other
        rw [hqueue, List.mem_cons, or_iff_right heq] at hold
        simp only [hold, hother other heq]
    · exact pairwise_beganBefore hinOrder.2 fun other hmem => hother other (hne hmem)

/-- **All calls**: the history explains the queue. -/
theorem explained_after (size : Nat) (calls : List Call) :
    Explained (history size calls) (after size calls) size := by
  induction calls using List.reverseRecOn with
  | nil => exact explained_ofSize size
  | append_singleton calls call ih =>
    rw [history_concat, after_concat]
    cases call with
    | push index => exact ih.push index
    | pop => exact ih.pop

/-! ## What pops return -/

theorem map_fst_pop? (w : Worklist) : w.pop?.map Prod.fst = w.queue.head? := by
  rw [pop?]
  cases w.queue with
  | nil => rfl
  | cons first rest => rfl

/-- **A pop returns the index that began to wait first.** -/
theorem Explained.pop_eq_some_iff (h : Explained events w size) :
    w.pop?.map Prod.fst = some index ↔ index < size ∧ ∃ time, WaitsSince events index time ∧
      ∀ other < size, ∀ t, WaitsSince events other t → time ≤ t := by
  rw [map_fst_pop?]
  cases hqueue : w.queue with
  | nil =>
    refine iff_of_false nofun ?_
    rintro ⟨hlt, time, htime, -⟩
    exact absurd ((h.waits index).2 ⟨hlt, time, htime⟩) (by rw [hqueue]; exact List.not_mem_nil)
  | cons first rest =>
    have hinOrder := h.inOrder
    rw [hqueue, List.pairwise_cons] at hinOrder
    have hmem : ∀ {other}, other < size → (∃ t, WaitsSince events other t) →
        other = first ∨ other ∈ rest :=
      fun hlt hwaits => List.mem_cons.1 (hqueue ▸ (h.waits _).2 ⟨hlt, hwaits⟩)
    obtain ⟨hlt, begun, hbegun⟩ := (h.waits first).1 (hqueue ▸ List.mem_cons_self)
    rw [List.head?_cons, Option.some.injEq]
    -- the head of the queue began first, as the queue is in that order
    constructor
    · rintro rfl
      refine ⟨hlt, begun, hbegun, fun other hother t ht => ?_⟩
      rcases hmem hother ⟨t, ht⟩ with rfl | hrest
      · exact Nat.le_of_eq (hbegun.unique ht)
      · exact Nat.le_of_lt (hinOrder.1 other hrest begun t hbegun ht)
    · rintro ⟨hindex, time, htime, hleast⟩
      refine ((hmem hindex ⟨time, htime⟩).resolve_right fun hrest => ?_).symm
      have hlater := hinOrder.1 index hrest begun time hbegun htime
      exact absurd (hleast first hlt begun hbegun) (Nat.not_le.2 hlater)

/-- A pop returns nothing exactly if nothing waits. -/
theorem Explained.pop_eq_none_iff (h : Explained events w size) :
    w.pop? = none ↔ ∀ index < size, ∀ time, ¬ WaitsSince events index time := by
  rw [← Option.map_eq_none_iff (f := Prod.fst), map_fst_pop?, List.head?_eq_none_iff,
    List.eq_nil_iff_forall_not_mem]
  refine forall_congr' fun index => ?_
  rw [h.waits index]
  simp

/-- An index that waits at a later call, since before an earlier one, waited at the earlier one
too. -/
theorem WaitsSince.take {p q : Nat} (hle : p ≤ q) (h : WaitsSince (events.take q) index time)
    (hlt : time < p) :
    WaitsSince (events.take p) index time := by
  have hget : ∀ {k}, k < p → (events.take p)[k]? = (events.take q)[k]? := by
    intro k hk
    rw [List.getElem?_take, List.getElem?_take, if_pos hk, if_pos (Nat.lt_of_lt_of_le hk hle)]
  have hend : ∀ {k}, p ≤ k → (events.take p)[k]? = none := by
    intro k hk
    rw [List.getElem?_take, if_neg (Nat.not_lt.2 hk)]
  refine ⟨⟨by rw [hget hlt]; exact h.1.1, fun later hlater => ?_⟩, fun k hk => ?_⟩
  · by_cases hin : later < p
    · rw [hget hin]
      exact h.1.2 later hlater
    · rw [hend (Nat.not_lt.1 hin)]
      exact nofun
  · have hkp : k < p := Decidable.byContradiction fun hkp => by
      have := hk.1
      rw [hend (Nat.not_lt.1 hkp)] at this
      cases this
    refine h.2 ⟨by rw [← hget hkp]; exact hk.1, fun later hlater => ?_⟩
    by_cases hin : later < p
    · rw [← hget hin]
      exact hk.2 later hlater
    · exact h.1.2 later (Nat.lt_of_lt_of_le hlt (Nat.not_lt.1 hin))

/-- A pop that returned an index returned the one that had waited longest by then. -/
theorem longest_of_popped {p i : Nat} {calls : List Call}
    (h : (history size calls)[p]? = some (.popped (some i))) :
    i < size ∧ ∃ s, WaitsSince ((history size calls).take p) i s ∧
      ∀ j < size, ∀ t, WaitsSince ((history size calls).take p) j t → s ≤ t := by
  obtain ⟨call, -, hevent⟩ := getElem?_history.1 h
  cases call with
  | push index => cases hevent
  | pop =>
    have hfirst : (after size (calls.take p)).pop?.map Prod.fst = some i := Event.popped.inj hevent
    rw [← history_take]
    exact (explained_after size (calls.take p)).pop_eq_some_iff.1 hfirst

/-- **Of two pops, the earlier one returned what began to wait earlier.** -/
theorem began_lt_of_popped {p q i j : Nat} {calls : List Call} (hpq : p < q)
    (hp : (history size calls)[p]? = some (.popped (some i)))
    (hq : (history size calls)[q]? = some (.popped (some j))) :
    ∃ s t, WaitsSince ((history size calls).take p) i s ∧
      WaitsSince ((history size calls).take q) j t ∧ s < t := by
  obtain ⟨-, s, hs, hlongest⟩ := longest_of_popped hp
  obtain ⟨hj, t, ht, -⟩ := longest_of_popped hq
  refine ⟨s, t, hs, ht, ?_⟩
  by_cases htp : t < p
  · -- the second index waited already when the first one was popped
    have hboth := ht.take (Nat.le_of_lt hpq) htp
    refine Nat.lt_of_le_of_ne (hlongest j hj t hboth) ?_
    rintro rfl
    obtain rfl : i = j := Event.pushed.inj (Option.some.inj (hs.1.1.symm.trans hboth.1.1))
    refine ht.1.2 p htp ?_
    rw [List.getElem?_take, if_pos hpq, hp]
  · have hsp : s < p := Nat.lt_of_lt_of_le hs.lt_length (List.length_take_le _ _)
    exact Nat.lt_of_lt_of_le hsp (Nat.not_lt.1 htp)

/-! ## All calls -/

theorem Valid.getElem?_pending_iff (h : w.Valid size) (index : Nat) :
    w.pending[index]? = some true ↔ index ∈ w.queue := by
  rw [← h.isPending_iff index, isPending]
  cases w.pending[index]? with
  | none => simp
  | some flag => simp

theorem Valid.push_of_size_le (h : w.Valid size) (hle : size ≤ index) : w.push index = w := by
  rw [Worklist.push, h.size_pending, if_neg]
  exact fun hnew => Nat.not_le.2 hnew.1 hle

/-- **After all calls the queue and the flags agree, and indices come back in the order in which
they began to wait.**

No index is queued twice, the flag of an index is set exactly if it is queued, what is queued is in
bounds, and a push out of bounds changes nothing.  By the history, a pop returns the index in bounds
that was pushed first since it was last popped, and nothing if there is none; and of any two pops
the earlier one returned the index that began to wait earlier. -/
theorem calls_inOrder (size : Nat) (calls : List Call) :
    (after size calls).queue.Nodup ∧
      (∀ index, (after size calls).pending[index]? = some true ↔ index ∈ (after size calls).queue) ∧
      (∀ index ∈ (after size calls).queue, index < size) ∧
      (∀ index, size ≤ index → (after size calls).push index = after size calls) ∧
      (∀ index, (after size calls).pop?.map Prod.fst = some index ↔
        index < size ∧ ∃ time, WaitsSince (history size calls) index time ∧
          ∀ other < size, ∀ t, WaitsSince (history size calls) other t → time ≤ t) ∧
      ((after size calls).pop? = none ↔ ∀ index < size,
        ∀ time, ¬ WaitsSince (history size calls) index time) ∧
      ∀ p q i j, p < q → (history size calls)[p]? = some (.popped (some i)) →
        (history size calls)[q]? = some (.popped (some j)) →
        ∃ s t, WaitsSince ((history size calls).take p) i s ∧
          WaitsSince ((history size calls).take q) j t ∧ s < t := by
  have h := explained_after size calls
  refine ⟨h.valid.nodup, h.valid.getElem?_pending_iff,
    fun index => h.valid.lt_size, fun index => h.valid.push_of_size_le,
    fun index => h.pop_eq_some_iff, h.pop_eq_none_iff, ?_⟩
  intro p q i j hpq hp hq
  exact began_lt_of_popped hpq hp hq

/-- An index is pushed again while it waits, then popped and pushed once more; another one is out of
bounds. -/
def busyCalls : List Call :=
  [.push 1, .push 0, .push 1, .push 7, .pop, .push 1, .pop, .pop, .pop, .push 2]

/-- The index that is pushed once more comes back after the one that waited meanwhile, and the one
out of bounds never does. -/
theorem calls_inOrder_busy :
    history 3 busyCalls =
        [.pushed 1, .pushed 0, .pushed 1, .pushed 7, .popped (some 1), .pushed 1, .popped (some 0),
        .popped (some 1), .popped none, .pushed 2] ∧
      (2 ∈ (after 3 busyCalls).queue ∧ 2 < 3) ∧ (after 3 busyCalls).push 7 = after 3 busyCalls ∧
      ∃ s t, WaitsSince ((history 3 busyCalls).take 6) 0 s ∧
        WaitsSince ((history 3 busyCalls).take 7) 1 t ∧ s < t := by
  obtain ⟨-, -, hbound, hpush, -, -, hpops⟩ := calls_inOrder 3 busyCalls
  have hqueued : 2 ∈ (after 3 busyCalls).queue := by decide
  refine ⟨by decide, ⟨hqueued, hbound 2 hqueued⟩, hpush 7 (by decide), ?_⟩
  exact hpops 6 7 0 1 (by decide) (by decide) (by decide)

end Worklist

end Dataflow
