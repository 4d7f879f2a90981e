import Dataflow.Proofs.Convergence

/-!
# The shape of points-to facts

A points-to fact could hold any cells.  The facts that come up while may-point-to is solved hold
few: objects and registers have targets, and the targets are objects.  This is true of every edge at
every moment, also in the middle of a visit.

* `Engine.Passes`: the stores that a run goes through, write by write.
* `PointsTo.Filled`, `MayPointTo.Formed`: what the facts look like.
* `PointsTo.grows_iff`: between such facts, a join that is reported as a change is one.
* `MayPointTo.keptOn_traced`: an instruction keeps the shape.
* `MayPointTo.facts_formed`: **every fact of every store that a run goes through has the shape**,
  and in the end the register of every reservation has its object.
-/

namespace Dataflow

open JoinLattice

/-! ## Stores in the middle of a visit -/

section Passes

variable {F : Type} [JoinLattice F] [DecidableEq F]

/-- The store comes up in a run: visits in some order lead to an agenda, and of the facts that a
visit writes there some are written. -/
def Engine.Passes (e : Engine F) (store : EdgeStore F) : Prop :=
  ∃ a index written rest, e.Reaches a ∧ demands e.flow e.graph a.store index = written ++ rest ∧
    store = (writeAll a.store written).1

theorem Engine.Reaches.passes {e : Engine F} {a : Agenda F} (h : e.Reaches a) : e.Passes a.store :=
  ⟨a, 0, [], _, h, rfl, rfl⟩

theorem Flow.KeptOn.passes {flow : Flow F} {P : F → Prop} {f : Function}
    (kept : flow.KeptOn (Engine.start flow f).graph P) {store : EdgeStore F}
    (h : (Engine.start flow f).Passes store) (edge : Edge) : P (store.get edge) := by
  obtain ⟨a, index, written, rest, hreaches, hsplit, rfl⟩ := h
  have hstore := kept.reaches hreaches
  refine Flow.KeptOn.writeAll hstore (fun p hp => ?_) edge
  have hmem : p ∈ demands (Engine.start flow f).flow (Engine.start flow f).graph a.store index := by
    rw [hsplit]
    exact List.mem_append_left _ hp
  exact kept.of_mem_demands hstore hmem

end Passes

/-! ## Facts without empty entries -/

namespace PointsTo

/-- Every entry has a target. -/
def Filled (fact : PointsTo) : Prop :=
  ∀ e ∈ fact.map.entries, e.2.toList ≠ []

theorem filled_iff {fact : PointsTo} :
    fact.Filled ↔ ∀ c, fact.Tracks c → ∃ x, x ∈ fact.targets c := by
  constructor
  · rintro h c ⟨targets, hget⟩
    rw [targets_of_get hget]
    exact List.exists_mem_of_ne_nil _ (h (c, targets) (SortedMap.mem_entries_iff.2 hget))
  · rintro h ⟨c, targets⟩ hmem
    have hget := SortedMap.mem_entries_iff.1 hmem
    obtain ⟨x, hx⟩ := h c ⟨targets, hget⟩
    rw [targets_of_get hget] at hx
    exact List.ne_nil_of_mem hx

theorem Filled.join {a b : PointsTo} (ha : a.Filled) (hb : b.Filled) :
    (JoinLattice.join a b).Filled := by
  rw [filled_iff] at ha hb ⊢
  intro c hc
  rcases tracks_join.1 hc with hc | hc
  · obtain ⟨x, hx⟩ := ha c hc
    exact ⟨x, mem_targets_join.2 (Or.inl hx)⟩
  · obtain ⟨x, hx⟩ := hb c hc
    exact ⟨x, mem_targets_join.2 (Or.inr hx)⟩

theorem grows_eq_true {a b : PointsTo} :
    JoinLattice.grows a b = true ↔ ∃ c x, x ∈ b.targets c ∧ x ∉ a.targets c := by
  show a.grows b = true ↔ _
  simp only [grows, List.any_eq_true, Bool.not_eq_true', ← Bool.not_eq_true, SortedSet.subset_iff]
  constructor
  · rintro ⟨⟨c, targets⟩, hmem, hsubset⟩
    rw [← targets_of_get (SortedMap.mem_entries_iff.1 hmem)] at hsubset
    simp only [not_forall] at hsubset
    obtain ⟨x, hx, hnew⟩ := hsubset
    exact ⟨c, x, hx, hnew⟩
  · rintro ⟨c, x, hx, hnew⟩
    refine ⟨(c, b.targets c), SortedMap.mem_entries_iff.2 (get_of_tracks (tracks_of_mem hx)),
      fun hsubset => ?_⟩
    exact hnew (hsubset x hx)

/-- **A join with a fact without empty entries is reported as a change exactly if it is one.** -/
theorem grows_iff {a b : PointsTo} (hb : b.Filled) :
    JoinLattice.grows a b = true ↔ JoinLattice.join a b ≠ a := by
  rw [grows_eq_true]
  constructor
  · rintro ⟨c, x, hx, hnew⟩ hjoin
    refine hnew ?_
    rw [← hjoin, mem_targets_join]
    exact Or.inr hx
  · intro hne
    by_contra hnone
    have hsubset : ∀ c x, x ∈ b.targets c → x ∈ a.targets c := by
      intro c x hx
      by_contra hnew
      exact hnone ⟨c, x, hx, hnew⟩
    refine hne (leq_iff.1 (leq_iff_views.2 ⟨fun c hc => ?_, hsubset⟩))
    obtain ⟨x, hx⟩ := filled_iff.1 hb c hc
    exact tracks_of_mem (hsubset c x hx)

end PointsTo

namespace MayPointTo

/-! ## What the facts look like -/

/-- Opcodes that can have a result with targets. -/
def tracedOpcodes : List Opcode :=
  [.alloca, .bitcast, .getelementptr, .load, .select, .phi]

/-- The result of the instruction with an index is a pointer, and one of those that are followed. -/
def traces (g : Graph) (index : Nat) : Bool :=
  (g.instruction? index).any fun inst => inst.ty.isPointer && tracedOpcodes.contains inst.opcode

/-- The shape of a fact. -/
structure Formed (g : Graph) (fact : PointsTo) : Prop where
  /-- No entry is empty. -/
  filled : fact.Filled
  /-- A target is an object. -/
  pointees : ∀ e ∈ fact.map.entries, ∀ x ∈ e.2, ∃ j, x = .memory j ∧ allocates g j = true
  /-- An entry belongs to an object or to a register that is followed. -/
  keys : ∀ e ∈ fact.map.entries,
    (∃ j, e.1 = .memory j ∧ allocates g j = true) ∨ ∃ i, e.1 = .register i ∧ traces g i = true
  /-- The register of a reservation has its own object and nothing else. -/
  own : ∀ e ∈ fact.map.entries, ∀ i, e.1 = .register i → allocates g i = true →
    e.2 = .ofList [.memory i]

/-- Facts that occur and in which every register is followed. -/
structure Traced (g : Graph) (fact : PointsTo) : Prop extends Occurs g fact where
  registers : ∀ i, fact.Tracks (.register i) → traces g i = true

theorem traces_iff {g : Graph} {index : Nat} : traces g index = true ↔
    ∃ inst, g.instruction? index = some inst ∧ inst.ty.isPointer = true ∧
      inst.opcode ∈ tracedOpcodes := by
  simp [traces, Option.any_eq_true]

theorem Traced.formed {g : Graph} {fact : PointsTo} (h : Traced g fact) : Formed g fact where
  filled := PointsTo.filled_iff.2 h.inhabited
  pointees := by
    rintro ⟨c, targets⟩ hmem x hx
    rw [← PointsTo.targets_of_get (SortedMap.mem_entries_iff.1 hmem)] at hx
    obtain ⟨j, rfl, hj, -⟩ := h.possible c x hx
    exact ⟨j, rfl, hj⟩
  keys := by
    rintro ⟨c, targets⟩ hmem
    have htracks : fact.Tracks c := ⟨targets, SortedMap.mem_entries_iff.1 hmem⟩
    obtain ⟨x, hx⟩ := h.inhabited c htracks
    -- an entry has a target, and what it may be tells registers from objects
    obtain ⟨j, -, -, ⟨i, -, rfl, -⟩ | ⟨l, rfl, hl, -⟩⟩ := h.possible c x hx
    · exact Or.inr ⟨i, rfl, h.registers i htracks⟩
    · exact Or.inl ⟨l, rfl, hl⟩
  own := by
    rintro ⟨c, targets⟩ hmem i rfl hi
    have hget := SortedMap.mem_entries_iff.1 hmem
    have honly : ∀ x, x ∈ targets → x = .memory i := by
      intro x hx
      rw [← PointsTo.targets_of_get hget] at hx
      obtain ⟨j, rfl, -, ⟨i', -, hcell, hown⟩ | ⟨l, hcell, -⟩⟩ := h.possible _ x hx
      · cases hcell
        rw [hown hi]
      · cases hcell
    obtain ⟨x, hx⟩ := h.inhabited _ ⟨targets, hget⟩
    rw [PointsTo.targets_of_get hget] at hx
    -- nothing else is in the entry, and something is
    refine SortedSet.ext fun y => ?_
    rw [SortedSet.mem_ofList, List.mem_singleton]
    constructor
    · exact honly y
    · rintro rfl
      rwa [honly x hx] at hx

/-! ## Every instruction keeps the shape -/

theorem mem_tracedOpcodes {opcode : Opcode} (hstore : PointerCategory.classify opcode ≠ .store)
    (huntracked : PointerCategory.classify opcode ≠ .opaqueOp) : opcode ∈ tracedOpcodes := by
  revert hstore huntracked
  cases opcode <;> decide

/-- An instruction whose result has targets is one of those that are followed. -/
theorem opcode_of_mem_resultPointees {v : Visit} {fact : PointsTo} {x : Cell}
    (hx : x ∈ resultPointees v fact) :
    v.inst.opcode ∈ tracedOpcodes := by
  refine mem_tracedOpcodes (fun hstore => ?_) fun huntracked => ?_
  · rw [resultPointees, hstore] at hx
    exact absurd hx List.not_mem_nil
  · rw [resultPointees, huntracked] at hx
    exact absurd hx List.not_mem_nil

theorem Traced.traces_of_adds {g : Graph} {fact : PointsTo} (h : Traced g fact) {index : Nat}
    {inst : Instruction} (hinst : g.instruction? index = some inst) {i : Nat} {x : Cell}
    (hadds : Adds ⟨g, index, inst⟩ fact (.register i) x) : traces g i = true := by
  rcases hadds with ⟨-, hc, -⟩ | ⟨-, hpointer, hregister, hx⟩
  · -- the address of a store refers to objects only
    obtain ⟨_, -, hc⟩ := mem_operandPointees.1 hc
    obtain ⟨j, hcell, -⟩ := h.possible _ _ hc
    cases hcell
  · cases hregister
    exact traces_iff.2 ⟨inst, hinst, hpointer, opcode_of_mem_resultPointees hx⟩

/-- **Every instruction keeps the shape.** -/
theorem keptOn_traced (g : Graph) : flow.KeptOn g (Traced g) where
  bottom := ⟨(keptOn g).bottom, fun i hi => absurd hi PointsTo.not_tracks_empty⟩
  initial := ⟨(keptOn g).initial, fun i hi => absurd hi PointsTo.not_tracks_empty⟩
  join a b ha hb := by
    refine ⟨(keptOn g).join a b ha.toOccurs hb.toOccurs, fun i hi => ?_⟩
    exact (PointsTo.tracks_join.1 hi).elim (ha.registers i) (hb.registers i)
  transfer {index inst} hinst position hposition a out hout ha := by
    refine ⟨(keptOn g).transfer hinst hposition hout ha.toOccurs, fun i hi => ?_⟩
    rw [factFor?_transfer] at hout
    rw [← hout] at hi
    rcases tracks_after.1 hi with hi | ⟨x, hx⟩
    · exact ha.registers i hi
    · exact ha.traces_of_adds hinst hx

/-! ## Along the run -/

theorem mem_targets_after_alloca (g : Graph) (index : Nat) {inst : Instruction}
    (hopcode : inst.opcode = .alloca) (hpointer : inst.ty.isPointer = true) (fact : PointsTo) :
    Cell.memory index ∈ (after ⟨g, index, inst⟩ fact).targets (.register index) := by
  have hstore : inst.opcode ≠ .store := by simp [hopcode]
  have hresult : Cell.memory index ∈ resultPointees ⟨g, index, inst⟩ fact := by
    simp [resultPointees, PointerCategory.classify, hopcode]
  exact mem_targets_after.2 (Or.inr (Or.inr ⟨hstore, hpointer, rfl, hresult⟩))

/-- **Every fact of every store that a run goes through has the shape.**  The run of the solver goes
through the stores after each of its visits, and ends with the store that is solved.  There the
register of a reservation has its object on all edges behind it.  Between facts without empty
entries a join makes none, and it is reported as a change exactly if it is one. -/
theorem facts_formed (f : Function) :
    (∀ store, (Engine.start flow f).Passes store →
      ∀ edge, Formed (Graph.build f .forward) (store.get edge)) ∧
      (∀ visits, (Engine.start flow f).Passes ((Engine.start flow f).after visits).store) ∧
      (Engine.start flow f).Passes (Engine.start flow f).solve.store ∧
      (∀ index, allocates (Graph.build f .forward) index = true →
        ∀ dst ∈ (Graph.build f .forward).outgoing index,
          ((Engine.start flow f).solve.store.get ⟨.inst index, dst⟩).map.get? (.register index) =
          some (.ofList [.memory index])) ∧
      ∀ a b : PointsTo, a.Filled → b.Filled →
        (join a b).Filled ∧ (grows a b = true ↔ join a b ≠ a) := by
  have hwell := Graph.build_wellLinked f .forward
  have hpasses :
      ∀ visits, (Engine.start flow f).Passes ((Engine.start flow f).after visits).store :=
    fun visits => ((Engine.start flow f).reaches_after hwell visits).passes
  have hformed : ∀ store, (Engine.start flow f).Passes store →
      ∀ edge, Formed (Graph.build f .forward) (store.get edge) :=
    fun store hstore edge => ((keptOn_traced _).passes hstore edge).formed
  refine ⟨hformed, hpasses, hpasses _, ?_, fun a b ha hb => ⟨ha.join hb, PointsTo.grows_iff hb⟩⟩
  intro index hindex dst hdst
  obtain ⟨inst, hinst, hopcode, hpointer⟩ := allocates_iff.1 hindex
  obtain ⟨position, hposition⟩ := List.getElem?_of_mem hdst
  -- what the flow makes of the facts that arrive is on the edge
  have hget : (Engine.start flow f).solve.store.get ⟨.inst index, dst⟩ =
      after ⟨Graph.build f .forward, index, inst⟩
        (arriving (Graph.build f .forward) (Engine.start flow f).solve.store index) :=
    (bounded.leastSolution_solve f).inner index position dst _
      ⟨inst, hinst, hposition, factFor?_transfer.2 rfl⟩
  have htarget := mem_targets_after_alloca (Graph.build f .forward) index hopcode hpointer
    (arriving (Graph.build f .forward) (Engine.start flow f).solve.store index)
  rw [← hget] at htarget
  have hentry := PointsTo.get_of_tracks (PointsTo.tracks_of_mem htarget)
  -- and the shape leaves nothing else in that entry
  have hown := (hformed _ (hpasses _) ⟨.inst index, dst⟩).own _ (SortedMap.mem_entries_iff.2 hentry)
    index rfl hindex
  exact hentry.trans (congrArg some hown)

/-- On the way back of the loop the second object can be reached through memory: the fact has
entries of both kinds. -/
theorem facts_formed_pointerLoop :
    (Engine.start flow .pointerLoop).Passes (Engine.start flow .pointerLoop).solve.store ∧
      Formed (Graph.build .pointerLoop .forward)
        ((Engine.start flow .pointerLoop).solve.store.get ⟨.inst 6, .inst 3⟩) ∧
      ((Engine.start flow .pointerLoop).solve.store.get ⟨.inst 6, .inst 3⟩).map.keys =
        [.memory 0, .memory 1, .register 0, .register 1, .register 3, .register 5] ∧
      ((Engine.start flow .pointerLoop).solve.store.get ⟨.inst 1, .inst 2⟩).map.get? (.register 1) =
        some (.ofList [.memory 1]) ∧
      (join (PointsTo.ofList [(.register 0, .memory 0)])
        (.ofList [(.register 0, .memory 1)])).Filled := by
  obtain ⟨hformed, -, hpasses, hown, hjoin⟩ := facts_formed .pointerLoop
  have hfilled : ∀ j, (PointsTo.ofList [(.register 0, .memory j)]).Filled := by
    intro j
    refine PointsTo.filled_iff.2 fun c hc =>
      ⟨.memory j, PointsTo.mem_targets_add.2 (Or.inr ⟨?_, rfl⟩)⟩
    exact (PointsTo.tracks_add.1 hc).resolve_left PointsTo.not_tracks_empty
  exact ⟨hpasses, hformed _ hpasses _, by decide +kernel,
    hown 1 (by decide +kernel) (.inst 2) (by decide +kernel), (hjoin _ _ (hfilled 0) (hfilled 1)).1⟩

end MayPointTo

end Dataflow
