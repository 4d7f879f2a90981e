import Mathlib.Data.Finset.Prod
import Dataflow.Analysis.MayPointTo
import Dataflow.Proofs.PointsToFacts
import Dataflow.Proofs.Termination

/-!
# May-point-to only adds pairs

An instruction never takes a pair of a cell and a target away.  Which pairs it adds grows with the
pairs that arrive, so the flow is monotone; and only few pairs can ever be added.  Every target is
an object that an instruction reserves, the register of a reserving instruction refers to its own
object only, and objects are written only where there is a store.  Such pairs fit into a square
table with a row and a column per instruction.

* `MayPointTo.after`, `MayPointTo.Adds`: the fact after an instruction, and the pairs it adds.
* `MayPointTo.mem_targets_after`, `MayPointTo.tracks_after`: both views of the fact after an
  instruction.
* `MayPointTo.monotoneOn`: the flow is monotone.
* `MayPointTo.Possible`, `MayPointTo.keptOn`: the pairs that can occur.
* `MayPointTo.entry`, `MayPointTo.gauge`: the table, and the rank that counts its entries.
-/

namespace Dataflow

/-- Adding the same targets to several cells, seen both ways. -/
theorem PointsTo.views_foldl_addMany (l values : List Cell) (fact : PointsTo) (c : Cell) :
    ((l.foldl (fun fact target => fact.addMany target values) fact).Tracks c ↔
        fact.Tracks c ∨ (c ∈ l ∧ values ≠ [])) ∧
      ∀ x, x ∈ (l.foldl (fun fact target => fact.addMany target values) fact).targets c ↔
        x ∈ fact.targets c ∨ (c ∈ l ∧ x ∈ values) := by
  induction l generalizing fact with
  | nil => simp
  | cons p rest ih =>
    obtain ⟨htracks, htargets⟩ := ih (fact.addMany p values)
    rw [List.foldl_cons]
    refine ⟨?_, fun x => ?_⟩
    · rw [htracks, tracks_addMany, List.mem_cons, or_and_right, or_assoc]
    · rw [htargets, mem_targets_addMany, List.mem_cons, or_and_right, or_assoc]

namespace MayPointTo

/-! ## Targets of operands -/

theorem mem_operandPointees {v : Visit} {fact : PointsTo} {position : Nat} {x : Cell} :
    x ∈ operandPointees v fact position ↔
      ∃ index, v.operandIndexAt? position = some index ∧ x ∈ fact.targets (.register index) := by
  rw [operandPointees]
  cases v.operandIndexAt? position with
  | none => simp
  | some index => simp

/-- The phis whose values a phi merges: those of its block. -/
def mergedPhis (v : Visit) : List Instruction :=
  match v.graph.blockOf? v.index with
  | some block => block.phis
  | none => [v.inst]

theorem mem_mergedPointees {v : Visit} {fact : PointsTo} {x : Cell} :
    x ∈ mergedPointees v fact ↔ ∃ phi ∈ mergedPhis v, ∃ pair ∈ phi.incoming, ∃ index,
      v.graph.operandIndex? pair.1 = some index ∧ x ∈ fact.targets (.register index) := by
  rw [mergedPointees, List.mem_flatMap]
  refine exists_congr fun phi => and_congr Iff.rfl ?_
  rw [List.mem_flatMap]
  refine exists_congr fun pair => and_congr Iff.rfl ?_
  obtain ⟨value, source⟩ := pair
  cases hindex : v.graph.operandIndex? value with
  | none => simp [hindex]
  | some index => simp [hindex]

/-! ## What an instruction adds -/

/-- The fact after an instruction. -/
def after (v : Visit) (fact : PointsTo) : PointsTo :=
  if v.inst.opcode = .store then storePointees v fact
  else if v.inst.ty.isPointer then fact.addMany (.register v.index) (resultPointees v fact)
  else fact

theorem transfer_eq (v : Visit) (fact : PointsTo) : transfer v fact = .uniform (after v fact) := by
  rw [transfer, after]
  split
  · rfl
  · split
    · rfl
    · rfl

theorem factFor?_transfer {v : Visit} {fact out : PointsTo} {position : Nat} :
    (flow.transfer v fact).factFor? position = some out ↔ after v fact = out := by
  rw [show flow.transfer v fact = .uniform (after v fact) from transfer_eq v fact]
  exact Option.some_inj

/-- An instruction adds a target to a cell: a store to every object that its address may refer to,
any other instruction with a pointer as result to its register. -/
def Adds (v : Visit) (fact : PointsTo) (c x : Cell) : Prop :=
  (v.inst.opcode = .store ∧ c ∈ operandPointees v fact 1 ∧ x ∈ operandPointees v fact 0) ∨
    (v.inst.opcode ≠ .store ∧ v.inst.ty.isPointer = true ∧ c = .register v.index ∧
      x ∈ resultPointees v fact)

theorem mem_targets_after {v : Visit} {fact : PointsTo} {c x : Cell} :
    x ∈ (after v fact).targets c ↔ x ∈ fact.targets c ∨ Adds v fact c x := by
  simp only [after, Adds]
  split
  · rename_i hstore
    rw [storePointees, (PointsTo.views_foldl_addMany _ _ fact c).2]
    simp [hstore]
  · rename_i hstore
    split
    · rename_i hpointer
      rw [PointsTo.mem_targets_addMany]
      simp [hstore, hpointer]
    · rename_i hpointer
      simp [hstore, hpointer]

theorem tracks_after {v : Visit} {fact : PointsTo} {c : Cell} :
    (after v fact).Tracks c ↔ fact.Tracks c ∨ ∃ x, Adds v fact c x := by
  simp only [after, Adds]
  split
  · rename_i hstore
    rw [storePointees, (PointsTo.views_foldl_addMany _ _ fact c).1]
    simp [hstore, List.eq_nil_iff_forall_not_mem]
  · rename_i hstore
    split
    · rename_i hpointer
      rw [PointsTo.tracks_addMany]
      simp [hstore, hpointer, List.eq_nil_iff_forall_not_mem]
    · rename_i hpointer
      simp [hstore, hpointer]

/-! ## The flow is monotone -/

section Monotone

variable {a b : PointsTo} (hab : ∀ c x, x ∈ a.targets c → x ∈ b.targets c) (v : Visit)

include hab

theorem operandPointees_mono {position : Nat} {x : Cell} (hx : x ∈ operandPointees v a position) :
    x ∈ operandPointees v b position := by
  rw [mem_operandPointees] at hx ⊢
  obtain ⟨index, hindex, hx⟩ := hx
  exact ⟨index, hindex, hab _ x hx⟩

theorem mergedPointees_mono {x : Cell} (hx : x ∈ mergedPointees v a) : x ∈ mergedPointees v b := by
  rw [mem_mergedPointees] at hx ⊢
  obtain ⟨phi, hphi, pair, hpair, index, hindex, hx⟩ := hx
  exact ⟨phi, hphi, pair, hpair, index, hindex, hab _ x hx⟩

theorem resultPointees_mono {x : Cell} (hx : x ∈ resultPointees v a) : x ∈ resultPointees v b := by
  rw [resultPointees] at hx ⊢
  cases hcategory : PointerCategory.classify v.inst.opcode with
  | allocation => simpa [hcategory] using hx
  | cast =>
    simp only [hcategory] at hx ⊢
    exact operandPointees_mono hab v hx
  | addressComputation =>
    simp only [hcategory] at hx ⊢
    exact operandPointees_mono hab v hx
  | load =>
    simp only [hcategory] at hx ⊢
    obtain ⟨target, htarget, hx⟩ := List.mem_flatMap.1 hx
    exact List.mem_flatMap.2 ⟨target, operandPointees_mono hab v htarget, hab target x hx⟩
  | select =>
    simp only [hcategory, List.mem_append] at hx ⊢
    exact hx.imp (operandPointees_mono hab v) (operandPointees_mono hab v)
  | mergePoint =>
    simp only [hcategory] at hx ⊢
    exact mergedPointees_mono hab v hx
  | store => simp [hcategory] at hx
  | opaqueOp => simp [hcategory] at hx

theorem Adds.mono {c x : Cell} (h : Adds v a c x) : Adds v b c x := by
  rcases h with ⟨hstore, hc, hx⟩ | ⟨hstore, hpointer, hc, hx⟩
  · exact Or.inl ⟨hstore, operandPointees_mono hab v hc, operandPointees_mono hab v hx⟩
  · exact Or.inr ⟨hstore, hpointer, hc, resultPointees_mono hab v hx⟩

end Monotone

theorem after_leq (v : Visit) {a b : PointsTo} (hab : JoinLattice.leq a b = true) :
    JoinLattice.leq (after v a) (after v b) = true := by
  rw [PointsTo.leq_iff_views] at hab ⊢
  constructor
  · intro c hc
    rw [tracks_after] at hc ⊢
    refine hc.imp (hab.1 c) ?_
    rintro ⟨x, hx⟩
    exact ⟨x, hx.mono hab.2⟩
  · intro c x hx
    rw [mem_targets_after] at hx ⊢
    exact hx.imp (hab.2 c x) fun hx => hx.mono hab.2

theorem monotoneOn (g : Graph) : flow.MonotoneOn g where
  answers _ _ _ a b := by
    rw [show flow.transfer _ a = .uniform (after _ a) from transfer_eq _ a,
      show flow.transfer _ b = .uniform (after _ b) from transfer_eq _ b]
    rfl
  mono _ _ _ a b x y hab hx hy := by
    rw [factFor?_transfer] at hx hy
    rw [← hx, ← hy]
    exact after_leq _ hab

/-! ## The pairs that can occur -/

/-- The instruction with an index reserves an object and refers to it. -/
def allocates (g : Graph) (index : Nat) : Bool :=
  (g.instruction? index).any fun inst => inst.opcode = .alloca && inst.ty.isPointer

/-- The instruction with an index writes to memory. -/
def stores (g : Graph) (index : Nat) : Bool :=
  (g.instruction? index).any fun inst => inst.opcode = .store

/-- A cell that may refer to the object of an instruction: a register, which for a reserving
instruction is its own; or, where something is written to memory, an object. -/
def Possible (g : Graph) (c : Cell) (target : Nat) : Prop :=
  (∃ j < g.size, c = .register j ∧ (allocates g j = true → j = target)) ∨
    (∃ l, c = .memory l ∧ allocates g l = true ∧ ∃ s, stores g s = true)

/-- Facts with possible pairs only, and without cells that have no target. -/
structure Occurs (g : Graph) (fact : PointsTo) : Prop where
  inhabited : ∀ c, fact.Tracks c → ∃ x, x ∈ fact.targets c
  possible : ∀ c x, x ∈ fact.targets c → ∃ k, x = .memory k ∧ allocates g k = true ∧ Possible g c k

theorem allocates_iff {g : Graph} {index : Nat} : allocates g index = true ↔
    ∃ inst, g.instruction? index = some inst ∧ inst.opcode = .alloca ∧
      inst.ty.isPointer = true := by
  simp [allocates, Option.any_eq_true]

theorem stores_iff {g : Graph} {index : Nat} : stores g index = true ↔
    ∃ inst, g.instruction? index = some inst ∧ inst.opcode = .store := by
  simp [stores, Option.any_eq_true]

theorem lt_size_of_allocates {g : Graph} {index : Nat} (h : allocates g index = true) :
    index < g.size := by
  obtain ⟨inst, hinst, -⟩ := allocates_iff.1 h
  exact Graph.lt_size_of_instruction hinst

theorem lt_size_of_stores {g : Graph} {index : Nat} (h : stores g index = true) :
    index < g.size := by
  obtain ⟨inst, hinst, -⟩ := stores_iff.1 h
  exact Graph.lt_size_of_instruction hinst

/-- No instruction both reserves an object and writes to memory. -/
theorem ne_of_stores {g : Graph} {k s : Nat} (hk : allocates g k = true)
    (hs : stores g s = true) : k ≠ s := by
  rintro rfl
  obtain ⟨inst, hinst, hopcode, -⟩ := allocates_iff.1 hk
  obtain ⟨inst', hinst', hopcode'⟩ := stores_iff.1 hs
  rw [hinst] at hinst'
  cases hinst'
  rw [hopcode] at hopcode'
  cases hopcode'

theorem classify_eq_allocation {opcode : Opcode}
    (h : PointerCategory.classify opcode = .allocation) :
    opcode = .alloca := by
  cases opcode <;> first | rfl | cases h

/-- What an instruction may refer to was the target of some cell before, unless it reserves an
object. -/
theorem exists_of_mem_resultPointees {v : Visit} {fact : PointsTo} {x : Cell}
    (hx : x ∈ resultPointees v fact) :
    (v.inst.opcode = .alloca ∧ x = .memory v.index) ∨
    (v.inst.opcode ≠ .alloca ∧ ∃ c, x ∈ fact.targets c) := by
  have hoperand : ∀ {position : Nat},
      x ∈ operandPointees v fact position → ∃ c, x ∈ fact.targets c := by
    intro position hx
    obtain ⟨index, -, hx⟩ := mem_operandPointees.1 hx
    exact ⟨_, hx⟩
  by_cases halloca : v.inst.opcode = .alloca
  · left
    simpa [resultPointees, halloca, PointerCategory.classify] using hx
  · refine Or.inr ⟨halloca, ?_⟩
    rw [resultPointees] at hx
    split at hx
    · rename_i hcategory
      exact absurd (classify_eq_allocation hcategory) halloca
    · exact hoperand hx
    · exact hoperand hx
    · obtain ⟨c, -, hx⟩ := List.mem_flatMap.1 hx
      exact ⟨c, hx⟩
    · exact (List.mem_append.1 hx).elim hoperand hoperand
    · obtain ⟨phi, -, pair, -, index, -, hx⟩ := mem_mergedPointees.1 hx
      exact ⟨_, hx⟩
    · exact absurd hx List.not_mem_nil
    · exact absurd hx List.not_mem_nil

/-- The pairs that an instruction adds are possible. -/
theorem Occurs.possible_of_adds {g : Graph} {fact : PointsTo} (h : Occurs g fact) {index : Nat}
    {inst : Instruction} (hinst : g.instruction? index = some inst) {c x : Cell}
    (hadds : Adds ⟨g, index, inst⟩ fact c x) :
    ∃ k, x = .memory k ∧ allocates g k = true ∧ Possible g c k := by
  rcases hadds with ⟨hstore, hc, hx⟩ | ⟨-, hpointer, rfl, hx⟩
  · obtain ⟨_, -, hc⟩ := mem_operandPointees.1 hc
    obtain ⟨_, -, hx⟩ := mem_operandPointees.1 hx
    obtain ⟨l, rfl, hl, -⟩ := h.possible _ c hc
    obtain ⟨k, rfl, hk, -⟩ := h.possible _ x hx
    exact ⟨k, rfl, hk, Or.inr ⟨l, rfl, hl, index, stores_iff.2 ⟨inst, hinst, hstore⟩⟩⟩
  · have hlt := Graph.lt_size_of_instruction hinst
    rcases exists_of_mem_resultPointees hx with ⟨halloca, rfl⟩ | ⟨halloca, c, hx⟩
    · exact ⟨index, rfl, allocates_iff.2 ⟨inst, hinst, halloca, hpointer⟩,
        Or.inl ⟨index, hlt, rfl, fun _ => rfl⟩⟩
    · obtain ⟨k, rfl, hk, -⟩ := h.possible c x hx
      refine ⟨k, rfl, hk, Or.inl ⟨index, hlt, rfl, fun halloc => ?_⟩⟩
      obtain ⟨inst', hinst', halloca', -⟩ := allocates_iff.1 halloc
      rw [hinst] at hinst'
      cases hinst'
      exact absurd halloca' halloca

theorem keptOn (g : Graph) : flow.KeptOn g (Occurs g) where
  bottom :=
    ⟨fun c hc => absurd hc PointsTo.not_tracks_empty,
      fun c x hx => absurd hx PointsTo.not_mem_targets_empty⟩
  initial :=
    ⟨fun c hc => absurd hc PointsTo.not_tracks_empty,
      fun c x hx => absurd hx PointsTo.not_mem_targets_empty⟩
  join a b ha hb := by
    constructor
    · intro c hc
      rcases PointsTo.tracks_join.1 hc with hc | hc
      · obtain ⟨x, hx⟩ := ha.inhabited c hc
        exact ⟨x, PointsTo.mem_targets_join.2 (Or.inl hx)⟩
      · obtain ⟨x, hx⟩ := hb.inhabited c hc
        exact ⟨x, PointsTo.mem_targets_join.2 (Or.inr hx)⟩
    · intro c x hx
      exact (PointsTo.mem_targets_join.1 hx).elim (ha.possible c x) (hb.possible c x)
  transfer {index inst} hinst position _ a out hout ha := by
    rw [factFor?_transfer] at hout
    rw [← hout]
    constructor
    · intro c hc
      rcases tracks_after.1 hc with hc | ⟨x, hx⟩
      · obtain ⟨x, hx⟩ := ha.inhabited c hc
        exact ⟨x, mem_targets_after.2 (Or.inl hx)⟩
      · exact ⟨x, mem_targets_after.2 (Or.inr hx)⟩
    · intro c x hx
      rcases mem_targets_after.1 hx with hx | hx
      · exact ha.possible c x hx
      · exact ha.possible_of_adds hinst hx

/-! ## The table -/

/-- An instruction that writes to memory, if there is one. -/
def storeColumn (g : Graph) : Nat :=
  ((List.range g.size).find? (stores g)).getD 0

/-- Entry of a fact in the table of a graph.  A row shows the targets of a register, or of an object
where the instruction reserves one.  No object belongs to a store, so such a row has room to show,
in the column of a store, that the register refers to its own object. -/
def entry (g : Graph) (fact : PointsTo) (place : Nat × Nat) : Bool :=
  if allocates g place.1 then
    if place.2 = storeColumn g then fact.pointsTo (.register place.1) (.memory place.1)
    else fact.pointsTo (.memory place.1) (.memory place.2)
  else fact.pointsTo (.register place.1) (.memory place.2)

theorem entry_mono {g : Graph} {a b : PointsTo} (hab : JoinLattice.leq a b = true)
    (place : Nat × Nat) (h : entry g a place = true) : entry g b place = true := by
  have hsub := (PointsTo.leq_iff_views.1 hab).2
  simp only [entry] at h ⊢
  split at h
  · split at h
    · simp_all
    · simp_all
  · simp_all

/-- Every possible pair has its place in the table. -/
theorem exists_place {g : Graph} {c : Cell} {k : Nat} (hk : allocates g k = true)
    (h : Possible g c k) :
    ∃ place ∈ Finset.range g.size ×ˢ Finset.range g.size,
      ∀ fact : PointsTo, entry g fact place = fact.pointsTo c (.memory k) := by
  have hlt := lt_size_of_allocates hk
  -- A register that reserves has one target, which is shown in the column of a store.  An object
  -- has targets only where something stores, and then none of them is in that column.
  rcases h with ⟨j, hj, rfl, hown⟩ | ⟨l, rfl, hl, s, hs⟩
  · by_cases halloc : allocates g j = true
    · have hcolumn : storeColumn g < g.size := by
        rw [storeColumn]
        cases hfind : (List.range g.size).find? (stores g) with
        | none => exact Nat.lt_of_le_of_lt (Nat.zero_le j) hj
        | some s => exact List.mem_range.1 (List.mem_of_find?_eq_some hfind)
      refine ⟨(j, storeColumn g), by simp [hj, hcolumn], fun fact => ?_⟩
      rw [← hown halloc]
      simp [entry, halloc]
    · refine ⟨(j, k), by simp [hj, hlt], fun fact => ?_⟩
      simp [entry, halloc]
  · have hcolumn : stores g (storeColumn g) = true := by
      rw [storeColumn]
      cases hfind : (List.range g.size).find? (stores g) with
      | none =>
        exact absurd hs (List.find?_eq_none.1 hfind s (List.mem_range.2 (lt_size_of_stores hs)))
      | some s => exact List.find?_some hfind
    refine ⟨(l, k), by simp [lt_size_of_allocates hl, hlt], fun fact => ?_⟩
    simp [entry, hl, ne_of_stores hk hcolumn]

/-- Facts that occur are compared entry by entry. -/
theorem leq_of_entry {g : Graph} {a b : PointsTo} (ha : Occurs g a)
    (h : ∀ place ∈ Finset.range g.size ×ˢ Finset.range g.size,
      entry g a place = true → entry g b place = true) :
    JoinLattice.leq a b = true := by
  have htargets : ∀ c x, x ∈ a.targets c → x ∈ b.targets c := by
    intro c x hx
    obtain ⟨k, rfl, hk, hpossible⟩ := ha.possible c x hx
    obtain ⟨place, hplace, hentry⟩ := exists_place hk hpossible
    rw [← PointsTo.pointsTo_iff, ← hentry]
    refine h place hplace ?_
    rw [hentry, PointsTo.pointsTo_iff]
    exact hx
  refine PointsTo.leq_iff_views.2 ⟨fun c hc => ?_, htargets⟩
  obtain ⟨x, hx⟩ := ha.inhabited c hc
  exact PointsTo.tracks_of_mem (htargets c x hx)

/-- The rank of a points-to fact is the number of its entries in the table. -/
def gauge (g : Graph) : Gauge flow g (g.size * g.size) :=
  (Gauge.ofMembers (keptOn g) (Finset.range g.size ×ˢ Finset.range g.size) (entry g) entry_mono
    leq_of_entry).weaken (by rw [Finset.card_product, Finset.card_range])

end MayPointTo

end Dataflow
