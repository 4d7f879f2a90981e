import Dataflow.Proofs.LivenessPaths
import Dataflow.Proofs.PointsToShape

/-!
# May-point-to updates all cells at once

An instruction adds targets to cells one after another.  What it adds it reads off the fact before
the first addition, so it does not matter in which order it adds, or whether a cell that it reads is
one that it writes.  Every other cell is left alone.

* `PointsTo.Updates`: a fact with gains, taken all at once; `PointsTo.Updates.unique`: there is one
  such fact.
* `MayPointTo.Gains`: what an instruction adds, opcode by opcode.
* `MayPointTo.gains_of_adds`, `MayPointTo.adds_of_gains`: the transfer adds just that.
* `MayPointTo.transfer_updates`: **the fact after an instruction is the fact before it with the
  gains.**
-/

namespace Dataflow

/-! ## Updates -/

/-- A fact with gains: every cell has its targets and what it gains, and a cell that gains nothing
keeps its entry, or has none as before. -/
structure PointsTo.Updates (gains : Cell → Cell → Prop) (fact out : PointsTo) : Prop where
  targets : ∀ c x, x ∈ out.targets c ↔ x ∈ fact.targets c ∨ gains c x
  frame : ∀ c, (∀ x, ¬ gains c x) → out.map.get? c = fact.map.get? c

namespace PointsTo.Updates

variable {gains : Cell → Cell → Prop} {fact out out' : PointsTo}

/-- An entry without targets is one that was there before. -/
theorem get?_of_empty (h : Updates gains fact out) {c : Cell} (hc : out.map.get? c = some .empty) :
    fact.map.get? c = some .empty := by
  have hnone : ∀ x, ¬ gains c x := by
    intro x hx
    have hmem : x ∈ out.targets c := (h.targets c x).2 (Or.inr hx)
    rw [targets_of_get hc] at hmem
    exact SortedSet.not_mem_empty hmem
  rw [← h.frame c hnone, hc]

/-- Gains determine the fact. -/
theorem unique (h : Updates gains fact out) (h' : Updates gains fact out') : out = out' := by
  have htargets : ∀ c x, x ∈ out.targets c ↔ x ∈ out'.targets c := by
    intro c x
    rw [h.targets, h'.targets]
  refine ext_views (fun c => ?_) htargets
  by_cases hc : ∃ x, gains c x
  · obtain ⟨x, hx⟩ := hc
    have hmem : x ∈ out.targets c := (h.targets c x).2 (Or.inr hx)
    exact iff_of_true (tracks_of_mem hmem) (tracks_of_mem ((htargets c x).1 hmem))
  · rw [not_exists] at hc
    rw [Tracks, Tracks, h.frame c hc, h'.frame c hc]

end PointsTo.Updates

namespace MayPointTo

/-! ## Gains -/

/-- A phi stands in the block of the instruction at hand. -/
def SharesBlock (v : Visit) (phi : Instruction) : Prop :=
  ∃ site sibling other, v.graph.site? v.index = some site ∧ v.graph.site? sibling = some other ∧
    other.block = site.block ∧ other.inst.isPhi = true ∧ other.inst = phi

/-- An instruction adds a target to a cell, judged by the fact before it. -/
inductive Gains (v : Visit) (fact : PointsTo) : Cell → Cell → Prop where
  /-- A reservation refers to its object. -/
  | reserve (hopcode : v.inst.opcode = .alloca) (hpointer : v.inst.ty.isPointer = true) :
      Gains v fact (.register v.index) (.memory v.index)
  /-- A cast or an address computation refers to what its first operand refers to. -/
  | pass {j : Nat} {x : Cell} (hopcode : v.inst.opcode = .bitcast ∨ v.inst.opcode = .getelementptr)
      (hpointer : v.inst.ty.isPointer = true) (hj : v.operandIndexAt? 0 = some j)
      (hx : x ∈ fact.targets (.register j)) : Gains v fact (.register v.index) x
  /-- A load refers to what the cells refer to that its operand refers to. -/
  | load {j : Nat} {c x : Cell} (hopcode : v.inst.opcode = .load)
      (hpointer : v.inst.ty.isPointer = true) (hj : v.operandIndexAt? 0 = some j)
      (hc : c ∈ fact.targets (.register j)) (hx : x ∈ fact.targets c) :
      Gains v fact (.register v.index) x
  /-- A selection refers to what either of its values refers to. -/
  | select {position j : Nat} {x : Cell} (hopcode : v.inst.opcode = .select)
      (hpointer : v.inst.ty.isPointer = true) (hposition : position = 1 ∨ position = 2)
      (hj : v.operandIndexAt? position = some j) (hx : x ∈ fact.targets (.register j)) :
      Gains v fact (.register v.index) x
  /-- A phi refers to what any value of any phi of its block refers to. -/
  | merge {j : Nat} {phi : Instruction} {value : Operand} {origin : BlockId} {x : Cell}
      (hopcode : v.inst.opcode = .phi) (hpointer : v.inst.ty.isPointer = true)
      (hphi : SharesBlock v phi) (hvalue : (value, origin) ∈ phi.incoming)
      (hj : v.graph.operandIndex? value = some j) (hx : x ∈ fact.targets (.register j)) :
      Gains v fact (.register v.index) x
  /-- A store makes every cell that its address refers to refer to what its value refers to. -/
  | store {i j : Nat} {c x : Cell} (hopcode : v.inst.opcode = .store)
      (hi : v.operandIndexAt? 1 = some i) (hj : v.operandIndexAt? 0 = some j)
      (hc : c ∈ fact.targets (.register i)) (hx : x ∈ fact.targets (.register j)) : Gains v fact c x

/-- What the result of an instruction may refer to, opcode by opcode. -/
theorem mem_resultPointees {v : Visit} {fact : PointsTo} {x : Cell} :
    x ∈ resultPointees v fact ↔
      (v.inst.opcode = .alloca ∧ x = .memory v.index) ∨
      ((v.inst.opcode = .bitcast ∨ v.inst.opcode = .getelementptr) ∧ x ∈ operandPointees v fact 0) ∨
      (v.inst.opcode = .load ∧ ∃ c ∈ operandPointees v fact 0, x ∈ fact.targets c) ∨
      (v.inst.opcode = .select ∧ (x ∈ operandPointees v fact 1 ∨ x ∈ operandPointees v fact 2)) ∨
      (v.inst.opcode = .phi ∧ x ∈ mergedPointees v fact) := by
  unfold resultPointees
  cases v.inst.opcode <;> simp [PointerCategory.classify]

theorem mem_mergedPhis_iff {f : Function} {direction : Direction} {index : Nat} {inst : Instruction}
    (hinst : (Graph.build f direction).instruction? index = some inst) (phi : Instruction) :
    phi ∈ mergedPhis ⟨Graph.build f direction, index, inst⟩ ↔
      SharesBlock ⟨Graph.build f direction, index, inst⟩ phi := by
  obtain ⟨site, hsite, rfl⟩ := Graph.exists_site_of_instruction hinst
  obtain ⟨b, hblock, hstarts, -, -⟩ := Graph.exists_starts hsite
  simp only [mergedPhis, SharesBlock, hblock, Liveness.mem_phis direction hstarts, hsite,
    Option.some.injEq, exists_and_left, exists_eq_left']

section

variable {v : Visit} (hphis : ∀ phi, phi ∈ mergedPhis v ↔ SharesBlock v phi) {fact : PointsTo}
  {c x : Cell}

include hphis

theorem gains_of_adds (h : Adds v fact c x) : Gains v fact c x := by
  rcases h with ⟨hopcode, hc, hx⟩ | ⟨-, hpointer, rfl, hx⟩
  · obtain ⟨i, hi, hc⟩ := mem_operandPointees.1 hc
    obtain ⟨j, hj, hx⟩ := mem_operandPointees.1 hx
    exact .store hopcode hi hj hc hx
  · rcases mem_resultPointees.1 hx
      with ⟨hopcode, rfl⟩ | ⟨hopcode, hx⟩ | ⟨hopcode, c, hc, hx⟩ | ⟨hopcode, hx⟩ |
      ⟨hopcode, hx⟩
    · exact .reserve hopcode hpointer
    · obtain ⟨j, hj, hx⟩ := mem_operandPointees.1 hx
      exact .pass hopcode hpointer hj hx
    · obtain ⟨j, hj, hc⟩ := mem_operandPointees.1 hc
      exact .load hopcode hpointer hj hc hx
    · rcases hx with hx | hx
      · obtain ⟨j, hj, hx⟩ := mem_operandPointees.1 hx
        exact .select hopcode hpointer (Or.inl rfl) hj hx
      · obtain ⟨j, hj, hx⟩ := mem_operandPointees.1 hx
        exact .select hopcode hpointer (Or.inr rfl) hj hx
    · obtain ⟨phi, hphi, ⟨value, origin⟩, hvalue, j, hj, hx⟩ := mem_mergedPointees.1 hx
      exact .merge hopcode hpointer ((hphis phi).1 hphi) hvalue hj hx

theorem adds_of_gains (h : Gains v fact c x) : Adds v fact c x := by
  cases h with
  | store hopcode hi hj hc hx =>
    exact Or.inl ⟨hopcode, mem_operandPointees.2 ⟨_, hi, hc⟩, mem_operandPointees.2 ⟨_, hj, hx⟩⟩
  | reserve hopcode hpointer =>
    exact Or.inr ⟨by simp [hopcode], hpointer, rfl, mem_resultPointees.2 (by simp [hopcode])⟩
  | pass hopcode hpointer hj hx =>
    have hmem := mem_operandPointees.2 ⟨_, hj, hx⟩
    have hstore : v.inst.opcode ≠ .store := by
      intro hstore
      simp [hstore] at hopcode
    exact Or.inr ⟨hstore, hpointer, rfl, mem_resultPointees.2 (Or.inr (Or.inl ⟨hopcode, hmem⟩))⟩
  | load hopcode hpointer hj hc hx =>
    have hmem := mem_operandPointees.2 ⟨_, hj, hc⟩
    exact Or.inr ⟨by simp [hopcode], hpointer, rfl,
      mem_resultPointees.2 (Or.inr (Or.inr (Or.inl ⟨hopcode, _, hmem, hx⟩)))⟩
  | select hopcode hpointer hposition hj hx =>
    have hmem := mem_operandPointees.2 ⟨_, hj, hx⟩
    refine Or.inr ⟨by simp [hopcode], hpointer, rfl,
      mem_resultPointees.2 (Or.inr (Or.inr (Or.inr (Or.inl ⟨hopcode, ?_⟩))))⟩
    rcases hposition with rfl | rfl
    · exact Or.inl hmem
    · exact Or.inr hmem
  | merge hopcode hpointer hphi hvalue hj hx =>
    have hmem := mem_mergedPointees.2 ⟨_, (hphis _).2 hphi, _, hvalue, _, hj, hx⟩
    exact Or.inr ⟨by simp [hopcode], hpointer, rfl,
      mem_resultPointees.2 (Or.inr (Or.inr (Or.inr (Or.inr ⟨hopcode, hmem⟩))))⟩

end

/-! ## The fact after an instruction -/

/-- The pairs that are added one after another are as good as added at once. -/
theorem updates_after (v : Visit) (fact : PointsTo) :
    PointsTo.Updates (Adds v fact) fact (after v fact) where
  targets c x := mem_targets_after
  frame c hnone := by
    refine PointsTo.get?_eq_of_views ?_ fun x => ?_
    · rw [tracks_after]
      exact or_iff_left fun ⟨x, hx⟩ => hnone x hx
    · rw [mem_targets_after]
      exact or_iff_left (hnone x)

/-- **May-point-to updates all cells at once.**  All edges get one fact.  It is the only one that
has the targets before the instruction and its gains, all of them read off the fact before, and that
leaves every other cell alone.  No entry without targets is made. -/
theorem transfer_updates (f : Function) (direction : Direction) (index : Nat) (inst : Instruction)
    (hinst : (Graph.build f direction).instruction? index = some inst) (fact : PointsTo) :
    ∃ out, flow.transfer ⟨Graph.build f direction, index, inst⟩ fact = .uniform out ∧
      (∀ other, PointsTo.Updates (Gains ⟨Graph.build f direction, index, inst⟩ fact) fact other ↔
        other = out) ∧
      ∀ c, out.map.get? c = some .empty → fact.map.get? c = some .empty := by
  have hphis := mem_mergedPhis_iff hinst
  have hgains : Gains ⟨Graph.build f direction, index, inst⟩ fact =
      Adds ⟨Graph.build f direction, index, inst⟩ fact := by
    funext c x
    exact propext ⟨adds_of_gains hphis, gains_of_adds hphis⟩
  have hupdates := updates_after ⟨Graph.build f direction, index, inst⟩ fact
  refine ⟨_, transfer_eq _ fact, fun other => ?_, fun c hc => hupdates.get?_of_empty hc⟩
  rw [hgains]
  constructor
  · intro hother
    exact hother.unique hupdates
  · rintro rfl
    exact hupdates

/-- A load from its own result. -/
def selfLoad : Function where
  name := "f"
  params := []
  ret := .void
  entry := ⟨0⟩
  blocks :=
    { entries := [
        (⟨0⟩, ⟨⟨0⟩, "entry", [
          ⟨⟨0⟩, none, .load, .ptr .byte, [.inst ⟨0⟩], [], none⟩,
          ⟨⟨1⟩, none, .ret, .void, [], [], none⟩]⟩)]
      nodup := by decide }

/-- A register that refers to itself, and to the first of three objects, each of which refers to the
next. -/
def chain : PointsTo :=
  .ofList [(.register 0, .register 0), (.register 0, .memory 0), (.memory 0, .memory 1),
    (.memory 1, .memory 2)]

/-- The load gives its register one target more.  The object that this target refers to is not
reached, though the register refers to itself. -/
theorem transfer_updates_selfLoad :
    (Graph.build selfLoad .forward).instruction? 0 =
      some ⟨⟨0⟩, none, .load, .ptr .byte, [.inst ⟨0⟩], [], none⟩ ∧
    PointsTo.Updates
      (Gains ⟨Graph.build selfLoad .forward, 0,
        ⟨⟨0⟩, none, .load, .ptr .byte, [.inst ⟨0⟩], [], none⟩⟩ chain)
      chain (chain.add (.register 0) (.memory 1)) ∧
    (chain.add (.register 0) (.memory 1)).pointees (.register 0) =
      [.memory 0, .memory 1, .register 0] := by
  obtain ⟨out, hout, hiff, -⟩ := transfer_updates selfLoad .forward 0 _ rfl chain
  have hresult :
      flow.transfer ⟨Graph.build selfLoad .forward, 0,
          ⟨⟨0⟩, none, .load, .ptr .byte, [.inst ⟨0⟩], [], none⟩⟩ chain =
        .uniform (chain.add (.register 0) (.memory 1)) := by decide +kernel
  rw [hresult] at hout
  cases hout
  exact ⟨rfl, (hiff _).2 rfl, by decide⟩

end MayPointTo

end Dataflow
