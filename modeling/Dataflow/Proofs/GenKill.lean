import Dataflow.Analysis.Liveness
import Dataflow.Analysis.Reaching
import Dataflow.Proofs.Termination

/-!
# Reaching definitions and liveness generate and kill

On every edge both flows take fixed indices away and add fixed ones.  The fact that arrives decides
nothing else, so they are monotone, and only indices of instructions ever occur.

* `Flow.GenKillOn`: a flow on index sets that kills and generates.
* `Flow.GenKillOn.monotoneOn`, `Flow.GenKillOn.gauge`: what follows from this form alone.
* `Reaching.genKillOn`, `Liveness.genKillOn`: both flows have it, on the graph of every function.
-/

namespace Dataflow

open JoinLattice

/-! ## The form -/

/-- On every edge of the graph the flow takes the killed indices away and then adds the generated
ones, which are indices of instructions. -/
structure Flow.GenKillOn (flow : Flow IndexSet) (g : Graph) (killed : Visit → List Nat)
    (generated : Visit → Nat → List Nat) : Prop where
  transfer : ∀ {index : Nat} {inst : Instruction}, g.instruction? index = some inst →
    ∀ {position : Nat}, position < (g.outgoing index).length → ∀ fact : IndexSet,
      ∃ out, (flow.transfer ⟨g, index, inst⟩ fact).factFor? position = some out ∧
        ∀ x, x ∈ out ↔ (x ∈ fact ∧ x ∉ killed ⟨g, index, inst⟩) ∨
          x ∈ generated ⟨g, index, inst⟩ position
  below : ∀ {index : Nat} {inst : Instruction}, g.instruction? index = some inst →
    ∀ {position x : Nat}, x ∈ generated ⟨g, index, inst⟩ position → x < g.size

namespace Flow.GenKillOn

variable {flow : Flow IndexSet} {g : Graph} {killed : Visit → List Nat}
  {generated : Visit → Nat → List Nat}

theorem mem_iff (h : flow.GenKillOn g killed generated) {index : Nat} {inst : Instruction}
    (hinst : g.instruction? index = some inst) {position : Nat}
    (hposition : position < (g.outgoing index).length) {fact out : IndexSet}
    (hout : (flow.transfer ⟨g, index, inst⟩ fact).factFor? position = some out) {x : Nat} :
    x ∈ out ↔
      (x ∈ fact ∧ x ∉ killed ⟨g, index, inst⟩) ∨ x ∈ generated ⟨g, index, inst⟩ position := by
  obtain ⟨out', hout', hmem⟩ := h.transfer hinst hposition fact
  rw [hout] at hout'
  cases hout'
  exact hmem x

theorem monotoneOn (h : flow.GenKillOn g killed generated) : flow.MonotoneOn g where
  answers hinst position hposition a b := by
    obtain ⟨x, hx, -⟩ := h.transfer hinst hposition a
    obtain ⟨y, hy, -⟩ := h.transfer hinst hposition b
    rw [hx, hy, Option.isSome_some, Option.isSome_some]
  mono hinst position hposition a b x y hab hx hy := by
    rw [IndexSet.leq_iff_subset] at hab ⊢
    intro k hk
    rw [h.mem_iff hinst hposition hx] at hk
    rw [h.mem_iff hinst hposition hy]
    exact hk.imp (fun hk => ⟨hab k hk.1, hk.2⟩) id

theorem keptOn (h : flow.GenKillOn g killed generated) (hinitial : flow.initial = .empty) :
    flow.KeptOn g fun fact => ∀ x ∈ fact, x < g.size where
  bottom x hx := absurd hx SortedSet.not_mem_empty
  initial x hx := by
    rw [hinitial] at hx
    exact absurd hx SortedSet.not_mem_empty
  join a b ha hb x hx := (IndexSet.mem_join.1 hx).elim (ha x) (hb x)
  transfer hinst position hposition a out hout ha x hx := by
    rcases (h.mem_iff hinst hposition hout).1 hx with hx | hx
    · exact ha x hx.1
    · exact h.below hinst hx

/-- The rank of an index set is its number of members, at most the number of instructions. -/
def gauge (h : flow.GenKillOn g killed generated) (hinitial : flow.initial = .empty) :
    Gauge flow g g.size :=
  (Gauge.ofMembers (h.keptOn hinitial) (Finset.range g.size) SortedSet.contains
    (by
      intro a b hle x hx
      rw [SortedSet.contains_iff] at hx ⊢
      exact IndexSet.leq_iff_subset.1 hle x hx)
    (by
      intro a b ha hsub
      refine IndexSet.leq_iff_subset.2 fun x hx => SortedSet.contains_iff.1 ?_
      exact hsub x (Finset.mem_range.2 (ha x hx)) (SortedSet.contains_iff.2 hx))).weaken
    (Finset.card_range g.size).le

end Flow.GenKillOn

/-! ## Reaching definitions -/

namespace Reaching

/-- A group of phis ends inside the graph. -/
theorem index_add_groupSize_le {f : Function} {direction : Direction} {index : Nat}
    {inst : Instruction} (hinst : (Graph.build f direction).instruction? index = some inst) :
    index + groupSize ⟨Graph.build f direction, index, inst⟩ ≤ (Graph.build f direction).size := by
  obtain ⟨site, hsite⟩ := Graph.exists_site (Graph.lt_size_of_instruction hinst)
  obtain ⟨block, hblock, -, hposition, hend⟩ := Graph.exists_block hsite
  have hlt := Graph.lt_size_of_instruction hinst
  have hphis :=
    (List.takeWhile_prefix Instruction.isPhi (l := block.instructions.drop site.position)).length_le
  rw [List.length_drop] at hphis
  simp only [groupSize, hblock, hsite]
  omega

theorem lt_size_of_mem_definitions {f : Function} {direction : Direction} {index : Nat}
    {inst : Instruction} (hinst : (Graph.build f direction).instruction? index = some inst)
    {x : Nat} (hx : x ∈ definitions ⟨Graph.build f direction, index, inst⟩) :
    x < (Graph.build f direction).size := by
  simp only [definitions] at hx
  split at hx
  · rw [List.mem_singleton] at hx
    rw [hx]
    exact Graph.lt_size_of_instruction hinst
  · obtain ⟨k, hk, rfl⟩ := List.mem_map.1 hx
    have hend := index_add_groupSize_le hinst
    have := List.mem_range.1 hk
    omega
  · exact absurd hx List.not_mem_nil
  · exact absurd hx List.not_mem_nil

/-- Reaching definitions kills nothing, and generates what an instruction defines. -/
theorem genKillOn (f : Function) (direction : Direction) :
    flow.GenKillOn (Graph.build f direction) (fun _ => []) (fun v _ => definitions v) where
  transfer hinst position _ fact :=
    ⟨_, rfl, fun x => by simp⟩
  below hinst position x hx := lt_size_of_mem_definitions hinst hx

end Reaching

/-! ## Liveness -/

theorem SortedSet.mem_foldl_erase {α : Type} [KeyOrder α] [DecidableEq α] {l : List α}
    {s : SortedSet α} {x : α} :
    x ∈ l.foldl SortedSet.erase s ↔ x ∈ s ∧ x ∉ l := by
  induction l generalizing s with
  | nil => simp
  | cons a rest ih =>
    rw [List.foldl_cons, ih, SortedSet.mem_erase, List.mem_cons, not_or, and_assoc]

theorem Graph.lt_size_of_operandIndex {g : Graph} {operand : Operand} {index : Nat}
    (h : g.operandIndex? operand = some index) : index < g.size := by
  obtain ⟨id, -, hid⟩ := Option.bind_eq_some_iff.1 h
  exact Graph.lt_size_of_indexOf hid

namespace Liveness

/-- Indices that are not live before an instruction, unless they are generated. -/
def killed (v : Visit) : List Nat :=
  match LiveCategory.classify v.inst.opcode with
  | .mergePoint =>
    match v.graph.blockOf? v.index, v.graph.site? v.index with
    | some block, some site => phiIndices (v.index - site.position) block
    | _, _ => []
  | .valueProducing => [v.index]
  | .effect => []

/-- Indices that become live on the edge at a position. -/
def generated (v : Visit) (position : Nat) : List Nat :=
  match LiveCategory.classify v.inst.opcode with
  | .mergePoint =>
    match v.graph.blockOf? v.index, v.outgoing[position]?.bind (originOf? v.graph) with
    | some block, some origin => takenFrom v.graph block origin
    | _, _ => []
  | .valueProducing | .effect => v.usedIndices

theorem lt_size_of_mem_usedIndices {v : Visit} {x : Nat} (h : x ∈ v.usedIndices) :
    x < v.graph.size := by
  obtain ⟨id, -, hid⟩ := List.mem_filterMap.1 h
  exact Graph.lt_size_of_indexOf hid

theorem lt_size_of_mem_takenFrom {g : Graph} {block : Block} {origin : BlockId} {x : Nat}
    (h : x ∈ takenFrom g block origin) : x < g.size := by
  obtain ⟨phi, -, hphi⟩ := List.mem_flatMap.1 h
  obtain ⟨⟨value, source⟩, -, hvalue⟩ := List.mem_filterMap.1 hphi
  exact Graph.lt_size_of_operandIndex (Option.ite_none_right_eq_some.1 hvalue).2

theorem lt_size_of_mem_generated {v : Visit} {position x : Nat} (h : x ∈ generated v position) :
    x < v.graph.size := by
  simp only [generated] at h
  split at h
  · split at h
    · exact lt_size_of_mem_takenFrom h
    · exact absurd h List.not_mem_nil
  · exact lt_size_of_mem_usedIndices h
  · exact lt_size_of_mem_usedIndices h

/-- At a phi each edge gets its own generated indices. -/
theorem mergePoint_factFor {v : Visit} {block : Block} {site : Site}
    (hblock : v.graph.blockOf? v.index = some block) (hsite : v.graph.site? v.index = some site)
    {position : Nat} {dst : Node} (hdst : v.outgoing[position]? = some dst) (fact : IndexSet) :
    ∃ out, (mergePoint v fact).factFor? position = some out ∧ ∀ x, x ∈ out ↔
      (x ∈ fact ∧ x ∉ phiIndices (v.index - site.position) block) ∨
        ∃ origin, originOf? v.graph dst = some origin ∧ x ∈ takenFrom v.graph block origin := by
  simp only [mergePoint, hblock, hsite, Outgoing.factFor?, List.getElem?_map, hdst, Option.map_some]
  refine ⟨_, rfl, fun x => ?_⟩
  cases originOf? v.graph dst with
  | none => simp [SortedSet.mem_foldl_erase]
  | some origin => simp [SortedSet.mem_foldl_erase]

/-- Liveness kills what an instruction defines, and generates what it uses. -/
theorem genKillOn (f : Function) (direction : Direction) :
    flow.GenKillOn (Graph.build f direction) killed generated where
  transfer {index inst} hinst {position} hposition fact := by
    show ∃ out, (transfer ⟨Graph.build f direction, index, inst⟩ fact).factFor?
      position = some out ∧ _
    simp only [transfer, killed, generated]
    cases LiveCategory.classify inst.opcode with
    | valueProducing => exact ⟨_, rfl, fun x => by simp⟩
    | effect => exact ⟨_, rfl, fun x => by simp⟩
    | mergePoint =>
      obtain ⟨site, hsite⟩ := Graph.exists_site (Graph.lt_size_of_instruction hinst)
      obtain ⟨block, hblock, -⟩ := Graph.exists_block hsite
      have hdst := List.getElem?_eq_getElem hposition
      obtain ⟨out, hout, hmem⟩ :=
        mergePoint_factFor (v := ⟨Graph.build f direction, index, inst⟩) hblock hsite hdst fact
      refine ⟨out, hout, fun x => ?_⟩
      simp only [hmem, hblock, hsite, Visit.outgoing, hdst, Option.bind_some]
      cases originOf? (Graph.build f direction)
        ((Graph.build f direction).outgoing index)[position] with
      | none => simp
      | some origin => simp
  below _ _ _ hx := lt_size_of_mem_generated hx

end Liveness

end Dataflow
