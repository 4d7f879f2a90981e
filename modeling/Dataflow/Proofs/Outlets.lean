import Dataflow.Proofs.Completeness
import Dataflow.Proofs.Idempotence
import Dataflow.Proofs.Linking
import Dataflow.Proofs.Neighbours

/-!
# Edges that carry results

The fact of an instruction is read off the edges that leave it, so an instruction that nothing
leaves has no fact of its own, whatever the flow makes of it.  In a complete function this never
happens in the direction of execution.  Against it, it happens exactly where a block starts that is
not the entry and that no block branches to.

* `Function.Stranded`: the places where nothing leaves against the direction of execution.
* `Graph.outgoing_forward_ne_nil`, `Graph.outgoing_backward_eq_nil`: the ways out, in both
  directions.
* `factsGiven`, `Engine.factAt_finish`: the fact of an instruction is the join of what the flow
  gives for its edges.
* `finish_outlets`: all of it for finished drafts.
* `strandedUse_no_outlet`: a finished draft with a use that liveness does not report.
-/

namespace Dataflow

open JoinLattice

namespace Function

variable {f : Function}

/-- A block starts at the index that is not the entry and that no block branches to. -/
def Stranded (f : Function) (index : Nat) : Prop :=
  ∃ key b, f.Starts key b index ∧ key ≠ f.entry ∧ f.predecessorsOf key = []

theorem Starts.mem {key : BlockId} {b : Block} {start : Nat} (h : f.Starts key b start) :
    (key, b) ∈ f.blocks.entries := by
  obtain ⟨before, after, hentries, -⟩ := h
  exact hentries ▸ List.mem_append_right _ List.mem_cons_self

theorem Complete.ne_nil (h : f.Complete) {key : BlockId} {b : Block} {start : Nat}
    (hstarts : f.Starts key b start) :
    b.instructions ≠ [] :=
  (h.closed b (List.mem_map.2 ⟨_, hstarts.mem, rfl⟩)).ne_nil

/-- An index stands for one block and one position in it. -/
theorem Starts.place_unique {key key' : BlockId} {b b' : Block}
    {start start' position position' : Nat} (h : f.Starts key b start)
    (hlt : position < b.instructions.length) (h' : f.Starts key' b' start')
    (hlt' : position' < b'.instructions.length) (heq : start + position = start' + position') :
    key = key' ∧ position = position' := by
  have hsite : f.sites[start + position]? = some ⟨key, position, b.instructions[position]⟩ :=
    getElem?_sites_iff.2 ⟨b, start, h, List.getElem?_eq_getElem hlt, rfl⟩
  have hsite' : f.sites[start' + position']? = some ⟨key', position', b'.instructions[position']⟩ :=
    getElem?_sites_iff.2 ⟨b', start', h', List.getElem?_eq_getElem hlt', rfl⟩
  rw [heq, hsite', Option.some.injEq, Site.mk.injEq] at hsite
  exact ⟨hsite.1.symm, hsite.2.1.symm⟩

/-! ## Steps out of an instruction and into it -/

/-- In a complete function execution goes on from every instruction, or ends there. -/
theorem Complete.exists_step_from (h : f.Complete) {index : Nat} {site : Site}
    (hsite : f.sites[index]? = some site) :
    ∃ dst, f.Step ⟨.inst index, dst⟩ := by
  obtain ⟨b, start, hstarts, hinst, rfl⟩ := getElem?_sites_iff.1 hsite
  have hposition := (List.getElem?_eq_some_iff.1 hinst).1
  by_cases hnext : site.position + 1 < b.instructions.length
  · exact ⟨_, .next hstarts hnext⟩
  · -- the last instruction of its block
    have hlast : start + site.position = start + b.instructions.length - 1 := by omega
    rw [hlast]
    cases hsuccessors : b.successors with
    | nil => exact ⟨_, .leave hstarts (h.ne_nil hstarts) hsuccessors⟩
    | cons target rest =>
      have htarget : target ∈ b.successors := by simp [hsuccessors]
      obtain ⟨b', first, hstarts', hne'⟩ :=
        h.exists_starts (List.mem_map.2 ⟨_, hstarts.mem, rfl⟩) htarget
      exact ⟨_, .branch hstarts (h.ne_nil hstarts) htarget hstarts' hne'⟩

/-- In a complete function execution comes to every instruction from somewhere, unless it is
stranded. -/
theorem Complete.exists_step_to (h : f.Complete) {index : Nat} {site : Site}
    (hsite : f.sites[index]? = some site) (hstranded : ¬ f.Stranded index) :
    ∃ src, f.Step ⟨src, .inst index⟩ := by
  obtain ⟨b, start, hstarts, hinst, rfl⟩ := getElem?_sites_iff.1 hsite
  cases hposition : site.position with
  | succ position =>
    have hlt := (List.getElem?_eq_some_iff.1 hinst).1
    rw [hposition] at hlt
    exact ⟨_, .next hstarts hlt⟩
  | zero =>
    rw [hposition] at hstranded
    by_cases hentry : site.block = f.entry
    · exact ⟨_, .enter (hentry ▸ hstarts) (h.ne_nil hstarts)⟩
    · have hpredecessors : f.predecessorsOf site.block ≠ [] :=
        fun hnone => hstranded ⟨site.block, b, hstarts, hentry, hnone⟩
      rw [Ne, predecessorsOf_eq_nil] at hpredecessors
      push Not at hpredecessors
      obtain ⟨⟨key, b'⟩, hmem, htarget⟩ := hpredecessors
      obtain ⟨start', hstarts'⟩ := exists_starts_of_mem hmem
      exact ⟨_, .branch hstarts' (h.ne_nil hstarts') htarget hstarts (h.ne_nil hstarts)⟩

/-- In a complete function no step of execution leads to a stranded instruction. -/
theorem Complete.no_step_to (h : f.Complete) {index : Nat} (hstranded : f.Stranded index)
    (src : Node) :
    ¬ f.Step ⟨src, .inst index⟩ := by
  obtain ⟨key, b, hstarts, hentry, hpredecessors⟩ := hstranded
  have hfirst : 0 < b.instructions.length := List.length_pos_iff.2 (h.ne_nil hstarts)
  intro hstep
  cases hstep with
  | enter hstarts' hne' =>
    exact hentry (hstarts.place_unique hfirst hstarts' (List.length_pos_iff.2 hne') rfl).1
  | next hstarts' hnext =>
    exact absurd (hstarts.place_unique hfirst hstarts' hnext rfl).2 (Nat.succ_ne_zero _).symm
  | branch hstarts' hne' htarget hstarts'' hne'' =>
    obtain ⟨rfl, -⟩ := hstarts.place_unique hfirst hstarts'' (List.length_pos_iff.2 hne'') rfl
    exact predecessorsOf_eq_nil.1 hpredecessors _ hstarts'.mem htarget

end Function

/-! ## Ways out -/

@[simp] theorem Node.reversed_reversed (node : Node) : node.reversed.reversed = node := by
  cases node <;> rfl

@[simp] theorem Edge.reversed_reversed (e : Edge) : e.reversed.reversed = e := by
  simp [Edge.reversed]

namespace Graph

variable {f : Function} {index : Nat}

theorem mem_outgoing_forward {dst : Node} :
    dst ∈ (build f .forward).outgoing index ↔ f.Step ⟨.inst index, dst⟩ :=
  mem_outgoing.trans (mem_edges.symm.trans mem_edges_forward)

theorem mem_outgoing_backward {dst : Node} :
    dst ∈ (build f .backward).outgoing index ↔ f.Step ⟨dst.reversed, .inst index⟩ := by
  rw [mem_outgoing, ← mem_edges, mem_edges_backward]
  simp only [mem_edges_forward]
  constructor
  · rintro ⟨s, hstep, heq⟩
    rw [← s.reversed_reversed, heq] at hstep
    exact hstep
  · intro hstep
    exact ⟨_, hstep, congrArg (Edge.mk (.inst index)) dst.reversed_reversed⟩

/-- **In the direction of execution every instruction of a complete function has a way out.** -/
theorem outgoing_forward_ne_nil (h : f.Complete) (hindex : index < (build f .forward).size) :
    (build f .forward).outgoing index ≠ [] := by
  obtain ⟨site, hsite⟩ := exists_site hindex
  obtain ⟨dst, hstep⟩ := h.exists_step_from hsite
  exact List.ne_nil_of_mem (mem_outgoing_forward.2 hstep)

/-- **Against the direction of execution exactly the stranded instructions of a complete function
have no way out.** -/
theorem outgoing_backward_eq_nil (h : f.Complete) (hindex : index < (build f .backward).size) :
    (build f .backward).outgoing index = [] ↔ f.Stranded index := by
  obtain ⟨site, hsite⟩ := exists_site hindex
  constructor
  · intro hnil
    by_contra hstranded
    obtain ⟨src, hstep⟩ := h.exists_step_to hsite hstranded
    have hmem : src.reversed ∈ (build f .backward).outgoing index := by
      rw [mem_outgoing_backward, Node.reversed_reversed]
      exact hstep
    rw [hnil] at hmem
    exact List.not_mem_nil hmem
  · intro hstranded
    refine List.eq_nil_iff_forall_not_mem.2 fun dst hdst => ?_
    exact h.no_step_to hstranded _ (mem_outgoing_backward.1 hdst)

end Graph

/-! ## Facts -/

section Facts

variable {F : Type} [JoinLattice F] [DecidableEq F] {flow : Flow F} {f : Function} {run : Run F}
  {index : Nat} {inst : Instruction}

/-- What the flow gives for the edges that leave an instruction.  An edge for which it gives nothing
keeps the fact that an earlier visit left there. -/
def factsGiven (flow : Flow F) (g : Graph) (store : EdgeStore F) (index : Nat)
    (inst : Instruction) : List F :=
  (g.outgoing index).mapIdx fun position dst =>
    ((flow.transfer ⟨g, index, inst⟩ (arriving g store index)).factFor? position).getD
      (store.get ⟨.inst index, dst⟩)

/-- **The fact of an instruction is the join of what the flow gives for its edges**, where the
solver returns. -/
theorem Engine.factAt_finish (h : (Engine.start flow f).Returns run)
    (hinst : (Graph.build f flow.direction).instruction? index = some inst) :
    ((Engine.start flow f).finish run).factAt index =
      joinAll (factsGiven flow (Graph.build f flow.direction) run.store index inst) := by
  have hsettled := h.settled (Graph.build_wellLinked f flow.direction) index
  refine congrArg joinAll (List.ext_getElem? fun position => ?_)
  rw [List.getElem?_map, factsGiven, List.getElem?_mapIdx]
  cases hdst : ((Graph.build f flow.direction).outgoing index)[position]? with
  | none => exact congrArg (Option.map _) hdst
  | some dst =>
    refine (congrArg (Option.map _) hdst).trans (congrArg some ?_)
    cases hfact : (flow.transfer ⟨Graph.build f flow.direction, index, inst⟩
        (arriving (Graph.build f flow.direction) run.store index)).factFor? position with
    | none => rfl
    | some fact => exact hsettled _ (mem_demands.2 ⟨position, dst, ⟨inst, hinst, hdst, hfact⟩, rfl⟩)

variable [LawfulJoinLattice F]

omit [DecidableEq F] in
theorem joinAll_eq_of_forall_eq {l : List F} {a : F} (hne : l ≠ []) (h : ∀ x ∈ l, x = a) :
    joinAll l = a := by
  obtain ⟨x, rest, rfl⟩ := List.exists_cons_of_ne_nil hne
  have hx : x = a := h x List.mem_cons_self
  refine leq_antisymm (joinAll_leq fun y hy => ?_) (leq_joinAll (hx ▸ List.mem_cons_self))
  rw [h y hy]
  exact leq_refl a

/-- An instruction to all of whose edges the flow gives one fact has that fact, unless it has no
edge. -/
theorem Engine.factAt_uniform (h : (Engine.start flow f).Returns run)
    (hinst : (Graph.build f flow.direction).instruction? index = some inst) {fact : F}
    (hfact : flow.transfer ⟨Graph.build f flow.direction, index, inst⟩
      (arriving (Graph.build f flow.direction) run.store index) = .uniform fact) :
    ((Engine.start flow f).finish run).factAt index =
      if (Graph.build f flow.direction).outgoing index = [] then bottom else fact := by
  rw [Engine.factAt_finish h hinst]
  split
  · rename_i hnil
    rw [factsGiven, hnil]
    rfl
  · rename_i hne
    refine joinAll_eq_of_forall_eq ?_ fun x hx => ?_
    · rwa [factsGiven, Ne, List.mapIdx_eq_nil_iff]
    · obtain ⟨position, _, rfl⟩ := List.mem_mapIdx.1 hx
      rw [hfact]
      rfl

end Facts

/-! ## Finished drafts -/

/-- **The ways out of the instructions of a finished draft, and the facts that they carry.**  In the
direction of execution every instruction has a way out.  Against it exactly the stranded ones have
none.  Where the solver returns, the fact of an instruction is the join of what the flow gives for
its edges; where the flow gives one fact for all of them, it is that fact if there is an edge, and
bottom if there is none. -/
theorem finish_outlets (d : Draft) (f : Function) (h : d.finish = .ok f) :
    (∀ index < (Graph.build f .forward).size, (Graph.build f .forward).outgoing index ≠ []) ∧
    (∀ index < (Graph.build f .backward).size,
      (Graph.build f .backward).outgoing index = [] ↔ f.Stranded index) ∧
    ∀ (F : Type) [JoinLattice F] [DecidableEq F] [LawfulJoinLattice F]
        (flow : Flow F) (run : Run F),
      (Engine.start flow f).Returns run → ∀ index inst,
        (Graph.build f flow.direction).instruction? index = some inst →
        ((Engine.start flow f).finish run).factAt index =
          joinAll (factsGiven flow (Graph.build f flow.direction) run.store index inst) ∧
        ∀ fact, flow.transfer ⟨Graph.build f flow.direction, index, inst⟩
            (arriving (Graph.build f flow.direction) run.store index) = .uniform fact →
          ((Engine.start flow f).finish run).factAt index =
            if (Graph.build f flow.direction).outgoing index = [] then bottom else fact := by
  have hcomplete := Draft.complete_of_finish h
  refine ⟨fun index hindex => Graph.outgoing_forward_ne_nil hcomplete hindex,
    fun index hindex => Graph.outgoing_backward_eq_nil hcomplete hindex, ?_⟩
  intro F _ _ _ flow run hreturns index inst hinst
  exact ⟨Engine.factAt_finish hreturns hinst,
    fun fact hfact => Engine.factAt_uniform hreturns hinst hfact⟩

/-- A function whose last block is entered from nowhere, and returns a sum that the first block
computes. -/
def Draft.strandedUse : Draft :=
  (Draft.start "f" .word).applyAll [
    .param "a" .word, .block "entry", .binary .add .word (.arg 0) (.const 1),
    .ret (some (.inst ⟨0⟩)), .block "dead", .switchTo ⟨1⟩, .ret (some (.inst ⟨0⟩))]

/-- The function that the draft describes. -/
def Function.strandedUse : Function where
  name := "f"
  params := [⟨"a", .word⟩]
  ret := .word
  entry := ⟨0⟩
  blocks :=
    { entries := [
        (⟨0⟩, ⟨⟨0⟩, "entry", [
          ⟨⟨0⟩, none, .add, .word, [.arg 0, .const 1], [], none⟩,
          ⟨⟨1⟩, none, .ret, .void, [.inst ⟨0⟩], [], none⟩]⟩),
        (⟨1⟩, ⟨⟨1⟩, "dead", [
          ⟨⟨2⟩, none, .ret, .void, [.inst ⟨0⟩], [], none⟩]⟩)]
      nodup := by decide }

/-- With execution the last return has a way out.  Against it, it has none, and what liveness makes
of the first return is its fact. -/
theorem finish_outlets_strandedUse :
    Draft.strandedUse.finish = .ok .strandedUse ∧
    (Graph.build .strandedUse .forward).outgoing 2 ≠ [] ∧
    (Graph.build .strandedUse .backward).outgoing 2 = [] ∧
    (Engine.start Liveness.flow .strandedUse).solve.factAt 1 = SortedSet.ofList [0] := by
  have hfinish : Draft.strandedUse.finish = .ok .strandedUse := rfl
  obtain ⟨hforward, hbackward, hfacts⟩ := finish_outlets _ _ hfinish
  have hstranded : Function.strandedUse.Stranded 2 :=
    ⟨⟨1⟩, _, ⟨[_], [], rfl, rfl⟩, by decide, by decide +kernel⟩
  have hreturns := (Liveness.bounded.worksWithin .strandedUse).returns
  have hfact := (hfacts IndexSet Liveness.flow _ hreturns 1 _ rfl).2 (SortedSet.ofList [0])
    (by decide +kernel)
  rw [if_neg (by decide +kernel)] at hfact
  exact ⟨hfinish, hforward 2 (by decide), (hbackward 2 (by decide)).2 hstranded, hfact⟩

/-- Nothing leaves the last return against execution.  Liveness finds that it uses the sum, and
reports nothing. -/
theorem strandedUse_no_outlet :
    Draft.strandedUse.finish = .ok .strandedUse ∧
    2 < (Graph.build .strandedUse .backward).size ∧
    (Graph.build .strandedUse .backward).outgoing 2 = [] ∧
    Liveness.flow.transfer
        ⟨Graph.build .strandedUse .backward, 2, ⟨⟨2⟩, none, .ret, .void, [.inst ⟨0⟩], [], none⟩⟩
        (arriving (Graph.build .strandedUse .backward)
          (Engine.start Liveness.flow .strandedUse).solve.store 2) =
      .uniform (SortedSet.ofList [0]) ∧
    (Graph.build .strandedUse .backward).instruction? 2 =
      some ⟨⟨2⟩, none, .ret, .void, [.inst ⟨0⟩], [], none⟩ ∧
    (Engine.start Liveness.flow .strandedUse).solve.factAt 2 = bottom :=
  ⟨rfl, by decide, by decide +kernel, by decide +kernel, by decide +kernel, by decide +kernel⟩

end Dataflow
