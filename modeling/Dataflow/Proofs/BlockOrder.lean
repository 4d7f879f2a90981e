import Dataflow.Proofs.Construction
import Dataflow.Proofs.LivenessPaths
import Dataflow.Proofs.ReachingPaths
import Dataflow.Proofs.Renumbering

/-!
# The order of blocks does not matter

The analyses look at places and at what is linked to what, and these are the same whatever the order
of the blocks.  Only runs of phis are counted by index, and inside a block all indices are shifted
alike.  So every flow respects the renumbering, and least solutions correspond.

* `Reaching.defines_relabel`, `Liveness.kills_relabel`, `Liveness.uses_relabel`,
  `MayPointTo.adds_relabel`: an instruction does to corresponding indices what it does to the
  indices themselves.
* `Flow.GenKillOn.respects`, `MayPointTo.after_relabel`: so do the flows.
* `Engine.Carries`, `Flow.Bounded.carries`: what is solved corresponds, edge by edge and instruction
  by instruction.
* `solve_blockOrder`: **the facts of all three analyses are those of the other order, with the
  indices replaced.**
-/

namespace Dataflow

variable {σ : Equiv.Perm Nat} {f g : Function} {direction : Direction}

/-! ## Reaching definitions -/

namespace Reaching

theorem Defines.relabel (h : Function.Renumbers σ f g) {index x : Nat}
    (hx : Defines (Graph.build f direction) index x) :
    Defines (Graph.build g direction) (σ index) (σ x) := by
  cases hx with
  | result hinst hcategory =>
    rw [← h.instruction?] at hinst
    exact .result hinst hcategory
  | @group site count hsite hphis =>
    -- the run of phis stays in one block, where all indices are shifted alike
    have hrun : PhiRun (Graph.build g direction) site.block (σ index) count := by
      intro k hk
      obtain ⟨other, hother, hblock, hphi⟩ := hphis k hk
      have hshift := h.add hsite hother hblock
      rw [← h.site?, hshift] at hother
      exact ⟨other, hother, hblock, hphi⟩
    obtain ⟨last, hlast, hblock, -⟩ := hphis count (Nat.le_refl count)
    rw [h.add hsite hlast hblock]
    rw [← h.site?] at hsite
    exact .group hsite hrun

theorem defines_relabel (h : Function.Renumbers σ f g) {index x : Nat} :
    Defines (Graph.build g direction) (σ index) (σ x) ↔
      Defines (Graph.build f direction) index x := by
  constructor
  · intro hx
    have hback := hx.relabel h.symm
    rwa [Equiv.symm_apply_apply, Equiv.symm_apply_apply] at hback
  · intro hx
    exact hx.relabel h

end Reaching

/-! ## Liveness -/

namespace Liveness

theorem Kills.relabel (h : Function.Renumbers σ f g) {index x : Nat}
    (hx : Kills (Graph.build f direction) index x) :
    Kills (Graph.build g direction) (σ index) (σ x) := by
  cases hx with
  | result hinst hcategory =>
    rw [← h.instruction?] at hinst
    exact .result hinst hcategory
  | phi hsite hphi hother hblock hphi' =>
    rw [← h.site?] at hsite hother
    exact .phi hsite hphi hother hblock hphi'

theorem kills_relabel (h : Function.Renumbers σ f g) {index x : Nat} :
    Kills (Graph.build g direction) (σ index) (σ x) ↔ Kills (Graph.build f direction) index x := by
  constructor
  · intro hx
    have hback := hx.relabel h.symm
    rwa [Equiv.symm_apply_apply, Equiv.symm_apply_apply] at hback
  · intro hx
    exact hx.relabel h

theorem Uses.relabel (h : Function.Renumbers σ f g) {index x : Nat} {dst : Node}
    (hx : Uses (Graph.build f direction) index dst x) :
    Uses (Graph.build g direction) (σ index) (Node.relabel σ dst) (σ x) := by
  cases hx with
  | operand hinst hphi hoperand hx =>
    rw [← h.instruction?] at hinst
    exact .operand hinst hphi hoperand (h.operandIndex? hx)
  | taken hsite hphi horigin hterminator hother hblock hphi' hvalue hx =>
    rw [← h.site?] at hsite horigin hother
    exact .taken hsite hphi horigin hterminator hother hblock hphi' hvalue (h.operandIndex? hx)

theorem uses_relabel (h : Function.Renumbers σ f g) {index x : Nat} {dst : Node} :
    Uses (Graph.build g direction) (σ index) (Node.relabel σ dst) (σ x) ↔
      Uses (Graph.build f direction) index dst x := by
  constructor
  · intro hx
    have hback := hx.relabel h.symm
    have hdst : Node.relabel σ.symm (Node.relabel σ dst) = dst :=
      (Node.relabel σ).symm_apply_apply dst
    rwa [Equiv.symm_apply_apply, Equiv.symm_apply_apply, hdst] at hback
  · intro hx
    exact hx.relabel h

end Liveness

/-! ## Flows that generate and kill -/

/-- A node that an instruction feeds has its place among those that the instruction feeds in the
other graph. -/
theorem Function.Renumbers.exists_position (h : Function.Renumbers σ f g) {index position : Nat}
    {dst : Node} (hdst : ((Graph.build f direction).outgoing index)[position]? = some dst) :
    ∃ position' : Nat, ((Graph.build g direction).outgoing (σ index))[position']? =
      some (Node.relabel σ dst) := by
  have hlink := h.link (Graph.mem_outgoing.1 (List.mem_of_getElem? hdst))
  exact List.mem_iff_getElem?.1 (Graph.mem_outgoing.2 hlink)

/-- A flow that generates and kills respects the renumbering, if what it generates and kills
does. -/
theorem Flow.GenKillOn.respects {flow : Flow IndexSet} {killed : Visit → List Nat}
    {generated : Visit → Nat → List Nat} (h : Function.Renumbers σ f g)
    (hf : flow.GenKillOn (Graph.build f direction) killed generated)
    (hg : flow.GenKillOn (Graph.build g direction) killed generated)
    (hinitial : flow.initial = .empty)
    (hkilled : ∀ {index inst}, (Graph.build f direction).instruction? index = some inst →
      ∀ x, σ x ∈ killed ⟨Graph.build g direction, σ index, inst⟩ ↔
        x ∈ killed ⟨Graph.build f direction, index, inst⟩)
    (hgenerated : ∀ {index inst}, (Graph.build f direction).instruction? index = some inst →
      ∀ {position position' dst}, ((Graph.build f direction).outgoing index)[position]? = some dst →
        ((Graph.build g direction).outgoing (σ index))[position']? = some (Node.relabel σ dst) →
          ∀ x, σ x ∈ generated ⟨Graph.build g direction, σ index, inst⟩ position' ↔
            x ∈ generated ⟨Graph.build f direction, index, inst⟩ position) :
    flow.Respects σ (SortedSet.relabel σ) (Graph.build f direction) (Graph.build g direction) where
  names := SortedSet.preserves_relabel σ
  links := h.mem_links
  initial := by
    rw [hinitial]
    rfl
  sends := by
    rintro index dst fact out ⟨inst, position, hinst, hdst, hout⟩
    have hinst' := (h.instruction? index).trans hinst
    obtain ⟨position', hdst'⟩ := h.exists_position hdst
    have hlt := (List.getElem?_eq_some_iff.1 hdst).1
    have hlt' := (List.getElem?_eq_some_iff.1 hdst').1
    obtain ⟨out', hout', hmem⟩ := hg.transfer hinst' hlt' (SortedSet.relabel σ fact)
    -- both facts are told by their members, one by one
    have heq : out' = SortedSet.relabel σ out := by
      refine SortedSet.relabel_eq fun x => ?_
      rw [hmem, hf.mem_iff hinst hlt hout, SortedSet.apply_mem_relabel, hkilled hinst,
        hgenerated hinst hdst hdst']
    exact ⟨inst, position', hinst', hdst', hout'.trans (congrArg some heq)⟩

theorem Reaching.respects (h : Function.Renumbers σ f g) (direction : Direction) :
    flow.Respects σ (SortedSet.relabel σ) (Graph.build f direction) (Graph.build g direction) := by
  refine (genKillOn f direction).respects h (genKillOn g direction) rfl (fun _ x => ?_) ?_
  · simp
  · intro index inst hinst position position' dst _ _ x
    have hinst' := (h.instruction? index).trans hinst
    rw [mem_definitions hinst, mem_definitions hinst', defines_relabel h]

theorem Liveness.respects (h : Function.Renumbers σ f g) (direction : Direction) :
    flow.Respects σ (SortedSet.relabel σ) (Graph.build f direction) (Graph.build g direction) := by
  refine (genKillOn f direction).respects h (genKillOn g direction) rfl ?_ ?_
  · intro index inst hinst x
    have hinst' := (h.instruction? index).trans hinst
    rw [mem_killed hinst, mem_killed hinst', kills_relabel h]
  · intro index inst hinst position position' dst hdst hdst' x
    have hinst' := (h.instruction? index).trans hinst
    rw [mem_generated hinst hdst, mem_generated hinst' hdst', uses_relabel h]

/-! ## May-point-to -/

namespace MayPointTo

variable {index : Nat} {inst : Instruction} {fact : PointsTo} {c x : Cell}

theorem operandPointees_relabel (h : Function.Renumbers σ f g) {position : Nat}
    (hx : x ∈ operandPointees ⟨Graph.build f direction, index, inst⟩ fact position) :
    Cell.relabel σ x ∈ operandPointees ⟨Graph.build g direction, σ index, inst⟩
      (PointsTo.relabel σ fact) position := by
  rw [mem_operandPointees] at hx ⊢
  obtain ⟨k, hk, hx⟩ := hx
  obtain ⟨operand, hoperand, hk⟩ := Option.bind_eq_some_iff.1 hk
  have hk' : (⟨Graph.build g direction, σ index, inst⟩ : Visit).operandIndexAt? position =
      some (σ k) :=
    Option.bind_eq_some_iff.2 ⟨operand, hoperand, h.operandIndex? hk⟩
  exact ⟨σ k, hk', PointsTo.mem_targets_relabel.2 hx⟩

theorem mergedPointees_relabel (h : Function.Renumbers σ f g)
    (hx : x ∈ mergedPointees ⟨Graph.build f direction, index, inst⟩ fact) :
    Cell.relabel σ x ∈ mergedPointees ⟨Graph.build g direction, σ index, inst⟩
      (PointsTo.relabel σ fact) := by
  have hphis : mergedPhis ⟨Graph.build g direction, σ index, inst⟩ =
      mergedPhis ⟨Graph.build f direction, index, inst⟩ := by
    simp only [mergedPhis, h.blockOf?]
  rw [mem_mergedPointees] at hx ⊢
  obtain ⟨phi, hphi, pair, hpair, k, hk, hx⟩ := hx
  rw [← hphis] at hphi
  exact ⟨phi, hphi, pair, hpair, σ k, h.operandIndex? hk, PointsTo.mem_targets_relabel.2 hx⟩

theorem resultPointees_relabel (h : Function.Renumbers σ f g)
    (hx : x ∈ resultPointees ⟨Graph.build f direction, index, inst⟩ fact) :
    Cell.relabel σ x ∈ resultPointees ⟨Graph.build g direction, σ index, inst⟩
      (PointsTo.relabel σ fact) := by
  rw [resultPointees] at hx ⊢
  cases hcategory : PointerCategory.classify inst.opcode with
  | allocation =>
    simp only [hcategory, List.mem_singleton] at hx ⊢
    rw [hx, Cell.relabel_memory]
  | cast =>
    simp only [hcategory] at hx ⊢
    exact operandPointees_relabel h hx
  | addressComputation =>
    simp only [hcategory] at hx ⊢
    exact operandPointees_relabel h hx
  | load =>
    simp only [hcategory] at hx ⊢
    obtain ⟨target, htarget, hx⟩ := List.mem_flatMap.1 hx
    exact List.mem_flatMap.2 ⟨_, operandPointees_relabel h htarget,
      PointsTo.mem_targets_relabel.2 hx⟩
  | select =>
    simp only [hcategory, List.mem_append] at hx ⊢
    exact hx.imp (operandPointees_relabel h) (operandPointees_relabel h)
  | mergePoint =>
    simp only [hcategory] at hx ⊢
    exact mergedPointees_relabel h hx
  | store => simp [hcategory] at hx
  | opaqueOp => simp [hcategory] at hx

theorem Adds.relabel (h : Function.Renumbers σ f g)
    (hx : Adds ⟨Graph.build f direction, index, inst⟩ fact c x) :
    Adds ⟨Graph.build g direction, σ index, inst⟩ (PointsTo.relabel σ fact) (Cell.relabel σ c)
      (Cell.relabel σ x) := by
  rcases hx with ⟨hstore, hc, hx⟩ | ⟨hstore, hpointer, hc, hx⟩
  · exact Or.inl ⟨hstore, operandPointees_relabel h hc, operandPointees_relabel h hx⟩
  · refine Or.inr ⟨hstore, hpointer, ?_, resultPointees_relabel h hx⟩
    rw [hc, Cell.relabel_register]

theorem adds_relabel (h : Function.Renumbers σ f g) :
    Adds ⟨Graph.build g direction, σ index, inst⟩ (PointsTo.relabel σ fact) (Cell.relabel σ c)
      (Cell.relabel σ x) ↔
      Adds ⟨Graph.build f direction, index, inst⟩ fact c x := by
  constructor
  · intro hx
    have hback := hx.relabel h.symm
    have hcell : ∀ c, Cell.relabel σ.symm (Cell.relabel σ c) = c :=
      (Cell.relabel σ).symm_apply_apply
    have hfact : PointsTo.relabel σ.symm (PointsTo.relabel σ fact) = fact :=
      (PointsTo.relabel σ).symm_apply_apply fact
    rwa [Equiv.symm_apply_apply, hfact, hcell, hcell] at hback
  · intro hx
    exact hx.relabel h

/-- The fact after an instruction, with other numbers. -/
theorem after_relabel (h : Function.Renumbers σ f g) :
    after ⟨Graph.build g direction, σ index, inst⟩ (PointsTo.relabel σ fact) =
      PointsTo.relabel σ (after ⟨Graph.build f direction, index, inst⟩ fact) := by
  refine PointsTo.ext_relabel σ (fun c => ?_) fun c x => ?_
  · rw [tracks_after, PointsTo.tracks_relabel, PointsTo.tracks_relabel, tracks_after]
    refine or_congr Iff.rfl ?_
    constructor
    · rintro ⟨x, hx⟩
      obtain ⟨x, rfl⟩ := (Cell.relabel σ).surjective x
      exact ⟨x, (adds_relabel h).1 hx⟩
    · rintro ⟨x, hx⟩
      exact ⟨_, (adds_relabel h).2 hx⟩
  · rw [mem_targets_after, PointsTo.mem_targets_relabel, PointsTo.mem_targets_relabel,
      mem_targets_after, adds_relabel h]

theorem respects (h : Function.Renumbers σ f g) (direction : Direction) :
    flow.Respects σ (PointsTo.relabel σ) (Graph.build f direction) (Graph.build g direction) where
  names := PointsTo.preserves_relabel σ
  links := h.mem_links
  initial := rfl
  sends := by
    rintro index dst fact out ⟨inst, position, hinst, hdst, hout⟩
    have hinst' := (h.instruction? index).trans hinst
    obtain ⟨position', hdst'⟩ := h.exists_position hdst
    rw [factFor?_transfer] at hout
    refine ⟨inst, position', hinst', hdst', factFor?_transfer.2 ?_⟩
    rw [after_relabel h, hout]

end MayPointTo

/-! ## What is solved -/

/-- The second engine has the edges and facts of the first one, with other numbers. -/
structure Engine.Carries {F : Type} [JoinLattice F] (σ : Equiv.Perm Nat) (π : Equiv.Perm F)
    (e e' : Engine F) :
    Prop where
  edges : ∀ edge, Edge.relabel σ edge ∈ e'.graph.edges ↔ edge ∈ e.graph.edges
  /-- The facts on edges. -/
  facts : ∀ edge, e'.store.get (Edge.relabel σ edge) = π (e.store.get edge)
  /-- The facts at instructions. -/
  canonical : ∀ index, e'.factAt (σ index) = π (e.factAt index)

theorem Flow.Bounded.carries {F : Type} [JoinLattice F] [DecidableEq F] [LawfulJoinLattice F]
    {flow : Flow F} (hflow : flow.Bounded) {π : Equiv.Perm F}
    (h : flow.Respects σ π (Graph.build f flow.direction) (Graph.build g flow.direction))
    (hsymm : flow.Respects σ.symm π.symm (Graph.build g flow.direction)
      (Graph.build f flow.direction)) :
    Engine.Carries σ π (Engine.start flow f).solve (Engine.start flow g).solve := by
  have hfacts := h.get_eq hsymm (hflow.leastSolution_solve f) (hflow.leastSolution_solve g)
  refine ⟨fun edge => ?_, hfacts, fun index => ?_⟩
  · exact Graph.mem_edges.trans ((h.links edge).trans Graph.mem_edges.symm)
  · refine h.names.joinAll_relabel (h.mem_outgoing index) fun n _ => ?_
    exact hfacts ⟨.inst index, n⟩

/-- **The order of blocks does not matter.**  Take a function that was built, and one with the same
blocks in another order.  Each index has its counterpart: the index of the instruction with the same
number.  Replaced by their counterparts, the edges and facts of one function are those of the other,
for all three analyses. -/
theorem solve_blockOrder {name : String} {ret : Ty} {edits : List Edit}
    (hf : ((Draft.start name ret).applyAll edits).finish = .ok f) (hg : f.Reorders g) :
    ∃ σ : Equiv.Perm Nat,
      (∀ index inst, (Graph.build f .forward).instruction? index = some inst →
        (Graph.build g .forward).instruction? (σ index) = some inst ∧
          (Graph.build g .forward).indexOf? inst.id = some (σ index)) ∧
      (∀ index, (Graph.build f .forward).size ≤ index → σ index = index) ∧
      Engine.Carries σ (SortedSet.relabel σ) (Engine.start Reaching.flow f).solve
        (Engine.start Reaching.flow g).solve ∧
      Engine.Carries σ (SortedSet.relabel σ) (Engine.start Liveness.flow f).solve
        (Engine.start Liveness.flow g).solve ∧
      Engine.Carries σ (PointsTo.relabel σ) (Engine.start MayPointTo.flow f).solve
        (Engine.start MayPointTo.flow g).solve := by
  -- a draft gives every number once, which is what makes a counterpart unique
  have hnumbered : f.Numbered := by
    obtain ⟨-, -, -, rfl⟩ := History.finish_applyAll.1 hf
    exact History.nodup_ids name ret edits
  have h := hg.renumbers hnumbered
  refine ⟨hg.renumbering hnumbered, fun index inst hinst => ?_,
    fun index hle => Function.counterpart_of_le hle, ?_, ?_, ?_⟩
  · have hinst' := (h.instruction? index).trans hinst
    obtain ⟨site, hsite, rfl⟩ := Graph.exists_site_of_instruction hinst'
    exact ⟨hinst', ((hg.numbered hnumbered).indexOf? .forward).2 ⟨site, hsite, rfl⟩⟩
  · exact Reaching.bounded.carries (Reaching.respects h _) (Reaching.respects h.symm _)
  · exact Liveness.bounded.carries (Liveness.respects h _) (Liveness.respects h.symm _)
  · exact MayPointTo.bounded.carries (MayPointTo.respects h _) (MayPointTo.respects h.symm _)

/-- The same function with its first block listed last. -/
def Function.firstLast (f : Function) : Function :=
  { f with
    blocks :=
      { entries := f.blocks.entries.rotate 1
        nodup := (((List.rotate_perm _ 1).map Prod.fst).nodup_iff).2 f.blocks.nodup } }

/-- Steps that move a pointer through an object in a loop. -/
def pointerScan : List Edit := [
  .param "n" .word, .block "entry", .block "loop", .block "done", .alloca .byte, .br ⟨1⟩,
  .switchTo ⟨1⟩, .phi (.ptr .byte) [(.inst ⟨0⟩, ⟨0⟩)], .gep (.ptr .byte) (.inst ⟨2⟩) [.const 1],
  .addIncoming ⟨2⟩ (.inst ⟨3⟩) ⟨1⟩, .condBr (.arg 0) ⟨2⟩ ⟨1⟩, .switchTo ⟨2⟩,
  .load .byte (.inst ⟨3⟩), .ret none]

/-- The function that the steps build. -/
def Function.scan : Function :=
  History.function "f" .void pointerScan

/-- With the entry listed last, the object of the scan has another number, and so has everything
that points to it. -/
theorem solve_blockOrder_pointerScan :
    ((Draft.start "f" .void).applyAll pointerScan).finish = .ok .scan ∧
      Function.scan.Reorders Function.scan.firstLast ∧
      ∃ σ : Equiv.Perm Nat, σ 0 = 5 ∧ σ 2 = 0 ∧
        Engine.Carries σ (PointsTo.relabel σ) (Engine.start MayPointTo.flow .scan).solve
          (Engine.start MayPointTo.flow Function.scan.firstLast).solve ∧
        ((Engine.start MayPointTo.flow .scan).solve.store.get ⟨.inst 4, .inst 2⟩).map.keys =
          [.register 0, .register 2, .register 3] ∧
        ((Engine.start MayPointTo.flow Function.scan.firstLast).solve.store.get
          ⟨.inst 2, .inst 0⟩).map.keys =
          [.register 0, .register 1, .register 5] := by
  have hfinish : ((Draft.start "f" .void).applyAll pointerScan).finish = .ok .scan := by
    decide +kernel
  have hreorders : Function.scan.Reorders Function.scan.firstLast :=
    ⟨List.rotate_perm _ 1, rfl, rfl⟩
  obtain ⟨σ, hσ, -, -, -, hcarries⟩ := solve_blockOrder hfinish hreorders
  have hplace : ∀ {index place},
      (∃ inst, (Graph.build .scan .forward).instruction? index = some inst ∧ inst.id = ⟨index⟩) →
      (Graph.build Function.scan.firstLast .forward).indexOf? ⟨index⟩ = some place →
        σ index = place := by
    rintro index place ⟨inst, hinst, hid⟩ hplace
    rw [← hid, (hσ index inst hinst).2] at hplace
    exact Option.some.inj hplace
  have halloca : σ 0 = 5 := hplace (by decide +kernel) (by decide +kernel)
  have hphi : σ 2 = 0 := hplace (by decide +kernel) (by decide +kernel)
  exact ⟨hfinish, hreorders, σ, halloca, hphi, hcarries, by decide +kernel, by decide +kernel⟩

end Dataflow
