import Mathlib.Data.Fintype.EquivFin
import Dataflow.Proofs.Convergence

/-!
# May-point-to is sound

A machine that keeps only what matters for pointers walks the instructions of a function.  A
register holds an object or none, and so does an object.  Where a phi or a selection has a choice
the machine may take any.

* `Object`, `Machine`: objects, and registers and memory.
* `Machine.Executes`: what an instruction does to the machine; `Machine.exists_executes`: it is
  never stuck.
* `Machine.Walk`: the machines with which a walk from the entry can cross an edge.
* `Machine.Covered`: a fact allows every pointer of a machine.
* `Machine.Executes.covered`: an instruction keeps this, if the fact goes through the flow.
* `Machine.walk_pointsTo`: the facts of the solver allow every pointer of every walk.
-/

namespace Dataflow

open JoinLattice

/-- A reserved object: the instruction that reserved it, and a number that tells its objects
apart. -/
structure Object where
  site : Nat
  serial : Nat
deriving DecidableEq

/-- Registers and memory, as far as they hold objects, and the objects reserved so far. -/
structure Machine where
  reg : Nat → Option Object
  mem : Object → Option Object
  reserved : List Object

namespace Machine

/-! ## Execution -/

/-- Nothing is reserved, and nothing is held. -/
def initial : Machine where
  reg _ := none
  mem _ := none
  reserved := []

/-- Puts an object, or none, into the register of an instruction. -/
def setReg (m : Machine) (index : Nat) (value : Option Object) : Machine :=
  { m with reg := fun j => if j = index then value else m.reg j }

/-- Puts an object, or none, into an object; nothing happens without an object to put it into. -/
def write (m : Machine) : Option Object → Option Object → Machine
  | some target, value => { m with mem := fun o => if o = target then value else m.mem o }
  | none, _ => m

/-- What the operand at a position holds. -/
def operand (m : Machine) (v : Visit) (position : Nat) : Option Object :=
  (v.operandIndexAt? position).bind m.reg

/-- Opcodes that give a pointer to their register, if their result is one. -/
def givesPointer (opcode : Opcode) : Bool :=
  opcode ∈ [.alloca, .bitcast, .getelementptr, .load, .select, .phi]

/-- What an instruction does to the machine. -/
inductive Executes (v : Visit) (m : Machine) : Machine → Prop where
  /-- A reservation gives a new object. -/
  | reserve (o : Object) (hopcode : v.inst.opcode = .alloca) (hpointer : v.inst.ty.isPointer = true)
      (hsite : o.site = v.index) (hnew : o ∉ m.reserved) :
      Executes v m { m.setReg v.index (some o) with reserved := o :: m.reserved }
  /-- A cast or an address computation passes on what its first operand holds. -/
  | pass (hopcode : v.inst.opcode = .bitcast ∨ v.inst.opcode = .getelementptr)
      (hpointer : v.inst.ty.isPointer = true) : Executes v m (m.setReg v.index (m.operand v 0))
  /-- A load gives what the object in its operand holds. -/
  | load (hopcode : v.inst.opcode = .load) (hpointer : v.inst.ty.isPointer = true) :
      Executes v m (m.setReg v.index ((m.operand v 0).bind m.mem))
  /-- A store writes its first operand to the object in its second one. -/
  | store (hopcode : v.inst.opcode = .store) :
      Executes v m (m.write (m.operand v 1) (m.operand v 0))
  /-- A selection gives one of its two values. -/
  | select (position : Nat) (hopcode : v.inst.opcode = .select)
      (hpointer : v.inst.ty.isPointer = true) (hposition : position = 1 ∨ position = 2) :
      Executes v m (m.setReg v.index (m.operand v position))
  /-- A phi gives one of its own values. -/
  | phi (pair : Operand × BlockId) (hopcode : v.inst.opcode = .phi)
      (hpointer : v.inst.ty.isPointer = true) (hpair : pair ∈ v.inst.incoming) :
      Executes v m (m.setReg v.index ((v.graph.operandIndex? pair.1).bind m.reg))
  /-- A phi without values gives no object. -/
  | phiNone (hopcode : v.inst.opcode = .phi) (hpointer : v.inst.ty.isPointer = true)
      (hnone : v.inst.incoming = []) : Executes v m (m.setReg v.index none)
  /-- Any other instruction changes nothing. -/
  | other (hstore : v.inst.opcode ≠ .store)
      (hother : v.inst.ty.isPointer = false ∨ givesPointer v.inst.opcode = false) : Executes v m m

/-- A walk from the entry can cross an edge with a machine. -/
inductive Walk (g : Graph) : Edge → Machine → Prop where
  | enter {index : Nat} (h : index ∈ g.boundary) : Walk g ⟨.entry, .inst index⟩ initial
  | step {src dst : Node} {index : Nat} {inst : Instruction} {m m' : Machine}
      (h : Walk g ⟨src, .inst index⟩ m) (hinst : g.instruction? index = some inst)
      (hexecutes : Executes ⟨g, index, inst⟩ m m') (hdst : dst ∈ g.outgoing index) :
      Walk g ⟨.inst index, dst⟩ m'

/-- The machine is never stuck at an instruction. -/
theorem exists_executes (v : Visit) (m : Machine) : ∃ m', Executes v m m' := by
  by_cases hstore : v.inst.opcode = .store
  · exact ⟨_, .store hstore⟩
  · by_cases hother : v.inst.ty.isPointer = false ∨ givesPointer v.inst.opcode = false
    · exact ⟨m, .other hstore hother⟩
    · simp only [not_or, Bool.not_eq_false, givesPointer, decide_eq_true_eq, List.mem_cons,
        List.not_mem_nil, or_false] at hother
      obtain ⟨hpointer, hopcode⟩ := hother
      rcases hopcode with hopcode | hopcode | hopcode | hopcode | hopcode | hopcode
      · -- only finitely many numbers are taken
        obtain ⟨serial, hserial⟩ :=
          Infinite.exists_notMem_finset (m.reserved.map Object.serial).toFinset
        refine ⟨_, .reserve ⟨v.index, serial⟩ hopcode hpointer rfl fun hmem => hserial ?_⟩
        exact List.mem_toFinset.2 (List.mem_map.2 ⟨_, hmem, rfl⟩)
      · exact ⟨_, .pass (Or.inl hopcode) hpointer⟩
      · exact ⟨_, .pass (Or.inr hopcode) hpointer⟩
      · exact ⟨_, .load hopcode hpointer⟩
      · exact ⟨_, .select 1 hopcode hpointer (Or.inl rfl)⟩
      · by_cases hnone : v.inst.incoming = []
        · exact ⟨_, .phiNone hopcode hpointer hnone⟩
        · obtain ⟨pair, hpair⟩ := List.exists_mem_of_ne_nil _ hnone
          exact ⟨_, .phi pair hopcode hpointer hpair⟩

/-- Walks go along the links of the graph. -/
theorem Walk.link {g : Graph} {edge : Edge} {m : Machine} (h : Walk g edge m) : edge ∈ g.links := by
  cases h with
  | enter h => exact Graph.mem_boundary.1 h
  | step _ _ _ hdst => exact Graph.mem_outgoing.1 hdst

/-! ## Facts that allow a machine -/

/-- A fact allows every pointer of a machine. -/
structure Covered (fact : PointsTo) (m : Machine) : Prop where
  reg : ∀ j o, m.reg j = some o → .memory o.site ∈ fact.targets (.register j)
  mem : ∀ a o, m.mem a = some o → .memory o.site ∈ fact.targets (.memory a.site)

namespace Covered

variable {fact : PointsTo} {m : Machine}

theorem mono (h : Covered fact m) {fact' : PointsTo}
    (hsub : ∀ c x, x ∈ fact.targets c → x ∈ fact'.targets c) :
    Covered fact' m where
  reg j o ho := hsub _ _ (h.reg j o ho)
  mem a o ho := hsub _ _ (h.mem a o ho)

/-- What an operand holds is among the targets that the analysis reads for it. -/
theorem operand (h : Covered fact m) {v : Visit} {position : Nat} {o : Object}
    (ho : m.operand v position = some o) :
    .memory o.site ∈ MayPointTo.operandPointees v fact position := by
  obtain ⟨index, hindex, hreg⟩ := Option.bind_eq_some_iff.1 ho
  exact MayPointTo.mem_operandPointees.2 ⟨index, hindex, h.reg index o hreg⟩

/-- An instruction that gives its register what the analysis expects. -/
theorem setReg (h : Covered fact m) {v : Visit} (hstore : v.inst.opcode ≠ .store)
    (hpointer : v.inst.ty.isPointer = true) {value : Option Object}
    (hvalue : ∀ o, value = some o → .memory o.site ∈ MayPointTo.resultPointees v fact) :
    Covered (MayPointTo.after v fact) (m.setReg v.index value) where
  reg j o ho := by
    rw [MayPointTo.mem_targets_after]
    simp only [Machine.setReg] at ho
    split at ho
    · rename_i hj
      exact Or.inr (Or.inr ⟨hstore, hpointer, by rw [hj], hvalue o ho⟩)
    · exact Or.inl (h.reg j o ho)
  mem a o ho := MayPointTo.mem_targets_after.2 (Or.inl (h.mem a o ho))

/-- An instruction that writes what the analysis expects to an object that it expects. -/
theorem write (h : Covered fact m) {v : Visit} (hstore : v.inst.opcode = .store) :
    Covered (MayPointTo.after v fact) (m.write (m.operand v 1) (m.operand v 0)) := by
  have hkept := h.mono fun c x hx => MayPointTo.mem_targets_after (v := v).2 (Or.inl hx)
  cases htarget : m.operand v 1 with
  | none => exact hkept
  | some target =>
    refine ⟨hkept.reg, fun a o ho => ?_⟩
    simp only [Machine.write] at ho
    split at ho
    · rename_i ha
      rw [MayPointTo.mem_targets_after, ha]
      exact Or.inr (Or.inl ⟨hstore, h.operand htarget, h.operand ho⟩)
    · exact hkept.mem a o ho

end Covered

/-- **An instruction keeps a machine covered**, if the fact goes through the flow.  A phi has to be
one of those that the analysis finds in its block. -/
theorem Executes.covered {v : Visit} {m m' : Machine} (hexecutes : Executes v m m')
    (hphi : v.inst.opcode = .phi → v.inst ∈ MayPointTo.mergedPhis v) {fact : PointsTo}
    (h : Covered fact m) :
    Covered (MayPointTo.after v fact) m' := by
  -- one case for each rule of the machine: what the instruction yields is among what its category
  -- lets the fact gain
  cases hexecutes with
  | reserve o hopcode hpointer hsite hnew =>
    have hset : Covered (MayPointTo.after v fact) (m.setReg v.index (some o)) := by
      refine h.setReg (by simp [hopcode]) hpointer fun o' ho' => ?_
      cases ho'
      simp [MayPointTo.resultPointees, hopcode, PointerCategory.classify, hsite]
    -- that the object is reserved changes neither registers nor memory
    exact ⟨hset.reg, hset.mem⟩
  | pass hopcode hpointer =>
    refine h.setReg (by rcases hopcode with hopcode | hopcode <;> simp [hopcode]) hpointer
      fun o ho => ?_
    have hmem := h.operand ho
    rcases hopcode with hopcode | hopcode
    · simpa [MayPointTo.resultPointees, hopcode, PointerCategory.classify] using hmem
    · simpa [MayPointTo.resultPointees, hopcode, PointerCategory.classify] using hmem
  | load hopcode hpointer =>
    refine h.setReg (by simp [hopcode]) hpointer fun o ho => ?_
    obtain ⟨a, ha, hmem⟩ := Option.bind_eq_some_iff.1 ho
    simp only [MayPointTo.resultPointees, hopcode, PointerCategory.classify]
    exact List.mem_flatMap.2 ⟨_, h.operand ha, h.mem a o hmem⟩
  | store hopcode => exact h.write hopcode
  | select position hopcode hpointer hposition =>
    refine h.setReg (by simp [hopcode]) hpointer fun o ho => ?_
    simp only [MayPointTo.resultPointees, hopcode, PointerCategory.classify]
    rcases hposition with rfl | rfl
    · exact List.mem_append_left _ (h.operand ho)
    · exact List.mem_append_right _ (h.operand ho)
  | phi pair hopcode hpointer hpair =>
    refine h.setReg (by simp [hopcode]) hpointer fun o ho => ?_
    obtain ⟨index, hindex, hreg⟩ := Option.bind_eq_some_iff.1 ho
    simp only [MayPointTo.resultPointees, hopcode, PointerCategory.classify]
    exact MayPointTo.mem_mergedPointees.2
      ⟨v.inst, hphi hopcode, pair, hpair, index, hindex, h.reg index o hreg⟩
  | phiNone hopcode hpointer _ =>
    refine h.setReg (by simp [hopcode]) hpointer fun o ho => ?_
    cases ho
  | other _ _ => exact h.mono fun c x hx => MayPointTo.mem_targets_after.2 (Or.inl hx)

/-- In the graph of a function a phi is one of those of its block. -/
theorem mem_mergedPhis {f : Function} {direction : Direction} {index : Nat} {inst : Instruction}
    (hinst : (Graph.build f direction).instruction? index = some inst) (hphi : inst.opcode = .phi) :
    inst ∈ MayPointTo.mergedPhis ⟨Graph.build f direction, index, inst⟩ := by
  obtain ⟨site, hsite⟩ := Graph.exists_site (Graph.lt_size_of_instruction hinst)
  obtain ⟨block, hblock, hposition, -⟩ := Graph.exists_block hsite
  rw [Graph.instruction?_of_site hsite] at hinst
  cases hinst
  simp only [MayPointTo.mergedPhis, hblock, Block.phis]
  exact List.mem_filter.2 ⟨List.mem_of_getElem? hposition, by simp [Instruction.isPhi, hphi]⟩

/-! ## Walks -/

/-- Along every walk the machine is covered by any solution, on the edge that it crosses. -/
theorem Walk.covered {f : Function} {store : EdgeStore PointsTo}
    (hsolves : Solves MayPointTo.flow (Graph.build f .forward) store) {edge : Edge} {m : Machine}
    (h : Walk (Graph.build f .forward) edge m) : Covered (store.get edge) m := by
  induction h with
  | enter _ =>
    constructor
    · intro j o ho
      cases ho
    · intro a o ho
      cases ho
  | @step src dst index inst m m' hwalk hinst hexecutes hdst ih =>
    -- the fact on the edge that was crossed is part of what arrives
    have harrives : leq (store.get ⟨src, .inst index⟩)
        (arriving (Graph.build f .forward) store index) = true :=
      leq_joinAll (List.mem_map.2 ⟨src, Graph.mem_incoming.2 hwalk.link, rfl⟩)
    have hcovered := hexecutes.covered (fun hphi => mem_mergedPhis hinst hphi)
      (ih.mono (PointsTo.leq_iff_views.1 harrives).2)
    obtain ⟨position, hposition⟩ := List.mem_iff_getElem?.1 hdst
    rw [hsolves.inner index position dst _
      ⟨inst, hinst, hposition, MayPointTo.factFor?_transfer.2 rfl⟩]
    exact hcovered

/-- **May-point-to is sound.**  Whatever a register or an object holds where a walk crosses an edge,
the fact that the solver has found for that edge allows it. -/
theorem walk_pointsTo (f : Function) {edge : Edge} {m : Machine}
    (h : Walk (Graph.build f .forward) edge m) :
    (∀ j o, m.reg j = some o →
      ((Engine.start MayPointTo.flow f).solve.store.get edge).pointsTo (.register j)
        (.memory o.site) = true) ∧
    ∀ a o, m.mem a = some o →
      ((Engine.start MayPointTo.flow f).solve.store.get edge).pointsTo (.memory a.site)
        (.memory o.site) = true := by
  have hcovered := h.covered (MayPointTo.bounded.leastSolution_solve f).toSolves
  refine ⟨fun j o ho => ?_, fun a o ho => ?_⟩
  · exact PointsTo.pointsTo_iff.2 (hcovered.reg j o ho)
  · exact PointsTo.pointsTo_iff.2 (hcovered.mem a o ho)

/-- Twice around the loop: the phi takes the second object from memory, and the second object then
holds itself. -/
theorem walk_pointsTo_pointerLoop : ∃ m,
    Walk (Graph.build .pointerLoop .forward) ⟨.inst 4, .inst 5⟩ m ∧
    (m.reg 3 = some ⟨1, 0⟩ ∧ m.mem ⟨1, 0⟩ = some ⟨1, 0⟩) ∧
    ((Engine.start MayPointTo.flow .pointerLoop).solve.store.get ⟨.inst 4, .inst 5⟩).pointsTo
      (.register 3) (.memory 1) = true ∧
    ((Engine.start MayPointTo.flow .pointerLoop).solve.store.get ⟨.inst 4, .inst 5⟩).pointsTo
      (.memory 1) (.memory 1) = true := by
  have hentry : Walk (Graph.build .pointerLoop .forward) ⟨.entry, .inst 0⟩ initial :=
    .enter (by decide +kernel)
  have hp : Walk (Graph.build .pointerLoop .forward) ⟨.inst 0, .inst 1⟩ _ :=
    hentry.step rfl (.reserve ⟨0, 0⟩ rfl rfl rfl (by decide)) (by decide +kernel)
  have hq : Walk (Graph.build .pointerLoop .forward) ⟨.inst 1, .inst 2⟩ _ :=
    hp.step rfl (.reserve ⟨1, 0⟩ rfl rfl rfl (by decide)) (by decide +kernel)
  have hloop : Walk (Graph.build .pointerLoop .forward) ⟨.inst 2, .inst 3⟩ _ :=
    hq.step rfl (.other (by decide) (Or.inl rfl)) (by decide +kernel)
  have hphi : Walk (Graph.build .pointerLoop .forward) ⟨.inst 3, .inst 4⟩ _ :=
    hloop.step rfl (.phi (.inst ⟨0⟩, ⟨0⟩) rfl rfl (by decide)) (by decide +kernel)
  have hstore : Walk (Graph.build .pointerLoop .forward) ⟨.inst 4, .inst 5⟩ _ :=
    hphi.step rfl (.store rfl) (by decide +kernel)
  have hload : Walk (Graph.build .pointerLoop .forward) ⟨.inst 5, .inst 6⟩ _ :=
    hstore.step rfl (.load rfl rfl) (by decide +kernel)
  have hback : Walk (Graph.build .pointerLoop .forward) ⟨.inst 6, .inst 3⟩ _ :=
    hload.step rfl (.other (by decide) (Or.inl rfl)) (by decide +kernel)
  have hphi' : Walk (Graph.build .pointerLoop .forward) ⟨.inst 3, .inst 4⟩ _ :=
    hback.step rfl (.phi (.inst ⟨5⟩, ⟨1⟩) rfl rfl (by decide)) (by decide +kernel)
  have hstore' : Walk (Graph.build .pointerLoop .forward) ⟨.inst 4, .inst 5⟩ _ :=
    hphi'.step rfl (.store rfl) (by decide +kernel)
  refine ⟨_, hstore', ⟨by decide +kernel, by decide +kernel⟩, ?_, ?_⟩
  · exact (walk_pointsTo .pointerLoop hstore').1 3 ⟨1, 0⟩ (by decide +kernel)
  · exact (walk_pointsTo .pointerLoop hstore').2 ⟨1, 0⟩ ⟨1, 0⟩ (by decide +kernel)

end Machine

end Dataflow
