import Dataflow.Proofs.Numbering
import Dataflow.Proofs.Provenance

/-!
# Reaching definitions are paths

A definition reaches an instruction exactly if a path leads there from an instruction that makes it.
Where the path begins does not matter, so definitions in code that is never entered reach as far as
any others.

* `Reaching.Defines`: what an instruction defines; `mem_definitions`: the analysis finds just that.
* `Graph.Feeds`: one step of a path.
* `Reaching.carried_iff`: a definition is carried to an edge exactly if a path leads there.
* `Reaching.solve_definitions`: the facts of the solver, edge by edge and instruction by
  instruction.
-/

namespace Dataflow

/-- An instruction feeds another one. -/
def Graph.Feeds (g : Graph) (index next : Nat) : Prop :=
  .inst next ∈ g.outgoing index

theorem lt_length_takeWhile {α : Type} {p : α → Bool} {l : List α} {k : Nat} :
    k < (l.takeWhile p).length ↔ ∀ m ≤ k, ∃ a, l[m]? = some a ∧ p a = true := by
  induction l generalizing k with
  | nil =>
    simp only [List.takeWhile_nil, List.length_nil, Nat.not_lt_zero, List.getElem?_nil,
      reduceCtorEq, false_and, exists_false, imp_false, false_iff]
    exact fun h => h 0 (Nat.zero_le k)
  | cons a rest ih =>
    rw [List.takeWhile_cons]
    split
    · rename_i ha
      rw [List.length_cons]
      constructor
      · intro hk m hm
        cases m with
        | zero => exact ⟨a, rfl, ha⟩
        | succ m => exact ih.1 (show m < _ by omega) m (Nat.le_refl m)
      · intro h
        cases k with
        | zero => exact Nat.succ_pos _
        | succ k => exact Nat.succ_lt_succ (ih.2 fun m hm => h (m + 1) (Nat.succ_le_succ hm))
    · rename_i ha
      refine ⟨fun hk => absurd hk (Nat.not_lt_zero k), fun h => ?_⟩
      obtain ⟨_, hget, hp⟩ := h 0 (Nat.zero_le k)
      cases hget
      exact absurd hp ha

namespace Reaching

/-! ## Definitions -/

/-- From an index on, that many further instructions included, all are phis of one block. -/
def PhiRun (g : Graph) (block : BlockId) (index count : Nat) : Prop :=
  ∀ k ≤ count, ∃ other, g.site? (index + k) = some other ∧ other.block = block ∧
    other.inst.isPhi = true

/-- An instruction defines the result with an index. -/
inductive Defines (g : Graph) (index : Nat) : Nat → Prop where
  /-- An instruction that produces a value defines its own result. -/
  | result {inst : Instruction} (hinst : g.instruction? index = some inst)
      (hcategory : DefCategory.classify inst.opcode = .valueProducing) : Defines g index index
  /-- A phi defines its own result, and those of the phis that follow it in its block without a
  gap. -/
  | group {site : Site} {count : Nat} (hsite : g.site? index = some site)
      (hphis : PhiRun g site.block index count) : Defines g index (index + count)

theorem isPhi_iff {inst : Instruction} :
    inst.isPhi = true ↔ DefCategory.classify inst.opcode = .mergePoint := by
  rw [Instruction.isPhi, decide_eq_true_eq]
  cases inst.opcode <;> simp [DefCategory.classify]

variable {f : Function} {direction : Direction} {index x : Nat}

/-- A run of phis begins with a phi. -/
theorem PhiRun.classify {g : Graph} {site : Site} (hsite : g.site? index = some site) {count : Nat}
    (h : PhiRun g site.block index count) :
    DefCategory.classify site.inst.opcode = .mergePoint := by
  obtain ⟨other, hother, -, hphi⟩ := h 0 (Nat.zero_le count)
  rw [Nat.add_zero, hsite] at hother
  cases hother
  exact isPhi_iff.1 hphi

/-- The phis that follow one another in a block, counted and as places. -/
theorem lt_phis_iff {key : BlockId} {b : Block} {position : Nat} (hposition : position ≤ index)
    (hstarts : f.Starts key b (index - position)) {count : Nat} :
    count < ((b.instructions.drop position).takeWhile Instruction.isPhi).length ↔
      PhiRun (Graph.build f direction) key index count := by
  rw [lt_length_takeWhile]
  refine forall_congr' fun k => imp_congr_right fun _ => ?_
  have hplace : index + k - (index - position) = position + k := by omega
  rw [List.getElem?_drop]
  constructor
  · rintro ⟨inst, hinst, hphi⟩
    obtain ⟨other, hother, hblock, rfl⟩ :=
      hstarts.site_iff.2 ⟨show index - position ≤ index + k by omega, hplace ▸ hinst⟩
    exact ⟨other, hother, hblock, hphi⟩
  · rintro ⟨other, hother, hblock, hphi⟩
    obtain ⟨-, hinst⟩ := hstarts.site_iff.1 ⟨other, hother, hblock, rfl⟩
    exact ⟨other.inst, hplace ▸ hinst, hphi⟩

/-- A phi is grouped with as many phis as follow it in its block without a gap. -/
theorem lt_groupSize_iff {site : Site} (hsite : (Graph.build f direction).site? index = some site)
    (hphi : site.inst.isPhi = true) {count : Nat} :
    count < groupSize ⟨Graph.build f direction, index, site.inst⟩ ↔
      PhiRun (Graph.build f direction) site.block index count := by
  obtain ⟨b, hblock, hstarts, -, hposition⟩ := Graph.exists_starts hsite
  have hself : PhiRun (Graph.build f direction) site.block index 0 := by
    intro k hk
    cases Nat.le_zero.1 hk
    exact ⟨site, hsite, rfl, hphi⟩
  have hpos := (lt_phis_iff hposition hstarts).2 hself
  rw [← lt_phis_iff hposition hstarts]
  simp only [groupSize, hblock, hsite]
  omega

/-- What defines anything produces a value, or begins a run of phis. -/
theorem defines_iff {g : Graph} {site : Site} (hsite : g.site? index = some site) :
    Defines g index x ↔ (DefCategory.classify site.inst.opcode = .valueProducing ∧ x = index) ∨
      (DefCategory.classify site.inst.opcode = .mergePoint ∧
        ∃ count, PhiRun g site.block index count ∧ x = index + count) := by
  have hinst := Graph.instruction?_of_site hsite
  constructor
  · intro h
    cases h with
    | result hinst' hcategory =>
      rw [hinst] at hinst'
      cases hinst'
      exact Or.inl ⟨hcategory, rfl⟩
    | group hsite' hphis =>
      rw [hsite] at hsite'
      cases hsite'
      exact Or.inr ⟨hphis.classify hsite, _, hphis, rfl⟩
  · rintro (⟨hcategory, rfl⟩ | ⟨-, count, hphis, rfl⟩)
    · exact .result hinst hcategory
    · exact .group hsite hphis

/-- **The analysis finds what an instruction defines.** -/
theorem mem_definitions {inst : Instruction}
    (hinst : (Graph.build f direction).instruction? index = some inst) :
    x ∈ definitions ⟨Graph.build f direction, index, inst⟩ ↔
      Defines (Graph.build f direction) index x := by
  obtain ⟨site, hsite, rfl⟩ := Graph.exists_site_of_instruction hinst
  rw [defines_iff hsite]
  simp only [definitions]
  cases hcategory : DefCategory.classify site.inst.opcode with
  | valueProducing => simp
  | mergePoint => simp [lt_groupSize_iff hsite (isPhi_iff.2 hcategory), eq_comm]
  | controlOrStore => simp
  | unclassified => simp

/-! ## Paths -/

/-- A definition is carried to an edge exactly if a path leads from an instruction that makes it to
the edge's source. -/
theorem carried_iff {dst : Node} :
    Carried (Graph.build f direction) (fun _ => []) (fun v _ => definitions v) x index dst ↔
      dst ∈ (Graph.build f direction).outgoing index ∧
        ∃ source, Defines (Graph.build f direction) source x ∧
        Relation.ReflTransGen (Graph.build f direction).Feeds source index := by
  constructor
  · intro h
    -- nothing is killed, so a path only has to be there
    refine ⟨h.mem_outgoing, ?_⟩
    induction h with
    | generate hinst _ hx => exact ⟨_, (mem_definitions hinst).1 hx, .refl⟩
    | pass h _ _ _ ih =>
      obtain ⟨source, hdefines, hpath⟩ := ih
      exact ⟨source, hdefines, hpath.tail h.mem_outgoing⟩
  · rintro ⟨hdst, source, hdefines, hpath⟩
    induction hpath generalizing dst with
    | refl =>
      obtain ⟨inst, hinst⟩ := Graph.exists_instruction hdst
      obtain ⟨position, hposition⟩ := List.mem_iff_getElem?.1 hdst
      exact .generate hinst hposition ((mem_definitions hinst).2 hdefines)
    | tail _ hfeeds ih =>
      obtain ⟨inst, hinst⟩ := Graph.exists_instruction hdst
      exact .pass (ih hfeeds) hinst hdst List.not_mem_nil

/-- **Reaching definitions are paths.**  The fact on an edge, and the fact at an instruction that
any edge leaves, is every result that is defined where a path to the instruction begins.  Nothing
else is asked of the path: it may be empty, and it need not be reachable from the entry.  Without an
edge to carry it the fact at an instruction is empty. -/
theorem solve_definitions (f : Function) (index x : Nat) :
    (∀ dst, x ∈ (Engine.start flow f).solve.store.get ⟨.inst index, dst⟩ ↔
      dst ∈ (Graph.build f .forward).outgoing index ∧
        ∃ source, Defines (Graph.build f .forward) source x ∧
        Relation.ReflTransGen (Graph.build f .forward).Feeds source index) ∧
    (x ∈ (Engine.start flow f).solve.factAt index ↔
      (Graph.build f .forward).outgoing index ≠ [] ∧
        ∃ source, Defines (Graph.build f .forward) source x ∧
        Relation.ReflTransGen (Graph.build f .forward).Feeds source index) := by
  have hedge : ∀ dst, x ∈ (Engine.start flow f).solve.store.get ⟨.inst index, dst⟩ ↔
      dst ∈ (Graph.build f .forward).outgoing index ∧
        ∃ source, Defines (Graph.build f .forward) source x ∧
        Relation.ReflTransGen (Graph.build f .forward).Feeds source index :=
    fun dst => ((genKillOn f .forward).mem_solve_iff rfl bounded).trans carried_iff
  refine ⟨hedge, ?_⟩
  simp only [Engine.factAt, IndexSet.mem_joinAll, List.mem_map, exists_exists_and_eq_and]
  constructor
  · rintro ⟨dst, hdst, hx⟩
    exact ⟨List.ne_nil_of_mem hdst, ((hedge dst).1 hx).2⟩
  · rintro ⟨hne, hpath⟩
    obtain ⟨dst, hdst⟩ := List.exists_mem_of_ne_nil _ hne
    exact ⟨dst, hdst, (hedge dst).2 ⟨hdst, hpath⟩⟩

end Reaching

end Dataflow
