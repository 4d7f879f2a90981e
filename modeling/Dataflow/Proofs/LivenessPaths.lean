import Dataflow.Proofs.Numbering
import Dataflow.Proofs.Provenance

/-!
# Liveness is paths to uses

A result is live before an instruction exactly if some path of execution from there leads to a use
of it, and nothing on the way defines it anew.  The values of a phi are used on the way into its
block, each only on the way from the block that it belongs to.

* `Liveness.Kills`, `Liveness.Uses`: what an instruction defines anew, and what it uses on the way
  to it from a node; `mem_killed`, `mem_generated`: the analysis finds just that.
* `Liveness.UsePath`: a path from an edge to a use.
* `Liveness.carried_iff`: a result is carried to an edge exactly if there is such a path.
* `Liveness.solve_uses`: the facts of the solver, edge by edge.
-/

namespace Dataflow

namespace Liveness

/-! ## Definitions and uses -/

/-- An instruction defines the result with an index anew. -/
inductive Kills (g : Graph) (index : Nat) : Nat → Prop where
  /-- An instruction that produces a value defines its own result. -/
  | result {inst : Instruction} (hinst : g.instruction? index = some inst)
      (hcategory : LiveCategory.classify inst.opcode = .valueProducing) : Kills g index index
  /-- A phi defines the results of all phis of its block. -/
  | phi {x : Nat} {site other : Site} (hsite : g.site? index = some site)
      (hphi : site.inst.isPhi = true) (hother : g.site? x = some other)
      (hblock : other.block = site.block) (hphi' : other.inst.isPhi = true) :
      Kills g index x

/-- An instruction uses the result with an index, where execution comes from a node. -/
inductive Uses (g : Graph) (index : Nat) : Node → Nat → Prop where
  /-- Any instruction but a phi uses its operands, wherever execution comes from. -/
  | operand {dst : Node} {x : Nat} {inst : Instruction} {operand : Operand}
      (hinst : g.instruction? index = some inst) (hphi : inst.isPhi = false)
      (hoperand : operand ∈ inst.operands) (hx : g.operandIndex? operand = some x) :
      Uses g index dst x
  /-- A phi uses what any phi of its block takes from a block, where execution comes from the end of
  that block. -/
  | taken {far sibling x : Nat} {site origin other : Site} {value : Operand}
      (hsite : g.site? index = some site) (hphi : site.inst.isPhi = true)
      (horigin : g.site? far = some origin) (hterminator : origin.inst.isTerminator = true)
      (hother : g.site? sibling = some other) (hblock : other.block = site.block)
      (hphi' : other.inst.isPhi = true) (hvalue : (value, origin.block) ∈ other.inst.incoming)
      (hx : g.operandIndex? value = some x) :
      Uses g index (.inst far) x

theorem isPhi_iff {inst : Instruction} :
    inst.isPhi = true ↔ LiveCategory.classify inst.opcode = .mergePoint := by
  rw [Instruction.isPhi, decide_eq_true_eq]
  cases inst.opcode <;> simp [LiveCategory.classify]

/-- What kills anything produces a value, or is a phi. -/
theorem kills_iff {g : Graph} {index x : Nat} {site : Site} (hsite : g.site? index = some site) :
    Kills g index x ↔ (LiveCategory.classify site.inst.opcode = .valueProducing ∧ x = index) ∨
      (LiveCategory.classify site.inst.opcode = .mergePoint ∧
        ∃ other, g.site? x = some other ∧ other.block = site.block ∧ other.inst.isPhi = true) := by
  have hinst := Graph.instruction?_of_site hsite
  constructor
  · intro h
    cases h with
    | result hinst' hcategory =>
      rw [hinst] at hinst'
      cases hinst'
      exact Or.inl ⟨hcategory, rfl⟩
    | phi hsite' hphi hother hblock hphi' =>
      rw [hsite] at hsite'
      cases hsite'
      exact Or.inr ⟨isPhi_iff.1 hphi, _, hother, hblock, hphi'⟩
  · rintro (⟨hcategory, rfl⟩ | ⟨hcategory, other, hother, hblock, hphi'⟩)
    · exact .result hinst hcategory
    · exact .phi hsite (isPhi_iff.2 hcategory) hother hblock hphi'

variable {f : Function} {direction : Direction} {index x : Nat}

/-- The phis of a block, by index. -/
theorem mem_phiIndices (direction : Direction) {key : BlockId} {b : Block} {start : Nat}
    (hstarts : f.Starts key b start) :
    x ∈ phiIndices start b ↔ ∃ other, (Graph.build f direction).site? x = some other ∧
      other.block = key ∧
      other.inst.isPhi = true := by
  simp only [phiIndices, List.mem_filterMap, Prod.exists, Option.ite_none_right_eq_some,
    Option.some.injEq, List.mk_mem_zipIdx_iff_le_and_getElem?_sub]
  constructor
  · rintro ⟨inst, _, hplace, hphi, rfl⟩
    obtain ⟨other, hother, hblock, rfl⟩ := hstarts.site_iff.2 hplace
    exact ⟨other, hother, hblock, hphi⟩
  · rintro ⟨other, hother, hblock, hphi⟩
    exact ⟨other.inst, x, hstarts.site_iff.1 ⟨other, hother, hblock, rfl⟩, hphi, rfl⟩

/-- The phis of a block, as instructions. -/
theorem mem_phis (direction : Direction) {key : BlockId} {b : Block} {start : Nat}
    (hstarts : f.Starts key b start) {phi : Instruction} :
    phi ∈ b.phis ↔ ∃ sibling other, (Graph.build f direction).site? sibling = some other ∧
      other.block = key ∧
      other.inst.isPhi = true ∧ other.inst = phi := by
  rw [Block.phis, List.mem_filter]
  constructor
  · rintro ⟨hmem, hphi⟩
    obtain ⟨position, hposition⟩ := List.mem_iff_getElem?.1 hmem
    have hplace : b.instructions[start + position - start]? = some phi := by
      rwa [Nat.add_sub_cancel_left]
    obtain ⟨other, hother, hblock, rfl⟩ :=
      hstarts.site_iff.2 ⟨Nat.le_add_right start position, hplace⟩
    exact ⟨_, other, hother, hblock, hphi, rfl⟩
  · rintro ⟨sibling, other, hother, hblock, hphi, rfl⟩
    obtain ⟨-, hinst⟩ := hstarts.site_iff.1 ⟨other, hother, hblock, rfl⟩
    exact ⟨List.mem_of_getElem? hinst, hphi⟩

/-- **The analysis finds what an instruction defines anew.** -/
theorem mem_killed {inst : Instruction}
    (hinst : (Graph.build f direction).instruction? index = some inst) :
    x ∈ killed ⟨Graph.build f direction, index, inst⟩ ↔
      Kills (Graph.build f direction) index x := by
  obtain ⟨site, hsite, rfl⟩ := Graph.exists_site_of_instruction hinst
  obtain ⟨b, hblock, hstarts, -, -⟩ := Graph.exists_starts hsite
  rw [kills_iff hsite]
  simp only [killed]
  cases LiveCategory.classify site.inst.opcode with
  | valueProducing => simp
  | mergePoint => simp [hblock, hsite, mem_phiIndices direction hstarts]
  | effect => simp

theorem mem_usedIndices {v : Visit} :
    x ∈ v.usedIndices ↔ ∃ operand ∈ v.inst.operands, v.graph.operandIndex? operand = some x := by
  simp only [Visit.usedIndices, Instruction.uses, List.mem_filterMap, Graph.operandIndex?,
    Option.bind_eq_some_iff]
  constructor
  · rintro ⟨id, ⟨operand, hoperand, hid⟩, hx⟩
    exact ⟨operand, hoperand, id, hid, hx⟩
  · rintro ⟨operand, hoperand, id, hid, hx⟩
    exact ⟨id, ⟨operand, hoperand, hid⟩, hx⟩

/-- What the phis of a block take from another one. -/
theorem mem_takenFrom {key origin : BlockId} {b : Block} {start : Nat}
    (hstarts : f.Starts key b start) :
    x ∈ takenFrom (Graph.build f direction) b origin ↔ ∃ sibling other value,
      (Graph.build f direction).site? sibling = some other ∧ other.block = key ∧
        other.inst.isPhi = true ∧
        (value, origin) ∈ other.inst.incoming ∧
          (Graph.build f direction).operandIndex? value = some x := by
  simp only [takenFrom, List.mem_flatMap, List.mem_filterMap, mem_phis direction hstarts,
    Prod.exists, Option.ite_none_right_eq_some]
  constructor
  · rintro ⟨_, ⟨sibling, other, hother, hblock, hphi, rfl⟩, value, _, hvalue, rfl, hx⟩
    exact ⟨sibling, other, value, hother, hblock, hphi, hvalue, hx⟩
  · rintro ⟨sibling, other, value, hother, hblock, hphi, hvalue, hx⟩
    exact ⟨other.inst, ⟨sibling, other, hother, hblock, hphi, rfl⟩, value, origin, hvalue, rfl, hx⟩

theorem originOf?_eq_some {g : Graph} {dst : Node} {key : BlockId} :
    originOf? g dst = some key ↔ ∃ far origin, dst = .inst far ∧ g.site? far = some origin ∧
      origin.inst.isTerminator = true ∧ origin.block = key := by
  cases dst with
  | entry => simp [originOf?]
  | exit => simp [originOf?]
  | inst far => simp [originOf?, Option.bind_eq_some_iff]

/-- What uses anything is no phi and has operands, or is a phi on the way from the end of a
block. -/
theorem uses_iff {g : Graph} {dst : Node} {site : Site} (hsite : g.site? index = some site) :
    Uses g index dst x ↔
      (site.inst.isPhi = false ∧ ∃ operand ∈ site.inst.operands, g.operandIndex? operand = some x) ∨
      (site.inst.isPhi = true ∧ ∃ origin, originOf? g dst = some origin ∧ ∃ sibling other value,
        g.site? sibling = some other ∧ other.block = site.block ∧ other.inst.isPhi = true ∧
          (value, origin) ∈ other.inst.incoming ∧ g.operandIndex? value = some x) := by
  have hinst := Graph.instruction?_of_site hsite
  constructor
  · intro h
    cases h with
    | operand hinst' hphi hoperand hx =>
      rw [hinst] at hinst'
      cases hinst'
      exact Or.inl ⟨hphi, _, hoperand, hx⟩
    | taken hsite' hphi horigin hterminator hother hblock hphi' hvalue hx =>
      rw [hsite] at hsite'
      cases hsite'
      exact Or.inr ⟨hphi, _, originOf?_eq_some.2 ⟨_, _, rfl, horigin, hterminator, rfl⟩, _, _, _,
        hother, hblock, hphi', hvalue, hx⟩
  · rintro (⟨hphi, operand, hoperand, hx⟩ |
      ⟨hphi, _, horigin, sibling, other, value, hother, hblock, hphi', hvalue, hx⟩)
    · exact .operand hinst hphi hoperand hx
    · obtain ⟨far, origin, rfl, hfar, hterminator, rfl⟩ := originOf?_eq_some.1 horigin
      exact .taken hsite hphi hfar hterminator hother hblock hphi' hvalue hx

/-- **The analysis finds what an instruction uses**, on the way to it from a node. -/
theorem mem_generated {inst : Instruction}
    (hinst : (Graph.build f direction).instruction? index = some inst) {position : Nat} {dst : Node}
    (hdst : ((Graph.build f direction).outgoing index)[position]? = some dst) :
    x ∈ generated ⟨Graph.build f direction, index, inst⟩ position ↔
      Uses (Graph.build f direction) index dst x := by
  obtain ⟨site, hsite, rfl⟩ := Graph.exists_site_of_instruction hinst
  obtain ⟨b, hblock, hstarts, -, -⟩ := Graph.exists_starts hsite
  rw [uses_iff hsite, ← Bool.not_eq_true, isPhi_iff]
  simp only [generated]
  cases LiveCategory.classify site.inst.opcode with
  | valueProducing => simp [mem_usedIndices]
  | effect => simp [mem_usedIndices]
  | mergePoint =>
    simp only [hblock, Visit.outgoing, hdst, Option.bind_some, not_true, false_and, false_or,
      true_and]
    cases originOf? (Graph.build f direction) dst with
    | none => simp
    | some origin => simp [mem_takenFrom hstarts]

/-! ## Paths -/

/-- Where execution comes from when it is at a place of a path: the node before the path, or the
place before. -/
def cameFrom (before : Node) (via : Nat → Nat) : Nat → Node
  | 0 => before
  | j + 1 => .inst (via j)

/-- A path of execution to a use.  It begins at an instruction, where execution has come from a
node, and goes on for some steps; no instruction before the last one defines the result anew, and
the last one uses it. -/
structure UsePath (g : Graph) (x index : Nat) (before : Node) (length : Nat)
    (via : Nat → Nat) : Prop where
  start : via 0 = index
  step : ∀ j < length, .inst (via (j + 1)) ∈ g.incoming (via j)
  alive : ∀ j < length, ¬ Kills g (via j) x
  used : Uses g (via length) (cameFrom before via length) x

/-- A path with one instruction put in front. -/
theorem UsePath.cons {g : Graph} {next : Nat} {before : Node} {length : Nat} {via : Nat → Nat}
    (h : UsePath g x next (.inst index) length via) (hstep : .inst next ∈ g.incoming index)
    (halive : ¬ Kills g index x) : ∃ via', UsePath g x index before (length + 1) via' := by
  refine ⟨fun j => if j = 0 then index else via (j - 1), rfl, fun j hj => ?_, fun j hj => ?_, ?_⟩
  · cases j with
    | zero => simpa [h.start] using hstep
    | succ j => simpa using h.step j (by omega)
  · cases j with
    | zero => simpa using halive
    | succ j => simpa using h.alive j (by omega)
  · have hused := h.used
    cases length with
    | zero => simpa [cameFrom] using hused
    | succ length => simpa [cameFrom] using hused

/-- A path without its first instruction. -/
theorem UsePath.tail {g : Graph} {before : Node} {length : Nat} {via : Nat → Nat}
    (h : UsePath g x index before (length + 1) via) :
    UsePath g x (via 1) (.inst index) length fun j => via (j + 1) := by
  refine ⟨rfl, fun j hj => h.step (j + 1) (by omega), fun j hj => h.alive (j + 1) (by omega), ?_⟩
  have hused := h.used
  cases length with
  | zero => simpa [cameFrom, h.start] using hused
  | succ length => simpa [cameFrom] using hused

/-- A result is carried to an edge exactly if a path leads from there to a use. -/
theorem carried_iff {dst : Node} :
    Carried (Graph.build f direction) killed generated x index dst ↔
      dst ∈ (Graph.build f direction).outgoing index ∧
        ∃ length via, UsePath (Graph.build f direction) x index dst length via := by
  constructor
  · intro h
    -- a path grows at its start, with every edge that the result is carried along
    refine ⟨h.mem_outgoing, ?_⟩
    induction h with
    | @generate index position inst dst hinst hdst hx =>
      exact ⟨0, fun _ => index, rfl, fun j hj => absurd hj (Nat.not_lt_zero j),
        fun j hj => absurd hj (Nat.not_lt_zero j), (mem_generated hinst hdst).1 hx⟩
    | pass h hinst _ hx ih =>
      obtain ⟨length, via, hpath⟩ := ih
      have hstep := Graph.mem_incoming.2 (Graph.mem_outgoing.1 h.mem_outgoing)
      exact ⟨length + 1, hpath.cons hstep fun hkills => hx ((mem_killed hinst).2 hkills)⟩
  · rintro ⟨hdst, length, via, hpath⟩
    induction length generalizing index dst via with
    | zero =>
      obtain ⟨inst, hinst⟩ := Graph.exists_instruction hdst
      obtain ⟨position, hposition⟩ := List.mem_iff_getElem?.1 hdst
      have hused : Uses (Graph.build f direction) index dst x := hpath.start ▸ hpath.used
      exact .generate hinst hposition ((mem_generated hinst hposition).2 hused)
    | succ length ih =>
      obtain ⟨inst, hinst⟩ := Graph.exists_instruction hdst
      have hstep := hpath.step 0 (Nat.succ_pos length)
      have halive := hpath.alive 0 (Nat.succ_pos length)
      rw [hpath.start] at hstep halive
      -- the path without its first step is one for the edge behind
      have hcarried := ih (Graph.mem_outgoing.2 (Graph.mem_incoming.1 hstep)) _ hpath.tail
      exact .pass hcarried hinst hdst fun hx => halive ((mem_killed hinst).1 hx)

/-- **Liveness is paths to uses.**  A result is in the fact on an edge exactly if a path of
execution leads from the instruction that the edge leaves to a use of the result, past instructions
that do not define it anew. -/
theorem solve_uses (f : Function) (x index : Nat) (dst : Node) :
    x ∈ (Engine.start flow f).solve.store.get ⟨.inst index, dst⟩ ↔
      dst ∈ (Graph.build f .backward).outgoing index ∧
        ∃ length via, UsePath (Graph.build f .backward) x index dst length via :=
  ((genKillOn f .backward).mem_solve_iff rfl bounded).trans carried_iff

end Liveness

end Dataflow
