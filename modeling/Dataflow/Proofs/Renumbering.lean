import Mathlib.Data.List.Perm.Basic
import Dataflow.Proofs.Linking
import Dataflow.Proofs.Outlets
import Dataflow.Proofs.Regularity
import Dataflow.Proofs.Relabelling

/-!
# Blocks in another order

The index of an instruction counts what stands before it, so another order of the blocks gives every
instruction another index.  Nothing else changes: an instruction keeps its block, its position there
and its number, and execution goes the same ways.

* `Function.Reorders`: the same blocks in another order.
* `Function.counterpart`: the index of the same instruction in the other function;
  `Function.Reorders.renumbering`: it is a permutation of all numbers.
* `Function.Renumbers`: a permutation under which two functions are the same up to the order of
  their blocks.
* `Renumbers.site?`, `Renumbers.blockOf?`, `Renumbers.operandIndex?`: what can be asked about an
  index.
* `Renumbers.mem_links`: **the graphs have the same links, up to the numbers.**
* `Renumbers.add`: inside a block, the permutation is a shift.
-/

namespace Dataflow

namespace Function

/-! ## The same blocks -/

/-- The second function has the blocks of the first, in any order, and takes the same parameters and
is entered at the same block. -/
structure Reorders (f g : Function) : Prop where
  blocks : g.blocks.entries.Perm f.blocks.entries
  params : g.params = f.params
  entry : g.entry = f.entry

variable {f g : Function}

theorem Reorders.symm (h : f.Reorders g) : g.Reorders f :=
  ⟨h.blocks.symm, h.params.symm, h.entry.symm⟩

theorem Reorders.sites (h : f.Reorders g) : g.sites.Perm f.sites :=
  h.blocks.flatMap_right _

/-- No two instructions have the same number. -/
def Numbered (f : Function) : Prop :=
  (f.instructions.map Instruction.id).Nodup

theorem numbered_iff : f.Numbered ↔ (f.sites.map fun site => site.inst.id).Nodup := by
  rw [Numbered, ← map_inst_sites, List.map_map]
  rfl

theorem Reorders.numbered (h : f.Reorders g) (hf : f.Numbered) : g.Numbered := by
  rw [numbered_iff] at hf ⊢
  exact (h.sites.map _).nodup_iff.2 hf

/-- Two indices of one place are the same. -/
theorem index_unique {i j : Nat} {site : Site} (hi : f.sites[i]? = some site)
    (hj : f.sites[j]? = some site) : i = j := by
  obtain ⟨b, start, hstarts, -, rfl⟩ := getElem?_sites_iff.1 hi
  obtain ⟨b', start', hstarts', -, rfl⟩ := getElem?_sites_iff.1 hj
  rw [(hstarts.unique hstarts').2]

/-- Where no two instructions have the same number, the number is that of one index. -/
theorem Numbered.indexOf? (h : f.Numbered) (direction : Direction) {id : InstId} {index : Nat} :
    (Graph.build f direction).indexOf? id = some index ↔
      ∃ site, f.sites[index]? = some site ∧ site.inst.id = id := by
  rw [Graph.indexOf?_eq_findIdx?]
  constructor
  · intro hindex
    obtain ⟨hlt, hid, -⟩ := List.findIdx?_eq_some_iff_getElem.1 hindex
    exact ⟨_, List.getElem?_eq_getElem hlt, of_decide_eq_true hid⟩
  · rintro ⟨site, hsite, rfl⟩
    obtain ⟨hlt, rfl⟩ := List.getElem?_eq_some_iff.1 hsite
    refine List.findIdx?_eq_some_iff_getElem.2 ⟨hlt, decide_eq_true rfl, fun j hj heq => ?_⟩
    -- an earlier instruction of the same number would be a second one
    have hj' : j < f.sites.length := hj.trans hlt
    have hsame : (f.sites.map fun site => site.inst.id)[j]? =
        (f.sites.map fun site => site.inst.id)[index]? := by
      rw [List.getElem?_map, List.getElem?_map, List.getElem?_eq_getElem hj',
        List.getElem?_eq_getElem hlt]
      exact congrArg some (of_decide_eq_true heq)
    have hjlt : j < (f.sites.map fun site => site.inst.id).length := by rwa [List.length_map]
    have hindices := (List.getElem?_inj hjlt (numbered_iff.1 h)).1 hsame
    omega

/-! ## The permutation -/

/-- The index that the instruction with the same number has in another function. -/
def counterpart (f g : Function) (index : Nat) : Nat :=
  (f.sites[index]?.bind fun site => (Graph.build g .forward).indexOf? site.inst.id).getD index

theorem counterpart_of_site (hg : g.Numbered) {i j : Nat} {site : Site}
    (hi : f.sites[i]? = some site) (hj : g.sites[j]? = some site) : counterpart f g i = j := by
  have hindex := (hg.indexOf? .forward).2 ⟨site, hj, rfl⟩
  rw [counterpart, hi, Option.bind_some, hindex, Option.getD_some]

theorem counterpart_of_le {index : Nat} (h : f.sites.length ≤ index) :
    counterpart f g index = index := by
  rw [counterpart, List.getElem?_eq_none h]
  rfl

theorem Reorders.exists_index (h : f.Reorders g) {index : Nat} {site : Site}
    (hsite : f.sites[index]? = some site) :
    ∃ j : Nat, g.sites[j]? = some site :=
  List.mem_iff_getElem?.1 (h.sites.mem_iff.2 (List.mem_of_getElem? hsite))

theorem Reorders.counterpart_counterpart (h : f.Reorders g) (hf : f.Numbered) (index : Nat) :
    counterpart g f (counterpart f g index) = index := by
  by_cases hlt : index < f.sites.length
  · have hsite := List.getElem?_eq_getElem hlt
    obtain ⟨j, hj⟩ := h.exists_index hsite
    rw [counterpart_of_site (h.numbered hf) hsite hj, counterpart_of_site hf hj hsite]
  · have hle : f.sites.length ≤ index := Nat.le_of_not_lt hlt
    rw [counterpart_of_le hle, counterpart_of_le (by rwa [h.sites.length_eq])]

/-- The permutation that takes every index to that of the same instruction in the other function. -/
def Reorders.renumbering (h : f.Reorders g) (hf : f.Numbered) : Equiv.Perm Nat where
  toFun := counterpart f g
  invFun := counterpart g f
  left_inv := h.counterpart_counterpart hf
  right_inv := h.symm.counterpart_counterpart (h.numbered hf)

/-- Under the permutation the functions are the same, up to the order of their blocks. -/
structure Renumbers (σ : Equiv.Perm Nat) (f g : Function) : Prop extends Reorders f g where
  numbered : f.Numbered
  sites_apply : ∀ {index site}, f.sites[index]? = some site → g.sites[σ index]? = some site

theorem Reorders.renumbers (h : f.Reorders g) (hf : f.Numbered) :
    Renumbers (h.renumbering hf) f g where
  toReorders := h
  numbered := hf
  sites_apply {index site} hsite := by
    obtain ⟨j, hj⟩ := h.exists_index hsite
    show g.sites[counterpart f g index]? = some site
    rwa [counterpart_of_site (h.numbered hf) hsite hj]

/-! ## What can be asked about an index -/

namespace Renumbers

variable {σ : Equiv.Perm Nat} {direction : Direction}

theorem symm (h : Renumbers σ f g) : Renumbers σ.symm g f where
  toReorders := h.toReorders.symm
  numbered := h.toReorders.numbered h.numbered
  sites_apply {j site} hsite := by
    obtain ⟨i, hi⟩ := h.toReorders.symm.exists_index hsite
    have heq : j = σ i := index_unique hsite (h.sites_apply hi)
    rwa [heq, Equiv.symm_apply_apply]

/-- The same instruction stands at the same place. -/
theorem site? (h : Renumbers σ f g) (index : Nat) :
    (Graph.build g direction).site? (σ index) = (Graph.build f direction).site? index := by
  refine Option.ext fun site => ?_
  constructor
  · intro hsite
    have hback := h.symm.sites_apply hsite
    rwa [Equiv.symm_apply_apply] at hback
  · exact h.sites_apply

theorem instruction? (h : Renumbers σ f g) (index : Nat) :
    (Graph.build g direction).instruction? (σ index) =
      (Graph.build f direction).instruction? index := by
  rw [Graph.instruction?, Graph.instruction?, h.site?]

/-- It stands in the same block. -/
theorem blockOf? (h : Renumbers σ f g) (index : Nat) :
    (Graph.build g direction).blockOf? (σ index) = (Graph.build f direction).blockOf? index := by
  have hblocks : ∀ key, g.blocks.get? key = f.blocks.get? key := by
    intro key
    refine Option.ext fun b => ?_
    rw [Dict.get?_eq_some, Dict.get?_eq_some, h.blocks.mem_iff]
  rw [Graph.blockOf?, Graph.blockOf?, h.site?]
  exact Option.bind_congr fun site _ => hblocks site.block

/-- An operand is the result of the same instruction. -/
theorem operandIndex? (h : Renumbers σ f g) {operand : Operand} {index : Nat}
    (hindex : (Graph.build f direction).operandIndex? operand = some index) :
    (Graph.build g direction).operandIndex? operand = some (σ index) := by
  obtain ⟨id, hid, hindex⟩ := Option.bind_eq_some_iff.1 hindex
  obtain ⟨site, hsite, hsiteId⟩ := (h.numbered.indexOf? direction).1 hindex
  have hnumbered := h.toReorders.numbered h.numbered
  exact Option.bind_eq_some_iff.2 ⟨id, hid,
    (hnumbered.indexOf? direction).2 ⟨site, h.sites_apply hsite, hsiteId⟩⟩

/-! ## Execution goes the same ways -/

/-- A block starts elsewhere, and its instructions follow one another as before. -/
theorem exists_starts (h : Renumbers σ f g) {key : BlockId} {b : Block} {start : Nat}
    (hstarts : f.Starts key b start) :
    ∃ start', g.Starts key b start' ∧ ∀ position < b.instructions.length,
      σ (start + position) = start' + position := by
  obtain ⟨start', hstarts'⟩ := exists_starts_of_mem (h.blocks.mem_iff.2 hstarts.mem)
  refine ⟨start', hstarts', fun position hlt => ?_⟩
  have hinst := List.getElem?_eq_getElem hlt
  have hsite : f.sites[start + position]? = some ⟨key, position, b.instructions[position]⟩ :=
    getElem?_sites_iff.2 ⟨b, start, hstarts, hinst, rfl⟩
  have hsite' : g.sites[start' + position]? = some ⟨key, position, b.instructions[position]⟩ :=
    getElem?_sites_iff.2 ⟨b, start', hstarts', hinst, rfl⟩
  exact index_unique (h.sites_apply hsite) hsite'

theorem exists_first (h : Renumbers σ f g) {key : BlockId} {b : Block} {start : Nat}
    (hstarts : f.Starts key b start) (hne : b.instructions ≠ []) :
    ∃ start', g.Starts key b start' ∧ σ start = start' := by
  obtain ⟨start', hstarts', hshift⟩ := h.exists_starts hstarts
  exact ⟨start', hstarts', hshift 0 (List.length_pos_iff.2 hne)⟩

theorem exists_last (h : Renumbers σ f g) {key : BlockId} {b : Block} {start : Nat}
    (hstarts : f.Starts key b start) (hne : b.instructions ≠ []) : ∃ start', g.Starts key b start' ∧
      σ (start + b.instructions.length - 1) = start' + b.instructions.length - 1 := by
  obtain ⟨start', hstarts', hshift⟩ := h.exists_starts hstarts
  have hpos : 0 < b.instructions.length := List.length_pos_iff.2 hne
  have hlast := hshift (b.instructions.length - 1) (by omega)
  rw [← Nat.add_sub_assoc hpos, ← Nat.add_sub_assoc hpos] at hlast
  exact ⟨start', hstarts', hlast⟩

/-- **Every step of execution is a step in the other function.** -/
theorem step (h : Renumbers σ f g) {e : Edge} (he : f.Step e) : g.Step (Edge.relabel σ e) := by
  -- a block keeps its length, so its first, last and neighbouring instructions stay what they are
  cases he with
  | enter hstarts hne =>
    obtain ⟨start', hstarts', hfirst⟩ := h.exists_first hstarts hne
    rw [Edge.relabel_mk, Node.relabel_entry, Node.relabel_inst, hfirst]
    rw [← h.entry] at hstarts'
    exact .enter hstarts' hne
  | @next key b start position hstarts hnext =>
    obtain ⟨start', hstarts', hshift⟩ := h.exists_starts hstarts
    have hfirst := hshift position (by omega)
    have hsecond : σ (start + position + 1) = start' + position + 1 := hshift (position + 1) hnext
    rw [Edge.relabel_mk, Node.relabel_inst, Node.relabel_inst, hfirst, hsecond]
    exact .next hstarts' hnext
  | branch hstarts hne htarget hother hne' =>
    obtain ⟨start', hstarts', hlast⟩ := h.exists_last hstarts hne
    obtain ⟨first', hother', hfirst⟩ := h.exists_first hother hne'
    rw [Edge.relabel_mk, Node.relabel_inst, Node.relabel_inst, hlast, hfirst]
    exact .branch hstarts' hne htarget hother' hne'
  | leave hstarts hne hnone =>
    obtain ⟨start', hstarts', hlast⟩ := h.exists_last hstarts hne
    rw [Edge.relabel_mk, Node.relabel_inst, Node.relabel_exit, hlast]
    exact .leave hstarts' hne hnone

theorem link (h : Renumbers σ f g) {e : Edge} (he : e ∈ (Graph.build f direction).links) :
    Edge.relabel σ e ∈ (Graph.build g direction).links := by
  obtain ⟨s, hs, rfl⟩ := Graph.mem_links_build.1 he
  refine Graph.mem_links_build.2 ⟨Edge.relabel σ s, h.step hs, ?_⟩
  cases direction with
  | forward => rfl
  | backward => exact Edge.reversed_relabel s

/-- **The graphs have the same links, up to the numbers.** -/
theorem mem_links (h : Renumbers σ f g) (e : Edge) :
    Edge.relabel σ e ∈ (Graph.build g direction).links ↔ e ∈ (Graph.build f direction).links := by
  constructor
  · intro he
    have hsame : Edge.relabel σ.symm (Edge.relabel σ e) = e := (Edge.relabel σ).symm_apply_apply e
    have hback := h.symm.link he
    rwa [hsame] at hback
  · exact h.link

/-- Inside a block the permutation is a shift. -/
theorem add (h : Renumbers σ f g) {index count : Nat} {site other : Site}
    (hsite : (Graph.build f direction).site? index = some site)
    (hother : (Graph.build f direction).site? (index + count) = some other)
    (hblock : other.block = site.block) :
    σ (index + count) = σ index + count := by
  obtain ⟨b, start, hstarts, hinst, hindex⟩ := Graph.site?_iff.1 hsite
  obtain ⟨b', start', hstarts', hinst', hindex'⟩ := Graph.site?_iff.1 hother
  rw [hblock] at hstarts'
  obtain ⟨rfl, rfl⟩ := hstarts.unique hstarts'
  obtain ⟨shifted, -, hshift⟩ := h.exists_starts hstarts
  have hfirst := hshift site.position (List.getElem?_eq_some_iff.1 hinst).1
  have hsecond := hshift other.position (List.getElem?_eq_some_iff.1 hinst').1
  rw [← hindex] at hfirst
  rw [← hindex'] at hsecond
  omega

end Renumbers

end Function

end Dataflow
