import Dataflow.Graph.Basic

/-!
# Numbering and links

What the graph of a function promises, whatever the function looks like: an index stands for one
place in one block, every link ends at an index in use, and no link is listed twice.

* `Function.getElem?_sitesOf`: the index of an instruction is the number of instructions in earlier
  blocks plus its position.
* `Graph.exists_block`: the block an instruction stands in can be looked up, and holds it at its
  position.
* `Graph.mem_outgoing`, `mem_incoming`, `mem_boundary`: the views list exactly the links.
* `Graph.get?_foldl_indices`, `indexOf?_eq_findIdx?`: a number leads to the first index that has it.
* `Graph.WellLinked`: links are distinct, and end at indices in use; every built graph is such.
-/

namespace Dataflow

theorem nodup_eraseDups {α : Type} [BEq α] [LawfulBEq α] (l : List α) : l.eraseDups.Nodup := by
  induction hn : l.length using Nat.strongRecOn generalizing l with
  | ind n ih =>
    cases l with
    | nil => simp
    | cons a rest =>
      have hlt : (rest.filter fun b => !b == a).length < n := by
        have := List.length_filter_le (fun b => !b == a) rest
        rw [List.length_cons] at hn
        omega
      rw [List.eraseDups_cons, List.nodup_cons]
      refine ⟨fun hmem => ?_, ih _ hlt _ rfl⟩
      rw [List.mem_eraseDups, List.mem_filter] at hmem
      simp at hmem

/-- Every index that the node stands for is below a bound. -/
def Node.Below (bound : Nat) (node : Node) : Prop :=
  ∀ index, node = .inst index → index < bound

namespace Function

/-! ## Places -/

/-- The places of the instructions of some blocks. -/
def sitesOf (entries : List (BlockId × Block)) : List Site :=
  entries.flatMap fun e => e.2.instructions.mapIdx fun position inst =>
    { block := e.1, position, inst }

theorem sites_eq (f : Function) : f.sites = sitesOf f.blocks.entries := rfl

theorem sitesOf_cons (key : BlockId) (b : Block) (rest : List (BlockId × Block)) :
    sitesOf ((key, b) :: rest) =
      (b.instructions.mapIdx fun position inst => { block := key, position, inst }) ++
        sitesOf rest := by
  simp [sitesOf]

theorem length_sitesOf_cons (key : BlockId) (b : Block) (rest : List (BlockId × Block)) :
    (sitesOf ((key, b) :: rest)).length = b.instructions.length + (sitesOf rest).length := by
  simp [sitesOf_cons]

theorem length_sitesOf_append (before after : List (BlockId × Block)) :
    (sitesOf (before ++ after)).length = (sitesOf before).length + (sitesOf after).length := by
  simp [sitesOf]

/-- An index splits into the instructions of earlier blocks and a position in its own block. -/
theorem getElem?_sitesOf {entries : List (BlockId × Block)} {index : Nat} {site : Site}
    (h : (sitesOf entries)[index]? = some site) :
    ∃ before b after, entries = before ++ (site.block, b) :: after ∧
      b.instructions[site.position]? = some site.inst ∧
        index = (sitesOf before).length + site.position := by
  induction entries generalizing index with
  | nil => simp [sitesOf] at h
  | cons e rest ih =>
    obtain ⟨key, b⟩ := e
    rw [sitesOf_cons, List.getElem?_append] at h
    split at h
    · -- the index falls into the first block
      rw [List.getElem?_mapIdx, Option.map_eq_some_iff] at h
      obtain ⟨inst, hinst, rfl⟩ := h
      exact ⟨[], b, rest, rfl, hinst, by simp [sitesOf]⟩
    · rename_i hge
      rw [List.length_mapIdx] at h hge
      obtain ⟨before, b', after, rfl, hinst, hindex⟩ := ih h
      refine ⟨(key, b) :: before, b', after, rfl, hinst, ?_⟩
      rw [length_sitesOf_cons]
      omega

/-! ## Steps of execution -/

theorem firstIndexIn_lt {block : BlockId} {start index : Nat} {entries : List (BlockId × Block)}
    (h : firstIndexIn block start entries = some index) :
    index < start + (sitesOf entries).length := by
  induction entries generalizing start with
  | nil => simp [firstIndexIn] at h
  | cons e rest ih =>
    obtain ⟨key, b⟩ := e
    rw [firstIndexIn] at h
    rw [length_sitesOf_cons]
    split at h
    · split at h
      · simp at h
      · rename_i hne
        have hpos : 0 < b.instructions.length := List.length_pos_iff.2 (by simpa using hne)
        cases h
        omega
    · have := ih h
      omega

theorem firstIndex?_lt {f : Function} {block : BlockId} {index : Nat}
    (h : f.firstIndex? block = some index) :
    index < f.sites.length := by
  have := firstIndexIn_lt h
  rwa [Nat.zero_add, ← sites_eq] at this

theorem innerEdges_below {start size bound : Nat} (hbound : start + size ≤ bound) {e : Edge}
    (h : e ∈ innerEdges start size) : e.src.Below bound ∧ e.dst.Below bound := by
  obtain ⟨k, hk, rfl⟩ := List.mem_map.1 h
  rw [List.mem_range] at hk
  constructor
  · intro index hindex
    cases hindex
    omega
  · intro index hindex
    cases hindex
    omega

theorem leavingEdges_below {f : Function} {last : Nat} (hlast : last < f.sites.length) {b : Block}
    {e : Edge} (h : e ∈ f.leavingEdges last b) :
    e.src.Below f.sites.length ∧ e.dst.Below f.sites.length := by
  rw [leavingEdges] at h
  split at h
  · cases List.mem_singleton.1 h
    exact ⟨fun index hindex => by cases hindex; exact hlast, fun index hindex => by cases hindex⟩
  · obtain ⟨target, htarget, rfl⟩ := List.mem_map.1 h
    obtain ⟨block, -, hfirst⟩ := List.mem_filterMap.1 htarget
    refine ⟨fun index hindex => by cases hindex; exact hlast, fun index hindex => ?_⟩
    cases hindex
    exact firstIndex?_lt hfirst

theorem blockEdges_below {f : Function} {start : Nat} {entries : List (BlockId × Block)}
    (hbound : start + (sitesOf entries).length ≤ f.sites.length) {e : Edge}
    (h : e ∈ f.blockEdges start (entries.map Prod.snd)) :
    e.src.Below f.sites.length ∧ e.dst.Below f.sites.length := by
  induction entries generalizing start with
  | nil => simp [blockEdges] at h
  | cons entry rest ih =>
    obtain ⟨key, b⟩ := entry
    rw [length_sitesOf_cons] at hbound
    simp only [List.map_cons, blockEdges, List.mem_append] at h
    rcases h with hown | hrest
    · split at hown
      · simp at hown
      · rcases List.mem_append.1 hown with hinner | hleaving
        · exact innerEdges_below (by omega) hinner
        · exact leavingEdges_below (by omega) hleaving
    · exact ih (by omega) hrest

/-- Every step of execution leads between instructions of the function, or to its ends. -/
theorem flowEdges_below {f : Function} {e : Edge} (h : e ∈ f.flowEdges) :
    e.src.Below f.sites.length ∧ e.dst.Below f.sites.length := by
  rw [flowEdges, List.mem_append] at h
  rcases h with hentry | hblocks
  · simp only [Option.mem_toList, Option.map_eq_some_iff] at hentry
    obtain ⟨first, hfirst, rfl⟩ := hentry
    constructor
    · intro index hindex
      cases hindex
    · intro index hindex
      cases hindex
      exact firstIndex?_lt hfirst
  · exact blockEdges_below (Nat.le_of_eq (by rw [sites_eq, Nat.zero_add])) hblocks

end Function

namespace Node

theorem reversed_below {bound : Nat} {node : Node} (h : node.Below bound) :
    node.reversed.Below bound := by
  intro index hindex
  cases node with
  | entry => simp [reversed] at hindex
  | exit => simp [reversed] at hindex
  | inst i =>
    cases hindex
    exact h _ rfl

theorem index?_eq_some {node : Node} {index : Nat} :
    node.index? = some index ↔ node = .inst index := by
  cases node <;> simp [index?]

end Node

namespace Graph

/-! ## Views of the links -/

theorem mem_outgoing {g : Graph} {index : Nat} {dst : Node} :
    dst ∈ g.outgoing index ↔ ⟨.inst index, dst⟩ ∈ g.links := by
  simp only [outgoing, List.mem_map, List.mem_filter, decide_eq_true_eq]
  constructor
  · rintro ⟨⟨src, _⟩, ⟨hmem, rfl⟩, rfl⟩
    exact hmem
  · intro hmem
    exact ⟨_, ⟨hmem, rfl⟩, rfl⟩

theorem mem_incoming {g : Graph} {index : Nat} {src : Node} :
    src ∈ g.incoming index ↔ ⟨src, .inst index⟩ ∈ g.links := by
  simp only [incoming, List.mem_map, List.mem_filter, decide_eq_true_eq]
  constructor
  · rintro ⟨⟨_, dst⟩, ⟨hmem, rfl⟩, rfl⟩
    exact hmem
  · intro hmem
    exact ⟨_, ⟨hmem, rfl⟩, rfl⟩

theorem mem_boundary {g : Graph} {index : Nat} :
    index ∈ g.boundary ↔ ⟨.entry, .inst index⟩ ∈ g.links := by
  simp only [boundary, List.mem_filterMap, List.mem_filter, Node.index?_eq_some, Edge.isBoundary,
    decide_eq_true_eq]
  constructor
  · rintro ⟨⟨_, _⟩, ⟨hmem, rfl⟩, rfl⟩
    exact hmem
  · intro hmem
    exact ⟨_, ⟨hmem, rfl⟩, rfl⟩

/-- Distinct links leave an instruction for distinct nodes. -/
theorem nodup_outgoing {g : Graph} (h : g.links.Nodup) (index : Nat) :
    (g.outgoing index).Nodup := by
  refine List.pairwise_map.2 ((h.filter _).imp_of_mem ?_)
  rintro ⟨_, d⟩ ⟨_, d'⟩ ha hb hne heq
  simp only [List.mem_filter, decide_eq_true_eq] at ha hb
  obtain ⟨-, rfl⟩ := ha
  obtain ⟨-, rfl⟩ := hb
  exact hne (congrArg _ heq)

theorem length_edges (g : Graph) : g.edges.length = g.edgeCount := by
  simp [edges, edgeCount, List.length_flatMap]

theorem mem_edges_of_outgoing {g : Graph} {index : Nat} {dst : Node} (hindex : index < g.size)
    (h : dst ∈ g.outgoing index) : ⟨.inst index, dst⟩ ∈ g.edges := by
  refine List.mem_append_right _ (List.mem_flatMap.2 ⟨index, List.mem_range.2 hindex, ?_⟩)
  exact List.mem_map.2 ⟨dst, h, rfl⟩

/-! ## Instructions -/

/-- The number of an instruction is entered with its index, unless it is there: after a run over
sites it leads to the index that it led to before, or else to the first one that the run has for
it. -/
theorem get?_foldl_indices (sites : List Site) (start : Nat) (indices : Dict InstId Nat)
    (id : InstId) :
    (((sites.zipIdx start).foldl (fun indices e => indices.alter e.1.inst.id (·.getD e.2))
        indices).get? id) =
      (indices.get? id).or ((sites.findIdx? (·.inst.id = id)).map (· + start)) := by
  induction sites generalizing start indices with
  | nil => simp
  | cons site sites ih =>
    rw [List.zipIdx_cons, List.foldl_cons, ih, Dict.get?_alter, List.findIdx?_cons]
    by_cases hid : site.inst.id = id
    · subst hid
      cases indices.get? site.inst.id <;> simp
    · have hshift : ∀ found : Option Nat,
          found.map (· + (start + 1)) = (found.map (· + 1)).map (· + start) := by
        rintro (_ | k)
        · rfl
        · simp only [Option.map_some, Nat.add_assoc, Nat.add_comm 1 start]
      simp [hid, Ne.symm hid, hshift]

/-- **A number leads to the first index that has it.** -/
theorem indexOf?_eq_findIdx? (g : Graph) (id : InstId) :
    g.indexOf? id = g.sites.findIdx? (·.inst.id = id) := by
  rw [indexOf?, g.indices_eq, indexSites, get?_foldl_indices]
  simp

theorem exists_site {g : Graph} {index : Nat} (h : index < g.size) :
    ∃ site, g.site? index = some site :=
  ⟨_, List.getElem?_eq_getElem h⟩

theorem instruction?_of_site {g : Graph} {index : Nat} {site : Site}
    (h : g.site? index = some site) :
    g.instruction? index = some site.inst := by
  rw [instruction?, h]
  rfl

theorem exists_site_of_instruction {g : Graph} {index : Nat} {inst : Instruction}
    (h : g.instruction? index = some inst) : ∃ site, g.site? index = some site ∧ site.inst = inst :=
  Option.map_eq_some_iff.1 h

theorem lt_size_of_instruction {g : Graph} {index : Nat} {inst : Instruction}
    (h : g.instruction? index = some inst) : index < g.size := by
  obtain ⟨site, hsite, -⟩ := Option.map_eq_some_iff.1 h
  exact (List.getElem?_eq_some_iff.1 hsite).1

theorem lt_size_of_indexOf {g : Graph} {id : InstId} {index : Nat}
    (h : g.indexOf? id = some index) :
    index < g.size := by
  rw [indexOf?_eq_findIdx?] at h
  exact (List.findIdx?_eq_some_iff_getElem.1 h).1

/-! ## Built graphs -/

/-- Links are distinct and end at indices in use. -/
structure WellLinked (g : Graph) : Prop where
  nodup : g.links.Nodup
  below : ∀ e ∈ g.links, e.src.Below g.size ∧ e.dst.Below g.size

theorem build_wellLinked (f : Function) (direction : Direction) :
    (build f direction).WellLinked := by
  cases direction with
  | forward =>
    exact ⟨nodup_eraseDups _, fun e he => Function.flowEdges_below (List.mem_eraseDups.1 he)⟩
  | backward =>
    refine ⟨nodup_eraseDups _, fun e he => ?_⟩
    obtain ⟨e', he', rfl⟩ := List.mem_map.1 (List.mem_eraseDups.1 he)
    have hbelow := Function.flowEdges_below he'
    exact ⟨Node.reversed_below hbelow.2, Node.reversed_below hbelow.1⟩

/-- The block of an instruction is found under its key, holds it at its position, and ends inside
the graph. -/
theorem exists_block {f : Function} {direction : Direction} {index : Nat} {site : Site}
    (h : (build f direction).site? index = some site) :
    ∃ block, (build f direction).blockOf? index = some block ∧
      block.instructions[site.position]? = some site.inst ∧ site.position ≤ index ∧
      index - site.position + block.instructions.length ≤ (build f direction).size := by
  have hsites : (Function.sitesOf f.blocks.entries)[index]? = some site := h
  obtain ⟨before, b, after, hentries, hinst, hindex⟩ := Function.getElem?_sitesOf hsites
  have hmem : (site.block, b) ∈ f.blocks.entries := by
    rw [hentries]
    exact List.mem_append_right _ List.mem_cons_self
  have hsize : (build f direction).size = (Function.sitesOf before).length +
      (b.instructions.length + (Function.sitesOf after).length) := by
    show f.sites.length = _
    rw [Function.sites_eq, hentries, Function.length_sitesOf_append, Function.length_sitesOf_cons]
  refine ⟨b, ?_, hinst, by omega, by omega⟩
  rw [blockOf?, h]
  exact Dict.get?_of_mem hmem

end Graph

end Dataflow
