import Dataflow.Proofs.Convergence
import Dataflow.Proofs.Linking
import Dataflow.Proofs.Neighbours

/-!
# Nothing is out of range

Lists of neighbours stand in tables with one row per instruction, flags in a table of their own, and
positions are subtracted from indices.  None of that is safe by itself: a row may not be there, a
difference may not exist.  So each such operation is put beside one that refuses to go out of range,
and whatever is built from these never refuses, on any function: blocks may be empty or missing,
keys may be anything, branches may lead nowhere.

* `subtract?`, `alterAt?`, `Worklist.take?`: operations that refuse.
* `Function.steps?`: the steps of execution, with the last index of a block as a difference.
* `Tables`, `Tables.link?`, `Tables.Lists`: tables of neighbours, filled link by link; `Lists.link`,
  `Lists.linkAll`: one link finds its rows, and so do all.
* `Liveness.mergePoint?`: the start of a block as a difference.
* `Run.step?`, `Run.advance?`: visits with these operations; `Run.step?_eq`, `Run.advance?_eq`: one
  visit goes through, and so do all.
* `solve_inRange`: all of it for every function.
-/

namespace Dataflow

/-! ## Operations that refuse -/

/-- The difference of two numbers, if there is one. -/
def subtract? (a b : Nat) : Option Nat :=
  if b ≤ a then some (a - b) else none

/-- Changes the element at an index, if it is there. -/
def alterAt? {α : Type} (a : Array α) (index : Nat) (change : α → α) : Option (Array α) :=
  if index < a.size then some (a.modify index change) else none

/-! ## Steps of execution -/

namespace Function

/-- The steps of a block.  Its last instruction is found by a difference, its successors under its
key. -/
def blockSteps? (f : Function) (e : BlockId × Block) : Option (List Edge) :=
  match f.firstIndex? e.1 with
  | none => some []
  | some start => do
    let last ← subtract? (start + e.2.instructions.length) 1
    let inner := (List.range' start (last - start)).map fun index =>
      ⟨.inst index, .inst (index + 1)⟩
    let targets := f.successorsOf e.1
    let leaving := if targets.isEmpty then [⟨.inst last, .exit⟩]
      else (targets.filterMap f.firstIndex?).map fun target => ⟨.inst last, .inst target⟩
    return inner ++ leaving

/-- The steps of execution: into the entry block, then block by block. -/
def steps? (f : Function) : Option (List Edge) := do
  let own ← f.blocks.entries.mapM f.blockSteps?
  return ((f.firstIndex? f.entry).map fun first => ⟨.entry, .inst first⟩).toList ++ own.flatten

variable {f : Function}

/-- The listed steps of one block. -/
def ownEdges (f : Function) (start : Nat) (b : Block) : List Edge :=
  if b.instructions.length = 0 then []
  else innerEdges start b.instructions.length ++
    f.leavingEdges (start + b.instructions.length - 1) b

/-- A block that has a first index is not empty, so it has a last one. -/
theorem Starts.blockSteps?_eq {key : BlockId} {b : Block} {start : Nat} (h : f.Starts key b start) :
    f.blockSteps? (key, b) = some (f.ownEdges start b) := by
  by_cases hempty : b.instructions = []
  · have hnone : f.firstIndex? key = none := by
      rw [Option.eq_none_iff_forall_ne_some]
      intro first hfirst
      obtain ⟨b', hstarts, hne⟩ := firstIndex?_iff.1 hfirst
      rw [(h.unique hstarts).1] at hempty
      exact hne hempty
    simp [blockSteps?, ownEdges, hnone, hempty]
  · have hpos := List.length_pos_iff.2 hempty
    have hfirst : f.firstIndex? key = some start := firstIndex?_iff.2 ⟨b, h, hempty⟩
    have hlast : subtract? (start + b.instructions.length) 1 =
        some (start + b.instructions.length - 1) := if_pos (by omega)
    have hinner : start + b.instructions.length - 1 - start = b.instructions.length - 1 := by omega
    have htargets : f.successorsOf key = b.successors := successorsOf_of_get? h.get?
    rw [ownEdges, if_neg (by omega)]
    simp only [blockSteps?, hfirst, hlast, htargets, Option.bind_eq_bind, Option.bind_some, hinner,
      innerEdges, leavingEdges, List.range'_eq_map_range, List.map_map]
    rfl

theorem mapM_blockSteps? {before rest : List (BlockId × Block)}
    (h : f.blocks.entries = before ++ rest) :
    ∃ parts, rest.mapM f.blockSteps? = some parts ∧
      parts.flatten = f.blockEdges (before.flatMap fun e => e.2.instructions).length
        (rest.map Prod.snd) := by
  -- the blocks before are kept, as the index at which a block starts counts them
  induction rest generalizing before with
  | nil => exact ⟨[], rfl, rfl⟩
  | cons e rest ih =>
    obtain ⟨key, b⟩ := e
    have hstarts : f.Starts key b (before.flatMap fun e => e.2.instructions).length :=
      ⟨before, rest, h, rfl⟩
    have hentries : f.blocks.entries = (before ++ [(key, b)]) ++ rest := by
      rw [h, List.append_assoc]
      rfl
    obtain ⟨parts, hparts, hflatten⟩ := ih hentries
    refine ⟨f.ownEdges (before.flatMap fun e => e.2.instructions).length b :: parts, ?_, ?_⟩
    · rw [List.mapM_cons, hstarts.blockSteps?_eq, hparts]
      rfl
    · rw [List.flatten_cons, hflatten, List.flatMap_append, List.length_append]
      simp only [List.flatMap_cons, List.flatMap_nil, List.append_nil]
      rfl

/-- **The steps of execution are found without a difference that does not exist.** -/
theorem steps?_eq (f : Function) : f.steps? = some f.flowEdges := by
  have hentries : f.blocks.entries = [] ++ f.blocks.entries := rfl
  obtain ⟨parts, hparts, hflatten⟩ := mapM_blockSteps? hentries
  rw [steps?, hparts]
  show some (_ ++ parts.flatten) = some f.flowEdges
  rw [hflatten]
  rfl

end Function

/-! ## Tables of neighbours -/

/-- Neighbours of the instructions, one row each, and those of the outside. -/
structure Tables where
  outgoing : Array (List Node)
  incoming : Array (List Node)
  boundary : List Nat

namespace Tables

/-- Tables with empty rows. -/
def ofSize (size : Nat) : Tables where
  outgoing := Array.replicate size []
  incoming := Array.replicate size []
  boundary := []

/-- Adds a neighbour to the row of a node; only instructions have rows. -/
def addTo? (rows : Array (List Node)) (node neighbour : Node) : Option (Array (List Node)) :=
  match node with
  | .inst index => alterAt? rows index (appendNew · neighbour)
  | _ => some rows

/-- Links two nodes. -/
def link? (t : Tables) (e : Edge) : Option Tables := do
  let outgoing ← addTo? t.outgoing e.src e.dst
  let incoming ← addTo? t.incoming e.dst e.src
  let boundary := match e.src, e.dst with
    | .entry, .inst index => appendNew t.boundary index
    | _, _ => t.boundary
  return { outgoing, incoming, boundary }

/-- The tables of a function in one direction. -/
def build? (f : Function) (direction : Direction) : Option Tables := do
  let steps ← f.steps?
  (steps.map (Edge.along direction)).foldlM link? (ofSize f.sites.length)

/-- The rows of the tables are the lists of neighbours, for a number of instructions. -/
structure Lists (t : Tables) (size : Nat) (a : Adjacency) : Prop where
  outgoing : t.outgoing.toList = (List.range size).map a.outgoing
  incoming : t.incoming.toList = (List.range size).map a.incoming
  boundary : t.boundary = a.boundary

theorem lists_ofSize (size : Nat) : (ofSize size).Lists size .empty where
  outgoing := by simp [ofSize, Adjacency.empty]
  incoming := by simp [ofSize, Adjacency.empty]
  boundary := rfl

/-- The row of a node that is in bounds is there, and no other row changes. -/
theorem exists_addTo? {rows : Array (List Node)} {size : Nat} {view : Nat → List Node} {node : Node}
    (h : rows.toList = (List.range size).map view) (hbelow : node.Below size) (neighbour : Node) :
    ∃ rows', addTo? rows node neighbour = some rows' ∧
      rows'.toList = (List.range size).map fun index =>
        if node = .inst index then appendNew (view index) neighbour else view index := by
  cases node with
  | entry => exact ⟨rows, rfl, by simpa using h⟩
  | exit => exact ⟨rows, rfl, by simpa using h⟩
  | inst index =>
    have hsize : rows.size = size := by
      rw [← Array.length_toList, h, List.length_map, List.length_range]
    have hindex : index < rows.size := hsize ▸ hbelow index rfl
    refine ⟨rows.modify index (appendNew · neighbour), if_pos hindex, ?_⟩
    rw [Array.toList_modify, h]
    refine List.ext_getElem? fun other => ?_
    rw [List.getElem?_modify, List.getElem?_map, List.getElem?_map]
    -- rows out of bounds are there on neither side
    by_cases hother : other < size
    · simp only [List.getElem?_range hother, Option.map_some, Node.inst.injEq]
      split
      · rfl
      · rfl
    · rw [List.getElem?_eq_none (by simpa using hother)]
      simp

variable {t : Tables} {size : Nat} {a : Adjacency}

/-- **One link finds its rows**, and the tables go on listing the neighbours. -/
theorem Lists.link (h : t.Lists size a) {e : Edge} (hsrc : e.src.Below size)
    (hdst : e.dst.Below size) :
    ∃ t', t.link? e = some t' ∧ t'.Lists size (a.link e) := by
  obtain ⟨outgoing, hout, houtgoing⟩ := exists_addTo? h.outgoing hsrc e.dst
  obtain ⟨incoming, hin, hincoming⟩ := exists_addTo? h.incoming hdst e.src
  have hlink : t.link? e = some ⟨outgoing, incoming, (a.link e).boundary⟩ := by
    rw [link?, hout, hin, h.boundary]
    rfl
  exact ⟨_, hlink, houtgoing, hincoming, rfl⟩

theorem Lists.linkAll (h : t.Lists size a) {edges : List Edge}
    (hbelow : ∀ e ∈ edges, e.src.Below size ∧ e.dst.Below size) :
    ∃ t', edges.foldlM link? t = some t' ∧ t'.Lists size (edges.foldl Adjacency.link a) := by
  induction edges generalizing t a with
  | nil => exact ⟨t, rfl, h⟩
  | cons e edges ih =>
    obtain ⟨hsrc, hdst⟩ := hbelow e List.mem_cons_self
    obtain ⟨t', ht', hlists⟩ := h.link hsrc hdst
    obtain ⟨t'', ht'', hlists'⟩ := ih hlists fun e he => hbelow e (List.mem_cons_of_mem _ he)
    refine ⟨t'', ?_, hlists'⟩
    rw [List.foldlM_cons, ht']
    exact ht''

/-- **The tables of a function are built without a row that is not there**, and list what its graph
shows. -/
theorem exists_build? (f : Function) (direction : Direction) :
    ∃ t, build? f direction = some t ∧
      t.Lists (Graph.build f direction).size (Graph.build f direction).adjacency := by
  have hbelow : ∀ e ∈ f.flowEdges.map (Edge.along direction), e.src.Below f.sites.length ∧
      e.dst.Below f.sites.length := by
    intro e he
    refine (Graph.build_wellLinked f direction).below e ?_
    rw [Graph.links_build]
    exact List.mem_eraseDups.2 he
  obtain ⟨t, ht, hlists⟩ := (lists_ofSize f.sites.length).linkAll hbelow
  refine ⟨t, ?_, ?_⟩
  · rw [build?, f.steps?_eq]
    exact ht
  · rw [Graph.foldl_link (Graph.build f direction), ← Graph.links_build] at hlists
    exact hlists

end Tables

/-! ## Visits -/

/-- Takes the index that has waited longest, and clears its flag.  Without an index there is nothing
to clear. -/
def Worklist.take? (w : Worklist) : Option (Option (Nat × Worklist)) :=
  match w.queue with
  | [] => some none
  | index :: queue => do
    let pending ← alterAt? w.pending index fun _ => false
    return some (index, { queue, pending })

/-- The flag of an index that waits is there. -/
theorem Worklist.Valid.take?_eq {w : Worklist} {size : Nat} (h : w.Valid size) :
    w.take? = some w.pop? := by
  rw [take?, pop?]
  cases hqueue : w.queue with
  | nil => rfl
  | cons index rest =>
    have hindex : index < w.pending.size := by
      rw [h.size_pending]
      exact h.lt_size (hqueue ▸ List.mem_cons_self)
    have hflags : w.pending.modify index (fun _ => false) =
        w.pending.setIfInBounds index false := by
      refine Array.ext_getElem? fun other => ?_
      rw [Array.getElem?_modify, Array.getElem?_setIfInBounds]
      split
      · subst_vars
        simp [hindex]
      · rfl
    have halter : alterAt? w.pending index (fun _ => false) =
        some (w.pending.setIfInBounds index false) := by
      rw [← hflags]
      exact if_pos hindex
    simp only [halter]
    rfl

section Visits

variable {F : Type} [JoinLattice F] [DecidableEq F]

/-- One visit to an instruction, with a flow that may refuse. -/
def visit? (transfer? : Visit → F → Option (Outgoing F)) (g : Graph) (store : EdgeStore F)
    (index : Nat) :
    Option (EdgeStore F × List Edge) :=
  match g.instruction? index with
  | none => some (store, [])
  | some inst => do
    let result ← transfer? ⟨g, index, inst⟩ (arriving g store index)
    return writeAll store (assignments g index result)

/-- The flow does not refuse on a graph. -/
def NeverRefuses (transfer? : Visit → F → Option (Outgoing F)) (flow : Flow F) (g : Graph) : Prop :=
  ∀ index inst fact, g.instruction? index = some inst →
    transfer? ⟨g, index, inst⟩ fact = some (flow.transfer ⟨g, index, inst⟩ fact)

variable {transfer? : Visit → F → Option (Outgoing F)} {flow : Flow F} {g : Graph}

theorem visit?_eq (h : NeverRefuses transfer? flow g) (store : EdgeStore F) (index : Nat) :
    visit? transfer? g store index = some (visitNode flow g store index) := by
  rw [visit?, visitNode, leaving?]
  cases hinst : g.instruction? index with
  | none => rfl
  | some inst =>
    simp only [h index inst _ hinst]
    rfl

namespace Run

/-- Visits the instruction that has waited longest. -/
def step? (transfer? : Visit → F → Option (Outgoing F)) (g : Graph) (run : Run F) :
    Option (Run F) := do
  match ← run.worklist.take? with
  | none => return run
  | some (index, worklist) =>
    let (store, changed) ← visit? transfer? g run.store index
    return { store, worklist := worklist.pushMany (changed.filterMap (·.dst.index?)),
             stats := run.stats.add ⟨1, changed.length⟩ }

/-- Visits until nothing waits, but at most a number of times. -/
def advance? (transfer? : Visit → F → Option (Outgoing F)) (g : Graph) :
    Nat → Run F → Option (Run F)
  | 0, run => some run
  | n + 1, run => if run.worklist.isEmpty then some run
    else run.step? transfer? g >>= advance? transfer? g n

/-- **One visit goes through.** -/
theorem step?_eq (h : NeverRefuses transfer? flow g) {run : Run F} {size : Nat}
    (hvalid : run.worklist.Valid size) :
    run.step? transfer? g = some (run.step flow g) := by
  rw [step?, hvalid.take?_eq, step]
  cases run.worklist.pop? with
  | none => rfl
  | some next =>
    simp only [Option.bind_eq_bind, Option.bind_some, visit?_eq h]
    rfl

/-- **All visits go through**, however many there are. -/
theorem advance?_eq (h : NeverRefuses transfer? flow g) (n : Nat) {run : Run F}
    (hvalid : run.worklist.Valid g.size) :
    run.advance? transfer? g n = some (run.advance flow g n) := by
  induction n generalizing run with
  | zero => rfl
  | succ n ih =>
    rw [advance?, advance]
    split
    · rfl
    · rename_i hwaits
      obtain ⟨index, rest, hpop⟩ := Worklist.exists_pop_of_not_isEmpty (Bool.eq_false_iff.2 hwaits)
      rw [step?_eq h hvalid]
      exact ih (valid_step hvalid hpop)

end Run

/-- The solver's run after a number of visits, with a flow that may refuse. -/
def Engine.after? (e : Engine F) (transfer? : Visit → F → Option (Outgoing F)) (visits : Nat) :
    Option (Run F) :=
  e.seed.advance? transfer? e.graph visits

theorem Engine.after?_eq {e : Engine F} (h : NeverRefuses transfer? e.flow e.graph) (visits : Nat) :
    e.after? transfer? visits = some (e.after visits) :=
  Run.advance?_eq h visits e.valid_seed

end Visits

/-! ## Phis -/

namespace Liveness

/-- What is live before a phi of a block that starts at an index. -/
def mergeFrom (v : Visit) (fact : IndexSet) (block : Block) (start : Nat) : Outgoing IndexSet :=
  let killed := (phiIndices start block).foldl SortedSet.erase fact
  .perEdge (v.outgoing.map fun dst =>
    match originOf? v.graph dst with
    | some origin => killed.insertMany (takenFrom v.graph block origin)
    | none => killed)

/-- What is live before a phi.  The start of its block is found by a difference. -/
def mergePoint? (v : Visit) (fact : IndexSet) : Option (Outgoing IndexSet) :=
  match v.graph.blockOf? v.index, v.graph.site? v.index with
  | some block, some site => do
    let start ← subtract? v.index site.position
    return mergeFrom v fact block start
  | _, _ => some (.uniform fact)

/-- What is live before an instruction. -/
def transfer? (v : Visit) (fact : IndexSet) : Option (Outgoing IndexSet) :=
  match LiveCategory.classify v.inst.opcode with
  | .mergePoint => mergePoint? v fact
  | .valueProducing | .effect => some (transfer v fact)

/-- An instruction stands no further down in its block than its index says. -/
theorem mergePoint?_eq (f : Function) (direction : Direction) (index : Nat) (inst : Instruction)
    (fact : IndexSet) :
    mergePoint? ⟨Graph.build f direction, index, inst⟩ fact =
      some (mergePoint ⟨Graph.build f direction, index, inst⟩ fact) := by
  unfold mergePoint? mergePoint
  cases hsite : (Graph.build f direction).site? index with
  | none =>
    have hblock : (Graph.build f direction).blockOf? index = none := by
      rw [Graph.blockOf?, hsite]
      rfl
    simp only [hblock]
  | some site =>
    obtain ⟨block, hblock, -, hposition, -⟩ := Graph.exists_block hsite
    simp only [hblock, subtract?, if_pos hposition]
    rfl

theorem neverRefuses (f : Function) (direction : Direction) :
    NeverRefuses transfer? { flow with direction } (Graph.build f direction) := by
  intro index inst fact _
  show transfer? _ fact = some (transfer _ fact)
  cases hcategory : LiveCategory.classify inst.opcode with
  | mergePoint =>
    simp only [transfer?, transfer, hcategory]
    exact mergePoint?_eq f direction index inst fact
  | valueProducing => simp only [transfer?, hcategory]
  | effect => simp only [transfer?, hcategory]

end Liveness

/-- **Nothing is out of range, in any function.**  In both directions the tables of neighbours are
built with every row and every difference in place, and are the lists of the graph.  Every index
below the number of instructions has a place, an instruction and a block, and the block holds the
instruction at that place.  With each of the three analyses, and in both directions, every visit
goes through, however many there are. -/
theorem solve_inRange (f : Function) (direction : Direction) :
    (∃ t, Tables.build? f direction = some t ∧
      t.outgoing.toList = (List.range (Graph.build f direction).size).map
        (Graph.build f direction).outgoing ∧
      t.incoming.toList = (List.range (Graph.build f direction).size).map
        (Graph.build f direction).incoming ∧
      t.boundary = (Graph.build f direction).boundary) ∧
    (∀ index < (Graph.build f direction).size, ∃ site block,
      (Graph.build f direction).site? index = some site ∧
      (Graph.build f direction).instruction? index = some site.inst ∧
      (Graph.build f direction).blockOf? index = some block ∧
      block.instructions[site.position]? = some site.inst) ∧
    ∀ visits,
      (Engine.start { Reaching.flow with direction } f).after?
        (fun v fact => some (Reaching.transfer v fact)) visits =
        some ((Engine.start { Reaching.flow with direction } f).after visits) ∧
      (Engine.start { Liveness.flow with direction } f).after? Liveness.transfer? visits =
        some ((Engine.start { Liveness.flow with direction } f).after visits) ∧
      (Engine.start { MayPointTo.flow with direction } f).after?
        (fun v fact => some (MayPointTo.transfer v fact)) visits =
        some ((Engine.start { MayPointTo.flow with direction } f).after visits) := by
  refine ⟨?_, fun index hindex => ?_, fun visits => ⟨?_, ?_, ?_⟩⟩
  · obtain ⟨t, ht, hlists⟩ := Tables.exists_build? f direction
    exact ⟨t, ht, hlists.outgoing, hlists.incoming, hlists.boundary⟩
  · obtain ⟨site, hsite⟩ := Graph.exists_site hindex
    obtain ⟨block, hblock, hinst, -⟩ := Graph.exists_block hsite
    exact ⟨site, block, hsite, Graph.instruction?_of_site hsite, hblock, hinst⟩
  · exact Engine.after?_eq (fun _ _ _ _ => rfl) visits
  · exact Engine.after?_eq (Liveness.neverRefuses f direction) visits
  · exact Engine.after?_eq (fun _ _ _ _ => rfl) visits

end Dataflow
