import Dataflow.Graph.BlockGraph
import Dataflow.Graph.Edge

/-!
# The graph of instructions

Instructions are numbered in block order and then program order, and linked in the direction in
which facts travel.

* `Site`: an instruction with its place.
* `indexSites`: the index of each instruction, by its number.
* `Function.flowEdges`: the steps of execution.
* `Graph`: the numbering and the links of one function in one direction.
* `Graph.incoming`, `outgoing`, `boundary`, `edges`: views of the links.
-/

namespace Dataflow

/-- An instruction with the key of its block and its position there. -/
structure Site where
  block : BlockId
  position : Nat
  inst : Instruction
deriving DecidableEq

/-- The index of each instruction, by its number.  Of two instructions with one number the first
counts. -/
def indexSites (sites : List Site) : Dict InstId Nat :=
  sites.zipIdx.foldl (fun indices e => indices.alter e.1.inst.id (·.getD e.2)) .empty

namespace Function

/-- All instructions with their places; the index of an instruction is its position in this list. -/
def sites (f : Function) : List Site :=
  f.blocks.entries.flatMap fun e => e.2.instructions.mapIdx fun position inst =>
    { block := e.1, position, inst }

/-- Index of the first instruction of a block, in blocks whose first instruction has a given index.
An empty or missing block has none. -/
def firstIndexIn (block : BlockId) : Nat → List (BlockId × Block) → Option Nat
  | _, [] => none
  | start, (key, b) :: rest =>
    if key = block then (if b.instructions.isEmpty then none else some start)
    else firstIndexIn block (start + b.instructions.length) rest

/-- Index of the first instruction of a block. -/
def firstIndex? (f : Function) (block : BlockId) : Option Nat :=
  firstIndexIn block 0 f.blocks.entries

/-- Steps inside a block of `size` instructions whose first one has index `start`. -/
def innerEdges (start size : Nat) : List Edge :=
  (List.range (size - 1)).map fun k => ⟨.inst (start + k), .inst (start + k + 1)⟩

/-- Steps out of a block whose last instruction has index `last`.  A branch into a missing or empty
block leads nowhere; without any branch the step leads to the exit. -/
def leavingEdges (f : Function) (last : Nat) (b : Block) : List Edge :=
  if b.successors.isEmpty then [⟨.inst last, .exit⟩]
  else (b.successors.filterMap f.firstIndex?).map fun target => ⟨.inst last, .inst target⟩

/-- Steps of the blocks from an index on. -/
def blockEdges (f : Function) : Nat → List Block → List Edge
  | _, [] => []
  | start, b :: rest =>
    let size := b.instructions.length
    let own := if size = 0 then [] else innerEdges start size ++ f.leavingEdges (start + size - 1) b
    own ++ f.blockEdges (start + size) rest

/-- The steps of execution: into the entry block, then block by block. -/
def flowEdges (f : Function) : List Edge :=
  ((f.firstIndex? f.entry).map fun first => ⟨.entry, .inst first⟩).toList ++
    f.blockEdges 0 f.blocks.values

end Function

/-- The instructions of a function, linked in one direction. -/
structure Graph where
  function : Function
  direction : Direction
  sites : List Site
  indices : Dict InstId Nat
  indices_eq : indices = indexSites sites
  /-- Every edge once, in the order of the steps of execution. -/
  links : List Edge

namespace Graph

/-- The graph of a function.  Against the direction of execution every step is reversed. -/
def build (f : Function) (direction : Direction) : Graph where
  function := f
  direction := direction
  sites := f.sites
  indices := indexSites f.sites
  indices_eq := rfl
  links :=
    match direction with
    | .forward => f.flowEdges.eraseDups
    | .backward => (f.flowEdges.map Edge.reversed).eraseDups

/-- Number of instructions. -/
def size (g : Graph) : Nat :=
  g.sites.length

/-- The place of an instruction. -/
def site? (g : Graph) (index : Nat) : Option Site :=
  g.sites[index]?

/-- The instruction with an index. -/
def instruction? (g : Graph) (index : Nat) : Option Instruction :=
  (g.site? index).map Site.inst

/-- The block that an instruction stands in. -/
def blockOf? (g : Graph) (index : Nat) : Option Block :=
  (g.site? index).bind fun site => g.function.blocks.get? site.block

/-- Index of the first instruction with a number. -/
def indexOf? (g : Graph) (id : InstId) : Option Nat :=
  g.indices.get? id

/-- Index of the instruction whose result an operand is. -/
def operandIndex? (g : Graph) (operand : Operand) : Option Nat :=
  operand.inst?.bind g.indexOf?

/-- Nodes that feed an instruction. -/
def incoming (g : Graph) (index : Nat) : List Node :=
  (g.links.filter (·.dst = .inst index)).map Edge.src

/-- Nodes that an instruction feeds. -/
def outgoing (g : Graph) (index : Nat) : List Node :=
  (g.links.filter (·.src = .inst index)).map Edge.dst

/-- Instructions that are fed from outside. -/
def boundary (g : Graph) : List Nat :=
  (g.links.filter Edge.isBoundary).filterMap (·.dst.index?)

/-- Every edge: those from outside first, then by the index of the source. -/
def edges (g : Graph) : List Edge :=
  g.boundary.map (fun index => ⟨.entry, .inst index⟩) ++
    (List.range g.size).flatMap fun index => (g.outgoing index).map fun dst => ⟨.inst index, dst⟩

/-- Number of edges. -/
def edgeCount (g : Graph) : Nat :=
  g.boundary.length + ((List.range g.size).flatMap g.outgoing).length

end Graph

end Dataflow
