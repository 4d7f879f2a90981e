import Dataflow.Codec.Decode
import Dataflow.Fact.IndexSet
import Dataflow.Fact.PointsTo
import Dataflow.Graph.Edge

/-!
# Edges and facts as JSON

* `Node.toJson`, `Edge.toJson`, `Cell.toJson` and their readers: nodes and cells are texts.
* `IndexSet.ofJson`, `PointsTo.ofJson`: readers of facts.
* `FactCodec`: a type of facts that can be read.
-/

namespace Dataflow

/-- The word for a direction, as JSON. -/
def Direction.toJson (d : Direction) : Json :=
  .str d.text

/-- Reads a direction. -/
def Direction.ofJson : Decoder Direction := fun v => do
  match (← Decoder.plainAlternative v) with
  | "forward" => return .forward
  | "backward" => return .backward
  | _ => .error .mismatch

/-- A node as JSON. -/
def Node.toJson (n : Node) : Json :=
  .str n.text

/-- Reads a node. -/
def Node.ofJson : Decoder Node := fun v => do
  let text ← Decoder.string v
  match Node.ofText? text with
  | some node => return node
  | none => .error (.node text)

namespace Edge

/-- An edge as JSON. -/
def toJson (e : Edge) : Json :=
  .obj [("src", e.src.toJson), ("dst", e.dst.toJson)]

/-- Reads an edge.  Named ends are read in the order of their names, listed ones in the order of the
list, and only then does it matter that nothing else is listed. -/
def ofJson : Decoder Edge
  | .arr items => do
    let ends ← (items.take 2).mapM Node.ofJson
    match ends, items with
    | [src, dst], [_, _] => return { src, dst }
    | _, _ => .error .mismatch
  | .obj fields => do
    let dst ← (fields.lookup "dst").mapM Node.ofJson
    let src ← (fields.lookup "src").mapM Node.ofJson
    match src, dst with
    | some src, some dst => return { src, dst }
    | _, _ => .error .mismatch
  | _ => .error .mismatch

end Edge

namespace Cell

/-- A cell as JSON. -/
def toJson (c : Cell) : Json :=
  .str c.text

/-- Reads a cell from its written form. -/
def ofText (text : String) : Except DecodeError Cell :=
  match read text with
  | .ok cell => .ok cell
  | .error e => .error (.cell e)

/-- Reads a cell. -/
def ofJson : Decoder Cell := fun v => do
  ofText (← Decoder.string v)

end Cell

/-- Reads a set of indices; order and repeats do not matter. -/
def IndexSet.ofJson : Decoder IndexSet := fun v => do
  let indices ← Decoder.list Decoder.word64 v
  return .ofList indices

/-- Reads a points-to fact.  An empty list of targets makes an entry too. -/
def PointsTo.ofJson : Decoder PointsTo
  | .obj fields => do
    let entries ← fields.mapM fun (key, v) => do
      let cell ← Cell.ofText key
      let targets ← Decoder.list Cell.ofJson v
      return (cell, SortedSet.ofList targets)
    return { map := .ofList entries }
  | _ => .error .mismatch

/-- A type of facts that can be read. -/
class FactCodec (F : Type) where
  ofJson : Decoder F

instance : FactCodec IndexSet := ⟨IndexSet.ofJson⟩

instance : FactCodec PointsTo := ⟨PointsTo.ofJson⟩

end Dataflow
