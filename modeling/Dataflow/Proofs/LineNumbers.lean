import Mathlib.Data.List.NodupEquivFin
import Mathlib.Order.Bounds.Basic
import Dataflow.Analysis.Liveness
import Dataflow.Proofs.Renumbering
import Dataflow.Proofs.TypeText
import Dataflow.Report.Basic

/-!
# One numbering

Instructions are numbered in several places: in the graph, in the rows and the facts of a result, in
a listing and in a report.  Each of them counts on its own, and what one says about a number is put
beside what another says about it.  So all of them must number alike, also where blocks are empty or
kept under other keys than their numbers, and where numbers of instructions are used twice.

* `Function.Place`: an instruction at its position in a block, with the blocks around it.
* `Place.index`, `Place.row`: its index and its row.
* `Place.headingLine`, `Place.line`: the lines of a listing for the label of its block and for
  itself.
* `Function.lt_instructionCount_iff`: the indices are those of places.
* `Graph.map_some_rows`: no row is left out.
* `Function.exists_blockLines_eq`: where the lines of a block stand in a listing.
* `markOf?`, `marks`: the numbered lines of a text, as a reader finds them; `Function.Legible`: they
  can be found.
* `Graph.indexOf?_eq_some_iff`: the index of a number is the least one.
* `mapIdx_factLine`: the lines of a report.
* `analyzeFunction_numbering`: **the graph, the result, the listing and the report have one
  numbering.**
-/

namespace Dataflow

/-- An instruction at its position in a block of a function, with the blocks before and after. -/
structure Function.Place (f : Function) where
  before : List (BlockId × Block)
  key : BlockId
  block : Block
  after : List (BlockId × Block)
  position : Nat
  inst : Instruction
  entries_eq : f.blocks.entries = before ++ (key, block) :: after
  getElem?_position : block.instructions[position]? = some inst

namespace Function.Place

variable {f : Function}

/-- Number of instructions in the blocks before. -/
def start (p : f.Place) : Nat :=
  (p.before.flatMap fun e => e.2.instructions).length

/-- Number of instructions before this one. -/
def index (p : f.Place) : Nat :=
  p.start + p.position

/-- The line of a listing with the label of the block: the signature comes first, and each block
before has a line for its label and an empty line after it. -/
def headingLine (p : f.Place) : Nat :=
  1 + (p.start + 2 * p.before.length)

/-- The line of a listing with the instruction. -/
def line (p : f.Place) : Nat :=
  p.headingLine + (1 + p.position)

/-- The row of the instruction. -/
def row (p : f.Place) : Row where
  index := p.index
  id := p.inst.id
  name := p.inst.name
  block := p.block.label
  opcode := p.inst.opcode
  text := f.instructionText p.inst

/-! ## Places and indices -/

theorem starts (p : f.Place) : f.Starts p.key p.block p.start :=
  ⟨p.before, p.after, p.entries_eq, rfl⟩

theorem getElem?_sites (p : f.Place) : f.sites[p.index]? = some ⟨p.key, p.position, p.inst⟩ :=
  getElem?_sites_iff.2 ⟨p.block, p.start, p.starts, p.getElem?_position, rfl⟩

theorem getElem?_instructions (p : f.Place) : f.instructions[p.index]? = some p.inst := by
  rw [← map_inst_sites, List.getElem?_map, p.getElem?_sites]
  rfl

end Function.Place

namespace Function

variable {f : Function}

theorem length_instructions (f : Function) : f.instructions.length = f.instructionCount := by
  have hcount : ∀ (blocks : List Block) (count : Nat),
      blocks.foldl (fun count b => count + b.instructions.length) count =
        count + (blocks.flatMap Block.instructions).length := by
    intro blocks
    induction blocks with
    | nil => exact fun _ => rfl
    | cons b blocks ih =>
      intro count
      rw [List.foldl_cons, ih, List.flatMap_cons, List.length_append, Nat.add_assoc]
  exact ((hcount _ 0).trans (Nat.zero_add _)).symm

theorem length_sites (f : Function) : f.sites.length = f.instructionCount := by
  rw [← length_instructions, ← map_inst_sites, List.length_map]

theorem exists_place {k : Nat} (h : k < f.instructionCount) : ∃ p : f.Place, p.index = k := by
  rw [← length_sites] at h
  obtain ⟨b, start, ⟨before, after, hentries, rfl⟩, hinst, hindex⟩ :=
    getElem?_sites_iff.1 (List.getElem?_eq_getElem h)
  exact ⟨⟨before, _, b, after, _, _, hentries, hinst⟩, hindex.symm⟩

theorem lt_instructionCount_iff {k : Nat} :
    k < f.instructionCount ↔ ∃ p : f.Place, p.index = k := by
  refine ⟨exists_place, ?_⟩
  rintro ⟨p, rfl⟩
  rw [← length_instructions]
  exact (List.getElem?_eq_some_iff.1 p.getElem?_instructions).1

end Function

/-! ## Rows -/

namespace Graph

variable {f : Function} {direction : Direction}

theorem size_build (f : Function) (direction : Direction) :
    (build f direction).size = f.instructionCount :=
  f.length_sites

theorem site?_place (p : f.Place) :
    (build f direction).site? p.index = some ⟨p.key, p.position, p.inst⟩ :=
  p.getElem?_sites

theorem instruction?_place (p : f.Place) : (build f direction).instruction? p.index = some p.inst :=
  instruction?_of_site (site?_place p)

theorem row?_place (p : f.Place) : (build f direction).row? p.index = some p.row := by
  have hblock : (build f direction).blockOf? p.index = some p.block := by
    rw [blockOf?, site?_place p]
    exact p.starts.get?
  rw [row?, instruction?_place p, hblock]
  rfl

/-- **No row is left out**: the block of every instruction is found. -/
theorem map_some_rows (f : Function) (direction : Direction) :
    (build f direction).rows.map some =
      (List.range f.instructionCount).map (build f direction).row? := by
  have hall : ∀ l : List Nat, (∀ k ∈ l, k < f.instructionCount) →
      (l.filterMap (build f direction).row?).map some = l.map (build f direction).row? := by
    intro l hl
    induction l with
    | nil => rfl
    | cons k rest ih =>
      obtain ⟨p, rfl⟩ := Function.exists_place (hl k List.mem_cons_self)
      rw [List.filterMap_cons_some (row?_place p), List.map_cons, List.map_cons, row?_place p,
        ih fun j hj => hl j (List.mem_cons_of_mem _ hj)]
  rw [rows, size_build]
  exact hall _ fun k hk => List.mem_range.1 hk

theorem length_rows (f : Function) (direction : Direction) :
    (build f direction).rows.length = f.instructionCount := by
  have hlength := congrArg List.length (map_some_rows f direction)
  rwa [List.length_map, List.length_map, List.length_range] at hlength

theorem getElem?_rows (p : f.Place) : (build f direction).rows[p.index]? = some p.row := by
  have hget := congrArg (fun l : List (Option Row) => l[p.index]?) (map_some_rows f direction)
  simp only [List.getElem?_map, List.getElem?_range (Function.lt_instructionCount_iff.2 ⟨p, rfl⟩),
    Option.map_some, row?_place p] at hget
  exact Option.map_injective (Option.some_injective _) hget

/-- The rows are the instructions, each with its index and its text. -/
theorem map_rows (f : Function) (direction : Direction) :
    ((build f direction).rows.map fun row => (row.index, row.text)) =
      f.instructions.mapIdx fun k i => (k, f.instructionText i) := by
  refine List.ext_getElem? fun k => ?_
  rw [List.getElem?_map, List.getElem?_mapIdx]
  by_cases hk : k < f.instructionCount
  · obtain ⟨p, rfl⟩ := Function.exists_place hk
    rw [getElem?_rows p, p.getElem?_instructions]
    rfl
  · have hge := Nat.not_lt.1 hk
    rw [List.getElem?_eq_none (by rwa [length_rows]),
      List.getElem?_eq_none (by rwa [f.length_instructions])]
    rfl

end Graph

/-! ## Lines of a listing -/

namespace Function

variable {f : Function}

/-- The lines of a block whose first instruction has an index. -/
def ownLines (f : Function) (start : Nat) (b : Block) : List String :=
  (b.label ++ ":") :: b.instructions.mapIdx fun k i => f.numberedText (start + k) i

theorem length_ownLines (f : Function) (start : Nat) (b : Block) :
    (f.ownLines start b).length = b.instructions.length + 1 := by
  rw [ownLines, List.length_cons, List.length_mapIdx]

theorem blockLines_cons (f : Function) (start : Nat) (b : Block) (rest : List Block) :
    f.blockLines start (b :: rest) = f.ownLines start b ++
      if rest = [] then [] else "" :: f.blockLines (start + b.instructions.length) rest := by
  cases rest with
  | nil => exact (List.append_nil _).symm
  | cons next rest => rfl

/-- **Where the lines of a block stand**: every block before adds two lines to those of its
instructions. -/
theorem exists_blockLines_eq (f : Function) (start : Nat) (before : List Block) (b : Block)
    (after : List Block) :
    ∃ lead more, f.blockLines start (before ++ b :: after) =
        lead ++ (f.ownLines (start + (before.flatMap Block.instructions).length) b ++ more) ∧
      lead.length = (before.flatMap Block.instructions).length + 2 * before.length := by
  induction before generalizing start with
  | nil => exact ⟨[], _, blockLines_cons f start b after, rfl⟩
  | cons first before ih =>
    obtain ⟨lead, more, hlines, hlead⟩ := ih (start + first.instructions.length)
    have hne : before ++ b :: after ≠ [] :=
      List.append_ne_nil_of_right_ne_nil _ (List.cons_ne_nil _ _)
    refine ⟨f.ownLines start first ++ "" :: lead, more, ?_, ?_⟩
    · rw [List.cons_append, blockLines_cons, if_neg hne, hlines, List.flatMap_cons,
        List.length_append, Nat.add_assoc]
      simp only [List.append_assoc, List.cons_append]
    · rw [List.length_append, length_ownLines, List.length_cons, hlead, List.flatMap_cons,
        List.length_append, List.length_cons]
      omega

namespace Place

/-- The lines of a listing from the line of a block's label on. -/
theorem getElem?_listingLines (p : f.Place) {k : Nat} (hk : k ≤ p.block.instructions.length) :
    f.listingLines[p.headingLine + k]? = (f.ownLines p.start p.block)[k]? := by
  have hblocks : f.blocks.values = p.before.map Prod.snd ++ p.block :: p.after.map Prod.snd := by
    rw [Dict.values, p.entries_eq, List.map_append, List.map_cons]
  obtain ⟨lead, more, hlines, hlead⟩ :=
    exists_blockLines_eq f 0 (p.before.map Prod.snd) p.block (p.after.map Prod.snd)
  have hstart : ((p.before.map Prod.snd).flatMap Block.instructions).length = p.start := by
    rw [List.flatMap_map, start]
  rw [hstart, List.length_map] at hlead
  rw [hstart, Nat.zero_add, ← hblocks] at hlines
  have hline : p.headingLine + k = lead.length + k + 1 := by
    rw [headingLine, hlead]
    omega
  have hown : k < (f.ownLines p.start p.block).length := by
    rw [length_ownLines]
    omega
  rw [listingLines, hlines, hline, List.cons_append, List.getElem?_cons_succ, List.append_assoc,
    List.append_assoc, List.getElem?_append_right (Nat.le_add_right _ _), Nat.add_sub_cancel_left,
    List.getElem?_append_left hown]

/-- The label of the block stands on its line. -/
theorem getElem?_headingLine (p : f.Place) :
    f.listingLines[p.headingLine]? = some (p.block.label ++ ":") :=
  p.getElem?_listingLines (Nat.zero_le _)

/-- **The instruction stands on its line, numbered by its index.** -/
theorem getElem?_line (p : f.Place) :
    f.listingLines[p.line]? = some (f.numberedText p.index p.inst) := by
  have hlt := (List.getElem?_eq_some_iff.1 p.getElem?_position).1
  rw [line, Nat.add_comm 1, p.getElem?_listingLines hlt, ownLines, List.getElem?_cons_succ,
    List.getElem?_mapIdx, p.getElem?_position]
  rfl

end Place

end Function

/-! ## Reading a listing -/

/-- The number and the text of a line that begins as numbered lines do. -/
def markOf? (line : String) : Option (Nat × String) :=
  match line.toList with
  | ' ' :: ' ' :: ' ' :: ' ' :: '[' :: rest =>
    match rest.dropWhile Char.isDigit with
    | ']' :: ' ' :: text => (Decimal.readNat? (rest.takeWhile Char.isDigit)).map fun n =>
      (n, String.ofList text)
    | _ => none
  | _ => none

/-- The numbers and texts of all numbered lines of a text, in order. -/
def marks (text : String) : List (Nat × String) :=
  (text.toList.splitOn '\n').filterMap fun line => markOf? (String.ofList line)

/-- Every line of the listing is one line, and no label looks like a numbered line. -/
structure Function.Legible (f : Function) : Prop where
  oneLine : ∀ line ∈ f.listingLines, '\n' ∉ line.toList
  labels : ∀ b ∈ f.blocks.values, markOf? (b.label ++ ":") = none

theorem markOf?_numberedText (f : Function) (index : Nat) (i : Instruction) :
    markOf? (f.numberedText index i) = some (index, f.instructionText i) := by
  have hdigits : ∀ c ∈ (toString index).toList, c.isDigit = true :=
    fun _ => Decimal.isDigit_of_mem_toString
  have hread : Decimal.readNat? (toString index).toList = some index := by
    rw [Decimal.readNat?, if_pos ⟨Decimal.toString_ne_nil index, List.all_eq_true.2 hdigits⟩,
      Decimal.value_toString]
  have hline : (f.numberedText index i).toList =
      ' ' :: ' ' :: ' ' :: ' ' ::
        '[' :: ((toString index).toList ++ ']' :: ' ' :: (f.instructionText i).toList) := by
    simp [Function.numberedText]
  -- the digits end at the bracket
  have htake :
      ((toString index).toList ++ ']' :: ' ' :: (f.instructionText i).toList).takeWhile
          Char.isDigit = (toString index).toList := by
    rw [List.takeWhile_append_of_pos hdigits]
    simp
  have hdrop :
      ((toString index).toList ++ ']' :: ' ' :: (f.instructionText i).toList).dropWhile
          Char.isDigit = ']' :: ' ' :: (f.instructionText i).toList := by
    rw [List.dropWhile_append_of_pos hdigits]
    simp
  simp only [markOf?, hline, hdrop, htake, hread, Option.map_some, String.ofList_toList]

/-- A line that does not begin with a blank is not numbered. -/
theorem markOf?_eq_none {line : String} (h : line.toList.head? ≠ some ' ') :
    markOf? line = none := by
  rw [markOf?]
  split
  · rename_i heq
    rw [heq] at h
    exact absurd rfl h
  · rfl

namespace Function

variable {f : Function}

theorem filterMap_markOf?_ownLines (f : Function) (start : Nat) {b : Block}
    (h : markOf? (b.label ++ ":") = none) :
    (f.ownLines start b).filterMap markOf? = b.instructions.mapIdx fun k i =>
      (start + k, f.instructionText i) := by
  rw [ownLines, List.filterMap_cons_none h, List.mapIdx_eq_zipIdx_map, List.mapIdx_eq_zipIdx_map,
    List.filterMap_map]
  simp only [Function.comp_def, markOf?_numberedText, List.filterMap_eq_map']

/-- The numbered lines of blocks are their instructions, in order. -/
theorem filterMap_markOf?_blockLines (f : Function) (start : Nat) {blocks : List Block}
    (h : ∀ b ∈ blocks, markOf? (b.label ++ ":") = none) :
    (f.blockLines start blocks).filterMap markOf? =
      (blocks.flatMap Block.instructions).mapIdx fun k i => (start + k, f.instructionText i) := by
  induction blocks generalizing start with
  | nil => rfl
  | cons b rest ih =>
    have hrest :
        (if rest = [] then []
          else "" :: f.blockLines (start + b.instructions.length) rest).filterMap markOf? =
        (f.blockLines (start + b.instructions.length) rest).filterMap markOf? := by
      split
      · rename_i heq
        rw [heq]
        rfl
      · exact List.filterMap_cons_none (markOf?_eq_none nofun)
    rw [blockLines_cons, List.filterMap_append,
      filterMap_markOf?_ownLines f start (h b List.mem_cons_self), hrest,
      ih _ fun c hc => h c (List.mem_cons_of_mem _ hc), List.flatMap_cons, List.mapIdx_append]
    simp only [Nat.add_assoc, Nat.add_comm b.instructions.length]

/-- **A reader of a legible listing finds every instruction under its index**, and nothing else. -/
theorem Legible.marks_listing (h : f.Legible) :
    marks f.listing = f.instructions.mapIdx fun k i => (k, f.instructionText i) := by
  -- without line breaks inside, splitting the listing gives back its lines
  have hsplit : ∀ lines : List String, (∀ line ∈ lines, '\n' ∉ line.toList) →
      (String.join (lines.map (· ++ "\n"))).toList.splitOn '\n' =
        lines.map String.toList ++ [[]] := by
    intro lines hlines
    induction lines with
    | nil => rfl
    | cons line rest ih =>
      have hbreak := List.splitOn_append_cons_self_of_not_mem (hlines line List.mem_cons_self)
        (String.join (rest.map (· ++ "\n"))).toList
      rw [ih fun l hl => hlines l (List.mem_cons_of_mem _ hl)] at hbreak
      simpa using hbreak
  have hsignature : markOf? f.signatureText = none := by
    refine markOf?_eq_none ?_
    simp [signatureText]
  have hlines : f.listingLines.filterMap markOf? =
      f.instructions.mapIdx fun k i => (k, f.instructionText i) := by
    rw [listingLines, List.filterMap_append, List.filterMap_cons_none hsignature,
      List.filterMap_cons_none (markOf?_eq_none (by decide)),
      filterMap_markOf?_blockLines f 0 h.labels]
    simp only [Nat.zero_add, List.filterMap_nil, List.append_nil]
    rfl
  have hlast : markOf? (String.ofList []) = none := markOf?_eq_none nofun
  rw [marks, listing, hsplit _ h.oneLine, List.filterMap_append, List.filterMap_map]
  simp only [Function.comp_def, String.ofList_toList, hlines, List.filterMap_cons, hlast,
    List.filterMap_nil, List.append_nil]

end Function

/-! ## Numbers of instructions -/

namespace Graph

variable {f : Function} {direction : Direction}

theorem indexOf?_build (f : Function) (direction : Direction) (id : InstId) :
    (build f direction).indexOf? id = (f.instructions.map Instruction.id).idxOf? id := by
  rw [indexOf?_eq_findIdx?, ← Function.map_inst_sites, List.map_map, List.idxOf?, List.findIdx?_map]
  rfl

/-- **The index of a number is the least one** whose instruction has it. -/
theorem indexOf?_eq_some_iff {id : InstId} {k : Nat} : (build f direction).indexOf? id = some k ↔
    IsLeast {k | ∃ i, f.instructions[k]? = some i ∧ i.id = id} k := by
  have hids : ∀ j : Nat, (∃ i, f.instructions[j]? = some i ∧ i.id = id) ↔
      (f.instructions.map Instruction.id)[j]? = some id := by
    intro j
    rw [List.getElem?_map, Option.map_eq_some_iff]
  rw [indexOf?_build, List.idxOf?_eq_some_iff]
  simp only [hids]
  constructor
  · rintro ⟨hlt, hid, hfirst⟩
    refine ⟨List.getElem?_eq_some_iff.2 ⟨hlt, hid⟩, fun j hj => ?_⟩
    obtain ⟨hjlt, hjid⟩ := List.getElem?_eq_some_iff.1 hj
    exact Nat.not_lt.1 fun hjk => hfirst j hjk hjid
  · rintro ⟨hid, hleast⟩
    obtain ⟨hlt, hid⟩ := List.getElem?_eq_some_iff.1 hid
    refine ⟨hlt, hid, fun j hj hsame => ?_⟩
    exact Nat.not_lt.2 (hleast (List.getElem?_eq_some_iff.2 ⟨hj.trans hlt, hsame⟩)) hj

/-- Where no number is used twice, numbers and indices correspond. -/
theorem exists_equiv_indexOf? (h : f.Numbered) (direction : Direction) :
    ∃ e : {id // id ∈ f.instructions.map Instruction.id} ≃ Fin f.instructionCount,
      ∀ id, (build f direction).indexOf? id.1 = some (e id).1 := by
  have hlength : (f.instructions.map Instruction.id).length = f.instructionCount := by
    rw [List.length_map, f.length_instructions]
  refine ⟨(List.Nodup.getEquiv _ h).symm.trans (finCongr hlength), fun id => ?_⟩
  rw [indexOf?_build, List.idxOf?, List.findIdx?_eq_some_iff_findIdx_eq]
  exact ⟨List.idxOf_lt_length_iff.2 id.2, rfl⟩

end Graph

/-! ## Results and reports -/

section

variable {F : Type} [JoinLattice F] [DecidableEq F]

theorem rows_analyzeFunction (flow : Flow F) (f : Function) :
    (analyzeFunction flow f).rows = (Graph.build f flow.direction).rows := rfl

theorem length_facts_analyzeFunction (flow : Flow F) (f : Function) :
    (analyzeFunction flow f).facts.length = f.instructionCount := by
  have hfacts : (analyzeFunction flow f).facts.length = (Graph.build f flow.direction).size := by
    rw [analyzeFunction, Engine.result, List.length_map, List.length_range]
    rfl
  rw [hfacts, Graph.size_build]

theorem exists_fact_analyzeFunction (flow : Flow F) {f : Function} (p : f.Place) :
    ∃ fact, (analyzeFunction flow f).facts[p.index]? = some fact := by
  have hlt : p.index < (analyzeFunction flow f).facts.length := by
    rw [length_facts_analyzeFunction]
    exact Function.lt_instructionCount_iff.2 ⟨p, rfl⟩
  exact ⟨_, List.getElem?_eq_getElem hlt⟩

variable [Printable F]

/-- The line of an instruction in a report, with its index, its fact and its text. -/
def annotatedLine (page : Page) (row : Row) (fact : F) : String :=
  page.line (trimEnd (page.paint (toString row.index) .brightBlue ++ ": " ++ Printable.text fact) ++
    ("    " ++ page.paint ("; " ++ row.text) .brightBlack))

/-- **The lines of an annotated report**: each row with the fact of its own index. -/
theorem mapIdx_factLine (flow : Flow F) (f : Function) {config : ReportConfig} (page : Page)
    (hannotate : config.annotate = true) :
    (analyzeFunction flow f).facts.mapIdx ((analyzeFunction flow f).factLine config page) =
      List.zipWith (annotatedLine page) (analyzeFunction flow f).rows
        (analyzeFunction flow f).facts := by
  refine List.ext_getElem? fun k => ?_
  rw [List.getElem?_mapIdx, List.getElem?_zipWith]
  by_cases hk : k < f.instructionCount
  · obtain ⟨p, rfl⟩ := Function.exists_place hk
    obtain ⟨fact, hfact⟩ := exists_fact_analyzeFunction flow p
    have hrow : (analyzeFunction flow f).rows[p.index]? = some p.row := Graph.getElem?_rows p
    rw [hfact, hrow, Option.map_some, Result.factLine, hrow, hannotate]
    rfl
  · have hfact : (analyzeFunction flow f).facts[k]? = none := by
      rw [List.getElem?_eq_none_iff, length_facts_analyzeFunction]
      exact Nat.not_lt.1 hk
    rw [hfact]
    cases (analyzeFunction flow f).rows[k]? with
    | none => rfl
    | some row => rfl

/-- **The graph, the result, the listing and the report of a function have one numbering.**

Whatever the keys of its blocks and the numbers of its instructions are, and in either direction, an
index stands for the instruction at one place.  The graph has it there, the row of that index is its
row, and the listing has it under the label of its block on a line that is marked with the index and
goes on with the text of the row.  A reader who looks for marked lines in a legible listing finds
these and no other, and an annotated report has them beside the facts.  A number that instructions
have leads to the first of them, so numbers and indices correspond where none is used twice. -/
theorem analyzeFunction_numbering (flow : Flow F) (f : Function) :
    (Graph.build f flow.direction).size = f.instructionCount ∧
      (analyzeFunction flow f).facts.length = f.instructionCount ∧
      (analyzeFunction flow f).rows.length = f.instructionCount ∧
      (∀ k, k < f.instructionCount ↔ ∃ p : f.Place, p.index = k) ∧
      (∀ p : f.Place, f.instructions[p.index]? = some p.inst ∧
        (Graph.build f flow.direction).instruction? p.index = some p.inst ∧
        (analyzeFunction flow f).rows[p.index]? = some p.row ∧
        f.listingLines[p.headingLine]? = some (p.block.label ++ ":") ∧
        f.listingLines[p.line]? = some ("    [" ++ toString p.index ++ "] " ++ p.row.text)) ∧
      (f.Legible → marks f.listing = (analyzeFunction flow f).rows.map fun row =>
        (row.index, row.text)) ∧
      (∀ (config : ReportConfig) (page : Page), config.annotate = true →
        (analyzeFunction flow f).facts.mapIdx ((analyzeFunction flow f).factLine config page) =
          List.zipWith (annotatedLine page) (analyzeFunction flow f).rows
            (analyzeFunction flow f).facts) ∧
      (∀ id k, (Graph.build f flow.direction).indexOf? id = some k ↔
        IsLeast {k | ∃ i, f.instructions[k]? = some i ∧ i.id = id} k) ∧
      (f.Numbered → ∃ e : {id // id ∈ f.instructions.map Instruction.id} ≃ Fin f.instructionCount,
        ∀ id, (Graph.build f flow.direction).indexOf? id.1 = some (e id).1) := by
  refine ⟨Graph.size_build f _, length_facts_analyzeFunction flow f, Graph.length_rows f _,
    fun k => Function.lt_instructionCount_iff, fun p => ?_, fun hlegible => ?_,
    fun config page => mapIdx_factLine flow f page, fun id k => Graph.indexOf?_eq_some_iff,
    fun hnumbered => Graph.exists_equiv_indexOf? hnumbered _⟩
  · exact ⟨p.getElem?_instructions, Graph.instruction?_place p, Graph.getElem?_rows p,
      p.getElem?_headingLine, p.getElem?_line⟩
  · rw [hlegible.marks_listing, rows_analyzeFunction, Graph.map_rows]

end

/-- Blocks under other keys than their numbers, an empty one between them, and instructions numbered
out of order. -/
def Function.patchwork : Function where
  name := "f"
  params := []
  ret := .void
  entry := ⟨7⟩
  blocks :=
    { entries := [
        (⟨7⟩, ⟨⟨2⟩, "entry", [
          ⟨⟨5⟩, some "x", .add, .int 32, [.const 1, .const 2], [], none⟩,
          ⟨⟨3⟩, none, .br, .void, [.block ⟨4⟩], [], none⟩]⟩),
        (⟨9⟩, ⟨⟨9⟩, "gap", []⟩),
        (⟨4⟩, ⟨⟨0⟩, "last", [⟨⟨0⟩, none, .ret, .void, [.inst ⟨5⟩], [], none⟩]⟩)]
      nodup := by decide }

/-- The empty block has no index, and the last instruction is the third one everywhere. -/
theorem analyzeFunction_numbering_patchwork :
    Function.patchwork.instructionCount = 3 ∧
      (Function.patchwork.Legible ∧
        marks Function.patchwork.listing =
          [(0, "%x = add i32 1, 2"), (1, "br label %<block4>"), (2, "ret %x")] ∧
        ((analyzeFunction Liveness.flow .patchwork).rows.map fun row => (row.index, row.text)) =
          [(0, "%x = add i32 1, 2"), (1, "br label %<block4>"), (2, "ret %x")]) ∧
      ((analyzeFunction Liveness.flow .patchwork).facts.mapIdx
          ((analyzeFunction Liveness.flow .patchwork).factLine
            { ReportConfig.plain with annotate := true } (.new false)) =
        List.zipWith (annotatedLine (.new false)) (analyzeFunction Liveness.flow .patchwork).rows
          (analyzeFunction Liveness.flow .patchwork).facts) ∧
      Function.patchwork.Numbered ∧
      ∃ e : {id // id ∈ Function.patchwork.instructions.map Instruction.id} ≃
          Fin Function.patchwork.instructionCount,
        ∀ id, (Graph.build .patchwork .backward).indexOf? id.1 = some (e id).1 := by
  obtain ⟨-, -, -, -, -, hmarks, hreport, -, hequiv⟩ :=
    analyzeFunction_numbering Liveness.flow .patchwork
  have hlegible : Function.patchwork.Legible := ⟨by decide +kernel, by decide +kernel⟩
  have hread : marks Function.patchwork.listing =
      [(0, "%x = add i32 1, 2"), (1, "br label %<block4>"), (2, "ret %x")] := by decide +kernel
  have hnumbered : (Function.patchwork.instructions.map Instruction.id).Nodup := by decide
  exact ⟨by decide, ⟨hlegible, hread, (hmarks hlegible).symm.trans hread⟩, hreport _ _ rfl,
    hnumbered, hequiv hnumbered⟩

end Dataflow
