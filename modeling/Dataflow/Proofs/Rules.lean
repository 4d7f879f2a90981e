import Mathlib.Data.List.Duplicate
import Dataflow.Proofs.Verdicts

/-!
# Rules for definitions

What a definition must keep to so that a function can be made of it, said without making one: types,
names, labels and blocks are read off the text.

* `Definition.Divides`, `Definition.divides_iff`: the blocks of a body, said without the splitting
  that finds them.
* `ClosedRun`, `RunFlaw`: opcodes of a block that ends with its only terminator, and what can be
  wrong with them.
* `Definition.Acceptable`: the rules; `Definition.Violates`: what a complaint says about a
  definition that breaks one.
* `Definition.acceptable_iff`: **a definition keeps the rules exactly if nothing can be said against
  it.**
-/

namespace Dataflow.Source

/-! ## Blocks of a body -/

/-- The lines of a block with its label. -/
def RawBlock.lines (b : RawBlock) : List Line :=
  .label b.label :: b.instructions.map .instruction

/-- The body consists of these blocks, one after another.  A first block without a label is called
`entry`. -/
def Definition.Divides (d : Definition) (blocks : List RawBlock) : Prop :=
  d.body = blocks.flatMap RawBlock.lines ∨
    ∃ first rest, first ≠ [] ∧ blocks = { label := "entry", instructions := first } :: rest ∧
      d.body = first.map .instruction ++ rest.flatMap RawBlock.lines

theorem splitLines_append (first : List InstructionExpr) (rest : List Line) :
    splitLines (first.map .instruction ++ rest) =
      (first ++ (splitLines rest).1, (splitLines rest).2) := by
  induction first with
  | nil => rfl
  | cons e first ih => simp [splitLines, ih]

theorem splitLines_lines (blocks : List RawBlock) :
    splitLines (blocks.flatMap RawBlock.lines) = ([], blocks) := by
  induction blocks with
  | nil => rfl
  | cons b blocks ih => simp [RawBlock.lines, splitLines, splitLines_append, ih]

theorem lines_splitLines (body : List Line) :
    body = (splitLines body).1.map .instruction ++ (splitLines body).2.flatMap RawBlock.lines := by
  induction body with
  | nil => rfl
  | cons line body ih =>
    cases line with
    | label name => simp [splitLines, RawBlock.lines, ← ih]
    | instruction e => simp [splitLines, ← ih]

/-- **Splitting finds the blocks of a body.** -/
theorem Definition.divides_iff {d : Definition} {blocks : List RawBlock} :
    d.Divides blocks ↔ blocks = splitBlocks d.body := by
  rw [splitBlocks_eq]
  constructor
  · rintro (hbody | ⟨first, rest, hne, rfl, hbody⟩)
    · rw [hbody, splitLines_lines]
      rfl
    · rw [hbody, splitLines_append, splitLines_lines, List.append_nil,
        if_neg (mt List.isEmpty_iff.1 hne)]
  · have hbody := lines_splitLines d.body
    split
    · rename_i hempty
      rintro rfl
      rw [List.isEmpty_iff.1 hempty] at hbody
      exact Or.inl hbody
    · rename_i hne
      rintro rfl
      exact Or.inr ⟨_, _, mt List.isEmpty_iff.2 hne, rfl, hbody⟩

/-! ## Rules -/

namespace Operation

end Operation

/-- The opcodes of a block, in order. -/
def RawBlock.opcodes (b : RawBlock) : List Opcode :=
  b.instructions.map fun e => e.operation.opcode

/-- Opcodes of a run that ends with its only terminator. -/
def ClosedRun (opcodes : List Opcode) : Prop :=
  ∃ body last, opcodes = body ++ [last] ∧ last.isTerminator = true ∧
    ∀ opcode ∈ body, opcode.isTerminator = false

/-- What is wrong with the opcodes of a block with a label. -/
inductive RunFlaw (label : String) : List Opcode → Fault → Prop where
  | empty : RunFlaw label [] (.emptyBlock label)
  | unterminated {body : List Opcode} {last : Opcode} (h : last.isTerminator = false) :
      RunFlaw label (body ++ [last]) (.unterminated label)
  | inside {before after : List Opcode} {opcode : Opcode} (h : opcode.isTerminator = true)
      (hafter : after ≠ []) :
      RunFlaw label (before ++ opcode :: after) (.terminatorInside opcode label)

theorem closedRun_iff (label : String) {opcodes : List Opcode} :
    ClosedRun opcodes ↔ ∀ fault, ¬ RunFlaw label opcodes fault := by
  constructor
  · rintro ⟨body, last, rfl, hlast, hbody⟩ fault hflaw
    generalize hopcodes : body ++ [last] = opcodes at hflaw
    cases hflaw with
    | empty => exact absurd hopcodes (List.append_ne_nil_of_right_ne_nil _ (List.cons_ne_nil _ _))
    | unterminated h =>
      obtain ⟨-, heq⟩ := List.append_inj' hopcodes rfl
      cases heq
      rw [hlast] at h
      cases h
    | @inside before after opcode h hafter =>
      -- something follows the terminator, so it is not the last opcode of the run
      have hmem : opcode ∈ body := by
        rcases List.eq_nil_or_concat after with rfl | ⟨rest, final, rfl⟩
        · exact absurd rfl hafter
        · rw [List.concat_eq_append, ← List.cons_append, ← List.append_assoc] at hopcodes
          obtain ⟨rfl, -⟩ := List.append_inj' hopcodes rfl
          exact List.mem_append_right _ List.mem_cons_self
      rw [hbody opcode hmem] at h
      cases h
  · intro h
    rcases List.eq_nil_or_concat opcodes with rfl | ⟨body, last, rfl⟩
    · exact absurd .empty (h _)
    · rw [List.concat_eq_append] at h ⊢
      refine ⟨body, last, rfl, ?_, ?_⟩
      · by_contra hlast
        exact h _ (.unterminated (Bool.eq_false_iff.2 hlast))
      · intro opcode hopcode
        by_contra hterminator
        -- the last opcode follows any opcode of the body
        obtain ⟨before, after, rfl⟩ := List.append_of_mem hopcode
        rw [List.append_assoc, List.cons_append] at h
        refine h _
          (.inside ?_ (List.append_ne_nil_of_right_ne_nil after (List.cons_ne_nil last [])))
        rwa [Bool.not_eq_false] at hterminator

/-- The type of a parameter; the dots have none. -/
def ParamExpr.type? : ParamExpr → Option TypeExpr
  | .variadic => none
  | .typed ty _ => some ty

namespace Definition

/-- All types of a definition that are looked at. -/
def types (d : Definition) : List TypeExpr :=
  d.ret :: d.params.filterMap ParamExpr.type? ++ d.instructions.flatMap fun e => e.operation.types

/-- All mentions of values and labels that are looked at. -/
def mentions (d : Definition) : List Mention :=
  d.instructions.flatMap fun e => e.operation.checked

/-- All cases of switches. -/
def cases (d : Definition) : List CaseExpr :=
  d.instructions.flatMap fun e => e.operation.cases

/-- All names of values. -/
def names (d : Definition) : List String :=
  d.paramNames ++ d.results

/-- The rules for a definition. -/
structure Acceptable (d : Definition) : Prop where
  types : ∀ ty ∈ d.types, ty.Fits
  integers : ∀ text, .value (.int text) ∈ d.mentions → IntegerFits text
  distinctNames : d.names.Nodup
  distinctLabels : d.labels.Nodup
  locals : ∀ name, .value (.local name) ∈ d.mentions → name ∈ d.names
  targets : ∀ name, .label name ∈ d.mentions → name ∈ d.labels
  cases : ∀ e ∈ d.cases, e.value.value.isNumber = true
  blocks : ∃ blocks, d.Divides blocks ∧ blocks ≠ [] ∧ ∀ b ∈ blocks, ClosedRun b.opcodes

/-- What can be said against a definition, and truly so. -/
inductive Violates (d : Definition) : Problem → Prop where
  | type {ty : TypeExpr} {problem : Problem} (hty : ty ∈ d.types) (h : ty.Flaw problem) :
      Violates d problem
  | mention {mention : Mention} {problem : Problem} (hmention : mention ∈ d.mentions)
      (h : mention.Flaw d.names d.labels problem) : Violates d problem
  | switchCase {e : CaseExpr} {problem : Problem} (he : e ∈ d.cases) (h : e.Flaw problem) :
      Violates d problem
  | duplicateValue {name : String} (h : List.Duplicate name d.names) :
      Violates d (.duplicateValue name)
  | duplicateLabel {name : String} (h : List.Duplicate name d.labels) :
      Violates d (.duplicateLabel name)
  | noBlocks (h : d.Divides []) : Violates d (.incomplete (.noBlocks d.name))
  | block {blocks : List RawBlock} {b : RawBlock} {fault : Fault} (hblocks : d.Divides blocks)
      (hb : b ∈ blocks) (h : RunFlaw b.label b.opcodes fault) : Violates d (.incomplete fault)

variable {d : Definition}

/-- **A definition keeps the rules exactly if nothing can be said against it.** -/
theorem acceptable_iff : d.Acceptable ↔ ∀ problem, ¬ d.Violates problem := by
  constructor
  · intro h problem hviolates
    -- each violation is the negation of one rule
    cases hviolates with
    | type hty hflaw => exact TypeExpr.fits_iff.1 (h.types _ hty) _ hflaw
    | mention hmention hflaw =>
      cases hflaw with
      | value hflaw =>
        cases hflaw with
        | unknown hname => exact hname (h.locals _ hmention)
        | range hrange => exact hrange (h.integers _ hmention)
      | label hname => exact hname (h.targets _ hmention)
    | switchCase he hflaw =>
      obtain ⟨hother⟩ := hflaw
      rw [h.cases _ he] at hother
      cases hother
    | duplicateValue hduplicate => exact hduplicate.not_nodup h.distinctNames
    | duplicateLabel hduplicate => exact hduplicate.not_nodup h.distinctLabels
    | noBlocks hnone =>
      obtain ⟨blocks, hblocks, hne, -⟩ := h.blocks
      -- a body is divided in one way only, so both divisions are the same
      rw [divides_iff] at hblocks hnone
      exact hne (hblocks.trans hnone.symm)
    | block hblocks hb hflaw =>
      obtain ⟨blocks', hblocks', -, hclosed⟩ := h.blocks
      rw [divides_iff] at hblocks hblocks'
      exact (closedRun_iff _).1 (hclosed _ (hblocks'.trans hblocks.symm ▸ hb)) _ hflaw
  · intro h
    constructor
    case types =>
      intro ty hty
      exact TypeExpr.fits_iff.2 fun problem hflaw => h problem (.type hty hflaw)
    case integers =>
      intro text hmention
      by_contra hrange
      exact h _ (.mention hmention (.value (.range hrange)))
    case distinctNames =>
      exact List.nodup_iff_forall_not_duplicate.2 fun name hduplicate =>
        h _ (.duplicateValue hduplicate)
    case distinctLabels =>
      exact List.nodup_iff_forall_not_duplicate.2 fun name hduplicate =>
        h _ (.duplicateLabel hduplicate)
    case locals =>
      intro name hmention
      by_contra hname
      exact h _ (.mention hmention (.value (.unknown hname)))
    case targets =>
      intro name hmention
      by_contra hname
      exact h _ (.mention hmention (.label hname))
    case cases =>
      intro e he
      by_contra hnumber
      exact h _ (.switchCase he (.notNumber (Bool.eq_false_iff.2 hnumber)))
    case blocks =>
      -- the rule asks for a division that exists: it is the one that lowering computes
      have hblocks : d.Divides (splitBlocks d.body) := divides_iff.2 rfl
      refine ⟨_, hblocks, fun hnil => ?_,
        fun b hb => (closedRun_iff b.label).2 fun fault hflaw => ?_⟩
      · rw [hnil] at hblocks
        exact h _ (.noBlocks hblocks)
      · exact h _ (.block hblocks hb hflaw)

end Definition

end Dataflow.Source
