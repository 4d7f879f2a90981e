import Dataflow.Codec.Fact
import Dataflow.Proofs.PointsToFacts
import Dataflow.Proofs.TypeText

/-!
# Edges and facts are read back as they were written

Nodes and cells are written as texts, edges and facts as lists and objects of these.  What is
written can be read again as long as its indices are 64-bit numbers, which is all that a reader
accepts: then the value comes back, also where a cell has an entry without targets, and in whatever
order the fields of an object arrive.

* `Decimal.IsIndex`: the numerals of 64-bit numbers; `readIndex?_eq_some`: they are what is read as
  an index.
* `fromByte?`, `Cell.readAt?`: a reader of cells that counts bytes, and refuses where a character is
  cut.
* `RoundTrips`, `RoundTrips.list`: what is written is read back, and so are lists of it.
* `PointsTo.field`, `PointsTo.nodup_fields`: the fields of a points-to fact, no two of one name.
* `encodings_exact`: **edges and facts are read back**, and a text denotes a cell or a node exactly
  if it is of the right form.
-/

namespace Dataflow

open Source (bind_eq_ok mapM_eq_ok)

/-! ## Numerals -/

namespace Decimal

/-- The text is a numeral of a 64-bit number: digits, after a plus sign or without one. -/
def IsIndex (text : List Char) (n : Nat) : Prop :=
  ∃ digits, (text = digits ∨ text = '+' :: digits) ∧ digits ≠ [] ∧
    (∀ c ∈ digits, c.isDigit = true) ∧
    Nat.ofDigitChars 10 digits 0 = n ∧ n < UInt64.size

theorem readBelow?_eq_some {bound n : Nat} {text : List Char} :
    readBelow? bound text = some n ↔
      text ≠ [] ∧ (∀ c ∈ text, c.isDigit = true) ∧ Nat.ofDigitChars 10 text 0 = n ∧ n < bound := by
  simp only [readBelow?, readNat?, Option.filter_eq_some_iff, Option.ite_none_right_eq_some,
    List.all_eq_true, decide_eq_true_eq, Option.some.injEq, and_assoc]
  rfl

/-- **What is read as an index is a numeral**, and its number is what is read. -/
theorem readIndex?_eq_some {text : List Char} {n : Nat} :
    readIndex? text = some n ↔ IsIndex text n := by
  -- one plus sign is taken off, and a second one is no digit
  by_cases hsign : ∃ digits, text = '+' :: digits
  · obtain ⟨digits, rfl⟩ := hsign
    rw [readIndex?, readBelow?_eq_some]
    constructor
    · rintro ⟨hne, hdigits, hvalue, hlt⟩
      exact ⟨digits, Or.inr rfl, hne, hdigits, hvalue, hlt⟩
    · rintro ⟨digits', rfl | heq, hne, hdigits, hvalue, hlt⟩
      · exact absurd (hdigits '+' List.mem_cons_self) (by decide)
      · cases heq
        exact ⟨hne, hdigits, hvalue, hlt⟩
  · have hread : readIndex? text = readBelow? UInt64.size text := by
      unfold readIndex?
      split
      · exact absurd ⟨_, rfl⟩ hsign
      · rfl
    rw [hread, readBelow?_eq_some]
    constructor
    · rintro ⟨hne, hdigits, hvalue, hlt⟩
      exact ⟨text, Or.inl rfl, hne, hdigits, hvalue, hlt⟩
    · rintro ⟨digits, rfl | rfl, hne, hdigits, hvalue, hlt⟩
      · exact ⟨hne, hdigits, hvalue, hlt⟩
      · exact absurd ⟨digits, rfl⟩ hsign

theorem isIndex_toString {n : Nat} (h : n < UInt64.size) : IsIndex (toString n).toList n :=
  ⟨_, Or.inl rfl, toString_ne_nil n, fun _ => isDigit_of_mem_toString, value_toString n, h⟩

end Decimal

open Decimal

/-! ## Cells -/

/-- The text from a byte on, if a character begins or the text ends there. -/
def fromByte? (text : String) (byte : Nat) : Option String :=
  if h : String.Pos.Raw.IsValid text ⟨byte⟩ then some (text.sliceFrom ⟨⟨byte⟩, h⟩).copy else none

/-- After its first character a text goes on at the byte where that character ends. -/
theorem fromByte?_append (first rest : String) :
    fromByte? (first ++ rest) first.utf8ByteSize = some rest := by
  have hvalid : String.Pos.Raw.IsValid (first ++ rest) ⟨first.utf8ByteSize⟩ :=
    String.Pos.Raw.isValid_iff_exists_append.2 ⟨first, rest, rfl, rfl⟩
  have hsplits :
      String.Pos.Splits (⟨⟨first.utf8ByteSize⟩, hvalid⟩ : (first ++ rest).Pos) first rest :=
    ⟨rfl, rfl⟩
  rw [fromByte?, dif_pos hvalid, hsplits.copy_sliceFrom_eq]

namespace Cell

/-- The index of a cell is a 64-bit number. -/
def Fits (c : Cell) : Prop :=
  c.owner < UInt64.size

instance (c : Cell) : Decidable c.Fits :=
  inferInstanceAs (Decidable (c.owner < UInt64.size))

/-- The cell that a text denotes, where the numeral is cut out after the first byte.  There is no
answer if that is inside a character. -/
def readAt? (text : String) : Option (Except CellError Cell) :=
  let withOwner (kind : CellKind) : Option (Except CellError Cell) := do
    let digits ← fromByte? text 1
    return match readIndex? digits.toList with
      | some owner => .ok ⟨kind, owner⟩
      | none => .error (.owner text)
  match text.toList.head? with
  | some 'R' => withOwner .register
  | some 'M' => withOwner .memory
  | _ => some (.error (.kind text))

/-- **Nothing is cut inside a character**: the letters are one byte long. -/
theorem readAt?_eq (text : String) : readAt? text = some (read text) := by
  obtain ⟨chars, rfl⟩ : ∃ chars, text = String.ofList chars :=
    ⟨text.toList, String.ofList_toList.symm⟩
  -- the cut is after one byte, and so after one character
  have hcut : ∀ c rest, c.utf8Size = 1 →
      fromByte? (String.ofList (c :: rest)) 1 = some (String.ofList rest) := by
    intro c rest hsize
    have hfirst : (String.singleton c).utf8ByteSize = 1 := by
      rw [String.utf8ByteSize_singleton, hsize]
    have hsplit : String.ofList (c :: rest) = String.singleton c ++ String.ofList rest := by
      rw [← String.toList_inj]
      simp
    rw [hsplit, ← hfirst, fromByte?_append]
  unfold readAt? read
  rw [String.toList_ofList]
  cases chars with
  | nil => rfl
  | cons c rest =>
    by_cases hregister : c = 'R'
    · subst hregister
      simp only [List.head?_cons, hcut 'R' rest (by decide), Option.bind_eq_bind, Option.bind_some,
        String.toList_ofList]
      rfl
    · by_cases hmemory : c = 'M'
      · subst hmemory
        simp only [List.head?_cons, hcut 'M' rest (by decide), Option.bind_eq_bind,
          Option.bind_some, String.toList_ofList]
        rfl
      · simp [hregister, hmemory]

/-- **A text denotes a cell exactly if it is the letter of a kind and a numeral**, and then it
denotes that cell. -/
theorem read_eq_ok {text : String} {c : Cell} :
    read text = .ok c ↔ ∃ digits, text.toList = letter c.kind :: digits ∧
      IsIndex digits c.owner := by
  obtain ⟨kind, owner⟩ := c
  simp only [← readIndex?_eq_some]
  unfold read
  generalize text.toList = chars
  split
  case h_1 digits =>
    cases hread : readIndex? digits with
    | none => cases kind <;> simp [letter, hread]
    | some n => cases kind <;> simp [letter, hread]
  case h_2 digits =>
    cases hread : readIndex? digits with
    | none => cases kind <;> simp [letter, hread]
    | some n => cases kind <;> simp [letter, hread]
  -- no other letter belongs to a kind
  case h_3 hregister hmemory =>
    cases kind with
    | register =>
      refine iff_of_false (by simp) ?_
      rintro ⟨digits, rfl, -⟩
      exact hregister digits rfl
    | memory =>
      refine iff_of_false (by simp) ?_
      rintro ⟨digits, rfl, -⟩
      exact hmemory digits rfl

theorem toList_text (c : Cell) : c.text.toList = letter c.kind :: (toString c.owner).toList := by
  simp [text, Char.toString]

theorem read_text {c : Cell} (h : c.Fits) : read c.text = .ok c :=
  read_eq_ok.2 ⟨_, c.toList_text, isIndex_toString h⟩

theorem text_injective {a b : Cell} (h : a.text = b.text) : a = b := by
  obtain ⟨kind, owner⟩ := a
  obtain ⟨kind', owner'⟩ := b
  have hlist := congrArg String.toList h
  rw [toList_text, toList_text, List.cons.injEq, String.toList_inj] at hlist
  obtain ⟨hletter, howner⟩ := hlist
  obtain rfl : owner = owner' := toString_injective howner
  cases kind <;> cases kind' <;> simp [letter] at hletter ⊢

end Cell

/-! ## Nodes -/

namespace Node

/-- The index of an instruction is a 64-bit number. -/
def Fits (n : Node) : Prop :=
  ∀ index ∈ n.index?, index < UInt64.size

/-- **A text denotes a node exactly if it names an end of the graph or is a numeral.** -/
theorem ofText?_eq_some {text : String} {n : Node} :
    ofText? text = some n ↔
      (text = "entry" ∧ n = .entry) ∨ (text = "exit" ∧ n = .exit) ∨
        ∃ index, IsIndex text.toList index ∧ n = .inst index := by
  -- a word that begins with a letter is no numeral, so the three cases exclude each other
  have hword : ∀ {word : String} {index : Nat},
      ¬ word.toList.head?.any (fun c => c == '+' || c.isDigit) →
      ¬ IsIndex word.toList index := by
    rintro word index hhead ⟨digits, hword, hne, hdigits, -, -⟩
    refine hhead ?_
    rcases hword with hword | hword
    · obtain ⟨c, rest, rfl⟩ := List.exists_cons_of_ne_nil hne
      simp [hword, hdigits c List.mem_cons_self]
    · simp [hword]
  unfold ofText?
  split
  case isTrue hentry =>
    subst hentry
    have hnot : ∀ index, ¬ IsIndex "entry".toList index := fun index => hword (by decide)
    simp only [hnot, true_and, false_and, exists_false, or_false, Option.some.injEq, eq_comm,
      String.reduceEq]
  case isFalse hentry =>
    split
    case isTrue hexit =>
      subst hexit
      have hnot : ∀ index, ¬ IsIndex "exit".toList index := fun index => hword (by decide)
      simp only [hnot, true_and, false_and, exists_false, or_false, false_or, Option.some.injEq,
        eq_comm, String.reduceEq]
    case isFalse hexit =>
      simp only [Option.map_eq_some_iff, readIndex?_eq_some, hentry, hexit, false_and, false_or]
      exact exists_congr fun index => and_congr_right fun _ => eq_comm

theorem ofText?_text {n : Node} (h : n.Fits) : ofText? n.text = some n := by
  cases n with
  | entry => rfl
  | exit => rfl
  | inst index =>
    exact ofText?_eq_some.2 (Or.inr (Or.inr ⟨index, isIndex_toString (h index rfl), rfl⟩))

theorem ofJson_str {text : String} {n : Node} :
    ofJson (.str text) = .ok n ↔ ofText? text = some n := by
  cases htext : ofText? text with
  | none => simp [ofJson, Decoder.string, htext, bind, Except.bind]
  | some node => simp [ofJson, Decoder.string, htext, bind, Except.bind, pure, Except.pure]

end Node

/-! ## What is written is read back -/

/-- What is written is read back, for all values of some range. -/
def RoundTrips {α : Type} (encode : α → Json) (decode : Decoder α) (range : α → Prop) : Prop :=
  ∀ a, range a → decode (encode a) = .ok a

/-- Lists are read back if their items are. -/
theorem RoundTrips.list {α : Type} {encode : α → Json} {decode : Decoder α} {range : α → Prop}
    (h : RoundTrips encode decode range) :
    RoundTrips (Json.list encode) (Decoder.list decode) fun l => ∀ a ∈ l, range a := by
  intro l hl
  refine mapM_eq_ok.2 ?_
  rw [List.forall₂_map_left_iff, List.forall₂_same]
  exact fun a ha => h a (hl a ha)

theorem roundTrips_cell : RoundTrips Cell.toJson Cell.ofJson Cell.Fits := by
  intro c hc
  show Cell.ofText c.text = .ok c
  rw [Cell.ofText, Cell.read_text hc]

theorem roundTrips_node : RoundTrips Node.toJson Node.ofJson Node.Fits :=
  fun _ hn => Node.ofJson_str.2 (Node.ofText?_text hn)

/-- Both ends of the edge fit. -/
def Edge.Fits (e : Edge) : Prop :=
  e.src.Fits ∧ e.dst.Fits

/-- Fields of an edge are read by their names. -/
theorem Edge.ofJson_of_lookup {fields : List (String × Json)} {src dst : Json} {e : Edge}
    (hsrc : fields.lookup "src" = some src) (hdst : fields.lookup "dst" = some dst)
    (hsrc' : Node.ofJson src = .ok e.src) (hdst' : Node.ofJson dst = .ok e.dst) :
    ofJson (.obj fields) = .ok e := by
  have hfield : ∀ {v : Json} {n : Node},
      Node.ofJson v = .ok n → (some v).mapM Node.ofJson = .ok (some n) := by
    intro v n hv
    show some <$> Node.ofJson v = _
    rw [hv]
    rfl
  refine bind_eq_ok.2 ⟨some e.dst, ?_, bind_eq_ok.2 ⟨some e.src, ?_, rfl⟩⟩
  · rw [hdst, hfield hdst']
  · rw [hsrc, hfield hsrc']

/-- An edge is read back in either order of its fields. -/
theorem Edge.ofJson_fields {e : Edge} (h : e.Fits) :
    ofJson (.obj [("src", e.src.toJson), ("dst", e.dst.toJson)]) = .ok e ∧
      ofJson (.obj [("dst", e.dst.toJson), ("src", e.src.toJson)]) = .ok e := by
  have hsrc := roundTrips_node e.src h.1
  have hdst := roundTrips_node e.dst h.2
  exact ⟨ofJson_of_lookup rfl rfl hsrc hdst, ofJson_of_lookup rfl rfl hsrc hdst⟩

theorem roundTrips_edge : RoundTrips Edge.toJson Edge.ofJson Edge.Fits :=
  fun _ he => (Edge.ofJson_fields he).1

theorem roundTrips_word64 : RoundTrips Json.nat Decoder.word64 (· < UInt64.size) := by
  intro n hn
  have hrange : (0 : Int) ≤ n ∧ (n : Int) < UInt64.size := ⟨Int.natCast_nonneg n, Int.ofNat_lt.2 hn⟩
  rw [Json.nat, Decoder.word64, Decoder.natBelow, if_pos hrange, Int.toNat_natCast]

/-! ## Facts -/

/-- All indices are 64-bit numbers. -/
def IndexSet.Fits (s : IndexSet) : Prop :=
  ∀ index ∈ s, index < UInt64.size

theorem SortedSet.ofList_toList {α : Type} [KeyOrder α] (s : SortedSet α) : ofList s.toList = s :=
  ext fun _ => mem_ofList

theorem roundTrips_indexSet : RoundTrips IndexSet.json IndexSet.ofJson IndexSet.Fits := by
  intro s hs
  refine bind_eq_ok.2 ⟨s.toList, roundTrips_word64.list s.toList hs, ?_⟩
  rw [SortedSet.ofList_toList]
  rfl

namespace PointsTo

/-- All indices are 64-bit numbers, those of cells without targets too. -/
def Fits (fact : PointsTo) : Prop :=
  ∀ entry ∈ fact.map.entries, entry.1.Fits ∧ ∀ target ∈ entry.2.toList, target.Fits

instance (fact : PointsTo) : Decidable fact.Fits :=
  inferInstanceAs
    (Decidable (∀ entry ∈ fact.map.entries, entry.1.Fits ∧ ∀ target ∈ entry.2.toList, target.Fits))

/-- The field of an entry. -/
def field (entry : Cell × SortedSet Cell) : String × Json :=
  (entry.1.text, .list Cell.toJson entry.2.toList)

/-- No two fields have one name. -/
theorem nodup_fields (fact : PointsTo) : ((fact.map.entries.map field).map Prod.fst).Nodup := by
  have hnames : (fact.map.entries.map field).map Prod.fst =
      (fact.map.entries.map Prod.fst).map Cell.text := by
    simp [field, Function.comp_def]
  rw [hnames]
  exact fact.map.nodup_keys.map fun _ _ => Cell.text_injective

/-- **A fact is read back in whatever order its fields arrive.** -/
theorem ofJson_of_perm {fact : PointsTo} (h : fact.Fits) {entries : List (Cell × SortedSet Cell)}
    (hperm : entries.Perm fact.map.entries) : ofJson (.obj (entries.map field)) = .ok fact := by
  refine bind_eq_ok.2 ⟨entries, mapM_eq_ok.2 ?_, ?_⟩
  · rw [List.forall₂_map_left_iff, List.forall₂_same]
    intro entry hentry
    obtain ⟨hcell, htargets⟩ := h entry (hperm.mem_iff.1 hentry)
    refine bind_eq_ok.2 ⟨entry.1, roundTrips_cell entry.1 hcell,
      bind_eq_ok.2 ⟨entry.2.toList, ?_, ?_⟩⟩
    · exact roundTrips_cell.list entry.2.toList htargets
    · rw [SortedSet.ofList_toList]
      rfl
  · rw [SortedMap.ofList_of_perm hperm]
    rfl

end PointsTo

theorem roundTrips_pointsTo : RoundTrips PointsTo.json PointsTo.ofJson PointsTo.Fits :=
  fun _ hfact => PointsTo.ofJson_of_perm hfact (List.Perm.refl _)

/-- **Edges and facts are read back as they were written**, if their indices are 64-bit numbers:
cells, nodes, edges in either order of their fields, sets, and points-to facts in any order of their
fields, no two of which have one name.  A text is never cut inside a character, it denotes a cell
exactly if it is the letter of a kind and a numeral, and a node exactly if it is `entry`, `exit` or
a numeral; the index is the number of the numeral. -/
theorem encodings_exact :
    (RoundTrips Cell.toJson Cell.ofJson Cell.Fits ∧ RoundTrips Node.toJson Node.ofJson Node.Fits ∧
      RoundTrips Edge.toJson Edge.ofJson Edge.Fits ∧
        RoundTrips IndexSet.json IndexSet.ofJson IndexSet.Fits ∧
      RoundTrips PointsTo.json PointsTo.ofJson PointsTo.Fits) ∧
    (∀ e : Edge, e.Fits →
      Edge.ofJson (.obj [("dst", e.dst.toJson), ("src", e.src.toJson)]) = .ok e) ∧
    (∀ fact : PointsTo, fact.json = .obj (fact.map.entries.map PointsTo.field) ∧
      ((fact.map.entries.map PointsTo.field).map Prod.fst).Nodup ∧
      (fact.Fits → ∀ entries : List (Cell × SortedSet Cell), entries.Perm fact.map.entries →
        PointsTo.ofJson (.obj (entries.map PointsTo.field)) = .ok fact)) ∧
    (∀ text, Cell.readAt? text = some (Cell.read text)) ∧
    (∀ text c, Cell.read text = .ok c ↔
      ∃ digits, text.toList = Cell.letter c.kind :: digits ∧ Decimal.IsIndex digits c.owner) ∧
    (∀ text n, Node.ofJson (.str text) = .ok n ↔
      (text = "entry" ∧ n = .entry) ∨ (text = "exit" ∧ n = .exit) ∨
        ∃ index, Decimal.IsIndex text.toList index ∧ n = .inst index) := by
  refine ⟨⟨roundTrips_cell, roundTrips_node, roundTrips_edge, roundTrips_indexSet,
    roundTrips_pointsTo⟩, fun e he => (Edge.ofJson_fields he).2,
    fun fact => ⟨rfl, fact.nodup_fields, fun hfact entries hperm => ?_⟩,
    Cell.readAt?_eq, fun text c => Cell.read_eq_ok, fun text n => ?_⟩
  · exact PointsTo.ofJson_of_perm hfact hperm
  · rw [Node.ofJson_str, Node.ofText?_eq_some]

/-- A cell with the greatest index, which refers to itself and to a register, and a register without
targets. -/
def PointsTo.edgeCase : PointsTo where
  map := .ofList [(.register 10, .empty), (.memory 18446744073709551615,
    .ofList [.register 2, .memory 18446744073709551615])]

theorem encodings_exact_edgeCase :
    PointsTo.edgeCase.Fits ∧ PointsTo.edgeCase.map.get? (.register 10) = some .empty ∧
      PointsTo.ofJson PointsTo.edgeCase.json = .ok PointsTo.edgeCase := by
  have hfits : PointsTo.edgeCase.Fits := by decide +kernel
  obtain ⟨⟨-, -, -, -, hfact⟩, -⟩ := encodings_exact
  exact ⟨hfits, by decide +kernel, hfact _ hfits⟩

end Dataflow
