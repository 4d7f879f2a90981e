import Mathlib.Data.List.Forall2
import Mathlib.Data.List.TakeWhile
import Dataflow.Source.Scan

/-!
# What scans read

A scan takes a beginning of the text away.  The names in it, a sign and a word each, are found
without any grammar: they are wherever a sign stands outside a comment.  So a scan can be judged by
comparing the names in the text before and after it with those in what it returns.

* `Scan.bind_eq_some` and the like: how each combination of scans comes to a result.
* `Sigil`, `sigils`: the names of a text, outside comments.
* `sigils_skip`: what is skipped has no names.
* `Reads`: a scan leaves an ending of the text, and has read the names that its result accounts for.
* `Reads.bind`, `Spells.many`, `Spells.sepBy`, ...: how this is found for combinations of scans.
* `Loose`, `Swallows`: scans that pass over a part of the text.
-/

namespace Dataflow.Source

variable {α β : Type} {text rest : List Char}

/-! ## Results of combined scans -/

namespace Scan

theorem pure_eq_some {a b : α} : (pure a : Scan α) text = some (b, rest) ↔ a = b ∧ text = rest := by
  show some (a, text) = some (b, rest) ↔ _
  simp

theorem bind_eq_some {p : Scan α} {f : α → Scan β} {b : β} :
    (p >>= f) text = some (b, rest) ↔ ∃ a middle,
      p text = some (a, middle) ∧ f a middle = some (b, rest) := by
  show (p text >>= fun x => f x.1 x.2) = some (b, rest) ↔ _
  cases p text with
  | none => simp
  | some x =>
    constructor
    · intro h
      exact ⟨x.1, x.2, rfl, h⟩
    · rintro ⟨a, middle, hx, h⟩
      cases hx
      exact h

theorem map_eq_some {g : α → β} {p : Scan α} {b : β} :
    (g <$> p) text = some (b, rest) ↔ ∃ a, p text = some (a, rest) ∧ g a = b := by
  show (p text >>= fun x => some (g x.1, x.2)) = some (b, rest) ↔ _
  cases p text with
  | none => simp
  | some x =>
    constructor
    · intro h
      cases h
      exact ⟨x.1, rfl, rfl⟩
    · rintro ⟨a, hx, rfl⟩
      cases hx
      rfl

theorem orElse_eq_some {p q : Scan α} {a : α} (h : (p <|> q) text = some (a, rest)) :
    p text = some (a, rest) ∨ q text = some (a, rest) := by
  have h' : (p text <|> q text) = some (a, rest) := h
  cases hp : p text with
  | none => exact Or.inr (by simpa [hp] using h')
  | some x => exact Or.inl (by simpa [hp] using h')

theorem orElse_of_some {p q : Scan α} {x : α × List Char} (h : p text = some x) :
    (p <|> q) text = some x := by
  show (p text <|> q text) = some x
  rw [h]
  rfl

theorem orElse_of_none {p q : Scan α} (h : p text = none) : (p <|> q) text = q text := by
  show (p text <|> q text) = q text
  rw [h]
  rfl

theorem bind_of_none {p : Scan α} {f : α → Scan β} (h : p text = none) : (p >>= f) text = none := by
  show (p text >>= fun x => f x.1 x.2) = none
  rw [h]
  rfl

theorem bind_congr {p p' : Scan α} {f f' : α → Scan β} (hp : p text = p' text)
    (hf : ∀ a middle, p text = some (a, middle) → f a middle = f' a middle) :
    (p >>= f) text = (p' >>= f') text := by
  show (p text >>= fun x => f x.1 x.2) = (p' text >>= fun x => f' x.1 x.2)
  rw [← hp]
  cases h : p text with
  | none => rfl
  | some x => exact hf x.1 x.2 h

theorem orElse_congr {p p' q q' : Scan α} (hp : p text = p' text) (hq : q text = q' text) :
    (p <|> q) text = (p' <|> q') text := by
  show (p text <|> q text) = (p' text <|> q' text)
  rw [hp, hq]

/-- What is kept by choices holds of the first of many. -/
theorem firstM_induction {γ : Type} {P : Scan α → Prop} {g : γ → Scan α} {choices : List γ}
    (hfailure : P failure) (horElse : ∀ {p q : Scan α}, P p → P q → P (p <|> q))
    (h : ∀ choice ∈ choices, P (g choice)) :
    P (choices.firstM g) := by
  induction choices with
  | nil => exact hfailure
  | cons choice choices ih =>
    obtain ⟨hchoice, hchoices⟩ := List.forall_mem_cons.1 h
    exact horElse hchoice (ih hchoices)

theorem lift_eq_some {o : Option α} {a : α} :
    (liftM o : Scan α) text = some (a, rest) ↔ o = some a ∧ text = rest := by
  show (o >>= fun x => some (x, text)) = some (a, rest) ↔ _
  cases o with
  | none => simp
  | some x => simp

theorem modify_eq_some {f : List Char → List Char} {u : PUnit} :
    (modify f : Scan PUnit) text = some (u, rest) ↔ f text = rest := by
  show some (PUnit.unit, f text) = some (u, rest) ↔ _
  simp

end Scan

/-! ## Names in a text -/

/-- A name with the sign in front of it. -/
structure Sigil where
  sign : Char
  name : String
deriving DecidableEq

/-- The names of a text, from inside a comment or from outside. -/
def sigilsFrom : Bool → List Char → List Sigil
  | _, [] => []
  | true, c :: rest => sigilsFrom (!isLineEnd c) rest
  | false, c :: rest =>
    if c = ';' then sigilsFrom true rest
    else if c = '%' ∨ c = '@' then
      match rest.takeWhile isNameChar with
      | [] => sigilsFrom false rest
      | run => ⟨c, String.ofList run⟩ :: sigilsFrom false rest
    else sigilsFrom false rest

/-- The names of a text, outside comments. -/
def sigils (text : List Char) : List Sigil :=
  sigilsFrom false text

/-- A character that starts neither a name nor a comment. -/
def isPlain (c : Char) : Bool :=
  c ≠ ';' && c ≠ '%' && c ≠ '@'

theorem isPlain_iff {c : Char} : isPlain c = true ↔ c ≠ ';' ∧ c ≠ '%' ∧ c ≠ '@' := by
  simp [isPlain, and_assoc]

/-- A class that leaves out the three special characters has plain characters only. -/
theorem isPlain_of_test {test : Char → Bool} (hcomment : test ';' = false)
    (hlocal : test '%' = false) (hglobal : test '@' = false) {c : Char} (h : test c = true) :
    isPlain c = true := by
  rw [isPlain_iff]
  refine ⟨?_, ?_, ?_⟩
  · rintro rfl
    simp [hcomment] at h
  · rintro rfl
    simp [hlocal] at h
  · rintro rfl
    simp [hglobal] at h

theorem sigils_cons_of_plain {c : Char} (h : isPlain c = true) :
    sigils (c :: text) = sigils text := by
  obtain ⟨hcomment, hlocal, hglobal⟩ := isPlain_iff.1 h
  rw [sigils, sigilsFrom, if_neg hcomment, if_neg (not_or.2 ⟨hlocal, hglobal⟩)]
  rfl

theorem sigils_append_of_plain {run : List Char} (h : ∀ c ∈ run, isPlain c = true) :
    sigils (run ++ text) = sigils text := by
  induction run with
  | nil => rfl
  | cons c run ih =>
    rw [List.cons_append, sigils_cons_of_plain (h c List.mem_cons_self),
      ih fun c hc => h c (List.mem_cons_of_mem _ hc)]

theorem sigils_dropWhile {test : Char → Bool} (h : ∀ c, test c = true → isPlain c = true)
    (text : List Char) :
    sigils (text.dropWhile test) = sigils text := by
  have hplain : ∀ c ∈ text.takeWhile test, isPlain c = true :=
    fun c hc => h c (List.mem_takeWhile_imp hc)
  calc sigils (text.dropWhile test)
    _ = sigils (text.takeWhile test ++ text.dropWhile test) := (sigils_append_of_plain hplain).symm
    _ = sigils text := by rw [List.takeWhile_append_dropWhile]

theorem isPlain_of_isNameChar {c : Char} (h : isNameChar c = true) : isPlain c = true :=
  isPlain_of_test (by decide) (by decide) (by decide) h

/-- A sign and a word after it are a name. -/
theorem sigils_sign {sign : Char} (hsign : sign = '%' ∨ sign = '@') {run : List Char}
    (hne : run ≠ []) (hrun : text.takeWhile isNameChar = run) :
    sigils (sign :: text) = ⟨sign, String.ofList run⟩ :: sigils (text.dropWhile isNameChar) := by
  have hcomment : sign ≠ ';' := by
    rcases hsign with rfl | rfl
    · decide
    · decide
  rw [sigils_dropWhile fun _ => isPlain_of_isNameChar, sigils, sigilsFrom, if_neg hcomment,
    if_pos hsign, hrun]
  cases run with
  | nil => exact absurd rfl hne
  | cons c run => rfl

/-- A comment ends where its line ends. -/
theorem sigilsFrom_true (text : List Char) :
    sigilsFrom true text = sigils (text.dropWhile (!isLineEnd ·)) := by
  induction text with
  | nil => rfl
  | cons c text ih =>
    rw [sigilsFrom, List.dropWhile_cons]
    cases hend : isLineEnd c with
    | false => simpa using ih
    | true =>
      rw [if_neg (by simp),
        sigils_cons_of_plain (isPlain_of_test (by decide) (by decide) (by decide) hend)]
      rfl

/-- What is skipped has no names. -/
theorem sigils_skip (text : List Char) : sigils (skip text) = sigils text := by
  have hblank : ∀ c, isBlank c = true → isPlain c = true :=
    fun c => isPlain_of_test (by decide) (by decide) (by decide)
  rw [← sigils_dropWhile hblank text, skip]
  split
  · rename_i comment heq
    rw [heq, ← sigilsFrom_true]
    rfl
  · rfl

theorem skip_suffix (text : List Char) : skip text <:+ text := by
  rw [skip]
  split
  · rename_i comment heq
    refine (List.dropWhile_suffix _).trans ?_
    exact (List.suffix_cons _ _).trans (heq ▸ List.dropWhile_suffix _)
  · exact List.dropWhile_suffix _

theorem skip_cons {c : Char} (hblank : isBlank c = false) (hcomment : c ≠ ';') :
    skip (c :: text) = c :: text := by
  rw [skip, List.dropWhile_cons, if_neg (by simp [hblank])]
  split
  · rename_i heq
    exact absurd (List.cons.inj heq).1 hcomment
  · rfl

/-- A token leaves what is not skipped after it. -/
theorem token_eq_some {p : Scan α} {a : α} :
    token p text = some (a, rest) ↔ ∃ middle, p text = some (a, middle) ∧ skip middle = rest := by
  constructor
  · intro h
    obtain ⟨b, middle, hb, h⟩ := Scan.bind_eq_some.1 h
    obtain ⟨_, after, hskip, h⟩ := Scan.bind_eq_some.1 h
    obtain ⟨rfl, rfl⟩ := Scan.pure_eq_some.1 h
    exact ⟨middle, hb, Scan.modify_eq_some.1 hskip⟩
  · rintro ⟨middle, ha, rfl⟩
    exact Scan.bind_eq_some.2 ⟨a, middle, ha, Scan.bind_eq_some.2 ⟨_, _, rfl, rfl⟩⟩

theorem spanned_eq_some {p : Scan α} {a : α} {span : String} :
    spanned p text = some ((a, span), rest) ↔
      p text = some (a, rest) ∧ String.ofList (text.take (text.length - rest.length)) = span := by
  rw [spanned]
  cases p text with
  | none => simp
  | some x =>
    constructor
    · intro h
      cases h
      exact ⟨rfl, rfl⟩
    · rintro ⟨hx, rfl⟩
      cases hx
      rfl

/-! ## Reading -/

/-- The scan leaves an ending of the text, and has read names that go with its result. -/
def Reads (scan : Scan α) (P : α → List Sigil → Prop) : Prop :=
  ∀ ⦃text a rest⦄, scan text = some (a, rest) →
    rest <:+ text ∧ ∃ names, P a names ∧ sigils text = names ++ sigils rest

/-- The names that the scan has read are those of its result. -/
def Spells (scan : Scan α) (names : α → List Sigil) : Prop :=
  Reads scan fun a read => read = names a

/-- The scan reads no names. -/
def Silent (scan : Scan α) : Prop :=
  Spells scan fun _ => []

variable {P : α → List Sigil → Prop} {Q : β → List Sigil → Prop} {p q : Scan α} {f : α → Scan β}
  {names : α → List Sigil}

namespace Reads

theorem pure {a : α} (h : P a []) : Reads (pure a) P := by
  intro text b rest hrun
  obtain ⟨rfl, rfl⟩ := Scan.pure_eq_some.1 hrun
  exact ⟨List.suffix_refl _, [], h, rfl⟩

/-- Names that are read one after another are put together. -/
theorem bind (hp : Reads p P)
    (hf : ∀ a read, P a read → Reads (f a) fun b more => Q b (read ++ more)) :
    Reads (p >>= f) Q := by
  intro text b rest hrun
  obtain ⟨a, middle, ha, hb⟩ := Scan.bind_eq_some.1 hrun
  obtain ⟨hsuffix, read, hread, hnames⟩ := hp ha
  obtain ⟨hsuffix', more, hmore, hnames'⟩ := hf a read hread hb
  exact ⟨hsuffix'.trans hsuffix, read ++ more, hmore, by rw [hnames, hnames', List.append_assoc]⟩

theorem mono {P' : α → List Sigil → Prop} (hp : Reads p P) (h : ∀ a read, P a read → P' a read) :
    Reads p P' := by
  intro text a rest hrun
  obtain ⟨hsuffix, read, hread, hnames⟩ := hp hrun
  exact ⟨hsuffix, read, h a read hread, hnames⟩

theorem map {g : α → β} (hp : Reads p P) (h : ∀ a read, P a read → Q (g a) read) :
    Reads (g <$> p) Q := by
  intro text b rest hrun
  obtain ⟨a, ha, rfl⟩ := Scan.map_eq_some.1 hrun
  obtain ⟨hsuffix, read, hread, hnames⟩ := hp ha
  exact ⟨hsuffix, read, h a read hread, hnames⟩

theorem orElse (hp : Reads p P) (hq : Reads q P) : Reads (p <|> q) P := by
  intro text a rest hrun
  rcases Scan.orElse_eq_some hrun with h | h
  · exact hp h
  · exact hq h

theorem lift {o : Option α} (h : ∀ a, o = some a → P a []) : Reads (liftM o) P := by
  intro text a rest hrun
  obtain ⟨ha, rfl⟩ := Scan.lift_eq_some.1 hrun
  exact ⟨List.suffix_refl _, [], h a ha, rfl⟩

theorem token (hp : Reads p P) : Reads (token p) P := by
  intro text a rest hrun
  obtain ⟨middle, ha, rfl⟩ := token_eq_some.1 hrun
  obtain ⟨hsuffix, read, hread, hnames⟩ := hp ha
  exact ⟨(skip_suffix middle).trans hsuffix, read, hread, by rw [hnames, sigils_skip]⟩

theorem possibly (hp : Reads p P) :
    Reads (possibly p) fun o read => (∃ a, o = some a ∧ P a read) ∨ o = none ∧ read = [] :=
  orElse (map hp fun a _ hread => Or.inl ⟨a, rfl, hread⟩) (pure (Or.inr ⟨rfl, rfl⟩))

/-- The names that repetitions read, one after another, go with the results in order. -/
theorem many (hp : Reads p P) :
    Reads (many p) fun as read => ∃ parts, read = parts.flatten ∧ List.Forall₂ P as parts := by
  -- the repetitions are bounded in number, and each leaves an ending of what it finds
  have hrepeated : ∀ n text, (repeated p n text).2 <:+ text ∧ ∃ parts : List (List Sigil),
      List.Forall₂ P (repeated p n text).1 parts ∧
      sigils text = parts.flatten ++ sigils (repeated p n text).2 := by
    intro n
    induction n with
    | zero => exact fun text => ⟨List.suffix_refl _, [], .nil, rfl⟩
    | succ n ih =>
      intro text
      rw [repeated]
      cases hrun : p text with
      | none => exact ⟨List.suffix_refl _, [], .nil, rfl⟩
      | some x =>
        obtain ⟨a, middle⟩ := x
        obtain ⟨hsuffix, read, hread, hnames⟩ := hp hrun
        obtain ⟨hsuffix', parts, hparts, hnames'⟩ := ih middle
        refine ⟨hsuffix'.trans hsuffix, read :: parts, .cons hread hparts, ?_⟩
        rw [hnames, hnames', List.flatten_cons, List.append_assoc]
  intro text as rest hrun
  have heq : repeated p text.length text = (as, rest) := Option.some.inj hrun
  obtain ⟨hsuffix, parts, hparts, hnames⟩ := hrepeated text.length text
  rw [heq] at hsuffix hparts hnames
  exact ⟨hsuffix, _, ⟨parts, rfl, hparts⟩, hnames⟩

theorem spanned (hp : Reads p P) : Reads (spanned p) fun a read => P a.1 read := by
  intro text a rest hrun
  exact hp (spanned_eq_some.1 hrun).1

end Reads

namespace Spells

theorem bind (hp : Spells p names) (hf : ∀ a, Reads (f a) fun b more => Q b (names a ++ more)) :
    Reads (p >>= f) Q := by
  refine Reads.bind hp fun a read hread => ?_
  subst hread
  exact hf a

theorem possibly (hp : Spells p names) : Spells (possibly p) fun o => o.toList.flatMap names := by
  refine (Reads.possibly hp).mono ?_
  rintro o read (⟨a, rfl, rfl⟩ | ⟨rfl, rfl⟩)
  · simp
  · simp

theorem many (hp : Spells p names) : Spells (many p) fun as => as.flatMap names := by
  refine (Reads.many hp).mono ?_
  rintro as read ⟨parts, rfl, hparts⟩
  show parts.flatten = as.flatMap names
  induction hparts with
  | nil => rfl
  | cons hpart _ ih => rw [List.flatten_cons, List.flatMap_cons, hpart, ih]

theorem spanned (hp : Spells p names) : Spells (spanned p) fun a => names a.1 :=
  Reads.spanned hp

end Spells

namespace Silent

theorem bind (hp : Silent p) (hf : ∀ a, Reads (f a) Q) : Reads (p >>= f) Q :=
  Spells.bind hp fun a => (hf a).mono fun _ _ h => h

theorem seqRight {q : Scan β} (hp : Silent p) (hq : Reads q Q) : Reads (p *> q) Q :=
  bind hp fun _ => hq

theorem many (hp : Silent p) : Silent (many p) :=
  (Spells.many hp).mono fun _ _ h => h.trans (List.flatMap_eq_nil_iff.2 fun _ _ => rfl)

theorem manyOne (hp : Silent p) : Silent (manyOne p) :=
  bind hp fun _ => bind (many hp) fun _ => Reads.pure rfl

theorem spanned (hp : Silent p) : Silent (spanned p) :=
  Spells.spanned hp

theorem possibly (hp : Silent p) : Silent (possibly p) :=
  (Spells.possibly hp).mono fun _ _ h => h.trans (List.flatMap_eq_nil_iff.2 fun _ _ => rfl)

end Silent

theorem Spells.seqLeft {q : Scan β} (hp : Spells p names) (hq : Silent q) : Spells (p <* q) names :=
  Spells.bind hp fun _ => Silent.bind hq fun _ => Reads.pure (List.append_nil _)

/-- A separated list is not empty, and has the names of its items. -/
theorem Spells.sepBy {separator : Scan Unit} (hseparator : Silent separator) (hp : Spells p names) :
    Reads (sepBy separator p) fun as read => as ≠ [] ∧ read = as.flatMap names := by
  refine Spells.bind hp fun a => Spells.bind (Spells.many (Silent.seqRight hseparator hp)) fun as =>
    Reads.pure ?_
  exact ⟨List.cons_ne_nil a as, by simp⟩

/-! ## Tokens -/

theorem eq_append_of_strip {beginning : List Char} (h : strip beginning text = some rest) :
    text = beginning ++ rest := by
  induction beginning generalizing text with
  | nil =>
    cases h
    rfl
  | cons c beginning ih =>
    cases text with
    | nil => cases h
    | cons d text =>
      rw [strip] at h
      split at h
      · rename_i heq
        rw [heq, List.cons_append, ← ih h]
      · cases h

theorem eq_append_of_literal {s : String} {u : Unit} (h : literal s text = some (u, rest)) :
    text = s.toList ++ rest := by
  obtain ⟨rest', hstrip, heq⟩ := Option.map_eq_some_iff.1 h
  cases heq
  exact eq_append_of_strip hstrip

/-- A text without special characters. -/
def IsPlainText (s : String) : Prop :=
  s.toList.all isPlain = true

instance (s : String) : Decidable (IsPlainText s) :=
  inferInstanceAs (Decidable (_ = true))

theorem silent_literal {s : String} (h : IsPlainText s) : Silent (literal s) := by
  intro text u rest hrun
  rw [eq_append_of_literal hrun]
  exact ⟨List.suffix_append _ _, [], rfl, sigils_append_of_plain (List.all_eq_true.1 h)⟩

theorem silent_symbol {s : String} (h : IsPlainText s) : Silent (symbol s) :=
  Reads.token (silent_literal h)

theorem silent_boundary : Silent boundary := by
  intro text u rest hrun
  have heq : text = rest := by
    unfold boundary at hrun
    split at hrun
    · split at hrun
      · cases hrun
      · cases hrun
        rfl
    · cases hrun
      rfl
  exact ⟨heq ▸ List.suffix_refl _, [], rfl, heq ▸ rfl⟩

theorem charIf_eq_some {test : Char → Bool} {c : Char} :
    charIf test text = some (c, rest) ↔ test c = true ∧ text = c :: rest := by
  cases text with
  | nil => simp [charIf]
  | cons d text =>
    rw [charIf]
    split
    · rename_i hd
      constructor
      · intro h
        cases h
        exact ⟨hd, rfl⟩
      · rintro ⟨-, h⟩
        cases h
        rfl
    · rename_i hd
      constructor
      · intro h
        cases h
      · rintro ⟨hc, h⟩
        cases h
        exact absurd hc hd

theorem charsIf_eq_some {test : Char → Bool} {run : List Char}
    (h : charsIf test text = some (run, rest)) :
    run ≠ [] ∧ text.takeWhile test = run ∧ text.dropWhile test = rest := by
  rw [charsIf] at h
  split at h
  · cases h
  · rename_i hne
    cases h
    exact ⟨hne, rfl, rfl⟩

theorem silent_charIf {test : Char → Bool} (h : ∀ c, test c = true → isPlain c = true) :
    Silent (charIf test) := by
  intro text c rest hrun
  obtain ⟨hc, rfl⟩ := charIf_eq_some.1 hrun
  exact ⟨List.suffix_cons _ _, [], rfl, sigils_cons_of_plain (h c hc)⟩

theorem silent_charsIf {test : Char → Bool} (h : ∀ c, test c = true → isPlain c = true) :
    Silent (charsIf test) := by
  intro text run rest hrun
  obtain ⟨-, -, rfl⟩ := charsIf_eq_some hrun
  exact ⟨List.dropWhile_suffix _, [], rfl, (sigils_dropWhile h text).symm⟩

theorem silent_name : Silent name :=
  Silent.bind (silent_charsIf fun _ => isPlain_of_isNameChar) fun _ => Reads.pure rfl

/-- A keyword is one of its words, and has no names. -/
theorem reads_keyword {words : List String} (h : ∀ word ∈ words, IsPlainText word) :
    Reads (keyword words) fun word read => word ∈ words ∧ read = [] := by
  have hfirst : Reads (words.firstM fun word => do literal word; return word : Scan String)
      fun word read => word ∈ words ∧ read = [] := by
    induction words with
    | nil =>
      intro text word rest hrun
      cases hrun
    | cons word words ih =>
      refine Reads.orElse ?_ ?_
      · exact Silent.bind (silent_literal (h word List.mem_cons_self)) fun _ =>
          Reads.pure ⟨List.mem_cons_self, rfl⟩
      · refine (ih fun word hword => h word (List.mem_cons_of_mem _ hword)).mono ?_
        rintro other read ⟨hother, hread⟩
        exact ⟨List.mem_cons_of_mem _ hother, hread⟩
  refine Reads.token (Reads.bind hfirst ?_)
  rintro word read ⟨hword, rfl⟩
  exact Silent.bind silent_boundary fun _ => Reads.pure ⟨hword, rfl⟩

theorem silent_keyword {words : List String} (h : ∀ word ∈ words, IsPlainText word) :
    Silent (keyword words) :=
  (reads_keyword h).mono fun _ _ hread => hread.2

theorem silent_lineEnd : Silent lineEnd :=
  Reads.orElse (silent_symbol (by decide))
    (Reads.orElse (silent_symbol (by decide)) (silent_symbol (by decide)))

/-! ## Passing over -/

/-- The scan leaves an ending of the text; any names may stand in what it reads. -/
def Loose (scan : Scan α) : Prop :=
  Reads scan fun _ _ => True

theorem exists_sigils_cons {c : Char} (h : c ≠ ';') (text : List Char) :
    ∃ names, sigils (c :: text) = names ++ sigils text := by
  rw [sigils, sigilsFrom, if_neg h]
  split
  · split
    · exact ⟨[], rfl⟩
    · exact ⟨[_], rfl⟩
  · exact ⟨[], rfl⟩

theorem exists_sigils_append {run : List Char} (h : ';' ∉ run) (text : List Char) :
    ∃ names, sigils (run ++ text) = names ++ sigils text := by
  induction run with
  | nil => exact ⟨[], rfl⟩
  | cons c run ih =>
    obtain ⟨hc, hrun⟩ := not_or.1 (mt List.mem_cons.2 h)
    obtain ⟨first, hfirst⟩ := exists_sigils_cons (Ne.symm hc) (run ++ text)
    obtain ⟨names, hnames⟩ := ih hrun
    exact ⟨first ++ names, by rw [List.cons_append, hfirst, hnames, List.append_assoc]⟩

/-- Comments end with their line, so the rest of a line can be passed over. -/
theorem exists_sigils_restOfLine (text : List Char) :
    ∃ names, sigils text = names ++ sigils (text.dropWhile (!isLineEnd ·)) := by
  induction text with
  | nil => exact ⟨[], rfl⟩
  | cons c text ih =>
    rw [List.dropWhile_cons]
    split
    · by_cases hc : c = ';'
      · subst hc
        exact ⟨[], (sigilsFrom_true text : sigils (';' :: text) = _)⟩
      · obtain ⟨first, hfirst⟩ := exists_sigils_cons hc text
        obtain ⟨names, hnames⟩ := ih
        exact ⟨first ++ names, by rw [hfirst, hnames, List.append_assoc]⟩
    · exact ⟨[], rfl⟩

theorem loose_literal {s : String} (h : ';' ∉ s.toList) : Loose (literal s) := by
  intro text u rest hrun
  rw [eq_append_of_literal hrun]
  obtain ⟨names, hnames⟩ := exists_sigils_append h rest
  exact ⟨List.suffix_append _ _, names, trivial, hnames⟩

theorem loose_symbol {s : String} (h : ';' ∉ s.toList) : Loose (symbol s) :=
  Reads.token (loose_literal h)

theorem Loose.bind {p : Scan α} {f : α → Scan β} (hp : Loose p) (hf : ∀ a, Loose (f a)) :
    Loose (p >>= f) :=
  Reads.bind hp fun a _ _ => hf a

/-- No comment starts here. -/
def Settled (text : List Char) : Prop :=
  ∀ rest, text ≠ ';' :: rest

theorem settled_skip (text : List Char) : Settled (skip text) := by
  intro rest hrest
  rw [skip] at hrest
  split at hrest
  · rename_i comment heq
    have hend := List.head?_dropWhile_not (fun c => !isLineEnd c) comment
    rw [hrest] at hend
    simp [isLineEnd] at hend
  · rename_i hne
    exact hne rest hrest

/-- The scan leaves an ending of a text that does not start with a comment; any names may stand in
what it reads. -/
def Swallows (scan : Scan α) : Prop :=
  ∀ ⦃text a rest⦄, Settled text → scan text = some (a, rest) →
    rest <:+ text ∧ ∃ names, sigils text = names ++ sigils rest

/-- Single characters may be swallowed one by one, since no comment is ever entered. -/
theorem swallows_many_charIf (test : Char → Bool) : Swallows (many (token (charIf test))) := by
  have hrepeated : ∀ n text, Settled text → (repeated (token (charIf test)) n text).2 <:+ text ∧
      ∃ names, sigils text = names ++ sigils (repeated (token (charIf test)) n text).2 := by
    intro n
    induction n with
    | zero => exact fun text _ => ⟨List.suffix_refl _, [], rfl⟩
    | succ n ih =>
      intro text hsettled
      rw [repeated]
      cases hrun : token (charIf test) text with
      | none => exact ⟨List.suffix_refl _, [], rfl⟩
      | some x =>
        obtain ⟨c, middle⟩ := x
        obtain ⟨after, hchar, rfl⟩ := token_eq_some.1 hrun
        obtain ⟨-, rfl⟩ := charIf_eq_some.1 hchar
        obtain ⟨hsuffix, names, hnames⟩ := ih (skip after) (settled_skip after)
        -- the text begins no comment, so one character can be taken off it
        obtain ⟨first, hfirst⟩ := exists_sigils_cons (fun hd => hsettled after (hd ▸ rfl)) after
        refine ⟨hsuffix.trans ((skip_suffix after).trans (List.suffix_cons _ _)),
          first ++ names, ?_⟩
        rw [hfirst, ← sigils_skip after, hnames, List.append_assoc]
  intro text as rest hsettled hrun
  have heq : repeated (token (charIf test)) text.length text = (as, rest) := Option.some.inj hrun
  have h := hrepeated text.length text hsettled
  rwa [heq] at h

theorem Swallows.map {g : α → β} {p : Scan α} (hp : Swallows p) :
    Swallows (p >>= fun a => pure (g a)) := by
  intro text b rest hsettled hrun
  obtain ⟨a, middle, ha, hb⟩ := Scan.bind_eq_some.1 hrun
  obtain ⟨-, rfl⟩ := Scan.pure_eq_some.1 hb
  exact hp hsettled ha

/-- Characters may be swallowed after a token. -/
theorem Swallows.bind {γ : Type} {Q : γ → List Sigil → Prop} {q : Scan α} {p : Scan β}
    {f : β → Scan γ} (hq : Silent q) (hp : Swallows p)
    (hf : ∀ b names, Reads (f b) fun c more => Q c (names ++ more)) :
    Reads (token q >>= fun _ => p >>= f) Q := by
  intro text c rest hrun
  obtain ⟨a, middle, ha, hrun⟩ := Scan.bind_eq_some.1 hrun
  have hsettled : Settled middle := by
    obtain ⟨before, -, rfl⟩ := token_eq_some.1 ha
    exact settled_skip before
  obtain ⟨b, after, hb, hc⟩ := Scan.bind_eq_some.1 hrun
  obtain ⟨hsuffix, read, rfl, hread⟩ := Reads.token hq ha
  obtain ⟨hsuffix', names, hnames⟩ := hp hsettled hb
  obtain ⟨hsuffix'', more, hmore, hnames'⟩ := hf b names hc
  refine ⟨hsuffix''.trans (hsuffix'.trans hsuffix), names ++ more, hmore, ?_⟩
  rw [hread, List.nil_append, hnames, hnames', List.append_assoc]

end Dataflow.Source
