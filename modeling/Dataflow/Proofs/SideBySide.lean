import Dataflow.Proofs.Padding

/-!
# Scanning two texts side by side

A scan of two texts that differ only in how a line ends has one result, and leaves texts that differ
only there.

* `Alike`: two scans of such texts have one result.
* `Alike.bind`, `Alike.many`, `Alike.spanned`, ...: how this is found for combinations of scans.
* `Inline`, `Steady`: scans inside a line, and scans that may read over the ends of lines.
* `Shortens`: scans that cannot succeed without reading anything, which is what repetition needs.
* `Confined`, `Atomic`, `Refuses`: scans inside a word, which do not look past a margin.
* `Passes`: repetitions that pass over a part of the text, whatever lines it has.
-/

namespace Dataflow.Source

variable {α β : Type} {text rest b y x x' : List Char} {stop : Char → Bool} {c : Char}

/-! ## Results that agree -/

/-- Two results are both failures, or they agree in what was found and in how the rests stand to
each other. -/
def Agree (S : List Char → List Char → Prop) (o o' : Option (α × List Char)) : Prop :=
  (o = none ∧ o' = none) ∨ ∃ a rest rest', o = some (a, rest) ∧ o' = some (a, rest') ∧ S rest rest'

/-- Two texts that stand to each other in the first way have one result, and are left in the second
way. -/
def Alike (R : Stand) (scan : Scan α) (S : Stand) : Prop :=
  ∀ ⦃b y⦄, Pads b y → ∀ ⦃x x'⦄, R b y x x' → Agree (S b y) (scan x) (scan x')

/-- The scan stays inside a line. -/
def Inline (scan : Scan α) : Prop :=
  Alike Cut scan Cut

/-- The scan may read over the ends of lines. -/
def Steady (scan : Scan α) : Prop :=
  Alike Full scan Full

variable {R R' S S' T : Stand} {p q : Scan α} {f : α → Scan β}

theorem agree_none {S : List Char → List Char → Prop} :
    Agree S (none : Option (α × List Char)) none :=
  Or.inl ⟨rfl, rfl⟩

theorem agree_some {S : List Char → List Char → Prop} (a : α) (h : S rest x) :
    Agree S (some (a, rest)) (some (a, x)) :=
  Or.inr ⟨a, rest, x, rfl, rfl, h⟩

namespace Alike

theorem pure (a : α) : Alike R (pure a) R := by
  intro b y _ x x' hx
  exact agree_some a hx

theorem mono (hp : Alike R p S) (hR : R' ≤ R) (hS : S ≤ S') : Alike R' p S' := by
  intro b y h x x' hx
  rcases hp h (hR b y x x' hx) with hnone | ⟨a, rest, rest', hsome, hsome', hrest⟩
  · exact Or.inl hnone
  · exact Or.inr ⟨a, rest, rest', hsome, hsome', hS b y rest rest' hrest⟩

theorem bind (hp : Alike R p S) (hf : ∀ a, Alike S (f a) T) : Alike R (p >>= f) T := by
  intro b y h x x' hx
  show Agree _ (p x >>= fun z => f z.1 z.2) (p x' >>= fun z => f z.1 z.2)
  rcases hp h hx with ⟨hnone, hnone'⟩ | ⟨a, rest, rest', hsome, hsome', hrest⟩
  · rw [hnone, hnone']
    exact agree_none
  · rw [hsome, hsome']
    exact hf a h hrest

theorem map {g : α → β} (hp : Alike R p S) : Alike R (g <$> p) S :=
  bind hp fun a => pure (g a)

theorem orElse (hp : Alike R p S) (hq : Alike R q S) : Alike R (p <|> q) S := by
  intro b y h x x' hx
  show Agree _ (p x <|> q x) (p x' <|> q x')
  rcases hp h hx with ⟨hnone, hnone'⟩ | ⟨a, rest, rest', hsome, hsome', hrest⟩
  · rw [hnone, hnone']
    exact hq h hx
  · rw [hsome, hsome']
    exact agree_some a hrest

theorem lift (o : Option α) : Alike R (liftM o) R := by
  intro b y _ x x' hx
  cases o with
  | none => exact agree_none
  | some a => exact agree_some a hx

theorem seqRight {q : Scan β} (hp : Alike R p S) (hq : Alike S q T) : Alike R (p *> q) T :=
  bind hp fun _ => hq

theorem firstM {γ : Type} {g : γ → Scan α} {choices : List γ}
    (h : ∀ choice ∈ choices, Alike R (g choice) S) :
    Alike R (choices.firstM g) S :=
  Scan.firstM_induction (P := fun p => Alike R p S) (fun _ _ _ _ _ _ => agree_none) orElse h

theorem possibly (hp : Alike R p R) : Alike R (possibly p) R :=
  orElse (map hp) (pure none)

/-- What was found may differ where it is not used: one text may have fewer ends of lines than the
other. -/
theorem discard {q : Scan β} (hp : Alike R ((fun _ => ()) <$> p) S) (hq : Alike S q T) :
    Alike R (p >>= fun _ => q) T := by
  rw [← bind_map_left (fun _ => ()) p fun _ => q]
  exact bind hp fun _ => hq

theorem token (hp : Alike R p Raw) : Alike R (token p) Cut := by
  have hskip : Alike Raw (modify skip : Scan PUnit) Cut :=
    fun b y h x x' hx => agree_some _ (hx.skip h)
  exact bind hp fun a => bind hskip fun _ => pure a

/-- Equal texts have equal results. -/
theorem full (hp : Alike Cut p Full) : Steady p := by
  intro b y h x x' hx
  rcases hx with hx | rfl
  · exact hp h hx
  · cases p x with
    | none => exact agree_none
    | some z => exact agree_some z.1 (Or.inr rfl)

end Alike

theorem Inline.steady (hp : Inline p) : Steady p :=
  Alike.full (hp.mono le_rfl cut_le_full)

/-! ## Progress -/

/-- Whatever is read, something is. -/
def Shortens (scan : Scan α) : Prop :=
  ∀ ⦃text a rest⦄, scan text = some (a, rest) → rest.length < text.length

theorem Reads.loose {P : α → List Sigil → Prop} (hp : Reads p P) : Loose p :=
  hp.mono fun _ _ _ => trivial

/-- Names are read from a part of the text. -/
theorem Reads.shortens {P : α → List Sigil → Prop} (hp : Reads p P) (hne : ∀ a, ¬P a []) :
    Shortens p := by
  intro text a rest hrun
  obtain ⟨hsuffix, names, hnames, hsigils⟩ := hp hrun
  refine Nat.lt_of_le_of_ne hsuffix.length_le fun hlength => ?_
  obtain rfl := hsuffix.eq_of_length hlength
  obtain rfl := List.append_left_eq_self.1 hsigils.symm
  exact hne a hnames

namespace Shortens

theorem bind_left (hp : Shortens p) (hf : ∀ a, Loose (f a)) : Shortens (p >>= f) := by
  intro text b rest hrun
  obtain ⟨a, middle, ha, hb⟩ := Scan.bind_eq_some.1 hrun
  exact Nat.lt_of_le_of_lt (hf a hb).1.length_le (hp ha)

theorem bind_right (hp : Loose p) (hf : ∀ a, Shortens (f a)) : Shortens (p >>= f) := by
  intro text b rest hrun
  obtain ⟨a, middle, ha, hb⟩ := Scan.bind_eq_some.1 hrun
  exact Nat.lt_of_lt_of_le (hf a hb) (hp ha).1.length_le

theorem map {g : α → β} (hp : Shortens p) : Shortens (g <$> p) := by
  intro text b rest hrun
  obtain ⟨a, ha, -⟩ := Scan.map_eq_some.1 hrun
  exact hp ha

theorem orElse (hp : Shortens p) (hq : Shortens q) : Shortens (p <|> q) := by
  intro text a rest hrun
  rcases Scan.orElse_eq_some hrun with h | h
  · exact hp h
  · exact hq h

theorem firstM {γ : Type} {g : γ → Scan α} {choices : List γ}
    (h : ∀ choice ∈ choices, Shortens (g choice)) :
    Shortens (choices.firstM g) :=
  Scan.firstM_induction (P := Shortens) (fun _ _ _ hrun => nomatch hrun) orElse h

theorem token (hp : Shortens p) : Shortens (token p) := by
  intro text a rest hrun
  obtain ⟨middle, ha, rfl⟩ := token_eq_some.1 hrun
  exact Nat.lt_of_le_of_lt (skip_suffix middle).length_le (hp ha)

end Shortens

/-! ## Repetition -/

theorem repeated_of_none (h : p text = none) (n : Nat) : repeated p n text = ([], text) := by
  cases n with
  | zero => rfl
  | succ n => rw [repeated, h]

theorem repeated_of_some {a : α} (h : p text = some (a, rest)) (n : Nat) :
    repeated p (n + 1) text = (a :: (repeated p n rest).1, (repeated p n rest).2) := by
  rw [repeated, h]

namespace Alike

/-- Repetitions of scans of two texts go on together, whatever bounds their number. -/
theorem repeated (hp : Alike R p R) (hshortens : Shortens p) (h : Pads b y) {n n' : Nat}
    (hn : x.length ≤ n) (hn' : x'.length ≤ n') (hx : R b y x x') :
    (repeated p n x).1 = (repeated p n' x').1 ∧ R b y (repeated p n x).2 (repeated p n' x').2 := by
  -- the texts differ in length, so each has a bound of its own
  induction n generalizing x x' n' with
  | zero =>
    obtain rfl := List.eq_nil_of_length_eq_zero (Nat.le_zero.1 hn)
    rcases hp h hx with ⟨hnone, hnone'⟩ | ⟨a, rest, rest', hsome, -⟩
    · rw [repeated_of_none hnone, repeated_of_none hnone']
      exact ⟨rfl, hx⟩
    · exact absurd (hshortens hsome) (Nat.not_lt_zero _)
  | succ n ih =>
    rcases hp h hx with ⟨hnone, hnone'⟩ | ⟨a, rest, rest', hsome, hsome', hrest⟩
    · rw [repeated_of_none hnone, repeated_of_none hnone']
      exact ⟨rfl, hx⟩
    · have hlt := hshortens hsome
      have hlt' := hshortens hsome'
      obtain ⟨m, rfl⟩ : ∃ m, n' = m + 1 := ⟨n' - 1, by omega⟩
      obtain ⟨hvalues, hrests⟩ := ih (by omega) (by omega : rest'.length ≤ m) hrest
      rw [repeated_of_some hsome, repeated_of_some hsome', hvalues]
      exact ⟨rfl, hrests⟩

theorem many (hp : Alike R p R) (hshortens : Shortens p) : Alike R (many p) R := by
  intro b y h x x' hx
  obtain ⟨hvalues, hrests⟩ :=
    hp.repeated hshortens h (Nat.le_refl x.length) (Nat.le_refl x'.length) hx
  refine Or.inr ⟨_, _, _, rfl, ?_, hrests⟩
  rw [hvalues]
  rfl

theorem sepBy {separator : Scan Unit} (hp : Alike R p R) (hseparator : Alike R separator R)
    (hshortens : Shortens (separator *> p)) : Alike R (sepBy separator p) R :=
  bind hp fun _ => bind (many (seqRight hseparator hp) hshortens) fun _ => pure _

end Alike

/-! ## Scans inside a word -/

/-- The scan does not look past a margin. -/
def Confined (scan : Scan α) : Prop :=
  ∀ run text, AtMargin text → scan (run ++ text) = (scan run).map fun z => (z.1, z.2 ++ text)

/-- The scan stays inside a word. -/
def Atomic (scan : Scan α) : Prop :=
  Alike Raw scan Before

/-- The scan fails at the end of a line. -/
def Refuses (scan : Scan α) : Prop :=
  ∀ text, AtLineEnd text → scan text = none

theorem Confined.before (hp : Confined p) : Alike Before p Before := by
  rintro b y h _ _ ⟨run, rfl, rfl⟩
  rw [hp run b h.lineEnd.atMargin, hp run y h.margin]
  cases p run with
  | none => exact agree_none
  | some z => exact agree_some z.1 ⟨z.2, rfl, rfl⟩

theorem Confined.refuses (hp : Confined p) (hnil : p [] = none) : Refuses p := by
  intro text htext
  have h := hp [] text htext.atMargin
  rwa [hnil] at h

theorem Confined.atomic (hp : Confined p) (hnil : p [] = none) : Atomic p := by
  intro b y h x x' hx
  rcases hx with hx | ⟨hend, hend', -⟩
  · exact hp.before h hx
  · rw [hp.refuses hnil x hend, hp.refuses hnil x' hend']
    exact agree_none

namespace Atomic

theorem bind (hp : Atomic p) (hf : ∀ a, Alike Before (f a) Before) : Atomic (p >>= f) :=
  Alike.bind hp hf

theorem before (hp : Atomic p) : Alike Before p Before :=
  hp.mono before_le_raw le_rfl

/-- Between tokens, a word may start. -/
theorem cut (hp : Atomic p) : Alike Cut p Before :=
  hp.mono cut_le_raw le_rfl

/-- A word and what is skipped after it stay inside a line. -/
theorem token (hp : Atomic p) : Inline (token p) :=
  Alike.token (hp.mono cut_le_raw before_le_raw)

/-- A word may be left out. -/
theorem possibly (hp : Atomic p) : Alike Raw (possibly p) Raw :=
  Alike.possibly (hp.mono le_rfl before_le_raw)

end Atomic

namespace Refuses

theorem bind (hp : Refuses p) : Refuses (p >>= f) := by
  intro text htext
  exact Scan.bind_of_none (hp text htext)

theorem map {g : α → β} (hp : Refuses p) : Refuses (g <$> p) :=
  bind (f := fun a => pure (g a)) hp

theorem orElse (hp : Refuses p) (hq : Refuses q) : Refuses (p <|> q) := by
  intro text htext
  rw [Scan.orElse_of_none (hp text htext)]
  exact hq text htext

theorem firstM {γ : Type} {g : γ → Scan α} {choices : List γ}
    (h : ∀ choice ∈ choices, Refuses (g choice)) :
    Refuses (choices.firstM g) :=
  Scan.firstM_induction (P := Refuses) (fun _ _ => rfl) orElse h

theorem spanned (hp : Refuses p) : Refuses (spanned p) := by
  intro text htext
  rw [Source.spanned, hp text htext]

end Refuses

/-- What a scan reads inside a line is the same text. -/
theorem Alike.spanned (hp : Alike Cut p Before) (hrefuses : Refuses p) :
    Alike Cut (spanned p) Before := by
  intro b y h x x' hx
  obtain ⟨⟨run, rfl, rfl⟩ | ⟨hend, hend', -⟩, hskip, hskip'⟩ := hx
  · rcases hp h ⟨Or.inl ⟨run, rfl, rfl⟩, hskip, hskip'⟩
      with ⟨hnone, hnone'⟩ | ⟨a, _, _, hsome, hsome', left, rfl, rfl⟩
    · rw [Source.spanned, Source.spanned, hnone, hnone']
      exact agree_none
    · have hspan : ∀ z : List Char,
          (run ++ z).take ((run ++ z).length - (left ++ z).length) =
            run.take (run.length - left.length) := by
        intro z
        rw [List.length_append, List.length_append, Nat.add_sub_add_right,
          List.take_append_of_le_length (Nat.sub_le _ _)]
      have hspan₁ := spanned_eq_some.2 ⟨hsome, congrArg String.ofList (hspan b)⟩
      have hspan₂ := spanned_eq_some.2 ⟨hsome', congrArg String.ofList (hspan y)⟩
      exact Or.inr ⟨_, _, _, hspan₁, hspan₂, left, rfl, rfl⟩
  · -- at the end of a line the texts need not have a beginning in common, but nothing is read there
    rw [hrefuses.spanned x hend, hrefuses.spanned x' hend']
    exact agree_none

/-! ## Tokens -/

theorem mem_of_isMarginal (h : isMarginal c = true) : c ∈ [' ', '\t', '\n', '\r', ';'] := by
  simp only [isMarginal, isBlank, isLineEnd, Bool.or_eq_true, decide_eq_true_eq] at h
  simp only [List.mem_cons, List.not_mem_nil, or_false]
  tauto

/-- A test may be tried at the five characters of margins. -/
theorem lenient_of_all {test : Char → Bool}
    (h : [' ', '\t', '\n', '\r', ';'].all (!test ·) = true) : Lenient test := by
  intro c hc
  simpa using List.all_eq_true.1 h c (mem_of_isMarginal hc)

theorem lenient_isNameChar : Lenient isNameChar :=
  lenient_of_all (by decide)

theorem lenient_isDigit : Lenient Char.isDigit :=
  lenient_of_all (by decide)

/-- A text that is not empty and has no margins. -/
def IsSolidText (s : String) : Prop :=
  s.toList ≠ [] ∧ s.toList.all (!isMarginal ·) = true

instance (s : String) : Decidable (IsSolidText s) :=
  inferInstanceAs (Decidable (_ ∧ _))

theorem strip_append_margin {beginning : List Char} (h : ∀ c ∈ beginning, isMarginal c = false)
    (htext : AtMargin text) (run : List Char) :
    strip beginning (run ++ text) = (strip beginning run).map (· ++ text) := by
  induction beginning generalizing run with
  | nil => rfl
  | cons c beginning ih =>
    obtain ⟨hc, hbeginning⟩ := List.forall_mem_cons.1 h
    cases run with
    | nil =>
      obtain ⟨d, rest, rfl, hd⟩ := htext
      have hne : c ≠ d := by
        rintro rfl
        exact absurd hd (by simp [hc])
      show (if c = d then strip beginning rest else none) = none
      rw [if_neg hne]
    | cons d run =>
      rw [List.cons_append, strip, strip]
      split
      · exact ih hbeginning run
      · rfl

theorem confined_literal {s : String} (h : IsSolidText s) : Confined (literal s) := by
  intro run text htext
  have hsolid : ∀ c ∈ s.toList, isMarginal c = false := by
    intro c hc
    simpa using List.all_eq_true.1 h.2 c hc
  rw [literal, literal, strip_append_margin hsolid htext, Option.map_map, Option.map_map]
  rfl

theorem literal_nil {s : String} (h : IsSolidText s) : literal s [] = none := by
  obtain ⟨c, cs, hcs⟩ := List.exists_cons_of_ne_nil h.1
  rw [literal, hcs]
  rfl

theorem atomic_literal {s : String} (h : IsSolidText s) : Atomic (literal s) :=
  (confined_literal h).atomic (literal_nil h)

theorem refuses_literal {s : String} (h : IsSolidText s) : Refuses (literal s) :=
  (confined_literal h).refuses (literal_nil h)

theorem confined_charsIf {test : Char → Bool} (h : Lenient test) : Confined (charsIf test) := by
  intro run text htext
  have hrun : (run ++ text).takeWhile test = run.takeWhile test ∧
      (run ++ text).dropWhile test = run.dropWhile test ++ text := by
    induction run with
    | nil =>
      obtain ⟨c, rest, rfl, hc⟩ := htext
      simp [h c hc]
    | cons c run ih =>
      rw [List.cons_append, List.takeWhile_cons, List.takeWhile_cons, List.dropWhile_cons,
        List.dropWhile_cons]
      split
      · exact ⟨congrArg _ ih.1, ih.2⟩
      · exact ⟨rfl, rfl⟩
  rw [charsIf, charsIf, hrun.1, hrun.2]
  cases run.takeWhile test with
  | nil => rfl
  | cons c taken => rfl

theorem atomic_charsIf {test : Char → Bool} (h : Lenient test) : Atomic (charsIf test) :=
  (confined_charsIf h).atomic rfl

theorem confined_boundary : Confined boundary := by
  intro run text htext
  cases run with
  | nil =>
    obtain ⟨c, rest, rfl, hc⟩ := htext
    rw [List.nil_append, boundary, lenient_isNameChar c hc]
    rfl
  | cons c run =>
    show (if isNameChar c then none else some ((), c :: run ++ text)) =
      (if isNameChar c then none else some ((), c :: run)).map _
    split
    · rfl
    · rfl

theorem atomic_name : Atomic name :=
  (atomic_charsIf lenient_isNameChar).bind fun _ => Alike.pure _

theorem inline_symbol {s : String} (h : IsSolidText s) : Inline (symbol s) :=
  (atomic_literal h).token

theorem inline_keyword {words : List String} (h : ∀ word ∈ words, IsSolidText word) :
    Inline (keyword words) := by
  have hfirst : Atomic (words.firstM fun word => do literal word; return word : Scan String) :=
    Alike.firstM fun word hword => (atomic_literal (h word hword)).bind fun _ => Alike.pure _
  exact (hfirst.bind fun _ => Alike.bind confined_boundary.before fun _ => Alike.pure _).token

theorem refuses_keyword {words : List String} (h : ∀ word ∈ words, IsSolidText word) :
    Refuses (keyword words) :=
  Refuses.bind
    (Refuses.bind (Refuses.firstM fun word hword => (refuses_literal (h word hword)).bind))

/-- A character may be read unless it ends a line. -/
theorem inline_charIf {test : Char → Bool} (h : ∀ c, isLineEnd c = true → test c = false) :
    Inline (token (charIf test)) := by
  have hend : ∀ text, AtLineEnd text → charIf test text = none := by
    rintro _ ⟨c, rest, rfl, hc⟩
    rw [charIf, h c hc]
    rfl
  refine Alike.token fun b y hpads x x' hx => ?_
  rcases hx.cases hpads with ⟨c, run, -, -, rfl, rfl⟩ | ⟨hx, hx', -⟩
  · rw [charIf, charIf]
    split
    · exact agree_some c (Or.inl ⟨run, rfl, rfl⟩)
    · exact agree_none
  · rw [hend x hx, hend x' hx']
    exact agree_none

theorem shortens_literal {s : String} (h : s.toList ≠ []) : Shortens (literal s) := by
  intro text u rest hrun
  have hlength : 0 < s.toList.length := List.length_pos_iff.2 h
  rw [eq_append_of_literal hrun, List.length_append]
  omega

theorem shortens_symbol {s : String} (h : s.toList ≠ []) : Shortens (symbol s) :=
  (shortens_literal h).token

theorem shortens_keyword {words : List String} (h : ∀ word ∈ words, word.toList ≠ []) :
    Shortens (keyword words) := by
  refine Shortens.token (Shortens.bind_left (Shortens.firstM fun word hword => ?_) fun _ => ?_)
  · exact Shortens.bind_left (shortens_literal (h word hword)) fun _ => Reads.pure trivial
  · exact Loose.bind silent_boundary.loose fun _ => Reads.pure trivial

theorem shortens_charIf (test : Char → Bool) : Shortens (token (charIf test)) := by
  refine Shortens.token fun text c rest hrun => ?_
  obtain ⟨-, rfl⟩ := charIf_eq_some.1 hrun
  exact Nat.lt_succ_self _

/-! ## Ends of lines -/

/-- The repetitions of the scan pass over the text up to a character that is looked for. -/
def Passes (scan : Scan α) (stop : Char → Bool) : Prop :=
  ∀ text, skip text = text → (scan text = none ∧ pass stop text = text) ∨
    ∃ a middle, scan text = some (a, skip middle) ∧ middle.length < text.length ∧
      pass stop middle = pass stop text

theorem Passes.repeated_eq (hstop : Lenient stop) (hp : Passes p stop) {n : Nat}
    (hn : text.length ≤ n) (hskip : skip text = text) : (repeated p n text).2 = pass stop text := by
  induction n generalizing text with
  | zero =>
    obtain rfl := List.eq_nil_of_length_eq_zero (Nat.le_zero.1 hn)
    rfl
  | succ n ih =>
    rcases hp text hskip with ⟨hnone, hpass⟩ | ⟨a, middle, hsome, hlength, hpass⟩
    · rw [repeated_of_none hnone, hpass]
    · have hle := (skip_suffix middle).length_le
      rw [repeated_of_some hsome, ih (by omega) (skip_skip middle), pass_skip hstop, hpass]

/-- All repetitions together. -/
theorem Passes.many_eq (hstop : Lenient stop) (hp : Passes p stop) (hskip : skip text = text) :
    ∃ as, many p text = some (as, pass stop text) :=
  ⟨_, congrArg (fun rest => some (_, rest)) (hp.repeated_eq hstop (Nat.le_refl _) hskip)⟩

/-- What the repetitions have found may differ, but what they leave does not. -/
theorem Passes.steady (hstop : Lenient stop) (hp : Passes p stop) :
    Steady ((fun _ => ()) <$> many p) := by
  refine Alike.full fun b y h x x' hx => ?_
  obtain ⟨as, has⟩ := hp.many_eq hstop hx.2.1
  obtain ⟨as', has'⟩ := hp.many_eq hstop hx.2.2
  refine Or.inr ⟨(), _, _, Scan.map_eq_some.2 ⟨as, has, rfl⟩,
    Scan.map_eq_some.2 ⟨as', has', rfl⟩, ?_⟩
  exact Full.pass h hstop (Or.inl hx)

/-- Characters are passed over one by one, with the comments between them. -/
theorem passes_charIf (d : Char) : Passes (token (charIf (· ≠ d))) (· = d) := by
  intro text hskip
  cases text with
  | nil => exact Or.inl ⟨rfl, rfl⟩
  | cons c text =>
    by_cases hc : c = d
    · refine Or.inl ⟨Scan.bind_of_none ?_, ?_⟩
      · rw [charIf, if_neg (by simpa using hc)]
      · rw [pass, passFrom, if_pos (decide_eq_true hc)]
    · refine Or.inr ⟨c, text, ?_, Nat.lt_succ_self _, ?_⟩
      · exact token_eq_some.2 ⟨text, charIf_eq_some.2 ⟨decide_eq_true hc, rfl⟩, rfl⟩
      · rw [pass.eq_1 _ (c :: text), passFrom, if_neg (by simpa using hc),
          decide_eq_false (not_blank_of_skip_eq hskip).2]
        rfl

/-- What does not belong to a margin. -/
def isSolid (c : Char) : Bool :=
  !isMarginal c

theorem lenient_isSolid : Lenient isSolid := by
  intro c hc
  simp [isSolid, hc]

theorem symbol_cons_of_ne {s : String} {d : Char} {run : List Char} (hs : s.toList = d :: run)
    (h : d ≠ c) :
    symbol s (c :: text) = none := by
  refine Scan.bind_of_none ?_
  rw [literal, hs, strip, if_neg h]
  rfl

/-- The end of a line is read whole, whichever it is. -/
theorem exists_lineEnd (hc : isLineEnd c = true) (text : List Char) :
    ∃ middle, lineEnd (c :: text) = some ((), skip middle) ∧ middle <:+ text ∧
      ∀ stop, Lenient stop → pass stop middle = pass stop (c :: text) := by
  have hpass : ∀ stop, Lenient stop → pass stop text = pass stop (c :: text) :=
    fun stop hstop => (passFrom_cons_of_isLineEnd hstop hc false).symm
  -- a carriage return takes a line feed that follows with it
  rcases eq_of_isLineEnd hc with rfl | rfl
  · exact ⟨text, rfl, List.suffix_refl text, hpass⟩
  · cases text with
    | nil => exact ⟨[], rfl, List.suffix_refl [], hpass⟩
    | cons d text =>
      by_cases hd : '\n' = d
      · subst hd
        refine ⟨text, rfl, List.suffix_cons _ _, fun stop hstop => ?_⟩
        rw [← hpass stop hstop]
        exact (passFrom_cons_of_isLineEnd hstop (by decide) false).symm
      · refine ⟨d :: text, ?_, List.suffix_refl _, hpass⟩
        have hpair : symbol "\r\n" ('\r' :: d :: text) = none := by
          refine Scan.bind_of_none ?_
          show (if '\n' = d then some text else none).map _ = none
          rw [if_neg hd]
          rfl
        rw [lineEnd, Scan.orElse_of_none hpair]
        rfl

theorem lineEnd_eq_none (h : ¬AtLineEnd text) : lineEnd text = none := by
  cases text with
  | nil => rfl
  | cons c text =>
    have hc := isLineEnd_eq_false_of_not h
    have hne : '\n' ≠ c ∧ '\r' ≠ c := by
      constructor
      · rintro rfl
        exact absurd hc (by decide)
      · rintro rfl
        exact absurd hc (by decide)
    have hpair : symbol "\r\n" (c :: text) = none := symbol_cons_of_ne rfl hne.2
    have hfeed : symbol "\n" (c :: text) = none := symbol_cons_of_ne rfl hne.1
    rw [lineEnd, Scan.orElse_of_none hpair, Scan.orElse_of_none hfeed]
    exact symbol_cons_of_ne rfl hne.2

theorem passes_lineEnd : Passes lineEnd isSolid := by
  intro text hskip
  by_cases hend : AtLineEnd text
  · obtain ⟨c, rest, rfl, hc⟩ := hend
    obtain ⟨middle, hmiddle, hsuffix, hpass⟩ := exists_lineEnd hc rest
    exact Or.inr ⟨(), middle, hmiddle, Nat.lt_succ_of_le hsuffix.length_le, hpass _ lenient_isSolid⟩
  · refine Or.inl ⟨lineEnd_eq_none hend, ?_⟩
    cases text with
    | nil => rfl
    | cons c text =>
      obtain ⟨hblank, hcomment⟩ := not_blank_of_skip_eq hskip
      have hc := isLineEnd_eq_false_of_not hend
      rw [pass, passFrom, if_pos (by simp [isSolid, isMarginal, hblank, hcomment, hc])]

/-- Blank lines are passed over. -/
theorem steady_many_lineEnd : Steady ((fun _ => ()) <$> many lineEnd) :=
  passes_lineEnd.steady lenient_isSolid

/-- The end of a line is passed over, with blank lines after it. -/
theorem steady_manyOne_lineEnd : Steady ((fun _ => ()) <$> manyOne lineEnd) := by
  -- at the end of a line reading goes on to the next token, and elsewhere it fails at once
  have hmany : ∀ text, AtLineEnd text →
      ∃ as, manyOne lineEnd text = some (as, pass isSolid text) := by
    rintro _ ⟨c, rest, rfl, hc⟩
    obtain ⟨middle, hmiddle, -, hpass⟩ := exists_lineEnd hc rest
    obtain ⟨as, has⟩ := passes_lineEnd.many_eq lenient_isSolid (skip_skip middle)
    rw [pass_skip lenient_isSolid, hpass _ lenient_isSolid] at has
    exact ⟨_, Scan.bind_eq_some.2 ⟨(), _, hmiddle, Scan.bind_eq_some.2 ⟨as, _, has, rfl⟩⟩⟩
  have hnone : ∀ text, ¬AtLineEnd text → ((fun _ => ()) <$> manyOne lineEnd) text = none := by
    intro text htext
    have hfirst : manyOne lineEnd text = none := Scan.bind_of_none (lineEnd_eq_none htext)
    show (manyOne lineEnd >>= fun _ => pure ()) text = none
    exact Scan.bind_of_none hfirst
  refine Alike.full fun b y h x x' hx => ?_
  by_cases hend : AtLineEnd x
  · obtain ⟨as, has⟩ := hmany x hend
    obtain ⟨as', has'⟩ := hmany x' ((hx.atLineEnd_iff h).1 hend)
    refine Or.inr ⟨(), _, _, Scan.map_eq_some.2 ⟨as, has, rfl⟩,
      Scan.map_eq_some.2 ⟨as', has', rfl⟩, ?_⟩
    exact Full.pass h lenient_isSolid (Or.inl hx)
  · rw [hnone x hend, hnone x' (mt (hx.atLineEnd_iff h).2 hend)]
    exact agree_none

end Dataflow.Source
