import Dataflow.Proofs.Scanning

/-!
# Padding at the ends of lines

Two texts that differ only in how a line ends are compared while they are scanned.  Up to that end
they are equal.  Past it nothing is left to tell them apart, since blanks, comments and empty lines
are passed over together.

* `passFrom`, `pass`: passing over a text up to a character that is looked for, comments aside.
* `Pads`: what may stand in the place of the end of a line.
* `Before`, `AtEnd`, `Raw`, `Cut`, `Full`: how two texts stand to each other while they are scanned.
* `Raw.skip`, `Full.pass`: skipping and passing over keep two texts together.
* `IsMargin.pads`, `pads_repeat`: blanks and a comment may be put in front of the end of a line, and
  it may be repeated.
-/

namespace Dataflow.Source

/-! ## Passing over lines -/

/-- A character that may stand at the end of a line: a blank, the start of a comment, or the end
itself. -/
def isMarginal (c : Char) : Bool :=
  isBlank c || isLineEnd c || c = ';'

/-- What is left from the first character that is looked for, from inside a comment or from
outside. -/
def passFrom (stop : Char → Bool) : Bool → List Char → List Char
  | _, [] => []
  | true, c :: text => passFrom stop (!isLineEnd c) text
  | false, c :: text => if stop c then c :: text else passFrom stop (c = ';') text

/-- What is left from the first character that is looked for, outside comments. -/
def pass (stop : Char → Bool) (text : List Char) : List Char :=
  passFrom stop false text

/-- A margin is never what is looked for. -/
def Lenient (stop : Char → Bool) : Prop :=
  ∀ c, isMarginal c = true → stop c = false

/-- The end of a line is here. -/
def AtLineEnd (text : List Char) : Prop :=
  ∃ c rest, text = c :: rest ∧ isLineEnd c = true

/-- A margin starts here. -/
def AtMargin (text : List Char) : Prop :=
  ∃ c rest, text = c :: rest ∧ isMarginal c = true

variable {text rest b y x x' : List Char} {stop : Char → Bool} {c : Char}

theorem isMarginal_of_isLineEnd (h : isLineEnd c = true) : isMarginal c = true := by
  simp [isMarginal, h]

theorem isMarginal_of_isBlank (h : isBlank c = true) : isMarginal c = true := by
  simp [isMarginal, h]

theorem eq_of_isLineEnd (h : isLineEnd c = true) : c = '\n' ∨ c = '\r' := by
  simpa [isLineEnd] using h

theorem isLineEnd_eq_false_of_not (h : ¬AtLineEnd (c :: text)) : isLineEnd c = false := by
  by_contra hc
  exact h ⟨c, text, rfl, Bool.not_eq_false _ ▸ hc⟩

/-- The end of a line is no blank and starts no comment. -/
theorem not_blank_of_isLineEnd (h : isLineEnd c = true) : isBlank c = false ∧ c ≠ ';' := by
  rcases eq_of_isLineEnd h with rfl | rfl
  · decide
  · decide

theorem AtLineEnd.atMargin (h : AtLineEnd text) : AtMargin text := by
  obtain ⟨c, rest, rfl, hc⟩ := h
  exact ⟨c, rest, rfl, isMarginal_of_isLineEnd hc⟩

theorem AtLineEnd.skip_eq (h : AtLineEnd text) : skip text = text := by
  obtain ⟨c, rest, rfl, hc⟩ := h
  exact skip_cons (not_blank_of_isLineEnd hc).1 (not_blank_of_isLineEnd hc).2

theorem skip_cons_of_blank (h : isBlank c = true) : skip (c :: text) = skip text := by
  rw [skip, skip, List.dropWhile_cons, if_pos h]

theorem skip_comment (text : List Char) : skip (';' :: text) = text.dropWhile (!isLineEnd ·) :=
  rfl

theorem AtLineEnd.dropWhile_eq (h : AtLineEnd text) : text.dropWhile (!isLineEnd ·) = text := by
  obtain ⟨c, rest, rfl, hc⟩ := h
  rw [List.dropWhile_cons, if_neg (by simp [hc])]

theorem atLineEnd_of_dropWhile (h : text.dropWhile (!isLineEnd ·) ≠ []) :
    AtLineEnd (text.dropWhile (!isLineEnd ·)) := by
  obtain ⟨c, rest, heq⟩ := List.exists_cons_of_ne_nil h
  have hend := List.head?_dropWhile_not (fun c => !isLineEnd c) text
  rw [heq] at hend
  exact ⟨c, rest, heq, by simpa using hend⟩

/-- Nothing is left to skip after skipping. -/
theorem skip_skip (text : List Char) : skip (skip text) = skip text := by
  induction text with
  | nil => rfl
  | cons c text ih =>
    cases hblank : isBlank c with
    | true =>
      rw [skip_cons_of_blank hblank]
      exact ih
    | false =>
      by_cases hcomment : c = ';'
      · subst hcomment
        rw [skip_comment]
        by_cases hnil : text.dropWhile (!isLineEnd ·) = []
        · rw [hnil]
          rfl
        · exact (atLineEnd_of_dropWhile hnil).skip_eq
      · rw [skip_cons hblank hcomment, skip_cons hblank hcomment]

/-- Where nothing is skipped, no blank and no comment starts. -/
theorem not_blank_of_skip_eq (h : skip (c :: text) = c :: text) : isBlank c = false ∧ c ≠ ';' := by
  have hshorter : ∀ rest, rest <:+ text → rest ≠ c :: text := by
    rintro rest hsuffix rfl
    exact absurd hsuffix.length_le (by simp)
  constructor
  · by_contra hblank
    rw [skip_cons_of_blank (by simpa using hblank)] at h
    exact hshorter _ (skip_suffix text) h
  · rintro rfl
    rw [skip_comment] at h
    exact hshorter _ (List.dropWhile_suffix _) h

theorem passFrom_cons_of_isLineEnd (hstop : Lenient stop) (hc : isLineEnd c = true)
    (inside : Bool) :
    passFrom stop inside (c :: text) = pass stop text := by
  cases inside with
  | true =>
    rw [passFrom, hc]
    rfl
  | false =>
    rw [passFrom, hstop c (isMarginal_of_isLineEnd hc), if_neg Bool.false_ne_true,
      decide_eq_false (not_blank_of_isLineEnd hc).2]
    rfl

/-- At the end of a line it does not matter whether a comment was open. -/
theorem AtLineEnd.passFrom_eq (h : AtLineEnd text) (hstop : Lenient stop) (inside : Bool) :
    passFrom stop inside text = pass stop text := by
  obtain ⟨c, rest, rfl, hc⟩ := h
  rw [passFrom_cons_of_isLineEnd hstop hc, pass.eq_1 stop (c :: rest),
    passFrom_cons_of_isLineEnd hstop hc]

/-- A comment is passed over up to the end of its line. -/
theorem passFrom_true (hstop : Lenient stop) (text : List Char) :
    passFrom stop true text = pass stop (text.dropWhile (!isLineEnd ·)) := by
  induction text with
  | nil => rfl
  | cons c text ih =>
    rw [List.dropWhile_cons]
    cases hc : isLineEnd c with
    | true => exact AtLineEnd.passFrom_eq ⟨c, text, rfl, hc⟩ hstop true
    | false =>
      rw [passFrom, hc]
      exact ih

/-- What is skipped is passed over. -/
theorem pass_skip (hstop : Lenient stop) (text : List Char) :
    pass stop (skip text) = pass stop text := by
  induction text with
  | nil => rfl
  | cons c text ih =>
    cases hblank : isBlank c with
    | true =>
      have hcomment : c ≠ ';' := by
        rintro rfl
        exact absurd hblank (by decide)
      rw [skip_cons_of_blank hblank, ih, pass, pass, passFrom,
        hstop c (isMarginal_of_isBlank hblank), if_neg Bool.false_ne_true, decide_eq_false hcomment]
    | false =>
      by_cases hcomment : c = ';'
      · subst hcomment
        rw [skip_comment, ← passFrom_true hstop, pass, passFrom, hstop ';' rfl,
          if_neg Bool.false_ne_true, decide_eq_true rfl]
      · rw [skip_cons hblank hcomment]

/-! ## Two texts side by side -/

/-- What may stand in the place of the end of a line: it is a margin and another end of a line, and
everything that is passed over from there is the same. -/
structure Pads (b y : List Char) : Prop where
  lineEnd : AtLineEnd b
  margin : AtMargin y
  skip : AtLineEnd (skip y)
  passFrom : ∀ stop, Lenient stop → ∀ inside, passFrom stop inside y = passFrom stop inside b

/-- How two texts stand to each other, if one has `y` where the other has `b`. -/
abbrev Stand := List Char → List Char → List Char → List Char → Prop

/-- The two texts are equal up to where they differ. -/
def Before : Stand := fun b y x x' =>
  ∃ run, x = run ++ b ∧ x' = run ++ y

/-- The two texts are at the end of a line, and what is passed over from there is the same. -/
def AtEnd (x x' : List Char) : Prop :=
  AtLineEnd x ∧ AtLineEnd x' ∧ ∀ stop, Lenient stop → pass stop x = pass stop x'

/-- The two texts have not been read past the place where they differ. -/
def Raw : Stand := fun b y x x' =>
  Before b y x x' ∨ AtEnd x x'

/-- The same, between tokens. -/
def Cut : Stand := fun b y x x' =>
  Raw b y x x' ∧ skip x = x ∧ skip x' = x'

/-- Between tokens, the two texts have not been read past the place where they differ, or they are
equal. -/
def Full : Stand := fun b y x x' =>
  Cut b y x x' ∨ x = x'

theorem before_le_raw : Before ≤ Raw :=
  fun _ _ _ _ h => Or.inl h

theorem cut_le_raw : Cut ≤ Raw :=
  fun _ _ _ _ h => h.1

theorem cut_le_full : Cut ≤ Full :=
  fun _ _ _ _ h => Or.inl h

/-- Between tokens, two texts start with the same character or are at the end of a line. -/
theorem Cut.cases (h : Pads b y) (hx : Cut b y x x') :
    (∃ c run, isBlank c = false ∧ c ≠ ';' ∧ x = c :: (run ++ b) ∧ x' = c :: (run ++ y)) ∨
    AtEnd x x' := by
  obtain ⟨⟨run, rfl, rfl⟩ | hend, hskip, hskip'⟩ := hx
  · cases run with
    | nil =>
      have hy : AtLineEnd y := by
        have hskip' : skip y = y := hskip'
        exact hskip' ▸ h.skip
      exact Or.inr ⟨h.lineEnd, hy, fun stop hstop => (h.passFrom stop hstop false).symm⟩
    | cons c run =>
      obtain ⟨hblank, hcomment⟩ := not_blank_of_skip_eq hskip
      exact Or.inl ⟨c, run, hblank, hcomment, rfl, rfl⟩
  · exact Or.inr hend

/-- Leaving a comment leads to the same place in both texts. -/
theorem raw_dropWhile (h : Pads b y) (run : List Char) :
    Raw b y ((run ++ b).dropWhile (!isLineEnd ·)) ((run ++ y).dropWhile (!isLineEnd ·)) := by
  induction run with
  | nil =>
    have hy : AtLineEnd (y.dropWhile (!isLineEnd ·)) := by
      obtain ⟨c, rest, heq, hc⟩ := h.skip
      have hmem : c ∈ y := (skip_suffix y).subset (heq ▸ List.mem_cons_self)
      refine atLineEnd_of_dropWhile fun hnil => ?_
      have hall := List.dropWhile_eq_nil_iff.1 hnil c hmem
      simp [hc] at hall
    refine Or.inr ⟨h.lineEnd.dropWhile_eq.symm ▸ h.lineEnd, hy, fun stop hstop => ?_⟩
    calc pass stop (b.dropWhile (!isLineEnd ·))
      _ = passFrom stop true b := (passFrom_true hstop b).symm
      _ = passFrom stop true y := (h.passFrom stop hstop true).symm
      _ = pass stop (y.dropWhile (!isLineEnd ·)) := passFrom_true hstop y
  | cons c run ih =>
    rw [List.cons_append, List.cons_append, List.dropWhile_cons, List.dropWhile_cons]
    split
    · exact ih
    · exact Or.inl ⟨c :: run, rfl, rfl⟩

/-- Skipping leads to the same place in both texts. -/
theorem Raw.skip (h : Pads b y) (hx : Raw b y x x') : Cut b y (skip x) (skip x') := by
  refine ⟨?_, skip_skip x, skip_skip x'⟩
  rcases hx with ⟨run, rfl, rfl⟩ | hend
  · -- skipping stops inside the run, or leaves it only where the texts differ
    induction run with
    | nil =>
      refine Or.inr ⟨h.lineEnd.skip_eq.symm ▸ h.lineEnd, h.skip, fun stop hstop => ?_⟩
      rw [pass_skip hstop, pass_skip hstop]
      exact (h.passFrom stop hstop false).symm
    | cons c run ih =>
      rw [List.cons_append, List.cons_append]
      cases hblank : isBlank c with
      | true =>
        rw [skip_cons_of_blank hblank, skip_cons_of_blank hblank]
        exact ih
      | false =>
        by_cases hcomment : c = ';'
        · subst hcomment
          rw [skip_comment, skip_comment]
          exact raw_dropWhile h run
        · rw [skip_cons hblank hcomment, skip_cons hblank hcomment]
          exact Or.inl ⟨c :: run, rfl, rfl⟩
  · rw [hend.1.skip_eq, hend.2.1.skip_eq]
    exact Or.inr hend

/-- Passing over leads to the same place in both texts, or past the place where they differ. -/
theorem Full.pass (h : Pads b y) (hstop : Lenient stop) (hx : Full b y x x') :
    Full b y (pass stop x) (pass stop x') := by
  have hrun : ∀ run inside,
      Full b y (passFrom stop inside (run ++ b)) (passFrom stop inside (run ++ y)) := by
    intro run
    induction run with
    | nil => exact fun inside => Or.inr (h.passFrom stop hstop inside).symm
    | cons c run ih =>
      intro inside
      rw [List.cons_append, List.cons_append]
      cases inside with
      | true => exact ih _
      | false =>
        rw [passFrom, passFrom]
        split
        · rename_i hc
          -- what is looked for is no margin, so a token starts there
          have hmarginal : isMarginal c = false := by
            by_contra hmarginal
            exact absurd hc (by simp [hstop c (by simpa using hmarginal)])
          simp only [isMarginal, Bool.or_eq_false_iff, decide_eq_false_iff_not] at hmarginal
          obtain ⟨⟨hblank, -⟩, hcomment⟩ := hmarginal
          exact Or.inl ⟨Or.inl ⟨c :: run, rfl, rfl⟩, skip_cons hblank hcomment,
            skip_cons hblank hcomment⟩
        · exact ih _
  rcases hx with ⟨⟨run, rfl, rfl⟩ | hend, -⟩ | rfl
  · exact hrun run false
  · exact Or.inr (hend.2.2 stop hstop)
  · exact Or.inr rfl

/-- One of two texts is at its end exactly if the other is. -/
theorem Full.eq_nil_iff (h : Pads b y) (hx : Full b y x x') : x = [] ↔ x' = [] := by
  obtain ⟨cb, restb, rfl, -⟩ := h.lineEnd
  obtain ⟨cy, resty, rfl, -⟩ := h.margin
  rcases hx with ⟨⟨run, rfl, rfl⟩ | ⟨⟨c, rest, rfl, -⟩, ⟨c', rest', rfl, -⟩, -⟩, -⟩ | rfl
  · simp
  · simp
  · rfl

/-- One of two texts is at the end of a line exactly if the other is. -/
theorem Cut.atLineEnd_iff (h : Pads b y) (hx : Cut b y x x') : AtLineEnd x ↔ AtLineEnd x' := by
  rcases hx.cases h with ⟨c, run, -, -, rfl, rfl⟩ | ⟨hend, hend', -⟩
  · simp [AtLineEnd]
  · exact ⟨fun _ => hend', fun _ => hend⟩

/-! ## What pads the end of a line -/

/-- Blanks, and a comment up to the end of the line. -/
def IsMargin (run : List Char) : Prop :=
  ∃ blanks comment, run = blanks ++ comment ∧ (∀ c ∈ blanks, isBlank c = true) ∧
    (comment = [] ∨ ∃ words, comment = ';' :: words ∧ ∀ c ∈ words, isLineEnd c = false)

namespace IsMargin

variable {margin : List Char}

/-- A margin does not end its line. -/
theorem isLineEnd_eq_false (h : IsMargin margin) : ∀ c ∈ margin, isLineEnd c = false := by
  obtain ⟨blanks, comment, rfl, hblanks, hcomment⟩ := h
  intro c hc
  rcases List.mem_append.1 hc with hc | hc
  · by_contra hend
    exact absurd (hblanks c hc) (by simp [not_blank_of_isLineEnd (by simpa using hend)])
  · rcases hcomment with rfl | ⟨words, rfl, hwords⟩
    · cases hc
    · rcases List.mem_cons.1 hc with rfl | hc
      · decide
      · exact hwords c hc

theorem atMargin (h : IsMargin margin) (hb : AtLineEnd b) : AtMargin (margin ++ b) := by
  obtain ⟨blanks, comment, rfl, hblanks, hcomment⟩ := h
  cases blanks with
  | cons c blanks => exact ⟨c, _, rfl, isMarginal_of_isBlank (hblanks c List.mem_cons_self)⟩
  | nil =>
    rcases hcomment with rfl | ⟨words, rfl, -⟩
    · exact hb.atMargin
    · exact ⟨';', _, rfl, by decide⟩

/-- Skipping passes over a margin. -/
theorem skip_append (h : IsMargin margin) (hb : AtLineEnd b) : skip (margin ++ b) = b := by
  obtain ⟨blanks, comment, rfl, hblanks, hcomment⟩ := h
  induction blanks with
  | cons c blanks ih =>
    rw [List.cons_append, List.cons_append, skip_cons_of_blank (hblanks c List.mem_cons_self)]
    exact ih fun c hc => hblanks c (List.mem_cons_of_mem _ hc)
  | nil =>
    rcases hcomment with rfl | ⟨words, rfl, hwords⟩
    · exact hb.skip_eq
    · rw [List.nil_append, List.cons_append, skip_comment,
        List.dropWhile_append_of_pos fun c hc => by simp [hwords c hc], hb.dropWhile_eq]

/-- **A margin may be put in front of the end of a line.** -/
theorem pads (h : IsMargin margin) (hb : AtLineEnd b) : Pads b (margin ++ b) := by
  have hskip := h.skip_append hb
  refine ⟨hb, h.atMargin hb, hskip.symm ▸ hb, fun stop hstop inside => ?_⟩
  cases inside with
  | true =>
    rw [passFrom_true hstop, passFrom_true hstop,
      List.dropWhile_append_of_pos fun c hc => by simp [h.isLineEnd_eq_false c hc]]
  | false =>
    show pass stop (margin ++ b) = pass stop b
    rw [← pass_skip hstop, hskip]

end IsMargin

/-- Ends of lines are passed over. -/
theorem passFrom_append_of_isLineEnd (hstop : Lenient stop) {run : List Char} (hne : run ≠ [])
    (hrun : ∀ c ∈ run, isLineEnd c = true) (inside : Bool) :
    passFrom stop inside (run ++ text) = pass stop text := by
  induction run generalizing inside with
  | nil => exact absurd rfl hne
  | cons c run ih =>
    obtain ⟨hc, hrun⟩ := List.forall_mem_cons.1 hrun
    rw [List.cons_append, passFrom_cons_of_isLineEnd hstop hc]
    cases run with
    | nil => rfl
    | cons d run => exact ih (List.cons_ne_nil d run) hrun false

/-- **The end of a line may be repeated.** -/
theorem pads_repeat {newline : List Char} (hne : newline ≠ [])
    (hnewline : ∀ c ∈ newline, isLineEnd c = true) (rest : List Char) :
    Pads (newline ++ rest) (newline ++ (newline ++ rest)) := by
  have hend : ∀ text, AtLineEnd (newline ++ text) := by
    obtain ⟨c, run, rfl⟩ := List.exists_cons_of_ne_nil hne
    exact fun text => ⟨c, run ++ text, rfl, hnewline c List.mem_cons_self⟩
  refine ⟨hend rest, (hend _).atMargin, (hend _).skip_eq.symm ▸ hend _, fun stop hstop inside => ?_⟩
  rw [passFrom_append_of_isLineEnd hstop hne hnewline,
    passFrom_append_of_isLineEnd hstop hne hnewline]
  exact passFrom_append_of_isLineEnd hstop hne hnewline false

end Dataflow.Source
