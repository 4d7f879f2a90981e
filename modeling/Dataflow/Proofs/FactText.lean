import Dataflow.Proofs.Encoding

/-!
# Written facts can be told apart

A fact is written as one line: numbers of any length, cells and groups of cells, with single
characters between them.  Each part says where it ends: a number at the first character that is no
digit, a list at a character that begins none of its members.  So a line can be taken apart in one
way only, and two facts that are written alike are the same.

* `SelfDelimiting`: in front of any rest, what is written tells the value and the rest.
* `SelfDelimiting.pair`, `SelfDelimiting.list`: what is made of such parts is such again.
* `Decimal.selfDelimiting_toString`, `Cell.selfDelimiting_text`: numbers and cells with a mark
  behind them.
* `facts_text_eq_iff`: **the text of a fact determines the fact.**
-/

namespace Dataflow

variable {α β : Type}

/-- Whatever follows, the text that a value is written as tells the value and what follows. -/
def SelfDelimiting (write : α → List Char) : Prop :=
  ∀ a b s t, write a ++ s = write b ++ t → a = b ∧ s = t

namespace SelfDelimiting

variable {write : α → List Char} {write' : β → List Char}

/-- One value after another. -/
theorem pair (h : SelfDelimiting write) (h' : SelfDelimiting write') :
    SelfDelimiting fun p : α × β => write p.1 ++ write' p.2 := by
  rintro ⟨a, b⟩ ⟨a', b'⟩ s t heq
  simp only [List.append_assoc] at heq
  obtain ⟨rfl, hrest⟩ := h _ _ _ _ heq
  obtain ⟨rfl, rfl⟩ := h' _ _ _ _ hrest
  exact ⟨rfl, rfl⟩

/-- Fixed text around a value changes nothing. -/
theorem between (h : SelfDelimiting write) (opening closing : List Char) :
    SelfDelimiting fun a => opening ++ write a ++ closing := by
  intro a b s t heq
  simp only [List.append_assoc, List.append_cancel_left_eq] at heq
  obtain ⟨rfl, hrest⟩ := h _ _ _ _ heq
  exact ⟨rfl, List.append_cancel_left hrest⟩

/-- **A list ends at a character that begins none of its members.** -/
theorem list (h : SelfDelimiting write) {stop : Char}
    (hfirst : ∀ a, ∃ c rest, write a = c :: rest ∧ c ≠ stop) :
    SelfDelimiting fun l : List α => l.flatMap write ++ [stop] := by
  -- the end of one list would be the beginning of a member of the other
  have hend : ∀ a l s t, stop :: s ≠ (a :: l).flatMap write ++ t := by
    intro a l s t heq
    obtain ⟨c, rest, hwrite, hne⟩ := hfirst a
    rw [List.flatMap_cons, hwrite, List.cons_append, List.cons_append, List.cons.injEq] at heq
    exact hne heq.1.symm
  intro l l' s t heq
  simp only [List.append_assoc, List.singleton_append] at heq
  induction l generalizing l' with
  | nil =>
    cases l' with
    | nil => exact ⟨rfl, (List.cons.inj heq).2⟩
    | cons b l' => exact absurd heq (hend b l' s _)
  | cons a l ih =>
    cases l' with
    | nil => exact absurd heq.symm (hend a l t _)
    | cons b l' =>
      rw [List.flatMap_cons, List.flatMap_cons, List.append_assoc, List.append_assoc] at heq
      obtain ⟨rfl, hrest⟩ := h _ _ _ _ heq
      obtain ⟨rfl, rfl⟩ := ih l' hrest
      exact ⟨rfl, rfl⟩

/-- At the end of the text no closing character is needed. -/
theorem flatMap_injective (h : SelfDelimiting write) {stop : Char}
    (hfirst : ∀ a, ∃ c rest, write a = c :: rest ∧ c ≠ stop) {l l' : List α}
    (heq : l.flatMap write = l'.flatMap write) :
    l = l' :=
  (h.list hfirst l l' [] [] (by simp only [heq])).1

end SelfDelimiting

/-! ## Numbers and cells -/

namespace Decimal

/-- **A number ends at the first character that is no digit.** -/
theorem selfDelimiting_toString {mark : Char} (hmark : mark.isDigit = false) :
    SelfDelimiting fun n : Nat => (toString n).toList ++ [mark] := by
  intro m n s t heq
  have hdigits : ∀ (n : Nat) (rest : List Char),
      ((toString n).toList ++ [mark] ++ rest).takeWhile Char.isDigit = (toString n).toList := by
    intro n rest
    rw [List.append_assoc, List.takeWhile_append_of_pos fun c => isDigit_of_mem_toString]
    simp [hmark]
  have hsame : (toString m).toList = (toString n).toList := by
    rw [← hdigits m s, ← hdigits n t]
    exact congrArg _ heq
  obtain rfl : m = n := toString_injective (String.toList_inj.1 hsame)
  exact ⟨rfl, List.append_cancel_left heq⟩

end Decimal

namespace Cell

theorem letter_injective {kind kind' : CellKind} (h : letter kind = letter kind') :
    kind = kind' := by
  cases kind <;> cases kind' <;> simp [letter] at h ⊢

theorem selfDelimiting_text {mark : Char} (hmark : mark.isDigit = false) :
    SelfDelimiting fun c : Cell => c.text.toList ++ [mark] := by
  rintro ⟨kind, owner⟩ ⟨kind', owner'⟩ s t heq
  simp only [toList_text, List.cons_append, List.cons.injEq] at heq
  obtain rfl := letter_injective heq.1
  obtain ⟨rfl, rfl⟩ := Decimal.selfDelimiting_toString hmark _ _ _ _ heq.2
  exact ⟨rfl, rfl⟩

/-- No cell begins with a character that is not the letter of a kind. -/
theorem exists_cons_text (c : Cell) (rest : List Char) {stop : Char} (hmemory : stop ≠ 'M')
    (hregister : stop ≠ 'R') :
    ∃ first more, c.text.toList ++ rest = first :: more ∧ first ≠ stop := by
  refine ⟨letter c.kind, _, by rw [toList_text, List.cons_append], ?_⟩
  cases c.kind with
  | memory => exact hmemory.symm
  | register => exact hregister.symm

end Cell

/-! ## Facts -/

namespace IndexSet

theorem text_injective {a b : IndexSet} (h : a.text = b.text) : a = b := by
  have hfirst : ∀ n : Nat, ∃ c rest, (toString n).toList ++ ['|'] = c :: rest ∧ c ≠ '|' := by
    intro n
    obtain ⟨c, digits, hdigits⟩ := List.exists_cons_of_ne_nil (Decimal.toString_ne_nil n)
    have hc : c.isDigit = true := Decimal.isDigit_of_mem_toString (hdigits ▸ List.mem_cons_self)
    refine ⟨c, digits ++ ['|'], by rw [hdigits, List.cons_append], ?_⟩
    rintro rfl
    exact absurd hc (by decide)
  have hlists := congrArg String.toList h
  simp only [text, String.toList_join, List.flatMap_map, String.toList_append] at hlists
  have hnumber : SelfDelimiting fun n : Nat => (toString n).toList ++ ['|'] :=
    Decimal.selfDelimiting_toString (by decide)
  have hmembers := hnumber.flatMap_injective hfirst hlists
  obtain ⟨l, hl⟩ := a
  obtain ⟨r, hr⟩ := b
  cases hmembers
  rfl

end IndexSet

namespace PointsTo

/-- The targets of a cell with the bracket behind them. -/
theorem selfDelimiting_targets :
    SelfDelimiting fun l : List Cell => (l.flatMap fun c => c.text.toList ++ ['/']) ++ [')'] := by
  have hcell : SelfDelimiting fun c : Cell => c.text.toList ++ ['/'] :=
    Cell.selfDelimiting_text (by decide)
  exact hcell.list fun c => c.exists_cons_text ['/'] (by decide) (by decide)

theorem toList_entryText (entry : Cell × SortedSet Cell) :
    (entryText entry).toList = (entry.1.text.toList ++ ['-']) ++
      (['>', '('] ++ ((entry.2.toList.flatMap fun c => c.text.toList ++ ['/']) ++ [')']) ++
        ['|']) := by
  simp [entryText, List.flatMap_map]

/-- **An entry ends at the bar that follows its bracket**, whether or not there are targets
inside. -/
theorem selfDelimiting_entryText :
    SelfDelimiting fun entry : Cell × SortedSet Cell => (entryText entry).toList := by
  have hcell : SelfDelimiting fun c : Cell => c.text.toList ++ ['-'] :=
    Cell.selfDelimiting_text (by decide)
  have hparts := hcell.pair (selfDelimiting_targets.between ['>', '('] ['|'])
  rintro ⟨cell, l, hl⟩ ⟨cell', r, hr⟩ s t heq
  simp only [toList_entryText] at heq
  obtain ⟨hsame, rfl⟩ := hparts (cell, l) (cell', r) s t heq
  cases hsame
  exact ⟨rfl, rfl⟩

theorem text_injective {a b : PointsTo} (h : a.text = b.text) : a = b := by
  have hfirst : ∀ entry, ∃ c rest, (entryText entry).toList = c :: rest ∧ c ≠ '|' := by
    intro entry
    rw [toList_entryText, List.append_assoc]
    exact entry.1.exists_cons_text _ (by decide) (by decide)
  have hlists := congrArg String.toList h
  simp only [text, String.toList_join, List.flatMap_map] at hlists
  have hentries := selfDelimiting_entryText.flatMap_injective hfirst hlists
  obtain ⟨l, hl⟩ := a
  obtain ⟨r, hr⟩ := b
  cases hentries
  rfl

end PointsTo

/-- **The text of a fact determines the fact**: two sets of indices are written alike only if they
are the same, and so are two points-to facts, where a cell with an entry but no targets is told from
a cell without an entry. -/
theorem facts_text_eq_iff :
    (∀ a b : IndexSet, Printable.text a = Printable.text b ↔ a = b) ∧
      ∀ a b : PointsTo, Printable.text a = Printable.text b ↔ a = b := by
  constructor
  · intro a b
    exact ⟨IndexSet.text_injective, congrArg _⟩
  · intro a b
    exact ⟨PointsTo.text_injective, congrArg _⟩

end Dataflow
