import Dataflow.Proofs.Spelling
import Dataflow.Proofs.Verdicts

/-!
# Types are read back as they were written

A written type is read from left to right: a base, then stars.  Inside an array the elements end
where the bracket closes, and stars that follow a type belong to it and not to its elements.  So a
type that can be written at all is read back from its written form, and nothing of the form is left.

* `Ty.Written`: no part of the type is a branch target.
* `Decimal.readBelow?_toString`: numbers that fit are read back.
* `TypeEnd`, `Starred`: what follows a type inside another one.
* `typeWithin_text`: a written type is read back in front of stars and a closing bracket.
* `lowerType_typeExpr_text`: types survive writing and reading, and so do those that are read.
-/

namespace Dataflow

/-! ## Numbers -/

namespace Decimal

theorem isDigit_of_mem_toString {n : Nat} {c : Char} (h : c ∈ (toString n).toList) :
    c.isDigit = true := by
  rw [Nat.toString_eq_repr, Nat.toList_repr] at h
  exact Nat.isDigit_of_mem_toDigits (by decide) (by decide) h

theorem toString_ne_nil (n : Nat) : (toString n).toList ≠ [] := by
  rw [Nat.toString_eq_repr, Nat.toList_repr]
  exact Nat.toDigits_ne_nil

theorem value_toString (n : Nat) : value (toString n).toList = n := by
  rw [Nat.toString_eq_repr, Nat.toList_repr, value, ← Nat.ofDigitChars_eq_foldl]
  exact Nat.ofDigitChars_ten_toDigits

theorem toString_injective {m n : Nat} (h : toString m = toString n) : m = n := by
  rw [← value_toString m, h, value_toString]

/-- A number that fits is read back. -/
theorem readBelow?_toString {bound n : Nat} (h : n < bound) :
    readBelow? bound (toString n).toList = some n := by
  have hdigits : (toString n).toList ≠ [] ∧ (toString n).toList.all Char.isDigit = true :=
    ⟨toString_ne_nil n, List.all_eq_true.2 fun c hc => isDigit_of_mem_toString hc⟩
  rw [readBelow?, readNat?, if_pos hdigits, value_toString, Option.filter_some,
    if_pos (decide_eq_true h)]

end Decimal

namespace Ty

/-- No part of the type is a branch target. -/
def Written : Ty → Prop
  | .label => False
  | .ptr pointee => pointee.Written
  | .array _ elem => elem.Written
  | .void | .int _ | .float | .double => True

end Ty

namespace Source

open Decimal

variable {rest : List Char}

/-! ## Tokens in front of a rest -/

theorem strip_append (beginning rest : List Char) :
    strip beginning (beginning ++ rest) = some rest := by
  induction beginning with
  | nil => rfl
  | cons c beginning ih => rw [List.cons_append, strip, if_pos rfl, ih]

theorem literal_append (s : String) (rest : List Char) :
    literal s (s.toList ++ rest) = some ((), rest) := by
  rw [literal, strip_append]
  rfl

theorem charsIf_append {test : Char → Bool} {run : List Char} (hne : run ≠ [])
    (hrun : ∀ c ∈ run, test c = true) (hrest : ∀ c ∈ rest.head?, test c = false) :
    charsIf test (run ++ rest) = some (run, rest) := by
  have hnone : rest.takeWhile test = [] ∧ rest.dropWhile test = rest := by
    cases rest with
    | nil => exact ⟨rfl, rfl⟩
    | cons c rest => simp [hrest c rfl]
  rw [charsIf, List.takeWhile_append_of_pos hrun, List.dropWhile_append_of_pos hrun, hnone.1,
    hnone.2, List.append_nil]
  cases run with
  | nil => exact absurd rfl hne
  | cons c run => rfl

/-! ## What follows a type inside another one -/

/-- A type ends here: with the text, with a star, or with the bracket of an array. -/
def TypeEnd (rest : List Char) : Prop :=
  ∀ c ∈ rest.head?, c = '*' ∨ c = ']'

namespace TypeEnd

theorem skip_eq (h : TypeEnd rest) : skip rest = rest := by
  cases rest with
  | nil => rfl
  | cons c rest =>
    rcases h c rfl with rfl | rfl
    · exact skip_cons (by decide) (by decide)
    · exact skip_cons (by decide) (by decide)

theorem boundary_eq (h : TypeEnd rest) : boundary rest = some ((), rest) := by
  cases rest with
  | nil => rfl
  | cons c rest =>
    rcases h c rfl with rfl | rfl
    · rfl
    · rfl

theorem isDigit_eq_false (h : TypeEnd rest) : ∀ c ∈ rest.head?, c.isDigit = false := by
  intro c hc
  rcases h c hc with rfl | rfl
  · rfl
  · rfl

theorem keyword_eq (h : TypeEnd rest) (word : String) :
    keyword [word] (word.toList ++ rest) = some (word, rest) := by
  refine token_eq_some.2 ⟨rest, ?_, h.skip_eq⟩
  refine Scan.bind_eq_some.2 ⟨word, rest, ?_, Scan.bind_eq_some.2 ⟨(), rest, h.boundary_eq, rfl⟩⟩
  exact Scan.orElse_of_some (Scan.bind_eq_some.2 ⟨(), rest, literal_append word rest, rfl⟩)

/-- An integer type is read up to its end. -/
theorem intType_eq (h : TypeEnd rest) (n : Nat) :
    intType ('i' :: ((toString n).toList ++ rest)) =
      some (.int (String.ofList ('i' :: (toString n).toList)), rest) := by
  refine token_eq_some.2 ⟨rest, ?_, h.skip_eq⟩
  have hdigits := charsIf_append (toString_ne_nil n) (fun c => isDigit_of_mem_toString)
    h.isDigit_eq_false
  refine Scan.bind_eq_some.2 ⟨(), _, literal_append "i" _,
    Scan.bind_eq_some.2 ⟨_, rest, hdigits, ?_⟩⟩
  exact Scan.bind_eq_some.2 ⟨(), rest, h.boundary_eq, rfl⟩

end TypeEnd

/-- The type with a number of stars after it. -/
def starred (stars : Nat) (e : TypeExpr) : TypeExpr :=
  (List.replicate stars ()).foldl (fun t _ => .star t) e

/-- The text is a number of stars in front of a rest, which is empty or goes on with the bracket of
an array. -/
structure Starred (text : List Char) (stars : Nat) (rest : List Char) : Prop where
  eq : text = List.replicate stars '*' ++ rest
  closed : ∀ c ∈ rest.head?, c = ']'

namespace Starred

variable {text : List Char} {stars : Nat}

theorem typeEnd (h : Starred text stars rest) : TypeEnd text := by
  intro c hc
  cases stars with
  | zero =>
    rw [h.eq] at hc
    exact Or.inr (h.closed c hc)
  | succ stars =>
    rw [h.eq] at hc
    exact Or.inl (Option.some.inj hc).symm

/-- The stars are read, and the rest is left. -/
theorem repeated_eq (h : Starred text stars rest) {n : Nat} (hn : stars ≤ n) :
    repeated (symbol "*") n text = (List.replicate stars (), rest) := by
  induction stars generalizing text n with
  | zero =>
    obtain rfl : text = rest := h.eq
    cases n with
    | zero => rfl
    | succ n =>
      have hnone : symbol "*" text = none := by
        cases text with
        | nil => rfl
        | cons c text =>
          obtain rfl := h.closed c rfl
          rfl
      rw [repeated, hnone]
      rfl
  | succ stars ih =>
    have hrest : Starred (List.replicate stars '*' ++ rest) stars rest := ⟨rfl, h.closed⟩
    have hsome : symbol "*" text = some ((), List.replicate stars '*' ++ rest) := by
      rw [h.eq]
      exact token_eq_some.2 ⟨_, literal_append "*" _, hrest.typeEnd.skip_eq⟩
    obtain ⟨n, rfl⟩ : ∃ m, n = m + 1 := ⟨n - 1, by omega⟩
    rw [repeated, hsome]
    simp only [ih hrest (Nat.le_of_succ_le_succ hn)]
    rfl

theorem many_eq (h : Starred text stars rest) :
    many (symbol "*") text = some (List.replicate stars (), rest) := by
  have hlength : stars ≤ text.length := by
    rw [h.eq, List.length_append, List.length_replicate]
    omega
  rw [many, h.repeated_eq hlength]

end Starred

/-! ## Types -/

/-- A type without its stars. -/
def baseType (depth : Nat) : Scan TypeExpr :=
  intType
    <|> (fun _ => TypeExpr.float) <$> keyword ["float"]
    <|> (fun _ => TypeExpr.double) <$> keyword ["double"]
    <|> (fun _ => TypeExpr.void) <$> keyword ["void"]
    <|> (fun _ => TypeExpr.ptr) <$> keyword ["ptr"]
    <|> arrayType (typeWithin depth)

/-- A type is a base and the stars after it. -/
theorem typeWithin_of_base {depth stars : Nat} {text after : List Char} {e : TypeExpr}
    (h : baseType depth text = some (e, after)) (hstars : Starred after stars rest) :
    typeWithin (depth + 1) text = some (starred stars e, rest) :=
  Scan.bind_eq_some.2 ⟨e, after, h, Scan.bind_eq_some.2 ⟨_, rest, hstars.many_eq, rfl⟩⟩

/-- A written type starts with no blank and no comment. -/
theorem skip_text {t : Ty} (h : t.Written) (rest : List Char) :
    skip (t.text.toList ++ rest) = t.text.toList ++ rest := by
  induction t generalizing rest with
  | label => exact h.elim
  | ptr pointee ih =>
    rw [Ty.text, String.toList_append, List.append_assoc]
    exact ih h _
  | int width =>
    rw [Ty.text, String.toList_append]
    exact skip_cons (by decide) (by decide)
  | array length elem ih =>
    simp only [Ty.text, String.toList_append]
    exact skip_cons (by decide) (by decide)
  | void | float | double => exact skip_cons (by decide) (by decide)

/-- A number starts with no sign, no blank and no comment. -/
theorem exists_toString_cons (n : Nat) :
    ∃ c digits, (toString n).toList = c :: digits ∧ c ≠ '-' ∧ isBlank c = false ∧ c ≠ ';' := by
  obtain ⟨c, digits, hdigits⟩ := List.exists_cons_of_ne_nil (toString_ne_nil n)
  have hc : c.isDigit = true := isDigit_of_mem_toString (hdigits ▸ List.mem_cons_self)
  have hne : ∀ d : Char, d.isDigit = false → c ≠ d := by
    rintro d hd rfl
    exact absurd hc (by simp [hd])
  exact ⟨c, digits, hdigits, hne _ rfl, by simp [isBlank, hne ' ' rfl, hne '\t' rfl], hne _ rfl⟩

theorem skip_toString (n : Nat) (rest : List Char) :
    skip ((toString n).toList ++ rest) = (toString n).toList ++ rest := by
  obtain ⟨c, digits, hdigits, -, hblank, hcomment⟩ := exists_toString_cons n
  rw [hdigits]
  exact skip_cons hblank hcomment

theorem minusSign_toString (n : Nat) (rest : List Char) :
    minusSign ((toString n).toList ++ rest) = some (false, (toString n).toList ++ rest) := by
  obtain ⟨c, digits, hdigits, hminus, -⟩ := exists_toString_cons n
  have hnone : literal "-" (c :: (digits ++ rest)) = none := by
    show (strip ['-'] (c :: (digits ++ rest))).map _ = none
    rw [strip, if_neg hminus.symm]
    rfl
  rw [hdigits]
  refine Scan.bind_eq_some.2 ⟨none, _, Scan.orElse_of_none ?_, rfl⟩
  show (literal "-" (c :: (digits ++ rest)) >>= _) = none
  rw [hnone]
  rfl

theorem intLiteral_toString (n : Nat) (hrest : ∀ c ∈ rest.head?, c.isDigit = false) :
    intLiteral ((toString n).toList ++ rest) = some (toString n, skip rest) := by
  have hdigits := charsIf_append (toString_ne_nil n) (fun c => isDigit_of_mem_toString) hrest
  refine token_eq_some.2 ⟨rest, ?_, rfl⟩
  refine Scan.bind_eq_some.2 ⟨false, _, minusSign_toString n rest,
    Scan.bind_eq_some.2 ⟨_, rest, hdigits, ?_⟩⟩
  rw [if_neg Bool.false_ne_true, String.ofList_toList]
  rfl

/-- An array type is read up to its bracket, if its elements are. -/
theorem TypeEnd.arrayType_eq (h : TypeEnd rest) (n : Nat) {elem : Scan TypeExpr} {text : List Char}
    {e : TypeExpr} (hskip : skip (text ++ ']' :: rest) = text ++ ']' :: rest)
    (helem : elem (text ++ ']' :: rest) = some (e, ']' :: rest)) :
    ∃ written,
      arrayType elem
          ('[' :: ((toString n).toList ++ (' ' :: 'x' :: ' ' :: (text ++ ']' :: rest)))) =
        some (.array (toString n) e written, rest) := by
  -- the parts one by one, each with the text that it leaves
  have hlength : intLiteral ((toString n).toList ++ (' ' :: 'x' :: ' ' :: (text ++ ']' :: rest))) =
      some (toString n, 'x' :: ' ' :: (text ++ ']' :: rest)) := by
    refine intLiteral_toString n ?_
    rintro c ⟨⟩
    rfl
  have hopen : symbol "["
      ('[' :: ((toString n).toList ++ (' ' :: 'x' :: ' ' :: (text ++ ']' :: rest)))) =
      some ((), (toString n).toList ++ (' ' :: 'x' :: ' ' :: (text ++ ']' :: rest))) :=
    token_eq_some.2 ⟨_, literal_append "[" _, skip_toString n _⟩
  have htimes : symbol "x" ('x' :: ' ' :: (text ++ ']' :: rest)) = some ((), text ++ ']' :: rest) :=
    token_eq_some.2 ⟨_, literal_append "x" _, hskip⟩
  have hparts :
      (do
        symbol "["
        let length ← intLiteral
        symbol "x"
        let elem ← elem
        literal "]"
        return (length, elem) : Scan (String × TypeExpr))
          ('[' :: ((toString n).toList ++ (' ' :: 'x' :: ' ' :: (text ++ ']' :: rest)))) =
        some ((toString n, e), rest) := by
    refine Scan.bind_eq_some.2 ⟨(), _, hopen, Scan.bind_eq_some.2 ⟨_, _, hlength, ?_⟩⟩
    refine Scan.bind_eq_some.2 ⟨(), _, htimes, Scan.bind_eq_some.2 ⟨_, _, helem, ?_⟩⟩
    exact Scan.bind_eq_some.2 ⟨(), rest, literal_append "]" rest, rfl⟩
  -- the text of the whole type is kept for messages, whatever it is
  have hspan := spanned_eq_some.2 ⟨hparts, rfl⟩
  exact ⟨_, token_eq_some.2 ⟨rest, Scan.bind_eq_some.2 ⟨_, rest, hspan, rfl⟩, h.skip_eq⟩⟩

/-- **A written type is read back in front of stars and a closing bracket**, at any depth that its
length allows. -/
theorem typeWithin_text {t : Ty} (h : t.Written) {depth stars : Nat} {after rest : List Char}
    (hdepth : t.text.toList.length < depth) (hafter : Starred after stars rest) :
    ∃ e, typeWithin depth (t.text.toList ++ after) = some (starred stars e, rest) ∧
      lowerType e = .ok t := by
  -- stars that follow a pointer are stars after its pointee, so their number is left open
  induction t generalizing depth stars after rest with
  | label => exact h.elim
  | ptr pointee ih =>
    rw [Ty.text, String.toList_append] at hdepth ⊢
    have hstar : Starred ("*".toList ++ after) (stars + 1) rest := by
      refine ⟨?_, hafter.closed⟩
      rw [hafter.eq]
      rfl
    have hpointee : pointee.text.toList.length < depth := by
      rw [List.length_append] at hdepth
      omega
    obtain ⟨e, he, hlower⟩ := ih h hpointee hstar
    refine ⟨.star e, ?_, ?_⟩
    · rw [List.append_assoc, he]
      rfl
    · rw [lowerType, hlower]
      rfl
  | array length elem ih =>
    obtain ⟨depth, rfl⟩ : ∃ d, depth = d + 1 := ⟨depth - 1, by omega⟩
    simp only [Ty.text, String.toList_append, List.length_append] at hdepth
    -- inside the brackets no stars wait, and the depth goes down by one
    have hbracket : Starred (']' :: after) 0 (']' :: after) := by
      refine ⟨rfl, ?_⟩
      rintro c ⟨⟩
      rfl
    have helem : elem.text.toList.length < depth := by
      have hopen : "[".toList.length = 1 := rfl
      omega
    obtain ⟨e, he, hlower⟩ := ih h helem hbracket
    have hskip := skip_text (t := elem) h (']' :: after)
    obtain ⟨written, harray⟩ := hafter.typeEnd.arrayType_eq length.toNat hskip he
    refine ⟨.array (toString length.toNat) e written, ?_, ?_⟩
    · refine typeWithin_of_base ?_ hafter
      simp only [Ty.text, String.toList_append, List.append_assoc]
      -- the other base types begin with other characters
      rw [baseType, Scan.orElse_of_none rfl, Scan.orElse_of_none rfl, Scan.orElse_of_none rfl,
        Scan.orElse_of_none rfl, Scan.orElse_of_none rfl]
      exact harray
    · simp only [lowerType, readBelow?_toString length.toNat_lt, hlower]
      exact congrArg (fun n => Except.ok (Ty.array n elem)) (UInt64.ofNat_toNat)
  | int width =>
    obtain ⟨depth, rfl⟩ : ∃ d, depth = d + 1 := ⟨depth - 1, by omega⟩
    refine ⟨.int (String.ofList ('i' :: (toString width.toNat).toList)), ?_, ?_⟩
    · refine typeWithin_of_base ?_ hafter
      rw [Ty.text, String.toList_append, List.append_assoc]
      exact Scan.orElse_of_some (hafter.typeEnd.intType_eq width.toNat)
    · simp only [lowerType, String.toList_ofList, List.tail_cons,
        readBelow?_toString width.toNat_lt, UInt32.ofNat_toNat]
  | void =>
    obtain ⟨depth, rfl⟩ : ∃ d, depth = d + 1 := ⟨depth - 1, by omega⟩
    refine ⟨.void, typeWithin_of_base ?_ hafter, rfl⟩
    rw [baseType, Scan.orElse_of_none rfl, Scan.orElse_of_none rfl, Scan.orElse_of_none rfl]
    exact Scan.orElse_of_some (Scan.map_eq_some.2 ⟨_, hafter.typeEnd.keyword_eq "void", rfl⟩)
  | float =>
    obtain ⟨depth, rfl⟩ : ∃ d, depth = d + 1 := ⟨depth - 1, by omega⟩
    refine ⟨.float, typeWithin_of_base ?_ hafter, rfl⟩
    rw [baseType, Scan.orElse_of_none rfl]
    exact Scan.orElse_of_some (Scan.map_eq_some.2 ⟨_, hafter.typeEnd.keyword_eq "float", rfl⟩)
  | double =>
    obtain ⟨depth, rfl⟩ : ∃ d, depth = d + 1 := ⟨depth - 1, by omega⟩
    refine ⟨.double, typeWithin_of_base ?_ hafter, rfl⟩
    rw [baseType, Scan.orElse_of_none rfl, Scan.orElse_of_none rfl]
    exact Scan.orElse_of_some (Scan.map_eq_some.2 ⟨_, hafter.typeEnd.keyword_eq "double", rfl⟩)

/-- A type that is read and lowered can be written. -/
theorem written_of_lowerType {e : TypeExpr} {t : Ty} (h : lowerType e = .ok t) : t.Written := by
  induction e generalizing t with
  | int text =>
    rw [lowerType] at h
    split at h
    · cases h
      trivial
    · cases h
  | array length elem text ih =>
    rw [lowerType] at h
    split at h
    · obtain ⟨size, -, h⟩ := bind_eq_ok.1 h
      obtain ⟨elem', helem, h⟩ := bind_eq_ok.1 h
      cases h
      exact (ih helem : elem'.Written)
    · cases h
  | star pointee ih =>
    rw [lowerType] at h
    obtain ⟨pointee', hpointee, h⟩ := bind_eq_ok.1 h
    cases h
    exact (ih hpointee : pointee'.Written)
  | float | double | void | ptr =>
    cases h
    trivial

/-- A type that can be written is read back, and nothing of its text is left. -/
theorem typeExpr_text {t : Ty} (h : t.Written) :
    ∃ e, typeExpr t.text.toList = some (e, []) ∧ lowerType e = .ok t := by
  have hend : Starred [] 0 [] := ⟨rfl, by rintro c ⟨⟩⟩
  obtain ⟨e, he, hlower⟩ := typeWithin_text h (Nat.lt_succ_self _) hend
  rw [List.append_nil] at he
  exact ⟨e, he, hlower⟩

/-- **Types survive writing and reading.**  A type without branch targets is read back from its
written form, which is read as a whole.  A type that is read from any text can be lowered exactly if
its numbers fit, and is then read back from its own written form. -/
theorem lowerType_typeExpr_text :
    (∀ t : Ty, t.Written → ∃ e, typeExpr t.text.toList = some (e, []) ∧ lowerType e = .ok t) ∧
    ∀ text e rest, typeExpr text = some (e, rest) →
      ((∃ t, lowerType e = .ok t) ↔ e.Fits) ∧
      ∀ t, lowerType e = .ok t → ∃ e', typeExpr t.text.toList = some (e', []) ∧
        lowerType e' = .ok t := by
  refine ⟨fun t => typeExpr_text, fun text e rest _ => ⟨?_, fun t ht => ?_⟩⟩
  · rw [(reports_lowerType e).exists_ok, TypeExpr.fits_iff]
  · exact typeExpr_text (written_of_lowerType ht)

/-- A pointer to an array of pointers to the widest integers is read back.  A length that does not
fit its word is refused, and a pointer without a pointee is read back as the pointer to bytes that
it stands for. -/
theorem lowerType_typeExpr_text_nested :
    (Ty.ptr (.array 3 (.ptr (.int 4294967295)))).text = "[3 x i4294967295*]*" ∧
    (∃ e, typeExpr "[3 x i4294967295*]*".toList = some (e, []) ∧
      lowerType e = .ok (.ptr (.array 3 (.ptr (.int 4294967295))))) ∧
    (typeExpr "[18446744073709551616 x i8]".toList =
        some (.array "18446744073709551616" (.int "i8") "[18446744073709551616 x i8]", []) ∧
      ¬ ∃ t,
        lowerType (.array "18446744073709551616" (.int "i8") "[18446744073709551616 x i8]") =
          .ok t) ∧
    typeExpr "[ 02 x ptr ] , 1".toList = some (.array "02" .ptr "[ 02 x ptr ]", [',', ' ', '1']) ∧
    ∃ e, typeExpr "[2 x i8*]".toList = some (e, []) ∧
      lowerType e = .ok (.array 2 (.ptr .byte)) := by
  obtain ⟨hwritten, hread⟩ := lowerType_typeExpr_text
  have hwide : typeExpr "[18446744073709551616 x i8]".toList =
      some (.array "18446744073709551616" (.int "i8") "[18446744073709551616 x i8]", []) := by
    decide +kernel
  have hloose : typeExpr "[ 02 x ptr ] , 1".toList =
      some (.array "02" .ptr "[ 02 x ptr ]", [',', ' ', '1']) := by decide +kernel
  have htext : (Ty.ptr (.array 3 (.ptr (.int 4294967295)))).text = "[3 x i4294967295*]*" := by
    decide +kernel
  refine ⟨htext, htext ▸ hwritten _ trivial, ⟨hwide, fun h => ?_⟩, hloose, ?_⟩
  · obtain ⟨⟨n, hn, hlt⟩, -⟩ := (hread _ _ _ hwide).1.1 h
    have hvalue : readNat? "18446744073709551616".toList = some 18446744073709551616 := by
      decide +kernel
    rw [hvalue] at hn
    cases hn
    exact absurd hlt (by decide)
  · exact (hread _ _ _ hloose).2 (.array 2 (.ptr .byte)) (toOption_eq_some.1 (by decide +kernel))

end Source

end Dataflow
