import Dataflow.Proofs.Lowering

/-!
# What lowering complains about

A step of lowering stops at the first problem that it meets.  Which one that is depends on the order
in which it looks; that there is one does not.  So each step is described by all problems that its
input has: it fails only with one of them, and it succeeds only if there are none.

* `Reports`: the problems of a step that may fail; `Reports.bind`, `Reports.mapM`: steps one after
  another.
* `TypeExpr.Flaw`, `Mention.Flaw`, `CaseExpr.Flaw`: what can be wrong with the parts of an
  operation.
* `Operation.types`, `Operation.checked`, `Operation.cases`: the parts that are looked at.
* `Scope.reports_operation`: **lowering an operation reports what is wrong with its parts.**
-/

namespace Dataflow.Source

/-! ## Steps that report -/

section Reports

variable {ε α β : Type}

/-- The problems of a step: it fails only with one of them, and succeeds only if there are none. -/
structure Reports (x : Except ε α) (bad : ε → Prop) : Prop where
  sound : ∀ e, x = .error e → bad e
  complete : ∀ a, x = .ok a → ∀ e, ¬ bad e

namespace Reports

variable {x : Except ε α} {bad bad' : ε → Prop}

theorem ok {a : α} (h : ∀ e, ¬ bad e) : Reports (.ok a) bad where
  sound := by
    intro e he
    cases he
  complete := fun _ _ => h

theorem error {e : ε} (h : bad e) : Reports (.error e : Except ε α) bad where
  sound := by
    intro e' he
    cases he
    exact h
  complete := by
    intro a ha
    cases ha

theorem congr (h : Reports x bad) (hbad : ∀ e, bad' e ↔ bad e) : Reports x bad' where
  sound := fun e he => (hbad e).2 (h.sound e he)
  complete := fun a ha e he => h.complete a ha e ((hbad e).1 he)

/-- The problems of two steps, where those of the second do not depend on what the first one has
found. -/
theorem bind {f : α → Except ε β} (hx : Reports x bad) (hf : ∀ a, x = .ok a → Reports (f a) bad') :
    Reports (x >>= f) fun e => bad e ∨ bad' e := by
  cases hcase : x with
  | error e => exact .error (Or.inl (hx.sound e hcase))
  | ok a =>
    have hstep : (Except.ok a >>= f) = f a := rfl
    rw [hstep]
    refine (hf a hcase).congr fun e => ?_
    exact or_iff_right (hx.complete a hcase e)

/-- What is done with a result at the end has no problems. -/
theorem map (h : Reports x bad) (f : α → β) : Reports (x >>= fun a => pure (f a)) bad := by
  have hpure : ∀ a, Reports (pure (f a) : Except ε β) fun _ => False := fun a => .ok fun _ => id
  exact (h.bind fun a _ => hpure a).congr fun e => (or_iff_left id).symm

/-- A step that passes errors on inside other ones. -/
theorem wrap {ε' : Type} {y : Except ε' α} {g : ε → ε'} (h : Reports x bad)
    (hok : ∀ a, x = .ok a → y = .ok a) (herror : ∀ e, x = .error e → y = .error (g e)) :
    Reports y fun e' => ∃ e, e' = g e ∧ bad e := by
  cases hcase : x with
  | ok a =>
    rw [hok a hcase]
    refine .ok ?_
    rintro _ ⟨e, -, he⟩
    exact h.complete a hcase e he
  | error e =>
    rw [herror e hcase]
    exact .error ⟨e, rfl, h.sound e hcase⟩

/-- The problems of a step for every item of a list. -/
theorem mapM {f : α → Except ε β} {as : List α} {bad : α → ε → Prop}
    (h : ∀ a ∈ as, Reports (f a) (bad a)) :
    Reports (as.mapM f) fun e => ∃ a ∈ as, bad a e := by
  induction as with
  | nil =>
    rw [List.mapM_nil]
    exact .ok fun e => by simp
  | cons a as ih =>
    rw [List.mapM_cons]
    have hrest := (ih fun b hb => h b (List.mem_cons_of_mem _ hb))
    refine ((h a List.mem_cons_self).bind fun b _ => hrest.map (b :: ·)).congr fun e => ?_
    simp only [List.mem_cons, or_and_right, exists_or, exists_eq_left]

/-- The problems of a step for every item of a list, each from where the one before has led.  What
is wrong with an item must not depend on that. -/
theorem foldlM {f : β → α → Except ε β} {as : List α} {bad : α → ε → Prop}
    (h : ∀ b, ∀ a ∈ as, Reports (f b a) (bad a)) (b : β) :
    Reports (as.foldlM f b) fun e => ∃ a ∈ as, bad a e := by
  induction as generalizing b with
  | nil => exact .ok fun e => by simp
  | cons a as ih =>
    rw [List.foldlM_cons]
    have hrest := ih fun b a' ha' => h b a' (List.mem_cons_of_mem _ ha')
    refine ((h b a List.mem_cons_self).bind fun b' _ => hrest b').congr fun e => ?_
    simp only [List.mem_cons, or_and_right, exists_or, exists_eq_left]

/-- A step succeeds exactly if it has no problems. -/
theorem exists_ok (h : Reports x bad) : (∃ a, x = .ok a) ↔ ∀ e, ¬ bad e := by
  constructor
  · rintro ⟨a, ha⟩
    exact h.complete a ha
  · intro hnone
    cases hcase : x with
    | error e => exact absurd (h.sound e hcase) (hnone e)
    | ok a => exact ⟨a, rfl⟩

end Reports

end Reports

/-! ## Numbers -/

/-- A written width or length below a bound. -/
def NumberFits (bound : Nat) (digits : List Char) : Prop :=
  ∃ n, Decimal.readNat? digits = some n ∧ n < bound

theorem exists_readBelow? {bound : Nat} {digits : List Char} :
    (∃ n, Decimal.readBelow? bound digits = some n) ↔ NumberFits bound digits := by
  simp only [Decimal.readBelow?, Option.filter_eq_some_iff, decide_eq_true_eq, NumberFits]

/-- The whole number that a written literal stands for. -/
def signedValue? : List Char → Option Int
  | '-' :: digits => (Decimal.readNat? digits).map fun n => -Int.ofNat n
  | digits => (Decimal.readNat? digits).map Int.ofNat

/-- A written whole number that fits 64 bits with a sign. -/
def IntegerFits (text : String) : Prop :=
  ∃ n, signedValue? text.toList = some n ∧ Int64.minValue.toInt ≤ n ∧ n ≤ Int64.maxValue.toInt

/-- A literal with a minus sign goes one further than one without. -/
theorem exists_readInt64? {text : String} :
    (∃ n, Decimal.readInt64? text.toList = some n) ↔ IntegerFits text := by
  unfold IntegerFits
  rw [Int64.toInt_minValue, Int64.toInt_maxValue]
  generalize text.toList = chars
  -- the reader takes the sign off before it reads a bound, and the bound depends on the sign
  by_cases hsign : ∃ digits, chars = '-' :: digits
  · obtain ⟨digits, rfl⟩ := hsign
    have hread : (∃ n, Decimal.readInt64? ('-' :: digits) = some n) ↔
        NumberFits (2 ^ 63 + 1) digits := by
      rw [← exists_readBelow?, Decimal.readInt64?]
      cases Decimal.readBelow? (2 ^ 63 + 1) digits <;> simp
    rw [hread]
    simp only [NumberFits, signedValue?, Option.map_eq_some_iff]
    constructor
    · rintro ⟨n, hn, hlt⟩
      exact ⟨_, ⟨n, hn, rfl⟩, by simp only [Int.ofNat_eq_natCast]; omega⟩
    · rintro ⟨_, ⟨n, hn, rfl⟩, hle, -⟩
      exact ⟨n, hn, by simp only [Int.ofNat_eq_natCast] at hle; omega⟩
  · have hread : (∃ n, Decimal.readInt64? chars = some n) ↔ NumberFits (2 ^ 63) chars := by
      rw [← exists_readBelow?]
      unfold Decimal.readInt64?
      split
      · exact absurd ⟨_, rfl⟩ hsign
      · cases Decimal.readBelow? (2 ^ 63) chars <;> simp
    have hvalue : signedValue? chars = (Decimal.readNat? chars).map Int.ofNat := by
      unfold signedValue?
      split
      · exact absurd ⟨_, rfl⟩ hsign
      · rfl
    rw [hread, hvalue]
    simp only [NumberFits, Option.map_eq_some_iff]
    constructor
    · rintro ⟨n, hn, hlt⟩
      exact ⟨_, ⟨n, hn, rfl⟩, by simp only [Int.ofNat_eq_natCast]; omega⟩
    · rintro ⟨_, ⟨n, hn, rfl⟩, -, hlt⟩
      exact ⟨n, hn, by simp only [Int.ofNat_eq_natCast] at hlt; omega⟩

/-! ## Types -/

namespace TypeExpr

/-- The widths and lengths of a type fit their words. -/
def Fits : TypeExpr → Prop
  | .int text => NumberFits UInt32.size text.toList.tail
  | .array length elem _ => NumberFits UInt64.size length.toList ∧ elem.Fits
  | .star pointee => pointee.Fits
  | .float | .double | .void | .ptr => True

/-- What is wrong with a type. -/
inductive Flaw : TypeExpr → Problem → Prop where
  | width {text : String} (h : ¬ NumberFits UInt32.size text.toList.tail) :
      Flaw (.int text) (.widthRange text)
  | length {length text : String} {elem : TypeExpr} (h : ¬ NumberFits UInt64.size length.toList) :
      Flaw (.array length elem text) (.lengthRange text)
  | elem {length text : String} {elem : TypeExpr} {problem : Problem} (h : elem.Flaw problem) :
      Flaw (.array length elem text) problem
  | pointee {pointee : TypeExpr} {problem : Problem} (h : pointee.Flaw problem) :
      Flaw (.star pointee) problem

theorem fits_iff {ty : TypeExpr} : ty.Fits ↔ ∀ problem, ¬ ty.Flaw problem := by
  induction ty with
  | int text =>
    constructor
    · intro h problem hflaw
      cases hflaw with
      | width hwidth => exact hwidth h
    · intro h
      by_contra hwidth
      exact h _ (.width hwidth)
  | array length elem text ih =>
    rw [Fits, ih]
    constructor
    · rintro ⟨hlength, helem⟩ problem hflaw
      cases hflaw with
      | length h => exact h hlength
      | elem h => exact helem problem h
    · intro h
      refine ⟨?_, fun problem helem => h problem (.elem helem)⟩
      by_contra hlength
      exact h _ (.length hlength)
  | star pointee ih =>
    rw [Fits, ih]
    constructor
    · rintro h problem (_ | _ | _ | hflaw)
      exact h problem hflaw
    · intro h problem hflaw
      exact h problem (.pointee hflaw)
  | float | double | void | ptr =>
    refine iff_of_true trivial fun problem hflaw => ?_
    cases hflaw

end TypeExpr

/-- **Lowering a type reports its flaws.** -/
theorem reports_lowerType (ty : TypeExpr) : Reports (lowerType ty) ty.Flaw := by
  induction ty with
  | int text =>
    rw [lowerType]
    split
    · rename_i width hwidth
      refine .ok fun problem hflaw => ?_
      cases hflaw with
      | width h => exact h (exists_readBelow?.1 ⟨width, hwidth⟩)
    · rename_i hnone
      refine .error (.width fun hfits => ?_)
      obtain ⟨width, hwidth⟩ := exists_readBelow?.2 hfits
      rw [hnone] at hwidth
      cases hwidth
  | array length elem text ih =>
    rw [lowerType]
    -- the length is read before the type of the elements is looked at
    cases hsize : Decimal.readBelow? UInt64.size length.toList with
    | some size =>
      have hfits := exists_readBelow?.1 ⟨size, hsize⟩
      refine (ih.map fun elem => Ty.array (UInt64.ofNat size) elem).congr fun problem => ?_
      constructor
      · rintro (_ | h | h | _)
        · exact absurd hfits h
        · exact h
      · exact .elem
    | none =>
      refine .error (.length fun hfits => ?_)
      obtain ⟨size, hsome⟩ := exists_readBelow?.2 hfits
      rw [hsize] at hsome
      cases hsome
  | star pointee ih =>
    rw [lowerType]
    refine (ih.map _).congr fun problem => ?_
    constructor
    · rintro (_ | _ | _ | h)
      exact h
    · exact .pointee
  | float | double | void | ptr =>
    refine .ok fun problem hflaw => ?_
    cases hflaw

/-! ## Values and labels -/

/-- A literal number, whole or not, or a literal truth value. -/
def ValueExpr.isNumber : ValueExpr → Bool
  | .int _ | .fractional _ | .bool _ => true
  | _ => false

/-- What is wrong with a value, where the names are those of the function. -/
inductive ValueExpr.Flaw (names : List String) : ValueExpr → Problem → Prop where
  | unknown {name : String} (h : name ∉ names) : Flaw names (.local name) (.unknownValue name)
  | range {text : String} (h : ¬ IntegerFits text) : Flaw names (.int text) (.integerRange text)

/-- What is wrong with a mention, where names and labels are those of the function. -/
inductive Mention.Flaw (names labels : List String) : Mention → Problem → Prop where
  | value {v : ValueExpr} {problem : Problem} (h : v.Flaw names problem) :
      Flaw names labels (.value v) problem
  | label {name : String} (h : name ∉ labels) : Flaw names labels (.label name) (.unknownLabel name)

/-- What is wrong with a case of a switch, apart from its mentions. -/
inductive CaseExpr.Flaw : CaseExpr → Problem → Prop where
  | notNumber {e : CaseExpr} (h : e.value.value.isNumber = false) : Flaw e (.caseNotConstant e.text)

@[simp] theorem Mention.flaw_value {names labels : List String} {v : ValueExpr}
    {problem : Problem} :
    (Mention.value v).Flaw names labels problem ↔ v.Flaw names problem := by
  constructor
  · rintro (h | _)
    exact h
  · exact .value

/-- The tables of a scope have these names and labels, and no name stands for a number. -/
structure Scope.Knows (scope : Scope) (names labels : List String) : Prop where
  values : ∀ name, (∃ operand, scope.values.lookup name = some operand) ↔ name ∈ names
  labels : ∀ name, (∃ id, scope.labels.lookup name = some id) ↔ name ∈ labels
  notConst : ∀ name n, scope.values.lookup name ≠ some (.const n)

namespace Scope

variable {scope : Scope} {names labels : List String}

theorem reports_value (h : scope.Knows names labels) (v : ValueExpr) :
    Reports (scope.value v) (v.Flaw names) := by
  cases v with
  | «local» name =>
    rw [value]
    split
    · rename_i operand hlookup
      refine .ok fun problem hflaw => ?_
      cases hflaw with
      | unknown hname => exact hname ((h.values name).1 ⟨operand, hlookup⟩)
    · rename_i hnone
      refine .error (.unknown fun hname => ?_)
      obtain ⟨operand, hlookup⟩ := (h.values name).2 hname
      rw [hnone] at hlookup
      cases hlookup
  | int text =>
    rw [value]
    split
    · rename_i n hn
      refine .ok fun problem hflaw => ?_
      cases hflaw with
      | range hrange => exact hrange (exists_readInt64?.1 ⟨n, hn⟩)
    · rename_i hnone
      refine .error (.range fun hfits => ?_)
      obtain ⟨n, hn⟩ := exists_readInt64?.2 hfits
      rw [hnone] at hn
      cases hn
  | global | fractional | bool | null | undefined =>
    refine .ok fun problem hflaw => ?_
    cases hflaw

theorem reports_label (h : scope.Knows names labels) (name : String) :
    Reports (scope.label name) fun problem => (Mention.label name).Flaw names labels problem := by
  rw [label]
  split
  · rename_i id hlookup
    refine .ok fun problem hflaw => ?_
    cases hflaw with
    | label hname => exact hname ((h.labels name).1 ⟨id, hlookup⟩)
  · rename_i hnone
    refine .error (.label fun hname => ?_)
    obtain ⟨id, hlookup⟩ := (h.labels name).2 hname
    rw [hnone] at hlookup
    cases hlookup

/-- A value is lowered to a number exactly if it is written as one. -/
theorem value_const_iff (h : scope.Knows names labels) {v : ValueExpr} {operand : Operand}
    (hvalue : scope.value v = .ok operand) : (∃ n, operand = .const n) ↔ v.isNumber = true := by
  cases v with
  | «local» name =>
    rw [value] at hvalue
    split at hvalue
    · rename_i found hlookup
      cases hvalue
      refine iff_of_false ?_ Bool.false_ne_true
      rintro ⟨n, rfl⟩
      exact h.notConst name n hlookup
    · cases hvalue
  | int text =>
    rw [value] at hvalue
    split at hvalue
    · cases hvalue
      exact iff_of_true ⟨_, rfl⟩ rfl
    · cases hvalue
  | fractional literal =>
    cases hvalue
    exact iff_of_true ⟨_, rfl⟩ rfl
  | bool b =>
    cases hvalue
    exact iff_of_true ⟨_, rfl⟩ rfl
  | global | null | undefined =>
    cases hvalue
    refine iff_of_false ?_ Bool.false_ne_true
    rintro ⟨n, hn⟩
    cases hn

/-- The problems of a type and a value. -/
theorem reports_typed (h : scope.Knows names labels) (e : TypedExpr) :
    Reports (scope.typed e) fun problem => e.ty.Flaw problem ∨ e.value.Flaw names problem :=
  (reports_lowerType e.ty).bind fun _ _ => (reports_value h e.value).map _

theorem reports_typedOperand (h : scope.Knows names labels) (e : TypedExpr) :
    Reports (scope.typedOperand e) fun problem => e.ty.Flaw problem ∨ e.value.Flaw names problem :=
  (reports_typed h e).map _

theorem reports_incoming (h : scope.Knows names labels) (e : ValueExpr × String) :
    Reports (scope.incoming e) fun problem =>
      e.1.Flaw names problem ∨ (Mention.label e.2).Flaw names labels problem :=
  (reports_value h e.1).bind fun _ _ => (reports_label h e.2).map _

theorem reports_switchCase (h : scope.Knows names labels) (e : CaseExpr) :
    Reports (scope.switchCase e) fun problem =>
      (e.value.ty.Flaw problem ∨ e.value.value.Flaw names problem) ∨
      e.Flaw problem ∨ (Mention.label e.label).Flaw names labels problem := by
  refine (reports_typedOperand h e.value).bind fun operand hoperand => ?_
  have hconst := value_const_iff h (value_of_typedOperand hoperand)
  cases operand with
  | const n =>
    have hnumber := hconst.1 ⟨n, rfl⟩
    refine ((reports_label h e.label).map fun block => (n, block)).congr fun problem =>
      or_iff_right ?_
    rintro ⟨hother⟩
    rw [hnumber] at hother
    cases hother
  | null | undefined | arg | global | inst | block =>
    refine .error (Or.inl (.notNumber (Bool.eq_false_iff.2 fun hnumber => ?_)))
    obtain ⟨n, hn⟩ := hconst.2 hnumber
    cases hn

end Scope

/-! ## Operations -/

theorem exists_mem_flatMap {α β : Type} {l : List α} {f : α → List β} {P : β → Prop} :
    (∃ b ∈ l.flatMap f, P b) ↔ ∃ a ∈ l, ∃ b ∈ f a, P b := by
  constructor
  · rintro ⟨b, hb, h⟩
    obtain ⟨a, ha, hb⟩ := List.mem_flatMap.1 hb
    exact ⟨a, ha, b, hb, h⟩
  · rintro ⟨a, ha, b, hb, h⟩
    exact ⟨b, List.mem_flatMap.2 ⟨a, ha, hb⟩, h⟩

namespace Operation

/-- The types of an operation that are looked at: not those of compared values, of arguments and of
the number of reserved objects. -/
@[simp] def types : Operation → List TypeExpr
  | .binary _ ty _ _ => [ty]
  | .compare _ _ _ _ _ => []
  | .alloca ty _ => [ty]
  | .load ty addressTy _ => ty :: addressTy.toList
  | .store value address => [value.ty, address.ty]
  | .gep ty base indices => ty :: base.ty :: indices.map TypedExpr.ty
  | .cast _ value result => [value.ty, result]
  | .select cond onTrue onFalse => [cond.ty, onTrue.ty, onFalse.ty]
  | .phi ty _ => [ty]
  | .call ty _ _ => [ty]
  | .br _ => []
  | .condBr cond _ _ => [cond.ty]
  | .switch value _ cases => value.ty :: cases.map fun e => e.value.ty
  | .ret value => value.toList.map TypedExpr.ty
  | .unreachable => []

/-- The mentions of an operation that are looked at: all but the number of reserved objects. -/
@[simp] def checked : Operation → List Mention
  | .alloca _ _ => []
  | op => op.mentions

/-- The cases of a switch. -/
@[simp] def cases : Operation → List CaseExpr
  | .switch _ _ cases => cases
  | _ => []

/-- What is wrong with the parts of an operation. -/
def Flaw (names labels : List String) (op : Operation) (problem : Problem) : Prop :=
  (∃ ty ∈ op.types, ty.Flaw problem) ∨ (∃ mention ∈ op.checked, mention.Flaw names labels problem) ∨
    ∃ e ∈ op.cases, e.Flaw problem

end Operation

namespace Scope

variable {scope : Scope} {names labels : List String}

/-- **Lowering an operation reports what is wrong with its parts.** -/
theorem reports_operation (h : scope.Knows names labels) (op : Operation) :
    Reports (scope.step op) (op.Flaw names labels) := by
  -- In each form the parts are reported in the order in which they are lowered, while `Flaw` lists
  -- types, mentions and cases apart: what is left is to sort a disjunction.
  cases op with
  | binary opcode ty lhs rhs =>
    refine ((reports_lowerType ty).bind fun _ _ => (reports_value h lhs).bind fun _ _ =>
      (reports_value h rhs).map _).congr fun problem => ?_
    simp [Operation.Flaw, Operation.mentions]
  | compare opcode predicate ty lhs rhs =>
    refine ((reports_value h lhs).bind fun _ _ =>
      (reports_value h rhs).map _).congr fun problem => ?_
    simp [Operation.Flaw, Operation.mentions]
  | alloca ty count =>
    refine ((reports_lowerType ty).map _).congr fun problem => ?_
    simp [Operation.Flaw]
  | load ty addressTy address =>
    cases addressTy with
    | none =>
      refine ((reports_lowerType ty).bind fun _ _ => (reports_value h address).map _).congr
        fun problem => ?_
      simp [Operation.Flaw, Operation.mentions]
    | some addressTy =>
      refine ((reports_lowerType ty).bind fun _ _ => (reports_lowerType addressTy).bind fun _ _ =>
        (reports_value h address).map _).congr fun problem => ?_
      simp [Operation.Flaw, Operation.mentions, or_assoc]
  | store value address =>
    refine ((reports_typedOperand h value).bind fun _ _ =>
      (reports_typedOperand h address).map _).congr fun problem => ?_
    simp [Operation.Flaw, Operation.mentions, or_or_or_comm]
  | gep ty base indices =>
    refine ((reports_lowerType ty).bind fun _ _ => (reports_typedOperand h base).bind fun _ _ =>
      (Reports.mapM fun e _ => reports_typedOperand h e).map _).congr fun problem => ?_
    simp [Operation.Flaw, Operation.mentions, and_or_left, exists_or, or_assoc, or_left_comm]
  | cast opcode value result =>
    refine ((reports_typedOperand h value).bind fun _ _ => (reports_lowerType result).map _).congr
      fun problem => ?_
    simp [Operation.Flaw, Operation.mentions, or_right_comm]
  | select cond onTrue onFalse =>
    refine ((reports_typedOperand h cond).bind fun _ _ => (reports_typed h onTrue).bind fun _ _ =>
      (reports_typedOperand h onFalse).map _).congr fun problem => ?_
    simp [Operation.Flaw, Operation.mentions, or_or_or_comm]
  | phi ty incoming =>
    refine ((reports_lowerType ty).bind fun _ _ =>
      (Reports.mapM fun e _ => reports_incoming h e).map _).congr fun problem => ?_
    simp [Operation.Flaw, Operation.mentions, exists_mem_flatMap, -List.mem_flatMap]
  | call ty callee args =>
    refine ((reports_lowerType ty).bind fun _ _ => (reports_value h callee).bind fun _ _ =>
      (Reports.mapM fun e _ => reports_value h e.value).map _).congr fun problem => ?_
    simp [Operation.Flaw, Operation.mentions]
  | br target =>
    refine ((reports_label h target).map _).congr fun problem => ?_
    simp [Operation.Flaw, Operation.mentions]
  | condBr cond onTrue onFalse =>
    refine ((reports_typedOperand h cond).bind fun _ _ => (reports_label h onTrue).bind fun _ _ =>
      (reports_label h onFalse).map _).congr fun problem => ?_
    simp [Operation.Flaw, Operation.mentions, or_assoc]
  | switch value fallback cases =>
    refine ((reports_typedOperand h value).bind fun _ _ =>
      (Reports.mapM fun e _ => reports_switchCase h e).bind
      fun _ _ => (reports_label h fallback).map _).congr fun problem => ?_
    -- a case has a mention of each kind, so its flaws are spread over both lists
    have hcases : (∃ mention ∈ cases.flatMap CaseExpr.mentions, mention.Flaw names labels problem) ↔
        (∃ e ∈ cases, e.value.value.Flaw names problem) ∨
          ∃ e ∈ cases, (Mention.label e.label).Flaw names labels problem := by
      simp [exists_mem_flatMap, CaseExpr.mentions, -List.mem_flatMap, and_or_left, exists_or]
    simp only [Operation.Flaw, Operation.types, Operation.checked, Operation.mentions,
      Operation.cases, List.mem_cons, List.mem_map, or_and_right, exists_or, exists_eq_left,
      exists_exists_and_eq_and, Mention.flaw_value, hcases]
    grind
  | ret value =>
    cases value with
    | none => exact .ok fun problem => by simp [Operation.Flaw, Operation.mentions]
    | some value =>
      refine ((reports_typedOperand h value).map _).congr fun problem => ?_
      simp [Operation.Flaw, Operation.mentions]
  | unreachable => exact .ok fun problem => by simp [Operation.Flaw, Operation.mentions]

end Scope

end Dataflow.Source
