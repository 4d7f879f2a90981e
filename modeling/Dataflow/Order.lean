/-!
# Orders on keys

Sorted containers ask their keys for a strict total order that can be tested.  The order decides how
facts are written, so it is part of the type: one instance per kind of key.

* `KeyOrder`: the test and the three laws of a strict total order.
* `KeyOrder.comap`: the order of an injective image.
* instances for numbers, texts and pairs; pairs are ordered lexicographically.
-/

namespace Dataflow

/-- A strict total order on `κ`, given by a test. -/
class KeyOrder (κ : Type) where
  /-- The first key comes before the second. -/
  precedes : κ → κ → Bool
  irrefl : ∀ a, precedes a a = false
  trans : ∀ {a b c}, precedes a b = true → precedes b c = true → precedes a c = true
  eq_of_incomparable : ∀ {a b}, precedes a b = false → precedes b a = false → a = b

namespace KeyOrder

variable {κ ι : Type} [KeyOrder κ] [KeyOrder ι]

theorem asymm {a b : κ} (h : precedes a b = true) : precedes b a = false := by
  cases hba : precedes b a with
  | false => rfl
  | true => exact absurd (trans h hba) (by simp [irrefl a])

theorem ne_of_precedes {a b : κ} (h : precedes a b = true) : a ≠ b := by
  rintro rfl
  simp [irrefl a] at h

/-- Keys are compared through their images; equal images mean equal keys. -/
@[reducible] def comap {α : Type} (image : α → κ) (injective : ∀ a b, image a = image b → a = b) :
    KeyOrder α where
  precedes a b := precedes (image a) (image b)
  irrefl a := irrefl (image a)
  trans := trans
  eq_of_incomparable h h' := injective _ _ (eq_of_incomparable h h')

instance : KeyOrder Nat where
  precedes a b := decide (a < b)
  irrefl a := by simp
  trans h h' := by simp only [decide_eq_true_eq] at *; omega
  eq_of_incomparable h h' := by simp only [decide_eq_false_iff_not] at *; omega

/-- Texts are ordered by code points, which is also the order of their UTF-8 bytes. -/
instance : KeyOrder String where
  precedes a b := decide (a < b)
  irrefl a := by simp
  trans h h' := by
    simp only [decide_eq_true_eq] at *
    exact String.lt_trans h h'
  eq_of_incomparable h h' := by
    simp only [decide_eq_false_iff_not] at *
    exact String.le_antisymm h' h

/-- Pairs are compared by their first components, and by the second where those agree. -/
instance [DecidableEq κ] : KeyOrder (κ × ι) where
  precedes a b := precedes a.1 b.1 || (decide (a.1 = b.1) && precedes a.2 b.2)
  irrefl a := by simp [irrefl]
  trans {a b c} h h' := by
    simp only [Bool.or_eq_true, Bool.and_eq_true, decide_eq_true_eq] at *
    rcases h with h | ⟨e, h⟩ <;> rcases h' with h' | ⟨e', h'⟩
    · exact Or.inl (trans h h')
    · exact Or.inl (e' ▸ h)
    · exact Or.inl (e ▸ h')
    · exact Or.inr ⟨e.trans e', trans h h'⟩
  eq_of_incomparable {a b} h h' := by
    simp only [Bool.or_eq_false_iff, Bool.and_eq_false_imp, decide_eq_true_eq] at *
    have e : a.1 = b.1 := eq_of_incomparable h.1 h'.1
    exact Prod.ext e (eq_of_incomparable (h.2 e) (h'.2 e.symm))

end KeyOrder

end Dataflow
