import Mathlib
import HaarDetection.Decimal.Numeral

/-!
# Numerals that can be read

The grammar of documents wants digits before and behind a point and in a power of ten, and no zero in
front of other digits. Integers are written like that, and read as what they were.

* `natOfDigits_digitsOf`: digits stand for the number whose digits they are.
* `digitsOf_head`: no zero stands in front of other digits.
* `Numeral.WellFormed`: a numeral that the grammar allows.
* `Numeral.toNat?_ofInt`, `Numeral.toInt?_ofInt_iff`: **an integer that fits is read as it was written.**
-/

namespace HaarDetection

theorem mod_ten_lt (n : ℕ) : n % 10 < 10 := Nat.mod_lt n (by decide)

/-- The last digit of a number. -/
def lastDigit (n : ℕ) : Digit := ⟨n % 10, mod_ten_lt n⟩

theorem digitsBefore_eq (n : ℕ) (rest : List Digit) : digitsBefore n rest = digitsOf n ++ rest := by
  unfold digitsOf
  induction n using Nat.strong_induction_on generalizing rest with
  | _ n ih =>
    unfold digitsBefore
    split
    · rfl
    · have hlt : n / 10 < n := by omega
      rw [ih (n / 10) hlt, ih (n / 10) hlt [_], List.append_assoc]
      rfl

/-- The digits of a number, with the last one put off. -/
theorem digitsOf_eq (n : ℕ) :
    digitsOf n = if n < 10 then [lastDigit n] else digitsOf (n / 10) ++ [lastDigit n] := by
  conv_lhs => unfold digitsOf digitsBefore
  split
  · rfl
  · exact digitsBefore_eq _ _

theorem natOfDigits_append (ds : List Digit) (d : Digit) :
    natOfDigits (ds ++ [d]) = 10 * natOfDigits ds + d.val := by
  unfold natOfDigits
  rw [List.foldl_append]
  rfl

/-- **Digits stand for the number** whose digits they are. -/
@[simp] theorem natOfDigits_digitsOf (n : ℕ) : natOfDigits (digitsOf n) = n := by
  induction n using Nat.strong_induction_on with
  | _ n ih =>
    rw [digitsOf_eq]
    split
    · rename_i h
      exact Nat.zero_add _ |>.trans (Nat.mod_eq_of_lt h)
    · rw [natOfDigits_append, ih (n / 10) (by omega)]
      exact Nat.div_add_mod n 10

theorem digitsOf_ne_nil (n : ℕ) : digitsOf n ≠ [] := by
  rw [digitsOf_eq]
  split
  · exact List.cons_ne_nil _ _
  · exact List.append_ne_nil_of_right_ne_nil _ (List.cons_ne_nil _ _)

/-- **No zero in front.** -/
theorem digitsOf_head {n : ℕ} (hn : 0 < n) : (digitsOf n).head? ≠ some 0 := by
  induction n using Nat.strong_induction_on with
  | _ n ih =>
    rw [digitsOf_eq]
    split
    · rename_i h
      intro h0
      have hlast : n % 10 = 0 := congrArg Fin.val (Option.some.inj h0)
      omega
    · rw [List.head?_append_of_ne_nil _ (digitsOf_ne_nil _)]
      exact ih (n / 10) (by omega) (by omega)

theorem digitsOf_zero : digitsOf 0 = [0] := by
  rw [digitsOf_eq]
  rfl

/-- Digits that may stand before a point: there are some, and a zero in front stands alone. -/
structure WholeDigits (ds : List Digit) : Prop where
  ne_nil : ds ≠ []
  head : ds.head? = some 0 → ds.length = 1

theorem wholeDigits_of_head {ds : List Digit} (hne : ds ≠ []) (hd : ds.head? ≠ some 0) : WholeDigits ds :=
  ⟨hne, fun h => absurd h hd⟩

theorem wholeDigits_digitsOf (n : ℕ) : WholeDigits (digitsOf n) := by
  rcases Nat.eq_zero_or_pos n with rfl | hn
  · rw [digitsOf_zero]
    exact ⟨List.cons_ne_nil _ _, fun _ => rfl⟩
  · exact wholeDigits_of_head (digitsOf_ne_nil n) (digitsOf_head hn)

namespace Numeral

/-- **A numeral that the grammar of documents allows.** -/
structure WellFormed (n : Numeral) : Prop where
  whole : WholeDigits n.whole
  fraction : ∀ ds ∈ n.fraction, ds ≠ []
  power : ∀ p ∈ n.power, p.2 ≠ []

theorem ofInt_wellFormed (z : ℤ) : (ofInt z).WellFormed :=
  ⟨wholeDigits_digitsOf _, nofun, nofun⟩

/-- **A natural number that fits in 64 bits is read as it was written.** -/
theorem toNat?_ofInt {n : ℕ} (hn : n < UInt64.size) : (ofInt n).toNat? = some n := by
  have hsign : ¬(n : ℤ) < 0 := by omega
  simp [toNat?, ofInt, isPlain, hsign, hn]

/-- An integer that fits in 64 bits, with a sign. -/
def FitsWord (z : ℤ) : Prop := -2 ^ 63 ≤ z ∧ z < 2 ^ 63

/-- What is read as an integer fits. -/
theorem fits_of_toInt? {n : Numeral} {z : ℤ} (h : n.toInt? = some z) : FitsWord z := by
  unfold FitsWord
  simp only [toInt?] at h
  split at h
  · cases h
  · split at h
    · split at h
      · cases h
        omega
      · cases h
    · split at h
      · cases h
        omega
      · cases h

/-- **An integer that fits is read as it was written,** and no other one is read. -/
theorem toInt?_ofInt_iff {z y : ℤ} : (ofInt z).toInt? = some y ↔ FitsWord z ∧ y = z := by
  simp only [toInt?, ofInt, isPlain, FitsWord, Option.isNone_none, Bool.and_self, Bool.not_true,
    Bool.false_eq_true, if_false, natOfDigits_digitsOf, decide_eq_true_eq]
  split
  · split
    · simp only [Option.some.injEq]
      omega
    · simp only [reduceCtorEq, false_iff]
      omega
  · split
    · simp only [Option.some.injEq]
      omega
    · simp only [reduceCtorEq, false_iff]
      omega

end Numeral

end HaarDetection
