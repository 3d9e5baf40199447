import Mathlib.Data.Nat.Digits.Defs
import Mathlib.Data.List.Induction
import Gamebook.Token.Number

/-!
# What the digits of a number say

Summing up digits with a bound loses nothing that matters: the sum is the number as long as it can
be written, and from then on it is known that it cannot (`ofDigits_eq`). The bound leaves room in
the word for one more digit in any base up to sixteen (`push_fits`), so that the sum is that of the
digits and not of what is left of it in 64 bits.
-/

namespace Gamebook.Literal

/-- A number as far as it can be written: up to one more than the greatest. -/
def bounded (value : Nat) : Literal :=
  ⟨(min value (maxNumber + 1)).toUInt64, decide (maxNumber < value)⟩

theorem bounded_of_le {value : Nat} (h : value ≤ maxNumber) :
    bounded value = ⟨value.toUInt64, false⟩ := by
  rw [bounded, Nat.min_eq_left (by omega), decide_eq_false (by omega)]

theorem bounded_of_lt {value : Nat} (h : maxNumber < value) :
    bounded value = ⟨(maxNumber + 1).toUInt64, true⟩ := by
  rw [bounded, Nat.min_eq_right (by omega), decide_eq_true h]

theorem toNat_toUInt64 {n : Nat} (h : n < 2 ^ 64) : n.toUInt64.toNat = n :=
  UInt64.toNat_ofNat_of_lt' h

theorem toNat_bounded (value : Nat) : (bounded value).value.toNat = min value (maxNumber + 1) :=
  toNat_toUInt64 (by simp only [maxNumber]; omega)

/-- A number that can be written is not changed by its way through words. -/
theorem toNat_toUInt32 {value : Nat} (h : value ≤ maxNumber) :
    value.toUInt64.toUInt32.toNat = value := by
  simp only [maxNumber] at h
  rw [UInt64.toNat_toUInt32, toNat_toUInt64 (by omega)]
  omega

variable {base digit : Nat}

/-- One more digit does not reach beyond the word. -/
theorem push_fits (least : base ≤ 16) (below : digit < base) (value : Nat) :
    (bounded value).value.toNat * base + digit < 2 ^ 64 := by
  have bound : (bounded value).value.toNat * base ≤ (maxNumber + 1) * 16 := by
    rw [toNat_bounded]
    exact Nat.mul_le_mul (Nat.min_le_right _ _) least
  simp only [maxNumber] at bound
  omega

/-- One more digit, as long as the sum fits into the word. -/
theorem push_eq {n : Literal} {sum : Nat} (h : n.value.toNat * base + digit = sum)
    (fits : sum < 2 ^ 64) :
    push base n digit =
      ⟨(min sum (maxNumber + 1)).toUInt64, n.overflow || decide (maxNumber < sum)⟩ := by
  have word : n.value * base.toUInt64 + digit.toUInt64 = sum.toUInt64 := by
    rw [← h, Nat.toUInt64_eq, Nat.toUInt64_eq, Nat.toUInt64_eq, UInt64.ofNat_add, UInt64.ofNat_mul,
      UInt64.ofNat_toNat]
  have above : maxNumber.toUInt64 < sum.toUInt64 ↔ maxNumber < sum :=
    UInt64.ofNat_lt_iff_lt (by decide) fits
  have least : min sum.toUInt64 (maxNumber + 1).toUInt64 = (min sum (maxNumber + 1)).toUInt64 := by
    have bound : min sum (maxNumber + 1) < 2 ^ 64 := Nat.lt_of_le_of_lt (Nat.min_le_left _ _) fits
    rw [← UInt64.toNat_inj, UInt64.toNat_min, toNat_toUInt64 fits, toNat_toUInt64 (by decide),
      toNat_toUInt64 bound]
  simp only [push, word, above, least]

/-- One more digit is added as if there were no bound. -/
theorem push_bounded (least : base ≤ 16) (below : digit < base) (value : Nat) :
    push base (bounded value) digit = bounded (digit + base * value) := by
  rw [push_eq rfl (push_fits least below value), toNat_bounded]
  rcases Nat.lt_or_ge maxNumber value with above | small
  · -- the sum was above the bound before, and it stays there
    have grown : value ≤ base * value := Nat.le_mul_of_pos_left value (by omega)
    have kept : maxNumber + 1 ≤ (maxNumber + 1) * base := Nat.le_mul_of_pos_right _ (by omega)
    rw [bounded_of_lt above, bounded_of_lt (by omega), Nat.min_eq_right (a := value) (by omega),
      Nat.min_eq_right (by omega)]
    rfl
  · rw [bounded_of_le small, Nat.min_eq_left (a := value) (by omega), Nat.add_comm digit,
      Nat.mul_comm base]
    rfl

/-- The digits are read as the number they write, the last one counting least. -/
theorem ofDigits_eq (least : base ≤ 16) {digits : List Nat} (h : ∀ digit ∈ digits, digit < base) :
    ofDigits base digits = bounded (Nat.ofDigits base digits.reverse) := by
  induction digits using List.reverseRecOn with
  | nil => rfl
  | append_singleton digits digit ih =>
    obtain ⟨before, last⟩ := List.forall_mem_append.mp h
    rw [ofDigits, List.foldl_append, ← ofDigits, ih before, List.reverse_append,
      List.reverse_singleton, List.singleton_append, Nat.ofDigits_cons]
    exact push_bounded least (last digit List.mem_cons_self) _

end Gamebook.Literal
