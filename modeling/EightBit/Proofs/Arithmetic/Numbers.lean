import EightBit.Byte
import Mathlib.Data.Nat.Digits.Lemmas
import Mathlib.Data.Nat.ModEq

/-!
# Numbers of several bytes

Some bytes, the least significant one first, spell out a number to the base 256
(`EightBit.number`), and as two's complement they spell out a signed one
(`EightBit.signedNumber`). Both readings are taken apart from the least significant byte, the way
the machine goes through them: the byte itself is unsigned, whatever it is the first digit of. Only
the last byte is signed.

To complement every bit of a number is to take it from the largest one there is
(`EightBit.number_complement`), and that is how a subtraction becomes an addition. Of the two other
facts about numbers here, one is about halving and one about remainders
(`EightBit.eq_of_two_mul_add`, `EightBit.eq_of_modEq`).
-/

namespace EightBit

/-- **The number that some bytes spell out**, the least significant one first. -/
def number (bytes : List Byte) : Nat :=
  Nat.ofDigits 256 (bytes.map UInt8.toNat)

/-- **The same number as two's complement**: numbers in the upper half stand for negative ones. -/
def signedNumber (bytes : List Byte) : Int :=
  if 256 ^ bytes.length ≤ 2 * number bytes then (number bytes : Int) - (256 ^ bytes.length : Nat)
  else number bytes

variable {b : Byte} {bytes : List Byte}

theorem number_cons (b : Byte) (bytes : List Byte) :
    number (b :: bytes) = b.toNat + 256 * number bytes := by
  rw [number, List.map_cons, Nat.ofDigits_cons]
  rfl

theorem number_singleton (b : Byte) : number [b] = b.toNat :=
  number_cons b []

/-- A number is below the power of the base with as many digits. -/
theorem number_lt (bytes : List Byte) : number bytes < 256 ^ bytes.length := by
  have hdigits : ∀ d ∈ bytes.map UInt8.toNat, d < 256 := by
    intro d hd
    obtain ⟨b, -, rfl⟩ := List.mem_map.1 hd
    exact b.toNat_lt
  have hlt := Nat.ofDigits_lt_base_pow_length (by decide : 1 < 256) hdigits
  rwa [List.length_map] at hlt

/-! ### Two's complement -/

/-- A power of the base is even, if it is not the first one. -/
theorem exists_pow_eq_two_mul (hne : bytes ≠ []) : ∃ half, 256 ^ bytes.length = 2 * half := by
  obtain ⟨b, rest, rfl⟩ := List.exists_cons_of_ne_nil hne
  exact ⟨128 * 256 ^ rest.length, by rw [List.length_cons, Nat.pow_succ]; omega⟩

theorem signedNumber_singleton (b : Byte) : signedNumber [b] = b.signed := by
  rw [signedNumber, number_singleton, Byte.signed, Byte.isNegative]
  simp only [List.length_singleton, Nat.pow_one, decide_eq_true_eq]
  split <;> split <;> omega

/-- **The sign is in the last byte**, so the first one is unsigned. -/
theorem signedNumber_cons (b : Byte) (hne : bytes ≠ []) :
    signedNumber (b :: bytes) = b.toNat + 256 * signedNumber bytes := by
  have hb := b.toNat_lt
  obtain ⟨half, hhalf⟩ := exists_pow_eq_two_mul hne
  rw [signedNumber, signedNumber, number_cons, List.length_cons, Nat.pow_succ, hhalf]
  split <;> split <;> omega

/-- The last byte shows the sign. -/
theorem isNegative_getLast? (hlast : bytes.getLast? = some b) :
    b.isNegative = decide (256 ^ bytes.length ≤ 2 * number bytes) := by
  induction bytes with
  | nil => cases hlast
  | cons first bytes ih =>
    by_cases hrest : bytes = []
    · subst hrest
      obtain rfl : first = b := Option.some.inj hlast
      rw [number_singleton, Byte.isNegative, decide_eq_decide]
      simp only [List.length_singleton, Nat.pow_one]
      omega
    · have hfirst := first.toNat_lt
      obtain ⟨half, hhalf⟩ := exists_pow_eq_two_mul hrest
      rw [List.getLast?_cons_of_ne_nil hrest] at hlast
      rw [ih hlast, decide_eq_decide, number_cons, List.length_cons, Nat.pow_succ, hhalf]
      omega

/-! ### Complements -/

/-- **The complement of a number** is what it lacks of the largest one. -/
theorem number_complement (bytes : List Byte) :
    number (bytes.map (~~~·)) + number bytes + 1 = 256 ^ bytes.length := by
  induction bytes with
  | nil => rfl
  | cons b bytes ih =>
    have hb := b.toNat_complement
    rw [List.map_cons, number_cons, number_cons, List.length_cons, Nat.pow_succ]
    omega

theorem signedNumber_complement (hne : bytes ≠ []) :
    signedNumber (bytes.map (~~~·)) = -1 - signedNumber bytes := by
  have hsum := number_complement bytes
  obtain ⟨half, hhalf⟩ := exists_pow_eq_two_mul hne
  rw [signedNumber, signedNumber, List.length_map]
  split <;> split <;> omega

/-! ### Halves and remainders -/

/-- A half and a last bit are told from the whole. -/
theorem eq_of_two_mul_add {x n : Nat} {carry : Bool} (h : 2 * x + carry.toNat = n) :
    x = n / 2 ∧ carry = decide (n % 2 = 1) := by
  cases carry with
  | false =>
    rw [Bool.toNat_false] at h
    exact ⟨by omega, (decide_eq_false (by omega)).symm⟩
  | true =>
    rw [Bool.toNat_true] at h
    exact ⟨by omega, (decide_eq_true (by omega)).symm⟩

/-- Up to the modulus itself, only zero is confused with anything. -/
theorem eq_of_modEq {a b modulus : Nat} (h : a ≡ b [MOD modulus]) (ha : a ≤ modulus)
    (hb : b ≤ modulus) (hzero : a = 0 ↔ b = 0) : a = b := by
  rcases a with _ | a
  · exact (hzero.1 rfl).symm
  · obtain ⟨b, rfl⟩ := Nat.exists_eq_add_one_of_ne_zero (mt hzero.2 (Nat.succ_ne_zero a))
    have hbelow : a ≡ b [MOD modulus] := Nat.ModEq.add_right_cancel' 1 h
    exact congrArg Nat.succ (hbelow.eq_of_lt_of_lt ha hb)

end EightBit
