import EightBit.Proofs.Arithmetic.Bits
import EightBit.Proofs.Arithmetic.Numbers

/-!
# Chains of bytes

A byte is added with a carry in and a carry out, so that numbers of any length can be added one
byte after the other, from the least significant ones on (`EightBit.chain`). The bytes that come of
it spell out the sum, the last carry is the one out of the whole number, and the last column knows
of the signed overflow of the whole number, though it has seen no other byte of it. All of this is
by induction on the columns (`EightBit.chain_add`).

A difference is a sum with the complement (`EightBit.Byte.subtract_eq`), so there is no second
induction. What both of them come to is said once, in terms of the exact result
(`EightBit.Accumulation.Exact.of_chain`).
-/

namespace EightBit

/-! ### Sums -/

/-- **One pair of bytes after the other**, each with the carry of the one before. -/
def chain (operation : Byte → Byte → Bool → Sum) : List (Byte × Byte) → Bool → List Sum
  | [], _ => []
  | (a, b) :: pairs, carry =>
    operation a b carry :: chain operation pairs (operation a b carry).carry

/-- What is written down in the columns of a sum. -/
def values (sums : List Sum) : List Byte :=
  sums.map Sum.value

section

variable {operation : Byte → Byte → Bool → Sum} {pairs : List (Byte × Byte)} {carry : Bool}
  {last : Sum}

theorem length_chain : (chain operation pairs carry).length = pairs.length := by
  induction pairs generalizing carry with
  | nil => rfl
  | cons pair pairs ih => exact congrArg Nat.succ ih

theorem length_values : (values (chain operation pairs carry)).length = pairs.length := by
  rw [values, List.length_map, length_chain]

theorem ne_nil_of_getLast? (hlast : (chain operation pairs carry).getLast? = some last) :
    pairs ≠ [] := by
  rintro rfl
  cases hlast

theorem chain_ne_nil (hne : pairs ≠ []) : chain operation pairs carry ≠ [] := by
  rw [← List.length_pos_iff, length_chain]
  exact List.length_pos_iff.2 hne

theorem values_ne_nil (hne : pairs ≠ []) : values (chain operation pairs carry) ≠ [] :=
  mt List.map_eq_nil_iff.1 (chain_ne_nil hne)

/-- A chain has the last column of the rest of it. -/
theorem getLast?_chain_cons (a b : Byte) (hrest : pairs ≠ []) :
    (chain operation ((a, b) :: pairs) carry).getLast? =
      (chain operation pairs (operation a b carry).carry).getLast? := by
  rw [chain, List.getLast?_cons_of_ne_nil (chain_ne_nil hrest)]

end

/-- **A chain of additions is an addition.** The values spell out the sum of the two numbers, with
the last carry above them, and the last column overflows exactly if the signed reading of them
is not the sum of the signed numbers. -/
theorem chain_add {pairs : List (Byte × Byte)} {carry : Bool} {last : Sum}
    (hlast : (chain Byte.add pairs carry).getLast? = some last) :
    number (values (chain Byte.add pairs carry)) + 256 ^ pairs.length * last.carry.toNat =
      number (pairs.map Prod.fst) + number (pairs.map Prod.snd) + carry.toNat ∧
    (last.overflow = true ↔ signedNumber (values (chain Byte.add pairs carry)) ≠
      signedNumber (pairs.map Prod.fst) + signedNumber (pairs.map Prod.snd) + carry.toNat) := by
  induction pairs generalizing carry with
  | nil => cases hlast
  | cons pair pairs ih =>
    obtain ⟨a, b⟩ := pair
    have hvalue := a.value_add b carry
    by_cases hrest : pairs = []
    · subst hrest
      obtain rfl : a.add b carry = last := Option.some.inj hlast
      constructor
      · simpa [chain, values, number_singleton] using hvalue
      · simpa [chain, values, signedNumber_singleton] using a.overflow_add b carry
    · rw [getLast?_chain_cons a b hrest] at hlast
      obtain ⟨hnumber, hoverflow⟩ := ih hlast
      have hleft : pairs.map Prod.fst ≠ [] := mt List.map_eq_nil_iff.1 hrest
      have hright : pairs.map Prod.snd ≠ [] := mt List.map_eq_nil_iff.1 hrest
      rw [chain, values, List.map_cons, ← values, List.map_cons, List.map_cons, List.length_cons]
      constructor
      · rw [number_cons, number_cons, number_cons, Nat.pow_succ, Nat.mul_right_comm]
        dsimp only
        omega
      · -- The first digit of the total is right in any case, and so is its carry.
        rw [hoverflow, signedNumber_cons _ (values_ne_nil hrest), signedNumber_cons _ hleft,
          signedNumber_cons _ hright]
        dsimp only
        omega

/-! ### Differences -/

/-- The pairs of a difference, with what has to be added to get it. -/
def complemented (pairs : List (Byte × Byte)) : List (Byte × Byte) :=
  pairs.map fun pair => (pair.1, ~~~pair.2)

theorem chain_subtract (pairs : List (Byte × Byte)) (carry : Bool) :
    chain Byte.subtract pairs carry = chain Byte.add (complemented pairs) carry := by
  induction pairs generalizing carry with
  | nil => rfl
  | cons pair pairs ih =>
    rw [chain, ih, Byte.subtract_eq]
    rfl

/-! ### The exact result -/

/-- The two ways to make one number out of two and a carry. -/
inductive Accumulation where
  | sum
  | difference
deriving DecidableEq, Repr

/-- Whether a signed number is out of the range of so many bytes. -/
def overflows (length : Nat) (x : Int) : Bool :=
  decide (2 * x < -(256 ^ length : Nat) ∨ (256 ^ length : Nat) ≤ 2 * x)

namespace Accumulation

/-- What it does with two bytes. -/
def apply : Accumulation → Byte → Byte → Bool → Sum
  | sum => Byte.add
  | difference => Byte.subtract

/-- **The exact result** for two numbers of any size. -/
def total : Accumulation → Int → Int → Bool → Int
  | sum, x, y, carry => x + y + carry.toNat
  | difference, x, y, carry => x - y - (!carry).toNat

/-- **When the carry is set** for an exact result in so many bytes: when there is no room for a
sum, and when a difference does not have to borrow. -/
def carries : Accumulation → (length : Nat) → (total : Int) → Bool
  | sum, length, total => decide ((256 ^ length : Nat) ≤ total)
  | difference, _, total => decide (0 ≤ total)

end Accumulation

/-- **A signed sum is right exactly if it is in range**, since it cannot be wrong by less than all
that there is room for. -/
theorem signedNumber_ne_iff {v x y : List Byte} {carry carry' : Bool} (hne : v ≠ [])
    (hx : x.length = v.length) (hy : y.length = v.length)
    (h : number v + 256 ^ v.length * carry'.toNat = number x + number y + carry.toNat) :
    signedNumber v ≠ signedNumber x + signedNumber y + carry.toNat ↔
      overflows v.length (signedNumber x + signedNumber y + carry.toNat) = true := by
  have hv := number_lt v
  obtain ⟨half, hhalf⟩ := exists_pow_eq_two_mul hne
  rw [overflows, decide_eq_true_eq, signedNumber, signedNumber, signedNumber, hx, hy]
  cases carry' <;> simp only [Bool.toNat_true, Bool.toNat_false] at h <;>
    split <;> split <;> split <;> omega

/-- What it means for values and for the last of their columns to be the exact result, as far as
there is room for it. -/
structure Accumulation.Exact (k : Accumulation) (x y : List Byte) (carry : Bool) (v : List Byte)
    (last : Sum) : Prop where
  number_eq : (number v : Int) = k.total (number x) (number y) carry % (256 ^ v.length : Nat)
  carry_eq : last.carry = k.carries v.length (k.total (number x) (number y) carry)
  overflow_eq : last.overflow = overflows v.length (k.total (signedNumber x) (signedNumber y) carry)

namespace Accumulation.Exact

variable {pairs : List (Byte × Byte)} {carry : Bool} {last : Sum}

theorem of_chain_add (hlast : (chain Byte.add pairs carry).getLast? = some last) :
    Exact .sum (pairs.map Prod.fst) (pairs.map Prod.snd) carry
      (values (chain Byte.add pairs carry)) last := by
  have hlength : (values (chain Byte.add pairs carry)).length = pairs.length := length_values
  have hlt := number_lt (values (chain Byte.add pairs carry))
  have hne : values (chain Byte.add pairs carry) ≠ [] := values_ne_nil (ne_nil_of_getLast? hlast)
  obtain ⟨hnumber, hoverflow⟩ := chain_add hlast
  rw [← hlength] at hnumber
  have htotal : total .sum (number (pairs.map Prod.fst)) (number (pairs.map Prod.snd)) carry =
      number (values (chain Byte.add pairs carry)) +
        (256 ^ (values (chain Byte.add pairs carry)).length : Nat) * last.carry.toNat := by
    rw [total]
    exact_mod_cast hnumber.symm
  refine ⟨?_, ?_, ?_⟩
  · rw [htotal, Int.add_mul_emod_self_left]
    exact (Int.emod_eq_of_lt (Int.natCast_nonneg _) (Int.ofNat_lt.2 hlt)).symm
  · rw [htotal, carries, Bool.eq_iff_iff, decide_eq_true_iff]
    generalize 256 ^ (values (chain Byte.add pairs carry)).length = room at hlt ⊢
    cases last.carry with
    | false => simpa using hlt
    | true => simp
  · rw [Bool.eq_iff_iff, hoverflow]
    exact signedNumber_ne_iff hne (by rw [hlength, List.length_map])
      (by rw [hlength, List.length_map]) hnumber

/-- **The complement makes up for what a sum has too much**, which is just as much as there is no
room for. -/
theorem of_chain_subtract (hlast : (chain Byte.subtract pairs carry).getLast? = some last) :
    Exact .difference (pairs.map Prod.fst) (pairs.map Prod.snd) carry
      (values (chain Byte.subtract pairs carry)) last := by
  have hne : pairs.map Prod.snd ≠ [] := mt List.map_eq_nil_iff.1 (ne_nil_of_getLast? hlast)
  rw [chain_subtract] at hlast ⊢
  have hlength : (values (chain Byte.add (complemented pairs) carry)).length = pairs.length := by
    rw [length_values, complemented, List.length_map]
  have hleft : (complemented pairs).map Prod.fst = pairs.map Prod.fst := by
    simp [complemented]
  have hright : (complemented pairs).map Prod.snd = (pairs.map Prod.snd).map (~~~·) := by
    simp [complemented]
  have hcarry : (carry.toNat : Int) = 1 - (!carry).toNat := by cases carry <;> rfl
  have hcomplement := number_complement (pairs.map Prod.snd)
  rw [List.length_map] at hcomplement
  have htotal : total .sum (number (pairs.map Prod.fst)) (number ((pairs.map Prod.snd).map (~~~·)))
      carry = total .difference (number (pairs.map Prod.fst)) (number (pairs.map Prod.snd)) carry +
        (256 ^ pairs.length : Nat) := by
    rw [total, total, hcarry]
    omega
  have hsigned : total .sum (signedNumber (pairs.map Prod.fst))
      (signedNumber ((pairs.map Prod.snd).map (~~~·))) carry =
        total .difference (signedNumber (pairs.map Prod.fst)) (signedNumber (pairs.map Prod.snd))
          carry := by
    rw [total, total, hcarry, signedNumber_complement hne]
    omega
  obtain ⟨hnumber, hcarries, hoverflows⟩ := of_chain_add hlast
  rw [hleft, hright, hlength] at hnumber hcarries hoverflows
  rw [htotal] at hnumber hcarries
  refine ⟨?_, ?_, ?_⟩
  · rw [hnumber, hlength, Int.add_emod_right]
  · rw [hcarries, hlength, carries, carries, decide_eq_decide]
    omega
  · rw [hoverflows, hlength, hsigned]

/-- **A chain comes to the exact result.** -/
theorem of_chain {k : Accumulation} (hlast : (chain k.apply pairs carry).getLast? = some last) :
    k.Exact (pairs.map Prod.fst) (pairs.map Prod.snd) carry (values (chain k.apply pairs carry))
      last := by
  cases k with
  | sum => exact of_chain_add hlast
  | difference => exact of_chain_subtract hlast

end Accumulation.Exact

end EightBit
