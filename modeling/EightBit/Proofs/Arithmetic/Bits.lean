import EightBit.Bits
import Mathlib.Algebra.Group.Nat.Defs

/-!
# What the arithmetic unit computes

Bits spell out a number (`EightBit.Bits.number`), eight of them that of their byte
(`EightBit.Bits.toNat_toByte`), and what is done bit by bit comes to arithmetic on it.

A full adder counts the bits that are set, and by induction on the places a whole ripple of them
adds two numbers, with the last carry above the sum (`EightBit.Bits.number_ripple_fullAdder`).
Differences need no induction on numbers: a full subtractor is a full adder on the complement, place
by place (`EightBit.Bits.ripple_fullSubtractor`), so that to subtract is to add the complement
(`EightBit.Byte.subtract_eq`).

For bytes this says that nothing is lost: the value of a sum has the carry above it
(`EightBit.Byte.value_add`), and from that of a difference what was borrowed is to be taken off
(`EightBit.Byte.value_subtract`). The overflow, which looks at signs only, says exactly when the
signed reading goes wrong (`EightBit.Byte.overflow_add`, `EightBit.Byte.overflow_subtract`).
Rotations double and halve (`EightBit.Byte.value_rotate_up`, `EightBit.Byte.value_rotate_down`).
-/

namespace EightBit

/-! ### The number that bits spell out -/

namespace Bits

/-- **The number that some bits spell out**, the most significant one first. -/
def number : List Bool → Nat
  | [] => 0
  | bit :: bits => bit.toNat * 2 ^ bits.length + number bits

theorem toNat_not (bit : Bool) : (!bit).toNat = 1 - bit.toNat := by
  cases bit <;> rfl

theorem number_lt (bits : List Bool) : number bits < 2 ^ bits.length := by
  induction bits with
  | nil => decide
  | cons bit bits ih =>
    have hbit := Nat.mul_le_mul_right (2 ^ bits.length) bit.toNat_le
    rw [number, List.length_cons, Nat.pow_succ]
    omega

/-- A bit at the end counts for one, and those before it for twice as much. -/
theorem number_concat (bits : List Bool) (bit : Bool) :
    number (bits ++ [bit]) = 2 * number bits + bit.toNat := by
  induction bits with
  | nil => simp [number]
  | cons first bits ih =>
    rw [List.cons_append, number, number, ih, List.length_append, List.length_singleton,
      Nat.pow_succ]
    rw [← Nat.mul_assoc, Nat.mul_comm _ 2]
    omega

/-- A full adder counts the bits that are set. -/
theorem fullAdder_exact : ∀ a b carry : Bool,
    (fullAdder a b carry).1.toNat + (fullAdder a b carry).2.toNat * 2 =
      a.toNat + b.toNat + carry.toNat := by
  decide

/-- A full subtractor adds the complement of its second bit. -/
theorem fullSubtractor_eq : ∀ a b carry : Bool, fullSubtractor a b (!carry) =
    ((fullAdder a (!b) carry).1, !(fullAdder a (!b) carry).2) := by
  decide

/-- **The places of a sum and the carry above them** spell out the sum. -/
theorem number_ripple_fullAdder (carry : Bool) (places : List (Bool × Bool)) :
    number (ripple fullAdder carry places).1 +
        (ripple fullAdder carry places).2.toNat * 2 ^ places.length =
      number (places.map Prod.fst) + number (places.map Prod.snd) + carry.toNat := by
  induction places with
  | nil => simp [ripple, number]
  | cons place places ih =>
    obtain ⟨a, b⟩ := place
    -- What is true of one place is so for the power of two that it stands for.
    have hplace := congrArg (· * 2 ^ places.length)
      (fullAdder_exact a b (ripple fullAdder carry places).2)
    simp only [Nat.add_mul, Nat.mul_assoc] at hplace
    simp only [ripple, List.map_cons, number, length_ripple, List.length_map, List.length_cons,
      Nat.pow_succ']
    omega

/-- **To subtract is to add the complement**, place by place; a borrow is a carry
that is not there. -/
theorem ripple_fullSubtractor (carry : Bool) (places : List (Bool × Bool)) :
    ripple fullSubtractor (!carry) places =
      ((ripple fullAdder carry (places.map (Prod.map id (!·)))).1,
        !(ripple fullAdder carry (places.map (Prod.map id (!·)))).2) := by
  induction places with
  | nil => rfl
  | cons place places ih =>
    rw [ripple, ih, fullSubtractor_eq]
    rfl

/-! ### Bits and bytes -/

theorem toNat_takeIn (byte : Byte) (bit : Bool) :
    (takeIn byte bit).toNat = (2 * byte.toNat + bit.toNat) % 256 := by
  have h : ∀ (n : Fin 256) (bit : Bool),
      (takeIn (UInt8.ofNat n) bit).toNat = (2 * n.val + bit.toNat) % 256 := by decide +kernel
  simpa using h ⟨byte.toNat, byte.toNat_lt⟩ bit

/-- Bits are taken into a byte as they are into a number, and there is room for
eight. -/
theorem toNat_toByte (x : Bits) : x.toByte.toNat = number x.toList := by
  have hfold : ∀ (bits : List Bool) (byte : Byte), (bits.foldl takeIn byte).toNat =
      (byte.toNat * 2 ^ bits.length + number bits) % 256 := by
    intro bits
    induction bits with
    | nil =>
      intro byte
      simp [number, Nat.mod_eq_of_lt byte.toNat_lt]
    | cons bit bits ih =>
      intro byte
      rw [List.foldl_cons, ih, toNat_takeIn, number, List.length_cons, Nat.pow_succ']
      -- What has left the byte at the top would have left it in the end.
      rw [← Nat.mod_add_mod, Nat.mod_mul_mod, Nat.mod_add_mod]
      rw [Nat.add_mul, Nat.mul_comm 2, Nat.mul_assoc, Nat.add_assoc]
  have hlt := number_lt x.toList
  rw [x.length_eq] at hlt
  rw [toByte, hfold, UInt8.toNat_zero, Nat.zero_mul, Nat.zero_add]
  exact Nat.mod_eq_of_lt hlt

/-- A byte is the number that its bits spell out. -/
theorem number_ofByte (b : Byte) : number (ofByte b).toList = b.toNat := by
  have h : ∀ n : Fin 256, number (ofByte (UInt8.ofNat n)).toList = n.val := by decide +kernel
  simpa using h ⟨b.toNat, b.toNat_lt⟩

theorem ofByte_complement (b : Byte) : (ofByte (~~~b)).toList = (ofByte b).toList.map (!·) := by
  have h : ∀ n : Fin 256, (ofByte (~~~(UInt8.ofNat n))).toList =
      (ofByte (UInt8.ofNat n)).toList.map (!·) := by decide +kernel
  simpa using h ⟨b.toNat, b.toNat_lt⟩

/-- The sign bit decides on which side of the middle a number lies. -/
theorem isNegative_eq (x : Bits) : x.isNegative = decide (128 ≤ number x.toList) := by
  obtain ⟨bits, hlength⟩ := x
  obtain ⟨bit, bits, rfl⟩ := List.exists_cons_of_ne_nil (toList_ne_nil ⟨bits, hlength⟩)
  have hlt := number_lt bits
  have hseven : bits.length = 7 := Nat.succ.inj hlength
  rw [hseven] at hlt
  rw [number, hseven, isNegative, Bool.eq_iff_iff, decide_eq_true_iff]
  cases bit with
  | false =>
    simp only [List.head_cons, Bool.false_eq_true, false_iff, Bool.toNat_false]
    omega
  | true =>
    simp only [List.head_cons, true_iff, Bool.toNat_true]
    omega

theorem isNegative_ofByte (b : Byte) : (ofByte b).isNegative = b.isNegative := by
  rw [isNegative_eq, number_ofByte, Byte.isNegative]

theorem isNegative_toByte (x : Bits) : x.toByte.isNegative = x.isNegative := by
  rw [isNegative_eq, Byte.isNegative, toNat_toByte]

end Bits

/-! ### Sums and differences of bytes -/

namespace Byte

variable (a b : Byte) (carry : Bool)

theorem fst_places : (Bits.places (.ofByte a) (.ofByte b)).map Prod.fst = (Bits.ofByte a).toList :=
  List.map_fst_zip (by simp [Bits.length_eq])

theorem snd_places : (Bits.places (.ofByte a) (.ofByte b)).map Prod.snd = (Bits.ofByte b).toList :=
  List.map_snd_zip (by simp [Bits.length_eq])

theorem places_complement :
    Bits.places (.ofByte a) (.ofByte (~~~b)) =
      (Bits.places (.ofByte a) (.ofByte b)).map (Prod.map id (!·)) := by
  rw [Bits.places, Bits.ofByte_complement, List.zip_map_right, Bits.places]

/-- **The exact sum** is the value with the carry above it. -/
theorem value_add :
    (a.add b carry).value.toNat + 256 * (a.add b carry).carry.toNat =
      a.toNat + b.toNat + carry.toNat := by
  have h := Bits.number_ripple_fullAdder carry (Bits.places (.ofByte a) (.ofByte b))
  rw [fst_places, snd_places, Bits.length_places, Bits.number_ofByte, Bits.number_ofByte] at h
  rw [Nat.mul_comm, ← h]
  exact congrArg (· + _) (Bits.toNat_toByte _)

/-- **To subtract is to add the complement**, and a borrow is a carry that is not
there. -/
theorem subtract_eq : a.subtract b carry = a.add (~~~b) carry := by
  have hvalue : Bits.combine Bits.fullSubtractor (.ofByte a) (.ofByte b) (!carry) =
      Bits.combine Bits.fullAdder (.ofByte a) (.ofByte (~~~b)) carry := by
    simp only [Bits.combine, places_complement, Bits.ripple_fullSubtractor]
  have hcarry : (!Bits.handedOn Bits.fullSubtractor (.ofByte a) (.ofByte b) (!carry)) =
      Bits.handedOn Bits.fullAdder (.ofByte a) (.ofByte (~~~b)) carry := by
    rw [Bits.handedOn, Bits.handedOn, places_complement, Bits.ripple_fullSubtractor, Bool.not_not]
  have hsign : (Bits.ofByte (~~~b)).isNegative = !(Bits.ofByte b).isNegative := by
    have hcomplement := toNat_complement b
    rw [Bits.isNegative_ofByte, Bits.isNegative_ofByte, isNegative, isNegative, ← decide_not,
      decide_eq_decide]
    omega
  have hsigns : ∀ a b : Bool, (a != b) = (a == !b) := by decide
  rw [subtract, add, Bits.subtract, Bits.add, hvalue, hcarry, hsign, hsigns]

/-- **The exact difference** is the value with what was borrowed taken off. -/
theorem value_subtract :
    (a.subtract b carry).value.toNat + b.toNat + (!carry).toNat =
      a.toNat + 256 * (!(a.subtract b carry).carry).toNat := by
  have hsum := value_add a (~~~b) carry
  have hcomplement := toNat_complement b
  rw [subtract_eq, Bits.toNat_not, Bits.toNat_not]
  have hcarry := carry.toNat_le
  have hout := (a.add (~~~b) carry).carry.toNat_le
  omega

/-- An addition overflows if two numbers of one sign add up to one of the other. -/
theorem overflow_add_eq : (a.add b carry).overflow =
    (a.isNegative == b.isNegative && (a.add b carry).value.isNegative != a.isNegative) := by
  simp only [add, Bits.add, Bits.isNegative_toByte, Bits.isNegative_ofByte]

/-- An addition overflows exactly if its value is not the sum of the signed
numbers. -/
theorem overflow_add :
    (a.add b carry).overflow = true ↔
      (a.add b carry).value.signed ≠ a.signed + b.signed + carry.toNat := by
  have hvalue := value_add a b carry
  have ha := a.toNat_lt
  have hb := b.toNat_lt
  have hsum := (a.add b carry).value.toNat_lt
  have hcarry := carry.toNat_le
  have hout := (a.add b carry).carry.toNat_le
  simp only [overflow_add_eq, signed, isNegative, Bool.and_eq_true, beq_iff_eq, bne_iff_ne,
    decide_eq_decide, ne_eq, decide_eq_true_eq]
  split <;> split <;> split <;> omega

theorem signed_complement : (~~~b).signed = -1 - b.signed := by
  have hb := b.toNat_lt
  have hcomplement := toNat_complement b
  simp only [signed, isNegative, decide_eq_true_eq]
  split <;> split <;> omega

/-- A subtraction overflows exactly if its value is not the difference of the
signed numbers. -/
theorem overflow_subtract :
    (a.subtract b carry).overflow = true ↔
      (a.subtract b carry).value.signed ≠ a.signed - b.signed - (!carry).toNat := by
  have hborrow := Bits.toNat_not carry
  have hcarry := carry.toNat_le
  have hexact : a.signed - b.signed - (!carry).toNat =
      a.signed + (~~~b).signed + carry.toNat := by
    rw [signed_complement]
    omega
  rw [subtract_eq, overflow_add, hexact]

/-! ### Rotations of bytes -/

/-- A rotation up doubles a byte, the carry coming in as its last bit. -/
theorem value_rotate_up :
    (b.rotate .up carry).value.toNat + 256 * (b.rotate .up carry).ejected.toNat =
      2 * b.toNat + carry.toNat := by
  obtain ⟨bit, bits, hbits⟩ := List.exists_cons_of_ne_nil (Bits.ofByte b).toList_ne_nil
  have hlength : bits.length = 7 := by
    have h := (Bits.ofByte b).length_eq
    rw [hbits] at h
    exact Nat.succ.inj h
  have hrotated : (((bit :: bits).rotateLeft 1).set 7 carry) = bits ++ [carry] := by
    simp [List.rotateLeft, hlength]
  have hnumber := Bits.number_ofByte b
  rw [hbits, Bits.number, hlength] at hnumber
  simp only [rotate, Bits.rotate, Bits.toNat_toByte, hbits, hrotated, Bits.number_concat,
    List.head_cons]
  omega

/-- A rotation down halves a byte, the carry coming in above its first bit. -/
theorem value_rotate_down :
    2 * (b.rotate .down carry).value.toNat + (b.rotate .down carry).ejected.toNat =
      b.toNat + 256 * carry.toNat := by
  obtain ⟨bits, bit, hbits⟩ : ∃ bits bit, (Bits.ofByte b).toList = bits ++ [bit] :=
    ⟨_, _, (List.dropLast_concat_getLast (Bits.ofByte b).toList_ne_nil).symm⟩
  have hlength : bits.length = 7 := by
    have h := (Bits.ofByte b).length_eq
    rw [hbits, List.length_append] at h
    exact Nat.succ.inj h
  have hrotated : (((bits ++ [bit]).rotateRight 1).set 0 carry) = carry :: bits := by
    simp [List.rotateRight, hlength]
  have hnumber := Bits.number_ofByte b
  rw [hbits, Bits.number_concat] at hnumber
  simp only [rotate, Bits.rotate, Bits.toNat_toByte, hbits, hrotated, Bits.number, hlength,
    List.getLast_concat]
  omega

end Byte

end EightBit
