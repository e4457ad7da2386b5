import EightBit.Byte

/-!
# The flags

The status register is eight named bits. Four of them report on results: the
carry, whether a result was zero, whether it was negative, and signed overflow.
The other four are reserved: two of them are set when the machine starts and no
arithmetic touches them.

The register can be pushed, popped and overridden as one byte
(`EightBit.Flags.toByte`, `EightBit.Flags.ofByte`), so these two are inverse to
each other (`EightBit.Flags.ofByte_toByte`, `EightBit.Flags.toByte_ofByte`).
-/

namespace EightBit

/-- The bits of the status register; a reserved one is named by its weight. -/
inductive Flag where
  /-- An addition carried out of the top bit, or a subtraction did not borrow. -/
  | carry
  /-- The last result was zero. -/
  | zero
  /-- Reserved, and set when the machine starts. -/
  | reserved4
  /-- Reserved. -/
  | reserved8
  /-- Reserved. -/
  | reserved16
  /-- Reserved, and set when the machine starts. -/
  | reserved32
  /-- The last signed operation overflowed. -/
  | overflow
  /-- The last result had its sign bit set. -/
  | negative
deriving DecidableEq, Repr

namespace Flag

/-- The flags from the least significant bit upwards. -/
def all : List Flag :=
  [carry, zero, reserved4, reserved8, reserved16, reserved32, overflow, negative]

/-- The place of a flag in the status byte. -/
def place : Flag → Fin 8
  | carry => 0
  | zero => 1
  | reserved4 => 2
  | reserved8 => 3
  | reserved16 => 4
  | reserved32 => 5
  | overflow => 6
  | negative => 7

/-- The character that shows a flag: a letter in upper case when it is set, and a
binary digit for a reserved one. -/
def mark : Flag → (value : Bool) → Char
  | carry, value => if value then 'C' else 'c'
  | zero, value => if value then 'Z' else 'z'
  | overflow, value => if value then 'V' else 'v'
  | negative, value => if value then 'N' else 'n'
  | _, value => if value then '1' else '0'

end Flag

/-- **The status register.** As they stand, the fields have their values at the
start of the machine. -/
structure Flags where
  carry : Bool := false
  zero : Bool := false
  reserved4 : Bool := true
  reserved8 : Bool := false
  reserved16 : Bool := false
  reserved32 : Bool := true
  overflow : Bool := false
  negative : Bool := false
deriving DecidableEq, Repr

namespace Flags

/-- The flags of a machine that has just been reset. -/
def initial : Flags := {}

/-- The value of a flag. -/
def get (p : Flags) : Flag → Bool
  | .carry => p.carry
  | .zero => p.zero
  | .reserved4 => p.reserved4
  | .reserved8 => p.reserved8
  | .reserved16 => p.reserved16
  | .reserved32 => p.reserved32
  | .overflow => p.overflow
  | .negative => p.negative

/-- The flags with one of them replaced. -/
def set (p : Flags) (flag : Flag) (value : Bool) : Flags :=
  match flag with
  | .carry => { p with carry := value }
  | .zero => { p with zero := value }
  | .reserved4 => { p with reserved4 := value }
  | .reserved8 => { p with reserved8 := value }
  | .reserved16 => { p with reserved16 := value }
  | .reserved32 => { p with reserved32 := value }
  | .overflow => { p with overflow := value }
  | .negative => { p with negative := value }

/-- The flags with the sign and the nullity of a result in them. -/
def withResult (p : Flags) (result : Byte) : Flags :=
  { p with negative := result.isNegative, zero := result.isZero }

/-! ### The status byte -/

/-- The flags as one byte. -/
def toByte (p : Flags) : Byte :=
  UInt8.ofNat (p.carry.toNat + 2 * p.zero.toNat + 4 * p.reserved4.toNat + 8 * p.reserved8.toNat +
    16 * p.reserved16.toNat + 32 * p.reserved32.toNat + 64 * p.overflow.toNat +
    128 * p.negative.toNat)

/-- The flags that a byte spells out. -/
def ofByte (b : Byte) : Flags where
  carry := b.bit Flag.carry.place
  zero := b.bit Flag.zero.place
  reserved4 := b.bit Flag.reserved4.place
  reserved8 := b.bit Flag.reserved8.place
  reserved16 := b.bit Flag.reserved16.place
  reserved32 := b.bit Flag.reserved32.place
  overflow := b.bit Flag.overflow.place
  negative := b.bit Flag.negative.place

/-- The flags from the most significant bit down, one character each. -/
def marks (p : Flags) : List Char :=
  Flag.all.reverse.map fun flag => flag.mark (p.get flag)

@[simp] theorem get_set_self (p : Flags) (flag : Flag) (value : Bool) :
    (p.set flag value).get flag = value := by
  cases flag <;> rfl

/-- Setting one flag leaves the others alone. -/
theorem get_set_of_ne (p : Flags) {flag other : Flag} (value : Bool) (h : other ≠ flag) :
    (p.set flag value).get other = p.get other := by
  cases flag <;> cases other <;> simp_all [get, set]

@[simp] theorem ofByte_toByte (p : Flags) : ofByte p.toByte = p := by
  obtain ⟨c, z, r4, r8, r16, r32, v, n⟩ := p
  revert c z r4 r8 r16 r32 v n
  decide

@[simp] theorem toByte_ofByte (b : Byte) : (ofByte b).toByte = b := by
  have h : ∀ n : Fin 256, (ofByte (UInt8.ofNat n)).toByte = UInt8.ofNat n := by decide +kernel
  simpa using h ⟨b.toNat, b.toNat_lt⟩

end Flags

end EightBit
