import EightBit.Byte

/-!
# Writing and reading numbers

Numbers are written with a fixed count of digits where they stand for bytes and
words, and with as many as they need where they stand for sizes. Reading is the
same for every base: `EightBit.Numeral.natural?` takes one or more digits of the
base, in either case, and nothing else, and puts no bound on the value – whoever
reads a number says what is too large.

Text is a list of characters throughout, so that every reader is a recursion on
the text that it reads.
-/

namespace EightBit

/-- **Text**: characters in reading order. -/
abbrev Text := List Char

namespace Numeral

/-! ### Writing -/

/-- The digit for a number below sixteen, in upper case. -/
def digit (d : Nat) : Char :=
  if d < 10 then Char.ofNat (48 + d) else Char.ofNat (55 + d)

/-- The last `width` digits of a number in the given base. -/
def fixed (base : Nat) : (width : Nat) → (n : Nat) → Text
  | 0, _ => []
  | width + 1, n => fixed base width (n / base) ++ [digit (n % base)]

/-- A byte in two hexadecimal digits. -/
def hexByte (b : Byte) : Text :=
  fixed 16 2 b.toNat

/-- A word in four hexadecimal digits. -/
def hexWord (w : Word) : Text :=
  fixed 16 4 w.toNat

/-- A number in hexadecimal, with four digits or as many more as it needs. -/
def hexAddress (n : Nat) : Text :=
  fixed 16 (max 4 (n.log2 / 4 + 1)) n

/-- An integer in decimal, with a sign only if it is negative. -/
def decimal (i : Int) : Text :=
  if i < 0 then '-' :: Nat.toDigits 10 i.natAbs else Nat.toDigits 10 i.natAbs

/-! ### Reading -/

/-- The value of a digit, if the character is a digit of the base. -/
def digitValue? (base : Nat) (c : Char) : Option Nat :=
  let value :=
    if c.isDigit then c.toNat - 48
    else if 'a' ≤ c ∧ c ≤ 'f' then c.toNat - 87
    else if 'A' ≤ c ∧ c ≤ 'F' then c.toNat - 55
    else base
  if value < base then some value else none

/-- The number that a run of digits stands for, carried on from the value of the
digits before it. -/
def naturalFrom? (base : Nat) : (value : Nat) → Text → Option Nat
  | value, [] => some value
  | value, c :: cs => do naturalFrom? base (base * value + (← digitValue? base c)) cs

/-- **Reading a number**: one or more digits of the base. -/
def natural? (base : Nat) : Text → Option Nat
  | [] => none
  | c :: cs => naturalFrom? base 0 (c :: cs)

/-- A decimal number with at most one sign in front. -/
def integer? : Text → Option Int
  | '-' :: digits => (natural? 10 digits).map fun n => -(n : Int)
  | '+' :: digits => (natural? 10 digits).map Int.ofNat
  | digits => (natural? 10 digits).map Int.ofNat

/-! ### Reading back what was written -/

/-- A digit has the value that it was written for. -/
theorem digitValue?_digit {base d : Nat} (hd : d < base) (hbase : base ≤ 16) :
    digitValue? base (digit d) = some d := by
  have h : ∀ d : Fin 16, ∀ base : Fin 17, d.val < base.val →
      digitValue? base (digit d) = some d.val := by decide +kernel
  exact h ⟨d, by omega⟩ ⟨base, by omega⟩ hd

/-- Digits are read from the left. -/
theorem naturalFrom?_append (base value : Nat) (front back : Text) :
    naturalFrom? base value (front ++ back) =
      (naturalFrom? base value front).bind fun v => naturalFrom? base v back := by
  induction front generalizing value with
  | nil => rfl
  | cons c rest ih =>
    rw [List.cons_append, naturalFrom?, naturalFrom?]
    cases digitValue? base c with
    | none => rfl
    | some d => exact ih _

end Numeral

end EightBit
