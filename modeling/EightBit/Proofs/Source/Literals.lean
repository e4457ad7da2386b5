import EightBit.Assembly.Literal
import EightBit.Proofs.Source.Words
import Mathlib.Algebra.Group.Nat.Defs

/-!
# Literals that were written down

Bytes and words are written in hexadecimal and distances in decimal. This file reads
both back: what `EightBit.Numeral.hexByte`, `EightBit.Numeral.hexWord` and
`EightBit.Numeral.decimal` write is a literal of the same value *and of the same
width* (`EightBit.Literal.ofText?_hexByte`, `EightBit.Literal.ofText?_hexWord`,
`EightBit.Literal.ofText?_decimal`). The width matters: it tells a branch from a jump.

None of this depends on which marks the punctuation chooses, as long as no mark can
be mistaken for another one or for a part of a number
(`EightBit.Punctuation.Clear`).
-/

namespace EightBit

/-! ### Punctuation that cannot be mistaken -/

/-- The four characters of a punctuation. -/
def Punctuation.marks (p : Punctuation) : List Char :=
  [p.comment, p.immediate, p.binary, p.hex]

namespace Punctuation

variable (p : Punctuation)

theorem comment_mem_marks : p.comment ∈ p.marks := by simp [marks]

theorem immediate_mem_marks : p.immediate ∈ p.marks := by simp [marks]

theorem binary_mem_marks : p.binary ∈ p.marks := by simp [marks]

theorem hex_mem_marks : p.hex ∈ p.marks := by simp [marks]

end Punctuation

/-- **Clear punctuation**: no two marks are the same, none of them can be taken for
a separator, a quote, a parenthesis, a sign or a digit, and the mark of a comment is
not a letter either. -/
structure Punctuation.Clear (p : Punctuation) : Prop where
  nodup : p.marks.Nodup
  isPlain : ∀ c ∈ p.marks, isPlain c
  not_bracket_or_sign : ∀ c ∈ p.marks, c ∉ ['(', ')', '+', '-']
  not_digit : ∀ c ∈ p.marks, c.isDigit = false
  comment_not_letter : p.comment.isAlpha = false

theorem Punctuation.clear_standard : standard.Clear where
  nodup := by decide
  isPlain := forall_mem_of_all (by decide)
  not_bracket_or_sign := forall_mem_of_all (by decide)
  not_digit := forall_mem_of_all (by decide)
  comment_not_letter := by decide

/-! ### Digits -/

namespace Numeral

@[simp] theorem length_fixed (base width n : Nat) : (fixed base width n).length = width := by
  induction width generalizing n with
  | zero => rfl
  | succ width ih => simp [fixed, ih]

theorem fixed_ne_nil {base width n : Nat} (hwidth : 0 < width) : fixed base width n ≠ [] :=
  List.ne_nil_of_length_pos (by rwa [length_fixed])

/-- A digit is a letter or a decimal digit. -/
theorem isAlphanum_digit {d : Nat} (h : d < 16) : (digit d).isAlphanum := by
  have hall : ∀ d : Fin 16, (digit d).isAlphanum := by decide
  exact hall ⟨d, h⟩

theorem isAlphanum_of_mem_fixed {base width n : Nat} (hpos : 0 < base) (hbase : base ≤ 16)
    {c : Char} (h : c ∈ fixed base width n) : c.isAlphanum := by
  induction width generalizing n with
  | zero => exact nomatch h
  | succ width ih =>
    rcases List.mem_append.1 h with h | h
    · exact ih h
    · obtain rfl := List.mem_singleton.1 h
      exact isAlphanum_digit (Nat.lt_of_lt_of_le (Nat.mod_lt n hpos) hbase)

/-- A number is read digit by digit as soon as there is a digit. -/
theorem natural?_eq {text : Text} (h : text ≠ []) (base : Nat) :
    natural? base text = naturalFrom? base 0 text := by
  cases text with
  | nil => exact absurd rfl h
  | cons c text => rfl

/-- What is written is read back, as far as the digits go. -/
theorem naturalFrom?_fixed {base : Nat} (hpos : 0 < base) (hbase : base ≤ 16)
    (value width n : Nat) :
    naturalFrom? base value (fixed base width n) =
      some (base ^ width * value + n % base ^ width) := by
  induction width generalizing n with
  | zero => simp [fixed, naturalFrom?, Nat.mod_one]
  | succ width ih =>
    -- The last digit is the remainder, and those before it are the quotient's.
    rw [fixed, naturalFrom?_append, ih, Option.bind_some, naturalFrom?,
      digitValue?_digit (Nat.mod_lt n hpos) hbase]
    simp only [naturalFrom?, Option.bind_eq_bind, Option.bind_some, Option.some.injEq]
    rw [Nat.pow_succ', Nat.mod_mul, Nat.mul_add, Nat.mul_assoc]
    omega

/-- **Fixed-width digits are read back.** -/
theorem natural?_fixed {base width n : Nat} (hpos : 0 < base) (hbase : base ≤ 16)
    (hwidth : 0 < width) (hn : n < base ^ width) : natural? base (fixed base width n) = some n := by
  rw [natural?_eq (fixed_ne_nil hwidth), naturalFrom?_fixed hpos hbase, Nat.mul_zero, Nat.zero_add,
    Nat.mod_eq_of_lt hn]

/-- **Decimal digits are read back.** The library writes them by taking off the last
digit, so the induction goes along the quotients. -/
theorem naturalFrom?_toDigits (n : Nat) : naturalFrom? 10 0 (Nat.toDigits 10 n) = some n := by
  have hdigit : ∀ d : Fin 10, digitValue? 10 (Nat.digitChar d) = some d.val := by decide
  induction n using Nat.strongRecOn with
  | ind n ih =>
    rcases Nat.lt_or_ge n 10 with hn | hn
    · rw [Nat.toDigits_of_lt_base hn, naturalFrom?, hdigit ⟨n, hn⟩]
      simp [naturalFrom?]
    · rw [Nat.toDigits_of_base_le (by decide) hn, naturalFrom?_append, ih (n / 10) (by omega),
        Option.bind_some, naturalFrom?, hdigit ⟨n % 10, Nat.mod_lt n (by decide)⟩]
      simp only [naturalFrom?, Option.bind_eq_bind, Option.bind_some, Option.some.injEq]
      omega

theorem natural?_toDigits (n : Nat) : natural? 10 (Nat.toDigits 10 n) = some n := by
  rw [natural?_eq Nat.toDigits_ne_nil, naturalFrom?_toDigits]

/-- Decimal digits start with a digit. -/
theorem toDigits_eq_cons (n : Nat) :
    ∃ c rest, Nat.toDigits 10 n = c :: rest ∧ c.isDigit = true := by
  obtain ⟨c, rest, h⟩ := List.exists_cons_of_ne_nil (Nat.toDigits_ne_nil (n := n) (b := 10))
  exact ⟨c, rest, h, Nat.isDigit_of_mem_toDigits (by decide) (by decide) (h ▸ List.mem_cons_self)⟩

/-- A sign is no digit. -/
theorem integer?_toDigits (n : Nat) : integer? (Nat.toDigits 10 n) = some (n : Int) := by
  have hread := natural?_toDigits n
  obtain ⟨c, rest, h, hc⟩ := toDigits_eq_cons n
  rw [h] at hread ⊢
  -- The two cases for signs come first, and a digit is neither.
  rw [integer?, hread]
  · rfl
  · rintro digits hcons
    obtain ⟨rfl, -⟩ := List.cons.inj hcons
    exact absurd hc (by decide)
  · rintro digits hcons
    obtain ⟨rfl, -⟩ := List.cons.inj hcons
    exact absurd hc (by decide)

/-- **What is written in decimal is read back.** -/
theorem integer?_decimal (i : Int) : integer? (decimal i) = some i := by
  rw [decimal]
  split
  · simp only [integer?, natural?_toDigits, Option.bind_eq_bind, Option.bind_some]
    refine congrArg some ?_
    change -(i.natAbs : Int) = i
    omega
  · rw [integer?_toDigits]
    exact congrArg some (by omega)

/-- A decimal number is made of digits and the minus sign, which comes first. -/
theorem decimal_eq_cons (i : Int) :
    ∃ c rest, decimal i = c :: rest ∧ (c = '-' ∨ c.isDigit = true) ∧ ∀ d ∈ rest, d.isDigit := by
  have hdigits : ∀ d ∈ Nat.toDigits 10 i.natAbs, d.isDigit := fun d hd =>
    Nat.isDigit_of_mem_toDigits (by decide) (by decide) hd
  rw [decimal]
  split
  · exact ⟨'-', _, rfl, Or.inl rfl, hdigits⟩
  · obtain ⟨c, rest, h, hc⟩ := toDigits_eq_cons i.natAbs
    exact ⟨c, rest, h, Or.inr hc, fun d hd => hdigits d (h ▸ List.mem_cons_of_mem c hd)⟩

end Numeral

/-! ### Taking a mark off -/

@[simp] theorem after?_cons_self (c : Char) (rest : Text) : after? c (c :: rest) = some rest :=
  if_pos rfl

theorem after?_cons_of_ne {c d : Char} (h : d ≠ c) (rest : Text) : after? c (d :: rest) = none :=
  if_neg h

/-- What follows a first character, together with it, is the text. -/
theorem after?_eq_some_iff {c : Char} {text rest : Text} :
    after? c text = some rest ↔ text = c :: rest := by
  cases text with
  | nil => simp [after?]
  | cons d text =>
    by_cases h : d = c
    · simp [h]
    · simp [after?_cons_of_ne h, h]

/-- What comes before a last character, together with it, is the text. -/
theorem before?_eq_some_iff {c : Char} {text front : Text} :
    before? c text = some front ↔ text = front ++ [c] := by
  rw [before?]
  split
  · rename_i h
    obtain ⟨front', rfl⟩ := List.getLast?_eq_some_iff.1 h
    simp
  · rename_i h
    constructor
    · exact fun hnone => absurd hnone (by simp)
    · rintro rfl
      exact absurd List.getLast?_concat h

/-! ### Literals -/

/-- A byte is found again from its signed reading. -/
theorem Byte.ofInt_signed (b : Byte) : UInt8.ofInt b.signed = b := by
  have hall : ∀ n : Fin 256, UInt8.ofInt (Byte.signed (UInt8.ofNat n)) = UInt8.ofNat n := by
    decide +kernel
  simpa using hall ⟨b.toNat, b.toNat_lt⟩

theorem Byte.signed_bounds (b : Byte) : -128 ≤ b.signed ∧ b.signed < 128 := by
  have hb := b.toNat_lt
  simp only [signed, isNegative, decide_eq_true_eq]
  split <;> omega

namespace Literal

theorem ofDigits?_hexByte (b : Byte) : ofDigits? 16 2 (Numeral.hexByte b) = some (.byte b) := by
  have hread : Numeral.natural? 16 (Numeral.hexByte b) = some b.toNat :=
    Numeral.natural?_fixed (by decide) (by decide) (by decide) b.toNat_lt
  have hlength : (Numeral.hexByte b).length = 2 := Numeral.length_fixed 16 2 b.toNat
  rw [ofDigits?, hread, hlength]
  simp

theorem ofDigits?_hexWord (w : Word) : ofDigits? 16 2 (Numeral.hexWord w) = some (.word w) := by
  have hread : Numeral.natural? 16 (Numeral.hexWord w) = some w.toNat :=
    Numeral.natural?_fixed (by decide) (by decide) (by decide) w.toNat_lt
  have hlength : (Numeral.hexWord w).length = 4 := Numeral.length_fixed 16 4 w.toNat
  rw [ofDigits?, hread, hlength]
  simp

variable {p : Punctuation}

/-- What follows the mark for hexadecimal digits is read as such. -/
theorem ofText?_hex (hp : p.Clear) (digits : Text) :
    ofText? p (p.hex :: digits) = ofDigits? 16 2 digits := by
  have hne : p.hex ≠ p.binary := by
    have := hp.nodup
    simp only [Punctuation.marks, List.nodup_cons, List.mem_singleton] at this
    exact fun h => this.2.2.1 h.symm
  rw [ofText?, after?_cons_of_ne hne, after?_cons_self]

/-- **A byte written in hexadecimal is a byte again.** -/
theorem ofText?_hexByte (hp : p.Clear) (b : Byte) :
    ofText? p (p.hex :: Numeral.hexByte b) = some (.byte b) := by
  rw [ofText?_hex hp, ofDigits?_hexByte]

/-- **A word written in hexadecimal is a word again**, however small. -/
theorem ofText?_hexWord (hp : p.Clear) (w : Word) :
    ofText? p (p.hex :: Numeral.hexWord w) = some (.word w) := by
  rw [ofText?_hex hp, ofDigits?_hexWord]

/-- A mark is neither the minus sign nor a digit. -/
theorem ne_mark (hp : p.Clear) {c d : Char} (hc : c = '-' ∨ c.isDigit = true)
    (hd : d ∈ p.marks) : c ≠ d := by
  rintro rfl
  rcases hc with rfl | hc
  · exact hp.not_bracket_or_sign _ hd (by decide)
  · exact absurd (hp.not_digit c hd) (by simp [hc])

/-- **A byte written in decimal is a byte again**, negative or not. -/
theorem ofText?_decimal (hp : p.Clear) (b : Byte) :
    ofText? p (Numeral.decimal b.signed) = some (.byte b) := by
  obtain ⟨hlow, hhigh⟩ := b.signed_bounds
  have hread : decimal? (Numeral.decimal b.signed) = some b.signed := by
    rw [decimal?, Numeral.integer?_decimal, Option.filter_some, if_pos]
    simp only [decide_eq_true_eq]
    omega
  obtain ⟨c, rest, h, hc, -⟩ := Numeral.decimal_eq_cons b.signed
  rw [h] at hread ⊢
  rw [ofText?, after?_cons_of_ne (ne_mark hp hc p.binary_mem_marks),
    after?_cons_of_ne (ne_mark hp hc p.hex_mem_marks), hread]
  simp only [ofInt?]
  rw [if_pos (by omega), Byte.ofInt_signed]

end Literal

end EightBit
