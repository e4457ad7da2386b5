import EightBit.Proofs.Listing.Spelling
import Mathlib.Data.Nat.Digits.Lemmas

/-!
# Decimal operands

A number in decimal may be written with any number of digits and with a sign or without
(`EightBit.Numeral.Decimal`). This file says what an operand makes of it, wherever an operand
holds a literal: after the mark of an immediate operand, in parentheses, on its own, or in front
of an index register (`EightBit.LiteralPlace`).

Reading the digits loses nothing (`EightBit.Numeral.integer?_of_decimal`), so all depends on the
number. One that fits in a byte, signed or not, is a byte; one that needs a word is a word; and
the line is refused for any other. But that is so for numbers of thirty-two bits only. A number
that needs more is not taken for a number at all, and comes down to the code of its sign or of
its first digit (`EightBit.Literal.ofText?_of_decimal`, `EightBit.assembleLine_decimal`).
-/

namespace EightBit

/-! ### Decimal notation -/

namespace Numeral

/-- **The number that decimal digits spell out**, the most significant one first. -/
def ofDigits (digits : Text) : Nat :=
  Nat.ofDigits 10 (digits.reverse.map fun c => c.toNat - 48)

/-- **Decimal notation** of an integer: one or more digits, with a sign in front or without. -/
inductive Decimal : Text → Int → Prop
  | unsigned {digits : Text} : digits ≠ [] → (∀ c ∈ digits, c.isDigit = true) →
    Decimal digits (ofDigits digits)
  | plus {digits : Text} : digits ≠ [] → (∀ c ∈ digits, c.isDigit = true) →
    Decimal ('+' :: digits) (ofDigits digits)
  | minus {digits : Text} : digits ≠ [] → (∀ c ∈ digits, c.isDigit = true) →
    Decimal ('-' :: digits) (-(ofDigits digits : Int))

/-- The value of a digit is how far its code is from that of zero. -/
theorem digitValue?_of_isDigit {c : Char} (h : c.isDigit = true) :
    digitValue? 10 c = some (c.toNat - 48) := by
  have hlt : c.toNat ≤ 57 := (Char.isDigit_iff_toNat.1 h).2
  rw [digitValue?, if_pos h, if_pos (by omega)]

/-- **Digits are read by their places**, after the value of those before them. -/
theorem naturalFrom?_of_isDigit {digits : Text} (h : ∀ c ∈ digits, c.isDigit = true)
    (value : Nat) :
    naturalFrom? 10 value digits = some (10 ^ digits.length * value + ofDigits digits) := by
  induction digits generalizing value with
  | nil => simp [naturalFrom?, ofDigits]
  | cons c digits ih =>
    obtain ⟨hc, hdigits⟩ := List.forall_mem_cons.1 h
    -- The first digit counts for as many powers of ten as there are digits after it.
    have hfirst : ofDigits (c :: digits) =
        ofDigits digits + 10 ^ digits.length * (c.toNat - 48) := by
      rw [ofDigits, List.reverse_cons, List.map_append, Nat.ofDigits_append, List.length_map,
        List.length_reverse, List.map_singleton, Nat.ofDigits_singleton]
      rfl
    rw [naturalFrom?, digitValue?_of_isDigit hc, Option.bind_eq_bind, Option.bind_some,
      ih hdigits, hfirst, List.length_cons, Nat.pow_succ, Nat.mul_add, Nat.mul_assoc]
    exact congrArg some (by omega)

theorem natural?_of_isDigit {digits : Text} (hne : digits ≠ [])
    (h : ∀ c ∈ digits, c.isDigit = true) : natural? 10 digits = some (ofDigits digits) := by
  rw [natural?_eq hne, naturalFrom?_of_isDigit h, Nat.mul_zero, Nat.zero_add]

/-- A number in decimal starts with a sign or a digit. -/
theorem Decimal.eq_cons {text : Text} {i : Int} (h : Decimal text i) :
    ∃ c rest, text = c :: rest ∧ (c = '+' ∨ c = '-' ∨ c.isDigit = true) := by
  cases h with
  | unsigned hne hdigits =>
    obtain ⟨c, rest, rfl⟩ := List.exists_cons_of_ne_nil hne
    exact ⟨c, rest, rfl, Or.inr (Or.inr (hdigits c List.mem_cons_self))⟩
  | plus => exact ⟨'+', _, rfl, Or.inl rfl⟩
  | minus => exact ⟨'-', _, rfl, Or.inr (Or.inl rfl)⟩

/-- **Decimal notation is read as the integer that it stands for**, with leading zeros and with
any sign. -/
theorem integer?_of_decimal {text : Text} {i : Int} (h : Decimal text i) :
    integer? text = some i := by
  cases h with
  | unsigned hne hdigits =>
    have hread := natural?_of_isDigit hne hdigits
    obtain ⟨c, rest, rfl⟩ := List.exists_cons_of_ne_nil hne
    have hc : c.isDigit = true := hdigits c List.mem_cons_self
    -- A digit is no sign.
    rw [integer?, hread]
    · rfl
    · rintro digits hcons
      obtain ⟨rfl, -⟩ := List.cons.inj hcons
      exact absurd hc (by decide)
    · rintro digits hcons
      obtain ⟨rfl, -⟩ := List.cons.inj hcons
      exact absurd hc (by decide)
  | plus hne hdigits =>
    rw [integer?, natural?_of_isDigit hne hdigits]
    rfl
  | minus hne hdigits =>
    rw [integer?, natural?_of_isDigit hne hdigits]
    rfl

end Numeral

/-! ### Literals in decimal -/

/-- **A number of thirty-two bits**, with a sign. -/
def IsSigned32 (i : Int) : Prop :=
  -0x80000000 ≤ i ∧ i < 0x80000000

instance (i : Int) : Decidable (IsSigned32 i) :=
  inferInstanceAs (Decidable (_ ∧ _))

namespace Literal

variable {p : Punctuation} {text : Text} {i : Int}

/-- A mark is neither a sign nor a digit. -/
theorem ne_mark_of_sign_or_digit (hp : p.Clear) {c d : Char}
    (hc : c = '+' ∨ c = '-' ∨ c.isDigit = true) (hd : d ∈ p.marks) : c ≠ d := by
  rcases hc with rfl | hc
  · rintro rfl
    exact hp.not_bracket_or_sign _ hd (by decide)
  · exact ne_mark hp hc hd

/-- Signs and digits come before all letters, and none of them is a quote. -/
theorem toNat_le_of_sign_or_digit {c : Char} (hc : c = '+' ∨ c = '-' ∨ c.isDigit = true) :
    c.toNat ≤ 57 ∧ c ≠ quoteMark := by
  rcases hc with rfl | rfl | hc
  · decide
  · decide
  · refine ⟨(Char.isDigit_iff_toNat.1 hc).2, ?_⟩
    rintro rfl
    exact absurd hc (by decide)

/-- Taking quotes off leaves the first character alone, if it is none itself. -/
theorem ofCharacter?_unquote {c : Char} (hc : c.toNat < 128) (hquote : c ≠ quoteMark)
    (rest : Text) : ofCharacter? (unquote (c :: rest)) = some (.byte (UInt8.ofNat c.toNat)) := by
  rw [unquote, after?_cons_of_ne hquote, Option.getD_none]
  cases hback : before? quoteMark (c :: rest) with
  | none => exact if_pos hc
  | some front =>
    rw [before?_eq_some_iff] at hback
    cases front with
    | nil => exact absurd (List.cons.inj hback).1 hquote
    | cons d front =>
      obtain ⟨rfl, -⟩ := List.cons.inj hback
      exact if_pos hc

/-- Decimal notation is read as a number if this has thirty-two bits at most. -/
theorem decimal?_of_decimal (h : Numeral.Decimal text i) :
    decimal? text = if IsSigned32 i then some i else none := by
  rw [decimal?, Numeral.integer?_of_decimal h, Option.filter_some]
  by_cases hbits : IsSigned32 i
  · rw [if_pos hbits]
    exact if_pos (decide_eq_true hbits)
  · rw [if_neg hbits]
    exact if_neg fun hin => hbits (of_decide_eq_true hin)

/-- **The literal that decimal notation stands for** goes by the number, if it has thirty-two
bits at most, and by the first character otherwise. -/
theorem ofText?_of_decimal (hp : p.Clear) (h : Numeral.Decimal text i) :
    (IsSigned32 i → ofText? p text = ofInt? i) ∧
      (¬IsSigned32 i → ∃ c ∈ text.head?, ofText? p text = some (.byte (UInt8.ofNat c.toNat))) := by
  have hread := decimal?_of_decimal h
  obtain ⟨c, rest, rfl, hc⟩ := h.eq_cons
  have hmarks : ∀ {d}, d ∈ p.marks → after? d (c :: rest) = none := fun hd =>
    after?_cons_of_ne (ne_mark_of_sign_or_digit hp hc hd) rest
  rw [ofText?, hmarks p.binary_mem_marks, hmarks p.hex_mem_marks, hread]
  constructor
  · intro hbits
    rw [if_pos hbits]
  · intro hbits
    obtain ⟨hle, hquote⟩ := toNat_le_of_sign_or_digit hc
    rw [if_neg hbits]
    exact ⟨c, rfl, ofCharacter?_unquote (by omega) hquote rest⟩

/-- A number that fits in a byte, with a sign or without, is a byte. -/
theorem ofInt?_of_byte (hlow : -128 ≤ i) (hhigh : i ≤ 255) :
    ∃ b : Byte, (b.toNat : Int) = i % 256 ∧ ofInt? i = some (.byte b) :=
  ⟨UInt8.ofInt i, Byte.toNat_ofInt i, if_pos ⟨hlow, by omega⟩⟩

/-- A number that needs a word is a word. -/
theorem ofInt?_of_word (hlow : 256 ≤ i) (hhigh : i ≤ 65535) :
    ∃ w : Word, (w.toNat : Int) = i ∧ ofInt? i = some (.word w) := by
  refine ⟨UInt16.ofInt i, ?_, ?_⟩
  · rw [Word.toNat_ofInt]
    omega
  · rw [ofInt?, if_neg (by omega), if_pos (by omega)]

/-- Any other number is no literal. -/
theorem ofInt?_of_outside (h : i < -128 ∨ 65535 < i) : ofInt? i = none := by
  rw [ofInt?, if_neg (by omega), if_neg (by omega)]

end Literal

/-! ### Where a literal is read -/

/-- **The place of a literal** among the operands of a line. -/
inductive LiteralPlace where
  /-- After the mark of an immediate operand. -/
  | marked
  /-- In parentheses. -/
  | parenthesized
  /-- On its own. -/
  | bare
  /-- In front of an index register, which is named by the second operand and gives the mode. -/
  | indexed (second : Text) (mode : Mode)
    (h : (Register.ofText? second).bind Register.indexMode? = some mode)

namespace LiteralPlace

/-- The operands of a line with a literal in a place. -/
def operands (place : LiteralPlace) (p : Punctuation) (text : Text) : List Text :=
  match place with
  | marked => [p.immediate :: text]
  | parenthesized => ['(' :: text ++ [')']]
  | bare => [text]
  | indexed second _ _ => [text, second]

/-- **What the operands of a mnemonic come down to**, from the literal that has been read. Only
an immediate operand has to be a byte. -/
def take (place : LiteralPlace) (p : Punctuation) (mnemonic : Mnemonic) (text : Text)
    (l : Literal) : Except Problem Operands :=
  match place with
  | marked =>
    match l with
    | .byte b => .ok ⟨.immediate, b, 0⟩
    | .word _ => .error (.operandTooWide (p.immediate :: text))
  | parenthesized => .ok (Operands.ofAddress .absoluteIndirect l.value)
  | bare =>
    match l with
    | .byte b =>
      if mnemonic.hasMode .relative then .ok ⟨.relative, b, 0⟩ else .ok ⟨.absolute, 0, b⟩
    | .word address => .ok (Operands.ofAddress .absolute address)
  | indexed _ mode _ => .ok ⟨mode, l.value.low, l.value.high⟩

/-- **Operands with a literal in a place** come down to what is made of the literal. -/
theorem resolve_operands (place : LiteralPlace) {p : Punctuation} (mnemonic : Mnemonic)
    {text : Text} (hmarked : p.immediate ≠ '(') (hbare : ¬Parenthesized text)
    (hunmarked : after? p.immediate text = none) (hregister : Register.ofText? text = none) :
    Operands.resolve p mnemonic (place.operands p text) =
      Operands.literal p text >>= place.take p mnemonic text := by
  cases place with
  | marked =>
    have hmark := parenthesized?_eq_none_iff.2 (not_parenthesized_cons hmarked text)
    rw [operands, Operands.resolve, Operands.ofOne, hmark, after?_cons_self]
    rfl
  | parenthesized =>
    rw [operands, Operands.resolve, Operands.ofOne, parenthesized?_eq_some_iff.2 rfl]
    rfl
  | bare =>
    rw [operands, Operands.resolve, Operands.ofOne, parenthesized?_eq_none_iff.2 hbare, hunmarked]
    rfl
  | indexed second mode h =>
    obtain ⟨target, htarget, hmode⟩ := Option.bind_eq_some_iff.1 h
    rw [operands, Operands.resolve, Operands.ofTwo_eq_indexed htarget hmode (Or.inl hregister)]
    rfl

end LiteralPlace

/-! ### Lines with a decimal operand -/

/-- A number in decimal names no register. -/
theorem Numeral.Decimal.ofText?_eq_none {text : Text} {i : Int} (h : Decimal text i) :
    Register.ofText? text = none := by
  obtain ⟨c, rest, rfl, hc⟩ := h.eq_cons
  have hle := (Literal.toNat_le_of_sign_or_digit hc).1
  -- Only small letters have capitals, so the character stays what it is.
  have hupper : c.toUpper = c := by
    refine dif_neg ?_
    rintro ⟨hlow, -⟩
    rw [UInt32.le_iff_toNat_le] at hlow
    change 97 ≤ c.toNat at hlow
    omega
  rw [Register.ofText?, List.find?_eq_none]
  rintro r - hname
  obtain ⟨hletter, -⟩ := List.cons.inj (beq_iff_eq.1 hname)
  rw [hupper] at hletter
  have hcapital : 65 ≤ r.letter.toNat := by
    cases r <;> decide
  rw [hletter] at hcapital
  omega

/-- **The instruction** with some operands, if the machine knows the mnemonic in their mode. -/
def Mnemonic.encode (mnemonic : Mnemonic) (o : Operands) : Except Problem (Option Triple) :=
  match Form.opcode? ⟨mnemonic, o.mode⟩ with
  | some opcode => .ok (some ⟨opcode, o.first, o.second⟩)
  | none => .error (.unsupportedMode mnemonic o.mode)

/-- **A line with as many operands as its mnemonic can take** is assembled to the instruction
with what these come down to. -/
theorem assembleLine_eq {p : Punctuation} {line name : Text} {operands : List Text}
    {mnemonic : Mnemonic} (htokens : tokens (code p.comment line) = name :: operands)
    (hname : Mnemonic.ofText? name = some mnemonic)
    (hcount : (mnemonic.modes.any fun mode => mode.operandCount == operands.length) = true) :
    assembleLine p line = Operands.resolve p mnemonic operands >>= mnemonic.encode := by
  rw [assembleLine, htokens]
  simp only [hname, hcount, if_true]
  refine congrArg (Operands.resolve p mnemonic operands >>= ·) (funext fun o => ?_)
  rw [Mnemonic.encode]
  cases Form.opcode? ⟨mnemonic, o.mode⟩ <;> rfl

/-- What a line is assembled to, from the literal that has been read in its place. -/
def LiteralPlace.assembled (place : LiteralPlace) (p : Punctuation) (mnemonic : Mnemonic)
    (text : Text) (l : Literal) : Except Problem (Option Triple) :=
  place.take p mnemonic text l >>= mnemonic.encode

/-- **A line with a decimal operand** is assembled to what is made of its literal, or refused
if there is none. -/
theorem assembleLine_of_decimal {p : Punctuation} (hp : p.Clear) {line name text : Text}
    {mnemonic : Mnemonic} {place : LiteralPlace} {i : Int} (h : Numeral.Decimal text i)
    (htokens : tokens (code p.comment line) = name :: place.operands p text)
    (hname : Mnemonic.ofText? name = some mnemonic)
    (hcount : (mnemonic.modes.any fun mode =>
      mode.operandCount == (place.operands p text).length) = true) :
    assembleLine p line =
      match Literal.ofText? p text with
      | some l => place.assembled p mnemonic text l
      | none => .error (.invalidNumber text) := by
  have hregister := h.ofText?_eq_none
  have himmediate := p.immediate_mem_marks
  rw [assembleLine_eq htokens hname hcount]
  obtain ⟨c, rest, rfl, hc⟩ := h.eq_cons
  have hparen : c ≠ '(' := by
    rintro rfl
    exact absurd hc (by decide)
  have hmark : after? p.immediate (c :: rest) = none :=
    after?_cons_of_ne (Literal.ne_mark_of_sign_or_digit hp hc himmediate) rest
  rw [place.resolve_operands mnemonic (hp.ne_paren himmediate)
    (not_parenthesized_cons hparen rest) hmark hregister, Operands.literal]
  cases Literal.ofText? p (c :: rest) <;> rfl

/-- **Decimal operands are accepted exactly in range, up to thirty-two bits.** Take any line whose
mnemonic takes as many operands as there are, with a number in decimal wherever an operand holds a
literal. A number from -128 to 255 is taken as the byte that it is modulo 256, and one from 256 to
65535 as the word that it is; for any other number of thirty-two bits the line is refused. A
number that does not have thirty-two bits is not refused, but taken as the code of the sign or
digit that it starts with. -/
theorem assembleLine_decimal {line name text : Text} {mnemonic : Mnemonic} {place : LiteralPlace}
    {i : Int} (h : Numeral.Decimal text i)
    (htokens : tokens (code Punctuation.standard.comment line) =
      name :: place.operands .standard text)
    (hname : Mnemonic.ofText? name = some mnemonic)
    (hcount : (mnemonic.modes.any fun mode =>
      mode.operandCount == (place.operands .standard text).length) = true) :
    (-128 ≤ i → i ≤ 255 → ∃ b : Byte, (b.toNat : Int) = i % 256 ∧
      assembleLine .standard line = place.assembled .standard mnemonic text (.byte b)) ∧
    (256 ≤ i → i ≤ 65535 → ∃ w : Word, (w.toNat : Int) = i ∧
      assembleLine .standard line = place.assembled .standard mnemonic text (.word w)) ∧
    (IsSigned32 i → i < -128 ∨ 65535 < i →
      assembleLine .standard line = .error (.invalidNumber text)) ∧
    (¬IsSigned32 i → ∃ c ∈ text.head?, assembleLine .standard line =
      place.assembled .standard mnemonic text (.byte (UInt8.ofNat c.toNat))) := by
  have hline := assembleLine_of_decimal Punctuation.clear_standard h htokens hname hcount
  obtain ⟨hinside, houtside⟩ := Literal.ofText?_of_decimal Punctuation.clear_standard h
  refine ⟨fun hlow hhigh => ?_, fun hlow hhigh => ?_, fun hbits hrange => ?_, fun hbits => ?_⟩
  · obtain ⟨b, hb, hbyte⟩ := Literal.ofInt?_of_byte hlow hhigh
    have hbits : IsSigned32 i := ⟨by omega, by omega⟩
    exact ⟨b, hb, by rw [hline, hinside hbits, hbyte]⟩
  · obtain ⟨w, hw, hword⟩ := Literal.ofInt?_of_word hlow hhigh
    have hbits : IsSigned32 i := ⟨by omega, by omega⟩
    exact ⟨w, hw, by rw [hline, hinside hbits, hword]⟩
  · rw [hline, hinside hbits, Literal.ofInt?_of_outside hrange]
  · obtain ⟨c, hc, hliteral⟩ := houtside hbits
    exact ⟨c, hc, by rw [hline, hliteral]⟩

/-- The largest number that is refused, and the next one, which is taken as the code of the
digit 2. -/
theorem assembleLine_decimal_thirtyTwoBits :
    Numeral.Decimal "2147483647".toList 2147483647 ∧
      Numeral.Decimal "2147483648".toList 2147483648 ∧
      assembleLine .standard "LDA #2147483647".toList =
        .error (.invalidNumber "2147483647".toList) ∧
      assembleLine .standard "LDA #2147483648".toList = .ok (some ⟨0x04, 0x32, 0⟩) := by
  have hlast : Numeral.Decimal "2147483647".toList 2147483647 :=
    .unsigned (by decide) (forall_mem_of_all (by decide))
  have hnext : Numeral.Decimal "2147483648".toList 2147483648 :=
    .unsigned (by decide) (forall_mem_of_all (by decide))
  have hname : Mnemonic.ofText? "LDA".toList = some .lda := by decide
  -- Both numbers stand after the mark of an immediate operand.
  have hrefused := @assembleLine_decimal "LDA #2147483647".toList "LDA".toList _ .lda .marked _
    hlast (by decide) hname (by decide)
  have htaken := @assembleLine_decimal "LDA #2147483648".toList "LDA".toList _ .lda .marked _
    hnext (by decide) hname (by decide)
  refine ⟨hlast, hnext, hrefused.2.2.1 (by decide) (by decide), ?_⟩
  obtain ⟨c, hc, hline⟩ := htaken.2.2.2 (by decide)
  obtain rfl := Option.some.inj hc
  rw [hline]
  decide

end EightBit
