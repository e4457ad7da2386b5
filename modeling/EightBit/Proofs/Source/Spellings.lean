import EightBit.Proofs.Source.Comments
import EightBit.Proofs.Source.Decimals

/-!
# The spellings of an instruction

One instruction can be written in many ways. Its mnemonic and its registers are in capital
letters, in small ones or in a mixture of both; between any two words there is a gap of blanks and
commas, and there may be one in front and one at the end; and a number is in decimal, in
hexadecimal or in binary. This file says that all of them are assembled to the same bytes
(`EightBit.assemble_spelt`).

The notations for a literal are gathered in `EightBit.Literal.Written`. A literal is a number *and*
a width, and a notation has both: digits of a base make a byte as long as there are few of them,
and a decimal number if it is small. `EightBit.Designation.Written` puts the literals in their
places, so that the width appears only where it makes a difference: a value and a distance are
bytes, and everything else is taken from either.

The rest is to see that the assembler can be misled by none of this. No character of such a line
is a quote or the mark of a comment (`EightBit.Punctuation.Inert`), so that the line falls apart
into the words that it was made of; no literal is the name of a register or starts with the mark
of an immediate operand; and no mnemonic that goes on at a distance goes on at an address, too.
-/

namespace EightBit

/-! ### Letters in either case -/

/-- Only small ASCII letters have other capitals than themselves. -/
theorem toNat_lt_of_toUpper {c : Char} (h : c.toUpper.toNat < 128) : c.toNat < 128 := by
  by_cases hsmall : 'a'.val ≤ c.val ∧ c.val ≤ 'z'.val
  · have hlast : c.toNat ≤ 'z'.toNat := UInt32.le_iff_toNat_le.1 hsmall.2
    exact Nat.lt_of_le_of_lt hlast (by decide)
  · have hsame : c.toUpper = c := dif_neg hsmall
    rwa [hsame] at h

/-- What holds of every ASCII character can be checked by their codes. -/
theorem of_ascii {P : Char → Prop} (h : ∀ n : Fin 128, P (Char.ofNat n)) {c : Char}
    (hc : c.toNat < 128) : P c := by
  have hcode := h ⟨c.toNat, hc⟩
  rwa [Char.ofNat_toNat] at hcode

/-- **A letter in either case** is a letter. -/
theorem isAlphanum_of_toUpper {c : Char} (h : c.toUpper.isAlphanum = true) :
    c.isAlphanum = true := by
  have hall : ∀ n : Fin 128, (Char.ofNat n).toUpper.isAlphanum = true →
      (Char.ofNat n).isAlphanum = true := by decide
  have hrange := toNat_of_isAlphanum h
  exact of_ascii (P := fun c => c.toUpper.isAlphanum = true → c.isAlphanum = true) hall
    (toNat_lt_of_toUpper (by omega)) h

/-- A name in either case is made of letters and digits, if it is in capitals. -/
theorem isAlphanum_of_map_toUpper {text name : Text} (h : text.map Char.toUpper = name)
    (hname : ∀ c ∈ name, c.isAlphanum = true) : ∀ c ∈ text, c.isAlphanum = true := by
  intro c hc
  exact isAlphanum_of_toUpper (hname _ (h ▸ List.mem_map_of_mem hc))

/-! ### Digits in either case -/

namespace Numeral

/-- **Digits of a base** and the number that they spell out. A digit may be in either case. -/
inductive Digits (base : Nat) : Text → Nat → Prop
  /-- Without a digit there is nothing. -/
  | nil : Digits base [] 0
  /-- One more digit at the end counts for one, and those before it for a base each. -/
  | concat {digits : Text} {n d : Nat} {c : Char} : Digits base digits n → d < base →
    c.toUpper = digit d → Digits base (digits ++ [c]) (base * n + d)

/-- A smaller base has fewer digits, but those have the same values. -/
theorem digitValue?_of_lt {base base' d : Nat} {c : Char} (h : digitValue? base' c = some d)
    (hd : d < base) : digitValue? base c = some d := by
  grind [digitValue?]

/-- A digit has its value in either case. -/
theorem digitValue?_of_toUpper {base d : Nat} {c : Char} (hbase : base ≤ 16) (hd : d < base)
    (h : c.toUpper = digit d) : digitValue? base c = some d := by
  have hall : ∀ d : Fin 16, ∀ n : Fin 128, (Char.ofNat n).toUpper = digit d →
      digitValue? 16 (Char.ofNat n) = some d.val := by decide +kernel
  have hrange := toNat_of_isAlphanum (h ▸ isAlphanum_digit (by omega))
  have hsixteen := of_ascii (P := fun c => c.toUpper = digit d → digitValue? 16 c = some d)
    (hall ⟨d, by omega⟩) (toNat_lt_of_toUpper (by omega)) h
  exact digitValue?_of_lt hsixteen hd

variable {base n : Nat} {digits : Text}

/-- **Digits are read as the number that they spell out.** -/
theorem Digits.naturalFrom?_eq (hbase : base ≤ 16) (h : Digits base digits n) :
    naturalFrom? base 0 digits = some n := by
  induction h with
  | nil => rfl
  | concat _ hd hc ih =>
    rw [naturalFrom?_append, ih, Option.bind_some, naturalFrom?,
      digitValue?_of_toUpper hbase hd hc]
    rfl

theorem Digits.exists_eq_digit (h : Digits base digits n) :
    ∀ c ∈ digits, ∃ d, d < base ∧ c.toUpper = digit d := by
  induction h with
  | nil => exact List.forall_mem_nil _
  | concat _ hd hc ih =>
    exact List.forall_mem_append.2 ⟨ih, List.forall_mem_singleton.2 ⟨_, hd, hc⟩⟩

theorem Digits.isAlphanum (hbase : base ≤ 16) (h : Digits base digits n) :
    ∀ c ∈ digits, c.isAlphanum = true := by
  intro c hmem
  obtain ⟨d, hd, hc⟩ := h.exists_eq_digit c hmem
  exact isAlphanum_of_toUpper (hc ▸ isAlphanum_digit (by omega))

end Numeral

/-! ### Notations for literals -/

/-- The bases that a number is marked with. -/
inductive Radix where
  | binary
  | hexadecimal
deriving DecidableEq, Repr

namespace Radix

/-- The mark in front of the digits. -/
def mark (p : Punctuation) : Radix → Char
  | binary => p.binary
  | hexadecimal => p.hex

/-- The base that the digits belong to. -/
def base : Radix → Nat
  | binary => 2
  | hexadecimal => 16

/-- The number of digits that a byte has room for. -/
def byteDigits : Radix → Nat
  | binary => 8
  | hexadecimal => 2

theorem base_le (radix : Radix) : radix.base ≤ 16 := by
  cases radix <;> decide

theorem mark_mem (p : Punctuation) (radix : Radix) : radix.mark p ∈ p.marks := by
  cases radix with
  | binary => exact p.binary_mem_marks
  | hexadecimal => exact p.hex_mem_marks

theorem mark_ne_immediate {p : Punctuation} (hp : p.Clear) (radix : Radix) :
    radix.mark p ≠ p.immediate := by
  intro h
  have hnodup := hp.nodup
  cases radix <;> simp_all [mark, Punctuation.marks]

theorem mark_ne_comment {p : Punctuation} (hp : p.Clear) (radix : Radix) :
    radix.mark p ≠ p.comment := by
  intro h
  have hnodup := hp.nodup
  cases radix <;> simp_all [mark, Punctuation.marks]

end Radix

namespace Literal

/-- **The notations for a literal**, those in quotes apart. -/
inductive Written (p : Punctuation) : Text → Literal → Prop
  /-- A byte in decimal, as it is. -/
  | byte {text : Text} {b : Byte} : Numeral.Decimal text b.toNat → Written p text (.byte b)
  /-- A byte in decimal, as a negative number. -/
  | negative {text : Text} {b : Byte} : 128 ≤ b.toNat → Numeral.Decimal text (b.toNat - 256) →
    Written p text (.byte b)
  /-- A word in decimal. -/
  | word {text : Text} {w : Word} : 256 ≤ w.toNat → Numeral.Decimal text w.toNat →
    Written p text (.word w)
  /-- A byte in digits of a base. -/
  | byteDigits (radix : Radix) {digits : Text} {b : Byte} : digits ≠ [] →
    digits.length ≤ radix.byteDigits → Numeral.Digits radix.base digits b.toNat →
    Written p (radix.mark p :: digits) (.byte b)
  /-- A word in digits of a base. -/
  | wordDigits (radix : Radix) {digits : Text} {w : Word} : radix.byteDigits < digits.length →
    digits.length ≤ 2 * radix.byteDigits → Numeral.Digits radix.base digits w.toNat →
    Written p (radix.mark p :: digits) (.word w)

variable {p : Punctuation} {text : Text} {l : Literal}

/-- What follows the mark of a base is read as digits of it. -/
theorem ofText?_mark (hp : p.Clear) (radix : Radix) (digits : Text) :
    ofText? p (radix.mark p :: digits) = ofDigits? radix.base radix.byteDigits digits := by
  cases radix with
  | binary =>
    rw [Radix.mark, ofText?, after?_cons_self]
    rfl
  | hexadecimal => exact ofText?_hex hp digits

/-- A decimal number that fits in a byte is read as that, with a sign or without. -/
theorem ofText?_of_decimal_byte (hp : p.Clear) {i : Int} (h : Numeral.Decimal text i)
    (hlow : -128 ≤ i) (hhigh : i ≤ 255) {b : Byte} (hb : (b.toNat : Int) = i % 256) :
    ofText? p text = some (.byte b) := by
  obtain ⟨v, hv, hread⟩ := ofInt?_of_byte hlow hhigh
  obtain rfl : v = b := UInt8.toNat_inj.1 (by omega)
  rw [(ofText?_of_decimal hp h).1 ⟨by omega, by omega⟩, hread]

/-- **A literal is read in any of its notations.** -/
theorem Written.ofText?_eq (hp : p.Clear) (h : Written p text l) : ofText? p text = some l := by
  cases h with
  | @byte _ b hdecimal =>
    have hb := b.toNat_lt
    exact ofText?_of_decimal_byte hp hdecimal (by omega) (by omega) (by omega)
  | @negative _ b hlarge hdecimal =>
    have hb := b.toNat_lt
    exact ofText?_of_decimal_byte hp hdecimal (by omega) (by omega) (by omega)
  | @word _ w hlarge hdecimal =>
    have hw := w.toNat_lt
    obtain ⟨v, hv, hread⟩ := ofInt?_of_word (i := w.toNat) (by omega) (by omega)
    obtain rfl : v = w := UInt16.toNat_inj.1 (by omega)
    rw [(ofText?_of_decimal hp hdecimal).1 ⟨by omega, by omega⟩, hread]
  | byteDigits radix hne hlength hdigits =>
    rw [ofText?_mark hp, ofDigits?, Numeral.natural?_eq hne, hdigits.naturalFrom?_eq radix.base_le]
    simp [hlength]
  | wordDigits radix hwide hlength hdigits =>
    have hne := List.ne_nil_of_length_pos (Nat.zero_lt_of_lt hwide)
    rw [ofText?_mark hp, ofDigits?, Numeral.natural?_eq hne, hdigits.naturalFrom?_eq radix.base_le]
    simp [hlength, Nat.not_le_of_lt hwide]

/-- How a notation begins: with a sign or a digit, or with the mark of a base. -/
theorem Written.eq_cons (h : Written p text l) :
    ∃ c rest, text = c :: rest ∧
      ((c = '+' ∨ c = '-' ∨ c.isDigit = true) ∨ ∃ radix : Radix, c = radix.mark p) := by
  cases h with
  | byte hdecimal | negative _ hdecimal | word _ hdecimal =>
    obtain ⟨c, rest, rfl, hc⟩ := hdecimal.eq_cons
    exact ⟨c, rest, rfl, Or.inl hc⟩
  | byteDigits radix | wordDigits radix => exact ⟨_, _, rfl, Or.inr ⟨radix, rfl⟩⟩

/-- **A literal is not taken for an operand of another kind**: there is no parenthesis and no mark
of an immediate operand in front of it. -/
theorem Written.unmarked (hp : p.Clear) (h : Written p text l) :
    ¬Parenthesized text ∧ after? p.immediate text = none := by
  obtain ⟨c, rest, rfl, hc | ⟨radix, rfl⟩⟩ := h.eq_cons
  · refine ⟨not_parenthesized_cons ?_ rest,
      after?_cons_of_ne (ne_mark_of_sign_or_digit hp hc p.immediate_mem_marks) rest⟩
    rintro rfl
    exact absurd hc (by decide)
  · exact ⟨not_parenthesized_cons (hp.ne_paren (radix.mark_mem p)) rest,
      after?_cons_of_ne (radix.mark_ne_immediate hp) rest⟩

/-- **A literal is not the name of a register.** -/
theorem Written.ofText?_register (h : Written p text l) : Register.ofText? text = none := by
  have hlong : ∀ {c : Char} {digits : Text}, 0 < digits.length →
      Register.ofText? (c :: digits) = none := by
    intro c digits hpos
    refine Option.eq_none_iff_forall_ne_some.2 fun r hr => ?_
    have hlength := Register.length_of_ofText? hr
    rw [List.length_cons] at hlength
    omega
  cases h with
  | byte hdecimal | negative _ hdecimal | word _ hdecimal => exact hdecimal.ofText?_eq_none
  | byteDigits radix hne => exact hlong (List.length_pos_iff.2 hne)
  | wordDigits radix hwide => exact hlong (Nat.zero_lt_of_lt hwide)

end Literal

/-- A number in decimal is made of signs and digits. -/
theorem Numeral.Decimal.sign_or_digit {text : Text} {i : Int} (h : Decimal text i) :
    ∀ c ∈ text, c = '+' ∨ c = '-' ∨ c.isDigit = true := by
  intro c hmem
  cases h with
  | unsigned _ hdigits => exact Or.inr (Or.inr (hdigits c hmem))
  | plus _ hdigits =>
    exact (List.mem_cons.1 hmem).imp_right fun hmem => Or.inr (hdigits c hmem)
  | minus _ hdigits =>
    exact (List.mem_cons.1 hmem).elim (fun hc => Or.inr (Or.inl hc))
      fun hmem => Or.inr (Or.inr (hdigits c hmem))

/-- **No character of a literal means anything else.** -/
theorem Literal.Written.inert {p : Punctuation} (hp : p.Clear) {text : Text} {l : Literal}
    (h : Written p text l) : ∀ c ∈ text, p.Inert c := by
  have hdecimal : ∀ {i}, Numeral.Decimal text i → ∀ c ∈ text, p.Inert c := by
    intro i hi c hc
    rcases hi.sign_or_digit c hc with rfl | rfl | hdigit
    · exact hp.inert_of_bracket_or_sign (by decide)
    · exact hp.inert_of_bracket_or_sign (by decide)
    · exact hp.inert_of_isDigit hdigit
  have hdigits : ∀ (radix : Radix) {digits : Text} {n : Nat}, Numeral.Digits radix.base digits n →
      ∀ c ∈ radix.mark p :: digits, p.Inert c := by
    intro radix digits n hn
    refine List.forall_mem_cons.2 ⟨⟨hp.isPlain _ (radix.mark_mem p), radix.mark_ne_comment hp⟩, ?_⟩
    intro c hc
    exact hp.inert_of_isAlphanum (hn.isAlphanum radix.base_le c hc)
  cases h with
  | byte hi | negative _ hi | word _ hi => exact hdecimal hi
  | byteDigits radix _ _ hn | wordDigits radix _ _ hn => exact hdigits radix hn

/-! ### Operands that are written out -/

/-- A mnemonic that goes on at a distance has no use for an address. -/
theorem Mnemonic.not_relative_of_absolute {mnemonic : Mnemonic}
    (h : mnemonic.hasMode .absolute = true) : mnemonic.hasMode .relative = false := by
  revert h
  cases mnemonic <;> decide

namespace Designation

/-- **The operands that write a designation**, with literals in any notation and registers in
either case. -/
inductive Written (p : Punctuation) : Designation → List Text → Prop
  | nothing : Written p .nothing []
  | accumulator : Written p .accumulator []
  /-- A marked byte. -/
  | value {text : Text} {v : Byte} : Literal.Written p text (.byte v) →
    Written p (.value v) [p.immediate :: text]
  /-- A literal of either width. -/
  | cell {text : Text} {l : Literal} : Literal.Written p text l → Written p (.cell l.value) [text]
  /-- A literal of either width in parentheses. -/
  | pointer {text : Text} {l : Literal} : Literal.Written p text l →
    Written p (.pointer l.value) ['(' :: text ++ [')']]
  /-- A byte. -/
  | distance {text : Text} {d : Byte} : Literal.Written p text (.byte d) →
    Written p (.distance d) [text]
  /-- Two registers. -/
  | registers {first second : Text} {source target : Register} :
    first.map Char.toUpper = source.name → second.map Char.toUpper = target.name →
    Written p (.registers source target) [first, second]
  /-- A literal of either width and W. -/
  | indexedW {first second : Text} {l : Literal} : Literal.Written p first l →
    second.map Char.toUpper = Register.w.name → Written p (.indexedW l.value) [first, second]
  /-- A literal of either width and X. -/
  | indexedX {first second : Text} {l : Literal} : Literal.Written p first l →
    second.map Char.toUpper = Register.x.name → Written p (.indexedX l.value) [first, second]

variable {p : Punctuation} {d : Designation} {operands : List Text}

/-- **What is written is designated**, for any mnemonic that has its mode. -/
theorem Written.designates (hp : p.Clear) (h : Written p d operands) {mnemonic : Mnemonic}
    (hmode : mnemonic.hasMode d.operands.mode = true) : Designates p mnemonic operands d := by
  cases h with
  | nothing => exact .nothing hmode
  | accumulator => exact .accumulator (Mnemonic.not_implicit_of_accumulator hmode)
  | value hl =>
    have hparen := hp.ne_paren p.immediate_mem_marks
    exact .value (not_parenthesized_cons hparen _) (hl.ofText?_eq hp)
  | cell hl =>
    obtain ⟨hbare, hmark⟩ := hl.unmarked hp
    have hrelative := Mnemonic.not_relative_of_absolute hmode
    rw [Bool.eq_false_iff] at hrelative
    exact .cell hbare hmark (fun h => absurd h hrelative) (hl.ofText?_eq hp)
  | pointer hl => exact .pointer (hl.ofText?_eq hp)
  | distance hl =>
    obtain ⟨hbare, hmark⟩ := hl.unmarked hp
    exact .distance hbare hmark hmode (hl.ofText?_eq hp)
  | registers hfirst hsecond =>
    exact .registers (Register.ofText?_eq_some_iff.2 hfirst)
      (Register.ofText?_eq_some_iff.2 hsecond) (Or.inl hmode)
  | indexedW hl hsecond =>
    exact .indexedW (Register.ofText?_eq_some_iff.2 hsecond) (Or.inl hl.ofText?_register)
      (hl.ofText?_eq hp)
  | indexedX hl hsecond =>
    exact .indexedX (Register.ofText?_eq_some_iff.2 hsecond) (Or.inl hl.ofText?_register)
      (hl.ofText?_eq hp)

/-- A register in either case is a word that means nothing else. -/
theorem inert_of_map_toUpper (hp : p.Clear) {text : Text} {r : Register}
    (h : text.map Char.toUpper = r.name) : text ≠ [] ∧ ∀ c ∈ text, p.Inert c := by
  refine ⟨?_, fun c hc => hp.inert_of_isAlphanum ?_⟩
  · rintro rfl
    exact nomatch h
  · exact isAlphanum_of_map_toUpper h (fun c hc => Register.isAlphanum_of_mem_name hc) c hc

/-- **Each operand that is written is a word**, and no character of it means anything else. -/
theorem Written.inert (hp : p.Clear) (h : Written p d operands) :
    ∀ operand ∈ operands, operand ≠ [] ∧ ∀ c ∈ operand, p.Inert c := by
  have hliteral : ∀ {text l}, Literal.Written p text l → text ≠ [] ∧ ∀ c ∈ text, p.Inert c := by
    intro text l hl
    obtain ⟨c, rest, hcons, -⟩ := hl.eq_cons
    exact ⟨hcons ▸ List.cons_ne_nil c rest, hl.inert hp⟩
  cases h with
  | nothing | accumulator => exact List.forall_mem_nil _
  | value hl =>
    refine List.forall_mem_singleton.2 ⟨List.cons_ne_nil _ _, ?_⟩
    exact List.forall_mem_cons.2 ⟨hp.inert_immediate, hl.inert hp⟩
  | cell hl | distance hl => exact List.forall_mem_singleton.2 (hliteral hl)
  | pointer hl =>
    refine List.forall_mem_singleton.2 ⟨List.cons_ne_nil _ _, ?_⟩
    refine List.forall_mem_append.2 ⟨List.forall_mem_cons.2 ⟨?_, hl.inert hp⟩,
      List.forall_mem_singleton.2 ?_⟩
    · exact hp.inert_of_bracket_or_sign (by decide)
    · exact hp.inert_of_bracket_or_sign (by decide)
  | registers hfirst hsecond =>
    exact List.forall_mem_cons.2 ⟨inert_of_map_toUpper hp hfirst,
      List.forall_mem_singleton.2 (inert_of_map_toUpper hp hsecond)⟩
  | indexedW hl hsecond | indexedX hl hsecond =>
    exact List.forall_mem_cons.2 ⟨hliteral hl,
      List.forall_mem_singleton.2 (inert_of_map_toUpper hp hsecond)⟩

end Designation

/-! ### Words on a line -/

/-- **Words spread out** over a line, each with a gap in front of it. -/
def spread (words : List (Text × Text)) : Text :=
  words.flatMap fun (gap, word) => gap ++ word

/-- Words spread out are spaced, and something may stand in front of them. -/
theorem spaced_spread {words : List (Text × Text)} {after : Text} (hafter : IsGap after)
    (hgaps : ∀ gw ∈ words, gw.1 ≠ [] ∧ IsGap gw.1) (hwords : ∀ gw ∈ words, IsWord gw.2) :
    Spaced (words.map Prod.snd) (spread words ++ after) ∧ IsBoundary (spread words ++ after) := by
  induction words with
  | nil => exact ⟨.gap hafter, fun c hc => hafter c (List.mem_of_mem_head? hc)⟩
  | cons gw words ih =>
    obtain ⟨gap, word⟩ := gw
    obtain ⟨⟨hne, hgap⟩, hgaps⟩ := List.forall_mem_cons.1 hgaps
    obtain ⟨hword, hwords⟩ := List.forall_mem_cons.1 hwords
    obtain ⟨hspaced, hboundary⟩ := ih hgaps hwords
    have hline : spread ((gap, word) :: words) ++ after =
        gap ++ word ++ (spread words ++ after) := by
      simp [spread]
    obtain ⟨c, rest, rfl⟩ := List.exists_cons_of_ne_nil hne
    rw [hline]
    exact ⟨.word hgap hword hboundary hspaced, isBoundary_cons (hgap c List.mem_cons_self)⟩

/-- **The spellings of a mnemonic with a designation**: the mnemonic in either case, operands that
write the designation, a gap in front of each, and one in front of all and one at the end that may
be empty. -/
inductive Spelling (p : Punctuation) (mnemonic : Mnemonic) (d : Designation) : Text → Prop
  | intro {gap name after : Text} {operands : List (Text × Text)} : IsGap gap →
    name.map Char.toUpper = mnemonic.text → (∀ gw ∈ operands, gw.1 ≠ [] ∧ IsGap gw.1) →
    d.Written p (operands.map Prod.snd) → IsGap after →
    Spelling p mnemonic d (gap ++ name ++ (spread operands ++ after))

namespace Spelling

variable {p : Punctuation} {mnemonic : Mnemonic} {d : Designation} {line : Text}

/-- The words of a spelling, its mnemonic apart. -/
theorem inert_of_mem (hp : p.Clear) {operands : List (Text × Text)}
    (hd : d.Written p (operands.map Prod.snd)) :
    ∀ gw ∈ operands, gw.2 ≠ [] ∧ ∀ c ∈ gw.2, p.Inert c := fun _ hmem =>
  hd.inert hp _ (List.mem_map_of_mem hmem)

/-- **The tokens of a spelling** are the mnemonic and the operands. -/
theorem tokens_eq (hp : p.Clear) (h : Spelling p mnemonic d line) :
    ∃ name operands, tokens line = name :: operands ∧
      name.map Char.toUpper = mnemonic.text ∧ d.Written p operands := by
  obtain @⟨gap, name, after, operands, hgap, hname, hgaps, hd, hafter⟩ := h
  have hword : IsWord name := by
    refine ⟨?_, fun c hc => isPlain_of_isAlphanum ?_⟩
    · rintro rfl
      exact mnemonic.text_ne_nil hname.symm
    · exact isAlphanum_of_map_toUpper hname (fun c hc => Mnemonic.isAlphanum_of_mem_text hc) c hc
  have hwords : ∀ gw ∈ operands, IsWord gw.2 := fun gw hmem =>
    ⟨(inert_of_mem hp hd gw hmem).1, fun c hc => ((inert_of_mem hp hd gw hmem).2 c hc).1⟩
  obtain ⟨hspaced, hboundary⟩ := spaced_spread hafter hgaps hwords
  exact ⟨name, _, (Spaced.word hgap hword hboundary hspaced).tokens_eq, hname, hd⟩

/-- A separator is neither a quote nor the mark of a comment. -/
theorem ne_of_isSeparator (hp : p.Clear) {c : Char} (h : isSeparator c = true) :
    c ≠ quoteMark ∧ c ≠ p.comment := by
  constructor
  · rintro rfl
    exact absurd h (by decide)
  · rintro rfl
    have hplain : isPlain p.comment := hp.isPlain _ p.comment_mem_marks
    exact absurd h (by simp [isSeparator_of_isPlain hplain])

/-- **No character of a spelling is a quote or the mark of a comment.** -/
theorem unmarked (hp : p.Clear) (h : Spelling p mnemonic d line) :
    ∀ c ∈ line, c ≠ quoteMark ∧ c ≠ p.comment := by
  obtain @⟨gap, name, after, operands, hgap, hname, hgaps, hd, hafter⟩ := h
  have hinert : ∀ {c}, p.Inert c → c ≠ quoteMark ∧ c ≠ p.comment := fun hc =>
    ⟨ne_quoteMark_of_isPlain hc.1, hc.2⟩
  have hletters := isAlphanum_of_map_toUpper hname fun c hc => Mnemonic.isAlphanum_of_mem_text hc
  have hwords : ∀ c ∈ spread operands, c ≠ quoteMark ∧ c ≠ p.comment := by
    intro c hc
    obtain ⟨gw, hmem, hc⟩ := List.mem_flatMap.1 hc
    rcases List.mem_append.1 hc with hc | hc
    · exact ne_of_isSeparator hp ((hgaps gw hmem).2 c hc)
    · exact hinert ((inert_of_mem hp hd gw hmem).2 c hc)
  simp only [List.forall_mem_append]
  exact ⟨⟨fun c hc => ne_of_isSeparator hp (hgap c hc),
    fun c hc => hinert (hp.inert_of_isAlphanum (hletters c hc))⟩, hwords,
    fun c hc => ne_of_isSeparator hp (hafter c hc)⟩

/-- **A comment after a spelling** is no part of its code. -/
theorem code_eq (hp : p.Clear) (h : Spelling p mnemonic d line) (comment : Text) :
    code p.comment line = line ∧ code p.comment (line ++ p.comment :: comment) = line := by
  have hmark : p.comment ≠ quoteMark :=
    ne_quoteMark_of_isPlain (hp.isPlain _ p.comment_mem_marks)
  exact ⟨code_of_unmarked (h.unmarked hp), code_comment_of_unmarked hmark (h.unmarked hp) comment⟩

/-- **A spelling is assembled to what it spells**, with a comment after it or without. -/
theorem assembleLine_eq (hp : p.Clear) (h : Spelling p mnemonic d line) {t : Triple}
    (ht : t.Encodes mnemonic d) (comment : Text) :
    assembleLine p line = .ok (some t) ∧
      assembleLine p (line ++ p.comment :: comment) = .ok (some t) := by
  obtain ⟨hcode, hcommented⟩ := h.code_eq hp comment
  obtain ⟨name, operands, htokens, hname, hd⟩ := h.tokens_eq hp
  have hline : assembleLine p line = .ok (some t) := by
    refine assembleLine_eq_ok_some_iff.2 ⟨name, operands, mnemonic, d, ?_,
      Mnemonic.ofText?_eq_some_iff.2 hname, hd.designates hp (hasMode_of_ofOpcode? ht.opcode), ht⟩
    rw [hcode, htokens]
  refine ⟨hline, ?_⟩
  rw [← hline]
  exact assembleLine_of_tokens_eq (by rw [hcode, hcommented])

end Spelling

/-- **Every spelling of an instruction is assembled to the same bytes**, with the customary
punctuation: those of the form in the instruction table, with the operand bytes of what is
designated. A comment after the line, with quotes in it or without, changes nothing. -/
theorem assemble_spelt {mnemonic : Mnemonic} {d : Designation} {opcode : Byte} {line : Text}
    (hopcode : Form.opcode? ⟨mnemonic, d.operands.mode⟩ = some opcode)
    (hline : Spelling .standard mnemonic d line) (comment : Text) :
    assembleLine .standard line = .ok (some ⟨opcode, d.operands.first, d.operands.second⟩) ∧
      assembleLine .standard (line ++ ';' :: comment) =
        .ok (some ⟨opcode, d.operands.first, d.operands.second⟩) ∧
      ('\n' ∉ line →
        assemble .standard line =
          .ok [headerMarker, 0, 3, opcode, d.operands.first, d.operands.second] ∧
        ('\n' ∉ comment →
          assemble .standard (line ++ ';' :: comment) =
            .ok [headerMarker, 0, 3, opcode, d.operands.first, d.operands.second])) := by
  have ht : Triple.Encodes ⟨opcode, d.operands.first, d.operands.second⟩ mnemonic d :=
    ⟨Form.ofOpcode?_eq_some_iff.2 hopcode, rfl, rfl⟩
  obtain ⟨hplain, hcommented⟩ := hline.assembleLine_eq Punctuation.clear_standard ht comment
  have himage : image [⟨opcode, d.operands.first, d.operands.second⟩] =
      [headerMarker, 0, 3, opcode, d.operands.first, d.operands.second] := @image_eq [_] 0 3 rfl
  refine ⟨hplain, hcommented, fun hfeed => ⟨?_, fun hfeed' => ?_⟩⟩
  · exact (assemble_eq_ok_iff_of_not_mem hfeed).2 ⟨_, hplain, himage.symm⟩
  · have hboth : '\n' ∉ line ++ ';' :: comment := by simp [hfeed, hfeed']
    exact (assemble_eq_ok_iff_of_not_mem hboth).2 ⟨_, hcommented, himage.symm⟩

/-- Both cases mixed, commas where one would not look for them, and a quote in the comment. -/
theorem assemble_spelt_loosely :
    Form.opcode? ⟨.lda, .indexedW⟩ = some 2 ∧
      Spelling .standard .lda (.indexedW 0xFF) " ,lDa\t$fF , w,".toList ∧
      assemble .standard (" ,lDa\t$fF , w,".toList ++ ';' :: "it's".toList) =
        .ok [0x7F, 0, 3, 2, 0xFF, 0] := by
  have hopcode : Form.opcode? ⟨.lda, .indexedW⟩ = some 2 := by decide
  have hdigits : Numeral.Digits 16 (([] ++ ['f']) ++ ['F']) 255 :=
    .concat (n := 15) (d := 15) (.concat (n := 0) (d := 15) .nil (by decide) (by decide))
      (by decide) (by decide)
  have hbase : Literal.Written .standard "$fF".toList (.byte 0xFF) :=
    .byteDigits .hexadecimal (by decide) (by decide) hdigits
  have hgaps : ∀ gw ∈ [(['\t'], "$fF".toList), ([' ', ',', ' '], ['w'])],
      gw.1 ≠ [] ∧ IsGap gw.1 := by decide
  have hline : Spelling .standard .lda (.indexedW 0xFF) " ,lDa\t$fF , w,".toList :=
    @Spelling.intro _ _ _ [' ', ','] "lDa".toList [','] _ (by decide) (by decide) hgaps
      (.indexedW hbase (by decide)) (by decide)
  refine ⟨hopcode, hline, ?_⟩
  exact ((assemble_spelt hopcode hline "it's".toList).2.2 (by decide)).2 (by decide)

end EightBit
