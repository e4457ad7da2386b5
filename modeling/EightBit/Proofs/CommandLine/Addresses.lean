import EightBit.CommandLine.Address
import EightBit.Proofs.Source.Spellings

/-!
# The addresses that can be written

What may be written for an address is said once by a grammar (`EightBit.AddressNotation`) and once
by the reader, which looks for a prefix, takes off a sign, and adds up digits until there are none
left or their value is too large. This file says that the two are the same
(`EightBit.readAddress_exact`).

The reader compares the value with the limit after every digit, the grammar only the whole of it.
That makes no difference, because one more digit never makes a value smaller
(`EightBit.Numeral.le_of_naturalFrom?_eq_some`): a number is within the limit exactly if it was
so all along. Nor is anything lost by looking for the prefixes first. Neither a dollar sign nor
an `x` is a digit in decimal, so that a text with a prefix has no other notation.
-/

namespace EightBit

namespace Numeral

/-! ### Digits and their values -/

/-- A character is read as a digit exactly if it is that digit in either case. -/
theorem digitValue?_eq_some_iff {base d : Nat} {c : Char} (hbase : base ≤ 16) :
    digitValue? base c = some d ↔ d < base ∧ c.toUpper = digit d := by
  constructor
  · intro h
    obtain ⟨hd, hascii⟩ : d < base ∧ c.toNat < 128 := by
      grind [digitValue?, Char.isDigit, Char.le_def, UInt32.le_iff_toNat_le, Char.toNat]
    have hall : ∀ n : Fin 128, ∀ d : Fin 16, digitValue? 16 (Char.ofNat n) = some d.val →
        (Char.ofNat n).toUpper = digit d := by decide +kernel
    have hdigit := fun n => hall n ⟨d, by omega⟩
    have hsixteen : digitValue? 16 c = some d := digitValue?_of_lt h (by omega)
    exact ⟨hd, of_ascii (P := fun c => digitValue? 16 c = some d → c.toUpper = digit d) hdigit
      hascii hsixteen⟩
  · rintro ⟨hd, hc⟩
    exact digitValue?_of_toUpper hbase hd hc

/-- **A text is read as a number exactly if its digits spell it out.** -/
theorem naturalFrom?_eq_some_iff {base n : Nat} {digits : Text} (hbase : base ≤ 16) :
    naturalFrom? base 0 digits = some n ↔ Digits base digits n := by
  refine ⟨fun h => ?_, fun h => h.naturalFrom?_eq hbase⟩
  -- The last digit is the one that is added last.
  induction digits using List.reverseRecOn generalizing n with
  | nil =>
    obtain rfl := Option.some.inj h
    exact .nil
  | append_singleton digits c ih =>
    rw [naturalFrom?_append, Option.bind_eq_some_iff] at h
    obtain ⟨m, hm, hlast⟩ := h
    obtain ⟨d, hd, hvalue⟩ := Option.bind_eq_some_iff.1 hlast
    obtain rfl := Option.some.inj hvalue
    obtain ⟨hlt, hc⟩ := (digitValue?_eq_some_iff hbase).1 hd
    exact .concat (ih hm) hlt hc

/-! ### Numbers up to a limit -/

/-- Further digits never make a value smaller. -/
theorem le_of_naturalFrom?_eq_some {base value n : Nat} {text : Text} (hpos : 0 < base)
    (h : naturalFrom? base value text = some n) : value ≤ n := by
  induction text generalizing value with
  | nil => exact (Option.some.inj h).le
  | cons c text ih =>
    obtain ⟨d, -, hrest⟩ := Option.bind_eq_some_iff.1 h
    have hmul : value ≤ base * value := Nat.le_mul_of_pos_left value hpos
    have hmore := ih hrest
    omega

/-- **To stay within a limit all along** is to be within it at the end. -/
theorem boundedFrom_eq_ok_iff {base limit value n : Nat} {text : Text} (hpos : 0 < base)
    (hvalue : value ≤ limit) :
    boundedFrom base limit value text = .ok n ↔
      naturalFrom? base value text = some n ∧ n ≤ limit := by
  induction text generalizing value with
  | nil =>
    simp only [boundedFrom, naturalFrom?, Except.ok.injEq, Option.some.injEq]
    constructor
    · rintro rfl
      exact ⟨rfl, hvalue⟩
    · exact And.left
  | cons c text ih =>
    rw [boundedFrom, naturalFrom?]
    cases hdigit : digitValue? base c with
    | none => simp
    | some d =>
      simp only [Option.bind_eq_bind, Option.bind_some]
      by_cases hfits : base * value + d ≤ limit
      · rw [if_pos hfits, ih hfits]
      · rw [if_neg hfits]
        constructor
        · intro h
          cases h
        · rintro ⟨h, hn⟩
          exact absurd ((le_of_naturalFrom?_eq_some hpos h).trans hn) hfits

/-- **A number that is not negative**, in digits of a base: at least one digit, and one plus sign
in front of them or none. -/
inductive Unsigned (base : Nat) : Text → Nat → Prop
  | bare {digits : Text} {n : Nat} : digits ≠ [] → Digits base digits n → Unsigned base digits n
  | plus {digits : Text} {n : Nat} : digits ≠ [] → Digits base digits n →
    Unsigned base ('+' :: digits) n

/-- A number is made of a plus sign and digits. -/
theorem Unsigned.plus_or_digit {base n : Nat} {text : Text} (h : Unsigned base text n) :
    ∀ c ∈ text, c = '+' ∨ ∃ d, d < base ∧ c.toUpper = digit d := by
  intro c hc
  cases h with
  | bare _ hdigits => exact Or.inr (hdigits.exists_eq_digit c hc)
  | plus _ hdigits => exact (List.mem_cons.1 hc).imp_right (hdigits.exists_eq_digit c)

/-- **A number up to a limit** is read exactly if it is one. -/
theorem bounded_eq_ok_iff {base limit n : Nat} {text : Text} (hpos : 0 < base) (hbase : base ≤ 16) :
    bounded base limit text = .ok n ↔ Unsigned base text n ∧ n ≤ limit := by
  have hread : ∀ {digits : Text},
      boundedFrom base limit 0 digits = .ok n ↔ Digits base digits n ∧ n ≤ limit := by
    intro digits
    rw [boundedFrom_eq_ok_iff hpos (Nat.zero_le limit), naturalFrom?_eq_some_iff hbase]
  -- A plus sign is no digit, so that it is the sign if it comes first.
  have hsign : ∀ {digits : Text}, ¬Digits base ('+' :: digits) n := by
    intro digits h
    exact absurd (h.isAlphanum hbase '+' List.mem_cons_self) (by decide)
  rw [bounded.eq_def]
  split
  · refine iff_of_false nofun fun h => ?_
    cases h.1 with
    | bare hne => exact hne rfl
  · refine iff_of_false nofun fun h => ?_
    cases h.1 with
    | bare _ hdigits => exact hsign hdigits
    | plus hne => exact hne rfl
  · next digits hne =>
    rw [hread]
    refine and_congr_left fun _ => ⟨fun hdigits => ?_, fun h => ?_⟩
    · exact .plus (fun hnil => hne (by rw [hnil])) hdigits
    · cases h with
      | bare _ hdigits => exact absurd hdigits hsign
      | plus _ hdigits => exact hdigits
  · next hne _ hplus =>
    rw [hread]
    refine and_congr_left fun _ => ⟨fun hdigits => .bare hne hdigits, fun h => ?_⟩
    cases h with
    | bare _ hdigits => exact hdigits
    | plus => exact absurd rfl (hplus _)

end Numeral

/-! ### Addresses -/

/-- **The notations for a number on the command line**: in hexadecimal after a dollar sign or after
`0x`, and in decimal without either. A plus sign belongs to the digits and comes after the
prefix. -/
inductive AddressNotation : Text → Nat → Prop
  | dollar {digits : Text} {n : Nat} : Numeral.Unsigned 16 digits n →
    AddressNotation ('$' :: digits) n
  | zeroX {digits : Text} {n : Nat} : Numeral.Unsigned 16 digits n →
    AddressNotation ('0' :: 'x' :: digits) n
  | decimal {digits : Text} {n : Nat} : Numeral.Unsigned 10 digits n → AddressNotation digits n

/-- **The prefix of an address decides its base**: a text with a prefix is no number in decimal. -/
theorem addressNotation_iff {text : Text} {n : Nat} :
    AddressNotation text n ↔ Numeral.Unsigned (addressDigits text).1 (addressDigits text).2 n := by
  have hprefix : ∀ c ∈ ['$', 'x'], ∀ d : Fin 10, c.toUpper ≠ Numeral.digit d :=
    forall_mem_of_all (by decide)
  have hdecimal : ∀ {c : Char}, c ∈ ['$', 'x'] → c ∈ text → ¬Numeral.Unsigned 10 text n := by
    intro c hc hmem h
    rcases h.plus_or_digit c hmem with rfl | ⟨d, hd, hdigit⟩
    · exact absurd hc (by decide)
    · exact hprefix c hc ⟨d, hd⟩ hdigit
  rw [addressDigits.eq_def]
  split
  · refine ⟨fun h => ?_, .dollar⟩
    cases h with
    | dollar hdigits => exact hdigits
    | decimal hdigits => exact absurd hdigits (hdecimal (c := '$') (by decide) (by simp))
  · refine ⟨fun h => ?_, .zeroX⟩
    cases h with
    | zeroX hdigits => exact hdigits
    | decimal hdigits => exact absurd hdigits (hdecimal (c := 'x') (by decide) (by simp))
  · next hdollar hzeroX =>
    refine ⟨fun h => ?_, .decimal⟩
    cases h with
    | dollar => exact absurd rfl (hdollar _)
    | zeroX => exact absurd rfl (hzeroX _)
    | decimal hdigits => exact hdigits

/-- **An address is read** exactly if it is a number in one of the notations. -/
theorem readAddress_eq_ok_iff {text : Text} {w : Word} :
    readAddress text = .ok w ↔ AddressNotation text w.toNat := by
  have hbase : 0 < (addressDigits text).1 ∧ (addressDigits text).1 ≤ 16 := by
    rw [addressDigits.eq_def]
    split <;> exact ⟨by omega, by omega⟩
  have hw : w.toNat < 65536 := w.toNat_lt
  simp only [readAddress, Fallible.bind_eq_ok_iff, Fallible.pure_eq_ok_iff,
    Numeral.bounded_eq_ok_iff hbase.1 hbase.2, addressNotation_iff]
  constructor
  · rintro ⟨n, ⟨hn, hlimit⟩, rfl⟩
    rwa [UInt16.toNat_ofNat_of_lt' (Nat.lt_succ_of_le hlimit)]
  · intro h
    exact ⟨w.toNat, ⟨h, by omega⟩, UInt16.ofNat_toNat⟩

/-- **The addresses that are read** are the numbers in one of the notations that fit in a word, and
every other text is refused. An address in capital hexadecimal digits after a dollar sign is read
back, with as many leading zeros as there may be. -/
theorem readAddress_exact :
    (∀ (text : Text) (w : Word), readAddress text = .ok w ↔ AddressNotation text w.toNat) ∧
      (∀ text : Text, (∃ e, readAddress text = .error e) ↔
        ∀ n, AddressNotation text n → 65535 < n) ∧
      ∀ (w : Word) (width : Nat), 0 < width → w.toNat < 16 ^ width →
        readAddress ('$' :: Numeral.fixed 16 width w.toNat) = .ok w := by
  refine ⟨fun _ _ => readAddress_eq_ok_iff, fun text => ⟨?_, fun h => ?_⟩, ?_⟩
  · rintro ⟨e, he⟩ n hn
    refine Nat.lt_of_not_le fun hlimit => ?_
    have hword : (UInt16.ofNat n).toNat = n :=
      UInt16.toNat_ofNat_of_lt' (Nat.lt_succ_of_le hlimit)
    have hok : readAddress text = .ok (UInt16.ofNat n) :=
      readAddress_eq_ok_iff.2 (hword.symm ▸ hn)
    exact nomatch he.symm.trans hok
  · cases hread : readAddress text with
    | error e => exact ⟨e, rfl⟩
    | ok w =>
      have hw := h _ (readAddress_eq_ok_iff.1 hread)
      have hlt : w.toNat < 65536 := w.toNat_lt
      omega
  · intro w width hwidth hw
    refine readAddress_eq_ok_iff.2 (.dollar (.bare (Numeral.fixed_ne_nil hwidth) ?_))
    rw [← Numeral.naturalFrom?_eq_some_iff (by decide), Numeral.naturalFrom?_fixed (by decide)
      (by decide), Nat.mul_zero, Nat.zero_add, Nat.mod_eq_of_lt hw]

/-- A sign after the prefix, leading zeros and digits in either case, a number that is one too
large, and the last of all addresses. -/
theorem readAddress_exact_at_limit :
    AddressNotation "0x+0fF".toList 255 ∧ readAddress "0x+0fF".toList = .ok 255 ∧
      (∀ n, AddressNotation "65536".toList n → 65535 < n) ∧
      0xFFFF < 16 ^ 4 ∧ readAddress "$FFFF".toList = .ok 0xFFFF := by
  have hdigits : Numeral.Digits 16 ((([] ++ ['0']) ++ ['f']) ++ ['F']) 255 :=
    .concat (n := 15) (d := 15) (.concat (n := 0) (d := 15)
      (.concat (n := 0) (d := 0) .nil (by decide) (by decide)) (by decide) (by decide))
      (by decide) (by decide)
  have hwritten : AddressNotation "0x+0fF".toList 255 := .zeroX (.plus (by decide) hdigits)
  refine ⟨hwritten, (readAddress_exact.1 _ 255).2 hwritten, ?_, by decide, ?_⟩
  · exact (readAddress_exact.2.1 _).1 ⟨.tooLarge, by decide⟩
  · exact readAddress_exact.2.2 0xFFFF 4 (by decide) (by decide)

end EightBit
