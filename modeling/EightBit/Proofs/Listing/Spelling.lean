import EightBit.Listing
import EightBit.Proofs.Source.Designation

/-!
# Spelling out a designation

A designation that has been decoded can be written down again. This file gives each
designation its words (`EightBit.Designation.words`) and each mnemonic with a
designation its line (`EightBit.Designation.line`), and shows that the assembler reads
the line as what it was written for (`EightBit.Designation.assembleLine_line`).

Two things make that work, and both are about characters. No character of the line
can be taken for a quote, a comment or a separator, so that the line falls apart into
just those words; and each word has the shape of the one rule of
`EightBit.Designates` that it was written by. Nothing depends on the choice of marks,
as long as they are clear: a listing is one such spelling, with the customary marks
(`EightBit.Triple.listing_eq_ok_iff`).
-/

namespace EightBit

/-! ### Characters -/

/-- A character that does nothing on a line but stand for itself. -/
def Punctuation.Inert (p : Punctuation) (c : Char) : Prop :=
  isPlain c = true ∧ c ≠ p.comment

/-- Capital letters, small letters and digits, by their codes. -/
theorem toNat_of_isAlphanum {c : Char} (h : c.isAlphanum = true) :
    48 ≤ c.toNat ∧ c.toNat ≤ 57 ∨ 65 ≤ c.toNat ∧ c.toNat ≤ 122 := by
  change (decide ('A'.val ≤ c.val ∧ c.val ≤ 'Z'.val) ||
    decide ('a'.val ≤ c.val) && decide (c.val ≤ 'z'.val) ||
    decide ('0'.val ≤ c.val) && decide (c.val ≤ '9'.val)) = true at h
  simp only [Bool.or_eq_true, Bool.and_eq_true, decide_eq_true_eq, UInt32.le_iff_toNat_le] at h
  have hvals : 'A'.val.toNat = 65 ∧ 'Z'.val.toNat = 90 ∧ 'a'.val.toNat = 97 ∧
      'z'.val.toNat = 122 ∧ '0'.val.toNat = 48 ∧ '9'.val.toNat = 57 := by decide
  rw [Char.toNat]
  omega

/-- Letters and digits are plain. -/
theorem isPlain_of_isAlphanum {c : Char} (h : c.isAlphanum = true) : isPlain c = true := by
  have hrange := toNat_of_isAlphanum h
  have hseparator : isSeparator c = false := by
    simp only [isSeparator, isBlank, Bool.or_eq_false_iff, decide_eq_false_iff_not,
      beq_eq_false_iff_ne, ne_eq]
    refine ⟨by omega, ?_⟩
    rintro rfl
    exact absurd hrange (by decide)
  have hquote : (c != quoteMark) = true := by
    rw [bne_iff_ne]
    rintro rfl
    exact absurd hrange (by decide)
  rw [isPlain, hseparator, hquote]
  rfl

namespace Punctuation

variable {p : Punctuation}

theorem Clear.inert_of_isAlphanum (hp : p.Clear) {c : Char} (h : c.isAlphanum = true) :
    p.Inert c := by
  refine ⟨isPlain_of_isAlphanum h, ?_⟩
  rintro rfl
  rw [Char.isAlphanum, hp.comment_not_letter, Bool.false_or,
    hp.not_digit p.comment List.mem_cons_self] at h
  exact nomatch h

theorem Clear.inert_of_isDigit (hp : p.Clear) {c : Char} (h : c.isDigit = true) : p.Inert c :=
  hp.inert_of_isAlphanum (by rw [Char.isAlphanum, h, Bool.or_true])

theorem Clear.inert_of_bracket_or_sign (hp : p.Clear) {c : Char} (h : c ∈ ['(', ')', '+', '-']) :
    p.Inert c := by
  have hplain : ∀ c ∈ ['(', ')', '+', '-'], EightBit.isPlain c :=
    forall_mem_of_all (by decide)
  refine ⟨hplain c h, ?_⟩
  rintro rfl
  exact hp.not_bracket_or_sign p.comment List.mem_cons_self h

theorem Clear.inert_immediate (hp : p.Clear) : p.Inert p.immediate := by
  refine ⟨hp.isPlain _ p.immediate_mem_marks, fun h => ?_⟩
  have hnodup := hp.nodup
  simp [marks, h] at hnodup

theorem Clear.inert_hex (hp : p.Clear) : p.Inert p.hex := by
  refine ⟨hp.isPlain _ p.hex_mem_marks, fun h => ?_⟩
  have hnodup := hp.nodup
  simp [marks, h] at hnodup

theorem Clear.hex_ne_immediate (hp : p.Clear) : p.hex ≠ p.immediate := by
  intro h
  have hnodup := hp.nodup
  simp [marks, h] at hnodup

/-- A mark opens no parenthesis. -/
theorem Clear.ne_paren (hp : p.Clear) {c : Char} (h : c ∈ p.marks) : c ≠ '(' := by
  rintro rfl
  exact hp.not_bracket_or_sign _ h (by decide)

end Punctuation

/-- Only what starts with a parenthesis is in parentheses. -/
theorem not_parenthesized_cons {c : Char} (h : c ≠ '(') (rest : Text) :
    ¬Parenthesized (c :: rest) := by
  rintro ⟨inner, hinner⟩
  exact h (List.cons.inj hinner).1

/-! ### Names -/

theorem Register.ofText?_name (r : Register) : ofText? r.name = some r := by
  cases r <;> decide

/-- The name of a register is a single character. -/
theorem Register.length_of_ofText? {text : Text} {r : Register} (h : ofText? text = some r) :
    text.length = 1 := by
  have hlength := congrArg List.length (ofText?_eq_some_iff.1 h)
  rwa [List.length_map] at hlength

theorem Register.isAlphanum_of_mem_name {r : Register} {c : Char} (h : c ∈ r.name) :
    c.isAlphanum = true := by
  obtain rfl := List.mem_singleton.1 h
  cases r <;> decide

theorem Mnemonic.isAlphanum_of_mem_text {mnemonic : Mnemonic} {c : Char}
    (h : c ∈ mnemonic.text) : c.isAlphanum = true := by
  have hall : ∀ c ∈ mnemonic.text, c.isAlphanum = true :=
    forall_mem_of_all (by cases mnemonic <;> decide)
  exact hall c h

theorem Mnemonic.text_ne_nil (mnemonic : Mnemonic) : mnemonic.text ≠ [] := by
  cases mnemonic <;> decide

/-- No mnemonic has both of the modes that are written without an operand. -/
theorem Mnemonic.not_implicit_of_accumulator {mnemonic : Mnemonic}
    (h : mnemonic.hasMode .accumulator = true) : mnemonic.hasMode .implicit = false := by
  revert h
  cases mnemonic <;> decide

/-! ### Words for a designation -/

namespace Designation

/-- A base in the first page: two digits, or four if the high byte is to be kept. -/
def baseWord (p : Punctuation) (base : Word) : Text :=
  if base.high = 0 then p.hex :: Numeral.hexByte base.low else p.hex :: Numeral.hexWord base

/-- **The words for a designation.** -/
def words (p : Punctuation) : Designation → List Text
  | nothing | accumulator => []
  | value v => [p.immediate :: p.hex :: Numeral.hexByte v]
  | cell address => [p.hex :: Numeral.hexWord address]
  | pointer address => ['(' :: (p.hex :: Numeral.hexWord address) ++ [')']]
  | distance d => [Numeral.decimal d.signed]
  | registers source target => [source.name, target.name]
  | indexedW base => [baseWord p base, Register.w.name]
  | indexedX base => [baseWord p base, Register.x.name]

/-- Operands as they stand on a line: a space in front of the first one, and a comma
and a space between any two. -/
def spell : List Text → Text
  | [] => []
  | operands => ' ' :: [',', ' '].intercalate operands

/-- **The line for a mnemonic and a designation.** -/
def line (p : Punctuation) (mnemonic : Mnemonic) (d : Designation) : Text :=
  mnemonic.text ++ spell (d.words p)

theorem spell_singleton (operand : Text) : spell [operand] = ' ' :: operand := by
  rw [spell, List.intercalate_singleton]
  exact List.cons_ne_nil operand []

theorem spell_pair (first second : Text) :
    spell [first, second] = ' ' :: first ++ [',', ' '] ++ second := by
  rw [spell, List.intercalate_cons_cons, List.intercalate_singleton]
  · rfl
  · exact List.cons_ne_nil first [second]

variable {p : Punctuation}

/-- The word for a base says what the base is. -/
theorem ofText?_baseWord (hp : p.Clear) (base : Word) :
    ∃ l, Literal.ofText? p (baseWord p base) = some l ∧ l.value = base := by
  rw [baseWord]
  split
  · rename_i h
    refine ⟨_, Literal.ofText?_hexByte hp base.low, ?_⟩
    rw [Literal.value, ← h, Word.ofBytes_high_low]
  · exact ⟨_, Literal.ofText?_hexWord hp base, rfl⟩

/-- The word for a base is no name of a register: it has at least three characters. -/
theorem ofText?_baseWord_eq_none (p : Punctuation) (base : Word) :
    Register.ofText? (baseWord p base) = none := by
  cases h : Register.ofText? (baseWord p base) with
  | none => rfl
  | some r =>
    have hlength := Register.length_of_ofText? h
    rw [baseWord] at hlength
    split at hlength <;>
      simp [Numeral.hexByte, Numeral.hexWord, Numeral.length_fixed] at hlength

/-- **The words for a designation designate it**, for any mnemonic that has its mode. -/
theorem designates_words (hp : p.Clear) {mnemonic : Mnemonic} {d : Designation}
    (h : mnemonic.hasMode d.operands.mode = true) : Designates p mnemonic (d.words p) d := by
  have himmediate := p.immediate_mem_marks
  have hhex := p.hex_mem_marks
  cases d with
  | nothing => exact .nothing h
  | accumulator => exact .accumulator (Mnemonic.not_implicit_of_accumulator h)
  | value v =>
    exact .value (not_parenthesized_cons (hp.ne_paren himmediate) _) (Literal.ofText?_hexByte hp v)
  | cell address =>
    exact .cell (l := .word address) (not_parenthesized_cons (hp.ne_paren hhex) _)
      (after?_cons_of_ne hp.hex_ne_immediate _) (fun _ d hd => by cases hd)
      (Literal.ofText?_hexWord hp address)
  | pointer address => exact .pointer (Literal.ofText?_hexWord hp address)
  | distance d =>
    -- A decimal number starts with a sign or a digit, so there is no mark to be seen.
    obtain ⟨c, rest, hcons, hc, -⟩ := Numeral.decimal_eq_cons d.signed
    have hparen : c ≠ '(' := by
      rintro rfl
      exact hc.elim (by decide) (by decide)
    refine .distance ?_ ?_ h (Literal.ofText?_decimal hp d)
    · rw [hcons]
      exact not_parenthesized_cons hparen rest
    · rw [hcons]
      exact after?_cons_of_ne (Literal.ne_mark hp hc himmediate) rest
  | registers source target =>
    exact .registers (Register.ofText?_name source) (Register.ofText?_name target) (Or.inl h)
  | indexedW base =>
    obtain ⟨l, hl, rfl⟩ := ofText?_baseWord hp base
    exact .indexedW (Register.ofText?_name .w) (Or.inl (ofText?_baseWord_eq_none p _)) hl
  | indexedX base =>
    obtain ⟨l, hl, rfl⟩ := ofText?_baseWord hp base
    exact .indexedX (Register.ofText?_name .x) (Or.inl (ofText?_baseWord_eq_none p _)) hl

/-! ### The line falls apart into its words -/

theorem mem_hexByte {b : Byte} {c : Char} (h : c ∈ Numeral.hexByte b) : c.isAlphanum = true :=
  Numeral.isAlphanum_of_mem_fixed (by decide) (by decide) h

theorem mem_hexWord {w : Word} {c : Char} (h : c ∈ Numeral.hexWord w) : c.isAlphanum = true :=
  Numeral.isAlphanum_of_mem_fixed (by decide) (by decide) h

theorem inert_of_mem_hexWord (hp : p.Clear) {w : Word} {c : Char}
    (h : c ∈ p.hex :: Numeral.hexWord w) : p.Inert c := by
  rcases List.mem_cons.1 h with rfl | h
  · exact hp.inert_hex
  · exact hp.inert_of_isAlphanum (mem_hexWord h)

theorem inert_of_mem_hexByte (hp : p.Clear) {b : Byte} {c : Char}
    (h : c ∈ p.hex :: Numeral.hexByte b) : p.Inert c := by
  rcases List.mem_cons.1 h with rfl | h
  · exact hp.inert_hex
  · exact hp.inert_of_isAlphanum (mem_hexByte h)

theorem inert_of_mem_baseWord (hp : p.Clear) {base : Word} {c : Char}
    (h : c ∈ baseWord p base) : p.Inert c := by
  rw [baseWord] at h
  split at h
  · exact inert_of_mem_hexByte hp h
  · exact inert_of_mem_hexWord hp h

theorem inert_of_mem_name (hp : p.Clear) {r : Register} {c : Char} (h : c ∈ r.name) :
    p.Inert c :=
  hp.inert_of_isAlphanum (Register.isAlphanum_of_mem_name h)

/-- **Every character of a word for a designation is inert.** -/
theorem inert_of_mem_words (hp : p.Clear) {d : Designation} {word : Text} (hword : word ∈ d.words p)
    {c : Char} (h : c ∈ word) : p.Inert c := by
  cases d with
  | nothing | accumulator => exact nomatch hword
  | value v =>
    obtain rfl := List.mem_singleton.1 hword
    rcases List.mem_cons.1 h with rfl | h
    · exact hp.inert_immediate
    · exact inert_of_mem_hexByte hp h
  | cell address =>
    obtain rfl := List.mem_singleton.1 hword
    exact inert_of_mem_hexWord hp h
  | pointer address =>
    obtain rfl := List.mem_singleton.1 hword
    rcases List.mem_append.1 h with h | h
    · rcases List.mem_cons.1 h with rfl | h
      · exact hp.inert_of_bracket_or_sign (by decide)
      · exact inert_of_mem_hexWord hp h
    · obtain rfl := List.mem_singleton.1 h
      exact hp.inert_of_bracket_or_sign (by decide)
  | distance d =>
    obtain rfl := List.mem_singleton.1 hword
    obtain ⟨c', rest, hcons, hc', hrest⟩ := Numeral.decimal_eq_cons d.signed
    rw [hcons] at h
    rcases List.mem_cons.1 h with rfl | h
    · rcases hc' with rfl | hc'
      · exact hp.inert_of_bracket_or_sign (by decide)
      · exact hp.inert_of_isDigit hc'
    · exact hp.inert_of_isDigit (hrest c h)
  | registers source target =>
    simp only [words, List.mem_cons, List.not_mem_nil, or_false] at hword
    rcases hword with rfl | rfl
    · exact inert_of_mem_name hp h
    · exact inert_of_mem_name hp h
  | indexedW base | indexedX base =>
    simp only [words, List.mem_cons, List.not_mem_nil, or_false] at hword
    rcases hword with rfl | rfl
    · exact inert_of_mem_baseWord hp h
    · exact inert_of_mem_name hp h

theorem ne_nil_of_mem_words {d : Designation} {word : Text} (h : word ∈ d.words p) :
    word ≠ [] := by
  have hbase : ∀ base, baseWord p base ≠ [] := by
    intro base
    rw [baseWord]
    split <;> exact List.cons_ne_nil _ _
  have hname : ∀ r : Register, r.name ≠ [] := fun r => List.cons_ne_nil _ _
  have hdecimal : ∀ i, Numeral.decimal i ≠ [] := by
    intro i
    obtain ⟨c, rest, hcons, -⟩ := Numeral.decimal_eq_cons i
    rw [hcons]
    exact List.cons_ne_nil c rest
  cases d with
  | nothing | accumulator => exact nomatch h
  | value v | cell address | pointer address =>
    obtain rfl := List.mem_singleton.1 h
    exact List.cons_ne_nil _ _
  | distance d =>
    obtain rfl := List.mem_singleton.1 h
    exact hdecimal d.signed
  | registers source target =>
    simp only [words, List.mem_cons, List.not_mem_nil, or_false] at h
    rcases h with rfl | rfl
    · exact hname source
    · exact hname target
  | indexedW base | indexedX base =>
    simp only [words, List.mem_cons, List.not_mem_nil, or_false] at h
    rcases h with rfl | rfl
    · exact hbase base
    · exact hname _

theorem isWord_of_mem_words (hp : p.Clear) {d : Designation} {word : Text}
    (h : word ∈ d.words p) : IsWord word :=
  ⟨ne_nil_of_mem_words h, fun _ hc => (inert_of_mem_words hp h hc).1⟩

theorem isWord_mnemonic (mnemonic : Mnemonic) : IsWord mnemonic.text :=
  ⟨mnemonic.text_ne_nil, fun _ hc => isPlain_of_isAlphanum (Mnemonic.isAlphanum_of_mem_text hc)⟩

/-- Words with a comma and a space between any two are spaced. -/
theorem spaced_intercalate {ws : List Text} (h : ∀ w ∈ ws, IsWord w) :
    Spaced ws ([',', ' '].intercalate ws) := by
  induction ws with
  | nil => exact .gap isGap_nil
  | cons w ws ih =>
    have hw : IsWord w := h w List.mem_cons_self
    have hws : Spaced ws ([',', ' '].intercalate ws) :=
      ih fun v hv => h v (List.mem_cons_of_mem w hv)
    cases ws with
    | nil =>
      simpa using Spaced.word isGap_nil hw isBoundary_nil (.gap isGap_nil)
    | cons v ws =>
      have hgap : IsGap [',', ' '] := forall_mem_of_all (by decide)
      have hrest := hws.gap_append hgap
      rw [List.intercalate_cons_cons, List.append_assoc]
      exact Spaced.word isGap_nil hw (isBoundary_cons (by decide)) hrest

/-- Operands as they stand on a line are spaced, and something may stand in front of
them. -/
theorem spaced_spell {ws : List Text} (h : ∀ w ∈ ws, IsWord w) :
    Spaced ws (spell ws) ∧ IsBoundary (spell ws) := by
  cases ws with
  | nil => exact ⟨.gap isGap_nil, isBoundary_nil⟩
  | cons w ws =>
    have hgap : IsGap [' '] := forall_mem_of_all (by decide)
    exact ⟨(spaced_intercalate h).gap_append hgap, isBoundary_cons (by decide)⟩

/-- On a line there is nothing but words, commas and spaces. -/
theorem mem_spell {ws : List Text} {c : Char} (h : c ∈ spell ws) :
    c = ' ' ∨ c = ',' ∨ ∃ w ∈ ws, c ∈ w := by
  -- Past the space in front, the induction goes along the words.
  have hintercalate : ∀ ws : List Text, c ∈ [',', ' '].intercalate ws →
      c = ' ' ∨ c = ',' ∨ ∃ w ∈ ws, c ∈ w := by
    intro ws hc
    induction ws with
    | nil => exact nomatch hc
    | cons w ws ih =>
      cases ws with
      | nil =>
        rw [List.intercalate_singleton] at hc
        exact Or.inr (Or.inr ⟨w, List.mem_cons_self, hc⟩)
      | cons v ws =>
        rw [List.intercalate_cons_cons, List.mem_append, List.mem_append] at hc
        rcases hc with (hc | hc) | hc
        · exact Or.inr (Or.inr ⟨w, List.mem_cons_self, hc⟩)
        · simp only [List.mem_cons, List.not_mem_nil, or_false] at hc
          exact hc.elim (fun hc => Or.inr (Or.inl hc)) Or.inl
        · refine (ih hc).imp_right (Or.imp_right ?_)
          rintro ⟨u, hu, hcu⟩
          exact ⟨u, List.mem_cons_of_mem w hu, hcu⟩
  cases ws with
  | nil => exact nomatch h
  | cons w ws =>
    rcases List.mem_cons.1 h with rfl | h
    · exact Or.inl rfl
    · exact hintercalate _ h

/-- What stands on the line for a designation: a space, a comma, or an inert
character. -/
theorem mem_line (hp : p.Clear) {mnemonic : Mnemonic} {d : Designation} {c : Char}
    (h : c ∈ d.line p mnemonic) : c = ' ' ∨ c = ',' ∨ p.Inert c := by
  rcases List.mem_append.1 h with h | h
  · exact Or.inr (Or.inr (hp.inert_of_isAlphanum (Mnemonic.isAlphanum_of_mem_text h)))
  · refine (mem_spell h).imp_right (Or.imp_right ?_)
    rintro ⟨word, hword, hc⟩
    exact inert_of_mem_words hp hword hc

/-- No character on the line for a designation is a quote or the mark of a comment. -/
theorem unmarked_line (hp : p.Clear) (mnemonic : Mnemonic) (d : Designation) :
    ∀ c ∈ d.line p mnemonic, c ≠ quoteMark ∧ c ≠ p.comment := by
  intro c hc
  have hcomment : isPlain p.comment := hp.isPlain _ p.comment_mem_marks
  rcases mem_line hp hc with rfl | rfl | hc
  · exact ⟨by decide, fun h => absurd (h ▸ hcomment) (by decide)⟩
  · exact ⟨by decide, fun h => absurd (h ▸ hcomment) (by decide)⟩
  · exact ⟨ne_quoteMark_of_isPlain hc.1, hc.2⟩

/-- The line for a designation is all code. -/
theorem code_line (hp : p.Clear) (mnemonic : Mnemonic) (d : Designation) :
    code p.comment (d.line p mnemonic) = d.line p mnemonic :=
  code_of_unmarked (unmarked_line hp mnemonic d)

/-- The tokens of the line for a designation. -/
theorem tokens_line (hp : p.Clear) (mnemonic : Mnemonic) (d : Designation) :
    tokens (d.line p mnemonic) = mnemonic.text :: d.words p := by
  obtain ⟨hspaced, hboundary⟩ := spaced_spell fun w hw => isWord_of_mem_words hp (d := d) hw
  exact (Spaced.word isGap_nil (isWord_mnemonic mnemonic) hboundary hspaced).tokens_eq

/-- The line for a designation can stand on a line of its own. -/
theorem isLine_line (hp : p.Clear) (mnemonic : Mnemonic) (d : Designation) :
    IsLine (d.line p mnemonic) where
  ne_nil := fun h => mnemonic.text_ne_nil (List.append_eq_nil_iff.1 h).1
  lineFeed := fun h => (mem_line hp h).elim (by decide) fun h =>
    h.elim (by decide) fun h => absurd h.1 (by decide)
  carriageReturn := fun h => (mem_line hp h).elim (by decide) fun h =>
    h.elim (by decide) fun h => absurd h.1 (by decide)

/-- **The assembler reads the line for a designation as what it was written for.** -/
theorem assembleLine_line (hp : p.Clear) {t : Triple} {mnemonic : Mnemonic} {d : Designation}
    (h : t.Encodes mnemonic d) : assembleLine p (d.line p mnemonic) = .ok (some t) :=
  assembleLine_eq_ok_some_iff.2 ⟨mnemonic.text, d.words p, mnemonic, d,
    by rw [code_line hp, tokens_line hp], Mnemonic.ofText?_text mnemonic,
    designates_words hp (hasMode_of_ofOpcode? h.opcode), h⟩

end Designation

end EightBit
