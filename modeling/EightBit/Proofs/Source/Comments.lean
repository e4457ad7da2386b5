import EightBit.Proofs.Source.Program
import EightBit.Proofs.Listing.Spelling
import Mathlib.Algebra.Ring.Parity

/-!
# Comments

A comment put after a line should leave the line alone, and it does so if no quote is open where
the comment begins (`EightBit.code_append_comment`). The mark of a comment is not looked for
inside quotes, however, and nothing obliges a quote to be closed: a character may be written with
a quote in front of it and none behind. After such a line there is no comment. What was meant
for one is read on as a part of the last operand, up to where a quote closes it.

So the matter is decided by whether the line leaves a quote open (`EightBit.LeavesQuoteOpen`).
Where it does, the open quote is in its last token, which goes on with whatever comes after the
line (`EightBit.tokens_append_of_leavesQuoteOpen`). If the line is assembled at all, that token is
its only operand, since neither a mnemonic nor an index register has a quote in its name; and a
longer literal is still the code of the same character
(`EightBit.Literal.ofText?_append_of_mem`). Two things can go wrong all the same. The operand may
gain or lose its parentheses, and there may be more tokens after it
(`EightBit.assemble_commented`).
-/

namespace EightBit

/-- **A text leaves a quote open** if the number of quotes in it is odd. -/
def LeavesQuoteOpen (text : Text) : Prop :=
  Odd (text.count quoteMark)

instance (text : Text) : Decidable (LeavesQuoteOpen text) :=
  inferInstanceAs (Decidable (Odd _))

/-! ### The code of a line with something after it -/

section Code

variable {comment : Char} {line : Text}

/-- **From a point where a quote is open or not**, a comment is taken off what follows if all
quotes are closed before it, and nothing at all is taken off if one is open at the end. -/
theorem codeFrom_append (hcomment : comment ≠ quoteMark) (quoted : Bool) (line rest : Text) :
    (Even ((codeFrom comment quoted line).count quoteMark + quoted.toNat) →
      codeFrom comment quoted (line ++ comment :: rest) = codeFrom comment quoted line) ∧
    (Odd ((codeFrom comment quoted line).count quoteMark + quoted.toNat) →
      codeFrom comment quoted line = line ∧
        codeFrom comment quoted (line ++ rest) = line ++ codeFrom comment true rest) := by
  induction line generalizing quoted with
  | nil =>
    cases quoted with
    | false => simp [codeFrom, hcomment]
    | true => simp [codeFrom]
  | cons c line ih =>
    simp only [List.cons_append, codeFrom]
    by_cases hquote : c = quoteMark
    · -- The quote counts for one more, and so does the other state.
      have hparity : ∀ n, Even (n + 1 + quoted.toNat) ↔ Even (n + (!quoted).toNat) := by
        intro n
        cases quoted <;> simp [Nat.even_add_one, parity_simps]
      obtain ⟨heven, hodd⟩ := ih !quoted
      rw [if_pos hquote, if_pos hquote, if_pos hquote, hquote, List.count_cons_self]
      constructor
      · intro h
        rw [heven ((hparity _).1 h)]
      · intro h
        rw [← Nat.not_even_iff_odd, hparity, Nat.not_even_iff_odd] at h
        obtain ⟨hline, hrest⟩ := hodd h
        exact ⟨by rw [hline], by rw [hrest]⟩
    · simp only [if_neg hquote]
      by_cases hmark : c = comment ∧ quoted = false
      · simp [hmark]
      · simp only [if_neg hmark, List.count_cons_of_ne hquote]
        obtain ⟨heven, hodd⟩ := ih quoted
        constructor
        · intro h
          rw [heven h]
        · intro h
          obtain ⟨hline, hrest⟩ := hodd h
          exact ⟨by rw [hline], by rw [hrest]⟩

/-- **A comment is no part of the code** if no quote is open in front of it. -/
theorem code_append_comment (hcomment : comment ≠ quoteMark)
    (h : ¬LeavesQuoteOpen (code comment line)) (rest : Text) :
    code comment (line ++ comment :: rest) = code comment line := by
  rw [LeavesQuoteOpen, Nat.not_odd_iff_even] at h
  exact (codeFrom_append hcomment false line rest).1 h

/-- **With a quote open there is no comment**: the line is all code, and the code goes on. -/
theorem code_append_of_leavesQuoteOpen (hcomment : comment ≠ quoteMark)
    (h : LeavesQuoteOpen (code comment line)) (rest : Text) :
    code comment line = line ∧ code comment (line ++ rest) = line ++ codeFrom comment true rest :=
  (codeFrom_append hcomment false line rest).2 h

end Code

/-! ### The token in which a quote is open -/

theorem finishToken_append (current : Text) (first second : List Text) :
    finishToken current (first ++ second) = finishToken current first ++ second := by
  cases current <;> rfl

/-- A quote keeps no tokens apart. -/
theorem isSeparator_quoteMark : isSeparator quoteMark = false := by decide

/-- **The tokens of a text that leaves a quote open** are some tokens that are finished, and one
that is not. The induction carries the state of the scanner: if a quote is open, it is in the
current token. -/
theorem tokensFrom_append_of_odd {quoted : Bool} {current text : Text}
    (h : Odd (text.count quoteMark + quoted.toNat))
    (hcurrent : quoted = true → quoteMark ∈ current) :
    ∃ (before : List Text) (last : Text), quoteMark ∈ last ∧
      ∀ rest, tokensFrom quoted current (text ++ rest) =
        before ++ tokensFrom true last.reverse rest := by
  induction text generalizing quoted current with
  | nil =>
    have hquoted : quoted = true := by
      cases quoted <;> simp_all
    subst hquoted
    exact ⟨[], current.reverse, List.mem_reverse.2 (hcurrent rfl), fun rest => by simp⟩
  | cons c text ih =>
    by_cases hseparator : isSeparator c ∧ quoted = false
    · obtain ⟨hc, rfl⟩ := hseparator
      have hne : c ≠ quoteMark := by
        rintro rfl
        exact Bool.noConfusion (hc.symm.trans isSeparator_quoteMark)
      rw [List.count_cons_of_ne hne] at h
      obtain ⟨before, last, hlast, htokens⟩ := @ih false [] h nofun
      refine ⟨finishToken current before, last, hlast, fun rest => ?_⟩
      rw [List.cons_append, tokensFrom, if_pos ⟨hc, rfl⟩, htokens, finishToken_append]
    · have hstate : Odd (text.count quoteMark + (quoted != (c == quoteMark)).toNat) := by
        by_cases hc : c = quoteMark
        · subst hc
          rw [List.count_cons_self] at h
          cases quoted <;> simp_all [parity_simps]
        · rw [List.count_cons_of_ne hc] at h
          rwa [beq_false_of_ne hc, Bool.bne_false]
      have hmem : (quoted != (c == quoteMark)) = true → quoteMark ∈ c :: current := by
        intro hopen
        by_cases hc : c = quoteMark
        · exact List.mem_cons.2 (Or.inl hc.symm)
        · rw [beq_false_of_ne hc, Bool.bne_false] at hopen
          exact List.mem_cons_of_mem c (hcurrent hopen)
      obtain ⟨before, last, hlast, htokens⟩ := ih hstate hmem
      refine ⟨before, last, hlast, fun rest => ?_⟩
      rw [List.cons_append, tokensFrom, if_neg hseparator, htokens]

/-- A token that has been begun is the first of those that follow. -/
theorem tokensFrom_of_ne_nil {current : Text} (h : current ≠ []) (quoted : Bool) (text : Text) :
    ∃ more extra, tokensFrom quoted current text = (current.reverse ++ more) :: extra := by
  induction text generalizing quoted current with
  | nil => exact ⟨[], [], by rw [tokensFrom, finishToken_of_ne_nil h, List.append_nil]⟩
  | cons c text ih =>
    by_cases hseparator : isSeparator c ∧ quoted = false
    · refine ⟨[], tokensFrom quoted [] text, ?_⟩
      rw [tokensFrom, if_pos hseparator, finishToken_of_ne_nil h, List.append_nil]
    · obtain ⟨more, extra, htokens⟩ := @ih (c :: current) (List.cons_ne_nil c current) _
      refine ⟨c :: more, extra, ?_⟩
      rw [tokensFrom, if_neg hseparator, htokens, List.reverse_cons, List.append_assoc]
      rfl

/-- **Where a quote is left open**, it is in the last token, and that token goes on with what
comes after the line, be it the mark of a comment. -/
theorem tokens_append_of_leavesQuoteOpen {comment : Char} (hcomment : comment ≠ quoteMark)
    {line : Text} (h : LeavesQuoteOpen (code comment line)) :
    ∃ before last, quoteMark ∈ last ∧ tokens (code comment line) = before ++ [last] ∧
      ∀ rest, ∃ more extra, tokens (code comment (line ++ comment :: rest)) =
        before ++ (last ++ comment :: more) :: extra := by
  have hline : code comment line = line := (code_append_of_leavesQuoteOpen hcomment h []).1
  have hodd : Odd (line.count quoteMark + false.toNat) := hline ▸ h
  obtain ⟨before, last, hlast, htokens⟩ := @tokensFrom_append_of_odd false [] line hodd nofun
  refine ⟨before, last, hlast, ?_, fun rest => ?_⟩
  · have hnil : last.reverse ≠ [] :=
      List.reverse_ne_nil_iff.2 (List.ne_nil_of_mem hlast)
    have hend := htokens []
    rw [tokensFrom, finishToken_of_ne_nil hnil, List.reverse_reverse, List.append_nil] at hend
    rw [hline, tokens, hend]
  · have hrest : codeFrom comment true (comment :: rest) =
        comment :: codeFrom comment true rest := by
      simp [codeFrom, hcomment]
    obtain ⟨more, extra, hgoes⟩ := tokensFrom_of_ne_nil
      (List.cons_ne_nil comment last.reverse) true (codeFrom comment true rest)
    refine ⟨more, extra, ?_⟩
    rw [(code_append_of_leavesQuoteOpen hcomment h _).2, hrest, tokens, htokens, tokensFrom,
      if_neg (by simp), beq_false_of_ne hcomment, Bool.bne_false, hgoes, List.reverse_cons,
      List.reverse_reverse, List.append_assoc]
    rfl

/-! ### Literals with a quote in them -/

namespace Numeral

/-- A quote is a digit of no base. -/
theorem digitValue?_quoteMark (base : Nat) : digitValue? base quoteMark = none := by
  have h : quoteMark.isDigit = false ∧ ¬('a' ≤ quoteMark ∧ quoteMark ≤ 'f') ∧
      ¬('A' ≤ quoteMark ∧ quoteMark ≤ 'F') := by decide
  simp [digitValue?, h]

theorem naturalFrom?_of_mem {base value : Nat} {text : Text} (h : quoteMark ∈ text) :
    naturalFrom? base value text = none := by
  induction text generalizing value with
  | nil => exact absurd h List.not_mem_nil
  | cons c text ih =>
    rw [naturalFrom?]
    cases hdigit : digitValue? base c with
    | none => rfl
    | some d =>
      have hrest : quoteMark ∈ text := by
        rcases List.mem_cons.1 h with rfl | h
        · rw [digitValue?_quoteMark] at hdigit
          exact absurd hdigit.symm (Option.some_ne_none d)
        · exact h
      exact ih hrest

/-- **With a quote in it, a text is no number.** -/
theorem natural?_of_mem {base : Nat} {text : Text} (h : quoteMark ∈ text) :
    natural? base text = none := by
  rw [natural?_eq (List.ne_nil_of_mem h), naturalFrom?_of_mem h]

theorem integer?_of_mem {text : Text} (h : quoteMark ∈ text) : integer? text = none := by
  have hsign : ∀ {sign : Char} {digits : Text}, sign ≠ quoteMark → quoteMark ∈ sign :: digits →
      natural? 10 digits = none := fun hne hmem =>
    natural?_of_mem ((List.mem_cons.1 hmem).resolve_left fun hsign => hne hsign.symm)
  rw [integer?.eq_def]
  split
  · rw [hsign (by decide) h]
    rfl
  · rw [hsign (by decide) h]
    rfl
  · rw [natural?_of_mem h]
    rfl

end Numeral

namespace Literal

variable {p : Punctuation}

theorem ofDigits?_of_mem {base byteDigits : Nat} {digits : Text} (h : quoteMark ∈ digits) :
    ofDigits? base byteDigits digits = none := by
  rw [ofDigits?, Numeral.natural?_of_mem h]
  rfl

/-- **With a quote in it, a text is a literal only by its first character**, and not even that
if this is the mark of a base. -/
theorem ofText?_of_mem (hp : p.Clear) {c : Char} {rest : Text} (h : quoteMark ∈ c :: rest) :
    ofText? p (c :: rest) =
      if c = p.binary ∨ c = p.hex then none else ofCharacter? (unquote (c :: rest)) := by
  have hmark : ∀ {d}, d ∈ p.marks → c = d → quoteMark ∈ rest := by
    rintro d hd rfl
    refine (List.mem_cons.1 h).resolve_left fun heq => ?_
    exact ne_quoteMark_of_isPlain (hp.isPlain c hd) heq.symm
  have hdecimal : decimal? (c :: rest) = none := by
    rw [decimal?, Numeral.integer?_of_mem h]
    rfl
  rw [ofText?]
  by_cases hbinary : c = p.binary
  · rw [if_pos (Or.inl hbinary), hbinary, after?_cons_self]
    exact ofDigits?_of_mem (hmark p.binary_mem_marks hbinary)
  · rw [after?_cons_of_ne hbinary]
    by_cases hhex : c = p.hex
    · rw [if_pos (Or.inr hhex), hhex, after?_cons_self]
      exact ofDigits?_of_mem (hmark p.hex_mem_marks hhex)
    · rw [if_neg (not_or.2 ⟨hbinary, hhex⟩), after?_cons_of_ne hhex, hdecimal]

/-- A quote taken off the end leaves the first character alone, unless it is all there is. -/
theorem exists_getD_before?_append {text rest : Text} {c : Char}
    (h : (before? quoteMark text).getD text = c :: rest) (more : Text) :
    ∃ rest', (before? quoteMark (text ++ more)).getD (text ++ more) = c :: rest' := by
  -- What is left starts the text itself, which is not just a quote.
  have htext : ∃ tail, text = c :: tail ∧ (tail = [] → c ≠ quoteMark) := by
    cases hbefore : before? quoteMark text with
    | none =>
      rw [hbefore, Option.getD_none] at h
      refine ⟨rest, h, ?_⟩
      rintro rfl rfl
      rw [h, before?_eq_some_iff.2 (List.nil_append _).symm] at hbefore
      exact nomatch hbefore
    | some front =>
      rw [hbefore, Option.getD_some] at h
      subst h
      exact ⟨rest ++ [quoteMark], before?_eq_some_iff.1 hbefore, by simp⟩
  obtain ⟨tail, rfl, hquote⟩ := htext
  cases hbefore : before? quoteMark (c :: tail ++ more) with
  | none => exact ⟨tail ++ more, rfl⟩
  | some front =>
    rw [before?_eq_some_iff] at hbefore
    cases front with
    | nil =>
      obtain ⟨hc, htail⟩ := List.cons.inj hbefore
      exact absurd hc (hquote (List.append_eq_nil_iff.1 htail).1)
    | cons d front =>
      obtain ⟨rfl, -⟩ := List.cons.inj hbefore
      exact ⟨front, rfl⟩

/-- The first character inside quotes stays the first if the text goes on. -/
theorem exists_unquote_append {text rest : Text} {c : Char} (h : unquote text = c :: rest)
    (more : Text) : ∃ rest', unquote (text ++ more) = c :: rest' := by
  cases text with
  | nil => exact nomatch h
  | cons d text =>
    by_cases hd : d = quoteMark
    · subst hd
      simp only [unquote, List.cons_append, after?_cons_self, Option.getD_some] at h ⊢
      exact exists_getD_before?_append h more
    · simp only [unquote, List.cons_append, after?_cons_of_ne hd, Option.getD_none] at h ⊢
      exact exists_getD_before?_append h more

/-- **A literal with a quote in it can go on** as it likes: it stands for its first character. -/
theorem ofText?_append_of_mem (hp : p.Clear) {text : Text} {l : Literal} (hquote : quoteMark ∈ text)
    (h : ofText? p text = some l) (more : Text) : ofText? p (text ++ more) = some l := by
  obtain ⟨c, rest, rfl⟩ := List.exists_cons_of_ne_nil (List.ne_nil_of_mem hquote)
  have hmore : quoteMark ∈ c :: (rest ++ more) := List.mem_append_left more hquote
  rw [ofText?_of_mem hp hquote] at h
  rw [List.cons_append, ofText?_of_mem hp hmore]
  by_cases hmark : c = p.binary ∨ c = p.hex
  · rw [if_pos hmark] at h
    exact nomatch h
  · rw [if_neg hmark] at h ⊢
    cases hfirst : unquote (c :: rest) with
    | nil =>
      rw [hfirst] at h
      exact nomatch h
    | cons d tail =>
      obtain ⟨tail', hlast⟩ := exists_unquote_append hfirst more
      rw [hfirst] at h
      rw [← List.cons_append, hlast]
      exact h

end Literal

/-! ### An operand that goes on -/

/-- A text in parentheses that goes on and is in parentheses again has more inside. -/
theorem exists_inner_append {inner inner' more : Text}
    (h : '(' :: inner ++ [')'] ++ more = '(' :: inner' ++ [')']) :
    ∃ more', inner' = inner ++ more' := by
  have heq : inner ++ ([')'] ++ more) = inner' ++ [')'] := by simpa using h
  have hlength := congrArg List.length heq
  simp only [List.length_append, List.length_cons, List.length_nil] at hlength
  have hprefix : inner <+: inner' :=
    List.prefix_of_prefix_length_le ⟨_, heq⟩ (List.prefix_append inner' [')']) (by omega)
  obtain ⟨more', rfl⟩ := hprefix
  exact ⟨more', rfl⟩

/-- A mark that is not in front of a text is not in front of it if it goes on, either. -/
theorem after?_append_of_eq_none {c : Char} {text : Text} (hne : text ≠ [])
    (h : after? c text = none) (more : Text) : after? c (text ++ more) = none := by
  obtain ⟨d, rest, rfl⟩ := List.exists_cons_of_ne_nil hne
  refine after?_cons_of_ne ?_ (rest ++ more)
  rintro rfl
  exact nomatch h.symm.trans (after?_cons_self d rest)

namespace Designates

variable {p : Punctuation} {mnemonic : Mnemonic} {operand : Text} {d : Designation}

/-- **A single operand with a quote in it can go on**, and designates the same thing, if it does
not get into parentheses or out of them. -/
theorem append_of_mem (hp : p.Clear) (hquote : quoteMark ∈ operand)
    (h : Designates p mnemonic [operand] d) {more : Text}
    (hparen : Parenthesized operand ↔ Parenthesized (operand ++ more)) :
    Designates p mnemonic [operand ++ more] d := by
  have hne : operand ≠ [] := List.ne_nil_of_mem hquote
  cases h with
  | @pointer text l hl =>
    obtain ⟨inner', hinner'⟩ := hparen.1 ⟨text, rfl⟩
    obtain ⟨more', rfl⟩ := exists_inner_append hinner'
    have htext : quoteMark ∈ text := by
      rcases List.mem_append.1 hquote with hquote | hquote
      · exact (List.mem_cons.1 hquote).resolve_left (by decide)
      · exact absurd hquote (by decide)
    rw [hinner']
    exact .pointer (Literal.ofText?_append_of_mem hp htext hl more')
  | @value text v hbare hl =>
    have hplain : isPlain p.immediate := hp.isPlain _ p.immediate_mem_marks
    have htext : quoteMark ∈ text :=
      (List.mem_cons.1 hquote).resolve_left (ne_quoteMark_of_isPlain hplain).symm
    exact .value (hparen.not.1 hbare) (Literal.ofText?_append_of_mem hp htext hl more)
  | distance hbare hmark hrelative hl =>
    exact .distance (hparen.not.1 hbare) (after?_append_of_eq_none hne hmark more) hrelative
      (Literal.ofText?_append_of_mem hp hquote hl more)
  | cell hbare hmark hwide hl =>
    exact .cell (hparen.not.1 hbare) (after?_append_of_eq_none hne hmark more) hwide
      (Literal.ofText?_append_of_mem hp hquote hl more)

/-- An operand is in parentheses exactly if it designates the place that two cells hold. -/
theorem parenthesized_iff (h : Designates p mnemonic [operand] d) :
    Parenthesized operand ↔ ∃ address, d = .pointer address := by
  cases h with
  | @pointer text l => exact ⟨fun _ => ⟨l.value, rfl⟩, fun _ => ⟨text, rfl⟩⟩
  | value hbare | distance hbare | cell hbare =>
    exact ⟨fun hparen => absurd hparen hbare, by simp⟩

/-- A second operand has no quote in it. -/
theorem not_mem_second {first second : Text} (h : Designates p mnemonic [first, second] d) :
    quoteMark ∉ second := by
  have hname : ∀ {r}, Register.ofText? second = some r → quoteMark ∉ second := by
    intro r hr hquote
    obtain ⟨c, rfl⟩ := List.length_eq_one_iff.1 (Register.length_of_ofText? hr)
    obtain rfl := List.mem_singleton.1 hquote
    exact nomatch hr
  cases h with
  | registers _ hsecond => exact hname hsecond
  | indexedW hsecond => exact hname hsecond
  | indexedX hsecond => exact hname hsecond

end Designates

/-! ### Lines with a comment after them -/

/-- No mnemonic has a quote in its name. -/
theorem Mnemonic.not_mem_of_ofText? {text : Text} {mnemonic : Mnemonic}
    (h : ofText? text = some mnemonic) : quoteMark ∉ text := by
  intro hquote
  have hmem : quoteMark.toUpper ∈ mnemonic.text :=
    ofText?_eq_some_iff.1 h ▸ List.mem_map_of_mem hquote
  exact absurd (isAlphanum_of_mem_text hmem) (by decide)

/-- **A line that leaves a quote open and is assembled** holds a single operand, with the quote
in it. -/
theorem exists_operand_of_leavesQuoteOpen {p : Punctuation} {name last : Text} {before : List Text}
    {mnemonic : Mnemonic} {operands : List Text} {d : Designation}
    (htokens : before ++ [last] = name :: operands) (hquote : quoteMark ∈ last)
    (hname : Mnemonic.ofText? name = some mnemonic) (hd : Designates p mnemonic operands d) :
    before = [name] ∧ operands = [last] := by
  have hlength := hd.length_eq
  cases before with
  | nil =>
    obtain ⟨rfl, -⟩ := List.cons.inj htokens
    exact absurd hquote (Mnemonic.not_mem_of_ofText? hname)
  | cons first before =>
    rw [List.cons_append] at htokens
    obtain ⟨rfl, rfl⟩ := List.cons.inj htokens
    cases before with
    | nil => exact ⟨rfl, rfl⟩
    | cons second before =>
      cases before with
      | nil => exact absurd hquote hd.not_mem_second
      | cons third before =>
        -- No mode takes three operands.
        have hmost := d.operands.mode.operandCount_le_two
        rw [List.cons_append, List.cons_append, List.length_cons, List.length_cons,
          List.length_append] at hlength
        have hlast : [last].length = 1 := rfl
        omega

/-- The code of a line decides what the line is assembled to. -/
theorem assembleLine_of_tokens_eq {p : Punctuation} {line line' : Text}
    (h : tokens (code p.comment line) = tokens (code p.comment line')) :
    assembleLine p line = assembleLine p line' := by
  simp only [assembleLine, h]

/-- **An operand in which a quote is left open** may be followed by a comment if it does not get
into parentheses or out of them, and is not followed by another token. -/
theorem assembleLine_eq_ok_some_iff_of_mem {p : Punctuation} (hp : p.Clear) {line line' : Text}
    {name operand more : Text} {extra : List Text} {t : Triple} (hquote : quoteMark ∈ operand)
    (htokens : tokens (code p.comment line) = [name, operand])
    (htokens' : tokens (code p.comment line') = name :: (operand ++ more) :: extra)
    (h : assembleLine p line = .ok (some t)) :
    assembleLine p line' = .ok (some t) ↔
      extra = [] ∧ (Parenthesized operand ↔ Parenthesized (operand ++ more)) := by
  obtain ⟨_, _, mnemonic, d, hline, hname, hd, ht⟩ := assembleLine_eq_ok_some_iff.1 h
  obtain ⟨rfl, rfl⟩ := List.cons.inj (htokens.symm.trans hline)
  rw [assembleLine_eq_ok_some_iff, htokens']
  constructor
  · rintro ⟨_, _, mnemonic', d', hcons, -, hd', ht'⟩
    obtain ⟨rfl, rfl⟩ := List.cons.inj hcons
    -- The bytes say what is designated, and that says how many operands there are.
    obtain ⟨rfl, rfl⟩ := ht.unique ht'
    have hlength := hd'.length_eq.trans hd.length_eq.symm
    obtain rfl : extra = [] := List.length_eq_zero_iff.1 (Nat.succ.inj hlength)
    exact ⟨rfl, hd.parenthesized_iff.trans hd'.parenthesized_iff.symm⟩
  · rintro ⟨rfl, hparen⟩
    exact ⟨name, _, mnemonic, d, rfl, hname, hd.append_of_mem hp hquote hparen, ht⟩

/-- **A comment after a line**, with the customary punctuation. If the line leaves no quote open,
the comment changes nothing. If it leaves one open, there is a mnemonic and one operand on it, and
the mark and what follows go on with that operand; the line is then assembled to the same bytes
exactly if that is in parentheses just as before, and no further token comes after it. -/
theorem assemble_commented {line comment : Text} {values : List Byte} (hline : '\n' ∉ line)
    (hcomment : '\n' ∉ comment) (h : assemble .standard line = .ok values) :
    (¬LeavesQuoteOpen (code ';' line) →
      assemble .standard (line ++ ';' :: comment) = .ok values) ∧
    (LeavesQuoteOpen (code ';' line) →
      ∃ name operand more extra, tokens (code ';' line) = [name, operand] ∧ quoteMark ∈ operand ∧
        tokens (code ';' (line ++ ';' :: comment)) = name :: (operand ++ ';' :: more) :: extra ∧
        (assemble .standard (line ++ ';' :: comment) = .ok values ↔
          extra = [] ∧ (Parenthesized operand ↔ Parenthesized (operand ++ ';' :: more)))) := by
  have hmark : (';' : Char) ≠ quoteMark := by decide
  have hboth : '\n' ∉ line ++ ';' :: comment := by simp [hline, hcomment]
  obtain ⟨result, hresult, rfl⟩ := (assemble_eq_ok_iff_of_not_mem hline).1 h
  constructor
  · intro hclosed
    have hsame := assembleLine_of_tokens_eq (p := .standard)
      (congrArg tokens (code_append_comment hmark hclosed comment))
    exact (assemble_eq_ok_iff_of_not_mem hboth).2 ⟨result, hsame.trans hresult, rfl⟩
  · intro hopen
    obtain ⟨before, last, hquote, htokens, hmore⟩ := tokens_append_of_leavesQuoteOpen hmark hopen
    obtain ⟨more, extra, htokens'⟩ := hmore comment
    -- There is a token, so the line is assembled to an instruction.
    obtain ⟨t, rfl⟩ : ∃ t, result = some t := by
      refine Option.ne_none_iff_exists'.1 ?_
      rintro rfl
      rw [assembleLine_eq_ok_none_iff, Punctuation.standard, htokens] at hresult
      exact List.append_ne_nil_of_right_ne_nil before (List.cons_ne_nil last []) hresult
    obtain ⟨name, operands, mnemonic, d, hwords, hname, hd, -⟩ :=
      assembleLine_eq_ok_some_iff.1 hresult
    obtain ⟨rfl, rfl⟩ :=
      exists_operand_of_leavesQuoteOpen (htokens.symm.trans hwords) hquote hname hd
    refine ⟨name, last, more, extra, htokens, hquote, htokens', ?_⟩
    rw [← assembleLine_eq_ok_some_iff_of_mem Punctuation.clear_standard hquote htokens htokens'
      hresult, assemble_eq_ok_iff_of_not_mem hboth]
    constructor
    · rintro ⟨result, hsame, himage⟩
      have hinstruction := image_injective himage
      cases result with
      | none => exact nomatch hinstruction
      | some t' =>
        obtain rfl := (List.cons.inj hinstruction).1
        exact hsame
    · intro hsame
      exact ⟨some t, hsame, rfl⟩

/-- A comment with a quote of its own after a line without one, and one that closes the quote of
the line and so comes to name an index register. -/
theorem assemble_commented_closing_quote :
    assemble .standard ("LDA #1".toList ++ ';' :: "don't".toList) = .ok [0x7F, 0, 3, 4, 1, 0] ∧
      assemble .standard "LDA #'A".toList = .ok [0x7F, 0, 3, 4, 0x41, 0] ∧
      assemble .standard ("LDA #'A".toList ++ ';' :: "' W".toList) ≠
        .ok [0x7F, 0, 3, 4, 0x41, 0] := by
  have hclosed : assemble .standard "LDA #1".toList = .ok [0x7F, 0, 3, 4, 1, 0] := by decide
  have hopen : assemble .standard "LDA #'A".toList = .ok [0x7F, 0, 3, 4, 0x41, 0] := by decide
  have hwords : tokens (code ';' ("LDA #'A".toList ++ ';' :: "' W".toList)) =
      ["LDA".toList, "#'A;'".toList, "W".toList] := by decide
  refine ⟨?_, hopen, fun hsame => ?_⟩
  · exact (@assemble_commented "LDA #1".toList "don't".toList _ (by decide) (by decide)
      hclosed).1 (by decide)
  · obtain ⟨name, operand, more, extra, -, -, htokens, hiff⟩ :=
      (@assemble_commented "LDA #'A".toList "' W".toList _ (by decide) (by decide) hopen).2
        (by decide)
    obtain ⟨rfl, -⟩ := hiff.1 hsame
    have hlength := congrArg List.length (htokens.symm.trans hwords)
    exact nomatch hlength

/-- A comment that takes a jump out of its parentheses. -/
theorem assemble_commented_jump :
    assemble .standard "JMP ('A)".toList = .ok [0x7F, 0, 3, 0x1D, 0, 0x41] ∧
      assemble .standard ("JMP ('A)".toList ++ ';' :: "go on".toList) =
        .ok [0x7F, 0, 3, 0x1C, 0, 0x28] ∧
      ¬∀ (line comment : Text) (values : List Byte), '\n' ∉ line → '\n' ∉ comment →
        assemble .standard line = .ok values →
          assemble .standard (line ++ ';' :: comment) = .ok values := by
  have hjump : assemble .standard "JMP ('A)".toList = .ok [0x7F, 0, 3, 0x1D, 0, 0x41] := by decide
  have hcommented : assemble .standard ("JMP ('A)".toList ++ ';' :: "go on".toList) =
      .ok [0x7F, 0, 3, 0x1C, 0, 0x28] := by decide
  refine ⟨hjump, hcommented, fun h => ?_⟩
  have hsame := h _ "go on".toList _ (by decide) (by decide) hjump
  exact absurd (hcommented.symm.trans hsame) (by decide)

end EightBit
