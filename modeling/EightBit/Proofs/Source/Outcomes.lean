import EightBit.Proofs.Source.Decimals

/-!
# What becomes of a line

A line is assembled to an instruction or to nothing, or it is refused for one of several reasons.
This file says for every line which it is (`EightBit.LineOutcome`), by the tokens of the line and
the instruction table alone.

The reasons come in an order. A first token that is no mnemonic is one; then a number of operands
that the mnemonic does not take (`EightBit.Mnemonic.Takes`); then what is wrong with the operands
themselves (`EightBit.OperandProblem`); and only if there is nothing wrong with them, a mode that
the machine does not know the mnemonic in. The rules for operands leave nothing open: up to two
operands designate something or have a problem (`EightBit.designates_or_problem`). More than two
are refused for their number already, and never looked at.

That the rules are the ones that the assembler goes by is shown in one direction only: where a rule
applies, its outcome is what the assembler gives. Since to every line some rule applies, the other
direction comes with it (`EightBit.assembleLine_classified`).
-/

namespace EightBit

/-! ### Operands a mnemonic takes -/

/-- **A mnemonic takes so many operands** if the machine knows it in a mode that does. -/
def Mnemonic.Takes (mnemonic : Mnemonic) (count : Nat) : Prop :=
  ∃ mode, mnemonic.hasMode mode = true ∧ mode.operandCount = count

namespace Mnemonic

variable {mnemonic : Mnemonic} {count : Nat}

theorem takes_iff :
    mnemonic.Takes count ↔
      (mnemonic.modes.any fun mode => mode.operandCount == count) = true := by
  simp only [Takes, List.any_eq_true, mem_modes_iff, beq_iff_eq]

instance : Decidable (mnemonic.Takes count) :=
  decidable_of_iff _ takes_iff.symm

/-- **No mnemonic takes more than two operands.** -/
theorem Takes.le_two (h : mnemonic.Takes count) : count ≤ 2 := by
  obtain ⟨mode, -, rfl⟩ := h
  exact mode.operandCount_le_two

/-- A mnemonic that takes no operand is known in the mode that this comes down to. -/
theorem Takes.hasMode_ofNone (h : mnemonic.Takes 0) :
    mnemonic.hasMode (Operands.ofNone mnemonic).mode = true := by
  obtain ⟨mode, hmode, hcount⟩ := h
  rw [Operands.ofNone]
  by_cases himplicit : mnemonic.hasMode .implicit = true
  · rw [if_pos himplicit]
    exact himplicit
  · rw [if_neg himplicit]
    cases mode with
    | implicit => exact absurd hmode himplicit
    | accumulator => exact hmode
    | _ => exact absurd hcount (by decide)

end Mnemonic

/-! ### Problems with operands -/

/-- **What is wrong with the operands of a mnemonic**, going by their shape. Whether the machine
knows the mnemonic in the mode that they are written in has no bearing on it. -/
inductive OperandProblem (p : Punctuation) (mnemonic : Mnemonic) : List Text → Problem → Prop
  /-- There is no literal inside the parentheses. -/
  | pointer {text : Text} : Literal.ofText? p text = none →
    OperandProblem p mnemonic ['(' :: text ++ [')']] (.invalidNumber text)
  /-- There is no literal after the mark of an immediate operand. -/
  | value {text : Text} : ¬Parenthesized (p.immediate :: text) → Literal.ofText? p text = none →
    OperandProblem p mnemonic [p.immediate :: text] (.invalidNumber text)
  /-- The literal after the mark of an immediate operand is a word. -/
  | wide {text : Text} {w : Word} : ¬Parenthesized (p.immediate :: text) →
    Literal.ofText? p text = some (.word w) →
    OperandProblem p mnemonic [p.immediate :: text] (.operandTooWide (p.immediate :: text))
  /-- A bare operand is no literal. -/
  | bare {text : Text} : ¬Parenthesized text → after? p.immediate text = none →
    Literal.ofText? p text = none → OperandProblem p mnemonic [text] (.invalidNumber text)
  /-- What stands in front of an index register is no literal. -/
  | base {first second : Text} {r : Register} : Register.ofText? second = some r →
    r.isIndex = true → Register.ofText? first = none ∨ mnemonic.hasMode .registerCoded = false →
    Literal.ofText? p first = none →
    OperandProblem p mnemonic [first, second] (.invalidNumber first)
  /-- The second operand is no index register, and the two are not both registers. -/
  | unresolvable {first second : Text} :
    (∀ r, Register.ofText? second = some r → r.isIndex = false ∧ Register.ofText? first = none) →
    OperandProblem p mnemonic [first, second] (.unresolvable [first, second])

section Operands

variable {p : Punctuation} {mnemonic : Mnemonic}

theorem Operands.literal_eq_error {text : Text} (h : Literal.ofText? p text = none) :
    literal p text = .error (.invalidNumber text) := by
  rw [literal, h]

/-- **Operands with a problem** are refused for it. -/
theorem OperandProblem.resolve_eq {operands : List Text} {problem : Problem}
    (h : OperandProblem p mnemonic operands problem) :
    Operands.resolve p mnemonic operands = .error problem := by
  cases h with
  | pointer hl =>
    rw [Operands.resolve, Operands.ofOne, parenthesized?_eq_some_iff.2 rfl]
    simp only [Operands.literal_eq_error hl]
    rfl
  | value hbare hl =>
    rw [Operands.resolve, Operands.ofOne, parenthesized?_eq_none_iff.2 hbare, after?_cons_self]
    simp only [Operands.literal_eq_error hl]
    rfl
  | wide hbare hl =>
    rw [Operands.resolve, Operands.ofOne, parenthesized?_eq_none_iff.2 hbare, after?_cons_self]
    simp only [Operands.literal_eq_ok_iff.2 hl]
    rfl
  | bare hbare hmark hl =>
    rw [Operands.resolve, Operands.ofOne, parenthesized?_eq_none_iff.2 hbare, hmark]
    simp only [Operands.literal_eq_error hl]
    rfl
  | base hsecond hindex hfirst hl =>
    obtain ⟨mode, hmode⟩ := Register.isIndex_iff.1 hindex
    rw [Operands.resolve, Operands.ofTwo_eq_indexed hsecond hmode hfirst, Operands.indexed,
      Operands.literal_eq_error hl]
    rfl
  | @unresolvable first second h =>
    rw [Operands.resolve, Operands.ofTwo]
    cases hsecond : Register.ofText? second with
    | none => cases Register.ofText? first <;> rfl
    | some r =>
      obtain ⟨hindex, hfirst⟩ := h r hsecond
      simp only [hfirst, Register.indexMode?_eq_none_iff.2 hindex]

/-- A single operand designates something or has a problem. -/
theorem designates_or_problem_one (p : Punctuation) (mnemonic : Mnemonic) (operand : Text) :
    (∃ d, Designates p mnemonic [operand] d) ∨
      ∃ problem, OperandProblem p mnemonic [operand] problem := by
  by_cases hparen : Parenthesized operand
  · obtain ⟨text, rfl⟩ := hparen
    cases hl : Literal.ofText? p text with
    | none => exact Or.inr ⟨_, .pointer hl⟩
    | some l => exact Or.inl ⟨_, .pointer hl⟩
  cases hmark : after? p.immediate operand with
  | some text =>
    obtain rfl := after?_eq_some_iff.1 hmark
    cases hl : Literal.ofText? p text with
    | none => exact Or.inr ⟨_, .value hparen hl⟩
    | some l =>
      cases l with
      | byte v => exact Or.inl ⟨_, .value hparen hl⟩
      | word w => exact Or.inr ⟨_, .wide hparen hl⟩
  | none =>
    cases hl : Literal.ofText? p operand with
    | none => exact Or.inr ⟨_, .bare hparen hmark hl⟩
    | some l =>
      -- A byte is a distance for a mnemonic that branches, and all else is an address.
      by_cases hdistance : mnemonic.hasMode .relative = true ∧ ∃ d, l = .byte d
      · obtain ⟨hrelative, d, rfl⟩ := hdistance
        exact Or.inl ⟨_, .distance hparen hmark hrelative hl⟩
      · refine Or.inl ⟨_, .cell hparen hmark ?_ hl⟩
        rintro hrelative d rfl
        exact hdistance ⟨hrelative, d, rfl⟩

/-- What stands in front of an index register designates something or has a problem. -/
theorem designates_or_problem_base {first second : Text} {r : Register}
    (hsecond : Register.ofText? second = some r) (hindex : r.isIndex = true)
    (hfirst : Register.ofText? first = none ∨ mnemonic.hasMode .registerCoded = false) :
    (∃ d, Designates p mnemonic [first, second] d) ∨
      ∃ problem, OperandProblem p mnemonic [first, second] problem := by
  cases hl : Literal.ofText? p first with
  | none => exact Or.inr ⟨_, .base hsecond hindex hfirst hl⟩
  | some l =>
    cases r with
    | w => exact Or.inl ⟨_, .indexedW hsecond hfirst hl⟩
    | x => exact Or.inl ⟨_, .indexedX hsecond hfirst hl⟩
    | a | y | z => exact nomatch hindex

/-- Two operands designate something or have a problem. -/
theorem designates_or_problem_two (p : Punctuation) (mnemonic : Mnemonic) (first second : Text) :
    (∃ d, Designates p mnemonic [first, second] d) ∨
      ∃ problem, OperandProblem p mnemonic [first, second] problem := by
  cases hsecond : Register.ofText? second with
  | none =>
    refine Or.inr ⟨_, .unresolvable fun r hr => ?_⟩
    exact nomatch hsecond.symm.trans hr
  | some r =>
    -- Registers to copy come first, then a base, and at last registers that nothing copies.
    cases hfirst : Register.ofText? first with
    | some source =>
      by_cases hregisters : mnemonic.hasMode .registerCoded = true ∨ r.isIndex = false
      · exact Or.inl ⟨_, .registers hfirst hsecond hregisters⟩
      · obtain ⟨hcoded, hindex⟩ := not_or.1 hregisters
        rw [Bool.not_eq_true] at hcoded
        rw [Bool.not_eq_false] at hindex
        exact designates_or_problem_base hsecond hindex (Or.inr hcoded)
    | none =>
      by_cases hindex : r.isIndex = true
      · exact designates_or_problem_base hsecond hindex (Or.inl hfirst)
      · refine Or.inr ⟨_, .unresolvable fun r' hr' => ?_⟩
        obtain rfl := Option.some.inj (hsecond.symm.trans hr')
        exact ⟨Bool.eq_false_iff.2 hindex, hfirst⟩

/-- **Operands that a mnemonic could take by their number** designate something or have a problem.
The rules leave nothing open. -/
theorem designates_or_problem {operands : List Text} (h : operands.length ≤ 2) :
    (∃ d, Designates p mnemonic operands d) ∨
      ∃ problem, OperandProblem p mnemonic operands problem := by
  match operands with
  | [] =>
    by_cases himplicit : mnemonic.hasMode .implicit = true
    · exact Or.inl ⟨_, .nothing himplicit⟩
    · exact Or.inl ⟨_, .accumulator (Bool.eq_false_iff.2 himplicit)⟩
  | [operand] => exact designates_or_problem_one p mnemonic operand
  | [first, second] => exact designates_or_problem_two p mnemonic first second
  | _ :: _ :: _ :: _ =>
    simp only [List.length_cons] at h
    omega

end Operands

/-! ### Outcomes -/

/-- **What becomes of a line**, going by its tokens. -/
inductive LineOutcome (p : Punctuation) : List Text → Except Problem (Option Triple) → Prop
  /-- There is no token on the line. -/
  | blank : LineOutcome p [] (.ok none)
  /-- The first token is no mnemonic. -/
  | unknown {name : Text} {operands : List Text} :
    (∀ mnemonic : Mnemonic, name.map Char.toUpper ≠ mnemonic.text) →
    LineOutcome p (name :: operands) (.error (.unknownMnemonic name))
  /-- The mnemonic does not take so many operands. -/
  | count {name : Text} {operands : List Text} {mnemonic : Mnemonic} :
    name.map Char.toUpper = mnemonic.text → ¬mnemonic.Takes operands.length →
    LineOutcome p (name :: operands) (.error (.wrongOperandCount mnemonic operands.length))
  /-- There is something wrong with the operands. -/
  | operands {name : Text} {operands : List Text} {mnemonic : Mnemonic} {problem : Problem} :
    name.map Char.toUpper = mnemonic.text → mnemonic.Takes operands.length →
    OperandProblem p mnemonic operands problem → LineOutcome p (name :: operands) (.error problem)
  /-- The operands are in a mode that the machine does not know the mnemonic in. -/
  | unsupported {name : Text} {operands : List Text} {mnemonic : Mnemonic} {d : Designation} :
    name.map Char.toUpper = mnemonic.text → mnemonic.Takes operands.length →
    Designates p mnemonic operands d → ⟨mnemonic, d.operands.mode⟩ ∉ Form.table →
    LineOutcome p (name :: operands) (.error (.unsupportedMode mnemonic d.operands.mode))
  /-- There is an instruction on the line. -/
  | instruction {name : Text} {operands : List Text} {mnemonic : Mnemonic} {d : Designation}
    {t : Triple} :
    name.map Char.toUpper = mnemonic.text → Designates p mnemonic operands d →
    t.Encodes mnemonic d → LineOutcome p (name :: operands) (.ok (some t))

namespace LineOutcome

variable {p : Punctuation} {line : Text} {words : List Text}
  {result : Except Problem (Option Triple)}

/-- **The rules are the ones that the assembler goes by.** -/
theorem assembleLine_eq (h : LineOutcome p words result)
    (htokens : tokens (code p.comment line) = words) : assembleLine p line = result := by
  cases h with
  | blank => exact assembleLine_eq_ok_none_iff.2 htokens
  | @unknown name operands hname =>
    have hnone : Mnemonic.ofText? name = none := by
      refine Option.eq_none_iff_forall_ne_some.2 fun mnemonic hsome => ?_
      exact hname mnemonic (Mnemonic.ofText?_eq_some_iff.1 hsome)
    rw [assembleLine, htokens]
    simp only [hnone]
    rfl
  | count hname htakes =>
    rw [Mnemonic.takes_iff] at htakes
    rw [assembleLine, htokens]
    simp only [Mnemonic.ofText?_eq_some_iff.2 hname, htakes]
    rfl
  | operands hname htakes hproblem =>
    rw [EightBit.assembleLine_eq htokens (Mnemonic.ofText?_eq_some_iff.2 hname)
      (Mnemonic.takes_iff.1 htakes), hproblem.resolve_eq]
    rfl
  | unsupported hname htakes hd hform =>
    rw [← Mnemonic.hasMode_iff_mem_table, Mnemonic.hasMode, Option.isSome_iff_ne_none,
      not_not] at hform
    rw [EightBit.assembleLine_eq htokens (Mnemonic.ofText?_eq_some_iff.2 hname)
      (Mnemonic.takes_iff.1 htakes), Operands.resolve_eq_ok_iff.2 ⟨_, hd, rfl⟩]
    change Mnemonic.encode _ _ = _
    rw [Mnemonic.encode, hform]
  | instruction hname hd ht =>
    exact assembleLine_eq_ok_some_iff.2
      ⟨_, _, _, _, htokens, Mnemonic.ofText?_eq_some_iff.2 hname, hd, ht⟩

/-- **To every line some rule applies.** -/
theorem total (p : Punctuation) (words : List Text) : ∃ result, LineOutcome p words result := by
  cases words with
  | nil => exact ⟨_, .blank⟩
  | cons name operands =>
    by_cases hname : ∃ mnemonic : Mnemonic, name.map Char.toUpper = mnemonic.text
    · obtain ⟨mnemonic, hname⟩ := hname
      by_cases htakes : mnemonic.Takes operands.length
      · rcases @designates_or_problem p mnemonic _ htakes.le_two with
          ⟨d, hd⟩ | ⟨problem, hproblem⟩
        · cases hopcode : Form.opcode? ⟨mnemonic, d.operands.mode⟩ with
          | none =>
            refine ⟨_, .unsupported hname htakes hd ?_⟩
            rw [← Mnemonic.hasMode_iff_mem_table, Mnemonic.hasMode, hopcode]
            exact Bool.false_ne_true
          | some opcode =>
            have hform := Form.ofOpcode?_eq_some_iff.2 hopcode
            exact ⟨.ok (some ⟨opcode, _, _⟩), .instruction hname hd ⟨hform, rfl, rfl⟩⟩
        · exact ⟨_, .operands hname htakes hproblem⟩
      · exact ⟨_, .count hname htakes⟩
    · exact ⟨_, .unknown (not_exists.1 hname)⟩

/-- **What a line is assembled to is its outcome**, and a line has no other. -/
theorem assembleLine_eq_iff :
    assembleLine p line = result ↔ LineOutcome p (tokens (code p.comment line)) result := by
  constructor
  · rintro rfl
    obtain ⟨result, h⟩ := total p (tokens (code p.comment line))
    rwa [h.assembleLine_eq rfl]
  · intro h
    exact h.assembleLine_eq rfl

/-- A line is refused for a number only if this is no literal. -/
theorem of_invalidNumber {text : Text} (h : LineOutcome p words (.error (.invalidNumber text))) :
    Literal.ofText? p text = none := by
  cases h with
  | operands _ _ hproblem =>
    cases hproblem with
    | pointer hl => exact hl
    | value _ hl => exact hl
    | bare _ _ hl => exact hl
    | base _ _ _ hl => exact hl

/-- A line is refused for a wide operand only if this is a word marked as immediate. -/
theorem of_operandTooWide {operand : Text}
    (h : LineOutcome p words (.error (.operandTooWide operand))) :
    ∃ name text w, words = [name, operand] ∧ operand = p.immediate :: text ∧
      Literal.ofText? p text = some (.word w) := by
  cases h with
  | operands _ _ hproblem =>
    cases hproblem with
    | wide _ hl => exact ⟨_, _, _, rfl, rfl, hl⟩

/-- A line is refused for the shape of its operands only if there are two of them, the second is
no index register, and the two are not both registers. -/
theorem of_unresolvable {operands : List Text}
    (h : LineOutcome p words (.error (.unresolvable operands))) :
    ∃ name first second, words = [name, first, second] ∧ operands = [first, second] ∧
      Register.ofText? second ≠ some .w ∧ Register.ofText? second ≠ some .x ∧
        (Register.ofText? first = none ∨ Register.ofText? second = none) := by
  cases h with
  | operands _ _ hproblem =>
    cases hproblem with
    | @unresolvable first second h =>
      refine ⟨_, first, second, rfl, rfl, ?_, ?_, ?_⟩
      · intro hw
        exact nomatch (h _ hw).1
      · intro hx
        exact nomatch (h _ hx).1
      · cases hsecond : Register.ofText? second with
        | none => exact Or.inr rfl
        | some r => exact Or.inl (h r hsecond).2

/-- **A line is refused for its mode** only if the machine does not know the mnemonic in it, and
never without an operand. -/
theorem of_unsupportedMode {mnemonic : Mnemonic} {mode : Mode}
    (h : LineOutcome p words (.error (.unsupportedMode mnemonic mode))) :
    ⟨mnemonic, mode⟩ ∉ Form.table ∧ 2 ≤ words.length := by
  cases h with
  | operands _ _ hproblem => exact nomatch hproblem
  | @unsupported name operands _ d _ htakes hd hform =>
    refine ⟨hform, ?_⟩
    cases operands with
    | nil =>
      -- Without an operand, the mode is one that the machine does know.
      have hresolve : Operands.ofNone _ = d.operands :=
        Except.ok.inj (Operands.resolve_eq_ok_iff.2 ⟨d, hd, rfl⟩)
      have hmode := htakes.hasMode_ofNone
      rw [hresolve] at hmode
      exact absurd (Mnemonic.hasMode_iff_mem_table.1 hmode) hform
    | cons operand operands => simp

/-- An instruction that a line is assembled to is one of its mnemonic, in a mode that takes as
many operands as there are. -/
theorem of_instruction {t : Triple} (h : LineOutcome p words (.ok (some t))) :
    ∃ name operands form, words = name :: operands ∧ Form.ofOpcode? t.opcode = some form ∧
      form.mnemonic.text = name.map Char.toUpper ∧ form.mode.operandCount = operands.length := by
  cases h with
  | instruction hname hd ht =>
    exact ⟨_, _, _, rfl, ht.opcode, hname.symm, hd.length_eq.symm⟩

end LineOutcome

/-- **Every line is assembled, or refused, by the rules and no others.** A number of operands that
the mnemonic does not take is the first thing to be reported about them, and three are always too
many, so the operands themselves are only ever looked at if there are two at most. A problem with
them comes before a mode that the machine does not know the mnemonic in. A number is refused only
if it is no literal, and as too wide only if it is a word marked as immediate; the shape of the
operands is refused only if there are two, with no index register in second place and not both of
them registers; and the mode never without an operand. Whatever is assembled is an instruction of
the mnemonic, in a mode that takes as many operands as there are. -/
theorem assembleLine_classified (p : Punctuation) (line : Text) :
    (∀ result, assembleLine p line = result ↔
      LineOutcome p (tokens (code p.comment line)) result) ∧
    (∀ name operands mnemonic, tokens (code p.comment line) = name :: operands →
      name.map Char.toUpper = mnemonic.text →
        (3 ≤ operands.length →
          assembleLine p line = .error (.wrongOperandCount mnemonic operands.length)) ∧
        (mnemonic.Takes operands.length → operands.length ≤ 2 ∧
          ∀ problem, OperandProblem p mnemonic operands problem →
            assembleLine p line = .error problem)) ∧
    (∀ text, assembleLine p line = .error (.invalidNumber text) →
      Literal.ofText? p text = none) ∧
    (∀ operand, assembleLine p line = .error (.operandTooWide operand) →
      ∃ name text w, tokens (code p.comment line) = [name, operand] ∧
        operand = p.immediate :: text ∧ Literal.ofText? p text = some (.word w)) ∧
    (∀ operands, assembleLine p line = .error (.unresolvable operands) →
      ∃ name first second, tokens (code p.comment line) = [name, first, second] ∧
        operands = [first, second] ∧ Register.ofText? second ≠ some .w ∧
          Register.ofText? second ≠ some .x ∧
            (Register.ofText? first = none ∨ Register.ofText? second = none)) ∧
    (∀ mnemonic mode, assembleLine p line = .error (.unsupportedMode mnemonic mode) →
      ⟨mnemonic, mode⟩ ∉ Form.table ∧ 2 ≤ (tokens (code p.comment line)).length) ∧
    (∀ t, assembleLine p line = .ok (some t) →
      ∃ name operands form, tokens (code p.comment line) = name :: operands ∧
        Form.ofOpcode? t.opcode = some form ∧ form.mnemonic.text = name.map Char.toUpper ∧
          form.mode.operandCount = operands.length) := by
  simp only [LineOutcome.assembleLine_eq_iff, implies_true, true_and]
  refine ⟨?_, fun text => LineOutcome.of_invalidNumber,
    fun operand => LineOutcome.of_operandTooWide, fun operands => LineOutcome.of_unresolvable,
    fun mnemonic mode => LineOutcome.of_unsupportedMode, fun t => LineOutcome.of_instruction⟩
  intro name operands mnemonic htokens hname
  rw [htokens]
  constructor
  · intro hthree
    refine .count hname fun htakes => ?_
    have htwo := htakes.le_two
    omega
  · intro htakes
    exact ⟨htakes.le_two, fun problem hproblem => .operands hname htakes hproblem⟩

/-- A word that the accumulator cannot be stored in: the machine knows STA in no immediate mode,
but it is the operand that is refused. -/
theorem assembleLine_classified_store :
    assembleLine .standard "sta #$1FF".toList = .error (.operandTooWide "#$1FF".toList) ∧
      ⟨.sta, .immediate⟩ ∉ Form.table := by
  have htokens : tokens (code ';' "sta #$1FF".toList) = ["sta".toList, "#$1FF".toList] := by decide
  have hbare : ¬Parenthesized "#$1FF".toList := parenthesized?_eq_none_iff.1 (by decide)
  have hword : Literal.ofText? .standard "$1FF".toList = some (.word 0x1FF) := by decide
  have hline := (assembleLine_classified .standard "sta #$1FF".toList).2.1 "sta".toList
    ["#$1FF".toList] .sta htokens (by decide)
  exact ⟨(hline.2 (by decide)).2 _ (.wide hbare hword), by decide⟩

end EightBit
