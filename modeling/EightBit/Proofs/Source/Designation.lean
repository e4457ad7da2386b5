import EightBit.Assembly.Program
import EightBit.Proofs.Fallible
import EightBit.Proofs.Source.Literals

/-!
# What operands designate

Between the text of an operand and its two bytes stands what the operand *means*: a
value, a cell of memory, a distance, two registers. This file makes that a type of
its own, `EightBit.Designation`, with one kind of designation for each addressing
mode, and places everything that is done with operands around it:

* *reading*: `EightBit.Designates` says which text designates what, one rule for each
  shape of operand. The assembler follows these rules and knows no others
  (`EightBit.Operands.resolve_eq_ok_iff`);
* *encoding*: `EightBit.Designation.operands` gives a designation its mode and its two
  bytes, and is undone by `EightBit.Designation.decode?`.

A whole line is then assembled exactly if its first token is a mnemonic, the others
designate something, and the machine knows the mnemonic in the mode of that
(`EightBit.assembleLine_eq_ok_some_iff`).
-/

namespace EightBit

/-! ### Designations -/

/-- **What the operands of a line designate.** -/
inductive Designation where
  /-- Nothing at all. -/
  | nothing
  /-- The accumulator. -/
  | accumulator
  /-- A value that the line itself gives. -/
  | value (v : Byte)
  /-- A cell, or a place to go on at. -/
  | cell (address : Word)
  /-- The place to go on at that two cells hold, the first of them at an address. -/
  | pointer (address : Word)
  /-- A place to go on at, as a signed distance from the instruction. -/
  | distance (d : Byte)
  /-- One register to copy from and one to copy to. -/
  | registers (source target : Register)
  /-- A cell of the first page, counted from a base by W. -/
  | indexedW (base : Word)
  /-- A cell of the first page, counted from a base by X. -/
  | indexedX (base : Word)
deriving DecidableEq, Repr

namespace Designation

/-- The mode and the operand bytes for a designation. A byte that has nothing to say
is zero. -/
def operands : Designation → Operands
  | nothing => ⟨.implicit, 0, 0⟩
  | accumulator => ⟨.accumulator, 0, 0⟩
  | value v => ⟨.immediate, v, 0⟩
  | cell address => ⟨.absolute, address.high, address.low⟩
  | pointer address => ⟨.absoluteIndirect, address.high, address.low⟩
  | distance d => ⟨.relative, d, 0⟩
  | registers source target => ⟨.registerCoded, source.index, target.index⟩
  | indexedW base => ⟨.indexedW, base.low, base.high⟩
  | indexedX base => ⟨.indexedX, base.low, base.high⟩

/-- **Decoding**: what the operand bytes of an instruction in a mode designate. Only
the index of a register can be one that designates nothing. -/
def decode? (mode : Mode) (first second : Byte) : Option Designation :=
  match mode with
  | .implicit => some nothing
  | .accumulator => some accumulator
  | .immediate => some (value first)
  | .absolute => some (cell (Word.ofBytes first second))
  | .absoluteIndirect => some (pointer (Word.ofBytes first second))
  | .relative => some (distance first)
  | .registerCoded => do
    return registers (← Register.ofIndex? first) (← Register.ofIndex? second)
  | .indexedW => some (indexedW (Word.ofBytes second first))
  | .indexedX => some (indexedX (Word.ofBytes second first))

/-- **Decoding undoes encoding.** -/
theorem decode?_operands (d : Designation) :
    decode? d.operands.mode d.operands.first d.operands.second = some d := by
  cases d <;> simp [operands, decode?]

/-- What is decoded in a mode is encoded in that mode. -/
theorem mode_operands_of_decode? {mode : Mode} {first second : Byte} {d : Designation}
    (h : decode? mode first second = some d) : d.operands.mode = mode := by
  cases mode with
  | registerCoded =>
    simp only [decode?, Option.bind_eq_bind, Option.bind_eq_some_iff, Option.pure_def,
      Option.some.injEq] at h
    obtain ⟨source, -, target, -, rfl⟩ := h
    rfl
  | _ => obtain rfl := Option.some.inj h; rfl

end Designation

/-! ### Reading -/

/-- A text in parentheses. -/
def Parenthesized (text : Text) : Prop :=
  ∃ inner, text = '(' :: inner ++ [')']

theorem parenthesized?_eq_some_iff {text inner : Text} :
    parenthesized? text = some inner ↔ text = '(' :: inner ++ [')'] := by
  simp only [parenthesized?, Option.bind_eq_bind, Option.bind_eq_some_iff, after?_eq_some_iff,
    before?_eq_some_iff]
  constructor
  · rintro ⟨rest, rfl, rfl⟩
    rfl
  · rintro rfl
    exact ⟨inner ++ [')'], rfl, rfl⟩

theorem parenthesized?_eq_none_iff {text : Text} :
    parenthesized? text = none ↔ ¬Parenthesized text := by
  rw [Option.eq_none_iff_forall_not_mem, Parenthesized]
  simp only [Option.mem_def, parenthesized?_eq_some_iff, not_exists]

/-- **The rules by which text designates something**, for the operands of a mnemonic.
Parentheses come before everything else, then the mark of an immediate operand; a
mnemonic that branches takes a byte for a distance, and one that copies registers
takes two registers for just that. -/
inductive Designates (p : Punctuation) (mnemonic : Mnemonic) : List Text → Designation → Prop
  /-- No operand. -/
  | nothing : mnemonic.hasMode .implicit = true → Designates p mnemonic [] .nothing
  /-- No operand, for a mnemonic that needs one. -/
  | accumulator : mnemonic.hasMode .implicit = false → Designates p mnemonic [] .accumulator
  /-- A literal in parentheses. -/
  | pointer {text : Text} {l : Literal} : Literal.ofText? p text = some l →
    Designates p mnemonic ['(' :: text ++ [')']] (.pointer l.value)
  /-- A marked byte. -/
  | value {text : Text} {v : Byte} : ¬Parenthesized (p.immediate :: text) →
    Literal.ofText? p text = some (.byte v) →
    Designates p mnemonic [p.immediate :: text] (.value v)
  /-- A bare byte, for a mnemonic that branches. -/
  | distance {text : Text} {d : Byte} : ¬Parenthesized text → after? p.immediate text = none →
    mnemonic.hasMode .relative = true → Literal.ofText? p text = some (.byte d) →
    Designates p mnemonic [text] (.distance d)
  /-- Any other bare literal. -/
  | cell {text : Text} {l : Literal} : ¬Parenthesized text → after? p.immediate text = none →
    (mnemonic.hasMode .relative = true → ∀ d, l ≠ .byte d) → Literal.ofText? p text = some l →
    Designates p mnemonic [text] (.cell l.value)
  /-- Two registers, unless they read as a literal and an index register. -/
  | registers {first second : Text} {source target : Register} :
    Register.ofText? first = some source → Register.ofText? second = some target →
    mnemonic.hasMode .registerCoded = true ∨ target.isIndex = false →
    Designates p mnemonic [first, second] (.registers source target)
  /-- A literal and W. -/
  | indexedW {first second : Text} {l : Literal} : Register.ofText? second = some .w →
    Register.ofText? first = none ∨ mnemonic.hasMode .registerCoded = false →
    Literal.ofText? p first = some l → Designates p mnemonic [first, second] (.indexedW l.value)
  /-- A literal and X. -/
  | indexedX {first second : Text} {l : Literal} : Register.ofText? second = some .x →
    Register.ofText? first = none ∨ mnemonic.hasMode .registerCoded = false →
    Literal.ofText? p first = some l → Designates p mnemonic [first, second] (.indexedX l.value)

/-- As many operands as a mode takes are written for a designation in it. -/
theorem Designates.length_eq {p : Punctuation} {mnemonic : Mnemonic} {operands : List Text}
    {d : Designation} (h : Designates p mnemonic operands d) :
    operands.length = d.operands.mode.operandCount := by
  cases h <;> rfl

namespace Operands

open Fallible

variable {p : Punctuation} {mnemonic : Mnemonic}

theorem literal_eq_ok_iff {text : Text} {l : Literal} :
    literal p text = .ok l ↔ Literal.ofText? p text = some l := by
  unfold literal
  split <;> simp_all

/-- **One operand** comes down to what it designates. -/
theorem ofOne_eq_ok_iff {operand : Text} {o : Operands} :
    ofOne p mnemonic operand = .ok o ↔ ∃ d, Designates p mnemonic [operand] d ∧ o = d.operands := by
  constructor
  · intro h
    -- The order of the tests: parentheses, then the mark, then the width of the literal.
    rw [ofOne] at h
    split at h
    · rename_i inner hinner
      obtain ⟨l, hl, ho⟩ := bind_eq_ok_iff.1 h
      obtain rfl := parenthesized?_eq_some_iff.1 hinner
      exact ⟨.pointer l.value, .pointer (literal_eq_ok_iff.1 hl), (pure_eq_ok_iff.1 ho).symm⟩
    rename_i hbare
    rw [parenthesized?_eq_none_iff] at hbare
    split at h
    · rename_i inner hinner
      obtain rfl := after?_eq_some_iff.1 hinner
      obtain ⟨l, hl, ho⟩ := bind_eq_ok_iff.1 h
      cases l with
      | byte v =>
        exact ⟨.value v, .value hbare (literal_eq_ok_iff.1 hl), (pure_eq_ok_iff.1 ho).symm⟩
      | word w => exact absurd ho throw_ne_ok
    · rename_i hmark
      obtain ⟨l, hl, ho⟩ := bind_eq_ok_iff.1 h
      rw [literal_eq_ok_iff] at hl
      cases l with
      | word w =>
        have hwide : ∀ d, Literal.word w ≠ .byte d := fun d hd => nomatch hd
        exact ⟨.cell w, .cell hbare hmark (fun _ => hwide) hl, (pure_eq_ok_iff.1 ho).symm⟩
      | byte b =>
        dsimp only at ho
        by_cases hrelative : mnemonic.hasMode .relative = true
        · rw [if_pos hrelative] at ho
          exact ⟨.distance b, .distance hbare hmark hrelative hl, (pure_eq_ok_iff.1 ho).symm⟩
        · rw [if_neg hrelative] at ho
          refine ⟨.cell (Literal.byte b).value,
            .cell hbare hmark (fun hr => absurd hr hrelative) hl, ?_⟩
          rw [← pure_eq_ok_iff.1 ho, Designation.operands, Literal.value, Word.high_ofBytes,
            Word.low_ofBytes]
  · rintro ⟨d, h, rfl⟩
    cases h with
    | pointer hl =>
      rw [ofOne, parenthesized?_eq_some_iff.2 rfl]
      exact bind_eq_ok_iff.2 ⟨_, literal_eq_ok_iff.2 hl, rfl⟩
    | value hbare hl =>
      rw [ofOne, parenthesized?_eq_none_iff.2 hbare, after?_cons_self]
      exact bind_eq_ok_iff.2 ⟨_, literal_eq_ok_iff.2 hl, rfl⟩
    | distance hbare hmark hrelative hl =>
      rw [ofOne, parenthesized?_eq_none_iff.2 hbare, hmark]
      exact bind_eq_ok_iff.2 ⟨_, literal_eq_ok_iff.2 hl, if_pos hrelative⟩
    | @cell _ l hbare hmark hwide hl =>
      rw [ofOne, parenthesized?_eq_none_iff.2 hbare, hmark]
      refine bind_eq_ok_iff.2 ⟨_, literal_eq_ok_iff.2 hl, ?_⟩
      cases l with
      | word w => rfl
      | byte b =>
        refine (if_neg fun hr => hwide hr b rfl).trans (pure_eq_ok_iff.2 ?_)
        rw [Designation.operands, Literal.value, Word.high_ofBytes, Word.low_ofBytes]

/-- An index register comes down to its mode. -/
theorem indexed_eq_ok_iff {mode : Mode} {text : Text} {o : Operands} :
    indexed p mode text = .ok o ↔
      ∃ l, Literal.ofText? p text = some l ∧ o = ⟨mode, l.value.low, l.value.high⟩ := by
  simp only [indexed, bind_eq_ok_iff, literal_eq_ok_iff, pure_eq_ok_iff]
  exact exists_congr fun l => and_congr_right fun _ => eq_comm

/-- An index register in second place makes the first operand its base, unless the two
are registers to copy. -/
theorem ofTwo_eq_indexed {first second : Text} {target : Register} {mode : Mode}
    (htarget : Register.ofText? second = some target) (hmode : target.indexMode? = some mode)
    (hfirst : Register.ofText? first = none ∨ mnemonic.hasMode .registerCoded = false) :
    ofTwo p mnemonic first second = indexed p mode first := by
  rw [ofTwo, htarget]
  cases hsource : Register.ofText? first with
  | none => simp only [hmode]
  | some source =>
    have hcoded : mnemonic.hasMode .registerCoded = false := by
      rcases hfirst with hnone | hcoded
      · exact nomatch hsource.symm.trans hnone
      · exact hcoded
    simp only [hcoded, hmode]
    rfl

/-- **Two operands** come down to what they designate. -/
theorem ofTwo_eq_ok_iff {first second : Text} {o : Operands} :
    ofTwo p mnemonic first second = .ok o ↔
      ∃ d, Designates p mnemonic [first, second] d ∧ o = d.operands := by
  constructor
  · intro h
    -- The base and the index register, however the assembler has got there.
    have hindexed : ∀ {target mode}, Register.ofText? second = some target →
        target.indexMode? = some mode →
        (Register.ofText? first = none ∨ mnemonic.hasMode .registerCoded = false) →
        indexed p mode first = .ok o →
        ∃ d, Designates p mnemonic [first, second] d ∧ o = d.operands := by
      intro target mode htarget hmode hfirst ho
      obtain ⟨l, hl, rfl⟩ := indexed_eq_ok_iff.1 ho
      cases target with
      | w =>
        obtain rfl := Option.some.inj hmode
        exact ⟨.indexedW l.value, .indexedW htarget hfirst hl, rfl⟩
      | x =>
        obtain rfl := Option.some.inj hmode
        exact ⟨.indexedX l.value, .indexedX htarget hfirst hl, rfl⟩
      | a | y | z => exact nomatch hmode
    -- The second operand has to be a register; the first may be one too.
    rw [ofTwo] at h
    split at h
    · rename_i source target hsource htarget
      split at h
      · rename_i hcoded
        exact ⟨.registers source target, .registers hsource htarget (Or.inl hcoded),
          (Except.ok.inj h).symm⟩
      · rename_i hcoded
        split at h
        · rename_i mode hmode
          exact hindexed htarget hmode (Or.inr (Bool.eq_false_iff.2 hcoded)) h
        · -- Not an index register, so nothing else can be meant but two registers.
          rename_i hmode
          have hindex := Register.indexMode?_eq_none_iff.1 hmode
          exact ⟨.registers source target, .registers hsource htarget (Or.inr hindex),
            (Except.ok.inj h).symm⟩
    · rename_i target hsource htarget
      split at h
      · rename_i mode hmode
        exact hindexed htarget hmode (Or.inl hsource) h
      · exact nomatch h
    · exact nomatch h
  · rintro ⟨d, h, rfl⟩
    cases h with
    | @registers _ _ source target hsource htarget hcoded =>
      rw [ofTwo, hsource, htarget]
      by_cases hc : mnemonic.hasMode .registerCoded = true
      · exact if_pos hc
      · refine (if_neg hc).trans ?_
        rw [Register.indexMode?_eq_none_iff.2 (hcoded.resolve_left hc)]
        rfl
    | @indexedW _ _ l htarget hfirst hl =>
      rw [ofTwo_eq_indexed htarget rfl hfirst]
      exact indexed_eq_ok_iff.2 ⟨l, hl, rfl⟩
    | @indexedX _ _ l htarget hfirst hl =>
      rw [ofTwo_eq_indexed htarget rfl hfirst]
      exact indexed_eq_ok_iff.2 ⟨l, hl, rfl⟩

/-- **The operands of a mnemonic come down to what they designate**, and to nothing
if they designate nothing. -/
theorem resolve_eq_ok_iff {operands : List Text} {o : Operands} :
    resolve p mnemonic operands = .ok o ↔
      ∃ d, Designates p mnemonic operands d ∧ o = d.operands := by
  match operands with
  | [] =>
    rw [resolve, ofNone]
    constructor
    · intro h
      obtain rfl := Except.ok.inj h
      by_cases hi : mnemonic.hasMode .implicit = true
      · exact ⟨.nothing, .nothing hi, by rw [if_pos hi]; rfl⟩
      · exact ⟨.accumulator, .accumulator (Bool.eq_false_iff.2 hi), by rw [if_neg hi]; rfl⟩
    · rintro ⟨d, h, rfl⟩
      cases h with
      | nothing hi => rw [if_pos hi]; rfl
      | accumulator hi => rw [if_neg (by simp [hi])]; rfl
  | [operand] => exact ofOne_eq_ok_iff
  | [first, second] => exact ofTwo_eq_ok_iff
  | first :: second :: third :: rest =>
    constructor
    · exact fun h => nomatch h
    · rintro ⟨d, h, -⟩
      exact nomatch h

end Operands

/-! ### Whole lines -/

/-- **An instruction encodes** a mnemonic and what its operands designate. -/
structure Triple.Encodes (t : Triple) (mnemonic : Mnemonic) (d : Designation) : Prop where
  opcode : Form.ofOpcode? t.opcode = some ⟨mnemonic, d.operands.mode⟩
  first : t.first = d.operands.first
  second : t.second = d.operands.second

/-- An instruction encodes one thing at most. -/
theorem Triple.Encodes.unique {t : Triple} {mnemonic mnemonic' : Mnemonic} {d d' : Designation}
    (h : t.Encodes mnemonic d) (h' : t.Encodes mnemonic' d') : mnemonic = mnemonic' ∧ d = d' := by
  have hform := Option.some.inj (h.opcode.symm.trans h'.opcode)
  simp only [Form.mk.injEq] at hform
  have hd := d.decode?_operands
  rw [hform.2, ← h.first, ← h.second, h'.first, h'.second, d'.decode?_operands] at hd
  exact ⟨hform.1, (Option.some.inj hd).symm⟩

/-- The machine knows a mnemonic in the modes of its forms. -/
theorem hasMode_of_ofOpcode? {opcode : Byte} {mnemonic : Mnemonic} {mode : Mode}
    (h : Form.ofOpcode? opcode = some ⟨mnemonic, mode⟩) : mnemonic.hasMode mode = true := by
  rw [Mnemonic.hasMode, Form.ofOpcode?_eq_some_iff.1 h, Option.isSome_some]

/-- The modes of a mnemonic are the ones it has. -/
theorem mem_modes_of_ofOpcode? {opcode : Byte} {mnemonic : Mnemonic} {mode : Mode}
    (h : Form.ofOpcode? opcode = some ⟨mnemonic, mode⟩) : mode ∈ mnemonic.modes := by
  rw [Mnemonic.mem_modes_iff]
  exact hasMode_of_ofOpcode? h

/-- How a line with a token on it is assembled, stage by stage. -/
theorem assembleLine_eq_ok_iff {p : Punctuation} {line name : Text} {operands : List Text}
    (htokens : tokens (code p.comment line) = name :: operands) {result : Option Triple} :
    assembleLine p line = .ok result ↔
      ∃ mnemonic o opcode, Mnemonic.ofText? name = some mnemonic ∧
        (mnemonic.modes.any fun mode => mode.operandCount == operands.length) = true ∧
        Operands.resolve p mnemonic operands = .ok o ∧
        Form.opcode? ⟨mnemonic, o.mode⟩ = some opcode ∧
        result = some ⟨opcode, o.first, o.second⟩ := by
  rw [assembleLine, htokens]
  cases hname : Mnemonic.ofText? name with
  | none => simp [hname, Fallible.throw_ne_ok]
  | some mnemonic =>
    simp only [hname]
    constructor
    · intro h
      split at h
      · rename_i hcount
        obtain ⟨o, ho, hresult⟩ := Fallible.bind_eq_ok_iff.1 h
        cases hopcode : Form.opcode? ⟨mnemonic, o.mode⟩ with
        | none =>
          rw [hopcode] at hresult
          exact absurd hresult Fallible.throw_ne_ok
        | some opcode =>
          rw [hopcode] at hresult
          exact ⟨mnemonic, o, opcode, rfl, hcount, ho, hopcode,
            (Fallible.pure_eq_ok_iff.1 hresult).symm⟩
      · exact nomatch h
    · rintro ⟨mnemonic', o, opcode, hsome, hcount, ho, hopcode, rfl⟩
      obtain rfl := Option.some.inj hsome
      rw [if_pos hcount]
      exact Fallible.bind_eq_ok_iff.2 ⟨o, ho, by rw [hopcode]; rfl⟩

/-- **A line without a token, and no other, is assembled to nothing.** -/
theorem assembleLine_eq_ok_none_iff {p : Punctuation} {line : Text} :
    assembleLine p line = .ok none ↔ tokens (code p.comment line) = [] := by
  cases htokens : tokens (code p.comment line) with
  | nil => simp [assembleLine, htokens]
  | cons name operands =>
    rw [assembleLine_eq_ok_iff htokens]
    constructor
    · rintro ⟨_, _, _, -, -, -, -, h⟩
      exact nomatch h
    · exact fun h => nomatch h

/-- **A line is assembled to an instruction** exactly if it starts with a mnemonic, the
rest of it designates something, and the instruction encodes the two. -/
theorem assembleLine_eq_ok_some_iff {p : Punctuation} {line : Text} {t : Triple} :
    assembleLine p line = .ok (some t) ↔
      ∃ name operands mnemonic d, tokens (code p.comment line) = name :: operands ∧
        Mnemonic.ofText? name = some mnemonic ∧ Designates p mnemonic operands d ∧
          t.Encodes mnemonic d := by
  constructor
  · intro h
    cases htokens : tokens (code p.comment line) with
    | nil => exact nomatch (assembleLine_eq_ok_none_iff.2 htokens).symm.trans h
    | cons name operands =>
      obtain ⟨mnemonic, o, opcode, hname, -, ho, hopcode, ht⟩ :=
        (assembleLine_eq_ok_iff htokens).1 h
      obtain ⟨d, hd, rfl⟩ := Operands.resolve_eq_ok_iff.1 ho
      obtain rfl := Option.some.inj ht
      exact ⟨name, operands, mnemonic, d, rfl, hname, hd,
        ⟨Form.ofOpcode?_eq_some_iff.2 hopcode, rfl, rfl⟩⟩
  · rintro ⟨name, operands, mnemonic, d, htokens, hname, hd, ht⟩
    refine (assembleLine_eq_ok_iff htokens).2 ⟨mnemonic, d.operands, t.opcode, hname, ?_,
      Operands.resolve_eq_ok_iff.2 ⟨d, hd, rfl⟩, Form.ofOpcode?_eq_some_iff.1 ht.opcode, ?_⟩
    · exact List.any_eq_true.2 ⟨d.operands.mode, mem_modes_of_ofOpcode? ht.opcode,
        beq_iff_eq.2 hd.length_eq.symm⟩
    · rw [← ht.first, ← ht.second]

end EightBit
