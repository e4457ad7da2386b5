import EightBit.Proofs.Listing.Spelling

/-!
# Instructions in canonical form

Not every operand byte means something. An immediate instruction ignores its second
operand byte, and an instruction without an operand ignores both. What a listing
cannot show, it cannot give back, so the instruction that is assembled from a listing
is the listed one with zeros in place of what is ignored: its canonical form
(`EightBit.Triple.canonical`).

Going through the canonical form splits the round trip in two. An instruction that
*decodes* to something is listed as the spelling of that
(`EightBit.Triple.listing_eq_ok_iff`), and its canonical form *encodes* the same thing
(`EightBit.Triple.Decodes.encodes_canonical`). What the assembler writes is canonical
from the start (`EightBit.Triple.Encodes.canonical_eq`).
-/

namespace EightBit

/-! ### What is read of an instruction -/

/-- Whether an instruction in a mode has a use for its first operand byte. -/
def Mode.usesFirst : Mode → Bool
  | implicit | accumulator => false
  | immediate | absolute | absoluteIndirect | relative | registerCoded | indexedW | indexedX => true

/-- Whether an instruction in a mode has a use for its second operand byte. -/
def Mode.usesSecond : Mode → Bool
  | implicit | accumulator | immediate | relative => false
  | absolute | absoluteIndirect | registerCoded | indexedW | indexedX => true

namespace Triple

/-- **The canonical form** of an instruction: zero in place of every operand byte that
its mode has no use for. -/
def canonical (t : Triple) : Triple :=
  match Form.ofOpcode? t.opcode with
  | some form =>
    { t with
      first := if form.mode.usesFirst then t.first else 0
      second := if form.mode.usesSecond then t.second else 0 }
  | none => t

theorem canonical_eq {t : Triple} {form : Form} (h : Form.ofOpcode? t.opcode = some form) :
    t.canonical = ⟨t.opcode, if form.mode.usesFirst then t.first else 0,
      if form.mode.usesSecond then t.second else 0⟩ := by
  rw [canonical, h]

/-- An instruction in a mode that uses both operand bytes is canonical. -/
theorem canonical_of_uses {t : Triple} {form : Form} (h : Form.ofOpcode? t.opcode = some form)
    (hfirst : form.mode.usesFirst = true) (hsecond : form.mode.usesSecond = true) :
    t.canonical = t := by
  rw [canonical_eq h, if_pos hfirst, if_pos hsecond]

@[simp] theorem opcode_canonical (t : Triple) : t.canonical.opcode = t.opcode := by
  rw [canonical]
  split <;> rfl

/-- **An instruction decodes** to a mnemonic and what its operand bytes designate. -/
structure Decodes (t : Triple) (mnemonic : Mnemonic) (d : Designation) : Prop where
  opcode : Form.ofOpcode? t.opcode = some ⟨mnemonic, d.operands.mode⟩
  operands : Designation.decode? d.operands.mode t.first t.second = some d

variable {t : Triple} {mnemonic : Mnemonic} {d : Designation}

/-- What is encoded can be decoded. -/
theorem Encodes.decodes (h : t.Encodes mnemonic d) : t.Decodes mnemonic d :=
  ⟨h.opcode, by rw [h.first, h.second, d.decode?_operands]⟩

/-- **The canonical form encodes what the instruction decodes to.** -/
theorem Decodes.encodes_canonical (h : t.Decodes mnemonic d) : t.canonical.Encodes mnemonic d := by
  obtain ⟨hopcode, hoperands⟩ := h
  rw [canonical_eq hopcode]
  cases d with
  | nothing | accumulator => exact ⟨hopcode, rfl, rfl⟩
  | value v | distance v =>
    cases hoperands
    exact ⟨hopcode, rfl, rfl⟩
  | cell address | pointer address | indexedW base | indexedX base =>
    cases hoperands
    refine ⟨hopcode, ?_, ?_⟩
    · simp [Designation.operands, Mode.usesFirst]
    · simp [Designation.operands, Mode.usesSecond]
  | registers source target =>
    -- Both bytes had to be indices of registers, and an index has only one register.
    simp only [Designation.operands, Designation.decode?, Option.bind_eq_bind,
      Option.bind_eq_some_iff, Option.pure_def, Option.some.injEq,
      Designation.registers.injEq] at hoperands
    obtain ⟨source', hsource, target', htarget, rfl, rfl⟩ := hoperands
    exact ⟨hopcode, (Register.index_of_ofIndex? hsource).symm,
      (Register.index_of_ofIndex? htarget).symm⟩

/-- **What the assembler writes is canonical.** -/
theorem Encodes.canonical_eq (h : t.Encodes mnemonic d) : t.canonical = t := by
  -- Both encode the same thing, and that determines all three bytes.
  have hcanonical := h.decodes.encodes_canonical
  have hopcode := t.opcode_canonical
  have hfirst := hcanonical.first.trans h.first.symm
  have hsecond := hcanonical.second.trans h.second.symm
  revert hopcode hfirst hsecond
  generalize t.canonical = t'
  intro hopcode hfirst hsecond
  cases t
  cases t'
  exact (Triple.mk.injEq ..).mpr ⟨hopcode, hfirst, hsecond⟩

/-! ### The line for an instruction -/

theorem register_eq_ok_iff {index : Byte} {r : Register} :
    register index = .ok r ↔ Register.ofIndex? index = some r := by
  rw [register]
  cases Register.ofIndex? index with
  | none => simp
  | some r' => simp

theorem pageOffset_eq (t : Triple) :
    t.pageOffset = Designation.baseWord .standard (Word.ofBytes t.second t.first) := by
  rw [pageOffset, Designation.baseWord, Word.high_ofBytes, Word.low_ofBytes]
  rfl

/-- **The operands of an instruction in print** are the words for what they
designate. -/
theorem operandText_eq_ok_iff {mode : Mode} {text : Text} :
    t.operandText mode = .ok text ↔
      ∃ d, Designation.decode? mode t.first t.second = some d ∧
        text = Designation.spell (d.words .standard) := by
  have hsome : ∀ (d' : Designation) (line : Text), line = Designation.spell (d'.words .standard) →
      ((.ok line : Except Fault Text) = .ok text ↔
        ∃ d, some d' = some d ∧ text = Designation.spell (d.words .standard)) := by
    rintro d' _ rfl
    constructor
    · exact fun h => ⟨d', rfl, (Except.ok.inj h).symm⟩
    · rintro ⟨d, hd, rfl⟩
      obtain rfl := Option.some.inj hd
      rfl
  cases mode with
  | implicit => exact hsome .nothing _ rfl
  | accumulator => exact hsome .accumulator _ rfl
  | immediate => exact hsome (.value t.first) _ (Designation.spell_singleton _).symm
  | absolute =>
    exact hsome (.cell (Word.ofBytes t.first t.second)) _ (Designation.spell_singleton _).symm
  | absoluteIndirect =>
    exact hsome (.pointer (Word.ofBytes t.first t.second)) _ (Designation.spell_singleton _).symm
  | relative => exact hsome (.distance t.first) _ (Designation.spell_singleton _).symm
  | registerCoded =>
    simp only [operandText, Fallible.bind_eq_ok_iff, register_eq_ok_iff, Fallible.pure_eq_ok_iff,
      Designation.decode?, Option.bind_eq_bind, Option.bind_eq_some_iff, Option.pure_def,
      Option.some.injEq]
    constructor
    · rintro ⟨source, hsource, target, htarget, rfl⟩
      exact ⟨.registers source target, ⟨source, hsource, target, htarget, rfl⟩, rfl⟩
    · rintro ⟨d, ⟨source, hsource, target, htarget, rfl⟩, rfl⟩
      exact ⟨source, hsource, target, htarget, rfl⟩
  | indexedW =>
    rw [operandText, pageOffset_eq]
    exact hsome (.indexedW (Word.ofBytes t.second t.first)) _ (Designation.spell_pair _ _).symm
  | indexedX =>
    rw [operandText, pageOffset_eq]
    exact hsome (.indexedX (Word.ofBytes t.second t.first)) _ (Designation.spell_pair _ _).symm

/-- **The listing of an instruction** is the line for what it decodes to, wherever it
stands. -/
theorem listing_eq_ok_iff {address : Word} {text : Text} :
    t.listing address = .ok text ↔
      ∃ mnemonic d, t.Decodes mnemonic d ∧ text = d.line .standard mnemonic := by
  rw [listing]
  constructor
  · intro h
    cases hform : Form.ofOpcode? t.opcode with
    | none =>
      rw [hform] at h
      exact absurd h Fallible.throw_ne_ok
    | some form =>
      obtain ⟨mnemonic, mode⟩ := form
      rw [hform] at h
      obtain ⟨operands, hoperands, htext⟩ := Fallible.bind_eq_ok_iff.1 h
      obtain ⟨d, hd, rfl⟩ := operandText_eq_ok_iff.1 hoperands
      obtain rfl := Designation.mode_operands_of_decode? hd
      exact ⟨mnemonic, d, ⟨hform, hd⟩, (Fallible.pure_eq_ok_iff.1 htext).symm⟩
  · rintro ⟨mnemonic, d, ⟨hopcode, hd⟩, rfl⟩
    rw [hopcode]
    exact Fallible.bind_eq_ok_iff.2 ⟨_, operandText_eq_ok_iff.2 ⟨d, hd, rfl⟩, rfl⟩

end Triple

end EightBit
