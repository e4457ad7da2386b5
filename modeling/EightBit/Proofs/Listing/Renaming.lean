import EightBit.Proofs.Listing.RoundTrip
import EightBit.Proofs.Source.Comments

/-!
# Listings with other marks

A listing is written with the customary marks. Put another mark in place of each `#` and another
one in place of each `$`, both at once, and the punctuation that has these marks reads it as what
it was (`EightBit.assemble_renamed`). Any punctuation will do that is clear, and letters may be
marks, too: a hexadecimal number may begin with the letter that marks it, and a register be named
by the letter that marks immediate operands.

There is little to do. The words for a designation are spelt out with the marks of any clear
punctuation, and everything that has been said of them holds of them all
(`EightBit.Designation.assembleLine_line`). So it is enough that another choice of marks comes
down to replacing characters (`EightBit.Designation.map_rename_line`).

Each line may have a comment after it. The one thing to be seen to is that a comment may end in a
carriage return, which is then taken off together with the line feed.
-/

namespace EightBit

/-! ### Replacing the marks -/

/-- Replacing the characters of some words leaves them where they are. -/
theorem map_intercalate (f : Char → Char) (separator : Text) (ws : List Text) :
    (separator.intercalate ws).map f = (separator.map f).intercalate (ws.map (List.map f)) := by
  induction ws with
  | nil => rfl
  | cons w ws ih =>
    cases ws with
    | nil => simp
    | cons v ws =>
      rw [List.intercalate_cons_cons, List.map_append, List.map_append, ih]
      exact (List.intercalate_cons_cons ..).symm

/-- **Another choice of marks**: what stands for a character of a listing. -/
def Punctuation.rename (p : Punctuation) (c : Char) : Char :=
  if c = '#' then p.immediate else if c = '$' then p.hex else c

namespace Punctuation

variable (p : Punctuation)

@[simp] theorem rename_immediate : p.rename standard.immediate = p.immediate := rfl

@[simp] theorem rename_hex : p.rename standard.hex = p.hex := rfl

theorem rename_of_ne {c : Char} (himmediate : c ≠ '#') (hhex : c ≠ '$') : p.rename c = c := by
  rw [rename, if_neg himmediate, if_neg hhex]

/-- Letters and digits stay what they are. -/
theorem rename_of_isAlphanum {c : Char} (h : c.isAlphanum = true) : p.rename c = c := by
  refine p.rename_of_ne ?_ ?_
  · rintro rfl
    exact absurd h (by decide)
  · rintro rfl
    exact absurd h (by decide)

theorem map_rename_of_isAlphanum {text : Text} (h : ∀ c ∈ text, c.isAlphanum = true) :
    text.map p.rename = text := by
  rw [List.map_congr_left fun c hc => p.rename_of_isAlphanum (h c hc), List.map_id']

end Punctuation

namespace Designation

variable (p : Punctuation)

theorem map_rename_hexByte (b : Byte) :
    (Numeral.hexByte b).map p.rename = Numeral.hexByte b :=
  p.map_rename_of_isAlphanum fun _ => mem_hexByte

theorem map_rename_hexWord (w : Word) :
    (Numeral.hexWord w).map p.rename = Numeral.hexWord w :=
  p.map_rename_of_isAlphanum fun _ => mem_hexWord

theorem map_rename_name (r : Register) : r.name.map p.rename = r.name :=
  p.map_rename_of_isAlphanum fun _ => Register.isAlphanum_of_mem_name

theorem map_rename_decimal (i : Int) :
    (Numeral.decimal i).map p.rename = Numeral.decimal i := by
  obtain ⟨c, rest, hcons, hc, hrest⟩ := Numeral.decimal_eq_cons i
  have hdigits : ∀ {d : Char}, d.isDigit = true → d.isAlphanum = true := by
    intro d hd
    rw [Char.isAlphanum, hd, Bool.or_true]
  have hfirst : p.rename c = c := by
    rcases hc with rfl | hc
    · exact p.rename_of_ne (by decide) (by decide)
    · exact p.rename_of_isAlphanum (hdigits hc)
  rw [hcons, List.map_cons, hfirst,
    p.map_rename_of_isAlphanum fun d hd => hdigits (hrest d hd)]

theorem map_rename_baseWord (base : Word) :
    (baseWord .standard base).map p.rename = baseWord p base := by
  rw [baseWord, baseWord]
  split
  · rw [List.map_cons, p.rename_hex, map_rename_hexByte]
  · rw [List.map_cons, p.rename_hex, map_rename_hexWord]

/-- **The words for a designation**, with other marks. -/
theorem map_rename_words (d : Designation) :
    (d.words .standard).map (List.map p.rename) = d.words p := by
  have hopen : p.rename '(' = '(' := p.rename_of_ne (by decide) (by decide)
  have hclose : p.rename ')' = ')' := p.rename_of_ne (by decide) (by decide)
  cases d <;>
    simp only [words, List.map_nil, List.map_cons, List.map_append, p.rename_immediate,
      p.rename_hex, hopen, hclose, map_rename_hexByte, map_rename_hexWord, map_rename_name,
      map_rename_decimal, map_rename_baseWord]

/-- Words on a line stay on the line. -/
theorem map_rename_spell (ws : List Text) :
    (spell ws).map p.rename = spell (ws.map (List.map p.rename)) := by
  have hspace : p.rename ' ' = ' ' := p.rename_of_ne (by decide) (by decide)
  have hcomma : p.rename ',' = ',' := p.rename_of_ne (by decide) (by decide)
  cases ws with
  | nil => rfl
  | cons w ws =>
    rw [spell, List.map_cons, map_intercalate, List.map_cons, List.map_cons, List.map_nil, hspace,
      hcomma]
    · rfl
    · exact List.cons_ne_nil w ws

/-- **The line for a designation**, with other marks. -/
theorem map_rename_line (mnemonic : Mnemonic) (d : Designation) :
    (d.line .standard mnemonic).map p.rename = d.line p mnemonic := by
  rw [line, line, List.map_append, map_rename_spell, map_rename_words,
    p.map_rename_of_isAlphanum fun _ => Mnemonic.isAlphanum_of_mem_text]

end Designation

/-! ### Comments after lines -/

/-- **A line with other marks**, and with a comment after it or without one. -/
inductive Punctuation.Renamed (p : Punctuation) (line : Text) : Text → Prop
  | bare : Renamed p line (line.map p.rename)
  | commented {comment : Text} : '\n' ∉ comment →
    Renamed p line (line.map p.rename ++ p.comment :: comment)

/-- **A line lists an instruction** with other marks. -/
def Triple.ListedWith (p : Punctuation) (t : Triple) (line : Text) : Prop :=
  ∃ listed, t.ListedAs listed ∧ p.Renamed listed line

namespace Triple.ListedWith

variable {p : Punctuation} {t : Triple} {line : Text}

/-- The line for what an instruction decodes to, and maybe a comment. -/
theorem eq_line (h : t.ListedWith p line) :
    ∃ mnemonic d, t.Decodes mnemonic d ∧ (line = d.line p mnemonic ∨
      ∃ comment, '\n' ∉ comment ∧ line = d.line p mnemonic ++ p.comment :: comment) := by
  obtain ⟨_, ⟨mnemonic, d, hd, rfl⟩, hline⟩ := h
  refine ⟨mnemonic, d, hd, ?_⟩
  rcases hline with _ | hcomment
  · exact Or.inl (d.map_rename_line p mnemonic)
  · exact Or.inr ⟨_, hcomment, by rw [d.map_rename_line]⟩

/-- **It is assembled to the canonical form** of the instruction. -/
theorem assembleLine (hp : p.Clear) (h : t.ListedWith p line) :
    assembleLine p line = .ok (some t.canonical) := by
  have hmark : p.comment ≠ quoteMark :=
    ne_quoteMark_of_isPlain (hp.isPlain _ p.comment_mem_marks)
  obtain ⟨mnemonic, d, hd, hline⟩ := h.eq_line
  have hbare := Designation.assembleLine_line hp hd.encodes_canonical
  rcases hline with rfl | ⟨comment, -, rfl⟩
  · exact hbare
  · have hcode := code_comment_of_unmarked hmark (Designation.unmarked_line hp mnemonic d) comment
    rw [← hbare]
    exact assembleLine_of_tokens_eq (by rw [hcode, Designation.code_line hp])

/-- It can stand on a line of its own, up to a carriage return at the end. -/
theorem ne_nil_and_not_mem (hp : p.Clear) (h : t.ListedWith p line) :
    line ≠ [] ∧ '\n' ∉ line := by
  have hcomment : isPlain p.comment := hp.isPlain _ p.comment_mem_marks
  obtain ⟨mnemonic, d, -, hline⟩ := h.eq_line
  have hbare := d.isLine_line hp mnemonic
  rcases hline with rfl | ⟨comment, hfeed, rfl⟩
  · exact ⟨hbare.ne_nil, hbare.lineFeed⟩
  · refine ⟨List.append_ne_nil_of_left_ne_nil hbare.ne_nil _, fun hmem => ?_⟩
    rcases List.mem_append.1 hmem with hmem | hmem
    · exact hbare.lineFeed hmem
    · rcases List.mem_cons.1 hmem with hmark | hmem
      · exact absurd (hmark ▸ hcomment) (by decide)
      · exact hfeed hmem

/-- **A carriage return at the end** is a part of the comment, which can do without it. -/
theorem of_carriageReturn (hp : p.Clear) (h : t.ListedWith p (line ++ ['\r'])) :
    t.ListedWith p line := by
  have hcomment : isPlain p.comment := hp.isPlain _ p.comment_mem_marks
  have hend : '\r' ∈ line ++ ['\r'] := List.mem_append_right line List.mem_cons_self
  obtain ⟨mnemonic, d, hd, hline⟩ := h.eq_line
  have hbare := d.isLine_line hp mnemonic
  rcases hline with hline | ⟨comment, hfeed, hline⟩
  · exact absurd (hline ▸ hend) hbare.carriageReturn
  · refine ⟨_, ⟨mnemonic, d, hd, rfl⟩, ?_⟩
    rcases List.eq_nil_or_concat comment with rfl | ⟨comment, c, rfl⟩
    · obtain ⟨-, hmark⟩ := List.append_inj' hline rfl
      exact absurd ((List.cons.inj hmark).1 ▸ hcomment) (by decide)
    · have hcons : line ++ ['\r'] = d.line p mnemonic ++ p.comment :: comment ++ [c] := by
        rw [hline, List.concat_eq_append, List.append_assoc, List.cons_append]
      obtain ⟨rfl, -⟩ := List.append_inj' hcons rfl
      rw [← d.map_rename_line p mnemonic]
      refine .commented fun hmem => hfeed ?_
      rw [List.concat_eq_append]
      exact List.mem_append_left [c] hmem

end Triple.ListedWith

/-! ### Listings -/

/-- Each line of a listing, with other marks, lists what the line does. -/
theorem forall₂_listedWith {p : Punctuation} {program : List Triple} {listing source : List Text}
    (h : List.Forall₂ Triple.ListedAs program listing)
    (hsource : List.Forall₂ p.Renamed listing source) :
    List.Forall₂ (Triple.ListedWith p) program source := by
  induction h generalizing source with
  | nil =>
    rw [List.forall₂_nil_left_iff] at hsource
    exact hsource ▸ .nil
  | cons hlisted _ ih =>
    obtain ⟨line, source, hline, hrest, rfl⟩ := List.forall₂_cons_left_iff.1 hsource
    exact .cons ⟨_, hlisted, hline⟩ (ih hrest)

/-- **A listing with other marks is assembled to the image that it was before**, by any clear
punctuation with these marks. There may be a comment after each of its lines. -/
theorem assemble_renamed {p : Punctuation} (hp : p.Clear) {values : List Byte}
    {listing source : List Text} (h : disassemble values = .ok listing)
    (hsource : List.Forall₂ p.Renamed listing source) :
    ∃ values', assemble .standard (['\n'].intercalate listing) = .ok values' ∧
      assemble p (['\n'].intercalate source) = .ok values' := by
  obtain ⟨high, low, program, rest, rfl, hlength, hlisting⟩ := disassemble_eq_ok_iff.1 h
  have hmax : 3 * program.length ≤ maxBodyLength := by
    have hlt := (Word.ofBytes high low).toNat_lt
    rw [maxBodyLength]
    omega
  have hlines := forall₂_lines (fun h => h.ne_nil_and_not_mem hp)
    (fun h => h.of_carriageReturn hp) (forall₂_listedWith hlisting hsource)
  refine ⟨_, assemble_listing_eq_image hlisting hmax, assemble_eq_ok_iff.2 ⟨_, ?_, ?_, rfl⟩⟩
  · refine assembleLines_of_forall₂ ?_
    rw [List.forall₂_map_right_iff]
    exact hlines.flip.imp fun _ _ hline => Triple.ListedWith.assembleLine hp hline
  · rwa [List.length_map]

/-- Letters for marks: a number in hexadecimal begins with A, an immediate operand with X and with
it the name of a register, and the comment ends in a carriage return. -/
theorem assemble_renamed_letters :
    disassemble [0x7F, 0, 6, 4, 0x0A, 0, 3, 0xAB, 0xCD] =
        .ok ["LDA #$0A".toList, "LDA $CDAB, X".toList] ∧
      Punctuation.Clear ⟨'~', 'X', 'W', 'A'⟩ ∧
      assemble ⟨'~', 'X', 'W', 'A'⟩ "LDA XA0A~it's #1\r\nLDA ACDAB, X".toList =
        .ok [0x7F, 0, 6, 4, 0x0A, 0, 3, 0xAB, 0xCD] := by
  have hlisting : disassemble [0x7F, 0, 6, 4, 0x0A, 0, 3, 0xAB, 0xCD] =
      .ok ["LDA #$0A".toList, "LDA $CDAB, X".toList] := by decide
  have hclear : Punctuation.Clear ⟨'~', 'X', 'W', 'A'⟩ := {
    nodup := by decide
    isPlain := forall_mem_of_all (by decide)
    not_bracket_or_sign := forall_mem_of_all (by decide)
    not_digit := forall_mem_of_all (by decide)
    comment_not_letter := by decide }
  have hsource : List.Forall₂ (Punctuation.Renamed ⟨'~', 'X', 'W', 'A'⟩)
      ["LDA #$0A".toList, "LDA $CDAB, X".toList]
      ["LDA XA0A~it's #1\r".toList, "LDA ACDAB, X".toList] :=
    .cons (@Punctuation.Renamed.commented ⟨'~', 'X', 'W', 'A'⟩ _ "it's #1\r".toList (by decide))
      (.cons .bare .nil)
  obtain ⟨values, hstandard, hletters⟩ := assemble_renamed hclear hlisting hsource
  have hvalues : assemble .standard
      (['\n'].intercalate ["LDA #$0A".toList, "LDA $CDAB, X".toList]) =
        .ok [0x7F, 0, 6, 4, 0x0A, 0, 3, 0xAB, 0xCD] := by decide
  obtain rfl := Except.ok.inj (hstandard.symm.trans hvalues)
  exact ⟨hlisting, hclear, hletters⟩

end EightBit
