import EightBit.CommandLine.Report
import EightBit.Proofs.Listing.Canonical
import EightBit.Proofs.Source.Program

/-!
# Listing and assembling

The two directions between images and source text. An image that can be listed is
assembled from its listing again, up to what no listing shows: the operand bytes that
nothing uses, and whatever follows the announced length
(`EightBit.assemble_listing`). An image that comes from the assembler can always be
listed, it comes back byte for byte, and each line of the listing is one of its
instructions (`EightBit.listing_assembled`).

Both are put together from the same two observations. A program is listed if each of
its instructions decodes to something, and its listing is then the spelling of all
that (`EightBit.listBody_eq_ok_iff`); and spelt-out lines, joined by line feeds, are
assembled to the canonical forms (`EightBit.assembleLines_listing`).
-/

namespace EightBit

open Fallible

/-! ### Programs -/

/-- **A line lists an instruction** if it is the spelling of what the instruction
decodes to. -/
def Triple.ListedAs (t : Triple) (line : Text) : Prop :=
  ∃ mnemonic d, t.Decodes mnemonic d ∧ line = d.line .standard mnemonic

theorem Triple.ListedAs.isLine {t : Triple} {line : Text} (h : t.ListedAs line) : IsLine line := by
  obtain ⟨mnemonic, d, -, rfl⟩ := h
  exact Designation.isLine_line Punctuation.clear_standard mnemonic d

/-- **The line for an instruction is assembled to its canonical form.** -/
theorem Triple.ListedAs.assembleLine {t : Triple} {line : Text} (h : t.ListedAs line) :
    assembleLine .standard line = .ok (some t.canonical) := by
  obtain ⟨mnemonic, d, hd, rfl⟩ := h
  exact Designation.assembleLine_line Punctuation.clear_standard hd.encodes_canonical

/-- **A program is listed** line by line, and where it stands does not matter. -/
theorem listBody_eq_ok_iff {program : List Triple} {listing : List Text} :
    listBody program = .ok listing ↔ List.Forall₂ Triple.ListedAs program listing := by
  -- The places of the instructions only matter to faults.
  have hnumbers : ∀ k, (program.zipIdx k).map Prod.fst = program := fun k => by simp
  rw [listBody, mapM_eq_ok_iff]
  conv_rhs => rw [← hnumbers 1]
  rw [List.forall₂_map_left_iff]
  simp only [Triple.listing_eq_ok_iff, Triple.ListedAs]

/-- **An image is listed** exactly if it announces a length that it has, and as many
bytes are a program that can be listed. -/
theorem disassemble_eq_ok_iff {values : List Byte} {listing : List Text} :
    disassemble values = .ok listing ↔
      ∃ high low program rest,
        values = headerMarker :: high :: low :: (program.flatMap Triple.bytes ++ rest) ∧
        3 * program.length = (Word.ofBytes high low).toNat ∧
        List.Forall₂ Triple.ListedAs program listing := by
  constructor
  · intro h
    match values with
    | marker :: high :: low :: rest =>
      simp only [disassemble, unless_eq_ok_iff, bind_eq_ok_iff, pure_eq_ok_iff, beq_iff_eq,
        List.isEmpty_iff] at h
      obtain ⟨rfl, hlength, lines, hlines, hcut, rfl⟩ := h
      have hbody := Triple.flatMap_bytes_ofBytes (rest.take (Word.ofBytes high low).toNat)
      rw [hcut, List.append_nil] at hbody
      refine ⟨high, low, _, rest.drop (Word.ofBytes high low).toNat, ?_, ?_,
        listBody_eq_ok_iff.1 hlines⟩
      · rw [hbody, List.take_append_drop]
      · rw [← length_flatMap_bytes, hbody, List.length_take, Nat.min_eq_left hlength]
    -- Too short for a header.
    | [] | [_] | [_, _] => exact nomatch h
  · rintro ⟨high, low, program, rest, rfl, hlength, hlisting⟩
    have htake : (program.flatMap Triple.bytes ++ rest).take (Word.ofBytes high low).toNat =
        program.flatMap Triple.bytes := by
      rw [← hlength, ← length_flatMap_bytes, List.take_left]
    simp only [disassemble, unless_eq_ok_iff, bind_eq_ok_iff, pure_eq_ok_iff, htake,
      Triple.ofBytes_flatMap_bytes]
    refine ⟨beq_self_eq_true _, ?_, listing, listBody_eq_ok_iff.2 hlisting, rfl, rfl⟩
    rw [List.length_append, length_flatMap_bytes]
    omega

/-- **The lines of a listing are assembled to the canonical forms** of what they
list. -/
theorem assembleLines_listing {program : List Triple} {listing : List Text}
    (h : List.Forall₂ Triple.ListedAs program listing) :
    assembleLines .standard 1 (lines (['\n'].intercalate listing)) =
      .ok (program.map Triple.canonical) := by
  have hreturn : ∀ {t : Triple} {line}, t.ListedAs (line ++ ['\r']) → t.ListedAs line := fun ht =>
    absurd (List.mem_append_right _ List.mem_cons_self) ht.isLine.carriageReturn
  have hlines := forall₂_lines (fun ht => ⟨ht.isLine.ne_nil, ht.isLine.lineFeed⟩) hreturn h
  refine assembleLines_of_forall₂ ?_
  rw [List.forall₂_map_right_iff]
  exact hlines.flip.imp fun _ _ ht => Triple.ListedAs.assembleLine ht

/-- The canonical forms of a program take as many bytes as the program. -/
theorem assemble_listing_eq_image {program : List Triple} {listing : List Text}
    (h : List.Forall₂ Triple.ListedAs program listing)
    (hlength : 3 * program.length ≤ maxBodyLength) :
    assemble .standard (['\n'].intercalate listing) = .ok (image (program.map Triple.canonical)) :=
  assemble_eq_ok_iff.2 ⟨program.map Triple.canonical, assembleLines_listing h,
    by rwa [List.length_map], rfl⟩

/-! ### From an image and back to it -/

/-- **Assembling undoes listing**, on every image that can be listed. The header comes
back as it was; of the body, the operand bytes that are used; and of what follows the
announced length, nothing. There is a line for each instruction, and an indexed
instruction keeps both operand bytes. -/
theorem assemble_listing {values : List Byte} {listing : List Text}
    (h : disassemble values = .ok listing) :
    ∃ (high low : Byte) (program : List Triple) (rest : List Byte),
      values = headerMarker :: high :: low :: (program.flatMap Triple.bytes ++ rest) ∧
      3 * program.length = (Word.ofBytes high low).toNat ∧
      listing.length = (Word.ofBytes high low).toNat / 3 ∧
      assemble .standard (['\n'].intercalate listing) =
        .ok (headerMarker :: high :: low :: (program.map Triple.canonical).flatMap Triple.bytes) ∧
      ∀ t ∈ program, ∀ mnemonic,
        Form.ofOpcode? t.opcode = some ⟨mnemonic, .indexedW⟩ ∨
          Form.ofOpcode? t.opcode = some ⟨mnemonic, .indexedX⟩ → t.canonical = t := by
  obtain ⟨high, low, program, rest, rfl, hlength, hlisting⟩ := disassemble_eq_ok_iff.1 h
  have hlt := (Word.ofBytes high low).toNat_lt
  refine ⟨high, low, program, rest, rfl, hlength, ?_, ?_, ?_⟩
  · rw [← hlisting.length_eq]
    omega
  · have hmax : 3 * program.length ≤ maxBodyLength := by
      rw [maxBodyLength]
      omega
    rw [assemble_listing_eq_image hlisting hmax, image_eq]
    rwa [List.length_map]
  · rintro t - mnemonic (ht | ht)
    · exact Triple.canonical_of_uses ht rfl rfl
    · exact Triple.canonical_of_uses ht rfl rfl

/-- Two instructions, the first with an operand byte that nothing uses and the second
with a base past the first page, and one byte too many after them. -/
theorem assemble_listing_two_loads :
    disassemble [0x7F, 0, 6, 4, 0x12, 0x99, 2, 0x34, 0x01, 0xFF] =
        .ok ["LDA #$12".toList, "LDA $0134, W".toList] ∧
      ∃ (high low : Byte) (program : List Triple) (rest : List Byte),
        [0x7F, 0, 6, 4, 0x12, 0x99, 2, 0x34, 0x01, 0xFF] =
          headerMarker :: high :: low :: (program.flatMap Triple.bytes ++ rest) ∧
        assemble .standard (['\n'].intercalate ["LDA #$12".toList, "LDA $0134, W".toList]) =
          .ok (headerMarker :: high :: low ::
            (program.map Triple.canonical).flatMap Triple.bytes) := by
  have h : disassemble [0x7F, 0, 6, 4, 0x12, 0x99, 2, 0x34, 0x01, 0xFF] =
      .ok ["LDA #$12".toList, "LDA $0134, W".toList] := by decide
  obtain ⟨high, low, program, rest, hvalues, -, -, hassemble, -⟩ := assemble_listing h
  exact ⟨h, high, low, program, rest, hvalues, hassemble⟩

/-! ### From source text to an image and back -/

/-- What a line is assembled to can be listed. -/
theorem Triple.exists_listedAs {p : Punctuation} {line : Text} {t : Triple}
    (h : EightBit.assembleLine p line = .ok (some t)) :
    t.canonical = t ∧ ∃ listed, t.ListedAs listed := by
  obtain ⟨_, _, mnemonic, d, -, -, -, ht⟩ := assembleLine_eq_ok_some_iff.1 h
  exact ⟨ht.canonical_eq, _, mnemonic, d, ht.decodes, rfl⟩

/-- **The line for a canonical instruction, on its own,** is assembled to the image of
just that instruction. -/
theorem Triple.ListedAs.assemble {t : Triple} {listed : Text} (h : t.ListedAs listed)
    (hcanonical : t.canonical = t) :
    assemble .standard listed = .ok (headerMarker :: 0 :: 3 :: t.bytes) := by
  have hmax : 3 * [t].length ≤ maxBodyLength := by
    rw [List.length_singleton]
    decide
  have hone := assemble_listing_eq_image (.cons h .nil) hmax
  rw [List.intercalate_singleton, List.map_singleton, hcanonical] at hone
  rw [hone, @image_eq [t] 0 3 rfl, List.flatMap_singleton]

/-- **The instructions of source text can be listed**, one line for each. -/
theorem exists_listing {p : Punctuation} {ls : List Text} {program : List Triple}
    (h : List.Forall₂ (fun line t => assembleLine p line = .ok (some t)) ls program) :
    (∀ t ∈ program, t.canonical = t) ∧ ∃ listing, List.Forall₂ Triple.ListedAs program listing ∧
      List.Forall₂ (fun line listed => ∃ t, assembleLine p line = .ok (some t) ∧
        assemble .standard listed = .ok (headerMarker :: 0 :: 3 :: t.bytes)) ls listing := by
  induction h with
  | nil => exact ⟨List.forall_mem_nil _, [], .nil, .nil⟩
  | cons ht _ ih =>
    obtain ⟨hcanonical, listed, hlisted⟩ := Triple.exists_listedAs ht
    obtain ⟨hall, listing, hprogram, hlines⟩ := ih
    exact ⟨List.forall_mem_cons.2 ⟨hcanonical, hall⟩, listed :: listing, .cons hlisted hprogram,
      .cons ⟨_, ht, hlisted.assemble hcanonical⟩ hlines⟩

/-- What can be listed can be printed. -/
theorem exists_printProgram {values : List Byte} {listing : List Text}
    (h : disassemble values = .ok listing) (loadAddress : Word) :
    ∃ text, printProgram loadAddress values = .ok text := by
  rw [printProgram, h]
  cases Triple.ofBytes values with
  | mk program cut =>
    cases program with
    | nil => exact ⟨_, rfl⟩
    | cons head program => exact ⟨_, rfl⟩

/-- **What the assembler writes can be listed**, whatever the punctuation and the
source text. The listing has a line for each line of source text that holds an
instruction, in the same order; it is assembled to the same image again, and each of
its lines on its own to the three bytes at its place. So a program just assembled can
always be printed. -/
theorem listing_assembled {p : Punctuation} {source : Text} {values : List Byte}
    (h : assemble p source = .ok values) :
    ∃ listing, disassemble values = .ok listing ∧
      List.Forall₂ (fun line listed => ∃ t, assembleLine p line = .ok (some t) ∧
          assemble .standard listed = .ok (headerMarker :: 0 :: 3 :: t.bytes))
        ((lines source).filter p.holdsInstruction) listing ∧
      assemble .standard (['\n'].intercalate listing) = .ok values ∧
      values.length = 3 + 3 * listing.length ∧
      (∀ i (hi : i < listing.length), assemble .standard listing[i] =
        .ok (headerMarker :: 0 :: 3 :: (values.drop (3 + 3 * i)).take 3)) ∧
      ∀ loadAddress, ∃ text, printProgram loadAddress values = .ok text := by
  obtain ⟨program, hprogram, hlength, rfl⟩ := assemble_eq_ok_iff.1 h
  rw [assembleLines_eq_ok_iff] at hprogram
  obtain ⟨hcanonical, listing, hlisting, hlines⟩ := exists_listing hprogram
  obtain ⟨high, low, hheader⟩ := exists_header hlength
  have hdisassemble : disassemble (image program) = .ok listing :=
    disassemble_eq_ok_iff.2 ⟨high, low, program, [], by rw [image_eq hheader, List.append_nil],
      hheader, hlisting⟩
  refine ⟨listing, hdisassemble, hlines, ?_, ?_, ?_, exists_printProgram hdisassemble⟩
  · have hmap : program.map Triple.canonical = program := by
      rw [List.map_congr_left hcanonical, List.map_id']
    rw [assemble_listing_eq_image hlisting hlength, hmap]
  · rw [length_image, hlisting.length_eq]
  · intro i hi
    have hi' : i < program.length := by
      rw [hlisting.length_eq]
      exact hi
    rw [take_drop_image program i hi']
    exact ((List.forall₂_iff_get.1 hlisting).2 i hi' hi).assemble
      (hcanonical _ (List.getElem_mem hi'))

/-- A comment, a blank line and a mnemonic in lower case, with other marks than the
customary ones. -/
theorem listing_assembled_other_marks :
    assemble ⟨'!', '=', '&', '^'⟩ "! note\n\n lda ,=^1f ! x".toList = .ok [0x7F, 0, 3, 4, 0x1F, 0] ∧
      ∃ listing, disassemble [0x7F, 0, 3, 4, 0x1F, 0] = .ok listing ∧
        assemble .standard (['\n'].intercalate listing) = .ok [0x7F, 0, 3, 4, 0x1F, 0] := by
  have h : assemble ⟨'!', '=', '&', '^'⟩ "! note\n\n lda ,=^1f ! x".toList =
      .ok [0x7F, 0, 3, 4, 0x1F, 0] := by decide
  obtain ⟨listing, hlisting, -, hassemble, -⟩ := listing_assembled h
  exact ⟨h, listing, hlisting, hassemble⟩

end EightBit
