import EightBit.Proofs.Listing.RoundTrip

/-!
# Images that cannot be listed

An image that can be listed is assembled from its listing again. This file is about the others:
which they are, and what each is refused for. There are three things that may be wrong with an
image as a whole, and two with an instruction of its body; all of them are rules of
`EightBit.ListingFault`.

The order in which they are looked for is part of the rules. The header comes first, then the
length that it announces, and then the body from its front, so whatever is wrong with an
instruction counts only if the instructions before it can be listed
(`EightBit.Triple.Listable`), and an instruction that is cut short at the end of the body counts
only if all of them can. The place of an instruction is told exactly: a body is never longer than
a word can say, and neither are the places in it.

A fault that follows by a rule is the one that is reported
(`EightBit.ListingFault.disassemble_eq`), and an image that no rule applies to can be listed
(`EightBit.exists_listing_or_listingFault`).
-/

namespace EightBit

open Fallible

/-! ### Instructions that cannot be listed -/

/-- **The index of a register**, by its number. -/
def IsRegisterIndex (i : Byte) : Prop :=
  1 ≤ i.toNat ∧ i.toNat ≤ 5

instance (i : Byte) : Decidable (IsRegisterIndex i) :=
  inferInstanceAs (Decidable (_ ∧ _))

theorem Register.ofIndex?_eq_none_iff_not {i : Byte} : ofIndex? i = none ↔ ¬IsRegisterIndex i := by
  rw [ofIndex?_eq_none_iff, IsRegisterIndex]
  omega

theorem Register.exists_ofIndex?_iff {i : Byte} :
    (∃ r, ofIndex? i = some r) ↔ IsRegisterIndex i := by
  rw [← Option.ne_none_iff_exists', Ne, ofIndex?_eq_none_iff_not, not_not]

/-- Only MOV has registers for operands. -/
theorem Form.eq_mov {opcode : Byte} {form : Form} (h : ofOpcode? opcode = some form)
    (hmode : form.mode = .registerCoded) : form = ⟨.mov, .registerCoded⟩ := by
  have hall : ∀ form ∈ table, form.mode = .registerCoded → form = ⟨.mov, .registerCoded⟩ := by
    decide
  exact hall form (List.mem_of_getElem? h) hmode

namespace Triple

/-- **An instruction can be listed**: its opcode is one, and if it copies registers, there are
registers with these indices. -/
structure Listable (t : Triple) : Prop where
  opcode : t.opcode.toNat < 91
  registers : Form.ofOpcode? t.opcode = some ⟨.mov, .registerCoded⟩ →
    IsRegisterIndex t.first ∧ IsRegisterIndex t.second

/-- **What is wrong with an instruction** at an address. -/
inductive Flaw (t : Triple) (address : Nat) : Fault → Prop
  /-- The first byte is no opcode. -/
  | opcode {place : Word} : 91 ≤ t.opcode.toNat → place.toNat = address →
    Flaw t address (.illegalInstruction t.opcode place)
  /-- There is no register to copy from. -/
  | source : Form.ofOpcode? t.opcode = some ⟨.mov, .registerCoded⟩ → ¬IsRegisterIndex t.first →
    Flaw t address (.invalidRegister t.first)
  /-- There is a register to copy from, but none to copy to. -/
  | target : Form.ofOpcode? t.opcode = some ⟨.mov, .registerCoded⟩ → IsRegisterIndex t.first →
    ¬IsRegisterIndex t.second → Flaw t address (.invalidRegister t.second)

variable {t : Triple} {fault : Fault}

/-- The operand bytes of an instruction that can be listed designate something. -/
theorem Listable.exists_decode? (h : t.Listable) {form : Form}
    (hform : Form.ofOpcode? t.opcode = some form) :
    ∃ d, Designation.decode? form.mode t.first t.second = some d := by
  cases hmode : form.mode with
  | registerCoded =>
    obtain rfl := Form.eq_mov hform hmode
    obtain ⟨hfirst, hsecond⟩ := h.registers hform
    obtain ⟨source, hsource⟩ := Register.exists_ofIndex?_iff.2 hfirst
    obtain ⟨target, htarget⟩ := Register.exists_ofIndex?_iff.2 hsecond
    exact ⟨.registers source target, by simp [Designation.decode?, hsource, htarget]⟩
  | _ => exact ⟨_, rfl⟩

/-- **An instruction can be listed** exactly if there is a line that lists it. -/
theorem listable_iff : t.Listable ↔ ∃ line, t.ListedAs line := by
  constructor
  · intro h
    have hsome : Form.ofOpcode? t.opcode ≠ none := by
      rw [Ne, Form.ofOpcode?_eq_none_iff]
      exact Nat.not_le.2 h.opcode
    obtain ⟨form, hform⟩ := Option.ne_none_iff_exists'.1 hsome
    obtain ⟨d, hd⟩ := h.exists_decode? hform
    obtain ⟨mnemonic, mode⟩ := form
    obtain rfl := Designation.mode_operands_of_decode? hd
    exact ⟨_, mnemonic, d, ⟨hform, hd⟩, rfl⟩
  · rintro ⟨_, mnemonic, d, ⟨hform, hd⟩, -⟩
    refine ⟨?_, fun hmov => ?_⟩
    · rw [← Nat.not_le, ← Form.ofOpcode?_eq_none_iff, hform]
      exact Option.some_ne_none _
    · obtain ⟨-, hmode⟩ := Form.mk.inj (Option.some.inj (hform.symm.trans hmov))
      rw [hmode] at hd
      simp only [Designation.decode?, Option.bind_eq_bind, Option.bind_eq_some_iff] at hd
      obtain ⟨source, hsource, target, htarget, -⟩ := hd
      exact ⟨Register.exists_ofIndex?_iff.1 ⟨source, hsource⟩,
        Register.exists_ofIndex?_iff.1 ⟨target, htarget⟩⟩

/-- **A flaw of an instruction** is what its listing is refused for. -/
theorem Flaw.listing_eq {place : Word} (h : t.Flaw place.toNat fault) :
    t.listing place = .error fault := by
  have hregister : ∀ {i}, ¬IsRegisterIndex i → register i = .error (.invalidRegister i) := by
    intro i hi
    rw [register, Register.ofIndex?_eq_none_iff_not.2 hi]
  cases h with
  | opcode hopcode hplace =>
    obtain rfl := UInt16.toNat_inj.1 hplace
    rw [listing, Form.ofOpcode?_eq_none_iff.2 hopcode]
    rfl
  | source hmov hfirst =>
    rw [listing, hmov]
    simp only [operandText, hregister hfirst]
    rfl
  | target hmov hfirst hsecond =>
    obtain ⟨source, hsource⟩ := Register.exists_ofIndex?_iff.2 hfirst
    rw [listing, hmov]
    simp only [operandText, register_eq_ok_iff.2 hsource, hregister hsecond]
    rfl

/-- An instruction that cannot be listed has a flaw, wherever it stands. -/
theorem exists_flaw (h : ¬t.Listable) (place : Word) : ∃ fault, t.Flaw place.toNat fault := by
  by_cases hopcode : t.opcode.toNat < 91
  · have hregisters : ¬(Form.ofOpcode? t.opcode = some ⟨.mov, .registerCoded⟩ →
        IsRegisterIndex t.first ∧ IsRegisterIndex t.second) := fun hr => h ⟨hopcode, hr⟩
    obtain ⟨hmov, hindices⟩ := Classical.not_imp.1 hregisters
    by_cases hfirst : IsRegisterIndex t.first
    · exact ⟨_, .target hmov hfirst fun hsecond => hindices ⟨hfirst, hsecond⟩⟩
    · exact ⟨_, .source hmov hfirst⟩
  · exact ⟨_, .opcode (Nat.not_lt.1 hopcode) rfl⟩

end Triple

/-! ### Programs -/

/-- Any run of bytes is a program and something left over. -/
theorem Triple.exists_cut (values : List Byte) :
    ∃ (program : List Triple) (left : List Byte), values = program.flatMap bytes ++ left ∧
      left.length < 3 :=
  ⟨_, _, (flatMap_bytes_ofBytes values).symm, length_left_lt values⟩

/-- The bytes of a program up to an instruction, the bytes of that, and all that follows. -/
theorem Triple.flatMap_bytes_append_cons (before : List Triple) (t : Triple) (after : List Triple)
    (left : List Byte) : (before ++ t :: after).flatMap bytes ++ left =
      before.flatMap bytes ++ t.bytes ++ (after.flatMap bytes ++ left) := by
  simp

/-- Instructions that can be listed are a program that can be listed. -/
theorem exists_listBody {program : List Triple} (h : ∀ t ∈ program, t.Listable) :
    ∃ listing, listBody program = .ok listing := by
  simp only [listBody_eq_ok_iff]
  induction program with
  | nil => exact ⟨[], .nil⟩
  | cons t program ih =>
    obtain ⟨ht, hprogram⟩ := List.forall_mem_cons.1 h
    obtain ⟨line, hline⟩ := Triple.listable_iff.1 ht
    obtain ⟨listing, hlisting⟩ := ih hprogram
    exact ⟨line :: listing, .cons hline hlisting⟩

/-- The address of an instruction in a body that is not too long. -/
theorem toNat_address {number : Nat} (h : 3 * number ≤ maxBodyLength) :
    (UInt16.ofNat (instructionWidth * number)).toNat = 3 * number := by
  have hlt : 3 * number < 2 ^ 16 := Nat.lt_of_le_of_lt h (by decide)
  exact UInt16.toNat_ofNat_of_lt hlt

/-- **The first flaw of a program** is what its listing is refused for. -/
theorem listBody_eq_error {before after : List Triple} {t : Triple} {fault : Fault}
    (hlength : 3 * (before.length + 1) ≤ maxBodyLength) (hbefore : ∀ t ∈ before, t.Listable)
    (ht : t.Flaw (3 + 3 * before.length) fault) :
    listBody (before ++ t :: after) = .error fault := by
  obtain ⟨listing, hlisting⟩ := exists_listBody hbefore
  rw [listBody, List.zipIdx_append, List.zipIdx_cons]
  refine mapM_append_eq_error hlisting (Triple.Flaw.listing_eq ?_)
  rw [Nat.add_comm 1, toNat_address hlength, Nat.mul_succ, Nat.add_comm]
  exact ht

/-! ### Images -/

/-- **The body of an image**: as many bytes after the header as this announces. -/
def HasBody (image body : List Byte) : Prop :=
  ∃ high low rest, image = headerMarker :: high :: low :: (body ++ rest) ∧
    body.length = (Word.ofBytes high low).toNat

/-- **What is wrong with an image** that cannot be listed. -/
inductive ListingFault (image : List Byte) : Fault → Prop
  /-- There is no room for a header. -/
  | short : image.length < 3 → ListingFault image (.outOfBounds 2 image.length)
  /-- The first byte is not the one of a header. -/
  | marker {marker high low : Byte} {rest : List Byte} : image = marker :: high :: low :: rest →
    marker ≠ headerMarker → ListingFault image (.invalidHeader marker high low)
  /-- The body is shorter than announced. -/
  | truncated {high low : Byte} {rest : List Byte} : image = headerMarker :: high :: low :: rest →
    image.length < 3 + (Word.ofBytes high low).toNat →
    ListingFault image (.outOfBounds (2 + (Word.ofBytes high low).toNat) image.length)
  /-- There is an instruction with a flaw, and the ones before it can be listed. -/
  | flaw {before : List Triple} {t : Triple} {after : List Byte} {fault : Fault} :
    HasBody image (before.flatMap Triple.bytes ++ t.bytes ++ after) →
    (∀ t ∈ before, t.Listable) → t.Flaw (3 + 3 * before.length) fault → ListingFault image fault
  /-- The last instruction is cut short, and all the others can be listed. -/
  | cut {program : List Triple} {left : List Byte} :
    HasBody image (program.flatMap Triple.bytes ++ left) → left ≠ [] → left.length < 3 →
    (∀ t ∈ program, t.Listable) →
    ListingFault image
      (.outOfBounds (3 + (program.flatMap Triple.bytes ++ left).length) image.length)

/-- A body is no longer than a header can say. -/
theorem HasBody.length_le {image body : List Byte} (h : HasBody image body) :
    body.length ≤ maxBodyLength := by
  obtain ⟨high, low, rest, -, hlength⟩ := h
  have hlt := (Word.ofBytes high low).toNat_lt
  rw [hlength, maxBodyLength]
  omega

/-- The place of an instruction in an image can be told by a word. -/
theorem HasBody.exists_place {image : List Byte} {before : List Triple} {t : Triple}
    {after : List Byte} (h : HasBody image (before.flatMap Triple.bytes ++ t.bytes ++ after)) :
    ∃ place : Word, place.toNat = 3 + 3 * before.length := by
  have hlength := h.length_le
  simp only [List.length_append, length_flatMap_bytes, Triple.length_bytes] at hlength
  refine ⟨UInt16.ofNat (instructionWidth * (before.length + 1)), ?_⟩
  rw [toNat_address (by omega), Nat.mul_succ, Nat.add_comm]

/-- **An image is listed as its body**, the whole instructions first and then what is left. -/
theorem HasBody.disassemble_eq {image : List Byte} {program : List Triple} {left : List Byte}
    (h : HasBody image (program.flatMap Triple.bytes ++ left)) (hleft : left.length < 3) :
    disassemble image = do
      let lines ← listBody program
      unless left.isEmpty do
        throw (.outOfBounds (3 + (program.flatMap Triple.bytes ++ left).length) image.length)
      return lines := by
  obtain ⟨high, low, rest, rfl, hlength⟩ := h
  generalize hbody : program.flatMap Triple.bytes ++ left = body at hlength ⊢
  have htake : (body ++ rest).take (Word.ofBytes high low).toNat = body := by
    rw [← hlength, List.take_left]
  have hcut : Triple.ofBytes body = (program, left) := by
    rw [← hbody, Triple.ofBytes_append program hleft]
  have hle : (Word.ofBytes high low).toNat ≤ (body ++ rest).length := by
    rw [← hlength, List.length_append]
    omega
  simp only [disassemble, beq_self_eq_true, if_true, hle, htake, hcut, hlength]
  rfl

/-- **A fault by the rules is the one that is reported.** -/
theorem ListingFault.disassemble_eq {image : List Byte} {fault : Fault}
    (h : ListingFault image fault) : disassemble image = .error fault := by
  cases h with
  | short hlength =>
    match image, hlength with
    | [], _ => rfl
    | [_], _ => rfl
    | [_, _], _ => rfl
  | marker himage hmarker =>
    subst himage
    simp only [disassemble, beq_false_of_ne hmarker]
    rfl
  | @truncated high low rest himage hlength =>
    have hshort : ¬(Word.ofBytes high low).toNat ≤ rest.length := by
      simp only [himage, List.length_cons] at hlength
      omega
    have hlast : headerLength + (Word.ofBytes high low).toNat - 1 =
        2 + (Word.ofBytes high low).toNat := by
      rw [headerLength]
      omega
    subst himage
    simp only [disassemble, beq_self_eq_true, if_true, if_neg hshort, hlast]
    rfl
  | @flaw before t after fault hbody hbefore ht =>
    -- What comes after the instruction is a program too, with something left over.
    obtain ⟨program, left, rfl, hleft⟩ := Triple.exists_cut after
    have hlength := hbody.length_le
    simp only [List.length_append, length_flatMap_bytes, Triple.length_bytes] at hlength
    rw [← Triple.flatMap_bytes_append_cons] at hbody
    rw [hbody.disassemble_eq hleft, listBody_eq_error (by omega) hbefore ht]
    rfl
  | @cut program left hbody hne hleft hprogram =>
    obtain ⟨listing, hlisting⟩ := exists_listBody hprogram
    have hempty : left.isEmpty = false := List.isEmpty_eq_false_iff.2 hne
    rw [hbody.disassemble_eq hleft, hlisting, hempty]
    rfl

/-- **The first instruction that cannot be listed**, if there is one. -/
theorem listable_or_first (program : List Triple) :
    (∀ t ∈ program, t.Listable) ∨
      ∃ before t after, program = before ++ t :: after ∧ (∀ t ∈ before, t.Listable) ∧
        ¬t.Listable := by
  classical
  cases hfirst : program.find? fun t => ¬t.Listable with
  | none => exact Or.inl (by simpa using hfirst)
  | some t =>
    obtain ⟨ht, before, after, hprogram, hbefore⟩ := List.find?_eq_some_iff_append.1 hfirst
    exact Or.inr ⟨before, t, after, hprogram, by simpa using hbefore, by simpa using ht⟩

/-- An image with a body can be listed, or there is a rule for what is wrong with it. -/
theorem HasBody.exists_listing_or_listingFault {image body : List Byte} (h : HasBody image body) :
    (∃ listing, disassemble image = .ok listing) ∨ ∃ fault, ListingFault image fault := by
  obtain ⟨program, left, rfl, hleft⟩ := Triple.exists_cut body
  rcases listable_or_first program with hall | ⟨before, t, after, rfl, hbefore, ht⟩
  · by_cases hnil : left = []
    · obtain ⟨listing, hlisting⟩ := exists_listBody hall
      refine Or.inl ⟨listing, ?_⟩
      subst hnil
      rw [h.disassemble_eq hleft, hlisting]
      rfl
    · exact Or.inr ⟨_, .cut h hnil hleft hall⟩
  · rw [Triple.flatMap_bytes_append_cons] at h
    obtain ⟨place, hplace⟩ := h.exists_place
    obtain ⟨fault, hfault⟩ := Triple.exists_flaw ht place
    rw [hplace] at hfault
    exact Or.inr ⟨fault, .flaw h hbefore hfault⟩

/-- **An image can be listed, or there is a rule** for what is wrong with it. -/
theorem exists_listing_or_listingFault (image : List Byte) :
    (∃ listing, disassemble image = .ok listing) ∨ ∃ fault, ListingFault image fault := by
  match image with
  | [] => exact Or.inr ⟨_, .short (by decide)⟩
  | [_] => exact Or.inr ⟨_, .short (by simp)⟩
  | [_, _] => exact Or.inr ⟨_, .short (by simp)⟩
  | marker :: high :: low :: rest =>
    by_cases hmarker : marker = headerMarker
    · subst hmarker
      by_cases hlength : (Word.ofBytes high low).toNat ≤ rest.length
      · have hbody : HasBody (headerMarker :: high :: low :: rest)
            (rest.take (Word.ofBytes high low).toNat) := by
          refine ⟨high, low, rest.drop (Word.ofBytes high low).toNat, ?_, ?_⟩
          · rw [List.take_append_drop]
          · rw [List.length_take, Nat.min_eq_left hlength]
        exact hbody.exists_listing_or_listingFault
      · refine Or.inr ⟨_, .truncated rfl ?_⟩
        simp only [List.length_cons]
        omega
    · exact Or.inr ⟨_, .marker rfl hmarker⟩

/-- **An image is refused for what is wrong with it by the rules**, and it can be listed exactly if
there is nothing; bytes that come after it then make no difference. A byte that is no opcode is
always reported with the place where it stands, since no body is so long that a word could not
tell that. -/
theorem disassemble_classified (image : List Byte) :
    (∀ fault, disassemble image = .error fault ↔ ListingFault image fault) ∧
    ((∃ listing, disassemble image = .ok listing) ↔ ∀ fault, ¬ListingFault image fault) ∧
    (∀ (before : List Triple) (t : Triple) (after : List Byte),
      HasBody image (before.flatMap Triple.bytes ++ t.bytes ++ after) →
      (∀ t ∈ before, t.Listable) → 91 ≤ t.opcode.toNat →
        ∃ place : Word, place.toNat = 3 + 3 * before.length ∧
          disassemble image = .error (.illegalInstruction t.opcode place)) ∧
    (∀ listing rest, disassemble image = .ok listing →
      disassemble (image ++ rest) = .ok listing) := by
  refine ⟨fun fault => ⟨fun h => ?_, ListingFault.disassemble_eq⟩, ⟨?_, fun h => ?_⟩, ?_, ?_⟩
  · rcases exists_listing_or_listingFault image with ⟨listing, hlisting⟩ | ⟨fault', hfault'⟩
    · exact nomatch h.symm.trans hlisting
    · obtain rfl := Except.error.inj (h.symm.trans hfault'.disassemble_eq)
      exact hfault'
  · rintro ⟨listing, hlisting⟩ fault hfault
    exact nomatch hlisting.symm.trans hfault.disassemble_eq
  · rcases exists_listing_or_listingFault image with hlisting | ⟨fault, hfault⟩
    · exact hlisting
    · exact absurd hfault (h fault)
  · intro before t after hbody hbefore hopcode
    obtain ⟨place, hplace⟩ := hbody.exists_place
    have hfault := ListingFault.flaw hbody hbefore (.opcode hopcode hplace)
    exact ⟨place, hplace, hfault.disassemble_eq⟩
  · intro listing rest h
    obtain ⟨high, low, program, more, rfl, hlength, hlisting⟩ := disassemble_eq_ok_iff.1 h
    refine disassemble_eq_ok_iff.2 ⟨high, low, program, more ++ rest, ?_, hlength, hlisting⟩
    simp only [List.cons_append, List.append_assoc]

/-- A register that does not exist comes before a byte that is no opcode, and that before an
instruction that is cut short. -/
theorem disassemble_classified_order :
    disassemble [0x7F, 0, 7, 84, 1, 7, 200, 0, 0, 1] = .error (.invalidRegister 7) ∧
      ∃ place : Word, place.toNat = 6 ∧
        disassemble [0x7F, 0, 7, 84, 1, 2, 200, 0, 0, 1] =
          .error (.illegalInstruction 200 place) := by
  have hmov : Form.ofOpcode? 84 = some ⟨.mov, .registerCoded⟩ := by decide
  have hbody : ∀ second, HasBody [0x7F, 0, 7, 84, 1, second, 200, 0, 0, 1]
      [84, 1, second, 200, 0, 0, 1] := fun second => ⟨0, 7, [], rfl, rfl⟩
  refine ⟨?_, ?_⟩
  · have hflaw : Triple.Flaw ⟨84, 1, 7⟩ 3 (.invalidRegister 7) :=
      .target hmov (by decide) (by decide)
    exact ((disassemble_classified _).1 _).2
      (@ListingFault.flaw _ [] ⟨84, 1, 7⟩ _ _ (hbody 7) (List.forall_mem_nil _) hflaw)
  · have hlistable : Triple.Listable ⟨84, 1, 2⟩ := ⟨by decide, fun _ => by decide⟩
    exact (disassemble_classified _).2.2.1 [⟨84, 1, 2⟩] ⟨200, 0, 0⟩ [1] (hbody 2)
      (List.forall_mem_singleton.2 hlistable) (by decide)

end EightBit
