import EightBit.Assembly.Program
import EightBit.Proofs.Source.Designation

/-!
# The instructions of a program

Lines are assembled one at a time, and a line with nothing on it but blanks and a
comment leaves no trace. So a text is assembled exactly if every line with something
on it is assembled to an instruction, and those instructions in order are the program
(`EightBit.assembleLines_eq_ok_iff`).

The image of a program is its header and three bytes for each instruction
(`EightBit.image_eq`), so the number of instructions can be read off its length, and
what stands at a place of the program stands at three times that place in the image
(`EightBit.take_drop_image`).
-/

namespace EightBit

open Fallible

/-- **Whether a line holds an instruction**: anything at all but blanks and a
comment. -/
def Punctuation.holdsInstruction (p : Punctuation) (line : Text) : Bool :=
  !(tokens (code p.comment line)).isEmpty

variable {p : Punctuation}

theorem holdsInstruction_eq_false_iff {line : Text} :
    p.holdsInstruction line = false ↔ assembleLine p line = .ok none := by
  rw [assembleLine_eq_ok_none_iff, Punctuation.holdsInstruction, Bool.not_eq_false',
    List.isEmpty_iff]

/-- Without a line there is no instruction. -/
theorem assembleLines_nil (number : Nat) : assembleLines p number [] = .ok [] := rfl

/-- **The first line comes first**, and the others are assembled without it. -/
theorem assembleLines_cons_eq_ok_iff {number : Nat} {line : Text} {ls : List Text}
    {program : List Triple} :
    assembleLines p number (line :: ls) = .ok program ↔
      ∃ first rest, assembleLine p line = .ok first ∧
        assembleLines p (number + 1) ls = .ok rest ∧ program = first.toList ++ rest := by
  simp only [assembleLines, List.zipIdx_cons, List.mapM_cons, bind_eq_ok_iff, pure_eq_ok_iff,
    mapError_eq_ok_iff]
  constructor
  · rintro ⟨results, ⟨first, hfirst, rest, hrest, rfl⟩, rfl⟩
    refine ⟨first, rest.filterMap id, hfirst, ⟨rest, hrest, rfl⟩, ?_⟩
    cases first <;> rfl
  · rintro ⟨first, -, hfirst, ⟨rest, hrest, rfl⟩, rfl⟩
    refine ⟨first :: rest, ⟨first, hfirst, rest, hrest, rfl⟩, ?_⟩
    cases first <;> rfl

/-- **Lines are assembled to the instructions on those that hold one**, whatever the
number of the first line. -/
theorem assembleLines_eq_ok_iff {number : Nat} {ls : List Text} {program : List Triple} :
    assembleLines p number ls = .ok program ↔
      List.Forall₂ (fun line t => assembleLine p line = .ok (some t))
        (ls.filter p.holdsInstruction) program := by
  induction ls generalizing number program with
  | nil =>
    rw [assembleLines_nil, List.filter_nil, List.forall₂_nil_left_iff]
    exact ⟨fun h => (Except.ok.inj h).symm, fun h => h ▸ rfl⟩
  | cons line ls ih =>
    simp only [assembleLines_cons_eq_ok_iff, ih]
    cases hline : p.holdsInstruction line with
    | false =>
      rw [List.filter_cons_of_neg (by simp [hline])]
      rw [holdsInstruction_eq_false_iff] at hline
      constructor
      · rintro ⟨first, rest, hfirst, hrest, rfl⟩
        obtain rfl := Except.ok.inj (hline.symm.trans hfirst)
        exact hrest
      · exact fun h => ⟨none, program, hline, h, rfl⟩
    | true =>
      rw [List.filter_cons_of_pos hline, List.forall₂_cons_left_iff]
      constructor
      · rintro ⟨first, rest, hfirst, hrest, rfl⟩
        cases first with
        | none => exact absurd hline (by simp [holdsInstruction_eq_false_iff.2 hfirst])
        | some t => exact ⟨t, rest, hfirst, hrest, rfl⟩
      · rintro ⟨t, rest, ht, hrest, rfl⟩
        exact ⟨some t, rest, ht, hrest, rfl⟩

/-- **Lines with an instruction on each** are assembled to these instructions. -/
theorem assembleLines_of_forall₂ {number : Nat} {ls : List Text} {program : List Triple}
    (h : List.Forall₂ (fun line t => assembleLine p line = .ok (some t)) ls program) :
    assembleLines p number ls = .ok program := by
  induction h generalizing number with
  | nil => exact assembleLines_nil number
  | cons hline _ ih =>
    exact assembleLines_cons_eq_ok_iff.2 ⟨_, _, hline, ih, rfl⟩

/-- **A text is assembled** if its lines are and the program is not too large. -/
theorem assemble_eq_ok_iff {source : Text} {values : List Byte} :
    assemble p source = .ok values ↔
      ∃ program, assembleLines p 1 (lines source) = .ok program ∧
        3 * program.length ≤ maxBodyLength ∧ values = image program := by
  simp only [assemble, bind_eq_ok_iff]
  refine exists_congr fun program => and_congr_right fun _ => ?_
  constructor
  · intro h
    split at h
    · rename_i hlength
      exact ⟨hlength, (pure_eq_ok_iff.1 h).symm⟩
    · exact absurd h throw_ne_ok
  · rintro ⟨hlength, rfl⟩
    exact if_pos hlength

/-- **A text of a single line** is assembled to the image of what stands on the line. -/
theorem assemble_eq_ok_iff_of_not_mem {line : Text} {values : List Byte} (h : '\n' ∉ line) :
    assemble p line = .ok values ↔
      ∃ result, assembleLine p line = .ok result ∧ values = image result.toList := by
  rw [assemble_eq_ok_iff, lines_of_not_mem h]
  have hlength : ∀ result : Option Triple, 3 * result.toList.length ≤ maxBodyLength := by
    intro result
    cases result <;> simp [maxBodyLength]
  by_cases hnil : line = []
  · subst hnil
    constructor
    · rintro ⟨program, hprogram, -, rfl⟩
      obtain rfl := Except.ok.inj hprogram
      exact ⟨none, rfl, rfl⟩
    · rintro ⟨result, hresult, rfl⟩
      obtain rfl := Except.ok.inj hresult
      exact ⟨[], rfl, hlength none, rfl⟩
  · simp only [if_neg hnil, assembleLines_cons_eq_ok_iff, assembleLines_nil]
    constructor
    · rintro ⟨program, ⟨result, rest, hresult, hrest, rfl⟩, -, rfl⟩
      obtain rfl := Except.ok.inj hrest
      exact ⟨result, hresult, by rw [List.append_nil]⟩
    · rintro ⟨result, hresult, rfl⟩
      exact ⟨result.toList, ⟨result, [], hresult, rfl, (List.append_nil _).symm⟩, hlength result,
        rfl⟩

/-! ### Images -/

@[simp] theorem length_flatMap_bytes (program : List Triple) :
    (program.flatMap Triple.bytes).length = 3 * program.length := by
  induction program with
  | nil => rfl
  | cons t rest ih =>
    rw [List.flatMap_cons, List.length_append, ih, List.length_cons]
    change 3 + _ = _
    omega

@[simp] theorem length_image (program : List Triple) :
    (image program).length = 3 + 3 * program.length := by
  rw [image, List.length_append, length_flatMap_bytes]
  rfl

/-- **The image of a program** starts with the number of bytes that follow. -/
theorem image_eq {program : List Triple} {high low : Byte}
    (h : 3 * program.length = (Word.ofBytes high low).toNat) :
    image program = headerMarker :: high :: low :: program.flatMap Triple.bytes := by
  rw [image, header, length_flatMap_bytes, h, UInt16.ofNat_toNat, Word.high_ofBytes,
    Word.low_ofBytes]
  rfl

/-- Programs with the same image are the same. -/
theorem image_injective : Function.Injective image := by
  intro program program' h
  have hbody := congrArg (List.drop headerLength) h
  have hcut := congrArg (fun values => (Triple.ofBytes values).1) hbody
  change (Triple.ofBytes (program.flatMap Triple.bytes)).1 =
    (Triple.ofBytes (program'.flatMap Triple.bytes)).1 at hcut
  rwa [Triple.ofBytes_flatMap_bytes, Triple.ofBytes_flatMap_bytes] at hcut

/-- The length that a program not too large announces is its own. -/
theorem exists_header {program : List Triple} (h : 3 * program.length ≤ maxBodyLength) :
    ∃ high low, 3 * program.length = (Word.ofBytes high low).toNat := by
  refine ⟨Word.high (UInt16.ofNat (3 * program.length)),
    Word.low (UInt16.ofNat (3 * program.length)), ?_⟩
  have hlt : 3 * program.length < 2 ^ 16 := Nat.lt_of_le_of_lt h (by decide)
  rw [Word.ofBytes_high_low, UInt16.toNat_ofNat', Nat.mod_eq_of_lt hlt]

/-- **The bytes of an instruction** stand at three times its place. -/
theorem take_drop_flatMap_bytes (program : List Triple) (i : Nat) (h : i < program.length) :
    ((program.flatMap Triple.bytes).drop (3 * i)).take 3 = program[i].bytes := by
  induction program generalizing i with
  | nil => exact absurd h (Nat.not_lt_zero i)
  | cons t rest ih =>
    cases i with
    | zero => rfl
    | succ i =>
      rw [List.flatMap_cons, show 3 * (i + 1) = t.bytes.length + 3 * i by
        change _ = 3 + _; omega, List.drop_length_add_append]
      exact ih i (Nat.lt_of_succ_lt_succ h)

/-- The same in the image, past the header. -/
theorem take_drop_image (program : List Triple) (i : Nat) (h : i < program.length) :
    ((image program).drop (3 + 3 * i)).take 3 = program[i].bytes := by
  have hheader : 3 + 3 * i = (header (program.flatMap Triple.bytes).length).length + 3 * i := rfl
  rw [image, hheader, List.drop_length_add_append, take_drop_flatMap_bytes program i h]

end EightBit
