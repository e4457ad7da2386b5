import EightBit.Byte

/-!
# Program images

A program is loaded as an image: a marker byte, the length of the body as a word
with the high byte first, and the body itself, three bytes for each instruction.
-/

namespace EightBit

/-- The first byte of every image. -/
def headerMarker : Byte := 0x7F

/-- The number of bytes in front of the body of an image. -/
def headerLength : Nat := 3

/-- **The three bytes of an instruction.** -/
structure Triple where
  opcode : Byte
  first : Byte
  second : Byte
deriving DecidableEq, Repr

namespace Triple

/-- The bytes of an instruction, in their order in memory. -/
def bytes (t : Triple) : List Byte :=
  [t.opcode, t.first, t.second]

@[simp] theorem length_bytes (t : Triple) : t.bytes.length = 3 := rfl

/-- A run of bytes cut into instructions, and the one or two bytes that are left
over. -/
def ofBytes : List Byte → List Triple × List Byte
  | opcode :: first :: second :: rest =>
    let (triples, left) := ofBytes rest
    (⟨opcode, first, second⟩ :: triples, left)
  | left => ([], left)

/-- Fewer than three bytes make no instruction. -/
theorem ofBytes_of_length_lt {left : List Byte} (h : left.length < 3) :
    ofBytes left = ([], left) := by
  match left, h with
  | [], _ => rfl
  | [_], _ => rfl
  | [_, _], _ => rfl

/-- Instructions that are put down as bytes are found again, and so is what is left over. -/
theorem ofBytes_append (program : List Triple) {left : List Byte} (h : left.length < 3) :
    ofBytes (program.flatMap bytes ++ left) = (program, left) := by
  induction program with
  | nil => exact ofBytes_of_length_lt h
  | cons t rest ih => simp [bytes, ofBytes, ih]

/-- Instructions that are put down as bytes are found again. -/
theorem ofBytes_flatMap_bytes (program : List Triple) :
    ofBytes (program.flatMap bytes) = (program, []) := by
  rw [← @ofBytes_append program [] (by decide), List.append_nil]

/-- Cutting a run of bytes loses nothing. -/
theorem flatMap_bytes_ofBytes (values : List Byte) :
    (ofBytes values).1.flatMap bytes ++ (ofBytes values).2 = values := by
  fun_induction ofBytes values with
  | case1 opcode first second rest triples left h ih => simpa [bytes, h] using ih
  | case2 left => rfl

/-- What is left over is too short for an instruction. -/
theorem length_left_lt (values : List Byte) : (ofBytes values).2.length < 3 := by
  fun_induction ofBytes values with
  | case1 opcode first second rest triples left h ih => simpa [h] using ih
  | case2 left h =>
    match left, h with
    | [], _ => simp
    | [_], _ => simp
    | [_, _], _ => simp
    | _ :: _ :: _ :: _, h => exact absurd rfl (h _ _ _ _)

end Triple

/-- The header of an image whose body has the given length. -/
def header (length : Nat) : List Byte :=
  let length := UInt16.ofNat length
  [headerMarker, Word.high length, Word.low length]

/-- **The image of a program**: its header and its instructions. -/
def image (program : List Triple) : List Byte :=
  let body := program.flatMap Triple.bytes
  header body.length ++ body

end EightBit
