import EightBit.Flags
import EightBit.Text.Numeral

/-!
# The registers

Five general registers of one byte, of which two can index memory; the program
counter; the low byte of the stack pointer, which is for show – the stack itself
knows where it stands –; and the status register.

An instruction names a general register in one of two ways: source text names it
by its letter, in either case (`EightBit.Register.ofText?`), and an operand byte
by its index, which counts from one (`EightBit.Register.ofIndex?`).
-/

namespace EightBit

/-- The general registers. -/
inductive Register where
  | a
  | w
  | x
  | y
  | z
deriving DecidableEq, Repr

namespace Register

/-- The general registers, in the order of their indices. -/
def all : List Register :=
  [a, w, x, y, z]

/-- The index by which an operand byte names a register. -/
def index : Register → Byte
  | a => 1
  | w => 2
  | x => 3
  | y => 4
  | z => 5

/-- The register with a given index. -/
def ofIndex? (index : Byte) : Option Register :=
  all.find? fun register => register.index == index

/-- Whether a register can index memory. -/
def isIndex : Register → Bool
  | w | x => true
  | a | y | z => false

/-- The letter that names a register. -/
def letter : Register → Char
  | a => 'A'
  | w => 'W'
  | x => 'X'
  | y => 'Y'
  | z => 'Z'

/-- The name of a register, as listings write it. -/
def name (register : Register) : Text :=
  [register.letter]

/-- The register that a text names; the case of an ASCII letter does not
matter. -/
def ofText? (text : Text) : Option Register :=
  let capitals := text.map Char.toUpper
  all.find? fun register => register.name == capitals

@[simp] theorem ofIndex?_index (register : Register) : ofIndex? register.index = some register := by
  cases register <;> rfl

/-- A text names a register exactly if it is the letter of it, in either case. -/
theorem ofText?_eq_some_iff {text : Text} {register : Register} :
    ofText? text = some register ↔ text.map Char.toUpper = register.name := by
  constructor
  · intro h
    have hname := List.find?_some h
    rw [beq_iff_eq] at hname
    exact hname.symm
  · intro h
    rw [ofText?, h]
    cases register <;> decide

/-- A byte names a register exactly if it is one of the five indices. -/
theorem ofIndex?_eq_none_iff {i : Byte} : ofIndex? i = none ↔ i.toNat < 1 ∨ 5 < i.toNat := by
  simp only [ofIndex?, all, index, List.find?_eq_none, List.mem_cons, List.not_mem_nil, or_false,
    forall_eq_or_imp, forall_eq, beq_iff_eq, ← UInt8.toNat_inj, UInt8.reduceToNat]
  omega

/-- A register is found only under its own index. -/
theorem index_of_ofIndex? {i : Byte} {register : Register} (h : ofIndex? i = some register) :
    register.index = i := by
  simpa using List.find?_some h

end Register

/-- **The registers** of the machine. -/
structure Registers where
  a : Byte := 0
  w : Byte := 0
  x : Byte := 0
  y : Byte := 0
  z : Byte := 0
  /-- The program counter. -/
  pc : Word := 0
  /-- The low byte of the stack pointer. -/
  sp : Byte := 0
  /-- The status register. -/
  p : Flags := .initial
deriving DecidableEq, Repr

namespace Registers

/-- The value of a general register. -/
def get (r : Registers) : Register → Byte
  | .a => r.a
  | .w => r.w
  | .x => r.x
  | .y => r.y
  | .z => r.z

/-- The registers with a general one replaced. -/
def set (r : Registers) (register : Register) (value : Byte) : Registers :=
  match register with
  | .a => { r with a := value }
  | .w => { r with w := value }
  | .x => { r with x := value }
  | .y => { r with y := value }
  | .z => { r with z := value }

/-- The registers with the value of one general register copied to another. -/
def copy (r : Registers) (source target : Register) : Registers :=
  r.set target (r.get source)

/-- The registers with the flags set by a result. -/
def withResult (r : Registers) (result : Byte) : Registers :=
  { r with p := r.p.withResult result }

/-- **The register dump**: one line that shows every register. -/
def dump (r : Registers) : Text :=
  "PC:".toList ++ Numeral.hexWord r.pc ++
  " A:".toList ++ Numeral.hexByte r.a ++
  " W:".toList ++ Numeral.hexByte r.w ++
  " X:".toList ++ Numeral.hexByte r.x ++
  " Y:".toList ++ Numeral.hexByte r.y ++
  " Z:".toList ++ Numeral.hexByte r.z ++
  " S:".toList ++ Numeral.hexByte r.sp ++
  " P:".toList ++ r.p.marks

@[simp] theorem get_set_self (r : Registers) (register : Register) (value : Byte) :
    (r.set register value).get register = value := by
  cases register <;> rfl

/-- Setting one general register leaves the others alone. -/
theorem get_set_of_ne (r : Registers) {register other : Register} (value : Byte)
    (h : other ≠ register) : (r.set register value).get other = r.get other := by
  cases register <;> cases other <;> simp_all [get, set]

end Registers

end EightBit
