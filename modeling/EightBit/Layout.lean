import EightBit.Byte

/-!
# The layout of memory

A machine is told which part of memory programs may be started in and which part
its stack lives in. Both are half-open regions, `start` included and `stop` not.
A layout is accepted when each of the two holds at least one address and ends
within the sixteen-bit address space (`EightBit.Layout.Valid`); the check names
the first of them that does not.
-/

namespace EightBit

/-- The number of addresses that a word can hold. -/
def addressSpace : Nat := 65536

/-- **A region** of memory: the addresses from `start` up to, but not with,
`stop`. -/
structure Region where
  start : Nat
  stop : Nat
deriving DecidableEq, Repr

namespace Region

/-- Whether an address lies in a region. -/
def contains (r : Region) (address : Nat) : Bool :=
  decide (r.start ≤ address ∧ address < r.stop)

/-- The number of addresses in a region. -/
def size (r : Region) : Nat :=
  r.stop - r.start

/-- A region that a machine can be built with. -/
def Valid (r : Region) : Prop :=
  r.start < r.stop ∧ r.stop ≤ addressSpace

end Region

/-- The reason why a layout is refused. -/
inductive LayoutError where
  /-- The region holds no address. -/
  | emptyRegion (name : String) (region : Region)
  /-- The region does not end within the address space. -/
  | regionTooLarge (name : String) (region : Region)
deriving DecidableEq, Repr

/-- A refusal in words. -/
def LayoutError.message : LayoutError → String
  | emptyRegion name region => s!"{name} range {region.start}..{region.stop} is empty"
  | regionTooLarge name region =>
    s!"{name} range ends at {region.stop}, past the 16-bit address space"

/-- Whether a region can be used, and what is wrong with it if it cannot. -/
def Region.check (name : String) (r : Region) : Except LayoutError Unit :=
  if r.stop ≤ r.start then .error (.emptyRegion name r)
  else if addressSpace < r.stop then .error (.regionTooLarge name r)
  else .ok ()

/-- **A layout**: where programs may start and where the stack lives. -/
structure Layout where
  programMemory : Region := ⟨0x4000, 0x8000⟩
  stack : Region := ⟨0x0100, 0x0200⟩
deriving DecidableEq, Repr

namespace Layout

/-- A layout that a machine can be built with. -/
def Valid (layout : Layout) : Prop :=
  layout.programMemory.Valid ∧ layout.stack.Valid

/-- Whether a layout can be used; program memory is looked at first. -/
def check (layout : Layout) : Except LayoutError Unit := do
  layout.programMemory.check "program memory"
  layout.stack.check "stack"

end Layout

/-- A region passes the check exactly if it is valid. -/
theorem Region.check_eq_ok_iff {name : String} {r : Region} :
    r.check name = .ok () ↔ r.Valid := by
  unfold Region.check Region.Valid
  split
  · simp; omega
  · split <;> simp <;> omega

/-- A layout passes the check exactly if it is valid. -/
theorem Layout.check_eq_ok_iff {layout : Layout} : layout.check = .ok () ↔ layout.Valid := by
  unfold Layout.check Layout.Valid
  rw [← @Region.check_eq_ok_iff "program memory",
    ← @Region.check_eq_ok_iff "stack"]
  cases h : layout.programMemory.check "program memory" <;> simp [bind, Except.bind]

end EightBit
