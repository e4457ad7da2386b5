import EightBit.Proofs.Arithmetic.Cells
import EightBit.Proofs.Arithmetic.Chains

/-!
# Sums and differences of any length

Numbers of any length are added in memory one column after the other: load, add, store, from the
least significant bytes on. That this comes to the exact sum takes two things besides the
arithmetic of the chain.

* **The carry has to reach the next addition.** The store and the load between them leave it alone,
  and so a column is a function of two bytes and the carry (`EightBit.Machine.stored`).
* **The operands have to be there when their turn comes.** No column stores to where a later one
  loads from, so all of them work on the numbers there were at the start
  (`EightBit.Machine.exists_steps_columns`).

Where two columns store to one address, the later one prevails. So the bytes of the result are found
where the columns have put them, as long as no later column has put something else there
(`EightBit.accumulate_exact`); `EightBit.accumulate_together` shows that it takes as much.
-/

namespace EightBit

/-- The mnemonic of the instruction. -/
def Accumulation.mnemonic : Accumulation → Mnemonic
  | sum => .add
  | difference => .sub

/-- **A column**: where its two bytes are and where its result goes. -/
structure Column where
  left : Word
  right : Word
  result : Word
deriving DecidableEq, Repr

/-- The code for one column. -/
def Column.code (k : Accumulation) (c : Column) : List Triple :=
  [Mnemonic.lda.on c.left, k.mnemonic.on c.right, Mnemonic.sta.on c.result]

/-- **The code for a calculation**, column after column. -/
def Accumulation.code (k : Accumulation) (columns : List Column) : List Triple :=
  columns.flatMap (Column.code k)

/-- The bytes that a column starts from. -/
def Column.pair (c : Column) (m : Memory) : Byte × Byte :=
  (m.byte c.left, m.byte c.right)

/-- What a column comes to. -/
def Column.sum (k : Accumulation) (c : Column) (m : Machine) : Sum :=
  k.apply (m.memory.byte c.left) (m.memory.byte c.right) m.registers.p.carry

/-- The next instruction is three bytes on. -/
theorem ofNat_add_three (n : Nat) : UInt16.ofNat n + 3 = UInt16.ofNat (n + 3) :=
  (UInt16.ofNat_add n 3).symm

namespace Machine

/-- The machine with something loaded into A. -/
def loaded (m : Machine) (v : Byte) : Machine :=
  { m with registers := (m.registers.set .a v).withResult v }

/-- The machine with a sum in A. -/
def accumulated (m : Machine) (s : Sum) : Machine :=
  { m with registers := { m.registers with
      a := s.value
      p := { m.registers.p.withResult s.value with carry := s.carry, overflow := s.overflow } } }

/-- **The machine after a column** that has come to a sum. -/
def stored (m : Machine) (c : Column) (s : Sum) : Machine :=
  { (m.accumulated s).goto (m.registers.pc + 3 + 3 + 3) with
    memory := m.memory.put c.result.toNat s.value }

/-! ### One column -/

variable {m : Machine} {address : Word}

theorem exists_step_lda (hsize : addressSpace ≤ m.memory.size)
    (ht : m.Fetches (Mnemonic.lda.on address)) :
    ∃ es, Action.step m = ⟨.ok (), (m.loaded (m.memory.byte address)).advanced, es⟩ := by
  have hintake : (Operation.load .a).intake? = some fun v r => (r.set .a v).withResult v := rfl
  exact Mnemonic.exists_step_on rfl rfl ht (.takes hintake (Place.value?_cell hsize address))

theorem exists_step_accumulate (k : Accumulation) (hsize : addressSpace ≤ m.memory.size)
    (ht : m.Fetches (k.mnemonic.on address)) :
    ∃ es, Action.step m = ⟨.ok (), (m.accumulated
      (k.apply m.registers.a (m.memory.byte address) m.registers.p.carry)).advanced, es⟩ := by
  have hmode : k.mnemonic.hasMode .absolute = true := by cases k <;> rfl
  have hoperand : k.mnemonic.operation.hasOperand = true := by cases k <;> rfl
  have hintake : k.mnemonic.operation.intake? = some fun v r =>
      let s := k.apply r.a v r.p.carry
      { r with
        a := s.value
        p := { r.p.withResult s.value with carry := s.carry, overflow := s.overflow } } := by
    cases k <;> rfl
  exact Mnemonic.exists_step_on hmode hoperand ht
    (.takes hintake (Place.value?_cell hsize address))

theorem exists_step_sta (hsize : addressSpace ≤ m.memory.size)
    (ht : m.Fetches (Mnemonic.sta.on address)) :
    ∃ es, Action.step m = ⟨.ok (),
      { m with memory := m.memory.put address.toNat m.registers.a }.advanced, es⟩ :=
  Mnemonic.exists_step_on rfl rfl ht
    (.stores rfl (Memory.isSome_cell?_iff.2 (Memory.lt_size_of_spans hsize address)))

theorem pc_stored (c : Column) (s : Sum) :
    (m.stored c s).registers.pc = m.registers.pc + 3 + 3 + 3 := rfl

theorem size_stored (c : Column) (s : Sum) : (m.stored c s).memory.size = m.memory.size :=
  Memory.size_put ..

/-- An instruction is fetched from where it stands. -/
theorem fetches_of_holds_ofNat {t : Triple} {start : Nat}
    (hpc : m.registers.pc = UInt16.ofNat start) (hfits : start + 3 ≤ addressSpace)
    (hholds : m.memory.Holds start t.bytes) : m.Fetches t := by
  have hstart : m.registers.pc.toNat = start := by
    rw [hpc, UInt16.toNat_ofNat']
    exact Nat.mod_eq_of_lt (Nat.lt_of_lt_of_le (Nat.lt_add_of_pos_right (by decide)) hfits)
  refine fetches_of_holds (hstart ▸ hholds) ?_
  omega

/-- **Three steps are a column.** -/
theorem exists_steps_column (k : Accumulation) (c : Column) {start : Nat}
    (hsize : addressSpace ≤ m.memory.size) (hpc : m.registers.pc = UInt16.ofNat start)
    (hfits : start + 9 ≤ addressSpace)
    (hholds : m.memory.Holds start ((c.code k).flatMap Triple.bytes)) :
    ∃ pcs es, pcs.length = 3 ∧ Steps pcs m es (m.stored c (c.sum k m)) := by
  rw [Column.code, List.flatMap_cons, List.flatMap_cons, List.flatMap_singleton,
    Memory.holds_append, Memory.holds_append] at hholds
  obtain ⟨hlda, hk, hsta⟩ := hholds
  have hpc₁ : m.advanced.registers.pc = UInt16.ofNat (start + 3) := by
    rw [pc_advanced, hpc, ofNat_add_three]
  have hpc₂ : m.advanced.advanced.registers.pc = UInt16.ofNat (start + 6) := by
    rw [pc_advanced, hpc₁, ofNat_add_three]
  obtain ⟨es₁, hstep₁⟩ := exists_step_lda hsize (fetches_of_holds_ofNat hpc (by omega) hlda)
  obtain ⟨es₂, hstep₂⟩ := exists_step_accumulate (m := (m.loaded (m.memory.byte c.left)).advanced)
    k hsize (fetches_of_holds_ofNat hpc₁ (by omega) hk)
  obtain ⟨es₃, hstep₃⟩ := exists_step_sta
    (m := ((m.loaded (m.memory.byte c.left)).advanced.accumulated (c.sum k m)).advanced)
    hsize (fetches_of_holds_ofNat hpc₂ (by omega) hsta)
  exact ⟨_, _, rfl, .cons hstep₁ (.cons hstep₂ (.cons hstep₃ .nil))⟩

end Machine

/-! ### All columns -/

/-- **What columns come to**, each with the carry of the one before, if they start from what there
is in memory now. -/
def Accumulation.sums (k : Accumulation) (columns : List Column) (m : Machine) : List Sum :=
  chain k.apply (columns.map fun c => c.pair m.memory) m.registers.p.carry

/-- The machine after some columns that have come to some sums. -/
def Machine.storedAll (m : Machine) (done : List (Column × Sum)) : Machine :=
  done.foldl (fun m step => m.stored step.1 step.2) m

theorem Accumulation.length_code (k : Accumulation) (columns : List Column) :
    (k.code columns).length = 3 * columns.length := by
  induction columns with
  | nil => rfl
  | cons c columns ih =>
    rw [code, List.flatMap_cons, List.length_append, ← code, ih, List.length_cons]
    change 3 + _ = _
    omega

theorem Accumulation.length_sums (k : Accumulation) (columns : List Column) (m : Machine) :
    (k.sums columns m).length = columns.length := by
  rw [sums, length_chain, List.length_map]

/-- They come to the exact result. -/
theorem Accumulation.exact_sums {k : Accumulation} {columns : List Column} {m : Machine}
    {last : Sum} (hlast : (k.sums columns m).getLast? = some last) :
    k.Exact (m.memory.bytes (columns.map Column.left)) (m.memory.bytes (columns.map Column.right))
      m.registers.p.carry (values (k.sums columns m)) last := by
  have hchain := Exact.of_chain hlast
  rw [List.map_map, List.map_map] at hchain
  rw [Memory.bytes, Memory.bytes, List.map_map, List.map_map]
  exact hchain

/-- **A column does not come between the others and their bytes**, if it does not store to where
they load from. -/
theorem Accumulation.sums_cons (k : Accumulation) {c : Column} {columns : List Column}
    (m : Machine) (hordered : ∀ d ∈ columns, c.result ≠ d.left ∧ c.result ≠ d.right) :
    k.sums (c :: columns) m = c.sum k m :: k.sums columns (m.stored c (c.sum k m)) := by
  have hpairs : (columns.map fun d => d.pair (m.stored c (c.sum k m)).memory) =
      columns.map fun d => d.pair m.memory := by
    refine List.map_congr_left fun d hd => ?_
    obtain ⟨hleft, hright⟩ := hordered d hd
    exact Prod.ext (Memory.byte_put_of_ne hleft _) (Memory.byte_put_of_ne hright _)
  rw [sums, sums, hpairs]
  rfl

namespace Machine

variable {m : Machine}

/-- **Steps through all columns.** -/
theorem exists_steps_columns (k : Accumulation) {columns : List Column} {start : Nat}
    (hsize : addressSpace ≤ m.memory.size) (hpc : m.registers.pc = UInt16.ofNat start)
    (hfits : start + 9 * columns.length ≤ addressSpace)
    (hholds : m.memory.Holds start ((k.code columns).flatMap Triple.bytes))
    (hclear : ∀ c ∈ columns,
      ¬(start ≤ c.result.toNat ∧ c.result.toNat < start + 9 * columns.length))
    (hordered : columns.Pairwise fun c d => c.result ≠ d.left ∧ c.result ≠ d.right) :
    ∃ pcs es, pcs.length = 3 * columns.length ∧
      Steps pcs m es (m.storedAll (columns.zip (k.sums columns m))) := by
  induction columns generalizing m start with
  | nil => exact ⟨[], [], rfl, .nil⟩
  | cons c columns ih =>
    rw [List.length_cons] at hfits hclear ⊢
    obtain ⟨hc, hordered⟩ := List.pairwise_cons.1 hordered
    obtain ⟨hresult, hclear⟩ := List.forall_mem_cons.1 hclear
    rw [Accumulation.code, List.flatMap_cons, List.flatMap_append, Memory.holds_append] at hholds
    obtain ⟨hhere, hrest⟩ := hholds
    rw [length_flatMap_bytes, ← Accumulation.code] at hrest
    change m.memory.Holds (start + 9) _ at hrest
    obtain ⟨pcs, es, hlength, hcolumn⟩ := exists_steps_column k c hsize hpc (by omega) hhere
    -- The code of the other columns is where it was.
    have hrest' : (m.stored c (c.sum k m)).memory.Holds (start + 9)
        ((k.code columns).flatMap Triple.bytes) := by
      refine hrest.put_of_clear (fun h => hresult ?_) _
      rw [length_flatMap_bytes, k.length_code] at h
      omega
    have hpc' : (m.stored c (c.sum k m)).registers.pc = UInt16.ofNat (start + 9) := by
      rw [pc_stored, hpc, ofNat_add_three, ofNat_add_three, ofNat_add_three]
    have hsize' : addressSpace ≤ (m.stored c (c.sum k m)).memory.size :=
      (size_stored ..).symm ▸ hsize
    obtain ⟨pcs', es', hlength', hcolumns⟩ := ih hsize' hpc' (by omega) hrest'
      (fun d hd h => hclear d hd (by omega)) hordered
    refine ⟨pcs ++ pcs', es ++ es', ?_, ?_⟩
    · rw [List.length_append]
      omega
    · rw [k.sums_cons m hc]
      exact hcolumn.append hcolumns

/-! ### What is left behind -/

/-- Where nothing has been stored, everything is as it was. -/
theorem byte_storedAll_of_ne {done : List (Column × Sum)} {address : Word}
    (h : ∀ step ∈ done, step.1.result ≠ address) :
    (m.storedAll done).memory.byte address = m.memory.byte address := by
  induction done generalizing m with
  | nil => rfl
  | cons step done ih =>
    obtain ⟨hstep, h⟩ := List.forall_mem_cons.1 h
    exact (ih h).trans (Memory.byte_put_of_ne hstep _)

/-- **What has been stored is there**, unless something has been stored there later on. -/
theorem byte_storedAll {done : List (Column × Sum)} {i : Nat} (hsize : addressSpace ≤ m.memory.size)
    (hi : i < done.length)
    (hlater : ∀ j (hj : j < done.length), i < j → done[j].1.result ≠ done[i].1.result) :
    (m.storedAll done).memory.byte done[i].1.result = done[i].2.value := by
  induction done generalizing m i with
  | nil => exact absurd hi (Nat.not_lt_zero i)
  | cons step done ih =>
    cases i with
    | zero =>
      have hrest : ∀ other ∈ done, other.1.result ≠ step.1.result := by
        intro other hother
        obtain ⟨j, hj, rfl⟩ := List.mem_iff_getElem.1 hother
        exact hlater (j + 1) (Nat.succ_lt_succ hj) (Nat.succ_pos j)
      exact (byte_storedAll_of_ne hrest).trans (Memory.byte_put_self hsize _ _)
    | succ i =>
      have hsize' : addressSpace ≤ (m.stored step.1 step.2).memory.size :=
        (size_stored ..).symm ▸ hsize
      exact ih hsize' (Nat.lt_of_succ_lt_succ hi) fun j hj hij =>
        hlater (j + 1) (Nat.succ_lt_succ hj) (Nat.succ_lt_succ hij)

/-- The flags are those of the last column. -/
theorem flags_storedAll {done : List (Column × Sum)} {last : Sum}
    (hlast : (done.map Prod.snd).getLast? = some last) :
    (m.storedAll done).registers.p.carry = last.carry ∧
      (m.storedAll done).registers.p.overflow = last.overflow ∧
      (m.storedAll done).registers.p.negative = last.value.isNegative := by
  rw [List.getLast?_map, Option.map_eq_some_iff] at hlast
  obtain ⟨step, hstep, rfl⟩ := hlast
  obtain ⟨before, rfl⟩ := List.getLast?_eq_some_iff.1 hstep
  rw [storedAll, List.foldl_concat]
  exact ⟨rfl, rfl, rfl⟩

end Machine

/-- **Arithmetic in memory is exact.** Take any number of columns, with code for them at the program
counter and short of the end of the address space, where no column stores anything into the code or
to where a later one loads from. The steps of the code succeed. There are bytes that spell out the
exact sum or difference of the numbers that were there and of the carry, as far as there is room for
it, and each of them is found where its column has put it, unless a later column has put another
one there. The carry, the overflow and the sign are those of the whole numbers. -/
theorem accumulate_exact {k : Accumulation} {columns : List Column} {m : Machine}
    (hne : columns ≠ []) (hsize : addressSpace ≤ m.memory.size)
    (hholds : m.memory.Holds m.registers.pc.toNat ((k.code columns).flatMap Triple.bytes))
    (hfits : m.registers.pc.toNat + 9 * columns.length ≤ addressSpace)
    (hclear : ∀ c ∈ columns, ¬(m.registers.pc.toNat ≤ c.result.toNat ∧
      c.result.toNat < m.registers.pc.toNat + 9 * columns.length))
    (hordered : columns.Pairwise fun c d => c.result ≠ d.left ∧ c.result ≠ d.right) :
    let x := m.memory.bytes (columns.map Column.left)
    let y := m.memory.bytes (columns.map Column.right)
    let carry := m.registers.p.carry
    let room : Nat := 256 ^ columns.length
    ∃ m' es v, m.stepTimes (3 * columns.length) = (3 * columns.length, ⟨.ok (), m', es⟩) ∧
      v.length = columns.length ∧ (number v : Int) = k.total (number x) (number y) carry % room ∧
      (∀ i (hi : i < columns.length),
        (∀ j (hj : j < columns.length), i < j → columns[j].result ≠ columns[i].result) →
          v[i]? = some (m'.memory.byte columns[i].result)) ∧
      m'.registers.p.carry = k.carries columns.length (k.total (number x) (number y) carry) ∧
      m'.registers.p.overflow =
        overflows columns.length (k.total (signedNumber x) (signedNumber y) carry) ∧
      m'.registers.p.negative = decide (room ≤ 2 * number v) := by
  intro x y carry room
  obtain ⟨pcs, es, hlength, hsteps⟩ := Machine.exists_steps_columns k hsize
    (UInt16.ofNat_toNat).symm hfits hholds hclear hordered
  have hsums := k.length_sums columns m
  have hvalues : (values (k.sums columns m)).length = columns.length :=
    (List.length_map _).trans hsums
  have hsums_ne : k.sums columns m ≠ [] := chain_ne_nil (mt List.map_eq_nil_iff.1 hne)
  obtain ⟨last, hlast⟩ : ∃ last, (k.sums columns m).getLast? = some last :=
    ⟨_, List.getLast?_eq_some_getLast hsums_ne⟩
  obtain ⟨hnumber, hcarry, hoverflow⟩ := Accumulation.exact_sums hlast
  rw [hvalues] at hnumber hcarry hoverflow
  have hlast' : ((columns.zip (k.sums columns m)).map Prod.snd).getLast? = some last := by
    rwa [List.map_snd_zip hsums.le]
  obtain ⟨hcarry', hoverflow', hnegative'⟩ := Machine.flags_storedAll (m := m) hlast'
  refine ⟨_, es, values (k.sums columns m),
    Machine.stepTimes_eq_ok_iff.2 ⟨pcs, hlength, rfl, hsteps⟩, hvalues, hnumber, ?_,
    hcarry'.trans hcarry, hoverflow'.trans hoverflow, ?_⟩
  · intro i hi hlater
    have hzip : (columns.zip (k.sums columns m)).length = columns.length := by
      rw [List.length_zip, hsums, Nat.min_self]
    have hbyte := Machine.byte_storedAll hsize (hzip.symm ▸ hi) fun j hj hij => by
      rw [List.getElem_zip, List.getElem_zip]
      exact hlater j (hzip ▸ hj) hij
    rw [List.getElem_zip] at hbyte
    rw [hbyte, values, List.getElem?_map, List.getElem?_eq_getElem (hsums.symm ▸ hi)]
    rfl
  · have hsign : (values (k.sums columns m)).getLast? = some last.value := by
      rw [values, List.getLast?_map, hlast]
      rfl
    rw [hnegative', isNegative_getLast? hsign, hvalues]

/-- A machine with the carry set, about to do a calculation on the bytes that stand from 32 on. -/
def Machine.calculating (k : Accumulation) (columns : List Column) (operands : List Byte) :
    Machine where
  registers := { p := { carry := true } }
  stack := .new 0x8000 256
  programMemory := ⟨0, 0x8000⟩
  state := .running
  memory := ((Memory.zeros addressSpace).putAll 0 ((k.code columns).flatMap Triple.bytes)).putAll 32
    operands

/-- Two columns that store to different cells. -/
def Column.apart : List Column :=
  [⟨32, 34, 36⟩, ⟨33, 35, 37⟩]

/-- The difference of 256 and 1 borrows from the second byte, and only from there. -/
theorem accumulate_exact_apart :
    ∃ m' es, (Machine.calculating .difference Column.apart [0, 1, 1, 0]).stepTimes 6 =
        (6, ⟨.ok (), m', es⟩) ∧
      m'.memory.byte 36 = 255 ∧ m'.memory.byte 37 = 0 ∧ m'.registers.p.carry = true ∧
      m'.registers.p.overflow = false ∧ m'.registers.p.negative = false := by
  have hholds : (Machine.calculating .difference Column.apart [0, 1, 1, 0]).memory.Holds 0
      ((Accumulation.code .difference Column.apart).flatMap Triple.bytes) := by
    unfold Memory.Holds
    decide +kernel
  obtain ⟨m', es, v, hsteps, hlength, hnumber, hbytes, hcarry, hoverflow, hnegative⟩ :=
    accumulate_exact (k := .difference) (List.cons_ne_nil _ _) (Nat.le_refl addressSpace) hholds
      (by decide) (by decide) (by decide)
  obtain ⟨low, high, rfl⟩ := List.length_eq_two.1 hlength
  have hspelt : (number [low, high] : Int) = 255 := hnumber.trans (by decide +kernel)
  rw [number_cons, number_singleton] at hspelt
  have hlow : low.toNat < 256 := low.toNat_lt
  obtain rfl : low = 255 := UInt8.toNat_inj.1 (by change low.toNat = 255; omega)
  obtain rfl : high = 0 := UInt8.toNat_inj.1 (by change high.toNat = 0; omega)
  have hfirst := Option.some.inj (hbytes 0 (by decide) (by decide))
  have hsecond := Option.some.inj (hbytes 1 (by decide) (by decide))
  exact ⟨m', es, hsteps, hfirst.symm, hsecond.symm, hcarry.trans (by decide +kernel),
    hoverflow.trans (by decide +kernel), hnegative.trans (by decide +kernel)⟩

/-- Two columns that store to one cell. -/
def Column.together : List Column :=
  [⟨32, 34, 36⟩, ⟨33, 35, 36⟩]

/-- **Only the last byte survives** where two columns store to one cell, though the code is in order
otherwise. The sum of nothing, nothing and the carry is one, and that is gone. -/
theorem accumulate_together :
    let m := Machine.calculating .sum Column.together []
    m.memory.size = addressSpace ∧
      m.memory.Holds m.registers.pc.toNat
        ((Accumulation.code .sum Column.together).flatMap Triple.bytes) ∧
      (∀ c ∈ Column.together, ¬(m.registers.pc.toNat ≤ c.result.toNat ∧
        c.result.toNat < m.registers.pc.toNat + 9 * 2)) ∧
      Column.together.Pairwise (fun c d => c.result ≠ d.left ∧ c.result ≠ d.right) ∧
      ∃ m' es, m.stepTimes (3 * 2) = (3 * 2, ⟨.ok (), m', es⟩) ∧
        (number (m'.memory.bytes (Column.together.map Column.result)) : Int) ≠
          Accumulation.total .sum (number (m.memory.bytes (Column.together.map Column.left)))
            (number (m.memory.bytes (Column.together.map Column.right))) m.registers.p.carry %
              256 ^ 2 := by
  intro m
  have hholds : m.memory.Holds m.registers.pc.toNat
      ((Accumulation.code .sum Column.together).flatMap Triple.bytes) := by
    unfold Memory.Holds
    decide +kernel
  have hsteps : (m.stepTimes (3 * 2)).1 = 3 * 2 ∧ (m.stepTimes (3 * 2)).2.result = .ok () := by
    decide +kernel
  have hnumber : (number ((m.stepTimes (3 * 2)).2.machine.memory.bytes
      (Column.together.map Column.result)) : Int) ≠
        Accumulation.total .sum (number (m.memory.bytes (Column.together.map Column.left)))
          (number (m.memory.bytes (Column.together.map Column.right))) m.registers.p.carry %
            256 ^ 2 := by
    decide +kernel
  refine ⟨rfl, hholds, by decide, by decide, ?_⟩
  rcases hrun : m.stepTimes (3 * 2) with ⟨taken, result, m', es⟩
  rw [hrun] at hsteps hnumber
  obtain ⟨rfl, rfl⟩ := hsteps
  exact ⟨m', es, rfl, hnumber⟩

end EightBit
