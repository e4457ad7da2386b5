import EightBit.Proofs.Machine.StraightLine

/-!
# Refused starts

Before a program is started there are four things to check: that its address is in program
memory, that its header is in memory and in the address space, that the header begins with the
marker, and that something follows it. The first check that fails decides the fault
(`EightBit.Machine.Refuses`).

A machine that refuses to start a program has only looked at the header. It is as it was, but
for its run state; nothing is printed, nobody is told of anything, and the run is not polled
once. If all checks pass the first instruction is up, and then every fault comes from an
instruction and is preceded by a poll. So whether a start is refused can be told from the run
(`EightBit.execute_refused_iff`).
-/

namespace EightBit

/-- Where addresses end: with memory or with the address space, whichever comes first. -/
def Machine.limit (m : Machine) : Nat :=
  min m.memory.size addressSpace

/-- **A machine refuses to start a program**, with the fault of the first check that fails. -/
inductive Machine.Refuses (m : Machine) (start : Word) : Fault → Prop
  /-- The address is not in program memory. -/
  | outside : m.programMemory.contains start.toNat = false → Refuses m start (.segmentFault start)
  /-- The first byte of the header that there is no address for. -/
  | header {k : Nat} : m.programMemory.contains start.toNat = true → k < 3 →
    m.limit ≤ start.toNat + k → (∀ j < k, start.toNat + j < m.limit) →
    Refuses m start (.outOfBounds (start.toNat + k) m.memory.size)
  /-- The header does not begin with the marker. -/
  | marker {marker high low : Byte} : m.programMemory.contains start.toNat = true →
    start.toNat + 2 < m.limit → m.memory.Holds start.toNat [marker, high, low] →
    marker ≠ headerMarker → Refuses m start (.invalidHeader marker high low)
  /-- Nothing follows the header. -/
  | body {high low : Byte} : m.programMemory.contains start.toNat = true →
    start.toNat + 2 < m.limit → m.memory.Holds start.toNat [headerMarker, high, low] →
    m.limit ≤ start.toNat + 3 → Refuses m start (.outOfBounds (start.toNat + 3) m.memory.size)

/-- Below the limit there are cells. -/
theorem Machine.exists_cell?_of_lt_limit {m : Machine} {address : Nat} (h : address < m.limit) :
    ∃ v, m.memory.cell? address = some v :=
  Option.isSome_iff_exists.1 (Memory.isSome_cell?_iff.2 (Nat.lt_of_lt_of_le h (Nat.min_le_left ..)))

/-! ### What a refusal comes to -/

namespace Action

variable {α : Type} {m : Machine} {start : Word} {offset : Nat} {fault : Fault}

theorem stopped_within_bind {f : Word → Action α} (h : m.limit ≤ start.toNat + offset) :
    ((within start offset >>= f) m).Stopped
      (.outOfBounds (start.toNat + offset) m.memory.size) m := by
  rw [bind_error (within_error (Nat.not_lt_of_le h))]
  exact ⟨rfl, rfl, Silent.nil⟩

/-- A byte of the header is read, and then comes the stop. -/
theorem stopped_within_bind_read {v : Byte} {f : Byte → Action α}
    (h : start.toNat + offset < m.limit) (hv : m.memory.cell? (start.toNat + offset) = some v)
    (hstop : (f v m).Stopped fault m) :
    ((within start offset >>= fun there => read there >>= f) m).Stopped fault m := by
  have hcell : m.memory.cell? (UInt16.ofNat (start.toNat + offset)).toNat = some v := by
    rwa [toNat_ofNat_of_lt_min h]
  rw [bind_ok (within_ok h), bind_ok (read_ok hcell)]
  exact ⟨hstop.result, hstop.machine, by simpa using hstop.silent⟩

/-- All of the header is read, and then comes the stop. -/
theorem stopped_header_bind {marker high low : Byte} {f : Byte → Byte → Byte → Action α}
    (hlimit : start.toNat + 2 < m.limit) (hholds : m.memory.Holds start.toNat [marker, high, low])
    (hstop : (f marker high low m).Stopped fault m) :
    ((within start 0 >>= fun there => read there >>= fun marker =>
      within start 1 >>= fun there => read there >>= fun high =>
      within start 2 >>= fun there => read there >>= fun low => f marker high low) m).Stopped
        fault m := by
  simp only [Memory.holds_cons] at hholds
  obtain ⟨hmarker, hhigh, hlow, -⟩ := hholds
  refine stopped_within_bind_read (by omega) hmarker ?_
  refine stopped_within_bind_read (by omega) hhigh ?_
  exact stopped_within_bind_read hlimit hlow hstop

/-- **A refused start is stopped.** -/
theorem stopped_start (h : m.Refuses start fault) : (Action.start start m).Stopped fault m := by
  rw [Action.start, ask_bind]
  dsimp only
  cases h with
  | outside hregion =>
    rw [if_neg (by rw [hregion]; exact Bool.false_ne_true)]
    exact ⟨rfl, rfl, Silent.nil⟩
  | @header k hregion hk hlimit hbelow =>
    rw [if_pos hregion]
    -- The bytes before are read.
    obtain rfl | rfl | rfl : k = 0 ∨ k = 1 ∨ k = 2 := by omega
    · exact stopped_within_bind hlimit
    · obtain ⟨marker, hmarker⟩ := Machine.exists_cell?_of_lt_limit (hbelow 0 (by decide))
      refine stopped_within_bind_read (hbelow 0 (by decide)) hmarker ?_
      exact stopped_within_bind hlimit
    · obtain ⟨marker, hmarker⟩ := Machine.exists_cell?_of_lt_limit (hbelow 0 (by decide))
      obtain ⟨high, hhigh⟩ := Machine.exists_cell?_of_lt_limit (hbelow 1 (by decide))
      refine stopped_within_bind_read (hbelow 0 (by decide)) hmarker ?_
      refine stopped_within_bind_read (hbelow 1 (by decide)) hhigh ?_
      exact stopped_within_bind hlimit
  | marker hregion hlimit hholds hmarker =>
    rw [if_pos hregion]
    refine stopped_header_bind hlimit hholds ?_
    rw [if_neg fun heq => hmarker (beq_iff_eq.1 heq)]
    exact ⟨rfl, rfl, Silent.nil⟩
  | body hregion hlimit hholds hbody =>
    rw [if_pos hregion]
    refine stopped_header_bind hlimit hholds ?_
    rw [if_pos (beq_self_eq_true _)]
    exact stopped_within_bind hbody

end Action

/-- **A start is refused, or everything is there that it takes.** -/
theorem Machine.refuses_or_accepts (m : Machine) (start : Word) :
    (∃ fault, m.Refuses start fault) ∨
      m.programMemory.contains start.toNat = true ∧ start.toNat + 3 < m.limit ∧
        ∃ high low, m.memory.Holds start.toNat [headerMarker, high, low] := by
  rcases hregion : m.programMemory.contains start.toNat with _ | _
  · exact Or.inl ⟨_, .outside hregion⟩
  by_cases h₀ : start.toNat + 0 < m.limit
  case neg => exact Or.inl ⟨_, .header hregion (by decide) (Nat.le_of_not_lt h₀) (by omega)⟩
  by_cases h₁ : start.toNat + 1 < m.limit
  case neg => exact Or.inl ⟨_, .header hregion (by decide) (Nat.le_of_not_lt h₁) (by omega)⟩
  by_cases h₂ : start.toNat + 2 < m.limit
  case neg => exact Or.inl ⟨_, .header hregion (by decide) (Nat.le_of_not_lt h₂) (by omega)⟩
  obtain ⟨marker, hmarker⟩ := exists_cell?_of_lt_limit h₀
  obtain ⟨high, hhigh⟩ := exists_cell?_of_lt_limit h₁
  obtain ⟨low, hlow⟩ := exists_cell?_of_lt_limit h₂
  have hholds : m.memory.Holds start.toNat [marker, high, low] := by
    simp only [Memory.holds_cons]
    exact ⟨hmarker, hhigh, hlow, fun i hi => absurd hi (Nat.not_lt_zero i)⟩
  by_cases hheader : marker = headerMarker
  case neg => exact Or.inl ⟨_, .marker hregion h₂ hholds hheader⟩
  subst hheader
  by_cases h₃ : start.toNat + 3 < m.limit
  · exact Or.inr ⟨rfl, h₃, high, low, hholds⟩
  · exact Or.inl ⟨_, .body hregion h₂ hholds (Nat.le_of_not_lt h₃)⟩

/-! ### What can be told from a run -/

namespace Machine

variable {suspend : Suspension} {stop : Nat}

/-- **A run polls before its instructions**, so one that faults has polled. -/
theorem polls_ne_nil_of_faulted (budget : Nat) (polls : List Word) (journal : List Event)
    (m : Machine) {fault : Fault}
    (h : (runFrom suspend stop budget polls journal m).ending = .faulted fault) :
    (runFrom suspend stop budget polls journal m).polls ≠ [] := by
  induction budget generalizing polls journal m with
  | zero =>
    rw [runFrom] at h
    split at h
    · cases h
    · cases h
  | succ budget ih =>
    rw [runFrom] at h ⊢
    by_cases hstop : stop ≤ m.registers.pc.toNat
    · rw [if_pos hstop] at h
      cases h
    rw [if_neg hstop] at h ⊢
    by_cases hsuspend : suspend m.registers.pc polls = true
    · rw [if_pos hsuspend] at h ⊢
      exact ih _ _ _ h
    rw [if_neg hsuspend] at h ⊢
    rcases hstep : Action.step m with ⟨e | _, m₁, es⟩
    · simp
    · rw [hstep] at h
      exact ih _ _ _ h

/-- **A run that halts has reached its end.** -/
theorem le_pc_of_halted (budget : Nat) (polls : List Word) (journal : List Event) (m : Machine)
    (h : (runFrom suspend stop budget polls journal m).ending = .halted) :
    stop ≤ (runFrom suspend stop budget polls journal m).machine.registers.pc.toNat := by
  induction budget generalizing polls journal m with
  | zero =>
    rw [runFrom] at h ⊢
    by_cases hstop : stop ≤ m.registers.pc.toNat
    · rw [if_pos hstop]
      exact hstop
    · rw [if_neg hstop] at h
      cases h
  | succ budget ih =>
    rw [runFrom] at h ⊢
    by_cases hstop : stop ≤ m.registers.pc.toNat
    · rw [if_pos hstop]
      exact hstop
    rw [if_neg hstop] at h ⊢
    by_cases hsuspend : suspend m.registers.pc polls = true
    · rw [if_pos hsuspend] at h ⊢
      exact ih _ _ _ h
    rw [if_neg hsuspend] at h ⊢
    rcases hstep : Action.step m with ⟨e | _, m₁, es⟩
    · rw [hstep] at h
      cases h
    · rw [hstep] at h
      exact ih _ _ _ h

variable {m : Machine} {start : Word}

/-- **A run whose start is refused** is over at once. -/
theorem execute_of_refuses {fault : Fault} (h : m.Refuses start fault) (suspend : Suspension)
    (budget : Nat) :
    ∃ es, Silent es ∧
      m.execute suspend budget start = ⟨.faulted fault, m.inState .faulted, [], es⟩ := by
  have hstop := Action.stopped_start h
  rcases hstart : Action.start start m with ⟨result, m₁, es⟩
  rw [hstart] at hstop
  obtain ⟨rfl, rfl, hsilent⟩ := hstop
  refine ⟨es, hsilent, ?_⟩
  rw [execute, hstart]
  rfl

section

variable {high low : Byte} (hregion : m.programMemory.contains start.toNat = true)
  (hlimit : start.toNat + 3 < m.limit)
  (hholds : m.memory.Holds start.toNat [headerMarker, high, low])

include hregion hlimit hholds

/-- **A run whose start is not refused** goes on from the first instruction. -/
theorem execute_of_accepts (suspend : Suspension) (budget : Nat) :
    m.execute suspend budget start =
      runFrom suspend (start.toNat + 3 + (Word.ofBytes high low).toNat) budget []
        (Action.headerEvents start high low).reverse ((m.goto (start + 3)).inState .running) := by
  have hstart := Action.start_eq_ok_iff.2 ⟨hregion, hlimit, high, low, hholds, rfl, rfl, rfl⟩
  rw [execute, hstart]
  rfl

theorem not_refuses_of_accepts (fault : Fault) : ¬m.Refuses start fault := by
  intro hrefuses
  have hstart := Action.start_eq_ok_iff.2 ⟨hregion, hlimit, high, low, hholds, rfl, rfl, rfl⟩
  have hresult := (Action.stopped_start hrefuses).result
  rw [hstart] at hresult
  exact nomatch hresult

end

end Machine

/-- **A refused start changes nothing.** Before it has performed an instruction, and thus before
its first poll, a run ends with a fault exactly if its start is refused with this fault: outside
program memory, then where the header is cut off, then for its marker, then for want of
something to follow it. Then all is as it was but the run state, and nobody is told of anything.
Otherwise the run goes on from the first instruction, with nothing else changed, and it halts
only at the end that its header announces – a plain number that does not wrap around. -/
theorem execute_refused_iff (m : Machine) (start : Word) (suspend : Suspension) (budget : Nat) :
    (∀ fault, (m.execute suspend budget start).ending = .faulted fault ∧
        (m.execute suspend budget start).polls = [] ↔ m.Refuses start fault) ∧
    (∀ fault, m.Refuses start fault → ∃ es, Silent es ∧
      m.execute suspend budget start = ⟨.faulted fault, m.inState .faulted, [], es⟩) ∧
    ((∀ fault, ¬m.Refuses start fault) → ∃ high low stop,
      m.memory.Holds start.toNat [headerMarker, high, low] ∧
      (start + 3).toNat = start.toNat + 3 ∧
      stop = start.toNat + 3 + (Word.ofBytes high low).toNat ∧
      m.execute suspend budget start = Machine.runFrom suspend stop budget []
        (Action.headerEvents start high low).reverse ((m.goto (start + 3)).inState .running) ∧
      ((m.execute suspend budget start).ending = .halted →
        stop ≤ (m.execute suspend budget start).machine.registers.pc.toNat)) := by
  rcases m.refuses_or_accepts start with ⟨fault, hrefuses⟩ | ⟨hregion, hlimit, high, low, hholds⟩
  · obtain ⟨es, -, hexecute⟩ := Machine.execute_of_refuses hrefuses suspend budget
    refine ⟨fun fault' => ?_, fun fault' hrefuses' => Machine.execute_of_refuses hrefuses' _ _,
      fun hnone => absurd hrefuses (hnone fault)⟩
    constructor
    · rintro ⟨hfault, -⟩
      rw [hexecute] at hfault
      obtain rfl := Ending.faulted.inj hfault
      exact hrefuses
    · intro hrefuses'
      obtain ⟨es', -, hexecute'⟩ := Machine.execute_of_refuses hrefuses' suspend budget
      rw [hexecute']
      exact ⟨rfl, rfl⟩
  · have hnone := Machine.not_refuses_of_accepts hregion hlimit hholds
    have hexecute := Machine.execute_of_accepts hregion hlimit hholds suspend budget
    refine ⟨fun fault => ?_, fun fault hrefuses => absurd hrefuses (hnone fault), fun _ =>
      ⟨high, low, _, hholds, ?_, rfl, hexecute, fun hhalted => ?_⟩⟩
    · constructor
      · rintro ⟨hfault, hpolls⟩
        rw [hexecute] at hfault hpolls
        exact absurd hpolls (Machine.polls_ne_nil_of_faulted _ _ _ _ hfault)
      · exact fun hrefuses => absurd hrefuses (hnone fault)
    · exact toNat_add_of_lt_addressSpace (Nat.lt_of_lt_of_le hlimit (Nat.min_le_right ..))
    · rw [hexecute] at hhalted ⊢
      exact Machine.le_pc_of_halted _ _ _ _ hhalted

end EightBit
