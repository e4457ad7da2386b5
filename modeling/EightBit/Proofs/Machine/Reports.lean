import EightBit.Proofs.Machine.AllOrNothing
import EightBit.Proofs.Machine.Refusal
import EightBit.Proofs.Machine.Trail
import EightBit.Proofs.Machine.Visits

/-!
# What is reported

Two things are reported while a machine is at work: the program counter at the end of each
instruction, and the stack pointer after each push and each pop. Whoever listens to the reports
of a run knows what the machine has done in it, and where it is now: the reports account for the
way that the run has taken (`EightBit.Machine.Accounted`, `EightBit.run_accounted`).

What there is to report of the stack is said beforehand. An operation stands for some accesses to
the stack (`EightBit.Operation.accesses`), which are done one after the other until one of them
fails (`EightBit.Machine.completed`); each of those that are completed moves the pointer by one
(`EightBit.pointersAlong`). A call and a return are the operations with two accesses, so they
are the ones that can be left with half of them done.
-/

namespace EightBit

/-! ### Accesses to the stack -/

/-- **An access to the stack.** -/
inductive StackAccess where
  | push (value : Byte)
  | pop
deriving DecidableEq, Repr

namespace StackAccess

/-- How far an access moves the pointer. -/
def shift : StackAccess → Int
  | push _ => -1
  | pop => 1

/-- What is done for an access, but for the byte that it hands over. -/
def perform : StackAccess → Action Unit
  | push value => Action.push value >>= fun _ => pure ()
  | pop => Action.pop >>= fun _ => pure ()

end StackAccess

/-- **The accesses of an operation**, in order. -/
def Operation.accesses (r : Registers) : Operation → List StackAccess
  | call => [.push r.pc.high, .push r.pc.low]
  | comeBack => [.pop, .pop]
  | pushStatus => [.push r.p.toByte]
  | pushA => [.push r.a]
  | popStatus | popA => [.pop]
  | _ => []

/-- An operation that does not use the stack has none. -/
theorem Operation.accesses_eq_nil {operation : Operation} (h : operation.usesStack = false)
    (r : Registers) : operation.accesses r = [] := by
  cases operation with
  | call | comeBack | pushStatus | popStatus | pushA | popA => exact nomatch h
  | _ => rfl

/-- **The pointer after each of some accesses**, from where it is before them. -/
def pointersAlong : Int → List StackAccess → List Int
  | _, [] => []
  | p, access :: accesses => (p + access.shift) :: pointersAlong (p + access.shift) accesses

/-- The pointer after all of them. -/
def pointerAfter (p : Int) (accesses : List StackAccess) : Int :=
  accesses.foldl (fun q access => q + access.shift) p

namespace Machine

/-- **The accesses that are completed** when some are done one after the other: all those before
the first one that fails. -/
def completed (m : Machine) : List StackAccess → List StackAccess
  | [] => []
  | access :: accesses =>
    match access.perform m with
    | ⟨.ok (), m', _⟩ => access :: m'.completed accesses
    | ⟨.error _, _, _⟩ => []

/-- The accesses of the instruction at the program counter, if there is one. -/
def accesses (m : Machine) : List StackAccess :=
  match m.operation? with
  | some operation => operation.accesses m.registers
  | none => []

/-- **The accesses that are completed in a step.** -/
def completedAccesses (m : Machine) : List StackAccess :=
  m.completed m.accesses

/-- Whether the instruction at the program counter is completed. -/
def completes (m : Machine) : Bool :=
  match (Action.step m).result with
  | .ok _ => true
  | .error _ => false

section

variable {m m' : Machine} {es : List Event} {access : StackAccess} {accesses : List StackAccess}

theorem completed_cons_of_ok (h : access.perform m = ⟨.ok (), m', es⟩) :
    m.completed (access :: accesses) = access :: m'.completed accesses := by
  rw [completed, h]

theorem completed_cons_of_error {fault : Fault} (h : access.perform m = ⟨.error fault, m', es⟩) :
    m.completed (access :: accesses) = [] := by
  rw [completed, h]

/-- They are the first ones. -/
theorem completed_isPrefix (m : Machine) (accesses : List StackAccess) :
    m.completed accesses <+: accesses := by
  induction accesses generalizing m with
  | nil => exact List.nil_prefix
  | cons access accesses ih =>
    rcases h : access.perform m with ⟨fault | _, m', es⟩
    · rw [completed_cons_of_error h]
      exact List.nil_prefix
    · rw [completed_cons_of_ok h]
      exact List.cons_prefix_cons.2 ⟨rfl, ih m'⟩

end

end Machine

theorem pointerAfter_append (p : Int) (accesses more : List StackAccess) :
    pointerAfter p (accesses ++ more) = pointerAfter (pointerAfter p accesses) more :=
  List.foldl_append

theorem pointersAlong_append (p : Int) (accesses more : List StackAccess) :
    pointersAlong p (accesses ++ more) =
      pointersAlong p accesses ++ pointersAlong (pointerAfter p accesses) more := by
  induction accesses generalizing p with
  | nil => rfl
  | cons access accesses ih =>
    rw [List.cons_append, pointersAlong, pointersAlong, ih]
    rfl

/-- The last of the pointers is where all of the accesses together have moved it. -/
theorem getLastD_pointersAlong (p : Int) (accesses : List StackAccess) :
    (pointersAlong p accesses).getLastD p = pointerAfter p accesses := by
  induction accesses generalizing p with
  | nil => rfl
  | cons access accesses ih =>
    rw [pointersAlong, List.getLastD_cons, ih]
    rfl

/-! ### Moves of the stack -/

/-- **The stack moves by some accesses**, and this is reported: the pointer after each of them, and
nothing else about the stack. SP shows where it stands in the end. -/
structure Machine.Moves (accesses : List StackAccess) (m : Machine) (es : List Event)
    (m' : Machine) : Prop where
  told : es.filterMap Event.pointer? = pointersAlong m.stack.pointer accesses
  pointer : m'.stack.pointer = pointerAfter m.stack.pointer accesses
  shown : accesses ≠ [] → m'.registers.sp = UInt8.ofInt m'.stack.pointer
  kept : accesses = [] → m'.registers.sp = m.registers.sp

namespace Machine.Moves

variable {accesses more : List StackAccess} {m m' m'' : Machine} {es es' : List Event}

/-- The stack stays where it is. -/
theorem of_still (hes : es.filterMap Event.pointer? = []) (hstack : m'.stack = m.stack)
    (hsp : m'.registers.sp = m.registers.sp) : Moves [] m es m' where
  told := hes
  pointer := by rw [hstack]; rfl
  shown h := absurd rfl h
  kept _ := hsp

/-- **One thing after the other** moves it by the accesses of both. -/
theorem trans (h : Moves accesses m es m') (h' : Moves more m' es' m'') :
    Moves (accesses ++ more) m (es ++ es') m'' where
  told := by rw [List.filterMap_append, h.told, h'.told, pointersAlong_append, h.pointer]
  pointer := by rw [h'.pointer, h.pointer, pointerAfter_append]
  shown hne := by
    by_cases hmore : more = []
    · -- What comes second does not move the stack, so SP shows what it has shown before.
      have hpointer : m''.stack.pointer = m'.stack.pointer := by rw [h'.pointer, hmore]; rfl
      rw [hmore, List.append_nil] at hne
      rw [h'.kept hmore, hpointer, h.shown hne]
    · exact h'.shown hmore
  kept hnil := by
    obtain ⟨hfirst, hsecond⟩ := List.append_eq_nil_iff.1 hnil
    rw [h'.kept hsecond, h.kept hfirst]

/-- Where the stack has moved, the last report says where it is. -/
theorem getLast (h : Moves accesses m es m') {p : Int}
    (hp : (es.filterMap Event.pointer?).getLast? = some p) :
    m'.stack.pointer = p ∧ (m'.registers.sp.toNat : Int) = p % 256 := by
  rw [h.told] at hp
  have hpointer : m'.stack.pointer = p := by
    rw [h.pointer, ← getLastD_pointersAlong, List.getLastD_eq_getLast?, hp, Option.getD_some]
  have hne : accesses ≠ [] := by
    rintro rfl
    exact nomatch hp
  rw [h.shown hne, hpointer]
  exact ⟨rfl, Byte.toNat_ofInt p⟩

end Machine.Moves

/-- **An outcome comes of some accesses to the stack**: those that are completed move it, and no
instruction is reported yet. All of them are completed if it is a success; if it is a fault then
not all are, should there be any, and the program counter is where it was. -/
structure Outcome.ComesOf {α : Type} (accesses : List StackAccess) (m : Machine) (o : Outcome α) :
    Prop where
  moves : m.Moves (m.completed accesses) o.events o.machine
  untold : o.events.filterMap Event.pc? = []
  done : ∀ a, o.result = .ok a → m.completed accesses = accesses
  broken : ∀ fault, o.result = .error fault → accesses ≠ [] → m.completed accesses ≠ accesses
  stays : ∀ fault, o.result = .error fault → o.machine.registers.pc = m.registers.pc

namespace Outcome

variable {α : Type} {accesses : List StackAccess} {m m' : Machine} {es : List Event}

/-- **A stop** comes of accesses none of which is completed. -/
theorem Stopped.comesOf {fault : Fault} {o : Outcome α} (h : o.Stopped fault m)
    (hcompleted : m.completed accesses = []) : o.ComesOf accesses m where
  moves := by
    rw [hcompleted, h.machine]
    exact .of_still (List.filterMap_eq_nil_iff.2 fun e he => (h.silent e he).2.2) rfl rfl
  untold := List.filterMap_eq_nil_iff.2 fun e he => (h.silent e he).2.1
  done _ hok := nomatch h.result.symm.trans hok
  broken _ _ hne := by
    rw [hcompleted]
    exact hne.symm
  stays _ _ := by rw [h.machine]

/-- To fetch an instruction beforehand makes no difference. -/
theorem ComesOf.fetched {result : Except Fault α} (h : ComesOf accesses m ⟨result, m', es⟩)
    (t : Triple) : ComesOf accesses m ⟨result, m', m.fetchEvents t ++ es⟩ where
  moves := Machine.Moves.trans (.of_still rfl rfl rfl) h.moves
  untold := h.untold
  done := h.done
  broken := h.broken
  stays := h.stays

end Outcome

namespace Action

variable {α β : Type}

/-! ### Operations that do not use the stack -/

/-- **An action is discreet** if it leaves the stack where it is, and nothing is reported. -/
def Discreet (α : Type) (x : Action α) : Prop :=
  x.Along fun m es m' => m.Moves [] es m' ∧ es.filterMap Event.pc? = []

theorem Discreet.bind {x : Action α} {f : α → Action β} (hx : Discreet α x)
    (hf : ∀ a, Discreet β (f a)) : Discreet β (x >>= f) := by
  refine Along.bind hx (fun h h' => ⟨h.1.trans h'.1, ?_⟩) hf
  rw [List.filterMap_append, h.2, h'.2]
  rfl

theorem discreet_updateRegisters {f : Registers → Registers} (hsp : ∀ r, (f r).sp = r.sp) :
    Discreet Unit (updateRegisters f) :=
  fun m => ⟨.of_still rfl rfl (hsp m.registers), rfl⟩

theorem discreet_read (address : Word) : Discreet Byte (read address) := by
  intro m
  cases hcell : m.memory.cell? address.toNat with
  | none =>
    rw [read_error hcell]
    exact ⟨.of_still rfl rfl rfl, rfl⟩
  | some v =>
    rw [read_ok hcell]
    exact ⟨.of_still rfl rfl rfl, rfl⟩

/-- To be discreet is a plain property. -/
theorem discreet_plain : Plain Discreet where
  pure _ _ := ⟨.of_still rfl rfl rfl, rfl⟩
  bind := Discreet.bind
  ask _ _ _ := ⟨.of_still rfl rfl rfl, rfl⟩
  update _ _ hsp := discreet_updateRegisters hsp
  print _ _ := ⟨.of_still rfl rfl rfl, rfl⟩
  read := discreet_read
  write address v m := by
    by_cases h : address.toNat < m.memory.size
    · rw [write_ok h]
      exact ⟨.of_still rfl rfl rfl, rfl⟩
    · rw [write_error h]
      exact ⟨.of_still rfl rfl rfl, rfl⟩

/-- **An operation that does not use the stack is discreet.** -/
theorem discreet_perform {operation : Operation} {mode : Mode} {first second : Byte}
    {place : Place} (huses : operation.usesStack = false) :
    Discreet Unit (perform operation mode first second place) :=
  discreet_plain.perform_of_usesStack_eq_false (fun _ => discreet_updateRegisters) huses fun _ =>
    discreet_plain.move fun _ _ _ _ => ⟨.of_still rfl rfl rfl, rfl⟩

/-- A discreet action that is all or nothing comes of no access at all. -/
theorem Discreet.comesOf {x : Action α} (hx : Discreet α x) (hall : AllOrNothing α x)
    (m : Machine) : (x m).ComesOf [] m where
  moves := (hx m).1
  untold := (hx m).2
  done _ _ := rfl
  broken _ _ h := absurd rfl h
  stays fault h := by rw [(hall m fault h).machine]

/-- Changing the registers comes of no access, as long as SP is left to the stack. -/
theorem comesOf_updateRegisters {f : Registers → Registers} (hsp : ∀ r, (f r).sp = r.sp)
    (m : Machine) : (updateRegisters f m).ComesOf [] m :=
  (discreet_updateRegisters hsp).comesOf (fun _ _ h => nomatch h) m

/-! ### Operations that use the stack -/

/-- **An action makes an access** to the stack if it does the same, and fails like it. -/
structure Makes (access : StackAccess) (x : Action α) : Prop where
  perform : access.perform = (x >>= fun _ => pure ())
  allOrNothing : AllOrNothing α x
  moves : ∀ m a m' es, x m = ⟨.ok a, m', es⟩ → m.Moves [access] es m' ∧
    es.filterMap Event.pc? = [] ∧ m'.registers.pc = m.registers.pc

theorem makes_push (v : Byte) : (push v).Makes (.push v) where
  perform := rfl
  allOrNothing := allOrNothing_push v
  moves m a m' es h := by
    rcases push_cases v m with ⟨f, -, heq⟩ | ⟨cell, -, -, heq⟩ | ⟨cell, -, -, heq⟩
    · exact nomatch heq.symm.trans h
    · exact nomatch heq.symm.trans h
    · cases heq.symm.trans h
      exact ⟨⟨rfl, rfl, fun _ => rfl, fun hnil => nomatch hnil⟩, rfl, rfl⟩

theorem makes_pop : pop.Makes .pop where
  perform := rfl
  allOrNothing := allOrNothing_pop
  moves m a m' es h := by
    rcases pop_cases m with ⟨f, -, heq⟩ | ⟨cell, -, -, heq⟩ | ⟨cell, v, -, -, heq⟩
    · exact nomatch heq.symm.trans h
    · exact nomatch heq.symm.trans h
    · cases heq.symm.trans h
      exact ⟨⟨rfl, rfl, fun _ => rfl, fun hnil => nomatch hnil⟩, rfl, rfl⟩

/-- **An access, and then others.** What comes after the last one must not fail. -/
theorem Makes.comesOf_bind {access : StackAccess} {accesses : List StackAccess} {x : Action α}
    {f : α → Action β} (hx : x.Makes access) (hf : ∀ a m, (f a m).ComesOf accesses m)
    (hsure : accesses = [] → ∀ a, Sure β (f a)) (m : Machine) :
    ((x >>= f) m).ComesOf (access :: accesses) m := by
  rcases hxm : x m with ⟨fault | a, m₁, es⟩
  · -- The access fails, so nothing has been done.
    have hstop := hx.allOrNothing m fault (by rw [hxm])
    have hperform : access.perform m = ⟨.error fault, m₁, es⟩ := by
      rw [hx.perform]
      exact bind_error hxm
    exact (stopped_bind hstop).comesOf (Machine.completed_cons_of_error hperform)
  · obtain ⟨hmoves, huntold, hpc⟩ := hx.moves m a m₁ es hxm
    obtain ⟨hrest, hquiet, hdone, hbroken, hstays⟩ := hf a m₁
    have hperform : access.perform m = ⟨.ok (), m₁, es ++ []⟩ := by
      rw [hx.perform]
      exact bind_ok hxm
    have hcompleted : m.completed (access :: accesses) = access :: m₁.completed accesses :=
      Machine.completed_cons_of_ok hperform
    rw [bind_ok hxm]
    refine ⟨?_, ?_, fun b h => ?_, fun fault h _ => ?_, fun fault h => (hstays fault h).trans hpc⟩
    · rw [hcompleted]
      exact hmoves.trans hrest
    · rw [List.filterMap_append, huntold, hquiet]
      rfl
    · rw [hcompleted, hdone b h]
    · rw [hcompleted]
      by_cases hlast : accesses = []
      · obtain ⟨b, hb⟩ := hsure hlast a m₁
        exact nomatch hb.symm.trans h
      · exact fun heq => hbroken fault h hlast (List.cons.inj heq).2

/-- **An operation that uses the stack** comes of its accesses. -/
theorem comesOf_perform_of_usesStack {operation : Operation} {mode : Mode} {first second : Byte}
    {place : Place} (huses : operation.usesStack = true) (m : Machine) :
    (perform operation mode first second place m).ComesOf (operation.accesses m.registers) m := by
  cases operation with
  | call =>
    have hlow : ∀ m₁, (Action.bind (push m.registers.pc.low)
        (fun _ => setPC (Word.ofBytes first second)) m₁).ComesOf [.push m.registers.pc.low] m₁ :=
      (makes_push _).comesOf_bind (fun _ => comesOf_updateRegisters fun _ => rfl)
        fun _ _ => sure_updateRegisters _
    exact (makes_push m.registers.pc.high).comesOf_bind (fun _ => hlow) (fun h => nomatch h) m
  | comeBack =>
    have hhigh : ∀ low m₁, (Action.bind pop (fun high => setPC (Word.ofBytes high low)) m₁).ComesOf
        [.pop] m₁ := fun low =>
      makes_pop.comesOf_bind (fun _ => comesOf_updateRegisters fun _ => rfl)
        fun _ _ => sure_updateRegisters _
    exact makes_pop.comesOf_bind hhigh (fun h => nomatch h) m
  | pushStatus | pushA =>
    change (push _ m).ComesOf [_] m
    rw [← bind_pure (push _)]
    exact (makes_push _).comesOf_bind
      (fun _ m => comesOf_updateRegisters (f := id) (fun _ => rfl) m) (fun _ _ => sure_pure _) m
  | popStatus =>
    exact makes_pop.comesOf_bind (fun status => comesOf_updateRegisters
      (f := fun r => { r with p := .ofByte status }) fun _ => rfl) (fun _ _ =>
      sure_updateRegisters _) m
  | popA =>
    exact makes_pop.comesOf_bind (fun v => comesOf_updateRegisters
      (f := fun r => (r.set .a v).withResult v) fun _ => rfl) (fun _ _ =>
      sure_updateRegisters _) m
  | _ => exact nomatch huses

/-- **Every operation comes of its accesses.** -/
theorem comesOf_perform (operation : Operation) (mode : Mode) (first second : Byte) (place : Place)
    (m : Machine) :
    (perform operation mode first second place m).ComesOf (operation.accesses m.registers) m := by
  cases huses : operation.usesStack with
  | true => exact comesOf_perform_of_usesStack huses m
  | false =>
    rw [operation.accesses_eq_nil huses]
    refine (discreet_perform huses).comesOf (allOrNothing_perform ?_ ?_) m
    · rintro rfl
      exact nomatch huses
    · rintro rfl
      exact nomatch huses

end Action

/-! ### Steps -/

/-- **The reports of a step are in order**: each completed access is reported, and if the
instruction is completed then so is the program counter in the end. All accesses are completed
with the instruction; if it is not then not all are, should there be any. -/
structure Machine.StepReported (m : Machine) : Prop where
  moves : m.Moves m.completedAccesses (Action.step m).events (Action.step m).machine
  told : (Action.step m).events.filterMap Event.pc? =
    if m.completes then [(Action.step m).machine.registers.pc] else []
  done : m.completes = true → m.completedAccesses = m.accesses
  broken : m.completes = false → m.accesses ≠ [] → m.completedAccesses ≠ m.accesses
  stays : m.completes = false → (Action.step m).machine.registers.pc = m.registers.pc

namespace Machine

variable {m m₁ : Machine} {es : List Event}

theorem completes_eq_false_iff :
    m.completes = false ↔ ∃ fault, (Action.step m).result = .error fault := by
  rw [completes]
  cases (Action.step m).result with
  | ok _ => exact ⟨(fun h => nomatch h), fun ⟨_, h⟩ => nomatch h⟩
  | error fault => exact ⟨fun _ => ⟨fault, rfl⟩, fun _ => rfl⟩

theorem completes_of_step (h : Action.step m = ⟨.ok (), m₁, es⟩) : m.completes = true := by
  rw [completes, h]

/-- A step that faults reports no more than its operation does. -/
theorem StepReported.of_error {fault : Fault} (h : (Action.step m).ComesOf m.accesses m)
    (hfault : (Action.step m).result = .error fault) : m.StepReported := by
  have hcompletes : m.completes = false := completes_eq_false_iff.2 ⟨fault, hfault⟩
  refine ⟨h.moves, ?_, fun hyes => ?_, fun _ => h.broken fault hfault,
    fun _ => h.stays fault hfault⟩
  · rw [hcompletes]
    exact h.untold
  · exact nomatch hcompletes.symm.trans hyes

/-- A step that succeeds reports the program counter in the end. -/
theorem StepReported.of_ok (h : Outcome.ComesOf (α := Unit) m.accesses m ⟨.ok (), m₁, es⟩)
    (hstep : Action.step m =
      ⟨.ok (), m₁.advanced, es ++ [.advance m₁.advanced.registers.pc]⟩) : m.StepReported := by
  have hcompletes : m.completes = true := completes_of_step hstep
  have hadvance : m₁.Moves [] [.advance m₁.advanced.registers.pc] m₁.advanced :=
    .of_still rfl rfl rfl
  have hmoves := h.moves.trans hadvance
  have huntold : es.filterMap Event.pc? = [] := h.untold
  rw [List.append_nil] at hmoves
  refine ⟨?_, ?_, fun _ => h.done () rfl, fun hno => ?_, fun hno => ?_⟩
  · rw [hstep]
    exact hmoves
  · rw [hstep, hcompletes, List.filterMap_append, huntold]
    rfl
  · exact nomatch hno.symm.trans hcompletes
  · exact nomatch hno.symm.trans hcompletes

/-- **The reports of every step are in order.** -/
theorem stepReported (m : Machine) : m.StepReported := by
  cases hoperation : m.operation? with
  | none =>
    have haccesses : m.accesses = [] := by rw [accesses, hoperation]
    obtain ⟨fault, hstop⟩ := Action.stopped_step_of_operation?_eq_none hoperation
    exact .of_error (hstop.comesOf (by rw [haccesses]; rfl)) hstop.result
  | some operation =>
    obtain ⟨t, form, ht, hform, rfl⟩ := operation?_eq_some_iff.1 hoperation
    have hcomes := Action.comesOf_perform form.mnemonic.operation form.mode t.first t.second
      (form.mode.place m.registers t.first t.second) m
    have haccesses : form.mnemonic.operation.accesses m.registers = m.accesses := by
      rw [accesses, hoperation]
    rw [haccesses] at hcomes
    rcases hperform : Action.perform form.mnemonic.operation form.mode t.first t.second
      (form.mode.place m.registers t.first t.second) m with ⟨fault | _, m₁, es⟩
    · rw [hperform] at hcomes
      have hstep := Action.step_of_perform_error ht hform hperform
      exact .of_error (by rw [hstep]; exact hcomes.fetched t) (by rw [hstep])
    · rw [hperform] at hcomes
      exact .of_ok (hcomes.fetched t)
        (Action.step_eq_ok_iff.2 ⟨t, form, m₁, es, ht, hform, hperform, rfl, rfl⟩)

end Machine

/-! ### Runs -/

namespace Machine

/-- **Reports account for a way**, from a machine through those that steps are taken from to the
one that is left behind. The program counter has been reported once for each instruction that has
been completed, and is that of the next instruction, or in the end that of the machine. The stack
pointer has been reported once for each access that has been completed, in order and each time
one further, and in the end it is that of the machine, with SP showing its low byte. -/
structure Accounted (vs : List Machine) (m : Machine) (es : List Event) (m' : Machine) : Prop where
  count : (es.filterMap Event.pc?).length = vs.countP completes
  next : ∀ i v, vs[i + 1]? = some v → (es.filterMap Event.pc?)[i]? = some v.registers.pc
  last : ∀ pc, (es.filterMap Event.pc?).getLast? = some pc → m'.registers.pc = pc
  moves : es.filterMap Event.pointer? =
    pointersAlong m.stack.pointer (vs.flatMap completedAccesses)
  stands : ∀ p, (es.filterMap Event.pointer?).getLast? = some p →
    m'.stack.pointer = p ∧ (m'.registers.sp.toNat : Int) = p % 256
  done : ∀ v ∈ vs, v.completes = true → v.completedAccesses = v.accesses
  broken : ∀ v ∈ vs, v.completes = false → v.accesses ≠ [] →
    v.completedAccesses <+: v.accesses ∧ v.completedAccesses.length < v.accesses.length

/-- What is reported of some steps. -/
abbrev stepEvents (vs : List Machine) : List Event :=
  vs.flatMap fun v => (Action.step v).events

theorem stepEvents_cons (v : Machine) (vs : List Machine) :
    stepEvents (v :: vs) = (Action.step v).events ++ stepEvents vs :=
  List.flatMap_cons

/-- The program counter is reported for the first step, if it is completed, and then for the
others. -/
theorem filterMap_pc?_stepEvents_cons (v : Machine) (vs : List Machine) :
    (stepEvents (v :: vs)).filterMap Event.pc? =
      (if v.completes then [(Action.step v).machine.registers.pc] else []) ++
        (stepEvents vs).filterMap Event.pc? := by
  rw [stepEvents_cons, List.filterMap_append, v.stepReported.told]

theorem length_filterMap_pc?_stepEvents (vs : List Machine) :
    ((stepEvents vs).filterMap Event.pc?).length = vs.countP completes := by
  induction vs with
  | nil => rfl
  | cons v vs ih =>
    rw [filterMap_pc?_stepEvents_cons, List.length_append, ih, List.countP_cons, Nat.add_comm]
    congr 1
    split <;> rfl

namespace Passes

variable {vs : List Machine} {m m' : Machine}

/-- **The stack moves by what is completed on the way.** -/
theorem moves (h : Passes m vs m') :
    m.Moves (vs.flatMap completedAccesses) (stepEvents vs) m' := by
  induction h with
  | nil => exact .of_still rfl rfl rfl
  | @cons m m' ms _ _ ih => exact m.stepReported.moves.trans ih

/-- **The program counter is where it has last been reported**, or where it was if it has not been
reported at all. -/
theorem pc_eq_getLastD (h : Passes m vs m') :
    m'.registers.pc = ((stepEvents vs).filterMap Event.pc?).getLastD m.registers.pc := by
  induction h with
  | nil => rfl
  | @cons m m' ms hpasses hlast ih =>
    rw [filterMap_pc?_stepEvents_cons]
    cases hcompletes : m.completes with
    | true => rw [if_pos rfl, List.singleton_append, List.getLastD_cons, ih]
    | false =>
      -- A step that faults is the last one, and leaves the program counter alone.
      obtain ⟨fault, hfault⟩ := completes_eq_false_iff.1 hcompletes
      obtain rfl := hlast fault hfault
      cases hpasses
      exact m.stepReported.stays hcompletes

/-- **Each report of the program counter is that of the next instruction.** -/
theorem getElem?_pc (h : Passes m vs m') {i : Nat} {v : Machine} (hv : vs[i + 1]? = some v) :
    ((stepEvents vs).filterMap Event.pc?)[i]? = some v.registers.pc := by
  induction h generalizing i with
  | nil => exact nomatch hv
  | @cons m m' ms hpasses hlast ih =>
    rw [List.getElem?_cons_succ] at hv
    have hcompletes : m.completes = true := by
      refine Bool.of_not_eq_false fun hfalse => ?_
      obtain ⟨fault, hfault⟩ := completes_eq_false_iff.1 hfalse
      rw [hlast fault hfault] at hv
      exact nomatch hv
    rw [filterMap_pc?_stepEvents_cons, hcompletes, if_pos rfl, List.singleton_append]
    cases i with
    | zero =>
      -- The next instruction is fetched from what this one leaves behind.
      cases hpasses with
      | nil => exact nomatch hv
      | cons =>
        obtain rfl := Option.some.inj hv
        rfl
    | succ i => exact ih hv

/-- **The reports of the steps account for the way** that they take. -/
theorem accounted (h : Passes m vs m') : Accounted vs m (stepEvents vs) m' where
  count := length_filterMap_pc?_stepEvents vs
  next _ _ hv := h.getElem?_pc hv
  last pc hpc := by rw [h.pc_eq_getLastD, List.getLastD_eq_getLast?, hpc, Option.getD_some]
  moves := h.moves.told
  stands _ hp := h.moves.getLast hp
  done v _ := v.stepReported.done
  broken v _ hcompletes hne := by
    have hfront := v.completed_isPrefix v.accesses
    refine ⟨hfront, Nat.lt_of_le_of_ne hfront.length_le fun hlength => ?_⟩
    exact v.stepReported.broken hcompletes hne (hfront.eq_of_length hlength)

end Passes

/-- What is silent comes before, and makes no difference; nor does it make one where the program
counter is at first, or what the run state is. -/
theorem Accounted.of_silent {vs : List Machine} {m₀ m m' : Machine} {es silent : List Event}
    (h : Accounted vs m es m') (hstack : m.stack = m₀.stack) (hsilent : Silent silent)
    (state : RunState) : Accounted vs m₀ (silent ++ es) (m'.inState state) := by
  have hpcs : (silent ++ es).filterMap Event.pc? = es.filterMap Event.pc? := by
    rw [List.filterMap_append, List.filterMap_eq_nil_iff.2 fun e he => (hsilent e he).2.1,
      List.nil_append]
  have hpointers : (silent ++ es).filterMap Event.pointer? = es.filterMap Event.pointer? := by
    rw [List.filterMap_append, List.filterMap_eq_nil_iff.2 fun e he => (hsilent e he).2.2,
      List.nil_append]
  obtain ⟨hcount, hnext, hlast, hmoves, hstands, hdone, hbroken⟩ := h
  rw [← hpcs] at hcount
  rw [← hpointers, hstack] at hmoves
  simp only [← hpcs] at hnext hlast
  simp only [← hpointers] at hstands
  exact ⟨hcount, hnext, hlast, hmoves, hstands, hdone, hbroken⟩

/-! ### Running a program, and stepping a number of times -/

/-- **A start is silent**, and leaves the stack alone. -/
theorem silent_start (address : Word) (m : Machine) :
    Silent (Action.start address m).events ∧ (Action.start address m).machine.stack = m.stack := by
  rcases m.refuses_or_accepts address with ⟨fault, hrefuses⟩ | ⟨hregion, hlimit, high, low, hholds⟩
  · obtain ⟨-, hmachine, hsilent⟩ := Action.stopped_start hrefuses
    rw [hmachine]
    exact ⟨hsilent, rfl⟩
  · rw [Action.start_eq_ok_iff.2 ⟨hregion, hlimit, high, low, hholds, rfl, rfl, rfl⟩]
    exact ⟨by simp [Action.headerEvents], rfl⟩

/-- **The machines that steps are taken from** when so many are to be taken, but none past a
fault. -/
def stepVisits : Nat → Machine → List Machine
  | 0, _ => []
  | count + 1, m => m :: match Action.step m with
    | ⟨.ok (), m', _⟩ => stepVisits count m'
    | ⟨.error _, _, _⟩ => []

/-- **Stepping a number of times** passes through these machines. -/
theorem stepTimes_go_passes (done : Nat) (journal : List Event) (n : Nat) (m : Machine) :
    Passes m (stepVisits n m) (stepTimes.go done journal n m).2.machine ∧
      (stepTimes.go done journal n m).2.events = journal.reverse ++ stepEvents (stepVisits n m) ∧
      (stepTimes.go done journal n m).1 = done + (stepVisits n m).countP completes := by
  induction n generalizing done journal m with
  | zero => exact ⟨.nil, (List.append_nil _).symm, rfl⟩
  | succ n ih =>
    rcases hstep : Action.step m with ⟨fault | _, m₁, es⟩
    · have hgo : stepTimes.go done journal (n + 1) m =
          (done, ⟨.error fault, m₁, (es.reverse ++ journal).reverse⟩) := by
        rw [stepTimes.go, hstep]
      have hvisits : stepVisits (n + 1) m = [m] := by rw [stepVisits, hstep]
      have hcompletes : m.completes = false := completes_eq_false_iff.2 ⟨fault, by rw [hstep]⟩
      rw [hgo, hvisits]
      refine ⟨.cons ?_ fun _ _ => rfl, ?_, ?_⟩
      · rw [hstep]
        exact .nil
      · rw [stepEvents, List.flatMap_singleton, hstep, List.reverse_append, List.reverse_reverse]
      · rw [List.countP_singleton, hcompletes]
        rfl
    · have hgo : stepTimes.go done journal (n + 1) m =
          stepTimes.go (done + 1) (es.reverse ++ journal) n m₁ := by
        rw [stepTimes.go, hstep]
      have hvisits : stepVisits (n + 1) m = m :: stepVisits n m₁ := by rw [stepVisits, hstep]
      have hcompletes : m.completes = true := completes_of_step hstep
      obtain ⟨hpasses, hevents, hcount⟩ := ih (done + 1) (es.reverse ++ journal) m₁
      rw [hgo, hvisits]
      refine ⟨.cons ?_ fun fault h => ?_, ?_, ?_⟩
      · rw [hstep]
        exact hpasses
      · rw [hstep] at h
        cases h
      · rw [hevents, stepEvents_cons, hstep, List.reverse_append, List.reverse_reverse,
          List.append_assoc]
      · rw [hcount, List.countP_cons_of_pos hcompletes]
        omega

end Machine

/-- **The reports of a run account for it**, whether it halts, faults or is paused. The same is true
of stepping a number of times, where the instructions that have been completed are counted. -/
theorem run_accounted (m : Machine) :
    (∀ suspend budget address,
      Machine.Accounted (m.executeVisits suspend budget address) m
        (m.execute suspend budget address).events (m.execute suspend budget address).machine) ∧
    ∀ count,
      Machine.Accounted (m.stepVisits count) m (m.stepTimes count).2.events
          (m.stepTimes count).2.machine ∧
        (m.stepTimes count).1 = (m.stepVisits count).countP Machine.completes := by
  constructor
  · intro suspend budget address
    obtain ⟨m', state, hpasses, hmachine⟩ := m.exists_passes_execute suspend budget address
    obtain ⟨hsilent, hstack⟩ := m.silent_start address
    rw [m.events_execute, hmachine]
    exact hpasses.accounted.of_silent hstack hsilent state
  · intro count
    obtain ⟨hpasses, hevents, hcount⟩ := m.stepTimes_go_passes 0 [] count
    refine ⟨?_, hcount.trans (Nat.zero_add _)⟩
    rw [Machine.stepTimes, hevents]
    exact hpasses.accounted

/-- A machine whose stack has two cells, with a program that pushes a byte and makes a call. -/
def Machine.ofHalfCall : Machine where
  registers := {}
  stack := .new 0 2
  programMemory := ⟨2, 18⟩
  state := .ready
  memory := (Memory.zeros 18).putAll 2 (image [⟨0x2B, 0, 0⟩, ⟨0x1E, 0, 5⟩])

/-- The call is left half done, so only the first instruction is reported, but two moves are. -/
example :
    (Machine.ofHalfCall.execute .never 5 2).events.filterMap Event.pc? = [8] ∧
      (Machine.ofHalfCall.execute .never 5 2).events.filterMap Event.pointer? = [0, -1] := by
  decide +kernel

end EightBit
