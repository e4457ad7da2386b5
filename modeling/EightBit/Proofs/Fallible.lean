import Mathlib.Data.List.Forall2

/-!
# Computations that can fail

When a computation in `Except` succeeds, and with what. Each lemma reads a success
back as the successes of the parts, so that a proof about one can take it apart with
`obtain` and never has to open a `do` block.
-/

namespace EightBit

namespace Fallible

variable {ε ε' α β : Type}

/-- One computation after another succeeds if both do. -/
theorem bind_eq_ok_iff {x : Except ε α} {f : α → Except ε β} {b : β} :
    (x >>= f) = .ok b ↔ ∃ a, x = .ok a ∧ f a = .ok b := by
  cases x with
  | error e =>
    constructor
    · exact fun h => nomatch h
    · rintro ⟨a, h, -⟩
      exact nomatch h
  | ok a =>
    constructor
    · exact fun h => ⟨a, rfl, h⟩
    · rintro ⟨a', h, h'⟩
      obtain rfl := Except.ok.inj h
      exact h'

theorem pure_eq_ok_iff {a b : α} : (pure a : Except ε α) = .ok b ↔ a = b :=
  ⟨fun h => Except.ok.inj h, fun h => congrArg Except.ok h⟩

theorem throw_ne_ok {e : ε} {b : α} : (throw e : Except ε α) ≠ .ok b :=
  fun h => nomatch h

/-- What comes after a check succeeds only if the check passes. -/
theorem unless_eq_ok_iff {c : Prop} [Decidable c] {x : Except ε β} {e : ε} {f : α → Except ε β}
    {b : β} : (if c then x else throw e >>= f) = .ok b ↔ c ∧ x = .ok b := by
  by_cases h : c
  · rw [if_pos h]
    exact ⟨fun hx => ⟨h, hx⟩, fun hx => hx.2⟩
  · rw [if_neg h]
    constructor
    · exact fun hx => nomatch hx
    · exact fun hx => absurd hx.1 h

theorem mapError_eq_ok_iff {f : ε → ε'} {x : Except ε α} {a : α} :
    x.mapError f = .ok a ↔ x = .ok a := by
  cases x with
  | error e =>
    constructor
    · exact fun h => nomatch h
    · exact fun h => nomatch h
  | ok b => exact ⟨fun h => congrArg Except.ok (Except.ok.inj h), fun h => h ▸ rfl⟩

/-- **A computation along a list succeeds** if it does for each entry, in order. -/
theorem mapM_eq_ok_iff {f : α → Except ε β} {l : List α} {l' : List β} :
    l.mapM f = .ok l' ↔ List.Forall₂ (fun a b => f a = .ok b) l l' := by
  induction l generalizing l' with
  | nil => rw [List.mapM_nil, pure_eq_ok_iff, List.forall₂_nil_left_iff, eq_comm]
  | cons a l ih =>
    simp only [List.mapM_cons, bind_eq_ok_iff, pure_eq_ok_iff, ih, List.forall₂_cons_left_iff]
    constructor
    · rintro ⟨b, hb, bs, hbs, rfl⟩
      exact ⟨b, bs, hb, hbs, rfl⟩
    · rintro ⟨b, bs, hb, hbs, rfl⟩
      exact ⟨b, hb, bs, hbs, rfl⟩

/-- **A computation along a list fails** where it fails first. -/
theorem mapM_append_eq_error {f : α → Except ε β} {l l' : List α} {a : α} {bs : List β} {e : ε}
    (hl : l.mapM f = .ok bs) (ha : f a = .error e) : (l ++ a :: l').mapM f = .error e := by
  rw [List.mapM_append, hl, List.mapM_cons, ha]
  rfl

end Fallible

end EightBit
