import EightBit.Proofs.Source.Program

/-!
# Assembling one text after another

Lines know nothing of one another, so a text can be assembled in pieces, if it is cut where
a line ends. The instructions of the pieces follow one another, and the first problem of all
is the first one of the first piece that has any, with the lines of the pieces before it
added to its number (`EightBit.assemble_append`).

One induction carries this: lines that are accepted put their instructions in front of
whatever comes of the lines after them (`EightBit.assembleLines_append`). So the outcome is
decided by the first line that is not accepted (`EightBit.Punctuation.FirstProblem`), and
only if there is none by the length of the program.
-/

namespace EightBit

namespace Punctuation

variable (p : Punctuation)

/-- **A line is accepted** if it is assembled to an instruction or to nothing. -/
def Accepts (line : Text) : Prop :=
  ∃ result, assembleLine p line = .ok result

/-- **The instructions on some lines**, from those that are accepted. -/
def instructions (ls : List Text) : List Triple :=
  ls.flatMap fun line =>
    match assembleLine p line with
    | .ok result => result.toList
    | .error _ => []

/-- **The first problem** in some lines, with the number of its line: all lines before it
are accepted. -/
def FirstProblem (ls : List Text) (e : AssemblyError) : Prop :=
  ∃ before line after, ls = before ++ line :: after ∧ (∀ line ∈ before, p.Accepts line) ∧
    assembleLine p line = .error e.problem ∧ e.line = before.length + 1

end Punctuation

variable {p : Punctuation}

open Punctuation

/-- A line that is not accepted has a problem. -/
theorem exists_problem_of_not_accepts {line : Text} (h : ¬p.Accepts line) :
    ∃ problem, assembleLine p line = .error problem := by
  cases hline : assembleLine p line with
  | error problem => exact ⟨problem, rfl⟩
  | ok result => exact absurd ⟨result, hline⟩ h

/-! ### The first problem -/

namespace Punctuation.FirstProblem

variable {ls others : List Text} {e : AssemblyError}

/-- What comes after the first problem makes no difference to it. -/
theorem append (h : p.FirstProblem ls e) (others : List Text) :
    p.FirstProblem (ls ++ others) e := by
  obtain ⟨before, line, after, rfl, hbefore, hline, hnumber⟩ := h
  refine ⟨before, line, after ++ others, ?_, hbefore, hline, hnumber⟩
  rw [List.append_assoc, List.cons_append]

/-- Lines that are accepted only move the first problem on. -/
theorem after (h : p.FirstProblem ls e) (hothers : ∀ line ∈ others, p.Accepts line) :
    p.FirstProblem (others ++ ls) ⟨others.length + e.line, e.problem⟩ := by
  obtain ⟨before, line, after, rfl, hbefore, hline, hnumber⟩ := h
  refine ⟨others ++ before, line, after, (List.append_assoc ..).symm, ?_, hline, ?_⟩
  · exact List.forall_mem_append.2 ⟨hothers, hbefore⟩
  · rw [hnumber, List.length_append, Nat.add_assoc]

end Punctuation.FirstProblem

/-- **If a line is not accepted, there is a first problem.** -/
theorem exists_firstProblem {ls : List Text} (h : ∃ line ∈ ls, ¬p.Accepts line) :
    ∃ e, p.FirstProblem ls e := by
  induction ls with
  | nil =>
    obtain ⟨line, hmem, -⟩ := h
    exact absurd hmem List.not_mem_nil
  | cons first ls ih =>
    by_cases hfirst : p.Accepts first
    · obtain ⟨line, hmem, hline⟩ := h
      have hrest : line ∈ ls := by
        obtain rfl | hrest := List.mem_cons.1 hmem
        · exact absurd hfirst hline
        · exact hrest
      obtain ⟨e, he⟩ := ih ⟨line, hrest, hline⟩
      have hsingle : ∀ line ∈ [first], p.Accepts line := List.forall_mem_singleton.2 hfirst
      exact ⟨_, he.after hsingle⟩
    · obtain ⟨problem, hproblem⟩ := exists_problem_of_not_accepts hfirst
      exact ⟨⟨1, problem⟩, [], first, ls, rfl, List.forall_mem_nil _, hproblem, rfl⟩

/-! ### Lines one after another -/

/-- A line with a problem decides what is reported. -/
theorem assembleLines_cons_of_error {number : Nat} {line : Text} {problem : Problem}
    (h : assembleLine p line = .error problem) (ls : List Text) :
    assembleLines p number (line :: ls) = .error ⟨number, problem⟩ := by
  rw [assembleLines, List.zipIdx_cons, List.mapM_cons]
  dsimp only
  rw [h]
  rfl

/-- A line without one puts its instruction in front of the others. -/
theorem assembleLines_cons_of_ok {number : Nat} {line : Text} {result : Option Triple}
    (h : assembleLine p line = .ok result) (ls : List Text) :
    assembleLines p number (line :: ls) =
      (result.toList ++ ·) <$> assembleLines p (number + 1) ls := by
  have hrest : ∀ rest : Except AssemblyError (List (Option Triple)),
      (rest >>= fun program => pure (result :: program)) >>=
          (fun program => pure (program.filterMap id)) =
        (result.toList ++ ·) <$> (rest >>= fun program => pure (program.filterMap id)) := by
    intro rest
    cases rest with
    | error e => rfl
    | ok program => cases result <;> rfl
  rw [assembleLines, assembleLines, List.zipIdx_cons, List.mapM_cons]
  dsimp only
  rw [h]
  exact hrest _

/-- **Lines that are accepted** put their instructions in front of whatever comes of the
lines after them. -/
theorem assembleLines_append {number : Nat} {before : List Text}
    (hbefore : ∀ line ∈ before, p.Accepts line) (after : List Text) :
    assembleLines p number (before ++ after) =
      (p.instructions before ++ ·) <$> assembleLines p (number + before.length) after := by
  induction before generalizing number with
  | nil =>
    rw [List.nil_append, List.length_nil, Nat.add_zero]
    exact (id_map _).symm
  | cons line before ih =>
    obtain ⟨⟨result, hline⟩, hrest⟩ := List.forall_mem_cons.1 hbefore
    have hinstructions : p.instructions (line :: before) =
        result.toList ++ p.instructions before := by
      rw [instructions, List.flatMap_cons, hline]
      rfl
    rw [List.cons_append, assembleLines_cons_of_ok hline, ih hrest, ← comp_map,
      List.length_cons, Nat.add_right_comm, Nat.add_assoc, hinstructions]
    congr 1
    funext rest
    exact (List.append_assoc ..).symm

/-- Lines that are accepted are assembled to their instructions. -/
theorem assembleLines_eq_ok_instructions {number : Nat} {ls : List Text}
    (h : ∀ line ∈ ls, p.Accepts line) : assembleLines p number ls = .ok (p.instructions ls) := by
  rw [← List.append_nil ls, assembleLines_append h, assembleLines_nil, List.append_nil]
  exact congrArg Except.ok (List.append_nil _)

/-- **The first problem is the one that is reported.** -/
theorem assembleLines_eq_error {ls : List Text} {e : AssemblyError} (h : p.FirstProblem ls e) :
    assembleLines p 1 ls = .error e := by
  obtain ⟨before, line, after, rfl, hbefore, hline, hnumber⟩ := h
  rw [assembleLines_append hbefore, assembleLines_cons_of_error hline, Nat.add_comm, ← hnumber]
  rfl

/-- Of the lines that are accepted, those that hold an instruction have one each. -/
theorem length_instructions {ls : List Text} (h : ∀ line ∈ ls, p.Accepts line) :
    (p.instructions ls).length = ls.countP p.holdsInstruction := by
  have hassembled : assembleLines p 1 ls = .ok (p.instructions ls) :=
    assembleLines_eq_ok_instructions h
  rw [List.countP_eq_length_filter, (assembleLines_eq_ok_iff.1 hassembled).length_eq]

theorem instructions_append (ls others : List Text) :
    p.instructions (ls ++ others) = p.instructions ls ++ p.instructions others :=
  List.flatMap_append

/-! ### Texts one after another -/

/-- **A text with a problem** is refused for the first one, however long it is. -/
theorem assemble_eq_error_of_firstProblem {source : Text} {e : AssemblyError}
    (h : p.FirstProblem (lines source) e) : assemble p source = .error e := by
  rw [assemble, assembleLines_eq_error h]
  rfl

/-- **A text without a problem** is assembled unless it is too long. -/
theorem assemble_eq_of_accepts {source : Text} (h : ∀ line ∈ lines source, p.Accepts line) :
    assemble p source =
      if 3 * (lines source).countP p.holdsInstruction ≤ maxBodyLength then
        .ok (image (p.instructions (lines source)))
      else .error ⟨(lines source).length,
        .programTooLarge (3 * (lines source).countP p.holdsInstruction)⟩ := by
  rw [assemble, assembleLines_eq_ok_instructions h, ← length_instructions h]
  rfl

/-- A text that is empty or ends in a line feed ends where a line does. -/
theorem lines_append_of_endsLine {s : Text} (hs : s = [] ∨ s.getLast? = some '\n') (t : Text) :
    lines (s ++ t) = lines s ++ lines t := by
  rcases hs with rfl | hs
  · rfl
  · obtain ⟨before, rfl⟩ := List.getLast?_eq_some_iff.1 hs
    rw [List.append_assoc, List.singleton_append, lines_append]

/-- **Assembly goes line by line, and the first problem is the one that is reported.** Of two
texts one after the other, the first of which is empty or ends in a line feed:

* if the first has a line that is not accepted, its first problem is reported, as it is for
  the first text alone;
* if only the second has such a line, its first problem is reported, as it is for the second
  text alone, but with the lines of the first added to the number;
* if neither has one, the image is that of the instructions of the first and then those of
  the second, unless a header cannot describe so many bytes, and that is reported for the
  last line. -/
theorem assemble_append {s t : Text} (hs : s = [] ∨ s.getLast? = some '\n') :
    ((∃ line ∈ lines s, ¬p.Accepts line) →
      ∃ e, p.FirstProblem (lines s) e ∧ assemble p s = .error e ∧
        assemble p (s ++ t) = .error e) ∧
    ((∀ line ∈ lines s, p.Accepts line) → (∃ line ∈ lines t, ¬p.Accepts line) →
      ∃ e, p.FirstProblem (lines t) e ∧ assemble p t = .error e ∧
        assemble p (s ++ t) = .error ⟨(lines s).length + e.line, e.problem⟩) ∧
    ((∀ line ∈ lines s, p.Accepts line) → (∀ line ∈ lines t, p.Accepts line) →
      ∀ count, count = (lines (s ++ t)).countP p.holdsInstruction →
        (3 * count ≤ maxBodyLength →
          ∃ high low, (Word.ofBytes high low).toNat = 3 * count ∧
            assemble p (s ++ t) = .ok (headerMarker :: high :: low ::
              ((p.instructions (lines s)).flatMap Triple.bytes ++
                (p.instructions (lines t)).flatMap Triple.bytes))) ∧
        (maxBodyLength < 3 * count →
          assemble p (s ++ t) =
            .error ⟨(lines (s ++ t)).length, .programTooLarge (3 * count)⟩)) := by
  have hlines := lines_append_of_endsLine hs t
  refine ⟨fun hbad => ?_, fun hgood hbad => ?_, fun hgood hgood' count hcount => ?_⟩
  · obtain ⟨e, he⟩ := exists_firstProblem hbad
    have hboth : p.FirstProblem (lines (s ++ t)) e := hlines ▸ he.append (lines t)
    exact ⟨e, he, assemble_eq_error_of_firstProblem he, assemble_eq_error_of_firstProblem hboth⟩
  · obtain ⟨e, he⟩ := exists_firstProblem hbad
    have hboth := he.after hgood
    rw [← hlines] at hboth
    exact ⟨e, he, assemble_eq_error_of_firstProblem he, assemble_eq_error_of_firstProblem hboth⟩
  · have hall : ∀ line ∈ lines (s ++ t), p.Accepts line :=
      hlines ▸ List.forall_mem_append.2 ⟨hgood, hgood'⟩
    have hassemble := assemble_eq_of_accepts hall
    rw [← hcount] at hassemble
    constructor
    · intro hfits
      have hlength : 3 * (p.instructions (lines (s ++ t))).length = 3 * count := by
        rw [length_instructions hall, hcount]
      obtain ⟨high, low, hheader⟩ := exists_header (hlength.symm ▸ hfits)
      refine ⟨high, low, hheader.symm.trans hlength, ?_⟩
      rw [hassemble, if_pos hfits, image_eq hheader, hlines, instructions_append,
        List.flatMap_append]
    · intro hlarge
      rw [hassemble, if_neg (Nat.not_le_of_lt hlarge)]

/-- A problem on the second line of the second text is reported for the third line of both;
and without one there are the bytes of both. -/
theorem assemble_append_standard :
    assemble .standard ("NOP\n".toList ++ "\nLDQ".toList) =
        .error ⟨3, .unknownMnemonic "LDQ".toList⟩ ∧
      assemble .standard ("NOP\n".toList ++ "ONL".toList) =
        .ok [0x7F, 0, 6, 0, 0, 0, 0x5A, 0, 0] := by
  have hs : "NOP\n".toList = [] ∨ "NOP\n".toList.getLast? = some '\n' := by decide
  have hfirst : ∀ line ∈ lines "NOP\n".toList, Punctuation.standard.Accepts line :=
    List.forall_mem_singleton.2 ⟨some ⟨0, 0, 0⟩, by decide⟩
  have hsecond : ∀ line ∈ lines "ONL".toList, Punctuation.standard.Accepts line :=
    List.forall_mem_singleton.2 ⟨some ⟨0x5A, 0, 0⟩, by decide⟩
  have hbad : ∃ line ∈ lines "\nLDQ".toList, ¬Punctuation.standard.Accepts line := by
    refine ⟨"LDQ".toList, by decide, ?_⟩
    rintro ⟨result, h⟩
    have hproblem : assembleLine .standard "LDQ".toList =
        .error (.unknownMnemonic "LDQ".toList) := by decide
    exact nomatch hproblem.symm.trans h
  constructor
  · obtain ⟨e, -, halone, hboth⟩ := (assemble_append hs).2.1 hfirst hbad
    have hproblem : assemble .standard "\nLDQ".toList =
        .error ⟨2, .unknownMnemonic "LDQ".toList⟩ := by decide
    obtain rfl := Except.error.inj (hproblem.symm.trans halone)
    exact hboth
  · obtain ⟨high, low, hheader, hboth⟩ :=
      ((assemble_append hs).2.2 hfirst hsecond 2 (by decide)).1 (by decide)
    have hword : Word.ofBytes high low = 6 := UInt16.toNat_inj.1 hheader
    obtain rfl : high = 0 := by rw [← Word.high_ofBytes high low, hword]; rfl
    obtain rfl : low = 6 := by rw [← Word.low_ofBytes 0 low, hword]; rfl
    exact hboth

end EightBit
