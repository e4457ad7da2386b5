import EightBit.Assembly.Line
import Mathlib.Data.List.Forall2

/-!
# Words on a line

A text that somebody *writes* is simpler than one that has to be read: it is made
of words with gaps between them, and there is no quote anywhere. This file says what
the two scanners, `EightBit.code` and `EightBit.tokens`, do to such a text.

* A **word** (`EightBit.IsWord`) holds no separator and no quote, so it is one token
  wherever it stands between gaps.
* A text is **spaced** (`EightBit.Spaced`) if it is some words with gaps around and
  between them. Its tokens are its words (`EightBit.Spaced.tokens_eq`), however wide
  the gaps are.
* Without a quote and without the mark of a comment a text is all code
  (`EightBit.code_of_unmarked`).

Whole lines go together in the same way: as long as none of them is empty or holds a
line feed, lines joined by line feeds are found again, up to carriage returns at their
ends (`EightBit.forall₂_lines`).
-/

namespace EightBit

/-! ### Words and gaps -/

/-- What holds of every character of a text can be checked one character at a time; there
is no need to go through all the characters that there are. -/
theorem forall_mem_of_all {text : Text} {P : Char → Prop} [DecidablePred P]
    (h : text.all (fun c => decide (P c)) = true) : ∀ c ∈ text, P c := fun c hc =>
  of_decide_eq_true (List.all_eq_true.1 h c hc)

/-- A character that can stand in the middle of a token and does nothing there but
stand for itself. -/
def isPlain (c : Char) : Bool :=
  !isSeparator c && c != quoteMark

/-- **A word**: a text that is one token as it stands. -/
structure IsWord (word : Text) : Prop where
  ne_nil : word ≠ []
  plain : ∀ c ∈ word, isPlain c

/-- A run of separators, possibly empty. -/
def IsGap (gap : Text) : Prop :=
  ∀ c ∈ gap, isSeparator c

instance (gap : Text) : Decidable (IsGap gap) :=
  decidable_of_iff (gap.all isSeparator = true) List.all_eq_true

/-- A text that a word may stand in front of: it is empty or starts with a
separator. -/
def IsBoundary (rest : Text) : Prop :=
  ∀ c ∈ rest.head?, isSeparator c

theorem isSeparator_of_isPlain {c : Char} (h : isPlain c) : isSeparator c = false := by
  simp only [isPlain, Bool.and_eq_true, Bool.not_eq_true'] at h
  exact h.1

theorem ne_quoteMark_of_isPlain {c : Char} (h : isPlain c) : c ≠ quoteMark := by
  simp only [isPlain, Bool.and_eq_true, bne_iff_ne] at h
  exact h.2

theorem isGap_nil : IsGap [] := fun _ h => nomatch h

theorem isBoundary_nil : IsBoundary [] := fun _ h => nomatch h

theorem isBoundary_cons {c : Char} {rest : Text} (h : isSeparator c) : IsBoundary (c :: rest) := by
  rintro d hd
  obtain rfl : c = d := by simpa using hd
  exact h

/-! ### Tokens of a spaced text -/

/-- Outside quotes, plain characters go into the current token. -/
theorem tokensFrom_plain {word : Text} (h : ∀ c ∈ word, isPlain c) (current rest : Text) :
    tokensFrom false current (word ++ rest) = tokensFrom false (word.reverse ++ current) rest := by
  induction word generalizing current with
  | nil => rfl
  | cons c word ih =>
    have hc : isPlain c := h c List.mem_cons_self
    have hq : (c == quoteMark) = false := beq_false_of_ne (ne_quoteMark_of_isPlain hc)
    -- The current token is kept backwards, so the word goes onto it in reverse.
    rw [List.cons_append, tokensFrom, if_neg (by simp [isSeparator_of_isPlain hc]), hq,
      Bool.bne_false, ih fun d hd => h d (List.mem_cons_of_mem c hd)]
    simp

theorem tokens_separator_cons {c : Char} (h : isSeparator c) (rest : Text) :
    tokens (c :: rest) = tokens rest := by
  rw [tokens, tokensFrom, if_pos ⟨h, rfl⟩]
  rfl

/-- The gap in front of a text makes no difference to its tokens. -/
theorem tokens_gap_append {gap : Text} (h : IsGap gap) (rest : Text) :
    tokens (gap ++ rest) = tokens rest := by
  induction gap with
  | nil => rfl
  | cons c gap ih =>
    rw [List.cons_append, tokens_separator_cons (h c List.mem_cons_self)]
    exact ih fun d hd => h d (List.mem_cons_of_mem c hd)

/-- A gap has no tokens. -/
theorem tokens_gap {gap : Text} (h : IsGap gap) : tokens gap = [] := by
  simpa [tokens, tokensFrom, finishToken] using tokens_gap_append h []

/-- A token that has been begun comes before those that follow. -/
theorem finishToken_of_ne_nil {current : Text} (h : current ≠ []) (rest : List Text) :
    finishToken current rest = current.reverse :: rest := by
  obtain ⟨c, current, rfl⟩ := List.exists_cons_of_ne_nil h
  rw [finishToken]
  exact List.cons_ne_nil c current

/-- **A word in front of a boundary is the first token.** -/
theorem tokens_word_append {word rest : Text} (hword : IsWord word) (hrest : IsBoundary rest) :
    tokens (word ++ rest) = word :: tokens rest := by
  have hfinish : ∀ ts : List Text, finishToken word.reverse ts = word :: ts := by
    intro ts
    rw [finishToken_of_ne_nil (List.reverse_ne_nil_iff.2 hword.ne_nil), List.reverse_reverse]
  rw [tokens, tokensFrom_plain hword.plain, List.append_nil]
  cases rest with
  | nil => rw [tokensFrom, hfinish]; rfl
  | cons c rest =>
    have hc : isSeparator c := hrest c rfl
    rw [tokensFrom, if_pos ⟨hc, rfl⟩, hfinish, tokens_separator_cons hc]
    rfl

/-- **A spaced text**: some words, with gaps around them. Between two words the gap
is not empty, since a word stands in front of a boundary. -/
inductive Spaced : List Text → Text → Prop
  /-- No word at all. -/
  | gap {gap : Text} : IsGap gap → Spaced [] gap
  /-- A gap, a word, and what follows it. -/
  | word {gap word rest : Text} {words : List Text} :
    IsGap gap → IsWord word → IsBoundary rest → Spaced words rest →
      Spaced (word :: words) (gap ++ word ++ rest)

/-- A spaced text stays one with another gap in front of it. -/
theorem Spaced.gap_append {words : List Text} {text gap : Text} (h : Spaced words text)
    (hgap : IsGap gap) : Spaced words (gap ++ text) := by
  have hboth : ∀ {gap' : Text}, IsGap gap' → IsGap (gap ++ gap') := fun hgap' c hc =>
    (List.mem_append.1 hc).elim (hgap c) (hgap' c)
  cases h with
  | gap hgap' => exact .gap (hboth hgap')
  | word hgap' hword hrest h =>
    rw [← List.append_assoc, ← List.append_assoc]
    exact .word (hboth hgap') hword hrest h

/-- **The tokens of a spaced text are its words.** -/
theorem Spaced.tokens_eq {words : List Text} {text : Text} (h : Spaced words text) :
    tokens text = words := by
  induction h with
  | gap hgap => exact tokens_gap hgap
  | word hgap hword hrest _ ih =>
    rw [List.append_assoc, tokens_gap_append hgap, tokens_word_append hword hrest, ih]

/-! ### Text without a comment -/

/-- What holds no quote and no mark of a comment is code, whatever follows it. -/
theorem code_append {comment : Char} {text : Text}
    (h : ∀ c ∈ text, c ≠ quoteMark ∧ c ≠ comment) (rest : Text) :
    code comment (text ++ rest) = text ++ code comment rest := by
  induction text with
  | nil => rfl
  | cons c text ih =>
    obtain ⟨hquote, hcomment⟩ := h c List.mem_cons_self
    rw [code, List.cons_append, codeFrom, if_neg hquote, if_neg fun hc => hcomment hc.1]
    exact congrArg (c :: ·) (ih fun d hd => h d (List.mem_cons_of_mem c hd))

/-- **Text without a quote and without the mark of a comment is all code.** -/
theorem code_of_unmarked {comment : Char} {text : Text}
    (h : ∀ c ∈ text, c ≠ quoteMark ∧ c ≠ comment) : code comment text = text := by
  simpa [code, codeFrom] using code_append h []

/-- **What comes after such a text from the mark of a comment on is no code.** -/
theorem code_comment_of_unmarked {comment : Char} (hcomment : comment ≠ quoteMark) {text : Text}
    (h : ∀ c ∈ text, c ≠ quoteMark ∧ c ≠ comment) (rest : Text) :
    code comment (text ++ comment :: rest) = text := by
  rw [code_append h, code, codeFrom, if_neg hcomment, if_pos ⟨rfl, rfl⟩, List.append_nil]

/-! ### Lines joined by line feeds -/

/-- A text that can stand on a line of its own. -/
structure IsLine (line : Text) : Prop where
  ne_nil : line ≠ []
  lineFeed : '\n' ∉ line
  carriageReturn : '\r' ∉ line

/-- What holds no line feed goes into the current line. -/
theorem linesFrom_line {line : Text} (h : '\n' ∉ line) (current rest : Text) :
    linesFrom [] current (line ++ rest) = linesFrom [] (line.reverse ++ current) rest := by
  induction line generalizing current with
  | nil => rfl
  | cons c line ih =>
    have hc : c ≠ '\n' := fun hc => h (hc ▸ List.mem_cons_self)
    rw [List.cons_append, linesFrom, ih fun hmem => h (List.mem_cons_of_mem c hmem)]
    · simp
    · exact hc

/-- **The first line feed ends the first line.** -/
theorem lines_append_lineFeed {line : Text} (h : '\n' ∉ line) (rest : Text) :
    lines (line ++ '\n' :: rest) = finishLine line.reverse :: lines rest := by
  rw [lines, linesFrom_line h, List.append_nil, linesFrom, linesFrom_done]
  rfl

/-- All that a line can lose at its end is a carriage return. -/
theorem finishLine_cases (line : Text) :
    finishLine line.reverse = line ∨ line = finishLine line.reverse ++ ['\r'] := by
  rcases hline : line.reverse with _ | ⟨c, current⟩
  · rw [List.reverse_eq_nil_iff.1 hline]
    exact Or.inl rfl
  · rw [← List.reverse_reverse line, hline]
    by_cases hc : c = '\r'
    · subst hc
      exact Or.inr List.reverse_cons
    · refine Or.inl ?_
      rw [finishLine]
      intro _ hcons
      exact hc (List.cons.inj hcons).1

/-- A text without a line feed is a single line, if it is anything at all. -/
theorem lines_of_not_mem {text : Text} (h : '\n' ∉ text) :
    lines text = if text = [] then [] else [text] := by
  have hline := linesFrom_line h [] []
  rw [List.append_nil, List.append_nil] at hline
  rw [lines, hline, linesFrom]
  by_cases hnil : text = []
  · rw [if_pos hnil, if_pos (List.reverse_eq_nil_iff.2 hnil), List.reverse_nil]
  · rw [if_neg hnil, if_neg (List.reverse_ne_nil_iff.2 hnil), List.reverse_reverse]
    rfl

/-- **Lines joined by line feeds are found again**, except that they may lose carriage returns at
the end. -/
theorem forall₂_lines {α : Type} {R : α → Text → Prop}
    (hline : ∀ {a line}, R a line → line ≠ [] ∧ '\n' ∉ line)
    (hreturn : ∀ {a line}, R a (line ++ ['\r']) → R a line) {as : List α} {ls : List Text}
    (h : List.Forall₂ R as ls) : List.Forall₂ R as (lines (['\n'].intercalate ls)) := by
  induction h with
  | nil => exact .nil
  | @cons a line as ls hfirst hrest ih =>
    obtain ⟨hne, hfeed⟩ := hline hfirst
    cases ls with
    | nil =>
      rw [List.intercalate_singleton, lines_of_not_mem hfeed, if_neg hne]
      exact .cons hfirst hrest
    | cons next ls =>
      rw [List.intercalate_cons_cons, List.append_assoc, List.singleton_append,
        lines_append_lineFeed hfeed]
      refine .cons ?_ ih
      rcases finishLine_cases line with hsame | hend
      · rwa [hsame]
      · exact hreturn (hend ▸ hfirst)

end EightBit
