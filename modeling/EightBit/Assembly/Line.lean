import EightBit.Assembly.Punctuation
import EightBit.Text.Blank
import EightBit.Text.Numeral

/-!
# Lines and tokens

Source text is a sequence of lines. Each holds at most one instruction, as a
sequence of tokens that blanks and commas keep apart, and may end in a comment.

Quotes keep a character from being taken for a separator or for the beginning of
a comment. Both scanners, `EightBit.code` and `EightBit.tokens`, keep count of
them in the same way: a character is quoted if the number of quotes before it in
the line is odd.
-/

namespace EightBit

/-! ### Lines -/

/-- The line spelt backwards by the characters read since the last line feed. A
carriage return right before the line feed does not belong to it. -/
def finishLine : (current : Text) → Text
  | '\r' :: current => current.reverse
  | current => current.reverse

/-- The lines of a text, after the lines already `done` (the latest first) and the
characters of the `current` line already read (the latest first). -/
def linesFrom (done : List Text) (current : Text) : Text → List Text
  | [] => (if current = [] then done else current.reverse :: done).reverse
  | '\n' :: rest => linesFrom (finishLine current :: done) [] rest
  | c :: rest => linesFrom done (c :: current) rest

/-- **The lines of a text.** A line feed ends a line; what follows the last one is
a line only if it is not empty. -/
def lines (source : Text) : List Text :=
  linesFrom [] [] source

/-- The lines already done come first. -/
theorem linesFrom_done (done : List Text) (current text : Text) :
    linesFrom done current text = done.reverse ++ linesFrom [] current text := by
  induction text generalizing done current with
  | nil =>
    by_cases h : current = []
    · simp [linesFrom, h]
    · simp [linesFrom, h]
  | cons c rest ih =>
    by_cases h : c = '\n'
    · subst h
      rw [linesFrom, linesFrom, ih, ih [finishLine current]]
      simp
    · rw [linesFrom, linesFrom, ih]
      · exact h
      · exact h

/-- A line feed starts afresh: the lines before it and those after it have nothing
to do with one another. -/
theorem linesFrom_append (current before after : Text) :
    linesFrom [] current (before ++ '\n' :: after) =
      linesFrom [] current (before ++ ['\n']) ++ lines after := by
  induction before generalizing current with
  | nil =>
    rw [List.nil_append, List.nil_append, linesFrom, linesFrom, linesFrom_done,
      linesFrom_done [finishLine current] [] []]
    simp [lines, linesFrom]
  | cons c rest ih =>
    by_cases h : c = '\n'
    · subst h
      rw [List.cons_append, List.cons_append, linesFrom, linesFrom, linesFrom_done,
        linesFrom_done [finishLine current], ih, List.append_assoc]
    · rw [List.cons_append, List.cons_append, linesFrom, linesFrom, ih]
      · exact h
      · exact h

/-- **The lines of two texts, the first of which ends in a line feed,** are the
lines of the first and then those of the second. -/
theorem lines_append (before after : Text) :
    lines (before ++ '\n' :: after) = lines (before ++ ['\n']) ++ lines after :=
  linesFrom_append [] before after

/-! ### Comments -/

/-- The part of a line before its comment, from a point where a quote is open or
not. A quote is never taken for the beginning of a comment. -/
def codeFrom (comment : Char) : (quoted : Bool) → Text → Text
  | _, [] => []
  | quoted, c :: rest =>
    if c = quoteMark then c :: codeFrom comment (!quoted) rest
    else if c = comment ∧ quoted = false then []
    else c :: codeFrom comment quoted rest

/-- **The part of a line before its comment.** -/
def code (comment : Char) (line : Text) : Text :=
  codeFrom comment false line

/-! ### Tokens -/

/-- Whether a character keeps tokens apart. -/
def isSeparator (c : Char) : Bool :=
  isBlank c || c == ','

/-- The tokens that follow, after the one spelt backwards by `current`, if there
is one. -/
def finishToken : (current : Text) → List Text → List Text
  | [], rest => rest
  | current, rest => current.reverse :: rest

/-- The tokens of a text, from a point where a quote is open or not and the
characters of the `current` token (the latest first) have been read. -/
def tokensFrom : (quoted : Bool) → (current : Text) → Text → List Text
  | _, current, [] => finishToken current []
  | quoted, current, c :: rest =>
    if isSeparator c ∧ quoted = false then finishToken current (tokensFrom quoted [] rest)
    else tokensFrom (quoted != (c == quoteMark)) (c :: current) rest

/-- **The tokens of a text**: what unquoted blanks and commas leave standing. -/
def tokens (text : Text) : List Text :=
  tokensFrom false [] text

end EightBit
