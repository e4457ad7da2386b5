import EightBit.Proofs.Source.Comments

/-!
# The pieces of a line

What the two scanners make of a line can be said without them, by what stands where. A character
is quoted or not by the number of quotes before it (`EightBit.Unquoted`). The code of a line is
then its longest prefix in which no mark of a comment is unquoted, and its tokens are what is left
of the code between runs of unquoted separators. `EightBit.Division` is the relation between a
text and these pieces of it: every character of the text is in one of them, the gaps are made of
unquoted separators and the tokens hold none, no token is empty, and neither is a gap that has a
token on either side. `EightBit.code_and_tokens_divide` says that the scanners give these pieces,
and that there are no others.

That nothing else is possible is the same argument for comments, gaps and tokens. A run through
which a property holds is as long as it can be if the property fails right behind it, and of two
such runs from the same place neither can be longer than the other
(`EightBit.Throughout.prefix_of_prefix`).
-/

namespace EightBit

/-- **An unquoted character** of a kind: the number of quotes before it is even. -/
def Unquoted (kind : Char → Prop) (before : Text) (c : Char) : Prop :=
  kind c ∧ ¬LeavesQuoteOpen before

/-- A character that keeps tokens apart after what stands before it. -/
abbrev Separates : Text → Char → Prop :=
  Unquoted fun c => isSeparator c = true

/-! ### Runs through which a property holds -/

section Runs

variable {P Q : Text → Char → Prop} {before text u v u' v' : Text} {c : Char}

/-- **Throughout a text** each character has a property, after those before it. -/
def Throughout (P : Text → Char → Prop) (before text : Text) : Prop :=
  ∀ front c back, text = front ++ c :: back → P (before ++ front) c

/-- The first character of a text has a property, if there is one. -/
def AtStart (P : Text → Char → Prop) (before text : Text) : Prop :=
  ∀ c back, text = c :: back → P before c

theorem throughout_nil : Throughout P before [] := fun front _ _ h =>
  absurd h.symm (List.append_ne_nil_of_right_ne_nil front (List.cons_ne_nil _ _))

theorem throughout_cons :
    Throughout P before (c :: text) ↔ P before c ∧ Throughout P (before ++ [c]) text := by
  constructor
  · refine fun h => ⟨by simpa using h [] c text rfl, fun front d back htext => ?_⟩
    have hd := h (c :: front) d back (by rw [htext, List.cons_append])
    rwa [List.append_cons] at hd
  · rintro ⟨hc, htext⟩ front d back h
    cases front with
    | nil =>
      obtain ⟨rfl, -⟩ := List.cons.inj h
      rwa [List.append_nil]
    | cons e front =>
      obtain ⟨rfl, hrest⟩ := List.cons.inj h
      rw [List.append_cons]
      exact htext front d back hrest

theorem throughout_append :
    Throughout P before (u ++ v) ↔ Throughout P before u ∧ Throughout P (before ++ u) v := by
  induction u generalizing before with
  | nil => simp [throughout_nil]
  | cons c u ih =>
    rw [List.cons_append, throughout_cons, ih, throughout_cons, List.append_cons before c u,
      and_assoc]

theorem Throughout.atStart (h : Throughout P before text) : AtStart P before text := by
  rintro c back rfl
  exact (throughout_cons.1 h).1

/-- A text starts as any part of it does that is not empty. -/
theorem AtStart.append (hne : u ≠ []) (h : AtStart P before u) (v : Text) :
    AtStart P before (u ++ v) := by
  obtain ⟨d, u, rfl⟩ := List.exists_cons_of_ne_nil hne
  rintro c back htext
  obtain ⟨rfl, -⟩ := List.cons.inj htext
  exact h d u rfl

/-- **A run is as long as it can be** if the property fails right behind it. -/
theorem Throughout.prefix_of_prefix (hPQ : ∀ before c, P before c → ¬Q before c)
    (hv : AtStart Q (before ++ u) v) {front : Text} (hfront : Throughout P before front)
    (h : front <+: u ++ v) : front <+: u := by
  obtain ⟨back, h⟩ := h
  obtain ⟨more, rfl, -⟩ | ⟨more, rfl, rfl⟩ := List.append_eq_append_iff.1 h
  · exact List.prefix_append front more
  · cases more with
    | nil => exact (List.append_nil u).symm ▸ List.prefix_rfl
    | cons c more =>
      have hp : P (before ++ u) c := hfront u c more rfl
      exact absurd (hv c _ rfl) (hPQ _ _ hp)

/-- **Two runs that end where the property fails** are the same. -/
theorem Throughout.append_inj (hPQ : ∀ before c, P before c → ¬Q before c)
    (hu : Throughout P before u) (hv : AtStart Q (before ++ u) v)
    (hu' : Throughout P before u') (hv' : AtStart Q (before ++ u') v')
    (h : u ++ v = u' ++ v') : u = u' ∧ v = v' := by
  have hle := hu.prefix_of_prefix hPQ hv' (h ▸ List.prefix_append u v)
  have hge := hu'.prefix_of_prefix hPQ hv (h ▸ List.prefix_append u' v')
  obtain rfl := hle.eq_of_length_le hge.length_le
  exact ⟨rfl, List.append_cancel_left h⟩

end Runs

/-! ### What the scanners keep in mind -/

/-- **A quote toggles the state** of a scanner, and nothing else does. -/
theorem leavesQuoteOpen_concat (before : Text) (c : Char) :
    decide (LeavesQuoteOpen (before ++ [c])) =
      (decide (LeavesQuoteOpen before) != (c == quoteMark)) := by
  by_cases hc : c = quoteMark
  · have hmore : LeavesQuoteOpen (before ++ [c]) ↔ ¬LeavesQuoteOpen before := by
      rw [LeavesQuoteOpen, List.count_append, hc, List.count_singleton_self, Nat.odd_add_one]
      rfl
    rw [decide_eq_decide.2 hmore, decide_not, beq_iff_eq.2 hc, Bool.bne_true]
  · have hsame : LeavesQuoteOpen (before ++ [c]) ↔ LeavesQuoteOpen before := by
      rw [LeavesQuoteOpen, List.count_append, List.count_cons_of_ne hc]
      rfl
    rw [decide_eq_decide.2 hsame, beq_false_of_ne hc, Bool.bne_false]

section Scanners

variable {before text : Text} {c : Char}

/-- What is not an unquoted mark of a comment belongs to the code. -/
theorem codeFrom_cons_of_not {comment : Char} (h : ¬Unquoted (· = comment) before c)
    (line : Text) :
    codeFrom comment (decide (LeavesQuoteOpen before)) (c :: line) =
      c :: codeFrom comment (decide (LeavesQuoteOpen (before ++ [c]))) line := by
  rw [leavesQuoteOpen_concat, codeFrom]
  by_cases hquote : c = quoteMark
  · rw [if_pos hquote, beq_iff_eq.2 hquote, Bool.bne_true]
  · rw [if_neg hquote, if_neg fun hmark => h ⟨hmark.1, of_decide_eq_false hmark.2⟩,
      beq_false_of_ne hquote, Bool.bne_false]

/-- An unquoted separator finishes the current token. -/
theorem tokensFrom_cons_of_separates (h : Separates before c) (current text : Text) :
    tokensFrom (decide (LeavesQuoteOpen before)) current (c :: text) =
      finishToken current (tokensFrom (decide (LeavesQuoteOpen (before ++ [c]))) [] text) := by
  have hquote : c ≠ quoteMark := by
    rintro rfl
    exact Bool.noConfusion (isSeparator_quoteMark.symm.trans h.1)
  have hclosed : decide (LeavesQuoteOpen before) = false := decide_eq_false h.2
  rw [leavesQuoteOpen_concat, tokensFrom, if_pos ⟨h.1, hclosed⟩, hclosed, beq_false_of_ne hquote,
    Bool.bne_false]

/-- Every other character goes into the current token. -/
theorem tokensFrom_cons_of_not_separates (h : ¬Separates before c) (current text : Text) :
    tokensFrom (decide (LeavesQuoteOpen before)) current (c :: text) =
      tokensFrom (decide (LeavesQuoteOpen (before ++ [c]))) (c :: current) text := by
  rw [leavesQuoteOpen_concat, tokensFrom,
    if_neg fun hseparates => h ⟨hseparates.1, of_decide_eq_false hseparates.2⟩]

/-- Separators that are not quoted are passed over. -/
theorem tokensFrom_gap {gap : Text} (hgap : Throughout Separates before gap) (rest : Text) :
    tokensFrom (decide (LeavesQuoteOpen before)) [] (gap ++ rest) =
      tokensFrom (decide (LeavesQuoteOpen (before ++ gap))) [] rest := by
  induction gap generalizing before with
  | nil => rw [List.append_nil, List.nil_append]
  | cons c gap ih =>
    obtain ⟨hc, hgap⟩ := throughout_cons.1 hgap
    rw [List.cons_append, tokensFrom_cons_of_separates hc, ih hgap, ← List.append_cons]
    rfl

/-- What holds no separator that is not quoted goes into the current token. -/
theorem tokensFrom_token {token : Text} (htoken : Throughout (¬Separates · ·) before token)
    (current rest : Text) :
    tokensFrom (decide (LeavesQuoteOpen before)) current (token ++ rest) =
      tokensFrom (decide (LeavesQuoteOpen (before ++ token))) (token.reverse ++ current) rest := by
  induction token generalizing before current with
  | nil => rw [List.append_nil]; rfl
  | cons c token ih =>
    obtain ⟨hc, htoken⟩ := throughout_cons.1 htoken
    rw [List.cons_append, tokensFrom_cons_of_not_separates hc, ih htoken, ← List.append_cons,
      List.reverse_cons, List.append_assoc]
    rfl

/-- A token that has been begun is finished at its end or by an unquoted separator. -/
theorem tokensFrom_atStart {current : Text} (hcurrent : current ≠ [])
    (h : AtStart Separates before text) :
    tokensFrom (decide (LeavesQuoteOpen before)) current text =
      current.reverse :: tokensFrom (decide (LeavesQuoteOpen before)) [] text := by
  rw [← finishToken_of_ne_nil hcurrent]
  cases text with
  | nil => rfl
  | cons c text =>
    have hc : Separates before c := h c text rfl
    rw [tokensFrom_cons_of_separates hc, tokensFrom_cons_of_separates hc]
    rfl

end Scanners

/-! ### The code of a line -/

/-- **Where the code of a line ends**: no mark of a comment is unquoted in it, and if anything
follows, it is one. -/
theorem codeFrom_spec {comment : Char} (hcomment : comment ≠ quoteMark) (before line : Text) :
    ∃ front back, line = front ++ back ∧
      codeFrom comment (decide (LeavesQuoteOpen before)) line = front ∧
      Throughout (¬Unquoted (· = comment) · ·) before front ∧
      AtStart (Unquoted (· = comment)) (before ++ front) back := by
  induction line generalizing before with
  | nil => exact ⟨[], [], rfl, rfl, throughout_nil, nofun⟩
  | cons c line ih =>
    by_cases hmark : Unquoted (· = comment) before c
    · refine ⟨[], c :: line, rfl, ?_, throughout_nil, ?_⟩
      · obtain ⟨rfl, hclosed⟩ := hmark
        rw [codeFrom, if_neg hcomment, if_pos ⟨rfl, decide_eq_false hclosed⟩]
      · rintro d back h
        obtain ⟨rfl, -⟩ := List.cons.inj h
        rwa [List.append_nil]
    · obtain ⟨front, back, rfl, hcode, hfree, hstop⟩ := ih (before ++ [c])
      refine ⟨c :: front, back, rfl, ?_, throughout_cons.2 ⟨hmark, hfree⟩, ?_⟩
      · rw [codeFrom_cons_of_not hmark, hcode]
      · rwa [List.append_cons]

/-- A quote that is the mark of a comment is taken for a quote. -/
theorem codeFrom_quoteMark (quoted : Bool) (line : Text) :
    codeFrom quoteMark quoted line = line := by
  induction line generalizing quoted with
  | nil => rfl
  | cons c line ih =>
    rw [codeFrom]
    by_cases hquote : c = quoteMark
    · rw [if_pos hquote, ih]
    · rw [if_neg hquote, if_neg fun hmark => hquote hmark.1, ih]

/-- **The code of a line** is the longest prefix of it in which no mark of a comment is
unquoted. -/
theorem code_longest {comment : Char} (hcomment : comment ≠ quoteMark) (line : Text) :
    code comment line <+: line ∧
      Throughout (¬Unquoted (· = comment) · ·) [] (code comment line) ∧
      ∀ front, front <+: line → Throughout (¬Unquoted (· = comment) · ·) [] front →
        front <+: code comment line := by
  obtain ⟨front, back, hline, hcode, hfree, hstop⟩ := codeFrom_spec hcomment [] line
  have hfront : code comment line = front := hcode
  rw [hfront, hline]
  refine ⟨List.prefix_append front back, hfree, fun other hother hfree' => ?_⟩
  exact hfree'.prefix_of_prefix (fun _ _ => id) hstop hother

/-! ### The division of a text -/

/-- **The division of a text** into tokens, each with the gap in front of it, and the gap at the
end. Each gap is a run of unquoted separators, and no token holds one. No token is empty, and no
gap between two tokens is. -/
inductive Division : (before text : Text) → (pieces : List (Text × Text)) → (last : Text) → Prop
  /-- A gap alone. -/
  | gap {before gap : Text} : Throughout Separates before gap → Division before gap [] gap
  /-- A gap, a token, and what follows it: the last gap, or a gap that is not empty and another
  token. -/
  | token {before gap token rest last : Text} {pieces : List (Text × Text)} :
    Throughout Separates before gap → token ≠ [] →
    Throughout (¬Separates · ·) (before ++ gap) token → (∀ piece ∈ pieces.head?, piece.1 ≠ []) →
    Division (before ++ gap ++ token) rest pieces last →
      Division before (gap ++ (token ++ rest)) ((gap, token) :: pieces) last

namespace Division

variable {before text last last' : Text} {pieces pieces' : List (Text × Text)} {c : Char}

/-- What can follow a token starts with an unquoted separator. -/
theorem atStart (h : Division before text pieces last)
    (hnext : ∀ piece ∈ pieces.head?, piece.1 ≠ []) : AtStart Separates before text := by
  cases h with
  | gap hgap => exact hgap.atStart
  | token hgap => exact hgap.atStart.append (hnext _ rfl) _

/-- A separator in front of a text makes its first gap longer. -/
theorem cons_of_separates (hc : Separates before c)
    (h : Division (before ++ [c]) text pieces last) :
    ∃ pieces' last', Division before (c :: text) pieces' last' := by
  cases h with
  | gap hgap => exact ⟨[], _, .gap (throughout_cons.2 ⟨hc, hgap⟩)⟩
  | @token _ gap token _ _ pieces hgap hne hfree hnext hrest =>
    rw [← List.append_cons] at hfree hrest
    exact ⟨(c :: gap, token) :: pieces, last,
      .token (throughout_cons.2 ⟨hc, hgap⟩) hne hfree hnext hrest⟩

/-- Any other character in front of a text makes its first token longer, if there is no gap
before that, and else is a token of its own. -/
theorem cons_of_not_separates (hc : ¬Separates before c)
    (h : Division (before ++ [c]) text pieces last) :
    ∃ pieces' last', Division before (c :: text) pieces' last' := by
  have hsingle : Throughout (¬Separates · ·) (before ++ []) [c] := by
    rw [List.append_nil]
    exact throughout_cons.2 ⟨hc, throughout_nil⟩
  by_cases hnext : ∀ piece ∈ pieces.head?, piece.1 ≠ []
  · exact ⟨([], [c]) :: pieces, last,
      .token throughout_nil (List.cons_ne_nil c []) hsingle hnext (by rwa [List.append_nil])⟩
  · cases h with
    | gap => exact absurd nofun hnext
    | @token _ gap token rest _ pieces _ _ hfree hnext' hrest =>
      obtain rfl : gap = [] := by simpa using hnext
      rw [List.append_nil] at hfree hrest
      refine ⟨([], c :: token) :: pieces, last,
        .token throughout_nil (List.cons_ne_nil c token) ?_ hnext' ?_⟩
      · rw [List.append_nil]
        exact throughout_cons.2 ⟨hc, hfree⟩
      · rwa [List.append_nil, List.append_cons]

/-- **Every text has a division.** -/
theorem exists_division (before text : Text) : ∃ pieces last, Division before text pieces last := by
  induction text generalizing before with
  | nil => exact ⟨[], [], .gap throughout_nil⟩
  | cons c text ih =>
    obtain ⟨pieces, last, h⟩ := ih (before ++ [c])
    by_cases hc : Separates before c
    · exact h.cons_of_separates hc
    · exact h.cons_of_not_separates hc

/-- **The tokens of a text are those of its division.** -/
theorem tokensFrom_eq (h : Division before text pieces last) :
    tokensFrom (decide (LeavesQuoteOpen before)) [] text = pieces.map Prod.snd := by
  induction h with
  | gap hgap => simpa [tokensFrom, finishToken] using tokensFrom_gap hgap []
  | @token before gap token rest last pieces hgap hne hfree hnext hrest ih =>
    have hcurrent : token.reverse ++ [] ≠ [] := by simpa using hne
    rw [tokensFrom_gap hgap, tokensFrom_token hfree,
      tokensFrom_atStart hcurrent (hrest.atStart hnext), ih]
    simp

/-- A gap has no pieces. -/
theorem eq_of_throughout (h : Division before text pieces last)
    (hgap : Throughout Separates before text) : pieces = [] ∧ last = text := by
  cases h with
  | gap => exact ⟨rfl, rfl⟩
  | @token _ gap token _ _ _ _ hne hfree =>
    obtain ⟨c, token, rfl⟩ := List.exists_cons_of_ne_nil hne
    have hseparates := (throughout_append.1 (throughout_append.1 hgap).2).1
    exact absurd (throughout_cons.1 hseparates).1 (throughout_cons.1 hfree).1

/-- **The division of a text is unique**: its first gap is as long as it can be, then its first
token is, and so on. -/
theorem unique (h : Division before text pieces last) (h' : Division before text pieces' last') :
    pieces' = pieces ∧ last' = last := by
  induction h generalizing pieces' last' with
  | gap hgap => exact h'.eq_of_throughout hgap
  | @token before gap token rest last pieces hgap hne hfree hnext hrest ih =>
    have hwhole := Division.token hgap hne hfree hnext hrest
    generalize htext : gap ++ (token ++ rest) = text at h'
    cases h' with
    | gap hgap' => exact absurd (hwhole.eq_of_throughout (htext ▸ hgap')).1 (List.cons_ne_nil _ _)
    | @token _ gap' token' rest' _ pieces' hgap' hne' hfree' hnext' hrest' =>
      obtain ⟨rfl, htail⟩ := hgap.append_inj (fun _ _ hc hnot => hnot hc)
        (hfree.atStart.append hne rest) hgap' (hfree'.atStart.append hne' rest') htext
      obtain ⟨rfl, rfl⟩ := hfree.append_inj (fun _ _ => id) (hrest.atStart hnext) hfree'
        (hrest'.atStart hnext') htail
      obtain ⟨rfl, rfl⟩ := ih hrest'
      exact ⟨rfl, rfl⟩

end Division

/-- **What the scanners find on a line.** Its code is the longest prefix of it in which no mark of
a comment is unquoted, or all of it if that mark is a quote. The tokens of its code are those of
the only division that it has. -/
theorem code_and_tokens_divide (comment : Char) (line : Text) :
    (comment = quoteMark → code comment line = line) ∧
      (comment ≠ quoteMark →
        code comment line <+: line ∧
          Throughout (¬Unquoted (· = comment) · ·) [] (code comment line) ∧
          ∀ front, front <+: line → Throughout (¬Unquoted (· = comment) · ·) [] front →
            front <+: code comment line) ∧
      ∃ pieces last, Division [] (code comment line) pieces last ∧
        tokens (code comment line) = pieces.map Prod.snd ∧
        ∀ pieces' last', Division [] (code comment line) pieces' last' →
          pieces' = pieces ∧ last' = last := by
  obtain ⟨pieces, last, h⟩ := Division.exists_division [] (code comment line)
  refine ⟨?_, fun hcomment => code_longest hcomment line, pieces, last, h, h.tokensFrom_eq,
    fun _ _ h' => h.unique h'⟩
  rintro rfl
  exact codeFrom_quoteMark false line

/-- Behind a quote that is never closed there is neither a comment nor a gap, and a quote is one
even where it is the mark of a comment. -/
theorem code_and_tokens_divide_open_quote :
    ';' ≠ quoteMark ∧ code ';' " LDA '; x".toList <+: " LDA '; x".toList ∧
      (∃ pieces last, Division [] " LDA '; x".toList pieces last ∧
        pieces.map Prod.snd = ["LDA".toList, "'; x".toList]) ∧
      code quoteMark "LDA '; x".toList = "LDA '; x".toList := by
  have hmark : ';' ≠ quoteMark := by decide
  have hcode : code ';' " LDA '; x".toList = " LDA '; x".toList := by decide
  obtain ⟨-, hlongest, pieces, last, h, htokens, -⟩ :=
    code_and_tokens_divide ';' " LDA '; x".toList
  rw [hcode] at h htokens
  exact ⟨hmark, (hlongest hmark).1, ⟨pieces, last, h, htokens.symm.trans (by decide)⟩,
    (code_and_tokens_divide quoteMark _).1 rfl⟩

end EightBit
