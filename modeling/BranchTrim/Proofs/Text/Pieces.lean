import BranchTrim.Proofs.Text.Scanned

/-!
Pieces of text. What the first character of a token or a comment is decides with which characters it
goes on, so a text falls into pieces, each as long as it can be: tokens, comments without the end of
their line, and blank characters one by one. The scanner reads each piece on its own; of the pieces
before it needs to know only how many ends of lines there are among them.
-/

set_option autoImplicit false

namespace BranchTrim

namespace Lexeme

/-- Whether a character belongs to the piece before it, which starts with the given character. -/
def goesOn (first c : Char) : Bool :=
  if first = '#' then c != '\n'
  else if first = '%' || first = '@' || isNameStart first then isNameChar c
  else if first = '-' || first.isDigit then c.isDigit
  else false

def pieces (cs : List Char) : List (List Char) :=
  match cs with
  | [] => []
  | c :: cs => (c :: cs.takeWhile (goesOn c)) :: pieces (cs.dropWhile (goesOn c))
termination_by cs.length
decreasing_by exact Nat.lt_succ_of_le (List.IsSuffix.length_le (List.dropWhile_suffix _))

/-- The token that a piece is; comments and blank characters are none. -/
def readPiece : List Char → Except ParseCause (Option Token)
  | [] => .ok none
  | c :: cs =>
    match Token.ofPunctuation? c with
    | some t => .ok (some t)
    | none =>
      if c = '#' || Text.isBlank c then .ok none
      else if c = '%' then .ok (some (.value (String.ofList cs)))
      else if c = '@' then .ok (some (.global (String.ofList cs)))
      else if c = '-' || c.isDigit then
        match Text.readWord? (c :: cs) with
        | some word => .ok (some (.int word))
        | none => .error (.invalidInt (String.ofList (c :: cs)))
      else if isNameStart c then .ok (some (.ident (String.ofList (c :: cs))))
      else .error (.unexpectedChar c)

/-- Reads pieces one after the other, the first of which starts on the given line. -/
def scanPieces (line : Nat) : List (List Char) → Except ParseError (List Lexeme)
  | [] => .ok []
  | piece :: rest =>
    match readPiece piece with
    | .error cause => .error (.onLine line cause)
    | .ok found => do
      let later ← scanPieces (line + piece.count '\n') rest
      return (found.map (⟨·, line⟩)).toList ++ later

section Cutting

variable {c d : Char} {cs body rest : List Char}

@[simp]
theorem pieces_nil : pieces [] = [] := by
  rw [pieces]

theorem pieces_cons (c : Char) (cs : List Char) :
    pieces (c :: cs) = (c :: cs.takeWhile (goesOn c)) :: pieces (cs.dropWhile (goesOn c)) := by
  rw [pieces]

@[simp]
theorem flatten_pieces (cs : List Char) : (pieces cs).flatten = cs := by
  fun_induction pieces cs with
  | case1 => rfl
  | case2 c cs ih => rw [List.flatten_cons, ih, List.cons_append, List.takeWhile_append_dropWhile]

private theorem goesOn_newline (first : Char) : goesOn first '\n' = false := by
  unfold goesOn
  split
  · decide
  split
  · decide
  split
  · decide
  · rfl

theorem count_newline_piece (c : Char) (cs : List Char) :
    (c :: cs.takeWhile (goesOn c)).count '\n' = if c = '\n' then 1 else 0 := by
  have inner : (cs.takeWhile (goesOn c)).count '\n' = 0 := by
    refine List.count_eq_zero.mpr fun mem => ?_
    have goes := List.all_eq_true.mp List.all_takeWhile _ mem
    rw [goesOn_newline] at goes
    cases goes
  rw [List.count_cons, inner]
  simp [beq_iff_eq]

private theorem goesOn_of_isNameStart (start : isNameStart c = true) : goesOn c = isNameChar := by
  have plain := (plain_of_start (Or.inr (Or.inr start))).1
  simp only [List.mem_cons, not_or] at plain
  funext d
  simp [goesOn, plain, start]

private theorem goesOn_of_number (first : c = '-' ∨ c.isDigit = true) :
    goesOn c = Char.isDigit := by
  have plain := (plain_of_start (first.imp_right Or.inl)).1
  simp only [List.mem_cons, not_or] at plain
  have no_word : isNameStart c = false := by
    rw [← Bool.not_eq_true]
    intro start
    have bounds := bounds_of_isNameStart start
    rcases first with rfl | digit
    · exact absurd bounds.1 (by decide)
    · have := bounds_of_isDigit digit
      omega
  funext d
  simp [goesOn, plain, no_word, first]

private theorem goesOn_of_no_start (other : c ∉ ['#', '%', '@', '-'])
    (no_digit : c.isDigit = false) (no_word : isNameStart c = false) :
    goesOn c = fun _ => false := by
  simp only [List.mem_cons, List.not_mem_nil, or_false, not_or] at other
  funext d
  simp [goesOn, other, no_digit, no_word]

private theorem goesOn_of_mark {t : Token} (mark : Token.ofPunctuation? c = some t) :
    goesOn c = fun _ => false := by
  have single : Token.marks.all
      (fun c => c ∉ ['#', '%', '@', '-'] && !c.isDigit && !isNameStart c) = true := rfl
  have known := List.all_eq_true.mp single c (Token.mem_marks_of_ofPunctuation? mark)
  simp only [Bool.and_eq_true, decide_eq_true_eq, Bool.not_eq_true'] at known
  exact goesOn_of_no_start known.1.1 known.1.2 known.2

theorem goesOn_of_blank (blank : Text.isBlank c = true) : goesOn c = fun _ => false := by
  have visible : ['#', '%', '@', '-'].all (fun c => !Text.isBlank c) = true := rfl
  refine goesOn_of_no_start ?_ ?_ ?_
  · intro mem
    have solid := List.all_eq_true.mp visible c mem
    simp [blank] at solid
  · rw [← Bool.not_eq_true]
    intro digit
    simp [(plain_of_start (Or.inr (Or.inl digit))).2] at blank
  · rw [← Bool.not_eq_true]
    intro start
    simp [(plain_of_start (Or.inr (Or.inr start))).2] at blank

theorem goesOn_head?_dropWhile (first : Char) (cs : List Char) :
    ∀ d ∈ (cs.dropWhile (goesOn first)).head?, goesOn first d = false := by
  intro d mem
  have stops := List.head?_dropWhile_not (goesOn first) cs
  rwa [Option.mem_def.mp mem] at stops

/-- What a first piece is: it goes on as long as it can. -/
theorem exists_of_pieces_eq_cons {piece : List Char} {ps : List (List Char)}
    (cut : pieces cs = piece :: ps) :
    ∃ c body rest, piece = c :: body ∧ cs = c :: (body ++ rest) ∧ pieces rest = ps ∧
      (∀ d ∈ body, goesOn c d = true) ∧ ∀ d ∈ rest.head?, goesOn c d = false := by
  cases cs with
  | nil =>
    rw [pieces_nil] at cut
    cases cut
  | cons c cs =>
    rw [pieces_cons] at cut
    cases cut
    exact ⟨c, cs.takeWhile (goesOn c), cs.dropWhile (goesOn c), rfl,
      by rw [List.takeWhile_append_dropWhile], rfl,
      List.all_eq_true.mp List.all_takeWhile, goesOn_head?_dropWhile c cs⟩

end Cutting

theorem scanPieces_step (line : Nat) (c : Char) (cs : List Char) :
    scanPieces line (pieces (c :: cs)) =
      match readPiece (c :: cs.takeWhile (goesOn c)) with
      | .error cause => .error (.onLine line cause)
      | .ok found => do
        let later ← scanPieces (line + if c = '\n' then 1 else 0)
            (pieces (cs.dropWhile (goesOn c)))
        return (found.map (⟨·, line⟩)).toList ++ later := by
  rw [pieces_cons, scanPieces, count_newline_piece]

private theorem scanPieces_single (line : Nat) {c : Char} (single : goesOn c = fun _ => false)
    (cs : List Char) :
    scanPieces line (pieces (c :: cs)) =
      match readPiece [c] with
      | .error cause => .error (.onLine line cause)
      | .ok found => do
        let later ← scanPieces (line + if c = '\n' then 1 else 0) (pieces cs)
        return (found.map (⟨·, line⟩)).toList ++ later := by
  rw [scanPieces_step, single]
  cases cs <;> rfl

/-- The scanner reads the pieces of a text one after the other. -/
theorem scan_eq_scanPieces (line : Nat) (cs : List Char) :
    scan line cs = scanPieces line (pieces cs) := by
  fun_induction scan line cs with
  | case1 line =>
    rw [pieces_nil]
    rfl
  | case2 line c cs t mark ih =>
    have no_newline : c ≠ '\n' := by
      rintro rfl
      cases mark
    rw [ih, scanPieces_single line (goesOn_of_mark mark)]
    simp [readPiece, mark, no_newline]
  | case3 line cs mark ih =>
    have comment : goesOn '#' = (· != '\n') := rfl
    rw [ih, scanPieces_step, comment]
    simp [readPiece, mark]
  | case4 line cs name mark _ ih =>
    have named : goesOn '%' = isNameChar := rfl
    rw [ih, scanPieces_step, named]
    simp [readPiece, mark, name, (by decide : Text.isBlank '%' = false)]
  | case5 line cs name mark _ _ ih =>
    have named : goesOn '@' = isNameChar := rfl
    rw [ih, scanPieces_step, named]
    simp [readPiece, mark, name, (by decide : Text.isBlank '@' = false)]
  | case6 line cs mark _ _ _ ih =>
    have blank : Text.isBlank '\n' = true := by decide
    rw [ih, scanPieces_single line (goesOn_of_blank blank)]
    simp [readPiece, mark, blank]
  | case7 line c cs mark _ _ _ no_newline blank ih =>
    rw [ih, scanPieces_single line (goesOn_of_blank blank)]
    simp [readPiece, mark, blank, no_newline]
  | case8 line c cs mark comment value global no_newline solid first text word read ih =>
    have number : goesOn c = Char.isDigit := goesOn_of_number (by simpa using first)
    rw [ih, scanPieces_step, number]
    simp [readPiece, mark, comment, value, global, no_newline, solid, first, read, text]
  | case9 line c cs mark comment value global no_newline solid first text read =>
    have number : goesOn c = Char.isDigit := goesOn_of_number (by simpa using first)
    rw [scanPieces_step, number]
    simp [readPiece, mark, comment, value, global, solid, first, read, text]
  | case10 line c cs mark comment value global no_newline solid no_number start word ih =>
    rw [ih, scanPieces_step, goesOn_of_isNameStart start]
    simp [readPiece, mark, comment, value, global, no_newline, solid, no_number, start, word]
  | case11 line c cs mark comment value global no_newline solid no_number no_word =>
    have single : goesOn c = fun _ => false := by
      refine goesOn_of_no_start ?_ ?_ (by simpa using no_word) <;> simp_all
    rw [scanPieces_single line single]
    simp [readPiece, mark, comment, value, global, solid, no_number, no_word]

end Lexeme

end BranchTrim
