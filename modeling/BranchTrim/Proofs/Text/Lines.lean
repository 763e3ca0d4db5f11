import BranchTrim.Proofs.Text.Pieces
import BranchTrim.Proofs.Text.Relined

/-!
Lines. Every piece of a text has its place, and the line of a place is one more than the number of
ends of lines in the text before it. The scanner gives each token the line of its place, also after
comments, and refuses a text on the line of the first piece that cannot be read. What is refused
after that is refused on the line of some token.
-/

set_option autoImplicit false

namespace BranchTrim

namespace Lexeme

/-- A piece in its place: the text before it, its first character and those that it goes on with,
and the text after it. Put together they are the whole text. -/
structure Place (text : List Char) where
  before : List Char
  first : Char
  body : List Char
  after : List Char
  whole : before ++ first :: (body ++ after) = text

namespace Place

variable {text : List Char}

def piece (place : Place text) : List Char :=
  place.first :: place.body

def line (place : Place text) : Nat :=
  1 + place.before.count '\n'

def lexeme? (place : Place text) : Option Lexeme :=
  match readPiece place.piece with
  | .ok found => found.map (⟨·, place.line⟩)
  | .error _ => none

def refusal? (place : Place text) : Option ParseError :=
  match readPiece place.piece with
  | .ok _ => none
  | .error cause => some (.onLine place.line cause)

private theorem lexeme?_eq_some_iff {place : Place text} {t : Lexeme} :
    place.lexeme? = some t ↔ readPiece place.piece = .ok (some t.token) ∧
      t.line = 1 + place.before.count '\n' := by
  obtain ⟨token, line⟩ := t
  unfold lexeme?
  cases readPiece place.piece with
  | error cause => simp
  | ok found => cases found <;> simp [Place.line, eq_comm]

private theorem refusal?_eq_some_iff {place : Place text} {e : ParseError} :
    place.refusal? = some e ↔
      readPiece place.piece = .error e.cause ∧ e.line? = some (1 + place.before.count '\n') := by
  obtain ⟨line?, cause⟩ := e
  unfold refusal?
  cases readPiece place.piece with
  | error cause => simp [ParseError.onLine, Place.line, eq_comm, and_comm]
  | ok found => simp

end Place

section Places

variable {text before cs : List Char} {c : Char}

private theorem whole_of_cons (whole : before ++ c :: cs = text) :
    before ++ c :: (cs.takeWhile (goesOn c) ++ cs.dropWhile (goesOn c)) = text := by
  rw [List.takeWhile_append_dropWhile, whole]

private theorem whole_after_piece (whole : before ++ c :: cs = text) :
    (before ++ c :: cs.takeWhile (goesOn c)) ++ cs.dropWhile (goesOn c) = text := by
  rw [List.append_assoc, List.cons_append, whole_of_cons whole]

/-- The places in a text from the end of its first part on, one after the other. -/
def placesFrom (before rest : List Char) (whole : before ++ rest = text) : List (Place text) :=
  match rest, whole with
  | [], _ => []
  | c :: cs, whole =>
    ⟨before, c, cs.takeWhile (goesOn c), cs.dropWhile (goesOn c), whole_of_cons whole⟩ ::
      placesFrom (before ++ c :: cs.takeWhile (goesOn c)) (cs.dropWhile (goesOn c))
        (whole_after_piece whole)
termination_by rest.length
decreasing_by exact Nat.lt_succ_of_le (List.IsSuffix.length_le (List.dropWhile_suffix _))

def places (text : List Char) : List (Place text) :=
  placesFrom [] text (List.nil_append text)

private theorem map_piece_placesFrom (before rest : List Char) (whole : before ++ rest = text) :
    (placesFrom before rest whole).map Place.piece = pieces rest := by
  fun_induction placesFrom before rest whole with
  | case1 => rw [pieces_nil, List.map_nil]
  | case2 before c cs whole _ ih =>
    rw [pieces_cons, List.map_cons, ih]
    rfl

private theorem flatMap_piece_places (text : List Char) :
    (places text).flatMap Place.piece = text := by
  rw [List.flatMap_def, places, map_piece_placesFrom, flatten_pieces]

/-- The scanner counts the ends of lines that it has passed, so at every place it knows the line
of the place. -/
private theorem scanPieces_eq_places (before rest : List Char) (whole : before ++ rest = text) :
    scanPieces (1 + before.count '\n') (pieces rest) =
      match (placesFrom before rest whole).findSome? Place.refusal? with
      | some e => .error e
      | none => .ok ((placesFrom before rest whole).filterMap Place.lexeme?) := by
  fun_induction placesFrom before rest whole with
  | case1 =>
    rw [pieces_nil]
    rfl
  | case2 before c cs whole _ ih =>
    have line : 1 + before.count '\n' + (if c = '\n' then 1 else 0) =
        1 + (before ++ c :: cs.takeWhile (goesOn c)).count '\n' := by
      rw [List.count_append, count_newline_piece, Nat.add_assoc]
    rw [scanPieces_step, line, ih]
    cases found : readPiece (c :: cs.takeWhile (goesOn c)) with
    | error cause => simp [Place.refusal?, Place.piece, Place.line, found]
    | ok token =>
      simp only [List.findSome?_cons, List.filterMap_cons, Place.refusal?, Place.lexeme?,
        Place.piece, Place.line, found]
      generalize placesFrom (before ++ c :: cs.takeWhile (goesOn c)) _ _ = later
      cases later.findSome? Place.refusal? with
      | some e => rfl
      | none => cases token <;> rfl

private theorem ofText_eq_places (text : String) :
    ofText text =
      match (places text.toList).findSome? Place.refusal? with
      | some e => .error e
      | none => .ok ((places text.toList).filterMap Place.lexeme?) := by
  rw [ofText, scan_eq_scanPieces]
  exact scanPieces_eq_places [] text.toList (List.nil_append _)

private theorem cause_of_readPiece {body : List Char} {cause : ParseCause}
    (refused : readPiece (c :: body) = .error cause) :
    cause = .unexpectedChar c ∨ cause = .invalidInt (String.ofList (c :: body)) := by
  rw [readPiece] at refused
  split at refused
  · cases refused
  split_ifs at refused
  · split at refused
    · cases refused
    · exact Or.inr (Except.error.inj refused).symm
  · exact Or.inl (Except.error.inj refused).symm

end Places

end Lexeme

namespace Parsed

private theorem exists_line_of_ofLexemes {ts : List Lexeme} {e : ParseError} {line : Nat}
    (refused : ofLexemes ts = .error e) (on : line ∈ e.line?) : ∃ t ∈ ts, t.line = line := by
  by_contra! elsewhere
  -- With all that is on this line moved to the next one the lexemes are the same, but the
  -- error is not.
  let move : Nat → Nat := fun n => if n = line then n + 1 else n
  have still : ts.map (Lexeme.reline move) = ts := by
    refine List.map_congr_left (g := id) (fun t mem => ?_) |>.trans (List.map_id ts)
    simp [Lexeme.reline, move, elsewhere t mem]
  have moved := ofLexemes_reline (f := move) ts
  rw [still, refused] at moved
  have lines : e.line? = e.line?.map move := congrArg ParseError.line? (Except.error.inj moved)
  rw [Option.mem_def.mp on] at lines
  simp [move] at lines

/-- Line numbers are right. The places take in the whole text, and the lexemes are the tokens at the
places in order, or the text is refused at the first place that cannot be read. Either way the line
is one more than the number of ends of lines before the first character of the place, and a refusal
names this character or the literal that starts with it. The readers refuse a text only on the line
of some token of it, and never a text without tokens. -/
theorem lines_count_newlines (text : String) :
    ((Lexeme.places text.toList).flatMap Lexeme.Place.piece = text.toList ∧
      Lexeme.ofText text =
        match (Lexeme.places text.toList).findSome? Lexeme.Place.refusal? with
        | some e => .error e
        | none => .ok ((Lexeme.places text.toList).filterMap Lexeme.Place.lexeme?)) ∧
    (∀ place : Lexeme.Place text.toList,
      (∀ t, place.lexeme? = some t ↔
        Lexeme.readPiece place.piece = .ok (some t.token) ∧
        t.line = 1 + place.before.count '\n') ∧
      ∀ e, place.refusal? = some e ↔
        (e.cause = .unexpectedChar place.first ∨
          e.cause = .invalidInt (String.ofList place.piece)) ∧
        Lexeme.readPiece place.piece = .error e.cause ∧
        e.line? = some (1 + place.before.count '\n')) ∧
    ∀ lexemes, Lexeme.ofText text = .ok lexemes →
      (lexemes = [] → readAll text = .ok []) ∧
      ∀ e, readAll text = .error e →
        ∀ line ∈ e.line?, ∃ t ∈ lexemes, t.line = line := by
  refine ⟨⟨Lexeme.flatMap_piece_places _, Lexeme.ofText_eq_places text⟩, ?_, ?_⟩
  · intro place
    refine ⟨fun t => Lexeme.Place.lexeme?_eq_some_iff, fun e => ?_⟩
    rw [Lexeme.Place.refusal?_eq_some_iff]
    exact ⟨fun refused => ⟨Lexeme.cause_of_readPiece refused.1, refused⟩, And.right⟩
  · intro lexemes scanned
    have read : readAll text = ofLexemes lexemes := by
      rw [readAll, scanned]
      rfl
    rw [read]
    refine ⟨?_, fun e refused line on => exists_line_of_ofLexemes refused on⟩
    rintro rfl
    rw [ofLexemes]

/-- A range without values, written over two lines after a comment. -/
def emptyRange : String :=
  "func @f(%a) \x7b # all of it\n range %a [-3,\n -5]\ne: ret %a\x7d"

/-- The bound on the third line makes the range empty, which is refused on the second, where the
note starts; and a lone sign is refused on its own line, after a comment and a number. -/
theorem lines_count_newlines_emptyRange :
    (readAll emptyRange).map List.length = .error (.onLine 2 (.invalidRange (-3) (-5))) ∧
    (∃ lexemes, Lexeme.ofText emptyRange = .ok lexemes ∧ ⟨.int (-5), 3⟩ ∈ lexemes ∧
      ∃ t ∈ lexemes, t.line = 2) ∧
    Lexeme.ofText "a#b\n-7\n -" = .error (.onLine 3 (.invalidInt "-")) ∧
    ∃ place : Lexeme.Place "a#b\n-7\n -".toList, place.before = "a#b\n-7\n ".toList ∧
      place.refusal? = some (.onLine 3 (.invalidInt "-")) := by
  have refused : (readAll emptyRange).map List.length =
      .error (.onLine 2 (.invalidRange (-3) (-5))) := by
    decide +kernel
  have evaluated : (Lexeme.ofText emptyRange).toOption.any (⟨.int (-5), 3⟩ ∈ ·) = true := by
    decide +kernel
  refine ⟨refused, ?_, by decide +kernel, ?_⟩
  · cases scanned : Lexeme.ofText emptyRange with
    | error e => simp [scanned, Except.toOption] at evaluated
    | ok lexemes =>
      cases read : readAll emptyRange with
      | ok functions => simp [read, Except.map] at refused
      | error e =>
        rw [read] at refused
        cases refused
        obtain ⟨-, -, parsing⟩ := lines_count_newlines emptyRange
        exact ⟨lexemes, rfl, by simpa [scanned, Except.toOption] using evaluated,
          (parsing lexemes scanned).2 _ read 2 rfl⟩
  · let place : Lexeme.Place "a#b\n-7\n -".toList :=
      ⟨"a#b\n-7\n ".toList, '-', [], [], by decide +kernel⟩
    obtain ⟨-, placed, -⟩ := lines_count_newlines "a#b\n-7\n -"
    exact ⟨place, rfl, ((placed place).2 _).mpr ⟨Or.inr (by decide +kernel), by decide +kernel,
      by decide +kernel⟩⟩

end Parsed

end BranchTrim
