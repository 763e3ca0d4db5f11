import BranchTrim.Proofs.Text.Pieces
import BranchTrim.Proofs.Text.Relined
import Mathlib.Data.List.Infix
import Mathlib.Data.List.TakeWhile

/-!
Formatting. Blank characters and whole comments can be put between any two pieces of a text, also
between tokens that nothing divides and at the end of a comment: the tokens stay the same. And texts
with the same tokens are read alike, as the same functions with the same range annotations, or
refused for the same cause, if on different lines.
-/

set_option autoImplicit false

namespace BranchTrim

namespace Lexeme

/-- Text without meaning: blank characters and comments, each with the end of its line. -/
inductive Filler : List Char → Prop where
  | nil : Filler []
  | blank {c : Char} {cs : List Char} (blank : Text.isBlank c = true) (rest : Filler cs) :
    Filler (c :: cs)
  | comment {body cs : List Char} (one_line : '\n' ∉ body) (rest : Filler cs) :
    Filler ('#' :: (body ++ '\n' :: cs))

/-- The position between two parts of a text is strictly inside a token or a comment. -/
def Inside (before after : List Char) : Prop :=
  ∃ ps front back qs, pieces (before ++ after) = ps ++ (front ++ back) :: qs ∧ front ≠ [] ∧
    back ≠ [] ∧
    before = ps.flatten ++ front

def readTokens : List (List Char) → Except ParseCause (List Token)
  | [] => .ok []
  | piece :: rest => do
    let found ← readPiece piece
    let later ← readTokens rest
    return found.toList ++ later

def tokensIn (cs : List Char) : Except ParseCause (List Token) :=
  readTokens (pieces cs)

section Position

variable {before after : List Char}

private theorem exists_pieces_of_not_inside (outside : ¬Inside before after) :
    ∃ ps qs, pieces (before ++ after) = ps ++ qs ∧ ps.flatten = before := by
  obtain ⟨ps, qs, cut, made, -⟩ | ⟨ps, front, c, back, qs, cut, made, -⟩ :=
    List.flatten_eq_append_iff.mp (flatten_pieces (before ++ after))
  · exact ⟨ps, qs, cut, made.symm⟩
  · cases front with
    | nil => exact ⟨ps, ([] ++ c :: back) :: qs, cut, by simpa using made.symm⟩
    | cons d front =>
      exact absurd ⟨ps, d :: front, c :: back, qs, cut, by simp, by simp, made⟩ outside

private theorem inside_iff :
    Inside before after ↔ before ∉ (pieces (before ++ after)).inits.map List.flatten := by
  constructor
  · rintro ⟨ps, front, back, qs, cut, front_ne, back_ne, made⟩ mem
    obtain ⟨whole, initial, flat⟩ := List.mem_map.mp mem
    rw [List.mem_inits, cut] at initial
    have front_pos := List.length_pos_iff.mpr front_ne
    have back_pos := List.length_pos_iff.mpr back_ne
    have size := congrArg List.length (flat.trans made)
    -- The whole pieces end before the piece around the position, or they contain it.
    have sides : whole <+: ps ∨ ps ++ [front ++ back] <+: whole := by
      have upto : ps ++ [front ++ back] <+: ps ++ (front ++ back) :: qs := ⟨qs, by simp⟩
      obtain shorter | longer := List.prefix_or_prefix_of_prefix initial upto
      · obtain rfl | within := List.prefix_concat_iff.mp shorter
        · exact Or.inr List.prefix_rfl
        · exact Or.inl within
      · exact Or.inr longer
    obtain ⟨more, rfl⟩ | ⟨more, rfl⟩ := sides <;>
    · simp only [List.flatten_append, List.flatten_cons, List.flatten_nil, List.length_append,
        List.length_nil] at size
      omega
  · intro split
    by_contra outside
    obtain ⟨ps, qs, cut, flat⟩ := exists_pieces_of_not_inside outside
    exact split (List.mem_map.mpr ⟨ps, (List.mem_inits _ _).mpr ⟨qs, cut.symm⟩, flat⟩)

instance : Decidable (Inside before after) :=
  decidable_of_iff _ inside_iff.symm

end Position

section Tokens

variable {c d : Char} {cs body filler after rest : List Char}

private theorem bounds_of_isNameChar (name : isNameChar c = true) :
    46 ≤ c.toNat ∧ c.toNat ≤ 122 := by
  simp only [isNameChar, Char.isAlphanum, Bool.or_eq_true, beq_iff_eq] at name
  obtain ((letter | digit) | rfl) | rfl := name
  · have := bounds_of_isNameStart (c := c) (by simp [isNameStart, letter])
    omega
  · have := bounds_of_isDigit digit
    omega
  · decide
  · decide

private theorem goesOn_eq_false (no_comment : c ≠ '#')
    (start : Text.isBlank d = true ∨ d = '#') : goesOn c d = false := by
  rw [← Bool.not_eq_true]
  intro goes
  have bounds : 46 ≤ d.toNat ∧ d.toNat ≤ 122 := by
    rw [goesOn, if_neg no_comment] at goes
    split at goes
    · exact bounds_of_isNameChar goes
    split at goes
    · have := bounds_of_isDigit goes
      omega
    · cases goes
  obtain blank | rfl := start
  · rw [Text.isBlank_eq_false (by omega) (by omega)] at blank
    cases blank
  · exact absurd bounds.1 (by decide)

private theorem dropWhile_of_ends (ends : ∀ d ∈ rest.head?, goesOn c d = false) :
    rest.dropWhile (goesOn c) = rest := by
  cases rest with
  | nil => rfl
  | cons d rest => exact List.dropWhile_cons_of_neg (by simp [ends d rfl])

private theorem takeWhile_of_ends (ends : ∀ d ∈ rest.head?, goesOn c d = false) :
    rest.takeWhile (goesOn c) = [] := by
  cases rest with
  | nil => rfl
  | cons d rest => exact List.takeWhile_cons_of_neg (by simp [ends d rfl])

private theorem tokensIn_piece (goes : ∀ d ∈ body, goesOn c d = true)
    (ends : ∀ d ∈ rest.head?, goesOn c d = false) :
    tokensIn (c :: (body ++ rest)) = do
      let found ← readPiece (c :: body)
      let later ← tokensIn rest
      return found.toList ++ later := by
  rw [tokensIn, pieces_cons, List.takeWhile_append_of_pos goes, List.dropWhile_append_of_pos goes,
    takeWhile_of_ends ends, dropWhile_of_ends ends, List.append_nil]
  rfl

private theorem tokensIn_skip (goes : ∀ d ∈ body, goesOn c d = true)
    (ends : ∀ d ∈ rest.head?, goesOn c d = false) (skipped : readPiece (c :: body) = .ok none) :
    tokensIn (c :: (body ++ rest)) = tokensIn rest := by
  rw [tokensIn_piece goes ends, skipped]
  cases tokensIn rest <;> rfl

private theorem tokensIn_blank (blank : Text.isBlank c = true) (cs : List Char) :
    tokensIn (c :: cs) = tokensIn cs := by
  have no_mark : Token.ofPunctuation? c = none := by
    refine Token.ofPunctuation?_eq_none fun mark => ?_
    have visible : Token.marks.all (fun c => !Text.isBlank c) = true := rfl
    have solid := List.all_eq_true.mp visible c mark
    simp [blank] at solid
  have ends : ∀ d ∈ cs.head?, goesOn c d = false := by
    intro d _
    rw [goesOn_of_blank blank]
  have skipped : readPiece [c] = .ok none := by
    simp [readPiece, no_mark, blank]
  exact tokensIn_skip (by simp) ends skipped

private theorem goesOn_comment_iff : goesOn '#' d = true ↔ d ≠ '\n' :=
  bne_iff_ne

private theorem tokensIn_comment (cs : List Char) :
    tokensIn ('#' :: cs) = tokensIn (cs.dropWhile (goesOn '#')) := by
  have goes : ∀ d ∈ cs.takeWhile (goesOn '#'), goesOn '#' d = true :=
    List.all_eq_true.mp List.all_takeWhile
  have skipped := tokensIn_skip goes (goesOn_head?_dropWhile '#' cs) rfl
  rwa [List.takeWhile_append_dropWhile] at skipped

private theorem dropWhile_comment (one_line : '\n' ∉ body) (rest : List Char) :
    (body ++ '\n' :: rest).dropWhile (goesOn '#') = '\n' :: rest := by
  have goes : ∀ d ∈ body, goesOn '#' d = true := by
    intro d mem
    refine goesOn_comment_iff.mpr ?_
    rintro rfl
    exact one_line mem
  rw [List.dropWhile_append_of_pos goes]
  rfl

namespace Filler

private theorem tokensIn_append (h : Filler filler) (cs : List Char) :
    tokensIn (filler ++ cs) = tokensIn cs := by
  induction h with
  | nil => rfl
  | blank blank _ ih => rw [List.cons_append, tokensIn_blank blank, ih]
  | comment one_line _ ih =>
    rw [List.cons_append, List.append_assoc, List.cons_append, tokensIn_comment,
      dropWhile_comment one_line, tokensIn_blank (by decide), ih]

private theorem tokensIn_dropWhile (h : Filler filler)
    (ends : after.dropWhile (goesOn '#') = after) :
    tokensIn ((filler ++ after).dropWhile (goesOn '#')) = tokensIn after := by
  induction h with
  | nil => rw [List.nil_append, ends]
  | @blank c cs blank rest ih =>
    by_cases newline : c = '\n'
    · subst newline
      exact (Filler.blank blank rest).tokensIn_append after
    · rw [List.cons_append, List.dropWhile_cons_of_pos (goesOn_comment_iff.mpr newline), ih]
  | @comment body cs one_line rest ih =>
    have dropped : ('#' :: (body ++ '\n' :: cs) ++ after).dropWhile (goesOn '#') =
        '\n' :: (cs ++ after) := by
      rw [List.cons_append, List.dropWhile_cons_of_pos (by decide), List.append_assoc,
        List.cons_append, dropWhile_comment one_line]
    rw [dropped, tokensIn_blank (by decide), rest.tokensIn_append]

private theorem head (h : Filler filler) :
    ∀ d ∈ filler.head?, Text.isBlank d = true ∨ d = '#' := by
  intro d first
  cases h with
  | nil => cases first
  | blank blank _ =>
    cases first
    exact Or.inl blank
  | comment _ _ =>
    cases first
    exact Or.inr rfl

/-- A piece ends where it did when filler is put somewhere after it, or right after it if it
is no comment. -/
private theorem ends_insert (h : Filler filler) {between : List Char}
    (apart : ¬(c = '#' ∧ between = []))
    (ends : ∀ d ∈ (between ++ after).head?, goesOn c d = false) :
    ∀ d ∈ (between ++ (filler ++ after)).head?, goesOn c d = false := by
  intro d first
  cases between with
  | cons e between => exact ends d first
  | nil =>
    rw [List.nil_append, List.head?_append] at first
    rcases Option.or_eq_some_iff.mp first with in_filler | ⟨-, in_after⟩
    · exact goesOn_eq_false (fun comment => apart ⟨comment, rfl⟩) (h.head d in_filler)
    · exact ends d in_after

/-- Filler between two pieces leaves the tokens as they are. -/
private theorem tokensIn_insert (h : Filler filler) {ps qs : List (List Char)} {before : List Char}
    (cut : pieces (before ++ after) = ps ++ qs) (made : ps.flatten = before) :
    tokensIn (before ++ (filler ++ after)) = tokensIn (before ++ after) := by
  induction ps generalizing before with
  | nil =>
    subst made
    exact h.tokensIn_append after
  | cons piece ps ih =>
    obtain ⟨c, body, rest, rfl, whole, later, goes, ends⟩ := exists_of_pieces_eq_cons cut
    subst made
    obtain rfl : ps.flatten ++ after = rest := by simpa using whole
    have ih := ih later rfl
    simp only [List.flatten_cons, List.cons_append, List.append_assoc]
    by_cases joined : c = '#' ∧ ps.flatten = []
    · -- The filler stands at the end of a comment, which goes on with it.
      obtain ⟨rfl, none_between⟩ := joined
      rw [none_between, List.nil_append] at ends
      have stop : after.dropWhile (goesOn '#') = after := dropWhile_of_ends ends
      rw [none_between, List.nil_append, List.nil_append, tokensIn_comment, tokensIn_comment,
        List.dropWhile_append_of_pos goes, List.dropWhile_append_of_pos goes,
        h.tokensIn_dropWhile stop, stop]
    · rw [tokensIn_piece goes (h.ends_insert joined ends), tokensIn_piece goes ends, ih]

end Filler

private theorem scanPieces_tokens (line : Nat) (ps : List (List Char)) :
    match readTokens ps with
    | .ok tokens =>
      ∃ lexemes, scanPieces line ps = .ok lexemes ∧ lexemes.map Lexeme.token = tokens
    | .error cause => ∃ on, scanPieces line ps = .error (.onLine on cause) := by
  induction ps generalizing line with
  | nil => exact ⟨[], rfl, rfl⟩
  | cons piece ps ih =>
    have ih := ih (line + piece.count '\n')
    simp only [readTokens, scanPieces]
    cases readPiece piece with
    | error cause => exact ⟨line, rfl⟩
    | ok found =>
      cases later : readTokens ps with
      | error cause =>
        rw [later] at ih
        obtain ⟨on, scanned⟩ := ih
        exact ⟨on, by simp only [scanned]; rfl⟩
      | ok tokens =>
        rw [later] at ih
        obtain ⟨lexemes, scanned, rfl⟩ := ih
        refine ⟨(found.map (⟨·, line⟩)).toList ++ lexemes, by simp only [scanned]; rfl, ?_⟩
        cases found <;> rfl

private theorem ofText_eq_scanPieces (text : String) :
    ofText text = scanPieces 1 (pieces text.toList) :=
  scan_eq_scanPieces 1 text.toList

private theorem tokensIn_of_ofText {text : String} {lexemes : List Lexeme}
    (scanned : ofText text = .ok lexemes) :
    tokensIn text.toList = .ok (lexemes.map Lexeme.token) := by
  have spec := scanPieces_tokens 1 (pieces text.toList)
  rw [← ofText_eq_scanPieces, scanned] at spec
  rw [tokensIn]
  split at spec
  · next tokens read =>
    obtain ⟨found, same, rfl⟩ := spec
    cases same
    exact read
  · obtain ⟨on, refused⟩ := spec
    cases refused

private theorem exists_ofText_of_tokensIn {text : String} {tokens : List Token}
    (read : tokensIn text.toList = .ok tokens) :
    ∃ lexemes, ofText text = .ok lexemes ∧ lexemes.map Lexeme.token = tokens := by
  have spec := scanPieces_tokens 1 (pieces text.toList)
  rw [← ofText_eq_scanPieces, ← tokensIn, read] at spec
  exact spec

private theorem exists_ofText_of_tokensIn_error {text : String} {cause : ParseCause}
    (refused : tokensIn text.toList = .error cause) :
    ∃ line, ofText text = .error (.onLine line cause) := by
  have spec := scanPieces_tokens 1 (pieces text.toList)
  rw [← ofText_eq_scanPieces, ← tokensIn, refused] at spec
  exact spec

end Tokens

end Lexeme

namespace Parsed

/-- Two readings give the same, or fail with errors that differ at most in their line numbers. -/
def AgreeButLines : Except ParseError (List Parsed) → Except ParseError (List Parsed) → Prop
  | .ok ps, .ok qs => ps = qs
  | .error e, .error e' => e.cause = e'.cause ∧ e.line?.isSome = e'.line?.isSome
  | _, _ => False

/-- Lexemes with the same tokens are read alike, since with all lines moved to one they are
the same lexemes. -/
private theorem agree_ofLexemes {ts us : List Lexeme}
    (same : ts.map Lexeme.token = us.map Lexeme.token) :
    AgreeButLines (ofLexemes ts) (ofLexemes us) := by
  have one_line : ∀ vs : List Lexeme,
      vs.map (Lexeme.reline fun _ => 0) = (vs.map Lexeme.token).map (Lexeme.mk · 0) := by
    intro vs
    rw [List.map_map]
    rfl
  have moved : Draft.relined (fun _ => 0) id (ofLexemes ts) =
      Draft.relined (fun _ => 0) id (ofLexemes us) := by
    rw [← ofLexemes_reline, ← ofLexemes_reline, one_line, one_line, same]
  cases first : ofLexemes ts with
  | ok ps =>
    cases second : ofLexemes us with
    | ok qs =>
      rw [first, second] at moved
      exact Except.ok.inj moved
    | error e =>
      rw [first, second] at moved
      cases moved
  | error e =>
    cases second : ofLexemes us with
    | ok qs =>
      rw [first, second] at moved
      cases moved
    | error e' =>
      rw [first, second] at moved
      have errors : e.reline (fun _ => 0) = e'.reline (fun _ => 0) := Except.error.inj moved
      have causes := congrArg ParseError.cause errors
      have placed := congrArg (fun e => (ParseError.line? e).isSome) errors
      simp only [ParseError.reline, Option.isSome_map] at causes placed
      exact ⟨causes, placed⟩

private theorem agree_readAll {text other : String}
    (same : Lexeme.tokensIn text.toList = Lexeme.tokensIn other.toList) :
    AgreeButLines (readAll text) (readAll other) := by
  cases read : Lexeme.tokensIn text.toList with
  | ok tokens =>
    obtain ⟨ts, scanned, spelled⟩ := Lexeme.exists_ofText_of_tokensIn read
    obtain ⟨us, scanned', spelled'⟩ := Lexeme.exists_ofText_of_tokensIn (same.symm.trans read)
    rw [readAll, readAll, scanned, scanned']
    exact agree_ofLexemes (spelled.trans spelled'.symm)
  | error cause =>
    obtain ⟨line, refused⟩ := Lexeme.exists_ofText_of_tokensIn_error read
    obtain ⟨line', refused'⟩ := Lexeme.exists_ofText_of_tokensIn_error (same.symm.trans read)
    rw [readAll, readAll, refused, refused']
    exact ⟨rfl, rfl⟩

/-- Formatting does not change meaning. The lexemes of a text are those of its pieces. Blank
characters and whole comments at a position that is not strictly inside a token or a comment leave
the tokens as they are, and what is read from the text, be it refused or not. Of two texts with the
same tokens the same functions and range annotations are read, or they are refused with errors that
differ at most in their line numbers. -/
theorem formatting_keeps_meaning :
    (∀ text, Lexeme.ofText text = Lexeme.scanPieces 1 (Lexeme.pieces text.toList)) ∧
    (∀ before filler after : String, Lexeme.Filler filler.toList →
      ¬Lexeme.Inside before.toList after.toList →
      (∀ lexemes, Lexeme.ofText (before ++ after) = .ok lexemes →
        ∃ spread, Lexeme.ofText (before ++ filler ++ after) = .ok spread ∧
          spread.map Lexeme.token = lexemes.map Lexeme.token) ∧
      AgreeButLines (readAll (before ++ filler ++ after)) (readAll (before ++ after))) ∧
    ∀ (text other : String) (ts us : List Lexeme), Lexeme.ofText text = .ok ts →
      Lexeme.ofText other = .ok us →
      ts.map Lexeme.token = us.map Lexeme.token →
        AgreeButLines (readAll text) (readAll other) := by
  refine ⟨Lexeme.ofText_eq_scanPieces, ?_, ?_⟩
  · intro before filler after fills outside
    obtain ⟨ps, qs, cut, made⟩ := Lexeme.exists_pieces_of_not_inside outside
    have same : Lexeme.tokensIn (before ++ filler ++ after).toList =
        Lexeme.tokensIn (before ++ after).toList := by
      rw [String.toList_append, String.toList_append, String.toList_append, List.append_assoc]
      exact fills.tokensIn_insert cut made
    refine ⟨?_, agree_readAll same⟩
    intro lexemes scanned
    exact Lexeme.exists_ofText_of_tokensIn (same.trans (Lexeme.tokensIn_of_ofText scanned))
  · intro text other ts us scanned scanned' same
    refine agree_readAll ?_
    rw [Lexeme.tokensIn_of_ofText scanned, Lexeme.tokensIn_of_ofText scanned', same]

/-- Filler at the end of a comment, with a brace in it, and two tokens that nothing divides,
on different lines. -/
theorem formatting_keeps_meaning_tight :
    (∃ spread, Lexeme.ofText ("func @f() \x7be:\nret 5#five" ++ "\t#\x7d\n " ++ "\n\x7d") =
      .ok spread ∧
      spread.map Lexeme.token =
        [.ident "func", .global "f", .leftParen, .rightParen, .leftBrace, .ident "e", .colon,
        .ident "ret", .int 5, .rightBrace]) ∧
    AgreeButLines (readAll ("func @f() \x7be:\nret 5#five" ++ "\t#\x7d\n " ++ "\n\x7d"))
      (readAll ("func @f() \x7be:\nret 5#five" ++ "\n\x7d")) ∧
    Lexeme.ofText "func\n5abc" =
      .ok [⟨.ident "func", 1⟩, ⟨.int 5, 2⟩, ⟨.ident "abc", 2⟩] ∧
    Lexeme.ofText "func 5\nabc" =
      .ok [⟨.ident "func", 1⟩, ⟨.int 5, 1⟩, ⟨.ident "abc", 2⟩] ∧
    AgreeButLines (readAll "func\n5abc") (readAll "func 5\nabc") := by
  have spelled : "\t#\x7d\n ".toList = '\t' :: '#' :: (['\x7d'] ++ '\n' :: [' ']) := by
    decide +kernel
  have fills : Lexeme.Filler "\t#\x7d\n ".toList := by
    rw [spelled]
    exact .blank (by decide) (.comment (by decide) (.blank (by decide) .nil))
  have outside : ¬Lexeme.Inside "func @f() \x7be:\nret 5#five".toList "\n\x7d".toList := by
    decide +kernel
  have scanned : Lexeme.ofText ("func @f() \x7be:\nret 5#five" ++ "\n\x7d") =
      .ok [⟨.ident "func", 1⟩, ⟨.global "f", 1⟩, ⟨.leftParen, 1⟩, ⟨.rightParen, 1⟩,
        ⟨.leftBrace, 1⟩, ⟨.ident "e", 1⟩,
        ⟨.colon, 1⟩, ⟨.ident "ret", 2⟩, ⟨.int 5, 2⟩,
        ⟨.rightBrace, 3⟩] := by decide +kernel
  have joined : Lexeme.ofText "func\n5abc" =
      .ok [⟨.ident "func", 1⟩, ⟨.int 5, 2⟩, ⟨.ident "abc", 2⟩] := by
    decide +kernel
  have divided : Lexeme.ofText "func 5\nabc" =
      .ok [⟨.ident "func", 1⟩, ⟨.int 5, 1⟩, ⟨.ident "abc", 2⟩] := by
    decide +kernel
  obtain ⟨-, insertion, rewording⟩ := formatting_keeps_meaning
  obtain ⟨tokens, agree⟩ := insertion _ _ _ fills outside
  exact ⟨tokens _ scanned, agree, joined, divided, rewording _ _ _ _ joined divided rfl⟩

end Parsed

end BranchTrim
