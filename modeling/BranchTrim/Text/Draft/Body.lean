import BranchTrim.Text.Draft.Parts

/-!
Reading a draft of a whole function: a header, then labels, statements and range notes up to
a closing brace.
-/

set_option autoImplicit false

namespace BranchTrim

namespace Draft

/-- Reads a block label with its colon, if there is one in front. -/
def label? : List Lexeme → Option (WithRest Definition)
  | ⟨.ident word, line⟩ :: ⟨.colon, _⟩ :: rest => some (⟨line, word⟩, rest)
  | _ => none

theorem length_label? {ts rest : List Lexeme} {label : Definition}
    (h : label? ts = some (label, rest)) : rest.length < ts.length := by
  unfold label? at h
  split at h
  · cases h
    simp only [List.length_cons]
    omega
  · cases h

-- The equations in the matches below are used by `decreasing_by`, which the linter misses.
set_option linter.unusedVariables false in
/--
Reads the rest of a function body up to its closing brace. The notes and blocks before it are given
last one first; a statement belongs to the last block, which must not have a terminator yet.
-/
def body (notes : List RangeNote) (blocks : List DraftBlock) (ts : List Lexeme) :
    Except ParseError (WithRest (List RangeNote × List DraftBlock)) :=
  match ts with
  | [] => .error (.atEnd .rightBrace)
  | t :: ts =>
    if t.token = .rightBrace then .ok ((notes.reverse, blocks.reverse), ts)
    else
      match hLabel : label? (t :: ts) with
      | some (label, rest) =>
        if blocks.any (·.name == label.name) then
          .error (.onLine label.line (.duplicateBlock label.name))
        else body notes (⟨label.line, label.name, [], none⟩ :: blocks) rest
      | none =>
        if t.token = .ident "range" then
          match hRange : rangeNote t.line ts with
          | .error e => .error e
          | .ok (a, rest) => body (a :: notes) blocks rest
        else
          match blocks with
          | [] => .error (.onLine t.line .outsideBlock)
          | block :: blocks =>
            if block.term.isSome then .error (.onLine t.line .outsideBlock)
            else
              match hStatement : statement block (t :: ts) with
              | .error e => .error e
              | .ok (block, rest) => body notes (block :: blocks) rest
termination_by ts.length
decreasing_by
  · exact length_label? hLabel
  · have := length_rangeNote hRange
    simp only [List.length_cons]
    omega
  · exact length_statement hStatement

private theorem length_body {notes : List RangeNote} {blocks : List DraftBlock}
    {ts rest : List Lexeme} {result : List RangeNote × List DraftBlock}
    (h : body notes blocks ts = .ok (result, rest)) : rest.length < ts.length := by
  fun_induction body notes blocks ts with
  | case1 => cases h
  | case2 =>
    cases h
    exact Nat.lt_succ_self _
  | case3 => cases h
  | case4 _ _ _ _ _ _ _ hLabel _ ih => exact Nat.lt_trans (ih h) (length_label? hLabel)
  | case5 => cases h
  | case6 _ _ _ _ _ _ _ _ _ hRange ih =>
    exact Nat.lt_succ_of_lt (Nat.lt_trans (ih h) (length_rangeNote hRange))
  | case7 => cases h
  | case8 => cases h
  | case9 => cases h
  | case10 _ _ _ _ _ _ _ _ _ _ _ hStatement ih =>
    exact Nat.lt_trans (ih h) (length_statement hStatement)

def function (ts : List Lexeme) : Except ParseError (WithRest Draft) := do
  let (keyword, ts) ← ident .func ts
  if keyword.name ≠ "func" then unexpected .func ⟨.ident keyword.name, keyword.line⟩
  else
    let (name, ts) ← globalName .functionName ts
    let (params, ts) ← parenthesized .parameter (asDefinition .parameter) ts
    let ts ← expect .leftBrace .leftBrace ts
    let ((notes, blocks), ts) ← body [] [] ts
    return (⟨keyword.line, name, params, notes, blocks⟩, ts)

theorem length_function {ts rest : List Lexeme} {draft : Draft}
    (h : function ts = .ok (draft, rest)) : rest.length < ts.length := by
  obtain ⟨⟨keyword, ts₁⟩, first, h⟩ := bind_eq_ok h
  dsimp only at h
  split at h
  · cases h
  · obtain ⟨⟨name, ts₂⟩, second, h⟩ := bind_eq_ok h
    obtain ⟨⟨params, ts₃⟩, third, h⟩ := bind_eq_ok h
    obtain ⟨ts₄, fourth, h⟩ := bind_eq_ok h
    obtain ⟨⟨⟨notes, blocks⟩, ts₅⟩, fifth, h⟩ := bind_eq_ok h
    have := length_ident first
    have := length_globalName second
    have := length_parenthesized third
    have := length_expect fourth
    have := length_body fifth
    cases h
    dsimp only at *
    omega

end Draft

end BranchTrim
