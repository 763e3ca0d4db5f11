import BranchTrim.Text.Parsed
import Mathlib.Data.List.Basic

/-!
Reading and lines. The readers pass lines on and put them into errors, but they never look at
them: when every lexeme is moved to another line, the same is read, with each line in it moved in
the same way. So lines have no influence on what is read, and an error has no line that was not
the line of a lexeme.
-/

set_option autoImplicit false

namespace BranchTrim

section Parts

variable (f : Nat → Nat)

/-! Parts with their lines moved. -/

def Lexeme.reline (t : Lexeme) : Lexeme := { t with line := f t.line }

def ParseError.reline (e : ParseError) : ParseError := { e with line? := e.line?.map f }

def Definition.reline (d : Definition) : Definition := { d with line := f d.line }

def DraftInst.reline (inst : DraftInst) : DraftInst := { inst with line := f inst.line }

def RangeNote.reline (a : RangeNote) : RangeNote := { a with line := f a.line }

def DraftBlock.reline (b : DraftBlock) : DraftBlock where
  line := f b.line
  name := b.name
  insts := b.insts.map (DraftInst.reline f)
  term := b.term.map (Prod.map f id)

def Draft.reline (draft : Draft) : Draft where
  line := f draft.line
  name := draft.name
  params := draft.params.map (Definition.reline f)
  notes := draft.notes.map (RangeNote.reline f)
  blocks := draft.blocks.map (DraftBlock.reline f)

private theorem DraftBlock.isSome_term_reline (b : DraftBlock) :
    (b.reline f).term.isSome = b.term.isSome :=
  Option.isSome_map

private theorem Lexeme.token_reline (t : Lexeme) : (t.reline f).token = t.token :=
  rfl

end Parts

namespace Draft

variable {α β : Type} {f : Nat → Nat}

/-- A result with its lines moved: that of an error by `f`, and those in what is
returned by `move`. -/
def relined (f : Nat → Nat) (move : α → α) : Except ParseError α → Except ParseError α
  | .ok a => .ok (move a)
  | .error e => .error (e.reline f)

abbrev relinedPart (f : Nat → Nat) (move : α → α) :
    Except ParseError (WithRest α) → Except ParseError (WithRest α) :=
  relined f (Prod.map move (List.map (Lexeme.reline f)))

/-- Steps that move lines alike can be put one after the other. -/
private theorem relined_bind {move : α → α} {move' : β → β} {x : Except ParseError α}
    {k k' : α → Except ParseError β}
    (later : ∀ a, x = .ok a → k' (move a) = relined f move' (k a)) :
    relined f move x >>= k' = relined f move' (x >>= k) := by
  cases x with
  | error e => rfl
  | ok a => exact later a rfl

section Readers

variable {what : Expectation} {ts : List Lexeme}

private theorem next_reline :
    next what (ts.map (.reline f)) = relinedPart f (.reline f) (next what ts) := by
  cases ts <;> rfl

private theorem expect_reline {token : Token} :
    expect token what (ts.map (.reline f)) =
      relined f (List.map (.reline f)) (expect token what ts) := by
  unfold expect
  rw [next_reline]
  refine relined_bind ?_
  rintro ⟨t, rest⟩ _
  dsimp only [Prod.map, Lexeme.reline]
  split <;> rfl

private theorem ident_reline :
    ident what (ts.map (.reline f)) = relinedPart f (.reline f) (ident what ts) := by
  unfold ident
  rw [next_reline]
  refine relined_bind ?_
  rintro ⟨⟨token, line⟩, rest⟩ _
  cases token <;> rfl

private theorem globalName_reline :
    globalName what (ts.map (.reline f)) = relinedPart f id (globalName what ts) := by
  unfold globalName
  rw [next_reline]
  refine relined_bind ?_
  rintro ⟨⟨token, line⟩, rest⟩ _
  cases token <;> rfl

private theorem integer_reline : integer (ts.map (.reline f)) = relinedPart f id (integer ts) := by
  unfold integer
  rw [next_reline]
  refine relined_bind ?_
  rintro ⟨⟨token, line⟩, rest⟩ _
  cases token <;> rfl

private theorem asDefinition_reline (t : Lexeme) :
    asDefinition what (t.reline f) = relined f (.reline f) (asDefinition what t) := by
  obtain ⟨token, line⟩ := t
  cases token <;> rfl

private theorem asOperand_reline (t : Lexeme) :
    asOperand (t.reline f) = relined f id (asOperand t) := by
  obtain ⟨token, line⟩ := t
  cases token <;> rfl

private theorem operand_reline : operand (ts.map (.reline f)) = relinedPart f id (operand ts) := by
  unfold operand
  rw [next_reline]
  refine relined_bind ?_
  rintro ⟨t, rest⟩ _
  dsimp only [Prod.map]
  rw [asOperand_reline]
  exact relined_bind fun _ _ => rfl

private theorem twoOperands_reline :
    twoOperands (ts.map (.reline f)) = relinedPart f id (twoOperands ts) := by
  unfold twoOperands
  rw [operand_reline]
  refine relined_bind ?_
  rintro ⟨lhs, ts₁⟩ _
  dsimp only [Prod.map]
  rw [expect_reline]
  refine relined_bind fun ts₂ _ => ?_
  rw [operand_reline]
  exact relined_bind fun _ _ => rfl

section Items

variable {item : Lexeme → Except ParseError α} {move : α → α}

private theorem items_reline (same : ∀ t, item (t.reline f) = relined f move (item t))
    (ts : List Lexeme) :
    items what item (ts.map (.reline f)) = relinedPart f (List.map move) (items what item ts) := by
  induction ts using items.induct with
  | case1 => rfl
  | case2 t =>
    simp only [items, List.map_cons, List.map_nil, same]
    exact relined_bind fun _ _ => rfl
  | case3 t s ts ih =>
    simp only [items, List.map_cons, same]
    refine relined_bind fun x _ => ?_
    obtain ⟨token, line⟩ := s
    cases token with
    | comma =>
      show items what item (ts.map (.reline f)) >>= _ = relinedPart f _ (items what item ts >>= _)
      rw [ih]
      exact relined_bind fun _ _ => rfl
    | _ => rfl

private theorem parenthesized_reline (same : ∀ t, item (t.reline f) = relined f move (item t)) :
    parenthesized what item (ts.map (.reline f)) =
      relinedPart f (List.map move) (parenthesized what item ts) := by
  unfold parenthesized
  rw [expect_reline]
  refine relined_bind fun rest _ => ?_
  match rest with
  | [] => rfl
  | ⟨token, line⟩ :: later =>
    cases token with
    | rightParen => rfl
    | _ => exact items_reline same (_ :: later)

end Items

private theorem operation_reline :
    operation (ts.map (.reline f)) = relinedPart f id (operation ts) := by
  unfold operation
  rw [ident_reline]
  refine relined_bind ?_
  rintro ⟨⟨line, name⟩, ts₁⟩ _
  dsimp only [Prod.map, Definition.reline]
  split
  · rw [twoOperands_reline]
    exact relined_bind fun _ _ => rfl
  split
  · rw [ident_reline]
    refine relined_bind ?_
    rintro ⟨⟨line', word⟩, ts₂⟩ _
    dsimp only [Prod.map, Definition.reline]
    split
    · rw [twoOperands_reline]
      exact relined_bind fun _ _ => rfl
    · rfl
  split
  · rw [operand_reline]
    exact relined_bind fun _ _ => rfl
  split
  · rw [globalName_reline]
    refine relined_bind ?_
    rintro ⟨callee, ts₂⟩ _
    dsimp only [Prod.map]
    rw [parenthesized_reline asOperand_reline, List.map_id_fun]
    exact relined_bind fun _ _ => rfl
  · rfl

private theorem rangeNote_reline (line : Nat) :
    rangeNote (f line) (ts.map (.reline f)) = relinedPart f (.reline f) (rangeNote line ts) := by
  unfold rangeNote
  rw [next_reline]
  refine relined_bind ?_
  rintro ⟨t, ts₁⟩ _
  dsimp only [Prod.map]
  rw [asDefinition_reline]
  refine relined_bind fun value _ => ?_
  rw [expect_reline]
  refine relined_bind fun ts₂ _ => ?_
  rw [integer_reline]
  refine relined_bind ?_
  rintro ⟨lo, ts₃⟩ _
  dsimp only [Prod.map]
  rw [expect_reline]
  refine relined_bind fun ts₄ _ => ?_
  rw [integer_reline]
  refine relined_bind ?_
  rintro ⟨hi, ts₅⟩ _
  dsimp only [Prod.map, id]
  rw [expect_reline]
  refine relined_bind fun ts₆ _ => ?_
  split <;> rfl

private theorem returned_reline :
    returned (ts.map (.reline f)) = Prod.map id (List.map (.reline f)) (returned ts) := by
  match ts with
  | [] => rfl
  | ⟨token, line⟩ :: rest => cases token <;> rfl

private theorem statement_reline (block : DraftBlock) :
    statement (block.reline f) (ts.map (.reline f)) =
      relinedPart f (.reline f) (statement block ts) := by
  unfold statement
  rw [next_reline]
  refine relined_bind ?_
  rintro ⟨⟨token, line⟩, rest⟩ _
  dsimp only [Prod.map, Lexeme.reline]
  cases token with
  | value name =>
    dsimp only
    rw [expect_reline]
    refine relined_bind fun ts₁ _ => ?_
    rw [operation_reline]
    refine relined_bind ?_
    rintro ⟨op, ts₂⟩ _
    simp [relined, Prod.map, DraftBlock.reline, DraftInst.reline]
  | ident word =>
    dsimp only
    split
    · rw [ident_reline]
      exact relined_bind fun _ _ => rfl
    split
    · rw [operand_reline]
      refine relined_bind ?_
      rintro ⟨cond, ts₁⟩ _
      dsimp only [Prod.map]
      rw [expect_reline]
      refine relined_bind fun ts₂ _ => ?_
      rw [ident_reline]
      refine relined_bind ?_
      rintro ⟨whenTrue, ts₃⟩ _
      dsimp only [Prod.map]
      rw [expect_reline]
      refine relined_bind fun ts₄ _ => ?_
      rw [ident_reline]
      exact relined_bind fun _ _ => rfl
    split
    · rw [returned_reline]
      rfl
    · rw [operation_reline]
      refine relined_bind ?_
      rintro ⟨op, ts₁⟩ _
      simp [relined, Prod.map, DraftBlock.reline, DraftInst.reline]
  | _ => rfl

private theorem label?_reline :
    label? (ts.map (.reline f)) =
      (label? ts).map (Prod.map (.reline f) (List.map (.reline f))) := by
  match ts with
  | [] => rfl
  | [⟨token, line⟩] => cases token <;> rfl
  | ⟨token, line⟩ :: ⟨token', line'⟩ :: rest => cases token <;> cases token' <;> rfl

private theorem body_cons (notes : List RangeNote) (blocks : List DraftBlock) (t : Lexeme)
    (ts : List Lexeme) :
    body notes blocks (t :: ts) =
      if t.token = .rightBrace then .ok ((notes.reverse, blocks.reverse), ts)
      else
        match label? (t :: ts) with
        | some (label, rest) =>
          if blocks.any (·.name == label.name) then
            .error (.onLine label.line (.duplicateBlock label.name))
          else body notes (⟨label.line, label.name, [], none⟩ :: blocks) rest
        | none =>
          if t.token = .ident "range" then
            rangeNote t.line ts >>= fun (a, rest) => body (a :: notes) blocks rest
          else
            match blocks with
            | [] => .error (.onLine t.line .outsideBlock)
            | block :: blocks =>
              if block.term.isSome then .error (.onLine t.line .outsideBlock)
              else statement block (t :: ts) >>= fun (block, rest) =>
                body notes (block :: blocks) rest := by
  rw [body.eq_def]
  dsimp only
  split
  · rfl
  split
  · next label rest labelled => rw [labelled]
  · next plain =>
    rw [plain]
    dsimp only
    split
    · split
      · next e read => rw [read]; rfl
      · next a rest read => rw [read]; rfl
    · cases blocks with
      | nil => rfl
      | cons block blocks =>
        dsimp only
        split
        · rfl
        split
        · next e read => rw [read]; rfl
        · next block' rest read => rw [read]; rfl

private theorem any_name_reline (name : String) (blocks : List DraftBlock) :
    (blocks.map (DraftBlock.reline f)).any (·.name == name) = blocks.any (·.name == name) := by
  rw [List.any_map]
  rfl

private theorem body_reline (notes : List RangeNote) (blocks : List DraftBlock) (ts : List Lexeme) :
    body (notes.map (.reline f)) (blocks.map (.reline f)) (ts.map (.reline f)) =
      relinedPart f (Prod.map (List.map (.reline f)) (List.map (.reline f)))
        (body notes blocks ts) := by
  -- Each reader leaves fewer lexemes, as in the recursion of the body itself.
  induction length : ts.length using Nat.strongRecOn generalizing notes blocks ts with
  | ind n ih =>
    cases ts with
    | nil =>
      rw [List.map_nil, body.eq_def, body.eq_def]
      rfl
    | cons t ts =>
      subst length
      rw [List.map_cons, body_cons, body_cons, ← List.map_cons, label?_reline,
        Lexeme.token_reline]
      by_cases brace : t.token = .rightBrace
      · rw [if_pos brace, if_pos brace]
        simp [relined]
      rw [if_neg brace, if_neg brace]
      cases labelled : label? (t :: ts) with
      | some part =>
        obtain ⟨label, rest⟩ := part
        dsimp only [Option.map_some, Prod.map, Definition.reline]
        rw [any_name_reline]
        split
        · rfl
        · exact ih _ (length_label? labelled) notes
            (⟨label.line, label.name, [], none⟩ :: blocks) rest rfl
      | none =>
        dsimp only [Option.map_none]
        by_cases word : t.token = .ident "range"
        · rw [if_pos word, if_pos word, Lexeme.reline, rangeNote_reline]
          refine relined_bind ?_
          rintro ⟨a, rest⟩ read
          exact ih _ (Nat.lt_succ_of_lt (length_rangeNote read)) (a :: notes) blocks rest rfl
        rw [if_neg word, if_neg word]
        cases blocks with
        | nil => rfl
        | cons block blocks =>
          rw [List.map_cons]
          dsimp only
          rw [statement_reline, DraftBlock.isSome_term_reline]
          split
          · rfl
          · refine relined_bind ?_
            rintro ⟨block', rest⟩ read
            exact ih _ (length_statement read) notes (block' :: blocks) rest rfl

private theorem function_reline :
    function (ts.map (.reline f)) = relinedPart f (.reline f) (function ts) := by
  unfold function
  rw [ident_reline]
  refine relined_bind ?_
  rintro ⟨⟨line, keyword⟩, ts₁⟩ _
  dsimp only [Prod.map, Definition.reline]
  split
  · rfl
  rw [globalName_reline]
  refine relined_bind ?_
  rintro ⟨name, ts₂⟩ _
  dsimp only [Prod.map]
  rw [parenthesized_reline asDefinition_reline]
  refine relined_bind ?_
  rintro ⟨params, ts₃⟩ _
  dsimp only [Prod.map]
  rw [expect_reline]
  refine relined_bind fun ts₄ _ => ?_
  have inner := body_reline (f := f) [] [] ts₄
  rw [List.map_nil, List.map_nil] at inner
  rw [inner]
  exact relined_bind fun _ _ => rfl

end Readers

section Resolving

variable {names labels : List String}

private theorem mapM_relined {γ : Type} {read : α → Except ParseError β}
    {read' : γ → Except ParseError β} (move : α → γ)
    (same : ∀ a, read' (move a) = relined f id (read a)) (xs : List α) :
    (xs.map move).mapM read' = relined f id (xs.mapM read) := by
  induction xs with
  | nil => rfl
  | cons x xs ih =>
    rw [List.map_cons, List.mapM_cons, List.mapM_cons, same]
    refine relined_bind fun y _ => ?_
    rw [ih]
    exact relined_bind fun _ _ => rfl

private theorem valueId_reline (line : Nat) (name : String) :
    valueId names (f line) name = relined f id (valueId names line name) := by
  unfold valueId
  split <;> rfl

private theorem blockId_reline (line : Nat) (label : String) :
    blockId labels (f line) label = relined f id (blockId labels line label) := by
  unfold blockId
  split <;> rfl

private theorem resolveOperand_reline (line : Nat) (operand : Operand) :
    resolveOperand names (f line) operand = relined f id (resolveOperand names line operand) := by
  cases operand with
  | const word => rfl
  | named name =>
    simp only [resolveOperand, valueId_reline]
    exact relined_bind fun _ _ => rfl

private theorem mapOperands_relined {read read' : α → Except ParseError β}
    (same : ∀ a, read' a = relined f id (read a)) (op : Operation α) :
    op.mapOperands read' = relined f id (op.mapOperands read) := by
  cases op with
  | compare pred lhs rhs =>
    simp only [Operation.mapOperands, same]
    exact relined_bind fun _ _ => relined_bind fun _ _ => rfl
  | binary op lhs rhs =>
    simp only [Operation.mapOperands, same]
    exact relined_bind fun _ _ => relined_bind fun _ _ => rfl
  | copy value =>
    simp only [Operation.mapOperands, same]
    exact relined_bind fun _ _ => rfl
  | call callee args =>
    have read_args := mapM_relined id same args
    rw [List.map_id] at read_args
    simp only [Operation.mapOperands, read_args]
    exact relined_bind fun _ _ => rfl

private theorem mapParts_relined {γ δ : Type} {read read' : α → Except ParseError β}
    {find find' : γ → Except ParseError δ} (same : ∀ a, read' a = relined f id (read a))
    (found : ∀ c, find' c = relined f id (find c)) (term : Terminator α γ) :
    term.mapParts read' find' = relined f id (term.mapParts read find) := by
  match term with
  | .jump target =>
    simp only [Terminator.mapParts, found]
    exact relined_bind fun _ _ => rfl
  | .branch cond whenTrue whenFalse =>
    simp only [Terminator.mapParts, same, found]
    exact relined_bind fun _ _ => relined_bind fun _ _ => relined_bind fun _ _ => rfl
  | .ret none => rfl
  | .ret (some value) =>
    simp only [Terminator.mapParts, same]
    exact relined_bind fun _ _ => rfl

private theorem resolveInst_reline (inst : DraftInst) :
    resolveInst names (inst.reline f) = relined f id (resolveInst names inst) := by
  obtain ⟨line, result, op⟩ := inst
  simp only [resolveInst, DraftInst.reline, mapOperands_relined (resolveOperand_reline line)]
  refine relined_bind fun _ _ => ?_
  cases result with
  | none => rfl
  | some name =>
    have read : (some name).mapM (valueId names (f line)) =
        relined f id ((some name).mapM (valueId names line)) := by
      simp only [Option.mapM_some, valueId_reline]
      exact relined_bind fun _ _ => rfl
    rw [read]
    exact relined_bind fun _ _ => rfl

private theorem resolveBlock_reline (block : DraftBlock) :
    resolveBlock names labels (block.reline f) =
      relined f id (resolveBlock names labels block) := by
  obtain ⟨line, name, insts, term⟩ := block
  simp only [resolveBlock, DraftBlock.reline, mapM_relined _ resolveInst_reline]
  refine relined_bind fun _ _ => ?_
  cases term with
  | none => rfl
  | some ending =>
    obtain ⟨line', term⟩ := ending
    simp only [Option.map_some, Prod.map, id,
      mapParts_relined (resolveOperand_reline line') (blockId_reline line')]
    exact relined_bind fun _ _ => rfl

private theorem resolveNote_reline (a : RangeNote) :
    resolveNote names (a.reline f) = relined f id (resolveNote names a) := by
  simp only [resolveNote, RangeNote.reline, valueId_reline]
  exact relined_bind fun _ _ => rfl

private theorem checkDistinct_reline (seen : List String) (ds : List Definition) :
    checkDistinct seen (ds.map (.reline f)) = relined f id (checkDistinct seen ds) := by
  induction ds generalizing seen with
  | nil => rfl
  | cons d ds ih =>
    rw [List.map_cons, checkDistinct, checkDistinct]
    by_cases given : d.name ∈ seen
    · rw [if_pos given, Definition.reline, if_pos given]
      rfl
    · rw [if_neg given, Definition.reline, if_neg given]
      exact ih _

private theorem resultsIn_reline (blocks : List DraftBlock) :
    resultsIn (blocks.map (.reline f)) = (resultsIn blocks).map (.reline f) := by
  simp only [resultsIn, List.flatMap_map, DraftBlock.reline, ← List.map_flatMap,
    List.filterMap_map, List.map_filterMap]
  congr 1
  funext inst
  cases result : inst.result <;> simp [DraftInst.reline, Definition.reline, result]

/-- What a draft is resolved to has no lines, so only an error changes. -/
private theorem resolve_reline (draft : Draft) :
    (draft.reline f).resolve = relined f id draft.resolve := by
  obtain ⟨line, name, params, notes, blocks⟩ := draft
  cases blocks with
  | nil => rfl
  | cons first rest =>
    have given : params.map (.reline f) ++ resultsIn ((first :: rest).map (.reline f)) =
        (params ++ resultsIn (first :: rest)).map (Definition.reline f) := by
      rw [resultsIn_reline, List.map_append]
    have names : (params.map (Definition.reline f) ++
        resultsIn ((first :: rest).map (.reline f))).map Definition.name =
        (params ++ resultsIn (first :: rest)).map Definition.name := by
      rw [given, List.map_map]
      rfl
    have labels : ((first :: rest).map (DraftBlock.reline f)).map DraftBlock.name =
        (first :: rest).map DraftBlock.name := by
      rw [List.map_map]
      rfl
    simp only [resolve, Draft.reline, names, labels, List.length_map]
    simp only [given, checkDistinct_reline]
    simp only [List.map_cons]
    refine relined_bind fun _ _ => ?_
    rw [resolveBlock_reline]
    refine relined_bind fun _ _ => ?_
    rw [mapM_relined _ resolveBlock_reline]
    refine relined_bind fun _ _ => ?_
    rw [mapM_relined _ resolveNote_reline]
    exact relined_bind fun _ _ => rfl

end Resolving

end Draft

namespace Parsed

variable {f : Nat → Nat}

private theorem ofLexemes_step (t : Lexeme) (ts : List Lexeme) :
    ofLexemes (t :: ts) = Draft.function (t :: ts) >>= fun (draft, rest) =>
      draft.resolve >>= fun p => ofLexemes rest >>= fun later => pure (p :: later) := by
  rw [ofLexemes]
  split
  · next e read => rw [read]; rfl
  · next draft rest read => rw [read]; rfl

theorem ofLexemes_reline (ts : List Lexeme) :
    ofLexemes (ts.map (.reline f)) = Draft.relined f id (ofLexemes ts) := by
  induction length : ts.length using Nat.strongRecOn generalizing ts with
  | ind n ih =>
    cases ts with
    | nil =>
      rw [List.map_nil, ofLexemes]
      rfl
    | cons t ts =>
      subst length
      rw [List.map_cons, ofLexemes_step, ofLexemes_step, ← List.map_cons, Draft.function_reline]
      refine Draft.relined_bind ?_
      rintro ⟨draft, rest⟩ read
      dsimp only [Prod.map]
      rw [Draft.resolve_reline]
      refine Draft.relined_bind fun p _ => ?_
      rw [ih _ (Draft.length_function read) rest rfl]
      exact Draft.relined_bind fun _ _ => rfl

end Parsed

end BranchTrim
