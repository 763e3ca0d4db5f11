import BranchTrim.Proofs.Text.Readers

/-!
The body of a function as a list of items. The reader of bodies accepts the items that can be put
into blocks one after the other: a label opens a block, and what is no label or note belongs to the
last block while that has no end.
-/

set_option autoImplicit false

namespace BranchTrim

def ListedBlock.add? (b : ListedBlock) : Item → Option ListedBlock
  | .inst listed => if b.term.isSome then none else some { b with insts := b.insts ++ [listed] }
  | .ending term => if b.term.isSome then none else some { b with term := some term }
  | .label _ | .note .. => none

namespace Item

/-- The blocks after an item, with the last one first. -/
def place : Item → List ListedBlock → Option (List ListedBlock)
  | .label name, blocks =>
    if blocks.any (·.name == name) then none else some (⟨name, [], none⟩ :: blocks)
  | .note .., blocks => some blocks
  | _, [] => none
  | item, b :: blocks => (b.add? item).map (· :: blocks)

def placeAll : List Item → List ListedBlock → Option (List ListedBlock)
  | [], blocks => some blocks
  | item :: items, blocks => (item.place blocks).bind (placeAll items)

def note? : Item → Option (String × Range)
  | note name range => some (name, range)
  | label _ | inst _ | ending _ => none

theorem place_inst_eq_some_iff {listed : ListedInst} {blocks next : List ListedBlock} :
    (inst listed).place blocks = some next ↔ ∃ b others, blocks = b :: others ∧
    b.term = none ∧
      next = { b with insts := b.insts ++ [listed] } :: others := by
  cases blocks with
  | nil => simp [place]
  | cons b others => cases ended : b.term <;> simp [place, ListedBlock.add?, ended, eq_comm]

theorem place_ending_eq_some_iff {term : Terminator Operand String}
    {blocks next : List ListedBlock} :
    (ending term).place blocks = some next ↔ ∃ b others, blocks = b :: others ∧
    b.term = none ∧
      next = { b with term := some term } :: others := by
  cases blocks with
  | nil => simp [place]
  | cons b others => cases ended : b.term <;> simp [place, ListedBlock.add?, ended, eq_comm]

theorem word_ahead {items : List Item} {b : ListedBlock} {others final : List ListedBlock}
    (ended : b.term.isSome = true) (placed : placeAll items (b :: others) = some final) :
    ∃ token later, items.flatMap tokens ++ [.rightBrace] = token :: later ∧
      (token = .rightBrace ∨ ∃ word, token = .ident word) := by
  cases items with
  | nil => exact ⟨_, _, rfl, Or.inl rfl⟩
  | cons item items =>
    cases item with
    | label name => exact ⟨_, _, rfl, Or.inr ⟨name, rfl⟩⟩
    | note name range => exact ⟨_, _, rfl, Or.inr ⟨"range", rfl⟩⟩
    | inst | ending => simp [placeAll, place, ListedBlock.add?, ended] at placed

private theorem items_of_place {item : Item} {blocks next : List ListedBlock}
    (placed : item.place blocks = some next) :
    next.reverse.flatMap ListedBlock.items =
      blocks.reverse.flatMap ListedBlock.items ++ [item].filter (·.note?.isNone) := by
  cases item with
  | label name =>
    simp only [place] at placed
    split at placed <;> cases placed
    simp [ListedBlock.items, note?]
  | note name range =>
    cases placed
    simp [note?]
  | inst listed =>
    obtain ⟨b, others, rfl, free, rfl⟩ := place_inst_eq_some_iff.mp placed
    simp [ListedBlock.items, free, note?]
  | ending term =>
    obtain ⟨b, others, rfl, free, rfl⟩ := place_ending_eq_some_iff.mp placed
    simp [ListedBlock.items, free, note?]

theorem items_of_placeAll {items : List Item} {blocks final : List ListedBlock}
    (placed : placeAll items blocks = some final) :
    final.reverse.flatMap ListedBlock.items =
      blocks.reverse.flatMap ListedBlock.items ++ items.filter (·.note?.isNone) := by
  induction items generalizing blocks with
  | nil =>
    cases placed
    simp
  | cons item items ih =>
    obtain ⟨next, step, others⟩ := Option.bind_eq_some_iff.mp placed
    have single : (item :: items).filter (·.note?.isNone) =
        [item].filter (·.note?.isNone) ++ items.filter (·.note?.isNone) :=
      List.filter_append [item] items
    rw [ih others, items_of_place step, single, List.append_assoc]

private theorem placeAll_insts (name : String) (insts before : List ListedInst) (items : List Item)
    (blocks : List ListedBlock) :
    placeAll (insts.map inst ++ items) (⟨name, before, none⟩ :: blocks) =
      placeAll items (⟨name, before ++ insts, none⟩ :: blocks) := by
  induction insts generalizing before with
  | nil => simp
  | cons listed insts ih =>
    rw [List.map_cons, List.cons_append, placeAll]
    simpa [place, ListedBlock.add?] using ih (before ++ [listed])

private theorem placeAll_block {b : ListedBlock} {blocks : List ListedBlock} (items : List Item)
    (fresh : b.name ∉ blocks.map ListedBlock.name) (ended : b.term.isSome = true) :
    placeAll (b.items ++ items) blocks = placeAll items (b :: blocks) := by
  obtain ⟨name, insts, term⟩ := b
  obtain ⟨term, rfl⟩ := Option.isSome_iff_exists.mp ended
  have unused : blocks.any (·.name == name) = false := by
    simpa using fresh
  simp [ListedBlock.items, placeAll, place, unused, placeAll_insts, ListedBlock.add?]

/-- Every list of whole blocks with names of their own is placed as it is. -/
theorem placeAll_items {blocks before : List ListedBlock}
    (ended : ∀ b ∈ blocks, b.term.isSome = true)
    (distinct : ((blocks.reverse ++ before).map ListedBlock.name).Nodup) :
    placeAll (blocks.flatMap ListedBlock.items) before = some (blocks.reverse ++ before) := by
  induction blocks generalizing before with
  | nil => rfl
  | cons b blocks ih =>
    obtain ⟨first, others⟩ := List.forall_mem_cons.mp ended
    rw [List.reverse_cons, List.append_assoc, List.singleton_append] at distinct ⊢
    have fresh : b.name ∉ before.map ListedBlock.name := by
      rw [List.map_append, List.map_cons] at distinct
      exact (List.nodup_cons.mp (List.nodup_append.mp distinct).2.1).1
    rw [List.flatMap_cons, placeAll_block _ fresh first]
    exact ih others distinct

end Item

/-! Drafts without their lines. -/

def RangeNote.written (a : RangeNote) : String × Range :=
  (a.name, a.range)

def DraftInst.listing (inst : DraftInst) : ListedInst :=
  ⟨inst.result, inst.op⟩

def DraftBlock.listing (b : DraftBlock) : ListedBlock :=
  ⟨b.name, b.insts.map DraftInst.listing, b.term.map Prod.snd⟩

def Draft.listing (draft : Draft) : Listing :=
  ⟨draft.name, draft.params.map Definition.name, draft.blocks.map DraftBlock.listing⟩

namespace Draft

open Lexeme (Spells spells_nil spells_cons spells_append)

variable {ts rest : List Lexeme}

section Statement

variable {block block' : DraftBlock}

private theorem spells_of_statement (free : block.term = none)
    (read : statement block ts = .ok (block', rest)) :
    ∃ item : Item, Spells item.tokens ts rest ∧
      block.listing.add? item = some block'.listing := by
  obtain ⟨⟨⟨token, line⟩, ts₁⟩, first, h⟩ := bind_eq_ok read
  rw [next_eq_ok_iff.mp first]
  simp only at h
  split at h
  · next name =>
    obtain ⟨ts₂, second, h⟩ := bind_eq_ok h
    obtain ⟨⟨op, ts₃⟩, third, h⟩ := bind_eq_ok h
    cases h
    have equals : Spells [.equals] ts₁ ts₂ := expect_eq_ok_iff.mp second
    have operation : Spells op.tokens ts₂ ts₃ := operation_eq_ok_iff.mp third
    refine ⟨.inst ⟨some name, op⟩, ?_, ?_⟩
    · exact spells_cons.mpr ⟨line, ts₁, rfl,
        spells_append.mpr ⟨ts₂, equals, operation⟩⟩
    · simp [ListedBlock.add?, DraftBlock.listing, DraftInst.listing, free]
  · next word =>
    split at h
    · next jmp =>
      obtain ⟨⟨target, ts₂⟩, second, h⟩ := bind_eq_ok h
      cases h
      refine ⟨.ending (.jump target.name), ?_, ?_⟩
      · rw [ident_eq_ok_iff.mp second, jmp]
        simp [Item.tokens, Terminator.tokens]
      · simp [ListedBlock.add?, DraftBlock.listing, free]
    split at h
    · next br =>
      obtain ⟨⟨cond, ts₂⟩, second, h⟩ := bind_eq_ok h
      obtain ⟨ts₃, third, h⟩ := bind_eq_ok h
      obtain ⟨⟨whenTrue, ts₄⟩, fourth, h⟩ := bind_eq_ok h
      obtain ⟨ts₅, fifth, h⟩ := bind_eq_ok h
      obtain ⟨⟨whenFalse, ts₆⟩, sixth, h⟩ := bind_eq_ok h
      cases h
      have condition : Spells [cond.token] ts₁ ts₂ := operand_eq_ok_iff.mp second
      have comma : Spells [.comma] ts₂ ts₃ := expect_eq_ok_iff.mp third
      have comma' : Spells [.comma] ts₄ ts₅ := expect_eq_ok_iff.mp fifth
      refine ⟨.ending (.branch cond whenTrue.name whenFalse.name), ?_, ?_⟩
      · rw [br]
        refine spells_cons.mpr ⟨line, ts₁, rfl, spells_append.mpr ⟨ts₂, condition, ?_⟩⟩
        refine spells_append.mpr ⟨ts₃, comma, ?_⟩
        rw [ident_eq_ok_iff.mp fourth]
        refine spells_cons.mpr ⟨whenTrue.line, ts₄, rfl,
          spells_append.mpr ⟨ts₅, comma', ?_⟩⟩
        rw [ident_eq_ok_iff.mp sixth]
        simp
      · simp [ListedBlock.add?, DraftBlock.listing, free]
    split at h
    · next ret =>
      cases h
      refine ⟨.ending (.ret (returned ts₁).1), ?_, ?_⟩
      · rw [ret]
        exact spells_cons.mpr ⟨line, ts₁, rfl, spells_of_returned ts₁⟩
      · simp [ListedBlock.add?, DraftBlock.listing, free]
    · obtain ⟨⟨op, ts₂⟩, second, h⟩ := bind_eq_ok h
      cases h
      refine ⟨.inst ⟨none, op⟩, ?_, ?_⟩
      · rw [← next_eq_ok_iff.mp first]
        exact operation_eq_ok_iff.mp second
      · simp [ListedBlock.add?, DraftBlock.listing, DraftInst.listing, free]
  · cases h

private theorem statement_of_inst (block : DraftBlock) {listed : ListedInst}
    (spelled : Spells listed.tokens ts rest) :
    ∃ line, statement block ts =
      .ok ({ block with insts := block.insts ++ [⟨line, listed.result, listed.op⟩] },
        rest) := by
  obtain ⟨result, op⟩ := listed
  cases result with
  | some name =>
    obtain ⟨line, _, rfl, after⟩ := spells_cons.mp spelled
    obtain ⟨line', later, rfl, operation⟩ := spells_cons.mp after
    have read : Draft.operation later = .ok (op, rest) := operation_eq_ok_iff.mpr operation
    exact ⟨line, by simp [statement, next, expect, read]⟩
  | none =>
    have read : operation ts = .ok (op, rest) := operation_eq_ok_iff.mpr spelled
    obtain ⟨word, others, keyword, plain⟩ :
        ∃ word others, op.tokens = .ident word :: others ∧
        word ∉ ["jmp", "br", "ret"] := by
      cases op with
      | compare | copy | call => exact ⟨_, _, rfl, by decide⟩
      | binary op => exact ⟨_, _, rfl, by cases op <;> decide⟩
    rw [ListedInst.tokens, keyword] at spelled
    obtain ⟨line, later, rfl, _⟩ := spells_cons.mp spelled
    simp only [List.mem_cons, List.not_mem_nil, or_false, not_or] at plain
    exact ⟨line, by simp [statement, next, plain, read]⟩

private theorem statement_of_ending (block : DraftBlock) {term : Terminator Operand String}
    (spelled : Spells term.tokens ts rest)
    (bare : term = .ret none → returned rest = (none, rest)) :
    ∃ line, statement block ts = .ok ({ block with term := some (line, term) }, rest) := by
  cases term with
  | jump target =>
    simp only [Terminator.tokens, spells_cons, spells_nil] at spelled
    obtain ⟨line, _, rfl, line', _, rfl, rfl⟩ := spelled
    exact ⟨line, by simp [statement, next, ident]⟩
  | branch cond whenTrue whenFalse =>
    obtain ⟨line, _, rfl, after⟩ := spells_cons.mp spelled
    obtain ⟨line', later, rfl, parts⟩ := spells_cons.mp after
    have read : operand (⟨cond.token, line'⟩ :: later) = .ok (cond, later) :=
      operand_eq_ok_iff.mpr (by simp)
    simp only [List.intersperse, spells_cons, spells_nil] at parts
    obtain ⟨_, _, rfl, _, _, rfl, _, _, rfl, _, _, rfl, rfl⟩ := parts
    exact ⟨line, by simp [statement, next, read, expect, ident]⟩
  | ret value =>
    obtain ⟨line, later, rfl, after⟩ := spells_cons.mp spelled
    have read : returned later = (value, rest) := by
      cases value with
      | none =>
        obtain rfl := spells_nil.mp after
        exact bare rfl
      | some value => exact returned_of_spells after
    exact ⟨line, by simp [statement, next, read]⟩

end Statement

section Body

variable {notes : List RangeNote} {blocks : List DraftBlock}
  {block block' : DraftBlock} {t : Lexeme}

private theorem body_close (line : Nat) : body notes blocks (⟨.rightBrace, line⟩ :: rest) =
    .ok ((notes.reverse, blocks.reverse), rest) := by
  rw [body.eq_def]
  simp

private theorem body_label {name : String} (line line' : Nat)
    (fresh : blocks.any (·.name == name) = false) :
    body notes blocks (⟨.ident name, line⟩ :: ⟨.colon, line'⟩ :: rest) =
      body notes (⟨line, name, [], none⟩ :: blocks) rest := by
  rw [body.eq_def]
  simp [label?, fresh]

private theorem body_note {a : RangeNote} (word : t.token = .ident "range")
    (plain : label? (t :: ts) = none) (read : rangeNote t.line ts = .ok (a, rest)) :
    body notes blocks (t :: ts) = body (a :: notes) blocks rest := by
  rw [body.eq_def]
  simp only [word, reduceCtorEq, if_false, if_true]
  split
  · simp_all
  · split <;> simp_all

private theorem body_statement (token : t.token ∉ [.rightBrace, .ident "range"])
    (plain : label? (t :: ts) = none) (free : block.term = none)
    (read : statement block (t :: ts) = .ok (block', rest)) :
    body notes (block :: blocks) (t :: ts) = body notes (block' :: blocks) rest := by
  simp only [List.mem_cons, List.not_mem_nil, or_false, not_or] at token
  rw [body.eq_def]
  simp only [token, if_false]
  split
  · simp_all
  · simp only [free, Option.isSome_none, Bool.false_eq_true, if_false]
    split <;> simp_all

private theorem spells_of_label? {label : Definition} (read : label? ts = some (label, rest)) :
    Spells [.ident label.name, .colon] ts rest := by
  unfold label? at read
  split at read
  · cases read
    simp
  · cases read

private theorem items_of_body {result : List RangeNote × List DraftBlock}
    (read : body notes blocks ts = .ok (result, rest)) :
    ∃ items : List Item, Spells (items.flatMap Item.tokens ++ [.rightBrace]) ts rest ∧
      Item.placeAll items (blocks.map DraftBlock.listing) =
        some (result.2.map DraftBlock.listing).reverse ∧
      result.1.map RangeNote.written =
        (notes.map RangeNote.written).reverse ++ items.filterMap Item.note? := by
  fun_induction body notes blocks ts with
  | case1 => cases read
  | case2 notes blocks t ts brace =>
    obtain ⟨_, line⟩ := t
    obtain rfl := brace
    cases read
    exact ⟨[], by simp, by simp [Item.placeAll], by simp⟩
  | case3 => cases read
  | case4 notes blocks t ts _ label later labelled fresh ih =>
    obtain ⟨items, spelled, placed, noted⟩ := ih read
    refine ⟨.label label.name :: items, ?_, ?_,
      by simpa [List.filterMap_cons, Item.note?] using noted⟩
    · rw [List.flatMap_cons, List.append_assoc]
      exact spells_append.mpr ⟨later, spells_of_label? labelled, spelled⟩
    · have unused : (blocks.map DraftBlock.listing).any (·.name == label.name) = false := by
        rw [List.any_map]
        exact Bool.eq_false_iff.mpr fresh
      rw [Item.placeAll, Item.place, if_neg (by simp [unused])]
      exact placed
  | case5 => cases read
  | case6 notes blocks t ts _ plain word a later ranged ih =>
    obtain ⟨items, spelled, placed, noted⟩ := ih read
    refine ⟨.note a.name a.range :: items, ?_, placed, ?_⟩
    · rw [List.flatMap_cons, List.append_assoc]
      refine spells_append.mpr ⟨later, ?_, spelled⟩
      exact spells_cons.mpr ⟨t.line, ts, by rw [← word], spells_of_rangeNote ranged⟩
    · simpa [List.filterMap_cons, Item.note?, RangeNote.written] using noted
  | case7 => cases read
  | case8 => cases read
  | case9 => cases read
  | case10 notes t ts _ plain _ block blocks free block' later stated ih =>
    obtain ⟨items, spelled, placed, noted⟩ := ih read
    have unended : block.term = none := by simpa using free
    obtain ⟨item, written, added⟩ := spells_of_statement unended stated
    refine ⟨item :: items, ?_, ?_, ?_⟩
    · rw [List.flatMap_cons, List.append_assoc]
      exact spells_append.mpr ⟨later, written, spelled⟩
    · cases item with
      | inst | ending => simpa [Item.placeAll, Item.place, added] using placed
      | label | note => cases added
    · cases item with
      | inst | ending => simpa [List.filterMap_cons, Item.note?] using noted
      | label | note => cases added

private theorem label?_eq_none {later : List Lexeme}
    (no_colon : ∀ l ∈ later.head?, l.token ≠ .colon) :
    label? (t :: later) = none := by
  unfold label?
  split
  · next line line' rest spelled =>
    cases spelled
    exact absurd rfl (no_colon _ rfl)
  · rfl

private theorem operand_token_ne_colon (x : Operand) : x.token ≠ .colon := by
  cases x <;> exact Token.noConfusion

private theorem plain_of_inst {listed : ListedInst} (spelled : Spells listed.tokens ts rest) :
    ∃ t later, ts = t :: later ∧ t.token ∉ [.rightBrace, .ident "range"] ∧
      label? ts = none := by
  obtain ⟨first, second, others, tokens, token, no_colon⟩ : ∃ first second others,
      listed.tokens = first :: second :: others ∧ first ∉ [.rightBrace, .ident "range"] ∧
        second ≠ Token.colon := by
    obtain ⟨result, op⟩ := listed
    cases result with
    | some name => exact ⟨_, _, _, rfl, by simp, by simp⟩
    | none =>
      cases op with
      | compare pred => exact ⟨_, _, _, rfl, by simp, by simp⟩
      | binary op lhs =>
        exact ⟨_, _, _, rfl, by cases op <;> decide, operand_token_ne_colon lhs⟩
      | copy value => exact ⟨_, _, _, rfl, by simp, operand_token_ne_colon value⟩
      | call callee => exact ⟨_, _, _, rfl, by simp, by simp⟩
  simp only [tokens, spells_cons] at spelled
  obtain ⟨line, _, rfl, line', later, rfl, _⟩ := spelled
  exact ⟨_, _, rfl, token, label?_eq_none (by simpa using no_colon)⟩

private theorem plain_of_ending {term : Terminator Operand String}
    (spelled : Spells term.tokens ts rest) (ahead : ∀ l ∈ rest.head?, l.token ≠ .colon) :
    ∃ t later, ts = t :: later ∧ t.token ∉ [.rightBrace, .ident "range"] ∧
      label? ts = none := by
  obtain ⟨first, others, tokens, token, no_colon⟩ : ∃ first others,
      term.tokens = first :: others ∧ first ∉ [.rightBrace, .ident "range"] ∧
        ∀ t ∈ others.head?, t ≠ Token.colon := by
    cases term with
    | jump target => exact ⟨_, _, rfl, by simp, by simp⟩
    | branch cond => exact ⟨_, _, rfl, by simp, by simpa using operand_token_ne_colon cond⟩
    | ret value =>
      cases value with
      | none => exact ⟨_, _, rfl, by simp, by simp⟩
      | some value => exact ⟨_, _, rfl, by simp, by simpa using operand_token_ne_colon value⟩
  rw [tokens] at spelled
  obtain ⟨line, later, rfl, after⟩ := spells_cons.mp spelled
  refine ⟨_, _, rfl, token, label?_eq_none ?_⟩
  cases others with
  | nil =>
    obtain rfl := spells_nil.mp after
    exact ahead
  | cons second others =>
    obtain ⟨line', _, rfl, _⟩ := spells_cons.mp after
    simpa using no_colon

/-- A bare word or a closing brace is next, so that a return without a value ends here. -/
def WordAhead (ts : List Lexeme) : Prop :=
  ∃ t later, ts = t :: later ∧ (t.token = .rightBrace ∨ ∃ word, t.token = .ident word)

private theorem WordAhead.no_colon (ahead : WordAhead ts) :
    ∀ l ∈ ts.head?, l.token ≠ .colon := by
  obtain ⟨t, later, rfl, brace | ⟨word, named⟩⟩ := ahead <;> simp_all

private theorem WordAhead.returned_eq (ahead : WordAhead ts) : returned ts = (none, ts) := by
  obtain ⟨⟨t, line⟩, later, rfl, rfl | ⟨word, rfl⟩⟩ := ahead <;> rfl

private theorem body_step (notes : List RangeNote) {item : Item} {next : List ListedBlock}
    (spelled : Spells item.tokens ts rest)
    (placed : item.place (blocks.map DraftBlock.listing) = some next)
    (ahead : ∀ term, item = .ending term → WordAhead rest) :
    ∃ notes' blocks', body notes blocks ts = body notes' blocks' rest ∧
      blocks'.map DraftBlock.listing = next ∧
      notes'.map RangeNote.written = item.note?.toList ++ notes.map RangeNote.written := by
  cases item with
  | label name =>
    simp only [Item.tokens, spells_cons, spells_nil] at spelled
    obtain ⟨line, _, rfl, line', _, rfl, rfl⟩ := spelled
    simp only [Item.place, List.any_map] at placed
    split at placed
    · cases placed
    · next fresh =>
      cases placed
      exact ⟨notes, _, body_label line line' (Bool.eq_false_iff.mpr fresh), rfl, rfl⟩
  | note name range =>
    obtain ⟨line, _, rfl, after⟩ := spells_cons.mp spelled
    have read := rangeNote_of_spells line after
    obtain ⟨line', later, rfl, _⟩ := spells_cons.mp after
    cases placed
    exact ⟨_, blocks, body_note rfl rfl read, rfl, rfl⟩
  | inst listed =>
    obtain ⟨_, _, opened, free, rfl⟩ := Item.place_inst_eq_some_iff.mp placed
    obtain ⟨block, others, rfl, rfl, rfl⟩ := List.map_eq_cons_iff.mp opened
    obtain ⟨t, later, rfl, token, plain⟩ := plain_of_inst spelled
    obtain ⟨line, read⟩ := statement_of_inst block spelled
    have unended : block.term = none := by simpa [DraftBlock.listing] using free
    refine ⟨notes, _, body_statement token plain unended read, ?_, rfl⟩
    simp [DraftBlock.listing, DraftInst.listing]
  | ending term =>
    obtain ⟨_, _, opened, free, rfl⟩ := Item.place_ending_eq_some_iff.mp placed
    obtain ⟨block, others, rfl, rfl, rfl⟩ := List.map_eq_cons_iff.mp opened
    have word : WordAhead rest := ahead term rfl
    obtain ⟨t, later, rfl, token, plain⟩ := plain_of_ending spelled word.no_colon
    obtain ⟨line, read⟩ := statement_of_ending block spelled fun _ => word.returned_eq
    have unended : block.term = none := by simpa [DraftBlock.listing] using free
    refine ⟨notes, _, body_statement token plain unended read, ?_, rfl⟩
    simp [DraftBlock.listing]

private theorem body_of_items (notes : List RangeNote) (blocks : List DraftBlock)
    {items : List Item} {final : List ListedBlock}
    (spelled : Spells (items.flatMap Item.tokens ++ [.rightBrace]) ts rest)
    (placed : Item.placeAll items (blocks.map DraftBlock.listing) = some final) :
    ∃ result, body notes blocks ts = .ok (result, rest) ∧
      result.2.map DraftBlock.listing = final.reverse ∧
      result.1.map RangeNote.written =
        (notes.map RangeNote.written).reverse ++ items.filterMap Item.note? := by
  induction items generalizing notes blocks ts with
  | nil =>
    simp only [List.flatMap_nil, List.nil_append, spells_cons, spells_nil] at spelled
    obtain ⟨line, _, rfl, rfl⟩ := spelled
    cases placed
    exact ⟨_, body_close line, by simp, by simp⟩
  | cons item items ih =>
    rw [List.flatMap_cons, List.append_assoc] at spelled
    obtain ⟨mid, first, later⟩ := spells_append.mp spelled
    obtain ⟨next, step, others⟩ := Option.bind_eq_some_iff.mp placed
    have ahead : ∀ term, item = .ending term → WordAhead mid := by
      rintro term rfl
      obtain ⟨b, opened, _, _, rfl⟩ := Item.place_ending_eq_some_iff.mp step
      obtain ⟨token, more, tokens, word⟩ := Item.word_ahead rfl others
      rw [tokens] at later
      obtain ⟨line, more, rfl, _⟩ := spells_cons.mp later
      exact ⟨_, more, rfl, word⟩
    obtain ⟨notes', blocks', same, rfl, noted⟩ := body_step notes first step ahead
    obtain ⟨result, read, listed, found⟩ := ih notes' blocks' later others
    refine ⟨result, same.trans read, listed, ?_⟩
    rw [found, noted]
    cases said : item.note? <;> simp [said]

end Body

private theorem parameters_of_spells {params : List String}
    (spelled : Spells (.leftParen :: ((params.map Token.value).intersperse .comma ++ [.rightParen]))
      ts rest) :
    ∃ read, parenthesized .parameter (asDefinition .parameter) ts = .ok (read, rest) ∧
      read.map Definition.name = params := by
  have complete : ∀ t ∈ params.map Token.value, ∀ line,
      ∃ d, asDefinition .parameter ⟨t, line⟩ = .ok d ∧ Token.value d.name = t := by
    intro t mem line
    obtain ⟨name, _, rfl⟩ := List.mem_map.mp mem
    exact ⟨⟨line, name⟩, rfl, rfl⟩
  obtain ⟨read, parsed, same⟩ := parenthesized_of_spells .parameter complete (by simp) spelled
  have injective : Function.Injective Token.value := fun _ _ => Token.value.inj
  refine ⟨read, parsed, List.map_injective_iff.mpr injective ?_⟩
  rw [List.map_map]
  exact same

private theorem spells_header {name : String} {params : List String} :
    Spells (Listing.header name params) ts rest ↔
      ∃ line ts₁ ts₂ ts₃, ts = ⟨.ident "func", line⟩ :: ts₁ ∧
      Spells [.global name] ts₁ ts₂ ∧
      Spells (.leftParen :: ((params.map Token.value).intersperse .comma ++ [.rightParen]))
        ts₂ ts₃ ∧
      Spells [.leftBrace] ts₃ rest := by
  have pieces : Listing.header name params = .ident "func" :: ([.global name] ++
      ((.leftParen :: ((params.map Token.value).intersperse .comma ++ [.rightParen])) ++
        [.leftBrace])) := by
    simp [Listing.header]
  rw [pieces, spells_cons]
  simp only [spells_append]
  constructor
  · rintro ⟨line, ts₁, rfl, ts₂, named, ts₃, listed, opened⟩
    exact ⟨line, ts₁, ts₂, ts₃, rfl, named, listed, opened⟩
  · rintro ⟨line, ts₁, ts₂, ts₃, rfl, named, listed, opened⟩
    exact ⟨line, ts₁, rfl, ts₂, named, ts₃, listed, opened⟩

theorem spells_of_function {draft : Draft} (read : function ts = .ok (draft, rest)) :
    ∃ items : List Item,
      Spells (Listing.header draft.name (draft.params.map Definition.name) ++
        (items.flatMap Item.tokens ++ [.rightBrace])) ts rest ∧
      Item.placeAll items [] = some (draft.blocks.map DraftBlock.listing).reverse ∧
      draft.notes.map RangeNote.written = items.filterMap Item.note? := by
  obtain ⟨⟨⟨line, word⟩, ts₁⟩, first, h⟩ := bind_eq_ok read
  rw [ident_eq_ok_iff.mp first]
  dsimp only at h
  split at h
  · cases h
  · next func =>
    obtain ⟨⟨name, ts₂⟩, second, h⟩ := bind_eq_ok h
    obtain ⟨⟨params, ts₃⟩, third, h⟩ := bind_eq_ok h
    obtain ⟨ts₄, fourth, h⟩ := bind_eq_ok h
    obtain ⟨⟨⟨notes, blocks⟩, ts₅⟩, fifth, h⟩ := bind_eq_ok h
    cases h
    have named : Spells [.global name] ts₁ ts₂ := globalName_eq_ok_iff.mp second
    have listed :
        Spells (.leftParen :: (((params.map Definition.name).map Token.value).intersperse .comma
        ++ [.rightParen])) ts₂ ts₃ := by
      rw [List.map_map]
      refine spells_of_parenthesized (fun t d found => ?_) third
      rw [asDefinition_eq_ok_iff.mp found]
      rfl
    have opened : Spells [.leftBrace] ts₃ ts₄ := expect_eq_ok_iff.mp fourth
    obtain ⟨items, spelled, placed, noted⟩ := items_of_body fifth
    refine ⟨items, spells_append.mpr ⟨ts₄, ?_, spelled⟩, placed, noted⟩
    obtain rfl : word = "func" := not_not.mp func
    exact spells_header.mpr ⟨line, ts₁, ts₂, ts₃, rfl, named, listed, opened⟩

theorem function_of_spells {name : String} {params : List String} {items : List Item}
    {final : List ListedBlock}
    (spelled :
      Spells (Listing.header name params ++ (items.flatMap Item.tokens ++ [.rightBrace])) ts rest)
    (placed : Item.placeAll items [] = some final) :
    ∃ draft, function ts = .ok (draft, rest) ∧
      draft.listing = ⟨name, params, final.reverse⟩ ∧
      draft.notes.map RangeNote.written = items.filterMap Item.note? := by
  obtain ⟨inner, head, within⟩ := spells_append.mp spelled
  obtain ⟨line, ts₁, ts₂, ts₃, rfl, named, listed, opened⟩ := spells_header.mp head
  obtain ⟨read, parsed, same⟩ := parameters_of_spells listed
  obtain ⟨⟨notes, blocks⟩, ended, final_eq, noted⟩ := body_of_items [] [] within placed
  refine ⟨⟨line, name, read, notes, blocks⟩, ?_, ?_, by simpa using noted⟩
  · simp [function, ident, next, globalName_eq_ok_iff.mpr named, parsed,
      expect_eq_ok_iff.mpr opened, ended]
  · rw [Draft.listing, same, final_eq]

end Draft

end BranchTrim
