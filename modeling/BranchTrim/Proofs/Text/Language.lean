import BranchTrim.Proofs.Text.RoundTrip

/-!
The language of program text. A text is accepted if and only if its tokens are those of a list of
functions that keep the rules: apart from notes, the items of a function make up whole blocks, and
labels and names are given once and given whenever they are used. What the reader leaves for later,
such as a missing terminator, is caught when names are resolved.
-/

set_option autoImplicit false

namespace BranchTrim

section Returns

variable {α β γ δ ε : Type} {k : α → Except ε β} {l : γ → Except ε δ}

private theorem Operation.exists_mapOperands_iff {op : Operation α} :
    (∃ op', op.mapOperands k = .ok op') ↔ ∀ x ∈ op.operands, ∃ y, k x = .ok y := by
  cases op with
  | compare | binary | copy => simp [mapOperands, operands, exists_bind_iff]
  | call callee args => simp [mapOperands, operands, exists_bind_iff, exists_mapM_iff]

private theorem Terminator.exists_mapParts_iff {term : Terminator α γ} :
    (∃ term', term.mapParts k l = .ok term') ↔
      (∀ x ∈ term.values, ∃ y, k x = .ok y) ∧
        ∀ t ∈ term.targets, ∃ u, l t = .ok u := by
  cases term with
  | jump | branch => simp [mapParts, values, targets, arms, exists_bind_iff]
  | ret value =>
    cases value with
    | none => simp [mapParts, values, targets, arms]
    | some value => simp [mapParts, values, targets, arms, exists_bind_iff]

end Returns

/-! The names that a listing uses, and the labels that it leads to. -/

def Operand.name? : Operand → Option String
  | named name => some name
  | const _ => none

def ListedInst.uses (inst : ListedInst) : List String :=
  inst.op.operands.filterMap Operand.name?

def ListedBlock.uses (b : ListedBlock) : List String :=
  b.insts.flatMap ListedInst.uses ++
    (b.term.toList.flatMap Terminator.values).filterMap Operand.name?

def ListedBlock.targets (b : ListedBlock) : List String :=
  b.term.toList.flatMap Terminator.targets

def Listing.labels (l : Listing) : List String :=
  l.blocks.map ListedBlock.name

namespace Draft

variable {names labels : List String} {line : Nat}

private theorem isSome_findIdx?_iff {name : String} :
    (names.findIdx? (· == name)).isSome = true ↔ name ∈ names := by
  simp

private theorem valueId_returns_iff {name : String} :
    (∃ id, valueId names line name = .ok id) ↔ name ∈ names := by
  rw [← isSome_findIdx?_iff, valueId]
  cases names.findIdx? (· == name) <;> simp

private theorem blockId_returns_iff {label : String} :
    (∃ i, blockId labels line label = .ok i) ↔ label ∈ labels := by
  rw [← isSome_findIdx?_iff, blockId]
  cases labels.findIdx? (· == label) <;> simp

private theorem resolveOperand_returns_iff {x : Operand} :
    (∃ v, resolveOperand names line x = .ok v) ↔ ∀ name ∈ x.name?, name ∈ names := by
  cases x with
  | named name => simp [resolveOperand, Operand.name?, exists_bind_iff, valueId_returns_iff]
  | const word => simp [resolveOperand, Operand.name?]

private theorem resolveInst_returns_iff {inst : DraftInst} :
    (∃ inst', resolveInst names inst = .ok inst') ↔
      (∀ name ∈ inst.listing.uses, name ∈ names) ∧
        ∀ name ∈ inst.result, name ∈ names := by
  have operands : (∃ op, inst.op.mapOperands (resolveOperand names inst.line) = .ok op) ↔
      ∀ name ∈ inst.listing.uses, name ∈ names := by
    simp only [Operation.exists_mapOperands_iff, resolveOperand_returns_iff, ListedInst.uses,
      DraftInst.listing, List.forall_mem_filterMap, Option.mem_def]
  have result : (∃ r, inst.result.mapM (valueId names inst.line) = .ok r) ↔
      ∀ name ∈ inst.result, name ∈ names := by
    cases inst.result with
    | none => simp
    | some name => simp [exists_bind_iff, valueId_returns_iff]
  rw [← operands, ← result]
  simp [resolveInst, exists_bind_iff]

private theorem resolveBlock_returns_iff {b : DraftBlock} :
    (∃ b', resolveBlock names labels b = .ok b') ↔
      b.listing.term.isSome = true ∧ (∀ name ∈ b.listing.uses, name ∈ names) ∧
        (∀ inst ∈ b.insts, ∀ name ∈ inst.result, name ∈ names) ∧
        ∀ label ∈ b.listing.targets, label ∈ labels := by
  obtain ⟨line, name, insts, term⟩ := b
  have statements : (∃ insts', insts.mapM (resolveInst names) = .ok insts') ↔
      (∀ name ∈ (insts.map DraftInst.listing).flatMap ListedInst.uses, name ∈ names) ∧
        ∀ inst ∈ insts, ∀ name ∈ inst.result, name ∈ names := by
    simp only [exists_mapM_iff, resolveInst_returns_iff, List.flatMap_map, List.forall_mem_flatMap]
    exact forall₂_and
  simp only [DraftBlock.listing, ListedBlock.uses, ListedBlock.targets, List.forall_mem_append]
  cases term with
  | none => simp [resolveBlock, exists_bind_iff]
  | some ending =>
    obtain ⟨line', term⟩ := ending
    have parts :
        (∃ term', term.mapParts (resolveOperand names line') (blockId labels line') =
          .ok term') ↔
        (∀ name ∈ term.values.filterMap Operand.name?, name ∈ names) ∧
          ∀ label ∈ term.targets, label ∈ labels := by
      simp only [Terminator.exists_mapParts_iff, resolveOperand_returns_iff, blockId_returns_iff,
        List.forall_mem_filterMap, Option.mem_def]
    have both :
        (∃ b', resolveBlock names labels ⟨line, name, insts, some (line', term)⟩ = .ok b') ↔
        (∃ insts', insts.mapM (resolveInst names) = .ok insts') ∧
          ∃ term', term.mapParts (resolveOperand names line') (blockId labels line') =
            .ok term' := by
      simp [resolveBlock, exists_bind_iff]
    rw [both, statements, parts]
    simp only [Option.map_some, Option.isSome_some, Option.toList_some, List.flatMap_cons,
      List.flatMap_nil, List.append_nil, true_and]
    constructor
    · rintro ⟨⟨used, given⟩, read, led⟩
      exact ⟨⟨used, read⟩, given, led⟩
    · rintro ⟨⟨used, read⟩, given, led⟩
      exact ⟨⟨used, given⟩, read, led⟩

private theorem checked_of_resolve {draft : Draft} {p : Parsed} (resolved : draft.resolve = .ok p) :
    draft.blocks ≠ [] ∧ checkDistinct [] draft.definitions = .ok () := by
  unfold resolve at resolved
  split at resolved
  · cases resolved
  · next first rest split =>
    obtain ⟨_, distinct, _⟩ := bind_eq_ok resolved
    exact ⟨by simp [split], distinct⟩

variable (draft : Draft)

theorem labels_listing : draft.listing.labels = draft.labels := by
  rw [Listing.labels, listing, List.map_map]
  rfl

private theorem mem_names_of_result {b : DraftBlock} (mem : b ∈ draft.blocks) {inst : DraftInst}
    (listed : inst ∈ b.insts) {name : String} (given : name ∈ inst.result) :
    name ∈ draft.names := by
  rw [← draft.names_listing]
  refine List.mem_append_right _ (List.mem_filterMap.mpr ⟨inst.listing, ?_, given⟩)
  refine List.mem_flatMap.mpr ⟨b.listing, List.mem_map_of_mem mem, ?_⟩
  exact List.mem_map_of_mem listed

private theorem resolveBlocks_return_iff :
    (∃ blocks, draft.blocks.mapM (resolveBlock draft.names draft.labels) = .ok blocks) ↔
      (∀ b ∈ draft.listing.blocks, b.term.isSome = true) ∧
        (∀ b ∈ draft.listing.blocks, ∀ name ∈ b.uses, name ∈ draft.names) ∧
        ∀ b ∈ draft.listing.blocks, ∀ label ∈ b.targets, label ∈ draft.labels := by
  simp only [exists_mapM_iff, resolveBlock_returns_iff, listing, List.forall_mem_map]
  constructor
  · intro each
    exact ⟨fun b mem => (each b mem).1, fun b mem => (each b mem).2.1,
      fun b mem => (each b mem).2.2.2⟩
  · rintro ⟨ended, used, led⟩ b mem
    refine ⟨ended b mem, used b mem, ?_, led b mem⟩
    intro inst listed name given
    exact draft.mem_names_of_result mem listed given

private theorem resolveNotes_return_iff :
    (∃ ranges, draft.notes.mapM (resolveNote draft.names) = .ok ranges) ↔
      ∀ note ∈ draft.notes.map RangeNote.written, note.1 ∈ draft.names := by
  simp [exists_mapM_iff, resolveNote, exists_bind_iff, valueId_returns_iff, RangeNote.written]

/-- What has to hold for the names of a draft to be resolved. -/
private theorem resolve_returns_iff :
    (∃ p, draft.resolve = .ok p) ↔
      draft.listing.blocks ≠ [] ∧ (∀ b ∈ draft.listing.blocks, b.term.isSome = true) ∧
        draft.listing.names.Nodup ∧
        (∀ b ∈ draft.listing.blocks, ∀ name ∈ b.uses, name ∈ draft.listing.names) ∧
        (∀ b ∈ draft.listing.blocks, ∀ label ∈ b.targets,
          label ∈ draft.listing.labels) ∧
        ∀ note ∈ draft.notes.map RangeNote.written, note.1 ∈ draft.listing.names := by
  have distinct : checkDistinct [] draft.definitions = .ok () ↔ draft.names.Nodup := by
    simp [checkDistinct_eq_ok_iff, names]
  have nonempty : draft.listing.blocks ≠ [] ↔ draft.blocks ≠ [] := by
    simp [listing]
  rw [nonempty, draft.names_listing, draft.labels_listing]
  constructor
  · rintro ⟨p, done⟩
    obtain ⟨some_block, once⟩ := checked_of_resolve done
    obtain ⟨blocks, resolved, settled⟩ := settles_of_resolve done
    obtain ⟨ended, used, led⟩ := draft.resolveBlocks_return_iff.mp ⟨blocks, resolved⟩
    have known := draft.resolveNotes_return_iff.mp ⟨p.ranges, settled.ranges⟩
    exact ⟨some_block, ended, distinct.mp once, used, led, known⟩
  · rintro ⟨some_block, ended, once, used, led, known⟩
    obtain ⟨blocks, resolved⟩ := draft.resolveBlocks_return_iff.mpr ⟨ended, used, led⟩
    obtain ⟨ranges, ranged⟩ := draft.resolveNotes_return_iff.mpr known
    obtain ⟨p, done, _⟩ := resolve_of_mapM some_block (distinct.mpr once) resolved ranged
    exact ⟨p, done⟩

end Draft

namespace Item

variable {items : List Item} {blocks final : List ListedBlock}

private theorem placeAll_filter (items : List Item) (blocks : List ListedBlock) :
    placeAll (items.filter (·.note?.isNone)) blocks = placeAll items blocks := by
  induction items generalizing blocks with
  | nil => rfl
  | cons item items ih =>
    have later : placeAll (items.filter (·.note?.isNone)) = placeAll items := funext ih
    cases item with
    | label | inst | ending => rw [List.filter_cons_of_pos rfl, placeAll, placeAll, later]
    | note name range =>
      rw [List.filter_cons_of_neg (by simp [note?]), later]
      rfl

private theorem nodup_of_placeAll (placed : placeAll items blocks = some final)
    (distinct : (blocks.map ListedBlock.name).Nodup) : (final.map ListedBlock.name).Nodup := by
  induction items generalizing blocks with
  | nil =>
    cases placed
    exact distinct
  | cons item items ih =>
    obtain ⟨next, step, others⟩ := Option.bind_eq_some_iff.mp placed
    apply ih others
    cases item with
    | label name =>
      simp only [place] at step
      split at step
      · cases step
      · next fresh =>
        cases step
        refine List.nodup_cons.mpr ⟨?_, distinct⟩
        simpa using fresh
    | note name range =>
      cases step
      exact distinct
    | inst listed =>
      obtain ⟨b, others, rfl, _, rfl⟩ := place_inst_eq_some_iff.mp step
      exact distinct
    | ending term =>
      obtain ⟨b, others, rfl, _, rfl⟩ := place_ending_eq_some_iff.mp step
      exact distinct

end Item

theorem Draft.nodup_labels_of_function {ts rest : List Lexeme} {draft : Draft}
    (drafted : Draft.function ts = .ok (draft, rest)) : draft.listing.labels.Nodup := by
  obtain ⟨items, _, placed, _⟩ := Draft.spells_of_function drafted
  have kept := Item.nodup_of_placeAll placed List.nodup_nil
  rwa [List.map_reverse, List.nodup_reverse] at kept

/-- A function as a text spells it: what it lists, and its items with the notes that
stand between them. -/
structure Source where
  listing : Listing
  items : List Item

namespace Source

def tokens (s : Source) : List Token :=
  Listing.header s.listing.name s.listing.params ++ (s.items.flatMap Item.tokens ++ [.rightBrace])

def notes (s : Source) : List (String × Range) :=
  s.items.filterMap Item.note?

/-- Notes apart, the items are those of one or more whole blocks with labels of their own. -/
structure WellBuilt (s : Source) : Prop where
  items_eq : s.items.filter (·.note?.isNone) = s.listing.items
  nonempty : s.listing.blocks ≠ []
  ended : ∀ b ∈ s.listing.blocks, b.term.isSome = true
  labels_distinct : s.listing.labels.Nodup

/-- No two values share a name, and every name that is used, noted or led to is given
in the function. -/
structure Closed (s : Source) : Prop where
  names_distinct : s.listing.names.Nodup
  uses_named : ∀ b ∈ s.listing.blocks, ∀ name ∈ b.uses, name ∈ s.listing.names
  notes_named : ∀ note ∈ s.notes, note.1 ∈ s.listing.names
  targets_labelled : ∀ b ∈ s.listing.blocks, ∀ label ∈ b.targets, label ∈ s.listing.labels

/-- What the language asks of a function. That the bounds of a note are in order is part
of its range. -/
structure Valid (s : Source) : Prop extends s.WellBuilt, s.Closed

open Lexeme (Spells spells_nil spells_append)

variable {s : Source} {ts rest : List Lexeme}

private theorem placeAll_of_wellBuilt (built : s.WellBuilt) :
    Item.placeAll s.items [] = some s.listing.blocks.reverse := by
  have distinct : ((s.listing.blocks.reverse ++ []).map ListedBlock.name).Nodup := by
    rw [List.append_nil, List.map_reverse, List.nodup_reverse]
    exact built.labels_distinct
  have placed := Item.placeAll_items built.ended distinct
  rw [← Item.placeAll_filter, built.items_eq]
  simpa [Listing.items] using placed

private theorem drafted_of_wellBuilt (built : s.WellBuilt) (spelled : Spells s.tokens ts rest) :
    ∃ draft, Draft.function ts = .ok (draft, rest) ∧
      ((∃ p, draft.resolve = .ok p) ↔ s.Closed) := by
  obtain ⟨draft, drafted, listed, noted⟩ :=
    Draft.function_of_spells spelled (placeAll_of_wellBuilt built)
  rw [List.reverse_reverse] at listed
  have listed : draft.listing = s.listing := listed
  refine ⟨draft, drafted, ?_⟩
  rw [draft.resolve_returns_iff, listed, noted]
  constructor
  · rintro ⟨_, _, once, used, targets, known⟩
    exact ⟨once, used, known, targets⟩
  · intro closed
    exact ⟨built.nonempty, built.ended, closed.names_distinct, closed.uses_named,
      closed.targets_labelled, closed.notes_named⟩

structure Drafts (s : Source) (draft : Draft) : Prop where
  listing : draft.listing = s.listing
  notes : draft.notes.map RangeNote.written = s.notes

private theorem valid_of_resolve {draft : Draft} {p : Parsed}
    (drafted : Draft.function ts = .ok (draft, rest)) (resolved : draft.resolve = .ok p) :
    ∃ s : Source, Spells s.tokens ts rest ∧ s.Valid ∧ s.Drafts draft := by
  obtain ⟨items, spelled, placed, noted⟩ := Draft.spells_of_function drafted
  obtain ⟨nonempty, ended, once, used, targets, known⟩ :=
    draft.resolve_returns_iff.mp ⟨p, resolved⟩
  have items_eq : items.filter (·.note?.isNone) = draft.listing.items := by
    have kept := Item.items_of_placeAll placed
    simpa [Listing.items, Draft.listing] using kept.symm
  have distinct := Draft.nodup_labels_of_function drafted
  refine ⟨⟨draft.listing, items⟩, spelled, ?_, rfl, noted⟩
  rw [noted] at known
  exact {
    items_eq := items_eq
    nonempty := nonempty
    ended := ended
    labels_distinct := distinct
    names_distinct := once
    uses_named := used
    notes_named := known
    targets_labelled := targets }

end Source

def Token.InLanguage (tokens : List Token) : Prop :=
  ∃ sources : List Source, tokens = sources.flatMap Source.tokens ∧ ∀ s ∈ sources, s.Valid

namespace Parsed

open Lexeme (Spells spells_nil spells_append)

variable {ts rest : List Lexeme}

private theorem ofLexemes_returns_cons {draft : Draft}
    (drafted : Draft.function ts = .ok (draft, rest)) :
    (∃ functions, ofLexemes ts = .ok functions) ↔
      (∃ p, draft.resolve = .ok p) ∧ ∃ functions, ofLexemes rest = .ok functions := by
  constructor
  · rintro ⟨functions, read⟩
    cases ts with
    | nil => cases drafted
    | cons t ts =>
      rw [ofLexemes] at read
      split at read
      · cases read
      · next draft' rest' drafted' =>
        cases drafted.symm.trans drafted'
        obtain ⟨p, resolved, read⟩ := bind_eq_ok read
        obtain ⟨later, others, _⟩ := bind_eq_ok read
        exact ⟨⟨p, resolved⟩, later, others⟩
  · rintro ⟨⟨p, resolved⟩, later, others⟩
    exact ⟨p :: later, ofLexemes_cons drafted resolved others⟩

theorem ofLexemes_returns_iff {sources : List Source} (built : ∀ s ∈ sources, s.WellBuilt)
    (spelled : Spells (sources.flatMap Source.tokens) ts []) :
    (∃ functions, ofLexemes ts = .ok functions) ↔ ∀ s ∈ sources, s.Closed := by
  induction sources generalizing ts with
  | nil =>
    obtain rfl := spells_nil.mp spelled
    simp [ofLexemes]
  | cons s sources ih =>
    obtain ⟨first, others⟩ := List.forall_mem_cons.mp built
    obtain ⟨mid, front, later⟩ := spells_append.mp spelled
    obtain ⟨draft, drafted, resolved⟩ := Source.drafted_of_wellBuilt first front
    rw [ofLexemes_returns_cons drafted, resolved, ih others later, List.forall_mem_cons]

/-- What was read comes, one function after the other, from drafts of valid functions that
the tokens spell. -/
theorem drafts_of_ofLexemes {functions : List Parsed} (read : ofLexemes ts = .ok functions) :
    ∃ sources : List Source, ts.map Lexeme.token = sources.flatMap Source.tokens ∧
      List.Forall₂ (fun s p => s.Valid ∧ ∃ draft, s.Drafts draft ∧ draft.resolve = .ok p)
        sources functions := by
  fun_induction ofLexemes ts generalizing functions with
  | case1 =>
    cases read
    exact ⟨[], rfl, .nil⟩
  | case2 => cases read
  | case3 t ts draft rest drafted ih =>
    obtain ⟨p, resolved, read⟩ := bind_eq_ok read
    obtain ⟨later, others, read⟩ := bind_eq_ok read
    cases read
    obtain ⟨s, ⟨used, split, spelled⟩, valid, drafts⟩ :=
      Source.valid_of_resolve drafted resolved
    obtain ⟨sources, tokens, all⟩ := ih others
    refine ⟨s :: sources, ?_, .cons ⟨valid, draft, drafts, resolved⟩ all⟩
    rw [split, List.map_append, spelled, tokens, List.flatMap_cons]

theorem sources_of_ofLexemes {functions : List Parsed} (read : ofLexemes ts = .ok functions) :
    ∃ sources : List Source, ts.map Lexeme.token = sources.flatMap Source.tokens ∧
      List.Forall₂ (fun s p => s.Valid ∧ s.listing = p.func.listing) sources functions := by
  obtain ⟨sources, tokens, all⟩ := drafts_of_ofLexemes read
  refine ⟨sources, tokens, all.imp ?_⟩
  rintro s p ⟨valid, draft, drafts, resolved⟩
  exact ⟨valid, drafts.listing.symm.trans (Draft.listing_of_resolve resolved).1.symm⟩

/--
A text that can be cut into tokens is accepted if and only if the tokens are those of functions that
keep the rules of the language.
-/
theorem accepts_exactly_language {text : String} {source : List Lexeme}
    (scanned : Lexeme.ofText text = .ok source) :
    (∃ functions, readAll text = .ok functions) ↔
      Token.InLanguage (source.map Lexeme.token) := by
  have reads : (∃ functions, readAll text = .ok functions) ↔
      ∃ functions, ofLexemes source = .ok functions := by
    simp [readAll, scanned]
  rw [reads]
  constructor
  · rintro ⟨functions, read⟩
    obtain ⟨sources, tokens, all⟩ := sources_of_ofLexemes read
    exact ⟨sources, tokens, ((List.forall₂_and_left _ _).mp all).1⟩
  · rintro ⟨sources, tokens, valid⟩
    have spelled : Spells (sources.flatMap Source.tokens) source [] :=
      ⟨source, (List.append_nil source).symm, tokens⟩
    have built : ∀ s ∈ sources, s.WellBuilt := fun s mem => (valid s mem).toWellBuilt
    exact (ofLexemes_returns_iff built spelled).mpr fun s mem => (valid s mem).toClosed

/-- A text with a note in a block whose label looks like the start of a note. -/
def notedSpin : String :=
  "func @(%) \x7b range: range % [-9, 3] jmp range \x7d"

def strayNote : String :=
  "func @(%) \x7b range: range %x [-9, 3] jmp range \x7d"

theorem accepts_exactly_language_strayNote :
    (∃ source, Lexeme.ofText notedSpin = .ok source ∧
      Token.InLanguage (source.map Lexeme.token)) ∧
      ∃ source, Lexeme.ofText strayNote = .ok source ∧
        ¬ Token.InLanguage (source.map Lexeme.token) := by
  have accepted : (readAll notedSpin).isOk = true := by decide +kernel
  have refused : (readAll strayNote).isOk = false := by decide +kernel
  have cut : (Lexeme.ofText strayNote).isOk = true := by decide +kernel
  constructor
  · cases read : readAll notedSpin with
    | error e => simp [read, Except.isOk, Except.toBool] at accepted
    | ok functions =>
      obtain ⟨source, scanned, _⟩ := bind_eq_ok read
      exact ⟨source, scanned, (accepts_exactly_language scanned).mp ⟨functions, read⟩⟩
  · cases scanned : Lexeme.ofText strayNote with
    | error e => simp [scanned, Except.isOk, Except.toBool] at cut
    | ok source =>
      refine ⟨source, rfl, fun inside => ?_⟩
      obtain ⟨functions, read⟩ := (accepts_exactly_language scanned).mpr inside
      simp [read, Except.isOk, Except.toBool] at refused

end Parsed

end BranchTrim
