import BranchTrim.Proofs.Text.Accepted

/-!
How what was read is numbered. Names are resolved only after all of a function has been read, so
numbers could come apart from the text without any complaint. They do not: blocks are numbered in
the order of their labels, values in the order in which the text defines them, and each number
stands for what the text has at its place.
-/

set_option autoImplicit false

namespace BranchTrim

namespace Token

/-- The range notes in a text: the name of the value, and the two bounds as they are written. -/
def notes : List Token → List (String × Int64 × Int64)
  | .value name :: .leftBracket :: .int lo :: .comma :: .int hi :: .rightBracket :: ts =>
    (name, lo, hi) :: notes ts
  | _ :: ts => notes ts
  | [] => []

private theorem notes_cons {t : Token} {ts : List Token} (plain : ts.head? ≠ some .leftBracket) :
    notes (t :: ts) = notes ts := by
  rw [notes.eq_def]
  split
  · next spelled =>
    cases spelled
    exact absurd rfl plain
  · next spelled =>
    cases spelled
    rfl
  · next spelled => cases spelled

private theorem notes_append {ts more : List Token} (plain : .leftBracket ∉ ts)
    (ahead : more.head? ≠ some .leftBracket) :
    notes (ts ++ more) = notes more := by
  induction ts with
  | nil => rfl
  | cons t ts ih =>
    obtain ⟨_, others⟩ := not_or.mp (mt List.mem_cons.mpr plain)
    have next : (ts ++ more).head? ≠ some .leftBracket := by
      cases ts with
      | nil => exact ahead
      | cons u ts =>
        intro bracket
        have same : u = .leftBracket := Option.some.inj bracket
        exact others (same ▸ List.mem_cons_self)
    rw [List.cons_append, notes_cons next, ih others]

end Token

section Notes

private theorem leftBracket_ne_operand (x : Operand) : Token.leftBracket ≠ x.token := by
  cases x <;> exact Token.noConfusion

private theorem leftBracket_not_mem_operation (op : Operation Operand) :
    .leftBracket ∉ op.tokens := by
  cases op with
  | compare | binary | copy => simp [Operation.tokens, leftBracket_ne_operand]
  | call callee args =>
    have operands : Token.leftBracket ∉ args.map Operand.token := by
      simp [(leftBracket_ne_operand _).symm]
    simpa [Operation.tokens] using not_mem_intersperse Token.noConfusion operands

private theorem leftBracket_not_mem_item {item : Item} (plain : item.note? = none) :
    .leftBracket ∉ item.tokens := by
  cases item with
  | label name => simp [Item.tokens]
  | note name range => cases plain
  | inst listed =>
    obtain ⟨result, op⟩ := listed
    have operation := leftBracket_not_mem_operation op
    cases result with
    | none => exact operation
    | some name => simpa [Item.tokens, ListedInst.tokens] using operation
  | ending term =>
    cases term with
    | jump | branch => simp [Item.tokens, Terminator.tokens, leftBracket_ne_operand]
    | ret value => cases value <;> simp [Item.tokens, Terminator.tokens, leftBracket_ne_operand]

private theorem leftBracket_not_ahead (items : List Item) :
    (items.flatMap Item.tokens ++ [Token.rightBrace]).head? ≠ some .leftBracket := by
  cases items with
  | nil => exact fun same => Token.noConfusion (Option.some.inj same)
  | cons item items =>
    obtain ⟨t, ts, tokens, other⟩ : ∃ t ts, item.tokens = t :: ts ∧ t ≠ .leftBracket := by
      cases item with
      | label | note => exact ⟨_, _, rfl, Token.noConfusion⟩
      | inst listed =>
        obtain ⟨_ | name, op⟩ := listed
        · cases op <;> exact ⟨_, _, rfl, Token.noConfusion⟩
        · exact ⟨_, _, rfl, Token.noConfusion⟩
      | ending term => cases term <;> exact ⟨_, _, rfl, Token.noConfusion⟩
    simp [List.flatMap_cons, tokens, other]

private theorem notes_items (items : List Item) :
    Token.notes (items.flatMap Item.tokens ++ [.rightBrace]) =
      (items.filterMap Item.note?).map fun note => (note.1, note.2.lo, note.2.hi) := by
  induction items with
  | nil => rfl
  | cons item items ih =>
    rw [List.flatMap_cons, List.append_assoc]
    cases said : item.note? with
    | none =>
      rw [Token.notes_append (leftBracket_not_mem_item said) (leftBracket_not_ahead items), ih,
        List.filterMap_cons_none said]
    | some written =>
      cases item with
      | note name range =>
        have noted : ∀ more, Token.notes ((Item.note name range).tokens ++ more) =
            (name, range.lo, range.hi) :: Token.notes more := fun _ => rfl
        rw [noted, ih, List.filterMap_cons_some said, ← Option.some.inj said, List.map_cons]
      | label | inst | ending => cases said

private theorem Source.notes_tokens (s : Source) :
    Token.notes s.tokens = s.notes.map fun note => (note.1, note.2.lo, note.2.hi) := by
  have header : .leftBracket ∉ Listing.header s.listing.name s.listing.params := by
    have values : Token.leftBracket ∉ s.listing.params.map Token.value := by simp
    simpa [Listing.header] using not_mem_intersperse Token.noConfusion values
  rw [Source.tokens, Token.notes_append header (leftBracket_not_ahead s.items), notes_items]
  rfl

end Notes

section Places

variable {α β : Type} {l : List α} {g : α → Option β} {h : α → List β}
  {k k' : Nat} {x : β}

private theorem place_unique_of_filterMap (once : (l.filterMap g).Nodup)
    (here : l[k]?.bind g = some x) (there : l[k']?.bind g = some x) : k = k' := by
  obtain ⟨a, at_k, given⟩ := Option.bind_eq_some_iff.mp here
  obtain ⟨a', at_k', given'⟩ := Option.bind_eq_some_iff.mp there
  obtain ⟨k_lt, rfl⟩ := List.getElem?_eq_some_iff.mp at_k
  obtain ⟨k'_lt, rfl⟩ := List.getElem?_eq_some_iff.mp at_k'
  have apart := List.pairwise_iff_getElem.mp (List.pairwise_filterMap.mp once)
  rcases Nat.lt_trichotomy k k' with before | same | after
  · exact absurd rfl (apart k k' k_lt k'_lt before x given x given')
  · exact same
  · exact absurd rfl (apart k' k k'_lt k_lt after x given' x given)

private theorem place_unique_of_flatMap (once : (l.flatMap h).Nodup) {a a' : α}
    (here : l[k]? = some a) (there : l[k']? = some a') (given : x ∈ h a) (given' : x ∈ h a') :
    k = k' := by
  obtain ⟨k_lt, rfl⟩ := List.getElem?_eq_some_iff.mp here
  obtain ⟨k'_lt, rfl⟩ := List.getElem?_eq_some_iff.mp there
  have apart := List.pairwise_iff_getElem.mp (List.nodup_flatMap.mp once).2
  rcases Nat.lt_trichotomy k k' with before | same | after
  · exact absurd given' (apart k k' k_lt k'_lt before given)
  · exact same
  · exact absurd given (apart k' k k'_lt k_lt after given')

end Places

namespace Function

variable {f : Function} {i k id : Nat}

def resultAt (f : Function) (i k : Nat) : Option Nat :=
  (f.graph.block? i).bind fun b => b.insts[k]?.bind Inst.result

private theorem idxOf_nameOf (distinct : f.valueNames.Nodup) (numbered : id < f.valueNames.length) :
    f.valueNames.idxOf (f.nameOf id) = id := by
  rw [nameOf_of_getElem? (List.getElem?_eq_getElem numbered)]
  exact distinct.idxOf_getElem id numbered

/-- Values with the names that the text defines, in this order, are numbered in this order. -/
private theorem definitions_eq_range (names : f.valueNames = f.listing.names)
    (distinct : f.valueNames.Nodup) (numbered : f.Numbered) :
    f.definitions = List.range f.valueNames.length := by
  -- Both lists are told by the places of the names of their members, and the names are the same.
  have told : ∀ ids : List Nat, (∀ id ∈ ids, id < f.valueNames.length) →
      (ids.map f.nameOf).map f.valueNames.idxOf = ids := by
    intro ids inside
    rw [List.map_map]
    exact (List.map_congr_left fun id mem => idxOf_nameOf distinct (inside id mem)).trans ids.map_id
  have all : (List.range f.valueNames.length).map f.nameOf = f.valueNames := by
    apply List.ext_getElem
    · rw [List.length_map, List.length_range]
    · intro n n_lt n_lt'
      rw [List.getElem_map, List.getElem_range]
      exact nameOf_of_getElem? (List.getElem?_eq_getElem n_lt')
  calc f.definitions
      = (f.definitions.map f.nameOf).map f.valueNames.idxOf := (told _ numbered.definitions).symm
    _ = ((List.range f.valueNames.length).map f.nameOf).map f.valueNames.idxOf := by
        rw [all, ← names_listing, ← names]
    _ = List.range f.valueNames.length := told _ fun id mem => List.mem_range.mp mem

private theorem result_unique (once : f.definitions.Nodup)
    (places : ∀ i, f.graph.block? i = f.blocks[i]?) (given : f.resultAt i k = some id) :
    id ∉ f.params ∧ ∀ i' k', f.resultAt i' k' = some id → i' = i ∧ k' = k := by
  obtain ⟨_, results_once, apart⟩ := List.nodup_append'.mp once
  rw [List.filterMap_flatMap] at results_once
  have listed : ∀ i k, f.resultAt i k = some id → ∃ b, f.blocks[i]? = some b ∧
      b.insts[k]?.bind Inst.result = some id ∧ id ∈ b.insts.filterMap Inst.result := by
    intro i k given
    obtain ⟨b, found, result⟩ := Option.bind_eq_some_iff.mp given
    obtain ⟨inst, at_k, inst_result⟩ := Option.bind_eq_some_iff.mp result
    exact ⟨b, places i ▸ found, result,
      List.mem_filterMap.mpr ⟨inst, List.mem_of_getElem? at_k, inst_result⟩⟩
  obtain ⟨b, found, result, mem⟩ := listed i k given
  constructor
  · intro param
    refine apart param ?_
    rw [List.filterMap_flatMap]
    exact List.mem_flatMap.mpr ⟨b, List.mem_of_getElem? found, mem⟩
  · intro i' k' given'
    obtain ⟨b', found', result', mem'⟩ := listed i' k' given'
    obtain rfl : i' = i := place_unique_of_flatMap results_once found' found mem' mem
    obtain rfl : b' = b := Option.some.inj (found'.symm.trans found)
    have b_once := (List.nodup_flatMap.mp results_once).1 b' (List.mem_of_getElem? found)
    exact ⟨rfl, place_unique_of_filterMap b_once result' result⟩

end Function

namespace Parsed

structure WellFormed (p : Parsed) (s : Source) : Prop where
  edges : p.func.verifyEdges = .ok ()
  name : p.func.name = s.listing.name
  entry : p.func.entry = 0 ∧ ∃ b, p.func.graph.block? 0 = some b ∧
    s.listing.labels.head? = some b.name
  blockIds : p.func.blockIds = List.range s.listing.blocks.length
  blocks : ∀ i, (p.func.graph.block? i).map p.func.listBlock = s.listing.blocks[i]?
  labels_distinct : s.listing.labels.Nodup
  params : p.func.params = List.range s.listing.params.length
  values : p.func.definitions = List.range p.func.valueNames.length
  valueNames : p.func.valueNames = s.listing.names
  names_distinct : p.func.valueNames.Nodup
  results : ∀ i k id, p.func.resultAt i k = some id →
    id ∉ p.func.params ∧ ∀ i' k', p.func.resultAt i' k' = some id → i' = i ∧ k' = k
  mentions : p.func.Numbered
  notes : p.ranges.map (fun note => (p.func.nameOf note.1, note.2.lo, note.2.hi)) =
    Token.notes s.tokens
  notes_numbered : ∀ note ∈ p.ranges, note.1 < p.func.valueNames.length
  notes_ordered : ∀ note ∈ Token.notes s.tokens, note.2.1 ≤ note.2.2

end Parsed

namespace Draft

variable {draft : Draft} {blocks : List Block} {p : Parsed}

private theorem Settles.block? (settled : draft.Settles blocks p) (i : Nat) :
    p.func.graph.block? i = p.func.blocks[i]? := by
  rw [settled.blocks_eq, settled.graph, Graph.block?_ofBlocks]

private theorem Settles.blockIds (settled : draft.Settles blocks p) :
    p.func.blockIds = List.range p.func.blocks.length := by
  have cells : p.func.graph.cells.length = blocks.length := by
    rw [settled.graph]
    exact List.length_map some
  rw [settled.blocks_eq, Function.blockIds, Graph.ids, cells]
  refine List.filter_eq_self.mpr fun i mem => ?_
  rw [settled.graph, Graph.contains_ofBlocks]
  exact List.mem_range.mp mem

private theorem Settles.notes (settled : draft.Settles blocks p) :
    p.ranges.map (fun note => (p.func.nameOf note.1, note.2)) =
      draft.notes.map RangeNote.written ∧
      ∀ note ∈ p.ranges, note.1 < p.func.valueNames.length := by
  have place : ∀ a note, resolveNote draft.names a = .ok note →
      p.func.valueNames[note.1]? = some a.name ∧ note.2 = a.range := by
    intro a note resolved
    obtain ⟨id, found, done⟩ := bind_eq_ok resolved
    cases done
    rw [settled.valueNames]
    exact ⟨getElem?_of_valueId found, rfl⟩
  constructor
  · refine map_eq_of_mapM (fun a note resolved => ?_) settled.ranges
    obtain ⟨named, range⟩ := place a note resolved
    rw [Function.nameOf_of_getElem? named, range]
    rfl
  · intro note mem
    obtain ⟨a, _, resolved⟩ := exists_of_mem_mapM settled.ranges mem
    exact (List.getElem?_eq_some_iff.mp (place a note resolved).1).1

private theorem wellFormed_of_resolve {s : Source} (valid : s.Valid) (drafts : s.Drafts draft)
    (resolved : draft.resolve = .ok p) : p.WellFormed s := by
  obtain ⟨blocks, _, settled⟩ := settles_of_resolve resolved
  obtain ⟨listed, numbered⟩ := listing_of_resolve resolved
  rw [drafts.listing] at listed
  have block_list : p.func.blocks.map p.func.listBlock = s.listing.blocks :=
    congrArg Listing.blocks listed
  have labels : p.func.blocks.map Block.name = s.listing.labels := by
    rw [← listed, Function.labels_listing]
  have names : p.func.valueNames = p.func.listing.names := valueNames_of_resolve resolved
  have names_distinct : p.func.valueNames.Nodup := by
    rw [names, listed]
    exact valid.names_distinct
  have values := Function.definitions_eq_range names names_distinct numbered
  obtain ⟨noted, notes_numbered⟩ := settled.notes
  rw [drafts.notes] at noted
  have notes : p.ranges.map (fun note => (p.func.nameOf note.1, note.2.lo, note.2.hi)) =
      Token.notes s.tokens := by
    rw [s.notes_tokens, ← noted, List.map_map]
    rfl
  refine ⟨?_, ?_, ⟨rfl, ?_⟩, ?_, ?_, valid.labels_distinct, ?_, values, ?_,
    names_distinct, ?_, numbered, notes, notes_numbered, ?_⟩
  · exact Function.verifyEdges_eq_ok_iff.mpr (consistent_resolve resolved)
  · rw [← listed]
    rfl
  · obtain ⟨b, found⟩ := Graph.contains_iff.mp p.func.entry_live
    refine ⟨b, found, ?_⟩
    rw [← labels, List.head?_map, List.head?_eq_getElem?, ← settled.block?]
    exact congrArg (Option.map Block.name) found
  · rw [settled.blockIds, ← block_list, List.length_map]
  · intro i
    rw [settled.block?, ← block_list, List.getElem?_map]
  · rw [settled.params, ← listed]
    simp [Function.listing, settled.params]
  · rw [names, listed]
  · intro i k id given
    exact Function.result_unique (values ▸ List.nodup_range) settled.block? given
  · intro note mem
    rw [s.notes_tokens] at mem
    obtain ⟨⟨name, range⟩, _, rfl⟩ := List.mem_map.mp mem
    exact range.lo_le_hi

end Draft

namespace Parsed

/--
Every function that is read from a text is well formed. Its edges agree with its terminators; its
blocks are numbered from the entry on in the order of the labels, and its values in the order in
which the text defines them; no two blocks and no two values share a name; each result belongs to
one instruction; what is mentioned or noted is there; and the bounds of the notes are in order.
-/
theorem read_functions_well_formed {text : String} {functions : List Parsed}
    (read : readAll text = .ok functions) :
    ∃ (lexemes : List Lexeme) (sources : List Source), Lexeme.ofText text = .ok lexemes ∧
      lexemes.map Lexeme.token = sources.flatMap Source.tokens ∧
      List.Forall₂ (fun s p => s.WellBuilt ∧ p.WellFormed s) sources functions := by
  obtain ⟨lexemes, scanned, parsed⟩ := bind_eq_ok read
  obtain ⟨sources, tokens, all⟩ := drafts_of_ofLexemes parsed
  refine ⟨lexemes, sources, scanned, tokens, all.imp ?_⟩
  rintro s p ⟨valid, draft, drafts, resolved⟩
  exact ⟨valid.toWellBuilt, Draft.wellFormed_of_resolve valid drafts resolved⟩

/-- A text that uses a value and a label before it gives them. -/
def lateNames : String :=
  "func @(%) \x7b range: range %r [-9, 3] jmp b b: %s = copy %r %r = copy % ret \x7d"

theorem read_functions_well_formed_lateNames :
    ∃ functions, readAll lateNames = .ok functions ∧ functions.length = 1 ∧
      ∃ (lexemes : List Lexeme) (sources : List Source), Lexeme.ofText lateNames = .ok lexemes ∧
        lexemes.map Lexeme.token = sources.flatMap Source.tokens ∧
        List.Forall₂ (fun s p => s.WellBuilt ∧ p.WellFormed s) sources functions := by
  have evaluated : (readAll lateNames).toOption.map List.length = some 1 := by decide +kernel
  cases read : readAll lateNames with
  | error e => simp [read, Except.toOption] at evaluated
  | ok functions =>
    rw [read] at evaluated
    exact ⟨functions, rfl, Option.some.inj evaluated, read_functions_well_formed read⟩

end Parsed

end BranchTrim
