import BranchTrim.Proofs.Flow.Reach
import BranchTrim.Proofs.Text.Language

/-!
Functions whose text is accepted. A function that is legible, with names that can be read and with
one value or block for each name, has a text that is accepted if and only if every value that it
reads is defined in it. Every function that was read is of this kind. What comes back from the text
passes the full check if the function did.
-/

set_option autoImplicit false

namespace BranchTrim

private theorem Operation.operands_map {ν μ : Type} (h : ν → μ) (op : Operation ν) :
    (op.map h).operands = op.operands.map h := by
  cases op <;> rfl

private theorem Operation.callee?_map {ν μ : Type} (h : ν → μ) (op : Operation ν) :
    (op.map h).callee? = op.callee? := by
  cases op <;> rfl

private theorem Terminator.values_map {ν μ β γ : Type} (h : ν → μ) (k : β → γ)
    (term : Terminator ν β) :
    (term.map h k).values = term.values.map h := by
  cases term with
  | jump | branch => rfl
  | ret value => cases value <;> rfl

private theorem Terminator.targets_map {ν μ β γ : Type} (h : ν → μ) (k : β → γ)
    (term : Terminator ν β) :
    (term.map h k).targets = term.targets.map k := by
  cases term <;> rfl

private theorem Operation.token_mem {op : Operation Operand} {x : Operand}
    (mem : x ∈ op.operands) :
    x.token ∈ op.tokens := by
  have listed : x.token ∈ op.operands.map Operand.token := List.mem_map_of_mem mem
  have separated : x.token ∈ (op.operands.map Operand.token).intersperse .comma :=
    mem_intersperse_of_mem listed
  cases op with
  | compare => exact List.mem_cons_of_mem _ (List.mem_cons_of_mem _ separated)
  | binary => exact List.mem_cons_of_mem _ separated
  | copy => exact List.mem_cons_of_mem _ listed
  | call =>
    refine List.mem_cons_of_mem _ (List.mem_cons_of_mem _ (List.mem_cons_of_mem _ ?_))
    exact List.mem_append_left _ separated

private theorem Operation.callee_mem {op : Operation Operand} {callee : String}
    (called : op.callee? = some callee) :
    .global callee ∈ op.tokens := by
  cases op with
  | call name args =>
    cases called
    simp [Operation.tokens]
  | compare | binary | copy => cases called

private theorem Terminator.token_mem {term : Terminator Operand String} {x : Operand}
    (mem : x ∈ term.values) :
    x.token ∈ term.tokens := by
  cases term with
  | jump => cases mem
  | branch cond whenTrue whenFalse =>
    obtain rfl := List.mem_singleton.mp mem
    simp [Terminator.tokens]
  | ret value => exact List.mem_cons_of_mem _ (List.mem_map_of_mem mem)

private theorem ListedInst.mem_tokens {listed : ListedInst} {t : Token}
    (mem : t ∈ listed.op.tokens) :
    t ∈ listed.tokens := by
  obtain ⟨result, op⟩ := listed
  cases result with
  | none => exact mem
  | some name => exact List.mem_cons_of_mem _ (List.mem_cons_of_mem _ mem)

def Block.uses (b : Block) : List Nat :=
  b.insts.flatMap (fun inst => inst.op.operands.flatMap Value.ids) ++
    b.term.values.flatMap Value.ids

private theorem Block.mem_mentions {b : Block} {id : Nat} :
    id ∈ b.mentions ↔ (∃ inst ∈ b.insts, inst.result = some id) ∨ id ∈ b.uses := by
  simp only [mentions, uses, Inst.mentions, List.mem_append, List.mem_flatMap, Option.mem_toList]
  constructor
  · rintro (⟨inst, mem, result | operand⟩ | term)
    · exact Or.inl ⟨inst, mem, result⟩
    · exact Or.inr (Or.inl ⟨inst, mem, operand⟩)
    · exact Or.inr (Or.inr term)
  · rintro (⟨inst, mem, result⟩ | ⟨inst, mem, operand⟩ | term)
    · exact Or.inl ⟨inst, mem, Or.inl result⟩
    · exact Or.inl ⟨inst, mem, Or.inr operand⟩
    · exact Or.inr term

namespace Function

variable {f g : Function}

def UsesDefined (f : Function) : Prop :=
  ∀ b ∈ f.blocks, ∀ id ∈ b.uses, id ∈ f.definitions

/-- What the text format asks of a function apart from definitions for the values that it reads. -/
structure Legible (f : Function) : Prop where
  spellable : f.Spellable
  consistent : f.graph.Consistent
  numbered : f.Numbered
  valueNames_distinct : f.valueNames.Nodup
  labels_distinct : (f.blocks.map Block.name).Nodup
  definitions_once : f.definitions.Nodup

theorem mem_definitions {id : Nat} :
    id ∈ f.definitions ↔
      id ∈ f.params ∨ ∃ b ∈ f.blocks, ∃ inst ∈ b.insts, inst.result = some id := by
  simp only [definitions, List.mem_append, List.mem_filterMap, List.mem_flatMap]
  refine or_congr_right ?_
  constructor
  · rintro ⟨inst, ⟨b, mem, listed⟩, result⟩
    exact ⟨b, mem, inst, listed, result⟩
  · rintro ⟨b, mem, inst, listed, result⟩
    exact ⟨inst, ⟨b, mem, listed⟩, result⟩

private theorem UsesDefined.mentions (uses : f.UsesDefined) :
    ∀ b ∈ f.blocks, ∀ id ∈ b.mentions, id ∈ f.definitions := by
  intro b mem id mentioned
  rcases Block.mem_mentions.mp mentioned with ⟨inst, listed, result⟩ | used
  · exact mem_definitions.mpr (Or.inr ⟨b, mem, inst, listed, result⟩)
  · exact uses b mem id used

theorem Numbered.definitions (numbered : f.Numbered) :
    ∀ id ∈ f.definitions, id < f.valueNames.length := by
  intro id mem
  rcases mem_definitions.mp mem with param | ⟨b, b_mem, result⟩
  · exact f.params_numbered id param
  · obtain ⟨i, found⟩ := f.mem_blocks.mp b_mem
    exact numbered i b found id (Block.mem_mentions.mpr (Or.inl result))

private theorem nameOf_inj (distinct : f.valueNames.Nodup) {x y : Nat}
    (hx : x < f.valueNames.length) (hy : y < f.valueNames.length) (same : f.nameOf x = f.nameOf y) :
    x = y := by
  have at_x : f.nameOf x = f.valueNames[x] := nameOf_of_getElem? (List.getElem?_eq_getElem hx)
  have at_y : f.nameOf y = f.valueNames[y] := nameOf_of_getElem? (List.getElem?_eq_getElem hy)
  rw [at_x, at_y] at same
  exact (List.Nodup.getElem_inj_iff distinct).mp same

section Names

private theorem names_operandOf (f : Function) (vs : List Value) :
    (vs.map f.operandOf).filterMap Operand.name? = (vs.flatMap Value.ids).map f.nameOf := by
  have single : ∀ v : Value, ((f.operandOf v).name?).toList = v.ids.map f.nameOf := by
    intro v
    cases v <;> rfl
  rw [List.filterMap_map, List.filterMap_eq_flatMap_toList, List.map_flatMap]
  exact List.flatMap_congr fun v _ => single v

private theorem uses_listBlock (f : Function) (b : Block) :
    (f.listBlock b).uses = b.uses.map f.nameOf := by
  have insts : (b.insts.map f.listInst).flatMap ListedInst.uses =
      (b.insts.flatMap fun inst => inst.op.operands.flatMap Value.ids).map f.nameOf := by
    rw [List.flatMap_map, List.map_flatMap]
    refine List.flatMap_congr fun inst _ => ?_
    rw [ListedInst.uses, listInst, Operation.operands_map, names_operandOf]
  have term : ((f.listBlock b).term.toList.flatMap Terminator.values).filterMap Operand.name? =
      (b.term.values.flatMap Value.ids).map f.nameOf := by
    rw [listBlock, Option.toList_some, List.flatMap_singleton, Terminator.values_map,
      names_operandOf]
  rw [ListedBlock.uses, term, listBlock, insts, Block.uses, List.map_append]

theorem labels_listing (f : Function) : f.listing.labels = f.blocks.map Block.name := by
  rw [Listing.labels, listing, List.map_map]
  rfl

end Names

/-- The function as its own text spells it, with no notes. -/
def source (f : Function) : Source :=
  ⟨f.listing, f.listing.items⟩

namespace Legible

variable (hf : f.Legible)

include hf

private theorem names_distinct : (f.definitions.map f.nameOf).Nodup := by
  refine (List.nodup_map_iff_inj_on hf.definitions_once).mpr fun x hx y hy same => ?_
  exact nameOf_inj hf.valueNames_distinct (hf.numbered.definitions x hx)
    (hf.numbered.definitions y hy) same

private theorem wellBuilt : f.source.WellBuilt where
  items_eq := by
    have plain := List.filterMap_eq_nil_iff.mp f.listing.notes_items
    refine List.filter_eq_self.mpr fun item mem => ?_
    rw [plain item mem]
    rfl
  nonempty := by
    obtain ⟨b, found⟩ := Graph.contains_iff.mp f.entry_live
    have mem : b ∈ f.blocks := f.mem_blocks.mpr ⟨_, found⟩
    intro none
    exact List.ne_nil_of_mem mem (List.map_eq_nil_iff.mp none)
  ended := by
    intro b mem
    obtain ⟨_, _, rfl⟩ := List.mem_map.mp mem
    rfl
  labels_distinct := by
    have distinct := hf.labels_distinct
    rwa [← labels_listing] at distinct

private theorem targets_labelled :
    ∀ b ∈ f.listing.blocks, ∀ label ∈ b.targets, label ∈ f.listing.labels := by
  intro _ mem label target
  obtain ⟨b, listed, rfl⟩ := List.mem_map.mp mem
  rw [ListedBlock.targets, listBlock, Option.toList_some, List.flatMap_singleton,
    Terminator.targets_map] at target
  obtain ⟨t, leads, rfl⟩ := List.mem_map.mp target
  have live : t ∈ f.blockIds :=
    (f.graph.mem_ids t).mpr (contains_target_of_mem hf.consistent listed leads)
  rw [labels_listing, map_name_blocks]
  exact List.mem_map_of_mem live

private theorem uses_named_iff :
    (∀ b ∈ f.listing.blocks, ∀ name ∈ b.uses, name ∈ f.listing.names) ↔
      f.UsesDefined := by
  have blocks : f.listing.blocks = f.blocks.map f.listBlock := rfl
  simp only [blocks, List.forall_mem_map, uses_listBlock, names_listing]
  constructor
  · intro named b mem id used
    obtain ⟨d, defined, same⟩ := List.mem_map.mp (named b mem id used)
    obtain ⟨i, found⟩ := f.mem_blocks.mp mem
    have numbered := hf.numbered i b found id (Block.mem_mentions.mpr (Or.inr used))
    rwa [← nameOf_inj hf.valueNames_distinct (hf.numbered.definitions d defined) numbered same]
  · intro uses b mem id used
    exact List.mem_map_of_mem (uses b mem id used)

private theorem closed_iff : f.source.Closed ↔ f.UsesDefined := by
  constructor
  · intro closed
    exact hf.uses_named_iff.mp closed.uses_named
  · intro uses
    exact {
      names_distinct := by
        rw [source, names_listing]
        exact hf.names_distinct
      uses_named := hf.uses_named_iff.mpr uses
      notes_named := by
        intro note mem
        rw [Source.notes, source, f.listing.notes_items] at mem
        cases mem
      targets_labelled := hf.targets_labelled }

private theorem wellNamed (uses : f.UsesDefined) : f.WellNamed where
  name := hf.spellable.name
  callees := hf.spellable.callees
  labels := hf.spellable.labels
  labels_distinct := hf.labels_distinct
  numbered := hf.numbered.definitions
  values := by
    intro id mem
    rcases mem_definitions.mp mem with param | ⟨b, b_mem, result⟩
    · exact hf.spellable.params id param
    · exact hf.spellable.mentions b b_mem id (Block.mem_mentions.mpr (Or.inl result))
  values_distinct := hf.names_distinct
  defined := uses.mentions
  edges := verifyEdges_eq_ok_iff.mpr hf.consistent

end Legible

section Tokens

private theorem isName_of_operandOf {v : Value} (ok : (f.operandOf v).token.isSpellable = true) :
    ∀ id ∈ v.ids, Lexeme.isName (f.nameOf id) = true := by
  intro id mem
  cases v with
  | var _ =>
    obtain rfl := List.mem_singleton.mp mem
    exact ok
  | const word => cases mem

private theorem spellable_of_tokens (ok : ∀ t ∈ f.listing.tokens, t.isSpellable = true) :
    f.Spellable := by
  obtain ⟨head, body⟩ := List.forall_mem_append.mp ok
  have items : ∀ b ∈ f.blocks, ∀ item ∈ (f.listBlock b).items, ∀ t ∈ item.tokens,
      t.isSpellable = true := by
    intro b mem item within t listed
    apply body t
    apply List.mem_append_left
    refine List.mem_flatMap.mpr ⟨item, ?_, listed⟩
    exact List.mem_flatMap.mpr ⟨f.listBlock b, List.mem_map_of_mem mem, within⟩
  have insts : ∀ b ∈ f.blocks, ∀ inst ∈ b.insts, ∀ t ∈ (f.listInst inst).tokens,
      t.isSpellable = true := by
    intro b mem inst listed
    apply items b mem (.inst (f.listInst inst))
    simp only [ListedBlock.items, listBlock, List.mem_cons, List.mem_append, List.mem_map]
    exact Or.inr (Or.inl ⟨_, ⟨inst, listed, rfl⟩, rfl⟩)
  have ends : ∀ b ∈ f.blocks, ∀ t ∈ (b.term.map f.operandOf f.labelOf).tokens,
      t.isSpellable = true := by
    intro b mem
    apply items b mem (.ending _)
    simp [ListedBlock.items, listBlock]
  refine ⟨?_, ?_, ?_, ?_, ?_⟩
  · exact head (.global f.name) (by simp [Listing.header, listing])
  · intro b mem inst listed callee called
    have same : (inst.op.map f.operandOf).callee? = some callee :=
      (Operation.callee?_map f.operandOf inst.op).trans called
    exact insts b mem inst listed _ (ListedInst.mem_tokens (Operation.callee_mem same))
  · intro b mem
    exact items b mem (.label b.name) List.mem_cons_self (.ident b.name) List.mem_cons_self
  · intro id mem
    have listed : Token.value (f.nameOf id) ∈ (f.params.map f.nameOf).map Token.value :=
      List.mem_map_of_mem (List.mem_map_of_mem mem)
    have separated : .value (f.nameOf id) ∈
        ((f.params.map f.nameOf).map Token.value).intersperse .comma ++ [.rightParen, .leftBrace] :=
      List.mem_append_left _ (mem_intersperse_of_mem listed)
    exact head _
      (List.mem_cons_of_mem _ (List.mem_cons_of_mem _ (List.mem_cons_of_mem _ separated)))
  · intro b mem id mentioned
    rcases Block.mem_mentions.mp mentioned with ⟨inst, listed, result⟩ | used
    · refine insts b mem inst listed (.value (f.nameOf id)) ?_
      simp [listInst, result, ListedInst.tokens]
    rcases List.mem_append.mp used with used | used
    · obtain ⟨inst, listed, operand⟩ := List.mem_flatMap.mp used
      obtain ⟨v, v_mem, within⟩ := List.mem_flatMap.mp operand
      have read : f.operandOf v ∈ (inst.op.map f.operandOf).operands := by
        rw [Operation.operands_map]
        exact List.mem_map_of_mem v_mem
      have token := insts b mem inst listed _ (ListedInst.mem_tokens (Operation.token_mem read))
      exact isName_of_operandOf token id within
    · obtain ⟨v, v_mem, within⟩ := List.mem_flatMap.mp used
      have read : f.operandOf v ∈ (b.term.map f.operandOf f.labelOf).values := by
        rw [Terminator.values_map]
        exact List.mem_map_of_mem v_mem
      exact isName_of_operandOf (ends b mem _ (Terminator.token_mem read)) id within

end Tokens

/-! Functions that differ in their numbers only. -/

namespace Renumbered

variable (renumbered : f.Renumbered g) {i : Nat}

include renumbered

private theorem block?_blockPlace {b : Block} (found : f.graph.block? i = some b) :
    g.graph.block? (f.blockPlace i) = some (f.renumberBlock b) := by
  have live : i ∈ f.blockIds := (f.graph.mem_ids i).mpr (Graph.contains_of_block? found)
  have place : f.blockIds[f.blockPlace i]? = some i := by
    have inside := List.idxOf_lt_length_of_mem live
    rw [blockPlace, List.getElem?_eq_getElem inside, List.getElem_idxOf]
  rw [renumbered.blocks, place, Option.bind_some, found, Option.map_some]

private theorem reaches (path : f.Reaches i) : g.Reaches (f.blockPlace i) := by
  induction path with
  | refl =>
    have first : f.blockPlace f.entry = g.entry := by
      obtain ⟨_, ids⟩ := List.head?_eq_some_iff.mp renumbered.entry_first
      rw [blockPlace, ids, List.idxOf_cons_self]
      rfl
    rw [first]
    exact g.reaches_entry
  | @tail j k _ leads ih =>
    obtain ⟨b, found, target⟩ := Graph.mem_targets.mp leads
    apply ih.step
    refine Graph.mem_targets.mpr ⟨_, renumbered.block?_blockPlace found, ?_⟩
    rw [renumberBlock, Terminator.targets_map]
    exact List.mem_map_of_mem target

private theorem verify (all : ∀ i, f.graph.contains i = true → f.Reaches i) :
    g.verify = .ok () := by
  refine verify_eq_ok_iff.mpr ⟨verifyEdges_eq_ok_iff.mp renumbered.edges, fun k live => ?_⟩
  obtain ⟨_, found⟩ := Graph.contains_iff.mp live
  rw [renumbered.blocks, Option.map_eq_some_iff] at found
  obtain ⟨b, at_k, _⟩ := found
  obtain ⟨i, place, found⟩ := Option.bind_eq_some_iff.mp at_k
  have same : f.blockPlace i = k := by
    obtain ⟨inside, rfl⟩ := List.getElem?_eq_some_iff.mp place
    exact f.nodup_blockIds.idxOf_getElem k inside
  rw [← same]
  exact renumbered.reaches (all i (Graph.contains_of_block? found))

end Renumbered

end Function

theorem Draft.valueNames_of_resolve {draft : Draft} {p : Parsed}
    (resolved : draft.resolve = .ok p) :
    p.func.valueNames = p.func.listing.names := by
  obtain ⟨blocks, _, settled⟩ := settles_of_resolve resolved
  rw [settled.valueNames, ← draft.names_listing, (listing_of_resolve resolved).1]

private theorem Source.mem_tokens_of_listing {s : Source} (built : s.WellBuilt) {t : Token}
    (mem : t ∈ s.listing.tokens) :
    t ∈ s.tokens := by
  rcases List.mem_append.mp mem with head | body
  · exact List.mem_append_left _ head
  apply List.mem_append_right
  rcases List.mem_append.mp body with items | brace
  · obtain ⟨item, listed, within⟩ := List.mem_flatMap.mp items
    rw [← built.items_eq] at listed
    exact List.mem_append_left _
      (List.mem_flatMap.mpr ⟨item, List.mem_of_mem_filter listed, within⟩)
  · exact List.mem_append_right _ brace

namespace Parsed

theorem legible_of_mem_readAll {text : String} {functions : List Parsed} {p : Parsed}
    (read : readAll text = .ok functions) (mem : p ∈ functions) :
    p.func.Legible ∧ p.func.UsesDefined := by
  obtain ⟨lexemes, scanned, parsed⟩ := bind_eq_ok read
  obtain ⟨draft, resolved⟩ := resolved_of_mem_ofLexemes parsed mem
  obtain ⟨sources, tokens, all⟩ := sources_of_ofLexemes parsed
  obtain ⟨s, s_mem, valid, listed⟩ := exists_of_mem_forall₂ all mem
  have spellable : ∀ t ∈ p.func.listing.tokens, t.isSpellable = true := by
    intro t within
    rw [← listed] at within
    have spelled : t ∈ lexemes.map Lexeme.token := by
      rw [tokens]
      exact List.mem_flatMap.mpr ⟨s, s_mem,
        Source.mem_tokens_of_listing valid.toWellBuilt within⟩
    obtain ⟨l, l_mem, rfl⟩ := List.mem_map.mp spelled
    exact Lexeme.isSpellable_of_scan scanned l l_mem
  have names : p.func.listing.names.Nodup := listed ▸ valid.names_distinct
  have legible : p.func.Legible := {
    spellable := Function.spellable_of_tokens spellable
    consistent := Draft.consistent_resolve resolved
    numbered := (Draft.listing_of_resolve resolved).2
    valueNames_distinct := by
      rw [Draft.valueNames_of_resolve resolved]
      exact names
    labels_distinct := by
      rw [← Function.labels_listing, ← listed]
      exact valid.labels_distinct
    definitions_once := by
      rw [Function.names_listing] at names
      exact names.of_map }
  refine ⟨legible, legible.uses_named_iff.mp ?_⟩
  rw [← listed]
  exact valid.uses_named

/-- The text of functions, with an empty line after each. -/
def printed (functions : List Function) : String :=
  String.join (functions.map fun f => f.listing.text ++ "\n\n")

private theorem spells_printed {functions : List Function}
    (legible : ∀ f ∈ functions, f.Legible) :
    ∃ lexemes, Lexeme.ofText (printed functions) = .ok lexemes ∧
      Lexeme.Spells (functions.flatMap fun f => f.listing.tokens) lexemes [] := by
  have spellable : ∀ t ∈ (functions.map Function.listing).flatMap Listing.tokens,
      t.isSpellable = true := by
    intro t mem
    rw [List.flatMap_map] at mem
    obtain ⟨f, listed, within⟩ := List.mem_flatMap.mp mem
    exact (legible f listed).spellable.listing (legible f listed).consistent t within
  have blank : ∀ rest tokens, Lexeme.Scans rest tokens → Lexeme.Scans ("\n\n" ++ rest) tokens :=
    fun _ _ h => .split "\n" "\n" rfl h.newline.newline
  obtain ⟨lexemes, scanned, tokens⟩ := Lexeme.Scans.listings "\n\n" blank spellable 1
  rw [List.map_map] at scanned
  rw [List.flatMap_map] at tokens
  exact ⟨lexemes, scanned, lexemes, (List.append_nil lexemes).symm, tokens⟩

/-- Legible functions are accepted when they are printed if and only if they define
what they read. -/
theorem printed_accepted_iff {functions : List Function}
    (legible : ∀ f ∈ functions, f.Legible) :
    (∃ again, readAll (printed functions) = .ok again) ↔
      ∀ f ∈ functions, f.UsesDefined := by
  obtain ⟨lexemes, scanned, spelled⟩ := spells_printed legible
  have reads : (∃ again, readAll (printed functions) = .ok again) ↔
      ∃ again, ofLexemes lexemes = .ok again := by
    simp [readAll, scanned]
  have built : ∀ s ∈ functions.map Function.source, s.WellBuilt :=
    List.forall_mem_map.mpr fun f mem => (legible f mem).wellBuilt
  have tokens : (functions.map Function.source).flatMap Source.tokens =
      functions.flatMap fun f => f.listing.tokens := by
    rw [List.flatMap_map]
    rfl
  rw [reads, ofLexemes_returns_iff built (tokens ▸ spelled), List.forall_mem_map]
  exact forall₂_congr fun f mem => (legible f mem).closed_iff

theorem verify_of_printed {functions : List Function} (legible : ∀ f ∈ functions, f.Legible)
    (all : ∀ f ∈ functions, ∀ i, f.graph.contains i = true → f.Reaches i)
    {again : List Parsed} (read : readAll (printed functions) = .ok again) :
    ∀ p ∈ again, p.func.verify = .ok () := by
  intro p mem
  have uses := (printed_accepted_iff legible).mp ⟨again, read⟩
  have named : ∀ f ∈ functions, f.WellNamed :=
    fun f f_mem => (legible f f_mem).wellNamed (uses f f_mem)
  obtain ⟨lexemes, scanned, spelled⟩ := spells_printed legible
  obtain ⟨parsed, reread, related⟩ := Function.ofLexemes_of_spells named spelled
  obtain ⟨lexemes', scanned', read⟩ := bind_eq_ok read
  obtain rfl := Except.ok.inj (scanned.symm.trans scanned')
  obtain rfl := Except.ok.inj (read.symm.trans reread)
  obtain ⟨f, f_mem, _, renumbered, _⟩ := exists_of_mem_forall₂ related mem
  exact renumbered.verify (all f f_mem)

end Parsed

end BranchTrim
