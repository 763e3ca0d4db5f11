import BranchTrim.Proofs.Text.Items
import BranchTrim.Proofs.Text.Printable
import BranchTrim.Text.Parsed

/-!
Functions read from text. Names of targets are replaced by places in the list of labels, so every
target is a block, and the graph that is built from the blocks is consistent. The names are not
lost: what a function lists is what the draft said that it was resolved from.
-/

set_option autoImplicit false

namespace BranchTrim

namespace Draft

private theorem getElem?_of_findIdx? {names : List String} {name : String} {i : Nat}
    (place : names.findIdx? (· == name) = some i) : names[i]? = some name := by
  obtain ⟨inside, same, _⟩ := List.findIdx?_eq_some_iff_getElem.mp place
  rw [List.getElem?_eq_getElem inside]
  simpa using same

theorem getElem?_of_valueId {names : List String} {line : Nat} {name : String} {id : Nat}
    (h : valueId names line name = .ok id) : names[id]? = some name := by
  unfold valueId at h
  split at h <;> cases h
  exact getElem?_of_findIdx? (by assumption)

private theorem getElem?_of_blockId {labels : List String} {line : Nat} {label : String} {i : Nat}
    (h : blockId labels line label = .ok i) : labels[i]? = some label := by
  unfold blockId at h
  split at h <;> cases h
  exact getElem?_of_findIdx? (by assumption)

theorem blockId_lt {labels : List String} {line : Nat} {label : String} {i : Nat}
    (h : blockId labels line label = .ok i) : i < labels.length :=
  (List.getElem?_eq_some_iff.mp (getElem?_of_blockId h)).1

section Parts

variable {α β γ δ ζ : Type} {k : α → Except ParseError β} {l : δ → Except ParseError ζ}

private theorem mem_of_mapOperands {op : Operation α} {op' : Operation β}
    (done : op.mapOperands k = .ok op') :
    ∀ y ∈ op'.operands, ∃ x, k x = .ok y := by
  cases op with
  | compare pred lhs rhs | binary op lhs rhs =>
    obtain ⟨x, left, done⟩ := bind_eq_ok done
    obtain ⟨y, right, done⟩ := bind_eq_ok done
    cases done
    simpa [Operation.operands] using And.intro ⟨lhs, left⟩ ⟨rhs, right⟩
  | copy value =>
    obtain ⟨x, read, done⟩ := bind_eq_ok done
    cases done
    simpa [Operation.operands] using ⟨value, read⟩
  | call callee args =>
    obtain ⟨xs, read, done⟩ := bind_eq_ok done
    cases done
    intro y mem
    obtain ⟨x, _, found⟩ := exists_of_mem_mapM read mem
    exact ⟨x, found⟩

private theorem map_of_mapOperands {g : α → γ} {h : β → γ}
    (agree : ∀ x y, k x = .ok y → h y = g x) {op : Operation α} {op' : Operation β}
    (done : op.mapOperands k = .ok op') :
    op'.map h = op.map g := by
  cases op with
  | compare pred lhs rhs | binary op lhs rhs =>
    obtain ⟨x, left, done⟩ := bind_eq_ok done
    obtain ⟨y, right, done⟩ := bind_eq_ok done
    cases done
    simp only [Operation.map, agree _ _ left, agree _ _ right]
  | copy value =>
    obtain ⟨x, read, done⟩ := bind_eq_ok done
    cases done
    simp only [Operation.map, agree _ _ read]
  | call callee args =>
    obtain ⟨xs, read, done⟩ := bind_eq_ok done
    cases done
    exact congrArg (Operation.call callee) (map_eq_of_mapM agree read)

theorem mem_of_mapParts {term : Terminator α δ} {term' : Terminator β ζ}
    (done : term.mapParts k l = .ok term') :
    (∀ y ∈ term'.values, ∃ x, k x = .ok y) ∧
      ∀ t ∈ term'.targets, ∃ label, l label = .ok t := by
  cases term with
  | jump target =>
    obtain ⟨i, first, done⟩ := bind_eq_ok done
    cases done
    simpa [Terminator.values, Terminator.targets, Terminator.arms] using ⟨target, first⟩
  | branch cond whenTrue whenFalse =>
    obtain ⟨x, read, done⟩ := bind_eq_ok done
    obtain ⟨i, first, done⟩ := bind_eq_ok done
    obtain ⟨j, second, done⟩ := bind_eq_ok done
    cases done
    simpa [Terminator.values, Terminator.targets, Terminator.arms] using
      And.intro ⟨cond, read⟩ (And.intro ⟨whenTrue, first⟩ ⟨whenFalse, second⟩)
  | ret value =>
    cases value with
    | none =>
      cases done
      simp [Terminator.values, Terminator.targets, Terminator.arms]
    | some value =>
      obtain ⟨x, read, done⟩ := bind_eq_ok done
      cases done
      simpa [Terminator.values, Terminator.targets, Terminator.arms] using ⟨value, read⟩

private theorem map_of_mapParts {ξ : Type} {g : α → γ} {h : β → γ} {p : δ → ξ}
    {q : ζ → ξ} (agree : ∀ x y, k x = .ok y → h y = g x)
    (named : ∀ t i, l t = .ok i → q i = p t) {term : Terminator α δ}
    {term' : Terminator β ζ} (done : term.mapParts k l = .ok term') :
    term'.map h q = term.map g p := by
  cases term with
  | jump target =>
    obtain ⟨i, first, done⟩ := bind_eq_ok done
    cases done
    simp only [Terminator.map, named _ _ first]
  | branch cond whenTrue whenFalse =>
    obtain ⟨x, read, done⟩ := bind_eq_ok done
    obtain ⟨i, first, done⟩ := bind_eq_ok done
    obtain ⟨j, second, done⟩ := bind_eq_ok done
    cases done
    simp only [Terminator.map, agree _ _ read, named _ _ first, named _ _ second]
  | ret value =>
    cases value with
    | none =>
      cases done
      rfl
    | some value =>
      obtain ⟨x, read, done⟩ := bind_eq_ok done
      cases done
      simp only [Terminator.map, Option.map_some, agree _ _ read]

end Parts

theorem name_of_resolveBlock {names labels : List String} {block : DraftBlock} {b : Block}
    (h : resolveBlock names labels block = .ok b) : b.name = block.name := by
  obtain ⟨insts, _, h⟩ := bind_eq_ok h
  split at h
  · cases h
  · obtain ⟨term, _, h⟩ := bind_eq_ok h
    cases h
    rfl

private theorem targets_lt_of_resolveBlock {names labels : List String} {block : DraftBlock}
    {b : Block} (h : resolveBlock names labels block = .ok b) :
    ∀ t ∈ b.term.targets, t < labels.length := by
  obtain ⟨insts, _, h⟩ := bind_eq_ok h
  split at h
  · cases h
  · next line term ending =>
    obtain ⟨term', resolved, h⟩ := bind_eq_ok h
    cases h
    intro t mem
    obtain ⟨label, found⟩ := (mem_of_mapParts resolved).2 t mem
    exact blockId_lt found

/-- The values that are given a name, in the order in which they are numbered. -/
def definitions (draft : Draft) : List Definition :=
  draft.params ++ resultsIn draft.blocks

def names (draft : Draft) : List String :=
  draft.definitions.map Definition.name

def labels (draft : Draft) : List String :=
  draft.blocks.map DraftBlock.name

theorem map_name_resultsIn (blocks : List DraftBlock) :
    (resultsIn blocks).map Definition.name =
      (blocks.flatMap DraftBlock.insts).filterMap DraftInst.result := by
  have result : ∀ inst : DraftInst,
      (inst.result.map (Definition.mk inst.line)).map Definition.name = inst.result := by
    intro inst
    cases inst.result <;> rfl
  simp only [resultsIn, List.map_filterMap, result]

theorem names_listing (draft : Draft) : draft.listing.names = draft.names := by
  have insts : draft.listing.blocks.flatMap ListedBlock.insts =
      (draft.blocks.flatMap DraftBlock.insts).map DraftInst.listing := by
    rw [Draft.listing, List.flatMap_map, List.map_flatMap]
    rfl
  rw [Listing.names, insts, List.filterMap_map, names, definitions, List.map_append,
    map_name_resultsIn]
  rfl

theorem checkDistinct_eq_ok_iff {seen : List String} {ds : List Definition} :
    checkDistinct seen ds = .ok () ↔
      (ds.map Definition.name).Nodup ∧ ∀ name ∈ ds.map Definition.name, name ∉ seen := by
  induction ds generalizing seen with
  | nil => simp [checkDistinct]
  | cons d ds ih =>
    rw [checkDistinct]
    split
    · next used => simp [used]
    · next fresh =>
      rw [ih, List.map_cons, List.nodup_cons, List.forall_mem_cons]
      simp only [List.mem_cons, not_or]
      constructor
      · rintro ⟨distinct, apart⟩
        refine ⟨⟨fun again => (apart d.name again).1 rfl, distinct⟩, fresh,
          fun name mem => (apart name mem).2⟩
      · rintro ⟨⟨once, distinct⟩, _, apart⟩
        refine ⟨distinct, fun name mem => ⟨?_, apart name mem⟩⟩
        rintro rfl
        exact once mem

structure Settles (draft : Draft) (blocks : List Block) (p : Parsed) : Prop where
  name : p.func.name = draft.name
  params : p.func.params = List.range draft.params.length
  valueNames : p.func.valueNames = draft.names
  graph : p.func.graph = Graph.ofBlocks blocks
  ranges : draft.notes.mapM (resolveNote draft.names) = .ok p.ranges

theorem settles_of_resolve {draft : Draft} {p : Parsed} (h : draft.resolve = .ok p) :
    ∃ blocks, draft.blocks.mapM (resolveBlock draft.names draft.labels) = .ok blocks ∧
      draft.Settles blocks p := by
  unfold resolve at h
  split at h
  · cases h
  · next first rest split =>
    obtain ⟨_, _, h⟩ := bind_eq_ok h
    obtain ⟨entry, entry_resolved, h⟩ := bind_eq_ok h
    obtain ⟨blocks, resolved, h⟩ := bind_eq_ok h
    obtain ⟨ranges, noted, h⟩ := bind_eq_ok h
    cases h
    refine ⟨entry :: blocks, ?_, rfl, rfl, rfl, rfl, noted⟩
    rw [split, mapM_eq_ok_iff, List.forall₂_cons]
    exact ⟨entry_resolved, mapM_eq_ok_iff.mp resolved⟩

theorem resolve_of_mapM {draft : Draft} {blocks : List Block} {ranges : List (Nat × Range)}
    (nonempty : draft.blocks ≠ []) (distinct : checkDistinct [] draft.definitions = .ok ())
    (resolved : draft.blocks.mapM (resolveBlock draft.names draft.labels) = .ok blocks)
    (noted : draft.notes.mapM (resolveNote draft.names) = .ok ranges) :
    ∃ p, draft.resolve = .ok p ∧ draft.Settles blocks p := by
  obtain ⟨line, name, params, notes, drafts⟩ := draft
  cases drafts with
  | nil => exact absurd rfl nonempty
  | cons first rest =>
    rw [mapM_eq_ok_iff] at resolved
    obtain ⟨entry, others, entry_resolved, later, rfl⟩ :=
      List.forall₂_cons_left_iff.mp resolved
    have later : rest.mapM (resolveBlock _ _) = .ok others := mapM_eq_ok_iff.mpr later
    unfold resolve
    simp only [definitions, names, labels] at distinct entry_resolved later noted
    simp only [distinct, entry_resolved, later, noted, ok_bind, pure_eq_ok]
    exact ⟨_, rfl, rfl, rfl, rfl, rfl, noted⟩

theorem consistent_resolve {draft : Draft} {p : Parsed} (h : draft.resolve = .ok p) :
    p.func.graph.Consistent := by
  obtain ⟨blocks, resolved, settled⟩ := settles_of_resolve h
  rw [settled.graph]
  refine Graph.consistent_ofBlocks fun b mem => ?_
  obtain ⟨d, _, d_resolved⟩ := exists_of_mem_mapM resolved mem
  have count : draft.labels.length = blocks.length := by
    rw [labels, List.length_map, (mapM_eq_ok_iff.mp resolved).length_eq]
  rw [← count]
  exact targets_lt_of_resolveBlock d_resolved

section Listing

variable {f : Function} {labels : List String} {line : Nat}

private theorem operandOf_of_resolve {operand : Operand} {v : Value}
    (read : resolveOperand f.valueNames line operand = .ok v) :
    f.operandOf v = operand ∧ ∀ id ∈ v.ids, id < f.valueNames.length := by
  cases operand with
  | named name =>
    obtain ⟨id, found, done⟩ := bind_eq_ok read
    cases done
    have place : f.valueNames[id]? = some name := getElem?_of_valueId found
    refine ⟨congrArg Operand.named (Function.nameOf_of_getElem? place), ?_⟩
    simpa [Value.ids] using (List.getElem?_eq_some_iff.mp place).1
  | const word =>
    cases read
    simp [Function.operandOf, Value.ids]

private theorem operandOf_agrees (x : Operand) (v : Value)
    (read : resolveOperand f.valueNames line x = .ok v) : f.operandOf v = id x :=
  (operandOf_of_resolve read).1

private theorem listInst_of_resolve {inst : DraftInst} {inst' : Inst}
    (read : resolveInst f.valueNames inst = .ok inst') :
    f.listInst inst' = inst.listing ∧ ∀ id ∈ inst'.mentions, id < f.valueNames.length := by
  obtain ⟨line, result, op⟩ := inst
  obtain ⟨op', ops, read⟩ := bind_eq_ok read
  obtain ⟨result', named, read⟩ := bind_eq_ok read
  cases read
  have result_eq : result'.map f.nameOf = result ∧
      ∀ id ∈ result'.toList, id < f.valueNames.length := by
    cases result with
    | none =>
      cases named
      simp
    | some name =>
      obtain ⟨id, found, named⟩ := bind_eq_ok named
      cases named
      have place : f.valueNames[id]? = some name := getElem?_of_valueId found
      refine ⟨congrArg some (Function.nameOf_of_getElem? place), ?_⟩
      simpa using (List.getElem?_eq_some_iff.mp place).1
  constructor
  · rw [Function.listInst, map_of_mapOperands operandOf_agrees ops, Operation.map_id, result_eq.1]
    rfl
  · refine List.forall_mem_append.mpr ⟨result_eq.2, fun id mem => ?_⟩
    obtain ⟨v, listed, within⟩ := List.mem_flatMap.mp mem
    obtain ⟨x, found⟩ := mem_of_mapOperands ops v listed
    exact (operandOf_of_resolve found).2 id within

private theorem listBlock_of_resolve
    (named : ∀ i label, labels[i]? = some label → f.labelOf i = label) {block : DraftBlock}
    {b : Block} (read : resolveBlock f.valueNames labels block = .ok b) :
    f.listBlock b = block.listing ∧ ∀ id ∈ b.mentions, id < f.valueNames.length := by
  obtain ⟨insts, written, read⟩ := bind_eq_ok read
  split at read
  · cases read
  · next line term ending =>
    obtain ⟨term', resolved, read⟩ := bind_eq_ok read
    cases read
    constructor
    · have insts_eq : insts.map f.listInst = block.insts.map DraftInst.listing :=
        map_eq_of_mapM (fun _ _ found => (listInst_of_resolve found).1) written
      have label_agrees : ∀ label i, blockId labels line label = .ok i →
          f.labelOf i = id label :=
        fun label i found => named i label (getElem?_of_blockId found)
      have term_eq := map_of_mapParts operandOf_agrees label_agrees resolved
      rw [Function.listBlock, insts_eq, term_eq, Terminator.map_id, DraftBlock.listing, ending]
      rfl
    · refine List.forall_mem_append.mpr ⟨fun id mem => ?_, fun id mem => ?_⟩
      · obtain ⟨inst, listed, within⟩ := List.mem_flatMap.mp mem
        obtain ⟨d, _, found⟩ := exists_of_mem_mapM written listed
        exact (listInst_of_resolve found).2 id within
      · obtain ⟨v, listed, within⟩ := List.mem_flatMap.mp mem
        obtain ⟨x, found⟩ := (mem_of_mapParts resolved).1 v listed
        exact (operandOf_of_resolve found).2 id within

theorem Settles.blocks_eq {draft : Draft} {blocks : List Block} {p : Parsed}
    (settled : draft.Settles blocks p) : p.func.blocks = blocks := by
  rw [Function.blocks, Function.blockIds, Graph.filterMap_block?_ids, settled.graph]
  simp [Graph.ofBlocks]

private theorem Settles.params_listed {draft : Draft} {blocks : List Block} {p : Parsed}
    (settled : draft.Settles blocks p) :
    p.func.params.map p.func.nameOf = draft.params.map Definition.name := by
  have listed : ∀ d ∈ draft.params.zipIdx, p.func.nameOf d.2 = d.1.name := by
    rintro ⟨d, i⟩ mem
    refine Function.nameOf_of_getElem? ?_
    have place : draft.params[i]? = some d := List.mk_mem_zipIdx_iff_getElem?.mp mem
    have early : i < draft.params.length := (List.getElem?_eq_some_iff.mp place).1
    rw [settled.valueNames, names, definitions, List.getElem?_map,
      List.getElem?_append_left early, place]
    rfl
  calc p.func.params.map p.func.nameOf
      = draft.params.zipIdx.map (p.func.nameOf ∘ Prod.snd) := by
        rw [settled.params, ← List.map_map, List.zipIdx_map_snd, List.range_eq_range']
    _ = draft.params.zipIdx.map (Definition.name ∘ Prod.fst) := List.map_congr_left listed
    _ = draft.params.map Definition.name := by
        rw [← List.map_map, List.zipIdx_map_fst]

/-- A function lists what the draft said, and mentions numbered values only. -/
theorem listing_of_resolve {draft : Draft} {p : Parsed} (read : draft.resolve = .ok p) :
    p.func.listing = draft.listing ∧ p.func.Numbered := by
  obtain ⟨blocks, resolved, settled⟩ := settles_of_resolve read
  have found : ∀ i, p.func.graph.block? i = blocks[i]? := by
    intro i
    rw [settled.graph, Graph.block?_ofBlocks]
  have named : ∀ i label, draft.labels[i]? = some label → p.func.labelOf i = label := by
    intro i label place
    have block_names : blocks.map Block.name = draft.labels :=
      map_eq_of_mapM (fun _ _ => name_of_resolveBlock) resolved
    rw [Function.labelOf, found, ← List.getElem?_map, block_names, place, Option.getD_some]
  rw [← settled.valueNames] at resolved
  constructor
  · have blocks_listed : blocks.map p.func.listBlock = draft.blocks.map DraftBlock.listing :=
      map_eq_of_mapM (fun _ _ found => (listBlock_of_resolve named found).1) resolved
    rw [Function.listing, settled.name, settled.params_listed, settled.blocks_eq, blocks_listed]
    rfl
  · intro i b at_i
    rw [found] at at_i
    obtain ⟨d, _, d_resolved⟩ := exists_of_mem_mapM resolved (List.mem_of_getElem? at_i)
    exact (listBlock_of_resolve named d_resolved).2

end Listing

end Draft

namespace Parsed

theorem resolved_of_mem_ofLexemes {ts : List Lexeme} {functions : List Parsed} {p : Parsed}
    (h : ofLexemes ts = .ok functions) (mem : p ∈ functions) :
    ∃ draft : Draft, draft.resolve = .ok p := by
  fun_induction ofLexemes ts generalizing functions with
  | case1 =>
    cases h
    cases mem
  | case2 => cases h
  | case3 t ts draft rest _ ih =>
    obtain ⟨first, resolved, h⟩ := bind_eq_ok h
    obtain ⟨later, read, h⟩ := bind_eq_ok h
    cases h
    rcases List.mem_cons.mp mem with rfl | mem
    · exact ⟨draft, resolved⟩
    · exact ih read mem

theorem consistent_of_mem_readAll {text : String} {functions : List Parsed} {p : Parsed}
    (h : readAll text = .ok functions) (mem : p ∈ functions) : p.func.graph.Consistent := by
  obtain ⟨_, _, h⟩ := bind_eq_ok h
  obtain ⟨draft, resolved⟩ := resolved_of_mem_ofLexemes h mem
  exact Draft.consistent_resolve resolved

end Parsed

end BranchTrim
