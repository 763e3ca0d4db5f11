import BranchTrim.Proofs.Text.Resolved

/-!
Printing functions and reading the text. A function with names that can be read, each given to one
value or block only, comes back from its text with the values and blocks numbered in the order of
the text, and nothing else changed.
-/

set_option autoImplicit false

namespace BranchTrim

def Operation.callee? {ν : Type} : Operation ν → Option String
  | call callee _ => some callee
  | compare .. | binary .. | copy _ => none

theorem Listing.notes_items (l : Listing) : l.items.filterMap Item.note? = [] := by
  refine List.filterMap_eq_nil_iff.mpr fun i mem => ?_
  obtain ⟨b, _, within⟩ := List.mem_flatMap.mp mem
  simp only [ListedBlock.items, List.mem_cons, List.mem_append, List.mem_map] at within
  rcases within with rfl | ⟨_, _, rfl⟩ | ⟨_, _, rfl⟩ <;> rfl

theorem Parsed.ofLexemes_cons {ts rest : List Lexeme} {draft : Draft} {p : Parsed}
    {later : List Parsed} (drafted : Draft.function ts = .ok (draft, rest))
    (resolved : draft.resolve = .ok p) (read : ofLexemes rest = .ok later) :
    ofLexemes ts = .ok (p :: later) := by
  cases ts with
  | nil => cases drafted
  | cons t ts =>
    rw [ofLexemes]
    split
    · simp_all
    · simp_all

namespace Function

/-- The parameters, and then the results in the order of the text. -/
def definitions (f : Function) : List Nat :=
  f.params ++ (f.blocks.flatMap Block.insts).filterMap Inst.result

/--
What the text format asks of a function: names of names' characters, labels that are bare words, one
value for each name and one block for each label, and no value that is used but not defined.
-/
structure WellNamed (f : Function) : Prop where
  name : Lexeme.isName f.name = true
  callees : ∀ b ∈ f.blocks, ∀ inst ∈ b.insts, ∀ callee ∈ inst.op.callee?,
    Lexeme.isName callee = true
  labels : ∀ b ∈ f.blocks, Lexeme.isWord b.name = true
  labels_distinct : (f.blocks.map Block.name).Nodup
  numbered : ∀ id ∈ f.definitions, id < f.valueNames.length
  values : ∀ id ∈ f.definitions, Lexeme.isName (f.nameOf id) = true
  values_distinct : (f.definitions.map f.nameOf).Nodup
  defined : ∀ b ∈ f.blocks, ∀ id ∈ b.mentions, id ∈ f.definitions
  edges : f.verifyEdges = .ok ()

/-- What has to hold for the tokens of a function to be read: names of names' characters, and labels
that are words. -/
structure Spellable (f : Function) : Prop where
  name : Lexeme.isName f.name = true
  callees : ∀ b ∈ f.blocks, ∀ inst ∈ b.insts, ∀ callee ∈ inst.op.callee?,
    Lexeme.isName callee = true
  labels : ∀ b ∈ f.blocks, Lexeme.isWord b.name = true
  params : ∀ id ∈ f.params, Lexeme.isName (f.nameOf id) = true
  mentions : ∀ b ∈ f.blocks, ∀ id ∈ b.mentions, Lexeme.isName (f.nameOf id) = true

def valuePlace (f : Function) (id : Nat) : Nat :=
  f.definitions.idxOf id

def blockPlace (f : Function) (i : Nat) : Nat :=
  f.blockIds.idxOf i

def renumberValue (f : Function) : Value → Value
  | .var id => .var (f.valuePlace id)
  | .const word => .const word

def renumberInst (f : Function) (inst : Inst) : Inst :=
  ⟨inst.result.map f.valuePlace, inst.op.map f.renumberValue⟩

def renumberBlock (f : Function) (b : Block) : Block :=
  ⟨b.name, b.insts.map f.renumberInst, b.term.map f.renumberValue f.blockPlace⟩

/--
The second function is the first one with its blocks numbered in program order, from the entry on,
and with its values numbered in the order in which the text defines them.
-/
structure Renumbered (f g : Function) : Prop where
  name : g.name = f.name
  params : g.params = List.range f.params.length
  params_first : f.params.map f.valuePlace = List.range f.params.length
  values_once : f.definitions.Nodup
  valueNames : g.valueNames = f.definitions.map f.nameOf
  entry_first : f.blockIds.head? = some f.entry
  blocks : ∀ k, g.graph.block? k = (f.blockIds[k]?.bind f.graph.block?).map f.renumberBlock
  edges : g.verifyEdges = .ok ()

section Places

private theorem findIdx?_map_eq_idxOf {l : List Nat} {name : Nat → String}
    (distinct : (l.map name).Nodup) {x : Nat} (mem : x ∈ l) :
    (l.map name).findIdx? (· == name x) = some (l.idxOf x) := by
  have inside : l.idxOf x < (l.map name).length := by
    simpa using List.idxOf_lt_length_of_mem mem
  refine List.findIdx?_eq_some_iff_getElem.mpr ⟨inside, by simp, ?_⟩
  intro j earlier
  have j_inside : j < (l.map name).length := Nat.lt_trans earlier inside
  have differ : (l.map name)[j] ≠ (l.map name)[l.idxOf x] := by
    intro same
    exact absurd ((List.Nodup.getElem_inj_iff distinct).mp same) (Nat.ne_of_lt earlier)
  simpa using differ

variable (f : Function)

private theorem map_block?_blockIds : f.blockIds.map f.graph.block? = f.blocks.map some := by
  have live : ∀ i ∈ f.blockIds, ∃ b, f.graph.block? i = some b := fun i mem =>
    Graph.contains_iff.mp ((f.graph.mem_ids i).mp mem)
  unfold Function.blocks
  generalize f.blockIds = ids at live
  induction ids with
  | nil => rfl
  | cons i ids ih =>
    obtain ⟨⟨b, found⟩, others⟩ := List.forall_mem_cons.mp live
    rw [List.map_cons, ih others, found, List.filterMap_cons_some found, List.map_cons]

private theorem getElem?_blocks (k : Nat) : f.blocks[k]? = f.blockIds[k]?.bind f.graph.block? := by
  have same : f.blockIds[k]?.map f.graph.block? = f.blocks[k]?.map some := by
    rw [← List.getElem?_map, map_block?_blockIds, List.getElem?_map]
  cases here : f.blockIds[k]? with
  | none =>
    rw [here, Option.map_none, eq_comm, Option.map_eq_none_iff] at same
    exact same
  | some i =>
    rw [here, Option.map_some, eq_comm, Option.map_eq_some_iff] at same
    obtain ⟨b, at_k, found⟩ := same
    rw [at_k, found]
    rfl

theorem map_name_blocks : f.blocks.map Block.name = f.blockIds.map f.labelOf := by
  have named := congrArg (List.map fun b? => (b?.map Block.name).getD "") f.map_block?_blockIds
  rw [List.map_map, List.map_map] at named
  exact named.symm

theorem names_listing : f.listing.names = f.definitions.map f.nameOf := by
  have result : ListedInst.result ∘ f.listInst = fun inst => inst.result.map f.nameOf := rfl
  have insts : f.listing.blocks.flatMap ListedBlock.insts =
      (f.blocks.flatMap Block.insts).map f.listInst := by
    rw [listing, List.flatMap_map, List.map_flatMap]
    rfl
  rw [Listing.names, insts, List.filterMap_map, result, definitions, List.map_append,
    List.map_filterMap]
  rfl

end Places

theorem contains_target_of_mem {f : Function} {b : Block} (hf : f.graph.Consistent)
    (mem : b ∈ f.blocks) {t : Nat} (target : t ∈ b.term.targets) :
    f.graph.contains t = true := by
  obtain ⟨i, found⟩ := f.mem_blocks.mp mem
  exact hf.contains_target (i := i) (by rwa [Graph.targets_of_block? found])

private theorem isSpellable_separated {ts : List Token} (ok : ∀ t ∈ ts, t.isSpellable = true) :
    ∀ t ∈ ts.intersperse .comma, t.isSpellable = true := by
  intro t mem
  rcases mem_of_mem_intersperse mem with rfl | mem
  · rfl
  · exact ok t mem

/-! The tokens of the listing can be spelled. -/

namespace Spellable

variable {f : Function}

private theorem operand {v : Value} (named : ∀ id ∈ v.ids, Lexeme.isName (f.nameOf id) = true) :
    (f.operandOf v).token.isSpellable = true := by
  cases v with
  | var id => exact named id (by simp [Value.ids])
  | const word => rfl

private theorem operation {op : Operation Value}
    (named : ∀ v ∈ op.operands, ∀ id ∈ v.ids, Lexeme.isName (f.nameOf id) = true)
    (callee : ∀ name ∈ op.callee?, Lexeme.isName name = true) :
    ∀ t ∈ (op.map f.operandOf).tokens, t.isSpellable = true := by
  have operands :
      ∀ t ∈ op.operands.map fun v => (f.operandOf v).token, t.isSpellable = true := by
    intro t mem
    obtain ⟨v, listed, rfl⟩ := List.mem_map.mp mem
    exact operand (named v listed)
  cases op with
  | compare pred lhs rhs =>
    refine List.forall_mem_cons.mpr ⟨rfl,
      List.forall_mem_cons.mpr ⟨?_, isSpellable_separated operands⟩⟩
    cases pred <;> rfl
  | binary op lhs rhs =>
    refine List.forall_mem_cons.mpr ⟨?_, isSpellable_separated operands⟩
    cases op <;> rfl
  | copy value => exact List.forall_mem_cons.mpr ⟨rfl, operands⟩
  | call name args =>
    have arguments : ∀ t ∈ (((args.map f.operandOf).map Operand.token).intersperse .comma),
        t.isSpellable = true := by
      rw [List.map_map]
      exact isSpellable_separated operands
    refine List.forall_mem_cons.mpr ⟨rfl, List.forall_mem_cons.mpr ⟨callee name rfl, ?_⟩⟩
    refine List.forall_mem_cons.mpr ⟨rfl, List.forall_mem_append.mpr ⟨arguments, ?_⟩⟩
    exact List.forall_mem_cons.mpr ⟨rfl, by simp⟩

variable (hf : f.Spellable)

include hf

private theorem inst {b : Block} (mem : b ∈ f.blocks) {inst : Inst} (listed : inst ∈ b.insts) :
    ∀ t ∈ (f.listInst inst).tokens, t.isSpellable = true := by
  have named : ∀ id ∈ inst.mentions, Lexeme.isName (f.nameOf id) = true := fun id mentioned =>
    hf.mentions b mem id
      (List.mem_append_left _ (List.mem_flatMap.mpr ⟨inst, listed, mentioned⟩))
  have operation : ∀ t ∈ (inst.op.map f.operandOf).tokens, t.isSpellable = true := by
    refine Spellable.operation (fun v operand id within => ?_) (hf.callees b mem inst listed)
    exact named id (List.mem_append_right _ (List.mem_flatMap.mpr ⟨v, operand, within⟩))
  unfold listInst
  cases result : inst.result with
  | none => exact operation
  | some id =>
    have result_named : Lexeme.isName (f.nameOf id) = true :=
      named id (by simp [Inst.mentions, result])
    exact List.forall_mem_cons.mpr ⟨result_named, List.forall_mem_cons.mpr ⟨rfl, operation⟩⟩

private theorem label {i : Nat} (live : f.graph.contains i = true) :
    Lexeme.isWord (f.labelOf i) = true := by
  obtain ⟨b, found⟩ := Graph.contains_iff.mp live
  have listed := hf.labels b (f.mem_blocks.mpr ⟨i, found⟩)
  rwa [labelOf, found]

private theorem term (consistent : f.graph.Consistent) {b : Block} (mem : b ∈ f.blocks) :
    ∀ t ∈ (b.term.map f.operandOf f.labelOf).tokens, t.isSpellable = true := by
  have values : ∀ v ∈ b.term.values, (f.operandOf v).token.isSpellable = true := by
    refine fun v listed => operand fun id within => ?_
    exact hf.mentions b mem id
      (List.mem_append_right _ (List.mem_flatMap.mpr ⟨v, listed, within⟩))
  have targets : ∀ t ∈ b.term.targets, Lexeme.isWord (f.labelOf t) = true := fun t target =>
    hf.label (contains_target_of_mem consistent mem target)
  cases ending : b.term with
  | jump target =>
    rw [ending] at targets
    have label := targets target (by simp [Terminator.targets, Terminator.arms])
    exact List.forall_mem_cons.mpr ⟨rfl, List.forall_mem_cons.mpr ⟨label, by simp⟩⟩
  | branch cond whenTrue whenFalse =>
    rw [ending] at values targets
    have condition := values cond (by simp [Terminator.values])
    have label := targets whenTrue (by simp [Terminator.targets, Terminator.arms])
    have label' := targets whenFalse (by simp [Terminator.targets, Terminator.arms])
    refine List.forall_mem_cons.mpr ⟨rfl, isSpellable_separated ?_⟩
    exact List.forall_mem_cons.mpr ⟨condition, List.forall_mem_cons.mpr ⟨label,
      List.forall_mem_cons.mpr ⟨label', by simp⟩⟩⟩
  | ret value =>
    rw [ending] at values
    refine List.forall_mem_cons.mpr ⟨rfl, fun t listed => ?_⟩
    cases value with
    | none => cases listed
    | some value =>
      obtain rfl := List.mem_singleton.mp listed
      exact values value (by simp [Terminator.values])

theorem listing (consistent : f.graph.Consistent) :
    ∀ t ∈ f.listing.tokens, t.isSpellable = true := by
  have params : ∀ t ∈ (f.params.map f.nameOf).map Token.value, t.isSpellable = true := by
    intro t mem
    rw [List.map_map] at mem
    obtain ⟨id, listed, rfl⟩ := List.mem_map.mp mem
    exact hf.params id listed
  have items : ∀ i ∈ f.listing.items, ∀ t ∈ i.tokens, t.isSpellable = true := by
    intro i mem
    obtain ⟨_, listed, within⟩ := List.mem_flatMap.mp mem
    obtain ⟨b, b_mem, rfl⟩ := List.mem_map.mp listed
    rcases List.mem_cons.mp within with rfl | within
    · exact List.forall_mem_cons.mpr ⟨hf.labels b b_mem,
        List.forall_mem_cons.mpr ⟨rfl, by simp⟩⟩
    rcases List.mem_append.mp within with inst | ending
    · obtain ⟨_, inst_listed, rfl⟩ := List.mem_map.mp inst
      obtain ⟨inst, inst_mem, rfl⟩ := List.mem_map.mp inst_listed
      exact hf.inst b_mem inst_mem
    · obtain rfl := List.mem_singleton.mp ending
      exact hf.term consistent b_mem
  refine List.forall_mem_append.mpr ⟨?_, List.forall_mem_append.mpr ⟨?_, ?_⟩⟩
  · refine List.forall_mem_cons.mpr ⟨rfl, List.forall_mem_cons.mpr ⟨hf.name, ?_⟩⟩
    refine List.forall_mem_cons.mpr ⟨rfl,
      List.forall_mem_append.mpr ⟨isSpellable_separated params, ?_⟩⟩
    exact List.forall_mem_cons.mpr ⟨rfl, List.forall_mem_cons.mpr ⟨rfl, by simp⟩⟩
  · intro t mem
    obtain ⟨i, listed, within⟩ := List.mem_flatMap.mp mem
    exact items i listed t within
  · exact List.forall_mem_cons.mpr ⟨rfl, by simp⟩

end Spellable

namespace WellNamed

variable {f : Function} (hf : f.WellNamed)

include hf

private theorem consistent : f.graph.Consistent :=
  verifyEdges_eq_ok_iff.mp hf.edges

private theorem mentions_numbered : f.Numbered := by
  intro i b found id mem
  exact hf.numbered id (hf.defined b (f.mem_blocks.mpr ⟨i, found⟩) id mem)

private theorem spellable : f.Spellable where
  name := hf.name
  callees := hf.callees
  labels := hf.labels
  params id mem := hf.values id (List.mem_append_left _ mem)
  mentions b mem id mentioned := hf.values id (hf.defined b mem id mentioned)

private theorem isSpellable_listing : ∀ t ∈ f.listing.tokens, t.isSpellable = true :=
  hf.spellable.listing hf.consistent

/-! Resolving the names of the listing gives the places of the values and blocks. -/

private theorem valueId_eq (line : Nat) {id : Nat} (mem : id ∈ f.definitions) :
    Draft.valueId (f.definitions.map f.nameOf) line (f.nameOf id) = .ok (f.valuePlace id) := by
  rw [Draft.valueId, findIdx?_map_eq_idxOf hf.values_distinct mem]
  rfl

private theorem blockId_eq (line : Nat) {i : Nat} (live : f.graph.contains i = true) :
    Draft.blockId (f.blockIds.map f.labelOf) line (f.labelOf i) = .ok (f.blockPlace i) := by
  have distinct : (f.blockIds.map f.labelOf).Nodup := by
    rw [← map_name_blocks]
    exact hf.labels_distinct
  rw [Draft.blockId, findIdx?_map_eq_idxOf distinct ((f.graph.mem_ids i).mpr live)]
  rfl

private theorem resolveOperand_eq (line : Nat) {v : Value}
    (defined : ∀ id ∈ v.ids, id ∈ f.definitions) :
    Draft.resolveOperand (f.definitions.map f.nameOf) line (f.operandOf v) =
      .ok (f.renumberValue v) := by
  cases v with
  | var id =>
    have found := hf.valueId_eq line (defined id (by simp [Value.ids]))
    simp [Draft.resolveOperand, operandOf, renumberValue, found]
  | const word => rfl

private theorem resolveInst_eq {b : Block} (mem : b ∈ f.blocks) {inst : Inst}
    (listed : inst ∈ b.insts) {d : DraftInst} (same : d.listing = f.listInst inst) :
    Draft.resolveInst (f.definitions.map f.nameOf) d = .ok (f.renumberInst inst) := by
  obtain ⟨line, result, op⟩ := d
  obtain ⟨rfl, rfl⟩ := ListedInst.mk.inj same
  have known : ∀ id ∈ inst.mentions, id ∈ f.definitions := fun id mentioned =>
    hf.defined b mem id
      (List.mem_append_left _ (List.mem_flatMap.mpr ⟨inst, listed, mentioned⟩))
  have operation : (inst.op.map f.operandOf).mapOperands
      (Draft.resolveOperand (f.definitions.map f.nameOf) line) =
        .ok (inst.op.map f.renumberValue) := by
    rw [Operation.mapOperands_map]
    refine Operation.mapOperands_eq_map fun v operand => hf.resolveOperand_eq line
      fun id within => ?_
    exact known id (List.mem_append_right _ (List.mem_flatMap.mpr ⟨v, operand, within⟩))
  have result : (inst.result.map f.nameOf).mapM (Draft.valueId (f.definitions.map f.nameOf) line) =
      .ok (inst.result.map f.valuePlace) := by
    cases result : inst.result with
    | none => rfl
    | some id =>
      have found := hf.valueId_eq line (known id (by simp [Inst.mentions, result]))
      simp [found]
  simp only [Draft.resolveInst, operation, result, ok_bind, pure_eq_ok, renumberInst]

private theorem resolveBlock_eq {b : Block} (mem : b ∈ f.blocks) {d : DraftBlock}
    (same : d.listing = f.listBlock b) :
    Draft.resolveBlock (f.definitions.map f.nameOf) (f.blockIds.map f.labelOf) d =
      .ok (f.renumberBlock b) := by
  obtain ⟨line, name, insts, term⟩ := d
  obtain ⟨rfl, insts_same, term_same⟩ := ListedBlock.mk.inj same
  obtain ⟨⟨line', _⟩, rfl, rfl⟩ := Option.map_eq_some_iff.mp term_same
  have insts_resolved : insts.mapM (Draft.resolveInst (f.definitions.map f.nameOf)) =
      .ok (b.insts.map f.renumberInst) :=
    mapM_of_map_eq insts_same fun d inst listed => hf.resolveInst_eq mem listed
  have term_resolved : (b.term.map f.operandOf f.labelOf).mapParts
      (Draft.resolveOperand (f.definitions.map f.nameOf) line')
      (Draft.blockId (f.blockIds.map f.labelOf) line') =
        .ok (b.term.map f.renumberValue f.blockPlace) := by
    rw [Terminator.mapParts_map]
    refine Terminator.mapParts_eq_map ?_ ?_
    · refine fun v listed => hf.resolveOperand_eq line' fun id within => ?_
      exact hf.defined b mem id
        (List.mem_append_right _ (List.mem_flatMap.mpr ⟨v, listed, within⟩))
    · exact fun t target => hf.blockId_eq line' (contains_target_of_mem hf.consistent mem target)
  simp only [Draft.resolveBlock, insts_resolved, term_resolved, ok_bind, pure_eq_ok, renumberBlock]

private theorem params_first : f.params.map f.valuePlace = List.range f.params.length := by
  have once : f.definitions.Nodup := hf.values_distinct.of_map
  refine List.ext_getElem (by simp) fun i left right => ?_
  have inside : i < f.params.length := by simpa using right
  have within : i < f.definitions.length := by
    rw [definitions, List.length_append]
    omega
  have early : f.definitions[i] = f.params[i] := List.getElem_append_left inside
  simp only [List.getElem_map, List.getElem_range, valuePlace, ← early]
  exact once.idxOf_getElem i within

/-- A draft that says what the function lists is resolved to the function with other numbers. -/
private theorem resolve_listing {draft : Draft} (listed : draft.listing = f.listing)
    (unnoted : draft.notes = []) :
    ∃ p, draft.resolve = .ok p ∧ p.ranges = [] ∧ f.Renumbered p.func := by
  have names : draft.names = f.definitions.map f.nameOf := by
    rw [← draft.names_listing, listed, f.names_listing]
  have blocks : draft.blocks.map DraftBlock.listing = f.blocks.map f.listBlock :=
    congrArg Listing.blocks listed
  have labels : draft.labels = f.blockIds.map f.labelOf := by
    have same := congrArg (List.map ListedBlock.name) blocks
    rw [List.map_map, List.map_map] at same
    rw [← map_name_blocks]
    exact same
  have resolved : draft.blocks.mapM (Draft.resolveBlock draft.names draft.labels) =
      .ok (f.blocks.map f.renumberBlock) := by
    rw [names, labels]
    exact mapM_of_map_eq blocks fun d b mem => hf.resolveBlock_eq mem
  have nonempty : draft.blocks ≠ [] := by
    intro none
    obtain ⟨b, found⟩ := Graph.contains_iff.mp f.entry_live
    have member : b ∈ f.blocks := f.mem_blocks.mpr ⟨_, found⟩
    rw [none, List.map_nil, eq_comm, List.map_eq_nil_iff] at blocks
    rw [blocks] at member
    cases member
  have distinct : Draft.checkDistinct [] draft.definitions = .ok () := by
    refine Draft.checkDistinct_eq_ok_iff.mpr ⟨?_, by simp⟩
    have once := hf.values_distinct
    rwa [← names] at once
  have noted : draft.notes.mapM (Draft.resolveNote draft.names) = .ok [] := by
    rw [unnoted]
    rfl
  obtain ⟨p, done, settled⟩ := Draft.resolve_of_mapM nonempty distinct resolved noted
  have unranged : p.ranges = [] := Except.ok.inj (settled.ranges.symm.trans noted)
  refine ⟨p, done, unranged, ?_⟩
  exact {
    name := by
      rw [settled.name]
      exact congrArg Listing.name listed
    params := by
      have count := congrArg (List.length ∘ Listing.params) listed
      simp only [Function.comp_apply, Draft.listing, listing, List.length_map] at count
      rw [settled.params, count]
    params_first := hf.params_first
    values_once := hf.values_distinct.of_map
    valueNames := settled.valueNames.trans names
    entry_first := f.head?_blockIds
    blocks := by
      intro k
      rw [settled.graph, Graph.block?_ofBlocks, List.getElem?_map, getElem?_blocks]
    edges := verifyEdges_eq_ok_iff.mpr (Draft.consistent_resolve done) }

private theorem placeAll_listing :
    Item.placeAll f.listing.items [] = some f.listing.blocks.reverse := by
  have ended : ∀ b ∈ f.listing.blocks, b.term.isSome = true := by
    intro b mem
    obtain ⟨_, _, rfl⟩ := List.mem_map.mp mem
    rfl
  have distinct : ((f.listing.blocks.reverse ++ []).map ListedBlock.name).Nodup := by
    have names : f.listing.blocks.map ListedBlock.name = f.blocks.map Block.name := by
      rw [listing, List.map_map]
      rfl
    rw [List.append_nil, List.map_reverse, List.nodup_reverse, names]
    exact hf.labels_distinct
  simpa [Listing.items] using Item.placeAll_items ended distinct

private theorem read_listing {ts rest : List Lexeme}
    (spelled : Lexeme.Spells f.listing.tokens ts rest) :
    ∃ draft p, Draft.function ts = .ok (draft, rest) ∧ draft.resolve = .ok p ∧
      p.ranges = [] ∧
      f.Renumbered p.func ∧ p.func.print = f.print := by
  obtain ⟨draft, drafted, listed, noted⟩ := Draft.function_of_spells spelled hf.placeAll_listing
  rw [List.reverse_reverse] at listed
  have unnoted : draft.notes = [] := by
    rw [f.listing.notes_items] at noted
    exact List.map_eq_nil_iff.mp noted
  obtain ⟨p, resolved, unranged, renumbered⟩ := hf.resolve_listing listed unnoted
  have same : p.func.print = f.print := by
    obtain ⟨listing, numbered⟩ := Draft.listing_of_resolve resolved
    rw [print_eq (Draft.consistent_resolve resolved) numbered, listing, listed,
      print_eq hf.consistent hf.mentions_numbered]
  exact ⟨draft, p, drafted, resolved, unranged, renumbered, same⟩

end WellNamed

theorem ofLexemes_of_spells {functions : List Function} (named : ∀ f ∈ functions, f.WellNamed)
    {ts : List Lexeme}
    (spelled : Lexeme.Spells (functions.flatMap fun f => f.listing.tokens) ts []) :
    ∃ parsed, Parsed.ofLexemes ts = .ok parsed ∧
      List.Forall₂ (fun f p => p.ranges = [] ∧ f.Renumbered p.func ∧ p.func.print = f.print)
        functions parsed := by
  induction functions generalizing ts with
  | nil =>
    obtain rfl := Lexeme.spells_nil.mp spelled
    exact ⟨[], by rw [Parsed.ofLexemes], .nil⟩
  | cons f functions ih =>
    obtain ⟨first, others⟩ := List.forall_mem_cons.mp named
    obtain ⟨mid, front, later⟩ := Lexeme.spells_append.mp spelled
    obtain ⟨draft, p, drafted, resolved, facts⟩ := first.read_listing front
    obtain ⟨parsed, read, all⟩ := ih others later
    exact ⟨p :: parsed, Parsed.ofLexemes_cons drafted resolved read, .cons facts all⟩

/--
Functions that are printed with an empty line after each, and read again, come back in order with
other numbers, with no ranges, and print to the same text.
-/
theorem printed_functions_read_back (functions : List Function)
    (named : ∀ f ∈ functions, f.WellNamed) :
    ∃ texts parsed, functions.mapM print = .ok texts ∧
      Parsed.readAll (String.join (texts.map (· ++ "\n\n"))) = .ok parsed ∧
      List.Forall₂ (fun f p => p.ranges = [] ∧ f.Renumbered p.func ∧ p.func.print = f.print)
        functions parsed := by
  have texts : functions.mapM print = .ok (functions.map fun f => f.listing.text) :=
    mapM_eq_map fun f mem => print_eq (named f mem).consistent (named f mem).mentions_numbered
  have spellable :
      ∀ t ∈ (functions.map listing).flatMap Listing.tokens, t.isSpellable = true := by
    intro t mem
    rw [List.flatMap_map] at mem
    obtain ⟨f, listed, within⟩ := List.mem_flatMap.mp mem
    exact (named f listed).isSpellable_listing t within
  have blank : ∀ rest tokens, Lexeme.Scans rest tokens → Lexeme.Scans ("\n\n" ++ rest) tokens :=
    fun _ _ h => .split "\n" "\n" rfl h.newline.newline
  obtain ⟨lexemes, scanned, tokens⟩ := Lexeme.Scans.listings "\n\n" blank spellable 1
  rw [List.flatMap_map] at tokens
  obtain ⟨parsed, read, all⟩ :=
    ofLexemes_of_spells named ⟨lexemes, (List.append_nil lexemes).symm, tokens⟩
  refine ⟨_, parsed, texts, ?_, all⟩
  rw [List.map_map] at scanned ⊢
  exact bind_eq_ok_iff.mpr ⟨lexemes, scanned, read⟩

/-- A function with a hole among its blocks, an empty name, and labels that are words
of the language. -/
def patchwork : Function where
  name := "f.1"
  params := [3]
  valueNames := ["a b", "k", "", "9"]
  graph := (Graph.ofBlocks
    [⟨"br", [⟨some 1, .compare .ule (.var 3) (.const Int64.minValue)⟩,
      ⟨none, .call "" [.var 1, .var 2]⟩],
        .branch (.var 1) 2 3⟩,
      ⟨"gone", [], .jump 3⟩,
      ⟨"range", [], .jump 2⟩,
      ⟨"_", [⟨some 2, .binary .xor (.var 3) (.const (-1))⟩], .ret none⟩]).erase 1
  entry_live := by decide
  params_numbered := by decide

private theorem wellNamed_patchwork : patchwork.WellNamed where
  name := by decide
  callees := by decide
  labels := by decide
  labels_distinct := by decide
  numbered := by decide
  values := by decide
  values_distinct := by decide
  defined := by decide
  edges := by decide

theorem printed_functions_read_back_patchwork :
    (∀ f ∈ [patchwork, patchwork], f.WellNamed) ∧
    ∃ texts parsed, [patchwork, patchwork].mapM print = .ok texts ∧
      Parsed.readAll (String.join (texts.map (· ++ "\n\n"))) = .ok parsed ∧
      List.Forall₂ (fun f p => p.ranges = [] ∧ f.Renumbered p.func ∧ p.func.print = f.print)
        [patchwork, patchwork] parsed := by
  have named : ∀ f ∈ [patchwork, patchwork], f.WellNamed := by simp [wellNamed_patchwork]
  exact ⟨named, printed_functions_read_back _ named⟩

end Function

end BranchTrim
