import BranchTrim.Proofs.Text.Language

/-!
Functions built by edits. A draft can also be made into a function step by step. The function starts
with its entry block alone; its values and then its other blocks are added, each at the number that
it gets; and then every block gets its instructions, to which the numbers of the results are handed
out in the order of the text, and its terminator. For a draft that was read from a text this comes
to the same as resolving it: no edit is refused, and the function or the error is the same.
-/

set_option autoImplicit false

namespace BranchTrim

private theorem Function.eq_of_fields {f g : Function} (name : f.name = g.name)
    (params : f.params = g.params) (valueNames : f.valueNames = g.valueNames)
    (graph : f.graph = g.graph) : f = g := by
  cases f
  cases g
  cases name
  cases params
  cases valueNames
  cases graph
  rfl

namespace Draft

/-- Why building stops: the draft is at fault, or an edit is refused. -/
abbrev Obstacle := ParseError ⊕ Fault

/-- The numbers that names have got, the last one in front. -/
abbrev Register := List (String × Nat)

def edit {α : Type} (edited : Except Fault α) : Except Obstacle α :=
  edited.mapError .inr

def lookUp (known : Register) (name : String) (missing : ParseError) : Except Obstacle Nat :=
  match known.lookup name with
  | some id => .ok id
  | none => .error (.inl missing)

structure Site where
  func : Function
  values : Register

def define (add : Function → String → Function) (site : Site) (d : Definition) :
    Except Obstacle Site :=
  match site.values.lookup d.name with
  | some _ => .error (.inl (.onLine d.line (.redefinition d.name)))
  | none => .ok ⟨add site.func d.name, (d.name, site.func.nextValue) :: site.values⟩

/-- Adds the results of instructions, and keeps the number of each for its instruction. -/
def defineResults (site : Site) : List DraftInst → Except Obstacle (Site × List (Option Nat))
  | [] => .ok (site, [])
  | inst :: insts =>
    match inst.result with
    | none => do
      let (final, results) ← defineResults site insts
      return (final, none :: results)
    | some name => do
      let next ← define .addValue site ⟨inst.line, name⟩
      let (final, results) ← defineResults next insts
      return (final, some site.func.nextValue :: results)

def addBlocks (func : Function) (blocks : Register) : List String → Function × Register
  | [] => (func, blocks)
  | name :: names =>
    addBlocks (func.addBlock name) ((name, func.graph.nextId) :: blocks) names

def buildOperand (values : Register) (line : Nat) : Operand → Except Obstacle Value
  | .named name => do return .var (← lookUp values name (.onLine line (.unknownValue name)))
  | .const word => .ok (.const word)

def buildInst (values : Register) (i : Nat) :
    Function × List (Option Nat) → DraftInst → Except Obstacle (Function × List (Option Nat))
  | (func, results), inst => do
    let op ← inst.op.mapOperands (buildOperand values inst.line)
    let func ← edit (func.pushInst i ⟨results.head?.join, op⟩)
    return (func, results.tail)

def buildBlock (values blocks : Register) :
    Function × List (Option Nat) → DraftBlock → Except Obstacle (Function × List (Option Nat))
  | (func, results), block => do
    let i ← edit <| match blocks.lookup block.name with
      | some i => .ok i
      | none => .error .missingBlock
    let (func, results) ← block.insts.foldlM (buildInst values i) (func, results)
    match block.term with
    | none => .error (.inl (.onLine block.line (.missingTerminator block.name)))
    | some (line, term) =>
      let term ← term.mapParts (buildOperand values line) fun label =>
        lookUp blocks label (.onLine line (.unknownBlock label))
      let (_, func) ← edit (func.setTerminator i term)
      return (func, results)

def build (draft : Draft) : Except Obstacle Parsed :=
  match draft.blocks with
  | [] => .error (.inl (.onLine draft.line (.emptyFunction draft.name)))
  | first :: rest => do
    let site ← draft.params.foldlM (define .addParam) ⟨.new draft.name first.name, []⟩
    let (site, results) ← defineResults site (draft.blocks.flatMap DraftBlock.insts)
    let (func, blocks) :=
      addBlocks site.func [(first.name, site.func.entry)] (rest.map DraftBlock.name)
    let (func, _) ← draft.blocks.foldlM (buildBlock site.values blocks) (func, results)
    let ranges ← draft.notes.mapM fun a => do
      return (← lookUp site.values a.name (.onLine a.line (.unknownValue a.name)), a.range)
    return ⟨func, ranges⟩

section Follows

variable {α β γ δ ζ : Type}

/-- What is made follows what is read: an error is the same, and a result stands in a relation. -/
def Follows (made : Except Obstacle α) (read : Except ParseError β) (holds : β → α → Prop) :
    Prop :=
  match read with
  | .ok b => ∃ a, made = .ok a ∧ holds b a
  | .error e => made = .error (.inl e)

variable {made : Except Obstacle α} {read : Except ParseError β} {holds : β → α → Prop}

private theorem Follows.bind {k : α → Except Obstacle γ} {l : β → Except ParseError δ}
    {holds' : δ → γ → Prop} (first : Follows made read holds)
    (later : ∀ b a, read = .ok b → holds b a → Follows (k a) (l b) holds') :
    Follows (made >>= k) (read >>= l) holds' := by
  cases read with
  | error e =>
    have stopped : made = .error (.inl e) := first
    rw [stopped]
    rfl
  | ok b =>
    obtain ⟨a, rfl, held⟩ := first
    exact later b a rfl held

private theorem Follows.bindEq {made : Except Obstacle α} {read : Except ParseError α}
    {k : α → Except Obstacle γ} {l : α → Except ParseError δ} {holds' : δ → γ → Prop}
    (first : Follows made read Eq) (later : ∀ a, read = .ok a → Follows (k a) (l a) holds') :
    Follows (made >>= k) (read >>= l) holds' := by
  refine first.bind ?_
  rintro a _ returned rfl
  exact later a returned

private theorem Follows.ok {a : α} {b : β} (held : holds b a) : Follows (.ok a) (.ok b) holds :=
  ⟨a, rfl, held⟩

private theorem Follows.imp {holds' : β → α → Prop} (first : Follows made read holds)
    (implies : ∀ b a, holds b a → holds' b a) : Follows made read holds' := by
  cases read with
  | error e => exact first
  | ok b =>
    obtain ⟨a, returned, held⟩ := first
    exact ⟨a, returned, implies b a held⟩

private theorem Follows.andThen {k : α → Except Obstacle γ} {holds' : β → γ → Prop}
    (first : Follows made read holds)
    (later : ∀ b a, holds b a → ∃ c, k a = .ok c ∧ holds' b c) :
    Follows (made >>= k) read holds' := by
  rw [← bind_pure read]
  refine first.bind fun b a _ held => ?_
  obtain ⟨c, returned, property⟩ := later b a held
  exact ⟨c, returned, property⟩

private theorem Follows.mapM {k : γ → Except Obstacle α} {l : γ → Except ParseError α}
    (each : ∀ x, Follows (k x) (l x) Eq) (xs : List γ) : Follows (xs.mapM k) (xs.mapM l) Eq := by
  induction xs with
  | nil => exact .ok rfl
  | cons x xs ih =>
    rw [List.mapM_cons, List.mapM_cons]
    exact (each x).bindEq fun _ _ => ih.bindEq fun _ _ => .ok rfl

private theorem Follows.mapOperands {k : γ → Except Obstacle α}
    {l : γ → Except ParseError α} (each : ∀ x, Follows (k x) (l x) Eq) (op : Operation γ) :
    Follows (op.mapOperands k) (op.mapOperands l) Eq := by
  cases op with
  | compare pred lhs rhs | binary op lhs rhs =>
    exact (each lhs).bindEq fun _ _ => (each rhs).bindEq fun _ _ => .ok rfl
  | copy value => exact (each value).bindEq fun _ _ => .ok rfl
  | call callee args => exact (Follows.mapM each args).bindEq fun _ _ => .ok rfl

private theorem Follows.mapParts {k : γ → Except Obstacle α} {l : γ → Except ParseError α}
    {k' : δ → Except Obstacle ζ} {l' : δ → Except ParseError ζ}
    (each : ∀ x, Follows (k x) (l x) Eq) (target : ∀ x, Follows (k' x) (l' x) Eq)
    (term : Terminator γ δ) : Follows (term.mapParts k k') (term.mapParts l l') Eq := by
  cases term with
  | jump label => exact (target label).bindEq fun _ _ => .ok rfl
  | branch cond whenTrue whenFalse =>
    refine (each cond).bindEq fun x _ => ?_
    exact (target whenTrue).bindEq fun _ _ => (target whenFalse).bindEq fun _ _ => .ok rfl
  | ret value =>
    cases value with
    | none => exact .ok rfl
    | some value => exact (each value).bindEq fun _ _ => .ok rfl

end Follows

section Registers

variable {known values blocks : Register} {names labels : List String} {name : String}

/-- A register has the places of names in a list. -/
def Indexes (known : Register) (names : List String) : Prop :=
  ∀ name, known.lookup name = names.findIdx? (· == name)

private theorem findIdx?_of_fresh (fresh : name ∉ names) (later : List String) :
    (names ++ name :: later).findIdx? (· == name) = some names.length := by
  have none_before : names.findIdx? (· == name) = none := by
    rw [List.findIdx?_eq_none_iff]
    rintro x mem
    exact beq_eq_false_iff_ne.mpr fun same => fresh (same ▸ mem)
  rw [List.findIdx?_append, none_before, List.findIdx?_cons]
  simp

private theorem Indexes.nil : Indexes [] [] := fun _ => rfl

private theorem Indexes.lookup_eq_none_iff (indexes : Indexes known names) :
    known.lookup name = none ↔ name ∉ names := by
  rw [indexes name, List.findIdx?_eq_none_iff]
  simp only [beq_eq_false_iff_ne]
  exact ⟨fun apart mem => apart name mem rfl, fun fresh x mem same => fresh (same ▸ mem)⟩

private theorem Indexes.snoc (indexes : Indexes known names) (fresh : name ∉ names) :
    Indexes ((name, names.length) :: known) (names ++ [name]) := by
  intro other
  by_cases same : other = name
  · subst same
    rw [List.lookup_cons_self, findIdx?_of_fresh fresh]
  · have differ : (other == name) = false := beq_eq_false_iff_ne.mpr same
    have differ' : (name == other) = false := beq_eq_false_iff_ne.mpr (Ne.symm same)
    simp [List.lookup_cons, differ, differ', indexes other, List.findIdx?_append,
      List.findIdx?_cons]

private theorem follows_valueId (indexes : Indexes values names) (line : Nat) (name : String) :
    Follows (lookUp values name (.onLine line (.unknownValue name)))
      (valueId names line name) Eq := by
  unfold lookUp valueId
  rw [indexes name]
  cases names.findIdx? (· == name) with
  | none => rfl
  | some id => exact .ok rfl

private theorem follows_blockId (indexes : Indexes blocks labels) (line : Nat) (label : String) :
    Follows (lookUp blocks label (.onLine line (.unknownBlock label))) (blockId labels line label)
      Eq := by
  unfold lookUp blockId
  rw [indexes label]
  cases labels.findIdx? (· == label) with
  | none => rfl
  | some id => exact .ok rfl

private theorem follows_operand (indexes : Indexes values names) (line : Nat) (operand : Operand) :
    Follows (buildOperand values line operand) (resolveOperand names line operand) Eq := by
  cases operand with
  | named name => exact (follows_valueId indexes line name).bindEq fun _ _ => .ok rfl
  | const word => exact .ok rfl

end Registers

section Values

variable {site : Site} {seen : List String}

private theorem checkDistinct_append (ds later : List Definition) :
    checkDistinct seen (ds ++ later) = checkDistinct seen ds >>= fun _ =>
      checkDistinct ((ds.map Definition.name).reverse ++ seen) later := by
  induction ds generalizing seen with
  | nil => rfl
  | cons d ds ih =>
    rw [List.cons_append, checkDistinct, checkDistinct]
    split
    · rfl
    · rw [ih, List.map_cons, List.reverse_cons, List.append_assoc]
      rfl

structure Extends (f g : Function) (params : List Nat) (names : List String) : Prop where
  name : g.name = f.name
  graph : g.graph = f.graph
  params : g.params = f.params ++ params
  valueNames : g.valueNames = f.valueNames ++ names

private theorem Extends.refl (f : Function) : Extends f f [] [] :=
  ⟨rfl, rfl, (List.append_nil _).symm, (List.append_nil _).symm⟩

private theorem Extends.trans {f g h : Function} {params params' : List Nat}
    {names names' : List String} (first : Extends f g params names)
    (second : Extends g h params' names') :
    Extends f h (params ++ params') (names ++ names') where
  name := second.name.trans first.name
  graph := second.graph.trans first.graph
  params := by rw [second.params, first.params, List.append_assoc]
  valueNames := by rw [second.valueNames, first.valueNames, List.append_assoc]

private theorem extends_addParam (f : Function) (name : String) :
    Extends f (f.addParam name) [f.nextValue] [name] :=
  ⟨rfl, rfl, rfl, rfl⟩

private theorem extends_addValue (f : Function) (name : String) :
    Extends f (f.addValue name) [] [name] :=
  ⟨rfl, rfl, (List.append_nil _).symm, rfl⟩

structure Site.Ready (site : Site) (seen : List String) : Prop where
  indexes : Indexes site.values site.func.valueNames
  seen : ∀ name, name ∈ seen ↔ name ∈ site.func.valueNames

private theorem follows_define {add : Function → String → Function}
    (adds : ∀ f name, (add f name).valueNames = f.valueNames ++ [name]) (ready : site.Ready seen)
    (d : Definition) :
    Follows (define add site d) (checkDistinct seen [d]) fun _ next =>
      d.name ∉ site.func.valueNames ∧ next.func = add site.func d.name ∧
        next.Ready (d.name :: seen) := by
  rw [define, checkDistinct]
  by_cases taken : d.name ∈ site.func.valueNames
  · rw [if_pos ((ready.seen d.name).mpr taken)]
    cases found : site.values.lookup d.name with
    | none => exact absurd taken (ready.indexes.lookup_eq_none_iff.mp found)
    | some id => rfl
  · rw [if_neg fun mem => taken ((ready.seen d.name).mp mem),
      ready.indexes.lookup_eq_none_iff.mpr taken]
    refine .ok ⟨taken, rfl, ?_, fun name => ?_⟩
    · rw [adds]
      exact ready.indexes.snoc taken
    · rw [adds, List.mem_append, List.mem_cons, List.mem_singleton, ready.seen name]
      exact or_comm

private theorem follows_params (ready : site.Ready seen) (ds : List Definition) :
    Follows (ds.foldlM (define .addParam) site) (checkDistinct seen ds) fun _ final =>
      final.Ready ((ds.map Definition.name).reverse ++ seen) ∧
        Extends site.func final.func (List.range' site.func.nextValue ds.length)
          (ds.map Definition.name) := by
  induction ds generalizing site seen with
  | nil => exact .ok ⟨ready, .refl _⟩
  | cons d ds ih =>
    rw [List.foldlM_cons, ← List.singleton_append, checkDistinct_append]
    refine (follows_define (fun _ _ => rfl) ready d).bind ?_
    rintro _ next _ ⟨_, added, next_ready⟩
    refine (ih next_ready).imp ?_
    rintro _ final ⟨final_ready, grown⟩
    rw [added] at grown
    have numbers : [site.func.nextValue] ++
        List.range' (site.func.addParam d.name).nextValue ds.length =
          List.range' site.func.nextValue (ds.length + 1) := by
      rw [List.range'_succ]
      simp [Function.nextValue, Function.addParam, Function.addValue]
    constructor
    · simpa using final_ready
    · have whole := (extends_addParam site.func d.name).trans grown
      rwa [numbers] at whole

def resultId (names : List String) (inst : DraftInst) : Except ParseError (Option Nat) :=
  inst.result.mapM (valueId names inst.line)

/-- The numbers that are handed out are those that the names stand for. -/
private theorem follows_results (ready : site.Ready seen) (insts : List DraftInst) :
    Follows (defineResults site insts)
      (checkDistinct seen (insts.filterMap fun inst => inst.result.map (⟨inst.line, ·⟩)))
      fun _ (final, results) =>
        Indexes final.values final.func.valueNames ∧
          Extends site.func final.func [] (insts.filterMap DraftInst.result) ∧
            insts.mapM (resultId final.func.valueNames) = .ok results := by
  induction insts generalizing site seen with
  | nil => exact .ok ⟨ready.indexes, .refl _, rfl⟩
  | cons inst insts ih =>
    rw [defineResults]
    cases named : inst.result with
    | none =>
      rw [List.filterMap_cons_none (by rw [named]; rfl), List.filterMap_cons_none named]
      refine (ih ready).andThen ?_
      rintro _ ⟨final, results⟩ ⟨indexes, grown, handed⟩
      refine ⟨_, rfl, indexes, grown, ?_⟩
      rw [mapM_eq_ok_iff, List.forall₂_cons]
      exact ⟨by rw [resultId, named]; rfl, mapM_eq_ok_iff.mp handed⟩
    | some name =>
      rw [List.filterMap_cons_some (by rw [named]; rfl), List.filterMap_cons_some named,
        ← List.singleton_append, checkDistinct_append]
      refine (follows_define (fun _ _ => rfl) ready ⟨inst.line, name⟩).bind ?_
      rintro _ next _ ⟨fresh, added, next_ready⟩
      refine (ih next_ready).andThen ?_
      rintro _ ⟨final, results⟩ ⟨indexes, grown, handed⟩
      rw [added] at grown
      have whole := (extends_addValue site.func name).trans grown
      refine ⟨_, rfl, indexes, whole, ?_⟩
      have place : resultId final.func.valueNames inst = .ok (some site.func.nextValue) := by
        rw [resultId, named, whole.valueNames]
        simp [valueId, findIdx?_of_fresh fresh, Function.nextValue]
      rw [mapM_eq_ok_iff, List.forall₂_cons]
      exact ⟨place, mapM_eq_ok_iff.mp handed⟩

private theorem follows_values (name entryName : String) (params : List Definition)
    (blocks : List DraftBlock) :
    Follows
      (params.foldlM (define .addParam) ⟨.new name entryName, []⟩ >>= fun site =>
        defineResults site (blocks.flatMap DraftBlock.insts))
      (checkDistinct [] (params ++ resultsIn blocks))
      fun _ (final, results) =>
        Indexes final.values final.func.valueNames ∧
          Extends (.new name entryName) final.func (List.range params.length)
            ((params ++ resultsIn blocks).map Definition.name) ∧
            (blocks.flatMap DraftBlock.insts).mapM (resultId final.func.valueNames) =
              .ok results := by
  have ready : Site.Ready ⟨.new name entryName, []⟩ [] := ⟨.nil, fun _ => Iff.rfl⟩
  rw [checkDistinct_append]
  refine (follows_params ready params).bind ?_
  rintro _ site _ ⟨site_ready, params_added⟩
  refine (follows_results site_ready _).imp ?_
  rintro _ ⟨final, results⟩ ⟨indexes, results_added, handed⟩
  refine ⟨indexes, ?_, handed⟩
  have added := params_added.trans results_added
  rw [List.append_nil, ← map_name_resultsIn, ← List.map_append] at added
  rw [List.range_eq_range']
  exact added

end Values

section Blocks

variable {func : Function} {values blocks : Register} {names labels : List String}
  {before after : List Block} {b : Block}

/-- Functions that differ in their graphs at most. -/
structure SameHead (f g : Function) : Prop where
  name : g.name = f.name
  params : g.params = f.params
  valueNames : g.valueNames = f.valueNames

private theorem SameHead.refl (f : Function) : SameHead f f :=
  ⟨rfl, rfl, rfl⟩

private theorem SameHead.trans {f g h : Function} (first : SameHead f g) (second : SameHead g h) :
    SameHead f h :=
  ⟨second.name.trans first.name, second.params.trans first.params,
    second.valueNames.trans first.valueNames⟩

private theorem addBlocks_returning {done : List String} (later : List String)
    (graph : func.graph = .ofBlocks (done.map .returning)) (indexes : Indexes blocks done)
    (distinct : (done ++ later).Nodup) :
    SameHead func (addBlocks func blocks later).1 ∧
      (addBlocks func blocks later).1.graph = .ofBlocks ((done ++ later).map .returning) ∧
        Indexes (addBlocks func blocks later).2 (done ++ later) := by
  induction later generalizing func blocks done with
  | nil =>
    rw [List.append_nil]
    exact ⟨.refl func, graph, indexes⟩
  | cons name later ih =>
    have fresh : name ∉ done := fun mem =>
      (List.nodup_append'.mp distinct).2.2 mem List.mem_cons_self
    have next : func.graph.nextId = done.length := by
      rw [graph]
      simp [Graph.nextId, Graph.ofBlocks]
    have added : (func.addBlock name).graph = .ofBlocks ((done ++ [name]).map .returning) := by
      rw [← Graph.insert_ofBlocks_returning, ← graph]
      rfl
    rw [addBlocks, next, List.append_cons]
    rw [List.append_cons] at distinct
    obtain ⟨head, rest⟩ := ih added (indexes.snoc fresh) distinct
    have kept : SameHead func (func.addBlock name) := ⟨rfl, rfl, rfl⟩
    exact ⟨kept.trans head, rest⟩

private theorem contains_of_graph (graph : func.graph = .ofBlocks (before ++ b :: after)) {i : Nat}
    (inside : i < (before ++ b :: after).length) : func.contains i = true := by
  rw [Function.contains, graph, Graph.contains_ofBlocks]
  exact inside

private theorem pushInst_returns (graph : func.graph = .ofBlocks (before ++ b :: after))
    (inst : Inst) :
    ∃ g, func.pushInst before.length inst = .ok g ∧ SameHead func g ∧
      g.graph = .ofBlocks (before ++ { b with insts := b.insts ++ [inst] } :: after) := by
  have live : func.contains before.length = true := contains_of_graph graph (by simp)
  rw [Function.pushInst, Function.modifyInsts, if_pos live]
  refine ⟨_, rfl, ⟨rfl, rfl, rfl⟩, ?_⟩
  dsimp only
  rw [graph]
  exact Graph.modify_ofBlocks _ rfl

private theorem setTerminator_returns (graph : func.graph = .ofBlocks (before ++ b :: after))
    (bare : b.term.arms = []) (bare_after : ∀ c ∈ after, c.term.arms = [])
    {term : Terminator Value Nat}
    (inside : ∀ t ∈ term.targets, t < (before ++ b :: after).length) :
    ∃ old g, func.setTerminator before.length term = .ok (old, g) ∧ SameHead func g ∧
      g.graph = .ofBlocks (before ++ { b with term := term } :: after) := by
  have found : func.graph.block? before.length = some b := by
    rw [graph, Graph.block?_ofBlocks]
    simp
  have live : term.targets.all func.contains = true :=
    List.all_eq_true.mpr fun t mem => contains_of_graph graph (inside t mem)
  simp only [Function.setTerminator, found, if_pos live]
  refine ⟨_, _, rfl, ⟨rfl, rfl, rfl⟩, ?_⟩
  dsimp only
  rw [graph]
  exact Graph.rewire_ofBlocks term bare bare_after

private theorem follows_inst (numbers : Indexes values names)
    (graph : func.graph = .ofBlocks (before ++ b :: after)) {inst : DraftInst} {result : Option Nat}
    (handed : resultId names inst = .ok result) (later : List (Option Nat)) :
    Follows (buildInst values before.length (func, result :: later) inst) (resolveInst names inst)
      fun made (next, results) => results = later ∧ SameHead func next ∧
        next.graph = .ofBlocks (before ++ { b with insts := b.insts ++ [made] } :: after) := by
  refine (Follows.mapOperands (follows_operand numbers inst.line) inst.op).bindEq fun op _ => ?_
  obtain ⟨next, pushed, head, pushed_graph⟩ := pushInst_returns graph ⟨result, op⟩
  have handed : inst.result.mapM (valueId names inst.line) = .ok result := handed
  rw [handed]
  simp only [List.head?_cons, Option.join_some, pushed, edit, Except.mapError, ok_bind,
    pure_eq_ok, List.tail_cons]
  exact .ok ⟨rfl, head, pushed_graph⟩

private theorem follows_insts (numbers : Indexes values names) (insts : List DraftInst)
    (graph : func.graph = .ofBlocks (before ++ b :: after)) {results : List (Option Nat)}
    (handed : insts.mapM (resultId names) = .ok results) (later : List (Option Nat)) :
    Follows (insts.foldlM (buildInst values before.length) (func, results ++ later))
      (insts.mapM (resolveInst names)) fun made (next, left) =>
        left = later ∧ SameHead func next ∧
        next.graph = .ofBlocks (before ++ { b with insts := b.insts ++ made } :: after) := by
  rw [mapM_eq_ok_iff] at handed
  induction handed generalizing func b with
  | nil =>
    rw [List.foldlM_nil, List.mapM_nil]
    refine .ok ⟨rfl, .refl func, ?_⟩
    rw [List.append_nil]
    exact graph
  | @cons inst result insts results handed _ ih =>
    rw [List.foldlM_cons, List.mapM_cons]
    refine (follows_inst numbers graph handed (results ++ later)).bind ?_
    rintro made ⟨next, _⟩ _ ⟨rfl, head, next_graph⟩
    rw [← bind_pure (List.foldlM ..)]
    refine Follows.bind (ih next_graph) ?_
    rintro rest ⟨final, _⟩ _ ⟨rfl, final_head, final_graph⟩
    refine .ok ⟨rfl, head.trans final_head, ?_⟩
    simpa using final_graph

private theorem follows_block (numbers : Indexes values names) (places : Indexes blocks labels)
    {block : DraftBlock} (graph : func.graph = .ofBlocks (before ++ .returning block.name :: after))
    (bare : ∀ c ∈ after, c.term.arms = [])
    (count : labels.length = before.length + (after.length + 1))
    (place : blocks.lookup block.name = some before.length) {results : List (Option Nat)}
    (handed : block.insts.mapM (resultId names) = .ok results) (later : List (Option Nat)) :
    Follows (buildBlock values blocks (func, results ++ later) block)
      (resolveBlock names labels block) fun made (next, left) =>
        left = later ∧ SameHead func next ∧
        next.graph = .ofBlocks (before ++ made :: after) := by
  rw [buildBlock, place]
  refine (follows_insts numbers block.insts graph handed later).bind ?_
  rintro insts ⟨filled, _⟩ _ ⟨rfl, head, filled_graph⟩
  dsimp only
  cases block.term with
  | none => rfl
  | some ending =>
    obtain ⟨line, term⟩ := ending
    refine (Follows.mapParts (follows_operand numbers line)
      (follows_blockId places line) term).bindEq fun term read => ?_
    obtain ⟨old, next, replaced, next_head, next_graph⟩ :=
      setTerminator_returns filled_graph rfl bare fun t mem => by
        obtain ⟨label, found⟩ := (mem_of_mapParts read).2 t mem
        rw [List.length_append, List.length_cons, ← count]
        exact blockId_lt found
    simp only [replaced, edit, Except.mapError, ok_bind, pure_eq_ok]
    exact .ok ⟨rfl, head.trans next_head, next_graph⟩

private theorem follows_blocks (before : List Block) (numbers : Indexes values names)
    (places : Indexes blocks labels) (distinct : labels.Nodup) (drafts : List DraftBlock)
    (graph : func.graph = .ofBlocks (before ++ (drafts.map DraftBlock.name).map .returning))
    (listed : labels = before.map Block.name ++ drafts.map DraftBlock.name)
    {results : List (Option Nat)}
    (handed : (drafts.flatMap DraftBlock.insts).mapM (resultId names) = .ok results) :
    Follows (drafts.foldlM (buildBlock values blocks) (func, results))
      (drafts.mapM (resolveBlock names labels)) fun made (next, _) => SameHead func next ∧
        next.graph = .ofBlocks (before ++ made) := by
  induction drafts generalizing func before results with
  | nil =>
    rw [List.foldlM_nil, List.mapM_nil]
    exact .ok ⟨.refl func, graph⟩
  | cons block drafts ih =>
    rw [List.flatMap_cons, List.mapM_append] at handed
    obtain ⟨own, own_handed, handed⟩ := bind_eq_ok handed
    obtain ⟨later, later_handed, handed⟩ := bind_eq_ok handed
    cases handed
    have fresh : block.name ∉ before.map Block.name := by
      rw [listed] at distinct
      exact fun mem => (List.nodup_append'.mp distinct).2.2 mem List.mem_cons_self
    have place : blocks.lookup block.name = some before.length := by
      rw [places, listed, List.map_cons, findIdx?_of_fresh fresh, List.length_map]
    have bare : ∀ c ∈ (drafts.map DraftBlock.name).map Block.returning, c.term.arms = [] := by
      intro c mem
      obtain ⟨_, _, rfl⟩ := List.mem_map.mp mem
      rfl
    have count : labels.length =
        before.length + (((drafts.map DraftBlock.name).map Block.returning).length + 1) := by
      simp [listed]
    rw [List.foldlM_cons, List.mapM_cons]
    refine (follows_block numbers places graph bare count place own_handed later).bind ?_
    rintro made ⟨next, _⟩ read ⟨rfl, head, next_graph⟩
    rw [← bind_pure (List.foldlM ..)]
    rw [List.append_cons] at next_graph
    have named : made.name = block.name := name_of_resolveBlock read
    have rest_follows := ih _ next_graph (by simp [listed, named]) later_handed
    refine Follows.bind rest_follows ?_
    rintro rest ⟨final, left⟩ _ ⟨final_head, final_graph⟩
    refine .ok ⟨head.trans final_head, ?_⟩
    rwa [List.append_cons]

end Blocks

private theorem bind_mapM_cons {α β γ ε : Type} {k : γ → Except ε α}
    {l : α → List α → Except ε β} (other : Except ε β) (x : γ) (xs : List γ) :
    (k x >>= fun a => xs.mapM k >>= l a) = (x :: xs).mapM k >>= fun made =>
      match made with
      | [] => other
      | a :: as => l a as := by
  simp

private theorem follows_resolve {draft : Draft} (distinct : draft.labels.Nodup) :
    Follows draft.build draft.resolve fun p q => q = p := by
  obtain ⟨line, name, params, notes, drafts⟩ := draft
  cases drafts with
  | nil => rfl
  | cons first rest =>
    unfold build resolve
    dsimp only
    rw [← bind_assoc]
    refine (follows_values name first.name params (first :: rest)).bind ?_
    rintro _ ⟨site, results⟩ _ ⟨numbers, added, handed⟩
    rw [added.valueNames] at numbers handed
    have single : site.func.graph = .ofBlocks ([first.name].map .returning) :=
      added.graph.trans (Graph.eq_of_fields rfl rfl rfl)
    obtain ⟨head, graph, places⟩ := addBlocks_returning (rest.map DraftBlock.name) single
      (Indexes.nil.snoc List.not_mem_nil) distinct
    dsimp only
    rw [bind_mapM_cons (.error (.atEnd .func))]
    refine (follows_blocks [] numbers places distinct (first :: rest) graph rfl handed).bind ?_
    rintro made ⟨func, _⟩ read ⟨kept, func_graph⟩
    obtain ⟨entry, others, _, _, rfl⟩ :=
      List.forall₂_cons_left_iff.mp (mapM_eq_ok_iff.mp read)
    have whole := head.trans kept
    refine (Follows.mapM (fun a => ?_) notes).bindEq fun ranges _ => ?_
    · exact (follows_valueId numbers a.line a.name).bindEq fun _ _ => .ok rfl
    · refine .ok (congrArg (Parsed.mk · ranges) (Function.eq_of_fields ?_ ?_ ?_ func_graph))
      · exact whole.name.trans added.name
      · exact whole.params.trans added.params
      · exact whole.valueNames.trans added.valueNames

/-- Building a draft that was read gives what resolving it gives, be it a function or an error. -/
theorem build_eq_resolve {ts rest : List Lexeme} {draft : Draft}
    (drafted : Draft.function ts = .ok (draft, rest)) :
    draft.build = draft.resolve.mapError .inl := by
  have follows := follows_resolve (draft.labels_listing ▸ nodup_labels_of_function drafted)
  unfold Follows at follows
  split at follows
  · next read =>
    obtain ⟨_, built, rfl⟩ := follows
    rw [built, read]
    rfl
  · next refused =>
    rw [follows, refused]
    rfl

end Draft

end BranchTrim
