import BranchTrim.Flow.Reach
import Mathlib.Data.List.Nodup

/-!
Consistent graphs. A graph keeps its edges beside its blocks, so that the two could disagree. In a
consistent graph the edges are exactly the places of the terminators, each of them once; this is
what the check of the edges accepts, and every change of a graph that an edit makes keeps it.
-/

set_option autoImplicit false

namespace BranchTrim

theorem Terminator.nodup_arms {ν β : Type} (term : Terminator ν β) : term.arms.Nodup := by
  cases term <;> simp [arms]

private theorem Terminator.mem_targets {ν β : Type} {term : Terminator ν β} {t : β} :
    t ∈ term.targets ↔ ∃ arm, (arm, t) ∈ term.arms := by
  simp [targets]

namespace Graph

/-- The places of the terminator of a block with their targets. There are none where there
is no block. -/
def arms (g : Graph) (i : Nat) : List (Arm × Nat) :=
  ((g.block? i).map fun b => b.term.arms).getD []

def targets (g : Graph) (i : Nat) : List Nat :=
  (g.arms i).map Prod.snd

/-- The edges are the places of the terminators, each of them once. -/
structure Consistent (g : Graph) : Prop where
  nodup : g.edges.Nodup
  mem_edges : ∀ e, e ∈ g.edges ↔ (e.arm, e.target) ∈ g.arms e.source

section Places

variable {g : Graph} {i t : Nat} {b : Block}

theorem contains_iff : g.contains i = true ↔ ∃ b, g.block? i = some b :=
  Option.isSome_iff_exists

theorem contains_of_block? (found : g.block? i = some b) : g.contains i = true :=
  contains_iff.mpr ⟨b, found⟩

theorem arms_of_block? (found : g.block? i = some b) : g.arms i = b.term.arms := by
  simp [arms, found]

theorem targets_of_block? (found : g.block? i = some b) : g.targets i = b.term.targets := by
  simp [targets, arms_of_block? found, Terminator.targets]

theorem arms_congr {h : Graph} (same : h.block? i = g.block? i) : h.arms i = g.arms i := by
  simp [arms, same]

theorem targets_congr {h : Graph} (same : h.block? i = g.block? i) : h.targets i = g.targets i := by
  simp [targets, arms_congr same]

theorem mem_targets_iff_arm : t ∈ g.targets i ↔ ∃ arm, (arm, t) ∈ g.arms i := by
  simp [targets]

theorem mem_targets :
    t ∈ g.targets i ↔ ∃ b, g.block? i = some b ∧ t ∈ b.term.targets := by
  cases found : g.block? i with
  | none => simp [targets, arms, found]
  | some b => simp [targets_of_block? found]

theorem nodup_arms (g : Graph) (i : Nat) : (g.arms i).Nodup := by
  unfold arms
  cases g.block? i with
  | none => exact List.nodup_nil
  | some b => exact b.term.nodup_arms

theorem contains_of_mem_targets (mem : t ∈ g.targets i) : g.contains i = true := by
  obtain ⟨b, found, _⟩ := mem_targets.mp mem
  exact contains_of_block? found

end Places

theorem filterMap_block?_ids (g : Graph) : g.ids.filterMap g.block? = g.cells.filterMap id := by
  have places : (List.range g.cells.length).map (g.cells[·]?) = g.cells.map some := by
    refine List.ext_getElem (by simp) fun i left right => ?_
    simp only [List.length_map] at right
    simp [right]
  have live : ∀ i, (if g.contains i = true then g.block? i else none) = g.block? i := by
    intro i
    rw [contains]
    cases g.block? i <;> rfl
  calc g.ids.filterMap g.block?
      = (List.range g.cells.length).filterMap fun i => g.cells[i]?.join := by
        simp only [ids, List.filterMap_filter, live]
        rfl
    _ = ((List.range g.cells.length).map (g.cells[·]?)).filterMap Option.join := by
        rw [List.filterMap_map]
        rfl
    _ = g.cells.filterMap id := by
        rw [places, List.filterMap_map]
        rfl

namespace Consistent

variable {g : Graph}

private theorem edge_mem_iff (hg : g.Consistent) (i : Nat) (arm : Arm) (t : Nat) :
    ⟨i, arm, t⟩ ∈ g.edges ↔ (arm, t) ∈ g.arms i :=
  hg.mem_edges ⟨i, arm, t⟩

theorem contains_target (hg : g.Consistent) {i t : Nat} (mem : t ∈ g.targets i) :
    g.contains t = true := by
  obtain ⟨arm, place⟩ := mem_targets_iff_arm.mp mem
  exact (g.edges_live _ ((hg.edge_mem_iff i arm t).mpr place)).2

theorem mem_next (hg : g.Consistent) {i t : Nat} : t ∈ g.next i ↔ t ∈ g.targets i := by
  simp only [next, outgoing, List.mem_map, List.mem_filter, beq_iff_eq, mem_targets_iff_arm]
  constructor
  · rintro ⟨e, ⟨mem, rfl⟩, rfl⟩
    exact ⟨e.arm, (hg.mem_edges e).mp mem⟩
  · rintro ⟨arm, place⟩
    exact ⟨⟨i, arm, t⟩, ⟨(hg.edge_mem_iff i arm t).mpr place, rfl⟩, rfl⟩

theorem mem_incoming (hg : g.Consistent) {i : Nat} {e : Edge} :
    e ∈ g.incoming i ↔ e.target = i ∧ (e.arm, i) ∈ g.arms e.source := by
  simp only [incoming, List.mem_filter, beq_iff_eq, hg.mem_edges]
  constructor
  · rintro ⟨place, rfl⟩
    exact ⟨rfl, place⟩
  · rintro ⟨rfl, place⟩
    exact ⟨place, rfl⟩

theorem nodup_incoming (hg : g.Consistent) (i : Nat) : (g.incoming i).Nodup :=
  hg.nodup.filter _

theorem mem_sources (hg : g.Consistent) {i j : Nat} :
    j ∈ (g.incoming i).map Edge.source ↔ i ∈ g.targets j := by
  simp only [List.mem_map, hg.mem_incoming, mem_targets_iff_arm]
  constructor
  · rintro ⟨e, ⟨_, place⟩, rfl⟩
    exact ⟨e.arm, place⟩
  · rintro ⟨arm, place⟩
    exact ⟨⟨j, arm, i⟩, ⟨rfl, place⟩, rfl⟩

end Consistent

section Outgoing

variable {g : Graph} {i : Nat}

private theorem mem_map_outgoing {arm : Arm} {t : Nat} :
    (arm, t) ∈ (g.outgoing i).map (fun e => (e.arm, e.target)) ↔
      ⟨i, arm, t⟩ ∈ g.edges := by
  simp only [outgoing, List.mem_map, List.mem_filter, beq_iff_eq, Prod.mk.injEq]
  constructor
  · rintro ⟨⟨source, arm', target⟩, ⟨mem, rfl⟩, rfl, rfl⟩
    exact mem
  · intro mem
    exact ⟨_, ⟨mem, rfl⟩, rfl, rfl⟩

private theorem outgoing_of_absent (absent : g.block? i = none) : g.outgoing i = [] := by
  refine List.filter_eq_nil_iff.mpr fun e mem leaves => ?_
  have source_live : g.contains e.source = true := (g.edges_live e mem).1
  rw [beq_iff_eq.mp leaves, contains, absent] at source_live
  cases source_live

private theorem consistent_iff_outgoing : g.Consistent ↔
    ∀ i, ((g.outgoing i).map fun e => (e.arm, e.target)).Perm (g.arms i) := by
  constructor
  · intro hg i
    refine (List.perm_ext_iff_of_nodup ?_ (g.nodup_arms i)).mpr ?_
    · refine List.Nodup.map_on ?_ (hg.nodup.filter _)
      rintro ⟨source, arm, target⟩ mem ⟨source', arm', target'⟩ mem' same
      have source_eq := (List.mem_filter.mp mem).2
      have source_eq' := (List.mem_filter.mp mem').2
      simp_all
    · rintro ⟨arm, t⟩
      rw [mem_map_outgoing, hg.edge_mem_iff]
  · intro agree
    constructor
    · -- An edge occurs as often as it occurs among the edges out of its source.
      refine List.nodup_iff_count.mpr fun e => ?_
      have out : (g.outgoing e.source).Nodup :=
        List.Nodup.of_map _ ((agree e.source).nodup_iff.mpr (g.nodup_arms e.source))
      have once := List.nodup_iff_count.mp out e
      rwa [outgoing, List.count_filter (by simp)] at once
    · intro e
      rw [← (agree e.source).mem_iff, mem_map_outgoing]

end Outgoing

section Changes

variable {g : Graph} {i : Nat} {b : Block}

private theorem arms_modify_of_ne (change : Block → Block) {j : Nat} (other : i ≠ j) :
    (g.modify i change).arms j = g.arms j :=
  arms_congr (by rw [block?_modify, if_neg other])

theorem Consistent.modify (hg : g.Consistent) {change : Block → Block}
    (keeps : ∀ b, (change b).term = b.term) : (g.modify i change).Consistent := by
  have same : ∀ j, (g.modify i change).arms j = g.arms j := by
    intro j
    by_cases at_i : i = j
    · subst at_i
      simp only [arms, block?_modify, if_true, Option.map_map, Function.comp_def, keeps]
    · exact arms_modify_of_ne change at_i
  refine ⟨hg.nodup, fun e => ?_⟩
  rw [same]
  exact hg.mem_edges e

private theorem block?_nextId (g : Graph) : g.block? g.nextId = none := by
  unfold block? blockIn nextId
  rcases holes : g.holes with _ | ⟨hole, rest⟩
  · simp
  · have isHole := (g.mem_holes hole).mp (by simp [holes])
    simp [isHole]

theorem Consistent.insert (hg : g.Consistent) (stops : b.term.arms = []) :
    (g.insert b).Consistent := by
  have same : ∀ j, (g.insert b).arms j = g.arms j := by
    intro j
    by_cases at_new : g.nextId = j
    · subst at_new
      simp only [arms, block?_insert, block?_nextId, if_true, Option.map_some, stops,
        Option.map_none, Option.getD_some, Option.getD_none]
    · exact arms_congr (by rw [block?_insert, if_neg at_new])
  refine ⟨hg.nodup, fun e => ?_⟩
  rw [same]
  exact hg.mem_edges e

theorem consistent_single (stops : b.term.arms = []) : (single b).Consistent := by
  refine ⟨List.nodup_nil, fun e => ?_⟩
  have none_here : (single b).arms e.source = [] := by
    rcases e with ⟨_ | source, arm, target⟩ <;> simp [arms, block?, blockIn, single, stops]
  rw [none_here]
  simp [single]

/-- A graph with another terminator for one of its blocks, and with the edges of that terminator. -/
def retarget (g : Graph) (i : Nat) (term : Terminator Value Nat) : Graph :=
  (g.modify i fun b => { b with term := term }).rewire i term.arms

theorem block?_retarget (found : g.block? i = some b) (term : Terminator Value Nat) (j : Nat) :
    (g.retarget i term).block? j = if i = j then some { b with term := term } else g.block? j := by
  rw [retarget, block?_rewire, block?_modify]
  split
  · next at_i => rw [← at_i, found, Option.map_some]
  · rfl

private theorem mem_edges_retarget {term : Terminator Value Nat} {e : Edge} :
    e ∈ (g.retarget i term).edges ↔
      e ∈ g.edges ∧ e.source ≠ i ∨
        (e.source = i ∧ (e.arm, e.target) ∈ term.arms) ∧ g.contains i ∧
          g.contains e.target := by
  simp only [retarget, rewire, modify, List.mem_append, List.mem_filter, bne_iff_ne, ne_eq,
    List.mem_map, Bool.and_eq_true]
  refine or_congr Iff.rfl ?_
  change _ ∧ (g.modify i _).contains e.source = true ∧
    (g.modify i _).contains e.target = true ↔ _
  rw [contains_modify, contains_modify]
  constructor
  · rintro ⟨⟨⟨arm, t⟩, place, rfl⟩, source_live, target_live⟩
    exact ⟨⟨rfl, place⟩, source_live, target_live⟩
  · rintro ⟨⟨rfl, place⟩, source_live, target_live⟩
    exact ⟨⟨(e.arm, e.target), place, rfl⟩, source_live, target_live⟩

theorem Consistent.retarget (hg : g.Consistent) (found : g.block? i = some b)
    {term : Terminator Value Nat} (live : ∀ t ∈ term.targets, g.contains t = true) :
    (g.retarget i term).Consistent := by
  constructor
  · refine List.nodup_append.mpr ⟨hg.nodup.filter _, ?_, ?_⟩
    · refine (term.nodup_arms.map ?_).filter _
      rintro ⟨arm, t⟩ ⟨arm', t'⟩ same
      simpa using same
    · intro e old e' new same
      have source : e'.source = i := by
        obtain ⟨⟨arm, t⟩, _, rfl⟩ := List.mem_map.mp (List.mem_filter.mp new).1
        rfl
      simp [same, source] at old
  · intro e
    rw [mem_edges_retarget]
    by_cases at_i : e.source = i
    · have here : (g.retarget i term).arms e.source = term.arms := by
        rw [arms_of_block? (b := { b with term := term })]
        rw [block?_retarget found, if_pos at_i.symm]
      rw [here]
      simp only [at_i, ne_eq, not_true, and_false, false_or, true_and, and_iff_left_iff_imp]
      intro place
      exact ⟨contains_of_block? found, live _ (Terminator.mem_targets.mpr ⟨_, place⟩)⟩
    · have elsewhere : (g.retarget i term).arms e.source = g.arms e.source :=
        arms_congr (by rw [block?_retarget found, if_neg (Ne.symm at_i)])
      rw [elsewhere, ← hg.mem_edges]
      simp [at_i]

theorem Consistent.erase (hg : g.Consistent) (alone : ∀ j, i ∈ g.targets j → j = i) :
    (g.erase i).Consistent := by
  unfold Graph.erase
  split
  · next live =>
    constructor
    · exact hg.nodup.filter _
    · intro e
      have blocks : ∀ j, blockIn (g.cells.set i none) j = if i = j then none else g.block? j :=
        blockIn_set_none g.cells i
      simp only [List.mem_filter, Bool.and_eq_true, bne_iff_ne, ne_eq, hg.mem_edges, arms, block?,
        blocks]
      by_cases at_i : e.source = i
      · simp [at_i]
      · rw [if_neg (Ne.symm at_i)]
        constructor
        · rintro ⟨place, _⟩
          exact place
        · intro place
          refine ⟨place, at_i, fun into => at_i (alone _ ?_)⟩
          exact mem_targets_iff_arm.mpr ⟨e.arm, into ▸ place⟩
  · exact hg

end Changes

section Listed

variable {blocks : List Block}

theorem block?_ofBlocks (blocks : List Block) (i : Nat) :
    (ofBlocks blocks).block? i = blocks[i]? := by
  simp only [block?, blockIn, ofBlocks, List.getElem?_map]
  cases blocks[i]? <;> rfl

theorem contains_ofBlocks (blocks : List Block) (i : Nat) :
    (ofBlocks blocks).contains i = true ↔ i < blocks.length := by
  rw [contains, block?_ofBlocks, isSome_getElem?]

private theorem mem_edgesOf {e : Edge} :
    e ∈ edgesOf blocks ↔ (e.arm, e.target) ∈ (ofBlocks blocks).arms e.source := by
  simp only [edgesOf, List.mem_flatMap, List.mem_map, arms, block?_ofBlocks, Prod.exists,
    List.mk_mem_zipIdx_iff_getElem?]
  constructor
  · rintro ⟨b, i, found, arm, target, place, rfl⟩
    simpa [found] using place
  · intro place
    cases found : blocks[e.source]? with
    | none => simp [found] at place
    | some b => exact ⟨b, e.source, found, e.arm, e.target, by simpa [found] using place, rfl⟩

private theorem nodup_edgesOf (blocks : List Block) : (edgesOf blocks).Nodup := by
  refine List.nodup_flatMap.mpr ⟨?_, ?_⟩
  · rintro ⟨b, i⟩ _
    refine b.term.nodup_arms.map ?_
    rintro ⟨arm, target⟩ ⟨arm', target'⟩ same
    simpa using same
  · have numbers : blocks.zipIdx.Pairwise fun x y => x.2 ≠ y.2 := by
      rw [← List.pairwise_map (f := Prod.snd) (R := fun i j => i ≠ j), List.zipIdx_map_snd]
      exact List.nodup_range'
    refine numbers.imp ?_
    rintro ⟨b, i⟩ ⟨c, j⟩ differ e left right
    obtain ⟨_, _, rfl⟩ := List.mem_map.mp left
    obtain ⟨_, _, same⟩ := List.mem_map.mp right
    exact differ (congrArg Edge.source same).symm

theorem consistent_ofBlocks
    (inside : ∀ b ∈ blocks, ∀ t ∈ b.term.targets, t < blocks.length) :
    (ofBlocks blocks).Consistent := by
  refine ⟨(nodup_edgesOf blocks).filter _, fun e => ?_⟩
  rw [← mem_edgesOf]
  refine ⟨fun mem => (List.mem_filter.mp mem).1, fun mem => List.mem_filter.mpr ⟨mem, ?_⟩⟩
  have leads : e.target ∈ (ofBlocks blocks).targets e.source :=
    mem_targets_iff_arm.mpr ⟨e.arm, mem_edgesOf.mp mem⟩
  have source_live : (ofBlocks blocks).contains e.source = true := contains_of_mem_targets leads
  obtain ⟨b, found, target⟩ := mem_targets.mp leads
  rw [block?_ofBlocks] at found
  have target_live : (ofBlocks blocks).contains e.target = true :=
    (contains_ofBlocks blocks _).mpr (inside b (List.mem_of_getElem? found) _ target)
  exact Bool.and_eq_true_iff.mpr ⟨source_live, target_live⟩

/-! Edits of a graph that lists its blocks give graphs that list theirs. -/

theorem eq_of_fields {g h : Graph} (cells : g.cells = h.cells) (holes : g.holes = h.holes)
    (edges : g.edges = h.edges) : g = h := by
  cases g
  cases h
  cases cells
  cases holes
  cases edges
  rfl

variable {before after : List Block} {b : Block}

private theorem contains_ofBlocks_eq (blocks : List Block) (i : Nat) :
    (ofBlocks blocks).contains i = decide (i < blocks.length) :=
  Bool.eq_iff_iff.mpr ((contains_ofBlocks blocks i).trans decide_eq_true_iff.symm)

private theorem edges_ofBlocks (blocks : List Block) :
    (ofBlocks blocks).edges = (edgesOf blocks).filter fun e =>
      decide (e.source < blocks.length) && decide (e.target < blocks.length) := by
  simp only [← contains_ofBlocks_eq]
  rfl

private theorem edgesOf_eq (blocks : List Block) :
    edgesOf blocks = blocks.zipIdx.flatMap fun entry =>
      entry.1.term.arms.map fun place => ⟨entry.2, place.1, place.2⟩ :=
  rfl

private theorem edgesOf_split (bare : ∀ c ∈ after, c.term.arms = []) :
    edgesOf (before ++ b :: after) =
      edgesOf before ++ b.term.arms.map fun place => ⟨before.length, place.1, place.2⟩ := by
  have none_after : ∀ start, ((after.zipIdx start).flatMap fun entry =>
      entry.1.term.arms.map fun place => Edge.mk entry.2 place.1 place.2) = [] := by
    intro start
    rw [List.flatMap_eq_nil_iff]
    intro entry mem
    rw [bare entry.1 (List.fst_mem_of_mem_zipIdx mem), List.map_nil]
  simp only [edgesOf_eq, List.zipIdx_append, List.zipIdx_cons, List.flatMap_append,
    List.flatMap_cons, none_after, List.append_nil, Nat.zero_add]

private theorem source_lt_of_mem_edgesOf {e : Edge} (mem : e ∈ edgesOf before) :
    e.source < before.length := by
  obtain ⟨⟨b, i⟩, listed, place⟩ := List.mem_flatMap.mp mem
  obtain ⟨_, _, rfl⟩ := List.mem_map.mp place
  exact List.snd_lt_of_mem_zipIdx listed

theorem insert_ofBlocks_returning (names : List String) (name : String) :
    (ofBlocks (names.map Block.returning)).insert (Block.returning name) =
      ofBlocks ((names ++ [name]).map Block.returning) := by
  have no_edges : ∀ names : List String, edgesOf (names.map Block.returning) = [] := by
    intro names
    rw [edgesOf, List.flatMap_eq_nil_iff]
    rintro ⟨c, i⟩ mem
    obtain ⟨_, _, rfl⟩ := List.mem_map.mp (List.fst_mem_of_mem_zipIdx mem)
    rfl
  refine eq_of_fields ?_ rfl ?_
  · simp [insert, fill, nextId, ofBlocks]
  · rw [insert, edges_ofBlocks, edges_ofBlocks, no_edges, no_edges]
    rfl

private theorem modify_middle (change : Block → Block) :
    ((before ++ b :: after).map some).modify before.length (Option.map change) =
      (before ++ change b :: after).map some := by
  induction before with
  | nil => rfl
  | cons c before ih => exact congrArg (some c :: ·) ih

theorem modify_ofBlocks (change : Block → Block) (keeps : (change b).term = b.term) :
    (ofBlocks (before ++ b :: after)).modify before.length change =
      ofBlocks (before ++ change b :: after) := by
  refine eq_of_fields (modify_middle change) rfl ?_
  rw [modify, edges_ofBlocks, edges_ofBlocks]
  have same : edgesOf (before ++ change b :: after) = edgesOf (before ++ b :: after) := by
    simp only [edgesOf, List.zipIdx_append, List.zipIdx_cons, List.flatMap_append,
      List.flatMap_cons, keeps]
  rw [same]
  simp

/-- A block that led nowhere gets its edges after those of the blocks before it. -/
theorem rewire_ofBlocks (term : Terminator Value Nat) (bare : b.term.arms = [])
    (bare_after : ∀ c ∈ after, c.term.arms = []) :
    ((ofBlocks (before ++ b :: after)).modify before.length
        fun b => { b with term := term }).rewire before.length term.arms =
      ofBlocks (before ++ { b with term := term } :: after) := by
  refine eq_of_fields (modify_middle fun b => { b with term := term }) rfl ?_
  have others : ∀ e ∈ edgesOf before, (e.source != before.length) = true := fun e mem =>
    bne_iff_ne.mpr (Nat.ne_of_lt (source_lt_of_mem_edgesOf mem))
  have length : (before ++ { b with term := term } :: after).length =
      (before ++ b :: after).length := by simp
  simp only [rewire, contains_modify, contains_ofBlocks_eq]
  rw [modify, edges_ofBlocks, edges_ofBlocks, edgesOf_split bare_after, edgesOf_split bare_after,
    bare, List.map_nil, List.append_nil, List.filter_append, length, List.filter_filter]
  congr 1
  refine List.filter_congr fun e mem => ?_
  rw [others e mem, Bool.true_and]

end Listed

end Graph

namespace Function

theorem head?_blockIds (f : Function) : f.blockIds.head? = some 0 := by
  have live : f.graph.contains 0 = true := f.entry_live
  obtain ⟨n, cells⟩ : ∃ n, f.graph.cells.length = n + 1 := by
    cases cells : f.graph.cells with
    | nil => simp [Graph.contains, Graph.block?, blockIn, cells] at live
    | cons _ rest => exact ⟨rest.length, rfl⟩
  simp [blockIds, Graph.ids, cells, List.range_succ_eq_map, live]

private theorem edgeDefect?_eq_none_iff {f : Function} {b : Block} {i : Nat} :
    f.edgeDefect? b i = none ↔
      (∀ t ∈ b.term.targets, f.contains t = true) ∧
        ((f.graph.outgoing i).map fun e => (e.arm, e.target)).Perm b.term.arms := by
  unfold edgeDefect?
  split
  · next live =>
    have live := List.all_eq_true.mp live
    split
    · next same => exact ⟨fun _ => ⟨live, List.isPerm_iff.mp same⟩, fun _ => rfl⟩
    · next differs =>
      refine ⟨fun absent => (nomatch absent), fun right => ?_⟩
      exact absurd (List.isPerm_iff.mpr right.2) differs
  · next dangling =>
    refine ⟨fun absent => (nomatch absent), fun right => ?_⟩
    exact absurd (List.all_eq_true.mpr right.1) dangling

private theorem verifyEdges_eq_ok_iff_edgeDefect? {f : Function} :
    f.verifyEdges = .ok () ↔
      ∀ i b, f.graph.block? i = some b → f.edgeDefect? b i = none := by
  have search : f.verifyEdges = .ok () ↔
      f.blockIds.findSome? (fun i => (f.graph.block? i).bind fun b => f.edgeDefect? b i) =
        none := by
    unfold verifyEdges
    split <;> simp_all
  rw [search, List.findSome?_eq_none_iff]
  constructor
  · intro sound i b found
    have listed : i ∈ f.blockIds := (f.graph.mem_ids i).mpr (Graph.contains_of_block? found)
    simpa [found] using sound i listed
  · intro sound i _
    cases found : f.graph.block? i with
    | none => rfl
    | some b => exact sound i b found

/-- The check of the edges accepts exactly the consistent graphs. -/
theorem verifyEdges_eq_ok_iff {f : Function} : f.verifyEdges = .ok () ↔ f.graph.Consistent := by
  rw [verifyEdges_eq_ok_iff_edgeDefect?]
  constructor
  · intro sound
    refine Graph.consistent_iff_outgoing.mpr fun i => ?_
    cases found : f.graph.block? i with
    | none => simp [Graph.outgoing_of_absent found, Graph.arms, found]
    | some b =>
      rw [Graph.arms_of_block? found]
      exact (edgeDefect?_eq_none_iff.mp (sound i b found)).2
  · intro hf i b found
    refine edgeDefect?_eq_none_iff.mpr ⟨?_, ?_⟩
    · intro t mem
      exact hf.contains_target (i := i) (by rwa [Graph.targets_of_block? found])
    · rw [← Graph.arms_of_block? found]
      exact Graph.consistent_iff_outgoing.mp hf i

end Function

end BranchTrim
