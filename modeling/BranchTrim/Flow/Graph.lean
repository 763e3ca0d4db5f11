import BranchTrim.Flow.Block

/-!
Control flow graphs. Blocks sit in numbered cells; removing one leaves a hole, and the hole made
last is filled first. Beside the blocks stands a list of edges, one for each place of a terminator.
The graph guarantees that the list of holes is right and that edges join blocks that are there. That
the edges agree with the terminators is up to the edits built on top.
-/

set_option autoImplicit false

namespace BranchTrim

/-- An edge, with the place in the terminator of its source that it stands for. -/
structure Edge where
  source : Nat
  arm : Arm
  target : Nat
  deriving DecidableEq, Repr

/-- The block in a numbered cell, if the cell exists and is no hole. -/
def blockIn (cells : List (Option Block)) (i : Nat) : Option Block :=
  cells[i]?.join

/-- Blocks in numbered cells, with the holes between them and the edges that join them. -/
structure Graph where
  cells : List (Option Block)
  /-- The holes, the one made last in front. -/
  holes : List Nat
  edges : List Edge
  mem_holes : ∀ i, i ∈ holes ↔ cells[i]? = some none
  nodup_holes : holes.Nodup
  edges_live : ∀ e ∈ edges, (blockIn cells e.source).isSome ∧ (blockIn cells e.target).isSome

namespace Graph

def block? (g : Graph) (i : Nat) : Option Block :=
  blockIn g.cells i

def contains (g : Graph) (i : Nat) : Bool :=
  (g.block? i).isSome

def ids (g : Graph) : List Nat :=
  (List.range g.cells.length).filter g.contains

def count (p : Block → Bool) (g : Graph) : Nat :=
  g.cells.countP (Option.any p)

def incoming (g : Graph) (i : Nat) : List Edge :=
  g.edges.filter fun e => e.target == i

def outgoing (g : Graph) (i : Nat) : List Edge :=
  g.edges.filter fun e => e.source == i

def single (b : Block) : Graph where
  cells := [some b]
  holes := []
  edges := []
  mem_holes i := by cases i <;> simp
  nodup_holes := List.nodup_nil
  edges_live := by simp

/-- The number that the next block gets: the hole made last, or else a new cell. -/
def nextId (g : Graph) : Nat :=
  g.holes.headD g.cells.length

private theorem blockIn_modify (cells : List (Option Block)) (i j : Nat) (f : Block → Block) :
    blockIn (cells.modify i (Option.map f)) j =
      if i = j then (blockIn cells j).map f else blockIn cells j := by
  unfold blockIn
  rw [List.getElem?_modify]
  split <;> rcases cells[j]? with _ | _ | b <;> simp_all

theorem blockIn_set_none (cells : List (Option Block)) (i j : Nat) :
    blockIn (cells.set i none) j = if i = j then none else blockIn cells j := by
  unfold blockIn
  rw [List.getElem?_set]
  split
  · split <;> simp_all
  · rfl

/-- Puts a block into a cell, which is made if it is the next one. -/
def fill (cells : List (Option Block)) (i : Nat) (b : Block) : List (Option Block) :=
  if i < cells.length then cells.set i (some b) else cells ++ [some b]

private theorem getElem?_fill (cells : List (Option Block)) (i j : Nat) (b : Block)
    (h : i ≤ cells.length) :
    (fill cells i b)[j]? = if i = j then some (some b) else cells[j]? := by
  unfold fill
  split
  · next inside => simp only [List.getElem?_set, inside, if_true]
  · next outside =>
    have last : i = cells.length := by omega
    subst last
    rcases Nat.lt_trichotomy j cells.length with lt | eq | gt
    · rw [List.getElem?_append_left lt, if_neg (by omega)]
    · simp [eq]
    · rw [if_neg (by omega), List.getElem?_eq_none (by simp; omega),
        List.getElem?_eq_none (by omega)]

private theorem blockIn_fill (cells : List (Option Block)) (i j : Nat) (b : Block)
    (h : i ≤ cells.length) :
    blockIn (fill cells i b) j = if i = j then some b else blockIn cells j := by
  unfold blockIn
  rw [getElem?_fill cells i j b h]
  split <;> rfl

/-- Changes the block in one cell, which has to keep its edges. Nothing happens in a hole. -/
def modify (g : Graph) (i : Nat) (f : Block → Block) : Graph where
  cells := g.cells.modify i (Option.map f)
  holes := g.holes
  edges := g.edges
  mem_holes j := by
    rw [g.mem_holes, List.getElem?_modify]
    split <;> rcases g.cells[j]? with _ | _ | b <;> simp
  nodup_holes := g.nodup_holes
  edges_live e he := by
    have live := g.edges_live e he
    simp only [blockIn_modify]
    constructor <;> split <;> simp [live]

/-- Replaces the edges out of a block. Those that would not join two blocks of the graph
are left out. -/
def rewire (g : Graph) (i : Nat) (arms : List (Arm × Nat)) : Graph where
  cells := g.cells
  holes := g.holes
  edges := g.edges.filter (fun e => e.source != i) ++
    (arms.map fun (arm, target) => Edge.mk i arm target).filter fun e =>
      g.contains e.source && g.contains e.target
  mem_holes := g.mem_holes
  nodup_holes := g.nodup_holes
  edges_live e he := by
    rcases List.mem_append.mp he with old | new
    · exact g.edges_live e (List.mem_filter.mp old).1
    · have live := (List.mem_filter.mp new).2
      simpa [contains, block?] using live

private theorem nextId_le (g : Graph) : g.nextId ≤ g.cells.length := by
  unfold nextId
  rcases h : g.holes with _ | ⟨hole, rest⟩
  · exact Nat.le_refl _
  · have isHole := (g.mem_holes hole).mp (by simp [h])
    exact Nat.le_of_lt (List.getElem?_eq_some_iff.mp isHole).1

def insert (g : Graph) (b : Block) : Graph where
  cells := fill g.cells g.nextId b
  holes := g.holes.tail
  edges := g.edges
  mem_holes j := by
    have isHole := g.mem_holes j
    have nodup := g.nodup_holes
    rw [getElem?_fill _ _ _ _ g.nextId_le]
    unfold nextId
    rcases h : g.holes with _ | ⟨hole, rest⟩
    · rw [h] at isHole
      simp only [List.tail_nil, List.headD_nil, isHole]
      by_cases eq : g.cells.length = j
      · simp [← eq]
      · simp [eq]
    · rw [h] at isHole nodup
      simp only [List.tail_cons, List.headD_cons]
      by_cases eq : hole = j
      · simp [← eq, (List.nodup_cons.mp nodup).1]
      · simp [eq, ← isHole, Ne.symm eq]
  nodup_holes := g.nodup_holes.tail
  edges_live e he := by
    have live := g.edges_live e he
    simp only [blockIn_fill _ _ _ _ g.nextId_le]
    constructor <;> split <;> simp [live]

def erase (g : Graph) (i : Nat) : Graph :=
  if h : g.contains i then
    have filled : ∃ b, g.cells[i]? = some (some b) := by
      simp only [contains, block?, blockIn] at h
      rcases eq : g.cells[i]? with _ | _ | b <;> simp_all
    { cells := g.cells.set i none
      holes := i :: g.holes
      edges := g.edges.filter fun e => e.source != i && e.target != i
      mem_holes := fun j => by
        obtain ⟨b, filled⟩ := filled
        have inside := (List.getElem?_eq_some_iff.mp filled).1
        rw [List.mem_cons, g.mem_holes, List.getElem?_set]
        by_cases eq : i = j
        · subst eq
          simp [inside]
        · simp [eq, Ne.symm eq]
      nodup_holes := by
        obtain ⟨b, filled⟩ := filled
        refine List.nodup_cons.mpr ⟨fun mem => ?_, g.nodup_holes⟩
        have hole := (g.mem_holes i).mp mem
        simp [filled] at hole
      edges_live := fun e he => by
        obtain ⟨mem, away⟩ := List.mem_filter.mp he
        have live := g.edges_live e mem
        simp only [Bool.and_eq_true, bne_iff_ne, ne_eq] at away
        simp only [blockIn_set_none]
        rw [if_neg (Ne.symm away.1), if_neg (Ne.symm away.2)]
        exact live }
  else g

def edgesOf (blocks : List Block) : List Edge :=
  blocks.zipIdx.flatMap fun (b, i) => b.term.arms.map fun (arm, target) => ⟨i, arm, target⟩

/-- The graph of blocks numbered from 0, with the edges that lead from one of them to another. -/
def ofBlocks (blocks : List Block) : Graph where
  cells := blocks.map some
  holes := []
  edges := (edgesOf blocks).filter fun e =>
    (blockIn (blocks.map some) e.source).isSome && (blockIn (blocks.map some) e.target).isSome
  mem_holes i := by simp
  nodup_holes := List.nodup_nil
  edges_live e he := by
    have live := (List.mem_filter.mp he).2
    simpa using live

theorem block?_modify (g : Graph) (i j : Nat) (f : Block → Block) :
    (g.modify i f).block? j = if i = j then (g.block? j).map f else g.block? j :=
  blockIn_modify g.cells i j f

@[simp]
theorem block?_rewire (g : Graph) (i j : Nat) (arms : List (Arm × Nat)) :
    (g.rewire i arms).block? j = g.block? j :=
  rfl

theorem block?_insert (g : Graph) (b : Block) (j : Nat) :
    (g.insert b).block? j = if g.nextId = j then some b else g.block? j :=
  blockIn_fill g.cells g.nextId j b g.nextId_le

theorem block?_erase (g : Graph) (i j : Nat) :
    (g.erase i).block? j = if i = j then none else g.block? j := by
  unfold erase
  split
  · exact blockIn_set_none g.cells i j
  · next absent =>
    split
    · next eq => subst eq; simpa [contains] using absent
    · rfl

@[simp]
theorem contains_modify (g : Graph) (i j : Nat) (f : Block → Block) :
    (g.modify i f).contains j = g.contains j := by
  unfold contains
  rw [block?_modify]
  split <;> simp

@[simp]
theorem contains_rewire (g : Graph) (i j : Nat) (arms : List (Arm × Nat)) :
    (g.rewire i arms).contains j = g.contains j :=
  rfl

theorem contains_insert (g : Graph) (b : Block) (j : Nat) :
    (g.insert b).contains j = (g.nextId == j || g.contains j) := by
  unfold contains
  rw [block?_insert]
  split <;> simp_all

theorem contains_erase (g : Graph) (i j : Nat) :
    (g.erase i).contains j = (i != j && g.contains j) := by
  unfold contains
  rw [block?_erase]
  split <;> simp_all

theorem mem_ids (g : Graph) (i : Nat) : i ∈ g.ids ↔ g.contains i := by
  simp only [ids, List.mem_filter, List.mem_range, and_iff_right_iff_imp]
  intro live
  simp only [contains, block?, blockIn] at live
  rcases eq : g.cells[i]? with _ | cell
  · simp [eq] at live
  · exact (List.getElem?_eq_some_iff.mp eq).1

end Graph

end BranchTrim
