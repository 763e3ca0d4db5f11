import BranchTrim.Proofs.Flow.Edits

/-!
Pruning as a series of moves. Whatever order the stages of pruning work in, there are three things
that they ever do to a function: they turn a branch into a jump, they remove blocks that nothing
else leads to, and they fold a block into the one that jumps to it. What pruning keeps is shown for
each of these moves, and then follows for all of pruning.
-/

set_option autoImplicit false

namespace BranchTrim

namespace Stats

theorem ext_iff {s t : Stats} : s = t ↔ s.instsEliminated = t.instsEliminated ∧
    s.blocksEliminated = t.blocksEliminated ∧ s.blocksMerged = t.blocksMerged ∧
    s.branchesPruned = t.branchesPruned := by
  cases s
  cases t
  simp

theorem add_def (s t : Stats) : s + t =
    ⟨s.instsEliminated + t.instsEliminated, s.blocksEliminated + t.blocksEliminated,
      s.blocksMerged + t.blocksMerged, s.branchesPruned + t.branchesPruned⟩ :=
  rfl

@[simp]
theorem zero_add (s : Stats) : zero + s = s := by
  simp [add_def, zero]

@[simp]
theorem add_zero (s : Stats) : s + zero = s := by
  simp [add_def, zero]

private theorem add_assoc (s t u : Stats) : s + t + u = s + (t + u) := by
  simp [add_def, Nat.add_assoc]

theorem add_eq_zero_iff {s t : Stats} : s + t = zero ↔ s = zero ∧ t = zero := by
  simp only [ext_iff, add_def, zero]
  omega

private theorem foldl_add (s : Stats) (stats : List Stats) :
    stats.foldl (· + ·) s = s + stats.foldl (· + ·) zero := by
  induction stats generalizing s with
  | nil => simp
  | cons t stats ih =>
    simp only [List.foldl_cons]
    rw [ih (s + t), ih (zero + t), zero_add, add_assoc]

@[simp]
theorem sum_nil : sum [] = zero :=
  rfl

@[simp]
theorem sum_cons (s : Stats) (stats : List Stats) : sum (s :: stats) = s + sum stats := by
  simp only [sum, List.foldl_cons]
  rw [foldl_add, zero_add]

private theorem sum_append (stats stats' : List Stats) :
    sum (stats ++ stats') = sum stats + sum stats' := by
  induction stats with
  | nil => simp
  | cons s stats ih => simp [ih, add_assoc]

end Stats

inductive Move where
  /-- The branch of a block becomes a jump. The condition never has the given outcome. -/
  | cut (i : Nat) (infeasible : Bool)
  /-- Blocks are removed together. -/
  | drop (blocks : List (Nat × Block))
  /-- A block is folded into the one that jumps to it. -/
  | fold (head next : Nat)

namespace Move

def stats : Move → Stats
  | cut .. => .pruned
  | drop blocks => .sum (blocks.map fun entry => .erased entry.2.size)
  | fold .. => .merged

def total (moves : List Move) : Stats :=
  .sum (moves.map stats)

/-- The block that a move changes without removing it. -/
def site? : Move → Option Nat
  | cut i _ => some i
  | drop _ => none
  | fold head _ => some head

@[simp]
theorem total_nil : total [] = .zero :=
  rfl

@[simp]
theorem total_cons (m : Move) (moves : List Move) : total (m :: moves) = m.stats + total moves := by
  simp [total]

private theorem total_append (moves moves' : List Move) :
    total (moves ++ moves') = total moves + total moves' := by
  simp [total, Stats.sum_append]

end Move

namespace Function

inductive Moves (f g : Function) : Move → Prop
  | cut {i : Nat} {infeasible : Bool} {b : Block} {cond : Value} {whenTrue whenFalse : Nat}
      (found : f.graph.block? i = some b) (branch : b.term = .branch cond whenTrue whenFalse)
      (shape : f.Reshaped g fun j =>
        if i = j then some { b with term := .jump (if infeasible then whenFalse else whenTrue) }
        else f.graph.block? j) :
      Moves f g (.cut i infeasible)
  | drop {blocks : List (Nat × Block)} (nonempty : blocks ≠ [])
      (found : ∀ entry ∈ blocks, f.graph.block? entry.1 = some entry.2)
      (nodup : (blocks.map Prod.fst).Nodup) (inner : f.entry ∉ blocks.map Prod.fst)
      (closed : ∀ t ∈ blocks.map Prod.fst, ∀ j, t ∈ f.graph.targets j →
        j ∈ blocks.map Prod.fst)
      (shape : f.Reshaped g fun j =>
        if j ∈ blocks.map Prod.fst then none else f.graph.block? j) :
      Moves f g (.drop blocks)
  | fold {head next : Nat} {p b : Block} (foldable : f.Foldable head next p b)
      (shape : f.Reshaped g (f.foldedBlocks head next p b)) :
      Moves f g (.fold head next)

/-- A series of moves leads from one function to another. Each move is allowed where it is made. -/
inductive Derives (allowed : Function → Move → Prop) :
    Function → List Move → Function → Prop
  | refl (f : Function) : Derives allowed f [] f
  | step {f g h : Function} {m : Move} {moves : List Move} (permitted : allowed f m)
      (move : f.Moves g m) (rest : Derives allowed g moves h) : Derives allowed f (m :: moves) h

variable {f g h : Function} {m : Move} {moves moves' : List Move}
  {allowed allowed' : Function → Move → Prop}

theorem Moves.fields (move : f.Moves g m) :
    g.name = f.name ∧ g.params = f.params ∧ g.valueNames = f.valueNames := by
  cases move with
  | cut _ _ shape => exact ⟨shape.name, shape.params, shape.valueNames⟩
  | drop _ _ _ _ _ shape => exact ⟨shape.name, shape.params, shape.valueNames⟩
  | fold _ shape => exact ⟨shape.name, shape.params, shape.valueNames⟩

private theorem Moves.frame (move : f.Moves g m) {j : Nat} (away : m.site? ≠ some j) :
    g.graph.block? j = f.graph.block? j ∨ g.graph.block? j = none := by
  cases move with
  | @cut i _ _ _ _ _ _ _ shape =>
    have other : i ≠ j := fun same => away (congrArg some same)
    exact Or.inl (by rw [shape.block?, if_neg other])
  | drop _ _ _ _ _ shape =>
    rw [shape.block?]
    split
    · exact Or.inr rfl
    · exact Or.inl rfl
  | @fold head next _ _ _ shape =>
    have other : head ≠ j := fun same => away (congrArg some same)
    rw [shape.block?, foldedBlocks, if_neg other]
    split
    · exact Or.inr rfl
    · exact Or.inl rfl

theorem Moves.contains (move : f.Moves g m) {j : Nat} (live : g.graph.contains j = true) :
    f.graph.contains j = true := by
  by_cases away : m.site? = some j
  · cases move with
    | cut found => exact Option.some.inj away ▸ Graph.contains_of_block? found
    | drop => cases away
    | fold foldable => exact Option.some.inj away ▸ Graph.contains_of_block? foldable.head_found
  · rcases move.frame away with same | gone
    · rwa [Graph.contains, same] at live
    · simp [Graph.contains, gone] at live

namespace Derives

theorem single (permitted : allowed f m) (move : f.Moves g m) : Derives allowed f [m] g :=
  .step permitted move (.refl g)

theorem trans (first : Derives allowed f moves g) (second : Derives allowed g moves' h) :
    Derives allowed f (moves ++ moves') h := by
  induction first with
  | refl => exact second
  | step permitted move _ ih => exact .step permitted move (ih second)

theorem mono (series : Derives allowed f moves g) (weaker : ∀ f m, allowed f m → allowed' f m) :
    Derives allowed' f moves g := by
  induction series with
  | refl f => exact .refl f
  | step permitted move _ ih => exact .step (weaker _ _ permitted) move ih

theorem fields (series : Derives allowed f moves g) :
    g.name = f.name ∧ g.params = f.params ∧ g.valueNames = f.valueNames := by
  induction series with
  | refl => exact ⟨rfl, rfl, rfl⟩
  | step _ move _ ih =>
    obtain ⟨name, params, valueNames⟩ := move.fields
    exact ⟨ih.1.trans name, ih.2.1.trans params, ih.2.2.trans valueNames⟩

private theorem frame (series : Derives allowed f moves g) {j : Nat}
    (away : ∀ f m, allowed f m → m.site? ≠ some j) :
    g.graph.block? j = f.graph.block? j ∨ g.graph.block? j = none := by
  induction series with
  | refl => exact Or.inl rfl
  | step permitted move _ ih =>
    rcases ih with same | gone
    · rw [same]
      exact move.frame (away _ _ permitted)
    · exact Or.inr gone

end Derives

private theorem Moves.stats_ne_zero (move : f.Moves g m) : m.stats ≠ .zero := by
  cases move with
  | cut => simp [Move.stats, Stats.pruned, Stats.zero]
  | @drop blocks nonempty =>
    rcases blocks with _ | ⟨entry, blocks⟩
    · exact absurd rfl nonempty
    · rw [Move.stats, List.map_cons, Stats.sum_cons, ne_eq, Stats.add_eq_zero_iff]
      simp [Stats.erased, Stats.zero]
  | fold => simp [Move.stats, Stats.merged, Stats.zero]

/-- Every move is counted: a series that counts for nothing is empty. -/
private theorem Derives.eq_of_total_eq_zero (series : Derives allowed f moves g)
    (idle : Move.total moves = .zero) : g = f := by
  cases series with
  | refl => rfl
  | step _ move _ =>
    rw [Move.total_cons, Stats.add_eq_zero_iff] at idle
    exact absurd idle.1 move.stats_ne_zero

end Function

namespace Outcome

variable {allowed allowed' : Function → Move → Prop} {f : Function} {o : Outcome}

/-- The outcome has a consistent graph, and allowed moves lead to it that its statistics count. -/
structure DerivedFrom (o : Outcome) (allowed : Function → Move → Prop) (f : Function) :
    Prop where
  consistent : o.func.graph.Consistent
  moves : ∃ moves, f.Derives allowed moves o.func ∧ o.stats = Move.total moves

theorem DerivedFrom.unchanged (hf : f.graph.Consistent) :
    (Outcome.unchanged f).DerivedFrom allowed f :=
  ⟨hf, [], .refl f, rfl⟩

theorem DerivedFrom.mono (derived : o.DerivedFrom allowed f)
    (weaker : ∀ f m, allowed f m → allowed' f m) : o.DerivedFrom allowed' f := by
  obtain ⟨hg, moves, series, stats⟩ := derived
  exact ⟨hg, moves, series.mono weaker, stats⟩

theorem DerivedFrom.after {g : Function} {moves : List Move} {log : List Event}
    (derived : o.DerivedFrom allowed g) (earlier : f.Derives allowed moves g) :
    (o.after (Move.total moves) log).DerivedFrom allowed f := by
  obtain ⟨hg, later, series, stats⟩ := derived
  refine ⟨hg, moves ++ later, earlier.trans series, ?_⟩
  rw [Move.total_append, ← stats]
  rfl

theorem DerivedFrom.withLog {log : List Event} (derived : o.DerivedFrom allowed f) :
    (o.after .zero log).DerivedFrom allowed f :=
  derived.after (.refl f)

theorem DerivedFrom.trans {o' : Outcome} (first : o.DerivedFrom allowed f)
    (second : o'.DerivedFrom allowed o.func) : (o'.after o.stats o.log).DerivedFrom allowed f := by
  obtain ⟨_, moves, series, stats⟩ := first
  rw [stats]
  exact second.after series

theorem DerivedFrom.frame (derived : o.DerivedFrom allowed f) {j : Nat}
    (away : ∀ f m, allowed f m → m.site? ≠ some j) :
    o.func.graph.block? j = f.graph.block? j ∨ o.func.graph.block? j = none := by
  obtain ⟨_, _, series, _⟩ := derived
  exact series.frame away

theorem DerivedFrom.eq_of_stats_eq_zero (derived : o.DerivedFrom allowed f)
    (idle : o.stats = .zero) : o.func = f := by
  obtain ⟨_, _, series, stats⟩ := derived
  exact series.eq_of_total_eq_zero (stats.symm.trans idle)

theorem forEach_returns {step : Function → Nat → Except Fault Outcome}
    (each : ∀ g i, g.graph.Consistent → ∃ o, step g i = .ok o ∧ o.DerivedFrom allowed g)
    (ids : List Nat) (f : Function) (hf : f.graph.Consistent) :
    ∃ o, forEach step ids f = .ok o ∧ o.DerivedFrom allowed f := by
  induction ids generalizing f with
  | nil => exact ⟨_, rfl, .unchanged hf⟩
  | cons i ids ih =>
    obtain ⟨o, returned, derived⟩ := each f i hf
    obtain ⟨o', returned', derived'⟩ := ih o.func derived.consistent
    refine ⟨o'.after o.stats o.log, ?_, derived.trans derived'⟩
    simp [forEach, andThen, returned, returned']

/-- Steps that each settle their own block and keep the others settled leave all blocks settled. -/
theorem forEach_settles (settled : Function → Nat → Prop)
    {step : Function → Nat → Except Fault Outcome}
    (each : ∀ g i o, g.graph.Consistent → step g i = .ok o → o.func.graph.Consistent ∧
      settled o.func i ∧ ∀ j, j ≠ i → settled g j → settled o.func j)
    {ids : List Nat} (hf : f.graph.Consistent) (others : ∀ i, i ∉ ids → settled f i)
    (h : forEach step ids f = .ok o) (i : Nat) : settled o.func i := by
  -- The blocks that are not on the rest of the list are settled all the time.
  induction ids generalizing f o with
  | nil =>
    cases h
    exact others i List.not_mem_nil
  | cons k ids ih =>
    obtain ⟨o₁, first, h⟩ := bind_eq_ok h
    obtain ⟨o₂, rest, h⟩ := bind_eq_ok h
    cases h
    obtain ⟨consistent, here, elsewhere⟩ := each f k o₁ hf first
    show settled o₂.func i
    refine ih consistent ?_ rest
    intro j outside
    by_cases at_k : j = k
    · exact at_k ▸ here
    · exact elsewhere j at_k (others j (by simp [at_k, outside]))

end Outcome

end BranchTrim
