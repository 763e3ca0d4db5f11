import BranchTrim.Proofs.Prune.Steps
import Mathlib.Algebra.BigOperators.Group.Finset.Basic
import Mathlib.Order.Bounds.Basic

/-!
What the removal of dead blocks removes. Candidates are taken one by one; one that another block
still leads to is put aside, and comes back when that block goes. In whatever order this is done,
the blocks that go are the least set that is closed: with the candidates and with the successors of
its members, it has all those that only its members lead to.
-/

set_option autoImplicit false

namespace BranchTrim

namespace Function

variable {f f' g : Function} {work : Multiset ℕ} {S : Finset ℕ} {i j k : ℕ} {b : Block}
  {stats : Stats}

section Closed

/-- A block other than the entry that only members of a set lead to, apart from the block itself. -/
structure Exposed (f : Function) (S : Finset ℕ) (i : ℕ) : Prop where
  live : f.contains i = true
  inner : i ≠ f.entry
  only : ∀ j ∈ f.predecessors i, j ∈ S ∨ j = i

/-- A block that is one of some candidates, or that a member of a set leads to. -/
def Touched (f : Function) (work : Multiset ℕ) (S : Finset ℕ) (i : ℕ) : Prop :=
  i ∈ work ∨ ∃ j ∈ S, i ∈ f.graph.targets j

/-- A set has all the exposed blocks among some candidates and among the successors
of its members. -/
def ClosedFrom (f : Function) (work : Multiset ℕ) (S : Finset ℕ) : Prop :=
  ∀ i, f.Touched work S i → f.Exposed S i → i ∈ S

private theorem mem_predecessors (hf : f.graph.Consistent) :
    j ∈ f.predecessors i ↔ i ∈ f.graph.targets j :=
  hf.mem_sources

private theorem closedFrom_cons_of_alive (hf : f.graph.Consistent) (alive : f.isDead i = false) :
    f.ClosedFrom (i ::ₘ work) S ↔ f.ClosedFrom work S := by
  constructor
  · intro closed k touched
    exact closed k (touched.imp_left Multiset.mem_cons_of_mem)
  · intro closed k touched exposed
    rcases touched with listed | next
    · rcases Multiset.mem_cons.mp listed with rfl | listed
      · obtain ⟨j, leads, other⟩ : ∃ j, k ∈ f.graph.targets j ∧ j ≠ k := by
          by_contra none_else
          push Not at none_else
          have dead : f.isDead k = true :=
            (isDead_iff hf).mpr ⟨Graph.contains_iff.mp exposed.live, exposed.inner, none_else⟩
          rw [alive] at dead
          cases dead
        have member : j ∈ S :=
          (exposed.only j ((mem_predecessors hf).mpr leads)).resolve_right other
        exact closed k (Or.inr ⟨j, member, leads⟩) exposed
      · exact closed k (Or.inl listed) exposed
    · exact closed k (Or.inr next) exposed

private theorem ClosedFrom.insert_absent (hf : f.graph.Consistent) (closed : f.ClosedFrom work S)
    (absent : f.contains i = false) : f.ClosedFrom work (insert i S) := by
  have other : ∀ j k, k ∈ f.graph.targets j → j ∈ insert i S → j ∈ S := by
    intro j k leads member
    refine (Finset.mem_insert.mp member).resolve_left ?_
    rintro rfl
    have live : f.contains j = true := Graph.contains_of_mem_targets leads
    rw [absent] at live
    cases live
  intro k touched exposed
  refine Finset.mem_insert_of_mem (closed k ?_ ⟨exposed.live, exposed.inner, ?_⟩)
  · refine touched.imp_right ?_
    rintro ⟨j, member, leads⟩
    exact ⟨j, other j k leads member, leads⟩
  · intro j pred
    exact (exposed.only j pred).imp_left (other j k ((mem_predecessors hf).mp pred))

end Closed

section Removed

variable (hf : f.graph.Consistent) (removed : f.removeBlock i = .ok (b, f'))

include hf removed

private theorem contains_of_removed : f'.contains k = true ↔ k ≠ i ∧ f.contains k = true := by
  obtain ⟨_, _, _, _, shape⟩ := removeBlock_shape hf removed
  simp only [contains, Graph.contains, shape.block?]
  by_cases at_i : i = k
  · simp [at_i]
  · simp [at_i, Ne.symm at_i]

private theorem mem_targets_of_removed :
    k ∈ f'.graph.targets j ↔ j ≠ i ∧ k ∈ f.graph.targets j := by
  obtain ⟨_, _, _, _, shape⟩ := removeBlock_shape hf removed
  simp only [Graph.mem_targets, shape.block?]
  by_cases at_i : i = j
  · simp [at_i]
  · simp [at_i, Ne.symm at_i]

private theorem exposed_of_removed (member : i ∈ S) :
    f'.Exposed S k ↔ k ≠ i ∧ f.Exposed S k := by
  obtain ⟨_, _, _, hf', _⟩ := removeBlock_shape hf removed
  have preds : ∀ j, j ∈ f'.predecessors k ↔ j ≠ i ∧ j ∈ f.predecessors k := by
    intro j
    rw [mem_predecessors hf', mem_predecessors hf]
    exact mem_targets_of_removed hf removed
  constructor
  · intro exposed
    obtain ⟨other, live⟩ := (contains_of_removed hf removed).mp exposed.live
    refine ⟨other, live, exposed.inner, fun j pred => ?_⟩
    by_cases at_i : j = i
    · exact Or.inl (at_i ▸ member)
    · exact exposed.only j ((preds j).mpr ⟨at_i, pred⟩)
  · rintro ⟨other, exposed⟩
    refine ⟨(contains_of_removed hf removed).mpr ⟨other, exposed.live⟩, exposed.inner, ?_⟩
    exact fun j pred => exposed.only j ((preds j).mp pred).2

private theorem touched_of_removed (member : i ∈ S) (other : k ≠ i) :
    f'.Touched (↑(b.term.targets.filter (· != i)) + work) S k ↔
      f.Touched (i ::ₘ work) S k := by
  obtain ⟨found, _⟩ := removeBlock_shape hf removed
  have targets : f.graph.targets i = b.term.targets := Graph.targets_of_block? found
  constructor
  · rintro (listed | ⟨j, from_member, leads⟩)
    · rcases Multiset.mem_add.mp listed with next | listed
      · have leads := (List.mem_filter.mp (Multiset.mem_coe.mp next)).1
        exact Or.inr ⟨i, member, targets ▸ leads⟩
      · exact Or.inl (Multiset.mem_cons_of_mem listed)
    · exact Or.inr ⟨j, from_member, ((mem_targets_of_removed hf removed).mp leads).2⟩
  · rintro (listed | ⟨j, from_member, leads⟩)
    · have listed := (Multiset.mem_cons.mp listed).resolve_left other
      exact Or.inl (Multiset.mem_add.mpr (Or.inr listed))
    · by_cases from_i : j = i
      · rw [from_i, targets] at leads
        have next : k ∈ b.term.targets.filter (· != i) :=
          List.mem_filter.mpr ⟨leads, by simpa⟩
        exact Or.inl (Multiset.mem_add.mpr (Or.inl (Multiset.mem_coe.mpr next)))
      · exact Or.inr ⟨j, from_member,
          (mem_targets_of_removed hf removed).mpr ⟨from_i, leads⟩⟩

/-- A closed set has a dead candidate, and is closed after that one is gone, with its
successors as candidates. -/
private theorem closedFrom_cons_of_removed :
    f.ClosedFrom (i ::ₘ work) S ↔
      i ∈ S ∧ f'.ClosedFrom (↑(b.term.targets.filter (· != i)) + work) S := by
  obtain ⟨found, inner, alone, _⟩ := removeBlock_shape hf removed
  have dead : f.Exposed S i := by
    refine ⟨Graph.contains_of_block? found, inner, fun j pred => ?_⟩
    exact Or.inr (alone j ((mem_predecessors hf).mp pred))
  constructor
  · intro closed
    have member : i ∈ S := closed i (Or.inl (Multiset.mem_cons_self i work)) dead
    refine ⟨member, fun k touched exposed => ?_⟩
    obtain ⟨other, exposed⟩ := (exposed_of_removed hf removed member).mp exposed
    exact closed k ((touched_of_removed hf removed member other).mp touched) exposed
  · rintro ⟨member, closed⟩ k touched exposed
    by_cases other : k = i
    · exact other ▸ member
    · exact closed k ((touched_of_removed hf removed member other).mpr touched)
        ((exposed_of_removed hf removed member).mpr ⟨other, exposed⟩)

end Removed

section Clearing

/--
Dead blocks are cleared away, with the candidates taken in any order. A candidate that is not dead
is put aside; the successors of a block that is removed become candidates.
-/
inductive Clears : Function → Multiset ℕ → Function → Stats → Prop
  | done (f : Function) : Clears f 0 f .zero
  | pass {f g : Function} {work : Multiset ℕ} {stats : Stats} {i : ℕ}
    (alive : f.isDead i = false)
      (rest : Clears f work g stats) : Clears f (i ::ₘ work) g stats
  | take {f f' g : Function} {work : Multiset ℕ} {stats : Stats} {i : ℕ} {b : Block}
      (dead : f.isDead i = true) (removed : f.removeBlock i = .ok (b, f'))
      (rest : Clears f' (↑(b.term.targets.filter (· != i)) + work) g stats) :
      Clears f (i ::ₘ work) g (.erased b.size + stats)

private theorem clears_of_removeDeadAmong {stack : List ℕ} {o : Outcome}
    (h : f.removeDeadAmong stack = .ok o) : Clears f stack o.func o.stats := by
  fun_induction removeDeadAmong f stack generalizing o with
  | case1 f =>
    cases h
    exact .done f
  | case2 => cases h
  | case3 f i stack dead b f' removed ih =>
    obtain ⟨o', rest, h⟩ := bind_eq_ok h
    cases h
    have later :
        Clears f' ↑((b.term.targets.filter (· != i)).reverse ++ stack) o'.func o'.stats :=
      ih rest
    rw [← Multiset.coe_add, Multiset.coe_reverse] at later
    exact .take dead removed later
  | case4 f i stack alive ih => exact .pass (Bool.not_eq_true _ ▸ alive) (ih h)

def sizeAt (f : Function) (i : ℕ) : ℕ :=
  ((f.graph.block? i).map Block.size).getD 0

/-- The second function is the first one without the blocks of a set, which the statistics count. -/
structure Erases (f g : Function) (S : Finset ℕ) (stats : Stats) : Prop where
  inner : ∀ i ∈ S, f.contains i = true ∧ i ≠ f.entry
  shape : f.Reshaped g fun i => if i ∈ S then none else f.graph.block? i
  counted : stats = ⟨∑ i ∈ S, f.sizeAt i, S.card, 0, 0⟩

theorem erases_empty (f : Function) : f.Erases f ∅ .zero :=
  ⟨by simp, ⟨rfl, rfl, rfl, by simp⟩, rfl⟩

private theorem Erases.insert (hf : f.graph.Consistent) (removed : f.removeBlock i = .ok (b, f'))
    (erases : f'.Erases g S stats) : f.Erases g (insert i S) (.erased b.size + stats) := by
  obtain ⟨found, inner, _, _, shape⟩ := removeBlock_shape hf removed
  have others : ∀ j ∈ S, j ≠ i ∧ f.contains j = true := fun j member =>
    (contains_of_removed hf removed).mp (erases.inner j member).1
  have fresh : i ∉ S := fun member => (others i member).1 rfl
  refine ⟨?_, ?_, ?_⟩
  · intro j member
    rcases Finset.mem_insert.mp member with rfl | member
    · exact ⟨Graph.contains_of_block? found, inner⟩
    · exact ⟨(others j member).2, (erases.inner j member).2⟩
  · have both := shape.trans erases.shape
    refine ⟨both.name, both.params, both.valueNames, fun j => ?_⟩
    rw [erases.shape.block?, shape.block?]
    by_cases at_i : i = j
    · simp [at_i]
    · simp [at_i, Ne.symm at_i]
  · have sizes : ∑ j ∈ S, f'.sizeAt j = ∑ j ∈ S, f.sizeAt j := by
      refine Finset.sum_congr rfl fun j member => ?_
      rw [sizeAt, shape.block?, if_neg (others j member).1.symm, sizeAt]
    have size : f.sizeAt i = b.size := by simp [sizeAt, found]
    rw [erases.counted, sizes, Finset.sum_insert fresh, Finset.card_insert_of_notMem fresh, size]
    simp [Stats.add_def, Stats.erased, Nat.add_comm]

/-- In any order, the blocks that are cleared away are the least closed set. -/
private theorem Clears.erases_least (clears : Clears f work g stats) (hf : f.graph.Consistent) :
    ∃ S, f.Erases g S stats ∧ IsLeast {T | f.ClosedFrom work T} S := by
  -- The sets that are closed before a step are those that are closed after it, with the block that
  -- the step removes.
  induction clears with
  | done f =>
    refine ⟨∅, f.erases_empty, ?_, fun _ _ => Finset.empty_subset _⟩
    rintro i (listed | ⟨j, member, _⟩)
    · exact absurd listed (Multiset.notMem_zero i)
    · exact absurd member (Finset.notMem_empty j)
  | pass alive _ ih =>
    obtain ⟨S, erases, least⟩ := ih hf
    refine ⟨S, erases, ?_⟩
    simpa only [closedFrom_cons_of_alive hf alive] using least
  | @take f f' g work stats i b dead removed _ ih =>
    obtain ⟨_, _, _, hf', _⟩ := removeBlock_shape hf removed
    obtain ⟨S, erases, closed, least⟩ := ih hf'
    have absent : f'.contains i = false := by
      rw [← Bool.not_eq_true, contains_of_removed hf removed]
      simp
    refine ⟨insert i S, erases.insert hf removed, ?_, ?_⟩
    · refine (closedFrom_cons_of_removed hf removed).mpr ⟨Finset.mem_insert_self i S, ?_⟩
      exact ClosedFrom.insert_absent hf' closed absent
    · intro T closed'
      obtain ⟨member, closed'⟩ := (closedFrom_cons_of_removed hf removed).mp closed'
      exact Finset.insert_subset member (least closed')

/--
Removal of dead blocks computes a least fixed point: the least set of blocks other than the entry
that has the start, and the successors of its members, if besides them only its members lead there.
All other blocks stay as they are, and the statistics count those that go. In whatever order
candidates are taken, the result is the same.
-/
theorem dead_removal_least (edges : f.verifyEdges = .ok ()) (start : ℕ) :
    ∃ S : Finset ℕ,
      IsLeast {T | (∀ i ∈ T, f.contains i = true ∧ i ≠ f.entry) ∧
        f.ClosedFrom {start} T} S ∧
      (∃ o, f.removeDead start = .ok o ∧ f.Erases o.func S o.stats) ∧
      ∀ g stats, Clears f {start} g stats → f.Erases g S stats := by
  have hf := verifyEdges_eq_ok_iff.mp edges
  obtain ⟨o, returned, _⟩ := removeDead_returns hf start
  have clears : Clears f {start} o.func o.stats := clears_of_removeDeadAmong returned
  obtain ⟨S, erases, least⟩ := clears.erases_least hf
  refine ⟨S, ⟨⟨erases.inner, least.1⟩, fun T closed => least.2 closed.2⟩,
    ⟨o, returned, erases⟩, ?_⟩
  intro g stats clears'
  obtain ⟨S', erases', least'⟩ := clears'.erases_least hf
  rwa [least.unique least']

/-- A function in which nothing leads to the second block, and in which the way on from there
splits, loops and joins. -/
def cascade : Function where
  name := "f"
  params := [0]
  valueNames := ["c"]
  graph := Graph.ofBlocks
    [⟨"entry", [], .jump 5⟩, ⟨"top", [], .branch (.var 0) 2 3⟩,
      ⟨"loop", [], .branch (.var 0) 2 3⟩,
      ⟨"join", [⟨none, .call "g" []⟩], .jump 4⟩, ⟨"twice", [], .branch (.var 0) 5 5⟩,
      ⟨"end", [], .ret none⟩]
  entry_live := rfl
  params_numbered := by decide

theorem dead_removal_least_cascade :
    ∃ S : Finset ℕ, S.card = 4 ∧
      IsLeast {T | (∀ i ∈ T, cascade.contains i = true ∧ i ≠ cascade.entry) ∧
        cascade.ClosedFrom {1} T} S ∧
      (∃ o, cascade.removeDead 1 = .ok o ∧ cascade.Erases o.func S o.stats) ∧
      ∀ g stats, Clears cascade {1} g stats → cascade.Erases g S stats := by
  obtain ⟨S, least, ⟨o, returned, erases⟩, any_order⟩ :=
    dead_removal_least (f := cascade) (by decide) 1
  have counted : (cascade.removeDead 1).toOption.map Outcome.stats = some ⟨5, 4, 0, 0⟩ := by
    decide +kernel
  rw [returned] at counted
  have card : S.card = 4 := by
    have same := erases.counted.symm.trans (Option.some.inj counted)
    exact congrArg Stats.blocksEliminated same
  exact ⟨S, card, least, ⟨o, returned, erases⟩, any_order⟩

end Clearing

end Function

end BranchTrim
