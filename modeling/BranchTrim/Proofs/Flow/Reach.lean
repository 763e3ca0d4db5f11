import BranchTrim.Proofs.Flow.Edges
import BranchTrim.Refusal
import Mathlib.Logic.Relation

/-!
The search for reachable blocks. Depth-first search with a stack and a list of what was seen finds
exactly the blocks to which edges lead, in a graph of any shape; in a consistent graph these are the
blocks to which terminators lead. The full check of a function accepts it if the search finds all
its blocks, and names the first one that it does not find.
-/

set_option autoImplicit false

namespace BranchTrim

namespace Graph

/-- A path of terminators leads from the first block to the second one. -/
abbrev Leads (g : Graph) : Nat → Nat → Prop :=
  Relation.ReflTransGen fun i j => j ∈ g.targets i

private theorem mem_explore_of_seen {g : Graph} {stack seen : List Nat} {i : Nat}
    (mem : i ∈ seen) :
    i ∈ g.explore stack seen := by
  fun_induction explore g stack seen with
  | case1 => exact mem
  | case2 _ _ _ _ ih => exact ih (List.mem_cons_of_mem _ mem)
  | case3 _ _ _ _ ih => exact ih mem

private theorem mem_explore_of_stack {g : Graph} {stack seen : List Nat} {i : Nat}
    (mem : i ∈ stack) (live : g.contains i = true) : i ∈ g.explore stack seen := by
  fun_induction explore g stack seen with
  | case1 => cases mem
  | case2 seen top stack fresh ih =>
    rcases List.mem_cons.mp mem with rfl | mem
    · exact mem_explore_of_seen List.mem_cons_self
    · exact ih (List.mem_append_right _ mem)
  | case3 seen top stack stale ih =>
    rcases List.mem_cons.mp mem with rfl | mem
    · refine mem_explore_of_seen ?_
      by_contra new
      exact stale ⟨live, new⟩
    · exact ih mem

private theorem leads_of_mem_explore {g : Graph} (hg : g.Consistent) {stack seen : List Nat}
    {i : Nat} (mem : i ∈ g.explore stack seen) :
    i ∈ seen ∨ ∃ start ∈ stack, g.Leads start i := by
  fun_induction explore g stack seen with
  | case1 => exact Or.inl mem
  | case2 seen top stack fresh ih =>
    rcases ih mem with old | ⟨start, start_mem, path⟩
    · rcases List.mem_cons.mp old with rfl | old
      · exact Or.inr ⟨i, List.mem_cons_self, .refl⟩
      · exact Or.inl old
    · rcases List.mem_append.mp start_mem with next | waiting
      · exact Or.inr ⟨top, List.mem_cons_self, .head (hg.mem_next.mp next) path⟩
      · exact Or.inr ⟨start, List.mem_cons_of_mem _ waiting, path⟩
  | case3 seen top stack stale ih =>
    rcases ih mem with old | ⟨start, waiting, path⟩
    · exact Or.inl old
    · exact Or.inr ⟨start, List.mem_cons_of_mem _ waiting, path⟩

/-- What was found is closed under terminators, if the rest of the way was on the stack. -/
private theorem explore_closed {g : Graph} (hg : g.Consistent) {stack seen : List Nat}
    (waiting : ∀ i ∈ seen, ∀ t ∈ g.targets i, t ∈ seen ∨ t ∈ stack) {i t : Nat}
    (mem : i ∈ g.explore stack seen) (step : t ∈ g.targets i) : t ∈ g.explore stack seen := by
  fun_induction explore g stack seen with
  | case1 =>
    rcases waiting i mem t step with old | absent
    · exact old
    · cases absent
  | case2 seen top stack fresh ih =>
    refine ih ?_ mem
    intro j j_seen t leads
    rcases List.mem_cons.mp j_seen with rfl | old
    · exact Or.inr (List.mem_append_left _ (hg.mem_next.mpr leads))
    · rcases waiting j old t leads with there | on_stack
      · exact Or.inl (List.mem_cons_of_mem _ there)
      · rcases List.mem_cons.mp on_stack with rfl | later
        · exact Or.inl List.mem_cons_self
        · exact Or.inr (List.mem_append_right _ later)
  | case3 seen top stack stale ih =>
    refine ih ?_ mem
    intro j j_seen t leads
    rcases waiting j j_seen t leads with there | on_stack
    · exact Or.inl there
    · rcases List.mem_cons.mp on_stack with rfl | later
      · -- What is skipped is there already, since terminators lead to blocks only.
        refine Or.inl ?_
        by_contra new
        exact stale ⟨hg.contains_target leads, new⟩
      · exact Or.inr later

private theorem nodup_explore {g : Graph} {stack seen : List Nat} (nodup : seen.Nodup) :
    (g.explore stack seen).Nodup := by
  fun_induction explore g stack seen with
  | case1 => exact nodup
  | case2 seen top stack fresh ih => exact ih (List.nodup_cons.mpr ⟨fresh.2, nodup⟩)
  | case3 seen top stack stale ih => exact ih nodup

private theorem mem_explore_iff {g : Graph} (hg : g.Consistent) {start i : Nat}
    (live : g.contains start = true) : i ∈ g.explore [start] [] ↔ g.Leads start i := by
  constructor
  · intro mem
    rcases leads_of_mem_explore hg mem with absent | ⟨_, only, path⟩
    · cases absent
    · rw [List.mem_singleton] at only
      exact only ▸ path
  · intro path
    induction path with
    | refl => exact mem_explore_of_stack List.mem_cons_self live
    | tail _ step ih => exact explore_closed hg (by simp) ih step

end Graph

namespace Function

variable {f : Function} {i j : Nat}

def Reaches (f : Function) (i : Nat) : Prop :=
  f.graph.Leads f.entry i

theorem reaches_entry (f : Function) : f.Reaches f.entry :=
  .refl

theorem Reaches.step (path : f.Reaches i) (leads : j ∈ f.graph.targets i) : f.Reaches j :=
  .tail path leads

theorem Reaches.contains (hf : f.graph.Consistent) (path : f.Reaches i) :
    f.graph.contains i = true := by
  rcases Relation.ReflTransGen.cases_tail path with here | ⟨_, _, leads⟩
  · rw [here]
    exact f.entry_live
  · exact hf.contains_target leads

private theorem mem_reachable_iff (hf : f.graph.Consistent) : i ∈ f.reachable ↔ f.Reaches i :=
  Graph.mem_explore_iff hf f.entry_live

theorem mem_orphans_iff (hf : f.graph.Consistent) :
    i ∈ f.orphans ↔ f.graph.contains i = true ∧ ¬ f.Reaches i := by
  simp only [orphans, blockIds, List.mem_filter, Graph.mem_ids, Bool.not_eq_true',
    List.contains_eq_mem, decide_eq_false_iff_not, mem_reachable_iff hf]

theorem entry_not_mem_orphans (hf : f.graph.Consistent) : f.entry ∉ f.orphans :=
  fun mem => ((mem_orphans_iff hf).mp mem).2 f.reaches_entry

theorem mem_orphans_of_leads (hf : f.graph.Consistent) (mem : i ∈ f.orphans)
    (leads : i ∈ f.graph.targets j) : j ∈ f.orphans := by
  refine (mem_orphans_iff hf).mpr ⟨Graph.contains_of_mem_targets leads, fun path => ?_⟩
  exact ((mem_orphans_iff hf).mp mem).2 (path.step leads)

private theorem pairwise_orphans (f : Function) : f.orphans.Pairwise (· < ·) :=
  (List.pairwise_lt_range.filter _).filter _

theorem nodup_orphans (f : Function) : f.orphans.Nodup :=
  (List.nodup_range.filter _).filter _

theorem verify_eq_ok_iff :
    f.verify = .ok () ↔ f.graph.Consistent ∧ ∀ i, f.graph.contains i = true →
      f.Reaches i := by
  unfold verify
  cases edges : f.verifyEdges with
  | error defect =>
    have broken : ¬ f.graph.Consistent := by
      rw [← verifyEdges_eq_ok_iff, edges]
      exact fun equal => nomatch equal
    simp [broken]
  | ok _ =>
    have hf : f.graph.Consistent := verifyEdges_eq_ok_iff.mp edges
    have search : f.orphans.findSome? f.graph.block? = none ↔
        ∀ i, f.graph.contains i = true → f.Reaches i := by
      simp only [List.findSome?_eq_none_iff, mem_orphans_iff hf]
      constructor
      · intro none_left i live
        by_contra unreached
        have absent := none_left i ⟨live, unreached⟩
        simp [Graph.contains, absent] at live
      · intro all i ⟨live, unreached⟩
        exact absurd (all i live) unreached
    rw [← search]
    simp only [ok_bind]
    split <;> simp_all

private theorem exists_first_orphan (edges : f.verifyEdges = .ok ()) (fails : f.verify ≠ .ok ()) :
    ∃ i b, f.graph.block? i = some b ∧ i ∈ f.orphans ∧ (∀ j ∈ f.orphans, i ≤ j) ∧
      f.verify = .error (.unreachable b.name) := by
  unfold verify at fails ⊢
  simp only [edges, ok_bind] at fails ⊢
  cases search : f.orphans.findSome? f.graph.block? with
  | none => simp [search] at fails
  | some b =>
    obtain ⟨before, i, after, split, found, skipped⟩ := List.findSome?_eq_some_iff.mp search
    have hf := verifyEdges_eq_ok_iff.mp edges
    -- Every orphan is a block, so that none of them is skipped.
    have first : before = [] := by
      refine List.eq_nil_iff_forall_not_mem.mpr fun j mem => ?_
      have orphan : j ∈ f.orphans := by
        rw [split]
        exact List.mem_append_left _ mem
      have live := ((mem_orphans_iff hf).mp orphan).1
      rw [Graph.contains, skipped j mem] at live
      cases live
    subst first
    rw [List.nil_append] at split
    have ordered := f.pairwise_orphans
    rw [split, List.pairwise_cons] at ordered
    refine ⟨i, b, found, by simp [split], ?_, rfl⟩
    intro j mem
    rw [split] at mem
    rcases List.mem_cons.mp mem with rfl | later
    · exact Nat.le_refl j
    · exact Nat.le_of_lt (ordered.1 j later)

/--
The search finds exactly the blocks to which a path of terminators leads from the entry, each of
them once. With the edges in order, the full check accepts the function if the search has found all
blocks, and otherwise it names the block with the lowest number among those not found.
-/
theorem verify_decides_reachability (edges : f.verifyEdges = .ok ()) :
    (f.reachable.Nodup ∧ ∀ i, i ∈ f.reachable ↔ f.Reaches i) ∧
      (f.verify = .ok () ↔ ∀ i, f.contains i = true → i ∈ f.reachable) ∧
      (f.verify ≠ .ok () → ∃ i b, f.graph.block? i = some b ∧ i ∉ f.reachable ∧
        (∀ j, j < i → f.contains j = true → j ∈ f.reachable) ∧
        f.verify = .error (.unreachable b.name)) := by
  have hf := verifyEdges_eq_ok_iff.mp edges
  have found_iff : ∀ i, i ∈ f.reachable ↔ f.Reaches i := fun _ => mem_reachable_iff hf
  refine ⟨⟨Graph.nodup_explore List.nodup_nil, found_iff⟩, ?_, ?_⟩
  · simp only [verify_eq_ok_iff, hf, true_and, found_iff]
    exact Iff.rfl
  · intro fails
    obtain ⟨i, b, found, orphan, lowest, verdict⟩ := exists_first_orphan edges fails
    refine ⟨i, b, found, ?_, ?_, verdict⟩
    · rw [found_iff]
      exact ((mem_orphans_iff hf).mp orphan).2
    · intro j lower live
      by_contra missed
      rw [found_iff] at missed
      have := lowest j ((mem_orphans_iff hf).mpr ⟨live, missed⟩)
      omega

/-- A function with a hole at 1, and behind it two blocks that only lead to each other. -/
def islands : Function where
  name := "f"
  params := [0]
  valueNames := ["n"]
  graph :=
    (((((Graph.single (.returning "entry")).insert (.returning "gap")).insert
      ⟨"low", [], .jump 3⟩).insert
      ⟨"high", [], .branch (.var 0) 2 2⟩).erase 1).rewire 2 [(.jump, 3)]
      |>.rewire 3 [(.whenTrue, 2), (.whenFalse, 2)]
  entry_live := rfl
  params_numbered := by decide

theorem verify_decides_reachability_islands :
    islands.verifyEdges = .ok () ∧ ¬ islands.Reaches 3 ∧
      islands.verify = .error (.unreachable "low") := by
  have edges : islands.verifyEdges = .ok () := by decide
  have searched : islands.reachable = [0] := by decide +kernel
  obtain ⟨⟨_, found_iff⟩, accepted, refused⟩ := verify_decides_reachability edges
  have unreached : 3 ∉ islands.reachable := by simp [searched]
  refine ⟨edges, mt (found_iff 3).mpr unreached, ?_⟩
  have fails : islands.verify ≠ .ok () := by
    intro passed
    exact unreached (accepted.mp passed 3 rfl)
  obtain ⟨i, b, found, missed, lower, verdict⟩ := refused fails
  rw [searched, List.mem_singleton] at missed
  have not_hole : i ≠ 1 := by
    rintro rfl
    cases found
  have not_above : ¬ 2 < i := by
    intro above
    have listed := lower 2 above rfl
    simp [searched] at listed
  obtain rfl : i = 2 := by omega
  cases found
  exact verdict

end Function

end BranchTrim
