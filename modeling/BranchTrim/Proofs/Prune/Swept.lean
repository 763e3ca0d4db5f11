import BranchTrim.Proofs.Prune.Sweep

/-!
What the sweep leaves: blocks that the entry reaches, and, if it had something to remove and was to
merge, no block that could still be folded. A fold keeps every block within reach, and it makes no
block a head that was none before.
-/

set_option autoImplicit false

namespace BranchTrim

namespace Function

variable {f g : Function} {i j : Nat}

def AllReached (f : Function) : Prop :=
  ∀ i, f.graph.contains i = true → f.Reaches i

theorem orphans_eq_nil_iff (hf : f.graph.Consistent) : f.orphans = [] ↔ f.AllReached := by
  simp only [List.eq_nil_iff_forall_not_mem, mem_orphans_iff hf, not_and, not_not]
  exact Iff.rfl

section Agreement

variable (agree : ∀ i, f.Reaches i → g.graph.block? i = f.graph.block? i)

include agree

theorem reaches_iff_of_agree : g.Reaches i ↔ f.Reaches i := by
  constructor
  · intro path
    induction path with
    | refl => exact f.reaches_entry
    | @tail j t _ leads ih =>
      rw [Graph.targets_congr (agree j ih)] at leads
      exact ih.step leads
  · intro path
    induction path with
    | refl => exact g.reaches_entry
    | @tail j t path leads ih =>
      rw [← Graph.targets_congr (agree j path)] at leads
      exact ih.step leads

end Agreement

theorem agree_of_drop (hf : f.graph.Consistent) (move : f.Moves g (.drop f.orphanBlocks)) :
    (∀ i, f.Reaches i → g.graph.block? i = f.graph.block? i) ∧ g.AllReached := by
  cases move with
  | drop _ _ _ _ _ shape =>
    simp only [map_fst_orphanBlocks] at shape
    have agree : ∀ i, f.Reaches i → g.graph.block? i = f.graph.block? i := by
      intro i path
      rw [shape.block?, if_neg fun orphan => ((mem_orphans_iff hf).mp orphan).2 path]
    refine ⟨agree, fun i live => (reaches_iff_of_agree agree).mpr ?_⟩
    obtain ⟨b, found⟩ := Graph.contains_iff.mp live
    rw [shape.block?] at found
    split at found
    · cases found
    · next kept =>
      by_contra unreached
      exact kept ((mem_orphans_iff hf).mpr ⟨Graph.contains_of_block? found, unreached⟩)

section Folding

variable {head next : Nat} {p b : Block}

/-- The block that holds the instructions of a given one after a fold. -/
def foldImage (head next i : Nat) : Nat :=
  if i = next then head else i

theorem foldImage_next (head next : Nat) : foldImage head next next = head :=
  if_pos rfl

theorem foldImage_of_ne (ne_next : i ≠ next) : foldImage head next i = i :=
  if_neg ne_next

private theorem reaches_foldImage (fold : f.Foldable head next p b)
    (shape : f.Reshaped g (f.foldedBlocks head next p b)) (path : f.Reaches i) :
    g.Reaches (foldImage head next i) := by
  induction path with
  | refl =>
    rw [foldImage_of_ne fold.next_ne_entry.symm]
    exact g.reaches_entry
  | @tail j t _ leads ih =>
    by_cases at_head : j = head
    · -- The jump to the folded block is gone, and its two ends have become one.
      subst at_head
      obtain rfl := fold.mem_targets_head.mp leads
      rw [foldImage_of_ne fold.next_ne_head.symm] at ih
      rw [foldImage_next]
      exact ih
    · have ne_next : t ≠ next := by
        rintro rfl
        exact fold.not_mem_targets at_head leads
      rw [foldImage_of_ne ne_next]
      by_cases at_next : j = next
      · subst at_next
        rw [foldImage_next] at ih
        exact ih.step (by rwa [fold.targets_head shape])
      · rw [foldImage_of_ne at_next] at ih
        exact ih.step (by rwa [Graph.targets_congr (shape.block?_unfolded at_next at_head)])

theorem allReached_fold (fold : f.Foldable head next p b)
    (shape : f.Reshaped g (f.foldedBlocks head next p b)) (all : f.AllReached) : g.AllReached := by
  intro i live
  have ne_next : i ≠ next := by
    rintro rfl
    simp [Graph.contains, shape.block?_folded] at live
  have old : f.graph.contains i = true := by
    by_cases at_head : i = head
    · exact at_head ▸ Graph.contains_of_block? fold.head_found
    · rwa [Graph.contains, ← shape.block?_unfolded ne_next at_head]
  have path := reaches_foldImage fold shape (all i old)
  rwa [foldImage_of_ne ne_next] at path

private theorem isHead_of_fold (fold : f.Foldable head next p b)
    (shape : f.Reshaped g (f.foldedBlocks head next p b)) (other : j ≠ head)
    (folds : g.IsHead j) : f.IsHead j := by
  obtain ⟨n, q, c, foldable⟩ := folds
  have j_ne_next : j ≠ next := by
    rintro rfl
    exact nomatch shape.block?_folded.symm.trans foldable.head_found
  have n_ne_next : n ≠ next := by
    rintro rfl
    exact nomatch shape.block?_folded.symm.trans foldable.next_found
  have j_found : f.graph.block? j = some q := by
    rw [← shape.block?_unfolded j_ne_next other]
    exact foldable.head_found
  obtain ⟨c', n_found⟩ : ∃ c', f.graph.block? n = some c' := by
    by_cases at_head : n = head
    · exact ⟨p, at_head ▸ fold.head_found⟩
    · exact ⟨c, by rw [← shape.block?_unfolded n_ne_next at_head]; exact foldable.next_found⟩
  refine ⟨n, q, c', j_found, n_found, foldable.jump, foldable.next_ne_head,
    foldable.next_ne_entry, ?_⟩
  intro k leads
  by_cases at_head : k = head
  · exact absurd (fold.mem_targets_head.mp (at_head ▸ leads)) n_ne_next
  by_cases at_next : k = next
  · subst at_next
    rw [← fold.targets_head shape] at leads
    exact absurd (foldable.only head leads).symm other
  · rw [← Graph.targets_congr (shape.block?_unfolded at_next at_head)] at leads
    exact foldable.only k leads

end Folding

section Series

variable {moves : List Move}

theorem Derives.allReached (series : f.Derives (fun _ m => ∃ i, m.FoldsInto i) moves g)
    (all : f.AllReached) : g.AllReached := by
  induction series with
  | refl => exact all
  | step folds move _ ih =>
    obtain ⟨i, folds⟩ := folds
    cases move with
    | cut => cases folds
    | drop => cases folds
    | fold fold shape => exact ih (allReached_fold fold shape all)

private theorem Derives.isHead (series : f.Derives (fun _ m => m.FoldsInto i) moves g)
    (other : j ≠ i) (folds : g.IsHead j) : f.IsHead j := by
  induction series with
  | refl => exact folds
  | step into move _ ih =>
    have before := ih folds
    cases move with
    | cut => cases into
    | drop => cases into
    | fold fold shape =>
      cases into
      exact isHead_of_fold fold shape other before

end Series

theorem not_isHead_of_mergeAll (hf : f.graph.Consistent) {o : Outcome}
    (h : f.mergeAll true = .ok o) (i : Nat) : ¬ o.func.IsHead i := by
  refine Outcome.forEach_settles (fun g i => ¬ g.IsHead i) ?_ hf ?_ h i
  · intro g i o hg returned
    obtain ⟨⟨consistent, moves, series, _⟩, ended⟩ :=
      of_returns returned (mergeFrom_returns hg i)
    exact ⟨consistent, ended, fun j other before folds => before (series.isHead other folds)⟩
  · rintro i outside ⟨next, p, b, foldable⟩
    exact outside ((f.graph.mem_ids i).mpr (Graph.contains_of_block? foldable.head_found))

theorem allReached_of_sweep (hf : f.graph.Consistent) {merge : Bool} {o : Outcome}
    (h : f.sweep merge = .ok o) : o.func.AllReached := by
  by_cases left : f.orphans = []
  · rw [sweep_of_orphans_eq_nil left] at h
    cases h
    exact (orphans_eq_nil_iff hf).mp left
  · obtain ⟨dropped, folded, move, hd, _, merged, swept⟩ :=
      sweep_of_orphans_ne_nil hf left merge
    rw [swept] at h
    cases h
    obtain ⟨_, moves, series, _⟩ := of_returns merged (mergeAll_returns hd merge)
    exact series.allReached (agree_of_drop hf move).2

end Function

end BranchTrim
