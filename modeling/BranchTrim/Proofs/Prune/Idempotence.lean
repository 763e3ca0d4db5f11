import BranchTrim.Proofs.Prune.Behaviour
import BranchTrim.Proofs.Prune.Swept

/-!
When pruning a second time finds nothing to do. The walk over the branches is exhaustive, but the
sweep after it can fold a block that ends with a comparison onto a branch on its result, which an
unreachable block had kept apart. The branch is then decided, and the walk is over. This happens
exactly where a decisive comparison leads straight to such a branch, seen in the function between
the walk and the sweep.
-/

set_option autoImplicit false

namespace BranchTrim

namespace Function

variable {f g : Function} {oracle : Oracle} {i cond : Nat}

/--
Jumps lead from a block to a branch on the given value, through blocks without instructions. Each of
them is not the entry and has one predecessor only that the entry reaches.
-/
inductive LeadsStraight (f : Function) (cond : Nat) : Nat → Prop
  | branch {i : Nat} {b : Block} {whenTrue whenFalse : Nat} (found : f.graph.block? i = some b)
      (branch : b.term = .branch (.var cond) whenTrue whenFalse) : LeadsStraight f cond i
  | jump {i next : Nat} {b c : Block} (found : f.graph.block? i = some b)
      (jump : b.term = .jump next) (next_found : f.graph.block? next = some c)
      (empty : c.insts = []) (inner : next ≠ f.entry)
      (only : ∀ j, f.Reaches j → next ∈ f.graph.targets j → j = i)
      (rest : LeadsStraight f cond next) : LeadsStraight f cond i

/-- The last one of some instructions is a comparison that ranges decide, with the given result. -/
def Known (oracle : Oracle) (f : Function) (insts : List Inst) (cond : Nat) : Prop :=
  ∃ pred lhs rhs, insts.getLast? = some ⟨some cond, .compare pred lhs rhs⟩ ∧
    (Verdict.classify pred (oracle lhs f) (oracle rhs f)).infeasible? ≠ none

/-- A block ends with a comparison that ranges decide, and leads straight to a branch
on its result. -/
def Pending (oracle : Oracle) (f : Function) (i : Nat) : Prop :=
  ∃ b cond, f.graph.block? i = some b ∧ f.Known oracle b.insts cond ∧ f.LeadsStraight cond i

private theorem LeadsStraight.term_ne_jump {b : Block} (straight : f.LeadsStraight cond i)
    (found : f.graph.block? i = some b) : b.term ≠ .jump i := by
  induction straight with
  | branch found' branch =>
    obtain rfl := Option.some.inj (found.symm.trans found')
    rw [branch]
    exact nofun
  | jump found' jump _ _ _ _ _ ih =>
    intro loops
    obtain rfl := Option.some.inj (found.symm.trans found')
    obtain rfl := Terminator.jump.inj (loops.symm.trans jump)
    exact ih found loops

section Known

variable {insts insts' : List Inst}

private theorem Known.congr (value : oracle.DependsOnValue) (known : f.Known oracle insts cond) :
    g.Known oracle insts cond := by
  obtain ⟨pred, lhs, rhs, last, decisive⟩ := known
  refine ⟨pred, lhs, rhs, last, ?_⟩
  rwa [value lhs g f, value rhs g f]

private theorem Known.ne_nil (known : f.Known oracle insts cond) : insts ≠ [] := by
  obtain ⟨_, _, _, last, _⟩ := known
  rintro rfl
  cases last

private theorem known_append (nonempty : insts' ≠ []) :
    f.Known oracle (insts ++ insts') cond ↔ f.Known oracle insts' cond := by
  unfold Known
  rw [List.getLast?_append_of_ne_nil insts nonempty]

private theorem decided?_ne_none_iff : f.decided? oracle i ≠ none ↔
    ∃ b cond whenTrue whenFalse, f.graph.block? i = some b ∧ f.Known oracle b.insts cond ∧
      b.term = .branch (.var cond) whenTrue whenFalse := by
  constructor
  · intro decided
    obtain ⟨infeasible, decided⟩ := Option.ne_none_iff_exists'.mp decided
    obtain ⟨pred, lhs, rhs, compares, excluded⟩ := decided?_eq_some decided
    obtain ⟨b, cond, whenTrue, whenFalse, found, branch, last⟩ :=
      branchComparison?_eq_some compares
    refine ⟨b, cond, whenTrue, whenFalse, found, ⟨pred, lhs, rhs, last, ?_⟩, branch⟩
    exact Option.ne_none_iff_exists'.mpr ⟨infeasible, excluded⟩
  · rintro ⟨b, cond, whenTrue, whenFalse, found, ⟨pred, lhs, rhs, last, decisive⟩, branch⟩
    simpa [decided?, branchComparison?, found, branch, last] using decisive

private theorem pending_of_decided? (decided : f.decided? oracle i ≠ none) :
    f.Pending oracle i := by
  obtain ⟨b, cond, _, _, found, known, branch⟩ := decided?_ne_none_iff.mp decided
  exact ⟨b, cond, found, known, .branch found branch⟩

private theorem decided?_of_pending (all : f.AllReached) (merged : ∀ i, ¬ f.IsHead i)
    (pending : f.Pending oracle i) : f.decided? oracle i ≠ none := by
  obtain ⟨b, cond, found, known, straight⟩ := pending
  cases straight with
  | @branch _ c whenTrue whenFalse found' branch =>
    obtain rfl : b = c := Option.some.inj (found.symm.trans found')
    exact decided?_ne_none_iff.mpr ⟨b, cond, whenTrue, whenFalse, found, known, branch⟩
  | @jump _ next _ c found' jump next_found empty inner only rest =>
    have alone : ∀ j, next ∈ f.graph.targets j → j = i :=
      fun j leads => only j (all j (Graph.contains_of_mem_targets leads)) leads
    have ne_head : next ≠ i := by
      rintro rfl
      exact rest.term_ne_jump found' jump
    exact absurd ⟨next, _, c, found', next_found, jump, ne_head, inner, alone⟩ (merged i)

end Known

section Agreement

private theorem LeadsStraight.congr
    (agree : ∀ i, f.Reaches i → g.graph.block? i = f.graph.block? i) (path : f.Reaches i)
    (straight : f.LeadsStraight cond i) : g.LeadsStraight cond i := by
  induction straight with
  | branch found branch => exact .branch ((agree _ path).trans found) branch
  | @jump i next b c found jump next_found empty inner only rest ih =>
    have leads : next ∈ f.graph.targets i := by
      rw [Graph.targets_of_block? found, jump]
      exact List.mem_singleton_self next
    have next_path : f.Reaches next := path.step leads
    refine .jump ((agree i path).trans found) jump ((agree next next_path).trans next_found) empty
      inner ?_ (ih next_path)
    intro j j_path j_leads
    rw [reaches_iff_of_agree agree] at j_path
    rw [Graph.targets_congr (agree j j_path)] at j_leads
    exact only j j_path j_leads

private theorem Pending.congr (value : oracle.DependsOnValue)
    (agree : ∀ i, f.Reaches i → g.graph.block? i = f.graph.block? i) (path : f.Reaches i)
    (pending : f.Pending oracle i) : g.Pending oracle i := by
  obtain ⟨b, cond, found, known, straight⟩ := pending
  exact ⟨b, cond, (agree i path).trans found, known.congr value, straight.congr agree path⟩

private theorem exists_pending_drop (hf : f.graph.Consistent) (value : oracle.DependsOnValue)
    (move : f.Moves g (.drop f.orphanBlocks)) :
    (∃ i, g.Pending oracle i) ↔ ∃ i, f.Reaches i ∧ f.Pending oracle i := by
  obtain ⟨agree, all⟩ := agree_of_drop hf move
  have agree' : ∀ i, g.Reaches i → f.graph.block? i = g.graph.block? i :=
    fun i path => (agree i ((reaches_iff_of_agree agree).mp path)).symm
  constructor
  · rintro ⟨i, pending⟩
    obtain ⟨b, _, found, _⟩ := id pending
    have path : g.Reaches i := all i (Graph.contains_of_block? found)
    exact ⟨i, (reaches_iff_of_agree agree).mp path, pending.congr value agree' path⟩
  · rintro ⟨i, path, pending⟩
    exact ⟨i, pending.congr value agree path⟩

end Agreement

section Folding

variable {head next n : Nat} {p b : Block}

def foldSource (head next i : Nat) : Nat :=
  if i = head then next else i

theorem foldSource_head (head next : Nat) : foldSource head next head = next :=
  if_pos rfl

theorem foldSource_of_ne (ne_head : i ≠ head) : foldSource head next i = i :=
  if_neg ne_head

theorem foldImage_foldSource (ne_next : i ≠ next) :
    foldImage head next (foldSource head next i) = i := by
  by_cases at_head : i = head
  · rw [at_head, foldSource_head, foldImage_next]
  · rw [foldSource_of_ne at_head, foldImage_of_ne ne_next]

theorem foldSource_foldImage (ne_head : i ≠ head) :
    foldSource head next (foldImage head next i) = i := by
  by_cases at_next : i = next
  · rw [at_next, foldImage_next, foldSource_head]
  · rw [foldImage_of_ne at_next, foldSource_of_ne ne_head]

theorem foldImage_ne_next (ne : next ≠ head) : foldImage head next i ≠ next := by
  unfold foldImage
  split
  · exact ne.symm
  · assumption

private theorem LeadsStraight.of_head (fold : f.Foldable head next p b)
    (straight : f.LeadsStraight cond head) : b.insts = [] ∧ f.LeadsStraight cond next := by
  cases straight with
  | branch found branch =>
    obtain rfl := Option.some.inj (found.symm.trans fold.head_found)
    exact nomatch branch.symm.trans fold.jump
  | jump found jump next_found empty _ _ rest =>
    obtain rfl := Option.some.inj (found.symm.trans fold.head_found)
    obtain rfl := Terminator.jump.inj (jump.symm.trans fold.jump)
    obtain rfl := Option.some.inj (next_found.symm.trans fold.next_found)
    exact ⟨empty, rest⟩

section Blocks

variable (fold : f.Foldable head next p b) (shape : f.Reshaped g (f.foldedBlocks head next p b))

include fold shape

theorem exists_block_foldImage {c : Block} (found : f.graph.block? i = some c)
    (ne_head : i ≠ head) :
    ∃ c', g.graph.block? (foldImage head next i) = some c' ∧ c'.term = c.term := by
  by_cases at_next : i = next
  · subst at_next
    obtain rfl := Option.some.inj (found.symm.trans fold.next_found)
    rw [foldImage_next]
    exact ⟨_, fold.block?_head shape, rfl⟩
  · exact ⟨c, by rw [foldImage_of_ne at_next, shape.block?_unfolded at_next ne_head, found],
      rfl⟩

omit fold in
theorem ne_next_of_found {c : Block} (found : g.graph.block? i = some c) : i ≠ next := by
  rintro rfl
  exact nomatch shape.block?_folded.symm.trans found

theorem exists_block_foldSource {c : Block} (found : g.graph.block? i = some c) :
    ∃ c', f.graph.block? (foldSource head next i) = some c' ∧ c'.term = c.term := by
  by_cases at_head : i = head
  · subst at_head
    obtain rfl := Option.some.inj (found.symm.trans (fold.block?_head shape))
    exact ⟨b, by rw [foldSource_head, fold.next_found], rfl⟩
  · have ne_next := ne_next_of_found shape found
    exact ⟨c, by rw [foldSource_of_ne at_head, ← shape.block?_unfolded ne_next at_head, found],
      rfl⟩

theorem mem_targets_fold_iff {j : Nat} (n_ne_next : n ≠ next) :
    n ∈ g.graph.targets j ↔ j ≠ next ∧ n ∈ f.graph.targets (foldSource head next j) := by
  by_cases at_head : j = head
  · subst at_head
    rw [foldSource_head, fold.targets_head shape]
    exact (and_iff_right fold.next_ne_head.symm).symm
  · rw [foldSource_of_ne at_head]
    by_cases at_next : j = next
    · subst at_next
      simp [Graph.targets, Graph.arms, shape.block?_folded]
    · rw [Graph.targets_congr (shape.block?_unfolded at_next at_head)]
      exact (and_iff_right at_next).symm

/-- What led straight to a branch still does after a fold, from where its terminator is now. -/
private theorem LeadsStraight.after_fold (all : f.AllReached) (straight : f.LeadsStraight cond i) :
    g.LeadsStraight cond (foldImage head next i) := by
  induction straight with
  | @branch i c _ _ found branch =>
    have ne_head : i ≠ head := by
      rintro rfl
      obtain rfl := Option.some.inj (found.symm.trans fold.head_found)
      exact nomatch branch.symm.trans fold.jump
    obtain ⟨c', found', term⟩ := exists_block_foldImage fold shape found ne_head
    exact .branch found' (term.trans branch)
  | @jump i n c d found jump n_found empty inner only rest ih =>
    have leads : n ∈ f.graph.targets i := by
      rw [Graph.targets_of_block? found, jump]
      exact List.mem_singleton_self n
    by_cases at_head : i = head
    · subst at_head
      obtain rfl := fold.mem_targets_head.mp leads
      rw [foldImage_next] at ih
      rw [foldImage_of_ne fold.next_ne_head.symm]
      exact ih
    have n_ne_next : n ≠ next := by
      rintro rfl
      exact fold.not_mem_targets at_head leads
    rw [foldImage_of_ne n_ne_next] at ih
    have only' : ∀ j, g.Reaches j → n ∈ g.graph.targets j → j = foldImage head next i := by
      intro j _ j_leads
      obtain ⟨j_ne_next, j_led⟩ := (mem_targets_fold_iff fold shape n_ne_next).mp j_leads
      rw [← only _ (all _ (Graph.contains_of_mem_targets j_led)) j_led,
        foldImage_foldSource j_ne_next]
    obtain ⟨c', found', term⟩ := exists_block_foldImage fold shape found at_head
    by_cases n_at_head : n = head
    · subst n_at_head
      -- The way goes on through the folded block, which has no instructions either.
      obtain rfl := Option.some.inj (n_found.symm.trans fold.head_found)
      refine .jump found' (term.trans jump) (fold.block?_head shape) ?_ inner only' ih
      simp [empty, (rest.of_head fold).1]
    · have n_found' : g.graph.block? n = some d :=
        (shape.block?_unfolded n_ne_next n_at_head).trans n_found
      exact .jump found' (term.trans jump) n_found' empty inner only' ih

private theorem LeadsStraight.before_fold (all : g.AllReached) (straight : g.LeadsStraight cond i) :
    f.LeadsStraight cond (foldSource head next i) := by
  induction straight with
  | branch found branch =>
    obtain ⟨c', found', term⟩ := exists_block_foldSource fold shape found
    exact .branch found' (term.trans branch)
  | @jump i n c d found jump n_found empty inner only rest ih =>
    have n_ne_next : n ≠ next := ne_next_of_found shape n_found
    have only' : ∀ j, f.Reaches j → n ∈ f.graph.targets j → j = foldSource head next i := by
      intro j _ j_leads
      have j_ne_head : j ≠ head := by
        rintro rfl
        exact n_ne_next (fold.mem_targets_head.mp j_leads)
      have j_led : n ∈ g.graph.targets (foldImage head next j) := by
        rw [mem_targets_fold_iff fold shape n_ne_next, foldSource_foldImage j_ne_head]
        exact ⟨foldImage_ne_next fold.next_ne_head, j_leads⟩
      rw [← only _ (all _ (Graph.contains_of_mem_targets j_led)) j_led,
        foldSource_foldImage j_ne_head]
    obtain ⟨c', found', term⟩ := exists_block_foldSource fold shape found
    by_cases n_at_head : n = head
    · subst n_at_head
      obtain rfl := Option.some.inj (n_found.symm.trans (fold.block?_head shape))
      obtain ⟨p_empty, b_empty⟩ := List.append_eq_nil_iff.mp empty
      rw [foldSource_head] at ih
      have from_head : f.LeadsStraight cond n :=
        .jump fold.head_found fold.jump fold.next_found b_empty fold.next_ne_entry
          (fun j _ => fold.only j) ih
      exact .jump found' (term.trans jump) fold.head_found p_empty inner only' from_head
    · rw [foldSource_of_ne n_at_head] at ih
      have n_found' : f.graph.block? n = some d :=
        (shape.block?_unfolded n_ne_next n_at_head).symm.trans n_found
      exact .jump found' (term.trans jump) n_found' empty inner only' ih

/-- A fold neither makes comparisons pending nor settles them. -/
private theorem exists_pending_fold (value : oracle.DependsOnValue) (all : f.AllReached) :
    (∃ i, g.Pending oracle i) ↔ ∃ i, f.Pending oracle i := by
  constructor
  · rintro ⟨i, c, cond, found, known, straight⟩
    have before := straight.before_fold fold shape (allReached_fold fold shape all)
    by_cases at_head : i = head
    · subst at_head
      obtain rfl := Option.some.inj (found.symm.trans (fold.block?_head shape))
      rw [foldSource_head] at before
      by_cases empty : b.insts = []
      · refine ⟨i, p, cond, fold.head_found, ?_, ?_⟩
        · simpa [empty] using known.congr value (g := f)
        · exact .jump fold.head_found fold.jump fold.next_found empty fold.next_ne_entry
            (fun j _ => fold.only j) before
      · exact ⟨next, b, cond, fold.next_found,
          ((known_append empty).mp known).congr value, before⟩
    · rw [foldSource_of_ne at_head] at before
      rw [shape.block?_unfolded (ne_next_of_found shape found) at_head] at found
      exact ⟨i, c, cond, found, known.congr value, before⟩
  · rintro ⟨i, c, cond, found, known, straight⟩
    have after := straight.after_fold fold shape all
    refine ⟨foldImage head next i, ?_⟩
    by_cases at_head : i = head
    · subst at_head
      obtain rfl := Option.some.inj (found.symm.trans fold.head_found)
      rw [foldImage_of_ne fold.next_ne_head.symm] at after ⊢
      refine ⟨_, cond, fold.block?_head shape, ?_, after⟩
      simpa [(straight.of_head fold).1] using known.congr value (g := g)
    by_cases at_next : i = next
    · subst at_next
      obtain rfl := Option.some.inj (found.symm.trans fold.next_found)
      rw [foldImage_next] at after ⊢
      refine ⟨_, cond, fold.block?_head shape, ?_, after⟩
      exact (known_append known.ne_nil).mpr (known.congr value)
    · refine ⟨c, cond, ?_, known.congr value, after⟩
      rw [foldImage_of_ne at_next, shape.block?_unfolded at_next at_head, found]

end Blocks

private theorem Derives.exists_pending {moves : List Move} (value : oracle.DependsOnValue)
    (series : f.Derives (fun _ m => ∃ i, m.FoldsInto i) moves g) (all : f.AllReached) :
    (∃ i, g.Pending oracle i) ↔ ∃ i, f.Pending oracle i := by
  induction series with
  | refl => exact Iff.rfl
  | step folds move _ ih =>
    obtain ⟨i, folds⟩ := folds
    cases move with
    | cut => cases folds
    | drop => cases folds
    | fold fold shape =>
      exact (ih (allReached_fold fold shape all)).trans (exists_pending_fold fold shape value all)

end Folding

section Twice

variable {o : Outcome}

private theorem forEach_cutDecided_idle (undecided : ∀ i, f.decided? oracle i = none)
    (merge : Bool) (ids : List Nat) :
    ∃ log, Outcome.forEach (cutDecided oracle merge) ids f = .ok ⟨f, .zero, log⟩ := by
  induction ids with
  | nil => exact ⟨[], rfl⟩
  | cons i ids ih =>
    obtain ⟨first, visited⟩ := cutDecided_of_decided?_eq_none (undecided i) merge
    obtain ⟨later, rest⟩ := ih
    refine ⟨first ++ later, ?_⟩
    simp only [Outcome.forEach, visited, Outcome.andThen, rest, ok_bind, pure_eq_ok]
    rfl

theorem stages_of_prune (h : f.prune oracle .default = .ok o) :
    ∃ o₁ o₂, f.cutBranches oracle true = .ok o₁ ∧ o₁.func.sweep true = .ok o₂ ∧
      o.func = o₂.func ∧ o.stats = o₁.stats + o₂.stats :=
  effects_of_prune h

theorem idle_of_undecided {options : Options} (hf : f.graph.Consistent)
    (undecided : ∀ i, f.decided? oracle i = none)
    (swept : options.sweepUnreachable = true → f.AllReached)
    (h : f.prune oracle options = .ok o) :
    o.stats = .zero ∧ o.func = f := by
  obtain ⟨o₁, o₂, walked, second, func, stats⟩ := walk_and_sweep_of_prune h
  obtain ⟨log, idle⟩ := forEach_cutDecided_idle undecided options.mergeBlocks f.blockIds
  obtain rfl : o₁ = ⟨f, .zero, log⟩ := Except.ok.inj (walked.symm.trans idle)
  have rest : o₂ = .unchanged f := by
    rcases second with ⟨sweeping, sweep⟩ | ⟨_, same⟩
    · rw [sweep_of_orphans_eq_nil ((orphans_eq_nil_iff hf).mpr (swept sweeping))] at sweep
      exact (Except.ok.inj sweep).symm
    · exact same
  rw [rest] at func stats
  exact ⟨stats.trans (Stats.add_zero _), func⟩

private theorem idle_iff (hf : f.graph.Consistent) (value : oracle.DependsOnValue)
    (all : f.AllReached) (h : f.prune oracle .default = .ok o) :
    (o.stats = .zero ∧ o.func = f) ↔ ∀ i, f.decided? oracle i = none := by
  constructor
  · rintro ⟨idle, _⟩ i
    obtain ⟨o₁, o₂, walked, _, _, stats⟩ := stages_of_prune h
    rw [stats, Stats.add_eq_zero_iff] at idle
    have derived := of_returns walked (cutBranches_returns hf oracle true)
    have same : o₁.func = f := derived.eq_of_stats_eq_zero idle.1
    have exhausted := decided?_of_cutBranches hf value walked i
    rwa [same] at exhausted
  · intro undecided
    exact idle_of_undecided hf undecided (fun _ => all) h

/-- The sweep leaves decided branches if there were pending comparisons, and something to remove. -/
private theorem undecided_sweep_iff (hf : f.graph.Consistent) (value : oracle.DependsOnValue)
    (walked : ∀ i, f.decided? oracle i = none) (swept : f.sweep true = .ok o) :
    (∀ i, o.func.decided? oracle i = none) ↔
      f.AllReached ∨ ∀ i, f.Reaches i → ¬ f.Pending oracle i := by
  by_cases left : f.orphans = []
  · rw [sweep_of_orphans_eq_nil left] at swept
    obtain rfl : Outcome.unchanged f = o := Except.ok.inj swept
    exact iff_of_true walked (Or.inl ((orphans_eq_nil_iff hf).mp left))
  · obtain ⟨dropped, folded, move, hd, _, merged, returned⟩ :=
      sweep_of_orphans_ne_nil hf left true
    obtain rfl : folded.after dropped.stats dropped.log = o :=
      Except.ok.inj (returned.symm.trans swept)
    obtain ⟨_, moves, series, _⟩ := of_returns merged (mergeAll_returns hd true)
    have all := (agree_of_drop hf move).2
    have decided_iff : (∃ i, folded.func.decided? oracle i ≠ none) ↔
        ∃ i, f.Reaches i ∧ f.Pending oracle i := by
      rw [← exists_pending_drop hf value move, ← series.exists_pending value all]
      exact ⟨fun ⟨i, decided⟩ => ⟨i, pending_of_decided? decided⟩, fun ⟨i, pending⟩ =>
        ⟨i, decided?_of_pending (series.allReached all) (not_isHead_of_mergeAll hd merged)
          pending⟩⟩
    have unreached : ¬ f.AllReached := fun all => left ((orphans_eq_nil_iff hf).mpr all)
    rw [or_iff_right unreached]
    show (∀ i, folded.func.decided? oracle i = none) ↔ _
    rw [← not_iff_not]
    simpa using decided_iff

/--
Pruning twice. The second time finds nothing to do exactly if the first time has left no decided
branch. This is so exactly if the walk has left every block within reach of the entry, or no
comparison within reach is pending.
-/
theorem second_prune_idle_iff (edges : f.verifyEdges = .ok ()) (value : oracle.DependsOnValue) :
    ∃ walked first second, f.cutBranches oracle true = .ok walked ∧
      f.prune oracle .default = .ok first ∧ first.func.prune oracle .default = .ok second ∧
      ((second.stats = .zero ∧ second.func = first.func) ↔
        ∀ i, first.func.decided? oracle i = none) ∧
      ((second.stats = .zero ∧ second.func = first.func) ↔
        walked.func.AllReached ∨
          ∀ i, walked.func.Reaches i → ¬ walked.func.Pending oracle i) := by
  have hf := verifyEdges_eq_ok_iff.mp edges
  obtain ⟨first, pruned⟩ := prune_returns hf oracle .default nofun
  have hg := (derivedFrom_of_prune hf pruned).consistent
  obtain ⟨second, pruned'⟩ := prune_returns hg oracle .default nofun
  obtain ⟨walked, swept, walking, sweeping, func, _⟩ := stages_of_prune pruned
  have derived := of_returns walking (cutBranches_returns hf oracle true)
  have exhausted := decided?_of_cutBranches hf value walking
  have all : first.func.AllReached := by
    rw [func]
    exact allReached_of_sweep derived.consistent sweeping
  have idle := idle_iff hg value all pruned'
  refine ⟨walked, first, second, walking, pruned, pruned', idle, ?_⟩
  rw [idle, func]
  exact undecided_sweep_iff derived.consistent value exhausted sweeping

private theorem detour_pruned_twice :
    ∃ first second, detour.prune shortRange.oracle .default = .ok first ∧
      first.func.prune shortRange.oracle .default = .ok second ∧
        second.stats = ⟨1, 1, 1, 1⟩ := by
  have computed : ((detour.prune shortRange.oracle .default).bind fun first =>
      first.func.prune shortRange.oracle .default).toOption.map Outcome.stats =
        some ⟨1, 1, 1, 1⟩ := by decide +kernel
  cases pruned : detour.prune shortRange.oracle .default with
  | error fault => simp [pruned, Except.bind, Except.toOption] at computed
  | ok first =>
    cases pruned' : first.func.prune shortRange.oracle .default with
    | error fault => simp [pruned, pruned', Except.bind, Except.toOption] at computed
    | ok second =>
      refine ⟨first, second, rfl, pruned', ?_⟩
      simpa [pruned, pruned', Except.bind, Except.toOption] using computed

-- The loop that the walk cuts off had kept a comparison apart from the branch on its result.
theorem second_prune_idle_iff_detour :
    ∃ walked, detour.cutBranches shortRange.oracle true = .ok walked ∧
      ∃ i, walked.func.Reaches i ∧ walked.func.Pending shortRange.oracle i := by
  obtain ⟨walked, first, second, walking, pruned, pruned', _, idle⟩ :=
    second_prune_idle_iff (f := detour) (by decide) shortRange.dependsOnValue
  obtain ⟨first', second', again, again', stats⟩ := detour_pruned_twice
  obtain rfl : first = first' := Except.ok.inj (pruned.symm.trans again)
  obtain rfl : second = second' := Except.ok.inj (pruned'.symm.trans again')
  refine ⟨walked, walking, ?_⟩
  by_contra settled
  have none_pending : ∀ i, walked.func.Reaches i → ¬ walked.func.Pending shortRange.oracle i :=
    fun i path pending => settled ⟨i, path, pending⟩
  have zero := (idle.mpr (Or.inr none_pending)).1
  rw [stats] at zero
  cases zero

/-- A function that passes all checks, on which pruning is not idle the second time. -/
theorem second_prune_cuts_detour :
    detour.verify = .ok () ∧ ∃ first second,
      detour.prune shortRange.oracle .default = .ok first ∧
      first.func.prune shortRange.oracle .default = .ok second ∧ second.stats ≠ .zero := by
  obtain ⟨first, second, pruned, pruned', stats⟩ := detour_pruned_twice
  refine ⟨by decide +kernel, first, second, pruned, pruned', ?_⟩
  rw [stats]
  exact nofun

end Twice

end Function

end BranchTrim
