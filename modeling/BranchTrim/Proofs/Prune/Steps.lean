import BranchTrim.Proofs.Prune.Moves
import BranchTrim.Prune.Branches

/-!
The steps of pruning on a consistent graph: removal of dead blocks, folding of chains, cuts, and the
walk over the branches. None of them is refused, and what each one does is a series of moves.
-/

set_option autoImplicit false

namespace BranchTrim

namespace Move

def Drops : Move → Prop
  | drop _ => True
  | _ => False

def FoldsInto (head : Nat) : Move → Prop
  | fold head' _ => head' = head
  | _ => False

private theorem Drops.site?_eq_none {m : Move} (drops : m.Drops) : m.site? = none := by
  cases m with
  | drop => rfl
  | cut => cases drops
  | fold => cases drops

end Move

/-- The ranges of an oracle do not depend on the function. -/
def Oracle.DependsOnValue (oracle : Oracle) : Prop :=
  ∀ v f g, oracle v f = oracle v g

theorem RangeTable.dependsOnValue (t : RangeTable) : t.oracle.DependsOnValue := by
  intro v f g
  cases v <;> rfl

namespace Function

variable {f : Function}

section Dead

theorem isDead_iff (hf : f.graph.Consistent) {i : Nat} :
    f.isDead i = true ↔
      (∃ b, f.graph.block? i = some b) ∧ i ≠ f.entry ∧
        ∀ j, i ∈ f.graph.targets j → j = i := by
  simp only [isDead, Bool.and_eq_true, bne_iff_ne, ne_eq, predecessors_all_iff hf, and_assoc]
  exact and_congr Graph.contains_iff Iff.rfl

theorem moves_removeBlock (hf : f.graph.Consistent) {i : Nat} {b : Block} {g : Function}
    (removed : f.removeBlock i = .ok (b, g)) : f.Moves g (.drop [(i, b)]) := by
  obtain ⟨found, inner, alone, _, shape⟩ := removeBlock_shape hf removed
  refine .drop (by simp) (by simpa using found) (by simp) (by simpa using Ne.symm inner) ?_ ?_
  · intro t mem j leads
    obtain rfl : t = i := by simpa using mem
    simpa using alone j leads
  · refine ⟨shape.name, shape.params, shape.valueNames, fun j => ?_⟩
    rw [shape.block?]
    simp [eq_comm]

private theorem removeDeadAmong_returns (hf : f.graph.Consistent) (stack : List Nat) :
    ∃ o, f.removeDeadAmong stack = .ok o ∧ o.DerivedFrom (fun _ m => m.Drops) f := by
  fun_induction removeDeadAmong f stack with
  | case1 f => exact ⟨_, rfl, .unchanged hf⟩
  | case2 f i stack dead fault refused =>
    obtain ⟨⟨b, found⟩, inner, alone⟩ := (isDead_iff hf).mp dead
    obtain ⟨g, removed⟩ := removeBlock_returns hf found inner alone
    rw [refused] at removed
    cases removed
  | case3 f i stack dead b g removed ih =>
    obtain ⟨o, returned, derived⟩ := ih (removeBlock_shape hf removed).2.2.2.1
    refine ⟨_, by rw [returned]; rfl, ?_⟩
    have first : f.Derives (fun _ m => m.Drops) [.drop [(i, b)]] g :=
      .single trivial (moves_removeBlock hf removed)
    have counted : Move.total [.drop [(i, b)]] = Stats.erased b.size := by
      simp [Move.stats]
    rw [← counted]
    exact derived.after first
  | case4 f i stack alive ih => exact ih hf

theorem removeDead_returns (hf : f.graph.Consistent) (start : Nat) :
    ∃ o, f.removeDead start = .ok o ∧ o.DerivedFrom (fun _ m => m.Drops) f :=
  removeDeadAmong_returns hf [start]

end Dead

section Chains

variable {head next : Nat} {p : Block}

private theorem jumpTarget?_of_found {i : Nat} {b : Block} (found : f.graph.block? i = some b) :
    f.jumpTarget? i = match b.term with
      | .jump target => some target
      | _ => none := by
  unfold jumpTarget?
  rw [found, Option.map_some]
  split
  · next target jump => rw [Option.some.inj jump]
  · next other =>
    split
    · next target jump => exact absurd (congrArg some jump) (other target)
    · rfl

theorem jumpTarget?_eq_some_iff {i target : Nat} : f.jumpTarget? i = some target ↔
    ∃ b, f.graph.block? i = some b ∧ b.term = .jump target := by
  cases found : f.graph.block? i with
  | none => simp [jumpTarget?, found]
  | some b =>
    rw [jumpTarget?_of_found found]
    cases term : b.term <;> simp [term]

theorem not_isHead_of_jumpTarget? {i : Nat} (no_jump : f.jumpTarget? i = none) :
    ¬ f.IsHead i := by
  rintro ⟨next, p, b, foldable⟩
  rw [jumpTarget?_eq_some_iff.mpr ⟨p, foldable.head_found, foldable.jump⟩] at no_jump
  cases no_jump

private theorem foldChain_returns (hf : f.graph.Consistent) (found : f.graph.block? head = some p)
    (jump : p.term = .jump next) :
    ∃ o, f.foldChain head next = .ok o ∧ o.DerivedFrom (fun _ m => m.FoldsInto head) f ∧
      ¬ o.func.IsHead head := by
  fun_induction foldChain f head next generalizing p with
  | case1 f next extending ih =>
    obtain ⟨b, foldable⟩ := (extendsChain_iff hf found jump).mp extending
    obtain ⟨g, merged, hg, shape⟩ := foldable.returns hf
    have first : f.Derives (fun _ m => m.FoldsInto head) [.fold head next] g :=
      .single rfl (.fold foldable shape)
    have head_found : g.graph.block? head = some ⟨p.name, p.insts ++ b.insts, b.term⟩ := by
      rw [shape.block?, foldedBlocks, if_neg foldable.next_ne_head, if_pos rfl]
    simp only [blockName_of_found found, blockName_of_found foldable.next_found, ok_bind]
    split
    · next fault refused => simp [merged] at refused
    · next g' merged' =>
      obtain rfl : g = g' := Except.ok.inj (merged.symm.trans merged')
      split
      · next no_jump =>
        exact ⟨_, rfl, (Outcome.DerivedFrom.unchanged hg).after first,
          not_isHead_of_jumpTarget? no_jump⟩
      · next next' target =>
        obtain ⟨c, found', jump'⟩ := jumpTarget?_eq_some_iff.mp target
        obtain ⟨o, returned, derived, ended⟩ := ih g merged next' hg found' jump'
        simp only [returned]
        exact ⟨_, rfl, derived.after first, ended⟩
  | case2 f next stopped =>
    refine ⟨_, rfl, .unchanged hf, ?_⟩
    rintro ⟨n, q, b, foldable⟩
    obtain rfl : p = q := Option.some.inj (found.symm.trans foldable.head_found)
    obtain rfl : next = n := Terminator.jump.inj (jump.symm.trans foldable.jump)
    exact stopped ((extendsChain_iff hf found jump).mpr ⟨b, foldable⟩)

theorem mergeChain_returns (hf : f.graph.Consistent) (found : f.graph.block? head = some p)
    (jump : p.term = .jump next) :
    ∃ o, f.mergeChain head next = .ok o ∧ o.DerivedFrom (fun _ m => m.FoldsInto head) f ∧
      ¬ o.func.IsHead head := by
  have same : f.mergeChain head next = f.foldChain head next := by
    simp [mergeChain, block_of_found found, jump]
  rw [same]
  exact foldChain_returns hf found jump

end Chains

section Cuts

variable {i : Nat} {b : Block} {cond : Value} {whenTrue whenFalse : Nat}

private theorem keepFirst_returns (hf : f.graph.Consistent) (found : f.graph.block? i = some b)
    (branch : b.term = .branch cond whenTrue whenFalse) (infeasible : Bool) :
    ∃ g, f.keepFirst i infeasible = .ok g ∧ g.graph.Consistent ∧ f.Reshaped g fun j =>
      if i = j then some { b with
        term := .branch cond (if infeasible then whenFalse else whenTrue)
          (if infeasible then whenTrue else whenFalse) }
      else f.graph.block? j := by
  cases infeasible with
  | true =>
    obtain ⟨g, swapped, hg, shape⟩ := swapSuccessors_returns hf found branch
    exact ⟨g, by simpa [keepFirst] using swapped, hg, by simpa using shape⟩
  | false =>
    refine ⟨f, by simp [keepFirst], hf, rfl, rfl, rfl, fun j => ?_⟩
    by_cases at_i : i = j
    · subst at_i
      simp [found, ← branch]
    · simp [at_i]

private theorem jumpToKept_returns (hf : f.graph.Consistent) (found : f.graph.block? i = some b)
    (branch : b.term = .branch cond whenTrue whenFalse) (infeasible : Bool) :
    ∃ g₁ g₂ kept dead keptBlock deadBlock, f.keepFirst i infeasible = .ok g₁ ∧
      g₁.graph.block? i = some { b with term := .branch cond kept dead } ∧
      g₁.graph.block? kept = some keptBlock ∧ g₁.graph.block? dead = some deadBlock ∧
      g₁.setTerminator i (.jump kept) = .ok (.branch cond kept dead, g₂) ∧
      g₂.graph.Consistent ∧ g₂.graph.block? i = some { b with term := .jump kept } ∧
      f.Moves g₂ (.cut i infeasible) ∧
      ∀ j, ∀ t ∈ f.graph.targets j, t ∈ g₂.graph.targets j ∨ t = dead := by
  obtain ⟨g₁, first, hg₁, shape₁⟩ := keepFirst_returns hf found branch infeasible
  generalize kept_eq : (if infeasible then whenFalse else whenTrue) = kept at shape₁
  generalize dead_eq : (if infeasible then whenTrue else whenFalse) = dead at shape₁
  have found₁ : g₁.graph.block? i = some { b with term := .branch cond kept dead } := by
    rw [shape₁.block?, if_pos rfl]
  have live : ∀ t ∈ [kept, dead], g₁.graph.contains t = true := by
    intro t mem
    refine hg₁.contains_target (i := i) ?_
    rwa [Graph.targets_of_block? found₁]
  obtain ⟨keptBlock, kept_found⟩ := Graph.contains_iff.mp (live kept (by simp))
  obtain ⟨deadBlock, dead_found⟩ := Graph.contains_iff.mp (live dead (by simp))
  obtain ⟨g₂, set⟩ := setTerminator_returns found₁ (.jump kept) <| by
    intro t mem
    obtain rfl : t = kept := by simpa [Terminator.targets, Terminator.arms] using mem
    exact live t (by simp)
  obtain ⟨c, found', _, _, _, shape₂⟩ := setTerminator_shape set
  obtain rfl : { b with term := .branch cond kept dead } = c :=
    Option.some.inj (found₁.symm.trans found')
  have elsewhere : ∀ j, i ≠ j → g₂.graph.block? j = f.graph.block? j := by
    intro j other
    rw [shape₂.block?, if_neg other, shape₁.block?, if_neg other]
  have found₂ : g₂.graph.block? i = some { b with term := .jump kept } := by
    rw [shape₂.block?, if_pos rfl]
  refine ⟨g₁, g₂, kept, dead, keptBlock, deadBlock, first, found₁, kept_found,
    dead_found, set, consistent_setTerminator hg₁ set, found₂, .cut found branch ?_, ?_⟩
  · have shape := shape₁.trans shape₂
    refine ⟨shape.name, shape.params, shape.valueNames, fun j => ?_⟩
    rw [kept_eq]
    by_cases at_i : i = j
    · rw [if_pos at_i, ← at_i, found₂]
    · rw [if_neg at_i, elsewhere j at_i]
  · intro j t mem
    by_cases at_i : i = j
    · subst at_i
      rw [Graph.targets_of_block? found, branch] at mem
      have either : t = whenTrue ∨ t = whenFalse := by
        simpa [Terminator.targets, Terminator.arms] using mem
      have kept_or_dead : t = kept ∨ t = dead := by
        rw [← kept_eq, ← dead_eq]
        cases infeasible with
        | true => exact either.symm
        | false => exact either
      rw [Graph.targets_of_block? found₂]
      exact kept_or_dead.imp_left List.mem_singleton.mpr
    · rw [Graph.targets_congr (elsewhere j at_i)]
      exact Or.inl mem

private theorem mergeAfterCut_returns {kept : Nat} (hf : f.graph.Consistent)
    (jumps : ∀ b, f.graph.block? i = some b → b.term = .jump kept) (merge : Bool) :
    ∃ o, mergeAfterCut i kept merge f = .ok o ∧
      o.DerivedFrom (fun _ m => merge = true ∧ m.FoldsInto i) f ∧
      (merge = true → ¬ o.func.IsHead i) := by
  unfold mergeAfterCut
  split
  · next there =>
    obtain ⟨merging, live⟩ := Bool.and_eq_true_iff.mp there
    obtain ⟨b, found⟩ := Graph.contains_iff.mp live
    obtain ⟨o, merged, folded, ended⟩ := mergeChain_returns hf found (jumps b found)
    exact ⟨o, merged, folded.mono fun _ _ folds => ⟨merging, folds⟩, fun _ => ended⟩
  · next left =>
    refine ⟨_, rfl, .unchanged hf, ?_⟩
    rintro merging ⟨next, p, b, foldable⟩
    apply left
    rw [merging, Bool.true_and]
    exact Graph.contains_of_block? foldable.head_found

/--
What a cut does, in full. At most one target loses an edge when the branch becomes a jump; removal
of dead blocks starts there, and if the cut is to merge, what follows ends with a block into which
nothing can be folded.
-/
theorem cut_stages (hf : f.graph.Consistent) (found : f.graph.block? i = some b)
    (branch : b.term = .branch cond whenTrue whenFalse) (infeasible merge : Bool) :
    ∃ (g : Function) (dead : Nat) (removed last : Outcome) (log : List Event),
      f.Moves g (.cut i infeasible) ∧ g.graph.Consistent ∧
      (∀ j, ∀ t ∈ f.graph.targets j, t ∈ g.graph.targets j ∨ t = dead) ∧
      g.removeDead dead = .ok removed ∧
      last.DerivedFrom (fun _ m => merge = true ∧ m.FoldsInto i) removed.func ∧
      (merge = true → ¬ last.func.IsHead i) ∧
      f.cut i infeasible merge =
        .ok ((last.after removed.stats removed.log).after .pruned log) := by
  obtain ⟨g₁, g₂, kept, dead, keptBlock, deadBlock, first, found₁, kept_found,
      dead_found, set, hg₂,
    jumps, cutting, others⟩ := jumpToKept_returns hf found branch infeasible
  obtain ⟨o₁, removed, dropped⟩ := removeDead_returns hg₂ dead
  -- If the block is still there, it still jumps to what was kept.
  have still : ∀ c, o₁.func.graph.block? i = some c → c.term = .jump kept := by
    intro c found'
    rcases dropped.frame (j := i) (by simp +contextual [Move.Drops.site?_eq_none]) with same | gone
    · obtain rfl := Option.some.inj (found'.symm.trans (same.trans jumps))
      rfl
    · rw [gone] at found'
      cases found'
  obtain ⟨o₂, merged, folded, ended⟩ := mergeAfterCut_returns dropped.consistent still merge
  refine ⟨g₂, dead, o₁, o₂, [.pathCut b.name deadBlock.name keptBlock.name], cutting,
    hg₂, others, removed, folded, ended, ?_⟩
  simp only [cut, first, block_of_found found₁, blockName_of_found dead_found,
    blockName_of_found kept_found, set, removed, Outcome.andThen, merged, ok_bind, pure_eq_ok]

private theorem cut_derives (hf : f.graph.Consistent) (found : f.graph.block? i = some b)
    (branch : b.term = .branch cond whenTrue whenFalse) (infeasible merge : Bool)
    (allowed : Function → Move → Prop) (cut_allowed : allowed f (.cut i infeasible))
    (drops_allowed : ∀ g m, m.Drops → allowed g m)
    (folds_allowed : merge = true → ∀ g m, m.FoldsInto i → allowed g m) :
    ∃ o, f.cut i infeasible merge = .ok o ∧ o.DerivedFrom allowed f := by
  obtain ⟨g, dead, removed, last, log, cutting, hg, _, removing, folded, _, returned⟩ :=
    cut_stages hf found branch infeasible merge
  have dropped := of_returns removing (removeDead_returns hg dead)
  refine ⟨_, returned, ?_⟩
  have total : Move.total [.cut i infeasible] = Stats.pruned := by
    simp [Move.stats]
  rw [← total]
  refine Outcome.DerivedFrom.after ?_ (.single cut_allowed cutting)
  refine (dropped.mono drops_allowed).trans (folded.mono ?_)
  exact fun g m folds => folds_allowed folds.1 g m folds.2

theorem cut_returns (hf : f.graph.Consistent) (found : f.graph.block? i = some b)
    (branch : b.term = .branch cond whenTrue whenFalse) (infeasible merge : Bool)
    (allowed : Function → Move → Prop) (cut_allowed : allowed f (.cut i infeasible))
    (drops_allowed : ∀ g m, m.Drops → allowed g m)
    (folds_allowed : ∀ g m, m.FoldsInto i → allowed g m) :
    ∃ o, f.cut i infeasible merge = .ok o ∧ o.DerivedFrom allowed f :=
  cut_derives hf found branch infeasible merge allowed cut_allowed drops_allowed
    fun _ => folds_allowed

theorem branch_of_cut {infeasible merge : Bool} {o : Outcome}
    (h : f.cut i infeasible merge = .ok o) :
    ∃ b cond whenTrue whenFalse, f.graph.block? i = some b ∧
      b.term = .branch cond whenTrue whenFalse := by
  obtain ⟨g, kept, h⟩ := bind_eq_ok h
  obtain ⟨b, found, h⟩ := bind_eq_ok h
  cases infeasible with
  | true =>
    obtain ⟨c, cond, whenTrue, whenFalse, c_found, branch, _⟩ := swapSuccessors_shape kept
    exact ⟨c, cond, whenTrue, whenFalse, c_found, branch⟩
  | false =>
    cases kept
    split at h
    · next cond whenTrue whenFalse branch =>
      exact ⟨b, cond, whenTrue, whenFalse, block_eq_ok found, branch⟩
    · cases h

theorem derivedFrom_of_cut {infeasible merge : Bool} {o : Outcome} (hf : f.graph.Consistent)
    (h : f.cut i infeasible merge = .ok o) : o.DerivedFrom (fun _ _ => True) f := by
  obtain ⟨b, cond, whenTrue, whenFalse, found, branch⟩ := branch_of_cut h
  obtain ⟨o', returned, derived⟩ :=
    cut_returns hf found branch infeasible merge (fun _ _ => True)
    trivial (fun _ _ _ => trivial) (fun _ _ _ => trivial)
  obtain rfl : o = o' := Except.ok.inj (h.symm.trans returned)
  exact derived

theorem consistent_cut {infeasible merge : Bool} {o : Outcome} (hf : f.graph.Consistent)
    (h : f.cut i infeasible merge = .ok o) : o.func.graph.Consistent :=
  (derivedFrom_of_cut hf h).consistent

end Cuts

section Walk

variable {oracle : Oracle} {merge : Bool} {i : Nat}

/-- The outcome that ranges exclude for the comparison that a block ends with and branches on. -/
def decided? (oracle : Oracle) (f : Function) (i : Nat) : Option Bool :=
  (f.branchComparison? i).bind fun (pred, lhs, rhs) =>
    (Verdict.classify pred (oracle lhs f) (oracle rhs f)).infeasible?

/-- The moves that the walk makes at a block: cuts of its branch that ranges decide, and
what they entail. -/
def Decides (oracle : Oracle) (i : Nat) (f : Function) : Move → Prop
  | .cut j infeasible => j = i ∧ f.decided? oracle i = some infeasible
  | .drop _ => True
  | .fold head _ => head = i

private theorem decides_of_drops {m : Move} (drops : m.Drops) : Decides oracle i f m := by
  cases m with
  | drop => trivial
  | cut => cases drops
  | fold => cases drops

private theorem decides_of_foldsInto {m : Move} (folds : m.FoldsInto i) : Decides oracle i f m := by
  cases m with
  | fold => exact folds
  | cut => cases folds
  | drop => cases folds

theorem site?_of_decides {m : Move} {j : Nat} (decides : Decides oracle i f m) (other : j ≠ i) :
    m.site? ≠ some j := by
  intro at_j
  cases m with
  | drop => cases at_j
  | cut k _ => exact other ((Option.some.inj at_j).symm.trans decides.1)
  | fold k _ => exact other ((Option.some.inj at_j).symm.trans decides)

theorem branchComparison?_eq_some {pred : Predicate} {lhs rhs : Value}
    (compares : f.branchComparison? i = some (pred, lhs, rhs)) :
    ∃ b cond whenTrue whenFalse, f.graph.block? i = some b ∧
      b.term = .branch (.var cond) whenTrue whenFalse ∧
      b.insts.getLast? = some ⟨some cond, .compare pred lhs rhs⟩ := by
  obtain ⟨b, found, compares⟩ := Option.bind_eq_some_iff.mp compares
  split at compares
  · next cond whenTrue whenFalse result pred' lhs' rhs' branch last =>
    split at compares
    · next same =>
      cases compares
      exact ⟨b, cond, whenTrue, whenFalse, found, branch, same ▸ last⟩
    · cases compares
  · cases compares

theorem decided?_eq_some {infeasible : Bool} (decided : f.decided? oracle i = some infeasible) :
    ∃ pred lhs rhs, f.branchComparison? i = some (pred, lhs, rhs) ∧
      (Verdict.classify pred (oracle lhs f) (oracle rhs f)).infeasible? = some infeasible := by
  obtain ⟨⟨pred, lhs, rhs⟩, compares, excluded⟩ := Option.bind_eq_some_iff.mp decided
  exact ⟨pred, lhs, rhs, compares, excluded⟩

theorem cutDecided_of_decided?_eq_none (undecided : f.decided? oracle i = none) (merge : Bool) :
    ∃ log, cutDecided oracle merge f i = .ok ⟨f, .zero, log⟩ := by
  unfold cutDecided
  split
  · exact ⟨[], rfl⟩
  · next pred lhs rhs compares =>
    obtain ⟨b, _, _, _, found, _⟩ := branchComparison?_eq_some compares
    have unknown : (Verdict.classify pred (oracle lhs f) (oracle rhs f)).infeasible? = none := by
      simpa [decided?, compares] using undecided
    simp only [blockName_of_found found, ok_bind]
    split
    · exact ⟨_, rfl⟩
    · next infeasible decisive => simp [unknown] at decisive

private theorem cutDecided_of_cut {infeasible : Bool} {o₁ o₂ : Outcome}
    (decided : f.decided? oracle i = some infeasible)
    (cutting : f.cut i infeasible merge = .ok o₁)
    (returned : cutDecided oracle merge o₁.func i = .ok o₂) :
    ∃ log, cutDecided oracle merge f i =
      .ok ((o₂.after o₁.stats o₁.log).after .zero log) := by
  obtain ⟨pred, lhs, rhs, compares, excluded⟩ := decided?_eq_some decided
  obtain ⟨b, _, _, _, found, _⟩ := branchComparison?_eq_some compares
  unfold cutDecided
  split
  · next absent =>
    rw [compares] at absent
    cases absent
  · next compares' =>
    obtain ⟨rfl, rfl, rfl⟩ := Option.some.inj (compares.symm.trans compares')
    simp only [blockName_of_found found, ok_bind]
    split
    · next unknown =>
      rw [excluded] at unknown
      cases unknown
    · next infeasible' excluded' =>
      obtain rfl : infeasible = infeasible' := Option.some.inj (excluded.symm.trans excluded')
      split
      · next fault refused =>
        rw [cutting] at refused
        cases refused
      · next o cutting' =>
        obtain rfl : o₁ = o := Except.ok.inj (cutting.symm.trans cutting')
        simp only [returned]
        exact ⟨_, rfl⟩

theorem cutDecided_derives (hf : f.graph.Consistent) (oracle : Oracle) (merge : Bool) (i : Nat)
    (allowed : Function → Move → Prop)
    (cuts_allowed : ∀ g infeasible, g.decided? oracle i = some infeasible →
      allowed g (.cut i infeasible))
    (drops_allowed : ∀ g m, m.Drops → allowed g m)
    (folds_allowed : merge = true → ∀ g m, m.FoldsInto i → allowed g m) :
    ∃ o, cutDecided oracle merge f i = .ok o ∧ o.DerivedFrom allowed f ∧
      o.func.decided? oracle i = none := by
  -- Every cut leaves fewer branches, so the induction is on their number.
  induction branches : f.branchCount using Nat.strongRecOn generalizing f with
  | ind count ih =>
    cases decided : f.decided? oracle i with
    | none =>
      obtain ⟨log, returned⟩ := cutDecided_of_decided?_eq_none decided merge
      exact ⟨_, returned, ⟨hf, [], .refl f, rfl⟩, decided⟩
    | some infeasible =>
      obtain ⟨pred, lhs, rhs, compares, _⟩ := decided?_eq_some decided
      obtain ⟨b, cond, whenTrue, whenFalse, found, branch, _⟩ :=
        branchComparison?_eq_some compares
      obtain ⟨o₁, cutting, derived⟩ := cut_derives hf found branch infeasible merge allowed
        (cuts_allowed f infeasible decided) drops_allowed folds_allowed
      obtain ⟨o₂, returned, derived', undecided⟩ :=
        ih o₁.func.branchCount (branches ▸ branchCount_cut cutting) derived.consistent rfl
      obtain ⟨log, whole⟩ := cutDecided_of_cut decided cutting returned
      exact ⟨_, whole, (derived.trans derived').withLog, undecided⟩

theorem cutDecided_returns (hf : f.graph.Consistent) (oracle : Oracle) (merge : Bool) (i : Nat) :
    ∃ o, cutDecided oracle merge f i = .ok o ∧ o.DerivedFrom (Decides oracle i) f ∧
      o.func.decided? oracle i = none :=
  cutDecided_derives hf oracle merge i (Decides oracle i) (fun _ _ decided => ⟨rfl, decided⟩)
    (fun _ _ => decides_of_drops) (fun _ _ _ => decides_of_foldsInto)

theorem decided?_of_absent (absent : f.graph.block? i = none) : f.decided? oracle i = none := by
  simp [decided?, branchComparison?, absent]

theorem decided?_congr {g : Function} (value : oracle.DependsOnValue)
    (same : g.graph.block? i = f.graph.block? i) : g.decided? oracle i = f.decided? oracle i := by
  have compared : g.branchComparison? i = f.branchComparison? i := by
    simp only [branchComparison?, same]
  simp only [decided?, compared, value _ g f]

/-- The walk leaves no branch that ranges decide, anywhere. -/
theorem decided?_of_cutBranches (hf : f.graph.Consistent) (value : oracle.DependsOnValue)
    {o : Outcome} (h : f.cutBranches oracle merge = .ok o) (i : Nat) :
    o.func.decided? oracle i = none := by
  refine Outcome.forEach_settles (fun g i => g.decided? oracle i = none) ?_ hf ?_ h i
  · intro g i o hg returned
    obtain ⟨derived, undecided⟩ := of_returns returned (cutDecided_returns hg oracle merge i)
    refine ⟨derived.consistent, undecided, ?_⟩
    intro j other before
    rcases derived.frame fun _ _ decides => site?_of_decides decides other with same | gone
    · rw [decided?_congr value same]
      exact before
    · exact decided?_of_absent gone
  · intro i outside
    refine decided?_of_absent (Option.not_isSome_iff_eq_none.mp fun live => outside ?_)
    exact (f.graph.mem_ids i).mpr live

theorem cutBranches_returns (hf : f.graph.Consistent) (oracle : Oracle) (merge : Bool) :
    ∃ o, f.cutBranches oracle merge = .ok o ∧
      o.DerivedFrom (fun g m => ∃ i, Decides oracle i g m) f := by
  refine Outcome.forEach_returns ?_ f.blockIds f hf
  intro g i hg
  obtain ⟨o, returned, derived, _⟩ := cutDecided_returns hg oracle merge i
  exact ⟨o, returned, derived.mono fun _ _ decides => ⟨i, decides⟩⟩

end Walk

end Function

end BranchTrim
