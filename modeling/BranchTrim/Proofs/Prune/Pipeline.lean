import BranchTrim.Proofs.Prune.Sweep
import BranchTrim.Proofs.Text.Printable
import BranchTrim.Prune.Pipeline

/-!
Pruning as a whole. On a consistent graph it always returns, with every check that the options may
ask for, and what it does is a series of moves in which every cut is one that ranges decide.
-/

set_option autoImplicit false

namespace BranchTrim

namespace Function

variable {f g : Function} {m : Move} {moves : List Move} {oracle : Oracle} {options : Options}

/-- The moves that pruning makes: of the cuts, those that ranges decide. -/
def Justified (oracle : Oracle) (f : Function) (m : Move) : Prop :=
  ∀ i infeasible, m = .cut i infeasible → f.decided? oracle i = some infeasible

private theorem justified_of_decides {i : Nat} (decides : Decides oracle i f m) :
    f.Justified oracle m := by
  rintro j infeasible rfl
  obtain ⟨rfl, decided⟩ := decides
  exact decided

theorem justified_of_drops_or_folds (keeps : m.Drops ∨ ∃ i, m.FoldsInto i) :
    f.Justified oracle m := by
  rintro j infeasible rfl
  rcases keeps with drops | ⟨_, folds⟩
  · cases drops
  · cases folds

private theorem Moves.numbered (move : f.Moves g m) (numbered : f.Numbered) : g.Numbered := by
  intro i b found id mem
  rw [move.fields.2.2]
  cases move with
  | @cut j _ c _ _ _ c_found branch shape =>
    rw [shape.block?] at found
    split at found
    · cases found
      refine numbered j c c_found id ?_
      simp only [Block.mentions, Terminator.values, List.flatMap_nil, List.append_nil] at mem
      exact List.mem_append_left _ mem
    · exact numbered i b found id mem
  | drop _ _ _ _ _ shape =>
    rw [shape.block?] at found
    split at found
    · cases found
    · exact numbered i b found id mem
  | @fold head next p c foldable shape =>
    rw [shape.block?, foldedBlocks] at found
    split at found
    · cases found
    split at found
    · cases found
      simp only [Block.mentions, List.flatMap_append, List.append_assoc] at mem
      rcases List.mem_append.mp mem with own | taken
      · exact numbered head p foldable.head_found id (List.mem_append_left _ own)
      · exact numbered next c foldable.next_found id taken
    · exact numbered i b found id mem

theorem Derives.numbered {allowed : Function → Move → Prop} (series : f.Derives allowed moves g)
    (numbered : f.Numbered) : g.Numbered := by
  induction series with
  | refl => exact numbered
  | step _ move _ ih => exact ih (move.numbered numbered)

end Function

namespace Stage

variable {oracle : Oracle} {options : Options} {stage : Stage} {f : Function} {o : Outcome}

/-- What a stage does to a function under the options, without checks and log. -/
def effect (oracle : Oracle) (options : Options) (stage : Stage) (f : Function) :
    Except Fault Outcome :=
  if stage.isEnabled options then stage.work oracle options f else .ok (.unchanged f)

private theorem effect_returns (hf : f.graph.Consistent) (oracle : Oracle) (options : Options)
    (stage : Stage) :
    ∃ o, stage.effect oracle options f = .ok o ∧
      o.DerivedFrom (Function.Justified oracle) f := by
  unfold effect
  split
  · cases stage with
    | branches =>
      obtain ⟨o, returned, derived⟩ :=
        Function.cutBranches_returns hf oracle options.mergeBlocks
      refine ⟨o, returned, derived.mono ?_⟩
      rintro g m ⟨i, decides⟩
      exact Function.justified_of_decides decides
    | orphans =>
      obtain ⟨o, returned, derived⟩ := Function.sweep_returns hf options.mergeBlocks
      exact ⟨o, returned, derived.mono fun _ _ => Function.justified_of_drops_or_folds⟩
  · exact ⟨_, rfl, .unchanged hf⟩

private theorem effect_of_run (h : stage.run oracle options f = .ok o) :
    ∃ o', stage.effect oracle options f = .ok o' ∧ o.func = o'.func ∧ o.stats = o'.stats := by
  unfold run at h
  unfold effect
  split at h
  · next enabled =>
    obtain ⟨o', worked, h⟩ := bind_eq_ok h
    obtain ⟨_, _, h⟩ := bind_eq_ok h
    obtain ⟨_, _, h⟩ := bind_eq_ok h
    cases h
    exact ⟨o', by rw [if_pos enabled, worked], rfl, rfl⟩
  · next disabled =>
    cases h
    exact ⟨_, if_neg disabled, rfl, rfl⟩

theorem check_returns (hf : f.graph.Consistent) (options : Options) (stage : Stage) :
    stage.check options f = .ok () := by
  unfold check
  rw [Function.verifyEdges_eq_ok_iff.mpr hf]
  split <;> rfl

private theorem printing_returns (hf : f.graph.Consistent)
    (printable : options.printAfterAll = true → f.Numbered) (stage : Stage) :
    ∃ log, stage.printing options f = .ok log := by
  unfold printing
  split
  · next asked =>
    obtain ⟨text, printed⟩ := Function.print_returns hf (printable asked)
    rw [printed]
    exact ⟨_, rfl⟩
  · exact ⟨_, rfl⟩

private theorem run_of_effect (h : stage.effect oracle options f = .ok o)
    (ho : o.func.graph.Consistent) (printable : options.printAfterAll = true → o.func.Numbered) :
    ∃ o', stage.run oracle options f = .ok o' ∧ o'.func = o.func ∧ o'.stats = o.stats := by
  unfold effect at h
  unfold run
  split at h
  · next enabled =>
    obtain ⟨log, printed⟩ := printing_returns ho printable stage
    simp only [enabled, if_true, h, check_returns ho, printed, ok_bind, pure_eq_ok]
    exact ⟨_, rfl, rfl, rfl⟩
  · next disabled =>
    cases h
    rw [if_neg disabled]
    exact ⟨_, rfl, rfl, rfl⟩

end Stage

namespace Function

variable {f : Function} {oracle : Oracle} {options : Options} {o : Outcome}

theorem effects_of_prune (h : f.prune oracle options = .ok o) :
    ∃ o₁ o₂, Stage.branches.effect oracle options f = .ok o₁ ∧
      Stage.orphans.effect oracle options o₁.func = .ok o₂ ∧ o.func = o₂.func ∧
      o.stats = o₁.stats + o₂.stats := by
  obtain ⟨cut, first, h⟩ := bind_eq_ok h
  obtain ⟨swept, second, h⟩ := bind_eq_ok h
  obtain ⟨o', second, rest⟩ := bind_eq_ok second
  obtain ⟨o₁, effect₁, func₁, stats₁⟩ := Stage.effect_of_run first
  obtain ⟨o₂, effect₂, func₂, stats₂⟩ := Stage.effect_of_run second
  cases rest
  cases h
  rw [func₁] at effect₂
  refine ⟨o₁, o₂, effect₁, effect₂, func₂, ?_⟩
  simp only [Outcome.after, stats₁, stats₂]

theorem walk_and_sweep_of_prune (h : f.prune oracle options = .ok o) :
    ∃ o₁ o₂, f.cutBranches oracle options.mergeBlocks = .ok o₁ ∧
      (options.sweepUnreachable = true ∧ o₁.func.sweep options.mergeBlocks = .ok o₂ ∨
        options.sweepUnreachable = false ∧ o₂ = .unchanged o₁.func) ∧
      o.func = o₂.func ∧ o.stats = o₁.stats + o₂.stats := by
  obtain ⟨o₁, o₂, walked, swept, func, stats⟩ := effects_of_prune h
  refine ⟨o₁, o₂, walked, ?_, func, stats⟩
  unfold Stage.effect at swept
  split at swept
  · next enabled => exact Or.inl ⟨enabled, swept⟩
  · next disabled =>
    cases swept
    exact Or.inr ⟨Bool.not_eq_true _ ▸ disabled, rfl⟩

theorem derivedFrom_of_prune (hf : f.graph.Consistent) (h : f.prune oracle options = .ok o) :
    o.DerivedFrom (Justified oracle) f := by
  obtain ⟨o₁, o₂, effect₁, effect₂, func, stats⟩ := effects_of_prune h
  have derived₁ := of_returns effect₁ (Stage.effect_returns hf oracle options .branches)
  have derived₂ :=
    of_returns effect₂ (Stage.effect_returns derived₁.consistent oracle options .orphans)
  obtain ⟨consistent, moves, series, counted⟩ := derived₁.trans derived₂
  refine ⟨by rw [func]; exact consistent, moves, by rw [func]; exact series, ?_⟩
  rw [stats]
  exact counted

/-- Pruning returns if the function can be printed wherever the options ask for it. -/
theorem prune_returns (hf : f.graph.Consistent) (oracle : Oracle) (options : Options)
    (printable : options.printAfterAll = true → f.Numbered) :
    ∃ o, f.prune oracle options = .ok o := by
  obtain ⟨o₁, effect₁, derived₁⟩ := Stage.effect_returns hf oracle options .branches
  obtain ⟨_, _, series₁, _⟩ := id derived₁
  obtain ⟨cut, ran₁, func₁, _⟩ := Stage.run_of_effect effect₁ derived₁.consistent
    fun asked => series₁.numbered (printable asked)
  obtain ⟨o₂, effect₂, derived₂⟩ :=
    Stage.effect_returns derived₁.consistent oracle options .orphans
  obtain ⟨_, _, series₂, _⟩ := id derived₂
  obtain ⟨swept, ran₂, _, _⟩ := Stage.run_of_effect effect₂ derived₂.consistent
    fun asked => series₂.numbered (series₁.numbered (printable asked))
  rw [← func₁] at ran₂
  simp only [prune, ran₁, Outcome.andThen, ran₂, ok_bind, pure_eq_ok]
  exact ⟨_, rfl⟩

/-- Where the edges are right, neither pruning nor any of its steps is refused, whatever
the ranges are. -/
theorem pruning_never_refused (f : Function) (edges : f.verifyEdges = .ok ()) :
    (f.Numbered → ∀ oracle options,
      ∃ o, f.prune oracle options = .ok o ∧ o.func.verifyEdges = .ok ()) ∧
    (∀ i b cond whenTrue whenFalse, f.graph.block? i = some b →
      b.term = .branch cond whenTrue whenFalse → ∀ infeasible merge,
      ∃ o, f.cut i infeasible merge = .ok o ∧ o.func.verifyEdges = .ok ()) ∧
    (∀ start, ∃ o, f.removeDead start = .ok o ∧ o.func.verifyEdges = .ok ()) ∧
    ∀ head next p, f.graph.block? head = some p → p.term = .jump next →
      ∃ o, f.mergeChain head next = .ok o ∧ o.func.verifyEdges = .ok () := by
  have hf := verifyEdges_eq_ok_iff.mp edges
  simp only [verifyEdges_eq_ok_iff]
  refine ⟨?_, ?_, ?_, ?_⟩
  · intro numbered oracle options
    obtain ⟨o, returned⟩ := prune_returns hf oracle options fun _ => numbered
    exact ⟨o, returned, (derivedFrom_of_prune hf returned).consistent⟩
  · intro i b cond whenTrue whenFalse found branch infeasible merge
    obtain ⟨o, returned, derived⟩ :=
      cut_returns hf found branch infeasible merge (fun _ _ => True)
      trivial (fun _ _ _ => trivial) (fun _ _ _ => trivial)
    exact ⟨o, returned, derived.consistent⟩
  · intro start
    obtain ⟨o, returned, derived⟩ := removeDead_returns hf start
    exact ⟨o, returned, derived.consistent⟩
  · intro head next p found jump
    obtain ⟨o, returned, derived, _⟩ := mergeChain_returns hf found jump
    exact ⟨o, returned, derived.consistent⟩

/-- A function with a loop, and with two blocks beside it that lead to each other only. -/
def strayLoop : Function where
  name := "f"
  params := [0, 2]
  valueNames := ["x", "k", "c"]
  graph := Graph.ofBlocks
    [⟨"entry", [⟨some 1, .compare .slt (.var 0) (.const 10)⟩], .branch (.var 1) 1 2⟩,
      ⟨"loop", [], .branch (.var 2) 1 3⟩, ⟨"side", [], .jump 3⟩,
      ⟨"out", [], .ret (some (.var 0))⟩,
      ⟨"stray", [⟨some 1, .compare .slt (.var 0) (.const 10)⟩], .branch (.var 1) 4 5⟩,
      ⟨"lost", [], .jump 4⟩]
  entry_live := rfl
  params_numbered := by decide

/-- Sees all values as one constant, and as another one once the function has lost a block. -/
def shifting : Oracle := fun _ f => if f.blockCount = 6 then .singleton 0 else .singleton 20

theorem pruning_never_refused_strayLoop :
    (∃ o, strayLoop.prune shifting ⟨true, true, true, true⟩ = .ok o ∧
      o.func.verifyEdges = .ok ()) ∧
    (∃ o, strayLoop.cut 4 false true = .ok o ∧ o.func.verifyEdges = .ok ()) ∧
    (∃ o, strayLoop.removeDead 9 = .ok o ∧ o.func.verifyEdges = .ok ()) ∧
    ∃ o, strayLoop.mergeChain 5 4 = .ok o ∧ o.func.verifyEdges = .ok () := by
  obtain ⟨prunes, cuts, removes, merges⟩ := pruning_never_refused strayLoop (by decide)
  exact ⟨prunes (by decide) _ _, cuts 4 _ _ _ _ rfl rfl false true, removes 9,
    merges 5 4 _ rfl rfl⟩

end Function

end BranchTrim
