import BranchTrim.Proofs.Prune.Pipeline
import BranchTrim.Proofs.Run
import BranchTrim.Proofs.Verdict

/-!
Pruning keeps the behaviour of a function. Each move leaves a function that simulates the one before
it: dropped blocks are out of reach of the blocks that are kept, a folded block is run through at
once where there were two blocks before, and a cut branch had one outcome only, as long as the
operands of the comparison in front of it lie in their ranges. A series of moves then keeps what
runs yield, and pruning is such a series. So is a single cut of any branch, for whatever reason a
run never takes the arm that is cut off.
-/

set_option autoImplicit false

namespace BranchTrim

namespace Function

variable {f g : Function} {oracle : Oracle}

/-- The operands of an instruction with their words, if it is a comparison that is carried out. -/
def comparedBy (f : Function) (s : RunState) (inst : Inst) : List (Value × Int64) :=
  match inst.op with
  | .compare _ lhs rhs =>
    match f.read s lhs, f.read s rhs with
    | .ok x, .ok y => [(lhs, x), (rhs, y)]
    | _, _ => []
  | _ => []

def comparedAlong (f : Function) : List Inst → RunState → List (Value × Int64)
  | [], _ => []
  | inst :: insts, s =>
    f.comparedBy s inst ++
      match f.step s inst with
      | .ok t => f.comparedAlong insts t
      | .error _ => []

def comparedIn (f : Function) (i : Nat) (s : RunState) : List (Value × Int64) :=
  match f.graph.block? i with
  | some b => f.comparedAlong b.insts s
  | none => []

def InRange (oracle : Oracle) (f : Function) (i : Nat) (s : RunState) : Prop :=
  ∀ entry ∈ f.comparedIn i s, (oracle entry.1 f).contains entry.2 = true

instance {i : Nat} {s : RunState} : Decidable (f.InRange oracle i s) :=
  inferInstanceAs (Decidable (∀ entry ∈ f.comparedIn i s, _))

/-- All comparisons that a run on the given arguments carries out get operands that lie
in their ranges. -/
def RangesHold (oracle : Oracle) (f : Function) (args : List Int64) : Prop :=
  f.Throughout (f.InRange oracle) f.entry (.initial f.params args)

section Congruence

/-! What a run does in a block depends on the block and on the names of the values only. -/

private theorem read_congr (same : g.valueNames = f.valueNames) : g.read = f.read := by
  funext s v
  cases v with
  | const word => rfl
  | var id => simp only [read, valueName, same]

private theorem step_congr (same : g.valueNames = f.valueNames) : g.step = f.step := by
  funext s inst
  unfold step
  rw [read_congr same]

private theorem leave_congr (same : g.valueNames = f.valueNames) : g.leave = f.leave := by
  funext s term
  cases term with
  | jump target => rfl
  | branch cond whenTrue whenFalse => simp only [leave, read_congr same]
  | ret value =>
    cases value with
    | none => rfl
    | some value => simp only [leave, read_congr same]

private theorem perform_congr (same : g.valueNames = f.valueNames) : g.perform = f.perform := by
  funext b s
  unfold perform
  rw [step_congr same, leave_congr same]

private theorem exit_congr (same : g.valueNames = f.valueNames) {i : Nat}
    (block : g.graph.block? i = f.graph.block? i) : g.exit i = f.exit i := by
  funext s
  unfold exit
  rw [block, perform_congr same]

private theorem comparedAlong_congr (same : g.valueNames = f.valueNames) :
    g.comparedAlong = f.comparedAlong := by
  funext insts
  induction insts with
  | nil => rfl
  | cons inst insts ih =>
    funext s
    simp only [comparedAlong, comparedBy, read_congr same, step_congr same, ih]

private theorem InRange.congr (value : oracle.DependsOnValue) (same : g.valueNames = f.valueNames)
    {i : Nat} {s : RunState} (block : g.graph.block? i = f.graph.block? i)
    (within : f.InRange oracle i s) :
    g.InRange oracle i s := by
  intro entry mem
  rw [comparedIn, block, comparedAlong_congr same] at mem
  rw [value entry.1 g f]
  exact within entry mem

end Congruence

section Comparisons

private theorem mem_comparedAlong_append {insts insts' : List Inst} {s : RunState}
    {entry : Value × Int64} :
    entry ∈ f.comparedAlong (insts ++ insts') s ↔
      entry ∈ f.comparedAlong insts s ∨
        ∃ t, insts.foldlM f.step s = .ok t ∧ entry ∈ f.comparedAlong insts' t := by
  induction insts generalizing s with
  | nil => simp [comparedAlong]
  | cons inst insts ih =>
    rw [List.cons_append, comparedAlong, comparedAlong, List.foldlM_cons]
    cases worked : f.step s inst with
    | error stop => simp
    | ok t => simp only [List.mem_append, ih, or_assoc, ok_bind]

private theorem step_compare {s t : RunState} {id : Nat} {pred : Predicate} {lhs rhs : Value}
    (worked : f.step s ⟨some id, .compare pred lhs rhs⟩ = .ok t) :
    ∃ x y, f.read s lhs = .ok x ∧ f.read s rhs = .ok y ∧
      t = s.define id (if pred.evaluate x y then 1 else 0) := by
  obtain ⟨op, mapped, worked⟩ := bind_eq_ok worked
  obtain ⟨x, left, mapped⟩ := bind_eq_ok mapped
  obtain ⟨y, right, mapped⟩ := bind_eq_ok mapped
  cases mapped
  cases worked
  exact ⟨x, y, left, right, rfl⟩

private theorem read_define (f : Function) (s : RunState) (id : Nat) (word : Int64) :
    f.read (s.define id word) (.var id) = .ok word := by
  simp [read, RunState.define]

private theorem read_of_getLast? {insts : List Inst} {s t : RunState} {id : Nat} {pred : Predicate}
    {lhs rhs : Value} (last : insts.getLast? = some ⟨some id, .compare pred lhs rhs⟩)
    (worked : insts.foldlM f.step s = .ok t) :
    ∃ x y, (lhs, x) ∈ f.comparedAlong insts s ∧ (rhs, y) ∈ f.comparedAlong insts s ∧
      f.read t (.var id) = .ok (if pred.evaluate x y then 1 else 0) := by
  obtain ⟨front, rfl⟩ := List.getLast?_eq_some_iff.mp last
  rw [List.foldlM_append] at worked
  obtain ⟨u, before, worked⟩ := bind_eq_ok worked
  rw [List.foldlM_cons] at worked
  obtain ⟨t', compared, worked⟩ := bind_eq_ok worked
  cases worked
  obtain ⟨x, y, left, right, rfl⟩ := step_compare compared
  have here : ∀ entry ∈ [(lhs, x), (rhs, y)], entry ∈ f.comparedAlong
      (front ++ [⟨some id, .compare pred lhs rhs⟩]) s := by
    intro entry mem
    refine mem_comparedAlong_append.mpr (Or.inr ⟨u, before, ?_⟩)
    rw [comparedAlong]
    exact List.mem_append_left _ (by simpa [comparedBy, left, right] using mem)
  exact ⟨x, y, here _ (by simp), here _ (by simp), f.read_define u id _⟩

private theorem leave_of_decided? {i : Nat} {infeasible : Bool} {b : Block} {cond : Value}
    {whenTrue whenFalse : Nat} (decided : f.decided? oracle i = some infeasible)
    (found : f.graph.block? i = some b) (branch : b.term = .branch cond whenTrue whenFalse)
    {s t : RunState} (within : f.InRange oracle i s) (worked : b.insts.foldlM f.step s = .ok t) :
    f.leave t b.term = .goes (if infeasible then whenFalse else whenTrue) t := by
  obtain ⟨pred, lhs, rhs, compares, excluded⟩ := decided?_eq_some decided
  obtain ⟨c, id, _, _, found', branch', last⟩ := branchComparison?_eq_some compares
  obtain rfl : b = c := Option.some.inj (found.symm.trans found')
  obtain ⟨x, y, left, right, result⟩ := read_of_getLast? last worked
  have listed : f.comparedIn i s = f.comparedAlong b.insts s := by simp [comparedIn, found]
  have outcome : pred.evaluate x y = !infeasible :=
    evaluate_of_infeasible? excluded (within (lhs, x) (listed ▸ left))
      (within (rhs, y) (listed ▸ right))
  obtain ⟨rfl, rfl, rfl⟩ : cond = .var id ∧ _ ∧ _ := by
    simpa using branch.symm.trans branch'
  rw [branch, leave, result, outcome]
  cases infeasible <;> rfl

end Comparisons

section Moves

variable {good good' : Nat → RunState → Prop}

private theorem simulates_cut {i : Nat} {infeasible : Bool} {b : Block} {whenTrue whenFalse : Nat}
    (found : f.graph.block? i = some b)
    (shape : f.Reshaped g fun j =>
      if i = j then some { b with term := .jump (if infeasible then whenFalse else whenTrue) }
      else f.graph.block? j)
    (one_way : ∀ s t, good i s → b.insts.foldlM f.step s = .ok t →
      f.leave t b.term = .goes (if infeasible then whenFalse else whenTrue) t)
    (pass : ∀ j s, good j s → good' j s) : f.Simulates g good good' fun _ => True := by
  refine ⟨?_, fun _ _ _ _ _ _ _ => trivial, fun j s _ along => pass j s along.here⟩
  intro j s _ along
  refine ⟨j, s, .refl, ?_⟩
  by_cases at_i : i = j
  · subst at_i
    have cut_found : g.graph.block? i =
        some { b with term := .jump (if infeasible then whenFalse else whenTrue) } := by
      rw [shape.block?, if_pos rfl]
    rw [exit_of_found cut_found, exit_of_found found, perform_congr shape.valueNames]
    unfold perform
    cases worked : b.insts.foldlM f.step s with
    | error stop => rfl
    | ok t =>
      show f.leave t (.jump _) = f.leave t b.term
      rw [one_way s t along.here worked]
      rfl
  · rw [exit_congr shape.valueNames (by rw [shape.block?, if_neg at_i])]

private theorem mem_targets_of_exit {i j : Nat} {s t : RunState}
    (leaving : f.exit i s = .goes j t) :
    j ∈ f.graph.targets i := by
  unfold exit at leaving
  cases found : f.graph.block? i with
  | none => simp [found] at leaving
  | some b =>
    rw [Graph.targets_of_block? found]
    rw [found] at leaving
    simp only [perform] at leaving
    cases worked : b.insts.foldlM f.step s with
    | error stop => simp [worked] at leaving
    | ok u =>
      simp only [worked] at leaving
      cases term : b.term with
      | jump target =>
        rw [term] at leaving
        cases leaving
        exact List.mem_singleton_self j
      | branch cond whenTrue whenFalse =>
        rw [term, leave] at leaving
        cases read : f.read u cond with
        | error stop => simp [read] at leaving
        | ok word =>
          simp only [read, Exit.goes.injEq] at leaving
          rw [← leaving.1]
          split <;> simp [Terminator.targets, Terminator.arms]
      | ret value =>
        rw [term] at leaving
        cases value with
        | none => cases leaving
        | some value =>
          rw [leave] at leaving
          split at leaving <;> cases leaving

private theorem simulates_drop {ids : List Nat}
    (closed : ∀ t ∈ ids, ∀ j, t ∈ f.graph.targets j → j ∈ ids)
    (shape : f.Reshaped g fun j => if j ∈ ids then none else f.graph.block? j)
    (pass : ∀ j s, j ∉ ids → good j s → good' j s) :
    f.Simulates g good good' (· ∉ ids) := by
  have same : ∀ j, j ∉ ids → g.exit j = f.exit j := fun j outside =>
    exit_congr shape.valueNames (by rw [shape.block?, if_neg outside])
  refine ⟨?_, ?_, fun j s outside along => pass j s outside along.here⟩
  · intro j s outside _
    exact ⟨j, s, .refl, by rw [same j outside]⟩
  · intro i s j t outside _ leaving inside
    rw [same i outside] at leaving
    exact outside (closed j inside i (mem_targets_of_exit leaving))

private theorem perform_append (f : Function) (p b : Block) (name : String) (s : RunState) :
    f.perform ⟨name, p.insts ++ b.insts, b.term⟩ s =
      match p.insts.foldlM f.step s with
      | .ok t => f.perform b t
      | .error stop => .stops (.error stop) := by
  unfold perform
  simp only [List.foldlM_append]
  cases p.insts.foldlM f.step s <;> rfl

private theorem Foldable.exit_head {head next : Nat} {p b : Block} {s t : RunState}
    (foldable : f.Foldable head next p b) (worked : p.insts.foldlM f.step s = .ok t) :
    f.exit head s = .goes next t := by
  simp [exit_of_found foldable.head_found, perform, worked, foldable.jump, leave]

private theorem simulates_fold {head next : Nat} {p b : Block} (foldable : f.Foldable head next p b)
    (shape : f.Reshaped g (f.foldedBlocks head next p b))
    (pass : ∀ j s, j ≠ next → f.Throughout good j s → good' j s) :
    f.Simulates g good good' (· ≠ next) := by
  refine ⟨?_, ?_, pass⟩
  · intro i s ne_next _
    by_cases at_head : i = head
    · subst at_head
      rw [exit_of_found (foldable.block?_head shape), perform_congr shape.valueNames,
        perform_append]
      cases worked : p.insts.foldlM f.step s with
      | error stop =>
        refine ⟨i, s, .refl, ?_⟩
        simp [exit_of_found foldable.head_found, perform, worked]
      | ok t =>
        -- The run of `f` passes from the head to the block that is gone in `g`.
        exact ⟨next, t, .single (foldable.exit_head worked),
          (exit_of_found foldable.next_found t).symm⟩
    · have same := exit_congr shape.valueNames (shape.block?_unfolded ne_next at_head)
      exact ⟨i, s, .refl, by rw [same]⟩
  · rintro i s j t ne_next _ leaving rfl
    have leads := mem_targets_of_exit leaving
    by_cases at_head : i = head
    · subst at_head
      rw [foldable.targets_head shape] at leads
      exact ne_next (foldable.only j leads).symm
    · rw [Graph.targets_congr (shape.block?_unfolded ne_next at_head)] at leads
      exact at_head (foldable.only i leads)

/-- The blocks that a move leaves in place, if they were there. -/
def Keeps : Move → Nat → Prop
  | .cut _ _, _ => True
  | .drop blocks, i => i ∉ blocks.map Prod.fst
  | .fold _ next, i => i ≠ next

private theorem Moves.keeps_entry {m : Move} (move : f.Moves g m) : Keeps m f.entry := by
  cases move with
  | cut => trivial
  | drop _ _ _ inner => exact inner
  | fold foldable => exact foldable.next_ne_entry.symm

/-- A move that pruning makes is not seen in a run whose comparisons get operands
in their ranges. -/
private theorem Moves.simulates {m : Move} (value : oracle.DependsOnValue) (move : f.Moves g m)
    (justified : f.Justified oracle m) :
    f.Simulates g (f.InRange oracle) (g.InRange oracle) (Keeps m) := by
  cases move with
  | @cut i infeasible b _ whenTrue whenFalse found branch shape =>
    have decided := justified i infeasible rfl
    refine simulates_cut found shape ?_ ?_
    · exact fun s t within worked => leave_of_decided? decided found branch within worked
    · intro j s within entry mem
      rw [value entry.1 g f]
      refine within entry ?_
      rw [comparedIn, shape.block?, comparedAlong_congr shape.valueNames] at mem
      by_cases at_i : i = j
      · subst at_i
        simpa [comparedIn, found] using mem
      · simpa [comparedIn, at_i] using mem
  | drop _ _ _ _ closed shape =>
    refine simulates_drop closed shape ?_
    intro j s outside within
    exact within.congr value shape.valueNames (by rw [shape.block?, if_neg outside])
  | @fold head next p b foldable shape =>
    refine simulates_fold foldable shape ?_
    intro j s ne_next along
    by_cases at_head : j = head
    · subst at_head
      intro entry mem
      rw [value entry.1 g f]
      have folded : g.comparedIn j s = f.comparedAlong (p.insts ++ b.insts) s := by
        rw [comparedIn, foldable.block?_head shape, comparedAlong_congr shape.valueNames]
      rw [folded, mem_comparedAlong_append] at mem
      rcases mem with own | ⟨t, worked, taken⟩
      · exact along.here entry (by simpa [comparedIn, foldable.head_found] using own)
      · have there : f.InRange oracle next t :=
          (along.later (.single (foldable.exit_head worked))).here
        exact there entry (by simpa [comparedIn, foldable.next_found] using taken)
    · exact along.here.congr value shape.valueNames (shape.block?_unfolded ne_next at_head)

private theorem Derives.runs {moves : List Move} (value : oracle.DependsOnValue)
    (series : f.Derives (Justified oracle) moves g) {s : RunState}
    (along : f.Throughout (f.InRange oracle) f.entry s) :
    (∀ n result, f.Runs n f.entry s result → g.Runs n g.entry s result) ∧
      ∀ n result, g.Runs n g.entry s result → ∃ m, f.Runs m f.entry s result := by
  induction series with
  | refl f => exact ⟨fun _ _ runs => runs, fun n _ runs => ⟨n, runs⟩⟩
  | @step f g h m moves justified move rest ih =>
    have sim := move.simulates value justified
    have kept := move.keeps_entry
    obtain ⟨forward, backward⟩ := ih (sim.throughout kept along)
    constructor
    · exact fun n result runs => forward n result (sim.forward kept along runs)
    · intro n result runs
      obtain ⟨m, runs⟩ := backward n result runs
      exact sim.backward kept along runs

end Moves

section Results

/-- What an outcome of pruning has to do with the function that was pruned, on given arguments. -/
structure SameRuns (f g : Function) (args : List Int64) : Prop where
  finishes : ∀ limit, f.run limit args ≠ .error (.unfinished f.name) →
    g.run limit args = f.run limit args
  finished : ∀ limit, g.run limit args ≠ .error (.unfinished g.name) →
    ∃ limit', f.run limit' args = g.run limit args

theorem sameRuns_of_runs {args : List Int64} (params : g.params = f.params)
    (forward : ∀ n result, f.Runs n f.entry (.initial f.params args) result →
      g.Runs n g.entry (.initial f.params args) result)
    (backward : ∀ n result, g.Runs n g.entry (.initial f.params args) result →
      ∃ m, f.Runs m f.entry (.initial f.params args) result) : f.SameRuns g args := by
  constructor
  · intro limit ends
    unfold run
    rw [params]
    exact (forward limit _ (runs_of_runFrom ends)).runFrom_eq
  · intro limit ends
    unfold run at ends ⊢
    rw [params] at ends ⊢
    obtain ⟨limit', runs⟩ := backward limit _ (runs_of_runFrom ends)
    exact ⟨limit', runs.runFrom_eq⟩

private theorem sameRuns_of_derives {moves : List Move} {args : List Int64}
    (value : oracle.DependsOnValue) (series : f.Derives (Justified oracle) moves g)
    (ranges : f.RangesHold oracle args) :
    f.SameRuns g args := by
  obtain ⟨forward, backward⟩ := series.runs value ranges
  exact sameRuns_of_runs series.fields.2.1 forward backward

end Results

section Pruning

variable {options : Options}

/--
Pruning keeps behaviour. On arguments for which the ranges hold, the pruned function ends its run
within as many blocks as the given one and in the same way, and it ends none that the given one
does not end.
-/
theorem pruning_preserves_runs (edges : f.verifyEdges = .ok ()) (value : oracle.DependsOnValue)
    (options : Options) :
    (∀ o args, f.prune oracle options = .ok o → f.RangesHold oracle args →
      f.SameRuns o.func args) ∧
    ((options.printAfterAll = true → f.Numbered) → ∃ o, f.prune oracle options = .ok o) := by
  have hf := verifyEdges_eq_ok_iff.mp edges
  refine ⟨?_, prune_returns hf oracle options⟩
  intro o args pruned ranges
  obtain ⟨_, moves, series, _⟩ := derivedFrom_of_prune hf pruned
  exact sameRuns_of_derives value series ranges

/-- A function with a short way from its entry, and with a longer one through a loop that
ranges can exclude. -/
def detour : Function where
  name := "f"
  params := [0, 1]
  valueNames := ["x", "c", "k", "d"]
  graph := Graph.ofBlocks
    [⟨"entry", [⟨some 2, .compare .slt (.var 0) (.const 10)⟩], .branch (.var 2) 3 1⟩,
      ⟨"slow", [], .jump 2⟩, ⟨"again", [], .branch (.var 1) 1 4⟩,
      ⟨"fast", [⟨some 3, .compare .slt (.var 0) (.const 5)⟩], .jump 4⟩,
      ⟨"done", [], .branch (.var 3) 5 6⟩, ⟨"a", [], .ret (some (.const 1))⟩,
      ⟨"b", [], .ret (some (.const 2))⟩]
  entry_live := rfl
  params_numbered := by decide

def shortRange : RangeTable :=
  ⟨[(0, ⟨0, 3, by decide⟩)]⟩

theorem pruning_preserves_runs_detour :
    detour.RangesHold shortRange.oracle [2, 1] ∧
      ∃ o, detour.prune shortRange.oracle .default = .ok o ∧ detour.SameRuns o.func [2, 1] := by
  have ranges : detour.RangesHold shortRange.oracle [2, 1] := by
    refine throughout_of_goes (j := 3) (by decide) rfl ?_
    refine throughout_of_goes (j := 4) (by decide) rfl ?_
    refine throughout_of_goes (j := 5) (by decide) rfl ?_
    exact throughout_of_stops (by decide) rfl
  obtain ⟨kept, returns⟩ := pruning_preserves_runs (f := detour) (by decide)
    shortRange.dependsOnValue .default
  obtain ⟨o, pruned⟩ := returns (by decide)
  exact ⟨ranges, o, pruned, kept o [2, 1] pruned ranges⟩

end Pruning

section Cutting

variable {i : Nat} {infeasible : Bool}

/-- The outcome of the condition of a block, if a run that enters the block in a given state comes
to its branch. -/
def conditionAt (f : Function) (i : Nat) (s : RunState) : Option (Except Stop Bool) :=
  (f.graph.block? i).bind fun b =>
    match b.term, b.insts.foldlM f.step s with
    | .branch cond _ _, .ok t => some ((f.read t cond).map fun word => decide (word ≠ 0))
    | _, _ => none

/-- Where a run comes to the branch of a block, the condition is defined and does not have
the given outcome. -/
def Avoids (i : Nat) (infeasible : Bool) (f : Function) (j : Nat) (s : RunState) : Prop :=
  j = i → ∀ outcome ∈ f.conditionAt i s, outcome = .ok (!infeasible)

instance {j : Nat} {s : RunState} : Decidable (f.Avoids i infeasible j s) :=
  inferInstanceAs (Decidable (j = i → ∀ outcome ∈ f.conditionAt i s, _))

private theorem Avoids.leave_eq {b : Block} {cond : Value} {whenTrue whenFalse : Nat}
    {s t : RunState} (avoids : f.Avoids i infeasible i s) (found : f.graph.block? i = some b)
    (branch : b.term = .branch cond whenTrue whenFalse) (worked : b.insts.foldlM f.step s = .ok t) :
    f.leave t b.term = .goes (if infeasible then whenFalse else whenTrue) t := by
  have outcome : (f.read t cond).map (fun word => decide (word ≠ 0)) = .ok (!infeasible) := by
    apply avoids rfl
    simp [conditionAt, found, branch, worked]
  rw [branch, leave]
  cases read : f.read t cond with
  | error stop =>
    rw [read] at outcome
    cases outcome
  | ok word =>
    rw [read] at outcome
    have truth : decide (word ≠ 0) = !infeasible := Except.ok.inj outcome
    cases infeasible with
    | true =>
      have zero : word = 0 := by simpa using truth
      simp [zero]
    | false =>
      have nonzero : word ≠ 0 := by simpa using truth
      simp [nonzero]

theorem Derives.runs_of_uncut {moves : List Move}
    (series : f.Derives (fun _ m => m.Drops ∨ ∃ i, m.FoldsInto i) moves g) (s : RunState) :
    (∀ n result, f.Runs n f.entry s result → g.Runs n g.entry s result) ∧
      ∀ n result, g.Runs n g.entry s result → ∃ m, f.Runs m f.entry s result := by
  -- An oracle that says nothing justifies them.
  let silent : Oracle := fun _ _ => .full
  have value : silent.DependsOnValue := fun _ _ _ => rfl
  have justified : f.Derives (Justified silent) moves g :=
    series.mono fun _ _ => justified_of_drops_or_folds
  exact justified.runs value fun _ _ _ entry _ => Range.contains_full entry.2

/--
A cut keeps behaviour on its own. On arguments for which the run never comes to the branch with the
outcome that is cut off, nor with a condition that is not defined, the function ends its run after
the cut within as many blocks as before and in the same way, and it ends none that it did not end
before. The cut always has a branch less to show for it.
-/
theorem cutting_preserves_runs (edges : f.verifyEdges = .ok ()) {i : Nat} {b : Block} {cond : Value}
    {whenTrue whenFalse : Nat} (found : f.graph.block? i = some b)
    (branch : b.term = .branch cond whenTrue whenFalse) (infeasible merge : Bool) :
    ∃ o, f.cut i infeasible merge = .ok o ∧ o.func.branchCount < f.branchCount ∧
      ∀ args, f.Throughout (f.Avoids i infeasible) f.entry (.initial f.params args) →
        f.SameRuns o.func args := by
  have hf := verifyEdges_eq_ok_iff.mp edges
  obtain ⟨g, dead, removed, last, log, cutting, hg, _, removing, folded, _, returned⟩ :=
    cut_stages hf found branch infeasible merge
  refine ⟨_, returned, branchCount_cut returned, fun args along => ?_⟩
  have dropped := of_returns removing (removeDead_returns hg dead)
  obtain ⟨_, drops, first, _⟩ := dropped
  obtain ⟨_, folds, second, _⟩ := folded
  have tidying :
      g.Derives (fun _ m => m.Drops ∨ ∃ i, m.FoldsInto i) (drops ++ folds) last.func :=
    (first.mono fun _ _ => Or.inl).trans (second.mono fun _ _ folds => Or.inr ⟨i, folds.2⟩)
  have sim : f.Simulates g (f.Avoids i infeasible) (fun _ _ => True) fun _ => True := by
    cases cutting with
    | cut found' branch' shape =>
      refine simulates_cut found' shape ?_ fun _ _ _ => trivial
      exact fun s t avoids worked => avoids.leave_eq found' branch' worked
  obtain ⟨forward, backward⟩ := tidying.runs_of_uncut (.initial f.params args)
  have params : last.func.params = f.params := tidying.fields.2.1.trans cutting.fields.2.1
  refine sameRuns_of_runs params ?_ ?_
  · exact fun n result runs => forward n result (sim.forward trivial along runs)
  · intro n result runs
    obtain ⟨m, runs⟩ := backward n result runs
    exact sim.backward trivial along runs

theorem cutting_preserves_runs_loops :
    (∃ o, strayLoop.cut 1 true true = .ok o ∧ strayLoop.SameRuns o.func [1, 0]) ∧
    ∃ o, detour.cut 2 true true = .ok o ∧ detour.run 5 [20, 0] = .error (.undefined "d") ∧
      o.func.run 5 [20, 0] = .error (.undefined "d") := by
  constructor
  · obtain ⟨o, returned, _, same⟩ :=
      cutting_preserves_runs (f := strayLoop) (by decide) (i := 1) rfl rfl true true
    refine ⟨o, returned, same [1, 0] ?_⟩
    refine throughout_of_goes (j := 1) (by decide) rfl ?_
    refine throughout_of_goes (j := 3) (by decide) rfl ?_
    exact throughout_of_stops (by decide) rfl
  · obtain ⟨o, returned, _, same⟩ :=
      cutting_preserves_runs (f := detour) (by decide) (i := 2) rfl rfl true true
    have stops : detour.run 5 [20, 0] = .error (.undefined "d") := by decide
    refine ⟨o, returned, stops, ?_⟩
    have along : detour.Throughout (detour.Avoids 2 true) detour.entry
        (.initial detour.params [20, 0]) := by
      refine throughout_of_goes (j := 1) (by decide) rfl ?_
      refine throughout_of_goes (j := 2) (by decide) rfl ?_
      refine throughout_of_goes (j := 4) (by decide) rfl ?_
      exact throughout_of_stops (by decide) rfl
    rw [(same [20, 0] along).finishes 5 (by rw [stops]; decide), stops]

end Cutting

end Function

end BranchTrim
