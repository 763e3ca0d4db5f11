import BranchTrim.Refusal
import BranchTrim.Trace
import Mathlib.Logic.Relation

/-!
Runs block by block. A run goes from block to block until one of them stops it, so what it does is
settled by how it leaves each block. One function simulates another if it leaves every block as the
other one does, be it that the other one passes through some further blocks before; then both stop
with the same result, if they stop at all.
-/

set_option autoImplicit false

namespace BranchTrim

inductive Exit where
  | stops (result : Except Stop Trace)
  | goes (next : Nat) (s : RunState)

namespace Function

variable {f g : Function}

def leave (f : Function) (s : RunState) : Terminator Value Nat → Exit
  | .jump target => .goes target s
  | .branch cond whenTrue whenFalse =>
    match f.read s cond with
    | .ok word => .goes (if word ≠ 0 then whenTrue else whenFalse) s
    | .error stop => .stops (.error stop)
  | .ret none => .stops (.ok ⟨s.calls.reverse, none⟩)
  | .ret (some value) =>
    match f.read s value with
    | .ok word => .stops (.ok ⟨s.calls.reverse, some word⟩)
    | .error stop => .stops (.error stop)

def perform (f : Function) (b : Block) (s : RunState) : Exit :=
  match b.insts.foldlM f.step s with
  | .ok t => f.leave t b.term
  | .error stop => .stops (.error stop)

def exit (f : Function) (i : Nat) (s : RunState) : Exit :=
  match f.graph.block? i with
  | some b => f.perform b s
  | none => .stops (.error (.fault .missingBlock))

theorem exit_of_found {i : Nat} {b : Block} (found : f.graph.block? i = some b) (s : RunState) :
    f.exit i s = f.perform b s := by
  simp [exit, found]

private theorem runFrom_succ (f : Function) (limit i : Nat) (s : RunState) :
    f.runFrom (limit + 1) i s = match f.exit i s with
      | .stops result => result
      | .goes next t => f.runFrom limit next t := by
  rw [runFrom]
  unfold exit perform
  cases f.graph.block? i with
  | none => rfl
  | some b =>
    cases worked : b.insts.foldlM f.step s with
    | error stop => simp only [worked, error_bind]
    | ok t =>
      simp only [worked, ok_bind]
      cases b.term with
      | jump target => rfl
      | branch cond whenTrue whenFalse =>
        cases cond_read : f.read t cond <;> simp [leave, cond_read]
      | ret value =>
        cases value with
        | none => rfl
        | some value =>
          cases value_read : f.read t value <;> simp [leave, value_read]

/-- A run from a block on stops with a result within a number of blocks. -/
inductive Runs (f : Function) : Nat → Nat → RunState → Except Stop Trace → Prop
  | stop {n i : Nat} {s : RunState} {result : Except Stop Trace}
      (exit : f.exit i s = .stops result) : Runs f (n + 1) i s result
  | go {n i next : Nat} {s t : RunState} {result : Except Stop Trace}
      (exit : f.exit i s = .goes next t) (rest : Runs f n next t result) :
      Runs f (n + 1) i s result

/-- A run comes by the second point if it comes by the first one. -/
abbrev Visits (f : Function) : Nat × RunState → Nat × RunState → Prop :=
  Relation.ReflTransGen fun c d => f.exit c.1 c.2 = .goes d.1 d.2

/-- Something holds wherever a run comes by from a point on. -/
def Throughout (f : Function) (good : Nat → RunState → Prop) (i : Nat) (s : RunState) : Prop :=
  ∀ j t, f.Visits (i, s) (j, t) → good j t

section Runs

variable {n i : Nat} {s : RunState} {result : Except Stop Trace}

theorem runs_of_runFrom (finished : f.runFrom n i s ≠ .error (.unfinished f.name)) :
    f.Runs n i s (f.runFrom n i s) := by
  induction n generalizing i s with
  | zero => exact absurd rfl finished
  | succ n ih =>
    rw [runFrom_succ] at finished ⊢
    cases leaving : f.exit i s with
    | stops result => exact .stop leaving
    | goes next t =>
      rw [leaving] at finished
      exact .go leaving (ih finished)

theorem Runs.runFrom_eq (runs : f.Runs n i s result) : f.runFrom n i s = result := by
  induction runs with
  | stop leaving => rw [runFrom_succ, leaving]
  | go leaving _ ih =>
    rw [runFrom_succ, leaving]
    exact ih

private theorem Runs.mono {m : Nat} (runs : f.Runs n i s result) (le : n ≤ m) :
    f.Runs m i s result := by
  induction runs generalizing m with
  | stop leaving =>
    obtain ⟨k, rfl⟩ := Nat.exists_eq_add_of_le' le
    exact .stop leaving
  | @go n _ _ _ _ _ leaving _ ih =>
    obtain ⟨k, rfl⟩ := Nat.exists_eq_add_of_le' le
    exact .go leaving (ih (Nat.le_add_left n k))

private theorem Runs.before {c d : Nat × RunState} (visits : f.Visits c d)
    (runs : f.Runs n d.1 d.2 result) : ∃ m, f.Runs m c.1 c.2 result := by
  induction visits using Relation.ReflTransGen.head_induction_on with
  | refl => exact ⟨n, runs⟩
  | head leaving _ ih =>
    obtain ⟨m, runs⟩ := ih
    exact ⟨m + 1, .go leaving runs⟩

private theorem Runs.after {c d : Nat × RunState} (visits : f.Visits c d)
    (runs : f.Runs n c.1 c.2 result) : ∃ m ≤ n, f.Runs m d.1 d.2 result := by
  induction visits with
  | refl => exact ⟨n, Nat.le_refl n, runs⟩
  | tail _ leaving ih =>
    obtain ⟨m, le, runs⟩ := ih
    cases runs with
    | stop stopping =>
      rw [leaving] at stopping
      cases stopping
    | @go m _ _ _ _ _ leaving' rest =>
      rw [leaving] at leaving'
      cases leaving'
      exact ⟨m, by omega, rest⟩

end Runs

section Simulation

variable {good good' : Nat → RunState → Prop} {kept : Nat → Prop} {i : Nat} {s : RunState}

theorem Throughout.here (along : f.Throughout good i s) : good i s :=
  along i s .refl

theorem Throughout.later {j : Nat} {t : RunState} (along : f.Throughout good i s)
    (visits : f.Visits (i, s) (j, t)) : f.Throughout good j t :=
  fun k u further => along k u (visits.trans further)

theorem throughout_of_stops {result : Except Stop Trace} (here : good i s)
    (stopping : f.exit i s = .stops result) : f.Throughout good i s := by
  intro j t visits
  rcases Relation.ReflTransGen.cases_head visits with same | ⟨_, leaving, _⟩
  · cases same
    exact here
  · rw [stopping] at leaving
    cases leaving

theorem throughout_of_goes {j : Nat} {t : RunState} (here : good i s)
    (leaving : f.exit i s = .goes j t) (later : f.Throughout good j t) : f.Throughout good i s := by
  intro k u visits
  rcases Relation.ReflTransGen.cases_head visits with same | ⟨c, leaving', further⟩
  · cases same
    exact here
  · rw [leaving] at leaving'
    cases leaving'
    exact later k u further

/--
`g` leaves the blocks that it has kept from `f` as `f` does, if not at once then after some further
blocks. Of the run of `f` something good may be assumed, and the same then has to hold for `g`.
-/
structure Simulates (f g : Function) (good good' : Nat → RunState → Prop)
    (kept : Nat → Prop) :
    Prop where
  follow : ∀ i s, kept i → f.Throughout good i s →
    ∃ j t, f.Visits (i, s) (j, t) ∧ g.exit i s = f.exit j t
  stay : ∀ i s j t, kept i → f.Throughout good i s → g.exit i s = .goes j t → kept j
  pass : ∀ i s, kept i → f.Throughout good i s → good' i s

namespace Simulates

variable {n : Nat} {result : Except Stop Trace}

private theorem step (sim : f.Simulates g good good' kept) {j : Nat} {t : RunState}
    (i_kept : kept i) (along : f.Throughout good i s) (leaving : g.exit i s = .goes j t) :
    kept j ∧ f.Throughout good j t ∧ f.Visits (i, s) (j, t) := by
  obtain ⟨k, u, visits, same⟩ := sim.follow i s i_kept along
  have reached : f.Visits (i, s) (j, t) := visits.tail (same.symm.trans leaving)
  exact ⟨sim.stay i s j t i_kept along leaving, along.later reached, reached⟩

/-- The function stops within as many blocks as the one that it simulates, with the same result. -/
theorem forward (sim : f.Simulates g good good' kept) (i_kept : kept i)
    (along : f.Throughout good i s) (runs : f.Runs n i s result) : g.Runs n i s result := by
  induction n using Nat.strongRecOn generalizing i s with
  | ind n ih =>
    obtain ⟨j, t, visits, same⟩ := sim.follow i s i_kept along
    obtain ⟨m, le, runs⟩ := runs.after visits
    cases runs with
    | stop stopping => exact (Runs.stop (same.trans stopping)).mono (n := 1) (by omega)
    | @go m _ k _ u _ leaving rest =>
      obtain ⟨k_kept, along', _⟩ := sim.step i_kept along (same.trans leaving)
      have later : g.Runs m k u result := ih m (by omega) k_kept along' rest
      exact (Runs.go (same.trans leaving) later).mono le

/-- If the function stops, then so does the one that it simulates. -/
theorem backward (sim : f.Simulates g good good' kept) (i_kept : kept i)
    (along : f.Throughout good i s) (runs : g.Runs n i s result) :
    ∃ m, f.Runs m i s result := by
  induction runs with
  | @stop _ i s _ stopping =>
    obtain ⟨j, t, visits, same⟩ := sim.follow i s i_kept along
    exact Runs.before visits (.stop (n := 0) (same.symm.trans stopping))
  | go leaving _ ih =>
    obtain ⟨j_kept, along', visits⟩ := sim.step i_kept along leaving
    obtain ⟨m, runs⟩ := ih j_kept along'
    exact Runs.before visits runs

theorem throughout (sim : f.Simulates g good good' kept) (i_kept : kept i)
    (along : f.Throughout good i s) : g.Throughout good' i s := by
  intro j t visits
  have reached : kept j ∧ f.Throughout good j t := by
    generalize last : (j, t) = d at visits
    induction visits generalizing j t with
    | refl =>
      cases last
      exact ⟨i_kept, along⟩
    | @tail c d _ leaving ih =>
      cases last
      obtain ⟨c_kept, along'⟩ := ih c.1 c.2 rfl
      obtain ⟨j_kept, along'', _⟩ := sim.step c_kept along' leaving
      exact ⟨j_kept, along''⟩
  exact sim.pass j t reached.1 reached.2

end Simulates

end Simulation

end Function

end BranchTrim
