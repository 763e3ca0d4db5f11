import BranchTrim.Proofs.Prune.Steps

/-!
The walk over the branches, visit by visit. The walk comes to each block once, and cuts its branch
there as long as ranges decide it. What the walk keeps of a function follows from what a single cut
keeps. A visit without a cut leaves the function as it is; any other one leaves fewer branches and,
if it is to merge, a block that takes in no further one.
-/

set_option autoImplicit false

namespace BranchTrim

private theorem Outcome.forEach_keeps (holds : Function → Prop)
    {step : Function → Nat → Except Fault Outcome}
    (each : ∀ g i o, step g i = .ok o → holds g → holds o.func) {ids : List Nat}
    {f : Function} {o : Outcome} (h : forEach step ids f = .ok o) (start : holds f) :
    holds o.func := by
  induction ids generalizing f o with
  | nil =>
    cases h
    exact start
  | cons i ids ih =>
    obtain ⟨o₁, first, h⟩ := bind_eq_ok h
    obtain ⟨o₂, rest, h⟩ := bind_eq_ok h
    cases h
    show holds o₂.func
    exact ih rest (each f i o₁ first start)

namespace Function

variable {f g : Function} {oracle : Oracle} {merge infeasible : Bool} {i : Nat} {o : Outcome}

/-- The walk visits a block and cuts its branch as long as ranges decide it. -/
inductive Visit (oracle : Oracle) (merge : Bool) (i : Nat) : Function → Function → Prop
  | leave {f : Function} (undecided : f.decided? oracle i = none) : Visit oracle merge i f f
  | cut {f g : Function} {infeasible : Bool} {o : Outcome}
      (decided : f.decided? oracle i = some infeasible)
      (cutting : f.cut i infeasible merge = .ok o) (rest : Visit oracle merge i o.func g) :
      Visit oracle merge i f g

theorem visit_of_cutDecided (h : cutDecided oracle merge f i = .ok o) :
    Visit oracle merge i f o.func := by
  fun_induction cutDecided oracle merge f i generalizing o with
  | case1 f absent =>
    cases h
    exact .leave (by simp [decided?, absent])
  | case2 f pred lhs rhs compares =>
    rename_i ih
    have decided : f.decided? oracle i =
        (Verdict.classify pred (oracle lhs f) (oracle rhs f)).infeasible? := by
      simp [decided?, compares]
    obtain ⟨name, _, h⟩ := bind_eq_ok h
    split at h
    · next unknown =>
      cases h
      exact .leave (decided.trans unknown)
    · next infeasible excluded =>
      split at h
      · cases h
      · next o₁ cutting =>
        obtain ⟨o₂, rest, h⟩ := bind_eq_ok h
        cases h
        have later : Visit oracle merge i o₁.func o₂.func := ih infeasible o₁ cutting rest
        exact .cut (decided.trans excluded) cutting later

theorem cutBranches_keeps (holds : Function → Prop)
    (each : ∀ g i o, g.graph.Consistent → cutDecided oracle merge g i = .ok o → holds g →
      holds o.func)
    (hf : f.graph.Consistent) (h : f.cutBranches oracle merge = .ok o) (start : holds f) :
    holds o.func := by
  have kept : o.func.graph.Consistent ∧ holds o.func := by
    refine Outcome.forEach_keeps (fun g => g.graph.Consistent ∧ holds g) ?_ h ⟨hf, start⟩
    rintro g i o visited ⟨hg, now⟩
    have derived := (of_returns visited (cutDecided_returns hg oracle merge i)).1
    exact ⟨derived.consistent, each g i o hg visited now⟩
  exact kept.2

theorem Visit.unchanged_or_fewer (visit : Visit oracle merge i f g) :
    g = f ∨ g.branchCount < f.branchCount := by
  induction visit with
  | leave => exact Or.inl rfl
  | cut _ cutting _ ih =>
    have fewer := branchCount_cut cutting
    rcases ih with same | fewer'
    · exact Or.inr (same ▸ fewer)
    · exact Or.inr (Nat.lt_trans fewer' fewer)

theorem Visit.unchanged_or_ended (visit : Visit oracle true i f g) (hf : f.graph.Consistent) :
    g = f ∨ ¬ g.IsHead i := by
  induction visit with
  | leave => exact Or.inl rfl
  | cut _ cutting _ ih =>
    obtain ⟨b, cond, whenTrue, whenFalse, found, branch⟩ := branch_of_cut cutting
    obtain ⟨_, _, _, last, _, _, _, _, _, folded, ended, returned⟩ :=
      cut_stages hf found branch _ true
    obtain rfl := Except.ok.inj (returned.symm.trans cutting)
    rcases ih folded.consistent with same | ended'
    · exact Or.inr (same ▸ ended rfl)
    · exact Or.inr ended'

end Function

end BranchTrim
