import BranchTrim.Command.Program
import BranchTrim.Proofs.Prune.Definitions

/-!
The text that the program writes. For functions that were read and checked the program always gets
as far as writing them. Whether the text can be read again depends on the definitions that pruning
has taken away: it can if and only if no function has lost one that it still needs, and then all
that is read passes the full check.
-/

set_option autoImplicit false

namespace BranchTrim

private theorem exists_ok_of_any {α ε : Type} {x : Except ε α} {q : α → Bool}
    (holds : x.toOption.any q = true) :
    ∃ a, x = .ok a ∧ q a = true := by
  cases x with
  | error e => cases holds
  | ok a => exact ⟨a, rfl, holds⟩

namespace Parsed

variable {p : Parsed} {functions : List Parsed} {options : Options}

/-- The second list holds what pruning makes of the functions of the first one. -/
def PrunesTo (options : Options) : List Parsed → List Outcome → Prop :=
  List.Forall₂ fun p o => p.func.prune (RangeTable.ofList p.ranges).oracle options = .ok o

private theorem pruneOne_returns (legible : p.func.Legible) (verified : p.func.verify = .ok ())
    (options : Options) :
    ∃ o notices, p.func.prune (RangeTable.ofList p.ranges).oracle options = .ok o ∧
      p.pruneOne options = .ok (notices, ⟨o.func.listing.text ++ "\n\n", o.stats⟩) := by
  obtain ⟨o, pruned⟩ :=
    Function.prune_returns legible.consistent (RangeTable.ofList p.ranges).oracle options
    fun _ => legible.numbered
  have after := Function.legible_of_prune legible pruned
  have printed : o.func.print = .ok o.func.listing.text :=
    Function.print_eq after.consistent after.numbered
  refine ⟨o, o.log.map .pruner ++ [.functionDone o.func.name o.stats], pruned, ?_⟩
  simp only [pruneOne, verified, pruned, printed, Except.mapError, ok_bind, pure_eq_ok]

private theorem pruneAll_returns
    (each : ∀ p ∈ functions, p.func.Legible ∧ p.func.verify = .ok ()) (options : Options)
    (done : Pruned) :
    ∃ notices outcomes stats, PrunesTo options functions outcomes ∧
      pruneAll options functions done =
        (notices, .ok ⟨done.text ++ printed (outcomes.map Outcome.func), stats⟩) := by
  induction functions generalizing done with
  | nil =>
    refine ⟨[], [], done.stats, .nil, ?_⟩
    simp [pruneAll, printed]
  | cons p functions ih =>
    obtain ⟨⟨legible, verified⟩, others⟩ := List.forall_mem_cons.mp each
    obtain ⟨o, notices, pruned, one⟩ := pruneOne_returns legible verified options
    obtain ⟨later, outcomes, stats, rest, all⟩ :=
      ih others ⟨done.text ++ (o.func.listing.text ++ "\n\n"), done.stats + o.stats⟩
    refine ⟨notices ++ later, o :: outcomes, stats, .cons pruned rest, ?_⟩
    rw [pruneAll, one]
    simp only [all, printed, List.map_cons, String.join_cons, String.append_assoc]

/--
The text that is written for checked functions, with a sweep, is accepted if and only if each
function still defines the values that it reads. All that is then read passes the full check. And it
is always accepted where no function, as it was read first, has a path from its entry around the
definitions of a value to a block that reads the value.
-/
theorem pruned_text_accepted_iff {text : String} (read : readAll text = .ok functions)
    (verified : ∀ p ∈ functions, p.func.verify = .ok ()) (options : Options)
    (sweeping : options.sweepUnreachable = true) (path : String) :
    ∃ notices pruned outcomes, pruneText options path text = (notices, .ok pruned) ∧
      PrunesTo options functions outcomes ∧
      ((∃ again, readAll pruned.text = .ok again) ↔ ∀ o ∈ outcomes, o.func.UsesDefined) ∧
      (∀ again, readAll pruned.text = .ok again → ∀ p ∈ again, p.func.verify = .ok ()) ∧
      ((∀ p ∈ functions, p.func.DefinesFirst) →
        ∃ again, readAll pruned.text = .ok again) := by
  have each : ∀ p ∈ functions, p.func.Legible ∧ p.func.verify = .ok () := fun p mem =>
    ⟨(legible_of_mem_readAll read mem).1, verified p mem⟩
  obtain ⟨notices, outcomes, stats, prunes, all⟩ :=
    pruneAll_returns each options ⟨"", .zero⟩
  have run : pruneText options path text =
      (notices ++ [.allDone stats], .ok ⟨printed (outcomes.map Outcome.func), stats⟩) := by
    simp only [pruneText, read, all, String.empty_append]
  have legible : ∀ f ∈ outcomes.map Outcome.func, f.Legible := by
    refine List.forall_mem_map.mpr fun o mem => ?_
    obtain ⟨p, p_mem, pruned⟩ := exists_of_mem_forall₂ prunes mem
    exact Function.legible_of_prune (each p p_mem).1 pruned
  have reached : ∀ f ∈ outcomes.map Outcome.func, f.AllReached := by
    refine List.forall_mem_map.mpr fun o mem => ?_
    obtain ⟨p, p_mem, pruned⟩ := exists_of_mem_forall₂ prunes mem
    exact Function.allReached_of_prune (each p p_mem).1.consistent sweeping pruned
  have accepted := printed_accepted_iff legible
  rw [List.forall_mem_map] at accepted
  refine ⟨_, _, outcomes, run, prunes, accepted, ?_, ?_⟩
  · intro again reread
    exact verify_of_printed legible reached reread
  · intro first
    refine accepted.mpr fun o mem => ?_
    obtain ⟨p, p_mem, pruned⟩ := exists_of_mem_forall₂ prunes mem
    exact Function.usesDefined_of_prune (each p p_mem).1.consistent sweeping (first p p_mem) pruned

/-- A text with a value that is defined and read in one block, which is cut off. -/
def lostReader : String :=
  "func @f() \x7b e: %k = icmp eq 0, 0 br %k, a, b b: %y = copy 1 ret %y a: ret %k \x7d"

theorem pruned_text_accepted_iff_lostReader :
    ∃ notices pruned again, pruneText ⟨true, true, false, false⟩ "" lostReader =
      (notices, .ok pruned) ∧
      readAll pruned.text = .ok again ∧ ∀ p ∈ again, p.func.verify = .ok () := by
  have checked : (readAll lostReader).toOption.any
      (fun functions => functions.all fun p => p.func.verify = .ok ()) = true := by decide +kernel
  have reread : (pruneText ⟨true, true, false, false⟩ "" lostReader).2.toOption.any
      (fun pruned => (readAll pruned.text).toOption.any fun _ => true) = true := by decide +kernel
  obtain ⟨functions, read, verified⟩ := exists_ok_of_any checked
  simp only [List.all_eq_true, decide_eq_true_eq] at verified
  obtain ⟨notices, pruned, _, run, _, _, passes, _⟩ :=
    pruned_text_accepted_iff read verified ⟨true, true, false, false⟩ rfl ""
  rw [run] at reread
  have readable : (readAll pruned.text).toOption.any (fun _ => true) = true := reread
  obtain ⟨again, accepted, _⟩ := exists_ok_of_any readable
  exact ⟨notices, pruned, again, run, accepted, passes again accepted⟩

/-- A text with a value that is read in a block to which two ways lead. The one with the definition
is cut off. -/
def lostDefinition : String :=
  "func @f() \x7b e: %k = icmp eq 0, 0 br %k, a, b b: %y = copy 1 jmp a a: ret %y \x7d"

theorem pruned_text_refused_lostDefinition :
    ∃ functions notices pruned, readAll lostDefinition = .ok functions ∧
      (∀ p ∈ functions, p.func.verify = .ok ()) ∧
      pruneText ⟨true, true, false, false⟩ "" lostDefinition = (notices, .ok pruned) ∧
      ∀ again, readAll pruned.text ≠ .ok again := by
  have checked : (readAll lostDefinition).toOption.any
      (fun functions => functions.all fun p => p.func.verify = .ok ()) = true := by decide +kernel
  have refused : (pruneText ⟨true, true, false, false⟩ "" lostDefinition).2.toOption.any
      (fun pruned => !(readAll pruned.text).isOk) = true := by decide +kernel
  obtain ⟨functions, read, verified⟩ := exists_ok_of_any checked
  obtain ⟨pruned, run, unread⟩ := exists_ok_of_any refused
  refine ⟨functions, _, pruned, read, by simpa using verified, Prod.ext rfl run, ?_⟩
  intro again accepted
  rw [accepted] at unread
  cases unread

end Parsed

end BranchTrim
