import BranchTrim.Proofs.Prune.Pipeline
import BranchTrim.Proofs.Prune.Swept

/-!
The course of pruning, change by change. Every run of pruning is a series of elementary changes,
each made in the function that the ones before it have left; the log reports those through which a
block is lost. A block is removed on account of the edges into it alone, but in a consistent graph
this is enough: what can be removed is not reached from the entry at that moment, and a block within
reach is lost only when it is folded into its one predecessor.
-/

set_option autoImplicit false

namespace BranchTrim

inductive Change where
  | retarget (i : Nat) (term : Terminator Value Nat)
  | removeDead (i : Nat)
  | removeOrphan (i : Nat)
  | fold (head next : Nat)

namespace Change

def apply (f : Function) : Change → Except Fault Function
  | retarget i term => do return (← f.setTerminator i term).2
  | removeDead i => do return (← f.removeBlock i).2
  | removeOrphan i => do return (← f.removeBlock i).2
  | fold head next => f.mergeIntoPredecessor head next

def removed? : Change → Option Nat
  | removeDead i => some i
  | removeOrphan i => some i
  | retarget .. => none
  | fold .. => none

def report (f : Function) : Change → List Event
  | retarget .. => []
  | removeDead i => (f.graph.block? i).toList.map fun b => .deadRemoved b.name b.size
  | removeOrphan i => (f.graph.block? i).toList.map fun b => .orphanRemoved b.name
  | fold head next =>
    (f.graph.block? next).toList.flatMap fun b =>
      (f.graph.block? head).toList.map fun p => .folded b.name p.name

end Change

/-- A change with the function that it is made in and the function that it leaves. -/
structure Moment where
  before : Function
  change : Change
  after : Function

def Moment.report (m : Moment) : List Event :=
  m.change.report m.before

def Event.isLoss : Event → Bool
  | deadRemoved .. => true
  | folded .. => true
  | orphanRemoved _ => true
  | _ => false

namespace Function

inductive Course : Function → List Moment → Function → Prop
  | nil (f : Function) : Course f [] f
  | cons {f g h : Function} {c : Change} {moments : List Moment} (made : c.apply f = .ok g)
      (rest : Course g moments h) : Course f (⟨f, c, g⟩ :: moments) h

variable {f g h : Function} {i : Nat} {moments moments' : List Moment}

private theorem Course.trans (first : f.Course moments g) (second : g.Course moments' h) :
    f.Course (moments ++ moments') h := by
  induction first with
  | nil => exact second
  | cons made _ ih => exact .cons made (ih second)

private theorem Course.single {c : Change} (made : c.apply f = .ok g) :
    f.Course [⟨f, c, g⟩] g :=
  .cons made (.nil g)

section Changes

variable {c : Change}

private theorem not_reaches_of_removeBlock (hf : f.graph.Consistent) {b : Block}
    (removed : f.removeBlock i = .ok (b, g)) : ¬ f.Reaches i := by
  obtain ⟨_, inner, alone, _⟩ := removeBlock_shape hf removed
  have aside : ∀ j, f.Reaches j → j ≠ i := by
    intro j path
    induction path with
    | refl => exact inner.symm
    | @tail k t _ leads ih =>
      rintro rfl
      exact ih (alone k leads)
  exact fun path => aside i path rfl

/-- What a change may do: it keeps names, and it loses a block only out of reach or into
its one predecessor. -/
structure Spares (f g : Function) (c : Change) : Prop where
  consistent : g.graph.Consistent
  names : ∀ i b, g.graph.block? i = some b → ∃ a, f.graph.block? i = some a ∧
    a.name = b.name
  unreached : ∀ i, c.removed? = some i → ¬ f.Reaches i
  lost : ∀ i, f.Reaches i → g.graph.contains i = false →
    ∃ head p b, c = .fold head i ∧ f.Foldable head i p b

private theorem spares_setTerminator (hf : f.graph.Consistent) {term old : Terminator Value Nat}
    (set : f.setTerminator i term = .ok (old, g)) : f.Spares g (.retarget i term) := by
  obtain ⟨b, found, _, _, _, shape⟩ := setTerminator_shape set
  refine ⟨consistent_setTerminator hf set, ?_, nofun, ?_⟩
  · intro j d j_found
    rw [shape.block?] at j_found
    split at j_found
    · next at_i =>
      cases j_found
      exact ⟨b, at_i ▸ found, rfl⟩
    · exact ⟨d, j_found, rfl⟩
  · intro j path gone
    have kept : g.graph.contains j = true := by
      obtain ⟨a, j_found⟩ := Graph.contains_iff.mp (path.contains hf)
      rw [Graph.contains, shape.block?]
      split
      · rfl
      · simp [j_found]
    simp [kept] at gone

private theorem spares_removeBlock (hf : f.graph.Consistent) {b : Block}
    (removed : f.removeBlock i = .ok (b, g)) (removes : c.removed? = some i) : f.Spares g c := by
  obtain ⟨_, _, _, hg, shape⟩ := removeBlock_shape hf removed
  have unreached := not_reaches_of_removeBlock hf removed
  refine ⟨hg, ?_, ?_, ?_⟩
  · intro j d j_found
    rw [shape.block?] at j_found
    split at j_found
    · cases j_found
    · exact ⟨d, j_found, rfl⟩
  · intro j removes'
    obtain rfl : i = j := Option.some.inj (removes.symm.trans removes')
    exact unreached
  · intro j path gone
    have live := path.contains hf
    rw [Graph.contains, shape.block?] at gone
    split at gone
    · next at_i => exact absurd (at_i ▸ path) unreached
    · rw [Graph.contains, gone] at live
      cases live

private theorem spares_mergeIntoPredecessor (hf : f.graph.Consistent) {head next : Nat}
    (merged : f.mergeIntoPredecessor head next = .ok g) : f.Spares g (.fold head next) := by
  obtain ⟨p, b, foldable⟩ := foldable_of_mergeIntoPredecessor hf merged
  obtain ⟨hg, shape⟩ := of_returns merged (foldable.returns hf)
  refine ⟨hg, ?_, nofun, ?_⟩
  · intro j d j_found
    rw [shape.block?, foldedBlocks] at j_found
    split at j_found
    · cases j_found
    split at j_found
    · next at_head =>
      cases j_found
      exact ⟨p, at_head ▸ foldable.head_found, rfl⟩
    · exact ⟨d, j_found, rfl⟩
  · intro j path gone
    have live := path.contains hf
    rw [Graph.contains, shape.block?, foldedBlocks] at gone
    split at gone
    · next at_next => exact ⟨head, p, b, at_next ▸ rfl, at_next ▸ foldable⟩
    split at gone
    · cases gone
    · rw [Graph.contains, gone] at live
      cases live

private theorem spares_apply (hf : f.graph.Consistent) (made : c.apply f = .ok g) :
    f.Spares g c := by
  cases c with
  | retarget i term =>
    obtain ⟨⟨old, g'⟩, set, made⟩ := bind_eq_ok made
    cases made
    exact spares_setTerminator hf set
  | removeDead i =>
    obtain ⟨⟨b, g'⟩, removed, made⟩ := bind_eq_ok made
    cases made
    exact spares_removeBlock hf removed rfl
  | removeOrphan i =>
    obtain ⟨⟨b, g'⟩, removed, made⟩ := bind_eq_ok made
    cases made
    exact spares_removeBlock hf removed rfl
  | fold head next => exact spares_mergeIntoPredecessor hf made

private theorem Course.spares (hf : f.graph.Consistent) (course : f.Course moments g) :
    ∀ m ∈ moments, m.before.Spares m.after m.change := by
  induction course with
  | nil => exact fun m mem => nomatch mem
  | cons made _ ih =>
    have spares := spares_apply hf made
    intro m mem
    rcases List.mem_cons.mp mem with rfl | mem
    · exact spares
    · exact ih spares.consistent m mem

private theorem Course.names (hf : f.graph.Consistent) (course : f.Course moments g) {b : Block}
    (found : g.graph.block? i = some b) : ∃ a, f.graph.block? i = some a ∧ a.name = b.name := by
  induction course with
  | nil => exact ⟨b, found, rfl⟩
  | cons made _ ih =>
    have spares := spares_apply hf made
    obtain ⟨a, a_found, same⟩ := ih spares.consistent found
    obtain ⟨a', a'_found, same'⟩ := spares.names i a a_found
    exact ⟨a', a'_found, same'.trans same⟩

end Changes

end Function

namespace Outcome

variable {f g : Function} {o o' : Outcome} {moments : List Moment}

/-- The outcome is that of a series of changes, and its log reports each loss among them in turn. -/
def RecordedFrom (o : Outcome) (f : Function) : Prop :=
  ∃ moments, f.Course moments o.func ∧ o.log.filter Event.isLoss = moments.flatMap Moment.report

private theorem RecordedFrom.after {stats : Stats} {log : List Event} (recorded : o.RecordedFrom g)
    (earlier : f.Course moments g)
    (reported : log.filter Event.isLoss = moments.flatMap Moment.report) :
    (o.after stats log).RecordedFrom f := by
  obtain ⟨later, course, reported'⟩ := recorded
  refine ⟨moments ++ later, earlier.trans course, ?_⟩
  simp only [Outcome.after, List.filter_append, List.flatMap_append, reported, reported']

private theorem RecordedFrom.trans (first : o.RecordedFrom f) (second : o'.RecordedFrom o.func) :
    (o'.after o.stats o.log).RecordedFrom f := by
  obtain ⟨moments, course, reported⟩ := first
  exact second.after course reported

private theorem RecordedFrom.withLog {stats : Stats} {log : List Event}
    (recorded : o.RecordedFrom f) (quiet : log.filter Event.isLoss = []) :
    (o.after stats log).RecordedFrom f :=
  recorded.after (.nil f) quiet

end Outcome

namespace Function

variable {f g : Function} {i : Nat} {o : Outcome}

theorem allReached_of_prune {oracle : Oracle} {options : Options} (hf : f.graph.Consistent)
    (sweeping : options.sweepUnreachable = true) (h : f.prune oracle options = .ok o) :
    o.func.AllReached := by
  obtain ⟨o₁, o₂, walked, ⟨_, swept⟩ | ⟨idle, _⟩, func, _⟩ :=
    walk_and_sweep_of_prune h
  · have derived := of_returns walked (cutBranches_returns hf oracle options.mergeBlocks)
    rw [func]
    exact allReached_of_sweep derived.consistent swept
  · simp [sweeping] at idle

end Function

end BranchTrim
