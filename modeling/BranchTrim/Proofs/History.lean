import BranchTrim.Proofs.Prune.Pipeline
import BranchTrim.Proofs.Text.Resolved

/-!
Functions over their whole life. A function is made with an entry block only, or read from a text;
then come edits, in any number and order, among them the steps of pruning. The edges stay right all
along: each edit that is carried out keeps the graph consistent, and a consistent graph counts every
place of a terminator once.
-/

set_option autoImplicit false

namespace BranchTrim

namespace Function

inductive Fresh : Function → Prop
  | new (name entryName : String) : Fresh (.new name entryName)
  | read {text : String} {functions : List Parsed} {p : Parsed}
      (accepted : Parsed.readAll text = .ok functions) (mem : p ∈ functions) : Fresh p.func

/-- The places of terminators that lead to a block, with the blocks that they end,
in program order. -/
def placesInto (f : Function) (i : Nat) : List (Nat × Arm) :=
  f.blockIds.flatMap fun j =>
    ((f.graph.arms j).filter fun place => place.2 == i).map fun place => (j, place.1)

structure Wired (f : Function) : Prop where
  entry : f.entry = 0 ∧ f.contains 0 = true ∧ f.blockIds.head? = some 0
  targets : ∀ i b, f.graph.block? i = some b → ∀ t ∈ b.term.targets, f.contains t = true
  incoming : ∀ i, f.contains i = true →
    ((f.graph.incoming i).map fun e => (e.source, e.arm)).Perm (f.placesInto i)
  count : ∀ i, f.contains i = true → (f.predecessors i).length = (f.placesInto i).length
  checked : f.verifyEdges = .ok ()
  no_edge_defect : ∀ name,
    f.verify ≠ .error (.danglingTarget name) ∧ f.verify ≠ .error (.edgeMismatch name)

end Function

inductive Edit where
  | addParam (name : String)
  | addValue (name : String)
  | addBlock (name : String)
  | pushInst (i : Nat) (inst : Inst)
  | modifyInsts (i : Nat) (change : List Inst → List Inst)
  | setTerminator (i : Nat) (term : Terminator Value Nat)
  | swapSuccessors (i : Nat)
  | removeBlock (i : Nat)
  | mergeIntoPredecessor (pred i : Nat)
  | removeDead (start : Nat)
  | mergeChain (head next : Nat)
  | cut (i : Nat) (infeasible merge : Bool)
  | prune (oracle : Oracle) (options : Options)

namespace Edit

def apply (f : Function) : Edit → Except Fault Function
  | addParam name => .ok (f.addParam name)
  | addValue name => .ok (f.addValue name)
  | addBlock name => .ok (f.addBlock name)
  | pushInst i inst => f.pushInst i inst
  | modifyInsts i change => f.modifyInsts i change
  | setTerminator i term => do return (← f.setTerminator i term).2
  | swapSuccessors i => f.swapSuccessors i
  | removeBlock i => do return (← f.removeBlock i).2
  | mergeIntoPredecessor pred i => f.mergeIntoPredecessor pred i
  | removeDead start => do return (← f.removeDead start).func
  | mergeChain head next => do return (← f.mergeChain head next).func
  | cut i infeasible merge => do return (← f.cut i infeasible merge).func
  | prune oracle options => do return (← f.prune oracle options).func

/-- Carries out edits one after the other, and stops at the first one that is refused. -/
def applyAll (edits : List Edit) (f : Function) : Except Fault Function :=
  edits.foldlM apply f

end Edit

namespace Function

variable {f g : Function}

section Steps

variable {o : Outcome}

private theorem consistent_mergeChain {head next : Nat} (hf : f.graph.Consistent)
    (h : f.mergeChain head next = .ok o) : o.func.graph.Consistent := by
  obtain ⟨p, found, guarded⟩ := bind_eq_ok h
  split at guarded
  · next jump =>
    exact (of_returns h (mergeChain_returns hf (block_eq_ok found) jump)).1.consistent
  · cases guarded

end Steps

private theorem Fresh.consistent (fresh : f.Fresh) : f.graph.Consistent := by
  cases fresh with
  | new name entryName => exact Graph.consistent_single rfl
  | read accepted mem => exact Parsed.consistent_of_mem_readAll accepted mem

private theorem consistent_apply (hf : f.graph.Consistent) {edit : Edit}
    (h : edit.apply f = .ok g) :
    g.graph.Consistent := by
  cases edit with
  | addParam name =>
    cases h
    exact hf
  | addValue name =>
    cases h
    exact hf
  | addBlock name =>
    cases h
    exact hf.insert rfl
  | pushInst i inst =>
    have pushed : f.modifyInsts i (· ++ [inst]) = .ok g := h
    exact consistent_modifyInsts hf pushed
  | modifyInsts i change => exact consistent_modifyInsts hf h
  | setTerminator i term =>
    obtain ⟨_, set, h⟩ := bind_eq_ok h
    cases h
    exact consistent_setTerminator hf set
  | swapSuccessors i => exact consistent_swapSuccessors hf h
  | removeBlock i =>
    obtain ⟨_, removed, h⟩ := bind_eq_ok h
    cases h
    exact (removeBlock_shape hf removed).2.2.2.1
  | mergeIntoPredecessor pred i => exact consistent_mergeIntoPredecessor hf h
  | removeDead start =>
    obtain ⟨_, removed, h⟩ := bind_eq_ok h
    cases h
    exact (of_returns removed (removeDead_returns hf start)).consistent
  | mergeChain head next =>
    obtain ⟨_, merged, h⟩ := bind_eq_ok h
    cases h
    exact consistent_mergeChain hf merged
  | cut i infeasible merge =>
    obtain ⟨_, cutting, h⟩ := bind_eq_ok h
    cases h
    exact consistent_cut hf cutting
  | prune oracle options =>
    obtain ⟨_, pruned, h⟩ := bind_eq_ok h
    cases h
    exact (derivedFrom_of_prune hf pruned).consistent

private theorem consistent_applyAll (hf : f.graph.Consistent) {edits : List Edit}
    (h : Edit.applyAll edits f = .ok g) : g.graph.Consistent := by
  unfold Edit.applyAll at h
  induction edits generalizing f with
  | nil =>
    cases h
    exact hf
  | cons edit edits ih =>
    rw [List.foldlM_cons] at h
    obtain ⟨f', first, rest⟩ := bind_eq_ok h
    exact ih (consistent_apply hf first) rest

section Wiring

variable {i : Nat}

private theorem mem_placesInto {j : Nat} {arm : Arm} :
    (j, arm) ∈ f.placesInto i ↔ (arm, i) ∈ f.graph.arms j := by
  simp only [placesInto, List.mem_flatMap, List.mem_map, List.mem_filter, beq_iff_eq, Prod.exists,
    Prod.mk.injEq]
  constructor
  · rintro ⟨_, _, arm', _, ⟨place, rfl⟩, rfl, rfl⟩
    exact place
  · intro place
    have live : j ∈ f.blockIds :=
      (f.graph.mem_ids j).mpr <|
        Graph.contains_of_mem_targets (Graph.mem_targets_iff_arm.mpr ⟨arm, place⟩)
    exact ⟨j, live, arm, i, ⟨place, rfl⟩, rfl, rfl⟩

private theorem nodup_placesInto (f : Function) (i : Nat) : (f.placesInto i).Nodup := by
  have ids : f.blockIds.Nodup := List.nodup_range.filter _
  refine List.nodup_flatMap.mpr ⟨?_, ids.imp ?_⟩
  · intro j _
    refine List.Nodup.map_on ?_ ((f.graph.nodup_arms j).filter _)
    rintro ⟨arm, target⟩ mem ⟨arm', target'⟩ mem' same
    have into := (List.mem_filter.mp mem).2
    have into' := (List.mem_filter.mp mem').2
    simp_all
  · intro j k differ place left right
    obtain ⟨_, _, rfl⟩ := List.mem_map.mp left
    obtain ⟨_, _, same⟩ := List.mem_map.mp right
    exact differ (congrArg Prod.fst same).symm

private theorem incoming_perm_placesInto (hf : f.graph.Consistent) (i : Nat) :
    ((f.graph.incoming i).map fun e => (e.source, e.arm)).Perm (f.placesInto i) := by
  have nodup : ((f.graph.incoming i).map fun e => (e.source, e.arm)).Nodup := by
    refine List.Nodup.map_on ?_ (hf.nodup_incoming i)
    rintro ⟨source, arm, target⟩ mem ⟨source', arm', target'⟩ mem' same
    have into := (hf.mem_incoming.mp mem).1
    have into' := (hf.mem_incoming.mp mem').1
    simp_all
  refine (List.perm_ext_iff_of_nodup nodup (f.nodup_placesInto i)).mpr ?_
  rintro ⟨j, arm⟩
  rw [mem_placesInto, List.mem_map]
  constructor
  · rintro ⟨e, mem, same⟩
    obtain ⟨rfl, rfl⟩ := Prod.mk.inj same
    exact (hf.mem_incoming.mp mem).2
  · intro place
    exact ⟨⟨j, arm, i⟩, hf.mem_incoming.mpr ⟨rfl, place⟩, rfl⟩

private theorem wired_of_consistent (hf : f.graph.Consistent) : f.Wired := by
  have checked := verifyEdges_eq_ok_iff.mpr hf
  refine ⟨⟨rfl, f.entry_live, head?_blockIds f⟩, ?_, ?_, ?_, checked, ?_⟩
  · intro i b found t mem
    exact hf.contains_target (i := i) (by rwa [Graph.targets_of_block? found])
  · exact fun i _ => incoming_perm_placesInto hf i
  · intro i _
    have same := (incoming_perm_placesInto hf i).length_eq
    rw [List.length_map] at same
    rw [predecessors, List.length_map, same]
  · intro name
    unfold verify
    rw [checked]
    simp only [ok_bind]
    split <;> simp

end Wiring

/-- Whatever edits a function has seen since it was made, its edges are right. -/
theorem wired_after_edits (fresh : f.Fresh) (edits : List Edit)
    (carried_out : Edit.applyAll edits f = .ok g) : g.Wired :=
  wired_of_consistent (consistent_applyAll fresh.consistent carried_out)

/--
Edits in which both arms of a branch lead to one block, a block is folded into the block that it
leads back to, and a number is used again twice.
-/
def reusingNumbers : List Edit :=
  [.addParam "x", .addValue "k", .addBlock "a", .addBlock "b", .addBlock "c",
    .pushInst 0 ⟨some 1, .compare .slt (.var 0) (.const 10)⟩,
    .setTerminator 0 (.branch (.var 1) 1 1), .setTerminator 1 (.jump 2),
    .setTerminator 2 (.branch (.var 1) 1 3), .swapSuccessors 2, .modifyInsts 1 fun _ => [],
    .mergeIntoPredecessor 1 2, .addBlock "d", .setTerminator 2 (.jump 2), .removeBlock 2,
    .addBlock "e", .cut 0 false false, .mergeChain 0 1, .removeDead 2,
    .prune RangeTable.empty.oracle .default]

theorem wired_after_reusingNumbers :
    ∃ g, Edit.applyAll reusingNumbers (.new "f" "entry") = .ok g ∧ g.Wired := by
  have returns : (Edit.applyAll reusingNumbers (.new "f" "entry")).isOk = true := by decide +kernel
  cases carried_out : Edit.applyAll reusingNumbers (.new "f" "entry") with
  | error fault => simp [carried_out, Except.isOk, Except.toBool] at returns
  | ok g => exact ⟨g, rfl, wired_after_edits (.new "f" "entry") reusingNumbers carried_out⟩

end Function

end BranchTrim
