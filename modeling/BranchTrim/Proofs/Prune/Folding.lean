import BranchTrim.Proofs.Prune.Chains
import BranchTrim.Proofs.Prune.Idempotence

/-!
How far folding goes. A straight chain goes on from its head as long as jumps lead to blocks that no
other edge leads to; it ends before the entry, and before it would come back to its head. Folding
tests this at each block in what the folds so far have left, but it finds the longest chain of the
function before: a fold takes the first block off every straight chain, and the rest of it goes on
from the head as it went on from that block.
-/

set_option autoImplicit false

namespace BranchTrim

namespace Function

variable {f g : Function} {head next i k : Nat} {p b : Block} {chain : List Nat}

/-- A block jumps to another one, and the jump is the only edge that leads there. -/
structure Follows (f : Function) (i k : Nat) : Prop where
  jump : f.jumpTarget? i = some k
  only : f.graph.incoming k = [⟨i, .jump, k⟩]

/-- A chain of blocks that follow each other from the given one on. Neither the head nor the entry
is among them. -/
def Straight (f : Function) (head : Nat) : Nat → List Nat → Prop
  | _, [] => True
  | i, k :: chain => (f.Follows i k ∧ k ≠ head ∧ k ≠ f.entry) ∧ f.Straight head k chain

/-- The chain goes straight on from its head, and every other one that does is the start of it. -/
structure Longest (f : Function) (head : Nat) (chain : List Nat) : Prop where
  straight : f.Straight head head chain
  longest : ∀ other, f.Straight head head other → other <+: chain

structure ChainFolded (f g : Function) (head : Nat) (chain : List Nat) : Prop where
  fields : g.name = f.name ∧ g.params = f.params ∧ g.valueNames = f.valueNames
  removed : ∀ k ∈ chain, g.graph.block? k = none
  taken : ∃ p z, f.graph.block? head = some p ∧
    f.graph.block? (chain.getLastD head) = some z ∧
    g.graph.block? head = some ⟨p.name, (head :: chain).flatMap f.instsAt, z.term⟩
  others : ∀ j, j ≠ head → j ∉ chain → g.graph.block? j = f.graph.block? j

section Following

private theorem Follows.contains (follows : f.Follows i k) : f.graph.contains k = true := by
  have edge : ⟨i, .jump, k⟩ ∈ f.graph.incoming k := by simp [follows.only]
  exact (f.graph.edges_live _ (List.mem_of_mem_filter edge)).2

private theorem follows_iff (hf : f.graph.Consistent) :
    f.Follows i k ↔ ∃ b, f.graph.block? i = some b ∧ b.term = .jump k ∧
      ∀ j, k ∈ f.graph.targets j → j = i := by
  constructor
  · intro follows
    obtain ⟨b, found, jump⟩ := jumpTarget?_eq_some_iff.mp follows.jump
    refine ⟨b, found, jump, (singlePredecessor?_eq_some_iff hf found jump).mp ?_⟩
    simp [singlePredecessor?, predecessors, follows.only]
  · rintro ⟨b, found, jump, only⟩
    refine ⟨jumpTarget?_eq_some_iff.mpr ⟨b, found, jump⟩, ?_⟩
    have arms : f.graph.arms i = [(.jump, k)] := by
      rw [Graph.arms_of_block? found, jump]
      rfl
    have single := (singlePredecessor?_eq_some_iff hf found jump).mpr only
    unfold singlePredecessor? at single
    split at single
    · next pred preds =>
      obtain ⟨e, incoming, _⟩ := List.map_eq_singleton_iff.mp preds
      have mem : e ∈ f.graph.incoming k := by simp [incoming]
      obtain ⟨source, arm, target⟩ := e
      obtain ⟨rfl, place⟩ := hf.mem_incoming.mp mem
      obtain rfl : source = i := only source (Graph.mem_targets_iff_arm.mpr ⟨arm, place⟩)
      obtain rfl : arm = .jump := by simpa [arms] using place
      exact incoming
    · cases single

private theorem extendsChain_iff_follows (hf : f.graph.Consistent)
    (found : f.graph.block? head = some p) (jump : p.term = .jump next) :
    f.extendsChain head next = true ↔ f.Follows head next ∧ next ≠ head ∧
      next ≠ f.entry := by
  rw [extendsChain_iff hf found jump, follows_iff hf]
  constructor
  · rintro ⟨b, fold⟩
    exact ⟨⟨p, found, jump, fold.only⟩, fold.next_ne_head, fold.next_ne_entry⟩
  · rintro ⟨⟨q, _, _, only⟩, ne_head, ne_entry⟩
    have leads : next ∈ f.graph.targets head := by
      rw [Graph.targets_of_block? found, jump]
      exact List.mem_singleton_self next
    obtain ⟨b, next_found⟩ := Graph.contains_iff.mp (hf.contains_target leads)
    exact ⟨b, found, next_found, jump, ne_head, ne_entry, only⟩

private theorem Straight.ne_head (straight : f.Straight head i chain) :
    ∀ k ∈ chain, k ≠ head := by
  induction chain generalizing i with
  | nil => simp
  | cons k chain ih =>
    obtain ⟨⟨_, ne_head, _⟩, rest⟩ := straight
    exact List.forall_mem_cons.mpr ⟨ne_head, ih rest⟩

private theorem Straight.contains (straight : f.Straight head i chain) :
    ∀ k ∈ chain, f.graph.contains k = true := by
  induction chain generalizing i with
  | nil => simp
  | cons k chain ih =>
    obtain ⟨⟨follows, _⟩, rest⟩ := straight
    exact List.forall_mem_cons.mpr ⟨follows.contains, ih rest⟩

end Following

section Folding

variable (hf : f.graph.Consistent) (hg : g.graph.Consistent) (fold : f.Foldable head next p b)
  (shape : f.Reshaped g (f.foldedBlocks head next p b))

private theorem foldSource_ne_head (ne : next ≠ head) : foldSource head next i ≠ head := by
  unfold foldSource
  split
  · exact ne
  · assumption

include hf fold in
private theorem Foldable.follows : f.Follows head next :=
  (follows_iff hf).mpr ⟨p, fold.head_found, fold.jump, fold.only⟩

include hf hg fold shape

/-- What follows a block after a fold is what followed it before, and what followed the folded block
is at the head. -/
private theorem follows_fold_iff (k_ne_next : k ≠ next) :
    g.Follows i k ↔ i ≠ next ∧ f.Follows (foldSource head next i) k := by
  rw [follows_iff hg, follows_iff hf]
  constructor
  · rintro ⟨c, found, jump, only⟩
    obtain ⟨c', found', term⟩ := exists_block_foldSource fold shape found
    refine ⟨ne_next_of_found shape found, c', found', term.trans jump, fun j leads => ?_⟩
    have j_ne_head : j ≠ head := by
      rintro rfl
      exact k_ne_next (fold.mem_targets_head.mp leads)
    have image : foldImage head next j = i := by
      apply only
      rw [mem_targets_fold_iff fold shape k_ne_next, foldSource_foldImage j_ne_head]
      exact ⟨foldImage_ne_next fold.next_ne_head, leads⟩
    rw [← image, foldSource_foldImage j_ne_head]
  · rintro ⟨i_ne_next, c, found, jump, only⟩
    obtain ⟨c', found', term⟩ :=
      exists_block_foldImage fold shape found (foldSource_ne_head fold.next_ne_head)
    rw [foldImage_foldSource i_ne_next] at found'
    refine ⟨c', found', term.trans jump, fun j leads => ?_⟩
    obtain ⟨j_ne_next, j_led⟩ := (mem_targets_fold_iff fold shape k_ne_next).mp leads
    rw [← foldImage_foldSource j_ne_next, only _ j_led, foldImage_foldSource i_ne_next]

private theorem straight_fold_iff (ne_next : i ≠ next) :
    g.Straight head i chain ↔ f.Straight head (foldSource head next i) chain := by
  induction chain generalizing i with
  | nil => exact Iff.rfl
  | cons k chain ih =>
    -- The folded block is on none of the two chains: it is gone in `g`, and in `f` it follows
    -- the head only.
    by_cases k_next : k = next
    · subst k_next
      constructor
      · rintro ⟨⟨follows, _⟩, _⟩
        have live := follows.contains
        rw [Graph.contains, shape.block?_folded] at live
        cases live
      · rintro ⟨⟨follows, _⟩, _⟩
        obtain ⟨_, found, jump, _⟩ := (follows_iff hf).mp follows
        have leads : k ∈ f.graph.targets (foldSource head k i) := by
          rw [Graph.targets_of_block? found, jump]
          exact List.mem_singleton_self k
        exact absurd (fold.only _ leads) (foldSource_ne_head fold.next_ne_head)
    · by_cases k_head : k = head
      · constructor
        · rintro ⟨⟨_, ne_head, _⟩, _⟩
          exact absurd k_head ne_head
        · rintro ⟨⟨_, ne_head, _⟩, _⟩
          exact absurd k_head ne_head
      · have later := ih k_next
        rw [foldSource_of_ne k_head] at later
        have first := follows_fold_iff (i := i) hf hg fold shape k_next
        rw [and_iff_right ne_next] at first
        exact and_congr (and_congr first Iff.rfl) later

/-- The longest chain starts with the block that was folded, and goes on with the longest chain
after the fold. -/
private theorem Longest.of_fold (after : g.Longest head chain) :
    f.Longest head (next :: chain) := by
  have same : ∀ other, g.Straight head head other ↔ f.Straight head next other := by
    intro other
    rw [straight_fold_iff hf hg fold shape fold.next_ne_head.symm, foldSource_head]
  constructor
  · exact ⟨⟨fold.follows hf, fold.next_ne_head, fold.next_ne_entry⟩,
      (same chain).mp after.straight⟩
  · intro other straight
    cases other with
    | nil => exact List.nil_prefix
    | cons k other =>
      obtain ⟨⟨follows, _⟩, rest⟩ := straight
      obtain rfl : k = next := Option.some.inj (follows.jump.symm.trans (fold.follows hf).jump)
      exact List.cons_prefix_cons.mpr ⟨rfl, after.longest other ((same other).mpr rest)⟩

omit hf hg in
private theorem ChainFolded.of_fold {h : Function} (straight : g.Straight head head chain)
    (after : g.ChainFolded h head chain) : f.ChainFolded h head (next :: chain) := by
  have ne_head : ∀ k ∈ chain, k ≠ head := straight.ne_head
  have ne_next : ∀ k ∈ chain, k ≠ next := by
    rintro k mem rfl
    have live := straight.contains k mem
    rw [Graph.contains, shape.block?_folded] at live
    cases live
  obtain ⟨q, z, q_found, z_found, merged⟩ := after.taken
  obtain rfl := Option.some.inj (q_found.symm.trans (fold.block?_head shape))
  refine ⟨?_, ?_, ?_, ?_⟩
  · obtain ⟨name, params, valueNames⟩ := after.fields
    exact ⟨name.trans shape.name, params.trans shape.params, valueNames.trans shape.valueNames⟩
  · refine List.forall_mem_cons.mpr ⟨?_, after.removed⟩
    by_cases listed : next ∈ chain
    · exact after.removed next listed
    · rw [after.others next fold.next_ne_head listed, shape.block?_folded]
  · -- The last block of the chain is where the terminator comes from, before and after the fold.
    obtain ⟨z', z_found', term⟩ := exists_block_foldSource fold shape z_found
    have last : foldSource head next (chain.getLastD head) = (next :: chain).getLastD head := by
      cases chain with
      | nil => exact foldSource_head head next
      | cons k chain =>
        have mem : chain.getLastD k ∈ k :: chain := List.getLastD_mem_cons
        rw [List.getLastD_cons, List.getLastD_cons, List.getLastD_cons,
          foldSource_of_ne (ne_head _ mem)]
    rw [last] at z_found'
    refine ⟨p, z', fold.head_found, z_found', ?_⟩
    have own : g.instsAt head = f.instsAt head ++ f.instsAt next := by
      simp [instsAt, fold.block?_head shape, fold.head_found, fold.next_found]
    have others : chain.flatMap g.instsAt = chain.flatMap f.instsAt := by
      refine List.flatMap_congr fun k mem => ?_
      rw [instsAt, instsAt, shape.block?_unfolded (ne_next k mem) (ne_head k mem)]
    rw [merged, term, List.flatMap_cons, List.flatMap_cons, List.flatMap_cons, own, others,
      List.append_assoc]
  · intro j other outside
    obtain ⟨other_next, outside⟩ := not_or.mp (mt List.mem_cons.mpr outside)
    rw [after.others j other outside, shape.block?_unfolded other_next other]

end Folding

section Chains

private theorem longest_nil (stopped : ∀ k, f.Follows head k → k ≠ head → k = f.entry) :
    f.Longest head [] := by
  refine ⟨trivial, fun other straight => ?_⟩
  cases other with
  | nil => exact List.nil_prefix
  | cons k other =>
    obtain ⟨⟨follows, ne_head, ne_entry⟩, _⟩ := straight
    exact absurd (stopped k follows ne_head) ne_entry

private theorem chainFolded_nil (found : f.graph.block? head = some p) :
    f.ChainFolded f head [] where
  fields := ⟨rfl, rfl, rfl⟩
  removed := by simp
  taken := ⟨p, p, found, found, by simp [instsAt, found]⟩
  others _ _ _ := rfl

private theorem chainFolded_of_foldChain (hf : f.graph.Consistent)
    (found : f.graph.block? head = some p) (jump : p.term = .jump next) {o : Outcome}
    (h : f.foldChain head next = .ok o) :
    ∃ chain, f.Longest head chain ∧ f.ChainFolded o.func head chain ∧
      o.stats = ⟨0, 0, chain.length, 0⟩ := by
  fun_induction foldChain f head next generalizing p o with
  | case1 f next extending ih =>
    obtain ⟨_, _, h⟩ := bind_eq_ok h
    obtain ⟨_, _, h⟩ := bind_eq_ok h
    obtain ⟨b, fold⟩ := (extendsChain_iff hf found jump).mp extending
    split at h
    · cases h
    · next g merged =>
      obtain ⟨hg, shape⟩ := of_returns merged (fold.returns hf)
      have head_found := fold.block?_head shape
      split at h
      · next no_jump =>
        cases h
        have ended : g.Longest head [] := longest_nil fun k follows => by
          rw [follows.jump] at no_jump
          cases no_jump
        exact ⟨[next], ended.of_fold hf hg fold shape,
          (chainFolded_nil head_found).of_fold fold shape trivial, rfl⟩
      · next next' jumps =>
        obtain ⟨o', rest, h⟩ := bind_eq_ok h
        cases h
        obtain ⟨c, c_found, c_jump⟩ := jumpTarget?_eq_some_iff.mp jumps
        obtain ⟨chain, longest, folded, counted⟩ := ih g merged next' hg c_found c_jump rest
        refine ⟨next :: chain, longest.of_fold hf hg fold shape,
          folded.of_fold fold shape longest.straight, ?_⟩
        simp [Outcome.after, counted, Stats.add_def, Stats.merged, Nat.add_comm]
  | case2 f next stopped =>
    cases h
    refine ⟨[], longest_nil fun k follows ne_head => ?_, chainFolded_nil found, rfl⟩
    obtain rfl : next = k := by
      have jumps := jumpTarget?_eq_some_iff.mpr ⟨p, found, jump⟩
      exact Option.some.inj (jumps.symm.trans follows.jump)
    by_contra ne_entry
    exact stopped ((extendsChain_iff_follows hf found jump).mpr ⟨follows, ne_head, ne_entry⟩)

/--
Folding takes exactly the longest straight chain: its blocks go, the head gets their instructions in
order and ends as the last of them did, all other blocks stay as they are, and the statistics count
the blocks of the chain and nothing else. What runs yield does not change.
-/
theorem longest_chain_folded (edges : f.verifyEdges = .ok ())
    (jumps : f.jumpTarget? head = some next) :
    ∃ chain o, f.Longest head chain ∧ f.mergeChain head next = .ok o ∧
      f.ChainFolded o.func head chain ∧
      o.stats = ⟨0, 0, chain.length, 0⟩ ∧ ∀ args, f.SameRuns o.func args := by
  have hf := verifyEdges_eq_ok_iff.mp edges
  obtain ⟨p, found, jump⟩ := jumpTarget?_eq_some_iff.mp jumps
  obtain ⟨o, returned, ⟨_, moves, series, _⟩, _⟩ := mergeChain_returns hf found jump
  have folding : f.foldChain head next = .ok o := by
    simpa [mergeChain, block_of_found found, jump] using returned
  obtain ⟨chain, longest, folded, counted⟩ := chainFolded_of_foldChain hf found jump folding
  refine ⟨chain, o, longest, returned, folded, counted, fun args => ?_⟩
  obtain ⟨forward, backward⟩ :=
    (series.mono fun _ _ folds => Or.inr ⟨head, folds⟩).runs_of_uncut (.initial f.params args)
  exact sameRuns_of_runs folded.fields.2.1 forward backward

/-- A function with a loop of three blocks beside the way to its end. -/
def ring : Function where
  name := "f"
  params := [0]
  valueNames := ["x"]
  graph := Graph.ofBlocks
    [⟨"entry", [], .branch (.var 0) 1 4⟩, ⟨"top", [⟨none, .call "g" []⟩], .jump 2⟩,
      ⟨"low", [⟨none, .call "h" []⟩], .jump 3⟩, ⟨"foot", [], .jump 1⟩,
      ⟨"end", [], .ret none⟩]
  entry_live := rfl
  params_numbered := by decide

theorem longest_chain_folded_ring :
    ∃ chain o, chain.length = 2 ∧ ring.Longest 1 chain ∧ ring.mergeChain 1 2 = .ok o ∧
      ring.ChainFolded o.func 1 chain ∧ ring.SameRuns o.func [0] := by
  have jumps : ring.jumpTarget? 1 = some 2 := rfl
  obtain ⟨chain, o, longest, returned, folded, counted, same⟩ :=
    longest_chain_folded (by decide) jumps
  have evaluated : (ring.mergeChain 1 2).toOption.map Outcome.stats = some ⟨0, 0, 2, 0⟩ := by
    decide +kernel
  rw [returned] at evaluated
  have length : chain.length = 2 :=
    congrArg Stats.blocksMerged (counted.symm.trans (Option.some.inj evaluated))
  exact ⟨chain, o, length, longest, returned, folded, same [0]⟩

end Chains

end Function

end BranchTrim
