import BranchTrim.Proofs.Prune.Accounts
import BranchTrim.Proofs.Prune.Chains
import BranchTrim.Proofs.Prune.Course
import BranchTrim.Proofs.Text.Accepted
import Mathlib.Data.List.Perm.Subperm

/-!
What pruning does to the definitions of values. What remains of a function has nothing new in it, so
it is legible if the function was. But a definition may go while a block stays that reads the value.
This does not happen if no path from the entry leads around the definitions of a value to a block
that reads it.
-/

set_option autoImplicit false

namespace BranchTrim

private theorem nodup_of_subperm {α : Type} {l l' : List α} (fewer : l.Subperm l')
    (once : l'.Nodup) : l.Nodup := by
  obtain ⟨_, perm, sublist⟩ := fewer
  exact perm.nodup_iff.mp (once.sublist sublist)

private theorem Move.Trades.parts {m : Move} {old new : List Block} (trade : m.Trades old new) :
    (new.flatMap Block.insts).Sublist (old.flatMap Block.insts) ∧
      (new.map Block.name).Sublist (old.map Block.name) ∧
      new.flatMap Block.mentions ⊆ old.flatMap Block.mentions := by
  cases trade with
  | cut b kept branch =>
    refine ⟨List.Sublist.refl _, List.Sublist.refl _, ?_⟩
    simp [Block.mentions, Terminator.values]
  | drop blocks => exact ⟨List.nil_sublist _, List.nil_sublist _, List.nil_subset _⟩
  | fold p b jump =>
    refine ⟨?_, ?_, ?_⟩
    · simp
    · exact List.Sublist.cons_cons _ (List.nil_sublist _)
    · intro id mem
      simp only [Block.mentions, List.flatMap_cons, List.flatMap_nil, List.flatMap_append,
        List.mem_append, List.append_nil] at mem ⊢
      rcases mem with (own | taken) | ending
      · exact Or.inl (Or.inl own)
      · exact Or.inr (Or.inl taken)
      · exact Or.inr (Or.inr ending)

namespace Function

variable {f g h : Function} {m : Move} {moves : List Move}

/-- All that is in the second function was in the first one, and as often as there. -/
structure Remains (f g : Function) : Prop where
  name : g.name = f.name
  params : g.params = f.params
  valueNames : g.valueNames = f.valueNames
  insts : (g.blocks.flatMap Block.insts).Subperm (f.blocks.flatMap Block.insts)
  labels : (g.blocks.map Block.name).Subperm (f.blocks.map Block.name)
  mentions : g.blocks.flatMap Block.mentions ⊆ f.blocks.flatMap Block.mentions

private theorem Remains.refl (f : Function) : f.Remains f :=
  ⟨rfl, rfl, rfl, List.Subperm.refl _, List.Subperm.refl _, fun _ mem => mem⟩

private theorem Remains.trans (first : f.Remains g) (second : g.Remains h) : f.Remains h where
  name := second.name.trans first.name
  params := second.params.trans first.params
  valueNames := second.valueNames.trans first.valueNames
  insts := second.insts.trans first.insts
  labels := second.labels.trans first.labels
  mentions := List.Subset.trans second.mentions first.mentions

private theorem Moves.remains (move : f.Moves g m) : f.Remains g := by
  obtain ⟨old, new, others, trade, before, after⟩ := move.census
  obtain ⟨insts, labels, mentions⟩ := trade.parts
  obtain ⟨name, params, valueNames⟩ := move.fields
  refine ⟨name, params, valueNames, ?_, ?_, ?_⟩
  · have fewer := (insts.append_right (others.flatMap Block.insts)).subperm
    rw [← List.flatMap_append, ← List.flatMap_append] at fewer
    exact (after.flatMap_right _).subperm.trans (fewer.trans (before.flatMap_right _).symm.subperm)
  · have fewer := (labels.append_right (others.map Block.name)).subperm
    rw [← List.map_append, ← List.map_append] at fewer
    exact (after.map _).subperm.trans (fewer.trans (before.map _).symm.subperm)
  · intro id mem
    have among := (after.flatMap_right Block.mentions).subset mem
    rw [List.flatMap_append] at among
    apply (before.flatMap_right Block.mentions).symm.subset
    rw [List.flatMap_append]
    rcases List.mem_append.mp among with traded | beside
    · exact List.mem_append_left _ (mentions traded)
    · exact List.mem_append_right _ beside

theorem Derives.remains {allowed : Function → Move → Prop}
    (series : f.Derives allowed moves g) :
    f.Remains g := by
  induction series with
  | refl f => exact .refl f
  | step _ move _ ih => exact move.remains.trans ih

private theorem Remains.definitions (remains : f.Remains g) :
    g.definitions.Subperm f.definitions := by
  obtain ⟨insts, perm, sublist⟩ := remains.insts
  rw [Function.definitions, Function.definitions, remains.params]
  refine ⟨f.params ++ insts.filterMap Inst.result, ?_, ?_⟩
  · exact (perm.filterMap Inst.result).append_left f.params
  · exact (sublist.filterMap Inst.result).append_left f.params

private theorem Remains.nameOf (remains : f.Remains g) : g.nameOf = f.nameOf := by
  funext id
  rw [Function.nameOf, Function.nameOf, remains.valueNames]

private theorem Remains.exists_mention (remains : f.Remains g) {b : Block} (mem : b ∈ g.blocks)
    {id : Nat} (mentioned : id ∈ b.mentions) : ∃ c ∈ f.blocks, id ∈ c.mentions :=
  List.mem_flatMap.mp (remains.mentions (List.mem_flatMap.mpr ⟨b, mem, mentioned⟩))

private theorem Remains.spellable (remains : f.Remains g) (hf : f.Spellable) : g.Spellable := by
  refine ⟨?_, ?_, ?_, ?_, ?_⟩
  · rw [remains.name]
    exact hf.name
  · intro b mem inst listed
    have among := remains.insts.subset (List.mem_flatMap.mpr ⟨b, mem, listed⟩)
    obtain ⟨c, c_mem, c_listed⟩ := List.mem_flatMap.mp among
    exact hf.callees c c_mem inst c_listed
  · intro b mem
    obtain ⟨c, c_mem, same⟩ := List.mem_map.mp (remains.labels.subset (List.mem_map_of_mem mem))
    rw [← same]
    exact hf.labels c c_mem
  · intro id mem
    rw [remains.params] at mem
    rw [remains.nameOf]
    exact hf.params id mem
  · intro b mem id mentioned
    obtain ⟨c, c_mem, c_mentioned⟩ := remains.exists_mention mem mentioned
    rw [remains.nameOf]
    exact hf.mentions c c_mem id c_mentioned

private theorem Remains.numbered (remains : f.Remains g) (hf : f.Numbered) : g.Numbered := by
  intro i b found id mentioned
  obtain ⟨c, c_mem, c_mentioned⟩ :=
    remains.exists_mention (g.mem_blocks.mpr ⟨i, found⟩) mentioned
  obtain ⟨j, c_found⟩ := f.mem_blocks.mp c_mem
  rw [remains.valueNames]
  exact hf j c c_found id c_mentioned

private theorem Remains.legible (remains : f.Remains g) (hf : f.Legible) (hg : g.graph.Consistent) :
    g.Legible where
  spellable := remains.spellable hf.spellable
  consistent := hg
  numbered := remains.numbered hf.numbered
  valueNames_distinct := by
    rw [remains.valueNames]
    exact hf.valueNames_distinct
  labels_distinct := nodup_of_subperm remains.labels hf.labels_distinct
  definitions_once := nodup_of_subperm remains.definitions hf.definitions_once

section Paths

variable {id : Nat}

def DefinesAt (f : Function) (id i : Nat) : Prop :=
  ∃ inst ∈ f.instsAt i, inst.result = some id

/-- A path leads from the entry to the block, and no block on it, the last one included,
defines the value. -/
inductive Bypasses (f : Function) (id : Nat) : Nat → Prop
  | entry (free : ¬ f.DefinesAt id f.entry) : Bypasses f id f.entry
  | step {i j : Nat} (path : Bypasses f id i) (leads : j ∈ f.graph.targets i)
      (free : ¬ f.DefinesAt id j) : Bypasses f id j

/-- Every path from the entry to a block that reads a value, other than a parameter, meets a
definition of it. -/
def DefinesFirst (f : Function) : Prop :=
  ∀ i b, f.graph.block? i = some b → ∀ id ∈ b.uses, id ∉ f.params → ¬ f.Bypasses id i

private theorem Bypasses.chain {c : List Nat}
    (linked : c.IsChain fun j k => k ∈ f.graph.targets j)
    (free : ∀ k ∈ c, ¬ f.DefinesAt id k) (starts : ∀ i ∈ c.head?, f.Bypasses id i) :
    ∀ k ∈ c, f.Bypasses id k := by
  induction c with
  | nil => exact fun k mem => nomatch mem
  | cons i c ih =>
    have here : f.Bypasses id i := starts i rfl
    obtain ⟨next, linked⟩ := List.isChain_cons.mp linked
    obtain ⟨_, free⟩ := List.forall_mem_cons.mp free
    refine List.forall_mem_cons.mpr ⟨here, ih linked free fun j first => ?_⟩
    exact here.step (next j first) (free j (List.mem_of_head? first))

private theorem Spans.mem_uses {c : List Nat} {i : Nat} {b : Block} (spans : f.Spans c i b)
    (used : id ∈ b.uses) :
    ∃ k ∈ c, ∃ a, f.graph.block? k = some a ∧ id ∈ a.uses := by
  rcases List.mem_append.mp used with used | used
  · obtain ⟨inst, listed, operand⟩ := List.mem_flatMap.mp used
    rw [spans.insts] at listed
    obtain ⟨k, mem, within⟩ := List.mem_flatMap.mp listed
    obtain ⟨a, found⟩ := Graph.contains_iff.mp (spans.live k mem)
    rw [instsAt, found] at within
    exact ⟨k, mem, a, found,
      List.mem_append_left _ (List.mem_flatMap.mpr ⟨inst, within, operand⟩)⟩
  · obtain ⟨last, z, at_end, found, narrows⟩ := spans.ends
    refine ⟨last, List.mem_of_getLast? at_end, z, found, List.mem_append_right _ ?_⟩
    rcases narrows with same | ⟨_, _, _, _, jump | jump⟩
    · rwa [← same]
    · rw [jump] at used
      cases used
    · rw [jump] at used
      cases used

/--
If no path leads around the definitions of a value to a block that reads it, then what is left of
the function, with all blocks in reach, defines the values that it reads.
-/
private theorem usesDefined_of_chained {chain : Nat → List Nat} (first : f.DefinesFirst)
    (params : g.params = f.params) (chained : f.Chained g chain) (all : g.AllReached) :
    g.UsesDefined := by
  intro b mem id used
  by_contra undefined
  have no_param : id ∉ f.params := by
    rw [← params]
    exact fun param => undefined (List.mem_append_left _ param)
  have free : ∀ i, g.graph.contains i = true → ∀ k ∈ chain i, ¬ f.DefinesAt id k := by
    rintro i live k on_chain ⟨inst, listed, result⟩
    obtain ⟨c, found⟩ := Graph.contains_iff.mp live
    have taken : inst ∈ c.insts := by
      rw [(chained.spans i c found).insts]
      exact List.mem_flatMap.mpr ⟨k, on_chain, listed⟩
    exact undefined
      (mem_definitions.mpr (Or.inr ⟨c, g.mem_blocks.mpr ⟨i, found⟩, inst, taken, result⟩))
  -- A path of the second function runs through the chains of its blocks, one after the other.
  have around : ∀ i, g.Reaches i → g.graph.contains i = true →
      ∀ k ∈ chain i, f.Bypasses id k := by
    intro i path live
    induction path with
    | refl =>
      obtain ⟨c, found⟩ := Graph.contains_iff.mp live
      have spans := chained.spans _ c found
      refine Bypasses.chain spans.linked (free _ live) fun j starts => ?_
      obtain rfl := Option.some.inj (starts.symm.trans spans.starts)
      exact .entry (free _ live _ (List.mem_of_head? spans.starts))
    | @tail i j _ leads ih =>
      obtain ⟨c, found⟩ := Graph.contains_iff.mp live
      have spans := chained.spans j c found
      obtain ⟨a, a_found, target⟩ := Graph.mem_targets.mp leads
      obtain ⟨last, z, at_end, z_found, narrows⟩ := (chained.spans i a a_found).ends
      have before := ih (Graph.contains_of_block? a_found) last (List.mem_of_getLast? at_end)
      refine Bypasses.chain spans.linked (free j live) fun k starts => ?_
      obtain rfl := Option.some.inj (starts.symm.trans spans.starts)
      refine before.step ?_ (free _ live _ (List.mem_of_head? spans.starts))
      rw [Graph.targets_of_block? z_found]
      exact narrows.mem_targets target
  obtain ⟨i, found⟩ := g.mem_blocks.mp mem
  have live := Graph.contains_of_block? found
  obtain ⟨k, on_chain, a, a_found, a_used⟩ := (chained.spans i b found).mem_uses used
  exact first k a a_found id a_used no_param (around i (all i live) live k on_chain)

end Paths

section Prune

variable {oracle : Oracle} {options : Options} {o : Outcome}

theorem legible_of_prune (legible : f.Legible) (pruned : f.prune oracle options = .ok o) :
    o.func.Legible := by
  obtain ⟨consistent, _, series, _⟩ := derivedFrom_of_prune legible.consistent pruned
  exact series.remains.legible legible consistent

theorem usesDefined_of_prune (hf : f.graph.Consistent) (sweeping : options.sweepUnreachable = true)
    (first : f.DefinesFirst) (pruned : f.prune oracle options = .ok o) : o.func.UsesDefined := by
  obtain ⟨_, _, series, _⟩ := derivedFrom_of_prune hf pruned
  obtain ⟨chain, chained⟩ := series.chained f.chained_self
  have all := allReached_of_prune hf sweeping pruned
  exact usesDefined_of_chained first series.fields.2.1 chained all

end Prune

end Function

end BranchTrim
