import BranchTrim.Proofs.Flow.Edits
import BranchTrim.Proofs.Text.Listing
import Mathlib.Data.List.Forall2

/-!
Functions that can be printed. Printing asks for the names of the values and blocks that a function
mentions. It is never refused for a function with a consistent graph that mentions numbered values
only, and then it writes down the listing of the function.
-/

set_option autoImplicit false

namespace BranchTrim

def Value.ids : Value → List Nat
  | var id => [id]
  | const _ => []

def Terminator.values {ν β : Type} : Terminator ν β → List ν
  | jump _ => []
  | branch cond _ _ => [cond]
  | ret value => value.toList

/-- The numbers of the values that an instruction mentions, its result among them. -/
def Inst.mentions (inst : Inst) : List Nat :=
  inst.result.toList ++ inst.op.operands.flatMap Value.ids

def Block.mentions (b : Block) : List Nat :=
  b.insts.flatMap Inst.mentions ++ b.term.values.flatMap Value.ids

section Success

variable {α β γ δ ε : Type}

theorem mapM_eq_ok_iff {k : α → Except ε β} {l : List α} {results : List β} :
    l.mapM k = .ok results ↔ List.Forall₂ (fun x y => k x = .ok y) l results := by
  induction l generalizing results with
  | nil =>
    rw [List.mapM_nil, List.forall₂_nil_left_iff]
    exact ⟨fun h => (Except.ok.inj h).symm, fun h => h ▸ rfl⟩
  | cons x l ih =>
    rw [List.mapM_cons, List.forall₂_cons_left_iff]
    cases first : k x with
    | error e => simp
    | ok y =>
      cases later : l.mapM k with
      | error e => simp [← ih, later]
      | ok ys => simp [← ih, later, eq_comm]

theorem exists_of_mem_forall₂ {R : α → β → Prop} {l : List α} {results : List β}
    (each : List.Forall₂ R l results) {y : β} (mem : y ∈ results) : ∃ x ∈ l, R x y := by
  induction each with
  | nil => cases mem
  | @cons x z l results first later ih =>
    rcases List.mem_cons.mp mem with rfl | mem
    · exact ⟨x, List.mem_cons_self, first⟩
    · obtain ⟨w, listed, related⟩ := ih mem
      exact ⟨w, List.mem_cons_of_mem x listed, related⟩

theorem exists_of_mem_mapM {k : α → Except ε β} {l : List α} {results : List β}
    (done : l.mapM k = .ok results) {y : β} (mem : y ∈ results) : ∃ x ∈ l, k x = .ok y :=
  exists_of_mem_forall₂ (mapM_eq_ok_iff.mp done) mem

theorem map_eq_of_mapM {k : α → Except ε β} {l : List α} {results : List β} {g : α → γ}
    {h : β → γ} (agree : ∀ x y, k x = .ok y → h y = g x) (done : l.mapM k = .ok results) :
    results.map h = l.map g := by
  have same : List.Forall₂ (fun x y => g x = h y) l results :=
    (mapM_eq_ok_iff.mp done).imp fun x y read => (agree x y read).symm
  have equal : List.Forall₂ Eq (l.map g) (results.map h) :=
    List.forall₂_map_left_iff.mpr (List.forall₂_map_right_iff.mpr same)
  rw [List.forall₂_eq_eq_eq] at equal
  exact equal.symm

theorem mapM_eq_map {k : α → Except ε β} {r : α → β} {l : List α}
    (each : ∀ x ∈ l, k x = .ok (r x)) :
    l.mapM k = .ok (l.map r) := by
  rw [mapM_eq_ok_iff, List.forall₂_map_right_iff]
  exact List.forall₂_same.mpr each

theorem mapM_of_map_eq {k : α → Except ε β} {g : α → γ} {h : δ → γ} {r : δ → β}
    {l : List α} {others : List δ} (same : l.map g = others.map h)
    (each : ∀ x, ∀ y ∈ others, g x = h y → k x = .ok (r y)) :
    l.mapM k = .ok (others.map r) := by
  induction others generalizing l with
  | nil =>
    obtain rfl := List.map_eq_nil_iff.mp same
    rfl
  | cons y others ih =>
    obtain ⟨x, l, rfl, first, later⟩ := List.map_eq_cons_iff.mp same
    have read := each x y List.mem_cons_self first
    have rest := ih later fun z w mem => each z w (List.mem_cons_of_mem y mem)
    simp [List.mapM_cons, read, rest]

theorem Operation.mapOperands_map (k : β → Except ε γ) (h : α → β) (op : Operation α) :
    (op.map h).mapOperands k = op.mapOperands (k ∘ h) := by
  cases op <;> simp [Operation.map, mapOperands, List.mapM_map]

theorem Terminator.mapParts_map {ξ : Type} (k : β → Except ε γ) (l : δ → Except ε ξ)
    (h : α → β) {ζ : Type} (q : ζ → δ) (term : Terminator α ζ) :
    (term.map h q).mapParts k l = term.mapParts (k ∘ h) (l ∘ q) := by
  cases term with
  | ret value => cases value <;> rfl
  | jump | branch => rfl

theorem Operation.mapOperands_eq_map {k : α → Except ε β} {r : α → β} {op : Operation α}
    (each : ∀ x ∈ op.operands, k x = .ok (r x)) : op.mapOperands k = .ok (op.map r) := by
  cases op with
  | compare pred lhs rhs =>
    have left := each lhs (by simp [operands])
    have right := each rhs (by simp [operands])
    simp [mapOperands, Operation.map, left, right]
  | binary op lhs rhs =>
    have left := each lhs (by simp [operands])
    have right := each rhs (by simp [operands])
    simp [mapOperands, Operation.map, left, right]
  | copy value =>
    have read := each value (by simp [operands])
    simp [mapOperands, Operation.map, read]
  | call callee args =>
    have read : args.mapM k = .ok (args.map r) := mapM_eq_map each
    simp [mapOperands, Operation.map, read]

theorem Terminator.mapParts_eq_map {k : α → Except ε β} {r : α → β}
    {l : δ → Except ε γ} {q : δ → γ} {term : Terminator α δ}
    (values : ∀ x ∈ term.values, k x = .ok (r x))
    (targets : ∀ t ∈ term.targets, l t = .ok (q t)) :
    term.mapParts k l = .ok (term.map r q) := by
  cases term with
  | jump target =>
    have named := targets target (by simp [Terminator.targets, arms])
    simp [mapParts, Terminator.map, named]
  | branch cond whenTrue whenFalse =>
    have read := values cond (by simp [Terminator.values])
    have named := targets whenTrue (by simp [Terminator.targets, arms])
    have named' := targets whenFalse (by simp [Terminator.targets, arms])
    simp [mapParts, Terminator.map, read, named, named']
  | ret value =>
    cases value with
    | none => rfl
    | some value =>
      have read := values value (by simp [Terminator.values])
      simp [mapParts, Terminator.map, read]

end Success

namespace Function

variable {f : Function}

def Numbered (f : Function) : Prop :=
  ∀ i b, f.graph.block? i = some b → ∀ id ∈ b.mentions, id < f.valueNames.length

private theorem numbered_iff : f.Numbered ↔
    ∀ i ∈ f.blockIds, ∀ b ∈ (f.graph.block? i).toList, ∀ id ∈ b.mentions,
      id < f.valueNames.length := by
  constructor
  · intro numbered i _ b mem
    exact numbered i b (Option.mem_toList.mp mem)
  · intro listed i b found
    have live : i ∈ f.blockIds := (f.graph.mem_ids i).mpr (Graph.contains_of_block? found)
    exact listed i live b (Option.mem_toList.mpr found)

instance : Decidable f.Numbered :=
  decidable_of_iff _ numbered_iff.symm

/-! The listing of a function. Values and blocks that do not exist would be listed
without a name. -/

def nameOf (f : Function) (id : Nat) : String :=
  f.valueNames.getD id ""

def labelOf (f : Function) (i : Nat) : String :=
  ((f.graph.block? i).map Block.name).getD ""

def operandOf (f : Function) : Value → Operand
  | .var id => .named (f.nameOf id)
  | .const word => .const word

def listInst (f : Function) (inst : Inst) : ListedInst :=
  ⟨inst.result.map f.nameOf, inst.op.map f.operandOf⟩

def listBlock (f : Function) (b : Block) : ListedBlock :=
  ⟨b.name, b.insts.map f.listInst, some (b.term.map f.operandOf f.labelOf)⟩

def blocks (f : Function) : List Block :=
  f.blockIds.filterMap f.graph.block?

def listing (f : Function) : Listing :=
  ⟨f.name, f.params.map f.nameOf, f.blocks.map f.listBlock⟩

theorem mem_blocks (f : Function) {b : Block} :
    b ∈ f.blocks ↔ ∃ i, f.graph.block? i = some b := by
  simp only [Function.blocks, List.mem_filterMap, blockIds, Graph.mem_ids]
  constructor
  · rintro ⟨i, _, found⟩
    exact ⟨i, found⟩
  · rintro ⟨i, found⟩
    exact ⟨i, Graph.contains_of_block? found, found⟩

theorem nodup_blockIds (f : Function) : f.blockIds.Nodup :=
  List.nodup_range.filter _

theorem nameOf_of_getElem? {id : Nat} {name : String} (place : f.valueNames[id]? = some name) :
    f.nameOf id = name := by
  rw [nameOf, List.getD_eq_getElem?_getD, place, Option.getD_some]

private theorem varText_eq {id : Nat} (numbered : id < f.valueNames.length) :
    f.varText id = .ok ("%" ++ f.nameOf id) := by
  simp [varText, valueName, nameOf, List.getElem?_eq_getElem numbered]

private theorem valueText_eq {v : Value} (numbered : ∀ id ∈ v.ids, id < f.valueNames.length) :
    f.valueText v = .ok (f.operandOf v).text := by
  cases v with
  | var id => exact varText_eq (numbered id (by simp [Value.ids]))
  | const word => rfl

private theorem instLine_eq {inst : Inst}
    (numbered : ∀ id ∈ inst.mentions, id < f.valueNames.length) :
    f.instLine inst = .ok (Item.inst (f.listInst inst)).line := by
  have written : inst.op.mapOperands f.valueText =
      .ok ((inst.op.map f.operandOf).map Operand.text) := by
    rw [Operation.map_map]
    refine Operation.mapOperands_eq_map fun v mem => valueText_eq fun id listed => ?_
    exact numbered id (List.mem_append_right _ (List.mem_flatMap.mpr ⟨v, mem, listed⟩))
  unfold instLine listInst
  rw [written]
  cases result : inst.result with
  | none => rfl
  | some id =>
    have named := varText_eq (numbered id (by simp [Inst.mentions, result]))
    simp [named, Item.line, ListedInst.text, String.append_assoc]

private theorem blockLines_eq (hf : f.graph.Consistent) (numbered : f.Numbered) {i : Nat}
    {b : Block} (found : f.graph.block? i = some b) :
    f.blockLines i = .ok (String.join ((f.listBlock b).items.map Item.line)) := by
  have known : ∀ id ∈ b.mentions, id < f.valueNames.length := numbered i b found
  have insts :
      b.insts.mapM f.instLine = .ok (b.insts.map (Item.line ∘ .inst ∘ f.listInst)) := by
    refine mapM_eq_map fun inst mem => instLine_eq fun id listed => ?_
    exact known id (List.mem_append_left _ (List.mem_flatMap.mpr ⟨inst, mem, listed⟩))
  have term : b.term.mapParts f.valueText f.blockName =
      .ok ((b.term.map f.operandOf f.labelOf).map Operand.text id) := by
    rw [Terminator.map_map]
    refine Terminator.mapParts_eq_map ?_ ?_
    · intro v mem
      refine valueText_eq fun id listed => ?_
      exact known id (List.mem_append_right _ (List.mem_flatMap.mpr ⟨v, mem, listed⟩))
    · intro t mem
      have target_live := hf.contains_target (i := i) (by rwa [Graph.targets_of_block? found])
      obtain ⟨c, target_found⟩ := Graph.contains_iff.mp target_live
      rw [blockName_of_found target_found]
      simp [labelOf, target_found]
  simp only [blockLines, block_of_found found, insts, termLine, term, ok_bind, pure_eq_ok]
  simp [listBlock, ListedBlock.items, Item.line, String.join_append, String.append_assoc]

private theorem join_blockLines (f : Function) (ids : List Nat) :
    String.join (ids.map fun i =>
        ((f.graph.block? i).map fun b =>
          String.join ((f.listBlock b).items.map Item.line)).getD "") =
      String.join ((((ids.filterMap f.graph.block?).map f.listBlock).flatMap ListedBlock.items).map
        Item.line) := by
  induction ids with
  | nil => rfl
  | cons i ids ih =>
    rw [List.map_cons, String.join_cons, ih]
    cases found : f.graph.block? i <;> simp [found, String.join_append]

/-- Printing gives the text of the listing for a consistent graph that mentions
numbered values only. -/
theorem print_eq (hf : f.graph.Consistent) (numbered : f.Numbered) :
    f.print = .ok f.listing.text := by
  have params : f.params.mapM f.varText = .ok (f.params.map (("%" ++ ·) ∘ f.nameOf)) :=
    mapM_eq_map fun id mem => varText_eq (f.params_numbered id mem)
  have blocks : f.blockIds.mapM f.blockLines = .ok (f.blockIds.map fun i =>
      ((f.graph.block? i).map fun b =>
        String.join ((f.listBlock b).items.map Item.line)).getD "") := by
    refine mapM_eq_map fun i mem => ?_
    obtain ⟨b, found⟩ := Graph.contains_iff.mp ((f.graph.mem_ids i).mp mem)
    rw [blockLines_eq hf numbered found, found]
    rfl
  simp only [print, params, blocks, join_blockLines, ok_bind, pure_eq_ok, Listing.text,
    Listing.items, listing, Function.blocks, List.map_map]

theorem print_returns (hf : f.graph.Consistent) (numbered : f.Numbered) :
    ∃ text, f.print = .ok text :=
  ⟨_, print_eq hf numbered⟩

end Function

end BranchTrim
