import BranchTrim.Proofs.Text.Listing
import BranchTrim.Text.Draft.Body

/-!
What the readers accept. A reader succeeds on lexemes that start with the tokens of the part that it
returns, and on no others; the lines of the lexemes play no role in this.
-/

set_option autoImplicit false

namespace BranchTrim

namespace Predicate

private theorem ofMnemonic?_mnemonic (pred : Predicate) :
    ofMnemonic? pred.mnemonic = some pred := by
  cases pred <;> rfl

private theorem mnemonic_of_ofMnemonic? {word : String} {pred : Predicate}
    (h : ofMnemonic? word = some pred) :
    pred.mnemonic = word := by
  simpa using List.find?_some h

end Predicate

namespace BinOp

private theorem ofMnemonic?_mnemonic (op : BinOp) : ofMnemonic? op.mnemonic = some op := by
  cases op <;> rfl

private theorem mnemonic_of_ofMnemonic? {word : String} {op : BinOp}
    (h : ofMnemonic? word = some op) :
    op.mnemonic = word := by
  simpa using List.find?_some h

end BinOp

namespace Lexeme

/-- The lexemes start with the given tokens, and the rest follows. -/
def Spells (tokens : List Token) (ts rest : List Lexeme) : Prop :=
  ∃ used, ts = used ++ rest ∧ used.map token = tokens

variable {t : Token} {tokens more : List Token} {ts rest : List Lexeme}

@[simp]
theorem spells_nil : Spells [] ts rest ↔ ts = rest := by
  constructor
  · rintro ⟨used, rfl, none⟩
    simp [List.map_eq_nil_iff.mp none]
  · rintro rfl
    exact ⟨[], rfl, rfl⟩

@[simp]
theorem spells_cons : Spells (t :: tokens) ts rest ↔
    ∃ line later, ts = ⟨t, line⟩ :: later ∧ Spells tokens later rest := by
  constructor
  · rintro ⟨used, rfl, spelled⟩
    obtain ⟨⟨_, line⟩, later, rfl, rfl, rfl⟩ := List.map_eq_cons_iff.mp spelled
    exact ⟨line, later ++ rest, rfl, later, rfl, rfl⟩
  · rintro ⟨line, _, rfl, used, rfl, spelled⟩
    exact ⟨⟨t, line⟩ :: used, rfl, by simp [spelled]⟩

theorem spells_append : Spells (tokens ++ more) ts rest ↔
    ∃ mid, Spells tokens ts mid ∧ Spells more mid rest := by
  constructor
  · rintro ⟨used, rfl, spelled⟩
    obtain ⟨first, second, rfl, rfl, rfl⟩ := List.map_eq_append_iff.mp spelled
    exact ⟨second ++ rest, ⟨first, List.append_assoc .., rfl⟩, second, rfl, rfl⟩
  · rintro ⟨_, ⟨first, rfl, rfl⟩, second, rfl, rfl⟩
    exact ⟨first ++ second, (List.append_assoc ..).symm, List.map_append⟩

end Lexeme

namespace Operand

private theorem token_injective : Function.Injective token := by
  intro x y same
  cases x <;> cases y <;> simp_all [token]

private theorem map_token_injective {xs ys : List Operand} (same : xs.map token = ys.map token) :
    xs = ys :=
  List.map_injective_iff.mpr token_injective same

end Operand

namespace Draft

open Lexeme (Spells spells_nil spells_cons spells_append)

section Reader

variable {α β : Type} {what : Expectation} {ts rest : List Lexeme}

theorem next_eq_ok_iff {t : Lexeme} : next what ts = .ok (t, rest) ↔ ts = t :: rest := by
  cases ts <;> simp [next]

theorem expect_eq_ok_iff {token : Token} :
    expect token what ts = .ok rest ↔ Spells [token] ts rest := by
  simp only [expect, bind_eq_ok_iff, Prod.exists, next_eq_ok_iff, spells_cons, spells_nil]
  constructor
  · rintro ⟨⟨found, line⟩, later, rfl, h⟩
    dsimp only at h
    split at h
    · next same =>
      cases h
      exact ⟨line, rest, by rw [same], rfl⟩
    · cases h
  · rintro ⟨line, later, rfl, rfl⟩
    exact ⟨_, _, rfl, if_pos rfl⟩

theorem ident_eq_ok_iff {word : Definition} :
    ident what ts = .ok (word, rest) ↔ ts = ⟨.ident word.name, word.line⟩ :: rest := by
  simp only [ident, bind_eq_ok_iff, Prod.exists, next_eq_ok_iff]
  constructor
  · rintro ⟨⟨found, line⟩, later, rfl, h⟩
    cases found with
    | ident name =>
      cases h
      rfl
    | _ => cases h
  · rintro rfl
    exact ⟨_, _, rfl, rfl⟩

theorem globalName_eq_ok_iff {name : String} :
    globalName what ts = .ok (name, rest) ↔ Spells [.global name] ts rest := by
  simp only [globalName, bind_eq_ok_iff, Prod.exists, next_eq_ok_iff, spells_cons, spells_nil]
  constructor
  · rintro ⟨⟨found, line⟩, later, rfl, h⟩
    cases found with
    | global name =>
      cases h
      exact ⟨line, rest, rfl, rfl⟩
    | _ => cases h
  · rintro ⟨line, later, rfl, rfl⟩
    exact ⟨_, _, rfl, rfl⟩

private theorem integer_eq_ok_iff {word : Int64} :
    integer ts = .ok (word, rest) ↔ Spells [.int word] ts rest := by
  simp only [integer, bind_eq_ok_iff, Prod.exists, next_eq_ok_iff, spells_cons, spells_nil]
  constructor
  · rintro ⟨⟨found, line⟩, later, rfl, h⟩
    cases found with
    | int word =>
      cases h
      exact ⟨line, rest, rfl, rfl⟩
    | _ => cases h
  · rintro ⟨line, later, rfl, rfl⟩
    exact ⟨_, _, rfl, rfl⟩

theorem asDefinition_eq_ok_iff {t : Lexeme} {d : Definition} :
    asDefinition what t = .ok d ↔ t = ⟨.value d.name, d.line⟩ := by
  obtain ⟨token, line⟩ := t
  obtain ⟨line', name⟩ := d
  cases token <;> simp [asDefinition, unexpected]
  exact and_comm

private theorem asOperand_eq_ok_iff {t : Lexeme} {operand : Operand} :
    asOperand t = .ok operand ↔ t.token = operand.token := by
  obtain ⟨token, line⟩ := t
  cases token <;> cases operand <;> simp [asOperand, unexpected, Operand.token]

theorem operand_eq_ok_iff {value : Operand} :
    operand ts = .ok (value, rest) ↔ Spells [value.token] ts rest := by
  simp only [operand, bind_eq_ok_iff, Prod.exists, next_eq_ok_iff, asOperand_eq_ok_iff, spells_cons,
    spells_nil]
  constructor
  · rintro ⟨⟨found, line⟩, later, rfl, _, rfl, h⟩
    cases h
    exact ⟨line, rest, rfl, rfl⟩
  · rintro ⟨line, later, rfl, rfl⟩
    exact ⟨_, _, rfl, value, rfl, rfl⟩

private theorem twoOperands_eq_ok_iff {values : Operand × Operand} :
    twoOperands ts = .ok (values, rest) ↔
      Spells [values.1.token, .comma, values.2.token] ts rest := by
  obtain ⟨lhs, rhs⟩ := values
  simp only [twoOperands, bind_eq_ok_iff, Prod.exists, operand_eq_ok_iff,
    expect_eq_ok_iff, spells_cons, spells_nil]
  constructor
  · rintro ⟨x, _, ⟨first, _, rfl, rfl⟩, _, ⟨second, _, rfl, rfl⟩, y, _,
      ⟨third, _, rfl, rfl⟩, h⟩
    cases h
    exact ⟨first, _, rfl, second, _, rfl, third, _, rfl, rfl⟩
  · rintro ⟨first, _, rfl, second, _, rfl, third, _, rfl, rfl⟩
    exact ⟨lhs, _, ⟨first, _, rfl, rfl⟩, _, ⟨second, _, rfl, rfl⟩, rhs, _,
      ⟨third, _, rfl, rfl⟩, rfl⟩

section Items

variable {item : Lexeme → Except ParseError α} {spell : α → Token}

private theorem spells_of_items (sound : ∀ t x, item t = .ok x → t.token = spell x)
    {xs : List α} (h : items what item ts = .ok (xs, rest)) :
    xs ≠ [] ∧ Spells ((xs.map spell).intersperse .comma ++ [.rightParen]) ts rest := by
  induction ts using items.induct generalizing xs with
  | case1 => cases h
  | case2 t =>
    obtain ⟨x, _, h⟩ := bind_eq_ok h
    cases h
  | case3 t s ts ih =>
    obtain ⟨token, line⟩ := t
    obtain ⟨separator, line'⟩ := s
    obtain ⟨x, first, after⟩ := bind_eq_ok h
    obtain rfl : token = spell x := sound _ x first
    cases separator with
    | comma =>
      obtain ⟨⟨later, _⟩, more, done⟩ := bind_eq_ok after
      cases done
      obtain ⟨nonempty, spelled⟩ := ih more
      obtain ⟨y, ys, rfl⟩ := List.exists_cons_of_ne_nil nonempty
      refine ⟨List.cons_ne_nil _ _, ?_⟩
      simp only [List.map_cons, List.intersperse_cons_cons, List.cons_append,
        spells_cons] at spelled ⊢
      exact ⟨line, _, rfl, line', ts, rfl, spelled⟩
    | rightParen =>
      cases after
      exact ⟨List.cons_ne_nil _ _, by simp⟩
    | _ => cases after

private theorem items_of_spells (what : Expectation) {tokens : List Token}
    (complete : ∀ t ∈ tokens, ∀ line, ∃ x, item ⟨t, line⟩ = .ok x ∧ spell x = t)
    (nonempty : tokens ≠ [])
    (spelled : Spells (tokens.intersperse .comma ++ [.rightParen]) ts rest) :
    ∃ xs, items what item ts = .ok (xs, rest) ∧ xs.map spell = tokens := by
  induction tokens generalizing ts with
  | nil => exact absurd rfl nonempty
  | cons t tokens ih =>
    obtain ⟨first, others⟩ := List.forall_mem_cons.mp complete
    cases tokens with
    | nil =>
      simp only [List.intersperse_singleton, List.singleton_append, spells_cons,
        spells_nil] at spelled
      obtain ⟨line, _, rfl, line', _, rfl, rfl⟩ := spelled
      obtain ⟨x, read, rfl⟩ := first line
      exact ⟨[x], by simp [items, read], rfl⟩
    | cons u tokens =>
      simp only [List.intersperse_cons_cons, List.cons_append, spells_cons] at spelled
      obtain ⟨line, _, rfl, line', later, rfl, spelled⟩ := spelled
      obtain ⟨x, read, rfl⟩ := first line
      obtain ⟨xs, more, same⟩ := ih others (List.cons_ne_nil u tokens) spelled
      exact ⟨x :: xs, by simp [items, read, more], by simp [same]⟩

theorem spells_of_parenthesized (sound : ∀ t x, item t = .ok x → t.token = spell x)
    {xs : List α} (h : parenthesized what item ts = .ok (xs, rest)) :
    Spells (.leftParen :: ((xs.map spell).intersperse .comma ++ [.rightParen])) ts rest := by
  obtain ⟨_, opened, h⟩ := bind_eq_ok h
  simp only [expect_eq_ok_iff, spells_cons, spells_nil] at opened
  obtain ⟨line, inner, rfl, rfl⟩ := opened
  refine spells_cons.mpr ⟨line, inner, rfl, ?_⟩
  split at h
  · cases h
    simp
  · exact (spells_of_items sound h).2

theorem parenthesized_of_spells (what : Expectation) {tokens : List Token}
    (complete : ∀ t ∈ tokens, ∀ line, ∃ x, item ⟨t, line⟩ = .ok x ∧ spell x = t)
    (inside : .rightParen ∉ tokens)
    (spelled : Spells (.leftParen :: (tokens.intersperse .comma ++ [.rightParen])) ts rest) :
    ∃ xs, parenthesized what item ts = .ok (xs, rest) ∧ xs.map spell = tokens := by
  obtain ⟨line, inner, rfl, within⟩ := spells_cons.mp spelled
  have opened : expect .leftParen .leftParen (⟨.leftParen, line⟩ :: inner) = .ok inner := rfl
  simp only [parenthesized, opened, ok_bind]
  cases tokens with
  | nil =>
    simp only [List.intersperse_nil, List.nil_append, spells_cons, spells_nil] at within
    obtain ⟨line', _, rfl, rfl⟩ := within
    exact ⟨[], rfl, rfl⟩
  | cons t tokens =>
    obtain ⟨xs, read, same⟩ := items_of_spells what complete (List.cons_ne_nil t tokens) within
    refine ⟨xs, ?_, same⟩
    split
    · refine absurd ?_ inside
      cases tokens <;> simp_all
    · exact read

end Items

private theorem spells_of_operation {op : Operation Operand}
    (read : operation ts = .ok (op, rest)) :
    Spells op.tokens ts rest := by
  obtain ⟨⟨⟨line, opcode⟩, ts₁⟩, first, h⟩ := bind_eq_ok read
  rw [ident_eq_ok_iff.mp first]
  simp only at h ⊢
  split at h
  · next op named =>
    obtain ⟨values, second, h⟩ := bind_eq_ok h
    cases h
    rw [← BinOp.mnemonic_of_ofMnemonic? named]
    exact spells_cons.mpr ⟨line, ts₁, rfl, twoOperands_eq_ok_iff.mp second⟩
  split at h
  · next icmp =>
    obtain ⟨⟨⟨line', word⟩, ts₂⟩, second, h⟩ := bind_eq_ok h
    rw [ident_eq_ok_iff.mp second]
    simp only at h ⊢
    split at h
    · next pred named =>
      obtain ⟨values, third, h⟩ := bind_eq_ok h
      cases h
      have operands := twoOperands_eq_ok_iff.mp third
      rw [← Predicate.mnemonic_of_ofMnemonic? named, icmp]
      exact spells_cons.mpr ⟨line, _, rfl, spells_cons.mpr ⟨line', ts₂, rfl, operands⟩⟩
    · cases h
  split at h
  · next copy =>
    obtain ⟨value, second, h⟩ := bind_eq_ok h
    cases h
    rw [copy]
    exact spells_cons.mpr ⟨line, ts₁, rfl, operand_eq_ok_iff.mp second⟩
  split at h
  · next call =>
    obtain ⟨⟨callee, ts₂⟩, second, h⟩ := bind_eq_ok h
    obtain ⟨⟨args, ts₃⟩, third, h⟩ := bind_eq_ok h
    cases h
    have name := globalName_eq_ok_iff.mp second
    have operands := spells_of_parenthesized (fun _ _ => asOperand_eq_ok_iff.mp) third
    rw [call]
    exact spells_cons.mpr ⟨line, ts₁, rfl, spells_append.mpr ⟨ts₂, name, operands⟩⟩
  · cases h

private theorem arguments_of_spells {args : List Operand}
    (spelled : Spells (.leftParen :: ((args.map Operand.token).intersperse .comma ++ [.rightParen]))
      ts rest) :
    parenthesized .operand asOperand ts = .ok (args, rest) := by
  have complete : ∀ t ∈ args.map Operand.token, ∀ line,
      ∃ x, asOperand ⟨t, line⟩ = .ok x ∧ x.token = t := by
    intro t mem line
    obtain ⟨x, _, rfl⟩ := List.mem_map.mp mem
    exact ⟨x, asOperand_eq_ok_iff.mpr rfl, rfl⟩
  have inside : Token.rightParen ∉ args.map Operand.token := by
    intro mem
    obtain ⟨x, _, same⟩ := List.mem_map.mp mem
    cases x <;> cases same
  obtain ⟨read, parsed, same⟩ := parenthesized_of_spells .operand complete inside spelled
  rw [parsed, Operand.map_token_injective same]

private theorem operation_of_spells {op : Operation Operand} (spelled : Spells op.tokens ts rest) :
    operation ts = .ok (op, rest) := by
  cases op with
  | compare pred lhs rhs =>
    obtain ⟨line, _, rfl, after⟩ := spells_cons.mp spelled
    obtain ⟨line', later, rfl, operands⟩ := spells_cons.mp after
    have values : twoOperands later = .ok ((lhs, rhs), rest) := twoOperands_eq_ok_iff.mpr operands
    have no_binary : BinOp.ofMnemonic? "icmp" = none := rfl
    simp [operation, ident, next, no_binary, Predicate.ofMnemonic?_mnemonic, values]
  | binary op lhs rhs =>
    obtain ⟨line, later, rfl, operands⟩ := spells_cons.mp spelled
    have values : twoOperands later = .ok ((lhs, rhs), rest) := twoOperands_eq_ok_iff.mpr operands
    simp [operation, ident, next, BinOp.ofMnemonic?_mnemonic, values]
  | copy value =>
    obtain ⟨line, later, rfl, after⟩ := spells_cons.mp spelled
    have read : operand later = .ok (value, rest) := operand_eq_ok_iff.mpr after
    have no_binary : BinOp.ofMnemonic? "copy" = none := rfl
    simp [operation, ident, next, no_binary, read]
  | call callee args =>
    obtain ⟨line, _, rfl, after⟩ := spells_cons.mp spelled
    obtain ⟨line', later, rfl, operands⟩ := spells_cons.mp after
    have read : parenthesized .operand asOperand later = .ok (args, rest) :=
      arguments_of_spells operands
    have no_binary : BinOp.ofMnemonic? "call" = none := rfl
    simp [operation, ident, globalName, next, no_binary, read]

theorem operation_eq_ok_iff {op : Operation Operand} :
    operation ts = .ok (op, rest) ↔ Spells op.tokens ts rest :=
  ⟨spells_of_operation, operation_of_spells⟩

theorem spells_of_rangeNote {line : Nat} {a : RangeNote}
    (read : rangeNote line ts = .ok (a, rest)) :
    Spells [.value a.name, .leftBracket, .int a.range.lo, .comma, .int a.range.hi, .rightBracket]
      ts rest := by
  obtain ⟨⟨t, ts₁⟩, first, h⟩ := bind_eq_ok read
  obtain ⟨value, named, h⟩ := bind_eq_ok h
  obtain ⟨ts₂, second, h⟩ := bind_eq_ok h
  obtain ⟨⟨lo, ts₃⟩, third, h⟩ := bind_eq_ok h
  obtain ⟨ts₄, fourth, h⟩ := bind_eq_ok h
  obtain ⟨⟨hi, ts₅⟩, fifth, h⟩ := bind_eq_ok h
  obtain ⟨ts₆, sixth, h⟩ := bind_eq_ok h
  have bracket : Spells [.leftBracket] ts₁ ts₂ := expect_eq_ok_iff.mp second
  have lower : Spells [.int lo] ts₂ ts₃ := integer_eq_ok_iff.mp third
  have comma : Spells [.comma] ts₃ ts₄ := expect_eq_ok_iff.mp fourth
  have upper : Spells [.int hi] ts₄ ts₅ := integer_eq_ok_iff.mp fifth
  have close : Spells [.rightBracket] ts₅ ts₆ := expect_eq_ok_iff.mp sixth
  rw [next_eq_ok_iff.mp first, asDefinition_eq_ok_iff.mp named]
  split at h
  · next range bounds =>
    unfold Range.ofBounds? at bounds
    split at bounds <;> cases bounds
    cases h
    refine spells_cons.mpr ⟨value.line, ts₁, rfl, ?_⟩
    exact spells_append.mpr ⟨ts₂, bracket, spells_append.mpr ⟨ts₃, lower, spells_append.mpr
      ⟨ts₄, comma, spells_append.mpr ⟨ts₅, upper, close⟩⟩⟩⟩
  · cases h

theorem rangeNote_of_spells (line : Nat) {name : String} {range : Range}
    (spelled : Spells [.value name, .leftBracket, .int range.lo, .comma, .int range.hi,
      .rightBracket]
      ts rest) :
    rangeNote line ts = .ok (⟨line, name, range⟩, rest) := by
  simp only [spells_cons, spells_nil] at spelled
  obtain ⟨_, _, rfl, _, _, rfl, _, _, rfl, _, _, rfl, _, _, rfl, _, _, rfl, rfl⟩ := spelled
  have bounds : Range.ofBounds? range.lo range.hi = some range := dif_pos range.lo_le_hi
  simp [rangeNote, next, asDefinition, expect, integer, bounds]

theorem spells_of_returned (ts : List Lexeme) :
    Spells ((returned ts).1.toList.map Operand.token) ts (returned ts).2 := by
  unfold returned
  split <;> simp [Operand.token]

theorem returned_of_spells {value : Operand} (spelled : Spells [value.token] ts rest) :
    returned ts = (some value, rest) := by
  simp only [spells_cons, spells_nil] at spelled
  obtain ⟨line, _, rfl, rfl⟩ := spelled
  cases value <;> rfl

end Reader

end Draft

end BranchTrim
