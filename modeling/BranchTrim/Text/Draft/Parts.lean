import BranchTrim.Refusal
import BranchTrim.Text.Draft

/-!
Readers for the parts of a draft. Each takes lexemes from the front of a list and returns the rest,
which is shorter.
-/

set_option autoImplicit false

namespace BranchTrim

namespace Draft

abbrev WithRest (α : Type) := α × List Lexeme

def unexpected {α : Type} (what : Expectation) (found : Lexeme) : Except ParseError α :=
  .error (.onLine found.line (.expected what found.token))

def next (what : Expectation) : List Lexeme → Except ParseError (WithRest Lexeme)
  | [] => .error (.atEnd what)
  | t :: ts => .ok (t, ts)

def expect (token : Token) (what : Expectation) (ts : List Lexeme) :
    Except ParseError (List Lexeme) := do
  let (t, ts) ← next what ts
  if t.token = token then .ok ts else unexpected what t

/-- Reads a bare word, together with its line. -/
def ident (what : Expectation) (ts : List Lexeme) : Except ParseError (WithRest Definition) := do
  let (t, ts) ← next what ts
  match t.token with
  | .ident word => .ok (⟨t.line, word⟩, ts)
  | _ => unexpected what t

def globalName (what : Expectation) (ts : List Lexeme) : Except ParseError (WithRest String) := do
  let (t, ts) ← next what ts
  match t.token with
  | .global name => .ok (name, ts)
  | _ => unexpected what t

def integer (ts : List Lexeme) : Except ParseError (WithRest Int64) := do
  let (t, ts) ← next .integer ts
  match t.token with
  | .int word => .ok (word, ts)
  | _ => unexpected .integer t

def asDefinition (what : Expectation) (t : Lexeme) : Except ParseError Definition :=
  match t.token with
  | .value name => .ok ⟨t.line, name⟩
  | _ => unexpected what t

def asOperand (t : Lexeme) : Except ParseError Operand :=
  match t.token with
  | .value name => .ok (.named name)
  | .int word => .ok (.const word)
  | _ => unexpected .operand t

def operand (ts : List Lexeme) : Except ParseError (WithRest Operand) := do
  let (t, ts) ← next .operand ts
  return (← asOperand t, ts)

def twoOperands (ts : List Lexeme) : Except ParseError (WithRest (Operand × Operand)) := do
  let (lhs, ts) ← operand ts
  let ts ← expect .comma .comma ts
  let (rhs, ts) ← operand ts
  return ((lhs, rhs), ts)

/-- Reads items of one lexeme each, divided by commas and ended by a closing parenthesis. -/
def items {α : Type} (what : Expectation) (item : Lexeme → Except ParseError α) :
    List Lexeme → Except ParseError (WithRest (List α))
  | [] => .error (.atEnd what)
  | t :: [] => do
    let _ ← item t
    .error (.atEnd .commaOrRightParen)
  | t :: s :: ts => do
    let x ← item t
    match s.token with
    | .comma =>
      let (xs, ts) ← items what item ts
      return (x :: xs, ts)
    | .rightParen => return ([x], ts)
    | _ => unexpected .commaOrRightParen s

def parenthesized {α : Type} (what : Expectation) (item : Lexeme → Except ParseError α)
    (ts : List Lexeme) : Except ParseError (WithRest (List α)) := do
  match ← expect .leftParen .leftParen ts with
  | ⟨.rightParen, _⟩ :: ts => return ([], ts)
  | ts => items what item ts

def operation (ts : List Lexeme) : Except ParseError (WithRest (Operation Operand)) := do
  let (opcode, ts) ← ident .instruction ts
  match BinOp.ofMnemonic? opcode.name with
  | some op =>
    let ((lhs, rhs), ts) ← twoOperands ts
    return (.binary op lhs rhs, ts)
  | none =>
    if opcode.name = "icmp" then
      let (word, ts) ← ident .predicate ts
      match Predicate.ofMnemonic? word.name with
      | some pred =>
        let ((lhs, rhs), ts) ← twoOperands ts
        return (.compare pred lhs rhs, ts)
      | none => unexpected .predicate ⟨.ident word.name, word.line⟩
    else if opcode.name = "copy" then
      let (value, ts) ← operand ts
      return (.copy value, ts)
    else if opcode.name = "call" then
      let (callee, ts) ← globalName .callee ts
      let (args, ts) ← parenthesized .operand asOperand ts
      return (.call callee args, ts)
    else .error (.onLine opcode.line (.unknownOpcode opcode.name))

/-- Reads the rest of a range note that starts on the given line. -/
def rangeNote (line : Nat) (ts : List Lexeme) : Except ParseError (WithRest RangeNote) := do
  let (t, ts) ← next .value ts
  let value ← asDefinition .value t
  let ts ← expect .leftBracket .leftBracket ts
  let (lo, ts) ← integer ts
  let ts ← expect .comma .comma ts
  let (hi, ts) ← integer ts
  let ts ← expect .rightBracket .rightBracket ts
  match Range.ofBounds? lo hi with
  | some range => return (⟨line, value.name, range⟩, ts)
  | none => .error (.onLine line (.invalidRange lo hi))

def returned (ts : List Lexeme) : Option Operand × List Lexeme :=
  match ts with
  | ⟨.value name, _⟩ :: ts => (some (.named name), ts)
  | ⟨.int word, _⟩ :: ts => (some (.const word), ts)
  | _ => (none, ts)

def statement (block : DraftBlock) (ts : List Lexeme) :
    Except ParseError (WithRest DraftBlock) := do
  let (t, rest) ← next .statement ts
  match t.token with
  | .value name =>
    let ts ← expect .equals .equals rest
    let (op, ts) ← operation ts
    return ({ block with insts := block.insts ++ [⟨t.line, some name, op⟩] }, ts)
  | .ident word =>
    if word = "jmp" then
      let (target, ts) ← ident .blockLabel rest
      return ({ block with term := some (t.line, .jump target.name) }, ts)
    else if word = "br" then
      let (cond, ts) ← operand rest
      let ts ← expect .comma .comma ts
      let (whenTrue, ts) ← ident .blockLabel ts
      let ts ← expect .comma .comma ts
      let (whenFalse, ts) ← ident .blockLabel ts
      return ({ block with
        term := some (t.line, .branch cond whenTrue.name whenFalse.name) }, ts)
    else if word = "ret" then
      let (value, ts) := returned rest
      return ({ block with term := some (t.line, .ret value) }, ts)
    else
      let (op, ts) ← operation ts
      return ({ block with insts := block.insts ++ [⟨t.line, none, op⟩] }, ts)
  | _ => unexpected .statement t

/-! Every reader uses up at least one lexeme. -/

private theorem length_next {what : Expectation} {ts rest : List Lexeme} {t : Lexeme}
    (h : next what ts = .ok (t, rest)) : ts.length = rest.length + 1 := by
  cases ts with
  | nil => cases h
  | cons s ts => cases h; rfl

theorem length_expect {token : Token} {what : Expectation} {ts rest : List Lexeme}
    (h : expect token what ts = .ok rest) : rest.length < ts.length := by
  obtain ⟨⟨t, ts'⟩, first, h⟩ := bind_eq_ok h
  have := length_next first
  dsimp only at h
  split at h
  · cases h; omega
  · cases h

theorem length_ident {what : Expectation} {ts rest : List Lexeme} {word : Definition}
    (h : ident what ts = .ok (word, rest)) : rest.length < ts.length := by
  obtain ⟨⟨t, ts'⟩, first, h⟩ := bind_eq_ok h
  have := length_next first
  dsimp only at h
  split at h
  · cases h; omega
  · cases h

theorem length_globalName {what : Expectation} {ts rest : List Lexeme} {name : String}
    (h : globalName what ts = .ok (name, rest)) : rest.length < ts.length := by
  obtain ⟨⟨t, ts'⟩, first, h⟩ := bind_eq_ok h
  have := length_next first
  dsimp only at h
  split at h
  · cases h; omega
  · cases h

private theorem length_integer {ts rest : List Lexeme} {word : Int64}
    (h : integer ts = .ok (word, rest)) : rest.length < ts.length := by
  obtain ⟨⟨t, ts'⟩, first, h⟩ := bind_eq_ok h
  have := length_next first
  dsimp only at h
  split at h
  · cases h; omega
  · cases h

private theorem length_operand {ts rest : List Lexeme} {value : Operand}
    (h : operand ts = .ok (value, rest)) : rest.length < ts.length := by
  obtain ⟨⟨t, ts'⟩, first, h⟩ := bind_eq_ok h
  obtain ⟨v, second, h⟩ := bind_eq_ok h
  have := length_next first
  cases h
  omega

private theorem length_twoOperands {ts rest : List Lexeme} {values : Operand × Operand}
    (h : twoOperands ts = .ok (values, rest)) : rest.length < ts.length := by
  obtain ⟨⟨lhs, ts₁⟩, first, h⟩ := bind_eq_ok h
  obtain ⟨ts₂, second, h⟩ := bind_eq_ok h
  obtain ⟨⟨rhs, ts₃⟩, third, h⟩ := bind_eq_ok h
  have := length_operand first
  have := length_expect second
  have := length_operand third
  cases h
  dsimp only at *
  omega

private theorem length_items {α : Type} {what : Expectation}
    {item : Lexeme → Except ParseError α} {ts rest : List Lexeme} {xs : List α}
    (h : items what item ts = .ok (xs, rest)) :
    rest.length < ts.length := by
  induction ts using items.induct generalizing xs rest with
  | case1 => cases h
  | case2 t =>
    obtain ⟨x, _, h⟩ := bind_eq_ok h
    cases h
  | case3 t s ts ih =>
    obtain ⟨x, _, h⟩ := bind_eq_ok h
    simp only [List.length_cons]
    split at h
    · obtain ⟨⟨xs', ts'⟩, more, h⟩ := bind_eq_ok h
      have := ih more
      cases h
      dsimp only at *
      omega
    · cases h; omega
    · cases h

theorem length_parenthesized {α : Type} {what : Expectation}
    {item : Lexeme → Except ParseError α} {ts rest : List Lexeme} {xs : List α}
    (h : parenthesized what item ts = .ok (xs, rest)) : rest.length < ts.length := by
  obtain ⟨ts₁, first, h⟩ := bind_eq_ok h
  have := length_expect first
  split at h
  · cases h
    simp only [List.length_cons] at this
    omega
  · have := length_items h
    omega

private theorem length_operation {ts rest : List Lexeme} {op : Operation Operand}
    (h : operation ts = .ok (op, rest)) : rest.length < ts.length := by
  obtain ⟨⟨opcode, ts₁⟩, first, h⟩ := bind_eq_ok h
  have := length_ident first
  simp only at h
  split at h
  · obtain ⟨⟨values, ts₂⟩, second, h⟩ := bind_eq_ok h
    have := length_twoOperands second
    cases h
    dsimp only at *
    omega
  split at h
  · obtain ⟨⟨word, ts₂⟩, second, h⟩ := bind_eq_ok h
    have := length_ident second
    simp only at h
    split at h
    · obtain ⟨⟨values, ts₃⟩, third, h⟩ := bind_eq_ok h
      have := length_twoOperands third
      cases h
      dsimp only at *
      omega
    · cases h
  split at h
  · obtain ⟨⟨value, ts₂⟩, second, h⟩ := bind_eq_ok h
    have := length_operand second
    cases h
    dsimp only at *
    omega
  split at h
  · obtain ⟨⟨callee, ts₂⟩, second, h⟩ := bind_eq_ok h
    obtain ⟨⟨args, ts₃⟩, third, h⟩ := bind_eq_ok h
    have := length_globalName second
    have := length_parenthesized third
    cases h
    dsimp only at *
    omega
  · cases h

theorem length_rangeNote {line : Nat} {ts rest : List Lexeme} {a : RangeNote}
    (h : rangeNote line ts = .ok (a, rest)) : rest.length < ts.length := by
  obtain ⟨⟨t, ts₁⟩, first, h⟩ := bind_eq_ok h
  obtain ⟨value, _, h⟩ := bind_eq_ok h
  obtain ⟨ts₂, second, h⟩ := bind_eq_ok h
  obtain ⟨⟨lo, ts₃⟩, third, h⟩ := bind_eq_ok h
  obtain ⟨ts₄, fourth, h⟩ := bind_eq_ok h
  obtain ⟨⟨hi, ts₅⟩, fifth, h⟩ := bind_eq_ok h
  obtain ⟨ts₆, sixth, h⟩ := bind_eq_ok h
  have := length_next first
  have := length_expect second
  have := length_integer third
  have := length_expect fourth
  have := length_integer fifth
  have := length_expect sixth
  split at h
  · cases h; omega
  · cases h

private theorem length_returned (ts : List Lexeme) : (returned ts).2.length ≤ ts.length := by
  unfold returned
  split <;> simp

theorem length_statement {block block' : DraftBlock} {ts rest : List Lexeme}
    (h : statement block ts = .ok (block', rest)) : rest.length < ts.length := by
  obtain ⟨⟨t, ts₁⟩, first, h⟩ := bind_eq_ok h
  have := length_next first
  simp only at h
  split at h
  · obtain ⟨ts₂, second, h⟩ := bind_eq_ok h
    obtain ⟨⟨op, ts₃⟩, third, h⟩ := bind_eq_ok h
    have := length_expect second
    have := length_operation third
    cases h
    dsimp only at *
    omega
  · split at h
    · obtain ⟨⟨target, ts₂⟩, second, h⟩ := bind_eq_ok h
      have := length_ident second
      cases h
      dsimp only at *
      omega
    split at h
    · obtain ⟨⟨cond, ts₂⟩, second, h⟩ := bind_eq_ok h
      obtain ⟨ts₃, third, h⟩ := bind_eq_ok h
      obtain ⟨⟨whenTrue, ts₄⟩, fourth, h⟩ := bind_eq_ok h
      obtain ⟨ts₅, fifth, h⟩ := bind_eq_ok h
      obtain ⟨⟨whenFalse, ts₆⟩, sixth, h⟩ := bind_eq_ok h
      have := length_operand second
      have := length_expect third
      have := length_ident fourth
      have := length_expect fifth
      have := length_ident sixth
      cases h
      dsimp only at *
      omega
    split at h
    · have := length_returned ts₁
      cases h
      omega
    · obtain ⟨⟨op, ts₂⟩, second, h⟩ := bind_eq_ok h
      have := length_operation second
      cases h
      dsimp only at *
      omega
  · cases h

end Draft

end BranchTrim
