import BranchTrim.Proofs.Text.Scanned
import BranchTrim.Text.Draft
import BranchTrim.Text.Printer

/-!
Listings: what a text says about a function, without the lines that it says it on. A listing is
spelled as a list of tokens and as a text, and the scanner finds in the text just these tokens.
-/

set_option autoImplicit false

namespace BranchTrim

def Operation.map {ν μ : Type} (h : ν → μ) : Operation ν → Operation μ
  | compare pred lhs rhs => compare pred (h lhs) (h rhs)
  | binary op lhs rhs => binary op (h lhs) (h rhs)
  | copy value => copy (h value)
  | call callee args => call callee (args.map h)

def Terminator.map {ν μ β γ : Type} (h : ν → μ) (k : β → γ) :
    Terminator ν β → Terminator μ γ
  | jump target => jump (k target)
  | branch cond whenTrue whenFalse => branch (h cond) (k whenTrue) (k whenFalse)
  | ret value => ret (value.map h)

theorem Operation.map_id {ν : Type} (op : Operation ν) : op.map id = op := by
  cases op <;> simp [Operation.map]

theorem Terminator.map_id {ν β : Type} (term : Terminator ν β) : term.map id id = term := by
  cases term <;> simp [Terminator.map]

theorem Operation.map_map {ν μ ξ : Type} (op : Operation ν) (h : ν → μ) (k : μ → ξ) :
    (op.map h).map k = op.map (k ∘ h) := by
  cases op <;> simp [Operation.map]

theorem Terminator.map_map {ν μ ξ β γ δ : Type} (term : Terminator ν β) (h : ν → μ)
    (k : β → γ) (h' : μ → ξ) (k' : γ → δ) :
    (term.map h k).map h' k' = term.map (h' ∘ h) (k' ∘ k) := by
  cases term <;> simp [Terminator.map]

structure ListedInst where
  result : Option String
  op : Operation Operand
  deriving DecidableEq, Repr

/-- A block as it is listed, possibly without its end. -/
structure ListedBlock where
  name : String
  insts : List ListedInst
  term : Option (Terminator Operand String)
  deriving DecidableEq, Repr

structure Listing where
  name : String
  params : List String
  blocks : List ListedBlock
  deriving DecidableEq, Repr

inductive Item where
  | label (name : String)
  | inst (listed : ListedInst)
  | ending (term : Terminator Operand String)
  | note (name : String) (range : Range)
  deriving DecidableEq

/-! The tokens of the parts, and their text. -/

def Operand.token : Operand → Token
  | named name => .value name
  | const word => .int word

def Operand.text (operand : Operand) : String :=
  operand.token.text

def Operation.tokens : Operation Operand → List Token
  | compare pred lhs rhs =>
    .ident "icmp" :: .ident pred.mnemonic :: [lhs.token, rhs.token].intersperse .comma
  | binary op lhs rhs => .ident op.mnemonic :: [lhs.token, rhs.token].intersperse .comma
  | copy value => [.ident "copy", value.token]
  | call callee args =>
    .ident "call" :: .global callee :: .leftParen ::
      ((args.map Operand.token).intersperse .comma ++ [.rightParen])

def Terminator.tokens : Terminator Operand String → List Token
  | jump target => [.ident "jmp", .ident target]
  | branch cond whenTrue whenFalse =>
    .ident "br" :: [cond.token, .ident whenTrue, .ident whenFalse].intersperse .comma
  | ret value => .ident "ret" :: value.toList.map Operand.token

def ListedInst.tokens : ListedInst → List Token
  | ⟨none, op⟩ => op.tokens
  | ⟨some name, op⟩ => .value name :: .equals :: op.tokens

def ListedInst.text : ListedInst → String
  | ⟨none, op⟩ => (op.map Operand.text).text
  | ⟨some name, op⟩ => "%" ++ name ++ " = " ++ (op.map Operand.text).text

namespace Item

def tokens : Item → List Token
  | label name => [.ident name, .colon]
  | inst listed => listed.tokens
  | ending term => term.tokens
  | note name range =>
    [.ident "range", .value name, .leftBracket, .int range.lo, .comma, .int range.hi, .rightBracket]

def line : Item → String
  | label name => name ++ ":\n"
  | inst listed => "  " ++ listed.text ++ "\n"
  | ending term => "  " ++ (term.map Operand.text id).text ++ "\n"
  | note name range => "  range %" ++ name ++ " " ++ range.text ++ "\n"

end Item

def ListedBlock.items (b : ListedBlock) : List Item :=
  .label b.name :: (b.insts.map .inst ++ b.term.toList.map .ending)

namespace Listing

def header (name : String) (params : List String) : List Token :=
  .ident "func" :: .global name :: .leftParen ::
    ((params.map Token.value).intersperse .comma ++ [.rightParen, .leftBrace])

def items (l : Listing) : List Item :=
  l.blocks.flatMap ListedBlock.items

/-- The names of the parameters, and then of the results. -/
def names (l : Listing) : List String :=
  l.params ++ (l.blocks.flatMap ListedBlock.insts).filterMap ListedInst.result

def tokens (l : Listing) : List Token :=
  header l.name l.params ++ (l.items.flatMap Item.tokens ++ [.rightBrace])

def text (l : Listing) : String :=
  "func @" ++ l.name ++ "(" ++ commaSeparated (l.params.map ("%" ++ ·)) ++ ") \x7b\n" ++
    String.join (l.items.map Item.line) ++ "\x7d"

end Listing

theorem mem_of_mem_intersperse {α : Type} {x separator : α} {l : List α}
    (mem : x ∈ l.intersperse separator) : x = separator ∨ x ∈ l := by
  fun_induction List.intersperse separator l with
  | case1 => cases mem
  | case2 y => exact Or.inr mem
  | case3 y l _ ih =>
    rcases List.mem_cons.mp mem with rfl | mem
    · exact Or.inr List.mem_cons_self
    rcases List.mem_cons.mp mem with rfl | mem
    · exact Or.inl rfl
    · exact (ih mem).imp_right (List.mem_cons_of_mem y)

theorem mem_intersperse_of_mem {α : Type} {x separator : α} {l : List α} (mem : x ∈ l) :
    x ∈ l.intersperse separator := by
  fun_induction List.intersperse separator l with
  | case1 => cases mem
  | case2 y => exact mem
  | case3 y l _ ih =>
    rcases List.mem_cons.mp mem with rfl | mem
    · exact List.mem_cons_self
    · exact List.mem_cons_of_mem _ (List.mem_cons_of_mem _ (ih mem))

theorem not_mem_intersperse {α : Type} {x separator : α} {l : List α} (other : x ≠ separator)
    (absent : x ∉ l) :
    x ∉ l.intersperse separator := by
  intro mem
  rcases mem_of_mem_intersperse mem with same | mem
  · exact other same
  · exact absent mem

namespace Lexeme.Scans

variable {rest : String} {tokens : List Token}

private theorem separated (spelled : List Token)
    (ok : ∀ t ∈ spelled.intersperse .comma, t.isSpellable = true) (stops : Stops rest)
    (h : Scans rest tokens) :
    Scans (commaSeparated (spelled.map Token.text) ++ rest)
      (spelled.intersperse .comma ++ tokens) := by
  induction spelled with
  | nil => simpa [commaSeparated] using h
  | cons t spelled ih =>
    cases spelled with
    | nil => simpa [commaSeparated] using token t (ok t List.mem_cons_self) stops h
    | cons u spelled =>
      simp only [List.intersperse_cons_cons, List.forall_mem_cons] at ok
      obtain ⟨first, _, others⟩ := ok
      have later := ih others
      simp only [commaSeparated, List.map_cons, String.intercalate_cons_cons, String.append_assoc,
        List.intersperse_cons_cons, List.cons_append] at later ⊢
      refine token t first (stops_append rfl rfl _) ?_
      exact spaced .comma rfl rfl later

private theorem operation (op : Operation Operand) (ok : ∀ t ∈ op.tokens, t.isSpellable = true)
    (stops : Stops rest) (h : Scans rest tokens) :
    Scans ((op.map Operand.text).text ++ rest) (op.tokens ++ tokens) := by
  cases op with
  | compare pred lhs rhs =>
    obtain ⟨keyword, ok⟩ := List.forall_mem_cons.mp ok
    obtain ⟨predicate, operands⟩ := List.forall_mem_cons.mp ok
    simp only [Operation.map, Operation.text, Operation.tokens, String.append_assoc,
      List.cons_append]
    refine spaced (.ident "icmp") keyword rfl ?_
    refine token (.ident pred.mnemonic) predicate (stops_append rfl rfl _) (space ?_)
    exact separated [lhs.token, rhs.token] operands stops h
  | binary op lhs rhs =>
    obtain ⟨operator, operands⟩ := List.forall_mem_cons.mp ok
    simp only [Operation.map, Operation.text, Operation.tokens, String.append_assoc,
      List.cons_append]
    refine token (.ident op.mnemonic) operator (stops_append rfl rfl _) (space ?_)
    exact separated [lhs.token, rhs.token] operands stops h
  | copy value =>
    obtain ⟨keyword, operands⟩ := List.forall_mem_cons.mp ok
    simp only [Operation.map, Operation.text, Operation.tokens, String.append_assoc,
      List.cons_append]
    refine spaced (.ident "copy") keyword rfl ?_
    exact token value.token (operands _ List.mem_cons_self) stops h
  | call callee args =>
    obtain ⟨keyword, ok⟩ := List.forall_mem_cons.mp ok
    obtain ⟨name, ok⟩ := List.forall_mem_cons.mp ok
    obtain ⟨_, ok⟩ := List.forall_mem_cons.mp ok
    obtain ⟨operands, _⟩ := List.forall_mem_append.mp ok
    simp only [Operation.map, Operation.text, Operation.tokens, String.append_assoc,
      List.cons_append, List.append_assoc]
    refine split "call " "@" rfl (spaced (.ident "call") keyword rfl ?_)
    rw [← String.append_assoc]
    refine token (.global callee) name (stops_append rfl rfl _) (mark rfl rfl ?_)
    have texts : args.map Operand.text = (args.map Operand.token).map Token.text :=
      (List.map_map ..).symm
    rw [texts]
    exact separated _ operands (stops_append rfl rfl _) (mark rfl rfl h)

private theorem terminator (term : Terminator Operand String)
    (ok : ∀ t ∈ term.tokens, t.isSpellable = true)
    (stops : Stops rest) (h : Scans rest tokens) :
    Scans ((term.map Operand.text id).text ++ rest) (term.tokens ++ tokens) := by
  cases term with
  | jump target =>
    obtain ⟨keyword, label⟩ := List.forall_mem_cons.mp ok
    simp only [Terminator.map, Terminator.text, Terminator.tokens, String.append_assoc,
      List.cons_append]
    refine spaced (.ident "jmp") keyword rfl ?_
    exact token (.ident target) (label _ List.mem_cons_self) stops h
  | branch cond whenTrue whenFalse =>
    obtain ⟨keyword, parts⟩ := List.forall_mem_cons.mp ok
    simp only [Terminator.map, Terminator.text, Terminator.tokens, String.append_assoc,
      List.cons_append]
    refine spaced (.ident "br") keyword rfl ?_
    exact separated [cond.token, .ident whenTrue, .ident whenFalse] parts stops h
  | ret value =>
    cases value with
    | none => exact token (.ident "ret") (ok _ List.mem_cons_self) stops h
    | some value =>
      obtain ⟨keyword, operand⟩ := List.forall_mem_cons.mp ok
      simp only [Terminator.map, Option.map, Terminator.text, Terminator.tokens,
        String.append_assoc, List.cons_append]
      refine spaced (.ident "ret") keyword rfl ?_
      exact token value.token (operand _ List.mem_cons_self) stops h

private theorem listedInst (inst : ListedInst) (ok : ∀ t ∈ inst.tokens, t.isSpellable = true)
    (stops : Stops rest) (h : Scans rest tokens) :
    Scans (inst.text ++ rest) (inst.tokens ++ tokens) := by
  obtain ⟨result, op⟩ := inst
  cases result with
  | none => exact operation op ok stops h
  | some name =>
    obtain ⟨result, ok⟩ := List.forall_mem_cons.mp ok
    obtain ⟨_, ok⟩ := List.forall_mem_cons.mp ok
    have spelled : ListedInst.text ⟨some name, op⟩ ++ rest =
        "%" ++ name ++ (" " ++ ("= " ++ ((op.map Operand.text).text ++ rest))) := by
      simp only [ListedInst.text, String.append_assoc]
      rfl
    rw [spelled]
    refine token (.value name) result (stops_append rfl rfl _) (space ?_)
    exact spaced .equals rfl rfl (operation op ok stops h)

private theorem item (i : Item) (ok : ∀ t ∈ i.tokens, t.isSpellable = true)
    (h : Scans rest tokens) :
    Scans (i.line ++ rest) (i.tokens ++ tokens) := by
  have ended : Stops ("\n" ++ rest) := stops_append rfl rfl rest
  cases i with
  | label name =>
    simp only [Item.line, Item.tokens, String.append_assoc, List.cons_append]
    refine token (.ident name) (ok _ List.mem_cons_self) (stops_append rfl rfl _) ?_
    exact split ":" "\n" rfl (mark rfl rfl (newline h))
  | inst listed =>
    simp only [Item.line, String.append_assoc]
    exact split " " " " rfl (space (space (listedInst listed ok ended (newline h))))
  | ending term =>
    simp only [Item.line, String.append_assoc]
    exact split " " " " rfl (space (space (terminator term ok ended (newline h))))
  | note name range =>
    obtain ⟨keyword, ok⟩ := List.forall_mem_cons.mp ok
    obtain ⟨value, _⟩ := List.forall_mem_cons.mp ok
    simp only [Item.line, Item.tokens, Range.text, Range.boundsText, String.append_assoc,
      List.cons_append]
    refine split "  range " "%" rfl
      (split " " " range " rfl (space (split " " "range " rfl (space ?_))))
    refine spaced (.ident "range") keyword rfl ?_
    rw [← String.append_assoc]
    refine token (.value name) value (stops_append rfl rfl _) (space (mark rfl rfl ?_))
    refine token (.int range.lo) rfl (stops_append rfl rfl _) (spaced .comma rfl rfl ?_)
    exact token (.int range.hi) rfl (stops_append rfl rfl _) (mark rfl rfl (newline h))

private theorem items (listed : List Item)
    (ok : ∀ i ∈ listed, ∀ t ∈ i.tokens, t.isSpellable = true) (h : Scans rest tokens) :
    Scans (String.join (listed.map Item.line) ++ rest) (listed.flatMap Item.tokens ++ tokens) := by
  induction listed with
  | nil => simpa using h
  | cons i listed ih =>
    obtain ⟨first, others⟩ := List.forall_mem_cons.mp ok
    simp only [List.map_cons, String.join_cons, String.append_assoc, List.flatMap_cons,
      List.append_assoc]
    exact item i first (ih others)

private theorem listing (l : Listing) (ok : ∀ t ∈ l.tokens, t.isSpellable = true)
    (h : Scans rest tokens) :
    Scans (l.text ++ rest) (l.tokens ++ tokens) := by
  obtain ⟨head, body⟩ := List.forall_mem_append.mp ok
  obtain ⟨keyword, head⟩ := List.forall_mem_cons.mp head
  obtain ⟨name, head⟩ := List.forall_mem_cons.mp head
  obtain ⟨_, head⟩ := List.forall_mem_cons.mp head
  have params := (List.forall_mem_append.mp head).1
  have items_ok : ∀ i ∈ l.items, ∀ t ∈ i.tokens, t.isSpellable = true :=
    fun i mem t listed =>
    body t (List.mem_append_left _ (List.mem_flatMap.mpr ⟨i, mem, listed⟩))
  simp only [Listing.text, Listing.tokens, Listing.header, String.append_assoc, List.cons_append,
    List.append_assoc, List.nil_append]
  refine split "func " "@" rfl (spaced (.ident "func") keyword rfl ?_)
  rw [← String.append_assoc]
  refine token (.global l.name) name (stops_append rfl rfl _) (mark rfl rfl ?_)
  have texts : l.params.map ("%" ++ ·) = (l.params.map Token.value).map Token.text := by
    rw [List.map_map]
    rfl
  rw [texts]
  refine separated _ params (stops_append rfl rfl _) ?_
  refine split ") " "\x7b\n" rfl (spaced .rightParen rfl rfl ?_)
  refine split "\x7b" "\n" rfl (mark rfl rfl (newline ?_))
  exact items l.items items_ok (mark rfl rfl h)

theorem listings (gap : String)
    (skipped : ∀ rest tokens, Scans rest tokens → Scans (gap ++ rest) tokens)
    {listings : List Listing}
    (ok : ∀ t ∈ listings.flatMap Listing.tokens, t.isSpellable = true) :
    Scans (String.join (listings.map fun l => l.text ++ gap))
      (listings.flatMap Listing.tokens) := by
  induction listings with
  | nil => exact Scans.nil
  | cons l listings ih =>
    rw [List.flatMap_cons] at ok ⊢
    obtain ⟨first, others⟩ := List.forall_mem_append.mp ok
    rw [List.map_cons, String.join_cons, String.append_assoc]
    exact listing l first (skipped _ _ (ih others))

end Lexeme.Scans

end BranchTrim
