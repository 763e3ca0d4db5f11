import BranchTrim.Proofs.Text.Resolved

/-!
Reading a text and printing what was read. The printed text has the same tokens in the same order,
except for the range notes, which are not printed.
-/

set_option autoImplicit false

namespace BranchTrim

namespace Token

def withoutNotes : List Token → List Token
  | .ident "range" :: .value _ :: .leftBracket :: .int _ :: .comma :: .int _ ::
    .rightBracket :: ts =>
    withoutNotes ts
  | t :: ts => t :: withoutNotes ts
  | [] => []

private theorem withoutNotes_cons {t : Token} {ts : List Token}
    (plain : t = .ident "range" → ∀ name, ts.head? ≠ some (.value name)) :
    withoutNotes (t :: ts) = t :: withoutNotes ts := by
  rw [withoutNotes.eq_def]
  split
  · next spelled =>
    cases spelled
    exact absurd rfl (plain rfl _)
  · next spelled =>
    cases spelled
    rfl
  · next spelled => cases spelled

private theorem withoutNotes_append {ts : List Token} (plain : .ident "range" ∉ ts)
    (more : List Token) :
    withoutNotes (ts ++ more) = ts ++ withoutNotes more := by
  induction ts with
  | nil => rfl
  | cons t ts ih =>
    obtain ⟨first, others⟩ := not_or.mp (mt List.mem_cons.mpr plain)
    rw [List.cons_append, withoutNotes_cons fun same => absurd same.symm first, ih others,
      List.cons_append]

private theorem mem_of_mem_withoutNotes {t : Token} {ts : List Token}
    (mem : t ∈ withoutNotes ts) : t ∈ ts := by
  fun_induction withoutNotes ts with
  | case1 name lo hi ts ih => simp [ih mem]
  | case2 u ts _ ih =>
    rcases List.mem_cons.mp mem with rfl | mem
    · exact List.mem_cons_self
    · exact List.mem_cons_of_mem u (ih mem)
  | case3 => cases mem

end Token

open Token (withoutNotes withoutNotes_cons withoutNotes_append)

private theorem withoutNotes_note (name : String) (range : Range) (more : List Token) :
    withoutNotes ((Item.note name range).tokens ++ more) = withoutNotes more := by
  simp [Item.tokens, withoutNotes]

private theorem range_ne_operand (x : Operand) : Token.ident "range" ≠ x.token := by
  cases x <;> exact Token.noConfusion

private theorem range_not_mem_inst (listed : ListedInst) : .ident "range" ∉ listed.tokens := by
  have operation : ∀ op : Operation Operand, .ident "range" ∉ op.tokens := by
    intro op
    cases op with
    | compare pred lhs rhs =>
      cases pred <;> simp [Operation.tokens, Predicate.mnemonic, range_ne_operand]
    | binary op lhs rhs =>
      cases op <;> simp [Operation.tokens, BinOp.mnemonic, range_ne_operand]
    | copy value => simp [Operation.tokens, range_ne_operand]
    | call callee args =>
      have operands : Token.ident "range" ∉ args.map Operand.token := by
        simp [(range_ne_operand _).symm]
      simpa [Operation.tokens] using not_mem_intersperse Token.noConfusion operands
  obtain ⟨result, op⟩ := listed
  cases result with
  | none => exact operation op
  | some name => simpa [ListedInst.tokens] using operation op

/-- Items other than notes stay, unless a target named like a note would swallow what follows. -/
private theorem withoutNotes_item {item : Item} {more : List Token} (kept : item.note? = none)
    (ahead : ∀ term, item = .ending term → ∀ name, more.head? ≠ some (.value name)) :
    withoutNotes (item.tokens ++ more) = item.tokens ++ withoutNotes more := by
  cases item with
  | label name =>
    rw [Item.tokens, List.cons_append, withoutNotes_cons (by simp), List.cons_append,
      withoutNotes_cons (by simp)]
    rfl
  | note name range => cases kept
  | inst listed => exact withoutNotes_append (range_not_mem_inst listed) more
  | ending term =>
    have next := ahead term rfl
    cases term with
    | jump target =>
      simp only [Item.tokens, Terminator.tokens, List.cons_append, List.nil_append]
      rw [withoutNotes_cons (by simp), withoutNotes_cons fun _ => next]
    | branch cond whenTrue whenFalse =>
      simp only [Item.tokens, Terminator.tokens, List.intersperse, List.cons_append,
        List.nil_append]
      rw [withoutNotes_cons (by simp),
        withoutNotes_cons fun same => absurd same.symm (range_ne_operand cond),
        withoutNotes_cons (by simp), withoutNotes_cons (by simp), withoutNotes_cons (by simp),
        withoutNotes_cons fun _ => next]
    | ret value =>
      have plain : .ident "range" ∉ (Terminator.ret (β := String) value).tokens := by
        cases value <;> simp [Terminator.tokens, range_ne_operand]
      exact withoutNotes_append plain more

private theorem withoutNotes_items {items : List Item} {blocks final : List ListedBlock}
    (placed : Item.placeAll items blocks = some final) (more : List Token) :
    withoutNotes (items.flatMap Item.tokens ++ .rightBrace :: more) =
      (items.filter (·.note?.isNone)).flatMap Item.tokens ++ .rightBrace :: withoutNotes more := by
  induction items generalizing blocks with
  | nil => exact withoutNotes_cons (by simp)
  | cons item items ih =>
    obtain ⟨next, step, others⟩ := Option.bind_eq_some_iff.mp placed
    rw [List.flatMap_cons, List.append_assoc]
    cases said : item.note? with
    | some written =>
      cases item <;> cases said
      rw [withoutNotes_note, ih others]
      rfl
    | none =>
      have ahead : ∀ term, item = .ending term →
          ∀ name, (items.flatMap Item.tokens ++ .rightBrace :: more).head? ≠
            some (.value name) := by
        rintro term rfl name
        obtain ⟨b, opened, _, _, rfl⟩ := Item.place_ending_eq_some_iff.mp step
        obtain ⟨token, later, tokens, word⟩ := Item.word_ahead rfl others
        have front : items.flatMap Item.tokens ++ .rightBrace :: more =
            token :: (later ++ more) := by
          rw [← List.cons_append, ← tokens, List.append_assoc, List.singleton_append]
        rcases word with rfl | ⟨word, rfl⟩ <;> simp [front]
      rw [withoutNotes_item said ahead, ih others]
      simp [said]

private theorem range_not_mem_header (name : String) (params : List String) :
    .ident "range" ∉ Listing.header name params := by
  have values : Token.ident "range" ∉ params.map Token.value := by simp
  simpa [Listing.header] using not_mem_intersperse Token.noConfusion values

private theorem Draft.withoutNotes_function {ts rest : List Lexeme} {draft : Draft}
    (read : function ts = .ok (draft, rest)) :
    withoutNotes (ts.map Lexeme.token) =
      draft.listing.tokens ++ withoutNotes (rest.map Lexeme.token) := by
  obtain ⟨items, ⟨used, rfl, spelled⟩, placed, _⟩ := spells_of_function read
  have items_eq : draft.listing.items = items.filter (·.note?.isNone) := by
    simpa [Listing.items, Draft.listing] using Item.items_of_placeAll placed
  rw [List.map_append, spelled, List.append_assoc,
    withoutNotes_append (range_not_mem_header _ _), List.append_assoc, List.singleton_append,
    withoutNotes_items placed, ← items_eq, Listing.tokens]
  simp [Draft.listing]

namespace Parsed

private theorem withoutNotes_ofLexemes {ts : List Lexeme} {functions : List Parsed}
    (read : ofLexemes ts = .ok functions) :
    withoutNotes (ts.map Lexeme.token) = functions.flatMap fun p => p.func.listing.tokens := by
  fun_induction ofLexemes ts generalizing functions with
  | case1 =>
    cases read
    rfl
  | case2 => cases read
  | case3 t ts draft rest drafted ih =>
    obtain ⟨first, resolved, read⟩ := bind_eq_ok read
    obtain ⟨later, others, read⟩ := bind_eq_ok read
    cases read
    rw [Draft.withoutNotes_function drafted, ih others, List.flatMap_cons,
      (Draft.listing_of_resolve resolved).1]

private theorem print_eq_of_mem_ofLexemes {ts : List Lexeme} {functions : List Parsed} {p : Parsed}
    (read : ofLexemes ts = .ok functions) (mem : p ∈ functions) :
    p.func.print = .ok p.func.listing.text := by
  obtain ⟨draft, resolved⟩ := resolved_of_mem_ofLexemes read mem
  exact Function.print_eq (Draft.consistent_resolve resolved) (Draft.listing_of_resolve resolved).2

end Parsed

/--
Reading a text and printing the functions one after the other keeps every token in its place, and
drops the range notes alone.
-/
theorem Parsed.printing_keeps_tokens {text : String} {functions : List Parsed}
    (read : readAll text = .ok functions) :
    ∃ source texts printed, Lexeme.ofText text = .ok source ∧
      functions.mapM (fun p => p.func.print) = .ok texts ∧
      Lexeme.ofText (String.join texts) = .ok printed ∧
      printed.map Lexeme.token = Token.withoutNotes (source.map Lexeme.token) := by
  obtain ⟨source, scanned, parsed⟩ := bind_eq_ok read
  have texts : functions.mapM (fun p => p.func.print) =
      .ok ((functions.map fun p => p.func.listing).map Listing.text) := by
    rw [List.map_map]
    exact mapM_eq_map fun p mem => print_eq_of_mem_ofLexemes parsed mem
  have tokens : withoutNotes (source.map Lexeme.token) =
      (functions.map fun p => p.func.listing).flatMap Listing.tokens := by
    rw [withoutNotes_ofLexemes parsed, List.flatMap_map]
  have spellable : ∀ t ∈ withoutNotes (source.map Lexeme.token), t.isSpellable = true := by
    intro t mem
    obtain ⟨l, listed, rfl⟩ := List.mem_map.mp (Token.mem_of_mem_withoutNotes mem)
    exact Lexeme.isSpellable_of_scan scanned l listed
  rw [tokens] at spellable
  obtain ⟨printed, rescanned, found⟩ := Lexeme.Scans.listings "" (by simp) spellable 1
  simp only [String.append_empty] at rescanned
  exact ⟨source, _, printed, scanned, texts, rescanned, found.trans tokens.symm⟩

/-- A text with notes between its items and with labels that are words of the language. -/
def notedLoop : String :=
  "func @(%) \x7b range: range % [-9, 3] br %, range, ret range % [5, 5] ret: ret range % [1, 2] \x7d"

theorem Parsed.printing_keeps_tokens_notedLoop :
    ∃ functions, readAll notedLoop = .ok functions ∧
      ∃ source texts printed, Lexeme.ofText notedLoop = .ok source ∧
        functions.mapM (fun p => p.func.print) = .ok texts ∧
        Lexeme.ofText (String.join texts) = .ok printed ∧
        printed.map Lexeme.token = Token.withoutNotes (source.map Lexeme.token) := by
  have accepted : (readAll notedLoop).isOk = true := by decide +kernel
  cases read : readAll notedLoop with
  | error e => simp [read, Except.isOk, Except.toBool] at accepted
  | ok functions => exact ⟨functions, rfl, printing_keeps_tokens read⟩

end BranchTrim
