import BranchTrim.Refusal
import BranchTrim.Text.Lexeme
import Mathlib.Data.List.Basic

/-!
What the scanner finds in a text that was spelled token by token. A token is found again where it
was spelled, if no character after it belongs to the same name or number; blank characters between
tokens are skipped.
-/

set_option autoImplicit false

namespace BranchTrim

namespace Text

private theorem ofDigits_toDigits (n : Nat) : ofDigits (Nat.toDigits 10 n) = n := by
  have round : Nat.ofDigitChars 10 (Nat.toDigits 10 n) 0 = n :=
    Nat.ofDigitChars_toDigits (by decide) (by decide)
  rwa [Nat.ofDigitChars_eq_foldl] at round

private theorem all_isDigit_toDigits (n : Nat) : (Nat.toDigits 10 n).all Char.isDigit = true :=
  List.all_eq_true.mpr fun _ mem => Nat.isDigit_of_mem_toDigits (by decide) (by decide) mem

private theorem readDigits?_toDigits (sign : Int) (n : Nat) :
    readDigits? sign (Nat.toDigits 10 n) = word? (sign * n) := by
  have some_digit : Nat.toDigits 10 n ≠ [] := Nat.toDigits_ne_nil
  simp [readDigits?, some_digit, all_isDigit_toDigits, ofDigits_toDigits]

private theorem word?_toInt (word : Int64) : word? word.toInt = some word := by
  have fits : Int64.minValue.toInt ≤ word.toInt ∧ word.toInt ≤ Int64.maxValue.toInt :=
    ⟨word.minValue_le_toInt, word.toInt_le⟩
  rw [word?, if_pos fits, Int64.ofInt_toInt]

private theorem readWord?_decimalChars (word : Int64) :
    readWord? (decimalChars word.toInt) = some word := by
  rw [← word?_toInt word]
  cases word.toInt with
  | negSucc n =>
    simp only [decimalChars, readWord?, readDigits?_toDigits]
    congr 1
    omega
  | ofNat n =>
    have unsigned : readWord? (Nat.toDigits 10 n) = readDigits? 1 (Nat.toDigits 10 n) := by
      unfold readWord?
      split
      · next minus =>
        have digit := all_isDigit_toDigits n
        rw [minus] at digit
        cases digit
      · rfl
    simp [decimalChars, unsigned, readDigits?_toDigits]

private theorem exists_cons_of_decimalChars (n : Int) :
    ∃ c cs, decimalChars n = c :: cs ∧ (c = '-' ∨ c.isDigit = true) ∧
      cs.all Char.isDigit = true := by
  cases n with
  | negSucc n => exact ⟨'-', _, rfl, Or.inl rfl, all_isDigit_toDigits (n + 1)⟩
  | ofNat n =>
    have digits := all_isDigit_toDigits n
    cases spelled : Nat.toDigits 10 n with
    | nil => exact absurd spelled Nat.toDigits_ne_nil
    | cons c cs =>
      rw [spelled, List.all_cons, Bool.and_eq_true] at digits
      exact ⟨c, cs, spelled, Or.inr digits.1, digits.2⟩

theorem isBlank_eq_false {c : Char} (low : 32 < c.toNat) (high : c.toNat < 127) :
    isBlank c = false := by
  simp only [isBlank, blankIntervals, List.any_cons, List.any_nil, Bool.or_false,
    Bool.or_eq_false_iff, Bool.and_eq_false_iff, decide_eq_false_iff_not]
  omega

end Text

namespace Token

def marks : List Char :=
  [':', ',', '=', '(', ')', '[', ']', '\x7b', '\x7d']

theorem mem_marks_of_ofPunctuation? {c : Char} {t : Token} (h : ofPunctuation? c = some t) :
    c ∈ marks := by
  unfold ofPunctuation? at h
  split at h
  case h_10 => cases h
  all_goals decide

theorem ofPunctuation?_eq_none {c : Char} (other : c ∉ marks) : ofPunctuation? c = none :=
  Option.eq_none_iff_forall_ne_some.mpr fun _ h => other (mem_marks_of_ofPunctuation? h)

end Token

namespace Lexeme

def isName (name : String) : Bool :=
  name.toList.all isNameChar

def isWord (word : String) : Bool :=
  match word.toList with
  | [] => false
  | c :: cs => isNameStart c && cs.all isNameChar

theorem bounds_of_isDigit {c : Char} (digit : c.isDigit = true) :
    48 ≤ c.toNat ∧ c.toNat ≤ 57 := by
  simpa [Char.isDigit_iff_toNat] using digit

theorem bounds_of_isNameStart {c : Char} (start : isNameStart c = true) :
    65 ≤ c.toNat ∧ c.toNat ≤ 122 := by
  rcases Bool.or_eq_true_iff.mp start with letter | underscore
  · have sorts : c.isUpper = true ∨ c.isLower = true := Bool.or_eq_true_iff.mp letter
    rcases sorts with upper | lower
    · obtain ⟨low, high⟩ := of_decide_eq_true upper
      have : 65 ≤ c.toNat := UInt32.le_iff_toNat_le.mp low
      have : c.toNat ≤ 90 := UInt32.le_iff_toNat_le.mp high
      omega
    · obtain ⟨low, high⟩ := Bool.and_eq_true_iff.mp lower
      have : 97 ≤ c.toNat := UInt32.le_iff_toNat_le.mp (of_decide_eq_true low)
      have : c.toNat ≤ 122 := UInt32.le_iff_toNat_le.mp (of_decide_eq_true high)
      omega
  · obtain rfl := beq_iff_eq.mp underscore
    decide

/-! One step of the scanner, by the character in front. -/

section Step

variable {line : Nat} {c : Char} {cs : List Char}

private theorem scan_mark {t : Token} (mark : Token.ofPunctuation? c = some t) :
    scan line (c :: cs) = List.cons ⟨t, line⟩ <$> scan line cs := by
  rw [scan]
  simp [mark]

private theorem scan_value :
    scan line ('%' :: cs) =
      List.cons ⟨.value (String.ofList (cs.takeWhile isNameChar)), line⟩ <$>
      scan line (cs.dropWhile isNameChar) := by
  rw [scan]
  simp [Token.ofPunctuation?]

private theorem scan_global :
    scan line ('@' :: cs) =
      List.cons ⟨.global (String.ofList (cs.takeWhile isNameChar)), line⟩ <$>
      scan line (cs.dropWhile isNameChar) := by
  rw [scan]
  simp [Token.ofPunctuation?]

private theorem scan_newline : scan line ('\n' :: cs) = scan (line + 1) cs := by
  rw [scan]
  simp [Token.ofPunctuation?]

private theorem scan_space : scan line (' ' :: cs) = scan line cs := by
  rw [scan]
  simp [Token.ofPunctuation?, (by decide : Text.isBlank ' ' = true)]

theorem plain_of_start (start : c = '-' ∨ c.isDigit = true ∨ isNameStart c = true) :
    c ∉ '#' :: '%' :: '@' :: '\n' :: Token.marks ∧ Text.isBlank c = false := by
  constructor
  · intro mem
    have special : ('#' :: '%' :: '@' :: '\n' :: Token.marks).all
        (fun d => !(d == '-' || d.isDigit || isNameStart d)) = true := rfl
    have other := List.all_eq_true.mp special c mem
    rcases start with rfl | digit | letter <;> simp_all
  · rcases start with rfl | digit | letter
    · decide
    · have bounds := bounds_of_isDigit digit
      exact Text.isBlank_eq_false (by omega) (by omega)
    · have bounds := bounds_of_isNameStart letter
      exact Text.isBlank_eq_false (by omega) (by omega)

private theorem scan_int {word : Int64} (first : c = '-' ∨ c.isDigit = true)
    (read : Text.readWord? (c :: cs.takeWhile Char.isDigit) = some word) :
    scan line (c :: cs) =
      List.cons ⟨.int word, line⟩ <$> scan line (cs.dropWhile Char.isDigit) := by
  obtain ⟨plain, solid⟩ := plain_of_start (first.imp_right Or.inl)
  have mark : Token.ofPunctuation? c = none :=
    Token.ofPunctuation?_eq_none fun mem => plain (by simp [mem])
  rw [scan]
  simp only [List.mem_cons, not_or] at plain
  simp [mark, plain, solid, first, read]

private theorem scan_word (start : isNameStart c = true) :
    scan line (c :: cs) =
      List.cons ⟨.ident (String.ofList (c :: cs.takeWhile isNameChar)), line⟩ <$>
      scan line (cs.dropWhile isNameChar) := by
  obtain ⟨plain, solid⟩ := plain_of_start (Or.inr (Or.inr start))
  have mark : Token.ofPunctuation? c = none :=
    Token.ofPunctuation?_eq_none fun mem => plain (by simp [mem])
  have bounds := bounds_of_isNameStart start
  have no_minus : c ≠ '-' := by
    rintro rfl
    cases start
  have no_digit : c.isDigit = false := by
    rw [← Bool.not_eq_true]
    intro digit
    have := bounds_of_isDigit digit
    omega
  rw [scan]
  simp only [List.mem_cons, not_or] at plain
  simp [mark, plain, solid, no_minus, no_digit, start]

end Step

end Lexeme

/-- Whether the scanner finds the token where it is spelled. -/
def Token.isSpellable : Token → Bool
  | ident word => Lexeme.isWord word
  | global name | value name => Lexeme.isName name
  | _ => true

namespace Lexeme

private theorem isName_takeWhile (cs : List Char) :
    isName (String.ofList (cs.takeWhile isNameChar)) = true := by
  rw [isName, String.toList_ofList]
  exact List.all_takeWhile

private theorem isSpellable_of_cons {first : Lexeme} {scanned : Except ParseError (List Lexeme)}
    {lexemes : List Lexeme} (h : (do return first :: (← scanned)) = .ok lexemes)
    (ok : first.token.isSpellable = true)
    (later : ∀ {rest : List Lexeme}, scanned = .ok rest → ∀ l ∈ rest,
      l.token.isSpellable = true) :
    ∀ l ∈ lexemes, l.token.isSpellable = true := by
  cases scanned with
  | error e => cases h
  | ok rest =>
    cases h
    exact List.forall_mem_cons.mpr ⟨ok, later rfl⟩

/-- The scanner gives no other tokens than those that can be spelled. -/
theorem isSpellable_of_scan {line : Nat} {cs : List Char} {lexemes : List Lexeme}
    (h : scan line cs = .ok lexemes) : ∀ l ∈ lexemes, l.token.isSpellable = true := by
  fun_induction scan line cs generalizing lexemes with
  | case1 =>
    cases h
    simp
  | case2 line c cs t mark ih =>
    have ok : t.isSpellable = true := by
      unfold Token.ofPunctuation? at mark
      split at mark <;> cases mark <;> rfl
    exact isSpellable_of_cons h ok ih
  | case3 line cs mark ih => exact ih h
  | case4 line cs =>
    rename_i ih
    exact isSpellable_of_cons h (isName_takeWhile cs) ih
  | case5 line cs =>
    rename_i ih
    exact isSpellable_of_cons h (isName_takeWhile cs) ih
  | case6 line cs _ _ _ _ ih => exact ih h
  | case7 line c cs _ _ _ _ _ _ ih => exact ih h
  | case8 line c cs =>
    rename_i ih
    exact isSpellable_of_cons h rfl ih
  | case9 => cases h
  | case10 line c cs _ _ _ _ _ _ _ start =>
    rename_i ih
    have ok : isWord (String.ofList (c :: cs.takeWhile isNameChar)) = true := by
      simp only [isWord, String.toList_ofList, start, Bool.true_and]
      exact List.all_takeWhile
    exact isSpellable_of_cons h ok ih
  | case11 => cases h

/-! Texts as they are spelled, from the last token to the first. -/

/-- The scanner finds the tokens in the text, whatever line this starts on. -/
def Scans (text : String) (tokens : List Token) : Prop :=
  ∀ line, ∃ lexemes, scan line text.toList = .ok lexemes ∧ lexemes.map Lexeme.token = tokens

/-- No character in front of the text can belong to a name before it. -/
def Stops (text : String) : Prop :=
  ∀ c ∈ text.toList.head?, isNameChar c = false

theorem stops_append {first : String} {c : Char} {cs : List Char} (spelled : first.toList = c :: cs)
    (other : isNameChar c = false) (rest : String) : Stops (first ++ rest) := by
  intro d mem
  simp only [String.toList_append, spelled, List.cons_append, List.head?_cons, Option.mem_def,
    Option.some.injEq] at mem
  rwa [← mem]

private theorem Stops.takeWhile_append {rest : String} (stops : Stops rest) {p : Char → Bool}
    (within : ∀ c, p c = true → isNameChar c = true) {cs : List Char} (all : cs.all p = true) :
    (cs ++ rest.toList).takeWhile p = cs ∧ (cs ++ rest.toList).dropWhile p = rest.toList := by
  have members : ∀ c ∈ cs, p c = true := List.all_eq_true.mp all
  rw [List.takeWhile_append_of_pos members, List.dropWhile_append_of_pos members]
  cases after : rest.toList with
  | nil => simp
  | cons c cs =>
    have outside : p c = false := by
      rw [← Bool.not_eq_true]
      intro inside
      have := stops c (by simp [after])
      rw [within c inside] at this
      cases this
    simp [outside]

namespace Scans

variable {text rest : String} {tokens : List Token}

theorem nil : Scans "" [] :=
  fun _ => ⟨[], by simp [scan], rfl⟩

private theorem of_step {t : Token}
    (step : ∀ line, scan line text.toList = List.cons ⟨t, line⟩ <$> scan line rest.toList)
    (h : Scans rest tokens) : Scans text (t :: tokens) := by
  intro line
  obtain ⟨lexemes, scanned, found⟩ := h line
  refine ⟨⟨t, line⟩ :: lexemes, ?_, by simp [found]⟩
  rw [step, scanned]
  rfl

theorem space (h : Scans rest tokens) : Scans (" " ++ rest) tokens := by
  intro line
  obtain ⟨lexemes, scanned, found⟩ := h line
  exact ⟨lexemes, by simpa [scan_space] using scanned, found⟩

theorem newline (h : Scans rest tokens) : Scans ("\n" ++ rest) tokens := by
  intro line
  obtain ⟨lexemes, scanned, found⟩ := h (line + 1)
  exact ⟨lexemes, by simpa [scan_newline] using scanned, found⟩

theorem split (first second : String) (spelled : text = first ++ second)
    (h : Scans (first ++ (second ++ rest)) tokens) : Scans (text ++ rest) tokens := by
  rwa [spelled, String.append_assoc]

theorem mark {t : Token} {c : Char} (spelled : text.toList = [c])
    (read : Token.ofPunctuation? c = some t) (h : Scans rest tokens) :
    Scans (text ++ rest) (t :: tokens) := by
  refine of_step (fun line => ?_) h
  rw [String.toList_append, spelled, List.singleton_append, scan_mark read]

theorem token (t : Token) (ok : t.isSpellable = true) (stops : Stops rest) (h : Scans rest tokens) :
    Scans (t.text ++ rest) (t :: tokens) := by
  cases t with
  | ident word =>
    simp only [Token.isSpellable, isWord] at ok
    split at ok
    · cases ok
    · next c cs spelled =>
      rw [Bool.and_eq_true] at ok
      obtain ⟨taken, dropped⟩ := stops.takeWhile_append (fun _ => id) ok.2
      refine of_step (fun line => ?_) h
      rw [Token.text, String.toList_append, spelled, List.cons_append, scan_word ok.1,
        taken, dropped, ← spelled, String.ofList_toList]
  | global name =>
    obtain ⟨taken, dropped⟩ := stops.takeWhile_append (fun _ => id) ok
    refine of_step (fun line => ?_) h
    have spelled : (Token.text (.global name) ++ rest).toList =
        '@' :: (name.toList ++ rest.toList) := by
      simp [Token.text]
    rw [spelled, scan_global, taken, dropped, String.ofList_toList]
  | value name =>
    obtain ⟨taken, dropped⟩ := stops.takeWhile_append (fun _ => id) ok
    refine of_step (fun line => ?_) h
    have spelled : (Token.text (.value name) ++ rest).toList =
        '%' :: (name.toList ++ rest.toList) := by
      simp [Token.text]
    rw [spelled, scan_value, taken, dropped, String.ofList_toList]
  | int word =>
    obtain ⟨c, cs, spelled, first, digits⟩ := Text.exists_cons_of_decimalChars word.toInt
    have within : ∀ c : Char, c.isDigit = true → isNameChar c = true := by
      intro c digit
      simp [isNameChar, Char.isAlphanum, digit]
    obtain ⟨taken, dropped⟩ := stops.takeWhile_append within digits
    have read : Text.readWord? (c :: (cs ++ rest.toList).takeWhile Char.isDigit) = some word := by
      rw [taken, ← spelled, Text.readWord?_decimalChars]
    refine of_step (fun line => ?_) h
    rw [Token.text, Text.decimal, String.toList_append, String.toList_ofList, spelled,
      List.cons_append, scan_int first read, dropped]
  | _ => exact mark rfl rfl h

theorem spaced (t : Token) (ok : t.isSpellable = true) (spelled : text = t.text ++ " ")
    (h : Scans rest tokens) : Scans (text ++ rest) (t :: tokens) := by
  rw [spelled, String.append_assoc]
  exact token t ok (stops_append rfl rfl rest) h.space

end Scans

end Lexeme

end BranchTrim
