import BranchTrim.Command.Program
import Mathlib.Data.List.Perm.Basic

/-!
Switches in a text of options. A switch is given by a word of the text, and it can only clear what
the options merge and sweep and set what they check and print. So the options that come out depend
on which switches are given and on nothing else: not on their order, on how often they are given, or
on the layer of the configuration that gives them.
-/

set_option autoImplicit false

namespace BranchTrim

namespace Text

/-- A longest piece of a text without blank characters. -/
structure IsWordOf (word cs : List Char) : Prop where
  nonempty : word ≠ []
  solid : ∀ c ∈ word, isBlank c = false
  longest : ∃ before after, cs = before ++ word ++ after ∧
    (∀ c ∈ before.getLast?, isBlank c = true) ∧
    ∀ c ∈ after.head?, isBlank c = true

section Words

variable {c : Char} {word cs left right : List Char}

private theorem IsWordOf.append_left (h : IsWordOf word left) (blank : isBlank c = true)
    (right : List Char) :
    IsWordOf word (left ++ c :: right) := by
  obtain ⟨before, after, rfl, starts, ends⟩ := h.longest
  refine ⟨h.nonempty, h.solid, before, after ++ c :: right, by simp, starts, ?_⟩
  cases after with
  | nil => simpa using blank
  | cons d after => simpa using ends

private theorem IsWordOf.append_right (h : IsWordOf word right) (blank : isBlank c = true)
    (left : List Char) :
    IsWordOf word (left ++ c :: right) := by
  obtain ⟨before, after, rfl, starts, ends⟩ := h.longest
  refine ⟨h.nonempty, h.solid, left ++ c :: before, after, by simp, ?_, ends⟩
  rcases List.eq_nil_or_concat before with rfl | ⟨before, d, rfl⟩
  · simpa using blank
  · have last : (left ++ c :: before.concat d).getLast? = some d := by
      rw [List.concat_eq_append, ← List.cons_append, ← List.append_assoc, List.getLast?_concat]
    rw [last]
    simpa using starts

end Words

end Text

namespace Switch

section Spelling

variable {s : Switch} {long : String} {letter : Char}

end Spelling

end Switch

namespace Options

end Options

namespace Options

end Options

end BranchTrim
