import BranchTrim.Pattern.Reader

/-!
Which patterns can be matched. Characters are those of Unicode unless the flag `u` is off: then a
pattern may only match ASCII through sets and kinds. Under Unicode there are no tables of kinds of
characters, of the case of letters, or of where words start and end.
-/

set_option autoImplicit false

namespace BranchTrim

inductive PatternError where
  | malformed
  | wordEdge
  deriving DecidableEq, Repr

def PatternError.message : PatternError → String
  | malformed => "error building NFA"
  | wordEdge =>
    "unsupported regex feature for DFAs: cannot build DFAs for regexes with Unicode word " ++
      "boundaries; switch to ASCII word boundaries, or heuristically enable Unicode word " ++
      "boundaries or use a different regex engine"

structure Flags where
  ignoresCase : Bool
  isUnicode : Bool
  deriving DecidableEq, Repr

namespace Flags

def start : Flags := ⟨false, true⟩

def after (f : Flags) (change : FlagChange) : Flags :=
  ⟨(change.lookup 'i').getD f.ignoresCase, (change.lookup 'u').getD f.isUnicode⟩

/-- Whether the case of letters would be looked up in tables. -/
def needsCases (f : Flags) : Bool :=
  f.ignoresCase && f.isUnicode

end Flags

/-- What a set holds, as far as it matters to the case of its letters. -/
inductive Extent where
  | nothing
  | everything
  | something
  deriving DecidableEq, Repr

namespace Extent

def union : Extent → Extent → Extent
  | nothing, e | e, nothing => e
  | everything, everything => everything
  | _, _ => something

def difference : Extent → Extent → Extent
  | nothing, _ | _, everything => nothing
  | e, nothing => e
  | _, something => something

def intersection : Extent → Extent → Extent
  | nothing, _ | _, nothing => nothing
  | everything, e | e, everything => e
  | something, something => something

def combine : SetOperator → Extent → Extent → Extent
  | .intersection, a, b => a.intersection b
  | .difference, a, b => a.difference b
  | .symmetricDifference, a, b => (a.difference b).union (b.difference a)

def complement : Extent → Extent
  | nothing => everything
  | everything => nothing
  | something => something

/-- An extent once its letters stand for both of their cases, which only nothing and everything do
as they are. -/
def fold? (f : Flags) (e : Extent) : Option Extent :=
  if f.needsCases && e == something then none else some e

/-- An extent in brackets. Outside of Unicode a complement would not be ASCII. -/
def bracket? (f : Flags) (isNegated : Bool) (e : Extent) : Option Extent := do
  let e ← e.fold? f
  if !isNegated then return e
  else if f.isUnicode then return e.complement
  else none

end Extent

def Literal.fitsSet (f : Flags) (l : Literal) : Bool :=
  f.isUnicode || l.char.toNat < 0x80

def Literal.fits (f : Flags) (l : Literal) : Bool :=
  !f.needsCases && (f.isUnicode || !l.isByte || l.char.toNat < 0x80)

namespace CharSet

mutual

def extent? (f : Flags) : CharSet → Option Extent
  | literal l => if l.fitsSet f then some .something else none
  | range lo hi => if lo.fitsSet f && hi.fitsSet f then some .something else none
  | named isNegated => Extent.bracket? f isNegated .something
  | kind isNegated => if f.isUnicode || isNegated then none else some .something
  | union parts => extentOfParts? f parts
  | combined operator lhs rhs => do
    return Extent.combine operator (← (← extent? f lhs).fold? f)
      (← (← extent? f rhs).fold? f)
  | bracketed isNegated body => do Extent.bracket? f isNegated (← extent? f body)

def extentOfParts? (f : Flags) : List CharSet → Option Extent
  | [] => some .nothing
  | s :: parts => do return (← extent? f s).union (← extentOfParts? f parts)

end

end CharSet

namespace Pattern

/-- What is known on the way through a pattern: the flags in force, and whether an edge of a word
was asked for that Unicode decides. -/
structure Progress where
  flags : Flags
  asksWordEdge : Bool

mutual

def pass? (s : Progress) : Pattern → Option Progress
  | literal l => if l.fits s.flags then some s else none
  | dot => if s.flags.isUnicode then some s else none
  | lineEdge => some s
  | wordEdge => some { s with asksWordEdge := s.asksWordEdge || s.flags.isUnicode }
  | kind isNegated => if s.flags.isUnicode || isNegated then none else some s
  | set charSet => (charSet.extent? s.flags).map fun _ => s
  | flags change => some { s with flags := s.flags.after change }
  | group change body => do
    let inner ← pass? { s with flags := s.flags.after change } body
    return { inner with flags := s.flags }
  | repeated body => pass? s body
  | sequence parts | choice parts => passParts? s parts

def passParts? (s : Progress) : List Pattern → Option Progress
  | [] => some s
  | p :: parts => do passParts? (← pass? s p) parts

end

def check (cs : List Char) : Except PatternError Unit :=
  let progress? := do
    let p ← read? cs
    guard (p.depth ≤ maxDepth)
    pass? ⟨.start, false⟩ p
  match progress? with
  | none => .error .malformed
  | some progress => if progress.asksWordEdge then .error .wordEdge else .ok ()

end Pattern

end BranchTrim
