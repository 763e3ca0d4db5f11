import BranchTrim.Prune.Branches

/-!
Verdicts are right: where a verdict excludes an outcome of a comparison, no two words in the ranges
have it. The tests on the ends of the ranges are the same for signed and unsigned words, so they are
treated once, for any type whose order is that of integers.
-/

set_option autoImplicit false

namespace BranchTrim

section Bounds

variable {α : Type} [DecidableEq α] [LT α] [DecidableLT α] [LE α] [DecidableLE α]

/-- A reading of the elements of a type as integers that keeps their order. -/
structure Reading (key : α → Int) : Prop where
  lt_iff : ∀ x y, x < y ↔ key x < key y
  le_iff : ∀ x y, x ≤ y ↔ key x ≤ key y
  eq_iff : ∀ x y, x = y ↔ key x = key y

private theorem ofTests_eq_alwaysFalse {never always : Bool}
    (h : Verdict.ofTests never always = .alwaysFalse) : never = true := by
  unfold Verdict.ofTests at h
  split at h
  · assumption
  · split at h <;> cases h

private theorem ofTests_eq_alwaysTrue {never always : Bool}
    (h : Verdict.ofTests never always = .alwaysTrue) : never = false ∧ always = true := by
  unfold Verdict.ofTests at h
  split at h
  · cases h
  · next possible =>
    split at h
    · exact ⟨Bool.not_eq_true _ ▸ possible, by assumption⟩
    · cases h

private theorem holds_of_ofBounds {key : α → Int} (reading : Reading key) (rel : Relation)
    {a b c d x y : α} (x_in : a ≤ x ∧ x ≤ b) (y_in : c ≤ y ∧ y ≤ d) :
    (Verdict.ofBounds rel a b c d = .alwaysFalse → rel.holds x y = false) ∧
      (Verdict.ofBounds rel a b c d = .alwaysTrue → rel.holds x y = true) := by
  simp only [reading.le_iff] at x_in y_in
  -- Equality is decided by other tests than the orders, and only where both ranges
  -- are single words.
  have single : a = b ∧ c = d → (x = y ↔ a = c) := by
    simp only [reading.eq_iff]
    omega
  cases rel with
  | gt | ge | lt | le =>
    constructor
    · intro never
      have never := ofTests_eq_alwaysFalse never
      simp only [decide_eq_true_eq, reading.le_iff, reading.lt_iff] at never
      simp only [Relation.holds, decide_eq_false_iff_not, reading.le_iff, reading.lt_iff]
      omega
    · intro always
      have always := (ofTests_eq_alwaysTrue always).2
      simp only [decide_eq_true_eq, reading.le_iff, reading.lt_iff] at always
      simp only [Relation.holds, decide_eq_true_eq, reading.le_iff, reading.lt_iff]
      omega
  | eq | ne =>
    simp only [Verdict.ofBounds, Relation.holds]
    split
    · next ends =>
      constructor
      · intro never
        have never := ofTests_eq_alwaysFalse never
        simpa [single ends] using never
      · intro always
        have always := (ofTests_eq_alwaysTrue always).2
        simpa [single ends] using always
    · exact ⟨fun decisive => (nomatch decisive), fun decisive => (nomatch decisive)⟩

private theorem ofBounds_single {key : α → Int} (reading : Reading key) (rel : Relation)
    (x y : α) :
    Verdict.ofBounds rel x x y y = if rel.holds x y then .alwaysTrue else .alwaysFalse := by
  have above : y < x ↔ ¬ x ≤ y := by
    rw [reading.lt_iff, reading.le_iff]
    omega
  have below : x < y ↔ ¬ y ≤ x := by
    rw [reading.lt_iff, reading.le_iff]
    omega
  cases rel with
  | gt | le =>
    by_cases le : x ≤ y <;> simp [Verdict.ofBounds, Verdict.ofTests, Relation.holds, above, le]
  | lt | ge =>
    by_cases ge : y ≤ x <;> simp [Verdict.ofBounds, Verdict.ofTests, Relation.holds, below, ge]
  | eq | ne =>
    by_cases same : x = y <;> simp [Verdict.ofBounds, Verdict.ofTests, Relation.holds, same]

end Bounds

theorem reading_toInt : Reading Int64.toInt :=
  ⟨fun _ _ => Int64.lt_iff_toInt_lt, fun _ _ => Int64.le_iff_toInt_le,
    fun _ _ => Int64.toInt_inj.symm⟩

theorem reading_toNat : Reading fun x : UInt64 => (x.toNat : Int) :=
  ⟨fun _ _ => UInt64.lt_iff_toNat_lt.trans Int.ofNat_lt.symm,
    fun _ _ => UInt64.le_iff_toNat_le.trans Int.ofNat_le.symm,
    fun _ _ => UInt64.toNat_inj.symm.trans Int.ofNat_inj.symm⟩

private theorem toNat_toUInt64 (x : Int64) :
    (x.toUInt64.toNat : Int) = if x.toInt < 0 then x.toInt + UInt64.size else x.toInt := by
  have signed : x.toInt = if 2 * x.toUInt64.toNat < UInt64.size then (x.toUInt64.toNat : Int)
      else x.toUInt64.toNat - UInt64.size := BitVec.toInt_eq_toNat_cond x.toBitVec
  have small : x.toUInt64.toNat < UInt64.size := x.toBitVec.isLt
  omega

private theorem toInt_emod_size (x : Int64) : x.toInt % UInt64.size = x.toUInt64.toNat := by
  have reading := toNat_toUInt64 x
  have small : x.toUInt64.toNat < UInt64.size := x.toBitVec.isLt
  split at reading
  · have shifted : x.toInt % UInt64.size = (x.toInt + UInt64.size) % UInt64.size :=
      (Int.add_emod_right _ _).symm
    rw [shifted, ← reading]
    exact Int.emod_eq_of_lt (by omega) (by omega)
  · rw [← reading]
    exact Int.emod_eq_of_lt (by omega) (by omega)

namespace Range

variable {r : Range} {x : Int64}

theorem contains_iff : r.contains x = true ↔ r.lo ≤ x ∧ x ≤ r.hi := by
  simp [contains]

theorem contains_full (x : Int64) : full.contains x = true :=
  contains_iff.mpr ⟨Int64.minValue_le x, Int64.le_maxValue x⟩

/-- The unsigned bounds of a range hold for the unsigned readings of its words. -/
private theorem unsignedBounds_of_contains (inside : r.contains x = true) :
    r.unsignedBounds.1 ≤ x.toUInt64 ∧ x.toUInt64 ≤ r.unsignedBounds.2 := by
  have signed := contains_iff.mp inside
  rw [Int64.le_iff_toInt_le, Int64.le_iff_toInt_le] at signed
  have reading := toNat_toUInt64 x
  have small : x.toUInt64.toNat < UInt64.size := x.toBitVec.isLt
  unfold unsignedBounds
  split
  · have zero : (0 : UInt64).toNat = 0 := rfl
    have last : (-1 : UInt64).toNat = UInt64.size - 1 := rfl
    rw [UInt64.le_iff_toNat_le, UInt64.le_iff_toNat_le, zero, last]
    omega
  · next one_side =>
    have zero : (0 : Int64).toInt = 0 := rfl
    rw [Int64.lt_iff_toInt_lt, Int64.le_iff_toInt_le, zero] at one_side
    have low := toNat_toUInt64 r.lo
    have high := toNat_toUInt64 r.hi
    show r.lo.toUInt64 ≤ x.toUInt64 ∧ x.toUInt64 ≤ r.hi.toUInt64
    rw [UInt64.le_iff_toNat_le, UInt64.le_iff_toNat_le]
    omega

private theorem unsignedBounds_singleton (x : Int64) :
    (singleton x).unsignedBounds = (x.toUInt64, x.toUInt64) := by
  unfold unsignedBounds singleton
  rw [if_neg]
  rintro ⟨negative, nonnegative⟩
  exact Int64.not_lt.mpr nonnegative negative

end Range

namespace Predicate

/-- What a predicate says of two words: how their integers compare, or their
integers modulo 2^64. -/
def Means : Predicate → Int64 → Int64 → Prop
  | eq, x, y => x.toInt = y.toInt
  | ne, x, y => x.toInt ≠ y.toInt
  | sgt, x, y => x.toInt > y.toInt
  | sge, x, y => x.toInt ≥ y.toInt
  | slt, x, y => x.toInt < y.toInt
  | sle, x, y => x.toInt ≤ y.toInt
  | ugt, x, y => x.toInt % UInt64.size > y.toInt % UInt64.size
  | uge, x, y => x.toInt % UInt64.size ≥ y.toInt % UInt64.size
  | ult, x, y => x.toInt % UInt64.size < y.toInt % UInt64.size
  | ule, x, y => x.toInt % UInt64.size ≤ y.toInt % UInt64.size

private theorem evaluate_iff_means (pred : Predicate) (x y : Int64) :
    pred.evaluate x y = true ↔ pred.Means x y := by
  have left := toInt_emod_size x
  have right := toInt_emod_size y
  cases pred with
  | eq | ne => simp [evaluate, isUnsigned, relation, Relation.holds, Means, Int64.toInt_inj]
  | sgt | sge | slt | sle =>
    simp [evaluate, isUnsigned, relation, Relation.holds, Means, Int64.lt_iff_toInt_lt,
      Int64.le_iff_toInt_le]
  | ugt | uge | ult | ule =>
    simp only [evaluate, isUnsigned, relation, Relation.holds, Means, left, right, if_true,
      decide_eq_true_eq, UInt64.lt_iff_toNat_lt, UInt64.le_iff_toNat_le]
    omega

end Predicate

namespace Verdict

variable {lhs rhs : Range} {x y : Int64}

private theorem evaluate_of_classify (pred : Predicate) (x_in : lhs.contains x = true)
    (y_in : rhs.contains y = true) :
    (classify pred lhs rhs = .alwaysFalse → pred.evaluate x y = false) ∧
      (classify pred lhs rhs = .alwaysTrue → pred.evaluate x y = true) := by
  unfold classify Predicate.evaluate
  split
  · exact holds_of_ofBounds reading_toNat _ (Range.unsignedBounds_of_contains x_in)
      (Range.unsignedBounds_of_contains y_in)
  · exact holds_of_ofBounds reading_toInt _ (Range.contains_iff.mp x_in)
      (Range.contains_iff.mp y_in)

private theorem classify_singleton (pred : Predicate) (x y : Int64) :
    classify pred (.singleton x) (.singleton y) =
      if pred.evaluate x y then .alwaysTrue else .alwaysFalse := by
  unfold classify Predicate.evaluate
  split
  · rw [Range.unsignedBounds_singleton, Range.unsignedBounds_singleton]
    exact ofBounds_single reading_toNat _ x.toUInt64 y.toUInt64
  · exact ofBounds_single reading_toInt _ x y

/--
Verdicts are right for all words. Whatever two words lie in the ranges, a comparison that the
verdict forces holds of them, and one that it excludes does not; that a comparison holds is a
fact about the integers that the words stand for. Where the ranges leave one word each, there is
always a verdict.
-/
theorem verdicts_hold_for_all_words (pred : Predicate) (lhs rhs : Range) (x y : Int64)
    (x_in : lhs.contains x = true) (y_in : rhs.contains y = true) :
    (classify pred lhs rhs = .alwaysTrue → pred.evaluate x y = true) ∧
      (classify pred lhs rhs = .alwaysFalse → pred.evaluate x y = false) ∧
      (pred.evaluate x y = true ↔ pred.Means x y) ∧
      (classify pred (.singleton x) (.singleton y)).isDecisive = true := by
  obtain ⟨never, always⟩ := evaluate_of_classify pred x_in y_in
  refine ⟨always, never, pred.evaluate_iff_means x y, ?_⟩
  rw [classify_singleton]
  split <;> rfl

theorem verdicts_hold_for_all_words_extremes :
    (classify .ugt ⟨-3, -1, by decide⟩ ⟨0, Int64.maxValue, by decide⟩ = .alwaysTrue ∧
      Predicate.ugt.evaluate (-3) Int64.maxValue = true) ∧
    (classify .slt ⟨0, Int64.maxValue, by decide⟩ ⟨Int64.minValue, 0, by decide⟩ =
      .alwaysFalse ∧
      Predicate.slt.evaluate 0 0 = false) := by
  constructor
  · have verdict : classify .ugt ⟨-3, -1, by decide⟩ ⟨0, Int64.maxValue, by decide⟩ =
        .alwaysTrue := by
      decide
    exact ⟨verdict, (verdicts_hold_for_all_words .ugt _ _ (-3) Int64.maxValue (by decide)
      (by decide)).1 verdict⟩
  · have verdict :
        classify .slt ⟨0, Int64.maxValue, by decide⟩ ⟨Int64.minValue, 0, by decide⟩ =
        .alwaysFalse := by
      decide
    exact ⟨verdict,
      (verdicts_hold_for_all_words .slt _ _ 0 0 (by decide) (by decide)).2.1 verdict⟩

end Verdict

theorem evaluate_of_infeasible? {pred : Predicate} {lhs rhs : Range} {x y : Int64}
    {infeasible : Bool} (decisive : (Verdict.classify pred lhs rhs).infeasible? = some infeasible)
    (x_in : lhs.contains x = true) (y_in : rhs.contains y = true) :
    pred.evaluate x y = !infeasible := by
  obtain ⟨never, always⟩ := Verdict.evaluate_of_classify pred x_in y_in
  cases verdict : Verdict.classify pred lhs rhs with
  | alwaysTrue =>
    rw [verdict] at decisive
    cases decisive
    exact always verdict
  | alwaysFalse =>
    rw [verdict] at decisive
    cases decisive
    exact never verdict
  | unknown => simp [verdict, Verdict.infeasible?] at decisive

end BranchTrim
