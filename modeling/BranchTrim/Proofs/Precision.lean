import BranchTrim.Proofs.Verdict

/-!
How much verdicts tell. Where there is no verdict on an order comparison, none could be given: some
words in the ranges have the one outcome and some have the other one. The ends of the ranges are
such words. This holds for unsigned integers too, since the bounds of a range on both sides of zero
are the readings of 0 and -1, which lie in it. Equality is decided between single words only. Either
way, a verdict stays the same when ranges get smaller.
-/

set_option autoImplicit false

namespace BranchTrim

def Relation.isOrder : Relation → Bool
  | gt | ge | lt | le => true
  | eq | ne => false

def Predicate.isOrder : Predicate → Bool
  | sgt | sge | slt | sle | ugt | uge | ult | ule => true
  | eq | ne => false

private theorem Predicate.isOrder_relation (pred : Predicate) :
    pred.relation.isOrder = pred.isOrder := by
  cases pred <;> rfl

section Bounds

variable {α : Type} [DecidableEq α] [LT α] [DecidableLT α] [LE α] [DecidableLE α]
  {rel : Relation}
  {a b c d : α}

private theorem ofTests_eq_unknown {never always : Bool}
    (h : Verdict.ofTests never always = .unknown) :
    never = false ∧ always = false := by
  cases never with
  | true => cases h
  | false =>
    cases always with
    | true => cases h
    | false => exact ⟨rfl, rfl⟩

/-- Where bounds leave an order open, it has different outcomes at two opposite corners. -/
private theorem holds_corners_of_unknown {key : α → Int} (reading : Reading key)
    (order : rel.isOrder = true) (unknown : Verdict.ofBounds rel a b c d = .unknown) :
    rel.holds b c = !rel.holds a d := by
  cases rel with
  | eq | ne => cases order
  | gt | ge | lt | le =>
    obtain ⟨possible, uncertain⟩ := ofTests_eq_unknown unknown
    simp only [decide_eq_false_iff_not, reading.le_iff, reading.lt_iff] at possible uncertain
    simp only [Relation.holds, reading.le_iff, reading.lt_iff, ← decide_not, decide_eq_decide]
    omega

private theorem isDecisive_ofBounds_iff (equality : rel.isOrder = false) :
    (Verdict.ofBounds rel a b c d).isDecisive = true ↔ a = b ∧ c = d := by
  cases rel with
  | gt | ge | lt | le => cases equality
  | eq | ne =>
    by_cases single : a = b ∧ c = d
    · obtain ⟨rfl, rfl⟩ := single
      by_cases same : a = c <;> simp [Verdict.ofBounds, Verdict.ofTests, Verdict.isDecisive, same]
    · simp [Verdict.ofBounds, Verdict.isDecisive, single]

end Bounds

namespace Range

variable {r s : Range}

private theorem contains_lo (r : Range) : r.contains r.lo = true :=
  contains_iff.mpr ⟨Int64.le_refl _, r.lo_le_hi⟩

private theorem contains_hi (r : Range) : r.contains r.hi = true :=
  contains_iff.mpr ⟨r.lo_le_hi, Int64.le_refl _⟩

private theorem unsignedBounds_attained (r : Range) :
    ∃ low high, r.contains low = true ∧ r.contains high = true ∧
      low.toUInt64 = r.unsignedBounds.1 ∧ high.toUInt64 = r.unsignedBounds.2 := by
  unfold unsignedBounds
  split
  · next both =>
    have zero : (0 : Int64).toInt = 0 := rfl
    have last : (-1 : Int64).toInt = -1 := rfl
    obtain ⟨negative, nonnegative⟩ := both
    have below : r.lo.toInt < 0 := Int64.lt_iff_toInt_lt.mp negative
    have zero_in : r.contains 0 = true := by
      refine contains_iff.mpr ⟨?_, nonnegative⟩
      rw [Int64.le_iff_toInt_le, zero]
      omega
    have last_in : r.contains (-1) = true := by
      have above : 0 ≤ r.hi.toInt := Int64.le_iff_toInt_le.mp nonnegative
      rw [contains_iff, Int64.le_iff_toInt_le, Int64.le_iff_toInt_le, last]
      omega
    exact ⟨0, -1, zero_in, last_in, rfl, rfl⟩
  · exact ⟨r.lo, r.hi, r.contains_lo, r.contains_hi, rfl, rfl⟩

/-- All words of the first range lie in the second one. -/
def Within (r s : Range) : Prop :=
  ∀ x, r.contains x = true → s.contains x = true

private theorem Within.eq_of_isSingleton (within : r.Within s) (single : s.isSingleton = true) :
    r = s := by
  have ends : s.lo = s.hi := by simpa [isSingleton] using single
  have only : ∀ x, r.contains x = true → x = s.lo := by
    intro x inside
    obtain ⟨above, below⟩ := contains_iff.mp (within x inside)
    exact Int64.le_antisymm (ends ▸ below) above
  obtain ⟨lo, hi, ordered⟩ := r
  obtain rfl : lo = s.lo := only lo (contains_lo _)
  obtain rfl : hi = s.lo := only hi (contains_hi _)
  cases s
  cases ends
  rfl

end Range

namespace Verdict

variable {pred : Predicate} {lhs rhs lhs' rhs' : Range} {v w : Verdict}

/-- The verdict excludes no outcome that the comparison has for words in the ranges. -/
def Right (v : Verdict) (pred : Predicate) (lhs rhs : Range) : Prop :=
  ∀ x y, lhs.contains x = true → rhs.contains y = true →
    v.infeasible? ≠ some (pred.evaluate x y)

private theorem right_classify (pred : Predicate) (lhs rhs : Range) :
    (classify pred lhs rhs).Right pred lhs rhs := by
  intro x y x_in y_in excluded
  have outcome := evaluate_of_infeasible? excluded x_in y_in
  cases evaluated : pred.evaluate x y <;> simp [evaluated] at outcome

private theorem Right.within (right : v.Right pred lhs rhs) (left : lhs'.Within lhs)
    (other : rhs'.Within rhs) :
    v.Right pred lhs' rhs' :=
  fun x y x_in y_in => right x y (left x x_in) (other y y_in)

private theorem exists_infeasible? (decisive : v.isDecisive = true) :
    ∃ outcome, v.infeasible? = some outcome := by
  cases v with
  | alwaysTrue => exact ⟨false, rfl⟩
  | alwaysFalse => exact ⟨true, rfl⟩
  | unknown => cases decisive

private theorem Right.unique (v_right : v.Right pred lhs rhs) (w_right : w.Right pred lhs rhs)
    (v_decisive : v.isDecisive = true) (w_decisive : w.isDecisive = true) : v = w := by
  have v_excludes := v_right lhs.lo rhs.lo lhs.contains_lo rhs.contains_lo
  have w_excludes := w_right lhs.lo rhs.lo lhs.contains_lo rhs.contains_lo
  cases v with
  | unknown => cases v_decisive
  | alwaysTrue | alwaysFalse =>
    cases w with
    | unknown => cases w_decisive
    | alwaysTrue | alwaysFalse =>
      cases outcome : pred.evaluate lhs.lo rhs.lo <;> simp_all [infeasible?]

private theorem exists_corners_of_unknown (order : pred.isOrder = true)
    (unknown : classify pred lhs rhs = .unknown) :
    ∃ x x' y y', (lhs.contains x = true ∧ lhs.contains x' = true) ∧
      (rhs.contains y = true ∧ rhs.contains y' = true) ∧
      pred.evaluate x y = !pred.evaluate x' y' := by
  rw [← pred.isOrder_relation] at order
  unfold classify at unknown
  split at unknown
  · next unsigned =>
    obtain ⟨low, high, low_in, high_in, low_eq, high_eq⟩ := lhs.unsignedBounds_attained
    obtain ⟨low', high', low_in', high_in', low_eq', high_eq'⟩ := rhs.unsignedBounds_attained
    refine ⟨high, low, low', high', ⟨high_in, low_in⟩, ⟨low_in', high_in'⟩, ?_⟩
    have corners := holds_corners_of_unknown reading_toNat order unknown
    rw [← low_eq, ← high_eq, ← low_eq', ← high_eq'] at corners
    simpa only [Predicate.evaluate, unsigned, if_true] using corners
  · next signed =>
    refine ⟨lhs.hi, lhs.lo, rhs.lo, rhs.hi, ⟨lhs.contains_hi, lhs.contains_lo⟩,
      ⟨rhs.contains_lo, rhs.contains_hi⟩, ?_⟩
    have corners := holds_corners_of_unknown reading_toInt order unknown
    simpa only [Predicate.evaluate, signed, Bool.false_eq_true, if_false] using corners

private theorem classify_eq_unknown_iff (order : pred.isOrder = true) :
    classify pred lhs rhs = .unknown ↔
      ∃ x x' y y', (lhs.contains x = true ∧ lhs.contains x' = true) ∧
        (rhs.contains y = true ∧ rhs.contains y' = true) ∧
        pred.evaluate x y = true ∧ pred.evaluate x' y' = false := by
  constructor
  · intro unknown
    obtain ⟨x, x', y, y', x_in, y_in, differ⟩ := exists_corners_of_unknown order unknown
    cases outcome : pred.evaluate x' y' with
    | false => exact ⟨x, x', y, y', x_in, y_in, by simpa [outcome] using differ, outcome⟩
    | true =>
      exact ⟨x', x, y', y, x_in.symm, y_in.symm, outcome, by simpa [outcome] using differ⟩
  · rintro ⟨x, x', y, y', ⟨x_in, x_in'⟩, ⟨y_in, y_in'⟩, holds, fails⟩
    have at_holds := right_classify pred lhs rhs x y x_in y_in
    have at_fails := right_classify pred lhs rhs x' y' x_in' y_in'
    rw [holds] at at_holds
    rw [fails] at at_fails
    cases verdict : classify pred lhs rhs with
    | unknown => rfl
    | alwaysTrue => exact absurd (congrArg infeasible? verdict) at_fails
    | alwaysFalse => exact absurd (congrArg infeasible? verdict) at_holds

/-- Whatever verdict on an order comparison can be justified by the ranges is given. -/
private theorem classify_of_right (order : pred.isOrder = true) (decisive : v.isDecisive = true)
    (right : v.Right pred lhs rhs) : classify pred lhs rhs = v := by
  cases given : (classify pred lhs rhs).isDecisive with
  | true => exact (right_classify pred lhs rhs).unique right given decisive
  | false =>
    have unknown : classify pred lhs rhs = .unknown := by
      cases verdict : classify pred lhs rhs with
      | unknown => rfl
      | alwaysTrue | alwaysFalse => simp [verdict, isDecisive] at given
    obtain ⟨x, x', y, y', ⟨x_in, x_in'⟩, ⟨y_in, y_in'⟩, holds, fails⟩ :=
      (classify_eq_unknown_iff order).mp unknown
    obtain ⟨outcome, excluded⟩ := exists_infeasible? decisive
    cases outcome with
    | true => exact absurd (holds ▸ excluded) (right x y x_in y_in)
    | false => exact absurd (fails ▸ excluded) (right x' y' x_in' y_in')

private theorem isDecisive_classify_iff (equality : pred.isOrder = false) :
    (classify pred lhs rhs).isDecisive = true ↔ lhs.isSingleton = true ∧
      rhs.isSingleton = true := by
  have signed : pred.isUnsigned = false := by
    cases pred with
    | eq | ne => rfl
    | sgt | sge | slt | sle | ugt | uge | ult | ule => cases equality
  rw [← pred.isOrder_relation] at equality
  rw [classify, signed, if_neg Bool.false_ne_true, isDecisive_ofBounds_iff equality]
  simp [Range.isSingleton]

private theorem classify_of_within (left : lhs'.Within lhs) (other : rhs'.Within rhs)
    (decisive : (classify pred lhs rhs).isDecisive = true) :
    classify pred lhs' rhs' = classify pred lhs rhs := by
  cases order : pred.isOrder with
  | true => exact classify_of_right order decisive ((right_classify pred lhs rhs).within left other)
  | false =>
    obtain ⟨single, single'⟩ := (isDecisive_classify_iff order).mp decisive
    rw [left.eq_of_isSingleton single, other.eq_of_isSingleton single']

/--
Verdicts are as precise as ranges allow. An order comparison is left open if and only if words in
the ranges have either outcome, so whatever verdict the ranges justify is given. Equality and its
opposite are decided if and only if both ranges are single words. No verdict is lost, whatever the
predicate, when the ranges get smaller.
-/
theorem verdicts_miss_nothing (pred : Predicate) (lhs rhs : Range) :
    (pred.isOrder = true →
      (classify pred lhs rhs = .unknown ↔
        ∃ x x' y y', (lhs.contains x = true ∧ lhs.contains x' = true) ∧
          (rhs.contains y = true ∧ rhs.contains y' = true) ∧
          pred.evaluate x y = true ∧ pred.evaluate x' y' = false) ∧
      ∀ v, v.isDecisive = true → v.Right pred lhs rhs → classify pred lhs rhs = v) ∧
    (pred.isOrder = false →
      ((classify pred lhs rhs).isDecisive = true ↔ lhs.isSingleton = true ∧
        rhs.isSingleton = true)) ∧
    ∀ lhs' rhs', lhs'.Within lhs → rhs'.Within rhs →
      (classify pred lhs rhs).isDecisive = true →
      classify pred lhs' rhs' = classify pred lhs rhs :=
  ⟨fun order => ⟨classify_eq_unknown_iff order, fun _ => classify_of_right order⟩,
    isDecisive_classify_iff, fun _ _ => classify_of_within⟩

theorem verdicts_miss_nothing_bothSides :
    (classify .ult ⟨-1, 1, by decide⟩ (.singleton 5) = .unknown ∧
      ∃ x x' y y', (Range.contains ⟨-1, 1, by decide⟩ x = true ∧
        Range.contains ⟨-1, 1, by decide⟩ x' = true) ∧
        ((Range.singleton 5).contains y = true ∧ (Range.singleton 5).contains y' = true) ∧
        Predicate.ult.evaluate x y = true ∧ Predicate.ult.evaluate x' y' = false) ∧
    classify .ult ⟨0, 1, by decide⟩ (.singleton 5) = .alwaysTrue := by
  have unknown : classify .ult ⟨-1, 1, by decide⟩ (.singleton 5) = .unknown := by decide
  refine ⟨⟨unknown, ?_⟩, ?_⟩
  · exact ((verdicts_miss_nothing .ult _ _).1 rfl).1.mp unknown
  · have wider : classify .ult ⟨0, 4, by decide⟩ (.singleton 5) = .alwaysTrue := by decide
    have kept := (verdicts_miss_nothing .ult ⟨0, 4, by decide⟩ (.singleton 5)).2.2
      ⟨0, 1, by decide⟩ (.singleton 5)
    rw [← wider]
    refine kept ?_ (fun _ inside => inside) (by rw [wider]; rfl)
    intro x inside
    obtain ⟨above, below⟩ := Range.contains_iff.mp inside
    exact Range.contains_iff.mpr ⟨above, Int64.le_trans below (by decide)⟩

end Verdict

end BranchTrim
