/-!
Steps that can be refused. A sequence of steps returns when each of them does, and is refused where
the first of them is.
-/

set_option autoImplicit false

namespace BranchTrim

variable {α β ε : Type} {x : Except ε α} {k : α → Except ε β}

@[simp]
theorem ok_bind (a : α) (k : α → Except ε β) : Except.ok a >>= k = k a :=
  rfl

@[simp]
theorem error_bind (e : ε) (k : α → Except ε β) : Except.error e >>= k = .error e :=
  rfl

@[simp]
theorem pure_eq_ok (a : α) : (pure a : Except ε α) = .ok a :=
  rfl

@[simp]
theorem bind_ok (x : Except ε α) : (x >>= fun a => .ok a) = x := by
  cases x <;> rfl

@[simp]
theorem map_eq_bind (f : α → β) (x : Except ε α) : f <$> x = x >>= fun a => .ok (f a) := by
  cases x <;> rfl

theorem bind_eq_ok_iff {y : β} : x >>= k = .ok y ↔ ∃ a, x = .ok a ∧ k a = .ok y := by
  cases x <;> simp

theorem bind_eq_ok {y : β} (h : x >>= k = .ok y) : ∃ a, x = .ok a ∧ k a = .ok y :=
  bind_eq_ok_iff.mp h

theorem of_returns {a : α} {holds : α → Prop} (h : x = .ok a)
    (returns : ∃ a', x = .ok a' ∧ holds a') : holds a := by
  obtain ⟨a', returned, property⟩ := returns
  obtain rfl : a = a' := Except.ok.inj (h.symm.trans returned)
  exact property

theorem exists_bind_iff :
    (∃ y, x >>= k = .ok y) ↔ ∃ a, x = .ok a ∧ ∃ y, k a = .ok y := by
  cases x <;> simp

theorem exists_mapM_iff {xs : List α} :
    (∃ ys, xs.mapM k = .ok ys) ↔ ∀ x ∈ xs, ∃ y, k x = .ok y := by
  induction xs with
  | nil => simp
  | cons x xs ih => simp [exists_bind_iff, ih]

end BranchTrim
