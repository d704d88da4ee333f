import SignedLedger.Trust.Error

/-! Computations that may fail. A chain of steps succeeds exactly when every step does, and renaming
the error of a computation leaves its success alone. -/

namespace SignedLedger

variable {ε ε' α β : Type}

@[simp] theorem ok_bind (a : α) (f : α → Except ε β) : (Except.ok a >>= f) = f a := rfl

@[simp] theorem error_bind (e : ε) (f : α → Except ε β) : (Except.error e >>= f) = .error e := rfl

@[simp] theorem pure_eq_ok (a : α) : (pure a : Except ε α) = .ok a := rfl

@[simp] theorem throw_eq_error (e : ε) : (throw e : Except ε α) = .error e := rfl

@[simp] theorem map_ok (f : α → β) (a : α) : (Except.ok a : Except ε α).map f = .ok (f a) := rfl

@[simp] theorem map_error (f : α → β) (e : ε) :
    (Except.error e : Except ε α).map f = .error e := rfl

@[simp] theorem mapError_ok (f : ε → ε') (a : α) :
    (Except.ok a : Except ε α).mapError f = .ok a := rfl

@[simp] theorem mapError_error (f : ε → ε') (e : ε) :
    (Except.error e : Except ε α).mapError f = .error (f e) := rfl

theorem bind_eq_ok_iff {x : Except ε α} {f : α → Except ε β} {b : β} :
    (x >>= f) = .ok b ↔ ∃ a, x = .ok a ∧ f a = .ok b := by
  cases x <;> simp

theorem bind_eq_error_iff {x : Except ε α} {f : α → Except ε β} {e : ε} :
    (x >>= f) = .error e ↔ x = .error e ∨ ∃ a, x = .ok a ∧ f a = .error e := by
  cases x <;> simp

theorem ite_error_eq_ok_iff {p : Prop} [Decidable p] {e : ε} {x : Except ε α} {a : α} :
    (if p then .error e else x) = .ok a ↔ ¬ p ∧ x = .ok a := by
  by_cases hp : p <;> simp [hp]

theorem ite_bind_eq_ok_iff {p : Prop} [Decidable p] {x : Except ε Unit}
    {y : Except ε α} {b : α} :
    (if p then x >>= fun _ => y else y) = .ok b ↔ (p → x = .ok ()) ∧ y = .ok b := by
  by_cases hp : p
  · cases x <;> simp [hp]
  · simp [hp]

theorem isOk_iff {x : Except ε α} : x.isOk ↔ ∃ a, x = .ok a := by
  cases x <;> simp [Except.isOk, Except.toBool]

theorem map_eq_ok_iff {x : Except ε α} {f : α → β} {b : β} :
    x.map f = .ok b ↔ ∃ a, x = .ok a ∧ f a = b := by
  cases x <;> simp

theorem mapError_eq_ok_iff {x : Except ε α} {f : ε → ε'} {a : α} :
    x.mapError f = .ok a ↔ x = .ok a := by
  cases x <;> simp

theorem mapError_eq_error_iff {x : Except ε α} {f : ε → ε'} {e : ε'} :
    x.mapError f = .error e ↔ ∃ cause, x = .error cause ∧ f cause = e := by
  cases x <;> simp

/-- A fold fails as its first step does that fails. -/
theorem foldlM_eq_error_iff {f : α → β → Except ε α} {a : α} {xs : List β} {e : ε} :
    xs.foldlM f a = .error e ↔
      ∃ before x after b, xs = before ++ x :: after ∧ before.foldlM f a = .ok b ∧
        f b x = .error e := by
  constructor
  · intro h
    induction xs generalizing a with
    | nil => cases h
    | cons x xs ih =>
      rw [List.foldlM_cons] at h
      rcases bind_eq_error_iff.mp h with h | ⟨b, hb, h⟩
      · exact ⟨[], x, xs, a, rfl, rfl, h⟩
      · obtain ⟨before, y, after, d, rfl, hd, hy⟩ := ih h
        exact ⟨x :: before, y, after, d, rfl, by rw [List.foldlM_cons, hb]; exact hd, hy⟩
  · rintro ⟨before, x, after, b, rfl, hb, hx⟩
    rw [List.foldlM_append, hb, ok_bind, List.foldlM_cons, hx, error_bind]

theorem structural_eq_ok_iff {x : Except CertificateError α} {a : α} :
    structural x = .ok a ↔ x = .ok a :=
  mapError_eq_ok_iff

theorem liftCodec_eq_ok_iff {x : Except CodecError α} {a : α} : liftCodec x = .ok a ↔ x = .ok a :=
  mapError_eq_ok_iff

@[simp] theorem structural_ok (a : α) : structural (.ok a) = .ok a := rfl

@[simp] theorem structural_error (e : CertificateError) :
    structural (.error e : Except CertificateError α) = .error (.structural e) := rfl

@[simp] theorem liftCodec_ok (a : α) : liftCodec (.ok a) = .ok a := rfl

@[simp] theorem liftCodec_error (e : CodecError) :
    liftCodec (.error e : Except CodecError α) = .error (.codec e) := rfl

end SignedLedger
