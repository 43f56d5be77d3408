/-
Runs that report events. A run either succeeds or stops at its first
error, and keeps in both cases the events it met until then. The result
of a sequence of steps depends on the results of the steps alone
(`result_bind`), so a statement about results never mentions events.
-/
import LogicalForm.Error
import LogicalForm.Event

namespace LogicalForm

/-- The outcome of a run with the events met on the way. -/
structure Traced (α : Type) where
  log : List Event
  result : Except Error α

namespace Traced

variable {α β : Type}

/-- The run that yields a value at once. -/
protected def pure (a : α) : Traced α := ⟨[], .ok a⟩

/-- Runs one step and, if it succeeds, goes on with its value. -/
protected def bind (x : Traced α) (f : α → Traced β) : Traced β :=
  match x.result with
  | .ok a => ⟨x.log ++ (f a).log, (f a).result⟩
  | .error e => ⟨x.log, .error e⟩

instance : Monad Traced where
  pure := Traced.pure
  bind := Traced.bind

theorem bind_def (x : Traced α) (f : α → Traced β) :
    x >>= f = Traced.bind x f := rfl

instance : LawfulMonad Traced := LawfulMonad.mk' Traced
  (fun x => by
    show Traced.bind x (Traced.pure ∘ id) = x
    obtain ⟨log, result⟩ := x
    cases result <;> simp [Traced.bind, Traced.pure])
  (fun a f => by
    show Traced.bind (Traced.pure a) f = f a
    simp [Traced.bind, Traced.pure])
  (fun x f g => by
    simp only [bind_def]
    obtain ⟨log, result⟩ := x
    cases result with
    | error e => rfl
    | ok a =>
      simp only [Traced.bind]
      cases (f a).result <;> simp [List.append_assoc])

instance : MonadExceptOf Error Traced where
  throw e := ⟨[], .error e⟩
  tryCatch x handle :=
    match x.result with
    | .ok _ => x
    | .error e => ⟨x.log ++ (handle e).log, (handle e).result⟩

/-- Reports one event. -/
def report (e : Event) : Traced Unit := ⟨[e], .ok ()⟩

/-- Reports a list of events, in order. -/
def reportAll (es : List Event) : Traced Unit := ⟨es, .ok ()⟩

/-- The run of a computation that reports nothing. -/
def ofExcept (r : Except Error α) : Traced α := ⟨[], r⟩

-- ============================================================== results

@[simp] theorem result_pure (a : α) : (pure a : Traced α).result = .ok a := rfl

@[simp] theorem result_throw (e : Error) :
    (throw e : Traced α).result = .error e := rfl

@[simp] theorem result_report (e : Event) : (report e).result = .ok () := rfl

@[simp] theorem result_reportAll (es : List Event) :
    (reportAll es).result = .ok () := rfl

@[simp] theorem result_ofExcept (r : Except Error α) :
    (ofExcept r).result = r := rfl

@[simp] theorem result_bind (x : Traced α) (f : α → Traced β) :
    (x >>= f).result = x.result >>= fun a => (f a).result := by
  show (Traced.bind x f).result = _
  unfold Traced.bind
  cases h : x.result <;> rfl

@[simp] theorem result_map (f : α → β) (x : Traced α) :
    (f <$> x).result = f <$> x.result := by
  show (Traced.bind x (Traced.pure ∘ f)).result = _
  unfold Traced.bind
  cases h : x.result <;> rfl

/-- A sequence that succeeds has come through its first part. -/
theorem result_bind_eq_ok {x : Traced α} {f : α → Traced β} {b : β}
    (h : (x >>= f).result = .ok b) :
    ∃ a, x.result = .ok a ∧ (f a).result = .ok b := by
  rw [result_bind] at h
  cases hx : x.result with
  | error e =>
    rw [hx] at h
    cases h
  | ok a =>
    rw [hx] at h
    exact ⟨a, rfl, h⟩

theorem result_map_eq_ok {x : Traced α} {f : α → β} {b : β}
    (h : (f <$> x).result = .ok b) : ∃ a, x.result = .ok a ∧ f a = b := by
  rw [result_map] at h
  cases hx : x.result with
  | error e =>
    rw [hx] at h
    cases h
  | ok a =>
    rw [hx] at h
    exact ⟨a, rfl, Except.ok.inj h⟩

/-- Two runs are the same when they go on alike after every value that
the first step may yield. -/
theorem bind_congr {x : Traced α} {f g : α → Traced β}
    (h : ∀ a, x.result = .ok a → f a = g a) : x >>= f = x >>= g := by
  show Traced.bind x f = Traced.bind x g
  unfold Traced.bind
  cases hx : x.result with
  | error e => rfl
  | ok a =>
    have hfg := h a hx
    simp only [hfg]

end Traced

end LogicalForm
