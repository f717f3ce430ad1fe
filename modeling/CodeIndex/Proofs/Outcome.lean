import CodeIndex.Fault

/-!
# Outcomes of computations

A computation of an indexer ends with a result or with a fault, and either way there is a state at
the end. What is said about a run has to hold at both ends, since everything recorded before a fault
counts. `Outcome Q E` says it of one end: `Q` of the result and its state, `E` of the state that a
fault leaves behind.
-/

namespace CodeIndex

variable {σ τ α β : Type}

/-- A result and its state satisfy `Q`, the state that a fault leaves behind satisfies `E`. -/
def Outcome (Q : α → σ → Prop) (E : σ → Prop) : EStateM.Result Fault σ α → Prop
  | .ok a s => Q a s
  | .error _ s => E s

/-- The state at the end. -/
def finalState : EStateM.Result Fault σ α → σ
  | .ok _ s => s
  | .error _ s => s

/-- The computation ended with a result. -/
def returned : EStateM.Result Fault σ α → Bool
  | .ok _ _ => true
  | .error _ _ => false

theorem eq_ok_of_returned {r : EStateM.Result Fault σ α} (h : returned r = true) :
    ∃ a s, r = .ok a s := by
  cases r with
  | ok a s => exact ⟨a, s, rfl⟩
  | error e s => cases h

namespace Outcome

theorem mono {Q Q' : α → σ → Prop} {E E' : σ → Prop} {r : EStateM.Result Fault σ α}
    (h : Outcome Q E r) (hQ : ∀ a s, Q a s → Q' a s) (hE : ∀ s, E s → E' s) :
    Outcome Q' E' r := by
  cases r with
  | ok a s => exact hQ a s h
  | error e s => exact hE s h

/-- What holds at either end holds of the state at the end. -/
theorem final {E : σ → Prop} {r : EStateM.Result Fault σ α}
    (h : Outcome (fun _ => E) E r) : E (finalState r) := by
  cases r <;> exact h

theorem of_ok {Q : α → σ → Prop} {E : σ → Prop} {r : EStateM.Result Fault σ α} {a : α} {s : σ}
    (h : Outcome Q E r) (hr : r = .ok a s) : Q a s := by
  subst hr
  exact h

theorem bind {Q : β → σ → Prop} {E : σ → Prop} {m : EStateM Fault σ α} {f : α → EStateM Fault σ β}
    {s : σ} (h : Outcome (fun a t => Outcome Q E (f a t)) E (m s)) : Outcome Q E ((m >>= f) s) := by
  change Outcome Q E (EStateM.bind m f s)
  unfold EStateM.bind
  cases hm : m s with
  | ok a t => rw [hm] at h; exact h
  | error e t => rw [hm] at h; exact h

/-- What follows the reading of the state. -/
theorem getBind {Q : β → σ → Prop} {E : σ → Prop} {f : σ → EStateM Fault σ β} {s : σ}
    (h : Outcome Q E (f s s)) : Outcome Q E ((MonadState.get >>= f) s) :=
  h

/-- A computation that leaves the state alone: a result goes on, a fault ends here. -/
theorem liftBind {Q : β → σ → Prop} {E : σ → Prop} {x : Except Fault α}
    {f : α → EStateM Fault σ β} {s : σ} (hE : E s)
    (h : ∀ a, x = .ok a → Outcome Q E (f a s)) :
    Outcome Q E (((liftM x : EStateM Fault σ α) >>= f) s) := by
  cases x with
  | ok a => exact h a rfl
  | error e => exact hE

theorem tryCatch {Q : α → σ → Prop} {E : σ → Prop} {m : EStateM Fault σ α}
    {handle : Fault → EStateM Fault σ α} {s : σ}
    (h : Outcome Q (fun t => ∀ e, Outcome Q E (handle e t)) (m s)) :
    Outcome Q E (MonadExcept.tryCatch m handle s) := by
  change Outcome Q E (EStateM.tryCatch m handle s)
  unfold EStateM.tryCatch
  cases hm : m s with
  | ok a t => rw [hm] at h; exact h
  | error e t => rw [hm] at h; exact h e

/-- What a computation does to a part of the state. -/
theorem focus {part : σ → τ} {replace : τ → σ → σ} {Q : α → σ → Prop} {E : σ → Prop}
    {m : EStateM Fault τ α} {s : σ}
    (h : Outcome (fun a t => Q a (replace t s)) (fun t => E (replace t s)) (m (part s))) :
    Outcome Q E (CodeIndex.focus part replace m s) := by
  unfold CodeIndex.focus
  cases hm : m (part s) <;> (rw [hm] at h; exact h)

end Outcome

/-! ### Sequences -/

section Sequences

variable {m : EStateM Fault σ α} {f : α → EStateM Fault σ β} {s t : σ}

theorem bind_of_ok {a : α} (h : m s = .ok a t) : (m >>= f) s = f a t := by
  change EStateM.bind m f s = _
  rw [EStateM.bind, h]

theorem bind_of_error {e : Fault} (h : m s = .error e t) : (m >>= f) s = .error e t := by
  change EStateM.bind m f s = _
  rw [EStateM.bind, h]

/-- What is given back does not matter for the state at the end. -/
theorem finalState_discard (m : EStateM Fault σ α) (b : β) (s : σ) :
    finalState ((m >>= fun _ => pure b) s) = finalState (m s) := by
  cases h : m s with
  | ok a t =>
    rw [bind_of_ok h]
    rfl
  | error e t =>
    rw [bind_of_error h]
    rfl

end Sequences

/-! ### Computations that leave the state alone -/

theorem lift_ok (a : α) : (liftM (.ok a : Except Fault α) : EStateM Fault σ α) = pure a := rfl

theorem lift_error (e : Fault) :
    (liftM (.error e : Except Fault α) : EStateM Fault σ α) = throw e := rfl

theorem throw_bind (e : Fault) (f : α → EStateM Fault σ β) :
    ((throw e : EStateM Fault σ α) >>= f) = throw e := rfl

theorem lift_bind (x : Except Fault α) (f : α → Except Fault β) :
    (liftM (x >>= f) : EStateM Fault σ β) = liftM x >>= fun a => liftM (f a) := by
  cases x <;> rfl

theorem lift_mapM (f : α → Except Fault β) (xs : List α) :
    (liftM (xs.mapM f) : EStateM Fault σ (List β)) = xs.mapM fun a => liftM (f a) := by
  induction xs with
  | nil => rfl
  | cons x xs ih =>
    rw [List.mapM_cons, List.mapM_cons, lift_bind]
    refine bind_congr fun b => ?_
    rw [lift_bind, ih]
    rfl

/-! ### Computations that end with a result -/

theorem except_bind_eq_ok {x : Except Fault α} {f : α → Except Fault β} {b : β} :
    (x >>= f) = .ok b ↔ ∃ a, x = .ok a ∧ f a = .ok b := by
  cases x with
  | ok a => simp [bind, Except.bind]
  | error e => simp [bind, Except.bind]

/-- A sequence ends with a result if both parts do. -/
theorem bind_eq_ok {m : EStateM Fault σ α} {f : α → EStateM Fault σ β} {s u : σ} {b : β} :
    (m >>= f) s = .ok b u ↔ ∃ a t, m s = .ok a t ∧ f a t = .ok b u := by
  change EStateM.bind m f s = .ok b u ↔ _
  unfold EStateM.bind
  cases m s with
  | ok a t =>
    constructor
    · exact fun h => ⟨a, t, rfl, h⟩
    · rintro ⟨_, _, hm, hf⟩
      cases hm
      exact hf
  | error e t => simp

theorem pure_eq_ok {s t : σ} {a b : α} :
    (pure a : EStateM Fault σ α) s = .ok b t ↔ b = a ∧ t = s := by
  change EStateM.Result.ok a s = .ok b t ↔ _
  simp [eq_comm]

end CodeIndex
