/-!
# Outcomes of stateful computations

Lowering, running a module and evaluating a program are all computations that change a state and may
fail. What is common to reasoning about them is how a sequence of two steps ends.
-/

namespace Wordlang.Outcome

variable {ε σ α β : Type}

theorem bind_ok {g : EStateM ε σ α} {k : α → EStateM ε σ β} {s s' : σ} {a : α}
    (h : g s = .ok a s') : (g >>= k) s = k a s' := by
  simp only [bind, EStateM.bind, h]

theorem bind_error {g : EStateM ε σ α} {k : α → EStateM ε σ β} {s s' : σ} {e : ε}
    (h : g s = .error e s') : (g >>= k) s = .error e s' := by
  simp only [bind, EStateM.bind, h]

/-- A sequence of two steps succeeds if both do. -/
theorem bind_eq_ok_iff {g : EStateM ε σ α} {k : α → EStateM ε σ β} {s s' : σ} {b : β} :
    (g >>= k) s = .ok b s' ↔ ∃ a t, g s = .ok a t ∧ k a t = .ok b s' := by
  cases h : g s with
  | ok a t =>
    rw [bind_ok h]
    refine ⟨fun hk => ⟨a, t, rfl, hk⟩, ?_⟩
    rintro ⟨_, _, ⟨⟩, hk⟩
    exact hk
  | error e t =>
    rw [bind_error h]
    simp

/-- A result was given by a success. -/
theorem eq_ok_of_run' {g : EStateM ε σ α} {s : σ} {a : α} (h : g.run' s = some a) :
    ∃ t, g s = .ok a t := by
  delta EStateM.run' EStateM.run at h
  cases hg : g s with
  | ok b t =>
    rw [hg] at h
    cases h
    exact ⟨t, rfl⟩
  | error e t =>
    rw [hg] at h
    cases h

/-- The outcome is a success that satisfies `Q` or a failure that leaves a state satisfying `E`. -/
def Ends (r : EStateM.Result ε σ α) (Q : α → σ → Prop) (E : σ → Prop) : Prop :=
  match r with
  | .ok a s => Q a s
  | .error _ s => E s

namespace Ends

variable {r : EStateM.Result ε σ α} {Q Q' : α → σ → Prop} {E E' : σ → Prop}

theorem imp (h : Ends r Q E) (hQ : ∀ a s, Q a s → Q' a s) (hE : ∀ s, E s → E' s) :
    Ends r Q' E' := by
  cases r with
  | ok a s => exact hQ a s h
  | error e s => exact hE s h

theorem and (h : Ends r Q E) (h' : Ends r Q' E') :
    Ends r (fun a s => Q a s ∧ Q' a s) fun s => E s ∧ E' s := by
  cases r with
  | ok a s => exact ⟨h, h'⟩
  | error e s => exact ⟨h, h'⟩

/-- A sequence of two steps fails if one of them does. -/
theorem bind {g : EStateM ε σ α} {k : α → EStateM ε σ β} {s : σ} {P : β → σ → Prop}
    (h : Ends (g s) Q E) (hk : ∀ a t, Q a t → Ends (k a t) P E) : Ends ((g >>= k) s) P E := by
  cases hg : g s with
  | ok a t =>
    rw [hg] at h
    rw [bind_ok hg]
    exact hk a t h
  | error e t =>
    rw [hg] at h
    rw [bind_error hg]
    exact h

/-- What is known of a step that succeeded. -/
theorem of_ok {a : α} {s : σ} (h : Ends r Q E) (hr : r = .ok a s) : Q a s := by
  rw [hr] at h
  exact h

end Ends

end Wordlang.Outcome
