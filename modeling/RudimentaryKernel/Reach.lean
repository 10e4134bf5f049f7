import Mathlib.Logic.Relation

/-! Runs of a transition system. A run is a finite number of steps from an initial
state; a property is an invariant when every initial state has it and every step
of the system keeps it. -/
namespace RudimentaryKernel

/-- `s` is reached from an initial state by finitely many steps. -/
def Reach (initial : σ → Prop) (step : σ → σ → Prop) (s : σ) : Prop :=
  ∃ first, initial first ∧ Relation.ReflTransGen step first s

variable {initial : σ → Prop} {step : σ → σ → Prop} {s t : σ}

theorem Reach.start (begins : initial s) : Reach initial step s := ⟨s,begins,.refl⟩

theorem Reach.advance (reached : Reach initial step s) (next : step s t) : Reach initial step t := by
  obtain ⟨first,begins,run⟩ := reached
  exact ⟨first,begins,run.tail next⟩

theorem Reach.mono {step' : σ → σ → Prop} (weaker : ∀ s t, step s t → step' s t)
    (reached : Reach initial step s) : Reach initial step' s := by
  obtain ⟨first,begins,run⟩ := reached
  exact ⟨first,begins,Relation.ReflTransGen.mono weaker _ _ run⟩

/-- The run rule: what holds initially and is kept by each step holds along every run. -/
theorem Reach.invariant (property : σ → Prop) (begins : ∀ s, initial s → property s)
    (kept : ∀ s t, property s → step s t → property t)
    (reached : Reach initial step s) : property s := by
  obtain ⟨first,start,run⟩ := reached
  induction run with
  | refl => exact begins first start
  | tail _ last ih => exact kept _ _ ih last

theorem Reach.events {act : σ → ε → Option σ} (steps : ∀ s e t, act s e = some t → step s t) {events : List ε}
    (done : events.foldlM act s = some t) (reached : Reach initial step s) : Reach initial step t := by
  induction events generalizing s with
  | nil =>
    obtain rfl := Option.some.inj done
    exact reached
  | cons e rest ih =>
    rw [List.foldlM_cons] at done
    obtain ⟨middle,first,later⟩ := Option.bind_eq_some_iff.mp done
    exact ih later (reached.advance (steps _ _ _ first))

end RudimentaryKernel
