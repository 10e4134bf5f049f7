import Mathlib.Data.PEquiv
import Mathlib.Logic.Function.Basic

/-! Two-level maps. A space leads to tables and a table leads to frames; each table and
each frame is reached from one place only, which the partial equivalences carry. -/
namespace RudimentaryKernel

open Function

variable {α β : Type}

/-- `a` is sent to `b`, to which nothing was sent before. What `a` was sent to is dropped. -/
def reassign [DecidableEq α] [DecidableEq β] (f : α ≃. β) (a : α) (b : β)
    (fresh : f.symm b = none) : α ≃. β where
  toFun := update f a (some b)
  invFun := fun c => if c = b then some a else if f a = some c then none else f.symm c
  inv := by
    intro x c
    by_cases same : c = b
    · subst c
      by_cases here : x = a
      · simp [here]
      · have elsewhere : f x ≠ some b := by
          intro sent
          rw [← f.eq_some_iff,fresh] at sent
          contradiction
        simp [here,elsewhere,Ne.symm here]
    · by_cases here : x = a
      · subst x
        by_cases dropped : f a = some c
        · simp [same,dropped,Ne.symm same]
        · have absent : f.symm c ≠ some a := fun sent => dropped (f.eq_some_iff.mp sent)
          simp [same,dropped,absent,Ne.symm same]
      · by_cases dropped : f a = some c
        · have elsewhere : f x ≠ some c := fun sent => here (f.inj sent dropped)
          simp [same,here,dropped,elsewhere]
        · simp [same,here,dropped,f.eq_some_iff]

@[simp] theorem reassign_apply [DecidableEq α] [DecidableEq β] {f : α ≃. β} {a x : α} {b : β}
    {fresh : f.symm b = none} : reassign f a b fresh x = if x = a then some b else f x := by
  change update f a (some b) x = _
  rw [update_apply]

theorem symm_eq_none {f : α ≃. β} {b : β} (unreached : ∀ a, f a ≠ some b) : f.symm b = none := by
  rw [Option.eq_none_iff_forall_ne_some]
  exact fun a sent => unreached a (f.eq_some_iff.mp sent)

/-- Spaces `δ` with tables `τ` at their places `ι`, and tables with frames `φ` at theirs. -/
structure TwoLevel (δ ι τ φ : Type) where
  table : δ × ι ≃. τ
  frame : τ × ι ≃. φ

namespace TwoLevel

variable {δ ι τ φ : Type} {t : TwoLevel δ ι τ φ}

/-- The frame found in space `d` at place `i` and then at place `j`. -/
def walk (t : TwoLevel δ ι τ φ) (d : δ) (i j : ι) : Option φ :=
  (t.table (d,i)).bind (fun u => t.frame (u,j))

theorem walk_injective {d e : δ} {i j k l : ι} {f : φ} (first : t.walk d i j = some f)
    (second : t.walk e k l = some f) : d = e ∧ i = k ∧ j = l := by
  obtain ⟨u,fromD,toF⟩ := Option.bind_eq_some_iff.mp first
  obtain ⟨v,fromE,toF'⟩ := Option.bind_eq_some_iff.mp second
  obtain ⟨same,last⟩ := Prod.mk.inj (t.frame.inj toF toF')
  subst v
  obtain ⟨space,place⟩ := Prod.mk.inj (t.table.inj fromD fromE)
  exact ⟨space,place,last⟩

section Reassigning

variable [DecidableEq δ] [DecidableEq ι] [DecidableEq τ] [DecidableEq φ] {d e : δ} {i j k l : ι} {u : τ}
  {f : φ}

/-- A frame put into a table shows at one place of the space that leads to the table. -/
theorem walk_reassign_frame {fresh : t.frame.symm f = none} (link : t.table (d,i) = some u) :
    (⟨t.table,reassign t.frame (u,j) f fresh⟩ : TwoLevel δ ι τ φ).walk e k l =
      if e = d ∧ k = i ∧ l = j then some f else t.walk e k l := by
  simp only [walk]
  by_cases here : e = d ∧ k = i
  · obtain ⟨rfl,rfl⟩ := here
    simp [link]
  · rw [if_neg (fun same => here ⟨same.1,same.2.1⟩)]
    cases other : t.table (e,k) with
    | none => rfl
    | some v =>
      have apart : v ≠ u := by
        rintro rfl
        exact here (Prod.mk.inj (t.table.inj other link))
      simp [apart]

omit [DecidableEq φ] in
theorem walk_reassign_table {fresh : t.table.symm u = none} (unlinked : t.table (d,i) = none)
    (empty : ∀ j, t.frame (u,j) = none) :
    (⟨reassign t.table (d,i) u fresh,t.frame⟩ : TwoLevel δ ι τ φ).walk e k l = t.walk e k l := by
  simp only [walk,reassign_apply]
  split
  · rename_i same
    rw [same,unlinked]
    exact empty l
  · rfl

end Reassigning

end TwoLevel

end RudimentaryKernel
