import Mathlib.Data.List.Basic
import Mathlib.Data.List.Nodup
import Mathlib.Logic.Function.Basic

/-! Null-terminated lists through one successor map. The walk to the last node is
the `while (t->next != nullptr)` loop, with fuel. -/
namespace RudimentaryKernel.NullList

/-- From `head` the successor map runs through the listed nodes and ends at `null`. -/
def IsList (next : α → α) (null : α) : α → List α → Prop
  | head, [] => head = null
  | head, a :: rest => head = a ∧ a ≠ null ∧ IsList next null (next a) rest

variable {next next' : α → α} {null head a x z : α} {l front rest : List α}

@[simp] theorem isList_nil : IsList next null head [] ↔ head = null := Iff.rfl

@[simp] theorem isList_cons : IsList next null head (a :: rest) ↔
    head = a ∧ a ≠ null ∧ IsList next null (next a) rest := Iff.rfl

theorem IsList.congr (list : IsList next null head l) (same : ∀ a ∈ l, next' a = next a) :
    IsList next' null head l := by
  induction l generalizing head with
  | nil => exact list
  | cons a rest ih =>
    obtain ⟨here,real,onward⟩ := list
    refine ⟨here,real,?_⟩
    rw [same a List.mem_cons_self]
    exact ih onward (fun b member => same b (List.mem_cons_of_mem _ member))

theorem IsList.empty_iff (list : IsList next null head l) : head = null ↔ l = [] := by
  cases l with
  | nil => simpa using list
  | cons a rest =>
    obtain ⟨rfl,real,_⟩ := list
    simp [real]

theorem IsList.append (list : IsList next null head (front ++ [z])) (real : x ≠ null)
    (linked : next' z = x) (ends : next' x = null) (same : ∀ a ∈ front, next' a = next a) :
    IsList next' null head (front ++ [z,x]) := by
  induction front generalizing head with
  | nil =>
    obtain ⟨here,realZ,_⟩ := list
    exact ⟨here,realZ,linked,real,ends⟩
  | cons a front ih =>
    obtain ⟨here,realA,onward⟩ := list
    refine ⟨here,realA,?_⟩
    rw [same a List.mem_cons_self]
    exact ih onward (fun b member => same b (List.mem_cons_of_mem _ member))

section Walk

variable [DecidableEq α]

/-- Walk to the node whose successor is `null`; the first argument bounds the steps. -/
def last (next : α → α) (null : α) : Nat → α → Option α
  | 0, _ => none
  | fuel + 1, t => if next t = null then some t else last next null fuel (next t)

theorem last_eq (list : IsList next null head (front ++ [z])) {fuel : Nat}
    (enough : front.length < fuel) : last next null fuel head = some z := by
  induction front generalizing head fuel with
  | nil =>
    obtain ⟨rfl,_,ends⟩ := list
    obtain ⟨fuel,rfl⟩ : ∃ k, fuel = k + 1 := ⟨fuel - 1,by simp at enough; omega⟩
    have stop : next head = null := ends
    simp [last,stop]
  | cons a front ih =>
    obtain ⟨rfl,_,onward⟩ := list
    obtain ⟨fuel,rfl⟩ : ∃ k, fuel = k + 1 := ⟨fuel - 1,by simp at enough; omega⟩
    have more : next head ≠ null := by
      rw [ne_eq,IsList.empty_iff onward]
      simp
    rw [last,if_neg more]
    exact ih onward (by simpa using enough)

theorem last_congr (list : IsList next null head l) (same : ∀ a ∈ l, next' a = next a) (real : l ≠ [])
    (fuel : Nat) : last next' null fuel head = last next null fuel head := by
  induction fuel generalizing head l with
  | zero => rfl
  | succ fuel ih =>
    cases l with
    | nil => exact absurd rfl real
    | cons a rest =>
      obtain ⟨rfl,_,onward⟩ := list
      rw [last,last,same head List.mem_cons_self]
      split
      · rfl
      · rename_i more
        refine ih onward (fun b member => same b (List.mem_cons_of_mem _ member)) ?_
        exact fun empty => more (onward.empty_iff.mpr empty)

theorem last_more {fuel more : Nat} (ended : last next null fuel a = some z)
    (enough : fuel ≤ more) : last next null more a = some z := by
  induction fuel generalizing a more with
  | zero => simp [last] at ended
  | succ fuel ih =>
    obtain ⟨more,rfl⟩ : ∃ k, more = k + 1 := ⟨more - 1,by omega⟩
    rw [last] at ended ⊢
    split at ended
    · rename_i stop
      rw [if_pos stop,ended]
    · rename_i onward
      rw [if_neg onward]
      exact ih ended (by omega)

theorem last_unique {fuel other : Nat} (one : last next null fuel a = some x)
    (two : last next null other a = some z) : x = z := by
  have left := last_more one (Nat.le_max_left fuel other)
  have right := last_more two (Nat.le_max_right fuel other)
  exact Option.some.inj (left.symm.trans right)

/-- A walk among nodes that all lead to each other does not end. -/
theorem last_never {S : α → Prop} (closed : ∀ b, S b → next b ≠ null ∧ S (next b)) (inside : S a)
    (fuel : Nat) : last next null fuel a = none := by
  induction fuel generalizing a with
  | zero => rfl
  | succ fuel ih =>
    obtain ⟨more,onward⟩ := closed a inside
    rw [last,if_neg more]
    exact ih onward

theorem last_ends {fuel : Nat} (ended : last next null fuel a = some z) : next z = null := by
  induction fuel generalizing a with
  | zero => contradiction
  | succ fuel ih =>
    rw [last] at ended
    split at ended
    · rename_i stop
      rwa [← Option.some.inj ended]
    · exact ih ended

theorem last_relinked {S : α → Prop} (closed : ∀ b, S b → next b ≠ null ∧ S (next b)) (inside : S x)
    (real : x ≠ null) {fuel : Nat} (ended : last next null fuel a = some z) (more : Nat) :
    last (Function.update next z x) null more a = none := by
  have ends := last_ends ended
  have still : ∀ b, S b → Function.update next z x b ≠ null ∧ S (Function.update next z x b) := by
    intro b member
    have other : b ≠ z := fun same => (closed b member).1 (same ▸ ends)
    rw [Function.update_of_ne other]
    exact closed b member
  induction fuel generalizing a more with
  | zero => contradiction
  | succ fuel ih =>
    cases more with
    | zero => rfl
    | succ more =>
      rw [last] at ended ⊢
      split at ended
      · rw [Option.some.inj ended,Function.update_self,if_neg real]
        exact last_never still inside more
      · rename_i onward
        have other : a ≠ z := fun same => onward (same ▸ ends)
        rw [Function.update_of_ne other,if_neg onward]
        exact ih ended more

end Walk

end RudimentaryKernel.NullList
