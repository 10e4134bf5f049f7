import Mathlib.Data.List.Basic
import Mathlib.Data.List.Nodup
import Mathlib.Algebra.BigOperators.Group.List.Basic
import Mathlib.Algebra.Ring.Nat

/-! Consecutive blocks that tile an interval. Blocks are members of an arbitrary
type with a start and a size; the list gives them in address order. -/
namespace RudimentaryKernel.Tiling

/-- The blocks of the list fill `[low, high)` in order, without gap or overlap. -/
def Tiles (start size : α → Nat) : Nat → List α → Nat → Prop
  | low, [], high => low = high
  | low, b :: rest, high => start b = low ∧ Tiles start size (low + size b) rest high

variable {start size start' size' : α → Nat} {low mid high : Nat} {a b c : α} {l before after : List α}

@[simp] theorem tiles_nil : Tiles start size low [] high ↔ low = high := Iff.rfl

@[simp] theorem tiles_cons : Tiles start size low (b :: l) high ↔
    start b = low ∧ Tiles start size (low + size b) l high := Iff.rfl

theorem tiles_append : Tiles start size low (before ++ after) high ↔
    ∃ mid, Tiles start size low before mid ∧ Tiles start size mid after high := by
  induction before generalizing low with
  | nil => simp
  | cons b before ih => simp [ih,and_assoc]

theorem Tiles.congr (tiles : Tiles start size low l high)
    (sameStart : ∀ b ∈ l, start' b = start b) (sameSize : ∀ b ∈ l, size' b = size b) :
    Tiles start' size' low l high := by
  induction l generalizing low with
  | nil => exact tiles
  | cons b l ih =>
    obtain ⟨here,rest⟩ := tiles
    refine ⟨by rw [sameStart b List.mem_cons_self,here],?_⟩
    rw [sameSize b List.mem_cons_self]
    exact ih rest (fun d hd => sameStart d (List.mem_cons_of_mem _ hd))
      (fun d hd => sameSize d (List.mem_cons_of_mem _ hd))

theorem Tiles.total (tiles : Tiles start size low l high) : low + (l.map size).sum = high := by
  induction l generalizing low with
  | nil => simpa using tiles
  | cons b l ih =>
    have rest := ih tiles.2
    simp only [List.map_cons,List.sum_cons]
    omega

theorem Tiles.le (tiles : Tiles start size low l high) : low ≤ high := by
  have total := tiles.total
  omega

theorem Tiles.inside (tiles : Tiles start size low l high) (member : b ∈ l) :
    low ≤ start b ∧ start b + size b ≤ high := by
  obtain ⟨before,after,rfl⟩ := List.append_of_mem member
  obtain ⟨mid,first,here,second⟩ := tiles_append.mp tiles
  have below := first.le
  have above := second.le
  omega

theorem Tiles.disjoint (tiles : Tiles start size low l high) (ha : a ∈ l) (hb : b ∈ l)
    (different : a ≠ b) : start a + size a ≤ start b ∨ start b + size b ≤ start a := by
  obtain ⟨before,after,rfl⟩ := List.append_of_mem ha
  obtain ⟨mid,first,here,second⟩ := tiles_append.mp tiles
  simp only [List.mem_append,List.mem_cons] at hb
  rcases hb with earlier | same | later
  · have bound := first.inside earlier
    omega
  · exact absurd same.symm different
  · have bound := second.inside later
    omega

theorem Tiles.start_injective (tiles : Tiles start size low l high)
    (positive : ∀ b ∈ l, 0 < size b) (ha : a ∈ l) (hb : b ∈ l)
    (same : start a = start b) : a = b := by
  by_contra different
  have apart := tiles.disjoint ha hb different
  have pa := positive a ha
  have pb := positive b hb
  omega

theorem Tiles.split (tiles : Tiles start size low (before ++ a :: after) high)
    (fresh : b ∉ before ++ a :: after) (nodup : (before ++ a :: after).Nodup)
    (cut : size' a + size' b = size a) (place : start' b = start a + size' a)
    (sameStart : ∀ d, d ≠ b → start' d = start d)
    (sameSize : ∀ d, d ≠ b → d ≠ a → size' d = size d) :
    Tiles start' size' low (before ++ a :: b :: after) high := by
  obtain ⟨mid,first,here,second⟩ := tiles_append.mp tiles
  have apart : (∀ d ∈ before, d ≠ b ∧ d ≠ a) ∧ (∀ d ∈ after, d ≠ b ∧ d ≠ a) ∧ a ≠ b := by
    rw [List.nodup_append] at nodup
    simp only [List.mem_append,List.mem_cons,not_or] at fresh
    refine ⟨?_,?_,Ne.symm fresh.2.1⟩
    · intro d hd
      exact ⟨fun same => fresh.1 (same ▸ hd),nodup.2.2 d hd a List.mem_cons_self⟩
    · intro d hd
      refine ⟨fun same => fresh.2.2 (same ▸ hd),?_⟩
      intro same
      exact (List.nodup_cons.mp nodup.2.1).1 (same ▸ hd)
  refine tiles_append.mpr ⟨mid,?_,?_,?_,?_⟩
  · exact first.congr (fun d hd => sameStart d (apart.1 d hd).1)
      (fun d hd => sameSize d (apart.1 d hd).1 (apart.1 d hd).2)
  · rw [sameStart a apart.2.2,here]
  · omega
  · have position : mid + size' a + size' b = mid + size a := by omega
    rw [position]
    exact second.congr (fun d hd => sameStart d (apart.2.1 d hd).1)
      (fun d hd => sameSize d (apart.2.1 d hd).1 (apart.2.1 d hd).2)

theorem Tiles.merge (tiles : Tiles start size low (before ++ a :: b :: after) high)
    (nodup : (before ++ a :: b :: after).Nodup) (grown : size' a = size a + size b)
    (sameStart : ∀ d, d ≠ b → start' d = start d)
    (sameSize : ∀ d, d ≠ b → d ≠ a → size' d = size d) :
    Tiles start' size' low (before ++ a :: after) high := by
  obtain ⟨mid,first,here,next,second⟩ := tiles_append.mp tiles
  have apart : (∀ d ∈ before, d ≠ b ∧ d ≠ a) ∧ (∀ d ∈ after, d ≠ b ∧ d ≠ a) ∧ a ≠ b := by
    rw [List.nodup_append] at nodup
    have inner := nodup.2.1
    simp only [List.nodup_cons,List.mem_cons,not_or] at inner
    refine ⟨?_,?_,inner.1.1⟩
    · intro d hd
      exact ⟨nodup.2.2 d hd b (by simp),nodup.2.2 d hd a (by simp)⟩
    · intro d hd
      exact ⟨fun same => inner.2.1 (same ▸ hd),fun same => inner.1.2 (same ▸ hd)⟩
  refine tiles_append.mpr ⟨mid,?_,?_,?_⟩
  · exact first.congr (fun d hd => sameStart d (apart.1 d hd).1)
      (fun d hd => sameSize d (apart.1 d hd).1 (apart.1 d hd).2)
  · rw [sameStart a apart.2.2,here]
  · have position : mid + size' a = mid + size a + size b := by omega
    rw [position]
    exact second.congr (fun d hd => sameStart d (apart.2.1 d hd).1)
      (fun d hd => sameSize d (apart.2.1 d hd).1 (apart.2.1 d hd).2)

end RudimentaryKernel.Tiling
