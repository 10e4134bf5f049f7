import Mathlib.Data.List.Range
import Mathlib.Logic.Function.Basic

/-! Circular buffers of any capacity over any type. A region is given by where it
starts and how long it is; it may wrap around the end of the buffer at any element. -/
namespace RudimentaryKernel.Circular

open Function

/-- The `count` elements from `start` on. -/
def read (capacity : Nat) (buffer : Nat → α) (start count : Nat) : List α :=
  (List.range count).map (fun i => buffer ((start + i) % capacity))

/-- Store the elements of the list from `start` on, in order. -/
def write (capacity : Nat) (buffer : Nat → α) (start : Nat) : List α → Nat → α
  | [] => buffer
  | a :: rest => write capacity (update buffer (start % capacity) a) (start + 1) rest

variable {capacity start count more distance : Nat} {buffer : Nat → α} {l : List α}

@[simp] theorem length_read : (read capacity buffer start count).length = count := by
  simp [read]

theorem read_one : read capacity buffer start 1 = [buffer (start % capacity)] := by
  simp [read]

theorem read_append : read capacity buffer start (count + more) =
    read capacity buffer start count ++ read capacity buffer (start + count) more := by
  simp [read,List.range_add,Nat.add_assoc]

theorem take_read (inside : count ≤ more) :
    (read capacity buffer start more).take count = read capacity buffer start count := by
  obtain ⟨rest,rfl⟩ := Nat.exists_eq_add_of_le inside
  rw [read_append,List.take_left' length_read]

theorem drop_read (inside : count ≤ more) : (read capacity buffer start more).drop count =
    read capacity buffer (start + count) (more - count) := by
  obtain ⟨rest,rfl⟩ := Nat.exists_eq_add_of_le inside
  rw [read_append,List.drop_left' length_read,Nat.add_sub_cancel_left]

@[simp] theorem read_mod : read capacity buffer (start % capacity) count =
    read capacity buffer start count := by
  simp [read]

@[simp] theorem write_mod : write capacity buffer (start % capacity) l =
    write capacity buffer start l := by
  induction l generalizing buffer start with
  | nil => rfl
  | cons a l ih =>
    have left : write capacity (update buffer (start % capacity) a) ((start % capacity + 1) % capacity) l =
        write capacity (update buffer (start % capacity) a) (start % capacity + 1) l := ih
    have right : write capacity (update buffer (start % capacity) a) ((start + 1) % capacity) l =
        write capacity (update buffer (start % capacity) a) (start + 1) l := ih
    rw [write,write,Nat.mod_mod,← left,← right,Nat.mod_add_mod]

theorem mod_apart {i j : Nat} (later : i < j) (near : j < i + capacity) :
    (start + i) % capacity ≠ (start + j) % capacity := by
  intro same
  have whole : (start + j - (start + i)) % capacity = 0 := Nat.sub_mod_eq_zero_of_mod_eq same.symm
  rw [Nat.add_sub_add_left,Nat.mod_eq_of_lt (by omega)] at whole
  omega

theorem write_get (index : Nat) (outside : ∀ i, i < l.length → (start + i) % capacity ≠ index) :
    write capacity buffer start l index = buffer index := by
  induction l generalizing buffer start with
  | nil => rfl
  | cons a l ih =>
    have first := outside 0 (by simp)
    rw [write,ih,update_of_ne (fun same => first (by simpa using same.symm))]
    intro i bound
    have later := outside (i + 1) (by simpa using bound)
    rwa [show start + (i + 1) = start + 1 + i by omega] at later

theorem read_write (fits : l.length ≤ capacity) :
    read capacity (write capacity buffer start l) start l.length = l := by
  induction l generalizing buffer start with
  | nil => rfl
  | cons a l ih =>
    rw [List.length_cons,Nat.add_comm,read_append,write,ih (by simp at fits; omega),read_one]
    simp only [List.singleton_append,List.cons.injEq,and_true]
    rw [write_get,update_self]
    intro i bound
    have apart : (start + 0) % capacity ≠ (start + (i + 1)) % capacity :=
      mod_apart (by omega) (by simp at fits; omega)
    rw [Nat.add_assoc,Nat.add_comm 1 i]
    exact Ne.symm apart

theorem read_before (apart : count ≤ distance) (fits : distance + l.length ≤ capacity) :
    read capacity (write capacity buffer (start + distance) l) start count =
      read capacity buffer start count := by
  apply List.map_congr_left
  intro i member
  apply write_get
  intro j bound
  have inside := List.mem_range.mp member
  rw [Nat.add_assoc]
  exact Ne.symm (mod_apart (by omega) (by omega))

end RudimentaryKernel.Circular
