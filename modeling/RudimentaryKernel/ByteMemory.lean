import Mathlib.Algebra.Ring.Nat
import Mathlib.Logic.Function.Basic

/-! A memory of `2^32` bytes with little-endian words. Addresses wrap; a range that does
not wrap is one that ends at `2^32` or before. -/
namespace RudimentaryKernel.ByteMemory

open Function

abbrev Memory := Nat → BitVec 8

/-- The `n` bytes from `a` on as a number, lowest byte first. -/
def load (m : Memory) : Nat → Nat → Nat
  | 0, _ => 0
  | n + 1, a => (m (a % 2^32)).toNat + 256 * load m n (a + 1)

/-- The lowest `n` bytes of `value` go to `a` and the addresses behind it. -/
def store (m : Memory) : Nat → Nat → Nat → Memory
  | 0, _, _ => m
  | n + 1, a, value => store (update m (a % 2^32) (BitVec.ofNat 8 value)) n (a + 1) (value / 256)

variable {m m' : Memory} {n k a b value : Nat}

theorem load_lt : load m n a < 256^n := by
  induction n generalizing a with
  | zero => simp [load]
  | succ n ih =>
    have rest := @ih (a + 1)
    have byte := (m (a % 2^32)).isLt
    rw [load,Nat.pow_succ]
    omega

theorem load_mod : load m n (a % 2^32) = load m n a := by
  induction n generalizing a with
  | zero => rfl
  | succ n ih =>
    rw [load,load,Nat.mod_mod,← ih (a := a % 2^32 + 1),Nat.mod_add_mod,ih]

theorem load_agree (same : ∀ i < n, m' ((a + i) % 2^32) = m ((a + i) % 2^32)) : load m' n a = load m n a := by
  induction n generalizing a with
  | zero => rfl
  | succ n ih =>
    have rest : ∀ i < n, m' ((a + 1 + i) % 2^32) = m ((a + 1 + i) % 2^32) := by
      intro i below
      rw [Nat.add_assoc,Nat.add_comm 1]
      exact same (i + 1) (by omega)
    have here : m' (a % 2^32) = m (a % 2^32) := same 0 (by omega)
    rw [load,load,here,ih rest]

theorem store_outside (outside : ∀ i < n, b ≠ (a + i) % 2^32) : store m n a value b = m b := by
  induction n generalizing m a value with
  | zero => rfl
  | succ n ih =>
    have rest : ∀ i < n, b ≠ (a + 1 + i) % 2^32 := by
      intro i below
      rw [Nat.add_assoc,Nat.add_comm 1]
      exact outside (i + 1) (by omega)
    have here : b ≠ a % 2^32 := outside 0 (by omega)
    rw [store,ih rest,update_of_ne here]

theorem load_store_outside (outside : ∀ i < n, ∀ j < k, (a + i) % 2^32 ≠ (b + j) % 2^32) :
    load (store m k b value) n a = load m n a :=
  load_agree (fun i below => store_outside (outside i below))

/-- What is stored is what is loaded, as long as it does not run into itself. -/
theorem load_store_wrapped (fits : n ≤ 2^32) : load (store m n a value) n a = value % 256^n := by
  induction n generalizing m a value with
  | zero => simp [load,Nat.mod_one]
  | succ n ih =>
    have byte : store (update m (a % 2^32) (BitVec.ofNat 8 value)) n (a + 1) (value / 256) (a % 2^32) =
        BitVec.ofNat 8 value := by
      rw [store_outside (fun i below => by omega),update_self]
    have split : value % 256^(n + 1) = value % 256 + 256 * (value / 256 % 256^n) := by
      rw [Nat.pow_succ',Nat.mod_mul]
    rw [load,store,byte,ih (by omega),BitVec.toNat_ofNat,split]

theorem store_zero_inside {i : Nat} (inside : i < n) : store m n a 0 ((a + i) % 2^32) = 0 := by
  induction n generalizing m a i with
  | zero => omega
  | succ n ih =>
    by_cases again : ∃ j < n, (a + i) % 2^32 = (a + 1 + j) % 2^32
    · obtain ⟨j,below,same⟩ := again
      rw [store,same,Nat.zero_div,ih below]
    · have first : i = 0 := by
        by_contra later
        exact again ⟨i - 1,by omega,by rw [show a + 1 + (i - 1) = a + i by omega]⟩
      subst first
      rw [store,Nat.zero_div,store_outside (fun j below same => again ⟨j,below,same⟩)]
      exact update_self ..

theorem zero_of_load (zero : load m n a = 0) {i : Nat} (inside : i < n) : m ((a + i) % 2^32) = 0 := by
  induction n generalizing a i with
  | zero => omega
  | succ n ih =>
    rw [load] at zero
    cases i with
    | zero =>
      apply BitVec.eq_of_toNat_eq
      change (m (a % 2^32)).toNat = 0
      omega
    | succ i =>
      rw [Nat.add_comm i,← Nat.add_assoc]
      exact ih (by omega) (by omega)

theorem load_congr (inside : a + n ≤ 2^32) (same : ∀ b, a ≤ b → b < a + n → m' b = m b) :
    load m' n a = load m n a := by
  apply load_agree
  intro i below
  rw [Nat.mod_eq_of_lt (by omega)]
  exact same (a + i) (by omega) (by omega)

theorem store_apart (inside : a + n ≤ 2^32) (outside : b < a ∨ a + n ≤ b) :
    store m n a value b = m b := by
  apply store_outside
  intro i below
  rw [Nat.mod_eq_of_lt (by omega)]
  omega

theorem load_store (inside : a + n ≤ 2^32) : load (store m n a value) n a = value % 256^n :=
  load_store_wrapped (by omega)

theorem load_store_apart (first : a + n ≤ 2^32) (second : b + k ≤ 2^32)
    (apart : a + n ≤ b ∨ b + k ≤ a) : load (store m k b value) n a = load m n a :=
  load_congr first (fun _ _ _ => store_apart second (by omega))

theorem load_byte (inside : a + n ≤ 2^32) (low : a ≤ b) (high : b < a + n) :
    m b = BitVec.ofNat 8 (load m n a / 256^(b - a)) := by
  induction n generalizing a with
  | zero => omega
  | succ n ih =>
    have here : a % 2^32 = a := Nat.mod_eq_of_lt (by omega)
    have byte := (m a).isLt
    rw [load,here]
    by_cases first : b = a
    · subst b
      apply BitVec.eq_of_toNat_eq
      rw [Nat.sub_self,Nat.pow_zero,Nat.div_one,BitVec.toNat_ofNat]
      omega
    · have tail : ((m a).toNat + 256 * load m n (a + 1)) / 256 = load m n (a + 1) := by omega
      have exponent : b - a = 1 + (b - (a + 1)) := by omega
      rw [exponent,Nat.pow_add,Nat.pow_one,← Nat.div_div_eq_div_mul,tail]
      exact ih (by omega) (by omega) (by omega)

theorem store_zero (inside : a + n ≤ 2^32) (low : a ≤ b) (high : b < a + n) : store m n a 0 b = 0 := by
  have place : b = (a + (b - a)) % 2^32 := by
    rw [Nat.mod_eq_of_lt (by omega)]
    omega
  rw [place]
  exact store_zero_inside (by omega)

theorem load_zero (inside : a + n ≤ 2^32) (zero : ∀ b, a ≤ b → b < a + n → m b = 0) : load m n a = 0 := by
  induction n generalizing a with
  | zero => rfl
  | succ n ih =>
    have here : a % 2^32 = a := Nat.mod_eq_of_lt (by omega)
    rw [load,here,zero a (by omega) (by omega),
      ih (by omega) (fun b low high => zero b (by omega) (by omega))]
    rfl

/-- A store makes two memories agree where it writes. -/
theorem store_agree (inside : a + n ≤ 2^32) (same : b < a ∨ a + n ≤ b → m' b = m b) :
    store m' n a value b = store m n a value b := by
  by_cases within : a ≤ b ∧ b < a + n
  · rw [load_byte (m := store m' n a value) inside within.1 within.2,
      load_byte (m := store m n a value) inside within.1 within.2,load_store inside,load_store inside]
  · have outside : b < a ∨ a + n ≤ b := by omega
    rw [store_apart inside outside,store_apart inside outside,same outside]

end RudimentaryKernel.ByteMemory
