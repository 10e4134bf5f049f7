import Mathlib.Algebra.Ring.Int.Defs
import Mathlib.Algebra.Ring.Nat
import Mathlib.Logic.Function.Basic

/-! What all kernel components share: the 32-bit arithmetic of `size_t`,
`uintptr_t` and pointers, printed lines, and the status word of a `Lock`. Words are natural
numbers below `2^32`; every operation that can leave that range wraps. -/
namespace RudimentaryKernel

abbrev Byte := BitVec 8

/-- The `char` of a character literal. -/
def ascii (c : Char) : Byte := BitVec.ofNat 8 c.toNat

def add32 (a b : Nat) : Nat := (a + b) % 2^32

def sub32 (a b : Nat) : Nat := (a + (2^32 - b % 2^32)) % 2^32

/-- What a 32-bit `int` holds of a result. -/
def int32 (x : Int) : Int := x.bmod (2^32)

/-- `-1` converted to an unsigned word. -/
def allOnes : Nat := 2^32 - 1

theorem add32_eq {a b : Nat} (fits : a + b < 2^32) : add32 a b = a + b :=
  Nat.mod_eq_of_lt fits

theorem sub32_eq {a b : Nat} (fits : a < 2^32) (below : b ≤ a) : sub32 a b = a - b := by
  unfold sub32
  omega

theorem int32_eq {x : Int} (low : -2^31 ≤ x) (high : x < 2^31) : int32 x = x := by
  unfold int32
  exact Int.bmod_eq_of_le (by omega) (by omega)

inductive LockStatus where
  | unlocked
  | locked
  deriving DecidableEq, Repr

/-- A `kprintf` call: its format, its word arguments and the strings behind its `%s`. -/
structure Print where
  format : String
  arguments : List Nat
  texts : List (List Byte)
  deriving DecidableEq, Repr

end RudimentaryKernel
