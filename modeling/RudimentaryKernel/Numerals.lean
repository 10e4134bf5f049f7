import Mathlib.Data.Nat.Digits.Lemmas

/-! Positional numerals, highest digit first. The numeral of zero is a single zero; every other
number has one without leading zeros, and only one. -/
namespace RudimentaryKernel.Numerals

variable {base n : Nat} {digits : List Nat}

def value (base : Nat) (digits : List Nat) : Nat := digits.foldl (fun n d => d + base * n) 0

structure IsNumeral (base n : Nat) (digits : List Nat) : Prop where
  filled : digits ≠ []
  below : ∀ d ∈ digits, d < base
  leading : digits.head? = some 0 → digits = [0]
  value : value base digits = n

def numeral (base n : Nat) : List Nat := if n = 0 then [0] else (Nat.digits base n).reverse

theorem value_reverse (base : Nat) (digits : List Nat) :
    value base digits.reverse = Nat.ofDigits base digits := by
  rw [value,List.foldl_reverse,Nat.ofDigits_eq_foldr]
  rfl

theorem numeral_isNumeral (proper : 1 < base) (n : Nat) : IsNumeral base n (numeral base n) := by
  unfold numeral
  split
  · rename_i zero
    exact ⟨by simp,by simpa using (by omega : 0 < base),fun _ => rfl,by simp [value,zero]⟩
  · rename_i positive
    have filled : Nat.digits base n ≠ [] := Nat.digits_ne_nil_iff_ne_zero.mpr positive
    refine ⟨by simpa using filled,?_,?_,?_⟩
    · intro d member
      exact Nat.digits_lt_base proper (List.mem_reverse.mp member)
    · intro zero
      rw [List.head?_reverse,List.getLast?_eq_some_getLast filled,Option.some.injEq] at zero
      exact absurd zero (Nat.getLast_digit_ne_zero base positive)
    · rw [value_reverse,Nat.ofDigits_digits]

theorem IsNumeral.eq (proper : 1 < base) (is : IsNumeral base n digits) : digits = numeral base n := by
  have number := is.value
  rw [← digits.reverse_reverse,value_reverse] at number
  by_cases zero : digits.head? = some 0
  · have single := is.leading zero
    subst single
    have none : n = 0 := by simpa using number.symm
    simp [numeral,none]
  · have unique : Nat.digits base n = digits.reverse := by
      rw [← number]
      refine Nat.digits_ofDigits base proper _ (fun d member => is.below d (List.mem_reverse.mp member)) ?_
      intro filled last
      rw [List.getLast_reverse] at last
      exact zero (by rw [← last,List.head?_eq_some_head])
    have positive : n ≠ 0 := by
      rintro rfl
      rw [Nat.digits_zero] at unique
      exact is.filled (by simpa using unique.symm)
    rw [numeral,if_neg positive,unique,List.reverse_reverse]

/-- The lowest digit is a remainder, and those before it are the numeral of the quotient. -/
theorem numeral_step (proper : 1 < base) (n : Nat) :
    numeral base n = (if n / base = 0 then [] else numeral base (n / base)) ++ [n % base] := by
  by_cases zero : n = 0
  · simp [numeral,zero]
  · rw [numeral,if_neg zero,Nat.digits_def' proper (Nat.pos_of_ne_zero zero),List.reverse_cons]
    by_cases last : n / base = 0
    · simp [last]
    · simp [last,numeral]

end RudimentaryKernel.Numerals
