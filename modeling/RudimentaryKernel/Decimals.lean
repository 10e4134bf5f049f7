import RudimentaryKernel.FormatReads

/-! The two decimal printers, `serial_print(int)` of `drivers/serial.cpp` and the `%d` of
`fd_printf_internal`, against the decimal numeral of a signed word. The first negates and
drops the digits of the one word that has no negation; the second has no sign. -/
namespace RudimentaryKernel

open ByteMemory Numerals

/-- What the first loop of `serial_print(int)` leaves in its buffer, lowest digit first. -/
def serialBuffer : Nat → Int → List Byte
  | 0, _ => []
  | room + 1, value =>
    if 0 < value then BitVec.ofInt 8 ((ascii '0').toInt + value.tmod 10) :: serialBuffer room (value.tdiv 10)
    else []

/-- The characters that `serial_print(int)` writes; its buffer has 12 places. -/
def serialPrint (value : Int) : List Byte :=
  if value = 0 then [ascii '0']
  else
    let sign := if value < 0 then [ascii '-'] else []
    let value := if value < 0 then int32 (-value) else value
    sign ++ (serialBuffer 12 value).reverse

def unsigned (text : List Byte) : List Byte := if text.head? = some (ascii '-') then text.tail else text

/-- The text is the decimal numeral of `v`: it has a sign exactly when `v` is negative, and
otherwise digits without leading zeros. -/
structure IsDecimal (v : Int) (text : List Byte) : Prop where
  sign : text.head? = some (ascii '-') ↔ v < 0
  characters : ∀ c ∈ unsigned text, (ascii '0').toNat ≤ c.toNat ∧ c.toNat ≤ (ascii '9').toNat
  digits : IsNumeral 10 v.natAbs ((unsigned text).map (fun c => c.toNat - (ascii '0').toNat))

def decimal (v : Int) : List Byte := (if v < 0 then [ascii '-'] else []) ++ numeralText 10 v.natAbs

theorem digit_toNat {d : Nat} (small : d < 10) : (digits.getD d 0).toNat = 48 + d := by
  have all : ∀ d < 10, (digits.getD d 0).toNat = 48 + d := by decide
  exact all d small

theorem numeralText_digits (n : Nat) : ∀ c ∈ numeralText 10 n, 48 ≤ c.toNat ∧ c.toNat ≤ 57 := by
  intro c member
  obtain ⟨d,inside,rfl⟩ := List.mem_map.mp member
  have small := (numeral_isNumeral (by decide : 1 < 10) n).below d inside
  rw [digit_toNat small]
  omega

theorem numeralText_unsigned (n : Nat) : (numeralText 10 n).head? ≠ some (ascii '-') := by
  intro sign
  have character := numeralText_digits n _ (List.mem_of_mem_head? sign)
  revert character
  decide

theorem decimal_unsigned (v : Int) : unsigned (decimal v) = numeralText 10 v.natAbs := by
  unfold unsigned decimal
  split
  · rfl
  · exact if_neg (numeralText_unsigned v.natAbs)

theorem decimal_isDecimal (v : Int) : IsDecimal v (decimal v) := by
  refine ⟨?_,?_,?_⟩
  · unfold decimal
    split
    · rename_i negative
      exact iff_of_true rfl negative
    · rename_i other
      exact iff_of_false (numeralText_unsigned v.natAbs) other
  · rw [decimal_unsigned]
    exact numeralText_digits v.natAbs
  · have numeral := numeral_isNumeral (by decide : 1 < 10) v.natAbs
    have back : (unsigned (decimal v)).map (fun c => c.toNat - (ascii '0').toNat) = Numerals.numeral 10 v.natAbs := by
      rw [decimal_unsigned,numeralText,List.map_map]
      refine (List.map_congr_left (fun d member => ?_)).trans (List.map_id _)
      have digit := digit_toNat (numeral.below d member)
      change (digits.getD d 0).toNat - 48 = d
      omega
    rwa [back]

/-- No other text is the decimal numeral of `v`. -/
theorem IsDecimal.eq {v : Int} {text : List Byte} (is : IsDecimal v text) : text = decimal v := by
  have number := is.digits.eq (by decide)
  have characters : unsigned text = numeralText 10 v.natAbs := by
    rw [numeralText,← number,List.map_map]
    refine ((List.map_congr_left (fun c member => ?_)).trans (List.map_id _)).symm
    obtain ⟨low,high⟩ := is.characters c member
    have digit := digit_toNat (d := c.toNat - 48) (by change c.toNat ≤ 57 at high; omega)
    apply BitVec.eq_of_toNat_eq
    change 48 ≤ c.toNat at low
    refine digit.trans ?_
    change 48 + (c.toNat - 48) = c.toNat
    omega
  unfold decimal
  by_cases negative : v < 0
  · have sign := is.sign.mpr negative
    rw [if_pos negative,← characters,unsigned,if_pos sign]
    exact (List.cons_head?_tail sign).symm
  · have none := mt is.sign.mp negative
    rw [if_neg negative,← characters,unsigned,if_neg none]
    rfl

theorem serialBuffer_numeral {room n : Nat} (fits : n < 10^room) :
    (serialBuffer room n).reverse = if n = 0 then [] else numeralText 10 n := by
  induction room generalizing n with
  | zero =>
    have zero : n = 0 := by simpa using fits
    rw [if_pos zero]
    rfl
  | succ room ih =>
    by_cases zero : n = 0
    · simp [serialBuffer,zero]
    · have digit : BitVec.ofInt 8 ((ascii '0').toInt + (n : Int).tmod 10) = digits.getD (n % 10) 0 := by
        have all : ∀ d : Nat, d < 10 → BitVec.ofInt 8 ((ascii '0').toInt + (d : Int)) = digits.getD d 0 := by decide
        exact all (n % 10) (Nat.mod_lt n (by decide))
      have quotient : (n : Int).tdiv 10 = ((n / 10 : Nat) : Int) := rfl
      rw [serialBuffer,if_pos (by omega),digit,quotient,List.reverse_cons,
        ih (Nat.div_lt_of_lt_mul (by rwa [← Nat.pow_succ'])),if_neg zero,← numeralText_step (by decide)]

theorem serialPrint_decimal {v : Int} (low : -2^31 < v) (high : v < 2^31) : serialPrint v = decimal v := by
  unfold serialPrint decimal
  by_cases zero : v = 0
  · simp [zero,numeralText,numeral,digits]
  · have size : (if v < 0 then int32 (-v) else v) = (v.natAbs : Int) := by
      split
      · rw [int32_eq (by omega) (by omega)]
        omega
      · omega
    have positive : v.natAbs ≠ 0 := by omega
    rw [if_neg zero]
    dsimp only
    rw [size,serialBuffer_numeral (by omega)]
    simp only [if_neg positive]

theorem serialPrint_sign {v : Int} (negative : v < 0) : (serialPrint v).head? = some (ascii '-') := by
  have nonzero : v ≠ 0 := by omega
  simp [serialPrint,negative,nonzero]

theorem emits_decimal {memory : Memory} {fmt : Nat} (format : HasText memory fmt [ascii '%',ascii 'd']) (args : Nat) :
    Emits memory fmt args (numeralText 10 (load memory 4 args)) := by
  obtain ⟨strings,texts⟩ := exists_strings format
  have parsed : directives [ascii '%',ascii 'd'] = some [.number 10] := rfl
  have emits := emits_shown texts format parsed args
  rw [show [Directive.number 10].countP Directive.takes = 0 + 1 from rfl,argumentWords_succ] at emits
  simpa [rendering,Directive.takes,Directive.shown] using emits

/-- For a signed word, `%d` puts the decimal numeral exactly when the word is not negative, and
`serial_print(int)` exactly when it is not the least. The two agree exactly when it is not
negative. -/
theorem decimal_printers_iff (v : BitVec 32) (memory : Memory) (fmt args : Nat)
    (format : HasText memory fmt [ascii '%',ascii 'd']) (argument : load memory 4 args = v.toNat) :
    ∃ text, Emits memory fmt args text ∧ (IsDecimal v.toInt text ↔ 0 ≤ v.toInt) ∧
      (IsDecimal v.toInt (serialPrint v.toInt) ↔ v.toInt ≠ -2^31) ∧ (serialPrint v.toInt = text ↔ 0 ≤ v.toInt) := by
  have low : -2^31 ≤ v.toInt := BitVec.le_toInt v
  have high : v.toInt < 2^31 := BitVec.toInt_lt
  have plain : 0 ≤ v.toInt → numeralText 10 v.toNat = decimal v.toInt := by
    intro positive
    have word : v.toInt.natAbs = v.toNat := by
      have reading := BitVec.toInt_eq_toNat_cond v
      split at reading
      all_goals omega
    rw [decimal,if_neg (by omega),word]
    rfl
  have percent : IsDecimal v.toInt (numeralText 10 v.toNat) ↔ 0 ≤ v.toInt := by
    constructor
    · intro is
      by_contra negative
      exact numeralText_unsigned _ (is.sign.mpr (by omega))
    · intro positive
      rw [plain positive]
      exact decimal_isDecimal v.toInt
  have serial : IsDecimal v.toInt (serialPrint v.toInt) ↔ v.toInt ≠ -2^31 := by
    constructor
    · intro is least
      rw [least] at is
      exact is.digits.filled (by decide)
    · intro other
      rw [serialPrint_decimal (by omega) high]
      exact decimal_isDecimal v.toInt
  refine ⟨numeralText 10 v.toNat,argument ▸ emits_decimal format args,percent,serial,?_,?_⟩
  · intro same
    by_contra negative
    exact numeralText_unsigned _ (same ▸ serialPrint_sign (by omega))
  · intro positive
    exact (serial.mpr (by omega)).eq.trans (percent.mpr positive).eq.symm

/-- Both print 7 as its numeral. -/
theorem seven_printed : ∃ memory : Memory, HasText memory 0 [ascii '%',ascii 'd'] ∧ load memory 4 4 = 7 ∧
    Emits memory 0 4 (serialPrint 7) ∧ IsDecimal 7 (serialPrint 7) := by
  let memory : Memory := fun a => [ascii '%',ascii 'd',0,0,7].getD a 0
  have format : HasText memory 0 [ascii '%',ascii 'd'] := ⟨rfl,by decide,rfl,by decide,rfl⟩
  have argument : load memory 4 4 = (7#32).toNat := by decide +kernel
  obtain ⟨text,emits,_,serial,same⟩ := decimal_printers_iff 7#32 memory 0 4 format argument
  have positive : 0 ≤ (7#32).toInt := by decide
  refine ⟨memory,format,argument,?_,serial.mpr (by decide)⟩
  rw [← same.mpr positive] at emits
  exact emits

/-- The word of -1 is printed as "-1" and as "4294967295", and of the least word
`serial_print(int)` prints the sign only. -/
theorem negative_words_misprinted : ∃ memory : Memory, HasText memory 0 [ascii '%',ascii 'd'] ∧
    load memory 4 4 = (-1#32).toNat ∧ serialPrint (-1) = ['-','1'].map ascii ∧
    Emits memory 0 4 (['4','2','9','4','9','6','7','2','9','5'].map ascii) ∧
    serialPrint (BitVec.intMin 32).toInt = [ascii '-'] := by
  let memory : Memory := fun a => [ascii '%',ascii 'd',0,0,255,255,255,255].getD a 0
  have format : HasText memory 0 [ascii '%',ascii 'd'] := ⟨rfl,by decide,rfl,by decide,rfl⟩
  have argument : load memory 4 4 = 4294967295 := by decide +kernel
  have text : numeralText 10 4294967295 = ['4','2','9','4','9','6','7','2','9','5'].map ascii := by
    simp [numeralText,numeral,digits]
  refine ⟨memory,format,argument,by decide +kernel,?_,by decide +kernel⟩
  rw [← text,← argument]
  exact emits_decimal format 4

end RudimentaryKernel
