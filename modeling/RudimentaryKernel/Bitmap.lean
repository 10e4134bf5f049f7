import RudimentaryKernel.Target

/-! Bit sets stored in bytes, as `bitmap_get`, `bitmap_mark` and `bitmap_unmark`
address them: byte `index / 8`, bit `index % 8`; and the search for the first entry
of an array that is not taken. -/
namespace RudimentaryKernel

/-- The search loop of the allocators, from index `i` with `remaining` indices to go. -/
def firstClear (taken : Nat → Bool) : Nat → Nat → Option Nat
  | 0, _ => none
  | remaining + 1, i => if taken i then firstClear taken remaining (i + 1) else some i

theorem firstClear_none {taken : Nat → Bool} {remaining i : Nat}
    (full : firstClear taken remaining i = none) :
    ∀ j, i ≤ j → j < i + remaining → taken j = true := by
  induction remaining generalizing i with
  | zero => intro j low high; omega
  | succ remaining ih =>
    intro j low high
    simp only [firstClear] at full
    split at full
    · rename_i marked
      by_cases here : j = i
      · subst j; exact marked
      · exact ih full j (by omega) (by omega)
    · contradiction

theorem firstClear_some {taken : Nat → Bool} {remaining i id : Nat}
    (found : firstClear taken remaining i = some id) :
    i ≤ id ∧ id < i + remaining ∧ taken id = false ∧
      ∀ j, i ≤ j → j < id → taken j = true := by
  induction remaining generalizing i with
  | zero => simp [firstClear] at found
  | succ remaining ih =>
    simp only [firstClear] at found
    split at found
    · rename_i marked
      obtain ⟨low,high,clear,below⟩ := ih found
      refine ⟨by omega,by omega,clear,?_⟩
      intro j low before
      by_cases here : j = i
      · subst j; exact marked
      · exact below j (by omega) before
    · rename_i clear
      cases found
      exact ⟨Nat.le_refl _,by omega,by simpa using clear,fun j low high => by omega⟩

def bitmapGet (bitmap : Nat → Byte) (index : Nat) : Bool :=
  bitmap (index / 8) &&& (1#8 <<< (index % 8)) != 0#8

def bitmapMark (bitmap : Nat → Byte) (index : Nat) : Nat → Byte :=
  Function.update bitmap (index / 8) (bitmap (index / 8) ||| (1#8 <<< (index % 8)))

def bitmapUnmark (bitmap : Nat → Byte) (index : Nat) : Nat → Byte :=
  Function.update bitmap (index / 8) (bitmap (index / 8) &&& ~~~(1#8 <<< (index % 8)))

private theorem mask_bit (bit position : Nat) (inside : bit < 8) :
    (1#8 <<< bit).getLsbD position = decide (position = bit) := by
  by_cases same : position = bit
  · subst position
    simp [inside]
  · by_cases bound : position < 8
    · by_cases later : bit ≤ position
      · have apart : position - bit ≠ 0 := by omega
        simp [bound,same,Nat.not_lt.mpr later,apart]
      · simp [BitVec.getLsbD_shiftLeft,same,Nat.lt_of_not_le later]
    · simp [BitVec.getLsbD_shiftLeft,bound,same]

theorem bitmapGet_eq_bit (bitmap : Nat → Byte) (index : Nat) :
    bitmapGet bitmap index = (bitmap (index / 8)).getLsbD (index % 8) := by
  have inside : index % 8 < 8 := Nat.mod_lt _ (by decide)
  rw [Bool.eq_iff_iff]
  constructor
  · intro hit
    by_contra clear
    have zero : bitmap (index / 8) &&& (1#8 <<< (index % 8)) = 0#8 := by
      apply BitVec.eq_of_getLsbD_eq
      intro position _
      rw [BitVec.getLsbD_and,mask_bit _ _ inside]
      by_cases same : position = index % 8
      · subst position
        simp [Bool.eq_false_iff.mpr clear]
      · simp [same]
    simp [bitmapGet,zero] at hit
  · intro set
    have lit : (bitmap (index / 8) &&& (1#8 <<< (index % 8))).getLsbD (index % 8) = true := by
      rw [BitVec.getLsbD_and,mask_bit _ _ inside,set]
      simp
    simp only [bitmapGet,bne_iff_ne,ne_eq]
    intro zero
    rw [zero] at lit
    simp at lit

theorem bitmap_ext {a b : Nat → Byte} (same : ∀ index, bitmapGet a index = bitmapGet b index) : a = b := by
  funext row
  apply BitVec.eq_of_getLsbD_eq
  intro position inside
  have bit := same (8 * row + position)
  rwa [bitmapGet_eq_bit,bitmapGet_eq_bit,show (8 * row + position) / 8 = row by omega,
    show (8 * row + position) % 8 = position by omega] at bit

@[simp] theorem bitmapGet_mark (bitmap : Nat → Byte) (i j : Nat) :
    bitmapGet (bitmapMark bitmap i) j = (decide (i = j) || bitmapGet bitmap j) := by
  rw [bitmapGet_eq_bit,bitmapGet_eq_bit]
  by_cases row : j / 8 = i / 8
  · have inside : i % 8 < 8 := Nat.mod_lt _ (by decide)
    rw [bitmapMark,row,Function.update_self,BitVec.getLsbD_or,mask_bit _ _ inside,Bool.or_comm]
    by_cases column : j % 8 = i % 8
    · have same : i = j := by omega
      simp [same]
    · have different : i ≠ j := by omega
      simp [column,different]
  · have different : i ≠ j := by omega
    rw [bitmapMark,Function.update_of_ne row]
    simp [different]

@[simp] theorem bitmapGet_unmark (bitmap : Nat → Byte) (i j : Nat) :
    bitmapGet (bitmapUnmark bitmap i) j = (!decide (i = j) && bitmapGet bitmap j) := by
  rw [bitmapGet_eq_bit,bitmapGet_eq_bit]
  by_cases row : j / 8 = i / 8
  · have inside : i % 8 < 8 := Nat.mod_lt _ (by decide)
    have place : j % 8 < 8 := Nat.mod_lt _ (by decide)
    rw [bitmapUnmark,row,Function.update_self,BitVec.getLsbD_and,BitVec.getLsbD_not,
      mask_bit _ _ inside,Bool.and_comm]
    by_cases column : j % 8 = i % 8
    · have same : i = j := by omega
      simp [same,column]
    · have different : i ≠ j := by omega
      simp [column,different,place]
  · have different : i ≠ j := by omega
    rw [bitmapUnmark,Function.update_of_ne row]
    simp [different]

theorem bitmapUnmark_mark {bitmap : Nat → Byte} {index : Nat} (clear : bitmapGet bitmap index = false) :
    bitmapUnmark (bitmapMark bitmap index) index = bitmap := by
  apply bitmap_ext
  intro other
  by_cases same : index = other
  · subst same
    simp [clear]
  · simp [same]

end RudimentaryKernel
