import Mathlib.Algebra.Ring.Nat
import Mathlib.Data.List.GetD

/-! Files as lists of bytes, of which those past the end read as zero. A write replaces what it
covers, little-endian words take four bytes, and blocks lie one behind the other. -/
namespace RudimentaryKernel.ByteBlocks

variable {file data : List (BitVec 8)} {offset i n : Nat}

theorem getD_drop : (file.drop n).getD i 0 = file.getD (n + i) 0 := by
  rw [List.getD_eq_getElem?_getD,List.getElem?_drop,List.getD_eq_getElem?_getD]

theorem getD_take (inside : i < n) : (file.take n).getD i 0 = file.getD i 0 := by
  rw [List.getD_eq_getElem?_getD,List.getElem?_take_of_lt inside,List.getD_eq_getElem?_getD]

theorem getD_append_zeros : (file ++ List.replicate n 0).getD i 0 = file.getD i 0 := by
  by_cases inside : i < file.length
  · exact List.getD_append _ _ _ _ inside
  · rw [List.getD_append_right _ _ _ _ (by omega),List.getD_eq_getElem?_getD,
      List.getElem?_getD_replicate_default_eq,List.getD_eq_default _ _ (by omega)]

theorem eq_of_getD (size : file.length = data.length) (same : ∀ i < data.length, file.getD i 0 = data.getD i 0) :
    file = data := by
  apply List.ext_getElem size
  intro i first second
  have here := same i second
  rwa [List.getD_eq_getElem _ _ first,List.getD_eq_getElem _ _ second] at here

theorem slice_eq (size : data.length = n) (inside : offset + n ≤ file.length)
    (same : ∀ i < n, file.getD (offset + i) 0 = data.getD i 0) : (file.drop offset).take n = data := by
  subst size
  apply eq_of_getD
  · rw [List.length_take,List.length_drop]
    omega
  · intro i within
    rw [getD_take within,getD_drop,same i within]

/-- `data` written at `offset`, behind zeros where the file does not reach that far. -/
def overwrite (file : List (BitVec 8)) (offset : Nat) (data : List (BitVec 8)) : List (BitVec 8) :=
  (file ++ List.replicate (offset - file.length) 0).take offset ++ data ++ file.drop (offset + data.length)

theorem length_overwrite (inside : offset + data.length ≤ file.length) :
    (overwrite file offset data).length = file.length := by
  simp only [overwrite,List.length_append,List.length_take,List.length_replicate,List.length_drop]
  omega

theorem getD_overwrite (inside : offset + data.length ≤ file.length) (i : Nat) :
    (overwrite file offset data).getD i 0 =
      if offset ≤ i ∧ i < offset + data.length then data.getD (i - offset) 0 else file.getD i 0 := by
  have gap : offset - file.length = 0 := by omega
  have start : (file.take offset).length = offset := by
    rw [List.length_take]
    omega
  rw [overwrite,gap,List.replicate_zero,List.append_nil]
  by_cases before : i < offset
  · rw [if_neg (by omega),List.append_assoc,List.getD_append _ _ _ _ (by omega),getD_take before]
  by_cases covered : i < offset + data.length
  · rw [if_pos ⟨by omega,covered⟩,List.getD_append _ _ _ _ (by rw [List.length_append]; omega),
      List.getD_append_right _ _ _ _ (by omega),start]
  · rw [if_neg (by omega),List.getD_append_right _ _ _ _ (by rw [List.length_append]; omega),getD_drop,
      List.length_append,start]
    congr 1
    omega

def fourBytes (word : BitVec 32) : List (BitVec 8) :=
  [word.extractLsb' 0 8,word.extractLsb' 8 8,word.extractLsb' 16 8,word.extractLsb' 24 8]

@[simp] theorem length_fourBytes (word : BitVec 32) : (fourBytes word).length = 4 := rfl

theorem fourBytes_append (word : BitVec 32) :
    word.extractLsb' 24 8 ++ word.extractLsb' 16 8 ++ word.extractLsb' 8 8 ++ word.extractLsb' 0 8 = word := by
  apply BitVec.eq_of_getLsbD_eq
  intro i inside
  simp only [BitVec.getLsbD_append,BitVec.getLsbD_extractLsb']
  repeat' split
  all_goals
    rw [decide_eq_true (by omega),Bool.true_and]
    congr 1
    omega

theorem append_byte (a b c d : BitVec 8) :
    (d ++ c ++ b ++ a).extractLsb' 0 8 = a ∧ (d ++ c ++ b ++ a).extractLsb' 8 8 = b ∧
    (d ++ c ++ b ++ a).extractLsb' 16 8 = c ∧ (d ++ c ++ b ++ a).extractLsb' 24 8 = d := by
  refine ⟨?_,?_,?_,?_⟩
  all_goals
    apply BitVec.eq_of_getLsbD_eq
    intro i inside
    simp only [BitVec.getLsbD_append,BitVec.getLsbD_extractLsb',inside,decide_true,Bool.true_and]
    repeat' split
    all_goals first | omega | skip
    all_goals
      congr 1
      omega

/-- Where block `i` starts among blocks of these sizes. -/
def blockOffset (sizes : List Nat) (i : Nat) : Nat := (sizes.take i).sum

theorem blockOffset_succ {sizes : List Nat} (inside : i < sizes.length) :
    blockOffset sizes (i + 1) = blockOffset sizes i + sizes[i] := by
  rw [blockOffset,List.take_succ_eq_append_getElem inside,List.sum_append,List.sum_singleton,blockOffset]

theorem blockOffset_add_le {sizes : List Nat} (inside : i < sizes.length) :
    blockOffset sizes i + sizes[i] ≤ sizes.sum := by
  have whole := congrArg List.sum (List.take_append_drop (i + 1) sizes)
  rw [List.sum_append] at whole
  rw [← blockOffset_succ inside,blockOffset]
  omega

theorem blockOffset_replicate {size : Nat} (inside : i ≤ n) : blockOffset (List.replicate n size) i = size * i := by
  rw [blockOffset,List.take_replicate,List.sum_replicate_nat,Nat.min_eq_left inside,Nat.mul_comm]

theorem getD_flatten {blocks : List (List (BitVec 8))} {o : Nat} (inside : i < blocks.length)
    (within : o < blocks[i].length) :
    blocks.flatten.getD (blockOffset (blocks.map List.length) i + o) 0 = blocks[i].getD o 0 := by
  induction blocks generalizing i with
  | nil => exact absurd inside (Nat.not_lt_zero _)
  | cons block rest ih =>
    cases i with
    | zero =>
      simp only [blockOffset,List.take_zero,List.sum_nil,Nat.zero_add,List.flatten_cons,List.getElem_cons_zero]
      exact List.getD_append _ _ _ _ within
    | succ i =>
      simp only [blockOffset,List.map_cons,List.take_succ_cons,List.sum_cons,List.flatten_cons,
        List.getElem_cons_succ,Nat.add_assoc]
      rw [List.getD_append_right _ _ _ _ (Nat.le_add_right ..),Nat.add_sub_cancel_left]
      exact ih (by simpa using inside) within

end RudimentaryKernel.ByteBlocks
