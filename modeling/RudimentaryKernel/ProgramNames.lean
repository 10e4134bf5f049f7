import Mathlib.Data.List.TakeWhile
import RudimentaryKernel.ImageTrust

/-! Names of programs. `createimage` cuts the basename of a path to fifteen characters, `load_program`
cuts the name it is given, and the directory is searched for the one among the other. -/
namespace RudimentaryKernel.CreateImage

open ByteBlocks

section Names

variable {name : Nat → Byte}

def cut (name : Nat → Byte) : List Byte := ((List.range 15).map name).takeWhile (· != 0)

theorem zero_notMem_cut (name : Nat → Byte) : 0 ∉ cut name := by
  intro member
  have real := List.mem_takeWhile_imp member
  simp at real

theorem cut_eq (name : Nat → Byte) :
    cut name = (List.range ((firstClear (fun i => name i != 0) 15 0).getD 15)).map name := by
  cases outcome : firstClear (fun i => name i != 0) 15 0 with
  | none =>
    rw [Option.getD_none,cut,List.takeWhile_eq_self_iff]
    intro byte member
    obtain ⟨i,inside,rfl⟩ := List.mem_map.mp member
    exact firstClear_none outcome i (Nat.zero_le _) (by simpa using inside)
  | some i =>
    obtain ⟨_,below,clear,before⟩ := firstClear_some outcome
    have start : ((List.range 15).map name).take i = (List.range i).map name := by
      rw [← List.map_take,List.take_range,Nat.min_eq_left (by omega)]
    have next : ((List.range 15).map name).drop i = name i :: ((List.range 15).map name).drop (i + 1) := by
      rw [List.drop_eq_getElem_cons (by simpa using below),List.getElem_map,List.getElem_range]
    rw [Option.getD_some,cut,← List.take_append_drop i ((List.range 15).map name),start,next,
      List.takeWhile_append_of_pos,List.takeWhile_cons_of_neg (by simpa using clear),List.append_nil]
    intro byte member
    obtain ⟨j,inside,rfl⟩ := List.mem_map.mp member
    exact before j (Nat.zero_le _) (List.mem_range.mp inside)

theorem kname_getD (name : Nat → Byte) (j : Nat) : kname name j = (cut name).getD j 0 := by
  rw [cut_eq,kname]
  generalize (firstClear (fun i => name i != 0) 15 0).getD 15 = length
  dsimp only
  split
  · rename_i inside
    rw [List.getD_eq_getElem _ _ (by simpa using inside),List.getElem_map,List.getElem_range]
  · rename_i beyond
    rw [List.getD_eq_default _ _ (by simpa using beyond)]

theorem strcmp_eq_zero_iff {s t : Nat → Byte} {first second : List Byte} {n i : Nat}
    (left : ∀ j ≤ first.length, s (i + j) = first.getD j 0)
    (right : ∀ j ≤ second.length, t (i + j) = second.getD j 0)
    (real : 0 ∉ first) (real' : 0 ∉ second) (enough : first.length ≤ n) :
    strcmp s t n i = 0 ↔ first = second := by
  induction first generalizing second n i with
  | nil =>
    have ended : s i = 0 := left 0 (Nat.le_refl _)
    have here : t i = second.getD 0 0 := right 0 (Nat.zero_le _)
    have difference : strcmp s t n i = (s i).toNat - (t i).toNat := by
      cases n with
      | zero => rfl
      | succ n => rw [strcmp,if_neg (fun both => both.1 ended)]
    rw [difference,ended,here]
    cases second with
    | nil => simp
    | cons b rest =>
      have nonzero : b.toNat ≠ 0 := by
        intro zero
        have same : b = 0 := BitVec.eq_of_toNat_eq zero
        simp [same] at real'
      simp
      omega
  | cons a rest ih =>
    obtain ⟨m,rfl⟩ : ∃ m, n = m + 1 := ⟨n - 1,by rw [List.length_cons] at enough; omega⟩
    have here : s i = a := left 0 (Nat.zero_le _)
    have there : t i = second.getD 0 0 := right 0 (Nat.zero_le _)
    have nonzero : a ≠ 0 := by
      rintro rfl
      simp at real
    rw [strcmp]
    by_cases same : t i = a
    · rw [if_pos ⟨by rwa [here],by rw [here,same]⟩]
      cases second with
      | nil => exact absurd (same.symm.trans there) nonzero
      | cons b others =>
        obtain rfl : a = b := same.symm.trans there
        refine Iff.trans (ih ?_ ?_ ?_ ?_ ?_) (List.cons_inj_right a).symm
        · intro j inside
          rw [Nat.add_right_comm,Nat.add_assoc,left (j + 1) (Nat.succ_le_succ inside),List.getD_cons_succ]
        · intro j inside
          rw [Nat.add_right_comm,Nat.add_assoc,right (j + 1) (Nat.succ_le_succ inside),List.getD_cons_succ]
        · exact fun member => real (List.mem_cons_of_mem _ member)
        · exact fun member => real' (List.mem_cons_of_mem _ member)
        · exact Nat.le_of_succ_le_succ enough
    · rw [if_neg (fun both => same (by rw [← both.2,here])),here]
      have apart : a.toNat ≠ (t i).toNat := fun equal => same (BitVec.eq_of_toNat_eq equal).symm
      constructor
      · intro zero
        omega
      · rintro rfl
        exact absurd there same

theorem zero_notMem_basename (path : CString) : 0 ∉ basenameSimple path := by
  intro member
  have among := List.takeWhile_sublist _ |>.subset (List.mem_reverse.mp member)
  exact path.ended (List.mem_reverse.mp among)

theorem strncpy_padded {text : List Byte} {n k : Nat} (real : 0 ∉ text) :
    strncpy (text ++ List.replicate k 0) n = text.take n ++ List.replicate (n - (text.take n).length) 0 := by
  have stops : (text ++ List.replicate k 0).takeWhile (· != 0) = text := by
    rw [List.takeWhile_append_of_pos]
    · cases k with
      | zero => simp
      | succ k => simp [List.replicate_succ]
    · intro byte member
      simp only [bne_iff_ne,ne_eq]
      rintro rfl
      exact real member
  rw [strncpy,stops]

theorem entry_name (path : CString) (j : Nat) :
    (strncpy (strncpy (basenameSimple path) 15 ++ [0]) 15 ++ [0]).getD j 0 =
      ((basenameSimple path).take 15).getD j 0 := by
  have real := zero_notMem_basename path
  have real' : 0 ∉ (basenameSimple path).take 15 := fun member => real (List.mem_of_mem_take member)
  have inner := strncpy_padded (n := 15) (k := 0) real
  rw [List.replicate_zero,List.append_nil] at inner
  have outer := strncpy_padded (n := 15) (k := 15 - ((basenameSimple path).take 15).length + 1) real'
  rw [List.replicate_succ',← List.append_assoc,← inner,List.take_take,Nat.min_self] at outer
  rw [outer,List.append_assoc]
  have zeros : List.replicate (15 - ((basenameSimple path).take 15).length) (0 : Byte) ++ [0] =
      List.replicate (15 - ((basenameSimple path).take 15).length + 1) 0 := List.replicate_succ'.symm
  rw [zeros,getD_append_zeros]

def Matches (path : CString) (name : Nat → Byte) : Prop := (basenameSimple path).take 15 = cut name

/-- The first program that answers to `name` is number `i`, and the directory has room for it. -/
structure Selects (paths : List CString) (name : Nat → Byte) (i : Nat) (path : CString) : Prop where
  room : i < maxEntries
  at_place : paths[i]? = some path
  answers : Matches path name
  first : ∀ j < i, ∀ other, paths[j]? = some other → ¬Matches other name

theorem Selects.unique {paths : List CString} {i j : Nat} {path other : CString}
    (one : Selects paths name i path) (two : Selects paths name j other) : i = j ∧ path = other := by
  have same : i = j := by
    rcases Nat.lt_trichotomy i j with before | same | after
    · exact absurd one.answers (two.first i before _ one.at_place)
    · exact same
    · exact absurd two.answers (one.first j after _ two.at_place)
  subst same
  exact ⟨rfl,Option.some.inj (one.at_place.symm.trans two.at_place)⟩

end Names

section Search

variable {host : Host} {paths : List CString} {users : List FileInfo} {user : FileInfo} {path : CString}
  {name : Nat → Byte} {sector : Sector} {next i : Nat}

theorem entry_matches (name : Nat → Byte) (holds : ∀ j < 512, sector j = (dirSector next users).getD j 0)
    (opened : Opened host path user) (listed : (users.take maxEntries)[i]? = some user) :
    ((programDirEntry sector i).name 0 = 0 ↔ basenameSimple path = []) ∧
    (strcmp (programDirEntry sector i).name (kname name) 16 0 = 0 ↔ Matches path name) := by
  obtain ⟨_,_,_,_,same⟩ := opened
  have field : user.name = strncpy (basenameSimple path) 15 ++ [0] := by rw [same]
  have chars : ∀ j < 16, (programDirEntry sector i).name j = ((basenameSimple path).take 15).getD j 0 := by
    intro j inside
    rw [(dirSector_entry next holds listed).1 j inside,field,entry_name]
  have short : ((basenameSimple path).take 15).length ≤ 15 := List.length_take_le ..
  have real : 0 ∉ (basenameSimple path).take 15 :=
    fun member => zero_notMem_basename path (List.mem_of_mem_take member)
  constructor
  · rw [chars 0 (by decide)]
    cases basename : basenameSimple path with
    | nil => simp
    | cons first rest =>
      rw [basename] at real
      simp only [List.take_succ_cons,List.getD_cons_zero,List.mem_cons,not_or] at real ⊢
      exact iff_of_false (Ne.symm real.1) (List.cons_ne_nil _ _)
  · refine strcmp_eq_zero_iff ?_ ?_ real (zero_notMem_cut name) (by omega)
    · intro j inside
      rw [Nat.zero_add,chars j (by omega)]
    · intro j _
      rw [Nat.zero_add,kname_getD]

/-- The search from entry `i` on stops at the first program that answers. -/
theorem findProgram_selects (name : Nat → Byte) (holds : ∀ j < 512, sector j = (dirSector next users).getD j 0)
    (opened : List.Forall₂ (Opened host) paths users) (named : ∀ path ∈ paths, basenameSimple path ≠ [])
    (remaining : Nat) (total : i + remaining = maxEntries)
    (before : ∀ j < i, ∀ other, paths[j]? = some other → ¬Matches other name) :
    (∃ l path user, Selects paths name l path ∧ users[l]? = some user ∧
      findProgram sector (kname name) remaining i = some (programDirEntry sector l)) ∨
    (∀ l < maxEntries, ∀ path, paths[l]? = some path → ¬Matches path name) ∧
      findProgram sector (kname name) remaining i = none := by
  induction remaining generalizing i with
  | zero =>
    obtain rfl : i = maxEntries := total
    exact .inr ⟨before,rfl⟩
  | succ remaining ih =>
    have room : i < maxEntries := by omega
    rw [findProgram]
    by_cases listed : i < users.length
    · have within : i < paths.length := by rwa [opened.length_eq]
      have here : users[i]? = some users[i] := List.getElem?_eq_getElem listed
      have there : paths[i]? = some paths[i] := List.getElem?_eq_getElem within
      have entry : (users.take maxEntries)[i]? = some users[i] := by rw [List.getElem?_take_of_lt room,here]
      obtain ⟨blank,compared⟩ := entry_matches name holds (opened.get within listed) entry
      rw [if_neg (fun zero => named _ (List.getElem_mem within) (blank.mp zero))]
      by_cases answers : Matches paths[i] name
      · rw [if_pos (compared.mpr answers)]
        exact .inl ⟨i,paths[i],users[i],⟨room,there,answers,before⟩,here,rfl⟩
      · rw [if_neg (fun zero => answers (compared.mp zero))]
        refine ih (by omega) (fun j earlier other found => ?_)
        by_cases last : j = i
        · subst last
          obtain rfl := Option.some.inj (there.symm.trans found)
          exact answers
        · exact before j (by omega) other found
    · -- behind the last program the name is empty
      have short : (users.take maxEntries).length ≤ i := by
        rw [List.length_take]
        omega
      have sixteen : maxEntries = 16 := rfl
      have blank : (programDirEntry sector i).name 0 = 0 :=
        (holds (32 * i + 0) (by omega)).trans (dirSector_beyond short)
      rw [if_pos blank]
      refine .inr ⟨fun l _ path found => ?_,rfl⟩
      obtain ⟨inside,_⟩ := List.getElem?_eq_some_iff.mp found
      have length := opened.length_eq
      exact before l (by omega) path found

end Search

end RudimentaryKernel.CreateImage
