import RudimentaryKernel.PageTables

/-! `identity_map` over any range and any directory. The loop installs one static table
for each directory entry it comes to, in order, and leaves every word outside of the
directory and the tables as it was. -/
namespace RudimentaryKernel

open Function

def Layout.staticTable (L : Layout) (i : Nat) : Nat := L.pageTableStorage + i * pageSize

/-- A page that holds none of the static tables. -/
structure Apart (L : Layout) (pd : Nat) : Prop where
  aligned : pd % pageSize = 0
  apart : pd + pageSize ≤ L.pageTableStorage ∨ L.pageTableStorage + 8 * pageSize ≤ pd

section Words

variable {L : Layout} {pd i k j l : Nat}

theorem staticTable_placed (L : Layout) (inside : i < 8) : 0 < L.staticTable i ∧
    L.staticTable i % pageSize = 0 ∧ L.staticTable i < 2^32 :=
  ⟨(L.address_placed (.kernelTable ⟨i,inside⟩)).1,(L.address_placed (.kernelTable ⟨i,inside⟩)).2.1,
    L.address_lt (.kernelTable ⟨i,inside⟩)⟩

theorem staticTable_injective (first : j < 1024) (second : l < 1024)
    (same : L.staticTable i + 4 * j = L.staticTable k + 4 * l) : i = k ∧ j = l := by
  simp only [Layout.staticTable,pageSize] at same
  omega

theorem Apart.word_ne (apart : Apart L pd) (table : i < 8) (first : j < 1024) (second : l < 1024) :
    pd + 4 * j ≠ L.staticTable i + 4 * l := by
  have side := apart.apart
  simp only [Layout.staticTable,pageSize] at side ⊢
  omega

end Words

theorem pageAlign_page {va : Nat} (fits : va < 2^32) :
    (pageAlign (BitVec.ofNat 32 va)).toNat = va / pageSize * pageSize := by
  have mask : ∀ i, (0xFFF#32).getLsbD i = decide (i < 12) := by
    intro i
    rw [BitVec.getLsbD_ofNat,show (0xFFF : Nat) = 2^12 - 1 from rfl,Nat.testBit_two_pow_sub_one]
    by_cases low : i < 12
    · simp [low,show i < 32 by omega]
    · simp [low]
  have page : pageAlign (BitVec.ofNat 32 va) = BitVec.ofNat 32 (va / 2^12 * 2^12) := by
    apply BitVec.eq_of_getLsbD_eq
    intro i inside
    rw [pageAlign,BitVec.getLsbD_and,BitVec.getLsbD_not,mask,BitVec.getLsbD_ofNat,BitVec.getLsbD_ofNat,
      Nat.testBit_mul_two_pow,Nat.testBit_div_two_pow]
    by_cases low : i < 12
    · simp [low,Nat.not_le.mpr low]
    · simp [low,inside,Nat.not_lt.mp low]
  rw [page,BitVec.toNat_ofNat,Nat.mod_eq_of_lt (by omega)]
  rfl

def tablesFor (a n : Nat) : Nat := if n = 0 then 0 else (a + n - 1) / 1024 - a / 1024 + 1

theorem tablesFor_succ (a n : Nat) : tablesFor a (n + 1) = (a + n) / 1024 - a / 1024 + 1 := by
  rw [tablesFor,if_neg (Nat.succ_ne_zero n),← Nat.add_assoc,Nat.add_sub_cancel]

namespace Paging

variable {L : Layout} {first s : Paging L} {pd a n m : Nat}

/-- From the state `first`, `m` tables have been installed in the directory `pd` and `n`
pages mapped from page `a` on. -/
structure RangeMapped (first s : Paging L) (pd a n m : Nat) : Prop where
  kernel : s.kernelPageDirectory = first.kernelPageDirectory
  pdUsed : s.pdUsed = first.pdUsed
  userPtUsed : s.userPtUsed = first.userPtUsed
  frameBitmap : s.frameBitmap = first.frameBitmap
  count : s.ptCount = m
  installed : ∀ i, i < m → i < 8 → a / 1024 + i < 1024 →
    s.ram (pd + 4 * (a / 1024 + i)) = kernelEntry (L.staticTable i)
  empty : ∀ j < 1024, j < a / 1024 ∨ a / 1024 + m ≤ j → s.ram (pd + 4 * j) = 0
  pages : ∀ i < 8, ∀ j < 1024, s.ram (L.staticTable i + 4 * j) =
    if a ≤ (a / 1024 + i) * 1024 + j ∧ (a / 1024 + i) * 1024 + j < a + n
    then kernelEntry (((a / 1024 + i) * 1024 + j) * pageSize)
    else first.ram (L.staticTable i + 4 * j)
  outside : ∀ x, (∀ j < 1024, x ≠ pd + 4 * j) → (∀ i < 8, ∀ j < 1024, x ≠ L.staticTable i + 4 * j) →
    s.ram x = first.ram x

theorem RangeMapped.start (count : s.ptCount = 0) (empty : ∀ j < 1024, s.ram (pd + 4 * j) = 0) :
    RangeMapped s s pd a 0 0 := by
  refine ⟨rfl,rfl,rfl,rfl,count,fun i before => absurd before (Nat.not_lt_zero i),
    fun j inside _ => empty j inside,fun i _ j _ => ?_,fun _ _ _ => rfl⟩
  rw [if_neg (by omega)]

theorem RangeMapped.table (mapped : RangeMapped first s pd a n m) (apart : Apart L pd) (room : m < 8)
    (inside : a / 1024 + m < 1024) :
    RangeMapped first (({ s with ptCount := s.ptCount + 1 } : Paging L).store (pd + 4 * (a / 1024 + m))
      (kernelEntry (L.staticTable m))) pd a n (m + 1) := by
  refine ⟨mapped.kernel,mapped.pdUsed,mapped.userPtUsed,mapped.frameBitmap,congrArg (· + 1) mapped.count,
    ?_,?_,?_,?_⟩
  · intro i before table within
    by_cases last : i = m
    · subst last
      exact update_self ..
    · exact (update_of_ne (by omega) ..).trans (mapped.installed i (by omega) table within)
  · intro j within beyond
    exact (update_of_ne (by omega) ..).trans (mapped.empty j within (by omega))
  · intro i table j within
    exact (update_of_ne (apart.word_ne table inside within).symm ..).trans (mapped.pages i table j within)
  · intro x noEntry noTable
    exact (update_of_ne (noEntry _ inside) ..).trans (mapped.outside x noEntry noTable)

theorem RangeMapped.page (mapped : RangeMapped first s pd a n m) (apart : Apart L pd)
    (table : (a + n) / 1024 - a / 1024 < 8) :
    RangeMapped first (s.store (L.staticTable ((a + n) / 1024 - a / 1024) + 4 * ((a + n) % 1024))
      (kernelEntry ((a + n) * pageSize))) pd a (n + 1) m := by
  have place : (a + n) % 1024 < 1024 := Nat.mod_lt _ (by decide)
  refine ⟨mapped.kernel,mapped.pdUsed,mapped.userPtUsed,mapped.frameBitmap,mapped.count,?_,?_,?_,?_⟩
  · intro i before inTables within
    exact (update_of_ne (apart.word_ne table within place) ..).trans (mapped.installed i before inTables within)
  · intro j within beyond
    exact (update_of_ne (apart.word_ne table within place) ..).trans (mapped.empty j within beyond)
  · intro i inTables j within
    by_cases last : (a / 1024 + i) * 1024 + j = a + n
    · obtain ⟨rfl,rfl⟩ : i = (a + n) / 1024 - a / 1024 ∧ j = (a + n) % 1024 := by omega
      have newest : a ≤ a + n ∧ a + n < a + (n + 1) := by omega
      rw [last,if_pos newest]
      exact update_self ..
    · have elsewhere : L.staticTable i + 4 * j ≠
          L.staticTable ((a + n) / 1024 - a / 1024) + 4 * ((a + n) % 1024) := by
        intro same
        obtain ⟨row,column⟩ := staticTable_injective within place same
        omega
      have before : (a ≤ (a / 1024 + i) * 1024 + j ∧ (a / 1024 + i) * 1024 + j < a + (n + 1)) ↔
          (a ≤ (a / 1024 + i) * 1024 + j ∧ (a / 1024 + i) * 1024 + j < a + n) := by omega
      rw [if_congr before rfl rfl,← mapped.pages i inTables j within,Paging.store]
      dsimp only
      rw [update_of_ne elsewhere]
  · intro x noEntry noTable
    exact (update_of_ne (noTable _ table _ place) ..).trans (mapped.outside x noEntry noTable)

theorem RangeMapped.storeEntry (mapped : RangeMapped first s pd a n m) (fits : a + n < 2^20)
    (installed : (a + n) / 1024 - a / 1024 < m) (table : (a + n) / 1024 - a / 1024 < 8) (entry : Word) :
    s.storeEntry pd ((a + n) * pageSize) entry =
      s.store (L.staticTable ((a + n) / 1024 - a / 1024) + 4 * ((a + n) % 1024)) entry := by
  have row : pdIndex ((a + n) * pageSize) = a / 1024 + ((a + n) / 1024 - a / 1024) := by
    unfold pdIndex pageSize
    omega
  have column : ptIndex ((a + n) * pageSize) = (a + n) % 1024 := by
    unfold ptIndex pageSize
    omega
  obtain ⟨_,aligned,small⟩ := staticTable_placed L table
  have pde := mapped.installed _ installed table (by omega)
  rw [Paging.storeEntry,row,column,pde,kernelEntry_base aligned small]

/-- One turn of the loop maps the next page, after installing a table where the directory
has none. -/
theorem RangeMapped.turn (mapped : RangeMapped first s pd a n (tablesFor a n)) (apart : Apart L pd)
    (fits : a + n + 1 < 2^20) (table : (a + n) / 1024 - a / 1024 < 8) (stop : Nat)
    (going : (a + n) * pageSize < stop) : ∃ after, RangeMapped first after pd a (n + 1) (tablesFor a (n + 1)) ∧
      ∀ fuel, identityLoop pd stop (fuel + 1) s ((a + n) * pageSize) =
        identityLoop pd stop fuel after ((a + (n + 1)) * pageSize) := by
  have row : pdIndex ((a + n) * pageSize) = a / 1024 + ((a + n) / 1024 - a / 1024) := by
    unfold pdIndex pageSize
    omega
  have next : add32 ((a + n) * pageSize) pageSize = (a + (n + 1)) * pageSize := by
    unfold add32 pageSize
    omega
  obtain ⟨positive,aligned,_⟩ := staticTable_placed L table
  rw [tablesFor_succ]
  by_cases begins : tablesFor a n = (a + n) / 1024 - a / 1024
  · rw [begins] at mapped
    have zero := mapped.empty (a / 1024 + ((a + n) / 1024 - a / 1024)) (by omega) (.inr (Nat.le_refl _))
    have installed := mapped.table apart table (by omega)
    have allocated : s.allocPageTable = (({ s with ptCount := s.ptCount + 1 } : Paging L),
        L.staticTable ((a + n) / 1024 - a / 1024)) := by
      rw [allocPageTable,if_neg (by rw [mapped.count]; omega),mapped.count]
      rfl
    have stored := installed.storeEntry (by omega) (by omega) table (kernelEntry ((a + n) * pageSize))
    refine ⟨_,installed.page apart table,fun fuel => ?_⟩
    rw [identityLoop,if_neg (by omega)]
    dsimp only
    rw [row,next,zero,if_pos (by simp),allocated]
    dsimp only
    rw [if_neg (by omega)]
    exact congrArg (fun s => identityLoop _ _ fuel s _) stored
  · have already : tablesFor a n = (a + n) / 1024 - a / 1024 + 1 := by
      unfold tablesFor at begins ⊢
      split at begins
      · simp_all
      · rw [if_neg (by assumption)]
        omega
    rw [already] at mapped
    have present := mapped.installed _ (Nat.lt_succ_self _) table (by omega)
    have stored := mapped.storeEntry (by omega) (Nat.lt_succ_self _) table (kernelEntry ((a + n) * pageSize))
    refine ⟨_,mapped.page apart table,fun fuel => ?_⟩
    rw [identityLoop,if_neg (by omega)]
    dsimp only
    rw [row,next,present,if_neg (kernelEntry_present aligned)]
    exact congrArg (fun s => identityLoop _ _ fuel s _) stored

/-- The loop ends after one more turn than there are pages left, and not before. -/
theorem RangeMapped.loop (mapped : RangeMapped first s pd a n (tablesFor a n)) (stop pages : Nat)
    (apart : Apart L pd) (last : pages = (stop + 4095) / 4096 - a) (fits : stop ≤ 0xFFFFF000)
    (few : 0 < pages → (a + pages - 1) / 1024 - a / 1024 < 8) (bound : n ≤ pages) :
    ∃ after, RangeMapped first after pd a pages (tablesFor a pages) ∧
      ∀ fuel, identityLoop pd stop fuel s ((a + n) * pageSize) = if pages - n < fuel then some after else none := by
  obtain ⟨left,split⟩ := Nat.exists_eq_add_of_le bound
  induction left generalizing s n with
  | zero =>
    obtain rfl : n = pages := split.symm
    refine ⟨s,mapped,fun fuel => ?_⟩
    cases fuel with
    | zero => rfl
    | succ fuel =>
      rw [identityLoop,if_pos (by simp only [pageSize]; omega),if_pos (by omega)]
  | succ left ih =>
    obtain ⟨after,next,turn⟩ := mapped.turn apart (by omega) (by omega) stop (by simp only [pageSize]; omega)
    obtain ⟨final,done,loop⟩ := ih next (by omega) (by omega)
    refine ⟨final,done,fun fuel => ?_⟩
    cases fuel with
    | zero => rfl
    | succ fuel =>
      have same : pages - n < fuel + 1 ↔ pages - (n + 1) < fuel := by omega
      rw [turn,loop]
      simp only [same]

theorem RangeMapped.translate (mapped : RangeMapped first s pd a n (tablesFor a n))
    (few : 0 < n → (a + n - 1) / 1024 - a / 1024 < 8)
    (zeroed : ∀ i < 8, ∀ j < 1024,
      ¬(a ≤ (a / 1024 + i) * 1024 + j ∧ (a / 1024 + i) * 1024 + j < a + n) →
        first.ram (L.staticTable i + 4 * j) = 0) {va : Nat} (fits : va < 2^32) :
    if a ≤ va / pageSize ∧ va / pageSize < a + n
    then translate s.ram pd va = some (va,false) ∧ mayWrite s.ram pd va = true
    else translate s.ram pd va = none := by
  have row : pdIndex va = va / pageSize / 1024 := by
    unfold pdIndex pageSize
    omega
  have column : ptIndex va = va / pageSize % 1024 := by
    unfold ptIndex pageSize
    omega
  have inDirectory : va / pageSize / 1024 < 1024 := by
    unfold pageSize
    omega
  have inTable : va / pageSize % 1024 < 1024 := Nat.mod_lt _ (by decide)
  have bytes : va / pageSize * pageSize + va % pageSize = va := Nat.div_add_mod' ..
  simp only [RudimentaryKernel.translate,mayWrite]
  generalize va / pageSize = page at *
  rw [row,column]
  by_cases covered : a / 1024 ≤ page / 1024 ∧ page / 1024 < a / 1024 + tablesFor a n
  · obtain ⟨i,place⟩ := Nat.exists_eq_add_of_le covered.1
    have table : i < tablesFor a n ∧ i < 8 := by
      have bound := covered.2
      unfold tablesFor at bound ⊢
      split at bound
      · omega
      · rw [if_neg (by assumption)]
        omega
    obtain ⟨_,aligned,small⟩ := staticTable_placed L table.2
    have pde := mapped.installed i table.1 table.2 (by omega)
    have pte := mapped.pages i table.2 (page % 1024) inTable
    have whole : (a / 1024 + i) * 1024 + page % 1024 = page := by omega
    have untouched := zeroed i table.2 (page % 1024) inTable
    rw [whole] at pte untouched
    rw [place,pde,kernelEntry_base aligned small,pte,if_neg (kernelEntry_present aligned)]
    by_cases inside : a ≤ page ∧ page < a + n
    · have pageAligned : page * pageSize % pageSize = 0 := Nat.mul_mod_left _ _
      have supervisor : kernelEntry (L.staticTable i) &&& kernelEntry (page * pageSize) &&& pageUser = 0 := by
        rw [BitVec.and_assoc,kernelEntry_user pageAligned]
        simp
      have writable : kernelEntry (L.staticTable i) &&& kernelEntry (page * pageSize) &&& pageRw = pageRw := by
        rw [BitVec.and_assoc,kernelEntry_rw pageAligned,kernelEntry_rw aligned]
      rw [if_pos inside,if_pos inside,if_neg (kernelEntry_present pageAligned),
        kernelEntry_base pageAligned (by simp only [pageSize]; omega),bytes,supervisor,writable]
      exact ⟨rfl,rfl⟩
    · rw [if_neg inside,if_neg inside,untouched inside]
      simp
  · have outside : ¬(a ≤ page ∧ page < a + n) := by
      unfold tablesFor at covered
      split at covered <;> omega
    rw [if_neg outside,mapped.empty _ inDirectory (by omega)]
    simp

end Paging

end RudimentaryKernel
