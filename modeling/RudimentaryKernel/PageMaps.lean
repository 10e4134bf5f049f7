import RudimentaryKernel.AddressSpaces

/-! What the calls that change page tables do to the address spaces: `identity_map` on a
directory of its own, and `map_page` on one of the directories that share the kernel's
tables. Table contents are arbitrary here; only who points at which table matters. -/
namespace RudimentaryKernel

open Function

namespace Paging

variable {L : Layout} {s : Paging L}

/-- An empty directory, and the static tables unused and zeroed. -/
structure EmptyDirectory (s : Paging L) (pd : Nat) : Prop where
  apart : Apart L pd
  empty : ∀ j < 1024, s.ram (pd + 4 * j) = 0
  unused : s.ptCount = 0
  zeroed : ∀ i < 8, ∀ j < 1024, s.ram (L.staticTable i + 4 * j) = 0

/-- The addresses in question are mapped to themselves, writable, for the kernel alone, and
no others are mapped. -/
def MapsExactly (ram : Ram) (dir : Nat) (mapped : Nat → Prop) : Prop :=
  ∀ va < 2^32, (mapped va → translate ram dir va = some (va,false) ∧ mayWrite ram dir va = true) ∧
    (¬mapped va → translate ram dir va = none)

def InRange (start stop va : Nat) : Prop :=
  (pageAlign (BitVec.ofNat 32 start)).toNat ≤ (pageAlign (BitVec.ofNat 32 va)).toNat ∧
    (pageAlign (BitVec.ofNat 32 va)).toNat < stop

theorem identityMap_range {pd start stop : Nat} (ready : s.EmptyDirectory pd) (order : start ≤ stop)
    (fits : stop ≤ 0xFFFFF000) (few : ∀ va < 2^32, InRange start stop va → pdIndex va < pdIndex start + 8) :
    ∃ after bound, (∀ fuel, bound ≤ fuel → s.identityMap fuel pd start stop = some after) ∧
      MapsExactly after.ram pd (InRange start stop) := by
  have first := pageAlign_page (show start < 2^32 by omega)
  have eight : 0 < (stop + 4095) / 4096 - start / pageSize →
      (start / pageSize + ((stop + 4095) / 4096 - start / pageSize) - 1) / 1024 - start / pageSize / 1024 < 8 := by
    intro more
    have last := few (((stop + 4095) / 4096 - 1) * 4096) (by omega) (by
      rw [InRange,first,pageAlign_page (by omega)]
      simp only [pageSize] at more ⊢
      omega)
    simp only [pdIndex,pageSize] at last more ⊢
    omega
  have begins : RangeMapped s s pd (start / pageSize) 0 (tablesFor (start / pageSize) 0) :=
    .start ready.unused ready.empty
  obtain ⟨after,mapped,loop⟩ := begins.loop stop _ ready.apart rfl fits eight (Nat.zero_le _)
  refine ⟨after,(stop + 4095) / 4096 - start / pageSize + 1,fun fuel enough => ?_,fun va small => ?_⟩
  · rw [identityMap,first]
    exact (loop fuel).trans (if_pos (Nat.lt_of_succ_le enough))
  · have found := mapped.translate eight (fun i table j inside _ => ready.zeroed i table j inside) small
    have same : InRange start stop va ↔ (start / pageSize ≤ va / pageSize ∧
        va / pageSize < start / pageSize + ((stop + 4095) / 4096 - start / pageSize)) := by
      rw [InRange,first,pageAlign_page small]
      simp only [pageSize]
      omega
    rw [same]
    exact ⟨fun inside => (if_pos inside).mp found,fun outside => (if_neg outside).mp found⟩

theorem initPaging_range (static : s.Static) :
    ∃ after bound, (∀ fuel, bound ≤ fuel → s.initPaging fuel = some after) ∧
      MapsExactly after.ram after.kernelPageDirectory (· < 0x2000000) ∧ after.ptCount = 8 ∧
      ∀ i < 8, after.ram (after.kernelPageDirectory + 4 * i) = kernelEntry (L.staticTable i) := by
  obtain ⟨after,console,range,done⟩ := initPaging_eq static
  have kernel : after.kernelPageDirectory = L.pageDirStorage := range.kernel
  refine ⟨_,8193,fun fuel enough => (done fuel).trans (if_pos enough),fun va small => ?_,range.count,fun i table => ?_⟩
  · have inside : (0 ≤ va / pageSize ∧ va / pageSize < 0 + 8192) ↔ va < 0x2000000 := by
      simp only [pageSize]
      omega
    have found := range.translate (fun _ => by decide) (fun i table j inside out => absurd (by omega) out) small
    simp only [inside] at found
    simp only [kernel]
    exact ⟨fun low => (if_pos low).mp found,fun high => (if_neg high).mp found⟩
  · have entry := range.installed i table table (by omega)
    rw [Nat.zero_div,Nat.zero_add] at entry
    simpa only [kernel] using entry

/-- `identity_map` of any range with at most eight directory entries, in an empty directory,
ends and maps exactly the pages of the range; `init_paging` so maps the first 32 MiB and
nothing else, with all eight tables. -/
theorem identity_map_exact (L : Layout) :
    (∀ (s : Paging L) (pd start stop : Nat), s.EmptyDirectory pd → start ≤ stop → stop ≤ 0xFFFFF000 →
      (∀ va < 2^32, InRange start stop va → pdIndex va < pdIndex start + 8) →
      ∃ after bound, (∀ fuel, bound ≤ fuel → s.identityMap fuel pd start stop = some after) ∧
        MapsExactly after.ram pd (InRange start stop)) ∧
    ∀ s : Paging L, s.Static → ∃ after bound, (∀ fuel, bound ≤ fuel → s.initPaging fuel = some after) ∧
      MapsExactly after.ram after.kernelPageDirectory (· < 0x2000000) ∧ after.ptCount = 8 ∧
      ∀ i < 8, after.ram (after.kernelPageDirectory + 4 * i) = kernelEntry (L.staticTable i) :=
  ⟨fun _ _ _ _ ready order fits few => identityMap_range ready order fits few,
    fun _ static => initPaging_range static⟩

/-- One page in a directory of its own. -/
theorem identity_map_page : ∃ after bound,
    (∀ fuel, bound ≤ fuel → Kernel.samplePaging.identityMap fuel 0x29000 0x1234 0x1235 = some after) ∧
      MapsExactly after.ram 0x29000 (InRange 0x1234 0x1235) := by
  refine (identity_map_exact Kernel.sampleLayout).1 _ _ _ _ ⟨⟨by decide,.inr (by decide)⟩,fun _ _ => rfl,rfl,fun _ _ _ _ => rfl⟩
    (by decide) (by decide) (fun va small inside => ?_)
  rw [InRange,pageAlign_page (by decide),pageAlign_page small] at inside
  simp only [pdIndex,pageSize] at inside ⊢
  omega

end Paging

/-- What the page of `va` is mapped to: the frame, and the flags of its entry as far as the
directory's entry grants them. -/
def translation (ram : Ram) (dir va : Nat) : Option (Nat × Word) :=
  let pde := ram (dir + 4 * pdIndex va)
  if pde &&& pagePresent = 0 then none
  else
    let pte := ram ((pageAlign pde).toNat + 4 * ptIndex va)
    if pte &&& pagePresent = 0 then none
    else some ((pageAlign pte).toNat,pte &&& 0xFFF#32 &&& (pde ||| ~~~(pageRw ||| pageUser)))

/-- The flags that the directories grant to the pages of a table: the kernel's tables are
not for users. -/
def Table.grants : Table → Word
  | .userTable _ => BitVec.allOnes 32
  | _ => ~~~pageUser

def seen (table : Table) (pte : Word) : Option (Nat × Word) :=
  if pte &&& pagePresent = 0 then none
  else some ((pageAlign pte).toNat,pte &&& 0xFFF#32 &&& table.grants)

section Flags

variable {base : Nat} {flags : Word}

theorem or_not_eq (x mask : Word) : x ||| ~~~mask = (x &&& mask) ||| ~~~mask := by
  apply BitVec.eq_of_getLsbD_eq
  intro i inside
  simp only [BitVec.getLsbD_or,BitVec.getLsbD_and,BitVec.getLsbD_not]
  cases x.getLsbD i <;> cases mask.getLsbD i <;> simp [inside]

theorem userEntry_grants (aligned : base % pageSize = 0) :
    userEntry base ||| ~~~(pageRw ||| pageUser) = BitVec.allOnes 32 := by
  rw [or_not_eq,userEntry,BitVec.or_assoc,BitVec.or_assoc,entry_and aligned (by decide)]
  decide

theorem kernelEntry_grants (aligned : base % pageSize = 0) :
    kernelEntry base ||| ~~~(pageRw ||| pageUser) = ~~~pageUser := by
  rw [or_not_eq,kernelEntry,BitVec.or_assoc,entry_and aligned (by decide)]
  decide

theorem low_flags (low : flags.toNat < 0x1000) : flags &&& ~~~0xFFF#32 = 0#32 := by
  have masked : flags &&& 0xFFF#32 = flags := by
    apply BitVec.eq_of_toNat_eq
    rw [BitVec.toNat_and,show (0xFFF#32).toNat = 2^12 - 1 from rfl,Nat.and_two_pow_sub_one_eq_mod]
    omega
  rw [← masked,BitVec.and_assoc,show 0xFFF#32 &&& ~~~0xFFF#32 = 0#32 by decide]
  simp

theorem seen_entry (aligned : base % pageSize = 0) (fits : base < 2^32) (low : flags.toNat < 0x1000)
    (table : Table) : seen table (BitVec.ofNat 32 base ||| flags ||| pagePresent) =
      some (base,(flags ||| pagePresent) &&& table.grants) := by
  have small : (flags ||| pagePresent) &&& ~~~0xFFF#32 = 0#32 := by
    rw [BitVec.and_or_distrib_right,low_flags low]
    decide
  have present : (flags ||| pagePresent) &&& pagePresent ≠ 0 := by
    rw [BitVec.and_or_distrib_right,BitVec.and_self]
    intro zero
    have bit := congrArg (fun w => w.getLsbD 0) zero
    simp [pagePresent] at bit
  have whole : (flags ||| pagePresent) &&& 0xFFF#32 = flags ||| pagePresent := by
    have split := BitVec.and_or_distrib_left (x := flags ||| pagePresent) (y := 0xFFF#32) (z := ~~~0xFFF#32)
    rw [small,show 0xFFF#32 ||| ~~~0xFFF#32 = BitVec.allOnes 32 by decide,BitVec.and_allOnes] at split
    simpa using split.symm
  rw [seen,BitVec.or_assoc,entry_and aligned (by decide),if_neg present,pageAlign_entry aligned small,
    entry_and aligned (by decide),whole,BitVec.toNat_ofNat,Nat.mod_eq_of_lt fits]

theorem seen_entry_user (aligned : base % pageSize = 0) (fits : base < 2^32) (low : flags.toNat < 0x1000)
    (u : Fin maxUserPt) : seen (.userTable u) (BitVec.ofNat 32 base ||| flags ||| pagePresent) =
      some (base,flags ||| pagePresent) := by
  rw [seen_entry aligned fits low,Table.grants,BitVec.and_allOnes]

theorem seen_zero (table : Table) : seen table 0 = none := by
  simp [seen]

end Flags

namespace Paging

variable {L : Layout} {s after : Paging L} {links : Fin threadLimit × Nat ≃. Fin maxUserPt}
  {d : Fin threadLimit} {vaddr paddr : Nat} {flags : Word}

/-- `free_page_directory`: the loop stops at the directory that is `pd`. -/
def freePageDirectory (s : Paging L) (pd : Nat) : Paging L :=
  match firstClear (fun i => L.pageDirs + i * pageSize != pd) threadLimit 0 with
  | some i => { s with pdUsed := update s.pdUsed i false }
  | none => s.kprintf "free_page_directory: unknown pd %x\n" [pd]

/-- The tables that can be walked from: the kernel's directory and those in use. -/
def InUse (s : Paging L) : Table → Prop
  | .kernelDirectory => True
  | .directory d => s.pdUsed d = true
  | _ => False

def pointsTo (links : Fin threadLimit × Nat ≃. Fin maxUserPt) (t : Table) (j : Nat) : Option Table :=
  let shared := if low : j < 8 then some (.kernelTable ⟨j,low⟩) else none
  match t with
  | .directory d => match links (d,j) with
    | some u => some (.userTable u)
    | none => shared
  | _ => shared

/-- The word of an entry that leads to a table. -/
def entryFor (L : Layout) : Option Table → Word
  | none => 0
  | some (.userTable u) => userEntry (L.address (.userTable u))
  | some t => kernelEntry (L.address t)

theorem Linked.kernel_entry (linked : s.Linked links) {j : Nat} (inside : j < 1024) :
    s.words .kernelDirectory j = entryFor L (pointsTo links .kernelDirectory j) := by
  simp only [pointsTo]
  by_cases low : j < 8
  · rw [dif_pos low]
    exact linked.shared ⟨j,low⟩
  · rw [dif_neg low]
    exact linked.absent j (by omega) inside

theorem Linked.entry (linked : s.Linked links) {t : Table} (used : s.InUse t) {j : Nat} (inside : j < 1024) :
    s.words t j = entryFor L (pointsTo links t j) := by
  cases t with
  | kernelDirectory => exact linked.kernel_entry inside
  | directory d =>
    have word := linked.directories d used j inside
    cases link : links (d,j) with
    | some u =>
      rw [link] at word
      simp only [pointsTo,link]
      exact word
    | none =>
      rw [link] at word
      have shared := linked.kernel_entry inside
      simp only [pointsTo,link] at shared ⊢
      exact word.trans shared
  | kernelTable i => exact used.elim
  | userTable u => exact used.elim

theorem entryFor_table (table : Table) : entryFor L (some table) &&& pagePresent ≠ 0 ∧
    (pageAlign (entryFor L (some table))).toNat = L.address table ∧
    entryFor L (some table) ||| ~~~(pageRw ||| pageUser) = table.grants := by
  obtain ⟨_,aligned,_⟩ := L.address_placed table
  cases table with
  | userTable u =>
    exact ⟨userEntry_present aligned,userEntry_base aligned (L.address_lt _),userEntry_grants aligned⟩
  | _ => exact ⟨kernelEntry_present aligned,kernelEntry_base aligned (L.address_lt _),kernelEntry_grants aligned⟩

theorem Linked.translation_eq (linked : s.Linked links) {t : Table} (used : s.InUse t) (va : Nat) :
    translation s.ram (L.address t) va =
      (pointsTo links t (pdIndex va)).bind (fun table => seen table (s.words table (ptIndex va))) := by
  have inside := pdIndex_lt va
  have entry := linked.entry used inside
  simp only [words,Layout.words] at entry
  rw [translation]
  dsimp only
  rw [entry]
  cases pointsTo links t (pdIndex va) with
  | none => simp [entryFor]
  | some table =>
    obtain ⟨present,base,grants⟩ := entryFor_table (L := L) table
    rw [if_neg present,base,grants]
    rfl

/-! ### The calls -/

def mapEntry (paddr : Nat) (flags : Word) : Word := BitVec.ofNat 32 paddr ||| flags ||| pagePresent

theorem Linked.storeEntry (linked : s.Linked links) {t table : Table} (used : s.InUse t) (entry : Word)
    (target : pointsTo links t (pdIndex vaddr) = some table) :
    s.storeEntry (L.address t) vaddr entry = s.store (L.address table + 4 * ptIndex vaddr) entry := by
  have inside := pdIndex_lt vaddr
  have pde := linked.entry used inside
  rw [target] at pde
  simp only [words,Layout.words] at pde
  rw [Paging.storeEntry,pde,(entryFor_table (L := L) table).2.1]

theorem Linked.mapPage_present (linked : s.Linked links) (used : s.pdUsed d = true) {table : Table}
    (target : pointsTo links (.directory d) (pdIndex vaddr) = some table) :
    s.mapPage (L.address (.directory d)) vaddr paddr flags =
      s.store (L.address table + 4 * ptIndex vaddr) (mapEntry paddr flags) := by
  have inside := pdIndex_lt vaddr
  have pde := linked.entry (t := .directory d) used inside
  rw [target] at pde
  simp only [words,Layout.words] at pde
  rw [Paging.mapPage]
  dsimp only
  rw [pde,if_neg (entryFor_table (L := L) table).1]
  exact linked.storeEntry (t := .directory d) used _ target

theorem Linked.stored (linked : s.Linked links) (table : Table) {k : Nat} (inside : k < 1024) (word : Word)
    (kernel : table ≠ .kernelDirectory) (own : ∀ d, table ≠ .directory d) :
    (s.store (L.address table + 4 * k) word).Linked links := by
  refine linked.kept rfl (fun j bound => ?_) (fun d j bound => ?_) rfl (fun _ taken => taken)
  · rw [store_words inside bound,if_neg (fun same => kernel same.1.symm)]
  · rw [store_words inside bound,if_neg (fun same => own d same.1.symm)]

theorem pointsTo_table {t table : Table} {j : Nat} (target : pointsTo links t j = some table) :
    (∃ low : j < 8, table = .kernelTable ⟨j,low⟩) ∨ ∃ d u, t = .directory d ∧ links (d,j) = some u ∧ table = .userTable u := by
  have shared : ∀ {found : Option Table}, found = some table →
      (found = if low : j < 8 then some (.kernelTable ⟨j,low⟩) else none) →
      ∃ low : j < 8, table = .kernelTable ⟨j,low⟩ := by
    rintro _ rfl found
    split at found
    · rename_i low
      exact ⟨low,Option.some.inj found⟩
    · cases found
  cases t with
  | directory d =>
    simp only [pointsTo] at target
    cases link : links (d,j) with
    | some u =>
      rw [link] at target
      exact .inr ⟨d,u,rfl,link,(Option.some.inj target).symm⟩
    | none =>
      rw [link] at target
      exact .inl (shared target rfl)
  | _ => exact .inl (shared target rfl)

theorem pointsTo_none {t : Table} {j : Nat} (target : pointsTo links t j = none) : 8 ≤ j := by
  by_contra low
  have small : j < 8 := by omega
  cases t with
  | directory d =>
    simp only [pointsTo] at target
    cases link : links (d,j) <;> simp [link,small] at target
  | _ => simp [pointsTo,small] at target

theorem words_installed {middle : Paging L} {u : Fin maxUserPt} {i k j : Nat} {pde pte : Word} {table : Table}
    (first : i < 1024) (second : k < 1024)
    (words : ∀ table, ∀ j < 1024, middle.words table j = if table = .userTable u then 0 else s.words table j)
    (inside : j < 1024) (apart : ∀ e, table ≠ .directory e) :
    ((middle.store (L.address (.directory d) + 4 * i) pde).store (L.address (.userTable u) + 4 * k) pte).words
        table j = if table = .userTable u then if j = k then pte else 0 else s.words table j := by
  have before : (middle.store (L.address (.directory d) + 4 * i) pde).words table j = middle.words table j := by
    rw [store_words first inside,if_neg (fun same => apart d same.1)]
  rw [store_words second inside,before,words table j inside]
  by_cases own : table = .userTable u
  · by_cases here : j = k
    · rw [if_pos ⟨own,here⟩,if_pos own,if_pos here]
    · rw [if_neg (fun same => here same.2),if_pos own,if_pos own,if_neg here]
  · rw [if_neg (fun same => own same.1),if_neg own,if_neg own]

theorem Linked.mapPage_absent (linked : s.Linked links) (used : s.pdUsed d = true) (vaddr paddr : Nat)
    (flags : Word) (target : pointsTo links (.directory d) (pdIndex vaddr) = none) :
    (∀ u : Fin maxUserPt, s.userPtUsed u = true) ∧
      s.mapPage (L.address (.directory d)) vaddr paddr flags =
        (s.kprintf "alloc_user_page_table: out of page tables\n" []).kprintf "map_page: out of page tables\n" [] ∨
    ∃ (u : Fin maxUserPt) (fresh : links.symm u = none), s.userPtUsed u = false ∧
      (s.mapPage (L.address (.directory d)) vaddr paddr flags).Linked (reassign links (d,pdIndex vaddr) u fresh) ∧
      (s.mapPage (L.address (.directory d)) vaddr paddr flags).pdUsed = s.pdUsed ∧
      ∀ table, ∀ j < 1024, (∀ e, table ≠ .directory e) →
        (s.mapPage (L.address (.directory d)) vaddr paddr flags).words table j =
          if table = .userTable u then if j = ptIndex vaddr then mapEntry paddr flags else 0
          else s.words table j := by
  have first := pdIndex_lt vaddr
  have second := ptIndex_lt vaddr
  have entry := linked.entry (t := .directory d) used first
  rw [target] at entry
  simp only [words,Layout.words,entryFor] at entry
  rcases s.allocUserPageTable_cases with ⟨none,full⟩ | ⟨u,ram,clear,made,words,_⟩
  · refine .inl ⟨full,?_⟩
    rw [Paging.mapPage]
    dsimp only
    rw [entry,if_pos (by simp),none]
    rfl
  · have fresh : links.symm u = none := symm_eq_none (fun place sent => by
      rw [(linked.linked place.1 place.2 u sent).2.1] at clear
      contradiction)
    obtain ⟨positive,aligned,_⟩ := L.address_placed (.userTable u)
    have taken : ∀ v : Fin maxUserPt, s.userPtUsed v = true → update s.userPtUsed u true v = true := by
      intro v inUse
      rw [update_apply]
      split
      · rfl
      · exact inUse
    have cleared : ({ s with userPtUsed := update s.userPtUsed u true, ram := ram } : Paging L).Linked links := by
      refine linked.kept rfl (fun j inside => ?_) (fun e j inside => ?_) rfl taken
      · exact (words _ j inside).trans (if_neg (by simp))
      · exact (words _ j inside).trans (if_neg (by simp))
    have installed := cleared.link (i := pdIndex vaddr) used (update_self ..) (pointsTo_none target) first fresh
    have entered : pointsTo (reassign links (d,pdIndex vaddr) u fresh) (.directory d) (pdIndex vaddr) =
        some (.userTable u) := by
      simp [pointsTo]
    have stored := installed.storeEntry (t := .directory d) used (mapEntry paddr flags) entered
    have whole : s.mapPage (L.address (.directory d)) vaddr paddr flags =
        (({ s with userPtUsed := update s.userPtUsed u true, ram := ram } : Paging L).store
          (L.address (.directory d) + 4 * pdIndex vaddr) (userEntry (L.address (.userTable u)))).store
          (L.address (.userTable u) + 4 * ptIndex vaddr) (mapEntry paddr flags) := by
      rw [Paging.mapPage]
      dsimp only
      rw [entry,if_pos (by simp),made]
      dsimp only
      rw [if_neg (by omega)]
      exact stored
    rw [whole]
    refine .inr ⟨u,fresh,clear,installed.stored _ second _ (by simp) (by simp),rfl,?_⟩
    exact fun table j inside apart => words_installed first second words inside apart

/-- `map_page` has changed one page of one address space: there the page is mapped as it was
told, and every other page of every directory is mapped as before. -/
def MapsOne (s after : Paging L) (pd vaddr paddr : Nat) (flags : Word) : Prop :=
  translation after.ram pd vaddr = some (paddr,flags ||| pagePresent) ∧
  (∀ va < 2^32, va / pageSize ≠ vaddr / pageSize → translation after.ram pd va = translation s.ram pd va) ∧
  (∀ e < threadLimit, s.pdUsed e = true → L.pageDirs + e * pageSize ≠ pd → ∀ va < 2^32,
    translation after.ram (L.pageDirs + e * pageSize) va = translation s.ram (L.pageDirs + e * pageSize) va) ∧
  ∀ va < 2^32, translation after.ram s.kernelPageDirectory va = translation s.ram s.kernelPageDirectory va

theorem same_page {va : Nat} (first : va < 2^32) (second : vaddr < 2^32) (row : pdIndex va = pdIndex vaddr)
    (column : ptIndex va = ptIndex vaddr) : va / pageSize = vaddr / pageSize := by
  simp only [pdIndex,ptIndex,pageSize] at row column ⊢
  omega

/-- It is enough to follow each walk: to the same table, and there to an entry with the same
meaning. -/
theorem MapsOne.of_walks (linked : s.Linked links) {links' : Fin threadLimit × Nat ≃. Fin maxUserPt}
    (after_linked : after.Linked links') (pdUsed : after.pdUsed = s.pdUsed)
    (fits : vaddr < 2^32) (used : s.pdUsed d = true)
    (here : (pointsTo links' (.directory d) (pdIndex vaddr)).bind
      (fun table => seen table (after.words table (ptIndex vaddr))) = some (paddr,flags ||| pagePresent))
    (there : ∀ t, s.InUse t → ∀ va, (t = .directory d → pdIndex va = pdIndex vaddr → ptIndex va ≠ ptIndex vaddr) →
      (pointsTo links' t (pdIndex va)).bind (fun table => seen table (after.words table (ptIndex va))) =
        (pointsTo links t (pdIndex va)).bind (fun table => seen table (s.words table (ptIndex va)))) :
    MapsOne s after (L.address (.directory d)) vaddr paddr flags := by
  have stays : ∀ t, s.InUse t → after.InUse t := by
    intro t inUse
    cases t with
    | directory e => exact (congrFun pdUsed e).trans inUse
    | _ => exact inUse
  have unchanged : ∀ t, s.InUse t → ∀ va, (t = .directory d → pdIndex va = pdIndex vaddr → ptIndex va ≠ ptIndex vaddr) →
      translation after.ram (L.address t) va = translation s.ram (L.address t) va := by
    intro t inUse va other
    rw [after_linked.translation_eq (stays t inUse),linked.translation_eq inUse]
    exact there t inUse va other
  refine ⟨?_,fun va small other => ?_,fun e bound inUse other va small => ?_,fun va small => ?_⟩
  · rw [after_linked.translation_eq (stays (.directory d) used)]
    exact here
  · exact unchanged (.directory d) used va (fun _ row column => other (same_page small fits row column))
  · refine unchanged (.directory ⟨e,bound⟩) inUse va (fun same => ?_)
    obtain rfl := Table.directory.inj same
    exact absurd rfl other
  · rw [linked.kernel]
    exact unchanged .kernelDirectory trivial va (fun same => by cases same)

theorem Linked.mapsOne_linked (linked : s.Linked links) (used : s.pdUsed d = true) {u : Fin maxUserPt}
    (link : links (d,pdIndex vaddr) = some u) (fits : vaddr < 2^32) (aligned : paddr % pageSize = 0)
    (small : paddr < 2^32) (low : flags.toNat < 0x1000) :
    MapsOne s (s.mapPage (L.address (.directory d)) vaddr paddr flags) (L.address (.directory d)) vaddr paddr flags := by
  have target : pointsTo links (.directory d) (pdIndex vaddr) = some (.userTable u) := by
    simp only [pointsTo,link]
  have second := ptIndex_lt vaddr
  have after := linked.stored (.userTable u) second (mapEntry paddr flags) (by simp) (by simp)
  rw [linked.mapPage_present used target]
  refine MapsOne.of_walks linked after rfl fits used ?_ ?_
  · rw [target,Option.bind_some,store_words second second,if_pos ⟨rfl,rfl⟩,mapEntry,
      seen_entry_user aligned small low]
  · intro t inUse va other
    cases walked : pointsTo links t (pdIndex va) with
    | none => rfl
    | some table =>
      rw [Option.bind_some,Option.bind_some,store_words second (ptIndex_lt va),if_neg ?_]
      rintro ⟨rfl,column⟩
      obtain ⟨_,impossible⟩ | ⟨e,v,rfl,found,same⟩ := pointsTo_table walked
      · cases impossible
      · obtain rfl := Table.userTable.inj same
        obtain ⟨rfl,row⟩ := Prod.mk.inj (links.inj found link)
        exact other rfl row column

theorem Linked.mapsOne_unlinked (linked : s.Linked links) (used : s.pdUsed d = true)
    (target : pointsTo links (.directory d) (pdIndex vaddr) = none) {u : Fin maxUserPt}
    (available : s.userPtUsed u = false) (fits : vaddr < 2^32) (aligned : paddr % pageSize = 0)
    (small : paddr < 2^32) (low : flags.toNat < 0x1000) :
    MapsOne s (s.mapPage (L.address (.directory d)) vaddr paddr flags) (L.address (.directory d)) vaddr paddr flags := by
  have second := ptIndex_lt vaddr
  rcases linked.mapPage_absent used vaddr paddr flags target with
    ⟨full,_⟩ | ⟨v,fresh,clear,after,pdUsed,words⟩
  · rw [full u] at available
    cases available
  refine MapsOne.of_walks linked after pdUsed fits used ?_ ?_
  · have entered : pointsTo (reassign links (d,pdIndex vaddr) v fresh) (.directory d) (pdIndex vaddr) =
        some (.userTable v) := by
      simp [pointsTo]
    rw [entered,Option.bind_some,words _ _ second (by simp),if_pos rfl,if_pos rfl,mapEntry,
      seen_entry_user aligned small low]
  · intro t inUse va other
    have column := ptIndex_lt va
    by_cases here : t = .directory d ∧ pdIndex va = pdIndex vaddr
    · obtain ⟨rfl,row⟩ := here
      have entered : pointsTo (reassign links (d,pdIndex vaddr) v fresh) (.directory d) (pdIndex va) =
          some (.userTable v) := by
        simp [pointsTo,row]
      rw [entered,row,target,Option.bind_some,words _ _ column (by simp),if_pos rfl,if_neg (other rfl row),seen_zero]
      rfl
    · have same : pointsTo (reassign links (d,pdIndex vaddr) v fresh) t (pdIndex va) =
          pointsTo links t (pdIndex va) := by
        cases t with
        | directory e =>
          have elsewhere : (e,pdIndex va) ≠ (d,pdIndex vaddr) := by
            intro same
            obtain ⟨rfl,row⟩ := Prod.mk.inj same
            exact here ⟨rfl,row⟩
          simp only [pointsTo,reassign_apply,if_neg elsewhere]
        | _ => rfl
      rw [same]
      cases walked : pointsTo links t (pdIndex va) with
      | none => rfl
      | some table =>
        rw [Option.bind_some,Option.bind_some]
        obtain ⟨_,rfl⟩ | ⟨e,w,rfl,found,rfl⟩ := pointsTo_table walked
        · rw [words _ _ column (by simp),if_neg (by simp)]
        · have apart : w ≠ v := by
            rintro rfl
            rw [(linked.linked _ _ _ found).2.1] at clear
            cases clear
          rw [words _ _ column (by simp),if_neg (by simpa using apart)]

/-- A page of one of the kernel's tables, which every directory shares: the call keeps to one
address space only if it changes nothing at all. -/
theorem Linked.mapsOne_shared (linked : s.Linked links) (used : s.pdUsed d = true) (shared : pdIndex vaddr < 8)
    (fits : vaddr < 2^32) (aligned : paddr % pageSize = 0) (small : paddr < 2^32) (low : flags.toNat < 0x1000) :
    MapsOne s (s.mapPage (L.address (.directory d)) vaddr paddr flags) (L.address (.directory d)) vaddr paddr flags ↔
      translation s.ram s.kernelPageDirectory vaddr = some (paddr,flags ||| pagePresent) := by
  have unlinked : links (d,pdIndex vaddr) = none := by
    rw [Option.eq_none_iff_forall_ne_some]
    intro u link
    have high := (linked.linked d _ u link).2.2
    omega
  have target : pointsTo links (.directory d) (pdIndex vaddr) = some (.kernelTable ⟨pdIndex vaddr,shared⟩) := by
    simp only [pointsTo,unlinked,dif_pos shared]
  have kernelTarget : pointsTo links .kernelDirectory (pdIndex vaddr) =
      some (.kernelTable ⟨pdIndex vaddr,shared⟩) := by
    simp only [pointsTo,dif_pos shared]
  have second := ptIndex_lt vaddr
  have after := linked.stored (.kernelTable ⟨pdIndex vaddr,shared⟩) second (mapEntry paddr flags) (by simp) (by simp)
  have before := linked.translation_eq (t := .kernelDirectory) trivial vaddr
  rw [kernelTarget,Option.bind_some,← linked.kernel] at before
  rw [linked.mapPage_present used target]
  constructor
  · rintro ⟨told,_,_,same⟩
    rw [← same vaddr fits,linked.kernel,after.translation_eq (t := .kernelDirectory) trivial,kernelTarget,
      ← target,← after.translation_eq (t := .directory d) used]
    exact told
  · intro already
    have unmasked : (flags ||| pagePresent) &&& Table.grants (.kernelTable ⟨pdIndex vaddr,shared⟩) =
        flags ||| pagePresent := by
      rw [before,seen] at already
      split at already
      · cases already
      · obtain ⟨_,granted⟩ := Prod.mk.inj (Option.some.inj already)
        rw [← granted,BitVec.and_assoc,BitVec.and_self]
    have entry : seen (.kernelTable ⟨pdIndex vaddr,shared⟩) (mapEntry paddr flags) =
        some (paddr,flags ||| pagePresent) := by
      rw [mapEntry,seen_entry aligned small low,unmasked]
    refine MapsOne.of_walks linked after rfl fits used ?_ ?_
    · rw [target,Option.bind_some,store_words second second,if_pos ⟨rfl,rfl⟩,entry]
    · intro t inUse va other
      cases walked : pointsTo links t (pdIndex va) with
      | none => rfl
      | some table =>
        rw [Option.bind_some,Option.bind_some,store_words second (ptIndex_lt va)]
        split
        · rename_i here
          obtain ⟨rfl,column⟩ := here
          rw [entry,← already,before,column]
        · rfl

/-- A page table for the address: the directory has one, or one is free. -/
def TableAvailable (s : Paging L) (pd vaddr : Nat) : Prop :=
  s.ram (pd + 4 * pdIndex vaddr) &&& pagePresent ≠ 0 ∨ ∃ u < maxUserPt, s.userPtUsed u = false

theorem Linked.mapsOne_iff (linked : s.Linked links) (used : s.pdUsed d = true)
    (available : s.TableAvailable (L.address (.directory d)) vaddr) (fits : vaddr < 2^32)
    (aligned : paddr % pageSize = 0) (small : paddr < 2^32) (low : flags.toNat < 0x1000) :
    MapsOne s (s.mapPage (L.address (.directory d)) vaddr paddr flags) (L.address (.directory d)) vaddr paddr flags ↔
      0x2000000 ≤ vaddr ∨ translation s.ram s.kernelPageDirectory vaddr = some (paddr,flags ||| pagePresent) := by
  by_cases shared : pdIndex vaddr < 8
  · have below : ¬0x2000000 ≤ vaddr := by
      simp only [pdIndex] at shared
      omega
    rw [linked.mapsOne_shared used shared fits aligned small low]
    simp [below]
  · have above : 0x2000000 ≤ vaddr := by
      simp only [pdIndex] at shared
      omega
    refine iff_of_true ?_ (.inl above)
    cases link : links (d,pdIndex vaddr) with
    | some u => exact linked.mapsOne_linked used link fits aligned small low
    | none =>
      have target : pointsTo links (.directory d) (pdIndex vaddr) = none := by
        simp only [pointsTo,link,dif_neg shared]
      have entry := linked.entry (t := .directory d) used (pdIndex_lt vaddr)
      rw [target] at entry
      simp only [words,Layout.words,entryFor] at entry
      obtain present | ⟨u,bound,free⟩ := available
      · simp [entry] at present
      · exact linked.mapsOne_unlinked (u := ⟨u,bound⟩) used target free fits aligned small low

/-! ### Runs -/

/-- Drop the links of one directory. -/
def dropLinks (links : Fin threadLimit × Nat ≃. Fin maxUserPt) (d : Fin threadLimit) :
    Fin threadLimit × Nat ≃. Fin maxUserPt := (PEquiv.ofSet {place | place.1 ≠ d}).trans links

theorem dropLinks_apply (e : Fin threadLimit) (j : Nat) :
    dropLinks links d (e,j) = if e = d then none else links (e,j) := by
  by_cases same : e = d
  · simp [dropLinks,PEquiv.trans,PEquiv.ofSet,same]
  · simp [dropLinks,PEquiv.trans,PEquiv.ofSet,same]

theorem Linked.freed (linked : s.Linked links) (d : Fin threadLimit) :
    ({ s with pdUsed := update s.pdUsed d false } : Paging L).Linked (dropLinks links d) := by
  refine ⟨linked.kernel,linked.shared,linked.absent,fun e inUse j inside => ?_,fun e j u link => ?_⟩
  · have other : e ≠ d := by
      rintro rfl
      simp at inUse
    have still : s.pdUsed e = true :=
      (update_of_ne (fun same => other (Fin.ext same)) ..).symm.trans inUse
    rw [dropLinks_apply,if_neg other]
    exact linked.directories e still j inside
  · rw [dropLinks_apply] at link
    split at link
    · cases link
    · rename_i other
      obtain ⟨inUse,taken,high⟩ := linked.linked e j u link
      exact ⟨(update_of_ne (fun same => other (Fin.ext same)) ..).trans inUse,taken,high⟩

inductive PagingOp where
  | allocPageDirectory
  | mapPage (d : Fin threadLimit) (vaddr paddr : Nat) (flags : Word)
  | freePageDirectory (pd : Nat)

def perform (s : Paging L) : PagingOp → Paging L
  | .allocPageDirectory => s.allocPageDirectory.1
  | .mapPage d vaddr paddr flags => s.mapPage (L.address (.directory d)) vaddr paddr flags
  | .freePageDirectory pd => s.freePageDirectory pd

/-- `map_page` is called for directories in use only. -/
def Proper (s : Paging L) : PagingOp → Prop
  | .mapPage d _ _ _ => s.pdUsed d = true
  | _ => True

def Initialised (s : Paging L) : Prop := ∃ (first : Paging L) (fuel : Nat), first.Static ∧ first.initPaging fuel = some s

def Steps (s t : Paging L) : Prop := ∃ op, s.Proper op ∧ t = s.perform op

theorem Linked.mapPage (linked : s.Linked links) (used : s.pdUsed d = true) (vaddr paddr : Nat) (flags : Word) :
    ∃ links', (s.mapPage (L.address (.directory d)) vaddr paddr flags).Linked links' := by
  cases target : pointsTo links (.directory d) (pdIndex vaddr) with
  | some table =>
    rw [linked.mapPage_present used target]
    refine ⟨links,linked.stored table (ptIndex_lt vaddr) _ ?_ ?_⟩
    all_goals obtain ⟨_,rfl⟩ | ⟨_,_,_,_,rfl⟩ := pointsTo_table target
    all_goals simp
  | none =>
    rcases linked.mapPage_absent used vaddr paddr flags target with ⟨_,same⟩ | ⟨_,_,_,after,_,_⟩
    · rw [same]
      exact ⟨links,linked.kept rfl (fun _ _ => rfl) (fun _ _ _ => rfl) rfl (fun _ taken => taken)⟩
    · exact ⟨_,after⟩

theorem Linked.perform (linked : s.Linked links) {op : PagingOp} (proper : s.Proper op) :
    ∃ links', (s.perform op).Linked links' := by
  cases op with
  | allocPageDirectory =>
    refine ⟨links,?_⟩
    rcases allocPageDirectory_cases linked.kernel with none | ⟨e,ram,clear,made,words,_⟩
    · rw [Paging.perform,none]
      exact linked.kept rfl (fun _ _ => rfl) (fun _ _ _ => rfl) rfl (fun _ taken => taken)
    · rw [Paging.perform,made]
      exact linked.copied clear words rfl rfl rfl
  | mapPage e vaddr paddr flags => exact linked.mapPage proper vaddr paddr flags
  | freePageDirectory pd =>
    rw [Paging.perform,Paging.freePageDirectory]
    cases found : firstClear (fun i => L.pageDirs + i * pageSize != pd) threadLimit 0 with
    | none => exact ⟨links,linked.kept rfl (fun _ _ => rfl) (fun _ _ _ => rfl) rfl (fun _ taken => taken)⟩
    | some i =>
      obtain ⟨_,bound,_,_⟩ := firstClear_some found
      exact ⟨_,linked.freed ⟨i,by omega⟩⟩

theorem reach_linked (reached : Reach Initialised Steps s) : ∃ links, s.Linked links := by
  refine reached.invariant (fun s => ∃ links, s.Linked links) ?_ ?_
  · rintro s ⟨first,fuel,static,done⟩
    have spec := initPaging_spec static fuel
    split at spec
    · obtain ⟨_,same,represents,_⟩ := spec
      rw [done,Option.some.injEq] at same
      exact ⟨_,same ▸ represents.linkedBy⟩
    · rw [done] at spec
      cases spec
  · rintro s _ ⟨links,linked⟩ ⟨op,proper,rfl⟩
    exact linked.perform proper

/-- In every state that the three calls reach after `init_paging`, a call of `map_page` for a
directory in use changes that page of that directory and nothing else exactly when the
address is above the kernel's, or the page has been mapped so already. -/
theorem map_page_one_iff (s : Paging L) (reached : Reach Initialised Steps s) (d : Fin threadLimit)
    (used : s.pdUsed d = true) (vaddr paddr : Nat) (flags : Word) (fits : vaddr < 2^32) (small : paddr < 2^32)
    (aligned : paddr % pageSize = 0) (low : flags.toNat < 0x1000)
    (available : s.TableAvailable (L.pageDirs + d * pageSize) vaddr) :
    MapsOne s (s.mapPage (L.pageDirs + d * pageSize) vaddr paddr flags) (L.pageDirs + d * pageSize) vaddr paddr flags ↔
      0x2000000 ≤ vaddr ∨ translation s.ram s.kernelPageDirectory vaddr = some (paddr,flags ||| pagePresent) := by
  obtain ⟨links,linked⟩ := reach_linked reached
  exact linked.mapsOne_iff used available fits aligned small low

theorem sample_directory : ∃ s : Paging Kernel.sampleLayout, Reach Initialised Steps s ∧ s.pdUsed 0 = true ∧
    s.userPtUsed 0 = false ∧ s.Represents ⟨⊥,⊥⟩ := by
  have static : Kernel.samplePaging.Static := ⟨fun _ _ => rfl,fun _ => rfl,fun _ => rfl,fun _ => rfl,rfl⟩
  obtain ⟨paging,done,represents,directories,tables,_⟩ := initPaging_spec static 8193
  obtain ⟨after,pd,made,still,same,_⟩ := represents.allocPageDirectory
  have first : firstClear paging.pdUsed threadLimit 0 = some 0 := by
    rw [directories]
    rfl
  have state : after = paging.allocPageDirectory.1 := by rw [made]
  refine ⟨after,?_,?_,?_,still⟩
  · refine (Reach.start ⟨_,_,static,done⟩).advance ⟨.allocPageDirectory,trivial,?_⟩
    rw [perform,made]
  · rw [state,Paging.allocPageDirectory,first]
    simp
  · rw [same,tables]
    rfl

/-- A user page of that directory. -/
theorem sample_page_mapped : ∃ s : Paging Kernel.sampleLayout, Reach Initialised Steps s ∧
    MapsOne s (s.mapPage (Kernel.sampleLayout.pageDirs + 0 * pageSize) 0xBFFFF000 frameStart (pageRw ||| pageUser))
      (Kernel.sampleLayout.pageDirs + 0 * pageSize) 0xBFFFF000 frameStart (pageRw ||| pageUser) := by
  obtain ⟨s,reached,used,free,_⟩ := sample_directory
  exact ⟨s,reached,(map_page_one_iff s reached ⟨0,by decide⟩ used 0xBFFFF000 frameStart (pageRw ||| pageUser)
    (by decide) (by decide) (by decide) (by decide) (.inr ⟨0,by decide,free⟩)).mpr (.inl (by decide))⟩

/-- What `mem_test_4` does: the page at 4 MiB of a new directory is the kernel's too. -/
theorem shared_page_remapped : ∃ s : Paging Kernel.sampleLayout, Reach Initialised Steps s ∧ s.pdUsed 0 = true ∧
    s.TableAvailable (Kernel.sampleLayout.pageDirs + 0 * pageSize) 0x400000 ∧
    ¬MapsOne s (s.mapPage (Kernel.sampleLayout.pageDirs + 0 * pageSize) 0x400000 frameStart
        (pagePresent ||| pageRw ||| pageUser))
      (Kernel.sampleLayout.pageDirs + 0 * pageSize) 0x400000 frameStart (pagePresent ||| pageRw ||| pageUser) := by
  obtain ⟨s,reached,used,free,represents⟩ := sample_directory
  refine ⟨s,reached,used,.inr ⟨0,by decide,free⟩,fun mapped => ?_⟩
  have row : pdIndex 0x400000 = 1 := by decide
  have column : ptIndex 0x400000 = 0 := by decide
  have target : pointsTo (⊥ : Fin threadLimit × Nat ≃. Fin maxUserPt) .kernelDirectory 1 =
      some (.kernelTable ⟨1,by decide⟩) := rfl
  have before := represents.linkedBy.translation_eq (t := .kernelDirectory) trivial 0x400000
  rw [row,target,Option.bind_some,column,represents.identity ⟨1,by decide⟩ 0 (by decide)] at before
  have remapped := (represents.linkedBy.mapsOne_iff (d := ⟨0,by decide⟩) used (.inr ⟨0,by decide,free⟩)
    (by decide) (by decide) (by decide) (by decide)).mp mapped
  obtain above | already := remapped
  · exact absurd above (by decide)
  · rw [represents.kernel,before] at already
    exact absurd already (by decide)

end Paging

end RudimentaryKernel
