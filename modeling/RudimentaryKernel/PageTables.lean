import RudimentaryKernel.Paging
import RudimentaryKernel.TwoLevel

/-! What the page tables of `paging.cpp` mean. The words of the static tables, read through
the layout, represent a two-level map from directories and pages to frames, and every
operation of the allocators and of `map_page` acts on that map. -/
namespace RudimentaryKernel

open Function

section Entries

variable {base : Nat} {flags bit : Word}

theorem low_bits (aligned : base % pageSize = 0) : BitVec.ofNat 32 base &&& 0xFFF#32 = 0#32 := by
  apply BitVec.eq_of_toNat_eq
  rw [BitVec.toNat_and,BitVec.toNat_ofNat,show (0xFFF#32).toNat = 2^12 - 1 from rfl,
    Nat.and_two_pow_sub_one_eq_mod]
  simp only [pageSize] at aligned
  simp
  omega

theorem pageAlign_entry (aligned : base % pageSize = 0) (low : flags &&& ~~~0xFFF#32 = 0#32) :
    pageAlign (BitVec.ofNat 32 base ||| flags) = BitVec.ofNat 32 base := by
  have clear := low_bits aligned
  apply BitVec.eq_of_getLsbD_eq
  intro i inside
  have high := congrArg (fun w => w.getLsbD i) clear
  have rest := congrArg (fun w => w.getLsbD i) low
  simp only [BitVec.getLsbD_and,BitVec.getLsbD_not,BitVec.getLsbD_zero,inside,decide_true,
    Bool.true_and] at high rest
  simp only [pageAlign,BitVec.getLsbD_and,BitVec.getLsbD_or,BitVec.getLsbD_not,inside,decide_true,
    Bool.true_and]
  revert high rest
  cases (BitVec.ofNat 32 base).getLsbD i <;> cases flags.getLsbD i <;> cases (0xFFF#32).getLsbD i <;> simp

theorem entry_and (aligned : base % pageSize = 0) (low : bit &&& ~~~0xFFF#32 = 0#32) :
    (BitVec.ofNat 32 base ||| flags) &&& bit = flags &&& bit := by
  have clear := low_bits aligned
  apply BitVec.eq_of_getLsbD_eq
  intro i inside
  have high := congrArg (fun w => w.getLsbD i) clear
  have rest := congrArg (fun w => w.getLsbD i) low
  simp only [BitVec.getLsbD_and,BitVec.getLsbD_not,BitVec.getLsbD_zero,inside,decide_true,
    Bool.true_and] at high rest
  simp only [BitVec.getLsbD_and,BitVec.getLsbD_or]
  revert high rest
  cases (BitVec.ofNat 32 base).getLsbD i <;> cases bit.getLsbD i <;> cases (0xFFF#32).getLsbD i <;> simp

def kernelEntry (base : Nat) : Word := BitVec.ofNat 32 base ||| pagePresent ||| pageRw

def userEntry (base : Nat) : Word := BitVec.ofNat 32 base ||| pagePresent ||| pageRw ||| pageUser

theorem kernelEntry_base (aligned : base % pageSize = 0) (fits : base < 2^32) :
    (pageAlign (kernelEntry base)).toNat = base := by
  rw [kernelEntry,BitVec.or_assoc,pageAlign_entry aligned (by decide),BitVec.toNat_ofNat,
    Nat.mod_eq_of_lt fits]

theorem userEntry_base (aligned : base % pageSize = 0) (fits : base < 2^32) :
    (pageAlign (userEntry base)).toNat = base := by
  rw [userEntry,BitVec.or_assoc,BitVec.or_assoc,pageAlign_entry aligned (by decide),
    BitVec.toNat_ofNat,Nat.mod_eq_of_lt fits]

theorem kernelEntry_present (aligned : base % pageSize = 0) : kernelEntry base &&& pagePresent ≠ 0 := by
  rw [kernelEntry,BitVec.or_assoc,entry_and aligned (by decide)]
  decide

theorem kernelEntry_user (aligned : base % pageSize = 0) : kernelEntry base &&& pageUser = 0 := by
  rw [kernelEntry,BitVec.or_assoc,entry_and aligned (by decide)]
  decide

theorem kernelEntry_rw (aligned : base % pageSize = 0) : kernelEntry base &&& pageRw = pageRw := by
  rw [kernelEntry,BitVec.or_assoc,entry_and aligned (by decide)]
  decide

theorem userEntry_present (aligned : base % pageSize = 0) : userEntry base &&& pagePresent ≠ 0 := by
  rw [userEntry,BitVec.or_assoc,BitVec.or_assoc,entry_and aligned (by decide)]
  decide

theorem userEntry_user (aligned : base % pageSize = 0) : userEntry base &&& pageUser = pageUser := by
  rw [userEntry,BitVec.or_assoc,BitVec.or_assoc,entry_and aligned (by decide)]
  decide

theorem userEntry_rw (aligned : base % pageSize = 0) : userEntry base &&& pageRw = pageRw := by
  rw [userEntry,BitVec.or_assoc,BitVec.or_assoc,entry_and aligned (by decide)]
  decide

end Entries

/-- The pages of the four static arrays. -/
inductive Table where
  | kernelDirectory
  | kernelTable (i : Fin 8)
  | directory (d : Fin threadLimit)
  | userTable (u : Fin maxUserPt)
  deriving DecidableEq

namespace Layout

variable {L : Layout} {t u : Table} {i j : Nat}

def address (L : Layout) : Table → Nat
  | .kernelDirectory => L.pageDirStorage
  | .kernelTable i => L.pageTableStorage + i * pageSize
  | .directory d => L.pageDirs + d * pageSize
  | .userTable u => L.userPtStorage + u * pageSize

theorem limits : threadLimit = 12 ∧ maxUserPt = 32 ∧ frameStart = 0x800000 := ⟨rfl,rfl,rfl⟩

theorem address_placed (L : Layout) (t : Table) :
    0 < L.address t ∧ L.address t % pageSize = 0 ∧ L.address t + pageSize ≤ frameStart := by
  have placed := L.placed
  have sizes := limits
  simp only [pagingArrays,List.forall_mem_cons,pageSize] at placed
  cases t <;> simp only [address,pageSize] <;> omega

theorem address_lt (L : Layout) (t : Table) : L.address t < 2^32 := by
  have placed := (L.address_placed t).2.2
  simp only [pageSize,frameStart] at placed
  omega

theorem address_injective (same : L.address t = L.address u) : t = u := by
  have separate := L.separate
  have sizes := limits
  simp only [pagingArrays,List.pairwise_cons,List.forall_mem_cons,pageSize] at separate
  cases t <;> cases u <;> simp only [address,pageSize] at same <;> simp [Fin.ext_iff] <;> omega

theorem cell_below (L : Layout) (t : Table) {a : Nat} (inside : i < 1024) (above : frameStart ≤ a) :
    L.address t + 4 * i ≠ a := by
  have placed := (L.address_placed t).2.2
  simp only [pageSize] at placed
  omega

theorem cell_injective (first : i < 1024) (second : j < 1024)
    (same : L.address t + 4 * i = L.address u + 4 * j) : t = u ∧ i = j := by
  have alignedT := (L.address_placed t).2.1
  have alignedU := (L.address_placed u).2.1
  simp only [pageSize] at alignedT alignedU
  have base : L.address t = L.address u := by omega
  exact ⟨address_injective base,by omega⟩

def words (L : Layout) (ram : Ram) (t : Table) (j : Nat) : Word := ram (L.address t + 4 * j)

theorem words_update {ram : Ram} {word : Word} (first : i < 1024) (second : j < 1024) :
    L.words (update ram (L.address t + 4 * i) word) u j =
      if u = t ∧ j = i then word else L.words ram u j := by
  rw [words,update_apply]
  by_cases same : u = t ∧ j = i
  · simp [same]
  · rw [if_neg same,if_neg (fun address => same (cell_injective second first address)),words]

theorem words_above {ram after : Ram} (kept : ∀ a, a < frameStart → after a = ram a) (inside : j < 1024) :
    L.words after t j = L.words ram t j := by
  have placed := (L.address_placed t).2.2
  simp only [pageSize] at placed
  exact kept _ (by omega)

end Layout

section Fill

variable {target n j : Nat} {word : Ram → Nat → Word} {ram : Ram}

theorem fillWords_apart {a : Nat} (apart : ∀ j, j < n → a ≠ target + 4 * j) :
    fillWords target word n ram a = ram a := by
  induction n with
  | zero => rfl
  | succ n ih =>
    rw [fillWords,update_of_ne (apart n (by omega))]
    exact ih (fun j inside => apart j (by omega))

/-- Each word is stored as it was computed from the memory before the loop, if the loop
does not change what later words are computed from. -/
theorem fillWords_at (inside : j < n)
    (stable : ∀ k, k < n → word (fillWords target word k ram) k = word ram k) :
    fillWords target word n ram (target + 4 * j) = word ram j := by
  induction n with
  | zero => omega
  | succ n ih =>
    rw [fillWords]
    by_cases last : j = n
    · rw [last,update_self]
      exact stable n (by omega)
    · rw [update_of_ne (by omega)]
      exact ih (by omega) (fun k before => stable k (by omega))

theorem words_fill {L : Layout} {t u : Table} (inside : j < 1024)
    (stable : ∀ k, k < 1024 → word (fillWords (L.address t) word k ram) k = word ram k) :
    L.words (fillWords (L.address t) word 1024 ram) u j =
      if u = t then word ram j else L.words ram u j := by
  rw [Layout.words]
  by_cases same : u = t
  · rw [if_pos same,same]
    exact fillWords_at inside stable
  · rw [if_neg same,Layout.words]
    exact fillWords_apart (fun k bound address => same (Layout.cell_injective inside bound address).1)

end Fill

def frameAddress (f : Nat) : Nat := frameStart + f * pageSize

theorem frameAddress_placed (f : Fin frameCount) : frameAddress f % pageSize = 0 ∧
    frameStart ≤ frameAddress f ∧ frameAddress f + pageSize ≤ frameEnd := by
  have bound : (f : Nat) < 6144 := f.isLt
  simp only [frameAddress,frameStart,frameEnd,pageSize]
  omega

/-- Directories, and the frames of their pages above the kernel's. -/
abbrev Spaces := TwoLevel (Fin threadLimit) Nat (Fin maxUserPt) (Fin frameCount)

namespace Paging

variable {L : Layout} {s : Paging L} {t : Spaces} {d : Fin threadLimit} {va : Nat}

def words (s : Paging L) (table : Table) (j : Nat) : Word := L.words s.ram table j

/-- The kernel's directory maps the first 32 MiB to themselves and nothing else. -/
structure KernelMapped (s : Paging L) : Prop where
  kernel : s.kernelPageDirectory = L.address .kernelDirectory
  shared : ∀ i : Fin 8, s.words .kernelDirectory i = kernelEntry (L.address (.kernelTable i))
  absent : ∀ j, 8 ≤ j → j < 1024 → s.words .kernelDirectory j = 0
  identity : ∀ i : Fin 8, ∀ j < 1024,
    s.words (.kernelTable i) j = kernelEntry ((i * 1024 + j) * pageSize)

/-- Every directory in use has the kernel's map and, behind it, the map `t`; the
allocators know what `t` uses. -/
structure Represents (s : Paging L) (t : Spaces) : Prop extends s.KernelMapped where
  directories : ∀ d : Fin threadLimit, s.pdUsed d = true → ∀ j < 1024, s.words (.directory d) j =
    match t.table (d,j) with
    | some u => userEntry (L.address (.userTable u))
    | none => s.words .kernelDirectory j
  tables : ∀ u : Fin maxUserPt, s.userPtUsed u = true → ∀ j < 1024, s.words (.userTable u) j =
    match t.frame (u,j) with
    | some f => userEntry (frameAddress f)
    | none => 0
  linked : ∀ d j u, t.table (d,j) = some u → s.pdUsed d = true ∧ s.userPtUsed u = true ∧ 8 ≤ j
  held : ∀ u j f, t.frame (u,j) = some f → s.userPtUsed u = true ∧ bitmapGet s.frameBitmap f = true

/-- Each directory in use has the kernel's entries and, behind them, links to tables that
no other entry of a directory in use leads to. Nothing is said of what the tables hold. -/
structure Linked (s : Paging L) (links : Fin threadLimit × Nat ≃. Fin maxUserPt) : Prop where
  kernel : s.kernelPageDirectory = L.address .kernelDirectory
  shared : ∀ i : Fin 8, s.words .kernelDirectory i = kernelEntry (L.address (.kernelTable i))
  absent : ∀ j, 8 ≤ j → j < 1024 → s.words .kernelDirectory j = 0
  directories : ∀ d : Fin threadLimit, s.pdUsed d = true → ∀ j < 1024, s.words (.directory d) j =
    match links (d,j) with
    | some u => userEntry (L.address (.userTable u))
    | none => s.words .kernelDirectory j
  linked : ∀ d j u, links (d,j) = some u → s.pdUsed d = true ∧ s.userPtUsed u = true ∧ 8 ≤ j

theorem Represents.linkedBy (represents : s.Represents t) : s.Linked t.table :=
  ⟨represents.kernel,represents.shared,represents.absent,represents.directories,represents.linked⟩

/-- Below 32 MiB a directory in use is the identity for the kernel alone. -/
theorem Represents.translate_kernel (represents : s.Represents t) (used : s.pdUsed d = true)
    (low : va < 0x2000000) : translate s.ram (L.address (.directory d)) va = some (va,false) := by
  have first : pdIndex va < 8 := by
    unfold pdIndex
    omega
  have second : ptIndex va < 1024 := ptIndex_lt va
  obtain ⟨_,aligned,_⟩ := L.address_placed (.kernelTable ⟨pdIndex va,first⟩)
  have page : (pdIndex va * 1024 + ptIndex va) * pageSize % pageSize = 0 := Nat.mul_mod_left _ _
  have unlinked : t.table (d,pdIndex va) = none := by
    rw [Option.eq_none_iff_forall_ne_some]
    intro u link
    have high := (represents.linked d _ u link).2.2
    omega
  have pde := represents.directories d used (pdIndex va) (by omega)
  rw [unlinked] at pde
  have entry := pde.trans (represents.shared ⟨pdIndex va,first⟩)
  have pte := represents.identity ⟨pdIndex va,first⟩ (ptIndex va) second
  simp only [words,Layout.words] at entry pte
  have base : (pdIndex va * 1024 + ptIndex va) * pageSize + va % pageSize = va := by
    unfold pdIndex ptIndex pageSize
    omega
  have supervisor : kernelEntry (L.address (.kernelTable ⟨pdIndex va,first⟩)) &&&
      kernelEntry ((pdIndex va * 1024 + ptIndex va) * pageSize) &&& pageUser = 0 := by
    rw [BitVec.and_assoc,kernelEntry_user page]
    simp
  rw [translate]
  dsimp only
  rw [entry,if_neg (kernelEntry_present aligned),kernelEntry_base aligned (L.address_lt _),pte,
    if_neg (kernelEntry_present page),kernelEntry_base page (by simp only [pageSize]; omega),base,supervisor]
  rfl

/-- Above 32 MiB it is the map `t`, for the user too. -/
theorem Represents.translate_user (represents : s.Represents t) (used : s.pdUsed d = true)
    (high : 0x2000000 ≤ va) (fits : va < 2^32) : translate s.ram (L.address (.directory d)) va =
      (t.walk d (pdIndex va) (ptIndex va)).map
        (fun f : Fin frameCount => (frameAddress f + va % pageSize,true)) := by
  have first : 8 ≤ pdIndex va ∧ pdIndex va < 1024 := by
    unfold pdIndex
    omega
  have second : ptIndex va < 1024 := ptIndex_lt va
  have pde := represents.directories d used (pdIndex va) first.2
  rw [TwoLevel.walk,translate]
  simp only [words,Layout.words] at pde
  dsimp only
  rw [pde]
  cases link : t.table (d,pdIndex va) with
  | none =>
    have zero := represents.absent (pdIndex va) first.1 first.2
    simp only [words,Layout.words] at zero
    simp [zero]
  | some u =>
    obtain ⟨_,aligned,_⟩ := L.address_placed (.userTable u)
    have pte := represents.tables u (represents.linked _ _ _ link).2.1 (ptIndex va) second
    simp only [words,Layout.words] at pte
    dsimp only
    rw [if_neg (userEntry_present aligned),userEntry_base aligned (L.address_lt _),pte,Option.bind_some]
    cases found : t.frame (u,ptIndex va) with
    | none => simp
    | some f =>
      obtain ⟨base,_,below⟩ := frameAddress_placed f
      have small : frameAddress f < 2^32 := by
        simp only [pageSize,frameEnd] at below
        omega
      have both : userEntry (L.address (.userTable u)) &&& userEntry (frameAddress f) &&& pageUser =
          pageUser := by
        rw [BitVec.and_assoc,userEntry_user base,userEntry_user aligned]
      dsimp only
      rw [if_neg (userEntry_present base),userEntry_base base small,both]
      rfl

theorem Represents.mayWrite (represents : s.Represents t) {f : Fin frameCount}
    (found : t.walk d (pdIndex va) (ptIndex va) = some f) :
    mayWrite s.ram (L.address (.directory d)) va = true := by
  have first : pdIndex va < 1024 := pdIndex_lt va
  have second : ptIndex va < 1024 := ptIndex_lt va
  obtain ⟨u,link,held⟩ := Option.bind_eq_some_iff.mp found
  obtain ⟨used,inUse,_⟩ := represents.linked _ _ _ link
  have pde := represents.directories d used (pdIndex va) first
  have pte := represents.tables u inUse (ptIndex va) second
  rw [link] at pde
  rw [held] at pte
  simp only [words,Layout.words] at pde pte
  obtain ⟨_,aligned,_⟩ := L.address_placed (.userTable u)
  obtain ⟨base,_,_⟩ := frameAddress_placed f
  rw [RudimentaryKernel.mayWrite,pde,userEntry_base aligned (L.address_lt _),pte,BitVec.and_assoc,userEntry_rw base,userEntry_rw aligned]
  rfl

theorem store_words {table other : Table} {i j : Nat} {word : Word} (first : i < 1024) (second : j < 1024) :
    (s.store (L.address table + 4 * i) word).words other j =
      if other = table ∧ j = i then word else s.words other j :=
  Layout.words_update first second

section Links

variable {after : Paging L} {links : Fin threadLimit × Nat ≃. Fin maxUserPt}

theorem Linked.kept (linked : s.Linked links) (kernel : after.kernelPageDirectory = s.kernelPageDirectory)
    (words : ∀ j < 1024, after.words .kernelDirectory j = s.words .kernelDirectory j)
    (own : ∀ d, ∀ j < 1024, after.words (.directory d) j = s.words (.directory d) j)
    (used : after.pdUsed = s.pdUsed) (tables : ∀ u : Fin maxUserPt, s.userPtUsed u = true → after.userPtUsed u = true) :
    after.Linked links := by
  refine ⟨kernel.trans linked.kernel,?_,?_,?_,?_⟩
  · intro i
    rw [words i (by omega),linked.shared]
  · intro j high inside
    rw [words j inside,linked.absent j high inside]
  · intro e inUse j inside
    rw [used] at inUse
    rw [own e j inside,words j inside,linked.directories e inUse j inside]
  · intro e j u link
    obtain ⟨inUse,taken,high⟩ := linked.linked e j u link
    exact ⟨by rwa [used],tables u taken,high⟩

theorem Linked.copied (linked : s.Linked links) (clear : s.pdUsed d = false)
    (words : ∀ table, ∀ j < 1024, after.words table j =
      if table = .directory d then s.words .kernelDirectory j else s.words table j)
    (kernel : after.kernelPageDirectory = s.kernelPageDirectory)
    (directories : after.pdUsed = update s.pdUsed d true) (tables : after.userPtUsed = s.userPtUsed) :
    after.Linked links := by
  have unlinked : ∀ j, links (d,j) = none := by
    intro j
    rw [Option.eq_none_iff_forall_ne_some]
    intro u link
    rw [(linked.linked d j u link).1] at clear
    contradiction
  have others : ∀ table, table ≠ .directory d → ∀ j < 1024, after.words table j = s.words table j := by
    intro table other j inside
    rw [words table j inside,if_neg other]
  refine ⟨kernel.trans linked.kernel,?_,?_,?_,?_⟩
  · intro i
    rw [others _ (by simp) i (by omega),linked.shared]
  · intro j high inside
    rw [others _ (by simp) j inside,linked.absent j high inside]
  · intro e used j inside
    rw [others .kernelDirectory (by simp) j inside]
    by_cases same : e = d
    · rw [same,unlinked,words _ j inside,if_pos rfl]
    · have other : (e : Nat) ≠ d := fun equal => same (Fin.ext equal)
      rw [directories,update_of_ne other] at used
      rw [others _ (by simpa using same) j inside,linked.directories e used j inside]
  · intro e j u link
    obtain ⟨used,taken,high⟩ := linked.linked e j u link
    refine ⟨?_,by rwa [tables],high⟩
    rw [directories,update_apply]
    split
    · rfl
    · exact used

theorem Linked.link (linked : s.Linked links) {u : Fin maxUserPt} {i : Nat}
    (used : s.pdUsed d = true) (taken : s.userPtUsed u = true) (high : 8 ≤ i) (inside : i < 1024)
    (fresh : links.symm u = none) :
    (s.store (L.address (.directory d) + 4 * i) (userEntry (L.address (.userTable u)))).Linked
      (reassign links (d,i) u fresh) := by
  have kernel : ∀ j < 1024, (s.store (L.address (.directory d) + 4 * i)
      (userEntry (L.address (.userTable u)))).words .kernelDirectory j = s.words .kernelDirectory j := by
    intro j bound
    rw [store_words inside bound,if_neg (fun same => by simp at same)]
  refine ⟨linked.kernel,?_,?_,?_,?_⟩
  · intro k
    rw [kernel k (by omega),linked.shared]
  · intro j above bound
    rw [kernel j bound,linked.absent j above bound]
  · intro e inUse j bound
    rw [kernel j bound,store_words inside bound,reassign_apply]
    by_cases same : e = d ∧ j = i
    · simp [same]
    · rw [if_neg (by simpa using same),if_neg (by simpa using same),
        linked.directories e inUse j bound]
  · intro e j v link
    rw [reassign_apply] at link
    split at link
    · rename_i same
      obtain ⟨rfl,rfl⟩ := Prod.mk.inj same
      obtain rfl := Option.some.inj link
      exact ⟨used,taken,high⟩
    · exact linked.linked e j v link

end Links

theorem allocPageDirectory_cases (kernel : s.kernelPageDirectory = L.address .kernelDirectory) :
    s.allocPageDirectory = (s.kprintf "alloc_page_directory: out of page directories\n" [],0) ∨
    ∃ (d : Fin threadLimit) (ram : Ram), s.pdUsed d = false ∧ s.allocPageDirectory =
        ({ s with pdUsed := update s.pdUsed d true, ram := ram },L.address (.directory d)) ∧
      (∀ table, ∀ j < 1024, L.words ram table j =
        if table = .directory d then s.words .kernelDirectory j else s.words table j) ∧
      ∀ a, frameStart ≤ a → ram a = s.ram a := by
  unfold Paging.allocPageDirectory
  cases found : firstClear s.pdUsed threadLimit 0 with
  | none => exact .inl rfl
  | some i =>
    obtain ⟨_,bound,clear,_⟩ := firstClear_some found
    refine .inr ⟨⟨i,by omega⟩,_,clear,rfl,?_,?_⟩
    · intro table j inside
      refine (words_fill (t := .directory ⟨i,by omega⟩) inside ?_).trans ?_
      · -- the copy does not write to the directory it reads
        intro k bound
        rw [kernel]
        apply fillWords_apart
        intro m before address
        exact absurd (Layout.cell_injective bound (by omega) address).1 (by simp)
      · rw [kernel]
        rfl
    · intro a above
      apply fillWords_apart
      intro j inside
      exact (L.cell_below (.directory ⟨i,by omega⟩) inside above).symm

theorem allocUserPageTable_cases (s : Paging L) :
    s.allocUserPageTable = (s.kprintf "alloc_user_page_table: out of page tables\n" [],0) ∧
      (∀ u : Fin maxUserPt, s.userPtUsed u = true) ∨
    ∃ (u : Fin maxUserPt) (ram : Ram), s.userPtUsed u = false ∧ s.allocUserPageTable =
        ({ s with userPtUsed := update s.userPtUsed u true, ram := ram },L.address (.userTable u)) ∧
      (∀ table, ∀ j < 1024, L.words ram table j = if table = .userTable u then 0 else s.words table j) ∧
      ∀ a, frameStart ≤ a → ram a = s.ram a := by
  unfold Paging.allocUserPageTable
  cases found : firstClear s.userPtUsed maxUserPt 0 with
  | none => exact .inl ⟨rfl,fun u => firstClear_none found u (Nat.zero_le _) (by omega)⟩
  | some i =>
    obtain ⟨_,bound,clear,_⟩ := firstClear_some found
    refine .inr ⟨⟨i,by omega⟩,_,clear,rfl,?_,?_⟩
    · intro table j inside
      exact words_fill (t := .userTable ⟨i,by omega⟩) inside (fun _ _ => rfl)
    · intro a above
      apply fillWords_apart
      intro j inside
      exact (L.cell_below (.userTable ⟨i,by omega⟩) inside above).symm

section Operations

variable {after : Paging L}

theorem KernelMapped.kept (mapped : s.KernelMapped)
    (kernel : after.kernelPageDirectory = s.kernelPageDirectory)
    (directory : ∀ j < 1024, after.words .kernelDirectory j = s.words .kernelDirectory j)
    (tables : ∀ i, ∀ j < 1024, after.words (.kernelTable i) j = s.words (.kernelTable i) j) :
    after.KernelMapped := by
  refine ⟨kernel.trans mapped.kernel,?_,?_,?_⟩
  · intro i
    rw [directory i (by omega),mapped.shared]
  · intro j high inside
    rw [directory j inside,mapped.absent j high inside]
  · intro i j inside
    rw [tables i j inside,mapped.identity i j inside]

theorem Represents.above (represents : s.Represents t) {ram : Ram}
    (kept : ∀ a, a < frameStart → ram a = s.ram a) : ({ s with ram := ram } : Paging L).Represents t := by
  have same : ∀ table j, j < 1024 → ({ s with ram := ram } : Paging L).words table j = s.words table j :=
    fun table j inside => Layout.words_above kept inside
  refine ⟨represents.kept rfl (same _) (fun i => same _),?_,?_,represents.linked,represents.held⟩
  · intro d used j inside
    rw [same _ _ inside,same _ _ inside,represents.directories d used j inside]
  · intro u used j inside
    rw [same _ _ inside,represents.tables u used j inside]

theorem Represents.printed (represents : s.Represents t) {console : List Print} :
    ({ s with console := console } : Paging L).Represents t :=
  ⟨represents.kept rfl (fun _ _ => rfl) (fun _ _ _ => rfl),represents.directories,represents.tables,
    represents.linked,represents.held⟩

theorem Represents.copied (represents : s.Represents t) (clear : s.pdUsed d = false)
    (words : ∀ table, ∀ j < 1024, after.words table j =
      if table = .directory d then s.words .kernelDirectory j else s.words table j)
    (kernel : after.kernelPageDirectory = s.kernelPageDirectory)
    (directories : after.pdUsed = update s.pdUsed d true) (tables : after.userPtUsed = s.userPtUsed)
    (frames : after.frameBitmap = s.frameBitmap) : after.Represents t := by
  have linked := represents.linkedBy.copied clear words kernel directories tables
  have others : ∀ table, table ≠ .directory d → ∀ j < 1024, after.words table j = s.words table j := by
    intro table other j inside
    rw [words table j inside,if_neg other]
  refine ⟨represents.kept kernel (others _ (by simp)) (fun i => others _ (by simp)),linked.directories,?_,
    linked.linked,?_⟩
  · intro u used j inside
    rw [tables] at used
    rw [others _ (by simp) j inside,represents.tables u used j inside]
  · intro u j f found
    rw [tables,frames]
    exact represents.held u j f found

theorem Represents.allocPageDirectory (represents : s.Represents t) :
    ∃ after pd, s.allocPageDirectory = (after,pd) ∧ after.Represents t ∧
      after.userPtUsed = s.userPtUsed ∧ after.frameBitmap = s.frameBitmap ∧
      (pd = 0 ∧ after = s.kprintf "alloc_page_directory: out of page directories\n" [] ∨
        ∃ d : Fin threadLimit, pd = L.address (.directory d) ∧ s.pdUsed d = false ∧
          after.pdUsed = update s.pdUsed d true ∧ after.console = s.console ∧
          ∀ a, frameStart ≤ a → after.ram a = s.ram a) := by
  rcases allocPageDirectory_cases represents.kernel with none | ⟨d,ram,clear,made,words,above⟩
  · exact ⟨_,_,none,represents.printed,rfl,rfl,.inl ⟨rfl,rfl⟩⟩
  · exact ⟨_,_,made,represents.copied clear words rfl rfl rfl rfl,rfl,rfl,
      .inr ⟨d,rfl,clear,rfl,rfl,above⟩⟩

theorem Represents.cleared (represents : s.Represents t) {u : Fin maxUserPt}
    (clear : s.userPtUsed u = false)
    (words : ∀ table, ∀ j < 1024, after.words table j =
      if table = .userTable u then 0 else s.words table j)
    (kernel : after.kernelPageDirectory = s.kernelPageDirectory)
    (directories : after.pdUsed = s.pdUsed) (tables : after.userPtUsed = update s.userPtUsed u true)
    (frames : after.frameBitmap = s.frameBitmap) : after.Represents t := by
  have empty : ∀ j, t.frame (u,j) = none := by
    intro j
    rw [Option.eq_none_iff_forall_ne_some]
    intro f found
    rw [(represents.held u j f found).1] at clear
    contradiction
  have others : ∀ table, table ≠ .userTable u → ∀ j < 1024, after.words table j = s.words table j := by
    intro table other j inside
    rw [words table j inside,if_neg other]
  have more : ∀ v : Fin maxUserPt, s.userPtUsed v = true → after.userPtUsed v = true := by
    intro v used
    rw [tables,update_apply]
    split
    · rfl
    · exact used
  have linked := represents.linkedBy.kept kernel (others _ (by simp)) (fun d => others _ (by simp)) directories more
  refine ⟨represents.kept kernel (others _ (by simp)) (fun i => others _ (by simp)),linked.directories,?_,
    linked.linked,?_⟩
  · intro v used j inside
    by_cases same : v = u
    · rw [same,empty,words _ j inside,if_pos rfl]
    · have other : (v : Nat) ≠ u := fun equal => same (Fin.ext equal)
      rw [tables,update_of_ne other] at used
      rw [others _ (by simpa using same) j inside,represents.tables v used j inside]
  · intro v j f found
    obtain ⟨used,marked⟩ := represents.held v j f found
    exact ⟨more v used,by rwa [frames]⟩

theorem Represents.allocUserPageTable (represents : s.Represents t) :
    ∃ after pt, s.allocUserPageTable = (after,pt) ∧ after.Represents t ∧
      after.frameBitmap = s.frameBitmap ∧ after.pdUsed = s.pdUsed ∧
      (pt = 0 ∧ (∀ u : Fin maxUserPt, s.userPtUsed u = true) ∨
        ∃ u : Fin maxUserPt, pt = L.address (.userTable u) ∧ s.userPtUsed u = false ∧
          after.userPtUsed = update s.userPtUsed u true ∧ after.console = s.console ∧
          ∀ a, frameStart ≤ a → after.ram a = s.ram a) := by
  rcases s.allocUserPageTable_cases with ⟨none,full⟩ | ⟨u,ram,clear,made,words,above⟩
  · exact ⟨_,_,none,represents.printed,rfl,rfl,.inl ⟨rfl,full⟩⟩
  · exact ⟨_,_,made,represents.cleared clear words rfl rfl rfl rfl,rfl,rfl,
      .inr ⟨u,rfl,clear,rfl,rfl,above⟩⟩

theorem Represents.frameAlloc (represents : s.Represents t) :
    ∃ after frame, s.frameAlloc = (after,frame) ∧ after.Represents t ∧
      (frame = 0 ∧ after = s.kprintf "frame_alloc: out of frames\n" [] ∨
        ∃ f : Fin frameCount, frame = frameAddress f ∧ bitmapGet s.frameBitmap f = false ∧
          after = { s with frameBitmap := bitmapMark s.frameBitmap f }) := by
  rcases s.frameAlloc_outcome with ⟨same,_⟩ | ⟨i,inside,same,clear,_⟩
  · exact ⟨_,_,same,represents.printed,.inl ⟨rfl,rfl⟩⟩
  · refine ⟨_,_,same,⟨represents.kept rfl (fun _ _ => rfl) (fun _ _ _ => rfl),represents.directories,
      represents.tables,represents.linked,?_⟩,.inr ⟨⟨i,inside⟩,rfl,clear,rfl⟩⟩
    intro u j f held
    obtain ⟨used,marked⟩ := represents.held u j f held
    exact ⟨used,by simp [marked]⟩

theorem Represents.link (represents : s.Represents t) {u : Fin maxUserPt} {i : Nat}
    (used : s.pdUsed d = true) (taken : s.userPtUsed u = true) (high : 8 ≤ i) (inside : i < 1024)
    (fresh : t.table.symm u = none) :
    (s.store (L.address (.directory d) + 4 * i) (userEntry (L.address (.userTable u)))).Represents
      ⟨reassign t.table (d,i) u fresh,t.frame⟩ := by
  have others : ∀ table, table ≠ .directory d → ∀ j < 1024, (s.store (L.address (.directory d) + 4 * i)
      (userEntry (L.address (.userTable u)))).words table j = s.words table j := by
    intro table other j bound
    rw [store_words inside bound,if_neg (fun same => other same.1)]
  have linked := represents.linkedBy.link used taken high inside fresh
  refine ⟨represents.kept rfl (others _ (by simp)) (fun k => others _ (by simp)),linked.directories,?_,
    linked.linked,represents.held⟩
  intro v inUse j bound
  rw [others _ (by simp) j bound,represents.tables v inUse j bound]

theorem Represents.place (represents : s.Represents t) {u : Fin maxUserPt} {f : Fin frameCount} {i : Nat}
    (taken : s.userPtUsed u = true) (marked : bitmapGet s.frameBitmap f = true) (inside : i < 1024)
    (fresh : t.frame.symm f = none) :
    (s.store (L.address (.userTable u) + 4 * i) (userEntry (frameAddress f))).Represents
      ⟨t.table,reassign t.frame (u,i) f fresh⟩ := by
  have others : ∀ table, table ≠ .userTable u → ∀ j < 1024, (s.store (L.address (.userTable u) + 4 * i)
      (userEntry (frameAddress f))).words table j = s.words table j := by
    intro table other j bound
    rw [store_words inside bound,if_neg (fun same => other same.1)]
  refine ⟨represents.kept rfl (others _ (by simp)) (fun k => others _ (by simp)),?_,?_,
    represents.linked,?_⟩
  · intro e inUse j bound
    rw [others _ (by simp) j bound,others _ (by simp) j bound,represents.directories e inUse j bound]
  · intro v inUse j bound
    rw [store_words inside bound,reassign_apply]
    by_cases same : v = u ∧ j = i
    · simp [same]
    · rw [if_neg (by simpa using same),if_neg (by simpa using same),represents.tables v inUse j bound]
  · intro v j g found
    rw [reassign_apply] at found
    split at found
    · rename_i same
      obtain ⟨rfl,rfl⟩ := Prod.mk.inj same
      obtain rfl := Option.some.inj found
      exact ⟨taken,marked⟩
    · exact represents.held v j g found

theorem Represents.storeEntry (represents : s.Represents t) {u : Fin maxUserPt} {entry : Word}
    (inside : pdIndex va < 1024) (link : t.table (d,pdIndex va) = some u) :
    s.storeEntry (L.address (.directory d)) va entry =
      s.store (L.address (.userTable u) + 4 * ptIndex va) entry := by
  have pde := represents.directories d (represents.linked _ _ _ link).1 (pdIndex va) inside
  rw [link] at pde
  simp only [words,Layout.words] at pde
  obtain ⟨_,aligned,_⟩ := L.address_placed (.userTable u)
  rw [Paging.storeEntry,pde,userEntry_base aligned (L.address_lt _)]

theorem mapped_entry (paddr : Nat) :
    BitVec.ofNat 32 paddr ||| (pageRw ||| pageUser) ||| pagePresent = userEntry paddr := by
  simp only [userEntry,BitVec.or_assoc]
  rfl

/-- `map_page` has put frame `f` at `va` in directory `d` and kept the rest of the map. Only where
the directory led to no table did it take one. -/
structure Installs (s after : Paging L) (t spaces : Spaces) (d : Fin threadLimit) (va : Nat)
    (f : Fin frameCount) : Prop where
  walk : ∀ e i j, spaces.walk e i j =
    if e = d ∧ i = pdIndex va ∧ j = ptIndex va then some f else t.walk e i j
  linked : ∃ u, spaces.table (d,pdIndex va) = some u
  links : ∀ e i, (e,i) ≠ (d,pdIndex va) → spaces.table (e,i) = t.table (e,i)
  tables : after.userPtUsed = s.userPtUsed ∨ t.table (d,pdIndex va) = none ∧
    ∃ u : Fin maxUserPt, s.userPtUsed u = false ∧ after.userPtUsed = update s.userPtUsed u true
  console : after.console = s.console
  frames : ∀ a, frameStart ≤ a → after.ram a = s.ram a

theorem Installs.here {after : Paging L} {spaces : Spaces} {f : Fin frameCount}
    (installs : Installs s after t spaces d va f) :
    spaces.walk d (pdIndex va) (ptIndex va) = some f := by
  rw [installs.walk,if_pos ⟨rfl,rfl,rfl⟩]

/-- `map_page` above the kernel's addresses maps a new frame, or nothing when there is no
table for it. -/
theorem Represents.mapPage (represents : s.Represents t) {f : Fin frameCount}
    (used : s.pdUsed d = true) (high : 8 ≤ pdIndex va) (marked : bitmapGet s.frameBitmap f = true)
    (fresh : t.frame.symm f = none) : ∃ after spaces,
      s.mapPage (L.address (.directory d)) va (frameAddress f) (pageRw ||| pageUser) = after ∧
      after.Represents spaces ∧ after.pdUsed = s.pdUsed ∧ after.frameBitmap = s.frameBitmap ∧
      (Installs s after t spaces d va f ∨ ∀ u : Fin maxUserPt, s.userPtUsed u = true) := by
  have first : pdIndex va < 1024 := pdIndex_lt va
  have second : ptIndex va < 1024 := ptIndex_lt va
  have pde := represents.directories d used (pdIndex va) first
  have absent := represents.absent (pdIndex va) high first
  rw [absent] at pde
  rw [Paging.mapPage]
  dsimp only
  rw [mapped_entry,show s.ram (L.address (.directory d) + 4 * pdIndex va) = _ from pde]
  cases link : t.table (d,pdIndex va) with
  | some u =>
    obtain ⟨_,taken,_⟩ := represents.linked _ _ _ link
    obtain ⟨_,aligned,_⟩ := L.address_placed (.userTable u)
    dsimp only
    rw [if_neg (userEntry_present aligned),represents.storeEntry first link]
    refine ⟨_,_,rfl,represents.place taken marked second fresh,rfl,rfl,.inl ⟨?_,⟨u,link⟩,?_,.inl rfl,rfl,?_⟩⟩
    · exact fun e i j => TwoLevel.walk_reassign_frame link
    · exact fun e i _ => rfl
    · exact fun a above => update_of_ne (L.cell_below (.userTable u) second above).symm ..
  | none =>
    dsimp only
    rw [if_pos (by simp)]
    obtain ⟨cleared,pt,done,kept,frames,directories,⟨none,full⟩ | ⟨u,rfl,clear,tables,quiet,same⟩⟩ :=
      represents.allocUserPageTable
    · rw [done,none]
      exact ⟨_,t,rfl,kept.printed,directories,frames,.inr full⟩
    · have unlinked : t.table.symm u = none := by
        apply symm_eq_none
        rintro ⟨e,j⟩ link
        rw [(represents.linked e j u link).2.1] at clear
        contradiction
      have empty : ∀ j, t.frame (u,j) = none := by
        intro j
        rw [Option.eq_none_iff_forall_ne_some]
        intro g held
        rw [(represents.held u j g held).1] at clear
        contradiction
      have taken : cleared.userPtUsed u = true := by rw [tables,update_self]
      have linked := kept.link (directories ▸ used) taken high first unlinked
      have here : (reassign t.table (d,pdIndex va) u unlinked) (d,pdIndex va) = some u := by simp
      obtain ⟨positive,_⟩ := L.address_placed (.userTable u)
      rw [done]
      dsimp only
      rw [if_neg (by omega),← userEntry,linked.storeEntry first here]
      refine ⟨_,_,rfl,linked.place taken (frames ▸ marked) second fresh,directories,frames,
        .inl ⟨?_,⟨u,here⟩,?_,.inr ⟨link,u,clear,tables⟩,quiet,?_⟩⟩
      · intro e i j
        refine (TwoLevel.walk_reassign_frame here).trans ?_
        rw [TwoLevel.walk_reassign_table link empty]
      · intro e i other
        change reassign t.table (d,pdIndex va) u unlinked (e,i) = _
        rw [reassign_apply,if_neg other]
      · intro a above
        refine (update_of_ne (L.cell_below (.userTable u) second above).symm ..).trans ?_
        exact (update_of_ne (L.cell_below (.directory d) first above).symm ..).trans (same a above)

end Operations

end Paging

end RudimentaryKernel
