import RudimentaryKernel.Bitmap

/-! The page tables and frames of `paging.cpp` over one physical memory, and the walk the
processor makes through them. Pointers are addresses, with 0 for `nullptr`; the static
arrays are wherever the linker has put them. -/
namespace RudimentaryKernel

open Function

abbrev Word := BitVec 32

/-- Physical memory by words: the one at each address divisible by four. -/
abbrev Ram := Nat → Word

def pageSize : Nat := 0x1000

def pagePresent : Word := 1#32 <<< 0

def pageRw : Word := 1#32 <<< 1

def pageUser : Word := 1#32 <<< 2

def pdIndex (va : Nat) : Nat := va / 2^22 % 2^10

def ptIndex (va : Nat) : Nat := va / 2^12 % 2^10

theorem pdIndex_lt (va : Nat) : pdIndex va < 1024 := Nat.mod_lt _ (by decide)

theorem ptIndex_lt (va : Nat) : ptIndex va < 1024 := Nat.mod_lt _ (by decide)

def pageAlign (a : Word) : Word := a &&& ~~~0xFFF#32

def frameStart : Nat := 0x800000

def frameEnd : Nat := 0x2000000

def frameCount : Nat := (frameEnd - frameStart) / pageSize

def threadLimit : Nat := 12

def maxUserPt : Nat := 32

def pagingArrays (pageDirStorage pageTableStorage pageDirs userPtStorage : Nat) : List (Nat × Nat) :=
  [(pageDirStorage,1),(pageTableStorage,8),(pageDirs,threadLimit),(userPtStorage,maxUserPt)]

/-- What the linker decides: page-aligned arrays that do not overlap, below the first
frame, and the address of `call_exit`. -/
structure Layout where
  pageDirStorage : Nat
  pageTableStorage : Nat
  pageDirs : Nat
  userPtStorage : Nat
  callExit : Word
  placed : ∀ a ∈ pagingArrays pageDirStorage pageTableStorage pageDirs userPtStorage,
    0 < a.1 ∧ a.1 % pageSize = 0 ∧ a.1 + a.2 * pageSize ≤ frameStart
  separate : (pagingArrays pageDirStorage pageTableStorage pageDirs userPtStorage).Pairwise
    (fun a b => a.1 + a.2 * pageSize ≤ b.1 ∨ b.1 + b.2 * pageSize ≤ a.1)

/-- The loop `for (j = 0; j < n; j++) target[j] = word`. -/
def fillWords (target : Nat) (word : Ram → Nat → Word) : Nat → Ram → Ram
  | 0, ram => ram
  | n + 1, ram =>
    let ram := fillWords target word n ram
    update ram (target + 4 * n) (word ram n)

/-- The walk of the processor from a page directory: the physical address and whether
user mode may use it. `none` is a page fault on a missing entry. -/
def translate (ram : Ram) (dir va : Nat) : Option (Nat × Bool) :=
  let pde := ram (dir + 4 * pdIndex va)
  if pde &&& pagePresent = 0 then none
  else
    let pte := ram ((pageAlign pde).toNat + 4 * ptIndex va)
    if pte &&& pagePresent = 0 then none
    else some ((pageAlign pte).toNat + va % pageSize,pde &&& pte &&& pageUser != 0)

def mayWrite (ram : Ram) (dir va : Nat) : Bool :=
  let pde := ram (dir + 4 * pdIndex va)
  let pte := ram ((pageAlign pde).toNat + 4 * ptIndex va)
  pde &&& pte &&& pageRw != 0

def byteAt (ram : Ram) (a : Nat) : Byte := (ram (a / 4 * 4)).extractLsb' (8 * (a % 4)) 8

structure Paging (L : Layout) where
  ram : Ram
  kernelPageDirectory : Nat
  pdUsed : Nat → Bool
  frameBitmap : Nat → Byte
  userPtUsed : Nat → Bool
  ptCount : Nat
  console : List Print

namespace Paging

variable {L : Layout}

def kprintf (s : Paging L) (format : String) (arguments : List Nat) : Paging L :=
  { s with console := s.console ++ [⟨format,arguments,[]⟩] }

def store (s : Paging L) (address : Nat) (word : Word) : Paging L :=
  { s with ram := update s.ram address word }

def allocPageTable (s : Paging L) : Paging L × Nat :=
  if 8 ≤ s.ptCount then (s.kprintf "alloc_page_table: out of static page tables\n" [],0)
  else ({ s with ptCount := s.ptCount + 1 },L.pageTableStorage + s.ptCount * pageSize)

/-- A new directory is a copy of the kernel's. -/
def allocPageDirectory (s : Paging L) : Paging L × Nat :=
  match firstClear s.pdUsed threadLimit 0 with
  | some i =>
    let pd := L.pageDirs + i * pageSize
    ({ s with
      pdUsed := update s.pdUsed i true
      ram := fillWords pd (fun ram j => ram (s.kernelPageDirectory + 4 * j)) 1024 s.ram },pd)
  | none => (s.kprintf "alloc_page_directory: out of page directories\n" [],0)

def frameAlloc (s : Paging L) : Paging L × Nat :=
  match firstClear (bitmapGet s.frameBitmap) frameCount 0 with
  | some i =>
    ({ s with frameBitmap := bitmapMark s.frameBitmap i },frameStart + i * pageSize)
  | none => (s.kprintf "frame_alloc: out of frames\n" [],0)

theorem frameAlloc_outcome (s : Paging L) :
    s.frameAlloc = (s.kprintf "frame_alloc: out of frames\n" [],0) ∧
      (∀ f < frameCount, bitmapGet s.frameBitmap f = true) ∨
    ∃ f < frameCount, s.frameAlloc =
        ({ s with frameBitmap := bitmapMark s.frameBitmap f },frameStart + f * pageSize) ∧
      bitmapGet s.frameBitmap f = false ∧ ∀ g < f, bitmapGet s.frameBitmap g = true := by
  unfold frameAlloc
  cases found : firstClear (bitmapGet s.frameBitmap) frameCount 0 with
  | none => exact .inl ⟨rfl,fun f inside => firstClear_none found f (Nat.zero_le _) (by omega)⟩
  | some f =>
    obtain ⟨_,inside,clear,below⟩ := firstClear_some found
    exact .inr ⟨f,by omega,rfl,clear,fun g before => below g (Nat.zero_le _) before⟩

def allocUserPageTable (s : Paging L) : Paging L × Nat :=
  match firstClear s.userPtUsed maxUserPt 0 with
  | some i =>
    let pt := L.userPtStorage + i * pageSize
    ({ s with
      userPtUsed := update s.userPtUsed i true
      ram := fillWords pt (fun _ _ => 0) 1024 s.ram },pt)
  | none => (s.kprintf "alloc_user_page_table: out of page tables\n" [],0)

/-- The end of `map_page` and of the loop in `identity_map`: the entry goes into the table
that the directory points at. -/
def storeEntry (s : Paging L) (pd vaddr : Nat) (entry : Word) : Paging L :=
  let pt := (pageAlign (s.ram (pd + 4 * pdIndex vaddr))).toNat
  s.store (pt + 4 * ptIndex vaddr) entry

def mapPage (s : Paging L) (pd vaddr paddr : Nat) (flags : Word) : Paging L :=
  let entry := BitVec.ofNat 32 paddr ||| flags ||| pagePresent
  if s.ram (pd + 4 * pdIndex vaddr) &&& pagePresent = 0 then
    let (s,pt) := s.allocUserPageTable
    if pt = 0 then s.kprintf "map_page: out of page tables\n" []
    else
      let s := s.store (pd + 4 * pdIndex vaddr)
        (BitVec.ofNat 32 pt ||| pagePresent ||| pageRw ||| pageUser)
      s.storeEntry pd vaddr entry
  else s.storeEntry pd vaddr entry

/-- The loop of `identity_map` from `va` on, `none` when the fuel runs out. -/
def identityLoop (pageDir stop : Nat) : Nat → Paging L → Nat → Option (Paging L)
  | 0, _, _ => none
  | fuel + 1, s, va =>
    if stop ≤ va then some s
    else
      let entry := BitVec.ofNat 32 va ||| pagePresent ||| pageRw
      if s.ram (pageDir + 4 * pdIndex va) &&& pagePresent = 0 then
        let (s,pt) := s.allocPageTable
        if pt = 0 then some (s.kprintf "identity_map: OOM at va=%x\n" [va])
        else
          let s := s.store (pageDir + 4 * pdIndex va) (BitVec.ofNat 32 pt ||| pagePresent ||| pageRw)
          identityLoop pageDir stop fuel (s.storeEntry pageDir va entry) (add32 va pageSize)
      else identityLoop pageDir stop fuel (s.storeEntry pageDir va entry) (add32 va pageSize)

def identityMap (fuel : Nat) (s : Paging L) (pageDir vaddrStart vaddrEnd : Nat) : Option (Paging L) :=
  identityLoop pageDir vaddrEnd fuel s (pageAlign (BitVec.ofNat 32 vaddrStart)).toNat

/-- `init_paging`. The register loads that switch paging on are not part of the state. -/
def initPaging (fuel : Nat) (s : Paging L) : Option (Paging L) :=
  let s := { s with kernelPageDirectory := L.pageDirStorage }
  (s.identityMap fuel s.kernelPageDirectory 0 0x2000000).map (fun s =>
    let s := s.kprintf "Paging enabled!\n" []
    let s := s.kprintf "page_dir_storage:  0x%x\n" [L.pageDirStorage]
    let s := s.kprintf "page_table_storage:0x%x\n" [L.pageTableStorage]
    let s := s.kprintf "page_dirs:         0x%x\n" [L.pageDirs]
    s.kprintf "user_pt_storage:   0x%x - 0x%x\n"
      [L.userPtStorage,L.userPtStorage + maxUserPt * pageSize])

/-- The static variables of a kernel that has just been loaded. -/
structure Static (s : Paging L) : Prop where
  directory : ∀ j < 1024, s.ram (L.pageDirStorage + 4 * j) = 0
  pdUsed : ∀ i, s.pdUsed i = false
  userPtUsed : ∀ i, s.userPtUsed i = false
  frameBitmap : ∀ i, s.frameBitmap i = 0
  ptCount : s.ptCount = 0

end Paging

end RudimentaryKernel
