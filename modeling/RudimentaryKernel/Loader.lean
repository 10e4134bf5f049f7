import RudimentaryKernel.Paging
import RudimentaryKernel.Reach
import RudimentaryKernel.Scheduler

/-! `thread_create` with its page directory and user stack, and `load_program` of
`loader.cpp`. What the heap, the tid allocator and the disk answer is given with each
call; every read of the disk can succeed or fail on its own. -/
namespace RudimentaryKernel

open Function

def sectorSize : Nat := 512

def progLoadBase : Nat := 0x08048000

/-- Byte offset in the bootblock of the number of the directory sector. -/
def progDirLoc : Nat := 6

def sectorsPerPage : Nat := pageSize / sectorSize

/-- The top page of user space, where every user stack is. -/
def userStackBase : Nat := 0xBFFFF000

/-- `user_stack.sp` of a thread that never ran, below the two copies of `call_exit`. -/
def Kernel.userStackPointer : Nat := sub32 (sub32 (add32 userStackBase pageSize) 4) 4

example : Kernel.userStackPointer = userStackBase + (pageSize - 8) := by decide

abbrev Sector := Nat → Byte

def sectorWord (sector : Sector) (offset : Nat) : Word :=
  sector (offset + 3) ++ sector (offset + 2) ++ sector (offset + 1) ++ sector offset

/-- What the reads of one call answer: read number, sector number. -/
abbrev DiskReads := Nat → Nat → Option Sector

/-- What the heap and `tid_allocator` answer to one `thread_create`. -/
structure HeapGrants where
  tcb : Nat
  tid : Nat
  stack : Nat

structure ProgramDirEntry where
  name : Nat → Byte
  lba : Nat
  sectors : Nat
  entry : Nat

def programDirEntry (sector : Sector) (i : Nat) : ProgramDirEntry where
  name := fun j => sector (32 * i + j)
  lba := (sectorWord sector (32 * i + 16)).toNat
  sectors := (sectorWord sector (32 * i + 20)).toNat
  entry := (sectorWord sector (32 * i + 24)).toNat

def entryVaddr (found : ProgramDirEntry) : Word := BitVec.ofNat 32 found.entry

/-- `strcmp` from position `i` on, for strings of which one ends within `n` characters. -/
def strcmp (s t : Nat → Byte) : Nat → Nat → Int
  | 0, i => (s i).toNat - (t i).toNat
  | n + 1, i => if s i ≠ 0 ∧ s i = t i then strcmp s t n (i + 1) else (s i).toNat - (t i).toNat

/-- The copy of a name in `kname`: at most fifteen characters and the end mark. -/
def kname (name : Nat → Byte) : Nat → Byte :=
  let length := (firstClear (fun i => name i != 0) 15 0).getD 15
  fun j => if j < length then name j else 0

def text (buffer : Nat → Byte) : List Byte := ((List.range 16).map buffer).takeWhile (· != 0)

/-- The search through the directory, from entry `i` with `remaining` entries to go. -/
def findProgram (sector : Sector) (name : Nat → Byte) : Nat → Nat → Option ProgramDirEntry
  | 0, _ => none
  | remaining + 1, i =>
    let found := programDirEntry sector i
    if found.name 0 = 0 then none
    else if strcmp found.name name 16 0 = 0 then some found
    else findProgram sector name remaining (i + 1)

/-- What `thread_create` does to the page tables and frames, with the directory and the
frame of the user stack. -/
def Paging.forThread {L : Layout} (s : Paging L) (user : Bool) (heap : HeapGrants) :
    Paging L × Nat × Nat :=
  if heap.tid = allOnes then (s,0,0)
  else
    let (s,pd) := s.allocPageDirectory
    if pd = 0 ∨ heap.stack = 0 ∨ user = false then (s,pd,0)
    else
      let (s,paddr) := s.frameAlloc
      if paddr = 0 then (s,pd,0)
      else
        let s := s.mapPage pd userStackBase paddr (pageRw ||| pageUser)
        let s := s.store (paddr + pageSize - 4) L.callExit
        let s := s.store (paddr + pageSize - 8) L.callExit
        (s,pd,paddr)

/-- What `thread_create` puts into the `SwitchFrame` of a new thread besides constants: the
trampoline it returns to, the entry point, and for a user thread the stack pointer. -/
structure FirstFrame where
  user : Bool
  ebx : Word
  esi : Word
  deriving Inhabited

def FirstFrame.of (user : Bool) (entry : Word) : FirstFrame :=
  ⟨user,entry,if user then BitVec.ofNat 32 Kernel.userStackPointer else 0⟩

/-- Page tables, threads, the loader's own lines, and by control block the frames with which the
threads start. -/
structure Kernel (L : Layout) (ι : Type) where
  paging : Paging L
  threads : TaskRun ι
  console : List Print
  firstFrames : Nat → FirstFrame

namespace Kernel

variable {L : Layout} {ι : Type}

def kprintf (k : Kernel L ι) (format : String) (arguments : List Nat) (texts : List (List Byte)) :
    Kernel L ι :=
  { k with console := k.console ++ [⟨format,arguments,texts⟩] }

def threadCreate (k : Kernel L ι) (user : Bool) (entryFn : Word) (heap : HeapGrants) : Kernel L ι × Nat :=
  let (paging,pd,paddr) := k.paging.forThread user heap
  let (tasks,t) := k.threads.tasks.threadCreate user ⟨heap.tcb,heap.tid,pd,heap.stack,paddr⟩
  ({ k with
    paging := paging
    threads := ⟨tasks,if t = 0 then k.threads.alive else t :: k.threads.alive⟩
    firstFrames := if t = 0 then k.firstFrames else update k.firstFrames t (.of user entryFn) },t)

/-- The inner loop of `load_program`, from sector `s` of a page with `remaining` to go.
Read 0 of a call is the bootblock and read 1 the directory. -/
def readSectors (reads : DiskReads) (found : ProgramDirEntry) (page paddr : Nat) :
    Nat → Nat → Kernel L ι → Kernel L ι × Bool
  | 0, _, k => (k,true)
  | remaining + 1, s, k =>
    if found.sectors ≤ page * sectorsPerPage + s then (k,true)
    else
      let lba := add32 (add32 found.lba (page * sectorsPerPage)) s
      match reads (2 + page * sectorsPerPage + s) lba with
      | none => (k.kprintf "loader: disk read error at lba %u\n" [lba] [],false)
      | some sector =>
        let ram := fillWords (paddr + s * sectorSize) (fun _ j => sectorWord sector (4 * j)) 128 k.paging.ram
        readSectors reads found page paddr remaining (s + 1)
          { k with paging := { k.paging with ram := ram } }

/-- The outer loop, from `page` with `remaining` pages to go. -/
def loadPages (reads : DiskReads) (found : ProgramDirEntry) (name : Nat → Byte) (pd : Nat) :
    Nat → Nat → Kernel L ι → Kernel L ι × Int
  | 0, _, k =>
    (k.kprintf "loader: loaded '%s' (%u sectors, entry=0x%x)\n" [found.sectors,found.entry]
      [text found.name],0)
  | remaining + 1, page, k =>
    let (paging,paddr) := k.paging.frameAlloc
    let k := { k with paging := paging }
    if paddr = 0 then (k.kprintf "loader: out of frames loading '%s'\n" [] [text name],-1)
    else
      let vaddr := add32 progLoadBase (page * pageSize)
      let k := { k with paging := k.paging.mapPage pd vaddr paddr (pageRw ||| pageUser) }
      let (k,done) := readSectors reads found page paddr sectorsPerPage 0 k
      if done then loadPages reads found name pd remaining (page + 1) k else (k,-1)

def readProgDirLba (reads : DiskReads) : Nat :=
  match reads 0 0 with
  | none => 0
  | some sector => (sectorWord sector progDirLoc).toNat

def loadProgram (k : Kernel L ι) (name : Nat → Byte) (reads : DiskReads) (heap : HeapGrants) :
    Kernel L ι × Int :=
  let name := kname name
  let dirLba := readProgDirLba reads
  if dirLba = 0 then (k.kprintf "loader: could not read prog_dir_lba from bootblock\n" [] [],-1)
  else match reads 1 dirLba with
    | none => (k.kprintf "loader: could not read program directory at lba %u\n" [dirLba] [],-1)
    | some dir => match findProgram dir name (sectorSize / 32) 0 with
      | none => (k.kprintf "loader: program '%s' not found\n" [] [text name],-1)
      | some found =>
        let (k,t) := k.threadCreate true (entryVaddr found) heap
        if t = 0 then (k.kprintf "loader: thread_create failed for '%s'\n" [] [text name],-1)
        else
          let totalBytes := found.sectors * sectorSize % 2^32
          let numPages := add32 totalBytes (pageSize - 1) / pageSize
          loadPages reads found name (k.threads.tasks.pageDirectory t) numPages 0 k

/-- What can happen after `init_paging`: a program is loaded, a thread is created, the
threads block, switch and exit, or a program writes to a page it may use. -/
inductive Does [DecidableEq ι] (k : Kernel L ι) : Kernel L ι → Prop where
  | load (name : Nat → Byte) (reads : DiskReads) (heap : HeapGrants) :
      Does k (k.loadProgram name reads heap).1
  | create (user : Bool) (entryFn : Word) (heap : HeapGrants) : Does k (k.threadCreate user entryFn heap).1
  | schedule {op fuel threads} (other : ∀ user grants, op ≠ .create user grants)
      (done : k.threads.perform fuel op = some (some threads)) : Does k { k with threads := threads }
  | write {d va pa} (word : Word) (inside : d < threadLimit) (used : k.paging.pdUsed d = true)
      (fits : va < 2^32) (aligned : va % 4 = 0)
      (allowed : translate k.paging.ram (L.pageDirs + d * pageSize) va = some (pa,true)) :
      Does k { k with paging := k.paging.store pa word }

def Booted (k : Kernel L ι) : Prop :=
  k.threads.Boot ∧ ∃ (s : Paging L) (fuel : Nat), s.Static ∧ s.initPaging fuel = some k.paging

end Kernel

namespace KernelState

def Lists (reads : DiskReads) (name : Nat → Byte) (found : ProgramDirEntry) : Prop :=
  Kernel.readProgDirLba reads ≠ 0 ∧ ∃ dir, reads 1 (Kernel.readProgDirLba reads) = some dir ∧
    findProgram dir (kname name) (sectorSize / 32) 0 = some found

def numPages (found : ProgramDirEntry) : Nat :=
  add32 (found.sectors * sectorSize % 2^32) (pageSize - 1) / pageSize

def sectorLba (found : ProgramDirEntry) (j : Nat) : Nat :=
  add32 (add32 found.lba (j / sectorsPerPage * sectorsPerPage)) (j % sectorsPerPage)

end KernelState

end RudimentaryKernel
