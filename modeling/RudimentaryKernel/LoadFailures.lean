import RudimentaryKernel.AddressSpaces
import RudimentaryKernel.IdUnique
import RudimentaryKernel.Ring

/-! `load_program` with everything it takes from: the pool of tids with its bytes, the page
directories, tables and frames, the ready ring, and the live allocations of the kernel heap.
Nothing is given back on the way out of a failure, so what fails behind the search of the
directory leaves a tid taken at least. -/
namespace RudimentaryKernel

open Function ByteMemory IdPool

/-- The kernel with the memory of `tid_allocator`'s pool at `tids` and the addresses that
`kmalloc` has handed out and `kfree` has not been given. -/
structure KernelState (L : Layout) (ι : Type) where
  kernel : Kernel L ι
  memory : Memory
  tids : Nat
  heap : List Nat

/-- What `kmalloc` answers to the requests for a control block and a stack, 0 for a refusal. -/
structure HeapAnswers where
  tcb : Nat
  stack : Nat

namespace KernelState

variable {L : Layout} {ι : Type}

/-- `thread_create`. The stack is asked for only with a tid and a directory in hand. `none`
is a wait for the pool's lock. -/
def threadCreate (s : KernelState L ι) (user : Bool) (entryFn : Word) (answers : HeapAnswers) : Option (KernelState L ι × Nat) :=
  let heap := if answers.tcb = 0 then s.heap else answers.tcb :: s.heap
  (IdPool.next s.memory s.tids answers.tcb).map (fun (memory,tid) =>
    let grants : HeapGrants := ⟨answers.tcb,tid,answers.stack⟩
    let (_,pd,_) := s.kernel.paging.forThread user grants
    let heap := if tid = allOnes ∨ pd = 0 ∨ answers.stack = 0 then heap else answers.stack :: heap
    let (kernel,t) := s.kernel.threadCreate user entryFn grants
    let freed := kernel.threads.tasks.freed.drop s.kernel.threads.tasks.freed.length
    ({ s with kernel := kernel, memory := memory, heap := heap.diff freed },t))

def kprintf (s : KernelState L ι) (format : String) (arguments : List Nat) (texts : List (List Byte)) :
    KernelState L ι :=
  { s with kernel := s.kernel.kprintf format arguments texts }

def loadProgram (s : KernelState L ι) (name : Nat → Byte) (reads : DiskReads) (answers : HeapAnswers) :
    Option (KernelState L ι × Int) :=
  let name := kname name
  let dirLba := Kernel.readProgDirLba reads
  if dirLba = 0 then some (s.kprintf "loader: could not read prog_dir_lba from bootblock\n" [] [],-1)
  else match reads 1 dirLba with
    | none => some (s.kprintf "loader: could not read program directory at lba %u\n" [dirLba] [],-1)
    | some dir => match findProgram dir name (sectorSize / 32) 0 with
      | none => some (s.kprintf "loader: program '%s' not found\n" [] [text name],-1)
      | some found => (s.threadCreate true (entryVaddr found) answers).map (fun (s,t) =>
        if t = 0 then (s.kprintf "loader: thread_create failed for '%s'\n" [] [text name],-1)
        else
          let totalBytes := found.sectors * sectorSize % 2^32
          let numPages := add32 totalBytes (pageSize - 1) / pageSize
          let (kernel,result) := Kernel.loadPages reads found name
            (s.kernel.threads.tasks.pageDirectory t) numPages 0 s.kernel
          ({ s with kernel := kernel },result))

/-- Everything that a failed call has to leave alone is the same. -/
structure SameResources (s t : KernelState L ι) : Prop where
  ring : ∀ ring, Ring.IsRing s.kernel.threads.tasks.next s.kernel.threads.tasks.prev ring →
    s.kernel.threads.tasks.currentRunning ∈ ring →
    Ring.IsRing t.kernel.threads.tasks.next t.kernel.threads.tasks.prev ring ∧
    t.kernel.threads.tasks.currentRunning = s.kernel.threads.tasks.currentRunning
  tids : ∀ i, i < tidLimit → bitmapGet (bits t.memory t.tids) i = bitmapGet (bits s.memory s.tids) i
  directories : ∀ i, i < threadLimit → t.kernel.paging.pdUsed i = s.kernel.paging.pdUsed i
  tables : ∀ i, i < maxUserPt → t.kernel.paging.userPtUsed i = s.kernel.paging.userPtUsed i
  frames : ∀ i, i < frameCount →
    bitmapGet t.kernel.paging.frameBitmap i = bitmapGet s.kernel.paging.frameBitmap i
  heap : ∀ a, a ∈ t.heap ↔ a ∈ s.heap

/-- There is a tid, memory for the control block and the stack, a page directory and a frame
for the user stack and for each page of the program, and its sectors can be read. -/
structure Enough (s : KernelState L ι) (reads : DiskReads) (answers : HeapAnswers) (found : ProgramDirEntry) :
    Prop where
  tid : ∃ i, i < tidLimit ∧ bitmapGet (bits s.memory s.tids) i = false
  tcb : answers.tcb ≠ 0
  directory : ∃ d, d < threadLimit ∧ s.kernel.paging.pdUsed d = false
  stack : answers.stack ≠ 0
  frames : s.kernel.paging.framesHeld + 1 + numPages found ≤ frameCount
  sectors : ∀ j, j < numPages found * sectorsPerPage → j < found.sectors →
    (reads (2 + j) (sectorLba found j)).isSome

end KernelState

section Tids

variable {m : Memory} {pool : Nat}

/-- Every `next` on the pool of tids changes a bit: it sets one, or it overwrites a bitmap
that is full. -/
theorem tid_next (laid : Laid m pool tidLimit) (ptr : Nat) : ∃ m' tid,
    IdPool.next m pool ptr = some (m',tid) ∧
    (∃ i, i < tidLimit ∧ bitmapGet (bits m' pool) i ≠ bitmapGet (bits m pool) i) ∧
    (tid = allOnes ↔ ¬∃ i, i < tidLimit ∧ bitmapGet (bits m pool) i = false) := by
  have room := laid.room
  cases outcome : firstClear (bitmapGet (bits m pool)) tidLimit 0 with
  | some i =>
    obtain ⟨_,below,clear,_⟩ := firstClear_some outcome
    have inside : i < tidLimit := by omega
    have row := laid.stands.row_lt inside
    obtain ⟨within,_⟩ := writeId_within (update m (pool + headerSize + i / 8)
      (bitmapMark (bits m pool) i (i / 8))) ptr (laid.record_fits inside)
    have marked : Laid (update m (pool + headerSize + i / 8) (bitmapMark (bits m pool) i (i / 8))) pool
        tidLimit := laid.frame (fun b _ low => update_of_ne (by omega) ..)
    refine ⟨_,i,laid.next_clear outcome ptr,⟨i,inside,?_⟩,?_⟩
    · rw [clear,bits_updated i (bitmapMark (bits m pool) i) laid (marked.within within) _ _ inside,
        bitmapGet_mark]
      · simp
      · intro other apart
        rw [bitmapMark,update_of_ne apart]
      · intro other inBitmap
        apply within
        unfold recordOf
        omega
    · have real : i ≠ allOnes := by
        unfold allOnes tidLimit at *
        omega
      simp only [real,false_iff,not_not]
      exact ⟨i,inside,clear⟩
  | none =>
    have all : ∀ i, i < tidLimit → bitmapGet (bits m pool) i = true :=
      fun i inside => firstClear_none outcome i (by omega) (by omega)
    have row := laid.stands.row_lt (show tidLimit - 1 < tidLimit by decide)
    have size : bitmapBytes tidLimit = 16 := by decide
    simp only [headerSize] at room
    have kept : Laid (writeId m (pool + 4 + bitmapBytes tidLimit) ptr) pool tidLimit := by
      apply laid.frame
      intro b _ below
      unfold headerSize at below
      rw [size] at room ⊢
      rw [writeId,store_apart (by omega) (by omega),store_apart (by omega) (by omega),
        store_apart (by omega) (by omega),store_apart (by omega) (by omega)]
    refine ⟨_,allOnes,laid.next_exhausted outcome ptr,⟨tidLimit - 1,by decide,?_⟩,?_⟩
    · rw [all _ (by decide),bitmapGet,kept.bits_eq row,laid.last_overwritten (by decide)]
      simp
    · simp only [true_iff,not_exists,not_and]
      intro i inside
      rw [all i inside]
      simp

end Tids

namespace Paging

variable {L : Layout} {s : Paging L}

theorem frameAlloc_held (s : Paging L) :
    (s.frameAlloc.2 = 0 ∧ frameCount ≤ s.framesHeld) ∨
    (s.frameAlloc.2 ≠ 0 ∧ s.framesHeld < frameCount ∧ s.frameAlloc.1.framesHeld = s.framesHeld + 1) := by
  rcases s.frameAlloc_outcome with ⟨same,full⟩ | ⟨i,inside,same,clear,_⟩
  · refine .inl ⟨by rw [same],?_⟩
    have all : (Finset.range frameCount).filter (fun f => bitmapGet s.frameBitmap f = true) =
        Finset.range frameCount :=
      Finset.filter_true_of_mem (fun f member => full f (Finset.mem_range.mp member))
    rw [framesHeld,all,Finset.card_range]
  · rw [same]
    let after : Paging L := { s with frameBitmap := bitmapMark s.frameBitmap i }
    have held : after.framesHeld = s.framesHeld + 1 := framesHeld_marked ⟨i,inside⟩ clear rfl
    have bound := after.framesHeld_le
    refine .inr ⟨?_,by omega,held⟩
    dsimp only
    unfold frameStart
    omega

theorem allocPageDirectory_granted (s : Paging L) :
    (s.allocPageDirectory.2 ≠ 0 ↔ ∃ d, d < threadLimit ∧ s.pdUsed d = false) ∧
    s.allocPageDirectory.1.frameBitmap = s.frameBitmap := by
  cases outcome : firstClear s.pdUsed threadLimit 0 with
  | none =>
    rw [allocPageDirectory,outcome]
    refine ⟨⟨fun granted => absurd rfl granted,?_⟩,rfl⟩
    rintro ⟨d,inside,clear⟩
    rw [firstClear_none outcome d (by omega) (by omega)] at clear
    contradiction
  | some i =>
    obtain ⟨_,below,clear,_⟩ := firstClear_some outcome
    have placed := (L.placed (L.pageDirs,threadLimit) (by simp [pagingArrays])).1
    rw [allocPageDirectory,outcome]
    refine ⟨⟨fun _ => ⟨i,by omega,clear⟩,fun _ => ?_⟩,rfl⟩
    change L.pageDirs + i * pageSize ≠ 0
    omega

theorem forThread_granted (s : Paging L) (heap : HeapGrants) :
    ((s.forThread true heap).2.1 ≠ 0 ↔
      heap.tid ≠ allOnes ∧ ∃ d, d < threadLimit ∧ s.pdUsed d = false) ∧
    ((s.forThread true heap).2.2 ≠ 0 ↔
      (s.forThread true heap).2.1 ≠ 0 ∧ heap.stack ≠ 0 ∧ s.framesHeld < frameCount) ∧
    ((s.forThread true heap).2.2 ≠ 0 → (s.forThread true heap).1.framesHeld = s.framesHeld + 1) := by
  unfold forThread
  by_cases none : heap.tid = allOnes
  · simp [none]
  rw [if_neg none]
  obtain ⟨granted,frames⟩ := s.allocPageDirectory_granted
  have same := framesHeld_congr frames
  dsimp only
  by_cases going : s.allocPageDirectory.2 = 0 ∨ heap.stack = 0 ∨ true = false
  · rw [if_pos going]
    refine ⟨by simp [none,granted],?_,fun frame => absurd rfl frame⟩
    simp only [ne_eq,not_true_eq_false,false_iff,not_and]
    intro directory stack
    rcases going with zero | zero | impossible
    · exact absurd zero directory
    · exact absurd zero stack
    · exact absurd impossible (by decide)
  rw [if_neg going]
  simp only [not_or] at going
  rcases s.allocPageDirectory.1.frameAlloc_held with ⟨zero,full⟩ | ⟨frame,room,held⟩
  · rw [if_pos zero]
    refine ⟨by simp [none,granted],?_,fun frame => absurd rfl frame⟩
    simp only [ne_eq,not_true_eq_false,false_iff,not_and]
    omega
  · rw [if_neg frame]
    refine ⟨by simp [none,granted],?_,?_⟩
    · simp only [ne_eq,frame,not_false_eq_true,true_iff]
      exact ⟨going.1,going.2.1,by omega⟩
    · intro _
      refine (framesHeld_congr ?_).trans (held.trans (congrArg (· + 1) same))
      exact (mapPage_marks ..).2

end Paging

theorem Tasks.threadCreate_spliced {ι : Type} {s : Tasks ι} {user : Bool} {grants : Grants}
    (created : (s.threadCreate user grants).2 ≠ 0) (running : s.currentRunning ≠ 0)
    (fresh : s.currentRunning ≠ grants.tcb) :
    (s.threadCreate user grants).1.next (s.prev s.currentRunning) = grants.tcb ∧
    (s.threadCreate user grants).1.state grants.tcb = .ready := by
  unfold threadCreate prepare at created ⊢
  dsimp only at created ⊢
  split
  · simp_all
  split
  · simp_all
  split
  · simp_all
  split
  · simp_all
  · simp [splice,running,update_of_ne fresh]

namespace Kernel

variable {L : Layout} {ι : Type} (reads : DiskReads) (found : ProgramDirEntry)

theorem threadCreate_launched (k : Kernel L ι) (entryFn : Word) (heap : HeapGrants) :
    ((k.threadCreate true entryFn heap).2 ≠ 0 ↔ heap.tid ≠ allOnes ∧ heap.tcb ≠ 0 ∧
      (∃ d, d < threadLimit ∧ k.paging.pdUsed d = false) ∧ heap.stack ≠ 0 ∧
      k.paging.framesHeld < frameCount) ∧
    ((k.threadCreate true entryFn heap).2 ≠ 0 →
      (k.threadCreate true entryFn heap).1.paging.framesHeld = k.paging.framesHeld + 1) := by
  obtain ⟨directory,frame,held⟩ := k.paging.forThread_granted heap
  unfold threadCreate
  generalize k.paging.forThread true heap = granted at *
  obtain ⟨paging,pd,paddr⟩ := granted
  dsimp only at *
  have launched : (k.threads.tasks.threadCreate true ⟨heap.tcb,heap.tid,pd,heap.stack,paddr⟩).2 ≠ 0 ↔
      heap.tid ≠ allOnes ∧ heap.tcb ≠ 0 ∧ pd ≠ 0 ∧ heap.stack ≠ 0 ∧ paddr ≠ 0 := by
    unfold Tasks.threadCreate Tasks.prepare
    dsimp only
    split
    · simp [*]
    split
    · simp [*]
    split
    · simp [*]
    split
    · rename_i zero
      simp [zero.2]
    · rename_i tid pd stack frame
      simp only [true_and] at frame
      simp [tid,pd,stack,frame]
  constructor
  · rw [launched]
    constructor
    · rintro ⟨tid,tcb,pd,stack,paddr⟩
      exact ⟨tid,tcb,(directory.mp pd).2,stack,(frame.mp paddr).2.2⟩
    · rintro ⟨tid,tcb,spare,stack,room⟩
      have pd := directory.mpr ⟨tid,spare⟩
      exact ⟨tid,tcb,pd,stack,frame.mpr ⟨pd,stack,room⟩⟩
  · intro created
    exact held (launched.mp created).2.2.2.2

theorem readSectors_returns (page paddr remaining n : Nat) (inside : n + remaining ≤ sectorsPerPage)
    (k : Kernel L ι) :
    ((readSectors reads found page paddr remaining n k).2 = true ↔
      ∀ i, n ≤ i → i < n + remaining → page * sectorsPerPage + i < found.sectors →
        (reads (2 + (page * sectorsPerPage + i)) (KernelState.sectorLba found (page * sectorsPerPage + i))).isSome) ∧
    (readSectors reads found page paddr remaining n k).1.paging.frameBitmap = k.paging.frameBitmap := by
  induction remaining generalizing n k with
  | zero => exact ⟨by simp [readSectors]; omega,rfl⟩
  | succ remaining ih =>
    have lba : KernelState.sectorLba found (page * sectorsPerPage + n) =
        add32 (add32 found.lba (page * sectorsPerPage)) n := by
      have positive : 0 < sectorsPerPage := by decide
      rw [KernelState.sectorLba,Nat.mul_comm page,Nat.mul_add_div positive,Nat.mul_add_mod,
        Nat.div_eq_of_lt (by omega),Nat.mod_eq_of_lt (by omega),Nat.add_zero,Nat.mul_comm page]
    rw [readSectors]
    split
    · refine ⟨?_,rfl⟩
      simp only [true_iff]
      omega
    rename_i more
    dsimp only
    rw [Nat.add_assoc 2,← lba]
    cases read : reads (2 + (page * sectorsPerPage + n)) (KernelState.sectorLba found (page * sectorsPerPage + n)) with
    | none =>
      refine ⟨?_,rfl⟩
      simp only [Bool.false_eq_true,false_iff]
      intro all
      have here := all n (by omega) (by omega) (by omega)
      rw [read] at here
      contradiction
    | some sector =>
      obtain ⟨returns,bitmap⟩ := ih (n + 1) (by omega) { k with paging := { k.paging with
        ram := fillWords (paddr + n * sectorSize) (fun _ j => sectorWord sector (4 * j)) 128 k.paging.ram } }
      refine ⟨returns.trans ?_,bitmap⟩
      constructor
      · intro later i low high below
        by_cases first : i = n
        · rw [first,read]
          rfl
        · exact later i (by omega) (by omega) below
      · intro all i low high below
        exact all i (by omega) (by omega) below

theorem loadPages_returns (name : Nat → Byte) (pd remaining page : Nat) (k : Kernel L ι) :
    ((loadPages reads found name pd remaining page k).2 = 0 ↔
      k.paging.framesHeld + remaining ≤ frameCount ∧
      ∀ j, page * sectorsPerPage ≤ j → j < (page + remaining) * sectorsPerPage → j < found.sectors →
        (reads (2 + j) (KernelState.sectorLba found j)).isSome) ∧
    ((loadPages reads found name pd remaining page k).2 = 0 ∨
      (loadPages reads found name pd remaining page k).2 = -1) := by
  induction remaining generalizing page k with
  | zero =>
    refine ⟨⟨fun _ => ⟨?_,?_⟩,fun _ => rfl⟩,.inl rfl⟩
    · rw [Nat.add_zero]
      exact k.paging.framesHeld_le
    · intro j low high
      rw [Nat.add_zero] at high
      omega
  | succ remaining ih =>
    have eight : sectorsPerPage = 8 := by decide
    rw [loadPages]
    dsimp only
    rcases k.paging.frameAlloc_held with ⟨zero,full⟩ | ⟨frame,room,held⟩
    · rw [if_pos zero]
      refine ⟨?_,.inr rfl⟩
      simp only [Int.reduceNeg,Int.neg_eq_zero,one_ne_zero,false_iff,not_and]
      omega
    rw [if_neg frame]
    have mapped := Paging.framesHeld_congr (k.paging.frameAlloc.1.mapPage_marks pd
      (add32 progLoadBase (page * pageSize)) k.paging.frameAlloc.2 (pageRw ||| pageUser)).2
    generalize k.paging.frameAlloc.1.mapPage pd (add32 progLoadBase (page * pageSize))
      k.paging.frameAlloc.2 (pageRw ||| pageUser) = paging at mapped ⊢
    obtain ⟨sectors,bitmap⟩ := readSectors_returns reads found page
      k.paging.frameAlloc.2 sectorsPerPage 0 (by omega) { k with paging := paging }
    have frames := Paging.framesHeld_congr bitmap
    generalize readSectors reads found page k.paging.frameAlloc.2 sectorsPerPage 0
      { k with paging := paging } = outcome at sectors frames ⊢
    dsimp only at frames
    split
    · rename_i done
      obtain ⟨returns,values⟩ := ih (page + 1) outcome.1
      refine ⟨returns.trans ?_,values⟩
      have here := sectors.mp done
      rw [eight] at here ⊢
      constructor
      · rintro ⟨spare,later⟩
        refine ⟨by omega,?_⟩
        intro j low high below
        by_cases first : j < page * 8 + 8
        · have read := here (j - page * 8) (by omega) (by omega) (by omega)
          rwa [Nat.add_sub_cancel' low] at read
        · exact later j (by omega) (by omega) below
      · rintro ⟨spare,all⟩
        exact ⟨by omega,fun j low high => all j (by omega) (by omega)⟩
    · rename_i failed
      refine ⟨?_,.inr rfl⟩
      simp only [Int.reduceNeg,Int.neg_eq_zero,one_ne_zero,false_iff,not_and]
      intro spare all
      refine failed (sectors.mpr ?_)
      rw [eight] at all ⊢
      intro i low high below
      exact all (page * 8 + i) (by omega) (by omega) below

/-- A listed program is loaded when there is enough of everything. -/
theorem loadProgram_returns {name : Nat → Byte} (k : Kernel L ι) (heap : HeapGrants)
    (listed : KernelState.Lists reads name found) :
    ((k.loadProgram name reads heap).2 = 0 ↔ heap.tid ≠ allOnes ∧ heap.tcb ≠ 0 ∧
      (∃ d, d < threadLimit ∧ k.paging.pdUsed d = false) ∧ heap.stack ≠ 0 ∧
      k.paging.framesHeld + 1 + KernelState.numPages found ≤ frameCount ∧
      ∀ j, j < KernelState.numPages found * sectorsPerPage → j < found.sectors →
        (reads (2 + j) (KernelState.sectorLba found j)).isSome) ∧
    ((k.loadProgram name reads heap).2 = 0 ∨ (k.loadProgram name reads heap).2 = -1) := by
  obtain ⟨launched,frames⟩ := k.threadCreate_launched (entryVaddr found) heap
  rw [loadProgram_listed k heap listed]
  generalize k.threadCreate true (entryVaddr found) heap = created at launched frames ⊢
  obtain ⟨kernel,t⟩ := created
  dsimp only at launched frames ⊢
  by_cases zero : t = 0
  · rw [if_pos zero]
    refine ⟨?_,.inr rfl⟩
    simp only [Int.reduceNeg,Int.neg_eq_zero,one_ne_zero,false_iff]
    rintro ⟨tid,tcb,directory,stack,room,_⟩
    exact launched.mpr ⟨tid,tcb,directory,stack,by omega⟩ zero
  · rw [if_neg zero]
    obtain ⟨returns,values⟩ := loadPages_returns reads found (kname name)
      (kernel.threads.tasks.pageDirectory t) (KernelState.numPages found) 0 kernel
    refine ⟨returns.trans ?_,values⟩
    obtain ⟨tid,tcb,directory,stack,_⟩ := launched.mp zero
    rw [frames zero]
    simp only [Nat.zero_mul,Nat.zero_le,true_implies,Nat.zero_add]
    exact ⟨fun enough => ⟨tid,tcb,directory,stack,enough⟩,fun enough => enough.2.2.2.2⟩

theorem loadProgram_threads {name : Nat → Byte} (k : Kernel L ι) (heap : HeapGrants)
    (listed : KernelState.Lists reads name found) :
    (k.loadProgram name reads heap).1.threads = (k.threadCreate true (entryVaddr found) heap).1.threads := by
  rw [loadProgram_listed k heap listed]
  dsimp only
  split
  · rfl
  · exact (loadPages_threads ..).1

end Kernel

namespace KernelState

variable {L : Layout} {ι : Type} {s : KernelState L ι} {reads : DiskReads} {name : Nat → Byte}
  {found : ProgramDirEntry}

theorem loadProgram_kernel (answers : HeapAnswers) {memory : Memory} {tid : Nat}
    (listed : Lists reads name found) (took : IdPool.next s.memory s.tids answers.tcb = some (memory,tid)) :
    ∃ heap, s.loadProgram name reads answers =
      some ({ s with
        kernel := (s.kernel.loadProgram name reads ⟨answers.tcb,tid,answers.stack⟩).1
        memory := memory
        heap := heap },(s.kernel.loadProgram name reads ⟨answers.tcb,tid,answers.stack⟩).2) := by
  rw [Kernel.loadProgram_listed _ _ listed]
  obtain ⟨start,dir,directory,search⟩ := listed
  unfold loadProgram
  dsimp only
  rw [if_neg start,directory]
  dsimp only
  rw [search]
  dsimp only
  unfold threadCreate
  rw [took]
  simp only [Option.map_some]
  generalize s.kernel.threadCreate true (entryVaddr found) ⟨answers.tcb,tid,answers.stack⟩ = created
  split <;> exact ⟨_,rfl⟩

theorem loadProgram_unlisted (answers : HeapAnswers) (unlisted : ¬∃ found, Lists reads name found) :
    ∃ format arguments texts, s.loadProgram name reads answers = some (s.kprintf format arguments texts,-1) := by
  unfold loadProgram
  dsimp only
  split
  · exact ⟨_,_,_,rfl⟩
  rename_i start
  cases directory : reads 1 (Kernel.readProgDirLba reads) with
  | none => exact ⟨_,_,_,rfl⟩
  | some dir =>
    dsimp only
    cases search : findProgram dir (kname name) (sectorSize / 32) 0 with
    | none => exact ⟨_,_,_,rfl⟩
    | some found => exact absurd ⟨found,start,dir,directory,search⟩ unlisted

theorem loadProgram_listed (laid : Laid s.memory s.tids tidLimit) (answers : HeapAnswers)
    (listed : Lists reads name found) :
    ∃ t r, s.loadProgram name reads answers = some (t,r) ∧
      (∃ i, i < tidLimit ∧ bitmapGet (bits t.memory t.tids) i ≠ bitmapGet (bits s.memory s.tids) i) ∧
      (r = 0 ∨ r = -1) ∧ (r = 0 ↔ s.Enough reads answers found) := by
  obtain ⟨memory,tid,took,changed,exhausted⟩ := tid_next laid answers.tcb
  obtain ⟨heap,outcome⟩ := loadProgram_kernel answers listed took
  obtain ⟨returns,values⟩ := Kernel.loadProgram_returns reads found s.kernel
    ⟨answers.tcb,tid,answers.stack⟩ listed
  refine ⟨_,_,outcome,changed,values,returns.trans ?_⟩
  constructor
  · rintro ⟨real,tcb,directory,stack,frames,sectors⟩
    exact ⟨not_not.mp (fun none => real (exhausted.mpr none)),tcb,directory,stack,frames,sectors⟩
  · intro enough
    refine ⟨?_,enough.tcb,enough.directory,enough.stack,enough.frames,enough.sectors⟩
    rw [ne_eq,exhausted,not_not]
    exact enough.tid

/-- A call of `load_program` that fails leaves everything as it was just when the directory
does not list the program; one that is listed must not fail. -/
theorem load_program_all_or_nothing (s : KernelState L ι) (laid : Laid s.memory s.tids tidLimit)
    (name : Nat → Byte) (reads : DiskReads) (answers : HeapAnswers) :
    ∃ t r, s.loadProgram name reads answers = some (t,r) ∧
      ((r = -1 → s.SameResources t) ↔
        (¬∃ found, Lists reads name found) ∨
        ∃ found, Lists reads name found ∧ s.Enough reads answers found) := by
  by_cases listed : ∃ found, Lists reads name found
  · obtain ⟨found,listed⟩ := listed
    obtain ⟨t,r,outcome,⟨i,inside,differs⟩,values,enough⟩ := loadProgram_listed laid answers listed
    refine ⟨t,r,outcome,?_⟩
    constructor
    · intro undone
      refine .inr ⟨found,listed,enough.mp (values.resolve_right ?_)⟩
      exact fun failed => differs ((undone failed).tids i inside)
    · rintro (unlisted | ⟨other,also,plenty⟩) failed
      · exact absurd ⟨found,listed⟩ unlisted
      · have same : other = found := by
          obtain ⟨_,dir,directory,search⟩ := listed
          obtain ⟨_,dir',directory',search'⟩ := also
          obtain rfl := Option.some.inj (directory.symm.trans directory')
          exact Option.some.inj (search'.symm.trans search)
        rw [same,← enough,failed] at plenty
        contradiction
  · obtain ⟨format,arguments,texts,outcome⟩ := loadProgram_unlisted (s := s) answers listed
    refine ⟨_,_,outcome,fun _ => .inl listed,fun _ _ => ?_⟩
    exact ⟨fun ring circular member => ⟨circular,rfl⟩,fun _ _ => rfl,fun _ _ => rfl,fun _ _ => rfl,
      fun _ _ => rfl,fun _ => Iff.rfl⟩

theorem sample_state : ∃ s : KernelState Kernel.sampleLayout Unit,
    Reach Kernel.Booted Kernel.Does s.kernel ∧ s.kernel.threads = Kernel.sampleThreads ∧
    Laid s.memory s.tids tidLimit ∧ bitmapGet (bits s.memory s.tids) 0 = false ∧
    s.kernel.paging.pdUsed 0 = false ∧ s.kernel.paging.framesHeld = 0 := by
  obtain ⟨k,booted,threads,_,directories,frames⟩ := @Kernel.sample_boots Unit
  obtain ⟨laid,clear⟩ := createPool_spec (fun _ => 0) (show 0x100000 + headerSize + bitmapBytes tidLimit + tidLimit * idSize < 2^32 by decide)
  refine ⟨⟨k,createPool idSize 0 (fun _ => 0) tidLimit 0x100000,0x100000,[]⟩,.start booted,threads,laid,?_,?_,?_⟩
  · rw [bitmapGet,laid.bits_eq (by decide),clear _ (by decide) (by decide)]
    decide
  · exact congrFun directories 0
  · rw [Paging.framesHeld,Finset.card_eq_zero,Finset.filter_eq_empty_iff]
    intro f _
    rw [frames]
    simp [bitmapGet]

/-- A disk with one program, `a`, and its only sector, if that can be read. -/
def sampleDisk (sector : Option Sector) : DiskReads
  | 0, _ => some (fun i => if i = 6 then 4 else 0)
  | 1, _ => some (fun i => if i = 0 then 97 else if i = 16 then 5 else if i = 20 then 1 else 0)
  | _, _ => sector

def sampleName : Nat → Byte := fun i => if i = 0 then 97 else 0

theorem sampleDisk_lists (sector : Option Sector) :
    ∃ found, Lists (sampleDisk sector) sampleName found ∧ found.sectors = 1 := by
  have start : Kernel.readProgDirLba (sampleDisk sector) = 4 := rfl
  exact ⟨_,⟨by rw [start]; decide,_,rfl,rfl⟩,by decide⟩

/-- On a disk that cannot be read no program is loaded and nothing is taken; from one that can be
read the program is loaded, with enough of everything. -/
theorem nothing_taken_or_loaded : ∃ s t u : KernelState Kernel.sampleLayout Unit,
    Reach Kernel.Booted Kernel.Does s.kernel ∧
    (s.loadProgram sampleName (fun _ _ => none) ⟨0x120000,0x130000⟩ = some (t,-1) ∧ s.SameResources t) ∧
    (∃ found, Lists (sampleDisk (some default)) sampleName found ∧
      s.Enough (sampleDisk (some default)) ⟨0x120000,0x130000⟩ found) ∧
    s.loadProgram sampleName (sampleDisk (some default)) ⟨0x120000,0x130000⟩ = some (u,0) := by
  obtain ⟨s,reached,_,laid,tid,directory,frames⟩ := sample_state
  obtain ⟨t,r,outcome,same⟩ := load_program_all_or_nothing s laid sampleName (fun _ _ => none) ⟨0x120000,0x130000⟩
  have failed : s.loadProgram sampleName (fun _ _ => none) ⟨0x120000,0x130000⟩ =
      some (s.kprintf "loader: could not read prog_dir_lba from bootblock\n" [] [],-1) := rfl
  obtain ⟨rfl,rfl⟩ := Prod.mk.inj (Option.some.inj (failed.symm.trans outcome))
  obtain ⟨found,listed,sectors⟩ := sampleDisk_lists (some default)
  have pages : numPages found = 1 := by
    rw [numPages,sectors]
    decide
  have enough : s.Enough (sampleDisk (some default)) ⟨0x120000,0x130000⟩ found := by
    refine ⟨⟨0,by decide,tid⟩,Nat.succ_ne_zero _,⟨0,by decide,directory⟩,Nat.succ_ne_zero _,?_,?_⟩
    · rw [frames,pages]
      decide
    · intro j _ _
      rw [Nat.add_comm]
      rfl
  obtain ⟨u,r,loaded,_⟩ := load_program_all_or_nothing s laid sampleName (sampleDisk (some default)) ⟨0x120000,0x130000⟩
  obtain ⟨_,_,again,_,_,returns⟩ := loadProgram_listed laid ⟨0x120000,0x130000⟩ listed
  obtain ⟨rfl,rfl⟩ := Prod.mk.inj (Option.some.inj (loaded.symm.trans again))
  rw [returns.mpr enough] at loaded
  refine ⟨s,_,u,reached,⟨failed,same.mpr (.inl ?_) rfl⟩,⟨found,listed,enough⟩,loaded⟩
  rintro ⟨found,start,_⟩
  exact start rfl

/-- The thread of a program that could not be read is on the ready ring behind the boot
thread. -/
theorem half_loaded_thread_runnable : ∃ s t : KernelState Kernel.sampleLayout Unit,
    Reach Kernel.Booted Kernel.Does s.kernel ∧ Laid s.memory s.tids tidLimit ∧
    s.loadProgram sampleName (sampleDisk none) ⟨0x120000,0x130000⟩ = some (t,-1) ∧
    s.kernel.threads.tasks.next 7 = 7 ∧ t.kernel.threads.tasks.next 7 = 0x120000 ∧
    t.kernel.threads.tasks.state 0x120000 = .ready ∧ ¬s.SameResources t := by
  obtain ⟨s,reached,threads,laid,tid,directory,frames⟩ := sample_state
  obtain ⟨found,listed,sectors⟩ := sampleDisk_lists none
  obtain ⟨t,r,outcome,⟨i,inside,differs⟩,values,enough⟩ := loadProgram_listed laid ⟨0x120000,0x130000⟩ listed
  have failed : r = -1 := by
    refine values.resolve_left (fun loaded => ?_)
    have read := (enough.mp loaded).sectors 0 (by rw [numPages,sectors]; decide) (by omega)
    exact absurd read Bool.false_ne_true
  subst failed
  obtain ⟨memory,number,took,_,exhausted⟩ := tid_next laid 0x120000
  have real : number ≠ allOnes := fun none => exhausted.mp none ⟨0,by decide,tid⟩
  obtain ⟨launched,_⟩ := s.kernel.threadCreate_launched (entryVaddr found) ⟨0x120000,number,0x130000⟩
  have created := launched.mpr ⟨real,Nat.succ_ne_zero _,⟨0,by decide,directory⟩,
    Nat.succ_ne_zero _,by rw [frames]; decide⟩
  obtain ⟨heap,again⟩ := loadProgram_kernel ⟨0x120000,0x130000⟩ listed took
  have after := (Prod.mk.inj (Option.some.inj (outcome.symm.trans again))).1
  have ring : t.kernel.threads = (s.kernel.threadCreate true (entryVaddr found) ⟨0x120000,number,0x130000⟩).1.threads := by
    rw [after]
    exact Kernel.loadProgram_threads _ _ s.kernel ⟨0x120000,number,0x130000⟩ listed
  have spliced : (s.kernel.threadCreate true (entryVaddr found) ⟨0x120000,number,0x130000⟩).1.threads.tasks.next 7 = 0x120000 ∧
      (s.kernel.threadCreate true (entryVaddr found) ⟨0x120000,number,0x130000⟩).1.threads.tasks.state 0x120000 = .ready := by
    rw [Kernel.threadCreate] at created ⊢
    dsimp only at created ⊢
    rw [threads] at created ⊢
    exact Tasks.threadCreate_spliced created (Nat.succ_ne_zero 6) (show (7 : Nat) ≠ 0x120000 by decide)
  refine ⟨s,t,reached,laid,outcome,?_,?_,?_,fun same => differs (same.tids i inside)⟩
  · rw [threads]
    rfl
  · rw [ring]
    exact spliced.1
  · rw [ring]
    exact spliced.2

end KernelState

end RudimentaryKernel
