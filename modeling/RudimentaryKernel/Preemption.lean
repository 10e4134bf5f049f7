import RudimentaryKernel.AddressSpaces
import RudimentaryKernel.IdAllocator

/-! Threads that a timer interrupt can take anywhere. What a thread still has to do of the
kernel call it is in is a list of acts; an act is what happens between two points at which
an interrupt can come, and one of them runs at a time. The locks are the one of the heap,
the one of the tid pool's bitmap, one in each tid record, and any others. `scheduler` frees
the last zombie through the same heap, with the same lock. -/
namespace RudimentaryKernel

open Function List

/-- What has a wait queue. -/
inductive Waitable (κ : Type) where
  | kpool
  | bitmap
  | record (id : Nat)
  | other (q : κ)
  deriving DecidableEq

/-- The bitmap and the records of `tid_allocator`'s pool, the page tables and frames, and the
live allocations of the heap that are not control blocks. -/
structure Resources (L : Layout) where
  bits : Nat → Bool
  ptr : Nat → Nat
  count : Nat → Nat
  paging : Paging L
  owned : List Nat
  kstacks : List Nat
  console : List Print

/-- The call of `load_program` behind a `thread_create`. -/
structure Request where
  found : ProgramDirEntry
  name : Nat → Byte

/-- The locals of a `thread_create`. -/
structure Creation where
  user : Bool
  request : Option Request
  tcb : Nat
  tid : Nat
  pd : Nat
  stack : Nat
  paddr : Nat

/-- The locals of the loop in `load_program`. -/
structure Loading where
  request : Request
  pd : Nat
  page : Nat
  remaining : Nat
  paddr : Nat

/-- What a frame is for: the user stack or a page of the program. -/
inductive Mapping where
  | stack (c : Creation)
  | page (l : Loading)

namespace Mapping

def pd : Mapping → Nat
  | .stack c => c.pd
  | .page l => l.pd

def vaddr : Mapping → Nat
  | .stack _ => userStackBase
  | .page l => add32 progLoadBase (l.page * pageSize)

def paddr : Mapping → Nat
  | .stack c => c.paddr
  | .page l => l.paddr

def withFrame (paddr : Nat) : Mapping → Mapping
  | .stack c => .stack { c with paddr := paddr }
  | .page l => .page { l with paddr := paddr }

end Mapping

/-- What is done with the heap under `kpool->lock`: `kmalloc` and `kfree` for a thread's own
ends, the two `kmalloc` of `thread_create` and its `free_kstack`. -/
inductive HeapUse where
  | kmalloc
  | kfree (address : Nat)
  | tcb (user : Bool) (request : Option Request)
  | stack (c : Creation)
  | freeKstack (c : Creation)

/-- Acts on the resources alone. The loops of the allocators test one entry at a time, and
the entry is taken in an act of its own. -/
inductive Work where
  | scan (c : Creation) (i : Nat)
  | mark (c : Creation) (i : Nat)
  | openCount (id : Nat)
  | closeCount (id : Nat)
  | unmark (id : Nat)
  | scanDirectory (c : Creation) (i : Nat)
  | takeDirectory (c : Creation) (i : Nat)
  | copyDirectory (c : Creation) (i : Nat)
  | scanFrame (g : Mapping) (i : Nat)
  | takeFrame (g : Mapping) (i : Nat)
  | testEntry (g : Mapping)
  | scanTable (g : Mapping) (i : Nat)
  | takeTable (g : Mapping) (i : Nat)
  | clearTable (g : Mapping) (i : Nat)
  | linkTable (g : Mapping) (i : Nat)
  | storeEntry (g : Mapping)
  | pushCallExit (c : Creation)
  | pushCallExitAgain (c : Creation)
  | readSector (l : Loading) (s : Nat)
  | report (format : String) (arguments : List Nat) (texts : List (List Byte))

inductive Act (κ : Type) where
  | acquire (l : Waitable κ)
  | release (l : Waitable κ)
  | enterHeap (use : HeapUse)
  | useHeap (use : HeapUse)
  | wait (q : κ)
  | signal (q : κ)
  | directSchedulerEntry
  | spin
  | r3Exit
  | r0ExitNoZombie
  | threadReapDelayed (address : Nat)
  | work (w : Work)
  | writeId (c : Creation)
  | clearTcb (c : Creation)
  | setDirectory (c : Creation)
  | setStack (c : Creation)
  | setFrame (c : Creation)
  | linkNew (c : Creation)
  | linkLast (c : Creation)
  | linkFirst (c : Creation)

/-- What comes from outside: what `kmalloc` finds, what the disk answers, and the stack
pointers that the calls of `scheduler` are given. -/
structure Input where
  grant : Nat
  sector : Option Sector
  esp : Nat → Nat

section Acts

variable {L : Layout} {κ : Type}

def Creation.refused (c : Creation) : List (Act κ) :=
  match c.request with
  | none => []
  | some r => [.work (.report "loader: thread_create failed for '%s'\n" [] [text r.name])]

/-- The head of the loop in `load_program`. -/
def Loading.next (l : Loading) : List (Act κ) :=
  if l.remaining = 0 then
    [.work (.report "loader: loaded '%s' (%u sectors, entry=0x%x)\n"
      [l.request.found.sectors,l.request.found.entry] [text l.request.found.name])]
  else [.work (.scanFrame (.page l) 0)]

def Creation.returned (c : Creation) : List (Act κ) :=
  match c.request with
  | none => []
  | some r =>
    let totalBytes := r.found.sectors * sectorSize % 2^32
    let numPages := add32 totalBytes (pageSize - 1) / pageSize
    Loading.next ⟨r,c.pd,0,numPages,0⟩

def Mapping.mapped : Mapping → List (Act κ)
  | .stack c => [.work (.pushCallExit c)]
  | .page l => [.work (.readSector l 0)]

def Resources.kprintf (r : Resources L) (format : String) (arguments : List Nat) (texts : List (List Byte)) :
    Resources L :=
  { r with console := r.console ++ [⟨format,arguments,texts⟩] }

/-- What an act does to the resources, and the acts that follow from it. -/
def Work.run (input : Input) (r : Resources L) : Work → Resources L × List (Act κ)
  | .scan c i =>
    if i < tidLimit then
      if r.bits i = false then (r,[.work (.mark c i)]) else (r,[.work (.scan c (i + 1))])
    else (r,[.release .bitmap,.writeId { c with tid := allOnes }])
  | .mark c i =>
    ({ r with bits := update r.bits i true },[.release .bitmap,.writeId { c with tid := i }])
  | .openCount id =>
    -- a record without references is left with its lock taken
    if r.count id = 0 then (r,[])
    else ({ r with count := update r.count id ((r.count id + 1) % 2^16) },[.release (.record id)])
  | .closeCount id =>
    if r.count id = 0 then (r,[])
    else
      let r := { r with count := update r.count id (r.count id - 1) }
      if r.count id = 0 then (r,[.threadReapDelayed (r.ptr id),.acquire .bitmap,.work (.unmark id),
        .release .bitmap,.release (.record id)])
      else (r,[.release (.record id)])
  | .unmark id => ({ r with bits := update r.bits id false },[])
  | .scanDirectory c i =>
    if i < threadLimit then
      if r.paging.pdUsed i = false then (r,[.work (.takeDirectory c i)])
      else (r,[.work (.scanDirectory c (i + 1))])
    else
      ({ r with paging := r.paging.kprintf "alloc_page_directory: out of page directories\n" [] },
        [.setDirectory { c with pd := 0 }])
  | .takeDirectory c i =>
    ({ r with paging := { r.paging with pdUsed := update r.paging.pdUsed i true } },
      [.work (.copyDirectory c i)])
  | .copyDirectory c i =>
    let pd := L.pageDirs + i * pageSize
    let kernel := r.paging.kernelPageDirectory
    let ram := fillWords pd (fun ram j => ram (kernel + 4 * j)) 1024 r.paging.ram
    ({ r with paging := { r.paging with ram := ram } },[.setDirectory { c with pd := pd }])
  | .scanFrame g i =>
    if i < frameCount then
      if bitmapGet r.paging.frameBitmap i = false then (r,[.work (.takeFrame g i)])
      else (r,[.work (.scanFrame g (i + 1))])
    else
      let r := { r with paging := r.paging.kprintf "frame_alloc: out of frames\n" [] }
      match g with
      | .stack c => (r.kprintf "ERROR: OUT OF MEMORY\n" [] [],[.enterHeap (.freeKstack c)])
      | .page l => (r.kprintf "loader: out of frames loading '%s'\n" [] [text l.request.name],[])
  | .takeFrame g i =>
    ({ r with paging := { r.paging with frameBitmap := bitmapMark r.paging.frameBitmap i } },
      [.work (.testEntry (g.withFrame (frameStart + i * pageSize)))])
  | .testEntry g =>
    if r.paging.ram (g.pd + 4 * pdIndex g.vaddr) &&& pagePresent = 0 then (r,[.work (.scanTable g 0)])
    else (r,[.work (.storeEntry g)])
  | .scanTable g i =>
    if i < maxUserPt then
      if r.paging.userPtUsed i = false then (r,[.work (.takeTable g i)])
      else (r,[.work (.scanTable g (i + 1))])
    else
      let paging := r.paging.kprintf "alloc_user_page_table: out of page tables\n" []
      ({ r with paging := paging.kprintf "map_page: out of page tables\n" [] },g.mapped)
  | .takeTable g i =>
    ({ r with paging := { r.paging with userPtUsed := update r.paging.userPtUsed i true } },
      [.work (.clearTable g i)])
  | .clearTable g i =>
    let ram := fillWords (L.userPtStorage + i * pageSize) (fun _ _ => 0) 1024 r.paging.ram
    ({ r with paging := { r.paging with ram := ram } },[.work (.linkTable g i)])
  | .linkTable g i =>
    let entry := BitVec.ofNat 32 (L.userPtStorage + i * pageSize) ||| pagePresent ||| pageRw ||| pageUser
    ({ r with paging := r.paging.store (g.pd + 4 * pdIndex g.vaddr) entry },[.work (.storeEntry g)])
  | .storeEntry g =>
    let entry := BitVec.ofNat 32 g.paddr ||| (pageRw ||| pageUser) ||| pagePresent
    ({ r with paging := r.paging.storeEntry g.pd g.vaddr entry },g.mapped)
  | .pushCallExit c =>
    ({ r with paging := r.paging.store (c.paddr + pageSize - 4) L.callExit },[.work (.pushCallExitAgain c)])
  | .pushCallExitAgain c =>
    ({ r with paging := r.paging.store (c.paddr + pageSize - 8) L.callExit },[.setFrame c])
  | .readSector l s =>
    if s < sectorsPerPage ∧ l.page * sectorsPerPage + s < l.request.found.sectors then
      let lba := add32 (add32 l.request.found.lba (l.page * sectorsPerPage)) s
      match input.sector with
      | none => (r.kprintf "loader: disk read error at lba %u\n" [lba] [],[])
      | some sector =>
        let ram := fillWords (l.paddr + s * sectorSize) (fun _ j => sectorWord sector (4 * j)) 128 r.paging.ram
        ({ r with paging := { r.paging with ram := ram } },[.work (.readSector l (s + 1))])
    else (r,Loading.next { l with page := l.page + 1, remaining := l.remaining - 1 })
  | .report format arguments texts => (r.kprintf format arguments texts,[])

end Acts

/-- The kernel with all its threads. Behind what it has in memory stand the threads marked
`EXITED` whose memory has not become another thread's, the stacks and control blocks of those that the scheduler
has taken off the ring as `EXITED`, and the threads that `thread_create` has returned. -/
structure KernelRun (L : Layout) (κ : Type) where
  threads : TaskRun (Waitable κ)
  status : Waitable κ → LockStatus
  resources : Resources L
  blocks : List Nat
  code : Nat → List (Act κ)
  exited : List Nat
  exits : List (Nat × Nat)
  created : List Nat

inductive Routine (κ : Type) where
  | kmalloc
  | kfree (address : Nat)
  | openId (id : Nat)
  | closeId (id : Nat)
  | threadCreate (user : Bool)
  | loadProgram (request : Request)
  | r0Exit
  | r3Exit
  | r0ExitNoZombie
  | r0Yield
  | acquire (l : κ)
  | release (l : κ)
  | wait (q : κ)
  | signal (q : κ)

/-- The running thread makes a call, goes on with one, or is interrupted by the timer. -/
inductive KernelEvent (κ : Type) where
  | call (routine : Routine κ)
  | proceed (input : Input)
  | timer (esp : Nat → Nat)

def Routine.acts {κ : Type} (tid : Nat) : Routine κ → List (Act κ)
  | .kmalloc => [.enterHeap .kmalloc]
  | .kfree address => [.enterHeap (.kfree address)]
  | .openId id => [.acquire (.record id),.work (.openCount id)]
  | .closeId id => [.acquire (.record id),.work (.closeCount id)]
  | .threadCreate user => [.enterHeap (.tcb user none)]
  | .loadProgram request => [.enterHeap (.tcb true (some request))]
  | .r0Exit => [.acquire (.record tid),.work (.closeCount tid),.spin]
  | .r3Exit => [.r3Exit]
  | .r0ExitNoZombie => [.r0ExitNoZombie]
  | .r0Yield => [.directSchedulerEntry]
  | .acquire l => [.acquire (.other l)]
  | .release l => [.release (.other l)]
  | .wait q => [.wait q]
  | .signal q => [.signal q]

/-- `*id_mem = { ptr, 1 }` behind a refusal: the record in front of the first one is the
bitmap, and gets the pointer, the count, two bytes of padding and a free lock. -/
def overwrittenBits (bits : Nat → Bool) (ptr : Nat) (i : Nat) : Bool :=
  if i < 32 then ptr.testBit i
  else if i < 48 then i = 32
  else if i < 64 then bits i
  else if i < 128 then false
  else bits i

def granted (address : Nat) (live : List Nat) : List Nat := if address = 0 then live else address :: live

namespace KernelRun

variable {L : Layout} {κ : Type} [DecidableEq κ]

def running (m : KernelRun L κ) : Nat := m.threads.tasks.currentRunning

def become (m : KernelRun L κ) (acts : List (Act κ)) : KernelRun L κ :=
  { m with code := update m.code m.running acts }

def withTasks (m : KernelRun L κ) (tasks : Tasks (Waitable κ)) : KernelRun L κ :=
  { m with threads := { m.threads with tasks := tasks } }

def release (m : KernelRun L κ) (l : Waitable κ) : KernelRun L κ :=
  let m := { m with status := update m.status l .unlocked }
  if m.threads.tasks.queue l ≠ 0 then m.withTasks (m.threads.tasks.unblock l) else m

/-- `thread_reap` when the heap's lock is free: each `kfree` takes it and releases it. -/
def threadReap (m : KernelRun L κ) (t : Nat) : KernelRun L κ :=
  let bottom := m.threads.tasks.stackBottom t
  let m := { m with resources := { m.resources with kstacks := m.resources.kstacks.erase bottom } }
  let m := m.withTasks { m.threads.tasks with freed := m.threads.tasks.freed ++ [bottom] }
  let m := m.release .kpool
  let m := { m with blocks := m.blocks.erase t }
  let m := m.withTasks { m.threads.tasks with freed := m.threads.tasks.freed ++ [t] }
  m.release .kpool

/-- `scheduler` from the switch on the state of the running thread. -/
def choose (m : KernelRun L κ) (oldEsp : Nat) : Option (KernelRun L κ) :=
  let tasks := m.threads.tasks
  (tasks.scheduler oldEsp).map (fun (after,_) => { m with
    threads := ⟨after,m.threads.remaining⟩
    exits := if tasks.state m.running = .exited then m.exits ++ [(tasks.stackBottom m.running,m.running)]
      else m.exits })

/-- `scheduler`. When the heap's lock is taken the first `kfree` calls `block`, and that the
scheduler again, with the zombie still there: `none` is a call that does not return within
so many calls of itself and steps of the walk in `block`, or one that is still under way.
The inner `none` is `halt()`. -/
def scheduler (walk : Nat) (esp : Nat → Nat) : Nat → KernelRun L κ → Option (Option (KernelRun L κ))
  | 0, _ => none
  | depth + 1, m =>
    let m := m.withTasks { m.threads.tasks with
      stackPointer := update m.threads.tasks.stackPointer m.running (esp depth) }
    if m.threads.tasks.zombie ≠ 0 then
      if m.status .kpool = .locked then
        (m.threads.tasks.enqueue walk .kpool).bind (fun tasks => scheduler walk esp depth (m.withTasks tasks))
      else
        let m := m.threadReap m.threads.tasks.zombie
        some ((m.withTasks { m.threads.tasks with zombie := 0 }).choose (esp depth))
    else some (m.choose (esp depth))

def block (fuel : Nat) (esp : Nat → Nat) (m : KernelRun L κ) (q : Waitable κ) :
    Option (Option (KernelRun L κ)) :=
  (m.threads.tasks.enqueue fuel q).bind (fun tasks => scheduler fuel esp fuel (m.withTasks tasks))

/-- The body of `ClusterPool::allocate` or `free`, with the answer `kmalloc` has found. -/
def useHeap (m : KernelRun L κ) (grant : Nat) (rest : List (Act κ)) : HeapUse → KernelRun L κ
  | .kmalloc =>
    { m with resources := { m.resources with owned := granted grant m.resources.owned } }.become
      (.release .kpool :: rest)
  | .kfree address =>
    { m with resources := { m.resources with owned := m.resources.owned.erase address } }.become
      (.release .kpool :: rest)
  | .tcb user request =>
    let c : Creation := ⟨user,request,grant,0,0,0,0⟩
    { m with blocks := granted grant m.blocks, exited := m.exited.filter (· ≠ grant) }.become
      (.release .kpool :: .acquire .bitmap :: .work (.scan c 0) :: rest)
  | .stack c =>
    { m with resources := { m.resources with kstacks := granted grant m.resources.kstacks } }.become
      (.release .kpool :: .setStack { c with stack := grant } :: rest)
  | .freeKstack c =>
    { m with resources := { m.resources with kstacks := m.resources.kstacks.erase c.stack } }.become
      (.release .kpool :: (c.refused ++ rest))

/-- `*id_mem = { ptr, 1 }` for a tid: the record's lock is a new one. -/
def writeRecord (m : KernelRun L κ) (id ptr : Nat) : KernelRun L κ :=
  let m := { m with
    resources := { m.resources with
      ptr := update m.resources.ptr id ptr
      count := update m.resources.count id 1 }
    status := update m.status (.record id) .unlocked }
  m.withTasks { m.threads.tasks with queue := update m.threads.tasks.queue (.record id) 0 }

/-- One act of the running thread, with what it has to do behind it. -/
def exec (fuel : Nat) (input : Input) (m : KernelRun L κ) (rest : List (Act κ)) :
    Act κ → Option (Option (KernelRun L κ))
  | .acquire l =>
    if m.status l = .locked then m.block fuel input.esp l
    else some (some ({ m with status := update m.status l .locked }.become rest))
  | .release l => some (some ((m.become rest).release l))
  | .enterHeap use =>
    if m.status .kpool = .locked then m.block fuel input.esp .kpool
    else some (some ({ m with status := update m.status .kpool .locked }.become (.useHeap use :: rest)))
  | .useHeap use => some (some (m.useHeap input.grant rest use))
  | .wait q => (m.become rest).block fuel input.esp (.other q)
  | .signal q =>
    let m := m.become rest
    some (some (if m.threads.tasks.queue (.other q) ≠ 0 then m.withTasks (m.threads.tasks.unblock (.other q)) else m))
  | .directSchedulerEntry => scheduler fuel input.esp fuel (m.become rest)
  | .spin => scheduler fuel input.esp fuel m
  | .r3Exit =>
    let m := { m with exited := m.running :: m.exited }.become rest
    scheduler fuel input.esp fuel (m.withTasks m.threads.tasks.markExited)
  | .r0ExitNoZombie =>
    scheduler fuel input.esp fuel ((m.become rest).withTasks m.threads.tasks.markExitedNoZombie)
  | .threadReapDelayed t =>
    let m := { m with exited := t :: m.exited }.become rest
    some (some (m.withTasks { m.threads.tasks with state := update m.threads.tasks.state t .exited }))
  | .work w =>
    let (resources,acts) := w.run input m.resources
    some (some ({ m with resources := resources }.become (acts ++ rest)))
  | .writeId c =>
    if c.tid = allOnes then
      some (some ({ m with resources := { m.resources with
        bits := overwrittenBits m.resources.bits c.tcb } }.become (c.refused ++ rest)))
    else some (some ((m.writeRecord c.tid c.tcb).become (.clearTcb c :: rest)))
  | .clearTcb c =>
    let s := m.threads.tasks
    some (some ((m.withTasks { s with
      tid := update s.tid c.tcb c.tid
      state := update s.state c.tcb .ready
      stackBottom := update s.stackBottom c.tcb 0
      stackPointer := update s.stackPointer c.tcb 0
      pageDirectory := update s.pageDirectory c.tcb 0
      next := update s.next c.tcb 0
      prev := update s.prev c.tcb 0 }).become (.work (.scanDirectory c 0) :: rest)))
  | .setDirectory c =>
    let s := { m.threads.tasks with pageDirectory := update m.threads.tasks.pageDirectory c.tcb c.pd }
    if c.pd = 0 then
      some (some ((m.withTasks (s.kprintf "ERROR: PAGE DIRECTORYn't\n" [])).become (c.refused ++ rest)))
    else some (some ((m.withTasks s).become (.enterHeap (.stack c) :: rest)))
  | .setStack c =>
    let s := { m.threads.tasks with
      stackBottom := update m.threads.tasks.stackBottom c.tcb c.stack
      stackPointer := update m.threads.tasks.stackPointer c.tcb (add32 c.stack Tasks.stackSize) }
    if c.stack = 0 then
      some (some ((m.withTasks (s.kprintf "ERROR: OUT OF MEMORY\n" [])).become (c.refused ++ rest)))
    else
      some (some ((m.withTasks s).become
        ((if c.user then .work (.scanFrame (.stack c) 0) else .setFrame c) :: rest)))
  | .setFrame c =>
    let s := m.threads.tasks
    let top := if c.user then s.stackPointer c.tcb else sub32 (s.stackPointer c.tcb) 4
    some (some ((m.withTasks { s with
      stackPointer := update s.stackPointer c.tcb (sub32 top Tasks.switchFrameSize) }).become
        (.linkNew c :: rest)))
  | .linkNew c =>
    let s := m.threads.tasks
    if m.running ≠ 0 then
      some (some ((m.withTasks { s with
        next := update s.next c.tcb m.running
        prev := update s.prev c.tcb (s.prev m.running) }).become (.linkLast c :: rest)))
    else
      some (some { m with
        threads := ⟨s.splice c.tcb,c.tcb :: m.threads.alive⟩
        code := update (update m.code c.tcb []) m.running (c.returned ++ rest)
        created := c.tcb :: m.created })
  | .linkLast c =>
    let s := m.threads.tasks
    some (some ((m.withTasks { s with next := update s.next (s.prev m.running) c.tcb }).become
      (.linkFirst c :: rest)))
  | .linkFirst c =>
    -- the new thread starts outside of all calls
    let s := { m.threads.tasks with prev := update m.threads.tasks.prev m.running c.tcb }
    some (some ({ m with
      threads := ⟨s,c.tcb :: m.threads.alive⟩
      code := update (update m.code c.tcb []) m.running (c.returned ++ rest)
      created := c.tcb :: m.created }))

def perform (fuel : Nat) (m : KernelRun L κ) : KernelEvent κ → Option (Option (KernelRun L κ))
  | .call routine => some (some (m.become (routine.acts (m.threads.tasks.tid m.running))))
  | .proceed input =>
    match m.code m.running with
    | [] => none
    | act :: rest => m.exec fuel input rest act
  | .timer esp => scheduler fuel esp fuel m

/-- A call is made from outside of all calls, for tids of the pool and addresses that
`kmalloc` has given to threads; what `kmalloc` finds is no live allocation. The timer may come in
every state: `MaskedRun` takes away the runs in which interrupts are off. -/
def Permitted (m : KernelRun L κ) : KernelEvent κ → Prop
  | .call routine => m.code m.running = [] ∧ match routine with
    | .kfree address => address ∈ m.resources.owned
    | .openId id | .closeId id => id < tidLimit
    | _ => True
  | .proceed input => input.grant = 0 ∨
    (input.grant ∉ m.blocks ∧ input.grant ∉ m.resources.kstacks ∧ input.grant ∉ m.resources.owned)
  | .timer _ => True

instance (m : KernelRun L κ) : ∀ event, Decidable (m.Permitted event)
  | .call (.kfree _) | .call (.openId _) | .call (.closeId _) => inferInstanceAs (Decidable (_ ∧ _))
  | .call .kmalloc | .call (.threadCreate _) | .call (.loadProgram _) | .call .r0Exit | .call .r3Exit
  | .call .r0ExitNoZombie | .call .r0Yield | .call (.acquire _) | .call (.release _) | .call (.wait _)
  | .call (.signal _) => inferInstanceAs (Decidable (_ ∧ True))
  | .proceed _ => inferInstanceAs (Decidable (_ ∨ _))
  | .timer _ => isTrue trivial

def performAll (fuel : Nat) : List (KernelEvent κ) → KernelRun L κ → Option (KernelRun L κ)
  | [], m => some m
  | event :: events, m =>
    if m.Permitted event then (m.perform fuel event).join.bind (performAll fuel events) else none

def Step (m t : KernelRun L κ) : Prop :=
  ∃ event fuel, m.Permitted event ∧ m.perform fuel event = some (some t)

def Boot (m : KernelRun L κ) : Prop :=
  m.threads.Boot ∧ m.threads.tasks.zombie = 0 ∧ m.threads.tasks.freed = [] ∧
  (∀ l, m.status l = .unlocked) ∧ (∀ t, m.code t = []) ∧ m.blocks = [m.running] ∧
  m.exited = [] ∧ m.exits = [] ∧ m.created = []

end KernelRun

namespace KernelRun

variable {L : Layout} {κ : Type} {m t u : KernelRun L κ}

/-- What a switch does not touch: the calls the threads are in, and of the resources all but
the stacks. -/
structure Aside (m t : KernelRun L κ) : Prop where
  code : t.code = m.code
  created : t.created = m.created
  exited : t.exited = m.exited
  resources : t.resources = { m.resources with kstacks := t.resources.kstacks }

theorem Aside.refl (m : KernelRun L κ) : Aside m m := ⟨rfl,rfl,rfl,rfl⟩

theorem Aside.trans (one : Aside m t) (two : Aside t u) : Aside m u where
  code := two.code.trans one.code
  created := two.created.trans one.created
  exited := two.exited.trans one.exited
  resources := by rw [two.resources,one.resources]

theorem Aside.withTasks (aside : Aside m t) (tasks : Tasks (Waitable κ)) : Aside m (t.withTasks tasks) :=
  ⟨aside.code,aside.created,aside.exited,aside.resources⟩

theorem choose_aside {oldEsp : Nat} (done : m.choose oldEsp = some t) : Aside m t := by
  obtain ⟨after,_,rfl⟩ := Option.map_eq_some_iff.mp done
  exact ⟨rfl,rfl,rfl,rfl⟩

theorem become_follows {act next : Act κ} {rest acts : List (Act κ)} {v : Nat}
    (here : m.code m.running = act :: rest) (member : next ∈ update m.code m.running (acts ++ rest) v) :
    next ∈ m.code v ∨ next ∈ acts := by
  by_cases same : v = m.running
  · subst v
    rw [update_self] at member
    rcases List.mem_append.mp member with new | old
    · exact .inr new
    · exact .inl (by rw [here]; exact List.mem_cons_of_mem _ old)
  · rw [update_of_ne same] at member
    exact .inl member

variable [DecidableEq κ]

theorem release_aside (m : KernelRun L κ) (l : Waitable κ) : Aside m (m.release l) := by
  unfold release
  dsimp only
  split
  · exact ⟨rfl,rfl,rfl,rfl⟩
  · exact ⟨rfl,rfl,rfl,rfl⟩

theorem threadReap_aside (m : KernelRun L κ) (z : Nat) : Aside m (m.threadReap z) := by
  refine Aside.trans ?_ (release_aside ..)
  refine Aside.withTasks ?_ _
  refine Aside.trans (Aside.trans ?_ (release_aside ..)) ⟨rfl,rfl,rfl,rfl⟩
  exact ⟨rfl,rfl,rfl,rfl⟩

theorem scheduler_aside {walk depth : Nat} {esp : Nat → Nat} (done : scheduler walk esp depth m = some (some t)) :
    Aside m t := by
  induction depth generalizing m with
  | zero => contradiction
  | succ depth ih =>
    rw [scheduler] at done
    dsimp only at done
    split at done
    · split at done
      · obtain ⟨tasks,_,later⟩ := Option.bind_eq_some_iff.mp done
        exact ((Aside.refl m).withTasks _ |>.withTasks tasks).trans (ih later)
      · have chosen := choose_aside (Option.some.inj done)
        exact (((Aside.refl m).withTasks _).trans (threadReap_aside ..) |>.withTasks _).trans chosen
    · exact ((Aside.refl m).withTasks _).trans (choose_aside (Option.some.inj done))

theorem block_aside {fuel : Nat} {esp : Nat → Nat} {q : Waitable κ} (done : m.block fuel esp q = some (some t)) :
    Aside m t := by
  obtain ⟨tasks,_,switched⟩ := Option.bind_eq_some_iff.mp done
  exact ((Aside.refl m).withTasks tasks).trans (scheduler_aside switched)

theorem performAll_runs {events : List (KernelEvent κ)} {fuel : Nat} (done : performAll fuel events m = some t) :
    Relation.ReflTransGen Step m t := by
  induction events generalizing m with
  | nil =>
    cases done
    exact .refl
  | cons event events ih =>
    rw [performAll] at done
    split at done
    · rename_i permitted
      obtain ⟨middle,one,later⟩ := Option.bind_eq_some_iff.mp done
      exact .head ⟨event,fuel,permitted,Option.join_eq_some_iff.mp one⟩ (ih later)
    · contradiction

/-- A kernel with the boot thread at 100 and nothing taken. -/
noncomputable def booted : KernelRun Kernel.sampleLayout Unit where
  threads := {
    tasks := {
      tid := fun _ => 0, state := fun _ => .ready, stackBottom := fun _ => 0,
      stackPointer := fun _ => 0, pageDirectory := fun _ => 0, next := fun _ => 100,
      prev := fun _ => 100, currentRunning := 100, zombie := 0, queue := fun _ => 0, esp0 := 0,
      cr3 := 0, freed := [], console := [] }
    alive := [100] }
  status := fun _ => .unlocked
  resources := ⟨fun _ => false,fun _ => 0,fun _ => 0,Kernel.bootedPaging,[],[],[]⟩
  blocks := [100]
  code := fun _ => []
  exited := []
  exits := []
  created := []

def proceeds (grant : Nat) : KernelEvent Unit := .proceed ⟨grant,none,fun _ => 0⟩

def tick : KernelEvent Unit := .timer (fun _ => 0)

def creates (tcb kstack : Nat) : List (KernelEvent Unit) :=
  [.call (.threadCreate false),proceeds 0,proceeds tcb] ++ replicate 12 (proceeds 0) ++ [proceeds kstack] ++
    replicate 6 (proceeds 0)

end KernelRun

end RudimentaryKernel
