import RudimentaryKernel.ClusterPool
import RudimentaryKernel.IdUnique
import RudimentaryKernel.LockOrder
import RudimentaryKernel.Mailbox

/-! The locks of the heap, of the ids and of the mailboxes, with the code of the calls that take them.
The heap takes the lock of the pool of its nodes while it holds its own, and a last `close` takes
that of the pool of ids. `next` writes a record with its lock, without a lock of its own. -/
namespace RudimentaryKernel

open Function List ByteMemory IdPool

/-- The three allocators of `id.cpp`. -/
inductive IdKind where
  | object
  | pid
  | tid
  deriving DecidableEq

/-- The pools with a `bitmap_lock`: that of the heap's nodes and those of the ids. -/
inductive KernelPool where
  | nodes
  | ids (kind : IdKind)
  deriving DecidableEq

inductive KernelLock where
  | kpool
  | bitmap (pool : KernelPool)
  | record (kind : IdKind) (id : Nat)
  | mailbox (key : Nat)
  deriving DecidableEq

/-- The bitmap locks of the pools are taken last. -/
def KernelLock.rank : KernelLock → Nat
  | .kpool | .record _ _ | .mailbox _ => 0
  | .bitmap _ => 1

/-- The heap, the memory with the pools of ids, the mailboxes, and the control blocks that
`thread_reap_delayed` has marked `EXITED`. -/
structure LockedData where
  heap : Heap
  memory : Memory
  boxes : Nat → Mbox
  exited : List Nat

abbrev KernelCode := LockCode KernelLock LockedData (List Int)

/-- `MAX_MBOX`. -/
def maxMbox : Nat := 12

namespace KernelCode

def read (next : LockedData → KernelCode) : KernelCode := .access (fun d => d) next

def write (change : LockedData → LockedData) (next : KernelCode) : KernelCode := .access change (fun _ => next)

def onHeap (change : Heap → Heap) : KernelCode → KernelCode := write (fun d => { d with heap := change d.heap })

def onMemory (change : Memory → Memory) : KernelCode → KernelCode := write (fun d => { d with memory := change d.memory })

variable (pools : IdKind → Nat)

def word : LockStatus → Nat
  | .unlocked => 0
  | .locked => 1

/-- The status that stands in the lock itself. Of a mailbox it is not kept. -/
def mark (status : LockStatus) (d : LockedData) : KernelLock → LockedData
  | .kpool => { d with heap := { d.heap with pool := { d.heap.pool with lock := status } } }
  | .bitmap .nodes => { d with heap := { d.heap with nodes := { d.heap.nodes with bitmapLock := status } } }
  | .bitmap (.ids kind) => { d with memory := store d.memory 4 (bitmapLock (pools kind)) (word status) }
  | .record kind id => { d with memory := store d.memory 4 (idLock d.memory (pools kind) id) (word status) }
  | .mailbox _ => d

def acquire (l : KernelLock) (next : KernelCode) : KernelCode :=
  LockCode.acquire l (write (fun d => mark pools .locked d l) next)

def release (l : KernelLock) (next : KernelCode) : KernelCode :=
  write (fun d => mark pools .unlocked d l) (LockCode.release l next)

def bitsOf (d : LockedData) : KernelPool → Nat → Byte
  | .nodes => d.heap.nodes.bitmap
  | .ids kind => bits d.memory (pools kind)

def entriesOf (d : LockedData) : KernelPool → Nat
  | .nodes => d.heap.nodes.maxEntries
  | .ids kind => maxEntries d.memory (pools kind)

def setRow (d : LockedData) (row : Nat) (byte : Byte) : KernelPool → LockedData
  | .nodes => { d with heap := { d.heap with nodes := { d.heap.nodes with bitmap := update d.heap.nodes.bitmap row byte } } }
  | .ids kind => { d with memory := setBits d.memory (pools kind) row byte }

/-- `Pool::allocate` with the rest of its caller. Its search is one access: the bitmap changes only
under the lock. -/
def poolAllocate (pool : KernelPool) (next : Nat → KernelCode) : KernelCode :=
  acquire pools (.bitmap pool) <| read fun d =>
    match firstClear (bitmapGet (bitsOf pools d pool)) (entriesOf pools d pool) 0 with
    | some i =>
      write (fun d => setRow pools d (i / 8) (bitmapMark (bitsOf pools d pool) i (i / 8)) pool) <|
        release pools (.bitmap pool) (next i)
    | none => release pools (.bitmap pool) (next allOnes)

def poolFree (pool : KernelPool) (id : Nat) (next : KernelCode) : KernelCode :=
  acquire pools (.bitmap pool) <|
    write (fun d => setRow pools d (id / 8) (bitmapUnmark (bitsOf pools d pool) id (id / 8)) pool) <|
      release pools (.bitmap pool) next

def kprintf (format : String) (arguments : List Nat) : KernelCode → KernelCode :=
  onHeap (fun h => h.kprintf format arguments)

def splituse (this newSize : Nat) (next : Nat → KernelCode) : KernelCode :=
  poolAllocate pools .nodes fun id => read fun d =>
    let newCluster := d.heap.nodes.idToAddress id
    onHeap (fun h => (h.insertBehind newCluster this newSize).1) <| read fun d => next (d.heap.start newCluster)

def coalesceNext (this : Nat) (next : KernelCode) : KernelCode :=
  read fun d =>
    if d.heap.next this = this then next
    else
      let hold := d.heap.next this
      onHeap (fun h => h.absorb this) <| read fun d => poolFree pools .nodes (d.heap.nodes.addressToId hold) next

def mergeNext (this : Nat) (next : KernelCode) : KernelCode :=
  read fun d =>
    if d.heap.type (d.heap.next this) = .free ∧ d.heap.limit this ≠ d.heap.pool.limit then coalesceNext pools this next
    else next

def mergePrev (this : Nat) (next : KernelCode) : KernelCode :=
  read fun d =>
    if d.heap.type (d.heap.prev this) = .free ∧ d.heap.next this ≠ d.heap.prev this
    then coalesceNext pools (d.heap.prev this) next else next

def freeCluster (this : Nat) (next : KernelCode) : KernelCode :=
  read fun d =>
    if d.heap.type this = .free then next
    else onHeap (fun h => { h with type := update h.type this .free }) <| mergeNext pools this <| mergePrev pools this next

def takeFrom (test reqSize : Nat) (next : Nat → KernelCode) : KernelCode :=
  let finish (rt : Nat) : KernelCode := onHeap (fun h => { h with pool := { h.pool with cursor := test } }) (next rt)
  onHeap (fun h => { h with pool := { h.pool with bytesUsed := add32 h.pool.bytesUsed reqSize } }) <| read fun d =>
    if d.heap.size test = reqSize then
      onHeap (fun h => { h with type := update h.type test .used }) <| read fun d => finish (d.heap.start test)
    else splituse pools test reqSize finish

/-- `ClusterPool::allocate`. Its search takes fuel, and without fuel goes on for ever. -/
def kmalloc (fuel reqSize : Nat) : KernelCode :=
  acquire pools .kpool <| read fun d =>
    if d.heap.pool.size < add32 d.heap.pool.bytesUsed reqSize then
      kprintf "ERROR: CLUSTER POOL NOT ENOUGH TOTAL SPACE\n\x00" [] <| release pools .kpool (.done [0])
    else match d.heap.findFit reqSize fuel with
      | none => .forever
      | some none => kprintf "ERROR: CLUSTER POOL NO FIT\n\x00" [] <| release pools .kpool (.done [0])
      | some (some test) => takeFrom pools test reqSize fun rt => release pools .kpool (.done [(rt : Int)])

/-- `ClusterPool::free`. -/
def kfree (fuel address : Nat) : KernelCode :=
  acquire pools .kpool <| read fun d =>
    match d.heap.findStart address fuel with
    | none => .forever
    | some none => release pools .kpool <| kprintf "ERROR: FREE NOT FOUND %x\n" [address] (.done [])
    | some (some candidate) =>
      onHeap (fun h => { h with pool := { h.pool with
        cursor := h.prev candidate
        bytesUsed := sub32 h.pool.bytesUsed (h.size candidate) } }) <|
      freeCluster pools candidate <| release pools .kpool (.done [])

/-- `IDAllocator::next`: the record that it writes has a lock of its own, which is new. -/
def next (kind : IdKind) (ptr : Nat) : KernelCode :=
  poolAllocate pools (.ids kind) fun id =>
    onMemory (fun m => writeId m (idToAddress m (pools kind) id) ptr) <| .renew (.record kind id) (.done [(id : Int)])

def openId (kind : IdKind) (id : Nat) : KernelCode :=
  acquire pools (.record kind id) <| read fun d =>
    if count d.memory (pools kind) id = 0 then .done []
    else read fun d =>
      onMemory (fun m => setCount m (pools kind) id (count d.memory (pools kind) id + 1)) <|
        release pools (.record kind id) (.done [])

/-- `dummy_idk` or `thread_reap_delayed`. -/
def reapingFunc (kind : IdKind) (ptr : Nat) : KernelCode → KernelCode :=
  match kind with
  | .object | .pid => kprintf "I do nothing\n" []
  | .tid => write (fun d => { d with exited := d.exited ++ [ptr] })

def closeId (kind : IdKind) (id : Nat) : KernelCode :=
  acquire pools (.record kind id) <| read fun d =>
    if count d.memory (pools kind) id = 0 then .done []
    else read fun d =>
      onMemory (fun m => setCount m (pools kind) id (count d.memory (pools kind) id - 1)) <| read fun d =>
        if count d.memory (pools kind) id = 0 then
          read fun d => reapingFunc kind (load d.memory 4 (idToAddress d.memory (pools kind) id)) <|
            poolFree pools (.ids kind) id <| release pools (.record kind id) (.done [])
        else release pools (.record kind id) (.done [])

def onBox (key : Nat) (change : Mbox → Mbox) : KernelCode → KernelCode :=
  write (fun d => { d with boxes := update d.boxes key (change (d.boxes key)) })

/-- `mbox_open`, with the index of the mailbox for its address. -/
def mboxOpen (key : Int) : KernelCode :=
  if maxMbox ≤ key ∨ key < 0 then .done [-1]
  else acquire pools (.mailbox key.toNat) <| onBox key.toNat Mbox.opened <|
    release pools (.mailbox key.toNat) (.done [key])

def mboxClose (key : Nat) : KernelCode :=
  acquire pools (.mailbox key) <| read fun d =>
    onBox key (fun b => b.close.1) <| release pools (.mailbox key) (.done [(d.boxes key).close.2])

def mboxStat (key : Nat) : KernelCode :=
  acquire pools (.mailbox key) <| read fun d =>
    release pools (.mailbox key) (.done [((d.boxes key).stat.1 : Int),((d.boxes key).stat.2 : Int)])

section Alone

variable {pools : IdKind → Nat} {d : LockedData}

@[simp] theorem run_read (next : LockedData → KernelCode) : (read next).run d = (next d).run d := rfl

@[simp] theorem run_write (change : LockedData → LockedData) (next : KernelCode) :
    (write change next).run d = next.run (change d) := rfl

@[simp] theorem run_acquire (l : KernelLock) (next : KernelCode) :
    (acquire pools l next).run d = next.run (mark pools .locked d l) := rfl

@[simp] theorem run_release (l : KernelLock) (next : KernelCode) :
    (release pools l next).run d = next.run (mark pools .unlocked d l) := rfl

theorem run_nodesAllocate (next : Nat → KernelCode) : (poolAllocate pools .nodes next).run d =
    (next d.heap.nodes.allocate.2).run { d with heap := { d.heap with nodes := d.heap.nodes.allocate.1 } } := by
  rw [Pool.allocate,poolAllocate,run_acquire,run_read]
  dsimp only [mark,bitsOf,entriesOf]
  cases firstClear (bitmapGet d.heap.nodes.bitmap) d.heap.nodes.maxEntries 0 with
  | none => rfl
  | some i =>
    dsimp only
    rw [run_write,run_release]
    simp [setRow,mark,bitmapMark]

theorem run_nodesFree (id : Nat) (next : KernelCode) : (poolFree pools .nodes id next).run d =
    next.run { d with heap := { d.heap with nodes := d.heap.nodes.free id } } := by
  rw [Pool.free,poolFree,run_acquire,run_write,run_release]
  simp [setRow,bitsOf,mark,bitmapUnmark]

theorem run_coalesceNext (this : Nat) (next : KernelCode) : (coalesceNext pools this next).run d =
    next.run { d with heap := d.heap.coalesceNext this } := by
  rw [coalesceNext,Heap.coalesceNext,run_read]
  split
  · rfl
  · rw [onHeap,run_write,run_read,run_nodesFree]

theorem run_mergeNext (this : Nat) (next : KernelCode) : (mergeNext pools this next).run d =
    next.run { d with heap := d.heap.mergeNext this } := by
  rw [mergeNext,Heap.mergeNext,run_read]
  split
  · exact run_coalesceNext this next
  · rfl

theorem run_mergePrev (this : Nat) (next : KernelCode) : (mergePrev pools this next).run d =
    next.run { d with heap := d.heap.mergePrev this } := by
  rw [mergePrev,Heap.mergePrev,run_read]
  split
  · exact run_coalesceNext _ next
  · rfl

theorem run_freeCluster (this : Nat) (next : KernelCode) : (freeCluster pools this next).run d =
    next.run { d with heap := d.heap.freeCluster this } := by
  rw [freeCluster,Heap.freeCluster,run_read]
  split
  · rfl
  · rw [onHeap,run_write,run_mergeNext,run_mergePrev]

theorem run_takeFrom (test reqSize : Nat) (next : Nat → KernelCode) : (takeFrom pools test reqSize next).run d =
    (next (d.heap.takeFrom test reqSize).2).run { d with heap := (d.heap.takeFrom test reqSize).1 } := by
  rw [takeFrom,Heap.takeFrom,onHeap,run_write,run_read]
  dsimp only
  by_cases whole : d.heap.size test = reqSize
  · simp only [if_pos whole]
    rfl
  · simp only [if_neg whole]
    rw [splituse,run_nodesAllocate]
    rfl

/-- Alone, the code computes what the model of the heap does. -/
theorem kmalloc_run (fuel reqSize : Nat) : (kmalloc pools fuel reqSize).run d =
    (d.heap.allocate fuel reqSize).map (fun (h,rt) => ({ d with heap := h },[(rt : Int)])) := by
  rw [kmalloc,Heap.allocate,run_acquire,run_read]
  rw [show (mark pools .locked d .kpool).heap = d.heap.acquire from rfl]
  dsimp only
  split
  · rfl
  · cases found : d.heap.acquire.findFit reqSize fuel with
    | none => rfl
    | some outcome =>
      cases outcome with
      | none => rfl
      | some test => exact run_takeFrom test reqSize _

theorem kfree_run (fuel address : Nat) : (kfree pools fuel address).run d =
    (d.heap.free fuel address).map (fun h => ({ d with heap := h },[])) := by
  rw [kfree,Heap.free,run_acquire,run_read]
  rw [show (mark pools .locked d .kpool).heap = d.heap.acquire from rfl]
  cases found : d.heap.acquire.findStart address fuel with
  | none => rfl
  | some outcome =>
    cases outcome with
    | none => rfl
    | some candidate =>
      dsimp only
      rw [onHeap,run_write,run_freeCluster]
      rfl

theorem lockAcquire_some {m m' : Memory} {l : Nat} (done : lockAcquire m l = some m') : m' = store m 4 l 1 := by
  rw [lockAcquire] at done
  split at done
  · contradiction
  · exact (Option.some.inj done).symm

theorem lockRelease_some {m m' : Memory} {l : Nat} (done : lockRelease m l = some m') : m' = store m 4 l 0 := by
  rw [lockRelease] at done
  split at done
  · exact (Option.some.inj done).symm
  · contradiction

variable {kind : IdKind} {m : Memory} {id : Nat}

theorem run_idsAllocate (done : IdPool.allocate d.memory (pools kind) = some (m,id)) (next : Nat → KernelCode) :
    (poolAllocate pools (.ids kind) next).run d = (next id).run { d with memory := m } := by
  obtain ⟨held,acquired,done⟩ := Option.bind_eq_some_iff.mp done
  obtain rfl := lockAcquire_some acquired
  rw [poolAllocate,run_acquire,run_read]
  dsimp only [mark,bitsOf,entriesOf,word]
  generalize firstClear (bitmapGet (bits (store d.memory 4 (bitmapLock (pools kind)) 1) (pools kind)))
    (maxEntries (store d.memory 4 (bitmapLock (pools kind)) 1) (pools kind)) 0 = outcome at done ⊢
  cases outcome with
  | none =>
    obtain ⟨m',released,same⟩ := Option.map_eq_some_iff.mp done
    cases same
    rw [lockRelease_some released]
    rfl
  | some i =>
    obtain ⟨m',released,same⟩ := Option.map_eq_some_iff.mp done
    cases same
    rw [lockRelease_some released]
    rfl

theorem run_idsFree (d : LockedData) (done : IdPool.free d.memory (pools kind) id = some m) (next : KernelCode) :
    (poolFree pools (.ids kind) id next).run d = next.run { d with memory := m } := by
  obtain ⟨held,acquired,done⟩ := Option.bind_eq_some_iff.mp done
  obtain rfl := lockAcquire_some acquired
  rw [lockRelease_some done]
  rfl

theorem next_run {ptr : Nat} (done : IdPool.next d.memory (pools kind) ptr = some (m,id)) :
    (next pools kind ptr).run d = some ({ d with memory := m },[(id : Int)]) := by
  obtain ⟨⟨m',id'⟩,allocated,same⟩ := Option.map_eq_some_iff.mp done
  cases same
  rw [next,run_idsAllocate allocated]
  rfl

theorem mark_record {held : Memory} (acquired : lockAcquire d.memory (idLock d.memory (pools kind) id) = some held) :
    mark pools .locked d (.record kind id) = { d with memory := held } := by
  rw [lockAcquire_some acquired]
  rfl

theorem openId_run (done : IdPool.openId d.memory (pools kind) id = some m) :
    (openId pools kind id).run d = some ({ d with memory := m },[]) := by
  obtain ⟨held,acquired,done⟩ := Option.bind_eq_some_iff.mp done
  rw [openId,run_acquire,mark_record acquired,run_read]
  split at done
  · rename_i zero
    rw [if_pos zero,← Option.some.inj done]
    rfl
  · rename_i counted
    rw [if_neg counted,lockRelease_some done]
    rfl

/-- What `reaping_func` does, if it was called. -/
def reaped (kind : IdKind) (d : LockedData) : Option Nat → LockedData
  | none => d
  | some ptr =>
    match kind with
    | .object | .pid => { d with heap := d.heap.kprintf "I do nothing\n" [] }
    | .tid => { d with exited := d.exited ++ [ptr] }

theorem run_reapingFunc (ptr : Nat) (next : KernelCode) : (reapingFunc kind ptr next).run d = next.run (reaped kind d (some ptr)) := by
  cases kind <;> rfl

theorem closeId_run {ptr : Option Nat} (done : IdPool.closeId d.memory (pools kind) id = some (m,ptr)) :
    (closeId pools kind id).run d = some (reaped kind { d with memory := m } ptr,[]) := by
  obtain ⟨held,acquired,done⟩ := Option.bind_eq_some_iff.mp done
  rw [closeId,run_acquire,mark_record acquired,run_read]
  split at done
  · rename_i zero
    rw [if_pos zero]
    cases done
    rfl
  · rename_i counted
    rw [if_neg counted,run_read,onMemory,run_write,run_read]
    dsimp only at done ⊢
    split at done
    · rename_i last
      obtain ⟨freed,frees,done⟩ := Option.bind_eq_some_iff.mp done
      obtain ⟨m',released,same⟩ := Option.map_eq_some_iff.mp done
      cases same
      rw [if_pos last,run_read,run_reapingFunc,lockRelease_some released]
      generalize setCount held (pools kind) id _ = fewer at frees ⊢
      cases kind with
      | object | pid => exact run_idsFree { d with heap := d.heap.kprintf "I do nothing\n" [], memory := fewer } frees _
      | tid => exact run_idsFree { d with memory := fewer, exited := _ } frees _
    · rename_i more
      obtain ⟨m',released,same⟩ := Option.map_eq_some_iff.mp done
      cases same
      rw [if_neg more,lockRelease_some released]
      rfl

end Alone

section Ranked

variable {pools : IdKind → Nat} {held : List KernelLock} {l : KernelLock} {next : KernelCode}

theorem acquire_ordered (above : ∀ other ∈ held, other.rank < l.rank) (rest : next.Ordered KernelLock.rank (l :: held)) :
    (acquire pools l next).Ordered KernelLock.rank held := ⟨above,fun _ => rest⟩

theorem acquire_first (rest : next.Ordered KernelLock.rank [l]) : (acquire pools l next).Ordered KernelLock.rank [] :=
  acquire_ordered (fun _ member => absurd member not_mem_nil) rest

theorem release_ordered (rest : next.Ordered KernelLock.rank held) :
    (release pools l next).Ordered KernelLock.rank (l :: held) := fun _ => ⟨rfl,rest⟩

theorem write_ordered {change : LockedData → LockedData} (rest : next.Ordered KernelLock.rank held) :
    (write change next).Ordered KernelLock.rank held := fun _ => rest

theorem poolAllocate_ordered {pool : KernelPool} {next : Nat → KernelCode} (above : ∀ other ∈ held, other.rank < 1)
    (rest : ∀ id, (next id).Ordered KernelLock.rank held) : (poolAllocate pools pool next).Ordered KernelLock.rank held := by
  refine acquire_ordered above (fun d => ?_)
  dsimp only
  split
  · exact write_ordered (release_ordered (rest _))
  · exact release_ordered (rest _)

theorem poolFree_ordered {pool : KernelPool} {id : Nat} (above : ∀ other ∈ held, other.rank < 1)
    (rest : next.Ordered KernelLock.rank held) : (poolFree pools pool id next).Ordered KernelLock.rank held :=
  acquire_ordered above (write_ordered (release_ordered rest))

theorem coalesceNext_ordered {this : Nat} (above : ∀ other ∈ held, other.rank < 1)
    (rest : next.Ordered KernelLock.rank held) : (coalesceNext pools this next).Ordered KernelLock.rank held := by
  intro d
  dsimp only
  split
  · exact rest
  · exact write_ordered (fun _ => poolFree_ordered above rest)

theorem mergeNext_ordered {this : Nat} (above : ∀ other ∈ held, other.rank < 1)
    (rest : next.Ordered KernelLock.rank held) : (mergeNext pools this next).Ordered KernelLock.rank held := by
  intro d
  dsimp only
  split
  · exact coalesceNext_ordered above rest
  · exact rest

theorem mergePrev_ordered {this : Nat} (above : ∀ other ∈ held, other.rank < 1)
    (rest : next.Ordered KernelLock.rank held) : (mergePrev pools this next).Ordered KernelLock.rank held := by
  intro d
  dsimp only
  split
  · exact coalesceNext_ordered above rest
  · exact rest

theorem freeCluster_ordered {this : Nat} (above : ∀ other ∈ held, other.rank < 1)
    (rest : next.Ordered KernelLock.rank held) : (freeCluster pools this next).Ordered KernelLock.rank held := by
  intro d
  dsimp only
  split
  · exact rest
  · exact write_ordered (mergeNext_ordered above (mergePrev_ordered above rest))

theorem takeFrom_ordered {test reqSize : Nat} {next : Nat → KernelCode} (above : ∀ other ∈ held, other.rank < 1)
    (rest : ∀ rt, (next rt).Ordered KernelLock.rank held) :
    (takeFrom pools test reqSize next).Ordered KernelLock.rank held := by
  refine write_ordered (fun d => ?_)
  dsimp only
  split
  · exact write_ordered (fun _ => write_ordered (rest _))
  · exact poolAllocate_ordered above (fun _ _ => write_ordered (fun _ => write_ordered (rest _)))

end Ranked

end KernelCode

/-- The calls of the kernel that take locks, without those of a mailbox that may wait for a message
or for space. -/
inductive KernelCall where
  | kmalloc (fuel size : Nat)
  | kfree (fuel address : Nat)
  | next (kind : IdKind) (ptr : Nat)
  | openId (kind : IdKind) (id : Nat)
  | closeId (kind : IdKind) (id : Nat)
  | mboxOpen (key : Int)
  | mboxClose (key : Nat)
  | mboxStat (key : Nat)

namespace KernelCall

variable (pools : IdKind → Nat)

def code : KernelCall → KernelCode
  | .kmalloc fuel size => KernelCode.kmalloc pools fuel size
  | .kfree fuel address => KernelCode.kfree pools fuel address
  | .next kind ptr => KernelCode.next pools kind ptr
  | .openId kind id => KernelCode.openId pools kind id
  | .closeId kind id => KernelCode.closeId pools kind id
  | .mboxOpen key => KernelCode.mboxOpen pools key
  | .mboxClose key => KernelCode.mboxClose pools key
  | .mboxStat key => KernelCode.mboxStat pools key

/-- The call as the models of the heap, of the ids and of the mailboxes have it. -/
def alone (d : LockedData) : KernelCall → Option (LockedData × List Int)
  | .kmalloc fuel size => (d.heap.allocate fuel size).map (fun (h,rt) => ({ d with heap := h },[(rt : Int)]))
  | .kfree fuel address => (d.heap.free fuel address).map (fun h => ({ d with heap := h },[]))
  | .next kind ptr => (IdPool.next d.memory (pools kind) ptr).map (fun (m,id) => ({ d with memory := m },[(id : Int)]))
  | .openId kind id => (IdPool.openId d.memory (pools kind) id).map (fun m => ({ d with memory := m },[]))
  | .closeId kind id => (IdPool.closeId d.memory (pools kind) id).map (fun (m,ptr) =>
      (KernelCode.reaped kind { d with memory := m } ptr,[]))
  | .mboxOpen key =>
    if maxMbox ≤ key ∨ key < 0 then some (d,[-1])
    else some ({ d with boxes := update d.boxes key.toNat (d.boxes key.toNat).opened },[key])
  | .mboxClose key => some ({ d with boxes := update d.boxes key (d.boxes key).close.1 },[(d.boxes key).close.2])
  | .mboxStat key => some (d,[((d.boxes key).stat.1 : Int),((d.boxes key).stat.2 : Int)])

variable {pools} {d : LockedData} {outcome : LockedData × List Int}

theorem code_run (c : KernelCall) (done : c.alone pools d = some outcome) : (c.code pools).run d = some outcome := by
  cases c with
  | kmalloc fuel size => rw [code,KernelCode.kmalloc_run]; exact done
  | kfree fuel address => rw [code,KernelCode.kfree_run]; exact done
  | next kind ptr =>
    obtain ⟨⟨m,id⟩,returned,rfl⟩ := Option.map_eq_some_iff.mp done
    exact KernelCode.next_run returned
  | openId kind id =>
    obtain ⟨m,returned,rfl⟩ := Option.map_eq_some_iff.mp done
    exact KernelCode.openId_run returned
  | closeId kind id =>
    obtain ⟨⟨m,ptr⟩,returned,rfl⟩ := Option.map_eq_some_iff.mp done
    exact KernelCode.closeId_run returned
  | mboxOpen key =>
    rw [code,KernelCode.mboxOpen]
    rw [alone] at done
    split at done
    · rename_i beyond
      rw [if_pos beyond]
      exact done
    · rename_i inside
      rw [if_neg inside]
      exact done
  | mboxClose key | mboxStat key => exact done

open KernelCode in
theorem code_ordered (c : KernelCall) : (c.code pools).Ordered KernelLock.rank [] := by
  have second : ∀ {l : KernelLock}, l.rank = 0 → ∀ other ∈ [l], other.rank < 1 := by
    intro l lowest other member
    rw [mem_singleton.mp member,lowest]
    exact Nat.one_pos
  cases c with
  | kmalloc fuel size =>
    refine acquire_first (fun d => ?_)
    dsimp only
    split
    · exact write_ordered (release_ordered trivial)
    · split
      · exact trivial
      · exact write_ordered (release_ordered trivial)
      · exact takeFrom_ordered (second rfl) (fun _ => release_ordered trivial)
  | kfree fuel address =>
    refine acquire_first (fun d => ?_)
    dsimp only
    split
    · exact trivial
    · exact release_ordered (write_ordered trivial)
    · exact write_ordered (freeCluster_ordered (second rfl) (release_ordered trivial))
  | next kind ptr => exact poolAllocate_ordered (by simp) (fun _ => write_ordered trivial)
  | openId kind id =>
    refine acquire_first (fun d => ?_)
    dsimp only
    split
    · exact trivial
    · exact fun _ => write_ordered (release_ordered trivial)
  | closeId kind id =>
    refine acquire_first (fun d => ?_)
    dsimp only
    split
    · exact trivial
    · refine fun d => write_ordered (fun d => ?_)
      dsimp only
      split
      · intro d
        cases kind <;>
          exact write_ordered (poolFree_ordered (second rfl) (release_ordered trivial))
      · exact release_ordered trivial
  | mboxOpen key =>
    rw [code,KernelCode.mboxOpen]
    split
    · exact trivial
    · exact acquire_first (write_ordered (release_ordered trivial))
  | mboxClose key =>
    exact acquire_first (fun _ => write_ordered (release_ordered trivial))
  | mboxStat key => exact acquire_first (fun _ => release_ordered trivial)

end KernelCall

/-- The kernel's threads with their locks. -/
abbrev KernelLocks (τ : Type) := LockSystem KernelLock τ LockedData (List Int)

namespace KernelLocks

open LockSystem

variable {τ : Type} [DecidableEq τ]

/-- A step behind which no thread has been marked `EXITED`. -/
def Step (pools : IdKind → Nat) (s t : KernelLocks τ) : Prop :=
  LockSystem.Step (fun code => ∃ c : KernelCall, c.code pools = code) s t ∧ t.data.exited = []

/-- However many threads use the heap, the ids and the mailboxes, and wherever they are preempted,
no `acquire` ends in the `halt()` of the scheduler, there always is a ready thread, and whoever
waits for a lock waits, through the holders of locks, for a ready thread. The code that they
execute is, made alone, that of the models. -/
theorem kernel_locks_never_deadlock (pools : IdKind → Nat) (s : KernelLocks τ) (reached : Reach Initial (Step pools) s) :
    (∃ r, s.places.ring.head? = some r ∧ ∃ t, s.effect r = some t) ∧
    (∀ l, ∀ w ∈ s.places.waiting l, ∃ u ∈ s.places.ring, Relation.TransGen s.WaitsFor w u) ∧
    ∀ (c : KernelCall) (d : LockedData) outcome, c.alone pools d = some outcome → (c.code pools).run d = some outcome := by
  have bounded : ∀ l : KernelLock, l.rank < 2 := by
    intro l
    cases l <;> simp [KernelLock.rank]
  have orderly : s.Orderly KernelLock.rank := by
    refine reached.invariant (Orderly KernelLock.rank) (fun _ => initial_orderly) (fun _ _ orderly step => ?_)
    refine orderly.step ?_ step.1
    rintro code ⟨c,rfl⟩
    exact c.code_ordered
  obtain ⟨first,rest,running⟩ := exists_cons_of_ne_nil orderly.ready
  refine ⟨⟨first,by rw [running,head?_cons],orderly.proceeds bounded running⟩,?_,fun c d outcome done => c.code_run done⟩
  intro l w waiting
  obtain ⟨u,ring,chain,_⟩ := orderly.chain bounded waiting
  exact ⟨u,ring,chain⟩

/-- A thread is preempted inside `kmalloc`, and another one that calls `kfree` waits for it. -/
theorem kfree_waits_for_kmalloc : ∃ s : KernelLocks (Fin 2), Reach Initial (Step (fun _ => 0)) s ∧
    s.places.waiting .kpool = [1] ∧ s.held 0 = [.kpool] ∧ ∃ u ∈ s.places.ring, Relation.TransGen s.WaitsFor 1 u := by
  let s : KernelLocks (Fin 2) := ⟨⟨[0,1],fun _ => []⟩,fun _ => .unlocked,
    ⟨HeapRun.small.heap,fun _ => 0,fun _ => ⟨0,0,0,0,fun _ => 0⟩,[]⟩,fun _ => .done [],fun _ => []⟩
  have valid : s.places.Valid := ⟨by decide,fun _ => nodup_nil,fun _ _ _ => not_mem_nil,fun _ _ _ _ _ => not_mem_nil⟩
  have begins : Reach Initial (Step (fun _ => 0)) s :=
    .start ⟨valid,by decide,fun _ => rfl,fun _ => rfl,fun _ => ⟨⟨[],rfl⟩,rfl⟩⟩
  have called := begins.advance ⟨.call rfl rfl ⟨.kmalloc 3 4,rfl⟩,rfl⟩
  have locked := called.advance ⟨.event (r := 0) rfl (fun _ _ same => nomatch same) rfl
    (fun | 0,_,same => nomatch same | 1,_,_ => rfl),rfl⟩
  have preempted := locked.advance ⟨.switch,rfl⟩
  have again := preempted.advance ⟨.call (r := 1) rfl rfl ⟨.kfree 3 100,rfl⟩,rfl⟩
  have waits := again.advance ⟨.event (r := 1) rfl (fun _ _ same => nomatch same) rfl
    (fun | 0,_,same => nomatch same | 1,_,same => nomatch same),rfl⟩
  exact ⟨_,waits,rfl,rfl,(kernel_locks_never_deadlock _ _ waits).2.1 .kpool 1 (mem_singleton.mpr rfl)⟩

end KernelLocks

end RudimentaryKernel
