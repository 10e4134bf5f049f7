import RudimentaryKernel.ByteMemory
import RudimentaryKernel.Pool
import RudimentaryKernel.Reach

/-! `IDAllocator` of `id.cpp` over a `Pool<ID>` that `_create_pool` has laid out: header,
bitmap and records one behind the other in one memory, every field read from where its
pointer says. Calls follow one another; a call that finds a lock taken blocks and does not
return. `reaping_func` acts on the objects behind the ids and is only recorded. -/
namespace RudimentaryKernel

open Function ByteMemory

/-- A lock is a status word and the head of its queue. -/
def lockAcquire (m : Memory) (lock : Nat) : Option Memory :=
  if load m 4 lock = 1 then none else some (store m 4 lock 1)

/-- `none` is an `unblock` of whatever the queue word points at. -/
def lockRelease (m : Memory) (lock : Nat) : Option Memory :=
  let m := store m 4 lock 0
  if load m 4 (lock + 4) = 0 then some m else none

namespace IdPool

/-- `sizeof(Pool<ID>)`: `max_entries`, `bitmap`, `datamap` and `bitmap_lock`. -/
def headerSize : Nat := 20

/-- `sizeof(ID)`: `ptr`, `count` with two bytes of padding, and `lock`. -/
def idSize : Nat := 16

def maxEntries (m : Memory) (pool : Nat) : Nat := load m 4 pool

def bitmap (m : Memory) (pool : Nat) : Nat := load m 4 (pool + 4)

def datamap (m : Memory) (pool : Nat) : Nat := load m 4 (pool + 8)

def bitmapLock (pool : Nat) : Nat := pool + 12

def bits (m : Memory) (pool : Nat) : Nat → Byte := fun i => m ((bitmap m pool + i) % 2^32)

def setBits (m : Memory) (pool row : Nat) (byte : Byte) : Memory :=
  update m ((bitmap m pool + row) % 2^32) byte

def allocate (m : Memory) (pool : Nat) : Option (Memory × Nat) :=
  (lockAcquire m (bitmapLock pool)).bind (fun m =>
    match firstClear (bitmapGet (bits m pool)) (maxEntries m pool) 0 with
    | some i =>
      let m := setBits m pool (i / 8) (bitmapMark (bits m pool) i (i / 8))
      (lockRelease m (bitmapLock pool)).map (fun m => (m,i))
    | none => (lockRelease m (bitmapLock pool)).map (fun m => (m,allOnes)))

def free (m : Memory) (pool id : Nat) : Option Memory :=
  (lockAcquire m (bitmapLock pool)).bind (fun m =>
    lockRelease (setBits m pool (id / 8) (bitmapUnmark (bits m pool) id (id / 8))) (bitmapLock pool))

/-- `&pool->datamap[id]`, also what `id_to_address` returns. -/
def idToAddress (m : Memory) (pool id : Nat) : Nat := add32 (datamap m pool) (id * idSize)

def bitmapBytes (maxEntries : Nat) : Nat := add32 maxEntries 7 / 8

/-- `for (i = 0; i < n; i++) datamap[i] = {}`, where `{}` is the bytes of `value`. -/
def fillRecords (elementSize value : Nat) (m : Memory) (datamap : Nat) : Nat → Memory
  | 0 => m
  | n + 1 => store (fillRecords elementSize value m datamap n) elementSize (add32 datamap (n * elementSize)) value

/-- `_create_pool<T>` for a `T` of any size; that of ids is `createPool idSize 0`. -/
def createPool (elementSize value : Nat) (m : Memory) (maxEntries start : Nat) : Memory :=
  let bitmap := add32 start headerSize
  let m := store m (bitmapBytes maxEntries) bitmap 0
  let datamap := add32 bitmap (bitmapBytes maxEntries)
  let m := fillRecords elementSize value m datamap maxEntries
  let m := store m 4 start maxEntries
  let m := store m 4 (start + 4) bitmap
  let m := store m 4 (start + 8) datamap
  let m := store m 4 (bitmapLock start) 0
  store m 4 (bitmapLock start + 4) 0

/-- `*id_mem = { ptr, 1 }`, with a new lock. -/
def writeId (m : Memory) (address ptr : Nat) : Memory :=
  let m := store m 4 address ptr
  let m := store m 2 (address + 4) 1
  let m := store m 4 (address + 8) 0
  store m 4 (address + 12) 0

/-- `IDAllocator::next`. Nobody tests the index before it becomes an address. -/
def next (m : Memory) (pool ptr : Nat) : Option (Memory × Nat) :=
  (allocate m pool).map (fun (m,id) => (writeId m (idToAddress m pool id) ptr,id))

def count (m : Memory) (pool id : Nat) : Nat := load m 2 (idToAddress m pool id + 4)

def setCount (m : Memory) (pool id value : Nat) : Memory :=
  store m 2 (idToAddress m pool id + 4) value

def idLock (m : Memory) (pool id : Nat) : Nat := idToAddress m pool id + 8

/-- `IDAllocator::open`. An id without references keeps its lock taken. -/
def openId (m : Memory) (pool id : Nat) : Option Memory :=
  (lockAcquire m (idLock m pool id)).bind (fun m =>
    if count m pool id = 0 then some m
    else
      let m := setCount m pool id (count m pool id + 1)
      lockRelease m (idLock m pool id))

/-- `IDAllocator::close`, with the pointer it hands to `reaping_func`. -/
def closeId (m : Memory) (pool id : Nat) : Option (Memory × Option Nat) :=
  (lockAcquire m (idLock m pool id)).bind (fun m =>
    if count m pool id = 0 then some (m,none)
    else
      let m := setCount m pool id (count m pool id - 1)
      if count m pool id = 0 then
        let ptr := load m 4 (idToAddress m pool id)
        (free m pool id).bind (fun m =>
          (lockRelease m (idLock m pool id)).map (fun m => (m,some ptr)))
      else (lockRelease m (idLock m pool id)).map (fun m => (m,none)))

end IdPool

def tidLimit : Nat := 128

inductive IdOp where
  | next (ptr : Nat)
  | openId (id : Nat)
  | closeId (id : Nat)

/-- The allocator together with what its callers know: the ids `next` has returned, those
not yet fully closed, and how many references each id has. -/
structure IdRun where
  memory : Memory
  pool : Nat
  issued : List Nat
  live : List Nat
  references : Nat → Nat
  reaped : List Nat

namespace IdRun

open IdPool

/-- `none` is a call no caller may make, or one that does not return. -/
def perform (r : IdRun) : IdOp → Option IdRun
  | .next ptr =>
    (next r.memory r.pool ptr).map (fun (m,id) =>
      if id = allOnes then { r with memory := m }
      else { r with
        memory := m
        issued := id :: r.issued
        live := id :: r.live
        references := update r.references id (r.references id + 1) })
  | .openId id =>
    if id ∈ r.issued then (openId r.memory r.pool id).map (fun m => { r with
      memory := m
      references := if r.references id = 0 then r.references
        else update r.references id (r.references id + 1) })
    else none
  | .closeId id =>
    if 0 < r.references id then (closeId r.memory r.pool id).map (fun (m,reaped) => { r with
      memory := m
      references := update r.references id (r.references id - 1)
      live := if r.references id = 1 then r.live.erase id else r.live
      reaped := r.reaped ++ reaped.toList })
    else none

def Strains (maxEntries : Nat) (r : IdRun) : IdOp → Prop
  | .next _ => r.live.length = maxEntries
  | .openId _ | .closeId _ => False

def Step (r t : IdRun) : Prop := ∃ op, r.perform op = some t

def Sparing (maxEntries : Nat) (r t : IdRun) : Prop :=
  ∃ op, ¬r.Strains maxEntries op ∧ r.perform op = some t

def Fresh (maxEntries : Nat) (r : IdRun) : Prop :=
  ∃ (m : Memory) (start : Nat),
    start + headerSize + bitmapBytes maxEntries + maxEntries * idSize < 2^32 ∧
    r = ⟨createPool idSize 0 m maxEntries start,start,[],[],fun _ => 0,[]⟩

end IdRun

end RudimentaryKernel
