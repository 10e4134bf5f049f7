import RudimentaryKernel.Pool
import RudimentaryKernel.Reach
import RudimentaryKernel.Ring

/-! The first-fit heap of `structs/clusterpool.cpp`. Cluster nodes live in typed
memory with one map per field, indexed by node address, so that `c->next` reads
`h.next c`. Every node's `parent` is the one pool of the state. Node storage comes
from a `Pool`, through its index/address conversions. Calls are complete and
uncontended; the two search loops take fuel and answer `none` when it runs out. -/
namespace RudimentaryKernel

open Function

inductive ClusterType where
  | free
  | used
  deriving DecidableEq, Repr

structure ClusterPool where
  cursor : Nat
  start : Nat
  size : Nat
  bytesUsed : Nat
  lock : LockStatus

def ClusterPool.limit (p : ClusterPool) : Nat := add32 p.start p.size

/-- Cluster memory, the node pool, the `ClusterPool` record and the printed lines. -/
structure Heap where
  start : Nat → Nat
  size : Nat → Nat
  next : Nat → Nat
  prev : Nat → Nat
  type : Nat → ClusterType
  nodes : Pool
  pool : ClusterPool
  console : List Print

namespace Heap

def limit (h : Heap) (this : Nat) : Nat := add32 (h.start this) (h.size this)

def acquire (h : Heap) : Heap := { h with pool := { h.pool with lock := .locked } }

def release (h : Heap) : Heap := { h with pool := { h.pool with lock := .unlocked } }

def kprintf (h : Heap) (format : String) (arguments : List Nat) : Heap :=
  { h with console := h.console ++ [⟨format,arguments,[]⟩] }

def createClusterPool (memory : Heap) (start size : Nat) : Heap :=
  let (nodes,id) := memory.nodes.allocate
  let first := nodes.idToAddress id
  { memory with
    nodes := nodes
    pool := ⟨first,start,size,0,.unlocked⟩
    start := update memory.start first start
    size := update memory.size first size
    next := update memory.next first first
    prev := update memory.prev first first
    type := update memory.type first .free }

/-- The links of `Cluster::splituse`: the tail of `this` becomes a used cluster behind it. -/
def insertBehind (h : Heap) (newCluster this newSize : Nat) : Heap × Nat :=
  let h := { h with size := update h.size this (sub32 (h.size this) newSize) }
  let h := { h with
    start := update h.start newCluster (h.limit this)
    size := update h.size newCluster newSize
    next := update h.next newCluster (h.next this)
    prev := update h.prev newCluster this
    type := update h.type newCluster .used }
  let h := { h with prev := update h.prev (h.next this) newCluster }
  let h := { h with next := update h.next this newCluster }
  (h,h.start newCluster)

def splituse (h : Heap) (this newSize : Nat) : Heap × Nat :=
  let (nodes,id) := h.nodes.allocate
  { h with nodes := nodes }.insertBehind (nodes.idToAddress id) this newSize

/-- `this` takes over the next node. -/
def absorb (h : Heap) (this : Nat) : Heap :=
  let h := { h with size := update h.size this (add32 (h.size this) (h.size (h.next this))) }
  let h := { h with next := update h.next this (h.next (h.next this)) }
  { h with prev := update h.prev (h.next this) this }

/-- `Cluster::coalesce_next`: absorb the next node and return its storage. -/
def coalesceNext (h : Heap) (this : Nat) : Heap :=
  if h.next this = this then h
  else
    let hold := h.next this
    let h := h.absorb this
    { h with nodes := h.nodes.free (h.nodes.addressToId hold) }

/-- The forward merge of `Cluster::free`, which stops at the boundary of the pool. -/
def mergeNext (h : Heap) (this : Nat) : Heap :=
  if h.type (h.next this) = .free ∧ h.limit this ≠ h.pool.limit then h.coalesceNext this else h

/-- The backward merge of `Cluster::free`, guarded by `next != prev` only. -/
def mergePrev (h : Heap) (this : Nat) : Heap :=
  if h.type (h.prev this) = .free ∧ h.next this ≠ h.prev this
  then h.coalesceNext (h.prev this) else h

def freeCluster (h : Heap) (this : Nat) : Heap :=
  if h.type this = .free then h
  else ({ h with type := update h.type this .free }.mergeNext this).mergePrev this

def fitting (h : Heap) (reqSize : Nat) (test : Nat) : Bool :=
  !(h.type test = .used || h.size test < reqSize)

def findFit (h : Heap) (reqSize fuel : Nat) : Option (Option Nat) :=
  Ring.search h.next (h.fitting reqSize) h.pool.cursor fuel h.pool.cursor

def findStart (h : Heap) (address fuel : Nat) : Option (Option Nat) :=
  Ring.search h.prev (fun candidate => h.start candidate = address) h.pool.cursor fuel h.pool.cursor

/-- What `allocate` does with the cluster its search stopped at. -/
def takeFrom (h : Heap) (test reqSize : Nat) : Heap × Nat :=
  let h := { h with pool := { h.pool with bytesUsed := add32 h.pool.bytesUsed reqSize } }
  let (h,rt) := if h.size test = reqSize
    then ({ h with type := update h.type test .used },h.start test)
    else h.splituse test reqSize
  ({ h with pool := { h.pool with cursor := test } },rt)

def allocate (fuel : Nat) (h : Heap) (reqSize : Nat) : Option (Heap × Nat) :=
  let h := h.acquire
  if h.pool.size < add32 h.pool.bytesUsed reqSize then
    some ((h.kprintf "ERROR: CLUSTER POOL NOT ENOUGH TOTAL SPACE\n\x00" []).release,0)
  else match h.findFit reqSize fuel with
    | none => none
    | some none => some ((h.kprintf "ERROR: CLUSTER POOL NO FIT\n\x00" []).release,0)
    | some (some test) =>
      let (h,rt) := h.takeFrom test reqSize
      some (h.release,rt)

/-- What `ClusterPool::free` does with the cluster its search stopped at. -/
def giveBack (h : Heap) (candidate : Nat) : Heap :=
  let h := { h with pool := { h.pool with
    cursor := h.prev candidate
    bytesUsed := sub32 h.pool.bytesUsed (h.size candidate) } }
  h.freeCluster candidate

def free (fuel : Nat) (h : Heap) (address : Nat) : Option Heap :=
  let h := h.acquire
  match h.findStart address fuel with
  | none => none
  | some none => some (h.release.kprintf "ERROR: FREE NOT FOUND %x\n" [address])
  | some (some candidate) => some (h.giveBack candidate).release

end Heap

inductive HeapCall where
  | allocate (reqSize : Nat)
  | free (address : Nat)
  deriving DecidableEq, Repr

/-- The heap together with the allocations its callers hold, as address and size. -/
structure HeapRun where
  heap : Heap
  live : List (Nat × Nat)

namespace HeapRun

/-- A caller asks for at least one byte, while node entries are to spare, or
frees an address it holds. `none` is a call no caller may make or a call that
does not return within the fuel. -/
def call (fuel : Nat) (r : HeapRun) : HeapCall → Option HeapRun
  | .allocate reqSize =>
    if 1 ≤ reqSize ∧ reqSize < 2^32 ∧ r.heap.nodes.Spare then
      match r.heap.allocate fuel reqSize with
      | none => none
      | some (h,rt) => some ⟨h,if rt = 0 then r.live else (rt,reqSize) :: r.live⟩
    else none
  | .free address =>
    match r.live.find? (fun held => held.1 = address) with
    | none => none
    | some held =>
      match r.heap.free fuel address with
      | none => none
      | some h => some ⟨h,r.live.erase held⟩

def Step (r : HeapRun) (c : HeapCall) (t : HeapRun) : Prop := ∃ fuel, r.call fuel c = some t

/-- The call meets a defect of `allocate` at the size it asks for, or one of `free` at
the cluster it looks up. -/
def Meets (asking freeing : Heap → Nat → Prop) (r : HeapRun) : HeapCall → Prop
  | .allocate reqSize => asking r.heap reqSize
  | .free address => ∃ fuel candidate,
      r.heap.findStart address fuel = some (some candidate) ∧ freeing r.heap candidate

theorem meets_free {asking freeing : Heap → Nat → Prop} {r : HeapRun} {address fuel : Nat}
    {found : Option Nat} (outcome : r.heap.findStart address fuel = some found) :
    r.Meets asking freeing (.free address) ↔ ∃ c, found = some c ∧ freeing r.heap c := by
  constructor
  · rintro ⟨other,candidate,lookup,holds⟩
    exact ⟨candidate,Ring.search_unique outcome lookup,holds⟩
  · rintro ⟨candidate,rfl,holds⟩
    exact ⟨fuel,candidate,outcome,holds⟩

def Avoiding (defect : HeapRun → HeapCall → Prop) (r t : HeapRun) : Prop :=
  ∃ c, r.Step c t ∧ ¬defect r c

def Never (_ : Heap) (_ : Nat) : Prop := False

instance (h : Heap) (n : Nat) : Decidable (Never h n) := inferInstanceAs (Decidable False)

section Executable

variable (asking freeing : Heap → Nat → Prop) [∀ h n, Decidable (asking h n)]
  [∀ h n, Decidable (freeing h n)]

def meets (fuel : Nat) (r : HeapRun) : HeapCall → Bool
  | .allocate reqSize => decide (asking r.heap reqSize)
  | .free address => match r.heap.findStart address fuel with
    | some (some candidate) => decide (freeing r.heap candidate)
    | _ => false

def calls (fuel : Nat) : List HeapCall → HeapRun → Option HeapRun
  | [], r => some r
  | c :: rest, r => if meets asking freeing fuel r c then none else (r.call fuel c).bind (calls fuel rest)

end Executable

def Fresh (start size : Nat) (r : HeapRun) : Prop :=
  ∃ memory : Heap, memory.nodes.Spare ∧ memory.nodes.Fits ∧
    r = ⟨memory.createClusterPool start size,[]⟩

/-- Blank memory with an empty pool of eight cluster nodes, each of 24 bytes. -/
def blank : Heap where
  start := fun _ => 0
  size := fun _ => 0
  next := fun _ => 0
  prev := fun _ => 0
  type := fun _ => .free
  nodes := ⟨8,fun _ => 0,0x1000,24,.unlocked⟩
  pool := ⟨0,0,0,0,.unlocked⟩
  console := []

def small : HeapRun := ⟨blank.createClusterPool 100 10,[]⟩

theorem small_fresh : Fresh 100 10 small :=
  ⟨blank,⟨0,by decide,by decide⟩,⟨by decide,by decide,by decide⟩,rfl⟩

end HeapRun

end RudimentaryKernel
