import Mathlib.Data.List.Find
import RudimentaryKernel.ClusterCalls
import RudimentaryKernel.IdUnique

/-! `ClusterPool::allocate` over the bytes of its records, for the case in which the node pool
has no entry left. The index of a full pool becomes the address below the first node, where
`_create_pool` has put the end of the bitmap, and nobody tests it. -/
namespace RudimentaryKernel.ClusterRecords

open Function List ByteMemory IdPool

/-- `sizeof(Cluster)`: `parent`, `start`, `size`, `next`, `prev`, and `type` with three bytes of padding. -/
def clusterSize : Nat := 24

/-- `sizeof(ClusterPool)`: `cursor`, `start`, `size`, `nodes`, `bytes_used` and `lock`. -/
def clusterPoolSize : Nat := 28

def nodes (m : Memory) (this : Nat) : Nat := load m 4 (this + 12)

def lockStatus (m : Memory) (lock : Nat) : LockStatus := if load m 4 lock = 1 then .locked else .unlocked

/-- The heap that the records of the pool at `this` spell out. -/
def view (m : Memory) (this : Nat) : Heap where
  start c := load m 4 (c + 4)
  size c := load m 4 (c + 8)
  next c := load m 4 (c + 12)
  prev c := load m 4 (c + 16)
  type c := if load m 1 (c + 20) = 0 then .free else .used
  nodes := ⟨maxEntries m (nodes m this),bits m (nodes m this),datamap m (nodes m this),clusterSize,
    lockStatus m (bitmapLock (nodes m this))⟩
  pool := ⟨load m 4 this,load m 4 (this + 4),load m 4 (this + 8),load m 4 (this + 16),lockStatus m (this + 20)⟩
  console := []

def writeCluster (m : Memory) (cluster parent start size next prev type : Nat) : Memory :=
  let m := store m 4 cluster parent
  let m := store m 4 (cluster + 4) start
  let m := store m 4 (cluster + 8) size
  let m := store m 4 (cluster + 12) next
  let m := store m 4 (cluster + 16) prev
  store m 1 (cluster + 20) type

def splituse (m : Memory) (this newSize : Nat) : Option (Memory × Nat) :=
  let pool := nodes m (load m 4 this)
  (IdPool.allocate m pool).map (fun (m,id) =>
    let newCluster := add32 (datamap m pool) (id * clusterSize)
    let m := store m 4 (this + 8) (sub32 (load m 4 (this + 8)) newSize)
    let limit := add32 (load m 4 (this + 4)) (load m 4 (this + 8))
    let m := writeCluster m newCluster (load m 4 this) limit newSize (load m 4 (this + 12)) this 1
    let m := store m 4 (load m 4 (this + 12) + 16) newCluster
    let m := store m 4 (this + 12) newCluster
    (m,load m 4 (newCluster + 4)))

def charged (m : Memory) (this reqSize : Nat) : Memory :=
  store m 4 (this + 16) (add32 (load m 4 (this + 16)) reqSize)

/-- What `allocate` does with the cluster its search stopped at, up to the move of the cursor. -/
def takeFrom (m : Memory) (this test reqSize : Nat) : Option (Memory × Nat) :=
  let m := charged m this reqSize
  if load m 4 (test + 8) = reqSize then
    let m := store m 1 (test + 20) 1
    some (m,load m 4 (test + 4))
  else splituse m test reqSize

def allocate (fuel : Nat) (m : Memory) (this reqSize : Nat) : Option (Memory × Nat) :=
  (lockAcquire m (this + 20)).bind (fun m =>
    if (view m this).pool.size < add32 (view m this).pool.bytesUsed reqSize then
      (lockRelease m (this + 20)).map (fun m => (m,0))
    else match (view m this).findFit reqSize fuel with
      | none => none
      | some none => (lockRelease m (this + 20)).map (fun m => (m,0))
      | some (some test) =>
        (takeFrom m this test reqSize).bind (fun (m,rt) =>
          (lockRelease (store m 4 this test) (this + 20)).map (fun m => (m,rt))))

/-- The pool at `this` is well formed and nobody holds its lock. Its nodes are records of a node
pool for `n` clusters as `_create_pool` lays it out, which its own record is not a part of. -/
structure Formed (m : Memory) (this n : Nat) (members : List Nat) : Prop where
  laid : Laid m (nodes m this) n
  extent : nodes m this + headerSize + bitmapBytes n + n * clusterSize ≤ 2^32
  low : 4 ≤ nodes m this
  record : this + clusterPoolSize ≤ 2^32
  apart : this + clusterPoolSize ≤ nodes m this ∨
    nodes m this + headerSize + bitmapBytes n + n * clusterSize ≤ this
  idle : load m 4 (this + 20) = 0
  queue : load m 4 (this + 24) = 0
  parent : ∀ c ∈ members, load m 4 c = this
  formed : (view m this).WellFormed members

variable {m m' t : Memory} {this n c reqSize rt fuel : Nat} {members rest : List Nat}

def Around (m m' : Memory) (this : Nat) : Prop := ∀ b, b < this ∨ this + clusterPoolSize ≤ b → m' b = m b

theorem around_store {k a value : Nat} (record : this + clusterPoolSize ≤ 2^32) (low : this ≤ a)
    (high : a + k ≤ this + clusterPoolSize) (around : Around m m' this) : Around m (store m' k a value) this := by
  intro b outside
  rw [store_apart (by omega) (by omega),around b outside]

theorem Formed.member_in (formed : Formed m this n members) (member : c ∈ members) :
    nodes m this + headerSize + bitmapBytes n ≤ c ∧
      c + clusterSize ≤ nodes m this + headerSize + bitmapBytes n + n * clusterSize := by
  obtain ⟨id,below,rfl,_⟩ := formed.formed.layout.linked.entry c member
  have extent := formed.extent
  have bound : id < n := by
    have entries := formed.laid.entries
    exact entries ▸ below
  have step : id * clusterSize + clusterSize ≤ n * clusterSize := by
    have more := Nat.mul_le_mul_right clusterSize (Nat.succ_le_of_lt bound)
    rwa [Nat.succ_mul] at more
  change _ ≤ add32 (datamap m (nodes m this)) (id * clusterSize) ∧ add32 (datamap m (nodes m this)) (id * clusterSize) + _ ≤ _
  rw [formed.laid.datamap,add32_eq (by simp only [clusterSize] at step extent ⊢; omega)]
  omega

theorem Formed.field (formed : Formed m this n members) (member : c ∈ members) (around : Around m m' this)
    {k a : Nat} (inside : a + k ≤ clusterSize) : load m' k (c + a) = load m k (c + a) := by
  have place := formed.member_in member
  have extent := formed.extent
  have apart := formed.apart
  exact load_congr (by omega) (fun b low high => around b (by omega))

theorem Formed.view_field (formed : Formed m this n members) (member : c ∈ members) (around : Around m m' this) :
    (view m' this).start c = (view m this).start c ∧ (view m' this).size c = (view m this).size c ∧
    (view m' this).next c = (view m this).next c ∧ (view m' this).prev c = (view m this).prev c ∧
    (view m' this).type c = (view m this).type c := by
  refine ⟨?_,?_,?_,?_,?_⟩
  · exact formed.field member around (by decide)
  · exact formed.field member around (by decide)
  · exact formed.field member around (by decide)
  · exact formed.field member around (by decide)
  · change (if load m' 1 (c + 20) = 0 then _ else _) = (if load m 1 (c + 20) = 0 then _ else _)
    rw [formed.field member around (by decide)]

/-- The cluster that the search from the cursor on comes to first. -/
def FirstFit (h : Heap) (members : List Nat) (reqSize c : Nat) : Prop :=
  ∃ rest, members ~r (h.pool.cursor :: rest) ∧ (h.pool.cursor :: rest).find? (h.fitting reqSize) = some c

theorem Formed.findFit_eq (formed : Formed m this n members) (reqSize : Nat) (around : Around m m' this)
    (cursor : load m' 4 this = load m 4 this) (turn : members ~r ((view m this).pool.cursor :: rest))
    (enough : members.length ≤ fuel) : (view m' this).findFit reqSize fuel =
      some (((view m this).pool.cursor :: rest).find? ((view m this).fitting reqSize)) := by
  have inside : ∀ c ∈ (view m this).pool.cursor :: rest, c ∈ members := fun c member => turn.mem_iff.mpr member
  have ring := (formed.formed.layout.linked.rotated turn).ring.congr
    (fun c member => (formed.view_field (inside c member) around).2.2.1)
    (fun c member => (formed.view_field (inside c member) around).2.2.2.1)
  have same : (view m' this).pool.cursor = (view m this).pool.cursor := cursor
  rw [turn.perm.length_eq] at enough
  rw [Heap.findFit,same,Ring.search_ring ring enough]
  congr 1
  refine List.find?_congr ?_
  intro c member
  obtain ⟨_,size,_,_,type⟩ := formed.view_field (inside c member) around
  rw [Heap.fitting,Heap.fitting,size,type]

def held (m : Memory) (this : Nat) : Memory := store m 4 (this + 20) 1

theorem held_apart (record : this + clusterPoolSize ≤ 2^32) {b : Nat} (outside : b < this + 20 ∨ this + 20 + 4 ≤ b) :
    held m this b = m b := by
  simp only [clusterPoolSize] at record
  exact store_apart (by omega) outside

theorem Formed.held_around (formed : Formed m this n members) : Around m (held m this) this :=
  around_store formed.record (by omega) (by simp only [clusterPoolSize]; omega) (fun _ _ => rfl)

theorem Formed.held_field (formed : Formed m this n members) {a : Nat} (inside : a + 4 ≤ 20) :
    load (held m this) 4 (this + a) = load m 4 (this + a) := by
  have record := formed.record
  simp only [clusterPoolSize] at record
  exact load_congr (by omega) (fun b low high => held_apart formed.record (by omega))

theorem Formed.released (formed : Formed m this n members) :
    lockRelease (held m this) (this + 20) = some m := by
  have record := formed.record
  simp only [clusterPoolSize] at record
  exact lockRelease_eq (by omega) formed.idle formed.queue (fun b outside => held_apart formed.record outside)

/-- The call as a whole, by what the search finds. A free cluster of the size passes the test of the sum. -/
theorem Formed.allocate_eq (formed : Formed m this n members) (turn : members ~r ((view m this).pool.cursor :: rest))
    (enough : members.length ≤ fuel) : allocate fuel m this reqSize =
      match ((view m this).pool.cursor :: rest).find? ((view m this).fitting reqSize) with
      | none => some (m,0)
      | some test => (takeFrom (held m this) this test reqSize).bind (fun (m,rt) =>
          (lockRelease (store m 4 this test) (this + 20)).map (fun m => (m,rt))) := by
  have acquired : lockAcquire m (this + 20) = some (held m this) := by
    rw [lockAcquire,formed.idle]
    rfl
  have search := formed.findFit_eq reqSize formed.held_around (formed.held_field (a := 0) (by omega)) turn enough
  have bytes : (view (held m this) this).pool.bytesUsed = (view m this).pool.bytesUsed := formed.held_field (by omega)
  have size : (view (held m this) this).pool.size = (view m this).pool.size := formed.held_field (by omega)
  rw [allocate,acquired,Option.bind_some,search,bytes,size,formed.released]
  cases found : ((view m this).pool.cursor :: rest).find? ((view m this).fitting reqSize) with
  | none => simp
  | some test =>
    obtain ⟨free,fits⟩ := Heap.fitting_iff.mp (find?_some found)
    obtain ⟨others,turned⟩ := Ring.exists_rotation (turn.mem_iff.mpr (mem_of_find?_eq_some found))
    have room := (formed.formed.accounted.rotated turned).room free
    have high := formed.formed.layout.high
    rw [if_neg]
    rw [add32_eq (by omega)]
    omega

/-- The bytes that a fit of the exact size changes. -/
def served (m : Memory) (this c reqSize : Nat) : Memory :=
  store (store (charged m this reqSize) 1 (c + 20) 1) 4 this c

theorem Formed.charged_around (formed : Formed m this n members) (reqSize : Nat) :
    Around m (charged (held m this) this reqSize) this :=
  around_store formed.record (by omega) (by simp only [clusterPoolSize]; omega) formed.held_around

theorem Formed.exact_fit (formed : Formed m this n members) (member : c ∈ members) (fit : (view m this).size c = reqSize) :
    ((takeFrom (held m this) this c reqSize).bind (fun (m,rt) =>
      (lockRelease (store m 4 this c) (this + 20)).map (fun m => (m,rt)))) =
      some (served m this c reqSize,(view m this).start c) := by
  have record := formed.record
  have place := formed.member_in member
  have extent := formed.extent
  have apart := formed.apart
  simp only [clusterPoolSize,clusterSize] at record place extent apart
  have size : load (charged (held m this) this reqSize) 4 (c + 8) = reqSize :=
    (formed.field member (formed.charged_around reqSize) (by decide)).trans fit
  have start : load (store (charged (held m this) this reqSize) 1 (c + 20) 1) 4 (c + 4) = (view m this).start c := by
    rw [load_store_apart (by omega) (by omega) (by omega)]
    exact formed.field member (formed.charged_around reqSize) (by decide)
  have unlocked : lockRelease (store (store (charged (held m this) this reqSize) 1 (c + 20) 1) 4 this c) (this + 20) =
      some (served m this c reqSize) := by
    apply lockRelease_eq (by omega)
    · rw [served,charged,load_store_apart (by omega) (by omega) (by omega),load_store_apart (by omega) (by omega) (by omega),
        load_store_apart (by omega) (by omega) (by omega)]
      exact formed.idle
    · rw [served,charged,load_store_apart (by omega) (by omega) (by omega),load_store_apart (by omega) (by omega) (by omega),
        load_store_apart (by omega) (by omega) (by omega)]
      exact formed.queue
    · intro b outside
      have sum := formed.held_field (a := 16) (by omega)
      apply store_agree (by omega)
      intro _
      apply store_agree (by omega)
      intro _
      rw [charged,charged,sum]
      apply store_agree (by omega)
      intro _
      exact held_apart formed.record outside
  have taken : takeFrom (held m this) this c reqSize =
      some (store (charged (held m this) this reqSize) 1 (c + 20) 1,(view m this).start c) := by
    simp only [takeFrom,size,start,↓reduceIte]
  rw [taken,Option.bind_some]
  dsimp only
  rw [unlocked,Option.map_some]

theorem writeCluster_apart {cluster parent start size next prev type b : Nat} (inside : cluster + clusterSize ≤ 2^32)
    (outside : b < cluster ∨ cluster + clusterSize ≤ b) :
    writeCluster m cluster parent start size next prev type b = m b := by
  simp only [clusterSize] at inside outside
  rw [writeCluster,store_apart (by omega) (by omega),store_apart (by omega) (by omega),
    store_apart (by omega) (by omega),store_apart (by omega) (by omega),store_apart (by omega) (by omega),
    store_apart (by omega) (by omega)]

theorem writeCluster_start {cluster parent start size next prev type : Nat} (inside : cluster + clusterSize ≤ 2^32)
    (width : start < 2^32) : load (writeCluster m cluster parent start size next prev type) 4 (cluster + 4) = start := by
  simp only [clusterSize] at inside
  rw [writeCluster,load_store_apart (by omega) (by omega) (by omega),load_store_apart (by omega) (by omega) (by omega),
    load_store_apart (by omega) (by omega) (by omega),load_store_apart (by omega) (by omega) (by omega),
    load_store (by omega)]
  exact Nat.mod_eq_of_lt width

/-- Below the first node, where the record of the index that a full pool answers with would be. -/
def belowNodes (m : Memory) (this n : Nat) : Nat := nodes m this + headerSize + bitmapBytes n - clusterSize

theorem Formed.charged_nodes (formed : Formed m this n members) :
    nodes (charged (held m this) this reqSize) this = nodes m this := by
  have record := formed.record
  simp only [clusterPoolSize] at record
  rw [nodes,charged,load_store_apart (by omega) (by omega) (by omega)]
  exact formed.held_field (by omega)

theorem Formed.allocate_full (formed : Formed m this n members) (around : Around m m' this)
    (full : ∀ id, id < n → bitmapGet (bits m (nodes m this)) id = true) :
    IdPool.allocate m' (nodes m this) = some (m',allOnes) ∧
      add32 (datamap m' (nodes m this)) (allOnes * clusterSize) = belowNodes m this n := by
  have apart := formed.apart
  have extent := formed.extent
  have low := formed.low
  have laid : Laid m' (nodes m this) n := formed.laid.frame (fun b low high => around b (by omega))
  have taken : ∀ id, id < n → bitmapGet (bits m' (nodes m this)) id = true := by
    intro id inside
    have row := formed.laid.stands.row_lt inside
    rw [formed.laid.taken_congr laid inside (around _ (by omega))]
    exact full id inside
  constructor
  · rw [laid.allocate_eq]
    cases outcome : firstClear (bitmapGet (bits m' (nodes m this))) n 0 with
    | none => rfl
    | some id =>
      obtain ⟨_,below,clear,_⟩ := firstClear_some outcome
      rw [taken id (by omega)] at clear
      contradiction
  · rw [laid.datamap,belowNodes,add32,allOnes]
    simp only [headerSize,clusterSize] at extent ⊢
    omega

/-- A full node pool does not stop the split. The new cluster is written below the first node, and
its start is returned. -/
theorem Formed.split_full (formed : Formed m this n members) (member : c ∈ members)
    (full : ∀ id, id < n → bitmapGet (bits m (nodes m this)) id = true) (less : reqSize < (view m this).size c) :
    ∃ m', takeFrom (held m this) this c reqSize = some (m',(view m this).start c + ((view m this).size c - reqSize)) := by
  have place := formed.member_in member
  have extent := formed.extent
  have low := formed.low
  have around := formed.charged_around reqSize
  obtain ⟨answered,below⟩ := formed.allocate_full around full
  have field : ∀ a, a + 4 ≤ clusterSize →
      load (charged (held m this) this reqSize) 4 (c + a) = load m 4 (c + a) := fun a inside => formed.field member around inside
  have onward : (view m this).next c ∈ members := formed.formed.layout.linked.ring.next_mem member
  have next := formed.member_in onward
  have inside := formed.formed.layout.tiles.inside member
  have high := formed.formed.layout.high
  simp only [clusterSize] at place next extent field
  have underneath : belowNodes m this n + clusterSize = nodes m this + headerSize + bitmapBytes n := by
    rw [belowNodes]
    simp only [headerSize,clusterSize]
    omega
  have size : load (charged (held m this) this reqSize) 4 (c + 8) = (view m this).size c := field 8 (by omega)
  have start : load (charged (held m this) this reqSize) 4 (c + 4) = (view m this).start c := field 4 (by omega)
  have link : load (charged (held m this) this reqSize) 4 (c + 12) = (view m this).next c := field 12 (by omega)
  have parent : load (charged (held m this) this reqSize) 4 c = this :=
    (field 0 (by omega)).trans (formed.parent c member)
  have left : sub32 ((view m this).size c) reqSize = (view m this).size c - reqSize := sub32_eq (by omega) (by omega)
  have limit : add32 ((view m this).start c) ((view m this).size c - reqSize) =
      (view m this).start c + ((view m this).size c - reqSize) := add32_eq (by omega)
  rw [takeFrom]
  dsimp only
  rw [if_neg (by rw [size]; omega),splituse]
  dsimp only
  rw [parent,formed.charged_nodes,answered,Option.map_some]
  dsimp only
  rw [below,size,left]
  generalize charged (held m this) this reqSize = before at *
  have shrunk : ∀ a, a + 4 ≤ 8 ∨ 12 ≤ a ∧ a + 4 ≤ 24 →
      load (store before 4 (c + 8) ((view m this).size c - reqSize)) 4 (c + a) = load before 4 (c + a) :=
    fun a outside => load_store_apart (by omega) (by omega) (by omega)
  have kept : load (store before 4 (c + 8) ((view m this).size c - reqSize)) 4 (c + 8) =
      (view m this).size c - reqSize := by
    rw [load_store (by omega)]
    exact Nat.mod_eq_of_lt (by omega)
  rw [kept,shrunk 4 (by omega),start,limit,shrunk 12 (by omega),link]
  rw [load_congr (by omega) (fun b low _ => writeCluster_apart (by omega) (by omega)),shrunk 12 (by omega),link]
  generalize load (store before 4 (c + 8) ((view m this).size c - reqSize)) 4 c = owner
  simp only [clusterSize] at underneath
  rw [load_store_apart (by omega) (by omega) (by omega),load_store_apart (by omega) (by omega) (by omega),
    writeCluster_start (by simp only [clusterSize]; omega) (by omega)]
  exact ⟨_,rfl⟩

/-- What running out of nodes is meant to look like: the request is met by a free cluster of its
very size, or it is refused and no byte of memory changes. -/
def Clean (m : Memory) (this : Nat) (members : List Nat) (reqSize : Nat) (t : Memory) (rt : Nat) : Prop :=
  (rt = 0 ∧ t = m) ∨ ∃ c ∈ members, (view m this).type c = .free ∧ (view m this).size c = reqSize ∧
    rt = (view m this).start c ∧ rt ≠ 0 ∧ t = served m this c reqSize

/-- With every entry of the node pool in use, `allocate` ends cleanly exactly when the first free
cluster from the cursor on that is large enough, if there is one, has the requested size. -/
theorem full_node_pool_clean_iff (m : Memory) (this n : Nat) (members : List Nat) (formed : Formed m this n members)
    (full : ∀ id, id < n → bitmapGet (bits m (nodes m this)) id = true) (reqSize : Nat) (asked : 1 ≤ reqSize)
    (fuel : Nat) (enough : members.length ≤ fuel) :
    (∃ t rt, allocate fuel m this reqSize = some (t,rt) ∧ Clean m this members reqSize t rt) ↔
      ∀ c, FirstFit (view m this) members reqSize c → (view m this).size c = reqSize := by
  have layout := formed.formed.layout
  constructor
  · rintro ⟨t,rt,done,clean⟩ c ⟨rest,turn,found⟩
    obtain ⟨_,fits⟩ := Heap.fitting_iff.mp (find?_some found)
    have member := turn.mem_iff.mpr (mem_of_find?_eq_some found)
    by_contra inexact
    obtain ⟨m',split⟩ := formed.split_full member full (show reqSize < (view m this).size c by omega)
    rw [formed.allocate_eq turn enough,found] at done
    dsimp only at done
    rw [split,Option.bind_some] at done
    obtain ⟨_,_,result⟩ := Option.map_eq_some_iff.mp done
    obtain rfl : _ = rt := congrArg Prod.snd result
    -- the address is inside the cluster, where neither 0 is nor another cluster starts
    have inside := layout.tiles.inside member
    have low := layout.low
    rcases clean with ⟨zero,_⟩ | ⟨d,other,_,_,start,_⟩
    · omega
    · have apart := layout.tiles.disjoint member other (by rintro rfl; omega)
      have filled := formed.formed.filled d other
      omega
  · intro exact'
    obtain ⟨rest,turn⟩ := Ring.exists_rotation formed.formed.cursor
    rw [formed.allocate_eq turn enough]
    cases found : ((view m this).pool.cursor :: rest).find? ((view m this).fitting reqSize) with
    | none => exact ⟨m,0,rfl,.inl ⟨rfl,rfl⟩⟩
    | some c =>
      have member := turn.mem_iff.mpr (mem_of_find?_eq_some found)
      obtain ⟨free,_⟩ := Heap.fitting_iff.mp (find?_some found)
      have fit := exact' c ⟨rest,turn,found⟩
      have inside := layout.tiles.inside member
      have low := layout.low
      exact ⟨_,_,formed.exact_fit member fit,.inr ⟨c,member,free,fit,rfl,by omega,rfl⟩⟩

/-- A pool of ten bytes at 100 with its record at 0x800, and a node pool of 192 entries at 0x1000. All
of them are in use, the first one by the only cluster of this pool. -/
def crowded : Memory :=
  let m := store (fun _ => 0) 4 0x800 0x102c
  let m := store m 4 0x804 100
  let m := store m 4 0x808 10
  let m := store m 4 0x80c 0x1000
  let m := store m 4 0x1000 192
  let m := store m 4 0x1004 0x1014
  let m := store m 4 0x1008 0x102c
  let m := store m 24 0x1014 (256^24 - 1)
  writeCluster m 0x102c 0x800 100 10 0x102c 0x102c 0

theorem crowded_formed : Formed crowded 0x800 192 [0x102c] := by
  have pool : nodes crowded 0x800 = 0x1000 := by decide +kernel
  refine ⟨?_,?_,?_,by decide,?_,by decide +kernel,by decide +kernel,by decide +kernel,?_⟩
  · rw [pool]
    exact ⟨by decide,by decide +kernel,by decide +kernel,by decide +kernel,by decide +kernel,by decide +kernel⟩
  · rw [pool]
    decide
  · rw [pool]
    decide
  · rw [pool]
    decide
  · refine ⟨⟨⟨?_,?_,?_⟩,?_,by decide +kernel,by decide +kernel,by decide +kernel⟩,by decide +kernel,by decide +kernel,
      by decide +kernel,by decide +kernel⟩
    · exact Ring.IsRing.single_iff.mpr ⟨by decide +kernel,by decide +kernel⟩
    · intro c member
      rw [mem_singleton.mp member]
      exact ⟨0,by decide +kernel,by decide +kernel,by decide +kernel⟩
    · exact ⟨by decide +kernel,by decide,by decide +kernel⟩
    · exact ⟨by decide +kernel,Tiling.tiles_nil.mpr (by decide +kernel)⟩

theorem crowded_full : ∀ id, id < 192 → bitmapGet (bits crowded (nodes crowded 0x800)) id = true := by decide +kernel

/-- A request for all ten bytes needs no node. -/
theorem crowded_exact_request : ∃ t rt, allocate 1 crowded 0x800 10 = some (t,rt) ∧
    Clean crowded 0x800 [0x102c] 10 t rt := by
  refine (full_node_pool_clean_iff crowded 0x800 192 [0x102c] crowded_formed crowded_full 10 (by decide) 1 (by decide)).mpr ?_
  rintro c ⟨rest,turn,found⟩
  rw [mem_singleton.mp (turn.mem_iff.mpr (mem_of_find?_eq_some found))]
  decide +kernel

/-- A request for four bytes is met from below the nodes. The new cluster lies over the bitmap, whose
first entry, that of the linked node, counts as free from then on. -/
theorem crowded_split : ∃ t, allocate 1 crowded 0x800 4 = some (t,106) ∧
    ¬Clean crowded 0x800 [0x102c] 4 t 106 ∧ (view t 0x800).next 0x102c = 0x1014 ∧
    (view t 0x800).pool.bytesUsed = 4 ∧ bitmapGet (bits t 0x1000) 0 = false := by
  have run : (allocate 1 crowded 0x800 4).map (fun (t,rt) => (rt,(view t 0x800).next 0x102c,
      (view t 0x800).pool.bytesUsed,bitmapGet (bits t 0x1000) 0)) = some (106,0x1014,4,false) := by decide +kernel
  obtain ⟨⟨t,rt⟩,done,facts⟩ := Option.map_eq_some_iff.mp run
  simp only [Prod.mk.injEq] at facts
  obtain ⟨rfl,link,bytes,bit⟩ := facts
  refine ⟨t,done,?_,link,bytes,bit⟩
  rintro (⟨zero,_⟩ | ⟨c,member,_,size,_⟩)
  · exact absurd zero (by decide)
  · rw [mem_singleton.mp member] at size
    exact absurd size (by decide +kernel)

end RudimentaryKernel.ClusterRecords
