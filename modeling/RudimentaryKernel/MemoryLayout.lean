import RudimentaryKernel.ClusterRecords

/-! Where `init_memory` puts the metadata of the heap. `_create_pool` writes a header, a bitmap and
the records one behind the other, while the regions of `memory.hpp` are as long as the records
alone: the last records of either pool lie in what comes behind it. `kcreate_pool` adds up the
whole length. -/
namespace RudimentaryKernel.MemoryLayout

open Function List ByteMemory IdPool ClusterRecords

def memClusterPoolsMax : Nat := 64

def memClustersMax : Nat := 2048

def allMemClusterPoolsStart : Nat := 0x120000

def allMemClusterPoolsBytes : Nat := memClusterPoolsMax * clusterPoolSize

def allMemClustersStart : Nat := allMemClusterPoolsStart + allMemClusterPoolsBytes

def allMemClustersBytes : Nat := memClustersMax * clusterSize

def kpoolStart : Nat := allMemClustersStart + allMemClustersBytes

def kpoolBytes : Nat := 256 * 1024

/-- `*pool = { cursor, start, size, nodes, bytes_used }`, with a new lock. -/
def writeClusterPool (m : Memory) (pool cursor start size nodes bytesUsed : Nat) : Memory :=
  let m := store m 4 pool cursor
  let m := store m 4 (pool + 4) start
  let m := store m 4 (pool + 8) size
  let m := store m 4 (pool + 12) nodes
  let m := store m 4 (pool + 16) bytesUsed
  let m := store m 4 (pool + 20) 0
  store m 4 (pool + 24) 0

def createClusterPool (m : Memory) (pool start size nodePool : Nat) : Option Memory :=
  (IdPool.allocate m nodePool).map (fun (m,id) =>
    let first := add32 (datamap m nodePool) (id * clusterSize)
    let m := writeClusterPool m pool first start size nodePool 0
    writeCluster m first pool start size first first 0)

/-- `init_memory`, printing apart. -/
def initMemory (m : Memory) : Option Memory :=
  let m := createPool clusterPoolSize 0 m memClusterPoolsMax allMemClusterPoolsStart
  let m := createPool clusterSize 0 m memClustersMax allMemClustersStart
  (IdPool.allocate m allMemClusterPoolsStart).bind (fun (m,id) =>
    createClusterPool m (add32 (datamap m allMemClusterPoolsStart) (id * clusterPoolSize)) kpoolStart kpoolBytes
      allMemClustersStart)

def kcreatePoolSize (elementSize maxEntries : Nat) : Nat :=
  add32 (add32 (maxEntries * elementSize) headerSize) (bitmapBytes maxEntries)

/-- The function stores something at `b`: there is a memory in which one can see it. -/
def Writes (f : Memory → Memory) (b : Nat) : Prop := ∃ m, f m b ≠ m b

variable {m m' : Memory} {elementSize value entries start n b : Nat}

def footprint (elementSize entries : Nat) : Nat :=
  headerSize + bitmapBytes entries + entries * elementSize

theorem createPool_apart (room : start + footprint elementSize entries < 2^32)
    (outside : b < start ∨ start + footprint elementSize entries ≤ b) :
    createPool elementSize value m entries start b = m b := by
  unfold footprint at room outside
  rw [createPool_eq (by omega)]
  rw [header_apart (by omega) (by omega),fillRecords_apart (by omega) (by omega),store_apart (by omega) (by omega)]

theorem createPool_laid (value : Nat) (m : Memory) (room : start + footprint elementSize entries < 2^32) (large : idSize ≤ elementSize) :
    Laid (createPool elementSize value m entries start) start entries ∧
    ∀ b, start + headerSize ≤ b → b < start + headerSize + bitmapBytes entries →
      createPool elementSize value m entries start b = 0 := by
  have longer : entries * idSize ≤ entries * elementSize := Nat.mul_le_mul_left _ large
  unfold footprint at room
  rw [createPool_eq (by omega)]
  refine ⟨header_laid (by omega),?_⟩
  intro b low high
  rw [header_apart (by omega) (.inr low),fillRecords_apart (by omega) (by omega)]
  exact store_zero (by omega) low high

theorem last_record_written (room : start + footprint elementSize (n + 1) < 2^32) (sized : 0 < elementSize) :
    Writes (fun m => createPool elementSize value m (n + 1) start)
      (start + headerSize + bitmapBytes (n + 1) + n * elementSize) := by
  unfold footprint at room
  have whole : start + headerSize + bitmapBytes (n + 1) + (n + 1) * elementSize < 2^32 := by omega
  rw [Nat.succ_mul] at room
  generalize place : start + headerSize + bitmapBytes (n + 1) + n * elementSize = b
  -- what ends up there does not depend on what was there
  have same : ∀ m, createPool elementSize value m (n + 1) start b = store (fun _ => 0) elementSize b value b := by
    intro m
    rw [createPool_eq whole,header_apart (by omega) (by omega),fillRecords,add32_eq (by omega),place]
    exact store_agree (by omega) (fun outside => by omega)
  refine ⟨fun _ => store (fun _ => 0) elementSize b value b + 1,?_⟩
  dsimp only
  rw [same]
  generalize store (fun _ => 0) elementSize b value b = byte
  bv_omega

theorem Laid.allocate_first {pool : Nat} (laid : Laid m pool (n + 1))
    (clear : ∀ b, pool + headerSize ≤ b → b < pool + headerSize + bitmapBytes (n + 1) → m b = 0) :
    ∃ byte, IdPool.allocate m pool = some (update m (pool + headerSize) byte,0) := by
  have row : 0 < bitmapBytes (n + 1) := laid.stands.row_lt (show 0 < n + 1 by omega)
  have unset : bitmapGet (bits m pool) 0 = false := by
    rw [bitmapGet,laid.bits_eq row,clear _ (by omega) (by omega)]
    rfl
  rw [laid.allocate_eq,firstClear,unset]
  exact ⟨_,rfl⟩

/-- The address and length of everything that a pool consists of. -/
def area (m : Memory) (pool elementSize : Nat) : List (Nat × Nat) :=
  (pool,headerSize) :: (bitmap m pool,bitmapBytes (maxEntries m pool)) ::
    (range (maxEntries m pool)).map (fun id => (add32 (datamap m pool) (id * elementSize),elementSize))

/-- The metadata of the heap and the kernel's heap itself. -/
def regions (m : Memory) : List (Nat × Nat) :=
  area m allMemClusterPoolsStart clusterPoolSize ++
    (area m allMemClustersStart clusterSize ++ [(kpoolStart,kpoolBytes)])

def Separate (m : Memory) : Prop := (regions m).Pairwise HeapRun.Disjoint

/-- The two pools have the headers that `init_memory` gives them. -/
def Headed (m : Memory) : Prop :=
  maxEntries m allMemClusterPoolsStart = memClusterPoolsMax ∧ datamap m allMemClusterPoolsStart = 0x12001c ∧
  maxEntries m allMemClustersStart = memClustersMax ∧ datamap m allMemClustersStart = 0x120814

/-- The last `ClusterPool` record is the header of the pool of nodes and the first bytes of its
bitmap, and the last node is in the kernel's heap. -/
theorem Headed.overlaps (headed : Headed m) :
    (0x120700,28) ∈ area m allMemClusterPoolsStart clusterPoolSize ∧ (0x120700,20) ∈ area m allMemClustersStart clusterSize ∧
    (0x12c7fc,24) ∈ area m allMemClustersStart clusterSize ∧ kpoolStart = 0x12c700 := by
  obtain ⟨poolEntries,poolData,nodeEntries,nodeData⟩ := headed
  refine ⟨?_,mem_cons_self,?_,rfl⟩
  · rw [area,poolEntries,poolData]
    exact mem_cons_of_mem _ (mem_cons_of_mem _ (mem_map.mpr ⟨63,by decide,rfl⟩))
  · rw [area,nodeEntries,nodeData]
    exact mem_cons_of_mem _ (mem_cons_of_mem _ (mem_map.mpr ⟨2047,mem_range.mpr (by decide),rfl⟩))

theorem Headed.not_separate (headed : Headed m) : ¬Separate m := by
  intro separate
  obtain ⟨last,first,_,_⟩ := headed.overlaps
  have apart := (pairwise_append.mp separate).2.2 _ last _ (mem_append_left _ first)
  simp [HeapRun.Disjoint] at apart

theorem Headed.of_laid (pools : Laid m allMemClusterPoolsStart memClusterPoolsMax)
    (nodes : Laid m allMemClustersStart memClustersMax) : Headed m :=
  ⟨pools.entries,pools.datamap,nodes.entries,nodes.datamap⟩

theorem init_room : allMemClusterPoolsStart + footprint clusterPoolSize memClusterPoolsMax < 2^32 ∧
    allMemClustersStart + footprint clusterSize memClustersMax < 2^32 := by decide

theorem writeClusterPool_apart {pool cursor start size nodes bytesUsed : Nat} (inside : pool + clusterPoolSize ≤ 2^32)
    (outside : b < pool ∨ pool + clusterPoolSize ≤ b) :
    writeClusterPool m pool cursor start size nodes bytesUsed b = m b := by
  simp only [clusterPoolSize] at inside outside
  rw [writeClusterPool,store_apart (by omega) (by omega),store_apart (by omega) (by omega),
    store_apart (by omega) (by omega),store_apart (by omega) (by omega),store_apart (by omega) (by omega),
    store_apart (by omega) (by omega),store_apart (by omega) (by omega)]

theorem frame_headers (m' : Memory) (pools : Laid m allMemClusterPoolsStart memClusterPoolsMax)
    (nodes : Laid m allMemClustersStart memClustersMax)
    (same : ∀ b, (0x120000 ≤ b ∧ b < 0x120014) ∨ (0x120700 ≤ b ∧ b < 0x120714) → m' b = m b) :
    Laid m' allMemClusterPoolsStart memClusterPoolsMax ∧ Laid m' allMemClustersStart memClustersMax :=
  ⟨pools.frame (fun b low high => same b (.inl ⟨low,high⟩)),nodes.frame (fun b low high => same b (.inr ⟨low,high⟩))⟩

theorem init_headed (m : Memory) : ∃ t, initMemory m = some t ∧ Headed t := by
  obtain ⟨poolsRoom,nodesRoom⟩ := init_room
  obtain ⟨laidPools,clearPools⟩ := createPool_laid 0 m poolsRoom (by decide)
  rw [initMemory]
  generalize createPool clusterPoolSize 0 m memClusterPoolsMax allMemClusterPoolsStart = one at *
  obtain ⟨laidNodes,clearNodes⟩ := createPool_laid 0 one nodesRoom (by decide)
  have kept : ∀ b, b < allMemClustersStart → createPool clusterSize 0 one memClustersMax allMemClustersStart b = one b :=
    fun b below => createPool_apart nodesRoom (.inl below)
  dsimp only
  generalize createPool clusterSize 0 one memClustersMax allMemClustersStart = two at *
  have starts : allMemClusterPoolsStart = 0x120000 ∧ allMemClustersStart = 0x120700 := ⟨rfl,rfl⟩
  have sizes : bitmapBytes memClusterPoolsMax = 8 ∧ bitmapBytes memClustersMax = 256 ∧ headerSize = 20 := ⟨rfl,rfl,rfl⟩
  have laidPools : Laid two allMemClusterPoolsStart memClusterPoolsMax :=
    laidPools.frame (fun b _ high => kept b (by omega))
  obtain ⟨byte,answered⟩ := Laid.allocate_first (n := 63) laidPools (by
    intro b low high
    have small : b < allMemClustersStart := by
      change b < allMemClusterPoolsStart + headerSize + bitmapBytes memClusterPoolsMax at high
      omega
    rw [kept b small]
    exact clearPools b low high)
  rw [answered,Option.bind_some]
  dsimp only
  obtain ⟨laidPools,laidNodes⟩ := frame_headers (update two (allMemClusterPoolsStart + headerSize) byte)
    laidPools laidNodes (fun b inside => update_of_ne (by omega) ..)
  have clearNodes : ∀ b, allMemClustersStart + headerSize ≤ b →
      b < allMemClustersStart + headerSize + bitmapBytes memClustersMax →
      update two (allMemClusterPoolsStart + headerSize) byte b = 0 := by
    intro b low high
    rw [update_of_ne (by omega)]
    exact clearNodes b low high
  generalize update two (allMemClusterPoolsStart + headerSize) byte = three at *
  obtain ⟨mark,answered⟩ := Laid.allocate_first (n := 2047) laidNodes clearNodes
  have place : add32 (datamap three allMemClusterPoolsStart) (0 * clusterPoolSize) = 0x12001c := by
    rw [laidPools.datamap]
    rfl
  obtain ⟨laidPools,laidNodes⟩ := frame_headers (update three (allMemClustersStart + headerSize) mark)
    laidPools laidNodes (fun b inside => update_of_ne (by omega) ..)
  have first : add32 (datamap (update three (allMemClustersStart + headerSize) mark) allMemClustersStart)
      (0 * clusterSize) = 0x120814 := by
    rw [laidNodes.datamap]
    rfl
  rw [createClusterPool,place,answered,Option.map_some]
  dsimp only
  rw [first]
  refine ⟨_,rfl,?_⟩
  obtain ⟨laidPools,laidNodes⟩ := frame_headers (writeCluster (writeClusterPool
      (update three (allMemClustersStart + headerSize) mark) 0x12001c 0x120814 kpoolStart kpoolBytes allMemClustersStart 0)
      0x120814 0x12001c kpoolStart kpoolBytes 0x120814 0x120814 0) laidPools laidNodes (by
    intro b inside
    rw [writeCluster_apart (by decide) (by simp only [clusterSize]; omega),
      writeClusterPool_apart (by decide) (by simp only [clusterPoolSize]; omega)])
  exact .of_laid laidPools laidNodes

/-- `init_memory` returns, and from then on, as long as the two headers are as it leaves them, two of
the regions overlap. Either of its two pools is written beyond the size given for it. The size that
`kcreate_pool` computes is enough, unless it wraps. -/
theorem metadata_always_overlaps (m : Memory) :
    (∃ t, initMemory m = some t ∧ Headed t ∧ ∀ s, Headed s → ¬Separate s) ∧
    (∃ b, Writes (fun m => createPool clusterPoolSize 0 m memClusterPoolsMax allMemClusterPoolsStart) b ∧
      allMemClusterPoolsStart + allMemClusterPoolsBytes ≤ b) ∧
    (∃ b, Writes (fun m => createPool clusterSize 0 m memClustersMax allMemClustersStart) b ∧
      allMemClustersStart + allMemClustersBytes ≤ b) ∧
    ∀ elementSize value entries start, entries * elementSize + headerSize + bitmapBytes entries < 2^32 →
      start + kcreatePoolSize elementSize entries < 2^32 →
      ∀ b, Writes (fun m => createPool elementSize value m entries start) b →
        start ≤ b ∧ b < start + kcreatePoolSize elementSize entries := by
  obtain ⟨t,done,headed⟩ := init_headed m
  obtain ⟨poolsRoom,nodesRoom⟩ := init_room
  refine ⟨⟨t,done,headed,fun s => Headed.not_separate⟩,?_,?_,?_⟩
  · exact ⟨_,last_record_written (n := 63) poolsRoom (by decide),by decide⟩
  · exact ⟨_,last_record_written (n := 2047) nodesRoom (by decide),by decide⟩
  · intro elementSize value entries start fits room b ⟨m,written⟩
    have size : kcreatePoolSize elementSize entries = footprint elementSize entries := by
      have inner : add32 (entries * elementSize) headerSize = entries * elementSize + headerSize := add32_eq (by omega)
      rw [kcreatePoolSize,inner,add32_eq fits,footprint]
      omega
    rw [size] at room ⊢
    by_contra outside
    exact written (createPool_apart room (by omega))

/-- Over blank memory, record 63 of the pool of cluster pools is at the header of the node pool, and
node 2047 in the first bytes of the kernel's heap. -/
theorem blank_metadata_overlaps : ∃ t, initMemory (fun _ => 0) = some t ∧ ¬Separate t ∧
    (0x120700,28) ∈ area t allMemClusterPoolsStart clusterPoolSize ∧ (0x120700,20) ∈ area t allMemClustersStart clusterSize ∧
    (0x12c7fc,24) ∈ area t allMemClustersStart clusterSize ∧ kpoolStart = 0x12c700 := by
  obtain ⟨t,done,headed⟩ := init_headed (fun _ => 0)
  exact ⟨t,done,headed.not_separate,headed.overlaps⟩

end RudimentaryKernel.MemoryLayout
