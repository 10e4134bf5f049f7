import Mathlib.Data.Finset.Card
import Mathlib.Data.Finset.Range
import RudimentaryKernel.PoolBits

/-! Ids are unique as long as nobody asks a full pool for one. The bitmap, the records and
the callers' references agree about every id; a counter that wraps leaves its id in use for
ever. A full pool answers with an index whose record is the end of its own bitmap. -/
namespace RudimentaryKernel

open Function ByteMemory

namespace IdPool

variable {m m' : Memory} {pool n id i : Nat}

/-- The header of a pool for `n` ids, with its lock free. -/
structure Laid (m : Memory) (pool n : Nat) : Prop where
  room : pool + headerSize + bitmapBytes n + n * idSize ≤ 2^32
  entries : maxEntries m pool = n
  bitmap : bitmap m pool = pool + headerSize
  datamap : datamap m pool = pool + headerSize + bitmapBytes n
  free : load m 4 (bitmapLock pool) = 0
  queue : load m 4 (bitmapLock pool + 4) = 0

def recordOf (pool n id : Nat) : Nat := pool + headerSize + bitmapBytes n + id * idSize

theorem Laid.small (laid : Laid m pool n) : n < 2^28 := by
  have room := laid.room
  simp only [headerSize,idSize] at room
  omega

theorem Laid.stands (laid : Laid m pool n) : Stands m pool n := by
  have small := laid.small
  have word : IdPool.bitmap m pool < 2^32 := load_lt
  refine ⟨by omega,laid.entries,?_,laid.free,laid.queue⟩
  rw [laid.bitmap] at word ⊢
  exact (add32_eq word).symm

theorem Laid.place_eq (laid : Laid m pool n) {row : Nat} (inside : row < bitmapBytes n) :
    bitPlace pool row = pool + headerSize + row := by
  have room := laid.room
  exact Nat.mod_eq_of_lt (by omega)

theorem record_room (pool : Nat) (inside : id < n) :
    recordOf pool n id + idSize ≤ pool + headerSize + bitmapBytes n + n * idSize := by
  unfold recordOf idSize
  omega

theorem Laid.idToAddress_eq (laid : Laid m pool n) (inside : id < n) :
    idToAddress m pool id = recordOf pool n id := by
  have room := laid.room
  have record : recordOf pool n id + idSize ≤ pool + headerSize + bitmapBytes n + n * idSize :=
    record_room pool inside
  simp only [recordOf,idSize] at record
  rw [idToAddress,laid.datamap,add32_eq (by simp only [idSize] at room ⊢; omega)]
  rfl

theorem Laid.bits_eq (laid : Laid m pool n) {row : Nat} (inside : row < bitmapBytes n) :
    bits m pool row = m (pool + headerSize + row) := by
  rw [laid.stands.bits_eq,laid.place_eq inside]

theorem Laid.frame (laid : Laid m pool n) (same : ∀ b, pool ≤ b → b < pool + headerSize → m' b = m b) :
    Laid m' pool n := by
  have room := laid.room
  simp only [headerSize] at room same
  have stands : Stands m' pool n := by
    refine laid.stands.frame (fun i below => ?_)
    simp only [headerSize] at below
    rw [Nat.mod_eq_of_lt (by omega)]
    exact same _ (by omega) (by omega)
  refine ⟨laid.room,stands.entries,(stands.bitmap.trans laid.stands.bitmap.symm).trans laid.bitmap,?_,stands.free,stands.queue⟩
  rw [← laid.datamap]
  exact load_congr (by omega) (fun b low high => same b (by omega) (by omega))

theorem Laid.taken_congr (laid : Laid m pool n) (laid' : Laid m' pool n) (inside : id < n)
    (same : m' (pool + headerSize + id / 8) = m (pool + headerSize + id / 8)) :
    bitmapGet (bits m' pool) id = bitmapGet (bits m pool) id := by
  have row := laid.stands.row_lt inside
  apply bitmapGet_congr
  rw [laid.bits_eq row,laid'.bits_eq row,same]

theorem Laid.allocate_eq (laid : Laid m pool n) : allocate m pool =
    match firstClear (bitmapGet (bits m pool)) n 0 with
    | some i => some (update m (pool + headerSize + i / 8) (bitmapMark (bits m pool) i (i / 8)),i)
    | none => some (m,allOnes) := by
  rw [laid.stands.allocate_eq]
  cases outcome : firstClear (bitmapGet (bits m pool)) n 0 with
  | some i =>
    obtain ⟨_,below,_⟩ := firstClear_some outcome
    dsimp only
    rw [laid.place_eq (laid.stands.row_lt (by omega))]
  | none => rfl

theorem Laid.free_eq (laid : Laid m pool n) (inside : id < n) : IdPool.free m pool id =
    some (update m (pool + headerSize + id / 8) (bitmapUnmark (bits m pool) id (id / 8))) := by
  rw [laid.stands.free_eq inside,laid.place_eq (laid.stands.row_lt inside)]

def Within (m m' : Memory) (pool n id : Nat) : Prop :=
  ∀ b, b < recordOf pool n id ∨ recordOf pool n id + idSize ≤ b → m' b = m b

theorem Within.trans {m'' : Memory} (first : Within m m' pool n id) (second : Within m' m'' pool n id) :
    Within m m'' pool n id :=
  fun b outside => (second b outside).trans (first b outside)

theorem within_store {k a value : Nat} (fits : recordOf pool n id + idSize ≤ 2^32)
    (low : recordOf pool n id ≤ a) (high : a + k ≤ recordOf pool n id + idSize) :
    Within m (store m k a value) pool n id :=
  fun _ outside => store_apart (by omega) (by omega)

theorem Laid.record_fits (laid : Laid m pool n) (inside : id < n) : recordOf pool n id + idSize ≤ 2^32 :=
  Nat.le_trans (record_room pool inside) laid.room

theorem Laid.within (laid : Laid m pool n) (only : Within m m' pool n id) : Laid m' pool n := by
  apply laid.frame
  intro b _ below
  apply only b
  unfold recordOf
  omega

theorem Laid.within_bits (laid : Laid m pool n) (only : Within m m' pool n id) {row : Nat}
    (inside : row < bitmapBytes n) : bits m' pool row = bits m pool row := by
  rw [laid.bits_eq inside,(laid.within only).bits_eq inside]
  apply only
  unfold recordOf
  omega

/-- The status word and the queue word of a record's lock are both zero. -/
def Unlocked (m : Memory) (pool n id : Nat) : Prop :=
  load m 4 (recordOf pool n id + 8) = 0 ∧ load m 4 (recordOf pool n id + 12) = 0

theorem Unlocked.congr (free : Unlocked m pool n id) (fits : recordOf pool n id + idSize ≤ 2^32)
    (same : ∀ b, recordOf pool n id + 8 ≤ b → b < recordOf pool n id + idSize → m' b = m b) :
    Unlocked m' pool n id := by
  simp only [idSize] at fits same
  constructor
  · rw [load_congr (by omega) (fun b low high => same b (by omega) (by omega))]
    exact free.1
  · rw [load_congr (by omega) (fun b low high => same b (by omega) (by omega))]
    exact free.2

def countAt (m : Memory) (pool n id : Nat) : Nat := load m 2 (recordOf pool n id + 4)

theorem Laid.count_eq (laid : Laid m pool n) (inside : id < n) : count m pool id = countAt m pool n id := by
  rw [count,laid.idToAddress_eq inside,countAt]

section Records

variable (laid : Laid m pool n) (inside : id < n)

include laid inside

theorem Laid.holding : Within m (store m 4 (recordOf pool n id + 8) 1) pool n id ∧
    countAt (store m 4 (recordOf pool n id + 8) 1) pool n id = countAt m pool n id := by
  have fits := laid.record_fits inside
  simp only [idSize] at fits
  refine ⟨within_store (laid.record_fits inside) (by omega) (by unfold idSize; omega),?_⟩
  exact load_store_apart (by omega) (by omega) (by omega)

theorem Laid.locked_status : load (store m 4 (recordOf pool n id + 8) 1) 4 (recordOf pool n id + 8) = 1 := by
  have fits := laid.record_fits inside
  simp only [idSize] at fits
  rw [load_store (by omega),Nat.mod_eq_of_lt (by decide)]

theorem Laid.locked_count (free : Unlocked m pool n id) (value : Nat) :
    lockRelease (store (store m 4 (recordOf pool n id + 8) 1) 2 (recordOf pool n id + 4) value)
      (recordOf pool n id + 8) = some (store m 2 (recordOf pool n id + 4) value) := by
  have fits := laid.record_fits inside
  simp only [idSize] at fits
  apply lockRelease_eq (by omega)
  · rw [load_store_apart (by omega) (by omega) (by omega)]
    exact free.1
  · rw [load_store_apart (by omega) (by omega) (by omega)]
    exact free.2
  · intro b outside
    exact store_agree (by omega) (fun _ => store_apart (by omega) outside)

theorem Laid.open_live (free : Unlocked m pool n id) (referenced : countAt m pool n id ≠ 0) :
    openId m pool id = some (store m 2 (recordOf pool n id + 4) (countAt m pool n id + 1)) := by
  obtain ⟨only,counter⟩ := laid.holding inside
  have held := laid.within only
  have fits := laid.record_fits inside
  simp only [idSize] at fits
  rw [openId,idLock,laid.idToAddress_eq inside,lockAcquire,free.1,if_neg (by decide),Option.bind_some,
    held.count_eq inside,counter,if_neg referenced]
  dsimp only
  have counted : Laid (store (store m 4 (recordOf pool n id + 8) 1) 2 (recordOf pool n id + 4)
      (countAt m pool n id + 1)) pool n :=
    held.within (within_store (laid.record_fits inside) (by omega) (by unfold idSize; omega))
  rw [setCount,held.idToAddress_eq inside,idLock,counted.idToAddress_eq inside,laid.locked_count inside free]

/-- An id without references is left locked, if it can be locked at all. -/
theorem Laid.open_dead (unreferenced : countAt m pool n id = 0) (done : openId m pool id = some m') :
    m' = store m 4 (recordOf pool n id + 8) 1 := by
  obtain ⟨only,counter⟩ := laid.holding inside
  rw [openId,idLock,laid.idToAddress_eq inside,lockAcquire] at done
  split at done
  · cases done
  · rw [Option.bind_some,(laid.within only).count_eq inside,counter,if_pos unreferenced] at done
    exact (Option.some.inj done).symm

theorem Laid.close_dead (unreferenced : countAt m pool n id = 0) {reaped : Option Nat}
    (done : closeId m pool id = some (m',reaped)) : m' = store m 4 (recordOf pool n id + 8) 1 := by
  obtain ⟨only,counter⟩ := laid.holding inside
  rw [closeId,idLock,laid.idToAddress_eq inside,lockAcquire] at done
  split at done
  · cases done
  · rw [Option.bind_some,(laid.within only).count_eq inside,counter,if_pos unreferenced] at done
    exact (Prod.mk.inj (Option.some.inj done)).1.symm

theorem Laid.locked_out (locked : load m 4 (recordOf pool n id + 8) = 1) :
    openId m pool id = none ∧ closeId m pool id = none := by
  constructor
  · rw [openId,idLock,laid.idToAddress_eq inside,lockAcquire,if_pos locked,Option.bind_none]
  · rw [closeId,idLock,laid.idToAddress_eq inside,lockAcquire,if_pos locked,Option.bind_none]

theorem Laid.close_more (free : Unlocked m pool n id) (several : 2 ≤ countAt m pool n id) :
    closeId m pool id = some (store m 2 (recordOf pool n id + 4) (countAt m pool n id - 1),none) := by
  obtain ⟨only,counter⟩ := laid.holding inside
  have held := laid.within only
  have fits := laid.record_fits inside
  simp only [idSize] at fits
  have bound : countAt m pool n id < 256^2 := load_lt
  have counted : Laid (store (store m 4 (recordOf pool n id + 8) 1) 2 (recordOf pool n id + 4)
      (countAt m pool n id - 1)) pool n :=
    held.within (within_store (laid.record_fits inside) (by omega) (by unfold idSize; omega))
  have left : countAt (store (store m 4 (recordOf pool n id + 8) 1) 2 (recordOf pool n id + 4)
      (countAt m pool n id - 1)) pool n id = countAt m pool n id - 1 := by
    rw [countAt,load_store (by omega),Nat.mod_eq_of_lt (by omega)]
  rw [closeId,idLock,laid.idToAddress_eq inside,lockAcquire,free.1,if_neg (by decide),Option.bind_some,
    held.count_eq inside,counter,if_neg (by omega)]
  dsimp only
  rw [setCount,held.idToAddress_eq inside,counted.count_eq inside,left,if_neg (by omega),idLock,
    counted.idToAddress_eq inside,laid.locked_count inside free,Option.map_some]

theorem Laid.close_last (free : Unlocked m pool n id) (last : countAt m pool n id = 1) :
    closeId m pool id = some (update (store m 2 (recordOf pool n id + 4) 0) (pool + headerSize + id / 8)
      (bitmapUnmark (bits m pool) id (id / 8)),some (load m 4 (recordOf pool n id))) := by
  obtain ⟨only,counter⟩ := laid.holding inside
  have held := laid.within only
  have fits := laid.record_fits inside
  have row := laid.stands.row_lt inside
  simp only [idSize] at fits
  have within' : Within m (store (store m 4 (recordOf pool n id + 8) 1) 2 (recordOf pool n id + 4) 0) pool n id :=
    only.trans (within_store (laid.record_fits inside) (by omega) (by unfold idSize; omega))
  have counted := laid.within within'
  have left : countAt (store (store m 4 (recordOf pool n id + 8) 1) 2 (recordOf pool n id + 4) 0) pool n id = 0 := by
    rw [countAt,load_store (by omega),Nat.zero_mod]
  have pointer : load (store (store m 4 (recordOf pool n id + 8) 1) 2 (recordOf pool n id + 4) 0) 4
      (recordOf pool n id) = load m 4 (recordOf pool n id) := by
    rw [load_store_apart (by omega) (by omega) (by omega),load_store_apart (by omega) (by omega) (by omega)]
  have byte : bitmapUnmark (bits (store (store m 4 (recordOf pool n id + 8) 1) 2 (recordOf pool n id + 4) 0) pool)
      id (id / 8) = bitmapUnmark (bits m pool) id (id / 8) := by
    rw [bitmapUnmark,bitmapUnmark,update_self,update_self,laid.within_bits within' row]
  rw [closeId,idLock,laid.idToAddress_eq inside,lockAcquire,free.1,if_neg (by decide),Option.bind_some,
    held.count_eq inside,counter,last,if_neg (by decide)]
  dsimp only
  rw [setCount,held.idToAddress_eq inside,counted.count_eq inside,left,if_pos rfl,
    counted.idToAddress_eq inside,pointer,counted.free_eq inside,Option.bind_some,byte]
  have unmarked : Laid (update (store (store m 4 (recordOf pool n id + 8) 1) 2 (recordOf pool n id + 4) 0)
      (pool + headerSize + id / 8) (bitmapUnmark (bits m pool) id (id / 8))) pool n :=
    counted.frame (fun b _ below => update_of_ne (by omega) ..)
  rw [idLock,unmarked.idToAddress_eq inside]
  have released : lockRelease (update (store (store m 4 (recordOf pool n id + 8) 1) 2 (recordOf pool n id + 4) 0)
      (pool + headerSize + id / 8) (bitmapUnmark (bits m pool) id (id / 8))) (recordOf pool n id + 8) =
      some (update (store m 2 (recordOf pool n id + 4) 0) (pool + headerSize + id / 8)
        (bitmapUnmark (bits m pool) id (id / 8))) := by
    have apart : pool + headerSize + id / 8 < recordOf pool n id := by
      unfold recordOf
      omega
    have still : Unlocked (update (store m 2 (recordOf pool n id + 4) 0) (pool + headerSize + id / 8)
        (bitmapUnmark (bits m pool) id (id / 8))) pool n id := by
      apply free.congr (laid.record_fits inside)
      intro b low high
      rw [update_of_ne (by omega),store_apart (by omega) (by omega)]
    apply lockRelease_eq (by omega) still.1 still.2
    intro b outside
    by_cases here : b = pool + headerSize + id / 8
    · rw [here,update_self,update_self]
    · rw [update_of_ne here,update_of_ne here]
      exact store_agree (by omega) (fun _ => store_apart (by omega) outside)
  rw [released,Option.map_some]

end Records

section Records

variable {elementSize value datamap k b : Nat}

theorem fillRecords_outside (outside : ∀ i < k * elementSize, b ≠ (datamap + i) % 2^32) :
    fillRecords elementSize value m datamap k b = m b := by
  induction k with
  | zero => rfl
  | succ k ih =>
    rw [Nat.succ_mul] at outside
    rw [fillRecords,store_outside,ih (fun i below => outside i (by omega))]
    intro i below
    rw [add32,Nat.mod_add_mod,Nat.add_assoc]
    exact outside (k * elementSize + i) (by omega)

theorem fillRecords_apart (fits : datamap + k * elementSize ≤ 2^32)
    (outside : b < datamap ∨ datamap + k * elementSize ≤ b) : fillRecords elementSize value m datamap k b = m b := by
  apply fillRecords_outside
  intro i below
  rw [Nat.mod_eq_of_lt (by omega)]
  omega

theorem fillRecords_zero (zero : m b = 0) : fillRecords elementSize 0 m datamap k b = 0 := by
  induction k with
  | zero => exact zero
  | succ k ih =>
    rw [fillRecords]
    by_cases inside : ∃ i < elementSize, b = (add32 datamap (k * elementSize) + i) % 2^32
    · obtain ⟨i,below,rfl⟩ := inside
      exact store_zero_inside below
    · rw [store_outside (fun i below here => inside ⟨i,below,here⟩)]
      exact ih

theorem fillRecords_clear (fits : datamap + k * elementSize < 2^32) (low : datamap ≤ b)
    (high : b < datamap + k * elementSize) : fillRecords elementSize 0 m datamap k b = 0 := by
  induction k with
  | zero => omega
  | succ k ih =>
    rw [Nat.succ_mul] at fits high
    rw [fillRecords,add32_eq (by omega)]
    by_cases last : datamap + k * elementSize ≤ b
    · exact store_zero (by omega) last (by omega)
    · rw [store_apart (by omega) (by omega),ih (by omega) (by omega)]

end Records

def header (m : Memory) (pool n : Nat) : Memory :=
  let m := store m 4 pool n
  let m := store m 4 (pool + 4) (pool + headerSize)
  let m := store m 4 (pool + 8) (pool + headerSize + bitmapBytes n)
  let m := store m 4 (bitmapLock pool) 0
  store m 4 (bitmapLock pool + 4) 0

theorem header_apart {b : Nat} (room : pool + headerSize ≤ 2^32) (outside : b < pool ∨ pool + headerSize ≤ b) :
    header m pool n b = m b := by
  simp only [header,headerSize,bitmapLock] at *
  rw [store_apart (by omega) (by omega),store_apart (by omega) (by omega),store_apart (by omega) (by omega),
    store_apart (by omega) (by omega),store_apart (by omega) (by omega)]

theorem header_laid (room : pool + headerSize + bitmapBytes n + n * idSize < 2^32) : Laid (header m pool n) pool n := by
  have whole := room
  simp only [headerSize,idSize] at room
  simp only [header,headerSize,bitmapLock]
  refine ⟨Nat.le_of_lt whole,?_,?_,?_,?_,?_⟩
  · rw [maxEntries,load_store_apart (by omega) (by omega) (by omega),
      load_store_apart (by omega) (by omega) (by omega),load_store_apart (by omega) (by omega) (by omega),
      load_store_apart (by omega) (by omega) (by omega),load_store (by omega),Nat.mod_eq_of_lt (by omega)]
  · rw [IdPool.bitmap,load_store_apart (by omega) (by omega) (by omega),
      load_store_apart (by omega) (by omega) (by omega),load_store_apart (by omega) (by omega) (by omega),
      load_store (by omega),Nat.mod_eq_of_lt (by omega)]
    rfl
  · rw [IdPool.datamap,load_store_apart (by omega) (by omega) (by omega),
      load_store_apart (by omega) (by omega) (by omega),load_store (by omega),Nat.mod_eq_of_lt (by omega)]
    rfl
  · rw [bitmapLock,load_store_apart (by omega) (by omega) (by omega),load_store (by omega)]
    rfl
  · rw [bitmapLock,load_store (by omega)]
    rfl

theorem createPool_eq {elementSize value : Nat} (room : pool + headerSize + bitmapBytes n + n * elementSize < 2^32) :
    createPool elementSize value m n pool =
      header (fillRecords elementSize value (store m (bitmapBytes n) (pool + headerSize) 0)
        (pool + headerSize + bitmapBytes n) n) pool n := by
  rw [createPool,add32_eq (by omega),add32_eq (by omega)]
  simp only [header]

/-- `_create_pool` leaves a free header, no bit set and no record counted. -/
theorem createPool_spec (m : Memory) (room : pool + headerSize + bitmapBytes n + n * idSize < 2^32) :
    Laid (createPool idSize 0 m n pool) pool n ∧
    ∀ b, pool + headerSize ≤ b → b < pool + headerSize + bitmapBytes n + n * idSize →
      createPool idSize 0 m n pool b = 0 := by
  rw [createPool_eq room]
  refine ⟨header_laid room,?_⟩
  intro b low high
  refine (header_apart (by omega) (.inr low)).trans ?_
  by_cases record : pool + headerSize + bitmapBytes n ≤ b
  · exact fillRecords_clear (by omega) record high
  · rw [fillRecords_apart (by omega) (.inl (by omega))]
    exact store_zero (by omega) low (by omega)

theorem writeId_within (m : Memory) (ptr : Nat) (fits : recordOf pool n i + idSize ≤ 2^32) :
    Within m (writeId m (recordOf pool n i) ptr) pool n i ∧
    countAt (writeId m (recordOf pool n i) ptr) pool n i = 1 ∧
    Unlocked (writeId m (recordOf pool n i) ptr) pool n i := by
  simp only [idSize] at fits
  refine ⟨?_,?_,?_,?_⟩
  · intro b outside
    simp only [idSize] at outside
    rw [writeId,store_apart (by omega) (by omega),store_apart (by omega) (by omega),
      store_apart (by omega) (by omega),store_apart (by omega) (by omega)]
  · rw [countAt,writeId,load_store_apart (by omega) (by omega) (by omega),
      load_store_apart (by omega) (by omega) (by omega),load_store (by omega)]
    rfl
  · rw [writeId,load_store_apart (by omega) (by omega) (by omega),load_store (by omega)]
    rfl
  · rw [writeId,load_store (by omega)]
    rfl

theorem bits_updated (i : Nat) (new : Nat → Byte) (laid : Laid m pool n)
    (laid' : Laid m' pool n) (elsewhere : ∀ row, row ≠ i / 8 → new row = bits m pool row)
    (rows : ∀ row, row < bitmapBytes n → m' (pool + headerSize + row) =
      update m (pool + headerSize + i / 8) (new (i / 8)) (pool + headerSize + row)) {j : Nat}
    (below : j < n) : bitmapGet (bits m' pool) j = bitmapGet new j := by
  have row := laid.stands.row_lt below
  apply bitmapGet_congr
  rw [laid'.bits_eq row,rows _ row]
  by_cases same : j / 8 = i / 8
  · rw [same,update_self]
  · rw [update_of_ne (by omega),elsewhere _ same,laid.bits_eq row]

theorem Laid.next_clear (laid : Laid m pool n)
    (outcome : firstClear (bitmapGet (bits m pool)) n 0 = some i) (ptr : Nat) : next m pool ptr =
      some (writeId (update m (pool + headerSize + i / 8) (bitmapMark (bits m pool) i (i / 8)))
        (recordOf pool n i) ptr,i) := by
  obtain ⟨_,below,_⟩ := firstClear_some outcome
  have marked : Laid (update m (pool + headerSize + i / 8) (bitmapMark (bits m pool) i (i / 8))) pool n :=
    laid.frame (fun b _ low => update_of_ne (by omega) ..)
  rw [next,laid.allocate_eq,outcome,Option.map_some]
  dsimp only
  rw [marked.idToAddress_eq (by omega)]

/-- A full pool hands out the record sixteen bytes below the first one. -/
theorem Laid.next_exhausted (laid : Laid m pool n)
    (outcome : firstClear (bitmapGet (bits m pool)) n 0 = none) (ptr : Nat) :
    next m pool ptr = some (writeId m (pool + 4 + bitmapBytes n) ptr,allOnes) := by
  have room := laid.room
  simp only [headerSize,idSize] at room
  have address : idToAddress m pool allOnes = pool + 4 + bitmapBytes n := by
    rw [idToAddress,laid.datamap,add32]
    unfold headerSize allOnes idSize
    omega
  rw [next,laid.allocate_eq,outcome,Option.map_some]
  dsimp only
  rw [address]

/-- The zero word at the end of that record covers the last byte of the bitmap. -/
theorem Laid.last_overwritten (laid : Laid m pool n) (positive : 0 < n) (ptr : Nat) :
    writeId m (pool + 4 + bitmapBytes n) ptr (pool + headerSize + (n - 1) / 8) = 0 := by
  have room := laid.room
  have row := laid.stands.row_lt (show n - 1 < n by omega)
  have last : (n - 1) / 8 = bitmapBytes n - 1 := by
    rw [bitmapBytes_exact laid.stands.few]
    omega
  simp only [headerSize] at room ⊢
  rw [writeId,last]
  exact store_zero (by omega) (by omega) (by omega)

end IdPool

namespace IdRun

open IdPool

variable {r t : IdRun} {n : Nat}

/-- The record of `id` counts its `v` references, or its counter has wrapped to zero and
the next call on it keeps its lock for ever. -/
def Tallied (m : Memory) (pool n id v : Nat) : Prop :=
  countAt m pool n id = v ∧ v < 2^16 ∧ (0 < v → Unlocked m pool n id) ∨
  countAt m pool n id = 0 ∧ (v = 2^16 ∧ Unlocked m pool n id ∨
    0 < v ∧ load m 4 (recordOf pool n id + 8) = 1)

theorem Tallied.congr {m m' : Memory} {pool id v : Nat} (tallied : Tallied m pool n id v)
    (fits : recordOf pool n id + idSize ≤ 2^32)
    (same : ∀ b, recordOf pool n id ≤ b → b < recordOf pool n id + idSize → m' b = m b) :
    Tallied m' pool n id v := by
  have lock : Unlocked m pool n id → Unlocked m' pool n id :=
    fun free => free.congr fits (fun b low high => same b (by omega) high)
  simp only [idSize] at fits same
  have counter : countAt m' pool n id = countAt m pool n id :=
    load_congr (by omega) (fun b low high => same b (by omega) (by omega))
  have status : load m' 4 (recordOf pool n id + 8) = load m 4 (recordOf pool n id + 8) :=
    load_congr (by omega) (fun b low high => same b (by omega) (by omega))
  rw [Tallied,counter,status]
  rcases tallied with ⟨count,small,free⟩ | ⟨zero,⟨wrapped,free⟩ | locked⟩
  · exact .inl ⟨count,small,fun positive => lock (free positive)⟩
  · exact .inr ⟨zero,.inl ⟨wrapped,lock free⟩⟩
  · exact .inr ⟨zero,.inr locked⟩

/-- Bitmap, records and references agree on every id. -/
structure Sound (n : Nat) (r : IdRun) : Prop where
  laid : Laid r.memory r.pool n
  nodup : r.live.Nodup
  alive : ∀ id, id ∈ r.live ↔ 0 < r.references id
  known : ∀ id ∈ r.issued, id < n
  bound : ∀ id, 0 < r.references id → id < n
  taken : ∀ id, id < n → bitmapGet (bits r.memory r.pool) id = decide (0 < r.references id)
  tallied : ∀ id, id < n → Tallied r.memory r.pool n id (r.references id)

theorem fresh_sound (fresh : Fresh n r) : Sound n r := by
  obtain ⟨m,start,room,rfl⟩ := fresh
  obtain ⟨laid,clear⟩ := createPool_spec m room
  refine ⟨laid,.nil,by simp,by simp,by simp,?_,?_⟩
  · intro id inside
    have row := laid.stands.row_lt inside
    rw [bitmapGet,laid.bits_eq row,clear _ (by omega) (by omega)]
    simp
  · intro id inside
    have record : recordOf start n id + idSize ≤ start + headerSize + bitmapBytes n + n * idSize :=
      record_room _ inside
    have base : start + headerSize ≤ recordOf start n id := by
      unfold recordOf
      omega
    simp only [idSize] at record room
    refine .inl ⟨?_,Nat.two_pow_pos 16,fun positive => absurd positive (Nat.lt_irrefl 0)⟩
    change load (createPool idSize 0 m n start) 2 (recordOf start n id + 4) = 0
    exact load_zero (by omega) (fun b low high => clear b (by omega) (by simp only [idSize]; omega))

theorem Sound.change (sound : Sound n r) {i v : Nat} {m : Memory} {issued live reaped : List Nat}
    (inside : i < n)
    (apart : ∀ b, b < recordOf r.pool n i ∨ recordOf r.pool n i + idSize ≤ b →
      b ≠ r.pool + headerSize + i / 8 → m b = r.memory b)
    (bit : ∀ j, j < n → bitmapGet (bits m r.pool) j =
      if j = i then decide (0 < v) else bitmapGet (bits r.memory r.pool) j)
    (tallied : Tallied m r.pool n i v) (nodup : live.Nodup) (alive : ∀ id, id ∈ live ↔ 0 < update r.references i v id)
    (known : ∀ id ∈ issued, id < n) :
    Sound n ⟨m,r.pool,issued,live,update r.references i v,reaped⟩ := by
  have laid := sound.laid
  have base : r.pool + headerSize + i / 8 < r.pool + headerSize + bitmapBytes n := by
    have row := laid.stands.row_lt inside
    omega
  have records : ∀ j, j < n → j ≠ i → ∀ b, recordOf r.pool n j ≤ b → b < recordOf r.pool n j + idSize →
      m b = r.memory b := by
    intro j _ other b low high
    unfold recordOf idSize at low high
    apply apart b
    · unfold recordOf idSize
      omega
    · omega
  refine ⟨?_,nodup,alive,known,?_,?_,?_⟩
  · apply laid.frame
    intro b _ below
    apply apart b
    · unfold recordOf
      omega
    · omega
  · intro id positive
    change 0 < update r.references i v id at positive
    by_cases same : id = i
    · rw [same]
      exact inside
    · rw [update_of_ne same] at positive
      exact sound.bound id positive
  · intro id below
    change bitmapGet (bits m r.pool) id = decide (0 < update r.references i v id)
    rw [bit id below]
    by_cases same : id = i
    · simp [same]
    · rw [if_neg same,sound.taken id below]
      simp [same]
  · intro id below
    by_cases same : id = i
    · subst id
      dsimp only
      rw [update_self]
      exact tallied
    · dsimp only
      rw [update_of_ne same]
      exact (sound.tallied id below).congr (laid.record_fits below) (records id below same)

theorem Sound.full_iff (sound : Sound n r) :
    r.live.length = n ↔ firstClear (bitmapGet (bits r.memory r.pool)) n 0 = none := by
  have inside : r.live.toFinset ⊆ Finset.range n := by
    intro id member
    rw [List.mem_toFinset,sound.alive] at member
    exact Finset.mem_range.mpr (sound.bound id member)
  have size : r.live.toFinset.card = r.live.length := List.toFinset_card_of_nodup sound.nodup
  constructor
  · intro full
    have all : r.live.toFinset = Finset.range n :=
      Finset.eq_of_subset_of_card_le inside (by rw [size,full,Finset.card_range])
    cases outcome : firstClear (bitmapGet (bits r.memory r.pool)) n 0 with
    | none => rfl
    | some i =>
      obtain ⟨_,below,clear,_⟩ := firstClear_some outcome
      have member : i ∈ r.live.toFinset := by
        rw [all]
        exact Finset.mem_range.mpr (by omega)
      rw [List.mem_toFinset,sound.alive] at member
      rw [sound.taken i (by omega)] at clear
      simp [member] at clear
  · intro none
    have all : Finset.range n ⊆ r.live.toFinset := by
      intro id member
      have below := Finset.mem_range.mp member
      have marked := firstClear_none none id (by omega) (by omega)
      rw [sound.taken id below,decide_eq_true_eq] at marked
      rw [List.mem_toFinset,sound.alive]
      exact marked
    rw [← size,Finset.Subset.antisymm inside all,Finset.card_range]

/-- With an id to spare, `next` hands out the first one and counts it once. -/
theorem Sound.next_spare (sound : Sound n r) (spare : r.live.length ≠ n) (ptr : Nat) :
    ∃ i, i < n ∧ r.references i = 0 ∧ next r.memory r.pool ptr =
      some (writeId (update r.memory (r.pool + headerSize + i / 8)
        (bitmapMark (bits r.memory r.pool) i (i / 8))) (recordOf r.pool n i) ptr,i) := by
  have laid := sound.laid
  cases outcome : firstClear (bitmapGet (bits r.memory r.pool)) n 0 with
  | none => exact absurd (sound.full_iff.mpr outcome) spare
  | some i =>
    obtain ⟨_,below,clear,_⟩ := firstClear_some outcome
    have inside : i < n := by omega
    rw [sound.taken i inside,decide_eq_false_iff_not] at clear
    exact ⟨i,inside,by omega,laid.next_clear outcome ptr⟩

theorem next_sound (sound : Sound n r) {ptr : Nat} (spare : ¬r.Strains n (.next ptr))
    (done : r.perform (.next ptr) = some t) : Sound n t := by
  have laid := sound.laid
  have small := laid.small
  obtain ⟨i,inside,zero,result⟩ := sound.next_spare spare ptr
  have fits := laid.record_fits inside
  have row := laid.stands.row_lt inside
  rw [perform,result,Option.map_some] at done
  obtain rfl := Option.some.inj done
  have real : i ≠ allOnes := by
    unfold allOnes
    omega
  dsimp only
  rw [if_neg real,zero]
  obtain ⟨within,counted,free⟩ := writeId_within (update r.memory (r.pool + headerSize + i / 8)
    (bitmapMark (bits r.memory r.pool) i (i / 8))) ptr fits
  have below : r.pool + headerSize + i / 8 < recordOf r.pool n i := by
    unfold recordOf
    omega
  have marked : Laid (update r.memory (r.pool + headerSize + i / 8)
      (bitmapMark (bits r.memory r.pool) i (i / 8))) r.pool n :=
    laid.frame (fun b _ low => update_of_ne (by omega) ..)
  apply sound.change inside _ _ (.inl ⟨counted,by omega,fun _ => free⟩)
  · refine List.nodup_cons.mpr ⟨?_,sound.nodup⟩
    rw [sound.alive,zero]
    omega
  · intro id
    by_cases same : id = i
    · simp [same]
    · rw [List.mem_cons,update_of_ne same,sound.alive]
      simp [same]
  · intro id member
    rcases List.mem_cons.mp member with rfl | old
    · exact inside
    · exact sound.known id old
  · intro b outside other
    rw [within b outside,update_of_ne other]
  · intro j small
    rw [bits_updated i (bitmapMark (bits r.memory r.pool) i) laid (marked.within within) _ _ small,
      bitmapGet_mark]
    · by_cases same : j = i
      · simp [same]
      · simp [same,Ne.symm same]
    · intro other apart
      rw [bitmapMark,update_of_ne apart]
    · intro other inBitmap
      apply within
      unfold recordOf
      omega

theorem Sound.bits_kept (sound : Sound n r) {m : Memory} {i v : Nat} (inside : i < n)
    (within : Within r.memory m r.pool n i) (same : 0 < v ↔ 0 < r.references i) :
    ∀ j, j < n → bitmapGet (bits m r.pool) j =
      if j = i then decide (0 < v) else bitmapGet (bits r.memory r.pool) j := by
  intro j below
  have kept : bitmapGet (bits m r.pool) j = bitmapGet (bits r.memory r.pool) j :=
    bitmapGet_congr (sound.laid.within_bits within (sound.laid.stands.row_lt below))
  rw [kept]
  split
  · rename_i here
    rw [here,sound.taken i inside]
    simp [same]
  · rfl

theorem Sound.counted (sound : Sound n r) {i v : Nat} (inside : i < n) (small : v < 2^16) :
    Within r.memory (store r.memory 2 (recordOf r.pool n i + 4) v) r.pool n i ∧
    countAt (store r.memory 2 (recordOf r.pool n i + 4) v) r.pool n i = v ∧
    (Unlocked r.memory r.pool n i → Unlocked (store r.memory 2 (recordOf r.pool n i + 4) v) r.pool n i) := by
  have fits := sound.laid.record_fits inside
  refine ⟨within_store fits (by omega) (by unfold idSize; omega),?_,?_⟩
  · simp only [idSize] at fits
    rw [countAt,load_store (by omega),Nat.mod_eq_of_lt (by omega)]
  · intro free
    apply free.congr fits
    intro b low _
    simp only [idSize] at fits
    exact store_apart (by omega) (by omega)

theorem Sound.recount (sound : Sound n r) {i v : Nat} {m : Memory} {reaped : List Nat} (inside : i < n)
    (before : 0 < r.references i) (after : 0 < v) (within : Within r.memory m r.pool n i)
    (tallied : Tallied m r.pool n i v) :
    Sound n ⟨m,r.pool,r.issued,r.live,update r.references i v,reaped⟩ := by
  refine sound.change inside (fun b outside _ => within b outside)
    (sound.bits_kept inside within (by omega)) tallied sound.nodup ?_ sound.known
  intro other
  by_cases same : other = i
  · simp [same,sound.alive,before,after]
  · rw [update_of_ne same]
    exact sound.alive other

theorem open_sound (sound : Sound n r) {id : Nat} (done : r.perform (.openId id) = some t) : Sound n t := by
  have laid := sound.laid
  rw [perform] at done
  split at done
  · rename_i issued
    have inside := sound.known id issued
    obtain ⟨within,counter⟩ := laid.holding inside
    have status := laid.locked_status inside
    obtain ⟨m,opened,rfl⟩ := Option.map_eq_some_iff.mp done
    rcases sound.tallied id inside with ⟨count,small,free⟩ | ⟨zero,wrapped⟩
    · by_cases dead : r.references id = 0
      · have same := laid.open_dead inside (count.trans dead) opened
        have unchanged : r.references = update r.references id 0 := by rw [← dead,update_eq_self]
        rw [if_pos dead,same,unchanged]
        refine sound.change inside (fun b outside _ => within b outside)
          (sound.bits_kept inside within (by omega)) ?_ sound.nodup ?_ sound.known
        · exact .inl ⟨by rw [counter,count,dead],by decide,fun positive => absurd positive (Nat.lt_irrefl 0)⟩
        · rw [← unchanged]
          exact sound.alive
      · have positive : 0 < r.references id := by omega
        have unlocked := free positive
        rw [laid.open_live inside unlocked (by rw [count]; exact dead),count] at opened
        rw [if_neg dead,← Option.some.inj opened]
        by_cases last : r.references id + 1 = 2^16
        · -- the counter wraps to zero with the id still in use
          obtain ⟨only,value,still⟩ := sound.counted (v := 0) inside (by omega)
          have zero : store r.memory 2 (recordOf r.pool n id + 4) (r.references id + 1) =
              store r.memory 2 (recordOf r.pool n id + 4) 0 := by
            rw [last]
            rfl
          rw [zero]
          exact sound.recount inside positive (by omega) only (.inr ⟨value,.inl ⟨last,still unlocked⟩⟩)
        · obtain ⟨only,value,still⟩ := sound.counted (v := r.references id + 1) inside (by omega)
          exact sound.recount inside positive (by omega) only (.inl ⟨value,by omega,fun _ => still unlocked⟩)
    · rcases wrapped with ⟨full,_⟩ | ⟨_,locked⟩
      · have same := laid.open_dead inside zero opened
        rw [if_neg (by omega),same]
        exact sound.recount inside (by omega) (by omega) within
          (.inr ⟨counter.trans zero,.inr ⟨by omega,status⟩⟩)
      · rw [(laid.locked_out inside locked).1] at opened
        cases opened
  · cases done

theorem Sound.closed (sound : Sound n r) {id : Nat} {reaped : List Nat} (last : r.references id = 1) :
    Sound n ⟨update (store r.memory 2 (recordOf r.pool n id + 4) 0) (r.pool + headerSize + id / 8)
      (bitmapUnmark (bits r.memory r.pool) id (id / 8)),r.pool,r.issued,r.live.erase id,
      update r.references id 0,reaped⟩ := by
  have laid := sound.laid
  have inside := sound.bound id (by omega)
  have row := laid.stands.row_lt inside
  obtain ⟨within,counter,_⟩ := sound.counted (v := 0) inside (by omega)
  have below : r.pool + headerSize + id / 8 < recordOf r.pool n id := by
    unfold recordOf
    omega
  apply sound.change inside
  · intro b outside other
    rw [update_of_ne other,within b outside]
  · intro j small
    have unmarked : Laid (update (store r.memory 2 (recordOf r.pool n id + 4) 0)
        (r.pool + headerSize + id / 8) (bitmapUnmark (bits r.memory r.pool) id (id / 8))) r.pool n :=
      (laid.within within).frame (fun b _ low => update_of_ne (by omega) ..)
    rw [bits_updated id (bitmapUnmark (bits r.memory r.pool) id) laid unmarked _ _ small,
      bitmapGet_unmark]
    · by_cases same : j = id
      · simp [same]
      · simp [same,Ne.symm same]
    · intro other apart
      rw [bitmapUnmark,update_of_ne apart]
    · intro other inBitmap
      by_cases same : other = id / 8
      · rw [same,update_self,update_self]
      · rw [update_of_ne (by omega),update_of_ne (by omega)]
        apply within
        unfold recordOf
        omega
  · refine .inl ⟨?_,by decide,fun positive => absurd positive (Nat.lt_irrefl 0)⟩
    have fits := laid.record_fits inside
    simp only [idSize] at fits
    refine Eq.trans (load_congr (by omega) ?_) counter
    intro b low _
    rw [update_of_ne (by omega)]
  · exact sound.nodup.erase id
  · intro other
    rw [sound.nodup.mem_erase_iff,sound.alive]
    by_cases same : other = id
    · simp [same]
    · simp [same]
  · exact sound.known

theorem close_sound (sound : Sound n r) {id : Nat} (done : r.perform (.closeId id) = some t) :
    Sound n t := by
  have laid := sound.laid
  rw [perform] at done
  split at done
  · rename_i positive
    have inside := sound.bound id positive
    obtain ⟨within,counter⟩ := laid.holding inside
    have status := laid.locked_status inside
    obtain ⟨⟨m,reaped⟩,closed,rfl⟩ := Option.map_eq_some_iff.mp done
    dsimp only
    rcases sound.tallied id inside with ⟨count,small,free⟩ | ⟨zero,wrapped⟩
    · by_cases last : r.references id = 1
      · rw [laid.close_last inside (free positive) (count.trans last)] at closed
        obtain ⟨rfl,rfl⟩ := Prod.mk.inj (Option.some.inj closed)
        rw [if_pos last,last]
        exact sound.closed last
      · rw [laid.close_more inside (free positive) (by omega),count] at closed
        obtain ⟨rfl,rfl⟩ := Prod.mk.inj (Option.some.inj closed)
        obtain ⟨only,value,still⟩ := sound.counted (v := r.references id - 1) inside (by omega)
        rw [if_neg last]
        exact sound.recount inside positive (by omega) only
          (.inl ⟨value,by omega,fun _ => still (free positive)⟩)
    · rcases wrapped with ⟨full,_⟩ | ⟨_,locked⟩
      · have same := laid.close_dead inside zero closed
        rw [if_neg (by omega),same]
        exact sound.recount inside positive (by omega) within
          (.inr ⟨counter.trans zero,.inr ⟨by omega,status⟩⟩)
      · rw [(laid.locked_out inside locked).2] at closed
        cases closed
  · cases done

theorem step_sound (sound : Sound n r) (step : r.Sparing n t) : Sound n t := by
  obtain ⟨op,spare,done⟩ := step
  cases op with
  | next ptr => exact next_sound sound spare done
  | openId id => exact open_sound sound done
  | closeId id => exact close_sound sound done

theorem reached_sound (reached : Reach (Fresh n) (Sparing n) r) : Sound n r :=
  reached.invariant (Sound n) (fun _ => fresh_sound) (fun _ _ => step_sound)

theorem Sound.next_full (sound : Sound n r) (full : r.live.length = n) (ptr : Nat) :
    next r.memory r.pool ptr = some (writeId r.memory (r.pool + 4 + bitmapBytes n) ptr,allOnes) :=
  sound.laid.next_exhausted (sound.full_iff.mp full) ptr

theorem Sound.full_referenced (sound : Sound n r) (full : r.live.length = n) {id : Nat} (inside : id < n) :
    0 < r.references id := by
  have marked := firstClear_none (sound.full_iff.mp full) id (by omega) (by omega)
  rw [sound.taken id inside,decide_eq_true_eq] at marked
  exact marked

theorem Sound.bitmap_overwritten (sound : Sound n r) (full : r.live.length = n) (positive : 0 < n)
    (ptr : Nat) : writeId r.memory (r.pool + 4 + bitmapBytes n) ptr (r.pool + headerSize + (n - 1) / 8) ≠
      r.memory (r.pool + headerSize + (n - 1) / 8) := by
  intro same
  rw [sound.laid.last_overwritten positive] at same
  have row := sound.laid.stands.row_lt (show n - 1 < n by omega)
  have taken := sound.taken (n - 1) (by omega)
  rw [bitmapGet,sound.laid.bits_eq row,← same,
    decide_eq_true (sound.full_referenced full (by omega))] at taken
  simp at taken

/-- `next` answers all-ones exactly when every id is live, and an answer that is an id is a
new one. -/
theorem Sound.next_answers (sound : Sound n r) (ptr : Nat) :
    ∃ m id, next r.memory r.pool ptr = some (m,id) ∧ (id = allOnes ↔ r.live.length = n) ∧
      (id ≠ allOnes → id < n ∧ id ∉ r.live) := by
  by_cases full : r.live.length = n
  · exact ⟨_,allOnes,sound.next_full full ptr,by simp [full],by simp⟩
  · obtain ⟨i,inside,zero,result⟩ := sound.next_spare full ptr
    have small := sound.laid.small
    have real : i ≠ allOnes := by
      unfold allOnes
      omega
    refine ⟨_,i,result,by simp [full,real],fun _ => ⟨inside,?_⟩⟩
    rw [sound.alive]
    omega

/-- In every run that leaves a full pool alone, live ids are distinct and `next` refuses
exactly when all of them are live. In each of its states a call that is refused would have
overwritten the bitmap, unless the pool is for no ids at all. -/
theorem ids_unique_along_runs (n : Nat) (r : IdRun) (reached : Reach (Fresh n) (Sparing n) r) :
    r.live.Nodup ∧ (∀ id ∈ r.live, id < n) ∧ ∀ ptr, ∃ m id,
      next r.memory r.pool ptr = some (m,id) ∧ (id = allOnes ↔ r.live.length = n) ∧
      (id ≠ allOnes → id < n ∧ id ∉ r.live) ∧
      (id = allOnes → ((∀ b, r.pool + headerSize ≤ b →
        b < r.pool + headerSize + bitmapBytes n + n * idSize → m b = r.memory b) ↔ n = 0)) := by
  have sound := reached_sound reached
  refine ⟨sound.nodup,fun id member => sound.bound id ((sound.alive id).mp member),?_⟩
  intro ptr
  obtain ⟨m,id,result,exhausted,new⟩ := sound.next_answers ptr
  refine ⟨m,id,result,exhausted,new,?_⟩
  intro refused
  constructor
  · intro same
    by_contra positive
    have full := exhausted.mp refused
    have row := sound.laid.stands.row_lt (show n - 1 < n by omega)
    rw [sound.next_full full ptr] at result
    obtain ⟨rfl,_⟩ := Prod.mk.inj (Option.some.inj result)
    exact sound.bitmap_overwritten full (by omega) ptr (same _ (by omega) (by omega))
  · rintro rfl b low high
    have none : bitmapBytes 0 = 0 := by decide
    omega

theorem filled_reached (room : headerSize + bitmapBytes n + n * idSize < 2^32) {k : Nat} (few : k ≤ n) :
    ∃ r, Reach (Fresh n) (Sparing n) r ∧ r.live.length = k := by
  induction k with
  | zero => exact ⟨_,.start ⟨fun _ => 0,0,by omega,rfl⟩,rfl⟩
  | succ k ih =>
    obtain ⟨r,reached,length⟩ := ih (by omega)
    have sound := reached_sound reached
    have small := sound.laid.small
    obtain ⟨i,inside,_,result⟩ := sound.next_spare (by omega) 0
    have real : i ≠ allOnes := by
      unfold allOnes
      omega
    have spare : ¬r.Strains n (.next 0) := by
      change ¬r.live.length = n
      omega
    have done : r.perform (.next 0) = some { r with
        memory := writeId (update r.memory (r.pool + headerSize + i / 8)
          (bitmapMark (bits r.memory r.pool) i (i / 8))) (recordOf r.pool n i) 0
        issued := i :: r.issued
        live := i :: r.live
        references := update r.references i (r.references i + 1) } := by
      rw [perform,result,Option.map_some]
      dsimp only
      rw [if_neg real]
    exact ⟨_,reached.advance ⟨.next 0,spare,done⟩,congrArg (· + 1) length⟩

/-- A pool for two ids that has handed out both refuses a third. -/
theorem pool_of_two_exhausted : ∃ r, Reach (Fresh 2) (Sparing 2) r ∧ r.live.length = 2 ∧ r.live.Nodup ∧
    ∃ m, next r.memory r.pool 0 = some (m,allOnes) := by
  obtain ⟨r,reached,full⟩ := filled_reached (n := 2) (k := 2) (by decide) (by decide)
  obtain ⟨distinct,_,answers⟩ := ids_unique_along_runs 2 r reached
  obtain ⟨m,id,result,exhausted,_⟩ := answers 0
  exact ⟨r,reached,full,distinct,m,by rw [result,exhausted.mpr full]⟩

/-- All 128 ids of a pool are live. One more `next` is refused and clears the first bytes of
the bitmap, and the `next` after it hands out 0 a second time. -/
theorem live_id_issued_again : ∃ r s t : IdRun, Reach (Fresh 128) Step r ∧ r.live.Nodup ∧
    r.live.length = 128 ∧ r.perform (.next 0) = some s ∧ s.live = r.live ∧
    s.memory (r.pool + headerSize) ≠ r.memory (r.pool + headerSize) ∧
    s.perform (.next 0) = some t ∧ t.live = 0 :: r.live ∧ ¬t.live.Nodup := by
  obtain ⟨r,reached,full⟩ := filled_reached (n := 128) (k := 128) (by decide) (by decide)
  have sound := reached_sound reached
  have laid := sound.laid
  have room := laid.room
  have first := sound.taken 0 (by decide)
  have member : 0 ∈ r.live := (sound.alive 0).mpr (sound.full_referenced full (by decide))
  rw [decide_eq_true (sound.full_referenced full (by decide))] at first
  have refused := sound.next_full full 0
  generalize written : writeId r.memory (r.pool + 4 + bitmapBytes 128) 0 = m at refused
  have size : bitmapBytes 128 = 16 := by decide
  simp only [size,headerSize,idSize] at room
  have zero : m (r.pool + headerSize + 0 / 8) = 0 := by
    rw [← written,size,writeId,store_apart (by omega) (by unfold headerSize; omega),
      store_apart (by omega) (by unfold headerSize; omega),
      store_apart (by omega) (by unfold headerSize; omega)]
    exact store_zero (by omega) (by unfold headerSize; omega) (by unfold headerSize; omega)
  have laid' : Laid m r.pool 128 := by
    apply laid.frame
    intro b _ below
    unfold headerSize at below
    rw [← written,size,writeId,store_apart (by omega) (by omega),store_apart (by omega) (by omega),
      store_apart (by omega) (by omega),store_apart (by omega) (by omega)]
  have search : firstClear (bitmapGet (bits m r.pool)) 128 0 = some 0 := by
    have clear : bitmapGet (bits m r.pool) 0 = false := by
      rw [bitmapGet,laid'.bits_eq (by decide),zero]
      decide
    rw [firstClear,clear]
    rfl
  have changed : m (r.pool + headerSize) ≠ r.memory (r.pool + headerSize) := by
    intro same
    have byte : r.memory (r.pool + headerSize + 0 / 8) = 0 := same.symm.trans zero
    rw [bitmapGet,laid.bits_eq (by decide),byte] at first
    contradiction
  have again : ∃ t, IdRun.perform { r with memory := m } (.next 0) = some t ∧ t.live = 0 :: r.live := by
    rw [perform,next,laid'.allocate_eq,search,Option.map_some,Option.map_some]
    exact ⟨_,rfl,rfl⟩
  obtain ⟨t,done,live⟩ := again
  refine ⟨r,{ r with memory := m },t,reached.mono (fun _ _ step => ⟨step.choose,step.choose_spec.2⟩),
    sound.nodup,full,?_,rfl,changed,done,live,?_⟩
  · rw [perform,refused,Option.map_some]
    rfl
  · rw [live]
    exact fun distinct => (List.nodup_cons.mp distinct).1 member

end IdRun

end RudimentaryKernel
