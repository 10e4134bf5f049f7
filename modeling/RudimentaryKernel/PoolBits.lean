import RudimentaryKernel.IdAllocator

/-! `Pool::allocate` and `Pool::free` on a pool that may stand anywhere, also across the end of the
address space. Each call takes the lock, changes one byte of the bitmap at most and gives the
lock back, so that only this byte is another one. -/
namespace RudimentaryKernel

open Function ByteMemory

theorem firstClear_congr {taken taken' : Nat → Bool} {remaining i : Nat}
    (same : ∀ j, i ≤ j → j < i + remaining → taken' j = taken j) :
    firstClear taken' remaining i = firstClear taken remaining i := by
  induction remaining generalizing i with
  | zero => rfl
  | succ remaining ih =>
    rw [firstClear,firstClear,same i (by omega) (by omega),
      ih (fun j low high => same j (by omega) (by omega))]

theorem bitmapGet_congr {bitmap bitmap' : Nat → Byte} {i : Nat} (same : bitmap' (i / 8) = bitmap (i / 8)) :
    bitmapGet bitmap' i = bitmapGet bitmap i := by
  rw [bitmapGet,bitmapGet,same]

/-- A release brings back the memory from before the acquire, but for what was done inside. -/
theorem lockRelease_back {m m' : Memory} {lock : Nat} (free : load m 4 lock = 0) (queue : load m 4 (lock + 4) = 0)
    (same : ∀ b, (∀ i < 4, b ≠ (lock + i) % 2^32) → m' b = m b) : lockRelease m' lock = some m := by
  have back : store m' 4 lock 0 = m := by
    funext b
    by_cases inside : ∃ i < 4, b = (lock + i) % 2^32
    · obtain ⟨i,below,rfl⟩ := inside
      rw [store_zero_inside below,zero_of_load free below]
    · have outside : ∀ i < 4, b ≠ (lock + i) % 2^32 := fun i below here => inside ⟨i,below,here⟩
      rw [store_outside outside,same b outside]
  rw [lockRelease,back]
  simp [queue]

theorem lockRelease_eq {m m' : Memory} {lock : Nat} (inside : lock + 8 ≤ 2^32) (free : load m 4 lock = 0)
    (queue : load m 4 (lock + 4) = 0) (same : ∀ b, b < lock ∨ lock + 4 ≤ b → m' b = m b) :
    lockRelease m' lock = some m := by
  apply lockRelease_back free queue
  intro b outside
  apply same
  by_contra within
  exact outside (b - lock) (by omega) (by rw [Nat.mod_eq_of_lt (by omega)]; omega)

namespace IdPool

variable {m m' : Memory} {pool n id : Nat}

/-- The header of a pool for `n` entries, with its lock free. -/
structure Stands (m : Memory) (pool n : Nat) : Prop where
  few : n + 7 < 2^32
  entries : maxEntries m pool = n
  bitmap : bitmap m pool = add32 pool headerSize
  free : load m 4 (bitmapLock pool) = 0
  queue : load m 4 (bitmapLock pool + 4) = 0

def bitPlace (pool row : Nat) : Nat := (pool + headerSize + row) % 2^32

theorem bitmapBytes_exact (few : n + 7 < 2^32) : bitmapBytes n = (n + 7) / 8 := by
  rw [bitmapBytes,add32_eq few]

theorem Stands.row_lt (stands : Stands m pool n) (inside : id < n) : id / 8 < bitmapBytes n := by
  rw [bitmapBytes_exact stands.few]
  omega

theorem Stands.rows (stands : Stands m pool n) : bitmapBytes n ≤ 2^29 := by
  have few := stands.few
  rw [bitmapBytes_exact few]
  omega

theorem Stands.bits_eq (stands : Stands m pool n) (row : Nat) : bits m pool row = m (bitPlace pool row) := by
  rw [bits,stands.bitmap,add32,Nat.mod_add_mod,bitPlace]

theorem Stands.frame (stands : Stands m pool n)
    (same : ∀ i < headerSize, m' ((pool + i) % 2^32) = m ((pool + i) % 2^32)) : Stands m' pool n := by
  have word : ∀ k, k + 4 ≤ headerSize → load m' 4 (pool + k) = load m 4 (pool + k) := by
    intro k inside
    apply load_agree
    intro i below
    rw [Nat.add_assoc]
    exact same (k + i) (by omega)
  refine ⟨stands.few,?_,?_,?_,?_⟩
  · exact (word 0 (by decide)).trans stands.entries
  · exact (word 4 (by decide)).trans stands.bitmap
  · exact (word 12 (by decide)).trans stands.free
  · exact (word 16 (by decide)).trans stands.queue

theorem Stands.place_ne (stands : Stands m pool n) {row i : Nat} (inside : row < bitmapBytes n) (below : i < headerSize) :
    bitPlace pool row ≠ (pool + i) % 2^32 := by
  have rows := stands.rows
  simp only [bitPlace,headerSize] at below ⊢
  omega

theorem Stands.updated (stands : Stands m pool n) {row : Nat} (inside : row < bitmapBytes n) (byte : Byte) :
    Stands (update m (bitPlace pool row) byte) pool n :=
  stands.frame (fun _ below => update_of_ne (stands.place_ne inside below).symm ..)

theorem Stands.bits_updated (stands : Stands m pool n) {row other : Nat} (inside : row < bitmapBytes n)
    (within : other < bitmapBytes n) (byte : Byte) :
    bits (update m (bitPlace pool row) byte) pool other = update (bits m pool) row byte other := by
  rw [(stands.updated inside byte).bits_eq]
  by_cases same : other = row
  · rw [same,update_self,update_self]
  · have rows := stands.rows
    have apart : bitPlace pool other ≠ bitPlace pool row := by
      unfold bitPlace
      omega
    rw [update_of_ne apart,update_of_ne same,stands.bits_eq]

section Locked

variable (stands : Stands m pool n)

include stands

theorem Stands.held : maxEntries (store m 4 (bitmapLock pool) 1) pool = n ∧
    IdPool.bitmap (store m 4 (bitmapLock pool) 1) pool = add32 pool headerSize ∧
    ∀ row < bitmapBytes n, bits (store m 4 (bitmapLock pool) 1) pool row = bits m pool row := by
  have word : ∀ k, k + 4 ≤ 12 → load (store m 4 (bitmapLock pool) 1) 4 (pool + k) = load m 4 (pool + k) := by
    intro k inside
    apply load_store_outside
    intro i below j small
    unfold bitmapLock
    omega
  have bitmap : IdPool.bitmap (store m 4 (bitmapLock pool) 1) pool = add32 pool headerSize :=
    (word 4 (by decide)).trans stands.bitmap
  refine ⟨(word 0 (by decide)).trans stands.entries,bitmap,?_⟩
  intro row inside
  rw [stands.bits_eq,bits,bitmap,add32,Nat.mod_add_mod]
  apply store_outside
  intro i below
  rw [bitmapLock,Nat.add_assoc pool 12]
  exact stands.place_ne inside (show 12 + i < 20 by omega)

theorem Stands.locked_setBits {row : Nat} (inside : row < bitmapBytes n) (byte : Byte) :
    lockRelease (setBits (store m 4 (bitmapLock pool) 1) pool row byte) (bitmapLock pool) =
      some (update m (bitPlace pool row) byte) := by
  have updated := stands.updated inside byte
  apply lockRelease_back updated.free updated.queue
  intro b outside
  rw [setBits,stands.held.2.1,add32,Nat.mod_add_mod,← bitPlace]
  by_cases here : b = bitPlace pool row
  · rw [here,update_self,update_self]
  · rw [update_of_ne here,update_of_ne here,store_outside outside]

theorem Stands.acquired : lockAcquire m (bitmapLock pool) = some (store m 4 (bitmapLock pool) 1) := by
  rw [lockAcquire,stands.free]
  rfl

theorem Stands.allocate_eq : allocate m pool =
    match firstClear (bitmapGet (bits m pool)) n 0 with
    | some i => some (update m (bitPlace pool (i / 8)) (bitmapMark (bits m pool) i (i / 8)),i)
    | none => some (m,allOnes) := by
  obtain ⟨entries,_,rows⟩ := stands.held
  have search : firstClear (bitmapGet (bits (store m 4 (bitmapLock pool) 1) pool)) n 0 =
      firstClear (bitmapGet (bits m pool)) n 0 :=
    firstClear_congr (fun j _ high => bitmapGet_congr (rows _ (stands.row_lt (by omega))))
  rw [allocate,stands.acquired,Option.bind_some]
  dsimp only
  rw [entries,search]
  cases outcome : firstClear (bitmapGet (bits m pool)) n 0 with
  | some i =>
    obtain ⟨_,below,_⟩ := firstClear_some outcome
    have row : i / 8 < bitmapBytes n := stands.row_lt (by omega)
    have byte : bitmapMark (bits (store m 4 (bitmapLock pool) 1) pool) i (i / 8) =
        bitmapMark (bits m pool) i (i / 8) := by
      rw [bitmapMark,bitmapMark,update_self,update_self,rows _ row]
    dsimp only
    rw [byte,stands.locked_setBits row,Option.map_some]
  | none =>
    dsimp only
    rw [lockRelease_back stands.free stands.queue (fun _ outside => store_outside outside),Option.map_some]

theorem Stands.free_eq (inside : id < n) : IdPool.free m pool id =
    some (update m (bitPlace pool (id / 8)) (bitmapUnmark (bits m pool) id (id / 8))) := by
  obtain ⟨_,_,rows⟩ := stands.held
  have row := stands.row_lt inside
  have byte : bitmapUnmark (bits (store m 4 (bitmapLock pool) 1) pool) id (id / 8) =
      bitmapUnmark (bits m pool) id (id / 8) := by
    rw [bitmapUnmark,bitmapUnmark,update_self,update_self,rows _ row]
  rw [IdPool.free,stands.acquired,Option.bind_some,byte,stands.locked_setBits row]

end Locked

end IdPool

end RudimentaryKernel
