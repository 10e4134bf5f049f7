import Mathlib.Order.Bounds.Defs
import RudimentaryKernel.MemoryLayout

/-! Runs of `allocate` and `free` on a pool that `_create_pool` has laid out, for elements of any
size and wherever it starts. A pool may be so long that its records come around to its own
bitmap; what is written there is `{}`, and the header comes last. -/
namespace RudimentaryKernel

open Function ByteMemory IdPool

namespace MemoryLayout

variable {m : Memory} {elementSize value datamap n start b : Nat}

/-- The header stands behind `_create_pool`, which writes it last. -/
theorem createPool_stands (elementSize value : Nat) (m : Memory) (start : Nat) (few : n + 7 < 2^32) :
    Stands (createPool elementSize value m n start) start n := by
  -- a word of the header survives the words behind it
  have later : ∀ (m : Memory) (a c word : Nat), a + 4 ≤ c → c + 4 ≤ a + headerSize →
      load (store m 4 c word) 4 a = load m 4 a := by
    intro m a c word behind inside
    simp only [headerSize] at inside
    apply load_store_outside
    intro i first j second
    omega
  have back : ∀ (m : Memory) (a word : Nat), word < 2^32 → load (store m 4 a word) 4 a = word := by
    intro m a word small
    rw [load_store_wrapped (by decide)]
    exact Nat.mod_eq_of_lt small
  have wrapped : add32 start headerSize < 2^32 := Nat.mod_lt _ (by decide)
  unfold createPool
  dsimp only
  generalize fillRecords elementSize value _ _ n = filled
  refine ⟨few,?_,?_,?_,?_⟩
  all_goals simp only [maxEntries,IdPool.bitmap,bitmapLock,headerSize] at later wrapped ⊢
  · rw [later _ _ _ _ (by omega) (by omega),later _ _ _ _ (by omega) (by omega),later _ _ _ _ (by omega) (by omega),
      later _ _ _ _ (by omega) (by omega),back _ _ _ (by omega)]
  · rw [later _ _ _ _ (by omega) (by omega),later _ _ _ _ (by omega) (by omega),later _ _ _ _ (by omega) (by omega),
      back _ _ _ wrapped]
  · rw [later _ _ _ _ (by omega) (by omega),back _ _ _ (by decide)]
  · exact back _ _ _ (by decide)

theorem createPool_clear (m : Memory) (start : Nat) (few : n + 7 < 2^32)
    (blank : value = 0 ∨ footprint elementSize n ≤ 2^32) {row : Nat} (inside : row < bitmapBytes n) :
    createPool elementSize value m n start (bitPlace start row) = 0 := by
  have stands := createPool_stands elementSize value m start few
  have header : ∀ (m : Memory) (k word : Nat), k + 4 ≤ headerSize →
      store m 4 (start + k) word (bitPlace start row) = m (bitPlace start row) := by
    intro m k word within
    apply store_outside
    intro i below
    rw [Nat.add_assoc]
    exact stands.place_ne inside (by omega)
  have cleared : store m (bitmapBytes n) (add32 start headerSize) 0 (bitPlace start row) = 0 := by
    have place : bitPlace start row = (add32 start headerSize + row) % 2^32 := by
      rw [add32,Nat.mod_add_mod,bitPlace]
    rw [place]
    exact store_zero_inside inside
  unfold createPool
  simp only [bitmapLock,Nat.add_assoc start]
  rw [header _ 16 _ (by decide),header _ 12 _ (by decide),header _ 8 _ (by decide),header _ 4 _ (by decide)]
  refine (header _ 0 _ (by decide)).trans ?_
  rcases blank with rfl | fits
  · exact fillRecords_zero cleared
  · rw [fillRecords_outside,cleared]
    intro i below
    simp only [footprint,headerSize,bitPlace,add32] at fits ⊢
    omega

end MemoryLayout

inductive PoolOp where
  | allocate
  | free (id : Nat)
  deriving DecidableEq

/-- A pool in memory with the ids that are outstanding: allocated, and not freed since. -/
structure PoolRun where
  memory : Memory
  outstanding : List Nat

namespace PoolRun

/-- `none` is a call that does not return, or a `free` of an id that is not outstanding. -/
def perform (pool : Nat) (r : PoolRun) : PoolOp → Option PoolRun
  | .allocate =>
    (allocate r.memory pool).map (fun (m,id) => ⟨m,if id = allOnes then r.outstanding else id :: r.outstanding⟩)
  | .free id =>
    if id ∈ r.outstanding then (IdPool.free r.memory pool id).map (fun m => ⟨m,r.outstanding.erase id⟩) else none

def Step (pool : Nat) (r t : PoolRun) : Prop := ∃ op, r.perform pool op = some t

/-- The bits say what is outstanding, and nothing but them has changed since the `first` memory. -/
structure Exact (first : Memory) (pool n : Nat) (r : PoolRun) : Prop where
  stands : Stands r.memory pool n
  bounded : ∀ i ∈ r.outstanding, i < n
  distinct : r.outstanding.Nodup
  marked : ∀ i < 8 * bitmapBytes n, bitmapGet (bits r.memory pool) i = true ↔ i ∈ r.outstanding
  frame : ∀ b, (∀ row < bitmapBytes n, b ≠ bitPlace pool row) → r.memory b = first b

variable {first : Memory} {pool n id : Nat} {r t : PoolRun}

theorem Exact.change (exact' : Exact first pool n r) (inside : id < n) {new : Nat → Byte} {outstanding : List Nat}
    (only : ∀ row, row ≠ id / 8 → new row = bits r.memory pool row) (bounded : ∀ i ∈ outstanding, i < n)
    (distinct : outstanding.Nodup) (marked : ∀ i < 8 * bitmapBytes n, bitmapGet new i = true ↔ i ∈ outstanding) :
    Exact first pool n ⟨update r.memory (bitPlace pool (id / 8)) (new (id / 8)),outstanding⟩ := by
  have row := exact'.stands.row_lt inside
  refine ⟨exact'.stands.updated row _,bounded,distinct,?_,?_⟩
  · intro i below
    rw [← marked i below]
    refine iff_of_eq (congrArg (· = true) (bitmapGet_congr ?_))
    rw [exact'.stands.bits_updated row (by omega)]
    by_cases same : i / 8 = id / 8
    · rw [same,update_self]
    · rw [update_of_ne same,only _ same]
  · intro b outside
    exact (update_of_ne (outside _ row) ..).trans (exact'.frame b outside)

theorem Exact.allocate (exact' : Exact first pool n r) :
    (∃ m id, IdPool.allocate r.memory pool = some (m,id) ∧ id < n ∧ id ∉ r.outstanding ∧
      (∀ i < id, i ∈ r.outstanding) ∧ Exact first pool n ⟨m,id :: r.outstanding⟩) ∨
    IdPool.allocate r.memory pool = some (r.memory,allOnes) ∧ ∀ i < n, i ∈ r.outstanding := by
  have rows : ∀ i < n, i < 8 * bitmapBytes n := by
    intro i inside
    have row := exact'.stands.row_lt inside
    omega
  rw [exact'.stands.allocate_eq]
  cases outcome : firstClear (bitmapGet (bits r.memory pool)) n 0 with
  | none =>
    refine .inr ⟨rfl,fun i inside => (exact'.marked i (rows i inside)).mp ?_⟩
    exact firstClear_none outcome i (Nat.zero_le _) (by omega)
  | some id =>
    obtain ⟨_,below,clear,before⟩ := firstClear_some outcome
    have inside : id < n := by omega
    have fresh : id ∉ r.outstanding := by
      rw [← exact'.marked id (rows id inside),clear]
      exact Bool.false_ne_true
    refine .inl ⟨_,id,rfl,inside,fresh,?_,?_⟩
    · intro i lower
      exact (exact'.marked i (rows i (by omega))).mp (before i (Nat.zero_le _) lower)
    · refine exact'.change inside ?_ ?_ (List.nodup_cons.mpr ⟨fresh,exact'.distinct⟩) ?_
      · intro row other
        rw [bitmapMark,update_of_ne other]
      · exact List.forall_mem_cons.mpr ⟨inside,exact'.bounded⟩
      · intro i within
        rw [bitmapGet_mark,Bool.or_eq_true,decide_eq_true_eq,List.mem_cons]
        exact or_congr eq_comm (exact'.marked i within)

theorem Exact.free (exact' : Exact first pool n r) (held : id ∈ r.outstanding) :
    ∃ m, IdPool.free r.memory pool id = some m ∧ Exact first pool n ⟨m,r.outstanding.erase id⟩ := by
  have inside := exact'.bounded id held
  refine ⟨_,exact'.stands.free_eq inside,exact'.change inside ?_ ?_ (exact'.distinct.erase id) ?_⟩
  · intro row other
    rw [bitmapUnmark,update_of_ne other]
  · exact fun i member => exact'.bounded i (List.mem_of_mem_erase member)
  · intro i within
    rw [bitmapGet_unmark,Bool.and_eq_true,Bool.not_eq_true',decide_eq_false_iff_not,exact'.distinct.mem_erase_iff]
    exact and_congr ne_comm (exact'.marked i within)

theorem Exact.step (few : n < allOnes) (exact' : Exact first pool n r) (step : r.Step pool t) : Exact first pool n t := by
  obtain ⟨op,done⟩ := step
  cases op with
  | allocate =>
    rw [perform] at done
    rcases exact'.allocate with ⟨m,id,served,inside,_,_,after⟩ | ⟨refused,_⟩
    · have real : id ≠ allOnes := by omega
      rw [served,Option.map_some,Option.some.injEq] at done
      rw [← done]
      simpa only [if_neg real] using after
    · rw [refused,Option.map_some,Option.some.injEq] at done
      rw [← done]
      simpa only [if_true] using exact'
  | free id =>
    rw [perform] at done
    split at done
    · rename_i held
      obtain ⟨m,freed,after⟩ := exact'.free held
      rw [freed,Option.map_some,Option.some.injEq] at done
      exact done ▸ after
    · cases done

/-- `_create_pool` for elements whose `{}` is the bytes of `value`, with nothing outstanding. -/
def Fresh (m : Memory) (n elementSize value start : Nat) (r : PoolRun) : Prop :=
  r = ⟨IdPool.createPool elementSize value m n start,[]⟩

end PoolRun

def poolAt (m : Memory) (pool elementSize : Nat) : Pool :=
  ⟨maxEntries m pool,bits m pool,datamap m pool,elementSize,if load m 4 (bitmapLock pool) = 0 then .unlocked else .locked⟩

namespace PoolRun

variable {pool n : Nat} {r : PoolRun}

theorem fresh_exact {m : Memory} {elementSize value start : Nat} (few : n + 7 < 2^32)
    (blank : value = 0 ∨ MemoryLayout.footprint elementSize n ≤ 2^32) (fresh : Fresh m n elementSize value start r) :
    Exact (IdPool.createPool elementSize value m n start) start n r := by
  subst fresh
  have stands := MemoryLayout.createPool_stands elementSize value m start few
  refine ⟨stands,by simp,List.nodup_nil,?_,fun _ _ => rfl⟩
  intro i within
  have zero := MemoryLayout.createPool_clear m start few blank (show i / 8 < bitmapBytes n by omega)
  rw [bitmapGet,stands.bits_eq,zero]
  simp

theorem Exact.addresses {first : Memory} {elementSize : Nat} (exact' : Exact first pool n r) (element : 1 ≤ elementSize)
    (extent : n * elementSize < 2^32) {i : Nat} (inside : i < n) :
    (poolAt r.memory pool elementSize).addressToId ((poolAt r.memory pool elementSize).idToAddress i) = i := by
  have entries := exact'.stands.entries
  apply Pool.address_eq
  · refine ⟨load_lt,element,?_⟩
    change maxEntries r.memory pool * elementSize ≤ 2^32
    rw [entries]
    omega
  · change i < maxEntries r.memory pool
    rwa [entries]

/-- A pool of any size and place, after any run of calls. Bit `i` is set exactly when id `i` is
outstanding, `allocate` returns the least id that is not, or all ones when there is none, every
outstanding id can be freed, and only the bytes of the bitmap are other than `_create_pool`
left them, with no bit set behind the last id. The address of an id leads back to it. -/
theorem pool_exact (m : Memory) (n elementSize value start : Nat) (few : n < 2^32 - 8)
    (element : 1 ≤ elementSize) (extent : n * elementSize < 2^32)
    (blank : value = 0 ∨ MemoryLayout.footprint elementSize n ≤ 2^32) (r : PoolRun)
    (reached : Reach (Fresh m n elementSize value start) (Step start) r) :
    (∀ i < n, bitmapGet (bits r.memory start) i = true ↔ i ∈ r.outstanding) ∧
    (∀ i ∈ r.outstanding, i < n) ∧ r.outstanding.Nodup ∧
    (∃ m' id, allocate r.memory start = some (m',id) ∧ (id = allOnes ↔ ∀ i < n, i ∈ r.outstanding) ∧
      (id ≠ allOnes → IsLeast {i | i < n ∧ i ∉ r.outstanding} id)) ∧
    (∀ id ∈ r.outstanding, ∃ m', free r.memory start id = some m') ∧
    (∀ i, n ≤ i → i < 8 * bitmapBytes n → bitmapGet (bits r.memory start) i = false) ∧
    (∀ b, (∀ row < bitmapBytes n, b ≠ (start + headerSize + row) % 2^32) →
      r.memory b = IdPool.createPool elementSize value m n start b) ∧
    ∀ i < n, (poolAt r.memory start elementSize).addressToId ((poolAt r.memory start elementSize).idToAddress i) = i := by
  have real : n < allOnes := by
    unfold allOnes
    omega
  have exact' : Exact (IdPool.createPool elementSize value m n start) start n r :=
    reached.invariant (Exact _ start n) (fun _ fresh => fresh_exact (by omega) blank fresh)
      (fun _ _ exact' step => exact'.step real step)
  refine ⟨?_,exact'.bounded,exact'.distinct,?_,?_,?_,exact'.frame,fun i inside => exact'.addresses element extent inside⟩
  · intro i inside
    have row := exact'.stands.row_lt inside
    exact exact'.marked i (by omega)
  · rcases exact'.allocate with ⟨m',id,served,inside,fresh,before,_⟩ | ⟨refused,all⟩
    · refine ⟨m',id,served,iff_of_false (by omega) (fun all => fresh (all id inside)),fun _ => ⟨⟨inside,fresh⟩,?_⟩⟩
      rintro i ⟨_,unheld⟩
      by_contra lower
      exact unheld (before i (by omega))
    · exact ⟨_,_,refused,iff_of_true rfl all,fun real => absurd rfl real⟩
  · intro id held
    obtain ⟨m',freed,_⟩ := exact'.free held
    exact ⟨m',freed⟩
  · intro i behind within
    rw [Bool.eq_false_iff,ne_eq,exact'.marked i within]
    intro held
    have inside := exact'.bounded i held
    omega

/-- A pool for three: after one call id 0 is outstanding, and the next call returns 1. -/
theorem pool_of_three : ∃ r : PoolRun, Reach (Fresh (fun _ => 0) 3 4 0 0) (Step 0) r ∧ r.outstanding = [0] ∧
    ∃ m, allocate r.memory 0 = some (m,1) := by
  have call := fun r reached =>
    (pool_exact (fun _ => 0) 3 4 0 0 (by decide) (by decide) (by decide) (.inl rfl) r reached).2.2.2.1
  have start : Reach (Fresh (fun _ => 0) 3 4 0 0) (Step 0) ⟨IdPool.createPool 4 0 (fun _ => 0) 3 0,[]⟩ :=
    .start rfl
  obtain ⟨m,id,served,full,least⟩ := call _ start
  have real : id ≠ allOnes := fun ones => List.not_mem_nil (full.mp ones 0 (by decide))
  have zero : id ≤ 0 := (least real).2 ⟨by decide,List.not_mem_nil⟩
  obtain rfl : id = 0 := by omega
  have reached : Reach (Fresh (fun _ => 0) 3 4 0 0) (Step 0) ⟨m,[0]⟩ :=
    start.advance ⟨.allocate,by rw [perform,served,Option.map_some]; rfl⟩
  obtain ⟨m',next,again,full',least'⟩ := call _ reached
  have spare : 1 ∉ [0] := by decide
  have real' : next ≠ allOnes := fun ones => spare (full'.mp ones 1 (by decide))
  have one : next ≤ 1 := (least' real').2 ⟨by decide,spare⟩
  have other : next ≠ 0 := fun same => (least' real').1.2 (by simp [same])
  obtain rfl : next = 1 := by omega
  exact ⟨_,reached,rfl,m',again⟩

end PoolRun

end RudimentaryKernel
