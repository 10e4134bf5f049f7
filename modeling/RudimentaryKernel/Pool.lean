import RudimentaryKernel.Bitmap
import RudimentaryKernel.Target

/-! The fixed size pool of `structs/pool.hpp`: a byte bitmap of used entries and
an array of equally sized records. Calls are complete and uncontended, so taking
and giving back `bitmap_lock` leaves it unlocked. -/
namespace RudimentaryKernel

structure Pool where
  maxEntries : Nat
  bitmap : Nat → Byte
  datamap : Nat
  entrySize : Nat
  bitmapLock : LockStatus

namespace Pool

def used (p : Pool) (id : Nat) : Bool := bitmapGet p.bitmap id

/-- A full pool answers with the all-ones index and changes nothing. -/
def allocate (p : Pool) : Pool × Nat :=
  let held := { p with bitmapLock := .locked }
  match firstClear (bitmapGet held.bitmap) held.maxEntries 0 with
  | some i => ({ held with bitmap := bitmapMark held.bitmap i, bitmapLock := .unlocked },i)
  | none => ({ held with bitmapLock := .unlocked },allOnes)

def free (p : Pool) (id : Nat) : Pool :=
  let held := { p with bitmapLock := .locked }
  { held with bitmap := bitmapUnmark held.bitmap id, bitmapLock := .unlocked }

def idToAddress (p : Pool) (id : Nat) : Nat := add32 p.datamap (id * p.entrySize)

def addressToId (p : Pool) (address : Nat) : Nat := sub32 address p.datamap / p.entrySize

def Spare (p : Pool) : Prop := ∃ id, id < p.maxEntries ∧ p.used id = false

instance (p : Pool) : Decidable p.Spare :=
  inferInstanceAs (Decidable (∃ id, id < p.maxEntries ∧ p.used id = false))

/-- The records fit into the address space, so different entries have different addresses. -/
structure Fits (p : Pool) : Prop where
  datamap : p.datamap < 2^32
  entry : 0 < p.entrySize
  extent : p.maxEntries * p.entrySize ≤ 2^32

theorem allocate_spare (p : Pool) (spare : p.Spare) :
    ∃ id, id < p.maxEntries ∧ p.used id = false ∧ (∀ j, j < id → p.used j = true) ∧
      p.allocate = ({ p with bitmap := bitmapMark p.bitmap id, bitmapLock := .unlocked },id) := by
  cases outcome : firstClear (bitmapGet p.bitmap) p.maxEntries 0 with
  | none =>
    obtain ⟨id,bound,clear⟩ := spare
    have marked := firstClear_none outcome id (by omega) (by omega)
    rw [used,marked] at clear
    contradiction
  | some id =>
    obtain ⟨_,bound,clear,below⟩ := firstClear_some outcome
    refine ⟨id,by omega,clear,fun j before => below j (by omega) before,?_⟩
    simp [allocate,outcome]

theorem address_eq (p : Pool) (fits : p.Fits) (id : Nat) (bound : id < p.maxEntries) :
    p.addressToId (p.idToAddress id) = id := by
  have inside : id * p.entrySize + p.entrySize ≤ 2^32 := by
    have step := Nat.mul_le_mul_right p.entrySize (Nat.succ_le_of_lt bound)
    have extent := fits.extent
    rw [Nat.succ_mul] at step
    omega
  have low := fits.datamap
  have positive := fits.entry
  have offset : sub32 (add32 p.datamap (id * p.entrySize)) p.datamap = id * p.entrySize := by
    generalize id * p.entrySize = distance at inside
    unfold sub32 add32
    omega
  rw [addressToId,idToAddress,offset]
  exact Nat.mul_div_cancel id positive

theorem idToAddress_injective (p : Pool) (fits : p.Fits) {i j : Nat} (hi : i < p.maxEntries)
    (hj : j < p.maxEntries) (same : p.idToAddress i = p.idToAddress j) : i = j := by
  rw [← p.address_eq fits i hi,same,p.address_eq fits j hj]

def InUse (p : Pool) (address : Nat) : Prop :=
  ∃ id, id < p.maxEntries ∧ address = p.idToAddress id ∧ p.used id = true

instance (p : Pool) (address : Nat) : Decidable (p.InUse address) :=
  inferInstanceAs (Decidable (∃ id, id < p.maxEntries ∧ address = p.idToAddress id ∧ p.used id = true))

theorem allocate_fresh (p : Pool) (fits : p.Fits) (spare : p.Spare) :
    ∃ q id, p.allocate = (q,id) ∧ q.Fits ∧ ¬p.InUse (q.idToAddress id) ∧
      q.InUse (q.idToAddress id) ∧ ∀ address, p.InUse address → q.InUse address := by
  obtain ⟨id,bound,clear,_,outcome⟩ := p.allocate_spare spare
  refine ⟨_,id,outcome,⟨fits.datamap,fits.entry,fits.extent⟩,?_,?_,?_⟩
  · rintro ⟨other,inside,same,marked⟩
    have equal : id = other := p.idToAddress_injective fits bound inside same
    rw [← equal,clear] at marked
    contradiction
  · exact ⟨id,bound,rfl,by simp [used]⟩
  · rintro address ⟨other,inside,same,marked⟩
    refine ⟨other,inside,same,?_⟩
    rw [used] at marked
    simp [used,marked]

theorem free_fits (p : Pool) (fits : p.Fits) (id : Nat) : (p.free id).Fits :=
  ⟨fits.datamap,fits.entry,fits.extent⟩

theorem free_inUse (p : Pool) (fits : p.Fits) {held other : Nat} (usedHeld : p.InUse held)
    (usedOther : p.InUse other) : (p.free (p.addressToId held)).InUse other ↔ other ≠ held := by
  obtain ⟨i,hi,rfl,_⟩ := usedHeld
  obtain ⟨j,hj,rfl,marked⟩ := usedOther
  rw [p.address_eq fits i hi]
  rw [used] at marked
  constructor
  · rintro ⟨k,hk,same,still⟩ equal
    have first : j = k := p.idToAddress_injective fits hj hk same
    have second : j = i := p.idToAddress_injective fits hj hi equal
    simp [free,used,← first,second] at still
  · intro different
    refine ⟨j,hj,rfl,?_⟩
    have apart : i ≠ j := fun same => different (by rw [same])
    simp [free,used,marked,apart]

end Pool

end RudimentaryKernel
