import RudimentaryKernel.LoadedPrograms

/-! The ATA driver under the loader, and for which sizes the success of `load_program` can be
believed. The bytes of a program are counted in 32 bits, so a size from `2^23 - 7` sectors on comes
out as a smaller number of pages. -/
namespace RudimentaryKernel

open ByteBlocks KernelState CreateImage

/-- What `ata_init` has found out about the drive. -/
structure Disk where
  sectorCount : Nat
  present : Bool

/-- The registers that name one sector. -/
structure AtaRegisters where
  drive : Byte
  lbaLow : Byte
  lbaMid : Byte
  lbaHigh : Byte

/-- The sector that the drive takes the registers for. -/
def AtaRegisters.address (r : AtaRegisters) : Nat :=
  (r.drive &&& 0x0F).toNat * 2^24 + r.lbaHigh.toNat * 2^16 + r.lbaMid.toNat * 2^8 + r.lbaLow.toNat

def ataPrepareLba (disk : Disk) (lba : Nat) : Option AtaRegisters :=
  if 0x10000000 ≤ lba then none
  else if disk.present = false then none
  else if disk.sectorCount ≤ lba then none
  else some {
    drive := 0xE0 ||| BitVec.ofNat 8 (lba / 2^24 % 16)
    lbaLow := BitVec.ofNat 8 lba
    lbaMid := BitVec.ofNat 8 (lba / 2^8)
    lbaHigh := BitVec.ofNat 8 (lba / 2^16) }

/-- `ata_read_sector` on a drive with the given sectors. Whether `ata_wait` sees the data or an
error is up to the drive. -/
def ataReadSector (disk : Disk) (contents : Nat → Sector) (ready : Bool) (lba : Nat) : Option Sector :=
  match ataPrepareLba disk lba with
  | none => none
  | some registers => if ready then some (contents registers.address) else none

theorem drive_nibble (n : Byte) (small : n.toNat < 16) : (0xE0 ||| n) &&& 0x0F = n := by
  revert n
  decide +kernel

theorem ataPrepareLba_address {disk : Disk} {lba : Nat} {r : AtaRegisters}
    (prepared : ataPrepareLba disk lba = some r) : r.address = lba ∧ lba < 2^28 := by
  unfold ataPrepareLba at prepared
  split at prepared
  · cases prepared
  · rename_i small
    split at prepared
    · cases prepared
    · split at prepared
      · cases prepared
      · obtain rfl := Option.some.inj prepared
        refine ⟨?_,by omega⟩
        have nibble : (BitVec.ofNat 8 (lba / 2^24 % 16)).toNat = lba / 2^24 := by
          rw [BitVec.toNat_ofNat]
          omega
        rw [AtaRegisters.address,drive_nibble _ (by omega),nibble]
        simp only [BitVec.toNat_ofNat]
        omega

theorem ataReadSector_some {disk : Disk} {contents : Nat → Sector} {ready : Bool} {lba : Nat} {sector : Sector}
    (read : ataReadSector disk contents ready lba = some sector) : lba < 2^28 ∧ sector = contents lba := by
  unfold ataReadSector at read
  cases prepared : ataPrepareLba disk lba with
  | none => rw [prepared] at read; cases read
  | some r =>
    obtain ⟨same,small⟩ := ataPrepareLba_address prepared
    rw [prepared] at read
    dsimp only at read
    rw [same] at read
    cases ready
    · cases read
    · exact ⟨small,(Option.some.inj read).symm⟩

def wholeDrive : Disk := ⟨2^28,true⟩

theorem ataReadSector_whole {contents : Nat → Sector} {lba : Nat} (small : lba < 2^28) :
    ataReadSector wholeDrive contents true lba = some (contents lba) := by
  have room : ¬wholeDrive.sectorCount ≤ lba := Nat.not_le.mpr small
  cases prepared : ataPrepareLba wholeDrive lba with
  | none =>
    rw [ataPrepareLba,if_neg (by omega),if_neg (by decide),if_neg room] at prepared
    cases prepared
  | some r =>
    rw [ataReadSector,prepared]
    dsimp only
    rw [(ataPrepareLba_address prepared).1]
    rfl

def ataReads (disk : Disk) (contents : Nat → Sector) (ready : Nat → Bool) : DiskReads :=
  fun n lba => ataReadSector disk contents (ready n) lba

theorem KernelState.Lists.unique {reads : DiskReads} {name : Nat → Byte} {found other : ProgramDirEntry} (lists : Lists reads name found)
    (again : Lists reads name other) : found = other := by
  obtain ⟨_,dir,read,search⟩ := lists
  obtain ⟨_,dir',read',search'⟩ := again
  obtain rfl := Option.some.inj (read.symm.trans read')
  exact Option.some.inj (search.symm.trans search')

namespace Kernel

variable {L : Layout} {ι : Type} {k after : Kernel L ι} {disk : Disk} {contents : Nat → Sector}
  {ready : Nat → Bool} {name : Nat → Byte} {heap : HeapGrants} {found : ProgramDirEntry}

/-- Every sector of the entry is in the memory of the new thread whenever `load_program` returns 0,
whatever the disk and whatever has happened since boot. -/
def Honest (L : Layout) (ι : Type) [DecidableEq ι] (lba sectors : Nat) : Prop :=
  ∀ (k after : Kernel L ι) (disk : Disk) (contents : Nat → Sector) (ready : Nat → Bool) (name : Nat → Byte)
    (heap : HeapGrants) (found : ProgramDirEntry), Reach Booted Does k →
    Lists (ataReads disk contents ready) name found → found.lba = lba → found.sectors = sectors →
    k.loadProgram name (ataReads disk contents ready) heap = (after,0) →
    ∀ s < sectors, ∀ j < sectorSize,
      after.Sees heap.tcb (progLoadBase + sectorSize * s + j) (contents (lba + s) j)

theorem sectorLba_eq (found : ProgramDirEntry) (s : Nat) : sectorLba found s = (found.lba + s) % 2^32 := by
  have eight : sectorsPerPage = 8 := by decide
  rw [sectorLba,eight,add32,add32]
  omega

theorem loadProgram_whole [DecidableEq ι] {s j : Nat} (reached : Reach Booted Does k)
    (lists : Lists (ataReads disk contents ready) name found) (narrow : found.lba < 2^32)
    (small : found.sectors ≤ 2^23 - 8)
    (loaded : k.loadProgram name (ataReads disk contents ready) heap = (after,0)) (inside : s < found.sectors)
    (within : j < sectorSize) :
    after.Sees heap.tcb (progLoadBase + sectorSize * s + j) (contents (found.lba + s) j) := by
  obtain ⟨t,represents,frugal⟩ := reached_orderly reached
  obtain ⟨other,again,_,bytes⟩ := loadProgram_bytes represents frugal loaded
  obtain rfl := lists.unique again
  have pages := numPages_eq found (by omega)
  have sizes : sectorSize = 512 ∧ pageSize = 4096 := ⟨rfl,rfl⟩
  -- the first sector has been read too, so the numbers behind it do not wrap
  have start : found.lba < 2^28 := by
    obtain ⟨_,_,_,_,first,_⟩ := (bytes 0).1 (by rw [pages,Nat.zero_div]; omega)
    obtain ⟨_,read,_⟩ := first (by rw [Nat.zero_div]; omega)
    have bound := (ataReadSector_some read).1
    rw [sectorLba_eq,Nat.zero_div] at bound
    omega
  have place : (sectorSize * s + j) / sectorSize = s ∧ (sectorSize * s + j) % sectorSize = j := by
    simp only [sizes] at within ⊢
    omega
  obtain ⟨pa,_,walk,writable,here,_⟩ :=
    (bytes (sectorSize * s + j)).1 (by rw [pages]; simp only [sizes] at within ⊢; omega)
  rw [place.1,place.2,sectorLba_eq,Nat.mod_eq_of_lt (by omega)] at here
  obtain ⟨sector,read,stored⟩ := here inside
  rw [(ataReadSector_some read).2] at stored
  rw [Nat.add_assoc]
  exact ⟨pa,walk,writable,stored⟩

def sampleBoot : Sector := fun j => if j = progDirLoc then 1 else 0

def listingDrive (lba sectors : Word) : Nat → Sector
  | 0 => sampleBoot
  | _ + 1 => fun j =>
    if j = 0 then 97
    else if j < 16 then 0
    else if j < 20 then (fourBytes lba).getD (j - 16) 0
    else if j < 24 then (fourBytes sectors).getD (j - 20) 0
    else 0

theorem listingDrive_lists (lba sectors : Word) : ∃ found,
    Lists (ataReads wholeDrive (listingDrive lba sectors) (fun _ => true)) sampleName found ∧
    found.lba = lba.toNat ∧ found.sectors = sectors.toNat := by
  have start : readProgDirLba (ataReads wholeDrive (listingDrive lba sectors) (fun _ => true)) = 1 := by
    rw [readProgDirLba,ataReads,ataReadSector_whole (by decide)]
    change (sectorWord sampleBoot progDirLoc).toNat = 1
    decide
  refine ⟨programDirEntry (listingDrive lba sectors 1) 0,⟨?_,listingDrive lba sectors 1,?_,rfl⟩,?_,?_⟩
  · rw [start]
    decide
  · rw [start,ataReads,ataReadSector_whole (by decide)]
  · refine congrArg BitVec.toNat (sectorWord_eq (fun i inside => ?_))
    obtain rfl | rfl | rfl | rfl : i = 0 ∨ i = 1 ∨ i = 2 ∨ i = 3 := by omega
    all_goals rfl
  · refine congrArg BitVec.toNat (sectorWord_eq (fun i inside => ?_))
    obtain rfl | rfl | rfl | rfl : i = 0 ∨ i = 1 ∨ i = 2 ∨ i = 3 := by omega
    all_goals rfl

/-- When the size wraps to few pages that can be read, `load_program` returns 0 and the sector
behind those pages is nowhere. -/
theorem loadProgram_cut (L : Layout) (ι : Type) [DecidableEq ι] (lba sectors : Word) (wraps : 2^23 - 8 < sectors.toNat)
    (few : (sectors.toNat + 7) / 8 % 2^20 < frameCount)
    (readable : (sectors.toNat + 7) / 8 % 2^20 = 0 ∨ lba.toNat + (sectors.toNat + 7) / 8 % 2^20 * 8 ≤ 2^28) :
    ∃ (k after : Kernel L ι) (heap : HeapGrants) (found : ProgramDirEntry), k.Booted ∧
      Lists (ataReads wholeDrive (listingDrive lba sectors) (fun _ => true)) sampleName found ∧
      found.lba = lba.toNat ∧ found.sectors = sectors.toNat ∧
      k.loadProgram sampleName (ataReads wholeDrive (listingDrive lba sectors) (fun _ => true)) heap = (after,0) ∧
      (sectors.toNat + 7) / 8 % 2^20 * 8 < sectors.toNat ∧
      ∀ byte, ¬after.Sees heap.tcb (progLoadBase + sectorSize * ((sectors.toNat + 7) / 8 % 2^20 * 8)) byte := by
  obtain ⟨k,booted,directories,frames,_⟩ := booted_with L ι 0
  obtain ⟨found,lists,place,size⟩ := listingDrive_lists lba sectors
  obtain ⟨returns,_⟩ := loadProgram_returns _ _ k ⟨0x120000,0,0x130000⟩ lists
  have pages := numPages_wrapped found
  have sizes : sectorSize = 512 ∧ pageSize = 4096 ∧ sectorsPerPage = 8 ∧ frameCount = 6144 := ⟨rfl,rfl,rfl,rfl⟩
  rw [size] at pages
  generalize kept : (sectors.toNat + 7) / 8 % 2^20 = n at *
  have success : (k.loadProgram sampleName (ataReads wholeDrive (listingDrive lba sectors) (fun _ => true))
      ⟨0x120000,0,0x130000⟩).2 = 0 := by
    refine returns.mpr ⟨by decide,by decide,⟨0,by decide,directories 0⟩,by decide,by omega,?_⟩
    intro j inside _
    simp only [sizes] at inside
    rw [sectorLba_eq,Nat.mod_eq_of_lt (by omega),ataReads,ataReadSector_whole (by omega)]
    rfl
  obtain ⟨after,loaded⟩ : ∃ after, k.loadProgram sampleName
      (ataReads wholeDrive (listingDrive lba sectors) (fun _ => true)) ⟨0x120000,0,0x130000⟩ = (after,0) :=
    ⟨_,Prod.ext rfl success⟩
  obtain ⟨t,represents,frugal⟩ := reached_orderly (.start booted)
  obtain ⟨other,again,_,bytes⟩ := loadProgram_bytes represents frugal loaded
  obtain rfl := lists.unique again
  refine ⟨k,after,_,found,booted,lists,place,size,loaded,by simp only [sizes] at few; omega,?_⟩
  rintro byte ⟨pa,walk,_⟩
  have page : sectorSize * (n * 8) / pageSize = n := by
    simp only [sizes]
    omega
  have unmapped := (bytes (sectorSize * (n * 8))).2 (by rw [page,pages]) (by rwa [page])
  exact absurd (unmapped.symm.trans walk) (Option.some_ne_none _).symm

/-- The success of `load_program` can be believed just for the entries whose size does not wrap, and
for those whose wrapped size cannot be loaded either: there are not the frames, or the sectors are
past what the driver can address. -/
theorem load_honest_iff (L : Layout) (ι : Type) [DecidableEq ι] (lba sectors : Word) :
    Honest L ι lba.toNat sectors.toNat ↔ sectors.toNat ≤ 2^23 - 8 ∨
      frameCount ≤ (sectors.toNat + 7) / 8 % 2^20 ∨
      0 < (sectors.toNat + 7) / 8 % 2^20 ∧ 2^28 < lba.toNat + (sectors.toNat + 7) / 8 % 2^20 * 8 := by
  constructor
  · intro honest
    by_contra! other
    obtain ⟨wraps,few,readable⟩ := other
    obtain ⟨k,after,heap,found,booted,lists,place,size,loaded,inside,unseen⟩ :=
      loadProgram_cut L ι lba sectors wraps few (by omega)
    exact unseen _ (honest k after _ _ _ _ heap found (.start booted) lists place size loaded _ inside 0 (by decide))
  · intro condition k after disk contents ready name heap found reached lists place size loaded s inside j within
    have narrow : found.lba < 2^32 := by omega
    by_cases small : sectors.toNat ≤ 2^23 - 8
    · rw [← place]
      exact loadProgram_whole reached lists narrow (by omega) loaded (by omega) within
    · have pages := numPages_wrapped found
      rw [size] at pages
      obtain ⟨returns,_⟩ := loadProgram_returns _ _ k heap lists
      obtain ⟨_,_,_,_,room,readable⟩ := returns.mp (congrArg Prod.snd loaded)
      have sizes : sectorsPerPage = 8 ∧ frameCount = 6144 := ⟨rfl,rfl⟩
      rw [← pages] at condition
      simp only [sizes] at room readable condition
      -- the first sector that cannot be addressed
      obtain ⟨sector,read⟩ := Option.isSome_iff_exists.mp (readable (2^28 - found.lba) (by omega) (by omega))
      have bound := (ataReadSector_some read).1
      rw [sectorLba_eq] at bound
      omega

/-- An entry of `2^23` sectors: the call reports success and nothing is at the load base. -/
theorem wrapped_size_loaded : ∃ (k after : Kernel sampleLayout Unit) (heap : HeapGrants) (found : ProgramDirEntry),
    Reach Booted Does k ∧
    Lists (ataReads wholeDrive (listingDrive 2 0x800000) (fun _ => true)) sampleName found ∧
    found.lba = 2 ∧ found.sectors = 0x800000 ∧
    k.loadProgram sampleName (ataReads wholeDrive (listingDrive 2 0x800000) (fun _ => true)) heap = (after,0) ∧
    ∀ byte, ¬after.Sees heap.tcb progLoadBase byte := by
  obtain ⟨k,after,heap,found,booted,lists,place,size,loaded,_,unseen⟩ :=
    loadProgram_cut sampleLayout Unit 2 0x800000 (by decide) (by decide) (.inl (by decide))
  exact ⟨k,after,heap,found,.start booted,lists,place,size,loaded,unseen⟩

end Kernel

end RudimentaryKernel
