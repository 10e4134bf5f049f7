import RudimentaryKernel.LoadFailures
import RudimentaryKernel.ProgramNames
import RudimentaryKernel.Switching

/-! `createimage` and `load_program` meet on the disk. What one writes into the directory is what the
other searches, and the sectors of a program come into frames of the new thread. -/
namespace RudimentaryKernel

open ByteBlocks

theorem sectorWord_byte (sector : Sector) (j r : Nat) (inside : r < 4) :
    (sectorWord sector j).extractLsb' (8 * r) 8 = sector (j + r) := by
  obtain ⟨first,second,third,fourth⟩ := append_byte (sector j) (sector (j + 1)) (sector (j + 2)) (sector (j + 3))
  obtain rfl | rfl | rfl | rfl : r = 0 ∨ r = 1 ∨ r = 2 ∨ r = 3 := by omega
  · exact first
  · exact second
  · exact third
  · exact fourth

theorem HoldsSectors.bytes {reads : DiskReads} {found : ProgramDirEntry} {paddr b : Nat} {before after : Ram}
    (holds : HoldsSectors reads found (b / pageSize) paddr 0 sectorsPerPage before after)
    (aligned : paddr % pageSize = 0) :
    (b / sectorSize < found.sectors → ∃ sector,
      reads (2 + b / sectorSize) (KernelState.sectorLba found (b / sectorSize)) = some sector ∧
      byteAt after (paddr + b % pageSize) = sector (b % sectorSize)) ∧
    (found.sectors ≤ b / sectorSize →
      byteAt after (paddr + b % pageSize) = byteAt before (paddr + b % pageSize)) := by
  have sizes : sectorSize = 512 ∧ pageSize = 4096 ∧ sectorsPerPage = 8 := ⟨rfl,rfl,rfl⟩
  have number : b / pageSize * sectorsPerPage + b % pageSize / sectorSize = b / sectorSize := by
    simp only [sizes]
    omega
  have word : paddr + b % pageSize / sectorSize * sectorSize + 4 * (b % sectorSize / 4) =
      (paddr + b % pageSize) / 4 * 4 := by
    simp only [sizes] at aligned ⊢
    omega
  have byte : (paddr + b % pageSize) % 4 = b % 4 := by
    simp only [sizes] at aligned ⊢
    omega
  have offset : 4 * (b % sectorSize / 4) + b % 4 = b % sectorSize := by
    simp only [sizes]
    omega
  have lba : KernelState.sectorLba found (b / sectorSize) =
      add32 (add32 found.lba (b / pageSize * sectorsPerPage)) (b % pageSize / sectorSize) := by
    have page : b / sectorSize / sectorsPerPage = b / pageSize := by
      simp only [sizes]
      omega
    have rest : b / sectorSize % sectorsPerPage = b % pageSize / sectorSize := by
      simp only [sizes]
      omega
    rw [KernelState.sectorLba,page,rest]
  obtain ⟨within,beyond⟩ := holds (b % pageSize / sectorSize) (b % sectorSize / 4) (Nat.zero_le _)
    (by simp only [sizes]; omega) (by simp only [sizes]; omega)
  rw [Nat.add_assoc 2,number,← lba,word] at within
  rw [number,word] at beyond
  constructor
  · intro inside
    obtain ⟨sector,read,stored⟩ := within inside
    refine ⟨sector,read,?_⟩
    rw [byteAt,stored,byte,sectorWord_byte _ _ _ (Nat.mod_lt _ (by decide)),offset]
  · intro past
    rw [byteAt,byteAt,beyond past]

namespace Kernel

variable {L : Layout} {ι : Type} {k after : Kernel L ι} {t : Spaces} {reads : DiskReads} {name : Nat → Byte}
  {heap : HeapGrants}

open KernelState (Lists numPages sectorLba)

/-- What the thread of a loaded program has at the load base, page after page: the sectors of the
program as they were read, behind them what the last frame had before, and then nothing. -/
theorem loadProgram_bytes (represents : k.paging.Represents t) (frugal : k.paging.Frugal)
    (loaded : k.loadProgram name reads heap = (after,0)) : ∃ found, Lists reads name found ∧
      numPages found ≤ frameCount ∧ ∀ b,
      let dir := after.threads.tasks.pageDirectory heap.tcb
      (b / pageSize < numPages found → ∃ pa, frameStart ≤ pa ∧
        translate after.paging.ram dir (progLoadBase + b) = some (pa,true) ∧
        mayWrite after.paging.ram dir (progLoadBase + b) = true ∧
        (b / sectorSize < found.sectors → ∃ sector,
          reads (2 + b / sectorSize) (sectorLba found (b / sectorSize)) = some sector ∧
          byteAt after.paging.ram pa = sector (b % sectorSize)) ∧
        (found.sectors ≤ b / sectorSize → byteAt after.paging.ram pa = byteAt k.paging.ram pa)) ∧
      (numPages found ≤ b / pageSize → b / pageSize < frameCount →
        translate after.paging.ram dir (progLoadBase + b) = none) := by
  obtain ⟨spaces,_,_,_,failed | ⟨found,d,n,listed,directory,loading,_,all,pages⟩⟩ :=
    loadProgram_loads represents frugal loaded
  · exact absurd failed.2 (by decide)
  obtain rfl := all rfl
  have room := Nat.le_trans loading.room after.paging.framesHeld_le
  refine ⟨found,listed,room,fun b => ?_⟩
  dsimp only
  rw [directory]
  constructor
  · intro inside
    obtain ⟨f,_,walk,holds⟩ := pages _ inside
    obtain ⟨aligned,above,_⟩ := frameAddress_placed f
    have reached := loading.translate_code loading.used (Nat.lt_of_lt_of_le inside room)
    rw [walk,Option.map_some] at reached
    obtain ⟨within,beyond⟩ := (holds rfl).bytes aligned
    obtain ⟨row,column⟩ := codeAddress_byte (Nat.lt_of_lt_of_le inside room)
    rw [← row,← column] at walk
    exact ⟨_,by omega,reached,loading.mayWrite walk,within,beyond⟩
  · intro past inside
    rw [loading.translate_code loading.used inside,loading.blank _ past inside,Option.map_none]

theorem booted_with (L : Layout) (ι : Type) (word : Word) : ∃ k : Kernel L ι, k.Booted ∧
    (∀ d, k.paging.pdUsed d = false) ∧ k.paging.framesHeld = 0 ∧
    ∀ a, frameStart ≤ a → k.paging.ram a = word := by
  let first : Paging L :=
    ⟨fun a => if a < frameStart then 0 else word,0,fun _ => false,fun _ => 0,fun _ => false,0,[]⟩
  have static : first.Static := by
    refine ⟨fun j inside => if_pos ?_,fun _ => rfl,fun _ => rfl,fun _ => rfl,rfl⟩
    have below := L.cell_below .kernelDirectory (a := L.pageDirStorage + 4 * j) inside
    exact Nat.lt_of_not_le (fun above => below above rfl)
  obtain ⟨paging,done,_,directories,_,bitmap,ram⟩ := Paging.initPaging_spec static 8193
  refine ⟨⟨paging,sampleThreads,[],default⟩,⟨⟨Nat.succ_ne_zero 6,rfl,rfl,rfl,rfl,fun _ => rfl⟩,_,_,static,done⟩,
    fun d => congrFun directories d,?_,?_⟩
  · refine (Paging.framesHeld_congr (s := first) bitmap).trans ?_
    exact marks_clear (fun f => by simp [first,bitmapGet])
  · intro a above
    exact (ram a above).trans (if_neg (Nat.not_lt.mpr above))

/-- The thread can write to the byte at `va`, and finds `byte` there. -/
def Sees (k : Kernel L ι) (tcb va : Nat) (byte : Byte) : Prop :=
  ∃ pa, translate k.paging.ram (k.threads.tasks.pageDirectory tcb) va = some (pa,true) ∧
    mayWrite k.paging.ram (k.threads.tasks.pageDirectory tcb) va = true ∧ byteAt k.paging.ram pa = byte

end Kernel

namespace CreateImage

open KernelState (Lists numPages sectorLba)

def DiskHolds (reads : DiskReads) (image : File) : Prop :=
  ∀ n lba sector, reads n lba = some sector → ∀ j < 512, 512 * lba + j < image.length →
    sector j = image.getD (512 * lba + j) 0

structure Describes (found : ProgramDirEntry) (kern : FileInfo) (users : List FileInfo) (i : Nat)
    (user : FileInfo) : Prop where
  lba : found.lba = lbaAfter (add32 (progDirLba kern) 1) (users.take i)
  sectors : found.sectors = sectorCount user.strippedSize
  entry : found.entry = user.entry % 2^32

section Disk

variable {host : Host} {behind : Nat → Nat → Byte} {bb : File} {kern user : FileInfo} {users : List FileInfo}
  {paths : List CString} {reads : DiskReads} {name : Nat → Byte} {found : ProgramDirEntry} {i : Nat}
  {path : CString}

variable (sound : Sound bb kern users) (parsed : Parsed kern users)
  (holds : DiskHolds reads (writtenImage behind bb kern users))

include sound parsed holds

theorem Sound.readProgDirLba {sector : Sector} (read : reads 0 0 = some sector) :
    Kernel.readProgDirLba reads = progDirLba kern ∧ progDirLba kern ≠ 0 := by
  obtain ⟨boot,lba,few,size⟩ := sound.kernel_sectors parsed behind
  have long := length_writtenImage behind bb kern users
  have word : sectorWord sector RudimentaryKernel.progDirLoc = BitVec.ofNat 32 (progDirLba kern) := by
    refine sectorWord_eq (fun j inside => ?_)
    rw [RudimentaryKernel.progDirLoc,holds 0 0 sector read _ (by omega) (by omega),Nat.mul_zero,Nat.zero_add,
      writtenImage,(patch_getD (programs_long ..) _).2,if_neg (by omega),if_pos (by omega),
      Nat.add_sub_cancel_left]
  rw [Kernel.readProgDirLba,read]
  dsimp only
  rw [word,BitVec.toNat_ofNat,Nat.mod_eq_of_lt (by omega)]
  exact ⟨rfl,by omega⟩

theorem Sound.directory_read {n : Nat} {dir : Sector} (read : reads n (progDirLba kern) = some dir) :
    ∀ j < 512, dir j = (dirSector (add32 (progDirLba kern) 1) users).getD j 0 := by
  obtain ⟨boot,lba,few,size⟩ := sound.kernel_sectors parsed behind
  have long := length_writtenImage behind bb kern users
  intro j inside
  rw [holds _ _ dir read j inside (by omega),sound.image_directory parsed behind inside]

/-- What `load_program` takes from the directory is the first program that answers to the name. -/
theorem Sound.lists_selects (opened : List.Forall₂ (Opened host) paths users)
    (named : ∀ path ∈ paths, basenameSimple path ≠ []) (lists : Lists reads name found) :
    ∃ i path user, Selects paths name i path ∧ users[i]? = some user ∧ Describes found kern users i user := by
  obtain ⟨start,dir,read,search⟩ := lists
  cases bootblock : reads 0 0 with
  | none =>
    rw [Kernel.readProgDirLba,bootblock] at start
    exact absurd rfl start
  | some sector =>
    rw [(sound.readProgDirLba parsed holds bootblock).1] at read
    have listing := sound.directory_read parsed holds read
    rcases findProgram_selects name listing opened named maxEntries (Nat.zero_add _)
      (fun j before => absurd before (Nat.not_lt_zero j)) with ⟨i,path,user,selects,here,result⟩ | ⟨_,none⟩
    · obtain rfl := Option.some.inj (search.symm.trans result)
      have listed : (users.take maxEntries)[i]? = some user := by
        rw [List.getElem?_take_of_lt selects.room,here]
      obtain ⟨few,_,_⟩ := sound.image_program parsed behind listed
      obtain ⟨_,lba,sectors,entry⟩ := dirSector_entry _ listing listed
      rw [Nat.mod_eq_of_lt (by omega)] at lba sectors
      exact ⟨i,path,user,selects,here,lba,sectors,entry⟩
    · exact absurd (search.symm.trans none) (Option.some_ne_none _)

theorem Sound.selects_listed (opened : List.Forall₂ (Opened host) paths users)
    (named : ∀ path ∈ paths, basenameSimple path ≠ []) (readable : ∀ n lba, ∃ sector, reads n lba = some sector)
    (selects : Selects paths name i path) : ∃ found, Lists reads name found := by
  obtain ⟨sector,bootblock⟩ := readable 0 0
  obtain ⟨same,positive⟩ := sound.readProgDirLba parsed holds bootblock
  obtain ⟨dir,read⟩ := readable 1 (progDirLba kern)
  have listing := sound.directory_read parsed holds read
  rcases findProgram_selects name listing opened named maxEntries (Nat.zero_add _)
    (fun j before => absurd before (Nat.not_lt_zero j)) with ⟨l,_,_,_,_,result⟩ | ⟨missing,_⟩
  · exact ⟨_,by rwa [same],dir,by rwa [same],result⟩
  · exact absurd selects.answers (missing i selects.room path selects.at_place)

theorem Sound.program_read (listed : (users.take maxEntries)[i]? = some user)
    (describes : Describes found kern users i user) {b n : Nat} {sector : Sector}
    (inside : b / 512 < found.sectors) (read : reads n (sectorLba found (b / 512)) = some sector) :
    sector (b % 512) = (block (behind (1 + i)) user).getD b 0 := by
  obtain ⟨few,ends,contents⟩ := sound.image_program parsed behind listed
  have place := describes.lba
  have size := describes.sectors
  have eight : sectorsPerPage = 8 := by decide
  have lba : sectorLba found (b / 512) = found.lba + b / 512 := by
    rw [sectorLba,eight,add32_eq (a := found.lba) (by omega),add32_eq (by omega)]
    omega
  have offset : 512 * (found.lba + b / 512) + b % 512 = 512 * found.lba + b := by omega
  rw [lba] at read
  rw [holds _ _ sector read _ (Nat.mod_lt _ (by decide)) (by omega),offset,place]
  exact contents b (by omega)

/-- A program that has been loaded is in its place up to the end of its last sector. -/
theorem Sound.loaded {L : Layout} {ι : Type} {k after : Kernel L ι} {t : Spaces} {heap : HeapGrants}
    (opened : List.Forall₂ (Opened host) paths users) (named : ∀ path ∈ paths, basenameSimple path ≠ [])
    (represents : k.paging.Represents t) (frugal : k.paging.Frugal)
    (loaded : k.loadProgram name reads heap = (after,0)) : ∃ i path user found,
      Selects paths name i path ∧ users[i]? = some user ∧ Lists reads name found ∧
      Describes found kern users i user ∧
      ∀ b, b / pageSize < numPages found → b / 512 < found.sectors →
        after.Sees heap.tcb (progLoadBase + b) ((block (behind (1 + i)) user).getD b 0) := by
  obtain ⟨found,lists,_,bytes⟩ := Kernel.loadProgram_bytes represents frugal loaded
  obtain ⟨i,path,user,selects,here,describes⟩ := sound.lists_selects parsed holds opened named lists
  refine ⟨i,path,user,found,selects,here,lists,describes,fun b within inside => ?_⟩
  obtain ⟨pa,_,reached,writable,contents,_⟩ := (bytes b).1 within
  obtain ⟨sector,read,stored⟩ := contents inside
  have listed : (users.take maxEntries)[i]? = some user := by rw [List.getElem?_take_of_lt selects.room,here]
  exact ⟨pa,reached,writable,stored.trans (sound.program_read parsed holds listed describes inside read)⟩

end Disk

theorem numPages_wrapped (found : ProgramDirEntry) : numPages found = (found.sectors + 7) / 8 % 2^20 := by
  rw [numPages,add32]
  unfold sectorSize pageSize
  omega

theorem numPages_eq (found : ProgramDirEntry) (fits : 512 * found.sectors + 4095 < 2^32) :
    numPages found = (found.sectors + 7) / 8 := by
  rw [numPages_wrapped,Nat.mod_eq_of_lt (by omega)]

theorem block_byte {stop b : Nat} {user : FileInfo} (measured : Measured user stop) (within : Within user.fd)
    (behind : Nat → Byte) (inside : (b : Int) < user.strippedSize) :
    (block behind user).getD b 0 = user.fd.getD (user.startOffset + b) 0 := by
  obtain ⟨length,_,_,padded,_⟩ := block_whole measured within.whole behind
  rw [padded,getD_append_zeros,copied,getD_take (by omega),getD_drop]

theorem Opened.entry {host : Host} {path : CString} {user : FileInfo} (opened : Opened host path user) :
    user.entry = (elf32Ehdr (user.fd.take ehdrSize)).entry := by
  obtain ⟨fd,info,_,parsed,rfl⟩ := opened
  obtain ⟨same,entry,_⟩ := fillMetadata_measured parsed
  dsimp only
  rw [entry,same]

def wholeDisk (image : File) : DiskReads := fun _ lba => some (fun j => image.getD (512 * lba + j) 0)

theorem wholeDisk_holds (image : File) : DiskHolds (wholeDisk image) image := by
  intro n lba sector read j _ _
  rw [← Option.some.inj read]

theorem Sound.fresh_load {bb : File} {kern user : FileInfo} {users : List FileInfo} {host : Host}
    {paths : List CString} {path : CString} {name : Nat → Byte} {i : Nat} (sound : Sound bb kern users)
    (parsed : Parsed kern users) (behind : Nat → Nat → Byte) (opened : List.Forall₂ (Opened host) paths users)
    (named : ∀ path ∈ paths, basenameSimple path ≠ []) (selects : Selects paths name i path)
    (here : users[i]? = some user) (budget : (sectorCount user.strippedSize + 7) / 8 < frameCount)
    (L : Layout) (ι : Type) (word : Word) : ∃ k after : Kernel L ι, k.Booted ∧
      (∀ a, frameStart ≤ a → k.paging.ram a = word) ∧
      k.loadProgram name (wholeDisk (writtenImage behind bb kern users)) ⟨0x120000,0,0x130000⟩ = (after,0) := by
  have holds := wholeDisk_holds (writtenImage behind bb kern users)
  obtain ⟨k,booted,directories,frames,ram⟩ := Kernel.booted_with L ι word
  obtain ⟨found,lists⟩ := sound.selects_listed parsed holds opened named (fun n lba => ⟨_,rfl⟩) selects
  obtain ⟨j,_,other,again,there,describes⟩ := sound.lists_selects parsed holds opened named lists
  obtain ⟨rfl,rfl⟩ := selects.unique again
  obtain rfl := Option.some.inj (here.symm.trans there)
  obtain ⟨returns,_⟩ := Kernel.loadProgram_returns _ _ k ⟨0x120000,0,0x130000⟩ lists
  have few : frameCount = 6144 := rfl
  have size := describes.sectors
  have pages := numPages_eq found (by omega)
  refine ⟨k,_,booted,ram,Prod.ext rfl (returns.mpr ?_)⟩
  exact ⟨by decide,by decide,⟨0,by decide,directories 0⟩,by decide,by omega,fun j _ _ => rfl⟩

/-- The image of `createimage` and `load_program` agree. When the call returns 0, the new thread
starts at the entry point of the first program that answers to the name and can write to the bytes
of its file; when no program answers, the call returns -1. -/
theorem loaded_as_written {L : Layout} {ι : Type} [DecidableEq ι] {bb : File} {kern : FileInfo}
    {paths : List CString} {users : List FileInfo} (host : Host) (argv : List CString)
    (given : Given host argv bb kern paths users) (creates : host.creates = true)
    (boot : bb.length = sectorSize) (kernel : Within kern.fd) (programs : ∀ user ∈ users, Within user.fd)
    (named : ∀ path ∈ paths, basenameSimple path ≠ []) (small : ∀ user ∈ users, user.strippedSize < 0x1800000) :
    ∃ image, (CreateImage.main host argv).image = some image ∧
    ∀ (k after : Kernel L ι) (name : Nat → Byte) (reads : DiskReads) (heap : HeapGrants) (result : Int),
      Reach Kernel.Booted Kernel.Does k → DiskHolds reads image →
      k.loadProgram name reads heap = (after,result) →
      (result = 0 → ∃ i path user found, Selects paths name i path ∧ users[i]? = some user ∧
        Lists reads name found ∧
        (∀ os : KernelImage,
          (os.startFrame (after.firstFrames heap.tcb)).ebx.toNat = (elf32Ehdr (user.fd.take ehdrSize)).entry ∧
          (os.startFrame (after.firstFrames heap.tcb)).esi.toNat = Kernel.userStackPointer ∧
          (os.startFrame (after.firstFrames heap.tcb)).returnEip = os.uthreadTrampoline) ∧
        ∀ b : Nat, (b : Int) < user.strippedSize →
          after.Sees heap.tcb (progLoadBase + b) (user.fd.getD (user.startOffset + b) 0)) ∧
      ((∀ i < maxEntries, ∀ path, paths[i]? = some path → ¬Matches path name) → result = -1) := by
  refine ⟨_,(given.main creates).2,?_⟩
  intro k after name reads heap result reached holds outcome
  have parsed := given.parsed
  have opened := given.opened
  have sound := Sound.of_within boot kernel programs
  obtain ⟨t,represents,frugal⟩ := Kernel.reached_orderly reached
  constructor
  · rintro rfl
    obtain ⟨i,path,user,found,selects,here,lists,describes,sees⟩ :=
      sound.loaded parsed holds opened named represents frugal outcome
    have member := List.mem_of_getElem? here
    obtain ⟨_,measured⟩ := parsed.programs user member
    obtain ⟨_,sectors,_⟩ := block_whole measured (programs user member).whole (host.behind (1 + i))
    have bound := small user member
    have size := describes.sectors
    refine ⟨i,path,user,found,selects,here,lists,fun os => ?_,fun b inside => ?_⟩
    · obtain ⟨within,same⟩ := List.getElem?_eq_some_iff.mp here
      have program := (opened.get (by rwa [opened.length_eq]) within).entry
      rw [List.get_eq_getElem,same] at program
      rw [Kernel.loadProgram_firstFrame lists outcome]
      have stack : (BitVec.ofNat 32 (BitVec.ofNat 32 Kernel.userStackPointer).toNat).toNat =
          Kernel.userStackPointer := by decide
      refine ⟨?_,stack,rfl⟩
      change (BitVec.ofNat 32 found.entry).toNat = _
      rw [BitVec.toNat_ofNat,describes.entry,Nat.mod_mod,program]
      exact Nat.mod_eq_of_lt (BitVec.isLt _)
    · have pages := numPages_eq found (by omega)
      rw [← block_byte measured (programs user member) (host.behind (1 + i)) inside]
      refine sees b ?_ (by omega)
      rw [pages]
      unfold pageSize
      omega
  · intro missing
    have unlisted : ¬∃ found, Lists reads name found := by
      rintro ⟨found,lists⟩
      obtain ⟨i,path,_,selects,_⟩ := sound.lists_selects parsed holds opened named lists
      exact missing i selects.room path selects.at_place selects.answers
    obtain ⟨_,same⟩ := Kernel.loadProgram_unlisted k heap unlisted
    exact (Prod.mk.inj (outcome.symm.trans same)).2

/-- Where `load_program` finds a program, how long it is and where it begins is what `main` has printed
of it. -/
theorem listed_as_printed {bb : File} {kern : FileInfo} {paths : List CString} {users : List FileInfo} {image : File}
    {reads : DiskReads} {name : Nat → Byte} {found : ProgramDirEntry} {host : Host} {argv : List CString}
    (given : Given host argv bb kern paths users) (creates : host.creates = true) (boot : bb.length = sectorSize)
    (kernel : Within kern.fd) (programs : ∀ user ∈ users, Within user.fd) (named : ∀ path ∈ paths, basenameSimple path ≠ [])
    (written : (CreateImage.main host argv).image = some image) (holds : DiskHolds reads image)
    (lists : Lists reads name found) :
    ∃ user ∈ users, found.entry = user.entry % 2^32 ∧
      ⟨"USER: %-16s  lba=%-4u  sectors=%-4u  entry=0x%x\n",[found.lba,found.sectors,user.entry],
        [user.name.takeWhile (· != 0)]⟩ ∈ (CreateImage.main host argv).console := by
  obtain ⟨lines,built⟩ := given.build creates
  rw [built] at written ⊢
  obtain rfl := Option.some.inj written
  obtain ⟨i,path,user,selects,here,describes⟩ :=
    (Sound.of_within boot kernel programs).lists_selects given.parsed holds given.opened named lists
  have listed : (users.take maxEntries)[i]? = some user := by rw [List.getElem?_take_of_lt selects.room,here]
  have line := userLines_getElem? (add32 (progDirLba kern) 1) (users.take maxEntries) i
  rw [listed,Option.map_some,List.take_take,Nat.min_eq_left (Nat.le_of_lt selects.room),← describes.lba,
    ← describes.sectors] at line
  exact ⟨user,List.mem_of_getElem? here,describes.entry,List.mem_append_left _ (List.mem_of_getElem? line)⟩

theorem sampleBootblock_whole : sampleBootblock.length = sectorSize := by decide +kernel

theorem sample_selects : Selects [⟨[0x61],by decide⟩] KernelState.sampleName 0 ⟨[0x61],by decide⟩ :=
  ⟨by decide,rfl,rfl,fun j before => absurd before (Nat.not_lt_zero j)⟩

theorem sample_named : ∀ path ∈ [(⟨[0x61],by decide⟩ : CString)], basenameSimple path ≠ [] := by
  intro path member
  obtain rfl := List.mem_singleton.mp member
  decide

/-- The program of one byte is there when it has been loaded, and its thread starts at it. -/
theorem sample_program_loaded : ∃ (image : File) (k after : Kernel Kernel.sampleLayout Unit),
    (CreateImage.main (sampleHost sampleBootblock (sampleElf 2 2 [1,2]) (sampleElf 1 1 [3])) sampleArgv).image =
      some image ∧
    Reach Kernel.Booted Kernel.Does k ∧
    k.loadProgram KernelState.sampleName (wholeDisk image) ⟨0x120000,0,0x130000⟩ = (after,0) ∧
    (∀ os : KernelImage, (os.startFrame (after.firstFrames 0x120000)).ebx.toNat = 0x08048000) ∧
    after.Sees 0x120000 progLoadBase 3 := by
  have given := sample_given (sampleElf 1 1 [3]) (sampleElf 2 2 [1,2]) (sampleInfo 2 2 [1,2] _)
    (sampleInfo 1 1 [3] _) rfl rfl
  have programs : ∀ user ∈ [sampleInfo 1 1 [3] sampleField], Within user.fd :=
    List.forall_mem_singleton.mpr sample_program_within
  have small : ∀ user ∈ [sampleInfo 1 1 [3] sampleField], user.strippedSize < 0x1800000 :=
    List.forall_mem_singleton.mpr (by decide)
  obtain ⟨image,written,agrees⟩ := loaded_as_written (ι := Unit) _ _ given rfl sampleBootblock_whole
    sample_kernel_within programs sample_named small
  obtain rfl := Option.some.inj ((given.main rfl).2.symm.trans written)
  have sound : Sound sampleBootblock (sampleInfo 2 2 [1,2] (List.replicate 16 0)) [sampleInfo 1 1 [3] sampleField] :=
    .of_within sampleBootblock_whole sample_kernel_within programs
  obtain ⟨k,after,booted,_,loaded⟩ := sound.fresh_load given.parsed (fun _ _ => 0) given.opened sample_named
    sample_selects rfl (by decide) Kernel.sampleLayout Unit 0
  obtain ⟨i,path,user,found,again,here,_,starts,sees⟩ :=
    (agrees k after _ _ _ 0 (.start booted) (wholeDisk_holds _) loaded).1 rfl
  obtain ⟨rfl,rfl⟩ := sample_selects.unique again
  obtain rfl := Option.some.inj here
  exact ⟨_,k,after,written,.start booted,loaded,fun os => (starts os).1,sees 0 (by decide)⟩

end CreateImage

end RudimentaryKernel
