import RudimentaryKernel.LoadedPrograms

/-! What a program finds behind its file bytes. `createimage` fills the last sector with zeros and
does not look at `p_memsz`; `load_program` takes no pages for what is not in the file, and clears
nothing. -/
namespace RudimentaryKernel.CreateImage

open ByteBlocks
open KernelState (Lists numPages sectorLba)

/-- The thread has the segment in its memory as the header says: the bytes of the file, and zeros up
to `p_memsz`. -/
def SeesSegment {L : Layout} {ι : Type} (k : Kernel L ι) (tcb : Nat) (fd : File) (segment : Elf32Phdr) : Prop :=
  ∀ b < segment.memsz,
    k.Sees tcb (segment.vaddr + b) (if b < segment.filesz then fd.getD (segment.offset + b) 0 else 0)

variable {host : Host} {bb : File} {kern user : FileInfo} {users : List FileInfo} {paths : List CString}
  {segment : Elf32Phdr}

theorem Measured.single {stop : Nat} (measured : Measured user stop) (within : Within user.fd)
    (single : loads user.fd = [segment]) :
    user.startOffset = segment.offset ∧ user.strippedSize = segment.filesz := by
  have starts := measured.starts
  have stops := measured.stops
  rw [firstOffset,single] at starts
  rw [lastEnd,single] at stops
  have start : segment.offset = user.startOffset := Option.some.inj starts
  have ends : segment.offset + segment.filesz = stop := Option.some.inj stops
  have fits := (within segment (by rw [single]; exact List.mem_singleton_self _)).2
  refine ⟨start.symm,?_⟩
  rw [measured.size (by omega)]
  omega

theorem block_single {stop : Nat} (measured : Measured user stop) (within : Within user.fd)
    (single : loads user.fd = [segment]) (behind : Nat → Byte) (b : Nat) :
    sectorCount user.strippedSize = (segment.filesz + 511) / 512 ∧
    (block behind user).getD b 0 = if b < segment.filesz then user.fd.getD (segment.offset + b) 0 else 0 := by
  obtain ⟨start,size⟩ := measured.single within single
  obtain ⟨length,count,_,padded,_⟩ := block_whole measured within.whole behind
  rw [size,Int.toNat_natCast] at length
  refine ⟨by rw [count,size,Int.toNat_natCast],?_⟩
  split
  · rename_i inside
    rw [block_byte measured within behind (by omega),start]
  · rename_i beyond
    rw [padded,getD_append_zeros,List.getD_eq_default _ _ (by omega)]

theorem byteAt_ones {ram : Ram} {a : Nat} (ones : ∀ a, frameStart ≤ a → ram a = BitVec.allOnes 32)
    (above : frameStart ≤ a) : byteAt ram a ≠ 0 := by
  have aligned : frameStart % 4 = 0 := rfl
  have bit : (byteAt ram a).getLsbD 0 = true := by
    rw [byteAt,ones _ (by omega),BitVec.getLsbD_extractLsb',BitVec.getLsbD_allOnes]
    simp
    omega
  intro zero
  rw [zero] at bit
  exact absurd bit (by decide)

/-- Behind the last sector of the file bytes there is no page, or the last frame as it was. -/
theorem Sound.tail_stale {L : Layout} {ι : Type} {name : Nat → Byte} {i : Nat} {path : CString}
    (sound : Sound bb kern users) (parsed : Parsed kern users) (behind : Nat → Nat → Byte)
    (opened : List.Forall₂ (Opened host) paths users) (named : ∀ path ∈ paths, basenameSimple path ≠ [])
    (selects : Selects paths name i path) (here : users[i]? = some user) (within : Within user.fd)
    (single : loads user.fd = [segment]) (more : 512 * ((segment.filesz + 511) / 512) < (frameCount - 1) * pageSize) :
    ∃ k after : Kernel L ι, k.Booted ∧
      k.loadProgram name (wholeDisk (writtenImage behind bb kern users)) ⟨0x120000,0,0x130000⟩ = (after,0) ∧
      ¬after.Sees 0x120000 (progLoadBase + 512 * ((segment.filesz + 511) / 512)) 0 := by
  have most : 512 * ((segment.filesz + 511) / 512) < 6143 * 4096 := more
  have holds := wholeDisk_holds (writtenImage behind bb kern users)
  obtain ⟨_,measured⟩ := parsed.programs user (List.mem_of_getElem? here)
  have sectors := (block_single measured within single (behind (1 + i)) 0).1
  obtain ⟨k,after,booted,ones,loaded⟩ := sound.fresh_load parsed behind opened named selects here
    (by rw [sectors]; change _ < 6144; omega) L ι (BitVec.allOnes 32)
  refine ⟨k,after,booted,loaded,?_⟩
  rintro ⟨pa,reached,_,zero⟩
  obtain ⟨t,represents,frugal⟩ := Kernel.booted_orderly booted
  obtain ⟨found,lists,_,bytes⟩ := Kernel.loadProgram_bytes represents frugal loaded
  obtain ⟨j,_,other,again,there,describes⟩ := sound.lists_selects parsed holds opened named lists
  obtain ⟨rfl,rfl⟩ := selects.unique again
  obtain rfl := Option.some.inj (here.symm.trans there)
  have size := describes.sectors.trans sectors
  generalize last : 512 * ((segment.filesz + 511) / 512) = b at most reached
  by_cases inside : b / pageSize < numPages found
  · obtain ⟨pa',above,reached',_,_,stale⟩ := (bytes b).1 inside
    obtain rfl : pa' = pa := congrArg Prod.fst (Option.some.inj (reached'.symm.trans reached))
    refine byteAt_ones ones above ((stale ?_).symm.trans zero)
    change _ ≤ b / 512
    omega
  · have unmapped := (bytes b).2 (Nat.le_of_not_lt inside) (by change b / 4096 < 6144; omega)
    exact absurd (unmapped.symm.trans reached) (Option.some_ne_none _).symm

/-- A loaded program has its segment in memory, whatever the frames had in them, just when the
segment ends with the last sector of its file bytes or before. -/
theorem memory_image_iff {L : Layout} {ι : Type} [DecidableEq ι] {name : Nat → Byte} {i : Nat} {path : CString}
    (host : Host) (argv : List CString) (given : Given host argv bb kern paths users)
    (creates : host.creates = true) (boot : bb.length = sectorSize) (kernel : Within kern.fd)
    (programs : ∀ user ∈ users, Within user.fd) (named : ∀ path ∈ paths, basenameSimple path ≠ [])
    (selects : Selects paths name i path) (here : users[i]? = some user) (single : loads user.fd = [segment])
    (base : segment.vaddr = progLoadBase) (ordered : segment.filesz ≤ segment.memsz)
    (budget : segment.memsz ≤ (frameCount - 1) * pageSize) :
    ∃ image, (CreateImage.main host argv).image = some image ∧
      ((∀ (k after : Kernel L ι) (reads : DiskReads) (heap : HeapGrants),
        Reach Kernel.Booted Kernel.Does k → DiskHolds reads image →
        k.loadProgram name reads heap = (after,0) → SeesSegment after heap.tcb user.fd segment) ↔
      segment.memsz ≤ 512 * ((segment.filesz + 511) / 512)) := by
  refine ⟨_,(given.main creates).2,?_⟩
  have parsed := given.parsed
  have opened := given.opened
  have sound := Sound.of_within boot kernel programs
  have member := List.mem_of_getElem? here
  obtain ⟨_,measured⟩ := parsed.programs user member
  have contents := block_single measured (programs user member) single (host.behind (1 + i))
  have sectors := (contents 0).1
  constructor
  · intro all
    by_contra more
    obtain ⟨k,after,booted,loaded,unseen⟩ := sound.tail_stale (L := L) (ι := ι) parsed host.behind opened named
      selects here (programs user member) single (by omega)
    refine unseen ?_
    have sees := all k after _ _ (.start booted) (wholeDisk_holds _) loaded _ (Nat.lt_of_not_le more)
    rwa [base,if_neg (by omega)] at sees
  · intro short k after reads heap reached holds loaded b inside
    obtain ⟨t,represents,frugal⟩ := Kernel.reached_orderly reached
    obtain ⟨j,_,other,found,again,there,_,describes,sees⟩ :=
      sound.loaded parsed holds opened named represents frugal loaded
    obtain ⟨rfl,rfl⟩ := selects.unique again
    obtain rfl := Option.some.inj (here.symm.trans there)
    have size := describes.sectors.trans sectors
    have most : segment.memsz ≤ 6143 * 4096 := budget
    have pages := numPages_eq found (by omega)
    rw [base,← (contents b).2]
    refine sees b ?_ (by omega)
    rw [pages]
    unfold pageSize
    omega

/-- One byte in the file and 512 in memory: all of them are there in frames that were full of ones. -/
theorem sample_segment_seen : ∃ (image : File) (k after : Kernel Kernel.sampleLayout Unit),
    (CreateImage.main (sampleHost sampleBootblock (sampleElf 2 2 [1,2]) (sampleElf 1 512 [3])) sampleArgv).image =
      some image ∧
    Reach Kernel.Booted Kernel.Does k ∧ (∀ a, frameStart ≤ a → k.paging.ram a = BitVec.allOnes 32) ∧
    k.loadProgram KernelState.sampleName (wholeDisk image) ⟨0x120000,0,0x130000⟩ = (after,0) ∧
    SeesSegment after 0x120000 (sampleElf 1 512 [3]) ⟨1,84,0x08048000,1,512⟩ := by
  have given := sample_given (sampleElf 1 512 [3]) (sampleElf 2 2 [1,2]) (sampleInfo 2 2 [1,2] _)
    (sampleInfo 1 512 [3] _) rfl rfl
  have single : loads (sampleElf 1 512 [3]) = [⟨1,84,0x08048000,1,512⟩] := rfl
  have within : Within (sampleElf 1 512 [3]) := within_single _ single (by decide) (by decide)
  have sound : Sound sampleBootblock (sampleInfo 2 2 [1,2] (List.replicate 16 0))
      [sampleInfo 1 512 [3] sampleField] :=
    .of_within sampleBootblock_whole sample_kernel_within (List.forall_mem_singleton.mpr within)
  obtain ⟨k,after,booted,ones,loaded⟩ := sound.fresh_load given.parsed (fun _ _ => 0) given.opened sample_named
    sample_selects rfl (by decide) Kernel.sampleLayout Unit (BitVec.allOnes 32)
  obtain ⟨image,written,same⟩ := memory_image_iff (L := Kernel.sampleLayout) (ι := Unit) _ _ given rfl
    sampleBootblock_whole sample_kernel_within (List.forall_mem_singleton.mpr within) sample_named sample_selects rfl
    single rfl (by decide) (by decide)
  obtain rfl := Option.some.inj ((given.main rfl).2.symm.trans written)
  exact ⟨_,k,after,written,.start booted,ones,loaded,
    same.mpr (by decide) k after _ _ (.start booted) (wholeDisk_holds _) loaded⟩

/-- One byte in the file and 513 in memory: the last one is not zero. -/
theorem uninitialised_byte_not_zero : ∃ (image : File) (k after : Kernel Kernel.sampleLayout Unit),
    loads (sampleElf 1 513 [3]) = [⟨1,84,0x08048000,1,513⟩] ∧
    (CreateImage.main (sampleHost sampleBootblock (sampleElf 2 2 [1,2]) (sampleElf 1 513 [3])) sampleArgv).image =
      some image ∧
    Reach Kernel.Booted Kernel.Does k ∧ DiskHolds (wholeDisk image) image ∧
    k.loadProgram KernelState.sampleName (wholeDisk image) ⟨0x120000,0,0x130000⟩ = (after,0) ∧
    ¬after.Sees 0x120000 (progLoadBase + 512) 0 ∧
    ¬SeesSegment after 0x120000 (sampleElf 1 513 [3]) ⟨1,84,0x08048000,1,513⟩ := by
  have given := sample_given (sampleElf 1 513 [3]) (sampleElf 2 2 [1,2]) (sampleInfo 2 2 [1,2] _)
    (sampleInfo 1 513 [3] _) rfl rfl
  have single : loads (sampleElf 1 513 [3]) = [⟨1,84,0x08048000,1,513⟩] := rfl
  have within : Within (sampleElf 1 513 [3]) := within_single _ single (by decide) (by decide)
  have sound : Sound sampleBootblock (sampleInfo 2 2 [1,2] (List.replicate 16 0))
      [sampleInfo 1 513 [3] sampleField] :=
    .of_within sampleBootblock_whole sample_kernel_within (List.forall_mem_singleton.mpr within)
  obtain ⟨k,after,booted,loaded,unseen⟩ := sound.tail_stale (L := Kernel.sampleLayout) (ι := Unit) given.parsed
    (fun _ _ => 0) given.opened sample_named sample_selects rfl within single (by decide)
  exact ⟨_,k,after,single,(given.main rfl).2,.start booted,wholeDisk_holds _,loaded,unseen,
    fun sees => unseen (sees 512 (by decide))⟩

end RudimentaryKernel.CreateImage
