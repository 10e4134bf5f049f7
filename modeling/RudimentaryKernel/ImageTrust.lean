import RudimentaryKernel.ImageLayout

/-! What the exit status of `createimage` is worth, and what its patches do to the bootblock. -/
namespace RudimentaryKernel.CreateImage

open ByteBlocks

variable {host : Host} {argv : List CString} {behind : Nat → Nat → Byte} {bb : File} {kern user : FileInfo}
  {users : List FileInfo} {paths : List CString}

def Opened (host : Host) (path : CString) (user : FileInfo) : Prop :=
  ∃ fd info, host.files path.chars = some fd ∧ fillMetadata fd = .ok info ∧
    user = { info with name := strncpy (basenameSimple path) 15 ++ [0] }

/-- The command line names these files, and `fill_metadata` accepts the kernel and the programs. -/
def Given (host : Host) (argv : List CString) (bb : File) (kern : FileInfo) (paths : List CString)
    (users : List FileInfo) : Prop :=
  ∃ bootblock kernel, operands argv = bootblock :: kernel :: paths ∧ host.files bootblock.chars = some bb ∧
    (∃ fd, host.files kernel.chars = some fd ∧ fillMetadata fd = .ok kern) ∧ openUsers host paths = .ok users

theorem openUsers_opened (done : openUsers host paths = .ok users) :
    List.Forall₂ (Opened host) paths users := by
  induction paths generalizing users with
  | nil =>
    obtain rfl := Except.ok.inj done
    exact .nil
  | cons path rest ih =>
    rw [openUsers] at done
    cases file : host.files path.chars with
    | none =>
      rw [file] at done
      contradiction
    | some fd =>
      rw [file] at done
      dsimp only at done
      cases parsed : fillMetadata fd with
      | error lines =>
        rw [parsed] at done
        contradiction
      | ok info =>
        rw [parsed] at done
        dsimp only at done
        cases others : openUsers host rest with
        | error lines =>
          rw [others] at done
          contradiction
        | ok later =>
          rw [others] at done
          obtain rfl := Except.ok.inj done
          exact .cons ⟨fd,info,file,parsed,rfl⟩ (ih others)

/-- `main` writes the image of what it was given, and prints what is in the directory. -/
theorem Given.build (given : Given host argv bb kern paths users) (creates : host.creates = true) :
    ∃ lines, CreateImage.main host argv = ⟨0,some (writtenImage host.behind bb kern users),
      userLines (add32 (progDirLba kern) 1) (users.take maxEntries) ++ lines⟩ := by
  obtain ⟨bootblock,kernel,arguments,boot,⟨fd,file,parsed⟩,opened⟩ := given
  unfold CreateImage.main
  rw [arguments]
  dsimp only
  unfold CreateImage.build
  rw [boot,file]
  dsimp only
  rw [parsed]
  dsimp only
  rw [opened]
  dsimp only
  rw [if_pos creates]
  exact ⟨_,rfl⟩

theorem Given.main (given : Given host argv bb kern paths users) (creates : host.creates = true) :
    (main host argv).status = 0 ∧ (main host argv).image = some (writtenImage host.behind bb kern users) := by
  obtain ⟨lines,built⟩ := given.build creates
  rw [built]
  exact ⟨rfl,rfl⟩

theorem main_returns (returned : (CreateImage.main host argv).status = 0) :
    host.creates = true ∧ ∃ bb kern paths users, Given host argv bb kern paths users := by
  unfold CreateImage.main at returned
  split at returned
  · rename_i bootblock kernel paths arguments
    unfold build at returned
    split at returned
    · rename_i bb fd boot file
      split at returned
      · exact absurd returned Int.one_ne_zero
      · rename_i kern parsed
        split at returned
        · exact absurd returned Int.one_ne_zero
        · rename_i users opened
          dsimp only at returned
          split at returned
          · rename_i creates
            exact ⟨creates,bb,kern,paths,users,bootblock,kernel,arguments,boot,⟨fd,file,parsed⟩,opened⟩
          · exact absurd returned Int.one_ne_zero
    · exact absurd returned Int.one_ne_zero
  · exact absurd returned Int.one_ne_zero

theorem Given.opened (given : Given host argv bb kern paths users) : List.Forall₂ (Opened host) paths users := by
  obtain ⟨_,_,_,_,_,opened⟩ := given
  exact openUsers_opened opened

theorem Given.parsed (given : Given host argv bb kern paths users) : Parsed kern users := by
  have both := given.opened
  obtain ⟨_,_,_,_,⟨fd,_,done⟩,_⟩ := given
  refine ⟨(fillMetadata_measured done).2.2,fun user member => ?_⟩
  obtain ⟨i,inside,rfl⟩ := List.mem_iff_getElem.mp member
  have within : i < paths.length := by rwa [both.length_eq]
  obtain ⟨file,info,_,parsed,same⟩ := both.get within inside
  obtain ⟨_,_,stop,measured⟩ := fillMetadata_measured parsed
  rw [List.get_eq_getElem] at same
  exact ⟨stop,by rw [same]; exact ⟨measured.starts,measured.stops,measured.low,measured.wraps,measured.size,measured.short⟩⟩

theorem Given.unique {bb' : File} {kern' : FileInfo} {paths' : List CString} {users' : List FileInfo}
    (first : Given host argv bb kern paths users) (second : Given host argv bb' kern' paths' users') :
    bb = bb' ∧ kern = kern' ∧ paths = paths' ∧ users = users' := by
  obtain ⟨_,_,arguments,boot,⟨fd,file,parsed⟩,opened⟩ := first
  obtain ⟨_,_,arguments',boot',⟨fd',file',parsed'⟩,opened'⟩ := second
  obtain ⟨rfl,rest⟩ := List.cons.inj (arguments.symm.trans arguments')
  obtain ⟨rfl,rfl⟩ := List.cons.inj rest
  obtain rfl := Option.some.inj (file.symm.trans file')
  exact ⟨Option.some.inj (boot.symm.trans boot'),Except.ok.inj (parsed.symm.trans parsed'),rfl,
    Except.ok.inj (opened.symm.trans opened')⟩

/-- What can be trusted: the kernel has been written from sector 1 on and the directory at its
sector, and the sectors of each entry have the range of the program's segments and then zeros. -/
structure Trustworthy (behind : Nat → Nat → Byte) (bb : File) (kern : FileInfo) (users : List FileInfo) :
    Prop where
  kernelStart : (bootStage bb).length = sectorSize
  directoryStart : (kernelStage behind bb kern).length = sectorSize * progDirLba kern
  directory : ((writtenImage behind bb kern users).drop (sectorSize * progDirLba kern)).take sectorSize =
    dirSector (add32 (progDirLba kern) 1) users
  programs : ∀ i user, (users.take maxEntries)[i]? = some user →
    let entry := programDirEntry (fun j => (dirSector (add32 (progDirLba kern) 1) users).getD j 0) i
    ∃ range, strippedRange user.fd = some range ∧
      ((writtenImage behind bb kern users).drop (sectorSize * entry.lba)).take (sectorSize * entry.sectors) =
        range ++ List.replicate (sectorSize * entry.sectors - range.length) 0

theorem Trustworthy.measures (trustworthy : Trustworthy behind bb kern users) (parsed : Parsed kern users) :
    Measures kern.fd := by
  obtain ⟨_,measured⟩ := parsed.kernel
  have short := measured.short
  have long := length_block_le (behind 0) measured
  have boot := trustworthy.kernelStart
  have start := trustworthy.directoryStart
  rw [kernelStage,append_eq,List.length_append,boot,progDirLba,add32] at start
  unfold sectorSize kernelSectors at start
  refine (block_fills_iff measured (behind 0)).mp ?_
  -- A count near `2^32` would put the directory far behind anything a kernel can fill, or at 0.
  rcases sectorCount_bounds short.1 (by omega) with few | many
  · omega
  · omega

theorem Trustworthy.sound (trustworthy : Trustworthy behind bb kern users) (parsed : Parsed kern users)
    (short : ∀ user ∈ users, user.fd.length < 2^32) : Sound bb kern users := by
  refine ⟨?_,trustworthy.measures parsed,fun user member => ?_⟩
  · have start := trustworthy.kernelStart
    rw [bootStage_eq,List.length_take] at start
    omega
  · obtain ⟨i,inside,same⟩ := List.mem_iff_getElem.mp member
    have listed : (users.take maxEntries)[i]? = some user := by rw [List.getElem?_eq_getElem inside,same]
    obtain ⟨range,found,_⟩ := trustworthy.programs i user listed
    exact strippedRange_whole found (short user (List.mem_of_mem_take member))

theorem Sound.trustworthy (sound : Sound bb kern users) (parsed : Parsed kern users)
    (behind : Nat → Nat → Byte) : Trustworthy behind bb kern users := by
  obtain ⟨boot,lba,few,size⟩ := sound.kernel_sectors parsed behind
  have long := length_writtenImage behind bb kern users
  have bytes : sectorSize = 512 := rfl
  refine ⟨by rw [bootStage_eq,boot,bytes],?_,?_,?_⟩
  · rw [kernelStage,append_eq,bootStage_eq,List.length_append,boot,size,lba,bytes]
    omega
  · refine slice_eq (length_dirSector ..) (by rw [bytes,lba]; omega) (fun i inside => ?_)
    rw [bytes]
    exact sound.image_directory parsed behind inside
  · intro i user listed
    obtain ⟨_,measured⟩ := parsed.programs user (List.mem_of_mem_take (List.mem_of_getElem? listed))
    have whole := sound.programs user (List.mem_of_getElem? listed)
    obtain ⟨small,ends,contents⟩ := sound.image_program parsed behind listed
    obtain ⟨_,_,_,padded,size⟩ := block_whole measured whole (behind (1 + i))
    obtain ⟨_,place,number,_⟩ := dirSector_entry (add32 (progDirLba kern) 1) (fun j _ => rfl) listed
    refine ⟨copied user,strippedRange_copied measured whole,?_⟩
    rw [place,number,Nat.mod_eq_of_lt (by omega),Nat.mod_eq_of_lt (by omega),bytes,← padded]
    exact slice_eq size ends contents

theorem Given.files (given : Given host argv bb kern paths users) {user : FileInfo} (member : user ∈ users) :
    ∃ path, host.files path = some user.fd := by
  have both := given.opened
  obtain ⟨i,inside,rfl⟩ := List.mem_iff_getElem.mp member
  have within : i < paths.length := by rwa [both.length_eq]
  obtain ⟨file,info,found,parsed,same⟩ := both.get within inside
  rw [List.get_eq_getElem] at same
  rw [same,(fillMetadata_measured parsed).1]
  exact ⟨_,found⟩

/-- When `main` returns 0, its image can be trusted if the bootblock and the range that is taken for
the kernel fill their sectors and the listed programs are whole, and only then unless a file has
4 GiB or more: there the bytes that a wrapped size leaves out can happen to be zeros. -/
theorem exit_status_trusted_iff (host : Host) (argv : List CString)
    (returned : (CreateImage.main host argv).status = 0) :
    ∃ bb kern paths users, Given host argv bb kern paths users ∧
      (CreateImage.main host argv).image = some (writtenImage host.behind bb kern users) ∧
      (Sound bb kern users → Trustworthy host.behind bb kern users) ∧
      ((∀ path fd, host.files path = some fd → fd.length < 2^32) →
        (Trustworthy host.behind bb kern users ↔ Sound bb kern users)) := by
  obtain ⟨creates,bb,kern,paths,users,given⟩ := main_returns returned
  have trusted : Sound bb kern users → Trustworthy host.behind bb kern users :=
    fun sound => sound.trustworthy given.parsed host.behind
  refine ⟨bb,kern,paths,users,given,(given.main creates).2,trusted,fun short => ⟨fun trustworthy => ?_,trusted⟩⟩
  refine trustworthy.sound given.parsed (fun user member => ?_)
  obtain ⟨path,found⟩ := given.files member
  exact short path _ found

/-- A file for the load base with one segment, and `data` behind its headers. -/
def sampleElfAt (offset filesz memsz : Word) (data : List Byte) : File :=
  [0x7F,0x45,0x4C,0x46,1,1] ++ List.replicate 10 0 ++ [2,0,3,0,1,0,0,0] ++
    fourBytes 0x08048000 ++ fourBytes 52 ++ List.replicate 8 0 ++ [52,0,32,0,1,0,40,0,0,0,0,0] ++
    fourBytes 1 ++ fourBytes offset ++ fourBytes 0x08048000 ++ fourBytes 0x08048000 ++
    fourBytes filesz ++ fourBytes memsz ++ fourBytes 7 ++ fourBytes 0x1000 ++ data

def sampleElf (filesz memsz : Word) (data : List Byte) : File := sampleElfAt 84 filesz memsz data

def sampleBootblock : File :=
  [0xEB,0x04,0,0,0,0,0xB8,0x00,0x70,0x8E,0xD0,0xBC,0xFE,0xFF] ++ List.replicate 488 0 ++
    [0xEA,0,0,0,0,0x08,0x00,0,0x55,0xAA]

def sampleHost (bootblock kernel program : File) : Host where
  files := fun path =>
    if path = [0x62] then some bootblock
    else if path = [0x6B] then some kernel
    else if path = [0x61] then some program
    else none
  creates := true
  behind := fun _ _ => 0

def sampleArgv : List CString := [⟨[0x62],by decide⟩,⟨[0x6B],by decide⟩,⟨[0x61],by decide⟩]

def sampleInfo (filesz memsz : Word) (data : List Byte) (name : List Byte) : FileInfo :=
  ⟨sampleElf filesz memsz data,84,filesz.toNat,0x08048000,name⟩

def sampleField : List Byte := 0x61 :: List.replicate 15 0

theorem sample_given (program kernel : File) (kern user : FileInfo) (first : fillMetadata kernel = .ok kern)
    (second : fillMetadata program = .ok user) :
    Given (sampleHost sampleBootblock kernel program) sampleArgv sampleBootblock kern [⟨[0x61],by decide⟩]
      [{ user with name := sampleField }] := by
  refine ⟨⟨[0x62],by decide⟩,⟨[0x6B],by decide⟩,rfl,rfl,⟨kernel,rfl,first⟩,?_⟩
  have file : (sampleHost sampleBootblock kernel program).files [0x61] = some program := rfl
  simp only [openUsers,file,second]
  rfl

theorem within_single {fd : File} (segment : Elf32Phdr) (single : loads fd = [segment])
    (inside : segment.offset + segment.filesz ≤ fd.length) (fits : segment.offset + segment.filesz < 2^32) :
    Within fd := by
  intro phdr member
  rw [single] at member
  obtain rfl := List.mem_singleton.mp member
  exact ⟨inside,fits⟩

theorem sample_kernel_within : Within (sampleElf 2 2 [1,2]) :=
  within_single ⟨1,84,0x08048000,2,2⟩ rfl (by decide) (by decide)

theorem sample_program_within : Within (sampleElf 1 1 [3]) :=
  within_single ⟨1,84,0x08048000,1,1⟩ rfl (by decide) (by decide)

/-- A program whose one segment is empty and said to be far behind the end of its file. -/
def emptyProgram : FileInfo := ⟨sampleElfAt 0x4000 0 1 [],0x4000,0,0x08048000,sampleField⟩

theorem emptyProgram_whole : Whole emptyProgram.fd := by
  intro start stop starts stops
  obtain rfl := Option.some.inj starts
  obtain rfl := Option.some.inj stops
  exact .inl (by decide)

/-- A whole kernel, and a program of which there is nothing to copy. -/
theorem whole_files_trusted :
    (CreateImage.main (sampleHost sampleBootblock (sampleElf 2 2 [1,2]) emptyProgram.fd) sampleArgv).status = 0 ∧
    Trustworthy (fun _ _ => 0) sampleBootblock (sampleInfo 2 2 [1,2] (List.replicate 16 0)) [emptyProgram] := by
  have given := sample_given emptyProgram.fd (sampleElf 2 2 [1,2]) (sampleInfo 2 2 [1,2] _)
    { emptyProgram with name := List.replicate 16 0 } rfl rfl
  have returned := (given.main rfl).1
  obtain ⟨bb,kern,paths,users,again,_,trusted,_⟩ := exit_status_trusted_iff _ _ returned
  obtain ⟨rfl,rfl,rfl,rfl⟩ := given.unique again
  exact ⟨returned,trusted ⟨by decide +kernel,sample_kernel_within.measures,
    List.forall_mem_singleton.mpr emptyProgram_whole⟩⟩

/-- A kernel of which a byte is there and three are not: `main` returns 0, and the directory is not
where it is said to be. -/
theorem truncated_kernel_shifts_directory :
    (CreateImage.main (sampleHost sampleBootblock (sampleElf 4 4 [1]) (sampleElf 1 1 [3])) sampleArgv).status = 0 ∧
    Given (sampleHost sampleBootblock (sampleElf 4 4 [1]) (sampleElf 1 1 [3])) sampleArgv sampleBootblock
      (sampleInfo 4 4 [1] (List.replicate 16 0)) [⟨[0x61],by decide⟩] [sampleInfo 1 1 [3] sampleField] ∧
    (kernelStage (fun _ _ => 0) sampleBootblock (sampleInfo 4 4 [1] (List.replicate 16 0))).length = 1021 ∧
    sectorSize * progDirLba (sampleInfo 4 4 [1] (List.replicate 16 0)) = 1024 ∧
    ¬Trustworthy (fun _ _ => 0) sampleBootblock (sampleInfo 4 4 [1] (List.replicate 16 0))
      [sampleInfo 1 1 [3] sampleField] := by
  have given := sample_given (sampleElf 1 1 [3]) (sampleElf 4 4 [1]) (sampleInfo 4 4 [1] _)
    (sampleInfo 1 1 [3] _) rfl rfl
  have stage : (kernelStage (fun _ _ => 0) sampleBootblock
      (sampleInfo 4 4 [1] (List.replicate 16 0))).length = 1021 := by
    rw [kernelStage,append_eq,bootStage_eq]
    decide +kernel
  have lba : sectorSize * progDirLba (sampleInfo 4 4 [1] (List.replicate 16 0)) = 1024 := by decide
  refine ⟨(given.main rfl).1,given,stage,lba,fun trustworthy => ?_⟩
  have start := trustworthy.directoryStart
  rw [stage,lba] at start
  exact absurd start (by decide)

/-- What `bootblock.s` says of its first sector: a jump over `os_size`, the first instructions
behind it, the jump to the kernel at 502 and the signature. -/
structure Assembled (bb : File) : Prop where
  size : bb.length = sectorSize
  jump : bb.take 2 = [0xEB,0x04]
  osSize : (bb.drop 2).take 4 = [0,0,0,0]
  -- movw $0x7000, %ax; movw %ax, %ss; movw $0xfffe, %sp
  opening : (bb.drop 6).take 8 = [0xB8,0x00,0x70,0x8E,0xD0,0xBC,0xFE,0xFF]
  kernelJump : (bb.drop 502).take 7 = [0xEA,0,0,0,0,0x08,0x00]
  signature : (bb.drop 510).take 2 = [0x55,0xAA]

/-- The bytes that `bootblock.s` reserves: `os_size`, and the offset in the jump to the kernel. -/
def Reserved (j : Nat) : Prop := 2 ≤ j ∧ j < 6 ∨ 503 ≤ j ∧ j < 507

/-- The patches have changed reserved bytes only, and `read_prog_dir_lba` finds the number of the
directory sector. -/
structure PatchedInPlace (image bb : File) (kern : FileInfo) : Prop where
  reserved : ∀ j < sectorSize, image.getD j 0 ≠ bb.getD j 0 → Reserved j
  directory : ∀ reads : DiskReads, (∃ sector, reads 0 0 = some sector ∧
    ∀ j < sectorSize, sector j = image.getD j 0) → Kernel.readProgDirLba reads = progDirLba kern

/-- No bootblock is patched in place: the number of the directory sector replaces the first
instructions behind `os_size`, and is never equal to them. -/
theorem bootblock_always_damaged (host : Host) (argv : List CString)
    (given : Given host argv bb kern paths users) (creates : host.creates = true) (assembled : Assembled bb) :
    ∃ image, (CreateImage.main host argv).status = 0 ∧ (CreateImage.main host argv).image = some image ∧
      ¬PatchedInPlace image bb kern := by
  obtain ⟨status,written⟩ := given.main creates
  refine ⟨_,status,written,fun patched => ?_⟩
  obtain ⟨_,measured⟩ := given.parsed.kernel
  have short := measured.short
  have sectors := sectorCount_bounds short.1 (by omega)
  have bytes : ∀ i < 4, (fourBytes (BitVec.ofNat 32 (progDirLba kern))).getD i 0 = (bb.drop 6).getD i 0 := by
    intro i inside
    by_contra differs
    have changed := patched.reserved (6 + i) (by unfold sectorSize; omega)
    rw [writtenImage,(patch_getD (programs_long ..) _).2,if_neg (by omega),if_pos (by omega),
      Nat.add_sub_cancel_left,← getD_drop] at changed
    have reserved := changed differs
    unfold Reserved at reserved
    omega
  have code : ∀ i < 8, (bb.drop 6).getD i 0 = [0xB8,0x00,0x70,0x8E,0xD0,0xBC,0xFE,0xFF].getD i 0 := by
    intro i inside
    rw [← assembled.opening,getD_take inside]
  have same : BitVec.ofNat 32 (progDirLba kern) = 0x8E7000B8#32 := by
    have stored : sectorWord (fun i => (bb.drop 6).getD i 0) 0 = BitVec.ofNat 32 (progDirLba kern) :=
      sectorWord_eq (fun i inside => by rw [Nat.zero_add,bytes i inside])
    rw [← stored,sectorWord,code 0 (by decide),code (0 + 1) (by decide),code (0 + 2) (by decide),
      code (0 + 3) (by decide)]
    decide
  have number := congrArg BitVec.toNat same
  have value : (0x8E7000B8#32).toNat = 2389704888 := rfl
  rw [BitVec.toNat_ofNat,progDirLba,add32,value] at number
  unfold kernelSectors at number
  omega

theorem sampleBootblock_assembled : Assembled sampleBootblock :=
  ⟨by decide +kernel,rfl,rfl,rfl,by decide +kernel,by decide +kernel⟩

/-- The sample bootblock with a kernel of two bytes. -/
theorem sample_bootblock_damaged : ∃ image,
    (CreateImage.main (sampleHost sampleBootblock (sampleElf 2 2 [1,2]) (sampleElf 1 1 [3])) sampleArgv).image =
      some image ∧ ¬PatchedInPlace image sampleBootblock (sampleInfo 2 2 [1,2] (List.replicate 16 0)) := by
  have given := sample_given (sampleElf 1 1 [3]) (sampleElf 2 2 [1,2]) (sampleInfo 2 2 [1,2] _)
    (sampleInfo 1 1 [3] _) rfl rfl
  obtain ⟨image,_,written,damaged⟩ := bootblock_always_damaged _ _ given rfl sampleBootblock_assembled
  exact ⟨image,written,damaged⟩

/-- The opcode of the first instruction becomes the number of the directory sector. -/
theorem first_instruction_overwritten :
    Assembled sampleBootblock ∧ sampleBootblock.getD 6 0 = 0xB8 ∧ ¬Reserved 6 ∧
    (writtenImage (fun _ _ => 0) sampleBootblock (sampleInfo 2 2 [1,2] (List.replicate 16 0))
      [sampleInfo 1 1 [3] sampleField]).getD 6 0 = 2 ∧
    ¬PatchedInPlace (writtenImage (fun _ _ => 0) sampleBootblock (sampleInfo 2 2 [1,2] (List.replicate 16 0))
      [sampleInfo 1 1 [3] sampleField]) sampleBootblock (sampleInfo 2 2 [1,2] (List.replicate 16 0)) := by
  have stored : (writtenImage (fun _ _ => 0) sampleBootblock (sampleInfo 2 2 [1,2] (List.replicate 16 0))
      [sampleInfo 1 1 [3] sampleField]).getD 6 0 = 2 := by
    rw [writtenImage,(patch_getD (programs_long ..) _).2]
    rfl
  have free : ¬Reserved 6 := by
    unfold Reserved
    omega
  refine ⟨sampleBootblock_assembled,rfl,free,stored,fun patched => free (patched.reserved 6 (by decide) ?_)⟩
  rw [stored]
  decide

end RudimentaryKernel.CreateImage
