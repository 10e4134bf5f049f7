import RudimentaryKernel.ByteBlocks
import RudimentaryKernel.Loader

/-! `createimage.cpp`, the host program that puts the bootblock, the kernel, the program directory
and the programs into one disk image. `read` returns what there is up to the end of a file and
`write` writes everything; the results of `copy_range` and `pad_to_sector` are there and `main`
does not look at them. -/
namespace RudimentaryKernel.CreateImage

open ByteBlocks

def osSizeLoc : Nat := 2

def kernelEntryLoc : Nat := 503

abbrev File := List Byte

/-- A string of the command line, without its end mark. -/
structure CString where
  chars : List Byte
  ended : 0 ∉ chars

def halfAt (bytes : List Byte) (i : Nat) : Nat := (bytes.getD (i + 1) 0 ++ bytes.getD i 0).toNat

def wordAt (bytes : List Byte) (i : Nat) : Nat := (sectorWord (fun j => bytes.getD j 0) i).toNat

structure Elf32Ehdr where
  ident : List Byte
  entry : Nat
  phoff : Nat
  phnum : Nat

def ehdrSize : Nat := 52

def elf32Ehdr (bytes : List Byte) : Elf32Ehdr :=
  ⟨bytes.take 16,wordAt bytes 24,wordAt bytes 28,halfAt bytes 44⟩

structure Elf32Phdr where
  type : Nat
  offset : Nat
  vaddr : Nat
  filesz : Nat
  memsz : Nat

def phdrSize : Nat := 32

def elf32Phdr (bytes : List Byte) : Elf32Phdr :=
  ⟨wordAt bytes 0,wordAt bytes 4,wordAt bytes 8,wordAt bytes 16,wordAt bytes 20⟩

def ptLoad : Nat := 1

structure FileInfo where
  fd : File
  startOffset : Nat
  strippedSize : Int
  entry : Nat
  name : List Byte

/-- `min_offset`, `max_offset` and `found` of `fill_metadata`. -/
structure Scan where
  minOffset : Nat
  maxOffset : Nat
  found : Bool

/-- One turn of the loop over the program headers. The end of a segment is a sum of 32 bits. -/
def Scan.take (scan : Scan) (phdr : Elf32Phdr) : Scan :=
  if phdr.type ≠ ptLoad then scan
  else
    let stop := add32 phdr.offset phdr.filesz
    ⟨if phdr.offset < scan.minOffset then phdr.offset else scan.minOffset,
      if scan.maxOffset < stop then stop else scan.maxOffset,true⟩

def scanHeaders (fd : File) : Nat → Nat → Scan → Option Scan
  | 0, _, scan => some scan
  | remaining + 1, position, scan =>
    let bytes := (fd.drop position).take phdrSize
    if bytes.length ≠ phdrSize then none
    else scanHeaders fd remaining (position + phdrSize) (scan.take (elf32Phdr bytes))

/-- `fill_metadata`, with what it prints when it fails. -/
def fillMetadata (fd : File) : Except (List Print) FileInfo :=
  let header := fd.take ehdrSize
  if header.length ≠ ehdrSize then .error []
  else
    let ehdr := elf32Ehdr header
    if ehdr.ident.take 4 ≠ [0x7F,0x45,0x4C,0x46] then .error [⟨"File is not ELF\n",[],[]⟩]
    else if ehdr.ident.getD 4 0 ≠ 1 then .error [⟨"File is not 32-bit\n",[],[]⟩]
    else if ehdr.ident.getD 5 0 ≠ 1 then .error [⟨"File is not little-endian\n",[],[]⟩]
    else match scanHeaders fd ehdr.phnum ehdr.phoff ⟨0x7FFFFFFFFFFFFFFF,0,false⟩ with
      | none => .error []
      | some scan =>
        if scan.found then
          .ok ⟨fd,scan.minOffset,(scan.maxOffset : Int) - scan.minOffset,ehdr.entry,List.replicate 16 0⟩
        else .error []

def roundUpSector (sz : Int) : Int := (sz + sectorSize - 1).tdiv sectorSize * sectorSize

/-- `sector_count`: what is negative wraps. -/
def sectorCount (sz : Int) : Nat := ((roundUpSector sz).tdiv sectorSize % 2^32).toNat

/-- The loop of `copy_range`, with `rem` bytes to go. -/
def copyLoop (fd : File) (position rem : Nat) (out : File) : File × Int :=
  if rem = 0 then (out,0)
  else
    let buf := (fd.drop position).take (min rem 8192)
    if buf.length = 0 then (out,-1)
    else copyLoop fd (position + buf.length) (rem - buf.length) (out ++ buf)
termination_by rem
decreasing_by exact Nat.sub_lt (Nat.pos_of_ne_zero ‹_›) (Nat.pos_of_ne_zero ‹_›)

def copyRange (out fd : File) (offset : Nat) (size : Int) : File × Int := copyLoop fd offset size.toNat out

/-- `pad_to_sector`. The remainder of a negative size is negative, and more is written than the
buffer of zeros holds: `behind` is what lies there. -/
def padToSector (behind : Nat → Byte) (out : File) (written : Int) : File × Int :=
  let remainder := written.tmod sectorSize
  if remainder = 0 then (out,0)
  else
    let pad := (sectorSize - remainder).toNat
    (out ++ (List.range pad).map (fun i => if i < sectorSize then 0 else behind (i - sectorSize)),0)

def basenameSimple (path : CString) : List Byte := (path.chars.reverse.takeWhile (· != 0x2F)).reverse

def strncpy (source : List Byte) (n : Nat) : List Byte :=
  let text := (source.takeWhile (· != 0)).take n
  text ++ List.replicate (n - text.length) 0

def dirEntry (user : FileInfo) (lba sectors : Nat) : List Byte :=
  strncpy user.name 15 ++ [0] ++ fourBytes (BitVec.ofNat 32 lba) ++ fourBytes (BitVec.ofNat 32 sectors) ++
    fourBytes (BitVec.ofNat 32 user.entry) ++ [0,0,0,0]

def dirEntrySize : Nat := 32

/-- The loop that fills the directory, from the sector `next` on. -/
def dirEntries : Nat → List FileInfo → List (List Byte)
  | _, [] => []
  | next, user :: rest =>
    let usecs := sectorCount user.strippedSize
    dirEntry user next usecs :: dirEntries (add32 next usecs) rest

def maxEntries : Nat := sectorSize / dirEntrySize

def dirSector (next : Nat) (users : List FileInfo) : List Byte :=
  let entries := (dirEntries next (users.take maxEntries)).flatten
  entries ++ List.replicate (sectorSize - entries.length) 0

def kernelSectors (kern : FileInfo) : Nat := sectorCount kern.strippedSize

def progDirLba (kern : FileInfo) : Nat := add32 1 (kernelSectors kern)

def bootStage (bb : File) : File := (copyRange [] bb 0 sectorSize).1

def append (behind : Nat → Byte) (image : File) (info : FileInfo) : File :=
  let image := (copyRange image info.fd info.startOffset info.strippedSize).1
  (padToSector behind image info.strippedSize).1

def kernelStage (behind : Nat → Nat → Byte) (bb : File) (kern : FileInfo) : File :=
  append (behind 0) (bootStage bb) kern

def directoryStage (behind : Nat → Nat → Byte) (bb : File) (kern : FileInfo) (users : List FileInfo) : File :=
  kernelStage behind bb kern ++ dirSector (add32 (progDirLba kern) 1) users

/-- The loop over the programs; `call` counts the files. -/
def writePrograms (behind : Nat → Nat → Byte) : Nat → List FileInfo → File → File
  | _, [], image => image
  | call, user :: rest, image => writePrograms behind (call + 1) rest (append (behind call) image user)

def patch (kern : FileInfo) (image : File) : File :=
  let image := overwrite image osSizeLoc (fourBytes (BitVec.ofNat 32 (kernelSectors kern)))
  let image := overwrite image progDirLoc (fourBytes (BitVec.ofNat 32 (progDirLba kern)))
  overwrite image kernelEntryLoc (fourBytes (BitVec.ofNat 32 kern.entry))

def writtenImage (behind : Nat → Nat → Byte) (bb : File) (kern : FileInfo) (users : List FileInfo) : File :=
  patch kern (writePrograms behind 1 users (directoryStage behind bb kern users))

/-- The files that can be opened, whether the image can, and what is behind the buffer of zeros
in each call of `pad_to_sector`. -/
structure Host where
  files : List Byte → Option File
  creates : Bool
  behind : Nat → Nat → Byte

/-- The status `main` returns, the image if it gets to it, and what it prints on its output. -/
structure Outcome where
  status : Int
  image : Option File
  console : List Print

def openUsers (host : Host) : List CString → Except (List Print) (List FileInfo)
  | [] => .ok []
  | path :: rest =>
    match host.files path.chars with
    | none => .error []
    | some fd =>
      match fillMetadata fd with
      | .error lines => .error (lines ++ [⟨"failed to parse user ELF: %s\n",[],[path.chars]⟩])
      | .ok info => (openUsers host rest).map
        (fun users => { info with name := strncpy (basenameSimple path) 15 ++ [0] } :: users)

def userLines : Nat → List FileInfo → List Print
  | _, [] => []
  | next, user :: rest =>
    let usecs := sectorCount user.strippedSize
    ⟨"USER: %-16s  lba=%-4u  sectors=%-4u  entry=0x%x\n",[next,usecs,user.entry],
      [user.name.takeWhile (· != 0)]⟩ :: userLines (add32 next usecs) rest

/-- `main` with the bootblock, the kernel and the programs of the command line. -/
def build (host : Host) (bootblock kernel : CString) (users : List CString) : Outcome :=
  match host.files bootblock.chars, host.files kernel.chars with
  | some bb, some fd =>
    match fillMetadata fd with
    | .error lines => ⟨1,none,lines ++ [⟨"failed to parse kernel ELF\n",[],[]⟩]⟩
    | .ok kern =>
      match openUsers host users with
      | .error lines => ⟨1,none,lines⟩
      | .ok users =>
        let lines := userLines (add32 (progDirLba kern) 1) (users.take maxEntries)
        if host.creates then
          ⟨0,some (writtenImage host.behind bb kern users),lines ++
            [⟨"OS_SIZE:      %u sectors\n",[kernelSectors kern],[]⟩,
              ⟨"KERNEL_ENTRY: 0x%x\n",[kern.entry],[]⟩,⟨"PROG_DIR_LBA: %u\n",[progDirLba kern],[]⟩]⟩
        else ⟨1,none,lines⟩
  | _, _ => ⟨1,none,[]⟩

def extendedFlag : List Byte := [0x2D,0x2D,0x65,0x78,0x74,0x65,0x6E,0x64,0x65,0x64]

def operands : List CString → List CString
  | [] => []
  | first :: rest => if first.chars = extendedFlag then rest else first :: rest

def main (host : Host) (argv : List CString) : Outcome :=
  match operands argv with
  | bootblock :: kernel :: users => build host bootblock kernel users
  | _ => ⟨1,none,[⟨"Usage: createimage [--extended] bootblock kernel [userprog ...]\n",[],[]⟩]⟩

end RudimentaryKernel.CreateImage
