import RudimentaryKernel.CreateImage

/-! Where everything ends up in the image of `createimage`. -/
namespace RudimentaryKernel.CreateImage

open ByteBlocks

section Headers

variable {fd : File} {scan result : Scan} {seen : List Elf32Phdr} {info : FileInfo} {stop : Nat}

def headers (fd : File) : Nat → Nat → List Elf32Phdr
  | 0, _ => []
  | phnum + 1, position =>
    elf32Phdr ((fd.drop position).take phdrSize) :: headers fd phnum (position + phdrSize)

def loads (fd : File) : List Elf32Phdr :=
  let ehdr := elf32Ehdr (fd.take ehdrSize)
  (headers fd ehdr.phnum ehdr.phoff).filter (fun phdr => phdr.type = ptLoad)

def firstOffset (fd : File) : Option Nat := ((loads fd).map (fun phdr => phdr.offset)).min?

def lastEnd (fd : File) : Option Nat := ((loads fd).map (fun phdr => phdr.offset + phdr.filesz)).max?

/-- Where the last segment ends in the sums of `fill_metadata`, which have 32 bits. -/
def wrappedEnd (fd : File) : Option Nat := ((loads fd).map (fun phdr => add32 phdr.offset phdr.filesz)).max?

/-- The bytes from the start of the first segment to the end of the last, if the file has them
all. There is nothing to have of segments that are all empty. -/
def strippedRange (fd : File) : Option (List Byte) := do
  let start ← firstOffset fd
  let stop ← lastEnd fd
  if stop ≤ start ∨ stop ≤ fd.length then some ((fd.drop start).take (stop - start)) else none

/-- The segments lie in the file, and their ends below `2^32`. -/
def Within (fd : File) : Prop :=
  ∀ phdr ∈ loads fd, phdr.offset + phdr.filesz ≤ fd.length ∧ phdr.offset + phdr.filesz < 2^32

/-- The range of the segments is empty, or lies in the file and below `2^32`. -/
def Whole (fd : File) : Prop :=
  ∀ start stop, firstOffset fd = some start → lastEnd fd = some stop →
    stop ≤ start ∨ stop ≤ fd.length ∧ stop < 2^32

/-- What `createimage` takes for the range of the segments lies in the file or is empty. With an
end one sector before the start, nothing is copied and no sector is counted either. -/
def Measures (fd : File) : Prop :=
  ∀ start stop, firstOffset fd = some start → wrappedEnd fd = some stop →
    start ≤ stop ∧ stop ≤ fd.length ∨ stop = start ∨ stop + sectorSize = start

theorem Within.whole {fd : File} (within : Within fd) : Whole fd := by
  intro start stop _ ends
  obtain ⟨last,among,rfl⟩ := List.mem_map.mp (List.max?_eq_some_iff.mp ends).1
  exact .inr (within last among)

theorem Within.measures {fd : File} (within : Within fd) : Measures fd := by
  intro start stop starts stops
  obtain ⟨last,among,rfl⟩ := List.mem_map.mp (List.max?_eq_some_iff.mp stops).1
  have least := (List.min?_eq_some_iff.mp starts).2 _ (List.mem_map.mpr ⟨last,among,rfl⟩)
  obtain ⟨inside,fits⟩ := within last among
  rw [add32_eq fits]
  omega

/-- What the loop knows of the segments it has seen. -/
structure Scan.Covers (scan : Scan) (seen : List Elf32Phdr) : Prop where
  small : ∀ phdr ∈ seen, phdr.offset < 2^32
  found : scan.found = true ↔ seen ≠ []
  least : ∀ phdr ∈ seen, scan.minOffset ≤ phdr.offset
  start : scan.minOffset = 0x7FFFFFFFFFFFFFFF ∧ seen = [] ∨ ∃ phdr ∈ seen, phdr.offset = scan.minOffset
  most : ∀ phdr ∈ seen, add32 phdr.offset phdr.filesz ≤ scan.maxOffset
  stop : scan.maxOffset = 0 ∨ ∃ phdr ∈ seen, add32 phdr.offset phdr.filesz = scan.maxOffset

theorem Scan.Covers.take {phdr : Elf32Phdr} (covers : scan.Covers seen) (load : phdr.type = ptLoad)
    (small : phdr.offset < 2^32) : (scan.take phdr).Covers (seen ++ [phdr]) := by
  unfold Scan.take
  rw [if_neg (not_not.mpr load)]
  have member : phdr ∈ seen ++ [phdr] := by simp
  have earlier : ∀ other ∈ seen, other ∈ seen ++ [phdr] := fun other => List.mem_append_left _
  refine ⟨?_,by simp,?_,?_,?_,?_⟩
  · intro other among
    rcases List.mem_append.mp among with before | new
    · exact covers.small other before
    · rwa [List.mem_singleton.mp new]
  · intro other among
    dsimp only
    rcases List.mem_append.mp among with before | new
    · have := covers.least other before
      split <;> omega
    · rw [List.mem_singleton.mp new]
      split <;> omega
  · dsimp only
    right
    split
    · exact ⟨phdr,member,rfl⟩
    · rcases covers.start with ⟨top,_⟩ | ⟨other,among,same⟩
      · omega
      · exact ⟨other,earlier other among,same⟩
  · intro other among
    dsimp only
    rcases List.mem_append.mp among with before | new
    · have := covers.most other before
      split <;> omega
    · rw [List.mem_singleton.mp new]
      split <;> omega
  · dsimp only
    split
    · exact .inr ⟨phdr,member,rfl⟩
    · exact covers.stop.imp_right (fun ⟨other,among,same⟩ => ⟨other,earlier other among,same⟩)

theorem scanHeaders_covers {remaining position : Nat} (covers : scan.Covers seen)
    (done : scanHeaders fd remaining position scan = some result) :
    result.Covers (seen ++ (headers fd remaining position).filter (fun phdr => phdr.type = ptLoad)) := by
  induction remaining generalizing position scan seen with
  | zero =>
    obtain rfl := Option.some.inj done
    simpa [headers] using covers
  | succ remaining ih =>
    rw [scanHeaders] at done
    split at done
    · contradiction
    rw [headers]
    by_cases load : (elf32Phdr ((fd.drop position).take phdrSize)).type = ptLoad
    · rw [List.filter_cons_of_pos (by simpa using load),List.append_cons]
      exact ih (covers.take load (BitVec.isLt _)) done
    · rw [List.filter_cons_of_neg (by simpa using load)]
      rw [Scan.take,if_pos load] at done
      exact ih covers done

theorem Scan.Covers.attained (covers : scan.Covers seen) (nonempty : seen ≠ []) :
    ∃ phdr ∈ seen, add32 phdr.offset phdr.filesz = scan.maxOffset := by
  rcases covers.stop with zero | attained
  · obtain ⟨phdr,member⟩ := List.exists_mem_of_ne_nil seen nonempty
    have most := covers.most phdr member
    exact ⟨phdr,member,by omega⟩
  · exact attained

/-- The range that `fill_metadata` has measured, and where it really stops. -/
structure Measured (info : FileInfo) (stop : Nat) : Prop where
  starts : firstOffset info.fd = some info.startOffset
  stops : lastEnd info.fd = some stop
  low : info.startOffset ≤ stop
  wraps : ∃ last, wrappedEnd info.fd = some last ∧ info.strippedSize = (last : Int) - info.startOffset
  size : stop < 2^32 → info.strippedSize = ((stop - info.startOffset : Nat) : Int)
  short : -2^32 < info.strippedSize ∧ info.startOffset + info.strippedSize < 2^32 ∧ info.startOffset < 2^32

theorem fillMetadata_measured (done : fillMetadata fd = .ok info) :
    info.fd = fd ∧ info.entry = (elf32Ehdr (fd.take ehdrSize)).entry ∧ ∃ stop, Measured info stop := by
  unfold fillMetadata at done
  dsimp only at done
  split at done
  · contradiction
  split at done
  · contradiction
  split at done
  · contradiction
  split at done
  · contradiction
  split at done
  · contradiction
  rename_i scan scanned
  split at done
  · rename_i some
    obtain rfl := Except.ok.inj done
    refine ⟨rfl,rfl,?_⟩
    have start : Scan.Covers ⟨0x7FFFFFFFFFFFFFFF,0,false⟩ [] :=
      ⟨by simp,by simp,by simp,.inl ⟨rfl,rfl⟩,by simp,.inl rfl⟩
    have covers : scan.Covers (loads fd) := scanHeaders_covers start scanned
    have nonempty := covers.found.mp some
    cases stops : lastEnd fd with
    | none =>
      rw [lastEnd,List.max?_eq_none_iff,List.map_eq_nil_iff] at stops
      contradiction
    | some stop =>
      obtain ⟨reached,bound⟩ := List.max?_eq_some_iff.mp stops
      obtain ⟨last,among,ends⟩ := List.mem_map.mp reached
      obtain ⟨first,within,begins⟩ := covers.start.resolve_left (fun none => nonempty none.2)
      have low := covers.least last among
      have small := covers.small first within
      obtain ⟨highest,member,wraps⟩ := covers.attained nonempty
      have below : scan.maxOffset < 2^32 := by
        rw [← wraps]
        exact Nat.mod_lt _ (by decide)
      refine ⟨stop,?_,stops,by dsimp only; omega,⟨scan.maxOffset,?_,rfl⟩,?_,by dsimp only; omega,
        by dsimp only; omega,by dsimp only; omega⟩
      · refine List.min?_eq_some_iff.mpr ⟨List.mem_map.mpr ⟨first,within,begins⟩,?_⟩
        intro offset listed
        obtain ⟨phdr,member,rfl⟩ := List.mem_map.mp listed
        exact covers.least phdr member
      · refine List.max?_eq_some_iff.mpr ⟨List.mem_map.mpr ⟨highest,member,wraps⟩,?_⟩
        intro sum listed
        obtain ⟨phdr,member,rfl⟩ := List.mem_map.mp listed
        exact covers.most phdr member
      · intro fits
        have most := covers.most last among
        have here := bound _ (List.mem_map.mpr ⟨highest,member,rfl⟩)
        rw [add32_eq (by omega)] at most wraps
        dsimp only
        omega
  · contradiction

end Headers

section Copying

variable {fd out : File} {offset position rem : Nat} {size : Int} {behind : Nat → Byte} {info : FileInfo}

theorem copyLoop_eq (fd : File) (position rem : Nat) (out : File) : copyLoop fd position rem out =
    (out ++ (fd.drop position).take rem,if rem ≤ (fd.drop position).length then 0 else -1) := by
  fun_induction copyLoop fd position rem out with
  | case1 => simp
  | case2 position rem out more buf empty =>
    have short : (fd.drop position).length = 0 := by
      have size : buf.length = min (min rem 8192) (fd.drop position).length := List.length_take ..
      omega
    have none := List.eq_nil_of_length_eq_zero short
    rw [none,if_neg (by simpa using more)]
    simp
  | case3 position rem out more buf some ih =>
    have size : buf.length = min (min rem 8192) (fd.drop position).length := List.length_take ..
    have whole : (fd.drop position).take rem =
        buf ++ (fd.drop (position + buf.length)).take (rem - buf.length) := by
      have first : buf = (fd.drop position).take buf.length := by
        rw [size]
        exact List.take_eq_take_min
      have split : rem = buf.length + (rem - buf.length) := by omega
      conv_lhs => rw [split,List.take_add,List.drop_drop,← first]
    rw [ih,whole,List.append_assoc,← List.drop_drop,List.length_drop]
    congr 1
    split <;> split <;> first | rfl | omega

def copied (info : FileInfo) : List Byte := (info.fd.drop info.startOffset).take info.strippedSize.toNat

def padding (behind : Nat → Byte) (written : Int) : List Byte := (padToSector behind [] written).1

theorem padToSector_eq (behind : Nat → Byte) (out : File) (written : Int) :
    (padToSector behind out written).1 = out ++ padding behind written := by
  unfold padding padToSector
  dsimp only
  split <;> simp

def block (behind : Nat → Byte) (info : FileInfo) : List Byte := copied info ++ padding behind info.strippedSize

theorem append_eq (behind : Nat → Byte) (image : File) (info : FileInfo) :
    append behind image info = image ++ block behind info := by
  unfold append copyRange
  dsimp only
  rw [copyLoop_eq,padToSector_eq,List.append_assoc,block,copied]

def blocks (behind : Nat → Nat → Byte) : Nat → List FileInfo → List (List Byte)
  | _, [] => []
  | call, user :: rest => block (behind call) user :: blocks behind (call + 1) rest

theorem writePrograms_eq (behind : Nat → Nat → Byte) (call : Nat) (users : List FileInfo) (image : File) :
    writePrograms behind call users image = image ++ (blocks behind call users).flatten := by
  induction users generalizing call image with
  | nil => simp [writePrograms,blocks]
  | cons user rest ih => rw [writePrograms,ih,append_eq,blocks,List.flatten_cons,List.append_assoc]

end Copying

section Sizes

variable {behind : Nat → Byte} {info : FileInfo}

theorem sectorCount_natCast (n : Nat) : sectorCount (n : Int) = (n + 511) / 512 % 2^32 := by
  have sum : (n : Int) + (sectorSize : Nat) - 1 = ((n + 511 : Nat) : Int) := by
    unfold sectorSize
    omega
  rw [sectorCount,roundUpSector,sum,← Int.ofNat_tdiv,← Int.natCast_mul,← Int.ofNat_tdiv,
    Nat.mul_div_cancel _ (by decide)]
  unfold sectorSize
  omega

theorem padding_natCast (behind : Nat → Byte) (n : Nat) :
    padding behind (n : Int) = List.replicate ((512 - n % 512) % 512) 0 := by
  have remainder : (n : Int).tmod sectorSize = ((n % 512 : Nat) : Int) := (Int.ofNat_tmod ..).symm
  rw [padding,padToSector,remainder]
  dsimp only
  split
  · rename_i zero
    rw [show n % 512 = 0 by omega]
    rfl
  · rename_i more
    have pad : ((sectorSize : Int) - ((n % 512 : Nat) : Int)).toNat = (512 - n % 512) % 512 := by
      unfold sectorSize
      omega
    rw [pad,List.nil_append,List.eq_replicate_iff]
    refine ⟨by simp,fun byte member => ?_⟩
    obtain ⟨i,inside,rfl⟩ := List.mem_map.mp member
    have below := List.mem_range.mp inside
    exact if_pos (by unfold sectorSize; omega)

theorem Measured.stripped {stop : Nat} (measured : Measured info stop) (whole : Whole info.fd) :
    info.strippedSize = ((stop - info.startOffset : Nat) : Int) ∧
      (stop ≤ info.startOffset ∨ stop ≤ info.fd.length) ∧ stop < 2^32 := by
  have low := measured.low
  have short := measured.short
  rcases whole _ _ measured.starts measured.stops with empty | ⟨inside,below⟩
  · have below : stop < 2^32 := by omega
    exact ⟨measured.size below,.inl empty,below⟩
  · exact ⟨measured.size below,.inr inside,below⟩

theorem strippedRange_copied {stop : Nat} (measured : Measured info stop) (whole : Whole info.fd) :
    strippedRange info.fd = some (copied info) := by
  obtain ⟨size,inside,_⟩ := measured.stripped whole
  rw [strippedRange,measured.starts,measured.stops]
  simp only [Option.bind_eq_bind,Option.bind_some]
  rw [if_pos inside,copied,size,Int.toNat_natCast]

theorem strippedRange_whole {range : List Byte} (found : strippedRange info.fd = some range)
    (short : info.fd.length < 2^32) : Whole info.fd := by
  intro start stop starts stops
  rw [strippedRange,starts,stops] at found
  simp only [Option.bind_eq_bind,Option.bind_some,Option.ite_none_right_eq_some] at found
  exact found.1.imp_right (fun inside => ⟨inside,by omega⟩)

theorem block_whole {stop : Nat} (measured : Measured info stop) (whole : Whole info.fd)
    (behind : Nat → Byte) :
    (copied info).length = info.strippedSize.toNat ∧
    sectorCount info.strippedSize = (info.strippedSize.toNat + 511) / 512 ∧
    sectorCount info.strippedSize ≤ 2^23 ∧
    block behind info = copied info ++
      List.replicate (512 * sectorCount info.strippedSize - (copied info).length) 0 ∧
    (block behind info).length = 512 * sectorCount info.strippedSize := by
  obtain ⟨size,inside,below⟩ := measured.stripped whole
  have low := measured.low
  generalize count : stop - info.startOffset = n at size
  have length : (copied info).length = n := by
    rw [copied,List.length_take,List.length_drop,size,Int.toNat_natCast]
    omega
  have sectors : sectorCount info.strippedSize = (n + 511) / 512 := by
    rw [size,sectorCount_natCast]
    omega
  have pad : padding behind info.strippedSize =
      List.replicate (512 * sectorCount info.strippedSize - (copied info).length) 0 := by
    rw [sectors,length,size,padding_natCast]
    congr 1
    omega
  have whole : block behind info = copied info ++
      List.replicate (512 * sectorCount info.strippedSize - (copied info).length) 0 := by
    rw [block,pad]
  have back : info.strippedSize.toNat = n := by rw [size,Int.toNat_natCast]
  refine ⟨by rw [length,back],by rw [sectors,back],by omega,whole,?_⟩
  rw [whole,List.length_append,List.length_replicate]
  omega

/-- A size below zero: the remainder is negative too, so that the padding is longer than a sector. -/
theorem length_padding_neg (behind : Nat → Byte) (m : Nat) :
    (padding behind (-(m : Int))).length = if m % 512 = 0 then 0 else 512 + m % 512 := by
  have remainder : (-(m : Int)).tmod sectorSize = -((m % 512 : Nat) : Int) := by
    rw [Int.neg_tmod,← Int.ofNat_tmod]
    rfl
  rw [padding,padToSector,remainder]
  dsimp only
  by_cases even : m % 512 = 0
  · rw [if_pos even,if_pos (by omega)]
    rfl
  · rw [if_neg even,if_neg (by omega),List.length_append,List.length_map,List.length_range]
    unfold sectorSize
    simp only [List.length_nil]
    omega

theorem sectorCount_neg {m : Nat} (small : m < 2^32) :
    sectorCount (-(m : Int)) = if m < 1023 then 0 else 2^32 - (m - 511) / 512 := by
  have size : ((sectorSize : Nat) : Int) = 512 := rfl
  rw [sectorCount,roundUpSector,size,Int.mul_tdiv_cancel _ (by decide)]
  rcases Int.le_total 0 (-(m : Int) + 512 - 1) with high | low
  · rw [Int.tdiv_eq_ediv_of_nonneg high,if_pos (by omega)]
    omega
  · have flipped : (-(m : Int) + 512 - 1).tdiv 512 = -(((m - 511 : Nat) : Int) / 512) := by
      rw [show -(m : Int) + 512 - 1 = -((m - 511 : Nat) : Int) by omega,Int.neg_tdiv,
        Int.tdiv_eq_ediv_of_nonneg (Int.natCast_nonneg _)]
    rw [flipped]
    split <;> omega

theorem sectorCount_bounds {sz : Int} (low : -2^32 < sz) (high : sz < 2^32) :
    sectorCount sz ≤ 2^23 ∨ 2^32 - 2^23 ≤ sectorCount sz ∧ sectorCount sz < 2^32 := by
  obtain ⟨n,rfl | rfl⟩ := Int.eq_nat_or_neg sz
  · rw [sectorCount_natCast]
    omega
  · rw [sectorCount_neg (by omega)]
    split <;> omega

theorem length_block_le (behind : Nat → Byte) {stop : Nat} (measured : Measured info stop) :
    (block behind info).length < 2^32 + 1024 := by
  have short := measured.short
  rw [block,List.length_append,copied,List.length_take]
  obtain ⟨n,same | same⟩ := Int.eq_nat_or_neg info.strippedSize
  · rw [same,padding_natCast,List.length_replicate]
    omega
  · rw [same,length_padding_neg]
    split <;> omega

/-- What is written of a file fills the sectors that are counted for it just when the range that
`createimage` takes is there. -/
theorem block_fills_iff {stop : Nat} (measured : Measured info stop) (behind : Nat → Byte) :
    (block behind info).length = 512 * sectorCount info.strippedSize ↔ Measures info.fd := by
  obtain ⟨last,wraps,size⟩ := measured.wraps
  have short := measured.short
  have meets : Measures info.fd ↔ (info.startOffset ≤ last ∧ last ≤ info.fd.length ∨ last = info.startOffset ∨
      last + sectorSize = info.startOffset) := by
    constructor
    · exact fun measures => measures _ _ measured.starts wraps
    · intro met start stop starts stops
      obtain rfl := Option.some.inj (measured.starts.symm.trans starts)
      obtain rfl := Option.some.inj (wraps.symm.trans stops)
      exact met
  rw [meets,block,List.length_append,copied,List.length_take,List.length_drop]
  unfold sectorSize
  rcases Nat.lt_or_ge last info.startOffset with below | above
  · -- Nothing is copied of a range of negative size.
    generalize count : info.startOffset - last = m
    have negative : info.strippedSize = -(m : Int) := by omega
    rw [negative,length_padding_neg,sectorCount_neg (by omega)]
    split <;> split <;> omega
  · generalize count : last - info.startOffset = n
    have positive : info.strippedSize = (n : Int) := by omega
    rw [positive,padding_natCast,sectorCount_natCast,List.length_replicate,Int.toNat_natCast]
    omega

theorem few_sectors {stop : Nat} (measured : Measured info stop)
    (fills : (block behind info).length = 512 * sectorCount info.strippedSize) :
    sectorCount info.strippedSize ≤ 2^23 := by
  have short := measured.short
  have long := length_block_le behind measured
  rcases sectorCount_bounds short.1 (by omega) with few | many
  · exact few
  · omega

end Sizes

section Directory

variable {user : FileInfo} {users : List FileInfo} {lba sectors next i j : Nat} {sector : Sector} {word : Word}

def lbaAfter (next : Nat) (users : List FileInfo) : Nat :=
  users.foldl (fun lba user => add32 lba (sectorCount user.strippedSize)) next

theorem length_strncpy (source : List Byte) (n : Nat) : (strncpy source n).length = n := by
  rw [strncpy,List.length_append,List.length_replicate,List.length_take]
  omega

theorem length_dirEntry : (dirEntry user lba sectors).length = dirEntrySize := by
  simp [dirEntry,length_strncpy,dirEntrySize]

theorem dirEntries_getElem? (next : Nat) (users : List FileInfo) (i : Nat) :
    (dirEntries next users)[i]? = users[i]?.map (fun user =>
      dirEntry user (lbaAfter next (users.take i)) (sectorCount user.strippedSize)) := by
  induction users generalizing next i with
  | nil => rfl
  | cons user rest ih =>
    cases i with
    | zero => rfl
    | succ i =>
      rw [dirEntries]
      simp only [List.getElem?_cons_succ,List.take_succ_cons]
      exact ih ..

theorem userLines_getElem? (next : Nat) (users : List FileInfo) (i : Nat) :
    (userLines next users)[i]? = users[i]?.map (fun user =>
      ⟨"USER: %-16s  lba=%-4u  sectors=%-4u  entry=0x%x\n",
        [lbaAfter next (users.take i),sectorCount user.strippedSize,user.entry],[user.name.takeWhile (· != 0)]⟩) := by
  induction users generalizing next i with
  | nil => rfl
  | cons user rest ih =>
    cases i with
    | zero => rfl
    | succ i =>
      rw [userLines]
      simp only [List.getElem?_cons_succ,List.take_succ_cons]
      exact ih ..

theorem dirEntries_sizes (next : Nat) (users : List FileInfo) :
    (dirEntries next users).map List.length = List.replicate users.length dirEntrySize := by
  induction users generalizing next with
  | nil => rfl
  | cons user rest ih => rw [dirEntries,List.map_cons,length_dirEntry,ih,List.length_cons,List.replicate_succ]

theorem length_dirSector (next : Nat) (users : List FileInfo) : (dirSector next users).length = sectorSize := by
  have few : (users.take maxEntries).length ≤ 16 := by
    rw [List.length_take]
    exact Nat.min_le_left ..
  rw [dirSector,List.length_append,List.length_replicate,List.length_flatten,dirEntries_sizes,
    List.sum_replicate_nat]
  unfold dirEntrySize sectorSize
  omega

theorem dirSector_getD (listed : (users.take maxEntries)[i]? = some user) (inside : j < dirEntrySize) :
    (dirSector next users).getD (dirEntrySize * i + j) 0 =
      (dirEntry user (lbaAfter next (users.take i)) (sectorCount user.strippedSize)).getD j 0 := by
  obtain ⟨within,_⟩ := List.getElem?_eq_some_iff.mp listed
  have few : (users.take maxEntries).length ≤ maxEntries := List.length_take_le ..
  have entry := dirEntries_getElem? next (users.take maxEntries) i
  rw [listed,List.take_take,Nat.min_eq_left (by omega)] at entry
  obtain ⟨bound,same⟩ := List.getElem?_eq_some_iff.mp entry
  have place : dirEntrySize * i =
      blockOffset ((dirEntries next (users.take maxEntries)).map List.length) i := by
    rw [dirEntries_sizes,blockOffset_replicate (by omega)]
  have covered : dirEntrySize * i + j < ((dirEntries next (users.take maxEntries)).flatten).length := by
    rw [List.length_flatten,dirEntries_sizes,List.sum_replicate_nat]
    unfold dirEntrySize at *
    omega
  rw [dirSector,List.getD_append _ _ _ _ covered,place,getD_flatten bound,same]
  rwa [same,length_dirEntry]

theorem dirSector_beyond (beyond : (users.take maxEntries).length ≤ i) :
    (dirSector next users).getD (dirEntrySize * i + j) 0 = 0 := by
  have past : ((dirEntries next (users.take maxEntries)).flatten).length ≤ dirEntrySize * i + j := by
    rw [List.length_flatten,dirEntries_sizes,List.sum_replicate_nat]
    unfold dirEntrySize
    omega
  rw [dirSector,List.getD_append_right _ _ _ _ past,List.getD_eq_getElem?_getD,
    List.getElem?_getD_replicate_default_eq]

theorem sectorWord_eq (same : ∀ i < 4, sector (j + i) = (fourBytes word).getD i 0) :
    sectorWord sector j = word := by
  have first := same 0 (by decide)
  rw [Nat.add_zero] at first
  rw [sectorWord,first,same 1 (by decide),same 2 (by decide),same 3 (by decide)]
  exact fourBytes_append word

theorem dirEntry_name (inside : j < 16) :
    (dirEntry user lba sectors).getD j 0 = (strncpy user.name 15 ++ [0]).getD j 0 := by
  have size : (strncpy user.name 15 ++ [0]).length = 16 := by rw [List.length_append,length_strncpy]; rfl
  simp only [dirEntry,List.append_assoc (strncpy user.name 15 ++ [0])]
  exact List.getD_append _ _ _ _ (by omega)

theorem dirEntry_words (inside : j < 4) :
    (dirEntry user lba sectors).getD (16 + j) 0 = (fourBytes (BitVec.ofNat 32 lba)).getD j 0 ∧
    (dirEntry user lba sectors).getD (20 + j) 0 = (fourBytes (BitVec.ofNat 32 sectors)).getD j 0 ∧
    (dirEntry user lba sectors).getD (24 + j) 0 = (fourBytes (BitVec.ofNat 32 user.entry)).getD j 0 := by
  have size : (strncpy user.name 15 ++ [0]).length = 16 := by rw [List.length_append,length_strncpy]; rfl
  have rest : ∀ i, (dirEntry user lba sectors).getD (16 + i) 0 = (fourBytes (BitVec.ofNat 32 lba) ++
      fourBytes (BitVec.ofNat 32 sectors) ++ fourBytes (BitVec.ofNat 32 user.entry) ++ [0,0,0,0]).getD i 0 := by
    intro i
    simp only [dirEntry,List.append_assoc (strncpy user.name 15 ++ [0])]
    rw [List.getD_append_right _ _ _ _ (by omega),size,Nat.add_sub_cancel_left]
  have later := rest (4 + j)
  have last := rest (8 + j)
  rw [← Nat.add_assoc] at later last
  rw [rest,later,last]
  obtain rfl | rfl | rfl | rfl : j = 0 ∨ j = 1 ∨ j = 2 ∨ j = 3 := by omega
  all_goals exact ⟨rfl,rfl,rfl⟩

theorem dirSector_entry (next : Nat) (holds : ∀ j < 512, sector j = (dirSector next users).getD j 0)
    (listed : (users.take maxEntries)[i]? = some user) :
    (∀ j < 16, (programDirEntry sector i).name j = (strncpy user.name 15 ++ [0]).getD j 0) ∧
    (programDirEntry sector i).lba = lbaAfter next (users.take i) % 2^32 ∧
    (programDirEntry sector i).sectors = sectorCount user.strippedSize % 2^32 ∧
    (programDirEntry sector i).entry = user.entry % 2^32 := by
  have low : i < 16 := by
    obtain ⟨within,_⟩ := List.getElem?_eq_some_iff.mp listed
    exact Nat.lt_of_lt_of_le within (List.length_take_le ..)
  have bytes : ∀ j < 32, sector (32 * i + j) =
      (dirEntry user (lbaAfter next (users.take i)) (sectorCount user.strippedSize)).getD j 0 := by
    intro j inside
    rw [holds _ (by omega)]
    exact dirSector_getD listed inside
  have words : ∀ o, o = 16 ∨ o = 20 ∨ o = 24 → ∀ j < 4, sector (32 * i + o + j) =
      (dirEntry user (lbaAfter next (users.take i)) (sectorCount user.strippedSize)).getD (o + j) 0 := by
    intro o among j inside
    rw [Nat.add_assoc]
    exact bytes _ (by omega)
  refine ⟨?_,?_,?_,?_⟩
  · intro j inside
    rw [← dirEntry_name inside]
    exact bytes j (by omega)
  · rw [← BitVec.toNat_ofNat]
    refine congrArg BitVec.toNat (sectorWord_eq (fun j inside => ?_))
    rw [words 16 (by simp) j inside,(dirEntry_words inside).1]
  · rw [← BitVec.toNat_ofNat]
    refine congrArg BitVec.toNat (sectorWord_eq (fun j inside => ?_))
    rw [words 20 (by simp) j inside,(dirEntry_words inside).2.1]
  · rw [← BitVec.toNat_ofNat]
    refine congrArg BitVec.toNat (sectorWord_eq (fun j inside => ?_))
    rw [words 24 (by simp) j inside,(dirEntry_words inside).2.2]

end Directory

section Image

variable {behind : Nat → Nat → Byte} {bb : File} {kern user : FileInfo} {users : List FileInfo} {i j : Nat}

theorem bootStage_eq (bb : File) : bootStage bb = bb.take sectorSize := by
  rw [bootStage,copyRange,copyLoop_eq]
  rfl

theorem patch_getD {image : File} (long : 507 ≤ image.length) (i : Nat) :
    (patch kern image).length = image.length ∧ (patch kern image).getD i 0 =
      if 503 ≤ i ∧ i < 507 then (fourBytes (BitVec.ofNat 32 kern.entry)).getD (i - 503) 0
      else if 6 ≤ i ∧ i < 10 then (fourBytes (BitVec.ofNat 32 (progDirLba kern))).getD (i - 6) 0
      else if 2 ≤ i ∧ i < 6 then (fourBytes (BitVec.ofNat 32 (kernelSectors kern))).getD (i - 2) 0
      else image.getD i 0 := by
  unfold patch
  dsimp only
  have first : (overwrite image osSizeLoc (fourBytes (BitVec.ofNat 32 (kernelSectors kern)))).length =
      image.length := length_overwrite (by rw [length_fourBytes]; unfold osSizeLoc; omega)
  have second : (overwrite (overwrite image osSizeLoc (fourBytes (BitVec.ofNat 32 (kernelSectors kern))))
      progDirLoc (fourBytes (BitVec.ofNat 32 (progDirLba kern)))).length = image.length := by
    rw [length_overwrite,first]
    rw [first,length_fourBytes]
    unfold progDirLoc
    omega
  constructor
  · rw [length_overwrite,second]
    rw [second,length_fourBytes]
    unfold kernelEntryLoc
    omega
  · rw [getD_overwrite (by rw [second,length_fourBytes]; unfold kernelEntryLoc; omega),
      getD_overwrite (by rw [first,length_fourBytes]; unfold progDirLoc; omega),
      getD_overwrite (by rw [length_fourBytes]; unfold osSizeLoc; omega)]
    rfl

theorem patch_beyond {image : File} (long : 507 ≤ image.length) (beyond : 507 ≤ i) :
    (patch kern image).getD i 0 = image.getD i 0 := by
  rw [(patch_getD long i).2,if_neg (by omega),if_neg (by omega),if_neg (by omega)]

/-- The bootblock fills its sector and what is copied of the kernel its sectors, and every program
that the directory has room for is whole. -/
structure Sound (bb : File) (kern : FileInfo) (users : List FileInfo) : Prop where
  boot : sectorSize ≤ bb.length
  kernel : Measures kern.fd
  programs : ∀ user ∈ users.take maxEntries, Whole user.fd

theorem Sound.of_within (boot : bb.length = sectorSize) (kernel : Within kern.fd)
    (programs : ∀ user ∈ users, Within user.fd) : Sound bb kern users :=
  ⟨Nat.le_of_eq boot.symm,kernel.measures,fun user member => (programs user (List.mem_of_mem_take member)).whole⟩

/-- The files have been through `fill_metadata`. -/
structure Parsed (kern : FileInfo) (users : List FileInfo) : Prop where
  kernel : ∃ stop, Measured kern stop
  programs : ∀ user ∈ users, ∃ stop, Measured user stop

def counts (users : List FileInfo) : List Nat := users.map (fun user => sectorCount user.strippedSize)

theorem lbaAfter_eq {next : Nat} (fits : next + (counts users).sum < 2^32) :
    lbaAfter next users = next + (counts users).sum := by
  induction users generalizing next with
  | nil => rfl
  | cons user rest ih =>
    simp only [counts,List.map_cons,List.sum_cons] at fits ⊢
    have here : add32 next (sectorCount user.strippedSize) = next + sectorCount user.strippedSize :=
      add32_eq (by omega)
    rw [lbaAfter,List.foldl_cons,here]
    refine (ih (by unfold counts; omega)).trans ?_
    rw [counts,Nat.add_assoc]

theorem blocks_getElem? (behind : Nat → Nat → Byte) (call : Nat) (users : List FileInfo) (i : Nat) :
    (blocks behind call users)[i]? = users[i]?.map (block (behind (call + i))) := by
  induction users generalizing call i with
  | nil => rfl
  | cons user rest ih =>
    cases i with
    | zero => rfl
    | succ i =>
      rw [blocks,List.getElem?_cons_succ,List.getElem?_cons_succ,ih,Nat.add_assoc,Nat.add_comm 1]

theorem blocks_take (behind : Nat → Nat → Byte) (call : Nat) (users : List FileInfo) (i : Nat) :
    (blocks behind call users).take i = blocks behind call (users.take i) := by
  induction users generalizing call i with
  | nil => simp [blocks]
  | cons user rest ih =>
    cases i with
    | zero => rfl
    | succ i => rw [blocks,List.take_succ_cons,List.take_succ_cons,blocks,ih]

theorem blocks_whole (whole : ∀ user ∈ users, (∃ stop, Measured user stop) ∧ Whole user.fd)
    (behind : Nat → Nat → Byte) (call : Nat) :
    ((blocks behind call users).map List.length).sum = 512 * (counts users).sum ∧
    (counts users).sum ≤ 2^23 * users.length := by
  induction users generalizing call with
  | nil => exact ⟨rfl,Nat.zero_le _⟩
  | cons user rest ih =>
    obtain ⟨⟨_,measured⟩,within⟩ := whole user (by simp)
    obtain ⟨_,_,few,_,size⟩ := block_whole measured within (behind call)
    obtain ⟨sizes,bound⟩ := ih (fun other member => whole other (by simp [member])) (call + 1)
    unfold counts at *
    rw [blocks,List.map_cons,List.sum_cons,List.map_cons,List.sum_cons,sizes,size,List.length_cons]
    omega

theorem programs_eq (behind : Nat → Nat → Byte) (bb : File) (kern : FileInfo) (users : List FileInfo) :
    writePrograms behind 1 users (directoryStage behind bb kern users) =
      bb.take sectorSize ++ block (behind 0) kern ++ dirSector (add32 (progDirLba kern) 1) users ++
        (blocks behind 1 users).flatten := by
  rw [writePrograms_eq,directoryStage,kernelStage,append_eq,bootStage_eq]

theorem programs_long (behind : Nat → Nat → Byte) (bb : File) (kern : FileInfo) (users : List FileInfo) :
    507 ≤ (writePrograms behind 1 users (directoryStage behind bb kern users)).length := by
  rw [programs_eq,List.length_append,List.length_append,length_dirSector]
  unfold sectorSize
  omega

theorem length_writtenImage (behind : Nat → Nat → Byte) (bb : File) (kern : FileInfo) (users : List FileInfo) :
    (writtenImage behind bb kern users).length = (bb.take sectorSize).length + (block (behind 0) kern).length +
      512 + ((blocks behind 1 users).map List.length).sum := by
  rw [writtenImage,(patch_getD (programs_long ..) 0).1,programs_eq,List.length_append,List.length_append,
    List.length_append,length_dirSector,List.length_flatten]
  rfl

section Whole

variable (sound : Sound bb kern users) (parsed : Parsed kern users)

include sound parsed

theorem Sound.kernel_sectors (behind : Nat → Nat → Byte) :
    (bb.take sectorSize).length = 512 ∧ progDirLba kern = 1 + kernelSectors kern ∧
      kernelSectors kern ≤ 2^23 ∧ (block (behind 0) kern).length = 512 * kernelSectors kern := by
  obtain ⟨_,measured⟩ := parsed.kernel
  have size := (block_fills_iff measured (behind 0)).mpr sound.kernel
  have few := few_sectors measured size
  have boot := sound.boot
  refine ⟨by rw [List.length_take,Nat.min_eq_left boot]; rfl,add32_eq ?_,few,size⟩
  unfold kernelSectors
  omega

theorem Sound.image_directory (behind : Nat → Nat → Byte) (inside : j < 512) :
    (writtenImage behind bb kern users).getD (512 * progDirLba kern + j) 0 =
      (dirSector (add32 (progDirLba kern) 1) users).getD j 0 := by
  obtain ⟨boot,lba,_,size⟩ := sound.kernel_sectors parsed behind
  have start : (bb.take sectorSize ++ block (behind 0) kern).length = 512 * progDirLba kern := by
    rw [List.length_append,boot,size,lba]
    omega
  have sector : (dirSector (add32 (progDirLba kern) 1) users).length = 512 := length_dirSector ..
  rw [writtenImage,patch_beyond (programs_long ..) (by omega),programs_eq,List.append_assoc,
    List.getD_append_right _ _ _ _ (by omega),start,Nat.add_sub_cancel_left,
    List.getD_append _ _ _ _ (by omega)]

/-- A listed program is at the sector of its directory entry. -/
theorem Sound.image_program (behind : Nat → Nat → Byte) (listed : (users.take maxEntries)[i]? = some user) :
    lbaAfter (add32 (progDirLba kern) 1) (users.take i) + sectorCount user.strippedSize < 2^28 ∧
    512 * lbaAfter (add32 (progDirLba kern) 1) (users.take i) + 512 * sectorCount user.strippedSize ≤
      (writtenImage behind bb kern users).length ∧
    ∀ j < 512 * sectorCount user.strippedSize,
      (writtenImage behind bb kern users).getD
          (512 * lbaAfter (add32 (progDirLba kern) 1) (users.take i) + j) 0 =
        (block (behind (1 + i)) user).getD j 0 := by
  obtain ⟨boot,lba,few,size⟩ := sound.kernel_sectors parsed behind
  obtain ⟨within,same⟩ := List.getElem?_eq_some_iff.mp listed
  have here : users[i]? = some user := by
    rw [← listed,List.getElem?_take_of_lt]
    exact Nat.lt_of_lt_of_le within (List.length_take_le ..)
  have low : i < maxEntries := Nat.lt_of_lt_of_le within (List.length_take_le ..)
  have sixteen : maxEntries = 16 := rfl
  have whole : ∀ other ∈ users.take maxEntries, (∃ stop, Measured other stop) ∧ Whole other.fd :=
    fun other member => ⟨parsed.programs other (List.mem_of_mem_take member),sound.programs other member⟩
  have earlier : ∀ other ∈ users.take i, (∃ stop, Measured other stop) ∧ Whole other.fd := by
    intro other member
    have shorter : users.take i = (users.take maxEntries).take i := by
      rw [List.take_take,Nat.min_eq_left (Nat.le_of_lt low)]
    exact whole other (List.mem_of_mem_take (shorter ▸ member))
  obtain ⟨sizes,bound⟩ := blocks_whole earlier behind 1
  obtain ⟨⟨_,measured⟩,inFile⟩ := whole user (List.mem_of_getElem? listed)
  obtain ⟨_,_,few',_,size'⟩ := block_whole measured inFile (behind (1 + i))
  have number : (users.take i).length ≤ 15 := by
    rw [List.length_take]
    omega
  have next : add32 (progDirLba kern) 1 = 2 + kernelSectors kern := by
    rw [lba,add32_eq (by omega)]
    omega
  have place : lbaAfter (add32 (progDirLba kern) 1) (users.take i) =
      2 + kernelSectors kern + (counts (users.take i)).sum := by
    rw [next,lbaAfter_eq (by omega)]
  have start : (bb.take sectorSize ++ block (behind 0) kern ++
      dirSector (add32 (progDirLba kern) 1) users).length = 512 * (2 + kernelSectors kern) := by
    rw [List.length_append,List.length_append,boot,size,length_dirSector]
    unfold sectorSize
    omega
  have blocked := blocks_getElem? behind 1 users i
  rw [here] at blocked
  obtain ⟨inside',block'⟩ := List.getElem?_eq_some_iff.mp blocked
  have offset : blockOffset ((blocks behind 1 users).map List.length) i = 512 * (counts (users.take i)).sum := by
    rw [blockOffset,← List.map_take,blocks_take,sizes]
  refine ⟨by omega,?_,fun j inside => ?_⟩
  · have counted : i < ((blocks behind 1 users).map List.length).length := by rwa [List.length_map]
    have ends := blockOffset_add_le counted
    rw [offset,List.getElem_map,block',size'] at ends
    rw [place,length_writtenImage,boot,size]
    omega
  rw [place,writtenImage,patch_beyond (programs_long ..) (by omega),programs_eq,
    List.getD_append_right _ _ _ _ (by omega),start,
    show 512 * (2 + kernelSectors kern + (counts (users.take i)).sum) + j - 512 * (2 + kernelSectors kern) =
      512 * (counts (users.take i)).sum + j by omega,
    ← offset,getD_flatten inside' (by rw [block',size']; exact inside),block']

end Whole

end Image

end RudimentaryKernel.CreateImage
