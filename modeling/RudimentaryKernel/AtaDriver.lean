import RudimentaryKernel.LoadSizes
import RudimentaryKernel.PioDrive

/-! The ATA driver at its ports. Calls of `ata_read_sector` and `ata_write_sector` behind `ata_init`
make the drive an array of sectors, whatever it answers and however long that takes. -/
namespace RudimentaryKernel

open Function List PioDrive

def ataCmdIdentify : Byte := 0xEC
def ataCmdReadSectors : Byte := 0x20
def ataCmdWriteSectors : Byte := 0x30

def ataSrErr : Byte := 0x01
def ataSrDrq : Byte := 0x08
def ataSrDf : Byte := 0x20
def ataSrBsy : Byte := 0x80

namespace AtaDriver

/-- `ata_wait`; `none` is a loop that goes on behind `fuel` reads of the status. -/
def ataWait (mask value : Byte) : Nat → Drive → Option (Int × Drive)
  | 0, _ => none
  | fuel + 1, d =>
    let (status,d) := d.inb .status
    if status &&& ataSrErr ≠ 0 then some (-1,d)
    else if status &&& ataSrDf ≠ 0 then some (-1,d)
    else if status &&& mask = value then some (0,d)
    else ataWait mask value fuel d

def prepared (d : Drive) (r : AtaRegisters) : Drive :=
  let d := d.outb .drive r.drive
  let d := d.outb .secCount 1
  let d := d.outb .lbaLow r.lbaLow
  let d := d.outb .lbaMid r.lbaMid
  d.outb .lbaHigh r.lbaHigh

/-- `for (int i = 0; i < 256; i++) buf[i] = inw(ATA_DATA)`, from `i` on. -/
def takeWords : Nat → Nat → (Nat → Word16) → Drive → (Nat → Word16) × Drive
  | 0, _, buf, d => (buf,d)
  | left + 1, i, buf, d =>
    let (w,d) := d.inw
    takeWords left (i + 1) (update buf i w) d

/-- `for (int i = 0; i < 256; i++) outw(ATA_DATA, buf[i])`, from `i` on. -/
def giveWords : Nat → Nat → (Nat → Word16) → Drive → Drive
  | 0, _, _, d => d
  | left + 1, i, buf, d => giveWords left (i + 1) buf (d.outw (buf i))

def cleared (d : Drive) : Drive :=
  let d := d.outb .drive 0xA0
  let d := d.outb .secCount 0
  let d := d.outb .lbaLow 0
  let d := d.outb .lbaMid 0
  d.outb .lbaHigh 0

/-- `disk.sector_count`, from the words of `IDENTIFY DEVICE`. -/
def sectorCount (identify : Nat → Word16) : BitVec 32 :=
  (identify 61).setWidth 32 <<< 16 ||| (identify 60).setWidth 32

/-- `ata_init` behind the transfer of those words. -/
def described (disk : Disk) (identify : Nat → Word16) (d : Drive) : Int × Disk × Drive :=
  if identify 49 &&& (1 : Word16) <<< 9 = 0 then (-1,disk,d)
  else
    let disk := { disk with sectorCount := (sectorCount identify).toNat }
    if sectorCount identify = 0 then (-1,disk,d) else (0,{ disk with present := true },d)

/-- `ata_init` behind its first wait. -/
def identifying (fuel : Nat) (disk : Disk) (rc : Int) (d : Drive) : Option (Int × Disk × Drive) :=
  if rc < 0 then some (-1,disk,d)
  else if (d.inb .lbaMid).1 ≠ 0 ∨ (d.inb .lbaHigh).1 ≠ 0 then some (-1,disk,d)
  else (ataWait ataSrDrq ataSrDrq fuel d).map fun (rc,d) =>
    if rc < 0 then (-1,disk,d)
    else
      let taken := takeWords 256 0 (fun _ => 0) d
      described disk taken.1 taken.2

def ataInit (fuel : Nat) (disk : Disk) (d : Drive) : Option (Int × Disk × Drive) :=
  let d := (cleared d).outb .status ataCmdIdentify
  let status := (d.inb .status).1
  let d := (d.inb .status).2
  if status = 0 then some (-1,disk,d)
  else (ataWait ataSrBsy 0 fuel d).bind fun (rc,d) => identifying fuel disk rc d

def ataReadSector (fuel : Nat) (disk : Disk) (lba : Nat) (buf : Nat → Word16) (d : Drive) :
    Option (Int × (Nat → Word16) × Drive) :=
  match ataPrepareLba disk lba with
  | none => some (-1,buf,d)
  | some r =>
    (ataWait ataSrDrq ataSrDrq fuel ((prepared d r).outb .status ataCmdReadSectors)).map fun (rc,d) =>
      if rc < 0 then (-1,buf,d) else (0,takeWords 256 0 buf d)

def ataWriteSector (fuel : Nat) (disk : Disk) (lba : Nat) (buf : Nat → Word16) (d : Drive) : Option (Int × Drive) :=
  match ataPrepareLba disk lba with
  | none => some (-1,d)
  | some r =>
    (ataWait ataSrDrq ataSrDrq fuel ((prepared d r).outb .status ataCmdWriteSectors)).bind fun (rc,d) =>
      if rc < 0 then some (-1,d)
      else (ataWait ataSrBsy 0 fuel (giveWords 256 0 buf d)).map fun (rc,d) => if rc < 0 then (-1,d) else (0,d)

section Waiting

variable {mask value : Byte} {d : Drive} {fuel : Nat}

/-- A busy drive does not show what the driver waits for. -/
def Waits (mask value : Byte) : Prop := ∀ b : Byte, b &&& 0x29 = 0 → (0x80 ||| b) &&& mask ≠ value

theorem waits_drq : Waits ataSrDrq ataSrDrq := by
  unfold Waits
  decide +kernel

theorem waits_bsy : Waits ataSrBsy 0 := by
  unfold Waits
  decide +kernel

theorem quiet_fine : ∀ b : Byte, b &&& 0x29 = 0 →
    ¬(0x80 ||| b) &&& ataSrErr ≠ 0 ∧ ¬(0x80 ||| b) &&& ataSrDf ≠ 0 := by
  decide +kernel

theorem ataWait_busy (responds : d.responds = true) (waits : Waits mask value) {b : Byte} {rest : List Byte}
    (quiet : b &&& 0x29 = 0) (busy : d.busy = b :: rest) :
    ataWait mask value (fuel + 1) d = ataWait mask value fuel { d with busy := rest } := by
  obtain ⟨err,df⟩ := quiet_fine b quiet
  rw [ataWait]
  dsimp only [Drive.inb]
  rw [Drive.statusByte_busy responds busy,if_neg err,if_neg df,if_neg (waits b quiet),busy,tail_cons]

theorem ataWait_calm (responds : d.responds = true) (waits : Waits mask value) (quiet : ∀ b ∈ d.busy, b &&& 0x29 = 0)
    (enough : d.busy.length < fuel) :
    ∃ left, ataWait mask value fuel d = ataWait mask value (left + 1) { d with busy := [] } := by
  generalize count : d.busy = busy at quiet enough
  induction busy generalizing d fuel with
  | nil =>
    have some' : 0 < fuel := enough
    refine ⟨fuel - 1,?_⟩
    rw [Nat.sub_add_cancel some',← count]
  | cons b rest ih =>
    obtain ⟨first,later⟩ := forall_mem_cons.mp quiet
    rw [length_cons] at enough
    obtain ⟨fuel,rfl⟩ : ∃ less, fuel = less + 1 := ⟨fuel - 1,by omega⟩
    rw [ataWait_busy responds waits first count]
    exact ih (d := { d with busy := rest }) responds rfl later (by omega)

theorem ataWait_fails (responds : d.responds = true) (waits : Waits mask value) (quiet : ∀ b ∈ d.busy, b &&& 0x29 = 0)
    (enough : d.busy.length < fuel) (failed : (d.error || d.fault) = true) :
    ataWait mask value fuel d = some (-1,{ d with busy := [] }) := by
  obtain ⟨left,calm⟩ := ataWait_calm responds waits quiet enough
  obtain ⟨err,df,_⟩ := Drive.statusByte_calm (d := { d with busy := [] }) responds rfl
  rw [calm,ataWait]
  dsimp only [Drive.inb]
  by_cases error : d.error = true
  · rw [if_pos]
    · rfl
    · rw [ataSrErr,err,if_pos error]
      decide
  · have fault : d.fault = true := (Bool.or_eq_true_iff.mp failed).resolve_left error
    rw [if_neg,if_pos]
    · rfl
    · rw [ataSrDf,df,if_pos fault]
      decide
    · rw [ataSrErr,err,if_neg error]
      decide

theorem ataWait_ready (responds : d.responds = true) (waits : Waits mask value) (quiet : ∀ b ∈ d.busy, b &&& 0x29 = 0)
    (enough : d.busy.length < fuel) (fine : (d.error || d.fault) = false)
    (shown : { d with busy := [] }.statusByte &&& mask = value) :
    ataWait mask value fuel d = some (0,{ d with busy := [] }) := by
  obtain ⟨left,calm⟩ := ataWait_calm responds waits quiet enough
  obtain ⟨err,df,_⟩ := Drive.statusByte_calm (d := { d with busy := [] }) responds rfl
  obtain ⟨error,fault⟩ := Bool.or_eq_false_iff.mp fine
  rw [calm,ataWait]
  dsimp only [Drive.inb]
  rw [if_neg,if_neg,if_pos shown]
  · rfl
  · rw [ataSrDf,df,fault]
    decide
  · rw [ataSrErr,err,error]
    decide

/-- The bits are looked at in front of `BSY`: a drive that shows an error while it is busy is given
up as it is, and the next command is lost on it. -/
theorem ataWait_misled (responds : d.responds = true) {b : Byte} {rest : List Byte} (busy : d.busy = b :: rest)
    (shows : b &&& 0x21 ≠ 0) : ataWait mask value (fuel + 1) d = some (-1,{ d with busy := rest }) := by
  have bits : ∀ b : Byte, b &&& 0x21 ≠ 0 → (0x80 ||| b) &&& ataSrErr ≠ 0 ∨ (0x80 ||| b) &&& ataSrDf ≠ 0 := by
    decide +kernel
  rw [ataWait]
  dsimp only [Drive.inb]
  rw [Drive.statusByte_busy responds busy,busy,tail_cons]
  rcases bits b shows with err | df
  · rw [if_pos err]
  · by_cases err : (0x80 ||| b) &&& ataSrErr ≠ 0
    · rw [if_pos err]
    · rw [if_neg err,if_pos df]

end Waiting

section Transfers

theorem takeWords_all {words : List Word16} {d : Drive} (responds : d.responds = true) (calm : d.busy = [])
    (phase : d.phase = .giving words) (some' : words ≠ []) (buf : Nat → Word16) (i : Nat) : takeWords words.length i buf d =
      (fun j => if i ≤ j ∧ j < i + words.length then words.getD (j - i) 0 else buf j,{ d with phase := .rest }) := by
  induction words generalizing d buf i with
  | nil => exact absurd rfl some'
  | cons w rest ih =>
    rw [length_cons,takeWords,Drive.inw_giving responds calm phase]
    dsimp only
    have split : ∀ (rest' : Nat → Word16), (∀ j, rest' j = if i + 1 ≤ j ∧ j < i + 1 + rest.length then
          rest.getD (j - (i + 1)) 0 else update buf i w j) →
        rest' = fun j => if i ≤ j ∧ j < i + (rest.length + 1) then (w :: rest).getD (j - i) 0 else buf j := by
      intro rest' is
      funext j
      rw [is]
      by_cases first : j = i
      · rw [first,if_neg (by omega),update_self,if_pos (by omega),Nat.sub_self]
        rfl
      · rw [update_of_ne first]
        by_cases later : i + 1 ≤ j ∧ j < i + 1 + rest.length
        · rw [if_pos later,if_pos (by omega),show j - i = j - (i + 1) + 1 by omega]
          rfl
        · rw [if_neg later,if_neg (by omega)]
    by_cases last : rest = []
    · subst last
      rw [if_pos rfl]
      refine Prod.ext (split _ ?_) rfl
      intro j
      rw [if_neg (by simp)]
      rfl
    · rw [if_neg last,ih (d := { d with phase := .giving rest }) responds calm rfl last]
      exact Prod.ext (split _ (fun j => rfl)) rfl

def filled (words : List Word16) (buf : Nat → Word16) : Nat → Word16 := fun j => if j < 256 then words.getD j 0 else buf j

theorem takeWords_sector {words : List Word16} {d : Drive} (responds : d.responds = true) (calm : d.busy = [])
    (phase : d.phase = .giving words) (full : words.length = 256) (buf : Nat → Word16) :
    takeWords 256 0 buf d = (filled words buf,{ d with phase := .rest }) := by
  have taken := takeWords_all responds calm phase (by rw [← length_pos_iff,full]; decide) buf 0
  rw [full] at taken
  rw [taken]
  refine Prod.ext ?_ rfl
  funext j
  dsimp only [filled]
  rw [Nat.zero_add,Nat.sub_zero]
  exact if_congr (by simp) rfl rfl

theorem filled_range {words : List Word16} (full : words.length = 256) (buf : Nat → Word16) :
    (range 256).map (filled words buf) = words := by
  apply ext_getElem
  · rw [length_map,length_range,full]
  · intro j _ inside
    rw [getElem_map,getElem_range,filled,if_pos (by omega),getD_eq_getElem?_getD,getElem?_eq_getElem inside,
      Option.getD_some]

theorem giveWords_some {lba left i : Nat} {buf : Nat → Word16} {d : Drive} {words : List Word16}
    (responds : d.responds = true) (calm : d.busy = []) (phase : d.phase = .taking lba words)
    (room : words.length + left < 256) : giveWords left i buf d = { d with phase := .taking lba (words ++ (range' i left).map buf) } := by
  induction left generalizing d i words with
  | zero =>
    rw [range'_zero,map_nil,append_nil,← phase]
    rfl
  | succ left ih =>
    have word : d.outw (buf i) = { d with phase := .taking lba (words ++ [buf i]) } := by
      rw [Drive.outw_taking responds calm phase,if_pos (by omega)]
    have more : (words ++ [buf i]).length + left < 256 := by
      rw [length_append,length_singleton]
      omega
    rw [giveWords,word,ih (d := { d with phase := .taking lba (words ++ [buf i]) }) responds calm rfl more,range'_succ,map_cons,
      append_assoc]
    rfl

theorem giveWords_split (a b i : Nat) (buf : Nat → Word16) (d : Drive) :
    giveWords (a + b) i buf d = giveWords b (i + a) buf (giveWords a i buf d) := by
  induction a generalizing i d with
  | zero => rw [Nat.zero_add,giveWords,Nat.add_zero]
  | succ a ih => rw [Nat.add_right_comm,giveWords,giveWords,ih,Nat.add_assoc,Nat.add_comm 1 a]

theorem giveWords_all {lba : Nat} {buf : Nat → Word16} {d : Drive} (responds : d.responds = true) (calm : d.busy = [])
    (phase : d.phase = .taking lba []) : giveWords 256 0 buf d = { d.answering with
      phase := .rest
      sectors := if (d.answers d.answered).fails && !(d.answers d.answered).kept then d.sectors
        else update d.sectors lba ((range 256).map buf) } := by
  have words : ∀ n, (range' 0 n).map buf ++ [buf n] = (range (n + 1)).map buf := by
    intro n
    rw [← range_eq_range',range_succ,map_append,map_singleton]
  have last : ∀ e : Drive, e.responds = true → e.busy = [] → e.phase = .taking lba ((range' 0 255).map buf) →
      e.outw (buf 255) = { e.answering with
      phase := .rest
      sectors := if (e.answers e.answered).fails && !(e.answers e.answered).kept then e.sectors
        else update e.sectors lba ((range 256).map buf) } := by
    intro e responds calm phase
    rw [Drive.outw_taking responds calm phase,if_neg (by simp),words]
  rw [show (256 : Nat) = 255 + 1 from rfl,giveWords_split,giveWords_some responds calm phase (by decide),giveWords,giveWords,
    Nat.zero_add,last { d with phase := .taking lba ([] ++ (range' 0 255).map buf) } responds calm rfl]
  rfl

end Transfers

/-- Between two calls: no transfer, nothing to wait for. -/
structure Rests (d : Drive) : Prop where
  present : d.present = true
  phase : d.phase = .rest
  calm : d.busy = []
  quiet : ∀ k, (d.answers k).Quiet
  full : ∀ lba, (d.sectors lba).length = 256

section Calls

variable {d : Drive} {disk : Disk} {lba fuel : Nat} {r : AtaRegisters} {buf : Nat → Word16}

theorem prepared_eq (calm : d.busy = []) (r : AtaRegisters) : prepared d r = { d with
    select := r.drive, secCount := 1, lbaLow := r.lbaLow, lbaMid := r.lbaMid, lbaHigh := r.lbaHigh } := by
  cases d
  dsimp only at calm
  subst calm
  rfl

theorem drive_bits (n : Byte) (small : n.toNat < 16) :
    (0xE0 ||| n).getLsbD 4 = false ∧ (0xE0 ||| n).getLsbD 6 = true := by
  revert n
  decide +kernel

/-- `0xE0`: the first drive, and a sector by its number. -/
theorem prepared_select (ready : ataPrepareLba disk lba = some r) :
    r.drive.getLsbD 4 = false ∧ r.drive.getLsbD 6 = true := by
  unfold ataPrepareLba at ready
  split at ready
  · contradiction
  · split at ready
    · contradiction
    · split at ready
      · contradiction
      · obtain rfl := Option.some.inj ready
        refine drive_bits _ ?_
        rw [BitVec.toNat_ofNat]
        omega

def commandGranted (d : Drive) (lba : Nat) : Bool := !(d.answers d.answered).fails && decide (lba < d.capacity)

theorem prepared_facts (calm : d.busy = []) (ready : ataPrepareLba disk lba = some r) :
    (prepared d r).responds = d.present ∧ (prepared d r).busy = [] ∧
    (prepared d r).accepted = (if commandGranted d lba then some lba else none) ∧
    (prepared d r).sectors = d.sectors ∧ (prepared d r).identify = d.identify ∧ (prepared d r).answers = d.answers ∧
    (prepared d r).answered = d.answered := by
  obtain ⟨first,number⟩ := prepared_select ready
  rw [prepared_eq calm]
  generalize prep : ({ d with
    select := r.drive, secCount := 1, lbaLow := r.lbaLow, lbaMid := r.lbaMid, lbaHigh := r.lbaHigh } : Drive) = e
  have address : e.address = some lba := by
    rw [Drive.address,← prep]
    dsimp only
    rw [if_pos number]
    exact congrArg some (ataPrepareLba_address ready).1
  subst prep
  refine ⟨?_,calm,?_,rfl,rfl,rfl,rfl⟩
  · change (d.present && !r.drive.getLsbD 4) = d.present
    rw [first,Bool.not_false,Bool.and_true]
  · rw [Drive.accepted,commandGranted]
    cases failed : (d.answers d.answered).fails with
    | true => rfl
    | false =>
      rw [if_neg (by simp),address,Option.filter_some]
      rfl

theorem refusing_fails (d : Drive) : (d.refusing.error || d.refusing.fault) = true := by
  change ((d.answers d.answered).error || !(d.answers d.answered).fault || (d.answers d.answered).fault) = true
  cases (d.answers d.answered).error <;> cases (d.answers d.answered).fault <;> rfl

theorem accepted_fine (accepted : d.accepted = some lba) : (d.answers d.answered).fails = false := by
  rw [Drive.accepted] at accepted
  split at accepted
  · contradiction
  · rename_i fine
    rw [not_or] at fine
    exact Bool.eq_false_iff.mpr fine.1

theorem waited {code : Byte} {phase : Nat → Phase} (responds : d.responds = true) (calm : d.busy = [])
    (quiet : (d.answers d.answered).Quiet) (enough : (d.answers d.answered).shown.length < fuel)
    (command : d.command code = match d.accepted with
      | some lba => { d.answering with phase := phase lba }
      | none => d.refusing) (asks : ∀ lba, phase lba ≠ .rest) :
    ataWait ataSrDrq ataSrDrq fuel (d.outb .status code) = match d.accepted with
      | some lba => some (0,{ d.answering with phase := phase lba, busy := [] })
      | none => some (-1,{ d.refusing with busy := [] }) := by
  rw [Drive.outb_calm calm,command]
  cases accepted : d.accepted with
  | some lba =>
    have requests : ({ d.answering with phase := phase lba, busy := [] } : Drive).requests = true := by
      have some' := asks lba
      rw [Drive.requests]
      split
      · contradiction
      · rfl
      · rfl
    have drq := (Drive.statusByte_calm (d := { d.answering with phase := phase lba, busy := [] }) responds rfl).2.2.1
    rw [if_pos requests] at drq
    exact ataWait_ready (d := { d.answering with phase := phase lba }) responds waits_drq quiet enough
      (accepted_fine accepted) drq
  | none => exact ataWait_fails (d := d.refusing) responds waits_drq quiet enough (refusing_fails d)

theorem ataReadSector_spec (buf : Nat → Word16) (rests : Rests d) (ready : ataPrepareLba disk lba = some r)
    (enough : (d.answers d.answered).shown.length < fuel) : ∃ d', Rests d' ∧ d'.sectors = d.sectors ∧
      d'.identify = d.identify ∧ d'.answers = d.answers ∧ ataReadSector fuel disk lba buf d =
        some (if commandGranted d lba then (0,filled (d.sectors lba) buf,d') else (-1,buf,d')) := by
  obtain ⟨responds,calm,accepted,sectors,identify,answers,answered⟩ := prepared_facts rests.calm ready
  rw [rests.present] at responds
  rw [ataReadSector,ready]
  dsimp only
  generalize prepared d r = e at *
  have quiet : ∀ k, (e.answers k).Quiet := by
    rw [answers]
    exact rests.quiet
  have full : ∀ lba, (e.sectors lba).length = 256 := by
    rw [sectors]
    exact rests.full
  have present := (Drive.responds_eq responds).1
  rw [← answers,← answered] at enough
  rw [ataCmdReadSectors,waited responds calm (quiet _) enough (Drive.command_read responds) (fun _ => nofun),accepted]
  by_cases ok : commandGranted d lba = true
  · have taken := takeWords_sector (d := { e.answering with phase := .giving (e.sectors lba), busy := [] }) responds rfl rfl
      (full lba) buf
    refine ⟨{ e.answering with phase := .rest, busy := [] },⟨present,rfl,rfl,quiet,full⟩,sectors,identify,answers,?_⟩
    rw [if_pos ok,if_pos ok]
    dsimp only
    rw [Option.map_some]
    dsimp only
    rw [if_neg (by decide),taken,sectors]
  · refine ⟨{ e.refusing with busy := [] },⟨present,rfl,rfl,quiet,full⟩,sectors,identify,answers,?_⟩
    rw [if_neg ok,if_neg ok]
    rfl

theorem stored (buf : Nat → Word16) (responds : d.responds = true) (calm : d.busy = []) (phase : d.phase = .taking lba [])
    (quiet : (d.answers d.answered).Quiet) (enough : (d.answers d.answered).shown.length < fuel) :
    ∃ d', d'.present = true ∧ d'.phase = .rest ∧ d'.busy = [] ∧ d'.identify = d.identify ∧ d'.answers = d.answers ∧
      d'.sectors = (if (d.answers d.answered).fails && !(d.answers d.answered).kept then d.sectors
        else update d.sectors lba ((range 256).map buf)) ∧
      ataWait ataSrBsy 0 fuel (giveWords 256 0 buf d) = some (if (d.answers d.answered).fails then -1 else 0,d') := by
  rw [giveWords_all responds calm phase]
  generalize given : ({ d.answering with
    phase := .rest
    sectors := if (d.answers d.answered).fails && !(d.answers d.answered).kept then d.sectors
      else update d.sectors lba ((range 256).map buf) } : Drive) = g
  have facts : g.responds = true ∧ g.phase = .rest ∧ g.busy = (d.answers d.answered).shown ∧ g.identify = d.identify ∧
      g.answers = d.answers ∧ (g.error || g.fault) = (d.answers d.answered).fails ∧
      g.sectors = if (d.answers d.answered).fails && !(d.answers d.answered).kept then d.sectors
        else update d.sectors lba ((range 256).map buf) := by
    rw [← given]
    exact ⟨responds,rfl,rfl,rfl,rfl,rfl,rfl⟩
  obtain ⟨responds,phase,busy,identify,answers,shows,sectors⟩ := facts
  have shown : { g with busy := [] }.statusByte &&& ataSrBsy = 0 :=
    (Drive.statusByte_calm (d := { g with busy := [] }) responds rfl).2.2.2
  have quiet' : ∀ b ∈ g.busy, b &&& 0x29 = 0 := by
    rw [busy]
    exact quiet
  rw [← busy] at enough
  refine ⟨{ g with busy := [] },(Drive.responds_eq responds).1,phase,rfl,identify,answers,sectors,?_⟩
  cases failed : (d.answers d.answered).fails with
  | true => exact ataWait_fails responds waits_bsy quiet' enough (shows.trans failed)
  | false => exact ataWait_ready responds waits_bsy quiet' enough (shows.trans failed) shown

theorem ataWriteSector_spec (buf : Nat → Word16) (rests : Rests d) (ready : ataPrepareLba disk lba = some r)
    (enough : (d.answers d.answered).shown.length < fuel) (enough' : (d.answers (d.answered + 1)).shown.length < fuel) :
    ∃ d', Rests d' ∧ d'.identify = d.identify ∧ d'.answers = d.answers ∧
      (d'.sectors = if commandGranted d lba && !((d.answers (d.answered + 1)).fails && !(d.answers (d.answered + 1)).kept)
        then update d.sectors lba ((range 256).map buf) else d.sectors) ∧
      ataWriteSector fuel disk lba buf d =
        some (if commandGranted d lba && !(d.answers (d.answered + 1)).fails then 0 else -1,d') := by
  obtain ⟨responds,calm,accepted,sectors,identify,answers,answered⟩ := prepared_facts rests.calm ready
  rw [rests.present] at responds
  rw [ataWriteSector,ready]
  dsimp only
  generalize prepared d r = e at *
  have quiet : ∀ k, (e.answers k).Quiet := by
    rw [answers]
    exact rests.quiet
  rw [← answers,← answered] at enough enough'
  rw [ataCmdWriteSectors,waited responds calm (quiet _) enough (Drive.command_write responds) (fun _ => nofun),accepted]
  by_cases ok : commandGranted d lba = true
  · rw [if_pos ok,ok,Bool.true_and,Bool.true_and]
    dsimp only
    rw [Option.bind_some]
    dsimp only
    rw [if_neg (show ¬(0 : Int) < 0 by decide),← answers,← answered]
    obtain ⟨g,there,rest,calm',same,answers',kept,wait⟩ := stored
      (d := { e.answering with phase := .taking lba [], busy := [] }) buf responds rfl rfl (quiet _) enough'
    have kept : g.sectors = if (e.answers (e.answered + 1)).fails && !(e.answers (e.answered + 1)).kept then d.sectors
        else update d.sectors lba ((range 256).map buf) := by
      rw [← sectors]
      exact kept
    refine ⟨g,⟨there,rest,calm',?_,?_⟩,same.trans identify,answers',?_,?_⟩
    · rw [answers']
      exact quiet
    · intro other
      rw [kept]
      split
      · exact rests.full other
      · by_cases here : other = lba
        · rw [here,update_self,length_map,length_range]
        · rw [update_of_ne here]
          exact rests.full other
    · rw [kept]
      cases (e.answers (e.answered + 1)).fails && !(e.answers (e.answered + 1)).kept <;> rfl
    · rw [wait]
      change some (if (if (e.answers (e.answered + 1)).fails = true then (-1 : Int) else 0) < 0 then (-1,g) else (0,g)) = _
      cases (e.answers (e.answered + 1)).fails <;> rfl
  · refine ⟨{ e.refusing with busy := [] },⟨(Drive.responds_eq responds).1,rfl,rfl,quiet,?_⟩,identify,answers,?_,?_⟩
    · intro lba
      change (e.sectors lba).length = 256
      rw [sectors]
      exact rests.full lba
    · rw [Bool.eq_false_iff.mpr ok,Bool.false_and]
      exact sectors
    · rw [if_neg ok,Bool.eq_false_iff.mpr ok,Bool.false_and]
      rfl

theorem sectorCount_eq (identify : Nat → Word16) :
    (sectorCount identify).toNat = (identify 61).toNat * 2^16 + (identify 60).toNat := by
  have high : (identify 61).toNat < 2^16 := (identify 61).isLt
  have low : (identify 60).toNat < 2^16 := (identify 60).isLt
  rw [sectorCount,BitVec.toNat_or,BitVec.toNat_shiftLeft,BitVec.toNat_setWidth,BitVec.toNat_setWidth,
    Nat.mod_eq_of_lt (by omega),Nat.mod_eq_of_lt (a := (identify 60).toNat) (by omega),
    Nat.mod_eq_of_lt (by omega),← Nat.shiftLeft_add_eq_or_of_lt low,Nat.shiftLeft_eq]

theorem cleared_eq (calm : d.busy = []) : cleared d = { d with
    select := 0xA0, secCount := 0, lbaLow := 0, lbaMid := 0, lbaHigh := 0 } := by
  cases d
  dsimp only at calm
  subst calm
  rfl

/-- `0xA0`: the first drive. -/
theorem cleared_facts (calm : d.busy = []) : (cleared d).responds = d.present ∧ (cleared d).present = d.present ∧
    (cleared d).busy = [] ∧ (cleared d).sectors = d.sectors ∧ (cleared d).identify = d.identify ∧
    (cleared d).answers = d.answers ∧ (cleared d).answered = d.answered ∧ (cleared d).signature = d.signature := by
  rw [cleared_eq calm]
  refine ⟨?_,rfl,calm,rfl,rfl,rfl,rfl,rfl⟩
  change (d.present && !(0xA0 : Byte).getLsbD 4) = d.present
  rw [show (0xA0 : Byte).getLsbD 4 = false by decide,Bool.not_false,Bool.and_true]

def supported (d : Drive) : Bool :=
  d.present && !(d.answers d.answered).fails && decide (d.signature = (0,0)) &&
    decide (d.identify.getD 49 0 &&& (1 : Word16) <<< 9 ≠ 0) && decide (d.capacity ≠ 0)

theorem identified (responds : d.responds = true) (quiet : (d.answers d.answered).Quiet)
    (enough : (d.answers d.answered).shown.length < fuel) :
    ((d.command 0xEC).inb .status).1 ≠ 0 ∧ ∃ e : Drive, e.responds = true ∧ e.busy = [] ∧ e.sectors = d.sectors ∧
      e.identify = d.identify ∧ e.answers = d.answers ∧
      ((d.answers d.answered).fails = false → e.phase = .giving d.identify ∧ (e.error || e.fault) = false ∧
        (e.lbaMid,e.lbaHigh) = d.signature) ∧
      ataWait ataSrBsy 0 fuel ((d.command 0xEC).inb .status).2 = some (if (d.answers d.answered).fails then -1 else 0,e) := by
  have facts : (d.command 0xEC).responds = true ∧ (d.command 0xEC).busy = (d.answers d.answered).shown ∧
      (d.command 0xEC).sectors = d.sectors ∧ (d.command 0xEC).identify = d.identify ∧
      (d.command 0xEC).answers = d.answers ∧
      ((d.command 0xEC).error || (d.command 0xEC).fault) = (d.answers d.answered).fails ∧
      ((d.answers d.answered).fails = false → (d.command 0xEC).phase = .giving d.identify ∧
        ((d.command 0xEC).lbaMid,(d.command 0xEC).lbaHigh) = d.signature) := by
    rw [Drive.command,if_neg (by rw [responds]; decide),if_pos rfl]
    split
    · rename_i failed
      refine ⟨responds,rfl,rfl,rfl,rfl,rfl,?_⟩
      intro fine
      rw [failed] at fine
      contradiction
    · exact ⟨responds,rfl,rfl,rfl,rfl,rfl,fun _ => ⟨rfl,rfl⟩⟩
  generalize d.command 0xEC = e at *
  obtain ⟨there,busy,sectors,identify,answers,shows,giving⟩ := facts
  have shown : { e with busy := [] }.statusByte &&& ataSrBsy = 0 :=
    (Drive.statusByte_calm (d := { e with busy := [] }) there rfl).2.2.2
  refine ⟨Drive.statusByte_ne_zero there,{ e with busy := [] },there,rfl,sectors,identify,answers,?_,?_⟩
  · intro fine
    obtain ⟨phase,signature⟩ := giving fine
    exact ⟨phase,shows.trans fine,signature⟩
  · -- the read of the status in front of the wait has taken one poll
    have less : e.busy.tail.length < fuel := by
      rw [length_tail,busy]
      omega
    have quiet' : ∀ b ∈ e.busy.tail, b &&& 0x29 = 0 := by
      rw [busy]
      exact fun b member => quiet b (mem_of_mem_tail member)
    cases failed : (d.answers d.answered).fails with
    | true => exact ataWait_fails (d := { e with busy := e.busy.tail }) there waits_bsy quiet' less (shows.trans failed)
    | false =>
      exact ataWait_ready (d := { e with busy := e.busy.tail }) there waits_bsy quiet' less (shows.trans failed) shown

theorem described_spec (disk : Disk) (words : List Word16) :
    ∃ disk', described disk (filled words (fun _ => 0)) d =
        (if decide (words.getD 49 0 &&& (1 : Word16) <<< 9 ≠ 0) &&
          decide ((words.getD 61 0).toNat * 2^16 + (words.getD 60 0).toNat ≠ 0) then 0 else -1,disk',d) ∧
      if decide (words.getD 49 0 &&& (1 : Word16) <<< 9 ≠ 0) &&
          decide ((words.getD 61 0).toNat * 2^16 + (words.getD 60 0).toNat ≠ 0)
        then disk' = ⟨(words.getD 61 0).toNat * 2^16 + (words.getD 60 0).toNat,true⟩ else disk'.present = disk.present := by
  have count := sectorCount_eq (filled words (fun _ => 0))
  have word : ∀ j < 256, filled words (fun _ => 0) j = words.getD j 0 := fun j inside => if_pos inside
  rw [word 60 (by decide),word 61 (by decide)] at count
  rw [described,word 49 (by decide)]
  by_cases large : words.getD 49 0 &&& (1 : Word16) <<< 9 = 0
  · rw [if_pos large,decide_eq_false (not_not_intro large)]
    exact ⟨disk,rfl,rfl⟩
  · rw [if_neg large,decide_eq_true large,Bool.true_and,← count]
    by_cases none : sectorCount (filled words fun _ => 0) = 0
    · have zero : (sectorCount (filled words fun _ => 0)).toNat = 0 := by
        rw [none]
        rfl
      rw [if_pos none,decide_eq_false (not_not_intro zero)]
      exact ⟨_,rfl,rfl⟩
    · have some' : (sectorCount (filled words fun _ => 0)).toNat ≠ 0 := fun zero => none (BitVec.eq_of_toNat_eq zero)
      rw [if_neg none,decide_eq_true some']
      exact ⟨_,rfl,rfl⟩

/-- Without a drive the first read of the status, or the first wait, tells. -/
theorem absent_found (absent : d.present = false) (some' : 0 < fuel) : (d.inb .status).1 = 0 ∨
    (d.inb .status).1 ≠ 0 ∧ ∃ d', d'.sectors = d.sectors ∧ d'.identify = d.identify ∧ d'.answers = d.answers ∧
      ataWait ataSrBsy 0 fuel (d.inb .status).2 = some (-1,d') := by
  obtain ⟨fuel,rfl⟩ : ∃ less, fuel = less + 1 := ⟨fuel - 1,by omega⟩
  have status : ∀ {up} (e : Drive), e.present = false → e.pulledUp = up → e.statusByte = if up then 0xFF else 0 := by
    rintro _ e none rfl
    exact if_pos none
  cases up : d.pulledUp with
  | false => exact .inl (status d absent up)
  | true =>
    have first : (d.inb .status).1 = 0xFF := status d absent up
    refine .inr ⟨by rw [first]; decide,{ d with busy := d.busy.tail.tail },rfl,rfl,rfl,?_⟩
    rw [ataWait]
    dsimp only [Drive.inb]
    rw [status { d with busy := d.busy.tail } absent up,if_pos (by decide)]

/-- A drive of another kind is left alone. -/
theorem identifying_other (disk : Disk) (kind : (d.lbaMid,d.lbaHigh) ≠ (0,0)) :
    identifying fuel disk 0 d = some (-1,disk,d) := by
  have other : (d.inb .lbaMid).1 ≠ 0 ∨ (d.inb .lbaHigh).1 ≠ 0 := by
    change d.lbaMid ≠ 0 ∨ d.lbaHigh ≠ 0
    by_contra zero
    rw [not_or,not_not,not_not] at zero
    exact kind (Prod.ext zero.1 zero.2)
  rw [identifying,if_neg (show ¬(0 : Int) < 0 by decide),if_pos other]

/-- An ATA drive gives its page, which is read whole. -/
theorem identifying_page (disk : Disk) {words : List Word16} (there : d.responds = true) (calm : d.busy = [])
    (phase : d.phase = .giving words) (page : words.length = 256) (fine : (d.error || d.fault) = false)
    (kind : (d.lbaMid,d.lbaHigh) = (0,0)) (enough : 0 < fuel) :
    identifying fuel disk 0 d = some (described disk (filled words (fun _ => 0)) { d with busy := [], phase := .rest }) := by
  obtain ⟨mid,high⟩ := Prod.mk.inj kind
  have ata : ¬((d.inb .lbaMid).1 ≠ 0 ∨ (d.inb .lbaHigh).1 ≠ 0) := by
    change ¬(d.lbaMid ≠ 0 ∨ d.lbaHigh ≠ 0)
    rw [mid,high]
    decide
  have requests : ({ d with busy := [] } : Drive).requests = true := by
    rw [Drive.requests,phase]
  have drq : { d with busy := [] }.statusByte &&& ataSrDrq = ataSrDrq :=
    (Drive.statusByte_calm (d := { d with busy := [] }) there rfl).2.2.1.trans (if_pos requests)
  have quiet : ∀ b ∈ d.busy, b &&& 0x29 = 0 := by
    rw [calm]
    simp
  have short : d.busy.length < fuel := by
    rw [calm,length_nil]
    exact enough
  have taken := takeWords_sector (d := { d with busy := [] }) there rfl phase page (fun _ => 0)
  rw [identifying,if_neg (show ¬(0 : Int) < 0 by decide),if_neg ata,ataWait_ready there waits_drq quiet short fine drq,
    Option.map_some]
  dsimp only
  rw [if_neg (by decide),taken]

/-- `ata_init` finds out how many sectors there are, or leaves the disk as absent as it was. -/
theorem ataInit_spec (disk : Disk) (full : ∀ lba, (d.sectors lba).length = 256) (page : d.identify.length = 256)
    (calm : d.busy = []) (quiet : ∀ k, (d.answers k).Quiet) (enough : (d.answers d.answered).shown.length < fuel) :
    ∃ disk' d', d'.sectors = d.sectors ∧ d'.identify = d.identify ∧ d'.answers = d.answers ∧
      ataInit fuel disk d = some (if supported d then 0 else -1,disk',d') ∧
      if supported d then disk' = ⟨d.capacity,true⟩ ∧ Rests d' else disk'.present = disk.present := by
  obtain ⟨responds,present,calm',sectors,identify,answers,answered,signature⟩ := cleared_facts calm
  rw [ataInit]
  dsimp only
  generalize cleared d = c at *
  rw [Drive.outb_calm calm',ataCmdIdentify]
  have unsupported : ∀ {d' : Drive} {result : Option (Int × Disk × Drive)}, supported d = false →
      d'.sectors = c.sectors → d'.identify = c.identify → d'.answers = c.answers → result = some (-1,disk,d') →
      ∃ disk' d', d'.sectors = d.sectors ∧ d'.identify = d.identify ∧ d'.answers = d.answers ∧
        result = some (if supported d then 0 else -1,disk',d') ∧
        if supported d then disk' = ⟨d.capacity,true⟩ ∧ Rests d' else disk'.present = disk.present := by
    intro d' result no sectors' identify' answers' is
    rw [no]
    exact ⟨disk,d',sectors'.trans sectors,identify'.trans identify,answers'.trans answers,is,rfl⟩
  by_cases there : d.present = true
  · rw [← answers,← answered] at enough
    rw [← answers] at quiet
    obtain ⟨shows,e,there',calm,kept,same,answers',giving,wait⟩ := identified (responds.trans there) (quiet _) enough
    rw [if_neg shows,wait,Option.bind_some]
    cases failed : (c.answers c.answered).fails with
    | true =>
      refine unsupported ?_ kept same answers' (if_pos (show (-1 : Int) < 0 by decide))
      rw [supported,← answers,← answered,failed,Bool.not_true,Bool.and_false]
      rfl
    | false =>
      obtain ⟨phase,fine,kind⟩ := giving failed
      dsimp only
      rw [if_neg Bool.false_ne_true]
      rw [signature] at kind
      by_cases plain : d.signature = (0,0)
      · rw [identify] at phase same
        rw [identifying_page disk there' calm phase page fine (kind.trans plain) (Nat.zero_lt_of_lt enough)]
        obtain ⟨disk',result,known⟩ := described_spec (d := { e with busy := [], phase := .rest }) disk d.identify
        have whole : supported d = (decide (d.identify.getD 49 0 &&& (1 : Word16) <<< 9 ≠ 0) && decide (d.capacity ≠ 0)) := by
          rw [supported,there,← answers,← answered,failed,decide_eq_true plain]
          rfl
        rw [← Drive.capacity,← whole] at result known
        refine ⟨disk',{ e with busy := [], phase := .rest },kept.trans sectors,same,answers'.trans answers,congrArg some result,?_⟩
        split at known
        · rename_i fits
          rw [if_pos fits]
          refine ⟨known,(Drive.responds_eq there').1,rfl,rfl,?_,?_⟩
          · change ∀ k, (e.answers k).Quiet
            rw [answers']
            exact quiet
          · intro lba
            change (e.sectors lba).length = 256
            rw [kept,sectors]
            exact full lba
        · rename_i unfit
          rw [if_neg unfit]
          exact known
      · rw [identifying_other disk (kind ▸ plain)]
        refine unsupported ?_ kept same answers' rfl
        rw [supported,decide_eq_false plain,Bool.and_false]
        rfl
  · have absent : c.present = false := by
      rw [present]
      exact Bool.eq_false_iff.mpr there
    have nothing : c.command 0xEC = c := by
      refine if_pos ?_
      rw [Drive.responds,absent,Bool.false_and]
    rw [nothing]
    have missing : supported d = false := by
      rw [supported,Bool.eq_false_iff.mpr there]
      rfl
    rcases absent_found absent (Nat.zero_lt_of_lt enough) with zero | ⟨ones,e,kept,same,answers',wait⟩
    · rw [if_pos zero]
      exact @unsupported (c.inb .status).2 _ missing rfl rfl rfl rfl
    · rw [if_neg ones,wait,Option.bind_some]
      exact unsupported missing kept same answers' (if_pos (show (-1 : Int) < 0 by decide))

end Calls

section Longer

variable {mask value : Byte} {d : Drive} {disk : Disk} {lba fuel more : Nat} {buf : Nat → Word16}

theorem ataWait_more {x : Int × Drive} (ended : ataWait mask value fuel d = some x) (longer : fuel ≤ more) :
    ataWait mask value more d = some x := by
  induction fuel generalizing d more with
  | zero => contradiction
  | succ fuel ih =>
    obtain ⟨more,rfl⟩ : ∃ less, more = less + 1 := ⟨more - 1,by omega⟩
    rw [ataWait] at ended ⊢
    dsimp only at ended ⊢
    split at ended
    · rename_i err
      rw [if_pos err,ended]
    · rename_i err
      rw [if_neg err]
      split at ended
      · rename_i df
        rw [if_pos df,ended]
      · rename_i df
        rw [if_neg df]
        split at ended
        · rename_i done
          rw [if_pos done,ended]
        · rename_i going
          rw [if_neg going]
          exact ih ended (by omega)

theorem ataReadSector_more {x : Int × (Nat → Word16) × Drive} (ended : ataReadSector fuel disk lba buf d = some x)
    (longer : fuel ≤ more) : ataReadSector more disk lba buf d = some x := by
  rw [ataReadSector] at ended ⊢
  cases ready : ataPrepareLba disk lba with
  | none =>
    rw [ready] at ended
    exact ended
  | some r =>
    rw [ready] at ended
    obtain ⟨y,wait,is⟩ := Option.map_eq_some_iff.mp ended
    dsimp only
    rw [ataWait_more wait longer,Option.map_some]
    exact congrArg some is

theorem ataWriteSector_more {x : Int × Drive} (ended : ataWriteSector fuel disk lba buf d = some x)
    (longer : fuel ≤ more) : ataWriteSector more disk lba buf d = some x := by
  rw [ataWriteSector] at ended ⊢
  cases ready : ataPrepareLba disk lba with
  | none =>
    rw [ready] at ended
    exact ended
  | some r =>
    rw [ready] at ended
    obtain ⟨⟨rc,e⟩,wait,rest⟩ := Option.bind_eq_some_iff.mp ended
    dsimp only at rest ⊢
    rw [ataWait_more wait longer,Option.bind_some]
    dsimp only
    split at rest
    · rename_i failed
      rw [if_pos failed,rest]
    · rename_i fine
      obtain ⟨y,wait',is⟩ := Option.map_eq_some_iff.mp rest
      rw [if_neg fine,ataWait_more wait' longer,Option.map_some,is]

end Longer

end AtaDriver

open AtaDriver

inductive AtaCall where
  | read (lba : Nat) (buf : Nat → Word16)
  | write (lba : Nat) (buf : Nat → Word16)

/-- The kernel's view of the disk, the drive, and the calls with what they returned. -/
structure AtaRun where
  disk : Disk
  drive : Drive
  log : List (AtaCall × Int × (Nat → Word16))

namespace AtaRun

def call (fuel : Nat) (disk : Disk) (d : Drive) : AtaCall → Option (Int × (Nat → Word16) × Drive)
  | .read lba buf => AtaDriver.ataReadSector fuel disk lba buf d
  | .write lba buf => (ataWriteSector fuel disk lba buf d).map (fun (rc,d) => (rc,buf,d))

def Started (d : Drive) (s : AtaRun) : Prop :=
  s.log = [] ∧ ∃ fuel rc, ataInit fuel ⟨0,false⟩ d = some (rc,s.disk,s.drive)

def Step (s t : AtaRun) : Prop :=
  ∃ c fuel rc buf d, call fuel s.disk s.drive c = some (rc,buf,d) ∧ t = ⟨s.disk,d,s.log ++ [(c,rc,buf)]⟩

/-- One call on an array of sectors. A call may fail, and a write that fails may have been made. -/
inductive Serves (size : Nat) (a : Nat → List Word16) :
    AtaCall × Int × (Nat → Word16) → (Nat → List Word16) → Prop where
  | read {lba buf} (inside : lba < size) : Serves size a (.read lba buf,0,filled (a lba) buf) a
  | written {lba buf} (inside : lba < size) :
      Serves size a (.write lba buf,0,buf) (update a lba ((range 256).map buf))
  | unread {lba buf} : Serves size a (.read lba buf,-1,buf) a
  | unwritten {lba buf} : Serves size a (.write lba buf,-1,buf) a
  | uncertain {lba buf} (inside : lba < size) :
      Serves size a (.write lba buf,-1,buf) (update a lba ((range 256).map buf))

inductive Served (size : Nat) (first : Nat → List Word16) :
    List (AtaCall × Int × (Nat → Word16)) → (Nat → List Word16) → Prop where
  | none : Served size first [] first
  | more {log entry a b} (before : Served size first log a) (next : Serves size a entry b) :
      Served size first (log ++ [entry]) b

/-- What the driver relies on between calls. -/
structure Kept (d : Drive) (s : AtaRun) : Prop where
  identify : s.drive.identify = d.identify
  answers : s.drive.answers = d.answers
  served : Served d.capacity d.sectors s.log s.drive.sectors
  rests : s.disk.present = true → Rests s.drive ∧ s.disk.sectorCount = d.capacity

variable {d : Drive} {s t : AtaRun} {fuel : Nat}

theorem granted_inside {e : Drive} {lba : Nat} (same : e.identify = d.identify) (ok : commandGranted e lba = true) :
    lba < d.capacity := by
  rw [commandGranted,Bool.and_eq_true_iff,decide_eq_true_eq,Drive.capacity,same] at ok
  exact ok.2

theorem absent_refused {disk : Disk} (absent : disk.present = false) (lba : Nat) : ataPrepareLba disk lba = none := by
  rw [ataPrepareLba]
  split
  · rfl
  · rfl

theorem prepared_present {disk : Disk} {lba : Nat} {r : AtaRegisters} (ready : ataPrepareLba disk lba = some r) :
    disk.present = true := by
  by_contra absent
  rw [absent_refused (Bool.eq_false_iff.mpr absent)] at ready
  contradiction

/-- Every call returns, and is one on the array. -/
theorem Kept.call (kept : Kept d s) (c : AtaCall) : ∃ fuel rc buf e, AtaRun.call fuel s.disk s.drive c = some (rc,buf,e) ∧
    Kept d ⟨s.disk,e,s.log ++ [(c,rc,buf)]⟩ := by
  cases c with
  | read lba buf =>
    cases ready : ataPrepareLba s.disk lba with
    | none =>
      refine ⟨0,-1,buf,s.drive,?_,kept.identify,kept.answers,kept.served.more .unread,kept.rests⟩
      rw [AtaRun.call,AtaDriver.ataReadSector,ready]
    | some r =>
      obtain ⟨rests,count⟩ := kept.rests (prepared_present ready)
      obtain ⟨e,rests',sectors,identify,answers,result⟩ := ataReadSector_spec buf rests ready (Nat.lt_succ_self _)
      by_cases ok : commandGranted s.drive lba = true
      · rw [if_pos ok] at result
        refine ⟨_,_,_,e,result,identify.trans kept.identify,answers.trans kept.answers,?_,fun _ => ⟨rests',count⟩⟩
        dsimp only
        rw [sectors]
        exact kept.served.more (.read (granted_inside kept.identify ok))
      · rw [if_neg ok] at result
        refine ⟨_,_,_,e,result,identify.trans kept.identify,answers.trans kept.answers,?_,fun _ => ⟨rests',count⟩⟩
        dsimp only
        rw [sectors]
        exact kept.served.more .unread
  | write lba buf =>
    cases ready : ataPrepareLba s.disk lba with
    | none =>
      refine ⟨0,-1,buf,s.drive,?_,kept.identify,kept.answers,kept.served.more .unwritten,kept.rests⟩
      rw [AtaRun.call,ataWriteSector,ready]
      rfl
    | some r =>
      obtain ⟨rests,count⟩ := kept.rests (prepared_present ready)
      obtain ⟨e,rests',identify,answers,sectors,result⟩ := ataWriteSector_spec buf rests ready
        (Nat.lt_succ_of_le (Nat.le_max_left _ (s.drive.answers (s.drive.answered + 1)).shown.length))
        (Nat.lt_succ_of_le (Nat.le_max_right (s.drive.answers s.drive.answered).shown.length _))
      have done := congrArg (Option.map fun x : Int × Drive => (x.1,buf,x.2)) result
      refine ⟨_,_,_,e,done,identify.trans kept.identify,answers.trans kept.answers,?_,fun _ => ⟨rests',count⟩⟩
      dsimp only
      rw [sectors]
      by_cases ok : commandGranted s.drive lba = true
      · have inside := granted_inside kept.identify ok
        rw [ok,Bool.true_and,Bool.true_and]
        cases (s.drive.answers (s.drive.answered + 1)).fails with
        | false => exact kept.served.more (.written inside)
        | true =>
          cases (s.drive.answers (s.drive.answered + 1)).kept with
          | false => exact kept.served.more .unwritten
          | true => exact kept.served.more (.uncertain inside)
      · rw [Bool.eq_false_iff.mpr ok,Bool.false_and,Bool.false_and]
        exact kept.served.more .unwritten

theorem call_more {more : Nat} {c : AtaCall} {x : Int × (Nat → Word16) × Drive} {disk : Disk} {e : Drive}
    (ended : AtaRun.call fuel disk e c = some x) (longer : fuel ≤ more) : AtaRun.call more disk e c = some x := by
  cases c with
  | read lba buf => exact ataReadSector_more ended longer
  | write lba buf =>
    obtain ⟨y,wrote,is⟩ := Option.map_eq_some_iff.mp ended
    rw [AtaRun.call,ataWriteSector_more wrote longer,Option.map_some]
    exact congrArg some is

theorem call_same {more : Nat} {c : AtaCall} {x y : Int × (Nat → Word16) × Drive} {disk : Disk} {e : Drive}
    (one : AtaRun.call fuel disk e c = some x) (other : AtaRun.call more disk e c = some y) : x = y := by
  rcases Nat.le_total fuel more with less | less
  · exact Option.some.inj ((call_more one less).symm.trans other)
  · exact Option.some.inj (one.symm.trans (call_more other less))

theorem Kept.step (kept : Kept d s) (step : s.Step t) : Kept d t := by
  obtain ⟨c,fuel,rc,buf,e,done,rfl⟩ := step
  obtain ⟨fuel',rc',buf',e',done',kept'⟩ := kept.call c
  obtain ⟨rfl,same⟩ := Prod.mk.inj (call_same done done')
  obtain ⟨rfl,rfl⟩ := Prod.mk.inj same
  exact kept'

theorem identifying_more {more : Nat} {disk : Disk} {rc : Int} {e : Drive} {x : Int × Disk × Drive}
    (ended : identifying fuel disk rc e = some x) (longer : fuel ≤ more) : identifying more disk rc e = some x := by
  rw [identifying] at ended ⊢
  split at ended
  · rename_i failed
    rw [if_pos failed,ended]
  · rename_i fine
    rw [if_neg fine]
    split at ended
    · rename_i other
      rw [if_pos other,ended]
    · rename_i ata
      rw [if_neg ata]
      obtain ⟨y,wait,is⟩ := Option.map_eq_some_iff.mp ended
      rw [ataWait_more wait longer,Option.map_some,is]

theorem ataInit_more {more : Nat} {disk : Disk} {x : Int × Disk × Drive} (ended : ataInit fuel disk d = some x)
    (longer : fuel ≤ more) : ataInit more disk d = some x := by
  rw [ataInit] at ended ⊢
  dsimp only at ended ⊢
  split at ended
  · rename_i nothing
    rw [if_pos nothing,ended]
  · rename_i shows
    rw [if_neg shows]
    obtain ⟨⟨rc,e⟩,wait,rest⟩ := Option.bind_eq_some_iff.mp ended
    rw [ataWait_more wait longer,Option.bind_some]
    exact identifying_more rest longer

theorem started_kept (full : ∀ lba, (d.sectors lba).length = 256) (page : d.identify.length = 256) (calm : d.busy = [])
    (quiet : ∀ k, (d.answers k).Quiet) (started : Started d s) : Kept d s := by
  obtain ⟨log,fuel,rc,done⟩ := started
  obtain ⟨disk,e,sectors,identify,answers,result,known⟩ := ataInit_spec (d := d) ⟨0,false⟩ full page calm quiet
    (Nat.lt_succ_of_le (Nat.le_max_right fuel _))
  have same := (ataInit_more done (Nat.le_succ_of_le (Nat.le_max_left fuel _))).symm.trans result
  obtain ⟨_,same⟩ := Prod.mk.inj (Option.some.inj same)
  obtain ⟨disk',drive⟩ := Prod.mk.inj same
  rw [← disk',← drive] at known
  rw [← drive] at sectors identify answers
  refine ⟨identify,answers,?_,?_⟩
  · rw [log,sectors]
    exact .none
  · intro present
    split at known
    · exact ⟨known.2,by rw [known.1]⟩
    · rw [present] at known
      contradiction

/-- The bytes of a sector, the low byte of each word first. -/
def sectorBytes (words : List Word16) : Sector := fun j =>
  if j % 2 = 0 then (words.getD (j / 2) 0).setWidth 8 else (words.getD (j / 2) 0 >>> 8).setWidth 8

theorem Kept.granted {lba : Nat} (kept : Kept d s) (present : s.disk.present = true) (inside : lba < d.capacity)
    (small : lba < 2^28) (fine : (d.answers s.drive.answered).fails = false) :
    Rests s.drive ∧ (∃ r, ataPrepareLba s.disk lba = some r) ∧ commandGranted s.drive lba = true := by
  obtain ⟨rests,count⟩ := kept.rests present
  refine ⟨rests,?_,?_⟩
  · rw [ataPrepareLba,if_neg (by omega),if_neg (by rw [present]; decide),if_neg (by omega)]
    exact ⟨_,rfl⟩
  · rw [commandGranted,kept.answers,fine,Drive.capacity,kept.identify,← Drive.capacity,decide_eq_true inside]
    rfl

/-- The drive behind the driver is an array of sectors: in every run of `ata_init` and any calls of
`ata_read_sector` and `ata_write_sector`, on any drive that shows neither errors nor a request for
data while it is busy, every call returns, and the values returned and the buffers are those of the
array, where a call may fail and a write that fails may or may not have been made. A call for a
sector of the disk fails only when the drive reports an error. To the loader, a read is one of the
sectors that the drive holds. -/
theorem disk_is_array (d : Drive) (full : ∀ lba, (d.sectors lba).length = 256) (page : d.identify.length = 256)
    (calm : d.busy = []) (quiet : ∀ k, (d.answers k).Quiet) (s : AtaRun) (reached : Reach (Started d) Step s) :
    Served d.capacity d.sectors s.log s.drive.sectors ∧
    (∀ c, ∃ fuel x, AtaRun.call fuel s.disk s.drive c = some x) ∧
    (∀ lba buf, s.disk.present = true → lba < d.capacity → lba < 2^28 → (d.answers s.drive.answered).fails = false →
      (∃ fuel e, AtaDriver.ataReadSector fuel s.disk lba buf s.drive = some (0,filled (s.drive.sectors lba) buf,e)) ∧
      ((d.answers (s.drive.answered + 1)).fails = false →
        ∃ fuel e, ataWriteSector fuel s.disk lba buf s.drive = some (0,e))) ∧
    ∀ fuel lba buf rc buf' e, AtaDriver.ataReadSector fuel s.disk lba buf s.drive = some (rc,buf',e) →
      RudimentaryKernel.ataReadSector s.disk (fun lba => sectorBytes (s.drive.sectors lba)) (decide (rc = 0)) lba =
        if rc = 0 then some (sectorBytes ((range 256).map buf')) else none := by
  have kept : Kept d s := reached.invariant (Kept d) (fun _ started => started_kept full page calm quiet started)
    (fun _ _ kept step => kept.step step)
  refine ⟨kept.served,?_,?_,?_⟩
  · intro c
    obtain ⟨fuel,rc,buf,e,done,_⟩ := kept.call c
    exact ⟨fuel,_,done⟩
  · intro lba buf present inside small fine
    obtain ⟨rests,⟨r,ready⟩,ok⟩ := kept.granted present inside small fine
    refine ⟨?_,?_⟩
    · obtain ⟨e,_,_,_,_,result⟩ := ataReadSector_spec buf rests ready (Nat.lt_succ_self _)
      rw [if_pos ok] at result
      exact ⟨_,e,result⟩
    · intro fine'
      obtain ⟨e,_,_,_,_,result⟩ := ataWriteSector_spec buf rests ready
        (Nat.lt_succ_of_le (Nat.le_max_left _ (s.drive.answers (s.drive.answered + 1)).shown.length))
        (Nat.lt_succ_of_le (Nat.le_max_right (s.drive.answers s.drive.answered).shown.length _))
      rw [ok,kept.answers,fine'] at result
      exact ⟨_,e,result⟩
  · intro fuel lba buf rc buf' e done
    rw [RudimentaryKernel.ataReadSector]
    cases ready : ataPrepareLba s.disk lba with
    | none =>
      rw [AtaDriver.ataReadSector,ready] at done
      obtain ⟨rfl,_⟩ := Prod.mk.inj (Option.some.inj done)
      rfl
    | some r =>
      obtain ⟨rests,count⟩ := kept.rests (prepared_present ready)
      obtain ⟨e',_,_,_,_,result⟩ := ataReadSector_spec buf rests ready (Nat.lt_succ_self _)
      have same := call_same (c := .read lba buf) done result
      dsimp only
      rw [(ataPrepareLba_address ready).1]
      split at same
      · obtain ⟨rfl,content⟩ := Prod.mk.inj same
        obtain ⟨rfl,_⟩ := Prod.mk.inj content
        rw [if_pos (by decide),if_pos rfl,filled_range (rests.full lba)]
      · obtain ⟨rfl,_⟩ := Prod.mk.inj same
        rfl

/-- A drive of eight sectors that shows itself ready while it is busy, and fails no command. -/
def sampleDrive : Drive where
  present := true
  pulledUp := false
  signature := (0,0)
  identify := replicate 49 0 ++ [0x200] ++ replicate 10 0 ++ [8,0] ++ replicate 194 0
  sectors := fun lba => replicate 256 (BitVec.ofNat 16 lba)
  answers := fun k => ⟨replicate k 0x50,false,false,false⟩
  answered := 0
  secCount := 0
  lbaLow := 0
  lbaMid := 0
  lbaHigh := 0
  select := 0
  phase := .rest
  busy := []
  error := false
  fault := false

theorem Served.last {size : Nat} {first b : Nat → List Word16} {log : List (AtaCall × Int × (Nat → Word16))}
    {entry : AtaCall × Int × (Nat → Word16)} (served : Served size first (log ++ [entry]) b) :
    ∃ a, Served size first log a ∧ Serves size a entry b := by
  generalize whole : log ++ [entry] = l at served
  cases served with
  | none => simp at whole
  | more before next =>
    obtain ⟨rfl,same⟩ := append_inj' whole rfl
    cases same
    exact ⟨_,before,next⟩

/-- It is found, and what is written to a sector of it is read back. -/
theorem sample_read_back : ∃ s : AtaRun, Reach (Started sampleDrive) Step s ∧ s.disk = ⟨8,true⟩ ∧
    s.log = [(.write 3 (fun _ => 7),0,fun _ => 7),
      (.read 3 (fun _ => 0),0,filled ((range 256).map fun _ => 7) (fun _ => 0))] ∧
    Served 8 sampleDrive.sectors s.log s.drive.sectors := by
  have full : ∀ lba, (sampleDrive.sectors lba).length = 256 := fun _ => length_replicate
  have page : sampleDrive.identify.length = 256 := by
    simp only [sampleDrive,length_append,length_replicate,length_cons,length_nil]
  have quiet : ∀ k, (sampleDrive.answers k).Quiet := by
    intro k b member
    rw [(mem_replicate.mp member).2]
    decide
  have fine : ∀ k, (sampleDrive.answers k).fails = false := fun _ => rfl
  have whole : supported sampleDrive = true := by decide
  have size : sampleDrive.capacity = 8 := by decide
  have array := disk_is_array sampleDrive full page rfl quiet
  obtain ⟨disk,e,_,_,_,result,known⟩ := ataInit_spec ⟨0,false⟩ full page rfl quiet (Nat.lt_succ_self _)
  rw [if_pos whole,size] at known
  have start : Reach (Started sampleDrive) Step ⟨disk,e,[]⟩ := .start ⟨rfl,_,_,result⟩
  rw [known.1] at start
  obtain ⟨fuel,e',wrote⟩ := ((array _ start).2.2.1 3 (fun _ => 7) rfl (by rw [size]; decide) (by decide) (fine _)).2 (fine _)
  have written := start.advance ⟨.write 3 (fun _ => 7),fuel,0,fun _ => 7,e',by rw [call,wrote]; rfl,rfl⟩
  obtain ⟨fuel,e'',read⟩ := ((array _ written).2.2.1 3 (fun _ => 0) rfl (by rw [size]; decide) (by decide) (fine _)).1
  have done := written.advance ⟨.read 3 (fun _ => 0),fuel,0,_,e'',read,rfl⟩
  -- the sector is the one that the write has left
  have content : e'.sectors 3 = (range 256).map fun _ => 7 := by
    obtain ⟨a,_,serves⟩ := (array _ written).1.last
    have serves : Serves _ a (.write 3 (fun _ => 7),0,fun _ => 7) e'.sectors := serves
    generalize e'.sectors = b at serves ⊢
    cases serves
    exact update_self ..
  refine ⟨_,done,rfl,?_,?_⟩
  · dsimp only
    rw [content]
    rfl
  · rw [← size]
    exact (array _ done).1

end AtaRun

end RudimentaryKernel
