import Mathlib.Algebra.Ring.Nat
import Mathlib.Data.List.Basic
import Mathlib.Logic.Function.Basic

/-! The first drive of an ATA channel behind the eight ports, one sector a command, with no second
drive beside it. A command keeps the drive busy for some reads of its status, in which the other
bits show what the drive likes and the ports take nothing; then it shows an error, or asks for
data to be taken or given word by word. What it answers, and how long that takes, is up to the
drive. -/
namespace RudimentaryKernel.PioDrive

open Function

abbrev Word16 := BitVec 16

inductive Register where
  | data
  | error
  | secCount
  | lbaLow
  | lbaMid
  | lbaHigh
  | drive
  | status

inductive Phase where
  | rest
  | giving (words : List Word16)
  | taking (lba : Nat) (words : List Word16)

/-- How the drive ends the first part of a command, or a write behind its last word: what it shows
beside `BSY` in each read of the status until then, with which error, and whether a write that
fails is on the medium. -/
structure Answer where
  shown : List (BitVec 8)
  error : Bool
  fault : Bool
  kept : Bool

namespace Answer

def fails (a : Answer) : Bool := a.error || a.fault

/-- `ERR`, `DRQ` and `DF` stay clear while the drive is busy. -/
def Quiet (a : Answer) : Prop := ∀ b ∈ a.shown, b &&& 0x29 = 0

end Answer

structure Drive where
  present : Bool
  /-- The status of a channel without a drive reads as ones. -/
  pulledUp : Bool
  /-- The two bytes that tell the kind of drive behind `IDENTIFY DEVICE`. -/
  signature : BitVec 8 × BitVec 8
  identify : List Word16
  sectors : Nat → List Word16
  answers : Nat → Answer
  answered : Nat
  secCount : BitVec 8
  lbaLow : BitVec 8
  lbaMid : BitVec 8
  lbaHigh : BitVec 8
  select : BitVec 8
  phase : Phase
  busy : List (BitVec 8)
  error : Bool
  fault : Bool

namespace Drive

/-- The sectors that can be addressed, as the drive tells them. -/
def capacity (d : Drive) : Nat := (d.identify.getD 61 0).toNat * 2^16 + (d.identify.getD 60 0).toNat

/-- Bit 4 of the drive register, `DEV`, selects the second drive of the channel. -/
def selected (d : Drive) : Bool := !d.select.getLsbD 4

def responds (d : Drive) : Bool := d.present && d.selected

/-- The sector that the registers name: its number when bit 6 of the drive register, `LBA`, is set,
and else cylinder, head and sector, in the geometry that the drive tells. -/
def address (d : Drive) : Option Nat :=
  let nibble := (d.select &&& 0x0F).toNat
  if d.select.getLsbD 6 then
    some (nibble * 2^24 + d.lbaHigh.toNat * 2^16 + d.lbaMid.toNat * 2^8 + d.lbaLow.toNat)
  else if d.lbaLow = 0 then none
  else
    let heads := (d.identify.getD 3 0).toNat
    let perTrack := (d.identify.getD 6 0).toNat
    some (((d.lbaHigh.toNat * 2^8 + d.lbaMid.toNat) * heads + nibble) * perTrack + (d.lbaLow.toNat - 1))

def requests (d : Drive) : Bool :=
  match d.phase with
  | .rest => false
  | .giving _ | .taking _ _ => true

def statusByte (d : Drive) : BitVec 8 :=
  if d.present = false then if d.pulledUp then 0xFF else 0
  else if d.selected = false then 0
  else match d.busy with
    | b :: _ => 0x80 ||| b
    | [] => 0x40 ||| (if d.error then 0x01 else 0) ||| (if d.fault then 0x20 else 0) ||| (if d.requests then 0x08 else 0)

def answering (d : Drive) : Drive :=
  let a := d.answers d.answered
  { d with answered := d.answered + 1, busy := a.shown, error := a.error, fault := a.fault }

/-- The sector for which a command is accepted. -/
def accepted (d : Drive) : Option Nat :=
  if (d.answers d.answered).fails ∨ d.secCount ≠ 1 then none else d.address.filter (fun lba => decide (lba < d.capacity))

/-- A command for a sector that cannot be had shows an error. -/
def refusing (d : Drive) : Drive :=
  { d.answering with phase := .rest, error := (d.answers d.answered).error || !(d.answers d.answered).fault }

def command (d : Drive) (code : BitVec 8) : Drive :=
  if d.responds = false then d
  else if code = 0xEC then
    if (d.answers d.answered).fails then { d.answering with phase := .rest }
    else { d.answering with phase := .giving d.identify, lbaMid := d.signature.1, lbaHigh := d.signature.2 }
  else if code = 0x20 then match d.accepted with
    | some lba => { d.answering with phase := .giving (d.sectors lba) }
    | none => d.refusing
  else if code = 0x30 then match d.accepted with
    | some lba => { d.answering with phase := .taking lba [] }
    | none => d.refusing
  else d.refusing

/-- `in` of a byte. Reading the status takes time. -/
def inb (d : Drive) : Register → BitVec 8 × Drive
  | .status => (d.statusByte,{ d with busy := d.busy.tail })
  | .secCount => (d.secCount,d)
  | .lbaLow => (d.lbaLow,d)
  | .lbaMid => (d.lbaMid,d)
  | .lbaHigh => (d.lbaHigh,d)
  | .drive => (d.select,d)
  | .data | .error => (0,d)

/-- `out` of a byte, which is lost on a busy drive. -/
def outb (d : Drive) (register : Register) (value : BitVec 8) : Drive :=
  if d.busy ≠ [] then d
  else match register with
    | .status => d.command value
    | .secCount => { d with secCount := value }
    | .lbaLow => { d with lbaLow := value }
    | .lbaMid => { d with lbaMid := value }
    | .lbaHigh => { d with lbaHigh := value }
    | .drive => { d with select := value }
    | .data | .error => d

def inw (d : Drive) : Word16 × Drive :=
  if d.responds = false ∨ d.busy ≠ [] then (0,d)
  else match d.phase with
    | .giving (w :: rest) => (w,{ d with phase := if rest = [] then .rest else .giving rest })
    | .giving [] | .rest | .taking _ _ => (0,d)

/-- `out` of a word of data. Behind the last word of a sector the drive answers again. -/
def outw (d : Drive) (w : Word16) : Drive :=
  if d.responds = false ∨ d.busy ≠ [] then d
  else match d.phase with
    | .taking lba words =>
      if words.length + 1 < 256 then { d with phase := .taking lba (words ++ [w]) }
      else
        let a := d.answers d.answered
        { d.answering with
          phase := .rest
          sectors := if a.fails && !a.kept then d.sectors else update d.sectors lba (words ++ [w]) }
    | .rest | .giving _ => d

variable {d : Drive}

theorem responds_eq (responds : d.responds = true) : d.present = true ∧ d.selected = true :=
  (Bool.and_eq_true_iff ..).mp responds

theorem statusByte_busy (responds : d.responds = true) {b : BitVec 8} {rest : List (BitVec 8)} (busy : d.busy = b :: rest) :
    d.statusByte = 0x80 ||| b := by
  obtain ⟨present,selected⟩ := responds_eq responds
  rw [statusByte,if_neg (by rw [present]; decide),if_neg (by rw [selected]; decide),busy]

theorem statusByte_calm (responds : d.responds = true) (calm : d.busy = []) :
    d.statusByte &&& 0x01 = (if d.error then 0x01 else 0) ∧ d.statusByte &&& 0x20 = (if d.fault then 0x20 else 0) ∧
    d.statusByte &&& 0x08 = (if d.requests then 0x08 else 0) ∧ d.statusByte &&& 0x80 = 0 := by
  obtain ⟨present,selected⟩ := responds_eq responds
  rw [statusByte,if_neg (by rw [present]; decide),if_neg (by rw [selected]; decide),calm]
  cases d.error <;> cases d.fault <;> cases d.requests <;> decide

theorem statusByte_ne_zero (responds : d.responds = true) : d.statusByte ≠ 0 := by
  cases busy : d.busy with
  | nil =>
    obtain ⟨present,selected⟩ := responds_eq responds
    rw [statusByte,if_neg (by rw [present]; decide),if_neg (by rw [selected]; decide),busy]
    cases d.error <;> cases d.fault <;> cases d.requests <;> decide
  | cons b rest =>
    have shows : ∀ b : BitVec 8, 0x80 ||| b ≠ 0 := by decide +kernel
    rw [statusByte_busy responds busy]
    exact shows b

theorem outb_calm (calm : d.busy = []) (code : BitVec 8) : d.outb .status code = d.command code :=
  if_neg (not_not_intro calm)

theorem command_read (responds : d.responds = true) : d.command 0x20 = match d.accepted with
    | some lba => { d.answering with phase := .giving (d.sectors lba) }
    | none => d.refusing := by
  rw [command,if_neg (by rw [responds]; decide),if_neg (by decide),if_pos rfl]

theorem command_write (responds : d.responds = true) : d.command 0x30 = match d.accepted with
    | some lba => { d.answering with phase := .taking lba [] }
    | none => d.refusing := by
  rw [command,if_neg (by rw [responds]; decide),if_neg (by decide),if_neg (by decide),if_pos rfl]

theorem inw_giving (responds : d.responds = true) (calm : d.busy = []) {w : Word16} {rest : List Word16}
    (phase : d.phase = .giving (w :: rest)) :
    d.inw = (w,{ d with phase := if rest = [] then .rest else .giving rest }) := by
  have ready : ¬(d.responds = false ∨ d.busy ≠ []) := by
    rw [responds,calm]
    decide
  rw [inw,if_neg ready,phase]

theorem outw_taking (responds : d.responds = true) (calm : d.busy = []) {lba : Nat} {words : List Word16}
    (phase : d.phase = .taking lba words) (w : Word16) :
    d.outw w = if words.length + 1 < 256 then { d with phase := .taking lba (words ++ [w]) }
      else { d.answering with
        phase := .rest
        sectors := if (d.answers d.answered).fails && !(d.answers d.answered).kept then d.sectors
          else update d.sectors lba (words ++ [w]) } := by
  have ready : ¬(d.responds = false ∨ d.busy ≠ []) := by
    rw [responds,calm]
    decide
  rw [outw,if_neg ready,phase]

end Drive

end RudimentaryKernel.PioDrive
