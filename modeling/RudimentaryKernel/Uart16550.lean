import Mathlib.Data.List.Basic

/-! The transmitting half of a 16550 serial port. Bytes go into a queue of one place, or of sixteen
when the queue is enabled, and from there onto the line, one at a time and whenever the port gets to
it. A byte for which there is no place is lost. -/
namespace RudimentaryKernel

structure Uart where
  divisorLow : BitVec 8
  divisorHigh : BitVec 8
  interruptEnable : BitVec 8
  fifoControl : BitVec 8
  lineControl : BitVec 8
  modemControl : BitVec 8
  queue : List (BitVec 8)
  line : List (BitVec 8)
  lost : List (BitVec 8)

namespace Uart

/-- The registers, by their distance from the port's base. -/
inductive Register where
  | data
  | interruptEnable
  | fifoControl
  | lineControl
  | modemControl

def divisorLatch (u : Uart) : Bool := u.lineControl.getLsbD 7

def places (u : Uart) : Nat := if u.fifoControl.getLsbD 0 then 16 else 1

def transmit (u : Uart) (b : BitVec 8) : Uart :=
  if u.queue.length < u.places then { u with queue := u.queue ++ [b] } else { u with lost := u.lost ++ [b] }

def outb (u : Uart) : Register → BitVec 8 → Uart
  | .data,b => if u.divisorLatch then { u with divisorLow := b } else u.transmit b
  | .interruptEnable,b => if u.divisorLatch then { u with divisorHigh := b } else { u with interruptEnable := b }
  -- enabling or disabling the queue empties it, and so does its third bit
  | .fifoControl,b =>
    if b.getLsbD 0 = u.fifoControl.getLsbD 0 && !b.getLsbD 2 then { u with fifoControl := b }
    else { u with fifoControl := b, queue := [] }
  | .lineControl,b => { u with lineControl := b }
  | .modemControl,b => { u with modemControl := b }

/-- The line status; its other bits may be any. -/
def lineStatus (u : Uart) (other : BitVec 8) : BitVec 8 :=
  if u.queue = [] then other ||| 0x20 else other &&& ~~~0x20

def send (u : Uart) : Uart :=
  match u.queue with
  | [] => u
  | b :: rest => { u with queue := rest, line := u.line ++ [b] }

variable {u : Uart}

theorem lineStatus_empty (other : BitVec 8) : u.lineStatus other &&& 0x20 = 0 ↔ u.queue ≠ [] := by
  have set : ∀ other : BitVec 8, (other ||| 0x20) &&& 0x20 ≠ 0 := by decide +kernel
  have clear : ∀ other : BitVec 8, (other &&& ~~~0x20) &&& 0x20 = 0 := by decide +kernel
  rw [lineStatus]
  split
  · rename_i empty
    exact ⟨fun none => absurd none (set other),fun some' => absurd empty some'⟩
  · rename_i filled
    exact ⟨fun _ => filled,fun _ => clear other⟩

theorem send_order (u : Uart) : u.send.line ++ u.send.queue = u.line ++ u.queue ∧ u.send.queue.length ≤ u.queue.length := by
  rw [send]
  split
  · exact ⟨rfl,Nat.le_refl _⟩
  · rename_i b rest waiting
    dsimp only
    rw [waiting,List.append_assoc]
    exact ⟨rfl,Nat.le_succ _⟩

theorem transmit_room (room : u.queue.length < u.places) (b : BitVec 8) :
    u.transmit b = { u with queue := u.queue ++ [b] } := if_pos room

theorem transmit_counted (b : BitVec 8) (bounded : u.queue.length ≤ u.places) :
    (u.transmit b).queue.length + (u.transmit b).lost.length = u.queue.length + u.lost.length + 1 ∧
    (u.transmit b).queue.length ≤ u.places := by
  rw [transmit]
  split
  · rename_i room
    dsimp only
    rw [List.length_append,List.length_singleton]
    omega
  · dsimp only
    rw [List.length_append,List.length_singleton]
    omega

end Uart

end RudimentaryKernel
