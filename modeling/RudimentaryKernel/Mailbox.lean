import RudimentaryKernel.Circular
import RudimentaryKernel.Reach
import RudimentaryKernel.Target

/-! The mailboxes of `mbox.cpp`: variable-length records in a circular byte buffer. Each
operation is the stretch that runs while `mbox.lock` is held; `none` is a failed loop
test, where the thread waits and the mailbox stays as it is. -/
namespace RudimentaryKernel

open Function Circular

def mbufferSize : Nat := 1024

/-- `Message`: the size field and the bytes behind it. -/
structure Message where
  contentSize : Nat
  content : List Byte
  deriving DecidableEq

def wordBytes (n : Nat) : List Byte :=
  [BitVec.ofNat 8 n,BitVec.ofNat 8 (n / 2^8),BitVec.ofNat 8 (n / 2^16),BitVec.ofNat 8 (n / 2^24)]

def bytesWord : List Byte → Nat
  | [] => 0
  | b :: rest => b.toNat + 2^8 * bytesWord rest

namespace Message

def size (m : Message) : Nat := 4 + m.contentSize

def bytes (m : Message) : List Byte := wordBytes m.contentSize ++ m.content

/-- The size field tells how much content there is, and the record fits the buffer. -/
def Proper (m : Message) : Prop := m.content.length = m.contentSize ∧ m.contentSize ≤ mbufferSize - 4

instance (m : Message) : Decidable m.Proper := inferInstanceAs (Decidable (_ ∧ _))

end Message

/-- `owners` is an `int` of the source: 2^31 opens without a close would wrap it. Of the queue it
only decides when an empty one starts over. -/
structure Mbox where
  owners : Nat
  messages : Nat
  head : Nat
  tail : Nat
  buffer : Nat → Byte

namespace Mbox

def spaceAvailable (b : Mbox) : Nat :=
  if b.tail = b.head ∧ b.messages ≠ 0 then 0
  else if b.head < b.tail then b.tail - b.head
  else b.tail + mbufferSize - b.head

/-- `mbox_open`, behind its check of the key. -/
def opened (b : Mbox) : Mbox :=
  let b := if b.owners = 0 ∧ b.messages = 0 then { b with head := 0, tail := 0, messages := 0 } else b
  { b with owners := b.owners + 1 }

/-- `Mbox::close`, with the value it returns. -/
def close (b : Mbox) : Mbox × Int :=
  if b.owners = 0 then (b,-1) else ({ b with owners := b.owners - 1 },1)

def stat (b : Mbox) : Nat × Nat := (b.messages,b.spaceAvailable)

def send (b : Mbox) (m : Message) : Option Mbox :=
  if b.spaceAvailable < m.size then none
  else some { b with
    buffer := write mbufferSize b.buffer b.head (m.bytes.take m.size)
    head := (b.head + m.size) % mbufferSize
    messages := b.messages + 1 }

def ringCopyOut (b : Mbox) (pos n : Nat) : List Byte := read mbufferSize b.buffer pos n

/-- `Mbox::recv`, with the record it leaves in the receiver's memory. -/
def recv (b : Mbox) : Option (Mbox × Message) :=
  if b.messages = 0 then none
  else
    let msize := 4 + bytesWord (b.ringCopyOut b.tail 4)
    let copied := b.ringCopyOut b.tail msize
    some ({ b with tail := (b.tail + msize) % mbufferSize, messages := b.messages - 1 },
      ⟨bytesWord (copied.take 4),copied.drop 4⟩)

/-- What the buffer means: `count` records, read one behind the other. -/
def decodeFrom (b : Mbox) : Nat → Nat → List Message
  | _, 0 => []
  | pos, count + 1 =>
    let size := bytesWord (b.ringCopyOut pos 4)
    ⟨size,b.ringCopyOut (pos + 4) size⟩ :: decodeFrom b (pos + 4 + size) count

def decode (b : Mbox) : List Message := b.decodeFrom b.tail b.messages

end Mbox

inductive MboxOp where
  | openBox
  | close
  | stat
  | send (m : Message)
  | recv
  deriving DecidableEq

/-- A mailbox together with all messages sent and received so far. -/
structure MboxRun where
  box : Mbox
  sent : List Message
  received : List Message

namespace MboxRun

def perform (r : MboxRun) : MboxOp → MboxRun
  | .openBox => { r with box := r.box.opened }
  | .close => { r with box := r.box.close.1 }
  | .stat => r
  | .send m => match r.box.send m with
    | none => r
    | some box => { r with box := box, sent := r.sent ++ [m] }
  | .recv => match r.box.recv with
    | none => r
    | some (box,m) => { r with box := box, received := r.received ++ [m] }

def Permitted : MboxOp → Prop
  | .send m => m.Proper
  | _ => True

def Step (r t : MboxRun) : Prop := ∃ op, Permitted op ∧ t = r.perform op

def Unused (r : MboxRun) : Prop :=
  r.box.owners = 0 ∧ r.box.messages = 0 ∧ r.box.head = 0 ∧ r.box.tail = 0 ∧
    r.sent = [] ∧ r.received = []

end MboxRun

end RudimentaryKernel
