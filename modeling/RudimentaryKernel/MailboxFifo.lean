import Mathlib.Algebra.BigOperators.Group.List.Basic
import RudimentaryKernel.Mailbox

/-! A mailbox is a first-in first-out queue of messages. The buffer, read from `tail`
for as many bytes as the queued records have, is the concatenation of those records. -/
namespace RudimentaryKernel

open Function List Circular

theorem bytesWord_wordBytes {n : Nat} (fits : n < 2^32) : bytesWord (wordBytes n) = n := by
  simp only [wordBytes,bytesWord,BitVec.toNat_ofNat]
  omega

namespace Message

variable {m : Message} {queue rest : List Message}

theorem Proper.length_bytes (proper : m.Proper) : m.bytes.length = m.size := by
  simp [bytes,wordBytes,size,proper.1]
  omega

theorem take_bytes (m : Message) : m.bytes.take 4 = wordBytes m.contentSize := rfl

theorem drop_bytes (m : Message) : m.bytes.drop 4 = m.content := rfl

theorem Proper.word (proper : m.Proper) : bytesWord (wordBytes m.contentSize) = m.contentSize := by
  apply bytesWord_wordBytes
  have bound := proper.2
  simp only [mbufferSize] at bound
  omega

def total (queue : List Message) : Nat := (queue.map size).sum

def record (queue : List Message) : List Byte := (queue.map bytes).flatten

@[simp] theorem total_nil : total [] = 0 := rfl

@[simp] theorem total_cons : total (m :: queue) = m.size + total queue := by simp [total]

@[simp] theorem total_append : total (queue ++ rest) = total queue + total rest := by simp [total]

end Message

namespace Mbox

open Message

variable {b : Mbox} {m : Message} {queue : List Message}

/-- The mailbox holds the messages of the queue, oldest first. -/
structure Holds (b : Mbox) (queue : List Message) : Prop where
  proper : ∀ m ∈ queue, m.Proper
  room : total queue ≤ mbufferSize
  tail : b.tail < mbufferSize
  head : b.head = (b.tail + total queue) % mbufferSize
  messages : b.messages = queue.length
  bytes : b.ringCopyOut b.tail (total queue) = record queue

/-- `head` equal to `tail` means full or empty, and the message count tells which. -/
theorem Holds.space (holds : b.Holds queue) : b.spaceAvailable = mbufferSize - total queue := by
  have room := holds.room
  have tail := holds.tail
  have head := holds.head
  have filled : b.messages = 0 ↔ total queue = 0 := by
    rw [holds.messages]
    cases queue with
    | nil => simp
    | cons m queue => simp [size]
  unfold spaceAvailable mbufferSize at *
  split
  · omega
  split <;> omega

theorem Holds.opened (holds : b.Holds queue) : b.opened.Holds queue := by
  unfold Mbox.opened
  split
  · rename_i unused
    have none : queue = [] := length_eq_zero_iff.mp (holds.messages ▸ unused.2)
    subst none
    exact ⟨by simp,by simp,Nat.zero_lt_succ _,rfl,rfl,rfl⟩
  · exact ⟨holds.proper,holds.room,holds.tail,holds.head,holds.messages,holds.bytes⟩

theorem Holds.closed (holds : b.Holds queue) : b.close.1.Holds queue := by
  unfold close
  split
  · exact holds
  · exact ⟨holds.proper,holds.room,holds.tail,holds.head,holds.messages,holds.bytes⟩

theorem Holds.send (holds : b.Holds queue) (proper : m.Proper) :
    (total queue + m.size ≤ mbufferSize → ∃ after, b.send m = some after ∧ after.Holds (queue ++ [m])) ∧
    (mbufferSize < total queue + m.size → b.send m = none) := by
  have space := holds.space
  have room := holds.room
  constructor
  · intro fits
    have enough : ¬b.spaceAvailable < m.size := by omega
    refine ⟨_,if_neg enough,?_,?_,holds.tail,?_,?_,?_⟩
    · simpa [or_imp,forall_and] using ⟨holds.proper,proper⟩
    · simpa using fits
    · dsimp only
      rw [holds.head,Nat.mod_add_mod,total_append,total_cons,total_nil,Nat.add_zero,Nat.add_assoc]
    · simp [holds.messages]
    · have length := proper.length_bytes
      have whole : m.bytes.take m.size = m.bytes := take_of_length_le (by omega)
      have old := holds.bytes
      unfold ringCopyOut at old ⊢
      dsimp only
      rw [total_append,total_cons,total_nil,Nat.add_zero,read_append,whole,holds.head,write_mod,
        read_before le_rfl (by omega),old,← length,read_write (by omega)]
      simp [record]
  · intro full
    rw [Mbox.send,if_pos (by omega)]

theorem Holds.recv_none (holds : b.Holds []) : b.recv = none := by
  have none : b.messages = 0 := holds.messages
  rw [recv,if_pos none]

theorem Holds.oldest (holds : b.Holds (m :: queue)) :
    b.ringCopyOut b.tail 4 = wordBytes m.contentSize ∧ b.ringCopyOut b.tail m.size = m.bytes := by
  have length := (holds.proper m mem_cons_self).length_bytes
  have inside : m.size ≤ total (m :: queue) := by simp
  have first : b.ringCopyOut b.tail m.size = m.bytes := by
    have part : (b.ringCopyOut b.tail (total (m :: queue))).take m.size =
        b.ringCopyOut b.tail m.size := take_read inside
    rw [← part,holds.bytes,record,map_cons,flatten_cons,take_left' length]
  refine ⟨?_,first⟩
  have part : (b.ringCopyOut b.tail m.size).take 4 = b.ringCopyOut b.tail 4 :=
    take_read (by simp [size])
  rw [← part,first,take_bytes]

theorem Holds.others (holds : b.Holds (m :: queue)) :
    { b with tail := (b.tail + m.size) % mbufferSize, messages := b.messages - 1 }.Holds queue := by
  have length := (holds.proper m mem_cons_self).length_bytes
  have inside : m.size ≤ total (m :: queue) := by simp
  have later : b.ringCopyOut (b.tail + m.size) (total queue) = record queue := by
    have part : (b.ringCopyOut b.tail (total (m :: queue))).drop m.size =
        b.ringCopyOut (b.tail + m.size) (total (m :: queue) - m.size) := drop_read inside
    rw [holds.bytes,record,map_cons,flatten_cons,drop_left' length] at part
    rw [record,part,total_cons,Nat.add_sub_cancel_left]
  have room := holds.room
  have head := holds.head
  rw [total_cons] at room head
  refine ⟨fun x member => holds.proper x (mem_cons_of_mem _ member),by omega,
    Nat.mod_lt _ (Nat.zero_lt_succ _),?_,?_,?_⟩
  · dsimp only
    rw [head,Nat.mod_add_mod,Nat.add_assoc]
  · simp [holds.messages]
  · unfold ringCopyOut at later ⊢
    dsimp only
    rw [read_mod]
    exact later

theorem Holds.recv (holds : b.Holds (m :: queue)) :
    ∃ after, b.recv = some (after,m) ∧ after.Holds queue := by
  have proper := holds.proper m mem_cons_self
  have counted : b.messages ≠ 0 := by simp [holds.messages]
  obtain ⟨header,first⟩ := holds.oldest
  have msize : 4 + bytesWord (b.ringCopyOut b.tail 4) = m.size := by
    rw [header,proper.word]
    rfl
  have delivered : Message.mk (bytesWord (m.bytes.take 4)) (m.bytes.drop 4) = m := by
    rw [take_bytes,drop_bytes,proper.word]
  refine ⟨_,?_,holds.others⟩
  rw [Mbox.recv,if_neg counted]
  dsimp only
  rw [msize,first,delivered]

theorem decodeFrom_record (proper : ∀ m ∈ queue, m.Proper) {pos : Nat}
    (bytes : b.ringCopyOut pos (total queue) = record queue) :
    b.decodeFrom pos queue.length = queue := by
  induction queue generalizing pos with
  | nil => rfl
  | cons m queue ih =>
    have first := proper m mem_cons_self
    have length := first.length_bytes
    have split : b.ringCopyOut pos (total (m :: queue)) =
        b.ringCopyOut pos 4 ++ (b.ringCopyOut (pos + 4) m.contentSize ++
          b.ringCopyOut (pos + 4 + m.contentSize) (total queue)) := by
      simp only [ringCopyOut,total_cons,size,read_append,Nat.add_assoc]
    rw [split,record,map_cons,flatten_cons,Message.bytes,append_assoc] at bytes
    obtain ⟨header,bytes⟩ := append_inj bytes (by simp [ringCopyOut,wordBytes])
    obtain ⟨content,bytes⟩ := append_inj bytes (by simp [ringCopyOut,first.1])
    have rest := ih (fun x member => proper x (mem_cons_of_mem _ member)) bytes
    rw [length_cons,decodeFrom,header,first.word,content,rest]

theorem Holds.decode (holds : b.Holds queue) : b.decode = queue := by
  rw [Mbox.decode,holds.messages]
  exact decodeFrom_record holds.proper holds.bytes

end Mbox

namespace MboxRun

open Mbox Message

variable {r t : MboxRun}

/-- What has been sent is what has been received and then what the mailbox holds. -/
def Fifo (r : MboxRun) : Prop := ∃ queue, r.box.Holds queue ∧ r.sent = r.received ++ queue

theorem unused_fifo (unused : Unused r) : r.Fifo := by
  obtain ⟨_,messages,head,tail,sent,received⟩ := unused
  refine ⟨[],⟨by simp,by simp,?_,?_,messages,rfl⟩,by simp [sent,received]⟩
  · rw [tail]
    exact Nat.zero_lt_succ _
  · simp [head,tail]

theorem step_fifo (fifo : r.Fifo) (step : r.Step t) : t.Fifo := by
  obtain ⟨op,permitted,rfl⟩ := step
  obtain ⟨queue,holds,sent⟩ := fifo
  cases op with
  | openBox => exact ⟨queue,holds.opened,sent⟩
  | close => exact ⟨queue,holds.closed,sent⟩
  | stat => exact ⟨queue,holds,sent⟩
  | send m =>
    have proper : m.Proper := permitted
    obtain ⟨roomy,full⟩ := holds.send proper
    rw [perform]
    by_cases fits : total queue + m.size ≤ mbufferSize
    · obtain ⟨after,done,result⟩ := roomy fits
      rw [done]
      exact ⟨queue ++ [m],result,by simp [sent]⟩
    · rw [full (by omega)]
      exact ⟨queue,holds,sent⟩
  | recv =>
    rw [perform]
    cases queue with
    | nil =>
      rw [holds.recv_none]
      exact ⟨[],holds,sent⟩
    | cons m queue =>
      obtain ⟨after,done,result⟩ := holds.recv
      rw [done]
      exact ⟨queue,result,by simp [sent]⟩

/-- In every run the mailbox decodes to the messages sent and not yet received, in send
order; each operation acts on that list as on a queue, the count and the space are those
of the list, and opening and closing leave it alone. -/
theorem mailbox_is_fifo (r : MboxRun) (reached : Reach Unused Step r) :
    r.sent = r.received ++ r.box.decode ∧
    r.box.stat = (r.box.decode.length,mbufferSize - (r.box.decode.map Message.size).sum) ∧
    (r.box.decode.map Message.size).sum ≤ mbufferSize ∧
    r.box.opened.decode = r.box.decode ∧ r.box.close.1.decode = r.box.decode ∧
    (∀ m, m.Proper → if (r.box.decode.map Message.size).sum + m.size ≤ mbufferSize
      then ∃ after, r.box.send m = some after ∧ after.decode = r.box.decode ++ [m]
      else r.box.send m = none) ∧
    (match r.box.decode with
      | [] => r.box.recv = none
      | oldest :: rest => ∃ after, r.box.recv = some (after,oldest) ∧ after.decode = rest) := by
  obtain ⟨queue,holds,sent⟩ : r.Fifo :=
    reached.invariant Fifo (fun _ unused => unused_fifo unused) (fun _ _ fifo step => step_fifo fifo step)
  rw [holds.opened.decode,holds.closed.decode,holds.decode]
  refine ⟨sent,?_,holds.room,rfl,rfl,?_,?_⟩
  · rw [stat,holds.messages,holds.space]
    rfl
  · intro m proper
    obtain ⟨roomy,full⟩ := holds.send proper
    split
    · rename_i fits
      obtain ⟨after,done,result⟩ := roomy fits
      exact ⟨after,done,result.decode⟩
    · rename_i tight
      exact full (Nat.lt_of_not_le tight)
  · cases queue with
    | nil => exact holds.recv_none
    | cons m queue =>
      obtain ⟨after,done,result⟩ := holds.recv
      exact ⟨after,done,result.decode⟩

def unused : MboxRun := ⟨⟨0,0,0,0,fun _ => 0⟩,[],[]⟩

/-- Two messages are sent and one is received; the second one is left. -/
theorem mailbox_holds_second : ∃ r : MboxRun,
    r = ((unused.perform (.send ⟨2,[7,8]⟩)).perform (.send ⟨1,[9]⟩)).perform .recv ∧
    r.received = [⟨2,[7,8]⟩] ∧ r.box.decode = [⟨1,[9]⟩] := by
  refine ⟨_,rfl,by decide +kernel,?_⟩
  have start : Reach Unused Step unused := .start ⟨rfl,rfl,rfl,rfl,rfl,rfl⟩
  have first := start.advance ⟨.send ⟨2,[7,8]⟩,⟨rfl,by decide⟩,rfl⟩
  have second := first.advance ⟨.send ⟨1,[9]⟩,⟨rfl,by decide⟩,rfl⟩
  have third := second.advance ⟨.recv,trivial,rfl⟩
  have sent := (mailbox_is_fifo _ third).1
  have split : (((unused.perform (.send ⟨2,[7,8]⟩)).perform (.send ⟨1,[9]⟩)).perform .recv).sent =
      (((unused.perform (.send ⟨2,[7,8]⟩)).perform (.send ⟨1,[9]⟩)).perform .recv).received ++ [⟨1,[9]⟩] := by
    decide +kernel
  exact append_cancel_left (sent.symm.trans split)

end MboxRun

end RudimentaryKernel
