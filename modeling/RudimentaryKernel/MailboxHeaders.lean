import RudimentaryKernel.MailboxFifo

/-! `Mbox::send` with the size field as it comes, an `int` of the sender's choosing. The sum in
`MSG_SIZE` is unsigned and goes into an `int`, the space test and the remainder are signed; the
fields of the mailbox are `int`s here for that reason, and the buffer has a place for every index
the code can form. -/
namespace RudimentaryKernel

open Function List

/-- A message in the sender's memory: the size field and whatever is behind it. -/
structure RawMessage where
  contentSize : BitVec 32
  content : Nat → Byte

namespace RawMessage

def msize (m : RawMessage) : Int := (4 + m.contentSize).toInt

/-- Byte `i` at `(char *)m`. -/
def char (m : RawMessage) (i : Nat) : Byte :=
  if i < 4 then (wordBytes m.contentSize.toNat).getD i 0 else m.content (i - 4)

def message (m : RawMessage) : Message :=
  ⟨m.contentSize.toNat,(range m.contentSize.toNat).map m.content⟩

end RawMessage

/-- The fields of `Mbox` that `send` and `recv` use. -/
structure IntMbox where
  messages : Int
  head : Int
  tail : Int
  buffer : Int → Byte

namespace IntMbox

def spaceAvailable (c : IntMbox) : Int :=
  if c.tail = c.head ∧ c.messages ≠ 0 then 0
  else if c.head < c.tail then c.tail - c.head
  else c.tail + mbufferSize - c.head

def copyIn (m : RawMessage) (head : Int) : Nat → Nat → (Int → Byte) → Int → Byte
  | 0, _, buffer => buffer
  | remaining + 1, i, buffer =>
    copyIn m head remaining (i + 1) (update buffer ((head + i).tmod mbufferSize) (m.char i))

/-- `Mbox::send` under the lock; `none` is a failed test of the space, where the sender waits. -/
def send (c : IntMbox) (m : RawMessage) : Option IntMbox :=
  if c.spaceAvailable < m.msize then none
  else some { c with
    buffer := copyIn m c.head m.msize.toNat 0 c.buffer
    head := (c.head + m.msize).tmod mbufferSize
    messages := c.messages + 1 }

def ringCopyOut (c : IntMbox) (pos n : Int) : List Byte :=
  (range n.toNat).map (fun i : Nat => c.buffer ((pos + i).tmod mbufferSize))

/-- `Mbox::recv` under the lock, with the record it leaves in the receiver's memory. -/
def recv (c : IntMbox) : Option (IntMbox × Message) :=
  if c.messages = 0 then none
  else
    let contentSize := BitVec.ofNat 32 (bytesWord (c.ringCopyOut c.tail 4))
    let msize := (4 + contentSize).toInt
    some ({ c with tail := (c.tail + msize).tmod mbufferSize, messages := c.messages - 1 },
      ⟨contentSize.toNat,(c.ringCopyOut c.tail msize).drop 4⟩)

def receives (c : IntMbox) : Nat → Option (List Message)
  | 0 => some []
  | n + 1 => match c.recv with
    | none => none
    | some (after,m) => (receives after n).map (m :: ·)

/-- The same mailbox with natural numbers in its fields. -/
structure Models (c : IntMbox) (b : Mbox) : Prop where
  messages : c.messages = b.messages
  head : c.head = b.head
  tail : c.tail = b.tail
  buffer : ∀ i < mbufferSize, c.buffer (i : Nat) = b.buffer i

/-- The fields are in range, and the bytes between `tail` and `head` are the records of the queue. -/
def Rep (c : IntMbox) (queue : List Message) : Prop := ∃ b, c.Models b ∧ b.Holds queue

end IntMbox

namespace RawMessage

variable {m : RawMessage}

theorem msize_eq (m : RawMessage) : m.msize = (4 + m.contentSize.toInt).bmod (2^32) := by
  rw [msize,BitVec.toInt_add]
  rfl

theorem msize_exact (positive : 0 ≤ m.contentSize.toInt) (bound : m.contentSize.toInt ≤ 2^31 - 5) :
    m.msize = 4 + m.contentSize.toNat := by
  have narrow := BitVec.toInt_eq_toNat_cond m.contentSize
  rw [msize_eq,Int.bmod_eq_of_le (by omega) (by omega)]
  split at narrow <;> omega

theorem msize_short (improper : ¬(0 ≤ m.contentSize.toInt ∧ m.contentSize.toInt ≤ 2^31 - 5)) :
    m.msize ≤ 3 := by
  have low := BitVec.le_toInt m.contentSize
  have high := BitVec.toInt_lt (x := m.contentSize)
  rw [msize_eq,Int.bmod_def]
  split <;> omega

theorem chars (m : RawMessage) : (range' 0 (4 + m.contentSize.toNat)).map m.char = m.message.bytes := by
  have content : ∀ i, m.char (4 + i) = m.content i := by
    intro i
    rw [char,if_neg (by omega),Nat.add_sub_cancel_left]
  rw [← range'_append_1,map_append,Message.bytes,range'_eq_map_range (s := 0 + 4),map_map]
  refine congrArg₂ (· ++ ·) rfl (map_congr_left (fun i _ => content i))

theorem message_proper (small : m.contentSize.toNat ≤ mbufferSize - 4) : m.message.Proper :=
  ⟨by simp [message],small⟩

end RawMessage

namespace IntMbox

variable {c after : IntMbox} {b : Mbox} {m : RawMessage} {q : Message} {queue more : List Message}

theorem index_eq (pos i : Nat) : ((pos : Int) + i).tmod mbufferSize = ((pos + i) % mbufferSize : Nat) := by
  rw [← Int.natCast_add]
  exact (Int.ofNat_tmod ..).symm

theorem Models.ringCopyOut (models : c.Models b) (n : Nat) :
    c.ringCopyOut c.tail n = b.ringCopyOut b.tail n := by
  rw [IntMbox.ringCopyOut,Mbox.ringCopyOut,Circular.read,Int.toNat_natCast]
  refine map_congr_left (fun i _ => ?_)
  rw [models.tail,index_eq,models.buffer _ (Nat.mod_lt _ (Nat.zero_lt_succ _))]

theorem Models.space (models : c.Models b) (inside : b.head < mbufferSize) :
    c.spaceAvailable = b.spaceAvailable := by
  rw [spaceAvailable,Mbox.spaceAvailable,models.tail,models.head,models.messages]
  split_ifs <;> omega

theorem copyIn_write {head remaining i : Nat} {buffer : Int → Byte} {ring : Nat → Byte}
    (same : ∀ j < mbufferSize, buffer (j : Nat) = ring j) :
    ∀ j < mbufferSize, copyIn m head remaining i buffer (j : Nat) =
      Circular.write mbufferSize ring (head + i) ((range' i remaining).map m.char) j := by
  induction remaining generalizing i buffer ring with
  | zero => exact same
  | succ remaining ih =>
    rw [range'_succ,map_cons,copyIn,Circular.write,index_eq]
    refine ih (fun j inside => ?_)
    by_cases here : j = (head + i) % mbufferSize
    · rw [here,update_self,update_self]
    · rw [update_of_ne here,update_of_ne (by exact_mod_cast here),same j inside]

/-- A size field that can be true is handled as in the model with natural numbers. -/
theorem Models.send (models : c.Models b) (inside : b.head < mbufferSize)
    (small : m.contentSize.toNat ≤ mbufferSize - 4) (sent : c.send m = some after) :
    ∃ result, b.send m.message = some result ∧ after.Models result := by
  have bound : m.contentSize.toNat ≤ 1020 := small
  have signed := BitVec.toInt_eq_toNat_of_lt (x := m.contentSize) (by omega)
  have msize := m.msize_exact (by omega) (by omega)
  have size : m.message.size = 4 + m.contentSize.toNat := rfl
  have length := (RawMessage.message_proper small).length_bytes
  rw [IntMbox.send,models.space inside] at sent
  split at sent
  · cases sent
  · obtain rfl := Option.some.inj sent
    refine ⟨_,if_neg (by omega),?_,?_,models.tail,?_⟩
    · dsimp only
      rw [models.messages,Int.natCast_add]
      rfl
    · dsimp only
      rw [models.head,msize,size]
      exact index_eq b.head (4 + m.contentSize.toNat)
    · intro j within
      dsimp only
      have whole : m.message.bytes.take m.message.size = m.message.bytes := take_of_length_le (by omega)
      have count : m.msize.toNat = 4 + m.contentSize.toNat := by omega
      rw [models.head,count,copyIn_write models.buffer j within,m.chars,whole,Nat.add_zero]

theorem Models.recv (models : c.Models b) (holds : b.Holds (q :: queue)) :
    ∃ after, c.recv = some (after,q) ∧ after.Rep queue := by
  have proper := holds.proper q mem_cons_self
  have bound : q.contentSize ≤ 1020 := proper.2
  obtain ⟨header,first⟩ := holds.oldest
  have counted : c.messages ≠ 0 := by
    rw [models.messages,holds.messages,length_cons]
    omega
  have read : bytesWord (c.ringCopyOut c.tail 4) = q.contentSize := by
    have bytes := models.ringCopyOut 4
    rw [header] at bytes
    rw [← proper.word]
    exact congrArg bytesWord bytes
  have narrow : (BitVec.ofNat 32 q.contentSize).toNat = q.contentSize := by
    rw [BitVec.toNat_ofNat]
    omega
  have msize : (4 + BitVec.ofNat 32 q.contentSize).toInt = (q.size : Nat) := by
    have signed := BitVec.toInt_eq_toNat_of_lt (x := BitVec.ofNat 32 q.contentSize) (by omega)
    have exact := RawMessage.msize_exact (m := ⟨BitVec.ofNat 32 q.contentSize,fun _ => 0⟩)
      (by dsimp only; omega) (by dsimp only; omega)
    dsimp only at exact
    rw [narrow] at exact
    exact exact
  refine ⟨{ c with tail := (c.tail + q.size).tmod mbufferSize, messages := c.messages - 1 },?_,
    { b with tail := (b.tail + q.size) % mbufferSize, messages := b.messages - 1 },?_,holds.others⟩
  · rw [IntMbox.recv,if_neg counted]
    dsimp only
    rw [read,msize,narrow,models.ringCopyOut,first,Message.drop_bytes]
  · refine ⟨?_,models.head,?_,models.buffer⟩
    · dsimp only
      rw [models.messages,holds.messages,length_cons]
      omega
    · dsimp only
      rw [models.tail]
      exact index_eq b.tail q.size

theorem Rep.receives (rep : c.Rep (queue ++ more)) : c.receives queue.length = some queue := by
  induction queue generalizing c with
  | nil => rfl
  | cons q queue ih =>
    obtain ⟨b,models,holds⟩ := rep
    obtain ⟨after,received,rest⟩ := models.recv holds
    rw [length_cons,IntMbox.receives,received]
    dsimp only
    rw [ih rest]
    rfl

def fresh : IntMbox := ⟨0,0,0,fun _ => 0⟩

theorem fresh_rep : fresh.Rep [] :=
  ⟨⟨0,0,0,0,fun _ => 0⟩,⟨rfl,rfl,rfl,fun _ _ => rfl⟩,by simp,by simp,Nat.zero_lt_succ _,rfl,rfl,rfl⟩

/-- A message that comes out shorter than its own size field is sent, and the mailbox then says that
it has a message where there is none. -/
theorem fresh_broken (short : m.msize ≤ 3) :
    ∃ after, fresh.send m = some after ∧ after.head = m.msize.tmod mbufferSize ∧ after.messages = 1 ∧
      ∀ queue, ¬after.Rep queue := by
  have space : fresh.spaceAvailable = 1024 := by decide
  refine ⟨_,if_neg (by omega),?_,rfl,?_⟩
  · exact congrArg (Int.tmod · _) (Int.zero_add _)
  rintro queue ⟨b,models,holds⟩
  have one : ((1 : Nat) : Int) = b.messages := models.messages
  obtain ⟨q,rfl⟩ := length_eq_one_iff.mp (holds.messages.symm.trans (Int.ofNat.inj one).symm)
  have tail : (0 : Int) = b.tail := models.tail
  have place : (0 + m.msize).tmod mbufferSize = b.head := models.head
  have ends : b.head = (b.tail + Message.total [q]) % mbufferSize := holds.head
  have room : Message.total [q] ≤ mbufferSize := holds.room
  have size : Message.total [q] = 4 + q.contentSize := Nat.add_zero _
  rw [Int.zero_add] at place
  simp only [mbufferSize] at place ends room
  by_cases none : m.msize ≤ 0
  · -- nothing has been stored, and zeros are the header of a message without content
    have untouched : ∀ j < mbufferSize, b.buffer j = 0 := by
      intro j inside
      rw [← models.buffer j inside]
      dsimp only
      rw [Int.toNat_of_nonpos none]
      rfl
    have zeros : b.ringCopyOut b.tail 4 = [0,0,0,0] := by
      refine map_congr_left (g := fun _ => 0) (fun i _ => ?_)
      exact untouched _ (Nat.mod_lt _ (Nat.zero_lt_succ _))
    have empty : q.contentSize = 0 := by
      rw [← (holds.proper q mem_cons_self).word,← holds.oldest.1,zeros]
      rfl
    have back : (-m.msize).tmod (1024 : Nat) = -b.head := by rw [Int.neg_tmod,place]
    have forward := Int.tmod_nonneg (1024 : Nat) (Int.neg_nonneg_of_nonpos none)
    omega
  · rw [Int.tmod_eq_of_lt (by omega) (by omega)] at place
    omega

/-- A mailbox survives a size field just when the field is not negative and its sum with the four
bytes of the header is an `int`. -/
theorem mailbox_survives_iff (contentSize : BitVec 32) :
    (∀ (c after : IntMbox) (queue : List Message) (content : Nat → Byte), c.Rep queue →
      c.send ⟨contentSize,content⟩ = some after →
      (∃ queue, after.Rep queue) ∧ after.receives queue.length = some queue) ↔
    0 ≤ contentSize.toInt ∧ contentSize.toInt ≤ 2^31 - 5 := by
  constructor
  · intro survives
    by_contra improper
    obtain ⟨after,sent,_,_,broken⟩ := fresh_broken (RawMessage.msize_short (m := ⟨contentSize,fun _ => 0⟩) improper)
    obtain ⟨⟨queue,rep⟩,_⟩ := survives fresh after [] _ fresh_rep sent
    exact broken queue rep
  · rintro ⟨positive,bound⟩ c after queue content ⟨b,models,holds⟩ sent
    have inside : b.head < mbufferSize := by
      rw [holds.head]
      exact Nat.mod_lt _ (Nat.zero_lt_succ _)
    by_cases small : contentSize.toNat ≤ mbufferSize - 4
    · obtain ⟨result,done,models⟩ := models.send inside small sent
      obtain ⟨roomy,full⟩ := holds.send (RawMessage.message_proper (m := ⟨contentSize,content⟩) small)
      have fits : Message.total queue + (4 + contentSize.toNat) ≤ mbufferSize := by
        by_contra tight
        exact absurd (done.symm.trans (full (Nat.lt_of_not_le tight))) (Option.some_ne_none _)
      obtain ⟨again,sent,holds⟩ := roomy fits
      obtain rfl := Option.some.inj (done.symm.trans sent)
      have rep : after.Rep (queue ++ [RawMessage.message ⟨contentSize,content⟩]) := ⟨result,models,holds⟩
      exact ⟨⟨_,rep⟩,rep.receives⟩
    · -- there is never that much space
      have msize := RawMessage.msize_exact (m := ⟨contentSize,content⟩) positive bound
      have space := models.space inside
      rw [holds.space] at space
      rw [IntMbox.send,if_pos] at sent
      · cases sent
      · rw [space,msize]
        simp only [mbufferSize] at small ⊢
        omega

/-- A size field of -8 on a mailbox that is empty: the head leaves the buffer. -/
theorem negative_size_sent : ∃ after, fresh.send ⟨-8,fun _ => 0⟩ = some after ∧ after.head = -4 ∧
    after.messages = 1 ∧ ∀ queue, ¬after.Rep queue :=
  fresh_broken (m := ⟨-8,fun _ => 0⟩) (by decide)

end IntMbox

end RudimentaryKernel
