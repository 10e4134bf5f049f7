import RudimentaryKernel.LockCalls
import RudimentaryKernel.MailboxWake

/-! The mailbox byte by byte. `send` and `recv` copy one byte of a record at a time and store
`head`, `tail` and `messages` one behind the other, and the timer may come between any two of
these steps. The system with whole operations is what this one comes down to, and the callers get
what whole operations would give them. -/
namespace RudimentaryKernel

open Function List

/-- What an operation gives its caller: a pointer to the mailbox, or the value it returns and what
it has stored for the caller before. -/
inductive MboxAnswer where
  | mbox
  | value (returned : Int)
  | counts (returned : Int) (messages space : Nat)
  | message (returned : Int) (m : Message)
  deriving DecidableEq

def Mbox.perform (b : Mbox) : MboxOp → Option (Mbox × MboxAnswer)
  | .openBox => some (b.opened,.mbox)
  | .close => some (b.close.1,.value b.close.2)
  | .stat => some (b,.counts 1 b.stat.1 b.stat.2)
  | .send m => (b.send m).map (fun box => (box,.value 1))
  | .recv => b.recv.map (fun (box,m) => (box,.message 1 m))

/-- Where a thread is. A value that has been loaded and computed is stored in the step after. -/
inductive MboxPlace where
  | idle
  | locking (op : MboxOp)
  | testing (op : MboxOp)
  | failing (op : MboxOp)
  | waiting (op : MboxOp)
  | clearingHead
  | clearingTail
  | clearingMessages
  | loadingOwners
  | opening (value : Nat)
  | closing (value : Nat)
  | counting (messages : Nat)
  | copyingIn (m : Message) (i : Nat)
  | storingHead (m : Message) (value : Nat)
  | loadingMessages (m : Message)
  | storingMessages (m : Message) (value : Nat)
  | copyingSize (copied : List Byte)
  | copyingOut (msize : Nat) (copied : List Byte)
  | storingTail (m : Message) (value : Nat)
  | countingDown (m : Message)
  | storingCount (m : Message) (value : Nat)
  | announcing (op : MboxOp) (answer : MboxAnswer)
  | leaving (op : MboxOp) (answer : MboxAnswer)

namespace MboxPlace

def inside : MboxPlace → Bool
  | .idle | .locking _ | .waiting _ => false
  | _ => true

def work (b : Mbox) : MboxPlace → Option (Mbox × MboxPlace)
  | .testing .openBox => some (b,if b.owners = 0 ∧ b.messages = 0 then .clearingHead else .loadingOwners)
  | .testing .close => some (b,if b.owners = 0 then .leaving .close (.value (-1)) else .closing (b.owners - 1))
  | .testing .stat => some (b,.counting b.messages)
  | .testing (.send m) => some (b,if b.spaceAvailable < m.size then .failing (.send m) else .copyingIn m 0)
  | .testing .recv => some (b,if b.messages = 0 then .failing .recv else .copyingSize [])
  | .clearingHead => some ({ b with head := 0 },.clearingTail)
  | .clearingTail => some ({ b with tail := 0 },.clearingMessages)
  | .clearingMessages => some ({ b with messages := 0 },.loadingOwners)
  | .loadingOwners => some (b,.opening (b.owners + 1))
  | .opening value => some ({ b with owners := value },.leaving .openBox .mbox)
  | .closing value => some ({ b with owners := value },.leaving .close (.value 1))
  | .counting messages => some (b,.leaving .stat (.counts 1 messages b.spaceAvailable))
  | .copyingIn m i =>
    if i < m.size then
      some ({ b with buffer := update b.buffer ((b.head + i) % mbufferSize) (m.bytes.getD i 0) },.copyingIn m (i + 1))
    else some (b,.storingHead m ((b.head + m.size) % mbufferSize))
  | .storingHead m value => some ({ b with head := value },.loadingMessages m)
  | .loadingMessages m => some (b,.storingMessages m (b.messages + 1))
  | .storingMessages m value => some ({ b with messages := value },.announcing (.send m) (.value 1))
  | .copyingSize copied =>
    some (b,if copied.length < 4 then .copyingSize (copied ++ [b.buffer ((b.tail + copied.length) % mbufferSize)])
      else .copyingOut (4 + bytesWord copied) [])
  | .copyingOut msize copied =>
    some (b,if copied.length < msize then
        .copyingOut msize (copied ++ [b.buffer ((b.tail + copied.length) % mbufferSize)])
      else .storingTail ⟨bytesWord (copied.take 4),copied.drop 4⟩ ((b.tail + msize) % mbufferSize))
  | .storingTail m value => some ({ b with tail := value },.countingDown m)
  | .countingDown m => some (b,.storingCount m (b.messages - 1))
  | .storingCount m value => some ({ b with messages := value },.announcing .recv (.message 1 m))
  | .idle | .locking _ | .failing _ | .waiting _ | .announcing _ _ | .leaving _ _ => none

/-- What the threads call, by the lock they then have. An operation returns when it gives the lock
back. -/
inductive Calls {τ : Type} : MboxPlace → MonitorOp MboxCond τ → Bool → MboxPlace → Prop where
  | call {held} (op : MboxOp) (permitted : MboxRun.Permitted op) :
      Calls .idle .acquire held (if held then .testing op else .locking op)
  | relock {op held} : Calls (.locking op) .resume held (if held then .testing op else .locking op)
  | rewait {op held} : Calls (.waiting op) .resume held (if held then .testing op else .waiting op)
  | waitSpace {m} : Calls (.failing (.send m)) (.wait .freedSpace) false (.waiting (.send m))
  | waitData : Calls (.failing .recv) (.wait .arrivedData) false (.waiting .recv)
  | signal {m a} : Calls (.announcing (.send m) a) (.signal .arrivedData) true (.leaving (.send m) a)
  | broadcast {a} : Calls (.announcing .recv a) (.broadcast .freedSpace) true (.leaving .recv a)
  | release {op a} : Calls (.leaving op a) .release false .idle

def during : MboxPlace → Option MboxOp
  | .idle => none
  | .locking op | .testing op | .failing op | .waiting op | .announcing op _ | .leaving op _ => some op
  | .clearingHead | .clearingTail | .clearingMessages | .loadingOwners | .opening _ => some .openBox
  | .closing _ => some .close
  | .counting _ => some .stat
  | .copyingIn m _ | .storingHead m _ | .loadingMessages m | .storingMessages m _ => some (.send m)
  | .copyingSize _ | .copyingOut _ _ | .storingTail _ _ | .countingDown _ | .storingCount _ _ => some .recv

def answer : MboxPlace → Option MboxAnswer
  | .announcing _ a | .leaving _ a => some a
  | _ => none

def Between : MboxPlace → Prop
  | .idle => True
  | .locking op | .testing op | .failing op | .waiting op | .announcing op _ | .leaving op _ => MboxRun.Permitted op
  | _ => False

theorem work_inside {b c : Mbox} {p q : MboxPlace} (done : work b p = some (c,q)) :
    p.inside = true ∧ q.inside = true := by
  cases p with
  | testing op =>
    refine ⟨rfl,?_⟩
    cases op with
    | stat =>
      cases done
      rfl
    | openBox | close | send m | recv =>
      cases done
      split <;> rfl
  | copyingIn m i =>
    refine ⟨rfl,?_⟩
    rw [work] at done
    split at done
    · cases done
      rfl
    · cases done
      rfl
  | copyingSize _ | copyingOut _ _ =>
    refine ⟨rfl,?_⟩
    cases done
    split <;> rfl
  | idle | locking _ | failing _ | waiting _ | announcing _ _ | leaving _ _ => contradiction
  | _ =>
    cases done
    exact ⟨rfl,rfl⟩

theorem work_during {b c : Mbox} {p q : MboxPlace} (done : work b p = some (c,q)) : q.during = p.during := by
  cases p with
  | testing op =>
    cases op with
    | stat =>
      cases done
      rfl
    | openBox | close | send m | recv =>
      cases done
      split <;> rfl
  | copyingIn m i =>
    rw [work] at done
    split at done
    · cases done
      rfl
    · cases done
      rfl
  | copyingSize _ | copyingOut _ _ =>
    cases done
    split <;> rfl
  | idle | locking _ | failing _ | waiting _ | announcing _ _ | leaving _ _ => contradiction
  | _ =>
    cases done
    rfl

end MboxPlace

open MboxPlace in
def mboxProgram (τ : Type) : LockProgram MboxCond τ Mbox MboxPlace where
  idle := .idle
  inside := MboxPlace.inside
  work := work
  calls := Calls
  idle_outside := rfl
  work_inside := work_inside
  calls_inside := by
    intro p op held q calls
    cases calls with
    | call | relock | rewait => cases held <;> rfl
    | waitSpace | waitData | signal | broadcast | release => rfl
  calls_idle := by
    intro p op held q calls s
    cases calls <;> rfl

namespace Mbox

open Circular MboxPlace

variable {τ : Type} {b c : Mbox} {m : Message} {op : MboxOp}

def ended : MboxOp → MboxAnswer → MboxPlace
  | .send m, a => .announcing (.send m) a
  | .recv, a => .announcing .recv a
  | op, a => .leaving op a

theorem copied_in (length : m.bytes.length = m.size) {left i : Nat} (rest : i + left = m.size) :
    Relation.ReflTransGen (mboxProgram τ).Small (b,.copyingIn m i)
      ({ b with buffer := write mbufferSize b.buffer (b.head + i) (m.bytes.drop i) },
        .storingHead m ((b.head + m.size) % mbufferSize)) := by
  induction left generalizing b i with
  | zero =>
    refine .single ?_
    change (if i < m.size then _ else _) = _
    rw [if_neg (by omega),drop_eq_nil_of_le (by omega)]
    rfl
  | succ left ih =>
    have inside : i < m.bytes.length := by omega
    have byte : m.bytes.getD i 0 = m.bytes[i] := by rw [getD_eq_getElem?_getD,getElem?_eq_getElem inside,Option.getD_some]
    rw [drop_eq_getElem_cons inside,write,← byte]
    have more := ih (b := { b with buffer := update b.buffer ((b.head + i) % mbufferSize) (m.bytes.getD i 0) })
      (i := i + 1) (by omega)
    refine .head ?_ more
    change (if i < m.size then _ else _) = _
    rw [if_pos (by omega)]

theorem copied_out {n : Nat} {place next : List Byte → MboxPlace} (loop : ∀ copied, work b (place copied) =
      some (b,if copied.length < n then place (copied ++ [b.buffer ((b.tail + copied.length) % mbufferSize)])
        else next copied)) {left : Nat} {copied : List Byte} (rest : copied.length + left = n) :
    Relation.ReflTransGen (mboxProgram τ).Small (b,place copied)
      (b,next (copied ++ b.ringCopyOut (b.tail + copied.length) left)) := by
  induction left generalizing copied with
  | zero =>
    have none : b.ringCopyOut (b.tail + copied.length) 0 = [] := rfl
    refine .single ((loop copied).trans ?_)
    rw [if_neg (by omega),none,append_nil]
  | succ left ih =>
    have first : b.ringCopyOut (b.tail + copied.length) (left + 1) =
        b.buffer ((b.tail + copied.length) % mbufferSize) :: b.ringCopyOut (b.tail + (copied.length + 1)) left := by
      rw [Mbox.ringCopyOut,Nat.add_comm left 1,read_append,read_one]
      rfl
    have more := ih (show (copied ++ [b.buffer ((b.tail + copied.length) % mbufferSize)]).length + left = n by
      rw [length_append,length_singleton]
      omega)
    rw [append_assoc,length_append,length_singleton,singleton_append,← first] at more
    refine .head ((loop copied).trans ?_) more
    rw [if_pos (by omega)]

def outcome (b : Mbox) (op : MboxOp) : Mbox × MboxPlace :=
  match b.perform op with
  | some (c,a) => (c,ended op a)
  | none => (b,.failing op)

theorem region_openBox :
    Relation.ReflTransGen (mboxProgram τ).Small (b,.testing .openBox) (b.outcome .openBox) := by
  by_cases clear : b.owners = 0 ∧ b.messages = 0
  · have first : (mboxProgram τ).Small (b,.testing .openBox) (b,.clearingHead) := by
      change some (b,if _ then _ else _) = _
      rw [if_pos clear]
    have opened : b.opened = { b with head := 0, tail := 0, messages := 0, owners := b.owners + 1 } := by
      rw [Mbox.opened,if_pos clear]
    rw [outcome,perform,opened]
    exact .head first (.head rfl (.head rfl (.head rfl (.head rfl (.single rfl)))))
  · have first : (mboxProgram τ).Small (b,.testing .openBox) (b,.loadingOwners) := by
      change some (b,if _ then _ else _) = _
      rw [if_neg clear]
    have opened : b.opened = { b with owners := b.owners + 1 } := by
      rw [Mbox.opened,if_neg clear]
    rw [outcome,perform,opened]
    exact .head first (.head rfl (.single rfl))

theorem region_close :
    Relation.ReflTransGen (mboxProgram τ).Small (b,.testing .close) (b.outcome .close) := by
  by_cases none : b.owners = 0
  · have closed : b.close = (b,-1) := if_pos none
    rw [outcome,perform,closed]
    refine .single ?_
    change some (b,if _ then _ else _) = _
    rw [if_pos none]
    rfl
  · have closed : b.close = ({ b with owners := b.owners - 1 },1) := if_neg none
    have first : (mboxProgram τ).Small (b,.testing .close) (b,.closing (b.owners - 1)) := by
      change some (b,if _ then _ else _) = _
      rw [if_neg none]
    rw [outcome,perform,closed]
    exact .head first (.single rfl)

theorem region_send {m : Message} (proper : m.Proper) :
    Relation.ReflTransGen (mboxProgram τ).Small (b,.testing (.send m)) (b.outcome (.send m)) := by
  have length := proper.length_bytes
  by_cases small : b.spaceAvailable < m.size
  · have refused : b.send m = none := if_pos small
    rw [outcome,perform,refused]
    refine .single ?_
    change some (b,if _ then _ else _) = _
    rw [if_pos small]
    rfl
  · have whole : m.bytes.take m.size = m.bytes := take_of_length_le (by omega)
    have done : b.send m = some { b with
        buffer := write mbufferSize b.buffer b.head m.bytes
        head := (b.head + m.size) % mbufferSize
        messages := b.messages + 1 } := by
      rw [Mbox.send,if_neg small,whole]
    have tested : (mboxProgram τ).Small (b,.testing (.send m)) (b,.copyingIn m 0) := by
      change some (b,if _ then _ else _) = _
      rw [if_neg small]
    rw [outcome,perform,done]
    refine (Relation.ReflTransGen.head tested (copied_in length (Nat.zero_add _))).trans ?_
    exact .head rfl (.head rfl (.single rfl))

theorem region_recv :
    Relation.ReflTransGen (mboxProgram τ).Small (b,.testing .recv) (b.outcome .recv) := by
  by_cases none : b.messages = 0
  · have refused : b.recv = Option.none := if_pos none
    rw [outcome,perform,refused]
    refine .single ?_
    change some (b,if _ then _ else _) = _
    rw [if_pos none]
    rfl
  · have tested : (mboxProgram τ).Small (b,.testing .recv) (b,.copyingSize []) := by
      change some (b,if _ then _ else _) = _
      rw [if_neg none]
    have size : Relation.ReflTransGen (mboxProgram τ).Small (b,.copyingSize [])
        (b,.copyingOut (4 + bytesWord (b.ringCopyOut b.tail 4)) []) :=
      @copied_out τ b 4 .copyingSize (fun copied => .copyingOut (4 + bytesWord copied) []) (fun _ => rfl) 4 [] rfl
    rw [outcome,perform,Mbox.recv,if_neg none]
    generalize 4 + bytesWord (b.ringCopyOut b.tail 4) = msize at size ⊢
    have content := @copied_out τ b msize (.copyingOut msize)
      (fun copied => .storingTail ⟨bytesWord (copied.take 4),copied.drop 4⟩ ((b.tail + msize) % mbufferSize))
      (fun _ => rfl) msize [] (Nat.zero_add _)
    refine (Relation.ReflTransGen.head tested (size.trans content)).trans ?_
    exact .head rfl (.head rfl (.single rfl))

/-- The steps behind a loop test are the operation. -/
theorem region (permitted : MboxRun.Permitted op) :
    Relation.ReflTransGen (mboxProgram τ).Small (b,.testing op) (b.outcome op) := by
  cases op with
  | openBox => exact region_openBox
  | close => exact region_close
  | stat => exact .head rfl (.single rfl)
  | send m => exact region_send permitted
  | recv => exact region_recv

theorem outcome_idle (b : Mbox) (op : MboxOp) (c : Mbox) : work c (b.outcome op).2 = none := by
  rw [outcome]
  split
  · cases op <;> rfl
  · rfl

theorem whole_region {p q : MboxPlace} (between : p.Between) (whole : (mboxProgram τ).Whole (b,p) (c,q)) :
    ∃ op, p = .testing op ∧ MboxRun.Permitted op ∧ (c,q) = b.outcome op := by
  have busy : work b p ≠ none := whole.busy
  cases p with
  | testing op => exact ⟨op,rfl,between,whole.ends (region between) (outcome_idle ..)⟩
  | idle | locking _ | failing _ | waiting _ | announcing _ _ | leaving _ _ => exact absurd rfl busy
  | _ => exact between.elim

theorem ended_answer (permitted : MboxRun.Permitted op) (a : MboxAnswer) :
    (ended op a).answer = some a ∧ (ended op a).Between := by
  cases op <;> exact ⟨rfl,permitted⟩

end Mbox

open MboxPlace in
def mboxCalls (τ : Type) : LockCalls (mboxProgram τ) MboxOp MboxAnswer where
  during := during
  answer := answer
  Proper := MboxRun.Permitted
  perform := Mbox.perform
  Valid := fun _ => True
  Between := Between
  idle_between := trivial
  during_idle := rfl
  proper := by
    intro p op between called
    cases p with
    | locking _ | testing _ | failing _ | waiting _ | announcing _ _ | leaving _ _ =>
      cases called
      exact between
    | idle => contradiction
    | _ => exact between.elim
  answered := by
    intro p a found
    cases p with
    | announcing _ _ | leaving _ _ => exact ⟨rfl,fun _ => rfl⟩
    | _ => contradiction
  work_during := work_during
  region := by
    intro b p c q _ between whole
    obtain ⟨op,rfl,permitted,result⟩ := Mbox.whole_region between whole
    rw [Mbox.outcome] at result
    split at result
    · rename_i c' a done
      obtain ⟨rfl,rfl⟩ := Prod.mk.inj result
      obtain ⟨answer,between⟩ := Mbox.ended_answer permitted a
      exact ⟨between,.inr ⟨op,a,rfl,answer,done,trivial⟩⟩
    · obtain ⟨rfl,rfl⟩ := Prod.mk.inj result
      exact ⟨permitted,.inl ⟨rfl,rfl⟩⟩
  calls := by
    intro p op held q goes between
    cases goes with
    | call op permitted =>
      cases held
      · exact ⟨permitted,.inr (.inl ⟨rfl,rfl,op,rfl⟩)⟩
      · exact ⟨permitted,.inr (.inl ⟨rfl,rfl,op,rfl⟩)⟩
    | relock | rewait =>
      cases held
      · exact ⟨between,.inl ⟨rfl,rfl⟩⟩
      · exact ⟨between,.inl ⟨rfl,rfl⟩⟩
    | waitSpace | waitData | signal | broadcast => exact ⟨between,.inl ⟨rfl,rfl⟩⟩
    | release => exact ⟨trivial,.inr (.inr ⟨rfl,_,_,rfl,rfl⟩)⟩

namespace MboxPlace

/-- The place of the system with whole operations: work in progress has not begun there. -/
def pc : MboxPlace → MboxPc
  | .idle => .idle
  | .locking op => .locking op
  | .testing op => .testing op
  | .failing op => .failing op
  | .waiting op => .waiting op
  | .clearingHead | .clearingTail | .clearingMessages | .loadingOwners | .opening _ => .testing .openBox
  | .closing _ => .testing .close
  | .counting _ => .testing .stat
  | .copyingIn m _ | .storingHead m _ | .loadingMessages m | .storingMessages m _ => .testing (.send m)
  | .copyingSize _ | .copyingOut _ _ | .storingTail _ _ | .countingDown _ | .storingCount _ _ => .testing .recv
  | .announcing op _ => .announcing op
  | .leaving _ _ => .releasing

end MboxPlace

namespace MailboxBytes

open MboxPlace

variable {τ : Type}

/-- The system with whole operations in a state of this one. -/
def system (s : Guarded MboxCond τ Mbox MboxPlace) : MboxSystem τ :=
  ⟨s.monitor,s.object,fun t => (s.place t).pc⟩

/-- The messages sent and the messages received by calls that have been made. -/
def sent (calls : List (τ × MboxOp × MboxAnswer)) : List Message :=
  calls.filterMap (fun
    | (_,.send m,_) => some m
    | _ => none)

def received (calls : List (τ × MboxOp × MboxAnswer)) : List Message :=
  calls.filterMap (fun
    | (_,_,.message _ m) => some m
    | _ => none)

theorem serial_fifo {first b : Mbox} (unused : MboxRun.Unused ⟨first,[],[]⟩) {calls : List (τ × MboxOp × MboxAnswer)}
    (serial : Serial MboxRun.Permitted Mbox.perform first calls b) : MboxRun.Fifo ⟨b,sent calls,received calls⟩ := by
  induction serial with
  | none => exact MboxRun.unused_fifo unused
  | @call calls b c t op a _ permitted done ih =>
    have next := MboxRun.step_fifo ih ⟨op,permitted,rfl⟩
    rw [sent,received,filterMap_append,filterMap_append,← sent,← received]
    cases op with
    | openBox | close | stat =>
      cases done
      simpa [MboxRun.perform] using next
    | send m =>
      obtain ⟨box,found,result⟩ := Option.map_eq_some_iff.mp done
      cases result
      rw [MboxRun.perform,found] at next
      simpa using next
    | recv =>
      obtain ⟨⟨box,m⟩,found,result⟩ := Option.map_eq_some_iff.mp done
      cases result
      rw [MboxRun.perform,found] at next
      simpa using next

variable [DecidableEq τ]

/-- A state between whole operations. -/
structure Settled (c : Guarded MboxCond τ Mbox MboxPlace) : Prop where
  between : ∀ t, (c.place t).Between
  reached : Reach MboxSystem.Initial MboxSystem.Step (system c)

variable {c s : Guarded MboxCond τ Mbox MboxPlace} {r : τ} {first : Mbox}

theorem system_update {m : Monitor MboxCond τ} {b : Mbox} {p : MboxPlace} :
    system ⟨m,b,update c.place r p⟩ = ⟨m,b,update (system c).pc r p.pc⟩ :=
  congrArg (MboxSystem.mk m b) (funext (apply_update (fun _ => MboxPlace.pc) c.place r p))

theorem work_system (sys : MboxSystem τ) (op : MboxOp) :
    sys.work r op = ⟨sys.monitor,(sys.box.outcome op).1,update sys.pc r (sys.box.outcome op).2.pc⟩ := by
  cases op with
  | openBox | close | stat => rfl
  | send m =>
    rw [MboxSystem.work,Mbox.outcome,Mbox.perform]
    cases sys.box.send m with
    | none => rfl
    | some b => rfl
  | recv =>
    rw [MboxSystem.work,Mbox.outcome,Mbox.perform]
    cases sys.box.recv with
    | none => rfl
    | some b => rfl

theorem Settled.moved (settled : Settled c) {m : Monitor MboxCond τ} {b : Mbox} {p : MboxPlace} (between : p.Between)
    (step : (system c).Step ⟨m,b,update (system c).pc r p.pc⟩) : Settled ⟨m,b,update c.place r p⟩ := by
  refine ⟨?_,?_⟩
  · intro t
    dsimp only
    by_cases same : t = r
    · rw [same,update_self]
      exact between
    · rw [update_of_ne same]
      exact settled.between t
  · rw [system_update]
    exact settled.reached.advance step

theorem Settled.works (settled : Settled c) (running : c.monitor.places.ring.head? = some r) {b : Mbox}
    {q : MboxPlace} (done : (mboxProgram τ).Whole (c.object,c.place r) (b,q)) :
    Settled { c with object := b, place := update c.place r q } := by
  have kept := ((mboxCalls τ).region trivial (settled.between r) done).1
  obtain ⟨op,place,_,result⟩ := Mbox.whole_region (settled.between r) done
  obtain ⟨rfl,rfl⟩ := Prod.mk.inj result
  have testing : (system c).pc r = .testing op := congrArg MboxPlace.pc place
  refine settled.moved kept ⟨r,running,?_⟩
  have does := MboxSystem.Does.work testing
  rw [work_system] at does
  exact does

theorem Settled.calls (settled : Settled c) (running : c.monitor.places.ring.head? = some r) {op : MonitorOp MboxCond τ}
    {m : Monitor MboxCond τ} {q : MboxPlace} (allowed : c.monitor.Allowed r op) (done : c.monitor.effect r op = some m)
    (goes : Calls (c.place r) op (m.holds r) q) : Settled { c with monitor := m, place := update c.place r q } := by
  refine settled.moved ((mboxCalls τ).calls goes (settled.between r)).1 ⟨r,running,?_⟩
  have at' : ∀ {p}, c.place r = p → (system c).pc r = p.pc := fun place => congrArg MboxPlace.pc place
  -- the lock helper has run: what `entered` says in the system with whole operations
  have entered : ∀ {op : MboxOp} {otherwise : MboxPlace},
      (system c).Does r ((system c).entered r op otherwise.pc m) →
      (system c).Does r ⟨m,c.object,update (system c).pc r (if m.holds r then MboxPlace.testing op else otherwise).pc⟩ := by
    intro op otherwise does
    rw [apply_ite MboxPlace.pc]
    exact does
  generalize place : c.place r = p at goes
  generalize held : m.holds r = has at goes
  cases goes with
  | call op permitted =>
    rw [← held]
    exact entered (.call op (at' place) permitted allowed done)
  | relock =>
    rw [← held]
    exact entered (.relock (at' place) allowed done)
  | rewait =>
    rw [← held]
    exact entered (.rewait (at' place) allowed done)
  | waitSpace => exact .waitSpace (at' place) allowed done
  | waitData => exact .waitData (at' place) allowed done
  | signal => exact .signal (at' place) allowed done
  | broadcast => exact .broadcast (at' place) allowed done
  | release => exact .release (at' place) allowed done

theorem settled (unused : MboxRun.Unused ⟨first,[],[]⟩) (reached : Reach (Guarded.Initial (mboxProgram τ) first)
    (Guarded.Step (mboxProgram τ) (mboxProgram τ).Whole) c) : Settled c := by
  refine reached.invariant Settled ?_ ?_
  · rintro c ⟨monitor,object,places⟩
    have idle : ∀ t, c.place t = .idle := places
    refine ⟨?_,.start ⟨monitor,?_,?_⟩⟩
    · intro t
      rw [idle]
      trivial
    · rw [show (system c).box = first from object]
      exact unused
    · exact fun t => congrArg MboxPlace.pc (idle t)
  · rintro c d settled ⟨r,running,does⟩
    have idle : ∀ {t}, c.place t = .idle → (system c).pc t = .idle := fun place => congrArg MboxPlace.pc place
    cases does with
    | work _ done => exact settled.works running done
    | call allowed done goes => exact settled.calls running allowed done goes
    | switch allowed done => exact ⟨settled.between,settled.reached.advance ⟨r,running,.switch allowed done⟩⟩
    | create allowed fresh done =>
      exact ⟨settled.between,settled.reached.advance ⟨r,running,.create (idle fresh) allowed done⟩⟩
    | exit allowed outside done =>
      exact ⟨settled.between,settled.reached.advance ⟨r,running,.exit (idle outside) allowed done⟩⟩

/-- The mailbox byte by byte, under every schedule. The threads make one operation after the other;
the operations that have returned, in the order in which they gave the lock back, and one at most
that is about to, are whole operations, and each has returned what the whole operation does.
What they have received is a front part of what they have sent. When no operation is in the middle
of its work, the mailbox is the one they leave and holds the messages in between, and the system
is in a state that the one with whole operations comes to, so that no wake-up is lost here
either. -/
theorem mailbox_bytes_refine (first : Mbox) (unused : MboxRun.Unused ⟨first,[],[]⟩)
    (s : Guarded MboxCond τ Mbox MboxPlace) (h : List (CallEvent τ MboxOp MboxAnswer))
    (reached : Reach ((mboxCalls τ).Initial first) (mboxCalls τ).Step (s,h)) :
    CallEvent.ongoing h = some (fun t => (s.place t).during) ∧
    ∃ pending box, (mboxCalls τ).Pending s.place pending ∧
      Serial MboxRun.Permitted Mbox.perform first (CallEvent.completed h ++ pending) box ∧
      received (CallEvent.completed h ++ pending) <+: sent (CallEvent.completed h ++ pending) ∧
      ((∀ r, s.monitor.holds r = true → work s.object (s.place r) = none) → s.object = box ∧
        sent (CallEvent.completed h ++ pending) = received (CallEvent.completed h ++ pending) ++ box.decode ∧
        Reach MboxSystem.Initial MboxSystem.Step (system s)) := by
  obtain ⟨ongoing,c,pending,atomic,behind,members,serial⟩ := (mboxCalls τ).calls_in_order trivial reached
  obtain ⟨queue,holds,fifo⟩ := serial_fifo unused serial
  refine ⟨ongoing,pending,c.object,members,serial,⟨queue,fifo.symm⟩,?_⟩
  intro calm
  have same : c = s := behind.same calm
  rw [← same]
  refine ⟨rfl,?_,(settled unused atomic).reached⟩
  rw [holds.decode]
  exact fifo

section Sample

def sampleRecord {τ : Type} (a b : τ) : List (CallEvent τ MboxOp MboxAnswer) :=
  [.begins a (.send ⟨1,[7]⟩),.begins b .stat,.returns a (.send ⟨1,[7]⟩) (.value 1),.returns b .stat (.counts 1 1 1019)]

/-- One thread sends a message of one byte and is taken away with a part of it copied; another one
asks for the counts and has to wait for the lock. -/
theorem count_behind_send : ∃ s, Reach ((mboxCalls (Fin 3)).Initial MboxRun.unused.box) (mboxCalls (Fin 3)).Step
    (s,sampleRecord 0 1) ∧ (∀ t, s.place t = .idle) ∧ ∀ t, s.monitor.holds t = false := by
  have proper : MboxRun.Permitted (.send ⟨1,[7]⟩) := show Message.Proper ⟨1,[7]⟩ by decide
  have woken : (Doing.woken : Doing MboxCond) ≠ .free := by decide
  have start : Reach ((mboxCalls (Fin 3)).Initial MboxRun.unused.box) (mboxCalls (Fin 3)).Step
      (⟨Monitor.three MboxCond,MboxRun.unused.box,fun _ => .idle⟩,[]) :=
    .start ⟨⟨⟨Monitor.three_valid _,fun _ => rfl,rfl,fun _ => ⟨rfl,rfl⟩⟩,rfl,fun _ => rfl⟩,rfl⟩
  have sending := LockCalls.called start 0 rfl .acquire rfl rfl (Calls.call (.send ⟨1,[7]⟩) proper)
  have partly := LockCalls.works_on sending 0 rfl rfl 4 rfl
  have taken := LockCalls.switched partly 0 rfl rfl
  have blocked := LockCalls.called taken 1 rfl .acquire rfl rfl (Calls.call .stat trivial)
  have back := LockCalls.switched blocked 2 rfl rfl
  have copied := LockCalls.works_on back 0 rfl rfl 6 rfl
  have announced := LockCalls.called copied 0 rfl (.signal .arrivedData) rfl rfl Calls.signal
  have returned := LockCalls.called announced 0 rfl .release ⟨rfl,rfl⟩ rfl Calls.release
  have turned := LockCalls.switched returned 0 rfl rfl
  have resumed := LockCalls.called turned 1 rfl .resume woken rfl Calls.relock
  have counted := LockCalls.works_on resumed 1 rfl rfl 2 rfl
  have answered := LockCalls.called counted 1 rfl .release ⟨rfl,rfl⟩ rfl Calls.release
  refine ⟨_,answered,?_,?_⟩
  · intro t
    match t with
    | 0 | 1 | 2 => rfl
  · intro t
    match t with
    | 0 | 1 | 2 => rfl

/-- The count is that of the mailbox behind the message, and the message is in it. -/
theorem count_sees_message : ∃ s box,
    Reach ((mboxCalls (Fin 3)).Initial MboxRun.unused.box) (mboxCalls (Fin 3)).Step (s,sampleRecord 0 1) ∧ s.object = box ∧
    Serial MboxRun.Permitted Mbox.perform MboxRun.unused.box
      [((0 : Fin 3),.send ⟨1,[7]⟩,.value 1),(1,.stat,.counts 1 1 1019)] box ∧
    box.decode = [⟨1,[7]⟩] ∧ Reach MboxSystem.Initial MboxSystem.Step (system s) := by
  obtain ⟨s,reached,idle,free⟩ := count_behind_send
  obtain ⟨_,pending,box,members,serial,_,calm⟩ := mailbox_bytes_refine _ ⟨rfl,rfl,rfl,rfl,rfl,rfl⟩ s _ reached
  obtain rfl : pending = [] := members.eq_nil (fun t => by
    rw [idle t]
    rfl)
  obtain ⟨same,decode,system⟩ := calm (by
    intro t held
    rw [free t] at held
    contradiction)
  exact ⟨s,box,reached,same,serial,decode.symm,system⟩

end Sample

end MailboxBytes

end RudimentaryKernel
