import Mathlib.Data.Fintype.Card
import RudimentaryKernel.MailboxFifo
import RudimentaryKernel.Monitor

/-! Senders and receivers on one mailbox, as threads of a monitor. A thread takes the
lock, tests its loop condition, waits or does its work, announces it, and releases the
lock; the timer may come between any two of these steps. No wake-up is lost. -/
namespace RudimentaryKernel

open Function List

inductive MboxCond where
  | freedSpace
  | arrivedData
  deriving DecidableEq

/-- Where a thread is in an operation of the mailbox: taking the lock, at the loop test
and the work behind it, about to wait, in `wait`, about to announce, about to release. -/
inductive MboxPc where
  | idle
  | locking (op : MboxOp)
  | testing (op : MboxOp)
  | failing (op : MboxOp)
  | waiting (op : MboxOp)
  | announcing (op : MboxOp)
  | releasing
  deriving DecidableEq

def MboxPc.inside : MboxPc → Bool
  | .testing _ | .failing _ | .announcing _ | .releasing => true
  | .idle | .locking _ | .waiting _ => false

structure MboxSystem (τ : Type) where
  monitor : Monitor MboxCond τ
  box : Mbox
  pc : τ → MboxPc

namespace MboxSystem

variable {τ : Type} [DecidableEq τ]

def queue (s : MboxSystem τ) (c : MboxCond) : List τ := s.monitor.places.waiting (some c)

def work (s : MboxSystem τ) (r : τ) : MboxOp → MboxSystem τ
  | .openBox => { s with box := s.box.opened, pc := update s.pc r .releasing }
  | .close => { s with box := s.box.close.1, pc := update s.pc r .releasing }
  | .stat => { s with pc := update s.pc r .releasing }
  | .send m => match s.box.send m with
    | none => { s with pc := update s.pc r (.failing (.send m)) }
    | some box => { s with box := box, pc := update s.pc r (.announcing (.send m)) }
  | .recv => match s.box.recv with
    | none => { s with pc := update s.pc r (.failing .recv) }
    | some (box,_) => { s with box := box, pc := update s.pc r (.announcing .recv) }

def entered (s : MboxSystem τ) (r : τ) (op : MboxOp) (otherwise : MboxPc) (m : Monitor MboxCond τ) :
    MboxSystem τ :=
  { s with monitor := m, pc := update s.pc r (if m.holds r then .testing op else otherwise) }

/-- One step of the running thread `r`, with the operation of the monitor it makes. -/
inductive Does (s : MboxSystem τ) (r : τ) : MboxSystem τ → Prop where
  | call {m} (op : MboxOp) (idle : s.pc r = .idle) (permitted : MboxRun.Permitted op)
      (allowed : s.monitor.Allowed r .acquire) (done : s.monitor.effect r .acquire = some m) :
      Does s r (s.entered r op (.locking op) m)
  | relock {op m} (locking : s.pc r = .locking op) (allowed : s.monitor.Allowed r .resume)
      (done : s.monitor.effect r .resume = some m) :
      Does s r (s.entered r op (.locking op) m)
  | rewait {op m} (waiting : s.pc r = .waiting op) (allowed : s.monitor.Allowed r .resume)
      (done : s.monitor.effect r .resume = some m) :
      Does s r (s.entered r op (.waiting op) m)
  | work {op} (testing : s.pc r = .testing op) : Does s r (s.work r op)
  | waitSpace {content m} (failing : s.pc r = .failing (.send content))
      (allowed : s.monitor.Allowed r (.wait .freedSpace))
      (done : s.monitor.effect r (.wait .freedSpace) = some m) :
      Does s r { s with monitor := m, pc := update s.pc r (.waiting (.send content)) }
  | waitData {m} (failing : s.pc r = .failing .recv)
      (allowed : s.monitor.Allowed r (.wait .arrivedData))
      (done : s.monitor.effect r (.wait .arrivedData) = some m) :
      Does s r { s with monitor := m, pc := update s.pc r (.waiting .recv) }
  | signal {content m} (announcing : s.pc r = .announcing (.send content))
      (allowed : s.monitor.Allowed r (.signal .arrivedData))
      (done : s.monitor.effect r (.signal .arrivedData) = some m) :
      Does s r { s with monitor := m, pc := update s.pc r .releasing }
  | broadcast {m} (announcing : s.pc r = .announcing .recv)
      (allowed : s.monitor.Allowed r (.broadcast .freedSpace))
      (done : s.monitor.effect r (.broadcast .freedSpace) = some m) :
      Does s r { s with monitor := m, pc := update s.pc r .releasing }
  | release {m} (releasing : s.pc r = .releasing) (allowed : s.monitor.Allowed r .release)
      (done : s.monitor.effect r .release = some m) :
      Does s r { s with monitor := m, pc := update s.pc r .idle }
  | switch {m} (allowed : s.monitor.Allowed r .switch) (done : s.monitor.effect r .switch = some m) :
      Does s r { s with monitor := m }
  | create {t m} (idle : s.pc t = .idle) (allowed : s.monitor.Allowed r (.create t))
      (done : s.monitor.effect r (.create t) = some m) : Does s r { s with monitor := m }
  | exit {m} (idle : s.pc r = .idle) (allowed : s.monitor.Allowed r .exit)
      (done : s.monitor.effect r .exit = some m) : Does s r { s with monitor := m }

def Step (s t : MboxSystem τ) : Prop :=
  ∃ r, s.monitor.places.ring.head? = some r ∧ s.Does r t

def Initial (s : MboxSystem τ) : Prop :=
  s.monitor.Initial ∧ MboxRun.Unused ⟨s.box,[],[]⟩ ∧ ∀ t, s.pc t = .idle

variable {s t : MboxSystem τ} {r u : τ} {rest : List τ} {c : MboxCond}

/-- The thread is about to look at the messages, or to wake a receiver for the one it has sent. -/
def Owes (pc : MboxPc) : Prop := pc = .testing .recv ∨ ∃ m, pc = .announcing (.send m)

def Sends (pc : MboxPc) (m : Message) : Prop :=
  pc = .locking (.send m) ∨ pc = .testing (.send m) ∨ pc = .failing (.send m) ∨ pc = .waiting (.send m)

section Invariant

variable [Fintype τ]

/-- Receivers inside `arrived_data.wait` that are no longer in its queue. -/
def woken (s : MboxSystem τ) : Finset τ :=
  Finset.univ.filter (fun t => s.pc t = .waiting .recv ∧ t ∉ s.queue .arrivedData)

/-- Who sleeps has a reason to, or somebody is about to announce a change. -/
structure Wakes (s : MboxSystem τ) : Prop where
  sound : s.monitor.Sound
  holds : ∃ messages, s.box.Holds messages
  inside : ∀ t, s.monitor.holds t = (s.pc t).inside
  proper : ∀ t m, Sends (s.pc t) m → m.Proper
  failed : ∀ t, (s.pc t = .failing .recv → s.box.messages = 0) ∧
    ∀ m, s.pc t = .failing (.send m) → s.box.spaceAvailable < m.size
  senders : ∀ t ∈ s.queue .freedSpace, ∃ m, s.pc t = .waiting (.send m) ∧
    (s.box.spaceAvailable < m.size ∨ ∃ u, s.pc u = .announcing .recv)
  receivers : ∀ t ∈ s.queue .arrivedData, s.pc t = .waiting .recv
  counted : s.queue .arrivedData ≠ [] → s.box.messages ≤ s.woken.card ∨
    s.box.messages ≤ s.woken.card + 1 ∧ ∃ u, Owes (s.pc u)

theorem Owes.inside {pc : MboxPc} (owes : Owes pc) : pc.inside = true := by
  rcases owes with rfl | ⟨m,rfl⟩ <;> rfl

theorem Wakes.only (wakes : s.Wakes) (here : (s.pc r).inside = true)
    (there : (s.pc u).inside = true) : u = r := by
  apply wakes.sound.one u r
  · rw [wakes.inside u]
    exact there
  · rw [wakes.inside r]
    exact here

theorem Wakes.settled (wakes : s.Wakes) (free : ∀ u, (s.pc u).inside = false) :
    (∀ t ∈ s.queue .freedSpace, ∃ m, s.pc t = .waiting (.send m) ∧ s.box.spaceAvailable < m.size) ∧
    (s.queue .arrivedData ≠ [] → s.box.messages ≤ s.woken.card) := by
  constructor
  · intro t member
    obtain ⟨m,waiting,small | ⟨u,announcing⟩⟩ := wakes.senders t member
    · exact ⟨m,waiting,small⟩
    · have busy := free u
      simp [announcing,MboxPc.inside] at busy
  · intro filled
    rcases wakes.counted filled with enough | ⟨_,u,owes⟩
    · exact enough
    · have busy := free u
      simp [owes.inside] at busy

theorem initial_wakes (initial : s.Initial) : s.Wakes := by
  obtain ⟨monitor,unused,idle⟩ := initial
  obtain ⟨messages,holds,_⟩ := MboxRun.unused_fifo unused
  have empty : ∀ c, s.queue c = [] := fun c => monitor.2.1 (some c)
  refine ⟨Monitor.initial_sound monitor,⟨messages,holds⟩,?_,?_,?_,?_,?_,?_⟩
  · intro t
    rw [(monitor.2.2.2 t).2,idle]
    rfl
  · simp [Sends,idle]
  · simp [idle]
  · simp [empty]
  · simp [empty]
  · simp [empty]

/-- The running thread `r` has gone from one place to `p`. Where the mailbox has changed,
`r` holds the lock. -/
theorem Wakes.changed (wakes : s.Wakes) {p : MboxPc} (pc : t.pc = update s.pc r p)
    (sound : t.monitor.Sound) (holds : ∃ messages, t.box.Holds messages)
    (own : t.monitor.holds r = p.inside)
    (others : ∀ u, u ≠ r → t.monitor.holds u = s.monitor.holds u)
    (proper : ∀ m, Sends p m → m.Proper)
    (failed : (p = .failing .recv → t.box.messages = 0) ∧
      ∀ m, p = .failing (.send m) → t.box.spaceAvailable < m.size)
    (alone : t.box = s.box ∨ (s.pc r).inside = true)
    (senders : ∀ u ∈ t.queue .freedSpace, ∃ m, t.pc u = .waiting (.send m) ∧
      (t.box.spaceAvailable < m.size ∨ ∃ v, t.pc v = .announcing .recv))
    (receivers : ∀ u ∈ t.queue .arrivedData, t.pc u = .waiting .recv)
    (counted : t.queue .arrivedData ≠ [] → t.box.messages ≤ t.woken.card ∨
      t.box.messages ≤ t.woken.card + 1 ∧ ∃ u, Owes (t.pc u)) : t.Wakes := by
  refine ⟨sound,holds,?_,?_,?_,senders,receivers,counted⟩
  · intro u
    by_cases same : u = r
    · rw [same,own,pc,update_self]
    · rw [others u same,wakes.inside u,pc,update_of_ne same]
  · rw [pc,forall_update_iff s.pc (fun _ p => ∀ m, Sends p m → m.Proper)]
    exact ⟨proper,fun u _ => wakes.proper u⟩
  · rw [pc,forall_update_iff s.pc (fun _ p => (p = .failing .recv → t.box.messages = 0) ∧
      ∀ m, p = .failing (.send m) → t.box.spaceAvailable < m.size)]
    refine ⟨failed,fun u same => ?_⟩
    rcases alone with box | busy
    · rw [box]
      exact wakes.failed u
    · -- another thread at a failed test would hold the lock as well
      have outside : (s.pc u).inside = true → False := fun there => same (wakes.only busy there)
      constructor
      · intro failing
        exact (outside (by rw [failing]; rfl)).elim
      · intro m failing
        exact (outside (by rw [failing]; rfl)).elim

theorem Wakes.senders_kept (wakes : s.Wakes) {p : MboxPc} (pc : t.pc = update s.pc r p)
    (queue : ∀ u ∈ t.queue .freedSpace, u ≠ r ∧ u ∈ s.queue .freedSpace)
    (space : ∀ n, s.box.spaceAvailable < n → t.box.spaceAvailable < n ∨ p = .announcing .recv)
    (announced : s.pc r ≠ .announcing .recv) :
    ∀ u ∈ t.queue .freedSpace, ∃ m, t.pc u = .waiting (.send m) ∧
      (t.box.spaceAvailable < m.size ∨ ∃ v, t.pc v = .announcing .recv) := by
  intro u member
  obtain ⟨other,before⟩ := queue u member
  obtain ⟨m,waiting,why⟩ := wakes.senders u before
  refine ⟨m,by rwa [pc,update_of_ne other],?_⟩
  rcases why with small | ⟨v,announcing⟩
  · refine (space m.size small).imp_right (fun now => ⟨r,?_⟩)
    rw [pc,update_self]
    exact now
  · have notR : v ≠ r := fun same => announced (same ▸ announcing)
    exact .inr ⟨v,by rwa [pc,update_of_ne notR]⟩

theorem Wakes.receivers_kept (wakes : s.Wakes) {p : MboxPc} (pc : t.pc = update s.pc r p)
    (queue : ∀ u ∈ t.queue .arrivedData, u ≠ r ∧ u ∈ s.queue .arrivedData) :
    ∀ u ∈ t.queue .arrivedData, t.pc u = .waiting .recv := by
  intro u member
  obtain ⟨other,before⟩ := queue u member
  rw [pc,update_of_ne other]
  exact wakes.receivers u before

theorem woken_kept {p : MboxPc} (pc : t.pc = update s.pc r p)
    (queue : t.queue .arrivedData = s.queue .arrivedData)
    (waits : p = .waiting .recv ↔ s.pc r = .waiting .recv) : t.woken = s.woken := by
  rw [woken,woken,queue]
  apply Finset.filter_congr
  intro u _
  by_cases same : u = r
  · rw [same,pc,update_self,waits]
  · rw [pc,update_of_ne same]

theorem Wakes.counted_kept (wakes : s.Wakes) {p : MboxPc} (pc : t.pc = update s.pc r p)
    (queue : t.queue .arrivedData = s.queue .arrivedData) (box : t.box = s.box)
    (woken : t.woken = s.woken) (owing : ¬Owes (s.pc r)) :
    t.queue .arrivedData ≠ [] → t.box.messages ≤ t.woken.card ∨
      t.box.messages ≤ t.woken.card + 1 ∧ ∃ u, Owes (t.pc u) := by
  intro filled
  rw [queue] at filled
  rw [woken,box]
  refine (wakes.counted filled).imp_right ?_
  rintro ⟨enough,u,owes⟩
  have other : u ≠ r := fun same => owing (same ▸ owes)
  exact ⟨enough,u,by rwa [pc,update_of_ne other]⟩

theorem Wakes.awake (wakes : s.Wakes) (running : s.monitor.places.ring = r :: rest) (c : MboxCond) :
    r ∉ s.queue c :=
  fun member => wakes.sound.valid.apart (some c) (a := r) (by simp [running]) member

theorem Wakes.stays (wakes : s.Wakes) (running : s.monitor.places.ring = r :: rest)
    (kept : t.queue c = s.queue c) : ∀ u ∈ t.queue c, u ≠ r ∧ u ∈ s.queue c := by
  intro u member
  rw [kept] at member
  exact ⟨fun same => wakes.awake running c (same ▸ member),member⟩

theorem Wakes.moved (wakes : s.Wakes) (running : s.monitor.places.ring = r :: rest) {p : MboxPc}
    (pc : t.pc = update s.pc r p) (sound : t.monitor.Sound) (box : t.box = s.box)
    (queue : ∀ c, t.queue c = s.queue c) (own : t.monitor.holds r = p.inside)
    (others : ∀ u, u ≠ r → t.monitor.holds u = s.monitor.holds u)
    (proper : ∀ m, Sends p m → m.Proper) (untested : ∀ op, p ≠ .failing op)
    (silent : s.pc r ≠ .announcing .recv) (owing : ¬Owes (s.pc r))
    (waits : p = .waiting .recv ↔ s.pc r = .waiting .recv) : t.Wakes := by
  have stays : ∀ c, ∀ u ∈ t.queue c, u ≠ r ∧ u ∈ s.queue c :=
    fun c => wakes.stays running (queue c)
  have woken := woken_kept pc (queue _) waits
  exact wakes.changed pc sound (box ▸ wakes.holds) own others proper
    ⟨fun failing => absurd failing (untested _),fun _ failing => absurd failing (untested _)⟩ (.inl box)
    (wakes.senders_kept pc (stays _) (fun n small => .inl (box ▸ small)) silent)
    (wakes.receivers_kept pc (stays _)) (wakes.counted_kept pc (queue _) box woken owing)

/-- The helper has run for a thread that calls an operation or comes back from `block`.
Where the lock is free, nobody is inside, and a woken receiver becomes the one that owes. -/
theorem Wakes.entering (wakes : s.Wakes) (running : s.monitor.places.ring = r :: rest)
    {op : MboxOp} {otherwise : MboxPc} {m : Monitor MboxCond τ}
    (outside : (s.pc r).inside = false) (form : otherwise = .locking op ∨ otherwise = .waiting op)
    (waits : otherwise = .waiting .recv ↔ s.pc r = .waiting .recv)
    (proper : ∀ content, op = .send content → content.Proper)
    (sound : m.Sound) (done : s.monitor.lockAcquireHelper r = some m) :
    (s.entered r op otherwise m).Wakes := by
  have silent : s.pc r ≠ .announcing .recv := by
    intro announcing
    simp [announcing,MboxPc.inside] at outside
  have owing : ¬Owes (s.pc r) := by
    intro owes
    simp [owes.inside] at outside
  rcases Monitor.lockAcquireHelper_cases done with ⟨_,places,holds⟩ | ⟨free,places,holds⟩
  · have absent : m.holds r = false := by rw [holds,wakes.inside,outside]
    have pc : (s.entered r op otherwise m).pc = update s.pc r otherwise := by
      simp [entered,absent]
    refine wakes.moved running pc sound rfl ?_ ?_ ?_ ?_ ?_ silent owing waits
    · intro c
      simp [queue,entered,places,Places.park]
    · rcases form with rfl | rfl <;> exact absent
    · intro u _
      exact congrFun holds u
    · intro content sends
      apply proper content
      rcases form with rfl | rfl <;> simpa [Sends] using sends
    · rcases form with rfl | rfl <;> simp
  · have present : m.holds r = true := by rw [holds,update_self]
    have pc : (s.entered r op otherwise m).pc = update s.pc r (.testing op) := by
      simp [entered,present]
    have same : ∀ c, (s.entered r op otherwise m).queue c = s.queue c := by
      intro c
      simp [queue,entered,places]
    have others : ∀ u, u ≠ r → m.holds u = s.monitor.holds u := by
      intro u other
      rw [holds,update_of_ne other]
    have sends : ∀ content, Sends (.testing op) content → content.Proper := by
      intro content sends
      exact proper content (by simpa [Sends] using sends)
    by_cases receiver : s.pc r = .waiting .recv
    · obtain rfl : op = .recv := by
        rcases form with rfl | rfl <;> simpa using waits.mpr receiver
      have stays : ∀ c, ∀ u ∈ (s.entered r .recv otherwise m).queue c, u ≠ r ∧ u ∈ s.queue c :=
        fun c => wakes.stays running (same c)
      have nobody : ∀ u, (s.pc u).inside = false := by
        intro u
        rw [← wakes.inside,← Bool.not_eq_true]
        exact fun holder => free (wakes.sound.locked.mpr ⟨u,holder⟩)
      have fewer : s.woken ⊆ insert r (s.entered r .recv otherwise m).woken := by
        intro u member
        by_cases is : u = r
        · simp [is]
        · rw [woken,Finset.mem_filter] at member
          simpa [is,woken,pc,same] using member
      refine wakes.changed pc sound wakes.holds present others sends (by simp) (.inl rfl)
        (wakes.senders_kept pc (stays _) (fun n small => .inl small) silent)
        (wakes.receivers_kept pc (stays _)) ?_
      intro filled
      rw [same] at filled
      refine .inr ⟨?_,r,.inl (by rw [pc,update_self])⟩
      calc
        s.box.messages ≤ s.woken.card := (wakes.settled nobody).2 filled
        _ ≤ (insert r (s.entered r .recv otherwise m).woken).card := Finset.card_le_card fewer
        _ ≤ (s.entered r .recv otherwise m).woken.card + 1 := Finset.card_insert_le _ _
    · exact wakes.moved running pc sound rfl same present others sends (by simp) silent owing
        (by simp [receiver])

theorem Wakes.worked (wakes : s.Wakes) (running : s.monitor.places.ring = r :: rest)
    {op : MboxOp} {p : MboxPc} {box : Mbox} (testing : s.pc r = .testing op) (inside : p.inside = true)
    (holds : ∃ messages, box.Holds messages) (proper : ∀ m, Sends p m → m.Proper)
    (failed : (p = .failing .recv → box.messages = 0) ∧
      ∀ m, p = .failing (.send m) → box.spaceAvailable < m.size)
    (space : ∀ n, s.box.spaceAvailable < n → box.spaceAvailable < n ∨ p = .announcing .recv)
    (counted : s.queue .arrivedData ≠ [] →
      box.messages ≤ s.woken.card ∨ box.messages ≤ s.woken.card + 1 ∧ Owes p) :
    MboxSystem.Wakes ⟨s.monitor,box,update s.pc r p⟩ := by
  have holder : (s.pc r).inside = true := by rw [testing]; rfl
  have stays : ∀ c, ∀ u ∈ queue ⟨s.monitor,box,update s.pc r p⟩ c, u ≠ r ∧ u ∈ s.queue c :=
    fun c => wakes.stays running rfl
  have woken : woken ⟨s.monitor,box,update s.pc r p⟩ = s.woken := by
    refine woken_kept (s := s) (r := r) (p := p) rfl rfl ?_
    have notWaiting : p ≠ .waiting .recv := by
      intro waiting
      simp [waiting,MboxPc.inside] at inside
    simp [notWaiting,testing]
  refine wakes.changed rfl wakes.sound holds ?_ (fun _ _ => rfl) proper failed (.inr holder)
    (wakes.senders_kept rfl (stays _) space (by simp [testing]))
    (wakes.receivers_kept rfl (stays _)) ?_
  · rw [inside,← holder]
    exact wakes.inside r
  · intro filled
    rw [woken]
    refine (counted filled).imp_right ?_
    rintro ⟨enough,owes⟩
    exact ⟨enough,r,by simpa using owes⟩

theorem Wakes.enough (wakes : s.Wakes) (holder : (s.pc r).inside = true) (owing : ¬Owes (s.pc r))
    (filled : s.queue .arrivedData ≠ []) : s.box.messages ≤ s.woken.card := by
  rcases wakes.counted filled with enough | ⟨_,u,owes⟩
  · exact enough
  · exact absurd (wakes.only holder owes.inside ▸ owes) owing

theorem Wakes.unchanged (wakes : s.Wakes) (running : s.monitor.places.ring = r :: rest) {op : MboxOp}
    {box : Mbox} (testing : s.pc r = .testing op) (other : op ≠ .recv)
    (keeps : ∀ messages, s.box.Holds messages → box.Holds messages) :
    MboxSystem.Wakes ⟨s.monitor,box,update s.pc r .releasing⟩ := by
  obtain ⟨messages,before⟩ := wakes.holds
  have after := keeps messages before
  refine wakes.worked running testing rfl ⟨messages,after⟩ (by simp [Sends]) (by simp) ?_ ?_
  · intro n small
    rw [before.space] at small
    exact .inl (after.space ▸ small)
  · intro filled
    rw [after.messages,← before.messages]
    exact .inl (wakes.enough (r := r) (by rw [testing]; rfl) (by simp [Owes,testing,other]) filled)

theorem Wakes.sending (wakes : s.Wakes) (running : s.monitor.places.ring = r :: rest) {m : Message}
    (testing : s.pc r = .testing (.send m)) : (s.work r (.send m)).Wakes := by
  obtain ⟨messages,before⟩ := wakes.holds
  have proper : m.Proper := wakes.proper r m (.inr (.inl testing))
  have enough := wakes.enough (r := r) (by rw [testing]; rfl) (by simp [Owes,testing])
  have space := before.space
  have room := before.room
  obtain ⟨roomy,full⟩ := before.send proper
  rw [work]
  by_cases fits : Message.total messages + m.size ≤ mbufferSize
  · obtain ⟨box,done,after⟩ := roomy fits
    rw [done]
    refine wakes.worked running testing rfl ⟨_,after⟩ (by simp [Sends]) (by simp) ?_ ?_
    · intro n small
      rw [after.space,Message.total_append]
      exact .inl (by omega)
    · intro filled
      have count : box.messages = s.box.messages + 1 := by simp [after.messages,before.messages]
      have bound := enough filled
      exact .inr ⟨by omega,.inr ⟨m,rfl⟩⟩
  · rw [full (by omega)]
    refine wakes.worked running testing rfl wakes.holds ?_ ⟨by simp,?_⟩ (fun _ small => .inl small)
      (fun filled => .inl (enough filled))
    · intro content sends
      obtain rfl : m = content := by simpa [Sends] using sends
      exact proper
    · intro content failing
      obtain rfl : m = content := by simpa using failing
      omega

theorem Wakes.receiving (wakes : s.Wakes) (running : s.monitor.places.ring = r :: rest)
    (testing : s.pc r = .testing .recv) : (s.work r .recv).Wakes := by
  obtain ⟨messages,before⟩ := wakes.holds
  rw [work]
  cases messages with
  | nil =>
    rw [before.recv_none]
    have none : s.box.messages = 0 := before.messages
    exact wakes.worked running testing rfl wakes.holds (by simp [Sends]) ⟨fun _ => none,by simp⟩
      (fun _ small => .inl small) (fun _ => .inl (by omega))
  | cons m messages =>
    obtain ⟨box,done,after⟩ := before.recv
    rw [done]
    refine wakes.worked running testing rfl ⟨_,after⟩ (by simp [Sends]) (by simp)
      (fun _ _ => .inr rfl) ?_
    intro filled
    have count : box.messages + 1 = s.box.messages := by simp [after.messages,before.messages]
    rcases wakes.counted filled with enough | ⟨enough,_⟩
    · exact .inl (by omega)
    · exact .inl (by omega)

theorem Wakes.work (wakes : s.Wakes) (running : s.monitor.places.ring = r :: rest) {op : MboxOp}
    (testing : s.pc r = .testing op) : (s.work r op).Wakes := by
  cases op with
  | openBox => exact wakes.unchanged running testing (by simp) (fun _ holds => holds.opened)
  | close => exact wakes.unchanged running testing (by simp) (fun _ holds => holds.closed)
  | stat => exact wakes.unchanged running testing (by simp) (fun _ holds => holds)
  | send m => exact wakes.sending running testing
  | recv => exact wakes.receiving running testing

theorem Wakes.waitSpace (wakes : s.Wakes) (running : s.monitor.places.ring = r :: rest)
    {content : Message} {m : Monitor MboxCond τ} (failing : s.pc r = .failing (.send content))
    (sound : m.Sound) (done : s.monitor.wait r .freedSpace = some m) :
    MboxSystem.Wakes ⟨m,s.box,update s.pc r (.waiting (.send content))⟩ := by
  obtain ⟨holds,joined,others⟩ := Monitor.wait_frame running done
  have arrived : m.places.waiting (some .arrivedData) = s.queue .arrivedData := others _ (by simp)
  refine wakes.changed rfl sound wakes.holds (by rw [holds,update_self]; rfl)
    (fun u other => by rw [holds,update_of_ne other]) ?_ (by simp) (.inl rfl) ?_
    (wakes.receivers_kept rfl (wakes.stays running arrived)) ?_
  · intro sent sends
    apply wakes.proper r sent
    rw [failing]
    simpa [Sends] using sends
  · intro u member
    by_cases same : u = r
    · exact ⟨content,by simp [same],.inl ((wakes.failed r).2 content failing)⟩
    · have before : u ∈ s.queue .freedSpace := by
        simpa [queue,joined,same] using member
      obtain ⟨sent,waiting,why⟩ := wakes.senders u before
      refine ⟨sent,(update_of_ne same ..).trans waiting,why.imp_right ?_⟩
      rintro ⟨v,announcing⟩
      have other : v ≠ r := by
        intro is
        simp [is,failing] at announcing
      exact ⟨v,(update_of_ne other ..).trans announcing⟩
  · exact wakes.counted_kept rfl arrived rfl (woken_kept rfl arrived (by simp [failing]))
      (by simp [Owes,failing])

theorem Wakes.waitData (wakes : s.Wakes) (running : s.monitor.places.ring = r :: rest)
    {m : Monitor MboxCond τ} (failing : s.pc r = .failing .recv)
    (sound : m.Sound) (done : s.monitor.wait r .arrivedData = some m) :
    MboxSystem.Wakes ⟨m,s.box,update s.pc r (.waiting .recv)⟩ := by
  obtain ⟨holds,joined,others⟩ := Monitor.wait_frame running done
  have freed : m.places.waiting (some .freedSpace) = s.queue .freedSpace := others _ (by simp)
  have none : s.box.messages = 0 := (wakes.failed r).1 failing
  refine wakes.changed rfl sound wakes.holds (by rw [holds,update_self]; rfl)
    (fun u other => by rw [holds,update_of_ne other]) (by simp [Sends]) (by simp) (.inl rfl)
    (wakes.senders_kept rfl (wakes.stays running freed) (fun _ small => .inl small)
      (by simp [failing])) ?_ (fun _ => .inl (by simp [none]))
  intro u member
  by_cases same : u = r
  · simp [same]
  · have before : u ∈ s.queue .arrivedData := by
      simpa [queue,joined,same] using member
    exact (update_of_ne same ..).trans (wakes.receivers u before)

theorem Wakes.signal (wakes : s.Wakes) (running : s.monitor.places.ring = r :: rest)
    {content : Message} (announcing : s.pc r = .announcing (.send content))
    (sound : (s.monitor.signal .arrivedData).Sound) :
    MboxSystem.Wakes ⟨s.monitor.signal .arrivedData,s.box,update s.pc r .releasing⟩ := by
  obtain ⟨holds,fewer,others⟩ := Monitor.signal_frame (c := MboxCond.arrivedData) running
  have freed : (s.monitor.signal .arrivedData).places.waiting (some .freedSpace) =
    s.queue .freedSpace := others _ (by simp)
  have holder : s.monitor.holds r = true := by
    rw [wakes.inside,announcing]
    rfl
  have sleeper : ∀ u ∈ s.queue .arrivedData, u ≠ r :=
    fun u member same => wakes.awake running _ (same ▸ member)
  refine wakes.changed rfl sound wakes.holds (by rw [holds,holder]; rfl) (fun _ _ => by rw [holds])
    (by simp [Sends]) (by simp) (.inl rfl)
    (wakes.senders_kept rfl (wakes.stays running freed) (fun _ small => .inl small)
      (by simp [announcing])) (wakes.receivers_kept rfl ?_) ?_
  · intro u member
    have before : u ∈ s.queue .arrivedData := mem_of_mem_tail (fewer ▸ member)
    exact ⟨sleeper u before,before⟩
  · intro filled
    dsimp only [queue] at filled
    rw [fewer] at filled
    cases first : s.queue .arrivedData with
    | nil => exact absurd (congrArg tail first) filled
    | cons u more =>
      have member : u ∈ s.queue .arrivedData := by simp [first]
      have other : u ≠ r := sleeper u member
      have absent : u ∉ s.woken := by simp [woken,member]
      have gone : u ∉ more := by
        have nodup := wakes.sound.valid.queue (some .arrivedData)
        rw [show s.monitor.places.waiting (some .arrivedData) = u :: more from first] at nodup
        exact (nodup_cons.mp nodup).1
      have later : (s.monitor.signal .arrivedData).places.waiting (some .arrivedData) = more :=
        fewer.trans (congrArg tail first)
      have larger : insert u s.woken ⊆
          woken ⟨s.monitor.signal .arrivedData,s.box,update s.pc r .releasing⟩ := by
        intro v joined
        simp only [woken,queue,later,Finset.mem_filter,Finset.mem_univ,true_and]
        rcases Finset.mem_insert.mp joined with rfl | before
        · exact ⟨(update_of_ne other ..).trans (wakes.receivers v member),gone⟩
        · obtain ⟨waiting,outside⟩ := (Finset.mem_filter.mp before).2
          have notR : v ≠ r := by
            intro same
            simp [same,announcing] at waiting
          exact ⟨(update_of_ne notR ..).trans waiting,fun still => outside (by simp [first,still])⟩
      have count := Finset.card_le_card larger
      rw [Finset.card_insert_of_notMem absent] at count
      have bound := wakes.counted (ne_nil_of_mem member)
      dsimp only
      omega

theorem Wakes.broadcast (wakes : s.Wakes) (running : s.monitor.places.ring = r :: rest)
    (announcing : s.pc r = .announcing .recv) (sound : (s.monitor.broadcast .freedSpace).Sound) :
    MboxSystem.Wakes ⟨s.monitor.broadcast .freedSpace,s.box,update s.pc r .releasing⟩ := by
  obtain ⟨holds,empty,others⟩ := Monitor.broadcast_frame (c := MboxCond.freedSpace) running
  have arrived : (s.monitor.broadcast .freedSpace).places.waiting (some .arrivedData) =
    s.queue .arrivedData := others _ (by simp)
  have holder : s.monitor.holds r = true := by
    rw [wakes.inside,announcing]
    rfl
  exact wakes.changed rfl sound wakes.holds (by rw [holds,holder]; rfl) (fun _ _ => by rw [holds])
    (by simp [Sends]) (by simp) (.inl rfl) (by simp [queue,empty])
    (wakes.receivers_kept rfl (wakes.stays running arrived))
    (wakes.counted_kept rfl arrived rfl (woken_kept rfl arrived (by simp [announcing]))
      (by simp [Owes,announcing]))

theorem Wakes.rescheduled (wakes : s.Wakes) {m : Monitor MboxCond τ} (sound : m.Sound)
    (holds : m.holds = s.monitor.holds) (waiting : m.places.waiting = s.monitor.places.waiting) :
    MboxSystem.Wakes ⟨m,s.box,s.pc⟩ := by
  have same : ∀ c, queue ⟨m,s.box,s.pc⟩ c = s.queue c := fun c => congrFun waiting (some c)
  refine ⟨sound,wakes.holds,fun u => ?_,wakes.proper,wakes.failed,?_,?_,?_⟩
  · exact (congrFun holds u).trans (wakes.inside u)
  · rw [same]
    exact wakes.senders
  · rw [same]
    exact wakes.receivers
  · simp only [woken,same]
    exact wakes.counted

theorem step_wakes (wakes : s.Wakes) (step : s.Step t) : t.Wakes := by
  obtain ⟨r,head,does⟩ := step
  obtain ⟨rest,running⟩ := head?_eq_some_iff.mp head
  have sound : ∀ op m, s.monitor.Allowed r op → s.monitor.effect r op = some m → m.Sound :=
    fun op m allowed done => Monitor.step_sound wakes.sound ⟨r,op,head,allowed,done⟩
  cases does with
  | call op idle permitted allowed done =>
    refine wakes.entering running (by rw [idle]; rfl) (.inl rfl) (by simp [idle]) ?_
      (sound _ _ allowed done) done
    rintro content rfl
    exact permitted
  | relock locking allowed done =>
    refine wakes.entering running (by rw [locking]; rfl) (.inl rfl) (by simp [locking]) ?_
      (sound _ _ allowed done) done
    rintro content rfl
    exact wakes.proper r content (.inl locking)
  | rewait waiting allowed done =>
    refine wakes.entering running (by rw [waiting]; rfl) (.inr rfl) (by rw [waiting]) ?_
      (sound _ _ allowed done) done
    rintro content rfl
    exact wakes.proper r content (.inr (.inr (.inr waiting)))
  | work testing => exact wakes.work running testing
  | waitSpace failing allowed done => exact wakes.waitSpace running failing (sound _ _ allowed done) done
  | waitData failing allowed done => exact wakes.waitData running failing (sound _ _ allowed done) done
  | signal announcing allowed done =>
    obtain rfl := Option.some.inj done
    exact wakes.signal running announcing (sound _ _ allowed done)
  | broadcast announcing allowed done =>
    obtain rfl := Option.some.inj done
    exact wakes.broadcast running announcing (sound _ _ allowed done)
  | release releasing allowed done =>
    obtain rfl := Option.some.inj done
    obtain ⟨holds,queues⟩ := Monitor.release_frame running
    exact wakes.moved running rfl (sound _ _ allowed done) rfl queues (by rw [holds,update_self]; rfl)
      (fun u other => by rw [holds,update_of_ne other]) (by simp [Sends]) (by simp)
      (by simp [releasing]) (by simp [Owes,releasing]) (by simp [releasing])
  | switch allowed done =>
    obtain rfl := Option.some.inj done
    exact wakes.rescheduled (sound _ _ allowed done) rfl rfl
  | create idle allowed done =>
    obtain rfl := Option.some.inj done
    exact wakes.rescheduled (sound _ _ allowed done) rfl rfl
  | exit idle allowed done =>
    obtain rfl := Option.some.inj done
    exact wakes.rescheduled (sound _ _ allowed done) rfl rfl

/-- In every run, whenever nobody holds the lock, each thread in the queue of `freed_space`
sends a message larger than the free space, and where threads are in the queue of
`arrived_data`, at least as many receivers as there are messages have been woken from it
and have yet to look at the count again. -/
theorem no_wakeup_lost_along_runs (s : MboxSystem τ) (reached : Reach Initial Step s)
    (free : ∀ t, s.monitor.holds t = false) :
    (∀ t ∈ s.queue .freedSpace, ∃ m, s.pc t = .waiting (.send m) ∧ s.box.spaceAvailable < m.size) ∧
    (s.queue .arrivedData ≠ [] → s.box.messages ≤ s.woken.card) := by
  have wakes : s.Wakes :=
    reached.invariant Wakes (fun _ initial => initial_wakes initial)
      (fun _ _ wakes step => step_wakes wakes step)
  exact wakes.settled (fun u => (wakes.inside u).symm.trans (free u))

end Invariant

def idleThree : MboxSystem (Fin 3) :=
  ⟨.three MboxCond,⟨0,0,0,0,fun _ => 0⟩,fun _ => .idle⟩

/-- Two receivers wait and one message comes; one receiver is on its way to it while the
other one sleeps. -/
theorem receiver_woken_for_message : ∃ s : MboxSystem (Fin 3), Reach Initial Step s ∧
    s.box.messages = 1 ∧ s.queue .arrivedData = [1] ∧ s.box.messages ≤ s.woken.card := by
  have start : Reach Initial Step idleThree :=
    .start ⟨⟨Monitor.three_valid _,fun _ => rfl,rfl,fun _ => ⟨rfl,rfl⟩⟩,⟨rfl,rfl,rfl,rfl,rfl,rfl⟩,fun _ => rfl⟩
  have zeroIn := start.advance ⟨0,rfl,.call .recv rfl trivial rfl rfl⟩
  have zeroFails := zeroIn.advance ⟨0,rfl,.work rfl⟩
  have zeroWaits := zeroFails.advance ⟨0,rfl,.waitData rfl ⟨rfl,rfl⟩ rfl⟩
  have oneIn := zeroWaits.advance ⟨1,rfl,.call .recv rfl trivial rfl rfl⟩
  have oneFails := oneIn.advance ⟨1,rfl,.work rfl⟩
  have oneWaits := oneFails.advance ⟨1,rfl,.waitData rfl ⟨rfl,rfl⟩ rfl⟩
  have twoIn := oneWaits.advance ⟨2,rfl,.call (.send ⟨1,[9]⟩) rfl ⟨rfl,by decide⟩ rfl rfl⟩
  have twoSends := twoIn.advance ⟨2,rfl,.work rfl⟩
  have signalled := twoSends.advance ⟨2,rfl,.signal rfl rfl rfl⟩
  have released := signalled.advance ⟨2,rfl,.release rfl ⟨rfl,rfl⟩ rfl⟩
  exact ⟨_,released,rfl,rfl,(no_wakeup_lost_along_runs _ released (by decide)).2 (by decide)⟩

end MboxSystem

end RudimentaryKernel
