import RudimentaryKernel.MaskedKernel
import RudimentaryKernel.Reaper

/-! Exited threads under preemption. A kernel at rest has every thread in a place of its own and
no control block in use that a `thread_create` is still filling in; the three writes that link
a new thread are the only acts that leave it otherwise. As long as nothing switches between
them, exited threads do not wait and the scheduler finds the heap's lock free when it has a
zombie to reap, no thread marked as `EXITED` comes back. -/
namespace RudimentaryKernel

open Function List TaskRun

section Acts

variable {κ : Type} {acts : List (Act κ)}

/-- The control block that a `thread_create` is filling in. -/
def Creation.under (c : Creation) : List Nat := if c.tcb = 0 then [] else [c.tcb]

def Mapping.under : Mapping → List Nat
  | .stack c => c.under
  | .page _ => []

def HeapUse.under : HeapUse → List Nat
  | .stack c | .freeKstack c => c.under
  | _ => []

def Work.under : Work → List Nat
  | .scan c _ | .mark c _ | .scanDirectory c _ | .takeDirectory c _ | .copyDirectory c _ | .pushCallExit c
  | .pushCallExitAgain c => c.under
  | .scanFrame g _ | .takeFrame g _ | .testEntry g | .scanTable g _ | .takeTable g _ | .clearTable g _
  | .linkTable g _ | .storeEntry g => g.under
  | _ => []

def Act.under : Act κ → List Nat
  | .enterHeap use | .useHeap use => use.under
  | .work w => w.under
  | .writeId c | .clearTcb c | .setDirectory c | .setStack c | .setFrame c | .linkNew c | .linkLast c
  | .linkFirst c => c.under
  | _ => []

def under (acts : List (Act κ)) : List Nat := acts.flatMap Act.under

def Act.Links : Act κ → Prop
  | .linkLast _ | .linkFirst _ => True
  | _ => False

instance : ∀ act : Act κ, Decidable act.Links
  | .linkLast _ | .linkFirst _ => isTrue trivial
  | .acquire _ | .release _ | .enterHeap _ | .useHeap _ | .wait _ | .signal _ | .directSchedulerEntry | .spin
  | .r3Exit | .r0ExitNoZombie | .threadReapDelayed _ | .work _ | .writeId _ | .clearTcb _ | .setDirectory _
  | .setStack _ | .setFrame _ | .linkNew _ => isFalse id

def Act.Whole (act : Act κ) : Prop := ¬act.Links ∧ act ≠ .acquire .kpool

def Holding : List (Act κ) → Prop
  | .useHeap _ :: _ | .release .kpool :: _ => True
  | _ => False

instance : ∀ acts : List (Act κ), Decidable (Holding acts)
  | .useHeap _ :: _ | .release .kpool :: _ => isTrue trivial
  | [] | .acquire _ :: _ | .release .bitmap :: _ | .release (.record _) :: _ | .release (.other _) :: _
  | .enterHeap _ :: _ | .wait _ :: _ | .signal _ :: _ | .directSchedulerEntry :: _ | .spin :: _ | .r3Exit :: _
  | .r0ExitNoZombie :: _ | .threadReapDelayed _ :: _ | .work _ :: _ | .writeId _ :: _ | .clearTcb _ :: _
  | .setDirectory _ :: _ | .setStack _ :: _ | .setFrame _ :: _ | .linkNew _ :: _ | .linkLast _ :: _
  | .linkFirst _ :: _ => isFalse id

@[simp] theorem under_nil : under ([] : List (Act κ)) = [] := rfl

@[simp] theorem under_cons (act : Act κ) (rest : List (Act κ)) : under (act :: rest) = act.under ++ under rest := rfl

@[simp] theorem under_append (one two : List (Act κ)) : under (one ++ two) = under one ++ under two :=
  flatMap_append

@[simp] theorem Creation.under_real (c : Creation) : 0 ∉ c.under := by
  unfold Creation.under
  split
  · simp
  · simpa [eq_comm] using ‹_›

theorem Act.under_real (act : Act κ) : 0 ∉ act.under := by
  have mapping (g : Mapping) : 0 ∉ g.under := by cases g <;> simp [Mapping.under]
  cases act with
  | enterHeap use | useHeap use => cases use <;> simp [Act.under,HeapUse.under]
  | work w => cases w <;> simp [Act.under,Work.under,mapping]
  | _ => simp [Act.under]

theorem under_real : 0 ∉ under acts := by
  intro member
  obtain ⟨act,_,inside⟩ := mem_flatMap.mp member
  exact act.under_real inside

@[simp] theorem refused_under (c : Creation) : under (c.refused : List (Act κ)) = [] := by
  unfold Creation.refused
  split <;> rfl

@[simp] theorem next_under (l : Loading) : under (l.next : List (Act κ)) = [] := by
  unfold Loading.next
  split <;> rfl

@[simp] theorem returned_under (c : Creation) : under (c.returned : List (Act κ)) = [] := by
  unfold Creation.returned
  split
  · rfl
  · exact next_under _

@[simp] theorem mapped_under (g : Mapping) : under (g.mapped : List (Act κ)) = g.under := by
  cases g <;> simp [Mapping.mapped,Act.under,Work.under,Mapping.under]

theorem refused_whole (c : Creation) : ∀ act ∈ (c.refused : List (Act κ)), act.Whole := by
  unfold Creation.refused
  split <;> simp [Act.Whole,Act.Links]

theorem next_whole (l : Loading) : ∀ act ∈ (l.next : List (Act κ)), act.Whole := by
  unfold Loading.next
  split <;> simp [Act.Whole,Act.Links]

theorem returned_whole (c : Creation) : ∀ act ∈ (c.returned : List (Act κ)), act.Whole := by
  unfold Creation.returned
  split
  · simp
  · exact next_whole _

theorem mapped_whole (g : Mapping) : ∀ act ∈ (g.mapped : List (Act κ)), act.Whole := by
  cases g <;> simp [Mapping.mapped,Act.Whole,Act.Links]

variable {L : Layout} {r : Resources L}

theorem run_under (input : Input) (w : Work) : under (w.run (κ := κ) input r).2 <+ w.under := by
  cases w with
  | takeFrame g i => cases g <;> simp [Work.run,Act.under,Work.under,Mapping.under,Mapping.withFrame,Creation.under]
  | _ =>
    simp only [Work.run]
    repeat' split
    all_goals simp [Act.under,Work.under,Mapping.under,HeapUse.under,Creation.under]

theorem run_whole (input : Input) (w : Work) : ∀ act ∈ (w.run (κ := κ) input r).2, act.Whole := by
  cases w with
  | linkTable | clearTable | takeTable => simp [Work.run,Act.Whole,Act.Links]
  | scanTable g i =>
    simp only [Work.run]
    repeat' split
    · simp [Act.Whole,Act.Links]
    · simp [Act.Whole,Act.Links]
    · exact mapped_whole g
  | storeEntry g => exact mapped_whole g
  | readSector l s =>
    simp only [Work.run]
    repeat' split
    · simp
    · simp [Act.Whole,Act.Links]
    · exact next_whole _
  | _ =>
    simp only [Work.run]
    repeat' split
    all_goals simp [Act.Whole,Act.Links]

end Acts

/-- What the threads have to do: no thread is between the writes of a link, and each control
block is filled in by one of them. -/
structure Built {κ : Type} (code : Nat → List (Act κ)) (fresh : Nat → Prop) : Prop where
  whole : ∀ v, ∀ act ∈ code v, act.Whole
  fresh : ∀ v, ∀ x ∈ under (code v), fresh x
  once : ∀ v, (under (code v)).Nodup
  apart : ∀ v w, v ≠ w → Disjoint (under (code v)) (under (code w))

section Built

variable {κ : Type} {code : Nat → List (Act κ)} {fresh after : Nat → Prop} {acts : List (Act κ)} {c : Nat}

theorem Built.mono (built : Built code fresh) (weaker : ∀ v, ∀ x ∈ under (code v), fresh x → after x) :
    Built code after :=
  ⟨built.whole,fun v x member => weaker v x member (built.fresh v x member),built.once,built.apart⟩

theorem Built.whole_update (built : Built code fresh) (whole : ∀ act ∈ acts, act.Whole) :
    ∀ v, ∀ act ∈ update code c acts v, act.Whole :=
  (forall_update_iff code (fun _ acts => ∀ act ∈ acts, act.Whole)).mpr ⟨whole,fun v _ => built.whole v⟩

theorem Built.onward (built : Built code fresh) (c : Nat) (acts : List (Act κ)) (whole : ∀ act ∈ acts, act.Whole)
    (fewer : under acts <+ under (code c)) : Built (update code c acts) fresh := by
  have less : ∀ v, under (update code c acts v) <+ under (code v) :=
    (forall_update_iff code (fun v acts => under acts <+ under (code v))).mpr
      ⟨fewer,fun v _ => Sublist.refl _⟩
  refine ⟨built.whole_update whole,?_,?_,?_⟩
  · exact fun v x member => built.fresh v x ((less v).mem member)
  · exact fun v => (built.once v).sublist (less v)
  · exact fun v w other x one two => built.apart v w other ((less v).mem one) ((less w).mem two)

theorem Built.begin (built : Built code fresh) (whole : ∀ act ∈ acts, act.Whole) {x : Nat}
    (only : under acts <+ x :: under (code c)) (outside : ∀ v, x ∉ under (code v)) (new : fresh x) :
    Built (update code c acts) fresh := by
  have less : ∀ v, ∀ y ∈ under (update code c acts v), y ∈ under (code v) ∨ v = c ∧ y = x := by
    rw [forall_update_iff code (fun v acts => ∀ y ∈ under acts, y ∈ under (code v) ∨ v = c ∧ y = x)]
    refine ⟨fun y member => ?_,fun v _ y member => .inl member⟩
    exact (mem_cons.mp (only.mem member)).symm.imp id (fun isNew => ⟨rfl,isNew⟩)
  refine ⟨built.whole_update whole,?_,?_,?_⟩
  · intro v y member
    rcases less v y member with old | ⟨_,rfl⟩
    · exact built.fresh v y old
    · exact new
  · rw [forall_update_iff code (fun _ acts => (under acts).Nodup)]
    exact ⟨(nodup_cons.mpr ⟨outside c,built.once c⟩).sublist only,fun v _ => built.once v⟩
  · intro v w other y one two
    rcases less v y one with here | ⟨mine,isNew⟩
    · rcases less w y two with there | ⟨_,isNew⟩
      · exact built.apart v w other here there
      · exact outside v (isNew ▸ here)
    · rcases less w y two with there | ⟨yours,_⟩
      · exact outside w (isNew ▸ there)
      · exact other (mine.trans yours.symm)

end Built

namespace KernelRun

open Tasks

variable {L : Layout} {κ : Type} {m t u : KernelRun L κ} {p : Places (Waitable κ) Nat}

def Fresh (m : KernelRun L κ) (x : Nat) : Prop :=
  x ∈ m.blocks ∧ x ∉ m.threads.alive ∧ x ≠ m.threads.tasks.zombie ∧ x ∉ m.exited

/-- A state in which the scheduler can be called. -/
structure Stable (m : KernelRun L κ) : Prop where
  seated : ∃ p, m.threads.Seated p
  gone : Gone m.exited m.threads
  real : 0 ∉ m.threads.alive
  marked : 0 ∉ m.exited
  held : ∀ v ∈ m.threads.alive, v ∈ m.blocks
  zombie : m.threads.tasks.zombie ≠ 0 →
    m.threads.tasks.zombie ∈ m.blocks ∧ m.threads.tasks.zombie ∉ m.threads.alive
  built : Built m.code m.Fresh

/-- A state between two acts, outside of the linking of a new thread. -/
structure Resting (m : KernelRun L κ) : Prop extends Stable m where
  awake : m.threads.tasks.state m.running = .ready ∨ m.threads.tasks.state m.running = .exited

/-- An act without a switch. The lock of the heap is taken by the running thread or was taken by
another. -/
structure Quiet (m t : KernelRun L κ) : Prop where
  running : t.running = m.running
  marks : ∀ v ∈ m.blocks, v ∈ t.blocks ∧ (v ∈ m.exited → v ∈ t.exited)
  exits : t.exits = m.exits
  zombie : t.threads.tasks.zombie = m.threads.tasks.zombie
  freed : t.threads.tasks.freed = m.threads.tasks.freed
  pending : t.threads.tasks.pending = m.threads.tasks.pending
  others : ∀ v ∈ m.threads.alive, v ∈ t.threads.alive ∧ (v ≠ m.running → t.code v = m.code v)
  new : ∀ v ∈ t.threads.alive, v ∈ m.threads.alive ∨ v ≠ m.running ∧ t.code v = []
  lock : t.status .kpool = .locked →
    Holding (t.code m.running) ∨ m.status .kpool = .locked ∧ ¬Holding (m.code m.running)

theorem Quiet.trans (one : Quiet m t) (two : Quiet t u) : Quiet m u where
  running := two.running.trans one.running
  marks := by
    intro v block
    obtain ⟨still,marked⟩ := one.marks v block
    exact ⟨(two.marks v still).1,(two.marks v still).2 ∘ marked⟩
  exits := two.exits.trans one.exits
  zombie := two.zombie.trans one.zombie
  freed := two.freed.trans one.freed
  pending := two.pending.trans one.pending
  others := by
    intro v member
    obtain ⟨there,same⟩ := one.others v member
    obtain ⟨still,again⟩ := two.others v there
    exact ⟨still,fun other => (again (by rwa [one.running])).trans (same other)⟩
  new := by
    intro v member
    rcases two.new v member with before | ⟨other,empty⟩
    · refine (one.new v before).imp_right (fun ⟨other,empty⟩ => ⟨other,?_⟩)
      exact ((two.others v before).2 (by rwa [one.running])).trans empty
    · exact .inr ⟨by rwa [one.running] at other,empty⟩
  lock := by
    intro locked
    rcases two.lock locked with holds | ⟨before,idle⟩
    · exact .inl (one.running ▸ holds)
    · rw [one.running] at idle
      exact .inr ((one.lock before).resolve_left idle)

theorem Quiet.withTasks {tasks : Tasks (Waitable κ)} (running : tasks.currentRunning = m.running)
    (zombie : tasks.zombie = m.threads.tasks.zombie) (freed : tasks.freed = m.threads.tasks.freed)
    (pending : tasks.pending = m.threads.tasks.pending) : Quiet m (m.withTasks tasks) where
  running := running
  marks := fun _ block => ⟨block,id⟩
  exits := rfl
  zombie := zombie
  freed := freed
  pending := pending
  others := fun _ member => ⟨member,fun _ => rfl⟩
  new := fun _ member => .inl member
  lock := fun locked => (Classical.em (Holding (m.code m.running))).imp id (fun idle => ⟨locked,idle⟩)

theorem Quiet.refl (m : KernelRun L κ) : Quiet m m := .withTasks rfl rfl rfl rfl

theorem Quiet.acts {acts : List (Act κ)} (threads : t.threads = m.threads)
    (marks : ∀ v ∈ m.blocks, v ∈ t.blocks ∧ (v ∈ m.exited → v ∈ t.exited)) (exits : t.exits = m.exits)
    (code : t.code = update m.code m.running acts)
    (lock : t.status .kpool = .locked → Holding acts ∨ m.status .kpool = .locked ∧ ¬Holding (m.code m.running)) :
    Quiet m t where
  running := by rw [KernelRun.running,threads]; rfl
  marks := marks
  exits := exits
  zombie := by rw [threads]
  freed := by rw [threads]
  pending := by rw [threads]
  others := by
    intro v member
    rw [threads,code]
    exact ⟨member,fun other => update_of_ne other ..⟩
  new := by
    intro v member
    rw [threads] at member
    exact .inl member
  lock := by
    intro locked
    rw [code,update_self]
    exact lock locked

theorem Quiet.onward {tasks : Tasks (Waitable κ)} {acts : List (Act κ)} (running : tasks.currentRunning = m.running)
    (zombie : tasks.zombie = m.threads.tasks.zombie) (freed : tasks.freed = m.threads.tasks.freed)
    (pending : tasks.pending = m.threads.tasks.pending) (idle : ¬Holding (m.code m.running)) :
    Quiet m ((m.withTasks tasks).become acts) := by
  refine (Quiet.withTasks running zombie freed pending).trans (.acts rfl (fun _ block => ⟨block,id⟩) rfl rfl
    (fun locked => .inr ⟨locked,?_⟩))
  change ¬Holding (m.code tasks.currentRunning)
  rwa [running]

theorem Resting.withTasks (resting : m.Resting) {tasks : Tasks (Waitable κ)}
    (seated : ∃ p, Seated ⟨tasks,m.threads.alive⟩ p) (gone : Gone m.exited ⟨tasks,m.threads.alive⟩)
    (running : tasks.currentRunning = m.running) (zombie : tasks.zombie = m.threads.tasks.zombie)
    (state : tasks.state m.running = m.threads.tasks.state m.running) : (m.withTasks tasks).Resting where
  seated := seated
  gone := gone
  real := resting.real
  marked := resting.marked
  held := resting.held
  zombie := by
    change tasks.zombie ≠ 0 → tasks.zombie ∈ m.blocks ∧ tasks.zombie ∉ m.threads.alive
    rw [zombie]
    exact resting.zombie
  built := by
    refine resting.built.mono (fun v x _ ⟨block,outside,other,unmarked⟩ => ⟨block,outside,?_,unmarked⟩)
    change x ≠ tasks.zombie
    rwa [zombie]
  awake := by
    change tasks.state tasks.currentRunning = _ ∨ tasks.state tasks.currentRunning = _
    rw [running,state]
    exact resting.awake

theorem Resting.acts (resting : m.Resting) {acts : List (Act κ)} (threads : t.threads = m.threads)
    (blocks : t.blocks = m.blocks) (exited : t.exited = m.exited)
    (code : t.code = update m.code m.running acts) (whole : ∀ act ∈ acts, act.Whole)
    (fewer : under acts <+ under (m.code m.running)) : t.Resting where
  seated := by rw [threads]; exact resting.seated
  gone := by rw [threads,exited]; exact resting.gone
  real := by rw [threads]; exact resting.real
  marked := by rw [exited]; exact resting.marked
  held := by rw [threads,blocks]; exact resting.held
  zombie := by rw [threads,blocks]; exact resting.zombie
  built := by
    rw [code]
    refine (resting.built.onward _ _ whole fewer).mono (fun v x _ fresh => ?_)
    unfold Fresh
    rw [threads,blocks,exited]
    exact fresh
  awake := by
    rw [KernelRun.running,threads]
    exact resting.awake

theorem Resting.mark (resting : m.Resting) :
    ({ m with exited := m.running :: m.exited }.withTasks m.threads.tasks.markExited).Resting := by
  obtain ⟨p,seated⟩ := resting.seated
  refine { resting with seated := ⟨p,seated.mark (by decide)⟩, gone := ?_, marked := ?_, built := ?_, awake := ?_ }
  · exact resting.gone.mark (by decide)
  · change 0 ∉ m.running :: m.exited
    exact fun member => (mem_cons.mp member).elim seated.real.symm resting.marked
  · refine resting.built.mono (fun v x _ ⟨block,outside,other,unmarked⟩ => ⟨block,outside,other,?_⟩)
    exact fun member => (mem_cons.mp member).elim (fun same => outside (same ▸ seated.running)) unmarked
  · exact .inr (update_self ..)

theorem Quiet.mark (m : KernelRun L κ) :
    Quiet m ({ m with exited := m.running :: m.exited }.withTasks m.threads.tasks.markExited) :=
  have quiet : Quiet m (m.withTasks m.threads.tasks.markExited) := .withTasks rfl rfl rfl rfl
  ⟨rfl,fun _ block => ⟨block,mem_cons_of_mem _⟩,rfl,rfl,rfl,rfl,quiet.others,quiet.new,quiet.lock⟩

theorem Resting.markNoZombie (resting : m.Resting) : (m.withTasks m.threads.tasks.markExitedNoZombie).Stable := by
  obtain ⟨p,seated⟩ := resting.seated
  exact { resting.toStable with
    seated := ⟨p,seated.mark (by decide)⟩
    gone := (resting.gone.mark (by decide)).mono (fun _ => mem_cons_of_mem _) }

theorem Stable.moved {leaving : Bool} (stable : m.Stable) (moved : Moved leaving m t) : t.Resting := by
  obtain ⟨p,seated⟩ := stable.seated
  have zombie : t.threads.tasks.zombie ≠ 0 → leaving = true ∧ t.threads.tasks.zombie = m.running := by
    intro pending
    have owed := moved.zombie
    cases leaving
    · exact absurd owed pending
    · exact ⟨rfl,owed⟩
  have still : ∀ v ∈ m.threads.alive, v ∈ t.blocks := by
    intro v member
    refine moved.blocks v (stable.held v member) ?_
    rintro rfl
    by_cases none : m.threads.tasks.zombie = 0
    · exact stable.real (none ▸ member)
    · exact (stable.zombie none).2 member
  exact {
    seated := moved.seated
    gone := by
      rw [moved.aside.exited]
      exact moved.gone
    real := fun member => stable.real (moved.alive 0 member)
    marked := by
      rw [moved.aside.exited]
      exact stable.marked
    held := fun v member => still v (moved.alive v member)
    zombie := by
      intro pending
      obtain ⟨leaves,same⟩ := zombie pending
      rw [same]
      exact ⟨still _ seated.running,moved.left leaves⟩
    built := by
      rw [moved.aside.code]
      refine stable.built.mono (fun v x member ⟨block,outside,other,unmarked⟩ => ?_)
      refine ⟨moved.blocks x block other,fun here => outside (moved.alive x here),?_,?_⟩
      · rintro rfl
        by_cases none : t.threads.tasks.zombie = 0
        · exact under_real (none ▸ member)
        · exact outside ((zombie none).2 ▸ seated.running)
      · rwa [moved.aside.exited]
    awake := .inl moved.ready }

theorem Resting.proceeds {act : Act κ} {rest : List (Act κ)} (resting : m.Resting) (acts : List (Act κ))
    (here : m.code m.running = act :: rest) (threads : t.threads = m.threads) (blocks : t.blocks = m.blocks)
    (exited : t.exited = m.exited) (exits : t.exits = m.exits)
    (code : t.code = update m.code m.running (acts ++ rest)) (whole : ∀ next ∈ acts, next.Whole)
    (fewer : under acts <+ act.under)
    (lock : t.status .kpool = .locked → Holding (acts ++ rest) ∨ m.status .kpool = .locked ∧ ¬Holding (act :: rest)) :
    t.Resting ∧ Quiet m t := by
  refine ⟨resting.acts threads blocks exited code ?_ ?_,.acts threads ?_ exits code (by rwa [here])⟩
  · intro next member
    rcases mem_append.mp member with new | old
    · exact whole next new
    · exact resting.built.whole m.running next (by rw [here]; exact mem_cons_of_mem _ old)
  · rw [here,under_append,under_cons]
    exact fewer.append_right _
  · rw [blocks,exited]
    exact fun _ block => ⟨block,id⟩

/-- A control block outside of all places is written. -/
structure Writes (s u : Tasks (Waitable κ)) (x : Nat) : Prop extends OnlyAt s u x where
  zombie : u.zombie = s.zombie
  freed : u.freed = s.freed
  stackBottom : ∀ v, v ≠ x → u.stackBottom v = s.stackBottom v

theorem Resting.writes (resting : m.Resting) {x : Nat} {tasks : Tasks (Waitable κ)}
    (writes : Writes m.threads.tasks tasks x) (outside : x ∉ m.threads.alive) (unmarked : x ∉ m.exited)
    (other : m.threads.tasks.zombie ≠ 0 → m.threads.tasks.zombie ≠ x) :
    (m.withTasks tasks).Resting ∧ Quiet m (m.withTasks tasks) := by
  obtain ⟨p,seated⟩ := resting.seated
  have away : m.running ≠ x := fun same => outside (same ▸ seated.running)
  refine ⟨resting.withTasks ⟨p,seated.elsewhere outside writes.toOnlyAt⟩ ?_ writes.running writes.zombie
    (writes.state _ away),.withTasks writes.running writes.zombie writes.freed ?_⟩
  · intro v member
    obtain ⟨ready,blocked,placed⟩ := resting.gone v member
    have notX : v ≠ x := fun same => unmarked (same ▸ member)
    change tasks.state v ≠ _ ∧ tasks.state v ≠ _ ∧ (v = tasks.currentRunning ∨ _)
    rw [writes.state v notX,writes.running]
    exact ⟨ready,blocked,placed⟩
  · unfold pending
    rw [writes.zombie]
    by_cases none : m.threads.tasks.zombie = 0
    · rw [if_pos none,if_pos none]
    · rw [if_neg none,if_neg none,writes.stackBottom _ (other none)]

theorem Resting.outside {act : Act κ} {rest : List (Act κ)} (resting : m.Resting) (c : Creation)
    (here : m.code m.running = act :: rest) (fills : act.under = c.under) :
    c.tcb ∉ m.threads.alive ∧ c.tcb ∉ m.exited ∧ (m.threads.tasks.zombie ≠ 0 → m.threads.tasks.zombie ≠ c.tcb) := by
  by_cases null : c.tcb = 0
  · rw [null]
    exact ⟨resting.real,resting.marked,id⟩
  · have member : c.tcb ∈ under (m.code m.running) := by
      rw [here,under_cons,fills]
      simp [Creation.under,null]
    obtain ⟨_,outside,other,unmarked⟩ := resting.built.fresh m.running _ member
    exact ⟨outside,unmarked,fun _ => other.symm⟩

theorem Resting.fills {c : Creation} {act : Act κ} {rest : List (Act κ)} {tasks : Tasks (Waitable κ)}
    (resting : m.Resting) (here : m.code m.running = act :: rest) (fills : act.under = c.under)
    (idle : ¬Holding (act :: rest)) (writes : Writes m.threads.tasks tasks c.tcb) (acts : List (Act κ))
    (whole : ∀ next ∈ acts, next.Whole) (fewer : under acts <+ c.under) :
    ((m.withTasks tasks).become (acts ++ rest)).Resting ∧ Quiet m ((m.withTasks tasks).become (acts ++ rest)) := by
  obtain ⟨outside,unmarked,other⟩ := resting.outside c here fills
  obtain ⟨rests,quiet⟩ := resting.writes writes outside unmarked other
  have same : (m.withTasks tasks).code (m.withTasks tasks).running = act :: rest := by
    rw [quiet.running]
    exact here
  obtain ⟨after,more⟩ := rests.proceeds (t := (m.withTasks tasks).become (acts ++ rest)) acts same rfl rfl rfl rfl rfl
    whole (by rw [fills]; exact fewer) (fun locked => .inr ⟨locked,idle⟩)
  exact ⟨after,quiet.trans more⟩

theorem Resting.begins {user : Bool} {request : Option Request} {rest : List (Act κ)} {grant : Nat}
    (resting : m.Resting) (here : m.code m.running = .useHeap (.tcb user request) :: rest)
    (permitted : grant = 0 ∨ grant ∉ m.blocks) :
    (m.useHeap grant rest (.tcb user request)).Resting ∧ Quiet m (m.useHeap grant rest (.tcb user request)) := by
  have more : ∀ v ∈ m.blocks, v ∈ granted grant m.blocks := by
    intro v member
    unfold granted
    split
    · exact member
    · exact mem_cons_of_mem _ member
  have less : ∀ v ∈ m.exited.filter (· ≠ grant), v ∈ m.exited := fun v member => mem_of_mem_filter member
  have kept : ∀ v ∈ m.blocks, v ∈ m.exited → v ∈ m.exited.filter (· ≠ grant) := by
    intro v block marked
    refine mem_filter.mpr ⟨marked,decide_eq_true (fun same => ?_)⟩
    rcases permitted with null | outside
    · exact resting.marked (null ▸ same ▸ marked)
    · exact outside (same ▸ block)
  have whole : ∀ act ∈ (Act.release .kpool :: .acquire .bitmap :: .work (.scan ⟨user,request,grant,0,0,0,0⟩ 0) :: rest),
      Act.Whole (κ := κ) act := by
    intro act member
    simp only [mem_cons] at member
    rcases member with rfl | rfl | rfl | old
    · simp [Act.Whole,Act.Links]
    · simp [Act.Whole,Act.Links]
    · simp [Act.Whole,Act.Links]
    · exact resting.built.whole m.running act (by rw [here]; exact mem_cons_of_mem _ old)
  have old : Built m.code (m.useHeap grant rest (.tcb user request)).Fresh :=
    resting.built.mono (fun v x _ ⟨block,outside,other,unmarked⟩ =>
      ⟨more x block,outside,other,fun member => unmarked (less x member)⟩)
  refine ⟨{ resting with
    gone := resting.gone.mono less
    marked := fun member => resting.marked (less 0 member)
    held := fun v member => more v (resting.held v member)
    zombie := fun pending => ⟨more _ (resting.zombie pending).1,(resting.zombie pending).2⟩
    built := ?_ },.acts rfl (fun v block => ⟨more v block,kept v block⟩) rfl rfl (fun _ => .inl trivial)⟩
  change Built (update m.code m.running _) _
  by_cases null : grant = 0
  · refine old.onward _ _ whole ?_
    simp [here,Act.under,Work.under,HeapUse.under,Creation.under,null]
  · have outside := permitted.resolve_left null
    refine old.begin (x := grant) whole ?_ ?_ ?_
    · simp [here,Act.under,Work.under,HeapUse.under,Creation.under,null]
    · exact fun v member => outside (resting.built.fresh v grant member).1
    · refine ⟨?_,fun member => outside (resting.held grant member),?_,by simp [useHeap,become]⟩
      · simp [useHeap,become,granted,null]
      · intro same
        exact outside (same ▸ (resting.zombie (fun none => null (same.trans none))).1)

def spliced (m : KernelRun L κ) (c : Creation) (rest : List (Act κ)) : KernelRun L κ :=
  { m with
    threads := ⟨m.threads.tasks.splice c.tcb,c.tcb :: m.threads.alive⟩
    code := update (update m.code c.tcb []) m.running (c.returned ++ rest)
    created := c.tcb :: m.created }

theorem splice_frame {s : Tasks (Waitable κ)} (real : s.currentRunning ≠ 0) (x : Nat) :
    (s.splice x).currentRunning = s.currentRunning ∧ (s.splice x).state = s.state ∧
    (s.splice x).zombie = s.zombie := by
  simp [splice,real]

theorem Resting.spliced {c : Creation} {rest : List (Act κ)} (resting : m.Resting)
    (here : m.code m.running = .linkNew c :: rest) (granted : c.tcb ≠ 0) : (m.spliced c rest).Resting := by
  obtain ⟨p,seated⟩ := resting.seated
  obtain ⟨outside,unmarked,other⟩ := resting.outside c here rfl
  obtain ⟨running,state,zombie⟩ := splice_frame seated.real c.tcb
  have mine : under (m.code m.running) = c.tcb :: under rest := by
    simp [here,Act.under,Creation.under,granted]
  have fresh := resting.built.fresh m.running c.tcb (by simp [mine])
  have whole : ∀ act ∈ c.returned ++ rest, act.Whole := by
    intro act member
    rcases mem_append.mp member with new | old
    · exact returned_whole c act new
    · exact resting.built.whole m.running act (by rw [here]; exact mem_cons_of_mem _ old)
  have away : m.running ≠ c.tcb := fun same => outside (same ▸ seated.running)
  have built := (resting.built.onward c.tcb [] (by simp) (by simp)).onward
    m.running (c.returned ++ rest) whole (by simp [update_of_ne away,mine])
  exact {
    seated := ⟨_,seated.splice outside granted⟩
    gone := by
      intro v member
      obtain ⟨ready,blocked,placed⟩ := resting.gone v member
      change (m.threads.tasks.splice c.tcb).state v ≠ _ ∧ (m.threads.tasks.splice c.tcb).state v ≠ _ ∧
        (v = (m.threads.tasks.splice c.tcb).currentRunning ∨ v ∉ c.tcb :: m.threads.alive)
      rw [state,running]
      refine ⟨ready,blocked,placed.imp_right (fun absent inside => ?_)⟩
      rcases mem_cons.mp inside with same | old
      · exact unmarked (same ▸ member)
      · exact absent old
    real := fun member => (mem_cons.mp member).elim granted.symm resting.real
    marked := resting.marked
    held := by
      intro v member
      rcases mem_cons.mp member with rfl | old
      · exact fresh.1
      · exact resting.held v old
    zombie := by
      change (m.threads.tasks.splice c.tcb).zombie ≠ 0 → (m.threads.tasks.splice c.tcb).zombie ∈ m.blocks ∧
        (m.threads.tasks.splice c.tcb).zombie ∉ c.tcb :: m.threads.alive
      rw [zombie]
      intro pending
      refine ⟨(resting.zombie pending).1,fun member => ?_⟩
      exact (mem_cons.mp member).elim (other pending) (resting.zombie pending).2
    built := by
      refine built.mono (fun v x member ⟨block,absent,notZombie,notMarked⟩ => ⟨block,?_,?_,notMarked⟩)
      · -- the control block is not filled in by anybody any more
        intro inside
        rcases mem_cons.mp inside with rfl | old
        · by_cases same : v = m.running
          · subst v
            have once := resting.built.once m.running
            rw [mine,nodup_cons] at once
            rw [update_self,under_append,returned_under] at member
            exact once.1 (by simpa using member)
          · rw [update_of_ne same] at member
            by_cases isNew : v = c.tcb
            · simp [isNew] at member
            · rw [update_of_ne isNew] at member
              exact resting.built.apart v m.running same member (by simp [mine])
        · exact absent old
      · change x ≠ (m.threads.tasks.splice c.tcb).zombie
        rwa [zombie]
    awake := by
      change (m.threads.tasks.splice c.tcb).state (m.threads.tasks.splice c.tcb).currentRunning = _ ∨
        (m.threads.tasks.splice c.tcb).state (m.threads.tasks.splice c.tcb).currentRunning = _
      rw [running,state]
      exact resting.awake }

theorem Quiet.born {c : Creation} {acts : List (Act κ)} (alive : t.threads.alive = c.tcb :: m.threads.alive)
    (code : t.code = update (update m.code c.tcb []) m.running acts) (status : t.status = m.status)
    (running : t.running = m.running) (exits : t.exits = m.exits)
    (zombie : t.threads.tasks.zombie = m.threads.tasks.zombie)
    (freed : t.threads.tasks.freed = m.threads.tasks.freed)
    (bottom : t.threads.tasks.stackBottom = m.threads.tasks.stackBottom)
    (blocks : t.blocks = m.blocks) (exited : t.exited = m.exited)
    (outside : c.tcb ∉ m.threads.alive) (inside : m.running ∈ m.threads.alive)
    (idle : ¬Holding (m.code m.running)) : Quiet m t where
  running := running
  marks := by
    rw [blocks,exited]
    exact fun _ block => ⟨block,id⟩
  exits := exits
  zombie := zombie
  freed := freed
  pending := pending_congr zombie bottom
  others := by
    intro v member
    rw [alive,code]
    refine ⟨mem_cons_of_mem _ member,fun other => ?_⟩
    have old : v ≠ c.tcb := fun same => outside (same ▸ member)
    rw [update_of_ne other,update_of_ne old]
  new := by
    intro v member
    rw [alive] at member
    refine (mem_cons.mp member).symm.imp_right (fun same => ?_)
    subst v
    have other : c.tcb ≠ m.running := fun same => outside (same ▸ inside)
    rw [code,update_of_ne other,update_self]
    exact ⟨other,rfl⟩
  lock := by
    rw [status]
    exact fun locked => .inr ⟨locked,idle⟩

variable [DecidableEq κ]

theorem Resting.dropped (resting : m.Resting) (q : Waitable κ) :
    (m.withTasks { m.threads.tasks with queue := update m.threads.tasks.queue q 0 }).Resting ∧
      Quiet m (m.withTasks { m.threads.tasks with queue := update m.threads.tasks.queue q 0 }) := by
  obtain ⟨p,seated⟩ := resting.seated
  exact ⟨resting.withTasks ⟨_,seated.dropped q⟩ resting.gone rfl rfl rfl,.withTasks rfl rfl rfl rfl⟩

theorem Resting.woken (resting : m.Resting) {q : Waitable κ} (filled : m.threads.tasks.queue q ≠ 0) :
    (m.withTasks (m.threads.tasks.unblock q)).Resting ∧ Quiet m (m.withTasks (m.threads.tasks.unblock q)) := by
  obtain ⟨p,seated⟩ := resting.seated
  obtain ⟨woken,d,alive,other,state⟩ := seated.unblock filled
  refine ⟨resting.withTasks woken ?_ (unblock_running ..) (unblock_zombie ..) ?_,
    .withTasks (unblock_running ..) (unblock_zombie ..) (unblock_freed ..) ?_⟩
  · exact resting.gone.woken alive other (unblock_running ..) state
  · rw [state]
    exact update_of_ne other.symm ..
  · exact pending_congr (unblock_zombie ..) (unblock_stackBottom ..)

def linking (m : KernelRun L κ) (c : Creation) (rest : List (Act κ)) : KernelRun L κ :=
  let s := m.threads.tasks
  (m.withTasks { s with
    next := update s.next c.tcb m.running
    prev := update s.prev c.tcb (s.prev m.running) }).become (.linkLast c :: rest)

def linkingFirst (m : KernelRun L κ) (c : Creation) (rest : List (Act κ)) : KernelRun L κ :=
  let m := m.linking c rest
  let s := m.threads.tasks
  (m.withTasks { s with next := update s.next (s.prev m.running) c.tcb }).become (.linkFirst c :: rest)

def Linking (m : KernelRun L κ) : Prop :=
  ∃ before : KernelRun L κ, ∃ c rest, before.Resting ∧ before.code before.running = .linkNew c :: rest ∧ c.tcb ≠ 0 ∧
    (m = before.linking c rest ∨ m = before.linkingFirst c rest)

def Sound (m : KernelRun L κ) : Prop := m.Resting ∨ m.Linking

section Conditions

variable (m : KernelRun L κ)

def ActEnters : Act κ → Prop
  | .acquire l => m.status l = .locked
  | .enterHeap _ => m.status .kpool = .locked
  | .wait _ | .directSchedulerEntry | .spin | .r3Exit | .r0ExitNoZombie => True
  | _ => False

/-- The act calls `scheduler` with the running thread `EXITED`, when exited threads do not wait. -/
def ActLeaves : Act κ → Prop
  | .directSchedulerEntry | .spin => m.threads.tasks.state m.running = .exited
  | .r3Exit => True
  | _ => False

/-- Exited threads do not wait, only the running thread is marked as exited, and a thread without
a control block is not linked. -/
def ActCareful : Act κ → Prop
  | .acquire l => m.status l = .locked → m.threads.tasks.state m.running ≠ .exited
  | .enterHeap _ => m.status .kpool = .locked → m.threads.tasks.state m.running ≠ .exited
  | .wait _ => m.threads.tasks.state m.running ≠ .exited
  | .threadReapDelayed t => t = m.running
  | .linkNew c => c.tcb ≠ 0
  | _ => True

instance : ∀ act, Decidable (m.ActCareful act)
  | .acquire _ | .enterHeap _ => inferInstanceAs (Decidable (_ → _))
  | .wait _ => inferInstanceAs (Decidable (_ ≠ _))
  | .threadReapDelayed _ => inferInstanceAs (Decidable (_ = _))
  | .linkNew _ => inferInstanceAs (Decidable (_ ≠ _))
  | .release _ | .useHeap _ | .signal _ | .directSchedulerEntry | .spin | .r3Exit | .r0ExitNoZombie | .work _
  | .writeId _ | .clearTcb _ | .setDirectory _ | .setStack _ | .setFrame _ | .linkLast _ | .linkFirst _ =>
    isTrue trivial

instance : ∀ act, Decidable (m.ActEnters act)
  | .acquire _ | .enterHeap _ => inferInstanceAs (Decidable (_ = _))
  | .wait _ | .directSchedulerEntry | .spin | .r3Exit | .r0ExitNoZombie => isTrue trivial
  | .release _ | .useHeap _ | .signal _ | .threadReapDelayed _ | .work _ | .writeId _ | .clearTcb _
  | .setDirectory _ | .setStack _ | .setFrame _ | .linkNew _ | .linkLast _ | .linkFirst _ => isFalse id

instance : ∀ act, Decidable (m.ActLeaves act)
  | .directSchedulerEntry | .spin => inferInstanceAs (Decidable (_ = _))
  | .r3Exit => isTrue trivial
  | .acquire _ | .enterHeap _ | .wait _ | .r0ExitNoZombie | .release _ | .useHeap _ | .signal _
  | .threadReapDelayed _ | .work _ | .writeId _ | .clearTcb _ | .setDirectory _ | .setStack _ | .setFrame _
  | .linkNew _ | .linkLast _ | .linkFirst _ => isFalse id

def Enters : KernelEvent κ → Prop
  | .call _ => False
  | .proceed _ => ∃ act ∈ (m.code m.running).head?, m.ActEnters act
  | .timer _ => True

def Leaves : KernelEvent κ → Prop
  | .call _ => False
  | .proceed _ => ∃ act ∈ (m.code m.running).head?, m.ActLeaves act
  | .timer _ => m.threads.tasks.state m.running = .exited

/-- As the acts are, and nothing switches while a new thread is being linked. -/
def Careful : KernelEvent κ → Prop
  | .call _ => True
  | .proceed _ => ∀ act ∈ (m.code m.running).head?, m.ActCareful act
  | .timer _ => ∀ act ∈ (m.code m.running).head?, ¬act.Links

instance : ∀ event, Decidable (m.Enters event)
  | .call _ => isFalse id
  | .proceed _ => inferInstanceAs (Decidable (∃ act ∈ (m.code m.running).head?, _))
  | .timer _ => isTrue trivial

instance : ∀ event, Decidable (m.Leaves event)
  | .call _ => isFalse id
  | .proceed _ => inferInstanceAs (Decidable (∃ act ∈ (m.code m.running).head?, _))
  | .timer _ => inferInstanceAs (Decidable (_ = _))

instance : ∀ event, Decidable (m.Careful event)
  | .call _ => isTrue trivial
  | .proceed _ => inferInstanceAs (Decidable (∀ act ∈ (m.code m.running).head?, _))
  | .timer _ => inferInstanceAs (Decidable (∀ act ∈ (m.code m.running).head?, _))

end Conditions

/-- What an event has done: no switch, or one from a state in which the scheduler can be called. -/
inductive Outcome (enters leaves : Prop) (m t : KernelRun L κ) : Prop where
  | kept (sound : t.Sound) (quiet : Quiet m t) (stays : ¬enters)
  | moved (before : KernelRun L κ) (leaving : Bool) (stable : before.Stable) (quiet : Quiet m before)
      (status : before.status = m.status)
      (next : before.threads.tasks.next m.running = m.threads.tasks.next m.running)
      (holds : Holding (m.code m.running) → before = m ∧ (m.threads.tasks.state m.running = .ready ∨ leaving = true))
      (left : leaving → leaves) (moved : Moved leaving before t)

omit [DecidableEq κ] in
theorem Resting.going (resting : m.Resting) (state : m.threads.tasks.state m.running ≠ .exited) :
    m.running ∉ m.exited := by
  intro marked
  obtain ⟨ready,_⟩ := resting.gone _ marked
  exact resting.awake.elim ready state

omit [DecidableEq κ] in
theorem Outcome.rests {enters leaves : Prop} (both : t.Resting ∧ Quiet m t) (stays : ¬enters) :
    Outcome enters leaves m t := .kept (.inl both.1) both.2 stays

theorem Outcome.blocked {q : Waitable κ} {fuel : Nat} {esp : Nat → Nat} {enters leaves : Prop}
    {before : KernelRun L κ} (resting : before.Resting) (quiet : Quiet m before) (status : before.status = m.status)
    (next : before.threads.tasks.next m.running = m.threads.tasks.next m.running)
    (idle : ¬Holding (m.code m.running)) (awake : before.threads.tasks.state before.running ≠ .exited)
    (taken : q = .kpool → before.status .kpool = .locked) (done : before.block fuel esp q = some (some t)) :
    Outcome enters leaves m t := by
  obtain ⟨p,seated⟩ := resting.seated
  refine .moved before false resting.toStable quiet status next (fun holds => absurd holds idle)
    (fun impossible => absurd impossible (by decide)) ?_
  exact block_moved seated resting.gone (resting.going awake) taken done

theorem Outcome.switched {walk depth : Nat} {esp : Nat → Nat} {enters leaves : Prop} {before : KernelRun L κ}
    (stable : before.Stable) (quiet : Quiet m before) (status : before.status = m.status)
    (next : before.threads.tasks.next m.running = m.threads.tasks.next m.running)
    (holds : Holding (m.code m.running) → before = m ∧ m.Resting)
    (left : before.threads.tasks.state before.running = .exited → leaves)
    (done : scheduler walk esp depth before = some (some t)) : Outcome enters leaves m t := by
  obtain ⟨p,seated⟩ := stable.seated
  refine .moved before _ stable quiet status next (fun held => ?_) (fun exits => left (of_decide_eq_true exits))
    (scheduler_moved seated stable.gone done)
  obtain ⟨rfl,resting⟩ := holds held
  exact ⟨rfl,resting.awake.imp_right decide_eq_true⟩

theorem Resting.exec {act : Act κ} {rest : List (Act κ)} {fuel : Nat} {input : Input} (resting : m.Resting)
    (here : m.code m.running = act :: rest) (permitted : m.Permitted (.proceed input)) (careful : m.ActCareful act)
    (done : m.exec fuel input rest act = some (some t)) : Outcome (m.ActEnters act) (m.ActLeaves act) m t := by
  have whole := resting.built.whole m.running act (by simp [here])
  -- an act that leaves the control blocks, the locks and the heap alone
  have onward (acts : List (Act κ)) (idle : ¬Holding (act :: rest)) (wholes : ∀ next ∈ acts, next.Whole)
      (fewer : under acts <+ act.under) (resources : Resources L) :
      ({ m with resources := resources }.become (acts ++ rest)).Resting ∧
        Quiet m ({ m with resources := resources }.become (acts ++ rest)) :=
    resting.proceeds acts here rfl rfl rfl rfl rfl wholes fewer (fun locked => .inr ⟨locked,idle⟩)
  cases act with
  | acquire l =>
    simp only [KernelRun.exec] at done
    split at done
    · rename_i locked
      exact .blocked resting (.refl m) rfl rfl (by rw [here]; exact id) (careful locked) (fun same => same ▸ locked) done
    · rename_i free
      cases done
      have other : l ≠ .kpool := fun same => whole.2 (same ▸ rfl)
      exact .rests (resting.proceeds [] here rfl rfl rfl rfl rfl (by simp) (by simp)
        (fun locked => .inr ⟨by simpa [become,other.symm] using locked,id⟩)) free
  | release l =>
    cases done
    obtain ⟨rests,quiet⟩ := resting.proceeds (t := { m with status := update m.status l .unlocked }.become rest) []
      here rfl rfl rfl rfl rfl (by simp) (by simp) (fun locked => by
        by_cases same : l = .kpool
        · simp [become,same] at locked
        · refine .inr ⟨by simpa [become,Ne.symm same] using locked,?_⟩
          cases l <;> first | exact absurd rfl same | exact id)
    unfold KernelRun.release
    dsimp only
    split
    · rename_i filled
      obtain ⟨woken,more⟩ := rests.woken filled
      exact .rests ⟨woken,quiet.trans more⟩ id
    · exact .rests ⟨rests,quiet⟩ id
  | enterHeap use =>
    simp only [KernelRun.exec] at done
    split at done
    · rename_i locked
      exact .blocked resting (.refl m) rfl rfl (by rw [here]; exact id) (careful locked) (fun _ => locked) done
    · rename_i free
      cases done
      exact .rests (resting.proceeds [.useHeap use] here rfl rfl rfl rfl rfl (by simp [Act.Whole,Act.Links])
        (by simp [Act.under]) (fun _ => .inl trivial)) free
  | useHeap use =>
    cases done
    cases use with
    | kmalloc =>
      exact .rests (resting.proceeds [.release .kpool] here rfl rfl rfl rfl rfl (by simp [Act.Whole,Act.Links])
        (by simp [Act.under]) (fun _ => .inl trivial)) id
    | kfree address =>
      exact .rests (resting.proceeds [.release .kpool] here rfl rfl rfl rfl rfl (by simp [Act.Whole,Act.Links])
        (by simp [Act.under]) (fun _ => .inl trivial)) id
    | tcb user request =>
      exact .rests (resting.begins here (permitted.imp_right And.left)) id
    | stack c =>
      exact .rests (resting.proceeds [.release .kpool,.setStack { c with stack := input.grant }] here rfl rfl rfl rfl
        rfl (by simp [Act.Whole,Act.Links]) (by simp [Act.under,HeapUse.under,Creation.under])
        (fun _ => .inl trivial)) id
    | freeKstack c =>
      exact .rests (resting.proceeds (.release .kpool :: c.refused) here rfl rfl rfl rfl rfl
        (by simpa [Act.Whole,Act.Links] using refused_whole c) (by simp [Act.under]) (fun _ => .inl trivial)) id
  | wait q =>
    obtain ⟨rests,quiet⟩ := onward [] id (by simp) (by simp) m.resources
    exact .blocked rests quiet rfl rfl (by rw [here]; exact id) careful (by simp) done
  | signal q =>
    obtain ⟨rests,quiet⟩ := onward [] id (by simp) (by simp) m.resources
    simp only [KernelRun.exec] at done
    split at done
    · rename_i filled
      cases done
      obtain ⟨woken,more⟩ := rests.woken filled
      exact .rests ⟨woken,quiet.trans more⟩ id
    · cases done
      exact .rests ⟨rests,quiet⟩ id
  | directSchedulerEntry =>
    obtain ⟨rests,quiet⟩ := onward [] id (by simp) (by simp) m.resources
    exact .switched rests.toStable quiet rfl rfl (fun holds => by rw [here] at holds; exact absurd holds id) id done
  | spin => exact .switched resting.toStable (.refl m) rfl rfl (fun _ => ⟨rfl,resting⟩) id done
  | r3Exit =>
    obtain ⟨rests,quiet⟩ := onward [] id (by simp) (by simp) m.resources
    exact .switched rests.mark.toStable (quiet.trans (.mark _)) rfl rfl
      (fun holds => by rw [here] at holds; exact absurd holds id) (fun _ => trivial) done
  | r0ExitNoZombie =>
    obtain ⟨rests,quiet⟩ := onward [] id (by simp) (by simp) m.resources
    refine .switched rests.markNoZombie (quiet.trans (.withTasks rfl rfl rfl rfl)) rfl rfl
      (fun holds => by rw [here] at holds; exact absurd holds id) (fun exits => ?_) done
    change update m.threads.tasks.state m.threads.tasks.currentRunning .exitedNoZombie
      m.threads.tasks.currentRunning = _ at exits
    rw [update_self] at exits
    contradiction
  | threadReapDelayed address =>
    obtain ⟨rests,quiet⟩ := onward [] id (by simp) (by simp) m.resources
    obtain rfl : address = m.running := careful
    cases done
    exact .rests ⟨rests.mark,quiet.trans (.mark _)⟩ id
  | work w =>
    cases done
    exact .rests (onward _ id (run_whole input w) (run_under input w) _) id
  | writeId c =>
    simp only [KernelRun.exec] at done
    split at done
    · cases done
      exact .rests (onward _ id (refused_whole c) (by simp) _) id
    · cases done
      let resources := { m.resources with
        ptr := update m.resources.ptr c.tid c.tcb
        count := update m.resources.count c.tid 1 }
      obtain ⟨rests,quiet⟩ := resting.proceeds (t := { m with
          resources := resources
          status := update m.status (.record c.tid) .unlocked }.become (.clearTcb c :: rest)) [.clearTcb c]
        here rfl rfl rfl rfl rfl (by simp [Act.Whole,Act.Links]) (by simp [Act.under])
        (fun locked => .inr ⟨by simpa [become] using locked,id⟩)
      obtain ⟨dropped,more⟩ := rests.dropped (.record c.tid)
      exact .rests ⟨dropped,quiet.trans more⟩ id
  | clearTcb c =>
    cases done
    refine .rests (resting.fills (c := c) here rfl id ?_ [.work (.scanDirectory c 0)]
      (by simp [Act.Whole,Act.Links]) (by simp [Act.under,Work.under])) id
    refine ⟨⟨?_,?_,?_,?_,?_⟩,?_,?_,?_⟩ <;> simp +contextual
  | setDirectory c =>
    simp only [KernelRun.exec] at done
    split at done
    · cases done
      refine .rests (resting.fills (c := c) here rfl id ?_ c.refused (refused_whole c) (by simp)) id
      refine ⟨⟨?_,?_,?_,?_,?_⟩,?_,?_,?_⟩ <;> simp +contextual [kprintf]
    · cases done
      refine .rests (resting.fills (c := c) here rfl id ?_ [.enterHeap (.stack c)]
        (by simp [Act.Whole,Act.Links]) (by simp [Act.under,HeapUse.under])) id
      refine ⟨⟨?_,?_,?_,?_,?_⟩,?_,?_,?_⟩ <;> simp +contextual
  | setStack c =>
    simp only [KernelRun.exec] at done
    split at done
    · cases done
      refine .rests (resting.fills (c := c) here rfl id ?_ c.refused (refused_whole c) (by simp)) id
      refine ⟨⟨?_,?_,?_,?_,?_⟩,?_,?_,?_⟩ <;> simp +contextual [kprintf]
    · cases done
      refine .rests (resting.fills (c := c) here rfl id ?_
        [if c.user then .work (.scanFrame (.stack c) 0) else .setFrame c]
        (by split <;> simp [Act.Whole,Act.Links]) (by split <;> simp [Act.under,Work.under,Mapping.under])) id
      refine ⟨⟨?_,?_,?_,?_,?_⟩,?_,?_,?_⟩ <;> simp +contextual
  | setFrame c =>
    cases done
    refine .rests (resting.fills (c := c) here rfl id ?_ [.linkNew c] (by simp [Act.Whole,Act.Links])
      (by simp [Act.under])) id
    refine ⟨⟨?_,?_,?_,?_,?_⟩,?_,?_,?_⟩ <;> simp +contextual
  | linkNew c =>
    simp only [KernelRun.exec] at done
    split at done
    · cases done
      exact .kept (.inr ⟨m,c,rest,resting,here,careful,.inl rfl⟩)
        (.onward rfl rfl rfl rfl (by rw [here]; exact id)) id
    · rename_i null
      obtain ⟨p,seated⟩ := resting.seated
      exact absurd seated.real null
  | linkLast c => exact absurd trivial whole.1
  | linkFirst c => exact absurd trivial whole.1

theorem Linking.exec {act : Act κ} {rest : List (Act κ)} {fuel : Nat} {input : Input} (linking : m.Linking)
    (here : m.code m.running = act :: rest) (done : m.exec fuel input rest act = some (some t)) :
    Outcome (m.ActEnters act) (m.ActLeaves act) m t := by
  obtain ⟨before,c,after,resting,next,granted,rfl | rfl⟩ := linking
  · have shape : (before.linking c after).code (before.linking c after).running = .linkLast c :: after :=
      update_self ..
    obtain ⟨rfl,rfl⟩ := cons.inj (here.symm.trans shape)
    cases done
    exact .kept (.inr ⟨before,c,rest,resting,next,granted,.inr rfl⟩)
      (.onward rfl rfl rfl rfl (by rw [here]; exact id)) id
  · have shape : (before.linkingFirst c after).code (before.linkingFirst c after).running = .linkFirst c :: after :=
      update_self ..
    obtain ⟨rfl,rfl⟩ := cons.inj (here.symm.trans shape)
    obtain ⟨p,seated⟩ := resting.seated
    obtain ⟨outside,_⟩ := resting.outside c next rfl
    have result : before.spliced c rest = t := by
      refine Eq.trans ?_ (Option.some.inj (Option.some.inj done))
      have real : before.threads.tasks.currentRunning ≠ 0 := seated.real
      have away : before.threads.tasks.currentRunning ≠ c.tcb := fun same => outside (same ▸ seated.running)
      simp only [KernelRun.spliced,linkingFirst,KernelRun.linking,KernelRun.withTasks,become,splice,if_pos real,
        KernelRun.running,update_idem]
      rw [update_comm away,update_idem]
    have quiet : Quiet (before.linkingFirst c rest) t := by
      cases done
      exact .born (c := c) rfl rfl rfl rfl rfl rfl rfl rfl rfl rfl outside seated.running (by rw [here]; exact id)
    exact .kept (.inl (result ▸ resting.spliced next granted)) quiet id

theorem Sound.step {event : KernelEvent κ} {fuel : Nat} (sound : m.Sound) (permitted : m.Permitted event)
    (careful : m.Careful event) (done : m.perform fuel event = some (some t)) :
    Outcome (m.Enters event) (m.Leaves event) m t := by
  cases event with
  | call routine =>
    obtain ⟨empty,_⟩ := permitted
    rcases sound with resting | ⟨before,c,rest,_,_,_,rfl | rfl⟩
    · cases done
      have whole : ∀ act ∈ routine.acts (m.threads.tasks.tid m.running), act.Whole := by
        cases routine <;> simp [Routine.acts,Act.Whole,Act.Links]
      have nothing : under (routine.acts (m.threads.tasks.tid m.running)) = [] := by
        cases routine <;> simp [Routine.acts,Act.under,HeapUse.under,Work.under]
      refine .rests ⟨resting.acts rfl rfl rfl rfl whole (by simp [nothing]),
        .acts rfl (fun _ block => ⟨block,id⟩) rfl rfl ?_⟩ id
      exact fun locked => .inr ⟨locked,by rw [empty]; exact id⟩
    · exact absurd (empty.symm.trans (update_self ..)) (by simp)
    · exact absurd (empty.symm.trans (update_self ..)) (by simp)
  | proceed input =>
    rw [perform] at done
    split at done
    · contradiction
    · rename_i act rest here
      have outcome : Outcome (m.ActEnters act) (m.ActLeaves act) m t := by
        rcases sound with resting | linking
        · exact resting.exec here permitted (careful act (by simp [here])) done
        · exact linking.exec here done
      simpa [Enters,Leaves,here] using outcome
  | timer esp =>
    rcases sound with resting | ⟨before,c,rest,_,_,_,rfl | rfl⟩
    · exact .switched resting.toStable (.refl m) rfl rfl (fun _ => ⟨rfl,resting⟩) id done
    · exact absurd trivial (careful (.linkLast c) (by simp [linking,become,KernelRun.running,KernelRun.withTasks]))
    · exact absurd trivial (careful (.linkFirst c) (by simp [linkingFirst,become,KernelRun.running,KernelRun.withTasks]))

omit [DecidableEq κ] in
theorem Outcome.sound {enters leaves : Prop} (outcome : Outcome enters leaves m t) : t.Sound := by
  cases outcome with
  | kept sound => exact sound
  | moved before leaving stable quiet status next holds left moved => exact .inl (stable.moved moved)

section Runs

variable (ok : KernelRun L κ → KernelEvent κ → Prop)

def StepIf (m t : KernelRun L κ) : Prop :=
  ∃ event fuel, m.Permitted event ∧ ok m event ∧ m.perform fuel event = some (some t)

variable [∀ m event, Decidable (ok m event)]

def performIf (fuel : Nat) : List (KernelEvent κ) → KernelRun L κ → Option (KernelRun L κ)
  | [], m => some m
  | event :: events, m =>
    if m.Permitted event ∧ ok m event then (m.perform fuel event).join.bind (performIf fuel events) else none

theorem performIf_runs {events : List (KernelEvent κ)} {fuel : Nat} (done : performIf ok fuel events m = some t) :
    Relation.ReflTransGen (StepIf ok) m t := by
  induction events generalizing m with
  | nil =>
    cases done
    exact .refl
  | cons event events ih =>
    rw [performIf] at done
    split at done
    · rename_i permitted
      obtain ⟨middle,one,later⟩ := Option.bind_eq_some_iff.mp done
      exact .head ⟨event,fuel,permitted.1,permitted.2,Option.join_eq_some_iff.mp one⟩ (ih later)
    · contradiction

end Runs

omit [DecidableEq κ] in
theorem boot_resting (boot : m.Boot) : m.Resting := by
  obtain ⟨threads,zombie,_,_,code,blocks,exited,_⟩ := boot
  have placed := TaskRun.boot_placed threads
  obtain ⟨real,alive,_,_,ready,_⟩ := threads
  exact {
    seated := ⟨_,placed.seated⟩
    gone := by simp [Gone,exited]
    real := by simpa [alive] using real.symm
    marked := by simp [exited]
    held := by simp [alive,blocks,KernelRun.running]
    zombie := fun pending => absurd zombie pending
    built := ⟨by simp [code],by simp [code],by simp [code],by simp [code]⟩
    awake := .inl ready }

theorem careful_sound (reached : Reach Boot (StepIf Careful) m) : m.Sound := by
  refine Reach.invariant Sound (fun _ boot => .inl (boot_resting boot)) ?_ reached
  rintro s t sound ⟨event,fuel,permitted,careful,done⟩
  exact (sound.step permitted careful done).sound

omit [DecidableEq κ] in
theorem Sound.gone (sound : m.Sound) : Gone m.exited m.threads := by
  rcases sound with resting | ⟨before,c,rest,resting,_,_,rfl | rfl⟩
  · exact resting.gone
  · exact resting.gone
  · exact resting.gone

/-- Besides, the scheduler is not called with a zombie to reap while the heap's lock is taken. -/
def Watchful (m : KernelRun L κ) (event : KernelEvent κ) : Prop :=
  m.Careful event ∧ (m.Enters event → m.threads.tasks.zombie ≠ 0 → m.status .kpool ≠ .locked)

instance (m : KernelRun L κ) (event : KernelEvent κ) : Decidable (m.Watchful event) :=
  inferInstanceAs (Decidable (_ ∧ _))

theorem block_returns (seated : m.threads.Seated p) (free : m.threads.tasks.zombie ≠ 0 → m.status .kpool ≠ .locked)
    (esp : Nat → Nat) (q : Waitable κ) : ∃ fuel outcome, m.block fuel esp q = some outcome := by
  obtain ⟨rest,first⟩ := seated.represents.split
  obtain ⟨u,linked,_⟩ := enqueue_links seated.represents seated.valid first (q := q) (Nat.le_succ _)
  obtain ⟨_,zombie,_⟩ := enqueue_frame linked
  obtain ⟨after,returned,_⟩ := scheduler_returns (m := m.withTasks u) ((p.waiting q).length + 1)
    (p.waiting q).length esp (fun pending => free (zombie ▸ pending))
  exact ⟨_,_,Option.bind_eq_some_iff.mpr ⟨u,linked,returned⟩⟩

/-- With the heap's lock free for the reaper, every act that calls the scheduler comes back. -/
theorem Resting.returns {act : Act κ} (resting : m.Resting)
    (free : m.threads.tasks.zombie ≠ 0 → m.status .kpool ≠ .locked) (enters : m.ActEnters act)
    (input : Input) (rest : List (Act κ)) : ∃ fuel outcome, m.exec fuel input rest act = some outcome := by
  obtain ⟨p,seated⟩ := resting.seated
  -- a state with the same zombie and the same locks
  have switches (before : KernelRun L κ) (zombie : before.threads.tasks.zombie = m.threads.tasks.zombie)
      (status : before.status = m.status) : ∃ fuel outcome, scheduler fuel input.esp fuel before = some outcome := by
    obtain ⟨after,returned,_⟩ := scheduler_returns (m := before) 1 0 input.esp (by rwa [zombie,status])
    exact ⟨1,_,returned⟩
  cases act with
  | acquire l =>
    obtain ⟨fuel,outcome,returned⟩ := block_returns seated free input.esp l
    exact ⟨fuel,outcome,(if_pos enters).trans returned⟩
  | enterHeap use =>
    obtain ⟨fuel,outcome,returned⟩ := block_returns seated free input.esp .kpool
    exact ⟨fuel,outcome,(if_pos enters).trans returned⟩
  | wait q => exact block_returns (m := m.become rest) seated free input.esp (.other q)
  | directSchedulerEntry => exact switches (m.become rest) rfl rfl
  | spin => exact switches m rfl rfl
  | r3Exit =>
    exact switches (({ m with exited := m.running :: m.exited }.become rest).withTasks m.threads.tasks.markExited)
      rfl rfl
  | r0ExitNoZombie => exact switches ((m.become rest).withTasks m.threads.tasks.markExitedNoZombie) rfl rfl
  | release _ | useHeap _ | signal _ | threadReapDelayed _ | work _ | writeId _ | clearTcb _ | setDirectory _
  | setStack _ | setFrame _ | linkNew _ | linkLast _ | linkFirst _ => exact enters.elim

theorem Sound.returns {event : KernelEvent κ} (sound : m.Sound) (watchful : m.Watchful event)
    (enters : m.Enters event) : ∃ fuel outcome, m.perform fuel event = some outcome := by
  have free := watchful.2 enters
  cases event with
  | call routine => exact enters.elim
  | proceed input =>
    obtain ⟨act,head,enters⟩ := enters
    obtain ⟨rest,here⟩ := head?_eq_some_iff.mp head
    rcases sound with resting | ⟨before,c,after,_,_,_,rfl | rfl⟩
    · obtain ⟨fuel,outcome,returned⟩ := resting.returns free enters input rest
      refine ⟨fuel,outcome,?_⟩
      rw [perform,here]
      exact returned
    · have shape : (before.linking c after).code (before.linking c after).running = .linkLast c :: after :=
        update_self ..
      obtain ⟨rfl,_⟩ := cons.inj (here.symm.trans shape)
      exact enters.elim
    · have shape : (before.linkingFirst c after).code (before.linkingFirst c after).running = .linkFirst c :: after :=
        update_self ..
      obtain ⟨rfl,_⟩ := cons.inj (here.symm.trans shape)
      exact enters.elim
  | timer esp =>
    obtain ⟨after,returned,_⟩ := scheduler_returns (m := m) 1 0 esp free
    exact ⟨1,_,returned⟩

/-- Exited threads never run again, in every run in which exited threads do not wait, only the
running thread is marked as exited, no thread is created without memory for its control block,
no timer interrupt comes while a new thread is being linked and the scheduler is not called with
a zombie to reap while the heap's lock is taken: whoever has been marked as `EXITED` is neither
`READY` nor `BLOCKED`, and every call of the scheduler comes back, or halts the machine, and goes
on with another thread. -/
theorem exited_threads_never_run (m : KernelRun L κ) (reached : Reach Boot (StepIf Watchful) m) :
    (∀ v ∈ m.exited, m.threads.tasks.state v ≠ .ready ∧ m.threads.tasks.state v ≠ .blocked) ∧
    ∀ event, m.Permitted event → m.Watchful event →
      (m.Enters event → ∃ fuel outcome, m.perform fuel event = some outcome) ∧
      ∀ fuel t, m.perform fuel event = some (some t) →
        (∀ v ∈ m.exited, v ∈ m.blocks → v ∈ t.exited) ∧ (m.Enters event → t.running ∉ t.exited) := by
  have sound : m.Sound := careful_sound (reached.mono (fun _ _ ⟨event,fuel,permitted,watchful,done⟩ =>
    ⟨event,fuel,permitted,watchful.1,done⟩))
  refine ⟨fun v marked => ⟨(sound.gone v marked).1,(sound.gone v marked).2.1⟩,?_⟩
  intro event permitted watchful
  refine ⟨sound.returns watchful,fun fuel t done => ?_⟩
  cases sound.step permitted watchful.1 done with
  | kept _ quiet stays =>
    exact ⟨fun v marked block => (quiet.marks v block).2 marked,fun enters => absurd enters stays⟩
  | moved before leaving stable quiet status next holds left moved =>
    rw [moved.aside.exited]
    exact ⟨fun v marked block => (quiet.marks v block).2 marked,fun _ => moved.chosen⟩

theorem booted_boots : booted.Boot := by
  simp [booted,KernelRun.Boot,TaskRun.Boot,KernelRun.running]

/-- A thread has been created, has exited and is off the ring, and the next timer interrupt reaps it. -/
theorem exited_thread_left_alone : ∃ m t : KernelRun Kernel.sampleLayout Unit, Reach Boot (StepIf Watchful) m ∧
    m.exited = [200] ∧ m.threads.tasks.state 200 ≠ .ready ∧ m.threads.tasks.zombie = 200 ∧
    m.perform 10 tick = some (some t) ∧ t.threads.tasks.freed = [0x9000,200] ∧ t.running ∉ t.exited := by
  have outcome : ((performIf Watchful 10 (creates 200 0x9000 ++ [tick,.call .r0Exit] ++ replicate 8 (proceeds 0))
      booted).bind (fun m => (m.perform 10 tick).join.map (fun t => decide (m.exited = [200] ∧
        m.threads.tasks.zombie = 200 ∧ t.threads.tasks.freed = [0x9000,200] ∧ m.Watchful tick)))) = some true := by
    decide +kernel
  obtain ⟨m,done,rest⟩ := Option.bind_eq_some_iff.mp outcome
  obtain ⟨t,last,fields⟩ := Option.map_eq_some_iff.mp rest
  obtain ⟨exited,zombie,freed,watchful⟩ := of_decide_eq_true fields
  have reached : Reach Boot (StepIf Watchful) m := ⟨booted,booted_boots,performIf_runs _ done⟩
  have ticked := Option.join_eq_some_iff.mp last
  obtain ⟨marks,events⟩ := exited_threads_never_run m reached
  exact ⟨m,t,reached,exited,(marks 200 (by simp [exited])).1,zombie,ticked,freed,
    ((events tick trivial watchful).2 10 t ticked).2 trivial⟩

/-- With interrupts on, the boot thread is interrupted in a second `thread_create` that holds the lock
of the bitmap. The first thread exits, is marked in `close` and waits for that lock; the boot thread
releases it, ends its `thread_create` and yields. -/
def exitsWhileCreating : List (MaskedEvent Unit) :=
  [.sti] ++ (creates 200 0x9000 ++ [.call (.threadCreate false),proceeds 0,proceeds 300,proceeds 0,proceeds 0,tick,
    .call .r0Exit] ++ replicate 16 (proceeds 0) ++ [proceeds 0xb000] ++ replicate 6 (proceeds 0) ++
    [.call .r0Yield,proceeds 0]).map .kernel

theorem exited_thread_runs : ∃ s : MaskedRun Kernel.sampleLayout Unit, Reach MaskedRun.Boot MaskedRun.Step s ∧
    Reach Boot Step s.kernel ∧ s.kernel.exited = [200] ∧ s.kernel.threads.tasks.state 200 = .ready ∧
    s.kernel.running = 200 := by
  have outcome : ((MaskedRun.performAll 10 exitsWhileCreating MaskedRun.booted).map (fun s =>
      decide (s.kernel.exited = [200] ∧ s.kernel.threads.tasks.state 200 = .ready ∧ s.kernel.running = 200))) =
        some true := by
    decide +kernel
  obtain ⟨s,done,fields⟩ := Option.map_eq_some_iff.mp outcome
  have reached : Reach MaskedRun.Boot MaskedRun.Step s :=
    MaskedRun.performAll_reach done (.start ⟨booted_boots,rfl,rfl,rfl⟩)
  exact ⟨s,reached,MaskedRun.reached_kernel reached,of_decide_eq_true fields⟩

end KernelRun

end RudimentaryKernel
