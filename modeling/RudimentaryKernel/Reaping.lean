import RudimentaryKernel.ExitedThreads

/-! Reaping under preemption. The lock of the heap is taken by some thread that is alive, and with
a zombie pending by no other than the running one. Two conditions keep it so: an exited thread
is taken off the ring while nobody but its successor is inside of the heap, and a thread inside
of the heap is not interrupted while a zombie is pending. Then the scheduler never waits for
the lock and the memory of each exited thread is freed once. -/
namespace RudimentaryKernel

open Function List TaskRun

namespace KernelRun

open Tasks

variable {L : Layout} {κ : Type} {m t : KernelRun L κ}

/-- Who holds the lock of the heap, and what has been freed of the threads that have left. -/
structure Reapable (m : KernelRun L κ) : Prop where
  holder : m.status .kpool = .locked → ∃ v ∈ m.threads.alive, Holding (m.code v)
  sole : m.threads.tasks.zombie ≠ 0 → ∀ v ∈ m.threads.alive, Holding (m.code v) → v = m.running
  ledger : m.threads.tasks.freed ++ m.threads.tasks.pending = m.exits.flatMap (fun (stack,tcb) => [stack,tcb])

theorem Reapable.quiet (reapable : m.Reapable) (running : m.running ∈ m.threads.alive) (quiet : Quiet m t) :
    t.Reapable where
  holder := by
    intro locked
    rcases quiet.lock locked with holds | ⟨before,idle⟩
    · exact ⟨m.running,(quiet.others _ running).1,holds⟩
    · obtain ⟨v,alive,holds⟩ := reapable.holder before
      have other : v ≠ m.running := fun same => idle (same ▸ holds)
      obtain ⟨still,same⟩ := quiet.others v alive
      exact ⟨v,still,by rwa [same other]⟩
  sole := by
    rw [quiet.zombie,quiet.running]
    intro pending v alive holds
    rcases quiet.new v alive with old | ⟨_,empty⟩
    · by_contra other
      rw [(quiet.others v old).2 other] at holds
      exact other (reapable.sole pending v old holds)
    · rw [empty] at holds
      exact absurd holds id
  ledger := by
    rw [quiet.freed,quiet.pending,quiet.exits]
    exact reapable.ledger

theorem Reapable.moved {before : KernelRun L κ} {leaving : Bool} (reapable : m.Reapable) (quiet : Quiet m before)
    (status : before.status = m.status)
    (next : before.threads.tasks.next m.running = m.threads.tasks.next m.running)
    (holds : Holding (m.code m.running) → before = m ∧ (m.threads.tasks.state m.running = .ready ∨ leaving = true))
    (spared : leaving → ∀ v ∈ m.threads.alive, Holding (m.code v) → v = m.threads.tasks.next m.running)
    (moved : Moved leaving before t) (stable : before.Stable) : t.Reapable := by
  obtain ⟨p,seated⟩ := moved.seated
  obtain ⟨p',sitting⟩ := stable.seated
  have successor : leaving → before.threads.tasks.zombie = 0 → t.running = m.threads.tasks.next m.running := by
    intro leaves none
    rw [moved.next leaves none,quiet.running,next]
  refine ⟨?_,?_,?_⟩
  · intro locked
    rw [moved.status] at locked
    have none : before.threads.tasks.zombie = 0 := by
      by_contra pending
      exact moved.free pending locked
    rw [status] at locked
    obtain ⟨v,alive,inside⟩ := reapable.holder locked
    by_cases same : v = m.running
    · subst v
      obtain ⟨rfl,ready | leaves⟩ := holds inside
      · exact ⟨_,moved.kept _ alive (fun _ => ready),by rwa [moved.aside.code]⟩
      · -- the thread that leaves would be its own successor
        have again := (successor leaves none).trans (spared leaves _ alive inside).symm
        exact absurd seated.running (by
          change t.running ∉ _
          rw [again]
          exact moved.left leaves)
    · obtain ⟨still,code⟩ := quiet.others v alive
      refine ⟨v,moved.kept v still (fun here => absurd (here.trans quiet.running) same),?_⟩
      rwa [moved.aside.code,code same]
  · intro pending v alive inside
    have leaves : leaving = true := by
      have owed := moved.zombie
      cases leaving
      · exact absurd owed pending
      · rfl
    have other : v ≠ m.running := by
      rw [← quiet.running]
      exact fun same => moved.left leaves (same ▸ alive)
    rw [moved.aside.code] at inside
    rcases quiet.new v (moved.alive v alive) with old | ⟨_,empty⟩
    · rw [(quiet.others v old).2 other] at inside
      by_cases none : before.threads.tasks.zombie = 0
      · exact (spared leaves v old inside).trans (successor leaves none).symm
      · rw [quiet.zombie] at none
        exact absurd (reapable.sole none v old inside) other
    · rw [empty] at inside
      exact absurd inside id
  · have owed : t.threads.tasks.pending =
        if leaving then [before.threads.tasks.stackBottom before.running,before.running] else [] := by
      unfold pending
      rw [moved.zombie,moved.stackBottom]
      cases leaving
      · rfl
      · exact if_neg sitting.real
    rw [moved.freed,owed,moved.exits,flatMap_append,quiet.freed,quiet.pending,reapable.ledger,quiet.exits]
    cases leaving <;> rfl

theorem boot_reapable (boot : m.Boot) : m.Reapable := by
  obtain ⟨_,zombie,freed,status,code,_,_,exits,_⟩ := boot
  refine ⟨by simp [status],fun pending => absurd zombie pending,?_⟩
  simp [freed,exits,pending,zombie]

variable [DecidableEq κ]

/-- With care, and the two conditions on who is inside of the heap. -/
def Cautious (m : KernelRun L κ) (event : KernelEvent κ) : Prop :=
  m.Careful event ∧ (m.Enters event → m.threads.tasks.zombie ≠ 0 → ¬Holding (m.code m.running)) ∧
  (m.Leaves event → ∀ v ∈ m.threads.alive, Holding (m.code v) → v = m.threads.tasks.next m.running)

instance (m : KernelRun L κ) (event : KernelEvent κ) : Decidable (m.Cautious event) :=
  inferInstanceAs (Decidable (_ ∧ _ ∧ _))

omit [DecidableEq κ] in
theorem Sound.running (sound : m.Sound) : m.running ∈ m.threads.alive := by
  rcases sound with resting | ⟨before,c,rest,resting,_,_,rfl | rfl⟩
  all_goals
    obtain ⟨p,seated⟩ := resting.seated
    exact seated.running

theorem cautious_reapable (reached : Reach Boot (StepIf Cautious) m) : m.Sound ∧ m.Reapable := by
  refine Reach.invariant (fun m => m.Sound ∧ m.Reapable)
    (fun _ boot => ⟨.inl (boot_resting boot),boot_reapable boot⟩) ?_ reached
  rintro s t ⟨sound,reapable⟩ ⟨event,fuel,permitted,⟨careful,_,spared⟩,done⟩
  have outcome := sound.step permitted careful done
  refine ⟨outcome.sound,?_⟩
  cases outcome with
  | kept _ quiet _ => exact reapable.quiet sound.running quiet
  | moved before leaving stable quiet status next holds left moved =>
    exact reapable.moved quiet status next holds (fun leaves => spared (left leaves)) moved stable

/-- Reaping never blocks inside of the scheduler, in every run in which besides the care for
exited threads nobody but the successor is inside of the heap when a thread leaves as `EXITED`
and a thread inside of the heap is not interrupted while a zombie is pending. Whenever the
scheduler is called with a zombie the lock is free, and the call returns without another one;
afterwards each thread is in one place. Of every thread that has left, the stack and the control block
have been freed once, or it is the zombie. -/
theorem reaping_never_blocks (m : KernelRun L κ) (reached : Reach Boot (StepIf Cautious) m) :
    (∀ event, m.Cautious event → m.Enters event →
      (m.threads.tasks.zombie ≠ 0 → m.status .kpool = .unlocked) ∧
      ∀ (before : KernelRun L κ) (walk : Nat) (esp : Nat → Nat), before.status = m.status →
        before.threads.tasks.zombie = m.threads.tasks.zombie → ∃ result, scheduler walk esp 1 before = some result) ∧
    (∀ event fuel t, m.Permitted event → m.Cautious event → m.Enters event → m.perform fuel event = some (some t) →
      ∃ p, t.threads.Seated p) ∧
    m.threads.tasks.freed ++ m.threads.tasks.pending = m.exits.flatMap (fun (stack,tcb) => [stack,tcb]) := by
  obtain ⟨sound,reapable⟩ := cautious_reapable reached
  refine ⟨?_,?_,reapable.ledger⟩
  · intro event cautious enters
    have free : m.threads.tasks.zombie ≠ 0 → m.status .kpool ≠ .locked := by
      intro pending locked
      obtain ⟨v,alive,holds⟩ := reapable.holder locked
      rw [reapable.sole pending v alive holds] at holds
      exact cautious.2.1 enters pending holds
    refine ⟨fun pending => ?_,fun before walk esp status zombie => ?_⟩
    · cases state : m.status .kpool
      · rfl
      · exact absurd state (free pending)
    · obtain ⟨after,returned,_⟩ := scheduler_returns (m := before) walk 0 esp (by rwa [status,zombie])
      exact ⟨_,returned⟩
  · intro event fuel t permitted cautious enters done
    cases sound.step permitted cautious.1 done with
    | kept _ _ stays => exact absurd enters stays
    | moved before leaving stable quiet status next holds left moved => exact moved.seated

/-- A thread has exited and been reaped. -/
theorem exited_thread_freed_once : ∃ t : KernelRun Kernel.sampleLayout Unit, Reach Boot (StepIf Cautious) t ∧
    t.exits = [(0x9000,200)] ∧ t.threads.tasks.freed ++ t.threads.tasks.pending = [0x9000,200] := by
  have outcome : ((performIf Cautious 10 (creates 200 0x9000 ++ [tick,.call .r0Exit] ++ replicate 8 (proceeds 0) ++
      [tick]) booted).map (fun t => t.exits)) = some [(0x9000,200)] := by
    decide +kernel
  obtain ⟨t,done,exits⟩ := Option.map_eq_some_iff.mp outcome
  have reached : Reach Boot (StepIf Cautious) t := ⟨booted,booted_boots,performIf_runs _ done⟩
  refine ⟨t,reached,exits,?_⟩
  rw [(reaping_never_blocks t reached).2.2,exits]
  rfl

/-- A thread is interrupted in `kmalloc` by one that exits, and goes on with the zombie pending and the
lock of the heap still its own. The next timer interrupt never comes back. -/
theorem scheduler_waits_for_itself : ∃ t : KernelRun Kernel.sampleLayout Unit, Reach Boot Step t ∧
    t.threads.tasks.zombie = 200 ∧ t.status .kpool = .locked ∧ ∀ fuel esp, t.perform fuel (.timer esp) = none := by
  have outcome : ((performAll 10 (creates 200 0x9000 ++ [.call .kmalloc,proceeds 0,tick,.call .r0Exit] ++
      replicate 8 (proceeds 0)) booted).map (fun t => decide (t.running = 100 ∧ t.threads.tasks.next 100 = 100 ∧
        t.threads.tasks.zombie = 200 ∧ t.status .kpool = .locked))) = some true := by
    decide +kernel
  obtain ⟨t,done,fields⟩ := Option.map_eq_some_iff.mp outcome
  obtain ⟨running,next,zombie,locked⟩ := of_decide_eq_true fields
  refine ⟨t,⟨booted,booted_boots,performAll_runs done⟩,zombie,locked,fun fuel esp => ?_⟩
  refine scheduler_trapped (S := (· = 100)) ?_ running (by rw [running]; decide) (by rw [zombie]; decide) locked fuel
    fuel esp
  rintro v rfl
  exact ⟨by rw [next]; decide,next⟩

end KernelRun

end RudimentaryKernel
