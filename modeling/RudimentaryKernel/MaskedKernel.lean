import RudimentaryKernel.Critical
import RudimentaryKernel.Preemption

/-! The interrupt flag beside the kernel with all its threads. `KernelRun` lets the timer come
between any two acts; here it comes only with the flag set, as `enter_critical`,
`leave_critical`, the gates and the ways out of `scheduler_entry` leave it. Every run here is a
run there. -/
namespace RudimentaryKernel

open Function

/-- The flag, the two globals of `entry.S`, and for each thread how it goes on when it is switched
to, whether `block` has switched it out inside a section, and the flags its system calls have
pushed. -/
structure Masking where
  flag : Bool
  criticalDepth : Nat
  criticalSavedFlags : Bool
  resume : Nat → Resume
  inside : Nat → Bool
  frames : Nat → List Bool

namespace Masking

def enter (i : Masking) : Masking :=
  { i with
    criticalSavedFlags := if i.criticalDepth = 0 then i.flag else i.criticalSavedFlags
    flag := false
    criticalDepth := add32 i.criticalDepth 1 }

def leave (i : Masking) : Masking :=
  let depth := sub32 i.criticalDepth 1
  { i with criticalDepth := depth, flag := if depth = 0 then i.criticalSavedFlags else i.flag }

def pass (i : Masking) : Masking := i.enter.leave

/-- The running thread `c` goes off the processor and `next` goes on as it resumes. In between the
scheduler reaps: each of its two `kfree` acquires and releases the lock of the heap. -/
def switchTo (i : Masking) (c : Nat) (how : Resume) (reaping : Bool) (next : Nat) : Masking :=
  let i := { i with resume := update i.resume c how }
  let i := if reaping then pass^[4] i else i
  { i with
    flag := match i.resume next with
      | .ret => i.flag
      | .iret flag => flag }

variable {L : Layout} {κ : Type} [DecidableEq κ]

/-- `lock_acquire_helper` in its section, which a thread that comes back from `block` is still in. -/
def acquire (i : Masking) (m : KernelRun L κ) (l : Waitable κ) (next : Nat) : Masking :=
  let c := m.running
  let i := if i.inside c then i else i.enter
  if m.status l = .locked then
    { i with inside := update i.inside c true }.switchTo c .ret (m.threads.tasks.zombie ≠ 0) next
  else { i.leave with inside := update i.inside c false }

/-- What an act of the running thread does to the flag, with the thread that runs afterwards. -/
def act (i : Masking) (m : KernelRun L κ) (next : Nat) : Act κ → Masking
  | .acquire l => i.acquire m l next
  | .enterHeap _ => i.acquire m .kpool next
  | .release _ | .signal _ => i.pass
  | .wait _ =>
    { i.enter with inside := update i.inside m.running true }.switchTo m.running .ret
      (m.threads.tasks.zombie ≠ 0) next
  | .directSchedulerEntry | .spin | .r0ExitNoZombie =>
    { i with flag := false }.switchTo m.running (.iret i.flag) (m.threads.tasks.zombie ≠ 0) next
  | .r3Exit => i.switchTo m.running .ret (m.threads.tasks.zombie ≠ 0) next
  | .setFrame c =>
    -- a new thread starts at a trampoline
    { i with
      resume := update i.resume c.tcb (.iret true)
      inside := update i.inside c.tcb false
      frames := update i.frames c.tcb [] }
  | .useHeap _ | .threadReapDelayed _ | .work _ | .writeId _ | .clearTcb _ | .setDirectory _ | .setStack _
  | .linkNew _ | .linkLast _ | .linkFirst _ => i

def after (i : Masking) (m : KernelRun L κ) (next : Nat) : KernelEvent κ → Masking
  | .call _ => i
  | .proceed _ => match m.code m.running with
    | [] => i
    | act :: _ => i.act m next act
  | .timer _ => { i with flag := false }.switchTo m.running (.iret i.flag) (m.threads.tasks.zombie ≠ 0) next

end Masking

structure MaskedRun (L : Layout) (κ : Type) where
  kernel : KernelRun L κ
  masking : Masking

/-- What happens: an event of the kernel, the `sti` of `kernel_main`, a system call through its gate
and its `iret`, and the `leave_critical` behind a wait. -/
inductive MaskedEvent (κ : Type) where
  | kernel (event : KernelEvent κ)
  | sti
  | trap
  | iret
  | leave

def Act.Retries {κ : Type} : Act κ → Prop
  | .acquire _ | .enterHeap _ => True
  | _ => False

instance {κ : Type} : ∀ act : Act κ, Decidable act.Retries
  | .acquire _ | .enterHeap _ => isTrue trivial
  | .release _ | .useHeap _ | .wait _ | .signal _ | .directSchedulerEntry | .spin | .r3Exit | .r0ExitNoZombie
  | .threadReapDelayed _ | .work _ | .writeId _ | .clearTcb _ | .setDirectory _ | .setStack _ | .setFrame _
  | .linkNew _ | .linkLast _ | .linkFirst _ => isFalse id

namespace MaskedRun

variable {L : Layout} {κ : Type} {s t : MaskedRun L κ}

/-- The running thread has come back from `block` and is still in its section. -/
def Inside (s : MaskedRun L κ) : Prop := s.masking.inside s.kernel.running = true

instance (s : MaskedRun L κ) : Decidable s.Inside := inferInstanceAs (Decidable (_ = _))

variable [DecidableEq κ]

def perform (fuel : Nat) (s : MaskedRun L κ) : MaskedEvent κ → Option (Option (MaskedRun L κ))
  | .kernel event => (s.kernel.perform fuel event).map (Option.map (fun m =>
      ⟨m,s.masking.after s.kernel m.running event⟩))
  | .sti => some (some { s with masking := { s.masking with flag := true } })
  | .trap =>
    let c := s.kernel.running
    some (some { s with masking := { s.masking with
      flag := false
      frames := update s.masking.frames c (s.masking.flag :: s.masking.frames c) } })
  | .iret =>
    let c := s.kernel.running
    some (some { s with masking := { s.masking with
      flag := (s.masking.frames c).headD false
      frames := update s.masking.frames c (s.masking.frames c).tail } })
  | .leave => some (some { s with masking := { s.masking.leave with
      inside := update s.masking.inside s.kernel.running false } })

/-- The timer is taken with the flag set. A thread in a section it has waited in first goes on with
the `acquire` it waited for, or leaves the section. -/
def Permitted (s : MaskedRun L κ) : MaskedEvent κ → Prop
  | .kernel (.timer esp) => s.kernel.Permitted (.timer esp) ∧ s.masking.flag = true
  | .kernel (.proceed input) => s.kernel.Permitted (.proceed input) ∧
      (s.Inside → ∃ act ∈ (s.kernel.code s.kernel.running).head?, act.Retries)
  | .kernel (.call routine) => s.kernel.Permitted (.call routine) ∧ ¬s.Inside
  | .sti => ¬s.Inside
  | .trap => s.kernel.code s.kernel.running = [] ∧ ¬s.Inside
  | .iret => s.kernel.code s.kernel.running = [] ∧ ¬s.Inside ∧ s.masking.frames s.kernel.running ≠ []
  | .leave => s.Inside ∧ ∀ act ∈ (s.kernel.code s.kernel.running).head?, ¬act.Retries

def Step (s t : MaskedRun L κ) : Prop :=
  ∃ event fuel, s.Permitted event ∧ s.perform fuel event = some (some t)

def Boot (s : MaskedRun L κ) : Prop :=
  s.kernel.Boot ∧ s.masking.flag = false ∧ s.masking.criticalDepth = 0 ∧ s.masking.inside s.kernel.running = false

omit [DecidableEq κ] in
theorem Permitted.kernel {event : KernelEvent κ} (permitted : s.Permitted (.kernel event)) :
    s.kernel.Permitted event := by
  cases event <;> exact permitted.1

/-- The flag only takes runs away. -/
theorem step_kernel (step : s.Step t) : t.kernel = s.kernel ∨ s.kernel.Step t.kernel := by
  obtain ⟨event,fuel,permitted,done⟩ := step
  cases event with
  | kernel event =>
    obtain ⟨outcome,performed,returned⟩ := Option.map_eq_some_iff.mp done
    obtain ⟨m,rfl,rfl⟩ := Option.map_eq_some_iff.mp returned
    exact .inr ⟨event,fuel,permitted.kernel,performed⟩
  | sti | trap | iret | leave =>
    obtain rfl := Option.some.inj (Option.some.inj done)
    exact .inl rfl

theorem reached_kernel (reached : Reach Boot Step s) : Reach KernelRun.Boot KernelRun.Step s.kernel := by
  refine reached.invariant (fun s => Reach KernelRun.Boot KernelRun.Step s.kernel) (fun s boot => .start boot.1) ?_
  intro s t before step
  rcases step_kernel step with same | moved
  · rwa [same]
  · exact before.advance moved

instance (s : MaskedRun L κ) : ∀ event, Decidable (s.Permitted event)
  | .kernel (.timer _) | .kernel (.proceed _) | .kernel (.call _) => inferInstanceAs (Decidable (_ ∧ _))
  | .sti => inferInstanceAs (Decidable (¬_))
  | .trap | .iret => inferInstanceAs (Decidable (_ ∧ _))
  | .leave => inferInstanceAs (Decidable (_ ∧ ∀ act ∈ (s.kernel.code s.kernel.running).head?, _))

def performAll (fuel : Nat) : List (MaskedEvent κ) → MaskedRun L κ → Option (MaskedRun L κ)
  | [], s => some s
  | event :: events, s =>
    if s.Permitted event then (s.perform fuel event).join.bind (performAll fuel events) else none

theorem performAll_reach {events : List (MaskedEvent κ)} {fuel : Nat} (done : performAll fuel events s = some t)
    (reached : Reach Boot Step s) : Reach Boot Step t := by
  induction events generalizing s with
  | nil => cases done; exact reached
  | cons event events ih =>
    rw [performAll] at done
    split at done
    · rename_i permitted
      obtain ⟨middle,one,later⟩ := Option.bind_eq_some_iff.mp done
      exact ih later (reached.advance ⟨event,fuel,permitted,Option.join_eq_some_iff.mp one⟩)
    · contradiction

noncomputable def booted : MaskedRun Kernel.sampleLayout Unit :=
  ⟨KernelRun.booted,⟨false,0,false,fun _ => .iret true,fun _ => false,fun _ => []⟩⟩

end MaskedRun

end RudimentaryKernel
