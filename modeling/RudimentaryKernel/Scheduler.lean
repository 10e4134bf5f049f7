import RudimentaryKernel.NullList
import RudimentaryKernel.Target

/-! The round-robin scheduler of `scheduler.cpp` and the ring splice of
`thread_create`. Thread control blocks live in typed memory with one map per field,
indexed by address, with address 0 for `nullptr`. Wait queues are indexed by any
type. Calls are complete, `thread_create` with its ring splice among them (`ThreadSplicing`
cuts that one into its stores); `none` from the scheduler is `halt()`. -/
namespace RudimentaryKernel

open Function

inductive TaskState where
  | ready
  | running
  | blocked
  | exited
  | exitedNoZombie
  deriving DecidableEq, Repr

/-- Control blocks, the scheduler's own variables, and the heads of the wait queues. -/
structure Tasks (ι : Type) where
  tid : Nat → Nat
  state : Nat → TaskState
  stackBottom : Nat → Nat
  stackPointer : Nat → Nat
  pageDirectory : Nat → Nat
  next : Nat → Nat
  prev : Nat → Nat
  currentRunning : Nat
  zombie : Nat
  queue : ι → Nat
  esp0 : Nat
  cr3 : Nat
  freed : List Nat
  console : List Print

/-- What the allocators answer to one `thread_create`, with 0 for a refusal. -/
structure Grants where
  tcb : Nat
  tid : Nat
  pageDirectory : Nat
  stack : Nat
  frame : Nat

namespace Tasks

variable {ι : Type}

def stackSize : Nat := 0x2000

def switchFrameSize : Nat := 52

def kprintf (s : Tasks ι) (format : String) (arguments : List Nat) : Tasks ι :=
  { s with console := s.console ++ [⟨format,arguments,[]⟩] }

def freeKstack (s : Tasks ι) (t : Nat) : Tasks ι := { s with freed := s.freed ++ [s.stackBottom t] }

/-- `thread_reap`: the stack and the control block go back to the heap. -/
def threadReap (s : Tasks ι) (t : Nat) : Tasks ι :=
  let s := s.freeKstack t
  { s with freed := s.freed ++ [t] }

def popReadyQueue (s : Tasks ι) : Option (Tasks ι × Nat) :=
  if s.next s.currentRunning = s.currentRunning then none
  else
    let toRemove := s.currentRunning
    let s := { s with currentRunning := s.next s.currentRunning }
    let s := { s with next := update s.next (s.prev toRemove) (s.next toRemove) }
    let s := { s with prev := update s.prev (s.next toRemove) (s.prev toRemove) }
    let s := { s with next := update s.next toRemove 0 }
    let s := { s with prev := update s.prev toRemove 0 }
    some (s,toRemove)

/-- The head of `scheduler`: save the stack pointer, reap the previous exit. -/
def settle (s : Tasks ι) (oldEsp : Nat) : Tasks ι :=
  let s := { s with stackPointer := update s.stackPointer s.currentRunning oldEsp }
  if s.zombie ≠ 0 then { s.threadReap s.zombie with zombie := 0 } else s

/-- The switch of `scheduler` on the state of the running thread. -/
def choose (s : Tasks ι) : Option (Tasks ι) :=
  match s.state s.currentRunning with
  | .ready => some { s with currentRunning := s.next s.currentRunning }
  | .exitedNoZombie | .blocked => s.popReadyQueue.map Prod.fst
  | .exited => s.popReadyQueue.map (fun (s,removed) => { s with zombie := removed })
  | .running => some s

/-- The tail of `scheduler`: make the chosen thread the running one. -/
def dispatch (s : Tasks ι) : Tasks ι :=
  { s with
    state := update s.state s.currentRunning .ready
    esp0 := add32 (s.stackBottom s.currentRunning) stackSize
    cr3 := if s.pageDirectory s.currentRunning ≠ 0 then s.pageDirectory s.currentRunning else s.cr3 }

def scheduler (s : Tasks ι) (oldEsp : Nat) : Option (Tasks ι × Nat) :=
  (s.settle oldEsp).choose.map (fun s =>
    let s := s.dispatch
    (s,s.stackPointer s.currentRunning))

/-- The running thread's own state change in `r3_exit` and `thread_reap_delayed`. -/
def markExited (s : Tasks ι) : Tasks ι := { s with state := update s.state s.currentRunning .exited }

/-- The state change in `r0_exit_no_zombie`. -/
def markExitedNoZombie (s : Tasks ι) : Tasks ι :=
  { s with state := update s.state s.currentRunning .exitedNoZombie }

section Queues

variable [DecidableEq ι]

/-- The linking half of `block`: the running thread becomes the last of the queue. -/
def enqueue (fuel : Nat) (s : Tasks ι) (q : ι) : Option (Tasks ι) :=
  let s := { s with state := update s.state s.currentRunning .blocked }
  if s.queue q = 0 then some { s with queue := update s.queue q s.currentRunning }
  else (NullList.last s.next 0 fuel (s.queue q)).map (fun t =>
    { s with next := update s.next t s.currentRunning })

/-- `block`: the outer `none` is a walk out of fuel, the inner one is `halt()`. -/
def block (fuel : Nat) (s : Tasks ι) (q : ι) (oldEsp : Nat) : Option (Option (Tasks ι × Nat)) :=
  (s.enqueue fuel q).map (fun s => s.scheduler oldEsp)

def unblock (s : Tasks ι) (q : ι) : Tasks ι :=
  let s := if s.queue q = 0 then s.kprintf "ERROR: unblocking a nullpointer\n" [] else s
  let t := s.queue q
  let s := { s with queue := update s.queue q (s.next (s.queue q)) }
  let s := { s with state := update s.state t .ready }
  let s := { s with next := update s.next t (s.next s.currentRunning) }
  let s := { s with prev := update s.prev t s.currentRunning }
  let s := { s with prev := update s.prev (s.next s.currentRunning) t }
  { s with next := update s.next s.currentRunning t }

end Queues

/-- The end of `thread_create`: `t` goes in front of the running thread. -/
def splice (s : Tasks ι) (t : Nat) : Tasks ι :=
  if s.currentRunning ≠ 0 then
    let s := { s with next := update s.next t s.currentRunning }
    let s := { s with prev := update s.prev t (s.prev s.currentRunning) }
    let s := { s with next := update s.next (s.prev s.currentRunning) t }
    { s with prev := update s.prev s.currentRunning t }
  else
    { s with next := update s.next t t, prev := update s.prev t t, currentRunning := t }

/-- `thread_create` up to the ring, and what comes behind it when an allocator has refused or
when the thread is ready to be linked. The new thread's initial stack contents are not part of
the state. -/
def prepare {α : Type} (s : Tasks ι) (user : Bool) (grants : Grants) (refused granted : Tasks ι → α) : α :=
  let t := grants.tcb
  if grants.tid = allOnes then refused s
  else
    let s := { s with
      tid := update s.tid t grants.tid
      state := update s.state t .ready
      stackBottom := update s.stackBottom t 0
      stackPointer := update s.stackPointer t 0
      pageDirectory := update s.pageDirectory t grants.pageDirectory
      next := update s.next t 0
      prev := update s.prev t 0 }
    if grants.pageDirectory = 0 then refused (s.kprintf "ERROR: PAGE DIRECTORYn't\n" [])
    else
      let s := { s with
        stackBottom := update s.stackBottom t grants.stack
        stackPointer := update s.stackPointer t (add32 grants.stack stackSize) }
      if grants.stack = 0 then refused (s.kprintf "ERROR: OUT OF MEMORY\n" [])
      else if user ∧ grants.frame = 0 then
        refused ((s.kprintf "ERROR: OUT OF MEMORY\n" []).freeKstack t)
      else
        let top := if user then s.stackPointer t else sub32 (s.stackPointer t) 4
        granted { s with stackPointer := update s.stackPointer t (sub32 top switchFrameSize) }

def threadCreate (s : Tasks ι) (user : Bool) (grants : Grants) : Tasks ι × Nat :=
  s.prepare user grants (fun s => (s,0)) (fun s => (s.splice grants.tcb,grants.tcb))

end Tasks

inductive TaskOp (ι : Type) where
  | create (user : Bool) (grants : Grants)
  | switch (oldEsp : Nat)
  | block (q : ι) (oldEsp : Nat)
  | unblock (q : ι)
  | exit
  | exitNoZombie

/-- The threads together with the ones created and not yet gone. A thread is gone
when the scheduler has taken it off the ring in an exit state. -/
structure TaskRun (ι : Type) where
  tasks : Tasks ι
  alive : List Nat

namespace TaskRun

variable {ι : Type} [DecidableEq ι]

def remaining (r : TaskRun ι) : List Nat :=
  match r.tasks.state r.tasks.currentRunning with
  | .exited | .exitedNoZombie => r.alive.erase r.tasks.currentRunning
  | _ => r.alive

def perform (fuel : Nat) (r : TaskRun ι) : TaskOp ι → Option (Option (TaskRun ι))
  | .create user grants =>
    let (s,t) := r.tasks.threadCreate user grants
    some (some ⟨s,if t = 0 then r.alive else t :: r.alive⟩)
  | .switch oldEsp => some ((r.tasks.scheduler oldEsp).map (fun (s,_) => ⟨s,r.remaining⟩))
  | .block q oldEsp =>
    (r.tasks.block fuel q oldEsp).map (Option.map (fun (s,_) => ⟨s,r.alive⟩))
  | .unblock q => some (some ⟨r.tasks.unblock q,r.alive⟩)
  | .exit => some (some ⟨r.tasks.markExited,r.alive⟩)
  | .exitNoZombie => some (some ⟨r.tasks.markExitedNoZombie,r.alive⟩)

/-- A control block comes from memory no thread uses, and a heap that refuses it
refuses the larger stack too; only a queue with a thread in it is unblocked. -/
def Permitted (r : TaskRun ι) : TaskOp ι → Prop
  | .create _ grants => grants.tcb ∉ r.alive ∧ (grants.tcb = 0 → grants.stack = 0)
  | .unblock q => r.tasks.queue q ≠ 0
  | _ => True

instance (r : TaskRun ι) : ∀ op, Decidable (r.Permitted op)
  | .create _ _ => inferInstanceAs (Decidable (_ ∧ _))
  | .unblock _ => inferInstanceAs (Decidable (_ ≠ _))
  | .switch _ | .block _ _ | .exit | .exitNoZombie => isTrue trivial

def Leaves (r : TaskRun ι) : TaskOp ι → Prop
  | .block _ _ => True
  | .switch _ => r.tasks.state r.tasks.currentRunning = .exited ∨
      r.tasks.state r.tasks.currentRunning = .exitedNoZombie
  | _ => False

def Step (r t : TaskRun ι) : Prop :=
  ∃ op fuel, r.Permitted op ∧ r.perform fuel op = some (some t)

def performAll (fuel : Nat) : List (TaskOp ι) → TaskRun ι → Option (TaskRun ι)
  | [], r => some r
  | op :: ops, r => if r.Permitted op then (r.perform fuel op).join.bind (performAll fuel ops) else none

def Boot (r : TaskRun ι) : Prop :=
  r.tasks.currentRunning ≠ 0 ∧ r.alive = [r.tasks.currentRunning] ∧
  r.tasks.next r.tasks.currentRunning = r.tasks.currentRunning ∧
  r.tasks.prev r.tasks.currentRunning = r.tasks.currentRunning ∧
  r.tasks.state r.tasks.currentRunning = .ready ∧ ∀ q, r.tasks.queue q = 0

end TaskRun

end RudimentaryKernel
