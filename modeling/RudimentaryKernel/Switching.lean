import RudimentaryKernel.Keyboard
import RudimentaryKernel.Loader
import RudimentaryKernel.X86

/-! Context switches: the routines of `entry.S` as listings, the stack that `thread_create`
builds for a thread that never ran, and the machine they run on. Control blocks stay in the
typed memory of `Tasks`; stacks are bytes. `scheduler` and its callees are one foreign call
that may overwrite every byte no thread still needs. Switches run with interrupts off, one
after the other. -/
namespace RudimentaryKernel

open Function ByteMemory X86

structure SwitchFrame where
  gs : Dword
  fs : Dword
  es : Dword
  ds : Dword
  edi : Dword
  esi : Dword
  ebp : Dword
  espUnused : Dword
  ebx : Dword
  edx : Dword
  ecx : Dword
  eax : Dword
  returnEip : Dword

def SwitchFrame.words (f : SwitchFrame) : List Nat :=
  [f.gs,f.fs,f.es,f.ds,f.edi,f.esi,f.ebp,f.espUnused,f.ebx,f.edx,f.ecx,f.eax,f.returnEip].map
    BitVec.toNat

namespace Listing

def timerHandler (schedulerEntry : Dword) : List Instr :=
  [.op .pusha,.op (.movAl 0x20),.op (.out 0x20),.call schedulerEntry,.op .popa,.iret]

def save : List Op :=
  [.pusha,.pushSeg .ds,.pushSeg .es,.pushSeg .fs,.pushSeg .gs,.push .esp]

def restore : List Op :=
  [.add .esp 4,.mov .esp .eax,.popSeg .gs,.popSeg .fs,.popSeg .es,.popSeg .ds,.popa]

def schedulerEntry (scheduler : Dword) : List Instr :=
  save.map .op ++ [.call scheduler] ++ restore.map .op ++ [.ret]

def directSchedulerEntry (schedulerEntry : Dword) : List Instr :=
  [.op .pushFlags,.op (.pushSeg .cs),.op (.pushStack 8),.op .cli,.call schedulerEntry,.iret]

def kthreadTrampoline : List Instr :=
  [.op (.pushImm 0x202),.op (.pushImm 0x08),.op (.push .ebx),.iret]

def uthreadTrampoline : List Instr :=
  [.op (.pushImm 0x23),.op (.push .esi),.op (.pushImm 0x202),.op (.pushImm 0x1B),.op (.push .ebx),
    .op (.movAx 0x23),.op (.movSeg .ds),.op (.movSeg .es),.op (.movSeg .fs),.op (.movSeg .gs),.iret]

end Listing

/-- The kernel in memory: where the routines are, and that they are there. -/
structure KernelImage where
  code : Code
  schedulerEntry : Dword
  scheduler : Dword
  directSchedulerEntry : Dword
  timerHandler : Dword
  kthreadTrampoline : Dword
  uthreadTrampoline : Dword
  r0Exit : Dword
  callExit : Dword
  schedulerEntry_holds : Holds code schedulerEntry (Listing.schedulerEntry scheduler)
  scheduler_holds : Holds code scheduler [.foreign]
  directSchedulerEntry_holds : Holds code directSchedulerEntry (Listing.directSchedulerEntry schedulerEntry)
  timerHandler_holds : Holds code timerHandler (Listing.timerHandler schedulerEntry)
  kthreadTrampoline_holds : Holds code kthreadTrampoline Listing.kthreadTrampoline
  uthreadTrampoline_holds : Holds code uthreadTrampoline Listing.uthreadTrampoline

namespace KernelImage

def firstFrame (image : KernelImage) (user : Bool) (entry : Dword) (userSp : Nat) : SwitchFrame where
  gs := 0x10
  fs := 0x10
  es := 0x10
  ds := 0x10
  edi := 0
  esi := if user then BitVec.ofNat 32 userSp else 0
  ebp := 0
  espUnused := 0
  ebx := entry
  edx := 0
  ecx := 0
  eax := 0
  returnEip := if user then image.uthreadTrampoline else image.kthreadTrampoline

def startFrame (image : KernelImage) (first : FirstFrame) : SwitchFrame :=
  image.firstFrame first.user first.ebx first.esi.toNat

/-- The stack contents `thread_create` writes, with `user_stack.sp`. -/
def bootstrap (image : KernelImage) (m : Memory) (user : Bool) (grants : Grants) (entry : Dword) :
    Memory × Nat :=
  let top := add32 grants.stack Tasks.stackSize
  if user then
    let m := store m 4 (sub32 (add32 grants.frame pageSize) 4) image.callExit.toNat
    let userSp := Kernel.userStackPointer
    let physSp := add32 grants.frame (sub32 userSp userStackBase)
    let m := store m 4 physSp image.callExit.toNat
    let top := sub32 top Tasks.switchFrameSize
    (storeWords m (BitVec.ofNat 32 top) (image.firstFrame true entry userSp).words,userSp)
  else
    let top := sub32 top 4
    let m := store m 4 top image.r0Exit.toNat
    let top := sub32 top Tasks.switchFrameSize
    (storeWords m (BitVec.ofNat 32 top) (image.firstFrame false entry 0).words,0)

end KernelImage

structure Span where
  low : Nat
  high : Nat

def Span.Apart (one other : Span) : Prop := one.high ≤ other.low ∨ other.high ≤ one.low

/-- What a thread was doing when it last gave up the processor. -/
inductive Suspended where
  /-- at a call of `scheduler_entry`, with this processor and memory -/
  | called (core : Core) (memory : Memory)
  /-- nothing yet -/
  | created (user : Bool) (entry : Dword)

/-- The threads, where their stacks are, what each one was doing, and the keyboard's ring. -/
structure Suspensions (ι : Type) where
  threads : TaskRun ι
  stack : Nat → Span
  userSp : Nat → Nat
  suspended : Nat → Option Suspended
  keyboard : Keyboard

/-- The byte is on the stack of `u`, at its saved stack pointer or above. -/
def Suspensions.needs (w : Suspensions ι) (b u : Nat) : Bool :=
  w.threads.tasks.stackPointer u ≤ b && b < (w.stack u).high

/-- What is in the registers and the memory after a compiled function, and what it wrote to ports. -/
structure Scratch where
  /-- the result, or anything -/
  eax : Dword
  ecx : Dword
  edx : Dword
  eflags : Dword
  memory : Memory
  ports : List (BitVec 16 × BitVec 8)

/-- Bytes that are not needed have any value. -/
def overlay (needed : Nat → Bool) (m scratch : Memory) : Memory :=
  fun b => if needed b then m b else scratch b

abbrev SwitchRun (ι : Type) := Machine (Suspensions ι)

namespace SwitchRun

variable {ι : Type} [DecidableEq ι]

def current (s : SwitchRun ι) : Nat := s.world.threads.tasks.currentRunning

/-- The registers behind a compiled function, which keeps those of its caller. -/
def returned (s : SwitchRun ι) (scratch : Scratch) : SwitchRun ι :=
  (((s.drop.jump (BitVec.ofNat 32 s.top)).setReg .eax scratch.eax).setReg .ecx scratch.ecx).setReg .edx scratch.edx

/-- A call of `scheduler_entry`: with a queue, it is the one at the end of `block`. -/
def switchOp (q : Option ι) (oldEsp : Nat) : TaskOp ι :=
  match q with
  | none => .switch oldEsp
  | some q => .block q oldEsp

/-- `scheduler(old_esp)` as `scheduler_entry` calls it, with its result in `eax`. Nobody else holds
the locks that `thread_reap` takes to free what a zombie has left. -/
def schedulerCall (fuel : Nat) (q : Option ι) (scratch : Scratch) (s : SwitchRun ι) :
    Option (SwitchRun ι) :=
  let oldEsp := load s.memory 4 (s.esp + 4).toNat
  (s.world.threads.perform fuel (switchOp q oldEsp)).join.map (fun threads =>
    let world := { s.world with threads := threads }
    let tasks := threads.tasks
    let returned := s.returned { scratch with eax := BitVec.ofNat 32 (tasks.stackPointer tasks.currentRunning) }
    ⟨(returned.setFlags scratch.eflags).core,
      overlay (fun b => threads.alive.any (world.needs b)) s.memory scratch.memory,world,s.ports ++ scratch.ports⟩)

/-- The running thread executes anything that spares the stacks of the others. -/
def Works (s t : SwitchRun ι) : Prop :=
  ∃ (core : Core) (scratch : Memory) (keyboard : Keyboard) (written : List (BitVec 16 × BitVec 8)),
    t = ⟨core,overlay (fun b => s.world.threads.alive.any (fun u => u != s.current && s.world.needs b u)) s.memory
      scratch,{ s.world with keyboard := keyboard },s.ports ++ written⟩

def Manages (s t : SwitchRun ι) : Prop :=
  ∃ op fuel threads, (op = .exit ∨ op = .exitNoZombie ∨ ∃ q, op = .unblock q) ∧
    s.world.threads.Permitted op ∧ s.world.threads.perform fuel op = some (some threads) ∧
    t = { s with world := { s.world with threads := threads } }

/-- The heap grants a stack, and for a user thread a frame, in memory of their own. -/
def Spacious (s : SwitchRun ι) (user : Bool) (grants : Grants) : Prop :=
  grants.stack + Tasks.stackSize < 2^32 ∧
  (∀ u ∈ s.world.threads.alive,
    (s.world.stack u).Apart ⟨grants.stack,grants.stack + Tasks.stackSize⟩) ∧
  (user → grants.frame + pageSize < 2^32 ∧
    (∀ u ∈ s.world.threads.alive,
      (s.world.stack u).Apart ⟨grants.frame,grants.frame + pageSize⟩))

def Creates (image : KernelImage) (s t : SwitchRun ι) : Prop :=
  ∃ user grants entry threads, s.world.threads.Permitted (.create user grants) ∧
    s.world.threads.perform 0 (.create user grants) = some (some threads) ∧
    ((s.world.threads.tasks.threadCreate user grants).2 ≠ 0 → s.Spacious user grants) ∧
    t = if (s.world.threads.tasks.threadCreate user grants).2 = 0 then
        { s with world := { s.world with threads := threads } }
      else
        let (memory,userSp) := image.bootstrap s.memory user grants entry
        { s with
          memory := memory
          world :=
            { threads := threads
              stack := update s.world.stack grants.tcb ⟨grants.stack,grants.stack + Tasks.stackSize⟩
              userSp := update s.world.userSp grants.tcb userSp
              suspended := update s.world.suspended grants.tcb (some (.created user entry))
              keyboard := s.world.keyboard } }

/-- The stack of the running thread has room for the frame, the argument of `scheduler`
and the address it returns to. -/
def HasRoom (s : SwitchRun ι) : Prop :=
  (s.world.stack s.current).low + 60 ≤ s.esp.toNat ∧ s.esp.toNat ≤ (s.world.stack s.current).high

/-- The running thread is at a call of `scheduler_entry`; the next thread is `t`'s when it
has returned from there. -/
def Switches (image : KernelImage) (s t : SwitchRun ι) : Prop :=
  ∃ fuel q scratch next u, s.core.ring = 0 ∧ s.HasRoom ∧
    image.code s.core.eip = some (.call image.schedulerEntry,next) ∧
    s.steps (schedulerCall fuel q scratch) image.code 17 = some u ∧
    t = { u with world := { u.world with
      suspended := update u.world.suspended s.current (some (.called s.core s.memory)) } }

def Step (image : KernelImage) (s t : SwitchRun ι) : Prop :=
  s.Works t ∨ s.Manages t ∨ s.Creates image t ∨ s.Switches image t

def Boot (s : SwitchRun ι) : Prop :=
  s.world.threads.Boot ∧ (s.world.stack s.current).high < 2^32

end SwitchRun

end RudimentaryKernel
