import RudimentaryKernel.TrapFrames

/-! From a user program into the kernel and back: the timer, the system call and the keyboard, from
the interrupt descriptor table to the `iret`. -/
namespace RudimentaryKernel

open Function ByteMemory X86

namespace SwitchRun

variable {ι : Type}

/-- `keyboard_handler_c`, when the data port gives this scancode. -/
def keyboardHandlerC (scancode : Byte) (scratch : Scratch) (s : SwitchRun ι) : SwitchRun ι :=
  { s.functionReturn 0 { scratch with ports := [(0x20,0x20)] } with
    world := { s.world with keyboard := s.world.keyboard.handler scancode } }

end SwitchRun

def TrapImage.compiled {ι : Type} (k : TrapImage) (scancode : Byte) (scratch : SwitchRun ι → Scratch)
    (s : SwitchRun ι) : Option (SwitchRun ι) :=
  if s.core.eip = k.keyboardHandlerC then some (s.keyboardHandlerC scancode (scratch s)) else none

namespace SwitchRun

variable {ι : Type} {s : SwitchRun ι}

/-- `mov $0x20, %al` and `out %al, $0x20`: the end of an interrupt for the first controller. -/
theorem endOfInterrupt_ports (s : SwitchRun ι) :
    (Op.applyAll [.movAl 0x20,.out 0x20] s).ports = s.ports ++ [(0x20,0x20)] := by
  have low : ∀ w : Dword, ((w &&& 0xFFFFFF00) ||| (0x20 : BitVec 8).setWidth 32).setWidth 8 = (0x20 : BitVec 8) := by
    intro w
    have none : (0xFFFFFF00 : Dword).setWidth 8 = (0 : BitVec 8) := by decide
    rw [BitVec.setWidth_or,BitVec.setWidth_and,none]
    exact (congrArg (· ||| _) BitVec.and_zero).trans (by decide)
  change s.ports ++ [(0x20,((s.core.reg .eax &&& 0xFFFFFF00) ||| (0x20 : BitVec 8).setWidth 32).setWidth 8)] = _
  rw [low]

variable [DecidableEq ι]

/-- A thread in the kernel or outside that the timer interrupts does not notice: when the scheduler
comes back to it, whatever the other threads did in the meantime, the handler returns to the next
instruction with every register and the flags as they were, and in the kernel with its stack. The
handler has told the first controller the end of the interrupt before it calls the scheduler. -/
theorem preemption_invisible (k : TrapImage) (b : Nat) (s : SwitchRun ι)
    (reached : Reach (BootedBy b) (Step k.image) s) (room : s.TrapRoom b 112)
    (enabled : s.core.eflags &&& interruptFlag ≠ 0) :
    ∃ e c next, s.interrupt k .hardware 32 none = .entered e ∧
      (∀ external cr2, e.trapSteps external cr2 k.traps 3 = some c) ∧ s.Computes c [(0x20,0x20)] ∧ c.core.ring = 0 ∧
      HasRoom c ∧ k.image.code c.core.eip = some (.call k.image.schedulerEntry,next) ∧
      ∀ w, Away k.image c w → w.current = s.current → ∀ external cr2, ∃ f,
        w.trapSteps external cr2 k.traps 2 = some f ∧ s.Continues f ∧ f.world = w.world ∧ f.ports = w.ports ∧
        ∀ b, s.trapBase ≤ b → b < (s.world.stack s.current).high → f.memory b = s.memory b := by
  obtain ⟨sound,stacked⟩ := reached_stacked reached
  obtain ⟨last,listing⟩ := k.timer_holds
  obtain ⟨e,p,x,delivered,trapped,low,size,high,saving,computes,saved,_,_,listing⟩ :=
    interrupt_saves k sound stacked room (by decide) none (by decide) .hardware (v := 32) (fun held => enabled held.2)
      (fun refused => nomatch refused.1) listing
  obtain ⟨atCall,⟨next,call,rest⟩,run⟩ := listing.ops
  have acknowledged := fun external cr2 => run external cr2 x rfl
  have ports := endOfInterrupt_ports x
  generalize made : (Op.applyAll [.movAl 0x20,.out 0x20] x).jump atCall = c at acknowledged
  have esp : c.esp = p.esp := by rw [← made,← saved.pointer]; rfl
  have memory : c.memory = x.memory := by rw [← made]; rfl
  have seg : c.core.seg = x.core.seg := by rw [← made]; rfl
  have world : c.world = x.world := by rw [← made]; rfl
  have eip : c.core.eip = atCall := by rw [← made]; rfl
  have written : c.ports = x.ports ++ [(0x20,0x20)] := by rw [← made]; exact ports
  rw [← eip] at call
  have later : Saved k.image s p 0 c := saved.registers memory world written (by rw [esp]; rfl) seg
  refine ⟨e,c,next,delivered,?_,computes.trans (computes_registers memory world written),later.ring,?_,?_,?_⟩
  · intro external cr2
    refine (trapSteps_add 1 2 e).trans ?_
    rw [saving,Option.bind_some]
    exact acknowledged external cr2
  · change _ ≤ p.esp.toNat + 52 + 0 at low
    rw [HasRoom,later.runner,later.stack,esp]
    omega
  · rw [k.image_plain]
    exact plain_eq_some.mpr call
  · intro w away back external cr2
    obtain ⟨sound',_,_,stack,resumes⟩ := away.resumes later.sound
    rw [later.runner] at stack resumes
    obtain ⟨ring,next',called,behind,reg,segs,above⟩ := resumes back
    have stack := stack.trans later.stack
    rw [back,stack,show c.core.reg .esp = p.esp from esp] at above
    have found : next' = next := by
      rw [k.image_plain] at called
      have twice := (plain_eq_some.mp called).symm.trans call
      exact (Prod.mk.inj (Option.some.inj twice)).2
    rw [← found,← behind] at rest
    have resumed : Saved k.image s p 0 w := by
      refine ⟨sound',back,stack,?_,ring,?_,?_⟩
      · rw [show w.esp = p.esp from (congrFun reg .esp).trans esp]
        rfl
      · intro g data
        rw [segs g data,later.seg g data]
      · intro b low inside
        rw [above b low inside,later.same b low inside]
    obtain ⟨f,run,continues,memory',world',ports'⟩ := resumed.returns trapped high rest external cr2
    refine ⟨f,run,continues,world',ports',?_⟩
    intro b low inside
    rw [memory',resumed.same b (by omega) inside]
    exact trapped.kept b (.inr low)

/-- A system call, from outside the kernel or inside. The handler finds the registers as its arguments. However
long it takes, and whoever runs in the meantime, once it returns the program goes on behind its
call with every register but `eax` as it was, and the result in `eax`. -/
theorem system_call_returns (k : TrapImage) (b : Nat) (s : SwitchRun ι)
    (reached : Reach (BootedBy b) (Step k.image) s) (room : s.TrapRoom b 80) :
    ∃ e h, s.interrupt k .software syscallVector none = .entered e ∧
      (∀ external cr2, e.trapSteps external cr2 k.traps 8 = some h) ∧ s.Computes h [] ∧
      h.core.eip = k.syscallHandler ∧ h.core.ring = 0 ∧ h.core.eflags &&& interruptFlag = 0 ∧
      Words h.memory (h.esp + 4) ([Reg.eax,.ebx,.ecx,.edx,.esi,.edi].map (fun r => (s.core.reg r).toNat)) ∧
      ∀ w, Relation.ReflTransGen (Spares k.image s.current (h.esp.toNat + 28)) h w → Returned h w →
        ∀ external cr2, ∃ f, w.trapSteps external cr2 k.traps 4 = some f ∧
          Continues (s.setReg .eax (w.core.reg .eax)) f ∧ f.world = w.world ∧ f.ports = w.ports := by
  obtain ⟨sound,stacked⟩ := reached_stacked reached
  obtain ⟨e,p,x,delivered,trapped,low,size,high,saving,computes,saved,reg,flags,listing⟩ :=
    interrupt_saves k sound stacked room (by decide) none (by decide) .software (v := syscallVector)
      (fun held => nomatch held.1) (fun refused => refused.2.2 rfl) k.syscallEntry_holds
  change _ ≤ p.esp.toNat + 52 + 0 at low
  have pushed : Pushed x (Op.applyAll Listing.syscallPushes x)
      ([Reg.eax,.ebx,.ecx,.edx,.esi,.edi].map (fun r => (x.core.reg r).toNat)) := by
    refine (Pushed.refl x).pushAll ([Reg.edi,.esi,.edx,.ecx,.ebx,.eax].map (fun r => (x.core.reg r).toNat)) ?_ ?_
    · rw [saved.pointer,List.length_map]
      change 4 * 6 ≤ _
      omega
    · intro v member
      obtain ⟨r,_,rfl⟩ := List.mem_map.mp member
      exact BitVec.isLt _
  have registers : [Reg.eax,.ebx,.ecx,.edx,.esi,.edi].map (fun r => (x.core.reg r).toNat) =
      [Reg.eax,.ebx,.ecx,.edx,.esi,.edi].map (fun r => (s.core.reg r).toNat) := by
    refine List.map_congr_left (fun r member => ?_)
    have other : r ≠ .esp := by
      rintro rfl
      simp at member
    rw [reg,trapped.reg r other]
  rw [registers] at pushed
  obtain ⟨h,called,computes',eip,ring,flags',arguments,deep,back⟩ := saved.calls (by
    rw [List.length_map]
    change _ + 0 + 4 * 6 + 4 ≤ _
    omega) (by omega) pushed listing
  rw [List.length_map] at deep
  change _ + 4 + 4 * 6 + 0 = _ at deep
  refine ⟨e,h,delivered,?_,computes.trans computes',eip,ring,?_,arguments,?_⟩
  · intro external cr2
    refine (trapSteps_add 1 7 e).trans ?_
    rw [saving,Option.bind_some]
    exact called external cr2
  · rw [flags',flags,trapped.flags,gateFlags,interruptFlag,BitVec.and_assoc]
    exact BitVec.and_zero
  · intro w run returned external cr2
    rw [show h.esp.toNat + 28 = p.esp.toNat by omega] at run
    obtain ⟨saved',rest⟩ := back w run returned
    exact saved'.answers trapped high rest external cr2

/-- A key is pressed while a thread runs, in the kernel or outside. `keyboard_handler_c` puts it into
the ring and tells the first controller the end of the interrupt, and the thread goes on as if nothing
had happened: its registers and flags are as they were, and so is all memory but what lies below its
own stack pointer in the kernel. -/
theorem keyboard_interrupt_returns (k : TrapImage) (b : Nat) (s : SwitchRun ι)
    (reached : Reach (BootedBy b) (Step k.image) s) (room : s.TrapRoom b 56)
    (enabled : s.core.eflags &&& interruptFlag ≠ 0) (scancode : Byte) (scratch : SwitchRun ι → Scratch) (cr2 : Dword) :
    ∃ e f, s.interrupt k .hardware 33 none = .entered e ∧ e.core.eflags &&& interruptFlag = 0 ∧
      e.trapSteps (k.compiled scancode scratch) cr2 k.traps 5 = some f ∧ s.Continues f ∧
      f.world = { s.world with keyboard := s.world.keyboard.handler scancode } ∧ f.ports = s.ports ++ [(0x20,0x20)] ∧
      ∀ b, b < (s.world.stack s.current).low ∨ s.trapBase ≤ b → f.memory b = s.memory b := by
  obtain ⟨sound,stacked⟩ := reached_stacked reached
  obtain ⟨e,p,x,delivered,trapped,low,size,high,saving,computes,saved,_,flags,listing⟩ :=
    interrupt_saves k sound stacked room (by decide) none (by decide) .hardware (v := 33) (fun held => enabled held.2)
      (fun refused => nomatch refused.1) k.keyboardHandler_holds
  change _ ≤ p.esp.toNat + 52 + 0 at low
  have nothing : Pushed x (Op.applyAll [] x) [] := Pushed.refl x
  have listing : TrapHolds k.traps x.core.eip (([] : List Op).map (fun o => .base (.op o)) ++
    .base (.call k.keyboardHandlerC) :: [.base (.op .popa),.base .iret]) _ := listing
  obtain ⟨h,called,computes',eip,ring,flags',_,deep,back⟩ :=
    saved.calls (by change _ + 0 + 0 + 4 ≤ _; omega) (by omega) nothing listing
  change _ + 4 + 0 + 0 = _ at deep
  have whole := computes.trans computes'
  have runner : current h = s.current := whole.current
  have stack : h.world.stack (current h) = s.world.stack s.current := by rw [whole.world,runner]
  have sound' := works_sound sound (whole.works sound)
  obtain ⟨saved',rest⟩ := back (keyboardHandlerC scancode (scratch h) h) (.single (by
    rw [← runner]
    exact functionReturn_spares sound' _ (by omega) (by rw [stack]; omega))) (functionReturn_returned ring _)
  obtain ⟨f,run,continues,memory,world,ports⟩ := saved'.returns trapped high rest (k.compiled scancode scratch) cr2
  refine ⟨e,f,delivered,?_,?_,continues,?_,?_,?_⟩
  · exact entered_off delivered
  · refine (trapSteps_add 1 4 e).trans ?_
    rw [saving,Option.bind_some]
    refine (trapSteps_add 1 3 x).trans ?_
    rw [show x.trapSteps _ cr2 k.traps 1 = some h from called ..,Option.bind_some]
    refine (trapSteps_add 1 2 h).trans ?_
    rw [function_step k.keyboardHandlerC_holds eip,TrapImage.compiled,if_pos eip,Option.bind_some]
    exact run
  · rw [world]
    change { h.world with keyboard := h.world.keyboard.handler scancode } = _
    rw [whole.world]
  · rw [ports]
    change h.ports ++ [(0x20,0x20)] = _
    rw [whole.ports,List.append_assoc]
    rfl
  · intro b outside
    rw [memory]
    by_cases above : s.trapBase ≤ b ∧ b < (s.world.stack s.current).high
    · rw [saved'.same b (by omega) above.2]
      exact trapped.kept b (.inr above.1)
    · exact (functionReturn_memory (by rw [stack]; omega)).trans (whole.outside b (by omega))

def sampleListing : List TrapInstr :=
  (Listing.schedulerEntry 15 ++ [Instr.foreign] ++ Listing.directSchedulerEntry 0 ++ Listing.timerHandler 0 ++
    Listing.kthreadTrampoline ++ Listing.uthreadTrampoline ++ [Instr.call 0]).map .base ++ Listing.syscallEntry 200 ++
    Listing.keyboardHandler 60 ++ [.base .foreign]

def sampleTraps (more : List TrapInstr) : TrapImage where
  image :=
    { code := (trapFlat (sampleListing ++ more)).plain
      schedulerEntry := 0
      scheduler := 15
      directSchedulerEntry := 16
      timerHandler := 22
      kthreadTrampoline := 28
      uthreadTrampoline := 32
      r0Exit := 100
      callExit := 101
      schedulerEntry_holds := (holds_trapFlat (by decide) ⟨_,rfl⟩).plain
      scheduler_holds := (holds_trapFlat (by decide) ⟨_,rfl⟩).plain
      directSchedulerEntry_holds := (holds_trapFlat (by decide) ⟨_,rfl⟩).plain
      timerHandler_holds := (holds_trapFlat (by decide) ⟨_,rfl⟩).plain
      kthreadTrampoline_holds := (holds_trapFlat (by decide) ⟨_,rfl⟩).plain
      uthreadTrampoline_holds := (holds_trapFlat (by decide) ⟨_,rfl⟩).plain }
  traps := trapFlat (sampleListing ++ more)
  address
    | .timer => 22
    | .keyboard => 56
    | .syscallEntry => 44
    | .pageFault => 71
    | .defaultInterrupt => 92
    | _ => 61
  tss := 0x9000
  idt := fun _ => ⟨0,0,0,0,0⟩
  keyboardHandlerC := 60
  syscallHandler := 200
  afterKeyboard := 60
  afterSyscall := 56
  afterKeyboardC := 61
  image_plain := rfl
  timer_address := rfl
  keyboardHandler_holds := holds_trapFlat (by decide) ⟨_,rfl⟩
  syscallEntry_holds := holds_trapFlat (by decide) ⟨_,rfl⟩
  keyboardHandlerC_holds := holds_trapFlat (by decide) ⟨_,rfl⟩

def userCore : Core := ⟨fun _ => 0,fun _ => 0x1B,0x5000,0x202⟩

/-- The boot thread has made a user thread and has given it the processor; memory behind the stacks
is `texts`. -/
structure UserRuns (more : List TrapInstr) (texts : Memory) (s : SwitchRun Unit) : Prop where
  reached : Reach (BootedBy 100) (Step (sampleTraps more).image) s
  current : s.current = 300
  core : s.core = userCore
  stack : s.world.stack 100 = ⟨0x1000,0x3000⟩ ∧ s.world.stack 300 = ⟨0xb000,0xd000⟩
  switches : ∀ e, ∃ later, s.world.threads.perform 0 (switchOp none e) = some (some later) ∧
    later.tasks.currentRunning = 100 ∧ later.alive = [300,100] ∧
    ∀ e', ∃ last, later.perform 0 (switchOp none e') = some (some last) ∧ last.tasks.currentRunning = 300
  exits : s.world.threads.tasks.zombie = 0 ∧ s.world.threads.tasks.next 300 ≠ 300
  memory : ∀ b, 0x20000 ≤ b → s.memory b = texts b

def userGrants : Grants := ⟨300,2,0x6000,0xb000,0xe000⟩

def userThreads : TaskRun Unit := ⟨(TaskRun.booted.tasks.threadCreate true userGrants).1,[300,100]⟩

theorem userThreads_switch (e : Nat) : ∃ later, userThreads.perform 0 (switchOp none e) = some (some later) ∧
    later.tasks.currentRunning = 300 ∧ later.alive = [300,100] ∧
    (later.tasks.zombie = 0 ∧ later.tasks.next 300 ≠ 300) ∧
    ∀ e, ∃ third, later.perform 0 (switchOp none e) = some (some third) ∧
      third.tasks.currentRunning = 100 ∧ third.alive = [300,100] ∧
      ∀ e', ∃ last, third.perform 0 (switchOp none e') = some (some last) ∧ last.tasks.currentRunning = 300 :=
  ⟨_,rfl,rfl,rfl,⟨rfl,show 100 ≠ 300 by decide⟩,fun _ => ⟨_,rfl,rfl,rfl,fun _ => ⟨_,rfl,rfl⟩⟩⟩

theorem user_runs (more : List TrapInstr) (texts : Memory) : ∃ s, UserRuns more texts s := by
  have booted : TaskRun.Boot TaskRun.booted := ⟨by decide,rfl,rfl,rfl,rfl,fun _ => rfl⟩
  have permitted : TaskRun.booted.Permitted (.create true userGrants) := by decide
  let first : SwitchRun Unit := ⟨⟨fun _ => 0x3000,fun _ => 0x10,43,0⟩,fun _ => 0,
    ⟨TaskRun.booted,fun _ => ⟨0x1000,0x3000⟩,fun _ => 0,fun _ => none,⟨fun _ => 0,0,0⟩⟩,[]⟩
  have boot : BootedBy 100 first := ⟨⟨booted,show 0x3000 < 2^32 by decide⟩,rfl⟩
  have created : ∃ s : SwitchRun Unit, first.Creates (sampleTraps more).image s ∧ s.core = first.core ∧
      s.world.threads = userThreads ∧
      s.world.stack 100 = ⟨0x1000,0x3000⟩ ∧ s.world.stack 300 = ⟨0xb000,0xd000⟩ := by
    refine ⟨_,⟨true,userGrants,0x5000,userThreads,permitted,rfl,?_,rfl⟩,
      rfl,rfl,rfl,rfl⟩
    intro _
    exact ⟨by decide,fun _ _ => .inl (show 0x3000 ≤ 0xb000 by decide),
      fun _ => ⟨by decide,fun _ _ => .inl (show 0x3000 ≤ 0xe000 by decide)⟩⟩
  obtain ⟨s,made,core,threads,stack,stack'⟩ := created
  have esp : s.esp = 0x3000 := by
    change s.core.reg .esp = _
    rw [core]
  have runner : s.current = 100 := by
    unfold SwitchRun.current
    rw [threads]
    rfl
  obtain ⟨later,performed,current,alive,exits,switches⟩ := userThreads_switch (s.esp.toNat - 52)
  rw [← threads] at performed
  have fetched : (sampleTraps more).image.code s.core.eip = some (.call (sampleTraps more).image.schedulerEntry,44) := by
    rw [core]
    rfl
  obtain ⟨t,switched,world⟩ := switch_to (by rw [core]; decide) (by rw [HasRoom,runner,stack,esp]; decide) fetched performed
  have running : t.current = 300 := by
    unfold SwitchRun.current
    rw [world]
    exact current
  refine ⟨_,((Reach.start boot).advance (.inr (.inr (.inl made)))).advance (.inr (.inr (.inr switched))) |>.advance
    (.inl ⟨userCore,texts,t.world.keyboard,[],rfl⟩),running,rfl,?_,?_,?_,?_⟩
  · dsimp only
    rw [world]
    exact ⟨stack,stack'⟩
  · dsimp only
    rw [world]
    exact switches
  · dsimp only
    rw [world]
    exact exits
  · intro b above
    -- the one other thread needs nothing behind its stack
    refine if_neg ?_
    rw [List.any_eq_true]
    rintro ⟨u,member,need⟩
    rw [running] at need
    simp only [Suspensions.needs,bne_iff_ne,ne_eq,Bool.and_eq_true,decide_eq_true_eq] at need
    rw [world] at member need
    dsimp only at member need
    rw [alive] at member
    obtain rfl : u = 100 := by
      simpa [need.1] using member
    rw [stack] at need
    have below : b < 0x3000 := need.2.2
    omega

variable {more : List TrapInstr} {texts : Memory} {s : SwitchRun Unit}

theorem UserRuns.ring (user : UserRuns more texts s) : s.core.ring = 3 := by
  rw [user.core]
  decide

theorem UserRuns.enabled (user : UserRuns more texts s) : s.core.eflags &&& interruptFlag ≠ 0 := by
  rw [user.core]
  decide

theorem UserRuns.room (user : UserRuns more texts s) (n : Nat) : s.TrapRoom 100 n := by
  rw [TrapRoom,user.ring,if_neg (by decide),user.current]
  decide

/-- The timer interrupts a user thread, the boot thread runs and yields, and the user thread goes on. -/
theorem user_thread_preempted : ∃ s : SwitchRun Unit, s.core.ring = 3 ∧ ∃ e c w f,
    s.interrupt (sampleTraps []) .hardware 32 none = .entered e ∧
    (∀ external cr2, e.trapSteps external cr2 (sampleTraps []).traps 3 = some c) ∧
    Away (sampleTraps []).image c w ∧ w.trapSteps (fun _ => none) 0 (sampleTraps []).traps 2 = some f ∧ s.Continues f := by
  obtain ⟨s,user⟩ := user_runs [] (fun _ => 0)
  obtain ⟨e,c,next,delivered,run,computes,ring,room,fetched,back⟩ :=
    preemption_invisible (sampleTraps []) 100 s user.reached (user.room 112) user.enabled
  have runner : current c = 300 := computes.current.trans user.current
  obtain ⟨later,performed,current',survives,again⟩ := user.switches (c.esp.toNat - 52)
  rw [← computes.world] at performed
  obtain ⟨t,switched,world⟩ := switch_to ring room fetched performed
  have running : t.current = 100 := by
    unfold SwitchRun.current
    rw [world]
    exact current'
  -- the boot thread is at a call of `scheduler_entry`, too
  let yielding : Core := ⟨fun _ => 0x3000,fun _ => 0x08,43,0⟩
  have works : t.Works _ := ⟨yielding,t.memory,t.world.keyboard,[],rfl⟩
  generalize made : (⟨yielding,_,_,_⟩ : SwitchRun Unit) = v at works
  have same : v.world = t.world := by rw [← made]
  have core : v.core = yielding := by rw [← made]
  have esp : v.esp = 0x3000 := by rw [Machine.esp,core]
  have running' : current v = 100 := by
    unfold SwitchRun.current
    rw [same]
    exact running
  have room' : HasRoom v := by
    rw [HasRoom,running',same,world]
    dsimp only
    rw [computes.world,user.stack.1,esp]
    decide
  have call : (sampleTraps []).image.code v.core.eip = some (.call (sampleTraps []).image.schedulerEntry,44) := by
    rw [core]
    rfl
  obtain ⟨last,performed',home⟩ := again (v.esp.toNat - 52)
  have performed' : v.world.threads.perform 0 (switchOp none (v.esp.toNat - 52)) = some (some last) := by
    rw [same,world]
    exact performed'
  obtain ⟨w,switched',world'⟩ := switch_to (by rw [core]; decide) room' call performed'
  have survives : current c ∈ t.world.threads.alive := by
    rw [runner,world]
    dsimp only
    rw [survives]
    exact List.mem_cons_self
  have away : Away (sampleTraps []).image c w := by
    refine ((Away.left switched survives).passes ?_ (.inl works)).passes ?_ (.inr (.inr (.inr switched')))
    · rw [running,runner]
      decide
    · rw [running',runner]
      decide
  have resumed : w.current = s.current := by
    rw [user.current]
    unfold SwitchRun.current
    rw [world']
    exact home
  obtain ⟨f,finish,continues,_⟩ := back w away resumed (fun _ => none) 0
  exact ⟨s,user.ring,e,c,w,f,delivered,run,away,finish,continues⟩

/-- A user thread makes a system call, and the handler returns 7 at once. -/
theorem user_thread_calls : ∃ s : SwitchRun Unit, s.core.ring = 3 ∧ ∃ e h w f,
    s.interrupt (sampleTraps []) .software syscallVector none = .entered e ∧
    (∀ external cr2, e.trapSteps external cr2 (sampleTraps []).traps 8 = some h) ∧ h.core.eip = 200 ∧
    Returned h w ∧ w.core.reg .eax = 7 ∧ w.trapSteps (fun _ => none) 0 (sampleTraps []).traps 4 = some f ∧
    Continues (s.setReg .eax 7) f := by
  obtain ⟨s,user⟩ := user_runs [] (fun _ => 0)
  obtain ⟨e,h,delivered,run,computes,eip,ring,_,_,back⟩ :=
    system_call_returns (sampleTraps []) 100 s user.reached (user.room 80)
  obtain ⟨sound,_⟩ := reached_stacked user.reached
  have sound' : Sound (sampleTraps []).image h := works_sound sound (computes.works sound)
  have spares : Spares (sampleTraps []).image s.current (h.esp.toNat + 28) h (returned h ⟨7,0,0,0,h.memory,[]⟩) := by
    refine .inr ⟨computes.current,?_,.inl ⟨?_,fun _ _ _ => rfl⟩⟩
    · have alive := sound'.current_alive
      rw [computes.current] at alive
      exact alive
    · exact works_within sound' h.world.keyboard rfl (List.append_nil _).symm (fun _ _ => rfl)
  have returned : Returned h (returned h ⟨7,0,0,0,h.memory,[]⟩) := ⟨rfl,rfl,rfl,ring,fun _ _ => rfl⟩
  obtain ⟨f,finish,continues,_⟩ := back _ (.single spares) returned (fun _ => none) 0
  exact ⟨s,user.ring,e,h,_,f,delivered,run,eip,returned,rfl,finish,continues⟩

/-- The key `a` is pressed while a user thread runs. -/
theorem user_thread_typed_over : ∃ s f : SwitchRun Unit, s.core.ring = 3 ∧ s.Continues f ∧
    f.world.keyboard = s.world.keyboard.handler 0x1E ∧ f.ports = s.ports ++ [(0x20,0x20)] := by
  obtain ⟨s,user⟩ := user_runs [] (fun _ => 0)
  obtain ⟨e,f,_,_,_,continues,world,ports,_⟩ := keyboard_interrupt_returns (sampleTraps []) 100 s user.reached
    (user.room 56) user.enabled 0x1E (fun s => ⟨0,0,0,0,s.memory,[]⟩) 0
  exact ⟨s,f,user.ring,continues,by rw [world],ports⟩

end SwitchRun

end RudimentaryKernel
