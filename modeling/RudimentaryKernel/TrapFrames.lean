import RudimentaryKernel.DescriptorTables
import RudimentaryKernel.RunningThread

/-! The way into a handler of the kernel and back: what the processor and `pusha` leave on the
stack of the running thread, and that it is still there for `popa` and `iret`, with any number of
switches to other threads in between. -/
namespace RudimentaryKernel

open Function ByteMemory X86

namespace Listing

def keyboardHandler (keyboardHandlerC : Dword) : List TrapInstr :=
  [.base (.op .pusha),.base (.call keyboardHandlerC),.base (.op .popa),.base .iret]

def syscallPushes : List Op := [.push .edi,.push .esi,.push .edx,.push .ecx,.push .ebx,.push .eax]

def syscallEntry (syscallHandler : Dword) : List TrapInstr :=
  .base (.op .pusha) :: (syscallPushes.map (fun o => .base (.op o)) ++
    [.base (.call syscallHandler),.base (.op (.add .esp 24)),.store 28 .eax,.base (.op .popa),.base .iret])

end Listing

/-- The kernel in memory with its interrupt handlers, and the descriptor tables that lead to them. -/
structure TrapImage where
  image : KernelImage
  traps : TrapCode
  address : Handler → Dword
  tss : Dword
  idt : Idt
  keyboardHandlerC : Dword
  syscallHandler : Dword
  afterKeyboard : Dword
  afterSyscall : Dword
  image_plain : image.code = traps.plain
  timer_address : address .timer = image.timerHandler
  afterKeyboardC : Dword
  keyboardHandler_holds : TrapHolds traps (address .keyboard) (Listing.keyboardHandler keyboardHandlerC) afterKeyboard
  syscallEntry_holds : TrapHolds traps (address .syscallEntry) (Listing.syscallEntry syscallHandler) afterSyscall
  keyboardHandlerC_holds : TrapHolds traps keyboardHandlerC [.base .foreign] afterKeyboardC

theorem TrapImage.timer_holds (k : TrapImage) : ∃ last, TrapHolds k.traps (k.address .timer)
    (.base (.op .pusha) :: (([.movAl 0x20,.out 0x20] : List Op).map (fun o => .base (.op o)) ++
      [.base (.call k.image.schedulerEntry),.base (.op .popa),.base .iret])) last := by
  have listing := k.image.timerHandler_holds
  rw [k.image_plain,← k.timer_address] at listing
  exact listing.trap

namespace SwitchRun

variable {ι : Type} {image : KernelImage} {s t w : SwitchRun ι} {b u a : Nat}

/-- An interrupt with the tables of the kernel and the stack in its task state segment. -/
def interrupt (k : TrapImage) (source : Machine.Source) (n : BitVec 8) (error : Option Dword) (s : SwitchRun ι) :
    Machine.Delivery (Suspensions ι) :=
  s.deliver (kernelTables k.address k.tss k.idt) (ss0,BitVec.ofNat 32 s.world.threads.tasks.esp0) source n error

def BootedBy (b : Nat) (s : SwitchRun ι) : Prop := Boot s ∧ s.current = b

/-- Every thread but the boot thread has the stack in its control block, and the processor the one
of the running thread. -/
structure Stacked (b : Nat) (s : SwitchRun ι) : Prop where
  installed : s.world.threads.Installed b
  stack : ∀ u ∈ s.world.threads.alive, u ≠ b → s.world.stack u =
    ⟨s.world.threads.tasks.stackBottom u,s.world.threads.tasks.stackBottom u + Tasks.stackSize⟩

theorem Sound.current_alive (sound : Sound image s) : s.current ∈ s.world.threads.alive := by
  obtain ⟨p,placed⟩ := sound.placed
  exact placed.current_alive

theorem Sound.current_real (sound : Sound image s) : s.current ≠ 0 := by
  obtain ⟨p,placed⟩ := sound.placed
  exact placed.represents.real _ (List.mem_of_mem_head? placed.represents.running)

section Steps

variable [DecidableEq ι]

theorem Switches.performed (switched : s.Switches image t) : ∃ q fuel e,
    s.world.threads.perform fuel (switchOp q e) = some (some t.world.threads) ∧ t.world.stack = s.world.stack ∧
    t.world.suspended = update s.world.suspended s.current (some (.called s.core s.memory)) := by
  obtain ⟨fuel,q,scratch,next,last,_,⟨low,inside⟩,fetched,run,rfl⟩ := switched
  obtain ⟨argument,threads,_,performed,world,_⟩ := switch_run (by omega) inside fetched run
  refine ⟨q,fuel,argument,?_,?_,?_⟩
  · dsimp only
    rw [world]
    exact performed
  · dsimp only
    rw [world]
  · dsimp only
    rw [world]

theorem Manages.performed (manages : s.Manages t) : s.world.threads.Step t.world.threads ∧ t.memory = s.memory ∧
    t.world.stack = s.world.stack ∧ t.world.suspended = s.world.suspended ∧ t.current = s.current ∧
    t.world.threads.alive = s.world.threads.alive ∧
    t.world.threads.tasks.stackBottom = s.world.threads.tasks.stackBottom := by
  obtain ⟨op,fuel,threads,kind,permitted,done,rfl⟩ := manages
  have step : s.world.threads.Step threads := ⟨op,fuel,permitted,done⟩
  rcases kind with rfl | rfl | ⟨q,rfl⟩
  · cases done
    exact ⟨step,rfl,rfl,rfl,rfl,rfl,rfl⟩
  · cases done
    exact ⟨step,rfl,rfl,rfl,rfl,rfl,rfl⟩
  · cases done
    obtain ⟨_,current⟩ := Tasks.unblock_stackPointer (s := s.world.threads.tasks) q
    exact ⟨step,rfl,rfl,rfl,current,rfl,(Tasks.unblock_same q).stackBottom⟩

theorem Creates.performed (real : s.current ≠ 0) (creates : s.Creates image t) :
    s.world.threads.Step t.world.threads ∧ t.current = s.current ∧
    (∀ u ∈ s.world.threads.alive, u ∈ t.world.threads.alive) ∧
    (∀ u ∈ s.world.threads.alive, t.world.stack u = s.world.stack u ∧ t.world.suspended u = s.world.suspended u ∧
      t.world.threads.tasks.stackBottom u = s.world.threads.tasks.stackBottom u) ∧
    (∀ u ∈ t.world.threads.alive, u ∉ s.world.threads.alive → t.world.stack u =
      ⟨t.world.threads.tasks.stackBottom u,t.world.threads.tasks.stackBottom u + Tasks.stackSize⟩) ∧
    ∀ u ∈ s.world.threads.alive, ∀ b, (s.world.stack u).low ≤ b → b < (s.world.stack u).high →
      t.memory b = s.memory b := by
  obtain ⟨user,grants,entry,threads,permitted,done,spacious,made⟩ := creates
  have step : s.world.threads.Step threads := ⟨_,_,permitted,done⟩
  obtain ⟨elsewhere,_,_,created⟩ := Tasks.threadCreate_installs (s := s.world.threads.tasks) real user grants
  obtain ⟨_,current,address⟩ := Tasks.threadCreate_stackPointer (s := s.world.threads.tasks) real user grants
  have fresh : ∀ u ∈ s.world.threads.alive, u ≠ grants.tcb := by
    rintro u member rfl
    exact permitted.1 member
  have result : threads = ⟨(s.world.threads.tasks.threadCreate user grants).1,
      if (s.world.threads.tasks.threadCreate user grants).2 = 0 then s.world.threads.alive
      else (s.world.threads.tasks.threadCreate user grants).2 :: s.world.threads.alive⟩ :=
    (Option.some.inj (Option.some.inj done)).symm
  by_cases refused : (s.world.threads.tasks.threadCreate user grants).2 = 0
  · rw [if_pos refused] at made result
    subst t
    refine ⟨step,?_,?_,?_,?_,fun _ _ _ _ _ => rfl⟩
    · rw [result]
      exact current
    · rw [result]
      exact fun u member => member
    · intro u member
      rw [result]
      exact ⟨rfl,rfl,(elsewhere u (fresh u member)).1⟩
    · intro u member absent
      rw [result] at member
      exact absurd member absent
  · rw [if_neg refused] at made result
    obtain ⟨room,apart,frame⟩ := spacious refused
    obtain ⟨same,_⟩ := address refused
    rw [same] at result
    subst t
    refine ⟨step,?_,?_,?_,?_,?_⟩
    · rw [result]
      exact current
    · rw [result]
      exact fun u member => List.mem_cons_of_mem _ member
    · intro u member
      rw [result]
      exact ⟨update_of_ne (fresh u member) ..,update_of_ne (fresh u member) ..,(elsewhere u (fresh u member)).1⟩
    · intro u member absent
      rw [result] at member ⊢
      rcases List.mem_cons.mp member with rfl | old
      · dsimp only
        rw [update_self,(created refused).1]
      · exact absurd old absent
    · intro u member b low high
      refine bootstrap_apart room (fun user => ⟨(frame user).1,?_⟩) ?_
      · have away := (frame user).2 u member
        unfold Span.Apart at away
        dsimp only at away
        omega
      · have away := apart u member
        unfold Span.Apart at away
        dsimp only at away
        omega

theorem step_sound (sound : Sound image s) (step : s.Step image t) : Sound image t := by
  rcases step with works | manages | creates | switches
  · exact works_sound sound works
  · exact manages_sound sound manages
  · exact creates_sound sound creates
  · exact switches_sound sound switches

theorem step_stacked (sound : Sound image s) (stacked : Stacked b s) (step : s.Step image t) : Stacked b t := by
  obtain ⟨p,placed⟩ := sound.placed
  rcases step with ⟨_,_,_,_,rfl⟩ | manages | creates | switched
  · exact ⟨stacked.installed,stacked.stack⟩
  · obtain ⟨step,_,stack,_,_,alive,bottom⟩ := manages.performed
    refine ⟨TaskRun.step_installed stacked.installed placed step,?_⟩
    rw [stack,alive,bottom]
    exact stacked.stack
  · obtain ⟨step,_,_,kept,new,_⟩ := creates.performed sound.current_real
    refine ⟨TaskRun.step_installed stacked.installed placed step,?_⟩
    intro u member other
    by_cases old : u ∈ s.world.threads.alive
    · obtain ⟨stack,_,bottom⟩ := kept u old
      rw [stack,bottom]
      exact stacked.stack u old other
    · exact new u member old
  · obtain ⟨q,fuel,e,performed,stack,_⟩ := switched.performed
    obtain ⟨p',later⟩ := (switches_sound sound switched).placed
    obtain ⟨bottom,_,_,_,subset,_⟩ := TaskRun.perform_installs performed
    refine ⟨TaskRun.switch_installed stacked.installed later performed,?_⟩
    intro u member other
    rw [stack,bottom]
    exact stacked.stack u (subset u member) other

theorem reached_stacked (reached : Reach (BootedBy b) (Step image) s) : Sound image s ∧ Stacked b s := by
  refine reached.invariant (fun s => Sound image s ∧ Stacked b s) ?_ ?_
  · rintro s ⟨boot,rfl⟩
    refine ⟨boot_sound boot,TaskRun.boot_installed ⟨boot.1,rfl⟩,?_⟩
    intro u member other
    rw [boot.1.2.1,List.mem_singleton] at member
    exact absurd member other
  · rintro s t ⟨sound,stacked⟩ step
    exact ⟨step_sound sound step,step_stacked sound stacked step⟩

/-- What others do leaves a thread where it is suspended, and only a switch makes it run. -/
theorem Step.other (sound : Sound image s) (step : s.Step image t) (alive : u ∈ s.world.threads.alive)
    (other : s.current ≠ u) : u ∈ t.world.threads.alive ∧ t.world.suspended u = s.world.suspended u ∧
      t.world.stack u = s.world.stack u ∧ (t.current = u → s.Switches image t) := by
  rcases step with ⟨_,_,_,_,rfl⟩ | manages | creates | switched
  · exact ⟨alive,rfl,rfl,fun same => absurd same other⟩
  · obtain ⟨_,_,stack,suspended,current,lives,_⟩ := manages.performed
    rw [stack,suspended,current,lives]
    exact ⟨alive,rfl,rfl,fun same => absurd same other⟩
  · obtain ⟨_,current,lives,kept,_⟩ := creates.performed sound.current_real
    obtain ⟨stack,suspended,_⟩ := kept u alive
    rw [current]
    exact ⟨lives u alive,suspended,stack,fun same => absurd same other⟩
  · obtain ⟨q,fuel,e,performed,stack,suspended⟩ := switched.performed
    obtain ⟨_,_,_,_,_,survives⟩ := TaskRun.perform_installs performed
    rw [stack,suspended]
    exact ⟨survives u alive (Ne.symm other),update_of_ne (Ne.symm other) ..,rfl,fun _ => switched⟩

/-- The running thread of `s` has called `scheduler_entry` and does not run again before the end. -/
inductive Away (image : KernelImage) (s : SwitchRun ι) : SwitchRun ι → Prop where
  | left {t : SwitchRun ι} (switched : s.Switches image t) (survives : s.current ∈ t.world.threads.alive) : Away image s t
  | passes {t w : SwitchRun ι} (before : Away image s t) (other : t.current ≠ s.current) (step : t.Step image w) :
      Away image s w

theorem Away.resumes (away : Away image s w) (sound : Sound image s) : Sound image w ∧
    s.current ∈ w.world.threads.alive ∧ w.world.suspended s.current = some (.called s.core s.memory) ∧
    w.world.stack s.current = s.world.stack s.current ∧
    (w.current = s.current → w.core.ring = 0 ∧ Resumes image w (.called s.core s.memory)) := by
  have back : ∀ {v w : SwitchRun ι}, Sound image v → v.Switches image w → w.current = s.current →
      w.world.suspended s.current = some (.called s.core s.memory) →
      w.core.ring = 0 ∧ Resumes image w (.called s.core s.memory) := by
    intro v w sound switched same known
    obtain ⟨record,recorded,resumes⟩ := sound.resumes switched
    obtain ⟨_,_,_,cs,_⟩ := sound.switched switched
    rw [same,known] at recorded
    rw [Option.some.inj recorded]
    refine ⟨?_,resumes⟩
    obtain ⟨_,_,_,_,_,ring,_⟩ := switched
    rw [Core.ring,cs]
    exact ring
  induction away with
  | @left t switched survives =>
    obtain ⟨_,_,_,_,stack,suspended⟩ := switched.performed
    have known : t.world.suspended s.current = some (.called s.core s.memory) := by
      rw [suspended,update_self]
    exact ⟨switches_sound sound switched,survives,known,by rw [stack],fun same => back sound switched same known⟩
  | @passes t w before other step ih =>
    obtain ⟨sound',alive,known,stack,_⟩ := ih
    obtain ⟨lives,suspended,span,only⟩ := step.other sound' alive other
    rw [← suspended] at known
    exact ⟨step_sound sound' step,lives,known,by rw [span,stack],fun same => back sound' (only same) same known⟩

/-- A step in which `u`, when it runs, spares its stack from `a` on. -/
def Spares (image : KernelImage) (u a : Nat) (s t : SwitchRun ι) : Prop :=
  (s.current ≠ u ∧ s.Step image t) ∨ (s.current = u ∧ u ∈ t.world.threads.alive ∧
    ((s.Works t ∧ ∀ b, a ≤ b → b < (s.world.stack u).high → t.memory b = s.memory b) ∨ s.Manages t ∨
      s.Creates image t ∨ (s.Switches image t ∧ s.esp.toNat ≤ a)))

/-- The stack of `u` is the one of `m` from `a` on, there or where `u` will find it. -/
structure Keeps (image : KernelImage) (u a : Nat) (span : Span) (m : Memory) (t : SwitchRun ι) : Prop where
  sound : Sound image t
  alive : u ∈ t.world.threads.alive
  stack : t.world.stack u = span
  running : t.current = u → ∀ b, a ≤ b → b < span.high → t.memory b = m b
  waiting : t.current ≠ u → ∃ core memory, t.world.suspended u = some (.called core memory) ∧
    (core.reg .esp).toNat ≤ a ∧ ∀ b, a ≤ b → b < span.high → memory b = m b

variable {span : Span} {m : Memory}

theorem Switches.keeps (sound : Sound image s) (switched : s.Switches image t) (alive : u ∈ t.world.threads.alive)
    (stack : s.world.stack u = span) {core : Core} {memory : Memory}
    (known : t.world.suspended u = some (.called core memory)) (below : (core.reg .esp).toNat ≤ a)
    (same : ∀ b, a ≤ b → b < span.high → memory b = m b) : Keeps image u a span m t := by
  obtain ⟨_,_,_,_,spans,_⟩ := switched.performed
  have kept : t.world.stack u = span := by rw [spans,stack]
  refine ⟨switches_sound sound switched,alive,kept,?_,fun _ => ⟨core,memory,known,below,same⟩⟩
  rintro rfl b above inside
  obtain ⟨record,recorded,resumes⟩ := sound.resumes switched
  rw [known] at recorded
  obtain rfl := Option.some.inj recorded
  obtain ⟨_,_,_,_,_,back⟩ := resumes
  rw [kept] at back
  rw [back b (by omega) inside]
  exact same b above inside

theorem Keeps.spares (keeps : Keeps image u a span m s) (low : span.low ≤ a) (step : Spares image u a s t) :
    Keeps image u a span m t := by
  obtain ⟨sound,alive,stack,running,waiting⟩ := keeps
  rcases step with ⟨other,step⟩ | ⟨mine,lives,⟨works,spared⟩ | manages | creates | ⟨switched,below⟩⟩
  · obtain ⟨lives,suspended,span',only⟩ := step.other sound alive other
    obtain ⟨core,memory,known,below,same⟩ := waiting other
    rw [← suspended] at known
    by_cases back : t.current = u
    · exact (only back).keeps sound lives stack known below same
    · exact ⟨step_sound sound step,lives,span'.trans stack,fun mine => absurd mine back,
        fun _ => ⟨core,memory,known,below,same⟩⟩
  · refine ⟨works_sound sound works,lives,?_,?_,?_⟩
    · obtain ⟨_,_,_,_,rfl⟩ := works
      exact stack
    · intro _ b above inside
      rw [spared b above (by rw [stack]; exact inside)]
      exact running mine b above inside
    · obtain ⟨_,_,_,_,rfl⟩ := works
      exact fun other => absurd mine other
  · obtain ⟨_,memory,spans,_,current,_⟩ := manages.performed
    refine ⟨manages_sound sound manages,lives,by rw [spans,stack],?_,?_⟩
    · rw [memory]
      exact fun _ => running mine
    · rw [current]
      exact fun other => absurd mine other
  · obtain ⟨_,current,_,kept,_,outside⟩ := creates.performed sound.current_real
    refine ⟨creates_sound sound creates,lives,(kept u alive).1.trans stack,?_,?_⟩
    · intro _ b above inside
      rw [outside u alive b (by rw [stack]; omega) (by rw [stack]; exact inside)]
      exact running mine b above inside
    · rw [current]
      exact fun other => absurd mine other
  · obtain ⟨_,_,_,_,_,suspended⟩ := switched.performed
    refine switched.keeps sound lives stack ?_ below (running mine)
    rw [suspended,mine,update_self]

/-- What a thread has on its stack is still there when it has run, waited and run again. -/
theorem Keeps.run (keeps : Keeps image u a span m s) (low : span.low ≤ a)
    (run : Relation.ReflTransGen (Spares image u a) s t) : Keeps image u a span m t := by
  induction run with
  | refl => exact keeps
  | tail _ step ih => exact ih.spares low step

end Steps

section Interrupts

def trapBase (s : SwitchRun ι) : Nat := (s.onStack 0 (ss0,BitVec.ofNat 32 s.world.threads.tasks.esp0)).esp.toNat

/-- The kernel stack has `n` bytes for an interrupt. Outside the kernel it is empty, but only for
threads that `scheduler` has chosen. -/
def TrapRoom (b n : Nat) (s : SwitchRun ι) : Prop :=
  if s.core.ring = 0 then (s.world.stack s.current).low + n ≤ s.esp.toNat ∧ s.esp.toNat ≤ (s.world.stack s.current).high
  else s.current ≠ b

variable {n : Nat}

theorem trapBase_inside (sound : Sound image s) (stacked : Stacked b s) (room : s.TrapRoom b n)
    (small : n ≤ Tasks.stackSize) : (s.world.stack s.current).low + n ≤ s.trapBase ∧
      s.trapBase ≤ (s.world.stack s.current).high := by
  unfold trapBase Machine.onStack
  have zero : (0 : BitVec 2).setWidth 16 = (0 : Selector) := rfl
  rw [zero]
  unfold TrapRoom at room
  by_cases inside : s.core.ring = 0
  · rw [if_pos inside] at room
    rw [if_pos inside.symm]
    exact room
  · rw [if_neg inside] at room
    rw [if_neg (Ne.symm inside)]
    have high := sound.high _ sound.current_alive
    have own := stacked.stack _ sound.current_alive room
    rw [own] at high ⊢
    dsimp only at high ⊢
    have esp0 : s.world.threads.tasks.esp0 = add32 (s.world.threads.tasks.stackBottom s.current) Tasks.stackSize :=
      stacked.installed.esp0 room
    rw [add32_eq high] at esp0
    have pointer : ((s.setSeg .ss ss0).setReg .esp (BitVec.ofNat 32 s.world.threads.tasks.esp0)).esp.toNat =
        s.world.threads.tasks.stackBottom s.current + Tasks.stackSize := by
      rw [esp0]
      exact Nat.mod_eq_of_lt high
    rw [pointer]
    omega

theorem trapWords_short {error : Option Dword} : (s.trapWords 0 error).length ≤ error.toList.length + 5 := by
  rw [trapWords_length]
  split <;> omega

/-- The running thread has come from `s` to `t` on its own stack and has written this to ports. -/
structure Computes (s t : SwitchRun ι) (written : List (BitVec 16 × BitVec 8)) : Prop where
  world : t.world = s.world
  ports : t.ports = s.ports ++ written
  outside : ∀ b, b < (s.world.stack s.current).low ∨ (s.world.stack s.current).high ≤ b → t.memory b = s.memory b

theorem Computes.current {written : List (BitVec 16 × BitVec 8)} (computes : s.Computes t written) :
    t.current = s.current := by
  unfold SwitchRun.current
  rw [computes.world]

theorem Computes.trans {first second : List (BitVec 16 × BitVec 8)} (one : s.Computes t first)
    (two : t.Computes w second) : s.Computes w (first ++ second) := by
  refine ⟨two.world.trans one.world,by rw [two.ports,one.ports,List.append_assoc],?_⟩
  intro b outside
  rw [two.outside b (by rw [one.world,one.current]; exact outside)]
  exact one.outside b outside

theorem computes_registers {written : List (BitVec 16 × BitVec 8)} (memory : t.memory = s.memory)
    (world : t.world = s.world) (ports : t.ports = s.ports ++ written) : s.Computes t written :=
  ⟨world,ports,fun _ _ => by rw [memory]⟩

theorem works_within (sound : Sound image s) (keyboard : Keyboard) {written : List (BitVec 16 × BitVec 8)}
    (world : t.world = { s.world with keyboard := keyboard }) (ports : t.ports = s.ports ++ written)
    (outside : ∀ b, b < (s.world.stack s.current).low ∨ (s.world.stack s.current).high ≤ b → t.memory b = s.memory b) :
    s.Works t := by
  obtain ⟨core,memory,_,_⟩ := t
  dsimp only at world ports
  subst world ports
  refine ⟨core,memory,keyboard,written,?_⟩
  congr 1
  funext b
  unfold overlay
  split
  · rename_i needed
    obtain ⟨u,member,other⟩ := List.any_eq_true.mp needed
    simp only [Suspensions.needs,bne_iff_ne,ne_eq,Bool.and_eq_true,decide_eq_true_eq] at other
    obtain ⟨other,above,inside⟩ := other
    obtain ⟨_,_,parked⟩ := sound.parked u member other
    have bottom := parked.low
    have apart := sound.apart u member _ sound.current_alive other
    unfold Span.Apart at apart
    exact outside b (by omega)
  · rfl

theorem Computes.works {written : List (BitVec 16 × BitVec 8)} (computes : s.Computes t written)
    (sound : Sound image s) : s.Works t :=
  works_within sound s.world.keyboard computes.world computes.ports computes.outside

variable {k : TrapImage} {p x : SwitchRun ι} {d : Nat} {error : Option Dword} {rest : List TrapInstr} {last : Dword}

/-- The running thread of `s` is in a handler, with the stack as it was behind `pusha` and `d` bytes
of arguments below. -/
structure Saved (image : KernelImage) (s p : SwitchRun ι) (d : Nat) (x : SwitchRun ι) : Prop where
  sound : Sound image x
  runner : x.current = s.current
  stack : x.world.stack s.current = s.world.stack s.current
  esp : x.esp.toNat + d = p.esp.toNat
  ring : x.core.ring = 0
  seg : ∀ g, g ∈ [Seg.ds,.es,.fs,.gs] → x.core.seg g = p.core.seg g
  same : ∀ b, p.esp.toNat ≤ b → b < (s.world.stack s.current).high → x.memory b = p.memory b

theorem Saved.pointer (saved : Saved image s p 0 x) : x.esp = p.esp :=
  BitVec.eq_of_toNat_eq saved.esp

theorem Saved.registers (saved : Saved image s p d x) {y : SwitchRun ι} {d' : Nat}
    {written : List (BitVec 16 × BitVec 8)} (memory : y.memory = x.memory) (world : y.world = x.world)
    (ports : y.ports = x.ports ++ written) (esp : y.esp.toNat + d' = p.esp.toNat) (seg : y.core.seg = x.core.seg) :
    Saved image s p d' y := by
  have computes := computes_registers memory world ports
  refine ⟨works_sound saved.sound (computes.works saved.sound),computes.current.trans saved.runner,?_,esp,?_,?_,?_⟩
  · rw [world]
    exact saved.stack
  · rw [Core.ring,seg]
    exact saved.ring
  · rw [seg]
    exact saved.seg
  · rw [memory]
    exact saved.same

/-- An interrupt that is not refused is in its handler, which saves the registers. -/
theorem interrupt_saves (k : TrapImage) (sound : Sound k.image s) (stacked : Stacked b s) (room : s.TrapRoom b n)
    (small : n ≤ Tasks.stackSize) (error : Option Dword) (enough : 52 + 4 * error.toList.length ≤ n)
    (source : Machine.Source) {v : BitVec 8} (taken : ¬(source = .hardware ∧ s.core.eflags &&& interruptFlag = 0))
    (allowed : ¬(source = .software ∧ 0 < s.core.ring.toNat ∧ v ≠ syscallVector))
    (holds : TrapHolds k.traps (k.address (handlerOf v)) (.base (.op .pusha) :: rest) last) :
    ∃ e p x, s.interrupt k source v error = .entered e ∧
      Trapped s p 0 (ss0,BitVec.ofNat 32 s.world.threads.tasks.esp0) kernelCs error ∧
      (s.world.stack s.current).low + n ≤ p.esp.toNat + 52 + 4 * error.toList.length ∧
      p.esp.toNat + 32 + 4 * (s.trapWords 0 error).length = s.trapBase ∧ s.trapBase ≤ (s.world.stack s.current).high ∧
      (∀ external cr2, e.trapSteps external cr2 k.traps 1 = some x) ∧ s.Computes x [] ∧ Saved k.image s p 0 x ∧
      x.core.reg = p.core.reg ∧ x.core.eflags = p.core.eflags ∧ TrapHolds k.traps x.core.eip rest last := by
  obtain ⟨low,high⟩ := trapBase_inside sound stacked room small
  have length := @trapWords_short _ s error
  have trapped : Trapped s (Op.pusha.apply (s.enter 0 (ss0,BitVec.ofNat 32 s.world.threads.tasks.esp0) kernelCs
      (k.address (handlerOf v)) error)) 0 (ss0,BitVec.ofNat 32 s.world.threads.tasks.esp0) kernelCs error := by
    apply enter_trapped
    unfold trapBase at low
    omega
  have delivered : s.interrupt k source v error = .entered (s.enter 0
      (ss0,BitVec.ofNat 32 s.world.threads.tasks.esp0) kernelCs (k.address (handlerOf v)) error) := by
    rw [interrupt,deliver_kernelTables,if_neg taken,if_neg allowed]
  have entry : (s.enter 0 (ss0,BitVec.ofNat 32 s.world.threads.tasks.esp0) kernelCs
    (k.address (handlerOf v)) error).core.eip = k.address (handlerOf v) := rfl
  generalize s.enter 0 (ss0,BitVec.ofNat 32 s.world.threads.tasks.esp0) kernelCs (k.address (handlerOf v)) error = e
    at trapped delivered entry
  obtain ⟨next,pusha,rest⟩ := holds
  have saving : ∀ external cr2, e.trapSteps external cr2 k.traps 1 = some ((Op.pusha.apply e).jump next) := by
    intro external cr2
    rw [← entry] at pusha
    rw [Machine.trapSteps,trapStep_fetched pusha]
    rfl
  generalize Op.pusha.apply e = p at trapped saving
  have size := trapped.esp
  change _ = s.trapBase at size
  have computes : s.Computes (p.jump next) [] := by
    refine ⟨trapped.world,trapped.ports.trans (List.append_nil _).symm,?_⟩
    intro b outside
    exact trapped.kept b (by change _ ∨ s.trapBase ≤ _; omega)
  refine ⟨e,p,p.jump next,delivered,trapped,by omega,size,high,saving,computes,
    ⟨works_sound sound (computes.works sound),computes.current,?_,rfl,?_,fun _ _ => rfl,fun _ _ _ => rfl⟩,rfl,rfl,rest⟩
  · change p.world.stack _ = _
    rw [trapped.world]
  · change p.core.seg .cs &&& 3 = 0
    rw [trapped.cs]
    rfl

theorem entered_off {source : Machine.Source} {v : BitVec 8} {e : SwitchRun ι}
    (delivered : s.interrupt k source v error = .entered e) : e.core.eflags &&& interruptFlag = 0 := by
  rw [interrupt,deliver_kernelTables] at delivered
  split at delivered
  · contradiction
  split at delivered
  · contradiction
  · cases delivered
    change (s.core.eflags &&& gateFlags) &&& interruptFlag = 0
    rw [gateFlags,interruptFlag,BitVec.and_assoc]
    exact BitVec.and_zero

/-- `f` goes on where `s` was. -/
structure Continues (s f : SwitchRun ι) : Prop where
  reg : f.core.reg = s.core.reg
  eip : f.core.eip = s.core.eip
  eflags : f.core.eflags = s.core.eflags
  seg : ∀ g, g ≠ .ss ∨ s.core.ring ≠ 0 → f.core.seg g = s.core.seg g

theorem handler_returns (k : TrapImage) {c : Core} {a : Dword}
    (holds : TrapHolds k.traps w.core.eip [.base (.op .popa),.base .iret] a)
    (reg : ∀ r, r ≠ .esp → c.reg r = s.core.reg r) (words : Words w.memory w.esp (c.frame ++ s.trapWords 0 none))
    (ring : w.core.ring = 0) (seg : ∀ g, g ≠ .cs → g ≠ .ss → w.core.seg g = s.core.seg g)
    (esp : s.core.ring = 0 → w.esp + 44 = s.esp) (external : SwitchRun ι → Option (SwitchRun ι)) (cr2 : Dword) :
    ∃ f, w.trapSteps external cr2 k.traps 2 = some f ∧ s.Continues f ∧ f.memory = w.memory ∧ f.world = w.world ∧
      f.ports = w.ports := by
  obtain ⟨next,popa,_,iret,_⟩ := holds
  obtain ⟨reg',eip,flags,segments,memory,world,ports⟩ := popa_iret_back reg words ring seg
    (fun same => esp (Eq.symm same)) next
  refine ⟨((Op.popa.apply w).jump next).iret,?_,⟨reg',eip,flags,?_⟩,memory,world,ports⟩
  · rw [Machine.trapSteps,trapStep_fetched popa,Machine.trapExec,Machine.exec,Option.bind_some,Machine.trapSteps,
      trapStep_fetched iret]
    rfl
  · intro g kind
    exact segments g (kind.imp id Ne.symm)

theorem data_segments {g : Seg} (code : g ≠ .cs) (stack : g ≠ .ss) : g ∈ [Seg.ds,.es,.fs,.gs] := by
  cases g with
  | cs => contradiction
  | ss => contradiction
  | _ => simp

theorem Saved.words (saved : Saved image s p d x) {c : Core}
    (size : p.esp.toNat + 32 + 4 * (s.trapWords 0 error).length = s.trapBase)
    (high : s.trapBase ≤ (s.world.stack s.current).high)
    (words : Words p.memory p.esp (c.frame ++ s.trapWords 0 error)) :
    Words x.memory p.esp (c.frame ++ s.trapWords 0 error) := by
  have inside : s.trapBase < 2^32 := BitVec.isLt _
  refine words.congr ?_ ?_
  · rw [List.length_append,frame_length]
    omega
  · rw [List.length_append,frame_length]
    exact fun b low inner => saved.same b low (by omega)

theorem Saved.returns (saved : Saved image s p 0 w)
    (trapped : Trapped s p 0 (ss0,BitVec.ofNat 32 s.world.threads.tasks.esp0) kernelCs none)
    (high : s.trapBase ≤ (s.world.stack s.current).high)
    (holds : TrapHolds k.traps w.core.eip [.base (.op .popa),.base .iret] last)
    (external : SwitchRun ι → Option (SwitchRun ι)) (cr2 : Dword) :
    ∃ f, w.trapSteps external cr2 k.traps 2 = some f ∧ s.Continues f ∧ f.memory = w.memory ∧ f.world = w.world ∧
      f.ports = w.ports := by
  obtain ⟨c,reg,words⟩ := trapped.words
  refine handler_returns k holds reg ?_ saved.ring ?_ ?_ external cr2
  · rw [saved.pointer]
    exact saved.words trapped.esp high words
  · intro g code other
    rw [saved.seg g (data_segments code other)]
    exact trapped.seg g code other
  · intro inner
    rw [saved.pointer]
    exact trapped.esp_inner inner.symm

theorem Saved.answers (saved : Saved image s p 24 w)
    (trapped : Trapped s p 0 (ss0,BitVec.ofNat 32 s.world.threads.tasks.esp0) kernelCs none)
    (high : s.trapBase ≤ (s.world.stack s.current).high)
    (holds : TrapHolds k.traps w.core.eip
      [.base (.op (.add .esp 24)),.store 28 .eax,.base (.op .popa),.base .iret] last)
    (external : SwitchRun ι → Option (SwitchRun ι)) (cr2 : Dword) :
    ∃ f, w.trapSteps external cr2 k.traps 4 = some f ∧ Continues (s.setReg .eax (w.core.reg .eax)) f ∧
      f.world = w.world ∧ f.ports = w.ports := by
  obtain ⟨c,reg,words⟩ := trapped.words
  have size := trapped.esp
  change _ = s.trapBase at size
  have inside : s.trapBase < 2^32 := BitVec.isLt _
  have deep := saved.esp
  have pointer : w.esp + 24 = p.esp := by bv_omega
  obtain ⟨atStore,add,atPopa,store,rest⟩ := holds
  -- the result replaces the last word of the registers
  have slot : (w.esp + 24 + 28).toNat = p.esp.toNat + 4 * 7 := by
    rw [pointer]
    bv_omega
  have popped : c.frame = (Machine.popaOrder.take 7).map (fun r => (c.reg r).toNat) ++ [(c.reg .eax).toNat] := rfl
  have found := saved.words size high words
  rw [popped,List.append_assoc,List.singleton_append] at found
  have result := found.overwrite (v := (w.core.reg .eax).toNat) (by
    rw [List.length_map]
    change _ + 4 * (7 + _) ≤ _
    omega) (BitVec.isLt _)
  let c' : Core := { c with reg := update c.reg .eax (w.core.reg .eax) }
  let w' : SwitchRun ι := ((Op.add .esp 24).apply w).jump atStore
  let w'' : SwitchRun ι :=
    { w' with memory := ByteMemory.store w.memory 4 (w.esp + 24 + 28).toNat (w.core.reg .eax).toNat }.jump atPopa
  have stored : w.trapSteps external cr2 k.traps 2 = some w'' := by
    rw [Machine.trapSteps,trapStep_fetched add,Machine.trapExec,Machine.exec,Option.bind_some,Machine.trapSteps,
      trapStep_fetched store]
    rfl
  have registers : ∀ r, r ≠ .esp → c'.reg r = (s.setReg .eax (w.core.reg .eax)).core.reg r := by
    intro r other
    change update c.reg .eax (w.core.reg .eax) r = update s.core.reg .eax (w.core.reg .eax) r
    by_cases accumulator : r = .eax
    · rw [accumulator,update_self,update_self]
    · rw [update_of_ne accumulator,update_of_ne accumulator,reg r other]
  have answered : Words w''.memory w''.esp (c'.frame ++ (s.setReg .eax (w.core.reg .eax)).trapWords 0 none) := by
    change Words (ByteMemory.store w.memory 4 (w.esp + 24 + 28).toNat (w.core.reg .eax).toNat) (w.esp + 24) _
    rw [slot,pointer]
    rw [← List.singleton_append,← List.append_assoc] at result
    exact result
  have segments : ∀ g, g ≠ .cs → g ≠ .ss → w''.core.seg g = (s.setReg .eax (w.core.reg .eax)).core.seg g :=
    fun g code other => (saved.seg g (data_segments code other)).trans (trapped.seg g code other)
  have inner : s.core.ring = 0 → w''.esp + 44 = (s.setReg .eax (w.core.reg .eax)).esp := by
    intro same
    refine Eq.trans ?_ (trapped.esp_inner same.symm)
    rw [← pointer]
    rfl
  obtain ⟨f,run,continues,_,world,ports⟩ :=
    handler_returns k rest registers answered saved.ring segments inner external cr2
  refine ⟨f,?_,continues,world,ports⟩
  refine (trapSteps_add 2 2 w).trans ?_
  rw [stored,Option.bind_some,run]

/-- A compiled function has returned from where `h` has entered it. -/
structure Returned (h w : SwitchRun ι) : Prop where
  current : w.current = h.current
  eip : w.core.eip = BitVec.ofNat 32 h.top
  esp : w.esp = h.esp + 4
  ring : w.core.ring = 0
  seg : ∀ g, g ∈ [Seg.ds,.es,.fs,.gs] → w.core.seg g = h.core.seg g

variable [DecidableEq ι]

/-- A handler calls a compiled function with some arguments, and the function returns. -/
theorem Saved.calls {ops : List Op} {ws : List Nat} {f : Dword} (saved : Saved k.image s p d x)
    (low : (s.world.stack s.current).low + d + 4 * ws.length + 4 ≤ p.esp.toNat)
    (high : p.esp.toNat ≤ (s.world.stack s.current).high) (pushed : Pushed x (Op.applyAll ops x) ws)
    (holds : TrapHolds k.traps x.core.eip (ops.map (fun o => .base (.op o)) ++ .base (.call f) :: rest) last) :
    ∃ h, (∀ external cr2, x.trapSteps external cr2 k.traps (ops.length + 1) = some h) ∧ x.Computes h [] ∧
      h.core.eip = f ∧
      h.core.ring = 0 ∧ h.core.eflags = x.core.eflags ∧ Words h.memory (h.esp + 4) ws ∧
      h.esp.toNat + 4 + 4 * ws.length + d = p.esp.toNat ∧
      ∀ w, Relation.ReflTransGen (Spares k.image s.current p.esp.toNat) h w → Returned h w →
        Saved k.image s p (4 * ws.length + d) w ∧ TrapHolds k.traps w.core.eip rest last := by
  obtain ⟨atCall,⟨after,call,rest⟩,run⟩ := holds.ops
  have pushing := fun external cr2 => run external cr2 x rfl
  generalize Op.applyAll ops x = q at pushed pushing
  have deep := pushed.esp
  have above := saved.esp
  have called : Pushed x ((q.push after.toNat).jump f) (after.toNat :: ws) :=
    (pushed.push (by omega) after.isLt).jump _
  have steps : ∀ external cr2, x.trapSteps external cr2 k.traps (ops.length + 1) = some ((q.push after.toNat).jump f) := by
    intro external cr2
    refine (trapSteps_add ops.length 1 x).trans ?_
    rw [pushing external cr2,Option.bind_some,Machine.trapSteps,trapStep_fetched call]
    rfl
  have eip : ((q.push after.toNat).jump f).core.eip = f := rfl
  generalize (q.push after.toNat).jump f = h at called steps eip
  have size := called.esp
  rw [List.length_cons] at size
  have computes : x.Computes h [] := by
    refine ⟨called.world,called.ports.trans (List.append_nil _).symm,?_⟩
    rw [saved.runner,saved.stack]
    intro b outside
    exact called.kept b (by omega)
  refine ⟨h,steps,computes,eip,?_,called.flags,called.words.2,by omega,?_⟩
  · rw [Core.ring,called.seg]
    exact saved.ring
  · intro w run returned
    have runner := computes.current.trans saved.runner
    have start : Keeps k.image s.current p.esp.toNat (s.world.stack s.current) h.memory h := by
      refine ⟨works_sound saved.sound (computes.works saved.sound),?_,?_,fun _ b _ _ => rfl,fun other => absurd runner other⟩
      · rw [called.world,← saved.runner]
        exact saved.sound.current_alive
      · rw [called.world]
        exact saved.stack
    have kept := start.run (by omega) run
    have mine := returned.current.trans runner
    have behind : w.core.eip = after := by
      rw [returned.eip,top_words called.words,BitVec.ofNat_toNat,BitVec.setWidth_eq]
    have pointer := returned.esp
    refine ⟨⟨kept.sound,mine,kept.stack,?_,returned.ring,?_,?_⟩,by rw [behind]; exact rest⟩
    · rw [pointer]
      have inside := p.esp.isLt
      bv_omega
    · intro g data
      rw [returned.seg g data,called.seg,saved.seg g data]
    · intro b low inside
      rw [kept.running mine b low inside,called.kept b (.inr (by omega))]
      exact saved.same b low inside

end Interrupts

section Functions

variable {k : TrapImage} {h : SwitchRun ι} {arguments : Nat} {scratch : Scratch}

/-- A compiled function that does not give up the processor returns. The interrupt flag is as it was,
and of memory only its frame and its arguments have changed. -/
def functionReturn (arguments : Nat) (scratch : Scratch) (s : SwitchRun ι) : SwitchRun ι :=
  { s.returned scratch with
    core := { (s.returned scratch).core with
      eflags := (s.core.eflags &&& interruptFlag) ||| (scratch.eflags &&& ~~~interruptFlag) }
    memory := overlay (fun b => decide (b < (s.world.stack s.current).low ∨ s.esp.toNat + 4 + arguments ≤ b)) s.memory
      scratch.memory
    ports := s.ports ++ scratch.ports }

theorem functionReturn_memory {b : Nat} (outside : b < (h.world.stack h.current).low ∨ h.esp.toNat + 4 + arguments ≤ b) :
    (h.functionReturn arguments scratch).memory b = h.memory b :=
  if_pos (decide_eq_true outside)

theorem functionReturn_computes (inside : h.esp.toNat + 4 + arguments ≤ (h.world.stack h.current).high) :
    h.Computes (h.functionReturn arguments scratch) scratch.ports :=
  ⟨rfl,rfl,fun _ outside => functionReturn_memory (by omega)⟩

theorem functionReturn_spares [DecidableEq ι] (sound : Sound image h) (keyboard : Keyboard) {a : Nat}
    (below : h.esp.toNat + 4 + arguments ≤ a) (inside : h.esp.toNat + 4 + arguments ≤ (h.world.stack h.current).high) :
    Spares image h.current a h
      { h.functionReturn arguments scratch with world := { h.world with keyboard := keyboard } } := by
  refine .inr ⟨rfl,sound.current_alive,.inl ⟨?_,?_⟩⟩
  · exact works_within sound keyboard rfl rfl (fun _ outside => functionReturn_memory (by omega))
  · intro b above _
    exact functionReturn_memory (by omega)

theorem functionReturn_returned (ring : h.core.ring = 0) (keyboard : Keyboard) :
    Returned h { h.functionReturn arguments scratch with world := { h.world with keyboard := keyboard } } :=
  ⟨rfl,rfl,rfl,ring,fun _ _ => rfl⟩

theorem function_step {external : SwitchRun ι → Option (SwitchRun ι)} {cr2 f last : Dword}
    (body : TrapHolds k.traps f [.base .foreign] last) (here : h.core.eip = f) :
    h.trapSteps external cr2 k.traps 1 = external h := by
  obtain ⟨_,fetched,_⟩ := body
  rw [← here] at fetched
  rw [Machine.trapSteps,trapStep_fetched fetched,Machine.trapExec,Machine.exec]
  cases external h <;> rfl

end Functions

end SwitchRun

end RudimentaryKernel
