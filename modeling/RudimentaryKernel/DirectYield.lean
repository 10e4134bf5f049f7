import RudimentaryKernel.SwitchFrames

/-! A yield through `direct_scheduler_entry` keeps everything but the stack pointer. The
routine builds a whole `iret` frame on top of the return address that its caller's `call`
has pushed; `iret` removes the frame and leaves the address. -/
namespace RudimentaryKernel

open Function ByteMemory X86

namespace SwitchRun

variable {ι : Type} {image : KernelImage} {s t : SwitchRun ι} {core core' : Core} {memory memory' : Memory}
  {next : Dword}

/-- Five instructions lead from a call of `direct_scheduler_entry` to the call of
`scheduler_entry` in it. -/
def Yields (image : KernelImage) (next : Dword) (core : Core) (memory : Memory) (core' : Core)
    (memory' : Memory) : Prop :=
  image.code core.eip = some (.call image.directSchedulerEntry,next) ∧
  (⟨core,memory,(),[]⟩ : Machine Unit).steps (fun _ => none) image.code 5 = some ⟨core',memory',(),[]⟩

/-- The frame those instructions build, and what they leave alone. -/
theorem yield_steps (image : KernelImage) (core : Core) (memory : Memory)
    (fetched : image.code core.eip = some (.call image.directSchedulerEntry,next))
    (room : 16 ≤ (core.reg .esp).toNat) : ∃ core' memory' atIret after,
    (⟨core,memory,(),[]⟩ : Machine Unit).steps (fun _ => none) image.code 5 = some ⟨core',memory',(),[]⟩ ∧
    image.code core'.eip = some (.call image.schedulerEntry,atIret) ∧
    image.code atIret = some (.iret,after) ∧
    Pushed (⟨core,memory,(),[]⟩ : Machine Unit)
      (⟨{ core' with eflags := core.eflags },memory',(),[]⟩ : Machine Unit)
      [next.toNat,(core.seg .cs).toNat,core.eflags.toNat,next.toNat] := by
  let ops : List Op := [.pushFlags,.pushSeg .cs,.pushStack 8,.cli]
  let first : Machine Unit := ⟨core,memory,(),[]⟩
  let framed := ((first.push next.toNat).push core.eflags.toNat).push (core.seg .cs).toNat
  have listing : Holds image.code ((first.push next.toNat).jump image.directSchedulerEntry).core.eip
    (ops.map .op ++ [.call image.schedulerEntry,.iret]) := image.directSchedulerEntry_holds
  obtain ⟨last,straight,atIret,call,after,iret,_⟩ := @steps_ops _ (fun _ => none) _ _ _ _ listing
  have frame : Pushed first framed [(core.seg .cs).toNat,core.eflags.toNat,next.toNat] := by
    refine (Pushed.refl first).pushAll [next.toNat,core.eflags.toNat,(core.seg .cs).toNat] ?_ ?_
    · change 12 ≤ (core.reg .esp).toNat
      omega
    · have small := (core.seg .cs).isLt
      simpa using ⟨next.isLt,core.eflags.isLt,by omega⟩
  have size : framed.esp.toNat + 4 * 3 = (core.reg .esp).toNat := frame.esp
  -- `8(%esp)` is the return address of the call
  have again : load framed.memory 4 (framed.esp + 8).toNat = next.toNat := by
    have third := frame.words.2.2.1
    have address : framed.esp + 4 + 4 = framed.esp + 8 := by bv_omega
    rw [address] at third
    exact third
  have straightened : Op.applyAll ops (first.push next.toNat) =
      (framed.push (load framed.memory 4 (framed.esp + 8).toNat)).setFlags
        (core.eflags &&& ~~~interruptFlag) := rfl
  refine ⟨(((framed.push next.toNat).setFlags (core.eflags &&& ~~~interruptFlag)).jump last).core,
    (framed.push next.toNat).memory,atIret,after,?_,call,iret,(frame.push (by omega) next.isLt).jump last⟩
  rw [Machine.steps,step_fetched fetched,Machine.exec,Option.bind_some]
  refine straight.trans ?_
  rw [Op.applyAll_jump,Machine.jump_jump,straightened,again]
  rfl

theorem Yields.spec (yields : Yields image next core memory core' memory')
    (room : 16 ≤ (core.reg .esp).toNat) : ∃ atIret after,
    image.code core'.eip = some (.call image.schedulerEntry,atIret) ∧
    image.code atIret = some (.iret,after) ∧
    Pushed (⟨core,memory,(),[]⟩ : Machine Unit)
      (⟨{ core' with eflags := core.eflags },memory',(),[]⟩ : Machine Unit)
      [next.toNat,(core.seg .cs).toNat,core.eflags.toNat,next.toNat] := by
  obtain ⟨fetched,run⟩ := yields
  obtain ⟨c,m,atIret,after,steps,rest⟩ := yield_steps image core memory fetched room
  rw [run] at steps
  cases steps
  exact ⟨atIret,after,rest⟩

/-- `c` is back behind a yield that `core` began, one word short. -/
structure Returns (next : Dword) (core c : Core) : Prop where
  eip : c.eip = next
  cs : c.seg .cs = core.seg .cs
  eflags : c.eflags = core.eflags
  reg : ∀ r, r ≠ .esp → c.reg r = core.reg r
  seg : ∀ g, g ∈ [Seg.ds,.es,.fs,.gs] → c.seg g = core.seg g
  esp : c.reg .esp = core.reg .esp - 4

variable [DecidableEq ι]

theorem Sound.yield_returns (sound : Sound image s) (switched : s.Switches image t)
    (record : t.world.suspended t.current = some (.called core' memory'))
    (yields : Yields image next core memory core' memory') (room : 16 ≤ (core.reg .esp).toNat)
    (inside : (core.reg .esp).toNat ≤ (t.world.stack t.current).high)
    (external : SwitchRun ι → Option (SwitchRun ι)) :
    ∃ t', t.step external image.code = some t' ∧ Returns next core t'.core := by
  obtain ⟨atIret,after,call,iret,pushed⟩ := yields.spec room
  obtain ⟨_,known,resumes⟩ := sound.resumes switched
  obtain ⟨⟨_,placed⟩,_,_,cs,parked,_⟩ := sound.switched switched
  obtain ⟨_,again,frame⟩ := parked _ placed.current_alive
  rw [record] at known
  cases known
  rw [show t.world.threads.tasks.currentRunning = t.current from rfl,record] at again
  cases again
  obtain ⟨behind,fetched,eip,reg,seg,above⟩ := resumes
  obtain ⟨_,_,ring,_⟩ := frame.intact
  have same : behind = atIret := by
    rw [call] at fetched
    exact (Prod.mk.inj (Option.some.inj fetched)).2.symm
  have size : (core'.reg .esp).toNat + 4 * 4 = (core.reg .esp).toNat := pushed.esp
  have esp : t.esp = core'.reg .esp := congrFun reg .esp
  have words : Words t.memory t.esp [next.toNat,(core.seg .cs).toNat,core.eflags.toNat,next.toNat] := by
    rw [esp]
    apply pushed.words.congr
    · change (core'.reg .esp).toNat + 4 * 4 ≤ _
      have bound := (core.reg .esp).isLt
      omega
    · intro b low high
      change b < (core'.reg .esp).toNat + 4 * 4 at high
      exact above b low (by omega)
  have segments : core'.seg = core.seg := pushed.seg
  have kernel : t.core.ring = 0 := by
    obtain ⟨_,_,_,_,_,ring,_⟩ := switched
    rw [Core.ring,cs]
    exact ring
  have inner : BitVec.ofNat 16 (core.seg .cs).toNat &&& 3 = t.core.ring := by
    rw [BitVec.ofNat_toNat,BitVec.setWidth_eq,kernel,← segments]
    exact ring
  refine ⟨t.iret,?_,?_⟩
  · have atEnd : image.code t.core.eip = some (.iret,after) := by
      rw [eip,same]
      exact iret
    rw [step_fetched atEnd]
    rfl
  · rw [iret_inner words inner]
    refine ⟨?_,?_,?_,?_,?_,?_⟩
    · change BitVec.ofNat 32 _ = _
      rw [BitVec.ofNat_toNat,BitVec.setWidth_eq]
    · change BitVec.ofNat 16 _ = _
      rw [BitVec.ofNat_toNat,BitVec.setWidth_eq]
    · change BitVec.ofNat 32 _ = _
      rw [BitVec.ofNat_toNat,BitVec.setWidth_eq]
    · intro r other
      refine Eq.trans ?_ ((congrFun reg r).trans (pushed.reg r other))
      cases r <;> first | contradiction | rfl
    · intro g kind
      rw [← segments,← seg g kind]
      cases g <;> first | rfl | simp at kind
    · change t.esp + 4 + 4 + 4 = _
      rw [esp]
      bv_omega

/-- Whatever other threads do meanwhile, a yield through `direct_scheduler_entry` returns
behind its call with all registers and flags but a stack pointer four bytes lower. -/
theorem direct_yield_lowers_stack (image : KernelImage) (s t : SwitchRun ι) (next : Dword)
    (core core' : Core) (memory memory' : Memory) (reached : Reach Boot (Step image) s)
    (switched : s.Switches image t) (record : t.world.suspended t.current = some (.called core' memory'))
    (yields : Yields image next core memory core' memory') (room : 16 ≤ (core.reg .esp).toNat)
    (inside : (core.reg .esp).toNat ≤ (t.world.stack t.current).high) :
    ∀ external, ∃ t', t.step external image.code = some t' ∧ Returns next core t'.core ∧
      t'.core.reg .esp ≠ core.reg .esp := by
  intro external
  obtain ⟨t',step,returns⟩ :=
    (reached_sound reached).yield_returns switched record yields room inside external
  refine ⟨t',step,returns,?_⟩
  rw [returns.esp]
  bv_omega

def yieldCore : Core where
  reg := fun _ => 0x3000
  seg := fun | .cs => 0x08 | _ => 0x10
  eip := 44
  eflags := 0x202

theorem sample_yield : ∃ (s t : SwitchRun Unit) (memory : Memory) (core' : Core) (memory' : Memory),
    Reach Boot (Step sampleImage) s ∧ s.Switches sampleImage t ∧
    t.world.suspended t.current = some (.called core' memory') ∧
    Yields sampleImage 45 yieldCore memory core' memory' ∧ (t.world.stack t.current).high = 0x3000 := by
  obtain ⟨first,reached,same,threads,stack,_,pointer,other⟩ := sample_reached yieldCore
  have fetched : sampleImage.code yieldCore.eip = some (.call sampleImage.directSchedulerEntry,45) := rfl
  obtain ⟨core',memory',atIret,after,run,call,_,pushed⟩ :=
    yield_steps sampleImage yieldCore first.memory fetched (by decide)
  have size : (core'.reg .esp).toNat + 4 * 4 = 0x3000 := pushed.esp
  let second : SwitchRun Unit := ⟨core',memory',first.world,first.ports ++ []⟩
  have works : first.Works second := by
    refine ⟨core',memory',first.world.keyboard,[],?_⟩
    have kept : overlay (fun b => first.world.threads.alive.any
        (fun u => u != first.current && first.world.needs b u)) first.memory memory' = memory' := by
      funext b
      unfold overlay
      split
      · rename_i need
        obtain ⟨u,member,need⟩ := List.any_eq_true.mp need
        rw [threads] at member
        have notBoot : u ≠ 100 := by
          rintro rfl
          rw [SwitchRun.current,threads] at need
          contradiction
        have kernelThread : u = 300 := by simpa [sampleThreads,notBoot] using member
        have high : 0x3000 ≤ b := by
          simp only [kernelThread,Suspensions.needs,Bool.and_eq_true,decide_eq_true_eq,pointer] at need
          omega
        exact (pushed.kept b (.inr high)).symm
      · rfl
    rw [kept]
  have atFirst := reached.advance (.inl works)
  have esp : second.esp.toNat = 0x2ff0 := by
    change (core'.reg .esp).toNat = _
    omega
  have stacked : second.world.stack second.current = ⟨0x1000,0x3000⟩ := stack
  have segments : core'.seg = yieldCore.seg := pushed.seg
  have ring : second.core.ring = 0 := by
    change core'.seg .cs &&& 3 = 0
    rw [segments]
    decide
  have performed : ∃ later, second.world.threads.perform 0 (switchOp none (second.esp.toNat - 52)) =
      some (some later) ∧ later.tasks.currentRunning = 300 ∧ ∀ e, ∃ last,
      later.perform 0 (switchOp none e) = some (some last) ∧ last.tasks.currentRunning = 100 := by
    change ∃ later, first.world.threads.perform 0 _ = _ ∧ _
    rw [threads]
    exact ⟨_,rfl,rfl,fun e => ⟨_,rfl,rfl⟩⟩
  obtain ⟨later,performed,current,back⟩ := performed
  have boot : second.current = 100 := by
    change first.world.threads.tasks.currentRunning = 100
    rw [threads]
    rfl
  have room : second.HasRoom := by
    rw [HasRoom,stacked,esp]
    decide
  obtain ⟨third,switched,world⟩ := switch_to ring room call performed
  have atThird := atFirst.advance (.inr (.inr (.inr switched)))
  have running : third.current = 300 := by
    rw [SwitchRun.current,world]
    exact current
  -- the other thread goes as far as its own call
  let yielding : Core := ⟨fun _ => 0xcf00,fun _ => 0x08,43,0⟩
  let fourth : SwitchRun Unit := ⟨yielding,overlay (fun b => third.world.threads.alive.any
    (fun u => u != third.current && third.world.needs b u)) third.memory third.memory,third.world,third.ports ++ []⟩
  have atFourth : Reach Boot (Step sampleImage) fourth :=
    atThird.advance (.inl ⟨yielding,third.memory,third.world.keyboard,[],rfl⟩)
  have room' : fourth.HasRoom := by
    change (third.world.stack third.current).low + 60 ≤ 0xcf00 ∧ 0xcf00 ≤ (third.world.stack third.current).high
    rw [running,world]
    change (first.world.stack 300).low + 60 ≤ 0xcf00 ∧ 0xcf00 ≤ (first.world.stack 300).high
    rw [other]
    decide
  obtain ⟨last,again,home⟩ := back (fourth.esp.toNat - 52)
  have performed' : fourth.world.threads.perform 0 (switchOp none (fourth.esp.toNat - 52)) =
      some (some last) := by
    change third.world.threads.perform 0 _ = _
    rw [world]
    exact again
  have call' : sampleImage.code fourth.core.eip = some (.call sampleImage.schedulerEntry,44) := rfl
  obtain ⟨t,switched',world'⟩ := switch_to (show yielding.ring = 0 by decide) room' call' performed'
  have resumed : t.current = 100 := by
    rw [SwitchRun.current,world']
    exact home
  refine ⟨fourth,t,first.memory,core',memory',atFourth,switched',?_,⟨fetched,run⟩,?_⟩
  · rw [resumed,world']
    change update third.world.suspended third.current _ 100 = _
    rw [running,update_of_ne (by decide),world]
    change update first.world.suspended second.current _ 100 = _
    rw [boot,update_self]
  · rw [resumed,world']
    change (third.world.stack 100).high = _
    rw [world]
    change (first.world.stack 100).high = _
    rw [← boot]
    change (first.world.stack first.current).high = _
    rw [stack]

/-- The yield of `sample_yield` returns behind its call. -/
theorem yield_returns_below : ∃ (s t t' : SwitchRun Unit), Reach Boot (Step sampleImage) s ∧
    s.Switches sampleImage t ∧ t.step (fun _ => none) sampleImage.code = some t' ∧
    Returns 45 yieldCore t'.core ∧ t'.core.reg .esp ≠ yieldCore.reg .esp := by
  obtain ⟨s,t,memory,core',memory',reached,switched,record,yields,high⟩ := sample_yield
  obtain ⟨t',step,returns⟩ := direct_yield_lowers_stack sampleImage s t 45 yieldCore core' memory memory'
    reached switched record yields (by decide) (by rw [high]; decide) (fun _ => none)
  exact ⟨s,t,t',reached,switched,step,returns⟩

/-- A thread yields with its stack pointer at 0x3000 and goes on with 0x2ffc. -/
theorem stack_lower_after_yield : ∃ (s t t' : SwitchRun Unit) (memory : Memory) (core' : Core)
    (memory' : Memory), Reach Boot (Step sampleImage) s ∧ s.Switches sampleImage t ∧
    t.world.suspended t.current = some (.called core' memory') ∧
    Yields sampleImage 45 yieldCore memory core' memory' ∧ yieldCore.reg .esp = 0x3000 ∧
    t.step (fun _ => none) sampleImage.code = some t' ∧ t'.core.eip = 45 ∧ t'.core.reg .esp = 0x2ffc := by
  obtain ⟨s,t,memory,core',memory',reached,switched,record,yields,high⟩ := sample_yield
  obtain ⟨t',step,returns⟩ := (reached_sound reached).yield_returns switched record yields (by decide)
    (by rw [high]; decide) (fun _ => none)
  exact ⟨s,t,t',memory,core',memory',reached,switched,record,yields,rfl,step,returns.eip,returns.esp⟩

end SwitchRun

end RudimentaryKernel
