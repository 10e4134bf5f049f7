import RudimentaryKernel.Switching
import RudimentaryKernel.ThreadPlacement

/-! Each suspended thread has an intact switch frame at its saved stack pointer, and so a
switch returns the next thread to its own call, or starts it. -/
namespace RudimentaryKernel

open Function ByteMemory X86

namespace Tasks

variable {ι : Type} {s t : Tasks ι} {e sp : Nat}

theorem popReadyQueue_stackPointer {c : Nat} (popped : s.popReadyQueue = some (t,c)) :
    t.stackPointer = s.stackPointer := by
  unfold popReadyQueue at popped
  split at popped
  · contradiction
  · obtain ⟨rfl,_⟩ := Prod.mk.inj (Option.some.inj popped)
    rfl

theorem choose_stackPointer (chosen : s.choose = some t) : t.stackPointer = s.stackPointer := by
  unfold choose at chosen
  split at chosen
  · cases chosen
    rfl
  · obtain ⟨⟨u,c⟩,popped,rfl⟩ := Option.map_eq_some_iff.mp chosen
    exact popReadyQueue_stackPointer popped
  · obtain ⟨⟨u,c⟩,popped,rfl⟩ := Option.map_eq_some_iff.mp chosen
    exact popReadyQueue_stackPointer popped
  · obtain ⟨⟨u,c⟩,popped,rfl⟩ := Option.map_eq_some_iff.mp chosen
    change u.stackPointer = _
    exact popReadyQueue_stackPointer popped
  · cases chosen
    rfl

theorem scheduler_stackPointer (done : s.scheduler e = some (t,sp)) :
    t.stackPointer = update s.stackPointer s.currentRunning e := by
  obtain ⟨u,chosen,same⟩ := Option.map_eq_some_iff.mp done
  obtain ⟨rfl,_⟩ := Prod.mk.inj same
  change u.stackPointer = _
  rw [choose_stackPointer chosen,settle]
  dsimp only
  split <;> rfl

theorem enqueue_stackPointer [DecidableEq ι] {fuel : Nat} {q : ι} (done : s.enqueue fuel q = some t) :
    t.stackPointer = s.stackPointer ∧ t.currentRunning = s.currentRunning := by
  unfold enqueue at done
  dsimp only at done
  split at done
  · cases done
    exact ⟨rfl,rfl⟩
  · obtain ⟨_,_,rfl⟩ := Option.map_eq_some_iff.mp done
    exact ⟨rfl,rfl⟩

theorem unblock_stackPointer [DecidableEq ι] (q : ι) : (s.unblock q).stackPointer = s.stackPointer ∧
    (s.unblock q).currentRunning = s.currentRunning := by
  unfold unblock
  dsimp only
  split <;> exact ⟨rfl,rfl⟩

theorem splice_stackPointer (t : Nat) : (s.splice t).stackPointer = s.stackPointer := by
  unfold splice
  split <;> rfl

theorem splice_current (real : s.currentRunning ≠ 0) (t : Nat) :
    (s.splice t).currentRunning = s.currentRunning := by
  unfold splice
  rw [if_pos real]

theorem threadCreate_stackPointer (real : s.currentRunning ≠ 0) (user : Bool) (grants : Grants) :
    (∀ v, v ≠ grants.tcb → (s.threadCreate user grants).1.stackPointer v = s.stackPointer v) ∧
    (s.threadCreate user grants).1.currentRunning = s.currentRunning ∧
    ((s.threadCreate user grants).2 ≠ 0 → (s.threadCreate user grants).2 = grants.tcb ∧
      (s.threadCreate user grants).1.stackPointer grants.tcb =
        sub32 (if user then add32 grants.stack stackSize else sub32 (add32 grants.stack stackSize) 4)
          switchFrameSize) := by
  unfold threadCreate prepare
  dsimp only
  split
  · exact ⟨fun _ _ => rfl,rfl,fun refused => absurd rfl refused⟩
  split
  · exact ⟨fun v other => update_of_ne other ..,rfl,fun refused => absurd rfl refused⟩
  split
  · refine ⟨fun v other => ?_,rfl,fun refused => absurd rfl refused⟩
    simp [kprintf,other]
  split
  · refine ⟨fun v other => ?_,rfl,fun refused => absurd rfl refused⟩
    simp [kprintf,freeKstack,other]
  · refine ⟨fun v other => ?_,?_,fun _ => ⟨rfl,?_⟩⟩
    · rw [splice_stackPointer]
      simp [other]
    · refine splice_current ?_ _
      exact real
    · rw [splice_stackPointer]
      simp

end Tasks

namespace TaskRun

variable {ι : Type} {r t : TaskRun ι} {p : Places ι Nat}

theorem Placed.current_alive (placed : r.Placed p) : r.tasks.currentRunning ∈ r.alive :=
  (placed.present _).mp (.inl (List.mem_of_mem_head? placed.represents.running))

theorem remaining_subset : ∀ u ∈ r.remaining, u ∈ r.alive := by
  intro u member
  unfold remaining at member
  split at member
  · exact List.mem_of_mem_erase member
  · exact List.mem_of_mem_erase member
  · exact member

variable [DecidableEq ι] {fuel e : Nat}

theorem perform_switch {q : Option ι} (done : r.perform fuel (SwitchRun.switchOp q e) = some (some t)) :
    t.tasks.stackPointer = update r.tasks.stackPointer r.tasks.currentRunning e ∧
    (∀ u ∈ t.alive, u ∈ r.alive) ∧ r.Permitted (SwitchRun.switchOp q e) := by
  cases q with
  | none =>
    obtain ⟨⟨s,sp⟩,scheduled,rfl⟩ := Option.map_eq_some_iff.mp (Option.some.inj done)
    exact ⟨Tasks.scheduler_stackPointer scheduled,remaining_subset,trivial⟩
  | some q =>
    obtain ⟨outcome,blocked,same⟩ := Option.map_eq_some_iff.mp done
    obtain ⟨⟨s,sp⟩,rfl,rfl⟩ := Option.map_eq_some_iff.mp same
    obtain ⟨u,enqueued,scheduled⟩ := Option.map_eq_some_iff.mp blocked
    obtain ⟨pointer,current⟩ := Tasks.enqueue_stackPointer enqueued
    refine ⟨?_,fun u member => member,trivial⟩
    change s.stackPointer = _
    rw [Tasks.scheduler_stackPointer scheduled,pointer,current]

end TaskRun

namespace Listing

variable {σ : Type} {s : Machine σ}

/-- What `scheduler_entry` saves for a call that returns to `next`. -/
def frameOf (core : Core) (next : Dword) : SwitchFrame where
  gs := (core.seg .gs).setWidth 32
  fs := (core.seg .fs).setWidth 32
  es := (core.seg .es).setWidth 32
  ds := (core.seg .ds).setWidth 32
  edi := core.reg .edi
  esi := core.reg .esi
  ebp := core.reg .ebp
  espUnused := core.reg .esp - 4
  ebx := core.reg .ebx
  edx := core.reg .edx
  ecx := core.reg .ecx
  eax := core.reg .eax
  returnEip := next

theorem saved (room : 56 ≤ s.esp.toNat) (next : Dword) : ∃ argument,
    Pushed s (Op.applyAll save (s.push next.toNat)) (argument :: (frameOf s.core next).words) ∧
    argument + 52 = s.esp.toNat := by
  let words := (frameOf s.core next).words
  have pushed : Pushed s (words.reverse.foldl Machine.push s) (words.reverse.reverse ++ []) := by
    refine (Pushed.refl s).pushAll _ ?_ ?_
    · change 4 * 13 ≤ _
      omega
    · intro v member
      obtain ⟨w,_,rfl⟩ := List.mem_map.mp (List.mem_reverse.mp member)
      exact w.isLt
  rw [List.reverse_reverse,List.append_nil] at pushed
  have esp : (words.reverse.foldl Machine.push s).esp.toNat + 4 * 13 = s.esp.toNat := pushed.esp
  refine ⟨_,?_,esp⟩
  have code : Op.applyAll save (s.push next.toNat) =
      (words.reverse.foldl Machine.push s).push (words.reverse.foldl Machine.push s).esp.toNat := by
    rfl
  rw [code]
  exact pushed.push (by omega) (BitVec.isLt _)

/-- `c` has taken its registers from the frame `f` at `sp` and left by its return address. -/
structure Restored (f : SwitchFrame) (sp : Dword) (c : Core) : Prop where
  eip : c.eip = f.returnEip
  esp : c.reg .esp = sp + 52
  eax : c.reg .eax = f.eax
  ecx : c.reg .ecx = f.ecx
  edx : c.reg .edx = f.edx
  ebx : c.reg .ebx = f.ebx
  ebp : c.reg .ebp = f.ebp
  esi : c.reg .esi = f.esi
  edi : c.reg .edi = f.edi
  ds : c.seg .ds = f.ds.setWidth 16
  es : c.seg .es = f.es.setWidth 16
  fs : c.seg .fs = f.fs.setWidth 16
  gs : c.seg .gs = f.gs.setWidth 16

theorem restored {f : SwitchFrame} (words : Words s.memory (s.core.reg .eax) f.words) :
    Restored f (s.core.reg .eax)
      ((Op.applyAll restore s).drop.jump (BitVec.ofNat 32 (Op.applyAll restore s).top)).core := by
  obtain ⟨gs,fs,es,ds,edi,esi,ebp,_,ebx,edx,ecx,eax,eip,_⟩ := words
  have word : ∀ {n : Nat} {w : Dword}, n = w.toNat → BitVec.ofNat 32 n = w := by
    rintro n w rfl
    rw [BitVec.ofNat_toNat,BitVec.setWidth_eq]
  have selector : ∀ {n : Nat} {w : Dword}, n = w.toNat → BitVec.ofNat 16 n = w.setWidth 16 := by
    rintro n w rfl
    rw [BitVec.ofNat_toNat]
  have above : ∀ a : Dword, a + 4 + 4 + 4 + 4 + 4 + 4 + 4 + 4 + 4 + 4 + 4 + 4 + 4 = a + 52 := by
    intro a
    bv_omega
  exact ⟨word eip,above _,word eax,word ecx,word edx,word ebx,word ebp,word esi,word edi,selector ds,
    selector es,selector fs,selector gs⟩

end Listing

open Listing

namespace KernelImage

variable {σ : Type} {external : Machine σ → Option (Machine σ)} {s t : Machine σ} {next : Dword}

theorem scheduler_entered (room : 60 ≤ s.esp.toNat) (next after target : Dword) : ∃ argument,
    argument + 52 = s.esp.toNat ∧
    Pushed s (((Op.applyAll save (s.push next.toNat)).push after.toNat).jump target)
      (after.toNat :: argument :: (frameOf s.core next).words) := by
  obtain ⟨argument,saved,size⟩ := saved (s := s) (by omega) next
  have length : (Op.applyAll save (s.push next.toNat)).esp.toNat + 4 * 14 = s.esp.toNat := saved.esp
  exact ⟨argument,size,(saved.push (by omega) after.isLt).jump target⟩

/-- A call of `scheduler_entry` is a call of `scheduler` between saving and restoring. -/
theorem steps_switch (image : KernelImage) (external : Machine σ → Option (Machine σ))
    (fetched : image.code s.core.eip = some (.call image.schedulerEntry,next)) : ∃ after,
    s.steps external image.code 17 =
      (external (((Op.applyAll save (s.push next.toNat)).push after.toNat).jump image.scheduler)).bind
        (Machine.steps external image.code 8) ∧
    ∀ t : Machine σ, t.core.eip = after → t.steps external image.code 8 =
      some ((Op.applyAll restore t).drop.jump (BitVec.ofNat 32 (Op.applyAll restore t).top)) := by
  have listing := image.schedulerEntry_holds
  rw [Listing.schedulerEntry,List.append_assoc,List.append_assoc] at listing
  obtain ⟨atCall,saving,after,call,rest⟩ :=
    @steps_ops _ external _ ((s.push next.toNat).jump image.schedulerEntry) _ _ listing
  obtain ⟨_,foreign,_⟩ := image.scheduler_holds
  refine ⟨after,?_,?_⟩
  · rw [Machine.steps,step_fetched fetched,Machine.exec,Option.bind_some]
    refine (steps_add save.length 10 _).trans ?_
    rw [saving,Option.bind_some,Machine.steps,step_fetched call,Machine.exec,Option.bind_some,
      Op.applyAll_jump,Machine.jump_jump,Machine.push_jump,Machine.jump_jump,Machine.steps,
      step_fetched foreign,Machine.exec]
  · rintro t rfl
    obtain ⟨atRet,restoring,_,ret,_⟩ := @steps_ops _ external _ t _ _ rest
    refine (steps_add restore.length 1 _).trans ?_
    rw [restoring,Option.bind_some,Machine.steps,step_fetched ret,Machine.exec,Option.bind_some,
      Machine.drop_jump,Machine.jump_jump,Machine.top_jump,Machine.steps]

theorem kthread_starts (image : KernelImage) (external : Machine σ → Option (Machine σ))
    (entered : t.core.eip = image.kthreadTrampoline) (ring : t.core.ring = 0) (room : 12 ≤ t.esp.toNat) :
    ∃ t', t.steps external image.code 4 = some t' ∧ t'.core.eip = t.core.reg .ebx ∧ t'.core.ring = 0 ∧
      t'.core.eflags = 0x202 ∧ t'.esp = t.esp ∧
      ∀ b, t.esp.toNat ≤ b → t'.memory b = t.memory b := by
  let ops : List Op := [.pushImm 0x202,.pushImm 0x08,.push .ebx]
  have listing : Holds image.code t.core.eip (ops.map .op ++ [.iret]) := by
    rw [entered]
    exact image.kthreadTrampoline_holds
  obtain ⟨last,run,_,iret,_⟩ := @steps_ops _ external _ _ _ _ listing
  have pushed : Pushed t (Op.applyAll ops t) [(t.core.reg .ebx).toNat,0x08,0x202] := by
    refine (Pushed.refl t).pushAll [0x202,0x08,(t.core.reg .ebx).toNat] room ?_
    simpa using (t.core.reg .ebx).isLt
  generalize Op.applyAll ops t = u at run pushed
  have size : u.esp.toNat + 4 * 3 = t.esp.toNat := pushed.esp
  have cs : BitVec.ofNat 16 0x08 &&& 3 = (u.jump last).core.ring := by
    change _ = u.core.seg .cs &&& 3
    rw [pushed.seg]
    exact ring.symm
  refine ⟨(u.jump last).iret,?_,?_⟩
  · refine (steps_add ops.length 1 _).trans ?_
    rw [run,Option.bind_some,Machine.steps,step_fetched iret]
    rfl
  · rw [iret_inner (pushed.jump last).words cs]
    refine ⟨?_,?_,rfl,?_,fun b above => pushed.kept b (.inr above)⟩
    · change BitVec.ofNat 32 _ = _
      rw [BitVec.ofNat_toNat,BitVec.setWidth_eq]
    · change BitVec.ofNat 16 0x08 &&& 3 = 0
      decide
    · change u.esp + 4 + 4 + 4 = _
      bv_omega

theorem uthread_starts (image : KernelImage) (external : Machine σ → Option (Machine σ))
    (entered : t.core.eip = image.uthreadTrampoline) (ring : t.core.ring = 0) (room : 20 ≤ t.esp.toNat) :
    ∃ t', t.steps external image.code 11 = some t' ∧ t'.core.eip = t.core.reg .ebx ∧ t'.core.ring = 3 ∧
      t'.core.eflags = 0x202 ∧ t'.esp = t.core.reg .esi := by
  let pushes : List Op := [.pushImm 0x23,.push .esi,.pushImm 0x202,.pushImm 0x1B,.push .ebx]
  let moves : List Op := [.movAx 0x23,.movSeg .ds,.movSeg .es,.movSeg .fs,.movSeg .gs]
  have listing : Holds image.code t.core.eip ((pushes ++ moves).map .op ++ [.iret]) := by
    rw [entered]
    exact image.uthreadTrampoline_holds
  obtain ⟨last,run,_,iret,_⟩ := @steps_ops _ external _ _ _ _ listing
  have pushed : Pushed t (Op.applyAll pushes t)
      [(t.core.reg .ebx).toNat,0x1B,0x202,(t.core.reg .esi).toNat,0x23] := by
    refine (Pushed.refl t).pushAll [0x23,(t.core.reg .esi).toNat,0x202,0x1B,(t.core.reg .ebx).toNat] room ?_
    simpa using ⟨(t.core.reg .esi).isLt,(t.core.reg .ebx).isLt⟩
  have whole : Op.applyAll (pushes ++ moves) t = Op.applyAll moves (Op.applyAll pushes t) := rfl
  rw [whole] at run
  generalize Op.applyAll pushes t = u at run pushed
  -- the moves change neither the stack nor `cs`
  have words : Words ((Op.applyAll moves u).jump last).memory ((Op.applyAll moves u).jump last).esp
      [(t.core.reg .ebx).toNat,0x1B,0x202,(t.core.reg .esi).toNat,0x23] := pushed.words
  have cs : BitVec.ofNat 16 0x1B &&& 3 ≠ ((Op.applyAll moves u).jump last).core.ring := by
    have same : ((Op.applyAll moves u).jump last).core.ring = u.core.seg .cs &&& 3 := rfl
    have kernel : t.core.seg .cs &&& 3 = 0 := ring
    rw [same,pushed.seg,kernel]
    decide
  refine ⟨((Op.applyAll moves u).jump last).iret,?_,?_⟩
  · refine (steps_add (pushes ++ moves).length 1 _).trans ?_
    rw [run,Option.bind_some,Machine.steps,step_fetched iret]
    rfl
  · rw [iret_outer words cs]
    refine ⟨?_,?_,rfl,?_⟩
    · change BitVec.ofNat 32 _ = _
      rw [BitVec.ofNat_toNat,BitVec.setWidth_eq]
    · change BitVec.ofNat 16 0x1B &&& 3 = 3
      decide
    · change BitVec.ofNat 32 _ = _
      rw [BitVec.ofNat_toNat,BitVec.setWidth_eq]

end KernelImage

namespace SwitchRun

variable {ι : Type} {image : KernelImage} {s t : SwitchRun ι} {m m' : Memory} {w w' : Suspensions ι}
  {u : Nat} {record : Suspended}

/-- What the stack of `u` holds from its saved stack pointer on. -/
def Intact (image : KernelImage) (m : Memory) (w : Suspensions ι) (u : Nat) : Suspended → Prop
  | .called core memory => ∃ next, image.code core.eip = some (.call image.schedulerEntry,next) ∧
      core.ring = 0 ∧ w.threads.tasks.stackPointer u + 52 = (core.reg .esp).toNat ∧
      Words m (BitVec.ofNat 32 (w.threads.tasks.stackPointer u)) (frameOf core next).words ∧
      ∀ b, (core.reg .esp).toNat ≤ b → b < (w.stack u).high → m b = memory b
  | .created user entry =>
      Words m (BitVec.ofNat 32 (w.threads.tasks.stackPointer u))
        (image.firstFrame user entry (w.userSp u)).words ∧
      if user then w.threads.tasks.stackPointer u + 52 = (w.stack u).high ∧ w.userSp u < 2^32
      else w.threads.tasks.stackPointer u + 56 = (w.stack u).high ∧
        load m 4 ((w.stack u).high - 4) = image.r0Exit.toNat

/-- The stack of `u` is ready for `u` to go on. -/
structure Parked (image : KernelImage) (m : Memory) (w : Suspensions ι) (u : Nat) (record : Suspended) :
    Prop where
  low : (w.stack u).low ≤ w.threads.tasks.stackPointer u
  frame : w.threads.tasks.stackPointer u + 52 ≤ (w.stack u).high
  high : (w.stack u).high < 2^32
  intact : Intact image m w u record

theorem Parked.congr (parked : Parked image m w u record)
    (pointer : w'.threads.tasks.stackPointer u = w.threads.tasks.stackPointer u)
    (stack : w'.stack u = w.stack u) (userSp : w'.userSp u = w.userSp u)
    (same : ∀ b, w.threads.tasks.stackPointer u ≤ b → b < (w.stack u).high → m' b = m b) :
    Parked image m' w' u record := by
  have frame := parked.frame
  have high := parked.high
  have start : (BitVec.ofNat 32 (w.threads.tasks.stackPointer u)).toNat = w.threads.tasks.stackPointer u :=
    Nat.mod_eq_of_lt (by omega)
  have words : ∀ {f : SwitchFrame}, Words m (BitVec.ofNat 32 (w.threads.tasks.stackPointer u)) f.words →
      Words m' (BitVec.ofNat 32 (w.threads.tasks.stackPointer u)) f.words := by
    intro f words
    have length : f.words.length = 13 := rfl
    exact words.congr (by omega) (fun b low high => same b (by omega) (by omega))
  refine ⟨by rw [pointer,stack]; exact parked.low,by rw [pointer,stack]; exact frame,
    by rw [stack]; exact high,?_⟩
  have intact := parked.intact
  cases record with
  | called core memory =>
    obtain ⟨next,fetched,ring,esp,saved,above⟩ := intact
    refine ⟨next,fetched,ring,?_,?_,?_⟩
    · rw [pointer]
      exact esp
    · rw [pointer]
      exact words saved
    · intro b low inside
      rw [stack] at inside
      rw [same b (by omega) inside]
      exact above b low inside
  | created user entry =>
    obtain ⟨saved,rest⟩ := intact
    refine ⟨?_,?_⟩
    · rw [pointer,userSp]
      exact words saved
    · rw [pointer,stack,userSp]
      cases user with
      | true => exact rest
      | false =>
        obtain ⟨size,exit⟩ := rest
        refine ⟨size,?_⟩
        rw [load_congr (by omega) (fun b low _ => same b (by omega) (by omega))]
        exact exit

/-- Stacks are apart, and every thread but the running one is parked on its own. -/
structure Sound (image : KernelImage) (s : SwitchRun ι) : Prop where
  placed : ∃ p, s.world.threads.Placed p
  high : ∀ u ∈ s.world.threads.alive, (s.world.stack u).high < 2^32
  apart : ∀ u ∈ s.world.threads.alive, ∀ v ∈ s.world.threads.alive, u ≠ v →
    (s.world.stack u).Apart (s.world.stack v)
  parked : ∀ u ∈ s.world.threads.alive, u ≠ s.current →
    ∃ record, s.world.suspended u = some record ∧ Parked image s.memory s.world u record

theorem boot_sound (boot : Boot s) : Sound image s := by
  obtain ⟨booted,high⟩ := boot
  have alone := booted.2.1
  refine ⟨⟨_,TaskRun.boot_placed booted⟩,?_,?_,?_⟩
  · intro u member
    rw [alone,List.mem_singleton] at member
    rw [member]
    exact high
  · intro u first v second other
    rw [alone,List.mem_singleton] at first second
    exact absurd (first.trans second.symm) other
  · intro u member other
    rw [alone,List.mem_singleton] at member
    exact absurd member other

theorem overlay_needed {needed : Nat → Bool} {b : Nat} (need : needed b = true) (scratch : Memory) :
    overlay needed m scratch b = m b := if_pos need

theorem Works.spares (works : s.Works t) {u b : Nat} (member : u ∈ s.world.threads.alive) (other : u ≠ s.current)
    (low : s.world.threads.tasks.stackPointer u ≤ b) (high : b < (s.world.stack u).high) : t.memory b = s.memory b := by
  obtain ⟨core,scratch,_,_,rfl⟩ := works
  dsimp only
  refine overlay_needed ?_ scratch
  rw [List.any_eq_true]
  refine ⟨u,member,?_⟩
  simp only [Suspensions.needs,bne_iff_ne,ne_eq,Bool.and_eq_true,decide_eq_true_eq]
  exact ⟨other,low,high⟩

theorem works_sound (sound : Sound image s) (works : s.Works t) : Sound image t := by
  have spares := fun u b => works.spares (u := u) (b := b)
  obtain ⟨core,scratch,_,_,rfl⟩ := works
  refine ⟨sound.placed,sound.high,sound.apart,?_⟩
  intro u member other
  obtain ⟨record,known,parked⟩ := sound.parked u member other
  exact ⟨record,known,parked.congr rfl rfl rfl (fun b => spares u b member other)⟩

section Operations

variable [DecidableEq ι]

theorem manages_sound (sound : Sound image s) (manages : s.Manages t) : Sound image t := by
  obtain ⟨op,fuel,threads,kind,permitted,done,rfl⟩ := manages
  obtain ⟨p,placed⟩ := sound.placed
  have same : threads.tasks.stackPointer = s.world.threads.tasks.stackPointer ∧
      threads.tasks.currentRunning = s.current ∧ threads.alive = s.world.threads.alive := by
    rcases kind with rfl | rfl | ⟨q,rfl⟩
    · cases done
      exact ⟨rfl,rfl,rfl⟩
    · cases done
      exact ⟨rfl,rfl,rfl⟩
    · cases done
      obtain ⟨pointer,current⟩ := Tasks.unblock_stackPointer (s := s.world.threads.tasks) q
      exact ⟨pointer,current,rfl⟩
  obtain ⟨pointer,current,alive⟩ := same
  refine ⟨TaskRun.step_placed placed ⟨op,fuel,permitted,done⟩,?_,?_,?_⟩
  · dsimp only
    rw [alive]
    exact sound.high
  · dsimp only
    rw [alive]
    exact sound.apart
  · intro u member other
    change u ∈ threads.alive at member
    change u ≠ threads.tasks.currentRunning at other
    rw [alive] at member
    rw [current] at other
    obtain ⟨record,known,parked⟩ := sound.parked u member other
    exact ⟨record,known,parked.congr (congrFun pointer u) rfl rfl (fun _ _ _ => rfl)⟩

end Operations

section Creation

variable {grants : Grants} {entry : Dword}

theorem startFrame_of (user : Bool) (entry : Dword) : image.startFrame (.of user entry) =
    image.firstFrame user entry (if user then Kernel.userStackPointer else 0) := by
  cases user <;> rfl

theorem bootstrap_user (room : grants.stack + Tasks.stackSize < 2^32)
    (frame : grants.frame + pageSize < 2^32) : image.bootstrap m true grants entry =
      (storeWords (store (store m 4 (grants.frame + 4092) image.callExit.toNat) 4 (grants.frame + 4088)
        image.callExit.toNat) (BitVec.ofNat 32 (grants.stack + Tasks.stackSize - 52))
        (image.startFrame (.of true entry)).words,Kernel.userStackPointer) := by
  unfold Tasks.stackSize at room ⊢
  unfold pageSize at frame
  have first : sub32 (add32 grants.frame 4096) 4 = grants.frame + 4092 := by
    rw [add32_eq (by omega),sub32_eq (by omega) (by omega)]
    omega
  have second : add32 grants.frame (sub32 Kernel.userStackPointer 0xBFFFF000) = grants.frame + 4088 := by
    rw [show sub32 Kernel.userStackPointer 0xBFFFF000 = 4088 from by decide,add32_eq (by omega)]
  have top : sub32 (add32 grants.stack 0x2000) 52 = grants.stack + 0x2000 - 52 := by
    rw [add32_eq (by omega),sub32_eq (by omega) (by omega)]
  rw [KernelImage.bootstrap,if_pos rfl,startFrame_of,if_pos rfl]
  dsimp only
  rw [pageSize,userStackBase,Tasks.stackSize,Tasks.switchFrameSize,top,first,second]

theorem bootstrap_kernel (room : grants.stack + Tasks.stackSize < 2^32) :
    image.bootstrap m false grants entry =
      (storeWords (store m 4 (grants.stack + Tasks.stackSize - 4) image.r0Exit.toNat)
        (BitVec.ofNat 32 (grants.stack + Tasks.stackSize - 56)) (image.startFrame (.of false entry)).words,0) := by
  unfold Tasks.stackSize at room ⊢
  have top : sub32 (add32 grants.stack 0x2000) 4 = grants.stack + 0x2000 - 4 := by
    rw [add32_eq (by omega),sub32_eq (by omega) (by omega)]
  have below : sub32 (grants.stack + 0x2000 - 4) 52 = grants.stack + 0x2000 - 56 := by
    rw [sub32_eq (by omega) (by omega)]
    omega
  rw [KernelImage.bootstrap,if_neg (by decide),startFrame_of,if_neg (by decide)]
  dsimp only
  rw [Tasks.stackSize,Tasks.switchFrameSize,top,below]

theorem bootstrap_apart {user : Bool} {b : Nat} (room : grants.stack + Tasks.stackSize < 2^32)
    (frame : user → grants.frame + pageSize < 2^32 ∧
      (b < grants.frame ∨ grants.frame + pageSize ≤ b))
    (outside : b < grants.stack ∨ grants.stack + Tasks.stackSize ≤ b) :
    (image.bootstrap m user grants entry).1 b = m b := by
  have length : ∀ f : SwitchFrame, f.words.length = 13 := fun _ => rfl
  have start : ∀ below, (BitVec.ofNat 32 (grants.stack + Tasks.stackSize - below)).toNat =
      grants.stack + Tasks.stackSize - below := fun below => Nat.mod_eq_of_lt (by omega)
  have size : Tasks.stackSize = 0x2000 := rfl
  cases user with
  | true =>
    obtain ⟨inside,apart⟩ := frame rfl
    rw [bootstrap_user room inside]
    unfold pageSize at inside apart
    dsimp only
    rw [storeWords_apart,store_apart (by omega) (by omega),store_apart (by omega) (by omega)]
    · rw [start,length]
      omega
    · rw [start,length]
      omega
  | false =>
    rw [bootstrap_kernel room]
    dsimp only
    rw [storeWords_apart,store_apart (by omega) (by omega)]
    · rw [start,length]
      omega
    · rw [start,length]
      omega

theorem bootstrap_parked {user : Bool} (room : grants.stack + Tasks.stackSize < 2^32)
    (frame : user → grants.frame + pageSize < 2^32)
    (pointer : w.threads.tasks.stackPointer u = sub32 (if user then add32 grants.stack Tasks.stackSize
      else sub32 (add32 grants.stack Tasks.stackSize) 4) Tasks.switchFrameSize)
    (stack : w.stack u = ⟨grants.stack,grants.stack + Tasks.stackSize⟩)
    (userSp : w.userSp u = (image.bootstrap m user grants entry).2) :
    Parked image (image.bootstrap m user grants entry).1 w u (.created user entry) := by
  have length : ∀ f : SwitchFrame, f.words.length = 13 := fun _ => rfl
  have small : ∀ f : SwitchFrame, ∀ v ∈ f.words, v < 2^32 := by
    intro f v member
    obtain ⟨w,_,rfl⟩ := List.mem_map.mp member
    exact w.isLt
  have start : ∀ below, (BitVec.ofNat 32 (grants.stack + Tasks.stackSize - below)).toNat =
      grants.stack + Tasks.stackSize - below := fun below => Nat.mod_eq_of_lt (by omega)
  have size : Tasks.stackSize = 0x2000 := rfl
  rw [add32_eq room,Tasks.switchFrameSize] at pointer
  cases user with
  | true =>
    rw [if_pos rfl,sub32_eq room (by omega)] at pointer
    rw [bootstrap_user room (frame rfl)] at userSp ⊢
    refine ⟨by rw [pointer,stack]; dsimp only; omega,by rw [pointer,stack]; dsimp only; omega,
      by rw [stack]; exact room,?_,?_⟩
    · rw [pointer,userSp,startFrame_of]
      exact storeWords_words (by rw [start,length]; omega) (small _)
    · rw [pointer,stack,userSp]
      exact ⟨by dsimp only; omega,show Kernel.userStackPointer < 2^32 from by decide⟩
  | false =>
    rw [if_neg (by decide),sub32_eq room (by omega),sub32_eq (by omega) (by omega)] at pointer
    have below : grants.stack + Tasks.stackSize - 4 - 52 = grants.stack + Tasks.stackSize - 56 := by omega
    rw [below] at pointer
    rw [bootstrap_kernel room] at userSp ⊢
    refine ⟨by rw [pointer,stack]; dsimp only; omega,by rw [pointer,stack]; dsimp only; omega,
      by rw [stack]; exact room,?_,?_⟩
    · rw [pointer,userSp,startFrame_of]
      exact storeWords_words (by rw [start,length]; omega) (small _)
    · rw [pointer,stack]
      refine ⟨by dsimp only; omega,?_⟩
      dsimp only
      rw [load_congr (m := store m 4 (grants.stack + Tasks.stackSize - 4) image.r0Exit.toNat) (by omega),
        load_store (by omega)]
      · exact Nat.mod_eq_of_lt image.r0Exit.isLt
      · intro b low _
        exact storeWords_apart (by rw [start,length]; omega) (by rw [start,length]; omega)

variable [DecidableEq ι]

theorem creates_sound (sound : Sound image s) (creates : s.Creates image t) : Sound image t := by
  obtain ⟨user,grants,entry,threads,permitted,done,spacious,rfl⟩ := creates
  obtain ⟨p,placed⟩ := sound.placed
  have real : s.world.threads.tasks.currentRunning ≠ 0 :=
    placed.represents.real _ (List.mem_of_mem_head? placed.represents.running)
  obtain ⟨elsewhere,current,created⟩ := Tasks.threadCreate_stackPointer real user grants
  have later := TaskRun.step_placed placed ⟨_,0,permitted,done⟩
  have fresh : ∀ u ∈ s.world.threads.alive, u ≠ grants.tcb := by
    rintro u member rfl
    exact permitted.1 member
  have result : threads = ⟨(s.world.threads.tasks.threadCreate user grants).1,
      if (s.world.threads.tasks.threadCreate user grants).2 = 0 then s.world.threads.alive
      else (s.world.threads.tasks.threadCreate user grants).2 :: s.world.threads.alive⟩ :=
    (Option.some.inj (Option.some.inj done)).symm
  subst threads
  split
  · rename_i refused
    rw [if_pos refused] at later
    refine ⟨later,sound.high,sound.apart,?_⟩
    intro u member other
    change u ≠ (s.world.threads.tasks.threadCreate user grants).1.currentRunning at other
    rw [current] at other
    obtain ⟨record,known,parked⟩ := sound.parked u member other
    exact ⟨record,known,parked.congr (elsewhere u (fresh u member)) rfl rfl (fun _ _ _ => rfl)⟩
  · rename_i granted
    obtain ⟨address,pointer⟩ := created granted
    obtain ⟨room,apart,frame⟩ := spacious granted
    rw [if_neg granted,address] at later
    rw [address]
    have stackOf : ∀ u ∈ s.world.threads.alive, update s.world.stack grants.tcb
        ⟨grants.stack,grants.stack + Tasks.stackSize⟩ u = s.world.stack u :=
      fun u member => update_of_ne (fresh u member) ..
    refine ⟨later,?_,?_,?_⟩
    · intro u member
      dsimp only
      rcases List.mem_cons.mp member with rfl | old
      · rw [update_self]
        exact room
      · rw [stackOf u old]
        exact sound.high u old
    · intro u first v second other
      dsimp only
      rcases List.mem_cons.mp first with rfl | first <;> rcases List.mem_cons.mp second with rfl | second
      · contradiction
      · rw [update_self,stackOf v second]
        exact (apart v second).symm
      · rw [update_self,stackOf u first]
        exact apart u first
      · rw [stackOf u first,stackOf v second]
        exact sound.apart u first v second other
    · intro u member other
      change u ≠ (s.world.threads.tasks.threadCreate user grants).1.currentRunning at other
      rw [current] at other
      rcases List.mem_cons.mp member with rfl | old
      · refine ⟨_,update_self ..,?_⟩
        exact bootstrap_parked room (fun user => (frame user).1) pointer (update_self ..) (update_self ..)
      · obtain ⟨record,known,parked⟩ := sound.parked u old other
        refine ⟨record,(update_of_ne (fresh u old) ..).trans known,?_⟩
        refine parked.congr (elsewhere u (fresh u old)) (stackOf u old) (update_of_ne (fresh u old) ..) ?_
        intro b low high
        have mine := parked.low
        refine bootstrap_apart room (fun user => ⟨(frame user).1,?_⟩) ?_
        · have away := (frame user).2 u old
          unfold Span.Apart at away
          dsimp only at away
          omega
        · have away := apart u old
          unfold Span.Apart at away
          dsimp only at away
          omega

end Creation

section Switching

variable [DecidableEq ι]

theorem schedulerCall_back {fuel : Nat} {q : Option ι} {scratch : Scratch} {back : SwitchRun ι}
    (called : schedulerCall fuel q scratch s = some back) : ∃ threads,
    s.world.threads.perform fuel (switchOp q (load s.memory 4 (s.esp + 4).toNat)) = some (some threads) ∧
    back.world = { s.world with threads := threads } ∧ back.core.eip = BitVec.ofNat 32 s.top ∧
    back.core.reg .eax = BitVec.ofNat 32 (threads.tasks.stackPointer threads.tasks.currentRunning) ∧
    back.core.seg = s.core.seg ∧
    ∀ u ∈ threads.alive, ∀ b, threads.tasks.stackPointer u ≤ b → b < (s.world.stack u).high →
      back.memory b = s.memory b := by
  obtain ⟨threads,joined,rfl⟩ := Option.map_eq_some_iff.mp called
  refine ⟨threads,Option.join_eq_some_iff.mp joined,rfl,rfl,rfl,rfl,?_⟩
  intro u member b low high
  dsimp only
  refine overlay_needed ?_ scratch.memory
  rw [List.any_eq_true]
  refine ⟨u,member,?_⟩
  simp only [Suspensions.needs,Bool.and_eq_true,decide_eq_true_eq]
  exact ⟨low,high⟩

/-- One call of `scheduler_entry` from `s`, seen from its two ends. -/
theorem switch_run {fuel : Nat} {q : Option ι} {scratch : Scratch} {next : Dword} {last : SwitchRun ι}
    (room : 60 ≤ s.esp.toNat) (high : s.esp.toNat ≤ (s.world.stack s.current).high)
    (fetched : image.code s.core.eip = some (.call image.schedulerEntry,next))
    (run : s.steps (schedulerCall fuel q scratch) image.code 17 = some last) :
    ∃ argument threads, argument + 52 = s.esp.toNat ∧
      s.world.threads.perform fuel (switchOp q argument) = some (some threads) ∧
      last.world = { s.world with threads := threads } ∧ last.core.seg .cs = s.core.seg .cs ∧
      (∀ u ∈ threads.alive, ∀ b, threads.tasks.stackPointer u ≤ b → b < (s.world.stack u).high →
        b + 8 < argument ∨ s.esp.toNat ≤ b → last.memory b = s.memory b) ∧
      (s.current ∈ threads.alive → threads.tasks.stackPointer s.current = argument →
        Words last.memory (BitVec.ofNat 32 argument) (frameOf s.core next).words) ∧
      ∀ f : SwitchFrame,
        Words last.memory (BitVec.ofNat 32 (threads.tasks.stackPointer threads.tasks.currentRunning)) f.words →
        Restored f (BitVec.ofNat 32 (threads.tasks.stackPointer threads.tasks.currentRunning)) last.core := by
  obtain ⟨after,whole,tail⟩ := image.steps_switch (schedulerCall fuel q scratch) fetched
  rw [whole] at run
  obtain ⟨back,called,rest⟩ := Option.bind_eq_some_iff.mp run
  obtain ⟨argument,size,pushed⟩ := KernelImage.scheduler_entered room next after image.scheduler
  generalize ((Op.applyAll save (s.push next.toNat)).push after.toNat).jump image.scheduler = entered
    at called pushed
  have length := pushed.esp
  change _ + 4 * 15 = _ at length
  have bound := s.esp.isLt
  have small : (BitVec.ofNat 32 argument).toNat = argument := Nat.mod_eq_of_lt (by omega)
  obtain ⟨top,argued,frame⟩ := pushed.words
  obtain ⟨threads,performed,world,eip,eax,seg,kept⟩ := schedulerCall_back called
  rw [argued,pushed.world] at performed
  rw [pushed.world] at world kept
  change _ = BitVec.ofNat 32 (load entered.memory 4 entered.esp.toNat) at eip
  rw [top,BitVec.ofNat_toNat,BitVec.setWidth_eq] at eip
  rw [tail back eip] at rest
  obtain rfl := Option.some.inj rest
  refine ⟨argument,threads,size,performed,world,?_,?_,?_,?_⟩
  · change back.core.seg .cs = _
    rw [seg,pushed.seg]
  · intro u member b above below outside
    change back.memory b = _
    rw [kept u member b above below,pushed.kept b (by omega)]
  · intro member pointer
    have start : entered.esp + 4 + 4 = BitVec.ofNat 32 argument := by
      bv_omega
    rw [start] at frame
    apply frame.congr
    · change _ + 4 * 13 ≤ _
      omega
    · intro b above below
      change _ < _ + 4 * 13 at below
      exact kept _ member b (by omega) (by omega)
  · intro f words
    rw [← eax] at words ⊢
    exact restored words

theorem switch_completes {fuel : Nat} {q : Option ι} {next : Dword} {argument : Nat} {threads : TaskRun ι}
    (room : 60 ≤ s.esp.toNat) (size : argument + 52 = s.esp.toNat)
    (fetched : image.code s.core.eip = some (.call image.schedulerEntry,next))
    (performed : s.world.threads.perform fuel (switchOp q argument) = some (some threads)) (scratch : Scratch) :
    ∃ last, s.steps (schedulerCall fuel q scratch) image.code 17 = some last := by
  obtain ⟨after,whole,tail⟩ := image.steps_switch (schedulerCall fuel q scratch) fetched
  obtain ⟨same,equal,pushed⟩ := KernelImage.scheduler_entered room next after image.scheduler
  rw [whole]
  generalize ((Op.applyAll save (s.push next.toNat)).push after.toNat).jump image.scheduler = entered
    at pushed
  obtain ⟨top,argued,_⟩ := pushed.words
  have unique : same = argument := by omega
  rw [unique] at argued
  have called : ∃ back, schedulerCall fuel q scratch entered = some back := by
    unfold schedulerCall
    dsimp only
    rw [argued,pushed.world,Option.join_eq_some_iff.mpr performed]
    exact ⟨_,rfl⟩
  obtain ⟨back,called⟩ := called
  obtain ⟨_,_,_,eip,_⟩ := schedulerCall_back called
  change _ = BitVec.ofNat 32 (load entered.memory 4 entered.esp.toNat) at eip
  rw [top,BitVec.ofNat_toNat,BitVec.setWidth_eq] at eip
  exact ⟨_,by rw [called,Option.bind_some,tail back eip]⟩

theorem switch_to {fuel : Nat} {q : Option ι} {next : Dword} {threads : TaskRun ι} (ring : s.core.ring = 0)
    (room : s.HasRoom) (fetched : image.code s.core.eip = some (.call image.schedulerEntry,next))
    (performed : s.world.threads.perform fuel (switchOp q (s.esp.toNat - 52)) = some (some threads)) :
    ∃ t, s.Switches image t ∧ t.world = { s.world with
      threads := threads
      suspended := update s.world.suspended s.current (some (.called s.core s.memory)) } := by
  have space := room.1
  obtain ⟨last,run⟩ := switch_completes (by omega) (by omega) fetched performed ⟨0,0,0,0,s.memory,[]⟩
  obtain ⟨argument,same,size,again,world,_⟩ := switch_run (by omega) room.2 fetched run
  have equal : argument = s.esp.toNat - 52 := by omega
  rw [equal,performed] at again
  have unique : threads = same := Option.some.inj (Option.some.inj again)
  refine ⟨_,⟨fuel,q,_,next,last,ring,room,fetched,run,rfl⟩,?_⟩
  dsimp only
  rw [world,unique]

/-- After a switch every thread is parked, and the next one has taken its registers back. -/
theorem Sound.switched (sound : Sound image s) (switched : s.Switches image t) :
    (∃ p, t.world.threads.Placed p) ∧
    (∀ u ∈ t.world.threads.alive, u ∈ s.world.threads.alive) ∧ t.world.stack = s.world.stack ∧
    t.core.seg .cs = s.core.seg .cs ∧
    (∀ u ∈ t.world.threads.alive, ∃ record, t.world.suspended u = some record ∧
      Parked image t.memory t.world u record) ∧
    ∀ f : SwitchFrame,
      Words t.memory (BitVec.ofNat 32 (t.world.threads.tasks.stackPointer t.current)) f.words →
      Restored f (BitVec.ofNat 32 (t.world.threads.tasks.stackPointer t.current)) t.core := by
  obtain ⟨fuel,q,scratch,next,last,ring,⟨low,inside⟩,fetched,run,rfl⟩ := switched
  obtain ⟨p,placed⟩ := sound.placed
  have alive := placed.current_alive
  obtain ⟨argument,threads,size,performed,world,cs,kept,mine,restored⟩ :=
    switch_run (by omega) inside fetched run
  obtain ⟨pointer,subset,permitted⟩ := TaskRun.perform_switch performed
  have later := TaskRun.step_placed placed ⟨_,_,permitted,performed⟩
  obtain ⟨core,memory,_,_⟩ := last
  dsimp only at world
  subst world
  refine ⟨later,subset,rfl,cs,?_,restored⟩
  intro u member
  by_cases same : u = s.current
  · subst u
    have saved : threads.tasks.stackPointer s.current = argument := by
      rw [pointer]
      exact update_self ..
    refine ⟨_,update_self ..,?_,?_,sound.high _ alive,next,fetched,ring,?_,?_,?_⟩
    · dsimp only
      omega
    · dsimp only
      omega
    · dsimp only
      rw [saved]
      exact size
    · dsimp only
      rw [saved]
      exact mine member saved
    · intro b above below
      change s.esp.toNat ≤ b at above
      exact kept _ member b (by omega) below (.inr above)
  · have saved : threads.tasks.stackPointer u = s.world.threads.tasks.stackPointer u := by
      rw [pointer]
      exact update_of_ne same ..
    obtain ⟨record,known,parked⟩ := sound.parked u (subset u member) same
    refine ⟨record,(update_of_ne same ..).trans known,parked.congr saved rfl rfl ?_⟩
    intro b above below
    have away := sound.apart u (subset u member) s.current alive same
    have bottom := parked.low
    unfold Span.Apart at away
    refine kept u member b (by omega) below ?_
    omega

theorem switches_sound (sound : Sound image s) (switched : s.Switches image t) : Sound image t := by
  obtain ⟨placed,subset,stack,_,parked,_⟩ := sound.switched switched
  refine ⟨placed,?_,?_,fun u member _ => parked u member⟩
  · rw [stack]
    exact fun u member => sound.high u (subset u member)
  · rw [stack]
    exact fun u first v second => sound.apart u (subset u first) v (subset v second)

theorem reached_sound (reached : Reach Boot (Step image) s) : Sound image s := by
  refine reached.invariant (Sound image) (fun _ => boot_sound) ?_
  rintro s t sound (works | manages | creates | switches)
  · exact works_sound sound works
  · exact manages_sound sound manages
  · exact creates_sound sound creates
  · exact switches_sound sound switches

/-- What becomes of the thread that a switch has made the running one: it is right behind
its own call, with the registers and the stack of that call, or a few instructions lead it
to its entry point. -/
def Resumes (image : KernelImage) (t : SwitchRun ι) : Suspended → Prop
  | .called core memory => ∃ next, image.code core.eip = some (.call image.schedulerEntry,next) ∧
      t.core.eip = next ∧ t.core.reg = core.reg ∧
      (∀ g, g ∈ [Seg.ds,.es,.fs,.gs] → t.core.seg g = core.seg g) ∧
      ∀ b, (core.reg .esp).toNat ≤ b → b < (t.world.stack t.current).high → t.memory b = memory b
  | .created user entry => ∀ external, ∃ n t', t.steps external image.code n = some t' ∧
      t'.core.eip = entry ∧ t'.core.eflags &&& interruptFlag ≠ 0 ∧
      if user then t'.core.ring = 3 ∧ t'.esp.toNat = t.world.userSp t.current
      else t'.core.ring = 0 ∧ load t'.memory 4 t'.esp.toNat = image.r0Exit.toNat

theorem Sound.resumes (sound : Sound image s) (switched : s.Switches image t) :
    ∃ record, t.world.suspended t.current = some record ∧ Resumes image t record := by
  obtain ⟨⟨p,placed⟩,_,_,cs,parked,restored⟩ := sound.switched switched
  have ring : t.core.ring = 0 := by
    obtain ⟨_,_,_,_,_,ring,_⟩ := switched
    rw [Core.ring,cs]
    exact ring
  obtain ⟨record,known,frame⟩ := parked _ placed.current_alive
  refine ⟨record,known,?_⟩
  obtain ⟨low,room,high,intact⟩ := frame
  have start : (BitVec.ofNat 32 (t.world.threads.tasks.stackPointer t.current)).toNat =
      t.world.threads.tasks.stackPointer t.current := Nat.mod_eq_of_lt (by unfold current; omega)
  cases record with
  | called core memory =>
    obtain ⟨next,fetched,_,size,words,above⟩ := intact
    have back := restored _ words
    refine ⟨next,fetched,back.eip,?_,?_,above⟩
    · funext r
      cases r with
      | eax => exact back.eax
      | ecx => exact back.ecx
      | edx => exact back.edx
      | ebx => exact back.ebx
      | ebp => exact back.ebp
      | esi => exact back.esi
      | edi => exact back.edi
      | esp =>
        rw [back.esp]
        change t.world.threads.tasks.stackPointer t.current + 52 = _ at size
        bv_omega
    · intro g kind
      have halves : ∀ x : Selector, (x.setWidth 32).setWidth 16 = x := by
        intro x
        bv_omega
      simp only [List.mem_cons,List.not_mem_nil,or_false] at kind
      rcases kind with rfl | rfl | rfl | rfl
      · exact back.ds.trans (halves _)
      · exact back.es.trans (halves _)
      · exact back.fs.trans (halves _)
      · exact back.gs.trans (halves _)
  | created user entry =>
    obtain ⟨words,rest⟩ := intact
    have back := restored _ words
    intro external
    have esp : t.esp.toNat = t.world.threads.tasks.stackPointer t.current + 52 := by
      have value : t.esp = _ := back.esp
      rw [value]
      change t.world.threads.tasks.stackPointer t.current + 52 ≤ _ at room
      bv_omega
    cases user with
    | true =>
      obtain ⟨size,bound⟩ := rest
      obtain ⟨t',run,eip,outer,flags,stack⟩ :=
        image.uthread_starts external (t := t) (back.eip.trans rfl) ring (by omega)
      refine ⟨11,t',run,eip.trans back.ebx,?_,outer,?_⟩
      · rw [flags]
        decide
      · rw [stack,back.esi]
        exact Nat.mod_eq_of_lt bound
    | false =>
      obtain ⟨size,exit⟩ := rest
      obtain ⟨t',run,eip,inner,flags,stack,kept⟩ :=
        image.kthread_starts external (t := t) (back.eip.trans rfl) ring (by omega)
      refine ⟨4,t',run,eip.trans back.ebx,?_,inner,?_⟩
      · rw [flags]
        decide
      · have top : t.esp.toNat = (t.world.stack t.current).high - 4 := by
          change t.world.threads.tasks.stackPointer t.current + 56 = (t.world.stack t.current).high at size
          omega
        change (t.world.stack t.current).high < 2^32 at high
        rw [stack,load_congr (by omega) (fun b above _ => kept b above),top]
        exact exit

/-- In every run, a switch resumes a thread that has given up the processor before, at its
own call and with everything it left there, or starts a thread at its entry point; and a call
of `scheduler_entry` leads to such a switch unless `scheduler` halts. -/
theorem switches_transparent_along_runs (image : KernelImage) (s : SwitchRun ι)
    (reached : Reach Boot (Step image) s) :
    (∀ t, s.Switches image t →
      ∃ record, t.world.suspended t.current = some record ∧ Resumes image t record) ∧
    ∀ (q : Option ι) scratch next, s.HasRoom →
      image.code s.core.eip = some (.call image.schedulerEntry,next) →
      ∃ fuel, (∃ t, s.steps (schedulerCall fuel q scratch) image.code 17 = some t) ∨
        s.world.threads.perform fuel (switchOp q (s.esp.toNat - 52)) = some none := by
  have sound := reached_sound reached
  refine ⟨fun t => sound.resumes,?_⟩
  intro q scratch next room fetched
  obtain ⟨p,placed⟩ := sound.placed
  have permitted : s.world.threads.Permitted (switchOp q (s.esp.toNat - 52)) := by
    cases q <;> trivial
  obtain ⟨fuel,⟨halted,_⟩ | ⟨threads,_,moved,_⟩⟩ := TaskRun.perform_placed placed permitted
  · exact ⟨fuel,.inr halted⟩
  · have space := room.1
    exact ⟨fuel,.inl (switch_completes (by omega) (by omega) fetched moved scratch)⟩

/-- The routines one after the other, and behind them a call of `scheduler_entry` and one of
`direct_scheduler_entry`. -/
def sampleImage : KernelImage where
  code := flat (Listing.schedulerEntry 15 ++ [.foreign] ++ Listing.directSchedulerEntry 0 ++
    Listing.timerHandler 0 ++ Listing.kthreadTrampoline ++ Listing.uthreadTrampoline ++ [.call 0,.call 16])
  schedulerEntry := 0
  scheduler := 15
  directSchedulerEntry := 16
  timerHandler := 22
  kthreadTrampoline := 28
  uthreadTrampoline := 32
  r0Exit := 100
  callExit := 101
  schedulerEntry_holds := holds_flat (by decide) ⟨_,rfl⟩
  scheduler_holds := holds_flat (by decide) ⟨_,rfl⟩
  directSchedulerEntry_holds := holds_flat (by decide) ⟨_,rfl⟩
  timerHandler_holds := holds_flat (by decide) ⟨_,rfl⟩
  kthreadTrampoline_holds := holds_flat (by decide) ⟨_,rfl⟩
  uthreadTrampoline_holds := holds_flat (by decide) ⟨_,rfl⟩

def sampleThreads : TaskRun Unit :=
  ⟨(TaskRun.booted.tasks.threadCreate false ⟨300,2,0x6000,0xb000,0⟩).1,[300,100]⟩

theorem sample_reached (core : Core) : ∃ s : SwitchRun Unit, Reach Boot (Step sampleImage) s ∧
    s.core = core ∧ s.world.threads = sampleThreads ∧ s.world.stack s.current = ⟨0x1000,0x3000⟩ ∧
    s.world.suspended 300 = some (.created false 0x5000) ∧
    (s.world.threads.tasks.stackPointer 300 = 0xcfc8 ∧ s.world.stack 300 = ⟨0xb000,0xd000⟩) := by
  have booted : TaskRun.Boot TaskRun.booted := ⟨by decide,rfl,rfl,rfl,rfl,fun _ => rfl⟩
  have permitted : TaskRun.booted.Permitted (.create false ⟨300,2,0x6000,0xb000,0⟩) := by decide
  have boot : Boot (⟨core,fun _ => 0,⟨TaskRun.booted,fun _ => ⟨0x1000,0x3000⟩,fun _ => 0,fun _ => none,
      ⟨fun _ => 0,0,0⟩⟩,[]⟩ : SwitchRun Unit) := ⟨booted,show 0x3000 < 2^32 by decide⟩
  refine ⟨_,(Reach.start boot).advance (.inr (.inr (.inl ⟨false,⟨300,2,0x6000,0xb000,0⟩,0x5000,sampleThreads,
    permitted,rfl,?_,rfl⟩))),rfl,rfl,rfl,rfl,rfl,rfl⟩
  intro _
  exact ⟨by decide,fun _ _ => .inl (show 0x3000 ≤ 0xb000 by decide),fun user => absurd user (by decide)⟩

/-- The boot thread yields to the kernel thread, which starts at its entry point. -/
theorem kernel_thread_starts : ∃ s t : SwitchRun Unit, Reach Boot (Step sampleImage) s ∧
    s.Switches sampleImage t ∧ t.current = 300 ∧ Resumes sampleImage t (.created false 0x5000) := by
  let core : Core := ⟨fun _ => 0x3000,fun _ => 0x10,43,0⟩
  obtain ⟨s,reached,same,threads,stack,suspended,_⟩ := sample_reached core
  have fetched : sampleImage.code s.core.eip = some (.call sampleImage.schedulerEntry,44) := by
    rw [same]
    rfl
  have esp : s.esp = 0x3000 := by
    change s.core.reg .esp = _
    rw [same]
  have room : s.HasRoom := by
    rw [HasRoom,stack,esp]
    decide
  have performed : ∃ later, s.world.threads.perform 0 (switchOp none (s.esp.toNat - 52)) =
      some (some later) ∧ later.tasks.currentRunning = 300 := by
    rw [threads,esp]
    exact ⟨_,rfl,rfl⟩
  obtain ⟨later,performed,current⟩ := performed
  have ring : s.core.ring = 0 := by
    rw [same]
    decide
  obtain ⟨t,switched,world⟩ := switch_to ring room fetched performed
  obtain ⟨record,known,resumes⟩ := (switches_transparent_along_runs sampleImage s reached).1 t switched
  have next : t.current = 300 := by
    rw [SwitchRun.current,world]
    exact current
  have first : t.world.suspended 300 = some (.created false 0x5000) := by
    rw [world]
    dsimp only
    rw [update_of_ne _,suspended]
    rw [SwitchRun.current,threads]
    decide
  rw [next,first] at known
  rw [Option.some.inj known]
  exact ⟨s,t,reached,switched,next,resumes⟩

end Switching

end SwitchRun

end RudimentaryKernel
