import RudimentaryKernel.AddressSpaces
import RudimentaryKernel.SwitchFrames

/-! What `scheduler` installs in the processor: the page directory and the kernel stack of the
thread it has chosen. The boot thread never gave the processor a stack or a directory of its own;
every other thread runs with its own ones, which no other thread has. -/
namespace RudimentaryKernel

open Function

namespace Tasks

variable {ι : Type} {s t : Tasks ι} {e sp : Nat}

/-- The fields that only `thread_create` and the tail of `scheduler` write. -/
structure SameStacks (s t : Tasks ι) : Prop where
  stackBottom : t.stackBottom = s.stackBottom
  pageDirectory : t.pageDirectory = s.pageDirectory
  esp0 : t.esp0 = s.esp0
  cr3 : t.cr3 = s.cr3

theorem SameStacks.refl (s : Tasks ι) : SameStacks s s := ⟨rfl,rfl,rfl,rfl⟩

theorem SameStacks.trans {u : Tasks ι} (first : SameStacks s t) (second : SameStacks t u) : SameStacks s u :=
  ⟨second.stackBottom.trans first.stackBottom,second.pageDirectory.trans first.pageDirectory,
    second.esp0.trans first.esp0,second.cr3.trans first.cr3⟩

theorem popReadyQueue_same {c : Nat} (popped : s.popReadyQueue = some (t,c)) : SameStacks s t := by
  unfold popReadyQueue at popped
  split at popped
  · contradiction
  · obtain ⟨rfl,_⟩ := Prod.mk.inj (Option.some.inj popped)
    exact ⟨rfl,rfl,rfl,rfl⟩

theorem choose_same (chosen : s.choose = some t) : SameStacks s t := by
  unfold choose at chosen
  split at chosen
  · cases chosen
    exact ⟨rfl,rfl,rfl,rfl⟩
  · obtain ⟨⟨u,c⟩,popped,rfl⟩ := Option.map_eq_some_iff.mp chosen
    exact popReadyQueue_same popped
  · obtain ⟨⟨u,c⟩,popped,rfl⟩ := Option.map_eq_some_iff.mp chosen
    exact popReadyQueue_same popped
  · obtain ⟨⟨u,c⟩,popped,rfl⟩ := Option.map_eq_some_iff.mp chosen
    exact (popReadyQueue_same popped).trans ⟨rfl,rfl,rfl,rfl⟩
  · cases chosen
    exact .refl _

theorem settle_same : SameStacks s (s.settle e) := by
  unfold settle
  dsimp only
  split <;> exact ⟨rfl,rfl,rfl,rfl⟩

theorem scheduler_installs (done : s.scheduler e = some (t,sp)) :
    t.stackBottom = s.stackBottom ∧ t.pageDirectory = s.pageDirectory ∧
    t.esp0 = add32 (s.stackBottom t.currentRunning) stackSize ∧
    (s.pageDirectory t.currentRunning ≠ 0 → t.cr3 = s.pageDirectory t.currentRunning) := by
  obtain ⟨u,chosen,same⟩ := Option.map_eq_some_iff.mp done
  obtain ⟨rfl,_⟩ := Prod.mk.inj same
  obtain ⟨bottom,directory,_,_⟩ := settle_same.trans (choose_same chosen)
  refine ⟨bottom,directory,?_,?_⟩
  · change add32 (u.stackBottom u.currentRunning) stackSize = _
    rw [bottom]
    rfl
  · intro own
    change s.pageDirectory u.currentRunning ≠ 0 at own
    change (if u.pageDirectory u.currentRunning ≠ 0 then u.pageDirectory u.currentRunning else u.cr3) = _
    rw [directory,if_pos own]
    rfl

theorem enqueue_same [DecidableEq ι] {fuel : Nat} {q : ι} (done : s.enqueue fuel q = some t) : SameStacks s t := by
  unfold enqueue at done
  dsimp only at done
  split at done
  · cases done
    exact ⟨rfl,rfl,rfl,rfl⟩
  · obtain ⟨_,_,rfl⟩ := Option.map_eq_some_iff.mp done
    exact ⟨rfl,rfl,rfl,rfl⟩

theorem unblock_same [DecidableEq ι] (q : ι) : SameStacks s (s.unblock q) := by
  unfold unblock
  dsimp only
  split <;> exact ⟨rfl,rfl,rfl,rfl⟩

theorem splice_same (real : s.currentRunning ≠ 0) (t : Nat) : SameStacks s (s.splice t) := by
  unfold splice
  rw [if_pos real]
  exact ⟨rfl,rfl,rfl,rfl⟩

theorem threadCreate_installs (real : s.currentRunning ≠ 0) (user : Bool) (grants : Grants) :
    (∀ v, v ≠ grants.tcb → (s.threadCreate user grants).1.stackBottom v = s.stackBottom v ∧
      (s.threadCreate user grants).1.pageDirectory v = s.pageDirectory v) ∧
    (s.threadCreate user grants).1.esp0 = s.esp0 ∧ (s.threadCreate user grants).1.cr3 = s.cr3 ∧
    ((s.threadCreate user grants).2 ≠ 0 → (s.threadCreate user grants).1.stackBottom grants.tcb = grants.stack ∧
      (s.threadCreate user grants).1.pageDirectory grants.tcb ≠ 0 ∧ grants.stack ≠ 0) := by
  unfold threadCreate prepare
  dsimp only
  split
  · exact ⟨fun _ _ => ⟨rfl,rfl⟩,rfl,rfl,fun refused => absurd rfl refused⟩
  split
  · exact ⟨fun v other => ⟨update_of_ne other ..,update_of_ne other ..⟩,rfl,rfl,fun refused => absurd rfl refused⟩
  split
  · refine ⟨fun v other => ?_,rfl,rfl,fun refused => absurd rfl refused⟩
    simp [kprintf,other]
  split
  · refine ⟨fun v other => ?_,rfl,rfl,fun refused => absurd rfl refused⟩
    simp [kprintf,freeKstack,other]
  · rename_i directory stack _
    obtain ⟨bottom,pages,esp0,cr3⟩ := splice_same (s := { s with
      tid := update s.tid grants.tcb grants.tid
      state := update s.state grants.tcb .ready
      stackBottom := update (update s.stackBottom grants.tcb 0) grants.tcb grants.stack
      stackPointer := _
      pageDirectory := update s.pageDirectory grants.tcb grants.pageDirectory
      next := update s.next grants.tcb 0
      prev := update s.prev grants.tcb 0 }) real grants.tcb
    refine ⟨fun v other => ⟨?_,?_⟩,esp0,cr3,fun _ => ⟨?_,?_,stack⟩⟩
    · rw [bottom]
      simp [other]
    · rw [pages]
      simp [other]
    · rw [bottom]
      simp
    · rw [pages]
      simpa using directory

end Tasks

namespace TaskRun

variable {ι : Type} {r t : TaskRun ι} {p : Places ι Nat} {b : Nat}

def BootedBy (b : Nat) (r : TaskRun ι) : Prop := r.Boot ∧ r.tasks.currentRunning = b

/-- The running thread has its own stack and directory installed, unless it is the boot thread. -/
structure Installed (b : Nat) (r : TaskRun ι) : Prop where
  directory : ∀ u ∈ r.alive, u ≠ b → r.tasks.pageDirectory u ≠ 0
  esp0 : r.tasks.currentRunning ≠ b →
    r.tasks.esp0 = add32 (r.tasks.stackBottom r.tasks.currentRunning) Tasks.stackSize
  cr3 : r.tasks.currentRunning ≠ b → r.tasks.cr3 = r.tasks.pageDirectory r.tasks.currentRunning

theorem boot_installed (boot : BootedBy b r) : r.Installed b := by
  obtain ⟨booted,rfl⟩ := boot
  refine ⟨?_,fun other => absurd rfl other,fun other => absurd rfl other⟩
  intro u member other
  rw [booted.2.1,List.mem_singleton] at member
  exact absurd member other

variable [DecidableEq ι]

theorem perform_installs {q : Option ι} {fuel e : Nat}
    (done : r.perform fuel (SwitchRun.switchOp q e) = some (some t)) :
    t.tasks.stackBottom = r.tasks.stackBottom ∧ t.tasks.pageDirectory = r.tasks.pageDirectory ∧
    t.tasks.esp0 = add32 (r.tasks.stackBottom t.tasks.currentRunning) Tasks.stackSize ∧
    (r.tasks.pageDirectory t.tasks.currentRunning ≠ 0 → t.tasks.cr3 = r.tasks.pageDirectory t.tasks.currentRunning) ∧
    (∀ u ∈ t.alive, u ∈ r.alive) ∧ ∀ u ∈ r.alive, u ≠ r.tasks.currentRunning → u ∈ t.alive := by
  cases q with
  | none =>
    obtain ⟨⟨s,sp⟩,scheduled,rfl⟩ := Option.map_eq_some_iff.mp (Option.some.inj done)
    obtain ⟨bottom,directory,esp0,cr3⟩ := Tasks.scheduler_installs scheduled
    refine ⟨bottom,directory,esp0,cr3,remaining_subset,?_⟩
    intro u member other
    change u ∈ r.remaining
    unfold remaining
    split
    · exact (List.mem_erase_of_ne other).mpr member
    · exact (List.mem_erase_of_ne other).mpr member
    · exact member
  | some q =>
    obtain ⟨outcome,blocked,same⟩ := Option.map_eq_some_iff.mp done
    obtain ⟨⟨s,sp⟩,rfl,rfl⟩ := Option.map_eq_some_iff.mp same
    obtain ⟨u,enqueued,scheduled⟩ := Option.map_eq_some_iff.mp blocked
    obtain ⟨before,pages,_,_⟩ := Tasks.enqueue_same enqueued
    obtain ⟨bottom,directory,esp0,cr3⟩ := Tasks.scheduler_installs scheduled
    rw [before] at bottom esp0
    rw [pages] at directory cr3
    exact ⟨bottom,directory,esp0,cr3,fun u member => member,fun u member _ => member⟩

theorem switch_installed {q : Option ι} {fuel e : Nat} (installed : r.Installed b) (placed : t.Placed p)
    (done : r.perform fuel (SwitchRun.switchOp q e) = some (some t)) : t.Installed b := by
  obtain ⟨bottom,directory,esp0,cr3,subset,_⟩ := perform_installs done
  have own : ∀ u ∈ t.alive, u ≠ b → r.tasks.pageDirectory u ≠ 0 :=
    fun u member => installed.directory u (subset u member)
  refine ⟨?_,fun _ => ?_,fun other => ?_⟩
  · rw [directory]
    exact own
  · rw [bottom]
    exact esp0
  · rw [directory]
    exact cr3 (own _ placed.current_alive other)

theorem step_installed (installed : r.Installed b) (placed : r.Placed p) (step : r.Step t) : t.Installed b := by
  obtain ⟨p',later⟩ := step_placed placed step
  obtain ⟨op,fuel,permitted,done⟩ := step
  have real : r.tasks.currentRunning ≠ 0 :=
    placed.represents.real _ (List.mem_of_mem_head? placed.represents.running)
  have alive := placed.current_alive
  cases op with
  | create user grants =>
    obtain ⟨elsewhere,esp0,cr3,created⟩ := Tasks.threadCreate_installs real user grants
    obtain ⟨_,current,address⟩ := Tasks.threadCreate_stackPointer real user grants
    have fresh : ∀ u ∈ r.alive, u ≠ grants.tcb := by
      rintro u member rfl
      exact permitted.1 member
    have result : t = ⟨(r.tasks.threadCreate user grants).1,if (r.tasks.threadCreate user grants).2 = 0 then r.alive
        else (r.tasks.threadCreate user grants).2 :: r.alive⟩ := (Option.some.inj (Option.some.inj done)).symm
    subst t
    refine ⟨?_,?_,?_⟩
    · intro u member other
      dsimp only at member ⊢
      split at member
      · rw [(elsewhere u (fresh u member)).2]
        exact installed.directory u member other
      · rename_i granted
        rcases List.mem_cons.mp member with same | old
        · rw [same,(address granted).1]
          exact (created granted).2.1
        · rw [(elsewhere u (fresh u old)).2]
          exact installed.directory u old other
    · dsimp only
      rw [current,esp0,(elsewhere _ (fresh _ alive)).1]
      exact installed.esp0
    · dsimp only
      rw [current,cr3,(elsewhere _ (fresh _ alive)).2]
      exact installed.cr3
  | switch e => exact switch_installed (q := none) installed later done
  | block q e => exact switch_installed (q := some q) installed later done
  | unblock q =>
    obtain ⟨bottom,directory,esp0,cr3⟩ := Tasks.unblock_same (s := r.tasks) q
    obtain ⟨_,current⟩ := Tasks.unblock_stackPointer (s := r.tasks) q
    obtain rfl := Option.some.inj (Option.some.inj done)
    refine ⟨?_,?_,?_⟩
    · dsimp only
      rw [directory]
      exact installed.directory
    · dsimp only
      rw [current,esp0,bottom]
      exact installed.esp0
    · dsimp only
      rw [current,cr3,directory]
      exact installed.cr3
  | exit =>
    obtain rfl := Option.some.inj (Option.some.inj done)
    exact ⟨installed.directory,installed.esp0,installed.cr3⟩
  | exitNoZombie =>
    obtain rfl := Option.some.inj (Option.some.inj done)
    exact ⟨installed.directory,installed.esp0,installed.cr3⟩

end TaskRun

namespace Paging

variable {L : Layout} {s : Paging L}

theorem frameAlloc_pdUsed (s : Paging L) : s.frameAlloc.1.pdUsed = s.pdUsed := by
  unfold frameAlloc
  split <;> rfl

/-- Neither the frame of the user stack nor its mapping touches the marks of the directories. -/
theorem frame_pdUsed (s : Paging L) (user : Bool) (heap : HeapGrants) (pd : Nat) : ∃ paddr after, after.pdUsed = s.pdUsed ∧
    (if pd = 0 ∨ heap.stack = 0 ∨ user = false then (s,pd,0)
      else
        let (s,paddr) := s.frameAlloc
        if paddr = 0 then (s,pd,0)
        else
          let s := s.mapPage pd userStackBase paddr (pageRw ||| pageUser)
          let s := s.store (paddr + pageSize - 4) L.callExit
          let s := s.store (paddr + pageSize - 8) L.callExit
          (s,pd,paddr)) = (after,pd,paddr) := by
  split
  · exact ⟨_,_,rfl,rfl⟩
  · dsimp only
    split
    · exact ⟨_,_,s.frameAlloc_pdUsed,rfl⟩
    · refine ⟨_,_,?_,rfl⟩
      exact (mapPage_marks ..).1.trans s.frameAlloc_pdUsed

theorem forThread_pdUsed (user : Bool) (heap : HeapGrants) :
    (s.forThread user heap).2.1 = 0 ∧ (s.forThread user heap).1.pdUsed = s.pdUsed ∨
    ∃ d < threadLimit, (s.forThread user heap).2.1 = L.pageDirs + d * pageSize ∧ s.pdUsed d = false ∧
      (s.forThread user heap).1.pdUsed = update s.pdUsed d true := by
  unfold forThread
  split
  · exact .inl ⟨rfl,rfl⟩
  unfold allocPageDirectory
  cases found : firstClear s.pdUsed threadLimit 0 with
  | none =>
    obtain ⟨paddr,after,same,result⟩ :=
      (s.kprintf "alloc_page_directory: out of page directories\n" []).frame_pdUsed user heap 0
    dsimp only
    rw [result]
    exact .inl ⟨rfl,same⟩
  | some d =>
    obtain ⟨_,inside,clear,_⟩ := firstClear_some found
    obtain ⟨paddr,after,same,result⟩ := frame_pdUsed { s with
      pdUsed := update s.pdUsed d true
      ram := fillWords (L.pageDirs + d * pageSize) (fun ram j => ram (s.kernelPageDirectory + 4 * j)) 1024 s.ram }
      user heap (L.pageDirs + d * pageSize)
    dsimp only
    rw [result]
    exact .inr ⟨d,by omega,rfl,clear,same⟩

end Paging

def Tasks.kernelStack {ι : Type} (s : Tasks ι) (u : Nat) : Span := ⟨s.stackBottom u,s.stackBottom u + stackSize⟩

theorem Tasks.kernelStack_congr {ι : Type} {s t : Tasks ι} {u : Nat} (same : t.stackBottom u = s.stackBottom u) :
    t.kernelStack u = s.kernelStack u := by
  rw [kernelStack,kernelStack,same]

/-- The heap hands out a control block that no thread uses and a stack beside those of the threads; a
heap that refuses a control block refuses the larger stack too. -/
structure HeapGrants.Fresh {ι : Type} (heap : HeapGrants) (r : TaskRun ι) : Prop where
  tcb : heap.tcb ∉ r.alive
  none : heap.tcb = 0 → heap.stack = 0
  stack : heap.stack ≠ 0 → ∀ u ∈ r.alive,
    (r.tasks.kernelStack u).Apart ⟨heap.stack,heap.stack + Tasks.stackSize⟩

namespace Kernel

variable {L : Layout} {ι : Type} {k after : Kernel L ι} {b : Nat}

/-- What can happen behind `init_paging` when the heap is fresh for every new thread and only a queue
with a thread in it is unblocked. -/
inductive Goes [DecidableEq ι] (k : Kernel L ι) : Kernel L ι → Prop where
  | load (name : Nat → Byte) (reads : DiskReads) {heap : HeapGrants} (fresh : heap.Fresh k.threads) :
      Goes k (k.loadProgram name reads heap).1
  | create (user : Bool) (entryFn : Word) {heap : HeapGrants} (fresh : heap.Fresh k.threads) :
      Goes k (k.threadCreate user entryFn heap).1
  | schedule {op fuel threads} (other : ∀ user grants, op ≠ .create user grants) (permitted : k.threads.Permitted op)
      (done : k.threads.perform fuel op = some (some threads)) : Goes k { k with threads := threads }
  | write {d va pa} (word : Word) (inside : d < threadLimit) (used : k.paging.pdUsed d = true)
      (fits : va < 2^32) (aligned : va % 4 = 0)
      (allowed : translate k.paging.ram (L.pageDirs + d * pageSize) va = some (pa,true)) :
      Goes k { k with paging := k.paging.store pa word }

/-- `b` boots, with the null pointer that `boot_thread` has for a page directory. -/
def BootedBy (b : Nat) (k : Kernel L ι) : Prop :=
  k.Booted ∧ k.threads.tasks.currentRunning = b ∧ k.threads.tasks.pageDirectory b = 0

/-- A directory is in use by one thread, and the stacks do not overlap. -/
structure Separate (k : Kernel L ι) : Prop where
  directories : ∀ u ∈ k.threads.alive, k.threads.tasks.pageDirectory u ≠ 0 →
    ∃ d < threadLimit, k.paging.pdUsed d = true ∧ k.threads.tasks.pageDirectory u = L.pageDirs + d * pageSize
  apart : ∀ u ∈ k.threads.alive, ∀ v ∈ k.threads.alive, k.threads.tasks.pageDirectory u ≠ 0 →
    k.threads.tasks.pageDirectory u = k.threads.tasks.pageDirectory v → u = v
  beside : ∀ u ∈ k.threads.alive, ∀ v ∈ k.threads.alive, u ≠ v →
    (k.threads.tasks.kernelStack u).Apart (k.threads.tasks.kernelStack v)

theorem booted_separate (booted : BootedBy b k) : k.Separate := by
  obtain ⟨⟨boot,_⟩,rfl,none⟩ := booted
  have only : ∀ u ∈ k.threads.alive, u = k.threads.tasks.currentRunning := by
    intro u member
    rw [boot.2.1] at member
    exact List.mem_singleton.mp member
  refine ⟨?_,?_,?_⟩
  · intro u member directory
    rw [only u member] at directory
    exact absurd none directory
  · intro u first v second _ _
    rw [only u first,only v second]
  · intro u first v second other
    rw [only u first,only v second] at other
    exact absurd rfl other

theorem Separate.congr (separate : k.Separate) (subset : ∀ u ∈ after.threads.alive, u ∈ k.threads.alive)
    (marks : ∀ d, k.paging.pdUsed d = true → after.paging.pdUsed d = true)
    (same : ∀ u ∈ after.threads.alive, after.threads.tasks.pageDirectory u = k.threads.tasks.pageDirectory u ∧
      after.threads.tasks.stackBottom u = k.threads.tasks.stackBottom u) : after.Separate := by
  refine ⟨?_,?_,?_⟩
  · intro u member own
    rw [(same u member).1] at own ⊢
    obtain ⟨d,inside,used,address⟩ := separate.directories u (subset u member) own
    exact ⟨d,inside,marks d used,address⟩
  · intro u first v second
    rw [(same u first).1,(same v second).1]
    exact separate.apart u (subset u first) v (subset v second)
  · intro u first v second
    rw [Tasks.kernelStack_congr (same u first).2,Tasks.kernelStack_congr (same v second).2]
    exact separate.beside u (subset u first) v (subset v second)

/-- A new thread has a directory that nobody had, and a stack beside the others. -/
theorem Separate.created (separate : k.Separate) (real : k.threads.tasks.currentRunning ≠ 0) (user : Bool) (entryFn : Word)
    {heap : HeapGrants} (fresh : heap.Fresh k.threads) : (k.threadCreate user entryFn heap).1.Separate := by
  have marks := k.paging.forThread_pdUsed user heap
  rw [threadCreate]
  generalize k.paging.forThread user heap = granted at marks ⊢
  obtain ⟨paging,pd,paddr⟩ := granted
  dsimp only at marks ⊢
  obtain ⟨elsewhere,_,_,created⟩ := Tasks.threadCreate_installs real user ⟨heap.tcb,heap.tid,pd,heap.stack,paddr⟩
  have directory := @Tasks.threadCreate_directory ι k.threads.tasks _ user ⟨heap.tcb,heap.tid,pd,heap.stack,paddr⟩ _
    (Prod.eta _).symm
  generalize k.threads.tasks.threadCreate user ⟨heap.tcb,heap.tid,pd,heap.stack,paddr⟩ = made at elsewhere created directory ⊢
  obtain ⟨tasks,thread⟩ := made
  dsimp only at elsewhere created directory ⊢
  have others : ∀ u ∈ k.threads.alive, tasks.pageDirectory u = k.threads.tasks.pageDirectory u ∧
      tasks.stackBottom u = k.threads.tasks.stackBottom u := by
    intro u member
    obtain ⟨bottom,pages⟩ := elsewhere u (fun same => fresh.tcb (same ▸ member))
    exact ⟨pages,bottom⟩
  have more : ∀ d, k.paging.pdUsed d = true → paging.pdUsed d = true := by
    intro d used
    rcases marks with ⟨_,same⟩ | ⟨e,_,_,_,taken⟩
    · rw [same,used]
    · rw [taken,update_apply]
      split
      · rfl
      · exact used
  have old : ({ k with paging := paging, threads := ⟨tasks,k.threads.alive⟩ } : Kernel L ι).Separate :=
    separate.congr (fun _ member => member) more others
  by_cases refused : thread = 0
  · rw [if_pos refused]
    exact old.congr (fun _ member => member) (fun _ used => used) (fun _ _ => ⟨rfl,rfl⟩)
  · obtain ⟨own,_,rfl,pages⟩ := directory refused
    obtain ⟨bottom,_,stack⟩ := created refused
    obtain ⟨d,inside,address,clear,taken⟩ := marks.resolve_left (fun none => own none.1)
    -- a directory in use before is another one
    have new : ∀ u ∈ k.threads.alive, tasks.pageDirectory u ≠ pd := by
      intro u member same
      obtain ⟨e,_,before,place⟩ := separate.directories u member (by rw [← (others u member).1,same]; exact own)
      rw [← (others u member).1,same,address] at place
      obtain rfl : d = e := by
        simp only [pageSize] at place
        omega
      rw [clear] at before
      contradiction
    have beside : ∀ u ∈ k.threads.alive, (tasks.kernelStack u).Apart (tasks.kernelStack heap.tcb) := by
      intro u member
      rw [Tasks.kernelStack_congr (others u member).2]
      have apart := fresh.stack stack u member
      rw [← bottom] at apart
      exact apart
    rw [if_neg refused]
    refine ⟨?_,?_,?_⟩
    · intro u member some'
      rcases List.mem_cons.mp member with rfl | member
      · refine ⟨d,inside,?_,pages.trans address⟩
        dsimp only
        rw [taken,update_self]
      · exact old.directories u member some'
    · intro u first v second some' same
      rcases List.mem_cons.mp first with rfl | first
      · rcases List.mem_cons.mp second with rfl | second
        · rfl
        · exact absurd (same.symm.trans pages) (new v second)
      · rcases List.mem_cons.mp second with rfl | second
        · exact absurd (same.trans pages) (new u first)
        · exact old.apart u first v second some' same
    · intro u first v second other
      rcases List.mem_cons.mp first with rfl | first
      · rcases List.mem_cons.mp second with rfl | second
        · exact absurd rfl other
        · exact (beside v second).symm
      · rcases List.mem_cons.mp second with rfl | second
        · exact beside u first
        · exact old.beside u first v second other

theorem loadPages_pdUsed (reads : DiskReads) (found : ProgramDirEntry) (name : Nat → Byte) (pd remaining page : Nat)
    (k : Kernel L ι) : (loadPages reads found name pd remaining page k).1.paging.pdUsed = k.paging.pdUsed := by
  have sectors : ∀ (page paddr remaining n : Nat) (k : Kernel L ι),
      (readSectors reads found page paddr remaining n k).1.paging.pdUsed = k.paging.pdUsed := by
    intro page paddr remaining n k
    obtain ⟨_,_,same,_⟩ := readSectors_fills reads found k page paddr remaining n
    rw [same]
  induction remaining generalizing page k with
  | zero => rfl
  | succ remaining ih =>
    have mapped := fun (taken : Paging L) (vaddr paddr : Nat) => (taken.mapPage_marks pd vaddr paddr (pageRw ||| pageUser)).1
    rw [loadPages]
    dsimp only
    split
    · exact k.paging.frameAlloc_pdUsed
    split
    · exact (ih ..).trans ((sectors ..).trans ((mapped ..).trans k.paging.frameAlloc_pdUsed))
    · exact (sectors ..).trans ((mapped ..).trans k.paging.frameAlloc_pdUsed)

theorem loadProgram_created (k : Kernel L ι) (name : Nat → Byte) (reads : DiskReads) (heap : HeapGrants) :
    ((k.loadProgram name reads heap).1.threads = k.threads ∧
      (k.loadProgram name reads heap).1.paging.pdUsed = k.paging.pdUsed) ∨
    ∃ entryFn, (k.loadProgram name reads heap).1.threads = (k.threadCreate true entryFn heap).1.threads ∧
      (k.loadProgram name reads heap).1.paging.pdUsed = (k.threadCreate true entryFn heap).1.paging.pdUsed := by
  by_cases listed : ∃ found, KernelState.Lists reads name found
  · obtain ⟨found,listed⟩ := listed
    refine .inr ⟨entryVaddr found,?_⟩
    rw [loadProgram_listed k heap listed]
    dsimp only
    split
    · exact ⟨rfl,rfl⟩
    · exact ⟨(loadPages_threads ..).1,loadPages_pdUsed ..⟩
  · obtain ⟨console,same⟩ := loadProgram_unlisted k heap listed
    rw [same]
    exact .inl ⟨rfl,rfl⟩

variable [DecidableEq ι]

structure Runs (b : Nat) (k : Kernel L ι) : Prop where
  placed : ∃ p, k.threads.Placed p
  installed : k.threads.Installed b
  separate : k.Separate

theorem Runs.create (runs : k.Runs b) (user : Bool) (entryFn : Word) {heap : HeapGrants} (fresh : heap.Fresh k.threads) :
    (k.threadCreate user entryFn heap).1.Runs b := by
  obtain ⟨⟨p,placed⟩,installed,separate⟩ := runs
  have real := placed.represents.real _ (List.mem_of_mem_head? placed.represents.running)
  have step : k.threads.Step (k.threadCreate user entryFn heap).1.threads := by
    refine ⟨.create user ⟨heap.tcb,heap.tid,(k.paging.forThread user heap).2.1,heap.stack,
      (k.paging.forThread user heap).2.2⟩,0,⟨fresh.tcb,fresh.none⟩,rfl⟩
  exact ⟨TaskRun.step_placed placed step,TaskRun.step_installed installed placed step,
    separate.created real user entryFn fresh⟩

theorem Runs.step (runs : k.Runs b) (goes : k.Goes after) : after.Runs b := by
  cases goes with
  | load name reads fresh =>
    rename_i heap
    -- the pages come behind the thread and leave threads and directories alone
    have congr : ∀ {made loaded : Kernel L ι}, made.Runs b → loaded.threads = made.threads →
        loaded.paging.pdUsed = made.paging.pdUsed → loaded.Runs b := by
      intro made loaded runs threads marks
      refine ⟨?_,?_,runs.separate.congr ?_ ?_ ?_⟩
      · rw [threads]
        exact runs.placed
      · rw [threads]
        exact runs.installed
      · rw [threads]
        exact fun _ member => member
      · rw [marks]
        exact fun _ used => used
      · rw [threads]
        exact fun _ _ => ⟨rfl,rfl⟩
    rcases k.loadProgram_created name reads heap with ⟨threads,marks⟩ | ⟨entryFn,threads,marks⟩
    · exact congr runs threads marks
    · exact congr (runs.create true entryFn fresh) threads marks
  | create user entryFn fresh => exact runs.create user entryFn fresh
  | schedule other permitted done =>
    rename_i op fuel threads
    obtain ⟨⟨p,placed⟩,installed,separate⟩ := runs
    have step : k.threads.Step threads := ⟨op,fuel,permitted,done⟩
    refine ⟨TaskRun.step_placed placed step,TaskRun.step_installed installed placed step,?_⟩
    have keeps : (∀ u ∈ threads.alive, u ∈ k.threads.alive) ∧
        threads.tasks.pageDirectory = k.threads.tasks.pageDirectory ∧
        threads.tasks.stackBottom = k.threads.tasks.stackBottom := by
      cases op with
      | create user grants => exact absurd rfl (other user grants)
      | switch e =>
        obtain ⟨bottom,directory,_,_,subset,_⟩ := TaskRun.perform_installs (q := none) done
        exact ⟨subset,directory,bottom⟩
      | block q e =>
        obtain ⟨bottom,directory,_,_,subset,_⟩ := TaskRun.perform_installs (q := some q) done
        exact ⟨subset,directory,bottom⟩
      | unblock q =>
        obtain ⟨bottom,directory,_,_⟩ := Tasks.unblock_same (s := k.threads.tasks) q
        obtain rfl := Option.some.inj (Option.some.inj done)
        exact ⟨fun _ member => member,directory,bottom⟩
      | exit | exitNoZombie =>
        obtain rfl := Option.some.inj (Option.some.inj done)
        exact ⟨fun _ member => member,rfl,rfl⟩
    obtain ⟨subset,directory,bottom⟩ := keeps
    refine separate.congr subset (fun _ used => used) ?_
    intro u _
    dsimp only
    rw [directory,bottom]
    exact ⟨rfl,rfl⟩
  | write word inside used fits aligned allowed =>
    exact ⟨runs.placed,runs.installed,runs.separate.congr (fun _ member => member) (fun _ used => used)
      (fun _ _ => ⟨rfl,rfl⟩)⟩

/-- In every run of loads, creations, switches, blocks, unblocks, exits and writes of programs,
whoever runs and is not the boot thread `b` has one of the static page directories, which no other
living thread has; the processor translates with it, and an interrupt out of ring 3 goes to the
top of that thread's kernel stack, which overlaps no other thread's. -/
theorem running_thread_installed (b : Nat) (k : Kernel L ι) (reached : Reach (BootedBy b) Goes k)
    (other : k.threads.tasks.currentRunning ≠ b) :
    (∃ d < threadLimit, k.paging.pdUsed d = true ∧
      k.threads.tasks.pageDirectory k.threads.tasks.currentRunning = L.pageDirs + d * pageSize) ∧
    k.threads.tasks.cr3 = k.threads.tasks.pageDirectory k.threads.tasks.currentRunning ∧
    k.threads.tasks.esp0 = add32 (k.threads.tasks.stackBottom k.threads.tasks.currentRunning) Tasks.stackSize ∧
    ∀ u ∈ k.threads.alive, u ≠ k.threads.tasks.currentRunning →
      k.threads.tasks.pageDirectory u ≠ k.threads.tasks.pageDirectory k.threads.tasks.currentRunning ∧
      (k.threads.tasks.kernelStack u).Apart (k.threads.tasks.kernelStack k.threads.tasks.currentRunning) := by
  obtain ⟨⟨p,placed⟩,installed,separate⟩ : k.Runs b := by
    refine reached.invariant (Runs b) ?_ (fun _ _ runs goes => runs.step goes)
    rintro k ⟨booted,current,none⟩
    exact ⟨⟨_,TaskRun.boot_placed booted.1⟩,TaskRun.boot_installed ⟨booted.1,current⟩,booted_separate ⟨booted,current,none⟩⟩
  have alive := placed.current_alive
  have own := installed.directory _ alive other
  refine ⟨separate.directories _ alive own,installed.cr3 other,installed.esp0 other,?_⟩
  intro u member another
  refine ⟨?_,separate.beside u member _ alive another⟩
  intro same
  exact another (separate.apart _ alive u member own same.symm).symm

/-- The threads of `twoThreads` behind each creation, and behind a switch. -/
def firstCreated : TaskRun Unit :=
  (sampleThreads.perform 0 (.create true ⟨0x120000,0,0x29000,0x130000,frameStart⟩)).join.getD sampleThreads

def bothCreated : TaskRun Unit :=
  (firstCreated.perform 0 (.create true ⟨0x140000,1,0x2a000,0x150000,frameStart + pageSize⟩)).join.getD firstCreated

def firstRuns : TaskRun Unit := (bothCreated.perform 3 (.switch 0x5000)).join.getD bothCreated

/-- The first of two user threads runs, with the first directory and its own stack. -/
theorem first_of_two_installed : ∃ k : Kernel sampleLayout Unit, Reach (BootedBy 7) Goes k ∧
    k.threads.tasks.currentRunning = 0x120000 ∧ k.threads.alive = [0x140000,0x120000,7] ∧
    k.threads.tasks.cr3 = sampleLayout.pageDirs ∧ k.threads.tasks.esp0 = 0x130000 + Tasks.stackSize ∧
    k.threads.tasks.pageDirectory 0x140000 ≠ k.threads.tasks.pageDirectory 0x120000 ∧
    (k.threads.tasks.kernelStack 0x140000).Apart (k.threads.tasks.kernelStack 0x120000) := by
  obtain ⟨k,booted,threads,_,directories,frames⟩ := @sample_boots Unit
  obtain ⟨_,_,_,_,first,second⟩ := twoThreads_granted (booted_orderly booted) directories frames
  rw [threads] at first
  have one : some (some firstCreated) = some (some _) := first
  replace one := Option.some.inj (Option.some.inj one)
  rw [← one] at second
  have two : some (some bothCreated) = some (some _) := second
  replace two := Option.some.inj (Option.some.inj two)
  have freshFirst : (sampleHeap 0).Fresh k.threads := by
    rw [threads]
    refine ⟨by decide,fun none => absurd none (by decide),fun _ u member => ?_⟩
    obtain rfl := List.mem_singleton.mp member
    exact .inl (by decide)
  have freshSecond : (sampleHeap 1).Fresh firstCreated := by
    have alive : firstCreated.alive = [0x120000,7] := rfl
    refine ⟨by rw [alive]; decide,fun none => absurd none (by decide),fun _ u member => ?_⟩
    rw [alive] at member
    rcases List.mem_cons.mp member with rfl | member
    · exact .inl (by decide)
    · obtain rfl := List.mem_singleton.mp member
      exact .inl (by decide)
  rw [one] at freshSecond
  have start : Reach (BootedBy 7) Goes k := .start ⟨booted,by rw [threads]; rfl,by rw [threads]; rfl⟩
  have both : Reach (BootedBy 7) Goes k.twoThreads :=
    (start.advance (.create true 0 freshFirst)).advance (.create true 0 freshSecond)
  generalize k.twoThreads = k at two both
  have switched : k.threads.perform 3 (.switch 0x5000) = some (some firstRuns) := by
    rw [← two]
    rfl
  have reached : Reach (BootedBy 7) Goes { k with threads := firstRuns } :=
    both.advance (.schedule (by rintro _ _ ⟨⟩) (show k.threads.Permitted (.switch 0x5000) from trivial) switched)
  have installed := running_thread_installed 7 _ reached
  refine ⟨_,reached,?_⟩
  dsimp only at installed ⊢
  have current : firstRuns.tasks.currentRunning = 0x120000 := rfl
  have alive : firstRuns.alive = [0x140000,0x120000,7] := rfl
  have directory : firstRuns.tasks.pageDirectory 0x120000 = sampleLayout.pageDirs := rfl
  have bottom : firstRuns.tasks.stackBottom 0x120000 = 0x130000 := rfl
  rw [current,alive,bottom] at installed
  obtain ⟨_,cr3,esp0,others⟩ := installed (by decide)
  obtain ⟨own,beside⟩ := others 0x140000 (by decide) (by decide)
  exact ⟨current,alive,cr3.trans directory,esp0,own,beside⟩

end Kernel

end RudimentaryKernel
