import RudimentaryKernel.IdentityMap
import RudimentaryKernel.ProgramPages

/-! Address spaces stay apart. Whatever programs are loaded, however the disk and the heap
answer, and whatever the programs write, the page tables represent a map that leads from
each directory to frames of its own. -/
namespace RudimentaryKernel

open Function

namespace Kernel

variable {L : Layout} {ι : Type} {k : Kernel L ι} {t : Spaces} {d : Fin threadLimit}

theorem write_above (represents : k.paging.Represents t) {va pa : Nat} (used : k.paging.pdUsed d = true)
    (fits : va < 2^32)
    (allowed : translate k.paging.ram (L.address (.directory d)) va = some (pa,true)) : frameStart ≤ pa := by
  by_cases low : va < 0x2000000
  · rw [represents.translate_kernel used low] at allowed
    simp at allowed
  · rw [represents.translate_user used (by omega) fits,Option.map_eq_some_iff] at allowed
    obtain ⟨f,_,same⟩ := allowed
    obtain ⟨_,above,_⟩ := frameAddress_placed f
    have address := (Prod.mk.inj same).1
    omega

theorem user_page (represents : k.paging.Represents t) {page pa : Nat} (used : k.paging.pdUsed d = true)
    (fits : page < 2^20)
    (allowed : translate k.paging.ram (L.address (.directory d)) (page * pageSize) = some (pa,true)) :
    ∃ f : Fin frameCount, t.walk d (page / 1024) (page % 1024) = some f ∧ pa = frameAddress f := by
  have row : pdIndex (page * pageSize) = page / 1024 := by
    unfold pdIndex pageSize
    omega
  have column : ptIndex (page * pageSize) = page % 1024 := by
    unfold ptIndex pageSize
    omega
  by_cases low : page * pageSize < 0x2000000
  · rw [represents.translate_kernel used low] at allowed
    simp at allowed
  · rw [represents.translate_user used (by omega) (by unfold pageSize; omega),row,column,
      Nat.mul_mod_left,Option.map_eq_some_iff] at allowed
    obtain ⟨f,walk,same⟩ := allowed
    exact ⟨f,walk,(Prod.mk.inj same).1.symm⟩

/-- The page tables represent a map, with tables to spare. -/
def Orderly (k : Kernel L ι) : Prop := ∃ t, k.paging.Represents t ∧ k.paging.Frugal

theorem booted_orderly (booted : k.Booted) : k.Orderly := by
  obtain ⟨_,s,fuel,static,done⟩ := booted
  have spec := Paging.initPaging_spec static fuel
  split at spec
  · obtain ⟨after,returned,represents,_,tables,_⟩ := spec
    obtain rfl := Option.some.inj (done.symm.trans returned)
    refine ⟨_,represents,?_⟩
    have none : marks k.paging.userPtUsed maxUserPt = 0 := marks_clear (fun u => by rw [tables,static.userPtUsed])
    unfold Paging.Frugal
    omega
  · rw [spec] at done
    contradiction

variable [DecidableEq ι]

theorem step_orderly {after : Kernel L ι} (orderly : k.Orderly) (step : k.Does after) : after.Orderly := by
  obtain ⟨t,represents,frugal⟩ := orderly
  cases step with
  | load name reads heap =>
    obtain ⟨spaces,kept,affordable,_⟩ := loadProgram_loads represents frugal (Prod.eta (k.loadProgram name reads heap)).symm
    exact ⟨spaces,kept,affordable⟩
  | create user entryFn heap =>
    obtain ⟨spaces,kept,affordable,_⟩ := threadCreate_grows represents frugal (Prod.eta (k.threadCreate user entryFn heap)).symm
    exact ⟨spaces,kept,affordable⟩
  | schedule other done => exact ⟨t,represents,frugal⟩
  | write word inside used fits aligned allowed =>
    have above := write_above (d := ⟨_,inside⟩) represents used fits allowed
    exact ⟨t,represents.stored above,frugal⟩

theorem reached_orderly (reached : Reach Booted Does k) : k.Orderly :=
  reached.invariant Orderly (fun _ => booted_orderly) (fun _ _ => step_orderly)

/-- In every run after `init_paging`, each directory in use maps every address below 32 MiB
to itself for the kernel only, and its user pages to page-aligned frames that are marked as
allocated; no frame is a user page in two places. -/
theorem address_spaces_isolated (k : Kernel L ι) (reached : Reach Booted Does k) (d : Nat)
    (inside : d < threadLimit) (used : k.paging.pdUsed d = true) :
    (∀ va, va < 0x2000000 → translate k.paging.ram (L.pageDirs + d * pageSize) va = some (va,false)) ∧
    ∀ page pa, page < 2^20 →
      translate k.paging.ram (L.pageDirs + d * pageSize) (page * pageSize) = some (pa,true) →
      (pa % pageSize = 0 ∧ frameStart ≤ pa ∧ pa < frameEnd ∧
        bitmapGet k.paging.frameBitmap ((pa - frameStart) / pageSize) = true) ∧
      ∀ e other, e < threadLimit → k.paging.pdUsed e = true → other < 2^20 →
        translate k.paging.ram (L.pageDirs + e * pageSize) (other * pageSize) = some (pa,true) →
        e = d ∧ other = page := by
  obtain ⟨t,represents,_⟩ := reached_orderly reached
  refine ⟨fun va low => represents.translate_kernel (d := ⟨d,inside⟩) used low,?_⟩
  intro page pa fits allowed
  obtain ⟨f,walk,rfl⟩ := user_page (d := ⟨d,inside⟩) represents used fits allowed
  obtain ⟨aligned,low,high⟩ := frameAddress_placed f
  refine ⟨⟨aligned,low,by simp only [pageSize] at high; omega,?_⟩,?_⟩
  · obtain ⟨u,_,found⟩ := Option.bind_eq_some_iff.mp walk
    have index : (frameAddress f - frameStart) / pageSize = f := by
      rw [frameAddress,Nat.add_sub_cancel_left,Nat.mul_div_cancel _ (by decide)]
    rw [index]
    exact (represents.held u _ f found).2
  · intro e other within inUse small shared
    obtain ⟨g,again,same⟩ := user_page (d := ⟨e,within⟩) represents inUse small shared
    have frame : f = g := by
      simp only [frameAddress,pageSize] at same
      exact Fin.ext (by omega)
    subst frame
    obtain ⟨space,row,column⟩ := TwoLevel.walk_injective again walk
    exact ⟨congrArg Fin.val space,by omega⟩

/-- The static arrays one behind the other, below the kernel stacks at 1 MiB. -/
def sampleLayout : Layout where
  pageDirStorage := 0x20000
  pageTableStorage := 0x21000
  pageDirs := 0x29000
  userPtStorage := 0x35000
  callExit := 0x11000
  placed := by decide
  separate := by decide

def samplePaging : Paging sampleLayout :=
  ⟨fun _ => 0,0,fun _ => false,fun _ => 0,fun _ => false,0,[]⟩

theorem samplePaging_initialised : ∃ paging, samplePaging.initPaging 8193 = some paging ∧
    paging.pdUsed = (fun _ => false) ∧ paging.userPtUsed = (fun _ => false) ∧
    paging.frameBitmap = (fun _ => 0) := by
  have static : samplePaging.Static := ⟨fun _ _ => rfl,fun _ => rfl,fun _ => rfl,fun _ => rfl,rfl⟩
  obtain ⟨paging,done,_,directories,tables,frames,_⟩ := Paging.initPaging_spec static 8193
  exact ⟨paging,done,directories,tables,frames⟩

/-- What `init_paging` makes of it, with the marks written out. -/
noncomputable def bootedPaging : Paging sampleLayout :=
  { Classical.choose samplePaging_initialised with
    pdUsed := fun _ => false
    frameBitmap := fun _ => 0
    userPtUsed := fun _ => false }

def sampleThreads {ι : Type} : TaskRun ι :=
  ⟨⟨fun _ => 0,fun _ => .ready,fun _ => 0,fun _ => 0,fun _ => 0,fun _ => 7,fun _ => 7,7,0,fun _ => 0,
    0,0,[],[]⟩,[7]⟩

omit [DecidableEq ι] in
theorem sample_boots : ∃ k : Kernel sampleLayout ι, k.Booted ∧ k.threads = sampleThreads ∧
    samplePaging.initPaging 8193 = some k.paging ∧ k.paging.pdUsed = (fun _ => false) ∧
    k.paging.frameBitmap = fun _ => 0 := by
  have static : samplePaging.Static := ⟨fun _ _ => rfl,fun _ => rfl,fun _ => rfl,fun _ => rfl,rfl⟩
  obtain ⟨paging,done,_,directories,_,frames,_⟩ := Paging.initPaging_spec static 8193
  exact ⟨⟨paging,sampleThreads,[],default⟩,⟨⟨Nat.succ_ne_zero 6,rfl,rfl,rfl,rfl,fun _ => rfl⟩,_,_,static,done⟩,rfl,done,
    directories,frames⟩

omit [DecidableEq ι] in
theorem threadCreate_keeps (orderly : k.Orderly) (user : Bool) (entryFn : Word) (heap : HeapGrants)
    {va pa : Nat} (used : k.paging.pdUsed d = true)
    (still : (k.threadCreate user entryFn heap).1.paging.pdUsed d = true) (high : 0x2000000 ≤ va) (fits : va < 2^32)
    (mapped : translate k.paging.ram (L.address (.directory d)) va = some (pa,true)) :
    translate (k.threadCreate user entryFn heap).1.paging.ram (L.address (.directory d)) va = some (pa,true) := by
  obtain ⟨t,represents,frugal⟩ := orderly
  obtain ⟨spaces,kept,_,grows,_⟩ := threadCreate_grows represents frugal (Prod.eta (k.threadCreate user entryFn heap)).symm
  rw [represents.translate_user used high fits,Option.map_eq_some_iff] at mapped
  obtain ⟨f,walk,same⟩ := mapped
  rw [kept.translate_user still high fits,grows.walks _ _ _ _ walk,Option.map_some,same]

theorem forThread_takes {s : Paging L} (heap : HeapGrants) {f : Nat} (tid : heap.tid ≠ allOnes) (stack : heap.stack ≠ 0)
    (directory : firstClear s.pdUsed threadLimit 0 = some d.val)
    (frame : firstClear (bitmapGet s.frameBitmap) frameCount 0 = some f) :
    (s.forThread true heap).2 = (L.address (.directory d),frameStart + f * pageSize) ∧
    (s.forThread true heap).1.pdUsed = update s.pdUsed d true ∧
    (s.forThread true heap).1.frameBitmap = bitmapMark s.frameBitmap f := by
  have placed : ¬(L.pageDirs + d * pageSize = 0 ∨ heap.stack = 0 ∨ true = false) := by
    rintro (none | none | other)
    · exact (L.address_placed (.directory d)).1.ne' none
    · exact stack none
    · contradiction
  have positive : frameStart + f * pageSize ≠ 0 := by
    simp only [frameStart]
    omega
  simp only [Paging.forThread,Paging.allocPageDirectory,directory,Paging.frameAlloc,frame]
  rw [if_neg tid,if_neg placed,if_neg positive]
  exact ⟨rfl,(Paging.mapPage_marks ..).1,(Paging.mapPage_marks ..).2⟩

/-- A user thread is offered the first free directory and the first free frame, for its stack. -/
theorem threadCreate_takes (orderly : k.Orderly) (entryFn : Word) (heap : HeapGrants) {f : Nat}
    (tid : heap.tid ≠ allOnes) (stack : heap.stack ≠ 0)
    (directory : firstClear k.paging.pdUsed threadLimit 0 = some d.val)
    (frame : firstClear (bitmapGet k.paging.frameBitmap) frameCount 0 = some f) :
    (k.threadCreate true entryFn heap).1.paging.pdUsed = update k.paging.pdUsed d true ∧
    (k.threadCreate true entryFn heap).1.paging.frameBitmap = bitmapMark k.paging.frameBitmap f ∧
    translate (k.threadCreate true entryFn heap).1.paging.ram (L.address (.directory d)) userStackBase =
      some (frameStart + f * pageSize,true) ∧
    k.threads.perform 0 (.create true
      ⟨heap.tcb,heap.tid,L.address (.directory d),heap.stack,frameStart + f * pageSize⟩) =
        some (some (k.threadCreate true entryFn heap).1.threads) := by
  have positive : frameStart + f * pageSize ≠ 0 := by
    simp only [frameStart]
    omega
  obtain ⟨answer,marked,bits⟩ := forThread_takes heap tid stack directory frame
  obtain ⟨t,represents,frugal⟩ := orderly
  obtain ⟨after,pd,paddr,_,done,_,_,_,_,which⟩ := represents.forThread frugal true heap
  rw [done] at answer marked bits
  obtain ⟨rfl,rfl⟩ := Prod.mk.inj answer
  obtain ⟨_,_,_,mapped⟩ := which.resolve_left (fun none => positive none.2)
  rw [threadCreate,done]
  exact ⟨marked,bits,(mapped positive).2,rfl⟩

def sampleHeap (i : Nat) : HeapGrants := ⟨0x120000 + i * 0x20000,i,0x130000 + i * 0x20000⟩

def twoThreads (k : Kernel sampleLayout ι) : Kernel sampleLayout ι :=
  ((k.threadCreate true 0 (sampleHeap 0)).1.threadCreate true 0 (sampleHeap 1)).1

theorem twoThreads_reached {k : Kernel sampleLayout ι} {start : Kernel sampleLayout ι → Prop} (begins : start k) :
    Reach start Does k.twoThreads :=
  ((Reach.start begins).advance (.create true 0 (sampleHeap 0))).advance (.create true 0 (sampleHeap 1))

theorem twoThreads_granted {k : Kernel sampleLayout ι} (orderly : k.Orderly)
    (directories : k.paging.pdUsed = fun _ => false) (frames : k.paging.frameBitmap = fun _ => 0) :
    k.twoThreads.paging.pdUsed = update (update (fun _ => false) 0 true) 1 true ∧
    k.twoThreads.paging.frameBitmap = bitmapMark (bitmapMark (fun _ => 0) 0) 1 ∧
    translate k.twoThreads.paging.ram (sampleLayout.pageDirs + 0 * pageSize) userStackBase = some (frameStart,true) ∧
    translate k.twoThreads.paging.ram (sampleLayout.pageDirs + 1 * pageSize) userStackBase =
      some (frameStart + pageSize,true) ∧
    k.threads.perform 0 (.create true ⟨0x120000,0,0x29000,0x130000,frameStart⟩) =
      some (some (k.threadCreate true 0 (sampleHeap 0)).1.threads) ∧
    (k.threadCreate true 0 (sampleHeap 0)).1.threads.perform 0
      (.create true ⟨0x140000,1,0x2a000,0x150000,frameStart + pageSize⟩) = some (some k.twoThreads.threads) := by
  have firstDirectory : firstClear k.paging.pdUsed threadLimit 0 = some (⟨0,by decide⟩ : Fin threadLimit).val := by
    rw [directories]
    rfl
  have firstFrame : firstClear (bitmapGet k.paging.frameBitmap) frameCount 0 = some 0 := by
    rw [frames]
    rfl
  have later := step_orderly orderly (.create true 0 (sampleHeap 0))
  obtain ⟨used,bits,mapped,threads⟩ :=
    threadCreate_takes orderly 0 (sampleHeap 0) (by decide) (by decide) firstDirectory firstFrame
  have kept := @threadCreate_keeps _ _ (k.threadCreate true 0 (sampleHeap 0)).1 ⟨0,by decide⟩ later true 0 (sampleHeap 1)
    userStackBase frameStart
  rw [directories] at used
  rw [frames] at bits
  have secondDirectory : firstClear (k.threadCreate true 0 (sampleHeap 0)).1.paging.pdUsed threadLimit 0 =
      some (⟨1,by decide⟩ : Fin threadLimit).val := by
    rw [used]
    rfl
  have secondFrame : firstClear (bitmapGet (k.threadCreate true 0 (sampleHeap 0)).1.paging.frameBitmap) frameCount 0 =
      some 1 := by
    rw [bits]
    rfl
  obtain ⟨both,marked,second,more⟩ :=
    threadCreate_takes later 0 (sampleHeap 1) (by decide) (by decide) secondDirectory secondFrame
  rw [used] at both
  rw [bits] at marked
  refine ⟨both,marked,kept ?_ ?_ (by decide) (by decide) mapped,second,threads,more⟩
  · rw [used]
    rfl
  · rw [both]
    rfl

/-- Two user threads have their stacks at the same address in different frames, and the second one reaches
the first one's frame from nowhere. -/
theorem two_threads_have_stacks : ∃ k : Kernel sampleLayout Unit, Reach Booted Does k ∧
    k.paging.pdUsed 0 = true ∧ k.paging.pdUsed 1 = true ∧
    translate k.paging.ram (sampleLayout.pageDirs + 0 * pageSize) (0xBFFFF * pageSize) = some (frameStart,true) ∧
    translate k.paging.ram (sampleLayout.pageDirs + 1 * pageSize) (0xBFFFF * pageSize) = some (frameStart + pageSize,true) ∧
    bitmapGet k.paging.frameBitmap 0 = true ∧ bitmapGet k.paging.frameBitmap 1 = true ∧
    ∀ page < 2^20, translate k.paging.ram (sampleLayout.pageDirs + 1 * pageSize) (page * pageSize) ≠
      some (frameStart,true) := by
  obtain ⟨k,booted,_,_,directories,frames⟩ := @sample_boots Unit
  have reached := twoThreads_reached booted
  obtain ⟨used,_,first,second,_⟩ := twoThreads_granted (booted_orderly booted) directories frames
  generalize k.twoThreads = k at reached used first second
  have usedFirst : k.paging.pdUsed 0 = true := by
    rw [used]
    rfl
  have usedSecond : k.paging.pdUsed 1 = true := by
    rw [used]
    rfl
  obtain ⟨_,one⟩ := address_spaces_isolated k reached 0 (by decide) usedFirst
  obtain ⟨_,two⟩ := address_spaces_isolated k reached 1 (by decide) usedSecond
  obtain ⟨⟨_,_,_,marked⟩,alone⟩ := one 0xBFFFF frameStart (by decide) first
  refine ⟨k,reached,usedFirst,usedSecond,first,second,marked,(two 0xBFFFF (frameStart + pageSize) (by decide) second).1.2.2.2,?_⟩
  intro page fits shared
  exact absurd (alone 1 page (by decide) usedSecond fits shared).1 (by decide)

end Kernel

end RudimentaryKernel
