import RudimentaryKernel.AddressSpaces
import RudimentaryKernel.Preemption
import RudimentaryKernel.Reach

/-! No page directory is ever given back. A directory that `thread_create` has found unused
stays marked whatever happens later, so with the first thread that it returns the directories
in use have become more for good. -/
namespace RudimentaryKernel

open Function List

namespace KernelRun

variable {L : Layout} {κ : Type} {m t : KernelRun L κ} {first used : Nat → Bool}

/-- What threads take is in use as it was before. -/
structure SameResources (m t : KernelRun L κ) : Prop where
  tids : ∀ i, i < tidLimit → t.resources.bits i = m.resources.bits i
  directories : ∀ d, d < threadLimit → t.resources.paging.pdUsed d = m.resources.paging.pdUsed d
  tables : ∀ i, i < maxUserPt → t.resources.paging.userPtUsed i = m.resources.paging.userPtUsed i
  frames : ∀ i, i < frameCount →
    bitmapGet t.resources.paging.frameBitmap i = bitmapGet m.resources.paging.frameBitmap i
  heap : ∀ a, a ∈ t.resources.owned ++ t.resources.kstacks ++ t.blocks ↔
    a ∈ m.resources.owned ++ m.resources.kstacks ++ m.blocks

end KernelRun

section Directories

variable {κ : Type} {first used after : Nat → Bool}

def Grown (first used : Nat → Bool) : Prop := ∃ d, d < threadLimit ∧ first d = false ∧ used d = true

def Work.Late : Work → Prop
  | .copyDirectory _ _ | .scanFrame _ _ | .takeFrame _ _ | .testEntry _ | .scanTable _ _ | .takeTable _ _
  | .clearTable _ _ | .linkTable _ _ | .storeEntry _ | .pushCallExit _ | .pushCallExitAgain _
  | .readSector _ _ => True
  | _ => False

def Act.Late : Act κ → Prop
  | .enterHeap (.stack _) | .useHeap (.stack _) | .enterHeap (.freeKstack _) | .useHeap (.freeKstack _)
  | .setStack _ | .setFrame _ | .linkNew _ | .linkLast _ | .linkFirst _ => True
  | .setDirectory c => c.pd ≠ 0
  | .work w => w.Late
  | _ => False

/-- What an act relies on: the directory it takes was unused from the start, or one has been
taken. -/
def Act.Backed (first used : Nat → Bool) : Act κ → Prop
  | .work (.takeDirectory _ d) => d < threadLimit ∧ first d = false
  | act => act.Late → Grown first used

theorem Grown.mono (kept : ∀ d, used d = true → after d = true) (grown : Grown first used) :
    Grown first after := by
  obtain ⟨d,inside,before,now⟩ := grown
  exact ⟨d,inside,before,kept d now⟩

theorem Act.Backed.mono {act : Act κ} (kept : ∀ d, used d = true → after d = true)
    (backed : act.Backed first used) : act.Backed first after := by
  unfold Act.Backed at *
  split at backed
  · exact backed
  · exact fun late => (backed late).mono kept

theorem backed_of_grown {act : Act κ} (grown : Grown first used)
    (other : ∀ c d, act ≠ .work (.takeDirectory c d)) : act.Backed first used := by
  unfold Act.Backed
  split
  · exact absurd rfl (other _ _)
  · exact fun _ => grown

theorem refused_backed (c : Creation) : ∀ act ∈ (c.refused : List (Act κ)), act.Backed first used := by
  unfold Creation.refused
  split <;> simp [Act.Backed,Act.Late,Work.Late]

theorem next_backed (l : Loading) (grown : Grown first used) :
    ∀ act ∈ (l.next : List (Act κ)), act.Backed first used := by
  unfold Loading.next
  split <;> simp [Act.Backed,grown]

theorem returned_backed (c : Creation) (grown : Grown first used) :
    ∀ act ∈ (c.returned : List (Act κ)), act.Backed first used := by
  unfold Creation.returned
  split
  · simp
  · exact next_backed _ grown

end Directories

section Work

variable {L : Layout} {κ : Type} {first : Nat → Bool} {r : Resources L}

theorem run_directories (input : Input) (w : Work) (d : Nat) (used : r.paging.pdUsed d = true) :
    (w.run (κ := κ) input r).1.paging.pdUsed d = true := by
  cases w with
  | takeDirectory c i =>
    change update r.paging.pdUsed i true d = true
    by_cases same : d = i
    · rw [same,update_self]
    · rw [update_of_ne same,used]
  | _ =>
    unfold Work.run
    dsimp only
    repeat' split
    all_goals exact used

theorem run_takes (input : Input) (w : Work) {c : Creation} {d : Nat}
    (follows : Act.work (.takeDirectory c d) ∈ (w.run (κ := κ) input r).2) :
    d < threadLimit ∧ r.paging.pdUsed d = false := by
  cases w with
  | scanDirectory c' i =>
    simp only [Work.run] at follows
    split at follows
    · split at follows
      · rename_i inside clear
        obtain ⟨rfl,rfl⟩ : c = c' ∧ d = i := by simpa using follows
        exact ⟨inside,clear⟩
      · simp at follows
    · simp at follows
  | readSector l s =>
    simp only [Work.run,Loading.next] at follows
    repeat' split at follows
    all_goals simp at follows
  | _ =>
    simp only [Work.run,Mapping.mapped] at follows
    repeat' split at follows
    all_goals simp at follows

theorem run_late (input : Input) (w : Work) : w.Late ∨ (∃ c d, w = .takeDirectory c d) ∨
    ∀ act ∈ (w.run (κ := κ) input r).2, ¬act.Late := by
  cases w with
  | takeDirectory c d => exact .inr (.inl ⟨c,d,rfl⟩)
  | scan c i | mark c i | openCount id | closeCount id | unmark id | scanDirectory c i | report =>
    refine .inr (.inr ?_)
    simp only [Work.run]
    repeat' split
    all_goals simp [Act.Late,Work.Late]
  | _ => exact .inl trivial

end Work

namespace KernelRun

variable {L : Layout} {κ : Type} {m t : KernelRun L κ} {first : Nat → Bool} {made : List Nat}

/-- From the directories in use and the threads made at the start: the directories have only
become more, and for every act and every thread beyond the start there is one for it. -/
structure Charged (first : Nat → Bool) (made : List Nat) (m : KernelRun L κ) : Prop where
  kept : ∀ d, first d = true → m.resources.paging.pdUsed d = true
  backed : ∀ v, ∀ act ∈ m.code v, act.Backed first m.resources.paging.pdUsed
  created : m.created ≠ made → Grown first m.resources.paging.pdUsed

theorem Charged.moved (charged : m.Charged first made)
    (more : ∀ d, m.resources.paging.pdUsed d = true → t.resources.paging.pdUsed d = true)
    (created : t.created = m.created ∨ Grown first t.resources.paging.pdUsed)
    (follows : ∀ v, ∀ act ∈ t.code v, act ∈ m.code v ∨ act.Backed first t.resources.paging.pdUsed) :
    t.Charged first made := by
  refine ⟨fun d before => more d (charged.kept d before),?_,?_⟩
  · intro v act member
    rcases follows v act member with old | new
    · exact (charged.backed v act old).mono more
    · exact new
  · intro others
    rcases created with same | grown
    · exact (charged.created (same ▸ others)).mono more
    · exact grown

theorem Charged.aside (charged : m.Charged first made) (aside : Aside m t) : t.Charged first made := by
  refine charged.moved (fun d before => ?_) (.inl aside.created) (fun v act member => .inl ?_)
  · rw [aside.resources]
    exact before
  · rwa [aside.code] at member

theorem Charged.onward {act : Act κ} {rest : List (Act κ)} (charged : m.Charged first made) (acts : List (Act κ))
    (here : m.code m.running = act :: rest) (code : t.code = update m.code m.running (acts ++ rest))
    (created : t.created = m.created) (directories : t.resources.paging.pdUsed = m.resources.paging.pdUsed)
    (backed : ∀ next ∈ acts, next.Backed first m.resources.paging.pdUsed) : t.Charged first made := by
  refine charged.moved (fun d before => ?_) (.inl created) (fun v next member => ?_)
  · rwa [directories]
  · rw [code] at member
    rw [directories]
    exact (become_follows here member).imp_right (backed next)

theorem Charged.creates {act : Act κ} {rest : List (Act κ)} (charged : m.Charged first made) (c : Creation)
    (here : m.code m.running = act :: rest) (grown : Grown first m.resources.paging.pdUsed)
    (code : t.code = update (update m.code c.tcb []) m.running (c.returned ++ rest))
    (directories : t.resources.paging.pdUsed = m.resources.paging.pdUsed) : t.Charged first made := by
  refine charged.moved (fun d before => ?_) (.inr ?_) (fun v next member => ?_)
  · rwa [directories]
  · rwa [directories]
  · rw [code] at member
    rw [directories]
    by_cases same : v = m.running
    · subst v
      rw [update_self] at member
      rcases mem_append.mp member with new | old
      · exact .inr (returned_backed c grown next new)
      · exact .inl (by rw [here]; exact mem_cons_of_mem _ old)
    · rw [update_of_ne same] at member
      by_cases isNew : v = c.tcb
      · simp [isNew] at member
      · rw [update_of_ne isNew] at member
        exact .inl member

theorem Charged.work {w : Work} {rest : List (Act κ)} (charged : m.Charged first made)
    (here : m.code m.running = .work w :: rest) (input : Input) :
    ({ m with resources := (w.run (κ := κ) input m.resources).1 }.become
      ((w.run (κ := κ) input m.resources).2 ++ rest)).Charged first made := by
  have backed := charged.backed m.running (.work w) (by simp [here])
  have more := run_directories (κ := κ) (r := m.resources) input w
  refine charged.moved more (.inl rfl) (fun v next member => ?_)
  refine (become_follows here member).imp_right (fun follows => ?_)
  by_cases takes : ∃ c d, next = .work (.takeDirectory c d)
  · obtain ⟨c,d,rfl⟩ := takes
    obtain ⟨inside,clear⟩ := run_takes input w follows
    exact ⟨inside,Bool.eq_false_iff.mpr (fun before => by simp [charged.kept d before] at clear)⟩
  · have other : ∀ c d, next ≠ .work (.takeDirectory c d) := fun c d same => takes ⟨c,d,same⟩
    rcases run_late (κ := κ) (r := m.resources) input w with late | ⟨c,d,rfl⟩ | early
    · refine backed_of_grown (Grown.mono more ?_) other
      cases w <;> first | exact backed trivial | exact absurd late id
    · obtain ⟨inside,before⟩ : d < threadLimit ∧ first d = false := backed
      exact backed_of_grown ⟨d,inside,before,update_self ..⟩ other
    · unfold Act.Backed
      split
      · exact absurd rfl (other _ _)
      · exact fun late => absurd late (early next follows)

variable [DecidableEq κ]

theorem Charged.exec {act : Act κ} {rest : List (Act κ)} {fuel : Nat} {input : Input}
    (charged : m.Charged first made) (here : m.code m.running = act :: rest)
    (done : m.exec fuel input rest act = some (some t)) : t.Charged first made := by
  have backed := charged.backed m.running act (by simp [here])
  have finished : (m.become rest).Charged first made := charged.onward [] here rfl rfl rfl (by simp)
  cases act with
  | acquire l =>
    simp only [KernelRun.exec] at done
    split at done
    · exact charged.aside (block_aside done)
    · cases done
      exact charged.onward [] here rfl rfl rfl (by simp)
  | release l =>
    cases done
    exact finished.aside (release_aside ..)
  | enterHeap use =>
    simp only [KernelRun.exec] at done
    split at done
    · exact charged.aside (block_aside done)
    · cases done
      refine charged.onward [.useHeap use] here rfl rfl rfl ?_
      intro next member
      obtain rfl := mem_singleton.mp member
      cases use <;> exact backed
  | useHeap use =>
    cases done
    cases use with
    | kmalloc => exact charged.onward [.release .kpool] here rfl rfl rfl (by simp [Act.Backed,Act.Late])
    | kfree a => exact charged.onward [.release .kpool] here rfl rfl rfl (by simp [Act.Backed,Act.Late])
    | tcb user request =>
      refine charged.onward [.release .kpool,.acquire .bitmap,.work (.scan _ 0)] here rfl rfl rfl ?_
      simp [Act.Backed,Act.Late,Work.Late]
    | stack c =>
      refine charged.onward [.release .kpool,.setStack _] here rfl rfl rfl ?_
      simpa [Act.Backed,Act.Late,Work.Late] using backed
    | freeKstack c =>
      refine charged.onward (.release .kpool :: c.refused) here rfl rfl rfl ?_
      simpa [Act.Backed,Act.Late,Work.Late] using refused_backed c
  | wait q =>
    exact finished.aside (block_aside done)
  | signal q =>
    simp only [KernelRun.exec] at done
    split at done
    · cases done
      exact finished.aside ((Aside.refl _).withTasks _)
    · cases done
      exact finished
  | directSchedulerEntry =>
    exact finished.aside (scheduler_aside done)
  | spin => exact charged.aside (scheduler_aside done)
  | r3Exit =>
    refine Charged.aside ?_ (scheduler_aside done)
    exact charged.onward [] here rfl rfl rfl (by simp)
  | r0ExitNoZombie =>
    refine Charged.aside ?_ (scheduler_aside done)
    exact charged.onward [] here rfl rfl rfl (by simp)
  | threadReapDelayed address =>
    cases done
    exact charged.onward [] here rfl rfl rfl (by simp)
  | work w =>
    cases done
    exact charged.work here input
  | writeId c =>
    simp only [KernelRun.exec] at done
    split at done
    · cases done
      exact charged.onward _ here rfl rfl rfl (refused_backed c)
    · cases done
      exact charged.onward [.clearTcb c] here rfl rfl rfl (by simp [Act.Backed,Act.Late])
  | clearTcb c =>
    cases done
    exact charged.onward [.work (.scanDirectory c 0)] here rfl rfl rfl
      (by simp [Act.Backed,Act.Late,Work.Late])
  | setDirectory c =>
    simp only [KernelRun.exec] at done
    split at done
    · cases done
      exact charged.onward _ here rfl rfl rfl (refused_backed c)
    · rename_i real
      cases done
      refine charged.onward [.enterHeap (.stack c)] here rfl rfl rfl ?_
      simpa [Act.Backed,Act.Late,real] using backed
  | setStack c =>
    simp only [KernelRun.exec] at done
    split at done
    · cases done
      exact charged.onward _ here rfl rfl rfl (refused_backed c)
    · cases done
      refine charged.onward [if c.user then .work (.scanFrame (.stack c) 0) else .setFrame c] here rfl rfl rfl ?_
      split <;> simpa [Act.Backed,Act.Late,Work.Late] using backed
  | setFrame c =>
    cases done
    refine charged.onward [.linkNew c] here rfl rfl rfl ?_
    simpa [Act.Backed,Act.Late] using backed
  | linkNew c =>
    simp only [KernelRun.exec] at done
    split at done
    · cases done
      refine charged.onward [.linkLast c] here rfl rfl rfl ?_
      simpa [Act.Backed,Act.Late] using backed
    · cases done
      exact charged.creates c here (backed trivial) rfl rfl
  | linkLast c =>
    cases done
    refine charged.onward [.linkFirst c] here rfl rfl rfl ?_
    simpa [Act.Backed,Act.Late] using backed
  | linkFirst c =>
    cases done
    exact charged.creates c here (backed trivial) rfl rfl

theorem Charged.step (charged : m.Charged first made) (step : m.Step t) : t.Charged first made := by
  obtain ⟨event,fuel,permitted,done⟩ := step
  cases event with
  | call routine =>
    cases done
    refine charged.moved (fun _ before => before) (.inl rfl) (fun v act member => ?_)
    by_cases same : v = m.running
    · subst v
      refine .inr ?_
      change act ∈ update m.code m.running (routine.acts _) m.running at member
      rw [update_self] at member
      have early : ∀ act ∈ routine.acts (m.threads.tasks.tid m.running), act.Backed first m.resources.paging.pdUsed := by
        cases routine <;> simp [Routine.acts,Act.Backed,Act.Late,Work.Late]
      exact early act member
    · change act ∈ update m.code m.running _ v at member
      rw [update_of_ne same] at member
      exact .inl member
  | proceed input =>
    rw [perform] at done
    split at done
    · contradiction
    · rename_i here
      exact charged.exec here done
  | timer esp => exact charged.aside (scheduler_aside done)

/-- Threads do not give back what they took. In every run that begins outside of all calls,
once `thread_create` has returned a thread there is a page directory in use that was not in
use at the start, whichever threads have exited and been reaped since. -/
theorem threads_keep_directories (m t : KernelRun L κ) (idle : ∀ v, m.code v = [])
    (run : Relation.ReflTransGen Step m t) (created : t.created ≠ m.created) :
    (∃ d, d < threadLimit ∧ m.resources.paging.pdUsed d = false ∧ t.resources.paging.pdUsed d = true) ∧
    ¬m.SameResources t := by
  have start : m.Charged m.resources.paging.pdUsed m.created :=
    ⟨fun _ used => used,by simp [idle],fun other => absurd rfl other⟩
  have charged : t.Charged m.resources.paging.pdUsed m.created := by
    clear created
    induction run with
    | refl => exact start
    | tail _ step ih => exact ih.step step
  obtain ⟨d,inside,before,now⟩ := charged.created created
  refine ⟨⟨d,inside,before,now⟩,fun same => ?_⟩
  rw [same.directories d inside,before] at now
  contradiction

/-- The boot thread creates one thread, and both are there. -/
theorem directory_used_by_first_thread : ∃ t : KernelRun Kernel.sampleLayout Unit,
    Relation.ReflTransGen Step booted t ∧ ¬booted.SameResources t := by
  have outcome : ((performAll 10 (creates 200 0x9000) booted).map (fun t => t.created)) = some [200] := by
    decide +kernel
  obtain ⟨t,done,created⟩ := Option.map_eq_some_iff.mp outcome
  have run := performAll_runs done
  exact ⟨t,run,(threads_keep_directories booted t (fun _ => rfl) run (by rw [created]; simp [booted])).2⟩

/-- One kernel thread is created, exits and is reaped. Its tid, stack and control block are
free again, its page directory is not. -/
theorem directory_kept_after_reaping : ∃ t : KernelRun Kernel.sampleLayout Unit,
    Relation.ReflTransGen Step booted t ∧ t.created = [200] ∧ t.threads.alive = [100] ∧
    t.exits = [(0x9000,200)] ∧ t.threads.tasks.zombie = 0 ∧ t.resources.bits 0 = false ∧
    t.resources.kstacks = [] ∧ t.blocks = [100] ∧ t.resources.paging.pdUsed 0 = true ∧
    ¬booted.SameResources t := by
  have outcome : ((performAll 10 (creates 200 0x9000 ++ [tick,.call .r0Exit] ++ replicate 8 (proceeds 0) ++ [tick])
      booted).map (fun t => decide (t.created = [200] ∧ t.threads.alive = [100] ∧ t.exits = [(0x9000,200)] ∧
        t.threads.tasks.zombie = 0 ∧ t.resources.bits 0 = false ∧ t.resources.kstacks = [] ∧ t.blocks = [100] ∧
        t.resources.paging.pdUsed 0 = true))) = some true := by
    decide +kernel
  obtain ⟨t,done,fields⟩ := Option.map_eq_some_iff.mp outcome
  obtain ⟨created,alive,exits,zombie,tid,kstacks,blocks,directory⟩ := of_decide_eq_true fields
  refine ⟨t,performAll_runs done,created,alive,exits,zombie,tid,kstacks,blocks,directory,fun same => ?_⟩
  rw [same.directories 0 (by decide)] at directory
  exact absurd directory Bool.false_ne_true

end KernelRun

end RudimentaryKernel
