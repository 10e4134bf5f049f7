import RudimentaryKernel.ThreadPlacement

/-! `Semaphore` of `sync.cpp` on the pointers of `scheduler.cpp`. A call runs in a critical
section up to its `block`, and a thread that comes back from `block` in `down` has nothing
left to do, so one step is one call. The threads do anything else in between. -/
namespace RudimentaryKernel

open Function List NullList

def TaskOp.Spares {ι : Type} (q : ι) : TaskOp ι → Prop
  | .block r _ | .unblock r => r ≠ q
  | _ => True

theorem TaskRun.queuesAfter_spared {ι : Type} [DecidableEq ι] {q : ι} {op : TaskOp ι} (spares : op.Spares q)
    (c : Nat) (waiting : ι → List Nat) : queuesAfter c waiting op q = waiting q := by
  cases op <;> simp_all [queuesAfter,TaskOp.Spares,Ne.symm]

/-- A semaphore and what has happened to it: the number of `up`s, the number of `down`s
that took a slot, the threads that `down` has blocked and those that `up` has unblocked, in
this order. -/
structure SemaphoreRun (ι : Type) where
  threads : TaskRun ι
  slots : Int
  ups : Nat
  taken : Nat
  blocked : List Nat
  unblocked : List Nat

inductive SemaphoreOp (ι : Type) where
  | up
  | down (oldEsp : Nat)
  | other (op : TaskOp ι)

namespace SemaphoreRun

variable {ι : Type} [DecidableEq ι] {q : ι} {n : Int} {s t : SemaphoreRun ι}

/-- One call, with `q` as the semaphore's queue. The inner `none` is `halt()`. -/
def perform (q : ι) (fuel : Nat) (s : SemaphoreRun ι) : SemaphoreOp ι → Option (Option (SemaphoreRun ι))
  | .up =>
    if s.threads.tasks.queue q = 0 then
      some (some { s with slots := int32 (s.slots + 1), ups := s.ups + 1 })
    else (s.threads.perform fuel (.unblock q)).map (Option.map (fun threads =>
      { s with
        threads := threads
        ups := s.ups + 1
        unblocked := s.unblocked ++ [s.threads.tasks.queue q] }))
  | .down oldEsp =>
    if 0 < s.slots then some (some { s with slots := int32 (s.slots - 1), taken := s.taken + 1 })
    else (s.threads.perform fuel (.block q oldEsp)).map (Option.map (fun threads =>
      { s with threads := threads, blocked := s.blocked ++ [s.threads.tasks.currentRunning] }))
  | .other op =>
    (s.threads.perform fuel op).map (Option.map (fun threads => { s with threads := threads }))

def Permitted (q : ι) (s : SemaphoreRun ι) : SemaphoreOp ι → Prop
  | .other op => op.Spares q ∧ s.threads.Permitted op
  | _ => True

def Overflows (q : ι) (s : SemaphoreRun ι) : SemaphoreOp ι → Prop
  | .up => s.threads.tasks.queue q = 0 ∧ s.slots = 2^31 - 1
  | _ => False

def Step (q : ι) (s t : SemaphoreRun ι) : Prop :=
  ∃ op fuel, s.Permitted q op ∧ s.perform q fuel op = some (some t)

def Counted (q : ι) (s t : SemaphoreRun ι) : Prop :=
  ∃ op fuel, s.Permitted q op ∧ ¬s.Overflows q op ∧ s.perform q fuel op = some (some t)

def Initial (q : ι) (n : Int) (s : SemaphoreRun ι) : Prop :=
  Reach TaskRun.Boot TaskRun.Step s.threads ∧ s.threads.tasks.queue q = 0 ∧ 0 ≤ n ∧ n < 2^31 ∧
    s = ⟨s.threads,n,0,0,[],[]⟩

/-- The permits add up, and those who wait are the ones blocked last. -/
structure Sound (q : ι) (n : Int) (s : SemaphoreRun ι) (p : Places ι Nat) : Prop where
  placed : s.threads.Placed p
  conserved : s.taken + s.unblocked.length + s.slots = n + s.ups
  low : 0 ≤ s.slots
  high : s.slots < 2^31
  empty : p.waiting q ≠ [] → s.slots = 0
  ordered : s.blocked = s.unblocked ++ p.waiting q

theorem initial_sound (initial : Initial q n s) : ∃ p, Sound q n s p := by
  obtain ⟨reached,empty,low,high,same⟩ := initial
  obtain ⟨p,placed⟩ := TaskRun.reached_placed reached
  have nobody : p.waiting q = [] := (placed.represents.queue q).empty_iff.mp empty
  rw [same]
  exact ⟨p,placed,by simp,low,high,fun waiting => absurd nobody waiting,by simp [nobody]⟩

theorem up_sound {p : Places ι Nat} (sound : Sound q n s p) {fuel : Nat}
    (fits : ¬s.Overflows q .up) (done : s.perform q fuel .up = some (some t)) : ∃ p', Sound q n t p' := by
  have list := sound.placed.represents.queue q
  have conserved := sound.conserved
  have low := sound.low
  have high := sound.high
  rw [perform] at done
  split at done
  · rename_i nobody
    have room : s.slots ≠ 2^31 - 1 := fun full => fits ⟨nobody,full⟩
    have counted : int32 (s.slots + 1) = s.slots + 1 := int32_eq (by omega) (by omega)
    rw [counted] at done
    obtain rfl := Option.some.inj (Option.some.inj done)
    refine ⟨p,sound.placed,?_,?_,?_,?_,sound.ordered⟩
    · push_cast
      omega
    · dsimp only
      omega
    · dsimp only
      omega
    · intro waiting
      exact absurd (list.empty_iff.mp nobody) waiting
  · rename_i somebody
    simp only [Option.map_eq_some_iff] at done
    obtain ⟨outcome,performed,threads,rfl,rfl⟩ := done
    have filled : p.waiting q ≠ [] := fun none => somebody (list.empty_iff.mpr none)
    obtain ⟨d,more,first⟩ := exists_cons_of_ne_nil filled
    have permitted : s.threads.Permitted (.unblock q) := somebody
    obtain ⟨p',placed,moved⟩ := TaskRun.performed_placed sound.placed permitted performed
    have rest : p'.waiting q = more := by rw [moved]; simp [TaskRun.queuesAfter,first]
    have head : s.threads.tasks.queue q = d := by
      rw [first] at list
      exact list.1
    refine ⟨p',placed,?_,low,high,fun _ => sound.empty filled,?_⟩
    · rw [length_append,length_singleton]
      push_cast
      omega
    · rw [sound.ordered,first,rest,head]
      simp

theorem down_sound {p : Places ι Nat} (sound : Sound q n s p) {fuel oldEsp : Nat}
    (done : s.perform q fuel (.down oldEsp) = some (some t)) : ∃ p', Sound q n t p' := by
  have conserved := sound.conserved
  have low := sound.low
  have high := sound.high
  rw [perform] at done
  split at done
  · rename_i free
    have counted : int32 (s.slots - 1) = s.slots - 1 := int32_eq (by omega) (by omega)
    rw [counted] at done
    obtain rfl := Option.some.inj (Option.some.inj done)
    refine ⟨p,sound.placed,?_,?_,?_,?_,sound.ordered⟩
    · push_cast
      omega
    · dsimp only
      omega
    · dsimp only
      omega
    · intro waiting
      have none := sound.empty waiting
      omega
  · rename_i full
    simp only [Option.map_eq_some_iff] at done
    obtain ⟨outcome,performed,threads,rfl,rfl⟩ := done
    have permitted : s.threads.Permitted (.block q oldEsp) := trivial
    obtain ⟨p',placed,moved⟩ := TaskRun.performed_placed sound.placed permitted performed
    have longer : p'.waiting q = p.waiting q ++ [s.threads.tasks.currentRunning] := by
      rw [moved]
      simp [TaskRun.queuesAfter]
    refine ⟨p',placed,conserved,low,high,?_,?_⟩
    · intro _
      change s.slots = 0
      omega
    · rw [sound.ordered,longer,append_assoc]

theorem other_sound {p : Places ι Nat} (sound : Sound q n s p) {fuel : Nat} {op : TaskOp ι}
    (permitted : s.Permitted q (.other op)) (done : s.perform q fuel (.other op) = some (some t)) :
    ∃ p', Sound q n t p' := by
  obtain ⟨spares,allowed⟩ := permitted
  simp only [perform,Option.map_eq_some_iff] at done
  obtain ⟨outcome,performed,threads,rfl,rfl⟩ := done
  obtain ⟨p',placed,moved⟩ := TaskRun.performed_placed sound.placed allowed performed
  have same : p'.waiting q = p.waiting q := by rw [moved,TaskRun.queuesAfter_spared spares]
  refine ⟨p',placed,sound.conserved,sound.low,sound.high,?_,?_⟩
  · rw [same]
    exact sound.empty
  · rw [same]
    exact sound.ordered

theorem step_sound {p : Places ι Nat} (sound : Sound q n s p) (step : Counted q s t) :
    ∃ p', Sound q n t p' := by
  obtain ⟨op,fuel,permitted,fits,done⟩ := step
  cases op with
  | up => exact up_sound sound fits done
  | down oldEsp => exact down_sound sound done
  | other op => exact other_sound sound permitted done

/-- In every run that does not count past the largest `int`, the `down`s granted and the
slots left add up to the initial slots and the `up`s, no thread waits while there is a slot,
and the threads unblocked are those blocked first, in the same order. -/
theorem permits_conserved_along_runs (q : ι) (n : Int) (s : SemaphoreRun ι)
    (reached : Reach (Initial q n) (Counted q) s) :
    ∃ waiting, IsList s.threads.tasks.next 0 (s.threads.tasks.queue q) waiting ∧
      s.taken + s.unblocked.length + s.slots = n + s.ups ∧ 0 ≤ s.slots ∧
      (waiting ≠ [] → s.slots = 0) ∧ s.blocked = s.unblocked ++ waiting := by
  obtain ⟨p,sound⟩ : ∃ p, Sound q n s p := by
    refine reached.invariant (fun s => ∃ p, Sound q n s p) (fun s initial => initial_sound initial) ?_
    rintro s t ⟨p,sound⟩ step
    exact step_sound sound step
  exact ⟨p.waiting q,sound.placed.represents.queue q,sound.conserved,sound.low,sound.empty,sound.ordered⟩

def twoThreads : TaskRun Unit :=
  let (tasks,t) := TaskRun.booted.tasks.threadCreate false ⟨200,1,0x5000,0x9000,0⟩
  ⟨tasks,t :: TaskRun.booted.alive⟩

theorem twoThreads_reached : Reach TaskRun.Boot TaskRun.Step twoThreads := by
  have boot : TaskRun.booted.Boot := ⟨by decide,rfl,rfl,rfl,rfl,fun _ => rfl⟩
  exact (Reach.start boot).advance ⟨.create false ⟨200,1,0x5000,0x9000,0⟩,0,by decide,rfl⟩

/-- The boot thread finds no slot and blocks; the other thread's `up` is for it. -/
theorem permit_handed_to_waiter : ∃ s : SemaphoreRun Unit, Reach (Initial () 0) (Counted ()) s ∧
    s.blocked = [100] ∧ s.unblocked = [100] ∧ s.taken + s.unblocked.length + s.slots = 0 + s.ups := by
  have start : Reach (Initial () 0) (Counted ()) ⟨twoThreads,0,0,0,[],[]⟩ :=
    .start ⟨twoThreads_reached,rfl,by decide,by decide,rfl⟩
  have waiting := start.advance ⟨.down 1,1,trivial,by simp [Overflows],rfl⟩
  have woken := waiting.advance ⟨.up,0,trivial,fun full => absurd full.1 (by decide),rfl⟩
  obtain ⟨_,_,conserved,_⟩ := permits_conserved_along_runs () 0 _ woken
  exact ⟨_,woken,rfl,rfl,conserved⟩

/-- One `up` on the largest `int` makes `slots` negative. -/
theorem slots_negative_after_up : ∃ s : SemaphoreRun Unit, Reach (Initial () (2^31 - 1)) (Step ()) s ∧
    s.ups = 1 ∧ s.slots = -2^31 ∧ ¬0 ≤ s.slots ∧
    s.taken + s.unblocked.length + s.slots ≠ 2^31 - 1 + s.ups := by
  have start : Reach (Initial () (2^31 - 1)) (Step ()) ⟨twoThreads,2^31 - 1,0,0,[],[]⟩ :=
    .start ⟨twoThreads_reached,rfl,by decide,by decide,rfl⟩
  have counted := start.advance ⟨.up,0,trivial,rfl⟩
  exact ⟨_,counted,rfl,by decide,by decide,by decide⟩

end SemaphoreRun

end RudimentaryKernel
