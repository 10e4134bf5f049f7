import RudimentaryKernel.Semaphore

/-! `Barrier` of `sync.cpp` on the pointers of `scheduler.cpp`. Calls of `wait` are numbered
in the order in which they arrive. A call blocks or releases everybody, and a released
thread has nothing left to do, so one step is one call. -/
namespace RudimentaryKernel

open Function List NullList

/-- A barrier and what has happened to it: the calls of `wait`, the rounds completed, the
number of each thread's last call, and the calls released so far. -/
structure BarrierRun (ι : Type) where
  threads : TaskRun ι
  counter : Int
  arrivals : Nat
  rounds : Nat
  call : Nat → Nat
  released : List Nat

inductive BarrierOp (ι : Type) where
  | wait (oldEsp : Nat)
  | other (op : TaskOp ι)

namespace BarrierRun

variable {ι : Type} [DecidableEq ι] {q : ι} {n : Nat} {s t : BarrierRun ι} {p : Places ι Nat}

/-- The loop `while (queue != nullptr) unblock(&queue), counter++`. -/
def releaseAll (q : ι) : Nat → BarrierRun ι → Option (BarrierRun ι)
  | 0, _ => none
  | fuel + 1, s =>
    if s.threads.tasks.queue q = 0 then some s
    else releaseAll q fuel { s with
      threads := ⟨s.threads.tasks.unblock q,s.threads.alive⟩
      counter := int32 (s.counter + 1)
      released := s.released ++ [s.call (s.threads.tasks.queue q)] }

/-- `Barrier::wait`. The inner `none` is `halt()`. -/
def wait (q : ι) (fuel : Nat) (s : BarrierRun ι) (oldEsp : Nat) : Option (Option (BarrierRun ι)) :=
  let number := s.arrivals
  let s := { s with counter := int32 (s.counter - 1), arrivals := s.arrivals + 1 }
  if 0 < s.counter then
    (s.threads.perform fuel (.block q oldEsp)).map (Option.map (fun threads =>
      { s with threads := threads, call := update s.call s.threads.tasks.currentRunning number }))
  else (releaseAll q fuel s).map (fun s => some { s with
    counter := int32 (s.counter + 1)
    rounds := s.rounds + 1
    released := s.released ++ [number] })

def perform (q : ι) (fuel : Nat) (s : BarrierRun ι) : BarrierOp ι → Option (Option (BarrierRun ι))
  | .wait oldEsp => s.wait q fuel oldEsp
  | .other op =>
    (s.threads.perform fuel op).map (Option.map (fun threads => { s with threads := threads }))

def Permitted (q : ι) (s : BarrierRun ι) : BarrierOp ι → Prop
  | .wait _ => True
  | .other op => op.Spares q ∧ s.threads.Permitted op

def Step (q : ι) (s t : BarrierRun ι) : Prop :=
  ∃ op fuel, s.Permitted q op ∧ s.perform q fuel op = some (some t)

def Initial (q : ι) (n : Nat) (s : BarrierRun ι) : Prop :=
  Reach TaskRun.Boot TaskRun.Step s.threads ∧ s.threads.tasks.queue q = 0 ∧
    s.counter = n ∧ s.arrivals = 0 ∧ s.rounds = 0 ∧ s.released = []

/-- Those who wait are the calls of the present round, and all calls of earlier rounds have
been released. -/
structure Sound (q : ι) (n : Nat) (s : BarrierRun ι) (p : Places ι Nat) : Prop where
  placed : s.threads.Placed p
  total : s.counter + (p.waiting q).length = n
  low : 1 ≤ s.counter
  calls : (p.waiting q).map s.call = range' (n * s.rounds) (p.waiting q).length
  arrived : s.arrivals = n * s.rounds + (p.waiting q).length
  released : s.released = range (n * s.rounds)

theorem initial_sound (positive : 1 ≤ n) (initial : Initial q n s) : ∃ p, Sound q n s p := by
  obtain ⟨reached,empty,counter,arrivals,rounds,released⟩ := initial
  obtain ⟨p,placed⟩ := TaskRun.reached_placed reached
  have nobody : p.waiting q = [] := (placed.represents.queue q).empty_iff.mp empty
  refine ⟨p,placed,by simp [nobody,counter],by omega,by simp [nobody],?_,?_⟩
  · simp [arrivals,rounds,nobody]
  · simp [released,rounds]

theorem releaseAll_spec {fuel : Nat} {l : List Nat} (done : releaseAll q fuel s = some t)
    (placed : s.threads.Placed p) (queue : p.waiting q = l) (low : 0 ≤ s.counter)
    (high : s.counter + l.length < 2^31) :
    ∃ p', t.threads.Placed p' ∧ p'.waiting q = [] ∧ t.counter = s.counter + l.length ∧
      t.arrivals = s.arrivals ∧ t.rounds = s.rounds ∧ t.released = s.released ++ l.map s.call := by
  induction fuel generalizing s p l with
  | zero => simp [releaseAll] at done
  | succ fuel ih =>
    have list := placed.represents.queue q
    rw [releaseAll] at done
    split at done
    · rename_i empty
      have nobody : l = [] := queue ▸ list.empty_iff.mp empty
      obtain rfl := Option.some.inj done
      exact ⟨p,placed,queue.trans nobody,by simp [nobody],rfl,rfl,by simp [nobody]⟩
    · rename_i filled
      have permitted : s.threads.Permitted (.unblock q) := filled
      obtain ⟨p',after,moved⟩ := TaskRun.performed_placed placed permitted
        (show s.threads.perform 0 (.unblock q) = _ from rfl)
      have someone : l ≠ [] := by
        rw [← queue]
        exact fun none => filled (list.empty_iff.mpr none)
      obtain ⟨d,more,rfl⟩ := exists_cons_of_ne_nil someone
      rw [queue] at list
      have rest : p'.waiting q = more := by rw [moved]; simp [TaskRun.queuesAfter,queue]
      rw [length_cons] at high
      push_cast at high
      have counted : int32 (s.counter + 1) = s.counter + 1 := int32_eq (by omega) (by omega)
      rw [counted] at done
      obtain ⟨p'',placed'',empty,counter,arrivals,rounds,released⟩ :=
        ih done after rest (by dsimp only; omega) (by dsimp only; omega)
      refine ⟨p'',placed'',empty,?_,arrivals,rounds,?_⟩
      · rw [counter,length_cons]
        push_cast
        omega
      · rw [released,list.1]
        simp

theorem wait_sound (fits : n < 2^31) (sound : Sound q n s p) {fuel oldEsp : Nat}
    (done : s.wait q fuel oldEsp = some (some t)) : ∃ p', Sound q n t p' := by
  have total := sound.total
  have low := sound.low
  have counted : int32 (s.counter - 1) = s.counter - 1 := int32_eq (by omega) (by omega)
  rw [wait,counted] at done
  dsimp only at done
  split at done
  · simp only [Option.map_eq_some_iff] at done
    obtain ⟨outcome,performed,threads,rfl,rfl⟩ := done
    have permitted : s.threads.Permitted (.block q oldEsp) := trivial
    obtain ⟨p',placed,moved⟩ := TaskRun.performed_placed sound.placed permitted performed
    have longer : p'.waiting q = p.waiting q ++ [s.threads.tasks.currentRunning] := by
      rw [moved]
      simp [TaskRun.queuesAfter]
    have apart : s.threads.tasks.currentRunning ∉ p.waiting q :=
      sound.placed.valid.apart q (mem_of_mem_head? sound.placed.represents.running)
    refine ⟨p',placed,?_,?_,?_,?_,sound.released⟩
    · rw [longer,length_append,length_singleton]
      push_cast
      omega
    · dsimp only
      omega
    · have kept : (p.waiting q).map (update s.call s.threads.tasks.currentRunning s.arrivals) =
          (p.waiting q).map s.call := by
        apply map_congr_left
        intro u member
        have other : u ≠ s.threads.tasks.currentRunning := fun same => apart (same ▸ member)
        rw [update_of_ne other]
      rw [longer,map_append,kept,sound.calls,length_append,length_singleton,range'_1_concat]
      simp [sound.arrived]
    · rw [longer,length_append,length_singleton,sound.arrived]
      dsimp only
      omega
  · rename_i last
    simp only [Option.map_eq_some_iff,Option.some.injEq] at done
    obtain ⟨u,emptied,rfl⟩ := done
    obtain ⟨p',placed,nobody,counter,arrivals,rounds,released⟩ :=
      releaseAll_spec emptied sound.placed rfl (by dsimp only; omega) (by dsimp only; omega)
    dsimp only at counter arrivals rounds released
    have length : (p.waiting q).length + 1 = n := by omega
    have full : n * (s.rounds + 1) = n * s.rounds + n := Nat.mul_succ _ _
    have counted' : int32 (u.counter + 1) = u.counter + 1 := int32_eq (by omega) (by omega)
    refine ⟨p',placed,?_,?_,?_,?_,?_⟩
    · rw [nobody,counted']
      simp only [length_nil]
      omega
    · rw [counted']
      dsimp only
      omega
    · simp [nobody]
    · rw [nobody,arrivals,rounds,full,sound.arrived]
      simp only [length_nil]
      omega
    · -- the queue's calls and the last one are the whole round
      have round : range' (n * s.rounds) n = range' (n * s.rounds) (p.waiting q).length ++ [s.arrivals] := by
        have split := range'_1_concat (s := n * s.rounds) (n := (p.waiting q).length)
        rw [length,← sound.arrived] at split
        exact split
      rw [released,rounds,full,sound.calls,sound.released,range_eq_range',range_eq_range',append_assoc,
        ← round,← range'_append_1]
      simp

theorem other_sound (sound : Sound q n s p) {fuel : Nat} {op : TaskOp ι}
    (permitted : s.Permitted q (.other op)) (done : s.perform q fuel (.other op) = some (some t)) :
    ∃ p', Sound q n t p' := by
  obtain ⟨spares,allowed⟩ := permitted
  simp only [perform,Option.map_eq_some_iff] at done
  obtain ⟨outcome,performed,threads,rfl,rfl⟩ := done
  obtain ⟨p',placed,moved⟩ := TaskRun.performed_placed sound.placed allowed performed
  have same : p'.waiting q = p.waiting q := by rw [moved,TaskRun.queuesAfter_spared spares]
  refine ⟨p',placed,?_,sound.low,?_,?_,sound.released⟩
  · rw [same]
    exact sound.total
  · rw [same]
    exact sound.calls
  · rw [same]
    exact sound.arrived

theorem step_sound (fits : n < 2^31) (sound : Sound q n s p) (step : s.Step q t) : ∃ p', Sound q n t p' := by
  obtain ⟨op,fuel,permitted,done⟩ := step
  cases op with
  | wait oldEsp => exact wait_sound fits sound done
  | other op => exact other_sound sound permitted done

end BarrierRun

end RudimentaryKernel
