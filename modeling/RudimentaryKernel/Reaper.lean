import RudimentaryKernel.Preemption
import RudimentaryKernel.Seating

/-! The scheduler that reaps through the heap. When the heap's lock is free the two `kfree` may
wake a thread each, and the rest is a switch as without a zombie; when it is taken the call
never comes back, because the running thread is linked into the lock's queue twice and the
walk to the end of that queue runs round the ring. -/
namespace RudimentaryKernel

open Function List RudimentaryKernel.Ring NullList TaskRun

namespace Tasks

variable {κ : Type} {s t u : Tasks (Waitable κ)} {p : Places (Waitable κ) Nat} {q : Waitable κ}

section Unblock

variable {ι : Type} [DecidableEq ι] (s : Tasks ι) (q : ι)

@[simp] theorem unblock_running : (s.unblock q).currentRunning = s.currentRunning := by
  unfold unblock
  dsimp only
  split <;> rfl

@[simp] theorem unblock_zombie : (s.unblock q).zombie = s.zombie := by
  unfold unblock
  dsimp only
  split <;> rfl

@[simp] theorem unblock_stackBottom : (s.unblock q).stackBottom = s.stackBottom := by
  unfold unblock
  dsimp only
  split <;> rfl

@[simp] theorem unblock_freed : (s.unblock q).freed = s.freed := by
  unfold unblock
  dsimp only
  split <;> rfl

end Unblock

variable [DecidableEq κ]

def kfree (s : Tasks (Waitable κ)) (address : Nat) : Tasks (Waitable κ) :=
  let s := { s with freed := s.freed ++ [address] }
  if s.queue .kpool ≠ 0 then s.unblock .kpool else s

/-- The head of the scheduler when it has no lock to wait for. -/
def reaped (s : Tasks (Waitable κ)) (oldEsp : Nat) : Tasks (Waitable κ) :=
  let s := { s with stackPointer := update s.stackPointer s.currentRunning oldEsp }
  if s.zombie = 0 then s else { (s.kfree (s.stackBottom s.zombie)).kfree s.zombie with zombie := 0 }

/-- What the reaper owes for the pending zombie. -/
def pending (s : Tasks (Waitable κ)) : List Nat :=
  if s.zombie = 0 then [] else [s.stackBottom s.zombie,s.zombie]

omit [DecidableEq κ] in
theorem pending_congr (zombie : t.zombie = s.zombie) (stackBottom : t.stackBottom = s.stackBottom) :
    t.pending = s.pending := by
  rw [pending,zombie,stackBottom,pending]

section Kfree

variable {alive exited : List Nat}

/-- What reaping keeps: everybody has a place, the exited ones are gone, and the running
thread has its state. -/
structure Calm (exited alive : List Nat) (s t : Tasks (Waitable κ)) : Prop where
  seated : ∃ p, Seated ⟨t,alive⟩ p
  gone : Gone exited ⟨t,alive⟩
  running : t.currentRunning = s.currentRunning
  state : t.state s.currentRunning = s.state s.currentRunning
  stackBottom : t.stackBottom = s.stackBottom

omit [DecidableEq κ] in
theorem Calm.trans (one : Calm exited alive s t) (two : Calm exited alive t u) : Calm exited alive s u where
  seated := two.seated
  gone := two.gone
  running := two.running.trans one.running
  state := by rw [← one.running,two.state,one.running,one.state]
  stackBottom := two.stackBottom.trans one.stackBottom

theorem kfree_calm (seated : Seated ⟨s,alive⟩ p) (gone : Gone exited ⟨s,alive⟩) (address : Nat) :
    Calm exited alive s (s.kfree address) := by
  unfold kfree
  dsimp only
  split
  · rename_i filled
    have noted : Seated ⟨{ s with freed := s.freed ++ [address] },alive⟩ p := seated.congr rfl rfl rfl rfl rfl
    obtain ⟨woken,d,there,other,state⟩ := noted.unblock filled
    have still : Gone exited ⟨{ s with freed := s.freed ++ [address] },alive⟩ := gone
    refine ⟨woken,still.woken there other (unblock_running ..) state,unblock_running ..,?_,unblock_stackBottom ..⟩
    rw [state,update_of_ne other.symm]
  · exact ⟨⟨p,seated.congr rfl rfl rfl rfl rfl⟩,gone,rfl,rfl,rfl⟩

@[simp] theorem kfree_freed (s : Tasks (Waitable κ)) (address : Nat) :
    (s.kfree address).freed = s.freed ++ [address] := by
  unfold kfree
  dsimp only
  split <;> simp

theorem reaped_calm (seated : Seated ⟨s,alive⟩ p) (gone : Gone exited ⟨s,alive⟩) (oldEsp : Nat) :
    Calm exited alive s (s.reaped oldEsp) := by
  unfold reaped
  dsimp only
  have saved : Seated ⟨{ s with stackPointer := update s.stackPointer s.currentRunning oldEsp },alive⟩ p :=
    seated.congr rfl rfl rfl rfl rfl
  split
  · exact ⟨⟨p,saved⟩,gone,rfl,rfl,rfl⟩
  · have one := kfree_calm saved gone (s.stackBottom s.zombie)
    obtain ⟨p',middle⟩ := one.seated
    have both := one.trans (kfree_calm middle one.gone s.zombie)
    obtain ⟨p'',after⟩ := both.seated
    exact ⟨⟨p'',after.congr rfl rfl rfl rfl rfl⟩,both.gone,both.running,both.state,both.stackBottom⟩

@[simp] theorem kfree_running (s : Tasks (Waitable κ)) (address : Nat) :
    (s.kfree address).currentRunning = s.currentRunning := by
  unfold kfree
  dsimp only
  split <;> simp

@[simp] theorem kfree_stackBottom (s : Tasks (Waitable κ)) (address : Nat) :
    (s.kfree address).stackBottom = s.stackBottom := by
  unfold kfree
  dsimp only
  split <;> simp

theorem reaped_running (s : Tasks (Waitable κ)) (oldEsp : Nat) :
    (s.reaped oldEsp).currentRunning = s.currentRunning := by
  unfold reaped
  dsimp only
  split <;> simp

theorem reaped_stackBottom (s : Tasks (Waitable κ)) (oldEsp : Nat) :
    (s.reaped oldEsp).stackBottom = s.stackBottom := by
  unfold reaped
  dsimp only
  split <;> simp

theorem reaped_freed (s : Tasks (Waitable κ)) (oldEsp : Nat) :
    (s.reaped oldEsp).zombie = 0 ∧ (s.reaped oldEsp).freed = s.freed ++ s.pending := by
  unfold reaped pending
  dsimp only
  split
  · rename_i none
    simp [none]
  · simp

theorem enqueue_frame {fuel : Nat} (linked : s.enqueue fuel q = some u) :
    u.currentRunning = s.currentRunning ∧ u.zombie = s.zombie ∧ u.stackBottom = s.stackBottom ∧
    u.stackPointer = s.stackPointer ∧ u.freed = s.freed ∧ ∀ r, r ≠ q → u.queue r = s.queue r := by
  unfold enqueue at linked
  dsimp only at linked
  split at linked
  · obtain rfl := Option.some.inj linked
    exact ⟨rfl,rfl,rfl,rfl,rfl,fun r other => update_of_ne other ..⟩
  · obtain ⟨z,_,rfl⟩ := Option.map_eq_some_iff.mp linked
    exact ⟨rfl,rfl,rfl,rfl,rfl,fun _ _ => rfl⟩

theorem enqueue_state {fuel : Nat} (linked : s.enqueue fuel q = some u) :
    u.state = update s.state s.currentRunning .blocked := by
  unfold enqueue at linked
  dsimp only at linked
  split at linked
  · obtain rfl := Option.some.inj linked
    rfl
  · obtain ⟨z,_,rfl⟩ := Option.map_eq_some_iff.mp linked
    rfl

/-- A running thread that is linked into a queue twice is never done with the walk the second
time. -/
theorem enqueue_twice {S : Nat → Prop} (closed : ∀ v, S v → s.next v ≠ 0 ∧ S (s.next v)) (inside : S s.currentRunning)
    (real : s.currentRunning ≠ 0) {fuel : Nat} (linked : s.enqueue fuel q = some u) (more : Nat)
    (stackPointer : Nat → Nat) : enqueue more { u with stackPointer := stackPointer } q = none := by
  by_cases empty : s.queue q = 0
  · rw [enqueue_empty fuel empty] at linked
    obtain rfl := Option.some.inj linked
    simp [enqueue,real,last_never closed inside]
  · obtain ⟨z,walk,_⟩ := Option.map_eq_some_iff.mp ((if_neg empty).symm.trans linked)
    rw [enqueue_filled empty walk] at linked
    obtain rfl := Option.some.inj linked
    simp [enqueue,empty,last_relinked closed inside real walk]

theorem enqueue_beside {fuel : Nat} (linked : s.enqueue fuel q = some u) (zombie : Nat) (freed : List Nat)
    (stackPointer : Nat → Nat) :
    enqueue fuel { s with zombie := zombie, freed := freed, stackPointer := stackPointer } q =
      some { u with zombie := zombie, freed := freed, stackPointer := stackPointer } := by
  unfold enqueue at linked ⊢
  dsimp only at linked ⊢
  split at linked
  · rename_i empty
    obtain rfl := Option.some.inj linked
    rw [if_pos empty]
  · rename_i filled
    obtain ⟨z,walk,rfl⟩ := Option.map_eq_some_iff.mp linked
    rw [if_neg filled,walk]
    rfl

theorem enqueue_noted {fuel : Nat} (linked : s.enqueue fuel q = some u) (address : Nat) :
    enqueue fuel { s with freed := s.freed ++ [address] } q = some { u with freed := u.freed ++ [address] } := by
  obtain ⟨_,zombie,_,pointer,freed,_⟩ := enqueue_frame linked
  rw [enqueue_beside linked s.zombie (s.freed ++ [address]) s.stackPointer,freed,zombie,pointer]

theorem enqueue_cleared {fuel : Nat} (linked : s.enqueue fuel q = some u) :
    enqueue fuel { s with zombie := 0 } q = some { u with zombie := 0 } := by
  obtain ⟨_,_,_,pointer,freed,_⟩ := enqueue_frame linked
  rw [enqueue_beside linked 0 s.freed s.stackPointer,freed,pointer]

theorem enqueue_kfree (represents : s.Represents p) (valid : p.Valid) (different : q ≠ .kpool) {fuel : Nat}
    (linked : s.enqueue fuel q = some u) (address : Nat) :
    (s.kfree address).enqueue fuel q = some (u.kfree address) := by
  obtain ⟨_,_,_,_,_,queues⟩ := enqueue_frame linked
  have noted := enqueue_noted linked address
  have there : Represents { s with freed := s.freed ++ [address] } p := represents.congr rfl rfl rfl rfl rfl
  unfold kfree
  dsimp only
  rw [queues _ different.symm]
  by_cases filled : s.queue .kpool ≠ 0
  · rw [if_pos filled,if_pos filled]
    exact enqueue_unblock there valid different filled noted
  · rw [if_neg filled,if_neg filled,noted]

theorem enqueue_reaped (seated : Seated ⟨s,alive⟩ p) (gone : Gone exited ⟨s,alive⟩)
    (different : s.zombie ≠ 0 → q ≠ .kpool) {fuel : Nat} (linked : s.enqueue fuel q = some u) (oldEsp : Nat) :
    (s.reaped oldEsp).enqueue fuel q = some (u.reaped oldEsp) := by
  obtain ⟨running,zombie,bottom,pointer,freed,_⟩ := enqueue_frame linked
  have saved : enqueue fuel { s with stackPointer := update s.stackPointer s.currentRunning oldEsp } q =
      some { u with stackPointer := update u.stackPointer u.currentRunning oldEsp } := by
    rw [enqueue_beside linked s.zombie s.freed (update s.stackPointer s.currentRunning oldEsp),freed,zombie,
      pointer,running]
  unfold reaped
  dsimp only
  by_cases none : s.zombie = 0
  · rw [if_pos none,if_pos (zombie.trans none),saved]
  · rw [if_neg none,if_neg (fun zero => none (zombie.symm.trans zero))]
    have sitting : Seated ⟨{ s with stackPointer := update s.stackPointer s.currentRunning oldEsp },alive⟩ p :=
      seated.congr rfl rfl rfl rfl rfl
    generalize ({ u with stackPointer := update u.stackPointer u.currentRunning oldEsp } : Tasks (Waitable κ)) =
      after at saved ⊢
    obtain ⟨p',middle⟩ := (kfree_calm sitting gone (s.stackBottom s.zombie)).seated
    have first := enqueue_kfree sitting.represents sitting.valid (different none) saved (s.stackBottom s.zombie)
    have second := enqueue_kfree middle.represents middle.valid (different none) first s.zombie
    rw [zombie,bottom]
    exact enqueue_cleared second

end Kfree

end Tasks

namespace KernelRun

open Tasks

variable {L : Layout} {κ : Type} [DecidableEq κ] {m t : KernelRun L κ} {p : Places (Waitable κ) Nat}

theorem release_threads (m : KernelRun L κ) (l : Waitable κ) : (m.release l).threads =
    ⟨if m.threads.tasks.queue l ≠ 0 then m.threads.tasks.unblock l else m.threads.tasks,m.threads.alive⟩ := by
  unfold release
  dsimp only
  split <;> rfl

theorem release_status (m : KernelRun L κ) (l : Waitable κ) :
    (m.release l).status = update m.status l .unlocked := by
  unfold release
  dsimp only
  split <;> rfl

theorem release_rest (m : KernelRun L κ) (l : Waitable κ) :
    (m.release l).blocks = m.blocks ∧ (m.release l).exits = m.exits := by
  unfold release
  dsimp only
  split <;> exact ⟨rfl,rfl⟩

theorem threadReap_threads (m : KernelRun L κ) (z : Nat) : (m.threadReap z).threads =
    ⟨(m.threads.tasks.kfree (m.threads.tasks.stackBottom z)).kfree z,m.threads.alive⟩ := by
  unfold threadReap
  simp only [release_threads,withTasks]
  rfl

theorem threadReap_rest (m : KernelRun L κ) (z : Nat) (free : m.status .kpool ≠ .locked) :
    (m.threadReap z).status = m.status ∧ (m.threadReap z).blocks = m.blocks.erase z ∧
    (m.threadReap z).exits = m.exits := by
  have unlocked : m.status .kpool = .unlocked := by
    cases state : m.status .kpool
    · rfl
    · exact absurd state free
  unfold threadReap
  simp only [release_status,release_rest,withTasks,and_self,and_true]
  rw [← unlocked,update_eq_self,update_eq_self]

omit [DecidableEq κ] in
theorem choose_spec {oldEsp : Nat} (done : m.choose oldEsp = some t) :
    ∃ tasks esp, m.threads.tasks.scheduler oldEsp = some (tasks,esp) ∧ t.threads = ⟨tasks,m.threads.remaining⟩ ∧
      t.status = m.status ∧ t.blocks = m.blocks ∧
      t.exits = if m.threads.tasks.state m.running = .exited
        then m.exits ++ [(m.threads.tasks.stackBottom m.running,m.running)] else m.exits := by
  obtain ⟨⟨tasks,esp⟩,switched,rfl⟩ := Option.map_eq_some_iff.mp done
  exact ⟨tasks,esp,switched,rfl,rfl,rfl,rfl⟩

/-- What the head of the scheduler leaves, for a thread that stays or leaves. -/
structure Reaped (oldEsp : Nat) (m after : KernelRun L κ) : Prop where
  aside : Aside m after
  threads : after.threads = ⟨m.threads.tasks.reaped oldEsp,m.threads.alive⟩
  blocks : ∀ v ∈ m.blocks, v ≠ m.threads.tasks.zombie → v ∈ after.blocks
  status : after.status = m.status
  exits : after.exits = m.exits

/-- With nothing to reap or a free lock the scheduler comes back, as from a switch of what
the reaper has left. -/
theorem scheduler_returns (walk depth : Nat) (esp : Nat → Nat)
    (free : m.threads.tasks.zombie ≠ 0 → m.status .kpool ≠ .locked) :
    ∃ after : KernelRun L κ, scheduler walk esp (depth + 1) m = some (after.choose (esp depth)) ∧
      Reaped (esp depth) m after := by
  rw [scheduler]
  dsimp only
  let saved := m.withTasks { m.threads.tasks with
    stackPointer := update m.threads.tasks.stackPointer m.running (esp depth) }
  by_cases none : m.threads.tasks.zombie = 0
  · refine ⟨saved,if_neg (not_not.mpr none),(Aside.refl m).withTasks _,?_,fun _ member _ => member,rfl,rfl⟩
    rw [reaped,if_pos none]
    rfl
  · obtain ⟨status,blocks,exits⟩ := threadReap_rest saved m.threads.tasks.zombie (free none)
    have threads := threadReap_threads saved m.threads.tasks.zombie
    refine ⟨_,(if_pos none).trans (if_neg (free none)),
      (((Aside.refl m).withTasks _).trans (threadReap_aside ..)).withTasks _,?_,?_,status,exits⟩
    · rw [reaped,if_neg none]
      change TaskRun.mk { (saved.threadReap m.threads.tasks.zombie).threads.tasks with zombie := 0 }
        (saved.threadReap m.threads.tasks.zombie).threads.alive = _
      rw [threads]
      rfl
    · intro v member other
      change v ∈ (saved.threadReap m.threads.tasks.zombie).blocks
      rw [blocks]
      exact (mem_erase_of_ne other).mpr member

/-- With a zombie to reap and the lock taken the scheduler is entered again from `block`. -/
theorem scheduler_reenters (pending : m.threads.tasks.zombie ≠ 0) (locked : m.status .kpool = .locked)
    (walk depth : Nat) (esp : Nat → Nat) : scheduler walk esp (depth + 1) m =
      (enqueue walk { m.threads.tasks with
        stackPointer := update m.threads.tasks.stackPointer m.running (esp depth) } .kpool).bind
          (fun tasks => scheduler walk esp depth (m.withTasks tasks)) :=
  (if_pos pending).trans (if_pos locked)

/-- Then it does not come back, for the ring is closed. -/
theorem scheduler_trapped {S : Nat → Prop}
    (closed : ∀ v, S v → m.threads.tasks.next v ≠ 0 ∧ S (m.threads.tasks.next v))
    (inside : S m.running) (real : m.running ≠ 0) (pending : m.threads.tasks.zombie ≠ 0)
    (locked : m.status .kpool = .locked) (walk depth : Nat) (esp : Nat → Nat) :
    scheduler walk esp depth m = none := by
  cases depth with
  | zero => rfl
  | succ depth =>
    rw [scheduler_reenters pending locked]
    refine Option.bind_eq_none_iff.mpr (fun tasks linked => ?_)
    cases depth with
    | zero => rfl
    | succ depth =>
      obtain ⟨running,zombie,_⟩ := enqueue_frame linked
      have still : (m.withTasks tasks).threads.tasks.zombie ≠ 0 := fun none => pending (zombie.symm.trans none)
      rw [scheduler_reenters still locked]
      refine Option.bind_eq_none_iff.mpr (fun again relinked => ?_)
      have never := enqueue_twice (S := S) (by exact closed) (by exact inside) (by exact real) linked walk
        (update (m.withTasks tasks).threads.tasks.stackPointer (m.withTasks tasks).running (esp depth))
      exact absurd (relinked.symm.trans never) (by simp)

/-- What a call of the scheduler has done when it is back: with `leaving` the running thread
was taken off the ring as `EXITED`. -/
structure Moved (leaving : Bool) (m t : KernelRun L κ) : Prop where
  aside : Aside m t
  seated : ∃ p, t.threads.Seated p
  chosen : t.running ∉ m.exited
  gone : Gone m.exited t.threads
  ready : t.threads.tasks.state t.running = .ready
  alive : ∀ v ∈ t.threads.alive, v ∈ m.threads.alive
  kept : ∀ v ∈ m.threads.alive, (v = m.running → m.threads.tasks.state v = .ready) → v ∈ t.threads.alive
  left : leaving → m.running ∉ t.threads.alive
  next : leaving → m.threads.tasks.zombie = 0 → t.running = m.threads.tasks.next m.running
  blocks : ∀ v ∈ m.blocks, v ≠ m.threads.tasks.zombie → v ∈ t.blocks
  free : m.threads.tasks.zombie ≠ 0 → m.status .kpool ≠ .locked
  status : t.status = m.status
  stackBottom : t.threads.tasks.stackBottom = m.threads.tasks.stackBottom
  zombie : t.threads.tasks.zombie = if leaving then m.running else 0
  freed : t.threads.tasks.freed = m.threads.tasks.freed ++ m.threads.tasks.pending
  exits : t.exits = m.exits ++
    if leaving then [(m.threads.tasks.stackBottom m.running,m.running)] else []

theorem Reaped.moved {after : KernelRun L κ} {oldEsp : Nat} (reaped : Reaped oldEsp m after)
    (free : m.threads.tasks.zombie ≠ 0 → m.status .kpool ≠ .locked) (nodup : m.threads.alive.Nodup)
    (done : after.choose oldEsp = some t)
    (kept : ∀ {tasks esp}, after.threads.tasks.scheduler oldEsp = some (tasks,esp) →
      (∃ p, Seated ⟨tasks,after.threads.remaining⟩ p) ∧ tasks.currentRunning ∉ m.exited ∧
      Gone m.exited ⟨tasks,after.threads.remaining⟩)
    (stays : ∀ v ∈ m.threads.alive, (v = m.running → m.threads.tasks.state v = .ready) → v ∈ after.threads.remaining) :
    Moved (after.threads.tasks.state m.running = .exited) m t := by
  obtain ⟨tasks,_,switched,run,status,blocks,exits⟩ := choose_spec done
  obtain ⟨seated,chosen,gone⟩ := kept switched
  have running : after.running = m.running := by
    rw [KernelRun.running,reaped.threads]
    exact reaped_running ..
  have bottom : after.threads.tasks.stackBottom = m.threads.tasks.stackBottom := by
    rw [reaped.threads]
    exact reaped_stackBottom ..
  obtain ⟨none,freed⟩ := reaped_freed m.threads.tasks oldEsp
  obtain ⟨sameBottom,sameFreed,zombie⟩ := scheduler_frame switched (by rw [reaped.threads]; exact none)
  have remaining (exits : after.threads.tasks.state m.running = .exited) :
      after.threads.remaining = m.threads.alive.erase m.running := by
    rw [← running] at exits
    refine (remaining_exited exits).trans ?_
    change after.threads.alive.erase after.running = _
    rw [running,reaped.threads]
  exact {
    aside := reaped.aside.trans (choose_aside done)
    seated := by rw [run]; exact seated
    chosen := by rw [KernelRun.running,run]; exact chosen
    gone := by rw [run]; exact gone
    ready := by
      rw [KernelRun.running,run,scheduler_state switched]
      exact update_self ..
    kept := by
      rw [run]
      exact stays
    alive := by
      intro v member
      rw [run] at member
      have before := remaining_alive member
      rw [reaped.threads] at before
      exact before
    left := by
      intro exits
      rw [run,remaining (of_decide_eq_true exits)]
      exact nodup.not_mem_erase
    next := by
      intro exits empty
      have state : after.threads.tasks.state after.running = .exited := by
        rw [running]
        exact of_decide_eq_true exits
      have onward := scheduler_next switched (by
        change after.threads.tasks.state after.running ≠ _
        rw [state]
        decide)
      change _ = after.threads.tasks.next after.running at onward
      rw [running,reaped.threads,Tasks.reaped,if_pos empty] at onward
      rw [KernelRun.running,run]
      exact onward
    blocks := by rw [blocks]; exact reaped.blocks
    free := free
    status := status.trans reaped.status
    stackBottom := by rw [run]; exact sameBottom.trans bottom
    zombie := by
      rw [run]
      change tasks.zombie = _
      change _ = if after.threads.tasks.state after.running = .exited then after.running else 0 at zombie
      rw [zombie,running]
      simp only [decide_eq_true_eq]
    freed := by
      rw [run]
      change tasks.freed = _
      rw [sameFreed,reaped.threads]
      exact freed
    exits := by
      rw [exits,running,bottom,reaped.exits]
      split <;> simp [*] }

omit [DecidableEq κ] in
theorem seated_closed (seated : m.threads.Seated p) (v : Nat) (member : v ∈ p.ring) :
    m.threads.tasks.next v ≠ 0 ∧ m.threads.tasks.next v ∈ p.ring := by
  have onward := seated.represents.ring.next_mem member
  exact ⟨seated.represents.real _ onward,onward⟩

theorem scheduler_moved (seated : m.threads.Seated p) (gone : Gone m.exited m.threads) {walk depth : Nat}
    {esp : Nat → Nat} (done : scheduler walk esp depth m = some (some t)) :
    Moved (m.threads.tasks.state m.running = .exited) m t := by
  have free : m.threads.tasks.zombie ≠ 0 → m.status .kpool ≠ .locked := by
    intro pending locked
    rw [scheduler_trapped (S := (· ∈ p.ring)) (seated_closed seated)
      (mem_of_mem_head? seated.represents.running) seated.real pending locked] at done
    contradiction
  cases depth with
  | zero => contradiction
  | succ depth =>
    obtain ⟨after,returned,reaped⟩ := scheduler_returns walk depth esp free
    have chosen := Option.some.inj (returned.symm.trans done)
    have sitting : Seated ⟨m.threads.tasks,m.threads.alive⟩ p := seated
    have calm := reaped_calm sitting gone (esp depth)
    obtain ⟨p',middle⟩ := calm.seated
    have left := calm.gone
    have state : after.threads.tasks.state m.running = m.threads.tasks.state m.running := by
      rw [reaped.threads]
      exact calm.state
    rw [← reaped.threads] at middle left
    have moved := reaped.moved free seated.nodup chosen
      (fun switched => ⟨(middle.switch switched).1,left.switched middle switched⟩)
      (fun v member ready => remaining_kept (by rw [reaped.threads]; exact member) (by
        rw [reaped.threads]
        change v = (m.threads.tasks.reaped (esp depth)).currentRunning → _
        rw [reaped_running]
        intro same
        rw [← ready same,same]
        exact calm.state))
    rwa [state] at moved

theorem block_moved (seated : m.threads.Seated p) (gone : Gone m.exited m.threads) (going : m.running ∉ m.exited)
    {fuel : Nat} {esp : Nat → Nat} {q : Waitable κ} (taken : q = .kpool → m.status .kpool = .locked)
    (done : m.block fuel esp q = some (some t)) : Moved false m t := by
  obtain ⟨u,linked,switching⟩ := Option.bind_eq_some_iff.mp done
  obtain ⟨running,zombie,bottom,_,freed,_⟩ := enqueue_frame linked
  have free : m.threads.tasks.zombie ≠ 0 → m.status .kpool ≠ .locked := by
    intro pending locked
    obtain ⟨rest,first⟩ := seated.represents.split
    obtain ⟨u',linked',_,_,_,_,next,_⟩ := enqueue_links seated.represents seated.valid first (q := q) le_rfl
    obtain rfl := enqueue_unique linked linked'
    rw [scheduler_trapped (m := m.withTasks u) (S := (· ∈ p.ring)) ?_ ?_ ?_ ?_ locked] at switching
    · contradiction
    · intro v member
      change u.next v ≠ 0 ∧ u.next v ∈ p.ring
      rw [next v (fun waits => seated.valid.apart q member waits)]
      exact seated_closed seated v member
    · change u.currentRunning ∈ p.ring
      rw [running]
      exact mem_of_mem_head? seated.represents.running
    · exact fun zero => seated.real (running.symm.trans zero)
    · exact fun none => pending (zombie.symm.trans none)
  cases fuel with
  | zero => contradiction
  | succ depth =>
    obtain ⟨after,returned,reaped⟩ := scheduler_returns (m := m.withTasks u)
      (depth + 1) depth esp (fun pending => free (zombie ▸ pending))
    have chosen := Option.some.inj (returned.symm.trans switching)
    have sitting : Seated ⟨m.threads.tasks,m.threads.alive⟩ p := seated
    have calm := reaped_calm sitting gone (esp depth)
    obtain ⟨p',middle⟩ := calm.seated
    have relinked := enqueue_reaped sitting gone (fun pending same => free pending (taken same)) linked (esp depth)
    have state : after.threads.tasks.state m.running = .blocked := by
      rw [reaped.threads]
      change (u.reaped (esp depth)).state m.running = _
      rw [enqueue_state relinked,calm.running]
      exact update_self ..
    have here : after.running = m.running := by
      rw [KernelRun.running,reaped.threads]
      exact (reaped_running ..).trans running
    have alive : after.threads.remaining = m.threads.alive := by
      rw [← here] at state
      refine (remaining_blocked state).trans ?_
      rw [reaped.threads]
      rfl
    have moved := reaped.moved (fun pending => free (zombie ▸ pending)) seated.nodup chosen
      (fun {tasks stack} switched => by
        rw [alive]
        rw [reaped.threads] at switched
        have parked : Tasks.block (depth + 1) (m.threads.tasks.reaped (esp depth)) q (esp depth) =
            some (some (tasks,stack)) := by
          rw [Tasks.block,relinked]
          exact congrArg some switched
        exact ⟨(middle.block parked).1,calm.gone.parked middle parked (by rw [calm.running]; exact going)⟩)
      (fun v member _ => by rw [alive]; exact member)
    have stays : decide (after.threads.tasks.state (m.withTasks u).running = .exited) = false := by
      change decide (after.threads.tasks.state u.currentRunning = .exited) = false
      rw [running]
      change decide (after.threads.tasks.state m.running = .exited) = false
      rw [state]
      rfl
    rw [stays] at moved
    have owed : u.pending = m.threads.tasks.pending := pending_congr zombie bottom
    exact {
      aside := ((Aside.refl m).withTasks u).trans moved.aside
      seated := moved.seated
      chosen := moved.chosen
      gone := moved.gone
      ready := moved.ready
      alive := moved.alive
      kept := by
        obtain ⟨_,_,_,run,_⟩ := choose_spec chosen
        rw [run,alive]
        exact fun v member _ => member
      left := fun impossible => absurd impossible (by decide)
      next := fun impossible => absurd impossible (by decide)
      blocks := fun v member other => moved.blocks v member (fun same => other (same.trans zombie))
      free := free
      status := moved.status
      stackBottom := moved.stackBottom.trans bottom
      zombie := by simpa using moved.zombie
      freed := by
        rw [moved.freed]
        exact congrArg₂ (· ++ ·) freed owed
      exits := by
        rw [moved.exits]
        rfl }

end KernelRun

end RudimentaryKernel
