import Mathlib.Logic.Function.Iterate
import RudimentaryKernel.Places
import RudimentaryKernel.Reach
import RudimentaryKernel.Target

/-! `Lock` and `Condition` of `sync.cpp` over the placement of threads. Every operation
runs in a critical section, so a step is what one thread does up to its next `block` or
up to the end of the section, and a thread that comes back from `block` goes on before
anything else can run. `none` is the `halt()` of a scheduler without another thread. -/
namespace RudimentaryKernel

open Function List

/-- Where a thread is in the two classes: outside, in the lock's queue, unblocked from it
and not yet testing `status` again, in a condition's queue, or unblocked from that. -/
inductive Doing (κ : Type) where
  | free
  | queued
  | woken
  | waiting (c : κ)
  | signalled (c : κ)
  deriving DecidableEq

/-- One lock with the conditions `κ`. Queue `none` is the lock's own. A thread holds the
lock between a return from `acquire` or `wait` and its next `release` or `wait`. -/
structure Monitor (κ τ : Type) where
  places : Places (Option κ) τ
  status : LockStatus
  doing : τ → Doing κ
  holds : τ → Bool

inductive MonitorOp (κ τ : Type) where
  | acquire
  | release
  | wait (c : κ)
  | signal (c : κ)
  | broadcast (c : κ)
  | resume
  | switch
  | create (t : τ)
  | exit

namespace Monitor

variable {κ τ : Type} {s : Monitor κ τ}

def Initial (s : Monitor κ τ) : Prop :=
  s.places.Valid ∧ (∀ q, s.places.waiting q = []) ∧ s.status = .unlocked ∧
    ∀ t, s.doing t = .free ∧ s.holds t = false

/-- At most one thread holds the lock, `status` tells whether one does, and a free lock
with waiters has one of them on its way. -/
structure Sound (s : Monitor κ τ) : Prop where
  valid : s.places.Valid
  one : ∀ t u, s.holds t = true → s.holds u = true → t = u
  locked : s.status = .locked ↔ ∃ t, s.holds t = true
  served : s.places.waiting none ≠ [] →
    s.status = .locked ∨ ∃ t ∈ s.places.ring, s.doing t = .woken

theorem initial_sound (initial : s.Initial) : s.Sound := by
  obtain ⟨valid,empty,free,threads⟩ := initial
  refine ⟨valid,?_,?_,fun filled => absurd (empty none) filled⟩
  · intro t u holds
    simp [(threads t).2] at holds
  · simp [free,threads]

variable [DecidableEq κ] [DecidableEq τ]

def block (s : Monitor κ τ) (r : τ) (q : Option κ) (doing : Doing κ) : Option (Monitor κ τ) :=
  if s.places.ring.tail = [] then none
  else some { s with places := s.places.park q, doing := update s.doing r doing }

/-- `if (queue != nullptr) unblock(&queue)`. -/
def unblock (s : Monitor κ τ) (q : Option κ) (doing : Doing κ) : Monitor κ τ :=
  match s.places.waiting q with
  | [] => s
  | t :: _ => { s with places := s.places.wake q, doing := update s.doing t doing }

/-- One test of the loop in `lock_acquire_helper`, and what follows it. -/
def lockAcquireHelper (s : Monitor κ τ) (r : τ) : Option (Monitor κ τ) :=
  if s.status = .locked then s.block r none .queued
  else some { s with
    status := .locked
    doing := update s.doing r .free
    holds := update s.holds r true }

def lockReleaseHelper (s : Monitor κ τ) (r : τ) : Monitor κ τ :=
  { s with status := .unlocked, holds := update s.holds r false }.unblock none .woken

/-- `Condition::wait` up to its `block`. -/
def wait (s : Monitor κ τ) (r : τ) (c : κ) : Option (Monitor κ τ) :=
  (s.lockReleaseHelper r).block r (some c) (.waiting c)

def signal (s : Monitor κ τ) (c : κ) : Monitor κ τ := s.unblock (some c) (.signalled c)

/-- `Condition::broadcast`: one `unblock` for every thread in the queue. -/
def broadcast (s : Monitor κ τ) (c : κ) : Monitor κ τ :=
  (fun s : Monitor κ τ => s.signal c)^[(s.places.waiting (some c)).length] s

/-- What the running thread `r` may do. Only the holder calls `release` and `wait`; a
thread inside one of the operations goes on with it. -/
def Allowed (s : Monitor κ τ) (r : τ) : MonitorOp κ τ → Prop
  | .release | .wait _ => s.doing r = .free ∧ s.holds r = true
  | .resume => s.doing r ≠ .free
  | .create t => s.doing r = .free ∧ ¬s.places.Has t ∧ s.doing t = .free ∧ s.holds t = false
  | .exit => s.doing r = .free ∧ s.holds r = false ∧ s.places.ring.tail ≠ []
  | .acquire | .signal _ | .broadcast _ | .switch => s.doing r = .free

def effect (s : Monitor κ τ) (r : τ) : MonitorOp κ τ → Option (Monitor κ τ)
  | .acquire | .resume => s.lockAcquireHelper r
  | .release => some (s.lockReleaseHelper r)
  | .wait c => s.wait r c
  | .signal c => some (s.signal c)
  | .broadcast c => some (s.broadcast c)
  | .switch => some { s with places := s.places.turn }
  | .create t => some { s with places := s.places.join t }
  | .exit => some { s with places := s.places.leave }

def Step (s t : Monitor κ τ) : Prop :=
  ∃ r op, s.places.ring.head? = some r ∧ s.Allowed r op ∧ s.effect r op = some t

variable {t : Monitor κ τ} {r u : τ} {rest : List τ} {q : Option κ} {c : κ}

theorem unblock_empty {doing : Doing κ} (empty : s.places.waiting q = []) :
    s.unblock q doing = s := by
  simp [unblock,empty]

theorem unblock_first {doing : Doing κ} {more : List τ} (first : s.places.waiting q = u :: more)
    (running : s.places.ring = r :: rest) : s.unblock q doing = { s with
      places := ⟨r :: u :: rest,update s.places.waiting q more⟩
      doing := update s.doing u doing } := by
  simp [unblock,first,Places.wake_eq running first]

theorem Sound.signal (sound : s.Sound) (running : s.places.ring = r :: rest) : (s.signal c).Sound := by
  cases first : s.places.waiting (some c) with
  | nil => rwa [Monitor.signal,unblock_empty first]
  | cons u more =>
    rw [Monitor.signal,unblock_first first running]
    refine ⟨?_,sound.one,sound.locked,?_⟩
    · rw [← Places.wake_eq running first]
      exact Places.wake_valid sound.valid running first
    · intro filled
      have before : s.places.waiting none ≠ [] := by simpa using filled
      refine (sound.served before).imp_right ?_
      rintro ⟨w,onRing,woken⟩
      have other : w ≠ u := by
        intro same
        subst w
        exact sound.valid.apart (some c) onRing (by simp [first])
      rw [running] at onRing
      refine ⟨w,?_,by simpa [other] using woken⟩
      simp only [mem_cons] at onRing ⊢
      tauto

theorem signal_ring (running : s.places.ring = r :: rest) :
    ∃ more, (s.signal c).places.ring = r :: more := by
  cases first : s.places.waiting (some c) with
  | nil => exact ⟨rest,by rw [signal,unblock_empty first,running]⟩
  | cons u more => exact ⟨u :: rest,by rw [signal,unblock_first first running]⟩

theorem Sound.signals (sound : s.Sound) (running : s.places.ring = r :: rest) (n : Nat) :
    ((fun s : Monitor κ τ => s.signal c)^[n] s).Sound := by
  induction n generalizing s rest with
  | zero => exact sound
  | succ n ih =>
    obtain ⟨more,again⟩ := signal_ring (c := c) running
    exact ih (sound.signal running) again

theorem Sound.block (sound : s.Sound) (running : s.places.ring = r :: rest) {doing : Doing κ}
    (calm : s.status = .locked ∨ q ≠ none ∧ s.doing r ≠ .woken)
    (done : s.block r q doing = some t) : t.Sound := by
  rw [Monitor.block,Option.ite_none_left_eq_some] at done
  obtain ⟨_,same⟩ := done
  obtain rfl := Option.some.inj same
  refine ⟨Places.park_valid sound.valid running,sound.one,sound.locked,?_⟩
  intro filled
  rcases calm with locked | ⟨cond,awake⟩
  · exact .inl locked
  · have before : s.places.waiting none ≠ [] := by
      simpa [Places.park,Ne.symm cond] using filled
    refine (sound.served before).imp_right ?_
    rintro ⟨w,onRing,woken⟩
    have other : w ≠ r := fun same => awake (same ▸ woken)
    rw [running] at onRing
    refine ⟨w,?_,by simpa [other] using woken⟩
    dsimp only
    rw [Places.park_ring running]
    exact (mem_cons.mp onRing).resolve_left other

theorem Sound.acquire (sound : s.Sound) (running : s.places.ring = r :: rest)
    (done : s.lockAcquireHelper r = some t) : t.Sound := by
  rw [lockAcquireHelper] at done
  split at done
  · rename_i locked
    exact sound.block running (.inl locked) done
  · rename_i unlocked
    obtain rfl := Option.some.inj done
    have nobody : ∀ u, s.holds u ≠ true := fun u holds => unlocked (sound.locked.mpr ⟨u,holds⟩)
    have only : ∀ u, update s.holds r true u = true → u = r := by
      intro u holds
      by_contra other
      rw [update_of_ne other] at holds
      exact nobody u holds
    refine ⟨sound.valid,?_,?_,fun _ => .inl rfl⟩
    · intro u v first second
      rw [only u first,only v second]
    · exact ⟨fun _ => ⟨r,update_self ..⟩,fun _ => rfl⟩

theorem release_empty (empty : s.places.waiting none = []) : s.lockReleaseHelper r =
    { s with status := .unlocked, holds := update s.holds r false } := by
  simp [lockReleaseHelper,unblock,empty]

theorem release_first {more : List τ} (first : s.places.waiting none = u :: more)
    (running : s.places.ring = r :: rest) : s.lockReleaseHelper r =
      ⟨⟨r :: u :: rest,update s.places.waiting none more⟩,.unlocked,update s.doing u .woken,
        update s.holds r false⟩ := by
  simp [lockReleaseHelper,unblock,first,Places.wake_eq running first]

theorem Sound.release (sound : s.Sound) (running : s.places.ring = r :: rest)
    (holds : s.holds r = true) : (s.lockReleaseHelper r).Sound := by
  have nobody : ∀ u, update s.holds r false u ≠ true := by
    intro u
    by_cases same : u = r
    · simp [same]
    · rw [update_of_ne same]
      exact fun other => same (sound.one u r other holds)
  have free : LockStatus.unlocked = .locked ↔ ∃ u, update s.holds r false u = true := by
    simpa using nobody
  cases first : s.places.waiting none with
  | nil =>
    rw [release_empty first]
    exact ⟨sound.valid,fun u v one _ => absurd one (nobody u),free,fun filled => absurd first filled⟩
  | cons u more =>
    rw [release_first first running]
    refine ⟨?_,fun u v one _ => absurd one (nobody u),free,?_⟩
    · rw [← Places.wake_eq running first]
      exact Places.wake_valid sound.valid running first
    · exact fun _ => .inr ⟨u,by simp,by simp⟩

theorem release_ring (running : s.places.ring = r :: rest) :
    ∃ more, (s.lockReleaseHelper r).places.ring = r :: more := by
  cases first : s.places.waiting none with
  | nil => exact ⟨rest,by rw [release_empty first,running]⟩
  | cons u more => exact ⟨u :: rest,by rw [release_first first running]⟩

theorem release_doing (sound : s.Sound) (running : s.places.ring = r :: rest) :
    (s.lockReleaseHelper r).doing r = s.doing r := by
  cases first : s.places.waiting none with
  | nil => rw [release_empty first]
  | cons u more =>
    have other : r ≠ u := by
      intro same
      exact sound.valid.apart none (a := r) (by simp [running]) (by simp [first,same])
    rw [release_first first running]
    simp [other]

theorem step_sound (sound : s.Sound) (step : s.Step t) : t.Sound := by
  obtain ⟨r,op,head,allowed,done⟩ := step
  obtain ⟨rest,running⟩ := head?_eq_some_iff.mp head
  cases op with
  | acquire => exact sound.acquire running done
  | resume => exact sound.acquire running done
  | release =>
    obtain rfl := Option.some.inj done
    exact sound.release running allowed.2
  | wait c =>
    obtain ⟨more,again⟩ := release_ring running
    refine (sound.release running allowed.2).block again (.inr ⟨by simp,?_⟩) done
    rw [release_doing sound running,allowed.1]
    simp
  | signal c =>
    obtain rfl := Option.some.inj done
    exact sound.signal running
  | broadcast c =>
    obtain rfl := Option.some.inj done
    exact sound.signals running _
  | switch =>
    obtain rfl := Option.some.inj done
    refine ⟨Places.turn_valid sound.valid,sound.one,sound.locked,?_⟩
    intro filled
    refine (sound.served filled).imp_right ?_
    rintro ⟨w,onRing,woken⟩
    exact ⟨w,Places.turn_perm.mem_iff.mpr onRing,woken⟩
  | create u =>
    obtain rfl := Option.some.inj done
    refine ⟨Places.join_valid sound.valid allowed.2.1,sound.one,sound.locked,?_⟩
    intro filled
    refine (sound.served filled).imp_right ?_
    rintro ⟨w,onRing,woken⟩
    exact ⟨w,mem_append_left _ onRing,woken⟩
  | exit =>
    obtain rfl := Option.some.inj done
    refine ⟨Places.leave_valid sound.valid running,sound.one,sound.locked,?_⟩
    intro filled
    refine (sound.served filled).imp_right ?_
    rintro ⟨w,onRing,woken⟩
    have other : w ≠ r := by
      intro same
      rw [same,allowed.1] at woken
      contradiction
    rw [running] at onRing
    refine ⟨w,?_,woken⟩
    simpa [Places.leave,running] using (mem_cons.mp onRing).resolve_left other

section Frames

theorem lockAcquireHelper_cases (done : s.lockAcquireHelper r = some t) :
    (s.status = .locked ∧ t.places = s.places.park none ∧ t.holds = s.holds) ∨
    (s.status ≠ .locked ∧ t.places = s.places ∧ t.holds = update s.holds r true) := by
  rw [lockAcquireHelper] at done
  split at done
  · rename_i locked
    rw [block,Option.ite_none_left_eq_some] at done
    obtain rfl := Option.some.inj done.2
    exact .inl ⟨locked,rfl,rfl⟩
  · rename_i unlocked
    obtain rfl := Option.some.inj done
    exact .inr ⟨unlocked,rfl,rfl⟩

theorem release_frame (running : s.places.ring = r :: rest) :
    (s.lockReleaseHelper r).holds = update s.holds r false ∧
    ∀ c, (s.lockReleaseHelper r).places.waiting (some c) = s.places.waiting (some c) := by
  cases first : s.places.waiting none with
  | nil => simp [release_empty first]
  | cons u more => simp [release_first first running]

theorem wait_frame (running : s.places.ring = r :: rest) (done : s.wait r c = some t) :
    t.holds = update s.holds r false ∧
    t.places.waiting (some c) = s.places.waiting (some c) ++ [r] ∧
    ∀ d, d ≠ c → t.places.waiting (some d) = s.places.waiting (some d) := by
  obtain ⟨holds,waiting⟩ := release_frame running
  obtain ⟨more,again⟩ := release_ring running
  rw [wait,block,Option.ite_none_left_eq_some] at done
  obtain rfl := Option.some.inj done.2
  refine ⟨holds,?_,?_⟩
  · simp [Places.park,again,waiting]
  · intro d other
    simp [Places.park,other,waiting]

theorem signal_frame (running : s.places.ring = r :: rest) : (s.signal c).holds = s.holds ∧
    (s.signal c).places.waiting (some c) = (s.places.waiting (some c)).tail ∧
    ∀ d, d ≠ c → (s.signal c).places.waiting (some d) = s.places.waiting (some d) := by
  rw [signal]
  cases first : s.places.waiting (some c) with
  | nil => simp [unblock_empty first,first]
  | cons u more =>
    rw [unblock_first first running]
    refine ⟨rfl,by simp,?_⟩
    intro d other
    simp [other]

theorem signals_frame (running : s.places.ring = r :: rest) (n : Nat) :
    ((fun s : Monitor κ τ => s.signal c)^[n] s).holds = s.holds ∧
    ((fun s : Monitor κ τ => s.signal c)^[n] s).places.waiting (some c) =
      (s.places.waiting (some c)).drop n ∧
    ∀ d, d ≠ c → ((fun s : Monitor κ τ => s.signal c)^[n] s).places.waiting (some d) =
      s.places.waiting (some d) := by
  induction n generalizing s rest with
  | zero => simp
  | succ n ih =>
    obtain ⟨more,again⟩ := signal_ring (c := c) running
    obtain ⟨holds,own,others⟩ := signal_frame (c := c) running
    obtain ⟨holds',own',others'⟩ := ih again
    rw [iterate_succ_apply]
    refine ⟨holds'.trans holds,?_,fun d other => (others' d other).trans (others d other)⟩
    rw [own',own,← drop_one,drop_drop,Nat.add_comm]

theorem broadcast_frame (running : s.places.ring = r :: rest) : (s.broadcast c).holds = s.holds ∧
    (s.broadcast c).places.waiting (some c) = [] ∧
    ∀ d, d ≠ c → (s.broadcast c).places.waiting (some d) = s.places.waiting (some d) := by
  have frame := signals_frame (c := c) running (s.places.waiting (some c)).length
  rwa [drop_length] at frame

end Frames

/-- In every run at most one thread holds the lock, `status` is `LOCKED` exactly when one
does, and whenever threads queue for a free lock, one that `release` has unblocked is on
the ready ring and has yet to test `status` again. -/
theorem lock_correct_along_runs (s : Monitor κ τ) (reached : Reach Initial Step s) :
    (∀ t u, s.holds t = true → s.holds u = true → t = u) ∧
    (s.status = .locked ↔ ∃ t, s.holds t = true) ∧
    (s.places.waiting none ≠ [] →
      s.status = .locked ∨ ∃ t ∈ s.places.ring, s.doing t = .woken) := by
  have sound : s.Sound :=
    reached.invariant Sound (fun _ initial => initial_sound initial)
      (fun _ _ sound step => step_sound sound step)
  exact ⟨sound.one,sound.locked,sound.served⟩

def three (κ : Type) : Monitor κ (Fin 3) := ⟨⟨[0,1,2],fun _ => []⟩,.unlocked,fun _ => .free,fun _ => false⟩

theorem three_valid (κ : Type) : (three κ).places.Valid :=
  ⟨by simp [three],by simp [three],by simp [three],by simp [three]⟩

/-- Two threads queue for a held lock; its release leaves one queued and one on its way. -/
theorem lock_served_after_release : ∃ s : Monitor Unit (Fin 3), Reach Initial Step s ∧
    s.places.waiting none = [2] ∧ (s.status = .locked ∨ ∃ t ∈ s.places.ring, s.doing t = .woken) := by
  have start : Reach Initial Step (three Unit) := .start ⟨three_valid Unit,fun _ => rfl,rfl,fun _ => ⟨rfl,rfl⟩⟩
  have held := start.advance ⟨0,.acquire,rfl,rfl,rfl⟩
  have second := held.advance ⟨0,.switch,rfl,rfl,rfl⟩
  have queued := second.advance ⟨1,.acquire,rfl,rfl,rfl⟩
  have both := queued.advance ⟨2,.acquire,rfl,rfl,rfl⟩
  have released := both.advance ⟨0,.release,rfl,⟨rfl,rfl⟩,rfl⟩
  exact ⟨_,released,rfl,(lock_correct_along_runs _ released).2.2 (by decide)⟩

end Monitor

end RudimentaryKernel
