import RudimentaryKernel.Places
import RudimentaryKernel.Reach
import RudimentaryKernel.Ring
import RudimentaryKernel.Scheduler

/-! The pointer scheduler refines the placement of threads: the ready ring and the
wait queues that its links describe change as the list operations say, and so no
thread is lost or in two places along any run in which `thread_create` is one step. -/
namespace RudimentaryKernel

open Function List RudimentaryKernel.Ring NullList

namespace Tasks

variable {ι : Type} {s t : Tasks ι} {p : Places ι Nat} {c d : Nat} {rest others : List Nat}

/-- The links and states of `s` describe the placement `p`. -/
structure Represents (s : Tasks ι) (p : Places ι Nat) : Prop where
  ring : IsRing s.next s.prev p.ring
  running : p.ring.head? = some s.currentRunning
  real : ∀ t ∈ p.ring, t ≠ 0
  queue : ∀ q, IsList s.next 0 (s.queue q) (p.waiting q)
  blocked : ∀ q, ∀ t ∈ p.waiting q, s.state t = .blocked
  awake : s.state s.currentRunning ≠ .blocked ∧ s.state s.currentRunning ≠ .running

theorem Represents.split (represents : s.Represents p) :
    ∃ rest, p.ring = s.currentRunning :: rest := by
  have running := represents.running
  cases ring : p.ring with
  | nil => simp [ring] at running
  | cons c rest =>
    rw [ring,head?_cons,Option.some.injEq] at running
    exact ⟨rest,by rw [running]⟩

theorem popReadyQueue_alone (ring : IsRing s.next s.prev [c]) (running : s.currentRunning = c) :
    s.popReadyQueue = none := by
  rw [popReadyQueue,running,if_pos (IsRing.single_iff.mp ring).1]

theorem popReadyQueue_removes (ring : IsRing s.next s.prev (c :: d :: rest))
    (running : s.currentRunning = c) :
    ∃ t, s.popReadyQueue = some (t,c) ∧ IsRing t.next t.prev (d :: rest) ∧
      t.currentRunning = d ∧ t.next c = 0 ∧ (∀ u, u ∉ c :: d :: rest → t.next u = s.next u) ∧
      t.state = s.state ∧ t.queue = s.queue := by
  obtain ⟨front,z,last⟩ : ∃ front z, d :: rest = front ++ [z] :=
    (eq_nil_or_concat (d :: rest)).elim (by simp) (fun ⟨front,z,same⟩ => ⟨front,z,by simpa using same⟩)
  have onward := ring.next_second.1
  have nodup := ring.nodup
  have apart : c ≠ d := fun same => by simp [same] at nodup
  rw [last] at ring nodup
  have back := ring.prev_last.1
  have other : z ≠ c := fun same => by simp [same] at nodup
  have turned : IsRing s.next s.prev (z :: c :: front) := by
    apply ring.rotated
    have turn := rotated_split (c :: front) [] z
    simpa using turn
  have alone : ¬s.next c = c := by
    rw [onward]
    exact Ne.symm apart
  rw [popReadyQueue,if_neg (by rw [running]; exact alone)]
  simp only [running,back,update_of_ne (Ne.symm other),onward]
  refine ⟨_,rfl,?_,rfl,by simp,?_,rfl,rfl⟩
  · have nodup' := turned.nodup
    simp only [nodup_cons,mem_cons,not_or] at nodup'
    have removed : IsRing (update (update s.next z d) c 0) (update (update s.prev d z) c 0)
        (z :: front) := by
      apply turned.remove
      · simp [other,onward]
      · rw [onward,update_of_ne (Ne.symm apart),update_self]
      · intro u member
        have notZ : u ≠ z := fun same => nodup'.1.2 (same ▸ member)
        have notC : u ≠ c := fun same => nodup'.2.1 (same ▸ member)
        simp [notZ,notC]
      · intro u member different
        have notC : u ≠ c := by
          intro same
          subst u
          rcases mem_cons.mp member with same | later
          · exact other same.symm
          · exact nodup'.2.1 later
        rw [onward] at different
        simp [notC,different]
    rw [last]
    exact removed.rotated (isRotated_concat z front).symm
  · intro u outside
    rw [last] at outside
    simp only [mem_cons,mem_append,not_or] at outside
    simp [outside]

theorem settle_frame (s : Tasks ι) (oldEsp : Nat) :
    (s.settle oldEsp).next = s.next ∧ (s.settle oldEsp).prev = s.prev ∧
    (s.settle oldEsp).state = s.state ∧ (s.settle oldEsp).queue = s.queue ∧
    (s.settle oldEsp).currentRunning = s.currentRunning := by
  unfold settle
  dsimp only
  split <;> exact ⟨rfl,rfl,rfl,rfl,rfl⟩

/-- What the scheduler leaves: the ring of the `others`, whose first thread runs. -/
structure Switched (s t : Tasks ι) (others : List Nat) : Prop where
  ring : IsRing t.next t.prev others
  running : others.head? = some t.currentRunning
  state : t.state = update s.state t.currentRunning .ready
  queue : t.queue = s.queue

theorem scheduler_chosen {oldEsp : Nat} (chosen : (s.settle oldEsp).choose = some t) :
    s.scheduler oldEsp = some (t.dispatch,t.stackPointer t.currentRunning) := by
  rw [scheduler,chosen]
  rfl

theorem scheduler_turns (ring : IsRing s.next s.prev (c :: rest)) (running : s.currentRunning = c)
    (ready : s.state c = .ready) (oldEsp : Nat) :
    ∃ t esp, s.scheduler oldEsp = some (t,esp) ∧ Switched s t (rest ++ [c]) ∧ t.next = s.next := by
  obtain ⟨next,prev,state,queue,current⟩ := settle_frame s oldEsp
  have chosen : (s.settle oldEsp).choose =
      some { s.settle oldEsp with currentRunning := (s.settle oldEsp).next c } := by
    simp only [choose,current,running,state,ready]
  refine ⟨_,_,scheduler_chosen chosen,⟨?_,?_,?_,queue⟩,next⟩
  · change IsRing (s.settle oldEsp).next (s.settle oldEsp).prev _
    rw [next,prev]
    exact ring.rotated (isRotated_concat c rest).symm
  · change _ = some ((s.settle oldEsp).next c)
    rw [next]
    cases rest with
    | nil => simp [(IsRing.single_iff.mp ring).1]
    | cons d rest => simp [ring.next_second.1]
  · change update (s.settle oldEsp).state _ _ = _
    rw [state]
    rfl

theorem scheduler_halts (ring : IsRing s.next s.prev [c]) (running : s.currentRunning = c)
    (leaving : s.state c ≠ .ready ∧ s.state c ≠ .running) (oldEsp : Nat) :
    s.scheduler oldEsp = none := by
  obtain ⟨next,prev,state,_,current⟩ := settle_frame s oldEsp
  have alone : (s.settle oldEsp).popReadyQueue = none :=
    popReadyQueue_alone (by rw [next,prev]; exact ring) (current.trans running)
  rw [scheduler,choose,current,running,state]
  cases kind : s.state c <;> simp_all

theorem scheduler_removes (ring : IsRing s.next s.prev (c :: d :: rest))
    (running : s.currentRunning = c) (leaving : s.state c ≠ .ready ∧ s.state c ≠ .running)
    (oldEsp : Nat) :
    ∃ t esp, s.scheduler oldEsp = some (t,esp) ∧ Switched s t (d :: rest) ∧ t.next c = 0 ∧
      ∀ u, u ∉ c :: d :: rest → t.next u = s.next u := by
  obtain ⟨next,prev,state,queue,current⟩ := settle_frame s oldEsp
  obtain ⟨u,popped,ring',first,ends,away,state',queue'⟩ :=
    popReadyQueue_removes (s := s.settle oldEsp) (by rw [next,prev]; exact ring) (current.trans running)
  have chosen : ∃ zombie, (s.settle oldEsp).choose = some { u with zombie := zombie } := by
    rw [choose,current,running,state]
    cases kind : s.state c with
    | ready => exact absurd kind leaving.1
    | running => exact absurd kind leaving.2
    | blocked => exact ⟨u.zombie,by simp [popped]⟩
    | exited => exact ⟨c,by simp [popped]⟩
    | exitedNoZombie => exact ⟨u.zombie,by simp [popped]⟩
  obtain ⟨zombie,chosen⟩ := chosen
  refine ⟨_,_,scheduler_chosen chosen,⟨ring',?_,?_,?_⟩,ends,?_⟩
  · change _ = some u.currentRunning
    rw [first,head?_cons]
  · change update u.state _ _ = _
    rw [state',state]
    rfl
  · exact queue'.trans queue
  · rw [next] at away
    exact away

theorem Switched.represents (switched : Switched s t p.ring) (valid : p.Valid)
    (real : ∀ u ∈ p.ring, u ≠ 0) (queue : ∀ q, IsList t.next 0 (s.queue q) (p.waiting q))
    (blocked : ∀ q, ∀ u ∈ p.waiting q, s.state u = .blocked) : t.Represents p where
  ring := switched.ring
  running := switched.running
  real := real
  queue := by
    rw [switched.queue]
    exact queue
  blocked := by
    intro q u member
    have other : u ≠ t.currentRunning := by
      intro same
      subst same
      exact valid.apart q (mem_of_mem_head? switched.running) member
    rw [switched.state,update_of_ne other]
    exact blocked q u member
  awake := by simp [switched.state]

theorem scheduler_turn (represents : s.Represents p) (valid : p.Valid)
    (ready : s.state s.currentRunning = .ready) (oldEsp : Nat) :
    ∃ t esp, s.scheduler oldEsp = some (t,esp) ∧ t.Represents p.turn := by
  obtain ⟨rest,running⟩ := represents.split
  have ring := represents.ring
  rw [running] at ring
  obtain ⟨t,esp,done,switched,next⟩ := scheduler_turns ring rfl ready oldEsp
  have shape : p.turn.ring = rest ++ [s.currentRunning] := by simp [Places.turn,running]
  rw [← shape] at switched
  refine ⟨t,esp,done,switched.represents (Places.turn_valid valid) ?_ ?_ represents.blocked⟩
  · intro u member
    exact represents.real u (Places.turn_perm.mem_iff.mp member)
  · rw [next]
    exact represents.queue

theorem scheduler_leave (represents : s.Represents p) (valid : p.Valid)
    (running : p.ring = c :: d :: rest)
    (leaving : s.state c ≠ .ready ∧ s.state c ≠ .running) (oldEsp : Nat) :
    ∃ t esp, s.scheduler oldEsp = some (t,esp) ∧ t.Represents p.leave := by
  have first : s.currentRunning = c := by simpa [running] using represents.running.symm
  have ring := represents.ring
  rw [running] at ring
  obtain ⟨t,esp,done,switched,_,away⟩ := scheduler_removes ring first leaving oldEsp
  have shape : p.leave.ring = d :: rest := by simp [Places.leave,running]
  rw [← shape] at switched
  refine ⟨t,esp,done,switched.represents (Places.leave_valid valid running) ?_ ?_ represents.blocked⟩
  · intro u member
    apply represents.real u
    rw [running]
    rw [shape] at member
    exact mem_cons_of_mem _ member
  · intro q
    apply (represents.queue q).congr
    intro u member
    apply away u
    rw [← running]
    exact fun inRing => valid.apart q inRing member

section Queues

variable [DecidableEq ι] {q : ι} {more : List Nat}

theorem enqueue_empty (fuel : Nat) (empty : s.queue q = 0) : s.enqueue fuel q = some { s with
    state := update s.state s.currentRunning .blocked
    queue := update s.queue q s.currentRunning } := by
  simp [enqueue,empty]

theorem enqueue_filled {fuel : Nat} (filled : s.queue q ≠ 0)
    (walk : NullList.last s.next 0 fuel (s.queue q) = some d) : s.enqueue fuel q = some { s with
    state := update s.state s.currentRunning .blocked
    next := update s.next d s.currentRunning } := by
  simp [enqueue,filled,walk]

theorem enqueue_links (represents : s.Represents p) (valid : p.Valid)
    (running : p.ring = c :: rest) {fuel : Nat} (enough : (p.waiting q).length ≤ fuel) :
    ∃ u, s.enqueue fuel q = some u ∧ u.currentRunning = c ∧ u.prev = s.prev ∧
      u.state = update s.state c .blocked ∧ (∀ r, r ≠ q → u.queue r = s.queue r) ∧
      (∀ v, v ∉ p.waiting q → u.next v = s.next v) ∧
      ∀ next : Nat → Nat, next c = 0 → (∀ v ∈ p.waiting q, next v = u.next v) →
        IsList next 0 (u.queue q) (p.waiting q ++ [c]) := by
  have first : s.currentRunning = c := by simpa [running] using represents.running.symm
  have realC : c ≠ 0 := represents.real c (by simp [running])
  have list := represents.queue q
  have empty := list.empty_iff
  rcases eq_nil_or_concat (p.waiting q) with none | ⟨front,z,last⟩
  · rw [none] at empty ⊢
    refine ⟨_,enqueue_empty fuel (empty.mpr rfl),first,rfl,by rw [first],?_,fun _ _ => rfl,?_⟩
    · intro r different
      simp [different]
    · intro next ends _
      simp [first,realC,ends]
  · rw [concat_eq_append] at last
    rw [last] at list empty enough ⊢
    have filled : s.queue q ≠ 0 := by
      rw [ne_eq,empty]
      simp
    have walk : NullList.last s.next 0 fuel (s.queue q) = some z :=
      last_eq list (by simp at enough; omega)
    refine ⟨_,enqueue_filled filled walk,first,rfl,by rw [first],fun _ _ => rfl,?_,?_⟩
    · intro v outside
      have other : v ≠ z := fun same => outside (by simp [same])
      simp [other]
    · intro next ends same
      have nodup := valid.queue q
      rw [last] at nodup
      rw [append_assoc]
      apply list.append realC
      · rw [same z (by simp)]
        simp [first]
      · exact ends
      · intro v member
        have other : v ≠ z := (nodup_append.mp nodup).2.2 v member z (by simp)
        rw [same v (by simp [member])]
        simp [other]

theorem block_park (represents : s.Represents p) (valid : p.Valid)
    (running : p.ring = c :: d :: rest) (oldEsp : Nat) {fuel : Nat}
    (enough : (p.waiting q).length ≤ fuel) :
    ∃ t esp, s.block fuel q oldEsp = some (some (t,esp)) ∧ t.Represents (p.park q) := by
  obtain ⟨u,linked,first,prev,state,otherQueue,otherNext,appended⟩ :=
    enqueue_links represents valid running enough
  have apart : ∀ r v, v ∈ p.waiting r → v ∉ c :: d :: rest := by
    intro r v inQueue inRing
    rw [← running] at inRing
    exact valid.apart r inRing inQueue
  have ring : IsRing u.next u.prev (c :: d :: rest) := by
    have ring := represents.ring
    rw [running] at ring
    apply ring.congr
    · intro v member
      exact otherNext v (fun inQueue => apart q v inQueue member)
    · intro v _
      rw [prev]
  obtain ⟨t,esp,done,switched,ends,away⟩ :=
    scheduler_removes ring first (by simp [state]) oldEsp
  have shape : (p.park q).ring = d :: rest := Places.park_ring running
  rw [← shape] at switched
  refine ⟨t,esp,by rw [block,linked,Option.map_some,done],
    switched.represents (Places.park_valid valid running) ?_ ?_ ?_⟩
  · intro v member
    apply represents.real v
    rw [running]
    rw [shape] at member
    exact mem_cons_of_mem _ member
  · intro r
    by_cases same : r = q
    · subst r
      have parked : (p.park q).waiting q = p.waiting q ++ [c] := by simp [Places.park,running]
      rw [parked]
      exact appended t.next ends (fun v member => away v (apart q v member))
    · have parked : (p.park q).waiting r = p.waiting r := by simp [Places.park,same]
      rw [parked,otherQueue r same]
      apply (represents.queue r).congr
      intro v member
      rw [away v (apart r v member)]
      exact otherNext v (fun inQueue => valid.separate r q same member inQueue)
  · intro r v member
    rw [state]
    have placed := (Places.park_perm (q := q) running r).mem_iff.mp member
    by_cases isC : v = c
    · simp [isC]
    rw [update_of_ne isC]
    apply represents.blocked r v
    by_cases same : r = q
    · subst r
      simpa [isC] using placed
    · simpa [same] using placed

theorem block_halts (represents : s.Represents p) (valid : p.Valid) (alone : p.ring = [c])
    (oldEsp : Nat) {fuel : Nat} (enough : (p.waiting q).length ≤ fuel) :
    s.block fuel q oldEsp = some none := by
  obtain ⟨u,linked,first,prev,state,_,otherNext,_⟩ := enqueue_links represents valid alone enough
  have ring : IsRing u.next u.prev [c] := by
    have ring := represents.ring
    rw [alone] at ring
    apply ring.congr
    · intro v member
      apply otherNext v
      intro inQueue
      rw [← alone] at member
      exact valid.apart q member inQueue
    · intro v _
      rw [prev]
  rw [block,linked,Option.map_some,scheduler_halts ring first (by simp [state])]

theorem unblock_wake (represents : s.Represents p) (valid : p.Valid)
    (first : p.waiting q = d :: more) : (s.unblock q).Represents (p.wake q) := by
  obtain ⟨rest,running⟩ := represents.split
  have list := represents.queue q
  rw [first] at list
  obtain ⟨head,realD,tail⟩ := list
  have filled : s.queue q ≠ 0 := by rw [head]; exact realD
  have outside : d ∉ s.currentRunning :: rest := by
    rw [← running]
    intro inRing
    exact valid.apart q inRing (by simp [first])
  have notCurrent : s.currentRunning ≠ d := fun same => outside (by simp [← same])
  have ring := represents.ring
  rw [running] at ring
  have shape : (s.unblock q).next = update (update s.next d (s.next s.currentRunning)) s.currentRunning d ∧
      (s.unblock q).prev = update (update s.prev d s.currentRunning) (s.next s.currentRunning) d ∧
      (s.unblock q).queue = update s.queue q (s.next d) ∧
      (s.unblock q).state = update s.state d .ready ∧
      (s.unblock q).currentRunning = s.currentRunning := by
    simp [unblock,head,realD,notCurrent]
  obtain ⟨next,prev,queue,state,current⟩ := shape
  have places := Places.wake_eq running first
  have kept : ∀ r v, v ∈ p.waiting r ∧ v ≠ d → (s.unblock q).next v = s.next v := by
    rintro r v ⟨member,notD⟩
    have notC : v ≠ s.currentRunning := by
      intro same
      subst v
      exact valid.apart r (by simp [running]) member
    rw [next,update_of_ne notC,update_of_ne notD]
  rw [places]
  refine ⟨?_,?_,?_,?_,?_,?_⟩
  · rw [next,prev]
    exact ring.spliced outside
  · simp [current]
  · intro v member
    rcases mem_cons.mp member with rfl | later
    · exact represents.real _ (by simp [running])
    rcases mem_cons.mp later with rfl | old
    · exact realD
    · exact represents.real v (by simp [running,old])
  · intro r
    rw [queue]
    by_cases same : r = q
    · subst r
      simp only [update_self]
      exact tail.congr (fun v member => kept q v (valid.still_waiting first (by simpa using member)))
    · simp only [update_of_ne same]
      exact (represents.queue r).congr
        (fun v member => kept r v (valid.still_waiting first (by simpa [same] using member)))
  · intro r v member
    obtain ⟨before,notD⟩ := valid.still_waiting first member
    rw [state,update_of_ne notD]
    exact represents.blocked r v before
  · rw [state,current,update_of_ne notCurrent]
    exact represents.awake

theorem enqueue_unique {u v : Tasks ι} {fuel other : Nat} (one : s.enqueue fuel q = some u)
    (two : s.enqueue other q = some v) : u = v := by
  by_cases empty : s.queue q = 0
  · rw [enqueue_empty _ empty] at one two
    exact Option.some.inj (one.symm.trans two)
  · simp only [enqueue,empty,↓reduceIte,Option.map_eq_some_iff] at one two
    obtain ⟨z,walk,rfl⟩ := one
    obtain ⟨z',walk',rfl⟩ := two
    rw [last_unique walk walk']

end Queues

theorem Represents.marked (represents : s.Represents p) (valid : p.Valid) {kind : TaskState}
    (exits : kind ≠ .blocked ∧ kind ≠ .running) :
    Represents { s with state := update s.state s.currentRunning kind } p := by
  refine ⟨represents.ring,represents.running,represents.real,represents.queue,?_,by simpa using exits⟩
  intro q u member
  have other : u ≠ s.currentRunning := by
    intro same
    subst u
    exact valid.apart q (mem_of_mem_head? represents.running) member
  change update s.state s.currentRunning kind u = _
  rw [update_of_ne other]
  exact represents.blocked q u member

section Creation

variable {x : Nat}

/-- Nothing but the control block at `x` has changed. -/
structure OnlyAt (s t : Tasks ι) (x : Nat) : Prop where
  next : ∀ u, u ≠ x → t.next u = s.next u
  prev : ∀ u, u ≠ x → t.prev u = s.prev u
  state : ∀ u, u ≠ x → t.state u = s.state u
  queue : t.queue = s.queue
  running : t.currentRunning = s.currentRunning

theorem Represents.elsewhere (represents : s.Represents p) (absent : ¬p.Has x)
    (only : OnlyAt s t x) : t.Represents p := by
  have other : ∀ u, p.Has u → u ≠ x := fun u present same => absent (same ▸ present)
  obtain ⟨rest,running⟩ := represents.split
  refine ⟨?_,?_,represents.real,?_,?_,?_⟩
  · apply represents.ring.congr
    · exact fun u member => only.next u (other u (.inl member))
    · exact fun u member => only.prev u (other u (.inl member))
  · rw [only.running]
    exact represents.running
  · intro q
    rw [only.queue]
    exact (represents.queue q).congr (fun u member => only.next u (other u (.inr ⟨q,member⟩)))
  · intro q u member
    rw [only.state u (other u (.inr ⟨q,member⟩))]
    exact represents.blocked q u member
  · rw [only.running,only.state _ (other _ (.inl (by simp [running])))]
    exact represents.awake

theorem splice_join (represents : s.Represents p) (valid : p.Valid) (absent : ¬p.Has x) (real : x ≠ 0) :
    (s.splice x).Represents (p.join x) := by
  obtain ⟨rest,running⟩ := represents.split
  have realC : s.currentRunning ≠ 0 := represents.real _ (by simp [running])
  have ring := represents.ring
  obtain ⟨front,z,last⟩ : ∃ front z, p.ring = front ++ [z] :=
    (eq_nil_or_concat p.ring).elim (by simp [running]) (fun ⟨front,z,same⟩ => ⟨front,z,by simpa using same⟩)
  have inRing : ∀ u ∈ p.ring, u ≠ x := fun u member same => absent (.inl (same ▸ member))
  have notCurrent : s.currentRunning ≠ x := inRing _ (by simp [running])
  have notLast : z ≠ x := inRing z (by simp [last])
  have ends : IsRing s.next s.prev (s.currentRunning :: rest) := by rwa [running] at ring
  have around := ends.ends_linked (running.symm.trans last)
  rw [last] at ring
  have turned : IsRing s.next s.prev (z :: front) := ring.rotated (isRotated_concat z front)
  have shape : (s.splice x).next = update (update s.next x s.currentRunning) z x ∧
      (s.splice x).prev = update (update s.prev x z) s.currentRunning x ∧
      (s.splice x).queue = s.queue ∧ (s.splice x).state = s.state ∧
      (s.splice x).currentRunning = s.currentRunning := by
    simp [splice,realC,notCurrent,around.1]
  obtain ⟨next,prev,queue,state,current⟩ := shape
  have fresh : x ∉ z :: front := by
    intro member
    apply inRing x _ rfl
    rw [last]
    simpa [or_comm] using member
  refine ⟨?_,?_,?_,?_,?_,?_⟩
  · have joined : IsRing (s.splice x).next (s.splice x).prev (z :: x :: front) := by
      have spliced := turned.spliced fresh
      rw [around.2] at spliced
      rw [next,prev]
      exact spliced
    have shape : (p.join x).ring = front ++ [z,x] := by simp [Places.join,last]
    rw [shape]
    have turn : [z,x] ++ front ~r front ++ [z,x] := isRotated_append
    exact joined.rotated turn
  · simp [Places.join,running,current]
  · intro u member
    simp only [Places.join,mem_append,mem_singleton] at member
    rcases member with old | rfl
    · exact represents.real u old
    · exact real
  · intro q
    rw [queue]
    apply (represents.queue q).congr
    intro u member
    have notX : u ≠ x := fun same => absent (.inr ⟨q,same ▸ member⟩)
    have notZ : u ≠ z := by
      intro same
      subst u
      exact valid.apart q (by simp [last]) member
    rw [next,update_of_ne notZ,update_of_ne notX]
  · rw [state]
    exact represents.blocked
  · rw [state,current]
    exact represents.awake

theorem prepare_cases {α : Type} (s : Tasks ι) (user : Bool) (grants : Grants) (refused granted : Tasks ι → α) :
    ∃ u, OnlyAt s u grants.tcb ∧ (s.prepare user grants refused granted = refused u ∨
      grants.stack ≠ 0 ∧ s.prepare user grants refused granted = granted u) := by
  unfold prepare
  dsimp only
  split
  · exact ⟨s,⟨fun _ _ => rfl,fun _ _ => rfl,fun _ _ => rfl,rfl,rfl⟩,.inl rfl⟩
  split
  · refine ⟨_,?_,.inl rfl⟩
    constructor <;> simp +contextual [kprintf]
  split
  · refine ⟨_,?_,.inl rfl⟩
    constructor <;> simp +contextual [kprintf]
  rename_i stack
  split
  · refine ⟨_,?_,.inl rfl⟩
    constructor <;> simp +contextual [kprintf,freeKstack]
  · refine ⟨_,?_,.inr ⟨stack,rfl⟩⟩
    constructor <;> simp +contextual

theorem threadCreate_cases (s : Tasks ι) (user : Bool) (grants : Grants) :
    ∃ u, OnlyAt s u grants.tcb ∧ (s.threadCreate user grants = (u,0) ∨
      grants.stack ≠ 0 ∧ s.threadCreate user grants = (u.splice grants.tcb,grants.tcb)) :=
  s.prepare_cases user grants _ _

end Creation

end Tasks

namespace TaskRun

open Tasks

variable {ι : Type} {r t : TaskRun ι} {p : Places ι Nat}

/-- What an operation of the thread `c` makes of the wait queues. -/
def queuesAfter [DecidableEq ι] (c : Nat) (waiting : ι → List Nat) : TaskOp ι → ι → List Nat
  | .block q _ => update waiting q (waiting q ++ [c])
  | .unblock q => update waiting q (waiting q).tail
  | _ => waiting

/-- The threads that are alive are exactly those that have a place. -/
structure Placed (r : TaskRun ι) (p : Places ι Nat) : Prop where
  represents : r.tasks.Represents p
  valid : p.Valid
  present : ∀ t, p.Has t ↔ t ∈ r.alive
  nodup : r.alive.Nodup

theorem boot_placed (boot : Boot r) :
    r.Placed ⟨[r.tasks.currentRunning],fun _ => []⟩ := by
  obtain ⟨real,alive,next,prev,ready,empty⟩ := boot
  refine ⟨⟨IsRing.single_iff.mpr ⟨next,prev⟩,rfl,by simpa using real,by simpa using empty,
    by simp,by simp [ready]⟩,?_,by simp [Places.Has,alive],by simp [alive]⟩
  exact ⟨by simp,by simp,by simp,by simp⟩

theorem mark_placed (placed : r.Placed p) {kind : TaskState} (exits : kind ≠ .blocked ∧ kind ≠ .running) :
    Placed ⟨{ r.tasks with state := update r.tasks.state r.tasks.currentRunning kind },r.alive⟩ p :=
  ⟨placed.represents.marked placed.valid exits,placed.valid,placed.present,placed.nodup⟩

variable [DecidableEq ι]

theorem create_placed (placed : r.Placed p) {user : Bool} {grants : Grants}
    (permitted : r.Permitted (.create user grants)) :
    ∃ t p', r.perform 0 (.create user grants) = some (some t) ∧ t.Placed p' ∧
      p'.waiting = p.waiting := by
  obtain ⟨outside,sized⟩ := permitted
  have absent : ¬p.Has grants.tcb := fun present => outside ((placed.present _).mp present)
  obtain ⟨u,only,refused | ⟨granted,made⟩⟩ := threadCreate_cases r.tasks user grants
  · refine ⟨⟨u,r.alive⟩,p,by simp [perform,refused],?_⟩
    exact ⟨⟨placed.represents.elsewhere absent only,placed.valid,placed.present,placed.nodup⟩,rfl⟩
  · have real : grants.tcb ≠ 0 := fun null => granted (sized null)
    refine ⟨⟨u.splice grants.tcb,grants.tcb :: r.alive⟩,p.join grants.tcb,
      by simp [perform,made,real],?_⟩
    refine ⟨⟨splice_join (placed.represents.elsewhere absent only) placed.valid absent real,
      Places.join_valid placed.valid absent,?_,nodup_cons.mpr ⟨outside,placed.nodup⟩⟩,rfl⟩
    intro v
    rw [Places.has_join,placed.present,mem_cons,or_comm]

theorem switch_placed (placed : r.Placed p) (oldEsp : Nat) :
    (r.perform 0 (.switch oldEsp) = some none ∧ p.ring = [r.tasks.currentRunning] ∧
      r.Leaves (.switch oldEsp)) ∨
    ∃ t p', r.perform 0 (.switch oldEsp) = some (some t) ∧ t.Placed p' ∧ p'.waiting = p.waiting := by
  obtain ⟨rest,running⟩ := placed.represents.split
  by_cases ready : r.tasks.state r.tasks.currentRunning = .ready
  · obtain ⟨s,esp,done,after⟩ := scheduler_turn placed.represents placed.valid ready oldEsp
    have same : r.remaining = r.alive := by simp [remaining,ready]
    refine .inr ⟨⟨s,r.alive⟩,p.turn,by simp [perform,done,same],⟨after,Places.turn_valid placed.valid,
      ?_,placed.nodup⟩,rfl⟩
    intro v
    rw [Places.has_turn,placed.present]
  · have leaving := And.intro ready placed.represents.awake.2
    have exits : r.Leaves (.switch oldEsp) := by
      have awake := placed.represents.awake
      rw [Leaves]
      cases state : r.tasks.state r.tasks.currentRunning <;> simp_all
    have gone : r.remaining = r.alive.erase r.tasks.currentRunning := by
      rcases exits with exited | exited <;> simp [remaining,exited]
    cases rest with
    | nil =>
      have ring := placed.represents.ring
      rw [running] at ring
      exact .inl ⟨by simp [perform,scheduler_halts ring rfl leaving oldEsp],running,exits⟩
    | cons d rest =>
      obtain ⟨s,esp,done,after⟩ :=
        scheduler_leave placed.represents placed.valid running leaving oldEsp
      refine .inr ⟨⟨s,r.alive.erase r.tasks.currentRunning⟩,p.leave,by simp [perform,done,gone],
        ⟨after,Places.leave_valid placed.valid running,?_,placed.nodup.erase _⟩,rfl⟩
      intro v
      rw [Places.has_leave placed.valid running,placed.present,placed.nodup.mem_erase_iff,and_comm]

theorem block_placed (placed : r.Placed p) (q : ι) (oldEsp : Nat) :
    (r.perform (p.waiting q).length (.block q oldEsp) = some none ∧
      p.ring = [r.tasks.currentRunning]) ∨
    ∃ t p', r.perform (p.waiting q).length (.block q oldEsp) = some (some t) ∧ t.Placed p' ∧
      p'.waiting = update p.waiting q (p.waiting q ++ [r.tasks.currentRunning]) := by
  obtain ⟨rest,running⟩ := placed.represents.split
  cases rest with
  | nil =>
    have halted := block_halts placed.represents placed.valid running oldEsp (q := q) le_rfl
    exact .inl ⟨by simp [perform,halted],running⟩
  | cons d rest =>
    obtain ⟨s,esp,done,after⟩ :=
      block_park placed.represents placed.valid running oldEsp (q := q) le_rfl
    refine .inr ⟨⟨s,r.alive⟩,p.park q,by simp [perform,done],⟨after,
      Places.park_valid placed.valid running,?_,placed.nodup⟩,by simp [Places.park,running]⟩
    intro v
    rw [Places.has_park running,placed.present]

theorem unblock_placed (placed : r.Placed p) {q : ι} (permitted : r.Permitted (.unblock q)) :
    ∃ t p', r.perform 0 (.unblock q) = some (some t) ∧ t.Placed p' ∧
      p'.waiting = update p.waiting q (p.waiting q).tail := by
  obtain ⟨rest,running⟩ := placed.represents.split
  have filled : p.waiting q ≠ [] := by
    rw [ne_eq,← (placed.represents.queue q).empty_iff]
    exact permitted
  obtain ⟨d,more,first⟩ := exists_cons_of_ne_nil filled
  refine ⟨⟨r.tasks.unblock q,r.alive⟩,p.wake q,rfl,⟨unblock_wake placed.represents placed.valid first,
    Places.wake_valid placed.valid running first,?_,placed.nodup⟩,rfl⟩
  intro v
  rw [Places.has_wake running first,placed.present]

/-- Every permitted operation completes. It halts only when the running thread is
alone on the ring and leaves it; otherwise every thread has its place again. -/
theorem perform_placed (placed : r.Placed p) {op : TaskOp ι} (permitted : r.Permitted op) :
    ∃ fuel, (r.perform fuel op = some none ∧ p.ring = [r.tasks.currentRunning] ∧ r.Leaves op) ∨
      ∃ t p', r.perform fuel op = some (some t) ∧ t.Placed p' ∧
        p'.waiting = queuesAfter r.tasks.currentRunning p.waiting op := by
  cases op with
  | create user grants => exact ⟨0,.inr (create_placed placed permitted)⟩
  | switch oldEsp => exact ⟨0,switch_placed placed oldEsp⟩
  | block q oldEsp =>
    rcases block_placed placed q oldEsp with ⟨halted,alone⟩ | moved
    · exact ⟨_,.inl ⟨halted,alone,trivial⟩⟩
    · exact ⟨_,.inr moved⟩
  | unblock q => exact ⟨0,.inr (unblock_placed placed permitted)⟩
  | exit => exact ⟨0,.inr ⟨_,p,rfl,mark_placed placed (by decide),rfl⟩⟩
  | exitNoZombie => exact ⟨0,.inr ⟨_,p,rfl,mark_placed placed (by decide),rfl⟩⟩

/-- The fuel decides only whether the walk in `block` is long enough. -/
theorem perform_unique {op : TaskOp ι} {fuel other : Nat} {first second : Option (TaskRun ι)}
    (one : r.perform fuel op = some first) (two : r.perform other op = some second) :
    first = second := by
  cases op with
  | block q oldEsp =>
    simp only [perform,block,Option.map_map,Option.map_eq_some_iff] at one two
    obtain ⟨u,linked,rfl⟩ := one
    obtain ⟨v,linked',rfl⟩ := two
    rw [enqueue_unique linked linked']
  | _ => exact Option.some.inj (one.symm.trans two)

theorem performed_placed (placed : r.Placed p) {op : TaskOp ι} {fuel : Nat} (permitted : r.Permitted op)
    (done : r.perform fuel op = some (some t)) :
    ∃ p', t.Placed p' ∧ p'.waiting = queuesAfter r.tasks.currentRunning p.waiting op := by
  obtain ⟨enough,⟨halted,_⟩ | ⟨u,p',moved,after⟩⟩ := perform_placed placed permitted
  · have impossible := perform_unique done halted
    contradiction
  · have same := perform_unique done moved
    rw [Option.some.inj same]
    exact ⟨p',after⟩

theorem step_placed (placed : r.Placed p) (step : r.Step t) : ∃ p', t.Placed p' := by
  obtain ⟨op,fuel,permitted,done⟩ := step
  obtain ⟨p',after,_⟩ := performed_placed placed permitted done
  exact ⟨p',after⟩

theorem reached_placed (reached : Reach Boot Step r) : ∃ p, r.Placed p := by
  refine reached.invariant (fun r => ∃ p, r.Placed p) (fun r boot => ⟨_,boot_placed boot⟩) ?_
  rintro r t ⟨p,placed⟩ step
  exact step_placed placed step

theorem performAll_reach {ops : List (TaskOp ι)} {fuel : Nat} (done : performAll fuel ops r = some t)
    (reached : Reach Boot Step r) : Reach Boot Step t := by
  induction ops generalizing r with
  | nil => cases done; exact reached
  | cons op ops ih =>
    rw [performAll] at done
    split at done
    · rename_i permitted
      obtain ⟨middle,first,later⟩ := Option.bind_eq_some_iff.mp done
      exact ih later (reached.advance ⟨op,fuel,permitted,Option.join_eq_some_iff.mp first⟩)
    · contradiction

def booted : TaskRun Unit where
  tasks := {
    tid := fun _ => 0, state := fun _ => .ready, stackBottom := fun _ => 0,
    stackPointer := fun _ => 0, pageDirectory := fun _ => 0, next := fun _ => 100,
    prev := fun _ => 100, currentRunning := 100, zombie := 0, queue := fun _ => 0, esp0 := 0,
    cr3 := 0, freed := [], console := [] }
  alive := [100]

end TaskRun

end RudimentaryKernel
