import RudimentaryKernel.ThreadPlacement

/-! Threads that have a place, among all that are alive. Where something else than the
scheduler empties a queue the threads in it have none any more; all others move as before.
Threads marked as exited and no longer running are out of every place, so no switch and no
wake-up gives them back their state. -/
namespace RudimentaryKernel

open Function List RudimentaryKernel.Ring NullList

namespace Tasks

variable {ι : Type} {s t : Tasks ι} {p : Places ι Nat} {esp oldEsp : Nat}

theorem choose_frame (chosen : s.choose = some t) : t.state = s.state ∧ t.stackBottom = s.stackBottom ∧
    t.freed = s.freed ∧
    t.zombie = if s.state s.currentRunning = .exited then s.currentRunning else s.zombie := by
  unfold choose popReadyQueue at chosen
  cases kind : s.state s.currentRunning <;> simp only [kind] at chosen ⊢
  all_goals
    try split at chosen
    all_goals cases chosen <;> simp

theorem scheduler_state (done : s.scheduler oldEsp = some (t,esp)) :
    t.state = update s.state t.currentRunning .ready := by
  obtain ⟨u,chosen,same⟩ := Option.map_eq_some_iff.mp done
  obtain ⟨rfl,_⟩ := Prod.mk.inj same
  change update u.state _ _ = _
  rw [(choose_frame chosen).1,(settle_frame s oldEsp).2.2.1]
  rfl

theorem scheduler_next (done : s.scheduler oldEsp = some (t,esp)) (switching : s.state s.currentRunning ≠ .running) :
    t.currentRunning = s.next s.currentRunning := by
  obtain ⟨u,chosen,same⟩ := Option.map_eq_some_iff.mp done
  obtain ⟨rfl,_⟩ := Prod.mk.inj same
  obtain ⟨next,_,state,_,current⟩ := settle_frame s oldEsp
  change u.currentRunning = _
  rw [← next,← current]
  rw [← state,← current] at switching
  unfold choose popReadyQueue at chosen
  cases kind : (s.settle oldEsp).state (s.settle oldEsp).currentRunning <;> simp only [kind] at chosen switching
  all_goals
    try split at chosen
    all_goals cases chosen <;> simp at switching ⊢

theorem scheduler_frame (done : s.scheduler oldEsp = some (t,esp)) (none : s.zombie = 0) :
    t.stackBottom = s.stackBottom ∧ t.freed = s.freed ∧
    t.zombie = if s.state s.currentRunning = .exited then s.currentRunning else 0 := by
  obtain ⟨u,chosen,same⟩ := Option.map_eq_some_iff.mp done
  obtain ⟨rfl,_⟩ := Prod.mk.inj same
  rw [settle,if_neg (by simpa using none)] at chosen
  obtain ⟨_,bottom,freed,zombie⟩ := choose_frame chosen
  rw [none] at zombie
  exact ⟨bottom,freed,zombie⟩

theorem Represents.congr (represents : s.Represents p) (next : t.next = s.next) (prev : t.prev = s.prev)
    (state : t.state = s.state) (queue : t.queue = s.queue) (running : t.currentRunning = s.currentRunning) :
    t.Represents p where
  ring := by rw [next,prev]; exact represents.ring
  running := by rw [running]; exact represents.running
  real := represents.real
  queue := by rw [next,queue]; exact represents.queue
  blocked := by rw [state]; exact represents.blocked
  awake := by rw [state,running]; exact represents.awake

variable [DecidableEq ι] {q r : ι}

theorem Represents.dropped (represents : s.Represents p) (q : ι) :
    Represents { s with queue := update s.queue q 0 } { p with waiting := update p.waiting q [] } where
  ring := represents.ring
  running := represents.running
  real := represents.real
  queue := by
    intro r
    by_cases same : r = q
    · subst r
      simp
    · simpa [same] using represents.queue r
  blocked := by
    intro r v member
    by_cases same : r = q
    · subst r
      simp at member
    · exact represents.blocked r v (by simpa [same] using member)
  awake := represents.awake

theorem unblock_eq (filled : s.queue q ≠ 0) (apart : s.currentRunning ≠ s.queue q) : s.unblock q = { s with
    queue := update s.queue q (s.next (s.queue q))
    state := update s.state (s.queue q) .ready
    next := update (update s.next (s.queue q) (s.next s.currentRunning)) s.currentRunning (s.queue q)
    prev := update (update s.prev (s.queue q) s.currentRunning) (s.next s.currentRunning) (s.queue q) } := by
  simp [unblock,filled,apart]

/-- A thread can be woken from one queue before or after the running thread has been linked
into another. -/
theorem enqueue_unblock (represents : s.Represents p) (valid : p.Valid) (different : q ≠ r)
    (filled : s.queue r ≠ 0) {fuel : Nat} (linked : s.enqueue fuel q = some t) :
    (s.unblock r).enqueue fuel q = some (t.unblock r) := by
  obtain ⟨rest,running⟩ := represents.split
  obtain ⟨d,more,first⟩ := exists_cons_of_ne_nil
    (fun empty => filled ((represents.queue r).empty_iff.mpr empty))
  have head : s.queue r = d := by
    have list := represents.queue r
    rw [first] at list
    exact list.1
  have waits : d ∈ p.waiting r := by simp [first]
  have apart : s.currentRunning ≠ d := fun same => valid.apart r (by simp [running,same]) waits
  have woken := unblock_eq filled (head ▸ apart)
  rw [head] at woken
  have elsewhere : (s.unblock r).queue q = s.queue q := by simp [woken,different]
  by_cases empty : s.queue q = 0
  · rw [enqueue_empty fuel empty] at linked
    obtain rfl := Option.some.inj linked
    refine (enqueue_empty fuel (elsewhere.trans empty)).trans (congrArg some ?_)
    refine Eq.trans ?_ (unblock_eq (by simpa [different.symm] using filled)
      (by simpa [different.symm,head] using apart)).symm
    rw [woken]
    simp only [ne_eq,different.symm,not_false_eq_true,update_of_ne,head]
    rw [update_comm apart,update_comm different]
  · obtain ⟨z,walk,_⟩ := Option.map_eq_some_iff.mp ((if_neg empty).symm.trans linked)
    rw [enqueue_filled empty walk] at linked
    obtain rfl := Option.some.inj linked
    have list := represents.queue q
    have someone : p.waiting q ≠ [] := fun none => empty (list.empty_iff.mpr none)
    have inQueue : z ∈ p.waiting q := by
      obtain ⟨front,z',shape⟩ := (eq_nil_or_concat (p.waiting q)).resolve_left someone
      rw [concat_eq_append] at shape
      rw [shape] at list ⊢
      rw [last_unique walk (last_eq list (Nat.lt_succ_self _))]
      simp
    have last : NullList.last (s.unblock r).next 0 fuel ((s.unblock r).queue q) = some z := by
      rw [elsewhere,last_congr list ?_ someone fuel,walk]
      intro v member
      have notD : v ≠ d := fun same => valid.separate q r different member (same ▸ waits)
      have notC : v ≠ s.currentRunning := fun same => valid.apart q (by simp [running,same]) member
      simp [woken,notD,notC]
    have notWoken : z ≠ d := fun same => valid.separate q r different inQueue (same ▸ waits)
    have notRunning : z ≠ s.currentRunning := fun same => valid.apart q (by simp [running,same]) inQueue
    refine (enqueue_filled (elsewhere ▸ empty) last).trans (congrArg some ?_)
    refine Eq.trans ?_ (unblock_eq (by exact filled) (by simpa [head] using apart)).symm
    rw [woken]
    simp only [head,ne_eq,notWoken.symm,notRunning.symm,not_false_eq_true,update_of_ne]
    rw [update_comm apart,update_comm notRunning.symm,update_comm notWoken.symm]

end Tasks

namespace TaskRun

open Tasks

variable {ι : Type} {r : TaskRun ι} {t : Tasks ι} {p : Places ι Nat} {esp oldEsp : Nat}

/-- Whoever has a place is alive. -/
structure Seated (r : TaskRun ι) (p : Places ι Nat) : Prop where
  represents : r.tasks.Represents p
  valid : p.Valid
  present : ∀ v, p.Has v → v ∈ r.alive
  nodup : r.alive.Nodup

theorem Placed.seated (placed : r.Placed p) : r.Seated p :=
  ⟨placed.represents,placed.valid,fun v => (placed.present v).mp,placed.nodup⟩

theorem Seated.running (seated : r.Seated p) : r.tasks.currentRunning ∈ r.alive :=
  seated.present _ (.inl (mem_of_mem_head? seated.represents.running))

theorem Seated.real (seated : r.Seated p) : r.tasks.currentRunning ≠ 0 :=
  seated.represents.real _ (mem_of_mem_head? seated.represents.running)

theorem Seated.congr (seated : r.Seated p) (next : t.next = r.tasks.next) (prev : t.prev = r.tasks.prev)
    (state : t.state = r.tasks.state) (queue : t.queue = r.tasks.queue)
    (running : t.currentRunning = r.tasks.currentRunning) : Seated ⟨t,r.alive⟩ p :=
  ⟨seated.represents.congr next prev state queue running,seated.valid,seated.present,seated.nodup⟩

theorem remaining_exited (exits : r.tasks.state r.tasks.currentRunning = .exited) :
    r.remaining = r.alive.erase r.tasks.currentRunning := by
  rw [remaining,exits]

theorem remaining_blocked (blocks : r.tasks.state r.tasks.currentRunning = .blocked) : r.remaining = r.alive := by
  rw [remaining,blocks]

theorem remaining_alive {v : Nat} (member : v ∈ r.remaining) : v ∈ r.alive := by
  unfold remaining at member
  split at member
  · exact mem_of_mem_erase member
  · exact mem_of_mem_erase member
  · exact member

theorem remaining_kept {v : Nat} (member : v ∈ r.alive)
    (stays : v = r.tasks.currentRunning → r.tasks.state v = .ready) : v ∈ r.remaining := by
  by_cases same : v = r.tasks.currentRunning
  · have ready := stays same
    rw [same] at ready
    simpa [remaining,ready] using member
  · unfold remaining
    split
    · exact (mem_erase_of_ne same).mpr member
    · exact (mem_erase_of_ne same).mpr member
    · exact member

theorem Seated.remaining_left (seated : r.Seated p) (leaving : r.tasks.state r.tasks.currentRunning ≠ .ready) :
    r.remaining = r.alive.erase r.tasks.currentRunning := by
  have awake := seated.represents.awake
  unfold remaining
  cases state : r.tasks.state r.tasks.currentRunning <;> simp_all

theorem Seated.not_remaining (seated : r.Seated p) (leaving : r.tasks.state r.tasks.currentRunning ≠ .ready) :
    r.tasks.currentRunning ∉ r.remaining := by
  rw [seated.remaining_left leaving]
  exact seated.nodup.not_mem_erase

/-- A switch seats everybody again. The running thread goes on only if it is ready. -/
theorem Seated.switch (seated : r.Seated p) (done : r.tasks.scheduler oldEsp = some (t,esp)) :
    (∃ p', Seated ⟨t,r.remaining⟩ p') ∧
    (t.currentRunning = r.tasks.currentRunning → r.tasks.state r.tasks.currentRunning = .ready) := by
  obtain ⟨rest,running⟩ := seated.represents.split
  by_cases ready : r.tasks.state r.tasks.currentRunning = .ready
  · obtain ⟨u,_,turned,after⟩ := scheduler_turn seated.represents seated.valid ready oldEsp
    obtain ⟨rfl,_⟩ := Prod.mk.inj (Option.some.inj (turned.symm.trans done))
    have same : r.remaining = r.alive := by simp [remaining,ready]
    refine ⟨⟨p.turn,after,Places.turn_valid seated.valid,fun v placed => ?_,by rw [same]; exact seated.nodup⟩,
      fun _ => ready⟩
    rw [same]
    exact seated.present v (Places.has_turn.mp placed)
  · have leaving := And.intro ready seated.represents.awake.2
    have gone := seated.remaining_left ready
    cases rest with
    | nil =>
      have ring := seated.represents.ring
      rw [running] at ring
      rw [scheduler_halts ring rfl leaving oldEsp] at done
      contradiction
    | cons d rest =>
      obtain ⟨u,_,left,after⟩ := scheduler_leave seated.represents seated.valid running leaving oldEsp
      obtain ⟨rfl,_⟩ := Prod.mk.inj (Option.some.inj (left.symm.trans done))
      refine ⟨⟨p.leave,after,Places.leave_valid seated.valid running,fun v placed => ?_,?_⟩,fun same => ?_⟩
      · obtain ⟨before,other⟩ := (Places.has_leave seated.valid running).mp placed
        rw [gone]
        exact (mem_erase_of_ne other).mpr (seated.present v before)
      · rw [gone]
        exact seated.nodup.erase _
      · have here : p.leave.Has u.currentRunning := .inl (mem_of_mem_head? after.running)
        exact absurd same ((Places.has_leave seated.valid running).mp here).2

theorem Seated.mark (seated : r.Seated p) {kind : TaskState} (exits : kind ≠ .blocked ∧ kind ≠ .running) :
    Seated ⟨{ r.tasks with state := update r.tasks.state r.tasks.currentRunning kind },r.alive⟩ p :=
  ⟨seated.represents.marked seated.valid exits,seated.valid,seated.present,seated.nodup⟩

theorem Seated.elsewhere (seated : r.Seated p) {x : Nat} (absent : x ∉ r.alive) (only : OnlyAt r.tasks t x) :
    Seated ⟨t,r.alive⟩ p :=
  ⟨seated.represents.elsewhere (fun placed => absent (seated.present x placed)) only,seated.valid,seated.present,
    seated.nodup⟩

theorem Seated.splice (seated : r.Seated p) {x : Nat} (absent : x ∉ r.alive) (real : x ≠ 0) :
    Seated ⟨r.tasks.splice x,x :: r.alive⟩ (p.join x) := by
  have outside : ¬p.Has x := fun placed => absent (seated.present x placed)
  refine ⟨splice_join seated.represents seated.valid outside real,Places.join_valid seated.valid outside,?_,
    nodup_cons.mpr ⟨absent,seated.nodup⟩⟩
  intro v placed
  rcases Places.has_join.mp placed with before | rfl
  · exact mem_cons_of_mem _ (seated.present v before)
  · exact mem_cons_self

variable [DecidableEq ι] {q : ι}

theorem Seated.block (seated : r.Seated p) {fuel : Nat}
    (done : r.tasks.block fuel q oldEsp = some (some (t,esp))) :
    (∃ p', Seated ⟨t,r.alive⟩ p') ∧ t.currentRunning ≠ r.tasks.currentRunning ∧
    t.state = update (update r.tasks.state r.tasks.currentRunning .blocked) t.currentRunning .ready := by
  obtain ⟨rest,running⟩ := seated.represents.split
  obtain ⟨u,linked,switched⟩ := Option.map_eq_some_iff.mp done
  obtain ⟨u',linked',_,_,state,_⟩ := enqueue_links seated.represents seated.valid running (q := q) le_rfl
  obtain rfl := enqueue_unique linked linked'
  have again : r.tasks.block (p.waiting q).length q oldEsp = some (u.scheduler oldEsp) := by
    rw [Tasks.block,linked',Option.map_some]
  have states : t.state = update (update r.tasks.state r.tasks.currentRunning .blocked) t.currentRunning .ready := by
    rw [scheduler_state switched,state]
  cases rest with
  | nil =>
    rw [block_halts seated.represents seated.valid running oldEsp le_rfl,switched] at again
    simp at again
  | cons d rest =>
    obtain ⟨v,_,parked,after⟩ := block_park seated.represents seated.valid running oldEsp (q := q) le_rfl
    rw [parked,switched] at again
    obtain ⟨rfl,_⟩ := Prod.mk.inj (Option.some.inj (Option.some.inj again))
    refine ⟨⟨p.park q,after,Places.park_valid seated.valid running,fun w placed => ?_,seated.nodup⟩,?_,states⟩
    · exact seated.present w ((Places.has_park running).mp placed)
    · have next : d = v.currentRunning := by simpa [Places.park_ring running] using after.running
      have nodup := seated.valid.ring
      rw [running] at nodup
      intro same
      simp [next,same] at nodup

theorem Seated.unblock (seated : r.Seated p) (filled : r.tasks.queue q ≠ 0) :
    (∃ p', Seated ⟨r.tasks.unblock q,r.alive⟩ p') ∧
    ∃ d ∈ r.alive, d ≠ r.tasks.currentRunning ∧
      (r.tasks.unblock q).state = update r.tasks.state d .ready := by
  obtain ⟨rest,running⟩ := seated.represents.split
  have list := seated.represents.queue q
  obtain ⟨d,more,first⟩ := exists_cons_of_ne_nil (fun empty => filled (list.empty_iff.mpr empty))
  have waits : d ∈ p.waiting q := by simp [first]
  have head : r.tasks.queue q = d := by
    rw [first] at list
    exact list.1
  have apart : d ≠ r.tasks.currentRunning := fun same => seated.valid.apart q (by simp [running,same]) waits
  refine ⟨⟨p.wake q,unblock_wake seated.represents seated.valid first,
    Places.wake_valid seated.valid running first,fun v placed => ?_,seated.nodup⟩,
    d,seated.present d (.inr ⟨q,waits⟩),apart,?_⟩
  · exact seated.present v ((Places.has_wake running first).mp placed)
  · rw [unblock_eq filled (by rw [head]; exact apart.symm),head]

theorem Seated.dropped (seated : r.Seated p) (q : ι) :
    Seated ⟨{ r.tasks with queue := update r.tasks.queue q 0 },r.alive⟩ { p with waiting := update p.waiting q [] } := by
  have fewer : ∀ k, update p.waiting q [] k <+ p.waiting k := by
    intro k
    by_cases same : k = q
    · subst k
      simp
    · rw [update_of_ne same]
  refine ⟨seated.represents.dropped q,⟨seated.valid.ring,?_,?_,?_⟩,?_,seated.nodup⟩
  · exact fun k => (seated.valid.queue k).sublist (fewer k)
  · exact fun k v inRing waits => seated.valid.apart k inRing ((fewer k).mem waits)
  · exact fun j k other v one two => seated.valid.separate j k other ((fewer j).mem one) ((fewer k).mem two)
  · rintro v (inRing | ⟨k,waits⟩)
    · exact seated.present v (.inl inRing)
    · exact seated.present v (.inr ⟨k,(fewer k).mem waits⟩)

def Gone (exited : List Nat) (r : TaskRun ι) : Prop :=
  ∀ v ∈ exited, r.tasks.state v ≠ .ready ∧ r.tasks.state v ≠ .blocked ∧
    (v = r.tasks.currentRunning ∨ v ∉ r.alive)

section Gone

variable {exited : List Nat}

omit [DecidableEq ι] in
theorem Gone.mono {fewer : List Nat} (gone : Gone exited r) (less : ∀ v ∈ fewer, v ∈ exited) : Gone fewer r :=
  fun v member => gone v (less v member)

omit [DecidableEq ι] in
theorem Gone.mark (gone : Gone exited r) {kind : TaskState} (exits : kind ≠ .ready ∧ kind ≠ .blocked) :
    Gone (r.tasks.currentRunning :: exited)
      ⟨{ r.tasks with state := update r.tasks.state r.tasks.currentRunning kind },r.alive⟩ := by
  intro v member
  by_cases same : v = r.tasks.currentRunning
  · simp [same,exits]
  · simpa [same] using gone v ((mem_cons.mp member).resolve_left same)

omit [DecidableEq ι] in
theorem Gone.woken (gone : Gone exited r) {d : Nat} (alive : d ∈ r.alive) (other : d ≠ r.tasks.currentRunning)
    (same : t.currentRunning = r.tasks.currentRunning) (state : t.state = update r.tasks.state d .ready) :
    Gone exited ⟨t,r.alive⟩ := by
  intro v member
  obtain ⟨ready,blocked,placed⟩ := gone v member
  have notWoken : v ≠ d := by
    rintro rfl
    exact placed.elim other (fun absent => absent alive)
  rw [state,update_of_ne notWoken,same]
  exact ⟨ready,blocked,placed⟩

omit [DecidableEq ι] in
theorem Gone.switched (gone : Gone exited r) (seated : r.Seated p)
    (done : r.tasks.scheduler oldEsp = some (t,esp)) :
    t.currentRunning ∉ exited ∧ Gone exited ⟨t,r.remaining⟩ := by
  obtain ⟨⟨p',after⟩,stays⟩ := seated.switch done
  have chosen : t.currentRunning ∉ exited := by
    intro member
    obtain ⟨ready,_,here | absent⟩ := gone _ member
    · rw [here,stays here] at ready
      contradiction
    · exact absent (remaining_alive after.running)
  refine ⟨chosen,fun v member => ?_⟩
  obtain ⟨ready,blocked,placed⟩ := gone v member
  have other : v ≠ t.currentRunning := fun same => chosen (same ▸ member)
  rw [scheduler_state done,update_of_ne other]
  refine ⟨ready,blocked,.inr ?_⟩
  rcases placed with rfl | absent
  · exact seated.not_remaining ready
  · exact fun member => absent (remaining_alive member)

theorem Gone.parked (gone : Gone exited r) (seated : r.Seated p) {fuel : Nat}
    (done : r.tasks.block fuel q oldEsp = some (some (t,esp))) (going : r.tasks.currentRunning ∉ exited) :
    t.currentRunning ∉ exited ∧ Gone exited ⟨t,r.alive⟩ := by
  obtain ⟨⟨p',after⟩,other,state⟩ := seated.block done
  have chosen : t.currentRunning ∉ exited := by
    intro member
    obtain ⟨_,_,here | absent⟩ := gone _ member
    · exact other here
    · exact absent after.running
  refine ⟨chosen,fun v member => ?_⟩
  obtain ⟨ready,blocked,placed⟩ := gone v member
  have notChosen : v ≠ t.currentRunning := fun same => chosen (same ▸ member)
  have notRunning : v ≠ r.tasks.currentRunning := fun same => going (same ▸ member)
  rw [state,update_of_ne notChosen,update_of_ne notRunning]
  exact ⟨ready,blocked,.inr (placed.resolve_left notRunning)⟩

end Gone

end TaskRun

end RudimentaryKernel
