import RudimentaryKernel.ThreadPlacement

/-! How long a ready thread waits for the processor. Every switch brings it one place closer to
the running thread and every `unblock` puts one thread in front of it; nothing else moves it. A
pair of threads that keep waking each other therefore keeps all others from running. -/
namespace RudimentaryKernel

open Function List RudimentaryKernel.Ring

namespace Ring

variable {α : Type} {next prev : α → α} {a : α} {l rest : List α}

private theorem chain_nth (chain : IsChain (Linked next prev) (a :: rest)) {i : Nat}
    (inside : i < (a :: rest).length) : (a :: rest)[i]? = some (next^[i] a) := by
  induction i generalizing a rest with
  | zero => rfl
  | succ i ih =>
    cases rest with
    | nil => simp at inside
    | cons b rest =>
      obtain ⟨link,chain⟩ := isChain_cons_cons.mp chain
      rw [length_cons] at inside
      rw [getElem?_cons_succ,iterate_succ_apply,link.1]
      exact ih chain (by omega)

theorem IsRing.nth (ring : IsRing next prev l) (first : l.head? = some a) {i : Nat} (inside : i < l.length) :
    l[i]? = some (next^[i] a) := by
  obtain ⟨rest,rfl⟩ := head?_eq_some_iff.mp first
  have chain := (isRing_cons.mp ring).2
  rw [← cons_append,isChain_append] at chain
  exact chain_nth chain.1 inside

theorem IsRing.first_reached_iff (ring : IsRing next prev l) (first : l.head? = some a) {i : Nat} {b : α} :
    next^[i] a = b ∧ (∀ j < i, next^[j] a ≠ b) ↔ l[i]? = some b := by
  constructor
  · rintro ⟨here,before⟩
    have member : b ∈ l := (ring.reaches_iff (mem_of_mem_head? first)).mp ⟨i,here⟩
    obtain ⟨j,inside,found⟩ := getElem_of_mem member
    have reached : next^[j] a = b := by
      have nth := ring.nth first inside
      rw [getElem?_eq_getElem inside,found] at nth
      exact (Option.some.inj nth).symm
    have early : i ≤ j := by
      by_contra later
      exact before j (by omega) reached
    rw [ring.nth first (by omega),here]
  · intro found
    obtain ⟨inside,_⟩ := List.getElem?_eq_some_iff.mp found
    have here := ring.nth first inside
    rw [found] at here
    refine ⟨(Option.some.inj here).symm,?_⟩
    intro j early same
    have there := ring.nth first (i := j) (by omega)
    rw [same,← found] at there
    have equal := (getElem?_inj (by omega) ring.nodup).mp there
    omega

end Ring

def TaskOp.switches {ι : Type} : TaskOp ι → Nat
  | .switch _ | .block _ _ => 1
  | _ => 0

def TaskOp.wakes {ι : Type} : TaskOp ι → Nat
  | .unblock _ => 1
  | _ => 0

namespace TaskRun

variable {ι : Type} {r s t : TaskRun ι} {p : Places ι Nat} {u d n k : Nat}

/-- Following `next` from the running thread, `u` is the `d`-th. -/
def Behind (r : TaskRun ι) (d u : Nat) : Prop :=
  r.tasks.next^[d] r.tasks.currentRunning = u ∧ ∀ i < d, r.tasks.next^[i] r.tasks.currentRunning ≠ u

theorem behind_iff (represents : r.tasks.Represents p) : r.Behind d u ↔ p.ring[d]? = some u :=
  represents.ring.first_reached_iff represents.running

theorem behind_zero : r.Behind 0 u ↔ r.tasks.currentRunning = u := by
  simp [Behind]

theorem Behind.running_iff (behind : r.Behind d u) : r.tasks.currentRunning = u ↔ d = 0 := by
  constructor
  · intro running
    by_contra later
    exact behind.2 0 (by omega) running
  · rintro rfl
    exact behind_zero.mp behind

variable [DecidableEq ι] {op : TaskOp ι} {fuel : Nat}

theorem performed_ring (placed : r.Placed p) (permitted : r.Permitted op)
    (done : r.perform fuel op = some (some t)) : ∃ p', t.tasks.Represents p' ∧
      ∀ d u, p.ring[d + 1]? = some u → p'.ring[d + 1 + op.wakes - op.switches]? = some u := by
  obtain ⟨rest,running⟩ := placed.represents.split
  cases op with
  | create user grants =>
    obtain ⟨outside,sized⟩ := permitted
    have absent : ¬p.Has grants.tcb := fun present => outside ((placed.present _).mp present)
    obtain ⟨v,only,refused | ⟨granted,made⟩⟩ := Tasks.threadCreate_cases r.tasks user grants
    · refine ⟨p,?_,fun d u here => here⟩
      have same : t.tasks = v := by
        rw [perform,refused] at done
        rw [← Option.some.inj (Option.some.inj done)]
      rw [same]
      exact placed.represents.elsewhere absent only
    · have real : grants.tcb ≠ 0 := fun null => granted (sized null)
      have same : t.tasks = v.splice grants.tcb := by
        rw [perform,made] at done
        rw [← Option.some.inj (Option.some.inj done)]
      refine ⟨p.join grants.tcb,?_,?_⟩
      · rw [same]
        exact Tasks.splice_join (placed.represents.elsewhere absent only) placed.valid absent real
      · intro d u here
        obtain ⟨inside,_⟩ := List.getElem?_eq_some_iff.mp here
        change (p.ring ++ [grants.tcb])[d + 1]? = _
        rw [getElem?_append_left inside,here]
  | switch oldEsp =>
    obtain ⟨⟨v,sp⟩,scheduled,same⟩ := Option.map_eq_some_iff.mp (Option.some.inj done)
    subst same
    by_cases ready : r.tasks.state r.tasks.currentRunning = .ready
    · obtain ⟨w,esp,turned,after⟩ := Tasks.scheduler_turn placed.represents placed.valid ready oldEsp
      obtain ⟨rfl,_⟩ := Prod.mk.inj (Option.some.inj (scheduled.symm.trans turned))
      refine ⟨p.turn,after,?_⟩
      intro d u here
      rw [running,getElem?_cons_succ] at here
      obtain ⟨inside,_⟩ := List.getElem?_eq_some_iff.mp here
      change (p.ring.tail ++ p.ring.take 1)[d]? = _
      rw [running,tail_cons,getElem?_append_left inside,here]
    · have leaving := And.intro ready placed.represents.awake.2
      cases rest with
      | nil =>
        have ring := placed.represents.ring
        rw [running] at ring
        rw [Tasks.scheduler_halts ring rfl leaving oldEsp] at scheduled
        contradiction
      | cons c rest =>
        obtain ⟨w,esp,left,after⟩ := Tasks.scheduler_leave placed.represents placed.valid running leaving oldEsp
        obtain ⟨rfl,_⟩ := Prod.mk.inj (Option.some.inj (scheduled.symm.trans left))
        refine ⟨p.leave,after,?_⟩
        intro d u here
        change p.ring.tail[d]? = _
        rw [running] at here ⊢
        exact here
  | block q oldEsp =>
    cases rest with
    | nil =>
      have halted := Tasks.block_halts placed.represents placed.valid running oldEsp (q := q) le_rfl
      have stopped : r.perform (p.waiting q).length (.block q oldEsp) = some none := by
        rw [perform,halted]
        rfl
      have impossible := perform_unique done stopped
      contradiction
    | cons c rest =>
      obtain ⟨w,esp,parked,after⟩ :=
        Tasks.block_park placed.represents placed.valid running oldEsp (q := q) le_rfl
      have moved : r.perform (p.waiting q).length (.block q oldEsp) = some (some ⟨w,r.alive⟩) := by
        rw [perform,parked]
        rfl
      have same := Option.some.inj (perform_unique done moved)
      subst same
      refine ⟨p.park q,after,?_⟩
      intro d u here
      change p.ring.tail[d]? = _
      rw [running] at here ⊢
      exact here
  | unblock q =>
    have filled : p.waiting q ≠ [] := by
      rw [ne_eq,← (placed.represents.queue q).empty_iff]
      exact permitted
    obtain ⟨first,more,queue⟩ := exists_cons_of_ne_nil filled
    obtain rfl := Option.some.inj (Option.some.inj done)
    refine ⟨p.wake q,Tasks.unblock_wake placed.represents placed.valid queue,?_⟩
    intro d u here
    rw [Places.wake_eq running queue]
    rw [running] at here
    exact here
  | exit =>
    obtain rfl := Option.some.inj (Option.some.inj done)
    exact ⟨p,(mark_placed placed (by decide)).represents,fun d u here => here⟩
  | exitNoZombie =>
    obtain rfl := Option.some.inj (Option.some.inj done)
    exact ⟨p,(mark_placed placed (by decide)).represents,fun d u here => here⟩

/-- One operation: a switch brings a waiting thread one place closer, a wake takes it one back. -/
theorem Behind.performed (behind : r.Behind d u) (waits : r.tasks.currentRunning ≠ u) (placed : r.Placed p)
    (permitted : r.Permitted op) (done : r.perform fuel op = some (some t)) :
    t.Behind (d + op.wakes - op.switches) u := by
  obtain ⟨p',after,moved⟩ := performed_ring placed permitted done
  cases d with
  | zero => exact absurd (behind_zero.mp behind) waits
  | succ d => exact (behind_iff after).mpr (moved d u ((behind_iff placed.represents).mp behind))

/-- A run from `r` to `t` in which `u` does not run before its end, with the number of its
switches and the number of its wakes. -/
inductive Pending (u : Nat) (r : TaskRun ι) : TaskRun ι → Nat → Nat → Prop where
  | start : Pending u r r 0 0
  | perform {s t : TaskRun ι} {n k fuel : Nat} {op : TaskOp ι} (before : Pending u r s n k)
      (waits : s.tasks.currentRunning ≠ u) (permitted : s.Permitted op)
      (done : s.perform fuel op = some (some t)) : Pending u r t (n + op.switches) (k + op.wakes)

theorem Pending.reach (pending : Pending u r t n k) (reached : Reach Boot Step r) : Reach Boot Step t := by
  induction pending with
  | start => exact reached
  | perform _ _ permitted done ih => exact ih.advance ⟨_,_,permitted,done⟩

/-- The running thread wakes the first of a queue and takes its place there: one switch later the
queue is still filled and a thread of the ring is as far behind as before. -/
theorem Behind.passed (behind : r.Behind d u) (waits : r.tasks.currentRunning ≠ u) (placed : r.Placed p) {q : ι}
    (filled : r.tasks.queue q ≠ 0) : ∃ s t, (∃ fuel, r.perform fuel (.unblock q) = some (some s)) ∧
      s.Behind (d + 1) u ∧ (∃ fuel, s.perform fuel (.block q 0) = some (some t)) ∧ t.Behind d u ∧
      t.tasks.queue q ≠ 0 := by
  have permitted : r.Permitted (.unblock q) := filled
  obtain ⟨s,p',woken,placed',_⟩ := unblock_placed placed permitted
  have behind' := behind.performed waits placed permitted woken
  have waits' : s.tasks.currentRunning ≠ u := mt behind'.running_iff.mp (show d + 1 - 0 ≠ 0 by omega)
  -- the thread that was woken is on the ring as well, and so the scheduler does not halt
  have others : p'.ring ≠ [s.tasks.currentRunning] := by
    intro alone
    have place := (behind_iff placed'.represents).mp behind'
    rw [alone] at place
    simp [TaskOp.wakes,TaskOp.switches] at place
  obtain ⟨_,_⟩ | ⟨t,p'',blocked,placed'',waiting⟩ := block_placed placed' q 0
  · contradiction
  · have always : s.Permitted (.block q 0) := trivial
    have behind'' := behind'.performed waits' placed' always blocked
    have later : t.tasks.queue q ≠ 0 := by
      rw [ne_eq,(placed''.represents.queue q).empty_iff,waiting]
      simp
    exact ⟨s,t,⟨_,woken⟩,behind',⟨_,blocked⟩,behind'',later⟩

theorem one_waits : ∃ r : TaskRun Unit, Reach Boot Step r ∧ r.Behind 1 100 ∧
    r.tasks.currentRunning = 300 ∧ r.tasks.queue () = 200 := by
  have boot : Boot booted := ⟨by decide,rfl,rfl,rfl,rfl,fun _ => rfl⟩
  have run : (performAll 4 [.create true ⟨200,1,0x5000,0x9000,0x800000⟩,.create false ⟨300,2,0x6000,0xb000,0⟩,
      .switch 1,.block () 2] booted).map (fun r => (r.tasks.currentRunning,r.tasks.next 300,r.tasks.queue ())) =
      some (300,100,200) := rfl
  obtain ⟨r,done,same⟩ := Option.map_eq_some_iff.mp run
  obtain ⟨running,same⟩ := Prod.mk.inj same
  obtain ⟨next,queue⟩ := Prod.mk.inj same
  refine ⟨r,performAll_reach done (Reach.start boot),⟨?_,?_⟩,running,queue⟩
  · rw [running]
    exact next
  · intro i first
    obtain rfl : i = 0 := by omega
    rw [running]
    exact show (300 : Nat) ≠ 100 by decide

/-- In every run, a thread that is `d` places behind the running one on the ready ring gets the
processor at exactly the switch whose number is `d` plus the number of threads woken so far, and
until then it is as many places behind as switches are still missing. -/
theorem switches_until_running (r : TaskRun ι) (reached : Reach Boot Step r) (d u : Nat) (behind : r.Behind d u)
    (t : TaskRun ι) (n k : Nat) (pending : Pending u r t n k) :
    n ≤ d + k ∧ t.Behind (d + k - n) u ∧ (t.tasks.currentRunning = u ↔ n = d + k) := by
  have along : n ≤ d + k ∧ t.Behind (d + k - n) u := by
    induction pending with
    | start => exact ⟨Nat.zero_le _,behind⟩
    | @perform s t n k fuel op before waits permitted done ih =>
      obtain ⟨bound,place⟩ := ih
      obtain ⟨p,placed⟩ := reached_placed (before.reach reached)
      have missing : n < d + k := by
        have positive := mt place.running_iff.mpr waits
        omega
      have moved := place.performed waits placed permitted done
      have one : op.switches ≤ 1 := by
        cases op <;> simp [TaskOp.switches]
      refine ⟨by omega,?_⟩
      rw [show d + (k + op.wakes) - (n + op.switches) = d + k - n + op.wakes - op.switches by omega]
      exact moved
  refine ⟨along.1,along.2,?_⟩
  rw [along.2.running_iff]
  omega

/-- The boot thread is next; with one thread woken it runs after two switches. -/
theorem boot_thread_second : ∃ r t : TaskRun Unit, r.Behind 1 100 ∧ Pending 100 r t 2 1 ∧
    t.tasks.currentRunning = 100 := by
  obtain ⟨r,reached,behind,running,queue⟩ := one_waits
  obtain ⟨p,placed⟩ := reached_placed reached
  have filled : r.Permitted (.unblock ()) := by
    change r.tasks.queue () ≠ 0
    rw [queue]
    decide
  have waits : r.tasks.currentRunning ≠ 100 := by
    rw [running]
    decide
  obtain ⟨m,s,⟨_,woken⟩,between,⟨_,blocked⟩,place,_⟩ := behind.passed waits placed filled
  have always : m.Permitted (.block () 0) := trivial
  have pending : Pending 100 r s 1 1 := (Pending.start.perform waits filled woken).perform
    (mt between.running_iff.mp (by decide)) always blocked
  obtain ⟨p',placed'⟩ := reached_placed (pending.reach reached)
  obtain ⟨_,alone,_⟩ | ⟨t,_,turned,_⟩ := switch_placed placed' 0
  · have second := (behind_iff placed'.represents).mp place
    rw [alone] at second
    contradiction
  · have always : s.Permitted (.switch 0) := trivial
    have later : Pending 100 r t 2 1 := pending.perform (mt place.running_iff.mp (by decide)) always turned
    exact ⟨r,t,behind,later,(switches_until_running r reached 1 100 behind t 2 1 later).2.2.mpr rfl⟩

/-- A run of `n` rounds: the running thread wakes the first of `q` and takes its place there. All
along `u` is on the ring and not in front of it. -/
inductive PassedOver (q : ι) (d u : Nat) (r : TaskRun ι) : Nat → TaskRun ι → Prop where
  | start (behind : r.Behind d u) : PassedOver q d u r 0 r
  | round {n : Nat} {s m t : TaskRun ι} (before : PassedOver q d u r n s) (filled : s.Permitted (.unblock q))
      (woken : ∃ fuel, s.perform fuel (.unblock q) = some (some m)) (between : m.Behind (d + 1) u)
      (blocked : ∃ fuel, m.perform fuel (.block q 0) = some (some t)) (behind : t.Behind d u) :
      PassedOver q d u r (n + 1) t

theorem PassedOver.behind {q : ι} (passed : PassedOver q d u r n t) : t.Behind d u := by
  cases passed with
  | start behind => exact behind
  | round _ _ _ _ _ behind => exact behind

theorem PassedOver.reach {q : ι} (passed : PassedOver q d u r n t) (reached : Reach Boot Step r) :
    Reach Boot Step t := by
  induction passed with
  | start => exact reached
  | @round n s m t _ filled woken _ blocked _ ih =>
    obtain ⟨_,woken⟩ := woken
    obtain ⟨_,blocked⟩ := blocked
    have always : m.Permitted (.block q 0) := trivial
    exact (ih.advance ⟨_,_,filled,woken⟩).advance ⟨_,_,always,blocked⟩

/-- Ready threads starve: from every state of every run in which some thread waits in a queue, there
is a run of blocks and unblocks alone, of any number of switches, in which a given other ready
thread never runs. -/
theorem ready_threads_starve (r : TaskRun ι) (reached : Reach Boot Step r) (q : ι) (filled : r.tasks.queue q ≠ 0)
    (d u : Nat) (behind : r.Behind d u) (waits : r.tasks.currentRunning ≠ u) (n : Nat) :
    0 < d ∧ ∃ t, PassedOver q d u r n t ∧ t.tasks.currentRunning ≠ u := by
  have positive : d ≠ 0 := mt behind.running_iff.mpr waits
  have along : ∃ t, PassedOver q d u r n t ∧ t.tasks.queue q ≠ 0 := by
    induction n with
    | zero => exact ⟨r,.start behind,filled⟩
    | succ n ih =>
      obtain ⟨s,passed,full⟩ := ih
      obtain ⟨p,placed⟩ := reached_placed (passed.reach reached)
      obtain ⟨m,t,woken,between,blocked,place,later⟩ :=
        passed.behind.passed (mt passed.behind.running_iff.mp positive) placed full
      exact ⟨t,passed.round full woken between blocked place,later⟩
  obtain ⟨t,passed,_⟩ := along
  exact ⟨Nat.pos_of_ne_zero positive,t,passed,mt passed.behind.running_iff.mp positive⟩

/-- The boot thread, though next, is passed over a hundred times. -/
theorem boot_thread_starves : ∃ r t : TaskRun Unit, r.Behind 1 100 ∧ PassedOver () 1 100 r 100 t ∧
    t.tasks.currentRunning ≠ 100 := by
  obtain ⟨r,reached,behind,running,queue⟩ := one_waits
  obtain ⟨_,t,passed,waits⟩ := ready_threads_starve r reached () (by rw [queue]; decide) 1 100 behind
    (by rw [running]; decide) 100
  exact ⟨r,t,behind,passed,waits⟩

end TaskRun

end RudimentaryKernel
