import RudimentaryKernel.LockRegions

/-! Calls on an object behind a lock, as their callers see them: a record of when each call begins
and with what it returns. The calls return in the order in which they give the lock back, with the
answers they would have got one after the other in that order. -/
namespace RudimentaryKernel

open Function List

inductive CallEvent (τ Op A : Type) where
  | begins (thread : τ) (op : Op)
  | returns (thread : τ) (op : Op) (answer : A)
  deriving DecidableEq

namespace CallEvent

variable {τ Op A : Type}

def completed (h : List (CallEvent τ Op A)) : List (τ × Op × A) :=
  h.filterMap (fun
    | .begins _ _ => none
    | .returns t op a => some (t,op,a))

@[simp] theorem completed_nil : completed ([] : List (CallEvent τ Op A)) = [] := rfl

@[simp] theorem completed_append (h h' : List (CallEvent τ Op A)) :
    completed (h ++ h') = completed h ++ completed h' := filterMap_append

@[simp] theorem completed_begins (t : τ) (op : Op) : completed [(.begins t op : CallEvent τ Op A)] = [] := rfl

@[simp] theorem completed_returns (t : τ) (op : Op) (a : A) : completed [.returns t op a] = [(t,op,a)] := rfl

variable [DecidableEq τ] [DecidableEq Op]

/-- A thread that is in no call begins one; a thread returns from the call it is in. -/
def after (ongoing : τ → Option Op) : CallEvent τ Op A → Option (τ → Option Op)
  | .begins t op => if ongoing t = none then some (update ongoing t (some op)) else none
  | .returns t op _ => if ongoing t = some op then some (update ongoing t none) else none

/-- The calls that have begun and not returned; `none` when the record is not one of threads that
make one call after the other. -/
def ongoing (h : List (CallEvent τ Op A)) : Option (τ → Option Op) := h.foldlM after (fun _ => none)

theorem ongoing_append (h : List (CallEvent τ Op A)) (e : CallEvent τ Op A) :
    ongoing (h ++ [e]) = (ongoing h).bind (fun calls => after calls e) := by
  rw [ongoing,foldlM_append]
  refine congrArg _ ?_
  funext calls
  exact bind_pure _

end CallEvent

/-- Calls one after the other, each made complete and alone. -/
inductive Serial {τ σ Op A : Type} (Proper : Op → Prop) (perform : σ → Op → Option (σ × A)) (first : σ) :
    List (τ × Op × A) → σ → Prop where
  | none : Serial Proper perform first [] first
  | call {calls : List (τ × Op × A)} {o o' : σ} {t : τ} {op : Op} {a : A} (before : Serial Proper perform first calls o)
      (proper : Proper op) (done : perform o op = some (o',a)) : Serial Proper perform first (calls ++ [(t,op,a)]) o'

/-- The calls that the threads of a program make: the call a thread is in at a place, what it is
about to return with once its work is done, and what one call does to the object. Threads are
`Between` regions outside the lock, and at the beginning and at the end of a region. -/
structure LockCalls {κ τ σ P : Type} (prog : LockProgram κ τ σ P) (Op A : Type) where
  during : P → Option Op
  answer : P → Option A
  Proper : Op → Prop
  perform : σ → Op → Option (σ × A)
  Valid : σ → Prop
  Between : P → Prop
  idle_between : Between prog.idle
  during_idle : during prog.idle = none
  proper : ∀ {p op}, Between p → during p = some op → Proper op
  answered : ∀ {p a}, answer p = some a → prog.inside p = true ∧ ∀ s, prog.work s p = none
  work_during : ∀ {s p t q}, prog.work s p = some (t,q) → during q = during p
  region : ∀ {o p o' q}, Valid o → Between p → prog.Whole (o,p) (o',q) → Between q ∧
    (answer q = none ∧ o' = o ∨ ∃ op a, during p = some op ∧ answer q = some a ∧ perform o op = some (o',a) ∧ Valid o')
  calls : ∀ {p op held q}, prog.calls p op held q → Between p → Between q ∧
    (during q = during p ∧ answer q = answer p ∨ (during p = none ∧ answer q = none ∧ ∃ op, during q = some op) ∨
      q = prog.idle ∧ ∃ op a, during p = some op ∧ answer p = some a)

namespace LockCalls

variable {κ τ σ P Op A : Type} {prog : LockProgram κ τ σ P} (calls : LockCalls prog Op A)

def log (r : τ) (p q : P) : List (CallEvent τ Op A) :=
  match calls.during p, calls.answer p, calls.during q with
  | none, _, some op => [.begins r op]
  | some op, some a, none => [.returns r op a]
  | _, _, _ => []

/-- The calls whose work is done and that have not returned. -/
def Pending (place : τ → P) (pending : List (τ × Op × A)) : Prop :=
  pending.length ≤ 1 ∧
    ∀ t op a, (t,op,a) ∈ pending ↔ calls.during (place t) = some op ∧ calls.answer (place t) = some a

def Initial (_ : LockCalls prog Op A) (first : σ) (s : Guarded κ τ σ P × List (CallEvent τ Op A)) : Prop := s.1.Initial prog first ∧ s.2 = []

def Step [DecidableEq κ] [DecidableEq τ] (s t : Guarded κ τ σ P × List (CallEvent τ Op A)) : Prop :=
  ∃ r, s.1.monitor.places.ring.head? = some r ∧ s.1.Does prog prog.Small r t.1 ∧
    t.2 = s.2 ++ calls.log r (s.1.place r) (t.1.place r)

variable {c c' s : Guarded κ τ σ P} {r : τ} {p q : P} {h : List (CallEvent τ Op A)} {first : σ}

theorem log_same (same : calls.during q = calls.during p) : calls.log r p q = [] := by
  rw [log,same]
  cases calls.during p with
  | none => rfl
  | some op =>
    split <;> simp_all

theorem small_during {one other : σ × P} (run : Relation.ReflTransGen prog.Small one other) :
    calls.during other.2 = calls.during one.2 := by
  induction run with
  | refl => rfl
  | tail _ step ih => rw [calls.work_during step,ih]

theorem whole_during {one other : σ × P} (whole : prog.Whole one other) :
    calls.during other.2 = calls.during one.2 := small_during calls whole.1.to_reflTransGen

theorem busy_answer {o : σ} (busy : prog.work o p ≠ none) : calls.answer p = none := by
  cases found : calls.answer p with
  | none => rfl
  | some a => exact absurd ((calls.answered found).2 o) busy

theorem others_unanswered (exclusive : Guarded.Exclusive prog c) (inside : prog.inside (c.place r) = true) {t : τ}
    (other : t ≠ r) : calls.answer (c.place t) = none := by
  cases found : calls.answer (c.place t) with
  | none => rfl
  | some a =>
    refine absurd (exclusive.only ?_ ?_) other
    · rw [exclusive.inside]
      exact inside
    · rw [exclusive.inside]
      exact (calls.answered found).1

theorem behind_exclusive (exclusive : Guarded.Exclusive prog s) (behind : Guarded.Behind prog c s) :
    Guarded.Exclusive prog c := by
  obtain ⟨sound,inside⟩ := exclusive
  rw [← behind.monitor] at sound
  refine ⟨sound,?_⟩
  intro t
  rw [behind.monitor]
  cases held : s.monitor.holds t with
  | false =>
    rw [behind.outside t held,← inside]
    exact held.symm
  | true =>
    rcases (behind.begun t held).cases_head with same | ⟨⟨o,q⟩,step,_⟩
    · rw [(Prod.mk.inj same).2,← inside]
      exact held.symm
    · exact (prog.work_inside step).1.symm

theorem behind_place (behind : Guarded.Behind prog c s) (t : τ) :
    calls.during (s.place t) = calls.during (c.place t) ∧ calls.answer (s.place t) = calls.answer (c.place t) := by
  cases held : s.monitor.holds t with
  | false =>
    rw [behind.outside t held]
    exact ⟨rfl,rfl⟩
  | true =>
    refine ⟨small_during calls (behind.begun t held),?_⟩
    rcases (behind.begun t held).cases_head with same | ⟨next,step,_⟩
    · rw [(Prod.mk.inj same).2]
    · by_cases ended : prog.work s.object (s.place t) = none
      · rw [(behind.done t held ended).2]
      · have begun : prog.work c.object (c.place t) ≠ none := by
          rw [show prog.work c.object (c.place t) = some next from step]
          exact Option.some_ne_none _
        rw [busy_answer calls ended,busy_answer calls begun]

variable {calls}

theorem pending_none (none : ∀ t, calls.answer (c.place t) = none) : calls.Pending c.place [] := by
  refine ⟨Nat.zero_le _,?_⟩
  intro t op a
  simp [none t]

theorem Pending.eq_nil {pending : List (τ × Op × A)} (old : calls.Pending c.place pending)
    (none : ∀ t, calls.answer (c.place t) = none) : pending = [] := by
  refine eq_nil_iff_forall_not_mem.mpr ?_
  rintro ⟨t,op,a⟩ member
  have found := ((old.2 t op a).mp member).2
  rw [none t] at found
  contradiction

theorem Pending.eq_single {pending : List (τ × Op × A)} (old : calls.Pending c.place pending) {op : Op} {a : A}
    (during : calls.during (c.place r) = some op) (answer : calls.answer (c.place r) = some a) : pending = [(r,op,a)] := by
  have member := (old.2 r op a).mpr ⟨during,answer⟩
  obtain ⟨x,rfl⟩ := length_eq_one_iff.mp (Nat.le_antisymm old.1 (length_pos_of_mem member))
  rw [mem_singleton.mp member]

section Accounts

variable [DecidableEq τ]

theorem update_during (place : τ → P) (r : τ) (q : P) :
    (fun t => calls.during (update place r q t)) = update (fun t => calls.during (place t)) r (calls.during q) :=
  funext (apply_update (fun _ => calls.during) place r q)

theorem Pending.moved {place : τ → P} {pending : List (τ × Op × A)} (old : calls.Pending place pending)
    (same : ∀ op a, calls.during q = some op ∧ calls.answer q = some a ↔
      calls.during (place r) = some op ∧ calls.answer (place r) = some a) :
    calls.Pending (update place r q) pending := by
  refine ⟨old.1,?_⟩
  intro t op a
  by_cases mine : t = r
  · rw [old.2,mine,update_self]
    exact (same op a).symm
  · rw [old.2,update_of_ne mine]

variable [DecidableEq Op]

/-- The record of a state between regions. -/
structure Accounts (calls : LockCalls prog Op A) (first : σ) (c : Guarded κ τ σ P) (h : List (CallEvent τ Op A)) : Prop where
  between : ∀ t, calls.Between (c.place t)
  valid : calls.Valid c.object
  ongoing : CallEvent.ongoing h = some (fun t => calls.during (c.place t))
  performed : ∃ pending, calls.Pending c.place pending ∧
    Serial calls.Proper calls.perform first (CallEvent.completed h ++ pending) c.object

theorem Accounts.between_update (accounts : Accounts calls first c h) (goes : calls.Between q) (t : τ) :
    calls.Between (update c.place r q t) := by
  by_cases same : t = r
  · rw [same,update_self]
    exact goes
  · rw [update_of_ne same]
    exact accounts.between t

/-- A whole region: the object is left alone, or changed for one call. -/
theorem Accounts.works (accounts : Accounts calls first c h) (exclusive : Guarded.Exclusive prog c) {o : σ}
    (whole : prog.Whole (c.object,c.place r) (o,q)) :
    Accounts calls first { c with object := o, place := update c.place r q } h := by
  have during := whole_during calls whole
  have none := busy_answer calls whole.busy
  obtain ⟨between,result⟩ := calls.region accounts.valid (accounts.between r) whole
  have others : ∀ t, calls.answer (c.place t) = Option.none := by
    intro t
    by_cases same : t = r
    · rw [same]
      exact none
    · obtain ⟨next,found⟩ := Option.ne_none_iff_exists'.mp whole.busy
      exact others_unanswered calls exclusive (prog.work_inside found).1 same
  obtain ⟨pending,old,serial⟩ := accounts.performed
  rw [old.eq_nil others,append_nil] at serial
  have ongoing : CallEvent.ongoing h = some (fun t => calls.during (update c.place r q t)) := by
    rw [update_during,during,update_eq_self]
    exact accounts.ongoing
  rcases result with ⟨unanswered,rfl⟩ | ⟨op,a,call,answered,done,valid⟩
  · refine ⟨accounts.between_update between,accounts.valid,ongoing,[],?_,?_⟩
    · refine Pending.moved (pending_none others) ?_
      simp [unanswered,none]
    · rw [append_nil]
      exact serial
  · refine ⟨accounts.between_update between,valid,ongoing,[(r,op,a)],⟨Nat.le_refl _,?_⟩,serial.call (calls.proper (accounts.between r) call) done⟩
    intro t op' a'
    dsimp only
    by_cases same : t = r
    · rw [same,update_self,during,call,answered]
      simp [eq_comm]
    · rw [update_of_ne same,others t]
      simp [same]

theorem Accounts.goes (accounts : Accounts calls first c h) (exclusive : Guarded.Exclusive prog c) {m : Monitor κ τ}
    {op : MonitorOp κ τ} {held : Bool} (goes : prog.calls (c.place r) op held q) :
    Accounts calls first { c with monitor := m, place := update c.place r q } (h ++ calls.log r (c.place r) q) := by
  obtain ⟨between,kind⟩ := calls.calls goes (accounts.between r)
  obtain ⟨pending,old,serial⟩ := accounts.performed
  rcases kind with ⟨during,answer⟩ | ⟨during,answer,op,call⟩ | ⟨rfl,op,a,during,answer⟩
  · rw [log_same calls during,append_nil]
    refine ⟨accounts.between_update between,accounts.valid,?_,pending,old.moved ?_,serial⟩
    · dsimp only
      rw [update_during,during,update_eq_self]
      exact accounts.ongoing
    · rw [during,answer]
      exact fun _ _ => Iff.rfl
  · have event : calls.log r (c.place r) q = [.begins r op] := by
      rw [log,during,call]
    rw [event]
    refine ⟨accounts.between_update between,accounts.valid,?_,pending,old.moved ?_,?_⟩
    · dsimp only
      rw [CallEvent.ongoing_append,accounts.ongoing,update_during,call]
      exact if_pos during
    · simp [answer,during]
    · rw [CallEvent.completed_append,CallEvent.completed_begins,append_nil]
      exact serial
  · have event : calls.log r (c.place r) prog.idle = [.returns r op a] := by
      rw [log,during,answer,calls.during_idle]
    rw [event]
    refine ⟨accounts.between_update between,accounts.valid,?_,[],⟨Nat.zero_le _,?_⟩,?_⟩
    · dsimp only
      rw [CallEvent.ongoing_append,accounts.ongoing,update_during,calls.during_idle]
      exact if_pos during
    · intro t op' a'
      dsimp only
      by_cases same : t = r
      · rw [same,update_self,calls.during_idle]
        simp
      · rw [update_of_ne same,others_unanswered calls exclusive (calls.answered answer).1 same]
        simp
    · rw [old.eq_single during answer] at serial
      rw [CallEvent.completed_append,CallEvent.completed_returns,append_nil]
      exact serial

variable [DecidableEq κ]

theorem Accounts.does (accounts : Accounts calls first c h) (exclusive : Guarded.Exclusive prog c)
    (does : c.Does prog prog.Whole r c') : Accounts calls first c' (h ++ calls.log r (c.place r) (c'.place r)) := by
  have same : calls.log r (c.place r) (c.place r) = [] := log_same calls rfl
  cases does with
  | work _ done =>
    dsimp only
    rw [update_self,log_same calls (whole_during calls done),append_nil]
    exact accounts.works exclusive done
  | call _ _ goes =>
    dsimp only
    rw [update_self]
    exact accounts.goes exclusive goes
  | switch _ _ | create _ _ _ | exit _ _ _ =>
    dsimp only
    rw [same,append_nil]
    exact ⟨accounts.between,accounts.valid,accounts.ongoing,accounts.performed⟩

end Accounts

variable [DecidableEq κ] [DecidableEq τ] [DecidableEq Op]

theorem Accounts.follows {t : Guarded κ τ σ P} (accounts : Accounts calls first c h) (exclusive : Guarded.Exclusive prog s)
    (behind : Guarded.Behind prog c s) (does : s.Does prog prog.Small r t) (follows : Guarded.Follows prog r s t c c') :
    Accounts calls first c' (h ++ calls.log r (s.place r) (t.place r)) := by
  have whole := behind_exclusive exclusive behind
  rcases follows with ⟨busy,inside⟩ | ⟨same,before,after⟩
  · -- the step is work, or it leaves every place as it is
    have quiet : calls.log r (s.place r) (t.place r) = [] := by
      refine log_same calls ?_
      cases does with
      | work _ done =>
        dsimp only
        rw [update_self]
        exact calls.work_during done
      | call _ _ goes => exact absurd (prog.calls_idle goes _) busy
      | switch _ _ | create _ _ _ | exit _ _ _ => rfl
    rw [quiet,append_nil]
    rcases inside with rfl | ⟨moves,begun⟩
    · exact accounts
    · have quiet : calls.log r (c.place r) (c'.place r) = [] := by
        refine log_same calls ?_
        cases moves with
        | work _ done =>
          dsimp only
          rw [update_self]
          exact whole_during calls done
        | call _ _ goes => exact absurd (prog.calls_idle goes _) begun
        | switch _ _ | create _ _ _ | exit _ _ _ => rfl
      have logged := accounts.does whole moves
      rw [quiet,append_nil] at logged
      exact logged
  · rw [← before,← after]
    exact accounts.does whole same

/-- Wherever the timer takes a thread, the threads make one call after the other, and the calls that
have returned, in that order and with one more at most whose work is done, are calls made
complete and alone; the object is theirs, with a part of one region done. -/
theorem calls_in_order (calls : LockCalls prog Op A) (valid : calls.Valid first)
    {state : Guarded κ τ σ P × List (CallEvent τ Op A)} (reached : Reach (calls.Initial first) calls.Step state) :
    CallEvent.ongoing state.2 = some (fun t => calls.during (state.1.place t)) ∧
    ∃ c pending, Reach (Guarded.Initial prog first) (Guarded.Step prog prog.Whole) c ∧ Guarded.Behind prog c state.1 ∧
      calls.Pending state.1.place pending ∧
      Serial calls.Proper calls.perform first (CallEvent.completed state.2 ++ pending) c.object := by
  have accounted : Guarded.Exclusive prog state.1 ∧ ∃ c, Reach (Guarded.Initial prog first) (Guarded.Step prog prog.Whole) c ∧
      Guarded.Behind prog c state.1 ∧ Accounts calls first c state.2 := by
    refine reached.invariant (fun state => Guarded.Exclusive prog state.1 ∧
      ∃ c, Reach (Guarded.Initial prog first) (Guarded.Step prog prog.Whole) c ∧
        Guarded.Behind prog c state.1 ∧ Accounts calls first c state.2) ?_ ?_
    · rintro ⟨s,h⟩ ⟨initial,rfl⟩
      have initial : s.Initial prog first := initial
      obtain ⟨_,object,idle⟩ := initial
      have unanswered : ∀ t, calls.answer (s.place t) = none := by
        intro t
        cases found : calls.answer (s.place t) with
        | none => rfl
        | some a =>
          have inside := (calls.answered found).1
          rw [idle,prog.idle_outside] at inside
          contradiction
      refine ⟨Guarded.initial_exclusive initial,s,.start initial,.refl ..,?_,?_,?_,[],pending_none unanswered,?_⟩
      · intro t
        rw [idle]
        exact calls.idle_between
      · rw [object]
        exact valid
      · refine congrArg some (funext fun t => ?_)
        rw [idle,calls.during_idle]
      · rw [object]
        exact .none
    · rintro ⟨s,h⟩ ⟨t,h'⟩ ⟨exclusive,c,⟨start,begins,run⟩,behind,accounts⟩ ⟨r,running,does,record⟩
      obtain ⟨c',follows,behind'⟩ := Guarded.step_behind exclusive behind running does
      have head : c.monitor.places.ring.head? = some r := by
        rw [behind.monitor]
        exact running
      have record : h' = h ++ calls.log r (s.place r) (t.place r) := record
      refine ⟨Guarded.step_exclusive Guarded.small_within exclusive ⟨r,running,does⟩,c',
        ⟨start,begins,run.trans (follows.steps head)⟩,behind',?_⟩
      rw [record]
      exact accounts.follows exclusive behind does follows
  obtain ⟨_,c,whole,behind,accounts⟩ := accounted
  obtain ⟨pending,⟨one,members⟩,serial⟩ := accounts.performed
  have places := behind_place calls behind
  refine ⟨?_,c,pending,whole,behind,⟨one,?_⟩,serial⟩
  · rw [accounts.ongoing]
    exact congrArg some (funext fun t => (places t).1.symm)
  · intro t op a
    rw [members,(places t).1,(places t).2]

section Runs

omit [DecidableEq Op]

theorem works_on (reached : Reach (calls.Initial first) calls.Step (s,h)) (r : τ)
    (running : s.monitor.places.ring.head? = some r)
    (free : s.monitor.doing r = .free) {o : σ} (n : Nat) (done : prog.works n (s.object,s.place r) = some (o,q)) :
    Reach (calls.Initial first) calls.Step ({ s with object := o, place := update s.place r q },h) := by
  induction n generalizing s with
  | zero =>
    obtain ⟨rfl,rfl⟩ := Prod.mk.inj (Option.some.inj done)
    rw [update_eq_self]
    exact reached
  | succ n ih =>
    obtain ⟨⟨o',q'⟩,small,more⟩ := Option.bind_eq_some_iff.mp done
    have quiet : calls.log r (s.place r) (update s.place r q' r) = [] := by
      refine log_same calls ?_
      rw [update_self]
      exact calls.work_during small
    have next : Reach (calls.Initial first) calls.Step ({ s with object := o', place := update s.place r q' },h) := by
      refine reached.advance ⟨r,running,.work free small,?_⟩
      dsimp only
      rw [quiet,append_nil]
    have later := ih next running free (by
      dsimp only
      rw [update_self]
      exact more)
    dsimp only at later
    rw [update_idem] at later
    exact later

theorem called (reached : Reach (calls.Initial first) calls.Step (s,h)) (r : τ)
    (running : s.monitor.places.ring.head? = some r)
    (op : MonitorOp κ τ) {m : Monitor κ τ} (allowed : s.monitor.Allowed r op) (done : s.monitor.effect r op = some m)
    (goes : prog.calls (s.place r) op (m.holds r) q) : Reach (calls.Initial first) calls.Step
      ({ s with monitor := m, place := update s.place r q },h ++ calls.log r (s.place r) q) := by
  refine reached.advance ⟨r,running,.call allowed done goes,?_⟩
  dsimp only
  rw [update_self]

theorem switched (reached : Reach (calls.Initial first) calls.Step (s,h)) (r : τ)
    (running : s.monitor.places.ring.head? = some r)
    (free : s.monitor.doing r = .free) : Reach (calls.Initial first) calls.Step
      ({ s with monitor := { s.monitor with places := s.monitor.places.turn } },h) := by
  refine reached.advance ⟨r,running,.switch free rfl,?_⟩
  dsimp only
  rw [log_same calls rfl,append_nil]

end Runs

end LockCalls

end RudimentaryKernel
