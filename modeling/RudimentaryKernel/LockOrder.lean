import RudimentaryKernel.Places
import RudimentaryKernel.Reach
import RudimentaryKernel.Target
import Mathlib.Logic.Relation

/-! Threads that take several locks at once and work on shared data. A thread that finds a lock taken
goes from the ready ring into the queue of that lock; `block` by the only ready thread ends in the
`halt()` of the scheduler. A thread can be preempted between any two events of its call. -/
namespace RudimentaryKernel

open Function List

/-- What is left of a call: it takes, releases and initialises locks, and reads and changes the data
`σ`. What follows an access depends on what was there before it. `forever` is a loop without end. -/
inductive LockCode (ℓ σ α : Type) where
  | done (result : α)
  | forever
  | acquire (l : ℓ) (next : LockCode ℓ σ α)
  | release (l : ℓ) (next : LockCode ℓ σ α)
  | renew (l : ℓ) (next : LockCode ℓ σ α)
  | access (change : σ → σ) (next : σ → LockCode ℓ σ α)

namespace LockCode

variable {ℓ σ α : Type}

/-- The call made alone. -/
def run : LockCode ℓ σ α → σ → Option (σ × α)
  | .done result,d => some (d,result)
  | .forever,_ => none
  | .acquire _ next,d | .release _ next,d | .renew _ next,d => next.run d
  | .access change next,d => (next d).run (change d)

/-- A lock is taken only above the locks that are held, and the newest is released first. -/
def Ordered (rank : ℓ → Nat) : List ℓ → LockCode ℓ σ α → Prop
  | _,.done _ | _,.forever => True
  | held,.acquire l next => (∀ other ∈ held, rank other < rank l) ∧ next.Ordered rank (l :: held)
  | held,.release l next => held.head? = some l ∧ next.Ordered rank held.tail
  | held,.renew _ next => next.Ordered rank held
  | held,.access _ next => ∀ d, (next d).Ordered rank held

end LockCode

/-- The threads with what is left of the call that each is in, and the locks that it holds, the
newest one first. -/
structure LockSystem (ℓ τ σ α : Type) where
  places : Places ℓ τ
  status : ℓ → LockStatus
  data : σ
  code : τ → LockCode ℓ σ α
  held : τ → List ℓ

namespace LockSystem

variable {ℓ τ σ α : Type}

/-- All threads are ready and in no call, and no lock is taken. -/
def Initial (s : LockSystem ℓ τ σ α) : Prop :=
  s.places.Valid ∧ s.places.ring ≠ [] ∧ (∀ l, s.places.waiting l = []) ∧ (∀ l, s.status l = .unlocked) ∧
  ∀ t, (∃ result, s.code t = .done result) ∧ s.held t = []

def Wants (s : LockSystem ℓ τ σ α) (t : τ) (l : ℓ) : Prop := ∃ next, s.code t = .acquire l next

/-- No call has returned with a lock. -/
def Returned (s : LockSystem ℓ τ σ α) : Prop := ∀ t result, s.code t = .done result → s.held t = []

/-- If the next event of a thread initialises a lock, it is free, and nobody waits for it. -/
def Renewable (s : LockSystem ℓ τ σ α) (r : τ) : Prop :=
  ∀ l next, s.code r = .renew l next → s.status l = .unlocked ∧ s.places.waiting l = []

section Steps

variable [DecidableEq ℓ] [DecidableEq τ]

/-- `none` is the `halt()` of a scheduler without another thread. -/
def block (s : LockSystem ℓ τ σ α) (l : ℓ) : Option (LockSystem ℓ τ σ α) :=
  if s.places.ring.tail = [] then none else some { s with places := s.places.park l }

/-- One test of the loop in `lock_acquire_helper`, and what follows it. A thread that comes back
from `block` is at the same event again. -/
def lockAcquireHelper (s : LockSystem ℓ τ σ α) (r : τ) (l : ℓ) (next : LockCode ℓ σ α) : Option (LockSystem ℓ τ σ α) :=
  if s.status l = .locked then s.block l
  else some { s with
    status := update s.status l .locked
    code := update s.code r next
    held := update s.held r (l :: s.held r) }

/-- `if (l->queue != nullptr) unblock(&l->queue)`. -/
def unblock (p : Places ℓ τ) (l : ℓ) : Places ℓ τ := if p.waiting l = [] then p else p.wake l

def lockReleaseHelper (s : LockSystem ℓ τ σ α) (r : τ) (l : ℓ) (next : LockCode ℓ σ α) : LockSystem ℓ τ σ α :=
  { s with
    places := unblock s.places l
    status := update s.status l .unlocked
    code := update s.code r next
    held := update s.held r ((s.held r).erase l) }

/-- The next event of the running thread. A new lock is free and forgets who waited for the old one. -/
def effect (s : LockSystem ℓ τ σ α) (r : τ) : Option (LockSystem ℓ τ σ α) :=
  match s.code r with
  | .done _ | .forever => some s
  | .acquire l next => s.lockAcquireHelper r l next
  | .release l next => some (s.lockReleaseHelper r l next)
  | .renew l next => some { s with
      places := { s.places with waiting := update s.places.waiting l [] }
      status := update s.status l .unlocked
      code := update s.code r next }
  | .access change next => some { s with data := change s.data, code := update s.code r (next s.data) }

/-- The running thread starts a call, goes on with one, is preempted, creates a thread, or leaves
without a zombie. -/
inductive Step (calls : LockCode ℓ σ α → Prop) (s : LockSystem ℓ τ σ α) : LockSystem ℓ τ σ α → Prop where
  | call {r result code} (running : s.places.ring.head? = some r) (between : s.code r = .done result)
      (called : calls code) : Step calls s { s with code := update s.code r code }
  | event {r t} (running : s.places.ring.head? = some r) (renews : s.Renewable r) (done : s.effect r = some t)
      (returned : t.Returned) : Step calls s t
  | switch : Step calls s { s with places := s.places.turn }
  | create {t result} (fresh : ¬s.places.Has t) (blank : s.code t = .done result ∧ s.held t = []) :
      Step calls s { s with places := s.places.join t }
  | leave {r result} (running : s.places.ring.head? = some r) (between : s.code r = .done result)
      (others : s.places.ring.tail ≠ []) : Step calls s { s with places := s.places.leave }

end Steps

/-- A thread in the queue of a lock waits for the thread that holds it, or, when it is free, for
one that was unblocked or comes first. -/
def WaitsFor (s : LockSystem ℓ τ σ α) (t u : τ) : Prop :=
  ∃ l, t ∈ s.places.waiting l ∧ (l ∈ s.held u ∨ s.status l = .unlocked ∧ u ∈ s.places.ring ∧ s.Wants u l)

/-- Every lock that is taken has one holder, who is ready or waits for a lock of higher rank. -/
structure Orderly (rank : ℓ → Nat) (s : LockSystem ℓ τ σ α) : Prop where
  valid : s.places.Valid
  ready : s.places.ring ≠ []
  locked : ∀ l, s.status l = .locked ↔ ∃ t, l ∈ s.held t
  one : ∀ l t u, l ∈ s.held t → l ∈ s.held u → t = u
  nodup : ∀ t, (s.held t).Nodup
  ordered : ∀ t, (s.code t).Ordered rank (s.held t)
  returned : s.Returned
  present : ∀ t, s.held t ≠ [] → s.places.Has t
  queued : ∀ l, ∀ t ∈ s.places.waiting l, s.Wants t l
  served : ∀ l, s.places.waiting l ≠ [] → s.status l = .locked ∨ ∃ t ∈ s.places.ring, s.Wants t l

variable {s t : LockSystem ℓ τ σ α} {r u w : τ} {l : ℓ} {next : LockCode ℓ σ α} {rest : List τ} {rank : ℓ → Nat}

theorem initial_orderly (initial : s.Initial) : s.Orderly rank := by
  obtain ⟨valid,ready,empty,free,threads⟩ := initial
  refine ⟨valid,ready,?_,?_,?_,?_,?_,?_,?_,?_⟩
  · intro l
    simp [free,threads]
  · intro l t u holds
    simp [threads] at holds
  · intro t
    simp [threads]
  · intro t
    obtain ⟨⟨result,idle⟩,_⟩ := threads t
    rw [idle]
    exact trivial
  · exact fun t _ _ => (threads t).2
  · intro t holds
    exact absurd (threads t).2 holds
  · intro l t member
    rw [empty] at member
    exact absurd member not_mem_nil
  · intro l filled
    exact absurd (empty l) filled

/-- Whoever wants a lock holds only locks of lower rank. -/
theorem Orderly.above (orderly : s.Orderly rank) (wants : s.Wants u l) {other : ℓ} (holds : other ∈ s.held u) :
    rank other < rank l := by
  obtain ⟨next,wants⟩ := wants
  have ordered := orderly.ordered u
  rw [wants] at ordered
  exact ordered.1 other holds

/-- Whoever waits, waits in the end for a ready thread; the locks on the way have rising ranks. -/
theorem Orderly.chain (orderly : s.Orderly rank) {bound : Nat} (bounded : ∀ l, rank l < bound)
    (waiting : w ∈ s.places.waiting l) : ∃ u ∈ s.places.ring, Relation.TransGen s.WaitsFor w u ∧
      ∃ last, rank l ≤ rank last ∧ (last ∈ s.held u ∨ s.status last = .unlocked ∧ s.Wants u last) := by
  -- the ranks from that of `l` on become fewer with each holder that waits itself
  induction distance : bound - rank l using Nat.strong_induction_on generalizing l w with
  | _ n ih =>
    cases status : s.status l with
    | locked =>
      obtain ⟨holder,holds⟩ := (orderly.locked l).mp status
      have waits : s.WaitsFor w holder := ⟨l,waiting,.inl holds⟩
      rcases orderly.present holder (ne_nil_of_mem holds) with ring | ⟨higher,queued⟩
      · exact ⟨holder,ring,.single waits,l,Nat.le_refl _,.inl holds⟩
      · have above := orderly.above (orderly.queued higher holder queued) holds
        have below := bounded higher
        obtain ⟨u,ring,chain,last,rising,ends⟩ := ih (bound - rank higher) (by omega) queued rfl
        exact ⟨u,ring,.head waits chain,last,by omega,ends⟩
    | unlocked =>
      rcases orderly.served l (ne_nil_of_mem waiting) with locked | ⟨u,ring,wants⟩
      · rw [status] at locked
        contradiction
      · exact ⟨u,ring,.single ⟨l,waiting,.inr ⟨status,ring,wants⟩⟩,l,Nat.le_refl _,.inr ⟨status,wants⟩⟩

theorem Wants.unique {l' : ℓ} (first : s.Wants u l) (second : s.Wants u l') : l = l' := by
  obtain ⟨next,first⟩ := first
  obtain ⟨next',second⟩ := second
  rw [first] at second
  exact (LockCode.acquire.inj second).1

/-- A thread that finds a lock taken is not the only ready one. -/
theorem Orderly.others (orderly : s.Orderly rank) {bound : Nat} (bounded : ∀ l, rank l < bound)
    (running : s.places.ring = r :: rest) (wants : s.Wants r l) (locked : s.status l = .locked) : rest ≠ [] := by
  obtain ⟨holder,holds⟩ := (orderly.locked l).mp locked
  have elsewhere : ∀ u ∈ s.places.ring, u ≠ r → rest ≠ [] := by
    rintro u ring different rfl
    rw [running] at ring
    exact different (mem_singleton.mp ring)
  rcases orderly.present holder (ne_nil_of_mem holds) with ring | ⟨higher,queued⟩
  · refine elsewhere holder ring ?_
    rintro rfl
    exact absurd (orderly.above wants holds) (Nat.lt_irrefl _)
  · have above := orderly.above (orderly.queued higher holder queued) holds
    obtain ⟨u,ring,_,last,rising,ends⟩ := orderly.chain bounded queued
    refine elsewhere u ring ?_
    rintro rfl
    -- the running thread holds only locks below the one it wants
    rcases ends with holds' | ⟨free,wants'⟩
    · have below := orderly.above wants holds'
      omega
    · rw [wants'.unique wants,locked] at free
      contradiction

theorem Orderly.moved (orderly : s.Orderly rank) {places : Places ℓ τ} (valid : places.Valid) (ready : places.ring ≠ [])
    (present : ∀ t, s.places.Has t → s.held t ≠ [] → places.Has t) (fewer : ∀ l, places.waiting l = s.places.waiting l)
    (ring : ∀ t ∈ s.places.ring, (∃ l, s.Wants t l) → t ∈ places.ring) : Orderly rank { s with places := places } := by
  refine ⟨valid,ready,orderly.locked,orderly.one,orderly.nodup,orderly.ordered,orderly.returned,?_,?_,?_⟩
  · intro t holds
    exact present t (orderly.present t holds) holds
  · intro l t member
    rw [fewer] at member
    exact orderly.queued l t member
  · intro l filled
    rw [fewer] at filled
    rcases orderly.served l filled with locked | ⟨t,member,wants⟩
    · exact .inl locked
    · exact .inr ⟨t,ring t member ⟨l,wants⟩,wants⟩

section Queues

variable [DecidableEq ℓ]

theorem Orderly.block (orderly : s.Orderly rank) (running : s.places.ring = r :: rest) (others : rest ≠ [])
    (wants : s.Wants r l) (locked : s.status l = .locked) : Orderly rank { s with places := s.places.park l } := by
  have ring : (s.places.park l).ring = rest := Places.park_ring running
  have waits : ∀ l' u, u ∈ (s.places.park l).waiting l' ↔ (l' = l ∧ u = r) ∨ u ∈ s.places.waiting l' := by
    intro l' u
    rw [(Places.park_perm running l').mem_iff]
    by_cases equal : l' = l
    · subst equal
      rw [update_self,mem_cons]
      simp
    · rw [update_of_ne equal]
      simp [equal]
  refine ⟨Places.park_valid orderly.valid running,?_,orderly.locked,orderly.one,orderly.nodup,orderly.ordered,
    orderly.returned,?_,?_,?_⟩
  · rw [ring]
    exact others
  · intro u some'
    exact (Places.has_park running).mpr (orderly.present u some')
  · intro l' u member
    rcases (waits l' u).mp member with ⟨rfl,rfl⟩ | member
    · exact wants
    · exact orderly.queued l' u member
  · intro l' filled
    by_cases equal : l' = l
    · rw [equal]
      exact .inl locked
    · have before : s.places.waiting l' ≠ [] := by
        have same : (s.places.park l).waiting l' = s.places.waiting l' := update_of_ne equal _ _
        rwa [← same]
      rcases orderly.served l' before with locked | ⟨u,member,wants'⟩
      · exact .inl locked
      · refine .inr ⟨u,?_,wants'⟩
        dsimp only
        rw [ring]
        rw [running] at member
        refine (mem_cons.mp member).resolve_left ?_
        rintro rfl
        exact equal (wants'.unique wants)

theorem unblock_spec {p : Places ℓ τ} (valid : p.Valid) (running : p.ring = r :: rest) : (unblock p l).Valid ∧
    (∀ u ∈ p.ring, u ∈ (unblock p l).ring) ∧ (∀ u, p.Has u → (unblock p l).Has u) ∧
    (∀ l' u, u ∈ (unblock p l).waiting l' → u ∈ p.waiting l') ∧
    (p.waiting l ≠ [] → ∃ u ∈ (unblock p l).ring, u ∈ p.waiting l) := by
  rw [unblock]
  cases queue : p.waiting l with
  | nil =>
    rw [if_pos rfl]
    exact ⟨valid,fun _ member => member,fun _ member => member,fun _ _ member => member,fun some' => absurd rfl some'⟩
  | cons u others =>
    rw [if_neg (cons_ne_nil _ _)]
    have woken := Places.wake_eq running queue
    refine ⟨Places.wake_valid valid running queue,?_,fun v has => (Places.has_wake running queue).mpr has,?_,?_⟩
    · intro v member
      rw [running] at member
      rw [woken]
      rcases mem_cons.mp member with rfl | later
      · exact mem_cons_self
      · exact mem_cons_of_mem _ (mem_cons_of_mem _ later)
    · intro l' v member
      rw [woken] at member
      exact (valid.still_waiting queue member).1
    · intro _
      rw [woken]
      exact ⟨u,mem_cons_of_mem _ mem_cons_self,mem_cons_self⟩

end Queues

section Kept

variable [DecidableEq τ]

theorem Wants.still {code : LockCode ℓ σ α} (wants : s.Wants u l) (other : ¬s.Wants r l) :
    ∃ next, update s.code r code u = .acquire l next := by
  have apart : u ≠ r := by
    rintro rfl
    exact other wants
  rw [update_of_ne apart]
  exact wants

/-- A thread that is at no lock goes on, with the same locks. -/
theorem Orderly.goes_on (orderly : s.Orderly rank) {code : LockCode ℓ σ α} (data : σ) (elsewhere : ∀ l, ¬s.Wants r l)
    (ordered : code.Ordered rank (s.held r)) (returned : Returned { s with data := data, code := update s.code r code }) :
    Orderly rank { s with data := data, code := update s.code r code } := by
  refine ⟨orderly.valid,orderly.ready,orderly.locked,orderly.one,orderly.nodup,?_,returned,orderly.present,?_,?_⟩
  · exact (forall_update_iff s.code (fun u code => code.Ordered rank (s.held u))).mpr ⟨ordered,fun u _ => orderly.ordered u⟩
  · exact fun l u member => (orderly.queued l u member).still (elsewhere l)
  · intro l filled
    rcases orderly.served l filled with locked | ⟨u,ring,wants⟩
    · exact .inl locked
    · exact .inr ⟨u,ring,wants.still (elsewhere l)⟩

/-- A thread goes on with other locks: every call still keeps to the order. -/
theorem Orderly.ordered_update (orderly : s.Orderly rank) {code : LockCode ℓ σ α} {held : List ℓ}
    (ordered : code.Ordered rank held) (u : τ) : (update s.code r code u).Ordered rank (update s.held r held u) := by
  by_cases equal : u = r
  · subst equal
    rw [update_self,update_self]
    exact ordered
  · rw [update_of_ne equal,update_of_ne equal]
    exact orderly.ordered u

theorem Orderly.present_update (orderly : s.Orderly rank) (first : r ∈ s.places.ring) {held : List ℓ}
    (holds : update s.held r held u ≠ []) : s.places.Has u := by
  by_cases equal : u = r
  · rw [equal]
    exact .inl first
  · rw [update_of_ne equal] at holds
    exact orderly.present u holds

theorem mem_update_cons {held : τ → List ℓ} {l' : ℓ} :
    l' ∈ update held r (l :: held r) u ↔ (u = r ∧ l' = l) ∨ l' ∈ held u := by
  by_cases equal : u = r
  · subst equal
    rw [update_self,mem_cons]
    simp
  · rw [update_of_ne equal]
    simp [equal]

/-- The holder of a lock gives it up, and then nobody has it. -/
theorem Orderly.mem_update_tail (orderly : s.Orderly rank) {older : List ℓ} (stack : s.held r = l :: older) {l' : ℓ} :
    l' ∈ update s.held r older u ↔ l' ≠ l ∧ l' ∈ s.held u := by
  have newest : l ∈ s.held r := by
    rw [stack]
    exact mem_cons_self
  obtain ⟨absent,_⟩ := nodup_cons.mp (stack ▸ orderly.nodup r)
  by_cases equal : u = r
  · subst equal
    rw [update_self,stack,mem_cons]
    constructor
    · intro member
      exact ⟨fun same => absent (same ▸ member),.inr member⟩
    · rintro ⟨other,member⟩
      exact member.resolve_left other
  · rw [update_of_ne equal]
    constructor
    · intro member
      exact ⟨fun same => equal (orderly.one l u r (same ▸ member) newest),member⟩
    · exact fun member => member.2

variable [DecidableEq ℓ]

theorem Orderly.take (orderly : s.Orderly rank) (running : s.places.ring = r :: rest) (wants : s.code r = .acquire l next)
    (free : s.status l = .unlocked) (returned : Returned { s with
      status := update s.status l .locked
      code := update s.code r next
      held := update s.held r (l :: s.held r) }) : Orderly rank { s with
      status := update s.status l .locked
      code := update s.code r next
      held := update s.held r (l :: s.held r) } := by
  have ordered := orderly.ordered r
  rw [wants] at ordered
  have nobody : ∀ u, l ∉ s.held u := by
    intro u holds
    have locked := (orderly.locked l).mpr ⟨u,holds⟩
    rw [free] at locked
    contradiction
  have first : r ∈ s.places.ring := by
    rw [running]
    exact mem_cons_self
  have other : ∀ {l'}, l' ≠ l → ¬s.Wants r l' := fun different wants' => different (wants'.unique ⟨next,wants⟩)
  refine ⟨orderly.valid,orderly.ready,?_,?_,?_,?_,returned,?_,?_,?_⟩
  · intro l'
    dsimp only
    by_cases equal : l' = l
    · subst equal
      rw [update_self]
      exact iff_of_true rfl ⟨r,mem_update_cons.mpr (.inl ⟨rfl,rfl⟩)⟩
    · rw [update_of_ne equal,orderly.locked]
      simp [mem_update_cons,equal]
  · intro l' t u first second
    rcases mem_update_cons.mp first with ⟨rfl,rfl⟩ | earlier
    · rcases mem_update_cons.mp second with ⟨rfl,_⟩ | later
      · rfl
      · exact absurd later (nobody u)
    · rcases mem_update_cons.mp second with ⟨rfl,rfl⟩ | later
      · exact absurd earlier (nobody t)
      · exact orderly.one l' t u earlier later
  · exact (forall_update_iff s.held (fun _ held => held.Nodup)).mpr
      ⟨nodup_cons.mpr ⟨nobody r,orderly.nodup r⟩,fun u _ => orderly.nodup u⟩
  · exact orderly.ordered_update ordered.2
  · exact fun _ holds => orderly.present_update first holds
  · intro l' u member
    have apart : u ≠ r := by
      rintro rfl
      exact orderly.valid.apart l' first member
    obtain ⟨next',wants'⟩ := orderly.queued l' u member
    exact ⟨next',by dsimp only; rw [update_of_ne apart,wants']⟩
  · intro l' filled
    dsimp only
    by_cases equal : l' = l
    · rw [equal,update_self]
      exact .inl rfl
    · rw [update_of_ne equal]
      rcases orderly.served l' filled with locked | ⟨u,ring,wants'⟩
      · exact .inl locked
      · exact .inr ⟨u,ring,wants'.still (other equal)⟩

theorem Orderly.release (orderly : s.Orderly rank) (running : s.places.ring = r :: rest)
    (releases : s.code r = .release l next) (returned : (s.lockReleaseHelper r l next).Returned) :
    Orderly rank (s.lockReleaseHelper r l next) := by
  have ordered := orderly.ordered r
  rw [releases] at ordered
  obtain ⟨older,stack⟩ : ∃ older, s.held r = l :: older := head?_eq_some_iff.mp ordered.1
  have erased : (s.held r).erase l = older := by
    rw [stack,erase_cons_head]
  rw [stack] at ordered
  have distinct : older.Nodup := (nodup_cons.mp (stack ▸ orderly.nodup r)).2
  have first : r ∈ s.places.ring := by
    rw [running]
    exact mem_cons_self
  have elsewhere : ∀ l', ¬s.Wants r l' := by
    rintro l' ⟨next',wants⟩
    rw [releases] at wants
    contradiction
  obtain ⟨valid,ring,has,fewer,woken⟩ := unblock_spec (l := l) orderly.valid running
  have status : (s.lockReleaseHelper r l next).status = update s.status l .unlocked := rfl
  have code : (s.lockReleaseHelper r l next).code = update s.code r next := rfl
  have held : (s.lockReleaseHelper r l next).held = update s.held r older := by
    rw [← erased]
    rfl
  refine ⟨valid,ne_nil_of_mem (ring r first),?_,?_,?_,?_,returned,?_,?_,?_⟩
  · intro l'
    rw [status,held]
    by_cases equal : l' = l
    · subst equal
      rw [update_self]
      refine iff_of_false LockStatus.noConfusion ?_
      rintro ⟨u,member⟩
      exact ((orderly.mem_update_tail stack).mp member).1 rfl
    · rw [update_of_ne equal,orderly.locked]
      simp [orderly.mem_update_tail stack,equal]
  · intro l' t u one two
    rw [held] at one two
    exact orderly.one l' t u ((orderly.mem_update_tail stack).mp one).2 ((orderly.mem_update_tail stack).mp two).2
  · rw [held]
    exact (forall_update_iff s.held (fun _ held => held.Nodup)).mpr ⟨distinct,fun u _ => orderly.nodup u⟩
  · rw [held,code]
    exact orderly.ordered_update ordered.2
  · intro u holds
    rw [held] at holds
    exact has u (orderly.present_update first holds)
  · exact fun l' u member => (orderly.queued l' u (fewer l' u member)).still (elsewhere l')
  · intro l' filled
    obtain ⟨v,member⟩ := exists_mem_of_ne_nil _ filled
    have before := ne_nil_of_mem (fewer l' v member)
    rw [status]
    by_cases equal : l' = l
    · subst equal
      obtain ⟨u,member,queued⟩ := woken before
      exact .inr ⟨u,member,(orderly.queued l' u queued).still (elsewhere l')⟩
    · rw [update_of_ne equal]
      rcases orderly.served l' before with locked | ⟨u,member,wants⟩
      · exact .inl locked
      · exact .inr ⟨u,ring u member,wants.still (elsewhere l')⟩

/-- The running thread does not end in the scheduler's `halt()`. -/
theorem Orderly.proceeds (orderly : s.Orderly rank) {bound : Nat} (bounded : ∀ l, rank l < bound)
    (running : s.places.ring = r :: rest) : ∃ t, s.effect r = some t := by
  rw [effect]
  cases at' : s.code r with
  | done _ | forever | release _ _ | renew _ _ | access _ _ => exact ⟨_,rfl⟩
  | acquire l next =>
    dsimp only
    rw [lockAcquireHelper]
    split
    · rename_i locked
      have others := orderly.others bounded running ⟨next,at'⟩ locked
      exact ⟨_,by rw [LockSystem.block,running,tail_cons,if_neg others]⟩
    · exact ⟨_,rfl⟩

theorem Orderly.effect (orderly : s.Orderly rank) (running : s.places.ring = r :: rest) (renews : s.Renewable r)
    (done : s.effect r = some t) (returned : t.Returned) : t.Orderly rank := by
  have ordered := orderly.ordered r
  have elsewhere : (∀ l next, s.code r ≠ .acquire l next) → ∀ l, ¬s.Wants r l :=
    fun other l ⟨next,wants⟩ => other l next wants
  rw [LockSystem.effect] at done
  cases at' : s.code r with
  | done _ | forever =>
    simp only [at',Option.some.injEq] at done
    exact done ▸ orderly
  | acquire l next =>
    simp only [at',lockAcquireHelper] at done
    split at done
    · rename_i locked
      rw [LockSystem.block,running,tail_cons] at done
      split at done
      · contradiction
      · rename_i others
        obtain rfl := Option.some.inj done
        exact orderly.block running others ⟨next,at'⟩ locked
    · rename_i free
      obtain rfl := Option.some.inj done
      refine orderly.take running at' ?_ returned
      cases status : s.status l with
      | locked => exact absurd status free
      | unlocked => rfl
  | release l next =>
    simp only [at',Option.some.injEq] at done
    subst done
    exact orderly.release running at' returned
  | renew l next =>
    obtain ⟨free,nobody⟩ := renews l next at'
    simp only [at',Option.some.injEq] at done
    rw [← free,← nobody,update_eq_self,update_eq_self] at done
    subst done
    rw [at'] at ordered
    exact orderly.goes_on s.data (elsewhere (by simp [at'])) ordered returned
  | access change next =>
    simp only [at',Option.some.injEq] at done
    subst done
    rw [at'] at ordered
    exact orderly.goes_on _ (elsewhere (by simp [at'])) (ordered s.data) returned

theorem Orderly.step {calls : LockCode ℓ σ α → Prop} (keep : ∀ code, calls code → code.Ordered rank [])
    (orderly : s.Orderly rank) (step : s.Step calls t) : t.Orderly rank := by
  obtain ⟨first,rest,running⟩ := exists_cons_of_ne_nil orderly.ready
  have idle : ∀ {r result}, s.code r = .done result → ∀ l, ¬s.Wants r l := by
    rintro r result between l ⟨next,wants⟩
    rw [between] at wants
    contradiction
  cases step with
  | call head between called =>
    have none := orderly.returned _ _ between
    refine orderly.goes_on s.data (idle between) (none ▸ keep _ called) ?_
    exact (forall_update_iff s.code (fun u code => ∀ result, code = .done result → s.held u = [])).mpr
      ⟨fun _ _ => none,fun u _ => orderly.returned u⟩
  | event head renews done returned =>
    rw [running,head?_cons] at head
    obtain rfl := Option.some.inj head
    exact orderly.effect running renews done returned
  | switch =>
    have ring : ∀ u ∈ s.places.ring, u ∈ s.places.turn.ring := fun u member => Places.turn_perm.mem_iff.mpr member
    refine orderly.moved (Places.turn_valid orderly.valid) ?_ (fun u has _ => Places.has_turn.mpr has) (fun _ => rfl)
      (fun u member _ => ring u member)
    exact ne_nil_of_mem (ring first (by rw [running]; exact mem_cons_self))
  | create fresh blank =>
    refine orderly.moved (Places.join_valid orderly.valid fresh) ?_ (fun u has _ => Places.has_join.mpr (.inl has))
      (fun _ => rfl) (fun u member _ => mem_append_left _ member)
    exact append_ne_nil_of_left_ne_nil orderly.ready _
  | leave head between others =>
    rw [running,head?_cons] at head
    obtain rfl := Option.some.inj head
    refine orderly.moved (Places.leave_valid orderly.valid running) others ?_ (fun _ => rfl) ?_
    · intro u has some'
      exact (Places.has_leave orderly.valid running).mpr ⟨has,fun same => some' (same ▸ orderly.returned _ _ between)⟩
    · rintro u member ⟨l,wants⟩
      rw [Places.leave,running,tail_cons]
      rw [running] at member
      refine (mem_cons.mp member).resolve_left ?_
      rintro rfl
      exact idle between l wants

end Kept

end LockSystem

end RudimentaryKernel
