import RudimentaryKernel.Monitor

/-! What a thread does while it holds a `Lock` is atomic. Threads work on a shared object in small
steps and can be preempted between any two of them; the lock, its queue and the conditions are
those of `sync.cpp` over the scheduler. Every state such a system comes to is one of the system
in which each region runs at once, up to the region in progress. -/
namespace RudimentaryKernel

open Function List

/-- What threads do around one lock. At some of the places inside the lock there is `work` on the
object; from the other places a thread calls the monitor and goes on by whether it then holds
the lock. Between calls of its own a thread is `idle`. -/
structure LockProgram (κ τ σ P : Type) where
  idle : P
  inside : P → Bool
  work : σ → P → Option (σ × P)
  calls : P → MonitorOp κ τ → Bool → P → Prop
  idle_outside : inside idle = false
  work_inside : ∀ {s p t q}, work s p = some (t,q) → inside p = true ∧ inside q = true
  calls_inside : ∀ {p op held q}, calls p op held q → inside q = held
  calls_idle : ∀ {p op held q}, calls p op held q → ∀ s, work s p = none

/-- The lock with the threads around it, the object, and where each thread is. -/
structure Guarded (κ τ σ P : Type) where
  monitor : Monitor κ τ
  object : σ
  place : τ → P

namespace LockProgram

variable {κ τ σ P : Type} (prog : LockProgram κ τ σ P)

def Small (one other : σ × P) : Prop := prog.work one.1 one.2 = some other

def Whole (one other : σ × P) : Prop :=
  Relation.TransGen prog.Small one other ∧ prog.work other.1 other.2 = none

def works : Nat → σ × P → Option (σ × P)
  | 0, one => some one
  | n + 1, one => (prog.work one.1 one.2).bind (works n)

variable {prog}

theorem small_unique : Relator.RightUnique prog.Small := by
  intro one two other first second
  exact Option.some.inj (first.symm.trans second)

theorem Whole.busy {one other : σ × P} (whole : prog.Whole one other) : prog.work one.1 one.2 ≠ none := by
  obtain ⟨_,step,_⟩ := Relation.TransGen.head'_iff.mp whole.1
  rw [show prog.work one.1 one.2 = some _ from step]
  exact Option.some_ne_none _

theorem Whole.ends {one two other : σ × P} (whole : prog.Whole one other) (run : Relation.ReflTransGen prog.Small one two)
    (ended : prog.work two.1 two.2 = none) : other = two := by
  have stuck : ∀ {x y}, prog.work x.1 x.2 = none → Relation.ReflTransGen prog.Small x y → y = x := by
    intro x y none more
    rcases more.cases_head with same | ⟨z,step,_⟩
    · exact same.symm
    · have found : prog.work x.1 x.2 = some z := step
      rw [none] at found
      contradiction
  rcases Relation.ReflTransGen.total_of_right_unique small_unique whole.1.to_reflTransGen run with more | more
  · exact (stuck whole.2 more).symm
  · exact stuck ended more

end LockProgram

namespace Guarded

variable {κ τ σ P : Type} (prog : LockProgram κ τ σ P)

def Initial (object : σ) (s : Guarded κ τ σ P) : Prop :=
  s.monitor.Initial ∧ s.object = object ∧ ∀ t, s.place t = prog.idle

section Steps

variable [DecidableEq κ] [DecidableEq τ] (unit : σ × P → σ × P → Prop)

/-- One step of the running thread `r`; `unit` is how much work it does at once. -/
inductive Does (s : Guarded κ τ σ P) (r : τ) : Guarded κ τ σ P → Prop where
  | work {object place} (free : s.monitor.doing r = .free) (done : unit (s.object,s.place r) (object,place)) :
      Does s r { s with object := object, place := update s.place r place }
  | call {op monitor place} (allowed : s.monitor.Allowed r op) (done : s.monitor.effect r op = some monitor)
      (goes : prog.calls (s.place r) op (monitor.holds r) place) :
      Does s r { s with monitor := monitor, place := update s.place r place }
  | switch {monitor} (allowed : s.monitor.Allowed r .switch) (done : s.monitor.effect r .switch = some monitor) :
      Does s r { s with monitor := monitor }
  | create {t monitor} (allowed : s.monitor.Allowed r (.create t)) (fresh : s.place t = prog.idle)
      (done : s.monitor.effect r (.create t) = some monitor) : Does s r { s with monitor := monitor }
  | exit {monitor} (allowed : s.monitor.Allowed r .exit) (outside : s.place r = prog.idle)
      (done : s.monitor.effect r .exit = some monitor) : Does s r { s with monitor := monitor }

def Step (s t : Guarded κ τ σ P) : Prop := ∃ r, s.monitor.places.ring.head? = some r ∧ s.Does prog unit r t

end Steps

variable {prog} {unit : σ × P → σ × P → Prop} {s t c : Guarded κ τ σ P} {r u : τ} {first : σ}

/-- The thread that holds the lock is the one inside. -/
structure Exclusive (prog : LockProgram κ τ σ P) (s : Guarded κ τ σ P) : Prop where
  sound : s.monitor.Sound
  inside : ∀ t, s.monitor.holds t = prog.inside (s.place t)

theorem initial_exclusive (initial : s.Initial prog first) : Exclusive prog s := by
  obtain ⟨monitor,_,places⟩ := initial
  refine ⟨Monitor.initial_sound monitor,?_⟩
  intro t
  rw [(monitor.2.2.2 t).2,places,prog.idle_outside]

def Within (prog : LockProgram κ τ σ P) (unit : σ × P → σ × P → Prop) : Prop :=
  ∀ one other, unit one other → prog.inside one.2 = true ∧ prog.inside other.2 = true

theorem small_within : Within prog prog.Small := fun _ _ done => prog.work_inside done

/-- `s` is `c` with a part of one region done. -/
structure Behind (prog : LockProgram κ τ σ P) (c s : Guarded κ τ σ P) : Prop where
  monitor : c.monitor = s.monitor
  outside : ∀ t, s.monitor.holds t = false → c.place t = s.place t
  free : (∀ t, s.monitor.holds t = false) → c.object = s.object
  begun : ∀ r, s.monitor.holds r = true →
    Relation.ReflTransGen prog.Small (c.object,c.place r) (s.object,s.place r)
  done : ∀ r, s.monitor.holds r = true → prog.work s.object (s.place r) = none →
    c.object = s.object ∧ c.place r = s.place r

theorem Behind.refl (prog : LockProgram κ τ σ P) (s : Guarded κ τ σ P) : Behind prog s s :=
  ⟨rfl,fun _ _ => rfl,fun _ => rfl,fun _ _ => .refl,fun _ _ _ => ⟨rfl,rfl⟩⟩

theorem Behind.same (behind : Behind prog c s)
    (settled : ∀ r, s.monitor.holds r = true → prog.work s.object (s.place r) = none) : c = s := by
  have places : c.place = s.place := by
    funext t
    cases held : s.monitor.holds t with
    | false => exact behind.outside t held
    | true => exact (behind.done t held (settled t held)).2
  have object : c.object = s.object := by
    by_cases held : ∃ r, s.monitor.holds r = true
    · obtain ⟨r,held⟩ := held
      exact (behind.done r held (settled r held)).1
    · refine behind.free (fun t => ?_)
      rw [← Bool.not_eq_true]
      exact fun holds => held ⟨t,holds⟩
  obtain ⟨_,_,_⟩ := c
  obtain ⟨_,_,_⟩ := s
  have monitor := behind.monitor
  dsimp only at places object monitor
  subst places object monitor
  rfl

theorem Exclusive.only (exclusive : Exclusive prog s) (held : s.monitor.holds r = true)
    (held' : s.monitor.holds u = true) : u = r := exclusive.sound.one u r held' held

theorem Behind.apart (behind : Behind prog c s) {monitor : Monitor κ τ} (same : monitor.holds = s.monitor.holds) :
    Behind prog { c with monitor := monitor } { s with monitor := monitor } := by
  refine ⟨rfl,?_,?_,?_,?_⟩
  all_goals
    dsimp only
    rw [same]
  · exact behind.outside
  · exact behind.free
  · exact behind.begun
  · exact behind.done

variable [DecidableEq κ] [DecidableEq τ]

theorem effect_holds {m m' : Monitor κ τ} {op : MonitorOp κ τ} (running : m.places.ring.head? = some r)
    (done : m.effect r op = some m') (other : u ≠ r) : m'.holds u = m.holds u := by
  obtain ⟨rest,ring⟩ := head?_eq_some_iff.mp running
  cases op with
  | acquire | resume =>
    rcases Monitor.lockAcquireHelper_cases done with ⟨_,_,same⟩ | ⟨_,_,same⟩
    · rw [same]
    · rw [same,update_of_ne other]
  | release =>
    obtain rfl := Option.some.inj done
    rw [(Monitor.release_frame ring).1,update_of_ne other]
  | wait c => rw [(Monitor.wait_frame ring done).1,update_of_ne other]
  | signal c =>
    obtain rfl := Option.some.inj done
    rw [(Monitor.signal_frame ring).1]
  | broadcast c =>
    obtain rfl := Option.some.inj done
    rw [(Monitor.broadcast_frame ring).1]
  | switch | create _ | exit =>
    obtain rfl := Option.some.inj done
    rfl

theorem effect_apart {m m' : Monitor κ τ} {op : MonitorOp κ τ} (kind : op = .switch ∨ (∃ t, op = .create t) ∨ op = .exit)
    (done : m.effect r op = some m') : m'.holds = m.holds := by
  rcases kind with rfl | ⟨t,rfl⟩ | rfl
  all_goals
    obtain rfl := Option.some.inj done
    rfl

theorem step_exclusive (within : Within prog unit) (exclusive : Exclusive prog s) (step : s.Step prog unit t) :
    Exclusive prog t := by
  obtain ⟨r,running,does⟩ := step
  have apart : ∀ {op m}, op = MonitorOp.switch ∨ (∃ t, op = .create t) ∨ op = .exit → s.monitor.Allowed r op →
      s.monitor.effect r op = some m → Exclusive prog { s with monitor := m } := by
    intro op m kind allowed done
    refine ⟨Monitor.step_sound exclusive.sound ⟨r,op,running,allowed,done⟩,?_⟩
    dsimp only
    rw [effect_apart kind done]
    exact exclusive.inside
  cases does with
  | work free done =>
    obtain ⟨before,after⟩ := within _ _ done
    refine ⟨exclusive.sound,?_⟩
    intro u
    dsimp only
    by_cases same : u = r
    · rw [same,update_self,after,exclusive.inside]
      exact before
    · rw [update_of_ne same]
      exact exclusive.inside u
  | call allowed done goes =>
    refine ⟨Monitor.step_sound exclusive.sound ⟨r,_,running,allowed,done⟩,?_⟩
    intro u
    dsimp only
    by_cases same : u = r
    · rw [same,update_self,prog.calls_inside goes]
    · rw [update_of_ne same,effect_holds running done same]
      exact exclusive.inside u
  | switch allowed done => exact apart (.inl rfl) allowed done
  | create allowed _ done => exact apart (.inr (.inl ⟨_,rfl⟩)) allowed done
  | exit allowed _ done => exact apart (.inr (.inr rfl)) allowed done

/-- What `c` does while `r` takes `s` to `t`: nothing when the region goes on, the whole region at
its end, and else the same step. -/
def Follows (prog : LockProgram κ τ σ P) (r : τ) (s t c c' : Guarded κ τ σ P) : Prop :=
  prog.work s.object (s.place r) ≠ none ∧
    (c' = c ∨ c.Does prog prog.Whole r c' ∧ prog.work c.object (c.place r) ≠ none) ∨
  c.Does prog prog.Whole r c' ∧ c.place r = s.place r ∧ c'.place r = t.place r

/-- A piece of work is a part of a region, or its end. -/
theorem Behind.works (behind : Behind prog c s) (exclusive : Exclusive prog s) (free : s.monitor.doing r = .free)
    {object : σ} {place : P} (done : prog.work s.object (s.place r) = some (object,place)) :
    ∃ c', Follows prog r s { s with object := object, place := update s.place r place } c c' ∧
      Behind prog c' { s with object := object, place := update s.place r place } := by
  have held : s.monitor.holds r = true := by
    rw [exclusive.inside]
    exact (prog.work_inside done).1
  have other : ∀ u, s.monitor.holds u = false → u ≠ r := by
    rintro u out rfl
    rw [held] at out
    contradiction
  have run := behind.begun r held
  have busy : prog.work s.object (s.place r) ≠ none := by
    rw [done]
    exact Option.some_ne_none _
  by_cases finished : prog.work object place = none
  · have whole : prog.Whole (c.object,c.place r) (object,place) := ⟨Relation.TransGen.tail' run done,finished⟩
    refine ⟨{ c with object := object, place := update c.place r place },.inl ⟨busy,.inr ⟨?_,whole.busy⟩⟩,?_⟩
    · refine .work ?_ whole
      rw [behind.monitor]
      exact free
    · refine ⟨behind.monitor,?_,?_,?_,?_⟩
      · intro u out
        dsimp only
        rw [update_of_ne (other u out),update_of_ne (other u out)]
        exact behind.outside u out
      · intro _
        rfl
      · intro u held'
        obtain rfl := exclusive.only held held'
        dsimp only
        rw [update_self,update_self]
      · intro u held' _
        obtain rfl := exclusive.only held held'
        dsimp only
        rw [update_self,update_self]
        exact ⟨rfl,rfl⟩
  · refine ⟨c,.inl ⟨busy,.inl rfl⟩,⟨behind.monitor,?_,?_,?_,?_⟩⟩
    · intro u out
      dsimp only
      rw [update_of_ne (other u out)]
      exact behind.outside u out
    · intro nobody
      exact absurd rfl (other r (nobody r))
    · intro u held'
      obtain rfl := exclusive.only held held'
      dsimp only
      rw [update_self]
      exact run.tail done
    · intro u held' ended
      obtain rfl := exclusive.only held held'
      dsimp only at ended
      rw [update_self] at ended
      exact absurd ended finished

/-- A call of the monitor is one on both sides: whoever calls has finished its own region. -/
theorem Behind.calls (behind : Behind prog c s) (exclusive : Exclusive prog s)
    (running : s.monitor.places.ring.head? = some r) {op : MonitorOp κ τ} {monitor : Monitor κ τ} {place : P}
    (allowed : s.monitor.Allowed r op) (done : s.monitor.effect r op = some monitor)
    (goes : prog.calls (s.place r) op (monitor.holds r) place) :
    ∃ c', Follows prog r s { s with monitor := monitor, place := update s.place r place } c c' ∧
      Behind prog c' { s with monitor := monitor, place := update s.place r place } := by
  by_cases held : s.monitor.holds r = true
  · have same : c = s := by
      refine behind.same (fun u held' => ?_)
      rw [exclusive.only held held']
      exact prog.calls_idle goes _
    rw [same]
    exact ⟨_,.inr ⟨.call allowed done goes,rfl,rfl⟩,.refl ..⟩
  · have out : s.monitor.holds r = false := Bool.eq_false_iff.mpr held
    have later : monitor.Sound := Monitor.step_sound exclusive.sound ⟨r,op,running,allowed,done⟩
    -- who gets the lock finds it free
    have nobody : monitor.holds r = true → ∀ v, s.monitor.holds v = false := by
      intro held' v
      by_cases mine : v = r
      · rw [mine]
        exact out
      · rw [← effect_holds running done mine,← Bool.not_eq_true]
        exact fun too => mine (later.one v r too held')
    refine ⟨{ c with monitor := monitor, place := update c.place r place },.inr ⟨?_,behind.outside r out,?_⟩,
      ⟨rfl,?_,?_,?_,?_⟩⟩
    · rw [← behind.monitor] at allowed done
      rw [← behind.outside r out] at goes
      exact .call allowed done goes
    · dsimp only
      rw [update_self,update_self]
    · intro u free
      dsimp only at free ⊢
      by_cases same : u = r
      · rw [same,update_self,update_self]
      · rw [effect_holds running done same] at free
        rw [update_of_ne same,update_of_ne same]
        exact behind.outside u free
    · intro nobody
      refine behind.free (fun u => ?_)
      by_cases same : u = r
      · rw [same]
        exact out
      · rw [← effect_holds running done same]
        exact nobody u
    · intro u held'
      dsimp only at held' ⊢
      by_cases same : u = r
      · rw [same] at held'
        rw [same,update_self,update_self,behind.free (nobody held')]
      · rw [effect_holds running done same] at held'
        rw [update_of_ne same,update_of_ne same]
        exact behind.begun u held'
    · intro u held' ended
      dsimp only at held' ended ⊢
      by_cases same : u = r
      · rw [same] at held'
        rw [same,update_self,update_self]
        exact ⟨behind.free (nobody held'),rfl⟩
      · rw [effect_holds running done same] at held'
        rw [update_of_ne same] at ended ⊢
        rw [update_of_ne same]
        exact behind.done u held' ended

theorem step_behind (exclusive : Exclusive prog s) (behind : Behind prog c s)
    (running : s.monitor.places.ring.head? = some r) (does : s.Does prog prog.Small r t) :
    ∃ c', Follows prog r s t c c' ∧ Behind prog c' t := by
  have idle : ∀ u, s.place u = prog.idle → c.place u = prog.idle := by
    intro u outside
    rw [← outside]
    refine behind.outside u ?_
    rw [exclusive.inside,outside,prog.idle_outside]
  -- operations that are no part of a region: whoever runs may be in the middle of one
  have apart : ∀ {op m}, op = MonitorOp.switch ∨ (∃ t, op = .create t) ∨ op = .exit → s.monitor.effect r op = some m →
      c.Does prog prog.Whole r { c with monitor := m } →
      ∃ c', Follows prog r s { s with monitor := m } c c' ∧ Behind prog c' { s with monitor := m } := by
    intro op m kind done same
    refine ⟨_,?_,behind.apart (effect_apart kind done)⟩
    by_cases busy : prog.work s.object (s.place r) = none
    · have place : c.place r = s.place r := by
        cases held : s.monitor.holds r with
        | false => exact behind.outside r held
        | true => exact (behind.done r held busy).2
      exact .inr ⟨same,place,place⟩
    · refine .inl ⟨busy,.inr ⟨same,?_⟩⟩
      have held : s.monitor.holds r = true := by
        obtain ⟨next,found⟩ := Option.ne_none_iff_exists'.mp busy
        rw [exclusive.inside]
        exact (prog.work_inside found).1
      rcases (behind.begun r held).cases_head with same | ⟨_,step,_⟩
      · obtain ⟨object,place⟩ := Prod.mk.inj same
        rw [object,place]
        exact busy
      · rw [show prog.work c.object (c.place r) = some _ from step]
        exact Option.some_ne_none _
  cases does with
  | work free done => exact behind.works exclusive free done
  | call allowed done goes => exact behind.calls exclusive running allowed done goes
  | switch allowed done =>
    refine apart (.inl rfl) done (.switch ?_ ?_)
    · rw [behind.monitor]
      exact allowed
    · rw [behind.monitor]
      exact done
  | create allowed fresh done =>
    refine apart (.inr (.inl ⟨_,rfl⟩)) done (.create ?_ (idle _ fresh) ?_)
    · rw [behind.monitor]
      exact allowed
    · rw [behind.monitor]
      exact done
  | exit allowed outside done =>
    refine apart (.inr (.inr rfl)) done (.exit ?_ (idle _ outside) ?_)
    · rw [behind.monitor]
      exact allowed
    · rw [behind.monitor]
      exact done

theorem Follows.steps {c' : Guarded κ τ σ P} (follows : Follows prog r s t c c')
    (running : c.monitor.places.ring.head? = some r) : Relation.ReflTransGen (Step prog prog.Whole) c c' := by
  rcases follows with ⟨_,rfl | ⟨does,_⟩⟩ | ⟨does,_⟩
  · exact .refl
  · exact .single ⟨r,running,does⟩
  · exact .single ⟨r,running,does⟩

theorem reached_behind (reached : Reach (Initial prog first) (Step prog prog.Small) s) :
    Exclusive prog s ∧ ∃ c, Reach (Initial prog first) (Step prog prog.Whole) c ∧ Behind prog c s := by
  refine reached.invariant (fun s => Exclusive prog s ∧ ∃ c, Reach (Initial prog first) (Step prog prog.Whole) c ∧
    Behind prog c s) ?_ ?_
  · intro s initial
    exact ⟨initial_exclusive initial,s,.start initial,.refl ..⟩
  · rintro s t ⟨exclusive,c,⟨start,begins,run⟩,behind⟩ ⟨r,running,does⟩
    obtain ⟨c',follows,behind'⟩ := step_behind exclusive behind running does
    have head : c.monitor.places.ring.head? = some r := by
      rw [behind.monitor]
      exact running
    exact ⟨step_exclusive small_within exclusive ⟨r,running,does⟩,c',⟨start,begins,run.trans (follows.steps head)⟩,behind'⟩

/-- What a thread does while it holds the lock is atomic: whatever the program and the object, and
wherever the timer takes a thread, every state of the system is a state of the system with whole
regions, with a part of the holder's region done; and it is that state itself when no region is
in progress. -/
theorem lock_regions_atomic (prog : LockProgram κ τ σ P) (first : σ) (s : Guarded κ τ σ P)
    (reached : Reach (Initial prog first) (Step prog prog.Small) s) :
    (∃ c, Reach (Initial prog first) (Step prog prog.Whole) c ∧ Behind prog c s) ∧
    ((∀ r, s.monitor.holds r = true → prog.work s.object (s.place r) = none) →
      Reach (Initial prog first) (Step prog prog.Whole) s) := by
  obtain ⟨_,c,atomic,behind⟩ := reached_behind reached
  refine ⟨⟨c,atomic,behind⟩,?_⟩
  intro settled
  rw [← behind.same settled]
  exact atomic

end Guarded

end RudimentaryKernel
