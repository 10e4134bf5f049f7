import RudimentaryKernel.ThreadPlacement

/-! `thread_create` with its ring splice cut into the four stores of the source. They stand
in no critical section, so that the timer may come between any two of them. The placement of the
threads holds along every run in which it does not, and is lost in one in which it does. -/
namespace RudimentaryKernel

open Function List RudimentaryKernel.Ring NullList

/-- The four stores that link a new thread, in the order of the source. -/
inductive LinkStore where
  | ownNext
  | ownPrev
  | lastNext
  | firstPrev
  deriving DecidableEq, Repr

namespace Tasks

variable {ι : Type}

/-- One store of the splice. The other branch of `thread_create`, for a `current_running` that
is null, is never taken: `kernel_main` sets it before its first thread. -/
def store (s : Tasks ι) (t : Nat) : LinkStore → Tasks ι
  | .ownNext => { s with next := update s.next t s.currentRunning }
  | .ownPrev => { s with prev := update s.prev t (s.prev s.currentRunning) }
  | .lastNext => { s with next := update s.next (s.prev s.currentRunning) t }
  | .firstPrev => { s with prev := update s.prev s.currentRunning t }

def storedUpTo (s : Tasks ι) (t : Nat) : LinkStore → Tasks ι
  | .ownNext => s
  | .ownPrev => s.store t .ownNext
  | .lastNext => (s.store t .ownNext).store t .ownPrev
  | .firstPrev => ((s.store t .ownNext).store t .ownPrev).store t .lastNext

theorem storedUpTo_current (s : Tasks ι) (t : Nat) (at' : LinkStore) :
    (s.storedUpTo t at').currentRunning = s.currentRunning := by
  cases at' <;> rfl

theorem stored_splice {s : Tasks ι} (real : s.currentRunning ≠ 0) (t : Nat) :
    (s.storedUpTo t .firstPrev).store t .firstPrev = s.splice t := by
  rw [splice,if_pos real]
  rfl

end Tasks

/-- An operation on the threads, with `thread_create` in steps: everything up to the ring, and
then one link store after the other. -/
inductive SpliceOp (ι : Type) where
  | prepare (user : Bool) (grants : Grants)
  | store
  | task (op : TaskOp ι)

def SpliceOp.Calls {ι : Type} : SpliceOp ι → Prop
  | .task (.switch _) | .task (.block _ _) | .task (.unblock _) => True
  | _ => False

/-- The threads, and for each one inside `thread_create` the thread it is about to link and the
store it makes next. -/
structure SpliceRun (ι : Type) where
  threads : TaskRun ι
  creating : Nat → Option (Nat × LinkStore)

namespace SpliceRun

variable {ι : Type}

def running (r : SpliceRun ι) : Nat := r.threads.tasks.currentRunning

/-- The next link store of the running thread. Behind the last one the new thread is created. -/
def link (r : SpliceRun ι) : SpliceRun ι :=
  match r.creating r.running with
  | none => r
  | some (t,.ownNext) =>
    ⟨⟨r.threads.tasks.store t .ownNext,r.threads.alive⟩,update r.creating r.running (some (t,.ownPrev))⟩
  | some (t,.ownPrev) =>
    ⟨⟨r.threads.tasks.store t .ownPrev,r.threads.alive⟩,update r.creating r.running (some (t,.lastNext))⟩
  | some (t,.lastNext) =>
    ⟨⟨r.threads.tasks.store t .lastNext,r.threads.alive⟩,update r.creating r.running (some (t,.firstPrev))⟩
  | some (t,.firstPrev) =>
    ⟨⟨r.threads.tasks.store t .firstPrev,t :: r.threads.alive⟩,update (update r.creating r.running none) t none⟩

/-- No link store of the running thread is behind it while another is to come. -/
def AtRest (r : SpliceRun ι) : Prop := ∀ made ∈ r.creating r.running, made.2 = .ownNext

instance (r : SpliceRun ι) : Decidable r.AtRest :=
  inferInstanceAs (Decidable (∀ made ∈ r.creating r.running, made.2 = .ownNext))

/-- The timer does not come between the link stores of a `thread_create`. -/
def Uncut (r : SpliceRun ι) : SpliceOp ι → Prop
  | .task (.switch _) => r.AtRest
  | _ => True

instance (r : SpliceRun ι) : ∀ op, Decidable (r.Uncut op)
  | .task (.switch _) => inferInstanceAs (Decidable r.AtRest)
  | .prepare _ _ | .store | .task (.create _ _) | .task (.block _ _) | .task (.unblock _) | .task .exit
  | .task .exitNoZombie => isTrue trivial

def Leaves (r : SpliceRun ι) : SpliceOp ι → Prop
  | .task op => r.threads.Leaves op
  | _ => False

section Model

variable [DecidableEq ι]

def perform (fuel : Nat) (r : SpliceRun ι) : SpliceOp ι → Option (Option (SpliceRun ι))
  | .prepare user grants =>
    r.threads.tasks.prepare user grants (fun s => some (some ⟨⟨s,r.threads.alive⟩,r.creating⟩))
      (fun s => some (some ⟨⟨s,r.threads.alive⟩,update r.creating r.running (some (grants.tcb,.ownNext))⟩))
  | .store => some (some r.link)
  | .task op => (r.threads.perform fuel op).map (Option.map (fun threads => ⟨threads,r.creating⟩))

/-- A thread inside `thread_create` only goes on there or is preempted; the control block is
used by no thread and is not being linked by another. -/
def Permitted (r : SpliceRun ι) : SpliceOp ι → Prop
  | .prepare user grants => r.creating r.running = none ∧ r.threads.Permitted (.create user grants) ∧
      ∀ c ∈ r.threads.alive, ∀ made ∈ r.creating c, made.1 ≠ grants.tcb
  | .store => r.creating r.running ≠ none
  | .task (.create _ _) => False
  | .task (.switch _) => True
  | .task op => r.creating r.running = none ∧ r.threads.Permitted op

instance (r : SpliceRun ι) : ∀ op, Decidable (r.Permitted op)
  | .prepare _ _ => inferInstanceAs (Decidable (_ ∧ _ ∧ _))
  | .store => inferInstanceAs (Decidable (_ ≠ _))
  | .task (.create _ _) => isFalse id
  | .task (.switch _) => isTrue trivial
  | .task (.block _ _) | .task (.unblock _) | .task .exit | .task .exitNoZombie =>
    inferInstanceAs (Decidable (_ ∧ _))

def StepWhere (guard : SpliceRun ι → SpliceOp ι → Prop) (r t : SpliceRun ι) : Prop :=
  ∃ op fuel, r.Permitted op ∧ guard r op ∧ r.perform fuel op = some (some t)

def Always (_ : SpliceRun ι) (_ : SpliceOp ι) : Prop := True

instance (r : SpliceRun ι) (op : SpliceOp ι) : Decidable (Always r op) := isTrue trivial

def performAll (guard : SpliceRun ι → SpliceOp ι → Prop) [∀ r op, Decidable (guard r op)] (fuel : Nat) :
    List (SpliceOp ι) → SpliceRun ι → Option (SpliceRun ι)
  | [], r => some r
  | op :: ops, r =>
    if r.Permitted op ∧ guard r op then (r.perform fuel op).join.bind (performAll guard fuel ops) else none

def Boot (r : SpliceRun ι) : Prop := TaskRun.Boot r.threads ∧ r.creating r.running = none

theorem performAll_reach {guard : SpliceRun ι → SpliceOp ι → Prop} [∀ r op, Decidable (guard r op)]
    {ops : List (SpliceOp ι)} {fuel : Nat} {r t : SpliceRun ι} (done : performAll guard fuel ops r = some t)
    (reached : Reach Boot (StepWhere guard) r) : Reach Boot (StepWhere guard) t := by
  induction ops generalizing r with
  | nil => cases done; exact reached
  | cons op ops ih =>
    rw [performAll] at done
    split at done
    · rename_i possible
      obtain ⟨middle,first,later⟩ := Option.bind_eq_some_iff.mp done
      exact ih later (reached.advance ⟨op,fuel,possible.1,possible.2,Option.join_eq_some_iff.mp first⟩)
    · contradiction

end Model

section Splices

variable {r t : SpliceRun ι} {p : Places ι Nat}

/-- Every thread has its place, and the threads about to be linked have none yet. -/
structure Resting (r : SpliceRun ι) (p : Places ι Nat) : Prop where
  placed : r.threads.Placed p
  pending : ∀ c ∈ r.threads.alive, ∀ made ∈ r.creating c, made.2 = .ownNext ∧ made.1 ≠ 0 ∧
    made.1 ∉ r.threads.alive
  apart : ∀ c ∈ r.threads.alive, ∀ d ∈ r.threads.alive, c ≠ d → ∀ made ∈ r.creating c,
    ∀ other ∈ r.creating d, made.1 ≠ other.1

/-- The running thread is at one of its link stores, with the ones before it done. -/
def linking (r : SpliceRun ι) (t : Nat) (at' : LinkStore) : SpliceRun ι :=
  ⟨⟨r.threads.tasks.storedUpTo t at',r.threads.alive⟩,update r.creating r.running (some (t,at'))⟩

/-- Between two steps of a run: at rest, or at a link store of the running thread. -/
def Sound (r : SpliceRun ι) : Prop :=
  ∃ base p, Resting base p ∧ (r = base ∨ ∃ t at', base.creating base.running = some (t,.ownNext) ∧
    at' ≠ .ownNext ∧ r = base.linking t at')

theorem Resting.sound (resting : r.Resting p) : r.Sound := ⟨r,p,resting,.inl rfl⟩

theorem Resting.running_alive (resting : r.Resting p) : r.running ∈ r.threads.alive :=
  (resting.placed.present _).mp (.inl (mem_of_mem_head? resting.placed.represents.running))

theorem boot_sound (boot : r.Boot) : r.Sound := by
  obtain ⟨threads,free⟩ := boot
  have alive : r.threads.alive = [r.running] := threads.2.1
  refine Resting.sound ⟨TaskRun.boot_placed threads,?_,?_⟩
  · rw [alive]
    simp [free]
  · rw [alive]
    simp [free]

theorem Resting.threads (resting : r.Resting p) {threads : TaskRun ι} {p' : Places ι Nat}
    (placed : threads.Placed p') (fewer : threads.alive ⊆ r.threads.alive) :
    Resting ⟨threads,r.creating⟩ p' := by
  refine ⟨placed,?_,?_⟩
  · intro c member made here
    obtain ⟨first,real,fresh⟩ := resting.pending c (fewer member) made here
    exact ⟨first,real,fun alive => fresh (fewer alive)⟩
  · exact fun c one d two => resting.apart c (fewer one) d (fewer two)

theorem Resting.created (resting : r.Resting p) {x : Nat} (here : r.creating r.running = some (x,.ownNext)) :
    Resting ⟨⟨r.threads.tasks.splice x,x :: r.threads.alive⟩,update (update r.creating r.running none) x none⟩
      (p.join x) := by
  have running := resting.running_alive
  obtain ⟨_,real,fresh⟩ := resting.pending r.running running (x,.ownNext) here
  have absent : ¬p.Has x := fun present => fresh ((resting.placed.present x).mp present)
  -- whoever else is about to link a thread is alive before and links another one
  have others : ∀ c ∈ x :: r.threads.alive,
      ∀ made ∈ update (update r.creating r.running none) x none c,
        c ∈ r.threads.alive ∧ c ≠ r.running ∧ made ∈ r.creating c := by
    intro c member made linked
    by_cases new : c = x
    · simp [new] at linked
    rw [update_of_ne new] at linked
    by_cases same : c = r.running
    · simp [same] at linked
    rw [update_of_ne same] at linked
    exact ⟨(mem_cons.mp member).resolve_left new,same,linked⟩
  refine ⟨⟨Tasks.splice_join resting.placed.represents resting.placed.valid absent real,
    Places.join_valid resting.placed.valid absent,?_,nodup_cons.mpr ⟨fresh,resting.placed.nodup⟩⟩,?_,?_⟩
  · intro v
    rw [Places.has_join,resting.placed.present,mem_cons,or_comm]
  · intro c member made linked
    obtain ⟨alive,other,linked⟩ := others c member made linked
    obtain ⟨first,real,outside⟩ := resting.pending c alive made linked
    refine ⟨first,real,?_⟩
    rw [mem_cons]
    rintro (same | member)
    · exact resting.apart c alive r.running running other made linked (x,.ownNext) here same
    · exact outside member
  · intro c one d two different made first other second
    obtain ⟨alive,_,first⟩ := others c one made first
    obtain ⟨also,_,second⟩ := others d two other second
    exact resting.apart c alive d also different made first other second

theorem linking_creating (r : SpliceRun ι) (x : Nat) (at' : LinkStore) :
    (r.linking x at').creating (r.linking x at').running = some (x,at') := by
  have current : (r.linking x at').running = r.running := Tasks.storedUpTo_current ..
  rw [current]
  exact update_self ..

theorem linking_next (r : SpliceRun ι) (x : Nat) {at' : LinkStore} (before : at' = .ownPrev ∨ at' = .lastNext) :
    ∃ later, later ≠ .ownNext ∧ (r.linking x at').link = r.linking x later := by
  have creating := r.linking_creating x at'
  have current : (r.linking x at').running = r.running := Tasks.storedUpTo_current ..
  rcases before with rfl | rfl
  · refine ⟨.lastNext,by simp,?_⟩
    rw [link,creating]
    dsimp only
    rw [current]
    simp [linking,Tasks.storedUpTo]
  · refine ⟨.firstPrev,by simp,?_⟩
    rw [link,creating]
    dsimp only
    rw [current]
    simp [linking,Tasks.storedUpTo]

theorem link_sound (sound : r.Sound) (inside : r.creating r.running ≠ none) : r.link.Sound := by
  obtain ⟨base,p,resting,rfl | ⟨x,at',here,later,rfl⟩⟩ := sound
  · obtain ⟨⟨x,at'⟩,here⟩ := Option.ne_none_iff_exists'.mp inside
    obtain ⟨rfl,_⟩ := resting.pending r.running resting.running_alive (x,at') here
    refine ⟨r,p,resting,.inr ⟨x,.ownPrev,here,by simp,?_⟩⟩
    rw [link,here]
    rfl
  have creating := base.linking_creating x at'
  have current : (base.linking x at').running = base.running := Tasks.storedUpTo_current ..
  cases at' with
  | ownNext => exact absurd rfl later
  | ownPrev =>
    obtain ⟨next,further,same⟩ := base.linking_next x (.inl rfl)
    exact ⟨base,p,resting,.inr ⟨x,next,here,further,same⟩⟩
  | lastNext =>
    obtain ⟨next,further,same⟩ := base.linking_next x (.inr rfl)
    exact ⟨base,p,resting,.inr ⟨x,next,here,further,same⟩⟩
  | firstPrev =>
    have real : base.threads.tasks.currentRunning ≠ 0 :=
      resting.placed.represents.real _ (mem_of_mem_head? resting.placed.represents.running)
    refine ⟨_,_,resting.created here,.inl ?_⟩
    rw [link,creating]
    dsimp only
    rw [current]
    change SpliceRun.mk ⟨(base.threads.tasks.storedUpTo x .firstPrev).store x .firstPrev,_⟩ _ = _
    rw [Tasks.stored_splice real]
    simp [linking]

theorem Sound.resting (sound : r.Sound) (rest : r.AtRest) : ∃ p, r.Resting p := by
  obtain ⟨base,p,resting,rfl | ⟨x,at',_,later,rfl⟩⟩ := sound
  · exact ⟨p,resting⟩
  · exact absurd (rest (x,at') (base.linking_creating x at')) later

theorem atRest_of_idle (idle : r.creating r.running = none) : r.AtRest := by
  intro made here
  rw [idle] at here
  contradiction

theorem remaining_subset (threads : TaskRun ι) : threads.remaining ⊆ threads.alive := by
  unfold TaskRun.remaining
  split <;> simp [erase_subset]

theorem Permitted.atRest {op : TaskOp ι} (permitted : r.Permitted (.task op)) (uncut : r.Uncut (.task op)) :
    r.AtRest := by
  cases op with
  | create _ _ => exact permitted.elim
  | switch _ => exact uncut
  | _ => exact atRest_of_idle permitted.1

variable [DecidableEq ι]

theorem Resting.prepared (resting : r.Resting p) {user : Bool} {grants : Grants}
    (permitted : r.Permitted (.prepare user grants)) :
    ∃ t, r.perform 0 (.prepare user grants) = some (some t) ∧ t.Resting p := by
  obtain ⟨idle,⟨outside,sized⟩,unused⟩ := permitted
  have absent : ¬p.Has grants.tcb := fun present => outside ((resting.placed.present _).mp present)
  have placedAt : ∀ u, Tasks.OnlyAt r.threads.tasks u grants.tcb →
      TaskRun.Placed ⟨u,r.threads.alive⟩ p := fun u only =>
    ⟨resting.placed.represents.elsewhere absent only,resting.placed.valid,resting.placed.present,
      resting.placed.nodup⟩
  obtain ⟨u,only,refused | ⟨granted,made⟩⟩ := Tasks.prepare_cases r.threads.tasks user grants
    (fun s => some (some (SpliceRun.mk ⟨s,r.threads.alive⟩ r.creating)))
    (fun s => some (some ⟨⟨s,r.threads.alive⟩,update r.creating r.running (some (grants.tcb,.ownNext))⟩))
  · exact ⟨_,refused,resting.threads (placedAt u only) (Subset.refl _)⟩
  · have real : grants.tcb ≠ 0 := fun null => granted (sized null)
    refine ⟨_,made,placedAt u only,?_,?_⟩
    · intro c member made here
      by_cases same : c = r.running
      · rw [same] at here
        simp only [update_self,Option.mem_def,Option.some.injEq] at here
        rw [← here]
        exact ⟨rfl,real,outside⟩
      · dsimp only at here
        rw [update_of_ne same] at here
        exact resting.pending c member made here
    · intro c one d two different made first other second
      dsimp only at first second
      by_cases same : c = r.running
      · have apart : d ≠ r.running := fun also => different (same.trans also.symm)
        rw [same] at first
        rw [update_of_ne apart] at second
        simp only [update_self,Option.mem_def,Option.some.injEq] at first
        rw [← first]
        exact fun clash => unused d two other second clash.symm
      rw [update_of_ne same] at first
      by_cases also : d = r.running
      · rw [also] at second
        simp only [update_self,Option.mem_def,Option.some.injEq] at second
        rw [← second]
        exact unused c one made first
      · rw [update_of_ne also] at second
        exact resting.apart c one d two different made first other second

theorem alive_subset {threads after : TaskRun ι} {op : TaskOp ι} {fuel : Nat}
    (other : ∀ user grants, op ≠ .create user grants) (done : threads.perform fuel op = some (some after)) :
    after.alive ⊆ threads.alive := by
  cases op with
  | create user grants => exact absurd rfl (other user grants)
  | switch oldEsp =>
    obtain ⟨_,_,rfl⟩ := Option.map_eq_some_iff.mp (Option.some.inj done)
    exact remaining_subset threads
  | block q oldEsp =>
    obtain ⟨_,_,outcome⟩ := Option.map_eq_some_iff.mp done
    obtain ⟨_,_,rfl⟩ := Option.map_eq_some_iff.mp outcome
    exact Subset.refl _
  | unblock q | exit | exitNoZombie =>
    obtain rfl := Option.some.inj (Option.some.inj done)
    exact Subset.refl _

theorem Resting.performed (resting : r.Resting p) {op : TaskOp ι} (permitted : r.Permitted (.task op)) :
    ∃ fuel, (r.perform fuel (.task op) = some none ∧ p.ring = [r.running] ∧ r.Leaves (.task op)) ∨
      ∃ t p', r.perform fuel (.task op) = some (some t) ∧ t.Resting p' := by
  have allowed : r.threads.Permitted op := by
    cases op with
    | create _ _ => exact permitted.elim
    | switch _ => trivial
    | _ => exact permitted.2
  obtain ⟨fuel,⟨halted,alone,leaves⟩ | ⟨threads,p',done,placed,_⟩⟩ := TaskRun.perform_placed resting.placed allowed
  · exact ⟨fuel,.inl ⟨by simp [perform,halted],alone,leaves⟩⟩
  · refine ⟨fuel,.inr ⟨⟨threads,r.creating⟩,p',by simp [perform,done],resting.threads placed ?_⟩⟩
    refine alive_subset ?_ done
    rintro user grants rfl
    exact permitted

theorem perform_unique {op : SpliceOp ι} {fuel other : Nat} {first second : Option (SpliceRun ι)}
    (one : r.perform fuel op = some first) (two : r.perform other op = some second) : first = second := by
  cases op with
  | task op =>
    obtain ⟨_,done,rfl⟩ := Option.map_eq_some_iff.mp one
    obtain ⟨_,done',rfl⟩ := Option.map_eq_some_iff.mp two
    rw [TaskRun.perform_unique done done']
  | _ => exact Option.some.inj (one.symm.trans two)

/-- A step that does not cut a splice leads from a sound state to a sound one, and behind a call
of the scheduler or of `unblock` the threads are at rest. -/
theorem step_sound (sound : r.Sound) {op : SpliceOp ι} {fuel : Nat} (permitted : r.Permitted op)
    (uncut : r.Uncut op) (done : r.perform fuel op = some (some t)) :
    t.Sound ∧ (op.Calls → ∃ p, t.Resting p) := by
  cases op with
  | prepare user grants =>
    obtain ⟨p,resting⟩ := sound.resting (atRest_of_idle permitted.1)
    obtain ⟨u,made,after⟩ := resting.prepared permitted
    obtain rfl := Option.some.inj (perform_unique done made)
    exact ⟨after.sound,False.elim⟩
  | store =>
    obtain rfl := Option.some.inj (Option.some.inj done)
    exact ⟨link_sound sound permitted,False.elim⟩
  | task op =>
    obtain ⟨p,resting⟩ := sound.resting (permitted.atRest uncut)
    obtain ⟨enough,⟨halted,_⟩ | ⟨u,p',moved,after⟩⟩ := resting.performed permitted
    · have impossible := perform_unique done halted
      contradiction
    · obtain rfl := Option.some.inj (perform_unique done moved)
      exact ⟨after.sound,fun _ => ⟨p',after⟩⟩

theorem reached_sound (reached : Reach Boot (StepWhere Uncut) r) : r.Sound := by
  refine reached.invariant Sound (fun _ boot => boot_sound boot) ?_
  rintro r t sound ⟨op,fuel,permitted,uncut,done⟩
  exact (step_sound sound permitted uncut done).1

end Splices

section Witness

def booted : SpliceRun Unit := ⟨TaskRun.booted,fun _ => none⟩

theorem booted_boots : booted.Boot := ⟨⟨by decide,rfl,rfl,rfl,rfl,fun _ => rfl⟩,rfl⟩

end Witness

end SpliceRun

end RudimentaryKernel
