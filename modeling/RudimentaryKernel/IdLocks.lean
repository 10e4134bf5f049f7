import RudimentaryKernel.IdReferences

/-! Who gives back the lock of a record. From any state without a call in progress, threads open and
close ids, whether the ids are live or not. A call that finds a count returns with the lock released.
One that finds none returns with the lock taken, for good; so does one that never returns because
`reaping_func` has marked its thread and the thread is switched out on the way. -/
namespace RudimentaryKernel

open Function ByteMemory IdPool

namespace IdThreads

variable {κ : Type} {n i : Nat}

/-- The status of the lock in the record of an id, 0 for `UNLOCKED`. -/
def lock (r : IdThreads κ) (id : Nat) : Nat := load r.memory 4 (idLock r.memory r.pool id)

/-- No call is in progress on a pool of `n` ids, and no lock of a record is taken. -/
structure Quiet (n : Nat) (r : IdThreads κ) : Prop where
  laid : Laid r.memory r.pool n
  idle : ∀ u, r.phase u = .idle
  unlocked : ∀ id < n, r.lock id = 0

def Counts (r : IdThreads κ) (u : κ) : Prop :=
  ∀ use id, r.phase u = .tests use id → count r.memory r.pool id ≠ 0

def Calls (n : Nat) : IdEvent κ → Prop
  | .next _ _ => False
  | .start _ _ id => id < n
  | .advance _ | .leaves _ => True

/-- A call finds a count, and a thread that is switched out for good is in no call behind its
`acquire`. -/
def Orderly (r : IdThreads κ) : IdEvent κ → Prop
  | .advance u => r.Counts u
  | .leaves u => ∀ id, ¬(r.phase u).Inside id
  | .next _ _ | .start _ _ _ => True

variable [DecidableEq κ] {r t : IdThreads κ} {u : κ}

def CallStep (n : Nat) (r t : IdThreads κ) : Prop := ∃ e, Calls n e ∧ r.perform e = some t

def OrderlyStep (n : Nat) (r t : IdThreads κ) : Prop := ∃ e, Calls n e ∧ r.Orderly e ∧ r.perform e = some t

/-- The lock is taken while a thread is between its `acquire` and the end of its call, and there is
one such thread at most. -/
structure Held (n : Nat) (r : IdThreads κ) : Prop where
  laid : Laid r.memory r.pool n
  target : ∀ u id, (r.phase u).target = some id → id < n
  calls : ∀ u id ptr, r.phase u ≠ .writes id ptr
  stays : ∀ u, r.left u = true → (r.phase u).site = none
  held : ∀ id < n, ∃ holder, Traced IdPhase.site r.phase id holder ∧
    (entry r.memory r.pool n id).lock = holder.elim 0 (fun _ => 1)

omit [DecidableEq κ] in
theorem lock_eq (laid : Laid r.memory r.pool n) (inside : i < n) : r.lock i = (entry r.memory r.pool n i).lock := by
  rw [lock,idLock,laid.idToAddress_eq inside]
  rfl

omit [DecidableEq κ] in
theorem Quiet.held (quiet : Quiet n r) : Held n r := by
  refine ⟨quiet.laid,?_,?_,fun u _ => by rw [quiet.idle]; rfl,?_⟩
  · intro u id target
    rw [quiet.idle] at target
    cases target
  · intro u id ptr same
    rw [quiet.idle] at same
    cases same
  · intro id inside
    refine ⟨none,fun u => ?_,?_⟩
    · rw [quiet.idle]
      exact iff_of_false (Option.some_ne_none _).symm (Option.some_ne_none _).symm
    · rw [← lock_eq quiet.laid inside]
      exact quiet.unlocked id inside

theorem call_acquires (r : IdThreads κ) (u : κ) (use : IdUse) (i : Nat) :
    (r.goto u (.acquires use i)).advance u = if r.lock i = 1 then none
      else some ({ r with memory := store r.memory 4 (idLock r.memory r.pool i) 1 }.goto u (.tests use i)) := by
  have at' : (r.goto u (.acquires use i)).phase u = .acquires use i := update_self ..
  simp only [advance,at']
  refine if_congr Iff.rfl rfl (congrArg some ?_)
  simp only [goto,update_idem]

/-- Behind its `acquire` a thread never waits. It stays inside and leaves the lock as it is, or it
returns and releases it. -/
theorem advance_inside (laid : Laid r.memory r.pool n) (inside : i < n) (site : (r.phase u).site = some i)
    (counts : r.Counts u) : ∃ t p e, r.advance u = some t ∧ t.pool = r.pool ∧ t.phase = update r.phase u p ∧
      t.left = r.left ∧
      Entered r.memory t.memory r.pool n i e ∧
      (p.site = some i ∧ e.lock = (entry r.memory r.pool n i).lock ∨ p = .idle ∧ e.lock = 0) := by
  have self : Entered r.memory r.memory r.pool n i (entry r.memory r.pool n i) := laid.entered_self
  cases at' : r.phase u with
  | idle | writes _ _ | acquires _ _ =>
    rw [at'] at site
    cases site
  | tests use id =>
    have counted := counts use id at'
    rw [at'] at site
    obtain rfl := Option.some.inj site
    simp only [advance,at',if_neg counted]
    exact ⟨_,_,_,rfl,rfl,rfl,rfl,self,.inl ⟨rfl,rfl⟩⟩
  | loads use id =>
    rw [at'] at site
    obtain rfl := Option.some.inj site
    simp only [advance,at']
    exact ⟨_,_,_,rfl,rfl,rfl,rfl,self,.inl ⟨rfl,rfl⟩⟩
  | stores use id value =>
    rw [at'] at site
    obtain rfl := Option.some.inj site
    cases use with
    | opens =>
      simp only [advance,at']
      exact ⟨_,_,_,rfl,rfl,rfl,rfl,laid.entered_count inside _,.inl ⟨rfl,rfl⟩⟩
    | closes =>
      simp only [advance,at']
      exact ⟨_,_,_,rfl,rfl,rfl,rfl,laid.entered_count inside _,.inl ⟨rfl,rfl⟩⟩
  | retests id =>
    rw [at'] at site
    obtain rfl := Option.some.inj site
    simp only [advance,at']
    split
    all_goals exact ⟨_,_,_,rfl,rfl,rfl,rfl,self,.inl ⟨rfl,rfl⟩⟩
  | reaps id =>
    rw [at'] at site
    obtain rfl := Option.some.inj site
    simp only [advance,at']
    exact ⟨_,_,_,rfl,rfl,rfl,rfl,self,.inl ⟨rfl,rfl⟩⟩
  | frees id =>
    rw [at'] at site
    obtain rfl := Option.some.inj site
    obtain ⟨memory,freed,entered⟩ := laid.entered_free inside
    simp only [advance,at',freed,Option.map_some]
    exact ⟨_,_,_,rfl,rfl,rfl,rfl,entered,.inl ⟨rfl,rfl⟩⟩
  | releases use id =>
    rw [at'] at site
    obtain rfl := Option.some.inj site
    simp only [advance,at']
    exact ⟨_,_,_,rfl,rfl,rfl,rfl,laid.entered_lock inside (by decide),.inr ⟨rfl,rfl⟩⟩

theorem Held.step (held : Held n r) {p : IdPhase} {e : IdEntry} (inside : i < n)
    (entered : Entered r.memory t.memory r.pool n i e) (pool : t.pool = r.pool)
    (phase : t.phase = update r.phase u p) (left : t.left = r.left) (runs : r.left u = false) (before : ∀ id, (r.phase u).target = some id → id = i)
    (after : ∀ id, p.target = some id → id = i) (calls : ∀ id ptr, p ≠ .writes id ptr)
    (holder : ∃ holder, Traced IdPhase.site (update r.phase u p) i holder ∧ e.lock = holder.elim 0 (fun _ => 1)) :
    Held n t where
  laid := pool ▸ entered.1
  target := by
    rw [phase,forall_update_iff r.phase (fun _ q => ∀ id, q.target = some id → id < n)]
    exact ⟨fun id same => after id same ▸ inside,fun v _ => held.target v⟩
  calls := by
    rw [phase,forall_update_iff r.phase (fun _ q => ∀ id ptr, q ≠ .writes id ptr)]
    exact ⟨calls,fun v _ => held.calls v⟩
  stays := by
    intro v gone
    rw [left] at gone
    have other : v ≠ u := by
      rintro rfl
      rw [runs] at gone
      cases gone
    rw [phase,update_of_ne other]
    exact held.stays v gone
  held := by
    intro j below
    rw [pool,entered.2 j below,phase]
    by_cases same : j = i
    · subst j
      rw [update_self]
      exact holder
    · obtain ⟨holder,traced,taken⟩ := held.held j below
      rw [update_of_ne same]
      refine ⟨holder,traced.stay (iff_of_false ?_ ?_),taken⟩
      · exact fun site => same (after j (IdPhase.target_of_site site))
      · exact fun site => same (before j (IdPhase.target_of_site site))

theorem Held.advanced (held : Held n r) (counts : r.Counts u) (runs : r.left u = false)
    (done : r.advance u = some t) : Held n t := by
  cases at' : r.phase u with
  | idle => simp [advance,at'] at done
  | writes id ptr => exact absurd at' (held.calls u id ptr)
  | acquires use id =>
    have target : (r.phase u).target = some id := by rw [at']; rfl
    have inside := held.target u id target
    obtain ⟨holder,traced,taken⟩ := held.held id inside
    have status : load r.memory 4 (idLock r.memory r.pool id) = holder.elim 0 (fun _ => 1) :=
      (lock_eq held.laid inside).trans taken
    simp only [advance,at',status] at done
    cases holder with
    | some v => cases done
    | none =>
      obtain rfl := Option.some.inj done
      refine held.step (p := .tests use id) inside (held.laid.entered_lock inside (by decide)) rfl rfl rfl runs ?_ ?_
        (by simp) ⟨some u,traced.enter rfl,rfl⟩
      · exact fun j same => Option.some.inj (same.symm.trans target)
      · exact fun j same => (Option.some.inj same).symm
  | tests use id | loads use id | stores use id value | retests id | reaps id | frees id | releases use id =>
    have site : (r.phase u).site = some id := by rw [at']; rfl
    have target := IdPhase.target_of_site site
    have inside := held.target u id target
    obtain ⟨holder,traced,taken⟩ := held.held id inside
    obtain ⟨t',p,e,again,pool,phase,left,entered,next⟩ := advance_inside held.laid inside site counts
    obtain rfl := Option.some.inj (again.symm.trans done)
    have mine : holder = some u := (traced u).mp site
    subst mine
    rcases next with ⟨stays,kept⟩ | ⟨rfl,released⟩
    · refine held.step inside entered pool phase left runs (fun j same => Option.some.inj (same.symm.trans target)) ?_ ?_
        ⟨some u,traced.stay (iff_of_true stays site),kept.trans taken⟩
      · exact fun j same => Option.some.inj (same.symm.trans (IdPhase.target_of_site stays))
      · rintro j ptr rfl
        cases stays
    · exact held.step inside entered pool phase left runs (fun j same => Option.some.inj (same.symm.trans target))
        (fun j none => by cases none) (by simp) ⟨none,traced.leave (by simp [IdPhase.site]),released⟩

theorem Held.orderly_step (held : Held n r) (step : r.OrderlyStep n t) : Held n t := by
  obtain ⟨e,calls,orderly,done⟩ := step
  cases e with
  | next u ptr => exact calls.elim
  | start u use id =>
    rw [perform] at done
    split at done
    · rename_i begin
      cases done
      obtain ⟨holder,traced,taken⟩ := held.held id calls
      refine held.step (p := .acquires use id) calls held.laid.entered_self rfl rfl rfl begin.2 ?_ ?_ (by simp)
        ⟨holder,traced.stay (by rw [begin.1]; rfl),taken⟩
      · rw [begin.1]
        exact fun _ none => by cases none
      · exact fun j same => (Option.some.inj same).symm
    · contradiction
  | advance u =>
    rw [perform] at done
    split at done
    · contradiction
    · rename_i runs
      exact held.advanced orderly (Bool.not_eq_true _ ▸ runs) done
  | leaves u =>
    rw [perform] at done
    split at done
    · cases done
      refine ⟨held.laid,held.target,held.calls,?_,held.held⟩
      refine (forall_update_iff r.left (fun v gone => gone = true → (r.phase v).site = none)).mpr ⟨fun _ => ?_,?_⟩
      · exact Option.eq_none_iff_forall_ne_some.mpr orderly
      · exact fun v _ => held.stays v
    · contradiction

/-- In every run of orderly calls, whoever is behind its `acquire` goes on, and when it returns it has
released the lock. Where nobody is inside, the lock is free and the next call does not wait. A call
that finds no count changes nothing but the lock, which it leaves taken, and so does a marked thread
that is switched out inside. -/
theorem id_locks_released (n : Nat) (r : IdThreads κ) (reached : Reach (Quiet n) (OrderlyStep n) r) :
    (∀ u id, (r.phase u).Inside id → r.Counts u →
      ∃ t, r.perform (.advance u) = some t ∧ (t.phase u = .idle → t.lock id = 0)) ∧
    (∀ id < n, (∀ u, ¬(r.phase u).Inside id) → r.lock id = 0 ∧
      ∀ u use, (r.goto u (.acquires use id)).advance u ≠ none) ∧
    (∀ u id, (r.phase u).Inside id → ¬r.Counts u →
      ∃ t, r.perform (.advance u) = some t ∧ t.phase u = .idle ∧ t.memory = r.memory ∧ t.lock id = 1) ∧
    ∀ u id t, (r.phase u).Inside id → r.perform (.leaves u) = some t →
      t.lock id = 1 ∧ t.perform (.advance u) = none := by
  have held : Held n r :=
    reached.invariant (Held n) (fun _ quiet => quiet.held) (fun _ _ held step => held.orderly_step step)
  have runs : ∀ u id, (r.phase u).Inside id → r.left u = false := by
    intro u id site
    by_contra gone
    rw [IdPhase.Inside,held.stays u (by simpa using gone)] at site
    cases site
  have taken : ∀ u id, (r.phase u).Inside id → r.lock id = 1 := by
    intro u id site
    have inside := held.target u id (IdPhase.target_of_site site)
    obtain ⟨holder,traced,taken⟩ := held.held id inside
    obtain rfl := (traced u).mp site
    exact (lock_eq held.laid inside).trans taken
  refine ⟨?_,?_,?_,?_⟩
  · intro u id site counts
    have inside := held.target u id (IdPhase.target_of_site site)
    obtain ⟨t,p,e,done,pool,phase,_,entered,next⟩ := advance_inside held.laid inside site counts
    refine ⟨t,by rw [perform,if_neg (by simp [runs u id site]),done],fun idle => ?_⟩
    rw [phase,update_self] at idle
    subst idle
    rcases next with ⟨stays,_⟩ | ⟨_,released⟩
    · cases stays
    · rw [lock_eq (n := n) (pool ▸ entered.1) inside,pool,entered.2 id inside,update_self]
      exact released
  · intro id inside nobody
    obtain ⟨holder,traced,taken⟩ := held.held id inside
    have free : holder = none := by
      cases holder with
      | none => rfl
      | some u => exact absurd ((traced u).mpr rfl) (nobody u)
    subst free
    have unlocked : r.lock id = 0 := (lock_eq held.laid inside).trans taken
    refine ⟨unlocked,fun u use => ?_⟩
    rw [call_acquires,if_neg (by omega)]
    exact Option.some_ne_none _
  · intro u id site stops
    have locked := taken u id site
    have going := runs u id site
    rw [Counts] at stops
    push Not at stops
    obtain ⟨use,other,at',zero⟩ := stops
    rw [IdPhase.Inside,at'] at site
    obtain rfl := Option.some.inj site
    refine ⟨r.goto u .idle,?_,update_self ..,rfl,locked⟩
    rw [perform,if_neg (by simp [going])]
    simp only [advance,at',if_pos zero]
  · intro u id t site done
    rw [perform] at done
    split at done
    · cases done
      refine ⟨taken u id site,?_⟩
      rw [perform,if_pos (update_self ..)]
    · contradiction

def issuedPair (owner : Fin 3) : IdThreads (Fin 3) :=
  let r := (IdCalls.pair owner).threads
  { r with memory := writeId r.memory (idToAddress r.memory 0 0) 7 }

theorem issuedPair_quiet : Quiet 2 (issuedPair 1) := by
  obtain ⟨laid,_⟩ := createPool_spec (fun _ => 0) (show 0 + headerSize + bitmapBytes 2 + 2 * idSize < 2^32 by decide)
  exact ⟨(laid.entered_write (show 0 < 2 by decide) (show 7 < 2^32 by decide)).1,fun _ => rfl,by decide +kernel⟩

def orderlyStep (r : IdThreads (Fin 3)) : IdEvent (Fin 3) → Option (IdThreads (Fin 3))
  | .start u use 0 => r.perform (.start u use 0)
  | .advance u =>
    match r.phase u with
    | .tests _ id => if count r.memory r.pool id = 0 then none else r.perform (.advance u)
    | _ => r.perform (.advance u)
  | .leaves u => if (r.phase u).site = none then r.perform (.leaves u) else none
  | .start _ _ _ | .next _ _ => none

theorem orderlyStep_orderly {r t : IdThreads (Fin 3)} {e : IdEvent (Fin 3)} (done : orderlyStep r e = some t) :
    r.OrderlyStep 2 t := by
  refine ⟨e,?_⟩
  cases e with
  | next u ptr => cases done
  | start u use id =>
    cases id with
    | zero => exact ⟨Nat.zero_lt_two,trivial,done⟩
    | succ id => cases done
  | advance u =>
    unfold orderlyStep at done
    dsimp only at done
    split at done
    · rename_i other id at'
      split at done
      · contradiction
      · rename_i counted
        refine ⟨trivial,fun use id same => ?_,done⟩
        cases at'.symm.trans same
        exact counted
    · rename_i elsewhere
      exact ⟨trivial,fun use id same => absurd same (elsewhere use id),done⟩
  | leaves u =>
    unfold orderlyStep at done
    dsimp only at done
    split at done
    · rename_i outside
      refine ⟨trivial,fun id site => ?_,done⟩
      rw [IdPhase.Inside,outside] at site
      cases site
    · contradiction

/-- A thread opens the id and comes back while another one waits for it to close it, which does so
twice; the object goes, and the marked thread is switched out. -/
def openedAndClosed {κ : Type} (a b : κ) : List (IdEvent κ) :=
  [.start a .opens 0,.advance a,.advance a,.start b .closes 0,.advance a,.advance a,.advance a] ++
    List.replicate 6 (.advance b) ++ .start b .closes 0 :: List.replicate 8 (.advance b) ++ [.leaves b]

/-- All calls have returned, the lock is free, and nobody would wait for it. -/
theorem issued_id_opened : ∃ r : IdThreads (Fin 3), Reach (Quiet 2) (OrderlyStep 2) r ∧
    (∀ u, r.phase u = .idle) ∧ r.handed 0 = [7] ∧ r.left 1 = true ∧ r.lock 0 = 0 ∧
    ∀ u use, (r.goto u (.acquires use 0)).advance u ≠ none := by
  have done : ((openedAndClosed 0 1).foldlM orderlyStep (issuedPair 1)).map (fun r =>
      (decide (∀ u, r.phase u = .idle),r.handed 0,r.left 1)) = some (true,[7],true) := by decide +kernel
  obtain ⟨r,ended,facts⟩ := Option.map_eq_some_iff.mp done
  simp only [Prod.mk.injEq,decide_eq_true_eq] at facts
  obtain ⟨idle,handed,left⟩ := facts
  have reached : Reach (Quiet 2) (OrderlyStep 2) r :=
    Reach.events (fun _ _ _ => orderlyStep_orderly) ended (.start issuedPair_quiet)
  refine ⟨r,reached,idle,handed,left,(id_locks_released 2 r reached).2.1 0 (by decide) (fun u site => ?_)⟩
  rw [IdPhase.Inside,idle] at site
  cases site

/-- A call on an id without references takes its lock and returns. Every further call waits. -/
theorem Quiet.call_uncounted (quiet : Quiet n r) (inside : i < n) (zero : count r.memory r.pool i = 0)
    (runs : r.left u = false) (use : IdUse) : ∃ a b : IdThreads κ,
      (r.goto u (.acquires use i)).perform (.advance u) = some a ∧ a.perform (.advance u) = some b ∧
      (∀ v, b.phase v = .idle) ∧ b.lock i = 1 ∧ ∀ v use, (b.goto v (.acquires use i)).advance v = none := by
  have unlocked := quiet.unlocked i inside
  obtain ⟨laid,entries⟩ := quiet.laid.entered_lock inside (by decide : (1 : Nat) < 2^32)
  have record := entries i inside
  rw [update_self] at record
  generalize memory : store r.memory 4 (idLock r.memory r.pool i) 1 = m at laid record
  have uncounted : count m r.pool i = 0 := by
    rw [← zero,laid.count_eq inside,quiet.laid.count_eq inside]
    exact congrArg IdEntry.count record
  have locked : { r with memory := m }.lock i = 1 := by
    rw [lock_eq laid inside]
    exact congrArg IdEntry.lock record
  refine ⟨{ r with memory := m }.goto u (.tests use i),{ r with memory := m }.goto u .idle,?_,?_,?_,locked,?_⟩
  · rw [perform,if_neg (by simp [goto,runs]),call_acquires,if_neg (by omega),memory]
  · have at' : ({ r with memory := m }.goto u (.tests use i)).phase u = .tests use i := update_self ..
    rw [perform,if_neg (by simp [goto,runs])]
    simp only [advance,at']
    refine (if_pos uncounted).trans (congrArg some ?_)
    simp only [goto,update_idem]
  · exact (forall_update_iff r.phase (fun _ q => q = .idle)).mpr ⟨rfl,fun v _ => quiet.idle v⟩
  · intro v use
    rw [call_acquires]
    exact if_pos locked

theorem pair_quiet : Quiet 2 (IdCalls.pair 1).threads := by
  obtain ⟨laid,_⟩ := createPool_spec (fun _ => 0) (show 0 + headerSize + bitmapBytes 2 + 2 * idSize < 2^32 by decide)
  exact ⟨laid,fun _ => rfl,by decide +kernel⟩

/-- A thread opens an id that was never issued. No call is in progress afterwards, the lock is taken,
and the next thread that opens the id waits. -/
theorem unissued_id_locked : ∃ r : IdThreads (Fin 3), Reach (Quiet 2) (CallStep 2) r ∧
    (∀ u, r.phase u = .idle) ∧ r.lock 0 = 1 ∧ (r.goto 1 (.acquires .opens 0)).advance 1 = none := by
  obtain ⟨a,b,acquired,returned,idle,locked,waits⟩ :=
    pair_quiet.call_uncounted (i := 0) (by decide) (by decide +kernel) rfl .opens (u := 0)
  have start : Reach (Quiet 2) (CallStep 2) (IdCalls.pair 1).threads := .start pair_quiet
  have called := start.advance ⟨.start 0 .opens 0,Nat.zero_lt_two,rfl⟩
  exact ⟨b,(called.advance ⟨.advance 0,trivial,acquired⟩).advance ⟨.advance 0,trivial,returned⟩,idle,locked,
    waits 1 .opens⟩

end IdThreads

end RudimentaryKernel
