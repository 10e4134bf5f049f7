import RudimentaryKernel.LockCalls
import RudimentaryKernel.PoolRuns

/-! `Pool::allocate` and `Pool::free` by any number of threads on one pool, with the timer between
any two entries of the search and between the load and the store of a byte of the bitmap. The
calls are as good as made one after the other. -/
namespace RudimentaryKernel

open Function List ByteMemory IdPool

/-- Where a thread is in a call: taking the lock, at an entry of the search, about to load the
byte of an id, about to store it, about to release the lock. -/
inductive PoolPlace where
  | idle
  | locking (op : PoolOp)
  | testing (i : Nat)
  | fetching (op : PoolOp) (id : Nat)
  | storing (op : PoolOp) (id : Nat) (byte : Byte)
  | releasing (op : PoolOp) (answer : Option Nat)

/-- One call, made complete and alone: `allocate` returns an id or `-1`, `free` nothing. -/
def IdPool.perform (pool : Nat) (m : Memory) : PoolOp → Option (Memory × Option Nat)
  | .allocate => (IdPool.allocate m pool).map (fun (m,id) => (m,some id))
  | .free id => (IdPool.free m pool id).map (fun m => (m,none))

namespace PoolPlace

def inside : PoolPlace → Bool
  | .idle | .locking _ => false
  | .testing _ | .fetching _ _ | .storing _ _ _ | .releasing _ _ => true

def start : PoolOp → PoolPlace
  | .allocate => .testing 0
  | .free id => .fetching (.free id) id

def changed (bits : Nat → Byte) (id : Nat) : PoolOp → Byte
  | .allocate => bitmapMark bits id (id / 8)
  | .free _ => bitmapUnmark bits id (id / 8)

def result (id : Nat) : PoolOp → Option Nat
  | .allocate => some id
  | .free _ => none

/-- The words of the lock are the monitor's. -/
def work (pool : Nat) (m : Memory) : PoolPlace → Option (Memory × PoolPlace)
  | .testing i =>
    if i < maxEntries m pool then
      if bitmapGet (bits m pool) i then some (m,.testing (i + 1)) else some (m,.fetching .allocate i)
    else some (m,.releasing .allocate (some allOnes))
  | .fetching op id => some (m,.storing op id (changed (bits m pool) id op))
  | .storing op id byte => some (setBits m pool (id / 8) byte,.releasing op (result id op))
  | .idle | .locking _ | .releasing _ _ => none

def Proper (n : Nat) : PoolOp → Prop
  | .allocate => True
  | .free id => id < n

inductive Calls {τ : Type} (n : Nat) : PoolPlace → MonitorOp Empty τ → Bool → PoolPlace → Prop where
  | acquire {held} (op : PoolOp) (proper : Proper n op) :
      Calls n .idle .acquire held (if held then start op else .locking op)
  | resume {op held} : Calls n (.locking op) .resume held (if held then start op else .locking op)
  | release {op a} : Calls n (.releasing op a) .release false .idle

def during : PoolPlace → Option PoolOp
  | .idle => none
  | .testing _ => some .allocate
  | .locking op | .fetching op _ | .storing op _ _ | .releasing op _ => some op

def answer : PoolPlace → Option (Option Nat)
  | .releasing _ a => some a
  | _ => none

/-- A place at which no work has begun, in a call that may be made. -/
def Between (n : Nat) (p : PoolPlace) : Prop :=
  p = .idle ∨ ∃ op, Proper n op ∧ (p = .locking op ∨ p = start op ∨ ∃ a, p = .releasing op a)

theorem start_inside (op : PoolOp) (held : Bool) : inside (if held then start op else .locking op) = held := by
  cases op <;> cases held <;> rfl

end PoolPlace

open PoolPlace in
def poolProgram (τ : Type) (pool n : Nat) : LockProgram Empty τ Memory PoolPlace where
  idle := .idle
  inside := PoolPlace.inside
  work := work pool
  calls := Calls n
  idle_outside := rfl
  work_inside := by
    intro s p t q done
    cases p with
    | testing i =>
      rw [work] at done
      split at done
      · split at done
        · cases done
          exact ⟨rfl,rfl⟩
        · cases done
          exact ⟨rfl,rfl⟩
      · cases done
        exact ⟨rfl,rfl⟩
    | fetching op id =>
      cases done
      exact ⟨rfl,rfl⟩
    | storing op id byte =>
      cases done
      exact ⟨rfl,rfl⟩
    | idle | locking _ | releasing _ _ => contradiction
  calls_inside := by
    intro p op held q calls
    cases calls with
    | acquire op _ => exact start_inside op held
    | resume => exact start_inside _ held
    | release => rfl
  calls_idle := by
    intro p op held q calls s
    cases calls <;> rfl

section Interrupted

def poolOfThree : Memory := IdPool.createPool 4 0 (fun _ => 0) 3 0

theorem poolOfThree_stands : Stands poolOfThree 0 3 := MemoryLayout.createPool_stands 4 0 _ 0 (by decide)

def threeCallers : Guarded Empty (Fin 3) Memory PoolPlace :=
  ⟨Monitor.three Empty,poolOfThree,fun _ => .idle⟩

theorem found_clear : ∃ s, Reach (Guarded.Initial (poolProgram (Fin 3) 0 3) poolOfThree)
    (Guarded.Step (poolProgram (Fin 3) 0 3) (poolProgram (Fin 3) 0 3).Small) s ∧
    s.monitor.places.ring = [0,1,2] ∧ s.monitor.doing 0 = .free ∧ s.object = poolOfThree ∧
    s.place 0 = .fetching .allocate 0 := by
  have start : Reach (Guarded.Initial (poolProgram (Fin 3) 0 3) poolOfThree)
      (Guarded.Step (poolProgram (Fin 3) 0 3) (poolProgram (Fin 3) 0 3).Small) threeCallers :=
    .start ⟨⟨Monitor.three_valid Empty,fun _ => rfl,rfl,fun _ => ⟨rfl,rfl⟩⟩,rfl,fun _ => rfl⟩
  have entries : maxEntries poolOfThree 0 = 3 := poolOfThree_stands.entries
  have clear : bitmapGet (bits poolOfThree 0) 0 = false := by
    have zero : poolOfThree (bitPlace 0 0) = 0 := MemoryLayout.createPool_clear _ 0 (by decide) (.inl rfl) (by decide)
    rw [bitmapGet,poolOfThree_stands.bits_eq,zero]
    rfl
  have found : PoolPlace.work 0 poolOfThree (.testing 0) = some (poolOfThree,.fetching .allocate 0) := by
    rw [PoolPlace.work,entries,if_pos (by decide),clear]
    rfl
  have held := start.advance ⟨0,rfl,.call (show threeCallers.monitor.Allowed 0 .acquire from rfl) rfl
    (PoolPlace.Calls.acquire .allocate trivial)⟩
  exact ⟨_,held.advance ⟨0,rfl,.work rfl found⟩,rfl,rfl,rfl,rfl⟩

/-- A timer interrupt there leaves a state that a system of whole calls is ahead of or at. -/
theorem interrupted_search : ∃ s c : Guarded Empty (Fin 3) Memory PoolPlace, s.place 0 = .fetching .allocate 0 ∧
    s.monitor.places.ring = [1,2,0] ∧ Reach (Guarded.Initial (poolProgram (Fin 3) 0 3) poolOfThree)
      (Guarded.Step (poolProgram (Fin 3) 0 3) (poolProgram (Fin 3) 0 3).Whole) c ∧
    Guarded.Behind (poolProgram (Fin 3) 0 3) c s := by
  obtain ⟨s,reached,ring,free,_,place⟩ := found_clear
  have turned : s.monitor.places.turn.ring = [1,2,0] := by
    rw [Places.turn,ring]
    rfl
  have switched := reached.advance ⟨0,by rw [ring]; rfl,.switch free rfl⟩
  obtain ⟨⟨c,atomic,behind⟩,_⟩ := Guarded.lock_regions_atomic _ _ _ switched
  exact ⟨{ s with monitor := { s.monitor with places := s.monitor.places.turn } },c,place,turned,atomic,behind⟩

end Interrupted

namespace SharedPool

variable {τ : Type} {pool n : Nat} {first m m' : Memory}

/-- Calls one after the other on the pool at `pool` with ids below `n`. -/
abbrev Performed (pool n : Nat) (first : Memory) : List (τ × PoolOp × Option Nat) → Memory → Prop :=
  Serial (PoolPlace.Proper n) (IdPool.perform pool) first

theorem small_work {p : PoolPlace} {next : Memory × PoolPlace} :
    (poolProgram τ pool n).Small (m,p) next ↔ PoolPlace.work pool m p = some next := Iff.rfl

theorem stored (stands : Stands m pool n) (op : PoolOp) (id : Nat) :
    Relation.ReflTransGen (poolProgram τ pool n).Small (m,.fetching op id)
      (update m (bitPlace pool (id / 8)) (PoolPlace.changed (bits m pool) id op),.releasing op (PoolPlace.result id op)) := by
  refine .head rfl (.single ?_)
  change some _ = some _
  rw [setBits,stands.bitmap,add32,Nat.mod_add_mod,← bitPlace]

theorem searched (stands : Stands m pool n) {remaining i : Nat} (rest : i + remaining = n) :
    Relation.ReflTransGen (poolProgram τ pool n).Small (m,.testing i)
      (match firstClear (bitmapGet (bits m pool)) remaining i with
        | some id => (update m (bitPlace pool (id / 8)) (bitmapMark (bits m pool) id (id / 8)),
            .releasing .allocate (some id))
        | none => (m,.releasing .allocate (some allOnes))) := by
  induction remaining generalizing i with
  | zero =>
    refine .single ?_
    rw [small_work,PoolPlace.work,stands.entries,if_neg (by omega)]
    rfl
  | succ remaining ih =>
    rw [firstClear]
    by_cases taken : bitmapGet (bits m pool) i = true
    · rw [if_pos taken]
      refine .head ?_ (ih (by omega))
      rw [small_work,PoolPlace.work,stands.entries,if_pos (by omega),if_pos taken]
    · rw [if_neg taken]
      refine .head ?_ (stored stands .allocate i)
      rw [small_work,PoolPlace.work,stands.entries,if_pos (by omega),if_neg taken]

/-- A whole region is a complete call. -/
theorem whole_call (stands : Stands m pool n) {op : PoolOp} (proper : PoolPlace.Proper n op) {q : PoolPlace}
    (whole : (poolProgram τ pool n).Whole (m,PoolPlace.start op) (m',q)) :
    ∃ a, q = .releasing op a ∧ Stands m' pool n ∧ IdPool.perform pool m op = some (m',a) := by
  cases op with
  | allocate =>
    have all := stands.allocate_eq
    have run := @searched τ _ _ _ stands _ _ (Nat.zero_add n)
    rw [IdPool.perform]
    cases found : firstClear (bitmapGet (bits m pool)) n 0 with
    | none =>
      rw [found] at all run
      obtain ⟨rfl,rfl⟩ := Prod.mk.inj (whole.ends run rfl)
      rw [all]
      exact ⟨_,rfl,stands,rfl⟩
    | some id =>
      obtain ⟨_,below,_,_⟩ := firstClear_some found
      rw [found] at all run
      obtain ⟨rfl,rfl⟩ := Prod.mk.inj (whole.ends run rfl)
      rw [all]
      exact ⟨_,rfl,stands.updated (stands.row_lt (by omega)) _,rfl⟩
  | free id =>
    obtain ⟨rfl,rfl⟩ := Prod.mk.inj (whole.ends (stored stands (.free id) id) rfl)
    rw [IdPool.perform,stands.free_eq proper]
    exact ⟨_,rfl,stands.updated (stands.row_lt proper) _,rfl⟩

theorem small_memory {one other : Memory × PoolPlace} (run : Relation.ReflTransGen (poolProgram τ pool n).Small one other)
    (busy : (poolProgram τ pool n).work other.1 other.2 ≠ none) : other.1 = one.1 := by
  induction run with
  | refl => rfl
  | @tail middle last _ step ih =>
    have going : (poolProgram τ pool n).work middle.1 middle.2 ≠ none := by
      rw [show (poolProgram τ pool n).work middle.1 middle.2 = some last from step]
      exact Option.some_ne_none _
    rw [← ih going]
    obtain ⟨m,p⟩ := middle
    have step : PoolPlace.work pool m p = some last := step
    cases p with
    | testing i =>
      rw [PoolPlace.work] at step
      split at step
      · split at step
        · cases step
          rfl
        · cases step
          rfl
      · cases step
        rfl
    | fetching op id =>
      cases step
      rfl
    | storing op id byte =>
      cases step
      exact absurd rfl busy
    | idle | locking _ | releasing _ _ => contradiction

section Answers

variable {calls before between after : List (τ × PoolOp × Option Nat)} {id : Nat} {t u : τ}

theorem allocated (stands : Stands m pool n) (done : IdPool.allocate m pool = some (m',id)) :
    Stands m' pool n ∧ (id ≠ allOnes → id < n ∧ bitmapGet (bits m pool) id = false ∧
      bitmapGet (bits m' pool) id = true) ∧
    ∀ i < n, bitmapGet (bits m pool) i = true → bitmapGet (bits m' pool) i = true := by
  rw [stands.allocate_eq] at done
  cases found : firstClear (bitmapGet (bits m pool)) n 0 with
  | none =>
    rw [found] at done
    obtain ⟨rfl,rfl⟩ := Prod.mk.inj (Option.some.inj done)
    exact ⟨stands,fun real => absurd rfl real,fun _ _ set => set⟩
  | some i =>
    obtain ⟨_,below,clear,_⟩ := firstClear_some found
    rw [found] at done
    obtain ⟨rfl,rfl⟩ := Prod.mk.inj (Option.some.inj done)
    have inside : i < n := by omega
    have row := stands.row_lt inside
    have marked : ∀ j < n, bitmapGet (bits (update m (bitPlace pool (i / 8)) (bitmapMark (bits m pool) i (i / 8))) pool) j =
        bitmapGet (bitmapMark (bits m pool) i) j := by
      intro j inside
      refine bitmapGet_congr ?_
      rw [stands.bits_updated row (stands.row_lt inside)]
      by_cases same : j / 8 = i / 8
      · rw [same,update_self]
      · rw [update_of_ne same,bitmapMark,update_of_ne same]
    refine ⟨stands.updated row _,fun _ => ⟨inside,clear,?_⟩,?_⟩
    · rw [marked i inside,bitmapGet_mark]
      simp
    · intro j inside set
      rw [marked j inside,bitmapGet_mark,set]
      exact Bool.or_true _

theorem freed (stands : Stands m pool n) (inside : id < n) (done : IdPool.free m pool id = some m') :
    Stands m' pool n ∧ ∀ i < n, i ≠ id → bitmapGet (bits m' pool) i = bitmapGet (bits m pool) i := by
  have row := stands.row_lt inside
  rw [stands.free_eq inside] at done
  obtain rfl := Option.some.inj done
  refine ⟨stands.updated row _,?_⟩
  intro j within other
  have unmarked : bitmapGet (bits (update m (bitPlace pool (id / 8)) (bitmapUnmark (bits m pool) id (id / 8))) pool) j =
      bitmapGet (bitmapUnmark (bits m pool) id) j := by
    refine bitmapGet_congr ?_
    rw [stands.bits_updated row (stands.row_lt within)]
    by_cases same : j / 8 = id / 8
    · rw [same,update_self]
    · rw [update_of_ne same,bitmapUnmark,update_of_ne same]
  rw [unmarked,bitmapGet_unmark,decide_eq_false (Ne.symm other)]
  exact Bool.true_and _

theorem performed_bits (stands : Stands m pool n) {op : PoolOp} {a : Option Nat} (proper : PoolPlace.Proper n op)
    (done : IdPool.perform pool m op = some (m',a)) : Stands m' pool n ∧
    (∀ id, op = .allocate → a = some id → id ≠ allOnes → id < n ∧ bitmapGet (bits m pool) id = false ∧
      bitmapGet (bits m' pool) id = true) ∧
    ∀ i < n, op ≠ .free i → bitmapGet (bits m pool) i = true → bitmapGet (bits m' pool) i = true := by
  cases op with
  | allocate =>
    obtain ⟨⟨_,id⟩,found,result⟩ := Option.map_eq_some_iff.mp done
    obtain ⟨rfl,rfl⟩ := Prod.mk.inj result
    obtain ⟨stands',answer,kept⟩ := allocated stands found
    refine ⟨stands',?_,fun i inside _ => kept i inside⟩
    rintro id _ ⟨⟩ real
    exact answer real
  | free id =>
    obtain ⟨_,found,result⟩ := Option.map_eq_some_iff.mp done
    obtain ⟨rfl,rfl⟩ := Prod.mk.inj result
    obtain ⟨stands',kept⟩ := freed stands proper found
    refine ⟨stands',fun _ other => absurd other PoolOp.noConfusion,?_⟩
    intro i inside other set
    rw [kept i inside (fun same => other (by rw [same]))]
    exact set

theorem performed_stands (start : Stands first pool n) (performed : Performed pool n first calls m) : Stands m pool n := by
  induction performed with
  | none => exact start
  | call _ proper done ih => exact (performed_bits ih proper done).1

/-- The bit of an id that was answered stays set until it is freed. -/
theorem performed_kept (start : Stands first pool n) (performed : Performed pool n first calls m) (real : id ≠ allOnes)
    (answered : calls = before ++ (t,.allocate,some id) :: between) (unfreed : ∀ call ∈ between, call.2.1 ≠ .free id) :
    id < n ∧ bitmapGet (bits m pool) id = true := by
  induction performed generalizing between with
  | none => simp at answered
  | @call calls m m' u op a earlier proper done ih =>
    obtain ⟨_,answer,kept⟩ := performed_bits (performed_stands start earlier) proper done
    -- the call is the last one, or one before it
    rcases between.eq_nil_or_concat with rfl | ⟨front,last,rfl⟩
    · obtain ⟨_,ends⟩ := append_inj' answered rfl
      cases (cons.inj ends).1
      obtain ⟨inside,_,set⟩ := answer id rfl rfl real
      exact ⟨inside,set⟩
    · rw [concat_eq_append,← cons_append,← append_assoc] at answered
      obtain ⟨same,ends⟩ := append_inj' answered rfl
      rw [concat_eq_append,forall_mem_append] at unfreed
      obtain ⟨inside,set⟩ := ih same unfreed.1
      refine ⟨inside,kept id inside ?_ set⟩
      have other := unfreed.2 last (mem_singleton_self _)
      rw [← (cons.inj ends).1] at other
      exact other

theorem performed_unique (start : Stands first pool n) (performed : Performed pool n first calls m) (real : id ≠ allOnes)
    (answered : calls = before ++ (t,.allocate,some id) :: between ++ (u,.allocate,some id) :: after) :
    ∃ call ∈ between, call.2.1 = .free id := by
  induction performed generalizing after with
  | none => simp at answered
  | @call calls m m' v op a earlier proper done ih =>
    rcases after.eq_nil_or_concat with rfl | ⟨front,last,rfl⟩
    · obtain ⟨same,ends⟩ := append_inj' answered rfl
      cases (cons.inj ends).1
      by_contra unfreed
      obtain ⟨_,answer,_⟩ := performed_bits (performed_stands start earlier) proper done
      have clear := (answer id rfl rfl real).2.1
      have set := performed_kept start earlier real same (fun call member freed => unfreed ⟨call,member,freed⟩)
      rw [set.2] at clear
      contradiction
    · rw [concat_eq_append,← cons_append,← append_assoc] at answered
      exact ih (append_inj' answered rfl).1

end Answers

end SharedPool

open PoolPlace in
def poolCalls (τ : Type) (pool n : Nat) : LockCalls (poolProgram τ pool n) PoolOp (Option Nat) where
  during := during
  answer := answer
  Proper := Proper n
  perform := IdPool.perform pool
  Valid := fun m => Stands m pool n
  Between := Between n
  idle_between := .inl rfl
  during_idle := rfl
  proper := by
    rintro p op (rfl | ⟨op',proper,rfl | rfl | ⟨a,rfl⟩⟩) called
    · contradiction
    · cases called
      exact proper
    · cases op' <;> cases called <;> exact proper
    · cases called
      exact proper
  answered := by
    intro p a found
    cases p with
    | releasing _ _ => exact ⟨rfl,fun _ => rfl⟩
    | _ => contradiction
  work_during := by
    intro m p m' q done
    cases p with
    | testing i =>
      have done : work pool m (.testing i) = some (m',q) := done
      rw [work] at done
      split at done
      · split at done
        · cases done
          rfl
        · cases done
          rfl
      · cases done
        rfl
    | fetching op id =>
      cases done
      rfl
    | storing op id byte =>
      cases done
      rfl
    | idle | locking _ | releasing _ _ => contradiction
  region := by
    rintro m p m' q stands (rfl | ⟨op,proper,rfl | rfl | ⟨a,rfl⟩⟩) whole
    · exact absurd rfl whole.busy
    · exact absurd rfl whole.busy
    · obtain ⟨a,rfl,after,done⟩ := SharedPool.whole_call stands proper whole
      refine ⟨.inr ⟨op,proper,.inr (.inr ⟨a,rfl⟩)⟩,.inr ⟨op,a,?_,rfl,done,after⟩⟩
      cases op <;> rfl
    · exact absurd rfl whole.busy
  calls := by
    intro p mop held q goes between
    cases goes with
    | acquire op proper =>
      refine ⟨.inr ⟨op,proper,?_⟩,.inr (.inl ⟨rfl,?_,op,?_⟩)⟩
      all_goals cases held <;> cases op <;> simp [start,answer,during]
    | @resume op =>
      obtain ⟨op',proper,same⟩ := between.resolve_left PoolPlace.noConfusion
      obtain rfl : op = op' := by
        rcases same with same | same | ⟨a,same⟩
        · cases same
          rfl
        · cases op' <;> contradiction
        · contradiction
      refine ⟨.inr ⟨op,proper,?_⟩,.inl ⟨?_,?_⟩⟩
      all_goals cases held <;> cases op <;> simp [start,answer,during]
    | release => exact ⟨.inl rfl,.inr (.inr ⟨rfl,_,_,rfl,rfl⟩)⟩

namespace SharedPool

variable {τ : Type} [DecidableEq τ]

/-- The calls of `allocate` and `free` on one pool are as good as made one after the other,
whichever threads make them and wherever the timer takes a thread. The record has every call where
it begins and where it returns; at every moment the memory is that of the calls that have returned,
in that order, and of the one at most that is about to, each made complete and alone with the
same answer. No id is answered twice without a `free` of it in between. -/
theorem pool_calls_linearize (first : Memory) (pool n : Nat) (stands : Stands first pool n)
    (s : Guarded Empty τ Memory PoolPlace) (h : List (CallEvent τ PoolOp (Option Nat)))
    (reached : Reach ((poolCalls τ pool n).Initial first) (poolCalls τ pool n).Step (s,h)) :
    CallEvent.ongoing h = some (fun t => (s.place t).during) ∧
    ∃ pending, (poolCalls τ pool n).Pending s.place pending ∧
      Performed pool n first (CallEvent.completed h ++ pending) s.object ∧
      ∀ before between after t u id, id ≠ allOnes →
        CallEvent.completed h ++ pending = before ++ (t,.allocate,some id) :: between ++ (u,.allocate,some id) :: after →
        ∃ call ∈ between, call.2.1 = .free id := by
  obtain ⟨ongoing,c,pending,_,behind,members,performed⟩ := (poolCalls τ pool n).calls_in_order stands reached
  have same : s.object = c.object := by
    by_cases held : ∃ r, s.monitor.holds r = true
    · obtain ⟨r,held⟩ := held
      by_cases ended : (poolProgram τ pool n).work s.object (s.place r) = none
      · exact (behind.done r held ended).1.symm
      · exact small_memory (behind.begun r held) ended
    · refine (behind.free (fun t => ?_)).symm
      rw [← Bool.not_eq_true]
      exact fun holds => held ⟨t,holds⟩
  refine ⟨ongoing,pending,members,?_,fun _ _ _ _ _ _ real answered => performed_unique stands performed real answered⟩
  rw [same]
  exact performed

section Sample

def sampleRecord {τ : Type} (a b : τ) : List (CallEvent τ PoolOp (Option Nat)) :=
  [.begins a .allocate,.begins b .allocate,.returns a .allocate (some 0),.returns b .allocate (some 1),
    .begins b (.free 0),.returns b (.free 0) none,.begins b .allocate,.returns b .allocate (some 0)]

/-- Two threads search at the same time: the first one is taken away when it has found entry 0 clear,
and the second one waits for the lock. Then the second one gives 0 back and gets it again. -/
theorem two_callers : ∃ s, Reach ((poolCalls (Fin 3) 0 3).Initial poolOfThree) (poolCalls (Fin 3) 0 3).Step
    (s,sampleRecord 0 1) ∧ ∀ t, s.place t = .idle := by
  have woken : (Doing.woken : Doing Empty) ≠ .free := by decide
  have start : Reach ((poolCalls (Fin 3) 0 3).Initial poolOfThree) (poolCalls (Fin 3) 0 3).Step (threeCallers,[]) :=
    .start ⟨⟨⟨Monitor.three_valid _,fun _ => rfl,rfl,fun _ => ⟨rfl,rfl⟩⟩,rfl,fun _ => rfl⟩,rfl⟩
  have searching := LockCalls.called start 0 rfl .acquire rfl rfl (PoolPlace.Calls.acquire .allocate trivial)
  have found := LockCalls.works_on searching 0 rfl rfl 1 rfl
  have taken := LockCalls.switched found 0 rfl rfl
  have blocked := LockCalls.called taken 1 rfl .acquire rfl rfl (PoolPlace.Calls.acquire .allocate trivial)
  have back := LockCalls.switched blocked 2 rfl rfl
  have stored := LockCalls.works_on back 0 rfl rfl 2 rfl
  have first := LockCalls.called stored 0 rfl .release ⟨rfl,rfl⟩ rfl PoolPlace.Calls.release
  have turned := LockCalls.switched first 0 rfl rfl
  have resumed := LockCalls.called turned 1 rfl .resume woken rfl PoolPlace.Calls.resume
  have searched := LockCalls.works_on resumed 1 rfl rfl 4 rfl
  have second := LockCalls.called searched 1 rfl .release ⟨rfl,rfl⟩ rfl PoolPlace.Calls.release
  have freeing := LockCalls.called second 1 rfl .acquire rfl rfl (PoolPlace.Calls.acquire (.free 0) (show 0 < 3 by decide))
  have cleared := LockCalls.works_on freeing 1 rfl rfl 2 rfl
  have freed := LockCalls.called cleared 1 rfl .release ⟨rfl,rfl⟩ rfl PoolPlace.Calls.release
  have again := LockCalls.called freed 1 rfl .acquire rfl rfl (PoolPlace.Calls.acquire .allocate trivial)
  have found' := LockCalls.works_on again 1 rfl rfl 3 rfl
  have third := LockCalls.called found' 1 rfl .release ⟨rfl,rfl⟩ rfl PoolPlace.Calls.release
  refine ⟨_,third,?_⟩
  intro t
  match t with
  | 0 | 1 | 2 => rfl

/-- The pool is that of the four calls one after the other, and 0 came back in between. -/
theorem two_callers_served : ∃ s, Reach ((poolCalls (Fin 3) 0 3).Initial poolOfThree) (poolCalls (Fin 3) 0 3).Step
      (s,sampleRecord 0 1) ∧
    Performed 0 3 poolOfThree [((0 : Fin 3),.allocate,some 0),(1,.allocate,some 1),(1,.free 0,none),(1,.allocate,some 0)]
      s.object ∧
    ∃ call ∈ [((1 : Fin 3),PoolOp.allocate,some 1),(1,.free 0,none)], call.2.1 = .free 0 := by
  obtain ⟨s,reached,idle⟩ := two_callers
  obtain ⟨_,pending,members,performed,unique⟩ := pool_calls_linearize _ _ _ poolOfThree_stands s _ reached
  obtain rfl : pending = [] := members.eq_nil (fun t => by
    rw [idle t]
    rfl)
  exact ⟨s,reached,performed,unique [] _ [] 0 1 0 (by decide) rfl⟩

end Sample

end SharedPool

end RudimentaryKernel
