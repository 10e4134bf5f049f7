import RudimentaryKernel.IdThreads

/-! Reference counts under any interleaving of careful steps. What is known of an id is one
invariant over its entry in memory, the threads in a call on it and the record of what has
happened to it. A step changes the entry of one id and the place of one thread, so each step has
one lemma about the id it is about. -/
namespace RudimentaryKernel

open Function ByteMemory IdPool

/-- What memory holds of an id: the fields of its record and its bit. -/
structure IdEntry where
  ptr : Nat
  count : Nat
  lock : Nat
  bit : Bool

/-- The id whose bit the thread has set and not yet made known, or is about to clear. -/
def IdPhase.claim : IdPhase → Option Nat
  | .writes id _ | .frees id => some id
  | _ => none

section Protocol

variable {κ : Type} [DecidableEq κ] {phase : κ → IdPhase} {e : IdEntry} {issued handed : List Nat}
  {opens closes i : Nat} {u : κ} {p : IdPhase} {f : IdPhase → Option Nat} {holder owner : Option κ}

/-- The threads that `f` finds at the id are one at most, and it is the given one. -/
def Traced (f : IdPhase → Option Nat) (phase : κ → IdPhase) (i : Nat) (holder : Option κ) : Prop :=
  ∀ u, f (phase u) = some i ↔ holder = some u

theorem Traced.stay (traced : Traced f phase i holder) (same : f p = some i ↔ f (phase u) = some i) :
    Traced f (update phase u p) i holder :=
  (forall_update_iff phase (fun v q => f q = some i ↔ holder = some v)).mpr
    ⟨same.trans (traced u),fun v _ => traced v⟩

theorem Traced.enter (traced : Traced f phase i none) (inside : f p = some i) :
    Traced f (update phase u p) i (some u) := by
  intro v
  by_cases here : v = u
  · subst v
    simp [inside]
  · rw [update_of_ne here,traced v]
    simp [Ne.symm here]

theorem Traced.leave (traced : Traced f phase i (some u)) (outside : f p ≠ some i) :
    Traced f (update phase u p) i none := by
  intro v
  by_cases here : v = u
  · subst v
    simp [outside]
  · rw [update_of_ne here,traced v]
    simp [Ne.symm here]

/-- The counter stands for the references to an object that has not been handed over. -/
def Current (e : IdEntry) (issued handed : List Nat) (opens closes : Nat) : Prop :=
  e.bit = true ∧ e.count + closes = 1 + opens ∧ issued = handed ++ [e.ptr]

/-- Every object of the id has been handed over, and the last one was fully closed. -/
def Settled (e : IdEntry) (issued handed : List Nat) (opens closes : Nat) : Prop :=
  e.count = 0 ∧ issued = handed ∧ (issued = [] ∨ closes = opens + 1)

theorem Current.not_settled (current : Current e issued handed opens closes) : ¬Settled e issued handed opens closes := by
  rintro ⟨_,same,_⟩
  simp [current.2.2] at same

/-- What the thread that holds the lock of `i` relies on at its place in the call. -/
def Point (e : IdEntry) (issued handed : List Nat) (opens closes : Nat) : IdPhase → Prop
  | .tests _ _ | .loads _ _ => 0 < e.count
  | .stores .opens _ value => value = e.count ∧ 0 < value ∧ value < 2^16 - 1
  | .stores .closes _ value => value = e.count ∧ 0 < value
  | .releases .opens _ => 1 < e.count
  | .retests _ => Current e issued handed opens closes
  | .reaps _ => Current e issued handed opens closes ∧ e.count = 0
  | .frees _ | .releases .closes _ => issued ≠ []
  | _ => True

theorem Point.congr {e' : IdEntry} (count : e'.count = e.count)
    (current : Current e issued handed opens closes → Current e' issued handed opens closes)
    (point : Point e issued handed opens closes p) : Point e' issued handed opens closes p := by
  rcases p with _ | _ | _ | _ | _ | ⟨use,_,_⟩ | _ | _ | _ | ⟨other,_⟩
  case stores => cases use <;> simpa only [Point,count] using point
  case releases =>
    cases other with
    | opens => simpa only [Point,count] using point
    | closes => exact point
  case tests => simpa only [Point,count] using point
  case loads => simpa only [Point,count] using point
  case retests => exact current point
  case reaps => exact ⟨current point.1,count.trans point.2⟩
  case frees => exact point
  all_goals trivial

/-- Everything that is known of the id `i`, with the thread that holds its lock and the one that
has a claim to its bit. -/
structure Kept (phase : κ → IdPhase) (e : IdEntry) (issued handed : List Nat) (opens closes i : Nat)
    (holder owner : Option κ) : Prop where
  site : Traced IdPhase.site phase i holder
  claim : Traced IdPhase.claim phase i owner
  held : holder ≠ none → e.lock = 1
  claimed : owner ≠ none → e.bit = true ∧ Settled e issued handed opens closes
  stage : Current e issued handed opens closes ∨ Settled e issued handed opens closes
  closing : Current e issued handed opens closes → e.count = 0 →
    ∃ u, holder = some u ∧ (phase u = .retests i ∨ phase u = .reaps i)
  marked : e.bit = true → Settled e issued handed opens closes → owner ≠ none
  point : ∀ u, holder = some u → Point e issued handed opens closes (phase u)

variable (kept : Kept phase e issued handed opens closes i holder owner)
include kept

omit [DecidableEq κ] in
theorem Kept.current (counted : 0 < e.count) : Current e issued handed opens closes := by
  rcases kept.stage with current | settled
  · exact current
  · rw [settled.1] at counted
    contradiction

theorem Kept.moved (here : holder = some u) (inside : p.site = some i) (claim : p.claim = some i ↔ (phase u).claim = some i)
    (closing : Current e issued handed opens closes → e.count = 0 → p = .retests i ∨ p = .reaps i)
    (point : Point e issued handed opens closes p) :
    Kept (update phase u p) e issued handed opens closes i holder owner where
  site := kept.site.stay (iff_of_true inside ((kept.site u).mpr here))
  claim := kept.claim.stay claim
  held := kept.held
  claimed := kept.claimed
  stage := kept.stage
  closing := fun current zero => ⟨u,here,by rw [update_self]; exact closing current zero⟩
  marked := kept.marked
  point := by
    intro v same
    obtain rfl : u = v := Option.some.inj (here.symm.trans same)
    rw [update_self]
    exact point

omit [DecidableEq κ] in
theorem Kept.unclaimed (current : Current e issued handed opens closes) : owner = none := by
  by_contra claimed
  exact current.not_settled (kept.claimed claimed).2

theorem Kept.acquired {use : IdUse} (here : phase u = .acquires use i) (unlocked : e.lock ≠ 1)
    (counted : 0 < e.count) :
    Kept (update phase u (.tests use i)) { e with lock := 1 } issued handed opens closes i (some u) owner := by
  have nobody : holder = none := by
    by_contra someone
    exact unlocked (kept.held someone)
  subst nobody
  refine ⟨kept.site.enter rfl,kept.claim.stay (by rw [here]; rfl),fun _ => rfl,kept.claimed,kept.stage,?_,kept.marked,?_⟩
  · intro current zero
    obtain ⟨_,impossible,_⟩ := kept.closing current zero
    contradiction
  · intro v same
    obtain rfl : u = v := Option.some.inj same
    rw [update_self]
    exact counted

theorem Kept.left (here : holder = some u) (claim : (phase u).claim = none)
    (place : phase u ≠ .retests i ∧ phase u ≠ .reaps i) {lock : Nat} :
    Kept (update phase u .idle) { e with lock := lock } issued handed opens closes i none owner := by
  subst here
  refine ⟨kept.site.leave (by simp [IdPhase.site]),kept.claim.stay (iff_of_false (by simp [IdPhase.claim]) (by simp [claim])),by simp,kept.claimed,
    kept.stage,?_,kept.marked,by simp⟩
  intro current zero
  obtain ⟨v,same,at'⟩ := kept.closing current zero
  obtain rfl : u = v := Option.some.inj same
  exact absurd at' (by simp [place])

theorem Kept.counted (here : holder = some u) (current : Current e issued handed opens closes)
    (claim : (phase u).claim = none) (inside : p.site = some i) (unclaimed : p.claim = none) {value opens' closes' : Nat}
    (sum : value + closes' = 1 + opens') (last : value = 0 → p = .retests i)
    (point : Point { e with count := value } issued handed opens' closes' p) :
    Kept (update phase u p) { e with count := value } issued handed opens' closes' i holder owner := by
  have after : Current { e with count := value } issued handed opens' closes' := ⟨current.1,sum,current.2.2⟩
  have nobody := kept.unclaimed current
  refine ⟨kept.site.stay (iff_of_true inside ((kept.site u).mpr here)),kept.claim.stay (by simp [claim,unclaimed]),kept.held,
    fun someone => absurd nobody someone,.inl after,?_,fun _ settled => absurd settled after.not_settled,?_⟩
  · exact fun _ zero => ⟨u,here,by rw [update_self]; exact .inl (last zero)⟩
  · intro v same
    obtain rfl : u = v := Option.some.inj (here.symm.trans same)
    rw [update_self]
    exact point

theorem Kept.reaped (here : holder = some u) (at' : phase u = .reaps i) :
    Kept (update phase u (.frees i)) e issued (handed ++ [e.ptr]) opens closes i holder (some u) := by
  have point := kept.point u here
  rw [at'] at point
  obtain ⟨current,zero⟩ := point
  have nobody := kept.unclaimed current
  subst nobody
  have settled : Settled e issued (handed ++ [e.ptr]) opens closes := by
    have sum := current.2.1
    exact ⟨zero,current.2.2,.inr (by omega)⟩
  refine ⟨kept.site.stay (by simp [at',IdPhase.site]),kept.claim.enter rfl,kept.held,fun _ => ⟨current.1,settled⟩,.inr settled,
    fun again => absurd settled again.not_settled,by simp,?_⟩
  intro v same
  obtain rfl : u = v := Option.some.inj (here.symm.trans same)
  rw [update_self]
  simp [Point,current.2.2]

theorem Kept.freed (here : holder = some u) (at' : phase u = .frees i) :
    Kept (update phase u (.releases .closes i)) { e with bit := false } issued handed opens closes i holder none := by
  have mine : owner = some u := (kept.claim u).mp (by rw [at']; rfl)
  subst mine
  obtain ⟨_,settled⟩ := kept.claimed (by simp)
  have issuedOnce : issued ≠ [] := by
    have point := kept.point u here
    rw [at'] at point
    exact point
  refine ⟨kept.site.stay (by simp [at',IdPhase.site]),kept.claim.leave (by simp [IdPhase.claim]),kept.held,by simp,.inr settled,
    fun current => absurd settled (fun settled => ?_),by simp,?_⟩
  · exact absurd current.1 (by simp)
  · intro v same
    obtain rfl : u = v := Option.some.inj (here.symm.trans same)
    rw [update_self]
    exact issuedOnce

theorem Kept.taken {ptr : Nat} (here : phase u = .idle) (clear : e.bit = false) :
    Kept (update phase u (.writes i ptr)) { e with bit := true } issued handed opens closes i holder (some u) := by
  have settled : Settled e issued handed opens closes := by
    rcases kept.stage with current | settled
    · rw [current.1] at clear
      contradiction
    · exact settled
  have nobody : owner = none := by
    by_contra someone
    rw [(kept.claimed someone).1] at clear
    contradiction
  subst nobody
  have outside : holder ≠ some u := by
    intro inside
    have site := (kept.site u).mpr inside
    rw [here] at site
    contradiction
  refine ⟨kept.site.stay (by simp [here,IdPhase.site]),kept.claim.enter rfl,kept.held,fun _ => ⟨rfl,settled⟩,.inr settled,
    fun current => absurd settled current.not_settled,by simp,?_⟩
  intro v same
  have other : v ≠ u := fun equal => outside (equal ▸ same)
  rw [update_of_ne other]
  exact Point.congr (e := e) rfl (fun current => ⟨rfl,current.2⟩) (kept.point v same)

theorem Kept.written {ptr : Nat} (here : phase u = .writes i ptr) (free : holder = none) :
    Kept (update phase u .idle) ⟨ptr,1,0,e.bit⟩ (issued ++ [ptr]) handed 0 0 i none none := by
  have mine : owner = some u := (kept.claim u).mp (by rw [here]; rfl)
  subst mine
  subst free
  obtain ⟨marked,_,same,_⟩ := kept.claimed (by simp)
  have current : Current ⟨ptr,1,0,e.bit⟩ (issued ++ [ptr]) handed 0 0 := ⟨marked,rfl,by rw [same]⟩
  exact ⟨kept.site.stay (by simp [here,IdPhase.site]),kept.claim.leave (by simp [IdPhase.claim]),by simp,by simp,.inl current,
    by simp,fun _ settled => absurd settled current.not_settled,by simp⟩

theorem Kept.elsewhere (before : (phase u).site ≠ some i ∧ (phase u).claim ≠ some i)
    (after : p.site ≠ some i ∧ p.claim ≠ some i) :
    Kept (update phase u p) e issued handed opens closes i holder owner := by
  have away : ∀ v, holder = some v → v ≠ u := fun v same here => before.1 (here ▸ (kept.site v).mpr same)
  refine ⟨kept.site.stay (iff_of_false after.1 before.1),kept.claim.stay (iff_of_false after.2 before.2),kept.held,kept.claimed,
    kept.stage,?_,kept.marked,?_⟩
  · intro current zero
    obtain ⟨v,same,at'⟩ := kept.closing current zero
    exact ⟨v,same,by rw [update_of_ne (away v same)]; exact at'⟩
  · intro v same
    rw [update_of_ne (away v same)]
    exact kept.point v same

end Protocol

namespace IdPool

variable {m m' : Memory} {pool n i : Nat}

def entry (m : Memory) (pool n i : Nat) : IdEntry :=
  ⟨load m 4 (recordOf pool n i),countAt m pool n i,load m 4 (recordOf pool n i + 8),bitmapGet (bits m pool) i⟩

/-- The pool is as laid out before, and only the entry of `i` differs. -/
def Entered (m m' : Memory) (pool n i : Nat) (e : IdEntry) : Prop :=
  Laid m' pool n ∧ ∀ j, j < n → entry m' pool n j = update (entry m pool n) i e j

theorem records_apart (pool n : Nat) {j : Nat} (other : j ≠ i) :
    recordOf pool n j + idSize ≤ recordOf pool n i ∨ recordOf pool n i + idSize ≤ recordOf pool n j := by
  unfold recordOf idSize
  omega

theorem Laid.entered_within (laid : Laid m pool n) (m' : Memory) (only : Within m m' pool n i) :
    Entered m m' pool n i ⟨load m' 4 (recordOf pool n i),countAt m' pool n i,load m' 4 (recordOf pool n i + 8),
      (entry m pool n i).bit⟩ := by
  refine ⟨laid.within only,?_⟩
  intro j inside
  have bit : bitmapGet (bits m' pool) j = bitmapGet (bits m pool) j :=
    bitmapGet_congr (laid.within_bits only (laid.stands.row_lt inside))
  by_cases same : j = i
  · subst j
    rw [update_self,entry,bit]
    rfl
  · have fits := laid.record_fits inside
    have apart : ∀ b, recordOf pool n j ≤ b → b < recordOf pool n j + idSize → m' b = m b := by
      intro b low high
      have away := records_apart pool n same
      exact only b (by omega)
    simp only [idSize] at fits apart
    rw [update_of_ne same,entry,entry,countAt,countAt,bit,load_congr (by omega) (fun b low high => apart b (by omega) (by omega)),
      load_congr (by omega) (fun b low high => apart b (by omega) (by omega)),
      load_congr (by omega) (fun b low high => apart b (by omega) (by omega))]

theorem Laid.entered_self (laid : Laid m pool n) : Entered m m pool n i (entry m pool n i) := by
  refine ⟨laid,fun j _ => ?_⟩
  rw [update_eq_self]

theorem Laid.entered_lock (laid : Laid m pool n) (inside : i < n) {value : Nat} (small : value < 2^32) :
    Entered m (store m 4 (idLock m pool i) value) pool n i { entry m pool n i with lock := value } := by
  have fits := laid.record_fits inside
  simp only [idSize] at fits
  rw [idLock,laid.idToAddress_eq inside]
  have result := laid.entered_within (store m 4 (recordOf pool n i + 8) value)
    (within_store (laid.record_fits inside) (by omega) (by simp only [idSize]; omega))
  rw [countAt,load_store_apart (by omega) (by omega) (by omega),load_store_apart (by omega) (by omega) (by omega),
    load_store (by omega),Nat.mod_eq_of_lt (by simpa using small)] at result
  exact result

theorem Laid.entered_count (laid : Laid m pool n) (inside : i < n) (value : Nat) :
    Entered m (setCount m pool i value) pool n i { entry m pool n i with count := value % 2^16 } := by
  have fits := laid.record_fits inside
  simp only [idSize] at fits
  rw [setCount,laid.idToAddress_eq inside]
  have result := laid.entered_within (store m 2 (recordOf pool n i + 4) value)
    (within_store (laid.record_fits inside) (by omega) (by simp only [idSize]; omega))
  rw [countAt,load_store (by omega),load_store_apart (by omega) (by omega) (by omega),
    load_store_apart (by omega) (by omega) (by omega)] at result
  exact result

theorem Laid.entered_write (laid : Laid m pool n) (inside : i < n) {ptr : Nat} (small : ptr < 2^32) :
    Entered m (writeId m (idToAddress m pool i) ptr) pool n i ⟨ptr,1,0,(entry m pool n i).bit⟩ := by
  have fits := laid.record_fits inside
  obtain ⟨within,counted,free,_⟩ := writeId_within m ptr fits
  simp only [idSize] at fits
  rw [laid.idToAddress_eq inside]
  have result := laid.entered_within _ within
  have pointer : load (writeId m (recordOf pool n i) ptr) 4 (recordOf pool n i) = ptr := by
    rw [writeId,load_store_apart (by omega) (by omega) (by omega),load_store_apart (by omega) (by omega) (by omega),
      load_store_apart (by omega) (by omega) (by omega),load_store (by omega)]
    exact Nat.mod_eq_of_lt (by simpa using small)
  rw [pointer,counted,free] at result
  exact result

theorem Laid.entered_bit (laid : Laid m pool n) (inside : i < n) (new : Nat → Byte)
    (elsewhere : ∀ row, row ≠ i / 8 → new row = bits m pool row) {bit : Bool}
    (bits' : ∀ j, bitmapGet new j = if j = i then bit else bitmapGet (bits m pool) j) :
    Entered m (update m (pool + headerSize + i / 8) (new (i / 8))) pool n i { entry m pool n i with bit := bit } := by
  have row := laid.stands.row_lt inside
  have room := laid.room
  have laid' : Laid (update m (pool + headerSize + i / 8) (new (i / 8))) pool n :=
    laid.frame (fun b _ low => update_of_ne (by omega) ..)
  refine ⟨laid',?_⟩
  intro j below
  have get : bitmapGet (bits (update m (pool + headerSize + i / 8) (new (i / 8))) pool) j = if j = i then bit else bitmapGet (bits m pool) j := by
    rw [bits_updated i new laid laid' elsewhere (fun _ _ => rfl) below,bits']
  have fits := laid.record_fits below
  have apart : ∀ b, recordOf pool n j ≤ b → update m (pool + headerSize + i / 8) (new (i / 8)) b = m b := by
    intro b low
    unfold recordOf at low
    exact update_of_ne (by omega) ..
  simp only [idSize] at fits
  have same : entry (update m (pool + headerSize + i / 8) (new (i / 8))) pool n j =
      { entry m pool n j with bit := if j = i then bit else bitmapGet (bits m pool) j } := by
    rw [entry,get,countAt,load_congr (by omega) (fun b low _ => apart b (by omega)),
      load_congr (by omega) (fun b low _ => apart b (by omega)),load_congr (by omega) (fun b low _ => apart b (by omega))]
    rfl
  rw [same]
  by_cases here : j = i
  · subst j
    simp
  · simp only [here,↓reduceIte,update_of_ne here]
    rfl

theorem Laid.entered_free (laid : Laid m pool n) (inside : i < n) :
    ∃ m', IdPool.free m pool i = some m' ∧ Entered m m' pool n i { entry m pool n i with bit := false } := by
  refine ⟨_,laid.free_eq inside,laid.entered_bit inside (bitmapUnmark (bits m pool) i) ?_ ?_⟩
  · intro row other
    rw [bitmapUnmark,update_of_ne other]
  · intro j
    rw [bitmapGet_unmark]
    by_cases same : j = i
    · simp [same]
    · simp [same,Ne.symm same]

end IdPool

def IdPhase.target : IdPhase → Option Nat
  | .idle => none
  | .writes id _ | .acquires _ id | .tests _ id | .loads _ id | .stores _ id _ | .retests id | .reaps id | .frees id
  | .releases _ id => some id

theorem IdPhase.target_of_site {p : IdPhase} {i : Nat} (site : p.site = some i) : p.target = some i := by
  cases p <;> simp_all [IdPhase.site,IdPhase.target]

theorem IdPhase.target_of_claim {p : IdPhase} {i : Nat} (claim : p.claim = some i) : p.target = some i := by
  cases p <;> simp_all [IdPhase.claim,IdPhase.target]

/-- The call that a thread with the lock of a record is in. -/
def IdPhase.running : IdPhase → Option (IdUse × Nat)
  | .tests use id | .loads use id | .stores use id _ | .releases use id => some (use,id)
  | .retests id | .reaps id | .frees id => some (.closes,id)
  | .idle | .writes _ _ | .acquires _ _ => none

theorem IdPhase.site_of_running {p : IdPhase} {use : IdUse} {i : Nat} (running : p.running = some (use,i)) :
    p.site = some i := by
  cases p <;> simp_all [IdPhase.site,IdPhase.running]

def IdPhase.raised : IdPhase → Nat
  | .releases .opens _ => 1
  | _ => 0

def IdPhase.lowered : IdPhase → Nat
  | .retests _ | .reaps _ | .frees _ | .releases .closes _ => 1
  | _ => 0

section Log

variable {κ : Type} [DecidableEq κ] {phase : κ → IdPhase} {u : κ} {p : IdPhase} {holder : Option κ}
  {issued handed issued' handed' : Nat → List Nat} {call : Option IdCall}

def tally (f : IdPhase → Nat) (phase : κ → IdPhase) (holder : Option κ) : Nat :=
  holder.elim 0 (fun u => f (phase u))

theorem tally_self (f : IdPhase → Nat) : tally f (update phase u p) (some u) = f p :=
  congrArg f (update_self ..)

theorem tally_other (f : IdPhase → Nat) (other : holder ≠ some u) :
    tally f (update phase u p) holder = tally f phase holder := by
  rcases holder with _ | v
  · rfl
  · have apart : v ≠ u := fun same => other (by rw [same])
    exact congrArg f (update_of_ne apart ..)

/-- What a call on the id has passed to `reaping_func` if it has the lock. -/
def lastReaped (issued handed : Nat → List Nat) (id : Nat) : Option Nat :=
  if issued id = handed id then (handed id).getLast? else none

theorem lastReaped_some {id : Nat} (same : issued id = handed id) (some' : issued id ≠ []) :
    ∃ p, lastReaped issued handed id = some p := by
  rw [lastReaped,if_pos same,← same]
  exact ⟨_,List.getLast?_eq_some_getLast some'⟩

/-- The call that is noted is the one the thread is in. -/
structure Noted (issued handed : Nat → List Nat) (call : Option IdCall) (p : IdPhase) : Prop where
  idle : p = .idle → call = none
  writes : ∀ id ptr, p = .writes id ptr → call = some (.next ptr)
  acquires : ∀ use id, p = .acquires use id → ∃ generation, call = some (.uses use id generation none)
  running : ∀ use id, p.running = some (use,id) →
    call = some (.uses use id (issued id).length (lastReaped issued handed id))

theorem Noted.congr (noted : Noted issued handed call p)
    (same : ∀ id, p.site = some id → issued' id = issued id ∧ handed' id = handed id) :
    Noted issued' handed' call p := by
  refine ⟨noted.idle,noted.writes,noted.acquires,fun use id running => ?_⟩
  obtain ⟨one,two⟩ := same id (IdPhase.site_of_running running)
  rw [lastReaped,one,two]
  exact noted.running use id running

theorem Noted.inside {use : IdUse} {id : Nat} (running : p.running = some (use,id)) :
    Noted issued handed (some (.uses use id (issued id).length (lastReaped issued handed id))) p := by
  refine ⟨?_,?_,?_,?_⟩
  · rintro rfl
    cases running
  · rintro _ _ rfl
    cases running
  · rintro _ _ rfl
    cases running
  · intro other id' same
    cases running.symm.trans same
    rfl

end Log

namespace IdCalls

variable {κ : Type} [DecidableEq κ] {n : Nat} {r t : IdCalls κ}

/-- Everything known of one id in a state. The counter is ahead of the calls that have returned by
what the call with the lock has done to it. -/
def KeptAt (n : Nat) (r : IdCalls κ) (i : Nat) : Prop :=
  ∃ holder owner, Kept r.threads.phase (entry r.threads.memory r.threads.pool n i) (r.issued i)
    (r.threads.handed i) (r.opens i + tally IdPhase.raised r.threads.phase holder)
    (r.closes i + tally IdPhase.lowered r.threads.phase holder) i holder owner

structure Sound (n : Nat) (r : IdCalls κ) : Prop where
  laid : Laid r.threads.memory r.threads.pool n
  target : ∀ u id, (r.threads.phase u).target = some id → id < n
  word : ∀ u id ptr, r.threads.phase u = .writes id ptr → ptr < 2^32
  outside : ∀ id, n ≤ id → r.issued id = [] ∧ r.threads.handed id = []
  kept : ∀ id, id < n → KeptAt n r id
  noted : ∀ u, Noted r.issued r.threads.handed (r.call u) (r.threads.phase u)

theorem Sound.step (sound : Sound n r) {u : κ} {p : IdPhase} {i : Nat} {e : IdEntry} {c : Option IdCall}
    (inside : i < n) (entered : Entered r.threads.memory t.threads.memory r.threads.pool n i e)
    (pool : t.threads.pool = r.threads.pool) (phase : t.threads.phase = update r.threads.phase u p)
    (call : t.call = update r.call u c)
    (only : ∀ j, j ≠ i → t.issued j = r.issued j ∧ t.threads.handed j = r.threads.handed j ∧
      t.opens j = r.opens j ∧ t.closes j = r.closes j)
    (alone : t.issued i = r.issued i ∧ t.threads.handed i = r.threads.handed i ∨
      ∀ v, v ≠ u → (r.threads.phase v).site ≠ some i)
    (before : ∀ id, (r.threads.phase u).target = some id → id = i) (after : ∀ id, p.target = some id → id = i)
    (word : ∀ id ptr, p = .writes id ptr → ptr < 2^32) (noted : Noted t.issued t.threads.handed c p)
    (kept : ∃ holder owner, Kept (update r.threads.phase u p) e (t.issued i) (t.threads.handed i)
      (t.opens i + tally IdPhase.raised (update r.threads.phase u p) holder)
      (t.closes i + tally IdPhase.lowered (update r.threads.phase u p) holder) i holder owner) :
    Sound n t where
  laid := pool ▸ entered.1
  target := by
    rw [phase,forall_update_iff r.threads.phase (fun _ q => ∀ id, q.target = some id → id < n)]
    exact ⟨fun id same => after id same ▸ inside,fun v _ => sound.target v⟩
  word := by
    rw [phase,forall_update_iff r.threads.phase (fun _ q => ∀ id ptr, q = .writes id ptr → ptr < 2^32)]
    exact ⟨word,fun v _ => sound.word v⟩
  outside := by
    intro j large
    obtain ⟨issued,handed,_⟩ := only j (by omega)
    rw [issued,handed]
    exact sound.outside j large
  kept := by
    intro j below
    rw [KeptAt,pool,entered.2 j below,phase]
    by_cases same : j = i
    · subst j
      rw [update_self]
      exact kept
    · obtain ⟨holder,owner,kept⟩ := sound.kept j below
      obtain ⟨issued,handed,opens,closes⟩ := only j same
      have away : (r.threads.phase u).site ≠ some j := fun site => same (before j (IdPhase.target_of_site site))
      have other : holder ≠ some u := fun mine => away ((kept.site u).mpr mine)
      rw [update_of_ne same,issued,handed,opens,closes]
      refine ⟨holder,owner,?_⟩
      rw [tally_other _ other,tally_other _ other]
      refine kept.elsewhere ⟨away,?_⟩ ⟨?_,?_⟩
      · exact fun claim => same (before j (IdPhase.target_of_claim claim))
      · exact fun site => same (after j (IdPhase.target_of_site site))
      · exact fun claim => same (after j (IdPhase.target_of_claim claim))
  noted := by
    intro v
    rw [phase,call]
    by_cases mine : v = u
    · subst v
      rw [update_self,update_self]
      exact noted
    · rw [update_of_ne mine,update_of_ne mine]
      refine (sound.noted v).congr (fun j site => ?_)
      by_cases same : j = i
      · subst j
        exact alone.resolve_right (fun nobody => nobody v mine site)
      · obtain ⟨issued,handed,_⟩ := only j same
        exact ⟨issued,handed⟩

variable {u : κ} {i : Nat}

omit [DecidableEq κ] in
theorem Sound.holder (sound : Sound n r) (site : (r.threads.phase u).site = some i) :
    i < n ∧ ∃ owner, Kept r.threads.phase (entry r.threads.memory r.threads.pool n i) (r.issued i)
      (r.threads.handed i) (r.opens i + (r.threads.phase u).raised) (r.closes i + (r.threads.phase u).lowered) i
      (some u) owner := by
  have inside := sound.target u i (IdPhase.target_of_site site)
  obtain ⟨holder,owner,kept⟩ := sound.kept i inside
  obtain rfl := (kept.site u).mp site
  exact ⟨inside,owner,kept⟩

omit [DecidableEq κ] in
theorem Sound.count_eq (sound : Sound n r) (inside : i < n) :
    count r.threads.memory r.threads.pool i = (entry r.threads.memory r.threads.pool n i).count ∧
      (entry r.threads.memory r.threads.pool n i).count < 2^16 :=
  ⟨sound.laid.count_eq inside,load_lt⟩

theorem goesOn_uses {use : IdUse} {generation : Nat} {reaped : Option Nat} {s : IdThreads κ}
    (call : r.call u = some (.uses use i generation reaped)) : r.goesOn u s = { r with
      threads := s
      call := update r.call u (some (.uses use i generation
        (if s.handed i = r.threads.handed i then reaped else (s.handed i).getLast?))) } := by
  rw [goesOn,call]

theorem goesOn_silent {use : IdUse} {generation : Nat} {reaped : Option Nat} {s : IdThreads κ}
    (call : r.call u = some (.uses use i generation reaped)) (same : s.handed i = r.threads.handed i) :
    r.goesOn u s = { r with threads := s, call := update r.call u (some (.uses use i generation reaped)) } := by
  rw [goesOn_uses call,if_pos same]

theorem Sound.proceeds (sound : Sound n r) {use : IdUse} {p : IdPhase} {e : IdEntry} {s : IdThreads κ}
    (at' : (r.threads.phase u).running = some (use,i)) (stays : p.running = some (use,i))
    (entered : Entered r.threads.memory s.memory r.threads.pool n i e) (pool : s.pool = r.threads.pool)
    (phase : s.phase = update r.threads.phase u p) (handed : ∀ j, j ≠ i → s.handed j = r.threads.handed j)
    (hands : s.handed i = r.threads.handed i ∨
      s.handed i ≠ r.threads.handed i ∧ r.issued i = s.handed i)
    (kept : ∃ owner, Kept (update r.threads.phase u p) e (r.issued i) (s.handed i) (r.opens i + p.raised)
      (r.closes i + p.lowered) i (some u) owner) : Sound n (r.noted s (.advance u)) := by
  have site := IdPhase.site_of_running at'
  have target := IdPhase.target_of_site site
  have inside := sound.target u i target
  have call := (sound.noted u).running use i at'
  have going : s.phase u ≠ .idle := by
    rw [phase,update_self]
    rintro rfl
    cases stays
  rw [IdCalls.noted,if_neg going,goesOn_uses call]
  obtain ⟨owner,kept⟩ := kept
  refine sound.step inside entered pool phase rfl (fun j other => ⟨rfl,handed j other,rfl,rfl⟩) ?_ ?_ ?_ ?_ ?_
    ⟨some u,owner,?_⟩
  · right
    intro v other site'
    obtain ⟨_,_,kept'⟩ := sound.holder site
    exact other (Option.some.inj ((kept'.site v).mp site')).symm
  · exact fun j same => Option.some.inj (same.symm.trans target)
  · intro j same
    exact Option.some.inj (same.symm.trans (IdPhase.target_of_site (IdPhase.site_of_running stays)))
  · rintro j ptr rfl
    cases stays
  · have last : (if s.handed i = r.threads.handed i then lastReaped r.issued r.threads.handed i
        else (s.handed i).getLast?) = lastReaped r.issued s.handed i := by
      rcases hands with same | ⟨differs,settled⟩
      · rw [if_pos same,lastReaped,lastReaped,same]
      · rw [if_neg differs,lastReaped,if_pos settled]
    rw [last]
    exact .inside stays
  · rw [tally_self,tally_self]
    exact kept

theorem write_sound (sound : Sound n r) {ptr : Nat} (at' : r.threads.phase u = .writes i ptr)
    (nobody : ∀ other, ¬(r.threads.phase other).Inside i) {s : IdThreads κ}
    (done : r.threads.advance u = some s) : Sound n (r.noted s (.advance u)) := by
  have target : (r.threads.phase u).target = some i := by rw [at']; rfl
  have inside := sound.target u i target
  obtain ⟨holder,owner,kept⟩ := sound.kept i inside
  have free : holder = none := by
    rcases holder with _ | v
    · rfl
    · exact absurd ((kept.site v).mpr rfl) (nobody v)
  subst free
  have call := (sound.noted u).writes i ptr at'
  simp only [IdThreads.advance,at',Option.some.injEq] at done
  subst done
  have idle : (IdThreads.goto { r.threads with
      memory := writeId r.threads.memory (idToAddress r.threads.memory r.threads.pool i) ptr
      result := update r.threads.result u i } u .idle).phase u = .idle := update_self ..
  rw [noted,if_pos idle,returned,call]
  simp only [IdThreads.goto,update_self]
  refine sound.step (p := .idle) inside (sound.laid.entered_write inside (sound.word u i ptr at')) rfl rfl rfl
    ?_ (.inr (fun v _ => nobody v)) ?_ ?_ ?_ ?_ ?_
  · intro j other
    exact ⟨update_of_ne other ..,rfl,update_of_ne other ..,update_of_ne other ..⟩
  · exact fun j same => Option.some.inj (same.symm.trans target)
  · simp [IdPhase.target]
  · simp
  · exact ⟨fun _ => rfl,by simp,by simp,by simp [IdPhase.running]⟩
  · refine ⟨none,none,?_⟩
    simp only [update_self]
    exact kept.written at' rfl

omit [DecidableEq κ] in
theorem Sound.live_counted (sound : Sound n r) (inside : i < n) (live : r.Live i)
    (unlocked : (entry r.threads.memory r.threads.pool n i).lock ≠ 1) :
    Current (entry r.threads.memory r.threads.pool n i) (r.issued i) (r.threads.handed i) (r.opens i) (r.closes i) ∧
      0 < (entry r.threads.memory r.threads.pool n i).count := by
  obtain ⟨holder,owner,kept⟩ := sound.kept i inside
  have nobody : holder = none := by
    by_contra someone
    exact unlocked (kept.held someone)
  subst nobody
  obtain ⟨issued,references⟩ := live
  rcases kept.stage with current | ⟨_,_,settled⟩
  · have sum := current.2.1
    simp only [tally,Option.elim_none,Nat.add_zero] at sum
    exact ⟨current,by omega⟩
  · rcases settled with none' | closed
    · exact absurd none' issued
    · simp only [tally,Option.elim_none,Nat.add_zero] at closed
      omega

theorem acquire_sound (sound : Sound n r) {use : IdUse} (at' : r.threads.phase u = .acquires use i)
    (lasts : r.Lasts (r.call u)) {s : IdThreads κ} (done : r.threads.advance u = some s) :
    Sound n (r.noted s (.advance u)) := by
  have target : (r.threads.phase u).target = some i := by rw [at']; rfl
  have inside := sound.target u i target
  obtain ⟨holder,owner,kept⟩ := sound.kept i inside
  obtain ⟨generation,call⟩ := (sound.noted u).acquires use i at'
  rw [call] at lasts
  obtain ⟨live,rfl⟩ := lasts
  have lock : load r.threads.memory 4 (idLock r.threads.memory r.threads.pool i) =
      (entry r.threads.memory r.threads.pool n i).lock := by
    rw [idLock,sound.laid.idToAddress_eq inside]
    rfl
  simp only [IdThreads.advance,at',lock] at done
  split at done
  · contradiction
  · rename_i unlocked
    cases done
    obtain ⟨current,counted⟩ := sound.live_counted inside live unlocked
    have nobody : holder = none := by
      by_contra someone
      exact unlocked (kept.held someone)
    subst nobody
    generalize taken : IdThreads.goto { r.threads with
      memory := store r.threads.memory 4 (idLock r.threads.memory r.threads.pool i) 1 } u (.tests use i) = s
    have phase : s.phase = update r.threads.phase u (.tests use i) := by rw [← taken]; rfl
    have handed : s.handed = r.threads.handed := by rw [← taken]; rfl
    rw [noted,if_neg (by rw [phase,update_self]; simp),goesOn_silent call (congrFun handed i)]
    subst taken
    refine sound.step (p := .tests use i) inside (sound.laid.entered_lock inside (by decide)) rfl rfl rfl
      (fun _ _ => ⟨rfl,rfl,rfl,rfl⟩) (.inl ⟨rfl,rfl⟩) ?_ ?_ (by simp) ?_ ⟨some u,owner,?_⟩
    · exact fun j same => Option.some.inj (same.symm.trans target)
    · exact fun j same => (Option.some.inj same).symm
    · have unreaped : lastReaped r.issued r.threads.handed i = none :=
        if_neg (fun same => by simpa [same] using current.2.2)
      have noted : Noted r.issued r.threads.handed (some (.uses use i (r.issued i).length
          (lastReaped r.issued r.threads.handed i))) (.tests use i) := .inside rfl
      rw [unreaped] at noted
      exact noted
    · rw [tally_self,tally_self]
      exact kept.acquired at' unlocked counted

theorem test_sound (sound : Sound n r) {use : IdUse} (at' : r.threads.phase u = .tests use i) {s : IdThreads κ}
    (done : r.threads.advance u = some s) : Sound n (r.noted s (.advance u)) := by
  have running : (r.threads.phase u).running = some (use,i) := by rw [at']; rfl
  obtain ⟨inside,owner,kept⟩ := sound.holder (IdPhase.site_of_running running)
  obtain ⟨counter,_⟩ := sound.count_eq inside
  have positive : 0 < (entry r.threads.memory r.threads.pool n i).count := by
    have point := kept.point u rfl
    rw [at'] at point
    exact point
  rw [at'] at kept
  simp only [IdThreads.advance,at',counter,if_neg (Nat.ne_of_gt positive),Option.some.injEq] at done
  subst done
  refine sound.proceeds (p := .loads use i) running rfl sound.laid.entered_self rfl rfl (fun _ _ => rfl) (.inl rfl)
    ⟨owner,kept.moved rfl rfl (by simp [at',IdPhase.claim]) ?_ positive⟩
  exact fun _ zero => by omega

theorem load_sound (sound : Sound n r) {use : IdUse} (at' : r.threads.phase u = .loads use i)
    (below : use = .opens → count r.threads.memory r.threads.pool i ≠ 2^16 - 1) {s : IdThreads κ}
    (done : r.threads.advance u = some s) : Sound n (r.noted s (.advance u)) := by
  have running : (r.threads.phase u).running = some (use,i) := by rw [at']; rfl
  obtain ⟨inside,owner,kept⟩ := sound.holder (IdPhase.site_of_running running)
  obtain ⟨counter,bound⟩ := sound.count_eq inside
  have positive : 0 < (entry r.threads.memory r.threads.pool n i).count := by
    have point := kept.point u rfl
    rw [at'] at point
    exact point
  rw [at'] at kept
  simp only [IdThreads.advance,at',Option.some.injEq] at done
  subst done
  cases use with
  | opens =>
    have less := below rfl
    exact sound.proceeds running rfl sound.laid.entered_self rfl rfl (fun _ _ => rfl) (.inl rfl)
      ⟨owner,kept.moved rfl rfl (by simp [at',IdPhase.claim]) (fun _ zero => by omega) ⟨counter,by omega,by omega⟩⟩
  | closes =>
    exact sound.proceeds running rfl sound.laid.entered_self rfl rfl (fun _ _ => rfl) (.inl rfl)
      ⟨owner,kept.moved rfl rfl (by simp [at',IdPhase.claim]) (fun _ zero => by omega) ⟨counter,by omega⟩⟩

theorem store_sound (sound : Sound n r) {use : IdUse} {value : Nat} (at' : r.threads.phase u = .stores use i value)
    {s : IdThreads κ} (done : r.threads.advance u = some s) : Sound n (r.noted s (.advance u)) := by
  have running : (r.threads.phase u).running = some (use,i) := by rw [at']; rfl
  obtain ⟨inside,owner,kept⟩ := sound.holder (IdPhase.site_of_running running)
  obtain ⟨_,bound⟩ := sound.count_eq inside
  have point := kept.point u rfl
  rw [at'] at point
  have claim : (r.threads.phase u).claim = none := by rw [at']; rfl
  cases use with
  | opens =>
    obtain ⟨rfl,positive,less⟩ := point
    have current := kept.current positive
    have sum := current.2.1
    rw [at'] at sum
    simp only [IdPhase.raised,IdPhase.lowered,Nat.add_zero] at sum
    simp only [IdThreads.advance,at',Option.some.injEq] at done
    subst done
    refine sound.proceeds running rfl (sound.laid.entered_count inside _) rfl rfl (fun _ _ => rfl) (.inl rfl)
      ⟨owner,kept.counted rfl current claim rfl rfl ?_ ?_ ?_⟩
    · simp only [IdPhase.raised,IdPhase.lowered]
      omega
    · omega
    · change 1 < _ % 2^16
      omega
  | closes =>
    obtain ⟨rfl,positive⟩ := point
    have current := kept.current positive
    have sum := current.2.1
    rw [at'] at sum
    simp only [IdPhase.raised,IdPhase.lowered,Nat.add_zero] at sum
    have value : ((entry r.threads.memory r.threads.pool n i).count + (2^16 - 1)) % 2^16 =
        (entry r.threads.memory r.threads.pool n i).count - 1 := by omega
    have lowered : (entry r.threads.memory r.threads.pool n i).count - 1 + (r.closes i + 1) = 1 + (r.opens i + 0) := by
      omega
    simp only [IdThreads.advance,at',Option.some.injEq] at done
    subst done
    have entered := sound.laid.entered_count inside ((entry r.threads.memory r.threads.pool n i).count + (2^16 - 1))
    rw [value] at entered
    exact sound.proceeds running rfl entered rfl rfl (fun _ _ => rfl) (.inl rfl)
      ⟨owner,kept.counted rfl current claim rfl rfl lowered (fun _ => rfl) ⟨current.1,lowered,current.2.2⟩⟩

theorem retest_sound (sound : Sound n r) (at' : r.threads.phase u = .retests i) {s : IdThreads κ}
    (done : r.threads.advance u = some s) : Sound n (r.noted s (.advance u)) := by
  have running : (r.threads.phase u).running = some (.closes,i) := by rw [at']; rfl
  obtain ⟨inside,owner,kept⟩ := sound.holder (IdPhase.site_of_running running)
  obtain ⟨counter,_⟩ := sound.count_eq inside
  have current := kept.point u rfl
  rw [at'] at current kept
  simp only [IdThreads.advance,at',counter] at done
  split at done
  · rename_i zero
    cases done
    exact sound.proceeds (p := .reaps i) running rfl sound.laid.entered_self rfl rfl (fun _ _ => rfl) (.inl rfl)
      ⟨owner,kept.moved rfl rfl (by simp [at',IdPhase.claim]) (fun _ _ => .inr rfl) ⟨current,zero⟩⟩
  · rename_i nonzero
    cases done
    exact sound.proceeds (p := .releases .closes i) running rfl sound.laid.entered_self rfl rfl (fun _ _ => rfl)
      (.inl rfl)
      ⟨owner,kept.moved rfl rfl (by simp [at',IdPhase.claim]) (fun _ zero => absurd zero nonzero)
        (by simp [Point,current.2.2])⟩

theorem reap_sound (sound : Sound n r) (at' : r.threads.phase u = .reaps i) {s : IdThreads κ}
    (done : r.threads.advance u = some s) : Sound n (r.noted s (.advance u)) := by
  have running : (r.threads.phase u).running = some (.closes,i) := by rw [at']; rfl
  obtain ⟨inside,owner,kept⟩ := sound.holder (IdPhase.site_of_running running)
  have point := kept.point u rfl
  rw [at'] at point kept
  have last : load r.threads.memory 4 (idToAddress r.threads.memory r.threads.pool i) =
      (entry r.threads.memory r.threads.pool n i).ptr := by
    rw [sound.laid.idToAddress_eq inside]
    rfl
  simp only [IdThreads.advance,at',last,Option.some.injEq] at done
  subst done
  refine sound.proceeds (p := .frees i) running rfl sound.laid.entered_self rfl rfl ?_ (.inr ?_) ⟨some u,?_⟩
  · exact fun j other => update_of_ne other ..
  · simp only [IdThreads.goto,update_self]
    exact ⟨by simp,point.1.2.2⟩
  · simp only [IdThreads.goto,update_self]
    exact kept.reaped rfl at'

theorem free_sound (sound : Sound n r) (at' : r.threads.phase u = .frees i) {s : IdThreads κ}
    (done : r.threads.advance u = some s) : Sound n (r.noted s (.advance u)) := by
  have running : (r.threads.phase u).running = some (.closes,i) := by rw [at']; rfl
  obtain ⟨inside,owner,kept⟩ := sound.holder (IdPhase.site_of_running running)
  obtain ⟨memory,freed,entered⟩ := sound.laid.entered_free inside
  rw [at'] at kept
  simp only [IdThreads.advance,at',freed,Option.map_some,Option.some.injEq] at done
  subst done
  exact sound.proceeds (p := .releases .closes i) running rfl entered rfl rfl (fun _ _ => rfl) (.inl rfl)
    ⟨none,kept.freed rfl at'⟩

theorem release_noted (sound : Sound n r) {use : IdUse} (at' : r.threads.phase u = .releases use i)
    {s : IdThreads κ} (idle : s.phase u = .idle) : r.noted s (.advance u) = { r with
      threads := s
      call := update r.call u none
      opens := update r.opens i (r.opens i + (IdPhase.releases use i).raised)
      closes := update r.closes i (r.closes i + (IdPhase.releases use i).lowered) } := by
  have call := (sound.noted u).running use i (by rw [at']; rfl)
  rw [noted,if_pos idle,returned,call]
  cases use with
  | opens => simp [IdPhase.raised,IdPhase.lowered]
  | closes => simp [IdPhase.raised,IdPhase.lowered]

theorem release_sound (sound : Sound n r) {use : IdUse} (at' : r.threads.phase u = .releases use i)
    {s : IdThreads κ} (done : r.threads.advance u = some s) : Sound n (r.noted s (.advance u)) := by
  have site : (r.threads.phase u).site = some i := by rw [at']; rfl
  have target := IdPhase.target_of_site site
  obtain ⟨inside,owner,kept⟩ := sound.holder site
  simp only [IdThreads.advance,at',Option.some.injEq] at done
  subst done
  rw [release_noted sound at' (update_self ..)]
  refine sound.step (p := .idle) inside (sound.laid.entered_lock inside (by decide)) rfl rfl rfl ?_ (.inl ⟨rfl,rfl⟩)
    ?_ (by simp [IdPhase.target]) (by simp) ⟨fun _ => rfl,by simp,by simp,by simp [IdPhase.running]⟩ ⟨none,owner,?_⟩
  · exact fun j other => ⟨rfl,rfl,update_of_ne other ..,update_of_ne other ..⟩
  · exact fun j same => Option.some.inj (same.symm.trans target)
  · simp only [update_self,tally,Option.elim_none,Nat.add_zero]
    rw [at'] at kept
    exact kept.left rfl (by rw [at']; rfl) (by simp [at'])

theorem advance_sound (sound : Sound n r) (lives : r.Lives (.advance u)) (careful : r.Careful n (.advance u))
    {s : IdThreads κ} (done : r.threads.advance u = some s) : Sound n (r.noted s (.advance u)) := by
  change Guarded r.threads (r.threads.phase u) at careful
  cases at' : r.threads.phase u with
  | idle => simp [IdThreads.advance,at'] at done
  | writes id ptr =>
    rw [at'] at careful
    exact write_sound sound at' careful done
  | acquires use id => exact acquire_sound sound at' (lives ⟨use,id,at'⟩) done
  | tests use id => exact test_sound sound at' done
  | loads use id =>
    refine load_sound sound at' ?_ done
    rintro rfl
    rw [at'] at careful
    exact careful
  | stores use id value => exact store_sound sound at' done
  | retests id => exact retest_sound sound at' done
  | reaps id => exact reap_sound sound at' done
  | frees id => exact free_sound sound at' done
  | releases use id => exact release_sound sound at' done

/-- With an entry to spare, `Pool::allocate` finds an id that is settled. -/
theorem next_sound (sound : Sound n r) {ptr : Nat} (spare : r.Careful n (.next u ptr)) {s : IdThreads κ}
    (done : r.threads.perform (.next u ptr) = some s) : Sound n (r.noted s (.next u ptr)) := by
  obtain ⟨free,below,unset⟩ := spare
  rw [IdThreads.perform] at done
  split at done
  case isFalse => contradiction
  rename_i begin
  rw [sound.laid.allocate_eq] at done
  cases outcome : firstClear (bitmapGet (bits r.threads.memory r.threads.pool)) n 0 with
  | none =>
    rw [firstClear_none outcome free (by omega) (by omega)] at unset
    contradiction
  | some i =>
    obtain ⟨_,least,clear,_⟩ := firstClear_some outcome
    have inside : i < n := by omega
    simp only [outcome,Option.map_some,Option.some.injEq] at done
    subst done
    obtain ⟨holder,owner,kept⟩ := sound.kept i inside
    have outside : holder ≠ some u := by
      intro mine
      have site := (kept.site u).mpr mine
      rw [begin.1] at site
      cases site
    refine sound.step (p := .writes i ptr) (e := { entry r.threads.memory r.threads.pool n i with bit := true }) inside
      (sound.laid.entered_bit inside (bitmapMark (bits r.threads.memory r.threads.pool) i) ?_ ?_) rfl rfl rfl
      (fun _ _ => ⟨rfl,rfl,rfl,rfl⟩) (.inl ⟨rfl,rfl⟩) ?_ ?_ ?_ ?_ ⟨holder,some u,?_⟩
    · intro row other
      rw [bitmapMark,update_of_ne other]
    · intro j
      rw [bitmapGet_mark]
      by_cases same : j = i
      · simp [same]
      · simp [same,Ne.symm same]
    · simp [begin.1,IdPhase.target]
    · exact fun j same => (Option.some.inj same).symm
    · rintro id other ⟨⟩
      exact begin.2.2
    · exact ⟨by simp,fun id other same => by cases same; rfl,by simp,by simp [IdPhase.running]⟩
    · rw [tally_other _ outside,tally_other _ outside]
      exact kept.taken begin.1 clear

theorem start_sound (sound : Sound n r) {use : IdUse} (live : r.Live i) {s : IdThreads κ}
    (done : r.threads.perform (.start u use i) = some s) : Sound n (r.noted s (.start u use i)) := by
  rw [IdThreads.perform] at done
  split at done
  · rename_i begin
    cases done
    have inside : i < n := by
      by_contra large
      exact live.1 (sound.outside i (by omega)).1
    obtain ⟨holder,owner,kept⟩ := sound.kept i inside
    have outside : holder ≠ some u := by
      intro mine
      have site := (kept.site u).mpr mine
      rw [begin.1] at site
      cases site
    refine sound.step (p := .acquires use i) inside sound.laid.entered_self rfl rfl rfl
      (fun _ _ => ⟨rfl,rfl,rfl,rfl⟩) (.inl ⟨rfl,rfl⟩) ?_ ?_ (by simp) ?_ ⟨holder,owner,?_⟩
    · simp [begin.1,IdPhase.target]
    · exact fun j same => (Option.some.inj same).symm
    · exact ⟨by simp,by simp,fun other id same => by cases same; exact ⟨_,rfl⟩,by simp [IdPhase.running]⟩
    · rw [tally_other _ outside,tally_other _ outside]
      exact kept.elsewhere (by simp [begin.1,IdPhase.site,IdPhase.claim]) (by simp [IdPhase.site,IdPhase.claim])
  · contradiction

theorem step_sound (sound : Sound n r) (step : r.CarefulStep n t) : Sound n t := by
  obtain ⟨e,lives,careful,done⟩ := step
  obtain ⟨s,performed,rfl⟩ := Option.map_eq_some_iff.mp done
  cases e with
  | next u ptr => exact next_sound sound careful performed
  | start u use id => exact start_sound sound lives performed
  | advance u =>
    rw [IdThreads.perform] at performed
    split at performed
    · contradiction
    · exact advance_sound sound lives careful performed
  | leaves u =>
    -- The thread keeps its place, and the lock if it has one.
    rw [IdThreads.perform] at performed
    split at performed
    · cases performed
      exact ⟨sound.laid,sound.target,sound.word,sound.outside,sound.kept,sound.noted⟩
    · contradiction

omit [DecidableEq κ] in
theorem fresh_sound (fresh : Fresh n r) : Sound n r := by
  obtain ⟨m,start,_,_,_,room,rfl⟩ := fresh
  obtain ⟨laid,clear⟩ := createPool_spec m room
  refine ⟨laid,by simp [IdPhase.target],by simp,fun _ _ => ⟨rfl,rfl⟩,?_,fun u => ?_⟩
  · intro i inside
    have row := laid.stands.row_lt inside
    have fits := record_room start inside
    have bit : bitmapGet (bits (createPool idSize 0 m n start) start) i = false := by
      rw [bitmapGet,laid.bits_eq row,clear _ (by omega) (by omega)]
      simp
    have record : ∀ b, recordOf start n i ≤ b → b < recordOf start n i + idSize → createPool idSize 0 m n start b = 0 := by
      intro b low high
      unfold recordOf at low
      exact clear b (by omega) (by omega)
    have zero : (entry (createPool idSize 0 m n start) start n i).count = 0 := by
      simp only [idSize] at record fits room
      exact load_zero (by omega) (fun b low high => record b (by omega) (by omega))
    refine ⟨none,none,?_,?_,by simp,by simp,.inr ⟨zero,rfl,.inl rfl⟩,?_,?_,by simp⟩
    · simp [Traced,IdPhase.site]
    · simp [Traced,IdPhase.claim]
    · exact fun current => absurd current.2.2 (by simp)
    · exact fun marked => absurd (marked.symm.trans bit) (by simp)
  · exact ⟨fun _ => rfl,by simp,by simp,by simp [IdPhase.running]⟩

theorem advance_handed {r s : IdThreads κ} (done : r.advance u = some s) : s.handed = r.handed ∨
    ∃ i, r.phase u = .reaps i ∧
      s.handed = update r.handed i (r.handed i ++ [load r.memory 4 (idToAddress r.memory r.pool i)]) := by
  cases at' : r.phase u with
  | idle => simp [IdThreads.advance,at'] at done
  | acquires use id =>
    simp only [IdThreads.advance,at'] at done
    split at done
    · contradiction
    · cases done
      exact .inl rfl
  | tests use id | retests id =>
    simp only [IdThreads.advance,at'] at done
    split at done <;> cases done <;> exact .inl rfl
  | writes id ptr | loads use id | releases use id =>
    simp only [IdThreads.advance,at',Option.some.injEq] at done
    exact .inl (done ▸ rfl)
  | stores use id value =>
    cases use <;> simp only [IdThreads.advance,at',Option.some.injEq] at done <;> exact .inl (done ▸ rfl)
  | reaps id =>
    simp only [IdThreads.advance,at',Option.some.injEq] at done
    exact .inr ⟨id,rfl,done ▸ rfl⟩
  | frees id =>
    simp only [IdThreads.advance,at'] at done
    obtain ⟨_,_,rfl⟩ := Option.map_eq_some_iff.mp done
    exact .inl rfl

theorem noted_threads (r : IdCalls κ) (s : IdThreads κ) (e : IdEvent κ) : (r.noted s e).threads = s := by
  cases e with
  | advance u =>
    rw [noted]
    split
    · unfold returned
      split <;> rfl
    · unfold goesOn
      split <;> rfl
  | next | start | leaves => rfl

/-- Only a `close` hands an object over, when as many have returned as opens have. -/
theorem Sound.handing (sound : Sound n r) {e : IdEvent κ} (done : r.perform e = some t) (id : Nat) :
    t.threads.handed id = r.threads.handed id ∨ ∃ u p, e = .advance u ∧
      r.call u = some (.uses .closes id (r.issued id).length none) ∧
      t.threads.handed id = r.threads.handed id ++ [p] ∧ r.issued id = r.threads.handed id ++ [p] ∧
      r.closes id = r.opens id := by
  obtain ⟨s,performed,rfl⟩ := Option.map_eq_some_iff.mp done
  rw [noted_threads]
  cases e with
  | next u ptr =>
    rw [IdThreads.perform] at performed
    split at performed
    · obtain ⟨_,_,rfl⟩ := Option.map_eq_some_iff.mp performed
      exact .inl rfl
    · contradiction
  | start u use i | leaves u =>
    rw [IdThreads.perform] at performed
    split at performed
    · cases performed
      exact .inl rfl
    · contradiction
  | advance u =>
    rw [IdThreads.perform] at performed
    split at performed
    · contradiction
    rcases advance_handed performed with same | ⟨i,at',handed⟩
    · exact .inl (congrFun same id)
    · by_cases here : id = i
      · subst id
        obtain ⟨inside,owner,kept⟩ := sound.holder (u := u) (i := i) (by rw [at']; rfl)
        have call := (sound.noted u).running .closes i (by rw [at']; rfl)
        have point := kept.point u rfl
        rw [at'] at point
        obtain ⟨⟨_,sum,last⟩,zero⟩ := point
        have unreaped : lastReaped r.issued r.threads.handed i = none := if_neg (fun same => by simp [same] at last)
        rw [unreaped] at call
        simp only [IdPhase.raised,IdPhase.lowered] at sum
        refine .inr ⟨u,(entry r.threads.memory r.threads.pool n i).ptr,rfl,call,?_,last,by omega⟩
        rw [handed,update_self,sound.laid.idToAddress_eq inside]
        rfl
      · rw [handed,update_of_ne here]
        exact .inl rfl

omit [DecidableEq κ] in
theorem current_live {holder owner : Option κ} (kept : Kept r.threads.phase
      (entry r.threads.memory r.threads.pool n i) (r.issued i) (r.threads.handed i)
      (r.opens i + tally IdPhase.raised r.threads.phase holder)
      (r.closes i + tally IdPhase.lowered r.threads.phase holder) i holder owner)
    (current : Current (entry r.threads.memory r.threads.pool n i) (r.issued i) (r.threads.handed i)
      (r.opens i + tally IdPhase.raised r.threads.phase holder)
      (r.closes i + tally IdPhase.lowered r.threads.phase holder)) : r.Live i := by
  have sum := current.2.1
  refine ⟨by simp [current.2.2],?_⟩
  by_contra closed
  rcases holder with _ | u
  · simp only [tally,Option.elim_none] at sum
    obtain ⟨_,impossible,_⟩ := kept.closing current (by omega)
    cases impossible
  · have point := kept.point u rfl
    simp only [tally,Option.elim_some] at sum
    by_cases zero : (entry r.threads.memory r.threads.pool n i).count = 0
    · obtain ⟨v,same,at'⟩ := kept.closing current zero
      obtain rfl := Option.some.inj same
      rcases at' with at' | at'
      all_goals
        rw [at'] at sum
        simp only [IdPhase.raised,IdPhase.lowered] at sum
        omega
    · -- An `open` in progress has two references at least.
      have raised : (r.threads.phase u).raised = 0 ∨ 1 < (entry r.threads.memory r.threads.pool n i).count := by
        cases at' : r.threads.phase u with
        | releases use id =>
          cases use with
          | opens =>
            rw [at'] at point
            exact .inr point
          | closes => exact .inl rfl
        | _ => exact .inl rfl
      have most : (r.threads.phase u).raised ≤ 1 := by
        unfold IdPhase.raised
        split <;> omega
      omega

theorem IdPhase.lowered_running {p : IdPhase} {i : Nat} (site : p.site = some i) (lowered : p.lowered ≠ 0) :
    p.running = some (.closes,i) ∧ p.raised = 0 ∧ p.lowered = 1 := by
  cases p with
  | releases use id => cases use <;> simp_all [IdPhase.site,IdPhase.lowered,IdPhase.running,IdPhase.raised]
  | _ => simp_all [IdPhase.site,IdPhase.lowered,IdPhase.running,IdPhase.raised]

omit [DecidableEq κ] in
theorem Sound.objects (sound : Sound n r) (id : Nat) :
    (r.Live id → (∃ p, r.issued id = r.threads.handed id ++ [p]) ∨ r.issued id = r.threads.handed id ∧
      r.closes id = r.opens id ∧ ∃ u p, r.call u = some (.uses .closes id (r.issued id).length (some p))) ∧
    (¬r.Live id → r.issued id = r.threads.handed id) := by
  by_cases inside : id < n
  · obtain ⟨holder,owner,kept⟩ := sound.kept id inside
    rcases kept.stage with current | ⟨zero,same,settled⟩
    · exact ⟨fun _ => .inl ⟨_,current.2.2⟩,fun dead => absurd (current_live kept current) dead⟩
    · refine ⟨fun live => .inr ⟨same,?_⟩,fun _ => same⟩
      -- The last close has handed the object over and is on its way back.
      obtain ⟨issued,open'⟩ := live
      have closed := settled.resolve_left issued
      rcases holder with _ | u
      · simp only [tally,Option.elim_none] at closed
        omega
      · simp only [tally,Option.elim_some] at closed
        obtain ⟨running,raised,lowered⟩ := IdPhase.lowered_running ((kept.site u).mpr rfl)
          (by omega : (r.threads.phase u).lowered ≠ 0)
        have call := (sound.noted u).running _ _ running
        obtain ⟨p,last⟩ := lastReaped_some same issued
        rw [last] at call
        exact ⟨by omega,u,p,call⟩
  · obtain ⟨issued,handed⟩ := sound.outside id (by omega)
    exact ⟨fun live => absurd issued live.1,fun _ => by rw [issued,handed]⟩

theorem advance_idle {r s : IdThreads κ} (done : r.advance u = some s) (idle : s.phase u = .idle) :
    (∃ id ptr, r.phase u = .writes id ptr) ∨ (∃ use id, r.phase u = .tests use id ∧ count r.memory r.pool id = 0) ∨
      ∃ use id, r.phase u = .releases use id := by
  cases at' : r.phase u with
  | idle => simp [IdThreads.advance,at'] at done
  | writes id ptr => exact .inl ⟨id,ptr,rfl⟩
  | releases use id => exact .inr (.inr ⟨use,id,rfl⟩)
  | tests use id =>
    simp only [IdThreads.advance,at'] at done
    split at done
    · rename_i zero
      exact .inr (.inl ⟨use,id,rfl,zero⟩)
    · cases done
      simp [IdThreads.goto] at idle
  | acquires use id | retests id =>
    simp only [IdThreads.advance,at'] at done
    split at done <;> cases done <;> simp [IdThreads.goto] at idle
  | loads use id | reaps id =>
    simp only [IdThreads.advance,at',Option.some.injEq] at done
    subst done
    simp [IdThreads.goto] at idle
  | stores use id value =>
    cases use <;> simp only [IdThreads.advance,at',Option.some.injEq] at done <;> subst done <;>
      simp [IdThreads.goto] at idle
  | frees id =>
    simp only [IdThreads.advance,at'] at done
    obtain ⟨_,_,rfl⟩ := Option.map_eq_some_iff.mp done
    simp [IdThreads.goto] at idle

/-- A call that returns has handed the object over just when it is the `close` that makes the closes
one more than the opens. -/
theorem Sound.returns (sound : Sound n r) {use : IdUse} {generation : Nat} {reaped : Option Nat}
    (call : r.call u = some (.uses use i generation reaped)) (done : r.perform (.advance u) = some t)
    (back : t.call u = none) : reaped ≠ none ↔ use = .closes ∧ t.closes i = t.opens i + 1 := by
  obtain ⟨s,performed,rfl⟩ := Option.map_eq_some_iff.mp done
  rw [IdThreads.perform] at performed
  split at performed
  · contradiction
  by_cases idle : s.phase u = .idle
  · rcases advance_idle performed idle with ⟨id,ptr,at'⟩ | ⟨other,id,at',zero⟩ | ⟨other,id,at'⟩
    · cases call.symm.trans ((sound.noted u).writes id ptr at')
    · obtain ⟨inside,_,kept⟩ := sound.holder (u := u) (i := id) (by rw [at']; rfl)
      have point := kept.point u rfl
      rw [at'] at point
      rw [(sound.count_eq inside).1] at zero
      exact absurd zero (Nat.ne_of_gt point)
    · cases call.symm.trans ((sound.noted u).running other id (by rw [at']; rfl))
      obtain ⟨inside,_,kept⟩ := sound.holder (u := u) (i := i) (by rw [at']; rfl)
      have point := kept.point u rfl
      rw [release_noted sound at' idle]
      simp only [update_self]
      rw [at'] at kept point
      rcases kept.stage with current | ⟨zero,same,settled⟩
      · have unreaped : lastReaped r.issued r.threads.handed i = none :=
          if_neg (fun same => by simpa [same] using current.2.2)
        have counted : (entry r.threads.memory r.threads.pool n i).count ≠ 0 := by
          intro zero
          obtain ⟨v,same,place⟩ := kept.closing current zero
          obtain rfl := Option.some.inj same
          simp [at'] at place
        have sum := current.2.1
        rw [unreaped]
        refine iff_of_false (by simp) (fun ⟨closes,last⟩ => ?_)
        omega
      · cases use with
        | opens =>
          change 1 < _ at point
          omega
        | closes =>
          obtain ⟨p,reaped⟩ := lastReaped_some same point
          exact iff_of_true (by simp [reaped]) ⟨rfl,settled.resolve_left point⟩
  · rw [IdCalls.noted,if_neg idle,goesOn_uses call] at back
    simp at back

theorem Sound.issues (sound : Sound n r) {ptr : Nat} (call : r.call u = some (.next ptr))
    (done : r.perform (.advance u) = some t) : t.call u = none ∧
      r.issued (t.threads.result u) = r.threads.handed (t.threads.result u) ∧
      t.issued = update r.issued (t.threads.result u) (r.issued (t.threads.result u) ++ [ptr]) := by
  obtain ⟨s,performed,rfl⟩ := Option.map_eq_some_iff.mp done
  rw [noted_threads]
  rw [IdThreads.perform] at performed
  split at performed
  · contradiction
  cases at' : r.threads.phase u with
  | idle => cases call.symm.trans ((sound.noted u).idle at')
  | acquires use id =>
    obtain ⟨_,other⟩ := (sound.noted u).acquires use id at'
    cases call.symm.trans other
  | writes id ptr' =>
    obtain ⟨holder,owner,kept⟩ := sound.kept id (sound.target u id (by rw [at']; rfl))
    obtain rfl := (kept.claim u).mp (by rw [at']; rfl)
    obtain ⟨_,_,same,_⟩ := kept.claimed (by simp)
    simp only [IdThreads.advance,at',Option.some.injEq] at performed
    have idle : s.phase u = .idle := by rw [← performed]; exact update_self ..
    have result : s.result u = id := by rw [← performed]; exact update_self ..
    rw [IdCalls.noted,if_pos idle,returned,call,result]
    exact ⟨update_self ..,same,rfl⟩
  | tests | loads | stores | retests | reaps | frees | releases =>
    cases call.symm.trans ((sound.noted u).running _ _ (by rw [at']; rfl))

/-- In every run of careful calls on live ids, by any number of threads: an object that `next`
returned an id for stays the last one issued until it is handed over, in a `close` before which as
many closes as opens have returned. A call that returns has handed the object over just when it is
the `close` that makes the closes one more than the opens, and `next` returns an id only when all
its objects have been handed over. -/
theorem references_keep_objects (n : Nat) (r : IdCalls κ) (reached : Reach (Fresh n) (CarefulStep n) r) :
    (∀ id, (r.Live id → (∃ p, r.issued id = r.threads.handed id ++ [p]) ∨
        r.issued id = r.threads.handed id ∧ r.closes id = r.opens id ∧
          ∃ u p, r.call u = some (.uses .closes id (r.issued id).length (some p))) ∧
      (¬r.Live id → r.issued id = r.threads.handed id)) ∧
    (∀ e t, r.perform e = some t → ∀ id, t.threads.handed id = r.threads.handed id ∨
      ∃ u p, e = .advance u ∧ r.call u = some (.uses .closes id (r.issued id).length none) ∧
        t.threads.handed id = r.threads.handed id ++ [p] ∧ r.issued id = r.threads.handed id ++ [p] ∧
        r.closes id = r.opens id) ∧
    (∀ u t use id generation reaped, r.call u = some (.uses use id generation reaped) →
      r.perform (.advance u) = some t → t.call u = none →
      (reaped ≠ none ↔ use = .closes ∧ t.closes id = t.opens id + 1)) ∧
    ∀ u ptr t, r.call u = some (.next ptr) → r.perform (.advance u) = some t → t.call u = none ∧
      r.issued (t.threads.result u) = r.threads.handed (t.threads.result u) ∧
      t.issued = update r.issued (t.threads.result u) (r.issued (t.threads.result u) ++ [ptr]) := by
  have sound : Sound n r := reached.invariant (Sound n) (fun _ => fresh_sound) (fun _ _ => step_sound)
  exact ⟨sound.objects,fun _ _ done => sound.handing done,fun _ _ _ _ _ _ call done => sound.returns call done,
    fun _ _ _ call done => sound.issues call done⟩

/-- A new pool for two ids at the bottom of blank memory, and three threads. The pointer 7 is the
control block of one of them. -/
def pair (owner : Fin 3) : IdCalls (Fin 3) :=
  ⟨⟨createPool idSize 0 (fun _ => 0) 2 0,0,fun ptr => if ptr = 7 then some owner else none,fun _ => .idle,fun _ => 0,
    fun _ => [],fun _ => false,fun _ => false⟩,fun _ => none,fun _ => [],fun _ => 0,fun _ => 0⟩

theorem pair_fresh (owner : Fin 3) : Fresh 2 (pair owner) := ⟨fun _ => 0,0,_,_,_,by decide,rfl⟩

def callOf {κ : Type} (thread : κ) (use : IdUse) (k : Nat) : List (IdEvent κ) :=
  .start thread use 0 :: List.replicate k (.advance thread)

/-- An id is issued for 7, opened and closed twice, by two threads. The second close hands 7 over,
and the thread that made it is switched out when it has come back. -/
def twoThreads {κ : Type} (a b : κ) : List (IdEvent κ) :=
  [.next a 7,.advance a] ++ callOf b .opens 5 ++ callOf a .closes 6 ++ callOf b .closes 8 ++ [.leaves b]

theorem object_reaped_once : ∃ r : IdCalls (Fin 3), Reach (Fresh 2) (CarefulStep 2) r ∧
    r.threads.handed 0 = [7] ∧ r.opens 0 = 1 ∧ r.closes 0 = 2 ∧ r.threads.left 1 = true ∧
    r.issued 0 = r.threads.handed 0 := by
  have done : ((twoThreads 0 1).foldlM (checked (fun r e => decide (r.Lives e ∧ r.Careful 2 e))) (pair 1)).map (fun r =>
      (r.threads.handed 0,r.opens 0,r.closes 0,r.threads.left 1)) = some ([7],1,2,true) := by decide +kernel
  obtain ⟨r,ended,facts⟩ := Option.map_eq_some_iff.mp done
  simp only [Prod.mk.injEq] at facts
  obtain ⟨handed,opens,closes,left⟩ := facts
  have reached : Reach (Fresh 2) (CarefulStep 2) r := by
    refine Reach.events (fun r e t done => ?_) ended (.start (pair_fresh 1))
    obtain ⟨passed,step⟩ := checked_eq done
    obtain ⟨lives,careful⟩ := of_decide_eq_true passed
    exact ⟨e,lives,careful,step⟩
  refine ⟨r,reached,handed,opens,closes,left,((references_keep_objects 2 r reached).1 0).2 ?_⟩
  rintro ⟨_,open'⟩
  omega

/-- The id is issued for 8, and the closing thread stops behind `Pool::free`. The id is issued again, for
9, and a second thread is in `open` when the first one goes on to release the lock that is now the
second one's. A third thread opens the id as well, and one of the two opens is lost. -/
def recycled {κ : Type} (a b c : κ) : List (IdEvent κ) :=
  [.next a 8,.advance a] ++ callOf a .closes 7 ++ [.next b 9,.advance b] ++ callOf b .opens 3 ++ [.advance a] ++
    callOf c .opens 3 ++ [.advance b,.advance b,.advance c,.advance c] ++ callOf b .closes 6 ++ callOf b .closes 8

/-- The second close of an object that was opened twice hands it over, with one reference left. -/
theorem object_reaped_early : ∃ r : IdCalls (Fin 3), Reach (Fresh 2) Step r ∧ (∀ u, r.threads.phase u = .idle) ∧
    r.issued 0 = [8,9] ∧ r.threads.handed 0 = [8,9] ∧ r.opens 0 = 2 ∧ r.closes 0 = 2 ∧ r.Live 0 := by
  have done : ((recycled 0 1 2).foldlM (checked (fun r e => decide (r.Lives e))) (pair 1)).map (fun r =>
      (decide (∀ u, r.threads.phase u = .idle),r.issued 0,r.threads.handed 0,r.opens 0,r.closes 0)) =
      some (true,[8,9],[8,9],2,2) := by decide +kernel
  obtain ⟨r,ended,facts⟩ := Option.map_eq_some_iff.mp done
  simp only [Prod.mk.injEq,decide_eq_true_eq] at facts
  obtain ⟨idle,issued,handed,opens,closes⟩ := facts
  have reached : Reach (Fresh 2) Step r := by
    refine Reach.events (fun r e t done => ?_) ended (.start (pair_fresh 1))
    obtain ⟨passed,step⟩ := checked_eq done
    exact ⟨e,of_decide_eq_true passed,step⟩
  exact ⟨r,reached,idle,issued,handed,opens,closes,by rw [issued]; simp,by omega⟩

end IdCalls

end RudimentaryKernel
