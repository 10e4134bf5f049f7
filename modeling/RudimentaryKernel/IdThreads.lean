import RudimentaryKernel.IdUnique

/-! Threads that use one `IDAllocator` at the same time. A call of `next`, `open` or `close` is cut
where another thread may run: at every access to the record of the id. Taking and giving back an
entry of the pool happens under the lock of its bitmap and is one step. A thread that finds the
lock of a record taken waits until it is not. `reaping_func` of the tids marks a thread `EXITED`; such
a thread may still go on in its call, and once it has been switched out it never runs again.
Beside the threads stands what their callers know: the calls that have begun and those that have
returned. -/
namespace RudimentaryKernel

open Function ByteMemory IdPool

/-- `open` and `close` begin alike. -/
inductive IdUse where
  | opens
  | closes
  deriving DecidableEq, Repr

/-- Where a thread is in its call. -/
inductive IdPhase where
  | idle
  | writes (id ptr : Nat)
  | acquires (use : IdUse) (id : Nat)
  | tests (use : IdUse) (id : Nat)
  | loads (use : IdUse) (id : Nat)
  | stores (use : IdUse) (id value : Nat)
  | retests (id : Nat)
  | reaps (id : Nat)
  | frees (id : Nat)
  | releases (use : IdUse) (id : Nat)
  deriving DecidableEq, Repr

namespace IdPhase

def site : IdPhase → Option Nat
  | .tests _ id | .loads _ id | .stores _ id _ | .retests id | .reaps id | .frees id
  | .releases _ id => some id
  | .idle | .writes _ _ | .acquires _ _ => none

def Inside (phase : IdPhase) (id : Nat) : Prop := phase.site = some id

instance (phase : IdPhase) (id : Nat) : Decidable (phase.Inside id) := inferInstanceAs (Decidable (_ = _))

end IdPhase

/-- The memory of the allocator and the threads `κ` in their calls. `reaping` is `reaping_func`, as
the thread it marks for a pointer: `thread_reap_delayed` takes the pointer for a control block,
`dummy_idk` marks nobody. `handed` has the arguments it was called with in a `close` of each id. -/
structure IdThreads (κ : Type) where
  memory : Memory
  pool : Nat
  reaping : Nat → Option κ
  phase : κ → IdPhase
  result : κ → Nat
  handed : Nat → List Nat
  exited : κ → Bool
  left : κ → Bool

inductive IdEvent (κ : Type) where
  | next (thread : κ) (ptr : Nat)
  | start (thread : κ) (use : IdUse) (id : Nat)
  | advance (thread : κ)
  | leaves (thread : κ)

namespace IdThreads

variable {κ : Type} [DecidableEq κ]

def goto (r : IdThreads κ) (thread : κ) (phase : IdPhase) : IdThreads κ :=
  { r with phase := update r.phase thread phase }

def reap (r : IdThreads κ) (ptr : Nat) : κ → Bool :=
  match r.reaping ptr with
  | some thread => update r.exited thread true
  | none => r.exited

/-- The next step of a thread in its call; `none` where it has none or waits. -/
def advance (r : IdThreads κ) (thread : κ) : Option (IdThreads κ) :=
  match r.phase thread with
  | .idle => none
  | .writes id ptr => some ({ r with
      memory := writeId r.memory (idToAddress r.memory r.pool id) ptr
      result := update r.result thread id }.goto thread .idle)
  | .acquires use id =>
    if load r.memory 4 (idLock r.memory r.pool id) = 1 then none
    else some ({ r with memory := store r.memory 4 (idLock r.memory r.pool id) 1 }.goto thread (.tests use id))
  | .tests use id =>
    if count r.memory r.pool id = 0 then some (r.goto thread .idle) else some (r.goto thread (.loads use id))
  | .loads use id => some (r.goto thread (.stores use id (count r.memory r.pool id)))
  | .stores .opens id value =>
    some ({ r with memory := setCount r.memory r.pool id (value + 1) }.goto thread (.releases .opens id))
  | .stores .closes id value =>
    some ({ r with memory := setCount r.memory r.pool id (value + (2^16 - 1)) }.goto thread (.retests id))
  | .retests id =>
    if count r.memory r.pool id = 0 then some (r.goto thread (.reaps id))
    else some (r.goto thread (.releases .closes id))
  | .reaps id =>
    let ptr := load r.memory 4 (idToAddress r.memory r.pool id)
    some ({ r with
      handed := update r.handed id (r.handed id ++ [ptr])
      exited := r.reap ptr }.goto thread (.frees id))
  | .frees id =>
    (IdPool.free r.memory r.pool id).map (fun m => { r with memory := m }.goto thread (.releases .closes id))
  | .releases _ id =>
    some ({ r with memory := store r.memory 4 (idLock r.memory r.pool id) 0 }.goto thread .idle)

/-- A thread starts a call or goes on with the one it is in. One that is marked may be switched out
for good, wherever it is. -/
def perform (r : IdThreads κ) : IdEvent κ → Option (IdThreads κ)
  | .next thread ptr =>
    if r.phase thread = .idle ∧ r.left thread = false ∧ ptr < 2^32 then
      (IdPool.allocate r.memory r.pool).map (fun (m,id) => { r with memory := m }.goto thread (.writes id ptr))
    else none
  | .start thread use id =>
    if r.phase thread = .idle ∧ r.left thread = false then some (r.goto thread (.acquires use id)) else none
  | .advance thread => if r.left thread then none else r.advance thread
  | .leaves thread => if r.exited thread then some { r with left := update r.left thread true } else none

end IdThreads

/-- A call in progress. One on an id has begun when `generation` objects had had the id, and has
passed `reaped` to `reaping_func`. -/
inductive IdCall where
  | next (ptr : Nat)
  | uses (use : IdUse) (id generation : Nat) (reaped : Option Nat)
  deriving DecidableEq, Repr

/-- The threads, the calls they are in, and what has returned: of every id the objects that `next`
returned it for, and how many calls of `open` and `close` for the last of them. -/
structure IdCalls (κ : Type) where
  threads : IdThreads κ
  call : κ → Option IdCall
  issued : Nat → List Nat
  opens : Nat → Nat
  closes : Nat → Nat

namespace IdCalls

variable {κ : Type}

/-- `next` has returned the id, and it has not been closed once more than opened. -/
def Live (r : IdCalls κ) (id : Nat) : Prop := r.issued id ≠ [] ∧ r.closes id ≤ r.opens id

instance (r : IdCalls κ) (id : Nat) : Decidable (r.Live id) := inferInstanceAs (Decidable (_ ∧ _))

/-- The id that an `open` or `close` was called on has been live since. -/
def Lasts (r : IdCalls κ) : Option IdCall → Prop
  | some (.uses _ id generation _) => r.Live id ∧ generation = (r.issued id).length
  | some (.next _) | none => True

instance (r : IdCalls κ) (call : Option IdCall) : Decidable (r.Lasts call) :=
  match call with
  | some (.uses _ id generation _) => inferInstanceAs (Decidable (r.Live id ∧ generation = (r.issued id).length))
  | some (.next _) | none => isTrue trivial

variable [DecidableEq κ]

/-- The call of a thread has come back. A call for an object that is no longer the last one of its
id does not count. -/
def returned (r : IdCalls κ) (thread : κ) (t : IdThreads κ) : IdCalls κ :=
  match r.call thread with
  | some (.next ptr) => { r with
      threads := t
      call := update r.call thread none
      issued := update r.issued (t.result thread) (r.issued (t.result thread) ++ [ptr])
      opens := update r.opens (t.result thread) 0
      closes := update r.closes (t.result thread) 0 }
  | some (.uses .opens id generation _) => { r with
      threads := t
      call := update r.call thread none
      opens := if generation = (r.issued id).length then update r.opens id (r.opens id + 1) else r.opens }
  | some (.uses .closes id generation _) => { r with
      threads := t
      call := update r.call thread none
      closes := if generation = (r.issued id).length then update r.closes id (r.closes id + 1) else r.closes }
  | none => { r with threads := t }

def goesOn (r : IdCalls κ) (thread : κ) (t : IdThreads κ) : IdCalls κ :=
  match r.call thread with
  | some (.uses use id generation reaped) => { r with
      threads := t
      call := update r.call thread (some (.uses use id generation
        (if t.handed id = r.threads.handed id then reaped else (t.handed id).getLast?))) }
  | some (.next _) | none => { r with threads := t }

def noted (r : IdCalls κ) (t : IdThreads κ) : IdEvent κ → IdCalls κ
  | .next thread ptr => { r with threads := t, call := update r.call thread (some (.next ptr)) }
  | .start thread use id => { r with
      threads := t
      call := update r.call thread (some (.uses use id (r.issued id).length none)) }
  | .advance thread => if t.phase thread = .idle then r.returned thread t else r.goesOn thread t
  | .leaves _ => { r with threads := t }

def perform (r : IdCalls κ) (e : IdEvent κ) : Option (IdCalls κ) :=
  (r.threads.perform e).map (fun t => r.noted t e)

/-- Calls are on live ids: the id is live when the call is made and still is when it gets the lock. -/
def Lives (r : IdCalls κ) : IdEvent κ → Prop
  | .start _ _ id => r.Live id
  | .advance thread => (∃ use id, r.threads.phase thread = .acquires use id) → r.Lasts (r.call thread)
  | .next _ _ | .leaves _ => True

/-- What a careful thread waits for at its place: `next` does not write the record of an id while a
thread is inside a call on it, and `open` does not raise a counter at its largest value. -/
def Guarded (r : IdThreads κ) : IdPhase → Prop
  | .writes id _ => ∀ other, ¬(r.phase other).Inside id
  | .loads .opens id => count r.memory r.pool id ≠ 2^16 - 1
  | _ => True

/-- The step is guarded, and `next` is called with an entry to spare only. -/
def Careful (n : Nat) (r : IdCalls κ) : IdEvent κ → Prop
  | .next _ _ => ∃ id, id < n ∧ bitmapGet (bits r.threads.memory r.threads.pool) id = false
  | .start _ _ _ | .leaves _ => True
  | .advance thread => Guarded r.threads (r.threads.phase thread)

instance (r : IdCalls κ) (e : IdEvent κ) : Decidable (r.Lives e) :=
  match e with
  | .start _ _ id => inferInstanceAs (Decidable (r.Live id))
  | .next _ _ | .leaves _ => isTrue trivial
  | .advance thread =>
    match at' : r.threads.phase thread with
    | .acquires use id =>
      decidable_of_iff (r.Lasts (r.call thread)) ⟨fun lasts _ => lasts,fun lives => lives ⟨use,id,at'⟩⟩
    | .idle | .writes _ _ | .tests _ _ | .loads _ _ | .stores _ _ _ | .retests _ | .reaps _ | .frees _
    | .releases _ _ => isTrue (fun ⟨_,_,same⟩ => nomatch at'.symm.trans same)

instance {k : Nat} (r : IdThreads (Fin k)) (phase : IdPhase) : Decidable (Guarded r phase) :=
  match phase with
  | .writes id _ => inferInstanceAs (Decidable (∀ other, ¬(r.phase other).Inside id))
  | .loads .opens id => inferInstanceAs (Decidable (count r.memory r.pool id ≠ 2^16 - 1))
  | .loads .closes _ | .idle | .acquires _ _ | .tests _ _ | .stores _ _ _ | .retests _ | .reaps _ | .frees _
  | .releases _ _ => isTrue trivial

instance {k : Nat} (n : Nat) (r : IdCalls (Fin k)) (e : IdEvent (Fin k)) : Decidable (r.Careful n e) :=
  match e with
  | .next _ _ =>
    inferInstanceAs (Decidable (∃ id, id < n ∧ bitmapGet (bits r.threads.memory r.threads.pool) id = false))
  | .start _ _ _ | .leaves _ => isTrue trivial
  | .advance thread => inferInstanceAs (Decidable (Guarded r.threads (r.threads.phase thread)))

def Step (r t : IdCalls κ) : Prop := ∃ e, r.Lives e ∧ r.perform e = some t

def CarefulStep (n : Nat) (r t : IdCalls κ) : Prop := ∃ e, r.Lives e ∧ r.Careful n e ∧ r.perform e = some t

def Fresh (n : Nat) (r : IdCalls κ) : Prop :=
  ∃ (m : Memory) (start : Nat) (reaping : Nat → Option κ) (result : κ → Nat) (exited : κ → Bool),
    start + headerSize + bitmapBytes n + n * idSize < 2^32 ∧
    r = ⟨⟨createPool idSize 0 m n start,start,reaping,fun _ => .idle,result,fun _ => [],exited,fun _ => false⟩,
      fun _ => none,fun _ => [],fun _ => 0,fun _ => 0⟩

def checked (allowed : IdCalls κ → IdEvent κ → Bool) (r : IdCalls κ) (e : IdEvent κ) : Option (IdCalls κ) :=
  if allowed r e then r.perform e else none

theorem checked_eq {allowed : IdCalls κ → IdEvent κ → Bool} {r t : IdCalls κ} {e : IdEvent κ}
    (done : checked allowed r e = some t) : allowed r e = true ∧ r.perform e = some t := by
  rw [checked] at done
  split at done
  · exact ⟨‹_›,done⟩
  · contradiction

end IdCalls

end RudimentaryKernel
