import Mathlib.Data.List.Nodup
import Mathlib.Logic.Function.Basic

/-! Where the threads are: a ready ring, written with the running thread first, and
any number of wait queues. The five operations of a scheduler are list operations,
and every one of them keeps each thread in exactly one place. -/
namespace RudimentaryKernel

open Function List

/-- A ready ring and wait queues of threads `τ`, the queues indexed by `ι`. -/
structure Places (ι τ : Type) where
  ring : List τ
  waiting : ι → List τ

namespace Places

variable {ι τ : Type} {p : Places ι τ} {q : ι} {c t u : τ} {rest more : List τ}

def Has (p : Places ι τ) (t : τ) : Prop := t ∈ p.ring ∨ ∃ q, t ∈ p.waiting q

/-- No thread is in two places, nor twice in one. -/
structure Valid (p : Places ι τ) : Prop where
  ring : p.ring.Nodup
  queue : ∀ q, (p.waiting q).Nodup
  apart : ∀ q, Disjoint p.ring (p.waiting q)
  separate : ∀ q r, q ≠ r → Disjoint (p.waiting q) (p.waiting r)

def join (p : Places ι τ) (t : τ) : Places ι τ := { p with ring := p.ring ++ [t] }

/-- The next thread runs; the running one goes to the end. -/
def turn (p : Places ι τ) : Places ι τ := { p with ring := p.ring.tail ++ p.ring.take 1 }

def leave (p : Places ι τ) : Places ι τ := { p with ring := p.ring.tail }

/-- The running thread waits at the end of a queue. -/
def park [DecidableEq ι] (p : Places ι τ) (q : ι) : Places ι τ :=
  ⟨p.ring.tail,update p.waiting q (p.waiting q ++ p.ring.take 1)⟩

/-- The first thread of a queue becomes the next one to run. -/
def wake [DecidableEq ι] (p : Places ι τ) (q : ι) : Places ι τ :=
  ⟨p.ring.take 1 ++ (p.waiting q).take 1 ++ p.ring.tail,update p.waiting q (p.waiting q).tail⟩

theorem Valid.perm {p p' : Places ι τ} (valid : p.Valid) (ring : p.ring ~ p'.ring)
    (queue : ∀ q, p.waiting q ~ p'.waiting q) : p'.Valid where
  ring := ring.nodup_iff.mp valid.ring
  queue := fun q => (queue q).nodup_iff.mp (valid.queue q)
  apart := by
    intro q u inRing inQueue
    exact valid.apart q (ring.mem_iff.mpr inRing) ((queue q).mem_iff.mpr inQueue)
  separate := by
    intro q r different u first second
    exact valid.separate q r different ((queue q).mem_iff.mpr first) ((queue r).mem_iff.mpr second)

theorem has_perm {p p' : Places ι τ} (ring : p.ring ~ p'.ring)
    (queue : ∀ q, p.waiting q ~ p'.waiting q) : p.Has u ↔ p'.Has u := by
  simp only [Has,ring.mem_iff,(queue _).mem_iff]

theorem valid_ring_cons {waiting : ι → List τ} : Valid ⟨c :: rest,waiting⟩ ↔
    ¬Has ⟨rest,waiting⟩ c ∧ Valid ⟨rest,waiting⟩ := by
  constructor
  · intro valid
    obtain ⟨absent,nodup⟩ := nodup_cons.mp valid.ring
    refine ⟨?_,nodup,valid.queue,?_,valid.separate⟩
    · rintro (inRing | ⟨q,inQueue⟩)
      · exact absent inRing
      · exact valid.apart q mem_cons_self inQueue
    · intro q u inRing
      exact valid.apart q (mem_cons_of_mem _ inRing)
  · rintro ⟨absent,valid⟩
    refine ⟨nodup_cons.mpr ⟨fun inRing => absent (.inl inRing),valid.ring⟩,valid.queue,?_,valid.separate⟩
    intro q u inRing inQueue
    rcases mem_cons.mp inRing with rfl | later
    · exact absent (.inr ⟨q,inQueue⟩)
    · exact valid.apart q later inQueue

theorem has_ring_cons {waiting : ι → List τ} :
    Has ⟨c :: rest,waiting⟩ u ↔ u = c ∨ Has ⟨rest,waiting⟩ u := by
  simp [Has,or_assoc]

theorem join_valid (valid : p.Valid) (fresh : ¬p.Has t) : (p.join t).Valid := by
  have joined : Valid ⟨t :: p.ring,p.waiting⟩ := valid_ring_cons.mpr ⟨fresh,valid⟩
  exact joined.perm (perm_append_singleton t p.ring).symm (fun _ => .refl _)

theorem has_join : (p.join t).Has u ↔ p.Has u ∨ u = t := by
  simp only [join,Has,mem_append,mem_singleton]
  tauto

theorem turn_perm : p.turn.ring ~ p.ring := by
  cases ring : p.ring with
  | nil => simp [turn,ring]
  | cons c rest => simp [turn,ring,perm_append_singleton]

theorem turn_valid (valid : p.Valid) : p.turn.Valid :=
  valid.perm turn_perm.symm (fun _ => .refl _)

theorem has_turn : p.turn.Has u ↔ p.Has u := has_perm turn_perm (fun _ => .refl _)

theorem leave_valid (valid : p.Valid) (running : p.ring = c :: rest) : p.leave.Valid := by
  obtain ⟨ring,waiting⟩ := p
  subst running
  exact (valid_ring_cons.mp valid).2

theorem has_leave (valid : p.Valid) (running : p.ring = c :: rest) :
    p.leave.Has u ↔ p.Has u ∧ u ≠ c := by
  obtain ⟨ring,waiting⟩ := p
  subst running
  have absent := (valid_ring_cons.mp valid).1
  rw [has_ring_cons]
  constructor
  · intro member
    exact ⟨.inr member,fun same => absent (same ▸ member)⟩
  · rintro ⟨member,other⟩
    exact member.resolve_left other

section Queues

variable [DecidableEq ι]

theorem valid_queue_cons {ring : List τ} {waiting : ι → List τ} :
    Valid ⟨ring,update waiting q (c :: waiting q)⟩ ↔
      ¬Has ⟨ring,waiting⟩ c ∧ Valid ⟨ring,waiting⟩ := by
  constructor
  · intro valid
    have here : (c :: waiting q).Nodup := by
      have nodup := valid.queue q
      simpa using nodup
    have part : ∀ r u, u ∈ waiting r → u ∈ update waiting q (c :: waiting q) r := by
      intro r u member
      by_cases same : r = q
      · subst r; simp [member]
      · simpa [same] using member
    have first : c ∈ update waiting q (c :: waiting q) q := by simp
    refine ⟨?_,valid.ring,?_,?_,?_⟩
    · rintro (inRing | ⟨r,inQueue⟩)
      · exact valid.apart q inRing first
      · by_cases same : r = q
        · subst r; exact (nodup_cons.mp here).1 inQueue
        · exact valid.separate r q same (part r c inQueue) first
    · intro r
      have nodup := valid.queue r
      by_cases same : r = q
      · subst r; exact (nodup_cons.mp here).2
      · simpa [same] using nodup
    · intro r u inRing inQueue
      exact valid.apart r inRing (part r u inQueue)
    · intro r r' different u inQueue inOther
      exact valid.separate r r' different (part r u inQueue) (part r' u inOther)
  · rintro ⟨absent,valid⟩
    have split : ∀ r u, u ∈ update waiting q (c :: waiting q) r → (r = q ∧ u = c) ∨ u ∈ waiting r := by
      intro r u member
      by_cases same : r = q
      · subst r; simpa using member
      · right; simpa [same] using member
    refine ⟨valid.ring,?_,?_,?_⟩
    · intro r
      by_cases same : r = q
      · subst r
        simpa using ⟨fun member => absent (.inr ⟨q,member⟩),valid.queue q⟩
      · simpa [same] using valid.queue r
    · intro r u inRing inQueue
      rcases split r u inQueue with ⟨_,rfl⟩ | old
      · exact absent (.inl inRing)
      · exact valid.apart r inRing old
    · intro r r' different u inQueue inOther
      rcases split r u inQueue with ⟨rfl,rfl⟩ | old
      · rcases split r' u inOther with ⟨same,_⟩ | other
        · exact different same.symm
        · exact absent (.inr ⟨r',other⟩)
      · rcases split r' u inOther with ⟨_,rfl⟩ | other
        · exact absent (.inr ⟨r,old⟩)
        · exact valid.separate r r' different old other

theorem has_queue_cons {ring : List τ} {waiting : ι → List τ} :
    Has ⟨ring,update waiting q (c :: waiting q)⟩ u ↔ u = c ∨ Has ⟨ring,waiting⟩ u := by
  constructor
  · rintro (inRing | ⟨r,member⟩)
    · exact .inr (.inl inRing)
    · by_cases same : r = q
      · subst r
        rcases mem_cons.mp (by simpa using member) with rfl | old
        · exact .inl rfl
        · exact .inr (.inr ⟨q,old⟩)
      · exact .inr (.inr ⟨r,by simpa [same] using member⟩)
  · rintro (rfl | inRing | ⟨r,member⟩)
    · exact .inr ⟨q,by simp⟩
    · exact .inl inRing
    · by_cases same : r = q
      · subst r; exact .inr ⟨q,by simp [show u ∈ waiting q from member]⟩
      · exact .inr ⟨r,by simpa [same] using member⟩

theorem split_queue (first : p.waiting q = t :: more) :
    p.waiting = update (update p.waiting q more) q (t :: update p.waiting q more q) := by
  rw [update_idem,update_self,← first,update_eq_self]

theorem park_perm (running : p.ring = c :: rest) (r : ι) :
    (p.park q).waiting r ~ update p.waiting q (c :: p.waiting q) r := by
  by_cases same : r = q
  · subst r; simp [park,running,perm_append_singleton]
  · simp [park,same]

theorem park_ring (running : p.ring = c :: rest) : (p.park q).ring = rest := by
  simp [park,running]

theorem park_valid (valid : p.Valid) (running : p.ring = c :: rest) : (p.park q).Valid := by
  have joined : Valid ⟨rest,update p.waiting q (c :: p.waiting q)⟩ := by
    obtain ⟨ring,waiting⟩ := p
    subst running
    exact valid_queue_cons.mpr (valid_ring_cons.mp valid)
  exact joined.perm (by rw [park_ring running]) (fun r => (park_perm running r).symm)

theorem has_park (running : p.ring = c :: rest) : (p.park q).Has u ↔ p.Has u := by
  have joined : (p.park q).Has u ↔ Has ⟨rest,update p.waiting q (c :: p.waiting q)⟩ u :=
    has_perm (by rw [park_ring running]) (park_perm running)
  obtain ⟨ring,waiting⟩ := p
  subst running
  rw [joined,has_queue_cons,has_ring_cons]

theorem wake_eq (running : p.ring = c :: rest) (first : p.waiting q = t :: more) :
    p.wake q = ⟨c :: t :: rest,update p.waiting q more⟩ := by
  simp [wake,running,first]

/-- Whoever waits after a wake waited before, and is not the thread woken. -/
theorem Valid.still_waiting (valid : p.Valid) (first : p.waiting q = t :: more) {r : ι}
    (member : u ∈ update p.waiting q more r) : u ∈ p.waiting r ∧ u ≠ t := by
  by_cases same : r = q
  · subst r
    rw [update_self] at member
    have nodup := valid.queue q
    rw [first] at nodup ⊢
    exact ⟨mem_cons_of_mem _ member,fun isT => (nodup_cons.mp nodup).1 (isT ▸ member)⟩
  · rw [update_of_ne same] at member
    refine ⟨member,?_⟩
    rintro rfl
    exact valid.separate r q same member (by simp [first])

theorem wake_valid (valid : p.Valid) (running : p.ring = c :: rest)
    (first : p.waiting q = t :: more) : (p.wake q).Valid := by
  have source : Valid ⟨p.ring,update (update p.waiting q more) q (t :: update p.waiting q more q)⟩ := by
    rw [← split_queue first]; exact valid
  have moved : Valid ⟨t :: p.ring,update p.waiting q more⟩ :=
    valid_ring_cons.mpr (valid_queue_cons.mp source)
  rw [running] at moved
  rw [wake_eq running first]
  exact moved.perm (.swap c t rest) (fun _ => .refl _)

theorem has_wake (running : p.ring = c :: rest) (first : p.waiting q = t :: more) :
    (p.wake q).Has u ↔ p.Has u := by
  have source : p.Has u ↔
      Has ⟨p.ring,update (update p.waiting q more) q (t :: update p.waiting q more q)⟩ u := by
    rw [← split_queue first]
  rw [source,has_queue_cons,running,← has_ring_cons,wake_eq running first]
  exact has_perm (.swap t c rest) (fun _ => .refl _)

end Queues

end Places

end RudimentaryKernel
