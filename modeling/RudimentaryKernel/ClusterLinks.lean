import RudimentaryKernel.ClusterPool

/-! The ring of cluster nodes, without regard to addresses and sizes. Every linked
node is an entry of the node pool that is in use. Splitting links one more node,
absorbing unlinks one, and the cursor survives a call unless that call absorbs
the very node it has just moved the cursor to. -/
namespace RudimentaryKernel.Heap

open Function List

/-- `members` are the linked nodes in `next` order, all of them entries in use. -/
structure WellLinked (h : Heap) (members : List Nat) : Prop where
  ring : Ring.IsRing h.next h.prev members
  entry : ∀ c ∈ members, h.nodes.InUse c
  fits : h.nodes.Fits

variable {h t : Heap} {members rest : List Nat} {this hold c : Nat}

theorem WellLinked.rotated (linked : h.WellLinked members) (same : members ~r rest) :
    h.WellLinked rest :=
  ⟨linked.ring.rotated same,fun c member => linked.entry c (same.mem_iff.mpr member),linked.fits⟩

theorem WellLinked.congr (linked : h.WellLinked members) (next : t.next = h.next)
    (prev : t.prev = h.prev) (nodes : t.nodes = h.nodes) : t.WellLinked members := by
  refine ⟨?_,?_,?_⟩
  · rw [next,prev]; exact linked.ring
  · rw [nodes]; exact linked.entry
  · rw [nodes]; exact linked.fits

theorem create_linked (memory : Heap) (start size : Nat) (fits : memory.nodes.Fits)
    (spare : memory.nodes.Spare) :
    ∃ first, let h := memory.createClusterPool start size
      h.WellLinked [first] ∧ h.pool = ⟨first,start,size,0,.unlocked⟩ ∧
      h.start first = start ∧ h.size first = size ∧ h.type first = .free := by
  obtain ⟨nodes,id,outcome,fits,_,inUse,_⟩ := memory.nodes.allocate_fresh fits spare
  refine ⟨nodes.idToAddress id,⟨?_,?_,?_⟩,?_⟩
  · simp [createClusterPool,outcome,Ring.IsRing.single_iff]
  · simpa [createClusterPool,outcome] using inUse
  · simpa [createClusterPool,outcome] using fits
  · simp [createClusterPool,outcome]

/-- The effect of `splituse` besides the links. -/
structure Split (h t : Heap) (this newSize new : Nat) : Prop where
  start : t.start = update h.start new (add32 (h.start this) (sub32 (h.size this) newSize))
  size : t.size = update (update h.size this (sub32 (h.size this) newSize)) new newSize
  type : t.type = update h.type new .used
  pool : t.pool = h.pool

theorem splituse_linked (linked : h.WellLinked (this :: rest)) (spare : h.nodes.Spare)
    (newSize : Nat) : ∃ new, new ∉ this :: rest ∧
      Split h (h.splituse this newSize).1 this newSize new ∧
      (h.splituse this newSize).2 = add32 (h.start this) (sub32 (h.size this) newSize) ∧
      (h.splituse this newSize).1.WellLinked (this :: new :: rest) := by
  obtain ⟨nodes,id,outcome,fits,unused,inUse,kept⟩ := h.nodes.allocate_fresh linked.fits spare
  have fresh : nodes.idToAddress id ∉ this :: rest := fun member => unused (linked.entry _ member)
  have apart : this ≠ nodes.idToAddress id := fun same => fresh (by simp [← same])
  refine ⟨nodes.idToAddress id,fresh,⟨?_,?_,?_,?_⟩,?_,?_,?_,?_⟩
  · simp [splituse,insertBehind,outcome,limit]
  · simp [splituse,insertBehind,outcome]
  · simp [splituse,insertBehind,outcome]
  · simp [splituse,insertBehind,outcome]
  · simp [splituse,insertBehind,outcome,limit]
  · have self := linked.ring.next_mem mem_cons_self
    have onward : h.next this ≠ nodes.idToAddress id := fun same => fresh (same ▸ self)
    apply linked.ring.insert fresh
    · simp [splituse,insertBehind,outcome]
    · simp [splituse,insertBehind,outcome,Ne.symm apart]
    · simp [splituse,insertBehind,outcome,apart,Ne.symm onward]
    · simp [splituse,insertBehind,outcome,apart]
    · intro u member
      have old : u ≠ nodes.idToAddress id := fun same => fresh (by simp [← same,member])
      have other : u ≠ this := by
        intro same
        exact (nodup_cons.mp linked.ring.nodup).1 (same ▸ member)
      simp [splituse,insertBehind,outcome,old,other]
    · intro u member notNext
      have old : u ≠ nodes.idToAddress id := fun same => fresh (same ▸ member)
      simp [splituse,insertBehind,outcome,apart,old,notNext]
  · intro c member
    rcases mem_cons.mp member with rfl | member
    · simpa [splituse,insertBehind,outcome] using kept _ (linked.entry _ mem_cons_self)
    rcases mem_cons.mp member with rfl | member
    · simpa [splituse,insertBehind,outcome] using inUse
    · simpa [splituse,insertBehind,outcome] using kept _ (linked.entry _ (mem_cons_of_mem _ member))
  · simpa [splituse,insertBehind,outcome] using fits

/-- The effect of `coalesce_next` on a node with a distinct successor. -/
structure Absorbed (h t : Heap) (this hold : Nat) : Prop where
  start : t.start = h.start
  size : t.size = update h.size this (add32 (h.size this) (h.size hold))
  next : t.next = update h.next this (h.next hold)
  type : t.type = h.type
  pool : t.pool = h.pool
  returned : ¬t.nodes.InUse hold

theorem coalesce_linked (linked : h.WellLinked (this :: hold :: rest)) :
    Absorbed h (h.coalesceNext this) this hold ∧ (h.coalesceNext this).WellLinked (this :: rest) := by
  have forward : h.next this = hold := linked.ring.next_second.1
  have nodup := linked.ring.nodup
  have apart : hold ≠ this := by
    intro same
    simp [same] at nodup
  have heldUsed := linked.entry hold (by simp)
  refine ⟨⟨?_,?_,?_,?_,?_,?_⟩,?_,?_,?_⟩
  · simp [coalesceNext,absorb,forward,apart]
  · simp [coalesceNext,absorb,forward,apart]
  · simp [coalesceNext,absorb,forward,apart]
  · simp [coalesceNext,absorb,forward,apart]
  · simp [coalesceNext,absorb,forward,apart]
  · simp [coalesceNext,absorb,forward,apart,h.nodes.free_inUse linked.fits heldUsed heldUsed]
  · apply linked.ring.remove
    · simp [coalesceNext,absorb,forward,apart]
    · simp [coalesceNext,absorb,forward,apart]
    · intro u member
      have other : u ≠ this := by
        intro same
        simp only [nodup_cons,mem_cons,not_or] at nodup
        exact nodup.1.2 (same ▸ member)
      simp [coalesceNext,absorb,forward,apart,other]
    · intro u _ notNext
      simp [coalesceNext,absorb,forward,apart,notNext]
  · intro c member
    have different : c ≠ hold := by
      intro same
      simp only [nodup_cons,mem_cons,not_or] at nodup member
      rcases member with here | later
      · exact nodup.1.1 (here.symm.trans same)
      · exact nodup.2.1 (same ▸ later)
    have used := linked.entry c (by simp only [mem_cons] at member ⊢; tauto)
    simpa [coalesceNext,absorb,forward,apart] using
      (h.nodes.free_inUse linked.fits heldUsed used).mpr different
  · simpa [coalesceNext,absorb,forward,apart] using h.nodes.free_fits linked.fits _

theorem mergeNext_absorbs (linked : h.WellLinked (this :: hold :: rest))
    (free : h.type hold = .free) (inner : h.limit this ≠ h.pool.limit) :
    Absorbed h (h.mergeNext this) this hold ∧ (h.mergeNext this).WellLinked (this :: rest) := by
  have forward : h.next this = hold := linked.ring.next_second.1
  rw [mergeNext,if_pos (by rw [forward]; exact ⟨free,inner⟩)]
  exact coalesce_linked linked

theorem mergeNext_skips (blocked : h.next this = this ∨ h.type (h.next this) = .used ∨
    h.limit this = h.pool.limit) : h.mergeNext this = h := by
  rw [mergeNext]
  split
  · rename_i open'
    rcases blocked with alone | used | boundary
    · rw [coalesceNext,if_pos alone]
    · simp [used] at open'
    · exact absurd boundary open'.2
  · rfl

theorem mergePrev_absorbs (linked : h.WellLinked (this :: (rest ++ [c])))
    (free : h.type c = .free) (three : rest ≠ []) :
    Absorbed h (h.mergePrev this) c this ∧ (h.mergePrev this).WellLinked (c :: rest) := by
  have back : h.prev this = c := linked.ring.prev_last.1
  have distinct : h.next this ≠ h.prev this := by
    rw [ne_eq,linked.ring.next_eq_prev_iff]
    have long : rest.length ≠ 0 := fun none => three (length_eq_zero_iff.mp none)
    simp only [length_append,length_singleton]
    omega
  have turned : h.WellLinked (c :: this :: rest) := by
    refine linked.rotated ?_
    have turn := Ring.rotated_split (this :: rest) [] c
    simpa using turn
  rw [mergePrev,if_pos ⟨by rw [back]; exact free,distinct⟩,back]
  exact coalesce_linked turned

theorem mergePrev_skips (blocked : h.type (h.prev this) = .used ∨ h.next this = h.prev this) :
    h.mergePrev this = h := by
  rw [mergePrev,if_neg]
  rintro ⟨free,distinct⟩
  rcases blocked with used | same
  · simp [used] at free
  · exact distinct same

theorem mergePrev_keeps_last (linked : h.WellLinked (this :: (rest ++ [c]))) :
    ∃ members, (h.mergePrev this).WellLinked members ∧ c ∈ members ∧
      (h.mergePrev this).pool = h.pool := by
  have back : h.prev this = c := linked.ring.prev_last.1
  cases type : h.type c with
  | used =>
    rw [mergePrev_skips (.inl (by rw [back,type]))]
    exact ⟨_,linked,by simp,rfl⟩
  | free =>
    by_cases short : rest = []
    · subst rest
      rw [mergePrev_skips (.inr (linked.ring.next_eq_prev_iff.mpr (by simp)))]
      exact ⟨_,linked,by simp,rfl⟩
    · obtain ⟨absorbed,linked⟩ := mergePrev_absorbs linked type short
      exact ⟨_,linked,by simp,absorbed.pool⟩

/-- Freeing `c` moves the cursor to its only neighbour and then absorbs that neighbour. -/
def DropsCursor (h : Heap) (c : Nat) : Prop :=
  h.type c = .used ∧ h.next c = h.prev c ∧ h.next c ≠ c ∧
    h.type (h.next c) = .free ∧ h.limit c ≠ h.pool.limit

instance (h : Heap) (c : Nat) : Decidable (h.DropsCursor c) :=
  inferInstanceAs (Decidable (_ ∧ _ ∧ _ ∧ _ ∧ _))

/-- The state in which `ClusterPool::free` enters `Cluster::free`. -/
def rewound (h : Heap) (candidate : Nat) : Heap :=
  { h with pool := { h.pool with
    cursor := h.prev candidate
    bytesUsed := sub32 h.pool.bytesUsed (h.size candidate) } }

theorem giveBack_eq (h : Heap) (candidate : Nat) :
    h.giveBack candidate = (h.rewound candidate).freeCluster candidate := rfl

/-- `Cluster::free` on a used cluster, from the state with its type already changed. -/
def released (h : Heap) (candidate : Nat) : Heap :=
  { h.rewound candidate with type := update h.type candidate .free }

theorem giveBack_used (used : h.type c = .used) :
    h.giveBack c = ((h.released c).mergeNext c).mergePrev c := by
  rw [giveBack_eq,freeCluster,if_neg (by simp [rewound,used])]
  rfl

theorem giveBack_free (free : h.type c = .free) : h.giveBack c = h.rewound c := by
  rw [giveBack_eq,freeCluster,if_pos (by simpa [rewound] using free)]

theorem released_linked (linked : h.WellLinked members) : (h.released c).WellLinked members :=
  linked.congr rfl rfl rfl

theorem giveBack_keeps_cursor (linked : h.WellLinked (c :: rest)) (keep : ¬h.DropsCursor c) :
    ∃ members, (h.giveBack c).WellLinked members ∧ (h.giveBack c).pool.cursor ∈ members := by
  have behind : h.prev c ∈ c :: rest := linked.ring.prev_mem mem_cons_self
  cases type : h.type c with
  | free =>
    rw [giveBack_free type]
    exact ⟨_,linked.congr rfl rfl rfl,behind⟩
  | used =>
    rw [giveBack_used type]
    have after : (h.released c).WellLinked (c :: rest) := released_linked linked
    rcases eq_nil_or_concat rest with rfl | ⟨front,z,rfl⟩
    · have alone := Ring.IsRing.single_iff.mp after.ring
      rw [mergeNext_skips (.inl alone.1),mergePrev_skips (.inr (alone.1.trans alone.2.symm))]
      exact ⟨_,after,by simpa [released,rewound] using behind⟩
    rw [concat_eq_append] at after linked
    have back : h.prev c = z := linked.ring.prev_last.1
    cases front with
    | nil =>
      have forward : h.next c = z := linked.ring.next_second.1
      have apart : z ≠ c := by
        have nodup := linked.ring.nodup
        simp only [List.nil_append,nodup_cons,mem_singleton] at nodup
        exact Ne.symm nodup.1
      have blocked : (h.released c).type z = .used ∨ (h.released c).limit c = (h.released c).pool.limit := by
        by_contra open'
        rw [not_or] at open'
        refine keep ⟨type,forward.trans back.symm,by rw [forward]; exact apart,?_,open'.2⟩
        rw [forward]
        cases neighbour : h.type z with
        | free => rfl
        | used => exact absurd (by simpa [released,apart] using neighbour) open'.1
      rw [mergeNext_skips (.inr (by simpa [released,rewound,forward] using blocked))]
      obtain ⟨members,linked,last,pool⟩ := mergePrev_keeps_last after
      exact ⟨members,linked,by rw [pool]; simpa [released,rewound,back] using last⟩
    | cons b front =>
      by_cases merge : (h.released c).type b = .free ∧ (h.released c).limit c ≠ (h.released c).pool.limit
      · obtain ⟨absorbed,merged⟩ := mergeNext_absorbs (by simpa using after) merge.1 merge.2
        obtain ⟨members,linked,last,pool⟩ := mergePrev_keeps_last merged
        refine ⟨members,linked,?_⟩
        rw [pool,absorbed.pool]
        simpa [released,rewound,back] using last
      · have forward : (h.released c).next c = b := after.ring.next_second.1
        rw [mergeNext,if_neg (by rw [forward]; exact merge)]
        obtain ⟨members,linked,last,pool⟩ := mergePrev_keeps_last after
        exact ⟨members,linked,by rw [pool]; simpa [released,rewound,back] using last⟩

/-- In the excluded case the cursor is left on a node returned to the node pool. -/
theorem giveBack_drops_cursor (linked : h.WellLinked (c :: rest)) (drop : h.DropsCursor c) :
    ¬(h.giveBack c).nodes.InUse (h.giveBack c).pool.cursor := by
  obtain ⟨type,same,distinct,free,inner⟩ := drop
  have short := linked.ring.next_eq_prev_iff.mp same
  rcases rest with _ | ⟨b,_ | ⟨d,rest⟩⟩
  · exact absurd (Ring.IsRing.single_iff.mp linked.ring).1 distinct
  · have forward : h.next c = b := linked.ring.next_second.1
    rw [forward] at free distinct
    have after : (h.released c).WellLinked (c :: [b]) := released_linked linked
    obtain ⟨absorbed,merged⟩ := mergeNext_absorbs after
      (by simpa [released,distinct] using free) inner
    have alone := Ring.IsRing.single_iff.mp merged.ring
    rw [giveBack_used type,mergePrev_skips (.inr (alone.1.trans alone.2.symm)),absorbed.pool]
    have cursor : (h.released c).pool.cursor = b := by
      simp [released,rewound,← same,forward]
    rw [cursor]
    exact absorbed.returned
  · simp at short

theorem takeFrom_linked (linked : h.WellLinked (c :: rest)) (spare : h.nodes.Spare) (reqSize : Nat) :
    ∃ members, (h.takeFrom c reqSize).1.WellLinked members ∧
      (h.takeFrom c reqSize).1.pool.cursor ∈ members := by
  rw [takeFrom]
  split
  rename_i taken rt outcome
  split at outcome
  · cases outcome
    exact ⟨c :: rest,linked.congr rfl rfl rfl,by simp⟩
  · have charged : { h with pool := { h.pool with bytesUsed := add32 h.pool.bytesUsed reqSize } }.WellLinked
        (c :: rest) := linked.congr rfl rfl rfl
    obtain ⟨new,_,_,_,after⟩ := splituse_linked charged spare reqSize
    rw [outcome] at after
    exact ⟨c :: new :: rest,after.congr rfl rfl rfl,by simp⟩

theorem allocate_cases {fuel reqSize rt : Nat} (done : h.allocate fuel reqSize = some (t,rt)) :
    (h.pool.size < add32 h.pool.bytesUsed reqSize ∧ rt = 0 ∧
      t = (h.acquire.kprintf "ERROR: CLUSTER POOL NOT ENOUGH TOTAL SPACE\n\x00" []).release) ∨
    (add32 h.pool.bytesUsed reqSize ≤ h.pool.size ∧ h.findFit reqSize fuel = some none ∧ rt = 0 ∧
      t = (h.acquire.kprintf "ERROR: CLUSTER POOL NO FIT\n\x00" []).release) ∨
    (add32 h.pool.bytesUsed reqSize ≤ h.pool.size ∧ ∃ test,
      h.findFit reqSize fuel = some (some test) ∧
      t = (h.acquire.takeFrom test reqSize).1.release ∧ rt = (h.acquire.takeFrom test reqSize).2) := by
  rw [allocate] at done
  split at done
  · rename_i little
    cases done
    exact .inl ⟨little,rfl,rfl⟩
  · rename_i enough
    have room : add32 h.pool.bytesUsed reqSize ≤ h.pool.size := Nat.le_of_not_lt enough
    split at done
    · contradiction
    · rename_i outcome
      cases done
      exact .inr (.inl ⟨room,outcome,rfl,rfl⟩)
    · rename_i test outcome
      cases done
      exact .inr (.inr ⟨room,test,outcome,rfl,rfl⟩)

theorem free_cases {fuel address : Nat} (done : h.free fuel address = some t) :
    (h.findStart address fuel = some none ∧
      t = h.acquire.release.kprintf "ERROR: FREE NOT FOUND %x\n" [address]) ∨
    ∃ candidate, h.findStart address fuel = some (some candidate) ∧
      t = (h.acquire.giveBack candidate).release := by
  rw [free] at done
  split at done
  · contradiction
  · rename_i outcome
    cases done
    exact .inl ⟨outcome,rfl⟩
  · rename_i candidate outcome
    cases done
    exact .inr ⟨candidate,outcome,rfl⟩

theorem findFit_eq (linked : h.WellLinked (h.pool.cursor :: rest)) (reqSize : Nat) {fuel : Nat}
    (enough : rest.length < fuel) :
    h.findFit reqSize fuel = some ((h.pool.cursor :: rest).find? (h.fitting reqSize)) :=
  Ring.search_ring linked.ring enough

theorem findStart_eq (linked : h.WellLinked (h.pool.cursor :: rest)) (address : Nat) {fuel : Nat}
    (enough : rest.length < fuel) :
    h.findStart address fuel = some ((h.pool.cursor :: rest.reverse).find?
      (fun candidate => h.start candidate = address)) :=
  Ring.search_ring linked.ring.reversed (by simpa using enough)

theorem findFit_member (linked : h.WellLinked members) (cursor : h.pool.cursor ∈ members)
    {reqSize fuel test : Nat} (found : h.findFit reqSize fuel = some (some test)) : test ∈ members := by
  obtain ⟨rest,same⟩ := Ring.exists_rotation cursor
  have whole := findFit_eq (linked.rotated same) reqSize (Nat.lt_succ_self _)
  have outcome := Ring.search_unique found whole
  exact same.mem_iff.mpr (mem_of_find?_eq_some outcome.symm)

theorem findStart_member (linked : h.WellLinked members) (cursor : h.pool.cursor ∈ members)
    {address fuel candidate : Nat} (found : h.findStart address fuel = some (some candidate)) :
    candidate ∈ members := by
  obtain ⟨rest,same⟩ := Ring.exists_rotation cursor
  have whole := findStart_eq (linked.rotated same) address (Nat.lt_succ_self _)
  have outcome := Ring.search_unique found whole
  have member := mem_of_find?_eq_some outcome.symm
  exact same.mem_iff.mpr (by simpa using member)

def CursorLive (h : Heap) : Prop :=
  ∃ members, h.WellLinked members ∧ h.pool.cursor ∈ members

/-- With a live cursor every call returns after at most one trip round the ring. -/
theorem calls_return (linked : h.WellLinked members) (cursor : h.pool.cursor ∈ members) {fuel : Nat}
    (enough : members.length ≤ fuel) :
    (∀ reqSize, (h.allocate fuel reqSize).isSome) ∧ (∀ address, (h.free fuel address).isSome) := by
  obtain ⟨rest,same⟩ := Ring.exists_rotation cursor
  have turned := linked.rotated same
  have length : rest.length < fuel := by
    rw [same.perm.length_eq] at enough
    exact enough
  constructor
  · intro reqSize
    have ends : h.acquire.findFit reqSize fuel =
        some ((h.pool.cursor :: rest).find? (h.fitting reqSize)) := findFit_eq turned reqSize length
    rw [allocate]
    split
    · rfl
    · rw [ends]
      cases (h.pool.cursor :: rest).find? (h.fitting reqSize) <;> rfl
  · intro address
    have ends : h.acquire.findStart address fuel =
        some ((h.pool.cursor :: rest.reverse).find? (fun candidate => h.start candidate = address)) :=
      findStart_eq turned address length
    rw [free,ends]
    cases (h.pool.cursor :: rest.reverse).find? (fun candidate => h.start candidate = address) <;> rfl

end RudimentaryKernel.Heap

namespace RudimentaryKernel.HeapRun

open Heap

variable {r t : HeapRun} {fuel : Nat}

theorem call_allocate {reqSize : Nat} (done : r.call fuel (.allocate reqSize) = some t) :
    1 ≤ reqSize ∧ reqSize < 2^32 ∧ r.heap.nodes.Spare ∧ ∃ rt,
      r.heap.allocate fuel reqSize = some (t.heap,rt) ∧
      t.live = if rt = 0 then r.live else (rt,reqSize) :: r.live := by
  rw [call] at done
  split at done
  · rename_i allowed
    split at done
    · contradiction
    · rename_i h rt outcome
      cases done
      exact ⟨allowed.1,allowed.2.1,allowed.2.2,rt,outcome,rfl⟩
  · contradiction

theorem call_free {address : Nat} (done : r.call fuel (.free address) = some t) :
    ∃ held ∈ r.live, held.1 = address ∧ r.heap.free fuel address = some t.heap ∧
      t.live = r.live.erase held := by
  rw [call] at done
  split at done
  · contradiction
  · rename_i held found
    split at done
    · contradiction
    · rename_i h outcome
      cases done
      exact ⟨held,List.mem_of_find?_eq_some found,by simpa using List.find?_some found,outcome,rfl⟩

section Executable

variable {asking freeing : Heap → Nat → Prop} [∀ h n, Decidable (asking h n)]
  [∀ h n, Decidable (freeing h n)]

theorem meets_covers {c : HeapCall} (ends : ∀ address, c = .free address → ∃ h, r.heap.free fuel address = some h)
    (clean : meets asking freeing fuel r c = false) : ¬r.Meets asking freeing c := by
  cases c with
  | allocate reqSize => simpa [meets,Meets] using clean
  | free address =>
    obtain ⟨_,outcome⟩ := ends address rfl
    rcases free_cases outcome with ⟨found,_⟩ | ⟨candidate,found,_⟩
    · rw [meets_free found]
      simp
    · rw [meets_free found]
      have lookup : r.heap.findStart address fuel = some (some candidate) := found
      simpa [meets,lookup] using clean

theorem calls_reach {initial : HeapRun → Prop} {cs : List HeapCall}
    (done : calls asking freeing fuel cs r = some t)
    (reached : Reach initial (Avoiding (Meets asking freeing)) r) :
    Reach initial (Avoiding (Meets asking freeing)) t := by
  induction cs generalizing r with
  | nil => cases done; exact reached
  | cons c rest ih =>
    rw [calls] at done
    split at done
    · contradiction
    · rename_i clean
      obtain ⟨middle,first,later⟩ := Option.bind_eq_some_iff.mp done
      refine ih later (reached.advance ⟨c,⟨fuel,first⟩,meets_covers ?_ (by simpa using clean)⟩)
      rintro address rfl
      obtain ⟨_,_,_,outcome,_⟩ := call_free first
      exact ⟨_,outcome⟩

end Executable

/-- The call frees a cluster that is one of two, ends before the limit of the pool,
and whose neighbour is free. -/
def DropsCursor : HeapRun → HeapCall → Prop := Meets Never Heap.DropsCursor

/-- A call keeps the cursor live exactly when it does not drop it. -/
theorem step_cursor_iff (live : r.heap.CursorLive) {c : HeapCall} (step : r.Step c t) :
    t.heap.CursorLive ↔ ¬r.DropsCursor c := by
  obtain ⟨members,linked,cursor⟩ := live
  obtain ⟨fuel,done⟩ := step
  cases c with
  | allocate reqSize =>
    simp only [DropsCursor,Meets,Never,not_false_eq_true,iff_true]
    obtain ⟨_,_,spare,rt,outcome,_⟩ := call_allocate done
    rcases allocate_cases outcome with ⟨_,_,same⟩ | ⟨_,_,_,same⟩ | ⟨_,test,found,same,_⟩
    · rw [same]
      exact ⟨members,linked.congr rfl rfl rfl,cursor⟩
    · rw [same]
      exact ⟨members,linked.congr rfl rfl rfl,cursor⟩
    · obtain ⟨rest,turn⟩ := Ring.exists_rotation (findFit_member linked cursor found)
      have held : r.heap.acquire.WellLinked (test :: rest) := (linked.rotated turn).congr rfl rfl rfl
      obtain ⟨others,after,inside⟩ := takeFrom_linked held spare reqSize
      rw [same]
      exact ⟨others,after.congr rfl rfl rfl,inside⟩
  | free address =>
    obtain ⟨_,_,_,outcome,_⟩ := call_free done
    rcases free_cases outcome with ⟨missing,same⟩ | ⟨candidate,found,same⟩
    · rw [same]
      refine iff_of_true ⟨members,linked.congr rfl rfl rfl,cursor⟩ ?_
      simp [DropsCursor,meets_free missing]
    · obtain ⟨rest,turn⟩ := Ring.exists_rotation (findStart_member linked cursor found)
      have held : r.heap.acquire.WellLinked (candidate :: rest) :=
        (linked.rotated turn).congr rfl rfl rfl
      have drops : r.DropsCursor (.free address) ↔ r.heap.acquire.DropsCursor candidate := by
        simp [DropsCursor,meets_free found,acquire,Heap.DropsCursor,limit,ClusterPool.limit]
      rw [same,drops]
      constructor
      · rintro ⟨others,after,inside⟩ drop
        exact giveBack_drops_cursor held drop (after.entry _ inside)
      · intro keep
        obtain ⟨others,after,inside⟩ := giveBack_keeps_cursor held keep
        exact ⟨others,after.congr rfl rfl rfl,inside⟩

theorem fresh_cursor_live {start size : Nat} (fresh : Fresh start size r) : r.heap.CursorLive := by
  obtain ⟨memory,spare,fits,rfl⟩ := fresh
  obtain ⟨first,linked,pool,_⟩ := create_linked memory start size fits spare
  exact ⟨[first],linked,by rw [pool]; simp⟩

/-- Along every run whose calls keep off the two-cluster case, the cursor is linked
and in use and no call can loop; in each state so reached, the excluded calls are
exactly the ones that leave the cursor dangling. -/
theorem cursor_live_along_runs (start size : Nat) (r : HeapRun)
    (reached : Reach (Fresh start size) (Avoiding DropsCursor) r) :
    (∃ members, Ring.IsRing r.heap.next r.heap.prev members ∧ r.heap.pool.cursor ∈ members ∧
      r.heap.nodes.InUse r.heap.pool.cursor ∧
      (∀ reqSize, (r.heap.allocate members.length reqSize).isSome) ∧
      (∀ address, (r.heap.free members.length address).isSome)) ∧
    ∀ c t, r.Step c t → (t.heap.CursorLive ↔ ¬r.DropsCursor c) := by
  have live : r.heap.CursorLive := by
    refine reached.invariant (fun r => r.heap.CursorLive) (fun r fresh => fresh_cursor_live fresh) ?_
    rintro r t live ⟨c,step,keep⟩
    exact (step_cursor_iff live step).mpr keep
  refine ⟨?_,fun c t step => step_cursor_iff live step⟩
  obtain ⟨members,linked,cursor⟩ := live
  exact ⟨members,linked.ring,cursor,linked.entry _ cursor,calls_return linked cursor le_rfl⟩

/-- Allocating four of ten bytes and freeing them again keeps the cursor live. -/
theorem cursor_live_after_round_trip : ∃ r, calls Never Heap.DropsCursor 4 [.allocate 4,.free 106] small = some r ∧
    r.heap.nodes.InUse r.heap.pool.cursor := by
  have run : (calls Never Heap.DropsCursor 4 [.allocate 4,.free 106] small).isSome = true := rfl
  obtain ⟨r,done⟩ := Option.isSome_iff_exists.mp run
  have reached := calls_reach done (Reach.start small_fresh)
  obtain ⟨⟨_,_,_,used,_⟩,_⟩ := cursor_live_along_runs 100 10 r reached
  exact ⟨r,done,used⟩

/-- Four calls on a pool of ten bytes leave the cursor on a returned node, and
freeing an unknown address then loops for ever. -/
theorem cursor_left_dangling : ∃ r, Reach (Fresh 100 10) (Avoiding (Meets Never Never)) r ∧
    ¬r.heap.nodes.InUse r.heap.pool.cursor ∧ ∀ fuel, r.heap.free fuel 7 = none := by
  have run : (calls Never Never 4 [.allocate 4,.allocate 6,.free 106,.free 100] small).map (fun r =>
      (decide (r.heap.nodes.InUse r.heap.pool.cursor),r.heap.pool.cursor,
        r.heap.prev 4120,r.heap.prev 4096,r.heap.start 4120,r.heap.start 4096)) =
      some (false,4120,4096,4096,106,100) := rfl
  obtain ⟨r,done,facts⟩ := Option.map_eq_some_iff.mp run
  simp only [Prod.mk.injEq,decide_eq_false_iff_not] at facts
  obtain ⟨unused,cursor,prevStale,prevRing,startStale,startRing⟩ := facts
  refine ⟨r,calls_reach done (Reach.start small_fresh),unused,?_⟩
  intro fuel
  have endless : r.heap.acquire.findStart 7 fuel = none := by
    rw [findStart,show r.heap.acquire.pool.cursor = 4120 from cursor]
    cases fuel with
    | zero => rfl
    | succ fuel =>
      have back : r.heap.acquire.prev 4120 = 4096 := prevStale
      have miss : r.heap.acquire.start 4120 = 106 := startStale
      have hit : r.heap.acquire.start 4096 = 100 := startRing
      have loop : Ring.search r.heap.acquire.prev (fun c => decide (r.heap.acquire.start c = 7))
          4120 fuel 4096 = none := Ring.search_stuck prevRing (by decide) (by simp [hit]) fuel
      simp [Ring.search,back,miss,loop]
  rw [free,endless]

end RudimentaryKernel.HeapRun
