import RudimentaryKernel.ClusterRuns

/-! What an address says. Every live allocation is kept here with the cluster that was made for it;
`free` has only the address to find that cluster by. Requests may be for no bytes at all. -/
namespace RudimentaryKernel

open Function List Tiling

/-- An allocation as its caller knows it, and the cluster it was served from. -/
structure Allocation where
  address : Nat
  size : Nat
  cluster : Nat
  deriving DecidableEq

def Allocation.range (a : Allocation) : Nat × Nat := (a.address,a.size)

/-- The cluster of a request that has just been served: the one the search stopped at, or the new
one that `splituse` has put behind it. -/
def Heap.served (before after : Heap) (reqSize : Nat) : Nat :=
  if before.size after.pool.cursor = reqSize then after.pool.cursor else after.next after.pool.cursor

structure OwnedHeap where
  heap : Heap
  live : List Allocation

namespace OwnedHeap

/-- `kmalloc` of any size while node entries are to spare, and `kfree` of an address that is held. -/
def call (fuel : Nat) (r : OwnedHeap) : HeapCall → Option OwnedHeap
  | .allocate reqSize =>
    if reqSize < 2^32 ∧ r.heap.nodes.Spare then
      match r.heap.allocate fuel reqSize with
      | none => none
      | some (h,rt) => some ⟨h,if rt = 0 then r.live else ⟨rt,reqSize,r.heap.served h reqSize⟩ :: r.live⟩
    else none
  | .free address =>
    if ∃ a ∈ r.live, a.address = address then
      match r.heap.free fuel address with
      | none => none
      | some h => some ⟨h,r.live.eraseP (·.address = address)⟩
    else none

def run (r : OwnedHeap) : HeapRun := ⟨r.heap,r.live.map Allocation.range⟩

def Avoiding (defect : HeapRun → HeapCall → Prop) (r t : OwnedHeap) : Prop :=
  ∃ c, (∃ fuel, r.call fuel c = some t) ∧ ¬defect r.run c

def Fresh (start size : Nat) (r : OwnedHeap) : Prop := HeapRun.Fresh start size r.run

/-- The request is for no bytes, or the call leaves the pool's own memory. -/
def Misleads : HeapRun → HeapCall → Prop :=
  HeapRun.Meets (fun h reqSize => reqSize = 0 ∨ h.ServesStale reqSize) Heap.WrapsBoundary

end OwnedHeap

namespace HeapRun

open Heap

variable {r : HeapRun} {members : List Nat} {start size c : Nat}

theorem Sound.positive (sound : Sound start size r members) (used : c ∈ r.heap.usedOf members) :
    0 < r.heap.pool.size ∧ ∀ d ∈ members, 0 < r.heap.size d := by
  have inside := sound.layout.tiles.inside (mem_usedOf.mp used).1
  have filled := sound.filled c used
  have sized : 0 < r.heap.pool.size := by omega
  exact ⟨sized,fun d member => (sound.layout.sized d member).resolve_right (by omega)⟩

theorem Sound.cursor_member (sound : Sound start size r members) (used : c ∈ r.heap.usedOf members) :
    r.heap.pool.cursor ∈ members := by
  rcases sound.cursor with member | ⟨whole,rfl,free,_⟩
  · exact member
  · obtain ⟨member,used⟩ := mem_usedOf.mp used
    rw [mem_singleton.mp member,free] at used
    contradiction

theorem Sound.addresses (sound : Sound start size r members) : r.live.Pairwise (·.1 ≠ ·.1) := by
  refine sound.disjoint.imp_of_mem ?_
  intro a b liveA liveB apart same
  obtain ⟨c,used,rfl⟩ := mem_map.mp (sound.held.mem_iff.mp liveA)
  obtain ⟨d,used',rfl⟩ := mem_map.mp (sound.held.mem_iff.mp liveB)
  have first : 0 < (r.heap.block c).2 := sound.filled c used
  have second : 0 < (r.heap.block d).2 := sound.filled d used'
  rcases apart with apart | apart <;> omega

end HeapRun

namespace OwnedHeap

open Heap

variable {r t : OwnedHeap} {members : List Nat} {start size fuel : Nat}

/-- The pool is tiled, and every live allocation has its own cluster. -/
structure Sound (start size : Nat) (r : OwnedHeap) (members : List Nat) : Prop where
  run : HeapRun.Sound start size r.run members
  owned : ∀ a ∈ r.live, a.cluster ∈ r.heap.usedOf members ∧ r.heap.block a.cluster = a.range

theorem Sound.owner (sound : Sound start size r members) {a : Allocation} (live : a ∈ r.live) {c : Nat}
    (member : c ∈ members) (known : r.heap.block c = a.range) : c = a.cluster := by
  obtain ⟨used,same⟩ := sound.owned a live
  obtain ⟨_,positive⟩ := sound.run.positive used
  exact sound.run.layout.tiles.start_injective positive member (mem_usedOf.mp used).1
    (congrArg Prod.fst (known.trans same.symm))

theorem Sound.found (sound : Sound start size r members) {a : Allocation} (live : a ∈ r.live) {found : Option Nat}
    (outcome : r.heap.findStart a.address fuel = some found) : found = some a.cluster := by
  have held : a.range ∈ r.run.live := mem_map_of_mem live
  obtain ⟨_,c,member,rfl,_,known⟩ := sound.run.lookup held outcome
  rw [sound.owner live member known]

theorem served_taken {h : Heap} {pre post result : List Nat} {test reqSize taken : Nat}
    (takes : TakenShape r.heap h pre test post reqSize taken result) (linked : h.WellLinked result)
    (cursor : h.pool.cursor = test) : r.heap.served h reqSize = taken := by
  rw [served,cursor]
  rcases takes with ⟨_,rfl,fit,_⟩ | ⟨rfl,_,less,_⟩
  · rw [if_pos fit]
  · rw [if_neg (by omega)]
    exact (linked.rotated (Ring.rotated_split pre (taken :: post) test)).ring.next_second.1

theorem allocate_sound (sound : Sound start size r members) {reqSize : Nat}
    (done : r.call fuel (.allocate reqSize) = some t) (within : ¬Misleads r.run (.allocate reqSize)) :
    ∃ result, Sound start size t result := by
  rw [call] at done
  split at done
  case isFalse => cases done
  rename_i allowed
  split at done
  · cases done
  rename_i heap rt outcome
  obtain rfl := Option.some.inj done
  have asked : 0 < reqSize := Nat.pos_of_ne_zero (fun zero => within (.inl zero))
  rcases allocate_cases outcome with ⟨_,rfl,rfl⟩ | ⟨_,_,rfl,rfl⟩ | ⟨_,test,found,same,address⟩
  · exact ⟨members,sound.run.printed rfl rfl,sound.owned⟩
  · exact ⟨members,sound.run.printed rfl rfl,sound.owned⟩
  obtain ⟨member,free,fits⟩ := sound.run.found found (fun stale => within (.inr stale))
  have effect := sound.run.served allowed.2 asked member free fits
  dsimp only [run] at effect
  generalize r.heap.acquire.takeFrom test reqSize = outcome at *
  obtain ⟨h,rt'⟩ := outcome
  dsimp only at same address effect
  subst same address
  obtain ⟨pre,post,taken,result,_,takes,more,nonzero,cursor,after⟩ := effect
  have node : r.heap.served h.release reqSize = taken :=
    served_taken (h := h.release) takes after.layout.linked cursor
  rw [if_neg nonzero,node]
  refine ⟨result,after,?_⟩
  intro a live
  rcases mem_cons.mp live with rfl | old
  · exact ⟨more.used.mem_iff.mpr mem_cons_self,more.own⟩
  · obtain ⟨used,same⟩ := sound.owned a old
    exact ⟨more.used.mem_iff.mpr (mem_cons_of_mem _ used),(more.kept _ used).trans same⟩

theorem free_sound (sound : Sound start size r members) {address : Nat}
    (done : r.call fuel (.free address) = some t) (within : ¬Misleads r.run (.free address)) :
    ∃ result, Sound start size t result := by
  rw [call] at done
  split at done
  case isFalse => cases done
  rename_i held
  split at done
  · cases done
  rename_i heap outcome
  obtain rfl := Option.some.inj done
  obtain ⟨first,some',here⟩ := held
  obtain ⟨a,before,after,_,named,split,erased⟩ := exists_of_eraseP some' (p := (·.address = address)) (by simpa using here)
  obtain rfl : a.address = address := by simpa using named
  have live : a ∈ r.live := by rw [split]; simp
  have held : a.range ∈ r.run.live := mem_map_of_mem live
  rcases free_cases outcome with ⟨missing,_⟩ | ⟨c,found,rfl⟩
  · obtain ⟨_,_,_,impossible,_⟩ := sound.run.lookup held missing
    contradiction
  obtain ⟨sized,d,member,equal,used,known⟩ := sound.run.lookup held found
  obtain rfl : c = d := Option.some.inj equal
  obtain ⟨_,_,_,result,_,_,_,more,_,sound'⟩ :=
    sound.run.freed member used known sized (fun wraps => within ⟨fuel,c,found,wraps⟩)
  have whole : r.run.live ~ (a.range :: (before ++ after).map Allocation.range) := by
    rw [run,split]
    exact perm_middle.map Allocation.range
  refine ⟨result,?_,?_⟩
  · have smaller := whole.erase a.range
    rw [erase_cons_head] at smaller
    rw [run,erased]
    exact { sound' with held := smaller.symm.trans sound'.held }
  · intro b still
    rw [erased] at still
    have old : b ∈ r.live := by
      rw [split]
      simp only [mem_append,mem_cons] at still ⊢
      tauto
    obtain ⟨usedB,knownB⟩ := sound.owned b old
    have other : b.cluster ≠ c := by
      intro same
      have apart := (pairwise_cons.mp ((whole.pairwise_iff (fun differ => differ.symm)).mp sound.run.addresses)).1
      refine apart b.range (mem_map_of_mem still) (congrArg Prod.fst ?_)
      rw [← known,← knownB,same]
      rfl
    have kept : b.cluster ∈ (r.heap.acquire.giveBack c).usedOf result :=
      (mem_cons.mp (more.used.mem_iff.mp usedB)).resolve_left other
    exact ⟨kept,(more.kept _ kept).symm.trans knownB⟩

theorem step_sound (sound : Sound start size r members) (step : Avoiding Misleads r t) :
    ∃ result, Sound start size t result := by
  obtain ⟨c,⟨fuel,done⟩,within⟩ := step
  cases c with
  | allocate reqSize => exact allocate_sound sound done within
  | free address => exact free_sound sound done within

theorem fresh_sound (low : 0 < start) (high : start + size < 2^32) (fresh : Fresh start size r) :
    ∃ members, Sound start size r members := by
  obtain ⟨members,sound,_⟩ := HeapRun.fresh_sound low high fresh
  refine ⟨members,sound,?_⟩
  obtain ⟨memory,_,_,same⟩ := fresh
  have nothing : r.live = [] := map_eq_nil_iff.mp (congrArg HeapRun.live same)
  intro a live
  rw [nothing] at live
  cases live

theorem takeFrom_empty {h : Heap} {test : Nat} (fits : h.start test + h.size test < 2^32) :
    (h.takeFrom test 0).2 = h.start test + h.size test := by
  rw [takeFrom]
  by_cases empty : h.size test = 0
  · simp [empty]
  · have whole : sub32 (h.size test) 0 = h.size test := sub32_eq (by omega) (Nat.zero_le _)
    simp only [empty,↓reduceIte,splituse,insertBehind,limit,update_self,whole]
    exact add32_eq fits

/-- A request for no bytes that is served gets the limit of the pool, or the address at which the next
cluster starts. -/
theorem Sound.empty_request (sound : Sound start size r members) {h : Heap} {rt : Nat}
    (done : r.heap.allocate fuel 0 = some (h,rt)) (fresh : ¬r.heap.ServesStale 0) (nonzero : rt ≠ 0) :
    rt = r.heap.pool.limit ∨ ∃ c ∈ members, r.heap.start c = rt := by
  rcases allocate_cases done with ⟨_,zero,_⟩ | ⟨_,_,zero,_⟩ | ⟨_,test,found,_,address⟩
  · contradiction
  · contradiction
  obtain ⟨member,_,_⟩ := sound.run.found found fresh
  have layout : r.heap.Layout members := sound.run.layout
  have high := layout.high
  have inside := layout.tiles.inside member
  have ends : rt = r.heap.start test + r.heap.size test :=
    address.trans (takeFrom_empty (h := r.heap.acquire) (Nat.lt_of_le_of_lt inside.2 high))
  obtain ⟨pre,post,rfl⟩ := append_of_mem member
  obtain ⟨mid,_,here,after⟩ := tiles_append.mp layout.tiles
  cases post with
  | nil =>
    rw [tiles_nil] at after
    rw [layout.limit_pool]
    exact .inl (by omega)
  | cons d post =>
    have follow : r.heap.start d = mid + r.heap.size test := after.1
    exact .inr ⟨d,by simp,by omega⟩

/-- Along every run whose calls ask for at least one byte and do not leave the pool's own memory, the
live addresses are different and inside the pool, and `kfree` of one of them returns and gives back
the cluster that was made for it. A request for no bytes would be given the limit of the pool or the
address of another cluster, unless it is refused. -/
theorem addresses_identify (start size : Nat) (low : 0 < start) (high : start + size < 2^32) (r : OwnedHeap)
    (reached : Reach (Fresh start size) (Avoiding Misleads) r) :
    (r.live.map Allocation.address).Nodup ∧
    (∀ a ∈ r.live, r.heap.pool.start ≤ a.address ∧ a.address < r.heap.pool.limit) ∧
    (∀ a ∈ r.live, r.heap.type a.cluster = .used ∧ r.heap.start a.cluster = a.address ∧
      (∃ fuel, (r.heap.free fuel a.address).isSome) ∧
      ∀ fuel h, r.heap.free fuel a.address = some h → h = (r.heap.acquire.giveBack a.cluster).release) ∧
    ∀ fuel h rt, ¬r.heap.ServesStale 0 → r.heap.allocate fuel 0 = some (h,rt) → rt ≠ 0 →
      rt = r.heap.pool.limit ∨ ∃ c, r.heap.nodes.InUse c ∧ r.heap.start c = rt := by
  obtain ⟨members,sound⟩ : ∃ members, Sound start size r members :=
    reached.invariant (fun r => ∃ members, Sound start size r members) (fun _ => fresh_sound low high)
      (fun _ _ ⟨_,sound⟩ step => step_sound sound step)
  refine ⟨?_,?_,?_,?_⟩
  · have apart := sound.run.addresses
    rw [run,pairwise_map] at apart
    exact pairwise_map.mpr apart
  · intro a live
    obtain ⟨used,known⟩ := sound.owned a live
    have layout : r.heap.Layout members := sound.run.layout
    have inside := layout.tiles.inside (mem_usedOf.mp used).1
    have filled : 0 < r.heap.size a.cluster := sound.run.filled _ used
    have placed : r.heap.start a.cluster = a.address := congrArg Prod.fst known
    rw [layout.limit_pool]
    omega
  · intro a live
    obtain ⟨used,known⟩ := sound.owned a live
    refine ⟨(mem_usedOf.mp used).2,congrArg Prod.fst known,?_,?_⟩
    · obtain ⟨_,returns⟩ := calls_return sound.run.layout.linked (sound.run.cursor_member used) le_rfl
      exact ⟨_,returns a.address⟩
    · intro fuel h done
      rcases free_cases done with ⟨missing,_⟩ | ⟨c,found,same⟩
      · cases sound.found live missing
      · rw [same,Option.some.inj (sound.found live found)]
  · intro fuel h rt fresh done nonzero
    rcases sound.empty_request done fresh nonzero with limit | ⟨c,member,placed⟩
    · exact .inl limit
    · exact .inr ⟨c,sound.run.layout.linked.entry c member,placed⟩

def small : OwnedHeap := ⟨HeapRun.small.heap,[]⟩

theorem small_fresh : Fresh 100 10 small := HeapRun.small_fresh

section Executable

variable (asking freeing : Heap → Nat → Prop) [∀ h n, Decidable (asking h n)] [∀ h n, Decidable (freeing h n)]

def calls (fuel : Nat) : List HeapCall → OwnedHeap → Option OwnedHeap
  | [], r => some r
  | c :: rest, r => if HeapRun.meets asking freeing fuel r.run c then none
      else (r.call fuel c).bind (calls fuel rest)

variable {asking freeing}

theorem calls_reach {initial : OwnedHeap → Prop} {cs : List HeapCall}
    (done : calls asking freeing fuel cs r = some t)
    (reached : Reach initial (Avoiding (HeapRun.Meets asking freeing)) r) :
    Reach initial (Avoiding (HeapRun.Meets asking freeing)) t := by
  induction cs generalizing r with
  | nil => cases done; exact reached
  | cons c rest ih =>
    rw [calls] at done
    split at done
    · contradiction
    · rename_i clean
      obtain ⟨middle,first,later⟩ := Option.bind_eq_some_iff.mp done
      refine ih later (reached.advance ⟨c,⟨fuel,first⟩,HeapRun.meets_covers ?_ (by simpa using clean)⟩)
      rintro address rfl
      rw [call] at first
      split at first
      · split at first
        · contradiction
        · exact ⟨_,‹_›⟩
      · contradiction

end Executable

/-- Two allocations and their clusters. -/
theorem addresses_after_two_calls : ∃ r : OwnedHeap, Reach (Fresh 100 10) (Avoiding Misleads) r ∧
    r.live = [⟨103,3,4144⟩,⟨106,4,4120⟩] ∧ (r.live.map Allocation.address).Nodup := by
  have run : (calls (fun h reqSize => reqSize = 0 ∨ h.ServesStale reqSize) WrapsBoundary 4
      [.allocate 4,.allocate 3] small).map OwnedHeap.live = some [⟨103,3,4144⟩,⟨106,4,4120⟩] := rfl
  obtain ⟨r,done,live⟩ := Option.map_eq_some_iff.mp run
  have reached : Reach (Fresh 100 10) (Avoiding Misleads) r := calls_reach done (.start small_fresh)
  exact ⟨r,reached,live,(addresses_identify 100 10 (by decide) (by decide) r reached).1⟩

/-- Four bytes and then none are asked for. Both requests get the address 106, at which `free` finds the
cluster of the first one. In an unused pool, no bytes are at its limit. -/
theorem empty_request_misleads :
    (∃ r : OwnedHeap, Reach (Fresh 100 10) (Avoiding (HeapRun.Meets HeapRun.Never HeapRun.Never)) r ∧
      r.live = [⟨106,0,4144⟩,⟨106,4,4120⟩] ∧ r.heap.findStart 106 4 = some (some 4120)) ∧
    ∃ r : OwnedHeap, Reach (Fresh 100 10) (Avoiding (HeapRun.Meets HeapRun.Never HeapRun.Never)) r ∧
      r.heap.pool.limit = 110 ∧ r.live = [⟨110,0,4120⟩] := by
  have twice : (calls HeapRun.Never HeapRun.Never 4 [.allocate 4,.allocate 0] small).map (fun r =>
      (r.live,r.heap.findStart 106 4)) = some ([⟨106,0,4144⟩,⟨106,4,4120⟩],some (some 4120)) := rfl
  have outside : (calls HeapRun.Never HeapRun.Never 4 [.allocate 0] small).map (fun r =>
      (r.heap.pool.limit,r.live)) = some (110,[⟨110,0,4120⟩]) := rfl
  obtain ⟨r,first,facts⟩ := Option.map_eq_some_iff.mp twice
  obtain ⟨t,second,limit⟩ := Option.map_eq_some_iff.mp outside
  exact ⟨⟨r,calls_reach first (.start small_fresh),Prod.mk.inj facts⟩,
    t,calls_reach second (.start small_fresh),Prod.mk.inj limit⟩

end OwnedHeap

end RudimentaryKernel
