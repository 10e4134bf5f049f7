import Mathlib.Algebra.Order.BigOperators.Group.List
import Mathlib.Algebra.Order.Ring.Nat
import RudimentaryKernel.ClusterTiles

/-! Whole runs of the heap. The callers' live allocations are exactly the used
clusters of a tiled pool, as long as no call merges the first cluster into the
last one and none is served from a node that the pool no longer owns. -/
namespace RudimentaryKernel

open Function List Tiling

namespace Heap

variable {h t : Heap} {members pre post after : List Nat} {c taken reqSize : Nat}

def usedOf (h : Heap) (members : List Nat) : List Nat :=
  members.filter (fun c => h.type c = .used)

theorem usedOf_sizes_le (h : Heap) (members : List Nat) :
    ((h.usedOf members).map h.size).sum ≤ (members.map h.size).sum :=
  (filter_sublist.map h.size).sum_le_sum (fun _ _ => Nat.zero_le _)

/-- The cursor is on a returned node, and that node would be handed out. -/
def ServesStale (h : Heap) (reqSize : Nat) : Prop :=
  ¬h.nodes.InUse h.pool.cursor ∧ h.fitting reqSize h.pool.cursor = true

instance (h : Heap) (reqSize : Nat) : Decidable (h.ServesStale reqSize) :=
  inferInstanceAs (Decidable (_ ∧ _))

def block (h : Heap) (c : Nat) : Nat × Nat := (h.start c,h.size c)

theorem mem_usedOf : c ∈ h.usedOf members ↔ c ∈ members ∧ h.type c = .used := by
  simp [usedOf]

theorem usedOf_congr (same : ∀ d ∈ members, t.type d = h.type d) :
    t.usedOf members = h.usedOf members := by
  apply filter_congr
  intro d member
  rw [same d member]

theorem usedOf_update {kind : ClusterType} (absent : c ∉ members)
    (type : t.type = update h.type c kind) : t.usedOf members = h.usedOf members := by
  apply usedOf_congr
  intro d member
  have other : d ≠ c := fun same => absent (same ▸ member)
  rw [type,update_of_ne other]

theorem Forward.used (forward : Forward h.type post after) : h.usedOf after = h.usedOf post := by
  rcases forward with ⟨rfl,_⟩ | ⟨d,free,rfl⟩
  · rfl
  · simp [usedOf,free]

theorem FreedShape.used (shape : FreedShape h pre c after members)
    (forward : Forward h.type post after) (outside : c ∉ pre ∧ c ∉ post)
    (type : t.type = update h.type c .free) :
    t.usedOf members = h.usedOf pre ++ h.usedOf post := by
  have rest : c ∉ after := by
    rcases forward with ⟨rfl,_⟩ | ⟨d,_,rfl⟩
    · exact outside.2
    · exact fun member => outside.2 (mem_cons_of_mem _ member)
  rw [← forward.used]
  rcases shape with ⟨rfl,_⟩ | ⟨front,e,rfl,free,rfl⟩
  · have gone : t.type c = .free := by simp [type]
    rw [← usedOf_update outside.1 type,← usedOf_update rest type]
    simp [usedOf,gone]
  · have absent : c ∉ front ++ e :: after := by
      simp only [mem_append,mem_cons] at outside ⊢
      tauto
    rw [usedOf_update absent type]
    simp [usedOf,free]

theorem TakenShape.used (shape : TakenShape h t pre c post reqSize taken members)
    (free : h.type c = .free) (nodup : (pre ++ c :: post).Nodup) :
    t.usedOf members ~ (taken :: h.usedOf (pre ++ c :: post)) := by
  have before : h.usedOf (pre ++ c :: post) = h.usedOf pre ++ h.usedOf post := by
    simp [usedOf,free]
  have outside : c ∉ pre ∧ c ∉ post := by
    have turned := (Ring.rotated_split pre post c).nodup_iff.mp nodup
    simp only [nodup_cons,mem_append,not_or] at turned
    exact ⟨turned.1.2,turned.1.1⟩
  rw [before]
  rcases shape with ⟨rfl,rfl,_,_,_,type⟩ | ⟨rfl,fresh,_,_,_,type⟩
  · have now : t.type taken = .used := by simp [type]
    rw [← usedOf_update outside.1 type,← usedOf_update outside.2 type]
    have shape : t.usedOf (pre ++ taken :: post) = t.usedOf pre ++ taken :: t.usedOf post := by
      simp [usedOf,now]
    rw [shape]
    exact perm_middle
  · simp only [mem_append,mem_cons,not_or] at fresh
    have now : t.type taken = .used := by simp [type]
    have still : t.type c = .free := by rw [type,update_of_ne (Ne.symm fresh.2.1),free]
    rw [← usedOf_update fresh.1 type,← usedOf_update fresh.2.2 type]
    have shape : t.usedOf (pre ++ c :: taken :: post) = t.usedOf pre ++ taken :: t.usedOf post := by
      simp [usedOf,now,still]
    rw [shape]
    exact perm_middle

theorem TakenShape.blocks (shape : TakenShape h t pre c post reqSize taken members)
    (free : h.type c = .free) :
    t.size taken = reqSize ∧ ∀ d ∈ h.usedOf (pre ++ c :: post), t.block d = h.block d := by
  rcases shape with ⟨rfl,rfl,fit,start,size,_⟩ | ⟨rfl,fresh,_,start,size,_⟩
  · exact ⟨by rw [size,fit],fun d _ => by rw [block,start,size]; rfl⟩
  · refine ⟨by simp [size],?_⟩
    intro d member
    obtain ⟨old,used⟩ := mem_usedOf.mp member
    have notNew : d ≠ taken := fun same => fresh (same ▸ old)
    have notFree : d ≠ c := by
      intro same
      rw [same,free] at used
      contradiction
    simp [block,start,size,notNew,notFree]

/-- `t` has one used cluster more than `h`, with the given range. All others are the same nodes with
the same ranges. -/
structure OneMore (h t : Heap) (members result : List Nat) (node : Nat) (range : Nat × Nat) : Prop where
  used : t.usedOf result ~ (node :: h.usedOf members)
  kept : ∀ d ∈ h.usedOf members, t.block d = h.block d
  own : t.block node = range

section OneMore

variable {result : List Nat} {node : Nat} {range : Nat × Nat} (more : OneMore h t members result node range)

include more

theorem OneMore.blocks : (t.usedOf result).map t.block ~ (range :: (h.usedOf members).map h.block) := by
  have perm := more.used.map t.block
  rwa [map_cons,more.own,map_congr_left more.kept] at perm

theorem OneMore.sizes : ((t.usedOf result).map t.size).sum = range.2 + ((h.usedOf members).map h.size).sum := by
  have perm := (more.blocks.map Prod.snd).sum_eq
  rw [map_map,map_cons,map_map,sum_cons] at perm
  exact perm

theorem OneMore.filled (asked : 0 < range.2) (filled : ∀ c ∈ h.usedOf members, 0 < h.size c) :
    ∀ c ∈ t.usedOf result, 0 < t.size c := by
  intro c member
  rcases mem_cons.mp (more.used.mem_iff.mp member) with rfl | old
  · exact Nat.lt_of_lt_of_eq asked (congrArg Prod.snd more.own).symm
  · exact Nat.lt_of_lt_of_eq (filled c old) (congrArg Prod.snd (more.kept c old)).symm

theorem OneMore.unfilled (filled : ∀ c ∈ t.usedOf result, 0 < t.size c) :
    ∀ c ∈ h.usedOf members, 0 < h.size c := by
  intro c member
  have same : t.size c = h.size c := congrArg Prod.snd (more.kept c member)
  rw [← same]
  exact filled c (more.used.mem_iff.mpr (mem_cons_of_mem _ member))

end OneMore

end Heap

namespace HeapRun

open Heap

/-- The callers hold exactly the used clusters of a tiled pool. -/
structure Sound (start size : Nat) (r : HeapRun) (members : List Nat) : Prop where
  begins : r.heap.pool.start = start
  sized : r.heap.pool.size = size
  layout : r.heap.Layout members
  held : r.live ~ (r.heap.usedOf members).map r.heap.block
  charged : r.heap.pool.bytesUsed = ((r.heap.usedOf members).map r.heap.size).sum
  filled : ∀ c ∈ r.heap.usedOf members, 0 < r.heap.size c
  cursor : r.heap.pool.cursor ∈ members ∨ r.heap.Stale members

variable {r t : HeapRun} {members : List Nat} {start size : Nat}

theorem fresh_sound (low : 0 < start) (high : start + size < 2^32) (fresh : Fresh start size r) :
    ∃ members, Sound start size r members ∧ ∃ first, members = [first] ∧ r.heap.type first = .free := by
  obtain ⟨memory,spare,fits,rfl⟩ := fresh
  obtain ⟨first,linked,pool,begins,long,free⟩ := create_linked memory start size fits spare
  have unused : (memory.createClusterPool start size).usedOf [first] = [] := by
    simp [usedOf,free]
  refine ⟨[first],⟨by rw [pool],by rw [pool],⟨linked,?_,?_,?_,?_⟩,?_,?_,?_,?_⟩,first,rfl,free⟩
  · rw [pool]
    simp [begins,long]
  · rw [pool]; exact low
  · rw [pool]; exact high
  · intro c member
    rw [mem_singleton.mp member,pool,long]
    dsimp only
    omega
  · simp [unused]
  · rw [unused,pool]
    rfl
  · simp [unused]
  · rw [pool]
    simp

theorem Sound.charged_le (sound : Sound start size r members) : r.heap.pool.bytesUsed ≤ r.heap.pool.size := by
  have total := sound.layout.tiles.total
  have part := r.heap.usedOf_sizes_le members
  rw [sound.charged]
  omega

theorem Sound.room (sound : Sound start size r members) {c : Nat} (member : c ∈ members)
    (free : r.heap.type c = .free) :
    r.heap.pool.bytesUsed + r.heap.size c ≤ r.heap.pool.size := by
  obtain ⟨pre,post,rfl⟩ := append_of_mem member
  have total := sound.layout.tiles.total
  have first := r.heap.usedOf_sizes_le pre
  have second := r.heap.usedOf_sizes_le post
  have split : r.heap.usedOf (pre ++ c :: post) = r.heap.usedOf pre ++ r.heap.usedOf post := by
    simp [usedOf,free]
  rw [sound.charged,split]
  simp only [map_append,map_cons,sum_append,sum_cons] at total ⊢
  omega

/-- The call leaves the pool's own memory: an allocation is served from the cursor
although its node has been returned, or the first cluster is merged into the last. -/
def Overruns : HeapRun → HeapCall → Prop := Meets ServesStale WrapsBoundary

/-- How one call changes the clusters of the pool in address order. -/
inductive Change (h t : Heap) (call : HeapCall) (members result : List Nat) : Prop where
  | none (same : result = members) (type : t.type = h.type)
  | took (pre : List Nat) (c : Nat) (post : List Nat) (reqSize taken : Nat)
      (shape : members = pre ++ c :: post) (free : h.type c = .free)
      (taken : TakenShape h t pre c post reqSize taken result)
  | freed (address fuel : Nat) (pre : List Nat) (c : Nat) (post after : List Nat)
      (called : call = .free address) (found : h.findStart address fuel = some (some c))
      (shape : members = pre ++ c :: post) (used : h.type c = .used)
      (forward : Forward h.type post after) (freed : FreedShape h pre c after result)
      (type : t.type = update h.type c .free)

theorem Sound.found (sound : Sound start size r members) {reqSize fuel test : Nat}
    (found : r.heap.findFit reqSize fuel = some (some test))
    (within : ¬r.Overruns (.allocate reqSize)) :
    test ∈ members ∧ r.heap.type test = .free ∧ reqSize ≤ r.heap.size test := by
  have fits : r.heap.fitting reqSize test = true := Ring.search_found found
  have facts : r.heap.type test = .free ∧ reqSize ≤ r.heap.size test := by
    cases type : r.heap.type test <;> simp_all [fitting]
  refine ⟨?_,facts⟩
  rcases sound.cursor with cursor | ⟨whole,rfl,_,away,onward,returned,_⟩
  · exact findFit_member sound.layout.linked cursor found
  · have miss : r.heap.fitting reqSize r.heap.pool.cursor = false :=
      Bool.eq_false_iff.mpr (fun hit => within ⟨returned,hit⟩)
    have loop : r.heap.next whole = whole := (Ring.IsRing.single_iff.mp sound.layout.linked.ring).1
    cases fuel with
    | zero => simp [findFit,Ring.search] at found
    | succ fuel =>
      have later : Ring.search r.heap.next (r.heap.fitting reqSize) r.heap.pool.cursor fuel whole =
          some (some test) := by
        simpa [findFit,Ring.search,miss,onward,Ne.symm away] using found
      cases hit : r.heap.fitting reqSize whole with
      | true =>
        have here : Ring.search r.heap.next (r.heap.fitting reqSize) r.heap.pool.cursor 1 whole =
            some (some whole) := by simp [Ring.search,hit]
        have same := Ring.search_unique later here
        simpa using same
      | false =>
        rw [Ring.search_stuck loop (Ne.symm away) hit fuel] at later
        contradiction

theorem Sound.printed (sound : Sound start size r members) {lock : LockStatus} {console : List Print}
    (heap : t.heap = { r.heap with pool := { r.heap.pool with lock := lock }, console := console })
    (live : t.live = r.live) : Sound start size t members := by
  obtain ⟨h,l⟩ := t
  dsimp only at heap live
  subst heap
  subst live
  exact ⟨sound.begins,sound.sized,⟨sound.layout.linked.congr rfl rfl rfl,sound.layout.tiles,
    sound.layout.low,sound.layout.high,sound.layout.sized⟩,sound.held,sound.charged,sound.filled,sound.cursor⟩

/-- A request that is served from a free cluster adds one used cluster with the requested range. -/
theorem Sound.taken (sound : Sound start size r members) {test reqSize : Nat} (spare : r.heap.nodes.Spare)
    (asked : 0 < reqSize) (member : test ∈ members) (free : r.heap.type test = .free)
    (fits : reqSize ≤ r.heap.size test) :
    let (h,rt) := r.heap.acquire.takeFrom test reqSize
    ∃ pre post taken result, members = pre ++ test :: post ∧
      TakenShape r.heap h pre test post reqSize taken result ∧ h.Layout result ∧
      OneMore r.heap h members result taken (rt,reqSize) ∧
      h.pool = { r.heap.acquire.pool with
        cursor := test, bytesUsed := add32 r.heap.pool.bytesUsed reqSize } := by
  obtain ⟨pre,post,rfl⟩ := append_of_mem member
  have locked : r.heap.acquire.Layout (pre ++ test :: post) :=
    ⟨sound.layout.linked.congr rfl rfl rfl,sound.layout.tiles,sound.layout.low,
      sound.layout.high,sound.layout.sized⟩
  obtain ⟨taken,result,shape,layout,placed,pool⟩ := takeFrom_layout locked spare asked fits
  generalize r.heap.acquire.takeFrom test reqSize = outcome at *
  obtain ⟨h,rt⟩ := outcome
  dsimp only at shape layout placed pool
  have shape' : TakenShape r.heap h pre test post reqSize taken result := shape
  obtain ⟨fitted,blocks⟩ := shape'.blocks free
  have own : h.block taken = (rt,reqSize) := by rw [block,fitted,placed]
  exact ⟨pre,post,taken,result,rfl,shape',layout,⟨shape'.used free sound.layout.linked.ring.nodup,blocks,own⟩,pool⟩

theorem Sound.served (sound : Sound start size r members) {test reqSize : Nat} (spare : r.heap.nodes.Spare)
    (asked : 0 < reqSize) (member : test ∈ members) (free : r.heap.type test = .free)
    (fits : reqSize ≤ r.heap.size test) :
    let (h,rt) := r.heap.acquire.takeFrom test reqSize
    ∃ pre post taken result, members = pre ++ test :: post ∧
      TakenShape r.heap h pre test post reqSize taken result ∧
      OneMore r.heap h members result taken (rt,reqSize) ∧ rt ≠ 0 ∧ h.pool.cursor = test ∧
      Sound start size ⟨h.release,(rt,reqSize) :: r.live⟩ result := by
  have room := sound.room member free
  have high := sound.layout.high
  have effect := sound.taken spare asked member free fits
  generalize r.heap.acquire.takeFrom test reqSize = outcome at *
  obtain ⟨h,rt⟩ := outcome
  dsimp only at effect
  obtain ⟨pre,post,taken,result,shape,takes,layout,more,pool⟩ := effect
  have used : taken ∈ h.usedOf result := more.used.mem_iff.mpr mem_cons_self
  have cursor : h.pool.cursor = test := congrArg ClusterPool.cursor pool
  refine ⟨pre,post,taken,result,shape,takes,more,?_,cursor,?_,?_,?_,?_,?_,more.filled asked sound.filled,.inl ?_⟩
  · have low := layout.low
    have inside := layout.tiles.inside (mem_usedOf.mp used).1
    have placed : h.start taken = rt := congrArg Prod.fst more.own
    omega
  · exact (congrArg ClusterPool.start pool).trans sound.begins
  · exact (congrArg ClusterPool.size pool).trans sound.sized
  · exact ⟨layout.linked.congr rfl rfl rfl,layout.tiles,layout.low,layout.high,layout.sized⟩
  · exact (sound.held.cons _).trans more.blocks.symm
  · refine (congrArg ClusterPool.bytesUsed pool).trans (Eq.trans ?_ more.sizes.symm)
    dsimp only
    rw [add32_eq (by omega),sound.charged,Nat.add_comm]
  · change h.pool.cursor ∈ result
    rw [cursor]
    rcases takes with ⟨rfl,_⟩ | ⟨rfl,_⟩ <;> simp

theorem allocate_sound (sound : Sound start size r members) {fuel reqSize : Nat}
    (done : r.call fuel (.allocate reqSize) = some t) (within : ¬r.Overruns (.allocate reqSize)) :
    ∃ result, Sound start size t result ∧ Change r.heap t.heap (.allocate reqSize) members result := by
  obtain ⟨asked,_,spare,rt,outcome,live⟩ := call_allocate done
  rcases allocate_cases outcome with ⟨_,failed,same⟩ | ⟨_,_,failed,same⟩ | ⟨_,test,found,same,address⟩
  · exact ⟨members,sound.printed same (by simp [live,failed]),.none rfl (by rw [same]; rfl)⟩
  · exact ⟨members,sound.printed same (by simp [live,failed]),.none rfl (by rw [same]; rfl)⟩
  obtain ⟨member,free,fits⟩ := sound.found found within
  have effect := sound.served spare asked member free fits
  generalize r.heap.acquire.takeFrom test reqSize = outcome at *
  obtain ⟨h,rt'⟩ := outcome
  dsimp only at same address effect
  subst address
  obtain ⟨pre,post,taken,result,shape,takes,_,nonzero,_,after⟩ := effect
  rw [if_neg nonzero] at live
  obtain ⟨heap,live'⟩ := t
  dsimp only at same live
  subst same live
  exact ⟨result,after,.took pre test post reqSize taken shape free takes⟩

/-- The address a caller holds leads `free` to the used cluster the caller got. -/
theorem Sound.lookup (sound : Sound start size r members) {held : Nat × Nat} (live : held ∈ r.live)
    {fuel : Nat} {found : Option Nat} (outcome : r.heap.findStart held.1 fuel = some found) :
    0 < r.heap.pool.size ∧ ∃ c ∈ members, found = some c ∧ r.heap.type c = .used ∧
      r.heap.block c = held := by
  obtain ⟨c,inUse,same⟩ := mem_map.mp (sound.held.mem_iff.mp live)
  obtain ⟨member,used⟩ := mem_usedOf.mp inUse
  have start : r.heap.start c = held.1 := congrArg Prod.fst same
  have inside := sound.layout.tiles.inside member
  have filled := sound.filled c inUse
  have sized : 0 < r.heap.pool.size := by omega
  have positive : ∀ d ∈ members, 0 < r.heap.size d :=
    fun d inMembers => (sound.layout.sized d inMembers).resolve_right (by omega)
  refine ⟨sized,c,member,?_,used,same⟩
  rcases sound.cursor with cursor | ⟨whole,rfl,free,_⟩
  · obtain ⟨rest,turn⟩ := Ring.exists_rotation cursor
    have whole := findStart_eq (sound.layout.linked.rotated turn) held.1 (Nat.lt_succ_self _)
    have result := Ring.search_unique outcome whole
    have present : c ∈ r.heap.pool.cursor :: rest.reverse := by
      have turned := turn.mem_iff.mp member
      simpa using turned
    cases found with
    | none =>
      have miss := find?_eq_none.mp result.symm c present
      simp [start] at miss
    | some candidate =>
      have hit : r.heap.start candidate = held.1 := by simpa using find?_some result.symm
      have inMembers := findStart_member sound.layout.linked cursor outcome
      rw [sound.layout.tiles.start_injective positive inMembers member (hit.trans start.symm)]
  · rw [mem_singleton.mp member,free] at used
    contradiction

theorem Sound.given (sound : Sound start size r members) {held : Nat × Nat} {c : Nat} (member : c ∈ members)
    (used : r.heap.type c = .used) (known : r.heap.block c = held) (sized : 0 < r.heap.pool.size)
    (inside : ¬r.heap.WrapsBoundary c) :
    let h := r.heap.acquire.giveBack c
    ∃ pre post after result, members = pre ++ c :: post ∧ Forward r.heap.type post after ∧
      FreedShape r.heap pre c after result ∧ h.Layout result ∧
      OneMore h r.heap result members c held ∧ h.type = update r.heap.type c .free ∧
      h.pool = (r.heap.acquire.released c).pool ∧ (h.pool.cursor ∈ result ∨ h.Stale result) := by
  obtain ⟨pre,post,rfl⟩ := append_of_mem member
  have locked : r.heap.acquire.Layout (pre ++ c :: post) :=
    ⟨sound.layout.linked.congr rfl rfl rfl,sound.layout.tiles,sound.layout.low,
      sound.layout.high,sound.layout.sized⟩
  obtain ⟨after,result,forward,shape,layout,quiet,cursor⟩ := giveBack_layout locked used sized inside
  generalize r.heap.acquire.giveBack c = h at *
  have outside := sound.layout.not_mem
  have type : h.type = update r.heap.type c .free := quiet.type
  have forward' : Forward r.heap.type post after := forward
  have shape' : FreedShape r.heap pre c after result := shape
  have remaining : h.usedOf result = r.heap.usedOf pre ++ r.heap.usedOf post :=
    shape'.used forward' outside type
  have before : r.heap.usedOf (pre ++ c :: post) =
      r.heap.usedOf pre ++ c :: r.heap.usedOf post := by simp [usedOf,used]
  refine ⟨pre,post,after,result,rfl,forward',shape',layout,⟨?_,?_,known⟩,type,quiet.pool,cursor⟩
  · rw [before,remaining]
    exact perm_middle
  · intro d inUse
    have still := (mem_usedOf.mp inUse).2
    have other : d ≠ c := by
      rintro rfl
      rw [type,update_self] at still
      contradiction
    rw [type,update_of_ne other] at still
    have size := quiet.size d (by rw [released_type_other other]; exact still)
    have start : h.start d = r.heap.start d := congrFun quiet.start d
    rw [block,block,start,size]
    rfl

theorem Sound.freed (sound : Sound start size r members) {held : Nat × Nat} {c : Nat} (member : c ∈ members)
    (used : r.heap.type c = .used) (known : r.heap.block c = held) (sized : 0 < r.heap.pool.size)
    (inside : ¬r.heap.WrapsBoundary c) :
    let h := r.heap.acquire.giveBack c
    ∃ pre post after result, members = pre ++ c :: post ∧ Forward r.heap.type post after ∧
      FreedShape r.heap pre c after result ∧ OneMore h r.heap result members c held ∧
      h.type = update r.heap.type c .free ∧ Sound start size ⟨h.release,r.live.erase held⟩ result := by
  have effect := sound.given member used known sized inside
  generalize r.heap.acquire.giveBack c = h at *
  obtain ⟨pre,post,after,result,shape,forward,frees,layout,more,type,pool,cursor⟩ := effect
  refine ⟨pre,post,after,result,shape,forward,frees,more,type,?_,?_,?_,?_,?_,more.unfilled sound.filled,cursor⟩
  · exact (congrArg ClusterPool.start pool).trans sound.begins
  · exact (congrArg ClusterPool.size pool).trans sound.sized
  · exact ⟨layout.linked.congr rfl rfl rfl,layout.tiles,layout.low,layout.high,layout.sized⟩
  · have smaller := (sound.held.trans more.blocks).erase held
    rwa [erase_cons_head] at smaller
  · refine (congrArg ClusterPool.bytesUsed pool).trans ?_
    change sub32 r.heap.pool.bytesUsed (r.heap.size c) = ((h.usedOf result).map h.size).sum
    have high := sound.layout.high
    have limited := sound.charged_le
    have sum := sound.charged.trans more.sizes
    have own : r.heap.size c = held.2 := congrArg Prod.snd known
    rw [own,sub32_eq (by omega) (by omega),sum,Nat.add_sub_cancel_left]

theorem free_sound (sound : Sound start size r members) {fuel address : Nat}
    (done : r.call fuel (.free address) = some t) (within : ¬r.Overruns (.free address)) :
    ∃ result, Sound start size t result ∧ Change r.heap t.heap (.free address) members result := by
  obtain ⟨held,inLive,rfl,outcome,live⟩ := call_free done
  rcases free_cases outcome with ⟨missing,_⟩ | ⟨c,found,same⟩
  · obtain ⟨_,_,_,impossible,_⟩ := sound.lookup inLive missing
    contradiction
  obtain ⟨sized,d,member,equal,used,known⟩ := sound.lookup inLive found
  obtain rfl : c = d := Option.some.inj equal
  obtain ⟨pre,post,after,result,shape,forward,frees,_,type,sound⟩ :=
    sound.freed member used known sized (fun wraps => within ⟨fuel,c,found,wraps⟩)
  obtain ⟨heap,live'⟩ := t
  dsimp only at same live
  subst same live
  exact ⟨result,sound,.freed held.1 fuel pre c post after rfl found shape used forward frees type⟩

theorem step_sound (sound : Sound start size r members) {c : HeapCall} (step : r.Step c t)
    (within : ¬r.Overruns c) :
    ∃ result, Sound start size t result ∧ Change r.heap t.heap c members result := by
  obtain ⟨fuel,done⟩ := step
  cases c with
  | allocate reqSize => exact allocate_sound sound done within
  | free address => exact free_sound sound done within

theorem sound_along_runs (low : 0 < start) (high : start + size < 2^32)
    (reached : Reach (Fresh start size) (Avoiding Overruns) r) :
    ∃ members, Sound start size r members := by
  refine reached.invariant (fun r => ∃ members, Sound start size r members) ?_ ?_
  · intro r fresh
    obtain ⟨members,sound,_⟩ := fresh_sound low high fresh
    exact ⟨members,sound⟩
  · rintro r t ⟨members,sound⟩ ⟨c,step,within⟩
    obtain ⟨result,after,_⟩ := step_sound sound step within
    exact ⟨result,after⟩

def Disjoint (a b : Nat × Nat) : Prop := a.1 + a.2 ≤ b.1 ∨ b.1 + b.2 ≤ a.1

instance (a b : Nat × Nat) : Decidable (Disjoint a b) := inferInstanceAs (Decidable (_ ∨ _))

theorem Sound.inside (sound : Sound start size r members) {held : Nat × Nat} (live : held ∈ r.live) :
    start ≤ held.1 ∧ held.1 + held.2 ≤ start + size := by
  obtain ⟨c,used,rfl⟩ := mem_map.mp (sound.held.mem_iff.mp live)
  have bounds := sound.layout.tiles.inside (mem_usedOf.mp used).1
  rw [sound.begins,sound.sized] at bounds
  exact bounds

theorem Sound.disjoint (sound : Sound start size r members) : r.live.Pairwise Disjoint := by
  rw [sound.held.pairwise_iff (fun apart => apart.symm),pairwise_map]
  apply (sound.layout.linked.ring.nodup.filter _).pairwise_of_forall_ne
  intro c usedC d usedD different
  exact sound.layout.tiles.disjoint (mem_usedOf.mp usedC).1 (mem_usedOf.mp usedD).1 different

/-- Along every run whose calls do not leave the pool's own memory, the live
allocations lie inside the pool and are disjoint. -/
theorem live_inside_and_disjoint (start size : Nat) (low : 0 < start) (high : start + size < 2^32)
    (r : HeapRun) (reached : Reach (Fresh start size) (Avoiding Overruns) r) :
    r.heap.pool.start = start ∧ r.heap.pool.limit = start + size ∧
    (∀ held ∈ r.live, r.heap.pool.start ≤ held.1 ∧ held.1 + held.2 ≤ r.heap.pool.limit) ∧
    r.live.Pairwise Disjoint := by
  obtain ⟨members,sound⟩ := sound_along_runs low high reached
  have limit : r.heap.pool.limit = start + size := by
    rw [sound.layout.limit_pool,sound.begins,sound.sized]
  refine ⟨sound.begins,limit,?_,sound.disjoint⟩
  intro held live
  rw [sound.begins,limit]
  exact sound.inside live

theorem live_inside_after_five_calls : ∃ r,
    calls ServesStale WrapsBoundary 4
      [.allocate 4,.allocate 3,.free 106,.allocate 2,.allocate 1] small = some r ∧
    r.live = [(107,1),(108,2),(103,3)] ∧ r.live.Pairwise Disjoint := by
  have run : (calls ServesStale WrapsBoundary 4
      [.allocate 4,.allocate 3,.free 106,.allocate 2,.allocate 1] small).map HeapRun.live =
      some [(107,1),(108,2),(103,3)] := rfl
  obtain ⟨r,done,live⟩ := Option.map_eq_some_iff.mp run
  have reached := calls_reach done (Reach.start small_fresh)
  exact ⟨r,done,live,(live_inside_and_disjoint 100 10 (by decide) (by decide) r reached).2.2.2⟩

/-- A pool of ten bytes at 100. In one run the first cluster is merged into the last
and five bytes are handed out at 108; in another the cursor is left on a returned
node and two live allocations share the bytes from 106 to 109. -/
theorem live_outside_and_overlapping :
    (∃ r, Reach (Fresh 100 10) (Avoiding (Meets Never Never)) r ∧
      r.heap.pool.limit = 110 ∧ (108,5) ∈ r.live) ∧
    ∃ r, Reach (Fresh 100 10) (Avoiding (Meets Never Never)) r ∧ ¬r.live.Pairwise Disjoint := by
  have wrap : (calls Never Never 4
      [.allocate 4,.allocate 3,.allocate 3,.free 106,.free 100,.allocate 5] small).map (fun r =>
        (r.heap.pool.limit,r.live)) = some (110,[(108,5),(103,3)]) := rfl
  have stale : (calls Never Never 4
      [.allocate 4,.allocate 6,.free 106,.free 100,.allocate 4,.allocate 6] small).map HeapRun.live =
      some [(104,6),(106,4)] := rfl
  obtain ⟨r,first,facts⟩ := Option.map_eq_some_iff.mp wrap
  obtain ⟨limit,live⟩ := Prod.mk.inj facts
  obtain ⟨t,second,shared⟩ := Option.map_eq_some_iff.mp stale
  refine ⟨⟨r,calls_reach first (Reach.start small_fresh),limit,?_⟩,
    t,calls_reach second (Reach.start small_fresh),?_⟩
  · rw [live]
    simp
  · rw [shared]
    decide

end HeapRun

end RudimentaryKernel
