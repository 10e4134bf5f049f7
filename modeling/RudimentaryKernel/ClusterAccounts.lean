import RudimentaryKernel.ClusterRings

/-! The byte accounts of the heap under calls with any address. The sizes of the clusters in the
ring add up to the size of the pool and `bytes_used` to those of the used ones, in every run in
which no `free` finds a free cluster and none leaves the cursor on a node that it returns. -/
namespace RudimentaryKernel.Heap

open Function List

variable {h t : Heap} {members rest : List Nat} {c reqSize : Nat}

def usedBytes (h : Heap) (members : List Nat) : Nat := ((h.usedOf members).map h.size).sum

theorem usedBytes_le (h : Heap) (members : List Nat) : h.usedBytes members ≤ (members.map h.size).sum :=
  h.usedOf_sizes_le members

theorem usedBytes_perm (same : members ~ rest) : h.usedBytes members = h.usedBytes rest :=
  ((same.filter _).map _).sum_eq

theorem usedBytes_cons (h : Heap) (c : Nat) (rest : List Nat) :
    h.usedBytes (c :: rest) = (if h.type c = .used then h.size c else 0) + h.usedBytes rest := by
  by_cases used : h.type c = .used <;> simp [usedBytes,usedOf,used]

theorem usedBytes_congr (type : ∀ d ∈ members, t.type d = h.type d)
    (size : ∀ d ∈ members, h.type d = .used → t.size d = h.size d) : t.usedBytes members = h.usedBytes members := by
  unfold usedBytes
  rw [usedOf_congr type,map_congr_left]
  intro d member
  obtain ⟨inside,used⟩ := mem_usedOf.mp member
  exact size d inside used

theorem Conserves.usedBytes {result : List Nat} (conserves : Conserves h t members result)
    (nodup : members.Nodup) : t.usedBytes result = h.usedBytes members := by
  have same : t.usedOf result ~ h.usedOf members := by
    refine (perm_ext_iff_of_nodup (conserves.linked.ring.nodup.filter _) (nodup.filter _)).mpr (fun d => ?_)
    change d ∈ t.usedOf result ↔ d ∈ h.usedOf members
    rw [mem_usedOf,mem_usedOf,conserves.quiet.type]
    exact ⟨fun ⟨member,used⟩ => ⟨conserves.part member,used⟩,fun ⟨member,used⟩ => ⟨conserves.used d member used,used⟩⟩
  unfold Heap.usedBytes
  rw [(same.map t.size).sum_eq,map_congr_left]
  intro d member
  exact conserves.quiet.size d (mem_usedOf.mp member).2

/-- The ring accounts for every byte of the pool, and `bytes_used` for those in use. -/
structure Accounted (h : Heap) (members : List Nat) : Prop where
  linked : h.WellLinked members
  cursor : h.pool.cursor ∈ members
  total : (members.map h.size).sum = h.pool.size
  small : h.pool.size < 2^32
  charged : h.pool.bytesUsed = h.usedBytes members

theorem Accounted.rotated (accounted : h.Accounted members) (same : members ~r rest) : h.Accounted rest where
  linked := accounted.linked.rotated same
  cursor := same.mem_iff.mp accounted.cursor
  total := (same.perm.map h.size).sum_eq ▸ accounted.total
  small := accounted.small
  charged := accounted.charged.trans (usedBytes_perm same.perm)

theorem Accounted.congr (accounted : h.Accounted members) (next : t.next = h.next) (prev : t.prev = h.prev)
    (nodes : t.nodes = h.nodes) (size : t.size = h.size) (type : t.type = h.type) (cursor : t.pool.cursor = h.pool.cursor)
    (sized : t.pool.size = h.pool.size) (bytes : t.pool.bytesUsed = h.pool.bytesUsed) : t.Accounted members where
  linked := accounted.linked.congr next prev nodes
  cursor := by rw [cursor]; exact accounted.cursor
  total := by rw [size,sized]; exact accounted.total
  small := by rw [sized]; exact accounted.small
  charged := by
    rw [bytes,accounted.charged]
    exact (usedBytes_congr (fun _ _ => by rw [type]) (fun _ _ _ => by rw [size])).symm

theorem create_accounted (memory : Heap) (start size : Nat) (fits : memory.nodes.Fits) (spare : memory.nodes.Spare)
    (small : size < 2^32) : ∃ members, (memory.createClusterPool start size).Accounted members := by
  obtain ⟨first,linked,pool,_,long,free⟩ := create_linked memory start size fits spare
  refine ⟨[first],linked,?_,?_,?_,?_⟩
  · rw [pool]
    exact mem_singleton.mpr rfl
  · rw [pool]
    simpa using long
  · rw [pool]
    exact small
  · rw [pool,usedBytes_cons,free]
    rfl

/-- The size is within what the pool has left, so the sum of the test in `allocate` does not wrap. -/
theorem Accounted.room (accounted : h.Accounted (c :: rest)) (free : h.type c = .free) :
    h.pool.bytesUsed + h.size c ≤ h.pool.size := by
  have total := accounted.total
  have part := h.usedBytes_le rest
  rw [accounted.charged,usedBytes_cons,free,if_neg (by decide)]
  rw [map_cons,sum_cons] at total
  omega

theorem takeFrom_accounted (accounted : h.Accounted (c :: rest)) (spare : h.nodes.Spare) (free : h.type c = .free)
    (fits : reqSize ≤ h.size c) : ∃ result, (h.takeFrom c reqSize).1.Accounted result := by
  have room := accounted.room free
  have small := accounted.small
  have total := accounted.total
  have charged := accounted.charged
  rw [usedBytes_cons,free,if_neg (by decide),Nat.zero_add] at charged
  rw [map_cons,sum_cons] at total
  have sum : add32 h.pool.bytesUsed reqSize = h.pool.bytesUsed + reqSize := add32_eq (by omega)
  have nodup := accounted.linked.ring.nodup
  have outside : ∀ d ∈ rest, d ≠ c := fun d member same => (nodup_cons.mp nodup).1 (same ▸ member)
  by_cases exact' : h.size c = reqSize
  · refine ⟨c :: rest,?_⟩
    simp only [takeFrom,exact',↓reduceIte]
    refine ⟨accounted.linked.congr rfl rfl rfl,mem_cons_self,accounted.total,small,?_⟩
    rw [usedBytes_cons]
    simp only [update_self,↓reduceIte]
    rw [sum,charged,exact',Nat.add_comm]
    congr 1
    symm
    apply usedBytes_congr
    · exact fun d member => update_of_ne (outside d member) ..
    · exact fun _ _ _ => rfl
  · let raised : Heap := { h with pool := { h.pool with bytesUsed := add32 h.pool.bytesUsed reqSize } }
    have linked : raised.WellLinked (c :: rest) := accounted.linked.congr rfl rfl rfl
    obtain ⟨new,fresh,split,_,after⟩ := splituse_linked linked spare reqSize
    have outcome : (h.takeFrom c reqSize).1 = { (raised.splituse c reqSize).1 with
        pool := { (raised.splituse c reqSize).1.pool with cursor := c } } := by
      simp [takeFrom,exact',raised]
    have left : sub32 (h.size c) reqSize = h.size c - reqSize := sub32_eq (by omega) fits
    have notNew : ∀ d ∈ c :: rest, d ≠ new := fun d member same => fresh (same ▸ member)
    have sizes : ∀ d ∈ rest, (raised.splituse c reqSize).1.size d = h.size d := by
      intro d member
      rw [split.size,update_of_ne (notNew d (mem_cons_of_mem _ member)),update_of_ne (outside d member)]
    have types : ∀ d ∈ rest, (raised.splituse c reqSize).1.type d = h.type d := by
      intro d member
      rw [split.type,update_of_ne (notNew d (mem_cons_of_mem _ member))]
    have sizeC : (raised.splituse c reqSize).1.size c = h.size c - reqSize := by
      rw [split.size,update_of_ne (notNew c mem_cons_self),update_self]
      exact left
    have sizeNew : (raised.splituse c reqSize).1.size new = reqSize := by rw [split.size,update_self]
    have typeC : (raised.splituse c reqSize).1.type c = .free := by
      rw [split.type,update_of_ne (notNew c mem_cons_self)]
      exact free
    have typeNew : (raised.splituse c reqSize).1.type new = .used := by rw [split.type,update_self]
    rw [outcome]
    refine ⟨c :: new :: rest,after.congr rfl rfl rfl,mem_cons_self,?_,?_,?_⟩
    · change ((c :: new :: rest).map (raised.splituse c reqSize).1.size).sum = (raised.splituse c reqSize).1.pool.size
      rw [map_cons,map_cons,sum_cons,sum_cons,map_congr_left sizes,sizeC,sizeNew,split.pool]
      change _ = h.pool.size
      omega
    · change (raised.splituse c reqSize).1.pool.size < 2^32
      rw [split.pool]
      exact small
    · change (raised.splituse c reqSize).1.pool.bytesUsed = (raised.splituse c reqSize).1.usedBytes (c :: new :: rest)
      rw [usedBytes_cons,usedBytes_cons,typeC,typeNew,sizeNew,if_neg (by decide),if_pos rfl,split.pool,
        usedBytes_congr types (fun d member _ => sizes d member)]
      change add32 h.pool.bytesUsed reqSize = _
      omega

theorem giveBack_accounted (accounted : h.Accounted (c :: rest)) (used : h.type c = .used) (keep : ¬h.DropsCursor c) :
    ∃ result, (h.giveBack c).Accounted result := by
  have total := accounted.total
  have small := accounted.small
  have charged := accounted.charged
  have part := h.usedBytes_le rest
  rw [usedBytes_cons,if_pos used] at charged
  obtain ⟨result,conserves,cursor⟩ := giveBack_conserves accounted.linked used (by rw [total]; exact small)
  have inside := cursor.resolve_right keep
  have outside : ∀ d ∈ rest, d ≠ c := by
    intro d member same
    exact (nodup_cons.mp accounted.linked.ring.nodup).1 (same ▸ member)
  have bytes : sub32 h.pool.bytesUsed (h.size c) = h.usedBytes rest := by
    rw [map_cons,sum_cons] at total
    rw [charged,sub32_eq (by omega) (by omega)]
    omega
  have before : (h.released c).usedBytes (c :: rest) = h.usedBytes rest := by
    rw [usedBytes_cons,if_neg (by simp [released]),Nat.zero_add]
    exact usedBytes_congr (fun d member => released_type_other (outside d member)) (fun _ _ _ => rfl)
  refine ⟨result,conserves.linked,?_,?_,?_,?_⟩
  · rw [conserves.quiet.pool]
    exact inside
  · rw [conserves.total,conserves.quiet.pool]
    exact total
  · rw [conserves.quiet.pool]
    exact small
  · rw [conserves.usedBytes accounted.linked.ring.nodup,before,conserves.quiet.pool]
    exact bytes

theorem fitting_iff : h.fitting reqSize c = true ↔ h.type c = .free ∧ reqSize ≤ h.size c := by
  cases type : h.type c <;> simp [fitting,type]

/-- A call by any caller: it asks for at least one byte while node entries are to spare, or it
frees an address, whether that is one it got or not. -/
def call (fuel : Nat) (h : Heap) : HeapCall → Option Heap
  | .allocate reqSize =>
    if 1 ≤ reqSize ∧ reqSize < 2^32 ∧ h.nodes.Spare then (h.allocate fuel reqSize).map Prod.fst else none
  | .free address => if address < 2^32 then h.free fuel address else none

def Step (h : Heap) (c : HeapCall) (t : Heap) : Prop := ∃ fuel, h.call fuel c = some t

/-- A `free` of the cluster subtracts bytes that are not in use, or it drops the cursor. -/
def Unbalances (h : Heap) (c : Nat) : Prop := (h.type c = .free ∧ 0 < h.size c) ∨ h.DropsCursor c

instance (h : Heap) (c : Nat) : Decidable (h.Unbalances c) := inferInstanceAs (Decidable (_ ∨ _))

/-- The call is a `free`, and the cluster that its search stops at is one it unbalances the heap with. -/
def Spoils (h : Heap) (c : HeapCall) : Prop := HeapRun.Meets HeapRun.Never Unbalances ⟨h,[]⟩ c

theorem call_allocate {fuel : Nat} (done : h.call fuel (.allocate reqSize) = some t) :
    h.nodes.Spare ∧ ∃ rt, h.allocate fuel reqSize = some (t,rt) := by
  rw [call] at done
  split at done
  · rename_i allowed
    obtain ⟨⟨t,rt⟩,outcome,rfl⟩ := Option.map_eq_some_iff.mp done
    exact ⟨allowed.2.2,rt,outcome⟩
  · contradiction

theorem call_free {fuel address : Nat} (done : h.call fuel (.free address) = some t) :
    h.free fuel address = some t := by
  rw [call] at done
  split at done
  · exact done
  · contradiction

theorem Accounted.locked (accounted : h.Accounted members) : h.acquire.Accounted members :=
  accounted.congr rfl rfl rfl rfl rfl rfl rfl rfl

theorem allocate_accounted (accounted : h.Accounted members) {fuel : Nat}
    (done : h.call fuel (.allocate reqSize) = some t) : ∃ result, t.Accounted result := by
  obtain ⟨spare,rt,outcome⟩ := call_allocate done
  rcases allocate_cases outcome with ⟨_,_,rfl⟩ | ⟨_,_,_,rfl⟩ | ⟨_,test,found,rfl,_⟩
  · exact ⟨members,accounted.congr rfl rfl rfl rfl rfl rfl rfl rfl⟩
  · exact ⟨members,accounted.congr rfl rfl rfl rfl rfl rfl rfl rfl⟩
  · obtain ⟨rest,turn⟩ := Ring.exists_rotation (findFit_member accounted.linked accounted.cursor found)
    have facts := fitting_iff.mp (Ring.search_found found)
    obtain ⟨result,after⟩ := takeFrom_accounted (accounted.rotated turn).locked spare facts.1 facts.2
    exact ⟨result,after.congr rfl rfl rfl rfl rfl rfl rfl rfl⟩

theorem giveBack_free_accounted (accounted : h.Accounted (c :: rest)) (free : h.type c = .free) :
    (∃ result, (h.giveBack c).Accounted result) ↔ h.size c = 0 := by
  have room := accounted.room free
  have small := accounted.small
  have behind : h.prev c ∈ c :: rest := accounted.linked.ring.prev_mem mem_cons_self
  rw [giveBack_free free]
  constructor
  · rintro ⟨result,after⟩
    have same : (c :: rest) ~ result := accounted.linked.ring.perm_of_shared after.linked.ring behind after.cursor
    have bytes : sub32 h.pool.bytesUsed (h.size c) = h.usedBytes result := after.charged
    rw [← usedBytes_perm same,← accounted.charged] at bytes
    unfold sub32 at bytes
    omega
  · intro empty
    refine ⟨c :: rest,accounted.linked.congr rfl rfl rfl,behind,accounted.total,small,?_⟩
    change sub32 h.pool.bytesUsed (h.size c) = h.usedBytes (c :: rest)
    rw [empty,sub32_eq (by omega) (by omega),accounted.charged,Nat.sub_zero]

/-- The account stays right over a call exactly when the call does not spoil it. -/
theorem step_accounted_iff (accounted : h.Accounted members) {c : HeapCall} (step : h.Step c t) :
    (∃ result, t.Accounted result) ↔ ¬h.Spoils c := by
  obtain ⟨fuel,done⟩ := step
  cases c with
  | allocate reqSize => exact iff_of_true (allocate_accounted accounted done) (by simp [Spoils,HeapRun.Meets,HeapRun.Never])
  | free address =>
    rcases free_cases (call_free done) with ⟨missing,rfl⟩ | ⟨candidate,found,rfl⟩
    · refine iff_of_true ⟨members,accounted.congr rfl rfl rfl rfl rfl rfl rfl rfl⟩ ?_
      rw [Spoils,HeapRun.meets_free missing]
      simp
    · obtain ⟨rest,turn⟩ := Ring.exists_rotation (findStart_member accounted.linked accounted.cursor found)
      have held := (accounted.rotated turn).locked
      have spoils : h.Spoils (.free address) ↔ h.acquire.Unbalances candidate := by
        rw [Spoils,HeapRun.meets_free found]
        simp [Unbalances,acquire,DropsCursor,limit,ClusterPool.limit]
      have unlock : (∃ result, (h.acquire.giveBack candidate).release.Accounted result) ↔
          ∃ result, (h.acquire.giveBack candidate).Accounted result := by
        constructor <;> rintro ⟨result,after⟩ <;> exact ⟨result,after.congr rfl rfl rfl rfl rfl rfl rfl rfl⟩
      rw [unlock,spoils]
      cases type : h.acquire.type candidate with
      | free =>
        rw [giveBack_free_accounted held type]
        simp [Unbalances,DropsCursor,type]
      | used =>
        constructor
        · rintro ⟨result,after⟩ (⟨free,_⟩ | drop)
          · rw [type] at free
            contradiction
          · exact giveBack_drops_cursor held.linked drop (after.linked.entry _ after.cursor)
        · exact fun keep => giveBack_accounted held type (fun drop => keep (.inr drop))

def SameClusters (h t : Heap) : Prop :=
  t.start = h.start ∧ t.size = h.size ∧ t.next = h.next ∧ t.prev = h.prev ∧ t.type = h.type ∧
    t.nodes = h.nodes ∧ t.pool.start = h.pool.start ∧ t.pool.size = h.pool.size ∧ t.pool.bytesUsed = h.pool.bytesUsed

/-- An address that no used cluster starts at is refused without any effect on the clusters. -/
theorem free_unknown (accounted : h.Accounted members) {address : Nat}
    (unknown : ∀ c ∈ members, h.type c = .used → h.start c ≠ address) (clean : ¬h.Spoils (.free address))
    (step : h.Step (.free address) t) : h.SameClusters t := by
  obtain ⟨fuel,done⟩ := step
  rcases free_cases (call_free done) with ⟨missing,rfl⟩ | ⟨candidate,found,rfl⟩
  · exact ⟨rfl,rfl,rfl,rfl,rfl,rfl,rfl,rfl,rfl⟩
  · have member := findStart_member accounted.linked accounted.cursor found
    have hit : h.start candidate = address := by simpa using Ring.search_found found
    have free : h.type candidate = .free := by
      cases type : h.type candidate with
      | free => rfl
      | used => exact absurd hit (unknown candidate member type)
    have empty : h.size candidate = 0 := by
      by_contra some
      refine clean ?_
      rw [Spoils,HeapRun.meets_free found]
      exact ⟨candidate,rfl,.inl ⟨free,Nat.pos_of_ne_zero some⟩⟩
    obtain ⟨rest,turn⟩ := Ring.exists_rotation member
    have room := (accounted.rotated turn).room free
    have small := accounted.small
    have locked : h.acquire.type candidate = .free := free
    rw [giveBack_free locked]
    refine ⟨rfl,rfl,rfl,rfl,rfl,rfl,rfl,rfl,?_⟩
    change sub32 h.pool.bytesUsed (h.size candidate) = h.pool.bytesUsed
    rw [empty,sub32_eq (by omega) (by omega),Nat.sub_zero]

def Balancing (h t : Heap) : Prop := ∃ c, h.Step c t ∧ ¬h.Spoils c

/-- In every run of calls that subtract no free cluster and do not drop the cursor the account is
exact, every call returns, and freeing an address that starts no used cluster changes nothing.
Those are the calls after which the account is still right. -/
theorem accounts_exact (start size : Nat) (small : size < 2^32) (h : Heap)
    (reached : Reach (fun first => HeapRun.Fresh start size ⟨first,[]⟩) Balancing h) :
    (∃ members, h.Accounted members ∧ h.usedBytes members ≤ h.pool.size ∧
      (∀ reqSize, (h.allocate members.length reqSize).isSome) ∧
      (∀ address, (h.free members.length address).isSome) ∧
      ∀ address t, (∀ c ∈ members, h.type c = .used → h.start c ≠ address) → ¬h.Spoils (.free address) →
        h.Step (.free address) t → h.SameClusters t) ∧
    ∀ c t, h.Step c t → ((∃ result, t.Accounted result) ↔ ¬h.Spoils c) := by
  have kept : ∃ members, h.Accounted members := by
    refine reached.invariant (fun h => ∃ members, h.Accounted members) ?_ ?_
    · rintro h ⟨memory,spare,fits,same⟩
      obtain rfl : h = memory.createClusterPool start size := congrArg HeapRun.heap same
      exact create_accounted memory start size fits spare small
    · rintro h t ⟨members,accounted⟩ ⟨c,step,clean⟩
      exact (step_accounted_iff accounted step).mpr clean
  obtain ⟨members,accounted⟩ := kept
  refine ⟨⟨members,accounted,?_,?_⟩,fun c t step => step_accounted_iff accounted step⟩
  · rw [← accounted.total]
    exact h.usedBytes_le members
  · obtain ⟨allocates,frees⟩ := calls_return accounted.linked accounted.cursor le_rfl
    exact ⟨allocates,frees,fun address t unknown clean step => free_unknown accounted unknown clean step⟩

section Executable

variable {asking freeing : Heap → Nat → Prop} [∀ h n, Decidable (asking h n)] [∀ h n, Decidable (freeing h n)]

variable (asking freeing) in
def calls (fuel : Nat) : List HeapCall → Heap → Option Heap
  | [], h => some h
  | c :: rest, h =>
    if HeapRun.meets asking freeing fuel ⟨h,[]⟩ c then none else (h.call fuel c).bind (calls fuel rest)

theorem calls_reach {initial : Heap → Prop} {fuel : Nat} {cs : List HeapCall}
    (done : calls asking freeing fuel cs h = some t)
    (reached : Reach initial (fun h t => ∃ c, h.Step c t ∧ ¬HeapRun.Meets asking freeing ⟨h,[]⟩ c) h) :
    Reach initial (fun h t => ∃ c, h.Step c t ∧ ¬HeapRun.Meets asking freeing ⟨h,[]⟩ c) t := by
  induction cs generalizing h with
  | nil => cases done; exact reached
  | cons c rest ih =>
    rw [calls] at done
    split at done
    · contradiction
    · rename_i clean
      obtain ⟨middle,first,later⟩ := Option.bind_eq_some_iff.mp done
      refine ih later (reached.advance ⟨c,⟨fuel,first⟩,HeapRun.meets_covers ?_ (by simpa using clean)⟩)
      rintro address rfl
      exact ⟨_,call_free first⟩

end Executable

/-- Two allocations, the free of one of them and of an address inside the other one. -/
theorem accounts_after_four_calls : ∃ h,
    calls HeapRun.Never Unbalances 4 [.allocate 4,.allocate 3,.free 106,.free 104] HeapRun.small.heap = some h ∧
    h.pool.bytesUsed = 3 ∧ ∃ members, h.Accounted members := by
  have run : (calls HeapRun.Never Unbalances 4 [.allocate 4,.allocate 3,.free 106,.free 104]
      HeapRun.small.heap).map (fun h => h.pool.bytesUsed) = some 3 := rfl
  obtain ⟨h,done,bytes⟩ := Option.map_eq_some_iff.mp run
  obtain ⟨⟨members,accounted,_⟩,_⟩ :=
    accounts_exact 100 10 (by decide) h (calls_reach done (Reach.start HeapRun.small_fresh))
  exact ⟨h,done,bytes,members,accounted⟩

/-- In a pool of ten bytes, four bytes are allocated and their address is freed twice. Then no
cluster is in use, and `bytes_used` has wrapped below zero. -/
theorem double_free_wraps_account : ∃ h,
    Reach (fun first => HeapRun.Fresh 100 10 ⟨first,[]⟩)
      (fun h t => ∃ c, h.Step c t ∧ ¬HeapRun.Meets HeapRun.Never HeapRun.Never ⟨h,[]⟩ c) h ∧
    Ring.IsRing h.next h.prev [4096,4120] ∧ h.usedBytes [4096,4120] = 0 ∧
    h.pool.bytesUsed = 2^32 - 4 ∧ h.pool.size = 10 := by
  have run : (calls HeapRun.Never HeapRun.Never 4 [.allocate 4,.free 106,.free 106] HeapRun.small.heap).map (fun h =>
      (h.next 4096,h.next 4120,h.prev 4096,h.prev 4120,h.usedBytes [4096,4120],h.pool.bytesUsed,h.pool.size)) =
      some (4120,4096,4120,4096,0,2^32 - 4,10) := rfl
  obtain ⟨h,done,facts⟩ := Option.map_eq_some_iff.mp run
  simp only [Prod.mk.injEq] at facts
  obtain ⟨nextFirst,nextSecond,prevFirst,prevSecond,used,bytes,size⟩ := facts
  refine ⟨h,calls_reach done (Reach.start HeapRun.small_fresh),?_,used,bytes,size⟩
  rw [Ring.isRing_cons]
  simp [Ring.Linked,nextFirst,nextSecond,prevFirst,prevSecond]

end RudimentaryKernel.Heap
