import RudimentaryKernel.ClusterAccounts

/-! What the two calls of the heap do to a well-formed pool. `allocate` finds a place exactly when
there is one and carves it from the end of a free cluster. `free` keeps one ring that accounts
for every byte and every node entry, also where it merges across the boundary of the pool. -/
namespace RudimentaryKernel.Heap

open Function List Tiling

/-- The clusters, in address order, fill the pool and are its ring; the cursor and `bytes_used`
agree with them, and nobody holds the lock. -/
structure WellFormed (h : Heap) (members : List Nat) : Prop where
  layout : h.Layout members
  filled : ∀ c ∈ members, 0 < h.size c
  cursor : h.pool.cursor ∈ members
  charged : h.pool.bytesUsed = h.usedBytes members
  unlocked : h.pool.lock = .unlocked

variable {h t : Heap} {members pre post result : List Nat} {c taken reqSize rt : Nat}

theorem WellFormed.accounted (formed : h.WellFormed members) : h.Accounted members where
  linked := formed.layout.linked
  cursor := formed.cursor
  total := by
    have total := formed.layout.tiles.total
    omega
  small := by
    have high := formed.layout.high
    omega
  charged := formed.charged

/-- `reqSize` bytes are taken from the end of the free cluster `c` and are the used cluster `taken`. -/
structure Served (h t : Heap) (members result : List Nat) (c taken reqSize rt : Nat) : Prop where
  member : c ∈ members
  free : h.type c = .free
  ending : rt + reqSize = h.start c + h.size c
  fits : reqSize ≤ h.size c
  present : taken ∈ result
  used : t.type taken = .used
  start : t.start taken = rt
  size : t.size taken = reqSize
  rest : (taken = c ∧ h.size c = reqSize) ∨ (taken ∉ members ∧ c ∈ result ∧ reqSize < h.size c ∧
    t.start c = h.start c ∧ t.size c = h.size c - reqSize ∧ t.type c = .free)
  others : ∀ d ∈ members, d ≠ c → d ∈ result ∧ d ≠ taken ∧ t.start d = h.start d ∧ t.size d = h.size d ∧
    t.type d = h.type d
  only : ∀ d ∈ result, d ∈ members ∨ d = taken

theorem TakenShape.served (shape : TakenShape h t pre c post reqSize taken result) (free : h.type c = .free)
    (nodup : (pre ++ c :: post).Nodup) (starts : rt = t.start taken) :
    Served h t (pre ++ c :: post) result c taken reqSize rt := by
  rcases shape with ⟨rfl,rfl,fit,start,size,type⟩ | ⟨rfl,fresh,less,start,size,type⟩
  · refine ⟨by simp,free,?_,by omega,by simp,by simp [type],starts.symm,by rw [size,fit],.inl ⟨rfl,fit⟩,?_,?_⟩
    · rw [starts,start,fit]
    · intro d member other
      exact ⟨member,other,by rw [start],by rw [size],by rw [type,update_of_ne other]⟩
    · exact fun d member => .inl member
  · have apart : c ≠ taken := fun same => fresh (by simp [same])
    refine ⟨by simp,free,?_,by omega,by simp,by simp [type],starts.symm,by simp [size],.inr ?_,?_,?_⟩
    · rw [starts,start,update_self]
      omega
    · refine ⟨fresh,by simp,less,by rw [start,update_of_ne apart],?_,by rw [type,update_of_ne apart,free]⟩
      rw [size,update_of_ne apart,update_self]
    · intro d member other
      have notNew : d ≠ taken := fun same => fresh (same ▸ member)
      refine ⟨?_,notNew,by rw [start,update_of_ne notNew],?_,by rw [type,update_of_ne notNew]⟩
      · simp only [mem_append,mem_cons] at member ⊢
        tauto
      · rw [size,update_of_ne notNew,update_of_ne other]
    · intro d member
      simp only [mem_append,mem_cons] at member ⊢
      tauto

theorem Served.filled (served : Served h t members result c taken reqSize rt) (asked : 0 < reqSize)
    (filled : ∀ d ∈ members, 0 < h.size d) : ∀ d ∈ result, 0 < t.size d := by
  intro d member
  by_cases new : d = taken
  · rw [new,served.size]
    exact asked
  · have old := (served.only d member).resolve_right new
    by_cases same : d = c
    · subst d
      rcases served.rest with ⟨equal,_⟩ | ⟨_,_,less,_,size,_⟩
      · exact absurd equal.symm new
      · omega
    · rw [(served.others d old same).2.2.2.1]
      exact filled d old

theorem takeFrom_served (formed : h.WellFormed members) (spare : h.nodes.Spare) (asked : 0 < reqSize)
    (member : c ∈ members) (free : h.type c = .free) (fits : reqSize ≤ h.size c) :
    ∃ taken result, Served h (h.takeFrom c reqSize).1 members result c taken reqSize (h.takeFrom c reqSize).2 ∧
      (h.takeFrom c reqSize).1.WellFormed result := by
  obtain ⟨rest,turn⟩ := Ring.exists_rotation member
  obtain ⟨ring,after⟩ := takeFrom_accounted (formed.accounted.rotated turn) spare free fits
  obtain ⟨pre,post,rfl⟩ := append_of_mem member
  obtain ⟨taken,result,shape,layout,starts,pool⟩ := takeFrom_layout formed.layout spare asked fits
  have served := shape.served free formed.layout.linked.ring.nodup starts
  have cursor : (h.takeFrom c reqSize).1.pool.cursor ∈ result := by
    rw [pool]
    rcases shape with ⟨rfl,_⟩ | ⟨rfl,_⟩ <;> simp
  have same : ring ~ result := after.linked.ring.perm_of_shared layout.linked.ring after.cursor cursor
  refine ⟨taken,result,served,layout,served.filled asked formed.filled,cursor,?_,?_⟩
  · rw [after.charged,usedBytes_perm same]
  · rw [pool]
    exact formed.unlocked

theorem WellFormed.unlock (formed : h.WellFormed members) : h.acquire.release = h := by
  obtain ⟨start,size,next,prev,type,nodes,⟨cursor,begins,long,bytes,lock⟩,console⟩ := h
  obtain rfl : lock = .unlocked := formed.unlocked
  rfl

/-- Taking a cluster does not look at the lock of the pool. -/
theorem takeFrom_acquire (h : Heap) (c reqSize : Nat) :
    h.acquire.takeFrom c reqSize = ((h.takeFrom c reqSize).1.acquire,(h.takeFrom c reqSize).2) := by
  by_cases fit : h.size c = reqSize
  · simp only [takeFrom,acquire,fit,↓reduceIte]
  · simp only [takeFrom,acquire,fit,↓reduceIte]
    rfl

/-- `ClusterPool::allocate` on a well-formed pool returns. It fails exactly when no free cluster is
large enough, and then it only prints; otherwise it serves the request from one. -/
theorem allocate_precise (h : Heap) (members : List Nat) (formed : h.WellFormed members) (spare : h.nodes.Spare)
    (reqSize : Nat) (asked : 1 ≤ reqSize) (fuel : Nat) (enough : members.length ≤ fuel) :
    ∃ t rt, h.allocate fuel reqSize = some (t,rt) ∧ t.pool.lock = .unlocked ∧
      (rt ≠ 0 ↔ ∃ c ∈ members, h.type c = .free ∧ reqSize ≤ h.size c) ∧
      (rt = 0 → ∃ line, t = h.kprintf line []) ∧
      (rt ≠ 0 → ∃ c taken result, Served h t members result c taken reqSize rt ∧ t.WellFormed result) := by
  have returns := (calls_return formed.layout.linked formed.cursor enough).1 reqSize
  obtain ⟨⟨t,rt⟩,outcome⟩ := Option.isSome_iff_exists.mp returns
  obtain ⟨rest,turn⟩ := Ring.exists_rotation formed.cursor
  have length : rest.length < fuel := by
    rw [turn.perm.length_eq] at enough
    exact enough
  have search := findFit_eq (formed.layout.linked.rotated turn) reqSize length
  refine ⟨t,rt,outcome,?_⟩
  rcases allocate_cases outcome with ⟨excess,rfl,same⟩ | ⟨_,missing,rfl,same⟩ | ⟨_,test,found,same,address⟩
  · -- the sum exceeds the size of the pool, so it does with every free cluster
    have none' : ¬∃ c ∈ members, h.type c = .free ∧ reqSize ≤ h.size c := by
      rintro ⟨c,member,free,fits⟩
      obtain ⟨others,turned⟩ := Ring.exists_rotation member
      have room := (formed.accounted.rotated turned).room free
      have high := formed.layout.high
      rw [add32_eq (by omega)] at excess
      omega
    refine ⟨by rw [same]; rfl,iff_of_false (by simp) none',fun _ => ?_,fun impossible => absurd rfl impossible⟩
    exact ⟨_,same.trans (congrArg (fun h => kprintf h _ []) formed.unlock)⟩
  · have none' : ¬∃ c ∈ members, h.type c = .free ∧ reqSize ≤ h.size c := by
      rintro ⟨c,member,facts⟩
      rw [missing,Option.some.injEq,eq_comm,find?_eq_none] at search
      exact search c (turn.mem_iff.mp member) (fitting_iff.mpr facts)
    refine ⟨by rw [same]; rfl,iff_of_false (by simp) none',fun _ => ?_,fun impossible => absurd rfl impossible⟩
    exact ⟨_,same.trans (congrArg (fun h => kprintf h _ []) formed.unlock)⟩
  · have member := findFit_member formed.layout.linked formed.cursor found
    obtain ⟨free,fits⟩ := fitting_iff.mp (Ring.search_found found)
    obtain ⟨taken,result,served,after⟩ := takeFrom_served formed spare asked member free fits
    rw [takeFrom_acquire,after.unlock] at same
    rw [takeFrom_acquire] at address
    rw [← same,← address] at served
    rw [← same] at after
    have nonzero : rt ≠ 0 := by
      have inside := after.layout.tiles.inside served.present
      have low := after.layout.low
      rw [served.start] at inside
      omega
    refine ⟨after.unlocked,iff_of_true nonzero ⟨test,member,free,fits⟩,fun zero => absurd zero nonzero,fun _ => ?_⟩
    exact ⟨test,taken,result,served,after⟩

theorem small_formed : HeapRun.small.heap.WellFormed [4096] := by
  refine ⟨⟨?_,?_,by decide,by decide,by decide⟩,by decide,by decide,rfl,rfl⟩
  · exact ⟨Ring.IsRing.single_iff.mpr ⟨rfl,rfl⟩,by decide +kernel,⟨by decide,by decide,by decide⟩⟩
  · exact ⟨rfl,rfl⟩

/-- Four of the ten bytes of a new pool are its last four. -/
theorem allocate_precise_small : ∃ t rt, HeapRun.small.heap.allocate 1 4 = some (t,rt) ∧ rt = 106 ∧
    ∃ c taken result, Served HeapRun.small.heap t [4096] result c taken 4 rt ∧ t.WellFormed result := by
  obtain ⟨t,rt,outcome,_,_,_,served⟩ := allocate_precise HeapRun.small.heap [4096] small_formed
    (by decide +kernel) 4 (by decide) 1 (by decide)
  have address : (HeapRun.small.heap.allocate 1 4).map Prod.snd = some 106 := rfl
  rw [outcome] at address
  obtain rfl : rt = 106 := Option.some.inj address
  exact ⟨t,106,outcome,rfl,served (by decide)⟩

/-- What a `free` keeps: one ring whose sizes fill the pool, whose nodes are the marked entries and
in which the used clusters are as they were, but for those that start at the address. -/
structure Kept (h t : Heap) (members result : List Nat) (address : Nat) : Prop where
  linked : t.WellLinked result
  reached : ∀ c ∈ result, ∀ d, (∃ n, t.next^[n] c = d) ↔ d ∈ result
  total : (result.map t.size).sum = t.pool.size
  sized : t.pool.size = h.pool.size
  marked : Marked t.nodes result
  part : result ⊆ members
  used : ∀ d ∈ members, h.type d = .used → h.start d ≠ address →
    d ∈ result ∧ t.start d = h.start d ∧ t.size d = h.size d ∧ t.type d = .used

/-- `ClusterPool::free` on a well-formed pool returns and keeps the ring, whatever the address; an
address that no cluster starts at is only reported. -/
theorem free_keeps_ring (h : Heap) (members : List Nat) (formed : h.WellFormed members)
    (marked : Marked h.nodes members) (address fuel : Nat) (enough : members.length ≤ fuel) :
    ∃ t result, h.free fuel address = some t ∧ Kept h t members result address ∧
      ((∀ c ∈ members, h.start c ≠ address) → t = h.kprintf "ERROR: FREE NOT FOUND %x\n" [address]) := by
  have returns := (calls_return formed.layout.linked formed.cursor enough).2 address
  obtain ⟨t,outcome⟩ := Option.isSome_iff_exists.mp returns
  have accounted := formed.accounted
  rcases free_cases outcome with ⟨_,same⟩ | ⟨c,found,same⟩
  · rw [formed.unlock] at same
    subst same
    have linked : (h.kprintf "ERROR: FREE NOT FOUND %x\n" [address]).WellLinked members :=
      accounted.linked.congr rfl rfl rfl
    refine ⟨_,members,outcome,?_,fun _ => rfl⟩
    exact ⟨linked,fun _ member _ => linked.ring.reaches_iff member,accounted.total,rfl,marked,Subset.refl _,
      fun d member used _ => ⟨member,rfl,rfl,used⟩⟩
  have member := findStart_member accounted.linked accounted.cursor found
  have hit : h.start c = address := by simpa using Ring.search_found found
  obtain ⟨rest,turn⟩ := Ring.exists_rotation member
  have held := (accounted.rotated turn).locked
  have listed : ∀ c' ∈ members, c' ∈ c :: rest := fun c' inside => turn.mem_iff.mp inside
  subst same
  cases type : h.acquire.type c with
  | free =>
    rw [giveBack_free type] at outcome
    have linked : (h.acquire.rewound c).release.WellLinked members := accounted.linked.congr rfl rfl rfl
    refine ⟨_,members,outcome,?_,fun missing => absurd hit (missing c member)⟩
    exact ⟨linked,fun _ member _ => linked.ring.reaches_iff member,accounted.total,rfl,marked,Subset.refl _,
      fun d inside used _ => ⟨inside,rfl,rfl,used⟩⟩
  | used =>
    obtain ⟨result,conserves,_⟩ := giveBack_conserves held.linked type (by rw [held.total]; exact held.small)
    have linked : (h.acquire.giveBack c).release.WellLinked result := conserves.linked.congr rfl rfl rfl
    refine ⟨_,result,outcome,⟨linked,fun _ member _ => linked.ring.reaches_iff member,?_,?_,?_,?_,?_⟩,
      fun missing => absurd hit (missing c member)⟩
    · change (result.map (h.acquire.giveBack c).size).sum = (h.acquire.giveBack c).pool.size
      rw [conserves.total,conserves.quiet.pool]
      exact held.total
    · change (h.acquire.giveBack c).pool.size = h.pool.size
      rw [conserves.quiet.pool]
      rfl
    · exact conserves.marked (marked.perm turn.perm)
    · exact fun d inside => turn.mem_iff.mpr (conserves.part inside)
    · intro d inside used other
      have apart : d ≠ c := fun same => other (same ▸ hit)
      have still : (h.acquire.released c).type d = .used := by
        rw [released_type_other apart]
        exact used
      refine ⟨conserves.used d (listed d inside) still,congrFun conserves.quiet.start d,conserves.quiet.size d still,?_⟩
      change (h.acquire.giveBack c).type d = .used
      rw [conserves.quiet.type]
      exact still

/-- The small pool after three requests and one `free`: the clusters at 100 and 105 are free,
those at 104 and 108 are used. -/
def fourClusters : Heap :=
  ((HeapRun.calls HeapRun.Never HeapRun.Never 4 [.allocate 2,.allocate 3,.allocate 1,.free 105] HeapRun.small).getD
    HeapRun.small).heap

theorem fourClusters_formed : fourClusters.WellFormed [4096,4168,4144,4120] := by
  have ring : Ring.IsRing fourClusters.next fourClusters.prev [4096,4168,4144,4120] := by
    refine Ring.isRing_cons.mpr ⟨by decide,?_⟩
    simp only [cons_append,nil_append,isChain_cons_cons,isChain_singleton,Ring.Linked]
    decide +kernel
  have tiles : Tiles fourClusters.start fourClusters.size fourClusters.pool.start [4096,4168,4144,4120]
      (fourClusters.pool.start + fourClusters.pool.size) := by
    simp only [tiles_cons,tiles_nil]
    decide +kernel
  have fits : fourClusters.nodes.Fits := ⟨by decide +kernel,by decide +kernel,by decide +kernel⟩
  exact ⟨⟨⟨ring,by decide +kernel,fits⟩,tiles,by decide +kernel,by decide +kernel,by decide +kernel⟩,
    by decide +kernel,by decide +kernel,by decide +kernel,by decide +kernel⟩

theorem fourClusters_marked : Marked fourClusters.nodes [4096,4168,4144,4120] := by
  unfold Marked
  decide +kernel

/-- Freeing the used cluster between two free ones makes one cluster of the three. -/
theorem free_keeps_four : ∃ t result, fourClusters.free 4 104 = some t ∧
    Kept fourClusters t [4096,4168,4144,4120] result 104 ∧
    fourClusters.start 4168 = 104 ∧ fourClusters.type 4168 = .used ∧
    t.start 4096 = 100 ∧ t.size 4096 = 8 ∧ t.type 4096 = .free ∧ t.next 4096 = 4120 ∧ t.next 4120 = 4096 := by
  obtain ⟨t,result,outcome,kept,_⟩ := free_keeps_ring fourClusters [4096,4168,4144,4120] fourClusters_formed
    fourClusters_marked 104 4 (by decide)
  have merged : (fourClusters.free 4 104).map (fun t => (t.start 4096,t.size 4096,t.type 4096,t.next 4096,t.next 4120)) =
      some (100,8,.free,4120,4096) := by decide +kernel
  rw [outcome,Option.map_some,Option.some.injEq] at merged
  simp only [Prod.mk.injEq] at merged
  exact ⟨t,result,outcome,kept,by decide +kernel,by decide +kernel,merged⟩

end RudimentaryKernel.Heap
