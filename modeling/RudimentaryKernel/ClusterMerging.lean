import RudimentaryKernel.ClusterRuns

/-! Full coalescing: no two clusters adjacent in memory are both free, as long as no
call misses the backward merge in a ring of two. -/
namespace RudimentaryKernel

open Function List Tiling

namespace Heap

variable {h t : Heap} {members result pre post after : List Nat} {a b c taken reqSize : Nat}

/-- Freeing `c` leaves its free predecessor in memory unmerged, because the ring has
only these two clusters when the backward merge is tried. -/
def MissesMerge (h : Heap) (c : Nat) : Prop :=
  h.start c ≠ h.pool.start ∧ h.type (h.prev c) = .free ∧ h.nextAfterMerge c = h.prev c

instance (h : Heap) (c : Nat) : Decidable (h.MissesMerge c) := inferInstanceAs (Decidable (_ ∧ _))

def WrapsOrMisses (h : Heap) (c : Nat) : Prop := h.WrapsBoundary c ∨ h.MissesMerge c

instance (h : Heap) (c : Nat) : Decidable (h.WrapsOrMisses c) := inferInstanceAs (Decidable (_ ∨ _))

/-- Of two neighbours in address order at least one is used. -/
def Coalesced (type : Nat → ClusterType) (members : List Nat) : Prop :=
  members.IsChain (fun a b => type a = .used ∨ type b = .used)

theorem Coalesced.congr {type type' : Nat → ClusterType} (coalesced : Coalesced type members)
    (same : ∀ d ∈ members, type' d = type d) : Coalesced type' members := by
  apply coalesced.imp_of_mem_imp
  intro x y hx hy apart
  rwa [same x hx,same y hy]

theorem coalesced_append {type : Nat → ClusterType} : Coalesced type (pre ++ post) ↔
    Coalesced type pre ∧ Coalesced type post ∧
      ∀ a ∈ pre.getLast?, ∀ b ∈ post.head?, type a = .used ∨ type b = .used := isChain_append

theorem coalesced_cons {type : Nat → ClusterType} : Coalesced type (c :: post) ↔
    (∀ b ∈ post.head?, type c = .used ∨ type b = .used) ∧ Coalesced type post := isChain_cons

theorem coalesced_around {type : Nat → ClusterType} (used : type c = .used) :
    Coalesced type (pre ++ c :: post) ↔ Coalesced type pre ∧ Coalesced type post := by
  simp [coalesced_append,coalesced_cons,used]

theorem coalesced_around_free {type : Nat → ClusterType} (free : type c = .free) :
    Coalesced type (pre ++ c :: post) ↔ Coalesced type pre ∧ Coalesced type post ∧
      (∀ a ∈ pre.getLast?, type a = .used) ∧ ∀ b ∈ post.head?, type b = .used := by
  simp only [coalesced_append,coalesced_cons,free,reduceCtorEq,false_or,head?_cons,
    Option.mem_some_iff,forall_eq',or_false]
  tauto

theorem coalesced_update {type : Nat → ClusterType} {kind : ClusterType} (absent : c ∉ members)
    (coalesced : Coalesced type members) : Coalesced (update type c kind) members := by
  apply coalesced.congr
  intro d member
  have other : d ≠ c := fun same => absent (same ▸ member)
  rw [update_of_ne other]

theorem TakenShape.coalesced (shape : TakenShape h t pre c post reqSize taken result)
    (free : h.type c = .free) (nodup : (pre ++ c :: post).Nodup)
    (coalesced : Coalesced h.type (pre ++ c :: post)) : Coalesced t.type result := by
  have outside : c ∉ pre ∧ c ∉ post := by
    have turned := (Ring.rotated_split pre post c).nodup_iff.mp nodup
    simp only [nodup_cons,mem_append,not_or] at turned
    exact ⟨turned.1.2,turned.1.1⟩
  rcases shape with ⟨rfl,rfl,_,_,_,type⟩ | ⟨rfl,fresh,_,_,_,type⟩
  · obtain ⟨before,behind,_⟩ := (coalesced_around_free free).mp coalesced
    rw [type,coalesced_around (by simp)]
    exact ⟨coalesced_update outside.1 before,coalesced_update outside.2 behind⟩
  · have spelled : pre ++ c :: post = (pre ++ [c]) ++ post := by simp
    rw [spelled] at fresh coalesced
    obtain ⟨before,behind,_⟩ := coalesced_append.mp coalesced
    simp only [mem_append,not_or] at fresh
    have result : pre ++ c :: taken :: post = (pre ++ [c]) ++ taken :: post := by simp
    rw [result,type,coalesced_around (by simp)]
    exact ⟨coalesced_update (by simpa using fresh.1) before,coalesced_update fresh.2 behind⟩

theorem Forward.coalesced {type : Nat → ClusterType} (forward : Forward type post after)
    (coalesced : Coalesced type post) :
    Coalesced type after ∧ ∀ b ∈ after.head?, type b = .used := by
  rcases forward with ⟨rfl,first⟩ | ⟨d,free,rfl⟩
  · exact ⟨coalesced,first⟩
  · obtain ⟨next,rest⟩ := coalesced_cons.mp coalesced
    refine ⟨rest,?_⟩
    intro b head
    exact (next b head).resolve_left (by simp [free])

/-- The missed merge: only one cluster is before the freed one, it is free, and nothing
stays behind. -/
theorem misses_of_pair {e : Nat} (layout : h.Layout ([e] ++ c :: post)) (sized : 0 < h.pool.size)
    (forward : Forward h.type post []) (free : h.type e = .free) : h.MissesMerge c := by
  have turned := layout.turned
  have back : h.prev c = e := turned.ring.prev_last.1
  refine ⟨?_,by rw [back]; exact free,?_⟩
  · rw [ne_eq,layout.start_iff_first sized]
    simp
  rw [back]
  rcases forward with ⟨none,_⟩ | ⟨d,freeD,shape⟩
  · have last := (layout.limit_iff_last sized).mpr none.symm
    rw [nextAfterMerge,if_neg (by simp [last])]
    rw [← none] at turned
    exact turned.ring.next_second.1
  · rw [shape] at turned
    have onward : h.next c = d := turned.ring.next_second.1
    have inner : h.limit c ≠ h.pool.limit := by
      rw [ne_eq,layout.limit_iff_last sized,shape]
      simp
    rw [nextAfterMerge,if_pos ⟨by rw [onward]; exact freeD,inner⟩,onward]
    have cycle : Ring.IsRing h.next h.prev (d :: [e,c]) :=
      turned.ring.rotated ⟨1,rfl⟩
    exact cycle.next_second.1

theorem FreedShape.coalesced (shape : FreedShape h pre c after result)
    (forward : Forward h.type post after) (layout : h.Layout (pre ++ c :: post))
    (sized : 0 < h.pool.size) (used : h.type c = .used) (merges : ¬h.MissesMerge c)
    (coalesced : Coalesced h.type (pre ++ c :: post)) :
    Coalesced (update h.type c .free) result := by
  obtain ⟨before,behind⟩ := (coalesced_around used).mp coalesced
  obtain ⟨rest,first⟩ := forward.coalesced behind
  have outside := layout.not_mem
  have gone : c ∉ after := by
    rcases forward with ⟨rfl,_⟩ | ⟨d,_,rfl⟩
    · exact outside.2
    · exact fun member => outside.2 (mem_cons_of_mem _ member)
  have apart : ∀ l : List Nat, c ∉ l → ∀ a ∈ l, update h.type c .free a = h.type a := by
    intro l absent a member
    have other : a ≠ c := fun same => absent (same ▸ member)
    rw [update_of_ne other]
  rcases shape with ⟨rfl,last⟩ | ⟨front,e,rfl,free,rfl⟩
  · rw [coalesced_around_free (by simp)]
    refine ⟨coalesced_update outside.1 before,coalesced_update gone rest,?_,?_⟩
    · intro e member
      rw [apart pre outside.1 e (mem_of_getLast? member)]
      rcases last e member with held | ⟨alone,none⟩
      · exact held
      subst alone
      subst none
      cases type : h.type e with
      | used => rfl
      | free => exact absurd (misses_of_pair layout sized forward type) merges
    · intro b member
      rw [apart after gone b (mem_of_mem_head? member)]
      exact first b member
  · apply coalesced_update
    · simp only [mem_append,mem_cons] at outside ⊢
      tauto
    · rw [coalesced_around_free free] at before ⊢
      exact ⟨before.1,rest,before.2.2.1,first⟩

theorem Layout.coalesced_adjacent (layout : h.Layout members) (coalesced : Coalesced h.type members)
    (positive : ∀ c ∈ members, 0 < h.size c) (ha : a ∈ members) (hb : b ∈ members)
    (adjacent : h.limit a = h.start b) : h.type a = .used ∨ h.type b = .used := by
  rw [layout.limit_eq ha] at adjacent
  obtain ⟨pre,post,rfl⟩ := append_of_mem ha
  obtain ⟨mid,before,here,behind⟩ := tiles_append.mp layout.tiles
  have sizeA := positive a ha
  have sizeB := positive b hb
  simp only [mem_append,mem_cons] at hb
  rcases hb with earlier | rfl | later
  · have bounds := before.inside earlier
    omega
  · omega
  · cases post with
    | nil => contradiction
    | cons x rest =>
      rcases mem_cons.mp later with rfl | far
      · rw [coalesced_append] at coalesced
        exact (coalesced_cons.mp coalesced.2.1).1 b (by simp)
      · have bounds := behind.2.inside far
        have sizeX := positive x (by simp)
        omega

end Heap

namespace HeapRun

open Heap

variable {r t : HeapRun} {members : List Nat} {start size : Nat}

/-- The call leaves the pool's own memory or misses a merge. -/
def Splinters : HeapRun → HeapCall → Prop := Meets ServesStale WrapsOrMisses

theorem splinters_of_overruns {c : HeapCall} (overruns : r.Overruns c) : r.Splinters c := by
  cases c with
  | allocate reqSize => exact overruns
  | free address =>
    obtain ⟨fuel,candidate,found,wraps⟩ := overruns
    exact ⟨fuel,candidate,found,.inl wraps⟩

theorem step_coalesced (sound : Sound start size r members)
    (coalesced : Coalesced r.heap.type members) {c : HeapCall} (step : r.Step c t)
    (merges : ¬r.Splinters c) :
    ∃ result, Sound start size t result ∧ Coalesced t.heap.type result := by
  obtain ⟨result,after,change⟩ := step_sound sound step (fun overruns => merges (splinters_of_overruns overruns))
  refine ⟨result,after,?_⟩
  cases change with
  | none same type => rwa [same,type]
  | took pre c post reqSize taken shape free taken =>
    subst shape
    exact taken.coalesced free sound.layout.linked.ring.nodup coalesced
  | freed address fuel pre c post after called found shape used forward freed type =>
    subst shape
    subst called
    have nonempty : 0 < r.heap.pool.size := by
      have inside := sound.layout.tiles.inside (b := c) (by simp)
      have filled := sound.filled c (by simp [usedOf,used])
      omega
    rw [type]
    exact freed.coalesced forward sound.layout nonempty used
      (fun misses => merges ⟨fuel,c,found,.inr misses⟩) coalesced

theorem coalesced_along_runs (low : 0 < start) (high : start + size < 2^32)
    (reached : Reach (Fresh start size) (Avoiding Splinters) r) :
    ∃ members, Sound start size r members ∧ Coalesced r.heap.type members := by
  refine reached.invariant
    (fun r => ∃ members, Sound start size r members ∧ Coalesced r.heap.type members) ?_ ?_
  · intro r fresh
    obtain ⟨members,sound,first,rfl,_⟩ := fresh_sound low high fresh
    exact ⟨[first],sound,by simp [Coalesced]⟩
  · rintro r t ⟨members,sound,coalesced⟩ ⟨c,step,merges⟩
    exact step_coalesced sound coalesced step merges

/-- Without a used cluster a coalesced pool is a single free cluster. -/
theorem Sound.alone (sound : Sound start size r members) (coalesced : Coalesced r.heap.type members)
    (unused : r.heap.usedOf members = []) : ∃ whole, members = [whole] ∧ r.heap.type whole = .free := by
  have free : ∀ c ∈ members, r.heap.type c = .free := by
    intro c member
    cases type : r.heap.type c with
    | free => rfl
    | used =>
      have used : c ∈ r.heap.usedOf members := mem_usedOf.mpr ⟨member,type⟩
      simp [unused] at used
  cases members with
  | nil => exact absurd rfl sound.layout.linked.ring.nonempty
  | cons whole rest =>
    cases rest with
    | nil => exact ⟨whole,rfl,free whole (by simp)⟩
    | cons b rest =>
      have apart := (coalesced_cons.mp coalesced).1 b (by simp)
      simp [free] at apart

theorem Sound.adjacent (sound : Sound start size r members)
    (coalesced : Coalesced r.heap.type members) {a b : Nat} (ha : a ∈ members) (hb : b ∈ members)
    (different : a ≠ b) (adjacent : r.heap.limit a = r.heap.start b) :
    r.heap.type a = .used ∨ r.heap.type b = .used := by
  by_cases empty : r.heap.pool.size = 0
  · have unused : r.heap.usedOf members = [] := by
      rw [eq_nil_iff_forall_not_mem]
      intro c used
      have filled := sound.filled c used
      have inside := sound.layout.tiles.inside (mem_usedOf.mp used).1
      omega
    obtain ⟨whole,rfl,_⟩ := sound.alone coalesced unused
    exact absurd ((mem_singleton.mp ha).trans (mem_singleton.mp hb).symm) different
  · apply sound.layout.coalesced_adjacent coalesced ?_ ha hb adjacent
    intro c member
    exact (sound.layout.sized c member).resolve_right empty

theorem Sound.onward (sound : Sound start size r members) :
    r.heap.next r.heap.pool.cursor ∈ members := by
  rcases sound.cursor with cursor | ⟨whole,rfl,_,_,onward,_⟩
  · exact sound.layout.linked.ring.next_mem cursor
  · simp [onward]

theorem Sound.allocates_whole {whole : Nat} (sound : Sound start size r [whole])
    (free : r.heap.type whole = .free) (unused : r.heap.pool.bytesUsed = 0) :
    ∃ h, r.heap.allocate 2 r.heap.pool.size = some (h,r.heap.pool.start) := by
  obtain ⟨begins,covers⟩ := sound.layout.tiles
  have exact' : r.heap.size whole = r.heap.pool.size := by
    have total : r.heap.pool.start + r.heap.size whole = r.heap.pool.start + r.heap.pool.size := covers
    omega
  have fits : r.heap.fitting r.heap.pool.size whole = true := by
    simp [fitting,free,exact']
  have found : r.heap.findFit r.heap.pool.size 2 = some (some whole) := by
    rcases sound.cursor with cursor | ⟨other,same,_,away,onward,_,small⟩
    · rw [mem_singleton] at cursor
      simp [findFit,cursor,Ring.search,fits]
    · obtain rfl : whole = other := by simpa using same
      have miss : r.heap.fitting r.heap.pool.size r.heap.pool.cursor = false := by
        simp [fitting,small]
      simp [findFit,Ring.search,miss,onward,fits,Ne.symm away]
  have high := sound.layout.high
  have enough : ¬r.heap.acquire.pool.size < add32 r.heap.acquire.pool.bytesUsed r.heap.pool.size := by
    change ¬r.heap.pool.size < add32 r.heap.pool.bytesUsed r.heap.pool.size
    rw [unused,add32_eq (by omega)]
    omega
  have search : r.heap.acquire.findFit r.heap.pool.size 2 = some (some whole) := found
  have taken : (r.heap.acquire.takeFrom whole r.heap.pool.size).2 = r.heap.pool.start := by
    have equal : r.heap.acquire.size whole = r.heap.pool.size := exact'
    simp only [takeFrom,equal,↓reduceIte]
    exact begins
  simp only [allocate,if_neg enough,search,taken]
  exact ⟨_,rfl⟩

/-- Along every run whose calls keep inside the pool and miss no merge, no two clusters
adjacent in memory are both free; with nothing allocated the pool is one free cluster,
and it can be allocated as a whole. -/
theorem free_clusters_coalesced (start size : Nat) (low : 0 < start) (high : start + size < 2^32)
    (r : HeapRun) (reached : Reach (Fresh start size) (Avoiding Splinters) r) :
    ∃ members, Ring.IsRing r.heap.next r.heap.prev members ∧
      r.heap.next r.heap.pool.cursor ∈ members ∧
      (∀ a ∈ members, ∀ b ∈ members, a ≠ b → r.heap.limit a = r.heap.start b →
        r.heap.type a = .used ∨ r.heap.type b = .used) ∧
      (r.live = [] → (∃ whole, members = [whole] ∧ r.heap.type whole = .free) ∧
        ∃ h, r.heap.allocate 2 r.heap.pool.size = some (h,start)) := by
  obtain ⟨members,sound,coalesced⟩ := coalesced_along_runs low high reached
  refine ⟨members,sound.layout.linked.ring,sound.onward,?_,?_⟩
  · intro a ha b hb different adjacent
    exact sound.adjacent coalesced ha hb different adjacent
  · intro none
    have unused : r.heap.usedOf members = [] := by
      have held := sound.held
      rw [none] at held
      simpa using held
    obtain ⟨whole,rfl,free⟩ := sound.alone coalesced unused
    have charged := sound.charged
    rw [unused] at charged
    rw [← sound.begins]
    exact ⟨⟨whole,rfl,free⟩,sound.allocates_whole free charged⟩

/-- Two allocations that fill the pool, freed from the top, leave it whole again. -/
theorem pool_whole_after_two_frees : ∃ r,
    calls ServesStale WrapsOrMisses 4 [.allocate 4,.allocate 6,.free 106,.free 100] small = some r ∧
    ∃ h, r.heap.allocate 2 10 = some (h,100) := by
  have run : (calls ServesStale WrapsOrMisses 4
      [.allocate 4,.allocate 6,.free 106,.free 100] small).map (fun r => (r.live,r.heap.pool.size)) =
      some ([],10) := rfl
  obtain ⟨r,done,facts⟩ := Option.map_eq_some_iff.mp run
  obtain ⟨live,sized⟩ := Prod.mk.inj facts
  have reached := calls_reach done (Reach.start small_fresh)
  obtain ⟨members,_,_,_,whole⟩ := free_clusters_coalesced 100 10 (by decide) (by decide) r reached
  rw [← sized]
  exact ⟨r,done,(whole live).2⟩

/-- A pool of ten bytes at 100: one allocation of four bytes, freed again, leaves two
free clusters side by side, and the whole pool can no longer be allocated. -/
theorem free_clusters_left_apart : ∃ r, Reach (Fresh 100 10) (Avoiding (Meets Never Never)) r ∧
    r.live = [] ∧ ∃ a b, Ring.IsRing r.heap.next r.heap.prev [a,b] ∧
      r.heap.limit a = r.heap.start b ∧ r.heap.type a = .free ∧ r.heap.type b = .free ∧
      (r.heap.allocate 4 10).map Prod.snd = some 0 := by
  have run : (calls Never Never 4 [.allocate 4,.free 106] small).map (fun r =>
      (r.live,r.heap.next 4096,r.heap.next 4120,r.heap.prev 4096,r.heap.prev 4120,
        r.heap.limit 4096,r.heap.start 4120,r.heap.type 4096,r.heap.type 4120,
        (r.heap.allocate 4 10).map Prod.snd)) =
      some ([],4120,4096,4120,4096,106,106,.free,.free,some 0) := rfl
  obtain ⟨r,done,facts⟩ := Option.map_eq_some_iff.mp run
  simp only [Prod.mk.injEq] at facts
  obtain ⟨live,nextA,nextB,prevA,prevB,limit,start,freeA,freeB,refused⟩ := facts
  refine ⟨r,calls_reach done (Reach.start small_fresh),live,4096,4120,?_,
    limit.trans start.symm,freeA,freeB,refused⟩
  rw [Ring.isRing_cons]
  simp [Ring.Linked,nextA,nextB,prevA,prevB]

end HeapRun

end RudimentaryKernel
