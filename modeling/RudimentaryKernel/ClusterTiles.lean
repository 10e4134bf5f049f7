import RudimentaryKernel.ClusterLinks
import RudimentaryKernel.Tiling

/-! Where the clusters lie. In address order the linked clusters tile the pool, so
the successor of a cluster is its neighbour in memory except at the two ends of
the pool. The shapes in which one call can leave that list are worked out here. -/
namespace RudimentaryKernel.Heap

open Function List Tiling

/-- The linked clusters in address order fill the pool exactly. Only a pool of
size zero has an empty cluster. -/
structure Layout (h : Heap) (members : List Nat) : Prop where
  linked : h.WellLinked members
  tiles : Tiles h.start h.size h.pool.start members (h.pool.start + h.pool.size)
  low : 0 < h.pool.start
  high : h.pool.start + h.pool.size < 2^32
  sized : ∀ c ∈ members, 0 < h.size c ∨ h.pool.size = 0

variable {h t : Heap} {members pre post front rest : List Nat} {a b c e : Nat}

theorem Layout.limit_pool (layout : h.Layout members) :
    h.pool.limit = h.pool.start + h.pool.size := add32_eq layout.high

theorem Layout.limit_eq (layout : h.Layout members) (member : c ∈ members) :
    h.limit c = h.start c + h.size c := by
  have inside := layout.tiles.inside member
  have high := layout.high
  exact add32_eq (by omega)

theorem Layout.limit_iff_last (layout : h.Layout (pre ++ c :: post)) (sized : 0 < h.pool.size) :
    h.limit c = h.pool.limit ↔ post = [] := by
  obtain ⟨mid,_,here,after⟩ := tiles_append.mp layout.tiles
  rw [layout.limit_eq (by simp),layout.limit_pool]
  cases post with
  | nil =>
    simp only [tiles_nil] at after
    simp [here,after]
  | cons d post =>
    have follow : h.start d = mid + h.size c := after.1
    have inside := layout.tiles.inside (b := d) (by simp)
    have positive : 0 < h.size d := (layout.sized d (by simp)).resolve_right (by omega)
    simp only [reduceCtorEq,iff_false]
    omega

theorem Layout.turned (layout : h.Layout (pre ++ c :: post)) : h.WellLinked (c :: (post ++ pre)) :=
  layout.linked.rotated (Ring.rotated_split pre post c)

theorem turn_back (linked : t.WellLinked (c :: (post ++ pre))) : t.WellLinked (pre ++ c :: post) :=
  linked.rotated (Ring.rotated_split pre post c).symm

theorem Layout.start_iff_first (layout : h.Layout (pre ++ c :: post)) (sized : 0 < h.pool.size) :
    h.start c = h.pool.start ↔ pre = [] := by
  obtain ⟨mid,before,here,_⟩ := tiles_append.mp layout.tiles
  cases pre with
  | nil =>
    simp only [tiles_nil] at before
    simp [here,before]
  | cons d pre =>
    have bound := before.2.le
    have positive : 0 < h.size d := (layout.sized d (by simp)).resolve_right (by omega)
    simp only [reduceCtorEq,iff_false]
    omega

theorem Layout.absorb (layout : h.Layout (pre ++ a :: b :: post)) (absorbed : Absorbed h t a b)
    (linked : t.WellLinked (a :: (post ++ pre))) : t.Layout (pre ++ a :: post) := by
  have nodup := layout.linked.ring.nodup
  have inside := layout.tiles.inside (b := b) (by simp)
  obtain ⟨mid,_,here,follow,_⟩ := tiles_append.mp layout.tiles
  have high := layout.high
  have grown : t.size a = h.size a + h.size b := by
    rw [absorbed.size,update_self,add32_eq (by omega)]
  have same : ∀ d, d ≠ a → t.size d = h.size d := by
    intro d other
    rw [absorbed.size,update_of_ne other]
  refine ⟨turn_back linked,?_,?_,?_,?_⟩
  · rw [absorbed.pool]
    exact layout.tiles.merge nodup grown (fun d _ => by rw [absorbed.start]) (fun d _ other => same d other)
  · rw [absorbed.pool]; exact layout.low
  · rw [absorbed.pool]; exact layout.high
  · intro d member
    rw [absorbed.pool]
    have old : d ∈ pre ++ a :: b :: post := by
      simp only [mem_append,mem_cons] at member ⊢
      tauto
    have size := layout.sized d old
    by_cases here : d = a
    · subst d
      rw [grown]
      omega
    · rw [same d here]
      exact size

/-- Nothing but the sizes of free clusters and the links has changed. -/
structure Quiet (h t : Heap) : Prop where
  start : t.start = h.start
  type : t.type = h.type
  pool : t.pool = h.pool
  size : ∀ d, h.type d = .used → t.size d = h.size d

theorem Quiet.refl (h : Heap) : Quiet h h := ⟨rfl,rfl,rfl,fun _ _ => rfl⟩

theorem Absorbed.quiet (absorbed : Absorbed h t a b) (free : h.type a = .free) : Quiet h t := by
  refine ⟨absorbed.start,absorbed.type,absorbed.pool,?_⟩
  intro d used
  have other : d ≠ a := by
    intro same
    rw [same,free] at used
    contradiction
  rw [absorbed.size,update_of_ne other]

theorem Quiet.trans {u : Heap} (first : Quiet h t) (second : Quiet t u) : Quiet h u := by
  refine ⟨second.start.trans first.start,second.type.trans first.type,second.pool.trans first.pool,?_⟩
  intro d used
  rw [second.size d (by rw [first.type]; exact used),first.size d used]

/-- What the forward merge leaves behind the freed cluster. -/
def Forward (type : Nat → ClusterType) (post after : List Nat) : Prop :=
  (after = post ∧ ∀ d ∈ post.head?, type d = .used) ∨ ∃ d, type d = .free ∧ post = d :: after

theorem mergeNext_layout (layout : h.Layout (pre ++ c :: post)) (sized : 0 < h.pool.size)
    (free : h.type c = .free) :
    ∃ after, Forward h.type post after ∧ (h.mergeNext c).Layout (pre ++ c :: after) ∧
      Quiet h (h.mergeNext c) ∧ (post = after → h.mergeNext c = h) ∧
      (∀ d, post = d :: after → Absorbed h (h.mergeNext c) c d) := by
  cases post with
  | nil =>
    have boundary := (layout.limit_iff_last sized).mpr rfl
    rw [mergeNext_skips (.inr (.inr boundary))]
    exact ⟨[],.inl ⟨rfl,by simp⟩,layout,Quiet.refl h,fun _ => rfl,fun d impossible => by simp at impossible⟩
  | cons d post =>
    have forward : h.next c = d := layout.turned.ring.next_second.1
    cases type : h.type d with
    | used =>
      rw [mergeNext_skips (.inr (.inl (by rw [forward,type])))]
      refine ⟨d :: post,.inl ⟨rfl,by simpa using type⟩,layout,Quiet.refl h,fun _ => rfl,?_⟩
      intro x impossible
      simp at impossible
    | free =>
      have inner : h.limit c ≠ h.pool.limit := by
        rw [ne_eq,layout.limit_iff_last sized]
        simp
      obtain ⟨absorbed,linked⟩ := mergeNext_absorbs (by simpa using layout.turned) type inner
      refine ⟨post,.inr ⟨d,type,rfl⟩,layout.absorb absorbed linked,absorbed.quiet free,?_,?_⟩
      · intro impossible
        simp at impossible
      · intro x same
        simp only [cons.injEq,and_true] at same
        exact same ▸ absorbed

theorem mergePrev_layout (layout : h.Layout (front ++ e :: c :: post)) :
    Quiet h (h.mergePrev c) ∧
    ((h.mergePrev c = h ∧ (h.type e = .used ∨ front = [] ∧ post = [])) ∨
      (h.type e = .free ∧ (h.mergePrev c).Layout (front ++ e :: post))) := by
  have turned : h.WellLinked (c :: ((post ++ front) ++ [e])) := by
    have spelled : h.Layout ((front ++ [e]) ++ c :: post) := by simpa using layout
    simpa using spelled.turned
  have back : h.prev c = e := turned.ring.prev_last.1
  cases type : h.type e with
  | used =>
    rw [mergePrev_skips (.inl (by rw [back,type]))]
    exact ⟨Quiet.refl h,.inl ⟨rfl,.inl rfl⟩⟩
  | free =>
    by_cases short : post ++ front = []
    · rw [mergePrev_skips (.inr (turned.ring.next_eq_prev_iff.mpr (by simp [short])))]
      have both := append_eq_nil_iff.mp short
      exact ⟨Quiet.refl h,.inl ⟨rfl,.inr ⟨both.2,both.1⟩⟩⟩
    · obtain ⟨absorbed,linked⟩ := mergePrev_absorbs turned type short
      exact ⟨absorbed.quiet type,.inr ⟨rfl,layout.absorb absorbed linked⟩⟩

/-- The successor of `c` after the forward merge, read off the state before it. -/
def nextAfterMerge (h : Heap) (c : Nat) : Nat :=
  if h.type (h.next c) = .free ∧ h.limit c ≠ h.pool.limit then h.next (h.next c) else h.next c

/-- Freeing the first cluster of the pool would take the backward merge, into the
last cluster: that one is free, and it is not the only other one left. -/
def WrapsBoundary (h : Heap) (c : Nat) : Prop :=
  h.start c = h.pool.start ∧ h.type (h.prev c) = .free ∧ h.next c ≠ h.prev c ∧
    h.nextAfterMerge c ≠ h.prev c

instance (h : Heap) (c : Nat) : Decidable (h.WrapsBoundary c) := inferInstanceAs (Decidable (_ ∧ _))

/-- The whole pool is one free cluster, but the cursor is on a returned node. -/
def Stale (h : Heap) (members : List Nat) : Prop :=
  ∃ whole, members = [whole] ∧ h.type whole = .free ∧ h.pool.cursor ≠ whole ∧
    h.next h.pool.cursor = whole ∧ ¬h.nodes.InUse h.pool.cursor ∧
    h.size h.pool.cursor < h.pool.size

theorem released_layout (layout : h.Layout members) : (h.released c).Layout members :=
  ⟨released_linked layout.linked,layout.tiles,layout.low,layout.high,layout.sized⟩

theorem released_type_other (other : a ≠ c) : (h.released c).type a = h.type a := by
  simp [released,other]

theorem Layout.not_mem (layout : h.Layout (pre ++ c :: post)) : c ∉ pre ∧ c ∉ post := by
  have nodup := layout.turned.ring.nodup
  simp only [nodup_cons,mem_append,not_or] at nodup
  exact ⟨nodup.1.2,nodup.1.1⟩

/-- The shapes in which freeing the used cluster `c` leaves the address order. -/
def FreedShape (h : Heap) (pre : List Nat) (c : Nat) (after members : List Nat) : Prop :=
  (members = pre ++ c :: after ∧ ∀ e ∈ pre.getLast?, h.type e = .used ∨ pre = [e] ∧ after = []) ∨
    ∃ front e, pre = front ++ [e] ∧ h.type e = .free ∧ members = front ++ e :: after

theorem released_mergeNext (layout : h.Layout (pre ++ c :: post)) (sized : 0 < h.pool.size) :
    ∃ after, Forward h.type post after ∧ ((h.released c).mergeNext c).Layout (pre ++ c :: after) ∧
      Quiet (h.released c) ((h.released c).mergeNext c) ∧
      (post = after → (h.released c).mergeNext c = h.released c) ∧
      (∀ d, post = d :: after → Absorbed (h.released c) ((h.released c).mergeNext c) c d) := by
  have start : (h.released c).Layout (pre ++ c :: post) := released_layout layout
  have free : (h.released c).type c = .free := by simp [released]
  obtain ⟨after,forward,rest⟩ := mergeNext_layout start sized free
  refine ⟨after,?_,rest⟩
  have outside : ∀ d ∈ post, d ≠ c := fun d member same => layout.not_mem.2 (same ▸ member)
  rcases forward with ⟨same,first⟩ | ⟨d,free,shape⟩
  · refine .inl ⟨same,?_⟩
    intro d head
    rw [← released_type_other (outside d (mem_of_mem_head? head))]
    exact first d head
  · have other : d ≠ c := outside d (by rw [shape]; simp)
    exact .inr ⟨d,by rw [← released_type_other other]; exact free,shape⟩

theorem giveBack_inner (layout : h.Layout ((front ++ [e]) ++ c :: post)) (used : h.type c = .used)
    (sized : 0 < h.pool.size) : ∃ after members, Forward h.type post after ∧
      FreedShape h (front ++ [e]) c after members ∧ (h.giveBack c).Layout members ∧
      Quiet (h.released c) (h.giveBack c) ∧ (h.giveBack c).pool.cursor ∈ members := by
  have back : h.prev c = e := by
    have turned := layout.turned
    rw [← List.append_assoc] at turned
    exact turned.ring.prev_last.1
  have other : e ≠ c := by
    intro same
    have outside := layout.not_mem.1
    simp [same] at outside
  obtain ⟨after,forward,middle,quiet,_,_⟩ := released_mergeNext layout sized
  have spelled : ((h.released c).mergeNext c).Layout (front ++ e :: c :: after) := by
    simpa using middle
  obtain ⟨later,outcome⟩ := mergePrev_layout spelled
  have whole : Quiet (h.released c) (h.giveBack c) := by
    rw [giveBack_used used]
    exact quiet.trans later
  have cursor : (h.giveBack c).pool.cursor = e := by
    rw [whole.pool]
    exact back
  have typeE : ((h.released c).mergeNext c).type e = h.type e := by
    rw [quiet.type,released_type_other other]
  rw [typeE] at outcome
  rcases outcome with ⟨skipped,why⟩ | ⟨free,merged⟩
  · refine ⟨after,(front ++ [e]) ++ c :: after,forward,.inl ⟨rfl,?_⟩,?_,whole,by simp [cursor]⟩
    · intro x last
      have same : e = x := by simpa using last
      subst x
      rcases why with held | ⟨rfl,rfl⟩
      · exact .inl held
      · exact .inr ⟨rfl,rfl⟩
    · rw [giveBack_used used,skipped]
      exact middle
  · refine ⟨after,front ++ e :: after,forward,.inr ⟨front,e,rfl,free,rfl⟩,?_,whole,by simp [cursor]⟩
    rw [giveBack_used used]
    exact merged

theorem nextAfterMerge_eq (layout : h.Layout (pre ++ c :: post)) (sized : 0 < h.pool.size)
    (more : post ≠ []) : h.nextAfterMerge c = ((h.released c).mergeNext c).next c := by
  obtain ⟨after,forward,_,_,kept,absorbed⟩ := released_mergeNext layout sized
  rcases forward with ⟨same,first⟩ | ⟨d,free,shape⟩
  · obtain ⟨x,rest,shape⟩ := exists_cons_of_ne_nil more
    have onward : h.next c = x := by
      have turned := layout.turned
      rw [shape] at turned
      exact turned.ring.next_second.1
    have held : h.type x = .used := first x (by simp [shape])
    rw [kept same.symm,nextAfterMerge,if_neg (by simp [onward,held])]
    rfl
  · have onward : h.next c = d := by
      have turned := layout.turned
      rw [shape] at turned
      exact turned.ring.next_second.1
    have inner : h.limit c ≠ h.pool.limit := by
      rw [ne_eq,layout.limit_iff_last sized]
      exact more
    rw [nextAfterMerge,if_pos ⟨by rw [onward]; exact free,inner⟩,(absorbed d shape).next,update_self,onward]
    rfl

theorem mergePrev_first (layout : h.Layout (c :: post)) (sized : 0 < h.pool.size)
    (inside : ¬h.WrapsBoundary c) :
    ((h.released c).mergeNext c).mergePrev c = (h.released c).mergeNext c := by
  have first : h.Layout ([] ++ c :: post) := layout
  obtain ⟨after,forward,middle,quiet,_,_⟩ := released_mergeNext first sized
  have ring : Ring.IsRing _ _ (c :: after) := middle.linked.ring
  have part : ∃ lead, post = lead ++ after := by
    rcases forward with ⟨same,_⟩ | ⟨d,_,shape⟩
    · exact ⟨[],by simp [same]⟩
    · exact ⟨[d],by simp [shape]⟩
  obtain ⟨lead,shape⟩ := part
  rw [mergePrev,if_neg]
  rintro ⟨free,distinct⟩
  have long : ¬after.length ≤ 1 := fun short => distinct (ring.next_eq_prev_iff.mpr short)
  rcases eq_nil_or_concat after with none | ⟨front,z,last⟩
  · simp [none] at long
  rw [concat_eq_append] at last
  subst last
  have back : h.prev c = z := by
    have linked := layout.linked
    rw [shape,← List.append_assoc] at linked
    exact linked.ring.prev_last.1
  have other : z ≠ c := by
    intro same
    have outside := first.not_mem.2
    simp [shape,same] at outside
  have newBack : ((h.released c).mergeNext c).prev c = z := ring.prev_last.1
  rw [newBack] at free distinct
  rw [quiet.type,released_type_other other] at free
  refine inside ⟨(first.start_iff_first sized).mpr rfl,by rw [back]; exact free,?_,?_⟩
  · rw [ne_eq,layout.linked.ring.next_eq_prev_iff,shape,length_append]
    omega
  · rw [nextAfterMerge_eq first sized (by simp [shape]),back]
    exact distinct

theorem giveBack_first (layout : h.Layout (c :: post)) (used : h.type c = .used)
    (sized : 0 < h.pool.size) (inside : ¬h.WrapsBoundary c) :
    ∃ after, Forward h.type post after ∧ (h.giveBack c).Layout (c :: after) ∧
      Quiet (h.released c) (h.giveBack c) ∧
      ((h.giveBack c).pool.cursor ∈ c :: after ∨ (h.giveBack c).Stale (c :: after)) := by
  have first : h.Layout ([] ++ c :: post) := layout
  obtain ⟨after,forward,middle,quiet,kept,absorbed⟩ := released_mergeNext first sized
  rw [giveBack_used used,mergePrev_first layout sized inside]
  refine ⟨after,forward,middle,quiet,?_⟩
  have cursor : ((h.released c).mergeNext c).pool.cursor = h.prev c := by rw [quiet.pool]; rfl
  rw [cursor]
  have behind : h.prev c ∈ c :: post := layout.linked.ring.prev_mem mem_cons_self
  by_cases found : h.prev c ∈ c :: after
  · exact .inl found
  -- otherwise the only other cluster was the one just absorbed
  rcases forward with ⟨same,_⟩ | ⟨d,free,shape⟩
  · exact absurd (same ▸ behind) found
  have taken := absorbed d shape
  have back : h.prev c = d := by
    rw [shape] at behind
    simp only [mem_cons] at behind found
    tauto
  have onward : h.next c = d := by
    have linked := layout.linked
    rw [shape] at linked
    exact linked.ring.next_second.1
  have short : after = [] := by
    have bound := layout.linked.ring.next_eq_prev_iff.mp (onward.trans back.symm)
    rw [shape,length_cons] at bound
    exact length_eq_zero_iff.mp (by omega)
  subst short
  subst shape
  have other : d ≠ c := fun same => first.not_mem.2 (by simp [same])
  have loop : h.next d = c := by
    have spelled : h.WellLinked (c :: ([] ++ [d])) := layout.linked
    exact spelled.ring.prev_last.2
  have total := layout.tiles.total
  have positive : 0 < h.size c := (layout.sized c (by simp)).resolve_right (by omega)
  refine .inr ⟨c,rfl,?_,?_,?_,?_,?_⟩
  · rw [quiet.type]; simp [released]
  · rw [cursor,back]; exact other
  · rw [cursor,back,taken.next,update_of_ne other]; exact loop
  · rw [cursor,back]; exact taken.returned
  · rw [cursor,back,taken.size,update_of_ne other,quiet.pool]
    change h.size d < h.pool.size
    simp only [map_cons,map_nil,sum_cons,sum_nil] at total
    omega

/-- Freeing a used cluster that does not wrap keeps the pool tiled. -/
theorem giveBack_layout (layout : h.Layout (pre ++ c :: post)) (used : h.type c = .used)
    (sized : 0 < h.pool.size) (inside : ¬h.WrapsBoundary c) :
    ∃ after members, Forward h.type post after ∧ FreedShape h pre c after members ∧
      (h.giveBack c).Layout members ∧ Quiet (h.released c) (h.giveBack c) ∧
      ((h.giveBack c).pool.cursor ∈ members ∨ (h.giveBack c).Stale members) := by
  rcases eq_nil_or_concat pre with rfl | ⟨front,e,rfl⟩
  · obtain ⟨after,forward,result,quiet,cursor⟩ := giveBack_first layout used sized inside
    exact ⟨after,c :: after,forward,.inl ⟨rfl,by simp⟩,result,quiet,cursor⟩
  · rw [concat_eq_append] at layout ⊢
    obtain ⟨after,members,forward,shape,result,quiet,cursor⟩ := giveBack_inner layout used sized
    exact ⟨after,members,forward,shape,result,quiet,.inl cursor⟩

/-- The shapes in which taking `reqSize` bytes from the free cluster `c` leaves the
address order: the cluster itself, or a new one cut from its end. -/
def TakenShape (h t : Heap) (pre : List Nat) (c : Nat) (post : List Nat) (reqSize : Nat)
    (taken : Nat) (members : List Nat) : Prop :=
  (members = pre ++ c :: post ∧ taken = c ∧ h.size c = reqSize ∧ t.start = h.start ∧
    t.size = h.size ∧ t.type = update h.type c .used) ∨
  (members = pre ++ c :: taken :: post ∧ taken ∉ pre ++ c :: post ∧ reqSize < h.size c ∧
    t.start = update h.start taken (h.start c + (h.size c - reqSize)) ∧
    t.size = update (update h.size c (h.size c - reqSize)) taken reqSize ∧
    t.type = update h.type taken .used)

theorem takeFrom_layout (layout : h.Layout (pre ++ c :: post)) (spare : h.nodes.Spare)
    {reqSize : Nat} (asked : 0 < reqSize) (fits : reqSize ≤ h.size c) :
    ∃ taken members, TakenShape h (h.takeFrom c reqSize).1 pre c post reqSize taken members ∧
      (h.takeFrom c reqSize).1.Layout members ∧
      (h.takeFrom c reqSize).2 = (h.takeFrom c reqSize).1.start taken ∧
      (h.takeFrom c reqSize).1.pool =
        { h.pool with cursor := c, bytesUsed := add32 h.pool.bytesUsed reqSize } := by
  by_cases exact' : h.size c = reqSize
  · refine ⟨c,pre ++ c :: post,.inl ?_,?_,?_,?_⟩
    · simp [takeFrom,exact']
    · simp only [takeFrom,exact',↓reduceIte]
      exact ⟨layout.linked.congr rfl rfl rfl,layout.tiles,layout.low,layout.high,layout.sized⟩
    · simp [takeFrom,exact']
    · simp [takeFrom,exact']
  · have inside := layout.tiles.inside (b := c) (by simp)
    have high := layout.high
    have rest : sub32 (h.size c) reqSize = h.size c - reqSize := sub32_eq (by omega) fits
    have place : add32 (h.start c) (h.size c - reqSize) = h.start c + (h.size c - reqSize) :=
      add32_eq (by omega)
    let charged : Heap := { h with pool := { h.pool with bytesUsed := add32 h.pool.bytesUsed reqSize } }
    have turned : charged.WellLinked (c :: (post ++ pre)) := layout.turned.congr rfl rfl rfl
    obtain ⟨new,fresh,split,result,linked⟩ := splituse_linked turned spare reqSize
    have outcome : h.takeFrom c reqSize =
        ({ (charged.splituse c reqSize).1 with
          pool := { (charged.splituse c reqSize).1.pool with cursor := c } },
          (charged.splituse c reqSize).2) := by
      simp [takeFrom,exact',charged]
    have outside : new ∉ pre ++ c :: post := by
      simp only [mem_cons,mem_append] at fresh ⊢
      tauto
    have other : c ≠ new := fun same => outside (by simp [same])
    have starts : (charged.splituse c reqSize).1.start =
        update h.start new (h.start c + (h.size c - reqSize)) := by
      rw [split.start,← place,← rest]
    have sizes : (charged.splituse c reqSize).1.size =
        update (update h.size c (h.size c - reqSize)) new reqSize := by
      rw [split.size,← rest]
    have pools : (charged.splituse c reqSize).1.pool = charged.pool := split.pool
    rw [outcome]
    refine ⟨new,pre ++ c :: new :: post,.inr ⟨rfl,outside,by omega,starts,sizes,split.type⟩,?_,?_,?_⟩
    · refine ⟨?_,?_,?_,?_,?_⟩
      · have spelled : (charged.splituse c reqSize).1.WellLinked (c :: ((new :: post) ++ pre)) := linked
        exact (turn_back spelled).congr rfl rfl rfl
      · change Tiles (charged.splituse c reqSize).1.start (charged.splituse c reqSize).1.size
          (charged.splituse c reqSize).1.pool.start _
          ((charged.splituse c reqSize).1.pool.start + (charged.splituse c reqSize).1.pool.size)
        rw [pools,starts,sizes]
        apply layout.tiles.split outside layout.linked.ring.nodup
        · simp only [update_of_ne other,update_self]
          omega
        · simp [update_of_ne other]
        · intro d different
          simp [different]
        · intro d different notC
          simp [different,notC]
      · change 0 < (charged.splituse c reqSize).1.pool.start
        rw [pools]
        exact layout.low
      · change (charged.splituse c reqSize).1.pool.start + (charged.splituse c reqSize).1.pool.size < 2^32
        rw [pools]
        exact layout.high
      · intro d member
        change 0 < (charged.splituse c reqSize).1.size d ∨ (charged.splituse c reqSize).1.pool.size = 0
        rw [pools,sizes]
        by_cases isNew : d = new
        · simp [isNew,asked]
        by_cases isC : d = c
        · subst d
          simp only [update_of_ne other,update_self]
          omega
        · have old : d ∈ pre ++ c :: post := by
            simp only [mem_append,mem_cons] at member ⊢
            tauto
          simpa [isNew,isC] using layout.sized d old
    · rw [result,starts,update_self]
      change add32 (h.start c) (sub32 (h.size c) reqSize) = _
      rw [rest,place]
    · simp only [pools]
      rfl

end RudimentaryKernel.Heap
