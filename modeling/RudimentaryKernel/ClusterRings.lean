import RudimentaryKernel.ClusterRuns

/-! What merging conserves of the ring, wherever its clusters lie. A node that is absorbed is
unlinked and its entry returned, the sizes add up as before, and used clusters stay as they
are. Nothing here depends on the tiling of the pool, so the merge across the boundary is
covered as well. -/
namespace RudimentaryKernel.Heap

open Function List

variable {h t u : Heap} {members result rest : List Nat} {this hold c : Nat}

/-- The entries of the node pool that are marked are those of the linked nodes. -/
def Marked (nodes : Pool) (members : List Nat) : Prop :=
  ∀ id, id < nodes.maxEntries → (nodes.used id = true ↔ nodes.idToAddress id ∈ members)

theorem Marked.perm {nodes : Pool} (marked : Marked nodes members) (same : members ~ rest) : Marked nodes rest :=
  fun id inside => (marked id inside).trans same.mem_iff

/-- From the ring `members` of `h` to the ring `result` of `t` by absorbing free clusters. -/
structure Conserves (h t : Heap) (members result : List Nat) : Prop where
  linked : t.WellLinked result
  quiet : Quiet h t
  total : (result.map t.size).sum = (members.map h.size).sum
  marked : Marked h.nodes members → Marked t.nodes result
  part : result ⊆ members
  used : ∀ d ∈ members, h.type d = .used → d ∈ result

theorem Conserves.refl (linked : h.WellLinked members) : Conserves h h members members :=
  ⟨linked,Quiet.refl h,rfl,id,Subset.refl _,fun _ member _ => member⟩

theorem Conserves.trans {middle : List Nat} (one : Conserves h t members middle)
    (two : Conserves t u middle result) : Conserves h u members result where
  linked := two.linked
  quiet := one.quiet.trans two.quiet
  total := two.total.trans one.total
  marked := two.marked ∘ one.marked
  part := List.Subset.trans two.part one.part
  used := by
    intro d member used
    exact two.used d (one.used d member used) (by rwa [one.quiet.type])

theorem Conserves.perm (conserves : Conserves h t members result) (same : members ~ rest) :
    Conserves h t rest result where
  linked := conserves.linked
  quiet := conserves.quiet
  total := conserves.total.trans (same.map _).sum_eq
  marked := fun marked => conserves.marked (marked.perm same.symm)
  part := fun _ member => same.subset (conserves.part member)
  used := fun d member => conserves.used d (same.symm.subset member)

theorem marked_free {nodes : Pool} (fits : nodes.Fits) (inUse : nodes.InUse hold) (apart : hold ∉ this :: rest)
    (marked : Marked nodes (this :: hold :: rest)) : Marked (nodes.free (nodes.addressToId hold)) (this :: rest) := by
  obtain ⟨j,below,rfl,_⟩ := inUse
  intro id inside
  rw [nodes.address_eq fits j below]
  have before := marked id inside
  change bitmapGet _ id = true ↔ nodes.idToAddress id ∈ this :: rest
  by_cases same : id = j
  · subst id
    simpa [Pool.free] using apart
  · have other : nodes.idToAddress id ≠ nodes.idToAddress j :=
      fun equal => same (nodes.idToAddress_injective fits inside below equal)
    rw [Pool.used] at before
    simp only [mem_cons,other,false_or] at before
    simpa [Pool.free,Ne.symm same] using before

theorem coalesce_conserves (linked : h.WellLinked (this :: hold :: rest)) (free : h.type this = .free)
    (absorbs : h.type hold = .free) (fits : ((this :: hold :: rest).map h.size).sum < 2^32) :
    Conserves h (h.coalesceNext this) (this :: hold :: rest) (this :: rest) := by
  obtain ⟨absorbed,after⟩ := coalesce_linked linked
  have nodup := linked.ring.nodup
  simp only [nodup_cons,mem_cons,not_or] at nodup
  have forward : h.next this = hold := linked.ring.next_second.1
  refine ⟨after,absorbed.quiet free,?_,?_,?_,?_⟩
  · have others : ∀ d ∈ rest, update h.size this (add32 (h.size this) (h.size hold)) d = h.size d := by
      intro d member
      have other : d ≠ this := fun same => nodup.1.2 (same ▸ member)
      exact update_of_ne other ..
    simp only [map_cons,sum_cons] at fits ⊢
    rw [absorbed.size,map_congr_left others,update_self,add32_eq (by omega)]
    omega
  · intro marked
    have nodes : (h.coalesceNext this).nodes = h.nodes.free (h.nodes.addressToId hold) := by
      have other : hold ≠ this := Ne.symm nodup.1.1
      simp [coalesceNext,absorb,forward,other]
    rw [nodes]
    refine marked_free linked.fits (linked.entry hold (by simp)) ?_ marked
    simp only [mem_cons,not_or]
    exact ⟨Ne.symm nodup.1.1,nodup.2.1⟩
  · intro d member
    rcases mem_cons.mp member with rfl | later
    · exact mem_cons_self
    · exact mem_cons_of_mem _ (mem_cons_of_mem _ later)
  · intro d member used
    have other : d ≠ hold := by
      rintro rfl
      rw [absorbs] at used
      contradiction
    simp only [mem_cons] at member ⊢
    tauto

theorem mergeNext_conserves (linked : h.WellLinked (c :: rest)) (free : h.type c = .free)
    (fits : ((c :: rest).map h.size).sum < 2^32) :
    ∃ after, Conserves h (h.mergeNext c) (c :: rest) (c :: after) ∧
      (after = rest ∨ ∃ d, rest = d :: after ∧ h.type d = .free ∧ h.limit c ≠ h.pool.limit) := by
  rw [mergeNext]
  split
  · rename_i open'
    cases rest with
    | nil =>
      rw [coalesceNext,if_pos (Ring.IsRing.single_iff.mp linked.ring).1]
      exact ⟨[],.refl linked,.inl rfl⟩
    | cons d rest =>
      rw [linked.ring.next_second.1] at open'
      exact ⟨rest,coalesce_conserves linked free open'.1 fits,.inr ⟨d,rfl,open'⟩⟩
  · exact ⟨rest,.refl linked,.inl rfl⟩

theorem mergePrev_conserves (linked : h.WellLinked (c :: rest)) (free : h.type c = .free)
    (fits : ((c :: rest).map h.size).sum < 2^32) :
    ∃ result, Conserves h (h.mergePrev c) (c :: rest) result ∧ h.prev c ∈ result := by
  rw [mergePrev]
  split
  · rename_i open'
    rcases eq_nil_or_concat rest with rfl | ⟨front,z,rfl⟩
    · have alone := Ring.IsRing.single_iff.mp linked.ring
      exact absurd (alone.1.trans alone.2.symm) open'.2
    · rw [concat_eq_append] at linked fits ⊢
      have turn : (c :: (front ++ [z])) ~r (z :: c :: front) := by
        simpa using Ring.rotated_split (c :: front) [] z
      have back : h.prev c = z := linked.ring.prev_last.1
      rw [back] at open' ⊢
      rw [(turn.perm.map h.size).sum_eq] at fits
      exact ⟨_,(coalesce_conserves (linked.rotated turn) open'.1 free fits).perm turn.perm.symm,mem_cons_self⟩
  · exact ⟨c :: rest,.refl linked,linked.ring.prev_mem mem_cons_self⟩

/-- `ClusterPool::free` of a used cluster, behind its change of type. The cursor stays in the ring
unless it is dropped. -/
theorem giveBack_conserves (linked : h.WellLinked (c :: rest)) (used : h.type c = .used)
    (fits : ((c :: rest).map h.size).sum < 2^32) :
    ∃ result, Conserves (h.released c) (h.giveBack c) (c :: rest) result ∧
      (h.prev c ∈ result ∨ h.DropsCursor c) := by
  rw [giveBack_used used]
  have start : (h.released c).WellLinked (c :: rest) := released_linked linked
  have free : (h.released c).type c = .free := by simp [released]
  obtain ⟨after,forward,shape⟩ := mergeNext_conserves start free fits
  have still : ((h.released c).mergeNext c).type c = .free := by rw [forward.quiet.type,free]
  obtain ⟨result,backward,last⟩ := mergePrev_conserves forward.linked still (by rw [forward.total]; exact fits)
  refine ⟨result,forward.trans backward,?_⟩
  rcases shape with rfl | ⟨d,rfl,absorbed,inner⟩
  · -- nothing was absorbed, so the predecessor is the old one
    left
    rcases eq_nil_or_concat after with rfl | ⟨front,z,rfl⟩
    · rw [(Ring.IsRing.single_iff.mp linked.ring).2]
      rwa [(Ring.IsRing.single_iff.mp forward.linked.ring).2] at last
    · rw [concat_eq_append] at linked forward
      rw [linked.ring.prev_last.1]
      rwa [forward.linked.ring.prev_last.1] at last
  · rcases eq_nil_or_concat after with rfl | ⟨front,z,rfl⟩
    · have spelled : h.WellLinked (c :: ([] ++ [d])) := linked
      have onward : h.next c = d := linked.ring.next_second.1
      have other : d ≠ c := by
        rintro rfl
        simpa using linked.ring.nodup
      refine .inr ⟨used,onward.trans spelled.ring.prev_last.1.symm,by rwa [onward],?_,inner⟩
      rw [onward,← released_type_other other]
      exact absorbed
    · rw [concat_eq_append] at linked forward
      rw [← List.cons_append] at linked
      rw [linked.ring.prev_last.1]
      rw [forward.linked.ring.prev_last.1] at last
      exact .inl last

end RudimentaryKernel.Heap
