import Mathlib.Data.List.Cycle
import Mathlib.Data.List.Rotate

/-! Circular doubly linked lists given by two link functions on an arbitrary type.
A ring is described by the list of its members in `next` order; the list may start
at any member. Splicing is stated for arbitrary updated link functions, so a
client only has to say which links its stores changed. -/
namespace RudimentaryKernel.Ring

open Function List

def Linked (next prev : α → α) (a b : α) : Prop := next a = b ∧ prev b = a

/-- `members` are the nodes of one closed doubly linked ring, in `next` order. -/
structure IsRing (next prev : α → α) (members : List α) : Prop where
  nonempty : members ≠ []
  nodup : members.Nodup
  closed : (members : Cycle α).Chain (Linked next prev)

variable {next prev next' prev' : α → α} {a b c x : α} {l rest : List α}

theorem isRing_cons : IsRing next prev (a :: rest) ↔
    (a :: rest).Nodup ∧ IsChain (Linked next prev) (a :: (rest ++ [a])) := by
  constructor
  · intro ring
    exact ⟨ring.nodup,(Cycle.chain_coe_cons _ _ _).mp ring.closed⟩
  · rintro ⟨nodup,chain⟩
    exact ⟨by simp,nodup,(Cycle.chain_coe_cons _ _ _).mpr chain⟩

theorem IsRing.rotated (ring : IsRing next prev l) (same : l ~r rest) : IsRing next prev rest := by
  refine ⟨?_,same.nodup_iff.mp ring.nodup,?_⟩
  · intro empty
    subst rest
    exact ring.nonempty (isRotated_nil_iff.mp same)
  · rw [← Cycle.coe_eq_coe.mpr same]
    exact ring.closed

theorem rotated_split (before after : List α) (a : α) :
    (before ++ a :: after) ~r (a :: (after ++ before)) := by
  have turn : (before ++ a :: after) ~r (a :: after ++ before) := isRotated_append
  simpa using turn

theorem exists_rotation (member : a ∈ l) : ∃ rest, l ~r (a :: rest) := by
  obtain ⟨before,after,rfl⟩ := append_of_mem member
  exact ⟨after ++ before,rotated_split before after a⟩

theorem IsRing.at_member (ring : IsRing next prev l) (member : a ∈ l) :
    ∃ rest, l ~r (a :: rest) ∧ IsRing next prev (a :: rest) := by
  obtain ⟨rest,same⟩ := exists_rotation member
  exact ⟨rest,same,ring.rotated same⟩

theorem IsRing.single_iff : IsRing next prev [a] ↔ next a = a ∧ prev a = a := by
  simp [isRing_cons,Linked]

theorem IsRing.next_second (ring : IsRing next prev (a :: b :: rest)) :
    next a = b ∧ prev b = a := by
  have chain := (isRing_cons.mp ring).2
  simp only [List.cons_append,isChain_cons_cons] at chain
  exact chain.1

theorem IsRing.ends_linked (ring : IsRing next prev (a :: rest)) (last : a :: rest = l ++ [c]) :
    prev a = c ∧ next c = a := by
  rw [last] at ring
  have turned := ring.rotated (isRotated_concat c l)
  cases l with
  | nil =>
    obtain ⟨rfl,_⟩ := cons.inj last
    exact (IsRing.single_iff.mp turned).symm
  | cons b l =>
    obtain ⟨rfl,_⟩ := cons.inj last
    exact turned.next_second.symm

theorem IsRing.prev_last (ring : IsRing next prev (a :: (rest ++ [c]))) :
    prev a = c ∧ next c = a := by
  have turned : (a :: (rest ++ [c])) ~r (c :: (a :: rest)) := by
    have turn := rotated_split (a :: rest) [] c
    simpa using turn
  have linked := (ring.rotated turned).next_second
  exact ⟨linked.2,linked.1⟩

theorem IsRing.next_mem (ring : IsRing next prev l) (member : a ∈ l) : next a ∈ l := by
  obtain ⟨rest,same,turned⟩ := ring.at_member member
  refine same.mem_iff.mpr ?_
  cases rest with
  | nil => simp [(IsRing.single_iff.mp turned).1]
  | cons b rest => simp [turned.next_second.1]

theorem IsRing.prev_next (ring : IsRing next prev l) (member : a ∈ l) : prev (next a) = a := by
  obtain ⟨rest,same,turned⟩ := ring.at_member member
  cases rest with
  | nil => simp [(IsRing.single_iff.mp turned).1,(IsRing.single_iff.mp turned).2]
  | cons b rest => rw [turned.next_second.1,turned.next_second.2]

theorem IsRing.reversed (ring : IsRing next prev (a :: rest)) :
    IsRing prev next (a :: rest.reverse) := by
  obtain ⟨nodup,chain⟩ := isRing_cons.mp ring
  refine isRing_cons.mpr ⟨?_,?_⟩
  · rw [nodup_cons] at nodup ⊢
    exact ⟨by simpa using nodup.1,by simpa using nodup.2⟩
  · have flipped : IsChain (fun u v => Linked next prev v u) ((a :: (rest ++ [a])).reverse) :=
      isChain_reverse.mpr chain
    have shape : (a :: (rest ++ [a])).reverse = a :: (rest.reverse ++ [a]) := by simp
    rw [shape] at flipped
    exact flipped.imp (fun _ _ linked => ⟨linked.2,linked.1⟩)

theorem IsRing.prev_mem (ring : IsRing next prev l) (member : a ∈ l) : prev a ∈ l := by
  obtain ⟨rest,same,turned⟩ := ring.at_member member
  have back := turned.reversed.next_mem mem_cons_self
  refine same.mem_iff.mpr ?_
  simpa using back

private theorem chain_reaches {f : List α} (chain : IsChain (Linked next prev) (a :: f)) (member : b ∈ a :: f) :
    ∃ n, next^[n] a = b := by
  induction f generalizing a with
  | nil => exact ⟨0,(mem_singleton.mp member).symm⟩
  | cons c f ih =>
    rcases mem_cons.mp member with rfl | later
    · exact ⟨0,rfl⟩
    · rw [isChain_cons_cons] at chain
      obtain ⟨n,reached⟩ := ih chain.2 later
      refine ⟨n + 1,?_⟩
      rw [iterate_succ_apply,chain.1.1,reached]

theorem IsRing.reaches_iff (ring : IsRing next prev l) (member : a ∈ l) : (∃ n, next^[n] a = b) ↔ b ∈ l := by
  constructor
  · rintro ⟨n,rfl⟩
    induction n with
    | zero => exact member
    | succ n ih =>
      rw [iterate_succ_apply']
      exact ring.next_mem ih
  · intro inside
    obtain ⟨rest,same,turned⟩ := ring.at_member member
    refine chain_reaches (isRing_cons.mp turned).2 ?_
    rcases mem_cons.mp (same.mem_iff.mp inside) with rfl | later
    · exact mem_cons_self
    · exact mem_cons_of_mem _ (mem_append_left _ later)

theorem IsRing.perm_of_shared (one : IsRing next prev l) (two : IsRing next prev rest) (inOne : a ∈ l)
    (inTwo : a ∈ rest) : l ~ rest := by
  refine (perm_ext_iff_of_nodup one.nodup two.nodup).mpr (fun b => ?_)
  rw [← one.reaches_iff inOne,two.reaches_iff inTwo]

theorem IsRing.next_injective (ring : IsRing next prev l) (ha : a ∈ l) (hb : b ∈ l)
    (same : next a = next b) : a = b := by
  rw [← ring.prev_next ha,same,ring.prev_next hb]

/-- A member with equal neighbours is alone or has exactly one companion. -/
theorem IsRing.next_eq_prev_iff (ring : IsRing next prev (a :: rest)) :
    next a = prev a ↔ rest.length ≤ 1 := by
  rcases rest with _ | ⟨b,rest⟩
  · obtain ⟨hn,hp⟩ := IsRing.single_iff.mp ring
    simp [hn,hp]
  rcases eq_nil_or_concat rest with rfl | ⟨front,z,rfl⟩
  · have first := ring.next_second
    have shaped : IsRing next prev (a :: ([] ++ [b])) := ring
    simp [first.1,shaped.prev_last.1]
  · have first := ring.next_second
    have shaped : IsRing next prev (a :: ((b :: front) ++ [z])) := by simpa using ring
    have last := shaped.prev_last
    have distinct : b ≠ z := by
      have nodup := ring.nodup
      simp only [concat_eq_append,nodup_cons,mem_append,mem_singleton,not_or] at nodup
      exact nodup.2.1.2
    simp [first.1,last.1,distinct]

theorem IsRing.congr (ring : IsRing next prev l)
    (sameNext : ∀ u ∈ l, next' u = next u) (samePrev : ∀ u ∈ l, prev' u = prev u) :
    IsRing next' prev' l := by
  cases l with
  | nil => exact absurd rfl ring.nonempty
  | cons a rest =>
    obtain ⟨nodup,chain⟩ := isRing_cons.mp ring
    refine isRing_cons.mpr ⟨nodup,chain.imp_of_mem_imp ?_⟩
    intro u v hu hv linked
    have inRing : ∀ w, w ∈ a :: (rest ++ [a]) → w ∈ a :: rest := by
      intro w hw
      simp only [mem_cons,mem_append,not_mem_nil,or_false] at hw ⊢
      tauto
    exact ⟨(sameNext u (inRing u hu)).trans linked.1,(samePrev v (inRing v hv)).trans linked.2⟩

private theorem chain_update (source : IsChain (Linked next prev) (rest ++ [x]))
    (keep : ∀ u ∈ rest, ∀ v, Linked next prev u v → Linked next' prev' u v) :
    IsChain (Linked next' prev') (rest ++ [x]) := by
  induction rest with
  | nil => simp
  | cons u rest ih =>
    have tail := ih source.tail (fun w hw => keep w (mem_cons_of_mem _ hw))
    cases rest with
    | nil =>
      simp only [List.cons_append,List.nil_append,isChain_cons_cons] at source ⊢
      exact ⟨keep u mem_cons_self x source.1,tail⟩
    | cons v rest =>
      simp only [List.cons_append,isChain_cons_cons] at source tail ⊢
      exact ⟨keep u mem_cons_self v source.1,tail⟩

/-- Linking a fresh node behind `a` puts it behind `a` in the ring. -/
theorem IsRing.insert (ring : IsRing next prev (a :: rest)) (fresh : x ∉ a :: rest)
    (after : next' a = x) (onward : next' x = next a)
    (back : prev' x = a) (successor : prev' (next a) = x)
    (keepNext : ∀ u ∈ rest, next' u = next u)
    (keepPrev : ∀ u ∈ a :: rest, u ≠ next a → prev' u = prev u) :
    IsRing next' prev' (a :: x :: rest) := by
  obtain ⟨nodup,chain⟩ := isRing_cons.mp ring
  refine isRing_cons.mpr ⟨?_,?_⟩
  · simp only [mem_cons,not_or,nodup_cons] at fresh nodup ⊢
    exact ⟨⟨Ne.symm fresh.1,nodup.1⟩,fresh.2,nodup.2⟩
  -- the links behind `x` run over the old members, none of which starts at `a`
  have tail : IsChain (Linked next' prev') (rest ++ [a]) := by
    refine chain_update chain.tail ?_
    intro u hu v linked
    have member : u ∈ a :: rest := mem_cons_of_mem _ hu
    have vMember : v ∈ a :: rest := linked.1 ▸ ring.next_mem member
    have different : v ≠ next a := by
      intro same
      have equal : u = a := ring.next_injective member mem_cons_self (linked.1.trans same)
      exact (nodup_cons.mp nodup).1 (equal ▸ hu)
    exact ⟨(keepNext u hu).trans linked.1,(keepPrev v vMember different).trans linked.2⟩
  cases rest with
  | nil =>
    have own := (IsRing.single_iff.mp ring).1
    rw [own] at onward successor
    simp [Linked,after,onward,back,successor]
  | cons b rest =>
    have first := ring.next_second.1
    rw [first] at onward successor
    simp only [List.cons_append,isChain_cons_cons] at tail ⊢
    exact ⟨⟨after,back⟩,⟨onward,successor⟩,tail⟩

theorem IsRing.spliced [DecidableEq α] (ring : IsRing next prev (a :: rest)) (fresh : x ∉ a :: rest) :
    IsRing (update (update next x (next a)) a x) (update (update prev x a) (next a) x)
      (a :: x :: rest) := by
  have apart : x ≠ a := fun same => fresh (by simp [same])
  have onward : x ≠ next a := fun same => fresh (same ▸ ring.next_mem mem_cons_self)
  apply ring.insert fresh
  · simp
  · simp [apart]
  · simp [onward]
  · simp
  · intro u member
    have notA : u ≠ a := fun same => (nodup_cons.mp ring.nodup).1 (same ▸ member)
    have notX : u ≠ x := fun same => fresh (mem_cons_of_mem _ (same ▸ member))
    simp [notA,notX]
  · intro u member different
    have notX : u ≠ x := fun same => fresh (same ▸ member)
    simp [different,notX]

theorem IsRing.remove (ring : IsRing next prev (a :: x :: rest))
    (after : next' a = next x) (successor : prev' (next x) = a)
    (keepNext : ∀ u ∈ rest, next' u = next u)
    (keepPrev : ∀ u ∈ a :: rest, u ≠ next x → prev' u = prev u) :
    IsRing next' prev' (a :: rest) := by
  obtain ⟨nodup,chain⟩ := isRing_cons.mp ring
  have apart : a ∉ rest ∧ x ∉ rest ∧ rest.Nodup ∧ a ≠ x := by
    simp only [mem_cons,not_or,nodup_cons] at nodup
    exact ⟨nodup.1.2,nodup.2.1,nodup.2.2,nodup.1.1⟩
  refine isRing_cons.mpr ⟨nodup_cons.mpr ⟨apart.1,apart.2.2.1⟩,?_⟩
  have tail : IsChain (Linked next' prev') (rest ++ [a]) := by
    refine chain_update chain.tail.tail ?_
    intro u hu v linked
    have member : u ∈ a :: x :: rest := by simp [hu]
    have vMember : v ∈ a :: x :: rest := linked.1 ▸ ring.next_mem member
    have different : v ≠ next x := by
      intro same
      have equal : u = x := ring.next_injective member (by simp) (linked.1.trans same)
      exact apart.2.1 (equal ▸ hu)
    have notRemoved : v ≠ x := by
      intro same
      have equal : u = a := ring.next_injective member (by simp)
        (linked.1.trans (same.trans ring.next_second.1.symm))
      exact apart.1 (equal ▸ hu)
    have kept : v ∈ a :: rest := by
      simp only [mem_cons] at vMember ⊢
      tauto
    exact ⟨(keepNext u hu).trans linked.1,(keepPrev v kept different).trans linked.2⟩
  have onward : next x ∈ rest.head?.getD a :: [] := by
    have turned : IsRing next prev (x :: (rest ++ [a])) := ring.rotated (by
      have turn := rotated_split [a] rest x
      simpa using turn)
    cases rest with
    | nil => simpa using turned.next_second.1
    | cons b rest => simpa using turned.next_second.1
  cases rest with
  | nil =>
    have own : next x = a := by simpa using onward
    rw [own] at after successor
    simp [Linked,after,successor]
  | cons b rest =>
    have own : next x = b := by simpa using onward
    rw [own] at after successor
    simp only [List.cons_append,isChain_cons_cons] at tail ⊢
    exact ⟨⟨after,successor⟩,tail⟩

section Search
variable [DecidableEq α]

/-- One trip along `step`, from `origin` until `stop` holds or `origin` is met
again. The outer `none` means that the fuel ran out before either happened. -/
def search (step : α → α) (stop : α → Bool) (origin : α) : Nat → α → Option (Option α)
  | 0, _ => none
  | fuel + 1, at' =>
    if stop at' then some (some at')
    else if step at' = origin then some none
    else search step stop origin fuel (step at')

theorem search_more {step : α → α} {stop : α → Bool} {origin : α} {fuel more : Nat}
    {result : Option α} (ended : search step stop origin fuel a = some result)
    (enough : fuel ≤ more) : search step stop origin more a = some result := by
  induction fuel generalizing a more with
  | zero => simp [search] at ended
  | succ fuel ih =>
    obtain ⟨more,rfl⟩ : ∃ k, more = k + 1 := ⟨more - 1,by omega⟩
    simp only [search] at ended ⊢
    split
    · rename_i found
      simpa [found] using ended
    · rename_i found
      simp only [found,Bool.false_eq_true,↓reduceIte] at ended
      split
      · rename_i home
        simpa [home] using ended
      · rename_i away
        simp only [away,↓reduceIte] at ended
        exact ih ended (by omega)

theorem search_unique {step : α → α} {stop : α → Bool} {origin : α} {fuel other : Nat}
    {first second : Option α} (one : search step stop origin fuel a = some first)
    (two : search step stop origin other a = some second) : first = second := by
  have left := search_more one (Nat.le_max_left fuel other)
  have right := search_more two (Nat.le_max_right fuel other)
  exact Option.some.inj (left.symm.trans right)

theorem search_found {step : α → α} {stop : α → Bool} {origin : α} {fuel : Nat}
    (ended : search step stop origin fuel a = some (some b)) : stop b = true := by
  induction fuel generalizing a with
  | zero => simp [search] at ended
  | succ fuel ih =>
    simp only [search] at ended
    split at ended
    · rename_i found
      cases ended
      exact found
    · split at ended
      · simp at ended
      · exact ih ended

/-- A search that reaches a loop outside its origin, with no match on it, never ends. -/
theorem search_stuck {step : α → α} {stop : α → Bool} {origin : α} (loop : step a = a)
    (away : a ≠ origin) (miss : stop a = false) (fuel : Nat) :
    search step stop origin fuel a = none := by
  induction fuel with
  | zero => rfl
  | succ fuel ih => simp [search,miss,loop,away,ih]

private theorem search_suffix {origin : α} {stop : α → Bool}
    (ring : IsRing next prev (origin :: l)) (before after : List α) (a : α)
    (split : origin :: l = before ++ a :: after) (fuel : Nat) (enough : after.length < fuel) :
    search next stop origin fuel a = some ((a :: after).find? stop) := by
  induction after generalizing before a fuel with
  | nil =>
    obtain ⟨fuel,rfl⟩ : ∃ k, fuel = k + 1 := ⟨fuel - 1,by simp at enough; omega⟩
    have home : next a = origin := by
      cases before with
      | nil =>
        simp only [List.nil_append,List.cons.injEq] at split
        obtain ⟨rfl,rfl⟩ := split
        exact (IsRing.single_iff.mp ring).1
      | cons o before =>
        simp only [List.cons_append,List.cons.injEq] at split
        obtain ⟨rfl,rfl⟩ := split
        exact ring.prev_last.2
    cases found : stop a <;> simp [search,found,home]
  | cons b after ih =>
    obtain ⟨fuel,rfl⟩ : ∃ k, fuel = k + 1 := ⟨fuel - 1,by simp at enough; omega⟩
    have forward : next a = b := by
      rw [split] at ring
      exact (ring.rotated (rotated_split before (b :: after) a)).next_second.1
    have away : b ≠ origin := by
      have nodup := ring.nodup
      intro same
      subst same
      cases before with
      | nil => simp_all
      | cons o before =>
        simp only [List.cons_append,List.cons.injEq] at split
        obtain ⟨rfl,rfl⟩ := split
        simp at nodup
    have rest := ih (before ++ [a]) b (by simpa using split) fuel (by simp at enough; omega)
    cases found : stop a
    · simpa [search,found,forward,away] using rest
    · simp [search,found]

/-- From a member, the search ends within one trip and finds the first match. -/
theorem search_ring {origin : α} {stop : α → Bool} (ring : IsRing next prev (origin :: l))
    {fuel : Nat} (enough : l.length < fuel) :
    search next stop origin fuel origin = some ((origin :: l).find? stop) :=
  search_suffix ring [] l origin rfl fuel enough

end Search

end RudimentaryKernel.Ring
