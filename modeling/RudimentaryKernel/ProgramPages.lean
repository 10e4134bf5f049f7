import Mathlib.Data.Finset.Card
import Mathlib.Data.Finset.Range
import RudimentaryKernel.Loader
import RudimentaryKernel.PageTables

/-! What `thread_create` and `load_program` do to the page tables and the frames. A directory
takes one table for the stack and the others for code, which comes a frame at a time. The
tables in use are thereby paid for by frames and directories, and some are always left. -/
namespace RudimentaryKernel

open Function

section Marks

variable {used : Nat → Bool} {n i : Nat}

def marks (used : Nat → Bool) (n : Nat) : Nat := ((Finset.range n).filter (fun i => used i = true)).card

theorem marks_le (used : Nat → Bool) (n : Nat) : marks used n ≤ n := by
  have bound := Finset.card_filter_le (Finset.range n) (fun i => used i = true)
  rwa [Finset.card_range] at bound

theorem marks_clear (clear : ∀ i, used i = false) : marks used n = 0 := by
  rw [marks,Finset.card_eq_zero,Finset.filter_eq_empty_iff]
  intro i _
  simp [clear]

theorem marks_set (inside : i < n) (clear : used i = false) :
    marks (update used i true) n = marks used n + 1 := by
  have grown : (Finset.range n).filter (fun j => update used i true j = true) =
      insert i ((Finset.range n).filter (fun j => used j = true)) := by
    ext j
    by_cases same : j = i
    · simp [same,inside]
    · simp [same]
  rw [marks,grown,Finset.card_insert_of_notMem (by simp [clear]),marks]

theorem marks_spare (room : marks used n < n) : ∃ i, i < n ∧ used i = false := by
  by_contra full
  have all : (Finset.range n).filter (fun i => used i = true) = Finset.range n := by
    apply Finset.filter_true_of_mem
    intro i member
    by_contra clear
    exact full ⟨i,Finset.mem_range.mp member,by simpa using clear⟩
  rw [marks,all,Finset.card_range] at room
  omega

end Marks

def codeAddress (page : Nat) : Nat := add32 progLoadBase (page * pageSize)

/-- The tables that the first pages of a program need: the load base is not at the start of
a table. -/
def codeTables (pages : Nat) : Nat := if pages = 0 then 0 else (71 + pages) / 1024 + 1

section Code

variable {page : Nat}

theorem codeAddress_eq (inside : page < frameCount) : codeAddress page = progLoadBase + page * pageSize := by
  have bound : page < 6144 := inside
  apply add32_eq
  unfold progLoadBase pageSize
  omega

theorem codeAddress_row (inside : page < frameCount) : pdIndex (codeAddress page) = 32 + (72 + page) / 1024 := by
  have bound : page < 6144 := inside
  rw [codeAddress_eq inside]
  unfold pdIndex progLoadBase pageSize
  omega

theorem codeAddress_column (inside : page < frameCount) : ptIndex (codeAddress page) = (72 + page) % 1024 := by
  have bound : page < 6144 := inside
  rw [codeAddress_eq inside]
  unfold ptIndex progLoadBase pageSize
  omega

theorem codeAddress_byte {b : Nat} (inside : b / pageSize < frameCount) :
    pdIndex (progLoadBase + b) = pdIndex (codeAddress (b / pageSize)) ∧
    ptIndex (progLoadBase + b) = ptIndex (codeAddress (b / pageSize)) := by
  have bound : b / 4096 < 6144 := inside
  rw [codeAddress_row inside,codeAddress_column inside]
  unfold pdIndex ptIndex progLoadBase pageSize
  omega

theorem codeAddress_injective {other : Nat} (inside : page < frameCount) (within : other < frameCount)
    (row : pdIndex (codeAddress page) = pdIndex (codeAddress other))
    (column : ptIndex (codeAddress page) = ptIndex (codeAddress other)) : page = other := by
  rw [codeAddress_row inside,codeAddress_row within] at row
  rw [codeAddress_column inside,codeAddress_column within] at column
  omega

end Code

namespace Paging

variable {L : Layout} {s after last : Paging L} {t spaces final : Spaces} {d : Fin threadLimit} {page : Nat}

def framesHeld (s : Paging L) : Nat :=
  ((Finset.range frameCount).filter (fun f => bitmapGet s.frameBitmap f = true)).card

theorem framesHeld_le (s : Paging L) : s.framesHeld ≤ frameCount := marks_le (bitmapGet s.frameBitmap) _

theorem framesHeld_marked (f : Fin frameCount) (clear : bitmapGet s.frameBitmap f = false)
    (marked : after.frameBitmap = bitmapMark s.frameBitmap f) : after.framesHeld = s.framesHeld + 1 := by
  have set : bitmapGet after.frameBitmap = update (bitmapGet s.frameBitmap) f true := by
    funext g
    rw [marked,bitmapGet_mark,update_apply]
    by_cases same : g = f
    · simp [same]
    · simp [same,Ne.symm same]
  change marks (bitmapGet after.frameBitmap) frameCount = _
  rw [set]
  exact marks_set f.isLt clear

theorem framesHeld_congr (same : after.frameBitmap = s.frameBitmap) : after.framesHeld = s.framesHeld := by
  rw [framesHeld,same,framesHeld]

@[simp] theorem framesHeld_kprintf {format : String} {arguments : List Nat} :
    (s.kprintf format arguments).framesHeld = s.framesHeld := framesHeld_congr rfl

/-- The tables in use are paid for: two of each directory's less what its load base wastes, and
one more with every 1024 frames. -/
def Frugal (s : Paging L) : Prop :=
  1024 * marks s.userPtUsed maxUserPt ≤ s.framesHeld + 2118 * marks s.pdUsed threadLimit

theorem Frugal.few (frugal : s.Frugal) : marks s.userPtUsed maxUserPt ≤ 30 := by
  have frames : s.framesHeld ≤ 6144 := s.framesHeld_le
  have directories : marks s.pdUsed threadLimit ≤ 12 := marks_le ..
  unfold Frugal at frugal
  omega

theorem Frugal.spare (frugal : s.Frugal) : ∃ u : Fin maxUserPt, s.userPtUsed u = false := by
  obtain ⟨u,inside,clear⟩ := marks_spare (Nat.lt_of_le_of_lt frugal.few (by decide))
  exact ⟨⟨u,inside⟩,clear⟩

/-- The line of a page table that could not be had, from `alloc_user_page_table` or `map_page`. -/
def OutOfTables (line : Print) : Prop :=
  line.format = "alloc_user_page_table: out of page tables\n" ∨ line.format = "map_page: out of page tables\n"

/-- From `s` to `after` frames are taken, mapped and filled. What was mapped stays mapped, the
frames that were in use and those that are still free keep their contents, and nothing is said
about missing tables. -/
structure Grows (s after : Paging L) (t spaces : Spaces) : Prop where
  walks : ∀ e i j f, t.walk e i j = some f → spaces.walk e i j = some f
  taken : ∀ f, bitmapGet s.frameBitmap f = true → bitmapGet after.frameBitmap f = true
  contents : ∀ f : Fin frameCount, bitmapGet s.frameBitmap f = true ∨ bitmapGet after.frameBitmap f = false →
    ∀ o < pageSize, after.ram (frameAddress f + o) = s.ram (frameAddress f + o)
  lines : ∀ line ∈ after.console, OutOfTables line → line ∈ s.console

theorem Grows.free (grows : Grows s after t spaces) {f : Nat} (free : bitmapGet after.frameBitmap f = false) :
    bitmapGet s.frameBitmap f = false := by
  rw [← Bool.not_eq_true] at free ⊢
  exact fun held => free (grows.taken f held)

theorem Grows.trans (first : Grows s after t spaces) (second : Grows after last spaces final) :
    Grows s last t final := by
  refine ⟨?_,?_,?_,?_⟩
  · exact fun e i j f found => second.walks e i j f (first.walks e i j f found)
  · exact fun f held => second.taken f (first.taken f held)
  · rintro f (held | free) o inside
    · rw [second.contents f (.inl (first.taken f held)) o inside,first.contents f (.inl held) o inside]
    · rw [second.contents f (.inr free) o inside,first.contents f (.inr (second.free free)) o inside]
  · exact fun line member missing => first.lines line (second.lines line member missing) missing

theorem Grows.idle (bitmap : after.frameBitmap = s.frameBitmap)
    (ram : ∀ a, frameStart ≤ a → after.ram a = s.ram a)
    (lines : ∀ line ∈ after.console, OutOfTables line → line ∈ s.console) : Grows s after t t := by
  refine ⟨fun _ _ _ _ found => found,fun f held => bitmap ▸ held,?_,lines⟩
  intro f _ o _
  obtain ⟨_,low,_⟩ := frameAddress_placed f
  exact ram _ (by omega)

theorem Grows.refl : Grows s s t t := .idle rfl (fun _ _ => rfl) (fun _ member _ => member)

theorem Grows.printed {format : String} {arguments : List Nat} (other : ¬OutOfTables ⟨format,arguments,[]⟩) :
    Grows s (s.kprintf format arguments) t t := by
  refine .idle rfl (fun _ _ => rfl) ?_
  intro line member missing
  rcases List.mem_append.mp member with earlier | new
  · exact earlier
  · rw [List.mem_singleton.mp new] at missing
    exact absurd missing other

theorem Grows.filled {f : Fin frameCount} (clear : bitmapGet s.frameBitmap f = false)
    (bitmap : after.frameBitmap = bitmapMark s.frameBitmap f)
    (walks : ∀ e i j g, t.walk e i j = some g → spaces.walk e i j = some g)
    (ram : ∀ a, frameStart ≤ a → (a < frameAddress f ∨ frameAddress f + pageSize ≤ a) → after.ram a = s.ram a)
    (lines : after.console = s.console) : Grows s after t spaces := by
  refine ⟨walks,fun g held => ?_,?_,fun line member _ => lines ▸ member⟩
  · rw [bitmap,bitmapGet_mark,held,Bool.or_true]
  · intro g kept o inside
    have apart : (g : Nat) ≠ f := by
      intro same
      rw [bitmap,bitmapGet_mark,same,clear] at kept
      simp at kept
    obtain ⟨_,low,_⟩ := frameAddress_placed g
    refine ram _ (by omega) ?_
    unfold frameAddress pageSize at *
    omega

/-- Directory `d` has its first `page` code pages and, beyond them, room for all that there are
frames for. -/
structure Loading (s : Paging L) (t : Spaces) (d : Fin threadLimit) (page : Nat) : Prop
    extends s.Represents t where
  used : s.pdUsed d = true
  room : page ≤ s.framesHeld
  spent : 1024 * marks s.userPtUsed maxUserPt + 1095 + page ≤
    s.framesHeld + 2118 * marks s.pdUsed threadLimit + 1024 * codeTables page
  reached : 0 < page → ∃ u, t.table (d,pdIndex (codeAddress (page - 1))) = some u
  blank : ∀ q, page ≤ q → q < frameCount → t.walk d (pdIndex (codeAddress q)) (ptIndex (codeAddress q)) = none

theorem Represents.translate_code (represents : s.Represents t) (used : s.pdUsed d = true) {b : Nat}
    (inside : b / pageSize < frameCount) : translate s.ram (L.address (.directory d)) (progLoadBase + b) =
      (t.walk d (pdIndex (codeAddress (b / pageSize))) (ptIndex (codeAddress (b / pageSize)))).map
        (fun f : Fin frameCount => (frameAddress f + b % pageSize,true)) := by
  have bound : b / 4096 < 6144 := inside
  obtain ⟨row,column⟩ := codeAddress_byte inside
  have offset : (progLoadBase + b) % pageSize = b % pageSize := by
    unfold progLoadBase pageSize
    omega
  rw [represents.translate_user used (by unfold progLoadBase; omega) (by unfold progLoadBase; omega),row,column,
    offset]

theorem Loading.frugal (loading : s.Loading t d page) : s.Frugal := by
  have spent := loading.spent
  unfold codeTables at spent
  unfold Frugal
  split at spent <;> omega

theorem Loading.above (loading : s.Loading t d page) {ram : Ram} {console : List Print}
    (kept : ∀ a, a < frameStart → ram a = s.ram a) :
    ({ s with ram := ram, console := console } : Paging L).Loading t d page :=
  ⟨(loading.toRepresents.above kept).printed,loading.used,loading.room,loading.spent,loading.reached,
    loading.blank⟩

theorem Represents.fresh (represents : s.Represents t) {f : Fin frameCount}
    (clear : bitmapGet s.frameBitmap f = false) : t.frame.symm f = none := by
  apply symm_eq_none
  rintro ⟨u,j⟩ found
  rw [(represents.held u j f found).2] at clear
  contradiction

theorem Represents.stored (represents : s.Represents t) {a : Nat} {word : Word} (above : frameStart ≤ a) :
    (s.store a word).Represents t :=
  represents.above (fun b below => update_of_ne (by omega) ..)

theorem Represents.installs (represents : s.Represents t) {f : Fin frameCount} (va : Nat)
    (frugal : s.Frugal) (used : s.pdUsed d = true) (high : 8 ≤ pdIndex va)
    (clear : bitmapGet s.frameBitmap f = false)
    (marked : ({ s with frameBitmap := bitmapMark s.frameBitmap f } : Paging L).Represents t) :
    ∃ after spaces, ({ s with frameBitmap := bitmapMark s.frameBitmap f } : Paging L).mapPage
        (L.address (.directory d)) va (frameAddress f) (pageRw ||| pageUser) = after ∧
      after.Represents spaces ∧ after.pdUsed = s.pdUsed ∧
      after.frameBitmap = bitmapMark s.frameBitmap f ∧ Installs s after t spaces d va f := by
  obtain ⟨u,spare⟩ := frugal.spare
  obtain ⟨after,spaces,done,kept,directories,frames,installed⟩ :=
    marked.mapPage used high (by simp) (represents.fresh clear)
  have installs := installed.resolve_right (fun full => Bool.false_ne_true (spare.symm.trans (full u)))
  exact ⟨after,spaces,done,kept,directories,frames,installs.walk,installs.linked,installs.links,
    installs.tables,installs.console,installs.frames⟩

/-- What a new mapping costs: a table, where the directory led to none. -/
theorem Installs.cost {f : Fin frameCount} {va : Nat} (installs : Installs s after t spaces d va f) :
    marks after.userPtUsed maxUserPt = marks s.userPtUsed maxUserPt ∨
    t.table (d,pdIndex va) = none ∧
      marks after.userPtUsed maxUserPt = marks s.userPtUsed maxUserPt + 1 := by
  rcases installs.tables with same | ⟨unlinked,u,clear,taken⟩
  · exact .inl (by rw [same])
  · exact .inr ⟨unlinked,by rw [taken,marks_set u.isLt clear]⟩

theorem Installs.walks {f : Fin frameCount} {va : Nat} (installs : Installs s after t spaces d va f)
    (blank : t.walk d (pdIndex va) (ptIndex va) = none) (e : Fin threadLimit) (i j : Nat)
    (g : Fin frameCount) (found : t.walk e i j = some g) : spaces.walk e i j = some g := by
  rw [installs.walk,if_neg]
  · exact found
  · rintro ⟨rfl,rfl,rfl⟩
    rw [blank] at found
    contradiction

theorem Loading.next (loading : s.Loading t d page) : ∃ taken paddr, s.frameAlloc = (taken,paddr) ∧
    (paddr = 0 ∧ taken = s.kprintf "frame_alloc: out of frames\n" [] ∨
      ∃ (f : Fin frameCount) (after : Paging L) (spaces : Spaces), paddr = frameAddress f ∧
        bitmapGet s.frameBitmap f = false ∧
        taken.mapPage (L.address (.directory d)) (codeAddress page) paddr (pageRw ||| pageUser) = after ∧
        after.Loading spaces d (page + 1) ∧ after.pdUsed = s.pdUsed ∧
        after.frameBitmap = bitmapMark s.frameBitmap f ∧
        Installs s after t spaces d (codeAddress page) f) := by
  obtain ⟨taken,paddr,allocated,marked,⟨zero,printed⟩ | ⟨f,rfl,clear,same⟩⟩ := loading.frameAlloc
  · exact ⟨_,_,allocated,.inl ⟨zero,printed⟩⟩
  subst same
  have more : ({ s with frameBitmap := bitmapMark s.frameBitmap f } : Paging L).framesHeld = s.framesHeld + 1 :=
    framesHeld_marked f clear rfl
  have inside : page < frameCount := by
    have bound := ({ s with frameBitmap := bitmapMark s.frameBitmap f } : Paging L).framesHeld_le
    have room := loading.room
    omega
  have row := codeAddress_row inside
  obtain ⟨after,spaces,done,kept,directories,frames,installs⟩ :=
    loading.installs (codeAddress page) loading.frugal loading.used (by omega) clear marked
  refine ⟨_,_,allocated,.inr ⟨f,after,spaces,rfl,clear,done,?_,directories,frames,installs⟩⟩
  have held := framesHeld_marked f clear frames
  refine ⟨kept,by rw [directories,loading.used],?_,?_,?_,?_⟩
  · have room := loading.room
    omega
  · -- a new table is taken at the first page of a row only
    have spent := loading.spent
    rw [directories,held]
    rcases installs.cost with same | ⟨unlinked,taken⟩
    · rw [same]
      unfold codeTables at spent ⊢
      rw [if_neg (by omega)]
      split at spent <;> omega
    · rw [taken]
      by_cases start : page = 0
      · subst start
        simp only [codeTables,↓reduceIte,Nat.zero_add,one_ne_zero] at spent ⊢
        omega
      · obtain ⟨u,link⟩ := loading.reached (by omega)
        have apart : pdIndex (codeAddress (page - 1)) ≠ pdIndex (codeAddress page) := by
          intro same
          rw [same,unlinked] at link
          exact Option.some_ne_none u link.symm
        rw [codeAddress_row (show page - 1 < frameCount by omega),row] at apart
        simp only [codeTables,start,↓reduceIte,Nat.add_eq_zero_iff,one_ne_zero,and_false] at spent ⊢
        omega
  · intro _
    rw [Nat.add_sub_cancel]
    exact installs.linked
  · intro q later within
    rw [installs.walk,if_neg]
    · exact loading.blank q (by omega) within
    · rintro ⟨_,sameRow,sameColumn⟩
      have := codeAddress_injective within inside sameRow sameColumn
      omega

theorem mapPage_marks (s : Paging L) (pd vaddr paddr : Nat) (flags : Word) :
    (s.mapPage pd vaddr paddr flags).pdUsed = s.pdUsed ∧ (s.mapPage pd vaddr paddr flags).frameBitmap = s.frameBitmap := by
  unfold mapPage allocUserPageTable
  dsimp only
  split
  · split <;> (dsimp only; split <;> exact ⟨rfl,rfl⟩)
  · exact ⟨rfl,rfl⟩

theorem Represents.unused (represents : s.Represents t) (clear : s.pdUsed d = false) (i j : Nat) :
    t.walk d i j = none := by
  have unlinked : t.table (d,i) = none := by
    rw [Option.eq_none_iff_forall_ne_some]
    intro u link
    rw [(represents.linked d i u link).1] at clear
    contradiction
  rw [TwoLevel.walk,unlinked,Option.bind_none]

/-- `thread_create` hands out a directory with nothing in it, and a user thread gets its stack
page there. -/
theorem Represents.forThread (represents : s.Represents t) (frugal : s.Frugal) (user : Bool)
    (heap : HeapGrants) : ∃ after pd paddr spaces, s.forThread user heap = (after,pd,paddr) ∧
      after.Represents spaces ∧ after.Frugal ∧ Grows s after t spaces ∧
      after.framesHeld = s.framesHeld + (if paddr = 0 then 0 else 1) ∧
      (pd = 0 ∧ paddr = 0 ∨ ∃ d : Fin threadLimit, pd = L.address (.directory d) ∧ after.pdUsed d = true ∧
        (paddr ≠ 0 → after.Loading spaces d 0 ∧
          translate after.ram pd userStackBase = some (paddr,true))) := by
  unfold Paging.forThread
  split
  · exact ⟨_,_,_,t,rfl,represents,frugal,.refl,by simp,.inl ⟨rfl,rfl⟩⟩
  obtain ⟨made,pd,done,kept,tables,frames,outcome⟩ := represents.allocPageDirectory
  rw [done]
  dsimp only
  have held := framesHeld_congr frames
  rcases outcome with ⟨rfl,rfl⟩ | ⟨d,rfl,clear,directories,quiet,ram⟩
  · rw [if_pos (.inl rfl)]
    exact ⟨_,_,_,t,rfl,kept,frugal,.printed (by simp [OutOfTables]),by simp,.inl ⟨rfl,rfl⟩⟩
  have used : made.pdUsed d = true := by rw [directories,update_self]
  have granted : Grows s made t t := .idle frames ram (fun line member _ => quiet ▸ member)
  have spent : 1024 * marks made.userPtUsed maxUserPt + 2118 ≤
      made.framesHeld + 2118 * marks made.pdUsed threadLimit := by
    unfold Frugal at frugal
    rw [tables,held,directories,marks_set d.isLt clear]
    omega
  have affordable : made.Frugal := by
    unfold Frugal
    omega
  split
  · exact ⟨_,_,_,t,rfl,kept,affordable,granted,by simpa using held,
      .inr ⟨d,rfl,used,fun none => absurd rfl none⟩⟩
  obtain ⟨taken,paddr,allocated,marked,⟨rfl,rfl⟩ | ⟨f,rfl,free,rfl⟩⟩ := kept.frameAlloc
  · rw [allocated]
    exact ⟨_,_,_,t,rfl,marked,affordable,granted.trans (.printed (by simp [OutOfTables])),
      by simpa using held,.inr ⟨d,rfl,used,fun none => absurd rfl none⟩⟩
  obtain ⟨mapped,spaces,result,represents',inUse,bitmap,installs⟩ :=
    kept.installs userStackBase affordable used (by decide) free marked
  obtain ⟨aligned,low,high⟩ := frameAddress_placed f
  have positive : frameAddress f ≠ 0 := by
    simp only [frameStart] at low
    omega
  rw [allocated]
  dsimp only
  rw [if_neg positive,result]
  have unused := represents.unused clear
  have more := framesHeld_marked f free bitmap
  let final := (mapped.store (frameAddress f + pageSize - 4) L.callExit).store
    (frameAddress f + pageSize - 8) L.callExit
  have inFrame : frameAddress f ≤ frameAddress f + pageSize - 8 ∧
      frameAddress f ≤ frameAddress f + pageSize - 4 ∧ 8 < pageSize := by
    simp only [pageSize]
    omega
  have ram' : ∀ a, frameStart ≤ a → a < frameAddress f ∨ frameAddress f + pageSize ≤ a →
      final.ram a = made.ram a := by
    intro a above outside
    refine (update_of_ne (by omega) ..).trans ((update_of_ne (by omega) ..).trans ?_)
    exact installs.frames a above
  have loading : final.Loading spaces d 0 := by
    refine ⟨(represents'.stored (by omega)).stored (by omega),?_,Nat.zero_le _,?_,
      fun zero => absurd zero (Nat.lt_irrefl 0),?_⟩
    · change mapped.pdUsed d = true
      rw [inUse,used]
    · change 1024 * marks mapped.userPtUsed maxUserPt + 1095 + 0 ≤
        mapped.framesHeld + 2118 * marks mapped.pdUsed threadLimit + 1024 * codeTables 0
      rw [inUse,more]
      rcases installs.cost with same | ⟨_,same⟩ <;> omega
    · intro q _ inside
      rw [installs.walk,if_neg,unused]
      rintro ⟨_,row,_⟩
      have bound : q < 6144 := inside
      rw [codeAddress_row inside,show pdIndex userStackBase = 767 by decide] at row
      omega
  refine ⟨final,_,_,spaces,rfl,loading.toRepresents,loading.frugal,
    granted.trans (.filled free bitmap (installs.walks (unused ..)) ram' installs.console),?_,
    .inr ⟨d,rfl,loading.used,fun _ => ⟨loading,?_⟩⟩⟩
  · rw [if_neg positive,← held]
    exact more
  · rw [loading.translate_user loading.used (by decide) (by decide),installs.here,Option.map_some,
      show userStackBase % pageSize = 0 by decide,Nat.add_zero]

end Paging

theorem Tasks.threadCreate_directory {ι : Type} {s tasks : Tasks ι} {user : Bool} {grants : Grants} {t : Nat}
    (outcome : s.threadCreate user grants = (tasks,t)) (created : t ≠ 0) :
    grants.pageDirectory ≠ 0 ∧ (user = true → grants.frame ≠ 0) ∧ t = grants.tcb ∧
      tasks.pageDirectory t = grants.pageDirectory := by
  unfold threadCreate prepare at outcome
  dsimp only at outcome
  split at outcome
  · exact absurd (Prod.mk.inj outcome).2.symm created
  split at outcome
  · exact absurd (Prod.mk.inj outcome).2.symm created
  rename_i directory
  split at outcome
  · exact absurd (Prod.mk.inj outcome).2.symm created
  split at outcome
  · exact absurd (Prod.mk.inj outcome).2.symm created
  · rename_i stack
    obtain ⟨rfl,rfl⟩ := Prod.mk.inj outcome
    refine ⟨directory,fun user none => stack ⟨user,none⟩,rfl,?_⟩
    unfold splice
    dsimp only
    split <;> simp

/-- The frame at `paddr` has the sectors of a page from `n` up to `m` as they were read, and where
the program has ended, what it had before. -/
def HoldsSectors (reads : DiskReads) (found : ProgramDirEntry) (page paddr n m : Nat) (before after : Ram) :
    Prop :=
  ∀ i j, n ≤ i → i < m → j < 128 →
    (page * sectorsPerPage + i < found.sectors → ∃ sector,
      reads (2 + page * sectorsPerPage + i) (add32 (add32 found.lba (page * sectorsPerPage)) i) = some sector ∧
      after (paddr + i * sectorSize + 4 * j) = sectorWord sector (4 * j)) ∧
    (found.sectors ≤ page * sectorsPerPage + i →
      after (paddr + i * sectorSize + 4 * j) = before (paddr + i * sectorSize + 4 * j))

theorem HoldsSectors.congr {reads : DiskReads} {found : ProgramDirEntry} {page paddr : Nat}
    {before after first last : Ram} (holds : HoldsSectors reads found page paddr 0 sectorsPerPage before after)
    (start : ∀ o < pageSize, first (paddr + o) = before (paddr + o))
    (finish : ∀ o < pageSize, last (paddr + o) = after (paddr + o)) :
    HoldsSectors reads found page paddr 0 sectorsPerPage first last := by
  intro i j low high inside
  have within : i * sectorSize + 4 * j < pageSize := by
    have bound : i < 8 := high
    unfold sectorSize pageSize
    omega
  have begun := start _ within
  have finished := finish _ within
  rw [← Nat.add_assoc] at begun finished
  rw [begun,finished]
  exact holds i j low high inside

namespace Kernel

variable {L : Layout} {ι : Type} {k : Kernel L ι} {t : Spaces} {d : Fin threadLimit}
  {reads : DiskReads} {found : ProgramDirEntry}

theorem readSectors_fills (reads : DiskReads) (found : ProgramDirEntry) (k : Kernel L ι) (page paddr remaining n : Nat) : ∃ ram console,
    (readSectors reads found page paddr remaining n k).1 =
      { k with paging := { k.paging with ram := ram }, console := console } ∧
    (∀ a, a < paddr + n * sectorSize ∨ paddr + (n + remaining) * sectorSize ≤ a → ram a = k.paging.ram a) ∧
    ((readSectors reads found page paddr remaining n k).2 = true →
      HoldsSectors reads found page paddr n (n + remaining) k.paging.ram ram) := by
  induction remaining generalizing n k with
  | zero => exact ⟨_,_,rfl,fun _ _ => rfl,fun _ i j low high => by omega⟩
  | succ remaining ih =>
    rw [readSectors]
    split
    · rename_i past
      exact ⟨_,_,rfl,fun _ _ => rfl,fun _ i j low high inside => ⟨fun before => by omega,fun _ => rfl⟩⟩
    dsimp only
    split
    · exact ⟨_,_,rfl,fun _ _ => rfl,fun done => absurd done Bool.false_ne_true⟩
    · rename_i more _ sector read
      obtain ⟨ram,console,result,apart,holds⟩ := ih { k with paging := { k.paging with
        ram := fillWords (paddr + n * sectorSize) (fun _ j => sectorWord sector (4 * j)) 128 k.paging.ram } } (n + 1)
      refine ⟨ram,console,result,?_,?_⟩
      · intro a outside
        have ends : (n + (remaining + 1)) * sectorSize = (n + 1 + remaining) * sectorSize := by
          rw [Nat.add_comm remaining,Nat.add_assoc]
        have starts : (n + 1) * sectorSize = n * sectorSize + 512 := Nat.succ_mul ..
        have after : (n + 1) * sectorSize ≤ (n + 1 + remaining) * sectorSize :=
          Nat.mul_le_mul_right _ (Nat.le_add_right ..)
        rw [apart a (by omega)]
        exact fillWords_apart (fun j inside => by omega)
      · intro done i j low high inside
        by_cases first : i = n
        · subst first
          refine ⟨fun _ => ⟨sector,read,?_⟩,fun past => by omega⟩
          rw [apart _ (by unfold sectorSize; omega)]
          exact fillWords_at inside (fun _ _ => rfl)
        · obtain ⟨within,beyond⟩ := holds done i j (by omega) (by omega) inside
          refine ⟨within,fun past => (beyond past).trans ?_⟩
          exact fillWords_apart (fun l within => by unfold sectorSize; omega)

theorem page_loads (reads : DiskReads) (found : ProgramDirEntry) {page : Nat} (loading : k.paging.Loading t d page) :
    ∃ taken paddr, k.paging.frameAlloc = (taken,paddr) ∧
      (paddr = 0 ∧ taken = k.paging.kprintf "frame_alloc: out of frames\n" [] ∨
        paddr ≠ 0 ∧ ∃ (f : Fin frameCount) (spaces : Spaces) (after : Kernel L ι) (done : Bool),
          readSectors reads found page paddr sectorsPerPage 0 ⟨taken.mapPage (L.address (.directory d))
            (codeAddress page) paddr (pageRw ||| pageUser),k.threads,k.console,k.firstFrames⟩ = (after,done) ∧
          after.paging.Loading spaces d (page + 1) ∧ Paging.Grows k.paging after.paging t spaces ∧
          after.paging.framesHeld = k.paging.framesHeld + 1 ∧
          bitmapGet k.paging.frameBitmap f = false ∧ bitmapGet after.paging.frameBitmap f = true ∧
          spaces.walk d (pdIndex (codeAddress page)) (ptIndex (codeAddress page)) = some f ∧
          (done = true → HoldsSectors reads found page (frameAddress f) 0 sectorsPerPage k.paging.ram
            after.paging.ram)) := by
  obtain ⟨taken,paddr,allocated,none | ⟨f,mapped,spaces,rfl,clear,rfl,loading',_,bitmap,installs⟩⟩ := loading.next
  · exact ⟨taken,paddr,allocated,.inl none⟩
  obtain ⟨_,low,high⟩ := frameAddress_placed f
  have positive : frameAddress f ≠ 0 := by
    simp only [frameStart] at low
    omega
  refine ⟨taken,_,allocated,.inr ⟨positive,?_⟩⟩
  generalize taken.mapPage (L.address (.directory d)) (codeAddress page) (frameAddress f)
    (pageRw ||| pageUser) = mapped at *
  have inside : page < frameCount := Nat.lt_of_lt_of_le loading'.room mapped.framesHeld_le
  obtain ⟨ram,console,read,apart,holds⟩ := readSectors_fills reads found
    { k with paging := mapped } page (frameAddress f) sectorsPerPage 0
  have size : (0 + sectorsPerPage) * sectorSize = pageSize := by decide
  rw [size,Nat.zero_mul,Nat.add_zero] at apart
  refine ⟨f,spaces,_,_,Prod.ext read rfl,loading'.above (fun a below => apart a (.inl (by omega))),?_,
    Paging.framesHeld_marked f clear bitmap,clear,?_,installs.here,fun done => (holds done).congr ?_ (fun _ _ => rfl)⟩
  · refine .filled clear bitmap (installs.walks (loading.blank page (Nat.le_refl _) inside)) ?_ installs.console
    intro a above outside
    exact (apart a outside).trans (installs.frames a above)
  · change bitmapGet mapped.frameBitmap f = true
    rw [bitmap,bitmapGet_mark]
    simp
  · intro o within
    exact (installs.frames _ (by omega)).symm

/-- The outer loop loads page after page, until it is through or something is missing. -/
theorem loadPages_loads {name : Nat → Byte} {page : Nat} (loading : k.paging.Loading t d page)
    (remaining : Nat) {after : Kernel L ι} {result : Int}
    (outcome : loadPages reads found name (L.address (.directory d)) remaining page k = (after,result)) :
    ∃ n spaces, after.paging.Loading spaces d (page + n) ∧ Paging.Grows k.paging after.paging t spaces ∧
      after.paging.framesHeld = k.paging.framesHeld + n ∧ (result = 0 → n = remaining) ∧
      ∀ q, page ≤ q → q < page + n → ∃ f : Fin frameCount, bitmapGet k.paging.frameBitmap f = false ∧
        spaces.walk d (pdIndex (codeAddress q)) (ptIndex (codeAddress q)) = some f ∧
        (result = 0 → HoldsSectors reads found q (frameAddress f) 0 sectorsPerPage k.paging.ram
          after.paging.ram) := by
  induction remaining generalizing k t page with
  | zero =>
    obtain ⟨rfl,rfl⟩ := Prod.mk.inj outcome
    exact ⟨0,t,loading,.refl,(Nat.add_zero _).symm,fun _ => rfl,fun q low high => by omega⟩
  | succ remaining ih =>
    rw [loadPages] at outcome
    obtain ⟨taken,paddr,allocated,⟨rfl,rfl⟩ | ⟨positive,f,spaces,mid,done,read,turned,grows,more,clear,
      held,here,holds⟩⟩ := page_loads reads found loading
    · rw [allocated] at outcome
      obtain ⟨rfl,rfl⟩ := Prod.mk.inj outcome
      exact ⟨0,t,loading.above (fun _ _ => rfl),.printed (by simp [Paging.OutOfTables]),
        Paging.framesHeld_kprintf.trans (Nat.add_zero _).symm,by simp,fun q low high => by omega⟩
    rw [allocated] at outcome
    dsimp only at outcome
    rw [if_neg positive,← codeAddress,read] at outcome
    dsimp only at outcome
    cases done with
    | false =>
      obtain ⟨rfl,rfl⟩ := Prod.mk.inj outcome
      refine ⟨1,spaces,turned,grows,more,by simp,fun q low high => ?_⟩
      obtain rfl : q = page := by omega
      exact ⟨f,clear,here,by simp⟩
    | true =>
      obtain ⟨n,final,loaded,grows',frames,all,pages⟩ := ih turned outcome
      refine ⟨n + 1,final,by rwa [Nat.add_comm n,← Nat.add_assoc],grows.trans grows',by omega,
        fun zero => by rw [all zero],fun q low high => ?_⟩
      by_cases first : q = page
      · subst first
        refine ⟨f,clear,grows'.walks _ _ _ _ here,fun zero => ?_⟩
        exact (holds rfl).congr (fun _ _ => rfl) (grows'.contents f (.inl held))
      · obtain ⟨g,free,there,contents⟩ := pages q (by omega) (by omega)
        refine ⟨g,grows.free free,there,fun zero => (contents zero).congr ?_ (fun _ _ => rfl)⟩
        exact fun o inside => (grows.contents g (.inr free) o inside).symm

theorem readSectors_threads (reads : DiskReads) (found : ProgramDirEntry) (page paddr remaining n : Nat)
    (k : Kernel L ι) : (readSectors reads found page paddr remaining n k).1.threads = k.threads ∧
      (readSectors reads found page paddr remaining n k).1.firstFrames = k.firstFrames := by
  obtain ⟨_,_,same,_⟩ := readSectors_fills reads found k page paddr remaining n
  rw [same]
  exact ⟨rfl,rfl⟩

theorem loadPages_threads (reads : DiskReads) (found : ProgramDirEntry) (name : Nat → Byte)
    (pd remaining page : Nat) (k : Kernel L ι) :
    (loadPages reads found name pd remaining page k).1.threads = k.threads ∧
      (loadPages reads found name pd remaining page k).1.firstFrames = k.firstFrames := by
  induction remaining generalizing page k with
  | zero => exact ⟨rfl,rfl⟩
  | succ remaining ih =>
    rw [loadPages]
    dsimp only
    split
    · exact ⟨rfl,rfl⟩
    split
    · exact ⟨(ih ..).1.trans (readSectors_threads ..).1,(ih ..).2.trans (readSectors_threads ..).2⟩
    · exact readSectors_threads ..

theorem threadCreate_grows (represents : k.paging.Represents t) (frugal : k.paging.Frugal) {user : Bool}
    {entryFn : Word} {heap : HeapGrants} {after : Kernel L ι} {thread : Nat}
    (outcome : k.threadCreate user entryFn heap = (after,thread)) :
    ∃ spaces, after.paging.Represents spaces ∧ after.paging.Frugal ∧
      Paging.Grows k.paging after.paging t spaces ∧
      after.paging.framesHeld ≤ k.paging.framesHeld + 1 ∧
      (thread ≠ 0 → thread = heap.tcb ∧ ∃ d : Fin threadLimit,
        after.threads.tasks.pageDirectory thread = L.address (.directory d) ∧
        (user = true → after.paging.Loading spaces d 0 ∧
          after.paging.framesHeld = k.paging.framesHeld + 1)) := by
  obtain ⟨paging,pd,paddr,spaces,done,kept,affordable,grows,frames,which⟩ :=
    represents.forThread frugal user heap
  rw [threadCreate,done] at outcome
  dsimp only at outcome
  cases made : k.threads.tasks.threadCreate user ⟨heap.tcb,heap.tid,pd,heap.stack,paddr⟩ with | mk tasks t => ?_
  rw [made] at outcome
  obtain ⟨rfl,rfl⟩ := Prod.mk.inj outcome
  refine ⟨spaces,kept,affordable,grows,?_,?_⟩
  · dsimp only
    split at frames <;> omega
  · intro created
    obtain ⟨directory,stack,returned,same⟩ := Tasks.threadCreate_directory made created
    obtain ⟨d,address,_,ready⟩ := which.resolve_left (fun none => directory none.1)
    refine ⟨returned,d,same.trans address,fun asked => ⟨(ready (stack asked)).1,?_⟩⟩
    rw [if_neg (stack asked)] at frames
    exact frames

open KernelState (Lists numPages)

theorem loadProgram_unlisted (k : Kernel L ι) {name : Nat → Byte} (heap : HeapGrants)
    (unlisted : ¬∃ found, Lists reads name found) :
    ∃ console, k.loadProgram name reads heap = ({ k with console := console },-1) := by
  unfold loadProgram
  dsimp only
  split
  · exact ⟨_,rfl⟩
  rename_i start
  cases directory : reads 1 (readProgDirLba reads) with
  | none => exact ⟨_,rfl⟩
  | some dir =>
    dsimp only
    cases search : findProgram dir (kname name) (sectorSize / 32) 0 with
    | none => exact ⟨_,rfl⟩
    | some found => exact absurd ⟨found,start,dir,directory,search⟩ unlisted

theorem loadProgram_listed (k : Kernel L ι) {name : Nat → Byte} (heap : HeapGrants)
    (listed : Lists reads name found) : k.loadProgram name reads heap =
      let (k,t) := k.threadCreate true (entryVaddr found) heap
      if t = 0 then (k.kprintf "loader: thread_create failed for '%s'\n" [] [text (kname name)],-1)
      else loadPages reads found (kname name) (k.threads.tasks.pageDirectory t) (numPages found) 0 k := by
  obtain ⟨start,dir,directory,search⟩ := listed
  unfold loadProgram
  dsimp only
  rw [if_neg start,directory]
  dsimp only
  rw [search]
  rfl

theorem threadCreate_firstFrame {k after : Kernel L ι} {user : Bool} {entryFn : Word} {heap : HeapGrants}
    {thread : Nat} (outcome : k.threadCreate user entryFn heap = (after,thread)) (created : thread ≠ 0) :
    thread = heap.tcb ∧ after.firstFrames thread = .of user entryFn := by
  unfold threadCreate at outcome
  generalize k.paging.forThread user heap = granted at outcome
  obtain ⟨paging,pd,paddr⟩ := granted
  dsimp only at outcome
  cases made : k.threads.tasks.threadCreate user ⟨heap.tcb,heap.tid,pd,heap.stack,paddr⟩ with | mk tasks t => ?_
  rw [made] at outcome
  obtain ⟨rfl,rfl⟩ := Prod.mk.inj outcome
  obtain ⟨_,_,same,_⟩ := Tasks.threadCreate_directory made created
  refine ⟨same,?_⟩
  dsimp only
  rw [if_neg created,update_self]

theorem loadProgram_firstFrame {k after : Kernel L ι} {name : Nat → Byte} {heap : HeapGrants}
    (listed : Lists reads name found) (outcome : k.loadProgram name reads heap = (after,0)) :
    after.firstFrames heap.tcb = .of true (entryVaddr found) := by
  rw [loadProgram_listed k heap listed] at outcome
  cases created : k.threadCreate true (entryVaddr found) heap with | mk made thread => ?_
  rw [created] at outcome
  dsimp only at outcome
  split at outcome
  · exact absurd (Prod.mk.inj outcome).2 (by decide)
  rename_i real
  have frames := (loadPages_threads reads found (kname name) (made.threads.tasks.pageDirectory thread)
    (numPages found) 0 made).2
  rw [outcome] at frames
  rw [frames]
  obtain ⟨rfl,noted⟩ := threadCreate_firstFrame created real
  exact noted

/-- What `load_program` leaves in the page tables: the code pages it took frames for are in the
new thread's directory, and are all that the directory of the disk says when it returns 0. -/
theorem loadProgram_loads (represents : k.paging.Represents t) (frugal : k.paging.Frugal)
    {name : Nat → Byte} {heap : HeapGrants} {after : Kernel L ι} {result : Int}
    (outcome : k.loadProgram name reads heap = (after,result)) :
    ∃ spaces, after.paging.Represents spaces ∧ after.paging.Frugal ∧
      Paging.Grows k.paging after.paging t spaces ∧
      (after.paging.framesHeld ≤ k.paging.framesHeld + 1 ∧ result = -1 ∨
        ∃ (found : ProgramDirEntry) (d : Fin threadLimit) (n : Nat), Lists reads name found ∧
          after.threads.tasks.pageDirectory heap.tcb = L.address (.directory d) ∧
          after.paging.Loading spaces d n ∧ after.paging.framesHeld = k.paging.framesHeld + 1 + n ∧
          (result = 0 → n = numPages found) ∧
          ∀ q < n, ∃ f : Fin frameCount, bitmapGet k.paging.frameBitmap f = false ∧
            spaces.walk d (pdIndex (codeAddress q)) (ptIndex (codeAddress q)) = some f ∧
            (result = 0 → HoldsSectors reads found q (frameAddress f) 0 sectorsPerPage k.paging.ram
              after.paging.ram)) := by
  by_cases listed : ∃ found, Lists reads name found
  · obtain ⟨found,listed⟩ := listed
    rw [loadProgram_listed k heap listed] at outcome
    cases created : k.threadCreate true (entryVaddr found) heap with | mk made thread => ?_
    rw [created] at outcome
    dsimp only at outcome
    obtain ⟨spaces,kept,affordable,grows,frames,launched⟩ := threadCreate_grows represents frugal created
    split at outcome
    · obtain ⟨rfl,rfl⟩ := Prod.mk.inj outcome
      exact ⟨spaces,kept,affordable,grows,.inl ⟨frames,rfl⟩⟩
    · rename_i real
      obtain ⟨rfl,d,address,ready⟩ := launched real
      obtain ⟨loading,more⟩ := ready rfl
      rw [address] at outcome
      obtain ⟨n,final,loaded,grows',held,all,pages⟩ := loadPages_loads loading _ outcome
      have threads := (loadPages_threads reads found (kname name) (L.address (.directory d)) (numPages found) 0 made).1
      rw [outcome] at threads
      rw [Nat.zero_add] at loaded
      refine ⟨final,loaded.toRepresents,loaded.frugal,grows.trans grows',.inr ⟨found,d,n,listed,
        by rw [threads]; exact address,loaded,by omega,all,?_⟩⟩
      intro q below
      obtain ⟨f,free,walk,contents⟩ := pages q (Nat.zero_le _) (by omega)
      refine ⟨f,grows.free free,walk,fun zero => (contents zero).congr ?_ (fun _ _ => rfl)⟩
      exact fun o inside => (grows.contents f (.inr free) o inside).symm
  · obtain ⟨console,same⟩ := loadProgram_unlisted k heap listed
    obtain ⟨rfl,rfl⟩ := Prod.mk.inj (same.symm.trans outcome)
    exact ⟨t,represents,frugal,.refl,.inl ⟨Nat.le_succ _,rfl⟩⟩

end Kernel

end RudimentaryKernel
