import RudimentaryKernel.IdentityRange

/-! `init_paging` terminates, uses all eight static tables, and leaves the kernel's
directory mapping the first 32 MiB to themselves. -/
namespace RudimentaryKernel

open Function

namespace Paging

variable {L : Layout} {first s : Paging L}

/-- From the state `first`, `m` tables have been installed and `n` pages mapped. -/
structure Mapped (first s : Paging L) (n m : Nat) : Prop where
  kernel : s.kernelPageDirectory = L.address .kernelDirectory
  count : s.ptCount = m
  filled : ∀ i : Fin 8, i < m → s.words .kernelDirectory i = kernelEntry (L.address (.kernelTable i))
  empty : ∀ j, m ≤ j → j < 1024 → s.words .kernelDirectory j = 0
  identity : ∀ i : Fin 8, ∀ j < 1024, i * 1024 + j < n →
    s.words (.kernelTable i) j = kernelEntry ((i * 1024 + j) * pageSize)
  pdUsed : s.pdUsed = first.pdUsed
  userPtUsed : s.userPtUsed = first.userPtUsed
  frameBitmap : s.frameBitmap = first.frameBitmap
  frames : ∀ a, frameStart ≤ a → s.ram a = first.ram a

theorem pageDirStorage_apart (L : Layout) : Apart L L.pageDirStorage := by
  have separate := L.separate
  simp only [pagingArrays,List.pairwise_cons,List.forall_mem_cons] at separate
  exact ⟨(L.address_placed .kernelDirectory).2.1,by omega⟩

theorem RangeMapped.mapped (range : RangeMapped first s L.pageDirStorage 0 8192 8)
    (kernel : first.kernelPageDirectory = L.pageDirStorage) : Mapped first s 8192 8 := by
  refine ⟨range.kernel.trans kernel,range.count,fun i before => ?_,fun j after inside => ?_,
    fun i j inside before => ?_,range.pdUsed,range.userPtUsed,range.frameBitmap,fun x above => ?_⟩
  · have entry := range.installed i before i.isLt (by omega)
    rwa [Nat.zero_div,Nat.zero_add] at entry
  · exact range.empty j inside (by omega)
  · have page := range.pages i i.isLt j inside
    rwa [if_pos (by omega),Nat.zero_div,Nat.zero_add] at page
  · refine range.outside x (fun j inside => ?_) (fun i table j inside => ?_)
    · exact (L.cell_below .kernelDirectory inside above).symm
    · exact (L.cell_below (.kernelTable ⟨i,table⟩) inside above).symm

theorem initPaging_eq (static : s.Static) :
    ∃ after console, RangeMapped ({ s with kernelPageDirectory := L.pageDirStorage } : Paging L) after
        L.pageDirStorage 0 8192 8 ∧
      ∀ fuel, s.initPaging fuel = if 8192 < fuel then some { after with console := console } else none := by
  have start : RangeMapped ({ s with kernelPageDirectory := L.pageDirStorage } : Paging L)
      { s with kernelPageDirectory := L.pageDirStorage } L.pageDirStorage 0 0 (tablesFor 0 0) :=
    .start static.ptCount static.directory
  obtain ⟨after,range,loop⟩ :=
    start.loop 0x2000000 8192 (pageDirStorage_apart L) rfl (by decide) (fun _ => by decide) (Nat.zero_le _)
  refine ⟨after,after.console ++ [⟨"Paging enabled!\n",[],[]⟩] ++
    [⟨"page_dir_storage:  0x%x\n",[L.pageDirStorage],[]⟩] ++
    [⟨"page_table_storage:0x%x\n",[L.pageTableStorage],[]⟩] ++
    [⟨"page_dirs:         0x%x\n",[L.pageDirs],[]⟩] ++
    [⟨"user_pt_storage:   0x%x - 0x%x\n",[L.userPtStorage,L.userPtStorage + maxUserPt * pageSize],[]⟩],
    range,fun fuel => ?_⟩
  have unfolded : s.initPaging fuel = (identityLoop L.pageDirStorage 0x2000000 fuel
      ({ s with kernelPageDirectory := L.pageDirStorage } : Paging L) ((0 + 0) * pageSize)).map _ := rfl
  rw [unfolded,loop]
  split <;> rfl

theorem Mapped.represents (mapped : Mapped first s 8192 8) (static : first.Static) :
    s.Represents ⟨⊥,⊥⟩ := by
  refine ⟨⟨mapped.kernel,fun i => mapped.filled i (by omega),mapped.empty,?_⟩,?_,?_,by simp,by simp⟩
  · exact fun i j inside => mapped.identity i j inside (by omega)
  · intro d used
    rw [mapped.pdUsed,static.pdUsed] at used
    contradiction
  · intro u used
    rw [mapped.userPtUsed,static.userPtUsed] at used
    contradiction

/-- With fuel for one turn more than there are pages `init_paging` returns; every directory
that is then made has the kernel's map and no page of its own. -/
theorem initPaging_spec (static : s.Static) (fuel : Nat) :
    if 8192 < fuel
    then ∃ after, s.initPaging fuel = some after ∧ after.Represents ⟨⊥,⊥⟩ ∧ after.pdUsed = s.pdUsed ∧
      after.userPtUsed = s.userPtUsed ∧ after.frameBitmap = s.frameBitmap ∧
      ∀ a, frameStart ≤ a → after.ram a = s.ram a
    else s.initPaging fuel = none := by
  obtain ⟨after,console,range,done⟩ := initPaging_eq static
  rw [done]
  split
  · have mapped := range.mapped rfl
    have represents := mapped.represents
      ⟨static.directory,static.pdUsed,static.userPtUsed,static.frameBitmap,static.ptCount⟩
    exact ⟨_,rfl,represents.printed,mapped.pdUsed,mapped.userPtUsed,mapped.frameBitmap,mapped.frames⟩
  · rfl

end Paging

end RudimentaryKernel
