import RudimentaryKernel.AddressSpaces

/-! The page tables suffice. Twelve directories and 6144 frames cannot use up 32 tables with
stacks at the top of user space and code from the load base on, so `map_page`, which returns
nothing, never fails. -/
namespace RudimentaryKernel

namespace Paging

variable {L : Layout} {s after : Paging L}

theorem identityLoop_lines {pageDir stop fuel va : Nat} (done : identityLoop pageDir stop fuel s va = some after)
    (line : Print) (member : line ∈ after.console) (missing : OutOfTables line) : line ∈ s.console := by
  induction fuel generalizing s va with
  | zero => contradiction
  | succ fuel ih =>
    rw [identityLoop] at done
    split at done
    · obtain rfl := Option.some.inj done
      exact member
    dsimp only at done
    split at done
    · unfold allocPageTable at done
      split at done
      · obtain rfl := Option.some.inj done
        simp only [Paging.kprintf,List.mem_append,List.mem_singleton] at member
        rcases member with (earlier | rfl) | rfl
        · exact earlier
        all_goals simp [OutOfTables] at missing
      · dsimp only at done
        split at done
        · obtain rfl := Option.some.inj done
          simp only [Paging.kprintf,List.mem_append,List.mem_singleton] at member
          rcases member with earlier | rfl
          · exact earlier
          · simp [OutOfTables] at missing
        · have earlier := ih done
          exact earlier
    · have earlier := ih done
      exact earlier

theorem initPaging_lines {fuel : Nat} (done : s.initPaging fuel = some after) (line : Print)
    (member : line ∈ after.console) (missing : OutOfTables line) : line ∈ s.console := by
  obtain ⟨mapped,looped,rfl⟩ := Option.map_eq_some_iff.mp done
  have printed : line ∈ mapped.console := by
    simp only [Paging.kprintf,List.mem_append,List.mem_singleton] at member
    rcases member with ((((earlier | rfl) | rfl) | rfl) | rfl) | rfl
    · exact earlier
    all_goals simp [OutOfTables] at missing
  exact identityLoop_lines looped line printed missing

end Paging

namespace Kernel

variable {L : Layout} {ι : Type} {k : Kernel L ι}

def Unrefused (k : Kernel L ι) : Prop := ∀ line ∈ k.paging.console, ¬Paging.OutOfTables line

theorem Unrefused.grown {after : Kernel L ι} {t spaces : Spaces} (unrefused : k.Unrefused)
    (grows : Paging.Grows k.paging after.paging t spaces) : after.Unrefused :=
  fun line member missing => unrefused line (grows.lines line member missing) missing

variable [DecidableEq ι]

theorem step_unrefused {after : Kernel L ι} (orderly : k.Orderly) (unrefused : k.Unrefused)
    (step : k.Does after) : after.Unrefused := by
  obtain ⟨t,represents,frugal⟩ := orderly
  cases step with
  | load name reads heap =>
    obtain ⟨spaces,_,_,grows,_⟩ := loadProgram_loads represents frugal (Prod.eta (k.loadProgram name reads heap)).symm
    exact unrefused.grown grows
  | create user entryFn heap =>
    obtain ⟨spaces,_,_,grows,_⟩ := threadCreate_grows represents frugal (Prod.eta (k.threadCreate user entryFn heap)).symm
    exact unrefused.grown grows
  | schedule other done => exact unrefused
  | write word inside used fits aligned allowed => exact unrefused

/-- After `init_paging`, however the calls of `load_program` and `thread_create` end, no page
table is refused: at most 30 are in use, `alloc_user_page_table` and `map_page` have not
reported any missing, a new user stack is mapped, and so is every page that `load_program`
has taken a frame for beside the one of the stack. -/
theorem page_tables_suffice (k : Kernel L ι)
    (reached : Reach (fun first => first.Booted ∧ first.Unrefused) Does k) :
    marks k.paging.userPtUsed maxUserPt ≤ 30 ∧ k.Unrefused ∧
    (∀ user heap after pd paddr, k.paging.forThread user heap = (after,pd,paddr) → paddr ≠ 0 →
      translate after.ram pd userStackBase = some (paddr,true)) ∧
    ∀ name reads heap after result, k.loadProgram name reads heap = (after,result) →
      ∀ page, k.paging.framesHeld + 1 + page < after.paging.framesHeld →
        ∃ pa, translate after.paging.ram (after.threads.tasks.pageDirectory heap.tcb)
          (progLoadBase + page * pageSize) = some (pa,true) := by
  obtain ⟨⟨t,represents,frugal⟩,unrefused⟩ := reached.invariant (fun k => k.Orderly ∧ k.Unrefused)
    (fun _ start => ⟨booted_orderly start.1,start.2⟩)
    (fun _ _ good step => ⟨step_orderly good.1 step,step_unrefused good.1 good.2 step⟩)
  refine ⟨frugal.few,unrefused,?_,?_⟩
  · intro user heap after pd paddr done taken
    obtain ⟨_,_,_,_,same,_,_,_,_,which⟩ := represents.forThread frugal user heap
    obtain ⟨rfl,rfl,rfl⟩ : _ ∧ _ ∧ _ := by simpa using same.symm.trans done
    obtain ⟨_,_,_,ready⟩ := which.resolve_left (fun none => taken none.2)
    exact (ready taken).2
  · intro name reads heap after result outcome page taken
    obtain ⟨spaces,_,_,_,few | ⟨found,d,n,_,address,loading,frames,_,pages⟩⟩ :=
      loadProgram_loads represents frugal outcome
    · omega
    obtain ⟨f,_,walk,_⟩ := pages page (by omega)
    have start : page * pageSize / pageSize = page := Nat.mul_div_cancel _ (by decide)
    have inside : page * pageSize / pageSize < frameCount := by
      have bound := after.paging.framesHeld_le
      omega
    refine ⟨frameAddress f + page * pageSize % pageSize,?_⟩
    rw [address,loading.translate_code loading.used inside,start,walk,Option.map_some]

omit [DecidableEq ι] in
theorem two_tables {d e : Fin threadLimit} {pa pb : Nat} (represents : k.paging.Represents t) (apart : d ≠ e)
    (first : k.paging.pdUsed d = true) (second : k.paging.pdUsed e = true)
    (one : translate k.paging.ram (L.address (.directory d)) userStackBase = some (pa,true))
    (two : translate k.paging.ram (L.address (.directory e)) userStackBase = some (pb,true)) :
    ∃ u v, u ≠ v ∧ k.paging.userPtUsed u = true ∧ k.paging.userPtUsed v = true := by
  have table : ∀ {c : Fin threadLimit} {p}, k.paging.pdUsed c = true →
      translate k.paging.ram (L.address (.directory c)) userStackBase = some (p,true) →
      ∃ u, t.table (c,pdIndex userStackBase) = some u := by
    intro c p used mapped
    rw [represents.translate_user used (by decide) (by decide),Option.map_eq_some_iff] at mapped
    obtain ⟨_,walk,_⟩ := mapped
    obtain ⟨u,link,_⟩ := Option.bind_eq_some_iff.mp walk
    exact ⟨u,link⟩
  obtain ⟨u,link⟩ := table first one
  obtain ⟨v,other⟩ := table second two
  refine ⟨u,v,?_,(represents.linked _ _ _ link).2.1,(represents.linked _ _ _ other).2.1⟩
  intro same
  obtain rfl := Fin.ext same
  exact apart (Prod.mk.inj (t.table.inj link other)).1

/-- A third user thread gets its stack beside the two that have their tables. -/
theorem third_stack_mapped : ∃ k : Kernel sampleLayout Unit,
    Reach (fun first => first.Booted ∧ first.Unrefused) Does k ∧ k.Unrefused ∧
    (∃ u v, u ≠ v ∧ k.paging.userPtUsed u = true ∧ k.paging.userPtUsed v = true) ∧
    marks k.paging.userPtUsed maxUserPt ≤ 30 ∧
    ∃ after pd paddr, k.paging.forThread true (sampleHeap 2) = (after,pd,paddr) ∧ paddr ≠ 0 ∧
      translate after.ram pd userStackBase = some (paddr,true) := by
  obtain ⟨k,booted,_,done,directories,frames⟩ := @sample_boots Unit
  have reached : Reach (fun first => first.Booted ∧ first.Unrefused) Does k.twoThreads :=
    twoThreads_reached ⟨booted,fun line member missing => List.not_mem_nil (Paging.initPaging_lines done line member missing)⟩
  obtain ⟨used,bits,one,two,_⟩ := twoThreads_granted (booted_orderly booted) directories frames
  obtain ⟨t,represents,_⟩ := reached_orderly (twoThreads_reached booted)
  generalize k.twoThreads = k at reached used bits one two represents
  have tables : ∃ u v, u ≠ v ∧ k.paging.userPtUsed u = true ∧ k.paging.userPtUsed v = true := by
    refine two_tables (d := ⟨0,by decide⟩) (e := ⟨1,by decide⟩) represents (by decide) ?_ ?_ one two
    · rw [used]
      rfl
    · rw [used]
      rfl
  have third : firstClear k.paging.pdUsed threadLimit 0 = some (⟨2,by decide⟩ : Fin threadLimit).val := by
    rw [used]
    rfl
  have frame : firstClear (bitmapGet k.paging.frameBitmap) frameCount 0 = some 2 := by
    rw [bits]
    rfl
  obtain ⟨few,unrefused,stack,_⟩ := page_tables_suffice k reached
  obtain ⟨answer,_⟩ := forThread_takes (sampleHeap 2) (by decide) (by decide) third frame
  cases granted : k.paging.forThread true (sampleHeap 2) with | mk after pages => ?_
  rw [granted] at answer
  obtain rfl : pages = _ := answer
  have taken : frameStart + 2 * pageSize ≠ 0 := by decide
  exact ⟨k,reached,unrefused,tables,few,_,_,_,granted,taken,stack _ _ _ _ _ granted taken⟩

end Kernel

end RudimentaryKernel
