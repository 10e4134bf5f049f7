import RudimentaryKernel.LoadSizes

/-! The memory of user programs. Each has one of its own: what it reads is what it was given and
then wrote, whatever is loaded and whatever other programs do. The page with `call_exit`, where a
program that returns from its entry goes on, is none of that memory. -/
namespace RudimentaryKernel

open Function

/-- What an instruction fetch of ring 3 finds: an address, or the code of a page fault, with bit 0
for a page that is there and bit 2 for user mode. -/
def userFetch (ram : Ram) (dir va : Nat) : Except Word Nat :=
  match translate ram dir va with
  | some (pa,true) => .ok pa
  | some (_,false) => .error 5
  | none => .error 4

namespace Kernel

variable {L : Layout} {ι : Type} {k after : Kernel L ι} {t spaces : Spaces} {d : Fin threadLimit} {va : Nat}
  {word : Word}

/-- The word that ring 3 reads with directory `d`, at an address divisible by four. -/
def userWord (k : Kernel L ι) (d va : Nat) : Option Word :=
  if va % 4 = 0 then
    match translate k.paging.ram (L.pageDirs + d * pageSize) va with
    | some (pa,true) => some (k.paging.ram pa)
    | _ => none
  else none

def Writes (d va : Nat) (word : Word) (k after : Kernel L ι) : Prop :=
  d < threadLimit ∧ k.paging.pdUsed d = true ∧ va < 2^32 ∧ va % 4 = 0 ∧ ∃ pa,
    translate k.paging.ram (L.pageDirs + d * pageSize) va = some (pa,true) ∧
    after = { k with paging := k.paging.store pa word }

/-- Anything that is no write of the program with directory `d`. -/
inductive Meanwhile [DecidableEq ι] (d : Nat) (k : Kernel L ι) : Kernel L ι → Prop where
  | load (name : Nat → Byte) (reads : DiskReads) (heap : HeapGrants) :
      Meanwhile d k (k.loadProgram name reads heap).1
  | create (user : Bool) (entryFn : Word) (heap : HeapGrants) : Meanwhile d k (k.threadCreate user entryFn heap).1
  | schedule {op fuel threads} (other : ∀ user grants, op ≠ .create user grants)
      (done : k.threads.perform fuel op = some (some threads)) : Meanwhile d k { k with threads := threads }
  | write {e va word after} (other : e ≠ d) (writes : Writes e va word k after) : Meanwhile d k after

/-- The kernel goes on, and the program with directory `d` has made the writes of a list. -/
inductive Acts [DecidableEq ι] (d : Nat) : Kernel L ι × List (Nat × Word) → Kernel L ι × List (Nat × Word) → Prop where
  | other {k after log} (step : Meanwhile d k after) : Acts d (k,log) (after,log)
  | own {k after log va word} (writes : Writes d va word k after) : Acts d (k,log) (after,log ++ [(va,word)])

theorem Does.acts [DecidableEq ι] (does : k.Does after) (d : Nat) (log : List (Nat × Word)) :
    ∃ log', Acts d (k,log) (after,log') := by
  cases does with
  | load name reads heap => exact ⟨_,.other (.load name reads heap)⟩
  | create user entryFn heap => exact ⟨_,.other (.create user entryFn heap)⟩
  | schedule other done => exact ⟨_,.other (.schedule other done)⟩
  | @write e va pa word inside used fits aligned allowed =>
    have writes : Writes e va word k { k with paging := k.paging.store pa word } :=
      ⟨inside,used,fits,aligned,pa,allowed,rfl⟩
    by_cases own : e = d
    · subst own
      exact ⟨_,.own writes⟩
    · exact ⟨_,.other (.write own writes)⟩

/-- The word at `va` of directory `d` is the one in its frame. -/
structure Holds (k : Kernel L ι) (t : Spaces) (d : Fin threadLimit) (va : Nat) (f : Fin frameCount) (word : Word) : Prop where
  represents : k.paging.Represents t
  frugal : k.paging.Frugal
  walk : t.walk d (pdIndex va) (ptIndex va) = some f
  content : k.paging.ram (frameAddress f + va % pageSize) = word

theorem Holds.used {f : Fin frameCount} (holds : Holds k t d va f word) : k.paging.pdUsed d = true := by
  obtain ⟨u,link,_⟩ := Option.bind_eq_some_iff.mp holds.walk
  exact (holds.represents.linked _ _ _ link).1

theorem Holds.found {f : Fin frameCount} (holds : Holds k t d va f word) (fits : va < 2^32) :
    translate k.paging.ram (L.pageDirs + d * pageSize) va = some (frameAddress f + va % pageSize,true) := by
  obtain ⟨u,link,_⟩ := Option.bind_eq_some_iff.mp holds.walk
  have high := (holds.represents.linked _ _ _ link).2.2
  have above : 0x2000000 ≤ va := by
    unfold pdIndex at high
    omega
  have found := holds.represents.translate_user holds.used above fits
  rw [holds.walk] at found
  exact found

theorem Holds.read {f : Fin frameCount} (holds : Holds k t d va f word) (fits : va < 2^32) (aligned : va % 4 = 0) :
    k.userWord d va = some word := by
  rw [userWord,if_pos aligned,holds.found fits]
  exact congrArg some holds.content

theorem userWord_holds (represents : k.paging.Represents t) (frugal : k.paging.Frugal) (used : k.paging.pdUsed d = true)
    (fits : va < 2^32) (read : k.userWord d va = some word) :
    va % 4 = 0 ∧ ∃ f, Holds k t d va f word := by
  by_cases aligned : va % 4 = 0
  swap
  · rw [userWord,if_neg aligned] at read
    contradiction
  refine ⟨aligned,?_⟩
  rw [userWord,if_pos aligned,show L.pageDirs + d * pageSize = L.address (.directory d) from rfl] at read
  by_cases low : va < 0x2000000
  · rw [represents.translate_kernel used low] at read
    contradiction
  · rw [represents.translate_user used (by omega) fits] at read
    cases walk : t.walk d (pdIndex va) (ptIndex va) with
    | none =>
      rw [walk] at read
      contradiction
    | some f =>
      rw [walk] at read
      exact ⟨f,represents,frugal,walk,Option.some.inj read⟩

/-- A write goes to a frame of the writer's directory. -/
theorem Writes.frame {e : Nat} {va' : Nat} {new : Word} (writes : Writes e va' new k after) (represents : k.paging.Represents t) :
    ∃ (inside : e < threadLimit) (g : Fin frameCount), t.walk ⟨e,inside⟩ (pdIndex va') (ptIndex va') = some g ∧
      after = { k with paging := k.paging.store (frameAddress g + va' % pageSize) new } := by
  obtain ⟨inside,used,fits,aligned,pa,allowed,rfl⟩ := writes
  have allowed : translate k.paging.ram (L.address (.directory ⟨e,inside⟩)) va' = some (pa,true) := allowed
  refine ⟨inside,?_⟩
  by_cases low : va' < 0x2000000
  · rw [represents.translate_kernel (d := ⟨e,inside⟩) used low] at allowed
    simp at allowed
  · rw [represents.translate_user (d := ⟨e,inside⟩) used (by omega) fits,Option.map_eq_some_iff] at allowed
    obtain ⟨g,walk,same⟩ := allowed
    exact ⟨g,walk,by rw [(Prod.mk.inj same).1]⟩

theorem frameAddress_ne {f g : Fin frameCount} {o p : Nat} (inside : o < pageSize) (inside' : p < pageSize)
    (apart : f ≠ g ∨ o ≠ p) : frameAddress f + o ≠ frameAddress g + p := by
  intro same
  have frames : (f : Nat) = g := by
    simp only [frameAddress,pageSize] at same inside inside'
    omega
  rcases apart with other | other
  · exact other (Fin.ext frames)
  · rw [Fin.ext frames] at same
    omega

theorem Holds.written {f g : Fin frameCount} {p : Nat} {new : Word} (holds : Holds k t d va f word) (inside : p < pageSize)
    (apart : f ≠ g ∨ va % pageSize ≠ p) :
    Holds { k with paging := k.paging.store (frameAddress g + p) new } t d va f word := by
  obtain ⟨_,low,_⟩ := frameAddress_placed g
  refine ⟨holds.represents.stored (by omega),holds.frugal,holds.walk,?_⟩
  have other := frameAddress_ne (Nat.mod_lt va (by decide : 0 < pageSize)) inside apart
  change update k.paging.ram (frameAddress g + p) new (frameAddress f + va % pageSize) = word
  rw [update_of_ne other,holds.content]

theorem Holds.grown {f : Fin frameCount} (holds : Holds k t d va f word) (represents : after.paging.Represents spaces)
    (frugal : after.paging.Frugal) (grows : Paging.Grows k.paging after.paging t spaces) :
    Holds after spaces d va f word := by
  obtain ⟨u,_,found⟩ := Option.bind_eq_some_iff.mp holds.walk
  obtain ⟨_,marked⟩ := holds.represents.held _ _ _ found
  refine ⟨represents,frugal,grows.walks _ _ _ _ holds.walk,?_⟩
  rw [grows.contents f (.inl marked) _ (Nat.mod_lt _ (by decide))]
  exact holds.content

theorem Holds.meanwhile [DecidableEq ι] {f : Fin frameCount} (holds : Holds k t d va f word) (step : Meanwhile d k after) :
    ∃ spaces, Holds after spaces d va f word := by
  cases step with
  | load name reads heap =>
    obtain ⟨spaces,kept,frugal,grows,_⟩ := loadProgram_loads holds.represents holds.frugal
      (Prod.eta (k.loadProgram name reads heap)).symm
    exact ⟨spaces,holds.grown kept frugal grows⟩
  | create user entryFn heap =>
    obtain ⟨spaces,kept,frugal,grows,_⟩ := threadCreate_grows holds.represents holds.frugal
      (Prod.eta (k.threadCreate user entryFn heap)).symm
    exact ⟨spaces,holds.grown kept frugal grows⟩
  | schedule other done => exact ⟨t,holds.represents,holds.frugal,holds.walk,holds.content⟩
  | @write e va' new _ other writes =>
    obtain ⟨inside,g,walk,rfl⟩ := writes.frame holds.represents
    refine ⟨t,holds.written (Nat.mod_lt _ (by decide)) (.inl ?_)⟩
    rintro rfl
    obtain ⟨same,_⟩ := TwoLevel.walk_injective walk holds.walk
    exact other (congrArg Fin.val same)

/-- A program changes the word it writes to and no other of its own. -/
theorem Holds.own {f : Fin frameCount} {va' : Nat} {new : Word} (holds : Holds k t d va f word) (fits : va < 2^32)
    (writes : Writes d va' new k after) : Holds after t d va f (if va = va' then new else word) := by
  obtain ⟨_,_,fits',_⟩ := id writes
  obtain ⟨inside,g,walk,rfl⟩ := writes.frame holds.represents
  split
  · rename_i same
    subst same
    obtain rfl : f = g := Option.some.inj (holds.walk.symm.trans walk)
    obtain ⟨_,low,_⟩ := frameAddress_placed f
    exact ⟨holds.represents.stored (by omega),holds.frugal,holds.walk,update_self ..⟩
  · rename_i other
    refine holds.written (Nat.mod_lt _ (by decide)) ?_
    by_contra none
    rw [not_or,not_not,not_not] at none
    obtain ⟨rfl,offset⟩ := none
    obtain ⟨_,row,column⟩ := TwoLevel.walk_injective walk holds.walk
    unfold pdIndex at row
    unfold ptIndex at column
    unfold pageSize at offset
    omega

theorem store_here (s : Paging L) (a : Nat) (word : Word) : (s.store a word).ram a = word := update_self ..

theorem forThread_stack {s paging : Paging L} {heap : HeapGrants} {pd paddr : Nat}
    (done : s.forThread true heap = (paging,pd,paddr)) (real : paddr ≠ 0) :
    paging.ram (paddr + (pageSize - 8)) = L.callExit := by
  unfold Paging.forThread at done
  split at done
  · exact absurd (Prod.mk.inj (Prod.mk.inj done).2).2.symm real
  dsimp only at done
  split at done
  · exact absurd (Prod.mk.inj (Prod.mk.inj done).2).2.symm real
  split at done
  · exact absurd (Prod.mk.inj (Prod.mk.inj done).2).2.symm real
  · obtain ⟨rfl,answers⟩ := Prod.mk.inj done
    obtain ⟨_,same⟩ := Prod.mk.inj answers
    have place : paddr + (pageSize - 8) = paddr + pageSize - 8 := by
      unfold pageSize
      omega
    rw [same,place]
    exact store_here ..

theorem loadProgram_stack (represents : k.paging.Represents t) (frugal : k.paging.Frugal) {name : Nat → Byte}
    {reads : DiskReads} {heap : HeapGrants} (outcome : k.loadProgram name reads heap = (after,0)) :
    ∃ spaces d f, after.threads.tasks.pageDirectory heap.tcb = L.address (.directory d) ∧
      Holds after spaces d userStackPointer f L.callExit := by
  by_cases listed : ∃ found, KernelState.Lists reads name found
  swap
  · obtain ⟨console,same⟩ := loadProgram_unlisted k heap listed
    exact absurd (Prod.mk.inj (same.symm.trans outcome)).2 (by decide)
  obtain ⟨found,listed⟩ := listed
  rw [loadProgram_listed k heap listed] at outcome
  obtain ⟨paging,pd,paddr,spaces,done,kept,affordable,_,_,which⟩ := represents.forThread frugal true heap
  cases created : k.threadCreate true (entryVaddr found) heap with | mk made thread => ?_
  rw [created] at outcome
  dsimp only at outcome
  split at outcome
  · exact absurd (Prod.mk.inj outcome).2 (by decide)
  rename_i real
  have created := created
  rw [threadCreate,done] at created
  dsimp only at created
  cases tasks : k.threads.tasks.threadCreate true ⟨heap.tcb,heap.tid,pd,heap.stack,paddr⟩ with | mk threads t => ?_
  rw [tasks] at created
  obtain ⟨rfl,rfl⟩ := Prod.mk.inj created
  obtain ⟨directory,stack,rfl,same⟩ := Tasks.threadCreate_directory tasks real
  obtain ⟨d,rfl,used,ready⟩ := which.resolve_left (fun none => directory none.1)
  obtain ⟨loading,mapped⟩ := ready (stack rfl)
  rw [kept.translate_user used (by decide) (by decide),Option.map_eq_some_iff] at mapped
  obtain ⟨f,walk,place⟩ := mapped
  rw [same] at outcome
  generalize created : Kernel.mk paging ⟨threads,_⟩ k.console _ = made at outcome
  have begins : made.paging.Loading spaces d 0 := created ▸ loading
  have begun : Holds made spaces d userStackPointer f L.callExit := by
    rw [← created]
    have frame : frameAddress f = paddr := (Nat.add_zero _).symm.trans (Prod.mk.inj place).1
    refine ⟨kept,affordable,walk,?_⟩
    rw [frame]
    exact forThread_stack done (stack rfl)
  obtain ⟨n,final,loaded,grows,_⟩ := loadPages_loads begins _ outcome
  have threads' := (loadPages_threads reads found (kname name) (L.address (.directory d)) (KernelState.numPages found) 0
    made).1
  rw [outcome] at threads'
  refine ⟨final,d,f,?_,begun.grown loaded.toRepresents loaded.frugal grows⟩
  rw [threads',← created]
  exact same

variable [DecidableEq ι]

theorem Holds.run {f : Fin frameCount} (holds : Holds k t d va f word) (fits : va < 2^32)
    {now : Kernel L ι × List (Nat × Word)} (run : Relation.ReflTransGen (Acts d) (k,[]) now) :
    ∃ t, Holds now.1 t d va f (now.2.foldl (fun memory x => update memory x.1 x.2) (fun _ => word) va) := by
  induction run with
  | refl => exact ⟨t,holds⟩
  | tail _ step ih =>
    obtain ⟨t,holds⟩ := ih
    cases step with
    | other step => exact holds.meanwhile step
    | @own k after log va' new writes =>
      have written := holds.own fits writes
      dsimp only at written ⊢
      rw [List.foldl_append,List.foldl_cons,List.foldl_nil,update_apply]
      exact ⟨t,written⟩

def oneSector : DiskReads := ataReads wholeDrive (listingDrive 2 1) (fun _ => true)

theorem one_sector_loads : ∃ k : Kernel sampleLayout Unit, Reach Booted Does k ∧
    (k.loadProgram KernelState.sampleName oneSector ⟨0x120000,0,0x130000⟩).2 = 0 := by
  obtain ⟨k,booted,directories,frames,_⟩ := booted_with sampleLayout Unit 0
  obtain ⟨found,lists,place,size⟩ := listingDrive_lists 2 1
  obtain ⟨returns,_⟩ := loadProgram_returns _ _ k ⟨0x120000,0,0x130000⟩ lists
  have pages := CreateImage.numPages_wrapped found
  rw [size] at pages
  have one : KernelState.numPages found = 1 := pages
  refine ⟨k,.start booted,returns.mpr ⟨by decide,by decide,⟨0,by decide,directories 0⟩,by decide,?_,?_⟩⟩
  · rw [one,frames]
    decide
  · intro j _ inside
    rw [size] at inside
    obtain rfl : j = 0 := Nat.lt_one_iff.mp inside
    rw [sectorLba_eq,place,ataReads,ataReadSector_whole (by decide)]
    rfl

/-- **A program's memory is its own.** Along every run, a word that a program could read at the
beginning is, as long as the run lasts, what the program itself has last written there, or else
what it was, whatever is loaded or created, whoever is scheduled and whatever other programs write. -/
theorem user_memory_private (k : Kernel L ι) (reached : Reach Booted Does k) (d : Nat) (inside : d < threadLimit)
    (used : k.paging.pdUsed d = true) (after : Kernel L ι) (log : List (Nat × Word))
    (run : Relation.ReflTransGen (Acts d) (k,[]) (after,log)) (va : Nat) (fits : va < 2^32) (word : Word)
    (read : k.userWord d va = some word) :
    after.userWord d va = some (log.foldl (fun memory x => update memory x.1 x.2) (fun _ => word) va) := by
  obtain ⟨t,represents,frugal⟩ := reached_orderly reached
  obtain ⟨aligned,f,begun⟩ := userWord_holds (d := ⟨d,inside⟩) represents frugal used fits read
  obtain ⟨t,holds⟩ := begun.run fits run
  exact holds.read fits aligned

/-- Two programs write to the same address, a third thread is created, and the first one reads what it wrote. -/
theorem two_programs_write : ∃ k after : Kernel sampleLayout Unit, Reach Booted Does k ∧
    (∃ word, k.userWord 0 userStackBase = some word) ∧ (∃ between, Writes 1 userStackBase 9 k between) ∧
    Relation.ReflTransGen (Acts 0) (k,[]) (after,[(userStackBase,7)]) ∧ after.userWord 0 userStackBase = some 7 := by
  obtain ⟨k,booted,_,_,directories,frames⟩ := @sample_boots Unit
  have reached := twoThreads_reached booted
  obtain ⟨used,_,first,second,_⟩ := twoThreads_granted (booted_orderly booted) directories frames
  generalize k.twoThreads = k at reached used first second
  have usedFirst : k.paging.pdUsed 0 = true := by
    rw [used]
    rfl
  have usedSecond : k.paging.pdUsed 1 = true := by
    rw [used]
    rfl
  obtain ⟨t,represents,frugal⟩ := reached_orderly reached
  have read : k.userWord 0 userStackBase = some (k.paging.ram frameStart) := by
    rw [userWord,first]
    rfl
  obtain ⟨_,f,holds⟩ := userWord_holds (d := ⟨0,by decide⟩) represents frugal usedFirst (by decide) read
  have other : Writes 1 userStackBase 9 k _ := ⟨by decide,usedSecond,by decide,by decide,_,second,rfl⟩
  obtain ⟨t,holds⟩ := holds.meanwhile (.write (by decide) other)
  have own : Writes 0 userStackBase 7 _ _ := ⟨by decide,holds.used,by decide,by decide,_,holds.found (by decide),rfl⟩
  have run := ((Relation.ReflTransGen.single (@Acts.other _ _ _ 0 _ _ [] (.write (by decide) other))).tail
    (.own own)).tail (.other (.create true 0 (sampleHeap 2)))
  exact ⟨k,_,reached,⟨_,read⟩,⟨_,other⟩,run,
    user_memory_private k reached 0 (by decide) usedFirst _ _ run _ (by decide) _ read⟩

theorem foldl_update_untouched {α β : Type} [DecidableEq α] {log : List (α × β)} {f : α → β} {a : α}
    (untouched : ∀ x ∈ log, x.1 ≠ a) : log.foldl (fun f x => update f x.1 x.2) f a = f a := by
  induction log generalizing f with
  | nil => rfl
  | cons x log ih =>
    rw [List.foldl_cons,ih (fun y member => untouched y (List.mem_cons_of_mem _ member)),
      update_of_ne (Ne.symm (untouched x List.mem_cons_self))]

/-- **A program that returns does not reach `call_exit`.** Whatever happens behind a successful
`load_program`, the return address of the program's entry stays that of `call_exit` as long as the
program does not overwrite it; a fetch from there in ring 3 finds a page that is the kernel's, and
is a page fault of user mode. -/
theorem returning_program_faults (k : Kernel L ι) (reached : Reach Booted Does k) (low : L.callExit.toNat < 0x2000000)
    (name : Nat → Byte) (reads : DiskReads) (heap : HeapGrants) (loaded : (k.loadProgram name reads heap).2 = 0) :
    ∃ d < threadLimit, (k.loadProgram name reads heap).1.threads.tasks.pageDirectory heap.tcb = L.pageDirs + d * pageSize ∧
      ∀ after log, Relation.ReflTransGen (Acts d) ((k.loadProgram name reads heap).1,[]) (after,log) →
        ((∀ x ∈ log, x.1 ≠ userStackPointer) → after.userWord d userStackPointer = some L.callExit) ∧
        userFetch after.paging.ram (L.pageDirs + d * pageSize) L.callExit.toNat = .error 5 := by
  obtain ⟨t,represents,frugal⟩ := reached_orderly reached
  have outcome : k.loadProgram name reads heap = ((k.loadProgram name reads heap).1,0) := by
    rw [← loaded]
  obtain ⟨spaces,d,f,directory,holds⟩ := loadProgram_stack represents frugal outcome
  refine ⟨d,d.isLt,directory,?_⟩
  intro after log run
  obtain ⟨t,later⟩ := holds.run (by decide) run
  constructor
  · intro untouched
    rw [later.read (by decide) (by decide),foldl_update_untouched untouched]
  · have kernel := later.represents.translate_kernel later.used low
    rw [userFetch,show L.pageDirs + d * pageSize = L.address (.directory d) from rfl,kernel]

/-- A program of one sector returns into a page fault. -/
theorem one_sector_returns : ∃ k : Kernel sampleLayout Unit, ∃ d < threadLimit,
    (k.loadProgram KernelState.sampleName oneSector ⟨0x120000,0,0x130000⟩).1.userWord d userStackPointer = some 0x11000 ∧
    userFetch (k.loadProgram KernelState.sampleName oneSector ⟨0x120000,0,0x130000⟩).1.paging.ram
      (sampleLayout.pageDirs + d * pageSize) 0x11000 = .error 5 := by
  obtain ⟨k,reached,loaded⟩ := one_sector_loads
  obtain ⟨d,inside,_,back⟩ := returning_program_faults k reached (by decide) _ _ _ loaded
  obtain ⟨stack,fetch⟩ := back _ _ .refl
  exact ⟨k,d,inside,stack (fun x none => absurd none List.not_mem_nil),fetch⟩

end Kernel

end RudimentaryKernel
