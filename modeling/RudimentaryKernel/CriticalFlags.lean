import RudimentaryKernel.Critical

/-! The interrupt flag behind the outermost `leave_critical`. The saved flags are one
global word, so the caller's flag comes back only when no two threads have sections
open across each other, and while fewer than `2^32` sections are open. -/
namespace RudimentaryKernel.Cpu

open Function

variable {τ : Type} [Fintype τ] {s t : Cpu τ} {c : Context} {u next : τ}

/-- In `enter_critical`, with `cli` still to come. -/
def Entering (p : Position) : Prop :=
  p = .pushFlags ∨ p = .popEax ∨ p = .loadDepth ∨ p = .testDepth ∨ p = .branchEntered ∨
    p = .storeFlags ∨ p = .disable

/-- With interrupts on, `enter_critical` runs only while no section is open; with them
off, it stores the flags only while nobody is suspended between its own store and `cli`;
a thread gives up the processor inside a section only while no other thread is in one;
and the counter does not wrap. -/
def Apart (s : Cpu τ) : Event τ → Prop
  | .execute => s.Bounded .execute ∧ (Entering s.context.position → s.flag = true → s.criticalDepth = 0) ∧
      (s.context.position = .storeFlags → s.flag = false →
        ∀ t, t ≠ s.running → (s.thread t).position ≠ .disable)
  | .block _ | .yield _ => 0 < s.context.nest → s.criticalDepth = s.context.nest
  | _ => True

instance (p : Position) : Decidable (Entering p) := inferInstanceAs (Decidable (_ ∨ _))

instance [DecidableEq τ] (s : Cpu τ) : ∀ e, Decidable (s.Apart e)
  | .execute => inferInstanceAs (Decidable (_ ∧ _))
  | .block _ | .yield _ => inferInstanceAs (Decidable (_ → _))
  | .enter | .leave | .unblock _ | .create _ | .timer _ | .trap | .iret | .sti | .exit _ =>
    isTrue trivial

/-- What a thread with interrupt flag `flag` knows at each instruction. -/
def Knows (flag : Bool) (depth : Nat) (saved : Bool) (c : Context) : Prop :=
  match c.position with
  | .own | .returnEnter | .decrement => True
  | .pushFlags | .returnLeave => c.nest = 0 → c.outer = flag
  | .popEax => (c.nest = 0 → c.outer = flag) ∧ c.slot = flag
  | .loadDepth => (c.nest = 0 → c.outer = flag) ∧ c.eax = flag
  | .testDepth => (c.nest = 0 → c.outer = flag) ∧ c.eax = flag ∧
      (flag = true → c.ecx = 0) ∧ (flag = false → c.ecx = depth)
  | .branchEntered => (c.nest = 0 → c.outer = flag) ∧ c.eax = flag ∧
      (flag = true → c.zero = true) ∧ (flag = false → (c.zero = true ↔ depth = 0))
  | .storeFlags => (c.nest = 0 → c.outer = flag) ∧ c.eax = flag ∧ (flag = false → depth = 0)
  | .disable => c.nest = 0 → c.outer = flag ∧
      (flag = true → saved = true) ∧ (flag = false → depth = 0 → saved = false)
  | .increment | .branchNested => c.nest = 0 →
      (depth = 0 → saved = c.outer) ∧ (0 < depth → c.outer = false)
  | .pushSaved => c.nest = 0 → saved = c.outer
  | .popFlags => c.nest = 0 → c.slot = c.outer

/-- Of the threads off the processor at most one has a section open, and the saved flag
is its own; a thread suspended by the timer still knows what it knew. -/
structure Restores (s : Cpu τ) : Prop where
  excludes : s.Excludes
  here : Knows s.flag s.criticalDepth s.criticalSavedFlags s.context
  parked : ∀ t, t ≠ s.running → (s.thread t).position ≠ .own →
    (s.thread t).resume = .iret true ∧ Knows true s.criticalDepth s.criticalSavedFlags (s.thread t)
  others : ∀ t, t ≠ s.running → 0 < (s.thread t).nest →
    s.criticalSavedFlags = (s.thread t).outer ∧
      (s.thread t).nest + s.context.nest = s.criticalDepth
  inside : 0 < s.context.nest →
    (s.context.nest < s.criticalDepth → s.context.outer = false) ∧
    (s.context.nest = s.criticalDepth → s.criticalSavedFlags = s.context.outer)

theorem Apart.bounded {e : Event τ} (apart : s.Apart e) : s.Bounded e := by
  cases e with
  | execute => exact apart.1
  | _ => trivial

variable [DecidableEq τ]

/-- A suspended thread depends on the saved flag only right before `cli`. -/
theorem Knows.suspended {depth depth' : Nat} {saved saved' : Bool}
    (knows : Knows true depth saved c) (quiet : ¬Late c.position)
    (kept : c.position = .disable → saved' = saved ∨ saved' = true) : Knows true depth' saved' c := by
  unfold Knows at knows ⊢
  unfold Late at quiet
  cases position : c.position <;> simp_all
  rcases kept with same | set
  · rw [same]
    exact fun outside => (knows outside).2
  · exact fun _ => set

theorem Restores.after (restores : s.Restores) (excludes : t.Excludes)
    (running : t.running = s.running) (thread : t.thread = update s.thread s.running c)
    (counter : t.criticalDepth + s.context.nest = s.criticalDepth + c.nest)
    (here : Knows t.flag t.criticalDepth t.criticalSavedFlags c)
    (saved : t.criticalSavedFlags = s.criticalSavedFlags ∨ s.criticalDepth = 0 ∧
      (t.criticalSavedFlags = true ∨ ∀ u, u ≠ s.running → (s.thread u).position ≠ .disable))
    (inside : 0 < c.nest → (c.nest < t.criticalDepth → c.outer = false) ∧
      (c.nest = t.criticalDepth → t.criticalSavedFlags = c.outer)) : t.Restores := by
  have context : t.context = c := by rw [Cpu.context,running,thread,update_self]
  refine ⟨excludes,by rw [context]; exact here,?_,?_,by rw [context]; exact inside⟩
  · intro u other
    rw [running] at other
    rw [thread,update_of_ne other]
    intro busy
    obtain ⟨mode,knows⟩ := restores.parked u other busy
    refine ⟨mode,knows.suspended (restores.excludes.away u other).1 ?_⟩
    intro waiting
    rcases saved with same | ⟨_,set | free⟩
    · exact .inl same
    · exact .inr set
    · exact absurd waiting (free u other)
  · intro u other
    rw [running] at other
    rw [thread,update_of_ne other,context]
    intro nested
    obtain ⟨own,sum⟩ := restores.others u other nested
    have bound := restores.excludes.nest_le u
    refine ⟨?_,by omega⟩
    rcases saved with same | ⟨zero,_⟩
    · rw [same]
      exact own
    · omega

theorem Restores.plain (restores : s.Restores) (excludes : (s.put c).Excludes)
    (nest : c.nest = s.context.nest) (outer : c.outer = s.context.outer)
    (here : Knows s.flag s.criticalDepth s.criticalSavedFlags c) : (s.put c).Restores := by
  apply restores.after excludes rfl rfl (by rw [nest]; rfl) here (.inl rfl)
  rw [nest,outer]
  exact restores.inside

theorem Excludes.pair_le (excludes : s.Excludes) {u v : τ} (different : u ≠ v) :
    (s.thread u).nest + (s.thread v).nest ≤ s.criticalDepth := by
  rw [excludes.total,openSections,← Finset.add_sum_erase _ (fun t => (s.thread t).nest) (Finset.mem_univ u)]
  apply Nat.add_le_add_left
  exact Finset.single_le_sum (f := fun t => (s.thread t).nest) (fun _ _ => Nat.zero_le _)
    (Finset.mem_erase.mpr ⟨Ne.symm different,Finset.mem_univ v⟩)

/-- A switch keeps what is known if nobody else is inside a section that is left open. -/
theorem Restores.switched (restores : s.Restores) {how : Resume} {status : Status}
    (excludes : ({ s with flag := false }.switchTo how status next).Excludes)
    (alone : 0 < s.context.nest → s.criticalDepth = s.context.nest)
    (busy : s.context.position ≠ .own → how = .iret true ∧ s.flag = true) :
    ({ s with flag := false }.switchTo how status next).Restores := by
  generalize after : ({ s with flag := false } : Cpu τ).switchTo how status next = t at excludes ⊢
  have thread : t.thread = update s.thread s.running { s.context with resume := how, status := status } := by
    rw [← after]; rfl
  have running : t.running = next := by rw [← after]; rfl
  have depth : t.criticalDepth = s.criticalDepth := by rw [← after]; rfl
  have saved : t.criticalSavedFlags = s.criticalSavedFlags := by rw [← after]; rfl
  have flag : (t.thread next).resume = .iret true → t.flag = true := by
    intro mode
    rw [← after] at mode ⊢
    rw [switchTo_flag,mode]
  have old : ∀ u, (t.thread u).position = (s.thread u).position ∧ (t.thread u).nest = (s.thread u).nest ∧
      (t.thread u).outer = (s.thread u).outer := by
    intro u
    by_cases same : u = s.running
    · rw [thread,same,update_self]
      exact ⟨rfl,rfl,rfl⟩
    · rw [thread,update_of_ne same]
      exact ⟨rfl,rfl,rfl⟩
  -- every thread that is not in its own code was or is now suspended by the timer
  have parked : ∀ u, (t.thread u).position ≠ .own → (t.thread u).resume = .iret true ∧
      Knows true t.criticalDepth t.criticalSavedFlags (t.thread u) := by
    intro u
    rw [depth,saved]
    by_cases same : u = s.running
    · rw [thread,same,update_self]
      intro away
      obtain ⟨mode,enabled⟩ := busy away
      have here := restores.here
      rw [enabled] at here
      exact ⟨mode,here⟩
    · rw [thread,update_of_ne same]
      exact restores.parked u same
  -- whoever is inside a section is there alone
  have inside : ∀ u, 0 < (s.thread u).nest → (s.thread u).nest = s.criticalDepth ∧
      s.criticalSavedFlags = (s.thread u).outer := by
    intro u nested
    by_cases same : u = s.running
    · subst u
      have whole : s.criticalDepth = (s.thread s.running).nest := alone nested
      exact ⟨whole.symm,(restores.inside nested).2 whole.symm⟩
    · obtain ⟨own,sum⟩ := restores.others u same nested
      refine ⟨?_,own⟩
      rcases Nat.eq_zero_or_pos s.context.nest with outside | also
      · omega
      · have whole := alone also
        omega
  refine ⟨excludes,?_,fun u _ => parked u,?_,?_⟩
  · by_cases own : (t.thread next).position = .own
    · rw [context,running]
      simp [Knows,own]
    · obtain ⟨mode,knows⟩ := parked next own
      rw [context,running,flag mode]
      exact knows
  · intro u other nested
    rw [running] at other
    rw [context,running,saved,depth,(old u).2.1,(old u).2.2,(old next).2.1]
    rw [(old u).2.1] at nested
    obtain ⟨whole,own⟩ := inside u nested
    have pair := restores.excludes.pair_le other
    exact ⟨own,by omega⟩
  · intro nested
    rw [context,running] at nested ⊢
    rw [saved,depth,(old next).2.1,(old next).2.2]
    rw [(old next).2.1] at nested
    obtain ⟨whole,own⟩ := inside next nested
    exact ⟨fun more => by omega,fun _ => own⟩

theorem Restores.other (restores : s.Restores) (status : Status) :
    Restores { s with thread := update s.thread u { s.thread u with status := status } } := by
  have excludes := restores.excludes.other (u := u) status
  have kept : ∀ t, ∃ kind, update s.thread u { s.thread u with status := status } t =
      { s.thread t with status := kind } := by
    intro t
    by_cases same : t = u
    · subst t; exact ⟨status,update_self ..⟩
    · exact ⟨(s.thread t).status,update_of_ne same ..⟩
  have here : ∃ kind, context { s with thread := update s.thread u { s.thread u with status := status } } =
      { s.context with status := kind } := kept s.running
  obtain ⟨kind,here⟩ := here
  refine ⟨excludes,?_,?_,?_,?_⟩
  · rw [here]
    exact restores.here
  · intro t other
    obtain ⟨kind,same⟩ := kept t
    dsimp only
    rw [same]
    exact restores.parked t other
  · intro t other
    obtain ⟨kind,same⟩ := kept t
    rw [here]
    dsimp only
    rw [same]
    exact restores.others t other
  · rw [here]
    exact restores.inside

end RudimentaryKernel.Cpu
