import Mathlib.Algebra.BigOperators.Group.Finset.Basic
import Mathlib.Algebra.Order.BigOperators.Group.Finset
import Mathlib.Data.Fintype.Basic
import RudimentaryKernel.Reach
import RudimentaryKernel.Target

/-! The critical sections of `entry.S`, one instruction at a time. Threads are switched
by `block`, by a yield, by an exit and by the timer, which may hit any instruction
boundary with the interrupt flag set. Of `EFLAGS` only that flag is modelled. The next
thread is any ready one. `critical_depth` is a `uint32_t`: it counts the open sections of
all threads modulo `2^32`. -/
namespace RudimentaryKernel

open Function

/-- The next instruction of a thread: one of its own code, of `enter_critical`, or of
`leave_critical`. -/
inductive Position where
  | own
  | pushFlags
  | popEax
  | loadDepth
  | testDepth
  | branchEntered
  | storeFlags
  | disable
  | increment
  | returnEnter
  | decrement
  | branchNested
  | pushSaved
  | popFlags
  | returnLeave
  deriving DecidableEq, Repr

/-- How a thread that is switched to goes on: `ret` out of `block`, which leaves the flag
alone, or `iret` out of an interrupt, a yield or a trampoline. -/
inductive Resume where
  | ret
  | iret (flag : Bool)
  deriving DecidableEq, Repr

inductive Status where
  | absent
  | ready
  | blocked
  | exited
  deriving DecidableEq, Repr

/-- One thread: where it is, its registers and top stack word as far as the two routines
use them, the flags its system calls have pushed, and how it resumes. `nest` counts its
open sections and `outer` is its flag just before the outermost `enter_critical`. -/
structure Context where
  position : Position
  eax : Bool
  ecx : Nat
  zero : Bool
  slot : Bool
  frames : List Bool
  resume : Resume
  status : Status
  nest : Nat
  outer : Bool

structure Cpu (τ : Type) where
  running : τ
  flag : Bool
  criticalDepth : Nat
  criticalSavedFlags : Bool
  thread : τ → Context

inductive Event (τ : Type) where
  | enter
  | leave
  | execute
  | block (next : τ)
  | unblock (t : τ)
  | create (t : τ)
  | yield (next : τ)
  | timer (next : τ)
  | trap
  | iret
  | sti
  | exit (next : τ)

namespace Cpu

variable {τ : Type}

def context (s : Cpu τ) : Context := s.thread s.running

section Model

variable [DecidableEq τ]

def put (s : Cpu τ) (c : Context) : Cpu τ := { s with thread := update s.thread s.running c }

/-- The next instruction of `enter_critical` or `leave_critical`. -/
def execute (s : Cpu τ) : Cpu τ :=
  let c := s.context
  match c.position with
  | .own => s
  | .pushFlags => s.put { c with slot := s.flag, position := .popEax }
  | .popEax => s.put { c with eax := c.slot, position := .loadDepth }
  | .loadDepth => s.put { c with ecx := s.criticalDepth, position := .testDepth }
  | .testDepth => s.put { c with zero := c.ecx = 0, position := .branchEntered }
  | .branchEntered => s.put { c with position := if c.zero then .storeFlags else .disable }
  | .storeFlags => { s.put { c with position := .disable } with criticalSavedFlags := c.eax }
  | .disable => { s.put { c with position := .increment } with flag := false }
  | .increment => { s.put { c with nest := c.nest + 1, position := .returnEnter } with
      criticalDepth := add32 s.criticalDepth 1 }
  | .returnEnter => s.put { c with position := .own }
  | .decrement =>
    { s.put { c with nest := c.nest - 1, zero := sub32 s.criticalDepth 1 = 0, position := .branchNested } with
      criticalDepth := sub32 s.criticalDepth 1 }
  | .branchNested => s.put { c with position := if c.zero then .pushSaved else .returnLeave }
  | .pushSaved => s.put { c with slot := s.criticalSavedFlags, position := .popFlags }
  | .popFlags => { s.put { c with position := .returnLeave } with flag := c.slot }
  | .returnLeave => s.put { c with position := .own }

/-- The running thread goes off the processor and `next` goes on as it resumes. -/
def switchTo (s : Cpu τ) (how : Resume) (status : Status) (next : τ) : Cpu τ :=
  let s := s.put { s.context with resume := how, status := status }
  { s with
    running := next
    flag := match (s.thread next).resume with
      | .ret => s.flag
      | .iret flag => flag }

/-- When an event can happen. Sections are balanced; `block` and `unblock` are called
inside one, system calls and exits are not. -/
def Allowed (s : Cpu τ) : Event τ → Prop
  | .enter => s.context.position = .own
  | .leave => s.context.position = .own ∧ 0 < s.context.nest
  | .execute => s.context.position ≠ .own
  | .block next => s.context.position = .own ∧ 0 < s.context.nest ∧ next ≠ s.running ∧
      (s.thread next).status = .ready
  | .unblock t => s.context.position = .own ∧ 0 < s.context.nest ∧ (s.thread t).status = .blocked
  | .create t => s.context.position = .own ∧ (s.thread t).status = .absent
  | .yield next => s.context.position = .own ∧ (s.thread next).status = .ready
  | .timer next => s.flag = true ∧ (s.thread next).status = .ready
  | .trap => s.context.position = .own ∧ s.context.nest = 0
  | .iret => s.context.position = .own ∧ s.context.nest = 0 ∧ s.context.frames ≠ []
  | .sti => s.context.position = .own ∧ s.context.nest = 0
  | .exit next => s.context.position = .own ∧ s.context.nest = 0 ∧ next ≠ s.running ∧
      (s.thread next).status = .ready

instance (s : Cpu τ) : ∀ e, Decidable (s.Allowed e)
  | .enter => inferInstanceAs (Decidable (_ = _))
  | .execute => inferInstanceAs (Decidable (_ ≠ _))
  | .leave | .block _ | .unblock _ | .create _ | .yield _ | .timer _ | .trap | .iret | .sti
  | .exit _ => inferInstanceAs (Decidable (_ ∧ _))

/-- A yield and the timer push the flag for `iret` and clear it; the system call gate
does the same on the thread's own stack. `block` calls the scheduler as it is. -/
def effect (s : Cpu τ) : Event τ → Cpu τ
  | .enter => s.put { s.context with
      outer := if s.context.nest = 0 then s.flag else s.context.outer
      position := .pushFlags }
  | .leave => s.put { s.context with position := .decrement }
  | .execute => s.execute
  | .block next => s.switchTo .ret .blocked next
  | .unblock t | .create t =>
    { s with thread := update s.thread t { s.thread t with status := .ready } }
  | .yield next | .timer next =>
    { s with flag := false }.switchTo (.iret s.flag) s.context.status next
  | .trap => { s.put { s.context with frames := s.flag :: s.context.frames } with flag := false }
  | .iret => { s.put { s.context with frames := s.context.frames.tail } with
      flag := s.context.frames.headD false }
  | .sti => { s with flag := true }
  | .exit next => { s with flag := false }.switchTo .ret .exited next

def StepWhere (guard : Cpu τ → Event τ → Prop) (s t : Cpu τ) : Prop :=
  ∃ e, s.Allowed e ∧ guard s e ∧ t = s.effect e

def Always (_ : Cpu τ) (_ : Event τ) : Prop := True

instance (s : Cpu τ) (e : Event τ) : Decidable (Always s e) := isTrue trivial

def Step : Cpu τ → Cpu τ → Prop := StepWhere Always

def happen (guard : Cpu τ → Event τ → Prop) [∀ s e, Decidable (guard s e)] :
    List (Event τ) → Cpu τ → Option (Cpu τ)
  | [], s => some s
  | e :: events, s => if s.Allowed e ∧ guard s e then happen guard events (s.effect e) else none

theorem switchTo_flag (s : Cpu τ) (how : Resume) (status : Status) (next : τ) :
    (s.switchTo how status next).flag =
      match ((s.switchTo how status next).thread next).resume with
      | .ret => s.flag
      | .iret flag => flag := rfl

def Initial (s : Cpu τ) : Prop :=
  s.criticalDepth = 0 ∧ ∀ t, (s.thread t).position = .own ∧ (s.thread t).nest = 0 ∧
    (t ≠ s.running → (s.thread t).resume = .iret true)

theorem happen_reach {guard : Cpu τ → Event τ → Prop} [∀ s e, Decidable (guard s e)] {s t : Cpu τ}
    {events : List (Event τ)} (done : happen guard events s = some t)
    (reached : Reach Initial (StepWhere guard) s) : Reach Initial (StepWhere guard) t := by
  induction events generalizing s with
  | nil => cases done; exact reached
  | cons e events ih =>
    rw [happen] at done
    split at done
    · rename_i possible
      exact ih done (reached.advance ⟨e,possible.1,possible.2,rfl⟩)
    · contradiction

end Model

section Exclusion

/-- Between `cli` and the increment, or behind the decrement with the flags not yet
restored. -/
def Late (p : Position) : Prop :=
  p = .increment ∨ p = .branchNested ∨ p = .pushSaved ∨ p = .popFlags

variable [Fintype τ] {s t : Cpu τ} {c : Context} {u next : τ}

def openSections (s : Cpu τ) : Nat := ∑ t, (s.thread t).nest

/-- A section is entered only while fewer than `2^32 - 1` are open. -/
def Bounded (s : Cpu τ) : Event τ → Prop
  | .execute => s.context.position = .increment → s.openSections + 1 < 2^32
  | _ => True

instance (s : Cpu τ) : ∀ e, Decidable (s.Bounded e)
  | .execute => inferInstanceAs (Decidable (_ → _))
  | .enter | .leave | .block _ | .unblock _ | .create _ | .yield _ | .timer _ | .trap | .iret
  | .sti | .exit _ => isTrue trivial

/-- Interrupts are off for a thread with an open section, and the counter counts the
open sections of all threads. -/
structure Excludes (s : Cpu τ) : Prop where
  total : s.criticalDepth = s.openSections
  fits : s.openSections < 2^32
  calm : 0 < s.context.nest ∨ Late s.context.position → s.flag = false
  away : ∀ t, t ≠ s.running → ¬Late (s.thread t).position ∧
    (0 < (s.thread t).nest → (s.thread t).resume ≠ .iret true)
  entered : ∀ t, (s.thread t).position = .decrement → 0 < (s.thread t).nest
  tested : s.context.position = .branchNested → (s.context.zero = true ↔ s.criticalDepth = 0)
  closed : s.context.position = .pushSaved ∨ s.context.position = .popFlags → s.criticalDepth = 0

theorem Excludes.counter_lt (excludes : s.Excludes) : s.criticalDepth < 2^32 :=
  excludes.total ▸ excludes.fits

theorem Excludes.nest_le (excludes : s.Excludes) (u : τ) : (s.thread u).nest ≤ s.criticalDepth := by
  rw [excludes.total]
  exact Finset.single_le_sum (f := fun t => (s.thread t).nest) (fun _ _ => Nat.zero_le _)
    (Finset.mem_univ u)

theorem initial_excludes (initial : s.Initial) : s.Excludes := by
  obtain ⟨zero,threads⟩ := initial
  have nest : ∀ t, (s.thread t).nest = 0 := fun t => (threads t).2.1
  have own : ∀ t, (s.thread t).position = .own := fun t => (threads t).1
  refine ⟨?_,?_,?_,?_,?_,?_,?_⟩ <;> simp [context,openSections,nest,own,zero,Late]

theorem Excludes.disabled (excludes : s.Excludes) : Excludes { s with flag := false } :=
  ⟨excludes.total,excludes.fits,fun _ => rfl,excludes.away,excludes.entered,excludes.tested,excludes.closed⟩

variable [DecidableEq τ]

theorem nest_update (thread : τ → Context) (u : τ) (c : Context) :
    (∑ t, (update thread u c t).nest) + (thread u).nest = (∑ t, (thread t).nest) + c.nest := by
  rw [← Finset.add_sum_erase _ _ (Finset.mem_univ u),
    ← Finset.add_sum_erase _ (fun t => (thread t).nest) (Finset.mem_univ u)]
  have rest : ∑ t ∈ Finset.univ.erase u, (update thread u c t).nest =
      ∑ t ∈ Finset.univ.erase u, (thread t).nest := by
    apply Finset.sum_congr rfl
    intro t member
    rw [update_of_ne (Finset.ne_of_mem_erase member)]
  rw [rest,update_self]
  omega

theorem Excludes.after (excludes : s.Excludes) (running : t.running = s.running)
    (thread : t.thread = update s.thread s.running c)
    (total : t.criticalDepth + s.context.nest = s.criticalDepth + c.nest)
    (fits : t.criticalDepth < 2^32) (calm : 0 < c.nest ∨ Late c.position → t.flag = false)
    (entered : c.position = .decrement → 0 < c.nest)
    (tested : c.position = .branchNested → (c.zero = true ↔ t.criticalDepth = 0))
    (closed : c.position = .pushSaved ∨ c.position = .popFlags → t.criticalDepth = 0) : t.Excludes := by
  have context : t.context = c := by rw [Cpu.context,running,thread,update_self]
  have counted : t.criticalDepth = t.openSections := by
    have sum := nest_update s.thread s.running c
    have before := excludes.total
    unfold openSections at before ⊢
    rw [thread]
    change t.criticalDepth + (s.thread s.running).nest = _ at total
    omega
  refine ⟨counted,counted ▸ fits,?_,?_,?_,?_,?_⟩
  · rw [context]
    exact calm
  · intro u other
    rw [running] at other
    rw [thread,update_of_ne other]
    exact excludes.away u other
  · rw [thread]
    exact (forall_update_iff s.thread (fun _ x => x.position = .decrement → 0 < x.nest)).mpr
      ⟨entered,fun u _ => excludes.entered u⟩
  · rw [context]
    exact tested
  · rw [context]
    exact closed

theorem Excludes.moved (excludes : s.Excludes) (running : t.running = s.running)
    (thread : t.thread = update s.thread s.running c) (depth : t.criticalDepth = s.criticalDepth)
    (flag : t.flag = s.flag) (nest : c.nest = s.context.nest) (early : ¬Late c.position)
    (inside : c.position ≠ .decrement) : t.Excludes := by
  apply excludes.after running thread (by rw [depth,nest]) (depth ▸ excludes.counter_lt)
  · rintro (nested | late)
    · rw [flag]
      exact excludes.calm (.inl (nest ▸ nested))
    · exact absurd late early
  · intro position
    exact absurd position inside
  · intro position
    exact absurd (.inr (.inl position)) early
  · intro position
    exact absurd (.inr (.inr position)) early

theorem execute_excludes (excludes : s.Excludes) (bounded : s.Bounded .execute) : s.execute.Excludes := by
  have bound : s.context.nest ≤ s.criticalDepth := excludes.nest_le s.running
  have fits := excludes.counter_lt
  unfold execute
  dsimp only
  cases position : s.context.position with
  | own => exact excludes
  | branchEntered =>
    refine excludes.moved rfl rfl rfl rfl rfl ?_ ?_ <;> dsimp only <;> split <;> simp [Late]
  | disable => exact excludes.after rfl rfl rfl fits (fun _ => rfl) (by simp) (by simp) (by simp)
  | increment =>
    -- `cli` is behind it, and the counter does not wrap
    have off := excludes.calm (.inr (.inl position))
    have small : s.criticalDepth + 1 < 2^32 := excludes.total ▸ bounded position
    rw [add32_eq small]
    exact excludes.after rfl rfl (Nat.add_right_comm ..) small (fun _ => off) (by simp) (by simp) (by simp)
  | decrement =>
    -- the section is still open, so that the counter is not zero
    have nested : 0 < s.context.nest := excludes.entered s.running position
    rw [sub32_eq fits (by omega)]
    refine excludes.after rfl rfl ?_ (Nat.lt_of_le_of_lt (Nat.sub_le ..) fits)
      (fun _ => excludes.calm (.inl nested)) (by simp) (by simp) (by simp)
    dsimp only
    omega
  | branchNested =>
    -- the flags are restored only with the counter at zero
    have off := excludes.calm (.inr (.inr (.inl position)))
    have tested := excludes.tested position
    refine excludes.after rfl rfl rfl fits (fun _ => off) ?_ ?_ ?_ <;> dsimp only <;> split <;> simp_all [put]
  | pushSaved =>
    have off := excludes.calm (.inr (.inr (.inr (.inl position))))
    exact excludes.after rfl rfl rfl fits (fun _ => off) (by simp) (by simp) (fun _ => excludes.closed (.inl position))
  | popFlags =>
    -- no section is open
    have closed := excludes.closed (.inr position)
    refine excludes.after rfl rfl rfl fits ?_ (by simp) (by simp) (by simp)
    rintro (nested | late)
    · dsimp only at nested
      omega
    · simp [Late] at late
  | _ => exact excludes.moved rfl rfl rfl rfl rfl (by simp [Late]) (by simp)

theorem Excludes.other (excludes : s.Excludes) (status : Status) :
    Excludes { s with thread := update s.thread u { s.thread u with status := status } } := by
  have kept : ∀ t, (update s.thread u { s.thread u with status := status } t).nest = (s.thread t).nest ∧
      (update s.thread u { s.thread u with status := status } t).position = (s.thread t).position ∧
      (update s.thread u { s.thread u with status := status } t).resume = (s.thread t).resume ∧
      (update s.thread u { s.thread u with status := status } t).zero = (s.thread t).zero :=
    (forall_update_iff s.thread (fun t x => x.nest = (s.thread t).nest ∧ x.position = (s.thread t).position ∧
      x.resume = (s.thread t).resume ∧ x.zero = (s.thread t).zero)).mpr
        ⟨⟨rfl,rfl,rfl,rfl⟩,fun _ _ => ⟨rfl,rfl,rfl,rfl⟩⟩
  obtain ⟨total,fits,calm,away,entered,tested,closed⟩ := excludes
  unfold context at calm tested closed
  unfold openSections at total fits
  refine ⟨?_,?_,?_,?_,?_,?_,?_⟩ <;> simp only [context,openSections,kept]
  · exact total
  · exact fits
  · exact calm
  · exact away
  · exact entered
  · exact tested
  · exact closed

/-- A switch with interrupts off. The thread that goes must not come back with them on
while it has a section open. -/
theorem Excludes.switched (excludes : s.Excludes) (off : s.flag = false) {how : Resume}
    {status : Status} (quiet : ¬Late s.context.position)
    (back : 0 < s.context.nest → how ≠ .iret true) : (s.switchTo how status next).Excludes := by
  have kept : ∀ t, ((s.switchTo how status next).thread t).nest = (s.thread t).nest ∧
      ((s.switchTo how status next).thread t).position = (s.thread t).position := by
    intro t
    by_cases same : t = s.running
    · subst t; simp [switchTo,put,context]
    · simp [switchTo,put,same]
  have resume : ∀ t, ¬Late ((s.switchTo how status next).thread t).position ∧
      (0 < ((s.switchTo how status next).thread t).nest →
        ((s.switchTo how status next).thread t).resume ≠ .iret true) := by
    intro t
    rw [(kept t).1,(kept t).2]
    by_cases same : t = s.running
    · subst t
      exact ⟨quiet,fun nested => by simpa [switchTo,put] using back nested⟩
    · simpa [switchTo,put,same] using excludes.away t same
  have sections : (s.switchTo how status next).openSections = s.openSections := by
    simp only [openSections,kept]
  refine ⟨excludes.total.trans sections.symm,sections ▸ excludes.fits,?_,fun t _ => resume t,?_,?_,?_⟩
  · rintro (nested | position)
    · have mode := (resume next).2 nested
      rw [switchTo_flag]
      cases kind : ((s.switchTo how status next).thread next).resume with
      | ret => exact off
      | iret flag =>
        rw [kind] at mode
        cases flag with
        | true => exact absurd rfl mode
        | false => rfl
    · exact absurd position (resume next).1
  · intro t
    rw [(kept t).1,(kept t).2]
    exact excludes.entered t
  · intro position
    exact absurd (.inr (.inl position)) (resume next).1
  · intro position
    exact absurd (.inr (.inr position)) (resume next).1

theorem step_excludes (excludes : s.Excludes) (step : StepWhere Bounded s t) : t.Excludes := by
  obtain ⟨e,allowed,bounded,rfl⟩ := step
  have calm := excludes.calm
  have fits := excludes.counter_lt
  cases e with
  | enter => exact excludes.moved rfl rfl rfl rfl rfl (by simp [Late]) (by simp)
  | leave =>
    obtain ⟨_,nested⟩ := allowed
    exact excludes.after rfl rfl rfl fits (fun _ => calm (.inl nested)) (fun _ => nested) (by simp) (by simp)
  | execute => exact execute_excludes excludes bounded
  | block next =>
    obtain ⟨own,nested,_⟩ := allowed
    exact excludes.switched (calm (.inl nested)) (by simp [own,Late]) (by simp)
  | unblock u => exact excludes.other .ready
  | create u => exact excludes.other .ready
  | yield next =>
    obtain ⟨own,_⟩ := allowed
    apply excludes.disabled.switched rfl
    · change ¬Late s.context.position
      simp [own,Late]
    · intro nested
      simp [calm (.inl nested)]
  | timer next =>
    obtain ⟨enabled,_⟩ := allowed
    have safe : ¬(0 < s.context.nest ∨ Late s.context.position) := by
      intro closed
      simp [calm closed] at enabled
    exact excludes.disabled.switched rfl (fun late => safe (.inr late))
      (fun nested => absurd (.inl nested) safe)
  | trap =>
    obtain ⟨own,_⟩ := allowed
    exact excludes.after rfl rfl rfl fits (fun _ => rfl) (by simp [own]) (by simp [own]) (by simp [own])
  | iret =>
    obtain ⟨own,outside,_⟩ := allowed
    exact excludes.after rfl rfl rfl fits (by simp [own,outside,Late]) (by simp [own]) (by simp [own])
      (by simp [own])
  | sti =>
    obtain ⟨own,outside⟩ := allowed
    have same : s.thread = update s.thread s.running s.context := (update_eq_self _ _).symm
    exact excludes.after rfl same rfl fits (by simp [own,outside,Late]) (by simp [own]) (by simp [own])
      (by simp [own])
  | exit next =>
    obtain ⟨own,outside,_⟩ := allowed
    apply excludes.disabled.switched rfl
    · change ¬Late s.context.position
      simp [own,Late]
    · simp

/-- While fewer than `2^32` sections are open at a time, `critical_depth` is the number of
open sections of all threads, and interrupts are off while the running thread has one, so
that the timer never hits it there. -/
theorem critical_sections_exclude_timer (s : Cpu τ) (reached : Reach Initial (StepWhere Bounded) s) :
    s.criticalDepth = ∑ t, (s.thread t).nest ∧
    (0 < (s.thread s.running).nest → s.flag = false) ∧
    ∀ next, s.Allowed (.timer next) → (s.thread s.running).nest = 0 := by
  have excludes : s.Excludes :=
    reached.invariant Excludes (fun _ initial => initial_excludes initial)
      (fun _ _ excludes step => step_excludes excludes step)
  refine ⟨excludes.total,fun nested => excludes.calm (.inl nested),?_⟩
  rintro next ⟨enabled,_⟩
  by_contra nested
  have off := excludes.calm (.inl (Nat.pos_of_ne_zero nested))
  simp [off] at enabled

end Exclusion

section Witness

def pair : Cpu (Fin 2) where
  running := 0
  flag := true
  criticalDepth := 0
  criticalSavedFlags := false
  thread := fun _ => ⟨.own,false,0,false,false,[],.iret true,.ready,0,false⟩

theorem pair_initial : pair.Initial := ⟨rfl,fun _ => ⟨rfl,rfl,fun _ => rfl⟩⟩

/-- The first thread blocks in its section. The second one enters a section of its own
with interrupts on, wakes the first, and is at the end of `leave_critical`. -/
def blockedInside : List (Event (Fin 2)) :=
  .enter :: List.replicate 9 .execute ++ [.block 1,.enter] ++ List.replicate 8 .execute ++
    [.unblock 0,.leave,.execute,.execute]

/-- The first thread goes on inside its section, with interrupts off. -/
theorem timer_excluded_after_block : ∃ s, happen Bounded (blockedInside ++ [.execute,.yield 0]) pair = some s ∧
    s.running = 0 ∧ (s.thread s.running).nest = 1 ∧ s.flag = false := by
  have run : (happen Bounded (blockedInside ++ [.execute,.yield 0]) pair).map (fun s =>
      (s.running,(s.thread s.running).nest)) = some (0,1) := by decide +kernel
  obtain ⟨s,done,facts⟩ := Option.map_eq_some_iff.mp run
  obtain ⟨running,nest⟩ := Prod.mk.inj facts
  have reached := happen_reach done (Reach.start pair_initial)
  exact ⟨s,done,running,nest,(critical_sections_exclude_timer s reached).2.1 (by omega)⟩

/-- The first thread with `n` sections open, each entered inside the one before. -/
def nested (n : Nat) : Cpu (Fin 2) where
  running := 0
  flag := false
  criticalDepth := n % 2^32
  criticalSavedFlags := true
  thread := update pair.thread 0
    ⟨.own,n = 1,n - 1,n = 1,n = 1,[],.iret true,.ready,n,true⟩

theorem first_nested : happen Always (.enter :: List.replicate 9 .execute) pair = some (nested 1) := by
  simp [happen,Allowed,Always,nested,pair,effect,execute,put,context,add32]

theorem next_nested {n : Nat} (some_open : 0 < n) (small : n < 2^32) :
    happen Always (.enter :: List.replicate 8 .execute) (nested n) = some (nested (n + 1)) := by
  have counter : n % 4294967296 = n := Nat.mod_eq_of_lt small
  have open' : n ≠ 0 := Nat.ne_of_gt some_open
  simp [happen,Allowed,Always,nested,effect,execute,put,context,add32,counter,open']

theorem nested_reached (n : Nat) (small : n < 2^32) : Reach Initial Step (nested (n + 1)) := by
  induction n with
  | zero => exact happen_reach first_nested (Reach.start pair_initial)
  | succ n ih => exact happen_reach (next_nested (Nat.succ_pos n) small) (ih (Nat.lt_of_succ_lt small))

/-- With `2^32` sections open the counter is back at zero. -/
theorem counter_wraps : ∃ s : Cpu (Fin 2), Reach Initial Step s ∧
    ∑ t, (s.thread t).nest = 2^32 ∧ s.criticalDepth = 0 := by
  refine ⟨nested (2^32 - 1 + 1),nested_reached _ (by decide),?_,rfl⟩
  have sum := nest_update pair.thread 0 ((nested (2^32)).thread 0)
  simpa [nested,pair] using sum

end Witness

end Cpu

end RudimentaryKernel
