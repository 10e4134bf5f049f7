import Mathlib.Data.List.FinRange
import Mathlib.Logic.Function.Basic

/-! Two 8259 interrupt controllers, the second behind line 2 of the first, with fixed priorities:
the lower the line, the sooner it is served. A line in service keeps itself and all lines behind
it waiting until the end of the interrupt is written. -/
namespace RudimentaryKernel.Pic8259

open Function

abbrev Line := Fin 8

def highest (lines : Line → Bool) : Option Line := (List.finRange 8).find? lines

variable {lines : Line → Bool} {i j : Line}

theorem highest_some : highest lines = some i ↔ lines i = true ∧ ∀ j < i, lines j = false := by
  rw [highest,List.find?_eq_some_iff_getElem]
  refine and_congr_right (fun _ => ?_)
  constructor
  · rintro ⟨k,inside,is,before⟩ j less
    rw [List.getElem_finRange] at is
    have place : k = i.val := congrArg Fin.val is
    have earlier := before j.val (by rw [place]; exact less)
    rw [List.getElem_finRange] at earlier
    simpa using earlier
  · intro before
    refine ⟨i.val,by rw [List.length_finRange]; exact i.isLt,by rw [List.getElem_finRange]; rfl,?_⟩
    intro j less
    rw [List.getElem_finRange]
    simpa using before ⟨j,by omega⟩ less

/-- What a controller waits for on its data port. -/
inductive Stage where
  | ready
  | icw2 (cascaded fourth : Bool)
  | icw3 (fourth : Bool)
  | icw4

structure Pic where
  base : BitVec 8
  cascade : BitVec 8
  autoEoi : Bool
  mask : BitVec 8
  requested : Line → Bool
  serving : Line → Bool
  stage : Stage

namespace Pic

/-- The end of the interrupt that is served, without its number. -/
def endOfInterrupt (p : Pic) : Pic :=
  match highest p.serving with
  | none => p
  | some i => { p with serving := update p.serving i false }

/-- `out` to the command port: the start of an initialization, or the end of an interrupt. Rotating
priorities, the special mask and polling are left out. -/
def writeCommand (p : Pic) (value : BitVec 8) : Pic :=
  if value.getLsbD 4 then
    { p with
      autoEoi := false
      mask := 0
      requested := fun _ => false
      serving := fun _ => false
      stage := .icw2 (!value.getLsbD 1) (value.getLsbD 0) }
  else if value &&& 0xE8 = 0x20 then p.endOfInterrupt
  else if value &&& 0xE8 = 0x60 then { p with serving := update p.serving (Fin.ofNat 8 value.toNat) false }
  else p

/-- `out` to the data port: the words of an initialization, and else the mask. -/
def writeData (p : Pic) (value : BitVec 8) : Pic :=
  match p.stage with
  | .ready => { p with mask := value }
  | .icw2 cascaded fourth =>
    { p with base := value &&& 0xF8, stage := if cascaded then .icw3 fourth else if fourth then .icw4 else .ready }
  | .icw3 fourth => { p with cascade := value, stage := if fourth then .icw4 else .ready }
  | .icw4 => { p with autoEoi := value.getLsbD 1, stage := .ready }

def readData (p : Pic) : BitVec 8 := p.mask

def raise (p : Pic) (i : Line) : Pic := { p with requested := update p.requested i true }

/-- A line that asks for service, is not masked, and waits for no line in service. -/
def eligible (p : Pic) (i : Line) : Bool :=
  p.requested i && !p.mask.getLsbD i && decide (∀ j ≤ i, p.serving j = false)

def request (p : Pic) : Option Line := highest p.eligible

def acknowledge (p : Pic) (i : Line) : Pic :=
  { p with requested := update p.requested i false, serving := if p.autoEoi then p.serving else update p.serving i true }

def vector (p : Pic) (i : Line) : BitVec 8 := p.base + BitVec.ofNat 8 i

variable {p : Pic}

theorem eligible_iff : p.eligible i = true ↔
    p.requested i = true ∧ p.mask.getLsbD i = false ∧ ∀ j ≤ i, p.serving j = false := by
  rw [eligible,Bool.and_eq_true,Bool.and_eq_true,Bool.not_eq_true',decide_eq_true_eq,and_assoc]

theorem endOfInterrupt_only (alone : ∀ j, p.serving j = decide (j = i)) :
    p.endOfInterrupt = { p with serving := fun _ => false } := by
  have first : highest p.serving = some i := by
    rw [highest_some]
    refine ⟨by rw [alone,decide_eq_true rfl],?_⟩
    intro j less
    rw [alone]
    exact decide_eq_false (ne_of_lt less)
  rw [endOfInterrupt,first]
  refine congrArg (fun serving => ({ p with serving := serving } : Pic)) ?_
  funext j
  by_cases here : j = i
  · rw [here,update_self]
  · rw [update_of_ne here,alone]
    exact decide_eq_false here

end Pic

structure Pics where
  master : Pic
  slave : Pic

namespace Pics

/-- What the first controller sees on its lines: line 2 is the second controller. -/
def seen (c : Pics) : Pic := { c.master with requested := update c.master.requested 2 c.slave.request.isSome }

/-- The interrupt that the processor takes next, with its number. -/
def interrupt (c : Pics) : Option (BitVec 8 × Pics) :=
  match c.seen.request with
  | none => none
  | some i =>
    if i = 2 then c.slave.request.map (fun j => (c.slave.vector j,⟨c.master.acknowledge 2,c.slave.acknowledge j⟩))
    else some (c.master.vector i,{ c with master := c.master.acknowledge i })

variable {c d : Pics} {v : BitVec 8}

/-- An interrupt is taken from a line of the first controller, or through it from the second. -/
theorem interrupt_cases (taken : c.interrupt = some (v,d)) :
    (∃ i, i ≠ 2 ∧ c.seen.eligible i = true ∧ v = c.master.vector i ∧ d = { c with master := c.master.acknowledge i }) ∨
    ∃ j, c.seen.eligible 2 = true ∧ c.slave.eligible j = true ∧ v = c.slave.vector j ∧
      d = ⟨c.master.acknowledge 2,c.slave.acknowledge j⟩ := by
  rw [interrupt] at taken
  cases line : c.seen.request with
  | none =>
    rw [line] at taken
    contradiction
  | some i =>
    rw [line] at taken
    have eligible := (highest_some.mp line).1
    dsimp only at taken
    split at taken
    · rename_i second
      rw [second] at eligible
      obtain ⟨j,request,is⟩ := Option.map_eq_some_iff.mp taken
      obtain ⟨rfl,rfl⟩ := Prod.mk.inj is
      exact .inr ⟨j,eligible,(highest_some.mp request).1,rfl,rfl⟩
    · rename_i first
      obtain ⟨rfl,rfl⟩ := Prod.mk.inj (Option.some.inj taken)
      exact .inl ⟨i,first,eligible,rfl,rfl⟩

theorem interrupt_line {i : Line} (first : i ≠ 2) (eligible : c.seen.eligible i = true)
    (none : ∀ j < i, c.seen.eligible j = false) :
    c.interrupt = some (c.master.vector i,{ c with master := c.master.acknowledge i }) := by
  have line : c.seen.request = some i := highest_some.mpr ⟨eligible,none⟩
  rw [interrupt,line]
  exact if_neg first

end Pics

end RudimentaryKernel.Pic8259
