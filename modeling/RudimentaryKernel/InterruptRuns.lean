import RudimentaryKernel.Faults
import RudimentaryKernel.Pic8259

/-! Interrupt requests from `pic_remap` on. The handlers of the timer and the keyboard and the
default handler write the end of an interrupt to the first controller, once, before interrupts are
on again. Nothing writes it to the second controller. -/
namespace RudimentaryKernel

open Function List Pic8259 X86

def icw1Init : BitVec 8 := 0x10
def icw1Icw4 : BitVec 8 := 0x01
def icw48086 : BitVec 8 := 0x01

def picRemap (c : Pics) : Pics :=
  let masterMask := c.master.readData
  let slaveMask := c.slave.readData
  let master := c.master.writeCommand (icw1Init ||| icw1Icw4)
  let slave := c.slave.writeCommand (icw1Init ||| icw1Icw4)
  let master := master.writeData 0x20
  let slave := slave.writeData 0x28
  let master := master.writeData 0x04
  let slave := slave.writeData 0x02
  let master := master.writeData icw48086
  let slave := slave.writeData icw48086
  ⟨master.writeData (masterMask &&& ~~~0x02),slave.writeData slaveMask⟩

def Handler.acknowledges : Handler → Bool
  | .timer | .keyboard | .defaultInterrupt => true
  | _ => false

def Handler.listing (k : FaultImage) : Handler → List TrapInstr
  | .timer => (Listing.timerHandler k.image.schedulerEntry).map .base
  | .keyboard => Listing.keyboardHandler k.keyboardHandlerC
  | .syscallEntry => Listing.syscallEntry k.syscallHandler
  | .defaultInterrupt => Listing.defaultHandler (k.message .defaultInterrupt) k.faultPrint
  | .pageFault =>
    Listing.pageFaultHandler (k.message .pageFault) k.addressMessage k.faultPrint k.kernelFault k.r3Exit
  | h => Listing.faultHandler (k.message h) k.faultPrint

theorem Handler.listing_holds (k : FaultImage) (h : Handler) : ∃ b, TrapHolds k.traps (k.address h) (h.listing k) b := by
  cases h with
  | timer =>
    obtain ⟨last,holds⟩ := k.timer_holds
    exact ⟨last,holds⟩
  | keyboard => exact ⟨_,k.keyboardHandler_holds⟩
  | syscallEntry => exact ⟨_,k.syscallEntry_holds⟩
  | defaultInterrupt => exact ⟨_,k.defaultHandler_holds⟩
  | pageFault => exact ⟨_,k.pageFaultHandler_holds⟩
  | _ => exact ⟨_,k.faultHandler_holds _ rfl⟩

def endsInterrupt : List TrapInstr → Bool
  | .base (.op (.movAl value)) :: .base (.op (.out port)) :: rest => value == 0x20 && port == 0x20 || endsInterrupt rest
  | _ :: rest => endsInterrupt rest
  | [] => false

/-- A handler ends its interrupt by its own code or, for the keyboard, in `keyboard_handler_c`. -/
theorem Handler.acknowledges_listing (k : FaultImage) (h : Handler) :
    h.acknowledges = (endsInterrupt (h.listing k) || h == .keyboard) := by
  cases h <;> rfl

/-- The controllers, the interrupt flag, the handler that has not ended its interrupt yet, and the
numbers of the interrupts taken so far. -/
structure IrqRun where
  pics : Pics
  enabled : Bool
  pending : Option Handler
  taken : List (BitVec 8)

namespace IrqRun

/-- A device raises a line, the processor takes an interrupt and with it loses its flag, a handler
writes `0x20` to the first controller, or code outside that stretch sets or clears the flag. -/
inductive Step (s : IrqRun) : IrqRun → Prop where
  | raiseMaster (i : Line) (device : i ≠ 2) : Step s { s with pics := { s.pics with master := s.pics.master.raise i } }
  | raiseSlave (j : Line) : Step s { s with pics := { s.pics with slave := s.pics.slave.raise j } }
  | take {v pics} (enabled : s.enabled = true) (calm : s.pending = none) (next : s.pics.interrupt = some (v,pics)) :
      Step s ⟨pics,false,some (handlerOf v),s.taken ++ [v]⟩
  | finish {h} (busy : s.pending = some h) (ends : h.acknowledges = true) :
      Step s { s with pics := { s.pics with master := s.pics.master.writeCommand 0x20 }, pending := none }
  | flag (enabled : Bool) (calm : s.pending = none) : Step s { s with enabled := enabled }

/-- Behind `pic_remap`, whatever the controllers were used for before. -/
def Remapped (c : Pics) (s : IrqRun) : Prop := s = ⟨picRemap c,false,none,[]⟩

/-- What `pic_remap` has set up. -/
structure SetUp (p : Pic) (base mask : BitVec 8) : Prop where
  base : p.base = base
  mask : p.mask = mask
  manual : p.autoEoi = false
  stage : p.stage = .ready

/-- The first controller serves at most the interrupt of the handler in progress; the second one
serves all it was ever taken an interrupt from. -/
structure Ended (c : Pics) (s : IrqRun) : Prop where
  master : SetUp s.pics.master 0x20 (c.master.mask &&& ~~~0x02)
  slave : SetUp s.pics.slave 0x28 c.slave.mask
  calm : s.pending = none → ∀ i, s.pics.master.serving i = false
  busy : ∀ h, s.pending = some h → h.acknowledges = true ∧ ∃ (v : BitVec 8) (i : Line), s.taken.getLast? = some v ∧
    h = handlerOf v ∧ (v = 0x20 + BitVec.ofNat 8 i ∨ i = 2 ∧ 0x28#8 ≤ v) ∧ ∀ j, s.pics.master.serving j = decide (j = i)
  served : ∀ j : Line, s.pics.slave.serving j = true ↔ 0x28 + BitVec.ofNat 8 j ∈ s.taken
  ordered : (s.taken.filter (fun v => decide (0x28#8 ≤ v))).Pairwise (· > ·)
  range : ∀ v ∈ s.taken, 0x20#8 ≤ v ∧ v ≤ 0x2F#8

variable {c : Pics} {s t : IrqRun}

theorem remapped_ended (remapped : Remapped c s) : Ended c s := by
  rw [Remapped] at remapped
  subst remapped
  refine ⟨⟨rfl,rfl,rfl,rfl⟩,⟨rfl,rfl,rfl,rfl⟩,fun _ _ => rfl,?_,?_,?_,?_⟩
  · intro h none
    contradiction
  · intro j
    refine ⟨?_,fun none => absurd none not_mem_nil⟩
    intro serving
    have quiet : false = true := serving
    contradiction
  · exact .nil
  · intro v none
    contradiction

theorem SetUp.vector {p : Pic} {base mask : BitVec 8} (setUp : SetUp p base mask) (i : Line) :
    p.vector i = base + BitVec.ofNat 8 i := by
  rw [Pic.vector,setUp.base]

theorem SetUp.acknowledge {p : Pic} {base mask : BitVec 8} (setUp : SetUp p base mask) (i : Line) :
    SetUp (p.acknowledge i) base mask ∧ (p.acknowledge i).serving = update p.serving i true := by
  refine ⟨⟨setUp.base,setUp.mask,setUp.manual,setUp.stage⟩,?_⟩
  rw [Pic.acknowledge,setUp.manual]
  rfl

theorem master_number (i : Line) : 0x20#8 ≤ 0x20 + BitVec.ofNat 8 i ∧ 0x20 + BitVec.ofNat 8 i < 0x28#8 ∧
    (handlerOf (0x20 + BitVec.ofNat 8 i)).acknowledges = true := by
  revert i
  decide

theorem slave_number (j : Line) : 0x28#8 ≤ 0x28 + BitVec.ofNat 8 j ∧ 0x28 + BitVec.ofNat 8 j ≤ 0x2F#8 ∧
    (handlerOf (0x28 + BitVec.ofNat 8 j)).acknowledges = true ∧
    ∀ v : BitVec 8, 0x28 ≤ v → v ≤ 0x2F → v ≤ 0x28 + BitVec.ofNat 8 j → ∃ k : Line, k ≤ j ∧ v = 0x28 + BitVec.ofNat 8 k := by
  revert j
  decide +kernel

theorem Ended.take (ended : Ended c s) (calm : s.pending = none) {v : BitVec 8} {pics : Pics}
    (next : s.pics.interrupt = some (v,pics)) : Ended c ⟨pics,false,some (handlerOf v),s.taken ++ [v]⟩ := by
  have quiet := ended.calm calm
  have only : ∀ i : Line, ∀ j, update s.pics.master.serving i true j = decide (j = i) := by
    intro i j
    by_cases here : j = i
    · rw [here,update_self,decide_eq_true rfl]
    · rw [update_of_ne here,quiet,decide_eq_false here]
  rcases Pics.interrupt_cases next with ⟨i,_,_,rfl,rfl⟩ | ⟨j,_,eligible,rfl,rfl⟩
  · obtain ⟨setUp,serving⟩ := ended.master.acknowledge i
    rw [ended.master.vector]
    obtain ⟨low,high,handled⟩ := master_number i
    have other : ∀ j : Line, 0x28 + BitVec.ofNat 8 j ≠ 0x20 + BitVec.ofNat 8 i := by
      intro j same
      have above := (slave_number j).1
      rw [same] at above
      exact absurd above (BitVec.not_le.mpr high)
    refine ⟨setUp,ended.slave,fun none => absurd none (Option.some_ne_none _),?_,?_,?_,?_⟩
    · rintro h ⟨⟩
      refine ⟨handled,_,i,getLast?_concat,rfl,.inl rfl,?_⟩
      rw [serving]
      exact only i
    · intro j
      rw [mem_append,mem_singleton,or_iff_left (other j)]
      exact ended.served j
    · rw [filter_append,filter_singleton,decide_eq_false (BitVec.not_le.mpr high)]
      simpa using ended.ordered
    · intro v member
      rw [mem_append,mem_singleton] at member
      rcases member with before | rfl
      · exact ended.range v before
      · exact ⟨low,by bv_omega⟩
  · obtain ⟨setUp,serving⟩ := ended.master.acknowledge 2
    obtain ⟨setUp',serving'⟩ := ended.slave.acknowledge j
    obtain ⟨_,_,free⟩ := Pic.eligible_iff.mp eligible
    rw [ended.slave.vector]
    obtain ⟨low,high,handled,below⟩ := slave_number j
    have same : ∀ k : Line, 0x28 + BitVec.ofNat 8 k = 0x28 + BitVec.ofNat 8 j ↔ k = j := by
      intro k
      constructor
      · intro equal
        have inside := k.isLt
        have inside' := j.isLt
        apply Fin.ext
        bv_omega
      · rintro rfl
        rfl
    refine ⟨setUp,setUp',fun none => absurd none (Option.some_ne_none _),?_,?_,?_,?_⟩
    · rintro h ⟨⟩
      refine ⟨handled,_,2,getLast?_concat,rfl,.inr ⟨rfl,low⟩,?_⟩
      rw [serving]
      exact only 2
    · intro k
      rw [mem_append,mem_singleton,same,serving']
      by_cases here : k = j
      · rw [here,update_self]
        exact iff_of_true rfl (.inr rfl)
      · rw [update_of_ne here,or_iff_left here]
        exact ended.served k
    · rw [filter_append,filter_singleton,decide_eq_true low]
      refine pairwise_append.mpr ⟨ended.ordered,pairwise_singleton _ _,?_⟩
      intro u member w last
      rw [mem_singleton.mp last]
      obtain ⟨member,above⟩ := mem_filter.mp member
      by_contra later
      obtain ⟨k,least,rfl⟩ := below u (of_decide_eq_true above) (ended.range u member).2 (BitVec.not_lt.mp later)
      have busy := (ended.served k).mpr member
      rw [free k least] at busy
      contradiction
    · intro v member
      rw [mem_append,mem_singleton] at member
      rcases member with before | rfl
      · exact ended.range v before
      · exact ⟨BitVec.le_trans (by decide) low,high⟩

theorem Ended.step (ended : Ended c s) (step : s.Step t) : Ended c t := by
  cases step with
  | raiseMaster i _ =>
    exact ⟨⟨ended.master.base,ended.master.mask,ended.master.manual,ended.master.stage⟩,ended.slave,ended.calm,
      ended.busy,ended.served,ended.ordered,ended.range⟩
  | raiseSlave j =>
    exact ⟨ended.master,⟨ended.slave.base,ended.slave.mask,ended.slave.manual,ended.slave.stage⟩,ended.calm,
      ended.busy,ended.served,ended.ordered,ended.range⟩
  | take _ calm next => exact ended.take calm next
  | @finish h busy _ =>
    obtain ⟨_,_,i,_,_,_,alone⟩ := ended.busy h busy
    have written : s.pics.master.writeCommand 0x20 = { s.pics.master with serving := fun _ => false } :=
      Pic.endOfInterrupt_only alone
    refine ⟨?_,ended.slave,?_,fun h none => absurd none.symm (Option.some_ne_none h),ended.served,ended.ordered,ended.range⟩
    · rw [written]
      exact ⟨ended.master.base,ended.master.mask,ended.master.manual,ended.master.stage⟩
    · intro _ j
      dsimp only
      rw [written]
  | flag b calm =>
    exact ⟨ended.master,ended.slave,ended.calm,ended.busy,ended.served,ended.ordered,ended.range⟩

theorem reached_ended (reached : Reach (Remapped c) Step s) : Ended c s :=
  reached.invariant (Ended c) (fun _ remapped => remapped_ended remapped) (fun _ _ ended step => ended.step step)

/-- Every request on a line of the first controller gets through, in every run behind `pic_remap`,
from any state of the controllers: outside the handlers no line is in service; a handler in progress
is the one of the number taken last, only the line of that number is in service, and none when it has
written the end of an interrupt; and the first of
the lines that ask and are not masked is taken, with the number of its handler, as soon as the
flag is set. The masks are those from before, with the keyboard let in. -/
theorem requests_get_through (c : Pics) (s : IrqRun) (reached : Reach (Remapped c) Step s) :
    s.pics.master.mask = c.master.mask &&& ~~~0x02 ∧ s.pics.slave.mask = c.slave.mask ∧
    (s.pending = none → ∀ i, s.pics.master.serving i = false) ∧
    (∀ h, s.pending = some h → h.acknowledges = true ∧
      (∃ (v : BitVec 8) (i : Line), s.taken.getLast? = some v ∧ h = handlerOf v ∧
        (v = 0x20 + BitVec.ofNat 8 i ∨ i = 2 ∧ 0x28#8 ≤ v) ∧ ∀ j, s.pics.master.serving j = decide (j = i)) ∧
      ∀ i, (s.pics.master.writeCommand 0x20).serving i = false) ∧
    (∀ i : Line, i ≠ 2 → s.pending = none → s.pics.master.requested i = true → s.pics.master.mask.getLsbD i = false →
      (∀ j < i, s.pics.seen.requested j = false ∨ s.pics.master.mask.getLsbD j = true) →
      ∃ pics, s.pics.interrupt = some (0x20 + BitVec.ofNat 8 i,pics)) ∧
    ∀ v ∈ s.taken, handlerOf v = if v = 0x20 then .timer else if v = 0x21 then .keyboard else .defaultInterrupt := by
  have ended := reached_ended reached
  refine ⟨ended.master.mask,ended.slave.mask,ended.calm,?_,?_,?_⟩
  · intro h busy
    obtain ⟨ends,v,i,latest,handler,line,alone⟩ := ended.busy h busy
    have written : s.pics.master.writeCommand 0x20 = { s.pics.master with serving := fun _ => false } :=
      Pic.endOfInterrupt_only alone
    refine ⟨ends,⟨v,i,latest,handler,line,alone⟩,?_⟩
    rw [written]
    exact fun _ => rfl
  · intro i device calm requested unmasked first
    have quiet := ended.calm calm
    have eligible : s.pics.seen.eligible i = true := by
      refine Pic.eligible_iff.mpr ⟨?_,unmasked,fun j _ => quiet j⟩
      exact (update_of_ne device ..).trans requested
    have next := Pics.interrupt_line device eligible (by
      intro j less
      rw [← Bool.not_eq_true,Pic.eligible_iff]
      rintro ⟨asks,unmasked,_⟩
      rcases first j less with none | masked
      · rw [none] at asks
        contradiction
      · rw [show s.pics.seen.mask = s.pics.master.mask from rfl,masked] at unmasked
        contradiction)
    rw [ended.master.vector] at next
    exact ⟨_,next⟩
  · intro v member
    obtain ⟨low,high⟩ := ended.range v member
    have all : ∀ v : BitVec 8, 0x20 ≤ v → v ≤ 0x2F →
        handlerOf v = if v = 0x20 then .timer else if v = 0x21 then .keyboard else .defaultInterrupt := by
      decide +kernel
    exact all v low high

/-- The controllers as a BIOS leaves them, with the timer, line 2 and the line of the disk open. -/
def biosPics : Pics :=
  ⟨⟨0x08,0x04,false,0xBA,fun _ => false,fun _ => false,.ready⟩,⟨0x70,0x02,false,0x8F,fun _ => false,fun _ => false,.ready⟩⟩

theorem disk_then_timer : ∃ s, Reach (Remapped biosPics) Step s ∧ s.taken = [0x2E,0x20] ∧ s.pending = some .timer := by
  have start : Reach (Remapped biosPics) Step ⟨picRemap biosPics,false,none,[]⟩ := .start rfl
  have raised := start.advance (.raiseSlave 6)
  have enabled := raised.advance (.flag true rfl)
  have disk := enabled.advance (.take rfl rfl rfl)
  have done := disk.advance (.finish rfl rfl)
  have again := (done.advance (.flag true rfl)).advance (.raiseMaster 0 (by decide))
  exact ⟨_,again.advance (.take rfl rfl rfl),by decide,rfl⟩

/-- The timer's interrupt is the one that its handler ends. -/
theorem timer_ends_itself : ∃ s, Reach (Remapped biosPics) Step s ∧ s.pending = some .timer ∧
    ∀ i, (s.pics.master.writeCommand 0x20).serving i = false := by
  obtain ⟨s,reached,_,timer⟩ := disk_then_timer
  exact ⟨s,reached,timer,((requests_get_through biosPics s reached).2.2.2.1 _ timer).2.2⟩

/-- The second controller is never told the end of an interrupt. Along every run the numbers of the
interrupts taken from it fall, so each of its lines is served at most once, and once a line has been
served, no line from it on asks the processor again, whatever the devices do. -/
theorem slave_lines_served_once (c : Pics) (s : IrqRun) (reached : Reach (Remapped c) Step s) :
    (s.taken.filter (fun v => decide (0x28#8 ≤ v))).Pairwise (· > ·) ∧
    (s.taken.filter (fun v => decide (0x28#8 ≤ v))).length ≤ 8 ∧
    ∀ j k : Line, 0x28 + BitVec.ofNat 8 j ∈ s.taken → s.pics.slave.request = some k → k < j := by
  have ended := reached_ended reached
  refine ⟨ended.ordered,?_,?_⟩
  · have distinct : (s.taken.filter (fun v => decide (0x28#8 ≤ v))).Nodup :=
      ended.ordered.imp (fun {u v} later same => absurd later (by rw [same]; exact BitVec.lt_irrefl v))
    have lines : s.taken.filter (fun v => decide (0x28#8 ≤ v)) ⊆
        (finRange 8).map (fun k : Line => 0x28 + BitVec.ofNat 8 k) := by
      intro v member
      obtain ⟨member,above⟩ := mem_filter.mp member
      obtain ⟨k,_,rfl⟩ := (slave_number 7).2.2.2 v (of_decide_eq_true above) (ended.range v member).2
        (ended.range v member).2
      exact mem_map_of_mem (mem_finRange k)
    have few := (subperm_of_subset distinct lines).length_le
    rwa [length_map,length_finRange] at few
  · intro j k member asks
    obtain ⟨_,_,free⟩ := Pic.eligible_iff.mp (highest_some.mp asks).1
    by_contra later
    have busy := (ended.served j).mpr member
    rw [free j (not_lt.mp later)] at busy
    contradiction

/-- The disk's line is not served again. -/
theorem disk_served_once : ∃ s, Reach (Remapped biosPics) Step s ∧ s.taken = [0x2E,0x20] ∧
    s.pics.slave.request ≠ some 6 := by
  obtain ⟨s,reached,taken,_⟩ := disk_then_timer
  refine ⟨s,reached,taken,fun asks => ?_⟩
  have before := (slave_lines_served_once biosPics s reached).2.2 6 6 (by rw [taken]; decide) asks
  exact absurd before (lt_irrefl _)

end IrqRun

end RudimentaryKernel
