import Mathlib.Data.Fintype.Card
import RudimentaryKernel.Decimals
import RudimentaryKernel.Reach
import RudimentaryKernel.Uart16550

/-! The serial line of `drivers/serial.cpp`, written to by several threads. Nothing keeps a thread
that has found the transmitter empty from being preempted before it gives it its byte, so that
several threads can give one each. -/
namespace RudimentaryKernel

open Function

def Uart.initSerial (u : Uart) : Uart :=
  let u := u.outb .interruptEnable 0x00
  let u := u.outb .lineControl 0x80
  let u := u.outb .data 0x03
  let u := u.outb .interruptEnable 0x00
  let u := u.outb .lineControl 0x03
  let u := u.outb .fifoControl 0xC7
  u.outb .modemControl 0x0B

def withReturns (text : List Byte) : List Byte :=
  text.flatMap (fun c => if c = ascii '\n' then [ascii '\r',c] else [c])

/-- The four functions called `serial_print`. -/
inductive SerialPrint where
  | char (c : Byte)
  | string (text : List Byte)
  | buffer (text : List Byte)
  | int (value : Int)

def SerialPrint.bytes : SerialPrint → List Byte
  | .char c => [c]
  | .string text => withReturns (text.takeWhile (· ≠ 0))
  | .buffer text => withReturns text
  | .int value => serialPrint value

/-- Where a thread is: it prints nothing, or is in the loop of `serial_write`, or behind it. -/
inductive SerialPlace where
  | idle
  | polling (c : Byte) (rest : List Byte)
  | storing (c : Byte) (rest : List Byte)

namespace SerialPlace

def start : List Byte → SerialPlace
  | [] => .idle
  | c :: rest => .polling c rest

def pending : SerialPlace → List Byte
  | .idle => []
  | .polling c rest | .storing c rest => c :: rest

def stores : SerialPlace → Bool
  | .idle | .polling _ _ => false
  | .storing _ _ => true

theorem pending_start (text : List Byte) : (start text).pending = text := by
  cases text <;> rfl

theorem stores_start (text : List Byte) : (start text).stores = false := by
  cases text <;> rfl

end SerialPlace

/-- The port, the threads, what each has been told to print, and who has stored which byte. -/
structure SerialRun (τ : Type) where
  uart : Uart
  place : τ → SerialPlace
  printed : τ → List Byte
  history : List (τ × Byte)

namespace SerialRun

variable {τ : Type} [DecidableEq τ] {s t : SerialRun τ}

def Booted (s : SerialRun τ) : Prop :=
  (∃ u : Uart, s.uart = { u.initSerial with line := [], lost := [] }) ∧
  (∀ w, s.place w = .idle) ∧ (∀ w, s.printed w = []) ∧ s.history = []

/-- A thread calls a print function, reads the line status, or stores a byte; or the port sends one. -/
inductive Step (s : SerialRun τ) : SerialRun τ → Prop where
  | print {w} (call : SerialPrint) (idle : s.place w = .idle) : Step s { s with
      place := update s.place w (.start call.bytes)
      printed := update s.printed w (s.printed w ++ call.bytes) }
  | poll {w c rest} (other : Byte) (at' : s.place w = .polling c rest) : Step s { s with
      place := if s.uart.lineStatus other &&& 0x20 = 0 then s.place else update s.place w (.storing c rest) }
  | store {w c rest} (at' : s.place w = .storing c rest) : Step s { s with
      uart := s.uart.outb .data c
      place := update s.place w (.start rest)
      history := s.history ++ [(w,c)] }
  | send : Step s { s with uart := s.uart.send }

def storedBy (s : SerialRun τ) (w : τ) : List Byte := (s.history.filter (fun x => x.1 = w)).map Prod.snd

/-- The port is as `init_serial` left it. -/
structure Ready (u : Uart) : Prop where
  lineControl : u.lineControl = 0x03
  fifoControl : u.fifoControl = 0xC7
  divisor : u.divisorHigh ++ u.divisorLow = (0x0003 : BitVec 16)

theorem Ready.latch {u : Uart} (ready : Ready u) : u.divisorLatch = false := by
  rw [Uart.divisorLatch,ready.lineControl]
  decide

theorem Ready.data {u : Uart} (ready : Ready u) (c : Byte) : u.outb .data c = u.transmit c :=
  if_neg (by rw [ready.latch]; decide)

theorem Ready.places {u : Uart} (ready : Ready u) : u.places = 16 := by
  rw [Uart.places,ready.fifoControl]
  decide

theorem Ready.transmit {u : Uart} (ready : Ready u) (c : Byte) : Ready (u.transmit c) := by
  rw [Uart.transmit]
  split
  · exact ⟨ready.lineControl,ready.fifoControl,ready.divisor⟩
  · exact ⟨ready.lineControl,ready.fifoControl,ready.divisor⟩

/-- The first write goes to the divisor when the port was left with its latch open; the interrupts
of the port are then as they were. -/
theorem initSerial_eq (u : Uart) : u.initSerial = { u with
    divisorLow := 0x03
    divisorHigh := 0x00
    interruptEnable := if u.divisorLatch then u.interruptEnable else 0
    fifoControl := 0xC7
    lineControl := 0x03
    modemControl := 0x0B
    queue := [] } := by
  have first : u.outb .interruptEnable 0x00 =
      if u.divisorLatch then { u with divisorHigh := 0x00 } else { u with interruptEnable := 0x00 } := rfl
  rw [Uart.initSerial,first]
  split
  · simp [Uart.outb,Uart.divisorLatch]
  · simp [Uart.outb,Uart.divisorLatch]

theorem several_store (ws : List τ) (distinct : ws.Nodup) (reached : Reach Booted Step s) (ready : Ready s.uart)
    (bounded : s.uart.queue.length ≤ 16) (past : ∀ w ∈ ws, s.place w = .storing 0 []) :
    ∃ t : SerialRun τ, Reach Booted Step t ∧ t.uart.queue.length ≤ 16 ∧
      t.uart.queue.length + t.uart.lost.length = s.uart.queue.length + s.uart.lost.length + ws.length := by
  induction ws generalizing s with
  | nil => exact ⟨s,reached,bounded,rfl⟩
  | cons w ws ih =>
    obtain ⟨apart,distinct⟩ := List.nodup_cons.mp distinct
    have stores := Step.store (past w List.mem_cons_self)
    rw [ready.data] at stores
    have counted := Uart.transmit_counted 0 (ready.places.symm ▸ bounded)
    rw [ready.places] at counted
    have later : ∀ v ∈ ws, update s.place w (.start []) v = .storing 0 [] := by
      intro v member
      have other : v ≠ w := fun same => apart (same ▸ member)
      rw [update_of_ne other,past v (List.mem_cons_of_mem w member)]
    obtain ⟨t,there,within,total⟩ := ih distinct (reached.advance stores) (ready.transmit 0) counted.2 later
    refine ⟨t,there,within,total.trans ?_⟩
    dsimp only
    rw [counted.1,List.length_cons]
    omega

variable [Fintype τ]

/-- The threads that have found the transmitter empty and not stored yet. -/
def storing (place : τ → SerialPlace) : Finset τ := Finset.univ.filter (fun w => (place w).stores = true)

/-- No more bytes wait than there are threads, those of threads about to store included. -/
structure Kept (s : SerialRun τ) : Prop where
  ready : Ready s.uart
  lost : s.uart.lost = []
  order : s.uart.line ++ s.uart.queue = s.history.map Prod.snd
  writers : ∀ w, s.storedBy w ++ (s.place w).pending = s.printed w
  few : s.uart.queue.length + (storing s.place).card ≤ Fintype.card τ

theorem booted_kept (booted : s.Booted) : s.Kept := by
  obtain ⟨⟨u,port⟩,idle,printed,history⟩ := booted
  rw [initSerial_eq] at port
  have none : storing s.place = ∅ := by
    refine Finset.filter_eq_empty_iff.mpr (fun w _ => ?_)
    rw [idle]
    decide
  refine ⟨?_,by rw [port],?_,?_,?_⟩
  · rw [port]
    exact ⟨rfl,rfl,by simp only; decide⟩
  · rw [port,history]
    rfl
  · intro w
    rw [storedBy,history,idle,printed]
    rfl
  · rw [port,none]
    exact Nat.zero_le _

theorem storing_calm {place : τ → SerialPlace} {next : SerialPlace} {w : τ} (calm : next.stores = false) :
    storing (update place w next) = (storing place).erase w := by
  ext v
  rw [storing,storing,Finset.mem_erase,Finset.mem_filter,Finset.mem_filter]
  by_cases same : v = w
  · subst same
    simp [calm]
  · simp [same]

theorem Kept.print {w : τ} (kept : s.Kept) (call : SerialPrint) (idle : s.place w = .idle) :
    Kept { s with
      place := update s.place w (.start call.bytes)
      printed := update s.printed w (s.printed w ++ call.bytes) } := by
  refine ⟨kept.ready,kept.lost,kept.order,?_,?_⟩
  · intro v
    have before := kept.writers v
    dsimp only [storedBy] at before ⊢
    by_cases same : v = w
    · subst same
      rw [update_self,update_self,SerialPlace.pending_start,← before,idle]
      simp [SerialPlace.pending]
    · rw [update_of_ne same,update_of_ne same,before]
  · have few := kept.few
    have erased := Finset.card_erase_le (s := storing s.place) (a := w)
    dsimp only
    rw [storing_calm (SerialPlace.stores_start _)]
    omega

theorem Kept.poll {w : τ} {c : Byte} {rest : List Byte} (kept : s.Kept) (other : Byte) (at' : s.place w = .polling c rest) :
    Kept { s with
      place := if s.uart.lineStatus other &&& 0x20 = 0 then s.place else update s.place w (.storing c rest) } := by
  split
  · exact ⟨kept.ready,kept.lost,kept.order,kept.writers,kept.few⟩
  · rename_i seen
    have empty : s.uart.queue = [] := not_not.mp (mt (Uart.lineStatus_empty other).mpr seen)
    refine ⟨kept.ready,kept.lost,kept.order,?_,?_⟩
    · intro v
      have before := kept.writers v
      dsimp only [storedBy] at before ⊢
      by_cases same : v = w
      · subst same
        rw [update_self,← before,at']
        rfl
      · rw [update_of_ne same,before]
    · dsimp only
      rw [empty,List.length_nil,Nat.zero_add]
      exact Finset.card_le_univ _

theorem Kept.store {w : τ} {c : Byte} {rest : List Byte} (kept : s.Kept) (bound : Fintype.card τ ≤ 16)
    (at' : s.place w = .storing c rest) :
    Kept { s with
      uart := s.uart.outb .data c
      place := update s.place w (.start rest)
      history := s.history ++ [(w,c)] } := by
  have few := kept.few
  have member : w ∈ storing s.place := Finset.mem_filter.mpr ⟨Finset.mem_univ w,by rw [at']; rfl⟩
  have some' := Finset.card_pos.mpr ⟨w,member⟩
  have written : s.uart.outb .data c = { s.uart with queue := s.uart.queue ++ [c] } := by
    rw [kept.ready.data]
    exact Uart.transmit_room (by rw [kept.ready.places]; omega) c
  rw [written]
  refine ⟨⟨kept.ready.lineControl,kept.ready.fifoControl,kept.ready.divisor⟩,kept.lost,?_,?_,?_⟩
  · rw [List.map_append,← kept.order,List.append_assoc]
    rfl
  · intro v
    have before := kept.writers v
    dsimp only [storedBy] at before ⊢
    rw [List.filter_append,List.map_append]
    by_cases same : v = w
    · subst same
      rw [update_self,SerialPlace.pending_start,← before,at']
      simp [SerialPlace.pending]
    · rw [update_of_ne same,← before]
      simp [Ne.symm same]
  · dsimp only
    rw [storing_calm (SerialPlace.stores_start _),Finset.card_erase_of_mem member,List.length_append,List.length_singleton]
    omega

theorem Kept.send (kept : s.Kept) : Kept { s with uart := s.uart.send } := by
  obtain ⟨order,shorter⟩ := s.uart.send_order
  have same : s.uart.send = { s.uart with queue := s.uart.send.queue, line := s.uart.send.line } := by
    rw [Uart.send]
    split <;> rfl
  rw [same]
  refine ⟨⟨kept.ready.lineControl,kept.ready.fifoControl,kept.ready.divisor⟩,kept.lost,order.trans kept.order,kept.writers,?_⟩
  have few := kept.few
  dsimp only
  omega

theorem reached_kept (bound : Fintype.card τ ≤ 16) (reached : Reach Booted Step s) : s.Kept := by
  refine reached.invariant Kept (fun _ => booted_kept) ?_
  rintro s t kept (⟨call,idle⟩ | ⟨other,at'⟩ | at' | _)
  · exact kept.print call idle
  · exact kept.poll other at'
  · exact kept.store bound at'
  · exact kept.send

/-- Any number of threads can get there before one of them stores its byte. -/
theorem several_past_loop (ws : List τ) (distinct : ws.Nodup) : ∃ s : SerialRun τ, Reach Booted Step s ∧
    Ready s.uart ∧ s.uart.queue = [] ∧ (∀ w ∈ ws, s.place w = .storing 0 []) ∧ ∀ w, w ∉ ws → s.place w = .idle := by
  induction ws with
  | nil =>
    let port : Uart := ⟨0,0,0,0,0,0,[],[],[]⟩
    let s : SerialRun τ := ⟨{ port.initSerial with line := [], lost := [] },fun _ => .idle,fun _ => [],[]⟩
    have booted : s.Booted := ⟨⟨port,rfl⟩,fun _ => rfl,fun _ => rfl,rfl⟩
    refine ⟨s,.start booted,(booted_kept booted).ready,?_,?_,fun _ _ => rfl⟩
    · dsimp only [s]
      rw [initSerial_eq]
    · intro w member
      exact absurd member List.not_mem_nil
  | cons w ws ih =>
    obtain ⟨apart,distinct⟩ := List.nodup_cons.mp distinct
    obtain ⟨s,reached,ready,empty,past,idle⟩ := ih distinct
    let called : SerialRun τ := { s with
      place := update s.place w (.start [0])
      printed := update s.printed w (s.printed w ++ [0]) }
    have calls : Step s called := .print (.char 0) (idle w apart)
    have polls := Step.poll (s := called) 0 (update_self (β := fun _ => SerialPlace) w (.polling 0 []) s.place)
    have seen : ¬called.uart.lineStatus 0 &&& 0x20 = 0 := fun full => (Uart.lineStatus_empty 0).mp full empty
    rw [if_neg seen] at polls
    refine ⟨_,(reached.advance calls).advance polls,ready,empty,?_,?_⟩
    · intro v member
      by_cases same : v = w
      · rw [same]
        exact update_self ..
      · have earlier := past v ((List.mem_cons.mp member).resolve_left same)
        dsimp only [called]
        rw [update_of_ne same,update_of_ne same,earlier]
    · intro v outside
      obtain ⟨other,outside⟩ := not_or.mp (mt List.mem_cons.mpr outside)
      dsimp only [called]
      rw [update_of_ne other,update_of_ne other,idle v outside]

/-- As long as at most sixteen threads print, one for each place of the port's queue, no byte is
lost, nothing stands on the line that was not printed, and each thread's bytes keep their order.
With more it can lose one. -/
theorem serial_bytes_kept : Fintype.card τ ≤ 16 ↔ ∀ s : SerialRun τ, Reach Booted Step s →
    Ready s.uart ∧ s.uart.lost = [] ∧ s.uart.line ++ s.uart.queue = s.history.map Prod.snd ∧
    ∀ w, s.storedBy w ++ (s.place w).pending = s.printed w := by
  constructor
  · intro bound s reached
    have kept := reached_kept bound reached
    exact ⟨kept.ready,kept.lost,kept.order,kept.writers⟩
  · intro all
    by_contra many
    obtain ⟨s,reached,ready,empty,past,-⟩ := several_past_loop (Finset.univ : Finset τ).toList (Finset.nodup_toList _)
    obtain ⟨t,there,within,total⟩ := several_store _ (Finset.nodup_toList _) reached ready (by rw [empty]; decide) past
    rw [(all t there).2.1,(all s reached).2.1,empty,Finset.length_toList,Finset.card_univ] at total
    simp only [List.length_nil] at total
    omega

end SerialRun

end RudimentaryKernel
