import RudimentaryKernel.Circular
import RudimentaryKernel.Target

/-! The keyboard of `drivers/keyboard.cpp`: a ring of 64 characters that the interrupt
handler fills at `kbd_head` and `kbd_getchar` empties at `kbd_tail`. One place stays
free, so that equal indices mean an empty ring. -/
namespace RudimentaryKernel

open Function Circular

def kbdBufferSize : Nat := 64

/-- `scancode_map`; 39 and 96 are the two quotes on their keys. -/
def scancodeMap : List Byte :=
  [0,27] ++ ['1','2','3','4','5','6','7','8','9','0','-','='].map ascii ++ [8,9] ++
    ['q','w','e','r','t','y','u','i','o','p','[',']'].map ascii ++ [10,0] ++
    ['a','s','d','f','g','h','j','k','l',';'].map ascii ++ [39,96,0] ++
    ['\\','z','x','c','v','b','n','m',',','.','/'].map ascii ++ [0,ascii '*',0,ascii ' '] ++
    List.replicate 70 0

structure Keyboard where
  buffer : Int → Byte
  head : Int
  tail : Int

namespace Keyboard

def store (k : Keyboard) (c : Byte) : Keyboard :=
  let next := (k.head + 1).tmod kbdBufferSize
  if next ≠ k.tail then { k with buffer := update k.buffer k.head c, head := next } else k

def handler (k : Keyboard) (scancode : Byte) : Keyboard :=
  if scancode &&& 0x80 ≠ 0 then k
  else
    let c := if scancode.toNat < 58 then scancodeMap.getD scancode.toNat 0 else 0
    if c = 0 then k else k.store c

def getchar (k : Keyboard) : Keyboard × Int :=
  if k.head = k.tail then (k,-1)
  else ({ k with tail := (k.tail + 1).tmod kbdBufferSize },(k.buffer k.tail).toInt)

/-- The characters between the indices, oldest first. -/
def buffered (k : Keyboard) : List Byte :=
  read kbdBufferSize (fun i : Nat => k.buffer i) k.tail.toNat ((k.head - k.tail) % kbdBufferSize).toNat

end Keyboard

def keyDown (scancode : Byte) : Option Byte :=
  if scancode.toNat < 128 ∧ scancodeMap.getD scancode.toNat 0 ≠ 0 then
    some (scancodeMap.getD scancode.toNat 0)
  else none

namespace Keyboard

variable {k : Keyboard} {queue : List Byte} {c : Byte}

theorem handler_keyDown (k : Keyboard) (scancode : Byte) : k.handler scancode =
    match keyDown scancode with
    | none => k
    | some c => k.store c := by
  have up : ∀ s : Byte, s &&& 0x80 ≠ 0 ↔ ¬s.toNat < 128 := by decide +kernel
  have rest : ∀ s : Byte, s.toNat < 128 →
      (if s.toNat < 58 then scancodeMap.getD s.toNat 0 else 0) = scancodeMap.getD s.toNat 0 := by
    decide +kernel
  unfold handler keyDown
  by_cases down : scancode.toNat < 128
  · rw [if_neg (fun set => (up scancode).mp set down),rest scancode down]
    by_cases mapped : scancodeMap.getD scancode.toNat 0 = 0
    · simp only [mapped,ne_eq,not_true_eq_false,and_false,if_true,if_false]
    · simp only [mapped,down,ne_eq,not_false_eq_true,and_self,if_true,if_false]
  · rw [if_pos ((up scancode).mpr down),if_neg (fun both => down both.1)]

theorem scancodeMap_positive : ∀ c ∈ scancodeMap, c.msb = false := by
  have all : scancodeMap.all (fun c => !c.msb) = true := by decide +kernel
  simpa using all

/-- No character of the map reads as the `-1` of an empty ring. -/
theorem keyDown_nonneg {scancode : Byte} (mapped : keyDown scancode = some c) : 0 ≤ c.toInt := by
  unfold keyDown at mapped
  split at mapped
  case isTrue typed =>
    cases mapped
    have inside : scancode.toNat < scancodeMap.length := typed.1
    rw [List.getD_eq_getElem?_getD,List.getElem?_eq_getElem inside,Option.getD_some]
    exact BitVec.toInt_nonneg_of_msb_false (scancodeMap_positive _ (List.getElem_mem inside))
  case isFalse => cases mapped

/-- The ring holds the characters of the queue, oldest first. -/
structure Holds (k : Keyboard) (queue : List Byte) : Prop where
  room : queue.length < kbdBufferSize
  low : 0 ≤ k.tail
  high : k.tail < kbdBufferSize
  head : k.head = (k.tail + queue.length) % kbdBufferSize
  bytes : read kbdBufferSize (fun i : Nat => k.buffer i) k.tail.toNat queue.length = queue
  characters : ∀ c ∈ queue, 0 ≤ c.toInt

theorem Holds.head_bounds (holds : k.Holds queue) : 0 ≤ k.head ∧ k.head < kbdBufferSize := by
  have head := holds.head
  simp only [kbdBufferSize] at head ⊢
  omega

theorem Holds.distance (holds : k.Holds queue) :
    ((k.head - k.tail) % kbdBufferSize).toNat = queue.length := by
  have room := holds.room
  have head := holds.head
  simp only [kbdBufferSize] at room head ⊢
  omega

theorem Holds.buffered_eq (holds : k.Holds queue) : k.buffered = queue := by
  rw [buffered,holds.distance,holds.bytes]

theorem Holds.empty_iff (holds : k.Holds queue) : k.head = k.tail ↔ queue = [] := by
  have distance := holds.distance
  have bounds := holds.head_bounds
  have low := holds.low
  have high := holds.high
  rw [← List.length_eq_zero_iff,← distance]
  simp only [kbdBufferSize] at bounds high ⊢
  omega

theorem Holds.store_full (holds : k.Holds queue) (full : queue.length = kbdBufferSize - 1) :
    k.store c = k := by
  have head := holds.head
  have low := holds.low
  have high := holds.high
  have next : (k.head + 1).tmod kbdBufferSize = k.tail := by
    rw [Int.tmod_eq_emod_of_nonneg (by have := holds.head_bounds; omega)]
    simp only [kbdBufferSize] at head high full ⊢
    omega
  rw [store,if_neg (not_not.mpr next)]

theorem Holds.store (holds : k.Holds queue) (space : queue.length + 1 < kbdBufferSize)
    (positive : 0 ≤ c.toInt) : (k.store c).Holds (queue ++ [c]) := by
  have head := holds.head
  have low := holds.low
  have high := holds.high
  obtain ⟨bottom,top⟩ := holds.head_bounds
  obtain ⟨start,tail⟩ := Int.eq_ofNat_of_zero_le low
  have next : (k.head + 1).tmod kbdBufferSize = (k.tail + (queue ++ [c]).length) % kbdBufferSize := by
    rw [Int.tmod_eq_emod_of_nonneg (by omega),head,Int.emod_add_emod]
    simp [Int.add_assoc]
  have apart : (k.head + 1).tmod kbdBufferSize ≠ k.tail := by
    rw [next]
    simp only [kbdBufferSize,List.length_append,List.length_singleton] at high space ⊢
    omega
  have place : k.head = ((start + queue.length) % kbdBufferSize : Nat) := by
    rw [head,tail]
    push_cast
    rfl
  have bytes := holds.bytes
  have written : (fun i : Nat => update k.buffer k.head c i) =
      write kbdBufferSize (fun i : Nat => k.buffer i) (start + queue.length) [c] := by
    rw [place]
    exact update_comp_eq_of_injective k.buffer (fun _ _ => Int.ofNat.inj) _ c
  rw [Keyboard.store,if_pos apart]
  refine ⟨by simpa using space,low,high,next,?_,?_⟩
  · dsimp only
    rw [tail,Int.toNat_natCast] at bytes ⊢
    rw [written,List.length_append,read_append,read_before le_rfl (by simp; omega),bytes]
    rw [read_write (by simp; omega)]
  · simpa [or_imp,forall_and] using ⟨holds.characters,positive⟩

theorem Holds.getchar_empty (holds : k.Holds []) : k.getchar = (k,-1) := by
  rw [getchar,if_pos (holds.empty_iff.mpr rfl)]

theorem Holds.getchar (holds : k.Holds (c :: queue)) :
    k.getchar.2 = c.toInt ∧ k.getchar.1.Holds queue := by
  have filled : k.head ≠ k.tail := fun same => by simpa using holds.empty_iff.mp same
  have room := holds.room
  have head := holds.head
  have low := holds.low
  have bytes := holds.bytes
  rw [List.length_cons] at room
  rw [List.length_cons,Nat.add_comm,read_append,← List.singleton_append] at bytes
  obtain ⟨first,rest⟩ := List.append_inj bytes (by simp)
  obtain ⟨start,tail⟩ := Int.eq_ofNat_of_zero_le low
  have inside : start % kbdBufferSize = start := Nat.mod_eq_of_lt (by have := holds.high; omega)
  have next : (k.tail + 1).tmod kbdBufferSize = (((start + 1) % kbdBufferSize : Nat) : Int) := by
    rw [Int.tmod_eq_emod_of_nonneg (by omega),tail]
    push_cast
    rfl
  rw [Keyboard.getchar,if_neg filled]
  constructor
  · rw [tail,Int.toNat_natCast,read_one,inside,List.singleton_inj] at first
    rw [tail,first]
  · refine ⟨by omega,?_,?_,?_,?_,fun c member => holds.characters c (List.mem_cons_of_mem _ member)⟩
    · dsimp only
      omega
    · dsimp only
      rw [next]
      exact_mod_cast Nat.mod_lt _ (Nat.zero_lt_succ _)
    · dsimp only
      rw [next,head,tail,Int.natCast_mod,Int.emod_add_emod,List.length_cons]
      congr 1
      omega
    · dsimp only
      rw [tail,Int.toNat_natCast] at rest
      rw [next,Int.toNat_natCast,read_mod]
      exact rest

end Keyboard

inductive KbdEvent where
  | interrupt (scancode : Byte)
  | getchar
  deriving DecidableEq

/-- The keyboard together with its history: the characters `kbd_getchar` has returned, and
each mapped character received with the number of characters buffered when it came. -/
structure KbdRun where
  kbd : Keyboard
  returned : List Int
  received : List (Byte × Nat)

namespace KbdRun

def initial : KbdRun := ⟨⟨fun _ => 0,0,0⟩,[],[]⟩

def perform (r : KbdRun) : KbdEvent → KbdRun
  | .interrupt scancode =>
    { r with
      kbd := r.kbd.handler scancode
      received := r.received ++ (keyDown scancode).toList.map (·,r.kbd.buffered.length) }
  | .getchar =>
    let (kbd,result) := r.kbd.getchar
    { r with kbd := kbd, returned := if result = -1 then r.returned else r.returned ++ [result] }

def run (events : List KbdEvent) : KbdRun := events.foldl perform initial

def accepted (r : KbdRun) : List Int :=
  (r.received.filter (fun arrival => arrival.2 ≠ kbdBufferSize - 1)).map (fun arrival => arrival.1.toInt)

/-- What was accepted is what has been returned and then what the ring holds. -/
def Fifo (r : KbdRun) : Prop :=
  ∃ queue, r.kbd.Holds queue ∧ r.returned ++ queue.map BitVec.toInt = r.accepted

variable {r : KbdRun}

theorem initial_fifo : initial.Fifo :=
  ⟨[],⟨by decide,by decide,by decide,rfl,rfl,by simp⟩,rfl⟩

theorem Fifo.interrupt (fifo : r.Fifo) (scancode : Byte) : (r.perform (.interrupt scancode)).Fifo := by
  obtain ⟨queue,holds,account⟩ := fifo
  have handled := r.kbd.handler_keyDown scancode
  cases mapped : keyDown scancode with
  | none =>
    rw [mapped] at handled
    refine ⟨queue,?_,?_⟩
    · simpa only [perform,handled] using holds
    · simpa [perform,mapped,accepted] using account
  | some c =>
    rw [mapped] at handled
    have room := holds.room
    by_cases full : queue.length = kbdBufferSize - 1
    · refine ⟨queue,?_,?_⟩
      · simpa only [perform,handled,holds.store_full full] using holds
      · simpa [perform,mapped,accepted,holds.buffered_eq,full] using account
    · refine ⟨queue ++ [c],?_,?_⟩
      · simpa only [perform,handled] using holds.store (by omega) (Keyboard.keyDown_nonneg mapped)
      · have taken : (r.perform (.interrupt scancode)).accepted = r.accepted ++ [c.toInt] := by
          simp [perform,mapped,accepted,holds.buffered_eq,full]
        rw [taken,← account]
        simp [perform]

theorem Fifo.getchar (fifo : r.Fifo) : (r.perform .getchar).Fifo := by
  obtain ⟨queue,holds,account⟩ := fifo
  cases queue with
  | nil =>
    refine ⟨[],?_,?_⟩
    · simpa only [perform,holds.getchar_empty] using holds
    · simpa only [perform,holds.getchar_empty,if_true] using account
  | cons c queue =>
    obtain ⟨result,after⟩ := holds.getchar
    have character := holds.characters c List.mem_cons_self
    have proper : r.kbd.getchar.2 ≠ -1 := by omega
    refine ⟨queue,after,?_⟩
    have returned : (r.perform .getchar).returned = r.returned ++ [c.toInt] := by
      rw [← result]
      exact if_neg proper
    rw [returned,List.append_assoc]
    exact account

theorem run_fifo (events : List KbdEvent) : (run events).Fifo := by
  unfold run
  induction events using List.reverseRecOn with
  | nil => exact initial_fifo
  | append_singleton events event ih =>
    rw [List.foldl_append]
    cases event with
    | interrupt scancode => exact ih.interrupt scancode
    | getchar => exact ih.getchar

/-- In every run the characters returned and then those buffered are the mapped characters
received, in order, without those that came when 63 were buffered; `-1` is returned
exactly when nothing is buffered, and the indices stay inside the ring. -/
theorem keyboard_fifo (events : List KbdEvent) :
    (run events).returned ++ (run events).kbd.buffered.map BitVec.toInt =
        ((run events).received.filter (fun arrival => arrival.2 ≠ 63)).map (fun arrival => arrival.1.toInt) ∧
      ((run events).kbd.getchar.2 = -1 ↔ (run events).kbd.buffered = []) ∧
      (0 ≤ (run events).kbd.head ∧ (run events).kbd.head < kbdBufferSize) ∧
      (0 ≤ (run events).kbd.tail ∧ (run events).kbd.tail < kbdBufferSize) := by
  obtain ⟨queue,holds,account⟩ := run_fifo events
  rw [holds.buffered_eq]
  refine ⟨account,?_,holds.head_bounds,holds.low,holds.high⟩
  cases queue with
  | nil => simp [holds.getchar_empty]
  | cons c queue =>
    have result := holds.getchar.1
    have character := holds.characters c List.mem_cons_self
    simp only [result,reduceCtorEq,iff_false]
    omega

end KbdRun

end RudimentaryKernel
