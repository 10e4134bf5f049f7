import RudimentaryKernel.Keyboard
import RudimentaryKernel.ProgramNames
import RudimentaryKernel.Shell

/-! From the keys to the programs that the shell asks for. Interrupts of the keyboard come at any
time, and the shell of `user/shell.cpp` takes one character after the other out of the ring. The
names it gives to `call_exec` are the lines that were typed. -/
namespace RudimentaryKernel

open Function List

/-- What editing means: the line so far and the lines that were entered. -/
structure Edit where
  line : List Byte
  entered : List (List Byte)

namespace Edit

def empty : Edit := ⟨[],[]⟩

/-- Enter ends a line that is not empty, backspace takes the last character back, other control
characters do nothing, and a line has at most 127 characters. -/
def type (e : Edit) (c : Byte) : Edit :=
  if c = 10 then ⟨[],if e.line = [] then e.entered else e.entered ++ [e.line]⟩
  else if c = 8 then { e with line := e.line.dropLast }
  else if c.toNat < 0x20 then e
  else if e.line.length < 127 then { e with line := e.line ++ [c] }
  else e

end Edit

namespace Shell

def edit (s : Shell) : Edit := ⟨(range s.len.toNat).map (fun i : Nat => s.line i),s.requests⟩

/-- The length is inside the buffer, and the line has no NUL. -/
structure Proper (s : Shell) : Prop where
  low : 0 ≤ s.len
  high : s.len ≤ 127
  real : ∀ i : Nat, (i : Int) < s.len → s.line i ≠ 0

variable {s t : Shell} {u : ShellMemory} {fuel : Nat} {c : Byte}

def Key (c : Byte) : Prop := c ≠ 0 ∧ c ≠ ascii '%' ∧ c.toNat < 0x7F

theorem Key.toInt (key : Key c) : c.toInt = c.toNat := BitVec.toInt_eq_toNat_of_lt (by have := key.2.2; omega)

theorem keyDown_key {scancode : Byte} (mapped : keyDown scancode = some c) : Key c := by
  have all : scancodeMap.all (fun c => c != ascii '%' && decide (c.toNat < 0x7F)) = true := by decide +kernel
  unfold keyDown at mapped
  split at mapped
  case isTrue typed =>
    cases mapped
    have inside : scancode.toNat < scancodeMap.length := typed.1
    have member : scancodeMap.getD scancode.toNat 0 ∈ scancodeMap := by
      rw [getD_eq_getElem?_getD,getElem?_eq_getElem inside,Option.getD_some]
      exact getElem_mem inside
    have printable := all_eq_true.mp all _ member
    rw [Bool.and_eq_true,bne_iff_ne,decide_eq_true_eq] at printable
    exact ⟨typed.2,printable⟩
  case isFalse => cases mapped

theorem shellWrite_prompt : s.shellWrite u.memory fuel u.prompt = if 2 < fuel then
    some { s with console := [ascii '>',ascii ' '].foldl (fun console c => console.putc c .both) s.console } else none := by
  rw [shellWrite,Console.fdPrintf_text _ _ _ _ u.promptText (by decide)]
  simp only [length_cons,length_nil]
  split <;> rfl

theorem takeWhile_range {f : Nat → Byte} {n m : Nat} (less : n < m) (stop : f n = 0) (real : ∀ i < n, f i ≠ 0) :
    ((range m).map f).takeWhile (· ≠ 0) = (range n).map f := by
  obtain ⟨k,rfl⟩ : ∃ k, m = n + (k + 1) := ⟨m - n - 1,by omega⟩
  rw [range_add,map_append,range_succ_eq_map,map_cons,map_cons,takeWhile_append_of_pos,
    takeWhile_cons_of_neg (by simpa using stop),append_nil]
  intro c member
  obtain ⟨i,inside,rfl⟩ := mem_map.mp member
  simpa using real i (mem_range.mp inside)

theorem entered_text (proper : s.Proper) :
    ((range 128).map (fun i : Nat => update s.line s.len 0 i)).takeWhile (· ≠ 0) = s.edit.line := by
  obtain ⟨low,high,real⟩ := proper
  obtain ⟨n,is⟩ := Int.eq_ofNat_of_zero_le low
  have before : ∀ i : Nat, i < n → update s.line s.len 0 i = s.line i := by
    intro i less
    exact update_of_ne (by omega) ..
  rw [takeWhile_range (n := n) (by omega),edit,is,Int.toNat_natCast]
  · refine map_congr_left (fun i member => ?_)
    rw [← is]
    exact before i (mem_range.mp member)
  · rw [is,update_self]
  · intro i less
    rw [before i less]
    exact real i (by omega)

theorem edit_length (proper : s.Proper) : (s.edit.line.length : Int) = s.len := by
  rw [edit,length_map,length_range,Int.toNat_of_nonneg proper.low]

theorem shellWrite_only {memory : ByteMemory.Memory} {text : Nat} (echo : s.shellWrite memory fuel text = some t) :
    ∃ console, t = { s with console := console } := by
  obtain ⟨console,_,rfl⟩ := Option.map_eq_some_iff.mp echo
  exact ⟨console,rfl⟩

theorem shellPutc_only (echo : s.shellPutc u fuel c = some t) : ∃ console, t = { s with console := console } := by
  obtain ⟨console,_,rfl⟩ := Option.map_eq_some_iff.mp echo
  exact ⟨console,rfl⟩

theorem edit_shorter (proper : s.Proper) (filled : 0 < s.len) (console : Console) :
    ({ s with len := s.len - 1, console := console } : Shell).Proper ∧
    ({ s with len := s.len - 1, console := console } : Shell).edit = { s.edit with line := s.edit.line.dropLast } := by
  obtain ⟨low,high,real⟩ := proper
  obtain ⟨n,is⟩ := Int.eq_ofNat_of_zero_le low
  obtain ⟨n,rfl⟩ : ∃ k, n = k + 1 := ⟨n - 1,by omega⟩
  have shorter : (s.len - 1).toNat = n := by omega
  have whole : s.len.toNat = n + 1 := by omega
  refine ⟨⟨by dsimp only; omega,by dsimp only; omega,?_⟩,?_⟩
  · intro i less
    exact real i (by dsimp only at less; omega)
  · simp only [edit,shorter,whole,range_succ,map_append,map_singleton,dropLast_concat]

theorem edit_longer (proper : s.Proper) (room : s.len < 127) (nonzero : c ≠ 0) (console : Console) :
    ({ s with line := update s.line s.len c, len := s.len + 1, console := console } : Shell).Proper ∧
    ({ s with line := update s.line s.len c, len := s.len + 1, console := console } : Shell).edit =
      { s.edit with line := s.edit.line ++ [c] } := by
  obtain ⟨low,high,real⟩ := proper
  obtain ⟨n,is⟩ := Int.eq_ofNat_of_zero_le low
  have before : ∀ i : Nat, i < n → update s.line (n : Int) c i = s.line i := by
    intro i less
    exact update_of_ne (by omega) ..
  refine ⟨⟨by dsimp only; omega,by dsimp only; omega,?_⟩,?_⟩
  · intro i less
    dsimp only at less ⊢
    rw [is]
    by_cases last : i = n
    · rw [last,update_self]
      exact nonzero
    · rw [before i (by omega)]
      exact real i (by omega)
  · have longer : ((n : Int) + 1).toNat = n + 1 := by omega
    simp only [edit,is,longer,Int.toNat_natCast,range_succ,map_append,map_singleton,update_self]
    rw [map_congr_left (fun i member => before i (mem_range.mp member))]

theorem enter_edit (proper : s.Proper) (entered : s.enter u fuel = some t) :
    t.Proper ∧ t.edit = ⟨[],if s.edit.line = [] then s.requests else s.requests ++ [s.edit.line]⟩ := by
  have length := edit_length proper
  rw [enter] at entered
  dsimp only at entered
  rw [entered_text proper] at entered
  have restarted : ∀ {line : Int → Byte} {console : Console} {requests : List (List Byte)},
      (⟨line,0,console,requests⟩ : Shell).Proper :=
    ⟨show (0 : Int) ≤ 0 by decide,show (0 : Int) ≤ 127 by decide,fun i less => absurd less (by dsimp only; omega)⟩
  by_cases filled : s.len > 0
  · have some' : s.edit.line ≠ [] := by
      rw [ne_eq,← length_eq_zero_iff]
      omega
    rw [if_pos filled] at entered
    obtain ⟨console,rfl⟩ := shellWrite_only entered
    rw [if_neg some']
    exact ⟨restarted,rfl⟩
  · have none : s.edit.line = [] := by
      rw [← length_eq_zero_iff]
      omega
    rw [if_neg filled] at entered
    obtain ⟨console,rfl⟩ := shellWrite_only entered
    rw [if_pos none]
    exact ⟨restarted,rfl⟩

/-- One turn of the loop does to the line what the key means, whatever becomes of the screen. -/
theorem keystroke_edit (proper : s.Proper) (key : Key c) (typed : s.keystroke u fuel c.toInt = some t) :
    t.Proper ∧ t.edit = s.edit.type c := by
  have value := key.toInt
  have length := edit_length proper
  have ten : c.toInt = 10 ↔ c = 10 := by
    rw [value,← BitVec.toNat_inj]
    simp only [BitVec.reduceToNat,BitVec.ofNat_eq_ofNat]
    omega
  have eight : c.toInt = 8 ↔ c = 8 := by
    rw [value,← BitVec.toNat_inj]
    simp only [BitVec.reduceToNat,BitVec.ofNat_eq_ofNat]
    omega
  rw [keystroke,if_neg (by omega)] at typed
  rw [Edit.type]
  split at typed
  · rename_i control
    obtain rfl := Option.some.inj typed
    rw [if_neg (fun same => control.2.1 (ten.mpr same)),if_neg (fun same => control.2.2 (eight.mpr same)),
      if_pos (by omega)]
    exact ⟨proper,rfl⟩
  · rename_i shown
    split at typed
    · rename_i back
      rw [if_neg (by rw [← ten]; omega),if_pos (eight.mp back)]
      split at typed
      · rename_i filled
        obtain ⟨console,rfl⟩ := shellWrite_only typed
        exact edit_shorter proper filled console
      · rename_i bare
        obtain rfl := Option.some.inj typed
        have none : s.edit.line = [] := by
          rw [← length_eq_zero_iff]
          omega
        refine ⟨proper,?_⟩
        rw [none,dropLast_nil,← none]
    · rename_i glyph
      split at typed
      · contradiction
      · rename_i echoed echo
        obtain ⟨console,rfl⟩ := shellPutc_only echo
        split at typed
        · rename_i newline
          rw [if_pos (ten.mp newline)]
          exact enter_edit (s := { s with console := console }) ⟨proper.low,proper.high,proper.real⟩ typed
        · rename_i other
          rw [if_neg (fun same => other (ten.mpr same)),if_neg (fun same => glyph (eight.mpr same)),
            if_neg (by omega)]
          split at typed
          · rename_i room
            obtain rfl := Option.some.inj typed
            dsimp only at room
            rw [if_pos (by omega),BitVec.ofInt_toInt]
            exact edit_longer proper room key.1 console
          · rename_i full
            obtain rfl := Option.some.inj typed
            dsimp only at full
            rw [if_neg (by omega)]
            exact ⟨⟨proper.low,proper.high,proper.real⟩,rfl⟩

theorem keystroke_returns (key : Key c) (enough : 3 < fuel) : ∃ t, s.keystroke u fuel c.toInt = some t := by
  have value := key.toInt
  have echo : ∀ s : Shell, s.shellPutc u fuel (BitVec.ofInt 8 c.toInt) =
      some { s with console := { s.console with vga := s.console.vga.putChar c } } := by
    intro s
    rw [BitVec.ofInt_toInt,shellPutc_plain key.1 key.2.1,if_pos (by omega)]
  rw [keystroke,if_neg (by omega)]
  split
  · exact ⟨s,rfl⟩
  · split
    · split
      · rw [shellWrite_erase,if_pos enough]
        exact ⟨_,rfl⟩
      · exact ⟨s,rfl⟩
    · rw [echo]
      dsimp only
      split
      · rw [enter,shellWrite_prompt,if_pos (by omega)]
        exact ⟨_,rfl⟩
      · split
        · exact ⟨_,rfl⟩
        · exact ⟨_,rfl⟩

end Shell

namespace Edit

open Shell

/-- Lines have characters of keys, and room in the buffer. -/
structure Fits (e : Edit) : Prop where
  keys : ∀ c ∈ e.line, Key c
  short : e.line.length ≤ 127
  entered : ∀ line ∈ e.entered, line ≠ [] ∧ line.length ≤ 127 ∧ ∀ c ∈ line, Key c

theorem Fits.type {e : Edit} {c : Byte} (fits : e.Fits) (key : Key c) : (e.type c).Fits := by
  obtain ⟨keys,short,entered⟩ := fits
  rw [Edit.type]
  split
  · refine ⟨fun c none => absurd none not_mem_nil,Nat.zero_le _,?_⟩
    dsimp only
    split
    · exact entered
    · rename_i filled
      intro line member
      rw [mem_append,mem_singleton] at member
      rcases member with before | rfl
      · exact entered line before
      · exact ⟨filled,short,keys⟩
  · split
    · refine ⟨fun c member => keys c (dropLast_subset _ member),?_,entered⟩
      rw [length_dropLast]
      omega
    · split
      · exact ⟨keys,short,entered⟩
      · split
        · rename_i room
          refine ⟨?_,by rw [length_append,length_singleton]; omega,entered⟩
          intro d member
          rw [mem_append,mem_singleton] at member
          rcases member with before | rfl
          · exact keys d before
          · exact key
        · exact ⟨keys,short,entered⟩

theorem typed_fits {typed : List Byte} (keys : ∀ c ∈ typed, Key c) : (typed.foldl Edit.type Edit.empty).Fits := by
  induction typed using List.reverseRecOn with
  | nil => exact ⟨fun c none => absurd none not_mem_nil,by decide,fun l none => absurd none not_mem_nil⟩
  | append_singleton typed c ih =>
    rw [foldl_append]
    exact (ih (fun c member => keys c (mem_append_left _ member))).type (keys c (mem_append_right _ (mem_singleton.mpr rfl)))

end Edit

/-- Where `_start` is: dropping what was typed before it, writing its greeting, asking for a
character, or at work on one. -/
inductive ShellPhase where
  | draining (i : Nat)
  | greeting
  | polling
  | handling (c : Int)

/-- The keyboard and the shell, with the number of characters that it has dropped. -/
structure ShellRun where
  kbd : KbdRun
  phase : ShellPhase
  skipped : Nat
  shell : Shell

namespace ShellRun

open Shell

def Booted (s : ShellRun) : Prop := s.kbd = KbdRun.initial ∧ s.phase = .draining 0 ∧ s.skipped = 0

/-- A key goes down or up, or the shell takes a step. Its variables are set behind the greeting. -/
inductive Step (s : ShellRun) : ShellRun → Prop where
  | key (scancode : Byte) : Step s { s with kbd := s.kbd.perform (.interrupt scancode) }
  | drain {i} (at' : s.phase = .draining i) : Step s { s with
      kbd := s.kbd.perform .getchar
      phase := if s.kbd.kbd.getchar.2 = -1 then .greeting else if i + 1 < 256 then .draining (i + 1) else .greeting
      skipped := if s.kbd.kbd.getchar.2 = -1 then s.skipped else s.skipped + 1 }
  | greet (shell : Shell) (at' : s.phase = .greeting) (fresh : shell.len = 0 ∧ shell.requests = []) :
      Step s { s with phase := .polling, shell := shell }
  | poll (at' : s.phase = .polling) : Step s { s with
      kbd := s.kbd.perform .getchar
      phase := if s.kbd.kbd.getchar.2 = -1 then .polling else .handling s.kbd.kbd.getchar.2 }
  | handle {c u fuel t} (at' : s.phase = .handling c) (done : s.shell.keystroke u fuel c = some t) :
      Step s { s with phase := .polling, shell := t }

def pending : ShellPhase → List Int
  | .handling c => [c]
  | _ => []

/-- The shell behind its greeting has the line that the characters it was given make. -/
structure Follows (s : ShellRun) : Prop where
  fifo : s.kbd.Fifo
  keys : ∀ x ∈ s.kbd.received, Key x.1
  few : s.skipped ≤ 256
  before : ∀ i, s.phase = .draining i → s.skipped = i ∧ i < 256
  start : (s.phase = .greeting ∨ ∃ i, s.phase = .draining i) → s.kbd.returned.length = s.skipped
  running : (s.phase = .polling ∨ ∃ c, s.phase = .handling c) →
    ∃ typed : List Byte, (∀ c ∈ typed, Key c) ∧ s.shell.Proper ∧
      s.kbd.returned.drop s.skipped = typed.map BitVec.toInt ++ pending s.phase ∧
      s.skipped ≤ s.kbd.returned.length ∧ s.shell.edit = typed.foldl Edit.type Edit.empty

variable {s t : ShellRun}

theorem accepted_key {r : KbdRun} (keys : ∀ x ∈ r.received, Key x.1) {v : Int} (member : v ∈ r.accepted) :
    ∃ c : Byte, Key c ∧ v = c.toInt := by
  obtain ⟨x,received,rfl⟩ := mem_map.mp member
  exact ⟨x.1,keys x (mem_of_mem_filter received),rfl⟩

theorem returned_accepted {r : KbdRun} (fifo : r.Fifo) {v : Int} (member : v ∈ r.returned) : v ∈ r.accepted := by
  obtain ⟨queue,_,account⟩ := fifo
  rw [← account]
  exact mem_append_left _ member

theorem getchar_some {r : KbdRun} (some' : r.kbd.getchar.2 ≠ -1) :
    (r.perform .getchar).returned = r.returned ++ [r.kbd.getchar.2] := if_neg some'

theorem getchar_none {r : KbdRun} (none : r.kbd.getchar.2 = -1) : (r.perform .getchar).returned = r.returned :=
  if_pos none

theorem Follows.key (follows : Follows s) (scancode : Byte) :
    Follows { s with kbd := s.kbd.perform (.interrupt scancode) } := by
  refine ⟨follows.fifo.interrupt scancode,?_,follows.few,follows.before,follows.start,follows.running⟩
  intro x member
  have member : x ∈ s.kbd.received ++ (keyDown scancode).toList.map (·,s.kbd.kbd.buffered.length) := member
  rw [mem_append] at member
  rcases member with before | now
  · exact follows.keys x before
  · obtain ⟨c,mapped,rfl⟩ := mem_map.mp now
    exact keyDown_key (Option.mem_toList.mp mapped)

theorem Follows.handled_key (follows : Follows s) {c : Int} (at' : s.phase = .handling c) : ∃ b : Byte, Key b ∧ c = b.toInt := by
  obtain ⟨typed,_,_,given,_,_⟩ := follows.running (.inr ⟨c,at'⟩)
  have member : c ∈ s.kbd.returned.drop s.skipped := by
    rw [given,at']
    exact mem_append_right _ (mem_singleton.mpr rfl)
  exact accepted_key follows.keys (returned_accepted follows.fifo (mem_of_mem_drop member))

theorem Follows.step (follows : Follows s) (step : s.Step t) : Follows t := by
  cases step with
  | key scancode => exact follows.key scancode
  | @drain i at' =>
    obtain ⟨skipped,inside⟩ := follows.before i at'
    have returned := follows.start (.inr ⟨i,at'⟩)
    refine ⟨follows.fifo.getchar,follows.keys,?_,?_,?_,?_⟩
    · dsimp only
      split <;> omega
    · intro j here
      dsimp only at here ⊢
      split at here
      · contradiction
      · rename_i some'
        split at here
        · cases here
          rw [if_neg some']
          omega
        · contradiction
    · intro _
      dsimp only
      split
      · rename_i none
        rw [getchar_none none]
        exact returned
      · rename_i some'
        rw [getchar_some some',length_append,length_singleton,returned]
    · intro here
      dsimp only at here
      split at here
      · simp at here
      · split at here <;> simp at here
  | greet shell at' fresh =>
    have returned := follows.start (.inl at')
    refine ⟨follows.fifo,follows.keys,follows.few,fun i here => ShellPhase.noConfusion here,?_,?_⟩
    · rintro (here | ⟨i,here⟩)
      · contradiction
      · contradiction
    · intro _
      have proper : shell.Proper := ⟨by omega,by omega,fun i less => absurd less (by omega)⟩
      refine ⟨[],fun c none => absurd none not_mem_nil,proper,?_,Nat.le_of_eq returned.symm,?_⟩
      · rw [← returned,drop_length]
        rfl
      · rw [edit,fresh.1,fresh.2]
        rfl
  | poll at' =>
    obtain ⟨typed,keys,proper,given,less,line⟩ := follows.running (.inl at')
    rw [at'] at given
    refine ⟨follows.fifo.getchar,follows.keys,follows.few,?_,?_,?_⟩
    · intro i here
      dsimp only at here
      split at here <;> contradiction
    · intro here
      dsimp only at here
      split at here <;> simp at here
    · intro _
      refine ⟨typed,keys,proper,?_,?_,line⟩
      · dsimp only
        split
        · rename_i none
          rw [getchar_none none]
          exact given
        · rename_i some'
          rw [getchar_some some',drop_append_of_le_length less,given]
          exact congrArg (· ++ [s.kbd.kbd.getchar.2]) (append_nil _)
      · dsimp only
        by_cases none : s.kbd.kbd.getchar.2 = -1
        · rw [getchar_none none]
          exact less
        · rw [getchar_some none,length_append]
          omega
  | @handle c u fuel shell at' done =>
    obtain ⟨typed,keys,proper,given,less,line⟩ := follows.running (.inr ⟨c,at'⟩)
    obtain ⟨b,key,rfl⟩ := follows.handled_key at'
    obtain ⟨proper,turn⟩ := keystroke_edit proper key done
    refine ⟨follows.fifo,follows.keys,follows.few,fun i here => ShellPhase.noConfusion here,?_,?_⟩
    · rintro (here | ⟨i,here⟩)
      · contradiction
      · contradiction
    · intro _
      refine ⟨typed ++ [b],?_,proper,?_,less,?_⟩
      · intro d member
        rw [mem_append,mem_singleton] at member
        rcases member with before | rfl
        · exact keys d before
        · exact key
      · rw [given,at',map_append]
        exact (append_nil _).symm
      · rw [turn,line,foldl_append]
        rfl

theorem booted_follows (booted : Booted s) : Follows s := by
  obtain ⟨kbd,phase,skipped⟩ := booted
  refine ⟨kbd ▸ KbdRun.initial_fifo,?_,by omega,?_,?_,?_⟩
  · rw [kbd]
    exact fun x none => absurd none not_mem_nil
  · intro i here
    rw [phase] at here
    cases here
    exact ⟨skipped,by decide⟩
  · intro _
    rw [kbd,skipped]
    rfl
  · rw [phase]
    rintro (here | ⟨c,here⟩)
    · contradiction
    · contradiction

theorem reached_follows (reached : Reach Booted Step s) : Follows s :=
  reached.invariant Follows (fun _ => booted_follows) (fun _ _ => Follows.step)

theorem cut_line {line : List Byte} (keys : ∀ c ∈ line, Key c) : CreateImage.cut (fun j => line.getD j 0) = line.take 15 := by
  have text : (range 15).map (fun j => line.getD j 0) = line.take 15 ++ replicate (15 - line.length) 0 := by
    refine ext_getElem (by simp; omega) (fun i inside _ => ?_)
    rw [length_map,length_range] at inside
    rw [getElem_map,getElem_range,getElem_append]
    split
    · rename_i less
      rw [length_take] at less
      rw [getElem_take,getD_eq_getElem _ _ (by omega)]
    · rename_i beyond
      rw [length_take] at beyond
      rw [getElem_replicate,getD_eq_default _ _ (by omega)]
  rw [CreateImage.cut,text,takeWhile_append_of_pos,takeWhile_replicate,if_neg (by decide),append_nil]
  intro c member
  simpa using (keys c (mem_of_mem_take member)).1

theorem kname_line {line : List Byte} (keys : ∀ c ∈ line, Key c) (j : Nat) :
    kname (fun j => line.getD j 0) j = (line.take 15).getD j 0 := by
  rw [CreateImage.kname_getD,cut_line keys]

/-- **The shell asks for the lines that were typed.** Whatever the order of interrupts and of the
shell's steps, the characters that found room in the ring, behind the at most 256 that the shell
drops before its greeting, are those it has handled, the one at hand and those in the ring. The
texts given to `call_exec` are the lines which the handled ones make. Every one has a character
and room in the buffer, and the directory is searched for its first fifteen characters. The loop
comes to the end of its turn for each character that it is given. -/
theorem typed_lines_requested (reached : Reach Booted Step s)
    (greeted : s.phase = .polling ∨ ∃ c, s.phase = .handling c) :
    s.skipped ≤ 256 ∧
    (∃ typed : List Byte,
      s.kbd.accepted.drop s.skipped =
        typed.map BitVec.toInt ++ pending s.phase ++ s.kbd.kbd.buffered.map BitVec.toInt ∧
      s.shell.requests = (typed.foldl Edit.type Edit.empty).entered) ∧
    (∀ line ∈ s.shell.requests, line ≠ [] ∧ line.length ≤ 127 ∧
      ∀ j, kname (fun j => line.getD j 0) j = (line.take 15).getD j 0) ∧
    ∀ c, s.phase = .handling c → ∀ u fuel, 3 < fuel → ∃ t, s.shell.keystroke u fuel c = some t := by
  have follows := reached_follows reached
  obtain ⟨typed,keys,_,given,less,line⟩ := follows.running greeted
  have requests : s.shell.requests = (typed.foldl Edit.type Edit.empty).entered := congrArg Edit.entered line
  refine ⟨follows.few,⟨typed,?_,requests⟩,?_,?_⟩
  · obtain ⟨queue,holds,account⟩ := follows.fifo
    rw [holds.buffered_eq,← account,drop_append_of_le_length less,given]
  · intro line member
    rw [requests] at member
    obtain ⟨filled,short,keys⟩ := (Edit.typed_fits keys).entered line member
    exact ⟨filled,short,kname_line keys⟩
  · intro c at' u fuel enough
    obtain ⟨b,key,rfl⟩ := follows.handled_key at'
    exact keystroke_returns key enough

/-- A key is pressed before the shell is there; the shell drops it, and is given a line of one
character. -/
theorem line_of_one_requested : ∃ s, Reach Booted Step s ∧ s.phase = .polling ∧ s.skipped = 1 ∧
    s.shell.requests = [[ascii 'a']] := by
  have booted : Reach Booted Step ⟨KbdRun.initial,.draining 0,0,sampleShell⟩ := .start ⟨rfl,rfl,rfl⟩
  have early := booted.advance (Step.key 0x26)
  have dropped := early.advance (Step.drain rfl)
  have empty := dropped.advance (Step.drain rfl)
  have greeted := empty.advance (Step.greet sampleShell rfl ⟨rfl,rfl⟩)
  have typed := (greeted.advance (Step.key 0x1E)).advance (Step.key 0x1C)
  have first := typed.advance (Step.poll rfl)
  obtain ⟨t,done⟩ := keystroke_returns (s := sampleShell) (u := sampleMemory) (c := ascii 'a') ⟨by decide,by decide,by decide⟩ (by decide : 3 < 4)
  have handled := first.advance (Step.handle rfl done)
  have second := handled.advance (Step.poll rfl)
  obtain ⟨w,done⟩ := keystroke_returns (s := t) (u := sampleMemory) (c := 10) ⟨by decide,by decide,by decide⟩ (by decide : 3 < 4)
  have last := second.advance (Step.handle rfl done)
  refine ⟨_,last,rfl,rfl,?_⟩
  have lines := (typed_lines_requested last (.inl rfl)).2.1
  obtain ⟨typed,given,requests⟩ := lines
  have given : [ascii 'a',10].map BitVec.toInt = typed.map BitVec.toInt ++ [] ++ [] := given
  rw [append_nil,append_nil] at given
  have same : [ascii 'a',10] = typed := (map_injective_iff.mpr (fun _ _ => BitVec.eq_of_toInt_eq)) given
  rw [requests,← same]
  decide

end ShellRun

end RudimentaryKernel
