import RudimentaryKernel.X86

/-! Interrupts and exceptions on the 32-bit processor: descriptors as the processor reads them,
the way into a handler through an interrupt gate, with the stack of the task state segment when
the ring changes, and the way back with `iret`. -/
namespace RudimentaryKernel.X86

open Function ByteMemory

structure Gate where
  offset : Dword
  selector : Selector
  present : Bool
  ring : BitVec 2
  kind : BitVec 5
  deriving DecidableEq, Repr

def Gate.ofDescriptor (d : BitVec 64) : Gate where
  offset := d.extractLsb' 48 16 ++ d.extractLsb' 0 16
  selector := d.extractLsb' 16 16
  present := d.extractLsb' 47 1 == 1
  ring := d.extractLsb' 45 2
  kind := d.extractLsb' 40 5

def interruptGate : BitVec 5 := 0x0E

structure Segment where
  base : Dword
  limit : BitVec 20
  present : Bool
  ring : BitVec 2
  kind : BitVec 5
  wide : Bool
  pages : Bool
  deriving DecidableEq, Repr

def Segment.ofDescriptor (d : BitVec 64) : Segment where
  base := d.extractLsb' 56 8 ++ d.extractLsb' 32 8 ++ d.extractLsb' 16 16
  limit := d.extractLsb' 48 4 ++ d.extractLsb' 0 16
  present := d.extractLsb' 47 1 == 1
  ring := d.extractLsb' 45 2
  kind := d.extractLsb' 40 5
  wide := d.extractLsb' 54 1 == 1
  pages := d.extractLsb' 55 1 == 1

def Segment.last (s : Segment) : Nat := if s.pages then s.limit.toNat * 4096 + 4095 else s.limit.toNat

def Segment.isCode (s : Segment) : Bool := s.kind &&& 0x1C == 0x18

/-- 32-bit code is at its linear address and inside the segment. -/
def Segment.covers (s : Segment) (offset : Dword) : Bool := s.base == 0 && s.wide && decide (offset.toNat ≤ s.last)

structure Tables where
  idt : BitVec 8 → BitVec 64
  gdt : Nat → BitVec 64

/-- `TF`, `IF`, `NT`, `RF` and `VM` are cleared behind an interrupt gate. -/
def gateFlags : Dword := ~~~0x34300

namespace Machine

variable {σ : Type}

/-- The machine on the stack the handler starts with. -/
def onStack (s : Machine σ) (ring : BitVec 2) (stack : Selector × Dword) : Machine σ :=
  if ring.setWidth 16 = s.core.ring then s else (s.setSeg .ss stack.1).setReg .esp stack.2

/-- What the processor pushes, the last word first. -/
def trapWords (s : Machine σ) (ring : BitVec 2) (error : Option Dword) : List Nat :=
  (error.map BitVec.toNat).toList ++ [s.core.eip.toNat,(s.core.seg .cs).toNat,s.core.eflags.toNat] ++
    if ring.setWidth 16 = s.core.ring then [] else [(s.core.reg .esp).toNat,(s.core.seg .ss).toNat]

def enter (s : Machine σ) (ring : BitVec 2) (stack : Selector × Dword) (cs : Selector) (handler : Dword)
    (error : Option Dword) : Machine σ :=
  let t := (s.trapWords ring error).reverse.foldl push (s.onStack ring stack)
  ((t.setSeg .cs cs).setFlags (s.core.eflags &&& gateFlags)).jump handler

inductive Source where
  /-- `int n` -/
  | software
  /-- the interrupt controller -/
  | hardware
  /-- the processor itself -/
  | exception
  deriving DecidableEq, Repr

inductive Delivery (σ : Type) where
  | entered (s : Machine σ)
  /-- `#GP` with this error code -/
  | refused (error : Dword)
  /-- it waits until interrupts are on -/
  | held
  | unusable

/-- Interrupt `n`; `int n` needs the right to use the gate. `stack` is the ring 0 stack of the task
state segment. -/
def deliver (tables : Tables) (stack : Selector × Dword) (source : Source) (n : BitVec 8) (error : Option Dword)
    (s : Machine σ) : Delivery σ :=
  let gate := Gate.ofDescriptor (tables.idt n)
  if source = .hardware ∧ s.core.eflags &&& interruptFlag = 0 then .held
  else if gate.kind ≠ interruptGate then .unusable
  else if source = .software ∧ gate.ring.toNat < s.core.ring.toNat then .refused (n.setWidth 32 * 8 + 2)
  else if ¬gate.present then .unusable
  else
    let code := Segment.ofDescriptor (tables.gdt (gate.selector.toNat / 8))
    if ¬code.present ∨ ¬code.isCode ∨ s.core.ring.toNat < code.ring.toNat ∨ ¬code.covers gate.offset then .unusable
    else .entered (s.enter code.ring stack ((gate.selector &&& 0xFFFC) ||| code.ring.setWidth 16) gate.offset error)

end Machine

/-- What handlers use beside the instructions of `Instr`. -/
inductive TrapInstr where
  | base (i : Instr)
  /-- `mov displacement(%esp), %r` -/
  | load (r : Reg) (displacement : Dword)
  /-- `mov %r, displacement(%esp)` -/
  | store (displacement : Dword) (r : Reg)
  /-- `mov %cr2, %r` -/
  | readCr2 (r : Reg)
  | test (w : Dword) (r : Reg)
  | jz (target : Dword)
  | jmp (target : Dword)
  | hlt

abbrev TrapCode := Dword → Option (TrapInstr × Dword)

def TrapCode.plain (code : TrapCode) : Code := fun a =>
  (code a).bind (fun
    | (.base i,next) => some (i,next)
    | _ => none)

def zeroFlag : Dword := 0x40

/-- Carry and overflow are cleared; zero, sign and parity are those of `w`. -/
def testFlags (flags w : Dword) : Dword :=
  let bit (set : Bool) (f : Dword) : Dword := if set then f else 0
  let parity := (List.range 8).foldl (fun even i => even != w.getLsbD i) true
  (flags &&& 0xFFFFF72A) ||| bit parity 4 ||| bit (w == 0) zeroFlag ||| bit w.msb 0x80

namespace Machine

variable {σ : Type} (external : Machine σ → Option (Machine σ)) (cr2 : Dword) (code : TrapCode)

/-- `hlt` waits for an interrupt, and so with interrupts off for ever. -/
def trapExec (s : Machine σ) (next : Dword) : TrapInstr → Option (Machine σ)
  | .base i => s.exec external next i
  | .load r displacement =>
    some ((s.setReg r (BitVec.ofNat 32 (ByteMemory.load s.memory 4 (s.esp + displacement).toNat))).jump next)
  | .store displacement r =>
    some ({ s with memory := ByteMemory.store s.memory 4 (s.esp + displacement).toNat (s.core.reg r).toNat }.jump next)
  | .readCr2 r => some ((s.setReg r cr2).jump next)
  | .test w r => some ((s.setFlags (testFlags s.core.eflags (s.core.reg r &&& w))).jump next)
  | .jz target => some (s.jump (if s.core.eflags &&& zeroFlag = 0 then next else target))
  | .jmp target => some (s.jump target)
  | .hlt => some s

def trapStep (s : Machine σ) : Option (Machine σ) :=
  (code s.core.eip).bind (fun (i,next) => s.trapExec external cr2 next i)

def trapSteps : Nat → Machine σ → Option (Machine σ)
  | 0, s => some s
  | n + 1, s => (s.trapStep external cr2 code).bind (trapSteps n)

end Machine

/-- The listing is in memory from `a` up to `b`. -/
def TrapHolds (code : TrapCode) : Dword → List TrapInstr → Dword → Prop
  | a, [], b => a = b
  | a, i :: rest, b => ∃ next, code a = some (i,next) ∧ TrapHolds code next rest b

/-- Instructions of one byte each, from address 0 on. -/
def trapFlat (all : List TrapInstr) : TrapCode := fun a => all[a.toNat]?.map (fun i => (i,a + 1))

theorem holds_trapFlat {all listing : List TrapInstr} {a : Dword} (room : a.toNat + listing.length < 2^32)
    (found : listing <+: all.drop a.toNat) : TrapHolds (trapFlat all) a listing (a + BitVec.ofNat 32 listing.length) := by
  induction listing generalizing a with
  | nil => exact (BitVec.add_zero a).symm
  | cons i rest ih =>
    rw [List.length_cons] at room
    have next : (a + 1).toNat = a.toNat + 1 := by bv_omega
    obtain ⟨tail,split⟩ := found
    have here : all[a.toNat]? = some i := by
      rw [← List.head?_drop,← split]
      rfl
    have end' : a + BitVec.ofNat 32 (i :: rest).length = a + 1 + BitVec.ofNat 32 rest.length := by
      rw [List.length_cons]
      bv_omega
    rw [end']
    refine ⟨a + 1,by rw [trapFlat,here]; rfl,ih (by omega) ⟨tail,?_⟩⟩
    rw [next,← List.tail_drop,← split]
    rfl

section TrapRuns

variable {σ : Type} {external : Machine σ → Option (Machine σ)} {cr2 : Dword} {code : TrapCode} {s t : Machine σ}

theorem trapSteps_add (m n : Nat) (s : Machine σ) : s.trapSteps external cr2 code (m + n) =
    (s.trapSteps external cr2 code m).bind (Machine.trapSteps external cr2 code n) := by
  induction m generalizing s with
  | zero => rw [Nat.zero_add,Machine.trapSteps,Option.bind_some]
  | succ m ih =>
    rw [Nat.succ_add,Machine.trapSteps,Machine.trapSteps,Option.bind_assoc]
    congr 1
    funext t
    exact ih t

theorem trapSteps_trans {m n : Nat} {u : Machine σ} (first : s.trapSteps external cr2 code m = some t)
    (second : t.trapSteps external cr2 code n = some u) : s.trapSteps external cr2 code (m + n) = some u := by
  rw [trapSteps_add,first,Option.bind_some,second]

theorem trapStep_fetched {i : TrapInstr} {next : Dword} (fetched : code s.core.eip = some (i,next)) :
    s.trapStep external cr2 code = s.trapExec external cr2 next i := by
  rw [Machine.trapStep,fetched,Option.bind_some]

theorem plain_eq_some {a next : Dword} {i : Instr} :
    code.plain a = some (i,next) ↔ code a = some (.base i,next) := by
  unfold TrapCode.plain
  rw [Option.bind_eq_some_iff]
  constructor
  · rintro ⟨⟨j,after⟩,found,same⟩
    cases j with
    | base j =>
      obtain ⟨rfl,rfl⟩ := Prod.mk.inj (Option.some.inj same)
      exact found
    | _ => contradiction
  · intro found
    exact ⟨_,found,rfl⟩

theorem Holds.trap {listing : List Instr} {a : Dword} (holds : Holds code.plain a listing) :
    ∃ b, TrapHolds code a (listing.map .base) b := by
  induction listing generalizing a with
  | nil => exact ⟨a,rfl⟩
  | cons i rest ih =>
    obtain ⟨next,fetched,holds⟩ := holds
    obtain ⟨b,later⟩ := ih holds
    exact ⟨b,next,plain_eq_some.mp fetched,later⟩

theorem TrapHolds.plain {listing : List Instr} {a b : Dword} (holds : TrapHolds code a (listing.map .base) b) :
    Holds code.plain a listing := by
  induction listing generalizing a with
  | nil => trivial
  | cons i rest ih =>
    obtain ⟨next,fetched,holds⟩ := holds
    exact ⟨next,plain_eq_some.mpr fetched,ih holds⟩

theorem Op.applyAll_cons (o : Op) (ops : List Op) (s : Machine σ) :
    Op.applyAll (o :: ops) s = Op.applyAll ops (o.apply s) := List.foldl_cons ..

theorem TrapHolds.ops {ops : List Op} {rest : List TrapInstr} {a b : Dword}
    (holds : TrapHolds code a (ops.map (fun o => .base (.op o)) ++ rest) b) :
    ∃ next, TrapHolds code next rest b ∧ ∀ {σ : Type} (external : Machine σ → Option (Machine σ)) (cr2 : Dword)
      (s : Machine σ), s.core.eip = a → s.trapSteps external cr2 code ops.length = some ((Op.applyAll ops s).jump next) := by
  induction ops generalizing a with
  | nil =>
    refine ⟨a,holds,?_⟩
    rintro σ external cr2 s rfl
    rfl
  | cons o ops ih =>
    obtain ⟨next,fetched,holds⟩ := holds
    obtain ⟨last,holds,run⟩ := ih holds
    refine ⟨last,holds,?_⟩
    rintro σ external cr2 s rfl
    rw [List.length_cons,Machine.trapSteps,trapStep_fetched fetched,Machine.trapExec,Machine.exec,Option.bind_some,
      run external cr2 ((o.apply s).jump next) rfl,Op.applyAll_jump]
    rfl

end TrapRuns

section Frames

variable {σ : Type} {s t : Machine σ} {m : Memory} {a : Dword} {ws vs : List Nat} {ring : BitVec 2}
  {stack : Selector × Dword} {error : Option Dword} {c : Core}

theorem words_append : Words m a (ws ++ vs) ↔ Words m a ws ∧ Words m (a + BitVec.ofNat 32 (4 * ws.length)) vs := by
  induction ws generalizing a with
  | nil => simp [Words]
  | cons w ws ih =>
    have shift : a + 4 + BitVec.ofNat 32 (4 * ws.length) = a + BitVec.ofNat 32 (4 * (w :: ws).length) := by
      rw [List.length_cons]
      bv_omega
    rw [List.cons_append,Words,Words,ih,shift,and_assoc]

theorem Words.overwrite {w v : Nat} (words : Words m a (ws ++ w :: vs))
    (fits : a.toNat + 4 * (ws.length + (vs.length + 1)) ≤ 2^32) (small : v < 2^32) :
    Words (store m 4 (a.toNat + 4 * ws.length) v) a (ws ++ v :: vs) := by
  obtain ⟨before,_,behind⟩ := words_append.mp words
  have slot : (a + BitVec.ofNat 32 (4 * ws.length)).toNat = a.toNat + 4 * ws.length := by
    bv_omega
  refine words_append.mpr ⟨?_,?_,?_⟩
  · exact before.congr (by omega) (fun b _ high => store_apart (by omega) (by omega))
  · rw [slot,load_store (by omega)]
    exact Nat.mod_eq_of_lt small
  · cases vs with
    | nil => trivial
    | cons u vs =>
      rw [List.length_cons] at fits
      have next := toNat_above (a := a + BitVec.ofNat 32 (4 * ws.length)) (by omega)
      refine behind.congr (by rw [List.length_cons]; omega) (fun b low _ => store_apart (by omega) (by omega))

def Core.frame (c : Core) : List Nat := Machine.popaOrder.map (fun r => (c.reg r).toNat)

theorem pusha_pushed (room : 32 ≤ s.esp.toNat) : Pushed s (Op.pusha.apply s) s.core.frame := by
  have pushed := (Pushed.refl s).pushAll s.core.frame.reverse (by simpa [Core.frame,Machine.popaOrder] using room)
    (by
      intro v member
      obtain ⟨r,_,rfl⟩ := List.mem_map.mp (List.mem_reverse.mp member)
      exact BitVec.isLt _)
  rw [List.reverse_reverse,List.append_nil] at pushed
  have same : Op.pusha.apply s = s.core.frame.reverse.foldl Machine.push s := rfl
  rw [same]
  exact pushed

theorem popa_popped (words : Words s.memory s.esp c.frame) :
    (Op.popa.apply s).core.reg = update c.reg .esp (s.esp + 32) ∧ (Op.popa.apply s).core.seg = s.core.seg ∧
    (Op.popa.apply s).core.eflags = s.core.eflags ∧ (Op.popa.apply s).memory = s.memory ∧
    (Op.popa.apply s).world = s.world ∧ (Op.popa.apply s).ports = s.ports := by
  obtain ⟨edi,esi,ebp,_,ebx,edx,ecx,eax,_⟩ := words
  have word : ∀ {n : Nat} {w : Dword}, n = w.toNat → BitVec.ofNat 32 n = w := by
    rintro n w rfl
    rw [BitVec.ofNat_toNat,BitVec.setWidth_eq]
  refine ⟨?_,rfl,rfl,rfl,rfl,rfl⟩
  funext r
  cases r with
  | eax => exact word eax
  | ecx => exact word ecx
  | edx => exact word edx
  | ebx => exact word ebx
  | ebp => exact word ebp
  | esi => exact word esi
  | edi => exact word edi
  | esp =>
    have above : ∀ a : Dword, a + 4 + 4 + 4 + 4 + 4 + 4 + 4 + 4 = a + 32 := by
      intro a
      bv_omega
    exact above s.esp

variable {cs : Selector} {handler : Dword}

theorem trapWords_small : ∀ v ∈ s.trapWords ring error, v < 2^32 := by
  intro v member
  have wide : (s.core.seg .cs).toNat < 2^32 ∧ (s.core.seg .ss).toNat < 2^32 := by
    omega
  unfold Machine.trapWords at member
  simp only [List.mem_append,Option.mem_toList,Option.map_eq_some_iff,List.mem_cons,List.not_mem_nil,or_false] at member
  rcases member with (⟨e,_,rfl⟩ | rfl | rfl | rfl) | rest
  · exact e.isLt
  · exact BitVec.isLt _
  · exact wide.1
  · exact BitVec.isLt _
  · split at rest
    · contradiction
    · simp only [List.mem_cons,List.not_mem_nil,or_false] at rest
      rcases rest with rfl | rfl
      · exact BitVec.isLt _
      · exact wide.2

theorem trapWords_length : (s.trapWords ring error).length =
    error.toList.length + if ring.setWidth 16 = s.core.ring then 3 else 5 := by
  unfold Machine.trapWords
  cases error <;> split <;> rfl

theorem enter_pushed (room : 4 * (s.trapWords ring error).length ≤ (s.onStack ring stack).esp.toNat) :
    ∃ t, Pushed (s.onStack ring stack) t (s.trapWords ring error) ∧ s.enter ring stack cs handler error =
      ((t.setSeg .cs cs).setFlags (s.core.eflags &&& gateFlags)).jump handler := by
  have pushed := (Pushed.refl (s.onStack ring stack)).pushAll (s.trapWords ring error).reverse
    (by rw [List.length_reverse]; exact room) (fun v member => trapWords_small v (List.mem_reverse.mp member))
  rw [List.reverse_reverse,List.append_nil] at pushed
  exact ⟨_,pushed,rfl⟩

theorem onStack_reg {r : Reg} (other : r ≠ .esp) : (s.onStack ring stack).core.reg r = s.core.reg r := by
  unfold Machine.onStack
  split
  · rfl
  · exact update_of_ne other ..

theorem onStack_seg {g : Seg} (other : g ≠ .ss) : (s.onStack ring stack).core.seg g = s.core.seg g := by
  unfold Machine.onStack
  split
  · rfl
  · exact update_of_ne other ..

theorem onStack_memory : (s.onStack ring stack).memory = s.memory ∧ (s.onStack ring stack).world = s.world ∧
    (s.onStack ring stack).ports = s.ports := by
  unfold Machine.onStack
  split
  · exact ⟨rfl,rfl,rfl⟩
  · exact ⟨rfl,rfl,rfl⟩

/-- `iret` from a handler brings back the processor that was interrupted. -/
theorem iret_back (words : Words t.memory t.esp (s.trapWords ring none)) (inside : t.core.ring = ring.setWidth 16)
    (reg : ∀ r, r ≠ .esp → t.core.reg r = s.core.reg r)
    (seg : ∀ g, g ≠ .cs → g ≠ .ss → t.core.seg g = s.core.seg g)
    (esp : ring.setWidth 16 = s.core.ring → t.esp + 12 = s.esp) :
    t.iret.core.reg = s.core.reg ∧ t.iret.core.eip = s.core.eip ∧ t.iret.core.eflags = s.core.eflags ∧
    (∀ g, g ≠ .ss → t.iret.core.seg g = s.core.seg g) ∧
    (ring.setWidth 16 ≠ s.core.ring → t.iret.core.seg .ss = s.core.seg .ss) ∧
    t.iret.memory = t.memory ∧ t.iret.world = t.world ∧ t.iret.ports = t.ports := by
  have word : ∀ w : Dword, BitVec.ofNat 32 w.toNat = w := by
    intro w
    rw [BitVec.ofNat_toNat,BitVec.setWidth_eq]
  have selector : ∀ w : Selector, BitVec.ofNat 16 w.toNat = w := by
    intro w
    rw [BitVec.ofNat_toNat,BitVec.setWidth_eq]
  have before : BitVec.ofNat 16 (s.core.seg .cs).toNat &&& 3 = s.core.ring := by
    rw [selector]
    rfl
  have segments : ∀ g, g ≠ .ss → update t.core.seg .cs (s.core.seg .cs) g = s.core.seg g := by
    intro g other
    by_cases code : g = .cs
    · rw [code,update_self]
    · rw [update_of_ne code]
      exact seg g code other
  unfold Machine.trapWords at words
  by_cases same : ring.setWidth 16 = s.core.ring
  · rw [if_pos same] at words
    rw [iret_inner words (by rw [before,inside,same])]
    refine ⟨?_,word _,word _,?_,fun other => absurd same other,rfl,rfl,rfl⟩
    · funext r
      by_cases pointer : r = .esp
      · subst r
        refine Eq.trans ?_ (esp same)
        change t.esp + 4 + 4 + 4 = _
        bv_omega
      · rw [← reg r pointer]
        exact (update_of_ne pointer ..).trans ((update_of_ne pointer ..).trans (update_of_ne pointer ..))
    · intro g other
      rw [← segments g other]
      change update t.core.seg .cs (BitVec.ofNat 16 (s.core.seg .cs).toNat) g = _
      rw [selector]
  · rw [if_neg same] at words
    rw [iret_outer words (by rw [before,inside]; exact Ne.symm same)]
    refine ⟨?_,word _,word _,?_,fun _ => ?_,rfl,rfl,rfl⟩
    · funext r
      by_cases pointer : r = .esp
      · subst r
        exact word _
      · rw [← reg r pointer]
        refine (update_of_ne pointer ..).trans ((update_of_ne pointer ..).trans ((update_of_ne pointer ..).trans
          ((update_of_ne pointer ..).trans (update_of_ne pointer ..))))
    · intro g other
      rw [← segments g other]
      refine (update_of_ne other ..).trans ?_
      change update t.core.seg .cs (BitVec.ofNat 16 (s.core.seg .cs).toNat) g = _
      rw [selector]
    · exact selector _

end Frames

section Handlers

variable {σ : Type} {s t : Machine σ} {ring : BitVec 2} {stack : Selector × Dword} {cs : Selector} {handler : Dword}
  {error : Option Dword} {c : Core}

/-- A handler behind its `pusha`: the registers are on the stack, above them the words of the processor. -/
structure Trapped (s t : Machine σ) (ring : BitVec 2) (stack : Selector × Dword) (cs : Selector)
    (error : Option Dword) : Prop where
  esp : t.esp.toNat + 32 + 4 * (s.trapWords ring error).length = (s.onStack ring stack).esp.toNat
  reg : ∀ r, r ≠ .esp → t.core.reg r = s.core.reg r
  cs : t.core.seg .cs = cs
  seg : ∀ g, g ≠ .cs → g ≠ .ss → t.core.seg g = s.core.seg g
  flags : t.core.eflags = s.core.eflags &&& gateFlags
  world : t.world = s.world
  ports : t.ports = s.ports
  words : ∃ c : Core, (∀ r, r ≠ .esp → c.reg r = s.core.reg r) ∧
    Words t.memory t.esp (c.frame ++ s.trapWords ring error)
  kept : ∀ b, b < t.esp.toNat ∨ (s.onStack ring stack).esp.toNat ≤ b → t.memory b = s.memory b

theorem frame_length : c.frame.length = 8 := rfl

theorem enter_trapped (room : 32 + 4 * (s.trapWords ring error).length ≤ (s.onStack ring stack).esp.toNat) :
    Trapped s (Op.pusha.apply (s.enter ring stack cs handler error)) ring stack cs error := by
  obtain ⟨t,pushed,entered⟩ := @enter_pushed _ s ring stack error cs handler (by omega)
  obtain ⟨memory,world,ports⟩ := @onStack_memory _ s ring stack
  have size := pushed.esp
  rw [entered]
  generalize made : ((t.setSeg .cs cs).setFlags (s.core.eflags &&& gateFlags)).jump handler = e
  have esp : e.esp = t.esp := by
    rw [← made]
    rfl
  have reg : ∀ r, r ≠ .esp → e.core.reg r = s.core.reg r := by
    intro r other
    rw [← made]
    exact (pushed.reg r other).trans (onStack_reg other)
  have saved := pusha_pushed (s := e) (by rw [esp]; omega)
  have length := saved.esp
  rw [frame_length,esp] at length
  have inside := (s.onStack ring stack).esp.isLt
  refine ⟨by omega,?_,?_,?_,?_,?_,?_,⟨e.core,reg,?_⟩,?_⟩
  · intro r other
    rw [saved.reg r other,reg r other]
  · rw [saved.seg,← made]
    change update t.core.seg .cs cs .cs = cs
    rw [update_self]
  · intro g code other
    rw [saved.seg,← made]
    refine (update_of_ne code ..).trans ?_
    rw [pushed.seg]
    exact onStack_seg other
  · rw [saved.flags,← made]
    rfl
  · rw [saved.world,← world,← pushed.world,← made]
    rfl
  · rw [saved.ports,← ports,← pushed.ports,← made]
    rfl
  · refine words_append.mpr ⟨saved.words,?_⟩
    have above : (Op.pusha.apply e).esp + BitVec.ofNat 32 (4 * e.core.frame.length) = t.esp := by
      rw [frame_length]
      bv_omega
    rw [above]
    apply pushed.words.congr (by omega)
    intro b low high
    rw [saved.kept b (.inr (by rw [esp]; omega)),← made]
    rfl
  · intro b outside
    rw [saved.kept b (by rw [esp]; omega),← memory,← pushed.kept b (by omega),← made]
    rfl

theorem Trapped.esp_inner (trapped : Trapped s t ring stack cs none) (same : ring.setWidth 16 = s.core.ring) :
    t.esp + 44 = s.esp := by
  have size := trapped.esp
  rw [trapWords_length,if_pos same,Machine.onStack,if_pos same] at size
  change _ + 32 + 4 * (0 + 3) = _ at size
  have inside := s.esp.isLt
  bv_omega

theorem popa_iret_back (reg : ∀ r, r ≠ .esp → c.reg r = s.core.reg r)
    (words : Words t.memory t.esp (c.frame ++ s.trapWords ring none)) (inside : t.core.ring = ring.setWidth 16)
    (seg : ∀ g, g ≠ .cs → g ≠ .ss → t.core.seg g = s.core.seg g)
    (esp : ring.setWidth 16 = s.core.ring → t.esp + 44 = s.esp) (a : Dword) :
    (((Op.popa.apply t).jump a).iret).core.reg = s.core.reg ∧ (((Op.popa.apply t).jump a).iret).core.eip = s.core.eip ∧
    (((Op.popa.apply t).jump a).iret).core.eflags = s.core.eflags ∧
    (∀ g, g ≠ .ss ∨ ring.setWidth 16 ≠ s.core.ring → (((Op.popa.apply t).jump a).iret).core.seg g = s.core.seg g) ∧
    (((Op.popa.apply t).jump a).iret).memory = t.memory ∧ (((Op.popa.apply t).jump a).iret).world = t.world ∧
    (((Op.popa.apply t).jump a).iret).ports = t.ports := by
  obtain ⟨registers,above⟩ := words_append.mp words
  rw [frame_length] at above
  obtain ⟨regs,segs,_,memory,world,ports⟩ := popa_popped registers
  generalize Op.popa.apply t = p at regs segs memory world ports
  have pointer : p.core.reg .esp = t.esp + 32 := by
    rw [regs,update_self]
  have below : Words (p.jump a).memory (p.jump a).esp (s.trapWords ring none) := by
    change Words p.memory (p.core.reg .esp) _
    rw [memory,pointer]
    exact above
  have ringed : (p.jump a).core.ring = ring.setWidth 16 := by
    change p.core.seg .cs &&& 3 = _
    rw [segs]
    exact inside
  have others : ∀ r, r ≠ .esp → (p.jump a).core.reg r = s.core.reg r := by
    intro r other
    change p.core.reg r = _
    rw [regs,update_of_ne other,reg r other]
  have selectors : ∀ g, g ≠ .cs → g ≠ .ss → (p.jump a).core.seg g = s.core.seg g := by
    intro g code other
    change p.core.seg g = _
    rw [segs]
    exact seg g code other
  obtain ⟨reg',eip,flags,segments,outer,memory',world',ports'⟩ := iret_back below ringed others selectors (by
    intro same
    change p.core.reg .esp + 12 = _
    rw [pointer,← esp same]
    bv_omega)
  refine ⟨reg',eip,flags,?_,memory'.trans memory,world'.trans world,ports'.trans ports⟩
  intro g kind
  by_cases stack : g = .ss
  · subst g
    exact outer (kind.resolve_left (fun other => other rfl))
  · exact segments g stack

end Handlers

end RudimentaryKernel.X86
