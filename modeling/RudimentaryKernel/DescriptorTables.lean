import RudimentaryKernel.X86Interrupts

/-! The descriptor tables that `gdt.cpp` and `interrupts.cpp` fill in, for any addresses the
linker gives to the handlers and the task state segment, and what the processor makes of them. -/
namespace RudimentaryKernel

open Function X86

inductive Handler where
  | defaultInterrupt
  | divideError
  | debug
  | nmi
  | breakpoint
  | overflow
  | bounds
  | invalidOpcode
  | deviceNotAvailable
  | doubleFault
  | coprocessorSegment
  | invalidTss
  | segmentNotPresent
  | stackSegment
  | generalProtection
  | pageFault
  | x87Fpu
  | alignmentCheck
  | machineCheck
  | simdFpu
  | timer
  | keyboard
  | syscallEntry
  deriving DecidableEq, Repr

/-- `IDTE`, packed. -/
structure IDTE where
  offsetLow : BitVec 16
  selector : BitVec 16
  reserved : BitVec 8
  flags : BitVec 8
  offsetHigh : BitVec 16

def IDTE.packed (e : IDTE) : BitVec 64 := e.offsetHigh ++ e.flags ++ e.reserved ++ e.selector ++ e.offsetLow

abbrev Idt := BitVec 8 → IDTE

def kernelCs : BitVec 16 := 0x08

def interruptGateFlags : BitVec 8 := 0x8E

def idtSetGate (idt : Idt) (num : BitVec 8) (handler : Dword) (selector : BitVec 16) (flags : BitVec 8) : Idt :=
  update idt num
    { offsetLow := (handler &&& 0xFFFF).setWidth 16
      selector := selector
      reserved := 0
      flags := flags
      offsetHigh := (handler >>> 16).setWidth 16 }

def gates : List (BitVec 8 × Handler × BitVec 8) :=
  [(0x00,.divideError,interruptGateFlags),(0x01,.debug,interruptGateFlags),(0x02,.nmi,interruptGateFlags),
    (0x03,.breakpoint,interruptGateFlags),(0x04,.overflow,interruptGateFlags),(0x05,.bounds,interruptGateFlags),
    (0x06,.invalidOpcode,interruptGateFlags),(0x07,.deviceNotAvailable,interruptGateFlags),
    (0x08,.doubleFault,interruptGateFlags),(0x09,.coprocessorSegment,interruptGateFlags),
    (0x0A,.invalidTss,interruptGateFlags),(0x0B,.segmentNotPresent,interruptGateFlags),
    (0x0C,.stackSegment,interruptGateFlags),(0x0D,.generalProtection,interruptGateFlags),
    (0x0E,.pageFault,interruptGateFlags),(0x10,.x87Fpu,interruptGateFlags),
    (0x11,.alignmentCheck,interruptGateFlags),(0x12,.machineCheck,interruptGateFlags),
    (0x13,.simdFpu,interruptGateFlags),(32,.timer,interruptGateFlags),(33,.keyboard,interruptGateFlags),
    (0x80,.syscallEntry,0xEE)]

def initInterrupts (address : Handler → Dword) (idt : Idt) : Idt :=
  let idt := (List.range 256).foldl (fun idt i =>
    idtSetGate idt (BitVec.ofNat 8 i) (address .defaultInterrupt) kernelCs interruptGateFlags) idt
  gates.foldl (fun idt (num,handler,flags) => idtSetGate idt num (address handler) kernelCs flags) idt

/-- `GDTEntry`, packed. -/
structure GDTEntry where
  limitLow : BitVec 16
  baseLow : BitVec 16
  baseMiddle : BitVec 8
  access : BitVec 8
  granularity : BitVec 8
  baseHigh : BitVec 8

def GDTEntry.packed (e : GDTEntry) : BitVec 64 :=
  e.baseHigh ++ e.granularity ++ e.access ++ e.baseMiddle ++ e.baseLow ++ e.limitLow

def setGdtEntry (base limit : Dword) (access flags : BitVec 8) : GDTEntry where
  baseLow := (base &&& 0xFFFF).setWidth 16
  baseMiddle := ((base >>> 16) &&& 0xFF).setWidth 8
  baseHigh := ((base >>> 24) &&& 0xFF).setWidth 8
  limitLow := (limit &&& 0xFFFF).setWidth 16
  granularity := ((limit >>> 16) &&& 0x0F).setWidth 8 ||| (flags &&& 0xF0)
  access := access

def tssSize : Dword := 104

def initGdt (tss : Dword) : Nat → GDTEntry
  | 1 => setGdtEntry 0 0xFFFFF 0x9A 0xC0
  | 2 => setGdtEntry 0 0xFFFFF 0x92 0xC0
  | 3 => setGdtEntry 0 0xFFFFF 0xFA 0xC0
  | 4 => setGdtEntry 0 0xFFFFF 0xF2 0xC0
  | 5 => setGdtEntry tss (tssSize - 1) 0x89 0x00
  | _ => setGdtEntry 0 0 0 0

def ss0 : Selector := 0x10

def kernelTables (address : Handler → Dword) (tss : Dword) (idt : Idt) : Tables where
  idt n := (initInterrupts address idt n).packed
  gdt i := (initGdt tss i).packed

section Reading

variable {x : Dword}

theorem low_half : (x &&& 0xFFFF).setWidth 16 = x.extractLsb' 0 16 := by
  apply BitVec.eq_of_toNat_eq
  have mask := Nat.and_two_pow_sub_one_eq_mod (x.toNat % 65536) 16
  simp at mask ⊢
  exact mask

theorem low_byte : (x &&& 0xFF).setWidth 8 = x.extractLsb' 0 8 := by
  apply BitVec.eq_of_toNat_eq
  have mask := Nat.and_two_pow_sub_one_eq_mod (x.toNat % 256) 8
  simp at mask ⊢
  exact mask

theorem shifted (start len : Nat) : (x >>> start).extractLsb' 0 len = x.extractLsb' start len := by
  ext i inside
  simp

theorem joined_halves : x.extractLsb' 16 16 ++ x.extractLsb' 0 16 = x :=
  (BitVec.extractLsb'_append_extractLsb'_eq_extractLsb' (by rfl)).trans BitVec.extractLsb'_eq_self

theorem idtSetGate_read (idt : Idt) (num : BitVec 8) (handler : Dword) (selector : BitVec 16) (flags : BitVec 8) :
    Gate.ofDescriptor (idtSetGate idt num handler selector flags num).packed =
      ⟨handler,selector,flags.extractLsb' 7 1 == 1,flags.extractLsb' 5 2,flags.extractLsb' 0 5⟩ := by
  rw [idtSetGate,update_self,Gate.ofDescriptor,IDTE.packed]
  simp only [BitVec.setWidth_ushiftRight_eq_extractLsb,low_half]
  simp (disch := decide) only [BitVec.extractLsb'_append_eq_of_le,BitVec.extractLsb'_append_eq_of_add_le]
  congr 1
  · exact (congrArg₂ _ BitVec.extractLsb'_eq_self BitVec.extractLsb'_eq_self).trans joined_halves
  · exact BitVec.extractLsb'_eq_self

/-- The processor reads back what `set_gdt_entry` was called with, but for the bits of the limit
that a descriptor has no room for. -/
theorem setGdtEntry_read (base limit : Dword) (access flags : BitVec 8) :
    Segment.ofDescriptor (setGdtEntry base limit access flags).packed =
      ⟨base,limit.setWidth 20,access.extractLsb' 7 1 == 1,access.extractLsb' 5 2,access.extractLsb' 0 5,
        flags.extractLsb' 6 1 == 1,flags.extractLsb' 7 1 == 1⟩ := by
  -- four bits of the limit share a byte with four flags
  have limitBits : (((limit >>> 16) &&& 0x0F).setWidth 8 ||| (flags &&& 0xF0)).extractLsb' 0 4 =
      limit.extractLsb' 16 4 := by
    rw [BitVec.extractLsb'_or,BitVec.extractLsb'_and,BitVec.extractLsb'_setWidth_of_le (by decide),
      BitVec.extractLsb'_and,shifted]
    exact (congrArg₂ _ (BitVec.and_allOnes) (BitVec.and_zero)).trans BitVec.or_zero
  have flagBit : ∀ i, i = 6 ∨ i = 7 → (((limit >>> 16) &&& 0x0F).setWidth 8 ||| (flags &&& 0xF0)).extractLsb' i 1 =
      flags.extractLsb' i 1 := by
    rintro i (rfl | rfl)
    all_goals
      rw [BitVec.extractLsb'_or,BitVec.extractLsb'_and,BitVec.extractLsb'_setWidth_of_le (by decide),
        BitVec.extractLsb'_and]
      exact (congrArg₂ _ (BitVec.and_zero) (BitVec.and_allOnes)).trans BitVec.zero_or
  rw [setGdtEntry,Segment.ofDescriptor,GDTEntry.packed]
  simp only [low_half,low_byte,shifted]
  simp (disch := decide) only [BitVec.extractLsb'_append_eq_of_le,BitVec.extractLsb'_append_eq_of_add_le]
  congr 1
  · have upper : base.extractLsb' 24 8 ++ base.extractLsb' 16 8 = base.extractLsb' 16 16 :=
      BitVec.extractLsb'_append_extractLsb'_eq_extractLsb' (by rfl)
    refine Eq.trans ?_ (joined_halves (x := base))
    rw [← upper]
    exact congrArg₂ _ (congrArg₂ _ BitVec.extractLsb'_eq_self BitVec.extractLsb'_eq_self) BitVec.extractLsb'_eq_self
  · refine (congrArg₂ _ limitBits BitVec.extractLsb'_eq_self).trans ?_
    refine (BitVec.extractLsb'_append_extractLsb'_eq_extractLsb' (by rfl)).trans ?_
    exact (BitVec.setWidth_eq_extractLsb' (by decide)).symm
  · exact congrArg (· == 1) (flagBit 6 (.inl rfl))
  · exact congrArg (· == 1) (flagBit 7 (.inr rfl))

end Reading

section Delivery

variable {address : Handler → Dword} {idt : Idt}

def handlerOf (n : BitVec 8) : Handler :=
  match n.toNat with
  | 0 => .divideError
  | 1 => .debug
  | 2 => .nmi
  | 3 => .breakpoint
  | 4 => .overflow
  | 5 => .bounds
  | 6 => .invalidOpcode
  | 7 => .deviceNotAvailable
  | 8 => .doubleFault
  | 9 => .coprocessorSegment
  | 10 => .invalidTss
  | 11 => .segmentNotPresent
  | 12 => .stackSegment
  | 13 => .generalProtection
  | 14 => .pageFault
  | 16 => .x87Fpu
  | 17 => .alignmentCheck
  | 18 => .machineCheck
  | 19 => .simdFpu
  | 32 => .timer
  | 33 => .keyboard
  | 0x80 => .syscallEntry
  | _ => .defaultInterrupt

def syscallVector : BitVec 8 := 0x80

theorem foldl_update {α β γ : Type} [DecidableEq α] (g : γ → β) (l : List (α × γ)) (f : α → β) (a : α) :
    l.foldl (fun f x => update f x.1 (g x.2)) f a =
      ((l.reverse.find? (fun x => x.1 = a)).map (fun x => g x.2)).getD (f a) := by
  induction l generalizing f with
  | nil => rfl
  | cons x l ih =>
    rw [List.foldl_cons,ih,List.reverse_cons,List.find?_append]
    cases List.find? (fun x => decide (x.1 = a)) l.reverse with
    | some y => rfl
    | none =>
      by_cases here : x.1 = a
      · simp [here]
      · simp [here,Ne.symm here]

def settings : List (BitVec 8 × Handler × BitVec 8) :=
  (List.range 256).map (fun i => (BitVec.ofNat 8 i,.defaultInterrupt,interruptGateFlags)) ++ gates

theorem gates_last (n : BitVec 8) : (gates.reverse.find? (fun x => x.1 = n)).getD (n,.defaultInterrupt,interruptGateFlags) =
    (n,handlerOf n,if n = syscallVector then 0xEE else interruptGateFlags) := by
  revert n
  decide +kernel

theorem default_last (n : BitVec 8) :
    ((List.range 256).map (fun i => (BitVec.ofNat 8 i,Handler.defaultInterrupt,interruptGateFlags))).reverse.find?
      (fun x => x.1 = n) = some (n,.defaultInterrupt,interruptGateFlags) := by
  have member : (n,Handler.defaultInterrupt,interruptGateFlags) ∈
      ((List.range 256).map (fun i => (BitVec.ofNat 8 i,Handler.defaultInterrupt,interruptGateFlags))).reverse := by
    rw [List.mem_reverse,List.mem_map]
    exact ⟨n.toNat,List.mem_range.mpr n.isLt,by rw [BitVec.ofNat_toNat,BitVec.setWidth_eq]⟩
  cases found : List.find? (fun x : BitVec 8 × Handler × BitVec 8 => decide (x.1 = n))
      ((List.range 256).map (fun i => (BitVec.ofNat 8 i,Handler.defaultInterrupt,interruptGateFlags))).reverse with
  | none => exact absurd (decide_eq_true rfl) (List.find?_eq_none.mp found _ member)
  | some x =>
    obtain ⟨i,_,rfl⟩ := List.mem_map.mp (List.mem_reverse.mp (List.mem_of_find?_eq_some found))
    have same := List.find?_some found
    rw [show BitVec.ofNat 8 i = n from of_decide_eq_true same]

theorem settings_last (n : BitVec 8) : settings.reverse.find? (fun x => x.1 = n) =
    some (n,handlerOf n,if n = syscallVector then 0xEE else interruptGateFlags) := by
  rw [settings,List.reverse_append,List.find?_append,default_last,← gates_last]
  cases List.find? (fun x => decide (x.1 = n)) gates.reverse with
  | none => rfl
  | some x => rfl

theorem initInterrupts_read (address : Handler → Dword) (idt : Idt) (n : BitVec 8) :
    Gate.ofDescriptor (initInterrupts address idt n).packed =
      ⟨address (handlerOf n),kernelCs,true,if n = syscallVector then 3 else 0,interruptGate⟩ := by
  have whole : initInterrupts address idt = settings.foldl (fun idt x => update idt x.1
      (idtSetGate idt x.1 (address x.2.1) kernelCs x.2.2 x.1)) idt := by
    rw [settings,List.foldl_append,List.foldl_map,initInterrupts]
    simp only [idtSetGate,update_self]
  have entry : ∀ idt : Idt, ∀ x : BitVec 8 × Handler × BitVec 8, idtSetGate idt x.1 (address x.2.1) kernelCs x.2.2 x.1 =
      (idtSetGate (fun _ => ⟨0,0,0,0,0⟩) 0 (address x.2.1) kernelCs x.2.2 0 : IDTE) := by
    intro idt x
    rw [idtSetGate,idtSetGate,update_self,update_self]
  simp only [entry] at whole
  rw [whole,foldl_update (fun x : Handler × BitVec 8 => (idtSetGate (fun _ => ⟨0,0,0,0,0⟩) 0 (address x.1) kernelCs x.2 0 : IDTE)),
    settings_last]
  change Gate.ofDescriptor (idtSetGate _ 0 (address (handlerOf n)) kernelCs _ 0).packed = _
  rw [idtSetGate_read]
  dsimp only
  split
  · congr 1
  · congr 1

/-- An interrupt of any kind leads to the routine its number stands for, in ring 0 and with
interrupts off, on the stack of the task state segment when it comes from an outer ring. A program
outside the kernel that asks for another interrupt than the system call gets `#GP` instead, and the
controller waits while interrupts are off. -/
theorem deliver_kernelTables {σ : Type} (address : Handler → Dword) (tss : Dword) (idt : Idt) (stack : Selector × Dword)
    (source : Machine.Source) (n : BitVec 8) (error : Option Dword) (s : Machine σ) :
    s.deliver (kernelTables address tss idt) stack source n error =
      if source = .hardware ∧ s.core.eflags &&& interruptFlag = 0 then .held
      else if source = .software ∧ 0 < s.core.ring.toNat ∧ n ≠ syscallVector then .refused (n.setWidth 32 * 8 + 2)
      else .entered (s.enter 0 stack kernelCs (address (handlerOf n)) error) := by
  have segment : Segment.ofDescriptor ((kernelTables address tss idt).gdt (kernelCs.toNat / 8)) =
      ⟨0,0xFFFFF,true,0,0x1A,true,true⟩ := setGdtEntry_read 0 0xFFFFF 0x9A 0xC0
  have ring : s.core.ring.toNat ≤ 3 := by
    rw [Core.ring,BitVec.toNat_and]
    exact Nat.and_le_right
  -- the segment of the kernel's code reaches over all of memory
  have usable : ∀ offset, let code : Segment := ⟨0,0xFFFFF,true,0,0x1A,true,true⟩
      ¬(¬code.present ∨ ¬code.isCode ∨ s.core.ring.toNat < code.ring.toNat ∨ ¬code.covers offset) := by
    intro offset
    have inside := offset.isLt
    simp [Segment.isCode,Segment.covers,Segment.last]
    omega
  unfold Machine.deliver
  by_cases off : source = .hardware ∧ s.core.eflags &&& interruptFlag = 0
  · rw [if_pos off,if_pos off]
  rw [if_neg off,if_neg off]
  rw [show Gate.ofDescriptor ((kernelTables address tss idt).idt n) = _ from initInterrupts_read address idt n]
  dsimp only
  rw [if_neg (by decide),segment]
  by_cases call : n = syscallVector
  · rw [if_pos call,if_neg (by rw [not_and]; intro _; exact Nat.not_lt.mpr ring),if_neg (by decide),
      if_neg (usable _),if_neg (by simp [call])]
    rfl
  · rw [if_neg call]
    by_cases outside : source = .software ∧ (0 : BitVec 2).toNat < s.core.ring.toNat
    · rw [if_pos outside,if_pos ⟨outside.1,outside.2,call⟩]
    · rw [if_neg outside,if_neg (by decide),if_neg (usable _),
        if_neg (fun refused => outside ⟨refused.1,refused.2.1⟩)]
      rfl

end Delivery

end RudimentaryKernel
