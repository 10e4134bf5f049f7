import RudimentaryKernel.FaultText
import RudimentaryKernel.Seating
import RudimentaryKernel.Traps

/-! The handlers of `faults.S`. All but two print a line and stop the processor for ever, also
when a user program is at fault; a page fault of a user program ends its thread, and an interrupt
without a handler of its own is ignored. -/
namespace RudimentaryKernel

open Function ByteMemory X86

namespace Listing

def print (message faultPrint : Dword) : List TrapInstr :=
  [.base (.op (.push .eax)),.base (.op (.pushImm message)),.base (.call faultPrint),.base (.op (.add .esp 8))]

def faultHandler (message faultPrint : Dword) : List TrapInstr :=
  .base (.op .pusha) :: .load .eax 32 :: (print message faultPrint ++ [.base (.op .popa),.base (.op .cli)])

/-- `fault_print` with nothing to report, and the end of an interrupt for the first controller. -/
def defaultHandler (message faultPrint : Dword) : List TrapInstr :=
  .base (.op .pusha) :: (([.pushImm 0,.pushImm message] : List Op).map (fun o => .base (.op o)) ++
    .base (.call faultPrint) :: .base (.op (.add .esp 8)) ::
    (([.movAl 0x20,.out 0x20] : List Op).map (fun o => .base (.op o)) ++ [.base (.op .popa),.base .iret]))

def pageFaultHandler (message addressMessage faultPrint kernelFault r3Exit : Dword) : List TrapInstr :=
  .base (.op .pusha) :: .load .eax 32 :: (print message faultPrint ++ .readCr2 .eax :: (print addressMessage faultPrint ++
    [.load .eax 32,.test 4 .eax,.jz kernelFault,.base (.op .popa),.base (.op (.add .esp 4)),.base (.call r3Exit)]))

end Listing

def Handler.halts : Handler → Bool
  | .defaultInterrupt | .pageFault | .timer | .keyboard | .syscallEntry => false
  | _ => true

/-- A kernel with the handlers of `faults.S`, `fault_print` and `r3_exit`, and its texts. -/
structure FaultImage extends TrapImage where
  message : Handler → Dword
  addressMessage : Dword
  format : Dword
  rodata : Span
  faultPrint : Dword
  r3Exit : Dword
  r3ExitCall : Dword
  kernelFault : Dword
  haltAt : Handler → Dword
  afterFault : Handler → Dword
  afterPageFault : Dword
  afterDefault : Dword
  afterPrint : Dword
  afterExit : Dword
  defaultHandler_holds : TrapHolds traps (address .defaultInterrupt)
    (Listing.defaultHandler (message .defaultInterrupt) faultPrint) afterDefault
  faultHandler_holds : ∀ h, h.halts → TrapHolds traps (address h) (Listing.faultHandler (message h) faultPrint) (haltAt h)
  pageFaultHandler_holds : TrapHolds traps (address .pageFault)
    (Listing.pageFaultHandler (message .pageFault) addressMessage faultPrint kernelFault r3Exit) afterPageFault
  kernelFault_holds : TrapHolds traps kernelFault [.base (.op .popa),.base (.op .cli)] (haltAt .pageFault)
  halt_holds : ∀ h, h.halts ∨ h = .pageFault → TrapHolds traps (haltAt h) [.hlt,.jmp (haltAt h)] (afterFault h)
  faultPrint_holds : TrapHolds traps faultPrint [.base .foreign] afterPrint
  r3ExitCall_holds : TrapHolds traps r3ExitCall [.base (.call image.schedulerEntry)] afterExit

def serialOut (text : List Byte) : List (BitVec 16 × BitVec 8) := text.map (fun c => (0x3F8,c))

namespace SwitchRun

variable {ι : Type}

/-- `fault_print(name, error)`. `kprintf` gets the two words over as they are. -/
def faultPrint (format : Dword) (fuel : Nat) (scratch : Scratch) (s : SwitchRun ι) : Option (SwitchRun ι) :=
  (Format.interpret s.memory fuel ⟨format.toNat,(s.esp + 4).toNat,[]⟩).map (fun f =>
    s.functionReturn 8 { scratch with ports := serialOut f.emitted })

end SwitchRun

namespace FaultImage

variable {ι : Type}

def compiled (k : FaultImage) (fuel : Nat) (scratch : SwitchRun ι → Scratch) (s : SwitchRun ι) : Option (SwitchRun ι) :=
  if s.core.eip = k.faultPrint then s.faultPrint k.format fuel (scratch s) else none

/-- The text at `name` and the format of `fault_print` are among the constants of the kernel, away
from the stack of the running thread. -/
structure Printable (k : FaultImage) (s : SwitchRun ι) (name : Dword) (text : String) : Prop where
  apart : k.rodata.Apart (s.world.stack s.current)
  format : k.rodata.HasText s.memory k.format.toNat faultFormat
  name : k.rodata.HasText s.memory name.toNat text

theorem Printable.later {k : FaultImage} {s t : SwitchRun ι} {name : Dword} {text : String}
    {written : List (BitVec 16 × BitVec 8)} (printable : k.Printable s name text) (computes : s.Computes t written) :
    k.Printable t name text := by
  have apart := printable.apart
  unfold Span.Apart at apart
  have same : ∀ b, k.rodata.low ≤ b → b < k.rodata.high → t.memory b = s.memory b :=
    fun b low high => computes.outside b (by omega)
  refine ⟨?_,printable.format.congr same,printable.name.congr same⟩
  rw [computes.world,computes.current]
  exact printable.apart

end FaultImage

namespace SwitchRun

variable {ι : Type} {k : FaultImage} {s p x w : SwitchRun ι} {b d : Nat} {error : Option Dword}
  {rest : List TrapInstr} {last : Dword}

theorem Saved.drops {n : Nat} (saved : Saved k.image s p (n + d) x)
    (holds : TrapHolds k.traps x.core.eip (.base (.op (.add .esp (BitVec.ofNat 32 n))) :: rest) last) :
    ∃ y, (∀ external cr2, x.trapSteps external cr2 k.traps 1 = some y) ∧ x.Computes y [] ∧ Saved k.image s p d y ∧
      TrapHolds k.traps y.core.eip rest last := by
  obtain ⟨next,add,rest⟩ := holds
  have deep := saved.esp
  have inside := p.esp.isLt
  refine ⟨((Op.add .esp (BitVec.ofNat 32 n)).apply x).jump next,?_,
    computes_registers rfl rfl (List.append_nil _).symm,
    saved.registers rfl rfl (List.append_nil _).symm ?_ rfl,rest⟩
  · intro external cr2
    rw [Machine.trapSteps,trapStep_fetched add]
    rfl
  · change (x.esp + BitVec.ofNat 32 n).toNat + d = _
    bv_omega

/-- The word above the registers: the code of the exception, or the address it came from when the
processor pushes none. -/
theorem trapped_code {ring : BitVec 2} {stack : Selector × Dword} {cs : Selector}
    (trapped : Trapped s p ring stack cs error) :
    load p.memory 4 (p.esp + 32).toNat = (error.getD s.core.eip).toNat := by
  obtain ⟨c,_,words⟩ := trapped.words
  have above := (words_append.mp words).2
  rw [frame_length] at above
  cases error with
  | none => exact above.1
  | some code => exact above.1

theorem Saved.loads (saved : Saved k.image s p 0 x) {ring : BitVec 2} {stack : Selector × Dword} {cs : Selector}
    (trapped : Trapped s p ring stack cs error) (inside : p.esp.toNat + 36 ≤ (s.world.stack s.current).high)
    (high : (s.world.stack s.current).high < 2^32)
    (holds : TrapHolds k.traps x.core.eip (.load .eax 32 :: rest) last) :
    ∃ y, (∀ external cr2, x.trapSteps external cr2 k.traps 1 = some y) ∧ x.Computes y [] ∧ Saved k.image s p 0 y ∧
      y.core.reg .eax = error.getD s.core.eip ∧ TrapHolds k.traps y.core.eip rest last := by
  obtain ⟨next,load,rest⟩ := holds
  have code := trapped_code trapped
  have here : (p.esp + 32).toNat = p.esp.toNat + 32 := by bv_omega
  rw [here] at code
  have word : ByteMemory.load x.memory 4 (x.esp + 32).toNat = (error.getD s.core.eip).toNat := by
    rw [saved.pointer,here,← code]
    exact load_congr (by omega) (fun b low inner => saved.same b (by omega) (by omega))
  refine ⟨(x.setReg .eax (BitVec.ofNat 32 (ByteMemory.load x.memory 4 (x.esp + 32).toNat))).jump next,?_,
    computes_registers rfl rfl (List.append_nil _).symm,
    saved.registers rfl rfl (List.append_nil _).symm saved.esp rfl,?_,rest⟩
  · intro external cr2
    rw [Machine.trapSteps,trapStep_fetched load]
    rfl
  · change update x.core.reg .eax (BitVec.ofNat 32 (ByteMemory.load x.memory 4 (x.esp + 32).toNat)) .eax = _
    rw [update_self,word,BitVec.ofNat_toNat,BitVec.setWidth_eq]

theorem Saved.exits (saved : Saved k.image s p 0 x) {ring : BitVec 2} {stack : Selector × Dword} {cs : Selector}
    (trapped : Trapped s p ring stack cs error) (inside : p.esp.toNat + 36 ≤ (s.world.stack s.current).high)
    (high : (s.world.stack s.current).high < 2^32) (low : (s.world.stack s.current).low ≤ p.esp.toNat)
    (holds : TrapHolds k.traps x.core.eip [.base (.op .popa),.base (.op (.add .esp 4)),.base (.call k.r3Exit)] last) :
    ∃ y, (∀ external cr2, x.trapSteps external cr2 k.traps 3 = some y) ∧ x.Computes y [] ∧ y.core.eip = k.r3Exit ∧
      y.core.ring = 0 ∧ y.esp.toNat = p.esp.toNat + 32 := by
  obtain ⟨atCall,⟨after,call,_⟩,run⟩ := @TrapHolds.ops k.traps [.popa,.add .esp 4] [.base (.call k.r3Exit)] _ _ holds
  have popping := fun external cr2 => run external cr2 x rfl
  rw [Op.applyAll_cons] at popping
  obtain ⟨c,_,words⟩ := trapped.words
  have registers : Words x.memory x.esp c.frame := by
    rw [saved.pointer]
    refine (words_append.mp words).1.congr ?_ ?_
    · rw [frame_length]
      omega
    · rw [frame_length]
      exact fun b low inner => saved.same b low (by omega)
  obtain ⟨reg,seg,_,memory,world,ports⟩ := popa_popped registers
  generalize Op.popa.apply x = q at reg seg memory world ports popping
  have pointer : q.core.reg .esp = p.esp + 32 := by
    rw [reg,update_self,saved.pointer]
  let y : SwitchRun ι := (((((Op.add .esp 4).apply q).jump atCall).push after.toNat).jump k.r3Exit)
  have esp : (q.core.reg .esp + 4 - 4).toNat = p.esp.toNat + 32 := by
    rw [pointer]
    bv_omega
  have stored : y.memory = store x.memory 4 (p.esp.toNat + 32) after.toNat := by
    rw [← esp,← memory]
    rfl
  refine ⟨y,?_,⟨world,ports.trans (List.append_nil _).symm,?_⟩,rfl,?_,esp⟩
  · intro external cr2
    refine (trapSteps_add 2 1 x).trans ?_
    rw [show x.trapSteps external cr2 k.traps 2 = some (((Op.add .esp 4).apply q).jump atCall) from popping external cr2,
      Option.bind_some,Machine.trapSteps,trapStep_fetched call]
    rfl
  · rw [saved.runner,saved.stack]
    intro b outside
    rw [stored]
    exact store_apart (by omega) (by omega)
  · change q.core.seg .cs &&& 3 = 0
    rw [seg]
    exact saved.ring

/-- One instruction, or an interrupt that the controller asks for before it. -/
def Executes (k : TrapImage) (external : SwitchRun ι → Option (SwitchRun ι)) (cr2 : Dword) (s t : SwitchRun ι) : Prop :=
  s.trapStep external cr2 k.traps = some t ∨ ∃ v, s.interrupt k .hardware v none = .entered t

theorem held_off (off : s.core.eflags &&& interruptFlag = 0) (k : TrapImage) (v : BitVec 8) (error : Option Dword) :
    s.interrupt k .hardware v error = .held := by
  rw [interrupt,deliver_kernelTables,if_pos ⟨rfl,off⟩]

/-- The end of a handler that halts: whatever the devices ask for, the processor stays where it is. -/
theorem stops (k : FaultImage) {handler : Handler} (kind : handler.halts ∨ handler = .pageFault)
    (holds : TrapHolds k.traps x.core.eip [.base (.op .popa),.base (.op .cli)] (k.haltAt handler))
    (external : SwitchRun ι → Option (SwitchRun ι)) (cr2 : Dword) :
    ∃ f, x.trapSteps external cr2 k.traps 2 = some f ∧ f.world = x.world ∧ f.ports = x.ports ∧
      ∀ t, Relation.ReflTransGen (Executes k.toTrapImage external cr2) f t → t = f := by
  obtain ⟨_,ended,run⟩ := @TrapHolds.ops k.traps [.popa,.cli] [] _ _ holds
  obtain rfl : _ = k.haltAt handler := ended
  obtain ⟨_,hlt,_⟩ := k.halt_holds handler kind
  have off : ((Op.applyAll [.popa,.cli] x).jump (k.haltAt handler)).core.eflags &&& interruptFlag = 0 := by
    change ((Op.popa.apply x).core.eflags &&& ~~~interruptFlag) &&& interruptFlag = 0
    rw [BitVec.and_assoc]
    exact BitVec.and_zero
  refine ⟨_,run external cr2 x rfl,rfl,rfl,?_⟩
  intro t execution
  induction execution with
  | refl => rfl
  | tail _ step ih =>
    subst ih
    rcases step with step | ⟨v,taken⟩
    · rw [trapStep_fetched hlt] at step
      exact (Option.some.inj step).symm
    · rw [held_off off] at taken
      contradiction

variable [DecidableEq ι] {text : String} {message : Dword} (fuel : Nat) (scratch : SwitchRun ι → Scratch) (cr2 : Dword)

theorem Saved.prints {ops : List Op} {n : Nat} (saved : Saved k.image s p 0 x)
    (low : (s.world.stack s.current).low + 12 ≤ p.esp.toNat) (high : p.esp.toNat ≤ (s.world.stack s.current).high)
    (pushed : Pushed x (Op.applyAll ops x) [message.toNat,n])
    (holds : TrapHolds k.traps x.core.eip (ops.map (fun o => .base (.op o)) ++
      .base (.call k.faultPrint) :: .base (.op (.add .esp 8)) :: rest) last)
    (printable : k.Printable x message text) (enough : (textBytes text).length + 40 < fuel) :
    ∃ y, x.trapSteps (k.compiled fuel scratch) cr2 k.traps (ops.length + 3) = some y ∧
      x.Computes y (serialOut (faultLine text n)) ∧ Saved k.image s p 0 y ∧ TrapHolds k.traps y.core.eip rest last := by
  obtain ⟨h,called,computes,eip,ring,_,⟨name,number,_⟩,deep,back⟩ :=
    saved.calls (by change _ + 0 + 4 * 2 + 4 ≤ _; omega) high pushed holds
  change _ + 4 + 4 * 2 + 0 = _ at deep
  have runner : current h = s.current := computes.current.trans saved.runner
  have stack : h.world.stack (current h) = s.world.stack s.current := by
    rw [computes.world,runner]
    exact saved.stack
  have sound := works_sound saved.sound (computes.works saved.sound)
  -- the format and the text are where they were
  have printable := printable.later computes
  obtain ⟨_,_,_,format⟩ := printable.format
  obtain ⟨_,_,_,named⟩ := printable.name
  rw [← name] at named
  obtain ⟨end',after,shown⟩ := interpret_faultFormat format named enough
  have second : add32 (h.esp + 4).toNat 4 = (h.esp + 4 + 4).toNat := by
    rw [BitVec.toNat_add (h.esp + 4)]
    rfl
  rw [second,number] at shown
  obtain ⟨left,ports,printed⟩ : ∃ left : Scratch, left.ports = serialOut (faultLine text n) ∧
      k.compiled fuel scratch h = some (functionReturn 8 left h) := by
    refine ⟨{ scratch h with ports := serialOut (faultLine text n) },rfl,?_⟩
    rw [FaultImage.compiled,if_pos eip,faultPrint,shown]
    rfl
  have returning : Computes h (functionReturn 8 left h) left.ports := functionReturn_computes (by rw [stack]; omega)
  have spares : Spares k.image s.current p.esp.toNat h (functionReturn 8 left h) := by
    rw [← runner]
    exact functionReturn_spares sound h.world.keyboard (by omega) (by rw [stack]; omega)
  rw [ports] at returning
  obtain ⟨saved',rest⟩ := back _ (.single spares) (functionReturn_returned ring h.world.keyboard)
  obtain ⟨y,dropped,computes',saved',rest⟩ := Saved.drops (n := 8) saved' rest
  refine ⟨y,?_,?_,saved',rest⟩
  · change x.trapSteps _ _ _ (ops.length + 1 + 1 + 1) = _
    refine trapSteps_trans (trapSteps_trans (called ..) ?_) (dropped ..)
    rw [function_step k.faultPrint_holds eip]
    exact printed
  · have whole := (computes.trans returning).trans computes'
    rw [List.nil_append,List.append_nil] at whole
    exact whole

theorem Saved.prints_eax (saved : Saved k.image s p 0 x)
    (low : (s.world.stack s.current).low + 12 ≤ p.esp.toNat) (high : p.esp.toNat ≤ (s.world.stack s.current).high)
    (holds : TrapHolds k.traps x.core.eip (Listing.print message k.faultPrint ++ rest) last)
    (printable : k.Printable x message text) (enough : (textBytes text).length + 40 < fuel) :
    ∃ y, x.trapSteps (k.compiled fuel scratch) cr2 k.traps 5 = some y ∧
      x.Computes y (serialOut (faultLine text (x.core.reg .eax).toNat)) ∧ Saved k.image s p 0 y ∧
      TrapHolds k.traps y.core.eip rest last := by
  have pushed : Pushed x (Op.applyAll [.push .eax,.pushImm message] x) [message.toNat,(x.core.reg .eax).toNat] := by
    refine (Pushed.refl x).pushAll [(x.core.reg .eax).toNat,message.toNat] ?_ ?_
    · rw [saved.pointer]
      change 4 * 2 ≤ _
      omega
    · simpa using ⟨(x.core.reg .eax).isLt,message.isLt⟩
  exact saved.prints fuel scratch cr2 low high pushed holds printable enough

theorem fault_prints (k : FaultImage) (sound : Sound k.image s) (stacked : Stacked b s) {n : Nat} (room : s.TrapRoom b n)
    (small : n ≤ Tasks.stackSize) (least : 68 ≤ n) (v : BitVec 8) (error : Option Dword)
    (holds : TrapHolds k.traps (k.address (handlerOf v))
      (.base (.op .pusha) :: .load .eax 32 :: (Listing.print message k.faultPrint ++ rest)) last)
    (printable : k.Printable s message text) (enough : (textBytes text).length + 40 < fuel) :
    ∃ e p y, s.interrupt k.toTrapImage .exception v error = .entered e ∧
      Trapped s p 0 (ss0,BitVec.ofNat 32 s.world.threads.tasks.esp0) kernelCs error ∧
      (s.world.stack s.current).low + n ≤ p.esp.toNat + 56 ∧ p.esp.toNat + 36 ≤ (s.world.stack s.current).high ∧
      e.trapSteps (k.compiled fuel scratch) cr2 k.traps 7 = some y ∧
      s.Computes y (serialOut (faultLine text (error.getD s.core.eip).toNat)) ∧ Saved k.image s p 0 y ∧
      TrapHolds k.traps y.core.eip rest last := by
  have bound := sound.high _ sound.current_alive
  have short : error.toList.length ≤ 1 := by
    cases error <;> simp
  obtain ⟨e,p,x,delivered,trapped,low,size,high,saving,computes,saved,_,_,rest⟩ :=
    interrupt_saves k.toTrapImage sound stacked room small error (by omega) .exception (v := v)
      (fun held => nomatch held.1) (fun refused => nomatch refused.1) holds
  have length : 1 ≤ (s.trapWords 0 error).length := by
    rw [trapWords_length]
    split <;> omega
  obtain ⟨x',loaded,computes₁,saved₁,eax,rest⟩ := saved.loads trapped (by omega) bound rest
  have before := computes.trans computes₁
  obtain ⟨y,printed,computes₂,saved₂,rest⟩ := saved₁.prints_eax fuel scratch cr2 (by omega) (by omega) rest
    (printable.later before) enough
  rw [eax] at computes₂
  refine ⟨e,p,y,delivered,trapped,by omega,by omega,?_,before.trans computes₂,saved₂,rest⟩
  exact trapSteps_trans (trapSteps_trans (saving ..) (loaded ..)) printed

/-- An exception other than a page fault stops the machine, in the kernel and outside: it prints a
line, and from there on no instruction and no interrupt, of the timer or of any other device, gets
the processor away from its `hlt`. So does an `int` of a user program for any number but that of
system calls, which is an exception itself. What is printed as the error is the address of the
program for exceptions without an error code. -/
theorem exceptions_stop_the_machine (k : FaultImage) (b : Nat) (s : SwitchRun ι)
    (reached : Reach (BootedBy b) (Step k.image) s) (room : s.TrapRoom b 68) (enough : 70 ≤ fuel) :
    (s.core.ring ≠ 0 → ∀ n, n ≠ syscallVector →
      s.interrupt k.toTrapImage .software n none = .refused (n.setWidth 32 * 8 + 2)) ∧
    ∀ v error, (handlerOf v).halts → k.Printable s (k.message (handlerOf v)) (handlerOf v).text →
      ∃ e f, s.interrupt k.toTrapImage .exception v error = .entered e ∧
        e.trapSteps (k.compiled fuel scratch) cr2 k.traps 9 = some f ∧ f.world = s.world ∧
        f.ports = s.ports ++ serialOut (faultLine (handlerOf v).text (error.getD s.core.eip).toNat) ∧
        ∀ t, Relation.ReflTransGen (Executes k.toTrapImage (k.compiled fuel scratch) cr2) f t → t = f := by
  obtain ⟨sound,stacked⟩ := reached_stacked reached
  refine ⟨?_,?_⟩
  · intro outside n other
    rw [interrupt,deliver_kernelTables,if_neg (by simp),if_pos]
    refine ⟨rfl,?_,other⟩
    refine Nat.pos_of_ne_zero (fun inner => outside ?_)
    exact BitVec.eq_of_toNat_eq inner
  · intro v error halts printable
    have short := (handlerOf v).text_short
    obtain ⟨e,p,y,delivered,_,_,_,printed,computes,_,rest⟩ := fault_prints fuel scratch cr2 k sound stacked room
      (by decide) le_rfl v error (k.faultHandler_holds _ halts) printable (by omega)
    obtain ⟨f,halted,world,ports,forever⟩ := stops k (.inl halts) rest (k.compiled fuel scratch) cr2
    exact ⟨e,f,delivered,trapSteps_trans printed halted,world.trans computes.world,ports.trans computes.ports,forever⟩

end SwitchRun

namespace Tasks

variable {ι : Type} {s : Tasks ι}

end Tasks

namespace SwitchRun

variable {ι : Type} [DecidableEq ι] {k : FaultImage} {s x z : SwitchRun ι}

variable {written : List (BitVec 16 × BitVec 8)}

/-- An interrupt without a handler of its own prints a line, tells the first controller, and no other,
the end of an interrupt, and the program goes on. -/
theorem stray_interrupt_returns (k : FaultImage) (b : Nat) (s : SwitchRun ι)
    (reached : Reach (BootedBy b) (Step k.image) s) (room : s.TrapRoom b 64) (source : Machine.Source)
    (kind : source ≠ .software) (enabled : source = .hardware → s.core.eflags &&& interruptFlag ≠ 0) (v : BitVec 8)
    (stray : handlerOf v = .defaultInterrupt)
    (message : k.Printable s (k.message .defaultInterrupt) Handler.defaultInterrupt.text) (fuel : Nat)
    (enough : 70 ≤ fuel) (scratch : SwitchRun ι → Scratch) (cr2 : Dword) :
    ∃ e f, s.interrupt k.toTrapImage source v none = .entered e ∧
      e.trapSteps (k.compiled fuel scratch) cr2 k.traps 10 = some f ∧ s.Continues f ∧ f.world = s.world ∧
      f.ports = s.ports ++ (serialOut (faultLine Handler.defaultInterrupt.text 0) ++ [(0x20,0x20)]) ∧
      ∀ b, b < (s.world.stack s.current).low ∨ s.trapBase ≤ b → f.memory b = s.memory b := by
  obtain ⟨sound,stacked⟩ := reached_stacked reached
  have short := Handler.defaultInterrupt.text_short
  have listing := k.defaultHandler_holds
  rw [← stray] at listing
  obtain ⟨e,p,x,delivered,trapped,low,size,high,saving,computes,saved,_,_,rest⟩ :=
    interrupt_saves k.toTrapImage sound stacked room (by decide) none (by decide) source (v := v)
      (fun held => enabled held.1 held.2) (fun refused => kind refused.1) listing
  change _ ≤ p.esp.toNat + 52 + 0 at low
  rw [stray] at rest
  have pushed : Pushed x (Op.applyAll [.pushImm 0,.pushImm (k.message .defaultInterrupt)] x)
      [(k.message .defaultInterrupt).toNat,0] := by
    refine (Pushed.refl x).pushAll [0,(k.message .defaultInterrupt).toNat] ?_ ?_
    · rw [saved.pointer]
      change 4 * 2 ≤ _
      omega
    · simpa using (k.message .defaultInterrupt).isLt
  obtain ⟨y,printed,computes₁,saved₁,rest⟩ := saved.prints fuel scratch cr2 (by omega) (by omega) pushed rest
    (message.later computes) (by omega)
  obtain ⟨next,rest,run⟩ := rest.ops
  have acknowledged := run (k.compiled fuel scratch) cr2 y rfl
  have ports := endOfInterrupt_ports y
  have saved₂ : Saved k.image s p 0 ((Op.applyAll [.movAl 0x20,.out 0x20] y).jump next) :=
    saved₁.registers rfl rfl ports saved₁.esp rfl
  have computes₂ : Computes y ((Op.applyAll [.movAl 0x20,.out 0x20] y).jump next) [(0x20,0x20)] :=
    computes_registers rfl rfl ports
  have whole := (computes.trans computes₁).trans computes₂
  obtain ⟨f,back,continues,memory,world,ports'⟩ := saved₂.returns trapped high rest (k.compiled fuel scratch) cr2
  refine ⟨e,f,delivered,?_,continues,world.trans whole.world,ports'.trans whole.ports,?_⟩
  · exact trapSteps_trans (trapSteps_trans (trapSteps_trans (saving ..) printed) acknowledged) back
  · intro b outside
    rw [memory]
    by_cases above : s.trapBase ≤ b ∧ b < (s.world.stack s.current).high
    · rw [saved₂.same b (by omega) above.2]
      exact trapped.kept b (.inr above.1)
    · exact whole.outside b (by omega)

/-- Behind the routines of `sampleListing`: the handlers, the halting ones being one, `fault_print` and
the call in `r3_exit`. -/
def sampleHandlers : List TrapInstr :=
  Listing.faultHandler 0x20000 101 ++ [.hlt,.jmp 69] ++ Listing.pageFaultHandler 0x20000 0x20100 101 88 203 ++
    [.base (.op .popa),.base (.op .cli),.hlt,.jmp 90] ++ Listing.defaultHandler 0x20000 101 ++
    [.base .foreign,.base (.call 0)]

def sampleFaults : FaultImage where
  toTrapImage := sampleTraps sampleHandlers
  message _ := 0x20000
  addressMessage := 0x20100
  format := 0x20200
  rodata := ⟨0x20000,0x20300⟩
  faultPrint := 101
  r3Exit := 203
  r3ExitCall := 102
  kernelFault := 88
  haltAt h := if h = .pageFault then 90 else 69
  afterFault h := if h = .pageFault then 92 else 71
  afterPageFault := 88
  afterDefault := 101
  afterPrint := 102
  afterExit := 103
  defaultHandler_holds := holds_trapFlat (by decide) ⟨_,rfl⟩
  faultHandler_holds h halts := by
    cases h with
    | defaultInterrupt | pageFault | timer | keyboard | syscallEntry => contradiction
    | _ => exact holds_trapFlat (by decide) ⟨_,rfl⟩
  pageFaultHandler_holds := holds_trapFlat (by decide) ⟨_,rfl⟩
  kernelFault_holds := holds_trapFlat (by decide) ⟨_,rfl⟩
  halt_holds h _ := by
    by_cases page : h = .pageFault
    · rw [if_pos page,if_pos page]
      exact holds_trapFlat (by decide) ⟨_,rfl⟩
    · rw [if_neg page,if_neg page]
      exact holds_trapFlat (by decide) ⟨_,rfl⟩
  faultPrint_holds := holds_trapFlat (by decide) ⟨_,rfl⟩
  r3ExitCall_holds := holds_trapFlat (by decide) ⟨_,rfl⟩

def sampleTexts (message : String) : Memory := fun b =>
  if b < 0x20100 then (textBytes message).getD (b - 0x20000) 0
  else if b < 0x20200 then (textBytes pageFaultAddressText).getD (b - 0x20100) 0
  else (textBytes faultFormat).getD (b - 0x20200) 0

section Samples

variable {message : String} {s : SwitchRun Unit}

theorem UserRuns.printable (user : UserRuns sampleHandlers (sampleTexts message) s) {a : Dword} {text : String}
    (low : 0x20000 ≤ a.toNat) (high : a.toNat + (textBytes text).length < 0x20300)
    (named : HasText (sampleTexts message) a.toNat (textBytes text)) : sampleFaults.Printable s a text := by
  have same : ∀ b, sampleFaults.rodata.low ≤ b → b < sampleFaults.rodata.high → s.memory b = sampleTexts message b :=
    fun b above _ => user.memory b above
  have blank : HasText (sampleTexts "") 0x20200 (textBytes faultFormat) := by decide +kernel
  have format : HasText (sampleTexts message) 0x20200 (textBytes faultFormat) := by
    refine blank.congr (by decide) (fun b above _ => ?_)
    rw [sampleTexts,sampleTexts,if_neg (by omega),if_neg (by omega),if_neg (by omega)]
  refine ⟨?_,Span.HasText.congr ⟨by decide,by decide,by decide,format⟩ same,
    Span.HasText.congr ⟨low,high,by decide,named⟩ same⟩
  rw [user.current,user.stack.2]
  exact .inr (show 0xd000 ≤ 0x20000 by decide)

/-- A user thread divides by zero. -/
theorem division_by_zero_stops : ∃ s f : SwitchRun Unit, s.core.ring = 3 ∧
    f.ports = s.ports ++ serialOut (faultLine "Divide Error" s.core.eip.toNat) ∧
    ∀ t, Relation.ReflTransGen (Executes sampleFaults.toTrapImage
      (sampleFaults.compiled 100 (fun s => ⟨0,0,0,0,s.memory,[]⟩)) 0) f t → t = f := by
  obtain ⟨s,user⟩ := user_runs sampleHandlers (sampleTexts "Divide Error")
  obtain ⟨e,f,_,_,_,ports,forever⟩ := (exceptions_stop_the_machine 100 (fun s => ⟨0,0,0,0,s.memory,[]⟩) 0 sampleFaults 100 s
    user.reached (user.room 68) (by decide)).2 0 none rfl (user.printable (by decide) (by decide) (by decide +kernel))
  exact ⟨s,f,user.ring,ports,forever⟩

/-- A device on line 4 asks for an interrupt that nobody expects. -/
theorem stray_line_returns : ∃ s f : SwitchRun Unit, s.core.ring = 3 ∧ s.Continues f ∧
    f.ports = s.ports ++ (serialOut (faultLine "Default interrupt" 0) ++ [(0x20,0x20)]) := by
  obtain ⟨s,user⟩ := user_runs sampleHandlers (sampleTexts "Default interrupt")
  obtain ⟨e,f,_,_,continues,_,ports,_⟩ := stray_interrupt_returns sampleFaults 100 s user.reached (user.room 64) .hardware
    (by decide) (fun _ => user.enabled) 0x24 rfl (user.printable (by decide) (by decide) (by decide +kernel)) 100 (by decide)
    (fun s => ⟨0,0,0,0,s.memory,[]⟩) 0
  exact ⟨s,f,user.ring,continues,ports⟩

end Samples

end SwitchRun

end RudimentaryKernel
