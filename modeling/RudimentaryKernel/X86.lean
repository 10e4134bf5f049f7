import RudimentaryKernel.ByteMemory

/-! The part of the 32-bit instruction set that interrupt and context-switch code is
written in. Memory is flat, and a segment register is only its selector. `code` tells for
an address the instruction there and where the next one begins, so nothing depends on
encodings. A compiled function is one `foreign` instruction at its address, given from
outside. The nested-task and virtual-8086 flags are clear. -/
namespace RudimentaryKernel.X86

open Function ByteMemory

abbrev Dword := BitVec 32

abbrev Selector := BitVec 16

inductive Reg where
  | eax
  | ecx
  | edx
  | ebx
  | esp
  | ebp
  | esi
  | edi
  deriving DecidableEq, Repr

inductive Seg where
  | cs
  | ds
  | es
  | fs
  | gs
  | ss
  deriving DecidableEq, Repr

structure Core where
  reg : Reg → Dword
  seg : Seg → Selector
  eip : Dword
  eflags : Dword

def Core.ring (c : Core) : Selector := c.seg .cs &&& 3

def interruptFlag : Dword := 0x200

/-- A processor with its memory, whatever else foreign functions act on, and the bytes written to
ports so far. -/
structure Machine (σ : Type) where
  core : Core
  memory : Memory
  world : σ
  ports : List (BitVec 16 × BitVec 8)

/-- Instructions after which the next one follows. -/
inductive Op where
  | pusha
  | popa
  | push (r : Reg)
  | pushImm (w : Dword)
  | pushSeg (s : Seg)
  | pushFlags
  /-- `pushl displacement(%esp)` -/
  | pushStack (displacement : Dword)
  | popSeg (s : Seg)
  | mov (target source : Reg)
  /-- `mov $w, %ax` -/
  | movAx (w : Selector)
  /-- `mov $b, %al` -/
  | movAl (b : BitVec 8)
  /-- `mov %ax, %s` -/
  | movSeg (s : Seg)
  | add (r : Reg) (w : Dword)
  /-- `out %al, $port` -/
  | out (port : BitVec 8)
  | cli

inductive Instr where
  | op (o : Op)
  | call (target : Dword)
  | ret
  | iret
  | foreign

abbrev Code := Dword → Option (Instr × Dword)

namespace Machine

variable {σ : Type}

def esp (s : Machine σ) : Dword := s.core.reg .esp

def setReg (s : Machine σ) (r : Reg) (w : Dword) : Machine σ :=
  { s with core := { s.core with reg := update s.core.reg r w } }

def setSeg (s : Machine σ) (r : Seg) (w : Selector) : Machine σ :=
  { s with core := { s.core with seg := update s.core.seg r w } }

def setFlags (s : Machine σ) (w : Dword) : Machine σ := { s with core := { s.core with eflags := w } }

def jump (s : Machine σ) (a : Dword) : Machine σ := { s with core := { s.core with eip := a } }

def push (s : Machine σ) (w : Nat) : Machine σ :=
  let s := s.setReg .esp (s.esp - 4)
  { s with memory := store s.memory 4 s.esp.toNat w }

def top (s : Machine σ) : Nat := load s.memory 4 s.esp.toNat

def drop (s : Machine σ) : Machine σ := s.setReg .esp (s.esp + 4)

/-- One register of `popa`, which skips the stack pointer. -/
def popReg (s : Machine σ) (r : Reg) : Machine σ :=
  if r = .esp then s.drop else s.drop.setReg r (BitVec.ofNat 32 s.top)

def popaOrder : List Reg := [.edi,.esi,.ebp,.esp,.ebx,.edx,.ecx,.eax]

end Machine

/-- Carry, parity, adjust, zero, sign and overflow of an addition. -/
def addFlags (flags a b : Dword) : Dword :=
  let sum := a + b
  let bit (set : Bool) (w : Dword) : Dword := if set then w else 0
  let parity := (List.range 8).foldl (fun even i => even != sum.getLsbD i) true
  (flags &&& 0xFFFFF72A) ||| bit (a.toNat + b.toNat ≥ 2^32) 1 ||| bit parity 4 |||
    bit ((a ^^^ b ^^^ sum).getLsbD 4) 0x10 ||| bit (sum == 0) 0x40 ||| bit sum.msb 0x80 |||
    bit (((a ^^^ sum) &&& (b ^^^ sum)).msb) 0x800

namespace Op

open Machine

variable {σ : Type}

def apply (s : Machine σ) : Op → Machine σ
  | pusha => popaOrder.reverse.foldl (fun t r => t.push (s.core.reg r).toNat) s
  | popa => popaOrder.foldl popReg s
  | push r => s.push (s.core.reg r).toNat
  | pushImm w => s.push w.toNat
  | pushSeg r => s.push (s.core.seg r).toNat
  | pushFlags => s.push s.core.eflags.toNat
  | pushStack displacement => s.push (load s.memory 4 (s.esp + displacement).toNat)
  | popSeg r => s.drop.setSeg r (BitVec.ofNat 16 s.top)
  | mov target source => s.setReg target (s.core.reg source)
  | movAx w => s.setReg .eax ((s.core.reg .eax &&& 0xFFFF0000) ||| w.setWidth 32)
  | movAl b => s.setReg .eax ((s.core.reg .eax &&& 0xFFFFFF00) ||| b.setWidth 32)
  | movSeg r => s.setSeg r ((s.core.reg .eax).setWidth 16)
  | add r w => (s.setReg r (s.core.reg r + w)).setFlags (addFlags s.core.eflags (s.core.reg r) w)
  | out port => { s with ports := s.ports ++ [(port.setWidth 16,(s.core.reg .eax).setWidth 8)] }
  | cli => s.setFlags (s.core.eflags &&& ~~~interruptFlag)

def applyAll (ops : List Op) (s : Machine σ) : Machine σ := ops.foldl apply s

end Op

namespace Machine

variable {σ : Type} (external : Machine σ → Option (Machine σ)) (code : Code)

/-- `iret` pops the stack pointer too when it leaves the ring. -/
def iret (s : Machine σ) : Machine σ :=
  let eip := BitVec.ofNat 32 s.top
  let s := s.drop
  let cs := BitVec.ofNat 16 s.top
  let s := s.drop
  let flags := BitVec.ofNat 32 s.top
  let s := s.drop
  let ring := s.core.ring
  let s := ((s.jump eip).setSeg .cs cs).setFlags flags
  if cs &&& 3 = ring then s
  else
    let esp := BitVec.ofNat 32 s.top
    let s := s.drop
    (s.setSeg .ss (BitVec.ofNat 16 s.top)).setReg .esp esp

def exec (s : Machine σ) (next : Dword) : Instr → Option (Machine σ)
  | .op o => some ((o.apply s).jump next)
  | .call target => some ((s.push next.toNat).jump target)
  | .ret => some (s.drop.jump (BitVec.ofNat 32 s.top))
  | .iret => some s.iret
  | .foreign => external s

def step (s : Machine σ) : Option (Machine σ) :=
  (code s.core.eip).bind (fun (i,next) => s.exec external next i)

def steps : Nat → Machine σ → Option (Machine σ)
  | 0, s => some s
  | n + 1, s => (s.step external code).bind (steps n)

end Machine

/-- The listing is in memory from `a` on. -/
def Holds (code : Code) : Dword → List Instr → Prop
  | _, [] => True
  | a, i :: rest => ∃ next, code a = some (i,next) ∧ Holds code next rest

def Words (m : Memory) : Dword → List Nat → Prop
  | _, [] => True
  | a, w :: ws => load m 4 a.toNat = w ∧ Words m (a + 4) ws

def storeWords (m : Memory) (a : Dword) : List Nat → Memory
  | [] => m
  | w :: ws => storeWords (store m 4 a.toNat w) (a + 4) ws

/-- Instructions of one byte each, from address 0 on. -/
def flat (all : List Instr) : Code := fun a => all[a.toNat]?.map (fun i => (i,a + 1))

theorem holds_flat {all listing : List Instr} {a : Dword} (room : a.toNat + listing.length < 2^32)
    (found : listing <+: all.drop a.toNat) : Holds (flat all) a listing := by
  induction listing generalizing a with
  | nil => trivial
  | cons i rest ih =>
    rw [List.length_cons] at room
    have next : (a + 1).toNat = a.toNat + 1 := by bv_omega
    obtain ⟨tail,split⟩ := found
    have here : all[a.toNat]? = some i := by
      rw [← List.head?_drop,← split]
      rfl
    refine ⟨a + 1,by rw [flat,here]; rfl,ih (by omega) ⟨tail,?_⟩⟩
    rw [next,← List.tail_drop,← split]
    rfl

section Stack

variable {σ : Type} {s t : Machine σ} {m m' : Memory} {a : Dword} {w : Nat} {ws : List Nat}

@[simp] theorem Machine.jump_jump (s : Machine σ) (a b : Dword) : (s.jump a).jump b = s.jump b := rfl

@[simp] theorem Machine.push_jump (s : Machine σ) (a : Dword) (w : Nat) :
    (s.jump a).push w = (s.push w).jump a := rfl

@[simp] theorem Machine.drop_jump (s : Machine σ) (a : Dword) : (s.jump a).drop = s.drop.jump a := rfl

@[simp] theorem Machine.top_jump (s : Machine σ) (a : Dword) : (s.jump a).top = s.top := rfl

theorem Machine.popReg_jump (s : Machine σ) (a : Dword) (r : Reg) :
    (s.jump a).popReg r = (s.popReg r).jump a := by
  unfold popReg
  split
  · rfl
  · rfl

theorem toNat_above (room : a.toNat + 4 < 2^32) : (a + 4).toNat = a.toNat + 4 := by
  bv_omega

theorem toNat_below (room : 4 ≤ a.toNat) : (a - 4).toNat = a.toNat - 4 := by
  bv_omega

theorem esp_push : (s.push w).esp = s.esp - 4 := by
  rw [Machine.push,Machine.esp,Machine.setReg]
  dsimp only
  rw [update_self]

theorem memory_push : (s.push w).memory = store s.memory 4 (s.esp - 4).toNat w := by
  rw [← esp_push (w := w)]
  rfl

theorem esp_drop : s.drop.esp = s.esp + 4 := by
  rw [Machine.drop,Machine.esp,Machine.setReg]
  dsimp only
  rw [update_self]

theorem Words.congr (words : Words m a ws) (fits : a.toNat + 4 * ws.length ≤ 2^32)
    (same : ∀ b, a.toNat ≤ b → b < a.toNat + 4 * ws.length → m' b = m b) : Words m' a ws := by
  induction ws generalizing a with
  | nil => trivial
  | cons w ws ih =>
    rw [List.length_cons] at fits same
    refine ⟨?_,?_⟩
    · rw [load_congr (by omega) (fun b low high => same b low (by omega))]
      exact words.1
    · cases ws with
      | nil => trivial
      | cons v ws =>
        rw [List.length_cons] at fits same ih
        have next := toNat_above (a := a) (by omega)
        exact ih words.2 (by omega) (fun b low high => same b (by omega) (by omega))

theorem storeWords_apart {b : Nat} (fits : a.toNat + 4 * ws.length ≤ 2^32)
    (outside : b < a.toNat ∨ a.toNat + 4 * ws.length ≤ b) : storeWords m a ws b = m b := by
  induction ws generalizing m a with
  | nil => rfl
  | cons w ws ih =>
    rw [List.length_cons] at fits outside
    rw [storeWords]
    cases ws with
    | nil => exact store_apart (by omega) (by omega)
    | cons v ws =>
      rw [List.length_cons] at fits outside ih
      have next := toNat_above (a := a) (by omega)
      rw [ih (by omega) (by omega),store_apart (by omega) (by omega)]

theorem storeWords_words (fits : a.toNat + 4 * ws.length ≤ 2^32) (small : ∀ w ∈ ws, w < 2^32) :
    Words (storeWords m a ws) a ws := by
  induction ws generalizing m a with
  | nil => trivial
  | cons w ws ih =>
    rw [List.length_cons] at fits
    have value : w % 256^4 = w := Nat.mod_eq_of_lt (small w (by simp))
    rw [storeWords]
    cases ws with
    | nil =>
      refine ⟨?_,trivial⟩
      rw [storeWords,load_store (by omega),value]
    | cons v ws =>
      rw [List.length_cons] at fits ih
      have next := toNat_above (a := a) (by omega)
      refine ⟨?_,ih (by omega) (fun u member => small u (by simp [member]))⟩
      rw [load_congr (m := store m 4 a.toNat w) (by omega) _,load_store (by omega),value]
      intro b low high
      exact storeWords_apart (by rw [List.length_cons]; omega) (by omega)

/-- `t` is `s` after the words of `ws` were pushed, the last one first in the list. -/
structure Pushed (s t : Machine σ) (ws : List Nat) : Prop where
  esp : t.esp.toNat + 4 * ws.length = s.esp.toNat
  reg : ∀ r, r ≠ .esp → t.core.reg r = s.core.reg r
  seg : t.core.seg = s.core.seg
  flags : t.core.eflags = s.core.eflags
  world : t.world = s.world
  ports : t.ports = s.ports
  words : Words t.memory t.esp ws
  kept : ∀ b, b < t.esp.toNat ∨ s.esp.toNat ≤ b → t.memory b = s.memory b

theorem Pushed.refl (s : Machine σ) : Pushed s s [] :=
  ⟨rfl,fun _ _ => rfl,rfl,rfl,rfl,rfl,trivial,fun _ _ => rfl⟩

theorem Pushed.jump (pushed : Pushed s t ws) (a : Dword) : Pushed s (t.jump a) ws :=
  ⟨pushed.esp,pushed.reg,pushed.seg,pushed.flags,pushed.world,pushed.ports,pushed.words,pushed.kept⟩

theorem Pushed.push (pushed : Pushed s t ws) (room : 4 ≤ t.esp.toNat) (small : w < 2^32) :
    Pushed s (t.push w) (w :: ws) := by
  have low := toNat_below room
  have before := s.esp.isLt
  have length := pushed.esp
  refine ⟨?_,?_,pushed.seg,pushed.flags,pushed.world,pushed.ports,?_,?_⟩
  · rw [esp_push,low,List.length_cons]
    omega
  · intro r other
    rw [← pushed.reg r other]
    exact update_of_ne other ..
  · rw [esp_push,memory_push]
    refine ⟨?_,?_⟩
    · rw [load_store (by omega)]
      exact Nat.mod_eq_of_lt small
    · rw [BitVec.sub_add_cancel]
      apply pushed.words.congr (by omega)
      intro b above _
      exact store_apart (by omega) (by omega)
  · intro b outside
    rw [esp_push] at outside
    rw [memory_push,store_apart (by omega) (by omega)]
    exact pushed.kept b (by omega)

theorem Pushed.pushAll (vs : List Nat) (pushed : Pushed s t ws) (room : 4 * vs.length ≤ t.esp.toNat)
    (small : ∀ v ∈ vs, v < 2^32) : Pushed s (vs.foldl Machine.push t) (vs.reverse ++ ws) := by
  induction vs generalizing t ws with
  | nil => exact pushed
  | cons v vs ih =>
    rw [List.length_cons] at room
    have low := toNat_below (a := t.esp) (by omega)
    rw [List.reverse_cons,List.append_assoc]
    refine ih (pushed.push (by omega) (small v (by simp))) ?_ (fun u member => small u (by simp [member]))
    rw [esp_push]
    omega

theorem top_words (words : Words s.memory s.esp (w :: ws)) : s.top = w := words.1

theorem Words.drop (words : Words s.memory s.esp (w :: ws)) : Words s.drop.memory s.drop.esp ws := by
  rw [esp_drop]
  exact words.2

variable {a c f e g : Nat}

theorem iret_inner (words : Words s.memory s.esp (a :: c :: f :: ws))
    (same : BitVec.ofNat 16 c &&& 3 = s.core.ring) : s.iret =
      ((s.drop.drop.drop.jump (BitVec.ofNat 32 a)).setSeg .cs (BitVec.ofNat 16 c)).setFlags
        (BitVec.ofNat 32 f) := by
  have second : s.drop.top = c := top_words words.drop
  rw [Machine.iret,top_words words,second,top_words words.drop.drop]
  exact if_pos same

theorem iret_outer (words : Words s.memory s.esp (a :: c :: f :: e :: g :: ws))
    (other : BitVec.ofNat 16 c &&& 3 ≠ s.core.ring) : s.iret =
      ((((s.drop.drop.drop.jump (BitVec.ofNat 32 a)).setSeg .cs (BitVec.ofNat 16 c)).setFlags
        (BitVec.ofNat 32 f)).drop.setSeg .ss (BitVec.ofNat 16 g)).setReg .esp (BitVec.ofNat 32 e) := by
  have second : s.drop.top = c := top_words words.drop
  have fourth : (((s.drop.drop.drop.jump (BitVec.ofNat 32 a)).setSeg .cs (BitVec.ofNat 16 c)).setFlags
      (BitVec.ofNat 32 f)).top = e := top_words words.drop.drop.drop
  have fifth : (((s.drop.drop.drop.jump (BitVec.ofNat 32 a)).setSeg .cs (BitVec.ofNat 16 c)).setFlags
      (BitVec.ofNat 32 f)).drop.top = g := top_words words.drop.drop.drop.drop
  rw [Machine.iret,top_words words,second,top_words words.drop.drop]
  dsimp only
  rw [fourth,fifth]
  exact if_neg other

end Stack

section Runs

variable {σ : Type} {external : Machine σ → Option (Machine σ)} {code : Code} {s t : Machine σ}

theorem steps_add (m n : Nat) (s : Machine σ) :
    s.steps external code (m + n) = (s.steps external code m).bind (Machine.steps external code n) := by
  induction m generalizing s with
  | zero => rw [Nat.zero_add,Machine.steps,Option.bind_some]
  | succ m ih =>
    rw [Nat.succ_add,Machine.steps,Machine.steps,Option.bind_assoc]
    congr 1
    funext t
    exact ih t

theorem step_fetched {i : Instr} {next : Dword} (fetched : code s.core.eip = some (i,next)) :
    s.step external code = s.exec external next i := by
  rw [Machine.step,fetched,Option.bind_some]

theorem Op.apply_jump (o : Op) (s : Machine σ) (a : Dword) : o.apply (s.jump a) = (o.apply s).jump a := by
  cases o with
  | pusha =>
    rw [Op.apply,Op.apply]
    exact List.foldl_hom (Machine.jump · a) (fun t r => t.push_jump a (s.core.reg r).toNat)
  | popa =>
    rw [Op.apply,Op.apply]
    exact List.foldl_hom (Machine.jump · a) (fun t r => t.popReg_jump a r)
  | _ => rfl

theorem Op.applyAll_jump (ops : List Op) (s : Machine σ) (a : Dword) :
    Op.applyAll ops (s.jump a) = (Op.applyAll ops s).jump a :=
  List.foldl_hom (Machine.jump · a) (fun t o => o.apply_jump t a)

/-- Straight-line code is the composition of its instructions. -/
theorem steps_ops {ops : List Op} {rest : List Instr} (holds : Holds code s.core.eip (ops.map .op ++ rest)) :
    ∃ next, s.steps external code ops.length = some ((Op.applyAll ops s).jump next) ∧
      Holds code next rest := by
  induction ops generalizing s with
  | nil => exact ⟨s.core.eip,rfl,holds⟩
  | cons o ops ih =>
    obtain ⟨next,fetched,holds⟩ := holds
    obtain ⟨last,run,holds⟩ := @ih ((o.apply s).jump next) holds
    refine ⟨last,?_,holds⟩
    rw [List.length_cons,Machine.steps,step_fetched fetched,Machine.exec,Option.bind_some,run,
      Op.applyAll_jump]
    rfl

end Runs

end RudimentaryKernel.X86
