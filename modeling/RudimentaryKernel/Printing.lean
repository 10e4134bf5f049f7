import RudimentaryKernel.ByteMemory
import RudimentaryKernel.Vga

/-! `fd_printf_internal` of `print.cpp`, over the memory its pointers lead to. The format
is read byte by byte and the arguments word by word; the loops that run up to a NUL take
fuel, and `none` is a loop that has not come to its end. -/
namespace RudimentaryKernel

open ByteMemory

/-- `putc_internal`, by the descriptors of its table. -/
inductive Fd where
  | serial
  | vga
  | both
  deriving DecidableEq

structure Console where
  serial : List Byte
  vga : Vga

namespace Console

def putc (console : Console) (c : Byte) : Fd → Console
  | .serial => { console with serial := console.serial ++ [c] }
  | .vga => { console with vga := console.vga.putChar c }
  | .both => { serial := console.serial ++ [c], vga := console.vga.putChar c }

end Console

def digits : List Byte :=
  ['0','1','2','3','4','5','6','7','8','9','A','B','C','D','E','F'].map ascii

/-- What the first loop of `print_number` leaves in its buffer, lowest digit first. -/
def numberBuffer (base : Nat) : Nat → Nat → List Byte
  | 0, _ => []
  | room + 1, value =>
    digits.getD (value % base) 0 ::
      if value / base = 0 then [] else numberBuffer base room (value / base)

/-- `print_number`; the second loop takes its buffer of 32 places backwards. -/
def printNumber (value base : Nat) : List Byte := (numberBuffer base 32 value).reverse

/-- `while (*s) putc(*s++)`. -/
def stringAt (memory : Memory) : Nat → Nat → Option (List Byte)
  | 0, _ => none
  | fuel + 1, s =>
    let c := memory (s % 2^32)
    if c = 0 then some [] else (stringAt memory fuel (add32 s 1)).map (c :: ·)

/-- The two pointers of `fd_printf_internal`, and the characters it has put. -/
structure Format where
  fmt : Nat
  args : Nat
  emitted : List Byte
  deriving DecidableEq

namespace Format

def emit (f : Format) (text : List Byte) : Format := { f with emitted := f.emitted ++ text }

def consume (f : Format) (text : List Byte) : Format := { f.emit text with args := add32 f.args 4 }

/-- The `switch`, for the character behind the `%`. -/
def convert (memory : Memory) (fuel : Nat) (f : Format) (conversion : Byte) : Option Format :=
  let argument := load memory 4 f.args
  if conversion = ascii 'd' then some (f.consume (printNumber argument 10))
  else if conversion = ascii 'u' then some (f.consume (printNumber argument 10))
  else if conversion = ascii 'x' then some (f.consume (printNumber argument 16))
  else if conversion = ascii 's' then (stringAt memory fuel argument).map f.consume
  else if conversion = ascii 'c' then some (f.consume [BitVec.ofNat 8 argument])
  else if conversion = ascii '%' then some (f.emit [ascii '%'])
  else some f

def interpret (memory : Memory) : Nat → Format → Option Format
  | 0, _ => none
  | fuel + 1, f =>
    let c := memory (f.fmt % 2^32)
    if c = 0 then some f
    else if c ≠ ascii '%' then interpret memory fuel { f.emit [c] with fmt := add32 f.fmt 1 }
    else
      let f := { f with fmt := add32 f.fmt 1 }
      match f.convert memory fuel (memory (f.fmt % 2^32)) with
      | none => none
      | some f => interpret memory fuel { f with fmt := add32 f.fmt 1 }

end Format

def Console.fdPrintf (console : Console) (memory : Memory) (fuel : Nat) (fd : Fd) (fmt args : Nat) :
    Option Console :=
  (Format.interpret memory fuel ⟨fmt,args,[]⟩).map
    (fun f => f.emitted.foldl (fun console c => console.putc c fd) console)

/-! ### Formats without conversions -/

def HasText (memory : Memory) : Nat → List Byte → Prop
  | a, [] => memory (a % 2^32) = 0
  | a, c :: rest => memory (a % 2^32) = c ∧ c ≠ 0 ∧ HasText memory (add32 a 1) rest

variable {memory : Memory} {fmt : Nat} {text : List Byte}

/-- A text without `%` is put as it stands, by every call with fuel to come to its NUL. -/
theorem Format.interpret_text (args : Nat) (emitted : List Byte) (holds : HasText memory fmt text)
    (plain : ascii '%' ∉ text) :
    ∃ last, ∀ fuel, interpret memory fuel ⟨fmt,args,emitted⟩ =
      if text.length < fuel then some ⟨last,args,emitted ++ text⟩ else none := by
  induction text generalizing fmt emitted with
  | nil =>
    have stop : memory (fmt % 2^32) = 0 := holds
    refine ⟨fmt,fun fuel => ?_⟩
    cases fuel with
    | zero => rfl
    | succ fuel =>
      rw [interpret]
      simp only [stop,if_true,List.append_nil,List.length_nil,Nat.zero_lt_succ]
  | cons c text ih =>
    obtain ⟨here,nonzero,rest⟩ := holds
    simp only [List.mem_cons,not_or] at plain
    obtain ⟨last,run⟩ := ih (emitted ++ [c]) rest plain.2
    refine ⟨last,fun fuel => ?_⟩
    cases fuel with
    | zero => rfl
    | succ fuel =>
      rw [interpret,here]
      simp only [if_neg nonzero,if_pos (Ne.symm plain.1),emit,run fuel,List.append_assoc,
        List.singleton_append,List.length_cons,Nat.add_lt_add_iff_right]

theorem Console.fdPrintf_text (console : Console) (fuel args : Nat) (fd : Fd)
    (holds : HasText memory fmt text) (plain : ascii '%' ∉ text) :
    console.fdPrintf memory fuel fd fmt args =
      if text.length < fuel then some (text.foldl (fun console c => console.putc c fd) console) else none := by
  obtain ⟨last,run⟩ := Format.interpret_text args [] holds plain
  rw [fdPrintf,run]
  split <;> rfl

end RudimentaryKernel
