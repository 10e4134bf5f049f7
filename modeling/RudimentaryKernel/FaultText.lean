import RudimentaryKernel.DescriptorTables
import RudimentaryKernel.FormatReads
import RudimentaryKernel.Switching

/-! The texts of `faults.S` and the line that `fault_print` makes of one of them and a number. -/
namespace RudimentaryKernel

open ByteMemory

def Handler.text : Handler → String
  | .defaultInterrupt => "Default interrupt"
  | .generalProtection => "General Protection Fault code"
  | .doubleFault => "Double Fault at EIP"
  | .divideError => "Divide Error"
  | .debug => "Debug"
  | .nmi => "NMI"
  | .breakpoint => "Breakpoint"
  | .overflow => "Overflow"
  | .bounds => "Bounds"
  | .invalidOpcode => "Invalid Opcode"
  | .deviceNotAvailable => "Device Not Available"
  | .coprocessorSegment => "Coprocessor Segment Overrun"
  | .invalidTss => "Invalid TSS"
  | .segmentNotPresent => "Segment Not Present"
  | .stackSegment => "Stack Segment Fault"
  | .pageFault => "Page Fault"
  | .x87Fpu => "x87 FPU Error"
  | .alignmentCheck => "Alignment Check"
  | .machineCheck => "Machine Check"
  | .simdFpu => "SIMD FPU Error"
  | .timer | .keyboard | .syscallEntry => ""

def pageFaultAddressText : String := "Page Fault at CR2"

def faultFormat : String := "%s=%d (not necessarily an error code)\n"

def textBytes (text : String) : List Byte := text.toList.map ascii

def faultLine (name : String) (error : Nat) : List Byte :=
  textBytes name ++ [ascii '='] ++ printNumber error 10 ++ textBytes " (not necessarily an error code)\n"

theorem Handler.text_short (h : Handler) : (textBytes h.text).length < 30 := by
  cases h <;> decide

theorem interpret_faultFormat {memory : Memory} {fmt args fuel : Nat} {name : String}
    (format : HasText memory fmt (textBytes faultFormat)) (named : HasText memory (load memory 4 args) (textBytes name))
    (enough : (textBytes name).length + 40 < fuel) : ∃ last after, Format.interpret memory fuel ⟨fmt,args,[]⟩ =
      some ⟨last,after,faultLine name (load memory 4 (add32 args 4))⟩ := by
  have nonzero : ascii '%' ≠ 0 := by decide
  have split : textBytes faultFormat = ascii '%' :: ascii 's' :: ascii '=' :: ascii '%' :: ascii 'd' ::
    textBytes " (not necessarily an error code)\n" := by decide +kernel
  rw [split] at format
  obtain ⟨percent,_,string,_,equals,_,percent',_,number,_,rest⟩ := format
  obtain ⟨fuel,rfl⟩ : ∃ rest, fuel = rest + 3 := ⟨fuel - 3,by omega⟩
  have shown : stringAt memory (fuel + 2) (load memory 4 args) = some (textBytes name) :=
    stringAt_text named (by omega)
  obtain ⟨last,tail⟩ := Format.interpret_text (add32 (add32 args 4) 4)
    ([] ++ textBytes name ++ [ascii '='] ++ printNumber (load memory 4 (add32 args 4)) 10) rest (by decide)
  refine ⟨last,add32 (add32 args 4) 4,?_⟩
  have convertString : ∀ (f : Format) n, f.convert memory n (ascii 's') =
    (stringAt memory n (load memory 4 f.args)).map f.consume := fun _ _ => rfl
  have convertNumber : ∀ (f : Format) n, f.convert memory n (ascii 'd') =
    some (f.consume (printNumber (load memory 4 f.args) 10)) := fun _ _ => rfl
  rw [Format.interpret]
  simp only [percent,if_neg nonzero,ne_eq,not_true_eq_false,if_false,string,convertString,shown,Option.map_some]
  rw [Format.interpret]
  simp only [Format.consume,Format.emit,equals]
  rw [if_neg (by decide),if_pos (by decide),Format.interpret]
  simp only [percent',if_neg nonzero,ne_eq,not_true_eq_false,if_false,number,convertNumber,Format.consume,Format.emit]
  have length : (textBytes " (not necessarily an error code)\n").length = 33 := by decide +kernel
  rw [tail,if_pos (by omega)]
  rfl

instance HasText.decidable (memory : Memory) : ∀ a text, Decidable (HasText memory a text)
  | a, [] => inferInstanceAs (Decidable (memory (a % 2^32) = 0))
  | a, c :: rest =>
    have := HasText.decidable memory (add32 a 1) rest
    inferInstanceAs (Decidable (memory (a % 2^32) = c ∧ c ≠ 0 ∧ HasText memory (add32 a 1) rest))

def Span.HasText (span : Span) (memory : Memory) (a : Nat) (text : String) : Prop :=
  span.low ≤ a ∧ a + (textBytes text).length < span.high ∧ span.high ≤ 2^32 ∧
    RudimentaryKernel.HasText memory a (textBytes text)

theorem HasText.congr {memory memory' : Memory} {a : Nat} {text : List Byte} (holds : HasText memory a text)
    (fits : a + text.length < 2^32) (same : ∀ b, a ≤ b → b ≤ a + text.length → memory' b = memory b) :
    HasText memory' a text := by
  have here : a % 2^32 = a := Nat.mod_eq_of_lt (by omega)
  induction text generalizing a with
  | nil =>
    rw [HasText,here] at holds ⊢
    rw [same a le_rfl (by simp)]
    exact holds
  | cons c rest ih =>
    rw [List.length_cons] at fits same
    obtain ⟨first,nonzero,later⟩ := holds
    rw [here] at first
    have next : add32 a 1 = a + 1 := add32_eq (by omega)
    rw [next] at later
    refine ⟨by rw [here,same a le_rfl (by omega),first],nonzero,?_⟩
    rw [next]
    exact ih later (by omega) (fun b low high => same b (by omega) (by omega)) (Nat.mod_eq_of_lt (by omega))

theorem Span.HasText.congr {span : Span} {memory memory' : Memory} {a : Nat} {text : String}
    (holds : span.HasText memory a text) (same : ∀ b, span.low ≤ b → b < span.high → memory' b = memory b) :
    span.HasText memory' a text := by
  obtain ⟨low,high,inside,holds⟩ := holds
  exact ⟨low,high,inside,holds.congr (by omega) (fun b above below => same b (by omega) (by omega))⟩

end RudimentaryKernel
