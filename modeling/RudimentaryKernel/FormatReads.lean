import RudimentaryKernel.Numerals
import RudimentaryKernel.Printing

/-! What `fd_printf_internal` reads and puts. A format is a list of pieces, literal characters
and conversions, unless it ends in the middle of a conversion. The loop is run once more with
a record of its reads: how far behind the start of the format, and at which addresses it
takes arguments. -/
namespace RudimentaryKernel

open ByteMemory Numerals

inductive Directive where
  | literal (c : Byte)
  | number (base : Nat)
  | string
  | char
  | percent
  | unknown

def numeralText (base n : Nat) : List Byte := (numeral base n).map (fun d => digits.getD d 0)

namespace Directive

/-- The piece for the character behind a `%`. -/
def ofConversion (c : Byte) : Directive :=
  if c = ascii 'd' then .number 10
  else if c = ascii 'u' then .number 10
  else if c = ascii 'x' then .number 16
  else if c = ascii 's' then .string
  else if c = ascii 'c' then .char
  else if c = ascii '%' then .percent
  else .unknown

def takes : Directive → Bool
  | .number _ | .string | .char => true
  | .literal _ | .percent | .unknown => false

def shown (strings : Nat → List Byte) (word : Nat) : Directive → List Byte
  | .literal c => [c]
  | .number base => numeralText base word
  | .string => strings word
  | .char => [BitVec.ofNat 8 word]
  | .percent => [ascii '%']
  | .unknown => []

theorem shown_untaken {strings : Nat → List Byte} {item : Directive} (plain : item.takes = false) (word other : Nat) :
    item.shown strings word = item.shown strings other := by
  cases item with
  | literal _ | percent | unknown => rfl
  | number _ | string | char => cases plain

end Directive

/-- The pieces of a text. A `%` at its end begins a conversion that has no character. -/
def directives : List Byte → Option (List Directive)
  | [] => some []
  | [c] => if c = ascii '%' then none else some [.literal c]
  | c :: d :: rest =>
    if c = ascii '%' then (directives rest).map (.ofConversion d :: ·)
    else (directives (d :: rest)).map (.literal c :: ·)

theorem directives_literal {c : Byte} {rest : List Byte} (plain : c ≠ ascii '%') :
    directives (c :: rest) = (directives rest).map (.literal c :: ·) := by
  cases rest with
  | nil => simp [directives,plain]
  | cons d rest => rw [directives,if_neg plain]

theorem directives_conversion (c : Byte) (rest : List Byte) :
    directives (ascii '%' :: c :: rest) = (directives rest).map (.ofConversion c :: ·) := by
  rw [directives,if_pos rfl]

@[elab_as_elim]
theorem format_induction {motive : List Byte → Prop} (nil : motive []) (dangling : motive [ascii '%'])
    (literal : ∀ c rest, c ≠ ascii '%' → motive rest → motive (c :: rest))
    (conversion : ∀ c rest, motive rest → motive (ascii '%' :: c :: rest)) (text : List Byte) : motive text := by
  induction text using directives.induct with
  | case1 => exact nil
  | case2 => exact dangling
  | case3 c plain => exact literal c [] plain nil
  | case4 c rest ih => exact conversion c rest ih
  | case5 c d rest plain ih => exact literal c (d :: rest) plain ih

def rendering (strings : Nat → List Byte) : List Directive → List Nat → List Byte
  | [], _ => []
  | item :: items, words =>
    if item.takes then item.shown strings (words.headD 0) ++ rendering strings items words.tail
    else item.shown strings 0 ++ rendering strings items words

def argumentAddresses (args count : Nat) : List Nat := (List.range count).map (fun i => (args + 4 * i) % 2^32)

def argumentWords (memory : Memory) (args count : Nat) : List Nat :=
  (argumentAddresses args count).map (load memory 4)

/-- How far behind the start of the format a run has read it, and where it has read arguments. -/
structure Reads where
  format : List Nat
  arguments : List Nat
  deriving DecidableEq

def Reads.before (format arguments : List Nat) (later : Reads) : Reads :=
  ⟨format ++ later.format,arguments ++ later.arguments⟩

namespace Format

/-- The loop of `interpret` together with its reads, when the format pointer has been moved
by `moved`. A run that has not come to its end has its reads as well. -/
def scan (memory : Memory) : Nat → Nat → Format → Option Format × Reads
  | 0, _, _ => (none,⟨[],[]⟩)
  | fuel + 1, moved, f =>
    let c := memory (f.fmt % 2^32)
    if c = 0 then (some f,⟨[moved],[]⟩)
    else if c ≠ ascii '%' then
      (scan memory fuel (moved + 1) { f.emit [c] with fmt := add32 f.fmt 1 }).map id (Reads.before [moved] [])
    else
      let f := { f with fmt := add32 f.fmt 1 }
      let conversion := memory (f.fmt % 2^32)
      let taken := if (Directive.ofConversion conversion).takes then [f.args % 2^32] else []
      match f.convert memory fuel conversion with
      | none => (none,⟨[moved,moved + 1],taken⟩)
      | some f =>
        (scan memory fuel (moved + 2) { f with fmt := add32 f.fmt 1 }).map id
          (Reads.before [moved,moved + 1] taken)

def reads (memory : Memory) (fuel fmt args : Nat) : Reads := (scan memory fuel 0 ⟨fmt,args,[]⟩).2

end Format

section Memory

variable {memory : Memory} {s k fmt : Nat} {text : List Byte}

theorem argumentAddresses_succ (args count : Nat) :
    argumentAddresses args (count + 1) = args % 2^32 :: argumentAddresses (add32 args 4) count := by
  rw [argumentAddresses,List.range_succ_eq_map,List.map_cons,List.map_map]
  refine congrArg₂ _ rfl (List.map_congr_left ?_)
  intro i _
  unfold add32
  simp only [Function.comp_apply]
  omega

theorem argumentWords_succ (memory : Memory) (args count : Nat) : argumentWords memory args (count + 1) =
    load memory 4 args :: argumentWords memory (add32 args 4) count := by
  rw [argumentWords,argumentAddresses_succ,List.map_cons,load_mod]
  rfl

theorem HasText.nul (holds : HasText memory s text) : memory ((s + text.length) % 2^32) = 0 := by
  induction text generalizing s with
  | nil => exact holds
  | cons c text ih =>
    have rest := ih holds.2.2
    rwa [add32,Nat.mod_add_mod,Nat.add_assoc,Nat.add_comm 1] at rest

theorem stringAt_text {fuel : Nat} (holds : HasText memory s text) (enough : text.length < fuel) :
    stringAt memory fuel s = some text := by
  induction text generalizing s fuel with
  | nil =>
    obtain ⟨fuel,rfl⟩ := Nat.exists_eq_add_of_lt enough
    have stop : memory (s % 2^32) = 0 := holds
    rw [stringAt]
    simp only [stop,if_true]
  | cons c text ih =>
    obtain ⟨fuel,rfl⟩ : ∃ rest, fuel = rest + 1 := ⟨fuel - 1,by omega⟩
    obtain ⟨here,nonzero,rest⟩ := holds
    rw [stringAt,here]
    simp only [if_neg nonzero,ih rest (by simpa using enough),Option.map_some]

theorem exists_text (zero : memory ((s + k) % 2^32) = 0) : ∃ text, HasText memory s text ∧ text.length ≤ k := by
  induction k generalizing s with
  | zero => exact ⟨[],zero,Nat.le_refl _⟩
  | succ k ih =>
    by_cases here : memory (s % 2^32) = 0
    · exact ⟨[],here,Nat.zero_le _⟩
    · have later : memory ((add32 s 1 + k) % 2^32) = 0 := by
        rwa [add32,Nat.mod_add_mod,Nat.add_assoc,Nat.add_comm 1]
      obtain ⟨text,holds,short⟩ := ih later
      exact ⟨memory (s % 2^32) :: text,⟨rfl,here,holds⟩,Nat.succ_le_succ short⟩

theorem exists_strings (holds : HasText memory fmt text) :
    ∃ strings : Nat → List Byte, ∀ a, HasText memory a (strings a) ∧ (strings a).length < 2^32 := by
  have all : ∀ a, ∃ found, HasText memory a found ∧ found.length < 2^32 := by
    intro a
    have place : (a + (fmt + text.length + (2^32 - a % 2^32)) % 2^32) % 2^32 = (fmt + text.length) % 2^32 := by omega
    obtain ⟨found,here,short⟩ := exists_text (place ▸ holds.nul)
    exact ⟨found,here,by omega⟩
  exact Classical.skolem.mp all

end Memory

theorem numeralText_step {base : Nat} (proper : 1 < base) (n : Nat) : numeralText base n =
    (if n / base = 0 then [] else numeralText base (n / base)) ++ [digits.getD (n % base) 0] := by
  rw [numeralText,numeral_step proper,List.map_append]
  split
  · rfl
  · rfl

theorem numberBuffer_numeral {base room n : Nat} (proper : 1 < base) (fits : n < base^(room + 1)) :
    (numberBuffer base (room + 1) n).reverse = numeralText base n := by
  induction room generalizing n with
  | zero =>
    have small : n / base = 0 := Nat.div_eq_of_lt (by simpa using fits)
    rw [numberBuffer,numeralText_step proper,if_pos small,if_pos small]
    rfl
  | succ room ih =>
    rw [numberBuffer,numeralText_step proper]
    split
    · rfl
    · rw [List.reverse_cons,ih (Nat.div_lt_of_lt_mul (by rwa [← Nat.pow_succ']))]

theorem printNumber_numeral {base n : Nat} (proper : 1 < base) (word : n < 2^32) :
    printNumber n base = numeralText base n :=
  numberBuffer_numeral proper (Nat.lt_of_lt_of_le word (Nat.pow_le_pow_left proper 32))

namespace Format

variable {memory : Memory} {f g : Format} {fuel moved : Nat} {text : List Byte} {c : Byte} {items : List Directive}

theorem scan_result (memory : Memory) (fuel moved : Nat) (f : Format) :
    (scan memory fuel moved f).1 = interpret memory fuel f := by
  induction fuel generalizing moved f with
  | zero => rfl
  | succ fuel ih =>
    rw [scan,interpret]
    dsimp only
    split
    · rfl
    · split
      · rw [Prod.map_fst,ih,id]
      · cases convert memory fuel { f with fmt := add32 f.fmt 1 } (memory (add32 f.fmt 1 % 2^32)) with
        | none => rfl
        | some g => exact ih _ _

theorem scan_stop (nul : memory (f.fmt % 2^32) = 0) :
    scan memory (fuel + 1) moved f = (some f,⟨[moved],[]⟩) := by
  rw [scan]
  exact if_pos nul

theorem scan_literal (here : memory (f.fmt % 2^32) = c) (nonzero : c ≠ 0) (plain : c ≠ ascii '%') :
    scan memory (fuel + 1) moved f = (scan memory fuel (moved + 1) { f.emit [c] with fmt := add32 f.fmt 1 }).map id
      (Reads.before [moved] []) := by
  subst here
  rw [scan]
  exact (if_neg nonzero).trans (if_pos plain)

theorem scan_conversion (here : memory (f.fmt % 2^32) = ascii '%') (behind : memory (add32 f.fmt 1 % 2^32) = c)
    (done : convert memory fuel { f with fmt := add32 f.fmt 1 } c = some g) :
    scan memory (fuel + 1) moved f = (scan memory fuel (moved + 2) { g with fmt := add32 g.fmt 1 }).map id
      (Reads.before [moved,moved + 1] (if (Directive.ofConversion c).takes then [f.args % 2^32] else [])) := by
  have nonzero : ascii '%' ≠ 0 := by decide
  rw [scan,here]
  simp only [if_neg nonzero,ne_eq,not_true_eq_false,if_false,behind,done]

theorem scan_stuck (here : memory (f.fmt % 2^32) = ascii '%')
    (stuck : convert memory fuel { f with fmt := add32 f.fmt 1 } (memory (add32 f.fmt 1 % 2^32)) = none) :
    (scan memory (fuel + 1) moved f).2.format = [moved,moved + 1] := by
  have nonzero : ascii '%' ≠ 0 := by decide
  rw [scan,here]
  simp only [if_neg nonzero,ne_eq,not_true_eq_false,if_false,stuck]

theorem mem_scan (memory : Memory) (fuel moved : Nat) (f : Format) :
    moved ∈ (scan memory (fuel + 1) moved f).2.format := by
  rw [scan]
  dsimp only
  split
  · simp
  split
  · simp [Reads.before]
  split
  all_goals simp [Reads.before]

theorem convert_fmt (done : f.convert memory fuel c = some g) : g.fmt = f.fmt := by
  unfold convert at done
  dsimp only at done
  repeat' split at done
  all_goals first
    | (cases done; rfl)
    | (obtain ⟨_,_,rfl⟩ := Option.map_eq_some_iff.mp done; rfl)

theorem scan_inside (holds : HasText memory f.fmt text) (parsed : directives text = some items) :
    ∀ place ∈ (scan memory fuel moved f).2.format, place ≤ moved + text.length := by
  induction text using format_induction generalizing f fuel moved items with
  | nil =>
    cases fuel with
    | zero => simp [scan]
    | succ fuel => simp [scan_stop holds]
  | dangling => simp [directives] at parsed
  | literal c rest plain ih =>
    obtain ⟨here,nonzero,later⟩ := holds
    rw [directives_literal plain] at parsed
    obtain ⟨others,rest_parsed,rfl⟩ := Option.map_eq_some_iff.mp parsed
    cases fuel with
    | zero => simp [scan]
    | succ fuel =>
      have inside := @ih { f.emit [c] with fmt := add32 f.fmt 1 } fuel (moved + 1) others later rest_parsed
      rw [scan_literal here nonzero plain,List.length_cons]
      rintro place (_ | ⟨_,member⟩)
      · omega
      · have bound := inside place member
        omega
  | conversion c rest ih =>
    obtain ⟨here,_,behind,_,later⟩ := holds
    rw [directives_conversion] at parsed
    obtain ⟨others,rest_parsed,rfl⟩ := Option.map_eq_some_iff.mp parsed
    rw [List.length_cons,List.length_cons]
    cases fuel with
    | zero => simp [scan]
    | succ fuel =>
      cases outcome : convert memory fuel { f with fmt := add32 f.fmt 1 } c with
      | none =>
        rw [scan_stuck here (behind ▸ outcome)]
        simp
      | some g =>
        have pointer : g.fmt = add32 f.fmt 1 := convert_fmt outcome
        have inside := @ih { g with fmt := add32 g.fmt 1 } fuel (moved + 2) others (by rwa [pointer]) rest_parsed
        rw [scan_conversion here behind outcome]
        rintro place (_ | ⟨_,_ | ⟨_,member⟩⟩)
        · omega
        · omega
        · have bound := inside place member
          omega

section Strings

variable {strings : Nat → List Byte} (texts : ∀ a, HasText memory a (strings a) ∧ (strings a).length < 2^32)

include texts

theorem convert_shown (enough : 2^32 ≤ fuel) (f : Format) (c : Byte) :
    f.convert memory fuel c = some { f with
      args := if (Directive.ofConversion c).takes then add32 f.args 4 else f.args
      emitted := f.emitted ++ (Directive.ofConversion c).shown strings (load memory 4 f.args) } := by
  have word : load memory 4 f.args < 2^32 := load_lt
  have string : stringAt memory fuel (load memory 4 f.args) = some (strings (load memory 4 f.args)) :=
    stringAt_text (texts _).1 (Nat.lt_of_lt_of_le (texts _).2 enough)
  unfold convert Directive.ofConversion
  dsimp only
  rw [printNumber_numeral (by decide) word,printNumber_numeral (by decide) word,string]
  split
  · rfl
  split
  · rfl
  split
  · rfl
  split
  · rfl
  split
  · rfl
  split
  · rfl
  · simp [Directive.takes,Directive.shown]

/-- A format that ends behind a piece is shown piece by piece. Each of its bytes is read in
turn, the NUL last, and one argument for each piece that takes one. -/
theorem scan_shown (holds : HasText memory f.fmt text) (parsed : directives text = some items)
    (enough : text.length + 2^32 < fuel) : ∃ last args, scan memory fuel moved f =
      (some ⟨last,args,f.emitted ++ rendering strings items (argumentWords memory f.args (items.countP Directive.takes))⟩,
        ⟨List.range' moved (text.length + 1),argumentAddresses f.args (items.countP Directive.takes)⟩) := by
  induction text using format_induction generalizing f fuel moved items with
  | nil =>
    obtain ⟨fuel,rfl⟩ : ∃ rest, fuel = rest + 1 := ⟨fuel - 1,by omega⟩
    obtain rfl : [] = items := Option.some.inj parsed
    refine ⟨f.fmt,f.args,?_⟩
    rw [scan_stop holds,rendering,List.append_nil]
    rfl
  | dangling => simp [directives] at parsed
  | literal c rest plain ih =>
    obtain ⟨fuel,rfl⟩ : ∃ rest, fuel = rest + 1 := ⟨fuel - 1,by omega⟩
    obtain ⟨here,nonzero,later⟩ := holds
    rw [directives_literal plain] at parsed
    obtain ⟨others,rest_parsed,rfl⟩ := Option.map_eq_some_iff.mp parsed
    rw [List.length_cons] at enough
    obtain ⟨last,args,run⟩ := @ih { f.emit [c] with fmt := add32 f.fmt 1 } fuel (moved + 1) others later
      rest_parsed (by omega)
    refine ⟨last,args,?_⟩
    rw [scan_literal here nonzero plain,run]
    simp [Reads.before,rendering,Directive.takes,Directive.shown,emit,List.range'_succ]
  | conversion c rest ih =>
    obtain ⟨fuel,rfl⟩ : ∃ rest, fuel = rest + 1 := ⟨fuel - 1,by omega⟩
    obtain ⟨here,_,behind,_,later⟩ := holds
    rw [directives_conversion] at parsed
    obtain ⟨others,rest_parsed,rfl⟩ := Option.map_eq_some_iff.mp parsed
    rw [List.length_cons,List.length_cons] at enough
    have shown := convert_shown texts (by omega : 2^32 ≤ fuel) { f with fmt := add32 f.fmt 1 } c
    obtain ⟨last,args,run⟩ := @ih ⟨add32 (add32 f.fmt 1) 1,
      if (Directive.ofConversion c).takes then add32 f.args 4 else f.args,
      f.emitted ++ (Directive.ofConversion c).shown strings (load memory 4 f.args)⟩ fuel (moved + 2) others later
      rest_parsed (by omega)
    refine ⟨last,args,?_⟩
    rw [scan_conversion here behind shown]
    dsimp only
    rw [run]
    cases takes : (Directive.ofConversion c).takes with
    | true =>
      simp [Reads.before,rendering,takes,argumentWords_succ,argumentAddresses_succ,List.range'_succ]
    | false =>
      rw [Directive.shown_untaken takes (load memory 4 f.args) 0]
      simp [Reads.before,rendering,takes,List.range'_succ]

/-- A `%` at the end takes the loop behind the NUL. -/
theorem scan_beyond (holds : HasText memory f.fmt text) (dangling : directives text = none)
    (enough : text.length + 2^32 < fuel) : moved + text.length + 1 ∈ (scan memory fuel moved f).2.format := by
  induction text using format_induction generalizing f fuel moved with
  | nil => cases dangling
  | dangling =>
    obtain ⟨fuel,rfl⟩ : ∃ rest, fuel = rest + 2 := ⟨fuel - 2,by omega⟩
    obtain ⟨here,_,behind⟩ := holds
    have shown := convert_shown texts (by omega : 2^32 ≤ fuel + 1) { f with fmt := add32 f.fmt 1 } 0
    rw [scan_conversion here behind shown]
    exact List.mem_append_right _ (mem_scan memory fuel (moved + 2) _)
  | literal c rest plain ih =>
    obtain ⟨fuel,rfl⟩ : ∃ rest, fuel = rest + 1 := ⟨fuel - 1,by omega⟩
    obtain ⟨here,nonzero,later⟩ := holds
    rw [directives_literal plain,Option.map_eq_none_iff] at dangling
    rw [List.length_cons] at enough ⊢
    have beyond := @ih { f.emit [c] with fmt := add32 f.fmt 1 } fuel (moved + 1) later dangling (by omega)
    rw [scan_literal here nonzero plain]
    refine List.mem_append_right _ ?_
    rwa [show moved + (rest.length + 1) + 1 = moved + 1 + rest.length + 1 by omega]
  | conversion c rest ih =>
    obtain ⟨fuel,rfl⟩ : ∃ rest, fuel = rest + 1 := ⟨fuel - 1,by omega⟩
    obtain ⟨here,_,behind,_,later⟩ := holds
    rw [directives_conversion,Option.map_eq_none_iff] at dangling
    rw [List.length_cons,List.length_cons] at enough ⊢
    have shown := convert_shown texts (by omega : 2^32 ≤ fuel) { f with fmt := add32 f.fmt 1 } c
    rw [scan_conversion here behind shown]
    refine List.mem_append_right _ ?_
    rw [show moved + (rest.length + 1 + 1) + 1 = moved + 2 + rest.length + 1 by omega]
    exact ih later dangling (by omega)

end Strings

end Format

/-- Every call that is given enough time puts this text, to whichever descriptor. -/
def Emits (memory : Memory) (fmt args : Nat) (text : List Byte) : Prop :=
  ∃ enough, ∀ fuel ≥ enough, ∀ (console : Console) (fd : Fd),
    console.fdPrintf memory fuel fd fmt args = some (text.foldl (fun console c => console.putc c fd) console)

theorem emits_shown {memory : Memory} {fmt : Nat} {text : List Byte} {items : List Directive} {strings : Nat → List Byte}
    (texts : ∀ a, HasText memory a (strings a) ∧ (strings a).length < 2^32) (holds : HasText memory fmt text)
    (parsed : directives text = some items) (args : Nat) :
    Emits memory fmt args (rendering strings items (argumentWords memory args (items.countP Directive.takes))) := by
  refine ⟨text.length + 2^32 + 1,fun fuel enough console fd => ?_⟩
  obtain ⟨last,after,run⟩ := @Format.scan_shown memory ⟨fmt,args,[]⟩ fuel 0 text items strings texts holds parsed
    (by omega)
  rw [Console.fdPrintf,← Format.scan_result memory fuel 0,run]
  rfl

/-- The interpreter stays inside its format exactly when the format does not end in the middle of
a conversion. Then it reads each byte up to the NUL in turn and one argument for each conversion
that takes one, in order, and puts the literal characters and what the conversions show. -/
theorem format_inside_iff (memory : Memory) (fmt args : Nat) (text : List Byte) (holds : HasText memory fmt text) :
    ((∀ fuel, ∀ place ∈ (Format.reads memory fuel fmt args).format, place ≤ text.length) ↔ directives text ≠ none) ∧
    ∀ items, directives text = some items → ∃ strings : Nat → List Byte, (∀ a, HasText memory a (strings a)) ∧
      Emits memory fmt args (rendering strings items (argumentWords memory args (items.countP Directive.takes))) ∧
      ∃ enough, ∀ fuel ≥ enough, Format.reads memory fuel fmt args =
        ⟨List.range (text.length + 1),argumentAddresses args (items.countP Directive.takes)⟩ := by
  obtain ⟨strings,texts⟩ := exists_strings holds
  refine ⟨⟨?_,?_⟩,?_⟩
  · intro inside dangling
    obtain ⟨fuel,enough⟩ : ∃ fuel, text.length + 2^32 < fuel := ⟨_,Nat.lt_succ_self _⟩
    have beyond := @Format.scan_beyond memory ⟨fmt,args,[]⟩ fuel 0 text strings texts holds dangling enough
    have bound := inside fuel _ beyond
    omega
  · intro whole fuel place member
    obtain ⟨items,parsed⟩ := Option.ne_none_iff_exists'.mp whole
    have bound := Format.scan_inside holds parsed place member
    omega
  · intro items parsed
    refine ⟨strings,fun a => (texts a).1,emits_shown texts holds parsed args,text.length + 2^32 + 1,fun fuel enough => ?_⟩
    obtain ⟨last,after,run⟩ := @Format.scan_shown memory ⟨fmt,args,[]⟩ fuel 0 text items strings texts holds parsed
      (by omega)
    rw [Format.reads,run,List.range_eq_range']

/-- A `%d` with the word 7 behind it. -/
theorem decimal_format_inside : ∃ memory : Memory, HasText memory 0 [ascii '%',ascii 'd'] ∧
    (∀ fuel, ∀ place ∈ (Format.reads memory fuel 0 4).format, place ≤ 2) ∧ Emits memory 0 4 [ascii '7'] := by
  let memory : Memory := fun a => [ascii '%',ascii 'd',0,0,7].getD a 0
  have holds : HasText memory 0 [ascii '%',ascii 'd'] := ⟨rfl,by decide,rfl,by decide,rfl⟩
  obtain ⟨inside,shown⟩ := format_inside_iff memory 0 4 [ascii '%',ascii 'd'] holds
  obtain ⟨strings,_,emits,_⟩ := shown [.number 10] rfl
  refine ⟨memory,holds,inside.mpr (Option.some_ne_none [Directive.number 10]),?_⟩
  have word : argumentWords memory 4 1 = [7] := by decide +kernel
  have text : rendering strings [.number 10] [7] = [ascii '7'] := by
    simp [rendering,Directive.takes,Directive.shown,numeralText,numeral,digits]
  rw [← text,← word]
  exact emits

/-- The format is a single `%`. What stands behind its NUL is interpreted as well, and takes an
argument although the format has no conversion. -/
theorem dangling_percent_reads_on : ∃ memory : Memory, HasText memory 0 [ascii '%'] ∧
    Format.reads memory 9 0 8 = ⟨[0,1,2,3,4],[8]⟩ ∧
    ∀ console : Console, console.fdPrintf memory 9 .serial 0 8 =
      some { console with serial := console.serial ++ [ascii '7'] } := by
  let memory : Memory := fun a => [ascii '%',0,ascii '%',ascii 'd',0,0,0,0,7].getD a 0
  have run : Format.scan memory 9 0 ⟨0,8,[]⟩ = (some ⟨4,12,[ascii '7']⟩,⟨[0,1,2,3,4],[8]⟩) := by decide +kernel
  refine ⟨memory,⟨rfl,by decide,rfl⟩,by rw [Format.reads,run],fun console => ?_⟩
  rw [Console.fdPrintf,← Format.scan_result memory 9 0,run]
  rfl

end RudimentaryKernel
