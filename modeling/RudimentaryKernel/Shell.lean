import RudimentaryKernel.Printing

/-! The command line of `user/shell.cpp`. The shell keeps the line in a buffer and writes
its echo through the kernel's format interpreter; what is on the screen is what
`vga_put_char` makes of the echo. -/
namespace RudimentaryKernel

open Function ByteMemory

def place (memory : Memory) (a : Nat) : List Byte → Memory
  | [] => memory
  | c :: rest => update (place memory (add32 a 1) rest) (a % 2^32) c

/-- The shell's memory at a system call: where its strings are, and what is around them. -/
structure ShellMemory where
  memory : Memory
  buf : Nat
  erase : Nat
  prompt : Nat
  eraseText : HasText memory erase [ascii '\x08',ascii ' ',ascii '\x08']
  promptText : HasText memory prompt [ascii '>',ascii ' ']

/-- The variables of `_start`, the devices, and the texts given to `call_exec`. -/
structure Shell where
  line : Int → Byte
  len : Int
  console : Console
  requests : List (List Byte)

namespace Shell

/-- `shell_write`: to the serial line and the screen, without arguments. -/
def shellWrite (s : Shell) (memory : Memory) (fuel : Nat) (text : Nat) : Option Shell :=
  (s.console.fdPrintf memory fuel .both text 0).map (fun console => { s with console := console })

/-- `shell_putc`: the character and a NUL in `buf`, to the screen. -/
def shellPutc (s : Shell) (u : ShellMemory) (fuel : Nat) (c : Byte) : Option Shell :=
  (s.console.fdPrintf (place u.memory u.buf [c,0]) fuel .vga u.buf 0).map
    (fun console => { s with console := console })

def enter (s : Shell) (u : ShellMemory) (fuel : Nat) : Option Shell :=
  let s := { s with line := update s.line s.len 0 }
  let text := ((List.range 128).map (fun i : Nat => s.line i)).takeWhile (· ≠ 0)
  let s := if s.len > 0 then { s with requests := s.requests ++ [text] } else s
  shellWrite { s with len := 0 } u.memory fuel u.prompt

/-- One turn of the loop, for the value `call_getchar` gives. -/
def keystroke (s : Shell) (u : ShellMemory) (fuel : Nat) (c : Int) : Option Shell :=
  if c = -1 then some s
  else if c < 0x20 ∧ c ≠ 10 ∧ c ≠ 8 then some s
  else if c = 8 then
    if s.len > 0 then shellWrite { s with len := s.len - 1 } u.memory fuel u.erase else some s
  else
    match s.shellPutc u fuel (BitVec.ofInt 8 c) with
    | none => none
    | some s =>
      if c = 10 then s.enter u fuel
      else if s.len < 127 then
        some { s with line := update s.line s.len (BitVec.ofInt 8 c), len := s.len + 1 }
      else some s

def Typable (c : Int) : Prop := (0x20 ≤ c ∧ c < 0x7F) ∨ c = 8

def InRow (v : Vga) : Prop :=
  (0 ≤ v.cursorX ∧ v.cursorX < vgaWidth) ∧ 0 ≤ v.cursorY ∧ v.cursorY < vgaHeight

def Prompted (s : Shell) : Prop := s.len = 0 ∧ InRow s.console.vga

/-- A key is typed, whatever is in memory, and its echo stays in the row. -/
def Types (s t : Shell) (c : Int) : Prop :=
  Typable c ∧ (∃ u fuel, s.keystroke u fuel c = some t) ∧ InRow t.console.vga ∧
    t.console.vga.cursorY = s.console.vga.cursorY

def Shows (s : Shell) (column row : Int) : Prop :=
  s.console.vga.cursorY = row ∧ s.console.vga.cursorX = column + s.len ∧
    ∀ i, 0 ≤ i → i < s.len →
      (s.console.vga.screen (row * vgaWidth + column + i)).setWidth 8 = s.line i

end Shell

namespace Vga

variable {v : Vga} {c : Byte}

/-- A glyph is drawn at the cursor, which goes on in its row or, from the last column, to
the start of another one. -/
theorem putChar_glyph (inRow : Shell.InRow v) (newline : c ≠ ascii '\n') (return' : c ≠ ascii '\r')
    (tab : c ≠ ascii '\t') :
    (v.putChar c).screen = update v.screen (v.cursorY * vgaWidth + v.cursorX) (v.entry c) ∧
      Shell.InRow (v.putChar c) ∧
      ((v.putChar c).cursorX = v.cursorX + 1 ∧ (v.putChar c).cursorY = v.cursorY ∨
        v.cursorX + 1 = vgaWidth ∧ (v.putChar c).cursorX = 0 ∧ (v.putChar c).cursorY ≠ v.cursorY) := by
  obtain ⟨⟨left,right⟩,top,bottom⟩ := inRow
  have moved := advance_glyph left right top bottom newline return' tab
  unfold putChar
  rw [moved]
  by_cases fits : v.cursorX + 1 < vgaWidth
  · simp only [if_pos fits,store]
    rw [if_neg (Int.not_le.mpr bottom)]
    exact ⟨rfl,⟨⟨Int.add_nonneg left (by decide),fits⟩,top,bottom⟩,.inl ⟨rfl,rfl⟩⟩
  have full : v.cursorX + 1 = vgaWidth := by omega
  simp only [if_neg fits,store]
  by_cases last : v.cursorY + 1 ≥ vgaHeight
  · rw [if_pos last]
    refine ⟨rfl,⟨⟨Int.le_refl 0,vgaWidth_pos⟩,Int.le_refl 0,vgaHeight_pos⟩,.inr ⟨full,rfl,?_⟩⟩
    simp only [moveHardwareCursor,vgaHeight] at last ⊢
    omega
  · rw [if_neg last]
    refine ⟨rfl,⟨⟨Int.le_refl 0,vgaWidth_pos⟩,Int.add_nonneg top (by decide),Int.not_le.mp last⟩,.inr ⟨full,rfl,?_⟩⟩
    simp only [moveHardwareCursor]
    omega

theorem entry_character (v : Vga) (c : Byte) : (v.entry c).setWidth 8 = c := by
  unfold entry
  ext i bound
  have inside : i < 16 := by omega
  simp [BitVec.getElem_signExtend,bound,inside]

end Vga

namespace Shell

variable {s t : Shell} {u : ShellMemory} {fuel : Nat} {column row c : Int}

theorem ofInt_ne {b : Byte} (low : 0 ≤ c) (high : c < 0x7F) (other : c ≠ b.toNat) :
    BitVec.ofInt 8 c ≠ b := by
  rintro rfl
  rw [BitVec.toNat_ofInt] at other
  omega

theorem place_text {memory : Memory} {a : Nat} {b : Byte} (nonzero : b ≠ 0) :
    HasText (place memory a [b,0]) a [b] := by
  have apart : add32 a 1 % 2^32 ≠ a % 2^32 := by
    unfold add32
    omega
  refine ⟨update_self ..,nonzero,?_⟩
  have behind : place memory a [b,0] (add32 a 1 % 2^32) = 0 := by
    rw [place,place,update_of_ne apart,update_self]
  exact behind

theorem shellPutc_plain {b : Byte} (nonzero : b ≠ 0) (plain : b ≠ ascii '%') :
    s.shellPutc u fuel b = if 1 < fuel then
        some { s with console := { s.console with vga := s.console.vga.putChar b } }
      else none := by
  rw [shellPutc,Console.fdPrintf_text _ _ _ _ (place_text nonzero) (by simpa using plain.symm)]
  simp only [List.length_singleton]
  split <;> rfl

/-- The devices after the three characters that are to erase one. -/
def erased (console : Console) : Console :=
  { serial := console.serial ++ [ascii '\x08'] ++ [ascii ' '] ++ [ascii '\x08']
    vga := ((console.vga.putChar (ascii '\x08')).putChar (ascii ' ')).putChar (ascii '\x08') }

theorem shellWrite_erase : s.shellWrite u.memory fuel u.erase =
    if 3 < fuel then some { s with console := erased s.console } else none := by
  rw [shellWrite,Console.fdPrintf_text _ _ _ _ u.eraseText (by decide)]
  simp only [List.length_cons,List.length_nil]
  split <;> rfl

theorem shellWrite_keeps {text : Nat} (echo : s.shellWrite u.memory fuel text = some t) :
    t.len = s.len := by
  obtain ⟨console,_,rfl⟩ := Option.map_eq_some_iff.mp echo
  rfl

theorem shellPutc_keeps {b : Byte} (echo : s.shellPutc u fuel b = some t) : t.len = s.len := by
  obtain ⟨console,_,rfl⟩ := Option.map_eq_some_iff.mp echo
  rfl

theorem keystroke_len (low : 0 ≤ s.len) (high : s.len ≤ 127) (typed : s.keystroke u fuel c = some t) :
    0 ≤ t.len ∧ t.len ≤ 127 := by
  unfold keystroke at typed
  split at typed
  · exact Option.some.inj typed ▸ ⟨low,high⟩
  split at typed
  · exact Option.some.inj typed ▸ ⟨low,high⟩
  split at typed
  · split at typed
    · have kept := shellWrite_keeps typed
      dsimp only at kept
      omega
    · exact Option.some.inj typed ▸ ⟨low,high⟩
  split at typed
  · cases typed
  rename_i echoed echo
  have kept := shellPutc_keeps echo
  split at typed
  · have kept := shellWrite_keeps typed
    dsimp only at kept
    omega
  split at typed
  · obtain rfl := Option.some.inj typed
    dsimp only
    omega
  · obtain rfl := Option.some.inj typed
    omega

def added (s : Shell) (b : Byte) : Shell :=
  { s with
    console := { s.console with vga := s.console.vga.putChar b }
    line := update s.line s.len b
    len := s.len + 1 }

theorem keystroke_printable (low : 0x20 ≤ c) (high : c < 0x7F) (plain : c ≠ 0x25) (room : s.len < 127) :
    s.keystroke u fuel c = if 1 < fuel then some (s.added (BitVec.ofInt 8 c)) else none := by
  have nonzero : BitVec.ofInt 8 c ≠ 0 := ofInt_ne (by omega) high (by simp; omega)
  have other : BitVec.ofInt 8 c ≠ ascii '%' := ofInt_ne (by omega) high plain
  rw [keystroke,if_neg (by omega),if_neg (by omega),if_neg (by omega),shellPutc_plain nonzero other]
  by_cases enough : 1 < fuel
  · rw [if_pos enough,if_pos enough]
    dsimp only
    rw [if_neg (by omega),if_pos room]
    rfl
  · rw [if_neg enough,if_neg enough]

theorem keystroke_backspace : s.keystroke u fuel 8 =
    if 0 < s.len then
      if 3 < fuel then some { s with len := s.len - 1, console := erased s.console } else none
    else some s := by
  rw [keystroke,if_neg (by decide),if_neg (by decide),if_pos rfl,shellWrite_erase]

/-- The invariant of typing: the prompt's column and row, and what is shown behind it. -/
structure Typing (column row : Int) (s : Shell) : Prop where
  start : 0 ≤ column
  low : 0 ≤ s.len
  high : s.len ≤ 127
  inRow : InRow s.console.vga
  shows : s.Shows column row

theorem Prompted.typing (prompted : s.Prompted) :
    Typing s.console.vga.cursorX s.console.vga.cursorY s := by
  obtain ⟨empty,inRow⟩ := prompted
  refine ⟨inRow.1.1,by omega,by omega,inRow,rfl,by omega,fun i low high => ?_⟩
  omega

theorem Typing.printable (typing : Typing column row s) (types : s.Types t c) (low : 0x20 ≤ c)
    (high : c < 0x7F) (plain : c ≠ 0x25) : Typing column row t := by
  obtain ⟨_,⟨u,fuel,typed⟩,inRow,sameRow⟩ := types
  obtain ⟨atRow,cursor,cells⟩ := typing.shows
  have start := typing.start
  have right := typing.inRow.1.2
  have room : s.len < 127 := by
    simp only [vgaWidth] at right
    omega
  have bounds := keystroke_len typing.low typing.high typed
  rw [keystroke_printable low high plain room] at typed
  split at typed
  case isFalse => cases typed
  obtain rfl := Option.some.inj typed
  obtain ⟨screen,_,cursorAfter⟩ := Vga.putChar_glyph (c := BitVec.ofInt 8 c) typing.inRow
    (ofInt_ne (by omega) high (by simp [ascii]; omega)) (ofInt_ne (by omega) high (by simp [ascii]; omega))
    (ofInt_ne (by omega) high (by simp [ascii]; omega))
  rcases cursorAfter with ⟨next,same⟩ | ⟨_,_,left⟩
  · refine ⟨start,bounds.1,bounds.2,inRow,same.trans atRow,?_,fun i first last => ?_⟩
    · simp only [added]
      omega
    · simp only [added,screen,atRow] at first last ⊢
      by_cases newest : i = s.len
      · subst newest
        rw [cursor,← Int.add_assoc,update_self,update_self,Vga.entry_character]
      · rw [update_of_ne (by omega),update_of_ne newest]
        exact cells i first (by omega)
  · exact absurd sameRow left

/-- The keys that the echo handles as the line does. -/
def Plain (s : Shell) (c : Int) : Prop := c ≠ 0x25 ∧ (c = 8 → s.len ≤ 0)

theorem Typing.types (typing : Typing column row s) (types : s.Types t c) (plain : s.Plain c) :
    Typing column row t := by
  rcases types.1 with ⟨low,high⟩ | rfl
  · exact typing.printable types low high plain.1
  · obtain ⟨u,fuel,typed⟩ := types.2.1
    rw [keystroke_backspace,if_neg (Int.not_lt.mpr (plain.2 rfl))] at typed
    exact Option.some.inj typed ▸ typing

/-- However many keys are typed after a prompt, while the echo stays in one row and neither
`%` nor a backspace on a non-empty line is among them, the cells behind the prompt show
the line, and its length fits the buffer. -/
theorem shell_line_shown (first last : Shell) (prompted : first.Prompted)
    (typed : Relation.ReflTransGen (fun s t => ∃ c, s.Plain c ∧ s.Types t c) first last) :
    last.Shows first.console.vga.cursorX first.console.vga.cursorY ∧ 0 ≤ last.len ∧ last.len ≤ 127 := by
  have typing : Typing first.console.vga.cursorX first.console.vga.cursorY last := by
    induction typed with
    | refl => exact prompted.typing
    | tail _ step ih =>
      obtain ⟨c,plain,types⟩ := step
      exact ih.types types plain
  exact ⟨typing.shows,typing.low,typing.high⟩

/-- Backspace and blank are glyphs: erasing takes the cursor three columns on. -/
theorem Typing.erase_disagrees (typing : Typing column row s) (filled : 0 < s.len) (types : s.Types t 8) :
    ¬t.Shows column row := by
  obtain ⟨_,⟨u,fuel,typed⟩,inRow,sameRow⟩ := types
  rw [keystroke_backspace,if_pos filled] at typed
  split at typed
  case isFalse => cases typed
  obtain rfl := Option.some.inj typed
  have cursor := typing.shows.2.1
  rintro ⟨_,after,_⟩
  obtain ⟨_,inFirst,first⟩ := Vga.putChar_glyph (c := ascii '\x08') typing.inRow (by decide) (by decide) (by decide)
  obtain ⟨_,inSecond,second⟩ := Vga.putChar_glyph (c := ascii ' ') inFirst (by decide) (by decide) (by decide)
  obtain ⟨_,_,third⟩ := Vga.putChar_glyph (c := ascii '\x08') inSecond (by decide) (by decide) (by decide)
  simp only [erased,vgaWidth] at after sameRow first second third
  omega

def sampleMemory : ShellMemory where
  memory := place (place (fun _ => 0) 0x2000000 [ascii '\x08',ascii ' ',ascii '\x08']) 0x2000010 [ascii '>',ascii ' ']
  buf := 0xBFFFFF00
  erase := 0x2000000
  prompt := 0x2000010
  eraseText := ⟨rfl,by decide,rfl,by decide,rfl,by decide,rfl⟩
  promptText := ⟨rfl,by decide,rfl,by decide,rfl⟩

def sampleShell : Shell := ⟨fun _ => 0,0,⟨[],⟨fun _ => 0,0x07,2,0,2,[]⟩⟩,[]⟩

theorem sampleShell_prompted : sampleShell.Prompted := by
  unfold Prompted InRow
  decide

theorem types_added (low : 0x20 ≤ c) (high : c < 0x7F) (plain : c ≠ 0x25) (room : s.len < 127)
    (inRow : InRow (s.added (BitVec.ofInt 8 c)).console.vga)
    (sameRow : (s.added (BitVec.ofInt 8 c)).console.vga.cursorY = s.console.vga.cursorY) :
    s.Types (s.added (BitVec.ofInt 8 c)) c := by
  refine ⟨.inl ⟨low,high⟩,⟨sampleMemory,2,?_⟩,inRow,sameRow⟩
  rw [keystroke_printable low high plain room]
  rfl

theorem sampleShell_types : sampleShell.Types (sampleShell.added (ascii 'a')) 97 := by
  refine types_added (by decide) (by decide) (by decide) (by decide) ?_ rfl
  unfold InRow
  decide

/-- A backspace before the line begins, and then `a1`. -/
theorem shell_line_shown_sample : ((sampleShell.added (ascii 'a')).added (ascii '1')).Shows 2 0 ∧
    0 ≤ ((sampleShell.added (ascii 'a')).added (ascii '1')).len ∧
    ((sampleShell.added (ascii 'a')).added (ascii '1')).len ≤ 127 := by
  have backspace : sampleShell.Types sampleShell 8 :=
    ⟨.inr rfl,⟨sampleMemory,0,keystroke_backspace⟩,sampleShell_prompted.2,rfl⟩
  have digit : (sampleShell.added (ascii 'a')).Types ((sampleShell.added (ascii 'a')).added (ascii '1')) 49 := by
    refine types_added (by decide) (by decide) (by decide) (by decide) ?_ rfl
    unfold InRow
    decide
  refine shell_line_shown _ _ sampleShell_prompted (((Relation.ReflTransGen.single
    ⟨8,⟨by decide,fun _ => Int.le_refl 0⟩,backspace⟩).tail ⟨97,⟨by decide,?_⟩,sampleShell_types⟩).tail ⟨49,⟨by decide,?_⟩,digit⟩)
  · exact fun same => absurd same (by decide)
  · exact fun same => absurd same (by decide)

/-- Typing a character and erasing it leaves four glyphs behind the prompt and an empty line;
typing a `%` leaves no glyph and a line of one character. -/
theorem echo_disagrees :
    (∃ s t, sampleShell.Types s 97 ∧ s.Types t 8 ∧ t.len = 0 ∧ t.console.vga.cursorX = 6 ∧ ¬t.Shows 2 0) ∧
      ∃ t, sampleShell.Types t 0x25 ∧ t.len = 1 ∧ t.console.vga.cursorX = 2 ∧ ¬t.Shows 2 0 := by
  constructor
  · have typing : Typing 2 0 (sampleShell.added (ascii 'a')) :=
      sampleShell_prompted.typing.types sampleShell_types ⟨by decide,fun same => absurd same (by decide)⟩
    have erasing : (sampleShell.added (ascii 'a')).Types
        { sampleShell.added (ascii 'a') with len := 0, console := erased (sampleShell.added (ascii 'a')).console } 8 := by
      refine ⟨.inr rfl,⟨sampleMemory,4,keystroke_backspace⟩,?_,rfl⟩
      unfold InRow
      decide
    exact ⟨_,_,sampleShell_types,erasing,rfl,by decide,typing.erase_disagrees (by decide) erasing⟩
  · refine ⟨{ sampleShell with line := update sampleShell.line 0 (ascii '%'), len := 1 },
      ⟨.inl (by decide),⟨sampleMemory,4,rfl⟩,sampleShell_prompted.2,rfl⟩,rfl,rfl,?_⟩
    rintro ⟨_,cursor,_⟩
    exact absurd cursor (by decide)

end Shell

end RudimentaryKernel
