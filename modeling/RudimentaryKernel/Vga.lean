import RudimentaryKernel.Reach
import RudimentaryKernel.Target

/-! The text screen of `drivers/vga.cpp`. The cells are the 16-bit words from
`VGA_ADDRESS` on, at any index, so that a store outside of the 2000 cells of the screen
is a store too; the cursor is kept in two `char` variables, which are signed. -/
namespace RudimentaryKernel

open Function

abbrev Short := BitVec 16

def vgaWidth : Int := 80

def vgaHeight : Int := 25

theorem vgaWidth_pos : 0 < vgaWidth := by decide

theorem vgaHeight_pos : 0 < vgaHeight := by decide

/-- What a `char` variable holds of a result. -/
def int8 (x : Int) : Int := x.bmod (2^8)

theorem int8_eq {x : Int} (low : -2^7 ≤ x) (high : x < 2^7) : int8 x = x :=
  Int.bmod_eq_of_le (by omega) (by omega)

/-- The driver's variables, the screen, the position the adapter was last given, and the
indices of all cells stored to so far. -/
structure Vga where
  screen : Int → Short
  color : Byte
  cursorX : Int
  cursorY : Int
  hardwareCursor : Short
  stores : List Int

namespace Vga

def store (v : Vga) (index : Int) (entry : Short) : Vga :=
  { v with screen := update v.screen index entry, stores := v.stores ++ [index] }

def fill (v : Vga) (start : Int) (entry : Short) : Nat → Vga
  | 0 => v
  | count + 1 => (v.fill start entry count).store (start + count) entry

/-- `((short)vga_color << 8) | c`, both sides sign-extended. -/
def entry (v : Vga) (c : Byte) : Short := (v.color.signExtend 16 <<< 8) ||| c.signExtend 16

def blank (v : Vga) : Short := v.entry (ascii ' ')

def clear (v : Vga) : Vga := v.fill 0 v.blank (vgaWidth * vgaHeight).toNat

def moveHardwareCursor (v : Vga) : Vga :=
  { v with hardwareCursor := BitVec.ofInt 16 (v.cursorY * vgaWidth + v.cursorX) }

def setCursor (v : Vga) (x y : Int) : Vga :=
  if x < 0 ∨ x ≥ vgaWidth ∨ y < 0 ∨ y ≥ vgaHeight then v
  else moveHardwareCursor { v with cursorX := int8 x, cursorY := int8 y }

def init (v : Vga) : Vga :=
  setCursor { clear { v with color := 0x07 } with cursorX := 0, cursorY := 0 } 0 0

/-- The branches of `vga_put_char`. -/
def advance (v : Vga) (c : Byte) : Vga :=
  if c = ascii '\n' then { v with cursorX := 0, cursorY := int8 (v.cursorY + 1) }
  else if c = ascii '\r' then { v with cursorX := 0 }
  -- `& ~(8 - 1)` drops what is over a multiple of eight
  else if c = ascii '\t' then { v with cursorX := int8 (v.cursorX + 8 - (v.cursorX + 8) % 8) }
  else
    let v := v.store (v.cursorY * vgaWidth + v.cursorX) (v.entry c)
    let v := { v with cursorX := int8 (v.cursorX + 1) }
    if v.cursorX ≥ vgaWidth then { v with cursorX := 0, cursorY := int8 (v.cursorY + 1) } else v

def putChar (v : Vga) (c : Byte) : Vga :=
  let v := v.advance c
  moveHardwareCursor (if v.cursorY ≥ vgaHeight then { v with cursorY := 0 } else v)

/-- `vga_write`, up to the NUL of the string. -/
def write (v : Vga) (str : List Byte) : Vga := (str.takeWhile (· ≠ 0)).foldl putChar v

/-- One row of `vga_scroll`: `for (x = 0; x < count; x++) dst[x] = src[x]`. -/
def copyRow (v : Vga) (dst src : Int) : Nat → Vga
  | 0 => v
  | count + 1 =>
    let v := v.copyRow dst src count
    v.store (dst + count) (v.screen (src + count))

def moveRows (v : Vga) (lines : Int) : Nat → Vga
  | 0 => v
  | rows + 1 =>
    (v.moveRows lines rows).copyRow (rows * vgaWidth) ((rows + lines) * vgaWidth) vgaWidth.toNat

def blankRows (v : Vga) (start : Int) (entry : Short) : Nat → Vga
  | 0 => v
  | rows + 1 => (v.blankRows start entry rows).fill (start + rows * vgaWidth) entry vgaWidth.toNat

/-- `vga_scroll`, which leaves the adapter's cursor where it was. -/
def scroll (v : Vga) (lines : Int) : Vga :=
  if lines ≤ 0 then v
  else if lines ≥ vgaHeight then
    { v.fill 0 v.blank (vgaWidth * vgaHeight).toNat with cursorX := 0, cursorY := 0 }
  else
    let rowsToMove := vgaHeight - lines
    let v := (v.moveRows lines rowsToMove.toNat).blankRows (rowsToMove * vgaWidth) v.blank lines.toNat
    let v := { v with cursorY := int8 (v.cursorY - lines) }
    if v.cursorY < 0 then { v with cursorY := 0 } else v

def Cell (index : Int) : Prop := 0 ≤ index ∧ index < vgaWidth * vgaHeight

/-- The cursor is on the screen, and no cell outside of it has been written. -/
structure OnScreen (v : Vga) : Prop where
  left : 0 ≤ v.cursorX
  right : v.cursorX < vgaWidth
  top : 0 ≤ v.cursorY
  bottom : v.cursorY < vgaHeight
  stores : ∀ index ∈ v.stores, Cell index

/-! ### Drawing leaves the cursor where it is -/

/-- `w` is `v` with some cells on the screen drawn. -/
structure Drawn (v w : Vga) : Prop where
  cursorX : w.cursorX = v.cursorX
  cursorY : w.cursorY = v.cursorY
  stores : (∀ index ∈ v.stores, Cell index) → ∀ index ∈ w.stores, Cell index

variable {v w : Vga} {c : Byte} {index start : Int} {entry : Short} {count rows : Nat}

theorem Drawn.refl (v : Vga) : Drawn v v := ⟨rfl,rfl,id⟩

theorem Drawn.store (drawn : Drawn v w) (cell : Cell index) : Drawn v (w.store index entry) := by
  refine ⟨drawn.cursorX,drawn.cursorY,fun inside => ?_⟩
  simpa [Vga.store,or_imp,forall_and] using ⟨drawn.stores inside,cell⟩

theorem Drawn.fill (drawn : Drawn v w) (cells : ∀ i : Nat, i < count → Cell (start + i)) :
    Drawn v (w.fill start entry count) := by
  induction count with
  | zero => exact drawn
  | succ count ih =>
    exact (ih (fun i below => cells i (by omega))).store (cells count (by omega))

theorem Drawn.copyRow {src : Int} (drawn : Drawn v w) (cells : ∀ i : Nat, i < count → Cell (start + i)) :
    Drawn v (w.copyRow start src count) := by
  induction count with
  | zero => exact drawn
  | succ count ih =>
    exact (ih (fun i below => cells i (by omega))).store (cells count (by omega))

theorem Drawn.moveRows {lines : Int} (drawn : Drawn v w) (inside : (rows : Int) ≤ vgaHeight) :
    Drawn v (w.moveRows lines rows) := by
  induction rows with
  | zero => exact drawn
  | succ rows ih =>
    refine (ih (by omega)).copyRow (fun i below => ?_)
    simp only [Cell,vgaWidth,vgaHeight] at inside below ⊢
    omega

theorem Drawn.blankRows {first : Int} (drawn : Drawn v w) (low : 0 ≤ first)
    (inside : first + rows ≤ vgaHeight) : Drawn v (w.blankRows (first * vgaWidth) entry rows) := by
  induction rows with
  | zero => exact drawn
  | succ rows ih =>
    refine (ih (by omega)).fill (fun i below => ?_)
    simp only [Cell,vgaWidth,vgaHeight] at inside below ⊢
    omega

theorem Drawn.whole (v : Vga) (entry : Short) :
    Drawn v (v.fill 0 entry (vgaWidth * vgaHeight).toNat) := by
  refine (Drawn.refl v).fill (fun i below => ?_)
  simp only [Cell,vgaWidth,vgaHeight] at below ⊢
  omega

/-! ### The operations -/

theorem OnScreen.setCursor (shown : v.OnScreen) (x y : Int) : (v.setCursor x y).OnScreen := by
  unfold Vga.setCursor
  split
  · exact shown
  · rename_i inside
    simp only [not_or,Int.not_lt,ge_iff_le,Int.not_le] at inside
    obtain ⟨left,right,top,bottom⟩ := inside
    have column : int8 x = x := by
      simp only [vgaWidth] at right
      exact int8_eq (by omega) (by omega)
    have row : int8 y = y := by
      simp only [vgaHeight] at bottom
      exact int8_eq (by omega) (by omega)
    rw [column,row]
    exact ⟨left,right,top,bottom,shown.stores⟩

theorem init_onScreen (fresh : v.stores = []) : v.init.OnScreen := by
  have drawn := Drawn.whole { v with color := 0x07 } (blank { v with color := 0x07 })
  have inside := drawn.stores (by simp [fresh])
  unfold init
  refine OnScreen.setCursor ⟨?_,?_,?_,?_,?_⟩ 0 0
  · exact Int.le_refl 0
  · exact vgaWidth_pos
  · exact Int.le_refl 0
  · exact vgaHeight_pos
  · exact inside

/-- The line end that all branches share brings a row too many back to the top. -/
theorem putChar_onScreen (left : 0 ≤ (v.advance c).cursorX) (right : (v.advance c).cursorX < vgaWidth)
    (top : 0 ≤ (v.advance c).cursorY) (stores : ∀ index ∈ (v.advance c).stores, Cell index) :
    (v.putChar c).OnScreen := by
  unfold putChar
  dsimp only
  split
  · exact ⟨left,right,Int.le_refl 0,vgaHeight_pos,stores⟩
  · rename_i inside
    exact ⟨left,right,top,Int.not_le.mp inside,stores⟩

theorem advance_glyph (left : 0 ≤ v.cursorX) (right : v.cursorX < vgaWidth) (top : 0 ≤ v.cursorY)
    (bottom : v.cursorY < vgaHeight) (newline : c ≠ ascii '\n') (return' : c ≠ ascii '\r')
    (tab : c ≠ ascii '\t') : v.advance c =
      if v.cursorX + 1 < vgaWidth then
        { v.store (v.cursorY * vgaWidth + v.cursorX) (v.entry c) with cursorX := v.cursorX + 1 }
      else
        { v.store (v.cursorY * vgaWidth + v.cursorX) (v.entry c) with
          cursorX := 0, cursorY := v.cursorY + 1 } := by
  simp only [vgaWidth,vgaHeight] at right bottom
  have column : int8 (v.cursorX + 1) = v.cursorX + 1 := int8_eq (by omega) (by omega)
  have row : int8 (v.cursorY + 1) = v.cursorY + 1 := int8_eq (by omega) (by omega)
  rw [advance,if_neg newline,if_neg return',if_neg tab]
  simp only [store,column,row]
  by_cases fits : v.cursorX + 1 < vgaWidth
  · rw [if_neg (Int.not_le.mpr fits),if_pos fits]
  · rw [if_pos (Int.not_lt.mp fits),if_neg fits]

theorem putChar_stores (newline : c ≠ ascii '\n') (return' : c ≠ ascii '\r') (tab : c ≠ ascii '\t') :
    (v.putChar c).stores = v.stores ++ [v.cursorY * vgaWidth + v.cursorX] := by
  have advanced : (v.advance c).stores = v.stores ++ [v.cursorY * vgaWidth + v.cursorX] := by
    rw [advance,if_neg newline,if_neg return',if_neg tab]
    dsimp only
    split <;> rfl
  unfold putChar
  dsimp only
  split <;> exact advanced

/-- `vga_put_char` keeps to the screen but for a tab in the last eight columns. -/
theorem OnScreen.putChar_iff (shown : v.OnScreen) (c : Byte) :
    (v.putChar c).OnScreen ↔ (c = ascii '\t' → v.cursorX < vgaWidth - 8) := by
  have left := shown.left
  have right := shown.right
  have top := shown.top
  have bottom := shown.bottom
  have cell : Cell (v.cursorY * vgaWidth + v.cursorX) := by
    simp only [Cell,vgaWidth,vgaHeight] at right bottom ⊢
    omega
  simp only [vgaWidth,vgaHeight] at right bottom
  by_cases newline : c = ascii '\n'
  · have row : int8 (v.cursorY + 1) = v.cursorY + 1 := int8_eq (by omega) (by omega)
    have moved : v.advance c = { v with cursorX := 0, cursorY := v.cursorY + 1 } := by
      rw [advance,if_pos newline,row]
    refine iff_of_true (putChar_onScreen ?_ ?_ ?_ ?_) (fun same => absurd (newline.symm.trans same) (by decide))
    all_goals rewrite [moved]
    · exact Int.le_refl 0
    · exact vgaWidth_pos
    · exact Int.add_nonneg top (by decide)
    · exact shown.stores
  by_cases return' : c = ascii '\r'
  · have moved : v.advance c = { v with cursorX := 0 } := by rw [advance,if_neg newline,if_pos return']
    refine iff_of_true (putChar_onScreen ?_ ?_ ?_ ?_) (fun same => absurd (return'.symm.trans same) (by decide))
    all_goals rewrite [moved]
    · exact Int.le_refl 0
    · exact vgaWidth_pos
    · exact top
    · exact shown.stores
  by_cases tab : c = ascii '\t'
  · have column : int8 (v.cursorX + 8 - (v.cursorX + 8) % 8) = v.cursorX + 8 - (v.cursorX + 8) % 8 :=
      int8_eq (by omega) (by omega)
    have moved : v.advance c = { v with cursorX := v.cursorX + 8 - (v.cursorX + 8) % 8 } := by
      rw [advance,if_neg newline,if_neg return',if_pos tab,column]
    constructor
    · intro after _
      have inside := after.right
      have same : (v.putChar c).cursorX = v.cursorX + 8 - (v.cursorX + 8) % 8 := by
        unfold putChar
        rw [moved]
        dsimp only
        split <;> rfl
      simp only [same,vgaWidth] at inside ⊢
      omega
    · intro early
      have column := early tab
      refine putChar_onScreen ?_ ?_ ?_ ?_
      all_goals rewrite [moved]
      · dsimp only
        omega
      · simp only [vgaWidth] at column ⊢
        omega
      · exact top
      · exact shown.stores
  · have moved := advance_glyph left shown.right top shown.bottom newline return' tab
    have drawn : Drawn v (v.store _ (v.entry c)) := (Drawn.refl v).store cell
    refine iff_of_true (putChar_onScreen ?_ ?_ ?_ ?_) (fun same => absurd same tab)
    all_goals
      rw [moved]
      split
    · exact Int.add_nonneg left (by decide)
    · exact Int.le_refl 0
    · assumption
    · exact vgaWidth_pos
    · exact top
    · exact Int.add_nonneg top (by decide)
    · exact drawn.stores shown.stores
    · exact drawn.stores shown.stores

theorem OnScreen.scroll (shown : v.OnScreen) (lines : Int) : (v.scroll lines).OnScreen := by
  unfold Vga.scroll
  by_cases none : lines ≤ 0
  · rw [if_pos none]
    exact shown
  rw [if_neg none]
  by_cases all : lines ≥ vgaHeight
  · rw [if_pos all]
    have inside := (Drawn.whole v v.blank).stores shown.stores
    exact ⟨Int.le_refl 0,vgaWidth_pos,Int.le_refl 0,vgaHeight_pos,inside⟩
  rw [if_neg all]
  have top := shown.top
  have bottom := shown.bottom
  have drawn : Drawn v ((v.moveRows lines (vgaHeight - lines).toNat).blankRows
      ((vgaHeight - lines) * vgaWidth) v.blank lines.toNat) := by
    refine ((Drawn.refl v).moveRows ?_).blankRows ?_ ?_
    all_goals omega
  have row : int8 (v.cursorY - lines) = v.cursorY - lines := by
    simp only [vgaHeight] at all bottom
    exact int8_eq (by omega) (by omega)
  have left := drawn.cursorX ▸ shown.left
  have right := drawn.cursorX ▸ shown.right
  have inside := drawn.stores shown.stores
  simp only [drawn.cursorY,row]
  split
  · exact ⟨left,right,Int.le_refl 0,vgaHeight_pos,inside⟩
  · rename_i below
    refine ⟨left,right,Int.not_lt.mp below,?_,inside⟩
    dsimp only
    omega

end Vga

inductive VgaOp where
  | putChar (c : Byte)
  | write (str : List Byte)
  | setCursor (x y : Int)
  | scroll (lines : Int)

namespace Vga

variable {v w : Vga}

def perform (v : Vga) : VgaOp → Vga
  | .putChar c => v.putChar c
  | .write str => v.write str
  | .setCursor x y => v.setCursor x y
  | .scroll lines => v.scroll lines

def Started (v : Vga) : Prop := ∃ before : Vga, before.stores = [] ∧ v = before.init

def Step (v w : Vga) : Prop := ∃ op, w = v.perform op

/-- No tab is put in the last eight columns; a string puts one character after the other. -/
def TabsFit (v : Vga) : VgaOp → Prop
  | .putChar c => c = ascii '\t' → v.cursorX < vgaWidth - 8
  | .write str => ∀ before c after, str.takeWhile (· ≠ 0) = before ++ c :: after →
      c = ascii '\t' → (before.foldl putChar v).cursorX < vgaWidth - 8
  | _ => True

theorem OnScreen.putChars {chars : List Byte} (shown : v.OnScreen)
    (fit : ∀ before c after, chars = before ++ c :: after →
      c = ascii '\t' → (before.foldl putChar v).cursorX < vgaWidth - 8) :
    (chars.foldl putChar v).OnScreen := by
  induction chars generalizing v with
  | nil => exact shown
  | cons c chars ih =>
    refine ih ((shown.putChar_iff c).mpr (fit [] c chars rfl)) (fun before d after split => ?_)
    exact fit (c :: before) d after (by rw [split,List.cons_append])

theorem OnScreen.perform (shown : v.OnScreen) {op : VgaOp} (fit : v.TabsFit op) :
    (v.perform op).OnScreen := by
  cases op with
  | putChar c => exact (shown.putChar_iff c).mpr fit
  | write str => exact shown.putChars fit
  | setCursor x y => exact shown.setCursor x y
  | scroll lines => exact shown.scroll lines

/-- In every run from `init_vga` in which no tab is put in the last eight columns, the
cursor is on the screen after each operation and only cells of the screen are written. -/
theorem vga_onScreen (v : Vga)
    (reached : Reach Started (fun v w => ∃ op, v.TabsFit op ∧ w = v.perform op) v) : v.OnScreen := by
  refine reached.invariant OnScreen ?_ ?_
  · rintro _ ⟨before,fresh,rfl⟩
    exact init_onScreen fresh
  · rintro v _ shown ⟨op,fit,rfl⟩
    exact shown.perform fit

def powerOn : Vga := ⟨fun _ => 0,0,0,0,0,[]⟩

/-- A tab in the last column but one of the tab stops. -/
theorem vga_onScreen_sample : ((powerOn.init.setCursor 64 24).putChar (ascii '\t')).OnScreen := by
  refine vga_onScreen _ (((Reach.start ⟨powerOn,rfl,rfl⟩).advance ⟨.setCursor 64 24,trivial,rfl⟩).advance
    ⟨.putChar (ascii '\t'),fun _ => ?_,rfl⟩)
  decide +kernel

/-- A tab in the last columns of the last row takes the cursor off the screen, and the
next character is stored behind the last cell. -/
theorem tab_leaves_screen : ∃ v, Reach Started Step v ∧ ¬v.cursorX < vgaWidth ∧
    ∃ w, Step v w ∧ vgaWidth * vgaHeight ∈ w.stores := by
  have column : ((powerOn.init.setCursor 72 24).putChar (ascii '\t')).cursorX = 80 := by decide +kernel
  have row : ((powerOn.init.setCursor 72 24).putChar (ascii '\t')).cursorY = 24 := by decide +kernel
  refine ⟨_,((Reach.start ⟨powerOn,rfl,rfl⟩).advance ⟨.setCursor 72 24,rfl⟩).advance ⟨.putChar (ascii '\t'),rfl⟩,
    ?_,_,⟨.putChar (ascii 'A'),rfl⟩,?_⟩
  · simp only [perform,column]
    decide
  · simp only [perform]
    rw [putChar_stores (by decide) (by decide) (by decide),column,row]
    exact List.mem_append_right _ (List.mem_singleton.mpr rfl)

end Vga

end RudimentaryKernel
