import RudimentaryKernel.Vga

/-! The screen as a terminal of 25 rows of 80 characters. The driver's cells, its two cursor
variables and the adapter's cursor are one such terminal, which every operation of the driver
changes as a whole. -/
namespace RudimentaryKernel

open Function

/-- Rows of entries, the place of the next character, and the row and column where the adapter
shows its cursor. -/
structure Terminal where
  cells : Fin 25 → Fin 80 → Short
  x : Fin 80
  y : Fin 25
  shown : Fin 25 × Fin 80

namespace Terminal

/-- A character in grey on black. One of the upper half has its sign in all of the attribute. -/
def entry (c : Byte) : Short := if c.toNat < 128 then (0x07 : Byte) ++ c else (0xFF : Byte) ++ c

def blank : Short := entry (ascii ' ')

def cleared : Terminal := ⟨fun _ _ => blank,0,0,(0,0)⟩

/-- The next row; behind the last one comes the first. -/
def newline (t : Terminal) : Terminal := { t with x := 0, y := t.y + 1 }

def glyph (t : Terminal) (e : Short) : Terminal :=
  let t := { t with cells := update t.cells t.y (update (t.cells t.y) t.x e) }
  if t.x = 79 then t.newline else { t with x := t.x + 1 }

def put (t : Terminal) (c : Byte) : Terminal :=
  let t := if c = ascii '\n' then t.newline
    else if c = ascii '\r' then { t with x := 0 }
    else if c = ascii '\t' then { t with x := Fin.ofNat 80 ((t.x / 8 + 1) * 8) }
    else t.glyph (entry c)
  { t with shown := (t.y,t.x) }

def move (t : Terminal) (x y : Int) : Terminal :=
  if 0 ≤ x ∧ x < 80 ∧ 0 ≤ y ∧ y < 25 then
    let t := { t with x := Fin.ofNat 80 x.toNat, y := Fin.ofNat 25 y.toNat }
    { t with shown := (t.y,t.x) }
  else t

/-- The rows go up by `lines`. The cursor goes with them, the adapter's stays. -/
def scroll (t : Terminal) (lines : Int) : Terminal :=
  if lines ≤ 0 then t
  else if 25 ≤ lines then { t with cells := fun _ _ => blank, x := 0, y := 0 }
  else { t with
    cells := fun r => if less : r + lines.toNat < 25 then t.cells ⟨r + lines.toNat,less⟩ else fun _ => blank
    y := Fin.ofNat 25 (t.y - lines.toNat) }

def perform (t : Terminal) : VgaOp → Terminal
  | .putChar c => t.put c
  | .write str => (str.takeWhile (· ≠ 0)).foldl put t
  | .setCursor x y => t.move x y
  | .scroll lines => t.scroll lines

end Terminal

namespace Vga

variable {v w : Vga} {t : Terminal} {start : Int} {e : Short} {count : Nat}

/-! ### What the loops draw -/

/-- `w` is `v` but for its cells, which are those of `screen`. -/
structure Redrawn (v w : Vga) (screen : Int → Short) : Prop where
  screen : ∀ i, w.screen i = screen i
  color : w.color = v.color
  cursorX : w.cursorX = v.cursorX
  cursorY : w.cursorY = v.cursorY
  hardwareCursor : w.hardwareCursor = v.hardwareCursor

variable {f g : Int → Short}

theorem Redrawn.refl (same : ∀ i, v.screen i = f i) : Redrawn v v f := ⟨same,rfl,rfl,rfl,rfl⟩

theorem Redrawn.trans (first : Redrawn v w f) {u : Vga} (second : Redrawn w u g) : Redrawn v u g :=
  ⟨second.screen,second.color.trans first.color,second.cursorX.trans first.cursorX,second.cursorY.trans first.cursorY,
    second.hardwareCursor.trans first.hardwareCursor⟩

theorem store_redrawn (same : ∀ i, update v.screen start e i = f i) : Redrawn v (v.store start e) f :=
  ⟨same,rfl,rfl,rfl,rfl⟩

theorem fill_redrawn (v : Vga) (start : Int) (e : Short) (count : Nat) :
    Redrawn v (v.fill start e count) (fun i => if start ≤ i ∧ i < start + count then e else v.screen i) := by
  induction count with
  | zero => exact .refl (fun i => (if_neg (by omega)).symm)
  | succ count ih =>
    refine ih.trans (store_redrawn (fun i => ?_))
    rw [update_apply,ih.screen]
    by_cases here : i = start + count
    · rw [if_pos here,if_pos (by omega)]
    · rw [if_neg here]
      by_cases inside : start ≤ i ∧ i < start + count
      · rw [if_pos inside,if_pos (by omega)]
      · rw [if_neg inside,if_neg (by omega)]

/-- A row further down is copied as it was: each cell is read before the loop gets to it. -/
theorem copyRow_redrawn (v : Vga) {dst src : Int} (upward : dst ≤ src) (count : Nat) :
    Redrawn v (v.copyRow dst src count)
      (fun i => if dst ≤ i ∧ i < dst + count then v.screen (i + (src - dst)) else v.screen i) := by
  induction count with
  | zero => exact .refl (fun i => (if_neg (by omega)).symm)
  | succ count ih =>
    refine ih.trans (store_redrawn (fun i => ?_))
    rw [update_apply,ih.screen,ih.screen]
    by_cases here : i = dst + count
    · rw [if_pos here,if_neg (by omega),if_pos (by omega),here]
      congr 1
      omega
    · rw [if_neg here]
      by_cases inside : dst ≤ i ∧ i < dst + count
      · rw [if_pos inside,if_pos (by omega)]
      · rw [if_neg inside,if_neg (by omega)]

theorem moveRows_redrawn (v : Vga) {lines : Int} (upward : 0 ≤ lines) (rows : Nat) :
    Redrawn v (v.moveRows lines rows)
      (fun i => if 0 ≤ i ∧ i < rows * 80 then v.screen (i + lines * 80) else v.screen i) := by
  induction rows with
  | zero => exact .refl (fun i => (if_neg (by omega)).symm)
  | succ rows ih =>
    have copied := copyRow_redrawn (v.moveRows lines rows) (by omega : (rows * 80 : Int) ≤ (rows + lines) * 80) 80
    refine ih.trans ⟨fun i => ?_,copied.color,copied.cursorX,copied.cursorY,copied.hardwareCursor⟩
    refine (copied.screen i).trans ?_
    rw [ih.screen,ih.screen]
    by_cases here : rows * 80 ≤ i ∧ i < rows * 80 + 80
    · rw [if_pos (by omega),if_neg (by omega),if_pos (by omega)]
      congr 1
      omega
    · rw [if_neg (by omega)]
      by_cases before : 0 ≤ i ∧ i < rows * 80
      · rw [if_pos before,if_pos (by omega)]
      · rw [if_neg before,if_neg (by omega)]

theorem blankRows_redrawn (v : Vga) (start : Int) (e : Short) (rows : Nat) :
    Redrawn v (v.blankRows start e rows) (fun i => if start ≤ i ∧ i < start + rows * 80 then e else v.screen i) := by
  induction rows with
  | zero => exact .refl (fun i => (if_neg (by omega)).symm)
  | succ rows ih =>
    have filled := fill_redrawn (v.blankRows start e rows) (start + rows * 80) e 80
    refine ih.trans ⟨fun i => ?_,filled.color,filled.cursorX,filled.cursorY,filled.hardwareCursor⟩
    refine (filled.screen i).trans ?_
    rw [ih.screen]
    by_cases here : start + rows * 80 ≤ i ∧ i < start + rows * 80 + 80
    · rw [if_pos (by omega),if_pos (by omega)]
    · rw [if_neg (by omega)]
      by_cases before : start ≤ i ∧ i < start + rows * 80
      · rw [if_pos before,if_pos (by omega)]
      · rw [if_neg before,if_neg (by omega)]

/-! ### The screen shows the terminal -/

structure Shows (v : Vga) (t : Terminal) : Prop where
  color : v.color = 0x07
  cells : ∀ (r : Fin 25) (c : Fin 80), v.screen (r.val * 80 + c.val) = t.cells r c
  x : v.cursorX = t.x.val
  y : v.cursorY = t.y.val
  cursor : v.hardwareCursor = BitVec.ofNat 16 (t.shown.1.val * 80 + t.shown.2.val)

theorem entry_eq (color : v.color = 0x07) (c : Byte) : v.entry c = Terminal.entry c := by
  have all : ∀ c : Byte, ((0x07 : Byte).signExtend 16 <<< 8) ||| c.signExtend 16 = Terminal.entry c := by decide +kernel
  rw [entry,color]
  exact all c

theorem Shows.moved {x : Fin 80} {y : Fin 25} (color : v.color = 0x07)
    (cells : ∀ (r : Fin 25) (c : Fin 80), v.screen (r.val * 80 + c.val) = t.cells r c)
    (column : v.cursorX = x.val) (row : v.cursorY = y.val) :
    v.moveHardwareCursor.Shows { t with x := x, y := y, shown := (y,x) } := by
  refine ⟨color,cells,column,row,?_⟩
  rw [moveHardwareCursor,column,row]
  exact BitVec.ofInt_natCast 16 (y.val * 80 + x.val)

theorem init_shows (v : Vga) : v.init.Shows .cleared := by
  have drawn : Redrawn { v with color := 0x07 } (clear { v with color := 0x07 }) _ := fill_redrawn ..
  rw [init,setCursor,if_neg (by decide)]
  generalize clear { v with color := 0x07 } = w at drawn ⊢
  refine Shows.moved (t := .cleared) drawn.color (fun r c => ?_) rfl rfl
  refine (drawn.screen _).trans ?_
  have row := r.isLt
  have column := c.isLt
  rw [if_pos (by unfold vgaWidth vgaHeight; omega)]
  exact entry_eq rfl _

theorem Shows.stays {x : Fin 80} {y : Fin 25} (color : v.color = 0x07)
    (cells : ∀ (r : Fin 25) (c : Fin 80), v.screen (r.val * 80 + c.val) = t.cells r c)
    (column : v.cursorX = x.val) (row : v.cursorY = y.val) :
    (moveHardwareCursor (if v.cursorY ≥ vgaHeight then { v with cursorY := 0 } else v)).Shows
      { t with x := x, y := y, shown := (y,x) } := by
  have inside := y.isLt
  rw [if_neg (by unfold vgaHeight; omega)]
  exact .moved color cells column row

theorem Shows.next {x : Fin 80} {y : Fin 25} (color : v.color = 0x07)
    (cells : ∀ (r : Fin 25) (c : Fin 80), v.screen (r.val * 80 + c.val) = t.cells r c)
    (column : v.cursorX = x.val) (row : v.cursorY = int8 (y.val + 1)) :
    (moveHardwareCursor (if v.cursorY ≥ vgaHeight then { v with cursorY := 0 } else v)).Shows
      { t with x := x, y := y + 1, shown := (y + 1,x) } := by
  have inside := y.isLt
  have next : (y + 1).val = (y.val + 1) % 25 := Fin.val_add y 1
  rw [int8_eq (by omega) (by omega)] at row
  split
  · rename_i last
    unfold vgaHeight at last
    refine .moved color cells column ?_
    dsimp only
    omega
  · rename_i less
    unfold vgaHeight at less
    exact .moved color cells column (by omega)

theorem Shows.stored (shows : v.Shows t) (c : Byte) (r : Fin 25) (k : Fin 80) :
    update v.screen (v.cursorY * vgaWidth + v.cursorX) (v.entry c) (r.val * 80 + k.val) =
      update t.cells t.y (update (t.cells t.y) t.x (Terminal.entry c)) r k := by
  have := k.isLt
  have := t.x.isLt
  rw [shows.x,shows.y,entry_eq shows.color,update_apply,update_apply]
  unfold vgaWidth
  by_cases row : r = t.y
  · subst row
    rw [if_pos rfl,update_apply]
    by_cases here : k = t.x
    · rw [if_pos (by rw [here]),if_pos here]
    · have other : k.val ≠ t.x.val := fun same => here (Fin.ext same)
      rw [if_neg (by omega),if_neg here]
      exact shows.cells _ _
  · have other : r.val ≠ t.y.val := fun same => row (Fin.ext same)
    rw [if_neg (by omega),if_neg row]
    exact shows.cells _ _

theorem Shows.put (shows : v.Shows t) (c : Byte) (fit : c = ascii '\t' → v.cursorX < 72) :
    (v.putChar c).Shows (t.put c) := by
  have inside := t.x.isLt
  rw [putChar,Terminal.put]
  by_cases newline : c = ascii '\n'
  · rw [advance,if_pos newline,if_pos newline]
    exact Shows.next (t := t) shows.color shows.cells rfl (by rw [shows.y])
  by_cases return' : c = ascii '\r'
  · rw [advance,if_neg newline,if_pos return',if_neg newline,if_pos return']
    exact Shows.stays (t := t) shows.color shows.cells rfl shows.y
  by_cases tab : c = ascii '\t'
  · have less := fit tab
    rw [advance,if_neg newline,if_neg return',if_pos tab,if_neg newline,if_neg return',if_pos tab]
    refine Shows.stays (t := t) shows.color shows.cells ?_ shows.y
    dsimp only
    rw [shows.x] at less ⊢
    rw [int8_eq (by omega) (by omega),Fin.val_ofNat]
    omega
  rw [if_neg newline,if_neg return',if_neg tab]
  have right : int8 (v.cursorX + 1) = t.x.val + 1 := by
    rw [shows.x,int8_eq (by omega) (by omega)]
  by_cases last : t.x = 79
  · have column : t.x.val = 79 := congrArg Fin.val last
    have whole : v.advance c = { v.store (v.cursorY * vgaWidth + v.cursorX) (v.entry c) with
        cursorX := 0, cursorY := int8 (v.cursorY + 1) } := by
      rw [advance,if_neg newline,if_neg return',if_neg tab]
      exact if_pos (by dsimp only [store]; unfold vgaWidth; omega)
    have drawn : t.glyph (Terminal.entry c) = Terminal.newline
        { t with cells := update t.cells t.y (update (t.cells t.y) t.x (Terminal.entry c)) } := if_pos last
    rw [whole,drawn]
    exact Shows.next (t := { t with cells := _ }) shows.color (shows.stored c) rfl (by dsimp only [store]; rw [shows.y])
  · have column : t.x.val ≠ 79 := fun same => last (Fin.ext same)
    have next : (t.x + 1).val = (t.x.val + 1) % 80 := Fin.val_add t.x 1
    have whole : v.advance c = { v.store (v.cursorY * vgaWidth + v.cursorX) (v.entry c) with
        cursorX := int8 (v.cursorX + 1) } := by
      rw [advance,if_neg newline,if_neg return',if_neg tab]
      exact if_neg (by dsimp only [store]; unfold vgaWidth; omega)
    have drawn : t.glyph (Terminal.entry c) = { t with
        cells := update t.cells t.y (update (t.cells t.y) t.x (Terminal.entry c)), x := t.x + 1 } := if_neg last
    rw [whole,drawn]
    exact Shows.stays (t := { t with cells := _ }) shows.color (shows.stored c) (by dsimp only [store]; omega) shows.y

theorem Shows.move (shows : v.Shows t) (x y : Int) : (v.setCursor x y).Shows (t.move x y) := by
  rw [setCursor,Terminal.move]
  by_cases inside : 0 ≤ x ∧ x < 80 ∧ 0 ≤ y ∧ y < 25
  · rw [if_neg (by unfold vgaWidth vgaHeight; omega),if_pos inside]
    refine Shows.moved shows.color shows.cells ?_ ?_
    · dsimp only
      rw [int8_eq (by omega) (by omega),Fin.val_ofNat]
      omega
    · dsimp only
      rw [int8_eq (by omega) (by omega),Fin.val_ofNat]
      omega
  · rw [if_pos (by unfold vgaWidth vgaHeight; omega),if_neg inside]
    exact shows

theorem Shows.scroll (shows : v.Shows t) (lines : Int) : (v.scroll lines).Shows (t.scroll lines) := by
  have column := t.x.isLt
  have row := t.y.isLt
  rw [Vga.scroll,Terminal.scroll]
  by_cases none : lines ≤ 0
  · rw [if_pos none,if_pos none]
    exact shows
  by_cases all : 25 ≤ lines
  · rw [if_neg none,if_pos (show lines ≥ vgaHeight from all),if_neg none,if_pos all]
    have drawn := fill_redrawn v 0 v.blank (vgaWidth * vgaHeight).toNat
    generalize v.fill 0 v.blank (vgaWidth * vgaHeight).toNat = w at drawn ⊢
    refine ⟨drawn.color.trans shows.color,fun r c => ?_,rfl,rfl,drawn.hardwareCursor.trans shows.cursor⟩
    refine (drawn.screen _).trans ?_
    have := r.isLt
    have := c.isLt
    rw [if_pos (by unfold vgaWidth vgaHeight; omega)]
    exact entry_eq shows.color _
  · rw [if_neg none,if_neg (show ¬lines ≥ vgaHeight from all),if_neg none,if_neg all]
    have moved := v.moveRows_redrawn (by omega : 0 ≤ lines) (vgaHeight - lines).toNat
    have blanked := blankRows_redrawn (v.moveRows lines (vgaHeight - lines).toNat) ((vgaHeight - lines) * vgaWidth) v.blank lines.toNat
    have drawn := moved.trans blanked
    dsimp only
    generalize (v.moveRows lines (vgaHeight - lines).toNat).blankRows ((vgaHeight - lines) * vgaWidth) v.blank lines.toNat = w at drawn ⊢
    have up : int8 (w.cursorY - lines) = t.y.val - lines := by
      rw [drawn.cursorY,shows.y,int8_eq (by omega) (by omega)]
    have cells : ∀ (r : Fin 25) (c : Fin 80), w.screen (r.val * 80 + c.val) =
        (if less : r + lines.toNat < 25 then t.cells ⟨r + lines.toNat,less⟩ else fun _ => Terminal.blank) c := by
      intro r c
      have := r.isLt
      have := c.isLt
      refine (drawn.screen _).trans ?_
      by_cases kept : r + lines.toNat < 25
      · rw [if_neg (by unfold vgaHeight vgaWidth; omega),moved.screen,if_pos (by unfold vgaHeight; omega),dif_pos kept,
          ← shows.cells]
        congr 1
        dsimp only
        omega
      · rw [if_pos (by unfold vgaHeight vgaWidth; omega),dif_neg kept]
        exact entry_eq shows.color _
    split
    · refine ⟨drawn.color.trans shows.color,cells,drawn.cursorX.trans shows.x,?_,drawn.hardwareCursor.trans shows.cursor⟩
      dsimp only
      rw [Fin.val_ofNat]
      omega
    · refine ⟨drawn.color.trans shows.color,cells,drawn.cursorX.trans shows.x,?_,drawn.hardwareCursor.trans shows.cursor⟩
      dsimp only
      rw [Fin.val_ofNat,up]
      omega

theorem Shows.puts {chars : List Byte} (shows : v.Shows t) (fit : ∀ before c after, chars = before ++ c :: after →
    c = ascii '\t' → (before.foldl putChar v).cursorX < vgaWidth - 8) :
    (chars.foldl putChar v).Shows (chars.foldl Terminal.put t) := by
  induction chars generalizing v t with
  | nil => exact shows
  | cons c chars ih =>
    refine ih (shows.put c (fit [] c chars rfl)) (fun before d after split => ?_)
    exact fit (c :: before) d after (by rw [split,List.cons_append])

theorem Shows.perform (shows : v.Shows t) {op : VgaOp} (fit : v.TabsFit op) : (v.perform op).Shows (t.perform op) := by
  cases op with
  | putChar c => exact shows.put c fit
  | write str => exact shows.puts fit
  | setCursor x y => exact shows.move x y
  | scroll lines => exact shows.scroll lines

/-- **The screen is a terminal.** Whatever the adapter showed before, after `init_vga` and any
operations, of which none puts a tab in the last eight columns, the 2000 cells, the driver's cursor
and the adapter's are those of the terminal on which the same operations were performed. -/
theorem screen_is_terminal (v : Vga) (ops : List VgaOp)
    (fit : ∀ before op after, ops = before ++ op :: after → (before.foldl Vga.perform v.init).TabsFit op) :
    (ops.foldl Vga.perform v.init).Shows (ops.foldl Terminal.perform Terminal.cleared) := by
  have shows := init_shows v
  generalize v.init = w at fit shows ⊢
  generalize Terminal.cleared = t at shows ⊢
  induction ops generalizing w t with
  | nil => exact shows
  | cons op ops ih =>
    refine ih _ (fun before next after split => ?_) _ (shows.perform (fit [] op ops rfl))
    exact fit (op :: before) next after (by rw [split,List.cons_append])

/-- A character is put and scrolled away, and the adapter's cursor stays behind it. -/
theorem character_scrolled_away : ((powerOn.init.putChar (ascii 'A')).scroll 1).screen 0 = 0x0720 ∧
    ((powerOn.init.putChar (ascii 'A')).scroll 1).hardwareCursor = 1 := by
  have shows := screen_is_terminal powerOn [.putChar (ascii 'A'),.scroll 1] (fun before op after split => by
    match before,split with
    | [],split =>
      cases split
      exact fun tab => absurd tab (by decide)
    | [_],split =>
      cases split
      trivial
    | _ :: _ :: _,split => simp at split)
  simp only [List.foldl_cons,List.foldl_nil,perform] at shows
  have cell := shows.cells 0 0
  have cursor := shows.cursor
  generalize (powerOn.init.putChar (ascii 'A')).scroll 1 = w at cell cursor ⊢
  exact ⟨cell.trans (by decide),cursor.trans (by decide)⟩

end Vga

end RudimentaryKernel
