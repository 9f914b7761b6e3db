import Mathlib.Data.Nat.Notation
import Mathlib.Data.List.Basic
import Mathlib.Data.Bool.AllAny
import Mathlib.Data.UInt
import Mathlib.Algebra.Order.Ring.Nat

/-! # The text display

`vga_putc` (`devices/vga.c`) writes to a frame buffer of 25 rows of 80 characters.  A `Paper` is what
the display is for: an endless sheet on which the text goes on from row to row, and of which the display
shows 25 rows.  Nothing scrolls on it.  The display refines it (`shows_putc`), so the rows that it shows
are those of the text (`vgaPutc_string`), and it never writes outside of the frame buffer. -/

namespace CSE130.Lab3.Vga

/-- `COL_CNT`. -/
def colCnt : ℕ := 80

/-- `ROW_CNT`. -/
def rowCnt : ℕ := 25

/-- `GRAY_ON_BLACK`. -/
def grayOnBlack : UInt8 := 0x07

/-- A character with its attribute. -/
abbrev Cell := UInt8 × UInt8

/-- The cell that a cleared row has. -/
def blank : Cell := (32, grayOnBlack)

/-- The frame buffer by rows and columns, `cx`, `cy`, and the position of the hardware cursor. -/
structure Display where
  fb : ℕ → ℕ → Cell
  cx : ℕ
  cy : ℕ
  cursor : ℕ

/-- `clear_row`. -/
def clearRow (y : ℕ) (v : Display) : Display :=
  { v with fb := fun r x => if r = y ∧ x < colCnt then blank else v.fb r x }

/-- `move_cursor`; the position has 16 bits. -/
def moveCursor (v : Display) : Display := { v with cursor := (v.cx + colCnt * v.cy) % 2 ^ 16 }

/-- The loop of `cls`. -/
def clearRows : ℕ → Display → Display
  | 0, v => v
  | y + 1, v => clearRow y (clearRows y v)

/-- `cls`. -/
def cls (v : Display) : Display := moveCursor { clearRows rowCnt v with cx := 0, cy := 0 }

/-- The `memmove` of all rows but the first to the place of all but the last. -/
def scroll (v : Display) : Display :=
  { v with fb := fun r x => if r < rowCnt - 1 ∧ x < colCnt then v.fb (r + 1) x else v.fb r x }

/-- `newline`. -/
def newline (v : Display) : Display :=
  let v := { v with cx := 0, cy := v.cy + 1 }
  if v.cy ≥ rowCnt then clearRow (rowCnt - 1) (scroll { v with cy := rowCnt - 1 }) else v

/-- `vga_putc`, without the beep and the interrupt level. -/
def vgaPutc (v : Display) (c : UInt8) : Display :=
  moveCursor <|
    if c = 10 then newline v
    else if c = 12 then cls v
    else if c = 8 then if v.cx > 0 then { v with cx := v.cx - 1 } else v
    else if c = 13 then { v with cx := 0 }
    else if c = 9 then
      let v := { v with cx := (v.cx + 1 + 7) / 8 * 8 }
      if v.cx ≥ colCnt then newline v else v
    else if c = 7 then v
    else
      let v := { v with
        fb := fun r x => if r = v.cy ∧ x = v.cx then (c, grayOnBlack) else v.fb r x, cx := v.cx + 1 }
      if v.cx ≥ colCnt then newline v else v

/-- `init`, when the cursor stands at `cp`. -/
def init (fb : ℕ → ℕ → Cell) (cp : ℕ) : Display := ⟨fb, cp % colCnt, cp / colCnt, cp⟩

/-! ### The paper -/

/-- An endless sheet: its cells, the place of the next character, and the first row that is shown. -/
structure Paper where
  cells : ℕ → ℕ → Cell
  row : ℕ
  col : ℕ
  top : ℕ

namespace Paper

/-- On to the next row, which is to be shown. -/
def newline (p : Paper) : Paper :=
  { p with row := p.row + 1, col := 0, top := max p.top (p.row + 1 - (rowCnt - 1)) }

/-- A fresh sheet. -/
def fresh : Paper := ⟨fun _ _ => blank, 0, 0, 0⟩

/-- On to a column, or to the next row if there is no such column. -/
def goto (p : Paper) (col : ℕ) : Paper := if col < colCnt then { p with col := col } else p.newline

/-- A character is printed, or a control character obeyed. -/
def putc (p : Paper) (c : UInt8) : Paper :=
  if c = 10 then p.newline
  else if c = 12 then fresh
  else if c = 8 then { p with col := p.col - 1 }
  else if c = 13 then { p with col := 0 }
  else if c = 9 then p.goto ((p.col / 8 + 1) * 8)
  else if c = 7 then p
  else { p with cells := fun r x => if r = p.row ∧ x = p.col then (c, grayOnBlack) else p.cells r x
           }.goto (p.col + 1)

end Paper

/-- The display shows the paper from `top` on, and the rows behind it are blank. -/
structure Shows (v : Display) (p : Paper) : Prop where
  col : v.cx = p.col
  row : p.row = p.top + v.cy
  inside : v.cx < colCnt ∧ v.cy < rowCnt
  cells : ∀ y < rowCnt, ∀ x < colCnt, v.fb y x = p.cells (p.top + y) x
  behind : ∀ r ≥ p.top + rowCnt, ∀ x < colCnt, p.cells r x = blank

variable {v : Display} {p : Paper} {c : UInt8} {x y n : ℕ} {fb : ℕ → ℕ → Cell}

/-! ### Refinement -/

theorem zero_inside : 0 < colCnt ∧ 0 < rowCnt := by decide

theorem zero_last_inside : 0 < colCnt ∧ rowCnt - 1 < rowCnt := by decide

theorem Shows.moveCursor (h : Shows v p) : Shows (moveCursor v) p :=
  ⟨h.col, h.row, h.inside, h.cells, h.behind⟩

theorem Shows.moveTo (h : Shows v p) (hx : x < colCnt) : Shows { v with cx := x } { p with col := x } :=
  ⟨rfl, h.row, ⟨hx, h.inside.2⟩, h.cells, h.behind⟩

theorem Shows.newline (h : Shows v p) : Shows (newline v) p.newline := by
  have hrow := h.row
  have hin := h.inside
  unfold Vga.newline
  simp only
  by_cases hlast : v.cy + 1 ≥ rowCnt
  · rw [if_pos hlast]
    have hcy : v.cy = rowCnt - 1 := by omega
    have htop : p.newline.top = p.top + 1 := by
      unfold Paper.newline rowCnt at *
      simp only
      omega
    refine ⟨rfl, ?_, zero_last_inside, fun y hy x hx => ?_, fun r hr x hx => ?_⟩
    · rw [htop]
      simp only [Paper.newline, clearRow, scroll]
      unfold rowCnt at *
      omega
    · rw [htop]
      simp only [clearRow, scroll, Paper.newline]
      by_cases hy' : y = rowCnt - 1
      · rw [if_pos ⟨hy', hx⟩]
        exact (h.behind _ (by unfold rowCnt at *; omega) x hx).symm
      · rw [if_neg (fun hand => hy' hand.1), if_pos ⟨by omega, hx⟩, h.cells (y + 1) (by omega) x hx]
        congr 1
        omega
    · rw [htop] at hr
      exact h.behind r (by omega) x hx
  · rw [if_neg hlast]
    have htop : p.newline.top = p.top := by
      unfold Paper.newline rowCnt at *
      simp only
      omega
    refine ⟨rfl, ?_, ⟨zero_last_inside.1, show v.cy + 1 < rowCnt by omega⟩, fun y hy x hx => ?_,
      fun r hr x hx => ?_⟩
    · rw [htop]
      simp only [Paper.newline]
      omega
    · rw [htop]
      exact h.cells y hy x hx
    · rw [htop] at hr
      exact h.behind r hr x hx

theorem clearRows_fb : (clearRows n v).fb y x = if y < n ∧ x < colCnt then blank else v.fb y x := by
  induction n with
  | zero => simp [clearRows]
  | succ n ih =>
      rw [clearRows, clearRow]
      simp only [ih]
      split_ifs <;> first | rfl | omega

theorem Shows.cls : Shows (cls v) Paper.fresh := by
  refine ⟨rfl, rfl, zero_inside, fun y hy x hx => ?_, fun _ _ _ _ => rfl⟩
  exact clearRows_fb.trans (if_pos ⟨hy, hx⟩)

theorem Shows.goto (h : Shows v p) :
    Shows (if n ≥ colCnt then Vga.newline { v with cx := n } else { v with cx := n }) (p.goto n) := by
  unfold Paper.goto
  by_cases hn : n < colCnt
  · rw [if_neg (by omega), if_pos hn]
    exact h.moveTo hn
  · rw [if_pos (by omega), if_neg hn]
    exact h.newline

/-- A character at the cursor. -/
theorem Shows.write (h : Shows v p) (cell : Cell) :
    Shows { v with fb := fun r x => if r = v.cy ∧ x = v.cx then cell else v.fb r x }
      { p with cells := fun r x => if r = p.row ∧ x = p.col then cell else p.cells r x } := by
  have hrow := h.row
  have hcol := h.col
  have hin := h.inside
  refine ⟨h.col, h.row, h.inside, fun y hy x hx => ?_, fun r hr x hx => ?_⟩
  · simp only [h.cells y hy x hx, hcol]
    by_cases hy' : y = v.cy
    · simp only [hy', hrow, true_and]
    · rw [if_neg (fun hand => hy' hand.1), if_neg (by omega)]
  · simp only
    rw [if_neg (by simp only at hr; omega), h.behind r hr x hx]

/-- **The display does with a character what is done on the paper.** -/
theorem Shows.putc (h : Shows v p) (c : UInt8) : Shows (vgaPutc v c) (p.putc c) := by
  have hin := h.inside
  have hcol := h.col
  unfold vgaPutc Paper.putc
  apply Shows.moveCursor
  split_ifs with h₁ h₂ h₃ h₄ h₅ h₆ h₇
  · exact h.newline
  · exact Shows.cls
  · rw [← hcol]
    exact h.moveTo (by omega)
  · have hzero : p.col - 1 = v.cx := by omega
    rw [hzero]
    exact h.moveTo hin.1
  · exact h.moveTo zero_inside.1
  · have htab : (v.cx + 1 + 7) / 8 * 8 = (p.col / 8 + 1) * 8 := by omega
    rw [← htab]
    exact h.goto
  · exact h
  · have hgoto := (h.write (c, grayOnBlack)).goto (n := p.col + 1)
    simp only [hcol] at hgoto ⊢
    exact hgoto

theorem Shows.putc_string (h : Shows v p) (s : List UInt8) :
    Shows (s.foldl vgaPutc v) (s.foldl Paper.putc p) := by
  induction s generalizing v p with
  | nil => exact h
  | cons c s ih => exact ih (h.putc c)

/-! ### The frame buffer and the cursor -/

/-- Nothing outside of the screen is written. -/
def Frame (v v' : Display) : Prop := ∀ y x, ¬(y < rowCnt ∧ x < colCnt) → v'.fb y x = v.fb y x

theorem frame_clearRow (hy : y < rowCnt) : Frame v (clearRow y v) := by
  intro r x hout
  exact if_neg (fun hand : r = y ∧ x < colCnt => hout ⟨hand.1 ▸ hy, hand.2⟩)

theorem Frame.trans {v₁ v₂ v₃ : Display} (h₁ : Frame v₁ v₂) (h₂ : Frame v₂ v₃) : Frame v₁ v₃ := by
  intro y x hout
  rw [h₂ y x hout, h₁ y x hout]

theorem frame_clearRows (hn : n ≤ rowCnt) : Frame v (clearRows n v) := by
  induction n with
  | zero => exact fun _ _ _ => rfl
  | succ n ih => exact (ih (by omega)).trans (frame_clearRow hn)

theorem frame_scroll : Frame v (scroll v) := by
  intro y x hout
  exact if_neg (fun hand => hout ⟨by omega, hand.2⟩)

theorem frame_newline : Frame v (newline v) := by
  unfold newline
  simp only
  split_ifs
  · exact frame_scroll.trans (frame_clearRow zero_last_inside.2)
  · exact fun _ _ _ => rfl

theorem frame_vgaPutc (hin : v.cx < colCnt ∧ v.cy < rowCnt) : Frame v (vgaPutc v c) := by
  have hwrite : ∀ cell : Cell,
      Frame v { v with fb := fun r x => if r = v.cy ∧ x = v.cx then cell else v.fb r x } := by
    intro cell y x hout
    exact if_neg (fun hand : y = v.cy ∧ x = v.cx => hout ⟨hand.1 ▸ hin.2, hand.2 ▸ hin.1⟩)
  unfold vgaPutc
  simp only
  split_ifs
  · exact frame_newline
  · exact frame_clearRows le_rfl
  · exact fun _ _ _ => rfl
  · exact fun _ _ _ => rfl
  · exact fun _ _ _ => rfl
  · exact frame_newline
  · exact fun _ _ _ => rfl
  · exact fun _ _ _ => rfl
  · exact (hwrite _).trans frame_newline
  · exact hwrite _

theorem cursor_vgaPutc (hin : (vgaPutc v c).cx < colCnt ∧ (vgaPutc v c).cy < rowCnt) :
    (vgaPutc v c).cursor = (vgaPutc v c).cx + colCnt * (vgaPutc v c).cy := by
  have hcursor : (vgaPutc v c).cursor = ((vgaPutc v c).cx + colCnt * (vgaPutc v c).cy) % 2 ^ 16 := rfl
  rw [hcursor, Nat.mod_eq_of_lt]
  unfold colCnt rowCnt at *
  omega

/-- The paper of which a display shows the beginning. -/
def paperOf (v : Display) : Paper :=
  ⟨fun r x => if r < rowCnt then v.fb r x else blank, v.cy, v.cx, 0⟩

theorem shows_paperOf (hin : v.cx < colCnt ∧ v.cy < rowCnt) : Shows v (paperOf v) := by
  refine ⟨rfl, (Nat.zero_add _).symm, hin, fun y hy x hx => ?_, fun r hr x hx => ?_⟩
  · simp only [paperOf, Nat.zero_add, if_pos hy]
  · exact if_neg (by simp only [paperOf] at hr; omega)

theorem frame_string (hin : v.cx < colCnt ∧ v.cy < rowCnt) (s : List UInt8) :
    Frame v (s.foldl vgaPutc v) := by
  induction s generalizing v with
  | nil => exact fun _ _ _ => rfl
  | cons c s ih => exact (frame_vgaPutc hin).trans (ih ((shows_paperOf hin).putc c).inside)

theorem cursor_string (hin : v.cx < colCnt ∧ v.cy < rowCnt) (hcursor : v.cursor = v.cx + colCnt * v.cy)
    (s : List UInt8) :
    (s.foldl vgaPutc v).cursor = (s.foldl vgaPutc v).cx + colCnt * (s.foldl vgaPutc v).cy := by
  induction s generalizing v with
  | nil => exact hcursor
  | cons c s ih =>
      have hin' := ((shows_paperOf hin).putc c).inside
      exact ih hin' (cursor_vgaPutc hin')

theorem init_inside (fb : ℕ → ℕ → Cell) (hn : n < colCnt * rowCnt) :
    (init fb n).cx < colCnt ∧ (init fb n).cy < rowCnt :=
  ⟨Nat.mod_lt n zero_inside.1, Nat.div_lt_of_lt_mul hn⟩

/-- **Whatever is written to the display from its initialization on, it shows the last rows of the paper,
its cursor stands where the next character goes, and nothing but the frame buffer is written.** -/
theorem vgaPutc_string (fb : ℕ → ℕ → Cell) (cp : ℕ) (s : List UInt8) (hcp : cp < colCnt * rowCnt) :
    let v := s.foldl vgaPutc (init fb cp)
    let p := s.foldl Paper.putc (paperOf (init fb cp))
    (∀ y < rowCnt, ∀ x < colCnt, v.fb y x = p.cells (p.top + y) x) ∧
      v.cx = p.col ∧ p.top + v.cy = p.row ∧ v.cx < colCnt ∧ v.cy < rowCnt ∧
      v.cursor = v.cx + colCnt * v.cy ∧
      ∀ y x, ¬(y < rowCnt ∧ x < colCnt) → v.fb y x = fb y x := by
  have hin := init_inside fb hcp
  have hshows := (shows_paperOf hin).putc_string s
  have hcursor : cp = cp % colCnt + colCnt * (cp / colCnt) := (Nat.mod_add_div cp colCnt).symm
  exact ⟨hshows.cells, hshows.col, hshows.row.symm, hshows.inside.1, hshows.inside.2,
    cursor_string hin hcursor s, frame_string hin s⟩

/-- A line at the bottom scrolls up. -/
theorem vgaPutc_string_scroll :
    let v := [72, 10].foldl vgaPutc (init (fun _ _ => blank) 1920)
    v.fb 23 0 = (72, grayOnBlack) ∧ v.cursor = 1920 := by
  obtain ⟨hcells, -, -, -, -, hcursor, -⟩ :=
    vgaPutc_string (fun _ _ => blank) 1920 [72, 10] (by decide)
  exact ⟨(hcells 23 (by decide) 0 (by decide)).trans (by decide), hcursor.trans (by decide)⟩

/-! ### Plain text -/

/-- No control character of the display. -/
def Printed (c : UInt8) : Prop := c ≠ 7 ∧ c ≠ 8 ∧ c ≠ 9 ∧ c ≠ 10 ∧ c ≠ 12 ∧ c ≠ 13

instance : DecidablePred Printed := fun c =>
  inferInstanceAs (Decidable (c ≠ 7 ∧ c ≠ 8 ∧ c ≠ 9 ∧ c ≠ 10 ∧ c ≠ 12 ∧ c ≠ 13))

/-- Row `r` and column `x` of the paper on which `s` stands. -/
def cellOf (s : List UInt8) (r x : ℕ) : Cell := (s[r * colCnt + x]?).elim blank (·, grayOnBlack)

theorem Paper.putc_printed (hc : Printed c) :
    p.putc c = { p with cells := fun r x => if r = p.row ∧ x = p.col then (c, grayOnBlack) else p.cells r x
                   }.goto (p.col + 1) := by
  obtain ⟨h₁, h₂, h₃, h₄, h₅, h₆⟩ := hc
  simp only [putc, if_neg h₁, if_neg h₂, if_neg h₃, if_neg h₄, if_neg h₅, if_neg h₆]

theorem cellOf_append {s : List UInt8} {r : ℕ} (hx : x < colCnt) : cellOf (s ++ [c]) r x =
    if r = s.length / colCnt ∧ x = s.length % colCnt then (c, grayOnBlack) else cellOf s r x := by
  unfold cellOf colCnt at *
  by_cases hlast : r * 80 + x = s.length
  · rw [if_pos (by omega), hlast, List.getElem?_concat_length]
    rfl
  · rw [if_neg (by omega)]
    by_cases hlt : r * 80 + x < s.length
    · rw [List.getElem?_append_left hlt]
    · rw [List.getElem?_eq_none (by simp; omega), List.getElem?_eq_none (by omega)]

/-- The text stands on the paper as it was printed. -/
theorem paper_text {s : List UInt8} (hs : ∀ c ∈ s, Printed c) :
    let p := s.foldl Paper.putc Paper.fresh
    p.row = s.length / colCnt ∧ p.col = s.length % colCnt ∧ p.top = s.length / colCnt - (rowCnt - 1) ∧
      ∀ r, ∀ x < colCnt, p.cells r x = cellOf s r x := by
  induction s using List.reverseRecOn with
  | nil => exact ⟨rfl, rfl, rfl, fun _ _ _ => rfl⟩
  | append_singleton s c ih =>
      obtain ⟨hrow, hcol, htop, hcells⟩ := ih (fun d hd => hs d (List.mem_append_left _ hd))
      simp only [List.foldl_append, List.foldl_cons, List.foldl_nil, List.length_append,
        List.length_singleton, Paper.putc_printed (hs c (by simp)), Paper.goto]
      have hcells' : ∀ r, ∀ x < colCnt, (if r = (s.foldl Paper.putc Paper.fresh).row ∧
          x = (s.foldl Paper.putc Paper.fresh).col then (c, grayOnBlack)
          else (s.foldl Paper.putc Paper.fresh).cells r x) = cellOf (s ++ [c]) r x := by
        intro r x hx
        rw [cellOf_append hx, hrow, hcol, hcells r x hx]
      by_cases hroom : (s.foldl Paper.putc Paper.fresh).col + 1 < colCnt
      · rw [if_pos hroom]
        refine ⟨?_, ?_, ?_, hcells'⟩
        · simp only [hrow]
          unfold colCnt at *
          omega
        · simp only [hcol]
          unfold colCnt at *
          omega
        · simp only [htop]
          unfold colCnt at *
          omega
      · rw [if_neg hroom]
        refine ⟨?_, ?_, ?_, hcells'⟩
        · simp only [Paper.newline, hrow]
          unfold colCnt at *
          omega
        · simp only [Paper.newline]
          unfold colCnt at *
          omega
        · simp only [Paper.newline, htop, hrow]
          unfold colCnt at *
          omega

/-- **Behind a form feed a text without control characters stands on the screen in rows of 80, of which
the last 25 are shown, the cursor behind its last character.** -/
theorem vgaPutc_text (v : Display) (s : List UInt8) (hs : ∀ c ∈ s, Printed c) :
    let v' := (12 :: s).foldl vgaPutc v
    let top := s.length / colCnt - (rowCnt - 1)
    (∀ y < rowCnt, ∀ x < colCnt, v'.fb y x = cellOf s (top + y) x) ∧
      v'.cursor = s.length - colCnt * top := by
  intro v' top
  have hfresh : Shows (vgaPutc v 12) Paper.fresh := Shows.cls.moveCursor
  have hshows := hfresh.putc_string s
  have hcursor : v'.cursor = v'.cx + colCnt * v'.cy := cursor_string hfresh.inside rfl s
  obtain ⟨hrow, hcol, htop, hcells⟩ := paper_text hs
  refine ⟨fun y hy x hx => ?_, ?_⟩
  · have hshown := hshows.cells y hy x hx
    rw [htop, hcells _ x hx] at hshown
    exact hshown
  · have hcx : v'.cx = s.length % colCnt := hshows.col.trans hcol
    have hcy : s.length / colCnt = top + v'.cy := by
      rw [← hrow, hshows.row, htop]
      rfl
    rw [hcursor, hcx]
    unfold colCnt at *
    omega

/-- A short one. -/
theorem vgaPutc_text_short :
    ([12, 72, 105].foldl vgaPutc (init (fun _ _ => blank) 7)).cursor = 2 :=
  (vgaPutc_text (init (fun _ _ => blank) 7) [72, 105]
    (List.all_iff_forall_prop.mp (by decide))).2

end CSE130.Lab3.Vga
