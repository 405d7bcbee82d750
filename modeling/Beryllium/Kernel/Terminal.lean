import Beryllium.Machine.ArrayLoop
import Beryllium.Machine.Memory

/-!
# The text terminal

The terminal of `kernel/terminal.c` on the text screen of `arch/x86/drivers/textmode.c`, 25 rows
of 80 cells. The hardware cursor is left out.

What the terminal is for is a `Page`, of rows without end, that is written on in the same way but
never scrolled. The screen is a window on it (`Window`): its last 25 rows, once the cursor has got
that far (`terminal_window`).
-/

namespace Beryllium

open Machine

/-! ## The terminal -/

/-- The globals of the terminal and of the text mode driver, with the video memory. -/
structure Terminal where
  videoMemory : ℕ → UInt16
  attributeByte : UInt8
  termX : ℕ
  termY : ℕ

/-- `textmode_write` -/
def textmodeWrite (s : Terminal) (x y : ℕ) (data : UInt8) : Terminal :=
  let attr := s.attributeByte.toUInt16 <<< 8
  { s with videoMemory := Function.update s.videoMemory (y * 80 + x) (data.toUInt16 ||| attr) }

/-- `textmode_scroll` -/
def textmodeScroll (s : Terminal) (first last : ℕ) : Terminal :=
  let blank := (0x20 : UInt8).toUInt16 ||| (s.attributeByte.toUInt16 <<< 8)
  let moved := shiftFrom 80 s.videoMemory (first * 80) (last * 80 - first * 80)
  { s with videoMemory := fillFrom blank moved (last * 80) ((last + 1) * 80 - last * 80) }

/-- `video_printchar` -/
def videoPrintchar (s : Terminal) (x y : ℕ) (c : UInt8) : Terminal := textmodeWrite s x y c

/-- `video_scroll` -/
def videoScroll (s : Terminal) (first last : ℕ) : Terminal := textmodeScroll s first last

/-- `scroll` -/
def scroll (s : Terminal) : Terminal :=
  if 25 ≤ s.termY then { videoScroll s 0 24 with termY := 24 } else s

/-- The first part of `printc`, with the place at which `video_printchar` is called. -/
def printcMove (s : Terminal) (c : UInt8) : Terminal × Option (ℕ × ℕ) :=
  if c = 0x08 ∧ s.termX ≠ 0 then ({ s with termX := sub32 s.termX 1 }, none)
  else if c = 0x09 then ({ s with termX := add32 s.termX 8 &&& 0xFFFFFFF8 }, none)
  else if c = 0x0D then ({ s with termX := 0 }, none)
  else if c = 0x0A then ({ s with termX := 0, termY := add32 s.termY 1 }, none)
  else if 0x20 ≤ c then
    ({ videoPrintchar s s.termX s.termY c with termX := add32 s.termX 1 },
      some (s.termX, s.termY))
  else (s, none)

/-- The second part of `printc`, the end of a line. -/
def printcWrap (s : Terminal) : Terminal :=
  if 80 ≤ s.termX then { s with termX := 0, termY := add32 s.termY 1 } else s

/-- `printc`, with the place at which `video_printchar` is called. -/
def printc (s : Terminal) (c : UInt8) : Terminal × Option (ℕ × ℕ) :=
  let u := printcMove s c
  (scroll (printcWrap u.1), u.2)

/-- `print`, of the characters before the end of the string. -/
def print (s : Terminal) (cs : List UInt8) : Terminal := cs.foldl (fun s c => (printc s c).1) s

/-- The character in a row and a column of the screen. -/
def Terminal.charAt (s : Terminal) (row x : ℕ) : UInt8 := (s.videoMemory (row * 80 + x)).toUInt8

/-! ## The page -/

/-- A page of 80 columns, with a row and a column of the cursor. -/
structure Page where
  cell : ℕ → ℕ → UInt8
  x : ℕ
  row : ℕ

namespace Page

/-- The character `c` at the cursor. -/
def write (p : Page) (c : UInt8) : Page where
  cell := Function.update p.cell p.row (Function.update (p.cell p.row) p.x c)
  x := p.x + 1
  row := p.row

/-- What a byte does, short of the end of a line. -/
def move (p : Page) (c : UInt8) : Page :=
  if c = 0x08 ∧ p.x ≠ 0 then { p with x := p.x - 1 }
  else if c = 0x09 then { p with x := (p.x + 8) / 8 * 8 }
  else if c = 0x0D then { p with x := 0 }
  else if c = 0x0A then { p with x := 0, row := p.row + 1 }
  else if 0x20 ≤ c then p.write c
  else p

/-- The end of a line. -/
def wrap (p : Page) : Page := if 80 ≤ p.x then { p with x := 0, row := p.row + 1 } else p

/-- What a byte does. -/
def render (p : Page) (c : UInt8) : Page := (p.move c).wrap

end Page

/-- The page that starts with a screen, and has spaces below it. -/
def Terminal.page (s : Terminal) : Page where
  cell r x := if r < 25 then s.charAt r x else 0x20
  x := s.termX
  row := s.termY

/-! ## The window -/

/-- The screen shows the page from row `off` on, and there are spaces below it. -/
structure Window (off : ℕ) (s : Terminal) (p : Page) : Prop where
  x : s.termX = p.x
  row : p.row = off + s.termY
  cells : ∀ r < 25, ∀ x < 80, s.charAt r x = p.cell (off + r) x
  blank : ∀ r x, off + 25 ≤ r → p.cell r x = 0x20

variable {off : ℕ} {s : Terminal} {p : Page} {c : UInt8}

theorem window_page (s : Terminal) : Window 0 s s.page := by
  constructor
  · rfl
  · exact (Nat.zero_add _).symm
  · intro r hr x _
    rw [Nat.zero_add]
    exact (if_pos hr).symm
  · exact fun r x hr => if_neg (by omega)

/-- The character of a cell that is written. -/
theorem toUInt8_cell (data attr : UInt8) :
    (data.toUInt16 ||| (attr.toUInt16 <<< 8)).toUInt8 = data := by
  have hz : (attr.toUInt16 <<< 8).toUInt8 = 0 := by
    refine UInt8.toNat_inj.1 ?_
    simp [UInt16.toNat_shiftLeft, Nat.shiftLeft_eq]
  rw [UInt16.toUInt8_or, hz, UInt8.or_zero, UInt8.toUInt8_toUInt16]

/-- Moves of the cursor alone. -/
theorem Window.cursor (h : Window off s p) {x y row : ℕ} (hrow : row = off + y) :
    Window off { s with termX := x, termY := y } { p with x := x, row := row } :=
  ⟨rfl, hrow, h.cells, h.blank⟩

/-- A character at the cursor. -/
theorem Window.write (h : Window off s p) (hx : s.termX < 80) (hy : s.termY < 25) (c : UInt8) :
    Window off { videoPrintchar s s.termX s.termY c with termX := s.termX + 1 } (p.write c) := by
  have hrow := h.row
  constructor
  · exact congrArg (· + 1) h.x
  · exact hrow
  · intro r hr x hx'
    rcases eq_or_ne r s.termY with rfl | hr'
    · have hp : (p.write c).cell (off + s.termY) = Function.update (p.cell p.row) p.x c :=
        hrow ▸ Function.update_self ..
      rw [hp, ← h.x]
      rcases eq_or_ne x s.termX with rfl | hx''
      · rw [Function.update_self]
        exact (congrArg UInt16.toUInt8 (Function.update_self ..)).trans (toUInt8_cell _ _)
      · rw [Function.update_of_ne hx'', hrow, ← h.cells _ hy x hx']
        exact congrArg UInt16.toUInt8 (Function.update_of_ne (by omega) ..)
    · have hp : (p.write c).cell (off + r) = p.cell (off + r) :=
        Function.update_of_ne (by omega) ..
      rw [hp, ← h.cells r hr x hx']
      exact congrArg UInt16.toUInt8 (Function.update_of_ne (by omega) ..)
  · intro r x hr
    have hp : (p.write c).cell r = p.cell r := Function.update_of_ne (by omega) ..
    rw [hp]
    exact h.blank r x hr

theorem tab_eq : ∀ x < 80, add32 x 8 &&& 0xFFFFFFF8 = (x + 8) / 8 * 8 := by
  decide

/-- The first part of `printc` does to the screen what the byte does to the page. -/
theorem Window.move (h : Window off s p) (hx : s.termX < 80) (hy : s.termY < 25) (c : UInt8) :
    Window off (printcMove s c).1 (p.move c) ∧ (printcMove s c).1.termX ≤ 80 ∧
      ((printcMove s c).1.termY < 25 ∨
        (printcMove s c).1.termX = 0 ∧ (printcMove s c).1.termY = 25) := by
  have hpx := h.x
  have hrow := h.row
  rw [printcMove, Page.move, ← hpx]
  split_ifs with h₁ h₂ h₃ h₄ h₅
  · rw [sub32_eq (Nat.one_le_iff_ne_zero.2 h₁.2) (by omega)]
    exact ⟨h.cursor hrow, by dsimp only; omega, .inl hy⟩
  · rw [tab_eq _ hx]
    exact ⟨h.cursor hrow, by dsimp only; omega, .inl hy⟩
  · exact ⟨h.cursor hrow, Nat.zero_le _, .inl hy⟩
  · rw [add32_eq (by omega)]
    refine ⟨h.cursor (by omega), Nat.zero_le _, ?_⟩
    dsimp only
    omega
  · rw [add32_eq (by omega)]
    exact ⟨h.write hx hy c, hx, .inl hy⟩
  · exact ⟨h, Nat.le_of_lt hx, .inl hy⟩

/-- The end of a line. -/
theorem Window.wrap (h : Window off s p) (hx : s.termX ≤ 80)
    (hy : s.termY < 25 ∨ s.termX = 0 ∧ s.termY = 25) :
    Window off (printcWrap s) p.wrap ∧ (printcWrap s).termX < 80 ∧ (printcWrap s).termY ≤ 25 := by
  rw [printcWrap, Page.wrap, ← h.x]
  split_ifs with h₁
  · have hrow := h.row
    rw [add32_eq (by omega)]
    refine ⟨h.cursor (by omega), Nat.zero_lt_succ _, ?_⟩
    dsimp only
    omega
  · exact ⟨h, by omega, by omega⟩

/-- The rows move up by one, and the last one gets blank. -/
theorem charAt_scroll {r x : ℕ} (hr : r < 25) (hx : x < 80) :
    (videoScroll s 0 24).charAt r x = if r < 24 then s.charAt (r + 1) x else 0x20 := by
  rw [videoScroll, textmodeScroll, Terminal.charAt]
  simp only [fillFrom_apply, shiftFrom_apply]
  by_cases hlast : r < 24
  · rw [if_neg (by omega), if_pos (by omega), if_pos hlast, Terminal.charAt]
    exact congrArg (fun i => (s.videoMemory i).toUInt8) (by omega)
  · rw [if_pos (by omega), if_neg hlast]
    exact toUInt8_cell 0x20 s.attributeByte

/-- The window moves down, when the cursor has got below it. -/
theorem Window.scroll (h : Window off s p) (hy : s.termY ≤ 25)
    (hoff : off = p.row - 24 ∨ s.termY = 25) : Window (p.row - 24) (scroll s) p := by
  have hrow := h.row
  rw [Beryllium.scroll]
  split_ifs with h₁
  · constructor
    · exact h.x
    · dsimp only
      omega
    · intro r hr x hx
      refine (charAt_scroll hr hx).trans ?_
      split_ifs with hlast
      · rw [h.cells (r + 1) (by omega) x hx]
        exact congrArg (p.cell · x) (by omega)
      · exact (h.blank _ x (by omega)).symm
    · exact fun r x hr => h.blank r x (by omega)
  · obtain rfl : off = p.row - 24 := hoff.resolve_right (by omega)
    exact h

theorem row_le_render (p : Page) (c : UInt8) : p.row ≤ (p.render c).row := by
  have hmove : p.row ≤ (p.move c).row := by
    rw [Page.move]
    split_ifs
    · exact Nat.le_refl p.row
    · exact Nat.le_refl p.row
    · exact Nat.le_refl p.row
    · exact Nat.le_succ p.row
    · exact Nat.le_refl p.row
    · exact Nat.le_refl p.row
  refine Nat.le_trans hmove ?_
  rw [Page.render, Page.wrap]
  split_ifs
  · exact Nat.le_succ _
  · exact Nat.le_refl _

/-- A byte that is printed on the screen is rendered on the page. -/
theorem Window.printc (h : Window (p.row - 24) s p) (hx : s.termX < 80) (hy : s.termY < 25)
    (c : UInt8) : Window ((p.render c).row - 24) (printc s c).1 (p.render c) ∧
      (printc s c).1.termX < 80 ∧ (printc s c).1.termY < 25 := by
  obtain ⟨hm, hmx, hmy⟩ := h.move hx hy c
  obtain ⟨hw, hwx, hwy⟩ := hm.wrap hmx hmy
  have hrow := h.row
  have hrow' := hw.row
  have hle := row_le_render p c
  rw [Page.render] at hle ⊢
  refine ⟨hw.scroll hwy (by omega), ?_⟩
  rw [Beryllium.printc, Beryllium.scroll]
  split_ifs with h₁
  · exact ⟨hwx, by dsimp only; omega⟩
  · exact ⟨hwx, by dsimp only; omega⟩

/-- A call of `video_printchar` is at the cursor. -/
theorem printc_call {at' : ℕ × ℕ} (h : (printc s c).2 = some at') : at' = (s.termX, s.termY) := by
  rw [printc, printcMove] at h
  split_ifs at h
  exact (Option.some.inj h).symm

/-- Whatever is printed, the screen shows the last 25 rows of the page that starts with the
    initial screen; the cursor stays on the screen, and every character is written to it. -/
theorem terminal_window (s₀ : Terminal) (hx₀ : s₀.termX < 80) (hy₀ : s₀.termY < 25)
    (cs : List UInt8) :
    (print s₀ cs).termX < 80 ∧ (print s₀ cs).termY < 25 ∧
      (∀ c x y, (printc (print s₀ cs) c).2 = some (x, y) → x < 80 ∧ y < 25) ∧
      Window ((cs.foldl Page.render s₀.page).row - 24) (print s₀ cs)
        (cs.foldl Page.render s₀.page) := by
  have hrun : ∀ cs (s : Terminal) p, Window (p.row - 24) s p → s.termX < 80 → s.termY < 25 →
      Window ((cs.foldl Page.render p).row - 24) (print s cs) (cs.foldl Page.render p) ∧
        (print s cs).termX < 80 ∧ (print s cs).termY < 25 := by
    intro cs
    induction cs with
    | nil => exact fun s p h hx hy => ⟨h, hx, hy⟩
    | cons c cs ih =>
      intro s p h hx hy
      obtain ⟨hc, hcx, hcy⟩ := h.printc hx hy c
      exact ih _ _ hc hcx hcy
  have hwin : Window (s₀.page.row - 24) s₀ s₀.page := by
    have hz : s₀.page.row - 24 = 0 := Nat.sub_eq_zero_of_le (Nat.le_of_lt_succ hy₀)
    exact hz.symm ▸ window_page s₀
  obtain ⟨h, hx, hy⟩ := hrun cs s₀ _ hwin hx₀ hy₀
  refine ⟨hx, hy, fun c x y hcall => ?_, h⟩
  obtain ⟨rfl, rfl⟩ := Prod.mk.inj (printc_call hcall)
  exact ⟨hx, hy⟩

/-- A letter on the last line, and a newline: the letter is then on the line above. -/
theorem terminal_window_newline :
    (print ⟨fun _ => 0, 0x0F, 0, 24⟩ [0x41, 0x0A]).charAt 23 0 = 0x41 := by
  obtain ⟨-, -, -, h⟩ := terminal_window ⟨fun _ => 0, 0x0F, 0, 24⟩ (by decide) (by decide)
    [0x41, 0x0A]
  exact (h.cells 23 (by decide) 0 (by decide)).trans (by decide)

end Beryllium
