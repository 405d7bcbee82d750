import Beryllium.Kernel.Terminal
import Beryllium.Printf.Scan

/-!
# The kernel log

`klog` of `kernel/klog.c`, with the time left out of the titles, down to the screen: `printf` of
`kernel/printf.c` calls `printc` for each character of its output, and `printc` moves the cursor of
the display controller after each. `terminal_init` goes on at the place where it finds that cursor.

* `klog_screen`: whatever is logged, the screen shows the end of the text of the messages that the
  mask lets pass, behind what was there at `terminal_init`, and the cursor of the controller is at
  the end of the text; so another `terminal_init` would go on from there.
-/

namespace Beryllium

open Machine

/-! ## The console -/

/-- The terminal, and the registers of the display controller with their index. -/
structure Console where
  terminal : Terminal
  index : UInt8
  registers : UInt8 → UInt8

/-- `outb` to a port of the display controller. -/
def Console.outb (s : Console) (port : ℕ) (value : UInt8) : Console :=
  if port = 0x3D4 then { s with index := value }
  else if port = 0x3D5 then { s with registers := Function.update s.registers s.index value }
  else s

/-- `inb` from a port of the display controller. -/
def Console.inb (s : Console) (port : ℕ) : UInt8 :=
  if port = 0x3D4 then s.index else s.registers s.index

/-- `textmode_setcursor` -/
def textmodeSetcursor (s : Console) (x y : ℕ) : Console :=
  let location := UInt16.ofNat (y * 80 + x)
  (((s.outb 0x3D4 14).outb 0x3D5 (location >>> 8).toUInt8).outb 0x3D4 15).outb 0x3D5
    location.toUInt8

/-- `video_setcursor` -/
def videoSetcursor (s : Console) (x y : ℕ) : Console := textmodeSetcursor s x y

/-- `terminal_init` -/
def terminalInit (s : Console) : Console :=
  let s := s.outb 0x3D4 14
  let offset := (s.inb 0x3D5).toUInt16 <<< 8
  let s := s.outb 0x3D4 15
  let offset := offset ||| (s.inb 0x3D5).toUInt16
  let s := { s with
    terminal := { s.terminal with termX := (offset % 80).toNat, termY := (offset / 80).toNat } }
  videoSetcursor s s.terminal.termX s.terminal.termY

/-- `printc`, with the cursor of the display controller. -/
def Console.printc (s : Console) (c : UInt8) : Console :=
  let s := { s with terminal := (Beryllium.printc s.terminal c).1 }
  videoSetcursor s s.terminal.termX s.terminal.termY

/-! ## The log -/

/-- `textmode_setcolor` -/
def textmodeSetcolor (s : Console) (back fore : UInt8) : Console :=
  { s with terminal.attributeByte := (back <<< 4) ||| (fore &&& 0x0F) }

/-- `textmode_resetcolor`, to `defaultAttribute`. -/
def textmodeResetcolor (s : Console) : Console :=
  { s with terminal.attributeByte := ((0 : UInt8) <<< 4) ||| (15 &&& 0x0F) }

/-- `video_setattributetext` -/
def videoSetattributetext (s : Console) (back fore : UInt8) : Console :=
  textmodeSetcolor s back fore

/-- `video_resetattributetext` -/
def videoResetattributetext (s : Console) : Console := textmodeResetcolor s

/-- `vprintf_help` -/
def vprintfHelp (c : UInt32) (s : Console) : Option Console := some (s.printc c.toUInt8)

/-- `vprintf` -/
def vprintf (s : Console) (fmt : List UInt8) (args : List VaArg) : Option (Console × ℤ) :=
  doPrintf vprintfHelp fmt args s

/-- `printf` -/
def printf (s : Console) (fmt : List UInt8) (args : List VaArg) : Option (Console × ℤ) :=
  vprintf s fmt args

def logOk : ℤ := 5
def logFail : ℤ := 6

/-- The console with `klog_mask`. -/
structure Log where
  console : Console
  klogMask : ℤ

/-- The title of a message. -/
def klogTitle (s : Console) (mode : ℤ) (title : List UInt8) : Option (Console × ℤ) :=
  -- "[OKAY]", "[FAIL]" and "%s: "
  if mode = logOk then printf s [91, 79, 75, 65, 89, 93, 0] []
  else if mode = logFail then printf s [91, 70, 65, 73, 76, 93, 0] []
  else printf s [37, 115, 58, 32, 0] [.pointer title]

/-- `klog` -/
def klog (s : Log) (mode : ℤ) (title fmt : List UInt8) (args : List VaArg) : Option Log :=
  if mode ≤ s.klogMask then do
    let c := videoSetattributetext s.console 0x0 0xE
    let (c, _) ← klogTitle c mode title
    let c := videoResetattributetext c
    let (c, _) ← vprintf c fmt args
    return { s with console := c }
  else some s

/-- `klog_setmask` -/
def klogSetmask (s : Log) (mode : ℤ) : Log := { s with klogMask := mode }

/-- A message, whose title is the string `name`, and whose format has the output `output`. -/
structure Message where
  mode : ℤ
  title : List UInt8
  fmt : List UInt8
  args : List VaArg
  name : List UInt8
  output : List UInt8
  title_eq : CStr title name
  name_lt : name.length < 4294967296
  fmt_eq : ∃ ps rest, fmt = formatText ps ++ 0 :: rest ∧ formatOutput ps args = some output

/-- What stands in front of a message. -/
def Message.heading (m : Message) : List UInt8 :=
  if m.mode = logOk then [91, 79, 75, 65, 89, 93]
  else if m.mode = logFail then [91, 70, 65, 73, 76, 93]
  else m.name ++ [58, 32]

/-- The text of a message. -/
def Message.text (m : Message) : List UInt8 := m.heading ++ m.output

/-- The uses of the log. -/
inductive LogOp
  | klog (m : Message)
  | setmask (mode : ℤ)

/-- What a use of the log does. -/
def Log.step (s : Log) : LogOp → Option Log
  | .klog m => Beryllium.klog s m.mode m.title m.fmt m.args
  | .setmask mode => some (klogSetmask s mode)

/-- The text of the messages that the mask lets pass. -/
def logText (mask : ℤ) : List LogOp → List UInt8
  | [] => []
  | .klog m :: ops => (if m.mode ≤ mask then m.text else []) ++ logText mask ops
  | .setmask mode :: ops => logText mode ops

/-! ## The cursor -/

/-- The cursor of the display controller. -/
def Console.location (s : Console) : ℕ := (s.registers 14).toNat * 256 + (s.registers 15).toNat

variable {s : Console} {p : Page} {c : UInt8} {x y : ℕ}

theorem terminal_setcursor : (videoSetcursor s x y).terminal = s.terminal := rfl

theorem location_setcursor (h : y * 80 + x < 65536) :
    (videoSetcursor s x y).location = y * 80 + x := by
  simp only [videoSetcursor, textmodeSetcursor, Console.outb, Console.location]
  simp [Nat.shiftRight_eq_div_pow]
  omega

/-- The word that is put together from its bytes. -/
theorem toNat_word (hi lo : UInt8) :
    (hi.toUInt16 <<< 8 ||| lo.toUInt16).toNat = hi.toNat * 256 + lo.toNat := by
  have hlo := lo.toNat_lt
  have hhi := hi.toNat_lt
  have hshift : (hi.toUInt16 <<< 8).toNat = hi.toNat <<< 8 := by
    simp [UInt16.toNat_shiftLeft, Nat.shiftLeft_eq]
    omega
  rw [UInt16.toNat_or, hshift, UInt8.toNat_toUInt16, ← Nat.shiftLeft_add_eq_or_of_lt hlo,
    Nat.shiftLeft_eq]

theorem terminalInit_terminal :
    (terminalInit s).terminal =
      { s.terminal with termX := s.location % 80, termY := s.location / 80 } := by
  have hword := toNat_word (s.registers 14) (s.registers 15)
  simp [terminalInit, terminal_setcursor, Console.outb, Console.inb, Console.location, hword]

theorem location_lt (s : Console) : s.location < 65536 := by
  have hhi := (s.registers 14).toNat_lt
  have hlo := (s.registers 15).toNat_lt
  rw [Console.location]
  omega

/-- The cursor stays where it is. -/
theorem terminalInit_location : (terminalInit s).location = s.location := by
  have hx : (terminalInit s).terminal.termX = s.location % 80 := by rw [terminalInit_terminal]
  have hy : (terminalInit s).terminal.termY = s.location / 80 := by rw [terminalInit_terminal]
  have hlt := location_lt s
  have hbound : (terminalInit s).terminal.termY * 80 + (terminalInit s).terminal.termX < 65536 :=
    by omega
  have hset : (terminalInit s).location =
      (terminalInit s).terminal.termY * 80 + (terminalInit s).terminal.termX :=
        location_setcursor hbound
  rw [hset, hx, hy]
  omega

/-! ## The screen -/

/-- The screen shows the end of the page, and the cursors are at the end of its text. -/
structure Console.Shows (s : Console) (p : Page) : Prop where
  window : Window (p.row - 24) s.terminal p
  x : s.terminal.termX < 80
  y : s.terminal.termY < 25
  location : s.location = s.terminal.termY * 80 + s.terminal.termX

theorem Console.Shows.printc (h : s.Shows p) (c : UInt8) : (s.printc c).Shows (p.render c) := by
  obtain ⟨hw, hx, hy⟩ := h.window.printc h.x h.y c
  exact ⟨hw, hx, hy, location_setcursor (by dsimp only; omega)⟩

theorem Console.Shows.print (h : s.Shows p) (cs : List UInt8) :
    (cs.foldl Console.printc s).Shows (cs.foldl Page.render p) := by
  induction cs generalizing s p with
  | nil => exact h
  | cons c cs ih => exact ih (h.printc c)

/-- The color of what is printed next says nothing about the text. -/
theorem Console.Shows.setattributetext (h : s.Shows p) (back fore : UInt8) :
    (videoSetattributetext s back fore).Shows p :=
  ⟨⟨h.window.x, h.window.row, h.window.cells, h.window.blank⟩, h.x, h.y, h.location⟩

theorem Console.Shows.resetattributetext (h : s.Shows p) : (videoResetattributetext s).Shows p :=
  ⟨⟨h.window.x, h.window.row, h.window.cells, h.window.blank⟩, h.x, h.y, h.location⟩

theorem shows_terminalInit (h : s.location < 2000) :
    (terminalInit s).Shows (terminalInit s).terminal.page := by
  have hx : (terminalInit s).terminal.termX = s.location % 80 := by rw [terminalInit_terminal]
  have hy : (terminalInit s).terminal.termY = s.location / 80 := by rw [terminalInit_terminal]
  have hrow : (terminalInit s).terminal.page.row - 24 = 0 := by
    change (terminalInit s).terminal.termY - 24 = 0
    omega
  refine ⟨hrow ▸ window_page _, by omega, by omega, ?_⟩
  rw [terminalInit_location, hx, hy]
  omega

/-! ## Messages -/

/-- A format prints its output. -/
theorem vprintf_eq {ps : List Piece} {args : List VaArg} {out : List UInt8}
    (h : formatOutput ps args = some out) (rest : List UInt8) (s : Console) :
    vprintf s (formatText ps ++ 0 :: rest) args =
      some (out.foldl Console.printc s, (out.length : ℤ).bmod (2 ^ 32)) := by
  obtain ⟨cs, rfl, hrun⟩ := doPrintf_eq h vprintfHelp s rest
  have hfold : cs.foldlM (fun s c => vprintfHelp c s) s =
      some ((cs.map UInt32.toUInt8).foldl Console.printc s) := by
    rw [List.foldl_map]
    exact List.foldlM_pure
  rw [vprintf, hrun, hfold, Option.map_some]

/-- The format `%s: `. -/
theorem exists_title {title name : List UInt8} (h : CStr title name)
    (hlt : name.length < 4294967296) : ∃ ps, formatText ps = [37, 115, 58, 32] ∧
      formatOutput ps [.pointer title] = some (name ++ [58, 32]) := by
  have hmem : 0 ∈ title := by
    obtain ⟨-, rest, rfl⟩ := h
    exact List.mem_append_right _ List.mem_cons_self
  have hname : title.takeWhile (· ≠ 0) = name := (cstr_takeWhile hmem).unique h
  have hfield : Conversion.s.field (.pointer title) = some (false, name) := by
    rw [Conversion.field, hname]
    exact if_pos ⟨hmem, hlt⟩
  have hpad : pad false false 0 false name = name := by simp [pad]
  refine ⟨[.directive ⟨false, false, [], false, .s, by decide, fun _ => by decide⟩,
    .char 58 (by decide) (by decide), .char 32 (by decide) (by decide)], rfl, ?_⟩
  rw [formatOutput, Piece.output]
  change (Option.map _ (Conversion.s.field _)).bind _ = _
  rw [hfield]
  exact congrArg (fun name => some (name ++ [58, 32])) hpad

/-- A text without `%` is a format that prints itself. -/
theorem exists_pieces (args : List VaArg) {cs : List UInt8} (h : ∀ c ∈ cs, c ≠ 0 ∧ c ≠ 37) :
    ∃ ps, formatText ps = cs ∧ formatOutput ps args = some cs := by
  induction cs with
  | nil => exact ⟨[], rfl, rfl⟩
  | cons c cs ih =>
    obtain ⟨hc, hcs⟩ := List.forall_mem_cons.1 h
    obtain ⟨ps, htext, hout⟩ := ih hcs
    refine ⟨.char c hc.1 hc.2 :: ps, ?_, ?_⟩
    · rw [formatText, List.flatMap_cons, ← formatText, htext]
      rfl
    · rw [formatOutput, Piece.output]
      change (formatOutput ps args).bind _ = _
      rw [hout]
      rfl

theorem printf_text (cs : List UInt8) (h : ∀ c ∈ cs, c ≠ 0 ∧ c ≠ 37) (s : Console) :
    (printf s (cs ++ [0]) []).map Prod.fst = some (cs.foldl Console.printc s) := by
  obtain ⟨ps, rfl, hout⟩ := exists_pieces [] h
  rw [printf, vprintf_eq hout, Option.map_some]

theorem klogTitle_eq (m : Message) (s : Console) :
    (klogTitle s m.mode m.title).map Prod.fst = some (m.heading.foldl Console.printc s) := by
  rw [klogTitle, Message.heading]
  split_ifs
  · exact printf_text [91, 79, 75, 65, 89, 93] (by simp) s
  · exact printf_text [91, 70, 65, 73, 76, 93] (by simp) s
  · obtain ⟨ps, htext, hout⟩ := exists_title m.title_eq m.name_lt
    have hrun := vprintf_eq hout [] s
    rw [htext] at hrun
    exact congrArg (Option.map Prod.fst) hrun

/-- A message that the mask lets pass is printed. -/
theorem klog_shows {s : Log} (h : s.console.Shows p) (m : Message) :
    ∃ c, klog s m.mode m.title m.fmt m.args = some { s with console := c } ∧
      c.Shows ((if m.mode ≤ s.klogMask then m.text else []).foldl Page.render p) := by
  rw [klog]
  split_ifs with hmask
  · obtain ⟨⟨c, ret⟩, htitle, rfl⟩ := Option.map_eq_some_iff.1
      (klogTitle_eq m (videoSetattributetext s.console 0x0 0xE))
    obtain ⟨ps, rest, hfmt, hout⟩ := m.fmt_eq
    have hheading := (h.setattributetext 0x0 0xE).print m.heading
    have hmessage := hheading.resetattributetext.print m.output
    refine ⟨_, ?_, by rwa [Message.text, List.foldl_append]⟩
    simp only [htitle, hfmt, vprintf_eq hout, Option.bind_eq_bind, Option.bind_some]
    rfl
  · exact ⟨s.console, rfl, h⟩

/-- Whatever is logged after `terminal_init`, from a cursor on the screen, the screen shows the end
    of the text of the messages that the mask lets pass, behind what it showed before. The cursor of
    the display controller is at the end of the text, where another `terminal_init` would find it.
    -/
theorem klog_screen (s : Console) (mask : ℤ) (hs : s.location < 2000) (ops : List LogOp) :
    ∃ s' : Log, ops.foldlM Log.step ⟨terminalInit s, mask⟩ = some s' ∧
      s'.console.Shows ((logText mask ops).foldl Page.render (terminalInit s).terminal.page) ∧
      (terminalInit s'.console).terminal = s'.console.terminal := by
  have hrun : ∀ ops (s : Log) p, s.console.Shows p → ∃ s' : Log, ops.foldlM Log.step s = some s' ∧
      s'.console.Shows ((logText s.klogMask ops).foldl Page.render p) := by
    intro ops
    induction ops with
    | nil => exact fun s p h => ⟨s, rfl, h⟩
    | cons op ops ih =>
      intro s p h
      cases op with
      | klog m =>
        obtain ⟨c, hstep, hc⟩ := klog_shows h m
        obtain ⟨s', hs', hshows⟩ := ih { s with console := c } _ hc
        refine ⟨s', ?_, ?_⟩
        · rw [List.foldlM_cons, Log.step, hstep]
          exact hs'
        · rw [logText, List.foldl_append]
          exact hshows
      | setmask mode => exact ih (klogSetmask s mode) p h
  obtain ⟨s', hs', hshows⟩ := hrun ops ⟨terminalInit s, mask⟩ _ (shows_terminalInit hs)
  refine ⟨s', hs', hshows, ?_⟩
  -- the cursor is read back
  have hx := hshows.x
  have hloc := hshows.location
  have hdiv : s'.console.location / 80 = s'.console.terminal.termY := by omega
  have hmod : s'.console.location % 80 = s'.console.terminal.termX := by omega
  rw [terminalInit_terminal, hdiv, hmod]

/-- A message of a level above the mask. -/
def someMessage : Message where
  mode := 10
  title := [107, 98, 0]
  fmt := [117, 112, 37, 37, 0]
  args := []
  name := [107, 98]
  output := [117, 112, 37]
  title_eq := ⟨by decide, [], rfl⟩
  name_lt := by decide
  fmt_eq := ⟨[.char 117 (by decide) (by decide), .char 112 (by decide) (by decide), .percent], [],
    rfl, rfl⟩

/-- The cursor is behind `kb: up%` after the message has been logged twice, the second time with the
    mask that lets it pass. -/
theorem klog_screen_cursor : ∃ s' : Log,
    [LogOp.klog someMessage, .setmask 10, .klog someMessage].foldlM Log.step
      ⟨terminalInit ⟨⟨fun _ => 0, 0x0F, 0, 0⟩, 0, fun _ => 0⟩, 4⟩ = some s' ∧
      s'.console.terminal.termX = 7 := by
  obtain ⟨s', hs', h, -⟩ := klog_screen ⟨⟨fun _ => 0, 0x0F, 0, 0⟩, 0, fun _ => 0⟩ 4 (by decide)
    [.klog someMessage, .setmask 10, .klog someMessage]
  refine ⟨s', hs', h.window.x.trans ?_⟩
  decide

end Beryllium
