/-
  Readline/Nkreadline.lean --- the line editor of `libnklabs/src/nkreadline.c`,
  with the completion of `libnklabs/src/nkcli.c` it calls for TAB.

  The edit buffer has `lineSize` (`NKREADLINE_LINE_SIZE`) and the history buffer
  `histSize` (`NKREADLINE_HIST_SIZE`) bytes.  An access outside of a buffer, and
  a `size_t` difference that would wrap, has the result `none`.  The characters
  sent to the terminal are left out, the accesses to the edit buffer made to get
  them are not.
-/
import LibnklabsPico.Foundation.Bytes

set_option autoImplicit false

namespace LibnklabsPico.Readline

open LibnklabsPico.Foundation

/-- The static variables of `nkreadline.c`. -/
structure Editor where
  ttyBuf : List UInt8
  ttyLen : Nat
  ttyCur : Nat
  /-- set if buffer has been edited -/
  changed : Bool
  /-- NUL terminated lines -/
  histbuf : List UInt8
  /-- number of bytes in history buffer -/
  histEnd : Nat
  /-- index to start of current history line -/
  histIdx : Nat
  mode : Nat
  tabCount : Nat

/-- The static variables at power up. -/
def Editor.zeroed (lineSize histSize : Nat) : Editor :=
  { ttyBuf := List.replicate lineSize 0, ttyLen := 0, ttyCur := 0, changed := false
    histbuf := List.replicate histSize 0, histEnd := 0, histIdx := 0, mode := 0, tabCount := 0 }

/-- A `size_t` difference. -/
def sizeSub (m n : Nat) : Option Nat := if n ≤ m then some (m - n) else none

/-- `if (cond) memmove(b + dst, b + src, last - src)` -/
def moveTail (cond : Bool) (b : List UInt8) (dst src last : Nat) : Option (List UInt8) :=
  if cond then do
    let n ← sizeSub last src
    Bytes.memmove b dst src n
  else some b

/-! ## History -/

/-- The loop `while (hist_idx && histbuf[hist_idx - 1]) --hist_idx`. -/
def scanBack (histbuf : List UInt8) : Nat → Option Nat
  | 0 => some 0
  | i + 1 => do
      let c ← histbuf[i]?
      if c ≠ 0 then scanBack histbuf i else some (i + 1)

/-- `hist_prev`: whether there is a previous line. -/
def histPrev (s : Editor) : Option (Bool × Editor) :=
  match s.histIdx with
  | 0 => some (false, s)
  | i + 1 => do
      let start ← scanBack s.histbuf i
      return (true, { s with histIdx := start })

/-- `hist_next`: whether there is a next line. -/
def histNext (s : Editor) : Option (Bool × Editor) :=
  if s.histIdx = s.histEnd then some (false, s)
  else do
    let len ← Bytes.strlenAt s.histbuf s.histIdx
    let s := { s with histIdx := s.histIdx + len + 1 }
    return (decide (s.histIdx ≠ s.histEnd), s)

/-- `hist_del`: delete current line from history buffer. -/
def histDel (s : Editor) : Option (Nat × Editor) :=
  if s.histIdx ≠ s.histEnd then do
    let len ← Bytes.strlenAt s.histbuf s.histIdx
    let len := len + 1
    let behind ← sizeSub s.histEnd (s.histIdx + len)
    let histbuf ← moveTail (behind != 0) s.histbuf s.histIdx (s.histIdx + len) s.histEnd
    let histEnd ← sizeSub s.histEnd len
    return (len, { s with histbuf := histbuf, histEnd := histEnd })
  else some (0, s)

/-- `if (tmp) tmp -= r` -/
def shiftIdx (tmp r : Nat) : Option Nat := if tmp ≠ 0 then sizeSub tmp r else some tmp

/-- The loop of `hist_ins` that deletes oldest lines until `len` bytes fit. -/
def makeRoom (histSize len : Nat) : Nat → Nat → Editor → Option (Nat × Editor)
  | 0, _, _ => none
  | fuel + 1, tmp, s =>
      if len + s.histEnd > histSize then do
        let (r, s) ← histDel s
        let tmp ← shiftIdx tmp r
        makeRoom histSize len fuel tmp s
      else some (tmp, s)

/-- `hist_ins`: insert the string `buf` into history buffer. -/
def histIns (histSize : Nat) (buf : List UInt8) (s : Editor) : Option Editor := do
  let len ← Bytes.strlenAt buf 0
  let len := len + 1
  let tmp := s.histIdx
  -- Delete oldest history lines in case we are out of space
  let s := { s with histIdx := 0 }
  let (tmp, s) ← makeRoom histSize len (s.histEnd + 1) tmp s
  let s := { s with histIdx := tmp }
  -- Make space for this new line
  let histbuf ←
    moveTail (s.histIdx != s.histEnd) s.histbuf (s.histIdx + len) s.histIdx s.histEnd
  let line ← Bytes.slice buf 0 len
  let histbuf ← Bytes.copyIn histbuf s.histIdx line
  return { s with histbuf := histbuf, histEnd := s.histEnd + len }

/-! ## Edit buffer -/

/-- The characters of the edit buffer from `first` up to `last` are sent to the
terminal. -/
def echo (first last : Nat) (s : Editor) : Option Unit := do
  let n ← sizeSub last first
  let _ ← Bytes.slice s.ttyBuf first n
  return ()

/-- `to_end` -/
def toEnd (s : Editor) : Option Editor := do
  echo s.ttyCur s.ttyLen s
  return { s with ttyCur := s.ttyLen }

/-- `to_beg` -/
def toBeg (s : Editor) : Editor := { s with ttyCur := 0 }

/-- `erase` -/
def erase (s : Editor) : Option Editor := do
  let s ← toEnd s
  return { s with ttyCur := 0, ttyLen := 0 }

/-- `redraw` and `type`, which differ in the prompt. -/
def redraw (s : Editor) : Option Editor := toEnd { s with ttyCur := 0 }

/-- `tty_buf[tty_len] = 0` -/
def terminate (s : Editor) : Option Editor := do
  let ttyBuf ← Bytes.store s.ttyBuf s.ttyLen 0
  return { s with ttyBuf := ttyBuf }

/-- `tty_buf[tty_len] = 0; hist_ins(tty_buf)` -/
def insertLine (histSize : Nat) (s : Editor) : Option Editor := do
  let s ← terminate s
  histIns histSize s.ttyBuf s

/-- The line at `hist_idx` becomes the edit line. -/
def recallLine (s : Editor) : Option Editor := do
  let len ← Bytes.strlenAt s.histbuf s.histIdx
  let line ← Bytes.slice s.histbuf s.histIdx (len + 1)
  let ttyBuf ← Bytes.copyIn s.ttyBuf 0 line
  let ttyLen ← Bytes.strlenAt ttyBuf 0
  redraw { s with ttyBuf := ttyBuf, ttyLen := ttyLen }

/-- `if (cond)` the line at `hist_idx` becomes the edit line. -/
def recallLineIf (cond : Bool) (s : Editor) : Option Editor := if cond then recallLine s else some s

/-- The edit line is left upwards: a changed one is inserted before the line at
`hist_idx`. -/
def leaveUp (histSize : Nat) (s : Editor) : Option Editor :=
  if s.ttyLen ≠ 0 then
    if !s.changed then erase s
    else do
      let s ← insertLine histSize s
      erase s
  else some s

/-- `hist_up` -/
def histUp (histSize : Nat) (s : Editor) : Option Editor :=
  if s.histIdx ≠ 0 then do
    -- Insert possibly modified line
    let s ← leaveUp histSize s
    -- Get previous history line into edit buffer
    let (found, s) ← histPrev s
    let s ← recallLineIf found s
    return { s with changed := false }
  else some s

/-- There is a line behind the one at `hist_idx`. -/
def moreHistory (s : Editor) : Option Bool :=
  if s.histIdx ≠ s.histEnd then do
    let len ← Bytes.strlenAt s.histbuf s.histIdx
    return decide (s.histIdx + len + 1 ≠ s.histEnd)
  else some false

/-- A changed edit line goes behind the line at `hist_idx`. -/
def insertBehind (histSize : Nat) (s : Editor) : Option Editor :=
  if s.changed then do
    let (_, s) ← histNext s
    insertLine histSize s
  else some s

/-- The edit line is left downwards. -/
def leaveDown (histSize : Nat) (s : Editor) : Option Editor :=
  if s.ttyLen ≠ 0 then do
    let s ← insertBehind histSize s
    let (_, s) ← histNext s
    erase s
  else some s

/-- `hist_down` -/
def histDown (histSize : Nat) (s : Editor) : Option Editor := do
  let more ← moreHistory s
  if more then
    -- We have more history
    let s ← leaveDown histSize s
    let s ← recallLineIf (s.histIdx != s.histEnd) s
    return { s with changed := false }
  else if s.ttyLen ≠ 0 then
    -- No more history
    let s ← insertBehind histSize s
    let s := { s with histIdx := s.histEnd }
    let s ← erase s
    return { s with changed := false }
  else return s

/-- `cur_left` -/
def curLeft (s : Editor) : Editor :=
  if s.ttyCur ≠ 0 then { s with ttyCur := s.ttyCur - 1 } else s

/-- `cur_right` -/
def curRight (s : Editor) : Option Editor :=
  if s.ttyCur ≠ s.ttyLen then do
    echo s.ttyCur (s.ttyCur + 1) s
    return { s with ttyCur := s.ttyCur + 1 }
  else some s

/-- `typech` -/
def typech (lineSize : Nat) (c : UInt8) (s : Editor) : Option Editor :=
  if s.ttyLen ≠ lineSize - 1 then do
    let ttyBuf ← moveTail (s.ttyCur != s.ttyLen) s.ttyBuf (s.ttyCur + 1) s.ttyCur s.ttyLen
    let ttyBuf ← Bytes.store ttyBuf s.ttyCur c
    let s := { s with ttyBuf := ttyBuf, ttyLen := s.ttyLen + 1 }
    echo s.ttyCur s.ttyLen s
    return { s with ttyCur := s.ttyCur + 1, changed := true }
  else some s

/-- `delch` -/
def delch (s : Editor) : Option Editor :=
  if s.ttyCur ≠ s.ttyLen then do
    let ttyBuf ← moveTail (s.ttyCur + 1 != s.ttyLen) s.ttyBuf s.ttyCur (s.ttyCur + 1) s.ttyLen
    let ttyLen ← sizeSub s.ttyLen 1
    let s := { s with ttyBuf := ttyBuf, ttyLen := ttyLen }
    echo s.ttyCur s.ttyLen s
    return { s with changed := true }
  else some s

/-! ## Completion -/

/-- The command table: the help text of each command without its NUL, and
whether we are in factory mode. -/
structure Commands where
  texts : List (List UInt8)
  facmode : Bool

/-- The loop of `name_match`: what is left of `partial`, of the name and of the
command when it stops. -/
def nameLoop : Nat → List UInt8 → List UInt8 → Nat × List UInt8 × List UInt8
  | left + 1, t :: table, c :: cmd =>
      if t ≠ 0 ∧ t ≠ 32 ∧ c ≠ 0 ∧ t = c then nameLoop left table cmd
      else (left + 1, t :: table, c :: cmd)
  | left, table, cmd => (left, table, cmd)

/-- `name_match` -/
def nameMatch (table cmd : List UInt8) (left : Nat) (allowHidden : Bool) : Bool :=
  if table.headD 0 = 62 ∨ allowHidden then
    let (left, table, cmd) := nameLoop left (table.drop 1) cmd
    decide (left = 0 ∨ table.headD 0 = 32 ∧ cmd.headD 0 = 0)
  else false

/-- The loop of `nk_complete` over the command table. -/
def completeLoop (s : List UInt8) (facmode : Bool) :
    List (List UInt8) → Int × Nat → Int × Nat
  | [], found => found
  | text :: texts, (matchChar, matchCount) =>
      let c : Int := (text.getD (1 + s.length) 0).toNat
      if nameMatch text s s.length facmode ∧ matchChar ≠ c then
        completeLoop s facmode texts (c, matchCount + 1)
      else completeLoop s facmode texts (matchChar, matchCount)

/-- `nk_complete`: the next character, `-1` for no match or `-2` for multiple
matches. -/
def nkComplete (commands : Commands) (s : List UInt8) : Int :=
  let (matchChar, matchCount) := completeLoop s commands.facmode commands.texts (-1, 0)
  -- Command could end with NUL or space
  if matchCount = 1 then if matchChar = 0 then 32 else matchChar
  else if matchCount = 0 then -1
  else -2

/-- How the handling of a character ends. -/
inductive Handled where
  /-- the editor waits for the next character -/
  | waits (s : Editor)
  /-- the callback is called with this line -/
  | entered (line : List UInt8) (s : Editor)
  /-- TAB completes a full line over and over -/
  | endless

/-- `if (tab_count) redraw()` -/
def redrawList (s : Editor) : Option Editor := if s.tabCount ≠ 0 then redraw s else some s

/-- The completion loop of `prompt_task`.  Every pass but the last types a
character, and passes that find the line full repeat themselves, so the loop does
not end when `lineSize + 1` passes are not enough. -/
def tabLoop (lineSize : Nat) (commands : Commands) : Nat → Editor → Option Handled
  | 0, _ => some .endless
  | fuel + 1, s => do
      let s ← terminate s
      let len ← Bytes.strlenAt s.ttyBuf 0
      let ch := nkComplete commands (s.ttyBuf.take len)
      let s ← redrawList s
      if ch = -1 then return .waits s
      else if ch = -2 then return .waits { s with tabCount := 2 }
      else
        let s ← typech lineSize (UInt8.ofNat ch.toNat) s
        if ch = 32 then return .waits s else tabLoop lineSize commands fuel s

/-- TAB behind a blank: help for the command in the edit buffer. -/
def tabHelp (s : Editor) : Option Editor := do
  let last ← sizeSub s.ttyLen 1
  let ttyBuf ← Bytes.store s.ttyBuf last 0
  let _ ← Bytes.strlenAt ttyBuf 0
  let ttyBuf ← Bytes.store ttyBuf last 32
  redraw { s with ttyBuf := ttyBuf }

/-- `tty_len && tty_buf[tty_len - 1] == ' '` -/
def endsInBlank (s : Editor) : Option Bool :=
  if s.ttyLen ≠ 0 then do
    let c ← s.ttyBuf[s.ttyLen - 1]?
    return decide (c = 32)
  else some false

/-- TAB -/
def tab (lineSize : Nat) (commands : Commands) (s : Editor) : Option Handled := do
  let blank ← endsInBlank s
  if blank then
    let s ← tabHelp s
    return .waits s
  else tabLoop lineSize commands (lineSize + 1) s

/-! ## The editor task -/

/-- A changed line goes into the history on `^C`. -/
def keepLine (histSize : Nat) (s : Editor) : Option Editor :=
  if s.changed ∧ s.ttyLen ≠ 0 then histIns histSize s.ttyBuf s else some s

/-- `^C` -/
def interrupt (histSize : Nat) (s : Editor) : Option Editor := do
  let s ← terminate s
  let s ← keepLine histSize s
  let s := { s with histIdx := s.histEnd }
  let s ← toEnd s
  return { s with ttyLen := 0, ttyCur := 0, changed := false }

/-- Delete original so that we don't get tons of history when you repeat the
same command repeatedly. -/
def dropOriginal (s : Editor) : Option Editor :=
  if !s.changed then do
    let (_, s) ← histDel s
    return s
  else some s

/-- The entered line goes to the end of the history. -/
def appendLine (histSize : Nat) (s : Editor) : Option Editor :=
  if s.ttyLen ≠ 0 then do
    -- This has effect of moving retrieved line to end of history
    let s ← dropOriginal s
    histIns histSize s.ttyBuf { s with histIdx := s.histEnd }
  else some s

/-- `CR` and `LF` -/
def enter (histSize : Nat) (s : Editor) : Option Handled := do
  let s ← toEnd s
  let s ← terminate s
  let s ← appendLine histSize s
  let s := { s with histIdx := s.histEnd, changed := false }
  let len ← Bytes.strlenAt s.ttyBuf 0
  return .entered (s.ttyBuf.take len) s

/-- A character in `mode == 0`. -/
def normalChar (lineSize histSize : Nat) (commands : Commands) (ch : UInt8) (s : Editor) :
    Option Handled :=
  if 32 ≤ ch ∧ ch ≤ 126 then (typech lineSize ch s).map .waits
  else if ch = 9 then tab lineSize commands s
  else if ch = 8 ∨ ch = 127 then
    (if s.ttyCur ≠ 0 then delch (curLeft s) else some s).map .waits
  else if ch = 4 then (if s.ttyCur ≠ s.ttyLen then delch s else some s).map .waits
  else if ch = 3 then (interrupt histSize s).map .waits
  else if ch = 5 then (toEnd s).map .waits
  else if ch = 1 then some (.waits (toBeg s))
  else if ch = 13 ∨ ch = 10 then enter histSize s
  else if ch = 16 then (histUp histSize s).map .waits
  else if ch = 14 then (histDown histSize s).map .waits
  else if ch = 2 then some (.waits (curLeft s))
  else if ch = 6 then (curRight s).map .waits
  else if ch = 27 then some (.waits { s with mode := 1 })
  -- Unknown char, ignore it
  else some (.waits s)

/-- The arrow keys. -/
def arrow (histSize : Nat) (ch : UInt8) (s : Editor) : Option Editor :=
  if ch = 65 then histUp histSize s
  else if ch = 66 then histDown histSize s
  else if ch = 67 then curRight s
  else if ch = 68 then some (curLeft s)
  else some s

/-- A character after `ESC [`. -/
def escapeChar (histSize : Nat) (ch : UInt8) (s : Editor) : Option Editor := do
  let s ← arrow histSize ch s
  return { s with mode := 0 }

/-- One pass of the loop of `prompt_task`. -/
def promptChar (lineSize histSize : Nat) (commands : Commands) (ch : UInt8) (s : Editor) :
    Option Handled :=
  let s := { s with tabCount := s.tabCount - 1 }
  if s.mode = 0 then normalChar lineSize histSize commands ch s
  else if s.mode = 1 then some (.waits { s with mode := if ch = 91 then 2 else 0 })
  else if s.mode = 2 then (escapeChar histSize ch s).map .waits
  else some (.waits s)

/-- `prompt_task` for the characters there are to get; the rest is left to the
next activation once a line is entered. -/
def promptTask (lineSize histSize : Nat) (commands : Commands) :
    List UInt8 → Editor → Option Handled
  | [], s => some (.waits s)
  | ch :: chars, s => do
      let handled ← promptChar lineSize histSize commands ch s
      match handled with
      | .waits s => promptTask lineSize histSize commands chars s
      | handled => return handled

/-- `nk_readline` -/
def nkReadline (s : Editor) : Editor := { s with ttyCur := 0, ttyLen := 0, changed := false }

end LibnklabsPico.Readline
