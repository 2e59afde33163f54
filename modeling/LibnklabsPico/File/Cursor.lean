/-
  File/Cursor.lean --- an input file behaves as a plain file.

  A plain file is its bytes and a position.  `Agrees` ties the window of an
  `nkinfile_t` to it; every operation keeps it and gives the same answer on both
  sides.
-/
import LibnklabsPico.File.Nkinfile
import LibnklabsPico.Foundation.Align

set_option autoImplicit false

namespace LibnklabsPico.File

open LibnklabsPico.Foundation

/-- A plain file. -/
structure Cursor where
  bytes : List UInt8
  pos : Nat

namespace Cursor

/-- The byte at the current position, or `-1` at end of file. -/
def peek (c : Cursor) : Int :=
  match c.bytes[c.pos]? with
  | some b => b.toNat
  | none => -1

def seek (c : Cursor) (n : Nat) : Cursor := { c with pos := n }

/-- Seek and read the byte there. -/
def seekPeek (c : Cursor) (n : Nat) : Int × Cursor := ((c.seek n).peek, c.seek n)

def atEnd (c : Cursor) : Bool := c.pos == c.bytes.length

end Cursor

/-- The operations on an input file. -/
inductive FileOp where
  | tell
  | feof
  | seek (n : Nat)
  | seekRel (n : Int)
  | peek
  | peekRel (n : Int)
  | next
  | getc
  | seekFast (n : Nat)
  | peekFast
  | nextFast
  | getcFast

variable {w : Nat}

namespace FileOp

/-- An operation on an `nkinfile_t`, with its result as an integer. -/
def exec (op : FileOp) (f : Nkinfile w) : Int × Nkinfile w :=
  match op with
  | .tell => (nkFtell f, f)
  | .feof => (if nkFeof f then 1 else 0, f)
  | .seek n => nkFseek f n
  | .seekRel n => nkFseekRel f n
  | .peek => (nkFpeek f, f)
  | .peekRel n => nkFpeekRel f n
  | .next => nkFnext f
  | .getc => nkFgetc f
  | .seekFast n => nkFseekFast f n
  | .peekFast => (nkFpeekFast f, f)
  | .nextFast => nkFnextFast f
  | .getcFast => nkFgetcFast f

/-- The same operation on a plain file. -/
def execPlain (op : FileOp) (c : Cursor) : Int × Cursor :=
  match op with
  | .tell => (c.pos, c)
  | .feof => (if c.atEnd then 1 else 0, c)
  | .seek n | .seekFast n => c.seekPeek n
  | .seekRel n => c.seekPeek (c.pos + n).toNat
  | .peek | .peekFast => (c.peek, c)
  | .peekRel n => ((c.seek (c.pos + n).toNat).peek, c)
  | .next | .nextFast => if c.atEnd then (-1, c) else c.seekPeek (c.pos + 1)
  | .getc | .getcFast => if c.atEnd then (-1, c) else (c.peek, c.seek (c.pos + 1))

/-- What the caller has to see to: targets between the start and the end of the
file, the fast operations away from its end. -/
def Allowed (op : FileOp) (c : Cursor) : Prop :=
  match op with
  | .tell | .feof | .peek | .next | .getc => True
  | .seek n => n ≤ c.bytes.length
  | .seekRel n | .peekRel n => 0 ≤ c.pos + n ∧ c.pos + n ≤ c.bytes.length
  | .seekFast n => n ≤ c.bytes.length
  | .peekFast | .nextFast | .getcFast => c.pos < c.bytes.length

/-- `nk_fseek_fast` also asks for a target within the current buffer. -/
def InBuffer (op : FileOp) (f : Nkinfile w) : Prop :=
  match op with
  | .seekFast n => nkContained f n = true
  | _ => True

end FileOp

/-! ## The window -/

/-- Where the window of a file comes from: the whole file is in memory, or the
blocks of a device are read on demand. -/
def Source (content : List UInt8) (f : Nkinfile w) : Prop :=
  match f.blockRead with
  | none => f.blockSize = 0 ∧ f.startOffset = 0 ∧ f.len = content.length
  | some blockRead => ∃ k < w, f.blockSize = 2 ^ k ∧
      ∀ pos ≤ content.length, 2 ^ k ∣ pos →
        blockRead pos (2 ^ k) = (content.drop pos).take (2 ^ k)

/-- The current buffer holds a part of the file, wherever the current pointer
is. -/
structure Window (content : List UInt8) (f : Nkinfile w) : Prop where
  size_lt : content.length < 2 ^ w
  fits : f.startOffset + f.len ≤ content.length
  data : f.start.take f.len = (content.drop f.startOffset).take f.len
  endPtr_eq : f.endPtr = f.len
  source : Source content f

/-- The window shows the position of the plain file, and it ends there only at
the end of the file. -/
structure Agrees (f : Nkinfile w) (c : Cursor) : Prop where
  window : Window c.bytes f
  pos_eq : c.pos = f.startOffset + f.ptr
  ptr_le : f.ptr ≤ f.len
  at_end : f.ptr = f.len → c.pos = c.bytes.length

namespace Window

variable {content : List UInt8} {f : Nkinfile w}

/-- The window does not depend on the current pointer. -/
theorem setPtr (window : Window content f) (p : Nat) :
    Window content (f.setPtr p) :=
  ⟨window.size_lt, window.fits, window.data, window.endPtr_eq, window.source⟩

theorem wrap_end (window : Window content f) :
    wrap w (f.startOffset + f.len) = f.startOffset + f.len := by
  exact_mod_cast wrap_natCast (lt_of_le_of_lt window.fits window.size_lt)

/-- A byte of the window is a byte of the file. -/
theorem deref_eq (window : Window content f) {i : Nat} (hi : i < f.len) :
    f.deref i = Cursor.peek ⟨content, f.startOffset + i⟩ := by
  have hfits := window.fits
  have hbyte : f.start[i]? = content[f.startOffset + i]? := by
    have := congrArg (fun l : List UInt8 => l[i]?) window.data
    simpa [List.getElem?_take_of_lt hi] using this
  have hlt : f.startOffset + i < content.length := by omega
  rw [List.getElem?_eq_getElem hlt] at hbyte
  simp [Nkinfile.deref, Cursor.peek, hbyte, List.getElem?_eq_getElem hlt]

/-- Pointing into the window. -/
theorem agrees (window : Window content f) {i : Nat} (hi : i < f.len) :
    Agrees (f.setPtr i) ⟨content, f.startOffset + i⟩ :=
  ⟨window.setPtr i, rfl, Nat.le_of_lt hi, fun h => absurd h (Nat.ne_of_lt hi)⟩

end Window

theorem Cursor.peek_of_le {content : List UInt8} {n : Nat} (h : content.length ≤ n) :
    Cursor.peek ⟨content, n⟩ = -1 := by
  simp [Cursor.peek, List.getElem?_eq_none h]

/-- There is nothing to read for a file in memory. -/
theorem fill_mem {f : Nkinfile w} (hread : f.blockRead = none) (hend : f.endPtr = f.len) :
    f.fill = f := by
  cases f
  simp_all [Nkinfile.fill]

/-- A block read at a block boundary of the file. -/
theorem fill_window {content : List UInt8} {f : Nkinfile w}
    {blockRead : Nat → Nat → List UInt8} {k : Nat} (hsize : content.length < 2 ^ w)
    (hread : f.blockRead = some blockRead) (hk : k < w) (hblock : f.blockSize = 2 ^ k)
    (hdata : ∀ pos ≤ content.length, 2 ^ k ∣ pos →
      blockRead pos (2 ^ k) = (content.drop pos).take (2 ^ k))
    (hpos : f.startOffset ≤ content.length) (haligned : 2 ^ k ∣ f.startOffset) :
    Window content f.fill ∧ f.fill.startOffset = f.startOffset ∧
      f.fill.len = min (2 ^ k) (content.length - f.startOffset) := by
  have hlen : f.fill.len = min (2 ^ k) (content.length - f.startOffset) := by
    simp [Nkinfile.fill, Nkinfile.load, hread, hblock, hdata _ hpos haligned]
  have hoffset : f.fill.startOffset = f.startOffset := by
    simp [Nkinfile.fill, Nkinfile.load, hread]
  refine ⟨⟨hsize, by omega, ?_, rfl, ?_⟩, hoffset, hlen⟩
  · rw [hlen, hoffset]
    simp [Nkinfile.fill, Nkinfile.load, hread, hblock, hdata _ hpos haligned]
  · simpa [Source, Nkinfile.fill, Nkinfile.load, hread] using ⟨k, hk, hblock, hdata⟩

/-- The end of `nk_fseek_slow`: an offset in the window, or right behind it at
the end of the file. -/
theorem Window.point {content : List UInt8} {f : Nkinfile w} (window : Window content f)
    {offset pos : Nat} (hpos : pos = f.startOffset + offset)
    (hend : f.len ≤ offset → offset = f.len ∧ pos = content.length) :
    (if offset < f.len then
        (f.deref offset, f.setPtr offset)
      else (-1, f.setPtr f.len)).1 = Cursor.peek ⟨content, pos⟩ ∧
    Agrees (if offset < f.len then
        (f.deref offset, f.setPtr offset)
      else (-1, f.setPtr f.len)).2 ⟨content, pos⟩ := by
  split
  · rename_i hin
    rw [hpos]
    exact ⟨window.deref_eq hin, window.agrees hin⟩
  · rename_i hout
    obtain ⟨hlast, heof⟩ := hend (Nat.le_of_not_lt hout)
    exact ⟨(Cursor.peek_of_le (Nat.le_of_eq heof.symm)).symm, window.setPtr _,
      by rw [hpos, hlast]; rfl, Nat.le_refl _, fun _ => heof⟩

/-- Reading the block of a position leaves a window with that position in it or,
at the end of the file, right behind it. -/
theorem nkFseekSlow_spec {content : List UInt8} {f : Nkinfile w}
    (window : Window content f) {pos : Nat} (hpos : pos ≤ content.length) :
    (nkFseekSlow f pos).1 = Cursor.peek ⟨content, pos⟩ ∧
      Agrees (nkFseekSlow f pos).2 ⟨content, pos⟩ := by
  have hlt : pos < 2 ^ w := lt_of_le_of_lt hpos window.size_lt
  have hfits := window.fits
  unfold nkFseekSlow
  rw [window.wrap_end]
  split
  · rename_i hin
    have hi : pos - f.startOffset < f.len := by omega
    have hback : f.startOffset + (pos - f.startOffset) = pos := by omega
    have hderef := window.deref_eq hi
    have hagrees := window.agrees hi
    rw [hback] at hderef hagrees
    exact ⟨hderef, hagrees⟩
  · rename_i hout
    have hsource := window.source
    unfold Source at hsource
    cases hread : f.blockRead with
    | none =>
        -- a file in memory: only its end is outside the window
        rw [hread] at hsource
        obtain ⟨hsize, hoffset, hlen⟩ := hsource
        have hmask : pos &&& wrap w ((f.blockSize : Int) - 1) = pos := by
          rw [hsize, Int.natCast_zero, Int.zero_sub, wrap_neg_one]
          exact Nat.and_two_pow_sub_one_of_lt_two_pow hlt
        have hstart : wrap w ((pos : Int) - (pos : Nat)) = f.startOffset := by
          rw [wrap_sub (Nat.le_refl pos) hlt, Nat.sub_self, hoffset]
        have hfill : (f.setOffset f.startOffset).fill = f :=
          fill_mem hread window.endPtr_eq
        have hend : f.len ≤ pos → pos = f.len ∧ pos = content.length := by omega
        have hat : pos = f.startOffset + pos := by omega
        simp only [hmask, hstart, hfill]
        exact window.point hat hend
    | some blockRead =>
        rw [hread] at hsource
        obtain ⟨k, hk, hsize, hdata⟩ := hsource
        have hmask : pos &&& wrap w ((f.blockSize : Int) - 1) = pos % 2 ^ k := by
          rw [hsize, and_mask hk]
        have hmod : pos % 2 ^ k ≤ pos := Nat.mod_le pos _
        have hstart : wrap w ((pos : Int) - (pos % 2 ^ k : Nat)) = pos - pos % 2 ^ k :=
          wrap_sub hmod hlt
        obtain ⟨hwindow, hoffset, hlen⟩ :=
          fill_window (f := f.setOffset (pos - pos % 2 ^ k)) window.size_lt hread hk
            hsize hdata (le_trans (Nat.sub_le pos _) hpos) (Nat.dvd_sub_mod pos)
        have hrem : pos % 2 ^ k < 2 ^ k := Nat.mod_lt pos (by positivity)
        simp only [hmask, hstart]
        refine hwindow.point ?_ ?_
        · rw [hoffset]
          exact (Nat.sub_add_cancel hmod).symm
        · rw [hlen]
          simp only [Nkinfile.setOffset]
          omega

/-! ## The operations -/

namespace Agrees

variable {f : Nkinfile w} {c : Cursor}

theorem pos_le (agrees : Agrees f c) : c.pos ≤ c.bytes.length := by
  have hfits := agrees.window.fits
  have hptr := agrees.ptr_le
  rw [agrees.pos_eq]
  omega

theorem nkFtell_eq (agrees : Agrees f c) : nkFtell f = c.pos := by
  have hlt := lt_of_le_of_lt agrees.pos_le agrees.window.size_lt
  unfold nkFtell
  rw [agrees.pos_eq] at hlt ⊢
  exact_mod_cast wrap_natCast hlt

/-- The pointer is at the end of the window exactly at the end of the file. -/
theorem atEnd_iff (agrees : Agrees f c) : f.ptr = f.endPtr ↔ c.pos = c.bytes.length := by
  have hfits := agrees.window.fits
  have hptr := agrees.ptr_le
  rw [agrees.window.endPtr_eq]
  refine ⟨agrees.at_end, fun hpos => ?_⟩
  rw [agrees.pos_eq] at hpos
  omega

theorem nkFeof_eq (agrees : Agrees f c) : nkFeof f = c.atEnd := by
  simp only [nkFeof, Cursor.atEnd, Bool.beq_eq_decide_eq, agrees.atEnd_iff]

theorem ptr_lt (agrees : Agrees f c) (hpos : c.pos < c.bytes.length) : f.ptr < f.len :=
  lt_of_le_of_ne agrees.ptr_le fun h => Nat.ne_of_lt hpos (agrees.at_end h)

theorem nkFpeekFast_eq (agrees : Agrees f c) (hpos : c.pos < c.bytes.length) :
    nkFpeekFast f = c.peek := by
  have hderef := agrees.window.deref_eq (agrees.ptr_lt hpos)
  rwa [← agrees.pos_eq] at hderef

theorem nkFpeek_eq (agrees : Agrees f c) : nkFpeek f = c.peek := by
  unfold nkFpeek
  rw [agrees.nkFeof_eq]
  by_cases hend : c.pos = c.bytes.length
  · simp [Cursor.atEnd, hend, Cursor.peek]
  · simp [Cursor.atEnd, hend, agrees.nkFpeekFast_eq (lt_of_le_of_ne agrees.pos_le hend)]

/-- A target within the current buffer is reached without reading. -/
theorem nkFseekFast_spec (window : Window c.bytes f) {n : Nat} (hin : nkContained f n = true) :
    (nkFseekFast f n).1 = (c.seek n).peek ∧ Agrees (nkFseekFast f n).2 (c.seek n) := by
  simp only [nkContained, window.wrap_end, Bool.and_eq_true, decide_eq_true_eq] at hin
  have hi : n - f.startOffset < f.len := by omega
  have hback : f.startOffset + (n - f.startOffset) = n := by omega
  have hderef := window.deref_eq hi
  have hagrees := window.agrees hi
  rw [hback] at hderef hagrees
  exact ⟨hderef, hagrees⟩

theorem nkFseek_spec (agrees : Agrees f c) {n : Nat} (hn : n ≤ c.bytes.length) :
    (nkFseek f n).1 = (c.seek n).peek ∧ Agrees (nkFseek f n).2 (c.seek n) := by
  unfold nkFseek
  split
  · rename_i hin
    exact nkFseekFast_spec agrees.window hin
  · exact nkFseekSlow_spec agrees.window hn

/-- A relative target is its distance from the start. -/
theorem wrap_rel (agrees : Agrees f c) {n : Int} (hlow : 0 ≤ c.pos + n)
    (hhigh : c.pos + n ≤ c.bytes.length) : wrap w (nkFtell f + n) = (c.pos + n).toNat := by
  have hsize := agrees.window.size_lt
  rw [agrees.nkFtell_eq]
  obtain ⟨target, htarget⟩ := Int.eq_ofNat_of_zero_le hlow
  rw [htarget, Int.toNat_natCast]
  exact wrap_natCast (by omega)

theorem nkFpeekRel_spec (agrees : Agrees f c) {n : Int} (hlow : 0 ≤ c.pos + n)
    (hhigh : c.pos + n ≤ c.bytes.length) :
    (nkFpeekRel f n).1 = (c.seek (c.pos + n).toNat).peek ∧ Agrees (nkFpeekRel f n).2 c := by
  have hpos := agrees.pos_eq
  have htarget : (c.pos + n).toNat ≤ c.bytes.length := by omega
  unfold nkFpeekRel
  rw [agrees.wrap_rel hlow hhigh]
  split
  · rename_i hin
    simp only [nkContained, agrees.window.wrap_end, Bool.and_eq_true, decide_eq_true_eq] at hin
    have hi : (f.ptr + n).toNat < f.len := by omega
    have hback : f.startOffset + (f.ptr + n).toNat = (c.pos + n).toNat := by omega
    have hderef := agrees.window.deref_eq hi
    rw [hback] at hderef
    exact ⟨hderef, agrees⟩
  · obtain ⟨hthere, hagrees⟩ := agrees.nkFseek_spec htarget
    have hreturn := (hagrees.nkFseek_spec (n := nkFtell f)
      (by rw [agrees.nkFtell_eq]; exact agrees.pos_le)).2
    refine ⟨hthere, ?_⟩
    simpa [agrees.nkFtell_eq, Cursor.seek] using hreturn

/-- Advancing by one. -/
theorem nkFnextFast_spec (agrees : Agrees f c) (hpos : c.pos < c.bytes.length) :
    (nkFnextFast f).1 = (c.seek (c.pos + 1)).peek ∧
      Agrees (nkFnextFast f).2 (c.seek (c.pos + 1)) := by
  have hptr := agrees.ptr_lt hpos
  have hat := agrees.pos_eq
  have window := agrees.window.setPtr (f.ptr + 1)
  unfold nkFnextFast
  dsimp only
  split
  · rename_i hend
    have hlast : f.startOffset + f.len = c.pos + 1 := by
      have := hend.trans window.endPtr_eq
      simp only [Nkinfile.setPtr] at this
      omega
    rw [window.wrap_end]
    simp only [Nkinfile.setPtr, hlast]
    exact nkFseekSlow_spec window (Nat.succ_le_of_lt hpos)
  · rename_i hin
    have hi : f.ptr + 1 < f.len := by
      rw [window.endPtr_eq] at hin
      simp only [Nkinfile.setPtr] at hin
      omega
    have hback : f.startOffset + (f.ptr + 1) = c.pos + 1 := by omega
    have hderef := window.deref_eq hi
    have hagrees := agrees.window.agrees hi
    simp only [Nkinfile.setPtr, hback] at hderef hagrees
    exact ⟨hderef, hagrees⟩

theorem nkFgetcFast_spec (agrees : Agrees f c) (hpos : c.pos < c.bytes.length) :
    (nkFgetcFast f).1 = c.peek ∧ Agrees (nkFgetcFast f).2 (c.seek (c.pos + 1)) := by
  have hnext := (agrees.nkFnextFast_spec hpos).2
  have hpeek := agrees.nkFpeekFast_eq hpos
  unfold nkFgetcFast
  unfold nkFnextFast at hnext
  dsimp only at hnext ⊢
  split
  · rename_i hend
    rw [if_pos (by simpa [nkFeof] using hend)] at hnext
    exact ⟨hpeek, hnext⟩
  · rename_i hend
    rw [if_neg (by simpa [nkFeof] using hend)] at hnext
    exact ⟨hpeek, hnext⟩

end Agrees

/-- Every operation gives the same result on the input file and on the plain
file, and keeps them in agreement. -/
theorem exec_spec {f : Nkinfile w} {c : Cursor} (agrees : Agrees f c) (op : FileOp)
    (allowed : op.Allowed c) (inBuffer : op.InBuffer f) :
    (op.exec f).1 = (op.execPlain c).1 ∧ Agrees (op.exec f).2 (op.execPlain c).2 := by
  have hfeof := agrees.nkFeof_eq
  cases op with
  | tell => exact ⟨by simp [FileOp.exec, FileOp.execPlain, agrees.nkFtell_eq], agrees⟩
  | feof => exact ⟨by simp [FileOp.exec, FileOp.execPlain, hfeof], agrees⟩
  | seek n => exact agrees.nkFseek_spec allowed
  | seekRel n =>
      obtain ⟨hlow, hhigh⟩ := allowed
      simp only [FileOp.exec, nkFseekRel, agrees.wrap_rel hlow hhigh]
      exact agrees.nkFseek_spec (by omega)
  | peek => exact ⟨agrees.nkFpeek_eq, agrees⟩
  | peekRel n => exact agrees.nkFpeekRel_spec allowed.1 allowed.2
  | next =>
      simp only [FileOp.exec, FileOp.execPlain, nkFnext, hfeof]
      split
      · exact ⟨rfl, agrees⟩
      · rename_i hend
        simp only [Cursor.atEnd, beq_iff_eq] at hend
        exact agrees.nkFnextFast_spec (lt_of_le_of_ne agrees.pos_le hend)
  | getc =>
      simp only [FileOp.exec, FileOp.execPlain, nkFgetc, hfeof]
      split
      · exact ⟨rfl, agrees⟩
      · rename_i hend
        simp only [Cursor.atEnd, beq_iff_eq] at hend
        exact agrees.nkFgetcFast_spec (lt_of_le_of_ne agrees.pos_le hend)
  | seekFast n => exact Agrees.nkFseekFast_spec agrees.window inBuffer
  | peekFast => exact ⟨agrees.nkFpeekFast_eq allowed, agrees⟩
  | nextFast =>
      have hend : ¬ c.pos = c.bytes.length := Nat.ne_of_lt allowed
      simp only [FileOp.exec, FileOp.execPlain, Cursor.atEnd, beq_iff_eq, hend, if_false]
      exact agrees.nkFnextFast_spec allowed
  | getcFast =>
      have hend : ¬ c.pos = c.bytes.length := Nat.ne_of_lt allowed
      simp only [FileOp.exec, FileOp.execPlain, Cursor.atEnd, beq_iff_eq, hend, if_false]
      exact agrees.nkFgetcFast_spec allowed

/-! ## Whole runs -/

/-- An input file and the plain file it stands for, after it was opened in one
of the three ways and any allowed operations. -/
inductive Run (w : Nat) : Nkinfile w → Cursor → Prop where
  | openMem (content behind : List UInt8) (hsize : content.length < 2 ^ w) :
      Run w (nkinfileOpenMem w (content ++ behind) content.length) ⟨content, 0⟩
  | openString (content behind : List UInt8) (hsize : content.length < 2 ^ w)
      (hnul : ∀ b ∈ content, b ≠ 0) :
      Run w (nkinfileOpenString w (content ++ 0 :: behind)) ⟨content, 0⟩
  | openBlocks (content buffer : List UInt8) (blockRead : Nat → Nat → List UInt8) (k : Nat)
      (hsize : content.length < 2 ^ w) (hk : k < w)
      (hread : ∀ pos ≤ content.length, 2 ^ k ∣ pos →
        blockRead pos (2 ^ k) = (content.drop pos).take (2 ^ k)) :
      Run w (nkinfileOpen w (some blockRead) (2 ^ k) buffer) ⟨content, 0⟩
  | op {f : Nkinfile w} {c : Cursor} (before : Run w f c) (op : FileOp)
      (allowed : op.Allowed c) (inBuffer : op.InBuffer f) :
      Run w (op.exec f).2 (op.execPlain c).2

theorem nkinfileOpenMem_agrees (content behind : List UInt8) (hsize : content.length < 2 ^ w) :
    Agrees (nkinfileOpenMem w (content ++ behind) content.length) ⟨content, 0⟩ :=
  ⟨⟨hsize, by simp [nkinfileOpenMem], by simp [nkinfileOpenMem], rfl, ⟨rfl, rfl, rfl⟩⟩, rfl,
    Nat.zero_le _, id⟩

theorem strlen_eq {content : List UInt8} (behind : List UInt8)
    (hnul : ∀ b ∈ content, b ≠ 0) : strlen (content ++ 0 :: behind) = content.length := by
  rw [strlen, List.takeWhile_append_of_pos (by simpa using hnul)]
  simp

theorem nkinfileOpen_agrees {content : List UInt8} (buffer : List UInt8)
    {blockRead : Nat → Nat → List UInt8} {k : Nat} (hsize : content.length < 2 ^ w)
    (hk : k < w) (hread : ∀ pos ≤ content.length, 2 ^ k ∣ pos →
      blockRead pos (2 ^ k) = (content.drop pos).take (2 ^ k)) :
    Agrees (nkinfileOpen w (some blockRead) (2 ^ k) buffer) ⟨content, 0⟩ := by
  let f : Nkinfile w :=
    { start := buffer, ptr := 0, endPtr := 0, len := 2 ^ k, startOffset := 0
      blockRead := some blockRead, blockSize := 2 ^ k }
  obtain ⟨hwindow, -, hlen⟩ :=
    fill_window (f := f) hsize rfl hk rfl hread (Nat.zero_le _) (Nat.dvd_zero _)
  have hpos : 0 < 2 ^ k := by positivity
  refine ⟨hwindow, rfl, Nat.zero_le _, fun hempty => ?_⟩
  have hzero : min (2 ^ k) (content.length - 0) = 0 := hlen.symm.trans hempty.symm
  dsimp only
  omega

theorem Run.agrees {f : Nkinfile w} {c : Cursor} (h : Run w f c) : Agrees f c := by
  induction h with
  | openMem content behind hsize => exact nkinfileOpenMem_agrees content behind hsize
  | openString content behind hsize hnul =>
      rw [nkinfileOpenString, strlen_eq behind hnul]
      exact nkinfileOpenMem_agrees content (0 :: behind) hsize
  | openBlocks content buffer blockRead k hsize hk hread =>
      exact nkinfileOpen_agrees buffer hsize hk hread
  | op _ op allowed inBuffer ih => exact (exec_spec ih op allowed inBuffer).2

/-- In every state a run leads to the input file is at the position of the plain
file, its pointer is at the end of the window exactly at the end of the file, it
peeks `-1` exactly there, and every operation gives the result of the plain
file. -/
theorem run_plainFile {f : Nkinfile w} {c : Cursor} (h : Run w f c) :
    (f.ptr = f.endPtr ↔ c.pos = c.bytes.length) ∧
      nkFtell f = c.pos ∧ c.pos ≤ c.bytes.length ∧
      (nkFpeek f = -1 ↔ c.pos = c.bytes.length) ∧
      ∀ op : FileOp, op.Allowed c → op.InBuffer f → (op.exec f).1 = (op.execPlain c).1 := by
  have agrees := h.agrees
  refine ⟨agrees.atEnd_iff, agrees.nkFtell_eq, agrees.pos_le, ?_,
    fun op allowed inBuffer => (exec_spec agrees op allowed inBuffer).1⟩
  have hle := agrees.pos_le
  rw [agrees.nkFpeek_eq, Cursor.peek]
  cases hbyte : c.bytes[c.pos]? with
  | none =>
      have := List.getElem?_eq_none_iff.mp hbyte
      simp only [true_iff]
      omega
  | some b =>
      obtain ⟨hlt, -⟩ := List.getElem?_eq_some_iff.mp hbyte
      simp only
      omega

/-- A device with one full block, at its end after two characters. -/
theorem run_plainFile_oneBlock :
    ∃ f : Nkinfile 32, Run 32 f ⟨[65, 66], 2⟩ ∧ nkFpeek f = -1 ∧
      (FileOp.seekRel (-1)).exec f = (66, (nkFseekRel f (-1)).2) := by
  have hrun : Run 32 _ ⟨[65, 66], 2⟩ :=
    .op (.op (.openBlocks [65, 66] [0, 0] (fun pos size => ([65, 66].drop pos).take size) 1
      (by decide) (by decide) (fun _ _ _ => rfl)) .getc trivial trivial) .next trivial trivial
  obtain ⟨-, -, -, hpeek, hops⟩ := run_plainFile hrun
  refine ⟨_, hrun, hpeek.mpr rfl, Prod.ext ?_ rfl⟩
  exact hops (.seekRel (-1)) ⟨by decide, by decide⟩ trivial

end LibnklabsPico.File
