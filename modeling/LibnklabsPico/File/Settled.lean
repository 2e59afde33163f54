/-
  File/Settled.lean --- the window of a block device, and what is behind it.

  In every reachable state the window of a block device is the whole block that holds
  the position (`Settled`), so the position alone determines it.  The position does not
  determine the memory behind a short last block, where bytes of the block that was
  there before are left: `setStart` changes this memory, and the operations that
  seek move in the same way over any such memory (`nkFseekSlow_setStart`).
-/
import LibnklabsPico.File.Cursor
import LibnklabsPico.Foundation.Align

set_option autoImplicit false

namespace LibnklabsPico.File

open LibnklabsPico.Foundation

variable {w : Nat}

/-- The read function and the block size of a file. -/
abbrev BlockDevice := Option (Nat → Nat → List UInt8) × Nat

/-- The window of a block device is one of its blocks; the last one may be
shorter. -/
structure OnBlock (device : BlockDevice) (size : Nat) (f : Nkinfile w) : Prop where
  device_eq : (f.blockRead, f.blockSize) = device
  aligned : f.blockRead ≠ none → f.blockSize ∣ f.startOffset
  len_eq : f.blockRead ≠ none → f.len = min f.blockSize (size - f.startOffset)

/-- The current position belongs to that block. -/
structure Settled (device : BlockDevice) (size : Nat) (f : Nkinfile w) : Prop
    extends OnBlock device size f where
  ptr_lt : f.blockRead ≠ none → f.ptr < f.blockSize

section Settled

variable {device : BlockDevice} {f f' : Nkinfile w} {c : Cursor} {size : Nat}

theorem OnBlock.setPtr (on : OnBlock device size f) (p : Nat) :
    OnBlock device size (f.setPtr p) :=
  ⟨on.device_eq, on.aligned, on.len_eq⟩

/-- A position within the window belongs to its block. -/
theorem OnBlock.settled (on : OnBlock device size f) {p : Nat} (hp : p < f.len) :
    Settled device size (f.setPtr p) := by
  refine ⟨on.setPtr p, fun hblock => ?_⟩
  have hlen := on.len_eq hblock
  simp only [Nkinfile.setPtr]
  omega

@[simp] theorem Nkinfile.blockRead_fill (f : Nkinfile w) : f.fill.blockRead = f.blockRead := by
  unfold Nkinfile.fill
  dsimp only
  split <;> rfl

@[simp] theorem Nkinfile.blockSize_fill (f : Nkinfile w) : f.fill.blockSize = f.blockSize := by
  unfold Nkinfile.fill
  dsimp only
  split <;> rfl

theorem nkFseekSlow_settled {content : List UInt8} (window : Window content f)
    (on : OnBlock device content.length f) {pos : Nat} (hpos : pos ≤ content.length) :
    Settled device content.length (nkFseekSlow f pos).2 := by
  have hlt : pos < 2 ^ w := lt_of_le_of_lt hpos window.size_lt
  unfold nkFseekSlow
  rw [window.wrap_end]
  split
  · exact on.settled (by omega)
  · cases hread : f.blockRead with
    | none =>
        have hnone (g : Nkinfile w) (hg : (g.blockRead, g.blockSize) = device) :
            Settled device content.length g := by
          have hmem : g.blockRead = none := by
            rw [← on.device_eq, hread] at hg
            exact (Prod.mk.inj hg).1
          exact ⟨⟨hg, fun h => absurd hmem h, fun h => absurd hmem h⟩, fun h => absurd hmem h⟩
        dsimp only
        split <;>
          exact hnone _ (by simpa [Nkinfile.setPtr, Nkinfile.setOffset] using on.device_eq)
    | some blockRead =>
        have hsource := window.source
        unfold Source at hsource
        rw [hread] at hsource
        obtain ⟨k, hk, hsize, hdata⟩ := hsource
        have hmask : pos &&& wrap w ((f.blockSize : Int) - 1) = pos % 2 ^ k := by
          rw [hsize, and_mask hk]
        have hstart : wrap w ((pos : Int) - (pos % 2 ^ k : Nat)) = pos - pos % 2 ^ k :=
          wrap_sub (Nat.mod_le pos _) hlt
        obtain ⟨-, hoffset, hlen⟩ :=
          fill_window (f := f.setOffset (pos - pos % 2 ^ k)) window.size_lt hread hk
            hsize hdata (le_trans (Nat.sub_le pos _) hpos) (Nat.dvd_sub_mod pos)
        have hrem : pos % 2 ^ k < 2 ^ k := Nat.mod_lt pos (by positivity)
        have hon : OnBlock device content.length (f.setOffset (pos - pos % 2 ^ k)).fill := by
          refine ⟨by simpa [Nkinfile.setOffset] using on.device_eq, fun _ => ?_, fun _ => ?_⟩
          · rw [hoffset, Nkinfile.blockSize_fill]
            exact hsize ▸ Nat.dvd_sub_mod pos
          · rw [hlen, hoffset, Nkinfile.blockSize_fill]
            exact congrArg (fun b => min b _) hsize.symm
        simp only [hmask, hstart]
        split
        · rename_i hin
          exact hon.settled hin
        · rename_i hout
          refine ⟨hon.setPtr _, fun _ => ?_⟩
          have hblock : (f.setOffset (pos - pos % 2 ^ k)).fill.blockSize = 2 ^ k := by
            simpa [Nkinfile.setOffset] using hsize
          simp only [Nkinfile.setPtr, hblock]
          omega

theorem nkFseek_settled (agrees : Agrees f c) (on : OnBlock device c.bytes.length f) {n : Nat}
    (hn : n ≤ c.bytes.length) : Settled device c.bytes.length (nkFseek f n).2 := by
  unfold nkFseek
  split
  · rename_i hin
    simp only [nkContained, agrees.window.wrap_end, Bool.and_eq_true, decide_eq_true_eq] at hin
    exact on.settled (by omega)
  · exact nkFseekSlow_settled agrees.window on hn

theorem nkFnextFast_settled (agrees : Agrees f c) (on : OnBlock device c.bytes.length f)
    (hpos : c.pos < c.bytes.length) : Settled device c.bytes.length (nkFnextFast f).2 := by
  have hptr := agrees.ptr_lt hpos
  have window := agrees.window.setPtr (f.ptr + 1)
  unfold nkFnextFast
  dsimp only
  split
  · refine nkFseekSlow_settled window (on.setPtr _) ?_
    rw [window.wrap_end]
    exact window.fits
  · rename_i hin
    refine on.settled ?_
    rw [window.endPtr_eq] at hin
    simp only [Nkinfile.setPtr] at hin
    omega

/-- `nk_fgetc_fast` moves as `nk_fnext_fast` does. -/
theorem nkFgetcFast_snd (f : Nkinfile w) : (nkFgetcFast f).2 = (nkFnextFast f).2 := by
  simp only [nkFgetcFast, nkFnextFast, nkFeof, beq_iff_eq]
  split <;> rfl

/-- Every operation leaves the window on the block of the position. -/
theorem exec_settled (agrees : Agrees f c) (settled : Settled device c.bytes.length f)
    (op : FileOp) (allowed : op.Allowed c) (inBuffer : op.InBuffer f) :
    Settled device c.bytes.length (op.exec f).2 := by
  have hfeof := agrees.nkFeof_eq
  have hnext (hend : ¬ c.atEnd = true) : c.pos < c.bytes.length := by
    simp only [Cursor.atEnd, beq_iff_eq] at hend
    exact lt_of_le_of_ne agrees.pos_le hend
  cases op with
  | tell | feof | peek | peekFast => exact settled
  | seek n => exact nkFseek_settled agrees settled.toOnBlock allowed
  | seekRel n =>
      obtain ⟨hlow, hhigh⟩ := allowed
      simp only [FileOp.exec, nkFseekRel, agrees.wrap_rel hlow hhigh]
      exact nkFseek_settled agrees settled.toOnBlock (by omega)
  | peekRel n =>
      obtain ⟨hlow, hhigh⟩ := allowed
      have htarget : (c.pos + n).toNat ≤ c.bytes.length := by omega
      simp only [FileOp.exec, nkFpeekRel, agrees.wrap_rel hlow hhigh]
      split
      · exact settled
      · have hthere := (agrees.nkFseek_spec htarget).2
        refine nkFseek_settled hthere
          (nkFseek_settled agrees settled.toOnBlock htarget).toOnBlock ?_
        rw [agrees.nkFtell_eq]
        exact agrees.pos_le
  | next =>
      simp only [FileOp.exec, nkFnext, hfeof]
      split
      · exact settled
      · rename_i hend
        exact nkFnextFast_settled agrees settled.toOnBlock (hnext hend)
  | getc =>
      simp only [FileOp.exec, nkFgetc, hfeof]
      split
      · exact settled
      · rename_i hend
        rw [nkFgetcFast_snd]
        exact nkFnextFast_settled agrees settled.toOnBlock (hnext hend)
  | seekFast n =>
      have hin := inBuffer
      simp only [FileOp.InBuffer, nkContained, agrees.window.wrap_end, Bool.and_eq_true,
        decide_eq_true_eq] at hin
      exact settled.toOnBlock.settled (by omega)
  | nextFast => exact nkFnextFast_settled agrees settled.toOnBlock allowed
  | getcFast =>
      simp only [FileOp.exec, nkFgetcFast_snd]
      exact nkFnextFast_settled agrees settled.toOnBlock allowed

/-- Two input files of one device at one position have the same window. -/
theorem Settled.unique (agrees : Agrees f c) (agrees' : Agrees f' c)
    (settled : Settled device c.bytes.length f)
    (settled' : Settled device c.bytes.length f') :
    f'.startOffset = f.startOffset ∧ f'.len = f.len ∧ f'.ptr = f.ptr := by
  obtain ⟨hread, hsize⟩ := Prod.mk.inj (settled'.device_eq.trans settled.device_eq.symm)
  have hpos := agrees.pos_eq
  have hpos' := agrees'.pos_eq
  have hsource := agrees.window.source
  have hsource' := agrees'.window.source
  unfold Source at hsource hsource'
  rw [hread] at hsource'
  cases hblock : f.blockRead with
  | none =>
      rw [hblock] at hsource hsource'
      obtain ⟨-, hoffset, hlen⟩ := hsource
      obtain ⟨-, hoffset', hlen'⟩ := hsource'
      omega
  | some blockRead =>
      have hsome : f.blockRead ≠ none := by simp [hblock]
      have hsome' : f'.blockRead ≠ none := hread ▸ hsome
      have hlt := settled.ptr_lt hsome
      have hlt' := settled'.ptr_lt hsome'
      have hlen := settled.len_eq hsome
      have hlen' := settled'.len_eq hsome'
      have haligned' := settled'.aligned hsome'
      rw [hsize] at hlt' hlen' haligned'
      have hoffset : f'.startOffset = f.startOffset :=
        eq_of_dvd_of_lt haligned' (settled.aligned hsome) (by omega) (by omega)
      rw [hoffset] at hlen'
      exact ⟨hoffset, hlen'.trans hlen.symm, by omega⟩

end Settled

/-! ## Whole runs -/

theorem execPlain_bytes (op : FileOp) (c : Cursor) : (op.execPlain c).2.bytes = c.bytes := by
  cases op with
  | next | getc | nextFast | getcFast =>
      simp only [FileOp.execPlain]
      split <;> rfl
  | _ => rfl

theorem Run.settled {f : Nkinfile w} {c : Cursor} (run : Run w f c) :
    ∃ device, Settled device c.bytes.length f := by
  induction run with
  | openMem content behind hsize =>
      exact ⟨_, ⟨rfl, fun h => absurd rfl h, fun h => absurd rfl h⟩, fun h => absurd rfl h⟩
  | openString content behind hsize hnul =>
      exact ⟨_, ⟨rfl, fun h => absurd rfl h, fun h => absurd rfl h⟩, fun h => absurd rfl h⟩
  | openBlocks content buffer blockRead k hsize hk hread =>
      let f : Nkinfile w :=
        { start := buffer, ptr := 0, endPtr := 0, len := 2 ^ k, startOffset := 0
          blockRead := some blockRead, blockSize := 2 ^ k }
      obtain ⟨-, hoffset, hlen⟩ :=
        fill_window (f := f) hsize rfl hk rfl hread (Nat.zero_le _) (Nat.dvd_zero _)
      refine ⟨_, ⟨rfl, fun _ => ?_, fun _ => ?_⟩, fun _ => ?_⟩
      · exact hoffset ▸ Nat.dvd_zero _
      · exact hlen.trans (by rw [← hoffset]; rfl)
      · exact Nat.two_pow_pos k
  | @op f c before op allowed inBuffer ih =>
      obtain ⟨device, settled⟩ := ih
      rw [execPlain_bytes op c]
      exact ⟨device, exec_settled before.agrees settled op allowed inBuffer⟩

/-! ## The memory at the start of the buffer -/

/-- The same window over other memory. -/
def Nkinfile.setStart (f : Nkinfile w) (start : List UInt8) : Nkinfile w :=
  { f with start := start }

/-- The memory after `fill`, from the memory before. -/
def Nkinfile.refill (f : Nkinfile w) (start : List UInt8) : List UInt8 :=
  match f.blockRead with
  | some blockRead =>
      let data := blockRead f.startOffset f.blockSize
      data ++ start.drop data.length
  | none => start

/-- The memory after a seek, from the memory before. -/
def Nkinfile.reload (f : Nkinfile w) (pos : Nat) (start : List UInt8) : List UInt8 :=
  if nkContained f pos then start
  else
    let offset := pos &&& wrap w ((f.blockSize : Int) - 1)
    (f.setOffset (wrap w ((pos : Int) - offset))).refill start

@[simp] theorem nkContained_setStart (f : Nkinfile w) (start : List UInt8) (n : Nat) :
    nkContained (f.setStart start) n = nkContained f n := rfl

@[simp] theorem nkFtell_setStart (f : Nkinfile w) (start : List UInt8) :
    nkFtell (f.setStart start) = nkFtell f := rfl

theorem fill_setStart (f : Nkinfile w) (start : List UInt8) :
    (f.setStart start).fill = f.fill.setStart (f.refill start) := by
  obtain ⟨_, _, _, _, _, blockRead, _⟩ := f
  cases blockRead <;> rfl

/-- Where `nk_fseek_slow` leaves the file. -/
theorem nkFseekSlow_snd (f : Nkinfile w) (pos : Nat) :
    (nkFseekSlow f pos).2 =
      if nkContained f pos then f.setPtr (pos - f.startOffset)
      else
        let offset := pos &&& wrap w ((f.blockSize : Int) - 1)
        let f := (f.setOffset (wrap w ((pos : Int) - offset))).fill
        f.setPtr (min offset f.len) := by
  unfold nkFseekSlow nkContained
  simp only [Bool.and_eq_true, decide_eq_true_eq]
  split
  · rfl
  · split
    · rename_i hin
      rw [Nat.min_eq_left (Nat.le_of_lt hin)]
    · rename_i hout
      rw [Nat.min_eq_right (Nat.le_of_not_lt hout)]

theorem nkFseekSlow_setStart (f : Nkinfile w) (pos : Nat) (start : List UInt8) :
    (nkFseekSlow (f.setStart start) pos).2 =
      (nkFseekSlow f pos).2.setStart (f.reload pos start) := by
  rw [nkFseekSlow_snd, nkFseekSlow_snd, nkContained_setStart, Nkinfile.reload]
  split
  · rfl
  · exact congrArg
      (fun g : Nkinfile w => g.setPtr (min (pos &&& wrap w ((f.blockSize : Int) - 1)) g.len))
      (fill_setStart (f.setOffset _) start)

/-- Both ways to seek leave the file in the same place. -/
theorem nkFseek_snd (f : Nkinfile w) (n : Nat) : (nkFseek f n).2 = (nkFseekSlow f n).2 := by
  rw [nkFseek, nkFseekSlow_snd]
  split
  · rfl
  · rename_i hout
    rw [nkFseekSlow_snd, if_neg hout]

/-! ## What a seek loads -/

/-- The bytes of the block of a position. -/
def blockOf (content : List UInt8) (blockSize pos : Nat) : List UInt8 :=
  (content.drop (pos - pos % blockSize)).take blockSize

theorem blockOf_length (content : List UInt8) (blockSize pos : Nat) :
    (blockOf content blockSize pos).length =
      min blockSize (content.length - (pos - pos % blockSize)) := by
  simp [blockOf]

/-- Bytes loaded at the start of a memory. -/
theorem loaded_getElem? (data start : List UInt8) (j : Nat) :
    (data ++ start.drop data.length)[j]? =
      if j < data.length then data[j]? else start[j]? := by
  split
  · rename_i hin
    exact List.getElem?_append_left hin
  · rename_i hout
    rw [List.getElem?_append_right (Nat.le_of_not_lt hout), List.getElem?_drop,
      Nat.add_sub_cancel' (Nat.le_of_not_lt hout)]

section Loading

variable {content : List UInt8} {f : Nkinfile w} {pos : Nat}

/-- `nk_fseek_slow` loads the block of the position. -/
theorem refill_block (window : Window content f) (hblock : f.blockRead ≠ none)
    (hpos : pos ≤ content.length) (start : List UInt8) :
    (f.setOffset (wrap w ((pos : Int) -
        (pos &&& wrap w ((f.blockSize : Int) - 1) : Nat)))).refill start =
      blockOf content f.blockSize pos ++
        start.drop (blockOf content f.blockSize pos).length ∧
    (f.setOffset (wrap w ((pos : Int) -
        (pos &&& wrap w ((f.blockSize : Int) - 1) : Nat)))).fill.len =
      (blockOf content f.blockSize pos).length := by
  obtain ⟨blockRead, hread⟩ := Option.ne_none_iff_exists'.mp hblock
  have hsource := window.source
  unfold Source at hsource
  rw [hread] at hsource
  obtain ⟨k, hk, hsize, hdata⟩ := hsource
  have hlt : pos < 2 ^ w := lt_of_le_of_lt hpos window.size_lt
  have hmask : pos &&& wrap w ((f.blockSize : Int) - 1) = pos % 2 ^ k := by
    rw [hsize, and_mask hk]
  have hstart : wrap w ((pos : Int) - (pos % 2 ^ k : Nat)) = pos - pos % 2 ^ k :=
    wrap_sub (Nat.mod_le pos _) hlt
  have hload := hdata (pos - pos % 2 ^ k) (le_trans (Nat.sub_le pos _) hpos)
    (Nat.dvd_sub_mod pos)
  rw [hmask, hstart, blockOf, hsize, ← hload]
  simp [Nkinfile.refill, Nkinfile.fill, Nkinfile.load, Nkinfile.setOffset, hread, hsize]

theorem reload_contained (hin : nkContained f pos = true) (start : List UInt8) :
    f.reload pos start = start := if_pos hin

theorem reload_mem (hmem : f.blockRead = none) (start : List UInt8) :
    f.reload pos start = start := by
  unfold Nkinfile.reload Nkinfile.refill
  split
  · rfl
  · simp [Nkinfile.setOffset, hmem]

/-- The memory after a seek that loads a block. -/
theorem reload_getElem? (window : Window content f) (hblock : f.blockRead ≠ none)
    (hpos : pos ≤ content.length) (hout : nkContained f pos = false) (start : List UInt8)
    (j : Nat) : (f.reload pos start)[j]? =
      if j < (blockOf content f.blockSize pos).length then (blockOf content f.blockSize pos)[j]?
      else start[j]? := by
  rw [Nkinfile.reload, if_neg (by rw [hout]; decide), (refill_block window hblock hpos start).1,
    loaded_getElem?]

theorem nkFseekSlow_start (f : Nkinfile w) (n : Nat) :
    (nkFseekSlow f n).2.start = f.reload n f.start :=
  congrArg Nkinfile.start (nkFseekSlow_setStart f n f.start)

theorem nkFseekSlow_len (window : Window content f) (hblock : f.blockRead ≠ none)
    (hpos : pos ≤ content.length) (hout : nkContained f pos = false) :
    (nkFseekSlow f pos).2.len = (blockOf content f.blockSize pos).length := by
  rw [nkFseekSlow_snd, if_neg (by rw [hout]; decide)]
  exact (refill_block window hblock hpos f.start).2

@[simp] theorem nkFseekSlow_blockSize (f : Nkinfile w) (n : Nat) :
    (nkFseekSlow f n).2.blockSize = f.blockSize := by
  rw [nkFseekSlow_snd]
  split
  · rfl
  · exact Nkinfile.blockSize_fill _

end Loading

end LibnklabsPico.File
