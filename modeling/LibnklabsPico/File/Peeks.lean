/-
  File/Peeks.lean --- reading ahead without moving.

  A peek outside the current buffer seeks to its target and back, which leads to the
  same window.  What it may change is the memory behind a short last block.  The only
  operation that looks there is `nk_fpeek_abs`, which counts from the cursor, so it
  reaches no further than twice the window (`WithinReach`).
-/
import LibnklabsPico.File.Settled

set_option autoImplicit false

namespace LibnklabsPico.File

open LibnklabsPico.Foundation

variable {w : Nat}

/-! ## Peeks -/

/-- The operations on an input file, `nk_fpeek_abs` included. -/
inductive PeekOp where
  | file (op : FileOp)
  | peekAbs (n : Nat)

namespace PeekOp

def exec (op : PeekOp) (f : Nkinfile w) : Option Int × Nkinfile w :=
  match op with
  | .file op => (some (op.exec f).1, (op.exec f).2)
  | .peekAbs n => nkFpeekAbs f n

/-- The position of the plain file after an operation. -/
def execPlain (op : PeekOp) (c : Cursor) : Cursor :=
  match op with
  | .file op => (op.execPlain c).2
  | .peekAbs _ => c

/-- An operation may be called: `nk_fpeek_abs` for any target in the file. -/
def Allowed (op : PeekOp) (f : Nkinfile w) (c : Cursor) : Prop :=
  match op with
  | .file op => op.Allowed c ∧ op.InBuffer f
  | .peekAbs n => n ≤ c.bytes.length

/-- The results of a sequence of operations. -/
def results : List PeekOp → Nkinfile w → List (Option Int)
  | [], _ => []
  | op :: ops, f => (op.exec f).1 :: results ops (op.exec f).2

/-- Every operation of a sequence may be called. -/
def AllAllowed : List PeekOp → Nkinfile w → Cursor → Prop
  | [], _, _ => True
  | op :: ops, f, c => op.Allowed f c ∧ AllAllowed ops (op.exec f).2 (op.execPlain c)

end PeekOp

/-- The file can be used on as if it were still `f`. -/
def Unmoved (f : Nkinfile w) (c : Cursor) (f' : Nkinfile w) : Prop :=
  nkFtell f' = nkFtell f ∧
    ∀ ops, PeekOp.AllAllowed ops f c → PeekOp.results ops f' = PeekOp.results ops f

/-- Both peeks return the byte at `target`, or `-1` at the end of the file, and
leave the file as it was. -/
def PeeksPurely (f : Nkinfile w) (c : Cursor) (target : Nat) : Prop :=
  let rel := nkFpeekRel f ((target : Int) - nkFtell f)
  let abs := nkFpeekAbs f target
  rel.1 = (c.seek target).peek ∧ abs.1 = some (c.seek target).peek ∧
    Unmoved f c rel.2 ∧ Unmoved f c abs.2

/-! ## Within the reach of the operations -/

/-- A memory is the one of the file as far as operations look at it: up to twice the
window, and behind the buffer, where no block is loaded. -/
def WithinReach (f : Nkinfile w) (start : List UInt8) : Prop :=
  ∀ j, j < 2 * f.len ∨ f.blockSize ≤ j → start[j]? = f.start[j]?

section Reach

variable {device : BlockDevice} {f : Nkinfile w} {c : Cursor} {content start : List UInt8}

/-- A block that is shorter than the others is not loaded behind a shorter window. -/
theorem blockOf_length_le (window : Window content f) (on : OnBlock device content.length f)
    (hblock : f.blockRead ≠ none) {pos : Nat}
    (hshort : (blockOf content f.blockSize pos).length < f.blockSize) :
    (blockOf content f.blockSize pos).length ≤ f.len := by
  rw [blockOf_length] at hshort ⊢
  rw [on.len_eq hblock]
  obtain ⟨q, hq⟩ := on.aligned hblock
  obtain ⟨p, hp⟩ : f.blockSize ∣ pos - pos % f.blockSize := Nat.dvd_sub_mod pos
  have hfits := window.fits
  have hlast : f.blockSize * q < f.blockSize * (p + 1) := by
    rw [Nat.mul_succ]
    omega
  have hle := Nat.mul_le_mul_left f.blockSize
    (Nat.lt_succ_iff.mp (Nat.lt_of_mul_lt_mul_left hlast))
  omega

theorem WithinReach.seekSlow (reach : WithinReach f start) (window : Window content f)
    (on : OnBlock device content.length f) {pos : Nat} (hpos : pos ≤ content.length) :
    WithinReach (nkFseekSlow f pos).2 (f.reload pos start) := by
  intro j hj
  rw [nkFseekSlow_blockSize] at hj
  rw [nkFseekSlow_start]
  cases hin : nkContained f pos with
  | true =>
      rw [nkFseekSlow_snd, if_pos hin] at hj
      rw [reload_contained hin, reload_contained hin]
      exact reach j hj
  | false =>
      by_cases hblock : f.blockRead = none
      · have hsource := window.source
        rw [Source, hblock] at hsource
        rw [reload_mem hblock, reload_mem hblock]
        exact reach j (Or.inr (by rw [hsource.1]; exact Nat.zero_le j))
      · rw [nkFseekSlow_len window hblock hpos hin] at hj
        rw [reload_getElem? window hblock hpos hin, reload_getElem? window hblock hpos hin]
        split
        · rfl
        · have hle : (blockOf content f.blockSize pos).length < f.blockSize →
              (blockOf content f.blockSize pos).length ≤ f.len :=
            blockOf_length_le window on hblock
          exact reach j (by omega)

theorem WithinReach.seek (reach : WithinReach f start) (agrees : Agrees f c)
    (settled : Settled device c.bytes.length f) {n : Nat} (hn : n ≤ c.bytes.length) :
    ∃ start', (nkFseek (f.setStart start) n).2 = (nkFseek f n).2.setStart start' ∧
      WithinReach (nkFseek f n).2 start' := by
  rw [nkFseek_snd, nkFseek_snd, nkFseekSlow_setStart]
  exact ⟨_, rfl, reach.seekSlow agrees.window settled.toOnBlock hn⟩

/-- There and back. -/
theorem WithinReach.excursion (reach : WithinReach f start) (agrees : Agrees f c)
    (settled : Settled device c.bytes.length f) {n : Nat} (hn : n ≤ c.bytes.length) :
    ∃ start', (nkFseek (nkFseek (f.setStart start) n).2 (nkFtell f)).2 =
        (nkFseek (nkFseek f n).2 (nkFtell f)).2.setStart start' ∧
      WithinReach (nkFseek (nkFseek f n).2 (nkFtell f)).2 start' := by
  obtain ⟨start₁, hthere, hreach⟩ := reach.seek agrees settled hn
  rw [hthere]
  refine hreach.seek (agrees.nkFseek_spec hn).2
    (nkFseek_settled agrees settled.toOnBlock hn) ?_
  rw [agrees.nkFtell_eq]
  exact agrees.pos_le

theorem WithinReach.next (reach : WithinReach f start) (agrees : Agrees f c)
    (settled : Settled device c.bytes.length f) :
    ∃ start', (nkFnextFast (f.setStart start)).2 = (nkFnextFast f).2.setStart start' ∧
      WithinReach (nkFnextFast f).2 start' := by
  have hend : wrap w (f.startOffset + f.len) ≤ c.bytes.length :=
    agrees.window.wrap_end ▸ agrees.window.fits
  have hslow : WithinReach (nkFseekSlow (f.setPtr (f.ptr + 1))
      (wrap w (f.startOffset + f.len))).2 _ :=
    WithinReach.seekSlow (f := f.setPtr (f.ptr + 1)) reach (agrees.window.setPtr _)
      (settled.toOnBlock.setPtr _) hend
  unfold nkFnextFast
  dsimp only [Nkinfile.setPtr, Nkinfile.setStart]
  split
  · exact ⟨_, nkFseekSlow_setStart (f.setPtr (f.ptr + 1)) _ start, hslow⟩
  · exact ⟨start, rfl, reach⟩

/-- Two files that are the same within reach stay so, whatever is done with them. -/
theorem WithinReach.exec (reach : WithinReach f start) (agrees : Agrees f c)
    (settled : Settled device c.bytes.length f) (op : FileOp) (allowed : op.Allowed c) :
    ∃ start', (op.exec (f.setStart start)).2 = (op.exec f).2.setStart start' ∧
      WithinReach (op.exec f).2 start' := by
  cases op with
  | tell | feof | peek | peekFast => exact ⟨start, rfl, reach⟩
  | seek n => exact reach.seek agrees settled allowed
  | seekRel n =>
      obtain ⟨hlow, hhigh⟩ := allowed
      have hn : (c.pos + n).toNat ≤ c.bytes.length := by omega
      simp only [FileOp.exec, nkFseekRel, nkFtell_setStart, agrees.wrap_rel hlow hhigh]
      exact reach.seek agrees settled hn
  | peekRel n =>
      obtain ⟨hlow, hhigh⟩ := allowed
      have hn : (c.pos + n).toNat ≤ c.bytes.length := by omega
      simp only [FileOp.exec, nkFpeekRel, nkFtell_setStart, nkContained_setStart,
        agrees.wrap_rel hlow hhigh]
      split
      · exact ⟨start, rfl, reach⟩
      · exact reach.excursion agrees settled hn
  | next =>
      simp only [FileOp.exec, nkFnext]
      by_cases hend : nkFeof f = true
      · rw [if_pos hend, if_pos (show nkFeof (f.setStart start) = true from hend)]
        exact ⟨start, rfl, reach⟩
      · rw [if_neg hend, if_neg (show ¬ nkFeof (f.setStart start) = true from hend)]
        exact reach.next agrees settled
  | getc =>
      simp only [FileOp.exec, nkFgetc]
      by_cases hend : nkFeof f = true
      · rw [if_pos hend, if_pos (show nkFeof (f.setStart start) = true from hend)]
        exact ⟨start, rfl, reach⟩
      · rw [if_neg hend, if_neg (show ¬ nkFeof (f.setStart start) = true from hend),
          nkFgetcFast_snd, nkFgetcFast_snd]
        exact reach.next agrees settled
  | seekFast n => exact ⟨start, rfl, reach⟩
  | nextFast => exact reach.next agrees settled
  | getcFast =>
      simp only [FileOp.exec, nkFgetcFast_snd]
      exact reach.next agrees settled

theorem WithinReach.agrees (reach : WithinReach f start) (agrees : Agrees f c) :
    Agrees (f.setStart start) c := by
  have hdata : start.take f.len = f.start.take f.len := by
    refine List.ext_getElem? fun j => ?_
    rw [List.getElem?_take, List.getElem?_take]
    split
    · exact reach j (by omega)
    · rfl
  have window := agrees.window
  exact ⟨⟨window.size_lt, window.fits, hdata.trans window.data, window.endPtr_eq,
    window.source⟩, agrees.pos_eq, agrees.ptr_le, agrees.at_end⟩

theorem Settled.setStart (settled : Settled device c.bytes.length f) (start : List UInt8) :
    Settled device c.bytes.length (f.setStart start) :=
  ⟨⟨settled.device_eq, settled.aligned, settled.len_eq⟩, settled.ptr_lt⟩

/-- Two input files of one device at one position differ in the memory only. -/
theorem Settled.eq_setStart {f' : Nkinfile w} (agrees : Agrees f c) (agrees' : Agrees f' c)
    (settled : Settled device c.bytes.length f) (settled' : Settled device c.bytes.length f') :
    f' = f.setStart f'.start := by
  obtain ⟨hoffset, hlen, hptr⟩ := settled.unique agrees agrees' settled'
  obtain ⟨hread, hsize⟩ := Prod.mk.inj (settled'.device_eq.trans settled.device_eq.symm)
  have hend : f'.endPtr = f.endPtr := by
    rw [agrees'.window.endPtr_eq, agrees.window.endPtr_eq, hlen]
  obtain ⟨_, _, _, _, _, _, _⟩ := f'
  simp only [Nkinfile.setStart, Nkinfile.mk.injEq, true_and]
  exact ⟨hptr, hend, hlen, hoffset, hread, hsize⟩

end Reach

/-! ## Later operations -/

section Later

variable {device : BlockDevice} {f : Nkinfile w} {c : Cursor} {start : List UInt8}

/-- With the cursor at the start of the buffer `nk_fpeek_abs` counts from there. -/
theorem peekAbs_atStart (agrees : Agrees f c) {n : Nat} (hin : nkContained f n = true)
    (hptr : f.ptr = 0) : f.start[f.ptr + (n - f.startOffset)]? = c.bytes[n]? := by
  simp only [nkContained, agrees.window.wrap_end, Bool.and_eq_true, decide_eq_true_eq] at hin
  have hi : n - f.startOffset < f.len := by omega
  have hback : f.startOffset + (n - f.startOffset) = n := by omega
  have hbyte := congrArg (fun l : List UInt8 => l[n - f.startOffset]?) agrees.window.data
  rw [hptr, Nat.zero_add]
  simpa [List.getElem?_take_of_lt hi, hback] using hbyte

theorem nkFpeekAbs_contained {n : Nat} (hin : nkContained f n = true) :
    nkFpeekAbs f n =
      ((f.start[f.ptr + (n - f.startOffset)]?).map fun b => (b.toNat : Int), f) := if_pos hin

theorem nkFpeekAbs_outside {n : Nat} (hout : ¬ nkContained f n = true) :
    nkFpeekAbs f n =
      (some (nkFseek f n).1, (nkFseek (nkFseek f n).2 (nkFtell f)).2) := if_neg hout

theorem nkFpeekAbs_spec (agrees : Agrees f c) (settled : Settled device c.bytes.length f)
    {n : Nat} (hn : n ≤ c.bytes.length) :
    ((nkFpeekAbs f n).1 = some (c.seek n).peek ↔
        (nkContained f n = true → f.start[f.ptr + (n - f.startOffset)]? = c.bytes[n]?)) ∧
      Agrees (nkFpeekAbs f n).2 c ∧ Settled device c.bytes.length (nkFpeekAbs f n).2 := by
  by_cases hin : nkContained f n = true
  · rw [nkFpeekAbs_contained hin]
    refine ⟨?_, agrees, settled⟩
    have hlt : n < c.bytes.length := by
      have hfits := agrees.window.fits
      simp only [nkContained, agrees.window.wrap_end, Bool.and_eq_true,
        decide_eq_true_eq] at hin
      omega
    simp only [hin, true_implies, Cursor.peek, Cursor.seek, List.getElem?_eq_getElem hlt]
    cases hbyte : f.start[f.ptr + (n - f.startOffset)]? with
    | none => simp
    | some b =>
        simp only [Option.map_some, Option.some.injEq, Nat.cast_inj]
        exact ⟨UInt8.toNat_inj.mp, congrArg UInt8.toNat⟩
  · rw [nkFpeekAbs_outside hin]
    obtain ⟨hthere, hagrees⟩ := agrees.nkFseek_spec hn
    have hsettled := nkFseek_settled agrees settled.toOnBlock hn
    have hback : nkFtell f ≤ (c.seek n).bytes.length := by
      rw [agrees.nkFtell_eq]
      exact agrees.pos_le
    have hreturn := (hagrees.nkFseek_spec hback).2
    refine ⟨⟨fun _ hcontained => absurd hcontained hin, fun _ => congrArg some hthere⟩, ?_,
      nkFseek_settled hagrees hsettled.toOnBlock hback⟩
    simpa [agrees.nkFtell_eq, Cursor.seek] using hreturn

theorem PeekOp.exec_agrees (agrees : Agrees f c) (settled : Settled device c.bytes.length f)
    (op : PeekOp) (allowed : op.Allowed f c) :
    Agrees (op.exec f).2 (op.execPlain c) ∧ Settled device c.bytes.length (op.exec f).2 := by
  cases op with
  | file op =>
      exact ⟨(exec_spec agrees op allowed.1 allowed.2).2,
        exec_settled agrees settled op allowed.1 allowed.2⟩
  | peekAbs n => exact (nkFpeekAbs_spec agrees settled allowed).2

theorem PeekOp.execPlain_bytes (op : PeekOp) (c : Cursor) :
    (op.execPlain c).bytes = c.bytes := by
  cases op with
  | file op => exact File.execPlain_bytes op c
  | peekAbs n => rfl

/-- No operation can tell memories apart that are the same within reach. -/
theorem WithinReach.result (reach : WithinReach f start) (agrees : Agrees f c)
    (settled : Settled device c.bytes.length f) (op : PeekOp) (allowed : op.Allowed f c) :
    (op.exec (f.setStart start)).1 = (op.exec f).1 ∧
      ∃ start', (op.exec (f.setStart start)).2 = (op.exec f).2.setStart start' ∧
        WithinReach (op.exec f).2 start' := by
  have agrees' := reach.agrees agrees
  cases op with
  | file op =>
      have hinBuffer : op.InBuffer (f.setStart start) := by
        cases op <;> exact allowed.2
      refine ⟨congrArg some ?_, reach.exec agrees settled op allowed.1⟩
      rw [(exec_spec agrees' op allowed.1 hinBuffer).1,
        (exec_spec agrees op allowed.1 allowed.2).1]
  | peekAbs n =>
      simp only [PeekOp.exec]
      by_cases hin : nkContained f n = true
      · rw [nkFpeekAbs_contained hin, nkFpeekAbs_contained (f := f.setStart start) hin]
        have hindex : f.ptr + (n - f.startOffset) < 2 * f.len := by
          have hptr := agrees.ptr_le
          simp only [nkContained, agrees.window.wrap_end, Bool.and_eq_true,
            decide_eq_true_eq] at hin
          omega
        exact ⟨congrArg (Option.map fun b : UInt8 => (b.toNat : Int)) (reach _ (Or.inl hindex)),
          start, rfl, reach⟩
      · rw [nkFpeekAbs_outside hin, nkFpeekAbs_outside (f := f.setStart start) hin]
        refine ⟨congrArg some ?_, reach.excursion agrees settled allowed⟩
        rw [(agrees'.nkFseek_spec allowed).1, (agrees.nkFseek_spec allowed).1]

/-- Nor can a sequence of operations. -/
theorem WithinReach.results (reach : WithinReach f start) (agrees : Agrees f c)
    (settled : Settled device c.bytes.length f) (ops : List PeekOp)
    (allowed : PeekOp.AllAllowed ops f c) :
    PeekOp.results ops (f.setStart start) = PeekOp.results ops f := by
  induction ops generalizing f c start with
  | nil => rfl
  | cons op ops ih =>
      obtain ⟨hallowed, hrest⟩ := allowed
      obtain ⟨hresult, start', hnext, hreach⟩ := reach.result agrees settled op hallowed
      obtain ⟨hagrees, hsettled⟩ := op.exec_agrees agrees settled hallowed
      rw [← op.execPlain_bytes c] at hsettled
      rw [PeekOp.results, PeekOp.results, hresult, hnext, ih hreach hagrees hsettled hrest]

/-- From the end of a short last block `nk_fpeek_abs` sees the memory behind it. -/
theorem results_behind (agrees : Agrees f c) (settled : Settled device c.bytes.length f)
    (hblock : f.blockRead ≠ none) (hshort : f.len < f.blockSize) {j : Nat} (hlen : f.len ≤ j)
    (hj : j < 2 * f.len) :
    PeekOp.AllAllowed [.file (.seek c.bytes.length), .peekAbs (f.startOffset + (j - f.len))]
        f c ∧
      PeekOp.results [.file (.seek c.bytes.length), .peekAbs (f.startOffset + (j - f.len))] f =
        [some (-1), (f.start[j]?).map fun b => (b.toNat : Int)] := by
  have hfits := agrees.window.fits
  have hlast := settled.len_eq hblock
  have hend : f.startOffset + f.len = c.bytes.length := by omega
  obtain ⟨hresult, hagrees⟩ := agrees.nkFseek_spec (Nat.le_refl c.bytes.length)
  have hsettled := nkFseek_settled agrees settled.toOnBlock (Nat.le_refl c.bytes.length)
  have hat : Agrees (f.setPtr f.len) (c.seek c.bytes.length) :=
    ⟨agrees.window.setPtr _, hend.symm, Nat.le_refl _, fun _ => rfl⟩
  have hatSettled : Settled device c.bytes.length (f.setPtr f.len) :=
    ⟨settled.toOnBlock.setPtr _, fun _ => hshort⟩
  obtain ⟨hoffset, hlen', hptr⟩ := hatSettled.unique hat hagrees hsettled
  simp only [Nkinfile.setPtr] at hoffset hlen' hptr
  have hout : nkContained f c.bytes.length = false := by
    simp only [nkContained, agrees.window.wrap_end, hend, Nat.lt_irrefl, decide_false,
      Bool.and_false]
  have hin : nkContained (nkFseek f c.bytes.length).2 (f.startOffset + (j - f.len)) = true := by
    simp only [nkContained, hoffset, hlen', agrees.window.wrap_end, Bool.and_eq_true,
      decide_eq_true_eq]
    omega
  have hbyte : (nkFseek f c.bytes.length).2.start[j]? = f.start[j]? := by
    rw [nkFseek_snd] at hlen' ⊢
    rw [nkFseekSlow_len agrees.window hblock (Nat.le_refl _) hout] at hlen'
    rw [nkFseekSlow_start, reload_getElem? agrees.window hblock (Nat.le_refl _) hout,
      if_neg (by omega)]
  have hindex : (nkFseek f c.bytes.length).2.ptr +
      (f.startOffset + (j - f.len) - (nkFseek f c.bytes.length).2.startOffset) = j := by
    omega
  refine ⟨⟨⟨Nat.le_refl _, trivial⟩, ?_, trivial⟩, ?_⟩
  · change f.startOffset + (j - f.len) ≤ c.bytes.length
    omega
  · simp only [PeekOp.results, PeekOp.exec, FileOp.exec, nkFpeekAbs, hin, if_true, hindex, hbyte,
      hresult]
    rw [Cursor.seek, Cursor.peek_of_le (Nat.le_refl _)]

end Later

/-! ## An excursion -/

section Excursion

variable {device : BlockDevice} {f : Nkinfile w} {c : Cursor} {n : Nat}

/-- The window is the block of the position. -/
theorem Settled.blockOf_pos (agrees : Agrees f c) (settled : Settled device c.bytes.length f)
    (hblock : f.blockRead ≠ none) : (blockOf c.bytes f.blockSize c.pos).length = f.len := by
  have hlt := settled.ptr_lt hblock
  have hmod : c.pos % f.blockSize = f.ptr := by
    obtain ⟨q, hq⟩ := settled.aligned hblock
    rw [agrees.pos_eq, hq, Nat.mul_add_mod, Nat.mod_eq_of_lt hlt]
  rw [blockOf_length, hmod, settled.len_eq hblock, agrees.pos_eq, Nat.add_sub_cancel]

/-- Behind the window an excursion leaves the block of its target. -/
theorem excursion_getElem? (agrees : Agrees f c) (settled : Settled device c.bytes.length f)
    (hblock : f.blockRead ≠ none) (hn : n ≤ c.bytes.length) (hout : nkContained f n = false)
    {j : Nat} (hj : f.len ≤ j) :
    (nkFseek (nkFseek f n).2 (nkFtell f)).2.start[j]? =
      if j < (blockOf c.bytes f.blockSize n).length then (blockOf c.bytes f.blockSize n)[j]?
      else f.start[j]? := by
  have hwindow : Window c.bytes (nkFseek f n).2 := (agrees.nkFseek_spec hn).2.window
  have hsettled := nkFseek_settled agrees settled.toOnBlock hn
  obtain ⟨hread, hsize⟩ := Prod.mk.inj (hsettled.device_eq.trans settled.device_eq.symm)
  have hback : (nkFseek (nkFseek f n).2 (nkFtell f)).2.start[j]? =
      (nkFseek f n).2.start[j]? := by
    rw [agrees.nkFtell_eq, nkFseek_snd (nkFseek f n).2, nkFseekSlow_start]
    cases hin : nkContained (nkFseek f n).2 c.pos with
    | true => rw [reload_contained hin]
    | false =>
        rw [reload_getElem? hwindow (hread ▸ hblock) agrees.pos_le hin, hsize,
          settled.blockOf_pos agrees hblock, if_neg (Nat.not_lt.mpr hj)]
  rw [hback, nkFseek_snd, nkFseekSlow_start,
    reload_getElem? agrees.window hblock hn hout]

/-- The block of a target that is not in front of the window is no longer than it. -/
theorem blockOf_length_behind (settled : Settled device c.bytes.length f)
    (hblock : f.blockRead ≠ none) (hbehind : f.startOffset ≤ n) :
    (blockOf c.bytes f.blockSize n).length ≤ f.len := by
  have hlt := settled.ptr_lt hblock
  obtain ⟨q, hq⟩ := settled.aligned hblock
  have hquot : q ≤ n / f.blockSize := by
    rw [Nat.le_div_iff_mul_le (by omega), Nat.mul_comm, ← hq]
    exact hbehind
  have hle := Nat.mul_le_mul_left f.blockSize hquot
  have hsplit := Nat.div_add_mod n f.blockSize
  rw [blockOf_length, settled.len_eq hblock]
  omega

/-- In front of the window all blocks are full. -/
theorem blockOf_length_front (agrees : Agrees f c) (settled : Settled device c.bytes.length f)
    (hblock : f.blockRead ≠ none) (hfront : n < f.startOffset) :
    (blockOf c.bytes f.blockSize n).length = f.blockSize := by
  have hlt := settled.ptr_lt hblock
  have hfits := agrees.window.fits
  obtain ⟨q, hq⟩ := settled.aligned hblock
  have hquot : n / f.blockSize + 1 ≤ q := by
    rw [Nat.succ_le_iff, Nat.div_lt_iff_lt_mul (by omega), Nat.mul_comm, ← hq]
    exact hfront
  have hle := Nat.mul_le_mul_left f.blockSize hquot
  have hsplit := Nat.div_add_mod n f.blockSize
  rw [Nat.mul_succ, ← hq] at hle
  rw [blockOf_length]
  omega

/-- The bytes behind a short last block are those of the block of a target in front of
it, as far as operations look at them. -/
def SameBehind (f : Nkinfile w) (content : List UInt8) (n : Nat) : Prop :=
  n < f.startOffset → ∀ j, f.len ≤ j → j < 2 * f.len → j < f.blockSize →
    f.start[j]? = content[n - n % f.blockSize + j]?

/-- The memory within reach is left as it was when the bytes behind the window are. -/
theorem SameBehind.withinReach (same : SameBehind f c.bytes n) (agrees : Agrees f c)
    (settled : Settled device c.bytes.length f) (hn : n ≤ c.bytes.length)
    (hout : nkContained f n = false)
    (hagrees : Agrees (nkFseek (nkFseek f n).2 (nkFtell f)).2 c)
    (hsettled : Settled device c.bytes.length (nkFseek (nkFseek f n).2 (nkFtell f)).2) :
    WithinReach f (nkFseek (nkFseek f n).2 (nkFtell f)).2.start := by
  intro j hj
  rcases Nat.lt_or_ge j f.len with hin | hlen
  · obtain ⟨hoffset, hlen', -⟩ := settled.unique agrees hagrees hsettled
    have hdata := hagrees.window.data
    rw [hoffset, hlen', ← agrees.window.data] at hdata
    have hbyte := congrArg (fun l : List UInt8 => l[j]?) hdata
    simpa only [List.getElem?_take_of_lt hin] using hbyte
  · by_cases hblock : f.blockRead = none
    · have hthere := nkFseek_settled agrees settled.toOnBlock hn
      have hread := (Prod.mk.inj (hthere.device_eq.trans settled.device_eq.symm)).1
      rw [nkFseek_snd (nkFseek f n).2, nkFseekSlow_start, reload_mem (hread.trans hblock),
        nkFseek_snd, nkFseekSlow_start, reload_mem hblock]
    · rw [excursion_getElem? agrees settled hblock hn hout hlen]
      split
      · rename_i hloaded
        rcases Nat.lt_or_ge n f.startOffset with hfront | hbehind
        · rw [blockOf_length_front agrees settled hblock hfront] at hloaded
          rw [same hfront j hlen (by omega) hloaded, blockOf,
            List.getElem?_take_of_lt hloaded, List.getElem?_drop]
        · have := blockOf_length_behind settled hblock hbehind
          omega
      · rfl

/-- Leaving the window and coming back goes unnoticed exactly when the bytes behind it
are the same. -/
theorem unmoved_excursion_iff (agrees : Agrees f c) (settled : Settled device c.bytes.length f)
    (hn : n ≤ c.bytes.length) (hout : nkContained f n = false) :
    Unmoved f c (nkFseek (nkFseek f n).2 (nkFtell f)).2 ↔ SameBehind f c.bytes n := by
  obtain ⟨hagrees, hsettled⟩ := (nkFpeekAbs_spec agrees settled hn).2
  rw [nkFpeekAbs_outside (by rw [hout]; decide)] at hagrees hsettled
  constructor
  · rintro ⟨-, hlater⟩ hfront j hlen hreach hsize
    have hblock : f.blockRead ≠ none := by
      intro hmem
      have hsource := agrees.window.source
      rw [Source, hmem] at hsource
      omega
    obtain ⟨hoffset, hlen', -⟩ := settled.unique agrees hagrees hsettled
    obtain ⟨hread, hblockSize⟩ := Prod.mk.inj (hsettled.device_eq.trans settled.device_eq.symm)
    obtain ⟨hallowed, hresults⟩ := results_behind agrees settled hblock (by omega) hlen hreach
    have hresults' := (results_behind hagrees hsettled (hread ▸ hblock) (by omega)
      (by omega) (by omega : j < 2 * _)).2
    have hsame := hlater _ hallowed
    rw [hoffset, hlen'] at hresults'
    rw [hresults, hresults', List.cons.injEq, List.cons.injEq] at hsame
    have hinj : Function.Injective fun b : UInt8 => (b.toNat : Int) := by
      intro a b hab
      exact UInt8.toNat_inj.mp (Int.ofNat_inj.mp hab)
    have hbyte := Option.map_injective hinj hsame.2.1
    rw [← hbyte, excursion_getElem? agrees settled hblock hn hout hlen,
      blockOf_length_front agrees settled hblock hfront, if_pos hsize, blockOf,
      List.getElem?_take_of_lt hsize, List.getElem?_drop]
  · intro same
    refine ⟨hagrees.nkFtell_eq.trans agrees.nkFtell_eq.symm, fun ops allowed => ?_⟩
    rw [settled.eq_setStart agrees hagrees hsettled]
    exact (same.withinReach agrees settled hn hout hagrees hsettled).results agrees settled ops
      allowed

/-- Whether a peek goes unnoticed. -/
theorem unmoved_peekAbs_iff (agrees : Agrees f c) (settled : Settled device c.bytes.length f)
    (hn : n ≤ c.bytes.length) :
    Unmoved f c (nkFpeekAbs f n).2 ↔ SameBehind f c.bytes n := by
  cases hin : nkContained f n with
  | true =>
      rw [nkFpeekAbs_contained hin]
      refine iff_of_true ⟨rfl, fun _ _ => rfl⟩ fun hfront => ?_
      simp only [nkContained, Bool.and_eq_true, decide_eq_true_eq] at hin
      omega
  | false =>
      rw [nkFpeekAbs_outside (by rw [hin]; decide)]
      exact unmoved_excursion_iff agrees settled hn hin

end Excursion

/-- In every state a run leads to, both peeks are pure for a target anywhere in the file
exactly when the byte and the memory are the right ones.

The byte is: the target is outside the current buffer, the cursor is at the start of the
buffer, or the memory as far behind the cursor as the target is behind the start of the
buffer holds the byte of the target.  The memory is: the target is not in front of the
buffer, or the bytes behind a short last block are already those of the block of the
target, as far behind the block as it is long. -/
theorem run_peeksPurely_iff {f : Nkinfile w} {c : Cursor} (run : Run w f c) {target : Nat}
    (htarget : target ≤ c.bytes.length) :
    PeeksPurely f c target ↔
      (nkContained f target = false ∨ f.ptr = 0 ∨
        f.start[f.ptr + (target - f.startOffset)]? = c.bytes[target]?) ∧
      (target < f.startOffset → ∀ j, f.len ≤ j → j < 2 * f.len → j < f.blockSize →
        f.start[j]? = c.bytes[target - target % f.blockSize + j]?) := by
  have agrees := run.agrees
  obtain ⟨device, settled⟩ := run.settled
  have hresult := (nkFpeekAbs_spec agrees settled htarget).1
  have hback : c.pos + ((target : Int) - nkFtell f) = target := by
    rw [agrees.nkFtell_eq]
    omega
  have hlow : 0 ≤ c.pos + ((target : Int) - nkFtell f) := by omega
  have hhigh : c.pos + ((target : Int) - nkFtell f) ≤ c.bytes.length := by omega
  have hrel := (agrees.nkFpeekRel_spec hlow hhigh).1
  rw [hback, Int.toNat_natCast] at hrel
  -- both peeks leave the file in the same state
  have hstate : (nkFpeekRel f ((target : Int) - nkFtell f)).2 = (nkFpeekAbs f target).2 := by
    unfold nkFpeekRel nkFpeekAbs
    rw [agrees.wrap_rel hlow hhigh, hback, Int.toNat_natCast]
    split <;> rfl
  have hunmoved := unmoved_peekAbs_iff agrees settled htarget
  unfold PeeksPurely
  dsimp only
  rw [hstate, hunmoved, hresult]
  constructor
  · rintro ⟨-, hbyte, -, hsame⟩
    refine ⟨?_, hsame⟩
    cases hin : nkContained f target with
    | false => exact Or.inl rfl
    | true => exact Or.inr (Or.inr (hbyte hin))
  · rintro ⟨hcond, hsame⟩
    refine ⟨hrel, fun hin => ?_, hsame, hsame⟩
    rcases hcond with hout | hptr | hbyte
    · rw [hout] at hin
      cases hin
    · exact peekAbs_atStart agrees hin hptr
    · exact hbyte

/-- The cursor behind the first of two characters in memory. -/
theorem run_second : Run 32 ((FileOp.getc).exec (nkinfileOpenMem 32 [65, 66] 2)).2 ⟨[65, 66], 1⟩ :=
  .op (.openMem [65, 66] [] (by decide)) .getc trivial trivial

/-- A device with two blocks of four characters and a short one. -/
def tenBytes : List UInt8 := [10, 11, 12, 13, 14, 15, 16, 17, 18, 19]

/-- The cursor in the last block, right after the first one. -/
theorem run_last : Run 32 ((FileOp.seek 9).exec
    (nkinfileOpen 32 (some fun pos size => (tenBytes.drop pos).take size) 4 [0, 0, 0, 0])).2
    ⟨tenBytes, 9⟩ :=
  .op (.openBlocks tenBytes [0, 0, 0, 0] _ 2 (by decide) (by decide) (fun _ _ _ => rfl))
    (.seek 9) (show 9 ≤ 10 by decide) trivial

/-- The cursor in the last block, by way of the second one. -/
theorem run_last_second : Run 32 ((FileOp.seek 9).exec ((FileOp.seek 5).exec
    (nkinfileOpen 32 (some fun pos size => (tenBytes.drop pos).take size) 4 [0, 0, 0, 0])).2).2
    ⟨tenBytes, 9⟩ :=
  .op (.op (.openBlocks tenBytes [0, 0, 0, 0] _ 2 (by decide) (by decide) (fun _ _ _ => rfl))
    (.seek 5) (show 5 ≤ 10 by decide) trivial) (.seek 9) (show 9 ≤ 10 by decide) trivial

/-- In memory `nk_fpeek_abs` for the first character returns the second one.  On the
device it returns the right one, but the next `nk_fpeek_abs` tells the difference. -/
theorem run_not_peeksPurely :
    (∃ (f : Nkinfile 32) (c : Cursor) (target : Nat), Run 32 f c ∧ target ≤ c.bytes.length ∧
      (nkFpeekAbs f target).1 = some 66 ∧ (c.seek target).peek = 65 ∧
      ¬ PeeksPurely f c target) ∧
    ∃ (f : Nkinfile 32) (c : Cursor), Run 32 f c ∧ (nkFpeekAbs f 0).1 = some 10 ∧
      (c.seek 0).peek = 10 ∧ (nkFpeekAbs f 9).1 = some 16 ∧
      (nkFpeekAbs (nkFpeekAbs f 0).2 9).1 = some 12 ∧ ¬ PeeksPurely f c 0 := by
  refine ⟨⟨_, ⟨[65, 66], 1⟩, 0, run_second, by decide, by decide, by decide,
    fun hpure => absurd hpure.2.1 (by decide)⟩, _, ⟨tenBytes, 9⟩, run_last_second, by decide,
    by decide, by decide, by decide, fun hpure => ?_⟩
  have hlater := hpure.2.2.2.2 [.peekAbs 9] ⟨show 9 ≤ 10 by decide, trivial⟩
  exact absurd hlater (by decide)

/-- At the end of the file in memory, and in front of the last block that came right
after the first one, both peeks are pure. -/
theorem run_peeksPurely_end :
    (∃ (f : Nkinfile 32) (c : Cursor), Run 32 f c ∧ f.ptr ≠ 0 ∧ PeeksPurely f c 2) ∧
    ∃ (f : Nkinfile 32) (c : Cursor), Run 32 f c ∧ f.ptr ≠ 0 ∧ f.startOffset = 8 ∧
      PeeksPurely f c 0 := by
  refine ⟨⟨_, ⟨[65, 66], 1⟩, run_second, by decide,
    (run_peeksPurely_iff run_second (by decide)).mpr
      ⟨Or.inl (by decide), fun hfront => absurd hfront (by decide)⟩⟩,
    _, ⟨tenBytes, 9⟩, run_last, by decide, by decide,
    (run_peeksPurely_iff run_last (by decide)).mpr ⟨Or.inl (by decide), ?_⟩⟩
  intro _ j hlen hreach _
  change 2 ≤ j at hlen
  change j < 4 at hreach
  obtain rfl | rfl : j = 2 ∨ j = 3 := by omega
  · decide
  · decide

end LibnklabsPico.File
