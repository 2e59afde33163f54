/-
  Dbase/SaveContained.lean --- which saves stay within their bank.

  Whatever the flash answers, the characters of a save are written to its bank in
  portions, and a portion that fails only makes it shorter.  So all calls are inside the
  bank exactly when the header and the image fit: `putAll_contained_iff` follows the
  position from flush to flush, on the way on which no call fails in the one direction.
-/
import LibnklabsPico.Dbase.FailedSave
import LibnklabsPico.Dbase.SaveLoad
import LibnklabsPico.File.Streams
import LibnklabsPico.Flash.Containment

set_option autoImplicit false

namespace LibnklabsPico.Dbase

open LibnklabsPico.Foundation
open LibnklabsPico.File
open LibnklabsPico.Flash
open LibnklabsPico.Text

/-- A bank in memory, and a buffer of whole blocks for it. -/
structure Buffered (file : NkCheckedBase) (bufSize : Nat) : Prop where
  area : Area file.areaBase file.areaSize file.eraseSize
  blocks : ∃ k < 32, file.granularity = 2 ^ k ∧ 2 ^ k ∣ bufSize
  bufSize_pos : 0 < bufSize
  bufSize_lt : bufSize < 2 ^ 32

/-- An output file for a bank whose data ends at `size`. -/
structure Filling (file : NkCheckedBase) (bufSize size : Nat) (f : Nkoutfile NkChecked) :
    Prop where
  bank : f.blockWritePtr.file = file
  written : f.blockWritePtr.size = size
  blocks : f.granularity = file.granularity
  room : f.size = bufSize
  ptr_le : f.ptr ≤ bufSize

section
variable {stack : Memory} {file : NkCheckedBase} {bufSize size : Nat} {f : Nkoutfile NkChecked}

theorem Buffered.granularity_pos (buffered : Buffered file bufSize) : 0 < file.granularity := by
  obtain ⟨k, -, hgran, -⟩ := buffered.blocks
  rw [hgran]
  exact Nat.two_pow_pos k

/-- A full buffer is a whole number of blocks. -/
theorem Buffered.roundUp_full (buffered : Buffered file bufSize) (n : Nat) :
    roundUp (bufSize + n) file.granularity = bufSize + roundUp n file.granularity := by
  obtain ⟨k, -, hgran, q, rfl⟩ := buffered.blocks
  have hpos := Nat.two_pow_pos k
  rw [hgran, roundUp, Nat.add_assoc, Nat.mul_add_div hpos, Nat.add_mul, Nat.mul_comm q]
  rfl

theorem Filling.put (filling : Filling file bufSize size f) (hroom : f.ptr ≠ f.size) (c : UInt8) :
    Filling file bufSize size (f.put c) :=
  ⟨filling.bank, filling.written, filling.blocks, filling.room,
    Nat.lt_of_le_of_ne filling.ptr_le (filling.room ▸ hroom)⟩

/-- A flush is a page loop for the blocks that are begun. -/
theorem Filling.flush (buffered : Buffered file bufSize) (filling : Filling file bufSize size f) :
    ∃ block f', block.length = roundUp f.ptr file.granularity ∧
      nkFflush (some nkCheckedWrite) f = (writePages file.eraseSize file.hasErase block.length
        (u32 (file.areaBase + (headerSize + size))) block >>= fun rtn => pure (rtn, f')) ∧
      (headerSize + size + block.length ≤ file.areaSize →
        Filling file bufSize (size + block.length) f' ∧ f'.ptr = 0) := by
  obtain ⟨k, hk, hgran, hdvd⟩ := buffered.blocks
  have hlength : (f.start.read 0 (roundWrite f.ptr f.granularity)).length =
      roundUp f.ptr file.granularity := by
    rw [Memory.read_length, filling.blocks, hgran]
    exact roundWrite_buffered hk hdvd buffered.bufSize_lt filling.ptr_le
  obtain ⟨varFile, hwrite, hopen⟩ := (nkCheckedWrite_writes buffered.area).step f.blockWritePtr
    (headerSize + size) (f.start.read 0 (roundWrite f.ptr f.granularity))
    ⟨filling.bank, by rw [filling.written]⟩
  refine ⟨_, { f with ptr := 0, blockWritePtr := varFile }, hlength, ?_, fun hfit => ?_⟩
  · unfold nkFflush
    dsimp only
    rw [hwrite, bind_assoc]
    rfl
  · obtain ⟨hfile, hsize⟩ := hopen hfit
    exact ⟨⟨hfile, by dsimp only; omega, filling.blocks, filling.room, Nat.zero_le _⟩, rfl⟩

/-- A full buffer is flushed as it is. -/
theorem Filling.flush_full (buffered : Buffered file bufSize)
    (filling : Filling file bufSize size f) (hfull : f.ptr = f.size) :
    ∃ block f', block.length = bufSize ∧
      nkFflush (some nkCheckedWrite) f = (writePages file.eraseSize file.hasErase block.length
        (u32 (file.areaBase + (headerSize + size))) block >>= fun rtn => pure (rtn, f')) ∧
      (headerSize + size + bufSize ≤ file.areaSize →
        Filling file bufSize (size + bufSize) f' ∧ f'.ptr = 0) := by
  obtain ⟨block, f', hlength, hflush, hdone⟩ := filling.flush buffered
  have hblock : block.length = bufSize := by
    have hround := buffered.roundUp_full 0
    rw [roundUp_of_dvd buffered.granularity_pos (Nat.dvd_zero _)] at hround
    rw [hlength, hfull.trans filling.room]
    exact hround
  refine ⟨block, f', hblock, hflush, ?_⟩
  rwa [hblock] at hdone

/-- The next character is the first one in an empty buffer, unless the flush failed. -/
theorem Filling.next (buffered : Buffered file bufSize) (filling : Filling file bufSize size f)
    (hempty : f.ptr = 0) (c : UInt8) (rtn : Int) :
    Filling file bufSize size (if rtn = 0 then f.put c else f) ∧
      (if rtn = 0 then f.put c else f).ptr = if rtn = 0 then 1 else 0 := by
  have hroom : f.ptr ≠ f.size := by
    rw [hempty, filling.room]
    exact buffered.bufSize_pos.ne
  split
  · exact ⟨filling.put hroom c, congrArg Nat.succ hempty⟩
  · exact ⟨filling, hempty⟩

/-- The characters and the flush behind them stay within the bank exactly if all of the
blocks fit. -/
theorem putAll_contained_iff (buffered : Buffered file bufSize)
    (filling : Filling file bufSize size f) (hstart : headerSize + size ≤ file.areaSize)
    (text : List UInt8) {post : Bool × Nkoutfile NkChecked → Prop}
    (hpost : ∀ result, result.2.blockWritePtr.file = file → post result) :
    (putAll stack f text).Ensures (FlashCmd.Within file.areaBase file.areaSize) post ↔
      headerSize + size + roundUp (f.ptr + text.length) file.granularity ≤ file.areaSize := by
  induction text generalizing f size post with
  | nil =>
      obtain ⟨block, f', hlength, hflush, hdone⟩ := filling.flush buffered
      rw [putAll_nil, hflush, bind_assoc, List.length_nil, Nat.add_zero, ← hlength]
      simp only [Prog.ensures_bind, Prog.ensures_pure]
      constructor
      · intro h
        by_contra hover
        exact writePages_not_ensures buffered.area hstart (Nat.lt_of_not_le hover) (Nat.le_refl _)
          (h.mono fun _ _ => trivial)
      · intro hfit
        exact (writePages_ensures buffered.area hfit).mono fun _ _ => hpost _ (hdone hfit).1.bank
  | cons c text ih =>
      by_cases hfull : f.ptr = f.size
      · obtain ⟨block, f', hblock, hflush, hdone⟩ := filling.flush_full buffered hfull
        have htotal := buffered.roundUp_full (text.length + 1)
        have hshorter := roundUp_mono (Nat.le_add_right text.length 1) file.granularity
        rw [putAll_full c text hfull (by rw [filling.room]; exact buffered.bufSize_pos.ne'),
          hflush, bind_assoc, List.length_cons, hfull.trans filling.room, htotal]
        simp only [Prog.ensures_bind, pure_bind, Prog.ensures_pure]
        constructor
        · intro h
          by_cases hfit : headerSize + size + bufSize ≤ file.areaSize
          · obtain ⟨mem', hrun⟩ := writePages_nor file.eraseSize file.hasErase block.length
              (u32 (file.areaBase + (headerSize + size))) block fun _ => 0
            obtain ⟨hfilling, hempty⟩ := hdone hfit
            obtain ⟨hnext, hone⟩ := hfilling.next buffered hempty c 0
            have hrest := (ih hnext (by omega) fun _ => hpost _).mp (h.result hrun)
            rw [hone, if_pos rfl, Nat.add_comm 1] at hrest
            omega
          · exact absurd (h.mono fun _ _ => trivial) (writePages_not_ensures buffered.area hstart
              (by omega) (Nat.le_refl _))
        · intro htext
          have hfit : headerSize + size + bufSize ≤ file.areaSize := by omega
          obtain ⟨hfilling, hempty⟩ := hdone hfit
          refine (writePages_ensures buffered.area (by omega)).mono fun rtn _ => ?_
          obtain ⟨hnext, hat⟩ := hfilling.next buffered hempty c rtn
          refine (ih hnext (by omega) fun _ hbank => ?_).mpr ?_
          · exact hpost _ hbank
          · rw [hat]
            split
            · rw [Nat.add_comm 1]
              omega
            · rw [Nat.zero_add]
              omega
      · have hput := ih (filling.put hfull c) hstart hpost
        have hptr : (f.put c).ptr + text.length = f.ptr + (text.length + 1) :=
          Nat.succ_add_eq_add_succ f.ptr text.length
        rw [putAll_room c text hfull, hput, List.length_cons, hptr]

/-- A sound database has the buffer for its banks, and each has room for a header. -/
theorem NkDbase.Sound.buffered {dbase : NkDbase} (sound : dbase.Sound) (bank : Bool) :
    Buffered (dbase.bank bank) dbase.bufSize ∧
      (dbase.bank bank).eraseSize ≤ (dbase.bank bank).areaSize := by
  have sectored := sound.sectored bank
  obtain ⟨k, -, hk, hpow⟩ := sectored.erase_pow
  obtain ⟨b, hb, -, hbuf⟩ := sound.bufSize_pow
  have area : Area (dbase.bank bank).areaBase (dbase.bank bank).areaSize
      (dbase.bank bank).eraseSize :=
    ⟨⟨k, hk, hpow⟩, sectored.base_dvd, sound.whole bank, sectored.areaSize_lt,
      sectored.in_memory⟩
  have hpos : 0 < (dbase.bank bank).areaSize :=
    Nat.lt_of_lt_of_le (by decide) sectored.header_fits
  exact ⟨⟨area, sound.granularity_pow bank, hbuf ▸ Nat.two_pow_pos b,
    hbuf ▸ Nat.pow_lt_pow_right (by decide) hb⟩, Nat.le_of_dvd hpos (sound.whole bank)⟩

variable (fl : Floats) (charSigned : Bool) (stack)

/-- Whatever the flash answers, all calls of a save are inside the bank that is saved to,
exactly when the header and the image fit. -/
theorem nkDbaseSave_contained_iff {dbase : NkDbase} (sound : dbase.Sound) (rev : UInt8)
    (ram : Memory) (location : Nat) {file : NkCheckedBase}
    (hfile : file = dbase.bank (saveBank rev)) :
    Flash.Contained file.areaBase file.areaSize
        (nkDbaseSave fl charSigned stack dbase rev ram location) ↔
      headerSize + imageSize file (nkDbaseSerialize fl charSigned ram dbase.ty location) ≤
        file.areaSize := by
  have sectored : file.Sectored := hfile ▸ sound.sectored _
  obtain ⟨buffered, hsector⟩ := sound.buffered (saveBank rev)
  rw [← hfile] at buffered hsector
  have hroom := sectored.header_fits
  have filling : Filling file dbase.bufSize 0
      (nkoutfileOpen ⟨file, 0, 0⟩ dbase.buf dbase.bufSize file.granularity) :=
    ⟨rfl, rfl, rfl, rfl, Nat.zero_le _⟩
  have himage : 0 + ((1 + rev) :: nkDbaseSerialize fl charSigned ram dbase.ty location).length =
      1 + (nkDbaseSerialize fl charSigned ram dbase.ty location).length := by
    rw [List.length_cons]
    omega
  have hsave : (nkDbaseWrite fl charSigned stack dbase rev ram location ⟨file, 0, 0⟩).Ensures
      (FlashCmd.Within file.areaBase file.areaSize)
      (fun written => (nkCheckedWriteClose written.2.blockWritePtr).Ensures
        (FlashCmd.Within file.areaBase file.areaSize) fun _ => True) ↔
      headerSize + imageSize file (nkDbaseSerialize fl charSigned ram dbase.ty location) ≤
        file.areaSize := by
    rw [nkDbaseWrite_eq, imageSize, ← himage]
    refine putAll_contained_iff buffered filling hroom _ fun written hbank => ?_
    refine ⟨?_, fun _ => trivial⟩
    simp only [FlashCmd.Within, nkCheckedHeader_length, hbank]
    omega
  -- the value that is returned makes no call
  have hrest (written : Bool × Nkoutfile NkChecked) :
      (nkCheckedWriteClose written.2.blockWritePtr >>= fun closed =>
        (if written.1 || closed != 0 then pure (-1, rev) else pure (0, rev + 1) :
          FlashProg (Int × UInt8))).Ensures (FlashCmd.Within file.areaBase file.areaSize)
          (fun _ => True) ↔
        (nkCheckedWriteClose written.2.blockWritePtr).Ensures
          (FlashCmd.Within file.areaBase file.areaSize) fun _ => True := by
    rw [Prog.ensures_bind]
    refine ⟨fun h => h.mono fun _ _ => trivial, fun h => h.mono fun closed _ => ?_⟩
    split <;> exact trivial
  unfold Flash.Contained nkDbaseSave nkCheckedWriteOpen
  rw [← hfile, if_pos sectored.has_erase, ← hsave]
  simp only [Prog.ensures_bind, ensures_flashErase, Prog.ensures_pure] at hrest ⊢
  constructor
  · rintro ⟨-, h⟩
    have hopened := h 0
    rw [if_neg (not_not_intro rfl), Prog.ensures_bind] at hopened
    exact hopened.mono fun written hwritten => (hrest written).mp hwritten
  · intro h
    refine ⟨⟨Nat.le_refl _, by omega⟩, fun rtn => ?_⟩
    split
    · exact trivial
    · rw [Prog.ensures_bind]
      exact h.mono fun written hwritten => (hrest written).mpr hwritten

end

end LibnklabsPico.Dbase
