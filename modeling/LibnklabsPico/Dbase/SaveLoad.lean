/-
  Dbase/SaveLoad.lean --- what is saved to a bank is loaded from it.

  `Saving` follows the buffered writing of the data part: what the flash memory took
  and what is still in the buffer are together the characters that were put.  The last
  flush rounds up to the write granularity, so an image ends with bytes of padding that
  were in the buffer, and `nk_fscan(f, " %v", ..)` finds them behind the value.
-/
import LibnklabsPico.Dbase.FailedSave
import LibnklabsPico.Dbase.RoundTrip
import LibnklabsPico.File.Streams
import LibnklabsPico.Flash.PowerLoss

set_option autoImplicit false

namespace LibnklabsPico.Dbase

open LibnklabsPico.Foundation
open LibnklabsPico.File
open LibnklabsPico.Flash
open LibnklabsPico.Text

/-! ## Buffered writing to a checked file -/

section
variable {file : NkCheckedBase} {f : Nkoutfile NkChecked} {done data : List UInt8}

/-- An output file on a checked file that is being written: the flash memory took
`done`, and `data` is all that was put. -/
structure Saving (file : NkCheckedBase) (f : Nkoutfile NkChecked) (done data : List UInt8) :
    Prop where
  blocks : ∃ k < 32, f.granularity = 2 ^ k ∧ 2 ^ k ∣ f.size
  size_pos : 0 < f.size
  size_lt : f.size < 2 ^ 32
  ptr_le : f.ptr ≤ f.size
  blockWritePtr : f.blockWritePtr = openFile file done
  whole : f.size ∣ done.length
  data_eq : data = done ++ f.buffered

/-- The watched memory once the blocks `done` are written. -/
def blocksWritten (file : NkCheckedBase) (mem : Memory) (done : List UInt8) : Watched :=
  writing file mem done (sectorEnd file done.length)

namespace Saving

theorem length_eq (saving : Saving file f done data) : data.length = done.length + f.ptr := by
  rw [saving.data_eq, List.length_append, Nkoutfile.buffered, Memory.read_length]

theorem put (saving : Saving file f done data) (c : UInt8) (hroom : f.ptr < f.size) :
    Saving file (f.put c) done (data ++ [c]) :=
  ⟨saving.blocks, saving.size_pos, saving.size_lt, hroom, saving.blockWritePtr, saving.whole, by
    rw [Nkoutfile.buffered_put, ← List.append_assoc, ← saving.data_eq]⟩

/-- The block of a flush: the contents of the buffer, and padding. -/
theorem block_eq (saving : Saving file f done data) :
    ∃ pad, f.start.read 0 (roundWrite f.ptr f.granularity) = f.buffered ++ pad ∧
      (data ++ pad).length = roundUp data.length f.granularity := by
  obtain ⟨k, hk, hgran, hdvd⟩ := saving.blocks
  have hpos : 0 < 2 ^ k := Nat.two_pow_pos k
  have hle := le_roundUp f.ptr hpos
  have hround := roundWrite_buffered hk hdvd saving.size_lt saving.ptr_le
  refine ⟨f.start.read f.ptr (roundUp f.ptr (2 ^ k) - f.ptr), ?_, ?_⟩
  · have happend := Memory.read_append f.start 0 f.ptr (roundUp f.ptr (2 ^ k) - f.ptr)
    rw [Nat.zero_add] at happend
    rw [hgran, hround, Nkoutfile.buffered, ← happend, Nat.add_sub_cancel' hle]
  · obtain ⟨q, hq⟩ := Nat.dvd_trans hdvd saving.whole
    have hlength := saving.length_eq
    have hlt := roundUp_lt f.ptr hpos
    have htotal : roundUp data.length (2 ^ k) = done.length + roundUp f.ptr (2 ^ k) :=
      roundUp_eq (Nat.dvd_add ⟨q, hq⟩ (dvd_roundUp _ _)) (by omega) (by omega)
    rw [hgran, htotal, List.length_append, Memory.read_length, hlength]
    omega

/-- Flushing writes what is in the buffer, and padding. -/
theorem nkFflush_run (area : file.Sectored) (saving : Saving file f done data) (mem : Memory)
    (hfit : headerSize + roundUp data.length f.granularity ≤ file.areaSize) :
    ∃ pad, (data ++ pad).length = roundUp data.length f.granularity ∧
      (nkFflush (some nkCheckedWrite) f).run strictNor (blocksWritten file mem done) =
        some ((0, { f with ptr := 0, blockWritePtr := openFile file (data ++ pad) }),
          blocksWritten file mem (data ++ pad)) := by
  obtain ⟨pad, hblock, hlength⟩ := saving.block_eq
  have hdata : data ++ pad = done ++ (f.buffered ++ pad) := by
    rw [← List.append_assoc, ← saving.data_eq]
  have hroom : headerSize + done.length + (f.buffered ++ pad).length ≤ file.areaSize := by
    rw [← hlength, hdata, List.length_append] at hfit
    omega
  refine ⟨pad, hlength, ?_⟩
  unfold nkFflush
  dsimp only
  rw [saving.blockWritePtr, hblock, blocksWritten,
    Prog.run_bind_of (nkCheckedWrite_run area mem done _ hroom), hdata]
  rfl

/-- A full buffer is one block, without padding. -/
theorem nkFflush_full (area : file.Sectored) (saving : Saving file f done data) (mem : Memory)
    (hfull : f.ptr = f.size) (hfit : headerSize + data.length ≤ file.areaSize) :
    (nkFflush (some nkCheckedWrite) f).run strictNor (blocksWritten file mem done) =
        some ((0, { f with ptr := 0, blockWritePtr := openFile file data }),
          blocksWritten file mem data) ∧
      Saving file { f with ptr := 0, blockWritePtr := openFile file data } data data := by
  obtain ⟨k, hk, hgran, hdvd⟩ := saving.blocks
  have hwhole : f.size ∣ data.length := by
    rw [saving.length_eq, hfull]
    exact Nat.dvd_add saving.whole (Nat.dvd_refl _)
  have hround : roundUp data.length f.granularity = data.length := by
    rw [hgran]
    exact roundUp_of_dvd (Nat.two_pow_pos k) (Nat.dvd_trans hdvd hwhole)
  obtain ⟨pad, hlength, hrun⟩ := saving.nkFflush_run area mem (by rwa [hround])
  have hnil : pad = [] := by
    rw [hround, List.length_append] at hlength
    exact List.eq_nil_of_length_eq_zero (by omega)
  rw [hnil, List.append_nil] at hrun
  exact ⟨hrun, ⟨k, hk, hgran, hdvd⟩, saving.size_pos, saving.size_lt, Nat.zero_le _, rfl, hwhole,
    (List.append_nil data).symm⟩

variable (stack mem : Memory)

/-- One more character. -/
theorem nkFputc_run (area : file.Sectored) (saving : Saving file f done data) (c : UInt8)
    (hfit : headerSize + data.length ≤ file.areaSize) :
    ∃ f' done', (nkFputc (some nkCheckedWrite) stack f c).run strictNor
        (blocksWritten file mem done) = some ((0, f'), blocksWritten file mem done') ∧
      f'.size = f.size ∧ f'.granularity = f.granularity ∧ Saving file f' done' (data ++ [c]) := by
  unfold nkFputc
  split
  · rename_i hfull
    obtain ⟨hrun, hflushed⟩ := saving.nkFflush_full area mem hfull hfit
    unfold nkFlushAndPutc
    rw [if_pos (Nat.ne_of_gt saving.size_pos), Prog.run_bind_of hrun]
    exact ⟨_, data, rfl, rfl, rfl, hflushed.put c saving.size_pos⟩
  · rename_i hroom
    exact ⟨f.put c, done, rfl, rfl, rfl,
      saving.put c (Nat.lt_of_le_of_ne saving.ptr_le hroom)⟩

/-- One character after the other. -/
theorem nkFputs_run (area : file.Sectored) (saving : Saving file f done data)
    (chars : List UInt8) (hfit : headerSize + (data ++ chars).length ≤ file.areaSize) :
    ∃ f' done', (nkFputs (some nkCheckedWrite) stack f chars).run strictNor
        (blocksWritten file mem done) = some ((false, f'), blocksWritten file mem done') ∧
      f'.size = f.size ∧ f'.granularity = f.granularity ∧ Saving file f' done' (data ++ chars) := by
  induction chars generalizing f done data with
  | nil =>
      rw [List.append_nil]
      exact ⟨f, done, rfl, rfl, rfl, saving⟩
  | cons c chars ih =>
      have hfirst : headerSize + data.length ≤ file.areaSize := by
        rw [List.length_append] at hfit
        omega
      obtain ⟨f₁, done₁, hrun₁, hsize₁, hgran₁, hsaving₁⟩ :=
        saving.nkFputc_run stack mem area c hfirst
      obtain ⟨f₂, done₂, hrun₂, hsize₂, hgran₂, hsaving₂⟩ :=
        ih hsaving₁ (by simpa only [List.append_assoc, List.singleton_append] using hfit)
      refine ⟨f₂, done₂, ?_, hsize₂.trans hsize₁, hgran₂.trans hgran₁, by
        simpa only [List.append_assoc, List.singleton_append] using hsaving₂⟩
      unfold nkFputs
      rw [Prog.run_bind_of hrun₁, Prog.run_bind_of hrun₂]
      rfl

end Saving

end

/-! ## Saving -/

/-- The banks and the buffer of a database. -/
structure NkDbase.Sound (dbase : NkDbase) : Prop where
  sectored : ∀ one, (dbase.bank one).Sectored
  whole : ∀ one, (dbase.bank one).eraseSize ∣ (dbase.bank one).areaSize
  apart : ∀ one, (dbase.bank one).areaBase + (dbase.bank one).areaSize ≤
      (dbase.bank !one).areaBase ∨
    (dbase.bank !one).areaBase + (dbase.bank !one).areaSize ≤ (dbase.bank one).areaBase
  room : ∀ one, (dbase.bank one).areaSize + dbase.bufSize ≤ 2 ^ 32
  /-- the buffer has blocks of two to a power -/
  bufSize_pow : ∃ k < 32, headerSize ≤ 2 ^ k ∧ dbase.bufSize = 2 ^ k
  granularity_pow : ∀ one, ∃ k < 32, (dbase.bank one).granularity = 2 ^ k ∧
    2 ^ k ∣ dbase.bufSize

/-- The space for the image of a database: its revision and its text, rounded up. -/
def imageSize (file : NkCheckedBase) (text : List UInt8) : Nat :=
  roundUp (1 + text.length) file.granularity

section
variable {fl : Floats} {charSigned : Bool} {stack : Memory} {dbase : NkDbase} {rev : UInt8}
  {ram : Memory} {location : Nat}

/-- An output file on a bank that was just opened. -/
theorem NkDbase.Sound.saving (sound : dbase.Sound) (one : Bool) :
    Saving (dbase.bank one) (nkoutfileOpen (openFile (dbase.bank one) []) dbase.buf dbase.bufSize
      (dbase.bank one).granularity) [] [] := by
  obtain ⟨k, hk, -, hsize⟩ := sound.bufSize_pow
  have hpos : 0 < dbase.bufSize := hsize ▸ Nat.two_pow_pos k
  have hlt : dbase.bufSize < 2 ^ 32 := hsize ▸ Nat.pow_lt_pow_right (by decide) hk
  exact ⟨sound.granularity_pow one, hpos, hlt, Nat.zero_le _, rfl, Nat.dvd_zero _, rfl⟩

/-- The data part writes the revision, the text and padding. -/
theorem nkDbaseWrite_run (stack : Memory) (sound : dbase.Sound) (rev : UInt8) (one : Bool)
    (mem : Memory)
    (hfit : headerSize + imageSize (dbase.bank one)
      (nkDbaseSerialize fl charSigned ram dbase.ty location) ≤ (dbase.bank one).areaSize) :
    ∃ pad f, ((1 + rev) :: (nkDbaseSerialize fl charSigned ram dbase.ty location ++ pad)).length =
        imageSize (dbase.bank one) (nkDbaseSerialize fl charSigned ram dbase.ty location) ∧
      (nkDbaseWrite fl charSigned stack dbase rev ram location (openFile (dbase.bank one) [])).run
          strictNor (blocksWritten (dbase.bank one) mem []) =
        some ((false, f), blocksWritten (dbase.bank one) mem
          ((1 + rev) :: (nkDbaseSerialize fl charSigned ram dbase.ty location ++ pad))) ∧
      f.blockWritePtr = openFile (dbase.bank one)
        ((1 + rev) :: (nkDbaseSerialize fl charSigned ram dbase.ty location ++ pad)) := by
  have area := sound.sectored one
  set text := nkDbaseSerialize fl charSigned ram dbase.ty location with htext
  have hle : 1 + text.length ≤ imageSize (dbase.bank one) text := by
    obtain ⟨k, -, hgran, -⟩ := sound.granularity_pow one
    rw [imageSize, hgran]
    exact le_roundUp _ (Nat.two_pow_pos k)
  obtain ⟨f₁, done₁, hrun₁, -, hgran₁, hsaving₁⟩ :=
    (sound.saving one).nkFputc_run stack mem area (1 + rev) (by simp; omega)
  obtain ⟨f₂, done₂, hrun₂, -, hgran₂, hsaving₂⟩ :=
    hsaving₁.nkFputs_run stack mem area text (by simp; omega)
  have hlength : ([] ++ [1 + rev] ++ text).length = 1 + text.length := by simp; omega
  have hgran : f₂.granularity = (dbase.bank one).granularity := hgran₂.trans hgran₁
  obtain ⟨pad, hpad, hrun₃⟩ := hsaving₂.nkFflush_run area mem (by
    rwa [hlength, hgran])
  rw [hlength, hgran] at hpad
  refine ⟨pad, { f₂ with
    ptr := 0, blockWritePtr := openFile (dbase.bank one) ((1 + rev) :: (text ++ pad)) }, hpad, ?_,
    rfl⟩
  unfold nkDbaseWrite
  dsimp only [openFile_file]
  rw [Prog.run_bind_of hrun₁]
  dsimp only
  rw [← htext, Prog.run_bind_of hrun₂]
  dsimp only
  rw [Prog.run_bind_of hrun₃]
  rfl

/-- A save whose three parts succeed. -/
theorem nkDbaseSave_run_of {σ : Type} {h : Handler FlashCmd (fun _ => Int) σ} {s s₁ s₂ s₃ : σ}
    {ofilt : NkChecked} {f : Nkoutfile NkChecked}
    (hopen : (nkCheckedWriteOpen (dbase.bank (saveBank rev))).run h s = some ((0, ofilt), s₁))
    (hwrite : (nkDbaseWrite fl charSigned stack dbase rev ram location ofilt).run h s₁ =
      some ((false, f), s₂))
    (hclose : (nkCheckedWriteClose f.blockWritePtr).run h s₂ = some (0, s₃)) :
    (nkDbaseSave fl charSigned stack dbase rev ram location).run h s =
      some ((0, rev + 1), s₃) := by
  unfold nkDbaseSave
  rw [Prog.run_bind_of hopen]
  simp only [ne_eq, not_true_eq_false, if_false]
  rw [Prog.run_bind_of hwrite]
  dsimp only
  rw [Prog.run_bind_of hclose]
  rfl

/-- A save into a bank with enough space: the watched memory allows every call, and the
memory left is the one with the image in the bank. -/
theorem nkDbaseSave_run (fl : Floats) (charSigned : Bool) (stack : Memory) (sound : dbase.Sound)
    (rev : UInt8) (ram : Memory) (location : Nat) (mem : Memory)
    (hfit : headerSize + imageSize (dbase.bank (saveBank rev))
      (nkDbaseSerialize fl charSigned ram dbase.ty location) ≤
        (dbase.bank (saveBank rev)).areaSize) :
    ∃ pad dev, ((rev + 1) :: (nkDbaseSerialize fl charSigned ram dbase.ty location ++ pad)).length =
        imageSize (dbase.bank (saveBank rev))
          (nkDbaseSerialize fl charSigned ram dbase.ty location) ∧
      (nkDbaseSave fl charSigned stack dbase rev ram location).run strictNor (Watched.start mem) =
        some ((0, rev + 1), dev) ∧
      dev.mem = stored (dbase.bank (saveBank rev)) mem
        ((rev + 1) :: (nkDbaseSerialize fl charSigned ram dbase.ty location ++ pad)) := by
  have area := sound.sectored (saveBank rev)
  obtain ⟨pad, f, hlength, hwrite, hfile⟩ :=
    nkDbaseWrite_run stack sound rev (saveBank rev) mem hfit
  obtain ⟨dev, hclose, hmem⟩ := nkCheckedWriteClose_run mem
    ((1 + rev) :: (nkDbaseSerialize fl charSigned ram dbase.ty location ++ pad)) area
  rw [← hfile] at hclose
  rw [UInt8.add_comm] at hlength hmem
  exact ⟨pad, dev, hlength, nkDbaseSave_run_of (nkCheckedWriteOpen_run area mem) hwrite hclose,
    hmem⟩

/-! ## Loading -/

/-- A good bank that is opened as an input file. -/
theorem openBank_holds (sound : dbase.Sound) (one : Bool) {mem : Memory} {data : List UInt8}
    (holds : Holds mem (dbase.bank one) data) (varFile : NkChecked) (buf : List UInt8) :
    ∃ f, openBank mem.reader varFile (dbase.bank one) dbase.bufSize buf =
        (true, openFile (dbase.bank one) data, f) ∧ Agrees f (Cursor.at [] data) := by
  obtain ⟨k, hk, hheader, hsize⟩ := sound.bufSize_pow
  have area := sound.sectored one
  have hroom := sound.room one
  have hfits := holds.fits
  have hpos : 0 < dbase.bufSize := hsize ▸ Nat.two_pow_pos k
  have hopen := holds.nkCheckedReadOpen_eq area varFile hpos
  refine ⟨nkinfileOpen 32 (some (nkCheckedRead mem.reader (openFile (dbase.bank one) data)))
    dbase.bufSize buf, ?_, ?_⟩
  · unfold openBank
    rw [hopen]
    rfl
  · simp only [headerSize] at hfits
    rw [hsize] at hroom ⊢
    refine @nkinfileOpen_agrees 32 data buf _ k (by omega) hk fun pos hpos _ => ?_
    exact holds.nkCheckedRead_eq area hpos (by omega)

/-- The revision at the start of an image. -/
theorem fgetcRev_eq {f : Nkinfile 32} {rev : UInt8} {rest : List UInt8}
    (hfile : Agrees f (Cursor.at [] (rev :: rest))) : fgetcRev f = rev := by
  obtain ⟨hresult, -⟩ := exec_spec hfile .getc trivial trivial
  have hplain : (FileOp.execPlain .getc (Cursor.at [] (rev :: rest))).1 = rev.toNat := by
    rfl
  rw [fgetcRev, hresult, hplain, ofNat_wrap]

/-- A bank that holds an image of this revision is good, and says so. -/
theorem openBank_image (sound : dbase.Sound) (one : Bool) {mem : Memory} {rev : UInt8}
    {rest : List UInt8} (holds : Holds mem (dbase.bank one) (rev :: rest)) (varFile : NkChecked)
    (buf : List UInt8) :
    (openBank mem.reader varFile (dbase.bank one) dbase.bufSize buf).1 = true ∧
      fgetcRev (openBank mem.reader varFile (dbase.bank one) dbase.bufSize buf).2.2 = rev := by
  obtain ⟨f, hopen, hfile⟩ := openBank_holds sound one holds varFile buf
  rw [hopen]
  exact ⟨rfl, fgetcRev_eq hfile⟩

/-- A bank that is good holds a file. -/
theorem openBank_good (sound : dbase.Sound) (one : Bool) {mem : Memory} {varFile : NkChecked}
    {buf : List UInt8}
    (hgood : (openBank mem.reader varFile (dbase.bank one) dbase.bufSize buf).1 = true) :
    ∃ data, Holds mem (dbase.bank one) data := by
  obtain ⟨k, hk, -, hsize⟩ := sound.bufSize_pow
  have hpos : 0 < dbase.bufSize := hsize ▸ Nat.two_pow_pos k
  have area := (sound.sectored one).inMemory
  have hzero : (nkCheckedReadOpen mem.reader varFile (dbase.bank one) dbase.bufSize).1 = 0 :=
    eq_of_beq hgood
  exact (NkCheckedBase.matches_iff_holds area mem).mp
    ((nkCheckedReadOpen_eq_zero area mem varFile hpos).mp hzero)

/-- The other bank is bad, or what it holds is of the revision before. -/
def Older (dbase : NkDbase) (mem : Memory) (rev : UInt8) : Prop :=
  ∀ data, Holds mem (dbase.bank !saveBank rev) data → ∃ rest, data = rev :: rest

/-- Of two revisions one after the other the signed comparison finds the later one. -/
theorem chooseBank_later {good : Bool → Bool} {revs : Bool → UInt8} {rev : UInt8} {one : Bool}
    (hgood : good one = true) (hrev : revs one = rev + 1)
    (hother : good (!one) = true → revs (!one) = rev) :
    chooseBank (good false) (good true) (revs false) (revs true) = some one := by
  have hnext : (rev + 1).toNat = (rev.toNat + 1) % 256 := UInt8.toNat_add rev 1
  have hlt := rev.toNat_lt
  unfold chooseBank
  cases one with
  | false =>
      rw [Bool.not_false] at hother
      cases hone : good true with
      | false => simp [hgood]
      | true =>
          have hsigned : signed 8 (((revs false).toNat : Int) - (revs true).toNat) ≥ 0 := by
            rw [hrev, hother hone, hnext, signed]
            omega
          simp only [hgood, Bool.and_self, if_true, if_pos hsigned]
  | true =>
      rw [Bool.not_true] at hother
      cases hzero : good false with
      | false => simp [hgood]
      | true =>
          have hsigned : ¬ signed 8 (((revs false).toNat : Int) - (revs true).toNat) ≥ 0 := by
            rw [hrev, hother hzero, hnext, signed]
            omega
          simp only [hgood, Bool.and_self, if_true, if_neg hsigned]

/-- `nk_dbase_load` opens each bank and asks for its revision. -/
theorem loadBank_opened (flashRead : FlashRead) (varFile : NkChecked) (dbase : NkDbase)
    (buf : List UInt8) :
    ∃ opened : Bool → Bool × NkChecked × Nkinfile 32,
      (∀ one, ∃ varFile buf,
        opened one = openBank flashRead varFile (dbase.bank one) dbase.bufSize buf) ∧
      loadBank flashRead varFile dbase buf =
        (chooseBank (opened false).1 (opened true).1 (fgetcRev (opened false).2.2)
            (fgetcRev (opened true).2.2),
          fgetcRev (opened false).2.2, fgetcRev (opened true).2.2) := by
  obtain ⟨zero, hzero⟩ : ∃ zero, openBank flashRead varFile (dbase.bank false) dbase.bufSize buf =
    zero := ⟨_, rfl⟩
  obtain ⟨one, hone⟩ : ∃ one, openBank flashRead zero.2.1 (dbase.bank true) dbase.bufSize
    zero.2.2.start = one := ⟨_, rfl⟩
  refine ⟨fun b => if b then one else zero, fun b => ?_, ?_⟩
  · cases b with
    | false => exact ⟨_, _, hzero.symm⟩
    | true => exact ⟨_, _, hone.symm⟩
  · subst hone hzero
    rfl

/-- `nk_dbase_load` uses the bank of the last save. -/
theorem loadBank_last (sound : dbase.Sound) {mem : Memory} {rev : UInt8} {rest : List UInt8}
    (holds : Holds mem (dbase.bank (saveBank rev)) ((rev + 1) :: rest))
    (older : Older dbase mem rev) (varFile : NkChecked) (buf : List UInt8) :
    ∃ zeroRev oneRev, loadBank mem.reader varFile dbase buf =
        (some (saveBank rev), zeroRev, oneRev) ∧
      (if saveBank rev then oneRev else zeroRev) = rev + 1 := by
  obtain ⟨opened, hopened, hload⟩ := loadBank_opened mem.reader varFile dbase buf
  have hsaved : (opened (saveBank rev)).1 = true ∧
      fgetcRev (opened (saveBank rev)).2.2 = rev + 1 := by
    obtain ⟨varFile, buf, hopen⟩ := hopened (saveBank rev)
    rw [hopen]
    exact openBank_image sound (saveBank rev) holds varFile buf
  have hother : (opened !saveBank rev).1 = true →
      fgetcRev (opened !saveBank rev).2.2 = rev := by
    obtain ⟨varFile, buf, hopen⟩ := hopened (!saveBank rev)
    rw [hopen]
    intro hgood
    obtain ⟨data, hdata⟩ := openBank_good sound (!saveBank rev) hgood
    obtain ⟨rest', rfl⟩ := older data hdata
    exact (openBank_image sound (!saveBank rev) hdata varFile buf).2
  have hchoose := @chooseBank_later (fun one => (opened one).1)
    (fun one => fgetcRev (opened one).2.2) rev (saveBank rev) hsaved.1 hsaved.2 hother
  refine ⟨_, _, hload.trans (by rw [hchoose]), ?_⟩
  rw [← hsaved.2]
  cases saveBank rev <;> rfl

/-- `nk_dbase_load` uses no bank where neither is good. -/
theorem loadBank_none (sound : dbase.Sound) {mem : Memory}
    (hbad : ∀ one data, ¬ Holds mem (dbase.bank one) data) (varFile : NkChecked)
    (buf : List UInt8) : (loadBank mem.reader varFile dbase buf).1 = none := by
  obtain ⟨opened, hopened, hload⟩ := loadBank_opened mem.reader varFile dbase buf
  have hnot : ∀ one, (opened one).1 = false := by
    intro one
    obtain ⟨varFile, buf, hopen⟩ := hopened one
    rw [hopen, ← Bool.not_eq_true]
    intro hgood
    obtain ⟨data, hdata⟩ := openBank_good sound one hgood
    exact hbad one data hdata
  rw [hload, hnot, hnot]
  rfl

/-! ## The other bank -/

/-- Outside one bank is the other one. -/
theorem NkDbase.Sound.same_bank (sound : dbase.Sound) {one : Bool} {mem mem' : Memory}
    (hsame : ∀ a, Outside (dbase.bank one) a → mem' a = mem a) :
    ∀ a, (dbase.bank !one).areaBase ≤ a →
      a < (dbase.bank !one).areaBase + (dbase.bank !one).areaSize → mem' a = mem a := by
  intro a hlow hhigh
  have hapart := sound.apart one
  refine hsame a ?_
  rw [Outside]
  omega

/-- The other bank stays as it is while the memory changes in one bank. -/
theorem Older.of_same (sound : dbase.Sound) {mem mem' : Memory} (older : Older dbase mem rev)
    (hsame : ∀ a, Outside (dbase.bank (saveBank rev)) a → mem' a = mem a) :
    Older dbase mem' rev :=
  fun data holds => older data (Holds.congr (sound.same_bank hsame) holds)

/-! ## The round trip -/

/-- The scan of an image reads the value back.  Its status tells whether the image ends
with the value: the format asks for the end of the input. -/
theorem run_loadScan {type : Ty} (hwf : WellFormed type) {fuel : Nat} {pad : List UInt8}
    (hclosed : type.closed = true ∨ pad = []) (hok : ValueOk ram type location)
    (location' : Nat) (ram₀ : Memory) {f : Nkinfile 32}
    (hfile : Agrees f (Cursor.at []
      (rev :: (nkDbaseSerialize fl charSigned ram type location ++ pad))))
    (hfuel : (nkDbaseSerialize fl charSigned ram type location ++ pad).length < fuel) :
    ∃ ram₁ f', (loadScan fl fuel type location' ram₀).run (nkinfile 32) f =
        some ((pad.isEmpty, ram₁), f') ∧
      Restored ram ram₁ type location location' ∧
      SameOutside ram₀ ram₁ location' type.extent := by
  set text := nkDbaseSerialize fl charSigned ram type location with htext
  have hfollows : type.closed = true ∨ nkIsspace (peekHead pad) = false ∧ Ends (peekHead pad) := by
    refine hclosed.imp id fun hnil => ?_
    rw [hnil]
    exact ⟨by decide, Or.inl rfl⟩
  obtain ⟨ram₁, htakes, hrestored, hsame⟩ :=
    @takes_serialize fl charSigned ram fuel type hwf location hok location' ram₀ pad hfollows hfuel
  rw [← htext] at htakes
  have hspace : nkIsspace (peekHead (text ++ pad)) = false := by
    rw [htext, nkDbaseSerialize_eq fl charSigned ram type hwf 0]
    exact (layout_head .compact fl charSigned ram hwf 0 location pad).facts.1
  have hblank : Blank [] := fun b hb => absurd hb List.not_mem_nil
  have hscan : Takes (scanDirectives fl fuel false
      (parseFmt (ascii " %v").length (ascii " %v"))
      [.value (nkFscanKeyval fl fuel type location')] [] ram₀) text pad
      (peekHead pad == -1, [], ram₁) :=
    takes_blank hblank hspace (Nat.zero_le fuel) (takes_value_end htakes)
  have hstatus : (peekHead pad == -1) = pad.isEmpty := by
    cases pad with
    | nil => rfl
    | cons c pad => exact beq_eq_false_iff_ne.mpr (by simp only [peekHead]; omega)
  rw [hstatus] at hscan
  have hload : ∃ tok rest, tok ++ rest = rev :: (text ++ pad) ∧
      Takes (loadScan fl fuel type location' ram₀) tok rest (pad.isEmpty, ram₁) := by
    cases hpad : pad.isEmpty with
    | true =>
        refine ⟨[rev] ++ text, pad, rfl, Takes.bind (Takes.getc rev _) ?_⟩
        exact Takes.finish (Takes.orRewind_ok hscan hpad) (hpad ▸ Takes.pure _ pad)
    | false =>
        refine ⟨[rev], text ++ pad, rfl, Takes.finish (Takes.getc rev _) ?_⟩
        exact Takes.finish (Takes.orRewind_fail hscan hpad) (hpad ▸ Takes.pure _ _)
  obtain ⟨tok, rest, hinput, htakes'⟩ := hload
  have hrun := htakes' []
  rw [hinput] at hrun
  obtain ⟨f', hrun', -⟩ := run_of_plainFile hfile hrun
  exact ⟨ram₁, f', hrun', hrestored, hsame⟩

/-- `nk_dbase_load` on the image of the last save. -/
theorem nkDbaseLoad_image (sound : dbase.Sound) (hwf : WellFormed dbase.ty)
    (hok : ValueOk ram dbase.ty location) {mem : Memory} {pad : List UInt8}
    (hclosed : dbase.ty.closed = true ∨ pad = [])
    (holds : Holds mem (dbase.bank (saveBank rev))
      ((rev + 1) :: (nkDbaseSerialize fl charSigned ram dbase.ty location ++ pad)))
    (older : Older dbase mem rev) {fuel : Nat}
    (hfuel : ∀ one, (dbase.bank one).areaSize ≤ fuel) (varFile : NkChecked) (buf : List UInt8)
    (rev₀ : UInt8) (ram₀ : Memory) (location' : Nat) :
    ∃ ram₁, nkDbaseLoad fl fuel mem.reader varFile dbase buf rev₀ ram₀ location' =
        some (if pad = [] then 0 else -1, rev + 1, ram₁) ∧
      Restored ram ram₁ dbase.ty location location' ∧
      SameOutside ram₀ ram₁ location' dbase.ty.extent := by
  obtain ⟨zeroRev, oneRev, hload, hrev⟩ := loadBank_last sound holds older varFile buf
  obtain ⟨f, hopen, hfile⟩ := openBank_holds sound (saveBank rev) holds varFile buf
  have hroom : (nkDbaseSerialize fl charSigned ram dbase.ty location ++ pad).length < fuel := by
    have hfits := holds.fits
    have harea := hfuel (saveBank rev)
    rw [List.length_cons] at hfits
    omega
  obtain ⟨ram₁, f', hrun, hrestored, hsame⟩ :=
    run_loadScan hwf hclosed hok location' ram₀ hfile hroom
  refine ⟨ram₁, ?_, hrestored, hsame⟩
  unfold nkDbaseLoad
  rw [hload]
  dsimp only
  rw [hopen]
  dsimp only
  rw [hrun, hrev]
  cases pad <;> rfl

/-- There is no padding exactly where the image fills its last piece of flash memory. -/
theorem pad_eq_nil_iff {file : NkCheckedBase} (hpos : 0 < file.granularity) {text pad : List UInt8}
    (hlength : (rev :: (text ++ pad)).length = imageSize file text) :
    pad = [] ↔ file.granularity ∣ 1 + text.length := by
  rw [imageSize, List.length_cons, List.length_append] at hlength
  constructor
  · rintro rfl
    have hdvd := dvd_roundUp (1 + text.length) file.granularity
    rw [← hlength, List.length_nil] at hdvd
    rwa [show 1 + text.length = text.length + 0 + 1 by omega]
  · intro hdvd
    rw [roundUp_of_dvd hpos hdvd] at hlength
    exact List.eq_nil_of_length_eq_zero (by omega)

/-- Saving and loading: whatever is in the bank that is written, and as long as the other
bank is bad or has the revision before, the save succeeds, no byte is programmed twice
or without having been erased, no byte outside of the bank changes, and the next load
takes the revision and the value from this bank.  The load tells of success only when
there is no padding behind the value. -/
theorem nkDbaseSave_nkDbaseLoad (fl : Floats) (charSigned : Bool) (stack : Memory)
    (sound : dbase.Sound) (hwf : WellFormed dbase.ty) (hclosed : dbase.ty.closed = true)
    (hok : ValueOk ram dbase.ty location) {mem : Memory} (older : Older dbase mem rev)
    (hfit : headerSize + imageSize (dbase.bank (saveBank rev))
      (nkDbaseSerialize fl charSigned ram dbase.ty location) ≤
        (dbase.bank (saveBank rev)).areaSize) :
    ∃ dev, (nkDbaseSave fl charSigned stack dbase rev ram location).run strictNor
        (Watched.start mem) = some ((0, rev + 1), dev) ∧
      (∀ a, a < (dbase.bank (saveBank rev)).areaBase ∨ (dbase.bank (saveBank rev)).areaBase +
        (dbase.bank (saveBank rev)).areaSize ≤ a → dev.mem a = mem a) ∧
      (∀ a, (dbase.bank !saveBank rev).areaBase ≤ a →
        a < (dbase.bank !saveBank rev).areaBase + (dbase.bank !saveBank rev).areaSize →
        dev.mem a = mem a) ∧
      Older dbase dev.mem rev ∧
      ∀ (fuel : Nat) (varFile : NkChecked) (buf : List UInt8) (rev₀ : UInt8) (ram₀ : Memory)
        (location' : Nat), (∀ one, (dbase.bank one).areaSize ≤ fuel) →
        ∃ ram₁, nkDbaseLoad fl fuel dev.mem.reader varFile dbase buf rev₀ ram₀ location' =
            some (if (dbase.bank (saveBank rev)).granularity ∣
              1 + (nkDbaseSerialize fl charSigned ram dbase.ty location).length then 0 else -1,
              rev + 1, ram₁) ∧
          Restored ram ram₁ dbase.ty location location' ∧
          SameOutside ram₀ ram₁ location' dbase.ty.extent := by
  have area := sound.sectored (saveBank rev)
  obtain ⟨pad, dev, hlength, hrun, hmem⟩ :=
    nkDbaseSave_run fl charSigned stack sound rev ram location mem hfit
  have hroom : headerSize +
      ((rev + 1) :: (nkDbaseSerialize fl charSigned ram dbase.ty location ++ pad)).length ≤
        (dbase.bank (saveBank rev)).areaSize := by rwa [hlength]
  have holds := stored_holds mem hroom
  have houtside : ∀ a, a < (dbase.bank (saveBank rev)).areaBase ∨
      (dbase.bank (saveBank rev)).areaBase + (dbase.bank (saveBank rev)).areaSize ≤ a →
      dev.mem a = mem a := by
    intro a ha
    rw [hmem]
    exact stored_outside area (sound.whole _) hroom ha
  have hbank : ∀ a, (dbase.bank !saveBank rev).areaBase ≤ a →
      a < (dbase.bank !saveBank rev).areaBase + (dbase.bank !saveBank rev).areaSize →
      dev.mem a = mem a := by
    intro a hlow hhigh
    have hapart := sound.apart (saveBank rev)
    exact houtside a (by omega)
  have hother : Older dbase dev.mem rev := older.of_same sound houtside
  rw [← hmem] at holds
  have hpos : 0 < (dbase.bank (saveBank rev)).granularity := by
    obtain ⟨k, -, hgran, -⟩ := sound.granularity_pow (saveBank rev)
    exact hgran ▸ Nat.two_pow_pos k
  refine ⟨dev, hrun, houtside, hbank, hother, fun fuel varFile buf rev₀ ram₀ location' hfuel => ?_⟩
  obtain ⟨ram₁, hload, hrest⟩ := nkDbaseLoad_image sound hwf hok (Or.inl hclosed) holds hother hfuel
    varFile buf rev₀ ram₀ location'
  refine ⟨ram₁, hload.trans ?_, hrest⟩
  simp only [pad_eq_nil_iff hpos hlength]

/-- Two banks of 64 bytes for a string, written in pieces of four bytes. -/
def pieceDbase : NkDbase :=
  { ty := .tString 4 none, bank0 := ⟨64, 0, 16, true, 4⟩, bank1 := ⟨64, 64, 16, true, 4⟩
    buf := fun _ => 0, bufSize := 16 }

theorem pieceDbase_sound : pieceDbase.Sound := by
  have hsectored : ∀ one, (pieceDbase.bank one).Sectored := fun one => by
    cases one with
    | false =>
        exact ⟨rfl, ⟨4, by decide, by decide, rfl⟩, ⟨0, rfl⟩, by decide, by decide, by decide⟩
    | true => exact ⟨rfl, ⟨4, by decide, by decide, rfl⟩, ⟨4, rfl⟩, by decide, by decide, by decide⟩
  exact ⟨hsectored, by decide, by decide, by decide, ⟨4, by decide, by decide, rfl⟩,
    fun one => ⟨2, by decide, by cases one <;> rfl, by decide⟩⟩

theorem pieceDbase_wellFormed : WellFormed pieceDbase.ty := by
  simp [pieceDbase, WellFormed, Check.Accepts, Check.passes]

/-- `"hi"` is saved to an erased flash memory; with its quotes and the revision it takes
five bytes, so there is padding. -/
theorem nkDbaseSave_nkDbaseLoad_piece :
    ∃ dev ram₁, (nkDbaseSave .absent true (fun _ => 0) pieceDbase 0
        (fun a => [104, 105].getD a 0) 0).run strictNor (Watched.start fun _ => 0xFF) =
        some ((0, 1), dev) ∧
      (∀ a, a < 64 → dev.mem a = 0xFF) ∧
      nkDbaseLoad .absent 64 dev.mem.reader ⟨pieceDbase.bank0, 0, 0⟩ pieceDbase [] 0
        (fun _ => 0) 100 = some (-1, 1, ram₁) := by
  have area := (pieceDbase_sound.sectored !saveBank 0).inMemory
  have older : Older pieceDbase (fun _ => 0xFF) 0 := fun data holds =>
    absurd holds (not_holds_erased area (fun _ _ _ => rfl) data)
  have hok : ValueOk (fun a => [104, 105].getD a 0) pieceDbase.ty 0 := by
    simp only [pieceDbase, ValueOk]
    decide
  obtain ⟨dev, hrun, -, hbank, -, hload⟩ := nkDbaseSave_nkDbaseLoad .absent true (fun _ => 0)
    pieceDbase_sound pieceDbase_wellFormed rfl hok older (by decide +kernel)
  obtain ⟨ram₁, hloaded, -, -⟩ :=
    hload 64 ⟨pieceDbase.bank0, 0, 0⟩ [] 0 (fun _ => 0) 100 (by decide)
  refine ⟨dev, ram₁, hrun, fun a ha => hbank a (Nat.zero_le a) ha, hloaded.trans ?_⟩
  rw [if_neg (by decide +kernel)]
  rfl

end

end LibnklabsPico.Dbase
