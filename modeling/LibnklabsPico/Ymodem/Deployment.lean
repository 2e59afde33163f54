/-
  Ymodem/Deployment.lean --- a file sent over the line is stored in the flash memory.

  The handler learns no more from the name it is passed than the text and the size that the
  sender's header was made of.  So the calls of a transfer over the lossy line decide what is
  stored, and all of the file is stored before the bootloader flag is touched.
-/
import LibnklabsPico.Ymodem.Upload

set_option autoImplicit false

namespace LibnklabsPico.Ymodem

open LibnklabsPico.File
open LibnklabsPico.Flash
open LibnklabsPico.Foundation
open LibnklabsPico.Text

/-! ## What the handler reads of a name -/

/-- `"fpga"` -/
def fpgaStart : List UInt8 := [102, 112, 103, 97]

/-- Up to the NUL a name agrees with its text. -/
theorem getD_takeWhile (name : List UInt8) {i : Nat} (hi : i ≤ textLen name) :
    (name.takeWhile (· != 0)).getD i 0 = name.getD i 0 := by
  induction name generalizing i with
  | nil => rfl
  | cons c name ih =>
      rw [List.takeWhile_cons]
      cases hc : c != 0 with
      | false =>
          have hzero : c = 0 := by simpa using hc
          have hnone : textLen (c :: name) = 0 := by simp [textLen, hzero]
          obtain rfl : i = 0 := Nat.le_zero.mp (hnone ▸ hi)
          exact hzero.symm
      | true =>
          have hmore : textLen (c :: name) = textLen name + 1 := by
            simp [textLen, hc]
          cases i with
          | zero => rfl
          | succ i =>
              rw [hmore] at hi
              exact ih (Nat.le_of_succ_le_succ hi)

/-- Nothing behind the NUL is compared. -/
theorem startsWith_takeWhile (name : List UInt8) {i : Nat} (hi : i ≤ textLen name)
    {start : List UInt8} (hstart : ∀ c ∈ start, c ≠ 0) :
    (startsWith (name.takeWhile (· != 0)) i start).value = (startsWith name i start).value := by
  induction start generalizing i with
  | nil => rfl
  | cons c start ih =>
      have hbyte := getD_takeWhile name hi
      have hstep (text : List UInt8) : (startsWith text i (c :: start)).value =
          if text.getD i 0 = c then (startsWith text (i + 1) start).value else false := by
        rw [startsWith]
        change (ite _ _ _ : Reads Bool).value = _
        rw [byteAt_value]
        split <;> rfl
      rw [hstep, hstep, hbyte]
      split
      · rename_i hc
        have hlt : i < textLen name := by
          apply Nat.lt_of_le_of_ne hi
          rintro rfl
          have hend : (name.takeWhile (· != 0)).getD (textLen name) 0 = 0 :=
            List.getD_eq_default _ _ (Nat.le_refl _)
          exact hstart c List.mem_cons_self (hc.symm.trans (hbyte.symm.trans hend))
        exact ih hlt fun c' hc' => hstart c' (List.mem_cons_of_mem _ hc')
      · rfl

theorem fpgaStart_ne : ∀ c ∈ fpgaStart, c ≠ 0 := by decide +kernel

/-- What `ymodem_recv_file_open` finds in a name. -/
theorem ymodemRecvFileOpen_value (name : List UInt8) :
    (ymodemRecvFileOpen name).value =
      ⟨name.takeWhile (· != 0) ++ [0], headerFileSize name,
        (startsWith (name.takeWhile (· != 0)) 0 fpgaStart).value⟩ := by
  have hparts : (ymodemRecvFileOpen name).value =
      ⟨name.take (textLen name) ++ [0], (scanFileSize name).value,
        (startsWith name 0 fpgaStart).value⟩ := by
    unfold ymodemRecvFileOpen scanFileSize
    change (ite _ _ _ : Reads Opened).value = ⟨_, (ite _ _ _ : Reads Nat).value, _⟩
    split <;> rfl
  rw [hparts, take_textLen, scanFileSize_value,
    startsWith_takeWhile name (Nat.zero_le _) fpgaStart_ne]

theorem regionOf_eq (name : List UInt8) :
    regionOf name = regionFor (startsWith name 0 fpgaStart).value := by
  rw [regionOf, ymodemRecvFileOpen_value, startsWith_takeWhile name (Nat.zero_le _) fpgaStart_ne]

/-! ## Calls -/

/-- What a call does in the handler. -/
def Upload.call (fl : Floats) : Call → Upload → FlashProg (Option Upload)
  | .open name size, u => do
      match ← u.fileOpen ⟨name ++ [0], size, (startsWith name 0 fpgaStart).value⟩ with
      | some (rtn, u) => return if rtn = 0 then some u else none
      | none => return none
  | .write data, u => do
      let u ← u.fileWrite data
      return some u
  | .close, u => do
      let u ← u.fileClose
      return some u
  | .cancel, u => return some u
  | .allDone, u => do
      let _ ← u.recvAllDone fl
      return some u

/-- What several calls do. -/
def Upload.calls (fl : Floats) : List Call → Upload → FlashProg (Option Upload)
  | [], u => return some u
  | call :: made, u => do
      match ← u.call fl call with
      | some u => u.calls fl made
      | none => return none

/-- Opening a file depends on the text of the name and the size only. -/
theorem Upload.event_openFile_call (fl : Floats) (u : Upload) (name : List UInt8) :
    u.event fl (.openFile name 0) =
      u.call fl (.open (name.takeWhile (· != 0)) (headerFileSize name)) := by
  rw [Upload.event, ymodemRecvFileOpen_value]
  rfl

/-- Between the starts of transfers only the calls matter. -/
theorem Upload.events_calls (fl : Floats) (u : Upload) {trace : List Event}
    (hstart : .start ∉ trace) (hopen : ∀ name rtn, .openFile name rtn ∈ trace → rtn = 0) :
    u.events fl trace = u.calls fl (trace.filterMap Event.call) := by
  induction trace generalizing u with
  | nil => rfl
  | cons event trace ih =>
      have hrest (u : Upload) : u.events fl trace = u.calls fl (trace.filterMap Event.call) := by
        apply ih u
        · exact fun h => hstart (List.mem_cons_of_mem _ h)
        · exact fun name rtn h => hopen name rtn (List.mem_cons_of_mem _ h)
      cases event with
      | start => exact absurd List.mem_cons_self hstart
      | openFile name rtn =>
          obtain rfl := hopen name rtn List.mem_cons_self
          simp only [Upload.events, Upload.event_openFile_call, hrest]
          rfl
      | write | close | cancel | allDone =>
          simp only [Upload.events, hrest]
          rfl
      | timeout | received | store | rcv | putc =>
          rw [Upload.events]
          simp only [hrest]
          rfl

/-! ## A whole transfer -/

/-- The handler while a file comes in. -/
structure Copying (name : List UInt8) (size : Nat) (data : List UInt8) (u : Upload) : Prop where
  text : u.name = name
  dldExact : u.dldExact = size
  ymodemFile : u.ymodemFile = directFile (regionOf name) data

section

variable (fl : Floats) {h : Handler FlashCmd (fun _ => Int) Memory}

/-- Calls behind other calls. -/
theorem Upload.calls_append {fl : Floats} {made made' : List Call} {u u' : Upload}
    {flash flash' : Memory}
    (hrun : (u.calls fl made).run h flash = some (some u', flash')) :
    (u.calls fl (made ++ made')).run h flash = (u'.calls fl made').run h flash' := by
  induction made generalizing u flash with
  | nil =>
      obtain ⟨hu, rfl⟩ := Prod.mk.inj (Option.some.inj hrun)
      obtain rfl := Option.some.inj hu
      rfl
  | cons call made ih =>
      rw [Upload.calls, Prog.run_bind] at hrun
      cases hcall : (u.call fl call).run h flash with
      | none =>
          rw [hcall] at hrun
          cases hrun
      | some result =>
          obtain ⟨u₁, flash₁⟩ := result
          rw [hcall] at hrun
          rw [List.cons_append, Upload.calls, Prog.run_bind_of hcall]
          cases u₁ with
          | none => cases hrun
          | some u₁ => exact ih hrun

variable {w : Nat} {allowLong : Bool} {packetBuffer : Memory} {contents name : List UInt8}

/-- One call. -/
theorem Upload.calls_singleton {call : Call} {u u' : Upload} {flash flash' : Memory}
    (hrun : (u.call fl call).run h flash = some (some u', flash')) :
    (u.calls fl [call]).run h flash = some (some u', flash') := by
  rw [Upload.calls, Prog.run_bind_of hrun]
  rfl

/-- The header. -/
theorem copying_open (u : Upload) (hname : ∀ c ∈ name, c ≠ 0) (hlength : name.length ≤ 113)
    (size : Nat) (flash : Memory) :
    ∃ u', (u.call fl (.open name size)).run h flash = some (some u', flash) ∧
      Copying name size [] u' := by
  obtain ⟨u', hopen, htext, hsize, -, hfile⟩ := u.fileOpen_eq
    ⟨name ++ [0], size, (startsWith name 0 fpgaStart).value⟩ rfl (by omega) hname
  refine ⟨u', ?_, htext, hsize, ?_⟩
  · rw [Upload.call, hopen, pure_bind]
    rfl
  · rw [hfile, regionOf_eq]
    rfl

/-- One more piece of the file. -/
theorem copying_write (norLike : NorLike h) {u : Upload} {size : Nat} {data piece : List UInt8}
    (copying : Copying name size data u) (mem : Memory)
    (hfit : (data ++ piece).length ≤ (regionOf name).areaSize) :
    ∃ u', (u.call fl (.write piece)).run h (filled (regionOf name) mem data) =
        some (some u', filled (regionOf name) mem (data ++ piece)) ∧
      Copying name size (data ++ piece) u' := by
  rw [List.length_append] at hfit
  have hrun := nkDirectWrite_run (regionOf_plain name) mem data piece hfit
  have hsame := run_norLike norLike name
    (nkDirectWrite_aligned (regionOf_plain name) (directFile (regionOf name) data) rfl piece)
    (filled (regionOf name) mem data)
  refine ⟨{ u with ymodemFile := directFile (regionOf name) (data ++ piece) }, ?_, copying.text,
    copying.dldExact, rfl⟩
  rw [Upload.call, Upload.fileWrite, copying.ymodemFile]
  exact Prog.run_bind_of (Prog.run_bind_of (hsame.trans hrun))

/-- The calls for the header and the first blocks. -/
theorem copying_blocks (norLike : NorLike h) (u : Upload) (flash : Memory)
    (hname : ∀ c ∈ name, c ≠ 0) (hlength : name.length ≤ 113)
    (hfit : contents.length ≤ (regionOf name).areaSize) {n : Nat} (hn : n ≤ blocks contents) :
    ∃ u', (u.calls fl ((List.range (n + 1)).flatMap (copyCalls contents name))).run h flash =
        some (some u', filled (regionOf name) flash (contents.take (128 * n))) ∧
      Copying name contents.length (contents.take (128 * n)) u' := by
  induction n with
  | zero =>
      obtain ⟨u', hrun, hcopying⟩ := copying_open fl u hname hlength contents.length flash (h := h)
      rw [Nat.mul_zero, List.take_zero, filled_nil]
      exact ⟨u', Upload.calls_singleton fl hrun, hcopying⟩
  | succ n ih =>
      obtain ⟨u₁, hbefore, hcopying⟩ := ih (Nat.le_of_succ_le hn)
      have htake : contents.take (128 * (n + 1)) =
          contents.take (128 * n) ++ blockBytes contents (n + 1) := by
        rw [blockBytes, Nat.add_sub_cancel, Nat.mul_succ, List.take_add]
      have hpiece : (contents.take (128 * n) ++ blockBytes contents (n + 1)).length ≤
          (regionOf name).areaSize := by
        rw [← htake]
        exact Nat.le_trans (List.length_take_le' _ _) hfit
      obtain ⟨u', hwrite, hcopying'⟩ := copying_write fl norLike hcopying flash hpiece
      refine ⟨u', ?_, ?_⟩
      · rw [List.range_succ, List.flatMap_append, Upload.calls_append hbefore,
          List.flatMap_singleton, copyCalls_write hn, htake]
        exact Upload.calls_singleton fl hwrite
      · rw [htake]
        exact hcopying'

/-- The calls up to `close`. -/
theorem copying_closed (norLike : NorLike h) (u : Upload) (flash : Memory)
    (hname : ∀ c ∈ name, c ≠ 0) (hlength : name.length ≤ 113)
    (hfit : contents.length ≤ (regionOf name).areaSize) :
    ∃ u', (u.calls fl ((List.range (blocks contents + 2)).flatMap (copyCalls contents name))).run h
        flash = some (some u', filled (regionOf name) flash contents) ∧
      Copying name contents.length contents u' ∧ u'.dldDone = true := by
  have hall : contents.take (128 * blocks contents) = contents := by
    apply List.take_of_length_le
    unfold blocks
    omega
  obtain ⟨u', hblocks, hcopying⟩ :=
    copying_blocks fl norLike u flash hname hlength hfit (Nat.le_refl _)
  rw [hall] at hblocks hcopying
  refine ⟨{ u' with dldDone := true }, ?_,
    ⟨hcopying.text, hcopying.dldExact, hcopying.ymodemFile⟩, rfl⟩
  rw [List.range_succ, List.flatMap_append, Upload.calls_append hblocks, List.flatMap_singleton,
    copyCalls_close]
  exact Upload.calls_singleton fl rfl

/-- The calls before all is done change the region only. -/
theorem copying_early (norLike : NorLike h) (u : Upload) (flash : Memory)
    (hname : ∀ c ∈ name, c ≠ 0) (hlength : name.length ≤ 113)
    (hfit : contents.length ≤ (regionOf name).areaSize) {accepted : Nat}
    (hearly : accepted ≤ blocks contents + 2) :
    ∃ u' data, data.length ≤ (regionOf name).areaSize ∧
      (u.calls fl ((List.range accepted).flatMap (copyCalls contents name))).run h flash =
        some (some u', filled (regionOf name) flash data) := by
  cases accepted with
  | zero =>
      refine ⟨u, [], Nat.zero_le _, ?_⟩
      rw [filled_nil]
      rfl
  | succ n =>
      rcases Nat.lt_or_ge (blocks contents) n with hclosed | hblock
      · obtain rfl : n = blocks contents + 1 := by omega
        obtain ⟨u', hrun, -⟩ := copying_closed fl norLike u flash hname hlength hfit
        exact ⟨u', contents, hfit, hrun⟩
      · obtain ⟨u', hrun, -⟩ := copying_blocks fl norLike u flash hname hlength hfit hblock
        exact ⟨u', contents.take (128 * n), Nat.le_trans (List.length_take_le' _ _) hfit, hrun⟩

/-- It is told that all is done with the last message only. -/
theorem allDone_mem {accepted : Nat} (hle : accepted ≤ blocks contents + 3) :
    .allDone ∈ (List.range accepted).flatMap (copyCalls contents name) ↔
      accepted = blocks contents + 3 := by
  simp only [List.mem_flatMap, List.mem_range]
  constructor
  · rintro ⟨k, hk, hmem⟩
    unfold copyCalls at hmem
    split_ifs at hmem
    all_goals simp at hmem
    omega
  · rintro rfl
    refine ⟨blocks contents + 2, Nat.lt_succ_self _, ?_⟩
    rw [← copyCalls_allDone]
    exact List.mem_singleton.mpr rfl

/-- In every run of the two sides and the lossy line, what the receiver's handler has been
told runs on the flash of the Pico.  Nothing outside the region of the file and the sector of
the flag changes.  The flag does not change before all is done; when all is done, the region
holds the sender's file from its base on, and the flag selects it if it is firmware.  All is
done when the sender is done. -/
theorem link_uploads (xfer : FlashCmd → Memory → Memory) (hne : name ≠ [])
    (hname : ∀ c ∈ name, c ≠ 0) (hlength : name.length ≤ 113) (hsize : contents.length < 2 ^ 31)
    (hfit : contents.length ≤ (regionOf name).areaSize) {shown : List (List Call)} {link : Link w}
    (run : (Link.system allowLong fl packetBuffer contents name).Run shown link) (u : Upload)
    (flash : Memory) :
    ∃ u' flash',
      (u.cmdYmodem.calls fl shown.flatten).run (mcuflash xfer) flash = some (some u', flash') ∧
      (∀ a, ¬ InRegion (regionOf name) a → ¬ InFlag a → flash' a = flash a) ∧
      (.allDone ∉ shown.flatten → ∀ a, InFlag a → flash' a = flash a) ∧
      (.allDone ∈ shown.flatten → u'.name = name ∧
        u'.ymodemFile = directFile (regionOf name) contents ∧
        flash'.read (regionOf name).areaBase contents.length = contents ∧
        (regionOf name = ymodemFileFw0 → flash'.read flashFirmwareFlag 4 = [0, 0, 0, 0])) ∧
      (link.status = .done → .allDone ∈ shown.flatten) := by
  have norLike := mcuflash_norLike xfer
  obtain ⟨accepted, hle, hshown, hall, -⟩ := link_shown hne hname hlength hsize run
  rw [hshown]
  rw [allDone_mem hle]
  rcases Nat.lt_or_ge accepted (blocks contents + 3) with hearly | hlast
  · obtain ⟨u', data, hdata, hcalls⟩ := copying_early fl norLike u.cmdYmodem flash hname hlength
      hfit (Nat.le_of_lt_succ hearly)
    refine ⟨u', _, hcalls, fun a ha _ => filled_elsewhere name flash hdata ha,
      fun _ a ha => filled_elsewhere name flash hdata (ha.not_inRegion name),
      fun h => absurd h (Nat.ne_of_lt hearly), hall⟩
  · obtain rfl : accepted = blocks contents + 3 := Nat.le_antisymm hle hlast
    obtain ⟨u', hclosed, hcopying, hdone⟩ :=
      copying_closed fl norLike u.cmdYmodem flash hname hlength hfit
    obtain ⟨printed, flash', hprints, hread, houtside, -, hfw0⟩ :=
      recvAllDone_filled fl norLike hdone hcopying.ymodemFile hfit flash
    refine ⟨u', flash', ?_, fun a ha hflag => ?_, fun h => absurd rfl h,
      fun _ => ⟨hcopying.text, hcopying.ymodemFile, hread, hfw0⟩, fun _ => rfl⟩
    · rw [List.range_succ, List.flatMap_append, Upload.calls_append hclosed, List.flatMap_singleton,
        ← copyCalls_allDone]
      exact Upload.calls_singleton fl (Prog.run_bind_of hprints)
    · rw [houtside a hflag]
      exact filled_elsewhere name flash hfit ha

end

/-- A file of one character is in the region for firmware when its sender is done, and the
flag is set. -/
theorem link_uploads_done :
    ∃ (shown : List (List Call)) (link : Link 32) (u' : Upload) (flash' : Memory),
      (Link.system true Floats.absent (fun _ => 0) [65] (ascii "a")).Run shown link ∧
      link.status = .done ∧
      (idleUpload.cmdYmodem.calls Floats.absent shown.flatten).run
        (mcuflash fun _ flash => flash) (fun _ => 0) = some (some u', flash') ∧
      (∀ a, ¬ InRegion ymodemFileFw0 a → ¬ InFlag a → flash' a = 0) ∧
      u'.name = ascii "a" ∧ flash'.read 0x100000 1 = [65] ∧
      flash'.read flashFirmwareFlag 4 = [0, 0, 0, 0] := by
  obtain ⟨shown, link, hrun, -, hdone⟩ := oneCharLink_sends
  obtain ⟨u', flash', hcalls, houtside, -, hlast, hall⟩ :=
    link_uploads Floats.absent (fun _ flash => flash) (by decide) (by decide +kernel) (by decide)
      (by decide +kernel) (by decide +kernel) hrun idleUpload fun _ => 0
  have hregion : regionOf (ascii "a") = ymodemFileFw0 := by decide +kernel
  rw [hregion] at houtside hlast
  obtain ⟨hname, -, hread, hflag⟩ := hlast (hall hdone)
  exact ⟨shown, link, u', flash', hrun, hdone, hcalls, houtside, hname, hread, hflag rfl⟩

end LibnklabsPico.Ymodem
