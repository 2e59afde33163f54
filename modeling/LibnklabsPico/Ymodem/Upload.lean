/-
  Ymodem/Upload.lean --- what a transfer leaves in the flash memory.

  While the receiver runs, the region of the file that was opened last holds what was
  written to it, from its base on.  `Stored` is the invariant of the handler and the flash;
  every event of the receiver keeps it, as long as names end inside of their packets and
  files fit in their regions.  So when all is done the region holds the last file that was
  closed, which has been received, and only then the bootloader flag is set.
-/
import LibnklabsPico.Flash.DirectFile
import LibnklabsPico.Ymodem.NkymodemCmd
import LibnklabsPico.Ymodem.Session
import LibnklabsPico.Ymodem.Transfer

set_option autoImplicit false

namespace LibnklabsPico.Ymodem

open LibnklabsPico.Flash
open LibnklabsPico.Foundation
open LibnklabsPico.Text

/-! ## Regions -/

/-- The region for a file, from the name passed to `open`. -/
def regionOf (name : List UInt8) : NkDirectBase := regionFor (ymodemRecvFileOpen name).value.fpga

/-- An address of a region. -/
def InRegion (file : NkDirectBase) (a : Nat) : Prop :=
  file.areaBase ≤ a ∧ a < file.areaBase + file.areaSize

/-- An address of the sector with the bootloader flag. -/
def InFlag (a : Nat) : Prop := flashFirmwareFlag ≤ a ∧ a < flashFirmwareFlag + nkMcuflashEraseSize

/-- The name passed to `open` ends with the size behind it where a payload ends, and `open`
returns what `ymodem_recv_file_open` does. -/
def Event.Served : Event → Prop
  | .openFile name rtn => Ends 128 name ∧ rtn = 0
  | _ => True

instance Event.Served.decidable : (event : Event) → Decidable event.Served
  | .openFile _ _ => inferInstanceAs (Decidable (_ ∧ _))
  | .start | .timeout | .received _ | .store _ _ | .rcv _ | .putc _ | .write _ | .close | .cancel
  | .allDone => inferInstanceAs (Decidable True)

/-- No file becomes longer than its region. -/
def Fits (t : Session) : List Event → Prop
  | [] => True
  | event :: trace =>
      (∀ file ∈ (t.event event).file, file.2.length ≤ (regionOf file.1).areaSize) ∧
        Fits (t.event event) trace

instance Fits.decidable : (t : Session) → (trace : List Event) → Decidable (Fits t trace)
  | _, [] => inferInstanceAs (Decidable True)
  | t, event :: trace =>
      @instDecidableAnd _ _ inferInstance (Fits.decidable (t.event event) trace)

theorem regionFor_plain (fpga : Bool) : (regionFor fpga).Plain := by
  have hfpga : ymodemFileFpga.Plain :=
    ⟨rfl, ⟨16, by decide, rfl⟩, ⟨0, rfl⟩, ⟨16, rfl⟩, by decide, by decide⟩
  have hfw0 : ymodemFileFw0.Plain :=
    ⟨rfl, ⟨16, by decide, rfl⟩, ⟨16, rfl⟩, ⟨4, rfl⟩, by decide, by decide⟩
  cases fpga with
  | true => exact hfpga
  | false => exact hfw0

theorem regionOf_cases (name : List UInt8) :
    regionOf name = ymodemFileFpga ∨ regionOf name = ymodemFileFw0 := by
  unfold regionOf
  cases (ymodemRecvFileOpen name).value.fpga with
  | true => exact Or.inl rfl
  | false => exact Or.inr rfl

/-! ## One event -/

/-- The handler and the flash agree with what the handler was told. -/
structure Stored (t : Session) (u : Upload) (flash : Memory) : Prop where
  file : ∀ name data, t.file = some (name, data) →
    data.length ≤ (regionOf name).areaSize ∧ u.ymodemFile = directFile (regionOf name) data ∧
      ∃ mem, flash = filled (regionOf name) mem data
  opened : t.isOpen = true → t.file ≠ none
  name : t.live = true → t.isOpen = true ∨ t.done = true → ∀ name data,
    t.file = some (name, data) → u.name = name.takeWhile (· != 0)
  done : t.live = true → u.dldDone = t.done

/-- Only regions and the flag change, and the flag only when all is done. -/
structure Kept (allDone : Prop) (flash flash' : Memory) : Prop where
  outside : ∀ a, ¬ InRegion ymodemFileFpga a → ¬ InRegion ymodemFileFw0 a → ¬ InFlag a →
    flash' a = flash a
  flag : ¬ allDone → ∀ a, InFlag a → flash' a = flash a

section
variable {fl : Floats} {h : Handler FlashCmd (fun _ => Int) Memory} {t : Session} {u : Upload}
  {flash : Memory}

theorem Kept.refl (allDone : Prop) (flash : Memory) : Kept allDone flash flash :=
  ⟨fun _ _ _ _ => rfl, fun _ _ _ => rfl⟩

theorem Kept.trans {first second allDone : Prop} {flash' flash'' : Memory}
    (kept : Kept first flash flash') (kept' : Kept second flash' flash'')
    (hfirst : first → allDone) (hsecond : second → allDone) : Kept allDone flash flash'' := by
  refine ⟨fun a hfpga hfw0 hflag => ?_, fun hnot a hflag => ?_⟩
  · exact (kept'.outside a hfpga hfw0 hflag).trans (kept.outside a hfpga hfw0 hflag)
  · exact (kept'.flag (hnot ∘ hsecond) a hflag).trans (kept.flag (hnot ∘ hfirst) a hflag)

/-- What runs on a NOR memory by sectors of a region runs on the flash of the Pico. -/
theorem run_norLike (norLike : NorLike h) (name : List UInt8) {α : Type} {p : FlashProg α}
    {post : α → Prop} (aligned : p.Ensures (FlashCmd.Aligned (regionOf name).eraseSize) post)
    (flash : Memory) : p.run h flash = p.run nor flash := by
  have hdvd : flashSectorSize ∣ (regionOf name).eraseSize := by
    rcases regionOf_cases name with hregion | hregion
    · rw [hregion]
      exact ⟨16, rfl⟩
    · rw [hregion]
      exact ⟨16, rfl⟩
  refine aligned.run_congr (fun c flash hc => norLike c flash ?_) flash
  cases c with
  | erase addr size => exact ⟨hdvd.trans hc.1, hdvd.trans hc.2⟩
  | write addr data => exact hc

/-- The regions end in front of the flag. -/
theorem region_le_flag (name : List UInt8) :
    (regionOf name).areaBase + (regionOf name).areaSize ≤ flashFirmwareFlag := by
  rcases regionOf_cases name with hregion | hregion
  · rw [hregion]
    decide
  · rw [hregion]
    decide

theorem InFlag.not_inRegion {a : Nat} (ha : InFlag a) (name : List UInt8) :
    ¬ InRegion (regionOf name) a := by
  have hle := region_le_flag name
  intro hin
  rw [InRegion] at hin
  rw [InFlag] at ha
  omega

theorem regionOf_plain (name : List UInt8) : (regionOf name).Plain := regionFor_plain _

/-- Data in a region is nowhere else. -/
theorem filled_elsewhere (name : List UInt8) (mem : Memory) {data : List UInt8}
    (hfit : data.length ≤ (regionOf name).areaSize) {a : Nat} (ha : ¬ InRegion (regionOf name) a) :
    filled (regionOf name) mem data a = mem a :=
  filled_outside (regionOf_plain name) mem hfit (by rw [InRegion] at ha; omega)

/-- What an event does to the handler and the flash. -/
def Does (fl : Floats) (h : Handler FlashCmd (fun _ => Int) Memory) (event : Event) (t : Session)
    (u : Upload) (flash : Memory) : Prop :=
  ∃ u' flash', (u.event fl event).run h flash = some (some u', flash') ∧
    Stored (t.event event) u' flash' ∧ Kept (event = .allDone) flash flash'

/-- A name that ends inside of its packet fits in `name_buf`. -/
theorem Upload.event_openFile (fl : Floats) (u : Upload) {name : List UInt8}
    (ends : Ends 128 name) :
    ∃ u', u.event fl (.openFile name 0) = pure (some u') ∧ u'.name = name.takeWhile (· != 0) ∧
      u'.dldDone = u.dldDone ∧ u'.ymodemFile = directFile (regionOf name) [] := by
  have hname : (ymodemRecvFileOpen name).value.nameBuf = name.takeWhile (· != 0) ++ [0] := by
    rw [ymodemRecvFileOpen_nameBuf, take_textLen]
  have hfit : (name.takeWhile (· != 0)).length < 128 := Nat.lt_of_succ_lt ends.1
  have hnul : ∀ c ∈ name.takeWhile (· != 0), c ≠ 0 := by
    intro c hmem
    simpa using List.mem_takeWhile_imp hmem
  obtain ⟨u', hopen, htext, -, hdone, hfile⟩ := u.fileOpen_eq _ hname hfit hnul
  refine ⟨u', ?_, htext, hdone, hfile⟩
  rw [Upload.event, hopen, pure_bind]
  rfl

theorem Stored.openFile (stored : Stored t u flash) {name : List UInt8} (ends : Ends 128 name) :
    Does fl h (.openFile name 0) t u flash := by
  obtain ⟨u', hopen, htext, hdone, hfile⟩ := u.event_openFile fl ends
  refine ⟨u', flash, ?_, ⟨?_, fun _ => Option.some_ne_none _, ?_, ?_⟩, .refl _ flash⟩
  · rw [hopen, Prog.run_pure]
  · rintro _ _ ⟨⟩
    exact ⟨Nat.zero_le _, hfile, flash, (filled_nil _ flash).symm⟩
  · rintro - - _ _ ⟨⟩
    exact htext
  · intro hlive
    exact hdone.trans (stored.done hlive)

theorem Stored.write (norLike : NorLike h) (stored : Stored t u flash) {name old data : List UInt8}
    (hfile : t.file = some (name, old))
    (hfit : (old ++ data).length ≤ (regionOf name).areaSize) :
    Does fl h (.write data) t u flash := by
  obtain ⟨hold, hvar, mem, rfl⟩ := stored.file name old hfile
  have plain := regionOf_plain name
  have hlength : old.length + data.length ≤ (regionOf name).areaSize := by
    rwa [← List.length_append]
  have hrun := nkDirectWrite_run plain mem old data hlength
  have hmcu := run_norLike norLike name
    (nkDirectWrite_aligned plain (directFile (regionOf name) old) rfl data)
    (filled (regionOf name) mem old)
  have hsame {a : Nat} (ha : ¬ InRegion (regionOf name) a) :
      filled (regionOf name) mem (old ++ data) a = filled (regionOf name) mem old a := by
    rw [filled_elsewhere name mem hfit ha, filled_elsewhere name mem hold ha]
  have hnew {name' data' : List UInt8}
      (hfile' : (t.event (.write data)).file = some (name', data')) :
      name' = name ∧ data' = old ++ data := by
    simp only [Session.event, hfile, Option.map_some, Option.some.injEq, Prod.mk.injEq] at hfile'
    exact ⟨hfile'.1.symm, hfile'.2.symm⟩
  refine ⟨{ u with ymodemFile := directFile (regionOf name) (old ++ data) },
    filled (regionOf name) mem (old ++ data), ?_, ⟨?_, fun _ => ?_, ?_, stored.done⟩, ?_, ?_⟩
  · rw [Upload.event, Upload.fileWrite, hvar]
    exact Prog.run_bind_of (Prog.run_bind_of (hmcu.trans hrun))
  · intro name' data' hfile'
    obtain ⟨rfl, rfl⟩ := hnew hfile'
    exact ⟨hfit, rfl, mem, rfl⟩
  · simp [Session.event, hfile]
  · intro hlive hsession name' data' hfile'
    obtain ⟨rfl, rfl⟩ := hnew hfile'
    exact stored.name hlive hsession _ old hfile
  · intro a hfpga hfw0 _
    rcases regionOf_cases name with hregion | hregion
    · exact hsame (by rwa [hregion])
    · exact hsame (by rwa [hregion])
  · intro _ a ha
    exact hsame (ha.not_inRegion name)

/-- The flash with the flag set. -/
def flagged (flash : Memory) : Memory :=
  (flash.erase flashFirmwareFlag nkMcuflashEraseSize).program flashFirmwareFlag [0, 0, 0, 0]

theorem flagged_outside (flash : Memory) {a : Nat} (ha : ¬ InFlag a) :
    flagged flash a = flash a := by
  have hsize : [(0 : UInt8), 0, 0, 0].length ≤ nkMcuflashEraseSize := by decide
  rw [InFlag] at ha
  rw [flagged, Memory.program, if_neg (by omega), Memory.erase, if_neg ha]

/-- What the flash held in the sector of the flag does not matter. -/
theorem flagged_inside (flash flash' : Memory) {a : Nat} (ha : InFlag a) :
    flagged flash a = flagged flash' a := by
  have herase : flash.erase flashFirmwareFlag nkMcuflashEraseSize a =
      flash'.erase flashFirmwareFlag nkMcuflashEraseSize a := by
    exact (if_pos ha).trans (if_pos ha).symm
  rw [flagged, flagged, Memory.program, Memory.program, herase]

/-- The bootloader flag selects the first region for firmware. -/
theorem flagged_read (flash : Memory) :
    (flagged flash).read flashFirmwareFlag 4 = [0, 0, 0, 0] := by
  have hbyte {i : Nat} (hi : i < 4) : flagged flash (flashFirmwareFlag + i) = 0 := by
    have hzero : [(0 : UInt8), 0, 0, 0].getD i 0 = 0 := by
      rcases i with _ | _ | _ | _ | i
      all_goals rfl
    rw [flagged, Memory.program, if_pos ⟨Nat.le_add_right _ _, Nat.add_lt_add_left hi _⟩,
      Nat.add_sub_cancel_left, hzero]
    exact UInt8.and_zero
  have hread : (flagged flash).read flashFirmwareFlag 4 =
      [flagged flash (flashFirmwareFlag + 0), flagged flash (flashFirmwareFlag + 1),
        flagged flash (flashFirmwareFlag + 2), flagged flash (flashFirmwareFlag + 3)] := rfl
  rw [hread, hbyte (by decide), hbyte (by decide), hbyte (by decide), hbyte (by decide)]

/-- Setting the flag leaves a region alone. -/
theorem flagged_filled (name : List UInt8) (mem : Memory) {data : List UInt8}
    (hfit : data.length ≤ (regionOf name).areaSize) :
    flagged (filled (regionOf name) mem data) = filled (regionOf name) (flagged mem) data := by
  funext a
  rcases Classical.em (InFlag a) with ha | ha
  · rw [filled_elsewhere name _ hfit (ha.not_inRegion name)]
    exact flagged_inside _ _ ha
  · rw [flagged_outside _ ha]
    unfold filled laid
    rw [flagged_outside _ ha]

/-- What `ymodem_recv_all_done` does. -/
theorem recvAllDone_run (fl : Floats) (norLike : NorLike h) (hdone : u.dldDone = true)
    (flash : Memory) :
    ∃ printed, (u.recvAllDone fl).run h flash = some (u.report fl ++ printed,
      if u.ymodemFile.file = ymodemFileFw0 ∨ u.ymodemFile.file = ymodemFileFw1 then flagged flash
      else flash) := by
  have hflag : (u.recvAllDone fl).Ensures (FlashCmd.Aligned flashSectorSize) fun _ => True := by
    have hend : flashFirmwareFlag + [(0 : UInt8), 0, 0, 0].length ≤ 2 ^ 32 := by decide
    rw [Upload.recvAllDone, if_pos hdone]
    split
    · exact ⟨⟨⟨384, rfl⟩, ⟨1, rfl⟩⟩, fun _ => ⟨hend, fun _ => trivial⟩⟩
    · exact trivial
  rw [hflag.run_congr norLike flash, Upload.recvAllDone, if_pos hdone]
  split
  · exact ⟨_, rfl⟩
  · exact ⟨_, rfl⟩

/-- With a complete file in its region it sets the flag for firmware, and leaves the file. -/
theorem recvAllDone_filled (fl : Floats) (norLike : NorLike h) (hdone : u.dldDone = true)
    {name data : List UInt8}
    (hvar : u.ymodemFile = directFile (regionOf name) data)
    (hfit : data.length ≤ (regionOf name).areaSize) (mem : Memory) :
    ∃ printed flash', (u.recvAllDone fl).run h (filled (regionOf name) mem data) =
        some (u.report fl ++ printed, flash') ∧
      flash'.read (regionOf name).areaBase data.length = data ∧
      (∀ a, ¬ InFlag a → flash' a = filled (regionOf name) mem data a) ∧
      (regionOf name = ymodemFileFpga → flash' = filled (regionOf name) mem data) ∧
      (regionOf name = ymodemFileFw0 → flash'.read flashFirmwareFlag 4 = [0, 0, 0, 0]) := by
  have hregion : u.ymodemFile.file = regionOf name := congrArg NkDirect.file hvar
  obtain ⟨printed, hrun⟩ := recvAllDone_run fl norLike hdone (filled (regionOf name) mem data)
  rw [hregion] at hrun
  rcases regionOf_cases name with hfpga | hfw0
  · have hnone : ¬ (regionOf name = ymodemFileFw0 ∨ regionOf name = ymodemFileFw1) := by
      rw [hfpga]
      decide
    rw [if_neg hnone] at hrun
    exact ⟨printed, _, hrun, read_filled _ _ _, fun _ _ => rfl, fun _ => rfl,
      fun hfw0 => absurd (Or.inl hfw0) hnone⟩
  · rw [if_pos (Or.inl hfw0)] at hrun
    refine ⟨printed, _, hrun, ?_, fun a ha => flagged_outside _ ha, fun hfpga => ?_,
      fun _ => flagged_read _⟩
    · rw [flagged_filled name mem hfit]
      exact read_filled _ _ _
    · rw [hfpga] at hfw0
      exact absurd hfw0 (by decide)

theorem Stored.allDone (norLike : NorLike h) (stored : Stored t u flash) :
    Does fl h .allDone t u flash := by
  cases hdone : u.dldDone with
  | false =>
      refine ⟨u, flash, ?_,
        ⟨stored.file, stored.opened, fun h => (by cases h), fun h => by cases h⟩, .refl _ flash⟩
      rw [Upload.event, Upload.recvAllDone, hdone]
      rfl
  | true =>
      obtain ⟨printed, hrun⟩ := recvAllDone_run fl norLike hdone flash
      refine ⟨u, _, by rw [Upload.event, Prog.run_bind_of hrun, Prog.run_pure], ?_, ?_⟩
      · refine ⟨fun name data hfile => ?_, stored.opened, fun h => (by cases h),
          fun h => by cases h⟩
        obtain ⟨hfit, hvar, mem, rfl⟩ := stored.file name data hfile
        refine ⟨hfit, hvar, ?_⟩
        split
        · exact ⟨flagged mem, flagged_filled name mem hfit⟩
        · exact ⟨mem, rfl⟩
      · refine ⟨fun a _ _ hflag => ?_, fun h => absurd rfl h⟩
        split
        · exact flagged_outside flash hflag
        · rfl

/-- Every event keeps the invariant. -/
theorem Stored.event (fl : Floats) (norLike : NorLike h) (stored : Stored t u flash)
    {event : Event} (proper : Proper t event) (served : event.Served)
    (hfits : ∀ file ∈ (t.event event).file, file.2.length ≤ (regionOf file.1).areaSize) :
    Does fl h event t u flash := by
  cases event with
  | start =>
      refine ⟨_, flash, rfl, ⟨stored.file, fun h => (by cases h), fun _ h => ?_, fun _ => rfl⟩,
        .refl _ flash⟩
      rcases h with h | h <;> cases h
  | openFile name rtn =>
      obtain ⟨hends, rfl⟩ := served
      exact stored.openFile hends
  | write data =>
      obtain ⟨⟨name, old⟩, hfile⟩ := Option.ne_none_iff_exists'.mp (stored.opened proper)
      refine stored.write norLike hfile (hfits (name, old ++ data) ?_)
      simp [Session.event, hfile]
  | close =>
      exact ⟨_, flash, rfl, ⟨stored.file, fun h => (by cases h),
        fun hlive _ => stored.name hlive (Or.inl proper), fun _ => rfl⟩, .refl _ flash⟩
  | cancel =>
      exact ⟨_, flash, rfl, ⟨stored.file, fun h => (by cases h), fun h => (by cases h),
        fun h => by cases h⟩, .refl _ flash⟩
  | allDone => exact stored.allDone norLike
  | timeout | received | store | rcv | putc => exact ⟨u, flash, rfl, stored, .refl _ flash⟩

/-- And so does every trace. -/
theorem Stored.events (fl : Floats) (norLike : NorLike h) (stored : Stored t u flash)
    {trace : List Event} (orderly : Orderly t trace) (served : ∀ event ∈ trace, event.Served)
    (fits : Fits t trace) :
    ∃ u' flash', (u.events fl trace).run h flash = some (some u', flash') ∧
      Stored (t.events trace) u' flash' ∧ Kept (.allDone ∈ trace) flash flash' := by
  induction trace generalizing t u flash with
  | nil => exact ⟨u, flash, rfl, stored, .refl _ flash⟩
  | cons event trace ih =>
      obtain ⟨hfirst, hothers⟩ := List.forall_mem_cons.mp served
      obtain ⟨u', flash', hrun, hstored, hkept⟩ :=
        stored.event fl norLike orderly.1 hfirst fits.1
      obtain ⟨u'', flash'', hrest, hstored', hkept'⟩ := ih hstored orderly.2 hothers fits.2
      refine ⟨u'', flash'', ?_, hstored', hkept.trans hkept' ?_ ?_⟩
      · rw [Upload.events, Prog.run_bind_of hrun]
        exact hrest
      · rintro rfl
        exact List.mem_cons_self
      · exact List.mem_cons_of_mem event

theorem Stored.boot (u : Upload) (flash : Memory) :
    Stored ⟨none, false, false, false⟩ u flash :=
  ⟨fun _ _ h => (by cases h), fun h => (by cases h), fun h => (by cases h), fun h => by cases h⟩

theorem Fits.append {before after : List Event} (fits : Fits t (before ++ after)) :
    Fits t before ∧ Fits (t.events before) after := by
  induction before generalizing t with
  | nil => exact ⟨trivial, fits⟩
  | cons event before ih =>
      obtain ⟨hfirst, hrest⟩ := ih fits.2
      exact ⟨⟨fits.1, hfirst⟩, hrest⟩

end

/-! ## One file -/

/-- The events of a file that comes in these pieces. -/
def fileEvents (name : List UInt8) (pieces : List (List UInt8)) : List Event :=
  .openFile name 0 :: (pieces.map .write ++ [.close])

/-- The flash is called only by the writes. -/
theorem events_write_ensures (fl : Floats) (Q : FlashCmd → Prop) (u : Upload)
    (pieces : List (List UInt8)) :
    (u.events fl (pieces.map .write ++ [.close])).Ensures Q (fun _ => True) ↔
      (writeAll nkDirectWrite u.ymodemFile pieces).Ensures Q fun _ => True := by
  induction pieces generalizing u with
  | nil => exact Iff.rfl
  | cons piece pieces ih =>
      rw [List.map_cons, List.cons_append, Upload.events, Upload.event, Upload.fileWrite, writeAll]
      simp only [Prog.ensures_bind, Prog.ensures_pure]
      exact Prog.ensures_congr _ fun result => ih { u with ymodemFile := result.2 }

/-- Whatever the flash answers, all calls for a file are inside its region, exactly when the
file fits. -/
theorem upload_contained_iff (fl : Floats) (u : Upload) {name : List UInt8}
    (ends : Ends 128 name) (pieces : List (List UInt8)) :
    Contained (regionOf name).areaBase (regionOf name).areaSize
        (u.events fl (fileEvents name pieces)) ↔
      totalLength pieces ≤ (regionOf name).areaSize := by
  obtain ⟨u', hopen, -, -, hfile⟩ := u.event_openFile fl ends
  have hsession := nkDirectSession_contained (regionOf name) (regionOf_plain name).area pieces
  rw [← hsession, Contained, fileEvents, Upload.events, hopen, pure_bind]
  refine (events_write_ensures fl _ u' pieces).trans ?_
  rw [hfile, Contained, nkDirectSession]
  simp only [Prog.ensures_bind, nkDirectWriteOpen, nkDirectWriteClose, Prog.ensures_pure]
  rfl

/-! ## Whole runs -/

section Runs

variable {allowLong : Bool} {s : Yrecv} {active : Bool} {trace : List Event}

/-- In every run in which headers end inside of their payload and no file is longer than its
region, whatever else comes in, the handler runs to its end on the flash of the Pico, and no
call of the flash fails.  Nothing outside of the two regions and the sector of the bootloader
flag changes; the flag changes only when all is done. -/
theorem upload_kept (fl : Floats) (xfer : FlashCmd → Memory → Memory)
    (run : Run allowLong s active trace) (served : ∀ event ∈ trace, event.Served)
    (fits : Fits ⟨none, false, false, false⟩ trace) (u : Upload) (flash : Memory) :
    ∃ u' flash', (u.events fl trace).run (mcuflash xfer) flash = some (some u', flash') ∧
      (u.events fl trace).run (succeeding (mcuflash xfer)) flash = some (some u', flash') ∧
      (∀ a, ¬ InRegion ymodemFileFpga a → ¬ InRegion ymodemFileFw0 a → ¬ InFlag a →
        flash' a = flash a) ∧
      (.allDone ∉ trace → ∀ a, InFlag a → flash' a = flash a) := by
  obtain ⟨u', flash', hrun, -, hkept⟩ := (Stored.boot u flash).events fl
    (mcuflash_norLike xfer).succeeding run.tells.orderly served fits
  exact ⟨u', flash', succeeding_run hrun, hrun, hkept.outside, hkept.flag⟩

/-- When all is done in any run in which headers end inside of their payload and no file is
longer than its region: either no file has been closed in this transfer, and nothing happens;
or the last file that was closed has been received, its name, size and CRC are reported, its
region holds its data from the base on, and if it is firmware the bootloader flag selects
that region. -/
theorem upload_allDone (fl : Floats) (xfer : FlashCmd → Memory → Memory)
    (run : Run allowLong s active trace) (served : ∀ event ∈ trace, event.Served)
    (fits : Fits ⟨none, false, false, false⟩ trace) (u : Upload) (flash : Memory)
    {before after : List Event} (hsplit : trace = before ++ .allDone :: after) :
    ∃ closed u' flash' printed flash'', Told before none closed ∧
      (u.events fl before).run (mcuflash xfer) flash = some (some u', flash') ∧
      (u'.recvAllDone fl).run (mcuflash xfer) flash' = some (printed, flash'') ∧
      (.close ∉ sinceStart before → printed = [] ∧ flash'' = flash') ∧
      (.close ∈ sinceStart before → ∃ file, closed.getLast? = some file ∧ file.Received ∧
        (session before).file = some (file.name, file.data) ∧
        u'.ymodemFile = directFile (regionOf file.name) file.data ∧
        u'.name = file.name.takeWhile (· != 0) ∧ u'.report fl <+: printed ∧
        flash''.read (regionOf file.name).areaBase file.data.length = file.data ∧
        (∀ a, ¬ InFlag a → flash'' a = flash' a) ∧
        (regionOf file.name = ymodemFileFpga → flash'' = flash') ∧
        (regionOf file.name = ymodemFileFw0 →
          flash''.read flashFirmwareFlag 4 = [0, 0, 0, 0])) := by
  subst hsplit
  obtain ⟨f, closed, htold, -⟩ := run_told run
  rw [List.append_cons] at htold
  obtain ⟨f', closed', hpart⟩ := htold.part
  obtain ⟨closed'', htold'⟩ := hpart.allDone_inv
  obtain ⟨hlive, hclosed⟩ : (session before).live = true ∧ (session before).isOpen = false :=
    run.tells.orderly.proper
  have hbefore : ∀ event ∈ before, event.Served := fun event hmem =>
    served event (List.mem_append_left _ hmem)
  obtain ⟨u', flash', hrun, hstored, -⟩ := (Stored.boot u flash).events fl (mcuflash_norLike xfer)
    (orderly_append.mp run.tells.orderly).1 hbefore fits.append.1
  refine ⟨closed'', u', flash', ?_⟩
  rw [← session_done before]
  have hsession : u'.dldDone = (session before).done := hstored.done hlive
  cases hdone : (session before).done with
  | false =>
      rw [hdone] at hsession
      refine ⟨[], flash', htold', hrun, ?_, fun _ => ⟨rfl, rfl⟩, fun h => by cases h⟩
      rw [Upload.recvAllDone, hsession]
      rfl
  | true =>
      obtain ⟨file, hlast, hfile⟩ := htold'.latest.last hlive hclosed hdone
      obtain ⟨hfit, hvar, mem, rfl⟩ := hstored.file _ _ hfile
      obtain ⟨printed, flash'', hprints, hread, houtside, hfpga, hfw0⟩ :=
        recvAllDone_filled fl (mcuflash_norLike xfer) (hsession.trans hdone) hvar hfit mem
      exact ⟨_, flash'', htold', hrun, hprints, fun h => absurd rfl h, fun _ => ⟨file, hlast,
        htold'.closed_received file (List.mem_of_getLast? hlast), hfile, hvar,
        hstored.name hlive (Or.inr hdone) _ _ hfile, List.prefix_append _ _, hread, houtside,
        hfpga, hfw0⟩⟩

end Runs

/-- The handler before any transfer. -/
def idleUpload : Upload :=
  { nameBuf := List.replicate 128 0, nameBuf_length := List.length_replicate, dldExact := 0
    dldDone := false, ymodemFile := ⟨ymodemFileFpga, 0, 0⟩ }

theorem upload_kept_hello :
    ∃ u' flash',
      (idleUpload.events Floats.absent helloEvents).run
        (succeeding (mcuflash fun _ flash => flash)) (fun _ => 0) = some (some u', flash') ∧
      (∀ a, ¬ InRegion ymodemFileFpga a → ¬ InRegion ymodemFileFw0 a → ¬ InFlag a →
        flash' a = 0) := by
  obtain ⟨s, hrun⟩ := helloEvents_run
  obtain ⟨u', flash', -, hevents, houtside, -⟩ := upload_kept Floats.absent (fun _ flash => flash)
    hrun (by decide +kernel) (by decide +kernel) idleUpload fun _ => 0
  exact ⟨u', flash', hevents, houtside⟩

/-- When all is done, the file is in the region for firmware, and the flag is set. -/
theorem upload_allDone_hello :
    ∃ u' flash' printed flash'',
      (idleUpload.events Floats.absent helloEvents.dropLast).run
        (mcuflash fun _ flash => flash) (fun _ => 0) = some (some u', flash') ∧
      (u'.recvAllDone Floats.absent).run (mcuflash fun _ flash => flash) flash' =
        some (printed, flash'') ∧
      u'.name = ascii "a" ∧ flash''.read 0x100000 5 = ascii "hello" ∧
      flash''.read flashFirmwareFlag 4 = [0, 0, 0, 0] := by
  obtain ⟨s, hrun⟩ := helloEvents_run
  obtain ⟨closed, u', flash', printed, flash'', -, hevents, hprints, -, hdone⟩ :=
    upload_allDone Floats.absent (fun _ flash => flash) hrun (by decide +kernel)
      (by decide +kernel) idleUpload (fun _ => 0)
      (show helloEvents = helloEvents.dropLast ++ .allDone :: [] by decide +kernel)
  obtain ⟨file, -, -, hfile, -, hname, -, hread, -, -, hflag⟩ := hdone (by decide +kernel)
  have htold : ∀ header ∈ (session helloEvents.dropLast).file, header.2 = ascii "hello" ∧
      header.1.takeWhile (· != 0) = ascii "a" ∧ regionOf header.1 = ymodemFileFw0 := by
    decide +kernel
  obtain ⟨hdata, htext, hregion⟩ := htold _ hfile
  dsimp only at hdata htext hregion
  rw [hdata, hregion, show (ascii "hello").length = 5 by decide +kernel] at hread
  exact ⟨u', flash', printed, flash'', hevents, hprints, hname.trans htext, hread, hflag hregion⟩

end LibnklabsPico.Ymodem
