/-
  Dbase/Database.lean --- the calibration store of the Pico, `src/database.c`.

  `cal` is a structure in memory, at an address the linker chose; its defaults are there
  before it is loaded at a start.  The commands are `dbase clear`, `save`, `load` and
  `set`; the parsing of their names is left out, and so is what only prints.  The two banks
  are in the flash memory of the Pico.
-/
import LibnklabsPico.Dbase.Capacity
import LibnklabsPico.Dbase.Nkxpath
import LibnklabsPico.Flash.Mcuflash

set_option autoImplicit false

namespace LibnklabsPico.Dbase

open LibnklabsPico.Foundation
open LibnklabsPico.File
open LibnklabsPico.Flash
open LibnklabsPico.Text

/-! ## Calibration metadata -/

/-- `tyUINT8` -/
def tyUINT8 : Ty := .tInteger .tUint8 1 none

/-- `tyUINT16` -/
def tyUINT16 : Ty := .tInteger .tUint16 2 none

/-- `tyIPADDR` -/
def tyIPADDR : Ty := .tArray 4 tyUINT8 none

/-- `tyMACADDR` -/
def tyMACADDR : Ty := .tArray 6 tyUINT8 none

/-- `cal_members` -/
def calMembers : List Member :=
  [(ascii "port", tyUINT16, 0), (ascii "ip_addr", tyIPADDR, 2), (ascii "mac_addr", tyMACADDR, 6)]

/-- `sizeof(struct cal)` -/
def calSize : Nat := 12

/-- `tyCAL` -/
def tyCAL : Ty := .tStruct calSize calMembers none

/-- `cal_defaults`: the port 8888, the IP address and the MAC address. -/
def calDefaults : List UInt8 := [0xB8, 0x22, 10, 0, 0, 2, 0xFC, 0xFF, 0xFF, 0, 0, 0x11]

/-- `FLASH_KEYVAL_SIZE` -/
def flashKeyvalSize : Nat := 8192

/-- `FLASH_CAL_KEYVAL_ADDR_1` -/
def flashCalKeyvalAddr1 : Nat := 0x1FC000

/-- `FLASH_CAL_KEYVAL_ADDR_2` -/
def flashCalKeyvalAddr2 : Nat := 0x1FE000

/-- `cal_dbase`; `xfer_buf` is zero at a start. -/
def calDbase : NkDbase where
  ty := tyCAL
  bank0 := ⟨flashKeyvalSize, flashCalKeyvalAddr1, nkMcuflashEraseSize, true, 1⟩
  bank1 := ⟨flashKeyvalSize, flashCalKeyvalAddr2, nkMcuflashEraseSize, true, 1⟩
  buf := fun _ => 0
  bufSize := 128

/-! ## The commands -/

variable (fl : Floats) (charSigned : Bool) (fuel : Nat)

/-- `database_init`: the revision, and the memory with `cal`.  `cal_rev` is zero at a
start. -/
def databaseInit (flashRead : FlashRead) (varFile : NkChecked) (buf : List UInt8) (ram : Memory)
    (cal : Nat) : Option (UInt8 × Memory) :=
  (nkDbaseLoad fl fuel flashRead varFile calDbase buf 0 (ram.store cal calDefaults) cal).map
    fun (_, rev, ram) => (rev, ram)

/-- `dbase clear`: the defaults are saved to both banks.  Each save finds its own stack
and buffer. -/
def dbaseClear (stack xferBuf : Bool → Memory) (rev : UInt8) (ram : Memory) (cal : Nat) :
    FlashProg (UInt8 × Memory) := do
  let ram := ram.store cal calDefaults
  let (_, rev) ← nkDbaseSave fl charSigned (stack false) (calDbase.withBuf (xferBuf false)) rev ram
    cal
  let (_, rev) ← nkDbaseSave fl charSigned (stack true) (calDbase.withBuf (xferBuf true)) rev ram
    cal
  return (rev, ram)

/-- `dbase set`: the value in the rest of the command is read to where the key leads. -/
def dbaseSet (triggersOf : Member → UInt32) (key : List UInt8) (args : Nkinfile 32) (ram : Memory)
    (cal : Nat) : Option Memory :=
  match nkXpath fl triggersOf ram fuel key tyCAL cal 0 with
  | some ⟨some t, loc, _⟩ =>
      ((nkVscan fl fuel false "%v " [.value (nkFscanKeyval fl fuel t loc)] ram).run (nkinfile 32)
        args).map fun ((_, _, ram), _) => ram
  -- Not found.
  | some _ => some ram
  | none => none

/-! ## The schema and the banks -/

theorem tyCAL_wellFormed : WellFormed tyCAL := by
  have hids : IsIdent (ascii "port") ∧ IsIdent (ascii "ip_addr") ∧ IsIdent (ascii "mac_addr") :=
    ⟨.of_all rfl, .of_all rfl, .of_all rfl⟩
  have hlens : (ascii "port").length = 4 ∧ (ascii "ip_addr").length = 7 ∧
      (ascii "mac_addr").length = 8 := ⟨rfl, rfl, rfl⟩
  have hnames : ascii "ip_addr" ≠ ascii "port" ∧ ascii "mac_addr" ≠ ascii "port" ∧
      ascii "mac_addr" ≠ ascii "ip_addr" := by decide
  simp [tyCAL, calMembers, tyIPADDR, tyMACADDR, tyUINT8, tyUINT16, calSize, WellFormed,
    MembersWellFormed, Check.Accepts, Check.passes, Apart, Ty.extent, Ty.size, Ty.counted,
    IntType.width, nkdbaseMaxIdentLen, hids, hlens, hnames]

theorem calDbase_sound : calDbase.Sound := by
  have hsectored : ∀ one, (calDbase.bank one).Sectored := fun one => by
    cases one with
    | false =>
        exact ⟨rfl, ⟨12, by decide, by decide, rfl⟩, ⟨0x1FC, rfl⟩, by decide, by decide, by decide⟩
    | true =>
        exact ⟨rfl, ⟨12, by decide, by decide, rfl⟩, ⟨0x1FE, rfl⟩, by decide, by decide, by decide⟩
  exact ⟨hsectored, by decide, by decide, by decide, ⟨7, by decide, by decide, rfl⟩,
    fun one => ⟨0, by decide, by cases one <;> rfl, Nat.one_dvd _⟩⟩

/-- Every value of `cal` can be saved. -/
theorem cal_savable (ram : Memory) (cal : Nat) : Savable fl charSigned calDbase ram cal := by
  have hok : ValueOk ram calDbase.ty cal := by
    simp only [calDbase, tyCAL, calMembers, tyIPADDR, tyMACADDR, tyUINT8, tyUINT16, ValueOk,
      MembersOk]
    exact ⟨trivial, fun _ _ => trivial, fun _ _ => trivial, trivial⟩
  exact savable_of_textBound fl charSigned tyCAL_wellFormed (by decide) hok

/-- Bytes that are restored one by one. -/
theorem restored_bytes {ram ram' : Memory} {location location' count : Nat}
    (h : ∀ i < count, Restored ram ram' tyUINT8 (location + i * 1) (location' + i * 1)) :
    ram'.read location' count = ram.read location count := by
  induction count with
  | zero => rfl
  | succ count ih =>
      have hlast := h count (Nat.lt_succ_self count)
      simp only [tyUINT8, Restored, IntType.width, Nat.mul_one, Memory.read_succ, Memory.read_zero,
        List.nil_append, Nat.add_zero] at hlast
      rw [Memory.read_succ, Memory.read_succ, ih fun i hi => h i (Nat.lt_succ_of_lt hi), hlast]

/-- A value of `cal` that is restored has the same bytes. -/
theorem restored_cal {ram ram' : Memory} {cal cal' : Nat} (h : Restored ram ram' tyCAL cal cal') :
    ram'.read cal' calSize = ram.read cal calSize := by
  simp only [tyCAL, calMembers, Restored, MembersRestored] at h
  obtain ⟨hport, hip, hmac, -⟩ := h
  have hport' : ram'.read cal' 2 = ram.read cal 2 := by
    simpa only [tyUINT16, Restored, IntType.width, Nat.add_zero] using hport
  have hip' : ram'.read (cal' + 2) 4 = ram.read (cal + 2) 4 := by
    simp only [tyIPADDR, Restored] at hip
    exact restored_bytes hip
  have hmac' : ram'.read (cal' + 6) 6 = ram.read (cal + 6) 6 := by
    simp only [tyMACADDR, Restored] at hmac
    exact restored_bytes hmac
  have hsplit : ∀ (mem : Memory) (a : Nat), mem.read a calSize =
      mem.read a 2 ++ (mem.read (a + 2) 4 ++ mem.read (a + 6) 6) := by
    intro mem a
    rw [calSize, show 12 = 2 + (4 + 6) from rfl, Memory.read_append, Memory.read_append]
  rw [hsplit, hsplit, hport', hip', hmac']

/-! ## Saving to the flash memory of the Pico -/

section
variable {file : NkCheckedBase} (stack : Memory)

theorem nkFflush_aligned (area : file.Sectored) {f : Nkoutfile NkChecked}
    (hfile : f.blockWritePtr.file = file) :
    (nkFflush (some nkCheckedWrite) f).Ensures (FlashCmd.Aligned file.eraseSize)
      fun result => result.2.blockWritePtr.file = file := by
  unfold nkFflush
  rw [Prog.ensures_bind]
  exact (nkCheckedWrite_aligned area hfile _).mono fun _ hfile => hfile

theorem nkFputc_aligned (area : file.Sectored) {f : Nkoutfile NkChecked}
    (hfile : f.blockWritePtr.file = file) (c : UInt8) :
    (nkFputc (some nkCheckedWrite) stack f c).Ensures (FlashCmd.Aligned file.eraseSize)
      fun result => result.2.blockWritePtr.file = file := by
  unfold nkFputc
  split
  · unfold nkFlushAndPutc
    split
    · rw [Prog.ensures_bind]
      refine (nkFflush_aligned area hfile).mono fun result hresult => ?_
      rw [Prog.ensures_pure, ← hresult]
      split <;> rfl
    · rw [Prog.ensures_bind]
      exact (nkCheckedWrite_aligned area hfile _).mono fun _ hfile => hfile
  · exact hfile

theorem nkFputs_aligned (area : file.Sectored) {f : Nkoutfile NkChecked}
    (hfile : f.blockWritePtr.file = file) (chars : List UInt8) :
    (nkFputs (some nkCheckedWrite) stack f chars).Ensures (FlashCmd.Aligned file.eraseSize)
      fun result => result.2.blockWritePtr.file = file := by
  induction chars generalizing f with
  | nil => exact hfile
  | cons c chars ih =>
      unfold nkFputs
      rw [Prog.ensures_bind]
      refine (nkFputc_aligned stack area hfile c).mono fun result hresult => ?_
      rw [Prog.ensures_bind]
      exact (ih hresult).mono fun _ hrest => hrest

/-- A save erases whole sectors and writes inside the memory, whatever the answers are. -/
theorem nkDbaseSave_aligned {dbase : NkDbase} {rev : UInt8}
    (area : (dbase.bank (saveBank rev)).Sectored) (ram : Memory) (location : Nat) :
    (nkDbaseSave fl charSigned stack dbase rev ram location).Ensures
      (FlashCmd.Aligned (dbase.bank (saveBank rev)).eraseSize) fun _ => True := by
  unfold nkDbaseSave
  rw [Prog.ensures_bind]
  refine (nkCheckedWriteOpen_aligned area).mono fun opened hopened => ?_
  dsimp only
  split
  · exact trivial
  · have hwrite : (nkDbaseWrite fl charSigned stack dbase rev ram location opened.2).Ensures
        (FlashCmd.Aligned (dbase.bank (saveBank rev)).eraseSize)
        fun result => result.2.blockWritePtr.file = dbase.bank (saveBank rev) := by
      unfold nkDbaseWrite
      rw [Prog.ensures_bind]
      refine (nkFputc_aligned stack area hopened _).mono fun _ h₁ => ?_
      rw [Prog.ensures_bind]
      refine (nkFputs_aligned stack area h₁ _).mono fun _ h₂ => ?_
      rw [Prog.ensures_bind]
      exact (nkFflush_aligned area h₂).mono fun _ h₃ => h₃
    rw [Prog.ensures_bind]
    refine hwrite.mono fun written hwritten => ?_
    rw [Prog.ensures_bind]
    refine (nkCheckedWriteClose_aligned area hwritten).mono fun closed _ => ?_
    split <;> exact trivial

end

section
variable (xfer : FlashCmd → Memory → Memory) (stack buf : Memory) (rev : UInt8) (ram : Memory)
  (cal : Nat)

/-- On the flash memory of the Pico a save runs as on a NOR memory. -/
theorem nkDbaseSave_mcuflash (flash : Memory) :
    (nkDbaseSave fl charSigned stack (calDbase.withBuf buf) rev ram cal).run (mcuflash xfer) flash =
      (nkDbaseSave fl charSigned stack (calDbase.withBuf buf) rev ram cal).run nor flash := by
  have area := (calDbase_sound.withBuf buf).sectored (saveBank rev)
  have hsector : ((calDbase.withBuf buf).bank (saveBank rev)).eraseSize = flashSectorSize := by
    cases saveBank rev <;> rfl
  have hcalls := nkDbaseSave_aligned fl charSigned stack area ram cal
  rw [hsector] at hcalls
  exact hcalls.run_congr (mcuflash_eq_nor xfer) flash

theorem nkDbaseSave_mcuflash_stops {flash flash' : Memory} :
    (nkDbaseSave fl charSigned stack (calDbase.withBuf buf) rev ram cal).Stops calDbase.Torn
        (mcuflash xfer) flash flash' ↔
      (nkDbaseSave fl charSigned stack (calDbase.withBuf buf) rev ram cal).Stops calDbase.Torn
        nor flash flash' := by
  have area := (calDbase_sound.withBuf buf).sectored (saveBank rev)
  have hsector : ((calDbase.withBuf buf).bank (saveBank rev)).eraseSize = flashSectorSize := by
    cases saveBank rev <;> rfl
  have hcalls := nkDbaseSave_aligned fl charSigned stack area ram cal
  rw [hsector] at hcalls
  exact hcalls.stops_congr (mcuflash_eq_nor xfer)

end

/-! ## What it is for -/

/-- What can be seen of the calibration store. -/
inductive CalEvent where
  /-- power comes back: what `cal` is after `database_init` -/
  | start (cal : List UInt8)
  /-- `dbase load`: what `cal` is then -/
  | load (cal : List UInt8)
  /-- `dbase set`: what `cal` is then -/
  | set (cal : List UInt8)
  | save
  | clear
  /-- power is lost in a command -/
  | cutSave
  | cutClear
  | off

/-- What is in the store, if it was ever saved, and `cal` while there is power. -/
structure CalStore where
  kept : Option (List UInt8)
  current : Option (List UInt8)

/-- A store whose saves are done or not done. -/
def calStore : System CalStore CalEvent where
  init s := s = ⟨none, none⟩
  step s e s' :=
    match e with
    | .start cal => cal = s.kept.getD calDefaults ∧ s' = ⟨s.kept, some cal⟩
    | .load cal => ∃ now, s.current = some now ∧ cal = s.kept.getD now ∧ s' = ⟨s.kept, some cal⟩
    | .set cal => ∃ now, s.current = some now ∧ s' = ⟨s.kept, some cal⟩
    | .save => ∃ now, s.current = some now ∧ s' = ⟨some now, some now⟩
    | .clear => ∃ now, s.current = some now ∧ s' = ⟨some calDefaults, some calDefaults⟩
    | .cutSave => ∃ now, s.current = some now ∧ (s' = ⟨s.kept, none⟩ ∨ s' = ⟨some now, none⟩)
    | .cutClear =>
        ∃ now, s.current = some now ∧ (s' = ⟨s.kept, none⟩ ∨ s' = ⟨some calDefaults, none⟩)
    | .off => s' = ⟨s.kept, none⟩

/-! ## The firmware -/

/-- The flash memory and, while there is power, `cal_rev` and the memory with `cal`. -/
structure Firmware where
  flash : Memory
  running : Option (UInt8 × Memory)

variable (triggersOf : Member → UInt32) (cal : Nat)

/-- The firmware, as far as it uses the calibration store.  All that is found in buffers
and on the stack is arbitrary; power may be lost at any call to the flash memory. -/
def firmware : System Firmware CalEvent where
  init s := s.running = none ∧ ∀ one data, ¬ Holds s.flash (calDbase.bank one) data
  step s e s' :=
    match e with
    | .start now =>
        s.running = none ∧ ∃ varFile buf ram rev ram',
          databaseInit fl fuel s.flash.reader varFile buf ram cal = some (rev, ram') ∧
            now = ram'.read cal calSize ∧ s' = ⟨s.flash, some (rev, ram')⟩
    | .load now =>
        ∃ rev ram varFile buf rtn rev' ram', s.running = some (rev, ram) ∧
          nkDbaseLoad fl fuel s.flash.reader varFile calDbase buf rev ram cal =
            some (rtn, rev', ram') ∧
          now = ram'.read cal calSize ∧ s' = ⟨s.flash, some (rev', ram')⟩
    | .set now =>
        ∃ rev ram key args ram', s.running = some (rev, ram) ∧
          dbaseSet fl fuel triggersOf key args ram cal = some ram' ∧
          now = ram'.read cal calSize ∧ s' = ⟨s.flash, some (rev, ram')⟩
    | .save =>
        ∃ rev ram stack buf xfer rtn rev' flash', s.running = some (rev, ram) ∧
          (nkDbaseSave fl charSigned stack (calDbase.withBuf buf) rev ram cal).run (mcuflash xfer)
            s.flash = some ((rtn, rev'), flash') ∧ s' = ⟨flash', some (rev', ram)⟩
    | .clear =>
        ∃ rev ram stack buf xfer rev' ram' flash', s.running = some (rev, ram) ∧
          (dbaseClear fl charSigned stack buf rev ram cal).run (mcuflash xfer) s.flash =
            some ((rev', ram'), flash') ∧ s' = ⟨flash', some (rev', ram')⟩
    | .cutSave =>
        ∃ rev ram stack buf xfer flash', s.running = some (rev, ram) ∧
          (nkDbaseSave fl charSigned stack (calDbase.withBuf buf) rev ram cal).Stops calDbase.Torn
            (mcuflash xfer) s.flash flash' ∧ s' = ⟨flash', none⟩
    | .cutClear =>
        ∃ rev ram stack buf xfer flash', s.running = some (rev, ram) ∧
          (dbaseClear fl charSigned stack buf rev ram cal).Stops calDbase.Torn (mcuflash xfer)
            s.flash flash' ∧ s' = ⟨flash', none⟩
    | .off => s' = ⟨s.flash, none⟩

/-- What the firmware keeps is what the store keeps. -/
def Firmware.Shows (s : Firmware) (t : CalStore) : Prop :=
  ∃ last, Keeps fl charSigned calDbase ⟨s.flash, s.running.map Prod.fst⟩ last ∧
    t.kept = last.map (fun value => value.1.read value.2 calSize) ∧
    t.current = s.running.map fun running => running.2.read cal calSize

variable {fl charSigned fuel triggersOf cal} {s : Firmware} {t : CalStore} {flash' ram : Memory}
  {rev : UInt8}

/-- What is in `cal` while there is power. -/
theorem Firmware.Shows.current (shows : s.Shows fl charSigned cal t)
    (hrunning : s.running = some (rev, ram)) : t.current = some (ram.read cal calSize) := by
  obtain ⟨last, -, -, hcurrent⟩ := shows
  rw [hcurrent, hrunning]
  rfl

theorem read_calDefaults (ram : Memory) (cal : Nat) :
    (ram.store cal calDefaults).read cal calSize = calDefaults :=
  Memory.read_store ram cal calDefaults

/-- A load shows what is kept, or what was there before. -/
theorem Firmware.Shows.load (hfuel : flashKeyvalSize ≤ fuel) (shows : s.Shows fl charSigned cal t)
    (varFile : NkChecked) (buf : List UInt8) (before : Memory) :
    ∃ rtn rev after, nkDbaseLoad fl fuel s.flash.reader varFile calDbase buf
        ((s.running.map Prod.fst).getD 0) before cal = some (rtn, rev, after) ∧
      after.read cal calSize = t.kept.getD (before.read cal calSize) ∧
      Firmware.Shows fl charSigned cal ⟨s.flash, some (rev, after)⟩
        ⟨t.kept, some (after.read cal calSize)⟩ := by
  obtain ⟨last, keeps, hkept, hcurrent⟩ := shows
  have hfuel' : ∀ one, (calDbase.bank one).areaSize ≤ fuel := fun one => by
    cases one <;> exact hfuel
  obtain ⟨rtn, rev, after, hload, hregister, hkeeps⟩ :=
    keeps.load calDbase_sound tyCAL_wellFormed rfl hfuel' varFile buf before cal
  refine ⟨rtn, rev, after, hload, ?_, last, hkeeps, hkept, rfl⟩
  rw [hkept]
  cases last with
  | none =>
      obtain rfl : after = before := hregister.2
      rfl
  | some value => exact restored_cal hregister.2.1

/-- A save that is carried out. -/
theorem Firmware.Shows.saved (shows : s.Shows fl charSigned cal t) {now : Memory}
    (hrunning : s.running = some (rev, now)) (ram stack buf : Memory) :
    ∃ flash', (nkDbaseSave fl charSigned stack (calDbase.withBuf buf) rev ram cal).run nor s.flash =
        some ((0, rev + 1), flash') ∧
      ∀ ram', Firmware.Shows fl charSigned cal ⟨flash', some (rev + 1, ram')⟩
        ⟨some (ram.read cal calSize), some (ram'.read cal calSize)⟩ := by
  obtain ⟨last, keeps, -, -⟩ := shows
  have hsavable := cal_savable fl charSigned ram cal
  have hrev : (⟨s.flash, s.running.map Prod.fst⟩ : Station).rev = some rev := by
    rw [hrunning]
    rfl
  obtain ⟨-, flash', hrun, -⟩ := nkDbaseSave_nor stack buf calDbase_sound hsavable rev s.flash
  have hsaved := keeps.saved calDbase_sound hrev hsavable hrun (Option.getD_some)
  exact ⟨flash', hrun, fun ram' => ⟨some (ram, cal), hsaved, rfl, rfl⟩⟩

/-- A save that is stopped. -/
theorem Firmware.Shows.stopped (shows : s.Shows fl charSigned cal t) {now : Memory}
    (hrunning : s.running = some (rev, now)) {ram stack buf : Memory}
    (hstop : (nkDbaseSave fl charSigned stack (calDbase.withBuf buf) rev ram cal).Stops
      calDbase.Torn nor s.flash flash') :
    ∃ kept, (kept = t.kept ∨ kept = some (ram.read cal calSize)) ∧
      Firmware.Shows fl charSigned cal ⟨flash', none⟩ ⟨kept, none⟩ := by
  obtain ⟨last, keeps, hkept, -⟩ := shows
  have hrev : (⟨s.flash, s.running.map Prod.fst⟩ : Station).rev = some rev := by
    rw [hrunning]
    rfl
  obtain ⟨last', hlast, hkeeps⟩ :=
    keeps.stopped calDbase_sound hrev (cal_savable fl charSigned ram cal) hstop
  refine ⟨last'.map fun value => value.1.read value.2 calSize, ?_, last', hkeeps, rfl, rfl⟩
  rcases hlast with rfl | rfl
  · exact Or.inl hkept.symm
  · exact Or.inr rfl

/-- A clear that is carried out. -/
theorem Firmware.Shows.cleared (shows : s.Shows fl charSigned cal t)
    (hrunning : s.running = some (rev, ram)) (stack buf : Bool → Memory)
    (xfer : FlashCmd → Memory → Memory) :
    ∃ rev' flash', (dbaseClear fl charSigned stack buf rev ram cal).run (mcuflash xfer) s.flash =
        some ((rev', ram.store cal calDefaults), flash') ∧
      Firmware.Shows fl charSigned cal ⟨flash', some (rev', ram.store cal calDefaults)⟩
        ⟨some calDefaults, some calDefaults⟩ := by
  obtain ⟨flash₁, hfirst, hshows₁⟩ :=
    shows.saved hrunning (ram.store cal calDefaults) (stack false) (buf false)
  obtain ⟨flash₂, hsecond, hshows₂⟩ := Firmware.Shows.saved (hshows₁ ram) rfl
    (ram.store cal calDefaults) (stack true) (buf true)
  rw [← nkDbaseSave_mcuflash fl charSigned xfer] at hfirst hsecond
  have hdone := hshows₂ (ram.store cal calDefaults)
  rw [read_calDefaults] at hdone
  refine ⟨_, flash₂, ?_, hdone⟩
  unfold dbaseClear
  dsimp only
  rw [Prog.run_bind_of hfirst]
  dsimp only
  rw [Prog.run_bind_of hsecond, Prog.run_pure]

/-- A clear that is stopped, in one of its two saves. -/
theorem Firmware.Shows.clear_stopped (shows : s.Shows fl charSigned cal t)
    (hrunning : s.running = some (rev, ram)) {stack buf : Bool → Memory}
    {xfer : FlashCmd → Memory → Memory}
    (hstop : (dbaseClear fl charSigned stack buf rev ram cal).Stops calDbase.Torn (mcuflash xfer)
      s.flash flash') :
    ∃ kept, (kept = t.kept ∨ kept = some calDefaults) ∧
      Firmware.Shows fl charSigned cal ⟨flash', none⟩ ⟨kept, none⟩ := by
  obtain ⟨flash₁, hfirst, hshows₁⟩ :=
    shows.saved hrunning (ram.store cal calDefaults) (stack false) (buf false)
  rw [← nkDbaseSave_mcuflash fl charSigned xfer] at hfirst
  unfold dbaseClear at hstop
  dsimp only at hstop
  rw [Prog.stops_bind_of hfirst] at hstop
  rcases hstop with hstop | hstop
  · rw [nkDbaseSave_mcuflash_stops] at hstop
    have hkept := shows.stopped hrunning hstop
    rwa [read_calDefaults] at hkept
  · dsimp only at hstop
    rw [Prog.stops_bind] at hstop
    rcases hstop with hstop | ⟨result, flash₂, -, hstop⟩
    · rw [nkDbaseSave_mcuflash_stops] at hstop
      obtain ⟨kept, hkept, hshows⟩ := Firmware.Shows.stopped (hshows₁ ram) rfl hstop
      rw [read_calDefaults, or_self] at hkept
      exact ⟨kept, Or.inr hkept, hshows⟩
    · exact absurd hstop Prog.not_stops_pure

/-- The firmware does what the store allows. -/
theorem firmware_simulates (fl : Floats) (charSigned : Bool) (triggersOf : Member → UInt32)
    (cal : Nat) (hfuel : flashKeyvalSize ≤ fuel) :
    System.Simulates (firmware fl charSigned fuel triggersOf cal) calStore
      (Firmware.Shows fl charSigned cal) := by
  constructor
  · rintro s ⟨hoff, hbad⟩
    refine ⟨⟨none, none⟩, rfl, none, ⟨hbad, ?_⟩, rfl, ?_⟩
    · rw [hoff]
      rfl
    · rw [hoff]
      rfl
  · intro s e s' t shows hstep
    cases e with
    | start now =>
        obtain ⟨hoff, varFile, buf, ram, rev, ram', hinit, rfl, rfl⟩ := hstep
        obtain ⟨rtn, rev', after, hload, hread, hshows⟩ :=
          shows.load hfuel varFile buf (ram.store cal calDefaults)
        rw [hoff, Option.map_none, Option.getD_none] at hload
        rw [databaseInit, hload, Option.map_some, Option.some.injEq, Prod.mk.injEq] at hinit
        obtain ⟨rfl, rfl⟩ := hinit
        rw [read_calDefaults] at hread
        exact ⟨_, ⟨hread, rfl⟩, hshows⟩
    | load now =>
        obtain ⟨rev, ram, varFile, buf, rtn, rev', ram', hrunning, hload, rfl, rfl⟩ := hstep
        obtain ⟨rtn', rev'', after, hload', hread, hshows⟩ := shows.load hfuel varFile buf ram
        rw [hrunning, Option.map_some, Option.getD_some, hload, Option.some.injEq, Prod.mk.injEq,
          Prod.mk.injEq] at hload'
        obtain ⟨-, rfl, rfl⟩ := hload'
        exact ⟨_, ⟨_, shows.current hrunning, hread, rfl⟩, hshows⟩
    | set now =>
        obtain ⟨rev, ram, key, args, ram', hrunning, -, rfl, rfl⟩ := hstep
        have hcurrent := shows.current hrunning
        obtain ⟨last, keeps, hkept, -⟩ := shows
        rw [hrunning] at keeps
        exact ⟨_, ⟨_, hcurrent, rfl⟩, last, keeps, hkept, rfl⟩
    | save =>
        obtain ⟨rev, ram, stack, buf, xfer, rtn, rev', flash', hrunning, hrun, rfl⟩ := hstep
        obtain ⟨flash₁, hsave, hshows⟩ := shows.saved hrunning ram stack buf
        rw [nkDbaseSave_mcuflash, hsave] at hrun
        simp only [Option.some.injEq, Prod.mk.injEq] at hrun
        obtain ⟨⟨-, rfl⟩, rfl⟩ := hrun
        exact ⟨_, ⟨_, shows.current hrunning, rfl⟩, hshows ram⟩
    | clear =>
        obtain ⟨rev, ram, stack, buf, xfer, rev', ram', flash', hrunning, hrun, rfl⟩ := hstep
        obtain ⟨rev₁, flash₁, hclear, hshows⟩ := shows.cleared hrunning stack buf xfer
        rw [hclear] at hrun
        simp only [Option.some.injEq, Prod.mk.injEq] at hrun
        obtain ⟨⟨rfl, rfl⟩, rfl⟩ := hrun
        exact ⟨_, ⟨_, shows.current hrunning, rfl⟩, hshows⟩
    | cutSave =>
        obtain ⟨rev, ram, stack, buf, xfer, flash', hrunning, hstop, rfl⟩ := hstep
        rw [nkDbaseSave_mcuflash_stops] at hstop
        obtain ⟨kept, hkept, hshows⟩ := shows.stopped hrunning hstop
        refine ⟨⟨kept, none⟩, ⟨_, shows.current hrunning, ?_⟩, hshows⟩
        rcases hkept with rfl | rfl
        · exact Or.inl rfl
        · exact Or.inr rfl
    | cutClear =>
        obtain ⟨rev, ram, stack, buf, xfer, flash', hrunning, hstop, rfl⟩ := hstep
        obtain ⟨kept, hkept, hshows⟩ := shows.clear_stopped hrunning hstop
        refine ⟨⟨kept, none⟩, ⟨_, shows.current hrunning, ?_⟩, hshows⟩
        rcases hkept with rfl | rfl
        · exact Or.inl rfl
        · exact Or.inr rfl
    | off =>
        obtain rfl : s' = ⟨s.flash, none⟩ := hstep
        obtain ⟨last, keeps, hkept, -⟩ := shows
        exact ⟨_, rfl, last, keeps.off, hkept, rfl⟩

/-- In every run of the firmware, with power lost at any call to the flash memory: at a
start `cal` has the bytes that were saved last, or the defaults when nothing was saved,
where a save or a clear that was cut may or may not count; `database_init` always returns,
and `dbase save` always succeeds. -/
theorem firmware_keeps (fl : Floats) (charSigned : Bool) (triggersOf : Member → UInt32)
    (cal : Nat) (hfuel : flashKeyvalSize ≤ fuel) {events : List CalEvent}
    (hrun : (firmware fl charSigned fuel triggersOf cal).Run events s) :
    (∃ t, calStore.Run events t ∧ t.current = s.running.map fun running =>
      running.2.read cal calSize) ∧
      (s.running = none → ∀ varFile buf ram, ∃ rev ram',
        databaseInit fl fuel s.flash.reader varFile buf ram cal = some (rev, ram')) ∧
      ∀ rev ram stack buf xfer, s.running = some (rev, ram) → ∃ flash',
        (nkDbaseSave fl charSigned stack (calDbase.withBuf buf) rev ram cal).run (mcuflash xfer)
          s.flash = some ((0, rev + 1), flash') := by
  obtain ⟨t, hstore, shows⟩ := (firmware_simulates fl charSigned triggersOf cal hfuel).run hrun
  have hcurrent := shows
  obtain ⟨-, -, -, hcurrent⟩ := hcurrent
  refine ⟨⟨t, hstore, hcurrent⟩, ?_, ?_⟩
  · intro hoff varFile buf ram
    obtain ⟨rtn, rev, after, hload, -⟩ := shows.load hfuel varFile buf (ram.store cal calDefaults)
    rw [hoff, Option.map_none, Option.getD_none] at hload
    exact ⟨rev, after, by rw [databaseInit, hload]; rfl⟩
  · intro rev ram stack buf xfer hrunning
    obtain ⟨flash', hsave, -⟩ := shows.saved hrunning ram stack buf
    rw [nkDbaseSave_mcuflash]
    exact ⟨flash', hsave⟩

/-- A first start, a save, and a save that is cut before its first call. -/
theorem firmware_keeps_cut :
    ∃ now s, (firmware .absent true 8192 (fun _ => 0) 0).Run [.start now, .save, .cutSave] s ∧
      ∃ t, calStore.Run [.start now, .save, .cutSave] t ∧ t.current = none := by
  let run := (firmware .absent true 8192 (fun _ => 0) 0).Run
  have hbad : ∀ one data, ¬ Holds (fun _ => 0xFF) (calDbase.bank one) data := fun one data =>
    not_holds_erased (calDbase_sound.sectored one).inMemory (fun _ _ _ => rfl) data
  have hblank : run [] ⟨fun _ => 0xFF, none⟩ := .start ⟨rfl, hbad⟩
  have hkeeps := fun events s (hrun : run events s) =>
    firmware_keeps .absent true (fun _ => 0) 0 (by decide) hrun
  obtain ⟨rev, ram, hinit⟩ := (hkeeps _ _ hblank).2.1 rfl ⟨calDbase.bank0, 0, 0⟩ [] fun _ => 0
  have hstarted : run [.start (ram.read 0 calSize)] ⟨fun _ => 0xFF, some (rev, ram)⟩ :=
    .next hblank ⟨rfl, _, _, _, rev, ram, hinit, rfl, rfl⟩
  obtain ⟨flash, hsave⟩ := (hkeeps _ _ hstarted).2.2 rev ram (fun _ => 0) (fun _ => 0)
    (fun _ mem => mem) rfl
  have hsaved : run [.start (ram.read 0 calSize), .save] ⟨flash, some (rev + 1, ram)⟩ :=
    .next hstarted ⟨rev, ram, _, _, _, 0, rev + 1, flash, rfl, hsave, rfl⟩
  have hstop : (nkDbaseSave .absent true (fun _ => 0) (calDbase.withBuf fun _ => 0) (rev + 1) ram
      0).Stops calDbase.Torn (mcuflash fun _ mem => mem) flash flash := by
    refine Prog.stops_bind.mpr (Or.inl ?_)
    unfold nkCheckedWriteOpen
    dsimp only
    rw [if_pos ((calDbase_sound.withBuf fun _ => 0).sectored _).has_erase]
    refine Prog.stops_bind.mpr (Or.inl (Or.inl fun one => ?_))
    exact ⟨fun _ _ => rfl, fun _ => Or.inl rfl⟩
  have hcut : run [.start (ram.read 0 calSize), .save, .cutSave] ⟨flash, none⟩ :=
    .next hsaved ⟨rev + 1, ram, _, _, _, flash, rfl, hstop, rfl⟩
  exact ⟨_, _, hcut, (hkeeps _ _ hcut).1⟩

end LibnklabsPico.Dbase
