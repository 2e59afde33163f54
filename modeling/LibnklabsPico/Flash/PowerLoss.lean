/-
  Flash/PowerLoss.lean --- a checked file whose writing is stopped.

  The header is the first thing erased and the last thing written.  A call on the
  header is taken to be done or not when power is lost in it; another call may leave
  anything where it works.  What the watched memory allows from a start to an end bounds
  what any stop in between can leave: the bytes it has not programmed by the end, and
  had erased at the start, are still erased.
-/
import LibnklabsPico.Flash.Matching

set_option autoImplicit false

namespace LibnklabsPico.Flash

open LibnklabsPico.Foundation

/-! ## One area -/

section
variable {file : NkCheckedBase} {mem mem' : Memory} {data : List UInt8}

/-- Whether a file is in an area depends on the memory there. -/
theorem Holds.congr (hsame : ∀ a, file.areaBase ≤ a → a < file.areaBase + file.areaSize →
    mem' a = mem a) (holds : Holds mem' file data) : Holds mem file data := by
  have hfits := holds.fits
  refine ⟨hfits, ?_, ?_⟩
  · rw [← holds.header]
    exact Memory.read_congr fun a hlow hhigh => (hsame a hlow (by omega)).symm
  · refine Eq.trans ?_ holds.bytes
    rw [dataBase]
    exact Memory.read_congr fun a hlow hhigh => (hsame a (by omega) (by omega)).symm

/-- There is one file in an area. -/
theorem Holds.unique (area : file.InMemory) {data' : List UInt8} (holds : Holds mem file data)
    (holds' : Holds mem file data') : data = data' := by
  have hlimit := area.areaSize_lt
  have hfits := holds.fits
  have hfits' := holds'.fits
  have hsize := getLe32_size (nkCrc32beCheck data) (show data.length < 2 ^ 32 by omega)
  have hsize' := getLe32_size (nkCrc32beCheck data') (show data'.length < 2 ^ 32 by omega)
  rw [← holds.header] at hsize
  rw [← holds'.header] at hsize'
  rw [← holds.bytes, ← holds'.bytes, ← hsize, ← hsize']

/-- The sectors that a file needs are in its area. -/
theorem sectorEnd_le (area : file.Sectored) (hwhole : file.eraseSize ∣ file.areaSize) {n : Nat}
    (hfit : headerSize + n ≤ file.areaSize) :
    sectorEnd file n ≤ file.areaBase + file.areaSize := by
  have hround := roundUp_mono hfit file.eraseSize
  rw [roundUp_of_dvd area.eraseSize_pos hwhole] at hround
  exact Nat.add_le_add_left hround _

/-- An address outside the area of a file. -/
def Outside (file : NkCheckedBase) (a : Nat) : Prop :=
  a < file.areaBase ∨ file.areaBase + file.areaSize ≤ a

/-- Writing a file changes nothing outside its area. -/
theorem written_outside (area : file.Sectored) (hwhole : file.eraseSize ∣ file.areaSize)
    (hfit : headerSize + data.length ≤ file.areaSize) {a : Nat} (ha : Outside file a) :
    written file mem data (sectorEnd file data.length) a = mem a := by
  have hend := sectorEnd_le area hwhole hfit
  rw [Outside] at ha
  unfold written
  rw [dataBase, if_neg (by omega), if_neg (by omega)]

theorem stored_outside (area : file.Sectored) (hwhole : file.eraseSize ∣ file.areaSize)
    (hfit : headerSize + data.length ≤ file.areaSize) {a : Nat} (ha : Outside file a) :
    stored file mem data a = mem a := by
  have hheader := area.header_fits
  rw [stored, if_neg (by rw [Outside] at ha; rw [dataBase]; omega),
    written_outside area hwhole hfit ha]

end

/-! ## Stopped runs -/

/-- What power that is lost in a call may leave. -/
def FlashCmd.Torn (file : NkCheckedBase) (c : FlashCmd) (mem mem' : Memory) : Prop :=
  (∀ a, ¬ c.Touches a → mem' a = mem a) ∧
    ((∃ a, c.Touches a ∧ file.areaBase ≤ a ∧ a < dataBase file) →
      mem' = mem ∨ mem' = c.apply mem)

/-- An erased header, and nothing changed outside the area. -/
structure Begun (file : NkCheckedBase) (before mem : Memory) : Prop where
  header : ∀ a, file.areaBase ≤ a → a < dataBase file → mem a = 0xFF
  outside : ∀ a, Outside file a → mem a = before a

/-- A call in the area that does not program the header. -/
structure FlashCmd.Behind (file : NkCheckedBase) (c : FlashCmd) : Prop where
  inside : ∀ a, c.Touches a → ¬ Outside file a
  header : ∀ a, c.Touches a → file.areaBase ≤ a → a < dataBase file →
    ∃ addr size, c = .erase addr size

section
variable {file : NkCheckedBase} {c : FlashCmd} {before mem mem' : Memory}

theorem Begun.apply (hc : c.Behind file) (begun : Begun file before mem) :
    Begun file before (c.apply mem) := by
  constructor
  · intro a hlow hhigh
    by_cases ha : c.Touches a
    · obtain ⟨addr, size, rfl⟩ := hc.header a ha hlow hhigh
      exact if_pos ha
    · rw [FlashCmd.apply_of_not_touches ha]
      exact begun.header a hlow hhigh
  · intro a hout
    rw [FlashCmd.apply_of_not_touches fun ha => hc.inside a ha hout]
    exact begun.outside a hout

/-- Power that is lost in such a call leaves the header erased. -/
theorem Begun.torn (hc : c.Behind file) (begun : Begun file before mem)
    (htorn : c.Torn file mem mem') : Begun file before mem' := by
  obtain ⟨hsame, hheader⟩ := htorn
  constructor
  · intro a hlow hhigh
    by_cases ha : c.Touches a
    · rcases hheader ⟨a, ha, hlow, hhigh⟩ with rfl | rfl
      · exact begun.header a hlow hhigh
      · exact (begun.apply hc).header a hlow hhigh
    · rw [hsame a ha]
      exact begun.header a hlow hhigh
  · intro a hout
    rw [hsame a fun ha => hc.inside a ha hout]
    exact begun.outside a hout

/-- What was erased or programmed stays so. -/
theorem strictNor_mono {α : Type} {p : FlashProg α} {dev dev' : Watched} {result : α}
    (hrun : p.run strictNor dev = some (result, dev')) (a : Nat) :
    (dev.erased a = true → dev'.erased a = true) ∧
      (dev.programmed a = true → dev'.programmed a = true) := by
  induction p generalizing dev with
  | pure b =>
      simp only [Prog.run, Option.some.injEq, Prod.mk.injEq] at hrun
      rw [hrun.2]
      exact ⟨id, id⟩
  | call c next ih =>
      simp only [Prog.run] at hrun
      split at hrun
      · rename_i r dev₁ hcall
        have hrest := ih r hrun
        cases c with
        | erase addr size =>
            simp only [strictNor, Option.some.injEq, Prod.mk.injEq] at hcall
            obtain ⟨-, rfl⟩ := hcall
            exact ⟨fun h => hrest.1 (by simp [h]), hrest.2⟩
        | write addr data =>
            simp only [strictNor] at hcall
            split at hcall
            · simp only [Option.some.injEq, Prod.mk.injEq] at hcall
              obtain ⟨-, rfl⟩ := hcall
              exact ⟨hrest.1, fun h => hrest.2 (by simp [h])⟩
            · cases hcall
      · cases hrun

/-- What the watch of a whole run says about the area of a file: nothing outside it was
erased or programmed, and the header was not programmed. -/
structure Watched.Behind (file : NkCheckedBase) (dev : Watched) : Prop where
  outside : ∀ a, Outside file a → dev.erased a ≠ true ∧ dev.programmed a ≠ true
  header : ∀ a, file.areaBase ≤ a → a < dataBase file → dev.programmed a ≠ true

theorem Watched.Behind.of_run {α : Type} {p : FlashProg α} {dev dev' : Watched} {result : α}
    (behind : dev'.Behind file) (hrun : p.run strictNor dev = some (result, dev')) :
    dev.Behind file :=
  ⟨fun a ha => (behind.outside a ha).imp (mt (strictNor_mono hrun a).1)
      (mt (strictNor_mono hrun a).2),
    fun a hlow hhigh => mt (strictNor_mono hrun a).2 (behind.header a hlow hhigh)⟩

/-- A call that leads to such a watch. -/
theorem Watched.Behind.call {dev dev' : Watched} {r : Int} (behind : dev'.Behind file)
    (hcall : strictNor c dev = some (r, dev')) : c.Behind file := by
  cases c with
  | erase addr size =>
      simp only [strictNor, Option.some.injEq, Prod.mk.injEq] at hcall
      obtain ⟨-, rfl⟩ := hcall
      refine ⟨fun a ha hout => (behind.outside a hout).1 ?_, fun _ _ _ _ => ⟨addr, size, rfl⟩⟩
      simp only [FlashCmd.Touches] at ha
      simp [ha]
  | write addr data =>
      simp only [strictNor] at hcall
      split at hcall
      · simp only [Option.some.injEq, Prod.mk.injEq] at hcall
        obtain ⟨-, rfl⟩ := hcall
        refine ⟨fun a ha hout => (behind.outside a hout).2 ?_, fun a ha hlow hhigh =>
          absurd ?_ (behind.header a hlow hhigh)⟩
        · simp only [FlashCmd.Touches] at ha
          simp [ha]
        · simp only [FlashCmd.Touches] at ha
          simp [ha]
      · cases hcall

/-- Wherever such a run is stopped, the header is erased. -/
theorem Begun.stops {α : Type} {p : FlashProg α} {dev dev' : Watched} {result : α}
    (behind : dev'.Behind file) (begun : Begun file before dev.mem)
    (hrun : p.run strictNor dev = some (result, dev'))
    (hstop : p.Stops (FlashCmd.Torn file) nor dev.mem mem') : Begun file before mem' := by
  induction p generalizing dev with
  | pure b => exact hstop.elim
  | call c next ih =>
      simp only [Prog.run] at hrun
      split at hrun
      · rename_i r dev₁ hcall
        have hc := (behind.of_run hrun).call hcall
        have hnor := strictNor_call hcall
        rcases hstop with htorn | ⟨r', mem₁, hcall', hstop⟩
        · exact begun.torn hc htorn
        · rw [hnor, Option.some.injEq, Prod.mk.injEq] at hcall'
          obtain ⟨rfl, rfl⟩ := hcall'
          have happly : dev₁.mem = c.apply dev.mem := by
            simp only [nor, Option.some.injEq, Prod.mk.injEq] at hnor
            exact hnor.2.symm
          exact ih _ (happly ▸ begun.apply hc) hrun hstop
      · cases hrun

end

/-! ## Opening and closing -/

section
variable {file : NkCheckedBase} {mem mem' : Memory} {data : List UInt8}

/-- A file that was opened, and not closed. -/
theorem begun_writing (data : List UInt8) (area : file.Sectored)
    (hwhole : file.eraseSize ∣ file.areaSize)
    (mem : Memory) (hfit : headerSize + data.length ≤ file.areaSize) :
    Begun file mem (written file mem data (sectorEnd file data.length)) := by
  have hround := le_roundUp (headerSize + data.length) area.eraseSize_pos
  refine ⟨fun a hlow hhigh => ?_, fun a hout => written_outside area hwhole hfit hout⟩
  unfold written
  rw [if_neg (by omega), if_pos]
  rw [dataBase] at hhigh
  rw [sectorEnd]
  omega

/-- The watch of the writing of a file that fits. -/
theorem behind_writing (area : file.Sectored) (hwhole : file.eraseSize ∣ file.areaSize)
    (mem : Memory) (hfit : headerSize + data.length ≤ file.areaSize) :
    (writing file mem data (sectorEnd file data.length)).Behind file := by
  have hend := sectorEnd_le area hwhole hfit
  refine ⟨fun a hout => ?_, fun a hlow hhigh => ?_⟩
  · rw [Outside] at hout
    have hprogrammed : ¬ (dataBase file ≤ a ∧ a < dataBase file + data.length) := by
      rw [dataBase]
      omega
    exact ⟨by simp only [writing, ne_eq, decide_eq_true_eq]; omega, by simp [writing, hprogrammed]⟩
  · simp only [writing, ne_eq, decide_eq_true_eq]
    omega

/-- Opening is stopped before or after its call. -/
theorem nkCheckedWriteOpen_stops (area : file.Sectored)
    (hstop : (nkCheckedWriteOpen file).Stops (FlashCmd.Torn file) nor mem mem') :
    mem' = mem ∨ mem' = written file mem [] (sectorEnd file 0) := by
  have hopen := strictNor_run (nkCheckedWriteOpen_run area mem)
  unfold nkCheckedWriteOpen at hstop hopen
  dsimp only at hstop hopen
  rw [if_pos area.has_erase] at hstop hopen
  rw [Prog.stops_bind] at hstop
  have herase : mem.erase file.areaBase file.eraseSize =
      written file mem [] (sectorEnd file 0) := by
    rw [flashErase, Prog.run_bind, Prog.run_perform] at hopen
    simp only [nor, Option.bind_some, Prog.run_pure, Option.some.injEq, Prod.mk.injEq] at hopen
    exact hopen.2
  rcases hstop with hstop | ⟨rtn, mem₁, -, hstop⟩
  · rw [flashErase, Prog.stops_perform] at hstop
    have hsize := area.eraseSize_pos
    have hheader := hstop.2 ⟨file.areaBase, ⟨Nat.le_refl _, by omega⟩, Nat.le_refl _, by
      rw [dataBase]
      exact Nat.lt_add_of_pos_right (by decide)⟩
    rw [← herase]
    exact hheader
  · exact absurd hstop Prog.not_stops_pure

/-- Closing is stopped before or after its call. -/
theorem nkCheckedWriteClose_stops (area : file.Sectored)
    (hstop : (nkCheckedWriteClose (openFile file data)).Stops (FlashCmd.Torn file) nor
      (written file mem data (sectorEnd file data.length)) mem') :
    mem' = written file mem data (sectorEnd file data.length) ∨ mem' = stored file mem data := by
  obtain ⟨dev, hclose, hmem⟩ := nkCheckedWriteClose_run mem data area
  have hstored : (FlashCmd.write file.areaBase
      (nkCheckedHeader data.length (nkCrc32beCheck data))).apply
        (written file mem data (sectorEnd file data.length)) = stored file mem data := by
    have hrun := strictNor_run hclose
    rw [nkCheckedWriteClose, flashWrite, Prog.run_perform] at hrun
    simp only [nor, Option.some.injEq, Prod.mk.injEq] at hrun
    exact hrun.2.trans hmem
  rw [nkCheckedWriteClose, flashWrite, Prog.stops_perform] at hstop
  have hheader := hstop.2 ⟨file.areaBase, ⟨Nat.le_refl _, by
    rw [nkCheckedHeader_length]
    exact Nat.lt_add_of_pos_right (by decide)⟩, Nat.le_refl _, by
      rw [dataBase]
      exact Nat.lt_add_of_pos_right (by decide)⟩
  rw [← hstored]
  exact hheader

end

end LibnklabsPico.Flash
