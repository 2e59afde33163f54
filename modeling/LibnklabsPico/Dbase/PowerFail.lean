/-
  Dbase/PowerFail.lean --- a database through losses of power.

  What the database is for is a value that is either the one before or the one after of
  a save, whenever power is lost.  `register` says this; `station` is the program, which
  loads after every start, with its flash memory.  Between two saves one bank holds the
  image of the last one, and the other bank is bad or of the revision before; a save
  that is stopped leaves it so.
-/
import LibnklabsPico.Dbase.SaveLoad
import LibnklabsPico.Foundation.Refine

set_option autoImplicit false

namespace LibnklabsPico.Dbase

open LibnklabsPico.Foundation
open LibnklabsPico.File
open LibnklabsPico.Flash
open LibnklabsPico.Text

/-! ## What it is for -/

/-- What can be seen of a database. -/
inductive DbaseEvent where
  /-- it is loaded into a memory: what it was before and is after -/
  | load (location : Nat) (before after : Memory)
  /-- the value at a location is saved -/
  | save (ram : Memory) (location : Nat)
  /-- power is lost in a save -/
  | cutSave (ram : Memory) (location : Nat)
  /-- power is lost otherwise -/
  | off

/-- A register that keeps the value that was saved last. -/
def register (type : Ty) : System (Option (Memory × Nat)) DbaseEvent where
  init last := last = none
  step last e last' :=
    match e with
    | .load location before after =>
        last' = last ∧
          match last with
          | none => after = before
          | some (ram, saved) =>
              Restored ram after type saved location ∧
                SameOutside before after location type.extent
    | .save ram location => last' = some (ram, location)
    | .cutSave ram location => last' = last ∨ last' = some (ram, location)
    | .off => last' = last

/-! ## The program and its flash memory -/

/-- A flash memory, and the revision while there is power. -/
structure Station where
  mem : Memory
  rev : Option UInt8

/-- The database with other content in its transfer buffer. -/
def NkDbase.withBuf (dbase : NkDbase) (buf : Memory) : NkDbase := { dbase with buf := buf }

/-- What power that is lost in a call may leave: a call on a header is done or not. -/
def NkDbase.Torn (dbase : NkDbase) (c : FlashCmd) (mem mem' : Memory) : Prop :=
  ∀ one, FlashCmd.Torn (dbase.bank one) c mem mem'

variable (fl : Floats) (charSigned : Bool) (dbase : NkDbase) (fuel : Nat)

/-- A value that can be saved: it is what its type says, and its image fits. -/
structure Savable (ram : Memory) (location : Nat) : Prop where
  ok : ValueOk ram dbase.ty location
  fits : ∀ one, headerSize + imageSize (dbase.bank one)
    (nkDbaseSerialize fl charSigned ram dbase.ty location) ≤ (dbase.bank one).areaSize

/-- The program: at a start the revision is zero and the database is loaded, and it is
saved only then.  Power that is lost is lost at any call of a save, or between them.  The
stack and the transfer buffer have any content. -/
def station : System Station DbaseEvent where
  init s := s.rev = none ∧ ∀ one data, ¬ Holds s.mem (dbase.bank one) data
  step s e s' :=
    match e with
    | .load location before after =>
        ∃ varFile buf rtn rev,
          nkDbaseLoad fl fuel s.mem.reader varFile dbase buf (s.rev.getD 0) before location =
            some (rtn, rev, after) ∧ s' = ⟨s.mem, some rev⟩
    | .save ram location =>
        Savable fl charSigned dbase ram location ∧
          ∃ stack buf rev rtn rev' mem', s.rev = some rev ∧
            (nkDbaseSave fl charSigned stack (dbase.withBuf buf) rev ram location).run nor s.mem =
              some ((rtn, rev'), mem') ∧ s' = ⟨mem', some rev'⟩
    | .cutSave ram location =>
        Savable fl charSigned dbase ram location ∧ ∃ stack buf rev mem', s.rev = some rev ∧
          (nkDbaseSave fl charSigned stack (dbase.withBuf buf) rev ram location).Stops dbase.Torn
            nor s.mem mem' ∧ s' = ⟨mem', none⟩
    | .off => s' = ⟨s.mem, none⟩

/-! ## The invariant -/

/-- The flash memory keeps the value that was saved last, in the bank of its revision,
and the revision of the program is that one. -/
def Keeps (s : Station) : Option (Memory × Nat) → Prop
  | none => (∀ one data, ¬ Holds s.mem (dbase.bank one) data) ∧ s.rev.getD 0 = 0
  | some (ram, location) => ∃ rev pad,
      Holds s.mem (dbase.bank (saveBank rev))
        ((rev + 1) :: (nkDbaseSerialize fl charSigned ram dbase.ty location ++ pad)) ∧
      Older dbase s.mem rev ∧ s.rev.getD (rev + 1) = rev + 1 ∧ ValueOk ram dbase.ty location

variable {fl charSigned dbase fuel} {stack buf : Memory}

theorem NkDbase.Sound.withBuf (sound : dbase.Sound) (buf : Memory) : (dbase.withBuf buf).Sound :=
  ⟨sound.sectored, sound.whole, sound.apart, sound.room, sound.bufSize_pow, sound.granularity_pow⟩

theorem saveBank_succ (rev : UInt8) : saveBank (rev + 1) = !saveBank rev := by
  have hnext : (rev + 1).toNat = (rev.toNat + 1) % 256 := UInt8.toNat_add rev 1
  unfold saveBank
  rw [hnext]
  rcases Nat.mod_two_eq_zero_or_one (rev.toNat + 1) with hmod | hmod
  · have hodd : ((rev.toNat + 1) % 256 + 1) % 2 = 1 := by omega
    rw [hmod, hodd]
    rfl
  · have heven : ((rev.toNat + 1) % 256 + 1) % 2 = 0 := by omega
    rw [hmod, heven]
    rfl

/-- Seen from the next save, the bank of the last one is the older one. -/
theorem Keeps.older (sound : dbase.Sound) {s : Station} {last : Option (Memory × Nat)}
    (keeps : Keeps fl charSigned dbase s last) {rev : UInt8} (hrev : s.rev = some rev) :
    Older dbase s.mem rev := by
  intro data holds
  cases last with
  | none => exact absurd holds (keeps.1 _ data)
  | some value =>
      obtain ⟨rev₀, pad, hlast, -, hcurrent, -⟩ := keeps
      rw [hrev] at hcurrent
      obtain rfl : rev = rev₀ + 1 := hcurrent
      rw [saveBank_succ, Bool.not_not] at holds
      exact ⟨_, (hlast.unique (sound.sectored _).inMemory holds).symm⟩

/-- What a stopped save may leave: the memory before it, a bank that was begun, or a bank
with the image. -/
theorem nkDbaseSave_stops (sound : dbase.Sound) {rev : UInt8} {ram : Memory} {location : Nat}
    {mem mem' : Memory}
    (hfit : headerSize + imageSize (dbase.bank (saveBank rev))
      (nkDbaseSerialize fl charSigned ram dbase.ty location) ≤
        (dbase.bank (saveBank rev)).areaSize)
    (hstop : (nkDbaseSave fl charSigned stack dbase rev ram location).Stops dbase.Torn nor mem
      mem') :
    mem' = mem ∨ Begun (dbase.bank (saveBank rev)) mem mem' ∨
      (nkDbaseSave fl charSigned stack dbase rev ram location).run nor mem =
        some ((0, rev + 1), mem') := by
  have area := sound.sectored (saveBank rev)
  have hwhole := sound.whole (saveBank rev)
  have hopened := begun_writing [] area hwhole mem (by simpa using area.header_fits)
  obtain ⟨pad, f, hlength, hwrite, hfile⟩ :=
    nkDbaseWrite_run stack sound rev (saveBank rev) mem hfit
  set image := (1 + rev) :: (nkDbaseSerialize fl charSigned ram dbase.ty location ++ pad)
    with himage
  have hroom : headerSize + image.length ≤ (dbase.bank (saveBank rev)).areaSize := by
    rwa [hlength]
  have hwritten := begun_writing image area hwhole mem hroom
  obtain ⟨dev, hclose, hmem⟩ := nkCheckedWriteClose_run mem image area
  have hopen : (nkCheckedWriteOpen (dbase.bank (saveBank rev))).run nor mem =
      some ((0, openFile (dbase.bank (saveBank rev)) []),
        (blocksWritten (dbase.bank (saveBank rev)) mem []).mem) :=
    strictNor_run (nkCheckedWriteOpen_run area mem)
  have hwritten' := strictNor_run hwrite
  have hclosed : (nkCheckedWriteClose f.blockWritePtr).run nor
      (blocksWritten (dbase.bank (saveBank rev)) mem image).mem =
        some (0, stored (dbase.bank (saveBank rev)) mem image) := by
    rw [hfile, ← hmem]
    exact strictNor_run hclose
  replace hstop := hstop.mono fun _ _ _ htorn => htorn (saveBank rev)
  unfold nkDbaseSave at hstop
  rw [Prog.stops_bind_of hopen] at hstop
  rcases hstop with hstop | hstop
  · rcases nkCheckedWriteOpen_stops area hstop with rfl | rfl
    · exact Or.inl rfl
    · exact Or.inr (Or.inl hopened)
  · simp only [ne_eq, not_true_eq_false, if_false] at hstop
    rw [Prog.stops_bind_of hwritten'] at hstop
    rcases hstop with hstop | hstop
    · have hbehind := behind_writing area hwhole mem hroom
      exact Or.inr (Or.inl (Begun.stops hbehind hopened hwrite hstop))
    · rw [Prog.stops_bind_of hclosed] at hstop
      rcases hstop with hstop | hstop
      · rw [hfile] at hstop
        rcases nkCheckedWriteClose_stops area hstop with rfl | rfl
        · exact Or.inr (Or.inl hwritten)
        · exact Or.inr (Or.inr (nkDbaseSave_run_of hopen hwritten' hclosed))
      · split at hstop
        · exact absurd hstop Prog.not_stops_pure
        · exact absurd hstop Prog.not_stops_pure

section
variable {s : Station} {last : Option (Memory × Nat)} {rev : UInt8} {ram mem' : Memory}
  {location : Nat}

/-- A save that is carried out. -/
theorem nkDbaseSave_nor (stack buf : Memory) (sound : dbase.Sound)
    (hsavable : Savable fl charSigned dbase ram location) (rev : UInt8) (mem : Memory) :
    ∃ pad mem', (nkDbaseSave fl charSigned stack (dbase.withBuf buf) rev ram location).run nor mem =
        some ((0, rev + 1), mem') ∧
      Holds mem' (dbase.bank (saveBank rev))
        ((rev + 1) :: (nkDbaseSerialize fl charSigned ram dbase.ty location ++ pad)) ∧
      ∀ a, Outside (dbase.bank (saveBank rev)) a → mem' a = mem a := by
  have hfit := hsavable.fits (saveBank rev)
  obtain ⟨pad, dev, hlength, hrun, hmem⟩ :=
    nkDbaseSave_run fl charSigned stack (sound.withBuf buf) rev ram location mem hfit
  have hroom : headerSize +
      ((rev + 1) :: (nkDbaseSerialize fl charSigned ram dbase.ty location ++ pad)).length ≤
        (dbase.bank (saveBank rev)).areaSize :=
    Nat.le_trans (Nat.le_of_eq (congrArg (headerSize + ·) hlength)) hfit
  refine ⟨pad, dev.mem, strictNor_run hrun, hmem ▸ stored_holds mem hroom, fun a ha => ?_⟩
  rw [hmem]
  exact stored_outside (sound.sectored _) (sound.whole _) hroom ha

/-- After a save its value is kept, with power or without it. -/
theorem Keeps.saved (sound : dbase.Sound) (keeps : Keeps fl charSigned dbase s last)
    (hrev : s.rev = some rev) (hsavable : Savable fl charSigned dbase ram location)
    (hrun : (nkDbaseSave fl charSigned stack (dbase.withBuf buf) rev ram location).run nor s.mem =
      some ((0, rev + 1), mem')) {power : Option UInt8} (hpower : power.getD (rev + 1) = rev + 1) :
    Keeps fl charSigned dbase ⟨mem', power⟩ (some (ram, location)) := by
  obtain ⟨pad, mem₁, hrun₁, holds, hsame⟩ :=
    nkDbaseSave_nor stack buf sound hsavable rev s.mem
  rw [hrun₁, Option.some.injEq, Prod.mk.injEq] at hrun
  obtain ⟨-, rfl⟩ := hrun
  exact ⟨rev, pad, holds, (keeps.older sound hrev).of_same sound hsame, hpower, hsavable.ok⟩

/-- A save that was only begun takes nothing from the other bank. -/
theorem Keeps.begun (sound : dbase.Sound) (keeps : Keeps fl charSigned dbase s last)
    (hrev : s.rev = some rev) (hbegun : Begun (dbase.bank (saveBank rev)) s.mem mem') :
    Keeps fl charSigned dbase ⟨mem', none⟩ last := by
  have hbad : ∀ data, ¬ Holds mem' (dbase.bank (saveBank rev)) data :=
    not_holds_erased (sound.sectored _).inMemory hbegun.header
  have hsame := sound.same_bank hbegun.outside
  cases last with
  | none =>
      refine ⟨fun one data holds => ?_, rfl⟩
      by_cases hone : one = saveBank rev
      · exact hbad data (hone ▸ holds)
      · rw [Bool.eq_not_of_ne hone] at holds
        exact keeps.1 _ data (Holds.congr (fun a hlow hhigh => (hsame a hlow hhigh)) holds)
  | some value =>
      obtain ⟨rev₀, pad, hlast, -, hcurrent, hok⟩ := keeps
      rw [hrev] at hcurrent
      obtain rfl : rev = rev₀ + 1 := hcurrent
      rw [saveBank_succ] at hbad hsame
      rw [Bool.not_not] at hsame
      refine ⟨rev₀, pad, Holds.congr (fun a hlow hhigh => (hsame a hlow hhigh).symm) hlast, ?_, rfl,
        hok⟩
      exact fun data holds => absurd holds (hbad data)

theorem Keeps.off (keeps : Keeps fl charSigned dbase s last) :
    Keeps fl charSigned dbase ⟨s.mem, none⟩ last := by
  cases last with
  | none => exact ⟨keeps.1, rfl⟩
  | some value =>
      obtain ⟨rev, pad, hlast, older, -, hok⟩ := keeps
      exact ⟨rev, pad, hlast, older, rfl, hok⟩

/-- Wherever a save is stopped, the value before it is kept or the new one. -/
theorem Keeps.stopped (sound : dbase.Sound) (keeps : Keeps fl charSigned dbase s last)
    (hrev : s.rev = some rev) (hsavable : Savable fl charSigned dbase ram location)
    (hstop : (nkDbaseSave fl charSigned stack (dbase.withBuf buf) rev ram location).Stops
      dbase.Torn nor s.mem mem') :
    ∃ last', (last' = last ∨ last' = some (ram, location)) ∧
      Keeps fl charSigned dbase ⟨mem', none⟩ last' := by
  rcases nkDbaseSave_stops (sound.withBuf buf) (hsavable.fits _) hstop with rfl | hbegun | hrun
  · exact ⟨last, Or.inl rfl, keeps.off⟩
  · exact ⟨last, Or.inl rfl, keeps.begun sound hrev hbegun⟩
  · exact ⟨some (ram, location), Or.inr rfl, keeps.saved sound hrev hsavable hrun rfl⟩

/-- A load finds the value that is kept, and the revision of the next save. -/
theorem Keeps.load (sound : dbase.Sound) (hwf : WellFormed dbase.ty)
    (hclosed : dbase.ty.closed = true) (hfuel : ∀ one, (dbase.bank one).areaSize ≤ fuel)
    (keeps : Keeps fl charSigned dbase s last) (varFile : NkChecked) (buf : List UInt8)
    (before : Memory) (location : Nat) :
    ∃ rtn rev after, nkDbaseLoad fl fuel s.mem.reader varFile dbase buf (s.rev.getD 0) before
        location = some (rtn, rev, after) ∧
      (register dbase.ty).step last (.load location before after) last ∧
      Keeps fl charSigned dbase ⟨s.mem, some rev⟩ last := by
  cases last with
  | none =>
      have hnone := loadBank_none sound keeps.1 varFile buf
      refine ⟨-1, s.rev.getD 0, before, ?_, ⟨rfl, rfl⟩, keeps.1, keeps.2⟩
      unfold nkDbaseLoad
      rw [← Prod.mk.eta (p := loadBank s.mem.reader varFile dbase buf), hnone]
  | some value =>
      obtain ⟨rev, pad, hlast, older, hcurrent, hok⟩ := keeps
      obtain ⟨after, hload, hrestored, hsame⟩ := nkDbaseLoad_image sound hwf hok (Or.inl hclosed)
        hlast older hfuel varFile buf (s.rev.getD 0) before location
      exact ⟨_, rev + 1, after, hload, ⟨rfl, hrestored, hsame⟩, rev, pad, hlast, older, rfl, hok⟩

/-- The program does what the register allows. -/
theorem station_simulates (sound : dbase.Sound) (hwf : WellFormed dbase.ty)
    (hclosed : dbase.ty.closed = true) (hfuel : ∀ one, (dbase.bank one).areaSize ≤ fuel) :
    System.Simulates (station fl charSigned dbase fuel) (register dbase.ty)
      (Keeps fl charSigned dbase) := by
  constructor
  · rintro s ⟨hoff, hbad⟩
    exact ⟨none, rfl, hbad, by rw [hoff]; rfl⟩
  · intro s e s' last keeps hstep
    cases e with
    | load location before after =>
        obtain ⟨varFile, buf, rtn, rev, hload, rfl⟩ := hstep
        obtain ⟨rtn', rev', after', hload', hregister, hkeeps⟩ :=
          keeps.load sound hwf hclosed hfuel varFile buf before location
        rw [hload, Option.some.injEq, Prod.mk.injEq, Prod.mk.injEq] at hload'
        obtain ⟨-, rfl, rfl⟩ := hload'
        exact ⟨last, hregister, hkeeps⟩
    | save ram location =>
        obtain ⟨hsavable, stack, buf, rev, rtn, rev', mem', hrev, hrun, rfl⟩ := hstep
        obtain ⟨pad, mem₁, hrun₁, -⟩ :=
          nkDbaseSave_nor stack buf sound hsavable rev s.mem
        obtain ⟨⟨rfl, rfl⟩, rfl⟩ : (rtn = 0 ∧ rev' = rev + 1) ∧ mem' = mem₁ := by
          simpa only [hrun, Option.some.injEq, Prod.mk.injEq] using hrun₁
        exact ⟨some (ram, location), rfl, keeps.saved sound hrev hsavable hrun rfl⟩
    | cutSave ram location =>
        obtain ⟨hsavable, stack, buf, rev, mem', hrev, hstop, rfl⟩ := hstep
        exact keeps.stopped sound hrev hsavable hstop
    | off =>
        obtain rfl : s' = ⟨s.mem, none⟩ := hstep
        exact ⟨last, rfl, keeps.off⟩

/-- In every run, with power lost at any time and in any call of a save: what is loaded is
what was saved last, where a save that was cut may or may not count; every load returns,
and every save succeeds. -/
theorem station_atomic (sound : dbase.Sound) (hwf : WellFormed dbase.ty)
    (hclosed : dbase.ty.closed = true) (hfuel : ∀ one, (dbase.bank one).areaSize ≤ fuel)
    {events : List DbaseEvent}
    (hrun : (station fl charSigned dbase fuel).Run events s) :
    (∃ last, (register dbase.ty).Run events last) ∧
      (∀ varFile buf before location, ∃ rtn rev after,
        nkDbaseLoad fl fuel s.mem.reader varFile dbase buf (s.rev.getD 0) before location =
          some (rtn, rev, after)) ∧
      ∀ stack buf rev ram location, s.rev = some rev → Savable fl charSigned dbase ram location →
        ∃ mem', (nkDbaseSave fl charSigned stack (dbase.withBuf buf) rev ram location).run nor
          s.mem = some ((0, rev + 1), mem') := by
  obtain ⟨last, hregister, keeps⟩ :=
    (station_simulates sound hwf hclosed hfuel).run hrun
  refine ⟨⟨last, hregister⟩, fun varFile buf before location => ?_,
    fun stack buf rev ram location _ h => ?_⟩
  · obtain ⟨rtn, rev, after, hload, -⟩ :=
      keeps.load sound hwf hclosed hfuel varFile buf before location
    exact ⟨rtn, rev, after, hload⟩
  · obtain ⟨-, mem', hsave, -⟩ := nkDbaseSave_nor stack buf sound h rev s.mem
    exact ⟨mem', hsave⟩

/-- `"hi"` is saved to an erased flash memory, and power is lost as `"yo"` is saved. -/
theorem station_atomic_piece :
    ∃ rtn rev after s,
      (station .absent true pieceDbase 64).Run
        [.load 100 (fun _ => 0) after, .save (fun a => [104, 105].getD a 0) 0,
          .cutSave (fun a => [121, 111].getD a 0) 0] s ∧
      (∃ last, (register pieceDbase.ty).Run
        [.load 100 (fun _ => 0) after, .save (fun a => [104, 105].getD a 0) 0,
          .cutSave (fun a => [121, 111].getD a 0) 0] last) ∧
      ∃ after', nkDbaseLoad .absent 64 s.mem.reader ⟨pieceDbase.bank0, 0, 0⟩ pieceDbase [] 0
        (fun _ => 0) 100 = some (rtn, rev, after') := by
  let run := (station .absent true pieceDbase 64).Run
  have hatomic := fun events s (hrun : run events s) =>
    station_atomic pieceDbase_sound pieceDbase_wellFormed rfl (by decide) hrun
  have hbad : ∀ one data, ¬ Holds (fun _ => 0xFF) (pieceDbase.bank one) data := fun one data =>
    not_holds_erased (pieceDbase_sound.sectored one).inMemory (fun _ _ _ => rfl) data
  have hok : ∀ text ∈ [[104, 105], [121, 111]],
      ValueOk (fun a => text.getD a 0) pieceDbase.ty 0 := by
    simp only [pieceDbase, ValueOk]
    decide
  have hfits : ∀ text ∈ [[104, 105], [121, 111]], ∀ one,
      headerSize + imageSize (pieceDbase.bank one)
        (nkDbaseSerialize .absent true (fun a => text.getD a 0) pieceDbase.ty 0) ≤
      (pieceDbase.bank one).areaSize := by
    decide +kernel
  have hblank : run [] ⟨fun _ => 0xFF, none⟩ := .start ⟨rfl, hbad⟩
  obtain ⟨rtn, rev, after, hload⟩ :=
    (hatomic _ _ hblank).2.1 ⟨pieceDbase.bank0, 0, 0⟩ [] (fun _ => 0) 100
  have hloaded : run [.load 100 (fun _ => 0) after] ⟨fun _ => 0xFF, some rev⟩ :=
    .next hblank ⟨_, _, rtn, rev, hload, rfl⟩
  have hhi : Savable .absent true pieceDbase (fun a => [104, 105].getD a 0) 0 :=
    ⟨hok _ (by decide), hfits _ (by decide)⟩
  have hyo : Savable .absent true pieceDbase (fun a => [121, 111].getD a 0) 0 :=
    ⟨hok _ (by decide), hfits _ (by decide)⟩
  obtain ⟨mem, hsave⟩ := (hatomic _ _ hloaded).2.2 (fun _ => 0) (fun _ => 0) rev
    (fun a => [104, 105].getD a 0) 0 rfl hhi
  have hsaved : run [.load 100 (fun _ => 0) after, .save (fun a => [104, 105].getD a 0) 0]
      ⟨mem, some (rev + 1)⟩ :=
    .next hloaded ⟨hhi, _, _, rev, 0, rev + 1, mem, rfl, hsave, rfl⟩
  have hstop : (nkDbaseSave .absent true (fun _ => 0) (pieceDbase.withBuf fun _ => 0) (rev + 1)
      (fun a => [121, 111].getD a 0) 0).Stops pieceDbase.Torn nor mem mem := by
    refine Prog.stops_bind.mpr (Or.inl ?_)
    unfold nkCheckedWriteOpen
    dsimp only
    rw [if_pos ((pieceDbase_sound.withBuf fun _ => 0).sectored _).has_erase]
    refine Prog.stops_bind.mpr (Or.inl (Or.inl fun one => ?_))
    exact ⟨fun _ _ => rfl, fun _ => Or.inl rfl⟩
  have hcut : run [.load 100 (fun _ => 0) after, .save (fun a => [104, 105].getD a 0) 0,
      .cutSave (fun a => [121, 111].getD a 0) 0] ⟨mem, none⟩ :=
    .next hsaved ⟨hyo, _, _, rev + 1, mem, rfl, hstop, rfl⟩
  obtain ⟨rtn', rev', after', hload'⟩ :=
    (hatomic _ _ hcut).2.1 ⟨pieceDbase.bank0, 0, 0⟩ [] (fun _ => 0) 100
  exact ⟨rtn', rev', after, ⟨mem, none⟩, hcut, (hatomic _ _ hcut).1, after', hload'⟩

end

end LibnklabsPico.Dbase
