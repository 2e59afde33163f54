/-
  Flash/Containment.lean --- which files stay within their flash area.

  `Within` says that a call erases or writes inside an area.  The page loop has no
  limit, so a file stays within its area exactly when all data that is written to
  it fits: `writeAll_ensures` follows the position from write to write, and
  `writePages_not_ensures` finds the call at the end of the area.
-/
import LibnklabsPico.Flash.Nkchecked
import LibnklabsPico.Flash.Nkdirect
import LibnklabsPico.Foundation.Align

set_option autoImplicit false

namespace LibnklabsPico.Flash

open LibnklabsPico.Foundation

/-- A call that erases or writes only inside an area. -/
def FlashCmd.Within (base size : Nat) : FlashCmd → Prop
  | .erase addr len => base ≤ addr ∧ addr + len ≤ base + size
  | .write addr data => base ≤ addr ∧ addr + data.length ≤ base + size

/-- Whatever the flash answers, all calls are inside the area. -/
def Contained {α : Type} (base size : Nat) (p : FlashProg α) : Prop :=
  p.Ensures (FlashCmd.Within base size) fun _ => True

/-- An area of whole sectors in memory. -/
structure Area (base size eraseSize : Nat) : Prop where
  erase_pow : ∃ k, k < 32 ∧ eraseSize = 2 ^ k
  base_dvd : eraseSize ∣ base
  size_dvd : eraseSize ∣ size
  size_lt : size < 2 ^ 32
  in_memory : base + size ≤ 2 ^ 32

namespace Area

variable {base size eraseSize : Nat}

theorem eraseSize_pos (area : Area base size eraseSize) : 0 < eraseSize := by
  obtain ⟨k, -, rfl⟩ := area.erase_pow
  exact Nat.two_pow_pos k

/-- The offset of an address in its sector. -/
theorem page_offset (area : Area base size eraseSize) (n : Nat) :
    u32 (base + n) &&& wrap 32 ((eraseSize : Int) - 1) = n % eraseSize := by
  obtain ⟨k, hk, hpow⟩ := area.erase_pow
  obtain ⟨q, hq⟩ := area.base_dvd
  have hdvd : eraseSize ∣ 2 ^ 32 := hpow ▸ Nat.pow_dvd_pow 2 (Nat.le_of_lt hk)
  rw [hpow, and_mask hk, ← hpow, u32, Nat.mod_mod_of_dvd _ hdvd, hq, Nat.mul_add_mod]

theorem pageRoom_eq (area : Area base size eraseSize) (n : Nat) :
    pageRoom eraseSize (u32 (base + n)) = eraseSize - n % eraseSize := by
  obtain ⟨k, hk, hpow⟩ := area.erase_pow
  have hmod := Nat.mod_lt n area.eraseSize_pos
  rw [pageRoom, area.page_offset]
  exact wrap_sub (Nat.le_of_lt hmod) (hpow ▸ Nat.pow_lt_pow_right (by decide) hk)

/-- A sector that begins inside the area ends inside it. -/
theorem sector_within (area : Area base size eraseSize) {n : Nat} (hn : n < size) :
    n + (eraseSize - n % eraseSize) ≤ size := by
  have hend := dvd_add_sub_mod n area.eraseSize_pos
  have hmod := Nat.mod_lt n area.eraseSize_pos
  obtain ⟨a, ha⟩ := hend
  obtain ⟨b, hb⟩ := area.size_dvd
  rw [ha, hb]
  refine Nat.mul_le_mul_left eraseSize (Nat.le_of_lt_succ ?_)
  refine Nat.lt_of_mul_lt_mul_left (a := eraseSize) ?_
  rw [← ha, Nat.mul_succ, ← hb]
  omega

/-- An address inside the area is not cut off. -/
theorem address_eq (area : Area base size eraseSize) {n : Nat} (hn : n < size) :
    u32 (base + n) = base + n :=
  Nat.mod_eq_of_lt (by have := area.in_memory; omega)

/-- No bytes at the end of the area are inside it. -/
theorem end_outside (area : Area base size eraseSize) {len : Nat} (hlen : 0 < len) :
    ¬ (base ≤ u32 (base + size) ∧ u32 (base + size) + len ≤ base + size) := by
  have hin := area.in_memory
  have hsize := area.size_lt
  unfold u32
  omega

end Area

/-! ## The page loop -/

section
variable {base size eraseSize : Nat} {hasErase : Bool}

/-- The first page of the buffer. -/
theorem page_bounds (area : Area base size eraseSize) (n : Nat) {buffer : List UInt8}
    (hne : buffer.length ≠ 0) :
    ∃ len, (if buffer.length < pageRoom eraseSize (u32 (base + n)) then buffer.length
        else pageRoom eraseSize (u32 (base + n))) = len ∧
      0 < len ∧ len ≤ buffer.length ∧ len ≤ eraseSize - n % eraseSize ∧
      (len = buffer.length ∨ len = eraseSize - n % eraseSize) := by
  have hmod := Nat.mod_lt n area.eraseSize_pos
  rw [area.pageRoom_eq]
  split
  · exact ⟨_, rfl, by omega, Nat.le_refl _, by omega, Or.inl rfl⟩
  · exact ⟨_, rfl, by omega, by omega, Nat.le_refl _, Or.inr rfl⟩

theorem u32_add_page (a b : Nat) : u32 (u32 a + b) = u32 (a + b) := by
  unfold u32
  omega

/-- Erasing the sector that begins at a position inside the area. -/
theorem eraseBlock_ensures (area : Area base size eraseSize) {n : Nat} (hn : n < size)
    {post : Int → Prop} (hpost : ∀ r, post r) :
    (eraseBlock eraseSize hasErase (u32 (base + n))).Ensures (FlashCmd.Within base size)
      post := by
  unfold eraseBlock
  split
  · rename_i hfirst
    rw [Bool.and_eq_true, area.page_offset, beq_iff_eq] at hfirst
    have hsector := area.sector_within hn
    rw [hfirst.2, Nat.sub_zero] at hsector
    refine ⟨?_, hpost⟩
    rw [area.address_eq hn]
    exact ⟨Nat.le_add_right _ _, by omega⟩
  · exact hpost 0

/-- Data that fits is written inside the area. -/
theorem writePages_ensures (area : Area base size eraseSize) {fuel n : Nat}
    {buffer : List UInt8} (hfit : n + buffer.length ≤ size) :
    Contained base size (writePages eraseSize hasErase fuel (u32 (base + n)) buffer) := by
  induction fuel generalizing n buffer with
  | zero => exact trivial
  | succ fuel ih =>
      unfold writePages
      split
      · exact trivial
      · rename_i hne
        obtain ⟨len, hlen, hpos, hle, hroom, -⟩ := page_bounds area n hne
        have hn : n < size := by omega
        have htake : (buffer.take len).length = len := List.length_take_of_le hle
        have hpage : FlashCmd.Within base size
            (.write (u32 (base + n)) (buffer.take len)) := by
          rw [area.address_eq hn]
          refine ⟨Nat.le_add_right _ _, ?_⟩
          rw [htake]
          omega
        have hrest : Contained base size (writePages eraseSize hasErase fuel
            (u32 (base + (n + len))) (buffer.drop len)) :=
          ih (by rw [List.length_drop]; omega)
        simp only [hlen, u32_add_page, Nat.add_assoc]
        unfold Contained
        rw [Prog.ensures_bind]
        refine eraseBlock_ensures area hn fun r => ?_
        split
        · exact trivial
        · rw [Prog.ensures_bind, ensures_flashWrite]
          refine ⟨hpage, fun r => ?_⟩
          split
          · exact trivial
          · exact hrest

/-- Data that does not fit makes a call outside the area, at its end. -/
theorem writePages_not_ensures (area : Area base size eraseSize) {fuel n : Nat}
    {buffer : List UInt8} (hn : n ≤ size) (hover : size < n + buffer.length)
    (hfuel : buffer.length ≤ fuel) :
    ¬ Contained base size (writePages eraseSize hasErase fuel (u32 (base + n)) buffer) := by
  intro h
  induction fuel generalizing n buffer with
  | zero => omega
  | succ fuel ih =>
      have hne : buffer.length ≠ 0 := by omega
      obtain ⟨len, hlen, hpos, hle, hroom, hcases⟩ := page_bounds area n hne
      have htake : (buffer.take len).length = len := List.length_take_of_le hle
      unfold writePages Contained at h
      simp only [if_neg hne, hlen, Prog.ensures_bind, eraseBlock, area.page_offset] at h
      by_cases hend : n = size
      · -- the sector or the page at the end of the area
        subst hend
        split at h
        · exact area.end_outside area.eraseSize_pos h.1
        · simp only [Prog.ensures_pure, ne_eq, not_true_eq_false, if_false,
            Prog.ensures_bind] at h
          refine area.end_outside hpos ?_
          rw [← htake]
          exact h.1
      · have hlt : n < size := by omega
        have hsector := area.sector_within hlt
        have hroom' : len = eraseSize - n % eraseSize := by omega
        have hrest : Contained base size (writePages eraseSize hasErase fuel
            (u32 (base + (n + len))) (buffer.drop len)) := by
          rw [← Nat.add_assoc, ← u32_add_page]
          split at h
          · exact ((ensures_flashWrite.mp (Prog.ensures_bind.mp (h.2 0))).2 0)
          · exact ((ensures_flashWrite.mp (Prog.ensures_bind.mp h)).2 0)
        refine ih (by omega) ?_ ?_ hrest
        · rw [List.length_drop]
          omega
        · rw [List.length_drop]
          omega

/-- On a memory whose calls succeed the page loop succeeds. -/
theorem writePages_nor (eraseSize : Nat) (hasErase : Bool) (fuel address : Nat)
    (buffer : List UInt8) (mem : Memory) :
    ∃ mem', (writePages eraseSize hasErase fuel address buffer).run nor mem = some (0, mem') := by
  induction fuel generalizing address buffer mem with
  | zero => exact ⟨mem, rfl⟩
  | succ fuel ih =>
      unfold writePages
      split
      · exact ⟨mem, rfl⟩
      · obtain ⟨mem₁, herase⟩ : ∃ mem₁,
            (eraseBlock eraseSize hasErase address).run nor mem = some (0, mem₁) := by
          unfold eraseBlock
          split
          · exact ⟨_, rfl⟩
          · exact ⟨mem, rfl⟩
        dsimp only
        rw [Prog.run_bind_of herase, if_neg (not_not_intro rfl), flashWrite,
          Prog.run_bind_of (Prog.run_perform _ _), if_neg (not_not_intro rfl)]
        exact ih _ _ _

end

/-! ## Any sequence of writes -/

/-- Writes to an open file, one after the other, whatever they return. -/
def writeAll {F : Type} (write : F → List UInt8 → FlashProg (Int × F)) :
    F → List (List UInt8) → FlashProg F
  | varFile, [] => pure varFile
  | varFile, buffer :: buffers => do
      let (_, varFile) ← write varFile buffer
      writeAll write varFile buffers

/-- How many bytes are written. -/
def totalLength (buffers : List (List UInt8)) : Nat := (buffers.map List.length).sum

/-- What `nk_checked_write` and `nk_direct_write` have in common: the page loop runs
from the position of the file, which then moves, whatever the result is. -/
structure Writes {F : Type} (base size eraseSize : Nat) (hasErase : Bool)
    (write : F → List UInt8 → FlashProg (Int × F)) (Open : F → Nat → Prop) : Prop where
  step : ∀ varFile n buffer, Open varFile n → ∃ varFile',
    write varFile buffer = (do
      let rtn ← writePages eraseSize hasErase buffer.length (u32 (base + n)) buffer
      return (rtn, varFile')) ∧
    (n + buffer.length ≤ size → Open varFile' (n + buffer.length))

section
variable {F : Type} {base size eraseSize : Nat} {hasErase : Bool}
  {write : F → List UInt8 → FlashProg (Int × F)} {Open : F → Nat → Prop}

/-- Data that fits is written inside the area, and the file is at its end. -/
theorem writeAll_ensures (area : Area base size eraseSize)
    (writes : Writes base size eraseSize hasErase write Open) {varFile : F} {n : Nat}
    {buffers : List (List UInt8)} (hopen : Open varFile n)
    (hfit : n + totalLength buffers ≤ size) :
    (writeAll write varFile buffers).Ensures (FlashCmd.Within base size)
      fun varFile' => Open varFile' (n + totalLength buffers) := by
  induction buffers generalizing varFile n with
  | nil => exact hopen
  | cons buffer buffers ih =>
      obtain ⟨varFile', hwrite, hopen'⟩ := writes.step varFile n buffer hopen
      rw [totalLength, List.map_cons, List.sum_cons, ← totalLength] at hfit ⊢
      have hpages : Contained base size
          (writePages eraseSize hasErase buffer.length (u32 (base + n)) buffer) :=
        writePages_ensures area (by omega)
      simp only [writeAll, hwrite, Prog.ensures_bind, Prog.ensures_pure]
      refine hpages.mono fun _ _ => ?_
      rw [← Nat.add_assoc] at hfit ⊢
      exact ih (hopen' (by omega)) hfit

/-- Data that does not fit makes a call outside the area. -/
theorem writeAll_not_ensures (area : Area base size eraseSize)
    (writes : Writes base size eraseSize hasErase write Open) {varFile : F} {n : Nat}
    {buffers : List (List UInt8)} (hopen : Open varFile n) (hn : n ≤ size)
    (hover : size < n + totalLength buffers) {post : F → Prop} :
    ¬ (writeAll write varFile buffers).Ensures (FlashCmd.Within base size) post := by
  intro h
  induction buffers generalizing varFile n with
  | nil =>
      simp only [totalLength, List.map_nil, List.sum_nil] at hover
      omega
  | cons buffer buffers ih =>
      obtain ⟨varFile', hwrite, hopen'⟩ := writes.step varFile n buffer hopen
      rw [totalLength, List.map_cons, List.sum_cons, ← totalLength] at hover
      simp only [writeAll, hwrite, Prog.ensures_bind, Prog.ensures_pure] at h
      by_cases hfit : n + buffer.length ≤ size
      · exact ih (hopen' hfit) hfit (by omega) h.of_const
      · exact writePages_not_ensures area hn (by omega) (Nat.le_refl _)
          (h.mono fun _ _ => trivial)

end

/-! ## Files -/

/-- Open a file, write to it and close it. -/
def nkCheckedSession (file : NkCheckedBase) (buffers : List (List UInt8)) : FlashProg Int := do
  let (_, varFile) ← nkCheckedWriteOpen file
  let varFile ← writeAll nkCheckedWrite varFile buffers
  nkCheckedWriteClose varFile

@[inherit_doc nkCheckedSession]
def nkDirectSession (file : NkDirectBase) (buffers : List (List UInt8)) : FlashProg Int := do
  let (_, varFile) ← nkDirectWriteOpen file
  let varFile ← writeAll nkDirectWrite varFile buffers
  nkDirectWriteClose varFile

theorem nkCheckedWrite_writes {file : NkCheckedBase}
    (area : Area file.areaBase file.areaSize file.eraseSize) :
    Writes file.areaBase file.areaSize file.eraseSize file.hasErase nkCheckedWrite
      fun varFile n => varFile.file = file ∧ n = headerSize + varFile.size := by
  refine ⟨?_⟩
  rintro varFile n buffer ⟨rfl, rfl⟩
  refine ⟨{ varFile with
    crc := buffer.foldl nkCrc32beUpdate varFile.crc
    size := u32 (varFile.size + buffer.length) }, ?_, fun hfit => ⟨rfl, ?_⟩⟩
  · rw [← Nat.add_assoc]
    rfl
  · have hsize : u32 (varFile.size + buffer.length) = varFile.size + buffer.length :=
      Nat.mod_eq_of_lt (by have := area.size_lt; omega)
    rw [hsize, Nat.add_assoc]

theorem nkDirectWrite_writes {file : NkDirectBase}
    (area : Area file.areaBase file.areaSize file.eraseSize) :
    Writes file.areaBase file.areaSize file.eraseSize file.hasErase nkDirectWrite
      fun varFile n => varFile.file = file ∧ n = varFile.size := by
  refine ⟨?_⟩
  rintro varFile n buffer ⟨rfl, rfl⟩
  refine ⟨{ varFile with
    crc := buffer.foldl nkCrc32beUpdate varFile.crc
    size := u32 (varFile.size + buffer.length) }, rfl, fun hfit => ⟨rfl, ?_⟩⟩
  exact (Nat.mod_eq_of_lt (by have := area.size_lt; omega)).symm

/-- Writing does not change where the file is. -/
theorem writeAll_file (varFile : NkChecked) (buffers : List (List UInt8)) :
    (writeAll nkCheckedWrite varFile buffers).Ensures (fun _ => True)
      fun varFile' => varFile'.file = varFile.file := by
  induction buffers generalizing varFile with
  | nil => exact rfl
  | cons buffer buffers ih =>
      simp only [writeAll, nkCheckedWrite, Prog.ensures_bind, Prog.ensures_pure]
      refine (Prog.ensures_true _).mono fun _ _ => ?_
      exact ih { varFile with
        crc := buffer.foldl nkCrc32beUpdate varFile.crc
        size := u32 (varFile.size + buffer.length) }

/-- A checked file stays within its area exactly when the header and the data fit. -/
theorem nkCheckedSession_contained (file : NkCheckedBase)
    (area : Area file.areaBase file.areaSize file.eraseSize) (buffers : List (List UInt8)) :
    Contained file.areaBase file.areaSize (nkCheckedSession file buffers) ↔
      headerSize + totalLength buffers ≤ file.areaSize := by
  have hwrites := nkCheckedWrite_writes area
  have hopen : (⟨file, 0, 0⟩ : NkChecked).file = file ∧
      headerSize = headerSize + (⟨file, 0, 0⟩ : NkChecked).size := ⟨rfl, rfl⟩
  -- the header is written inside the area when it fits
  have hclose : ∀ varFile : NkChecked, varFile.file = file →
      ((nkCheckedWriteClose varFile).Ensures (FlashCmd.Within file.areaBase file.areaSize)
        (fun _ => True) ↔ headerSize ≤ file.areaSize) := by
    rintro varFile rfl
    simp only [nkCheckedWriteClose, ensures_flashWrite, FlashCmd.Within, nkCheckedHeader_length,
      implies_true, and_true]
    omega
  constructor
  · intro h
    unfold nkCheckedSession Contained at h
    simp only [Prog.ensures_bind] at h
    have hall : (writeAll nkCheckedWrite ⟨file, 0, 0⟩ buffers).Ensures
        (FlashCmd.Within file.areaBase file.areaSize)
        fun varFile => (nkCheckedWriteClose varFile).Ensures
          (FlashCmd.Within file.areaBase file.areaSize) fun _ => True := by
      unfold nkCheckedWriteOpen at h
      split at h
      · exact h.2 0
      · exact h.2 0
    have hroom : headerSize ≤ file.areaSize :=
      ((hall.and (writeAll_file _ buffers)).mono fun varFile hboth =>
        (hclose varFile hboth.2).mp hboth.1).of_const
    by_contra hover
    exact writeAll_not_ensures area hwrites hopen hroom (Nat.lt_of_not_le hover) hall
  · intro hfit
    have hall : (writeAll nkCheckedWrite ⟨file, 0, 0⟩ buffers).Ensures
        (FlashCmd.Within file.areaBase file.areaSize)
        fun varFile => (nkCheckedWriteClose varFile).Ensures
          (FlashCmd.Within file.areaBase file.areaSize) fun _ => True :=
      (writeAll_ensures area hwrites hopen hfit).mono fun varFile hdone =>
        (hclose varFile hdone.1).mpr (by omega)
    have hsector : file.eraseSize ≤ file.areaSize :=
      Nat.le_of_dvd (by simp only [headerSize] at hfit; omega) area.size_dvd
    unfold nkCheckedSession Contained
    simp only [Prog.ensures_bind]
    unfold nkCheckedWriteOpen
    split
    · exact ⟨⟨Nat.le_refl _, by omega⟩, fun _ => hall⟩
    · refine ⟨⟨Nat.le_refl _, ?_⟩, fun _ => hall⟩
      simp only [List.length_replicate, headerSize] at hfit ⊢
      omega

/-- A direct file stays within its area exactly when the data fits. -/
theorem nkDirectSession_contained (file : NkDirectBase)
    (area : Area file.areaBase file.areaSize file.eraseSize) (buffers : List (List UInt8)) :
    Contained file.areaBase file.areaSize (nkDirectSession file buffers) ↔
      totalLength buffers ≤ file.areaSize := by
  have hwrites := nkDirectWrite_writes area
  have hopen : (⟨file, 0, 0⟩ : NkDirect).file = file ∧
      0 = (⟨file, 0, 0⟩ : NkDirect).size := ⟨rfl, rfl⟩
  unfold nkDirectSession Contained
  simp only [Prog.ensures_bind, nkDirectWriteOpen, nkDirectWriteClose, Prog.ensures_pure]
  constructor
  · intro h
    by_contra hover
    exact writeAll_not_ensures area hwrites hopen (Nat.zero_le _) (by omega) h
  · intro hfit
    exact (writeAll_ensures area hwrites hopen (by omega)).mono fun _ _ => trivial

/-- A file in flash memory, with a header or without. -/
inductive FlashFile where
  | checked (file : NkCheckedBase)
  | direct (file : NkDirectBase)

namespace FlashFile

/-- `area_base` -/
def areaBase : FlashFile → Nat
  | checked file => file.areaBase
  | direct file => file.areaBase

/-- `area_size` -/
def areaSize : FlashFile → Nat
  | checked file => file.areaSize
  | direct file => file.areaSize

/-- `erase_size` -/
def eraseSize : FlashFile → Nat
  | checked file => file.eraseSize
  | direct file => file.eraseSize

/-- The bytes in front of the data. -/
def dataOffset : FlashFile → Nat
  | checked _ => headerSize
  | direct _ => 0

/-- Open the file, write to it and close it. -/
def session : FlashFile → List (List UInt8) → FlashProg Int
  | checked file, buffers => nkCheckedSession file buffers
  | direct file, buffers => nkDirectSession file buffers

end FlashFile

/-- Whatever is written in whatever pieces and whatever the flash answers, all calls
are inside the area of the file, exactly when all that is written fits the area. -/
theorem session_contained_iff (file : FlashFile)
    (area : Area file.areaBase file.areaSize file.eraseSize) (buffers : List (List UInt8)) :
    Contained file.areaBase file.areaSize (file.session buffers) ↔
      file.dataOffset + totalLength buffers ≤ file.areaSize := by
  cases file with
  | checked file => exact nkCheckedSession_contained file area buffers
  | direct file =>
      refine (nkDirectSession_contained file area buffers).trans ?_
      simp only [FlashFile.dataOffset, FlashFile.areaSize, Nat.zero_add]

/-- An area of two sectors: a checked file that fits, and a direct one that has nine
bytes too many. -/
theorem session_contained_small :
    Contained 32 32 ((FlashFile.checked ⟨32, 32, 16, true, 1⟩).session
        [List.replicate 20 0, [1, 2, 3, 4]]) ∧
      ¬ Contained 32 32 ((FlashFile.direct ⟨32, 32, 16, true, 1⟩).session
        [List.replicate 20 0, List.replicate 21 0]) := by
  have area : Area 32 32 16 :=
    ⟨⟨4, by decide, rfl⟩, by decide, by decide, by decide, by decide⟩
  constructor
  · exact (session_contained_iff (.checked ⟨32, 32, 16, true, 1⟩) area _).mpr (by decide)
  · intro h
    exact absurd ((session_contained_iff (.direct ⟨32, 32, 16, true, 1⟩) area _).mp h) (by decide)

/-- The area for the second firmware image, and one byte more than its size: the
sector behind it, which holds the firmware flag, is erased. -/
theorem session_not_contained :
    let file : NkDirectBase := ⟨0x40000, 0x140000, 65536, true, 1⟩
    Area file.areaBase file.areaSize file.eraseSize ∧
      ¬ Contained file.areaBase file.areaSize
        ((FlashFile.direct file).session [List.replicate 0x40001 0]) := by
  intro file
  have area : Area file.areaBase file.areaSize file.eraseSize :=
    ⟨⟨16, by decide, rfl⟩, by decide, by decide, by decide, by decide⟩
  refine ⟨area, ?_⟩
  have hlength : (List.replicate 0x40001 (0 : UInt8)).length = 0x40001 := List.length_replicate
  generalize List.replicate 0x40001 (0 : UInt8) = buffer at *
  intro h
  have hfit := (nkDirectSession_contained file area [buffer]).mp h
  simp only [totalLength, List.map_cons, List.map_nil, List.sum_cons, List.sum_nil, hlength,
    file] at hfit
  omega

end LibnklabsPico.Flash
