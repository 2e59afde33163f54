/-
  Serial/CrcCommands.lean --- the functions behind the commands that print the CRC
  of a range of flash: `flash_crc` of `nkmcuflash.c`, `nk_spiflash_crc` and
  `nk_i2c_eeprom_crc`.

  The three are one loop over the pages of a range with three ways to read.  The
  loop reads from the start of a page, also where the range starts inside one, so
  it takes the CRC of the right bytes only when the first pages agree.
-/
import LibnklabsPico.Flash.CrcDefinition
import LibnklabsPico.Flash.NkarchPico
import LibnklabsPico.Serial.I2cPaging

set_option autoImplicit false

namespace LibnklabsPico.Serial

open LibnklabsPico.Foundation LibnklabsPico.Flash

/-- The loop of the three functions, for a way to read the flash; `none` stands
for an error. -/
def crcLoop {m : Type → Type} [Monad m] (stuck : m UInt32)
    (read : Nat → Nat → m (Option (List UInt8))) : Nat → Nat → Nat → UInt32 → m UInt32
  | 0, _, _, _ => stuck
  | fuel + 1, addr, len, crc =>
      if len = 0 then pure crc
      else
        -- addr & ~255U
        let thisPage := addr &&& (2 ^ 32 - 2 ^ 8)
        let thisOfst := addr &&& (2 ^ 8 - 1)
        let thisLen := 256 - thisOfst
        let thisLen := if thisLen > len then len else thisLen
        do
          match ← read thisPage thisLen with
          | none => pure crc
          | some buf =>
              crcLoop stuck read fuel (u32 (addr + thisLen)) (len - thisLen)
                (buf.foldl nkCrc32beUpdate crc)

/-- `flash_crc`.  It does not look at what `nk_mcuflash_read` returns. -/
def flashCrc (flash : Memory) (addr len : Nat) : Option UInt32 :=
  crcLoop none (fun page n => some (some (nkMcuflashRead flash page n).2)) (len + 1) addr len 0

/-- `nk_spiflash_crc` -/
def nkSpiflashCrc (info : NkSpiflashInfo) (addr len : Nat) : SerialProg UInt32 :=
  crcLoop spin
    (fun page n => do
      let (status, buf) ← nkSpiflashRead info page n
      pure (if status ≠ 0 then none else some buf))
    (len + 1) addr len 0

/-- `nk_i2c_eeprom_crc` -/
def nkI2cEepromCrc (info : NkI2cEepromInfo) (addr len : Nat) : SerialProg UInt32 :=
  crcLoop spin
    (fun page n => do
      let (status, buf) ← nkI2cEepromRead info page n
      pure (if status ≠ 0 then none else some buf))
    (len + 1) addr len 0

/-! ## The bytes that are taken -/

/-- The bytes that go into the CRC: instead of the first piece of the range the
start of its page, then the rest of the range. -/
def crcBytes (mem : Memory) (addr len : Nat) : List UInt8 :=
  mem.read (addr - addr % 2 ^ 8) (pieceLen (2 ^ 8) addr len) ++
    mem.read (addr + pieceLen (2 ^ 8) addr len) (len - pieceLen (2 ^ 8) addr len)

theorem crcBytes_zero (mem : Memory) (addr : Nat) : crcBytes mem addr 0 = [] := by
  have hnone : pieceLen (2 ^ 8) addr 0 = 0 := Nat.le_zero.mp (pieceLen_le ..)
  rw [crcBytes, hnone]
  rfl

/-- A range cut behind its first piece. -/
theorem read_piece (mem : Memory) (size addr len : Nat) :
    mem.read addr len = mem.read addr (pieceLen size addr len) ++
      mem.read (addr + pieceLen size addr len) (len - pieceLen size addr len) := by
  rw [← Memory.read_append, Nat.add_sub_cancel' (pieceLen_le ..)]

theorem crcBytes_aligned (mem : Memory) {addr : Nat} (len : Nat) (haddr : 2 ^ 8 ∣ addr) :
    crcBytes mem addr len = mem.read addr len := by
  rw [crcBytes, Nat.mod_eq_zero_of_dvd haddr, Nat.sub_zero, ← read_piece]

/-- What the loop takes behind the first piece is what it takes from there on. -/
theorem crcBytes_rest (mem : Memory) (addr len : Nat) :
    crcBytes mem addr len = mem.read (addr - addr % 2 ^ 8) (pieceLen (2 ^ 8) addr len) ++
      crcBytes mem (addr + pieceLen (2 ^ 8) addr len) (len - pieceLen (2 ^ 8) addr len) := by
  by_cases hmore : pieceLen (2 ^ 8) addr len = len
  · rw [crcBytes, hmore, Nat.sub_self, crcBytes_zero, Memory.read_zero]
  · rw [crcBytes_aligned mem _ (dvd_end_of_piece (Nat.two_pow_pos 8) hmore), crcBytes]

/-! ## The loop -/

section
variable {m : Type → Type} [Monad m] {stuck : m UInt32}
  {readPage : Nat → Nat → m (Option (List UInt8))}

/-- One pass of the loop reads as much as the first piece of the range has. -/
theorem crcLoop_pass (fuel : Nat) {addr len : Nat} (crc : UInt32) (hlen : len ≠ 0)
    (haddr : addr < 2 ^ 32) :
    crcLoop stuck readPage (fuel + 1) addr len crc =
      (do
        match ← readPage (addr - addr % 2 ^ 8) (pieceLen (2 ^ 8) addr len) with
        | none => pure crc
        | some buf =>
            crcLoop stuck readPage fuel (u32 (addr + pieceLen (2 ^ 8) addr len))
              (len - pieceLen (2 ^ 8) addr len) (buf.foldl nkCrc32beUpdate crc)) := by
  have hpage : addr &&& (2 ^ 32 - 2 ^ 8) = addr - addr % 2 ^ 8 :=
    and_high_mask (by decide) haddr
  have hofst : addr &&& (2 ^ 8 - 1) = addr % 2 ^ 8 := Nat.and_two_pow_sub_one_eq_mod addr 8
  have hpiece : (if 256 - addr % 2 ^ 8 > len then len else 256 - addr % 2 ^ 8) =
      pieceLen (2 ^ 8) addr len := by
    unfold pieceLen
    split <;> omega
  rw [crcLoop, if_neg hlen]
  simp only [hpage, hofst, hpiece]

/-- Whatever the outcome of a program is, when reading gives the bytes of a memory the
loop ends with the CRC of `crcBytes`. -/
theorem crcLoop_outcome {τ : Type} (Ready : τ → Prop) (outcome : m UInt32 → τ → Option UInt32)
    {mem : Memory} {limit : Nat} (hlimit : limit ≤ 2 ^ 32)
    (hpure : ∀ crc s, Ready s → outcome (pure crc) s = some crc)
    (hread : ∀ page n s, Ready s → page + n ≤ limit →
      ∃ s', Ready s' ∧
        ∀ f, outcome (readPage page n >>= f) s = outcome (f (some (mem.read page n))) s')
    {fuel addr len : Nat} (crc : UInt32) {s : τ} (hready : Ready s) (hfuel : len < fuel)
    (hrange : len ≠ 0 → addr + len ≤ limit) :
    outcome (crcLoop stuck readPage fuel addr len crc) s =
      some ((crcBytes mem addr len).foldl nkCrc32beUpdate crc) := by
  induction fuel generalizing addr len crc s with
  | zero => exact absurd hfuel (Nat.not_lt_zero _)
  | succ fuel ih =>
      by_cases hlen : len = 0
      · rw [crcLoop, if_pos hlen, hlen, crcBytes_zero]
        exact hpure crc s hready
      · have hin := hrange hlen
        have hpos := pieceLen_pos addr (Nat.two_pow_pos 8) hlen
        have hle := pieceLen_le (2 ^ 8) addr len
        obtain ⟨s', hready', hrun⟩ := hread (addr - addr % 2 ^ 8) (pieceLen (2 ^ 8) addr len) s
          hready (by omega)
        have hnext : len - pieceLen (2 ^ 8) addr len ≠ 0 →
            u32 (addr + pieceLen (2 ^ 8) addr len) = addr + pieceLen (2 ^ 8) addr len :=
          fun hmore => u32_next (Nat.le_trans hin hlimit) (by omega)
        rw [crcLoop_pass fuel crc hlen (by omega), hrun]
        change outcome (crcLoop stuck readPage fuel _ _ _) s' = _
        rw [ih _ hready' (by omega) (fun hmore => by rw [hnext hmore]; omega),
          crcBytes_rest mem addr len, List.foldl_append]
        by_cases hmore : len - pieceLen (2 ^ 8) addr len = 0
        · rw [hmore, crcBytes_zero, crcBytes_zero]
        · rw [hnext hmore]

end

/-! ## The three functions -/

theorem flashCrc_eq (flash : Memory) {addr len : Nat} (hrange : addr + len ≤ 2 ^ 32) :
    flashCrc flash addr len = some (nkCrc32beCheck (crcBytes flash addr len)) :=
  crcLoop_outcome (fun _ : Unit => True) (fun p _ => p) (Nat.le_refl _) (fun _ _ _ => rfl)
    (fun _ _ _ _ _ => ⟨(), trivial, fun _ => rfl⟩) 0 (s := ()) trivial (Nat.lt_succ_self _)
    fun _ => hrange

theorem nkSpiflashCrc_eq {info : NkSpiflashInfo} {chip : SpiChip} (fits : info.Fits chip)
    {s : Bus SpiMemory} (hready : SpiReady info s) {addr len : Nat}
    (hrange : addr + len ≤ 256 ^ info.addrSize) :
    ((nkSpiflashCrc info addr len).run (serialBus chip.device) s).map Prod.fst =
      some (nkCrc32beCheck (crcBytes s.device.mem addr len)) := by
  refine crcLoop_outcome (fun t => SpiReady info t ∧ t.device.mem = s.device.mem)
    (fun p t => (Prog.run (serialBus chip.device) p t).map Prod.fst) fits.range_le
    (fun _ _ _ => rfl) ?_ 0 ⟨hready, rfl⟩ (Nat.lt_succ_self _) fun _ => hrange
  rintro page n t ⟨ht, hmem⟩ hin
  obtain ⟨t', hrun, ht', hmem'⟩ := nkSpiflashRead_run fits ht hin
  refine ⟨t', ⟨ht', hmem'.trans hmem⟩, ?_⟩
  intro f
  rw [bind_assoc, Prog.run_bind_of hrun, hmem]
  rfl

theorem nkI2cEepromCrc_eq {info : NkI2cEepromInfo} {chip : I2cChip} (fits : info.Fits chip)
    {s : Bus I2cMemory} (hready : I2cReady info s) {addr len : Nat}
    (hrange : addr + len ≤ 256 ^ info.addrSize) :
    ((nkI2cEepromCrc info addr len).run (serialBus chip.device) s).map Prod.fst =
      some (nkCrc32beCheck (crcBytes s.device.mem addr len)) := by
  refine crcLoop_outcome (fun t => I2cReady info t ∧ t.device.mem = s.device.mem)
    (fun p t => (Prog.run (serialBus chip.device) p t).map Prod.fst) fits.range_le
    (fun _ _ _ => rfl) ?_ 0 ⟨hready, rfl⟩ (Nat.lt_succ_self _) fun _ => hrange
  rintro page n t ⟨ht, hmem⟩ hin
  obtain ⟨t', hrun, ht', hmem'⟩ := nkI2cEepromRead_run fits ht hin
  refine ⟨t', ⟨ht', hmem'.trans hmem⟩, ?_⟩
  intro f
  rw [bind_assoc, Prog.run_bind_of hrun, hmem]
  rfl

/-! ## When the right bytes are taken -/

/-- The first bytes of the page have the CRC of the first piece of the range. -/
def FirstPageAgrees (mem : Memory) (addr len : Nat) : Prop :=
  nkCrc32beCheck (mem.read (addr - addr % 2 ^ 8) (pieceLen (2 ^ 8) addr len)) =
    nkCrc32beCheck (mem.read addr (pieceLen (2 ^ 8) addr len))

theorem crcBytes_check_iff (mem : Memory) (addr len : Nat) :
    nkCrc32beCheck (crcBytes mem addr len) = nkCrc32beCheck (mem.read addr len) ↔
      FirstPageAgrees mem addr len := by
  rw [crcBytes, read_piece mem (2 ^ 8) addr len, nkCrc32beCheck_append, nkCrc32beCheck_append,
    crc32be_inj, FirstPageAgrees]

theorem nkCrc32beCheck_zeros (n : Nat) : nkCrc32beCheck (List.replicate n 0) = 0 := by
  have hstep : nkCrc32beUpdate 0 0 = 0 := by decide +kernel
  induction n with
  | zero => rfl
  | succ n ih =>
      rw [nkCrc32beCheck, List.replicate_succ, List.foldl_cons, hstep]
      exact ih

/-- A memory with a one in it. -/
def oneAt (place : Nat) : Memory := fun a => if a = place then 1 else 0

theorem oneAt_read_before {place addr n : Nat} (h : addr + n ≤ place) :
    (oneAt place).read addr n = List.replicate n 0 := by
  have hread : (oneAt place).read addr (List.replicate n (0 : UInt8)).length =
      List.replicate n 0 := by
    refine Memory.read_eq fun i hi => ?_
    rw [List.length_replicate] at hi
    rw [List.getElem_replicate, oneAt, if_neg (by omega)]
  rwa [List.length_replicate] at hread

theorem nkCrc32beCheck_oneAt (addr n : Nat) :
    nkCrc32beCheck ((oneAt (addr + n)).read addr (n + 1)) ≠ 0 := by
  rw [Memory.read_succ, oneAt_read_before (Nat.le_refl _), nkCrc32beCheck_append,
    nkCrc32beCheck_zeros, oneAt, if_pos rfl]
  decide +kernel

/-- The first pages agree whatever the memory holds for aligned ranges only. -/
theorem firstPageAgrees_forall_iff (addr len : Nat) :
    (∀ mem, FirstPageAgrees mem addr len) ↔ 2 ^ 8 ∣ addr ∨ len = 0 := by
  constructor
  · intro hall
    by_contra hne
    rw [not_or, Nat.dvd_iff_mod_eq_zero] at hne
    obtain ⟨hofst, hlen⟩ := hne
    obtain ⟨n, hn⟩ := Nat.exists_eq_succ_of_ne_zero
      (Nat.ne_of_gt (pieceLen_pos addr (Nat.two_pow_pos 8) hlen))
    have hagree := hall (oneAt (addr + n))
    have hmod := Nat.mod_le addr (2 ^ 8)
    rw [FirstPageAgrees, hn, oneAt_read_before (by omega), nkCrc32beCheck_zeros] at hagree
    exact nkCrc32beCheck_oneAt addr n hagree.symm
  · rintro (haligned | rfl) mem
    · rw [FirstPageAgrees, Nat.mod_eq_zero_of_dvd haligned, Nat.sub_zero]
    · have hnone : pieceLen (2 ^ 8) addr 0 = 0 := Nat.le_zero.mp (pieceLen_le ..)
      rw [FirstPageAgrees, hnone, Memory.read_zero, Memory.read_zero]

/-- The three functions return the CRC of the bytes of the range exactly when the
start of the first page agrees with the start of the range, which it does for every
content of the memory exactly when the range starts at a page or is empty. -/
theorem crcCommands_iff {spi : NkSpiflashInfo} {flash : SpiChip} (hspi : spi.Fits flash)
    {s : Bus SpiMemory} (hs : SpiReady spi s) {i2c : NkI2cEepromInfo} {eeprom : I2cChip}
    (hi2c : i2c.Fits eeprom) {t : Bus I2cMemory} (ht : I2cReady i2c t) (mem : Memory)
    (addr len : Nat) :
    (addr + len ≤ 2 ^ 32 →
      (flashCrc mem addr len = some (nkCrc32beCheck (mem.read addr len)) ↔
        FirstPageAgrees mem addr len)) ∧
    (addr + len ≤ 256 ^ spi.addrSize →
      (((nkSpiflashCrc spi addr len).run (serialBus flash.device) s).map Prod.fst =
          some (nkCrc32beCheck (s.device.mem.read addr len)) ↔
        FirstPageAgrees s.device.mem addr len)) ∧
    (addr + len ≤ 256 ^ i2c.addrSize →
      (((nkI2cEepromCrc i2c addr len).run (serialBus eeprom.device) t).map Prod.fst =
          some (nkCrc32beCheck (t.device.mem.read addr len)) ↔
        FirstPageAgrees t.device.mem addr len)) ∧
    ((∀ content, FirstPageAgrees content addr len) ↔ 2 ^ 8 ∣ addr ∨ len = 0) := by
  refine ⟨?_, ?_, ?_, firstPageAgrees_forall_iff addr len⟩
  · intro hrange
    rw [flashCrc_eq mem hrange, Option.some_inj, crcBytes_check_iff]
  · intro hrange
    rw [nkSpiflashCrc_eq hspi hs hrange, Option.some_inj, crcBytes_check_iff]
  · intro hrange
    rw [nkI2cEepromCrc_eq hi2c ht hrange, Option.some_inj, crcBytes_check_iff]

/-- A range of two bytes in the middle of a page of zeros, and one of other bytes. -/
theorem crcCommands_iff_two :
    flashCrc (fun _ => 0) 3 2 = some (nkCrc32beCheck [0, 0]) ∧
      ¬ ∀ content, FirstPageAgrees content 3 2 := by
  have hspi : (⟨4, 3, 1, []⟩ : NkSpiflashInfo).Fits
      ⟨4, 1, fun old new => old &&& new, fun _ => none, 2⟩ :=
    ⟨⟨2, by decide, rfl⟩, by decide, by decide, rfl, by decide, by decide, by decide⟩
  have hs : SpiReady ⟨4, 3, 1, []⟩ ⟨6, fun _ => 0, ⟨fun _ => 0xFF, false, 0⟩, []⟩ :=
    ⟨rfl, by decide⟩
  have hi2c : (⟨4, 3, 1⟩ : NkI2cEepromInfo).Fits ⟨4, 1, fun _ new => new, 2⟩ :=
    ⟨⟨2, by decide, rfl⟩, by decide, by decide, rfl, by decide, by decide, by decide⟩
  have ht : I2cReady ⟨4, 3, 1⟩ ⟨6, fun _ => 0, ⟨fun _ => 0, 0, 0⟩, []⟩ :=
    ⟨rfl, by decide⟩
  obtain ⟨hflash, -, -, hall⟩ := crcCommands_iff hspi hs hi2c ht (fun _ => 0) 3 2
  exact ⟨(hflash (by decide)).mpr rfl, fun hagree => absurd (hall.mp hagree) (by decide)⟩

/-- The CRC of the one byte at address 1 comes out as that of the byte at 0. -/
theorem not_crcCommands_one :
    ¬ ∀ (flash : Memory) (addr len : Nat), addr + len ≤ 2 ^ 32 →
      flashCrc flash addr len = some (nkCrc32beCheck (flash.read addr len)) := by
  intro hall
  have hone := hall (oneAt 1) 1 1 (by decide)
  exact absurd hone (by decide +kernel)

end LibnklabsPico.Serial
