/-
  Flash/Matching.lean --- what makes a checked file good.

  `Matches` is what `nk_checked_read_open` asks of a header and the bytes behind it.
-/
import LibnklabsPico.Flash.CheckedFile

set_option autoImplicit false

namespace LibnklabsPico.Flash

open LibnklabsPico.Foundation

/-- There are as many bytes behind the header as it says, and they have its CRC. -/
def NkCheckedBase.Matches (file : NkCheckedBase) (mem : Memory) (header : List UInt8) : Prop :=
  headerSize + getLe32 header 0 ≤ file.areaSize ∧
    (nkCrc32beCheck (mem.read (dataBase file) (getLe32 header 0))).toNat = getLe32 header 4

/-- A flash area in memory with space for a header. -/
structure NkCheckedBase.InMemory (file : NkCheckedBase) : Prop where
  header_fits : headerSize ≤ file.areaSize
  areaSize_lt : file.areaSize < 2 ^ 32
  in_memory : file.areaBase + file.areaSize ≤ 2 ^ 32

theorem NkCheckedBase.Sectored.inMemory {file : NkCheckedBase} (area : file.Sectored) :
    file.InMemory :=
  ⟨area.header_fits, area.areaSize_lt, area.in_memory⟩

theorem getLe32_lt (bytes : List UInt8) (i : Nat) : getLe32 bytes i < 2 ^ 32 := by
  have hbyte : ∀ j, (bytes.getD j 0).toNat < 2 ^ 8 := fun j => (bytes.getD j 0).toNat_lt
  have h₀ := hbyte i
  have h₁ := hbyte (i + 1)
  have h₂ := hbyte (i + 2)
  have h₃ := hbyte (i + 3)
  unfold getLe32
  omega

/-- `nk_checked_read_open` accepts what matches, whatever the size of the buffer. -/
theorem nkCheckedReadOpen_eq_zero {file : NkCheckedBase} (area : file.InMemory) (mem : Memory)
    (varFile : NkChecked) {bufSize : Nat} (hbuf : 0 < bufSize) :
    (nkCheckedReadOpen mem.reader varFile file bufSize).1 = 0 ↔
      file.Matches mem (mem.read file.areaBase headerSize) := by
  have hin := area.in_memory
  have hlimit := wrap_sub area.header_fits area.areaSize_lt
  have hheader : mem.reader file.areaBase headerSize =
      (0, mem.read file.areaBase headerSize) := rfl
  generalize mem.read file.areaBase headerSize = header at *
  obtain ⟨size, hsize⟩ : ∃ size, getLe32 header 0 = size := ⟨_, rfl⟩
  obtain ⟨crc, hcrc⟩ : ∃ crc, getLe32 header 4 = crc := ⟨_, rfl⟩
  have hcrcLt : crc < 2 ^ 32 := hcrc ▸ getLe32_lt header 4
  unfold nkCheckedReadOpen NkCheckedBase.Matches
  simp only [hheader, ne_eq, not_true_eq_false, if_false, hsize, hcrc, hlimit]
  split
  · rename_i hover
    refine ⟨fun h => absurd (show (-1 : Int) = 0 from h) (by decide), fun h => ?_⟩
    have := h.1
    omega
  · rename_i hfits
    have hfits' : headerSize + size ≤ file.areaSize := by
      have := area.header_fits
      omega
    have hloop : nkCheckedCrc mem.reader bufSize size size (u32 (headerSize + file.areaBase)) 0 =
        (0, nkCrc32beCheck (mem.read (dataBase file) size)) := by
      rcases Nat.eq_zero_or_pos size with hzero | hpos
      · subst hzero
        rfl
      · have haddr : u32 (headerSize + file.areaBase) = dataBase file := by
          rw [Nat.add_comm, u32, Nat.mod_eq_of_lt (by omega), dataBase]
        have hspec := @nkCheckedCrc_spec mem bufSize hbuf size (dataBase file)
          (mem.read (dataBase file) size) 0 (by rw [Memory.read_length])
          (by rw [Memory.read_length, dataBase]; omega) (by rw [Memory.read_length])
        rw [Memory.read_length] at hspec
        rw [haddr, hspec]
        rfl
    rw [hloop]
    have hcompare : nkCrc32beCheck (mem.read (dataBase file) size) = UInt32.ofNat crc ↔
        (nkCrc32beCheck (mem.read (dataBase file) size)).toNat = crc := by
      rw [← UInt32.toNat_inj, UInt32.toNat_ofNat', Nat.mod_eq_of_lt hcrcLt]
    simp only [not_true_eq_false, if_false]
    split
    · rename_i hne
      exact ⟨fun h => absurd (show (-1 : Int) = 0 from h) (by decide),
        fun h => absurd (hcompare.mpr h.2) hne⟩
    · rename_i heq
      exact ⟨fun _ => ⟨hfits', hcompare.mp (not_not.mp heq)⟩, fun _ => rfl⟩

/-- The words of a header say what it is. -/
theorem nkCheckedHeader_getLe32 {header : List UInt8} (hlength : header.length = headerSize) :
    nkCheckedHeader (getLe32 header 0) (UInt32.ofNat (getLe32 header 4)) = header := by
  obtain ⟨b₀, b₁, b₂, b₃, b₄, b₅, b₆, b₇, rfl⟩ : ∃ b₀ b₁ b₂ b₃ b₄ b₅ b₆ b₇,
      header = [b₀, b₁, b₂, b₃, b₄, b₅, b₆, b₇] := by
    match header, hlength with
    | [b₀, b₁, b₂, b₃, b₄, b₅, b₆, b₇], _ => exact ⟨b₀, b₁, b₂, b₃, b₄, b₅, b₆, b₇, rfl⟩
  have hbyte : ∀ (n : Nat) (b : UInt8), n % 2 ^ 8 = b.toNat → UInt8.ofNat n = b := by
    intro n b hn
    refine UInt8.toNat_inj.mp ?_
    rw [UInt8.toNat_ofNat', hn]
  have hcrc := getLe32_lt [b₀, b₁, b₂, b₃, b₄, b₅, b₆, b₇] 4
  have hlt : ∀ b : UInt8, b.toNat < 256 := fun b => b.toNat_lt
  have h₀ := hlt b₀
  have h₁ := hlt b₁
  have h₂ := hlt b₂
  have h₃ := hlt b₃
  have h₄ := hlt b₄
  have h₅ := hlt b₅
  have h₆ := hlt b₆
  have h₇ := hlt b₇
  unfold nkCheckedHeader
  rw [UInt32.toNat_ofNat', Nat.mod_eq_of_lt hcrc]
  simp only [le32, getLe32, List.getD_cons_zero, List.getD_cons_succ, List.cons_append,
    List.nil_append, List.cons.injEq, and_true]
  refine ⟨hbyte _ _ ?_, hbyte _ _ ?_, hbyte _ _ ?_, hbyte _ _ ?_, hbyte _ _ ?_, hbyte _ _ ?_,
    hbyte _ _ ?_, hbyte _ _ ?_⟩ <;> omega

/-- A file is good exactly if the memory holds a complete one. -/
theorem NkCheckedBase.matches_iff_holds {file : NkCheckedBase} (area : file.InMemory)
    (mem : Memory) :
    file.Matches mem (mem.read file.areaBase headerSize) ↔ ∃ data, Holds mem file data := by
  constructor
  · rintro ⟨hfits, hcrc⟩
    have hlength := Memory.read_length mem file.areaBase headerSize
    have hheader := nkCheckedHeader_getLe32 hlength
    set size := getLe32 (mem.read file.areaBase headerSize) 0 with hsize
    refine ⟨mem.read (dataBase file) size, ?_, ?_, ?_⟩
    · rwa [Memory.read_length]
    · rw [Memory.read_length, ← hheader, ← hcrc, UInt32.ofNat_toNat]
    · rw [Memory.read_length]
  · rintro ⟨data, hfits, hheader, hbytes⟩
    have hlt : data.length < 2 ^ 32 := by
      have := area.areaSize_lt
      omega
    unfold NkCheckedBase.Matches
    rw [hheader, getLe32_size _ hlt, getLe32_crc, hbytes]
    exact ⟨hfits, rfl⟩

/-- There is no file behind an erased header. -/
theorem not_holds_erased {file : NkCheckedBase} (area : file.InMemory) {mem : Memory}
    (herased : ∀ a, file.areaBase ≤ a → a < dataBase file → mem a = 0xFF) (data : List UInt8) :
    ¬ Holds mem file data := by
  intro holds
  have hfits := holds.fits
  have hlimit := area.areaSize_lt
  have hheader : mem.read file.areaBase headerSize = [255, 255, 255, 255, 255, 255, 255, 255] :=
    @Memory.read_congr mem (fun _ => 255) _ _ herased
  have hsize := getLe32_size (nkCrc32beCheck data) (show data.length < 2 ^ 32 by omega)
  rw [← holds.header, hheader] at hsize
  have hmany : getLe32 [255, 255, 255, 255, 255, 255, 255, 255] 0 = 2 ^ 32 - 1 := rfl
  simp only [headerSize] at hfits
  omega

end LibnklabsPico.Flash
