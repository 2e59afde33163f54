/-
  Ymodem/Bursts.lean --- the checks of files and packets find every burst of errors.

  A burst that is not longer than the CRC never leaves the CRC as it was: 32 bits for
  the data of a checked file, 16 bits for the payload of a packet and its CRC.
-/
import LibnklabsPico.Flash.Matching
import LibnklabsPico.Flash.CrcDefinition
import LibnklabsPico.Ymodem.Nkymodem

set_option autoImplicit false

namespace LibnklabsPico.Flash

open LibnklabsPico.Foundation

/-! ## Blocks of memory -/

theorem nkCrc32beCheck_burst {block errors : List UInt8} (hlen : errors.length = block.length)
    (hburst : Burst 32 errors) : nkCrc32beCheck (damaged block errors) ≠ nkCrc32beCheck block := by
  intro heq
  have hbits := congrArg UInt32.toBitVec heq
  rw [nkCrc32beCheck, nkCrc32beCheck, foldl_eq_crcMsb nkCrc32beUpdate_eq,
    foldl_eq_crcMsb nkCrc32beUpdate_eq] at hbits
  exact crcMsb_burst (by decide) _ hlen hburst hbits

theorem nkCrc16beCheck_burst {block errors : List UInt8} (hlen : errors.length = block.length)
    (hburst : Burst 16 errors) : nkCrc16beCheck (damaged block errors) ≠ nkCrc16beCheck block := by
  intro heq
  have hbits := congrArg UInt16.toBitVec heq
  rw [nkCrc16beCheck, nkCrc16beCheck, foldl_eq_crcMsb nkCrc16beUpdate_eq,
    foldl_eq_crcMsb nkCrc16beUpdate_eq] at hbits
  exact crcMsb_burst (by decide) _ hlen hburst hbits

/-! ## Checked files -/

/-- The size is taken from the header, also of a file that is not good. -/
theorem nkCheckedReadOpen_size (mem : Memory) (varFile : NkChecked) (file : NkCheckedBase)
    (bufSize : Nat) :
    (nkCheckedReadOpen mem.reader varFile file bufSize).2.size =
      getLe32 (mem.read file.areaBase headerSize) 0 := by
  have hheader : mem.reader file.areaBase headerSize =
      (0, mem.read file.areaBase headerSize) := rfl
  unfold nkCheckedReadOpen
  simp only [hheader, ne_eq, not_true_eq_false, if_false]
  split_ifs <;> rfl

/-- A flash memory with errors in the data of a file. -/
def damagedData (file : NkCheckedBase) (mem : Memory) (errors : List UInt8) : Memory :=
  mem.store (dataBase file) (damaged (mem.read (dataBase file) errors.length) errors)

theorem damagedData_header (file : NkCheckedBase) (mem : Memory) (errors : List UInt8) :
    (damagedData file mem errors).read file.areaBase headerSize =
      mem.read file.areaBase headerSize :=
  Memory.read_congr fun _ _ hbelow => Memory.store_outside (Or.inl hbelow)

theorem damagedData_data (file : NkCheckedBase) (mem : Memory) (errors : List UInt8) :
    (damagedData file mem errors).read (dataBase file) errors.length =
      damaged (mem.read (dataBase file) errors.length) errors := by
  have hlen : (damaged (mem.read (dataBase file) errors.length) errors).length = errors.length := by
    rw [damaged_length (mem.read_length _ _).symm, Memory.read_length]
  have hread := mem.read_store (dataBase file)
    (damaged (mem.read (dataBase file) errors.length) errors)
  rwa [hlen] at hread

theorem not_matches_damagedData {file : NkCheckedBase} {mem : Memory} {errors : List UInt8}
    (hmatch : file.Matches mem (mem.read file.areaBase headerSize))
    (hlen : errors.length = getLe32 (mem.read file.areaBase headerSize) 0)
    (hburst : Burst 32 errors) :
    ¬ file.Matches (damagedData file mem errors)
      ((damagedData file mem errors).read file.areaBase headerSize) := by
  intro hdamaged
  have hcrc := hdamaged.2
  rw [damagedData_header, ← hlen, damagedData_data, ← hmatch.2, ← hlen] at hcrc
  exact nkCrc32beCheck_burst (mem.read_length _ _).symm hburst (UInt32.toNat_inj.mp hcrc)

end LibnklabsPico.Flash

namespace LibnklabsPico.Ymodem

open LibnklabsPico.Foundation
open LibnklabsPico.Flash

/-! ## Packets -/

theorem ymcrcCheck_damaged {buf errors : List UInt8} (hlen : errors.length = buf.length)
    (hvalid : ymcrcCheck buf buf.length = true) (hburst : Burst 16 errors) :
    ymcrcCheck (damaged buf errors) buf.length = false := by
  have htake : (damaged buf errors).take buf.length = damaged buf errors :=
    List.take_of_length_le (Nat.le_of_eq (damaged_length hlen))
  rw [ymcrcCheck, List.take_length, beq_iff_eq] at hvalid
  rw [ymcrcCheck, htake, beq_eq_false_iff_ne, ← hvalid]
  exact nkCrc16beCheck_burst hlen hburst

/-- A good file is rejected with a burst of at most 32 bits in its data, a good packet with
a burst of at most 16 bits in its payload and CRC. -/
theorem bursts_rejected :
    (∀ (file : NkCheckedBase) (mem : Memory) (varFile varFile' : NkChecked) (bufSize bufSize' : Nat)
        (errors : List UInt8), file.InMemory → 0 < bufSize → 0 < bufSize' →
      (nkCheckedReadOpen mem.reader varFile file bufSize).1 = 0 →
      errors.length = (nkCheckedReadOpen mem.reader varFile file bufSize).2.size →
      Burst 32 errors →
      (nkCheckedReadOpen (damagedData file mem errors).reader varFile' file bufSize').1 ≠ 0) ∧
    (∀ (rcvbuf errors : List UInt8) (len : Nat),
      len = nkYmShortPacketLen ∨ len = nkYmLongPacketLen → rcvbuf.length = len →
      ymcrcCheck (rcvbuf.drop 3) (len - 3) = true →
      errors.length = len - 3 → Burst 16 errors →
      ymcrcCheck (damaged (rcvbuf.drop 3) errors) (len - 3) = false) := by
  constructor
  · intro file mem varFile varFile' bufSize bufSize' errors area hbuf hbuf' hvalid hlen hburst
    rw [nkCheckedReadOpen_eq_zero area mem varFile hbuf] at hvalid
    rw [nkCheckedReadOpen_size] at hlen
    rw [ne_eq, nkCheckedReadOpen_eq_zero area _ varFile' hbuf']
    exact not_matches_damagedData hvalid hlen hburst
  · intro rcvbuf errors len _ hrcv hvalid hlen hburst
    have hdrop : (rcvbuf.drop 3).length = len - 3 := by rw [List.length_drop, hrcv]
    rw [← hdrop] at hvalid hlen ⊢
    exact ymcrcCheck_damaged hlen hvalid hburst

/-- One wrong bit in a file of one byte and two in a short packet of zeros. -/
theorem bursts_rejected_bits :
    (nkCheckedReadOpen
        (damagedData ⟨64, 0, 16, true, 1⟩
          (fun a => [1, 0, 0, 0, 0xb7, 0x1d, 0xc1, 0x04, 1].getD a 0) [0x10]).reader
        ⟨⟨64, 0, 16, true, 1⟩, 0, 0⟩ ⟨64, 0, 16, true, 1⟩ 8).1 ≠ 0 ∧
      ymcrcCheck (damaged ((List.replicate 133 0).drop 3) (List.replicate 129 0 ++ [0x81])) 130 =
        false := by
  refine ⟨bursts_rejected.1 ⟨64, 0, 16, true, 1⟩ _ ⟨⟨64, 0, 16, true, 1⟩, 0, 0⟩ _ 8 8 [0x10]
    ⟨by decide, by decide, by decide⟩ (by decide) (by decide) (by decide +kernel)
    (by decide +kernel)
    ⟨3, [true], 4, by decide, by decide, by decide⟩, ?_⟩
  refine bursts_rejected.2 (List.replicate 133 0) (List.replicate 129 0 ++ [0x81]) 133
    (Or.inl rfl) List.length_replicate (by decide +kernel) rfl
    ⟨8 * 129, [true, false, false, false, false, false, false, true], 0, by decide +kernel,
      by decide, by decide⟩

end LibnklabsPico.Ymodem
