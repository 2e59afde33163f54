/-
  Serial/PageLoops.lean --- the rules of the page loops of the serial drivers.

  Each loop handles the first piece of a range and goes on with the rest.  From
  what one pass does, the rules here give what the whole loop does; the address
  wraps at 32 bits, which only happens when nothing is left.
-/
import LibnklabsPico.Flash.Pages
import LibnklabsPico.Serial.SerialBus

set_option autoImplicit false

namespace LibnklabsPico.Serial

open LibnklabsPico.Foundation LibnklabsPico.Flash

variable {σ : Type} {d : SerialDevice σ} {size limit : Nat} {Ready : Bus σ → Prop}
  (mem : σ → Memory)

/-- One pass writes the first piece of the data; then the loop writes all of it,
in the pieces of a tiling. -/
theorem writeLoop_run {rule : UInt8 → UInt8 → UInt8}
    {transfers : Nat × List UInt8 → List (List UInt8)}
    (loop : Nat → Nat → List UInt8 → SerialProg Int32) (hsize : 0 < size)
    (hlimit : limit ≤ 2 ^ 32)
    (hdone : ∀ fuel address, loop (fuel + 1) address [] = pure 0)
    (hpass : ∀ (fuel address : Nat) (data : List UInt8) (s : Bus σ), Ready s →
      data.length ≠ 0 → address < limit →
      ∃ s₁, Ready s₁ ∧
        mem s₁.device = (mem s.device).combine rule address
          (data.take (pieceLen size address data.length)) ∧
        s₁.log = s.log ++ transfers (address, data.take (pieceLen size address data.length)) ∧
        (loop (fuel + 1) address data).run (serialBus d) s =
          (loop fuel (u32 (address + pieceLen size address data.length))
            (data.drop (pieceLen size address data.length))).run (serialBus d) s₁)
    {fuel address : Nat} {data : List UInt8} {s : Bus σ} (hready : Ready s)
    (hfuel : data.length < fuel)
    (hrange : data.length ≠ 0 → address + data.length ≤ limit) :
    ∃ s' blocks, Tiles size address data blocks ∧
      (loop fuel address data).run (serialBus d) s = some (0, s') ∧ Ready s' ∧
      mem s'.device = (mem s.device).combine rule address data ∧
      s'.log = s.log ++ blocks.flatMap transfers := by
  induction fuel generalizing address data s with
  | zero => exact absurd hfuel (Nat.not_lt_zero _)
  | succ fuel ih =>
      by_cases hdata : data.length = 0
      · obtain rfl := List.length_eq_zero_iff.mp hdata
        refine ⟨s, [], .nil address, ?_, hready, ?_, by simp⟩
        · rw [hdone, Prog.run_pure]
        · rw [Memory.combine_nil]
      · have hin := hrange hdata
        have hpos := pieceLen_pos address hsize hdata
        have hle := pieceLen_le size address data.length
        obtain ⟨s₁, hready₁, hmem₁, hlog₁, hrun₁⟩ :=
          hpass fuel address data s hready hdata (by omega)
        have hdrop : (data.drop (pieceLen size address data.length)).length =
            data.length - pieceLen size address data.length := List.length_drop
        have hnext : (data.drop (pieceLen size address data.length)).length ≠ 0 →
            u32 (address + pieceLen size address data.length) =
              address + pieceLen size address data.length := fun hrest =>
          u32_next (Nat.le_trans hin hlimit) (by omega)
        have hrest : (data.drop (pieceLen size address data.length)).length ≠ 0 →
            u32 (address + pieceLen size address data.length) +
              (data.drop (pieceLen size address data.length)).length ≤ limit := by
          intro hrest
          rw [hnext hrest]
          omega
        obtain ⟨s', blocks, htiles, hrun, hready', hmem, hlog⟩ :=
          ih hready₁ (by omega) hrest
        refine ⟨s', _, (htiles.readdress hnext).piece hsize hdata, hrun₁.trans hrun, hready',
          ?_, ?_⟩
        · rw [hmem, hmem₁, Memory.combine_readdress _ hnext, Memory.combine_take_drop _ _ hle]
        · rw [hlog, hlog₁, List.flatMap_cons, List.append_assoc]

/-- One pass reads the first piece of the range; then the loop reads all of it. -/
theorem readLoop_run (loop : Nat → Nat → Nat → List UInt8 → SerialProg (Int32 × List UInt8))
    (hsize : 0 < size) (hlimit : limit ≤ 2 ^ 32)
    (hdone : ∀ fuel address data, loop (fuel + 1) address 0 data = pure (0, data))
    (hpass : ∀ (fuel address count : Nat) (data : List UInt8) (s : Bus σ), Ready s →
      count ≠ 0 → address < limit →
      ∃ s₁, Ready s₁ ∧ mem s₁.device = mem s.device ∧
        (loop (fuel + 1) address count data).run (serialBus d) s =
          (loop fuel (u32 (address + pieceLen size address count))
            (count - pieceLen size address count)
            (data ++ (mem s.device).read address (pieceLen size address count))).run
            (serialBus d) s₁)
    {fuel address count : Nat} (data : List UInt8) {s : Bus σ} (hready : Ready s)
    (hfuel : count < fuel) (hrange : count ≠ 0 → address + count ≤ limit) :
    ∃ s', (loop fuel address count data).run (serialBus d) s =
        some ((0, data ++ (mem s.device).read address count), s') ∧
      Ready s' ∧ mem s'.device = mem s.device := by
  induction fuel generalizing address count data s with
  | zero => exact absurd hfuel (Nat.not_lt_zero _)
  | succ fuel ih =>
      by_cases hcount : count = 0
      · refine ⟨s, ?_, hready, rfl⟩
        rw [hcount, hdone, Prog.run_pure, Memory.read_zero, List.append_nil]
      · have hin := hrange hcount
        have hpos := pieceLen_pos address hsize hcount
        have hle := pieceLen_le size address count
        obtain ⟨s₁, hready₁, hmem₁, hrun₁⟩ :=
          hpass fuel address count data s hready hcount (by omega)
        generalize pieceLen size address count = len at hpos hle hrun₁
        have hnext : count - len ≠ 0 → u32 (address + len) = address + len := fun hrest =>
          u32_next (Nat.le_trans hin hlimit) (by omega)
        have hrest : count - len ≠ 0 → u32 (address + len) + (count - len) ≤ limit := by
          intro hrest
          rw [hnext hrest]
          omega
        obtain ⟨s', hrun, hready', hmem⟩ :=
          ih (data ++ (mem s.device).read address len) hready₁ (by omega) hrest
        refine ⟨s', ?_, hready', hmem.trans hmem₁⟩
        have hread : (mem s.device).read (u32 (address + len)) (count - len) =
            (mem s.device).read (address + len) (count - len) := by
          by_cases hzero : count - len = 0
          · rw [hzero, Memory.read_zero, Memory.read_zero]
          · rw [hnext hzero]
        rw [hrun₁, hrun, hmem₁, hread, List.append_assoc, ← Memory.read_append,
          Nat.add_sub_cancel' hle]

end LibnklabsPico.Serial
