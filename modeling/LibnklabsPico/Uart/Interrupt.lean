/-
  Uart/Interrupt.lean --- whether the receive interrupt of the UART finishes.

  `rxPass` is one pass of the loop of `rx_chars` over the hardware FIFO and the
  ring, so that a loop that does not end is a sequence of passes that never
  empties the FIFO.  `rxChars_iff_passes` ties the passes to `rxChars`.
-/
import LibnklabsPico.Uart.Console

set_option autoImplicit false

namespace LibnklabsPico.Uart

open LibnklabsPico.Foundation LibnklabsPico.Sched

variable {Func Data : Type} {k : Nat}

/-- One pass of `while (uart_is_readable(UART_ID))` in `rx_chars`: a full buffer
leaves the character in the FIFO.  With the FIFO empty the loop has ended. -/
def rxPass (size : Nat) :
    List UInt8 × Receiver Func Data → List UInt8 × Receiver Func Data
  | ([], s) => ([], s)
  | (c :: fifo, s) =>
      if wrap 32 ((s.rxBufWr : Int) - s.rxBufRd) ≠ size then (fifo, s.store size c)
      else (c :: fifo, s)

/-- The loop ends with the FIFO empty; the characters that fit are in the ring
behind those that were there, and the others are dropped. -/
def RxFinishes (k : Nat) (fifo : List UInt8) (s : Receiver Func Data) : Prop :=
  ∃ (passes : Nat) (buf : Nat → UInt8) (wr : Nat),
    (rxPass (2 ^ k))^[passes] (fifo, s) = ([], { s with rxBuf := buf, rxBufWr := wr }) ∧
    Receiver.ring k { s with rxBuf := buf, rxBufWr := wr } =
      s.ring k ++ fifo.take (2 ^ k - (s.ring k).length)

/-! ## The loop and its passes -/

/-- A pass over a full buffer changes nothing, so no later pass does. -/
theorem rxPass_stuck {size : Nat} {c : UInt8} {fifo : List UInt8} {s : Receiver Func Data}
    (hfull : wrap 32 ((s.rxBufWr : Int) - s.rxBufRd) = size) (passes : Nat) :
    (rxPass size)^[passes] (c :: fifo, s) = (c :: fifo, s) := by
  apply Function.iterate_fixed
  rw [rxPass, if_neg (not_not.mpr hfull)]

/-- The loop leads from one state to another exactly when some number of passes
does. -/
theorem rxChars_iff_passes (size : Nat) (fifo : List UInt8) (s s' : Receiver Func Data) :
    rxChars size fifo s = some s' ↔
      ∃ passes, (rxPass size)^[passes] (fifo, s) = ([], s') := by
  induction fifo generalizing s with
  | nil =>
      have hended : ∀ passes, (rxPass size)^[passes] ([], s) = ([], s) :=
        fun passes => Function.iterate_fixed rfl passes
      simp [rxChars, hended]
  | cons c fifo ih =>
      by_cases hroom : wrap 32 ((s.rxBufWr : Int) - s.rxBufRd) ≠ size
      · have hpass : rxPass size (c :: fifo, s) = (fifo, s.store size c) := by
          rw [rxPass, if_pos hroom]
        rw [rxChars, if_pos hroom, ih]
        constructor
        · rintro ⟨passes, hpasses⟩
          refine ⟨passes + 1, ?_⟩
          rw [Function.iterate_succ_apply, hpass, hpasses]
        · rintro ⟨passes, hpasses⟩
          cases passes with
          | zero => exact absurd (congrArg Prod.fst hpasses) (List.cons_ne_nil c fifo)
          | succ passes =>
              rw [Function.iterate_succ_apply, hpass] at hpasses
              exact ⟨passes, hpasses⟩
      · rw [rxChars, if_neg hroom]
        constructor
        · intro hnone
          exact absurd hnone (by simp)
        · rintro ⟨passes, hpasses⟩
          rw [rxPass_stuck (not_not.mp hroom)] at hpasses
          exact absurd (congrArg Prod.fst hpasses) (List.cons_ne_nil c fifo)

/-! ## When the interrupt finishes -/

/-- Characters that do not fit keep the loop from ending. -/
theorem rxChars_overrun (hk : k < 32) (fifo : List UInt8) {s : Receiver Func Data}
    (hwr : s.rxBufWr < 2 ^ 32) (hlevel : (s.ring k).length ≤ 2 ^ k)
    (hover : 2 ^ k < (s.ring k).length + fifo.length) : rxChars (2 ^ k) fifo s = none := by
  induction fifo generalizing s with
  | nil =>
      rw [List.length_nil] at hover
      omega
  | cons c fifo ih =>
      rw [rxChars]
      by_cases hroom : wrap 32 ((s.rxBufWr : Int) - s.rxBufRd) ≠ 2 ^ k
      · have hless : (s.ring k).length < 2 ^ k := by
          apply Nat.lt_of_le_of_ne hlevel
          rwa [Receiver.length_ring]
        have hlength : ((s.store (2 ^ k) c).ring k).length = (s.ring k).length + 1 := by
          rw [Receiver.ring_store hk hwr hless, List.length_append, List.length_singleton]
        rw [if_pos hroom]
        apply ih (u32_lt _)
        · omega
        · rw [List.length_cons] at hover
          omega
      · rw [if_neg hroom]

/-- Characters that fit are all taken. -/
theorem rxFinishes_of_fit (hk : k < 32) (fifo : List UInt8) {s : Receiver Func Data}
    (hwr : s.rxBufWr < 2 ^ 32) (hfit : (s.ring k).length + fifo.length ≤ 2 ^ k) :
    RxFinishes k fifo s := by
  obtain ⟨buf, wr, -, hchars, hring⟩ := rxChars_spec hk fifo hwr hfit
  obtain ⟨passes, hpasses⟩ := (rxChars_iff_passes _ _ _ _).mp hchars
  refine ⟨passes, buf, wr, hpasses, ?_⟩
  rw [hring, List.take_of_length_le (by omega)]

theorem fit_of_rxFinishes (hk : k < 32) (fifo : List UInt8) {s : Receiver Func Data}
    (hwr : s.rxBufWr < 2 ^ 32) (hlevel : (s.ring k).length ≤ 2 ^ k)
    (h : RxFinishes k fifo s) : (s.ring k).length + fifo.length ≤ 2 ^ k := by
  obtain ⟨passes, buf, wr, hpasses, -⟩ := h
  by_contra hover
  have hnone := rxChars_overrun hk fifo hwr hlevel (Nat.lt_of_not_le hover)
  rw [(rxChars_iff_passes _ _ _ _).mpr ⟨passes, hpasses⟩] at hnone
  exact absurd hnone (by simp)

/-- For every fill level and every number of waiting characters, the interrupt
finishes exactly when the waiting characters fit in the ring. -/
theorem rxFinishes_iff (hk : k < 32) (fifo : List UInt8) (s : Receiver Func Data)
    (hwr : s.rxBufWr < 2 ^ 32) (hlevel : (s.ring k).length ≤ 2 ^ k) :
    RxFinishes k fifo s ↔ (s.ring k).length + fifo.length ≤ 2 ^ k :=
  ⟨fit_of_rxFinishes hk fifo hwr hlevel, rxFinishes_of_fit hk fifo hwr⟩

/-- An empty ring of two has space for two characters, and not for three. -/
theorem rxFinishes_iff_two :
    RxFinishes 1 [97, 98] (Receiver.zeroed 0 : Receiver Nat Nat) ∧
      ¬ RxFinishes 1 [97, 98, 99] (Receiver.zeroed 0 : Receiver Nat Nat) := by
  constructor
  · exact (rxFinishes_iff (by decide) _ _ (by decide) (by decide)).mpr (by decide)
  · rw [rxFinishes_iff (by decide) _ _ (by decide) (by decide)]
    decide

/-- One character waits for a full ring of one. -/
theorem not_rxFinishes_full :
    ¬ RxFinishes 0 [98] { (Receiver.zeroed 0 : Receiver Nat Nat) with rxBufWr := 1 } := by
  intro h
  have hfit := fit_of_rxFinishes (by decide) [98] (by decide) (by decide) h
  exact absurd hfit (by decide)

end LibnklabsPico.Uart
