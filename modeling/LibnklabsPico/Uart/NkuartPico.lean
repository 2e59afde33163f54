/-
  Uart/NkuartPico.lean --- the console UART receiver of `nkuart_pico.c`.

  The receive buffer has `size` (`NK_UART_RXBUF_SIZE`) cells and free-running
  32-bit counters.  `nk_set_uart_callback`, `nk_getc` and `nk_kbhit` are critical
  sections under `console_lock`, `on_uart_rx` is the interrupt handler.  A
  function that schedules a callback returns the call it makes of the work queue
  scheduler, together with the outcome of that call.  The transmitter and
  `tty_mode`, which it alone reads, are left out.
-/
import LibnklabsPico.Sched.Nksched

set_option autoImplicit false

namespace LibnklabsPico.Uart

open LibnklabsPico.Foundation LibnklabsPico.Sched

/-- The static variables of the receiver.  The null pointer in
`waiting_rx_task` is `none`. -/
structure Receiver (Func Data : Type) where
  rxBuf : Nat → UInt8
  rxBufRd : Nat
  rxBufWr : Nat
  waitingRxTid : Int
  waitingRxTask : Option Func
  waitingRxTaskData : Data

/-- The receiver beside the work queue it schedules callbacks on. -/
structure Console (Func Data : Type) (items : Nat) where
  uart : Receiver Func Data
  work : WorkQueue Func Data items

/-- The call of `nk_sched` made by a function, if it makes one. -/
abbrev Scheduled (Func Data : Type) := Option (Call Func Data × Outcome Func Data)

variable {Func Data : Type} {items : Nat}

/-- The static variables before the first call; `null` is the null pointer. -/
def Receiver.zeroed (null : Data) : Receiver Func Data :=
  { rxBuf := fun _ => 0, rxBufRd := 0, rxBufWr := 0, waitingRxTid := 0
    waitingRxTask := none, waitingRxTaskData := null }

/-- `nk_sched(tid, func, data, 0, "UART ISR")` at clock value `now`. -/
def callSched (now : Nat) (tid : Int) (func : Func) (data : Data)
    (s : Console Func Data items) : Option (Scheduled Func Data × Console Func Data items) := do
  let call : Call Func Data := .sched now tid func data 0
  let (outcome, work) ← step call s.work
  return (some (call, outcome), { s with work := work })

/-- `waiting_rx_task = 0` -/
def Console.clearTask (s : Console Func Data items) : Console Func Data items :=
  { s with uart := { s.uart with waitingRxTask := none } }

/-- `nk_set_uart_callback` -/
def nkSetUartCallback (now : Nat) (tid : Int) (func : Func) (data : Data)
    (s : Console Func Data items) : Option (Scheduled Func Data × Console Func Data items) :=
  if s.uart.rxBufRd ≠ s.uart.rxBufWr then do
    -- Data is available now
    let (scheduled, s) ← callSched now tid func data s
    return (scheduled, s.clearTask)
  else
    some (none, { s with uart :=
      { s.uart with
        waitingRxTid := tid, waitingRxTask := some func, waitingRxTaskData := data } })

/-- `rx_buf[rx_buf_wr++ & (sizeof(rx_buf) - 1)] = c` -/
def Receiver.store (size : Nat) (s : Receiver Func Data) (c : UInt8) : Receiver Func Data :=
  { s with
    rxBuf := Function.update s.rxBuf (s.rxBufWr &&& (size - 1)) c
    rxBufWr := u32 (s.rxBufWr + 1) }

/-- `rx_chars`, with the characters that the UART has to read until it is no
longer readable.  While the buffer is full nothing is read, the UART stays
readable and the loop does not end: `none`. -/
def rxChars (size : Nat) : List UInt8 → Receiver Func Data → Option (Receiver Func Data)
  | [], s => some s
  | c :: chars, s =>
      if wrap 32 ((s.rxBufWr : Int) - s.rxBufRd) ≠ size then rxChars size chars (s.store size c)
      else none

/-- `on_uart_rx` -/
def onUartRx (size now : Nat) (chars : List UInt8) (s : Console Func Data items) :
    Option (Scheduled Func Data × Console Func Data items) := do
  let uart ← rxChars size chars s.uart
  let s := { s with uart := uart }
  match uart.waitingRxTask with
  | some func => do
      let (scheduled, s) ← callSched now uart.waitingRxTid func uart.waitingRxTaskData s
      return (scheduled, s.clearTask)
  | none => return (none, s)

/-- `nk_getc`: `-1` when there is nothing to read. -/
def nkGetc (size : Nat) (s : Receiver Func Data) : Int × Receiver Func Data :=
  if s.rxBufRd ≠ s.rxBufWr then
    ((s.rxBuf (s.rxBufRd &&& (size - 1))).toNat, { s with rxBufRd := u32 (s.rxBufRd + 1) })
  else (-1, s)

/-- `nk_kbhit` -/
def nkKbhit (s : Receiver Func Data) : Int := if s.rxBufRd ≠ s.rxBufWr then 1 else 0

end LibnklabsPico.Uart
