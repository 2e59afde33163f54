/-
  Ymodem/Link.lean --- the sender and the receiver of `libnklabs/src/nkymodem.c` on one
  line.

  The line loses characters in both directions, and a burst of the sender may arrive
  damaged as long as the damage shows: no call of `ymodem_rcv` is for a good data packet,
  an EOT or a CAN.  The receiver's timeout comes only when nothing is on its way.  A
  burst arrives in one activation of `ymodem_recv_task`.  What both sides print on the
  console is left out, although it goes out on the same UART: `nk_yrecv` prints
  "Hit Ctrl-X twice to cancel." before it listens, and a waiting sender answers the C.
-/
import LibnklabsPico.Foundation.Handover
import LibnklabsPico.Ymodem.BlockStream
import LibnklabsPico.Ymodem.Delivery

set_option autoImplicit false

namespace LibnklabsPico.Ymodem

open LibnklabsPico.Foundation
open LibnklabsPico.File
open LibnklabsPico.Text

/-! ## What both sides do -/

/-- A call of the file handler; `open` gets the name and reads the size behind it. -/
inductive Call where
  | open (name : List UInt8) (size : Nat)
  | write (data : List UInt8)
  | close
  | cancel
  | allDone
  deriving DecidableEq, Repr

/-- The call of the file handler that an event is. -/
def Event.call : Event → Option Call
  | .openFile name _ => some (.open (name.takeWhile (· != 0)) (headerFileSize name))
  | .write data => some (.write data)
  | .close => some .close
  | .cancel => some .cancel
  | .allDone => some .allDone
  | _ => none

/-- The character that an event sends. -/
def Event.reply : Event → Option UInt8
  | .putc c => some c
  | _ => none

/-- The characters of what is sent. -/
def Sent.chars : Sent → List UInt8
  | .block packet => packet
  | .eot => [nkYmEot]

/-- A sender, a receiver and the characters on their way. -/
structure Link (w : Nat) where
  sender : YmodemSend w
  status : SendStatus
  receiver : Yrecv
  /-- the receiver's transfer is not finished -/
  active : Bool
  forward : List UInt8
  backward : List UInt8

/-- Damaged characters: `ymodem_rcv` is called for nothing that it takes for a part of the
transfer. -/
def Harmless (allowLong : Bool) (noise : List UInt8) (receiver : Yrecv) : Prop :=
  ∀ packet ∈ calls (recvChars allowLong noise receiver).2.1,
    ¬ IsData packet ∧ packet ≠ [nkYmEot] ∧ packet ≠ [nkYmCan]

variable {w : Nat}

/-- The receiver gets characters and nothing is left on their way. -/
def Link.receives (allowLong : Bool) (chars : List UInt8) (link : Link w) :
    List Event × Link w :=
  let (finished, events, receiver) := recvChars allowLong chars link.receiver
  (events, { link with
    receiver := receiver, active := !finished, forward := []
    backward := link.backward ++ events.filterMap Event.reply })

/-- One step of the two sides and the line, with the calls of the file handler. -/
inductive Link.Step (allowLong : Bool) : Link w → List Call → Link w → Prop where
  | deliver {link : Link w} (active : link.active = true) (sent : link.forward ≠ []) :
      Step allowLong link ((link.receives allowLong link.forward).1.filterMap Event.call)
        (link.receives allowLong link.forward).2
  /-- the burst is damaged or lost -/
  | damage {link : Link w} (active : link.active = true) (sent : link.forward ≠ [])
      (noise : List UInt8) (harmless : Harmless allowLong noise link.receiver) :
      Step allowLong link ((link.receives allowLong noise).1.filterMap Event.call)
        (link.receives allowLong noise).2
  | timeout {link : Link w} (active : link.active = true) (forward : link.forward = [])
      (backward : link.backward = []) :
      Step allowLong link ((recvTimeout link.receiver).2.1.filterMap Event.call)
        { link with
          receiver := (recvTimeout link.receiver).2.2
          active := !(recvTimeout link.receiver).1
          backward := (recvTimeout link.receiver).2.1.filterMap Event.reply }
  | answer {link : Link w} {c : UInt8} {rest : List UInt8} (status : link.status = .more)
      (backward : link.backward = c :: rest) :
      Step allowLong link []
        { link with
          sender := (nkYsendEvt link.sender c).2.2
          status := (nkYsendEvt link.sender c).1
          forward := link.forward ++ (nkYsendEvt link.sender c).2.1.flatMap Sent.chars
          backward := rest }
  /-- a character of the receiver is lost -/
  | lose {link : Link w} {c : UInt8} {rest : List UInt8} (backward : link.backward = c :: rest) :
      Step allowLong link [] { link with backward := rest }

end LibnklabsPico.Ymodem
