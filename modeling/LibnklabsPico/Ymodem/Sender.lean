/-
  Ymodem/Sender.lean --- the YMODEM sender of `libnklabs/src/nkymodem.c`.

  `nk_ysend_file` prepares the header packet, `nk_ysend_evt` handles one received
  character.  Packets have a CRC (`NK_YM_YMODEM_SEND` is defined).  What is sent is a
  list of events, a whole packet or a single character each, with the number of
  acknowledgements taken so far.  The debug log and the messages on the console are
  left out.
-/
import LibnklabsPico.File.Nkinfile
import LibnklabsPico.Foundation.Memory
import LibnklabsPico.Text.Snprintf
import LibnklabsPico.Ymodem.Nkymodem

set_option autoImplicit false

namespace LibnklabsPico.Ymodem

open LibnklabsPico.Foundation
open LibnklabsPico.Flash
open LibnklabsPico.File
open LibnklabsPico.Text

/-- The return status of `nk_ysend_evt`. -/
inductive SendStatus where
  | more
  | done
  | cancel
  deriving DecidableEq

/-- What is sent. -/
inductive Sent where
  /-- `ymodem_send_block`: one `nk_putc` for each character -/
  | block (packet : List UInt8)
  /-- `nk_putc(NK_YM_EOT)` -/
  | eot
  deriving DecidableEq

/-- The static variables of the sender, with the file it sends. -/
structure YmodemSend (w : Nat) where
  packetBuf : Memory
  eot : Bool
  fin : Bool
  seq : UInt8
  hdr : Bool
  blockSize : Nat
  file : Nkinfile w

variable {w : Nat}

/-- `ymodem_setup_header` -/
def ymodemSetupHeader (s : YmodemSend w) : YmodemSend w :=
  let packetBuf := s.packetBuf.store 0 [nkYmSoh, s.seq, ~~~s.seq]
  let crc := nkCrc16beCheck (packetBuf.read 3 128)
  { s with
    packetBuf := packetBuf.store 131 [(crc >>> 8).toUInt8, crc.toUInt8]
    blockSize := 133 }

/-- `ymodem_prepare_fin` -/
def ymodemPrepareFin (s : YmodemSend w) : YmodemSend w :=
  ymodemSetupHeader
    { s with packetBuf := s.packetBuf.store 3 (List.replicate 128 0), seq := 0 }

/-- Load next block, from character `x` on; the first argument is what is left of it. -/
def loadBlock : Nat → Nat → YmodemSend w → Nat × YmodemSend w
  | 0, x, s => (x, s)
  | left + 1, x, s =>
      let (c, file) := nkFgetc s.file
      let s := { s with file := file }
      if c = -1 then (x, s)
      else
        loadBlock left (x + 1)
          { s with packetBuf := s.packetBuf.store (3 + x) [UInt8.ofNat c.toNat] }

/-- `ymodem_prepare_next` -/
def ymodemPrepareNext (s : YmodemSend w) : Bool × YmodemSend w :=
  let (x, s) := loadBlock 128 0 s
  -- Nothing more to send
  if x = 0 then (false, s)
  else
    (true, ymodemSetupHeader
      { s with packetBuf := s.packetBuf.store (3 + x) (List.replicate (128 - x) 0) })

/-- `ymodem_send_block` -/
def ymodemSendBlock (s : YmodemSend w) : List Sent := [.block (s.packetBuf.read 0 s.blockSize)]

/-- `nk_ysend_evt`: send a file event. -/
def nkYsendEvt (s : YmodemSend w) (c : UInt8) : SendStatus × List Sent × YmodemSend w :=
  if c = nkYmReq ∨ c = nkYmNak then
    -- Retransmit
    (.more, if s.eot then [.eot] else ymodemSendBlock s, s)
  else if c = nkYmAck then
    if s.eot then
      -- We don't send it here, other end is going to send C after the ACK
      (.more, [], { ymodemPrepareFin { s with eot := false } with fin := true, hdr := true })
    else if s.fin then (.done, [], s)
    else
      -- Transmit next
      let (next, s) := ymodemPrepareNext { s with seq := s.seq + 1 }
      if next then
        if s.hdr then (.more, [], { s with hdr := false }) else (.more, ymodemSendBlock s, s)
      else
        -- Send EOT, we're done
        let s := { s with eot := true }
        if s.hdr then (.more, [], { s with hdr := false }) else (.more, [.eot], s)
  else if c = nkYmCan then (.cancel, [], s)
  -- Junk
  else (.more, [], s)

/-- `nk_ysend_file`: the header packet has the name of the file and its size. -/
def nkYsendFile (fl : Floats) (packetBuffer : Memory) (file : Nkinfile w) (fileName : List UInt8)
    (fileSize : Nat) : YmodemSend w :=
  let packetBuf := packetBuffer.store 3 (List.replicate 128 0)
  let (_, text) := nkSnprintf fl (fun a => packetBuf (3 + a)) 125 (ascii "%s%c%lu")
    [.str fileName, .int 0, .int fileSize]
  ymodemSetupHeader
    { packetBuf := fun a => if a < 3 then packetBuf a else text (a - 3)
      eot := false, fin := false, seq := 0, hdr := true, blockSize := 0, file := file }

/-- `ymodem_send_task` for the characters received: what is sent, with the number of
acknowledgements taken. -/
def ymodemSendTask : List UInt8 → Nat → YmodemSend w → List (Nat × Sent)
  | [], _, _ => []
  | c :: chars, acks, s =>
      let acks := if c = nkYmAck then acks + 1 else acks
      let (status, sent, s) := nkYsendEvt s c
      sent.map (fun event => (acks, event)) ++
        if status = .more then ymodemSendTask chars acks s else []

end LibnklabsPico.Ymodem
