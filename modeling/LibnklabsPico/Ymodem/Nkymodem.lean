/-
  Ymodem/Nkymodem.lean --- the YMODEM receiver of `libnklabs/src/nkymodem.c`.

  `ymodem_rcv` handles one packet, `ymodem_recv_task` collects received
  characters into packets.  Every function returns what it does in order, as a
  list of events: characters sent, calls of the receive file handler, stores into
  the packet buffer and calls of `ymodem_rcv`.  Packets are checked by CRC
  (`NK_YM_NOCRC` is not defined), and `allowLong` says whether
  `NK_YM_ALLOWLONG` is defined.  The debugging counters, the debug log and the
  messages printed at the end of a transfer are left out.
-/
import LibnklabsPico.Flash.Nkcrclib
import Mathlib.Algebra.Group.Int.Defs

set_option autoImplicit false

namespace LibnklabsPico.Ymodem

open LibnklabsPico.Flash

def nkYmSoh : UInt8 := 0x01
def nkYmStx : UInt8 := 0x02
def nkYmEot : UInt8 := 0x04
def nkYmAck : UInt8 := 0x06
def nkYmNak : UInt8 := 0x15
def nkYmCan : UInt8 := 0x18

/-- `NK_YM_REQ`: the character `C`. -/
def nkYmReq : UInt8 := 0x43

/-- `NK_YM_SHORT_PACKET_LEN`: with SOH, sequence number and CRC. -/
def nkYmShortPacketLen : Nat := 133

/-- `NK_YM_LONG_PACKET_LEN`: with STX, sequence number and CRC. -/
def nkYmLongPacketLen : Nat := 1029

/-- `NK_YM_BUFFER_SIZE` -/
def nkYmBufferSize (allowLong : Bool) : Nat :=
  if allowLong then nkYmLongPacketLen else nkYmShortPacketLen

/-- `NK_YM_TIMEOUT` -/
def nkYmTimeout : Nat := 3

/-- The return status of `ymodem_rcv`. -/
inductive RecvStatus where
  | done
  | remoteCancel
  | openCancel
  | syncCancel
  | more
  | purge
  deriving DecidableEq, Repr

/-- What the receiver does and what happens to it, in order. -/
inductive Event where
  /-- `nk_yrecv` starts a transfer -/
  | start
  /-- the timeout task runs -/
  | timeout
  /-- `nk_getc` returned a character -/
  | received (c : UInt8)
  /-- `packet_buffer[index] = c` -/
  | store (index : Nat) (c : UInt8)
  /-- `ymodem_rcv` is called for these characters of the buffer -/
  | rcv (packet : List UInt8)
  /-- `nk_putc` -/
  | putc (c : UInt8)
  /-- the memory at the name passed to `open`, and what `open` returns -/
  | openFile (name : List UInt8) (rtn : Int)
  | write (data : List UInt8)
  | close
  | cancel
  | allDone
  deriving DecidableEq, Repr

/-- `struct nk_yrecv_struct`: what the receiver reads of it.  `open` returns an
`int`; the effects of the other functions are their events. -/
structure NkYrecvStruct where
  packetBuffer : List UInt8
  xname : List UInt8
  openFile : List UInt8 → Int

/-! ## Packets -/

/-- The static variables of `ymodem_rcv`. -/
structure YmodemRecv where
  opened : Bool
  /-- set if we got first EOT -/
  gotEot : Bool
  /-- set if we are purging -/
  purge : Bool
  first : Bool
  can : Bool
  ymodemTo : Nat
  /-- set for Xmodem mode: anonymous file detected -/
  xmodem : Bool
  /-- sequence number of previous packet -/
  oldSeq : UInt8
  /-- next expected sequence number -/
  seq : UInt8
  /-- exact size of file or `0xffffffff` -/
  fileSize : Nat
  deriving DecidableEq

/-- The static variables at power up. -/
def YmodemRecv.zeroed : YmodemRecv :=
  { opened := false, gotEot := false, purge := false, first := false, can := false, ymodemTo := 0
    xmodem := false, oldSeq := 0, seq := 0, fileSize := 0 }

/-- `isspace` -/
def isSpace (c : UInt8) : Bool := c == 32 || (9 ≤ c && c ≤ 13)

/-- `isdigit` -/
def isDigit (c : UInt8) : Bool := 48 ≤ c && c ≤ 57

/-- `atoi`: white space, a sign and digits; a value that does not fit is the
nearest `int`. -/
def atoi (s : List UInt8) : Int :=
  let s := s.dropWhile isSpace
  let (sign, s) : Int × List UInt8 :=
    match s with
    | 45 :: s => (-1, s)
    | 43 :: s => (1, s)
    | s => (1, s)
  let value := (s.takeWhile isDigit).foldl (fun n c => 10 * n + (c.toNat - 48)) 0
  max (-(2 ^ 31)) (min (2 ^ 31 - 1) (sign * (value : Nat)))

/-- The result of handling one packet. -/
abbrev Handled := RecvStatus × List Event × YmodemRecv

/-- `ymodem_recv_init`: prepare to receive next file. -/
def ymodemRecvInit (s : YmodemRecv) : List Event × YmodemRecv :=
  ([.putc nkYmReq],
    { s with
      opened := false, gotEot := false, purge := false, seq := 0, first := false, can := false
      ymodemTo := nkYmTimeout, xmodem := false })

/-- `ymcrc_check` -/
def ymcrcCheck (buf : List UInt8) (len : Nat) : Bool := nkCrc16beCheck (buf.take len) == 0

/-- A packet of `len` characters with the given sequence number and its
complement, and a good CRC. -/
def goodPacket (rcvbuf : List UInt8) (len : Nat) : Bool :=
  (rcvbuf.getD 1 0 ^^^ 0xff) == rcvbuf.getD 2 0 && ymcrcCheck (rcvbuf.drop 3) (len - 3)

/-- A packet received before a file is open: its length is that of a short or of
a long packet, but it is read as a short one. -/
def firstPacket (rcvbuf : List UInt8) (len : Nat) (seq : UInt8) : Bool :=
  (len == nkYmShortPacketLen || len == nkYmLongPacketLen) && rcvbuf.getD 0 0 == nkYmSoh &&
    rcvbuf.getD 1 0 == seq && goodPacket rcvbuf nkYmShortPacketLen

/-- Write at most the rest of the file from a packet with `thisSize` characters. -/
def writeData (rcvbuf : List UInt8) (thisSize : Nat) (s : YmodemRecv) :
    List Event × YmodemRecv :=
  let (thisSize, fileSize) :=
    if thisSize > s.fileSize then (s.fileSize, 0) else (thisSize, s.fileSize - thisSize)
  (if thisSize = 0 then [] else [.write ((rcvbuf.drop 3).take thisSize)],
    { s with fileSize := fileSize })

/-- The size field behind the name of a file header packet. -/
def headerFileSize (name : List UInt8) : Nat :=
  let nameLen := (name.takeWhile (· != 0)).length
  if name.getD (nameLen + 1) 0 ≠ 0 then (atoi (name.drop (nameLen + 1)) % 2 ^ 32).toNat
  else 0xffffffff

/-- `ymodem_rcv` while it waits for a file header. -/
def rcvHeader (file : NkYrecvStruct) (rcvbuf : List UInt8) (len : Nat) (s : YmodemRecv) :
    Handled :=
  if len = 0 then
    if s.ymodemTo ≠ 0 then (.more, [], { s with ymodemTo := s.ymodemTo - 1 })
    else
      -- Timeout, retry
      let (events, s) := ymodemRecvInit s
      (.more, events, s)
  else if len = 1 ∧ rcvbuf.getD 0 0 = nkYmCan then
    -- Transmit side is canceling
    if s.can then (.remoteCancel, [], s)
    else (.more, [], { s with can := true, ymodemTo := nkYmTimeout })
  else if firstPacket rcvbuf len 0 then
    -- Ymodem file header received
    let s := { s with can := false, ymodemTo := 0 }
    let name := rcvbuf.drop 3
    if name.getD 0 0 = 0 then
      -- No more files
      (.done, [.putc nkYmAck], s)
    else
      let s := { s with fileSize := headerFileSize name }
      let rtn := file.openFile name
      if rtn = 0 then
        (.more, [.openFile name rtn, .putc nkYmAck],
          { s with oldSeq := 0, seq := 1, opened := true, first := true })
      else (.openCancel, [.openFile name rtn, .putc nkYmCan, .putc nkYmCan], s)
  else if firstPacket rcvbuf len 1 then
    -- Xmodem first packet of anonymous file received
    let s := { s with can := false, ymodemTo := 0, fileSize := 0xffffffff }
    let rtn := file.openFile file.xname
    if rtn = 0 then
      let s := { s with oldSeq := 1, seq := 2, opened := true, xmodem := true, first := false }
      let (events, s) := writeData rcvbuf 128 s
      (.more, .openFile file.xname rtn :: events ++ [.putc nkYmAck], s)
    else (.openCancel, [.openFile file.xname rtn, .putc nkYmCan, .putc nkYmCan], s)
  else
    -- We received junk
    (.purge, [], { s with can := false, purge := true, ymodemTo := 0 })

/-- A data packet: a short one starts with SOH, a long one with STX. -/
def dataPacket (rcvbuf : List UInt8) (len : Nat) : Bool :=
  (len == nkYmShortPacketLen && rcvbuf.getD 0 0 == nkYmSoh ||
      len == nkYmLongPacketLen && rcvbuf.getD 0 0 == nkYmStx) && goodPacket rcvbuf len

/-- `ymodem_rcv` while a file is open. -/
def rcvOpened (rcvbuf : List UInt8) (len : Nat) (s : YmodemRecv) : Handled :=
  if len = 0 then
    -- Timeout
    (.more, [.putc (if s.first then nkYmReq else nkYmNak)],
      { s with gotEot := false, can := false })
  else if len = 1 ∧ rcvbuf.getD 0 0 = nkYmCan then
    let s := { s with gotEot := false }
    if s.can then (.remoteCancel, [.cancel], s) else (.more, [], { s with can := true })
  else if dataPacket rcvbuf len then
    let s := { s with gotEot := false, can := false }
    if rcvbuf.getD 1 0 = s.oldSeq then
      -- Missed ACK- ignore data and resend ACK
      (.more, [.putc nkYmAck], s)
    else if rcvbuf.getD 1 0 ≠ s.seq then
      -- Out of sync
      (.syncCancel, [.putc nkYmCan, .putc nkYmCan, .cancel], s)
    else
      -- Good receive data
      let (events, s) := writeData rcvbuf (len - 5) s
      (.more, events ++ [.putc nkYmAck],
        { s with first := false, oldSeq := s.seq, seq := s.seq + 1 })
  else if len = 1 ∧ rcvbuf.getD 0 0 = nkYmEot then
    let s := { s with can := false }
    if s.xmodem then (.done, [.close, .putc nkYmAck], s)
    else if s.gotEot then
      let (events, s) := ymodemRecvInit s
      (.more, .close :: .putc nkYmAck :: events, { s with ymodemTo := 0 })
    else
      -- We want to see EOT twice
      (.more, [.putc nkYmNak], { s with gotEot := true })
  else (.purge, [], { s with gotEot := false, can := false, purge := true })

/-- `ymodem_rcv` -/
def ymodemRcv (file : NkYrecvStruct) (rcvbuf : List UInt8) (len : Nat) (s : YmodemRecv) :
    Handled :=
  if s.purge then
    -- We're purging, just ignore this data
    if len ≠ 0 then (.purge, [], s)
    else
      -- Timeout- ask for resend
      (.more, [.putc nkYmReq], { s with purge := false })
  else if !s.opened then rcvHeader file rcvbuf len s
  else rcvOpened rcvbuf len s

/-! ## Collecting packets -/

/-- The static variables of `ymodem_recv_task`. -/
structure Yrecv where
  file : NkYrecvStruct
  lastIdx : Nat
  yrecvLen : Nat
  /-- `0` first character, `1` short packet, `2` long packet, `3` purging -/
  yrecvMode : Nat
  rcv : YmodemRecv

/-- The static variables at power up; `nk_yrecv_s` is set by `nk_yrecv`. -/
def Yrecv.zeroed (file : NkYrecvStruct) : Yrecv :=
  { file := file, lastIdx := 0, yrecvLen := 0, yrecvMode := 0, rcv := .zeroed }

/-- `packet_buffer + last_idx` -/
def Yrecv.rcvbuf (s : Yrecv) : List UInt8 := s.file.packetBuffer.drop s.lastIdx

/-- `process_full_outer`: the first component is its return value. -/
def processFullOuter (s : Yrecv) : Bool × List Event × Yrecv :=
  let (sta, events, rcv) := ymodemRcv s.file s.rcvbuf s.yrecvLen s.rcv
  let events := .rcv (s.rcvbuf.take s.yrecvLen) :: events
  let s := { s with rcv := rcv, yrecvLen := 0 }
  match sta with
  | .purge => (false, events, { s with yrecvMode := 3 })
  | .more => (false, events, { s with yrecvMode := 0 })
  -- We're done
  | .done => (true, events ++ [.allDone], s)
  | .remoteCancel | .openCancel | .syncCancel => (true, events, s)

/-- `packet_buffer[last_idx + yrecv_len] = c; ++yrecv_len` -/
def Yrecv.put (s : Yrecv) (c : UInt8) : Yrecv :=
  { s with
    file := { s.file with packetBuffer := s.file.packetBuffer.set (s.lastIdx + s.yrecvLen) c }
    yrecvLen := s.yrecvLen + 1 }

/-- What a stored character means: a complete packet or not, and the next mode
and length. -/
def Yrecv.classify (allowLong : Bool) (c : UInt8) (s : Yrecv) : Bool × Yrecv :=
  if s.yrecvMode = 0 then
    -- First character
    if c = nkYmSoh then (false, { s with yrecvMode := 1 })
    else if allowLong ∧ c = nkYmStx then (false, { s with yrecvMode := 2 })
    else if c = nkYmCan ∨ c = nkYmEot then (true, s)
    else (false, { s with yrecvLen := 0 })
  else if s.yrecvMode = 1 then
    -- Short packet
    if s.yrecvLen = nkYmShortPacketLen then (true, { s with yrecvMode := 0 }) else (false, s)
  else if s.yrecvMode = 2 then
    -- Long packet
    if s.yrecvLen = nkYmLongPacketLen then (true, { s with yrecvMode := 0 }) else (false, s)
  else if s.yrecvMode = 3 then
    -- Purging
    (false, { s with yrecvLen := 0 })
  else (false, s)

/-- One pass of the loop of `ymodem_recv_task` for a received character. -/
def recvChar (allowLong : Bool) (c : UInt8) (s : Yrecv) : Bool × List Event × Yrecv :=
  let index := s.lastIdx + s.yrecvLen
  let (gotit, s) := (s.put c).classify allowLong c
  if gotit then
    -- We have a complete packet
    let (finished, events, s) := processFullOuter s
    (finished, .received c :: .store index c :: events, s)
  else (false, [.received c, .store index c], s)

/-- The loop of `ymodem_recv_task` over the characters there are to get; the rest
is left to the command line once the transfer is finished. -/
def recvChars (allowLong : Bool) : List UInt8 → Yrecv → Bool × List Event × Yrecv
  | [], s => (false, [], s)
  | c :: chars, s =>
      let (finished, events, s) := recvChar allowLong c s
      if finished then (true, events, s)
      else
        let (finished, events', s) := recvChars allowLong chars s
        (finished, events ++ events', s)

/-- `ymodem_recv_task(TIMEOUT)` -/
def recvTimeout (s : Yrecv) : Bool × List Event × Yrecv :=
  let (finished, events, s) := processFullOuter { s with yrecvLen := 0 }
  (finished, .timeout :: events, s)

/-- `nk_yrecv` -/
def nkYrecv (file : NkYrecvStruct) (s : Yrecv) : List Event × Yrecv :=
  let (events, rcv) := ymodemRecvInit s.rcv
  (.start :: events, { s with file := file, lastIdx := 0, rcv := rcv })

end LibnklabsPico.Ymodem
