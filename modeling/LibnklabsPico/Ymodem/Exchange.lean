/-
  Ymodem/Exchange.lean --- how each side answers what the other one sends.

  A receiver that rests gets a whole packet of the sender, an EOT or damaged characters; a
  sender in one of its phases gets a request or an acknowledgement.
-/
import LibnklabsPico.Ymodem.Link

set_option autoImplicit false

namespace LibnklabsPico.Ymodem

open LibnklabsPico.Foundation
open LibnklabsPico.Flash
open LibnklabsPico.File

/-! ## Collecting a packet -/

/-- An event that neither calls the file handler nor answers the sender. -/
def Event.Quiet (event : Event) : Prop := event.call = none ∧ event.reply = none

/-- The receiver waits for the first character of a packet. -/
structure Yrecv.Resting (s : Yrecv) : Prop where
  mode : s.yrecvMode = 0
  len : s.yrecvLen = 0
  purge : s.rcv.purge = false

/-- The receiver has collected this packet. -/
structure Yrecv.Holding (s s' : Yrecv) (packet : List UInt8) : Prop where
  rcv : s'.rcv = s.rcv
  openFile : s'.file.openFile = s.file.openFile
  rcvbuf : ∃ rest, s'.rcvbuf = packet ++ rest
  len : s'.yrecvLen = packet.length

section Collecting

variable {allowLong : Bool} {s : Yrecv}

theorem filterMap_quiet {events : List Event} (quiet : ∀ event ∈ events, event.Quiet) :
    events.filterMap Event.call = [] ∧ events.filterMap Event.reply = [] := by
  constructor
  · apply List.filterMap_eq_nil_iff.mpr
    intro event hmem
    exact (quiet event hmem).1
  · apply List.filterMap_eq_nil_iff.mpr
    intro event hmem
    exact (quiet event hmem).2

theorem quiet_stored (index : Nat) (c : UInt8) :
    ∀ event ∈ [Event.received c, Event.store index c], event.Quiet := by
  intro event hmem
  simp only [List.mem_cons, List.not_mem_nil, or_false] at hmem
  rcases hmem with rfl | rfl
  · exact ⟨rfl, rfl⟩
  · exact ⟨rfl, rfl⟩

/-- What is stored is at the start of the packet buffer. -/
theorem Yrecv.rcvbuf_put (hidx : s.lastIdx = 0) {packet rest : List UInt8}
    (hbuf : s.rcvbuf = packet ++ rest) (hlen : s.yrecvLen = packet.length) (hrest : rest ≠ [])
    (c : UInt8) : (s.put c).rcvbuf = packet ++ [c] ++ rest.tail := by
  obtain ⟨first, rest, rfl⟩ := List.exists_cons_of_ne_nil hrest
  have hbuffer : s.file.packetBuffer = packet ++ first :: rest := by
    rw [← hbuf, Yrecv.rcvbuf, hidx, List.drop_zero]
  simp only [Yrecv.rcvbuf, Yrecv.put, hidx, List.drop_zero, Nat.zero_add, hbuffer, hlen]
  rw [List.set_append_right _ _ (Nat.le_refl _), Nat.sub_self, List.set_cons_zero,
    List.append_assoc]
  rfl

/-- The characters behind the first one of a short packet. -/
theorem recvChars_short (allowLong : Bool) {packet rest : List UInt8} (chars : List UInt8)
    (hidx : s.lastIdx = 0) (hmode : s.yrecvMode = 1) (hbuf : s.rcvbuf = packet ++ rest)
    (hlen : s.yrecvLen = packet.length) (hchars : chars ≠ [])
    (hwhole : packet.length + chars.length = nkYmShortPacketLen)
    (hroom : chars.length ≤ rest.length) :
    ∃ s' stored, s.Holding s' (packet ++ chars) ∧ s'.yrecvMode = 0 ∧
      (∀ event ∈ stored, event.Quiet) ∧
      recvChars allowLong chars s =
        ((processFullOuter s').1, stored ++ (processFullOuter s').2.1,
          (processFullOuter s').2.2) := by
  induction chars generalizing s packet rest with
  | nil => exact absurd rfl hchars
  | cons c chars ih =>
      have hrest : rest ≠ [] := by
        intro hnil
        rw [hnil] at hroom
        cases hroom
      have hput := Yrecv.rcvbuf_put hidx hbuf hlen hrest c
      have hmode' : (s.put c).yrecvMode = 1 := hmode
      have hlen' : (s.put c).yrecvLen = (packet ++ [c]).length := by
        rw [List.length_append, List.length_singleton, ← hlen]
        rfl
      rw [List.length_cons] at hwhole hroom
      rcases chars.eq_nil_or_concat with rfl | ⟨_, _, hmore⟩
      · -- The last character
        have hfull : (s.put c).yrecvLen = nkYmShortPacketLen := by
          rw [hlen', List.length_append]
          exact hwhole
        have hclass : (s.put c).classify allowLong c = (true, { s.put c with yrecvMode := 0 }) := by
          unfold Yrecv.classify
          rw [hmode', if_neg (by decide), if_pos rfl, if_pos hfull]
        refine ⟨{ s.put c with yrecvMode := 0 }, _, ⟨rfl, rfl, ⟨_, hput⟩, hlen'⟩, rfl,
          quiet_stored (s.lastIdx + s.yrecvLen) c, ?_⟩
        simp only [recvChars, recvChar, hclass, if_true]
        generalize processFullOuter { s.put c with yrecvMode := 0 } = result
        obtain ⟨finished, events, s'⟩ := result
        cases finished <;> simp
      · have hne : chars ≠ [] := by
          rw [hmore]
          simp
        have hpart : (s.put c).yrecvLen ≠ nkYmShortPacketLen := by
          have hpos := List.length_pos_of_ne_nil hne
          rw [hlen', List.length_append, List.length_singleton]
          omega
        have hclass : (s.put c).classify allowLong c = (false, s.put c) := by
          unfold Yrecv.classify
          rw [hmode', if_neg (by decide), if_pos rfl, if_neg hpart]
        obtain ⟨s', stored, hholding, hmode'', hquiet, hchars'⟩ :=
          ih (s := s.put c) hidx hmode' hput
          hlen' hne (by rw [List.length_append, List.length_singleton]; omega)
          (by rw [List.length_tail]; omega)
        refine ⟨s', [.received c, .store (s.lastIdx + s.yrecvLen) c] ++ stored, ?_, hmode'', ?_, ?_⟩
        · rw [List.append_cons]
          exact ⟨hholding.rcv, hholding.openFile, hholding.rcvbuf, hholding.len⟩
        · intro event hmem
          rcases List.mem_append.mp hmem with hmem | hmem
          · exact quiet_stored _ c event hmem
          · exact hquiet event hmem
        · simp only [recvChars, recvChar, hclass, Bool.false_eq_true, if_false, hchars',
            List.append_assoc]

/-- All characters of a packet arrive: it is handled when the last one has been stored. -/
def Yrecv.Collects (allowLong : Bool) (s : Yrecv) (packet : List UInt8) : Prop :=
  ∃ s' stored, s.Holding s' packet ∧ s'.yrecvMode = 0 ∧ (∀ event ∈ stored, event.Quiet) ∧
    recvChars allowLong packet s =
      ((processFullOuter s').1, stored ++ (processFullOuter s').2.1, (processFullOuter s').2.2)

/-- A short packet. -/
theorem recvChars_packet {chars : List UInt8} (hidx : s.lastIdx = 0) (resting : s.Resting)
    (hroom : nkYmShortPacketLen ≤ s.file.packetBuffer.length)
    (hlen : (nkYmSoh :: chars).length = nkYmShortPacketLen) :
    s.Collects allowLong (nkYmSoh :: chars) := by
  have hbuf : s.rcvbuf = [] ++ s.file.packetBuffer := by
    rw [Yrecv.rcvbuf, hidx, List.drop_zero, List.nil_append]
  have hne : s.file.packetBuffer ≠ [] := by
    intro hnil
    rw [hnil] at hroom
    cases hroom
  have hput := Yrecv.rcvbuf_put hidx hbuf resting.len hne nkYmSoh
  have hclass : (s.put nkYmSoh).classify allowLong nkYmSoh =
      (false, { s.put nkYmSoh with yrecvMode := 1 }) := by
    unfold Yrecv.classify
    rw [show (s.put nkYmSoh).yrecvMode = 0 from resting.mode, if_pos rfl, if_pos rfl]
  have hlen' : s.yrecvLen + 1 = 1 := by
    rw [resting.len]
  rw [List.length_cons] at hlen
  obtain ⟨s', stored, hholding, hmode, hquiet, hchars⟩ :=
    recvChars_short (s := { s.put nkYmSoh with yrecvMode := 1 }) allowLong chars hidx rfl hput hlen'
      (by rintro rfl; cases hlen)
      (by rw [Nat.add_comm]; exact hlen) (by rw [List.length_tail]; omega)
  refine ⟨s', [.received nkYmSoh, .store (s.lastIdx + s.yrecvLen) nkYmSoh] ++ stored, ?_, hmode, ?_,
    ?_⟩
  · exact ⟨hholding.rcv, hholding.openFile, hholding.rcvbuf, hholding.len⟩
  · intro event hmem
    rcases List.mem_append.mp hmem with hmem | hmem
    · exact quiet_stored _ _ event hmem
    · exact hquiet event hmem
  · simp only [recvChars, recvChar, hclass, Bool.false_eq_true, if_false, hchars, List.append_assoc]

/-- An EOT. -/
theorem recvChars_eot (hidx : s.lastIdx = 0) (resting : s.Resting)
    (hroom : nkYmShortPacketLen ≤ s.file.packetBuffer.length) :
    s.Collects allowLong [nkYmEot] := by
  have hbuf : s.rcvbuf = [] ++ s.file.packetBuffer := by
    rw [Yrecv.rcvbuf, hidx, List.drop_zero, List.nil_append]
  have hne : s.file.packetBuffer ≠ [] := by
    intro hnil
    rw [hnil] at hroom
    cases hroom
  have hput := Yrecv.rcvbuf_put hidx hbuf resting.len hne nkYmEot
  have hclass : (s.put nkYmEot).classify allowLong nkYmEot = (true, s.put nkYmEot) := by
    unfold Yrecv.classify
    rw [show (s.put nkYmEot).yrecvMode = 0 from resting.mode, if_pos rfl, if_neg (by decide),
      if_neg (by intro h; exact absurd h.2 (by decide)), if_pos (Or.inr rfl)]
  refine ⟨s.put nkYmEot, _, ⟨rfl, rfl, ⟨_, hput⟩, ?_⟩, resting.mode,
    quiet_stored (s.lastIdx + s.yrecvLen) nkYmEot, ?_⟩
  · show s.yrecvLen + 1 = 1
    rw [resting.len]
  · simp only [recvChars, recvChar, hclass, if_true]
    generalize processFullOuter (s.put nkYmEot) = result
    obtain ⟨finished, events, s'⟩ := result
    cases finished <;> simp

end Collecting

/-! ## Handling what the sender sends -/

section Handling

variable {s : YmodemRecv} {file : NkYrecvStruct} {seq : UInt8} {data rest : List UInt8}

theorem packet_length (hdata : data.length = 128) :
    (packet seq data).length = nkYmShortPacketLen := by
  simp [packet, crc16BytesBe, hdata, nkYmShortPacketLen]

/-- A packet of the sender is a good one. -/
theorem goodPacket_packet (hdata : data.length = 128) :
    goodPacket (packet seq data ++ rest) nkYmShortPacketLen = true := by
  have hcrc : ((packet seq data ++ rest).drop 3).take (nkYmShortPacketLen - 3) =
      (packet seq data).drop 3 := by
    have hlength : (packet seq data).length = nkYmShortPacketLen := packet_length hdata
    rw [List.drop_append_of_le_length (by rw [hlength]; decide), List.take_append_of_le_length]
    · apply List.take_of_length_le
      rw [List.length_drop, hlength]
    · rw [List.length_drop, hlength]
  rw [goodPacket, ymcrcCheck, hcrc, packet_crc]
  simp [packet]
  exact UInt8.xor_neg_one

theorem dataPacket_packet (hdata : data.length = 128) :
    dataPacket (packet seq data ++ rest) nkYmShortPacketLen = true := by
  rw [dataPacket, goodPacket_packet hdata]
  rfl

theorem firstPacket_packet (hdata : data.length = 128) :
    firstPacket (packet seq data ++ rest) nkYmShortPacketLen seq = true := by
  rw [firstPacket, goodPacket_packet hdata, Bool.and_true]
  exact beq_self_eq_true seq

theorem short_ne_one {P : Prop} : ¬ (nkYmShortPacketLen = 1 ∧ P) := by
  rintro ⟨hone, -⟩
  cases hone

theorem ymodemRcv_opened {rcvbuf : List UInt8} {len : Nat} (hpurge : s.purge = false)
    (hopened : s.opened = true) : ymodemRcv file rcvbuf len s = rcvOpened rcvbuf len s := by
  rw [ymodemRcv, hpurge, hopened]
  rfl

theorem ymodemRcv_waiting {rcvbuf : List UInt8} {len : Nat} (hpurge : s.purge = false)
    (hopened : s.opened = false) : ymodemRcv file rcvbuf len s = rcvHeader file rcvbuf len s := by
  rw [ymodemRcv, hpurge, hopened]
  rfl

/-- The packet before comes again. -/
theorem ymodemRcv_again (hpurge : s.purge = false) (hopened : s.opened = true)
    (hdata : data.length = 128) (hseq : seq = s.oldSeq) :
    ymodemRcv file (packet seq data ++ rest) nkYmShortPacketLen s =
      (.more, [.putc nkYmAck], { s with gotEot := false, can := false }) := by
  have hbyte : (packet seq data ++ rest).getD 1 0 = seq := rfl
  rw [ymodemRcv_opened hpurge hopened, rcvOpened, if_neg (by decide), if_neg short_ne_one,
    if_pos (dataPacket_packet hdata), hbyte, if_pos hseq]

/-- The next packet comes. -/
theorem ymodemRcv_next (file : NkYrecvStruct) (rest : List UInt8) (hpurge : s.purge = false)
    (hopened : s.opened = true) (hdata : data.length = 128) (hseq : seq = s.seq)
    (hold : seq ≠ s.oldSeq) :
    ymodemRcv file (packet seq data ++ rest) nkYmShortPacketLen s =
      (.more, (if min 128 s.fileSize = 0 then [] else [.write (data.take (min 128 s.fileSize))]) ++
        [.putc nkYmAck],
        { s with
          gotEot := false, can := false, first := false, oldSeq := s.seq, seq := s.seq + 1
          fileSize := s.fileSize - 128 }) := by
  have hbyte : (packet seq data ++ rest).getD 1 0 = seq := rfl
  have htake : ((packet seq data ++ rest).drop 3).take (min 128 s.fileSize) =
      data.take (min 128 s.fileSize) := by
    have hdrop : (packet seq data ++ rest).drop 3 =
        data ++ (crc16BytesBe (nkCrc16beCheck data) ++ rest) := by
      simp [packet]
    rw [hdrop, List.take_append_of_le_length]
    rw [hdata]
    exact Nat.min_le_left 128 _
  have hsize : nkYmShortPacketLen - 5 = 128 := rfl
  rw [ymodemRcv_opened hpurge hopened, rcvOpened, if_neg (by decide), if_neg short_ne_one,
    if_pos (dataPacket_packet hdata), hbyte]
  dsimp only
  rw [if_neg hold, if_neg (not_not_intro hseq), (writeData_spec _ _ _).1, (writeData_spec _ _ _).2,
    hsize, htake]

/-- A header with a name. -/
theorem ymodemRcv_header (rest : List UInt8) (hpurge : s.purge = false) (hopened : s.opened = false)
    (hdata : data.length = 128) (hname : data.getD 0 0 ≠ 0)
    (hopen : ∀ name, file.openFile name = 0) :
    ymodemRcv file (packet 0 data ++ rest) nkYmShortPacketLen s =
      (.more, [.openFile (data ++ (crc16BytesBe (nkCrc16beCheck data) ++ rest)) 0, .putc nkYmAck],
        { s with
          can := false, ymodemTo := 0
          fileSize := headerFileSize (data ++ (crc16BytesBe (nkCrc16beCheck data) ++ rest))
          oldSeq := 0, seq := 1, opened := true, first := true }) := by
  have hdrop : (packet 0 data ++ rest).drop 3 =
      data ++ (crc16BytesBe (nkCrc16beCheck data) ++ rest) := by
    simp [packet]
  have hfirst : (data ++ (crc16BytesBe (nkCrc16beCheck data) ++ rest)).getD 0 0 ≠ 0 := by
    cases data with
    | nil => cases hdata
    | cons c data => exact hname
  rw [ymodemRcv_waiting hpurge hopened, rcvHeader, if_neg (by decide), if_neg short_ne_one,
    if_pos (firstPacket_packet hdata), hdrop]
  dsimp only
  rw [if_neg hfirst, if_pos (hopen _), hopen]

/-- The empty header. -/
theorem ymodemRcv_emptyHeader (hpurge : s.purge = false) (hopened : s.opened = false) :
    ymodemRcv file (emptyHeader ++ rest) nkYmShortPacketLen s =
      (.done, [.putc nkYmAck], { s with can := false, ymodemTo := 0 }) := by
  have hdata : (List.replicate 128 (0 : UInt8)).length = 128 := List.length_replicate
  rw [emptyHeader, ymodemRcv_waiting hpurge hopened, rcvHeader, if_neg (by decide),
    if_neg short_ne_one, if_pos (firstPacket_packet hdata)]
  rfl

/-- An EOT while a file is open. -/
theorem ymodemRcv_eot (hpurge : s.purge = false) (hopened : s.opened = true)
    (hxmodem : s.xmodem = false) :
    ymodemRcv file ([nkYmEot] ++ rest) 1 s =
      if s.gotEot then
        (.more, [.close, .putc nkYmAck, .putc nkYmReq],
          { s with
            opened := false, gotEot := false, purge := false, seq := 0, first := false, can := false
            ymodemTo := 0, xmodem := false })
      else (.more, [.putc nkYmNak], { s with can := false, gotEot := true }) := by
  have hcan : ¬ ((1 : Nat) = 1 ∧ ([nkYmEot] ++ rest).getD 0 0 = nkYmCan) := by
    rintro ⟨-, hbyte⟩
    cases hbyte
  have hdata : ¬ dataPacket ([nkYmEot] ++ rest) 1 = true := Bool.false_ne_true
  rw [ymodemRcv_opened hpurge hopened, rcvOpened, if_neg (by decide), if_neg hcan, if_neg hdata,
    if_pos ⟨rfl, rfl⟩]
  dsimp only
  rw [if_neg (by rw [hxmodem]; exact Bool.false_ne_true)]
  rfl

/-- An EOT while no file is open. -/
theorem ymodemRcv_eot_waiting (hpurge : s.purge = false) (hopened : s.opened = false) :
    ymodemRcv file ([nkYmEot] ++ rest) 1 s =
      (.purge, [], { s with can := false, purge := true, ymodemTo := 0 }) := by
  have hcan : ¬ ((1 : Nat) = 1 ∧ ([nkYmEot] ++ rest).getD 0 0 = nkYmCan) := by
    rintro ⟨-, hbyte⟩
    cases hbyte
  have hfirst (n : UInt8) : ¬ firstPacket ([nkYmEot] ++ rest) 1 n = true := Bool.false_ne_true
  rw [ymodemRcv_waiting hpurge hopened, rcvHeader, if_neg (by decide), if_neg hcan,
    if_neg (hfirst 0), if_neg (hfirst 1)]

/-! ## How far the receiver is -/

/-- The receiver has taken the header, the blocks, the second EOT and the empty header, up
to this number of them. -/
inductive Progress (file : List UInt8) (size : Nat) : Nat → YmodemRecv → Bool → Prop where
  | waiting {s : YmodemRecv} (opened : s.opened = false) (xmodem : s.xmodem = false) :
      Progress file size 0 s true
  | receiving {s : YmodemRecv} (k : Nat) (le : k ≤ blocks file) (opened : s.opened = true)
      (xmodem : s.xmodem = false) (seq : s.seq = UInt8.ofNat (k + 1))
      (oldSeq : s.oldSeq = UInt8.ofNat k) (fileSize : s.fileSize = size - 128 * k) :
      Progress file size (k + 1) s true
  | closed {s : YmodemRecv} (opened : s.opened = false) (xmodem : s.xmodem = false) :
      Progress file size (blocks file + 2) s true
  | finished {s : YmodemRecv} : Progress file size (blocks file + 3) s false

/-- A timeout in front of a header. -/
theorem rcvHeader_timeout (file : NkYrecvStruct) (rcvbuf : List UInt8) (hopened : s.opened = false)
    (hxmodem : s.xmodem = false) (hpurge : s.purge = false) :
    ∃ events s', rcvHeader file rcvbuf 0 s = (.more, events, s') ∧ s'.opened = false ∧
      s'.xmodem = false ∧ s'.purge = false ∧ (events = [] ∨ events = [.putc nkYmReq]) := by
  rw [rcvHeader, if_pos rfl]
  split
  · exact ⟨_, _, rfl, hopened, hxmodem, hpurge, Or.inl rfl⟩
  · exact ⟨_, _, rfl, rfl, rfl, rfl, Or.inr rfl⟩

/-- The timeout asks for a packet, if for anything. -/
theorem Progress.timeout {contents : List UInt8} {size r : Nat}
    (progress : Progress contents size r s true) (file : NkYrecvStruct) (rcvbuf : List UInt8) :
    ∃ events s', ymodemRcv file rcvbuf 0 s = (.more, events, s') ∧
      Progress contents size r s' true ∧ s'.purge = false ∧
      (events = [] ∨ events = [.putc nkYmReq] ∨ events = [.putc nkYmNak]) := by
  cases hpurge : s.purge with
  | true =>
      refine ⟨[.putc nkYmReq], { s with purge := false }, ?_, ?_, rfl, Or.inr (Or.inl rfl)⟩
      · rw [ymodemRcv, hpurge]
        rfl
      · cases progress with
        | waiting opened xmodem => exact .waiting opened xmodem
        | receiving k le opened xmodem seq oldSeq fileSize =>
            exact .receiving k le opened xmodem seq oldSeq fileSize
        | closed opened xmodem => exact .closed opened xmodem
  | false =>
      cases progress with
      | waiting opened xmodem =>
          obtain ⟨events, s', hrcv, hopened, hxmodem, hpurge', hevents⟩ :=
            rcvHeader_timeout file rcvbuf opened xmodem hpurge
          refine ⟨events, s', ?_, .waiting hopened hxmodem, hpurge', ?_⟩
          · rw [ymodemRcv_waiting hpurge opened, hrcv]
          · exact hevents.imp_right Or.inl
      | closed opened xmodem =>
          obtain ⟨events, s', hrcv, hopened, hxmodem, hpurge', hevents⟩ :=
            rcvHeader_timeout file rcvbuf opened xmodem hpurge
          refine ⟨events, s', ?_, .closed hopened hxmodem, hpurge', ?_⟩
          · rw [ymodemRcv_waiting hpurge opened, hrcv]
          · exact hevents.imp_right Or.inl
      | receiving k le opened xmodem seq oldSeq fileSize =>
          refine ⟨[.putc (if s.first then nkYmReq else nkYmNak)],
            { s with gotEot := false, can := false }, ?_,
            .receiving k le opened xmodem seq oldSeq fileSize, hpurge, Or.inr ?_⟩
          · rw [ymodemRcv_opened hpurge opened, rcvOpened, if_pos rfl]
          · cases s.first with
            | true => exact Or.inl rfl
            | false => exact Or.inr rfl

/-- Damaged characters change nothing. -/
theorem Progress.junk {contents : List UInt8} {size r : Nat}
    (progress : Progress contents size r s true) (file : NkYrecvStruct) {rcvbuf : List UInt8}
    {len : Nat} (hlen : len ≤ rcvbuf.length) (hpos : len ≠ 0)
    (hshape : len = nkYmLongPacketLen → rcvbuf.getD 0 0 ≠ nkYmSoh)
    (hdata : ¬ IsData (rcvbuf.take len)) (heot : rcvbuf.take len ≠ [nkYmEot])
    (hcan : rcvbuf.take len ≠ [nkYmCan]) :
    ∃ s', ymodemRcv file rcvbuf len s = (.purge, [], s') ∧ Progress contents size r s' true := by
  have hone (c : UInt8) (hne : rcvbuf.take len ≠ [c]) : ¬ (len = 1 ∧ rcvbuf.getD 0 0 = c) := by
    rintro ⟨rfl, hbyte⟩
    exact hne (take_one_eq hlen hbyte)
  have hfirst (seq : UInt8) : ¬ firstPacket rcvbuf len seq = true := by
    intro hfirst
    refine hdata (firstPacket_isData hfirst hlen fun hlong => hshape hlong ?_).2.2
    simp only [firstPacket, Bool.and_eq_true, beq_iff_eq] at hfirst
    exact hfirst.1.1.2
  have hheader : rcvHeader file rcvbuf len s =
      (.purge, [], { s with can := false, purge := true, ymodemTo := 0 }) := by
    rw [rcvHeader, if_neg hpos, if_neg (hone nkYmCan hcan), if_neg (hfirst 0), if_neg (hfirst 1)]
  cases hpurge : s.purge with
  | true =>
      refine ⟨s, ?_, progress⟩
      rw [ymodemRcv, if_pos hpurge, if_pos hpos]
  | false =>
      cases progress with
      | waiting opened xmodem =>
          refine ⟨_, ?_, .waiting (s := { s with can := false, purge := true, ymodemTo := 0 })
            opened xmodem⟩
          rw [ymodemRcv_waiting hpurge opened, hheader]
      | closed opened xmodem =>
          refine ⟨_, ?_, .closed (s := { s with can := false, purge := true, ymodemTo := 0 }) opened
            xmodem⟩
          rw [ymodemRcv_waiting hpurge opened, hheader]
      | receiving k le opened xmodem seq oldSeq fileSize =>
          refine ⟨{ s with gotEot := false, can := false, purge := true }, ?_,
            .receiving k le opened xmodem seq oldSeq fileSize⟩
          have hother : ¬ dataPacket rcvbuf len = true := by
            rw [← dataPacket_take hlen]
            exact hdata
          rw [ymodemRcv_opened hpurge opened, rcvOpened, if_neg hpos, if_neg (hone nkYmCan hcan),
            if_neg hother, if_neg (hone nkYmEot heot)]

end Handling

section Receiver

variable {allowLong : Bool} {s : Yrecv} {trace : List Event} {contents : List UInt8} {size r : Nat}

theorem processFullOuter_purge {rcv : YmodemRecv} {events : List Event}
    (hrcv : ymodemRcv s.file s.rcvbuf s.yrecvLen s.rcv = (.purge, events, rcv)) :
    processFullOuter s = (false, .rcv s.packet :: events,
      { s with rcv := rcv, yrecvLen := 0, yrecvMode := 3 }) := by
  simp only [processFullOuter, hrcv, Yrecv.packet]

theorem processFullOuter_more {rcv : YmodemRecv} {events : List Event}
    (hrcv : ymodemRcv s.file s.rcvbuf s.yrecvLen s.rcv = (.more, events, rcv)) :
    processFullOuter s = (false, .rcv s.packet :: events,
      { s with rcv := rcv, yrecvLen := 0, yrecvMode := 0 }) := by
  simp only [processFullOuter, hrcv, Yrecv.packet]

theorem processFullOuter_done {rcv : YmodemRecv} {events : List Event}
    (hrcv : ymodemRcv s.file s.rcvbuf s.yrecvLen s.rcv = (.done, events, rcv)) :
    processFullOuter s = (true, .rcv s.packet :: events ++ [.allDone],
      { s with rcv := rcv, yrecvLen := 0 }) := by
  simp only [processFullOuter, hrcv, Yrecv.packet]

/-- A character that completes a packet. -/
theorem Inv.completed (inv : Inv allowLong s true trace) {c : UInt8} {s' : Yrecv}
    (hclass : (s.put c).classify allowLong c = (true, s')) :
    s'.rcv = s.rcv ∧ s'.file.openFile = s.file.openFile ∧ s'.yrecvLen ≤ s'.rcvbuf.length ∧
      s'.yrecvLen ≠ 0 ∧
      (s'.yrecvLen = nkYmLongPacketLen → s'.rcvbuf.getD 0 0 ≠ nkYmSoh) := by
  have hlt := Nat.lt_of_lt_of_le inv.collecting.len_lt (inv.room rfl)
  obtain ⟨gotit, s'', hclass', hfile, hidx', hgotit, -⟩ :=
    classify_spec inv.collecting inv.lastIdx hlt c
  obtain ⟨hrcv, -, hle, -⟩ := classify_rcv allowLong c (s.put c)
  rw [hclass] at hclass' hrcv hle
  obtain ⟨rfl, rfl⟩ := Prod.mk.inj hclass'
  obtain ⟨-, -, hcomplete⟩ := hgotit rfl
  have hlen : s'.yrecvLen ≤ s'.rcvbuf.length := by
    rw [Yrecv.rcvbuf, hidx', List.drop_zero, hfile]
    simp only [Yrecv.put, List.length_set] at hle ⊢
    omega
  refine ⟨hrcv, ?_, hlen, ?_, Yrecv.not_long_soh hlen (Or.inr hcomplete)⟩
  · rw [hfile]
    rfl
  · intro hzero
    rw [Yrecv.packet, hzero, List.take_zero] at hcomplete
    rcases hcomplete with hcomplete | hcomplete | ⟨hcomplete, -⟩ | ⟨-, hcomplete, -⟩ <;>
      cases hcomplete

/-- One damaged character. -/
theorem recvChar_noise (inv : Inv allowLong s true trace)
    (progress : Progress contents size r s.rcv true) (c : UInt8)
    (harmless : ∀ packet ∈ calls (recvChar allowLong c s).2.1,
      ¬ IsData packet ∧ packet ≠ [nkYmEot] ∧ packet ≠ [nkYmCan]) :
    ∃ events s', recvChar allowLong c s = (false, events, s') ∧
      (∀ event ∈ events, event.Quiet) ∧ Progress contents size r s'.rcv true ∧
      s'.file.openFile = s.file.openFile := by
  have hstored := quiet_stored (s.lastIdx + s.yrecvLen) c
  obtain ⟨⟨gotit, s'⟩, hclass⟩ : ∃ result, (s.put c).classify allowLong c = result := ⟨_, rfl⟩
  simp only [recvChar, hclass] at harmless ⊢
  cases gotit with
  | false =>
      obtain ⟨hrcv, -, -, hfile⟩ := classify_rcv allowLong c (s.put c)
      rw [hclass] at hrcv hfile
      dsimp only at hrcv hfile
      refine ⟨_, _, rfl, hstored, ?_, ?_⟩
      · rw [hrcv]
        exact progress
      · rw [hfile]
        rfl
  | true =>
      obtain ⟨hrcv, hopen, hlen, hpos, hlong⟩ := inv.completed hclass
      rw [← hrcv] at progress
      obtain ⟨finished, events, s'', hprocess, -⟩ := processFullOuter_spec s'
      obtain ⟨hdata, heot, hcan⟩ := harmless s'.packet (by
        rw [if_pos rfl, hprocess]
        simp [calls])
      obtain ⟨rcv, hjunk, hprogress⟩ :=
        progress.junk s'.file hlen hpos hlong hdata heot hcan
      rw [if_pos rfl, processFullOuter_purge hjunk]
      refine ⟨_, _, rfl, ?_, hprogress, hopen⟩
      intro event hmem
      simp only [List.mem_cons, List.not_mem_nil, or_false] at hmem
      rcases hmem with rfl | rfl | rfl
      · exact ⟨rfl, rfl⟩
      · exact ⟨rfl, rfl⟩
      · exact ⟨rfl, rfl⟩

/-- Damaged characters are answered by nothing. -/
theorem recvChars_noise (inv : Inv allowLong s true trace)
    (progress : Progress contents size r s.rcv true) (noise : List UInt8)
    (harmless : Harmless allowLong noise s) :
    ∃ events s', recvChars allowLong noise s = (false, events, s') ∧
      (∀ event ∈ events, event.Quiet) ∧ Progress contents size r s'.rcv true ∧
      s'.file.openFile = s.file.openFile := by
  induction noise generalizing s trace with
  | nil => exact ⟨[], s, rfl, fun _ h => absurd h List.not_mem_nil, progress, rfl⟩
  | cons c noise ih =>
      have hinv := inv.recvChar c
      have hharmless : ∀ packet ∈ calls (recvChar allowLong c s).2.1,
          ¬ IsData packet ∧ packet ≠ [nkYmEot] ∧ packet ≠ [nkYmCan] := by
        intro packet hmem
        apply harmless
        simp only [recvChars]
        split
        · exact hmem
        · rw [calls_append]
          exact List.mem_append_left _ hmem
      obtain ⟨events, s', hfirst, hquiet, hprogress, hopen⟩ :=
        recvChar_noise inv progress c hharmless
      rw [hfirst] at hinv
      obtain ⟨events', s'', hrest, hquiet', hprogress', hopen'⟩ := ih hinv hprogress (by
        intro packet hmem
        apply harmless
        simp only [recvChars, hfirst, Bool.false_eq_true, if_false]
        rw [calls_append]
        exact List.mem_append_right _ hmem)
      refine ⟨events ++ events', s'', ?_, ?_, hprogress', hopen'.trans hopen⟩
      · simp only [recvChars, hfirst, hrest, Bool.false_eq_true, if_false]
      · intro event hmem
        rcases List.mem_append.mp hmem with hmem | hmem
        · exact hquiet event hmem
        · exact hquiet' event hmem

/-- What the receiver does with a packet whose characters all arrive. -/
theorem Yrecv.Collects.answer {packet : List UInt8} (collects : s.Collects allowLong packet)
    {sta : RecvStatus} {made : List Call} {replies : List UInt8} {P : YmodemRecv → Prop}
    (handled : ∀ file rest, file.openFile = s.file.openFile → ∃ events rcv,
      ymodemRcv file (packet ++ rest) packet.length s.rcv = (sta, events, rcv) ∧
      events.filterMap Event.call = made ∧ events.filterMap Event.reply = replies ∧ P rcv) :
    ∃ events s', recvChars allowLong packet s = (!sta.goesOn, events, s') ∧
      events.filterMap Event.call = made ++ (if sta = .done then [.allDone] else []) ∧
      events.filterMap Event.reply = replies ∧ P s'.rcv ∧ s'.file.openFile = s.file.openFile ∧
      s'.yrecvLen = 0 ∧ (sta = .more → s'.yrecvMode = 0) := by
  obtain ⟨s', stored, holding, hmode, hquiet, hchars⟩ := collects
  obtain ⟨rest, hbuf⟩ := holding.rcvbuf
  obtain ⟨events, rcv, hrcv, hmade, hreplies, hP⟩ := handled s'.file rest holding.openFile
  rw [← hbuf, ← holding.len, ← holding.rcv] at hrcv
  obtain ⟨hcall, hreply⟩ := filterMap_quiet hquiet
  rw [hchars]
  have hcalls (tail : List Event) :
      (stored ++ (.rcv s'.packet :: events ++ tail)).filterMap Event.call =
        made ++ tail.filterMap Event.call := by
    rw [List.filterMap_append, hcall, List.nil_append, List.filterMap_append,
      List.filterMap_cons_none rfl, hmade]
  have hanswers (tail : List Event) :
      (stored ++ (.rcv s'.packet :: events ++ tail)).filterMap Event.reply =
        replies ++ tail.filterMap Event.reply := by
    rw [List.filterMap_append, hreply, List.nil_append, List.filterMap_append,
      List.filterMap_cons_none rfl, hreplies]
  have hmade' := hcalls []
  have hreplies' := hanswers []
  rw [List.filterMap_nil, List.append_nil, List.append_nil] at hreplies'
  rw [List.append_nil] at hmade'
  cases sta with
  | more =>
      rw [processFullOuter_more hrcv]
      exact ⟨_, _, rfl, hmade', hreplies', hP, holding.openFile, rfl, fun _ => rfl⟩
  | purge =>
      rw [processFullOuter_purge hrcv]
      exact ⟨_, _, rfl, hmade', hreplies', hP, holding.openFile, rfl, fun h => by cases h⟩
  | done =>
      rw [processFullOuter_done hrcv]
      exact ⟨_, _, rfl, hcalls [.allDone], (hanswers [.allDone]).trans (List.append_nil replies),
        hP, holding.openFile, rfl, fun h => by cases h⟩
  | remoteCancel | openCancel | syncCancel =>
      simp only [processFullOuter, hrcv]
      exact ⟨_, _, rfl, hmade', hreplies', hP, holding.openFile, rfl, fun h => by cases h⟩

end Receiver

/-! ## The sender -/

section Sender

variable {w : Nat} {contents header : List UInt8} {k : Nat} {s : YmodemSend w}

/-- A request is answered by what is due. -/
theorem Phase.requested (phase : Phase contents header k s) {c : UInt8}
    (hc : c = nkYmReq ∨ c = nkYmNak) :
    ∃ event, due contents header k = some event ∧ nkYsendEvt s c = (.more, [event], s) := by
  have hdue := phase.repeated
  rw [nkYsendEvt, if_pos hc]
  cases hend : s.eot with
  | true =>
      rw [hend] at hdue
      exact ⟨.eot, hdue .eot (List.mem_singleton.mpr rfl), rfl⟩
  | false =>
      rw [hend] at hdue
      exact ⟨_, hdue _ (List.mem_singleton.mpr rfl), rfl⟩

/-- An acknowledgement is answered by one thing or nothing. -/
theorem nkYsendEvt_ack (s : YmodemSend w) :
    (nkYsendEvt s nkYmAck).2.1 = [] ∨ ∃ event, (nkYsendEvt s nkYmAck).2.1 = [event] := by
  rw [nkYsendEvt, if_neg (by decide), if_pos rfl]
  split
  · exact Or.inl rfl
  · split
    · exact Or.inl rfl
    · dsimp only
      split
      · split
        · exact Or.inl rfl
        · exact Or.inr ⟨_, rfl⟩
      · split
        · exact Or.inl rfl
        · exact Or.inr ⟨_, rfl⟩

/-- The acknowledgement of EOT, and of the empty header. -/
theorem Phase.ended (phase : Phase contents header k s) :
    (k = blocks contents + 1 → (nkYsendEvt s nkYmAck).2.1 = []) ∧
      (k = blocks contents + 2 → nkYsendEvt s nkYmAck = (.done, [], s)) ∧
      (k ≠ blocks contents + 2 → (nkYsendEvt s nkYmAck).1 = .more) := by
  have hack : ¬ (nkYmAck = nkYmReq ∨ nkYmAck = nkYmNak) := by decide
  rw [nkYsendEvt, if_neg hack, if_pos rfl]
  cases phase with
  | sending le eot fin hdr seq blockSize packet_eq agrees =>
      refine ⟨fun h => absurd le (by omega), fun h => absurd le (by omega), fun _ => ?_⟩
      rw [eot, fin, if_neg Bool.false_ne_true, if_neg Bool.false_ne_true]
      dsimp only
      split
      · split <;> rfl
      · split <;> rfl
  | ending eot =>
      rw [eot]
      exact ⟨fun _ => rfl, fun h => absurd h (by omega), fun _ => rfl⟩
  | finished eot fin blockSize packet_eq =>
      rw [eot, fin]
      exact ⟨fun h => absurd h (by omega), fun _ => rfl, fun h => absurd rfl h⟩

end Sender

end LibnklabsPico.Ymodem
