/-
  Ymodem/Delivery.lean --- what the receive file handler is told.

  `nkymodem.h` says when each function of the handler is called.  `Told` says it of a
  whole trace: a file is open from `open` to `close` or `cancel`, it is written only
  while it is open, and it is closed only when its data is the data of the packets that
  came for it, in order, each taken once and cut to the announced size.  Every run of
  the receiver keeps to it, whatever characters come in.
-/
import LibnklabsPico.Ymodem.Header
import LibnklabsPico.Ymodem.Packets

set_option autoImplicit false

namespace LibnklabsPico.Ymodem

/-! ## Files -/

/-- The data of a packet. -/
def packetData (packet : List UInt8) : List UInt8 := (packet.drop 3).take (packet.length - 5)

/-- The sequence number of a packet. -/
def packetSeq (packet : List UInt8) : UInt8 := packet.getD 1 0

/-- Packets that bring these blocks, the first of which has number 1: each packet brings
the next block or the block before it once more.  The packet before the first block is
the header. -/
inductive InOrder : List (List UInt8) → List (List UInt8) → Prop where
  | none : InOrder [] []
  | next {packets blocks : List (List UInt8)} {packet : List UInt8}
      (before : InOrder packets blocks)
      (number : packetSeq packet = UInt8.ofNat (blocks.length + 1)) :
      InOrder (packets ++ [packet]) (blocks ++ [packetData packet])
  | again {packets blocks : List (List UInt8)} {packet : List UInt8}
      (before : InOrder packets blocks) (number : packetSeq packet = UInt8.ofNat blocks.length) :
      InOrder (packets ++ [packet]) blocks

/-- A file that is being received. -/
structure Incoming where
  /-- the memory at the name passed to `open` -/
  name : List UInt8
  /-- the first packet is data: there is no header -/
  anonymous : Bool
  /-- the announced size, or `0xffffffff` -/
  size : Nat
  /-- the data packets for which `ymodem_rcv` was called -/
  packets : List (List UInt8)
  /-- what was written -/
  data : List UInt8

/-- What was written is the data of the packets, up to the announced size. -/
def Incoming.Received (f : Incoming) : Prop :=
  ∃ blocks, InOrder f.packets blocks ∧ f.data = blocks.flatten.take f.size

/-! ## The calls of the handler -/

/-- The packets for which `ymodem_rcv` was called. -/
def calls (trace : List Event) : List (List UInt8) :=
  trace.filterMap fun event =>
    match event with
    | .rcv packet => some packet
    | _ => none

/-- A data packet with a good CRC. -/
def IsData (packet : List UInt8) : Prop := dataPacket packet packet.length = true

/-- Events that are no call of the handler or of `ymodem_rcv`. -/
def Event.outside : Event → Bool
  | .start | .timeout | .received _ | .store _ _ | .putc _ => true
  | _ => false

/-- The dialogue with the file handler in a trace: the file that is open at its end, if
there is one, and the files that have been closed. -/
inductive Told : List Event → Option Incoming → List Incoming → Prop where
  | nothing : Told [] none []
  | outside {trace : List Event} {f : Option Incoming} {closed : List Incoming} {event : Event}
      (before : Told trace f closed) (outside : event.outside = true) :
      Told (trace ++ [event]) f closed
  /-- `ymodem_rcv` is called: a data packet belongs to the file that is open -/
  | data {trace : List Event} {f : Incoming} {closed : List Incoming} {packet : List UInt8}
      (before : Told trace (some f) closed) (data : IsData packet) :
      Told (trace ++ [.rcv packet]) (some { f with packets := f.packets ++ [packet] }) closed
  | other {trace : List Event} {f : Option Incoming} {closed : List Incoming}
      {packet : List UInt8} (before : Told trace f closed) (other : f = none ∨ ¬ IsData packet) :
      Told (trace ++ [.rcv packet]) f closed
  /-- `open` does not succeed -/
  | refused {trace : List Event} {closed : List Incoming} {name : List UInt8} {rtn : Int}
      (before : Told trace none closed) (failed : rtn ≠ 0) :
      Told (trace ++ [.openFile name rtn]) none closed
  /-- the packet that is handled is a header, and `open` is passed its payload -/
  | opened {trace : List Event} {closed : List Incoming} {name packet : List UInt8}
      (before : Told trace none closed) (last : [packet] <:+ calls trace) (data : IsData packet)
      (number : packetSeq packet = 0) (payload : packet.drop 3 <+: name) :
      Told (trace ++ [.openFile name 0])
        (some { name := name, anonymous := false, size := headerFileSize name, packets := []
                data := [] }) closed
  /-- the packet that is handled is the first block of a file without a header -/
  | anonymous {trace : List Event} {closed : List Incoming} {name packet : List UInt8}
      (before : Told trace none closed) (last : [packet] <:+ calls trace) (data : IsData packet)
      (number : packetSeq packet = 1) :
      Told (trace ++ [.openFile name 0])
        (some { name := name, anonymous := true, size := 0xffffffff, packets := [packet]
                data := [] }) closed
  | write {trace : List Event} {f : Incoming} {closed : List Incoming} {data : List UInt8}
      (before : Told trace (some f) closed) (nonempty : data ≠ []) :
      Told (trace ++ [.write data]) (some { f with data := f.data ++ data }) closed
  /-- the sender has said twice that there is no more data, or once if there is no header -/
  | close {trace : List Event} {f : Incoming} {closed : List Incoming}
      (before : Told trace (some f) closed) (received : f.Received)
      (ended : (if f.anonymous then [[nkYmEot]] else [[nkYmEot], [nkYmEot]]) <:+ calls trace) :
      Told (trace ++ [.close]) none (closed ++ [f])
  /-- the sender has canceled the transfer, or a packet does not follow the others -/
  | cancel {trace : List Event} {f : Incoming} {closed : List Incoming}
      (before : Told trace (some f) closed)
      (canceled : [[nkYmCan], [nkYmCan]] <:+ calls trace ∨
        ∀ blocks, ¬ InOrder f.packets blocks) :
      Told (trace ++ [.cancel]) none closed
  | allDone {trace : List Event} {closed : List Incoming} (before : Told trace none closed) :
      Told (trace ++ [.allDone]) none closed

section Dialogue

variable {trace : List Event} {f : Option Incoming} {closed : List Incoming}

theorem calls_append (before after : List Event) :
    calls (before ++ after) = calls before ++ calls after :=
  List.filterMap_append

@[simp] theorem calls_rcv (trace : List Event) (packet : List UInt8) :
    calls (trace ++ [.rcv packet]) = calls trace ++ [packet] := by
  simp [calls]

/-- The handler of a packet calls nothing for another one. -/
theorem calls_silent {events : List Event} (silent : ∀ event ∈ events, event.silent = true) :
    calls (trace ++ events) = calls trace := by
  have hnone : calls events = [] := by
    apply List.filterMap_eq_nil_iff.mpr
    intro event hmem
    have hsilent := silent event hmem
    cases event <;> first | rfl | cases hsilent
  rw [calls_append, hnone, List.append_nil]

theorem Told.putc (told : Told trace f closed) (c : UInt8) : Told (trace ++ [.putc c]) f closed :=
  told.outside rfl

theorem ofNat_succ_ne (n : Nat) : UInt8.ofNat (n + 1) ≠ UInt8.ofNat n := by
  intro heq
  have hnat := congrArg UInt8.toNat heq
  simp only [UInt8.toNat_ofNat'] at hnat
  omega

/-- The blocks that packets bring. -/
theorem InOrder.unique {packets blocks blocks' : List (List UInt8)} (order : InOrder packets blocks)
    (order' : InOrder packets blocks') : blocks = blocks' := by
  induction order generalizing blocks' with
  | none =>
      generalize hpackets : ([] : List (List UInt8)) = packets at order'
      cases order' with
      | none => rfl
      | next before number => exact absurd hpackets (by simp)
      | again before number => exact absurd hpackets (by simp)
  | @next packets blocks packet before number ih =>
      generalize hpackets : packets ++ [packet] = packets' at order'
      cases order' with
      | none => exact absurd hpackets (by simp)
      | next before' number' =>
          obtain ⟨rfl, hpacket⟩ := List.append_inj' hpackets rfl
          obtain rfl := List.singleton_inj.mp hpacket
          rw [ih before']
      | again before' number' =>
          obtain ⟨rfl, hpacket⟩ := List.append_inj' hpackets rfl
          obtain rfl := List.singleton_inj.mp hpacket
          obtain rfl := ih before'
          exact absurd (number.symm.trans number') (ofNat_succ_ne _)
  | @again packets blocks packet before number ih =>
      generalize hpackets : packets ++ [packet] = packets' at order'
      cases order' with
      | none => exact absurd hpackets (by simp)
      | next before' number' =>
          obtain ⟨rfl, hpacket⟩ := List.append_inj' hpackets rfl
          obtain rfl := List.singleton_inj.mp hpacket
          obtain rfl := ih before'
          exact absurd (number'.symm.trans number) (ofNat_succ_ne _)
      | again before' number' =>
          obtain ⟨rfl, hpacket⟩ := List.append_inj' hpackets rfl
          obtain rfl := List.singleton_inj.mp hpacket
          exact ih before'

/-- A packet with any other number than the two. -/
theorem InOrder.not_snoc {packets blocks : List (List UInt8)} {packet : List UInt8}
    (order : InOrder packets blocks) (hagain : packetSeq packet ≠ UInt8.ofNat blocks.length)
    (hnext : packetSeq packet ≠ UInt8.ofNat (blocks.length + 1)) (blocks' : List (List UInt8)) :
    ¬ InOrder (packets ++ [packet]) blocks' := by
  intro order'
  generalize hpackets : packets ++ [packet] = packets' at order'
  cases order' with
  | none => exact absurd hpackets (by simp)
  | next before number =>
      obtain ⟨rfl, hpacket⟩ := List.append_inj' hpackets rfl
      obtain rfl := List.singleton_inj.mp hpacket
      obtain rfl := order.unique before
      exact hnext number
  | again before number =>
      obtain ⟨rfl, hpacket⟩ := List.append_inj' hpackets rfl
      obtain rfl := List.singleton_inj.mp hpacket
      obtain rfl := order.unique before
      exact hagain number

end Dialogue

/-! ## The state of `ymodem_rcv` -/

/-- The variables that count the packets of a file. -/
structure Counts (fileSize : Nat) (seq oldSeq : UInt8) (f : Incoming)
    (blocks : List (List UInt8)) : Prop where
  order : InOrder f.packets blocks
  data : f.data = blocks.flatten.take f.size
  fileSize : fileSize = f.size - blocks.flatten.length
  seq : seq = UInt8.ofNat (blocks.length + 1)
  oldSeq : oldSeq = UInt8.ofNat blocks.length

/-- The static variables of `ymodem_rcv` agree with the dialogue and the packets handled. -/
inductive Serves (s : YmodemRecv) (handled : List (List UInt8)) : Option Incoming → Prop where
  | waiting (opened : s.opened = false) (gotEot : s.gotEot = false) (xmodem : s.xmodem = false) :
      Serves s handled none
  | receiving {f : Incoming} (blocks : List (List UInt8)) (opened : s.opened = true)
      (counts : Counts s.fileSize s.seq s.oldSeq f blocks) (xmodem : s.xmodem = f.anonymous)
      (gotEot : s.gotEot = true → [[nkYmEot]] <:+ handled)
      (can : s.can = true → [[nkYmCan]] <:+ handled)
      (purging : s.purge = true → s.gotEot = false ∧ s.can = false) : Serves s handled (some f)

/-- Whether the transfer goes on. -/
def RecvStatus.goesOn : RecvStatus → Bool
  | .more | .purge => true
  | _ => false

/-- What handling a packet leaves behind a trace that ends with the call: the dialogue goes
on, and no file is open when the transfer is over. -/
def Continues (trace : List Event) (closed : List Incoming) (handled : Handled) : Prop :=
  ∃ f' closed', Told (trace ++ handled.2.1) f' (closed ++ closed') ∧
    (handled.1.goesOn = true → Serves handled.2.2 (calls trace) f') ∧
    (handled.1.goesOn = false → f' = none) ∧ (handled.2.2.purge = true ↔ handled.1 = .purge)

section Handling

variable {trace events : List Event} {f : Option Incoming} {closed : List Incoming}
  {rcvbuf : List UInt8} {len : Nat} {s : YmodemRecv}

theorem never_purging {P : Prop} (hpurge : s.purge = false) (h : s.purge = true) : P := by
  rw [hpurge] at h
  cases h

theorem Continues.more (told : Told (trace ++ events) f closed) (serves : Serves s (calls trace) f)
    (purge : s.purge = false) : Continues trace closed (.more, events, s) := by
  refine ⟨f, [], ?_, fun _ => serves, fun h => (by cases h), ?_⟩
  · rw [List.append_nil]
    exact told
  · rw [purge]
    exact ⟨fun h => (by cases h), fun h => (by cases h)⟩

theorem Continues.over (closed' : List Incoming) {sta : RecvStatus}
    (told : Told (trace ++ events) none (closed ++ closed')) (hsta : sta.goesOn = false)
    (purge : s.purge = false) : Continues trace closed (sta, events, s) := by
  refine ⟨none, closed', told, fun h => ?_, fun _ => rfl, ?_⟩
  · rw [hsta] at h
    cases h
  · rw [purge]
    refine ⟨fun h => (by cases h), fun h => ?_⟩
    dsimp only at h
    rw [h] at hsta
    cases hsta

theorem Continues.purging (told : Told trace f closed) (serves : Serves s (calls trace) f)
    (purge : s.purge = true) : Continues trace closed (.purge, [], s) := by
  refine ⟨f, [], ?_, fun _ => serves, fun h => (by cases h), fun _ => rfl, fun _ => purge⟩
  rw [List.append_nil, List.append_nil]
  exact told

/-- `open` did not succeed. -/
theorem Continues.openCancel (told : Told trace none closed) (name : List UInt8) {rtn : Int}
    (failed : rtn ≠ 0) (purge : s.purge = false) :
    Continues trace closed
      (.openCancel, [.openFile name rtn, .putc nkYmCan, .putc nkYmCan], s) := by
  apply Continues.over []
  · rw [List.append_nil, List.append_cons, List.append_cons]
    exact ((told.refused failed).putc nkYmCan).putc nkYmCan
  · rfl
  · exact purge

/-- The checks of a packet look at nothing behind it. -/
theorem dataPacket_take (hlen : len ≤ rcvbuf.length) :
    dataPacket (rcvbuf.take len) (rcvbuf.take len).length = dataPacket rcvbuf len := by
  rw [List.length_take, Nat.min_eq_left hlen]
  rcases Nat.lt_or_ge len 3 with hlt | hpos
  · have hshort : (len == nkYmShortPacketLen) = false :=
      beq_false_of_ne (Nat.ne_of_lt (Nat.lt_trans hlt (by decide)))
    have hlong : (len == nkYmLongPacketLen) = false :=
      beq_false_of_ne (Nat.ne_of_lt (Nat.lt_trans hlt (by decide)))
    rw [dataPacket, dataPacket, hshort, hlong]
    rfl
  · have hbyte (i : Nat) (hi : i < 3) : (rcvbuf.take len).getD i 0 = rcvbuf.getD i 0 := by
      simp [List.getD_eq_getElem?_getD, Nat.lt_of_lt_of_le hi hpos]
    have hpayload : ((rcvbuf.take len).drop 3).take (len - 3) = (rcvbuf.drop 3).take (len - 3) := by
      rw [List.drop_take, List.take_take, Nat.min_self]
    simp only [dataPacket, goodPacket, ymcrcCheck, hbyte 0 (by decide), hbyte 1 (by decide),
      hbyte 2 (by decide), hpayload]

theorem take_one_eq {c : UInt8} (hlen : 1 ≤ rcvbuf.length) (hbyte : rcvbuf.getD 0 0 = c) :
    rcvbuf.take 1 = [c] := by
  cases rcvbuf with
  | nil => cases hlen
  | cons first rest =>
      rw [← hbyte]
      rfl

/-- At most the rest of the file is written. -/
theorem writeData_spec (rcvbuf : List UInt8) (thisSize : Nat) (s : YmodemRecv) :
    (writeData rcvbuf thisSize s).1 = (if min thisSize s.fileSize = 0 then []
      else [.write ((rcvbuf.drop 3).take (min thisSize s.fileSize))]) ∧
    (writeData rcvbuf thisSize s).2 = { s with fileSize := s.fileSize - thisSize } := by
  unfold writeData
  rcases Nat.lt_or_ge s.fileSize thisSize with hmore | hfits
  · rw [if_pos hmore, Nat.min_eq_right (Nat.le_of_lt hmore),
      Nat.sub_eq_zero_of_le (Nat.le_of_lt hmore)]
    exact ⟨rfl, rfl⟩
  · rw [if_neg (Nat.not_lt.mpr hfits), Nat.min_eq_left hfits]
    exact ⟨rfl, rfl⟩

theorem packetData_length {thisSize : Nat} (hroom : thisSize + 5 ≤ rcvbuf.length) :
    (packetData (rcvbuf.take (thisSize + 5))).length = thisSize := by
  simp only [packetData, List.length_take, List.length_drop]
  omega

/-- The next block is written as far as it belongs to the file. -/
theorem Told.written {f : Incoming} (told : Told trace (some f) closed) {thisSize : Nat}
    (hroom : thisSize + 5 ≤ rcvbuf.length) (s : YmodemRecv) :
    Told (trace ++ (writeData rcvbuf thisSize s).1)
      (some { f with
        data := f.data ++ (packetData (rcvbuf.take (thisSize + 5))).take s.fileSize }) closed := by
  have hdata : (packetData (rcvbuf.take (thisSize + 5))).take s.fileSize =
      (rcvbuf.drop 3).take (min thisSize s.fileSize) := by
    have hlength : (rcvbuf.take (thisSize + 5)).length - 5 = thisSize := by
      rw [List.length_take, Nat.min_eq_left hroom, Nat.add_sub_cancel]
    rw [packetData, hlength, List.drop_take, List.take_take, List.take_take]
    congr 1
    omega
  rw [(writeData_spec rcvbuf thisSize s).1, hdata]
  split
  · rename_i hzero
    rw [hzero, List.take_zero, List.append_nil, List.append_nil]
    exact told
  · rename_i hne
    apply told.write
    intro hnil
    have hlength := congrArg List.length hnil
    rw [List.length_take, List.length_drop, List.length_nil] at hlength
    omega

/-- One more block. -/
theorem take_flatten_snoc (blocks : List (List UInt8)) (block : List UInt8) (size : Nat) :
    (blocks ++ [block]).flatten.take size =
      blocks.flatten.take size ++ block.take (size - blocks.flatten.length) := by
  rw [List.flatten_append, List.flatten_singleton, List.take_append]

/-- The first packet of a file, with a header or without, is a short data packet. -/
theorem firstPacket_isData {seq : UInt8} (hfirst : firstPacket rcvbuf len seq = true)
    (hlen : len ≤ rcvbuf.length) (hshort : len ≠ nkYmLongPacketLen) :
    len = nkYmShortPacketLen ∧ packetSeq (rcvbuf.take len) = seq ∧ IsData (rcvbuf.take len) := by
  simp only [firstPacket, Bool.and_eq_true, Bool.or_eq_true, beq_iff_eq] at hfirst
  obtain ⟨⟨⟨hsize, hsoh⟩, hseq⟩, hgood⟩ := hfirst
  obtain rfl : len = nkYmShortPacketLen := hsize.resolve_right hshort
  refine ⟨rfl, ?_, ?_⟩
  · rw [← hseq]
    simp [packetSeq, List.getD_eq_getElem?_getD, nkYmShortPacketLen]
  · rw [IsData, dataPacket_take hlen, dataPacket, hgood, hsoh]
    rfl

/-- The payload and the CRC of a packet are in front of what is behind it in the buffer. -/
theorem drop_take_isPrefix (rcvbuf : List UInt8) (len : Nat) :
    (rcvbuf.take len).drop 3 <+: rcvbuf.drop 3 := by
  rw [List.drop_take]
  exact List.take_prefix _ _

/-- A packet that is handled before a file is open. -/
theorem rcvHeader_continues (file : NkYrecvStruct) (told : Told trace none closed)
    (hlen : len ≤ rcvbuf.length) (hlast : [rcvbuf.take len] <:+ calls trace)
    (hshape : len = nkYmLongPacketLen → rcvbuf.getD 0 0 ≠ nkYmSoh)
    (hopened : s.opened = false) (heot : s.gotEot = false) (hxmodem : s.xmodem = false)
    (hpurge : s.purge = false) : Continues trace closed (rcvHeader file rcvbuf len s) := by
  have hnothing : Told (trace ++ []) none closed := by
    rw [List.append_nil]
    exact told
  have hnever {P : Prop} : s.purge = true → P := never_purging hpurge
  unfold rcvHeader
  split
  · -- Nothing came
    split
    · exact .more hnothing (.waiting hopened heot hxmodem) hpurge
    · exact .more (told.putc nkYmReq) (.waiting rfl rfl rfl) rfl
  · split
    · split
      · exact .over [] (by rwa [List.append_nil closed]) rfl hpurge
      · exact .more hnothing (.waiting hopened heot hxmodem) hpurge
    · have hfirst {seq : UInt8} (hfirst : firstPacket rcvbuf len seq = true) :
          len = nkYmShortPacketLen ∧ packetSeq (rcvbuf.take len) = seq ∧
            IsData (rcvbuf.take len) := by
        apply firstPacket_isData hfirst hlen
        intro hlong
        apply hshape hlong
        simp only [firstPacket, Bool.and_eq_true, beq_iff_eq] at hfirst
        exact hfirst.1.1.2
      split
      · rename_i hheader
        obtain ⟨-, hseq, hdata⟩ := hfirst hheader
        dsimp only
        split
        · exact .over [] (by rw [List.append_nil closed]; exact told.putc nkYmAck) rfl
            hpurge
        · split
          · rename_i hrtn
            apply Continues.more
            · rw [hrtn, List.append_cons]
              exact (told.opened hlast hdata hseq (drop_take_isPrefix _ _)).putc nkYmAck
            · exact .receiving [] rfl ⟨.none, List.take_nil.symm, rfl, rfl, rfl⟩ hxmodem
                (fun h => by rw [heot] at h; cases h) (fun h => by cases h) hnever
            · exact hpurge
          · rename_i hrtn
            exact .openCancel told _ hrtn hpurge
      · split
        · rename_i hblock
          obtain ⟨rfl, hseq, hdata⟩ := hfirst hblock
          dsimp only
          split
          · rename_i hrtn
            have hlength : (packetData (rcvbuf.take nkYmShortPacketLen)).length = 128 :=
              packetData_length hlen
            apply Continues.more
            · rw [hrtn, List.cons_append, List.append_cons, ← List.append_assoc]
              exact ((told.anonymous hlast hdata hseq).written hlen _).putc nkYmAck
            · rw [(writeData_spec _ _ _).2]
              refine .receiving [packetData (rcvbuf.take nkYmShortPacketLen)] rfl ?_ rfl
                (fun h => by rw [heot] at h; cases h) (fun h => by cases h) hnever
              refine ⟨.next .none hseq, ?_, ?_, rfl, rfl⟩
              · rw [List.flatten_singleton]
                rfl
              · rw [List.flatten_singleton]
                exact congrArg (0xffffffff - ·) hlength.symm
            · rw [(writeData_spec _ _ _).2]
              exact hpurge
          · rename_i hrtn
            exact .openCancel told _ hrtn hpurge
        · exact .purging told (.waiting hopened heot hxmodem) rfl

/-- A data packet has more than the three bytes of its header and its CRC. -/
theorem dataPacket_length (hpacket : dataPacket rcvbuf len = true) :
    ∃ thisSize, len = thisSize + 5 := by
  simp only [dataPacket, Bool.and_eq_true, Bool.or_eq_true, beq_iff_eq] at hpacket
  rcases hpacket.1 with ⟨rfl, -⟩ | ⟨rfl, -⟩
  · exact ⟨128, rfl⟩
  · exact ⟨1024, rfl⟩

/-- A data packet comes while a file is open. -/
theorem rcvOpened_data {file : Incoming} (told : Told trace (some file) closed)
    (serves : Serves s (calls trace) (some file)) (hlen : len ≤ rcvbuf.length)
    (hpurge : s.purge = false) (hpacket : dataPacket rcvbuf len = true) :
    Continues (trace ++ [.rcv (rcvbuf.take len)]) closed (rcvOpened rcvbuf len s) := by
  cases serves with
  | receiving blocks hopened counts hxmodem heot hcan =>
  have hnever {P : Prop} : s.purge = true → P := never_purging hpurge
  obtain ⟨thisSize, rfl⟩ := dataPacket_length hpacket
  have hcancel : ¬ (thisSize + 5 = 1 ∧ rcvbuf.getD 0 0 = nkYmCan) := by omega
  rw [rcvOpened, if_neg (Nat.succ_ne_zero _), if_neg hcancel, if_pos hpacket]
  have hdata : IsData (rcvbuf.take (thisSize + 5)) := by
    rw [IsData, dataPacket_take hlen]
    exact hpacket
  have hseq : packetSeq (rcvbuf.take (thisSize + 5)) = rcvbuf.getD 1 0 := by
    have hlt : 1 < thisSize + 5 := by omega
    simp [packetSeq, List.getD_eq_getElem?_getD, hlt]
  have htold := told.data hdata
  dsimp only
  split
  · -- Missed ACK
    rename_i hold
    apply Continues.more
    · exact htold.putc nkYmAck
    · refine .receiving blocks hopened ⟨.again counts.order ?_, counts.data, counts.fileSize,
        counts.seq, counts.oldSeq⟩ hxmodem (fun h => by cases h) (fun h => by cases h) hnever
      rw [hseq, hold]
      exact counts.oldSeq
    · exact hpurge
  · rename_i hold
    split
    · -- Out of sync
      rename_i hnext
      apply Continues.over []
      · rw [List.append_nil, List.append_cons, List.append_cons]
        apply ((htold.putc nkYmCan).putc nkYmCan).cancel
        refine Or.inr (counts.order.not_snoc ?_ ?_)
        · rw [hseq, ← counts.oldSeq]
          exact hold
        · rw [hseq, ← counts.seq]
          exact hnext
      · rfl
      · exact hpurge
    · rename_i hnext
      have hlength := packetData_length hlen
      simp only [Nat.add_sub_cancel]
      apply Continues.more
      · rw [← List.append_assoc]
        exact (htold.written hlen _).putc nkYmAck
      · rw [(writeData_spec _ _ _).2]
        refine .receiving (blocks ++ [packetData (rcvbuf.take (thisSize + 5))]) hopened
          ⟨.next counts.order ?_, ?_, ?_, ?_, ?_⟩ hxmodem (fun h => by cases h)
          (fun h => by cases h) hnever
        · rw [hseq, ← counts.seq]
          exact Decidable.of_not_not hnext
        · rw [take_flatten_snoc, ← counts.data, ← counts.fileSize]
        · rw [List.flatten_append, List.flatten_singleton, List.length_append, hlength,
            ← Nat.sub_sub, ← counts.fileSize]
        · rw [List.length_append, List.length_singleton, UInt8.ofNat_add, ← counts.seq]
          rfl
        · rw [List.length_append, List.length_singleton]
          exact counts.seq
      · rw [(writeData_spec _ _ _).2]
        exact hpurge

/-- EOT comes while a file is open. -/
theorem rcvOpened_eot {file : Incoming} (told : Told trace (some file) closed)
    (serves : Serves s (calls trace) (some file)) (hlen : 1 ≤ rcvbuf.length)
    (hpurge : s.purge = false) (hbyte : rcvbuf.getD 0 0 = nkYmEot) :
    Continues (trace ++ [.rcv (rcvbuf.take 1)]) closed (rcvOpened rcvbuf 1 s) := by
  cases serves with
  | receiving blocks hopened counts hxmodem heot hcan =>
  have hnever {P : Prop} : s.purge = true → P := never_purging hpurge
  have hpacket : rcvbuf.take 1 = [nkYmEot] := take_one_eq hlen hbyte
  have hother : ¬ IsData (rcvbuf.take 1) := by
    rw [hpacket]
    exact Bool.false_ne_true
  have htold := told.other (Or.inr hother)
  have hcancel : ¬ (1 = 1 ∧ rcvbuf.getD 0 0 = nkYmCan) := by
    rw [hbyte]
    decide
  have hshort : ¬ dataPacket rcvbuf 1 = true := by
    intro hpacket
    obtain ⟨thisSize, hlength⟩ := dataPacket_length hpacket
    omega
  rw [rcvOpened, if_neg Nat.one_ne_zero, if_neg hcancel, if_neg hshort, if_pos ⟨rfl, hbyte⟩]
  have hclose : (if file.anonymous then [[nkYmEot]] else [[nkYmEot], [nkYmEot]]) <:+
      calls (trace ++ [.rcv (rcvbuf.take 1)]) →
      Told (trace ++ [.rcv (rcvbuf.take 1)] ++ [.close, .putc nkYmAck]) none
        (closed ++ [file]) := by
    intro hended
    rw [List.append_cons]
    exact (htold.close ⟨blocks, counts.order, counts.data⟩ hended).putc nkYmAck
  dsimp only
  split
  · rename_i hanonymous
    apply Continues.over [file]
    · apply hclose
      rw [← hxmodem, hanonymous, calls_rcv, hpacket]
      exact List.suffix_append _ _
    · rfl
    · exact hpurge
  · rename_i hnamed
    split
    · rename_i hsecond
      have htold' := hclose (by
        rw [← hxmodem, if_neg hnamed, calls_rcv, hpacket]
        exact List.suffix_append_self_iff.mpr (heot hsecond))
      refine ⟨none, [file], ?_, fun _ => .waiting rfl rfl rfl, fun _ => rfl, ?_⟩
      · have hasked := htold'.putc nkYmReq
        rw [List.append_assoc] at hasked
        exact hasked
      · simp [ymodemRecvInit]
    · apply Continues.more
      · exact htold.putc nkYmNak
      · refine .receiving blocks hopened counts hxmodem (fun _ => ?_)
          (fun h => by cases h) hnever
        rw [calls_rcv, hpacket]
        exact List.suffix_append _ _
      · exact hpurge

/-- A packet that is handled while a file is open. -/
theorem rcvOpened_continues {file : Incoming} (told : Told trace (some file) closed)
    (serves : Serves s (calls trace) (some file)) (hlen : len ≤ rcvbuf.length)
    (hpurge : s.purge = false) :
    Continues (trace ++ [.rcv (rcvbuf.take len)]) closed (rcvOpened rcvbuf len s) := by
  rcases Bool.eq_false_or_eq_true (dataPacket rcvbuf len) with hpacket | hpacket
  · exact rcvOpened_data told serves hlen hpurge hpacket
  rcases Decidable.em (len = 1 ∧ rcvbuf.getD 0 0 = nkYmEot) with ⟨rfl, hbyte⟩ | hnoEot
  · exact rcvOpened_eot told serves hlen hpurge hbyte
  cases serves with
  | receiving blocks hopened counts hxmodem heot hcan =>
  have hnever {P : Prop} : s.purge = true → P := never_purging hpurge
  have hother : ¬ IsData (rcvbuf.take len) := by
    rw [IsData, dataPacket_take hlen, hpacket]
    exact Bool.false_ne_true
  have htold := told.other (Or.inr hother)
  rw [rcvOpened, if_neg (ne_true_of_eq_false hpacket), if_neg hnoEot]
  split
  · -- Nothing came
    apply Continues.more
    · exact htold.putc _
    · exact .receiving blocks hopened counts hxmodem (fun h => by cases h) (fun h => by cases h)
        hnever
    · exact hpurge
  · split
    · -- Transmit side is canceling
      rename_i hcancel
      have hcan' : rcvbuf.take len = [nkYmCan] := by
        obtain ⟨rfl, hbyte⟩ := hcancel
        exact take_one_eq hlen hbyte
      dsimp only
      split
      · rename_i hsecond
        apply Continues.over []
        · rw [List.append_nil]
          apply htold.cancel
          refine Or.inl ?_
          rw [calls_rcv, hcan']
          exact List.suffix_append_self_iff.mpr (hcan hsecond)
        · rfl
        · exact hpurge
      · apply Continues.more (f := some file)
        · rw [List.append_nil]
          exact htold
        · refine .receiving blocks hopened counts hxmodem (fun h => by cases h) (fun _ => ?_) hnever
          rw [calls_rcv, hcan']
          exact List.suffix_append _ _
        · exact hpurge
    · -- Junk
      apply Continues.purging htold
      · exact .receiving blocks hopened counts hxmodem (fun h => by cases h)
          (fun h => by cases h) fun _ => ⟨rfl, rfl⟩
      · rfl

/-- `ymodem_rcv` for the packet behind a trace. -/
theorem ymodemRcv_continues {f : Option Incoming} (file : NkYrecvStruct)
    (told : Told trace f closed) (serves : Serves s (calls trace) f) (hlen : len ≤ rcvbuf.length)
    (hshape : len = nkYmLongPacketLen → rcvbuf.getD 0 0 ≠ nkYmSoh)
    (hpurge : s.purge = true → len = 0) :
    Continues (trace ++ [.rcv (rcvbuf.take len)]) closed (ymodemRcv file rcvbuf len s) := by
  unfold ymodemRcv
  split
  · rename_i hpurging
    obtain rfl := hpurge hpurging
    have hnone : ¬ IsData (rcvbuf.take 0) := Bool.false_ne_true
    rw [if_neg (Decidable.not_not.mpr rfl)]
    apply Continues.more
    · exact (told.other (Or.inr hnone)).putc nkYmReq
    · cases serves with
      | waiting opened gotEot xmodem => exact .waiting opened gotEot xmodem
      | receiving blocks opened counts xmodem gotEot can purging =>
          obtain ⟨hnoEot, hnoCan⟩ := purging hpurging
          exact .receiving blocks opened counts xmodem (fun h => by rw [hnoEot] at h; cases h)
            (fun h => by rw [hnoCan] at h; cases h) (fun h => by cases h)
    · rfl
  · rename_i hresting
    have hresting : s.purge = false := by simpa using hresting
    cases serves with
    | waiting hopened heot hxmodem =>
        rw [hopened]
        apply rcvHeader_continues file (told.other (Or.inl rfl)) hlen ?_ hshape hopened heot
          hxmodem hresting
        rw [calls_rcv]
        exact List.suffix_append _ _
    | receiving blocks hopened counts hxmodem heot hcan purging =>
        rw [hopened]
        exact rcvOpened_continues told
          (.receiving blocks hopened counts hxmodem heot hcan purging) hlen hresting

end Handling

/-! ## Runs -/

/-- The receiver agrees with the dialogue; no file is open outside of a transfer. -/
structure Desk (s : Yrecv) (active : Bool) (trace : List Event) (f : Option Incoming)
    (closed : List Incoming) : Prop where
  told : Told trace f closed
  serves : active = true → Serves s.rcv (calls trace) f
  purging : active = true → (s.rcv.purge = true ↔ s.yrecvMode = 3)
  idle : active = false → f = none

section Runs

variable {allowLong : Bool} {s : Yrecv} {active : Bool} {trace : List Event} {f : Option Incoming}
  {closed : List Incoming}

/-- A long packet starts with STX. -/
theorem Yrecv.not_long_soh (hlen : s.yrecvLen ≤ s.rcvbuf.length)
    (hshape : s.packet = [] ∨ Complete allowLong s.packet) :
    s.yrecvLen = nkYmLongPacketLen → s.rcvbuf.getD 0 0 ≠ nkYmSoh := by
  intro hlong hsoh
  have hlength : s.packet.length = nkYmLongPacketLen := by
    rw [Yrecv.packet, List.length_take, Nat.min_eq_left hlen, hlong]
  have hhead : s.packet.head? = some nkYmSoh := by
    have hpos : 0 < s.yrecvLen := by
      rw [hlong]
      decide
    have hlt : 0 < s.rcvbuf.length := Nat.lt_of_lt_of_le hpos hlen
    rw [Yrecv.packet, List.head?_take, if_neg (Nat.ne_of_gt hpos), List.head?_eq_getElem?,
      ← hsoh, List.getD_eq_getElem?_getD, List.getElem?_eq_getElem hlt, Option.getD_some]
  rcases hshape with hshape | hshape | hshape | ⟨hshape, -⟩ | ⟨-, -, hshape⟩
  · rw [hshape] at hlength
    cases hlength
  · rw [hshape] at hlength
    cases hlength
  · rw [hshape] at hlength
    cases hlength
  · exact absurd (hshape.symm.trans hlength) (by decide)
  · exact absurd (Option.some.inj (hhead.symm.trans hshape)) (by decide)

/-- A packet is handled. -/
theorem Desk.process (told : Told trace f closed) (serves : Serves s.rcv (calls trace) f)
    (hidx : s.lastIdx = 0) (hlen : s.yrecvLen ≤ s.file.packetBuffer.length)
    (hshape : s.packet = [] ∨ Complete allowLong s.packet)
    (hpurge : s.rcv.purge = true → s.yrecvLen = 0) :
    ∃ f' closed', Desk (processFullOuter s).2.2 (!(processFullOuter s).1)
      (trace ++ (processFullOuter s).2.1) f' (closed ++ closed') := by
  have hbuf : s.rcvbuf = s.file.packetBuffer := by
    rw [Yrecv.rcvbuf, hidx, List.drop_zero]
  have hlen' : s.yrecvLen ≤ s.rcvbuf.length := by
    rw [hbuf]
    exact hlen
  have hlong := Yrecv.not_long_soh hlen' hshape
  have hsilent := ymodemRcv_silent s.file s.rcvbuf s.yrecvLen s.rcv
  obtain ⟨f', closed', hdialogue, hgoes, hover, hpurging⟩ :=
    ymodemRcv_continues s.file told serves hlen' hlong hpurge
  obtain ⟨⟨sta, events, rcv⟩, hrcv⟩ : ∃ r, ymodemRcv s.file s.rcvbuf s.yrecvLen s.rcv = r :=
    ⟨_, rfl⟩
  rw [hrcv] at hsilent hdialogue hgoes hover hpurging
  have hserves : sta.goesOn = true → Serves rcv (calls (trace ++ .rcv s.packet :: events)) f' := by
    rw [List.append_cons, calls_silent hsilent]
    exact hgoes
  rw [← List.append_cons] at hdialogue
  simp only [processFullOuter, hrcv]
  cases sta with
  | purge =>
      exact ⟨f', closed', hdialogue, fun _ => hserves rfl, fun _ => by simpa using hpurging,
        fun h => by cases h⟩
  | more =>
      exact ⟨f', closed', hdialogue, fun _ => hserves rfl, fun _ => by simpa using hpurging,
        fun h => by cases h⟩
  | done =>
      obtain rfl := hover rfl
      have hdone := hdialogue.allDone
      rw [List.append_assoc] at hdone
      exact ⟨none, closed', hdone, fun h => (by cases h), fun h => (by cases h), fun _ => rfl⟩
  | remoteCancel | openCancel | syncCancel =>
      obtain rfl := hover rfl
      exact ⟨none, closed', hdialogue, fun h => (by cases h), fun h => (by cases h), fun _ => rfl⟩

/-- Purging neither starts nor ends with a stored character. -/
theorem classify_rcv (allowLong : Bool) (c : UInt8) (s : Yrecv) :
    (s.classify allowLong c).2.rcv = s.rcv ∧
      ((s.classify allowLong c).2.yrecvMode = 3 ↔ s.yrecvMode = 3) ∧
      (s.classify allowLong c).2.yrecvLen ≤ s.yrecvLen ∧
      (s.classify allowLong c).2.file = s.file := by
  unfold Yrecv.classify
  split_ifs <;> simp_all

/-- One received character. -/
theorem Desk.recvChar (inv : Inv allowLong s true trace) (desk : Desk s true trace f closed)
    (c : UInt8) :
    ∃ f' closed', Desk (recvChar allowLong c s).2.2 (!(recvChar allowLong c s).1)
      (trace ++ (recvChar allowLong c s).2.1) f' (closed ++ closed') := by
  have hlt := Nat.lt_of_lt_of_le inv.collecting.len_lt (inv.room rfl)
  obtain ⟨gotit, s', hclass, hfile, hidx', hgotit, hpart⟩ :=
    classify_spec inv.collecting inv.lastIdx hlt c
  obtain ⟨hrcv, hmode, hle, -⟩ := classify_rcv allowLong c (s.put c)
  rw [hclass] at hrcv hmode hle
  have htold : Told (trace ++ [.received c] ++ [.store (s.lastIdx + s.yrecvLen) c]) f closed :=
    (desk.told.outside rfl).outside rfl
  have hcalls : calls (trace ++ [.received c] ++ [.store (s.lastIdx + s.yrecvLen) c]) =
      calls trace := by
    simp [calls]
  have hserves : Serves s'.rcv
      (calls (trace ++ [.received c] ++ [.store (s.lastIdx + s.yrecvLen) c])) f := by
    rw [hcalls, hrcv]
    exact desk.serves rfl
  have hpurging : s'.rcv.purge = true ↔ s'.yrecvMode = 3 := by
    rw [hrcv, hmode]
    exact desk.purging rfl
  simp only [Ymodem.recvChar, hclass]
  cases gotit with
  | true =>
      obtain ⟨hrest, hpacket, hcomplete⟩ := hgotit rfl
      have hlen : s'.yrecvLen ≤ s'.file.packetBuffer.length := by
        rw [hfile]
        simp only [Yrecv.put, List.length_set] at hle ⊢
        omega
      have hpurge : s'.rcv.purge = true → s'.yrecvLen = 0 := by
        intro hpurge
        rw [hpurging, hrest] at hpurge
        cases hpurge
      have hprocess := Desk.process htold hserves hidx' hlen (Or.inr hcomplete) hpurge
      simpa using hprocess
  | false =>
      rw [List.append_assoc] at htold hserves
      refine ⟨f, [], ?_, fun _ => hserves, fun _ => hpurging, fun h => by cases h⟩
      rw [List.append_nil]
      exact htold

/-- The characters of one activation. -/
theorem Desk.recvChars (inv : Inv allowLong s true trace) (desk : Desk s true trace f closed)
    (chars : List UInt8) :
    ∃ f' closed', Desk (recvChars allowLong chars s).2.2 (!(recvChars allowLong chars s).1)
      (trace ++ (recvChars allowLong chars s).2.1) f' (closed ++ closed') := by
  induction chars generalizing s trace f closed with
  | nil =>
      refine ⟨f, [], ?_⟩
      rw [List.append_nil]
      simpa [Ymodem.recvChars] using desk
  | cons c chars ih =>
      have hinv := inv.recvChar c
      obtain ⟨f', closed', hdesk⟩ := desk.recvChar inv c
      obtain ⟨⟨finished, events, s'⟩, hchar⟩ : ∃ r, Ymodem.recvChar allowLong c s = r := ⟨_, rfl⟩
      rw [hchar] at hinv hdesk
      simp only [Ymodem.recvChars, hchar]
      cases finished with
      | true => exact ⟨f', closed', hdesk⟩
      | false =>
          obtain ⟨f'', closed'', hrest⟩ := ih hinv hdesk
          refine ⟨f'', closed' ++ closed'', ?_⟩
          rw [← List.append_assoc]
          simpa [List.append_assoc] using hrest

theorem Desk.recvTimeout (inv : Inv allowLong s true trace) (desk : Desk s true trace f closed) :
    ∃ f' closed', Desk (recvTimeout s).2.2 (!(recvTimeout s).1) (trace ++ (recvTimeout s).2.1) f'
      (closed ++ closed') := by
  have htold : Told (trace ++ [.timeout]) f closed := desk.told.outside rfl
  have hcalls : calls (trace ++ [.timeout]) = calls trace := by
    simp [calls]
  have hserves : Serves s.rcv (calls (trace ++ [.timeout])) f := by
    rw [hcalls]
    exact desk.serves rfl
  have hshape : Yrecv.packet { s with yrecvLen := 0 } = [] ∨
      Complete allowLong (Yrecv.packet { s with yrecvLen := 0 }) := Or.inl List.take_zero
  have hprocess := Desk.process (s := { s with yrecvLen := 0 }) htold hserves inv.lastIdx
    (Nat.zero_le _) hshape fun _ => rfl
  simpa [Ymodem.recvTimeout] using hprocess

/-- Every run keeps to the dialogue. -/
theorem Run.desk (run : Run allowLong s active trace) :
    ∃ f closed, Desk s active trace f closed := by
  induction run with
  | boot file =>
      exact ⟨none, [], .nothing, fun h => (by cases h), fun h => (by cases h), fun _ => rfl⟩
  | @nkYrecv s trace before file room ih =>
      obtain ⟨f, closed, desk⟩ := ih
      obtain rfl := desk.idle rfl
      have hmode := (before.inv.idle rfl).1
      refine ⟨none, closed, ?_, fun _ => .waiting rfl rfl rfl, fun _ => ?_, fun _ => rfl⟩
      · have htold : Told (trace ++ [.start] ++ [.putc nkYmReq]) none closed :=
          (desk.told.outside rfl).putc nkYmReq
        rw [List.append_assoc] at htold
        exact htold
      · simp [Ymodem.nkYrecv, ymodemRecvInit, hmode]
  | chars before chars ih =>
      obtain ⟨f, closed, desk⟩ := ih
      obtain ⟨f', closed', hdesk⟩ := desk.recvChars before.inv chars
      exact ⟨f', closed ++ closed', hdesk⟩
  | timeout before ih =>
      obtain ⟨f, closed, desk⟩ := ih
      obtain ⟨f', closed', hdesk⟩ := desk.recvTimeout before.inv
      exact ⟨f', closed ++ closed', hdesk⟩

/-- A file is closed only when it has been received. -/
theorem Told.closed_received (told : Told trace f closed) : ∀ file ∈ closed, file.Received := by
  induction told with
  | nothing =>
      intro file hmem
      cases hmem
  | close before received ended ih =>
      intro file hmem
      rcases List.mem_append.mp hmem with hmem | hmem
      · exact ih file hmem
      · rw [List.mem_singleton.mp hmem]
        exact received
  | _ => assumption

/-- In every run, whatever characters come in, the file handler is called as `nkymodem.h`
says: a file is opened only while none is open, for a header with number 0 or a first block
with number 1; it is written and closed only while it is open, and none is open when no
transfer is active.  What has been written to a file, open or closed, is the data of the
packets that came for it in the order of their numbers, each taken once, up to the
announced size. -/
theorem run_told (run : Run allowLong s active trace) :
    ∃ f closed, Told trace f closed ∧ (active = false → f = none) ∧
      (∀ file, f = some file → file.Received) ∧ ∀ file ∈ closed, file.Received := by
  obtain ⟨f, closed, desk⟩ := run.desk
  refine ⟨f, closed, desk.told, desk.idle, ?_, desk.told.closed_received⟩
  rintro file rfl
  cases active with
  | false => cases desk.idle rfl
  | true =>
      have hserves := desk.serves rfl
      cases hserves with
      | receiving blocks opened counts xmodem gotEot can purging =>
          exact ⟨_, counts.order, counts.data⟩

end Runs

/-- The only block of a file of 5 bytes. -/
def helloPacket : List UInt8 :=
  [0x01, 0x01, 0xfe, 104, 101, 108, 108, 111] ++ List.replicate 123 0 ++ [0xa5, 0x46]

/-- A transfer of that file; the block comes twice, and there is noise in front. -/
def helloTransfer : List UInt8 :=
  [65] ++ fivePacket ++ helloPacket ++ helloPacket ++ [nkYmEot, nkYmEot] ++ [0x01, 0x00, 0xff] ++
    List.replicate 130 0

/-- The events of a transfer of one file. -/
def helloEvents : List Event :=
  let start := nkYrecv ⟨List.replicate 1029 0, [], fun _ => 0⟩ (.zeroed ⟨[], [], fun _ => 0⟩)
  start.1 ++ (recvChars true helloTransfer start.2).2.1

theorem helloEvents_run : ∃ s, Run true s false helloEvents := by
  have hboot : Run true _ false [] := .boot ⟨[], [], fun _ => 0⟩
  have hstart := hboot.nkYrecv
    ⟨List.replicate 1029 0, [], fun _ => 0⟩ (by rw [List.length_replicate]; decide)
  have hrun := hstart.chars helloTransfer
  rw [show (recvChars true helloTransfer _).1 = true by decide +kernel] at hrun
  exact ⟨_, hrun⟩

theorem run_told_hello :
    ∃ s trace f closed, Run true s false trace ∧ .write [104, 101, 108, 108, 111] ∈ trace ∧
      .close ∈ trace ∧ Told trace f closed ∧ f = none ∧ ∀ file ∈ closed, file.Received := by
  obtain ⟨s, hrun⟩ := helloEvents_run
  obtain ⟨f, closed, htold, hidle, -, hclosed⟩ := run_told hrun
  exact ⟨_, _, f, closed, hrun, by decide +kernel, by decide +kernel, htold, hidle rfl, hclosed⟩

end LibnklabsPico.Ymodem
