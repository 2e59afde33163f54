/-
  Ymodem/Packets.lean --- how received characters become packets.

  The trace of a run holds everything the receiver does in order.  `Sound` says
  of a whole trace that every store is inside the packet buffer and every call of
  `ymodem_rcv` is for a packet of the right shape made of the last characters
  received.  `Inv` ties the accumulator, whose variables outlive a transfer, to
  the trace.
-/
import LibnklabsPico.Ymodem.Nkymodem

set_option autoImplicit false

namespace LibnklabsPico.Ymodem

/-! ## Traces -/

/-- The characters received since the last timeout or the start of the transfer. -/
def quiet (trace : List Event) : List UInt8 :=
  trace.foldl
    (fun received event =>
      match event with
      | .start | .timeout => []
      | .received c => received ++ [c]
      | _ => received)
    []

/-- A CAN, an EOT, a short packet or a long one. -/
def Complete (allowLong : Bool) (packet : List UInt8) : Prop :=
  packet = [nkYmCan] ∨ packet = [nkYmEot] ∨
    packet.length = nkYmShortPacketLen ∧ packet.head? = some nkYmSoh ∨
    allowLong = true ∧ packet.length = nkYmLongPacketLen ∧ packet.head? = some nkYmStx

/-- What `ymodem_rcv` may be called for after a trace: nothing after a timeout,
or something complete made of the last characters received. -/
def CallOk (allowLong : Bool) (trace : List Event) (packet : List UInt8) : Prop :=
  packet = [] ∧ trace.getLast? = some .timeout ∨
    packet <:+ quiet trace ∧ Complete allowLong packet

/-- An event that may follow a trace. -/
def EventOk (allowLong : Bool) (trace : List Event) : Event → Prop
  | .store index _ => index < nkYmBufferSize allowLong
  | .rcv packet => CallOk allowLong trace packet
  | _ => True

/-- Every event of a trace may follow the events before it. -/
def Sound (allowLong : Bool) (trace : List Event) : Prop :=
  ∀ before event after, trace = before ++ event :: after → EventOk allowLong before event

/-- Events of the handler: they neither touch the packet buffer nor receive. -/
def Event.silent : Event → Bool
  | .putc _ | .openFile _ _ | .write _ | .close | .cancel | .allDone => true
  | _ => false

@[simp] theorem Event.silent_putc (c : UInt8) : (Event.putc c).silent = true := rfl
@[simp] theorem Event.silent_openFile (name : List UInt8) (rtn : Int) :
    (Event.openFile name rtn).silent = true := rfl
@[simp] theorem Event.silent_write (data : List UInt8) : (Event.write data).silent = true := rfl
@[simp] theorem Event.silent_close : Event.close.silent = true := rfl
@[simp] theorem Event.silent_cancel : Event.cancel.silent = true := rfl
@[simp] theorem Event.silent_allDone : Event.allDone.silent = true := rfl

section Traces

variable {allowLong : Bool} {trace : List Event}

@[simp] theorem quiet_append_received (trace : List Event) (c : UInt8) :
    quiet (trace ++ [.received c]) = quiet trace ++ [c] := by
  simp [quiet]

@[simp] theorem quiet_append_store (trace : List Event) (index : Nat) (c : UInt8) :
    quiet (trace ++ [.store index c]) = quiet trace := by
  simp [quiet]

@[simp] theorem quiet_append_rcv (trace : List Event) (packet : List UInt8) :
    quiet (trace ++ [.rcv packet]) = quiet trace := by
  simp [quiet]

theorem Sound.nil : Sound allowLong [] := by
  intro before event after h
  cases before <;> cases h

theorem Sound.snoc (sound : Sound allowLong trace) (event : Event)
    (ok : EventOk allowLong trace event) : Sound allowLong (trace ++ [event]) := by
  intro before event' after h
  rcases List.eq_nil_or_concat after with rfl | ⟨after', last, rfl⟩
  · obtain ⟨rfl, heq⟩ := List.append_inj' h rfl
    cases heq
    exact ok
  · rw [List.concat_eq_append, ← List.cons_append, ← List.append_assoc] at h
    obtain ⟨rfl, -⟩ := List.append_inj' h rfl
    exact sound before event' after' rfl

/-- What the handler does is always allowed. -/
theorem Sound.append_silent (sound : Sound allowLong trace) {events : List Event}
    (silent : ∀ event ∈ events, event.silent = true) : Sound allowLong (trace ++ events) := by
  induction events generalizing trace with
  | nil => rwa [List.append_nil]
  | cons event events ih =>
      have hok : EventOk allowLong trace event := by
        have := silent event (by simp)
        cases event <;> trivial
      rw [← List.singleton_append, ← List.append_assoc]
      exact ih (sound.snoc event hok) fun e he => silent e (by simp [he])

end Traces

/-! ## Handling a packet -/

section Handling

variable (file : NkYrecvStruct) (rcvbuf : List UInt8) (len : Nat) (s : YmodemRecv)

theorem writeData_silent (thisSize : Nat) :
    ∀ event ∈ (writeData rcvbuf thisSize s).1, event.silent = true := by
  simp only [writeData]
  split <;> split <;> simp

theorem rcvHeader_silent :
    ∀ event ∈ (rcvHeader file rcvbuf len s).2.1, event.silent = true := by
  simp only [rcvHeader, ymodemRecvInit]
  split_ifs <;> simp
  rintro event (hmem | rfl)
  · exact writeData_silent rcvbuf _ 128 event hmem
  · rfl

theorem rcvOpened_silent : ∀ event ∈ (rcvOpened rcvbuf len s).2.1, event.silent = true := by
  simp only [rcvOpened, ymodemRecvInit]
  split_ifs <;> simp
  rintro event (hmem | rfl)
  · exact writeData_silent rcvbuf _ _ event hmem
  · rfl

/-- Handling a packet does not touch the packet buffer. -/
theorem ymodemRcv_silent : ∀ event ∈ (ymodemRcv file rcvbuf len s).2.1, event.silent = true := by
  unfold ymodemRcv
  split_ifs
  · simp
  · simp
  · exact rcvHeader_silent file rcvbuf len s
  · exact rcvOpened_silent rcvbuf len s

/-- A timeout never ends a transfer and never starts purging. -/
theorem ymodemRcv_timeout : (ymodemRcv file rcvbuf 0 s).1 = .more := by
  unfold ymodemRcv rcvHeader rcvOpened
  split_ifs <;> first | rfl | contradiction

end Handling

/-! ## The accumulator -/

/-- The characters of the packet so far. -/
def Yrecv.packet (s : Yrecv) : List UInt8 := s.rcvbuf.take s.yrecvLen

/-- The mode agrees with the length and the first character. -/
inductive Collecting (allowLong : Bool) (s : Yrecv) : Prop where
  | empty (mode : s.yrecvMode = 0 ∨ s.yrecvMode = 3) (len : s.yrecvLen = 0)
  | short (mode : s.yrecvMode = 1) (pos : 0 < s.yrecvLen) (lt : s.yrecvLen < nkYmShortPacketLen)
      (first : s.packet.head? = some nkYmSoh)
  | long (mode : s.yrecvMode = 2) (allowed : allowLong = true) (pos : 0 < s.yrecvLen)
      (lt : s.yrecvLen < nkYmLongPacketLen) (first : s.packet.head? = some nkYmStx)

/-- The accumulator agrees with the trace. -/
structure Inv (allowLong : Bool) (s : Yrecv) (active : Bool) (trace : List Event) : Prop where
  sound : Sound allowLong trace
  lastIdx : s.lastIdx = 0
  room : active = true → nkYmBufferSize allowLong ≤ s.file.packetBuffer.length
  collecting : Collecting allowLong s
  suffix : s.packet <:+ quiet trace
  idle : active = false → s.yrecvMode = 0 ∧ s.yrecvLen = 0

section Accumulator

variable {allowLong : Bool} {s : Yrecv} {active : Bool} {trace : List Event}

theorem Collecting.len_lt (collecting : Collecting allowLong s) :
    s.yrecvLen < nkYmBufferSize allowLong := by
  have hshort : nkYmShortPacketLen ≤ nkYmBufferSize allowLong := by
    cases allowLong <;> decide
  have hpos : 0 < nkYmShortPacketLen := by decide
  cases collecting with
  | empty mode len => omega
  | short mode pos lt first => omega
  | long mode allowed pos lt first => rwa [allowed]

/-- A stored character comes behind those of the packet so far. -/
theorem Yrecv.packet_put (hidx : s.lastIdx = 0) (hlt : s.yrecvLen < s.file.packetBuffer.length)
    (c : UInt8) : (s.put c).packet = s.packet ++ [c] := by
  simp only [packet, rcvbuf, put, hidx, List.drop_zero, Nat.zero_add]
  rw [List.take_succ_eq_append_getElem (by simpa using hlt), List.take_set_of_le (Nat.le_refl _),
    List.getElem_set_self]

/-- What `process_full_outer` does with a packet: it calls `ymodem_rcv` for it,
leaves an empty packet and, unless the transfer is finished, waits for the next
one or purges. -/
theorem processFullOuter_spec (s : Yrecv) :
    ∃ finished events s', processFullOuter s = (finished, .rcv s.packet :: events, s') ∧
      (∀ event ∈ events, event.silent = true) ∧
      s'.file = s.file ∧ s'.lastIdx = s.lastIdx ∧ s'.yrecvLen = 0 ∧
      (finished = true → s'.yrecvMode = s.yrecvMode ∧ s.yrecvLen ≠ 0) ∧
      (finished = false → s'.yrecvMode = 0 ∨ s'.yrecvMode = 3) := by
  have hsilent := ymodemRcv_silent s.file s.rcvbuf s.yrecvLen s.rcv
  have hend : (ymodemRcv s.file s.rcvbuf s.yrecvLen s.rcv).1 ≠ .more → s.yrecvLen ≠ 0 := by
    intro hsta hzero
    rw [hzero] at hsta
    exact hsta (ymodemRcv_timeout s.file s.rcvbuf s.rcv)
  obtain ⟨⟨sta, events, rcv⟩, hrcv⟩ : ∃ r, ymodemRcv s.file s.rcvbuf s.yrecvLen s.rcv = r :=
    ⟨_, rfl⟩
  rw [hrcv] at hsilent hend
  simp only [processFullOuter, hrcv]
  cases sta with
  | purge => exact ⟨_, _, _, rfl, hsilent, rfl, rfl, rfl, by simp, by simp⟩
  | more => exact ⟨_, _, _, rfl, hsilent, rfl, rfl, rfl, by simp, by simp⟩
  | done =>
      refine ⟨_, _, _, rfl, ?_, rfl, rfl, rfl, fun _ => ⟨rfl, hend (by simp)⟩, by simp⟩
      intro event hmem
      rcases List.mem_append.mp hmem with hmem | hmem
      · exact hsilent event hmem
      · rw [List.mem_singleton.mp hmem]
        rfl
  | remoteCancel | openCancel | syncCancel =>
      exact ⟨_, _, _, rfl, hsilent, rfl, rfl, rfl, fun _ => ⟨rfl, hend (by simp)⟩, by simp⟩

/-- A packet that `ymodem_rcv` may be called for is handled, in a mode to which
the accumulator can return. -/
theorem Inv.process (sound : Sound allowLong trace) (hidx : s.lastIdx = 0)
    (room : nkYmBufferSize allowLong ≤ s.file.packetBuffer.length)
    (call : CallOk allowLong trace s.packet) (mode : s.yrecvLen ≠ 0 → s.yrecvMode = 0) :
    Inv allowLong (processFullOuter s).2.2 (!(processFullOuter s).1)
      (trace ++ (processFullOuter s).2.1) := by
  obtain ⟨finished, events, s', hprocess, hsilent, hfile, hidx', hlen, hfinished, hmore⟩ :=
    processFullOuter_spec s
  have hmode : s'.yrecvMode = 0 ∨ s'.yrecvMode = 3 := by
    cases hcase : finished with
    | true =>
        obtain ⟨hsame, hnonzero⟩ := hfinished hcase
        exact Or.inl (hsame.trans (mode hnonzero))
    | false => exact hmore hcase
  have hcalled : Sound allowLong (trace ++ [.rcv s.packet]) := sound.snoc _ call
  rw [hprocess]
  refine ⟨?_, hidx'.trans hidx, fun _ => hfile ▸ room, .empty hmode hlen, ?_, ?_⟩
  · rw [← List.singleton_append, ← List.append_assoc]
    exact hcalled.append_silent hsilent
  · rw [Yrecv.packet, hlen, List.take_zero]
    exact List.nil_suffix
  · intro hidle
    have hcase : finished = true := by simpa using hidle
    obtain ⟨hsame, hnonzero⟩ := hfinished hcase
    exact ⟨hsame.trans (mode hnonzero), hlen⟩

/-- What a stored character means for an accumulator: a complete packet, or a
part of one. -/
theorem classify_spec (collecting : Collecting allowLong s) (hidx : s.lastIdx = 0)
    (hlt : s.yrecvLen < s.file.packetBuffer.length) (c : UInt8) :
    ∃ gotit s', (s.put c).classify allowLong c = (gotit, s') ∧
      s'.file = (s.put c).file ∧ s'.lastIdx = 0 ∧
      (gotit = true → s'.yrecvMode = 0 ∧ s'.packet = s.packet ++ [c] ∧
        Complete allowLong s'.packet) ∧
      (gotit = false → Collecting allowLong s' ∧
        (s'.packet = [] ∨ s'.packet = s.packet ++ [c])) := by
  have hput := Yrecv.packet_put hidx hlt c
  have hlength : s.packet.length = s.yrecvLen := by
    simp only [Yrecv.packet, Yrecv.rcvbuf, hidx, List.drop_zero, List.length_take]
    omega
  have hmode : (s.put c).yrecvMode = s.yrecvMode := rfl
  have hlen : (s.put c).yrecvLen = s.yrecvLen + 1 := rfl
  have hempty (s' : Yrecv) (h : s'.yrecvLen = 0) : s'.packet = [] := by
    rw [Yrecv.packet, h, List.take_zero]
  unfold Yrecv.classify
  rw [hmode, hlen]
  cases collecting with
  | empty mode len =>
      rw [hempty s len, List.nil_append] at hput
      rw [hempty s len, List.nil_append]
      rcases mode with mode | mode
      · rw [if_pos mode]
        split_ifs with hsoh hstx hone
        · refine ⟨_, _, rfl, rfl, hidx, by simp, fun _ => ⟨?_, Or.inr hput⟩⟩
          refine .short rfl (Nat.succ_pos _) ?_ ?_
          · show s.yrecvLen + 1 < nkYmShortPacketLen
            rw [len]
            decide
          · exact (congrArg List.head? hput).trans (by simp [hsoh])
        · refine ⟨_, _, rfl, rfl, hidx, by simp, fun _ => ⟨?_, Or.inr hput⟩⟩
          refine .long rfl hstx.1 (Nat.succ_pos _) ?_ ?_
          · show s.yrecvLen + 1 < nkYmLongPacketLen
            rw [len]
            decide
          · exact (congrArg List.head? hput).trans (by simp [hstx.2])
        · refine ⟨_, _, rfl, rfl, hidx, fun _ => ⟨mode, hput, ?_⟩, by simp⟩
          rw [hput]
          rcases hone with rfl | rfl
          · exact Or.inl rfl
          · exact Or.inr (Or.inl rfl)
        · exact ⟨_, _, rfl, rfl, hidx, by simp,
            fun _ => ⟨.empty (Or.inl mode) rfl, Or.inl (hempty _ rfl)⟩⟩
      · simp only [mode, Nat.reduceEqDiff, if_false, if_true]
        exact ⟨_, _, rfl, rfl, hidx, by simp,
          fun _ => ⟨.empty (Or.inr rfl) rfl, Or.inl (hempty _ rfl)⟩⟩
  | short mode pos lt first =>
      have hfirst : (s.put c).packet.head? = some nkYmSoh := by
        rw [hput, List.head?_append, first]
        rfl
      simp only [mode, Nat.reduceEqDiff, if_false, if_true]
      split_ifs with hfull
      · refine ⟨_, _, rfl, rfl, hidx, fun _ => ⟨rfl, hput, ?_⟩, by simp⟩
        refine Or.inr (Or.inr (Or.inl ⟨?_, hfirst⟩))
        exact (congrArg List.length hput).trans (by simpa [hlength] using hfull)
      · exact ⟨_, _, rfl, rfl, hidx, by simp, fun _ =>
          ⟨.short mode (Nat.succ_pos _) (by simp only [Yrecv.put]; omega) hfirst, Or.inr hput⟩⟩
  | long mode allowed pos lt first =>
      have hfirst : (s.put c).packet.head? = some nkYmStx := by
        rw [hput, List.head?_append, first]
        rfl
      simp only [mode, Nat.reduceEqDiff, if_false, if_true]
      split_ifs with hfull
      · refine ⟨_, _, rfl, rfl, hidx, fun _ => ⟨rfl, hput, ?_⟩, by simp⟩
        refine Or.inr (Or.inr (Or.inr ⟨allowed, ?_, hfirst⟩))
        exact (congrArg List.length hput).trans (by simpa [hlength] using hfull)
      · exact ⟨_, _, rfl, rfl, hidx, by simp, fun _ =>
          ⟨.long mode allowed (Nat.succ_pos _) (by simp only [Yrecv.put]; omega) hfirst,
            Or.inr hput⟩⟩

/-- One received character keeps the invariant. -/
theorem Inv.recvChar (inv : Inv allowLong s true trace) (c : UInt8) :
    Inv allowLong (recvChar allowLong c s).2.2 (!(recvChar allowLong c s).1)
      (trace ++ (recvChar allowLong c s).2.1) := by
  have hlt := inv.collecting.len_lt
  have room := inv.room rfl
  have hidx := inv.lastIdx
  obtain ⟨gotit, s', hclass, hfile, hidx', hgotit, hpart⟩ :=
    classify_spec inv.collecting hidx (Nat.lt_of_lt_of_le hlt room) c
  have room' : nkYmBufferSize allowLong ≤ s'.file.packetBuffer.length := by
    simpa [hfile, Yrecv.put] using room
  have hsound : Sound allowLong
      (trace ++ [.received c] ++ [.store (s.lastIdx + s.yrecvLen) c]) := by
    refine (inv.sound.snoc (.received c) trivial).snoc _ ?_
    rw [hidx, Nat.zero_add]
    exact hlt
  have hquiet : quiet (trace ++ [.received c] ++ [.store (s.lastIdx + s.yrecvLen) c]) =
      quiet trace ++ [c] := by
    rw [quiet_append_store, quiet_append_received]
  have hsuffix : s.packet ++ [c] <:+ quiet trace ++ [c] :=
    List.suffix_append_self_iff.mpr inv.suffix
  simp only [Ymodem.recvChar, hclass]
  cases gotit with
  | true =>
      obtain ⟨hmode, hpacket, hcomplete⟩ := hgotit rfl
      have hcall : CallOk allowLong
          (trace ++ [.received c] ++ [.store (s.lastIdx + s.yrecvLen) c]) s'.packet := by
        refine Or.inr ⟨?_, hcomplete⟩
        rw [hquiet, hpacket]
        exact hsuffix
      have hprocess := Inv.process hsound hidx' room' hcall fun _ => hmode
      simpa using hprocess
  | false =>
      obtain ⟨hcollecting, hpacket⟩ := hpart rfl
      have hsuffix' : s'.packet <:+ quiet trace ++ [c] := by
        rcases hpacket with hpacket | hpacket
        · rw [hpacket]
          exact List.nil_suffix
        · rw [hpacket]
          exact hsuffix
      rw [← hquiet] at hsuffix'
      have hinv : Inv allowLong s' true
          (trace ++ [.received c] ++ [.store (s.lastIdx + s.yrecvLen) c]) :=
        ⟨hsound, hidx', fun _ => room', hcollecting, hsuffix', fun h => by cases h⟩
      simpa using hinv

/-- So do all characters of one activation. -/
theorem Inv.recvChars (inv : Inv allowLong s true trace) (chars : List UInt8) :
    Inv allowLong (recvChars allowLong chars s).2.2 (!(recvChars allowLong chars s).1)
      (trace ++ (recvChars allowLong chars s).2.1) := by
  induction chars generalizing s trace with
  | nil => simpa [Ymodem.recvChars] using inv
  | cons c chars ih =>
      have hstep := inv.recvChar c
      obtain ⟨⟨finished, events, s'⟩, hchar⟩ : ∃ r, Ymodem.recvChar allowLong c s = r := ⟨_, rfl⟩
      rw [hchar] at hstep
      simp only [Ymodem.recvChars, hchar]
      cases finished with
      | true => exact hstep
      | false => simpa [List.append_assoc] using ih hstep

theorem Inv.recvTimeout (inv : Inv allowLong s true trace) :
    Inv allowLong (recvTimeout s).2.2 (!(recvTimeout s).1) (trace ++ (recvTimeout s).2.1) := by
  have hsound : Sound allowLong (trace ++ [.timeout]) :=
    inv.sound.snoc .timeout trivial
  have hcall : CallOk allowLong (trace ++ [.timeout]) ({ s with yrecvLen := 0 } : Yrecv).packet :=
    Or.inl ⟨List.take_zero, by simp⟩
  have hprocess := Inv.process (s := { s with yrecvLen := 0 }) hsound inv.lastIdx (inv.room rfl)
    hcall fun h => absurd rfl h
  simpa [Ymodem.recvTimeout] using hprocess

end Accumulator

/-! ## Whole runs -/

/-- Runs over any number of transfers: `nk_yrecv` is called while none is active,
with a packet buffer of at least `NK_YM_BUFFER_SIZE` characters; activations of
`ymodem_recv_task` bring any characters or are timeouts. -/
inductive Run (allowLong : Bool) : Yrecv → Bool → List Event → Prop where
  | boot (file : NkYrecvStruct) : Run allowLong (.zeroed file) false []
  | nkYrecv {s : Yrecv} {trace : List Event} (before : Run allowLong s false trace)
      (file : NkYrecvStruct) (room : nkYmBufferSize allowLong ≤ file.packetBuffer.length) :
      Run allowLong (nkYrecv file s).2 true (trace ++ (nkYrecv file s).1)
  | chars {s : Yrecv} {trace : List Event} (before : Run allowLong s true trace)
      (chars : List UInt8) :
      Run allowLong (recvChars allowLong chars s).2.2 (!(recvChars allowLong chars s).1)
        (trace ++ (recvChars allowLong chars s).2.1)
  | timeout {s : Yrecv} {trace : List Event} (before : Run allowLong s true trace) :
      Run allowLong (recvTimeout s).2.2 (!(recvTimeout s).1) (trace ++ (recvTimeout s).2.1)

variable {allowLong : Bool} {s : Yrecv} {active : Bool} {trace : List Event}

theorem Run.inv (run : Run allowLong s active trace) : Inv allowLong s active trace := by
  induction run with
  | boot file =>
      exact ⟨.nil, rfl, fun h => (by cases h), .empty (Or.inl rfl) rfl, List.nil_suffix,
        fun _ => ⟨rfl, rfl⟩⟩
  | @nkYrecv s trace before file room ih =>
      obtain ⟨hmode, hlen⟩ := ih.idle rfl
      have hsound : Sound allowLong (trace ++ [.start]) := ih.sound.snoc .start trivial
      refine ⟨?_, rfl, fun _ => room, .empty (Or.inl hmode) hlen, ?_, fun h => (by cases h)⟩
      · have hsilent : ∀ event ∈ (ymodemRecvInit s.rcv).1, event.silent = true := by
          simp [ymodemRecvInit]
        simpa [Ymodem.nkYrecv] using hsound.append_silent hsilent
      · have hempty : (Ymodem.nkYrecv file s).2.packet = [] := by
          rw [Yrecv.packet, show (Ymodem.nkYrecv file s).2.yrecvLen = 0 from hlen, List.take_zero]
        rw [hempty]
        exact List.nil_suffix
  | chars _ chars ih => exact ih.recvChars chars
  | timeout _ ih => exact ih.recvTimeout

/-- In every run every store into the packet buffer is in range, and every call of
`ymodem_rcv` is for nothing, right after a timeout, or for a CAN, an EOT, a short
packet or a long one, made of the last characters received since a timeout or the
start of the transfer.  Outside of a transfer the packet is empty. -/
theorem run_packets (run : Run allowLong s active trace) :
    (∀ before index c after, trace = before ++ .store index c :: after →
      index < nkYmBufferSize allowLong) ∧
    (∀ before packet after, trace = before ++ .rcv packet :: after →
      packet = [] ∧ before.getLast? = some .timeout ∨
        packet <:+ quiet before ∧
          (packet = [nkYmCan] ∨ packet = [nkYmEot] ∨
            packet.length = 133 ∧ packet.head? = some nkYmSoh ∨
            allowLong = true ∧ packet.length = 1029 ∧ packet.head? = some nkYmStx)) ∧
    s.lastIdx + s.yrecvLen < nkYmBufferSize allowLong ∧
    (active = false → s.yrecvMode = 0 ∧ s.yrecvLen = 0) := by
  have inv := run.inv
  refine ⟨fun before index c after h => inv.sound before _ after h,
    fun before packet after h => inv.sound before _ after h, ?_, inv.idle⟩
  rw [inv.lastIdx, Nat.zero_add]
  exact inv.collecting.len_lt

/-- A transfer canceled by the sender after it has seen some noise. -/
theorem run_packets_canceled :
    ∃ s trace, Run true s false trace ∧ trace.getLast? = some (.rcv [nkYmCan]) ∧
      s.yrecvMode = 0 ∧ s.yrecvLen = 0 := by
  have hboot : Run true _ false [] := .boot ⟨[], [], fun _ => 0⟩
  have hstart := hboot.nkYrecv
    ⟨List.replicate 1029 0, [], fun _ => 0⟩ (by rw [List.length_replicate]; decide)
  have hrun := hstart.chars [65, nkYmCan, 66, nkYmCan]
  have hidle := (run_packets hrun).2.2.2
  exact ⟨_, _, hrun, by decide, hidle (by decide)⟩

end LibnklabsPico.Ymodem
