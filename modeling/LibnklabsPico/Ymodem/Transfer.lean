/-
  Ymodem/Transfer.lean --- a file sent over the line arrives as it is.

  The two sides and the line simulate a handover of messages: the header, the blocks of
  the file, EOT and the empty header.  So the receiver's file handler is told about each
  of them once and in order, whatever is lost or damaged on the way.
-/
import LibnklabsPico.Ymodem.Exchange
import LibnklabsPico.Ymodem.FirstHeader

set_option autoImplicit false

namespace LibnklabsPico.Ymodem

open LibnklabsPico.Foundation
open LibnklabsPico.Flash
open LibnklabsPico.File
open LibnklabsPico.Text

/-! ## What is handed over -/

/-- What the file handler is told when message `k` is accepted. -/
def copyCalls (contents name : List UInt8) (k : Nat) : List Call :=
  if k = 0 then [.open name contents.length]
  else if k ≤ blocks contents then [.write (blockBytes contents k)]
  else if k = blocks contents + 1 then [.close]
  else if k = blocks contents + 2 then [.allDone]
  else []

theorem copyCalls_close (contents name : List UInt8) :
    copyCalls contents name (blocks contents + 1) = [.close] := by
  rw [copyCalls, if_neg (Nat.succ_ne_zero _), if_neg (Nat.not_succ_le_self _), if_pos rfl]

theorem copyCalls_allDone (contents name : List UInt8) :
    [.allDone] = copyCalls contents name (blocks contents + 2) := by
  rw [copyCalls, if_neg (Nat.succ_ne_zero _), if_neg (by omega), if_neg (by omega), if_pos rfl]

/-! ## The simulation -/

/-- What is on the way is what the abstract line carries. -/
inductive Carries (contents header : List UInt8) (accepted : Nat) :
    List UInt8 → List UInt8 → Line → Prop where
  | quiet : Carries contents header accepted [] [] .quiet
  | request (c : UInt8) (request : c = nkYmReq ∨ c = nkYmNak) :
      Carries contents header accepted [] [c] .request
  | ack : Carries contents header accepted [] [nkYmAck] .ack
  /-- the file has been closed, and the next header is asked for -/
  | ackReq (closed : accepted = blocks contents + 2) :
      Carries contents header accepted [] [nkYmAck, nkYmReq] .ack
  | message (k : Nat) (event : Sent) (due : due contents header k = some event) :
      Carries contents header accepted event.chars [] (.message k)

variable {w : Nat} {allowLong : Bool}

/-- The two sides and the line as a handover. -/
structure Linked (allowLong : Bool) (contents header : List UInt8) (link : Link w) (t : Handover) :
    Prop where
  agree : t.Agree
  sender : link.status = .more ∧ Phase contents header t.taken link.sender ∨
    link.status = .done ∧ t.taken = blocks contents + 3
  run : ∃ trace, Run allowLong link.receiver link.active trace
  openFile : ∀ name, link.receiver.file.openFile name = 0
  progress : Progress contents contents.length t.accepted link.receiver.rcv link.active
  carries : Carries contents header t.accepted link.forward link.backward t.line
  resting : link.active = true → t.line = .quiet ∨ link.receiver.Resting

section Steps

variable {contents header name data : List UInt8} {link : Link w} {t : Handover}

theorem payload_length (contents : List UInt8) (k : Nat) : (payload contents k).length = 128 := by
  have hle : (blockBytes contents k).length ≤ 128 := by
    rw [blockBytes, List.length_take]
    exact Nat.min_le_left _ _
  rw [payload, List.length_append, List.length_replicate]
  omega

/-- The part of a block that is written. -/
theorem payload_take {k : Nat} (hk : k < blocks contents) :
    (payload contents (k + 1)).take (min 128 (contents.length - 128 * k)) =
        blockBytes contents (k + 1) ∧
      min 128 (contents.length - 128 * k) ≠ 0 := by
  have hlength : (blockBytes contents (k + 1)).length = min 128 (contents.length - 128 * k) := by
    rw [blockBytes, List.length_take, List.length_drop, Nat.add_sub_cancel]
  refine ⟨?_, ?_⟩
  · rw [payload, ← hlength, List.take_left]
  · unfold blocks at hk
    omega

theorem Carries.message_inv {accepted : Nat} {forward backward : List UInt8} {line : Line}
    (carries : Carries contents header accepted forward backward line) (sent : forward ≠ []) :
    backward = [] ∧ ∃ k event, line = .message k ∧ due contents header k = some event ∧
      forward = event.chars := by
  cases carries with
  | message k event due => exact ⟨rfl, k, event, rfl, due, rfl⟩
  | _ => exact absurd rfl sent

/-- The packet that is due before EOT. -/
theorem HeaderFor.due_packet (hheader : HeaderFor header name contents.length data) {k : Nat}
    (hk : k ≤ blocks contents) : ∃ payload', payload'.length = 128 ∧
      due contents header k = some (.block (packet (UInt8.ofNat k) payload')) := by
  rcases Nat.eq_zero_or_pos k with rfl | hpos
  · refine ⟨data, hheader.length, ?_⟩
    rw [due, if_pos rfl, hheader.packet_eq]
    rfl
  · exact ⟨payload contents k, payload_length contents k, due_block hpos hk⟩

/-- The receiver that rests collects what is sent. -/
theorem Linked.collects (linked : Linked allowLong contents header link t)
    (active : link.active = true) (resting : link.receiver.Resting) :
    link.receiver.Collects allowLong [nkYmEot] ∧ ∀ (seq : UInt8) (payload' : List UInt8),
      payload'.length = 128 → link.receiver.Collects allowLong (packet seq payload') := by
  obtain ⟨trace, run⟩ := linked.run
  have inv := run.inv
  have hroom : nkYmShortPacketLen ≤ link.receiver.file.packetBuffer.length := by
    apply Nat.le_trans _ (inv.room active)
    cases allowLong <;> decide
  refine ⟨recvChars_eot inv.lastIdx resting hroom, fun seq payload' hlength => ?_⟩
  exact recvChars_packet inv.lastIdx resting hroom (packet_length hlength)

/-- What the receiver does with the whole burst matches a step of the handover. -/
theorem Linked.delivered (linked : Linked allowLong contents header link t)
    (active : link.active = true) (hbackward : link.backward = [])
    (t' : Handover) (sta : RecvStatus) (made : List Call)
    (collects : link.receiver.Collects allowLong link.forward) {out : Nat → List Call}
    {shown : List Call} {replies : List UInt8}
    (shows : made ++ (if sta = .done then [.allDone] else []) = shown)
    (handled : ∀ file rest, (∀ name, file.openFile name = 0) → ∃ events rcv,
      ymodemRcv file (link.forward ++ rest) link.forward.length link.receiver.rcv =
        (sta, events, rcv) ∧
      events.filterMap Event.call = made ∧ events.filterMap Event.reply = replies ∧
      Progress contents contents.length t'.accepted rcv sta.goesOn ∧
      (sta = .more → rcv.purge = false))
    (step : Handover.Step out t shown t')
    (taken : t'.taken = t.taken) (carries : Carries contents header t'.accepted [] replies t'.line)
    (quiet : sta = .purge → t'.line = .quiet) :
    ∃ t', Handover.Step out t
        ((link.receives allowLong link.forward).1.filterMap Event.call) t' ∧
      Linked allowLong contents header (link.receives allowLong link.forward).2 t' := by
  obtain ⟨events, s', hchars, hcalls, hreplies, ⟨hprogress, hpurge⟩, hopen, hlen, hmode⟩ :=
    collects.answer fun file rest hopen => handled file rest fun name => by
      rw [hopen]
      exact linked.openFile name
  obtain ⟨trace, run⟩ := linked.run
  rw [active] at run
  have hrun := run.chars link.forward
  rw [hchars] at hrun
  simp only [Link.receives, hchars, hcalls, shows]
  refine ⟨t', step, step.agree linked.agree, ?_, ⟨_, hrun⟩, ?_, ?_, ?_, ?_⟩
  · rw [taken]
    exact linked.sender
  · intro name
    rw [hopen]
    exact linked.openFile name
  · rw [Bool.not_not]
    exact hprogress
  · rw [hbackward, hreplies]
    exact carries
  · intro hactive
    cases sta with
    | more => exact Or.inr ⟨hmode rfl, hlen, hpurge rfl⟩
    | purge => exact Or.inl (quiet rfl)
    | done | remoteCancel | openCancel | syncCancel => cases hactive

/-- The header arrives for the first time. -/
theorem HeaderFor.handled (hheader : HeaderFor header name contents.length data)
    {file : NkYrecvStruct} (hopen : ∀ name, file.openFile name = 0) {s : YmodemRecv}
    (hpurge : s.purge = false) (opened : s.opened = false) (xmodem : s.xmodem = false)
    (rest : List UInt8) : ∃ events rcv,
      ymodemRcv file (header ++ rest) header.length s = (.more, events, rcv) ∧
      events.filterMap Event.call = copyCalls contents name 0 ∧
      events.filterMap Event.reply = [nkYmAck] ∧ Progress contents contents.length 1 rcv true ∧
      rcv.purge = false := by
  have hlength : header.length = nkYmShortPacketLen := by
    rw [hheader.packet_eq]
    exact packet_length hheader.length
  have hrcv := ymodemRcv_header rest hpurge opened hheader.length
    hheader.named hopen
  rw [← hheader.packet_eq, ← hlength] at hrcv
  refine ⟨_, _, hrcv, ?_, rfl, ?_, hpurge⟩
  · simp only [List.filterMap_cons, List.filterMap_nil, Event.call, hheader.name, hheader.size]
    rfl
  · exact .receiving 0 (Nat.zero_le _) rfl xmodem rfl rfl (hheader.size _)

/-- The next block arrives. -/
theorem block_handled (file : NkYrecvStruct) {s : YmodemRecv} (hpurge : s.purge = false) {j : Nat}
    (hj : j < blocks contents) (opened : s.opened = true) (xmodem : s.xmodem = false)
    (seq : s.seq = UInt8.ofNat (j + 1)) (oldSeq : s.oldSeq = UInt8.ofNat j)
    (fileSize : s.fileSize = contents.length - 128 * j) (name rest : List UInt8) : ∃ events rcv,
      ymodemRcv file (packet (UInt8.ofNat (j + 1)) (payload contents (j + 1)) ++ rest)
        nkYmShortPacketLen s = (.more, events, rcv) ∧
      events.filterMap Event.call = copyCalls contents name (j + 1) ∧
      events.filterMap Event.reply = [nkYmAck] ∧
      Progress contents contents.length (j + 2) rcv true ∧ rcv.purge = false := by
  obtain ⟨htake, hne⟩ := payload_take hj
  have hold : UInt8.ofNat (j + 1) ≠ s.oldSeq := by
    rw [oldSeq]
    exact ofNat_succ_ne j
  have hrcv := ymodemRcv_next file rest hpurge opened
    (payload_length contents (j + 1)) seq.symm hold
  rw [fileSize, if_neg hne, htake] at hrcv
  refine ⟨_, _, hrcv, ?_, rfl, .receiving (j + 1) hj opened xmodem ?_ seq ?_, hpurge⟩
  · rw [copyCalls, if_neg (Nat.succ_ne_zero j), if_pos (Nat.succ_le_of_lt hj)]
    rfl
  · rw [seq, UInt8.ofNat_add (j + 1)]
    rfl
  · rw [Nat.sub_sub]
    rfl

/-- What is on the way arrives. -/
theorem Linked.deliver (linked : Linked allowLong contents header link t)
    (hheader : HeaderFor header name contents.length data) (active : link.active = true)
    (sent : link.forward ≠ []) :
    ∃ t', Handover.Step (copyCalls contents name) t
        ((link.receives allowLong link.forward).1.filterMap Event.call) t' ∧
      Linked allowLong contents header (link.receives allowLong link.forward).2 t' := by
  obtain ⟨taken, accepted, line⟩ := t
  have hprogress := linked.progress
  have hcarries := linked.carries
  have hagree := linked.agree
  have hresting := linked.resting active
  rw [active] at hprogress
  dsimp only at hprogress hcarries hresting
  obtain ⟨hbackward, k, event, rfl, hdue, hforward⟩ := hcarries.message_inv sent
  obtain rfl : k = taken := hagree.message k rfl
  have hle : k ≤ accepted := hagree.le
  have hlt : accepted ≤ k + 1 := hagree.lt
  have hresting := hresting.resolve_left (by rintro h; cases h)
  obtain ⟨heot, hpacket⟩ := linked.collects active hresting
  have hpurge := hresting.purge
  generalize hrcv : link.receiver.rcv = s at hprogress hpurge
  cases hprogress with
  | waiting opened xmodem =>
      obtain rfl : k = 0 := Nat.le_zero.mp hle
      obtain rfl : Sent.block header = event := Option.some.inj hdue
      have hcollects := hpacket 0 data hheader.length
      rw [← hheader.packet_eq] at hcollects
      refine linked.delivered active hbackward ⟨0, 1, .ack⟩ .more _
        (by rw [hforward]; exact hcollects) (List.append_nil _) (fun file rest hopen => ?_)
        (.accept 0 0) rfl .ack fun h => by cases h
      rw [hforward, hrcv]
      obtain ⟨events, rcv, hhandled, hcalls, hreplies, hprogress, hpurge'⟩ :=
        hheader.handled hopen hpurge opened xmodem rest
      exact ⟨events, rcv, hhandled, hcalls, hreplies, hprogress, fun _ => hpurge'⟩
  | receiving j le opened xmodem seq oldSeq fileSize =>
      rcases Nat.lt_or_ge k (j + 1) with hagain | hnext
      · -- The packet before
        obtain rfl : k = j := by omega
        obtain ⟨payload', hlength, hdue'⟩ := hheader.due_packet le
        obtain rfl : Sent.block (packet (UInt8.ofNat k) payload') = event :=
          Option.some.inj (hdue'.symm.trans hdue)
        refine linked.delivered active hbackward ⟨k, k + 1, .ack⟩ .more []
          (by rw [hforward]; exact hpacket _ _ hlength) rfl (fun file rest hopen => ?_) (.again k k)
          rfl .ack fun h => by cases h
        rw [hforward, hrcv, Sent.chars, packet_length hlength]
        refine ⟨_, _, ymodemRcv_again hpurge opened hlength oldSeq.symm, rfl, rfl, ?_,
          fun _ => hpurge⟩
        exact .receiving k le opened xmodem seq oldSeq fileSize
      · obtain rfl : k = j + 1 := by omega
        rcases Nat.lt_or_ge j (blocks contents) with hblock | hend
        · -- The next block
          rw [due_block (Nat.succ_pos j) hblock] at hdue
          obtain rfl := Option.some.inj hdue
          refine linked.delivered active hbackward ⟨j + 1, j + 2, .ack⟩ .more _
            (by rw [hforward]; exact hpacket _ _ (payload_length contents _)) (List.append_nil _)
            (fun file rest hopen => ?_) (.accept (j + 1) (j + 1)) rfl .ack fun h => by cases h
          rw [hforward, hrcv, Sent.chars, packet_length (payload_length contents _)]
          obtain ⟨events, rcv, hhandled, hcalls, hreplies, hprogress, hpurge'⟩ :=
            block_handled file hpurge hblock opened xmodem seq oldSeq fileSize name rest
          exact ⟨events, rcv, hhandled, hcalls, hreplies, hprogress, fun _ => hpurge'⟩
        · obtain rfl : j = blocks contents := Nat.le_antisymm le hend
          rw [due_eot] at hdue
          obtain rfl := Option.some.inj hdue
          cases hgot : s.gotEot with
          | true =>
              -- The second EOT
              refine linked.delivered active hbackward
                ⟨blocks contents + 1, blocks contents + 2, .ack⟩ .more _
                (by rw [hforward]; exact heot) (List.append_nil _) (fun file rest hopen => ?_)
                (.accept (blocks contents + 1) (blocks contents + 1)) rfl (.ackReq rfl)
                fun h => by cases h
              rw [hforward, hrcv]
              refine ⟨_, _, (ymodemRcv_eot hpurge opened xmodem).trans (if_pos hgot), ?_, rfl,
                .closed rfl rfl, fun _ => rfl⟩
              exact (copyCalls_close contents name).symm
          | false =>
              refine linked.delivered active hbackward
                ⟨blocks contents + 1, blocks contents + 1, .request⟩ .more []
                (by rw [hforward]; exact heot) rfl (fun file rest hopen => ?_)
                (.ask _ _ _) rfl (.request nkYmNak (Or.inr rfl)) fun h => by cases h
              rw [hforward, hrcv]
              refine ⟨_, _, (ymodemRcv_eot hpurge opened xmodem).trans (if_neg ?_), rfl, rfl,
                .receiving (blocks contents) le opened xmodem seq oldSeq fileSize, fun _ => hpurge⟩
              rw [hgot]
              exact Bool.false_ne_true
  | closed opened xmodem =>
      rcases Nat.lt_or_ge k (blocks contents + 2) with hlost | hnext
      · -- The acknowledgement of EOT has been lost
        obtain rfl : k = blocks contents + 1 := by omega
        rw [due_eot] at hdue
        obtain rfl := Option.some.inj hdue
        refine linked.delivered active hbackward
          ⟨blocks contents + 1, blocks contents + 2, .quiet⟩ .purge []
          (by rw [hforward]; exact heot) rfl (fun file rest hopen => ?_) (.lose _ _ _) rfl .quiet
          fun _ => rfl
        rw [hforward, hrcv]
        exact ⟨_, _, ymodemRcv_eot_waiting hpurge opened, rfl, rfl, .closed opened xmodem,
          fun h => by cases h⟩
      · obtain rfl : k = blocks contents + 2 := by omega
        obtain rfl := due_finished (Nat.le_refl _) hdue
        refine linked.delivered active hbackward
          ⟨blocks contents + 2, blocks contents + 3, .ack⟩ .done []
          (by rw [hforward]; exact hpacket 0 _ List.length_replicate)
          (copyCalls_allDone contents name) (fun file rest hopen => ?_) (.accept _ _) rfl .ack
          fun h => by cases h
        rw [hforward, hrcv]
        exact ⟨_, _, ymodemRcv_emptyHeader hpurge opened, rfl, rfl, .finished, fun h => by cases h⟩

/-- What an answer on the way means. -/
theorem Carries.answer_inv {accepted : Nat} {forward rest : List UInt8} {c : UInt8} {line : Line}
    (carries : Carries contents header accepted forward (c :: rest) line) :
    forward = [] ∧ (line = .request ∧ rest = [] ∧ (c = nkYmReq ∨ c = nkYmNak) ∨
      line = .ack ∧ c = nkYmAck ∧
        (rest = [] ∨ rest = [nkYmReq] ∧ accepted = blocks contents + 2)) := by
  cases carries with
  | request _ request => exact ⟨rfl, Or.inl ⟨rfl, rfl, request⟩⟩
  | ack => exact ⟨rfl, Or.inr ⟨rfl, rfl, Or.inl rfl⟩⟩
  | ackReq closed => exact ⟨rfl, Or.inr ⟨rfl, rfl, Or.inr ⟨rfl, closed⟩⟩⟩

/-- Damaged characters arrive. -/
theorem Linked.damage (linked : Linked allowLong contents header link t)
    (active : link.active = true) (sent : link.forward ≠ []) {noise : List UInt8}
    (harmless : Harmless allowLong noise link.receiver) (out : Nat → List Call) :
    ∃ t', Handover.Step out t ((link.receives allowLong noise).1.filterMap Event.call) t' ∧
      Linked allowLong contents header (link.receives allowLong noise).2 t' := by
  obtain ⟨hbackward, -⟩ := linked.carries.message_inv sent
  obtain ⟨trace, run⟩ := linked.run
  have hprogress := linked.progress
  rw [active] at run hprogress
  obtain ⟨events, s', hchars, hquiet, hprogress', hopen⟩ :=
    recvChars_noise run.inv hprogress noise harmless
  obtain ⟨hcalls, hreplies⟩ := filterMap_quiet hquiet
  have hrun := run.chars noise
  rw [hchars] at hrun
  simp only [Link.receives, hchars, hcalls]
  have hstep : Handover.Step out t [] ⟨t.taken, t.accepted, .quiet⟩ := .lose _ _ _
  refine ⟨_, hstep, hstep.agree linked.agree, linked.sender, ⟨_, hrun⟩, ?_, hprogress', ?_,
    fun _ => Or.inl rfl⟩
  · intro name
    rw [hopen]
    exact linked.openFile name
  · rw [hbackward, hreplies]
    exact .quiet

/-- The receiver's timeout. -/
theorem Linked.timeout (linked : Linked allowLong contents header link t)
    (active : link.active = true) (hforward : link.forward = []) (out : Nat → List Call) :
    ∃ t', Handover.Step out t ((recvTimeout link.receiver).2.1.filterMap Event.call) t' ∧
      Linked allowLong contents header
        { link with
          receiver := (recvTimeout link.receiver).2.2
          active := !(recvTimeout link.receiver).1
          backward := (recvTimeout link.receiver).2.1.filterMap Event.reply } t' := by
  obtain ⟨trace, run⟩ := linked.run
  have hprogress := linked.progress
  rw [active] at run hprogress
  have hrun := run.timeout
  obtain ⟨events, rcv, hrcv, hprogress', hpurge, hevents⟩ :=
    hprogress.timeout link.receiver.file link.receiver.rcvbuf
  have htimeout : recvTimeout link.receiver = (false, [.timeout, .rcv []] ++ events,
      { link.receiver with rcv := rcv, yrecvLen := 0, yrecvMode := 0 }) := by
    rw [recvTimeout, processFullOuter_more (s := { link.receiver with yrecvLen := 0 }) hrcv]
    rfl
  rw [htimeout] at hrun ⊢
  rcases hevents with rfl | hasked
  · have hstep : Handover.Step out t [] ⟨t.taken, t.accepted, .quiet⟩ := .lose _ _ _
    refine ⟨_, hstep, hstep.agree linked.agree, linked.sender, ⟨_, hrun⟩, linked.openFile,
      hprogress', ?_, fun _ => Or.inl rfl⟩
    rw [hforward]
    exact .quiet
  · obtain ⟨c, hc, rfl⟩ : ∃ c, (c = nkYmReq ∨ c = nkYmNak) ∧ events = [.putc c] := by
      rcases hasked with hasked | hasked
      · exact ⟨nkYmReq, Or.inl rfl, hasked⟩
      · exact ⟨nkYmNak, Or.inr rfl, hasked⟩
    have hstep : Handover.Step out t [] ⟨t.taken, t.accepted, .request⟩ := .ask _ _ _
    refine ⟨_, hstep, hstep.agree linked.agree, linked.sender, ⟨_, hrun⟩, linked.openFile,
      hprogress', ?_, fun _ => Or.inr ⟨rfl, rfl, hpurge⟩⟩
    rw [hforward]
    exact .request c hc

/-- A character of the receiver arrives. -/
theorem Linked.answer (linked : Linked allowLong contents header link t)
    (status : link.status = .more) {c : UInt8} {rest : List UInt8}
    (hbackward : link.backward = c :: rest) (out : Nat → List Call) :
    ∃ t', Handover.Step out t [] t' ∧
      Linked allowLong contents header
        { link with
          sender := (nkYsendEvt link.sender c).2.2
          status := (nkYsendEvt link.sender c).1
          forward := link.forward ++ (nkYsendEvt link.sender c).2.1.flatMap Sent.chars
          backward := rest } t' := by
  obtain ⟨taken, accepted, line⟩ := t
  have hcarries := linked.carries
  have hresting := linked.resting
  have hphase : Phase contents header taken link.sender := by
    rcases linked.sender with ⟨-, hphase⟩ | ⟨hdone, -⟩
    · exact hphase
    · rw [status] at hdone
      cases hdone
  rw [hbackward] at hcarries
  dsimp only at hcarries
  obtain ⟨hforward, ⟨hline, rfl, hc⟩ | ⟨hline, rfl, hrest⟩⟩ := hcarries.answer_inv
  · -- What is due is sent once more
    obtain rfl : line = .request := hline
    obtain ⟨event, hdue, hevt⟩ := hphase.requested hc
    have hstep : Handover.Step out ⟨taken, accepted, .request⟩ []
        ⟨taken, accepted, .message taken⟩ := .send taken accepted
    rw [hevt]
    refine ⟨_, hstep, hstep.agree linked.agree, Or.inl ⟨rfl, hphase⟩, linked.run, linked.openFile,
      linked.progress, ?_, fun hactive => Or.inr ((hresting hactive).resolve_left ?_)⟩
    · rw [hforward, List.flatMap_singleton]
      exact .message taken event hdue
    · rintro h
      cases h
  · obtain rfl : line = .ack := hline
    have haccepted : accepted = taken + 1 := linked.agree.ack rfl
    obtain ⟨hsent, hnext⟩ := hphase.acknowledged
    obtain ⟨heot, hdone, hmore⟩ := hphase.ended
    have hrests : link.active = true → link.receiver.Resting := by
      intro hactive
      apply (hresting hactive).resolve_left
      rintro h
      cases h
    rcases Decidable.em (taken = blocks contents + 2) with hlast | hgoes
    · -- The empty header has been acknowledged
      have hnil : rest = [] := by
        rcases hrest with hrest | ⟨-, hclosed⟩
        · exact hrest
        · omega
      have hstep : Handover.Step out ⟨taken, accepted, .ack⟩ [] ⟨taken + 1, accepted, .quiet⟩ :=
        .wait taken accepted
      rw [hdone hlast]
      refine ⟨_, hstep, hstep.agree linked.agree, Or.inr ⟨rfl, congrArg (· + 1) hlast⟩, linked.run,
        linked.openFile, linked.progress, ?_, fun _ => Or.inl rfl⟩
      rw [hforward, hnil]
      exact .quiet
    · have hstatus := hmore hgoes
      have hphase' := hnext hstatus
      rcases nkYsendEvt_ack link.sender with hnothing | ⟨event, hevent⟩
      · -- What is next has to be asked for
        rcases hrest with rfl | ⟨rfl, hclosed⟩
        · have hstep : Handover.Step out ⟨taken, accepted, .ack⟩ [] ⟨taken + 1, accepted, .quiet⟩ :=
            .wait taken accepted
          refine ⟨_, hstep, hstep.agree linked.agree, Or.inl ⟨hstatus, hphase'⟩, linked.run,
            linked.openFile, linked.progress, ?_, fun _ => Or.inl rfl⟩
          rw [hforward, hnothing]
          exact .quiet
        · have hstep : Handover.Step out ⟨taken, accepted, .ack⟩ []
              ⟨taken + 1, accepted, .request⟩ := .asked taken accepted
          refine ⟨_, hstep, hstep.agree linked.agree, Or.inl ⟨hstatus, hphase'⟩, linked.run,
            linked.openFile, linked.progress, ?_, fun hactive => Or.inr (hrests hactive)⟩
          rw [hforward, hnothing]
          exact .request nkYmReq (Or.inl rfl)
      · have hnil : rest = [] := by
          rcases hrest with hrest | ⟨-, hclosed⟩
          · exact hrest
          · have hempty := heot (by omega)
            rw [hevent] at hempty
            cases hempty
        have hstep : Handover.Step out ⟨taken, accepted, .ack⟩ []
            ⟨taken + 1, accepted, .message (taken + 1)⟩ := .next taken accepted
        refine ⟨_, hstep, hstep.agree linked.agree, Or.inl ⟨hstatus, hphase'⟩, linked.run,
          linked.openFile, linked.progress, ?_, fun hactive => Or.inr (hrests hactive)⟩
        rw [hforward, hnil, hevent, List.flatMap_singleton]
        exact .message (taken + 1) event
          (hsent event (by rw [hevent]; exact List.mem_singleton.mpr rfl))

/-- A character of the receiver is lost. -/
theorem Linked.lose (linked : Linked allowLong contents header link t) {c : UInt8}
    {rest : List UInt8} (hbackward : link.backward = c :: rest) (out : Nat → List Call) :
    ∃ t', Handover.Step out t [] t' ∧
      Linked allowLong contents header { link with backward := rest } t' := by
  have hcarries := linked.carries
  rw [hbackward] at hcarries
  obtain ⟨hforward, ⟨hline, rfl, hc⟩ | ⟨hline, rfl, rfl | ⟨rfl, hclosed⟩⟩⟩ := hcarries.answer_inv
  · have hstep : Handover.Step out t [] ⟨t.taken, t.accepted, .quiet⟩ := .lose _ _ _
    refine ⟨_, hstep, hstep.agree linked.agree, linked.sender, linked.run, linked.openFile,
      linked.progress, ?_, fun _ => Or.inl rfl⟩
    rw [hforward]
    exact .quiet
  · have hstep : Handover.Step out t [] ⟨t.taken, t.accepted, .quiet⟩ := .lose _ _ _
    refine ⟨_, hstep, hstep.agree linked.agree, linked.sender, linked.run, linked.openFile,
      linked.progress, ?_, fun _ => Or.inl rfl⟩
    rw [hforward]
    exact .quiet
  · have hstep : Handover.Step out t [] ⟨t.taken, t.accepted, .request⟩ := .ask _ _ _
    refine ⟨_, hstep, hstep.agree linked.agree, linked.sender, linked.run, linked.openFile,
      linked.progress, ?_, fun hactive => Or.inr ((linked.resting hactive).resolve_left ?_)⟩
    · rw [hforward]
      exact .request nkYmReq (Or.inl rfl)
    · rw [hline]
      rintro h
      cases h

end Steps

/-! ## Transfers -/

/-- A transfer is started on both sides: the sender waits to be asked for the header, and the
receiver, which may have received other files before, has asked for it.  Its file handler
opens every file, as the one of `nkymodem_cmd.c` does. -/
structure Link.Started (allowLong : Bool) (fl : Floats) (packetBuffer : Memory)
    (contents name : List UInt8) (link : Link w) : Prop where
  sender : ∃ file, Agrees file ⟨contents, 0⟩ ∧
    link.sender = nkYsendFile fl packetBuffer file name contents.length
  status : link.status = .more
  receiver : ∃ s trace file, Run allowLong s false trace ∧
    nkYmBufferSize allowLong ≤ file.packetBuffer.length ∧ (∀ name, file.openFile name = 0) ∧
    link.receiver = (nkYrecv file s).2
  active : link.active = true
  forward : link.forward = []
  backward : link.backward = [nkYmReq]

/-- The two sides and the line as a system that shows the calls of the file handler. -/
def Link.system (allowLong : Bool) (fl : Floats) (packetBuffer : Memory)
    (contents name : List UInt8) : System (Link w) (List Call) :=
  { init := Link.Started allowLong fl packetBuffer contents name
    step := Link.Step allowLong }

section Transfers

variable {fl : Floats} {packetBuffer : Memory} {contents name data : List UInt8}

theorem Link.Started.linked {link : Link w}
    (started : link.Started allowLong fl packetBuffer contents name) :
    Linked allowLong contents (firstHeader fl packetBuffer name contents.length) link
      ⟨0, 0, .request⟩ := by
  obtain ⟨sfile, hagrees, hsender⟩ := started.sender
  obtain ⟨s, trace, file, run, hroom, hopen, hreceiver⟩ := started.receiver
  have hidle := run.inv.idle rfl
  refine ⟨⟨Nat.le_refl _, Nat.zero_le _, fun _ h => (by cases h), fun h => by cases h⟩,
    Or.inl ⟨started.status, ?_⟩, ⟨trace ++ (nkYrecv file s).1, ?_⟩, ?_, ?_, ?_,
    fun _ => Or.inr ?_⟩
  · rw [hsender]
    exact nkYsendFile_phase fl packetBuffer name contents.length hagrees
  · rw [hreceiver, started.active]
    exact run.nkYrecv file hroom
  · rw [hreceiver]
    exact hopen
  · rw [hreceiver, started.active]
    exact .waiting rfl rfl
  · rw [started.forward, started.backward]
    exact .request nkYmReq (Or.inl rfl)
  · rw [hreceiver]
    exact ⟨hidle.1, hidle.2, rfl⟩

/-- The two sides and the line hand over the messages of the file. -/
theorem link_simulates
    (hheader :
      HeaderFor (firstHeader fl packetBuffer name contents.length) name contents.length data) :
    System.Simulates (Link.system (w := w) allowLong fl packetBuffer contents name)
      (Handover.system (copyCalls contents name))
      (Linked allowLong contents (firstHeader fl packetBuffer name contents.length)) := by
  refine ⟨fun link started => ⟨_, ⟨rfl, rfl, Or.inr rfl⟩, started.linked⟩, ?_⟩
  intro link shown link' t linked step
  cases step with
  | deliver active sent => exact linked.deliver hheader active sent
  | damage active sent noise harmless => exact linked.damage active sent harmless _
  | timeout active forward backward => exact linked.timeout active forward _
  | answer status backward => exact linked.answer status backward _
  | lose backward => exact linked.lose backward _

/-- All calls for a file. -/
def transferCalls (contents name : List UInt8) : List Call :=
  .open name contents.length ::
    (List.range (blocks contents)).map (fun k => .write (blockBytes contents (k + 1))) ++
    [.close, .allDone]

/-- What calls write. -/
def written (made : List Call) : List UInt8 :=
  made.flatMap fun call =>
    match call with
    | .write data => data
    | _ => []

theorem copyCalls_write {k : Nat} (hk : k < blocks contents) :
    copyCalls contents name (k + 1) = [.write (blockBytes contents (k + 1))] := by
  rw [copyCalls, if_neg (Nat.succ_ne_zero k), if_pos (Nat.succ_le_of_lt hk)]

/-- The calls for the header and the blocks. -/
theorem copyCalls_blocks {n : Nat} (hn : n ≤ blocks contents) :
    (List.range (n + 1)).flatMap (copyCalls contents name) = .open name contents.length ::
      (List.range n).map (fun k => .write (blockBytes contents (k + 1))) := by
  induction n with
  | zero => rfl
  | succ n ih =>
      rw [List.range_succ, List.flatMap_append, ih (Nat.le_of_succ_le hn), List.flatMap_singleton,
        copyCalls_write hn, List.range_succ, List.map_append]
      rfl

theorem copyCalls_all : (List.range (blocks contents + 3)).flatMap (copyCalls contents name) =
    transferCalls contents name := by
  rw [List.range_succ, List.range_succ, List.flatMap_append, List.flatMap_append,
    copyCalls_blocks (Nat.le_refl _), List.flatMap_singleton, List.flatMap_singleton,
    copyCalls_close, ← copyCalls_allDone, List.append_assoc]
  rfl

/-- The blocks are the file. -/
theorem flatMap_blockBytes (n : Nat) :
    (List.range n).flatMap (fun k => blockBytes contents (k + 1)) = contents.take (128 * n) := by
  induction n with
  | zero => simp
  | succ n ih =>
      rw [List.range_succ, List.flatMap_append, ih, List.flatMap_singleton, blockBytes,
        Nat.add_sub_cancel, Nat.mul_succ, List.take_add]

/-- What is written with the header and all blocks. -/
theorem written_blocks (rest : List Call) (hrest : written rest = []) :
    written (.open name contents.length ::
      (List.range (blocks contents)).map (fun k => .write (blockBytes contents (k + 1))) ++ rest) =
        contents := by
  have hall : contents.length ≤ 128 * blocks contents := by
    unfold blocks
    omega
  have hwrites : written ((List.range (blocks contents)).map fun k =>
      .write (blockBytes contents (k + 1))) = contents := by
    rw [written, List.flatMap_map, flatMap_blockBytes, List.take_of_length_le hall]
  have happend (before after : List Call) :
      written (before ++ after) = written before ++ written after := List.flatMap_append
  rw [happend, hrest, List.append_nil]
  exact hwrites

theorem Progress.le {size r : Nat} {s : YmodemRecv} {active : Bool}
    (progress : Progress contents size r s active) : r ≤ blocks contents + 3 := by
  cases progress with
  | waiting opened xmodem => exact Nat.zero_le _
  | receiving k le opened xmodem seq oldSeq fileSize =>
      omega
  | closed opened xmodem => exact Nat.le_succ _
  | finished => exact Nat.le_refl _

/-- The calls that a run shows are those for the first messages, and for all of them when the
sender is done. -/
theorem link_shown (hne : name ≠ []) (hname : ∀ c ∈ name, c ≠ 0) (hlength : name.length ≤ 113)
    (hsize : contents.length < 2 ^ 31) {shown : List (List Call)} {link : Link w}
    (run : (Link.system allowLong fl packetBuffer contents name).Run shown link) :
    ∃ accepted ≤ blocks contents + 3,
      shown.flatten = (List.range accepted).flatMap (copyCalls contents name) ∧
        (link.status = .done → accepted = blocks contents + 3) ∧ link.status ≠ .cancel := by
  obtain ⟨data, hheader⟩ := firstHeader_headerFor fl packetBuffer hne hname hlength hsize
  obtain ⟨⟨taken, accepted, line⟩, hrun, linked⟩ := (link_simulates hheader).run run
  have hle : accepted ≤ blocks contents + 3 := linked.progress.le
  refine ⟨accepted, hle, Handover.run_shows hrun, fun hdone => ?_, ?_⟩
  · have hfinished : taken ≤ accepted := linked.agree.le
    rcases linked.sender with ⟨hmore, -⟩ | ⟨-, htaken⟩
    · rw [hdone] at hmore
      cases hmore
    · exact Nat.le_antisymm hle (htaken ▸ hfinished)
  · rcases linked.sender with ⟨hmore, -⟩ | ⟨hdone, -⟩
    · rw [hmore]
      exact SendStatus.noConfusion
    · rw [hdone]
      exact SendStatus.noConfusion

/-- In every run the file handler of the receiver is told to open a file with the sender's name
and size, to write its contents in order, and to close it: it has been told a part of that
from the start, and all of it when the sender is done.  A file that has been closed has the
sender's contents, and the sender is never canceled. -/
theorem link_copies (hne : name ≠ []) (hname : ∀ c ∈ name, c ≠ 0) (hlength : name.length ≤ 113)
    (hsize : contents.length < 2 ^ 31) {shown : List (List Call)} {link : Link w}
    (run : (Link.system allowLong fl packetBuffer contents name).Run shown link) :
    shown.flatten <+: transferCalls contents name ∧
      (.close ∈ shown.flatten → written shown.flatten = contents) ∧
      (link.status = .done → shown.flatten = transferCalls contents name) ∧
      link.status ≠ .cancel := by
  obtain ⟨accepted, hle, hshown, hall, hcancel⟩ := link_shown hne hname hlength hsize run
  rw [hshown]
  refine ⟨?_, ?_, fun hdone => ?_, hcancel⟩
  · obtain ⟨left, hleft⟩ := Nat.exists_eq_add_of_le hle
    rw [← copyCalls_all, hleft, List.range_add, List.flatMap_append]
    exact List.prefix_append _ _
  · intro hclosed
    rcases Nat.lt_or_ge accepted (blocks contents + 2) with hearly | hlate
    · cases accepted with
      | zero => cases hclosed
      | succ n =>
          rw [copyCalls_blocks (by omega)] at hclosed
          simp at hclosed
    · rcases Nat.eq_or_lt_of_le hlate with rfl | hlast
      · rw [List.range_succ, List.flatMap_append, copyCalls_blocks (Nat.le_refl _),
          List.flatMap_singleton, copyCalls_close]
        exact written_blocks [.close] rfl
      · obtain rfl : accepted = blocks contents + 3 := by omega
        rw [copyCalls_all]
        exact written_blocks [.close, .allDone] rfl
  · rw [hall hdone]
    exact copyCalls_all

/-! ## A line that loses nothing -/

/-- The next step on a line that loses nothing: the receiver's characters come first, then
the sender's, and the timeout when nothing is on its way. -/
def Link.turn (allowLong : Bool) (link : Link w) : Option (List Call × Link w) :=
  match link.backward, link.status with
  | c :: rest, .more =>
      some ([], { link with
        sender := (nkYsendEvt link.sender c).2.2
        status := (nkYsendEvt link.sender c).1
        forward := link.forward ++ (nkYsendEvt link.sender c).2.1.flatMap Sent.chars
        backward := rest })
  | backward, _ =>
      if link.active = true ∧ link.forward ≠ [] then
        some ((link.receives allowLong link.forward).1.filterMap Event.call,
          (link.receives allowLong link.forward).2)
      else if link.active = true ∧ backward = [] then
        some ((recvTimeout link.receiver).2.1.filterMap Event.call,
          { link with
            receiver := (recvTimeout link.receiver).2.2
            active := !(recvTimeout link.receiver).1
            backward := (recvTimeout link.receiver).2.1.filterMap Event.reply })
      else none

theorem Link.turn_step {link link' : Link w} {made : List Call}
    (hturn : link.turn allowLong = some (made, link')) : link.Step allowLong made link' := by
  unfold Link.turn at hturn
  split at hturn
  · rename_i c rest hbackward hstatus
    obtain ⟨rfl, rfl⟩ := Prod.mk.inj (Option.some.inj hturn)
    exact .answer hstatus hbackward
  · split at hturn
    · rename_i hsent
      obtain ⟨rfl, rfl⟩ := Prod.mk.inj (Option.some.inj hturn)
      exact .deliver hsent.1 hsent.2
    · split at hturn
      · rename_i hsent hidle
        obtain ⟨rfl, rfl⟩ := Prod.mk.inj (Option.some.inj hturn)
        refine .timeout hidle.1 ?_ hidle.2
        by_contra hforward
        exact hsent ⟨hidle.1, hforward⟩
      · cases hturn

/-- Some steps on such a line, and the calls of the file handler. -/
def Link.play (allowLong : Bool) : Nat → Link w → List (List Call) × Link w
  | 0, link => ([], link)
  | fuel + 1, link =>
      match link.turn allowLong with
      | some (made, link') =>
          let (shown, link'') := link'.play allowLong fuel
          (made :: shown, link'')
      | none => ([], link)

theorem Link.play_run (fuel : Nat) {shown : List (List Call)} {link : Link w}
    (run : (Link.system allowLong fl packetBuffer contents name).Run shown link) :
    (Link.system allowLong fl packetBuffer contents name).Run
      (shown ++ (link.play allowLong fuel).1) (link.play allowLong fuel).2 := by
  induction fuel generalizing shown link with
  | zero =>
      rw [Link.play, List.append_nil]
      exact run
  | succ fuel ih =>
      rw [Link.play]
      split
      · rename_i made link' hturn
        rw [List.append_cons]
        exact ih (run.next (Link.turn_step hturn))
      · rw [List.append_nil]
        exact run

end Transfers

/-- A file of one character. -/
def oneCharLink : Link 32 :=
  { sender := nkYsendFile Floats.absent (fun _ => 0) (nkinfileOpenMem 32 [65] 1) (ascii "a") 1
    status := .more
    receiver := (nkYrecv ⟨List.replicate 1029 0, [], fun _ => 0⟩ (.zeroed ⟨[], [], fun _ => 0⟩)).2
    active := true, forward := [], backward := [nkYmReq] }

/-- On a line that loses nothing it has been sent after 14 steps. -/
theorem oneCharLink_sends : ∃ (shown : List (List Call)) (link : Link 32),
    (Link.system true Floats.absent (fun _ => 0) [65] (ascii "a")).Run shown link ∧
      shown.flatten = [.open (ascii "a") 1, .write [65], .close, .allDone] ∧
      link.status = .done := by
  have hstarted : oneCharLink.Started true Floats.absent (fun _ => 0) [65] (ascii "a") :=
    ⟨⟨_, nkinfileOpenMem_agrees [65] [] (by decide), rfl⟩, rfl,
      ⟨_, _, _, .boot _, List.length_replicate.ge, fun _ => rfl, rfl⟩, rfl, rfl, rfl⟩
  have hstart : (Link.system true Floats.absent (fun _ => 0) [65] (ascii "a")).Run [] oneCharLink :=
    .start hstarted
  have hresult : ((oneCharLink.play true 14).1.flatten, (oneCharLink.play true 14).2.status) =
      ([.open (ascii "a") 1, .write [65], .close, .allDone], .done) := by
    decide +kernel
  obtain ⟨hshown, hstatus⟩ := Prod.mk.inj hresult
  have hrun := Link.play_run 14 hstart
  rw [List.nil_append] at hrun
  exact ⟨_, _, hrun, hshown, hstatus⟩

/-- The file has been closed with its contents. -/
theorem link_copies_done :
    ∃ (shown : List (List Call)) (link : Link 32),
      (Link.system true Floats.absent (fun _ => 0) [65] (ascii "a")).Run shown link ∧
      link.status = .done ∧ shown.flatten = transferCalls [65] (ascii "a") ∧
      written shown.flatten = [65] := by
  obtain ⟨shown, link, hrun, hshown, hdone⟩ := oneCharLink_sends
  obtain ⟨-, hwritten, hall, -⟩ :=
    link_copies (by decide) (by decide +kernel) (by decide) (by decide +kernel) hrun
  refine ⟨shown, link, hrun, hdone, hall hdone, hwritten ?_⟩
  rw [hshown]
  simp

end LibnklabsPico.Ymodem
