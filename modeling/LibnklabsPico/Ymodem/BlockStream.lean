/-
  Ymodem/BlockStream.lean --- what the YMODEM sender sends.

  What is sent depends on the number `k` of acknowledgements taken: the header packet
  first, then block `k` of the file, then EOT, and the empty header in the end.  `Phase`
  is the state in which the sender waits for the next acknowledgement.
-/
import LibnklabsPico.File.Cursor
import LibnklabsPico.Flash.CrcDefinition
import LibnklabsPico.Ymodem.Sender

set_option autoImplicit false

namespace LibnklabsPico.Ymodem

open LibnklabsPico.Foundation
open LibnklabsPico.Flash
open LibnklabsPico.File
open LibnklabsPico.Text

/-! ## Packets -/

/-- The number of blocks of a file. -/
def blocks (data : List UInt8) : Nat := (data.length + 127) / 128

/-- The bytes of block `k`, which is the first one for `1`. -/
def blockBytes (data : List UInt8) (k : Nat) : List UInt8 := (data.drop (128 * (k - 1))).take 128

/-- Block `k` padded with zeros. -/
def payload (data : List UInt8) (k : Nat) : List UInt8 :=
  blockBytes data k ++ List.replicate (128 - (blockBytes data k).length) 0

/-- A packet with a sequence number and its complement, and the CRC of its payload. -/
def packet (seq : UInt8) (payload : List UInt8) : List UInt8 :=
  [nkYmSoh, seq, ~~~seq] ++ payload ++ crc16BytesBe (nkCrc16beCheck payload)

/-- The CRC of payload and CRC. -/
theorem packet_crc (seq : UInt8) (payload : List UInt8) :
    nkCrc16beCheck ((packet seq payload).drop 3) = 0 :=
  appended crc16be_own 0 payload

variable {w : Nat}

theorem ymodemSetupHeader_packet {s : YmodemSend w} {payload : List UInt8}
    (h : s.packetBuf.read 3 128 = payload) :
    (ymodemSetupHeader s).packetBuf.read 0 133 = packet s.seq payload := by
  have hpayload : (s.packetBuf.store 0 [nkYmSoh, s.seq, ~~~s.seq]).read 3 128 = payload := by
    rw [Memory.read_store_of_disjoint _ (Or.inr (Nat.le_refl 3)), h]
  have hfirst : (s.packetBuf.store 0 [nkYmSoh, s.seq, ~~~s.seq]).read 0 3 =
      [nkYmSoh, s.seq, ~~~s.seq] := Memory.read_store _ 0 [nkYmSoh, s.seq, ~~~s.seq]
  have hcrc : (ymodemSetupHeader s).packetBuf =
      (s.packetBuf.store 0 [nkYmSoh, s.seq, ~~~s.seq]).store 131
        (crc16BytesBe (nkCrc16beCheck payload)) := by
    rw [← hpayload]
    rfl
  have hlast : ((s.packetBuf.store 0 [nkYmSoh, s.seq, ~~~s.seq]).store 131
      (crc16BytesBe (nkCrc16beCheck payload))).read 131 2 = crc16BytesBe (nkCrc16beCheck payload) :=
    Memory.read_store _ 131 (crc16BytesBe (nkCrc16beCheck payload))
  rw [hcrc, Memory.read_append _ 0 131 2, Nat.zero_add, hlast,
    Memory.read_store_of_disjoint _ (Or.inl (Nat.le_refl 131)), Memory.read_append _ 0 3 128,
    hfirst, hpayload, packet]

/-- The empty header. -/
def emptyHeader : List UInt8 := packet 0 (List.replicate 128 0)

theorem ymodemPrepareFin_packet (s : YmodemSend w) :
    (ymodemPrepareFin s).packetBuf.read 0 133 = emptyHeader :=
  ymodemSetupHeader_packet (Memory.read_store _ 3 (List.replicate 128 0))

/-! ## Loading a block -/

/-- Reading one character of the file. -/
theorem nkFgetc_spec {file : Nkinfile w} {data : List UInt8} {pos : Nat}
    (agrees : Agrees file ⟨data, pos⟩) :
    match data.drop pos with
    | [] => (nkFgetc file).1 = -1 ∧ Agrees (nkFgetc file).2 ⟨data, pos⟩
    | c :: _ => (nkFgetc file).1 = c.toNat ∧ Agrees (nkFgetc file).2 ⟨data, pos + 1⟩ := by
  obtain ⟨hresult, hagrees⟩ := exec_spec agrees .getc trivial trivial
  have hle := agrees.pos_le
  dsimp only at hle
  change (nkFgetc file).1 = (FileOp.execPlain .getc ⟨data, pos⟩).1 at hresult
  change Agrees (nkFgetc file).2 (FileOp.execPlain .getc ⟨data, pos⟩).2 at hagrees
  cases hdata : data.drop pos with
  | nil =>
      have hend : (⟨data, pos⟩ : Cursor).atEnd = true := by
        have hlength := List.drop_eq_nil_iff.mp hdata
        simp only [Cursor.atEnd, beq_iff_eq]
        omega
      simp only [FileOp.execPlain, hend, if_true] at hresult hagrees
      exact ⟨hresult, hagrees⟩
  | cons c rest =>
      have hbyte : data[pos]? = some c := by
        rw [← List.head?_drop, hdata]
        rfl
      have hroom : (⟨data, pos⟩ : Cursor).atEnd = false := by
        obtain ⟨hlt, -⟩ := List.getElem?_eq_some_iff.mp hbyte
        simp only [Cursor.atEnd, beq_eq_false_iff_ne]
        omega
      simp only [FileOp.execPlain, hroom, Bool.false_eq_true, if_false] at hresult hagrees
      simp only [Cursor.peek, hbyte] at hresult
      exact ⟨hresult, hagrees⟩

/-- The characters of the file, at most as many as are left, are stored behind those
loaded before. -/
theorem loadBlock_spec {data : List UInt8} (left x : Nat) {s : YmodemSend w} {pos : Nat}
    (agrees : Agrees s.file ⟨data, pos⟩) :
    ∃ file, Agrees file ⟨data, pos + ((data.drop pos).take left).length⟩ ∧
      loadBlock left x s = (x + ((data.drop pos).take left).length,
        { s with
          file := file
          packetBuf := s.packetBuf.store (3 + x) ((data.drop pos).take left) }) := by
  induction left generalizing x s pos with
  | zero => exact ⟨s.file, by simpa using agrees, by simp [loadBlock]⟩
  | succ left ih =>
      have hgetc := nkFgetc_spec agrees
      unfold loadBlock
      cases hdata : data.drop pos with
      | nil =>
          rw [hdata] at hgetc
          obtain ⟨hend, hagrees⟩ := hgetc
          refine ⟨(nkFgetc s.file).2, by simpa using hagrees, ?_⟩
          simp [hend]
      | cons c rest =>
          rw [hdata] at hgetc
          obtain ⟨hchar, hagrees⟩ := hgetc
          have hrest : data.drop (pos + 1) = rest := by
            rw [← List.drop_drop, hdata]
            rfl
          have hne : ¬ (c.toNat : Int) = -1 := by omega
          obtain ⟨file, hfile, hload⟩ := ih (x + 1)
            (s := { s with
              file := (nkFgetc s.file).2
              packetBuf := s.packetBuf.store (3 + x) [UInt8.ofNat (c.toNat : Int).toNat] }) hagrees
          rw [hrest] at hfile hload
          refine ⟨file, ?_, ?_⟩
          · rw [List.take_succ_cons, List.length_cons, Nat.add_comm _ 1, ← Nat.add_assoc]
            exact hfile
          · have hbyte : UInt8.ofNat (c.toNat : Int).toNat = c := by
              rw [Int.toNat_natCast, UInt8.ofNat_toNat]
            have hstore : (s.packetBuf.store (3 + x) [c]).store (3 + (x + 1)) (rest.take left) =
                s.packetBuf.store (3 + x) (c :: rest.take left) :=
              s.packetBuf.store_append (3 + x) [c] (rest.take left)
            simp only [hbyte, hstore] at hload
            simp only [hchar, hne, if_false, hbyte, hload, List.take_succ_cons, List.length_cons]
            rw [Nat.add_assoc, Nat.add_comm 1]

/-- Preparing block `k`: there is one up to the number of blocks. -/
theorem ymodemPrepareNext_spec {data : List UInt8} {s : YmodemSend w} {k : Nat} (hk : 0 < k)
    (agrees : Agrees s.file ⟨data, min (128 * (k - 1)) data.length⟩) :
    (ymodemPrepareNext s).1 = decide (k ≤ blocks data) ∧
      (ymodemPrepareNext s).2.eot = s.eot ∧ (ymodemPrepareNext s).2.fin = s.fin ∧
      (ymodemPrepareNext s).2.hdr = s.hdr ∧ (ymodemPrepareNext s).2.seq = s.seq ∧
      Agrees (ymodemPrepareNext s).2.file ⟨data, min (128 * k) data.length⟩ ∧
      (k ≤ blocks data → (ymodemPrepareNext s).2.blockSize = 133 ∧
        (ymodemPrepareNext s).2.packetBuf.read 0 133 = packet s.seq (payload data k)) := by
  have hdrop : data.drop (min (128 * (k - 1)) data.length) = data.drop (128 * (k - 1)) := by
    rcases Nat.le_total (128 * (k - 1)) data.length with h | h
    · rw [Nat.min_eq_left h]
    · rw [Nat.min_eq_right h, List.drop_length, List.drop_of_length_le h]
  obtain ⟨file, hfile, hload⟩ := loadBlock_spec 128 0 agrees
  rw [hdrop] at hfile hload
  have hlength : (blockBytes data k).length = min 128 (data.length - 128 * (k - 1)) := by
    rw [blockBytes, List.length_take, List.length_drop]
  change Agrees file ⟨data, _ + (blockBytes data k).length⟩ at hfile
  change loadBlock 128 0 s = (0 + (blockBytes data k).length,
    { s with file := file, packetBuf := s.packetBuf.store (3 + 0) (blockBytes data k) }) at hload
  have hpos : min (128 * (k - 1)) data.length + (blockBytes data k).length =
      min (128 * k) data.length := by omega
  rw [hpos] at hfile
  unfold ymodemPrepareNext
  rw [hload]
  dsimp only
  split
  · rename_i hzero
    have hend : ¬ k ≤ blocks data := by
      unfold blocks
      omega
    exact ⟨(decide_eq_false hend).symm, rfl, rfl, rfl, rfl, hfile, fun h => absurd h hend⟩
  · rename_i hne
    have hmore : k ≤ blocks data := by
      unfold blocks
      omega
    refine ⟨(decide_eq_true hmore).symm, rfl, rfl, rfl, rfl, hfile, fun _ => ⟨rfl, ?_⟩⟩
    refine ymodemSetupHeader_packet ?_
    have hfull : (payload data k).length = 128 := by
      rw [payload, List.length_append, List.length_replicate]
      omega
    have hread := s.packetBuf.read_store 3 (payload data k)
    rw [hfull] at hread
    rw [Nat.zero_add, Nat.add_zero, Memory.store_append]
    exact hread

/-! ## Waiting for an acknowledgement -/

/-- The sender after `k` acknowledgements: it repeats the header or a block, or EOT, or the
empty header. -/
inductive Phase (data header : List UInt8) : Nat → YmodemSend w → Prop where
  | sending {k : Nat} {s : YmodemSend w} (le : k ≤ blocks data) (eot : s.eot = false)
      (fin : s.fin = false) (hdr : s.hdr = decide (k = 0)) (seq : s.seq = UInt8.ofNat k)
      (blockSize : s.blockSize = 133)
      (packet_eq : s.packetBuf.read 0 133 =
        if k = 0 then header else packet (UInt8.ofNat k) (payload data k))
      (agrees : Agrees s.file ⟨data, min (128 * k) data.length⟩) : Phase data header k s
  | ending {s : YmodemSend w} (eot : s.eot = true) : Phase data header (blocks data + 1) s
  | finished {s : YmodemSend w} (eot : s.eot = false) (fin : s.fin = true)
      (blockSize : s.blockSize = 133) (packet_eq : s.packetBuf.read 0 133 = emptyHeader) :
      Phase data header (blocks data + 2) s

/-- What is sent after `k` acknowledgements. -/
def due (data header : List UInt8) (k : Nat) : Option Sent :=
  if k = 0 then some (.block header)
  else if k ≤ blocks data then some (.block (packet (UInt8.ofNat k) (payload data k)))
  else if k = blocks data + 1 then some .eot
  else if k = blocks data + 2 then some (.block emptyHeader)
  else none

theorem due_block {data header : List UInt8} {k : Nat} (hk : 0 < k) (le : k ≤ blocks data) :
    due data header k = some (.block (packet (UInt8.ofNat k) (payload data k))) := by
  rw [due, if_neg (Nat.ne_of_gt hk), if_pos le]

theorem due_eot (data header : List UInt8) : due data header (blocks data + 1) = some .eot := by
  rw [due, if_neg (Nat.succ_ne_zero _), if_neg (Nat.not_succ_le_self _), if_pos rfl]

theorem due_finished {data header : List UInt8} {k : Nat} {event : Sent}
    (hk : blocks data + 2 ≤ k) (h : due data header k = some event) :
    event = .block emptyHeader := by
  rw [due, if_neg (by omega), if_neg (by omega), if_neg (by omega)] at h
  split at h
  · exact (Option.some.inj h).symm
  · cases h

/-- EOT is due behind the last block only. -/
theorem blocks_lt_of_eot {data header : List UInt8} {k : Nat}
    (h : due data header k = some .eot) : blocks data < k := by
  by_contra hle
  rw [due] at h
  split at h
  · cases h
  · rw [if_pos (Nat.le_of_not_lt hle)] at h
    cases h

variable {data header : List UInt8} {k : Nat} {s : YmodemSend w}

/-- What is repeated. -/
theorem Phase.repeated (phase : Phase data header k s) :
    ∀ event ∈ (if s.eot then [.eot] else ymodemSendBlock s), due data header k = some event := by
  intro event hevent
  cases phase with
  | sending le eot fin hdr seq blockSize packet_eq agrees =>
      rw [eot, if_neg Bool.false_ne_true, ymodemSendBlock, blockSize, packet_eq,
        List.mem_singleton] at hevent
      subst hevent
      rcases Nat.eq_zero_or_pos k with rfl | hk
      · rfl
      · rw [due_block hk le, if_neg (Nat.ne_of_gt hk)]
  | ending eot =>
      rw [eot, if_pos rfl, List.mem_singleton] at hevent
      subst hevent
      exact due_eot data header
  | finished eot fin blockSize packet_eq =>
      rw [eot, if_neg Bool.false_ne_true, ymodemSendBlock, blockSize, packet_eq,
        List.mem_singleton] at hevent
      subst hevent
      rw [due, if_neg (by omega), if_neg (by omega), if_neg (by omega), if_pos rfl]

/-- Any other character than an acknowledgement leaves the sender as it is. -/
theorem Phase.repeats (phase : Phase data header k s) {c : UInt8} (hc : c ≠ nkYmAck) :
    (∀ event ∈ (nkYsendEvt s c).2.1, due data header k = some event) ∧
      Phase data header k (nkYsendEvt s c).2.2 := by
  unfold nkYsendEvt
  by_cases hrepeat : c = nkYmReq ∨ c = nkYmNak
  · rw [if_pos hrepeat]
    exact ⟨phase.repeated, phase⟩
  · rw [if_neg hrepeat, if_neg hc]
    split <;> exact ⟨fun _ hevent => absurd hevent List.not_mem_nil, phase⟩

/-- An acknowledgement. -/
theorem Phase.acknowledged (phase : Phase data header k s) :
    (∀ event ∈ (nkYsendEvt s nkYmAck).2.1, due data header (k + 1) = some event) ∧
      ((nkYsendEvt s nkYmAck).1 = .more →
        Phase data header (k + 1) (nkYsendEvt s nkYmAck).2.2) := by
  have hnone : ∀ event ∈ ([] : List Sent), due data header (k + 1) = some event :=
    fun _ hevent => absurd hevent List.not_mem_nil
  have hack : ¬ (nkYmAck = nkYmReq ∨ nkYmAck = nkYmNak) := by decide
  unfold nkYsendEvt
  rw [if_neg hack, if_pos rfl]
  cases phase with
  | sending le eot fin hdr seq blockSize packet_eq agrees =>
      obtain ⟨hnext, heot, hfin, hhdr, hseq, hfile, hpacket⟩ :=
        ymodemPrepareNext_spec (s := { s with seq := s.seq + 1 }) (Nat.succ_pos k) agrees
      have hseq' : s.seq + 1 = UInt8.ofNat (k + 1) := by
        rw [seq, UInt8.ofNat_add]
        rfl
      rw [if_neg (by rw [eot]; exact Bool.false_ne_true),
        if_neg (by rw [fin]; exact Bool.false_ne_true)]
      generalize ymodemPrepareNext { s with seq := s.seq + 1 } = prepared at *
      obtain ⟨next, s'⟩ := prepared
      dsimp only at hnext heot hfin hhdr hseq hfile hpacket ⊢
      by_cases hmore : k + 1 ≤ blocks data
      · obtain ⟨hsize, hread⟩ := hpacket hmore
        have hphase : ∀ hdr' : Bool, hdr' = false →
            Phase data header (k + 1) { s' with hdr := hdr' } := fun hdr' hhdr' =>
          .sending hmore (heot.trans eot) (hfin.trans fin) hhdr' (hseq.trans hseq') hsize
            (by rw [if_neg (Nat.succ_ne_zero k), ← hseq']; exact hread) hfile
        rw [hnext, decide_eq_true hmore]
        cases hfirst : s'.hdr with
        | true => exact ⟨hnone, fun _ => hphase false rfl⟩
        | false =>
            have hsend := (hphase s'.hdr hfirst).repeated
            dsimp only at hsend
            rw [heot, eot] at hsend
            exact ⟨hsend, fun _ => hphase s'.hdr hfirst⟩
      · have hlast : k = blocks data := by omega
        rw [hnext, decide_eq_false hmore, hlast]
        cases s'.hdr with
        | true => exact ⟨fun _ hevent => absurd hevent List.not_mem_nil, fun _ => .ending rfl⟩
        | false =>
            refine ⟨fun event hevent => ?_, fun _ => .ending rfl⟩
            obtain rfl := List.mem_singleton.mp hevent
            exact due_eot data header
  | ending eot =>
      rw [eot]
      exact ⟨hnone, fun _ => .finished rfl rfl rfl (ymodemPrepareFin_packet _)⟩
  | finished eot fin blockSize packet_eq =>
      rw [eot, fin]
      exact ⟨hnone, fun hmore => (by cases hmore)⟩

/-! ## Transfers -/

/-- What is sent while characters come in. -/
theorem Phase.run (phase : Phase data header k s) (chars : List UInt8) :
    ∀ acks event, (acks, event) ∈ ymodemSendTask chars k s → due data header acks = some event := by
  induction chars generalizing k s with
  | nil => exact fun _ _ hsent => absurd hsent List.not_mem_nil
  | cons c chars ih =>
      intro acks event hsent
      rw [ymodemSendTask] at hsent
      dsimp only at hsent
      by_cases hc : c = nkYmAck
      · obtain ⟨hnow, hnext⟩ := phase.acknowledged
        rw [if_pos hc, hc] at hsent
        rcases List.mem_append.mp hsent with hsent | hsent
        · obtain ⟨event', hevent, heq⟩ := List.mem_map.mp hsent
          obtain ⟨rfl, rfl⟩ := Prod.mk.inj heq
          exact hnow event' hevent
        · split at hsent
          · rename_i hmore
            exact ih (hnext hmore) acks event hsent
          · exact absurd hsent List.not_mem_nil
      · obtain ⟨hnow, hnext⟩ := phase.repeats hc
        rw [if_neg hc] at hsent
        rcases List.mem_append.mp hsent with hsent | hsent
        · obtain ⟨event', hevent, heq⟩ := List.mem_map.mp hsent
          obtain ⟨rfl, rfl⟩ := Prod.mk.inj heq
          exact hnow event' hevent
        · split at hsent
          · exact ih hnext acks event hsent
          · exact absurd hsent List.not_mem_nil

/-- The first packet. -/
def firstHeader (fl : Floats) (packetBuffer : Memory) (fileName : List UInt8) (fileSize : Nat) :
    List UInt8 :=
  let packetBuf := packetBuffer.store 3 (List.replicate 128 0)
  packet 0 (Memory.read (fun a => if a < 3 then packetBuf a
    else (nkSnprintf fl (fun a => packetBuf (3 + a)) 125 (ascii "%s%c%lu")
      [.str fileName, .int 0, .int fileSize]).2 (a - 3)) 3 128)

theorem nkYsendFile_phase (fl : Floats) (packetBuffer : Memory) {file : Nkinfile w}
    (fileName : List UInt8) (fileSize : Nat) (agrees : Agrees file ⟨data, 0⟩) :
    Phase data (firstHeader fl packetBuffer fileName fileSize) 0
      (nkYsendFile fl packetBuffer file fileName fileSize) := by
  refine .sending (Nat.zero_le _) rfl rfl rfl rfl rfl ?_ ((Nat.zero_min data.length).symm ▸ agrees)
  rw [if_pos rfl]
  exact ymodemSetupHeader_packet rfl

/-- For every file and all received characters: between two acknowledgements the sender
repeats one packet, which is block `k` after the `k`-th one; it sends EOT only after more
acknowledgements than there are blocks, and behind the one for EOT the empty header only. -/
theorem ymodemSendTask_blocks (fl : Floats) (packetBuffer : Memory) {file : Nkinfile w}
    (data fileName : List UInt8) (fileSize : Nat) (agrees : Agrees file ⟨data, 0⟩)
    (chars : List UInt8) :
    let sent := ymodemSendTask chars 0 (nkYsendFile fl packetBuffer file fileName fileSize)
    (∀ k p, (k, .block p) ∈ sent → 0 < k → k ≤ blocks data →
      p = packet (UInt8.ofNat k) (payload data k) ∧ nkCrc16beCheck (p.drop 3) = 0) ∧
    (∀ k event event', (k, event) ∈ sent → (k, event') ∈ sent → event = event') ∧
    (∀ k, (k, .eot) ∈ sent → blocks data < k) ∧
    (∀ k event, (k, event) ∈ sent → blocks data + 2 ≤ k → event = .block emptyHeader) := by
  intro sent
  have hrun := (nkYsendFile_phase fl packetBuffer fileName fileSize agrees).run chars
  refine ⟨?_, ?_, ?_, ?_⟩
  · intro k p hsent hpos hle
    have hdue := (due_block hpos hle).symm.trans (hrun k _ hsent)
    obtain rfl := Sent.block.inj (Option.some.inj hdue)
    exact ⟨rfl, packet_crc _ _⟩
  · intro k event event' hsent hsent'
    exact Option.some.inj ((hrun k event hsent).symm.trans (hrun k event' hsent'))
  · intro k hsent
    exact blocks_lt_of_eot (hrun k _ hsent)
  · intro k event hsent hend
    exact due_finished hend (hrun k event hsent)

/-- A file of one character: block 1 is that character, EOT needs two acknowledgements, and
the empty header comes behind it. -/
theorem ymodemSendTask_blocks_one :
    let sent := ymodemSendTask [nkYmReq, nkYmAck, nkYmReq, nkYmAck, nkYmNak, nkYmAck, nkYmReq] 0
      (nkYsendFile Floats.absent (fun _ => 0) (nkinfileOpenMem 32 [65] 1) (ascii "a") 1)
    ((1, .block (packet 1 (payload [65] 1))) ∈ sent ∧ (2, .eot) ∈ sent ∧
      (3, .block emptyHeader) ∈ sent) ∧
    (∀ k p, (k, .block p) ∈ sent → 0 < k → k ≤ 1 →
      p = packet (UInt8.ofNat k) (payload [65] k) ∧ nkCrc16beCheck (p.drop 3) = 0) ∧
    (∀ k event event', (k, event) ∈ sent → (k, event') ∈ sent → event = event') ∧
    (∀ k, (k, .eot) ∈ sent → 1 < k) ∧
    (∀ k event, (k, event) ∈ sent → 3 ≤ k → event = .block emptyHeader) :=
  ⟨by decide +kernel, ymodemSendTask_blocks Floats.absent (fun _ => 0) [65] (ascii "a") 1
    (nkinfileOpenMem_agrees [65] [] (by decide)) _⟩

end LibnklabsPico.Ymodem
