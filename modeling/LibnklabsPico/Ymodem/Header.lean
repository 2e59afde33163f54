/-
  Ymodem/Header.lean --- where the text of a file header packet is read.

  The payload of a header is a name and the text of a size behind its NUL.  Both
  `ymodem_rcv` and the `open` function of `src/nkymodem_cmd.c` scan it with the string
  functions of the C library; here they are given with the offsets they read.
-/
import LibnklabsPico.Ymodem.Nkymodem

set_option autoImplicit false

namespace LibnklabsPico.Ymodem

/-! ## Reading with offsets -/

/-- A result and the offsets of the bytes that were read for it. -/
structure Reads (α : Type) where
  value : α
  offsets : List Nat

instance : Monad Reads where
  pure a := ⟨a, []⟩
  bind r f := ⟨(f r.value).value, r.offsets ++ (f r.value).offsets⟩

/-- All offsets are below a limit. -/
def Reads.Within {α : Type} (limit : Nat) (r : Reads α) : Prop := ∀ i ∈ r.offsets, i < limit

section
variable {α β : Type} {limit : Nat}

@[simp] theorem Reads.within_pure (a : α) : (pure a : Reads α).Within limit ↔ True := by
  simp [Within, pure]

@[simp] theorem Reads.within_bind (r : Reads α) (f : α → Reads β) :
    (r >>= f).Within limit ↔ r.Within limit ∧ (f r.value).Within limit := by
  simp only [Within, bind, List.mem_append]
  exact ⟨fun h => ⟨fun i hi => h i (Or.inl hi), fun i hi => h i (Or.inr hi)⟩,
    fun h i hi => hi.elim (h.1 i) (h.2 i)⟩

end

/-- The byte at an offset. -/
def byteAt (name : List UInt8) (i : Nat) : Reads UInt8 := ⟨name.getD i 0, [i]⟩

/-- The length of the text in front of the first NUL. -/
def textLen (s : List UInt8) : Nat := (s.takeWhile (· != 0)).length

theorem take_textLen (name : List UInt8) : name.take (textLen name) = name.takeWhile (· != 0) :=
  (List.prefix_iff_eq_take.mp (List.takeWhile_prefix _)).symm

/-- `strlen`: reads up to the first NUL. -/
def strlen (name : List UInt8) : Reads Nat := ⟨textLen name, List.range (textLen name + 1)⟩

/-- `strcpy`: reads up to the first NUL; the bytes that are stored, with the NUL. -/
def strcpy (name : List UInt8) : Reads (List UInt8) :=
  ⟨name.take (textLen name) ++ [0], List.range (textLen name + 1)⟩

/-- The number of digits at the start of a text. -/
def digitsLen : List UInt8 → Nat
  | [] => 0
  | c :: s => if isDigit c then digitsLen s + 1 else 0

/-- The length of the white space, the sign and the digits that `atoi` looks at. -/
def numberLen : List UInt8 → Nat
  | [] => 0
  | c :: s =>
      if isSpace c then numberLen s + 1
      else if c = 45 ∨ c = 43 then digitsLen s + 1
      else digitsLen (c :: s)

/-- `atoi` at an offset: reads up to the first character that does not belong to the number. -/
def atoiAt (name : List UInt8) (i : Nat) : Reads Int :=
  ⟨atoi (name.drop i), List.range' i (numberLen (name.drop i) + 1)⟩

/-! ## The two scans -/

/-- Get exact file size: the scan of `ymodem_rcv`. -/
def scanFileSize (name : List UInt8) : Reads Nat := do
  let nameLen ← strlen name
  if (← byteAt name (nameLen + 1)) ≠ 0 then
    let size ← atoiAt name (nameLen + 1)
    pure (size % 2 ^ 32).toNat
  else pure 0xffffffff

/-- `name[i] == c`, and so on for the characters behind. -/
def startsWith (name : List UInt8) : Nat → List UInt8 → Reads Bool
  | _, [] => pure true
  | i, c :: rest => do
      if (← byteAt name i) = c then startsWith name (i + 1) rest
      else pure false

/-- What `ymodem_recv_file_open` finds: the bytes stored in `name_buf`, the exact size and
whether the file is an FPGA image. -/
structure Opened where
  nameBuf : List UInt8
  dldExact : Nat
  fpga : Bool

/-- `ymodem_recv_file_open` -/
def ymodemRecvFileOpen (name : List UInt8) : Reads Opened := do
  let nameBuf ← strcpy name
  let len ← strlen name
  let dldExact ←
    if (← byteAt name (len + 1)) ≠ 0 then do
      let size ← atoiAt name (len + 1)
      pure (size % 2 ^ 32).toNat
    else pure 0xffffffff
  let fpga ← startsWith name 0 [102, 112, 103, 97]
  pure ⟨nameBuf, dldExact, fpga⟩

/-- A file header in `ymodem_rcv`; there is no file if the name is empty. -/
def scanHeader (name : List UInt8) : Reads (Option (Nat × Opened)) := do
  if (← byteAt name 0) = 0 then pure none
  else
    let fileSize ← scanFileSize name
    let opened ← ymodemRecvFileOpen name
    pure (some (fileSize, opened))

/-- The scan finds the size that `ymodem_rcv` uses. -/
theorem scanFileSize_value (name : List UInt8) :
    (scanFileSize name).value = headerFileSize name := by
  have hscan : (scanFileSize name).value =
      (if name.getD (textLen name + 1) 0 ≠ 0 then
        (do let size ← atoiAt name (textLen name + 1); pure (size % 2 ^ 32).toNat : Reads Nat)
      else pure 0xffffffff).value := rfl
  rw [hscan]
  by_cases hsize : name.getD (textLen name + 1) 0 ≠ 0
  · rw [if_pos hsize]
    exact (if_pos hsize).symm
  · rw [if_neg hsize]
    exact (if_neg hsize).symm

/-! ## What is read -/

section
variable {limit : Nat}

theorem within_range {α : Type} (a : α) (n : Nat) :
    (⟨a, List.range (n + 1)⟩ : Reads α).Within limit ↔ n < limit := by
  simp only [Reads.Within, List.mem_range]
  exact ⟨fun h => h n (Nat.lt_succ_self n), fun h i hi => by omega⟩

theorem within_range' {α : Type} (a : α) (i n : Nat) :
    (⟨a, List.range' i (n + 1)⟩ : Reads α).Within limit ↔ i + n < limit := by
  simp only [Reads.Within, List.mem_range'_1]
  exact ⟨fun h => h (i + n) ⟨by omega, by omega⟩, fun h j hj => by omega⟩

@[simp] theorem byteAt_value (name : List UInt8) (i : Nat) :
    (byteAt name i).value = name.getD i 0 :=
  rfl

@[simp] theorem strlen_value (name : List UInt8) : (strlen name).value = textLen name := rfl

@[simp] theorem within_byteAt (name : List UInt8) (i : Nat) :
    (byteAt name i).Within limit ↔ i < limit := by
  simp [byteAt, Reads.Within]

@[simp] theorem within_strlen (name : List UInt8) :
    (strlen name).Within limit ↔ textLen name < limit := within_range _ _

@[simp] theorem within_strcpy (name : List UInt8) :
    (strcpy name).Within limit ↔ textLen name < limit := within_range _ _

@[simp] theorem within_atoiAt (name : List UInt8) (i : Nat) :
    (atoiAt name i).Within limit ↔ i + numberLen (name.drop i) < limit := within_range' _ _ _

@[simp] theorem within_ite {α : Type} {P : Prop} [Decidable P] (r r' : Reads α) :
    (if P then r else r').Within limit ↔ (P → r.Within limit) ∧ (¬ P → r'.Within limit) := by
  split <;> simp [*]

/-- The name ends, and there is no size behind it or the size ends, below a limit. -/
def Ends (limit : Nat) (name : List UInt8) : Prop :=
  textLen name + 1 < limit ∧ (name.getD (textLen name + 1) 0 ≠ 0 →
    textLen name + 1 + numberLen (name.drop (textLen name + 1)) < limit)

instance (name : List UInt8) : Decidable (Ends limit name) :=
  inferInstanceAs (Decidable (_ ∧ (_ → _)))

theorem within_scanFileSize (name : List UInt8) :
    (scanFileSize name).Within limit ↔ Ends limit name := by
  simp only [scanFileSize, Reads.within_bind, within_strlen, within_byteAt, within_ite,
    within_atoiAt, Reads.within_pure, implies_true, and_true]
  simp only [strlen_value, byteAt_value, Ends]
  constructor
  · rintro ⟨-, hend, hsize⟩
    exact ⟨hend, hsize⟩
  · rintro ⟨hend, hsize⟩
    exact ⟨by omega, hend, hsize⟩

theorem within_startsWith (name : List UInt8) (i : Nat) (text : List UInt8)
    (h : i + text.length ≤ limit) : (startsWith name i text).Within limit := by
  induction text generalizing i with
  | nil => simp [startsWith]
  | cons c text ih =>
      rw [List.length_cons] at h
      simp only [startsWith, Reads.within_bind, within_byteAt, within_ite, Reads.within_pure,
        implies_true, and_true]
      exact ⟨by omega, fun _ => ih (i + 1) (by omega)⟩

theorem within_ymodemRecvFileOpen (name : List UInt8) (h : 4 ≤ limit) :
    (ymodemRecvFileOpen name).Within limit ↔ Ends limit name := by
  have hprefix := within_startsWith name 0 [102, 112, 103, 97] h
  simp only [ymodemRecvFileOpen, Reads.within_bind, within_strcpy, within_strlen, within_byteAt,
    within_ite, within_atoiAt, Reads.within_pure, implies_true, and_true, hprefix]
  simp only [strlen_value, byteAt_value, Ends]
  constructor
  · rintro ⟨-, -, hend, hsize⟩
    exact ⟨hend, hsize⟩
  · rintro ⟨hend, hsize⟩
    exact ⟨by omega, by omega, hend, hsize⟩

theorem within_scanHeader (name : List UInt8) (h : 4 ≤ limit) :
    (scanHeader name).Within limit ↔ name.getD 0 0 = 0 ∨ Ends limit name := by
  simp only [scanHeader, Reads.within_bind, within_byteAt, within_ite, Reads.within_pure,
    within_scanFileSize, within_ymodemRecvFileOpen name h, implies_true, and_true, true_and,
    and_self]
  rw [byteAt_value, or_iff_not_imp_left]
  exact and_iff_right (by omega)

end

/-! ## The payload -/

/-- A prefix of the text has the same length of leading characters, as far as it goes. -/
theorem textLen_take (name : List UInt8) (n : Nat) :
    textLen (name.take n) = min n (textLen name) := by
  induction name generalizing n with
  | nil => simp [textLen]
  | cons c name ih =>
      cases n with
      | zero => simp [textLen]
      | succ n =>
          have hrest := ih n
          unfold textLen at hrest ⊢
          by_cases hc : c = 0
          · simp [hc]
          · simp only [List.take_succ_cons, List.takeWhile_cons, bne_iff_ne, ne_eq, hc,
              not_false_eq_true, if_true, List.length_cons, hrest]
            omega

theorem digitsLen_append_lt {s : List UInt8} (t : List UInt8) :
    digitsLen (s ++ t) < s.length ↔ digitsLen s < s.length := by
  induction s with
  | nil => simp
  | cons c s ih =>
      simp only [List.cons_append, digitsLen, List.length_cons]
      split
      · simpa using ih
      · simp

/-- Whether the number ends inside of a text does not depend on what follows. -/
theorem numberLen_append_lt {s : List UInt8} (t : List UInt8) :
    numberLen (s ++ t) < s.length ↔ numberLen s < s.length := by
  induction s with
  | nil => simp
  | cons c s ih =>
      simp only [List.cons_append, numberLen, List.length_cons]
      split_ifs
      · simpa using ih
      · simpa using digitsLen_append_lt t
      · exact digitsLen_append_lt (s := c :: s) t

/-- Whether the scan ends inside of the payload depends on the payload only. -/
theorem ends_take {limit : Nat} {name : List UInt8} (h : limit ≤ name.length) :
    Ends limit (name.take limit) ↔ Ends limit name := by
  have hlen := textLen_take name limit
  unfold Ends
  by_cases hend : textLen name + 1 < limit
  · have htext : textLen (name.take limit) = textLen name := by omega
    have hbyte : (name.take limit).getD (textLen name + 1) 0 = name.getD (textLen name + 1) 0 := by
      rw [List.getD_eq_getElem?_getD, List.getD_eq_getElem?_getD, List.getElem?_take_of_lt hend]
    have hnumber : textLen name + 1 + numberLen (name.drop (textLen name + 1)) < limit ↔
        textLen name + 1 + numberLen ((name.take limit).drop (textLen name + 1)) < limit := by
      have htake : (name.take limit).length = limit := List.length_take_of_le h
      have hsplit : name.drop (textLen name + 1) =
          (name.take limit).drop (textLen name + 1) ++ name.drop limit := by
        rw [← List.drop_append_of_le_length (by omega), List.take_append_drop]
      have hinside := @numberLen_append_lt ((name.take limit).drop (textLen name + 1))
        (name.drop limit)
      rw [← hsplit, List.length_drop, htake] at hinside
      omega
    rw [htext, hbyte, hnumber]
  · exact ⟨fun hends => absurd hends.1 (by omega), fun hends => absurd hends.1 hend⟩

/-! ## Every header -/

/-- A header is scanned inside of the payload, and its name fits in `name_buf`. -/
structure HeaderInside (name : List UInt8) : Prop where
  reads : (scanHeader name).Within 128
  fits : ∀ header ∈ (scanHeader name).value, header.2.nameBuf.length ≤ 128

/-- The text of a payload ends inside of it: there is no name, or a NUL and a character
behind it, which is a NUL or starts a number that ends. -/
def HeaderEnds (payload : List UInt8) : Prop := payload.getD 0 0 = 0 ∨ Ends 128 payload

theorem ymodemRecvFileOpen_nameBuf (name : List UInt8) :
    (ymodemRecvFileOpen name).value.nameBuf = name.take (textLen name) ++ [0] := by
  unfold ymodemRecvFileOpen
  change (ite _ _ _ : Reads Opened).value.nameBuf = _
  split <;> rfl

theorem scanHeader_value (name : List UInt8) :
    (scanHeader name).value = if name.getD 0 0 = 0 then none
      else some ((scanFileSize name).value, (ymodemRecvFileOpen name).value) := by
  unfold scanHeader
  change (ite _ _ _ : Reads (Option (Nat × Opened))).value = _
  rw [byteAt_value]
  split <;> rfl

theorem headerInside_iff_headerEnds {name : List UInt8} (hlen : 128 ≤ name.length) :
    HeaderInside name ↔ HeaderEnds (name.take 128) := by
  have hfirst : (name.take 128).getD 0 0 = name.getD 0 0 := by
    rw [List.getD_eq_getElem?_getD, List.getD_eq_getElem?_getD,
      List.getElem?_take_of_lt (by decide)]
  have hreads := @within_scanHeader 128 name (by decide)
  rw [HeaderEnds, hfirst, ends_take hlen, ← hreads]
  refine ⟨HeaderInside.reads, fun hwithin => ⟨hwithin, fun header hheader => ?_⟩⟩
  rw [scanHeader_value] at hheader
  by_cases hempty : name.getD 0 0 = 0
  · rw [if_pos hempty] at hheader
    cases hheader
  · rw [if_neg hempty] at hheader
    obtain rfl := Option.some.inj hheader
    have hends := (hreads.mp hwithin).resolve_left hempty
    have hend := hends.1
    rw [ymodemRecvFileOpen_nameBuf, List.length_append, List.length_take, List.length_singleton]
    omega

/-- For every packet: the scans stay inside of the payload exactly if its text ends there. -/
theorem headerInside_iff (rcvbuf : List UInt8) (hlen : nkYmShortPacketLen ≤ rcvbuf.length) :
    HeaderInside (rcvbuf.drop 3) ↔ HeaderEnds ((rcvbuf.drop 3).take 128) := by
  refine headerInside_iff_headerEnds ?_
  rw [List.length_drop]
  exact Nat.le_sub_of_add_le (Nat.le_trans (by decide) hlen)

/-- The header of the file `a` of 5 bytes. -/
def fivePacket : List UInt8 :=
  [0x01, 0x00, 0xff, 97, 0, 53] ++ List.replicate 125 0 ++ [0xab, 0xeb]

theorem headerInside_iff_five : HeaderInside (fivePacket.drop 3) :=
  (headerInside_iff fivePacket (by decide +kernel)).mpr (Or.inr (by decide +kernel))

/-- A packet whose payload is one long name. -/
def longNamePacket : List UInt8 := [0x01, 0x00, 0xff] ++ List.replicate 128 97 ++ [0xba, 0x26]

/-- It has a good CRC, and its name is not ended by the payload. -/
theorem longNamePacket_not_inside :
    firstPacket longNamePacket nkYmShortPacketLen 0 = true ∧
      ¬ HeaderInside (longNamePacket.drop 3) := by
  refine ⟨by decide +kernel, fun hinside => ?_⟩
  rw [headerInside_iff_headerEnds (by decide +kernel)] at hinside
  revert hinside
  unfold HeaderEnds Ends
  decide +kernel

end LibnklabsPico.Ymodem
