/-
  Serial/I2cCommand.lean --- when the I2C command stays inside its arrays.

  `i2cArgumentsAt` says which arguments a text has, in terms of the formats.  The
  command has no limit for the bytes it collects nor for the length it reads.
-/
import LibnklabsPico.Serial.Nki2c

set_option autoImplicit false

namespace LibnklabsPico.Serial

open LibnklabsPico.Foundation
open LibnklabsPico.File
open LibnklabsPico.File.FileProg
open LibnklabsPico.Text

/-! ## Arguments -/

/-- `"scan "` -/
def scanFormat : List FormatItem :=
  [.lit 115 (by decide), .lit 99 (by decide), .lit 97 (by decide), .lit 110 (by decide),
    .blank false]

/-- `"w "` -/
def writeFormat : List FormatItem := [.lit 119 (by decide), .blank false]

/-- `"%hhx "` -/
def byteFormat : List FormatItem := [.hex [] .hh, .blank false]

/-- `"r %hhx %x "` -/
def readFormat : List FormatItem :=
  [.lit 114 (by decide), .blank false, .hex [] .hh, .blank false, .hex [] .int, .blank false]

/-- The bytes at a position, at most `n`, and where they end. -/
def bytesAt (text : List UInt8) : Nat → Nat → List UInt8 × Nat
  | 0, pos => ([], pos)
  | n + 1, pos =>
      match itemsAt decimalWidth text true byteFormat pos with
      | some (next, vals) =>
          (vals.map UInt8.ofNat ++ (bytesAt text n next).1, (bytesAt text n next).2)
      | none => ([], pos)

/-- The bytes behind a `w` at a position, and where they end. -/
def writeArgumentsAt (text : List UInt8) (pos : Nat) : List UInt8 × Nat :=
  match itemsAt decimalWidth text true writeFormat pos with
  | some (next, _) => bytesAt text text.length next
  | none => ([], pos)

/-- The address and the length behind an `r` at a position. -/
def readArgumentsAt (text : List UInt8) (pos : Nat) : UInt8 × Nat :=
  match itemsAt decimalWidth text false readFormat pos with
  | some (_, [readAddr, readLen]) => (UInt8.ofNat readAddr, readLen)
  | _ => (0, 0)

/-- The arguments at a position. -/
def i2cArgumentsAt (text : List UInt8) (pos : Nat) : I2cArguments :=
  match itemsAt decimalWidth text false scanFormat pos with
  | some _ => .scan
  | none =>
      let (bytes, stop) := writeArgumentsAt text pos
      let (readAddr, readLen) := readArgumentsAt text stop
      .transfer bytes readAddr readLen

section

variable {text : List UInt8} {pos next : Nat} {vals : List Nat}

/-- A byte has at least one digit. -/
theorem byteFormat_lt (h : itemsAt decimalWidth text true byteFormat pos = some (next, vals)) :
    pos < text.length ∧ pos < next := by
  obtain ⟨⟨mid, first⟩, hhex, hrest⟩ := Option.bind_eq_some_iff.mp h
  obtain ⟨⟨stop, rest⟩, hitems, hvals⟩ := Option.map_eq_some_iff.mp hrest
  obtain ⟨rfl, -⟩ := Prod.mk.inj hvals
  have htaken : (hexField text pos [] SizeFlag.hh.code).taken decimalWidth = some (mid, first) :=
    hhex
  obtain ⟨c, chars, hchars, hmid, -⟩ := Field.taken_eq_some htaken
  have hblank : mid + (run nkIsspace text mid).length = stop := by
    have hstop : (some (mid + (run nkIsspace text mid).length, []) : Option (Nat × List Nat)) =
        some (stop, rest) := hitems
    exact (Prod.mk.inj (Option.some.inj hstop)).1
  refine ⟨?_, ?_⟩
  · by_contra hend
    have hnone : run (hasVal hexVal) text pos = [] :=
      run_eq_nil (by rw [charAt_of_drop_nil (List.drop_eq_nil_of_le (Nat.not_lt.mp hend))]; rfl)
    have hfield : field (decimalWidth []) (run (hasVal hexVal) text pos) = c :: chars := hchars
    rw [hnone, field_nil] at hfield
    cases hfield
  · have hstart : (hexField text pos [] SizeFlag.hh.code).start = pos := rfl
    rw [hstart, List.length_cons] at hmid
    omega

/-- As many passes as there are characters are enough. -/
theorem bytesAt_enough {m n : Nat} (hm : text.length - pos ≤ m) (hn : text.length - pos ≤ n) :
    bytesAt text m pos = bytesAt text n pos := by
  induction m generalizing n pos with
  | zero =>
      cases n with
      | zero => rfl
      | succ n =>
          cases hbyte : itemsAt decimalWidth text true byteFormat pos with
          | none => simp only [bytesAt, hbyte]
          | some found =>
              have hless := byteFormat_lt hbyte
              omega
  | succ m ih =>
      cases hbyte : itemsAt decimalWidth text true byteFormat pos with
      | none => cases n <;> simp only [bytesAt, hbyte]
      | some found =>
          have hless := byteFormat_lt hbyte
          cases n with
          | zero => omega
          | succ n =>
              have hrest : bytesAt text m found.1 = bytesAt text n found.1 :=
                ih (by omega) (by omega)
              simp only [bytesAt, hbyte, hrest]

end

/-! ## The scanner finds the arguments -/

section

variable {fl : Floats} {fuel : Nat} {text : List UInt8} {pos : Nat}

/-- A format without arguments and field widths. -/
theorem stays_nkFscan (items : List FormatItem) (succeed : Bool) (hfuel : text.length ≤ fuel)
    (fmt : String) (hfmt : formatString items succeed = fmt)
    (hargs : items.flatMap FormatItem.args = [])
    (hwidths : itemsAt addedWidth text succeed items pos =
      itemsAt decimalWidth text succeed items pos) :
    Stays text (nkFscan fl fuel fmt) pos fun r pos' =>
      match itemsAt decimalWidth text succeed items pos with
      | some (next, _) => r = true ∧ pos' = next
      | none => r = false ∧ pos' = pos := by
  have hscan : Stays text _ pos _ := stays_vscan_items fl hfuel items succeed (fun _ => 0)
  rw [hfmt, hargs, hwidths] at hscan
  refine .bind hscan fun r pos' h => .pure ?_
  cases hitems : itemsAt decimalWidth text succeed items pos with
  | none =>
      rw [hitems] at h
      exact h
  | some found =>
      rw [hitems] at h
      exact ⟨h.1.1, h.2⟩

variable (fl) in
/-- The loop collects the bytes that are there. -/
theorem stays_collectBytes (hfuel : text.length ≤ fuel) (n : Nat) (bytes : List UInt8) :
    Stays text (collectBytes fl fuel n bytes) pos fun r pos' =>
      r = bytes ++ (bytesAt text n pos).1 ∧ pos' = (bytesAt text n pos).2 := by
  induction n generalizing pos bytes with
  | zero => exact .pure ⟨(List.append_nil _).symm, rfl⟩
  | succ n ih =>
      have hscan : Stays text _ pos _ :=
        stays_vscan_items fl hfuel byteFormat true (fun _ => 0)
      have hwidths : itemsAt addedWidth text true byteFormat pos =
          itemsAt decimalWidth text true byteFormat pos := rfl
      rw [hwidths] at hscan
      rw [collectBytes, bytesAt]
      refine .bind hscan fun r pos' h => ?_
      obtain ⟨status, out, mem⟩ := r
      cases hbyte : itemsAt decimalWidth text true byteFormat pos with
      | none =>
          rw [hbyte] at h
          obtain ⟨hstatus, rfl⟩ := h
          obtain rfl : status = false := hstatus
          exact .pure ⟨(List.append_nil _).symm, rfl⟩
      | some found =>
          obtain ⟨next, vals⟩ := found
          rw [hbyte] at h
          obtain ⟨⟨hstatus, hvals⟩, rfl⟩ := h
          obtain rfl : status = true := hstatus
          obtain rfl : storedNumbers out = vals := hvals
          refine (ih _).mono fun r pos' h => ?_
          obtain ⟨rfl, rfl⟩ := h
          exact ⟨List.append_assoc .., rfl⟩

variable (fl) in
theorem stays_writeArguments (hfuel : text.length ≤ fuel) :
    Stays text (writeArguments fl fuel) pos fun r pos' =>
      r = (writeArgumentsAt text pos).1 ∧ pos' = (writeArgumentsAt text pos).2 := by
  unfold writeArguments writeArgumentsAt
  refine .bind (stays_nkFscan writeFormat true hfuel "w %e" rfl rfl rfl) fun r pos' h => ?_
  cases hwrite : itemsAt decimalWidth text true writeFormat pos with
  | none =>
      rw [hwrite] at h
      obtain ⟨rfl, rfl⟩ := h
      exact .pure ⟨rfl, rfl⟩
  | some found =>
      rw [hwrite] at h
      obtain ⟨rfl, rfl⟩ := h
      refine (stays_collectBytes fl hfuel fuel []).mono fun r pos' h => ?_
      obtain ⟨rfl, rfl⟩ := h
      rw [List.nil_append, bytesAt_enough (show text.length - found.1 ≤ fuel by omega)
        (show text.length - found.1 ≤ text.length by omega)]
      exact ⟨rfl, rfl⟩

variable (fl) in
theorem stays_readArguments (hfuel : text.length ≤ fuel) :
    Stays text (readArguments fl fuel) pos fun r _ => r = readArgumentsAt text pos := by
  have hscan : Stays text _ pos _ := stays_vscan_items fl hfuel readFormat false (fun _ => 0)
  have hwidths : itemsAt addedWidth text false readFormat pos =
      itemsAt decimalWidth text false readFormat pos := rfl
  rw [hwidths] at hscan
  unfold readArguments readArgumentsAt
  refine .bind hscan fun r pos' h => ?_
  obtain ⟨status, out, mem⟩ := r
  cases hread : itemsAt decimalWidth text false readFormat pos with
  | none =>
      rw [hread] at h
      obtain rfl : status = false := h.1
      exact .pure rfl
  | some found =>
      obtain ⟨next, vals⟩ := found
      rw [hread] at h
      obtain ⟨⟨hstatus, hvals⟩, -⟩ := h
      obtain rfl : status = true := hstatus
      dsimp only at hvals ⊢
      rw [hvals]
      rcases vals with _ | ⟨readAddr, _ | ⟨readLen, _ | ⟨more, rest⟩⟩⟩
      · exact .pure rfl
      · exact .pure rfl
      · exact .pure rfl
      · exact .pure rfl

/-- The command takes the arguments that the text has. -/
theorem stays_i2cArguments (hfuel : text.length ≤ fuel) :
    Stays text (i2cArguments fl fuel) pos fun r _ => r = i2cArgumentsAt text pos := by
  unfold i2cArguments i2cArgumentsAt
  refine .bind (stays_nkFscan scanFormat false hfuel "scan " rfl rfl rfl) fun r pos' h => ?_
  cases hscan : itemsAt decimalWidth text false scanFormat pos with
  | some found =>
      rw [hscan] at h
      obtain ⟨rfl, -⟩ := h
      exact .pure rfl
  | none =>
      rw [hscan] at h
      obtain ⟨rfl, rfl⟩ := h
      refine .bind (stays_writeArguments fl hfuel) fun bytes pos₁ h => ?_
      obtain ⟨rfl, rfl⟩ := h
      refine .bind (stays_readArguments fl hfuel) fun r pos₂ h => ?_
      subst h
      exact .pure rfl

end

/-! ## The accesses -/

/-- The access is inside its array, or of the length that `count` collected bytes have
without the first one. -/
def I2cAccess.InBounds (count : Nat) : I2cAccess → Prop
  | writeArray index => index < 20
  | sent len => len = count - 1
  | received len => len ≤ 20
  | readArray index => index < 20

section

variable {σ : Type} {count : Nat}

theorem writeArray_inBounds (n : Nat) :
    (∀ a ∈ (List.range n).map I2cAccess.writeArray, a.InBounds count) ↔ n ≤ 20 := by
  simp only [List.forall_mem_map, List.mem_range, I2cAccess.InBounds]
  constructor
  · intro h
    by_contra hmore
    exact absurd (h 20 (by omega)) (Nat.lt_irrefl 20)
  · intro h i hi
    omega

/-- What is read is in bounds exactly if the length is. -/
theorem i2cReadBytes_inBounds (bus : NkI2cBus σ) (readAddr : UInt8) (readLen : Nat) (s : σ) :
    (∀ a ∈ (i2cReadBytes bus readAddr readLen s).1, a.InBounds count) ↔ readLen ≤ 20 := by
  unfold i2cReadBytes
  by_cases hzero : readLen = 0
  · rw [if_neg (not_not.mpr hzero), hzero]
    exact iff_of_true (by simp) (Nat.zero_le _)
  · rw [if_pos hzero]
    by_cases hstatus : (bus.i2cRead readAddr readLen s).1 = 0
    · simp only [hstatus, ne_eq, not_true_eq_false, if_false, List.forall_mem_cons,
        List.forall_mem_map, List.mem_range, I2cAccess.InBounds]
      exact ⟨fun h => h.1, fun h => ⟨h, fun i hi => by omega⟩⟩
    · simp only [hstatus, ne_eq, not_false_eq_true, if_true, List.forall_mem_singleton,
        I2cAccess.InBounds]

/-- There are bytes to write, and the bus reports an error for them. -/
def WriteFails (bus : NkI2cBus σ) (bytes : List UInt8) (s : σ) : Prop :=
  bytes ≠ [] ∧ (bus.i2cWriteNostop (bytes.headD 0) bytes.tail s).1 ≠ 0

/-- The length that is left to read. -/
theorem i2cWriteBytes_readLen (bus : NkI2cBus σ) (bytes : List UInt8) (readLen : Nat) (s : σ) :
    (i2cWriteBytes bus bytes readLen s).2.1 ≤ 20 ↔ readLen ≤ 20 ∨ WriteFails bus bytes s := by
  unfold WriteFails
  cases bytes with
  | nil => simp [i2cWriteBytes]
  | cons addr data =>
      unfold i2cWriteBytes
      by_cases hzero : readLen = 0
      · subst hzero
        simp
      · by_cases hstatus : (bus.i2cWriteNostop addr data s).1 = 0
        · simp [hzero, hstatus]
        · simp [hzero, hstatus]

theorem i2cWriteBytes_inBounds (bus : NkI2cBus σ) (bytes : List UInt8) (readLen : Nat) (s : σ) :
    (∀ a ∈ (i2cWriteBytes bus bytes readLen s).1, a.InBounds bytes.length) ↔
      bytes.length ≤ 20 := by
  cases bytes with
  | nil => simp [i2cWriteBytes]
  | cons addr data =>
      have hfirst : I2cAccess.InBounds (addr :: data).length (.writeArray 0) := Nat.zero_lt_succ 19
      have hsent : I2cAccess.InBounds (addr :: data).length (.sent data.length) := rfl
      unfold i2cWriteBytes
      rw [List.forall_mem_append, writeArray_inBounds]
      refine and_iff_left ?_
      intro a ha
      rcases List.mem_pair.mp ha with rfl | rfl
      · exact hfirst
      · exact hsent

/-- The accesses of a transfer are in bounds exactly if there are at most 20 bytes to
write, and at most 20 to read or the write fails. -/
theorem i2cTransfer_inBounds (bus : NkI2cBus σ) (bytes : List UInt8) (readAddr : UInt8)
    (readLen : Nat) (s : σ) :
    (∀ a ∈ (i2cTransfer bus bytes readAddr readLen s).1, a.InBounds bytes.length) ↔
      bytes.length ≤ 20 ∧ (readLen ≤ 20 ∨ WriteFails bus bytes s) := by
  unfold i2cTransfer
  dsimp only
  rw [List.forall_mem_append, List.forall_mem_append, writeArray_inBounds,
    i2cWriteBytes_inBounds, i2cReadBytes_inBounds, i2cWriteBytes_readLen, and_self]

end

/-! ## The command -/

/-- The command makes no access outside of its arrays, hands the bus no length that does
not fit, and writes the collected bytes behind the address byte. -/
def I2cInBounds {σ : Type} {w : Nat} (bus : NkI2cBus σ) (fl : Floats) (fuel : Nat)
    (f : Nkinfile w) (s : σ) : Prop :=
  ∃ bytes accesses f' s', nkI2cCommand bus fl fuel f s = some (bytes, accesses, f', s') ∧
    ∀ a ∈ accesses, a.InBounds bytes.length

/-- The arguments ask for no more than the arrays hold: at most 20 bytes to write, and at
most 20 to read unless the write fails. -/
def I2cArguments.Fit {σ : Type} (bus : NkI2cBus σ) (s : σ) : I2cArguments → Prop
  | .scan => True
  | .transfer bytes _ readLen => bytes.length ≤ 20 ∧ (readLen ≤ 20 ∨ WriteFails bus bytes s)

/-- What the command does with the arguments of a text. -/
theorem nkI2cCommand_eq {σ : Type} {w : Nat} (bus : NkI2cBus σ) (fl : Floats) {fuel : Nat}
    {f : Nkinfile w} {text : List UInt8} {pos : Nat} (s : σ) (agrees : Agrees f ⟨text, pos⟩)
    (hfuel : text.length ≤ fuel) :
    ∃ f', nkI2cCommand bus fl fuel f s =
      match i2cArgumentsAt text pos with
      | .scan => some ([], [], f', pingAll bus (0x78 - 8) 8 s)
      | .transfer bytes readAddr readLen =>
          some (bytes, (i2cTransfer bus bytes readAddr readLen s).1, f',
            (i2cTransfer bus bytes readAddr readLen s).2) := by
  have hstays : Stays text (i2cArguments fl fuel) pos _ := stays_i2cArguments hfuel
  obtain ⟨arguments, f', pos', hrun, -, rfl⟩ := hstays.run agrees
  refine ⟨f', ?_⟩
  unfold nkI2cCommand
  rw [hrun]
  cases i2cArgumentsAt text pos <;> rfl

theorem i2cInBounds_transfer {σ : Type} {w : Nat} {bus : NkI2cBus σ} {fl : Floats} {fuel : Nat}
    {f f' : Nkinfile w} {s s' : σ} {bytes : List UInt8} {accesses : List I2cAccess}
    (hrun : nkI2cCommand bus fl fuel f s = some (bytes, accesses, f', s')) :
    I2cInBounds bus fl fuel f s ↔ ∀ a ∈ accesses, a.InBounds bytes.length := by
  constructor
  · rintro ⟨bytes₁, accesses₁, f₁, s₁, hrun₁, hbounds⟩
    obtain ⟨rfl, rfl, -⟩ : bytes = bytes₁ ∧ accesses = accesses₁ ∧ _ := by
      simpa only [Option.some.injEq, Prod.mk.injEq] using hrun.symm.trans hrun₁
    exact hbounds
  · intro hbounds
    exact ⟨bytes, accesses, f', s', hrun, hbounds⟩

/-- For every argument text, bus and state of it, the command stays within its arrays
exactly if the arguments of the text fit. -/
theorem i2cInBounds_iff {σ : Type} {w : Nat} (bus : NkI2cBus σ) (fl : Floats) {fuel : Nat}
    {f : Nkinfile w} {text : List UInt8} {pos : Nat} (s : σ) (agrees : Agrees f ⟨text, pos⟩)
    (hfuel : text.length ≤ fuel) :
    I2cInBounds bus fl fuel f s ↔ (i2cArgumentsAt text pos).Fit bus s := by
  obtain ⟨f', hrun⟩ := nkI2cCommand_eq bus fl s agrees hfuel
  cases harguments : i2cArgumentsAt text pos with
  | scan =>
      rw [harguments] at hrun
      rw [i2cInBounds_transfer hrun]
      exact iff_of_true (by simp) trivial
  | transfer bytes readAddr readLen =>
      rw [harguments] at hrun
      rw [i2cInBounds_transfer hrun, i2cTransfer_inBounds]
      rfl

/-- A bus without errors. -/
def quietBus : NkI2cBus Unit :=
  ⟨fun _ _ _ => (0, ()), fun _ _ _ => (0, ()), fun _ _ _ => (0, ()), fun _ _ => (0, ())⟩

/-- `w 50 0 r 50 14`: two bytes are written and twenty are read. -/
theorem i2cInBounds_iff_twenty :
    I2cInBounds quietBus Floats.absent 14 (nkinfileOpenMem 32 (ascii "w 50 0 r 50 14") 14) () := by
  have harguments : i2cArgumentsAt (ascii "w 50 0 r 50 14") 0 = .transfer [80, 0] 80 20 := by
    decide
  refine (i2cInBounds_iff quietBus Floats.absent () (nkinfileOpenMem_agrees
    (ascii "w 50 0 r 50 14") [] (by decide)) (Nat.le_refl 14)).mpr ?_
  rw [harguments]
  exact ⟨by decide, Or.inl (by decide)⟩

/-- `r 50 15` reads 21 bytes, and 21 bytes behind a `w` are stored. -/
theorem not_i2cInBounds :
    ¬ I2cInBounds quietBus Floats.absent 7 (nkinfileOpenMem 32 (ascii "r 50 15") 7) () ∧
      ¬ I2cInBounds quietBus Floats.absent 43
        (nkinfileOpenMem 32 (ascii "w 0 1 2 3 4 5 6 7 8 9 a b c d e f 0 1 2 3 4") 43) () := by
  constructor
  · have harguments : i2cArgumentsAt (ascii "r 50 15") 0 = .transfer [] 80 21 := by decide
    obtain ⟨f', hrun⟩ := nkI2cCommand_eq quietBus Floats.absent ()
      (nkinfileOpenMem_agrees (w := 32) (ascii "r 50 15") [] (by decide)) (Nat.le_refl 7)
    rw [harguments] at hrun
    intro hbounds
    have hfit := (i2cTransfer_inBounds ..).mp ((i2cInBounds_transfer hrun).mp hbounds)
    rcases hfit.2 with hlen | hfails
    · exact absurd hlen (by decide)
    · exact hfails.1 rfl
  · have harguments :
        i2cArgumentsAt (ascii "w 0 1 2 3 4 5 6 7 8 9 a b c d e f 0 1 2 3 4") 0 =
          .transfer [0, 1, 2, 3, 4, 5, 6, 7, 8, 9, 10, 11, 12, 13, 14, 15, 0, 1, 2, 3, 4] 0 0 := by
      decide
    obtain ⟨f', hrun⟩ := nkI2cCommand_eq quietBus Floats.absent ()
      (nkinfileOpenMem_agrees (w := 32) (ascii "w 0 1 2 3 4 5 6 7 8 9 a b c d e f 0 1 2 3 4") []
        (by decide)) (Nat.le_refl 43)
    rw [harguments] at hrun
    intro hbounds
    have hfit := (i2cTransfer_inBounds ..).mp ((i2cInBounds_transfer hrun).mp hbounds)
    exact absurd hfit.1 (by decide)

end LibnklabsPico.Serial
