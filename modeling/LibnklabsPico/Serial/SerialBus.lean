/-
  Serial/SerialBus.lean --- drivers of serial memories and the bus they use.

  A driver owns a transfer buffer and gives prefixes of it to the device.  Its
  calls are stores to the buffer, loads from it and transfers; a store or load
  outside the buffer is not answered.  A loop that does not end is the call
  `spin`, which has no answer either.  `serialBus` runs drivers on a device and
  keeps a log of everything that was sent.
-/
import LibnklabsPico.Foundation.Memory
import LibnklabsPico.Foundation.Numeral
import LibnklabsPico.Foundation.Prog

set_option autoImplicit false

namespace LibnklabsPico.Serial

open LibnklabsPico.Foundation

/-- The calls of a driver. -/
inductive SerialCmd where
  /-- store bytes in the transfer buffer -/
  | put (index : Nat) (bytes : List UInt8)
  /-- load bytes from the transfer buffer -/
  | get (index len : Nat)
  /-- `spi_transfer` or `nk_i2c_write` of the first bytes of the buffer -/
  | transfer (len : Nat)
  /-- `nk_i2c_read` -/
  | receive (len : Nat)
  /-- a loop that does not end -/
  | spin

/-- The answers to the calls of a driver. -/
abbrev SerialCmd.Res : SerialCmd → Type
  | .put _ _ => Unit
  | .get _ _ => List UInt8
  | .transfer _ => Int32
  | .receive _ => Int32 × List UInt8
  | .spin => Empty

/-- Drivers. -/
abbrev SerialProg : Type → Type := Prog SerialCmd SerialCmd.Res

/-- `info->buffer[index] = ...` -/
def put (index : Nat) (bytes : List UInt8) : SerialProg Unit :=
  Prog.perform (SerialCmd.put index bytes)

/-- `... = info->buffer[index]` -/
def get (index len : Nat) : SerialProg (List UInt8) := Prog.perform (SerialCmd.get index len)

/-- Send the first `len` bytes of the buffer. -/
def transfer (len : Nat) : SerialProg Int32 := Prog.perform (SerialCmd.transfer len)

/-- Receive `len` bytes. -/
def receive (len : Nat) : SerialProg (Int32 × List UInt8) :=
  Prog.perform (SerialCmd.receive len)

/-- A loop that does not end. -/
def spin {α : Type} : SerialProg α := Prog.call SerialCmd.spin Empty.elim

/-- A device with states `σ`: what it answers to a transfer, and what takes the
place of the bytes sent in the buffer; what it answers to a request to send. -/
structure SerialDevice (σ : Type) where
  transfer : List UInt8 → σ → (Int32 × List UInt8) × σ
  receive : Nat → σ → (Int32 × List UInt8) × σ

/-- A device, the transfer buffer of its driver and all that was sent. -/
structure Bus (σ : Type) where
  size : Nat
  buffer : Memory
  device : σ
  log : List (List UInt8)

/-- The effect of a transfer on the bus. -/
def Bus.transferred {σ : Type} (d : SerialDevice σ) (len : Nat) (s : Bus σ) : Bus σ :=
  { s with
    buffer := s.buffer.store 0 (d.transfer (s.buffer.read 0 len) s.device).1.2
    device := (d.transfer (s.buffer.read 0 len) s.device).2
    log := s.log ++ [s.buffer.read 0 len] }

/-- Run the calls of a driver on a device. -/
def serialBus {σ : Type} (d : SerialDevice σ) : Handler SerialCmd SerialCmd.Res (Bus σ)
  | .put index bytes, s =>
      if index + bytes.length ≤ s.size then
        some ((), { s with buffer := s.buffer.store index bytes })
      else none
  | .get index len, s =>
      if index + len ≤ s.size then some (s.buffer.read index len, s) else none
  | .transfer len, s =>
      if len ≤ s.size then
        some ((d.transfer (s.buffer.read 0 len) s.device).1.1, s.transferred d len)
      else none
  | .receive len, s =>
      some ((d.receive len s.device).1, { s with device := (d.receive len s.device).2 })
  | .spin, _ => none

section
variable {σ : Type} {d : SerialDevice σ} {s : Bus σ}

theorem run_put {index : Nat} {bytes : List UInt8} (h : index + bytes.length ≤ s.size) :
    (put index bytes).run (serialBus d) s =
      some ((), { s with buffer := s.buffer.store index bytes }) := by
  rw [put, Prog.run_perform, serialBus, if_pos h]

theorem run_get {index len : Nat} (h : index + len ≤ s.size) :
    (get index len).run (serialBus d) s = some (s.buffer.read index len, s) := by
  rw [get, Prog.run_perform, serialBus, if_pos h]

theorem run_transfer {len : Nat} (h : len ≤ s.size) :
    (transfer len).run (serialBus d) s =
      some ((d.transfer (s.buffer.read 0 len) s.device).1.1, s.transferred d len) := by
  rw [transfer, Prog.run_perform, serialBus, if_pos h]

theorem run_receive (len : Nat) :
    (receive len).run (serialBus d) s =
      some ((d.receive len s.device).1, { s with device := (d.receive len s.device).2 }) := by
  rw [receive, Prog.run_perform, serialBus]

end

/-! ## Addresses -/

/-- The bytes of an address, most significant first. -/
def bigEndian (n address : Nat) : List UInt8 := (leBytes n address).reverse

/-- The address that bytes stand for, most significant first. -/
def ofBigEndian (bytes : List UInt8) : Nat := ofLe bytes.reverse

@[simp] theorem bigEndian_length (n address : Nat) : (bigEndian n address).length = n := by
  rw [bigEndian, List.length_reverse, leBytes_length]

theorem ofBigEndian_bigEndian {n address : Nat} (h : address < 256 ^ n) :
    ofBigEndian (bigEndian n address) = address := by
  rw [ofBigEndian, bigEndian, List.reverse_reverse, ofLe_leBytes, Nat.mod_eq_of_lt h]

/-- The loop `for (y = 0; y != info->addr_size; ++y)` that stores the bytes of an
address from the last to the first; the first goes to `base`. -/
def putAddress (base : Nat) : Nat → Nat → SerialProg Unit
  | 0, _ => pure ()
  | n + 1, addr => do
      put (base + n) [UInt8.ofNat addr]
      putAddress base n (addr >>> 8)

/-- The loop leaves the address in the buffer. -/
theorem run_putAddress {σ : Type} {d : SerialDevice σ} {s : Bus σ} {base n addr : Nat}
    (h : base + n ≤ s.size) :
    (putAddress base n addr).run (serialBus d) s =
      some ((), { s with buffer := s.buffer.store base (bigEndian n addr) }) := by
  induction n generalizing addr s with
  | zero =>
      rw [putAddress, Prog.run_pure, bigEndian, leBytes, List.reverse_nil, Memory.store_nil]
  | succ n ih =>
      have hput : (put (base + n) [UInt8.ofNat addr]).run (serialBus d) s = some ((),
          { s with buffer := s.buffer.store (base + n) [UInt8.ofNat addr] }) := run_put h
      have hcomm : (s.buffer.store (base + n) [UInt8.ofNat addr]).store base
            (bigEndian n (addr / 256)) =
          (s.buffer.store base (bigEndian n (addr / 256))).store (base + n)
            [UInt8.ofNat addr] :=
        s.buffer.store_comm (Or.inr (by rw [bigEndian_length]))
      have hcons : bigEndian (n + 1) addr =
          bigEndian n (addr / 256) ++ [UInt8.ofNat addr] := by
        rw [bigEndian, leBytes, List.reverse_cons, bigEndian]
      have happend := s.buffer.store_append base (bigEndian n (addr / 256))
        [UInt8.ofNat addr]
      rw [bigEndian_length] at happend
      rw [putAddress, Prog.run_bind_of hput, ih (by exact Nat.le_of_succ_le h),
        Nat.shiftRight_eq_div_pow, hcomm, happend, ← hcons]

/-! ## Commands -/

/-- The bus after some bytes were put in the buffer and sent, for what the device
replied and became. -/
def Bus.sent {σ : Type} (bytes reply : List UInt8) (device : σ) (s : Bus σ) : Bus σ :=
  { s with
    buffer := (s.buffer.store 0 bytes).store 0 reply
    device := device
    log := s.log ++ [bytes] }

section
variable {σ α : Type} {d : SerialDevice σ} {s : Bus σ} {status : Int32} {reply : List UInt8}
  {device : σ} {f : Int32 → SerialProg α}

/-- Transfer bytes that stand at the start of the buffer. -/
theorem run_transfer_put {bytes : List UInt8} {len : Nat} (hlen : bytes.length = len)
    (hsize : len ≤ s.size) (hreply : d.transfer bytes s.device = ((status, reply), device)) :
    (transfer len >>= f).run (serialBus d) { s with buffer := s.buffer.store 0 bytes } =
      (f status).run (serialBus d) (s.sent bytes reply device) := by
  subst hlen
  have hrun := run_transfer (d := d) (s := { s with buffer := s.buffer.store 0 bytes }) hsize
  rw [Prog.run_bind_of hrun, Bus.transferred, Bus.sent]
  simp only [Memory.read_store, hreply]

/-- Send a command with an address and data. -/
theorem run_command (cmd : UInt8) (n address len : Nat) {data : List UInt8}
    (hlen : data.length = len) (hsize : 1 + n + len ≤ s.size)
    (hreply : d.transfer (cmd :: (bigEndian n address ++ data)) s.device =
      ((status, reply), device)) :
    (do put 0 [cmd]
        putAddress 1 n address
        put (1 + n) data
        let status ← transfer (1 + n + len)
        f status : SerialProg α).run (serialBus d) s =
      (f status).run (serialBus d)
        (s.sent (cmd :: (bigEndian n address ++ data)) reply device) := by
  have haddress := s.buffer.store_append 0 [cmd] (bigEndian n address)
  have hdata := s.buffer.store_append 0 (cmd :: bigEndian n address) data
  simp only [List.length_cons, List.length_nil, bigEndian_length, Nat.zero_add,
    List.cons_append, List.nil_append, Nat.add_comm n 1] at haddress hdata
  rw [Prog.run_bind_of (run_put (by rw [List.length_singleton]; omega)),
    Prog.run_bind_of (run_putAddress (by exact Nat.le_of_add_right_le hsize))]
  simp only [haddress]
  rw [Prog.run_bind_of (run_put (by rw [hlen]; exact hsize))]
  simp only [hdata]
  refine run_transfer_put ?_ hsize hreply
  rw [List.length_cons, List.length_append, bigEndian_length, hlen]
  omega

/-- Send a command with an address and no data. -/
theorem run_command_nil (cmd : UInt8) (n address : Nat) (hsize : 1 + n ≤ s.size)
    (hreply : d.transfer (cmd :: bigEndian n address) s.device = ((status, reply), device)) :
    (do put 0 [cmd]
        putAddress 1 n address
        let status ← transfer (n + 1)
        f status : SerialProg α).run (serialBus d) s =
      (f status).run (serialBus d) (s.sent (cmd :: bigEndian n address) reply device) := by
  have haddress := s.buffer.store_append 0 [cmd] (bigEndian n address)
  simp only [List.length_cons, List.length_nil, Nat.zero_add, List.cons_append,
    List.nil_append] at haddress
  rw [Prog.run_bind_of (run_put (by rw [List.length_singleton]; omega)),
    Prog.run_bind_of (run_putAddress (by exact hsize))]
  simp only [haddress]
  refine run_transfer_put ?_ (by omega) hreply
  rw [List.length_cons, bigEndian_length]

/-- Send a command with an address and as many further bytes of the buffer. -/
theorem run_exchange (cmd : UInt8) (n address len : Nat) (hsize : 1 + n + len ≤ s.size)
    (hreply : d.transfer (cmd :: (bigEndian n address ++ s.buffer.read (1 + n) len)) s.device =
      ((status, reply), device)) :
    (do put 0 [cmd]
        putAddress 1 n address
        let status ← transfer (1 + n + len)
        f status : SerialProg α).run (serialBus d) s =
      (f status).run (serialBus d)
        (s.sent (cmd :: (bigEndian n address ++ s.buffer.read (1 + n) len)) reply device) := by
  have haddress := s.buffer.store_append 0 [cmd] (bigEndian n address)
  have hrest := s.buffer.store_append 0 (cmd :: bigEndian n address)
    (s.buffer.read (1 + n) len)
  have hkept : (s.buffer.store 0 (cmd :: bigEndian n address)).read (1 + n) len =
      s.buffer.read (1 + n) len := by
    refine s.buffer.read_store_of_disjoint (Or.inr ?_)
    rw [List.length_cons, bigEndian_length]
    omega
  simp only [List.length_cons, List.length_nil, bigEndian_length, Nat.zero_add,
    List.cons_append, List.nil_append, Nat.add_comm n 1] at haddress hrest
  rw [← hkept, Memory.store_read, hkept] at hrest
  rw [Prog.run_bind_of (run_put (by rw [List.length_singleton]; omega)),
    Prog.run_bind_of (run_putAddress (by exact Nat.le_of_add_right_le hsize))]
  simp only [haddress]
  rw [hrest]
  refine run_transfer_put ?_ hsize hreply
  rw [List.length_cons, List.length_append, bigEndian_length, Memory.read_length]
  omega

end

end LibnklabsPico.Serial
