/-
  File/Streams.lean --- output files on a device that may fail.

  The device gets whole blocks; what it took, without the padding of each flush, and
  what is still in the buffer are together what was accepted.  `nk_fflush` empties the
  buffer before it knows that the device took it, so a failed flush loses what was in
  the buffer: the invariant `Intact` is kept exactly by the steps that do not do this.
-/
import LibnklabsPico.File.Nkoutfile

set_option autoImplicit false

namespace LibnklabsPico.File

open LibnklabsPico.Foundation

/-- A device for blocks, with the return values of its calls to come. -/
structure Sink where
  plan : Nat → Int
  /-- the blocks it took -/
  blocks : List (List UInt8)

/-- The device takes a block exactly when it returns `0`. -/
def Sink.answer (block : List UInt8) (sink : Sink) : Int × Sink :=
  (sink.plan 0,
    { plan := fun i => sink.plan (i + 1)
      blocks := if sink.plan 0 = 0 then sink.blocks ++ [block] else sink.blocks })

/-- Programs that write blocks. -/
abbrev BlockProg : Type → Type := Prog (List UInt8) fun _ => Int

/-- A `block_write` function of the device. -/
def sinkWrite : BlockWrite (List UInt8) (fun _ => Int) Unit :=
  some fun blockWritePtr block => do
    let rtn ← Prog.perform block
    pure (rtn, blockWritePtr)

/-- A call of the functions for output files. -/
inductive StreamOp where
  | fputc (c : UInt8)
  | fflush

/-- An output file, its device and what went through them. -/
structure Stream where
  file : Nkoutfile Unit
  plan : Nat → Int
  /-- what the device took, without padding -/
  delivered : List UInt8
  /-- the characters for which `nk_fputc` returned `0` -/
  accepted : List UInt8

/-- The program of a call. -/
def StreamOp.prog (stack : Memory) (file : Nkoutfile Unit) :
    StreamOp → BlockProg (Int × Nkoutfile Unit)
  | fputc c => nkFputc sinkWrite stack file c
  | fflush => nkFflush sinkWrite file

/-- One call.  All that is in the buffer is written at once, so the padding of a block is
what is behind the length of the buffer's contents. -/
def Stream.step (stack : Memory) (s : Stream) (op : StreamOp) : Stream :=
  let ((rtn, file), sink) := (op.prog stack s.file).exec Sink.answer ⟨s.plan, []⟩
  { file := file
    plan := sink.plan
    delivered := s.delivered ++ sink.blocks.flatMap fun block => block.take s.file.ptr
    accepted :=
      match op with
      | .fputc c => if rtn = 0 then s.accepted ++ [c] else s.accepted
      | .fflush => s.accepted }

def Stream.run (stack : Memory) (s : Stream) (ops : List StreamOp) : Stream :=
  ops.foldl (Stream.step stack) s

/-- A file that was just opened, with a buffer of `len` bytes. -/
def Stream.opened (plan : Nat → Int) (buffer : Memory) (len granularity : Nat) : Stream :=
  { file := nkoutfileOpen () buffer len granularity, plan := plan, delivered := [], accepted := [] }

/-- The bytes still buffered. -/
def Nkoutfile.buffered {F : Type} (f : Nkoutfile F) : List UInt8 := f.start.read 0 f.ptr

/-- Nothing was lost or duplicated. -/
def Stream.Intact (s : Stream) : Prop := s.delivered ++ s.file.buffered = s.accepted

/-- The call flushes a buffer that is not empty, and the device fails. -/
def Stream.Loses (s : Stream) (op : StreamOp) : Prop :=
  s.file.ptr ≠ 0 ∧ s.plan 0 ≠ 0 ∧
    match op with
    | .fputc _ => s.file.ptr = s.file.size
    | .fflush => True

/-! ## Rounding -/

theorem and_not_mask {w k : Nat} (hk : k ≤ w) {n : Nat} (hn : n < 2 ^ w) :
    n &&& (2 ^ w - 2 ^ k) = n / 2 ^ k * 2 ^ k := by
  have hpow : 2 ^ k ≤ 2 ^ w := Nat.pow_le_pow_right (by decide) hk
  refine Nat.eq_of_testBit_eq fun i => ?_
  have hmask : (2 ^ w - 2 ^ k).testBit i = (decide (i < w) && decide (k ≤ i)) := by
    have hone : 1 ≤ 2 ^ k := Nat.one_le_two_pow
    rw [show 2 ^ w - 2 ^ k = 2 ^ w - (2 ^ k - 1 + 1) by omega,
      Nat.testBit_two_pow_sub_succ (by omega), Nat.testBit_two_pow_sub_one]
    simp only [← decide_not, Nat.not_lt]
  rw [Nat.testBit_and, hmask, ← Nat.shiftLeft_eq, ← Nat.shiftRight_eq_div_pow,
    Nat.testBit_shiftLeft, Nat.testBit_shiftRight]
  rcases Nat.lt_or_ge i k with hlt | hge
  · simp [Nat.not_le.mpr hlt]
  · have hindex : k + (i - k) = i := by omega
    rcases Nat.lt_or_ge i w with hw | hw
    · simp [hge, hw, hindex]
    · have hbit : n.testBit i = false :=
        Nat.testBit_lt_two_pow (Nat.lt_of_lt_of_le hn (Nat.pow_le_pow_right (by decide) hw))
      simp [hge, hindex, hbit]

/-- The mask expression rounds up. -/
theorem roundWrite_eq {len k : Nat} (hk : k < 32) (hfit : len + (2 ^ k - 1) < 2 ^ 32) :
    roundWrite len (2 ^ k) = roundUp len (2 ^ k) := by
  have hpow : 2 ^ k < 2 ^ 32 := Nat.pow_lt_pow_right (by decide) hk
  have hone : 1 ≤ 2 ^ k := Nat.one_le_two_pow
  have hmask : wrap 32 (((2 ^ k : Nat) : Int) - 1) = 2 ^ k - 1 := by
    have hsub := wrap_sub hone hpow
    rwa [Int.natCast_one] at hsub
  have hnot : ∀ m : Nat, 1 ≤ m → m < 2 ^ 32 →
      wrap 32 (-1 - ((m - 1 : Nat) : Int)) = 2 ^ 32 - m := by
    intro m hm hlt
    rw [wrap]
    omega
  rw [roundWrite, hmask, hnot _ hone hpow, u32, Nat.mod_eq_of_lt hfit,
    and_not_mask (Nat.le_of_lt hk) hfit, roundUp]

/-! ## One call -/

/-- A buffer of a positive number of blocks, and a pointer into it. -/
structure Stream.Well (s : Stream) : Prop where
  blocks : ∃ k < 32, s.file.granularity = 2 ^ k ∧ 2 ^ k ∣ s.file.size
  size_pos : 0 < s.file.size
  size_lt : s.file.size < 2 ^ 32
  ptr_le : s.file.ptr ≤ s.file.size

/-- The block of a flush is what is in the buffer, and padding. -/
theorem roundWrite_buffered {size ptr k : Nat} (hk : k < 32) (hdvd : 2 ^ k ∣ size)
    (hsize : size < 2 ^ 32) (hptr : ptr ≤ size) : roundWrite ptr (2 ^ k) = roundUp ptr (2 ^ k) := by
  have hroom : size ≤ 2 ^ 32 - 2 ^ k := by
    have hdvd32 : 2 ^ k ∣ 2 ^ 32 := Nat.pow_dvd_pow 2 (Nat.le_of_lt hk)
    have hle := Nat.le_of_dvd (Nat.sub_pos_of_lt hsize) (Nat.dvd_sub hdvd32 hdvd)
    omega
  have hpow : 2 ^ k < 2 ^ 32 := Nat.pow_lt_pow_right (by decide) hk
  have hone : 1 ≤ 2 ^ k := Nat.one_le_two_pow
  exact roundWrite_eq hk (by omega)

/-- The block of a flush begins with the contents of the buffer. -/
theorem Stream.Well.take_block {s : Stream} (well : s.Well) :
    (s.file.start.read 0 (roundWrite s.file.ptr s.file.granularity)).take s.file.ptr =
      s.file.buffered := by
  obtain ⟨k, hk, hgran, hdvd⟩ := well.blocks
  rw [hgran, roundWrite_buffered hk hdvd well.size_lt well.ptr_le]
  exact Memory.read_take _ (le_roundUp _ (Nat.two_pow_pos k))

/-- What a flush does to the stream. -/
def Stream.flushed (s : Stream) : Stream :=
  { file := { s.file with ptr := 0 }
    plan := fun i => s.plan (i + 1)
    delivered := if s.plan 0 = 0 then s.delivered ++ s.file.buffered else s.delivered
    accepted := s.accepted }

/-- A character that went into the buffer. -/
def Stream.put (s : Stream) (c : UInt8) : Stream :=
  { s with file := s.file.put c, accepted := s.accepted ++ [c] }

theorem nkFflush_exec (file : Nkoutfile Unit) (plan : Nat → Int) :
    (nkFflush sinkWrite file).exec Sink.answer ⟨plan, []⟩ =
      ((plan 0, { file with ptr := 0 }),
        ⟨fun i => plan (i + 1), if plan 0 = 0 then
          [file.start.read 0 (roundWrite file.ptr file.granularity)] else []⟩) := rfl

variable {s : Stream} (stack : Memory)

theorem Stream.Well.step_fflush (well : s.Well) : s.step stack .fflush = s.flushed := by
  unfold step flushed
  simp only [StreamOp.prog, nkFflush_exec]
  by_cases hplan : s.plan 0 = 0
  · simp only [hplan, if_true, List.flatMap_cons, List.flatMap_nil, List.append_nil,
      well.take_block]
  · simp only [hplan, if_false, List.flatMap_nil, List.append_nil]

theorem Stream.step_room (c : UInt8) (hroom : s.file.ptr ≠ s.file.size) :
    s.step stack (.fputc c) = s.put c := by
  have hexec : ((StreamOp.fputc c).prog stack s.file).exec Sink.answer ⟨s.plan, []⟩ =
      ((0, s.file.put c), ⟨s.plan, []⟩) := by
    rw [StreamOp.prog, nkFputc, if_neg hroom]
    rfl
  unfold step put
  simp only [hexec, if_true, List.flatMap_nil, List.append_nil]

theorem Stream.Well.step_full (well : s.Well) (c : UInt8) (hfull : s.file.ptr = s.file.size) :
    s.step stack (.fputc c) = if s.plan 0 = 0 then s.flushed.put c else s.flushed := by
  have hexec : ((StreamOp.fputc c).prog stack s.file).exec Sink.answer ⟨s.plan, []⟩ =
      ((s.plan 0,
          if s.plan 0 = 0 then { s.file with ptr := 0 }.put c else { s.file with ptr := 0 }),
        ⟨fun i => s.plan (i + 1), if s.plan 0 = 0 then
          [s.file.start.read 0 (roundWrite s.file.ptr s.file.granularity)] else []⟩) := by
    rw [StreamOp.prog, nkFputc, if_pos hfull]
    unfold nkFlushAndPutc
    rw [if_pos (Nat.ne_of_gt well.size_pos)]
    rfl
  unfold step
  simp only [hexec]
  by_cases hplan : s.plan 0 = 0
  · simp only [hplan, if_true, List.flatMap_cons, List.flatMap_nil, List.append_nil,
      well.take_block, put, flushed]
  · simp only [hplan, if_false, List.flatMap_nil, List.append_nil, flushed]

/-! ## The invariant -/

theorem Stream.Well.put (well : s.Well) (c : UInt8) (hroom : s.file.ptr < s.file.size) :
    (s.put c).Well :=
  ⟨well.blocks, well.size_pos, well.size_lt, hroom⟩

theorem Stream.Well.flushed (well : s.Well) : s.flushed.Well :=
  ⟨well.blocks, well.size_pos, well.size_lt, Nat.zero_le _⟩

theorem Stream.Well.step (well : s.Well) (op : StreamOp) : (s.step stack op).Well := by
  cases op with
  | fflush =>
      rw [well.step_fflush]
      exact well.flushed
  | fputc c =>
      by_cases hfull : s.file.ptr = s.file.size
      · rw [well.step_full stack c hfull]
        split
        · exact well.flushed.put c well.size_pos
        · exact well.flushed
      · rw [step_room stack c hfull]
        exact well.put c (Nat.lt_of_le_of_ne well.ptr_le hfull)

theorem Nkoutfile.buffered_put {F : Type} (f : Nkoutfile F) (c : UInt8) :
    (f.put c).buffered = f.buffered ++ [c] := by
  have hlast : f.start.store f.ptr [c] f.ptr = c := by rw [Memory.store_one, if_pos rfl]
  have hbefore : (f.start.store f.ptr [c]).read 0 f.ptr = f.start.read 0 f.ptr :=
    Memory.read_congr fun a _ ha => Memory.store_outside (Or.inl (by omega))
  unfold buffered Nkoutfile.put
  dsimp only
  rw [Memory.read_succ, hbefore, Nat.zero_add, hlast]

theorem Stream.Intact.put (hs : s.Intact) (c : UInt8) : (s.put c).Intact := by
  unfold Intact Stream.put at *
  dsimp only
  rw [Nkoutfile.buffered_put, ← List.append_assoc, hs]

/-- A flush loses what the device does not take. -/
theorem Stream.Intact.flushed_iff (hs : s.Intact) :
    s.flushed.Intact ↔ s.plan 0 = 0 ∨ s.file.ptr = 0 := by
  have hempty : s.flushed.file.buffered = [] := rfl
  unfold Intact at *
  rw [hempty, List.append_nil]
  unfold Stream.flushed
  dsimp only
  by_cases hplan : s.plan 0 = 0
  · simp only [hplan, if_true, hs, true_or]
  · have hlen : s.file.buffered.length = s.file.ptr := Memory.read_length _ _ _
    rw [if_neg hplan, ← hs, List.self_eq_append_right, ← List.length_eq_zero_iff, hlen]
    simp only [hplan, false_or]

/-- A call keeps the invariant exactly if it does not lose the buffer. -/
theorem Stream.Well.step_intact_iff (well : s.Well) (hs : s.Intact) (op : StreamOp) :
    (s.step stack op).Intact ↔ ¬ s.Loses op := by
  cases op with
  | fflush =>
      rw [well.step_fflush, hs.flushed_iff, Stream.Loses]
      tauto
  | fputc c =>
      by_cases hfull : s.file.ptr = s.file.size
      · rw [well.step_full stack c hfull, Stream.Loses]
        have hne : s.file.ptr ≠ 0 := by
          rw [hfull]
          exact Nat.ne_of_gt well.size_pos
        by_cases hplan : s.plan 0 = 0
        · have hput := Stream.Intact.put (hs.flushed_iff.mpr (Or.inl hplan)) c
          simp only [hplan, if_true, hput, ne_eq, not_true_eq_false, false_and, and_false,
            not_false_eq_true]
        · rw [if_neg hplan, hs.flushed_iff]
          tauto
      · rw [step_room stack c hfull, Stream.Loses]
        have hput := Stream.Intact.put hs c
        tauto

/-! ## Runs -/

theorem Stream.opened_well (plan : Nat → Int) (buffer : Memory) {len k : Nat} (hk : k < 32)
    (hpos : 0 < len) (hlen : len < 2 ^ 32) (hdvd : 2 ^ k ∣ len) :
    (Stream.opened plan buffer len (2 ^ k)).Well :=
  ⟨⟨k, hk, rfl, hdvd⟩, hpos, hlen, Nat.zero_le _⟩

theorem Stream.Well.run (well : s.Well) (ops : List StreamOp) : (s.run stack ops).Well := by
  induction ops generalizing s with
  | nil => exact well
  | cons op ops ih => exact ih (well.step stack op)

theorem Stream.run_append_singleton (ops : List StreamOp) (op : StreamOp) :
    s.run stack (ops ++ [op]) = (s.run stack ops).step stack op := by
  rw [run, List.foldl_append]
  rfl

/-- Nothing is lost or duplicated at any moment of a run exactly if no call of the run
flushes a buffer that is not empty to a device that fails. -/
theorem Stream.intact_iff (plan : Nat → Int) (buffer : Memory) {len k : Nat} (hk : k < 32)
    (hpos : 0 < len) (hlen : len < 2 ^ 32) (hdvd : 2 ^ k ∣ len) (ops : List StreamOp) :
    (∀ done, done <+: ops → ((Stream.opened plan buffer len (2 ^ k)).run stack done).Intact) ↔
      ∀ done op, done ++ [op] <+: ops →
        ¬ ((Stream.opened plan buffer len (2 ^ k)).run stack done).Loses op := by
  have well := Stream.opened_well plan buffer hk hpos hlen hdvd
  generalize hstart : Stream.opened plan buffer len (2 ^ k) = s at well ⊢
  constructor
  · intro hintact done op hop
    have hbefore := hintact done ((List.prefix_append done [op]).trans hop)
    have hafter := hintact (done ++ [op]) hop
    rw [run_append_singleton, (well.run stack done).step_intact_iff stack hbefore] at hafter
    exact hafter
  · intro hkeeps done
    induction done using List.reverseRecOn with
    | nil =>
        intro _
        rw [← hstart]
        rfl
    | append_singleton done op ih =>
        intro hop
        have hbefore := ih ((List.prefix_append done [op]).trans hop)
        rw [run_append_singleton, (well.run stack done).step_intact_iff stack hbefore]
        exact hkeeps done op hop

/-- The device takes the first character, and would take nothing more; the second one is in
the buffer. -/
theorem Stream.intact_iff_one :
    let s := (Stream.opened (fun i => if i = 0 then 0 else -1) (fun _ => 0) 1 (2 ^ 0)).run
      (fun _ => 0) [.fputc 65, .fflush, .fputc 66]
    s.Intact ∧ s.delivered = [65] ∧ s.accepted = [65, 66] := by
  refine ⟨(Stream.intact_iff (fun _ => 0) _ _ (k := 0) (by decide) (by decide) (by decide)
    (by decide) [.fputc 65, .fflush, .fputc 66]).mpr ?_ _ (List.prefix_refl _), by decide,
    by decide⟩
  rintro done op ⟨rest, hrest⟩ hloses
  rcases done with _ | ⟨a, _ | ⟨b, _ | ⟨c, done⟩⟩⟩
  · exact hloses.1 rfl
  · simp only [List.cons_append, List.nil_append, List.cons.injEq] at hrest
    obtain ⟨rfl, -⟩ := hrest
    exact hloses.2.1 rfl
  · simp only [List.cons_append, List.nil_append, List.cons.injEq] at hrest
    obtain ⟨rfl, rfl, -⟩ := hrest
    exact hloses.1 rfl
  · simp at hrest

/-- A character that `nk_fputc` accepted is neither with the device nor in the buffer. -/
theorem Stream.not_intact_failed :
    ¬ ∀ done, done <+: [StreamOp.fputc 65, .fflush] →
      ((Stream.opened (fun _ => -1) (fun _ => 0) 1 (2 ^ 0)).run (fun _ => 0) done).Intact := by
  intro hintact
  have hlast := hintact _ (List.prefix_refl _)
  unfold Stream.Intact at hlast
  revert hlast
  decide

end LibnklabsPico.File
