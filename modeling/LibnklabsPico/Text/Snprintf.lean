/-
  Text/Snprintf.lean --- printing to memory.

  `nk_snprintf` and `nk_sfprintf` print to an output file without an output function.
  Where the buffer is full `nk_fputc` fails, but it also starts again at the beginning
  of the buffer, so every character behind the end but one in a buffer's length
  overwrites another one: `lastPut` is what is left in the end.
-/
import LibnklabsPico.File.Nkoutfile
import LibnklabsPico.Text.Nkprintf
import Mathlib.Data.List.GetD

set_option autoImplicit false

namespace LibnklabsPico.Text

open LibnklabsPico.Foundation
open LibnklabsPico.File

/-- `nkoutfile_open_mem`: a buffer but no output function. -/
def nkoutfileOpenMem (mem : Memory) (size : Nat) : Nkoutfile Unit := nkoutfileOpen () mem size 1

/-- Programs that make no calls. -/
abbrev MemProg : Type → Type := Prog Empty fun _ => Unit

/-- Put characters into a file without an output function. -/
def putMem (f : Nkoutfile Unit) (chars : List UInt8) : Bool × Nkoutfile Unit :=
  ((nkFputs none (fun _ => 0) f chars : MemProg (Bool × Nkoutfile Unit)).exec
    (fun c _ => c.elim) ()).1

/-- `_nk_snprintf`: whether the status is not zero, and the memory. -/
def nkSnprintf (fl : Floats) (dest : Memory) (len : Nat) (fmt : List UInt8)
    (args : List (PrintArg fl)) : Bool × Memory :=
  let f := nkoutfileOpenMem dest (wrap 32 ((len : Int) - 1))
  let (status, f) := putMem f (nkVprintf (fmt.length + 1) fmt args)
  (status, f.start.store f.ptr [0])

/-- `while (f.ptr != f.end) *f.ptr++ = ' '`; the fuel is the size of the buffer. -/
def fillSpaces : Nat → Nkoutfile Unit → Nkoutfile Unit
  | 0, f => f
  | fuel + 1, f => if f.ptr ≠ f.size then fillSpaces fuel (f.put 32) else f

/-- `_nk_sfprintf`: whether the status is not zero, and the memory. -/
def nkSfprintf (fl : Floats) (dest : Memory) (len : Nat) (fmt : List UInt8)
    (args : List (PrintArg fl)) : Bool × Memory :=
  let f := nkoutfileOpenMem dest len
  let (status, f) := putMem f (nkVprintf (fmt.length + 1) fmt args)
  (status, (fillSpaces f.size f).start)

/-! ## What is left in the buffer -/

/-- Where the last round through a buffer of `size` characters ends, after `n` characters. -/
def lastEnd (size n : Nat) : Nat := n % (size + 1)

/-- The character at a place of the buffer at the end. -/
def lastPut (mem : Memory) (size : Nat) (chars : List UInt8) (i : Nat) : UInt8 :=
  let start := chars.length - lastEnd size chars.length
  if i < lastEnd size chars.length then chars.getD (start + i) 0
  else if size < start then chars.getD (start + i - (size + 1)) 0
  else mem i

/-- A file in memory after some characters. -/
structure Filled (mem : Memory) (size : Nat) (chars : List UInt8) (f : Nkoutfile Unit) :
    Prop where
  size_eq : f.size = size
  ptr_eq : f.ptr = lastEnd size chars.length
  inside : ∀ i < size, f.start i = lastPut mem size chars i
  outside : ∀ i, size ≤ i → f.start i = mem i

/-- One character. -/
def putcMem (f : Nkoutfile Unit) (c : UInt8) : Bool × Nkoutfile Unit :=
  if f.ptr = f.size then (true, if f.size ≠ 0 then { f with ptr := 0 } else f)
  else (false, f.put c)

theorem nkFputc_none (f : Nkoutfile Unit) (c : UInt8) :
    ((nkFputc none (fun _ => 0) f c : MemProg (Int × Nkoutfile Unit)).exec
      (fun c _ => c.elim) ()).1 =
      (if (putcMem f c).1 then -1 else 0, (putcMem f c).2) := by
  unfold nkFputc putcMem
  by_cases hfull : f.ptr = f.size
  · by_cases hsize : f.size = 0
    · simp only [hfull, if_true]
      unfold nkFlushAndPutc
      simp [hsize]
      rfl
    · simp only [hfull, if_true]
      unfold nkFlushAndPutc
      simp [hsize]
      rfl
  · simp only [hfull, if_false]
    rfl

theorem putMem_cons (f : Nkoutfile Unit) (c : UInt8) (chars : List UInt8) :
    putMem f (c :: chars) =
      ((putcMem f c).1 || (putMem (putcMem f c).2 chars).1, (putMem (putcMem f c).2 chars).2) := by
  have hfirst := nkFputc_none f c
  unfold putMem
  rw [nkFputs, Prog.exec_bind, hfirst]
  dsimp only
  rw [Prog.exec_bind]
  cases (putcMem f c).1 <;> rfl

section
variable {mem : Memory} {size : Nat} {done : List UInt8} {f : Nkoutfile Unit}

theorem lastEnd_le (size n : Nat) : lastEnd size n ≤ size :=
  Nat.le_of_lt_succ (Nat.mod_lt n (Nat.succ_pos size))

theorem lastEnd_le_length (size n : Nat) : lastEnd size n ≤ n := Nat.mod_le n (size + 1)

theorem lastEnd_succ (size n : Nat) :
    lastEnd size (n + 1) = if lastEnd size n = size then 0 else lastEnd size n + 1 := by
  have hle := lastEnd_le size n
  have hnext : lastEnd size (n + 1) = (lastEnd size n + 1) % (size + 1) :=
    (Nat.mod_add_mod n (size + 1) 1).symm
  rw [hnext]
  split
  · rename_i hfull
    rw [hfull, Nat.mod_self]
  · exact Nat.mod_eq_of_lt (by omega)

/-- The next character is put at the end of the last round, unless that is full. -/
theorem lastPut_append_singleton (c : UInt8) {i : Nat} (hi : i < size) :
    lastPut mem size (done ++ [c]) i =
      if i = lastEnd size done.length then c else lastPut mem size done i := by
  have hle := lastEnd_le size done.length
  have hlength := lastEnd_le_length size done.length
  have hbefore : ∀ n < done.length, (done ++ [c]).getD n 0 = done.getD n 0 :=
    fun n hn => List.getD_append done [c] 0 n hn
  have hlast : (done ++ [c]).getD done.length 0 = c := by
    rw [List.getD_append_right _ _ _ _ (Nat.le_refl _), Nat.sub_self]
    rfl
  unfold lastPut
  rw [List.length_append, List.length_singleton, lastEnd_succ]
  generalize lastEnd size done.length = fin at *
  dsimp only
  by_cases hfull : fin = size
  · rw [if_pos hfull, if_neg (by omega), if_pos (by omega), if_neg (by omega), if_pos (by omega),
      hbefore _ (by omega)]
    congr 1
    omega
  · rw [if_neg hfull, Nat.add_sub_add_right]
    rcases Nat.lt_trichotomy i fin with hlt | heq | hgt
    · rw [if_pos (by omega), if_neg (by omega), if_pos hlt, hbefore _ (by omega)]
    · rw [if_pos (by omega), if_pos heq, heq, Nat.sub_add_cancel hlength, hlast]
    · rw [if_neg (show ¬ i < fin + 1 by omega), if_neg (show ¬ i = fin by omega),
        if_neg (show ¬ i < fin by omega)]
      split_ifs
      · rw [hbefore _ (by omega)]
      · rfl

theorem Filled.start (mem : Memory) (size : Nat) :
    Filled mem size [] (nkoutfileOpenMem mem size) := by
  refine ⟨rfl, (Nat.zero_mod _).symm, fun i hi => ?_, fun i _ => rfl⟩
  simp [lastPut, lastEnd, nkoutfileOpenMem, nkoutfileOpen]

theorem Filled.putcMem (filled : Filled mem size done f) (c : UInt8) :
    Filled mem size (done ++ [c]) (putcMem f c).2 := by
  have hend : lastEnd size (done ++ [c]).length =
      if lastEnd size done.length = size then 0 else lastEnd size done.length + 1 := by
    rw [List.length_append, List.length_singleton, lastEnd_succ]
  have hcond : f.ptr = f.size ↔ lastEnd size done.length = size := by
    rw [filled.size_eq, filled.ptr_eq]
  unfold Text.putcMem
  by_cases hfull : lastEnd size done.length = size
  · have hsame : ∀ i < size, f.start i = lastPut mem size (done ++ [c]) i := by
      intro i hi
      rw [filled.inside i hi, lastPut_append_singleton c hi, if_neg (by omega)]
    rw [if_pos hfull] at hend
    rw [if_pos (hcond.mpr hfull)]
    by_cases hsize : f.size = 0
    · rw [if_neg (not_not.mpr hsize)]
      refine ⟨filled.size_eq, ?_, hsame, filled.outside⟩
      rw [filled.ptr_eq, hend, hfull, ← filled.size_eq, hsize]
    · rw [if_pos hsize]
      exact ⟨filled.size_eq, hend.symm, hsame, filled.outside⟩
  · rw [if_neg hfull] at hend
    rw [if_neg (mt hcond.mp hfull)]
    have hle := lastEnd_le size done.length
    refine ⟨filled.size_eq, ?_, fun i hi => ?_, fun i hi => ?_⟩
    · rw [hend, ← filled.ptr_eq]
      rfl
    · change (f.start.store f.ptr [c]) i = _
      rw [Memory.store_one, lastPut_append_singleton c hi, ← filled.ptr_eq, filled.inside i hi]
    · change (f.start.store f.ptr [c]) i = _
      rw [Memory.store_one, if_neg (by rw [filled.ptr_eq]; omega), filled.outside i hi]

/-- Characters are put as `lastPut` says, and the status is an error exactly if one of
them met the end of the buffer. -/
theorem Filled.putMem (filled : Filled mem size done f) (chars : List UInt8) :
    Filled mem size (done ++ chars) (putMem f chars).2 ∧
      ((putMem f chars).1 = true ↔
        ∃ n, done.length ≤ n ∧ n < (done ++ chars).length ∧ lastEnd size n = size) := by
  induction chars generalizing done f with
  | nil =>
      rw [List.append_nil]
      refine ⟨filled, fun h => absurd h Bool.false_ne_true, ?_⟩
      rintro ⟨n, hlow, hhigh, -⟩
      omega
  | cons c chars ih =>
      obtain ⟨hfilled, hstatus⟩ := ih (filled.putcMem c)
      have hassoc : done ++ [c] ++ chars = done ++ c :: chars := by simp
      rw [hassoc] at hfilled hstatus
      rw [putMem_cons]
      refine ⟨hfilled, ?_⟩
      have hfirst : (Text.putcMem f c).1 = true ↔ lastEnd size done.length = size := by
        rw [← filled.ptr_eq, ← filled.size_eq]
        unfold Text.putcMem
        split <;> simp_all
      rw [Bool.or_eq_true, hfirst, hstatus, List.length_append, List.length_singleton]
      constructor
      · rintro (hend | ⟨n, hlow, hhigh, hend⟩)
        · exact ⟨done.length, Nat.le_refl _, by simp, hend⟩
        · exact ⟨n, by omega, hhigh, hend⟩
      · rintro ⟨n, hlow, hhigh, hend⟩
        rcases Nat.eq_or_lt_of_le hlow with heq | hlt
        · exact Or.inl (heq ▸ hend)
        · exact Or.inr ⟨n, hlt, hhigh, hend⟩

/-- Printing into a buffer from its start. -/
theorem putMem_open (mem : Memory) (size : Nat) (chars : List UInt8) :
    Filled mem size chars (putMem (nkoutfileOpenMem mem size) chars).2 ∧
      ((putMem (nkoutfileOpenMem mem size) chars).1 = true ↔ size < chars.length) := by
  obtain ⟨hfilled, hstatus⟩ := (Filled.start mem size).putMem chars
  rw [List.nil_append] at hfilled hstatus
  refine ⟨hfilled, hstatus.trans ⟨?_, fun hlong => ⟨size, Nat.zero_le _, hlong, ?_⟩⟩⟩
  · rintro ⟨n, -, hn, hend⟩
    have hle := lastEnd_le_length size n
    omega
  · exact Nat.mod_eq_of_lt (Nat.lt_succ_self size)

theorem fillSpaces_start (fuel : Nat) {f : Nkoutfile Unit} (hptr : f.ptr ≤ f.size)
    (hfuel : f.size - f.ptr ≤ fuel) (i : Nat) :
    (fillSpaces fuel f).start i = if f.ptr ≤ i ∧ i < f.size then 32 else f.start i := by
  induction fuel generalizing f with
  | zero => rw [fillSpaces, if_neg (by omega)]
  | succ fuel ih =>
      unfold fillSpaces
      split
      · rename_i hroom
        have hnext := ih (f := f.put 32) (show f.ptr + 1 ≤ f.size by omega)
          (show f.size - (f.ptr + 1) ≤ fuel by omega)
        rw [hnext]
        change (if f.ptr + 1 ≤ i ∧ i < f.size then 32 else (f.start.store f.ptr [32]) i) = _
        rw [Memory.store_one]
        split_ifs <;> first | rfl | omega
      · rename_i hend
        rw [if_neg (by omega)]

end

/-! ## What the documentation says -/

/-- `nk_snprintf` with an output `chars` leaves what fits and a NUL. -/
structure SnprintfOk (dest : Memory) (len : Nat) (chars : List UInt8) (result : Bool × Memory) :
    Prop where
  outside : ∀ a, len ≤ a → result.2 a = dest a
  text : result.2.read 0 (min chars.length (len - 1)) = chars.take (min chars.length (len - 1))
  nul : result.2 (min chars.length (len - 1)) = 0
  status : result.1 = true ↔ len - 1 < chars.length

/-- `nk_sfprintf` with an output `chars` leaves what fits and spaces. -/
structure SfprintfOk (dest : Memory) (len : Nat) (chars : List UInt8) (result : Bool × Memory) :
    Prop where
  outside : ∀ a, len ≤ a → result.2 a = dest a
  text : result.2.read 0 (min chars.length len) = chars.take (min chars.length len)
  spaces : ∀ a, min chars.length len ≤ a → a < len → result.2 a = 32
  status : result.1 = true ↔ len < chars.length

/-- The last of `n` characters, more than there is space for, that is put at a place. -/
def overwriting (size n i : Nat) : Nat :=
  if i < lastEnd size n then n - lastEnd size n + i else n - lastEnd size n + i - (size + 1)

/-- The output fits, or the characters put over it are the same. -/
def SnprintfFits (dest : Memory) (len : Nat) (chars : List UInt8) : Prop :=
  chars.length ≤ len - 1 ∨
    (∀ i < len - 1, chars.getD i 0 = if i = lastEnd (len - 1) chars.length then 0
      else chars.getD (overwriting (len - 1) chars.length i) 0) ∧
    (lastEnd (len - 1) chars.length = len - 1 ∨ dest (len - 1) = 0)

/-- The output fits, or the characters and spaces put over it are the same. -/
def SfprintfFits (len : Nat) (chars : List UInt8) : Prop :=
  chars.length ≤ len ∨
    ∀ i < len, chars.getD i 0 = if lastEnd len chars.length ≤ i then 32
      else chars.getD (overwriting len chars.length i) 0

theorem lastPut_short {mem : Memory} {size : Nat} {chars : List UInt8} (h : chars.length ≤ size)
    {i : Nat} (hi : i < chars.length) : lastPut mem size chars i = chars.getD i 0 := by
  have hend : lastEnd size chars.length = chars.length := Nat.mod_eq_of_lt (by omega)
  rw [lastPut, hend, if_pos hi, Nat.sub_self, Nat.zero_add]

theorem lastPut_long {mem : Memory} {size : Nat} {chars : List UInt8} (h : size < chars.length)
    (i : Nat) : lastPut mem size chars i = chars.getD (overwriting size chars.length i) 0 := by
  have hstart : size < chars.length - lastEnd size chars.length := by
    have hdiv := Nat.div_add_mod chars.length (size + 1)
    have hone : 0 < chars.length / (size + 1) := Nat.div_pos h (Nat.succ_pos size)
    have hle := Nat.mul_le_mul_left (size + 1) hone
    unfold lastEnd
    omega
  unfold lastPut overwriting
  simp only [hstart, if_true]
  split <;> rfl

/-- Bytes read one by one. -/
theorem read_eq_take_iff {mem : Memory} {chars : List UInt8} {n : Nat} (hn : n ≤ chars.length) :
    mem.read 0 n = chars.take n ↔ ∀ i < n, mem i = chars.getD i 0 := by
  have htake : (chars.take n).length = n := List.length_take_of_le hn
  constructor
  · intro hread i hi
    have hbyte := congrArg (fun bytes : List UInt8 => bytes[i]?) hread
    simp only [Memory.read_getElem? mem hi, Nat.zero_add, List.getElem?_take_of_lt hi] at hbyte
    rw [List.getD_eq_getElem?_getD, ← hbyte, Option.getD_some]
  · intro hbytes
    have hread : mem.read 0 (chars.take n).length = chars.take n := Memory.read_eq fun i hi => by
      rw [Nat.zero_add, List.getElem_take, hbytes i (htake ▸ hi),
        List.getD_eq_getElem _ _ (by omega)]
    rwa [htake] at hread

section
variable {mem : Memory} {chars : List UInt8} {f : Nkoutfile Unit}

/-- The memory that `nk_snprintf` leaves. -/
theorem Filled.snprintf {len : Nat} (hlen : 0 < len) (filled : Filled mem (len - 1) chars f)
    {status : Bool} (hstatus : status = true ↔ len - 1 < chars.length) :
    SnprintfOk mem len chars (status, f.start.store f.ptr [0]) ↔ SnprintfFits mem len chars := by
  have hend := lastEnd_le (len - 1) chars.length
  have hmem : ∀ i, (f.start.store f.ptr [0]) i =
      if i = lastEnd (len - 1) chars.length then 0 else f.start i := by
    intro i
    rw [Memory.store_one, filled.ptr_eq]
  have houtside : ∀ a, len ≤ a → (f.start.store f.ptr [0]) a = mem a := by
    intro a ha
    rw [hmem, if_neg (by omega), filled.outside a (by omega)]
  rcases Nat.lt_or_ge (len - 1) chars.length with hlong | hshort
  · have hmin : min chars.length (len - 1) = len - 1 := by omega
    have htext : (f.start.store f.ptr [0]).read 0 (len - 1) = chars.take (len - 1) ↔
        ∀ i < len - 1, chars.getD i 0 = if i = lastEnd (len - 1) chars.length then 0
          else chars.getD (overwriting (len - 1) chars.length i) 0 := by
      rw [read_eq_take_iff (Nat.le_of_lt hlong)]
      refine forall₂_congr fun i hi => ?_
      rw [hmem, filled.inside i hi, lastPut_long hlong, eq_comm]
    have hnul : (f.start.store f.ptr [0]) (len - 1) = 0 ↔
        lastEnd (len - 1) chars.length = len - 1 ∨ mem (len - 1) = 0 := by
      rw [hmem, filled.outside _ (Nat.le_refl _)]
      by_cases hfin : len - 1 = lastEnd (len - 1) chars.length
      · rw [if_pos hfin]
        exact ⟨fun _ => Or.inl hfin.symm, fun _ => rfl⟩
      · rw [if_neg hfin]
        exact ⟨Or.inr, fun h => h.resolve_left fun heq => hfin heq.symm⟩
    rw [SnprintfFits, ← htext, ← hnul]
    constructor
    · rintro ⟨-, htext, hnul, -⟩
      rw [hmin] at htext hnul
      exact Or.inr ⟨htext, hnul⟩
    · rintro (hshort | ⟨htext, hnul⟩)
      · omega
      · exact ⟨houtside, by rw [hmin]; exact htext, by rw [hmin]; exact hnul, hstatus⟩
  · have hmin : min chars.length (len - 1) = chars.length := by omega
    have hlast : lastEnd (len - 1) chars.length = chars.length := Nat.mod_eq_of_lt (by omega)
    refine ⟨fun _ => Or.inl hshort, fun _ => ⟨houtside, ?_, ?_, hstatus⟩⟩
    · rw [hmin, read_eq_take_iff (Nat.le_refl _)]
      intro i hi
      dsimp only
      rw [hmem, if_neg (by omega), filled.inside i (by omega), lastPut_short hshort hi]
    · dsimp only
      rw [hmin, hmem, if_pos hlast.symm]

/-- The memory that `nk_sfprintf` leaves. -/
theorem Filled.sfprintf {len : Nat} (filled : Filled mem len chars f) {status : Bool}
    (hstatus : status = true ↔ len < chars.length) :
    SfprintfOk mem len chars (status, (fillSpaces f.size f).start) ↔ SfprintfFits len chars := by
  have hend := lastEnd_le len chars.length
  have hmem : ∀ i, (fillSpaces f.size f).start i =
      if lastEnd len chars.length ≤ i ∧ i < len then 32 else f.start i := by
    intro i
    have hptr : f.ptr ≤ f.size := by rwa [filled.ptr_eq, filled.size_eq]
    rw [fillSpaces_start f.size hptr (Nat.sub_le _ _), filled.ptr_eq, filled.size_eq]
  have houtside : ∀ a, len ≤ a → (fillSpaces f.size f).start a = mem a := by
    intro a ha
    rw [hmem, if_neg (by omega), filled.outside a ha]
  rcases Nat.lt_or_ge len chars.length with hlong | hshort
  · have hmin : min chars.length len = len := by omega
    have htext : (fillSpaces f.size f).start.read 0 len = chars.take len ↔
        ∀ i < len, chars.getD i 0 = if lastEnd len chars.length ≤ i then 32
          else chars.getD (overwriting len chars.length i) 0 := by
      rw [read_eq_take_iff (Nat.le_of_lt hlong)]
      refine forall₂_congr fun i hi => ?_
      rw [hmem, filled.inside i hi, lastPut_long hlong, eq_comm]
      simp only [hi, and_true]
    rw [SfprintfFits, ← htext]
    constructor
    · rintro ⟨-, htext, -, -⟩
      exact Or.inr (hmin ▸ htext)
    · rintro (hshort | htext)
      · omega
      · exact ⟨houtside, by rw [hmin]; exact htext, fun a ha hlt => absurd hlt (by omega), hstatus⟩
  · have hmin : min chars.length len = chars.length := by omega
    have hlast : lastEnd len chars.length = chars.length := Nat.mod_eq_of_lt (by omega)
    refine ⟨fun _ => Or.inl hshort, fun _ => ⟨houtside, ?_, fun a ha hlt => ?_, hstatus⟩⟩
    · rw [hmin, read_eq_take_iff (Nat.le_refl _)]
      intro i hi
      dsimp only
      rw [hmem, if_neg (by omega), filled.inside i (by omega), lastPut_short hshort hi]
    · dsimp only
      rw [hmem, if_pos ⟨by omega, hlt⟩]

end

/-! ## Every format -/

/-- Printing truncates, whatever the format and the arguments are, exactly if the output
fits or nothing is seen of what is put over it. -/
theorem truncates_iff (fl : Floats) (dest : Memory) {len : Nat} (hlen : 0 < len)
    (hsize : len < 2 ^ 32) (fmt : List UInt8) (args : List (PrintArg fl)) :
    (SnprintfOk dest len (nkVprintf (fmt.length + 1) fmt args) (nkSnprintf fl dest len fmt args) ↔
      SnprintfFits dest len (nkVprintf (fmt.length + 1) fmt args)) ∧
    (SfprintfOk dest len (nkVprintf (fmt.length + 1) fmt args) (nkSfprintf fl dest len fmt args) ↔
      SfprintfFits len (nkVprintf (fmt.length + 1) fmt args)) := by
  have hroom : wrap 32 ((len : Int) - 1) = len - 1 := wrap_sub hlen hsize
  constructor
  · obtain ⟨hfilled, hstatus⟩ := putMem_open dest (len - 1) (nkVprintf (fmt.length + 1) fmt args)
    unfold nkSnprintf
    rw [hroom]
    exact hfilled.snprintf hlen hstatus
  · obtain ⟨hfilled, hstatus⟩ := putMem_open dest len (nkVprintf (fmt.length + 1) fmt args)
    exact hfilled.sfprintf hstatus

/-- Three characters in memory for four, and for three. -/
theorem truncates_iff_three :
    SnprintfOk (fun _ => 88) 4 (ascii "abc")
        (nkSnprintf Floats.absent (fun _ => 88) 4 (ascii "abc") []) ∧
      SfprintfOk (fun _ => 88) 3 (ascii "abc")
        (nkSfprintf Floats.absent (fun _ => 88) 3 (ascii "abc") []) :=
  ⟨(truncates_iff Floats.absent (fun _ => 88) (show 0 < 4 by decide) (by decide) (ascii "abc")
      []).1.mpr (Or.inl (by decide)),
    (truncates_iff Floats.absent (fun _ => 88) (by decide) (by decide) (ascii "abc") []).2.mpr
      (Or.inl (by decide))⟩

/-- Five characters in memory for four: the fourth one starts the buffer again. -/
theorem nkSnprintf_scrambled :
    ¬ SnprintfOk (fun _ => 88) 4 (ascii "abcde")
      (nkSnprintf Floats.absent (fun _ => 88) 4 (ascii "abcde") []) := by
  intro hok
  have htext := hok.text
  revert htext
  decide

end LibnklabsPico.Text
