/-
  Ymodem/FirstHeader.lean --- the header packet that `nk_ysend_file` prints.

  The name and the decimal digits of the size, each with a NUL behind it, are what the
  receiver scans in the packet.
-/
import LibnklabsPico.Text.Printing
import LibnklabsPico.Ymodem.BlockStream

set_option autoImplicit false

namespace LibnklabsPico.Ymodem

open LibnklabsPico.Foundation
open LibnklabsPico.Text

/-- A header packet with this name and size, whatever is behind it in memory. -/
structure HeaderFor (header name : List UInt8) (size : Nat) (data : List UInt8) : Prop where
  packet_eq : header = packet 0 data
  length : data.length = 128
  named : data.getD 0 0 ≠ 0
  name : ∀ rest, (data ++ rest).takeWhile (· != 0) = name
  size : ∀ rest, headerFileSize (data ++ rest) = size

/-- The text of the size. -/
def sizeText (size : Nat) : List UInt8 := (decDigits size).map (digitChar false)

theorem sizeText_digits {size : Nat} : ∀ c ∈ sizeText size, isDigit c = true ∧ isSpace c = false ∧
    c ≠ 0 ∧ c ≠ 45 ∧ c ≠ 43 := by
  intro c hmem
  obtain ⟨d, hd, rfl⟩ := List.mem_map.mp hmem
  have hall : ∀ d : Fin 10, isDigit (digitChar false d.val) = true ∧
      isSpace (digitChar false d.val) = false ∧ digitChar false d.val ≠ 0 ∧
      digitChar false d.val ≠ 45 ∧ digitChar false d.val ≠ 43 := by
    decide
  exact hall ⟨d, decDigits_lt size d hd⟩

/-- The digits stand for the size. -/
theorem sizeText_value {size : Nat} (hsize : size < 2 ^ 31) :
    (sizeText size).foldl (fun n c => 10 * n + (c.toNat - 48)) 0 = size := by
  have hdigit : ∀ n, ∀ d ∈ decDigits size,
      10 * n + ((digitChar false d).toNat - 48) = n * 10 + d := by
    intro n d hd
    rw [digitChar_toNat (decDigits_lt size d hd), Nat.add_sub_cancel_left, Nat.mul_comm]
  rw [sizeText, List.foldl_map, List.foldl_ext _ _ _ hdigit]
  exact foldl_decDigits (Nat.lt_trans hsize (by decide))

/-- `atoi` reads the size. -/
theorem atoi_sizeText {size : Nat} (hsize : size < 2 ^ 31) (rest : List UInt8) :
    atoi (sizeText size ++ 0 :: rest) = size := by
  obtain ⟨first, more, htext⟩ : ∃ first more, sizeText size = first :: more := by
    apply List.exists_cons_of_ne_nil
    intro hnil
    exact decDigits_ne_nil size (List.map_eq_nil_iff.mp hnil)
  obtain ⟨-, hspace, -, hminus, hplus⟩ := sizeText_digits first (by rw [htext]; simp)
  have htake : (sizeText size ++ 0 :: rest).takeWhile isDigit = sizeText size := by
    rw [List.takeWhile_append_of_pos fun c hmem => (sizeText_digits c hmem).1,
      List.takeWhile_cons_of_neg Bool.false_ne_true, List.append_nil]
  have hvalue := sizeText_value hsize
  have hdrop : (sizeText size ++ 0 :: rest).dropWhile isSpace = first :: (more ++ 0 :: rest) := by
    rw [htext, List.cons_append, List.dropWhile_cons_of_neg]
    rw [hspace]
    exact Bool.false_ne_true
  rw [htext, List.cons_append] at htake
  unfold atoi
  rw [hdrop]
  dsimp only
  split
  · rename_i heq
    exact absurd (List.cons.inj heq).1 hminus
  · rename_i heq
    exact absurd (List.cons.inj heq).1 hplus
  · rw [htake, ← htext, hvalue]
    omega

/-- The name and the size in front of anything. -/
theorem headerFileSize_text {name : List UInt8} (hname : ∀ c ∈ name, c ≠ 0) {size : Nat}
    (hsize : size < 2 ^ 31) (rest : List UInt8) :
    (name ++ 0 :: (sizeText size ++ 0 :: rest)).takeWhile (· != 0) = name ∧
      headerFileSize (name ++ 0 :: (sizeText size ++ 0 :: rest)) = size := by
  have htake : (name ++ 0 :: (sizeText size ++ 0 :: rest)).takeWhile (· != 0) = name := by
    rw [List.takeWhile_append_of_pos fun c hmem => bne_iff_ne.mpr (hname c hmem),
      List.takeWhile_cons_of_neg Bool.false_ne_true, List.append_nil]
  have hdrop : (name ++ 0 :: (sizeText size ++ 0 :: rest)).drop (name.length + 1) =
      sizeText size ++ 0 :: rest := by
    rw [List.drop_append, List.drop_of_length_le (Nat.le_succ _), List.nil_append,
      Nat.add_sub_cancel_left]
    rfl
  have hfirst : (name ++ 0 :: (sizeText size ++ 0 :: rest)).getD (name.length + 1) 0 ≠ 0 := by
    obtain ⟨first, more, htext⟩ : ∃ first more, sizeText size = first :: more := by
      apply List.exists_cons_of_ne_nil
      intro hnil
      exact decDigits_ne_nil size (List.map_eq_nil_iff.mp hnil)
    obtain ⟨-, -, hne, -⟩ := sizeText_digits first (by rw [htext]; simp)
    rw [htext]
    simpa using hne
  refine ⟨htake, ?_⟩
  rw [headerFileSize, htake, if_pos hfirst, hdrop, atoi_sizeText hsize]
  omega

/-- What `nk_ysend_file` prints. -/
theorem headerText (fl : Floats) (name : List UInt8) {size : Nat} (hsize : size < 2 ^ 31) :
    nkVprintf ((ascii "%s%c%lu").length + 1) (ascii "%s%c%lu")
      [.str name, .int 0, (.int size : PrintArg fl)] = name ++ 0 :: sizeText size := by
  have hprint : nkVprintf ((ascii "%s%c%lu").length + 1) (ascii "%s%c%lu")
      [.str name, .int 0, (.int size : PrintArg fl)] =
        emits .plain name 0 ++
          (emits .plain [0] 0 ++ (emitDec .plain (wrap 32 size) false ++ [])) := rfl
  have hwrap : wrap 32 size = size := wrap_natCast (by omega)
  rw [hprint, emits_plain, emits_plain, hwrap, emitDec_plain, List.append_nil]
  rfl

theorem sizeText_length_le {size : Nat} (hsize : size < 2 ^ 31) : (sizeText size).length ≤ 10 := by
  rw [sizeText, List.length_map]
  exact decDigits_length_le (by decide) (Nat.lt_trans hsize (by decide))

/-- The payload of the header packet: the text, its NUL and the rest of the buffer. -/
theorem headerData (fl : Floats) (dest : Memory) {name : List UInt8} (hlength : name.length ≤ 113)
    {size : Nat} (hsize : size < 2 ^ 31) :
    ∃ rest, (nkSnprintf fl dest 125 (ascii "%s%c%lu") [.str name, .int 0, .int size]).2.read 0 128 =
      name ++ 0 :: (sizeText size ++ 0 :: rest) := by
  have hdigits := sizeText_length_le hsize
  have hfits : (name ++ 0 :: sizeText size).length ≤ 124 := by
    rw [List.length_append, List.length_cons]
    omega
  have hok := (truncates_iff fl dest (show 0 < 125 by decide) (by decide) (ascii "%s%c%lu")
    [.str name, .int 0, .int size]).1.mpr
  rw [headerText fl name hsize] at hok
  have hok := hok (Or.inl hfits)
  generalize nkSnprintf fl dest 125 (ascii "%s%c%lu") [.str name, .int 0, .int size] = printed at *
  generalize htext : name ++ 0 :: sizeText size = text at *
  have htaken := hok.text
  have hnul := hok.nul
  rw [Nat.min_eq_left hfits] at htaken hnul
  rw [List.take_length] at htaken
  have hsplit : 128 = text.length + (1 + (127 - text.length)) := by omega
  refine ⟨printed.2.read (text.length + 1) (127 - text.length), ?_⟩
  rw [hsplit, Memory.read_append, Memory.read_append, Nat.zero_add, htaken]
  have hone : printed.2.read text.length 1 = [0] := congrArg (fun c => [c]) hnul
  rw [hone, ← htext]
  simp

/-- The text is behind the three characters in front of the payload. -/
theorem read_behind (mem text : Memory) (n : Nat) :
    Memory.read (fun a => if a < 3 then mem a else text (a - 3)) 3 n = text.read 0 n := by
  apply List.map_congr_left
  intro i _
  dsimp only
  rw [if_neg (by omega), Nat.add_sub_cancel_left, Nat.zero_add]

/-- The first packet is a header with the name and the size. -/
theorem firstHeader_headerFor (fl : Floats) (packetBuffer : Memory) {name : List UInt8}
    (hne : name ≠ []) (hname : ∀ c ∈ name, c ≠ 0) (hlength : name.length ≤ 113) {size : Nat}
    (hsize : size < 2 ^ 31) :
    ∃ data, HeaderFor (firstHeader fl packetBuffer name size) name size data := by
  obtain ⟨rest, hdata⟩ := headerData fl
    (fun a => (packetBuffer.store 3 (List.replicate 128 0)) (3 + a)) hlength hsize
  refine ⟨name ++ 0 :: (sizeText size ++ 0 :: rest), ?_, ?_, ?_, ?_, ?_⟩
  · rw [← hdata]
    exact congrArg (packet 0) (read_behind _ _ 128)
  · rw [← hdata, Memory.read_length]
  · obtain ⟨first, more, rfl⟩ := List.exists_cons_of_ne_nil hne
    exact hname first (by simp)
  · intro rest'
    have htext := (headerFileSize_text hname hsize (rest ++ rest')).1
    simpa using htext
  · intro rest'
    have htext := (headerFileSize_text hname hsize (rest ++ rest')).2
    simpa using htext

end LibnklabsPico.Ymodem
