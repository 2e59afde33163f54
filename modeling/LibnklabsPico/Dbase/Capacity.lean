/-
  Dbase/Capacity.lean --- how long the text of a value can be.

  `nk_dbase_save` does not check that an image fits its bank.  The bound is computed
  from the schema, so a program can see to it once for all values.
-/
import LibnklabsPico.Dbase.PowerFail

set_option autoImplicit false

namespace LibnklabsPico.Dbase

open LibnklabsPico.Foundation
open LibnklabsPico.Flash
open LibnklabsPico.Text

/-- The longest text of an integer. -/
def IntType.textBound : IntType → Nat
  | .tUint8 => 3
  | .tInt8 => 4
  | .tUint16 => 5
  | .tInt16 => 6
  | .tUint => 10
  | .tInt => 11

mutual

/-- The longest text of a value. -/
def Ty.textBound : Ty → Nat
  | .tBool _ _ => 5
  | .tInteger what _ _ => what.textBound
  -- not in a well-formed schema
  | .tDouble _ _ | .tFloat _ _ => 0
  | .tString size _ => 2 + 4 * (size - 1)
  | .tStruct _ members _ => 2 + membersBound members
  | .tArray size subtype _ | .tVarray size subtype _ =>
      2 + size / subtype.size * (subtype.textBound + 2)
  | .tTable size rowSize columns _ =>
      2 + namesBound columns + size / rowSize * (1 + fieldsBound columns)

/-- The longest text of the members of a structure. -/
def membersBound : List Member → Nat
  | [] => 0
  | (name, type, _) :: members => name.length + 1 + type.textBound + 2 + membersBound members

/-- The longest text of the fields of a row. -/
def fieldsBound : List Member → Nat
  | [] => 0
  | (_, type, _) :: columns => type.textBound + 1 + fieldsBound columns

/-- The length of the names of the columns. -/
def namesBound : List Member → Nat
  | [] => 0
  | (name, _, _) :: columns => name.length + 1 + namesBound columns

end

/-! ## Scalars -/

theorem numText_length_le {k val : Nat} (neg : Bool) (hk : 0 < k) (h : val < 10 ^ k) :
    (numText neg val).length ≤ neg.toNat + k := by
  have hdigits := decDigits_length_le hk h
  rw [numText, List.length_append, List.length_map]
  cases neg
  · simpa using hdigits
  · simpa using hdigits

/-- The digits of an integer, and whether it has a sign. -/
theorem IntType.load_digits (what : IntType) (charSigned : Bool) (mem : Memory)
    (location : Nat) :
    ∃ k, 0 < k ∧ (what.load charSigned mem location).natAbs < 10 ^ k ∧
      (decide (what.load charSigned mem location < 0)).toNat + k ≤ what.textBound := by
  have hlt := ofLe_read_lt mem location what.width
  have hsign := Bool.toNat_le (decide (what.load charSigned mem location < 0))
  have hsigned : ∀ k, 1 + k ≤ what.textBound →
      (decide (what.load charSigned mem location < 0)).toNat + k ≤ what.textBound := by
    intro k hk
    omega
  have hunsigned : ∀ k, 0 ≤ what.load charSigned mem location → k ≤ what.textBound →
      (decide (what.load charSigned mem location < 0)).toNat + k ≤ what.textBound := by
    intro k hload hk
    rw [decide_eq_false (Int.not_lt.mpr hload)]
    simpa using hk
  cases what with
  | tInt =>
      refine ⟨10, by decide, ?_, hsigned 10 (Nat.le_refl _)⟩
      simp only [IntType.load, signed]
      omega
  | tInt8 =>
      refine ⟨3, by decide, ?_, hsigned 3 (Nat.le_refl _)⟩
      simp only [IntType.load, IntType.width, charVal, signed] at hlt ⊢
      split <;> omega
  | tInt16 =>
      refine ⟨5, by decide, ?_, hsigned 5 (Nat.le_refl _)⟩
      simp only [IntType.load, signed]
      omega
  | tUint =>
      simp only [IntType.width] at hlt
      exact ⟨10, by decide, by simp only [IntType.load, IntType.width]; omega,
        hunsigned 10 (Int.natCast_nonneg _) (Nat.le_refl _)⟩
  | tUint8 =>
      simp only [IntType.width] at hlt
      exact ⟨3, by decide, by simp only [IntType.load, IntType.width]; omega,
        hunsigned 3 (Int.natCast_nonneg _) (Nat.le_refl _)⟩
  | tUint16 =>
      simp only [IntType.width] at hlt
      exact ⟨5, by decide, by simp only [IntType.load, IntType.width]; omega,
        hunsigned 5 (Int.natCast_nonneg _) (Nat.le_refl _)⟩

variable (fl : Floats) (charSigned : Bool)

theorem IntType.text_length_le (what : IntType) (mem : Memory) (location : Nat) :
    (nkFprintf fl what.format [.int (what.load charSigned mem location)]).length ≤
      what.textBound := by
  obtain ⟨k, hk, hval, hbound⟩ := what.load_digits charSigned mem location
  rw [what.nkFprintf_load]
  exact Nat.le_trans (numText_length_le _ hk hval) hbound

theorem serializeChar_length_le (s : UInt8) : (serializeChar fl charSigned s).length ≤ 4 := by
  rw [serializeChar_eq]
  repeat' split
  all_goals simp

theorem serializeString_length_le (s : List UInt8) :
    (s.flatMap (serializeChar fl charSigned)).length ≤ 4 * s.length := by
  induction s with
  | nil => exact Nat.le_refl _
  | cons c s ih =>
      have hchar := serializeChar_length_le fl charSigned c
      rw [List.flatMap_cons, List.length_append, List.length_cons]
      omega

/-! ## Lists of values -/

theorem serializeItems_length_le {item : Nat → List UInt8} {size count bound location : Nat}
    (hitem : ∀ i < count, (item (location + i * size)).length ≤ bound) :
    (serializeItems fl item size count location).length ≤ count * (bound + 2) := by
  induction count generalizing location with
  | zero => simp [serializeItems]
  | succ count ih =>
      have hfirst := hitem 0 (Nat.succ_pos _)
      have hrest := @ih (location + size) fun i hi => by
        have hnext := hitem (i + 1) (Nat.succ_lt_succ hi)
        rwa [Nat.succ_mul, Nat.add_comm (i * size), ← Nat.add_assoc] at hnext
      have hcomma : (if count = 0 then [] else nkFprintf fl ", " []).length ≤ 2 := by
        split
        · exact Nat.zero_le 2
        · exact Nat.le_refl 2
      rw [Nat.zero_mul, Nat.add_zero] at hfirst
      rw [serializeItems, List.length_append, List.length_append, Nat.succ_mul]
      omega

theorem serializeRows_length_le {row : Nat → List UInt8} {size count location : Nat}
    (bound : Nat) (hrow : ∀ i < count, (row (location + i * size)).length ≤ bound) :
    (serializeRows row size count location).length ≤ count * (1 + bound) := by
  induction count generalizing location with
  | zero => simp [serializeRows]
  | succ count ih =>
      have hfirst := hrow 0 (Nat.succ_pos _)
      have hrest := @ih (location + size) fun i hi => by
        have hnext := hrow (i + 1) (Nat.succ_lt_succ hi)
        rwa [Nat.succ_mul, Nat.add_comm (i * size), ← Nat.add_assoc] at hnext
      have hcolon : (ascii ":").length = 1 := rfl
      rw [Nat.zero_mul, Nat.add_zero] at hfirst
      rw [serializeRows, List.length_append, List.length_append, Nat.succ_mul, hcolon]
      omega

theorem serializeHeader_length (columns : List Member) :
    (serializeHeader fl columns).length = namesBound columns := by
  induction columns with
  | nil => rfl
  | cons m columns ih =>
      obtain ⟨name, type, offset⟩ := m
      rw [serializeHeader] at ih
      rw [serializeHeader, List.flatMap_cons, List.length_append, ih, nkFprintf_space,
        List.length_append, namesBound]
      rfl

/-- What is shown for every member by the induction over the schema. -/
def Bounded (mem : Memory) (type : Ty) : Prop :=
  ∀ location, ValueOk mem type location →
    (nkDbaseSerialize fl charSigned mem type location).length ≤ type.textBound

variable {mem : Memory}

theorem serializeMembers_length_le {members : List Member}
    (hbounded : ∀ m ∈ members, Bounded fl charSigned mem m.2.1) {location : Nat}
    (hok : MembersOk mem members location) :
    (serializeMembers fl charSigned mem members location).length ≤ membersBound members := by
  induction members with
  | nil =>
      rw [serializeMembers]
      exact Nat.zero_le _
  | cons m members ih =>
      obtain ⟨name, type, offset⟩ := m
      rw [MembersOk] at hok
      have hfirst := hbounded (name, type, offset) List.mem_cons_self (location + offset) hok.1
      have hrest := ih (fun m hm => hbounded m (List.mem_cons_of_mem _ hm)) hok.2
      have hcomma : (if members.isEmpty then [] else nkFprintf fl ", " []).length ≤ 2 := by
        split
        · exact Nat.zero_le 2
        · exact Nat.le_refl 2
      rw [serializeMembers, membersBound, nkFprintf_colon]
      simp only [List.length_append, List.length_singleton]
      dsimp only at hfirst
      omega

theorem serializeRow_length_le {columns : List Member}
    (hbounded : ∀ m ∈ columns, Bounded fl charSigned mem m.2.1) {location : Nat}
    (hok : MembersOk mem columns location) :
    (serializeRow fl charSigned mem columns location).length ≤ fieldsBound columns := by
  induction columns with
  | nil =>
      rw [serializeRow]
      exact Nat.zero_le _
  | cons m columns ih =>
      obtain ⟨name, type, offset⟩ := m
      rw [MembersOk] at hok
      have hfirst := hbounded (name, type, offset) List.mem_cons_self (location + offset) hok.1
      have hrest := ih (fun m hm => hbounded m (List.mem_cons_of_mem _ hm)) hok.2
      have hspace : (if columns.isEmpty then [] else ascii " ").length ≤ 1 := by
        split
        · exact Nat.zero_le 1
        · exact Nat.le_refl 1
      rw [serializeRow, fieldsBound]
      simp only [List.length_append]
      dsimp only at hfirst
      omega

/-! ## All values -/

/-- By the constructors of the schema. -/
theorem bounded_of_wellFormed (type : Ty) (hwf : WellFormed type) :
    Bounded fl charSigned mem type := by
  induction type, hwf using wellFormed_induction with
  | tBool size check h =>
      intro location _
      rw [nkDbaseSerialize, Ty.textBound]
      split
      · exact (by decide : 4 ≤ 5)
      · exact Nat.le_refl 5
  | tInteger what size check h =>
      intro location _
      rw [nkDbaseSerialize, Ty.textBound]
      exact what.text_length_le fl charSigned mem location
  | tString size check h =>
      intro location hok
      rw [ValueOk] at hok
      have hlen := cString_length hok
      have hchars := serializeString_length_le fl charSigned (cString (mem.read location size))
      have hquote : (ascii "\"").length = 1 := rfl
      rw [Memory.read_length] at hlen
      rw [nkDbaseSerialize, Ty.textBound, List.length_append, List.length_append, hquote]
      omega
  | tStruct size members check h ih =>
      intro location hok
      rw [ValueOk] at hok
      simp only [WellFormed] at h
      obtain ⟨hall, -⟩ := membersWellFormed_iff.mp h.2.1
      have hmembers := serializeMembers_length_le fl charSigned
        (fun m hm => ih m hm (hall m hm).type) hok
      have hopen : (ascii "\x7b").length = 1 := rfl
      have hclose : (ascii "\x7d").length = 1 := rfl
      rw [nkDbaseSerialize, Ty.textBound, List.length_append, List.length_append, hopen, hclose]
      omega
  | tArray size subtype check h ih =>
      intro location hok
      rw [ValueOk] at hok
      simp only [WellFormed] at h
      have hitems := serializeItems_length_le fl fun i hi => ih h.2.2.2.1 _ (hok i hi)
      have hopen : (ascii "[").length = 1 := rfl
      have hclose : (ascii "]").length = 1 := rfl
      rw [nkDbaseSerialize, Ty.textBound, List.length_append, List.length_append, hopen, hclose]
      omega
  | tVarray size subtype check h ih =>
      intro location hok
      rw [ValueOk] at hok
      simp only [WellFormed] at h
      have hitems := serializeItems_length_le fl fun i hi => ih h.2.2.2.1 _ (hok.2 i hi)
      have hmore := Nat.mul_le_mul_right (subtype.textBound + 2) hok.1
      have hopen : (ascii "[").length = 1 := rfl
      have hclose : (ascii "]").length = 1 := rfl
      rw [nkDbaseSerialize, Ty.textBound, List.length_append, List.length_append, hopen, hclose]
      omega
  | tTable size rowSize columns check h ih =>
      intro location hok
      rw [ValueOk] at hok
      simp only [WellFormed] at h
      obtain ⟨hall, -⟩ := membersWellFormed_iff.mp h.2.2.2.1
      have hrows := serializeRows_length_le (fieldsBound columns)
        fun i hi => serializeRow_length_le fl charSigned
          (fun m hm => ih m hm (hall m hm).type) (hok.2 i hi)
      have hmore := Nat.mul_le_mul_right (1 + fieldsBound columns) hok.1
      have hopen : (ascii "(").length = 1 := rfl
      have hclose : (ascii ")").length = 1 := rfl
      rw [nkDbaseSerialize, Ty.textBound]
      simp only [List.length_append, hopen, hclose, serializeHeader_length]
      omega

/-- The text of a well-formed value is not longer than the schema says. -/
theorem nkDbaseSerialize_length_le (type : Ty) (hwf : WellFormed type) :
    Bounded fl charSigned mem type := bounded_of_wellFormed fl charSigned type hwf

/-- Two rows with a negative number and a Boolean value. -/
theorem nkDbaseSerialize_length_le_rows :
    let type : Ty :=
      .tTable 16 8 [([97], .tInteger .tInt16 2 none, 0), ([98], .tBool 4 none, 4)] none
    let image : List UInt8 := [2, 0, 0, 0, 0, 0, 0, 0, 0xC7, 0xCF, 0, 0, 0, 0, 0, 0, 5, 0, 0, 0, 1]
    (nkDbaseSerialize .absent true (fun a => image.getD a 0) type 0).length ≤ 34 := by
  intro type image
  have hids : IsIdent [97] ∧ IsIdent [98] := ⟨.of_all rfl, .of_all rfl⟩
  have hwf : WellFormed type := by
    simp [type, WellFormed, MembersWellFormed, Check.Accepts, Check.passes, Apart, Ty.extent,
      Ty.size, IntType.width, nkdbaseMaxIdentLen, nkdbaseMaxCols, hids]
  have hok : ValueOk (fun a => image.getD a 0) type 0 := by
    simp only [type, ValueOk, MembersOk]
    exact ⟨by decide, fun _ _ => ⟨trivial, trivial, trivial⟩⟩
  exact nkDbaseSerialize_length_le .absent true type hwf 0 hok

/-- Where the longest text fits, every well-formed value can be saved. -/
theorem savable_of_textBound {dbase : NkDbase} (hwf : WellFormed dbase.ty)
    (hfits : ∀ one, headerSize + roundUp (1 + dbase.ty.textBound) (dbase.bank one).granularity ≤
      (dbase.bank one).areaSize) {location : Nat} (hok : ValueOk mem dbase.ty location) :
    Savable fl charSigned dbase mem location := by
  have hbound := bounded_of_wellFormed fl charSigned dbase.ty hwf location hok
  refine ⟨hok, fun one => Nat.le_trans (Nat.add_le_add_left ?_ _) (hfits one)⟩
  exact roundUp_mono (Nat.add_le_add_left hbound 1) _

end LibnklabsPico.Dbase
