/-
  Dbase/Loops.lean --- the loops of the parser over arrays and structures.

  `Reads` says that the parser for a type reads the layout of a value of another type,
  and `Skips` that `skip_value` skips a text.  Each loop reads a list of items or
  members that can be read or skipped, one by one.
-/
import LibnklabsPico.Dbase.Migrated
import LibnklabsPico.Dbase.Spacing
import Mathlib.Data.List.Pairwise
import Mathlib.Data.List.TakeWhile

set_option autoImplicit false

namespace LibnklabsPico.Dbase

open LibnklabsPico.Foundation
open LibnklabsPico.File
open LibnklabsPico.Text

variable {s : Spacing} {fl : Floats} {charSigned : Bool} {mem : Memory} {fuel : Nat}

/-! ## One value -/

/-- Whether values of the type end with a mark of their own. -/
def Ty.closed : Ty → Bool
  | .tBool _ _ | .tInteger _ _ _ | .tDouble _ _ | .tFloat _ _ => false
  | _ => true

/-- `type->what == tBOOL`: the parser takes the whitespace behind such a value along. -/
def Ty.isBool : Ty → Bool
  | .tBool _ _ => true
  | _ => false

/-- What may follow a value: anything when it has a closing mark, else whitespace and
something that does not continue it. -/
def Follows (type : Ty) (ws rest : List UInt8) : Prop :=
  type.closed = true ∨
    Blank ws ∧ nkIsspace (peekHead rest) = false ∧ Ends (peekHead (ws ++ rest))

/-- Two memories are the same but for `size` bytes from `location` on. -/
def SameOutside (mem mem' : Memory) (location size : Nat) : Prop :=
  ∀ a, a < location ∨ location + size ≤ a → mem' a = mem a

/-- A store that fits. -/
theorem store_outside (mem : Memory) {location size : Nat} {bytes : List UInt8}
    (hsize : bytes.length ≤ size) : SameOutside mem (mem.store location bytes) location size := by
  intro a ha
  refine Memory.store_outside ?_
  omega

theorem getLen_setLen (mem : Memory) (location len : Nat) :
    getLen (setLen mem location len) location = len % 2 ^ 32 := by
  have hread := Memory.read_store mem location (leBytes 4 len)
  rw [leBytes_length] at hread
  rw [getLen, setLen, hread, ofLe_leBytes]
  rfl

theorem getLen_setLen_of_lt (mem : Memory) (location : Nat) {len : Nat} (hlen : len < 2 ^ 32) :
    getLen (setLen mem location len) location = len :=
  (getLen_setLen mem location len).trans (Nat.mod_eq_of_lt hlen)

theorem setLen_outside (mem : Memory) (location len : Nat) :
    SameOutside mem (setLen mem location len) location 4 :=
  store_outside mem (Nat.le_of_eq (leBytes_length 4 len))

theorem getLen_lt (mem : Memory) (location : Nat) : getLen mem location < 2 ^ 32 :=
  ofLe_read_lt mem location 4

theorem SameOutside.same {mem mem' : Memory} {location size location' size' : Nat}
    (h : SameOutside mem mem' location size)
    (hapart : location' + size' ≤ location ∨ location + size ≤ location') :
    Same mem mem' location' size' :=
  fun a hlow hhigh => h a (by omega)

theorem Same.refl (mem : Memory) (location size : Nat) : Same mem mem location size :=
  fun _ _ _ => rfl

theorem Same.symm {mem mem' : Memory} {location size : Nat} (h : Same mem mem' location size) :
    Same mem' mem location size :=
  fun a hlow hhigh => (h a hlow hhigh).symm

/-- The parser for `type'` reads the layout of a value of `type`, and maybe some of the
whitespace behind it. -/
def Reads (s : Spacing) (fl : Floats) (charSigned : Bool) (mem : Memory) (type type' : Ty)
    (ind : Int) (location : Nat) : Prop :=
  ∀ (fuel location' : Nat) (mem₀ : Memory) (ws rest : List UInt8), Follows type' ws rest →
    (layout s fl charSigned mem type ind location ++ (ws ++ rest)).length < fuel →
    ∃ mem₁ ate left, ws = ate ++ left ∧ (type.isBool = true → left = []) ∧
      Takes (nkFscanKeyval fl fuel type' location' mem₀)
        (layout s fl charSigned mem type ind location ++ ate) (left ++ rest) (true, mem₁) ∧
      Migrated mem mem₀ mem₁ type type' location location' ∧
      SameOutside mem₀ mem₁ location' type'.extent

/-- A value in front of something that is not whitespace. -/
theorem Reads.takes {type type' : Ty} {ind : Int} {location : Nat}
    (h : Reads s fl charSigned mem type type' ind location) (location' : Nat) (mem₀ : Memory)
    {rest : List UInt8}
    (hrest : type'.closed = true ∨ nkIsspace (peekHead rest) = false ∧ Ends (peekHead rest))
    (hfuel : (layout s fl charSigned mem type ind location ++ rest).length < fuel) :
    ∃ mem₁, Takes (nkFscanKeyval fl fuel type' location' mem₀)
        (layout s fl charSigned mem type ind location) rest (true, mem₁) ∧
      Migrated mem mem₀ mem₁ type type' location location' ∧
      SameOutside mem₀ mem₁ location' type'.extent := by
  have hfollows : Follows type' [] rest := by
    rcases hrest with h | ⟨hspace, hends⟩
    · exact Or.inl h
    · exact Or.inr ⟨blank_nil, hspace, hends⟩
  obtain ⟨mem₁, ate, left, hws, -, htakes, hmigrated, hsame⟩ :=
    h fuel location' mem₀ [] rest hfollows hfuel
  obtain ⟨rfl, rfl⟩ := List.append_eq_nil_iff.mp hws.symm
  rw [List.append_nil] at htakes
  exact ⟨mem₁, htakes, hmigrated, hsame⟩

/-- `skip_value` skips the text of a value of the type, and maybe some of the whitespace
behind it. -/
def Skips (fl : Floats) (type : Ty) (text : List UInt8) : Prop :=
  ∀ (fuel : Nat) (ws rest : List UInt8), Follows type ws rest →
    (text ++ (ws ++ rest)).length < fuel →
    ∃ ate left, ws = ate ++ left ∧ (type.isBool = true → left = []) ∧
      Takes (skipValue fl fuel) (text ++ ate) (left ++ rest) true

/-- Whitespace ends a number, and so does what stands behind it. -/
theorem ends_blank {ws rest : List UInt8} (hws : Blank ws) (hrest : Ends (peekHead rest)) :
    Ends (peekHead (ws ++ rest)) := by
  cases ws with
  | nil => exact hrest
  | cons b ws => exact Or.inr (Or.inr (Or.inl (hws b List.mem_cons_self)))

theorem blank_left {ate left : List UInt8} (h : Blank (ate ++ left)) : Blank left :=
  fun b hb => h b (List.mem_append_right ate hb)

theorem add_succ_mul (m i size : Nat) : m + (i + 1) * size = m + size + i * size := by
  rw [Nat.succ_mul]
  omega

/-! ## Arrays -/

section
variable {subtype subtype' : Ty} {skip : FileProg Bool} {base size itemSize : Nat}

/-- The comma between two items. -/
theorem takes_arrayLoop_comma {value : ValueScan} {n idx : Nat} {rtn : Bool} {mem₀ : Memory}
    {tok rest : List UInt8} {result : Bool × Nat × Memory}
    (h : Takes (arrayLoop value skip fuel base size itemSize n idx rtn mem₀) tok rest result) :
    Takes (arrayLoop value skip fuel base size itemSize (n + 1) idx rtn mem₀) (44 :: tok) rest
      result := by
  have hspace : nkIsspace (peekHead (44 :: tok ++ rest)) = false :=
    (by decide : nkIsspace (peekHead [44]) = false)
  have hgo : peekHead (44 :: tok ++ rest) ≠ -1 ∧ peekHead (44 :: tok ++ rest) ≠ ch ']' :=
    (by decide : peekHead [44] ≠ -1 ∧ peekHead [44] ≠ ch ']')
  have hcomma : peekHead (44 :: tok ++ rest) = ch ',' := rfl
  have hws : Takes (nkFscanWs fuel) [] (44 :: tok ++ rest) () :=
    takes_ws blank_nil hspace (Nat.zero_le fuel)
  rw [arrayLoop]
  refine Takes.look hws (Takes.look (Takes.peek _) ?_)
  rw [if_pos hgo, if_pos hcomma]
  exact Takes.bind (Takes.nextFast 44 _) h

/-- One item that is saved. -/
theorem takes_arrayLoop_item {value : ValueScan} {n idx : Nat} {rtn : Bool}
    {mem₀ mem₁ : Memory} {ws text tok rest : List UInt8} {result : Bool × Nat × Memory}
    (hws : Blank ws) (hfuel : ws.length ≤ fuel)
    (hstarts : Starts (peekHead (text ++ (tok ++ rest))))
    (hidx : idx < size)
    (hvalue : Takes (value (base + idx) mem₀) text (tok ++ rest) (true, mem₁))
    (h : Takes (arrayLoop value skip fuel base size itemSize n (idx + itemSize) true mem₁) tok rest
      result) :
    Takes (arrayLoop value skip fuel base size itemSize (n + 1) idx rtn mem₀) (ws ++ (text ++ tok))
      rest result := by
  obtain ⟨hspace, hminus, hclose, hcomma, -⟩ := hstarts.facts
  rw [arrayLoop]
  rw [← List.append_assoc] at hspace hminus hclose hcomma
  refine Takes.bind (takes_ws hws hspace hfuel) (Takes.look (Takes.peek _) ?_)
  rw [if_pos ⟨hminus, hclose⟩, if_neg hcomma, if_pos hidx]
  exact Takes.bind hvalue h

/-- One item that there is no space for. -/
theorem takes_arrayLoop_extra {value : ValueScan} {n idx : Nat} {rtn : Bool} {mem₀ : Memory}
    {ws text tok rest : List UInt8} {result : Bool × Nat × Memory}
    (hws : Blank ws) (hfuel : ws.length ≤ fuel)
    (hstarts : Starts (peekHead (text ++ (tok ++ rest))))
    (hidx : ¬ idx < size) (hskip : Takes skip text (tok ++ rest) true)
    (h : Takes (arrayLoop value skip fuel base size itemSize n idx true mem₀) tok rest result) :
    Takes (arrayLoop value skip fuel base size itemSize (n + 1) idx rtn mem₀) (ws ++ (text ++ tok))
      rest result := by
  obtain ⟨hspace, hminus, hclose, hcomma, -⟩ := hstarts.facts
  rw [arrayLoop]
  rw [← List.append_assoc] at hspace hminus hclose hcomma
  refine Takes.bind (takes_ws hws hspace hfuel) (Takes.look (Takes.peek _) ?_)
  rw [if_pos ⟨hminus, hclose⟩, if_neg hcomma, if_neg hidx]
  exact Takes.bind hskip h

/-- The closing bracket. -/
theorem takes_arrayLoop_end {value : ValueScan} {n idx : Nat} {rtn : Bool} {mem₀ : Memory}
    {ws : List UInt8} (hws : Blank ws) (hfuel : ws.length ≤ fuel) (rest : List UInt8) :
    Takes (arrayLoop value skip fuel base size itemSize (n + 1) idx rtn mem₀) ws (93 :: rest)
      (rtn, idx, mem₀) := by
  have hspace : nkIsspace (peekHead (93 :: rest)) = false :=
    (by decide : nkIsspace (peekHead [93]) = false)
  have hstop : ¬ (peekHead ([] ++ 93 :: rest) ≠ -1 ∧ peekHead ([] ++ 93 :: rest) ≠ ch ']') :=
    (by decide : ¬ (peekHead [93] ≠ -1 ∧ peekHead [93] ≠ ch ']'))
  rw [arrayLoop]
  refine Takes.finish (takes_ws hws hspace hfuel) (Takes.look (Takes.peek _) ?_)
  rw [if_neg hstop]
  exact Takes.pure _ _

/-- Items from the `i`th on that can be read, as long as there is space for them, and
skipped after that. -/
structure ItemsReady (s : Spacing) (fl : Floats) (charSigned : Bool) (mem : Memory)
    (subtype subtype' : Ty) (ind : Int) (capacity i count location : Nat) : Prop where
  reads : ∀ j < count, i + j < capacity →
    Reads s fl charSigned mem subtype subtype' ind (location + j * subtype.size)
  skips : ∀ j < count, capacity ≤ i + j →
    Skips fl subtype (layout s fl charSigned mem subtype ind (location + j * subtype.size))

theorem ItemsReady.tail_read {ind : Int} {capacity i count location : Nat}
    (h : ItemsReady s fl charSigned mem subtype subtype' ind capacity i (count + 1) location) :
    ItemsReady s fl charSigned mem subtype subtype' ind capacity (i + 1) count
      (location + subtype.size) where
  reads j hj hspace := by
    rw [← add_succ_mul]
    exact h.reads (j + 1) (by omega) (by omega)
  skips j hj hfull := by
    rw [← add_succ_mul]
    exact h.skips (j + 1) (by omega) (by omega)

theorem ItemsReady.tail_skip {ind : Int} {capacity i count location : Nat} (hi : capacity ≤ i)
    (h : ItemsReady s fl charSigned mem subtype subtype' ind capacity i (count + 1) location) :
    ItemsReady s fl charSigned mem subtype subtype' ind capacity i count
      (location + subtype.size) where
  reads j hj hspace := absurd hspace (by omega)
  skips j hj hfull := by
    rw [← add_succ_mul]
    exact h.skips (j + 1) (by omega) (by omega)

/-- What one item or row was loaded with depends only on its own memory. -/
def Local (done : Memory → Memory → Nat → Nat → Prop) (size' : Nat) : Prop :=
  ∀ (mem₀ mem₁ mem₀' mem₁' : Memory) (location location' : Nat),
    done mem₀ mem₁ location location' → Same mem₀ mem₀' location' size' →
    Same mem₁ mem₁' location' size' → done mem₀' mem₁' location location'

/-- The items from the `i`th on have been loaded, as many as there is space for. -/
structure Filled (done : Memory → Memory → Nat → Nat → Prop) (size size' capacity : Nat)
    (mem₀ mem₁ : Memory) (i count location base : Nat) : Prop where
  filled : ∀ j < count, i + j < capacity →
    done mem₀ mem₁ (location + j * size) (base + (i + j) * size')
  outside : SameOutside mem₀ mem₁ (base + i * size') ((capacity - i) * size')

namespace Filled

variable {done : Memory → Memory → Nat → Nat → Prop} {mem₀ mem₁ mem₂ : Memory}
  {size' capacity i count location : Nat}

theorem none (done : Memory → Memory → Nat → Nat → Prop)
    (size size' capacity : Nat) (mem₀ : Memory) (i location base : Nat) :
    Filled done size size' capacity mem₀ mem₀ i 0 location base :=
  ⟨fun j hj => absurd hj (Nat.not_lt_zero j), fun _ _ => rfl⟩

/-- One more item was loaded. -/
theorem read (hlocal : Local done size') (hi : i < capacity)
    (hitem : done mem₀ mem₁ location (base + i * size'))
    (hsame : SameOutside mem₀ mem₁ (base + i * size') size')
    (h : Filled done size size' capacity mem₁ mem₂ (i + 1) count (location + size) base) :
    Filled done size size' capacity mem₀ mem₂ i (count + 1) location base := by
  have hnext : (i + 1) * size' = i * size' + size' := Nat.succ_mul _ _
  have hspace : (capacity - i) * size' = size' + (capacity - (i + 1)) * size' := by
    rw [show capacity - i = capacity - (i + 1) + 1 by omega, Nat.succ_mul, Nat.add_comm]
  have houtside := h.outside
  refine ⟨fun j hj hroom => ?_, fun a ha => ?_⟩
  · cases j with
    | zero =>
        rw [Nat.zero_mul, Nat.add_zero, Nat.add_zero]
        exact hlocal _ _ _ _ _ _ hitem (Same.refl _ _ _) (houtside.same (by omega))
    | succ j =>
        have hloaded := h.filled j (by omega) (by omega)
        rw [show i + (j + 1) = i + 1 + j by omega, add_succ_mul]
        have hafter : i * size' + size' ≤ (i + 1 + j) * size' := by
          rw [Nat.add_mul (i + 1), hnext]
          omega
        exact hlocal _ _ _ _ _ _ hloaded (hsame.same (by omega)).symm (Same.refl _ _ _)
  · rw [houtside a (by omega), hsame a (by omega)]

/-- One more item was skipped. -/
theorem leave (hi : capacity ≤ i)
    (h : Filled done size size' capacity mem₀ mem₁ i count (location + size) base) :
    Filled done size size' capacity mem₀ mem₁ i (count + 1) location base :=
  ⟨fun j _ hroom => absurd hroom (by omega), h.outside⟩

end Filled

theorem local_migrated (mem : Memory) (type : Ty) {type' : Ty} (hwf : WellFormed type') :
    Local (fun mem₀ mem₁ => Migrated mem mem₀ mem₁ type type') type'.extent :=
  fun _ _ _ _ _ _ h h₀ h₁ => h.congr hwf h₀ h₁

/-- What stands behind an item: whitespace that the item may take along, and what the
loop goes on with. -/
theorem items_tail (s : Spacing) (item : Nat → List UInt8) (itemSize : Nat) (ind : Int)
    (count location : Nat)
    {close : List UInt8} (hclose : Blank close) (rest : List UInt8) :
    ∃ gap tail, s.separator (count == 0) ++
        (layoutItems s item itemSize ind count location ++ close) = gap ++ tail ∧ Blank gap ∧
      nkIsspace (peekHead (tail ++ 93 :: rest)) = false ∧ Ends (peekHead (tail ++ 93 :: rest)) ∧
      (count = 0 ∧ tail = [] ∨ gap = [] ∧
        tail = 44 :: (s.next.1 ++ (layoutItems s item itemSize ind count location ++ close))) := by
  cases count with
  | zero =>
      refine ⟨s.last.1 ++ close, [], by simp [Spacing.separator, layoutItems],
        blank_append s.last.2 hclose, (by decide : nkIsspace (peekHead [93]) = false),
        (by simp [Ends, peekHead] : Ends (peekHead [93])), Or.inl ⟨rfl, rfl⟩⟩
  | succ count =>
      exact ⟨[], _, by simp [Spacing.separator], blank_nil,
        (by decide : nkIsspace (peekHead [44]) = false),
        (by simp [Ends, peekHead] : Ends (peekHead [44])), Or.inr ⟨rfl, rfl⟩⟩

/-- The items of an array from the `i`th on behind whitespace, up to the closing
bracket. -/
theorem takes_arrayLoop (hsub : WellFormed subtype) (hwf : WellFormed subtype')
    (hcounted : subtype'.counted = false) (hpos : 0 < subtype'.size) {ind : Int}
    {capacity i count n location : Nat} (base : Nat) (mem₀ : Memory) {ws close rest : List UInt8}
    (hready : ItemsReady s fl charSigned mem subtype subtype' (s.item ind) capacity i count
      location)
    (hi : i ≤ capacity) (hws : Blank ws) (hclose : Blank close)
    (hn : (ws ++ (layoutItems s (layout s fl charSigned mem subtype (s.item ind)) subtype.size ind
      count location ++ close)).length < n)
    (hfuel : (ws ++ (layoutItems s (layout s fl charSigned mem subtype (s.item ind)) subtype.size
      ind count location ++ close) ++ 93 :: rest).length < fuel) :
    ∃ mem₁, Takes (arrayLoop (nkFscanKeyval fl fuel subtype') (skipValue fl fuel) fuel base
          (capacity * subtype'.size) subtype'.size n (i * subtype'.size) true mem₀)
        (ws ++ (layoutItems s (layout s fl charSigned mem subtype (s.item ind)) subtype.size ind
          count location ++ close)) (93 :: rest)
        (true, min (i + count) capacity * subtype'.size, mem₁) ∧
      Filled (fun mem₀ mem₁ => Migrated mem mem₀ mem₁ subtype subtype') subtype.size subtype'.size
        capacity mem₀ mem₁ i count location base := by
  have hlocal := local_migrated mem subtype hwf
  rw [Ty.extent_of_not_counted hcounted] at hlocal
  induction count generalizing n i location mem₀ ws close with
  | zero =>
      obtain ⟨n, rfl⟩ : ∃ k, n = k + 1 := ⟨n - 1, by omega⟩
      simp only [layoutItems, List.nil_append, List.length_append] at hn hfuel ⊢
      rw [show min (i + 0) capacity = i by omega]
      exact ⟨mem₀,
        takes_arrayLoop_end (blank_append hws hclose) (by rw [List.length_append]; omega) rest,
        .none _ _ _ _ mem₀ i location base⟩
  | succ count ih =>
      have hstarts := layout_head s fl charSigned mem hsub (s.item ind) location
      have hlength := layout_length s fl charSigned mem hsub (s.item ind) location
      obtain ⟨gap, tail, hsplit, hgap, hspace, hends, htail⟩ := items_tail s
        (layout s fl charSigned mem subtype (s.item ind)) subtype.size ind count
        (location + subtype.size) hclose rest
      have hbefore := blank_append hws (s.before ind).2
      have htext : ws ++ (layoutItems s (layout s fl charSigned mem subtype (s.item ind))
          subtype.size ind (count + 1) location ++ close) =
          (ws ++ (s.before ind).1) ++ (layout s fl charSigned mem subtype (s.item ind) location ++
            (gap ++ tail)) := by
        rw [← hsplit]
        simp only [layoutItems, List.append_assoc]
      rw [htext] at hn hfuel ⊢
      simp only [List.length_append, List.length_cons] at hn hfuel
      have hvalueFuel : (layout s fl charSigned mem subtype (s.item ind) location ++
          (gap ++ (tail ++ 93 :: rest))).length < fuel := by
        simp only [List.length_append, List.length_cons]
        omega
      -- the loop goes on behind what is left of the whitespace
      have hnext : ∀ (i' : Nat) (mem₁ : Memory) (ate left : List UInt8), gap = ate ++ left →
          ItemsReady s fl charSigned mem subtype subtype' (s.item ind) capacity i' count
            (location + subtype.size) → i' ≤ capacity → ∀ k, n ≤ k + 1 → ∃ mem₂,
          Takes (arrayLoop (nkFscanKeyval fl fuel subtype') (skipValue fl fuel) fuel base
              (capacity * subtype'.size) subtype'.size k (i' * subtype'.size) true mem₁)
            (left ++ tail) (93 :: rest)
            (true, min (i' + count) capacity * subtype'.size, mem₂) ∧
          Filled (fun mem₀ mem₁ => Migrated mem mem₀ mem₁ subtype subtype') subtype.size
            subtype'.size capacity mem₁ mem₂ i' count (location + subtype.size) base := by
        intro i' mem₁ ate left hate hready' hi' k hk
        have hateLength := congrArg List.length hate
        rw [List.length_append] at hateLength
        rcases htail with ⟨rfl, rfl⟩ | ⟨rfl, rfl⟩
        · have hloop := @ih i' k (location + subtype.size) mem₁ left [] hready' hi'
            (blank_left (hate ▸ hgap)) blank_nil
          simp only [layoutItems, List.append_nil, List.length_append, List.length_cons] at hloop ⊢
          simp only [List.length_nil] at hn hfuel
          exact hloop (by omega) (by omega)
        · obtain ⟨k, rfl⟩ : ∃ j, k = j + 1 := ⟨k - 1, by omega⟩
          obtain ⟨rfl, rfl⟩ := List.append_eq_nil_iff.mp hate.symm
          simp only [List.length_append, List.length_cons, List.length_nil] at hn hfuel
          obtain ⟨mem₂, htakes, hmigrated⟩ := @ih i' k (location + subtype.size) mem₁ s.next.1 close
            hready' hi' s.next.2 hclose
            (by simp only [List.length_append]; omega)
            (by simp only [List.length_append, List.length_cons]; omega)
          exact ⟨mem₂, takes_arrayLoop_comma htakes, hmigrated⟩
      obtain ⟨n, rfl⟩ : ∃ k, n = k + 1 := ⟨n - 1, by omega⟩
      have hfollows : ∀ type : Ty, Follows type gap (tail ++ 93 :: rest) :=
        fun _ => Or.inr ⟨hgap, hspace, ends_blank hgap hends⟩
      have hgapFuel : (ws ++ (s.before ind).1).length ≤ fuel := by
        rw [List.length_append]
        omega
      by_cases hroom : i < capacity
      · have hread := hready.reads 0 (Nat.succ_pos count) (by omega)
        rw [Nat.zero_mul, Nat.add_zero] at hread
        obtain ⟨mem₁, ate, left, hate, -, hvalue, hmigrated, hsame⟩ := hread fuel
          (base + i * subtype'.size) mem₀ gap (tail ++ 93 :: rest) (hfollows subtype') hvalueFuel
        rw [Ty.extent_of_not_counted hcounted] at hsame
        obtain ⟨mem₂, hloop, hitems⟩ := hnext (i + 1) mem₁ ate left hate hready.tail_read hroom n
          (Nat.le_refl _)
        refine ⟨mem₂, ?_, hitems.read hlocal hroom hmigrated hsame⟩
        rw [Nat.succ_mul] at hloop
        rw [show i + (count + 1) = i + 1 + count by omega, hate, List.append_assoc ate,
          ← List.append_assoc _ ate]
        refine takes_arrayLoop_item hbefore hgapFuel (by rw [List.append_assoc]; exact hstarts _) ?_
          (by rw [List.append_assoc]; exact hvalue) hloop
        exact Nat.mul_lt_mul_of_pos_right hroom hpos
      · have hfull : capacity ≤ i := by omega
        have hskip := hready.skips 0 (Nat.succ_pos count) (by omega)
        rw [Nat.zero_mul, Nat.add_zero] at hskip
        obtain ⟨ate, left, hate, -, hvalue⟩ := hskip fuel gap (tail ++ 93 :: rest)
          (hfollows subtype) hvalueFuel
        obtain ⟨mem₂, hloop, hitems⟩ := hnext i mem₀ ate left hate (hready.tail_skip hfull) hi n
          (Nat.le_refl _)
        refine ⟨mem₂, ?_, hitems.leave hfull⟩
        rw [show min (i + (count + 1)) capacity = min (i + count) capacity by omega, hate,
          List.append_assoc ate, ← List.append_assoc _ ate]
        refine takes_arrayLoop_extra hbefore hgapFuel
          (by rw [List.append_assoc]; exact hstarts _) ?_
          (by rw [List.append_assoc]; exact hvalue) hloop
        exact Nat.not_lt.mpr (Nat.mul_le_mul_right _ hfull)

end

/-! ## Members -/

theorem cString_ident {name : List UInt8} (h : IsIdent name) : cString name = name := by
  refine List.takeWhile_eq_self_iff.mpr fun c hc => ?_
  have hchar := h.chars c hc
  rw [bne_iff_ne]
  rintro rfl
  exact absurd hchar (by decide)

/-- Members with different names are found by their names. -/
theorem findMember_of_mem {members : List Member} {m : Member} (hident : IsIdent m.1)
    (hpairs : members.Pairwise fun m m' => m'.1 ≠ m.1 ∧ Apart m m') (hm : m ∈ members) :
    findMember members m.1 = some m := by
  rw [findMember, cString_ident hident]
  induction members with
  | nil => cases hm
  | cons m' members ih =>
      obtain ⟨hfirst, hpairs⟩ := List.pairwise_cons.mp hpairs
      rcases List.mem_cons.mp hm with rfl | hm
      · simp
      · have hne : (m'.1 == m.1) = false := beq_false_of_ne (hfirst m hm).1.symm
        simp only [List.find?_cons, hne]
        exact ih hpairs hm

/-- Members with different names are apart. -/
theorem apart_of_ne {members : List Member}
    (hpairs : members.Pairwise fun m m' => m'.1 ≠ m.1 ∧ Apart m m') {m m' : Member}
    (hm : m ∈ members) (hm' : m' ∈ members) (hne : m.1 ≠ m'.1) : Apart m m' := by
  have : Std.Symm fun m m' : Member => m'.1 ≠ m.1 ∧ Apart m m' :=
    ⟨fun m m' h => ⟨h.1.symm, h.2.symm⟩⟩
  have hdiffer : m ≠ m' := fun h => hne (congrArg Prod.fst h)
  exact (hpairs.forall hm hm' hdiffer).2

/-- A member of a structure or a row at `location` that the new schema can read, or that
can be skipped. -/
structure MemberReady (s : Spacing) (fl : Floats) (charSigned : Bool) (mem : Memory)
    (size : Nat) (members' : List Member) (ind : Int) (location : Nat) (m : Member) : Prop where
  ok : MemberOk size m
  reads : ∀ m', findMember members' m.1 = some m' →
    Reads s fl charSigned mem m.2.1 m'.2.1 ind (location + m.2.2)
  skips : findMember members' m.1 = none →
    Skips fl m.2.1 (layout s fl charSigned mem m.2.1 ind (location + m.2.2))

/-- The members that both schemas have were loaded, and nothing else was changed. -/
structure MembersMigrated (mem mem₀ mem₁ : Memory) (members members' : List Member)
    (location location' : Nat) : Prop where
  common : ∀ m ∈ members, ∀ m', findMember members' m.1 = some m' →
    Migrated mem mem₀ mem₁ m.2.1 m'.2.1 (location + m.2.2) (location' + m'.2.2)
  only : ∀ a, (∀ m ∈ members, ∀ m', findMember members' m.1 = some m' →
    a < location' + m'.2.2 ∨ location' + m'.2.2 + m'.2.1.extent ≤ a) → mem₁ a = mem₀ a

theorem MembersMigrated.refl (mem mem₀ : Memory) (members' : List Member)
    (location location' : Nat) :
    MembersMigrated mem mem₀ mem₀ [] members' location location' :=
  ⟨fun m hm => absurd hm (by simp), fun _ _ => rfl⟩

/-- One more member was loaded. -/
theorem MembersMigrated.read {mem₀ mem₁ mem₂ : Memory} {size' : Nat} {m m' : Member}
    {members members' : List Member} {location location' : Nat}
    (hwf : MembersWellFormed size' members') (hident : ∀ m₂ ∈ m :: members, IsIdent m₂.1)
    (hne : ∀ m₂ ∈ members, m₂.1 ≠ m.1) (hfound : findMember members' m.1 = some m')
    (hmember : Migrated mem mem₀ mem₁ m.2.1 m'.2.1 (location + m.2.2) (location' + m'.2.2))
    (hsame : SameOutside mem₀ mem₁ (location' + m'.2.2) m'.2.1.extent)
    (h : MembersMigrated mem mem₁ mem₂ members members' location location') :
    MembersMigrated mem mem₀ mem₂ (m :: members) members' location location' := by
  obtain ⟨hall, hpairs⟩ := membersWellFormed_iff.mp hwf
  obtain ⟨hname, hnames⟩ := List.forall_mem_cons.mp hident
  have hapart : ∀ m₂ ∈ members, ∀ m₂', findMember members' m₂.1 = some m₂' → Apart m' m₂' := by
    intro m₂ hm₂ m₂' hfound₂
    refine apart_of_ne hpairs (findMember_mem hfound) (findMember_mem hfound₂) ?_
    rw [findMember_name hfound, findMember_name hfound₂, cString_ident hname,
      cString_ident (hnames m₂ hm₂)]
    exact (hne m₂ hm₂).symm
  refine ⟨fun m₂ hm₂ m₂' hfound₂ => ?_, fun a ha => ?_⟩
  · have hok := hall m₂' (findMember_mem hfound₂)
    rcases List.mem_cons.mp hm₂ with rfl | hm₂
    · obtain rfl : m' = m₂' := by
        rw [hfound] at hfound₂
        exact Option.some.inj hfound₂
      refine hmember.congr hok.type (Same.refl _ _ _) fun a hlow hhigh => ?_
      refine h.only a fun m₃ hm₃ m₃' hfound₃ => ?_
      rcases hapart m₃ hm₃ m₃' hfound₃ with h | h <;> omega
    · refine (h.common m₂ hm₂ m₂' hfound₂).congr hok.type (hsame.same ?_).symm (Same.refl _ _ _)
      rcases hapart m₂ hm₂ m₂' hfound₂ with h | h <;> omega
  · rw [h.only a fun m₂ hm₂ => ha m₂ (List.mem_cons_of_mem m hm₂),
      hsame a (ha m List.mem_cons_self m' hfound)]

/-- One more member was skipped. -/
theorem MembersMigrated.leave {mem₀ mem₁ : Memory} {m : Member} {members members' : List Member}
    {location location' : Nat} (hnone : findMember members' m.1 = none)
    (h : MembersMigrated mem mem₀ mem₁ members members' location location') :
    MembersMigrated mem mem₀ mem₁ (m :: members) members' location location' := by
  refine ⟨fun m₂ hm₂ m₂' hfound => ?_, fun a ha =>
    h.only a fun m₂ hm₂ => ha m₂ (List.mem_cons_of_mem m hm₂)⟩
  rcases List.mem_cons.mp hm₂ with rfl | hm₂
  · rw [hnone] at hfound
    cases hfound
  · exact h.common m₂ hm₂ m₂' hfound

/-- Members that only the new schema has keep what was there. -/
theorem MembersMigrated.kept {mem₀ mem₁ : Memory} {size' : Nat} {members members' : List Member}
    {location location' : Nat} (hwf : MembersWellFormed size' members')
    (hident : ∀ m ∈ members, IsIdent m.1)
    (h : MembersMigrated mem mem₀ mem₁ members members' location location') :
    Kept mem₀ mem₁ members members' location' := by
  obtain ⟨-, hpairs⟩ := membersWellFormed_iff.mp hwf
  intro m' hm' hnew a hlow hhigh
  refine h.only a fun m₂ hm₂ m₂' hfound => ?_
  have hne : m'.1 ≠ m₂'.1 := by
    rw [findMember_name hfound, cString_ident (hident m₂ hm₂)]
    exact (hnew m₂ hm₂).symm
  rcases apart_of_ne hpairs hm' (findMember_mem hfound) hne with h | h <;> omega

theorem MembersMigrated.sameOutside {mem₀ mem₁ : Memory} {size' : Nat}
    {members members' : List Member} {location location' : Nat}
    (hwf : MembersWellFormed size' members')
    (h : MembersMigrated mem mem₀ mem₁ members members' location location') :
    SameOutside mem₀ mem₁ location' size' := by
  obtain ⟨hall, -⟩ := membersWellFormed_iff.mp hwf
  intro a ha
  refine h.only a fun m _ m' hfound => ?_
  have := (hall m' (findMember_mem hfound)).within
  omega

/-! ## Structures -/

section

theorem takes_commaLoop_none {n : Nat} {ws rest : List UInt8} (hws : Blank ws)
    (hspace : nkIsspace (peekHead rest) = false) (hcomma : peekHead rest ≠ (44 : UInt8).toNat)
    (hfuel : ws.length ≤ fuel) :
    Takes (commaLoop fl fuel n) [] (ws ++ rest) () := by
  cases n with
  | zero => exact Takes.pure _ _
  | succ n =>
      have hmore : Takes (nkFscan fl fuel " ,%e") [] (ws ++ rest) false :=
        takes_fscan_mark_ne rfl hws hspace hcomma hfuel
      exact Takes.look (by exact hmore) (Takes.pure _ _)

theorem takes_commaLoop_one {n : Nat} {ws rest : List UInt8} (hws : Blank ws)
    (hspace : nkIsspace (peekHead rest) = false) (hcomma : peekHead rest ≠ (44 : UInt8).toNat)
    (hfuel : ws.length ≤ fuel) :
    Takes (commaLoop fl fuel (n + 1)) [44] (ws ++ rest) () := by
  have hmore : Takes (nkFscan fl fuel " ,%e") ([] ++ [44]) (ws ++ rest) true :=
    takes_fscan_mark rfl blank_nil (by decide) (Nat.zero_le fuel)
  refine Takes.finish hmore ?_
  rw [if_pos rfl]
  exact takes_commaLoop_none hws hspace hcomma hfuel

variable {skip : FileProg Bool}

/-- The closing brace. -/
theorem takes_structLoop_end {value : Ty → ValueScan} {all : List Member} {n location' : Nat}
    {rtn : Bool} {mem₀ : Memory} {ws : List UInt8} (hws : Blank ws) (hfuel : ws.length ≤ fuel)
    (rest : List UInt8) :
    Takes (structLoop fl value skip fuel all location' (n + 1) rtn mem₀) ws (125 :: rest)
      (rtn, mem₀) := by
  have hspace : nkIsspace (peekHead (125 :: rest)) = false :=
    (by decide : nkIsspace (peekHead [125]) = false)
  have hnone : Takes (nkFscanBuf fl fuel "%i : %e" nkdbaseMaxIdentLen) [] ([] ++ 125 :: rest)
      (false, []) :=
    takes_fscan_no_ident (Or.inl ⟨rfl, rfl⟩) blank_nil hspace
      (by decide : peekHead [125] ≠ ch '"') (by decide : isIdentStart (peekHead [125]) = false)
      (Nat.zero_le fuel)
  rw [structLoop]
  exact Takes.finish (takes_ws hws hspace hfuel) (Takes.look hnone (Takes.pure _ _))

/-- One member, behind its name: the value is read or skipped. -/
theorem takes_structLoop_member {value : Ty → ValueScan} {all : List Member} {n location' : Nat}
    {rtn rtn' : Bool} {mem₀ mem₁ : Memory} {name ws gap text comma tok rest : List UInt8}
    {result : Bool × Memory} (hident : IsIdent name) (hlength : name.length < nkdbaseMaxIdentLen)
    (hws : Blank ws) (hgap : Blank gap) (hfuel : (ws ++ (name ++ gap)).length ≤ fuel)
    (hspace : nkIsspace (peekHead (text ++ (comma ++ (tok ++ rest)))) = false)
    (hvalue : match findMember all name with
      | some m => rtn' = true ∧
          Takes (value m.2.1 (location' + m.2.2) mem₀) text (comma ++ (tok ++ rest)) (true, mem₁)
      | none => rtn' = rtn ∧ mem₁ = mem₀ ∧ Takes skip text (comma ++ (tok ++ rest)) true)
    (hcomma : Takes (commaLoop fl fuel fuel) comma (tok ++ rest) ())
    (h : Takes (structLoop fl value skip fuel all location' n rtn' mem₁) tok rest result) :
    Takes (structLoop fl value skip fuel all location' (n + 1) rtn mem₀)
      (ws ++ ((name ++ 58 :: gap) ++ (text ++ (comma ++ tok)))) rest result := by
  simp only [List.length_append] at hfuel
  have hkey : Takes (nkFscanBuf fl fuel "%i : %e" nkdbaseMaxIdentLen) (name ++ 58 :: gap)
      (text ++ (comma ++ tok) ++ rest) (true, name) := by
    refine takes_fscan_key rfl hident hlength hgap ?_ (by omega) (by omega)
    simpa only [List.append_assoc] using hspace
  have hstart : nkIsspace (peekHead ((name ++ 58 :: gap) ++ (text ++ (comma ++ tok)) ++ rest)) =
      false := by
    rw [List.append_assoc, List.append_assoc, hident.head_append]
    exact hident.not_space
  rw [structLoop]
  refine Takes.bind (takes_ws hws hstart (by omega)) (Takes.bind hkey ?_)
  simp only [if_true]
  cases hfound : findMember all name with
  | some m =>
      simp only [hfound] at hvalue ⊢
      obtain ⟨rfl, hvalue⟩ := hvalue
      refine Takes.bind (by simpa only [List.append_assoc] using hvalue) ?_
      simp only [if_true]
      exact Takes.bind hcomma h
  | none =>
      simp only [hfound] at hvalue ⊢
      obtain ⟨rfl, rfl, hskip⟩ := hvalue
      refine Takes.bind (by simpa only [List.append_assoc] using hskip) ?_
      exact Takes.bind hcomma h

/-- What stands behind a member: whitespace that its value may take along, and what the
loops over commas and members go on with. -/
theorem members_tail (s : Spacing) (fl : Floats) (charSigned : Bool) (mem : Memory) (fuel : Nat)
    {members : List Member} (hident : ∀ m ∈ members, IsIdent m.1) (ind : Int) (location : Nat)
    {close : List UInt8} (hclose : Blank close) (rest : List UInt8)
    (hfuel : (s.separator members.isEmpty ++
      (layoutMembers s fl charSigned mem members ind location ++ close)).length ≤ fuel) :
    ∃ gap tail, s.separator members.isEmpty ++
        (layoutMembers s fl charSigned mem members ind location ++ close) = gap ++ tail ∧
      Blank gap ∧ nkIsspace (peekHead (tail ++ 125 :: rest)) = false ∧
      Ends (peekHead (tail ++ 125 :: rest)) ∧
      ∀ ate left, gap = ate ++ left → ∃ comma ws' close',
        left ++ tail = comma ++
          (ws' ++ (layoutMembers s fl charSigned mem members ind location ++ close')) ∧
        Blank ws' ∧ Blank close' ∧ (close = [] → close' = []) ∧
        Takes (commaLoop fl fuel fuel) comma
          (ws' ++ (layoutMembers s fl charSigned mem members ind location ++ close') ++
            125 :: rest) () := by
  cases members with
  | nil =>
      simp only [List.isEmpty_nil, Spacing.separator, if_true, layoutMembers, List.nil_append,
        List.length_append] at hfuel ⊢
      refine ⟨s.last.1 ++ close, [], (List.append_nil _).symm, blank_append s.last.2 hclose,
        (by decide : nkIsspace (peekHead [125]) = false),
        (by simp [Ends, peekHead] : Ends (peekHead [125])), fun ate left hate => ?_⟩
      have hleft : Blank left := blank_left (hate ▸ blank_append s.last.2 hclose)
      have hlength := congrArg List.length hate
      simp only [List.length_append] at hlength
      refine ⟨[], left, [], by simp, hleft, blank_nil, fun _ => rfl, ?_⟩
      rw [List.append_nil]
      exact takes_commaLoop_none hleft (by decide : nkIsspace (peekHead [125]) = false)
        (by decide : peekHead [125] ≠ (44 : UInt8).toNat) (by omega)
  | cons m members =>
      obtain ⟨name, type, offset⟩ := m
      have hname : IsIdent name := hident (name, type, offset) List.mem_cons_self
      have hcomma : peekHead name ≠ (44 : UInt8).toNat := by
        intro h
        have hstart := hname.start
        rw [h] at hstart
        exact absurd hstart (by decide)
      simp only [List.isEmpty_cons, Spacing.separator, Bool.false_eq_true, if_false] at hfuel ⊢
      refine ⟨[], _, rfl, blank_nil, (by decide : nkIsspace (peekHead [44]) = false),
        (by simp [Ends, peekHead] : Ends (peekHead [44])), fun ate left hate => ?_⟩
      obtain ⟨rfl, rfl⟩ := List.append_eq_nil_iff.mp hate.symm
      refine ⟨[44], s.next.1, close, rfl, s.next.2, hclose, id, ?_⟩
      simp only [layoutMembers, List.cons_append, List.length_cons, List.length_append] at hfuel
      obtain ⟨fuel, rfl⟩ : ∃ k, fuel = k + 1 := ⟨fuel - 1, by omega⟩
      have hloop : Takes (commaLoop fl (fuel + 1) (fuel + 1)) [44]
          ((s.next.1 ++ (s.before ind).1) ++ (name ++ (58 :: ((s.value type.isTable ind).1 ++
            (layout s fl charSigned mem type (s.member type.isTable ind) (location + offset) ++
              (s.separator members.isEmpty ++
                layoutMembers s fl charSigned mem members ind location)))) ++
            (close ++ 125 :: rest))) () := by
        refine takes_commaLoop_one (blank_append s.next.2 (s.before ind).2) ?_ ?_ ?_
        · rw [List.append_assoc, hname.head_append]
          exact hname.not_space
        · rw [List.append_assoc, hname.head_append]
          exact hcomma
        · rw [List.length_append]
          omega
      simpa only [layoutMembers, List.append_assoc, List.cons_append] using hloop

/-- The members of a structure behind whitespace, up to the closing brace. -/
theorem takes_structLoop {size size' : Nat} {members members' : List Member}
    (hwf : MembersWellFormed size' members') {ind : Int} {n location location' : Nat}
    (mem₀ : Memory) {ws close rest : List UInt8}
    (hready : ∀ m ∈ members, MemberReady s fl charSigned mem size members'
      (s.member m.2.1.isTable ind) location m)
    (hpairs : members.Pairwise fun m m' => m'.1 ≠ m.1 ∧ Apart m m') (hws : Blank ws)
    (hclose : Blank close)
    (hn : (ws ++ (layoutMembers s fl charSigned mem members ind location ++ close)).length < n)
    (hfuel : (ws ++ (layoutMembers s fl charSigned mem members ind location ++ close) ++
      125 :: rest).length < fuel) :
    ∃ mem₁, Takes (structLoop fl (nkFscanKeyval fl fuel) (skipValue fl fuel) fuel members'
          location' n true mem₀)
        (ws ++ (layoutMembers s fl charSigned mem members ind location ++ close)) (125 :: rest)
        (true, mem₁) ∧
      MembersMigrated mem mem₀ mem₁ members members' location location' := by
  induction members generalizing n mem₀ ws close with
  | nil =>
      obtain ⟨n, rfl⟩ : ∃ k, n = k + 1 := ⟨n - 1, by omega⟩
      simp only [layoutMembers, List.nil_append, List.length_append] at hfuel ⊢
      exact ⟨mem₀, takes_structLoop_end (blank_append hws hclose)
        (by rw [List.length_append]; omega) rest, .refl mem mem₀ members' location location'⟩
  | cons m members ih =>
      obtain ⟨n, rfl⟩ : ∃ k, n = k + 1 := ⟨n - 1, by omega⟩
      obtain ⟨name, type, offset⟩ := m
      obtain ⟨hfirst, hpairs'⟩ := List.pairwise_cons.mp hpairs
      obtain ⟨hm, hready'⟩ := List.forall_mem_cons.mp hready
      have hident : ∀ m ∈ (name, type, offset) :: members, IsIdent m.1 :=
        fun m hm => (hready m hm).ok.ident
      have hstarts := layout_head s fl charSigned mem hm.ok.type (s.member type.isTable ind)
        (location + offset)
      have hlength := layout_length s fl charSigned mem hm.ok.type (s.member type.isTable ind)
        (location + offset)
      generalize htext : layout s fl charSigned mem type (s.member type.isTable ind)
        (location + offset) = text at *
      simp only [layoutMembers, htext, List.append_assoc, List.cons_append, List.length_append,
        List.length_cons] at hn hfuel ⊢
      obtain ⟨gap, tail, hsplit, hgap, hspace, hends, hnext⟩ := members_tail s fl
        charSigned mem fuel (fun m hm => hident m (List.mem_cons_of_mem _ hm)) ind location
        hclose rest
        (by simp only [List.length_append]; omega)
      have hsplitLength := congrArg List.length hsplit
      simp only [List.length_append] at hsplitLength
      have hvalueFuel : (text ++ (gap ++ (tail ++ 125 :: rest))).length < fuel := by
        simp only [List.length_append, List.length_cons]
        omega
      have hfollows : ∀ type : Ty, Follows type gap (tail ++ 125 :: rest) :=
        fun _ => Or.inr ⟨hgap, hspace, ends_blank hgap hends⟩
      -- the member is read or skipped, and the loop goes on behind what is left
      have hgo : ∀ (mem₁ : Memory) (ate left : List UInt8), gap = ate ++ left →
          (match findMember members' name with
            | some m => Takes (nkFscanKeyval fl fuel m.2.1 (location' + m.2.2) mem₀) (text ++ ate)
                (left ++ (tail ++ 125 :: rest)) (true, mem₁)
            | none => mem₁ = mem₀ ∧
                Takes (skipValue fl fuel) (text ++ ate) (left ++ (tail ++ 125 :: rest)) true) →
          ∃ mem₂, Takes (structLoop fl (nkFscanKeyval fl fuel) (skipValue fl fuel) fuel members'
                location' (n + 1) true mem₀)
              (ws ++ ((s.before ind).1 ++ (name ++ 58 :: ((s.value type.isTable ind).1 ++
                (text ++ (gap ++ tail)))))) (125 :: rest) (true, mem₂) ∧
            MembersMigrated mem mem₁ mem₂ members members' location location' := by
        intro mem₁ ate left hate hvalue
        obtain ⟨comma, ws', close', hleft, hws', hclose', -, hcomma⟩ := hnext ate left hate
        have hateLength := congrArg List.length hate
        have hleftLength := congrArg List.length hleft
        simp only [List.length_append] at hateLength hleftLength
        obtain ⟨mem₂, hloop, hmigrated⟩ := @ih n mem₁ ws' close' hready' hpairs' hws' hclose'
          (by simp only [List.length_append]; omega)
          (by simp only [List.length_append, List.length_cons]; omega)
        have hbehind : left ++ (tail ++ 125 :: rest) = comma ++ ((ws' ++
            (layoutMembers s fl charSigned mem members ind location ++ close')) ++
              125 :: rest) := by
          rw [← List.append_assoc, hleft, List.append_assoc]
        refine ⟨mem₂, ?_, hmigrated⟩
        have htakes : Takes (structLoop fl (nkFscanKeyval fl fuel) (skipValue fl fuel) fuel members'
              location' (n + 1) true mem₀)
            ((ws ++ (s.before ind).1) ++ ((name ++ 58 :: (s.value type.isTable ind).1) ++
              ((text ++ ate) ++ (comma ++
                (ws' ++ (layoutMembers s fl charSigned mem members ind location ++ close'))))))
            (125 :: rest) (true, mem₂) := by
          refine takes_structLoop_member hm.ok.ident hm.ok.length
            (blank_append hws (s.before ind).2) (s.value type.isTable ind).2
            (by simp only [List.length_append]; omega)
            (by rw [List.append_assoc]; exact (hstarts _).facts.1) ?_ hcomma hloop
          rw [← hbehind]
          cases hfound : findMember members' name with
          | some m => simpa only [hfound, true_and] using hvalue
          | none => simpa only [hfound, true_and] using hvalue
        rw [hate, List.append_assoc ate, hleft]
        simpa only [List.append_assoc, List.cons_append] using htakes
      rw [hsplit]
      cases hfound : findMember members' name with
      | some m' =>
          obtain ⟨mem₁, ate, left, hate, -, hvalue, hmigrated, hsame⟩ := hm.reads m' hfound fuel
            (location' + m'.2.2) mem₀ gap (tail ++ 125 :: rest) (hfollows m'.2.1)
            (by rw [htext]; exact hvalueFuel)
          rw [htext] at hvalue
          obtain ⟨mem₂, htakes, hmembers⟩ := hgo mem₁ ate left hate (by rw [hfound]; exact hvalue)
          exact ⟨mem₂, htakes, hmembers.read hwf hident (fun m₂ hm₂ => (hfirst m₂ hm₂).1) hfound
            hmigrated hsame⟩
      | none =>
          have hskip := hm.skips hfound
          rw [htext] at hskip
          obtain ⟨ate, left, hate, -, hvalue⟩ := hskip fuel gap (tail ++ 125 :: rest)
            (hfollows type) hvalueFuel
          obtain ⟨mem₂, htakes, hmembers⟩ := hgo mem₀ ate left hate
            (by rw [hfound]; exact ⟨rfl, hvalue⟩)
          exact ⟨mem₂, htakes, hmembers.leave hfound⟩

end

end LibnklabsPico.Dbase
