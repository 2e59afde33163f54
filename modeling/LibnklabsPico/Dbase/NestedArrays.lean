/-
  Dbase/NestedArrays.lean --- arrays whose items have their length in front of them.

  The size of a variable array or a table does not count its length, and the traversals of
  an array take the size of an item for the distance to the next one.  A traversal uses an
  item at an address when its result depends on what is done there.
-/
import LibnklabsPico.Dbase.Xpath
import LibnklabsPico.Dbase.Reading

set_option autoImplicit false

namespace LibnklabsPico.Dbase

open LibnklabsPico.Foundation
open LibnklabsPico.File
open LibnklabsPico.Text

/-! ## The items a traversal uses -/

/-- What `nk_dbase_serialize` puts for `count` items depends on the one at `a`. -/
def SerializerUses (fl : Floats) (itemSize count base a : Nat) : Prop :=
  ∃ item item' : Nat → List UInt8, (∀ b, b ≠ a → item b = item' b) ∧
    serializeItems fl item itemSize count base ≠ serializeItems fl item' itemSize count base

/-- For some input, what `nk_fscan_keyval` does with an array of `size` bytes depends on the
parser for the item at `a`. -/
def ParserUses (size itemSize base a : Nat) : Prop :=
  ∃ value value' : ValueScan, (∀ b, b ≠ a → value b = value' b) ∧
    ∃ (skip : FileProg Bool) (fuel : Nat) (mem : Memory) (c : Cursor),
      (arrayLoop value skip fuel base size itemSize fuel 0 true mem).run plainFile c ≠
        (arrayLoop value' skip fuel base size itemSize fuel 0 true mem).run plainFile c

/-- An item that one of the three traversals uses. -/
inductive UsedAt (fl : Floats) (type subtype : Ty) (offset location a : Nat) : Prop where
  | serialize {mem : Memory} (ok : ValueOk mem type location)
      (uses : SerializerUses fl subtype.size (type.itemCount mem location) (location + offset) a)
  | parse (uses : ParserUses type.size subtype.size (location + offset) a)
  | xpath {mem : Memory} {idx : Nat} (ok : ValueOk mem type location)
      (found : xpathIndex mem type location idx = some (subtype, a))

/-- The items that are used have memory of their own within that of the array, and parsing
what was serialized restores every value. -/
structure ElementsApart (fl : Floats) (charSigned : Bool) (type subtype : Ty) (offset : Nat) :
    Prop where
  /-- the number of items is a quotient by their size -/
  positive : 0 < subtype.size
  within : ∀ location a, UsedAt fl type subtype offset location a →
    location ≤ a ∧ a + subtype.extent ≤ location + type.extent
  apart : ∀ location a b, UsedAt fl type subtype offset location a →
    UsedAt fl type subtype offset location b → a ≠ b →
    a + subtype.extent ≤ b ∨ b + subtype.extent ≤ a
  restores : type.check.Accepts → ∀ (mem mem₀ : Memory) (location location' fuel : Nat)
    (rest : List UInt8), ValueOk mem type location →
    (nkDbaseSerialize fl charSigned mem type location ++ rest).length < fuel →
    ∃ mem₁, Takes (nkFscanKeyval fl fuel type location' mem₀)
        (nkDbaseSerialize fl charSigned mem type location) rest (true, mem₁) ∧
      Restored mem mem₁ type location location'

/-! ## The parser uses every item that starts within the array -/

section

variable {value : ValueScan} {skip : FileProg Bool} {fuel base size itemSize n j : Nat}
  {mem : Memory} {rest : List UInt8} {result : Bool × Nat × Memory}

/-- An item of which nothing is read. -/
theorem takes_arrayLoop_nothing {idx : Nat} {rtn : Bool} (hrest : Starts (peekHead rest))
    (hidx : idx < size) (hvalue : value (base + idx) = fun mem => pure (true, mem))
    (h : Takes (arrayLoop value skip fuel base size itemSize n (idx + itemSize) true mem) [] rest
      result) :
    Takes (arrayLoop value skip fuel base size itemSize (n + 1) idx rtn mem) [] rest result := by
  have hitem : Takes (value (base + idx) mem) [] ([] ++ rest) (true, mem) := by
    rw [hvalue]
    exact Takes.pure _ _
  have hloop : Takes (arrayLoop value skip fuel base size itemSize (n + 1) idx rtn mem)
      ([] ++ ([] ++ [])) rest result :=
    takes_arrayLoop_item blank_nil (Nat.zero_le _) hrest hidx hitem h
  exact hloop

/-- An item that is not accepted. -/
theorem takes_arrayLoop_refused {idx : Nat} {rtn : Bool} (hrest : Starts (peekHead rest))
    (hidx : idx < size) (hvalue : value (base + idx) = fun mem => pure (false, mem)) :
    Takes (arrayLoop value skip fuel base size itemSize (n + 1) idx rtn mem) [] rest
      (false, idx, mem) := by
  obtain ⟨hspace, hend, hclose, hcomma, -⟩ := hrest.facts
  have hblank : Takes (nkFscanWs fuel) [] ([] ++ rest) () :=
    takes_ws blank_nil hspace (Nat.zero_le _)
  rw [arrayLoop]
  refine Takes.look hblank (Takes.look (Takes.peek _) ?_)
  rw [List.nil_append, if_pos ⟨hend, hclose⟩, if_neg hcomma, if_pos hidx, hvalue]
  exact Takes.pure _ _

/-- Items of which nothing is read, up to the `k`th one. -/
theorem takes_arrayLoop_pass (k : Nat) (hrest : Starts (peekHead rest))
    (hsize : ∀ i < j + k, i * itemSize < size)
    (hvalue : ∀ i < j + k, value (base + i * itemSize) = fun mem => pure (true, mem))
    (h : Takes (arrayLoop value skip fuel base size itemSize n ((j + k) * itemSize) true mem) []
      rest result) :
    Takes (arrayLoop value skip fuel base size itemSize (n + k) (j * itemSize) true mem) [] rest
      result := by
  induction k generalizing j with
  | zero => exact h
  | succ k ih =>
      refine takes_arrayLoop_nothing hrest (hsize j (by omega)) (hvalue j (by omega)) ?_
      have hsucc : j * itemSize + itemSize = (j + 1) * itemSize := by
        rw [Nat.add_mul, Nat.one_mul]
      rw [hsucc]
      refine ih (fun i hi => hsize i (by omega)) (fun i hi => hvalue i (by omega)) ?_
      rwa [show j + 1 + k = j + (k + 1) by omega]

end

/-- The item number `i` is used if it starts within the array. -/
theorem parserUses_item {size itemSize i : Nat} (hpos : 0 < itemSize) (hi : i * itemSize < size)
    (base : Nat) : ParserUses size itemSize base (base + i * itemSize) := by
  let value : ValueScan := fun _ mem => pure (true, mem)
  let value' : ValueScan := fun b mem => pure (b != base + i * itemSize, mem)
  have hrest : Starts (peekHead [48]) := by
    simp [Starts, peekHead, isDigit, ch]
  have hbefore : ∀ k < i, k * itemSize < i * itemSize := fun k hk =>
    Nat.mul_lt_mul_of_pos_right hk hpos
  have hsize : ∀ k < 0 + i, k * itemSize < size := fun k hk => by
    have hlt := hbefore k (by omega)
    omega
  have hother : ∀ b, b ≠ base + i * itemSize → value b = value' b := by
    intro b hb
    funext mem
    exact congrArg (fun r => (pure (r, mem) : FileProg (Bool × Memory))) (bne_iff_ne.mpr hb).symm
  have hsame : value' (base + i * itemSize) = fun mem => pure (false, mem) := by
    funext mem
    exact congrArg (fun r => (pure (r, mem) : FileProg (Bool × Memory))) (bne_self_eq_false' _)
  refine ⟨value, value', hother, pure true, 1 + i, fun _ => 0, Cursor.at [] [48], ?_⟩
  have haccepted : Takes (arrayLoop value (pure true) (1 + i) base size itemSize (1 + i)
      (0 * itemSize) true fun _ => 0) [] [48] (true, i * itemSize + itemSize, fun _ => 0) := by
    refine takes_arrayLoop_pass i hrest hsize (fun _ _ => rfl) ?_
    rw [Nat.zero_add]
    exact takes_arrayLoop_nothing hrest hi rfl (Takes.pure _ _)
  have hrefused : Takes (arrayLoop value' (pure true) (1 + i) base size itemSize (1 + i)
      (0 * itemSize) true fun _ => 0) [] [48] (false, i * itemSize, fun _ => 0) := by
    refine takes_arrayLoop_pass i hrest hsize (fun k hk => ?_) ?_
    · have hlt := hbefore k (by omega)
      exact (hother _ (by omega)).symm
    · rw [Nat.zero_add]
      exact takes_arrayLoop_refused hrest hi hsame
  intro hruns
  rw [Nat.zero_mul] at haccepted hrefused
  have heq := (haccepted []).symm.trans (hruns.trans (hrefused []))
  have hstatus := congrArg (Option.map fun r => r.1.1) heq
  cases hstatus

/-! ## Arrays without items -/

section

variable {fl : Floats} {charSigned : Bool} {type subtype : Ty} {offset : Nat}

/-- In an array of no bytes nothing is used. -/
theorem not_parserUses {itemSize base a : Nat} : ¬ ParserUses 0 itemSize base a := by
  rintro ⟨value, value', -, skip, fuel, mem, c, hne⟩
  have hsame : ∀ n idx rtn mem, arrayLoop value skip fuel base 0 itemSize n idx rtn mem =
      arrayLoop value' skip fuel base 0 itemSize n idx rtn mem := by
    intro n
    induction n with
    | zero => exact fun _ _ _ => rfl
    | succ n ih =>
        intro idx rtn mem
        simp only [arrayLoop, Nat.not_lt_zero, if_false, ih]
  exact hne (by rw [hsame])

/-- Without items nothing is serialized. -/
theorem itemCount_zero {mem : Memory} {location : Nat}
    (hitems : type.items = some (offset, subtype))
    (hcounted : subtype.counted = true) (hzero : type.size = 0) (ok : ValueOk mem type location) :
    type.itemCount mem location = 0 := by
  cases type with
  | tBool | tInteger | tDouble | tFloat | tString | tStruct => cases hitems
  | tTable => cases hitems; cases hcounted
  | tArray size subtype' check =>
      obtain rfl : size = 0 := hzero
      exact Nat.zero_div _
  | tVarray size subtype' check =>
      obtain rfl : size = 0 := hzero
      simp only [ValueOk, Nat.zero_div] at ok
      exact Nat.le_zero.mp ok.1

theorem not_usedAt {location a : Nat} (hitems : type.items = some (offset, subtype))
    (hcounted : subtype.counted = true) (hzero : type.size = 0) :
    ¬ UsedAt fl type subtype offset location a := by
  intro h
  cases h with
  | serialize ok uses =>
      rw [itemCount_zero hitems hcounted hzero ok] at uses
      obtain ⟨item, item', -, hne⟩ := uses
      exact hne rfl
  | parse uses =>
      rw [hzero] at uses
      exact not_parserUses uses
  | xpath ok found =>
      cases leads_index_iff.mpr found with
      | item items live =>
          rw [itemCount_zero hitems hcounted hzero ok] at live
          exact absurd live (Nat.not_lt_zero _)

/-- The text of an array without items. -/
theorem nkDbaseSerialize_empty {mem : Memory} {location : Nat}
    (hitems : type.items = some (offset, subtype)) (hcounted : subtype.counted = true)
    (hzero : type.size = 0) (ok : ValueOk mem type location) :
    nkDbaseSerialize fl charSigned mem type location = [91, 93] := by
  have hcount := itemCount_zero hitems hcounted hzero ok
  cases type with
  | tBool | tInteger | tDouble | tFloat | tString | tStruct => cases hitems
  | tTable => cases hitems; cases hcounted
  | tArray size subtype' check =>
      have hnone : size / subtype'.size = 0 := hcount
      rw [nkDbaseSerialize, hnone, serializeItems]
      rfl
  | tVarray size subtype' check =>
      have hnone : getLen mem location = 0 := hcount
      rw [nkDbaseSerialize, hnone, serializeItems]
      rfl

/-- It is read back. -/
theorem takes_empty {mem mem₀ : Memory} {location location' fuel : Nat} {rest : List UInt8}
    (hitems : type.items = some (offset, subtype)) (hcounted : subtype.counted = true)
    (hzero : type.size = 0) (hcheck : type.check.Accepts) (ok : ValueOk mem type location)
    (hfuel : 2 < fuel) :
    ∃ mem₁, Takes (nkFscanKeyval fl fuel type location' mem₀) [91, 93] rest (true, mem₁) ∧
      Restored mem mem₁ type location location' := by
  obtain ⟨n, rfl⟩ : ∃ n, fuel = n + 1 + 1 := ⟨fuel - 2, by omega⟩
  have hcount := itemCount_zero hitems hcounted hzero ok
  have hloop : ∀ (value : ValueScan) (skip : FileProg Bool) (base size itemSize : Nat),
      Takes (arrayLoop value skip (n + 1) base size itemSize (n + 1) 0 true mem₀) []
        (93 :: rest) (true, 0, mem₀) := fun _ _ _ _ _ =>
    takes_arrayLoop_end blank_nil (Nat.zero_le _) rest
  cases type with
  | tBool | tInteger | tDouble | tFloat | tString | tStruct => cases hitems
  | tTable => cases hitems; cases hcounted
  | tArray size subtype' check =>
      have hnone : size / subtype'.size = 0 := hcount
      refine ⟨mem₀, takes_keyval hcheck (Takes.bind (Takes.nextFast 91 _) ?_), ?_⟩
      · exact Takes.look (hloop _ _ _ _ _) (Takes.finish (takes_closing 93 true _) (Takes.pure _ _))
      · simp only [Restored, hnone]
        exact fun i hi => absurd hi (Nat.not_lt_zero i)
  | tVarray size subtype' check =>
      have hnone : getLen mem location = 0 := hcount
      refine ⟨setLen mem₀ location' (0 / subtype'.size),
        takes_keyval hcheck (Takes.bind (Takes.nextFast 91 _) ?_), ?_⟩
      · exact Takes.look (hloop _ _ _ _ _) (Takes.finish (takes_closing 93 true _) (Takes.pure _ _))
      · simp only [Restored, hnone, Nat.zero_div]
        exact ⟨getLen_setLen mem₀ location' 0, fun i hi => absurd hi (Nat.not_lt_zero i)⟩

/-- The items of an array are kept apart exactly if it has none. -/
theorem elementsApart_iff (fl : Floats) (charSigned : Bool)
    (hitems : type.items = some (offset, subtype)) (hcounted : subtype.counted = true) :
    ElementsApart fl charSigned type subtype offset ↔ type.size = 0 ∧ 0 < subtype.size := by
  have hextent : subtype.extent = lenSize + subtype.size := by
    cases subtype with
    | tVarray | tTable => rfl
    | tBool | tInteger | tDouble | tFloat | tString | tStruct | tArray => cases hcounted
  have harray : offset + type.size = type.extent := by
    cases type with
    | tBool | tInteger | tDouble | tFloat | tString | tStruct => cases hitems
    | tTable => cases hitems; cases hcounted
    | tArray => cases hitems; exact Nat.zero_add _
    | tVarray => cases hitems; rfl
  constructor
  · intro h
    have hpos := h.positive
    refine ⟨?_, hpos⟩
    by_contra hsize
    -- the first item is within the array, so there is a second one, in the first one's memory
    have hfirst : UsedAt fl type subtype offset 0 (0 + offset + 0 * subtype.size) :=
      .parse (parserUses_item hpos (by omega) (0 + offset))
    have hwithin := h.within 0 _ hfirst
    have hlen : 0 < lenSize := by decide
    rw [hextent] at hwithin
    have hsecond : UsedAt fl type subtype offset 0 (0 + offset + 1 * subtype.size) :=
      .parse (parserUses_item hpos (by omega) (0 + offset))
    have hapart := h.apart 0 _ _ hfirst hsecond (by omega)
    rw [hextent] at hapart
    omega
  · rintro ⟨hzero, hpos⟩
    refine ⟨hpos, fun location a h => ?_, fun location a b h => ?_, ?_⟩
    · exact absurd h (not_usedAt hitems hcounted hzero)
    · exact absurd h (not_usedAt hitems hcounted hzero)
    · intro hcheck mem mem₀ location location' fuel rest ok hfuel
      rw [nkDbaseSerialize_empty hitems hcounted hzero ok] at hfuel ⊢
      refine takes_empty hitems hcounted hzero hcheck ok ?_
      simp only [List.length_append, List.length_cons, List.length_nil] at hfuel
      omega

/-- An array of no bytes. -/
theorem elementsApart_iff_empty :
    ElementsApart .absent true (.tVarray 0 (.tVarray 8 (.tInteger .tUint 4 none) none) none)
      (.tVarray 8 (.tInteger .tUint 4 none) none) lenSize :=
  (elementsApart_iff .absent true rfl rfl).mpr ⟨rfl, by decide⟩

/-- Of two variable arrays with space for two numbers each, the length of the second is where
the first has its first number. -/
theorem not_elementsApart :
    ¬ ElementsApart .absent true (.tVarray 32 (.tVarray 8 (.tInteger .tUint 4 none) none) none)
      (.tVarray 8 (.tInteger .tUint 4 none) none) lenSize := by
  intro h
  have hused : ∀ i < 2, UsedAt .absent
      (.tVarray 32 (.tVarray 8 (.tInteger .tUint 4 none) none) none)
      (.tVarray 8 (.tInteger .tUint 4 none) none) lenSize 0 (0 + lenSize + i * 8) :=
    fun i hi => .parse (parserUses_item (by decide) (by simp only [Ty.size]; omega) (0 + lenSize))
  have hapart := h.apart 0 _ _ (hused 0 (by decide)) (hused 1 (by decide)) (by decide)
  simp only [Ty.extent_tVarray, lenSize] at hapart
  omega

-- the number that was read is not the one that is serialized
example :
    let type : Ty := .tVarray 32 (.tVarray 8 (.tInteger .tUint 4 none) none) none
    ((nkFscanKeyval .absent 12 type 0 fun _ => 0).run plainFile
        (Cursor.at [] (ascii "[[5], [7]]"))).map
      (fun r => nkDbaseSerialize .absent true r.1.2 type 0) = some (ascii "[[1], [7]]") := by
  decide +kernel

end

end LibnklabsPico.Dbase
