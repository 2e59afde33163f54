/-
  Foundation/Blocks.lean --- a range of cells made up of aligned blocks.

  There are some kinds of blocks, each of a size, and a block of a kind starts at
  a multiple of its size.  `Laid` lays blocks one behind the other, each of a kind
  that is picked for the place and for what is left of the range.  When of any two
  sizes one divides the other, two aligned blocks are apart or one holds the
  other, and picking a largest kind takes the least number of blocks there is
  (`Laid.length_le`).
-/
import Mathlib.Data.Set.Lattice
import Mathlib.Order.CompletePartialOrder
import Mathlib.Order.Interval.Set.LinearOrder

set_option autoImplicit false

namespace LibnklabsPico.Foundation

variable {κ : Type} {size : κ → Nat} {kinds : List κ}

/-- The cells of a block: a start and a kind. -/
def cells (size : κ → Nat) (b : Nat × κ) : Set Nat := Set.Ico b.1 (b.1 + size b.2)

/-- All cells of some blocks. -/
def allCells (size : κ → Nat) (bs : List (Nat × κ)) : Set Nat :=
  {a | ∃ b ∈ bs, a ∈ cells size b}

/-- A block of one of the kinds, aligned to its own size. -/
def Aligned (size : κ → Nat) (kinds : List κ) (b : Nat × κ) : Prop :=
  b.2 ∈ kinds ∧ size b.2 ∣ b.1

theorem mem_cells {b : Nat × κ} {a : Nat} :
    a ∈ cells size b ↔ b.1 ≤ a ∧ a < b.1 + size b.2 := Iff.rfl

theorem allCells_nil : allCells size [] = ∅ := by
  simp [allCells]

theorem allCells_cons (b : Nat × κ) (bs : List (Nat × κ)) :
    allCells size (b :: bs) = cells size b ∪ allCells size bs := by
  ext a
  simp [allCells]

/-! ## Blocks one behind the other -/

/-- `Laid size pick start n bs left`: the blocks `bs` lie one behind the other from
`start` on, each picked for its start and for the number of cells then left of `n`;
behind them `left` cells are left. -/
inductive Laid (size : κ → Nat) (pick : Nat → Nat → κ → Prop) :
    Nat → Nat → List (Nat × κ) → Nat → Prop where
  | stop (start n : Nat) : Laid size pick start n [] n
  | lay {start n left : Nat} {k : κ} {bs : List (Nat × κ)} (picked : pick start n k)
      (room : size k ≤ n) (rest : Laid size pick (start + size k) (n - size k) bs left) :
      Laid size pick start n ((start, k) :: bs) left

namespace Laid

variable {pick : Nat → Nat → κ → Prop} {start n left : Nat} {bs : List (Nat × κ)}

theorem left_le (h : Laid size pick start n bs left) : left ≤ n := by
  induction h with
  | stop start n => exact Nat.le_refl n
  | lay _ _ _ ih => exact Nat.le_trans ih (Nat.sub_le ..)

/-- The blocks make up the range without what is left. -/
theorem allCells_eq (h : Laid size pick start n bs left) :
    allCells size bs = Set.Ico start (start + (n - left)) := by
  induction h with
  | stop start n => rw [allCells_nil, Nat.sub_self, Nat.add_zero, Set.Ico_self]
  | @lay start n left k bs picked room rest ih =>
      have hleft := rest.left_le
      have hend : start + size k + (n - size k - left) = start + (n - left) := by omega
      rw [allCells_cons, ih, cells, Set.Ico_union_Ico_eq_Ico (Nat.le_add_right ..)
        (Nat.le_add_right ..), hend]

/-- A rule of choice that is weaker. -/
theorem mono {pick' : Nat → Nat → κ → Prop} (h : Laid size pick start n bs left)
    (himp : ∀ start n k, pick start n k → pick' start n k) :
    Laid size pick' start n bs left := by
  induction h with
  | stop start n => exact .stop start n
  | lay picked room rest ih => exact .lay (himp _ _ _ picked) room ih

/-- Nothing lies in an empty range. -/
theorem eq_nil (h : Laid size pick start 0 bs left)
    (hpos : ∀ start n k, pick start n k → 0 < size k) : bs = [] := by
  cases h with
  | stop => rfl
  | lay picked room rest =>
      have hsize := hpos _ _ _ picked
      omega

theorem start_le (h : Laid size pick start n bs left) : ∀ b ∈ bs, start ≤ b.1 := by
  induction h with
  | stop start n => simp
  | lay picked room rest ih =>
      intro b hb
      rcases List.mem_cons.mp hb with rfl | hb
      · exact Nat.le_refl _
      · exact Nat.le_of_add_right_le (ih b hb)

/-- No two of the blocks share a cell. -/
theorem pairwise_disjoint (h : Laid size pick start n bs left) :
    bs.Pairwise fun b c => Disjoint (cells size b) (cells size c) := by
  induction h with
  | stop start n => exact List.Pairwise.nil
  | lay picked room rest ih =>
      refine List.Pairwise.cons ?_ ih
      intro c hc
      have hbehind := rest.start_le c hc
      rw [Set.disjoint_left]
      intro a ha hac
      rw [mem_cells] at ha hac
      dsimp only at ha
      omega

/-- Every block was picked. -/
theorem all_picked (h : Laid size pick start n bs left) :
    ∀ b ∈ bs, ∃ m, pick b.1 m b.2 := by
  induction h with
  | stop start n => simp
  | @lay start n left k bs picked room rest ih =>
      intro b hb
      rcases List.mem_cons.mp hb with rfl | hb
      · exact ⟨n, picked⟩
      · exact ih b hb

/-- A number that divides every size divides what the blocks take. -/
theorem dvd_taken {m : Nat} (h : Laid size pick start n bs left)
    (hsizes : ∀ start n k, pick start n k → m ∣ size k) : m ∣ n - left := by
  induction h with
  | stop start n => rw [Nat.sub_self]; exact Nat.dvd_zero m
  | @lay start n left k bs picked room rest ih =>
      have hsplit : n - left = size k + (n - size k - left) := by
        have hleft := rest.left_le
        omega
      rw [hsplit]
      exact Nat.dvd_add (hsizes start n k picked) ih

end Laid

/-! ## Largest blocks -/

/-- A largest kind that is aligned at the start and leaves nothing of the block
outside. -/
def Largest (size : κ → Nat) (kinds : List κ) (start n : Nat) (k : κ) : Prop :=
  (k ∈ kinds ∧ size k ∣ start ∧ size k ≤ n) ∧
    ∀ k' ∈ kinds, size k' ∣ start → size k' ≤ n → size k' ≤ size k

/-- Of two aligned blocks one of which starts in the other, the one does not go on
behind the other or it is larger and starts where the other does. -/
theorem inside_or_larger {a s b t : Nat} (ha : s ∣ a) (hb : t ∣ b) (hst : s ∣ t ∨ t ∣ s)
    (hle : a ≤ b) (hlt : b < a + s) : b + t ≤ a + s ∨ (b = a ∧ s < t) := by
  rcases hst with hst | hts
  · -- the start of the second block is a multiple of the first size as well
    have heq : b = a := by
      obtain ⟨q, hq⟩ := Nat.dvd_sub (Nat.dvd_trans hst hb) ha
      have hq0 : q = 0 := by
        by_contra hne
        have hmul : s * 1 ≤ s * q := Nat.mul_le_mul_left s (Nat.one_le_iff_ne_zero.mpr hne)
        omega
      rw [hq0, Nat.mul_zero] at hq
      omega
    by_cases hsize : s < t
    · exact Or.inr ⟨heq, hsize⟩
    · exact Or.inl (by omega)
  · -- the end of the first block is a multiple of the second size
    obtain ⟨q, hq⟩ := Nat.dvd_sub (Nat.dvd_add (Nat.dvd_trans hts ha) hts) hb
    have hq1 : 1 ≤ q := by
      by_contra hne
      rw [show q = 0 by omega, Nat.mul_zero] at hq
      omega
    have hmul : t * 1 ≤ t * q := Nat.mul_le_mul_left t hq1
    exact Or.inl (by omega)

section
variable {start n left : Nat} {bs cover : List (Nat × κ)}

/-- In a cover of a range by aligned blocks, the block over the first cell starts
there and is not larger than the largest. -/
theorem first_block {k : κ} (hpos : ∀ k ∈ kinds, 0 < size k)
    (hk : Largest size kinds start n k) (haligned : ∀ b ∈ cover, Aligned size kinds b)
    (hcells : allCells size cover = Set.Ico start (start + n)) (hn : n ≠ 0) :
    ∃ b ∈ cover, b.1 = start ∧ size b.2 ≤ size k := by
  have hfirst : start ∈ allCells size cover := by
    rw [hcells, Set.mem_Ico]
    omega
  obtain ⟨b, hb, hin⟩ := hfirst
  obtain ⟨hkind, hdvd⟩ := haligned b hb
  have hsize := hpos b.2 hkind
  have hends : ∀ a ∈ cells size b, start ≤ a ∧ a < start + n := by
    intro a ha
    have hmem : a ∈ allCells size cover := ⟨b, hb, ha⟩
    rwa [hcells] at hmem
  rw [mem_cells] at hin
  have hlow := hends b.1 (mem_cells.mpr (by omega))
  have hhigh := hends (b.1 + size b.2 - 1) (mem_cells.mpr (by omega))
  have hstart : b.1 = start := by omega
  refine ⟨b, hb, hstart, hk.2 b.2 hkind ?_ ?_⟩
  · exact hstart ▸ hdvd
  · omega

/-- The blocks of a cover that start behind the first largest block cover the rest
of the range. -/
theorem rest_cover {k : κ} (hpos : ∀ k ∈ kinds, 0 < size k)
    (hchain : ∀ k ∈ kinds, ∀ k' ∈ kinds, size k ∣ size k' ∨ size k' ∣ size k)
    (hk : Largest size kinds start n k) (haligned : ∀ b ∈ cover, Aligned size kinds b)
    (hcells : allCells size cover = Set.Ico start (start + n)) :
    allCells size (cover.filter fun b => start + size k ≤ b.1) =
      Set.Ico (start + size k) (start + size k + (n - size k)) := by
  obtain ⟨⟨hkind, hdvd, hroom⟩, hlargest⟩ := hk
  have hend : start + size k + (n - size k) = start + n := by omega
  rw [hend]
  ext a
  constructor
  · rintro ⟨b, hb, ha⟩
    obtain ⟨hb, hbehind⟩ := List.mem_filter.mp hb
    have hbehind : start + size k ≤ b.1 := of_decide_eq_true hbehind
    have hmem : a ∈ allCells size cover := ⟨b, hb, ha⟩
    rw [hcells, Set.mem_Ico] at hmem
    rw [mem_cells] at ha
    exact ⟨by omega, hmem.2⟩
  · rintro ⟨hlow, hhigh⟩
    have hmem : a ∈ allCells size cover := by
      rw [hcells, Set.mem_Ico]
      omega
    obtain ⟨b, hb, ha⟩ := hmem
    refine ⟨b, List.mem_filter.mpr ⟨hb, decide_eq_true ?_⟩, ha⟩
    by_contra hbefore
    obtain ⟨hkind', hdvd'⟩ := haligned b hb
    have hsize := hpos b.2 hkind'
    have hends : ∀ c ∈ cells size b, start ≤ c ∧ c < start + n := by
      intro c hc
      have hmem : c ∈ allCells size cover := ⟨b, hb, hc⟩
      rwa [hcells] at hmem
    have hfirst := hends b.1 (mem_cells.mpr (by omega))
    have hlast := hends (b.1 + size b.2 - 1) (mem_cells.mpr (by omega))
    rw [mem_cells] at ha
    rcases inside_or_larger hdvd hdvd' (hchain k hkind b.2 hkind') hfirst.1 (by omega) with
      hinside | ⟨hstart, hlarger⟩
    · omega
    · have hle := hlargest b.2 hkind' (hstart ▸ hdvd') (by omega)
      omega

/-- No cover of the range by aligned blocks has fewer blocks. -/
theorem Laid.length_le (hpos : ∀ k ∈ kinds, 0 < size k)
    (hchain : ∀ k ∈ kinds, ∀ k' ∈ kinds, size k ∣ size k' ∨ size k' ∣ size k)
    (h : Laid size (Largest size kinds) start n bs 0)
    (haligned : ∀ b ∈ cover, Aligned size kinds b)
    (hcells : allCells size cover = Set.Ico start (start + n)) :
    bs.length ≤ cover.length := by
  generalize hleft : 0 = left at h
  induction h generalizing cover with
  | stop start n => exact Nat.zero_le _
  | @lay start n left k bs picked room rest ih =>
      have hsize := hpos k picked.1.1
      obtain ⟨b, hb, hstart, -⟩ := first_block hpos picked haligned hcells (by omega)
      have halignedRest : ∀ b ∈ cover.filter fun b => start + size k ≤ b.1,
          Aligned size kinds b := fun b hb => haligned b (List.mem_filter.mp hb).1
      have hrest := ih halignedRest (rest_cover hpos hchain picked haligned hcells) hleft
      have hless : (cover.filter fun b => start + size k ≤ b.1).length < cover.length := by
        refine List.length_filter_lt_length_iff_exists.mpr ⟨b, hb, ?_⟩
        simp only [decide_eq_true_eq]
        omega
      rw [List.length_cons]
      omega

end

/-! ## When nothing is left -/

section
variable {pick : Nat → Nat → κ → Prop} {start n left : Nat} {bs : List (Nat × κ)} {m : κ}

/-- Blocks that go on until nothing is left or no kind fits leave nothing of a range
that is a multiple of a least kind. -/
theorem Laid.left_eq_zero (h : Laid size pick start n bs left) (hm : m ∈ kinds)
    (hpicked : ∀ start n k, pick start n k → k ∈ kinds) (hleast : ∀ k ∈ kinds, size m ∣ size k)
    (hstart : size m ∣ start) (hn : size m ∣ n)
    (hstuck : left ≠ 0 → ∀ k ∈ kinds, ¬ (size k ∣ start + (n - left) ∧ size k ≤ left)) :
    left = 0 := by
  have htaken := h.dvd_taken fun start n k hk => hleast k (hpicked start n k hk)
  have hleft : size m ∣ left := by
    have hle := h.left_le
    have hsplit : n - (n - left) = left := by omega
    exact hsplit ▸ Nat.dvd_sub hn htaken
  by_contra hne
  exact hstuck hne m hm ⟨Nat.dvd_add hstart htaken,
    Nat.le_of_dvd (Nat.pos_of_ne_zero hne) hleft⟩

/-- Aligned blocks that leave nothing make up a multiple of a least kind. -/
theorem Laid.dvd_of_left (h : Laid size pick start n bs 0)
    (hpicked : ∀ start n k, pick start n k → size m ∣ size k ∧ size k ∣ start) (hn : n ≠ 0) :
    size m ∣ start ∧ size m ∣ n := by
  have htaken := h.dvd_taken fun start n k hk => (hpicked start n k hk).1
  refine ⟨?_, htaken⟩
  generalize hleft : 0 = left at h
  cases h with
  | stop start n => exact absurd hleft.symm hn
  | lay picked room rest => exact Nat.dvd_trans (hpicked _ _ _ picked).1 (hpicked _ _ _ picked).2

end

end LibnklabsPico.Foundation
