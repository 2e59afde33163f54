/-
  Serial/Erasing.lean --- the blocks that `nk_spiflash_erase` erases.

  The loop takes the first erase option that fits at its address.  On any device
  whose transfers succeed, its run is a fold of `Bus.erasing` over blocks laid one
  behind the other (`nkSpiflashEraseLoop_run`).  In a table sorted from the
  largest size down the first option that fits is a largest one, so the blocks
  are as few as they can be.
-/
import LibnklabsPico.Foundation.Blocks
import LibnklabsPico.Serial.Nkspiflash

set_option autoImplicit false

namespace LibnklabsPico.Serial

open LibnklabsPico.Foundation LibnklabsPico.Flash

variable {info : NkSpiflashInfo} {address count : Nat} {option : EraseOption}

/-! ## The choice of an option -/

/-- The sizes of the erase options are powers of two. -/
def NkSpiflashInfo.SizesPow (info : NkSpiflashInfo) : Prop :=
  ∀ option ∈ info.eraseOptions, ∃ k < 32, option.eraseSize = 2 ^ k

/-- The table of erase options is sorted with largest size first. -/
def NkSpiflashInfo.Sorted (info : NkSpiflashInfo) : Prop :=
  info.eraseOptions.Pairwise fun option option' => option'.eraseSize ≤ option.eraseSize

/-- The option that a pass takes. -/
def NkSpiflashInfo.Picks (info : NkSpiflashInfo) (address count : Nat) (option : EraseOption) :
    Prop :=
  info.eraseOptions.find? (fun option => option.matches address count) = some option

theorem EraseOption.matches_iff (hpow : ∃ k < 32, option.eraseSize = 2 ^ k) :
    option.matches address count = true ↔
      option.eraseSize ∣ address ∧ option.eraseSize ≤ count := by
  obtain ⟨k, hk, hsize⟩ := hpow
  rw [EraseOption.matches, hsize, and_mask hk, Bool.and_eq_true, beq_iff_eq, decide_eq_true_eq,
    Nat.dvd_iff_mod_eq_zero]

section
variable (hsizes : info.SizesPow)
include hsizes

theorem NkSpiflashInfo.SizesPow.pos (hmem : option ∈ info.eraseOptions) :
    0 < option.eraseSize := by
  obtain ⟨k, -, hsize⟩ := hsizes option hmem
  exact hsize ▸ Nat.two_pow_pos k

/-- Of two sizes the smaller one divides the other. -/
theorem NkSpiflashInfo.SizesPow.dvd {option' : EraseOption} (hmem : option ∈ info.eraseOptions)
    (hmem' : option' ∈ info.eraseOptions) (hle : option.eraseSize ≤ option'.eraseSize) :
    option.eraseSize ∣ option'.eraseSize := by
  obtain ⟨k, -, hsize⟩ := hsizes option hmem
  obtain ⟨k', -, hsize'⟩ := hsizes option' hmem'
  rw [hsize, hsize'] at hle ⊢
  exact Nat.pow_dvd_pow 2 ((Nat.pow_le_pow_iff_right (by decide)).mp hle)

theorem NkSpiflashInfo.Picks.fits (h : info.Picks address count option) :
    option ∈ info.eraseOptions ∧ option.eraseSize ∣ address ∧ option.eraseSize ≤ count := by
  have hmem := List.mem_of_find?_eq_some h
  have hmatch := List.find?_some h
  exact ⟨hmem, (EraseOption.matches_iff (hsizes option hmem)).mp hmatch⟩

/-- The first option that fits in a sorted table is a largest one. -/
theorem NkSpiflashInfo.Picks.largest (hsorted : info.Sorted)
    (h : info.Picks address count option) :
    Largest EraseOption.eraseSize info.eraseOptions address count option := by
  refine ⟨h.fits hsizes, ?_⟩
  intro option' hmem hdvd hroom
  have hmatch := (EraseOption.matches_iff (hsizes option' hmem)).mpr ⟨hdvd, hroom⟩
  obtain ⟨-, before, behind, hsplit, hbefore⟩ := List.find?_eq_some_iff_append.mp h
  rw [NkSpiflashInfo.Sorted, hsplit] at hsorted
  rw [hsplit] at hmem
  have hlater := (List.pairwise_append.mp hsorted).2.1
  rcases List.mem_append.mp hmem with hmem | hmem
  · have hnone := hbefore option' hmem
    rw [hmatch] at hnone
    cases hnone
  · rcases List.mem_cons.mp hmem with rfl | hmem
    · exact Nat.le_refl _
    · exact (List.pairwise_cons.mp hlater).1 option' hmem

/-- When no option is taken none fits. -/
theorem no_fit (h : info.eraseOptions.find? (fun option => option.matches address count) = none) :
    ∀ option ∈ info.eraseOptions, ¬ (option.eraseSize ∣ address ∧ option.eraseSize ≤ count) := by
  intro option hmem hfits
  exact List.find?_eq_none.mp h option hmem
    ((EraseOption.matches_iff (hsizes option hmem)).mpr hfits)

end

/-! ## The run of the loop -/

/-- What is sent to erase a block. -/
def eraseTransfers (addrSize : Nat) (block : Nat × EraseOption) : List (List UInt8) :=
  [[nkFlashCmdWriteEnable], block.2.eraseCmd :: bigEndian addrSize block.1]

section
variable {σ : Type} (d : SerialDevice σ)

/-- The bus after some bytes were sent. -/
def Bus.sentTo (bytes : List UInt8) (s : Bus σ) : Bus σ :=
  s.sent bytes (d.transfer bytes s.device).1.2 (d.transfer bytes s.device).2

/-- The bus after a block was erased. -/
def Bus.erasing (addrSize : Nat) (s : Bus σ) (block : Nat × EraseOption) : Bus σ :=
  (s.sentTo d [nkFlashCmdWriteEnable]).sentTo d (block.2.eraseCmd :: bigEndian addrSize block.1)

/-- The log after blocks were erased. -/
theorem erasing_log (addrSize : Nat) (blocks : List (Nat × EraseOption)) (s : Bus σ) :
    (blocks.foldl (Bus.erasing d addrSize) s).log =
      s.log ++ blocks.flatMap (eraseTransfers addrSize) := by
  induction blocks generalizing s with
  | nil => simp
  | cons block blocks ih =>
      have hone : (s.erasing d addrSize block).log = s.log ++ eraseTransfers addrSize block := by
        simp [Bus.erasing, Bus.sentTo, Bus.sent, eraseTransfers]
      rw [List.foldl_cons, ih, hone, List.flatMap_cons, List.append_assoc]

theorem erasing_size (addrSize : Nat) (blocks : List (Nat × EraseOption)) (s : Bus σ) :
    (blocks.foldl (Bus.erasing d addrSize) s).size = s.size := by
  induction blocks generalizing s with
  | nil => rfl
  | cons block blocks ih => exact ih (s.erasing d addrSize block)

variable {d} (hd : ∀ bytes dev, (d.transfer bytes dev).1.1 = 0)
include hd

/-- One pass of the loop erases the block of the option it takes. -/
theorem nkSpiflashEraseLoop_pass (fuel : Nat) {s : Bus σ} (hsize : 1 + info.addrSize ≤ s.size)
    (hcount : count ≠ 0) (hpick : info.Picks address count option) :
    (nkSpiflashEraseLoop info (fuel + 1) address count 0).run (serialBus d) s =
      (nkSpiflashEraseLoop info fuel (u32 (address + option.eraseSize))
        (count - option.eraseSize) 0).run (serialBus d)
        (s.erasing d info.addrSize (address, option)) := by
  have hstatus : ∀ bytes dev, d.transfer bytes dev =
      ((0, (d.transfer bytes dev).1.2), (d.transfer bytes dev).2) := by
    intro bytes dev
    rw [← hd bytes dev]
  have hone : [nkFlashCmdWriteEnable].length = 1 := rfl
  have henable : nkSpiflashWriteEnable.run (serialBus d) s =
      some (0, s.sentTo d [nkFlashCmdWriteEnable]) := by
    have hsend := run_transfer_put (f := pure) hone (Nat.le_of_add_right_le hsize)
      (hstatus [nkFlashCmdWriteEnable] s.device)
    rw [bind_pure, Prog.run_pure] at hsend
    rw [nkSpiflashWriteEnable,
      Prog.run_bind_of (run_put (by exact Nat.le_of_add_right_le hsize)), hsend]
    rfl
  rw [nkSpiflashEraseLoop, if_neg hcount, hpick]
  dsimp only
  rw [Prog.run_bind_of henable,
    run_command_nil (s := s.sentTo d [nkFlashCmdWriteEnable]) _ _ _ hsize (hstatus _ _),
    if_neg (by decide)]
  rfl

/-- The loop erases blocks one behind the other until nothing is left or no option
fits. -/
theorem nkSpiflashEraseLoop_run (hsizes : info.SizesPow) {fuel : Nat} {s : Bus σ}
    (hsize : 1 + info.addrSize ≤ s.size) (hfuel : count < fuel)
    (hrange : address + count ≤ 2 ^ 32) :
    ∃ blocks left, Laid EraseOption.eraseSize info.Picks address count blocks left ∧
      (left ≠ 0 → ∀ option ∈ info.eraseOptions,
        ¬ (option.eraseSize ∣ address + (count - left) ∧ option.eraseSize ≤ left)) ∧
      (nkSpiflashEraseLoop info fuel address count 0).run (serialBus d) s =
        some (if left = 0 then 0 else -1,
          blocks.foldl (Bus.erasing d info.addrSize) s) := by
  induction fuel generalizing address count s with
  | zero => exact absurd hfuel (Nat.not_lt_zero _)
  | succ fuel ih =>
      by_cases hcount : count = 0
      · refine ⟨[], count, .stop address count, fun hleft => absurd hcount hleft, ?_⟩
        rw [nkSpiflashEraseLoop, if_pos hcount, if_pos hcount]
        rfl
      · cases hfind : info.eraseOptions.find? fun option => option.matches address count with
        | none =>
            refine ⟨[], count, .stop address count, ?_, ?_⟩
            · intro _
              rw [Nat.sub_self, Nat.add_zero]
              exact no_fit hsizes hfind
            · rw [nkSpiflashEraseLoop, if_neg hcount, hfind, if_neg hcount]
              rfl
        | some option =>
            have hpick : info.Picks address count option := hfind
            obtain ⟨hmem, hdvd, hroom⟩ := hpick.fits hsizes
            have hpos := hsizes.pos hmem
            rw [nkSpiflashEraseLoop_pass hd fuel hsize hcount hpick]
            by_cases hlast : count - option.eraseSize = 0
            · obtain ⟨fuel', rfl⟩ := Nat.exists_eq_succ_of_ne_zero (show fuel ≠ 0 by omega)
              refine ⟨[(address, option)], 0, .lay hpick hroom (hlast ▸ .stop _ _),
                fun hleft => absurd rfl hleft, ?_⟩
              rw [hlast, nkSpiflashEraseLoop, if_pos rfl]
              rfl
            · have hnext : u32 (address + option.eraseSize) = address + option.eraseSize :=
                Nat.mod_eq_of_lt (by omega)
              have hfuel' : count - option.eraseSize < fuel := by omega
              have hrange' : address + option.eraseSize + (count - option.eraseSize) ≤ 2 ^ 32 := by
                omega
              have hsize' : 1 + info.addrSize ≤
                  (s.erasing d info.addrSize (address, option)).size := hsize
              obtain ⟨blocks, left, hlaid, hstuck, hrun⟩ := ih hsize' hfuel' hrange'
              have hplace : address + option.eraseSize + (count - option.eraseSize - left) =
                  address + (count - left) := by
                have hle := hlaid.left_le
                omega
              refine ⟨(address, option) :: blocks, left, .lay hpick hroom hlaid, ?_, ?_⟩
              · rwa [hplace] at hstuck
              · rw [hnext, hrun, List.foldl_cons]

/-- `nk_spiflash_erase` erases aligned blocks one behind the other inside the range.
It returns 0 when they make up the range, and they do exactly when the range is empty
or both ends are multiples of the smallest size. -/
theorem nkSpiflashErase_run (hsizes : info.SizesPow) {smallest : EraseOption}
    (hmem : smallest ∈ info.eraseOptions)
    (hleast : ∀ option ∈ info.eraseOptions, smallest.eraseSize ≤ option.eraseSize) {s : Bus σ}
    (hsize : 1 + info.addrSize ≤ s.size) (hrange : address + count ≤ 2 ^ 32) :
    ∃ blocks left, Laid EraseOption.eraseSize info.Picks address count blocks left ∧
      (left = 0 ↔ count = 0 ∨ smallest.eraseSize ∣ address ∧ smallest.eraseSize ∣ count) ∧
      (nkSpiflashErase info address count).run (serialBus d) s =
        some (if left = 0 then 0 else -1,
          blocks.foldl (Bus.erasing d info.addrSize) s) := by
  obtain ⟨blocks, left, hlaid, hstuck, hrun⟩ :=
    nkSpiflashEraseLoop_run hd hsizes hsize (Nat.lt_succ_self count) hrange
  refine ⟨blocks, left, hlaid, ?_, ?_⟩
  · constructor
    · rintro rfl
      refine or_iff_not_imp_left.mpr fun hcount => ?_
      refine hlaid.dvd_of_left (m := smallest) ?_ hcount
      intro address count option hpick
      obtain ⟨hmem', hdvd, -⟩ := NkSpiflashInfo.Picks.fits hsizes hpick
      exact ⟨hsizes.dvd hmem hmem' (hleast option hmem'), hdvd⟩
    · rintro (hcount | ⟨haddress, hcount⟩)
      · exact Nat.le_zero.mp (hcount ▸ hlaid.left_le)
      · refine hlaid.left_eq_zero hmem ?_ ?_ haddress hcount hstuck
        · intro address count option hpick
          exact (NkSpiflashInfo.Picks.fits hsizes hpick).1
        · intro option hmem'
          exact hsizes.dvd hmem hmem' (hleast option hmem')
  · rw [nkSpiflashErase, if_pos (Nat.ne_of_gt (List.length_pos_of_mem hmem)), hrun]

end

/-! ## As few commands as there can be -/

/-- The blocks make up the range, and no aligned blocks of the options that make it up
are fewer. -/
def FewestBlocks (options : List EraseOption) (address count : Nat)
    (blocks : List (Nat × EraseOption)) : Prop :=
  allCells EraseOption.eraseSize blocks = Set.Ico address (address + count) ∧
    ∀ cover, (∀ block ∈ cover, Aligned EraseOption.eraseSize options block) →
      allCells EraseOption.eraseSize cover = Set.Ico address (address + count) →
      blocks.length ≤ cover.length

theorem aligned_of_laid (hsizes : info.SizesPow) {blocks : List (Nat × EraseOption)} {left : Nat}
    (hlaid : Laid EraseOption.eraseSize info.Picks address count blocks left) :
    ∀ block ∈ blocks, Aligned EraseOption.eraseSize info.eraseOptions block := by
  intro block hblock
  obtain ⟨n, hpick⟩ := hlaid.all_picked block hblock
  obtain ⟨hmem, hdvd, -⟩ := NkSpiflashInfo.Picks.fits hsizes hpick
  exact ⟨hmem, hdvd⟩

/-- A block inside a range starts before its end. -/
theorem start_lt_of_aligned (hsizes : info.SizesPow) {blocks : List (Nat × EraseOption)}
    (haligned : ∀ block ∈ blocks, Aligned EraseOption.eraseSize info.eraseOptions block)
    {first last : Nat} (hinside : allCells EraseOption.eraseSize blocks ⊆ Set.Ico first last)
    {block : Nat × EraseOption} (hblock : block ∈ blocks) : block.1 < last := by
  have hpos := hsizes.pos (haligned block hblock).1
  have hfirst : block.1 ∈ allCells EraseOption.eraseSize blocks :=
    ⟨block, hblock, mem_cells.mpr (by omega)⟩
  exact (hinside hfirst).2

/-- Blocks that leave nothing are as few as they can be in a sorted table. -/
theorem fewestBlocks_of_laid (hsizes : info.SizesPow) (hsorted : info.Sorted)
    {blocks : List (Nat × EraseOption)}
    (hlaid : Laid EraseOption.eraseSize info.Picks address count blocks 0) :
    FewestBlocks info.eraseOptions address count blocks := by
  refine ⟨hlaid.allCells_eq, ?_⟩
  intro cover haligned hcells
  have hlargest := hlaid.mono fun address count option hpick =>
    NkSpiflashInfo.Picks.largest hsizes hsorted hpick
  refine hlargest.length_le (fun option hmem => hsizes.pos hmem) ?_ haligned hcells
  intro option hmem option' hmem'
  rcases Nat.le_total option.eraseSize option'.eraseSize with hle | hle
  · exact Or.inl (hsizes.dvd hmem hmem' hle)
  · exact Or.inr (hsizes.dvd hmem' hmem hle)

/-- The erase commands are for disjoint aligned blocks inside the range.  When both
ends of the range are multiples of the smallest size they are for all of it, as few as
there can be, and the result is 0.  Otherwise the result is -1, unless the range is
empty, when nothing is sent and the result is 0. -/
theorem nkSpiflashErase_fewest {σ : Type} {d : SerialDevice σ}
    (hd : ∀ bytes dev, (d.transfer bytes dev).1.1 = 0) (hsizes : info.SizesPow)
    (hsorted : info.Sorted) {smallest : EraseOption} (hmem : smallest ∈ info.eraseOptions)
    (hleast : ∀ option ∈ info.eraseOptions, smallest.eraseSize ≤ option.eraseSize) {s : Bus σ}
    (hsize : 1 + info.addrSize ≤ s.size) (hrange : address + count ≤ 2 ^ 32) :
    ∃ status s' blocks,
      (nkSpiflashErase info address count).run (serialBus d) s = some (status, s') ∧
      s'.log = s.log ++ blocks.flatMap (eraseTransfers info.addrSize) ∧
      (address + count ≤ 256 ^ info.addrSize →
        ∀ block ∈ blocks, ofBigEndian (bigEndian info.addrSize block.1) = block.1) ∧
      (∀ block ∈ blocks, Aligned EraseOption.eraseSize info.eraseOptions block) ∧
      (blocks.Pairwise fun block block' =>
        Disjoint (cells EraseOption.eraseSize block) (cells EraseOption.eraseSize block')) ∧
      allCells EraseOption.eraseSize blocks ⊆ Set.Ico address (address + count) ∧
      (smallest.eraseSize ∣ address ∧ smallest.eraseSize ∣ count →
        status = 0 ∧ FewestBlocks info.eraseOptions address count blocks) ∧
      (¬ (smallest.eraseSize ∣ address ∧ smallest.eraseSize ∣ count) →
        if count = 0 then status = 0 ∧ blocks = [] else status = -1) := by
  obtain ⟨blocks, left, hlaid, hleft, hrun⟩ :=
    nkSpiflashErase_run hd hsizes hmem hleast hsize hrange
  have haligned := aligned_of_laid hsizes hlaid
  have hinside : allCells EraseOption.eraseSize blocks ⊆ Set.Ico address (address + count) := by
    rw [hlaid.allCells_eq]
    exact Set.Ico_subset_Ico_right (by omega)
  refine ⟨_, _, blocks, hrun, erasing_log d info.addrSize blocks s, ?_, haligned,
    hlaid.pairwise_disjoint, hinside, ?_, ?_⟩
  · intro hbytes block hblock
    have hless := start_lt_of_aligned hsizes haligned hinside hblock
    exact ofBigEndian_bigEndian (Nat.lt_of_lt_of_le hless hbytes)
  · intro hends
    obtain rfl := hleft.mpr (Or.inr hends)
    exact ⟨rfl, fewestBlocks_of_laid hsizes hsorted hlaid⟩
  · intro hends
    by_cases hcount : count = 0
    · rw [if_pos hcount]
      obtain rfl := hleft.mpr (Or.inl hcount)
      subst hcount
      exact ⟨rfl, hlaid.eq_nil fun _ _ _ hpick =>
        hsizes.pos (NkSpiflashInfo.Picks.fits hsizes hpick).1⟩
    · rw [if_neg hcount, if_neg]
      intro hzero
      rcases hleft.mp hzero with h | h
      · exact hcount h
      · exact hends h

/-- Twelve bytes from 4 on with options of eight bytes and of four. -/
theorem nkSpiflashErase_fewest_twelve :
    let info : NkSpiflashInfo := ⟨4, 1, 1, [⟨8, 0xD8⟩, ⟨4, 0x20⟩]⟩
    let d : SerialDevice Unit := ⟨fun _ _ => ((0, []), ()), fun _ _ => ((0, []), ())⟩
    ∃ s', ∃ blocks : List (Nat × EraseOption),
      (nkSpiflashErase info 4 12).run (serialBus d) ⟨2, fun _ => 0, (), []⟩ = some (0, s') ∧
        s'.log = blocks.flatMap (eraseTransfers 1) ∧ blocks.length ≤ 2 := by
  intro info d
  have hsizes : info.SizesPow := by
    intro option hmem
    rcases List.mem_cons.mp hmem with rfl | hmem
    · exact ⟨3, by decide, rfl⟩
    · obtain rfl := List.mem_singleton.mp hmem
      exact ⟨2, by decide, rfl⟩
  have hsorted : info.Sorted := by
    simp [NkSpiflashInfo.Sorted, info]
  have hsmallest : (⟨4, 0x20⟩ : EraseOption) ∈ info.eraseOptions := by simp [info]
  have hleast : ∀ option ∈ info.eraseOptions, 4 ≤ option.eraseSize := by simp [info]
  obtain ⟨status, s', blocks, hrun, hlog, -, -, -, -, hends, -⟩ :=
    nkSpiflashErase_fewest (d := d) (fun _ _ => rfl) hsizes hsorted hsmallest hleast
      (s := ⟨2, fun _ => 0, (), []⟩) (by decide) (show 4 + 12 ≤ 2 ^ 32 by decide)
  obtain ⟨rfl, hcells, hfewest⟩ := hends ⟨⟨1, rfl⟩, ⟨3, rfl⟩⟩
  refine ⟨s', blocks, hrun, hlog, hfewest [(4, ⟨4, 0x20⟩), (8, ⟨8, 0xD8⟩)] ?_ ?_⟩
  · intro block hblock
    rcases List.mem_cons.mp hblock with rfl | hblock
    · exact ⟨hsmallest, 1, rfl⟩
    · obtain rfl := List.mem_singleton.mp hblock
      exact ⟨List.mem_cons_self, 1, rfl⟩
  · ext a
    simp [allCells, mem_cells]
    omega

/-- An empty range is erased at any address. -/
theorem not_nkSpiflashErase_unaligned :
    let info : NkSpiflashInfo := ⟨4, 1, 1, [⟨8, 0xD8⟩, ⟨4, 0x20⟩]⟩
    let d : SerialDevice Unit := ⟨fun _ _ => ((0, []), ()), fun _ _ => ((0, []), ())⟩
    ¬ (¬ (4 ∣ 1 ∧ 4 ∣ 0) → ∃ s', (nkSpiflashErase info 1 0).run (serialBus d)
      ⟨2, fun _ => 0, (), []⟩ = some (-1, s')) := by
  intro info d himp
  obtain ⟨s', hrun⟩ := himp (by decide)
  have hnone : (nkSpiflashErase info 1 0).run (serialBus d) ⟨2, fun _ => 0, (), []⟩ =
      some (0, ⟨2, fun _ => 0, (), []⟩) := rfl
  rw [hnone, Option.some_inj, Prod.mk.injEq] at hrun
  exact absurd hrun.1 (by decide)

end LibnklabsPico.Serial
