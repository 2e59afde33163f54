/-
  Foundation/Ring.lean --- intrusive doubly linked rings.

  A ring is given by two link maps `next prev : ι → Option ι` (`none` is the
  null pointer) and a head cell.  `Linked next prev a l b` says that following
  `next` from `a` visits exactly the cells of `l` and then arrives at `b`, and
  that `prev` retraces every one of these steps.  Nothing here mentions what the
  cells hold, so the unlink and insert rules serve any intrusive ring.
-/
import Mathlib.Data.List.Nodup
import Mathlib.Data.List.Perm.Basic
import Mathlib.Logic.Function.Basic
import Mathlib.Logic.Function.Iterate

set_option autoImplicit false

namespace LibnklabsPico.Foundation

variable {ι : Type}

/-- Following `next` from `a` visits `l` in order and ends at `b`; `prev`
retraces each step. -/
def Linked (next prev : ι → Option ι) : ι → List ι → ι → Prop
  | a, [], b => next a = some b ∧ prev b = some a
  | a, x :: l, b => next a = some x ∧ prev x = some a ∧ Linked next prev x l b

/-- A ring through the head `h` whose other cells are `l`, each once. -/
structure Ring (next prev : ι → Option ι) (h : ι) (l : List ι) : Prop where
  linked : Linked next prev h l h
  nodup : (h :: l).Nodup

namespace Linked

variable {next prev next' prev' : ι → Option ι} {a b x : ι} {l l₁ l₂ : List ι}

/-- The first cell reached. -/
theorem next_eq (h : Linked next prev a l b) : next a = some (l.headD b) := by
  cases l with
  | nil => exact h.1
  | cons y l => exact h.1

/-- A linked path splits at every cell it visits. -/
theorem append_iff :
    Linked next prev a (l₁ ++ x :: l₂) b ↔
      Linked next prev a l₁ x ∧ Linked next prev x l₂ b := by
  induction l₁ generalizing a with
  | nil => simp [Linked, and_assoc]
  | cons y l₁ ih =>
      simp only [List.cons_append, Linked, ih]
      tauto

/-- A path is untouched by link updates away from its cells. -/
theorem congr (h : Linked next prev a l b)
    (hnext : ∀ i ∈ a :: l, next' i = next i)
    (hprev : ∀ i ∈ b :: l, prev' i = prev i) : Linked next' prev' a l b := by
  induction l generalizing a with
  | nil =>
      exact ⟨by rw [hnext a (by simp)]; exact h.1,
        by rw [hprev b (by simp)]; exact h.2⟩
  | cons y l ih =>
      obtain ⟨hy, hback, hrest⟩ := h
      refine ⟨by rw [hnext a (by simp)]; exact hy,
        by rw [hprev y (by simp)]; exact hback, ih hrest ?_ ?_⟩
      · exact fun i hi => hnext i (List.mem_cons_of_mem a hi)
      · intro i hi
        refine hprev i ?_
        simp only [List.mem_cons] at hi ⊢
        tauto

/-- The last step of a path can be redirected from `x` to `n` by rewriting one
`next` link (that of the predecessor of `x`) and one `prev` link. -/
theorem redirect_end (h : Linked next prev a l x) (hnodup : (a :: l).Nodup) :
    ∃ p, prev x = some p ∧ p ∈ a :: l ∧
      ∀ (n : ι) (next' prev' : ι → Option ι),
        (∀ i ∈ a :: l, i ≠ p → next' i = next i) → next' p = some n →
        prev' n = some p → (∀ i ∈ l, prev' i = prev i) →
        Linked next' prev' a l n := by
  induction l generalizing a with
  | nil =>
      exact ⟨a, h.2, by simp, fun n next' prev' _ hn hp _ => ⟨hn, hp⟩⟩
  | cons y l ih =>
      obtain ⟨hy, hback, hrest⟩ := h
      obtain ⟨p, hpx, hmem, hredirect⟩ := ih hrest (List.nodup_cons.mp hnodup).2
      have hne : a ≠ p := by
        rintro rfl
        exact (List.nodup_cons.mp hnodup).1 hmem
      refine ⟨p, hpx, List.mem_cons_of_mem a hmem, ?_⟩
      intro n next' prev' hnext hn hp hprev
      refine ⟨by rw [hnext a (by simp) hne]; exact hy,
        by rw [hprev y (by simp)]; exact hback, ?_⟩
      exact hredirect n next' prev'
        (fun i hi hip => hnext i (List.mem_cons_of_mem a hi) hip) hn hp
        (fun i hi => hprev i (List.mem_cons_of_mem y hi))

/-- Following `next` once for every cell of the path reaches its end. -/
theorem iterate (h : Linked next prev a l b) :
    (fun p : Option ι => p.bind next)^[l.length + 1] (some a) = some b := by
  induction l generalizing a with
  | nil => exact h.1
  | cons y l ih =>
      rw [List.length_cons, Function.iterate_succ_apply, Option.bind_some, h.1]
      exact ih h.2.2

/-- Every step of a path can be taken back. -/
theorem next_of_mem (h : Linked next prev a l b) {i : ι} (hi : i ∈ a :: l) :
    ∃ j ∈ b :: l, next i = some j ∧ prev j = some i := by
  induction l generalizing a with
  | nil =>
      obtain rfl : i = a := by simpa using hi
      exact ⟨b, by simp, h.1, h.2⟩
  | cons y l ih =>
      rcases List.mem_cons.mp hi with rfl | hi
      · exact ⟨y, by simp, h.1, h.2.1⟩
      · obtain ⟨j, hj, hlinks⟩ := ih h.2.2 hi
        refine ⟨j, ?_, hlinks⟩
        simp only [List.mem_cons] at hj ⊢
        tauto

/-- Every step back along a path can be taken forward again. -/
theorem prev_of_mem (h : Linked next prev a l b) {j : ι} (hj : j ∈ b :: l) :
    ∃ i ∈ a :: l, prev j = some i ∧ next i = some j := by
  induction l generalizing a with
  | nil =>
      obtain rfl : j = b := by simpa using hj
      exact ⟨a, by simp, h.2, h.1⟩
  | cons y l ih =>
      by_cases hjy : j = y
      · exact ⟨a, by simp, hjy ▸ h.2.1, hjy ▸ h.1⟩
      · have hj' : j ∈ b :: l := by
          simp only [List.mem_cons] at hj ⊢
          tauto
        obtain ⟨i, hi, hlinks⟩ := ih h.2.2 hj'
        exact ⟨i, List.mem_cons_of_mem a hi, hlinks⟩

end Linked

/-- A null-terminated chain of `next` links through the cells of a list. -/
def Chain (next : ι → Option ι) : Option ι → List ι → Prop
  | p, [] => p = none
  | p, i :: l => p = some i ∧ Chain next (next i) l

/-- A chain is untouched by link updates away from its cells. -/
theorem Chain.congr {next next' : ι → Option ι} {p : Option ι} {l : List ι}
    (h : Chain next p l) (hnext : ∀ i ∈ l, next' i = next i) : Chain next' p l := by
  induction l generalizing p with
  | nil => exact h
  | cons i l ih =>
      refine ⟨h.1, ?_⟩
      rw [hnext i (by simp)]
      exact ih h.2 fun j hj => hnext j (List.mem_cons_of_mem i hj)

/-- In a duplicate-free ring the cells before a cut are not behind it. -/
theorem not_mem_of_nodup {h j : ι} {l₁ l₂ : List ι}
    (hnodup : (h :: (l₁ ++ l₂)).Nodup) (hleft : j ∈ h :: l₁) : j ∉ l₂ := by
  intro hright
  rw [← List.cons_append, List.nodup_append] at hnodup
  exact hnodup.2.2 j hleft j hright rfl

namespace Ring

variable [DecidableEq ι] {next prev : ι → Option ι} {h x i q : ι}
  {l l₁ l₂ : List ι}

omit [DecidableEq ι] in
theorem next_of_mem (hring : Ring next prev h l) (hi : i ∈ h :: l) :
    ∃ j ∈ h :: l, next i = some j ∧ prev j = some i :=
  hring.linked.next_of_mem hi

omit [DecidableEq ι] in
theorem prev_of_mem (hring : Ring next prev h l) (hi : i ∈ h :: l) :
    ∃ j ∈ h :: l, prev i = some j ∧ next j = some i :=
  hring.linked.prev_of_mem hi

/-- Unlinking a cell: its two neighbours are joined. -/
theorem unlink (hring : Ring next prev h (l₁ ++ x :: l₂)) :
    ∃ p n, prev x = some p ∧ next x = some n ∧ p ∈ h :: l₁ ∧
      Ring (Function.update next p (some n)) (Function.update prev n (some p))
        h (l₁ ++ l₂) := by
  obtain ⟨hlinked, hnodup⟩ := hring
  obtain ⟨hleft, hright⟩ := Linked.append_iff.mp hlinked
  have hnodup' : (h :: (l₁ ++ l₂)).Nodup :=
    hnodup.sublist (List.Sublist.cons_cons h
      (List.Sublist.append_left (List.sublist_cons_self x l₂) l₁))
  have hleftNodup : (h :: l₁).Nodup :=
    hnodup.sublist (List.Sublist.cons_cons h (List.sublist_append_left l₁ _))
  obtain ⟨p, hpx, hmem, hredirect⟩ := hleft.redirect_end hleftNodup
  refine ⟨p, l₂.headD h, hpx, hright.next_eq, hmem, ?_, hnodup'⟩
  cases l₂ with
  | nil =>
      rw [List.append_nil]
      refine hredirect h _ _ (fun j _ hj => Function.update_of_ne hj _ _)
        (by simp) (by simp) (fun j hj => Function.update_of_ne ?_ _ _)
      rintro rfl
      exact (List.nodup_cons.mp hleftNodup).1 hj
  | cons n l₂ =>
      obtain ⟨-, -, hrest⟩ := hright
      refine Linked.append_iff.mpr ⟨?_, ?_⟩
      · refine hredirect n _ _ (fun j _ hj => Function.update_of_ne hj _ _)
          (by simp) (by simp) (fun j hj => Function.update_of_ne ?_ _ _)
        rintro rfl
        exact not_mem_of_nodup hnodup' (List.mem_cons_of_mem h hj) (by simp)
      · refine hrest.congr (fun j hj => Function.update_of_ne ?_ _ _)
          (fun j hj => Function.update_of_ne ?_ _ _)
        · rintro rfl
          exact not_mem_of_nodup hnodup' hmem hj
        · rintro rfl
          rcases List.mem_cons.mp hj with rfl | hj
          · exact not_mem_of_nodup hnodup' List.mem_cons_self (by simp)
          · have hright := (List.nodup_append.mp (List.nodup_cons.mp hnodup').2).2.1
            exact (List.nodup_cons.mp hright).1 hj

/-- Linking a fresh cell `i` in front of the cell `q` that follows `l₁` (which
is the head itself when `l₂` is empty). -/
theorem insert (hring : Ring next prev h (l₁ ++ l₂)) (hfresh : i ∉ h :: (l₁ ++ l₂))
    (hq : q = l₂.headD h) :
    ∃ p, prev q = some p ∧ p ∈ h :: l₁ ∧
      Ring (Function.update (Function.update next i (some q)) p (some i))
        (Function.update (Function.update prev i (some p)) q (some i))
        h (l₁ ++ i :: l₂) := by
  obtain ⟨hlinked, hnodup⟩ := hring
  have hleftNodup : (h :: l₁).Nodup :=
    hnodup.sublist (List.Sublist.cons_cons h (List.sublist_append_left l₁ _))
  have hleft : Linked next prev h l₁ q := by
    cases l₂ with
    | nil => simpa [hq] using hlinked
    | cons y l₂ => rw [hq]; exact (Linked.append_iff.mp hlinked).1
  have hnodup' : (h :: (l₁ ++ i :: l₂)).Nodup := by
    have hperm : (h :: (l₁ ++ i :: l₂)).Perm (i :: h :: (l₁ ++ l₂)) :=
      (List.Perm.cons h List.perm_middle).trans (List.Perm.swap i h _)
    exact hperm.nodup_iff.mpr (List.nodup_cons.mpr ⟨hfresh, hnodup⟩)
  obtain ⟨p, hpq, hmem, hredirect⟩ := hleft.redirect_end hleftNodup
  -- the fresh cell differs from every cell of the ring
  have hne : ∀ j ∈ h :: (l₁ ++ l₂), j ≠ i := fun j hj hji => hfresh (hji ▸ hj)
  have hleftMem : ∀ j ∈ h :: l₁, j ∈ h :: (l₁ ++ l₂) := by
    intro j hj
    rw [← List.cons_append]
    exact List.mem_append_left l₂ hj
  have hrightMem : ∀ j ∈ l₂, j ∈ h :: (l₁ ++ l₂) := fun j hj =>
    List.mem_cons_of_mem h (List.mem_append_right l₁ hj)
  have hqi : q ≠ i := by
    refine hne q ?_
    cases l₂ <;> simp [hq]
  have hpi : p ≠ i := hne p (hleftMem p hmem)
  have hql₁ : q ∉ l₁ := by
    intro hql
    cases l₂ with
    | nil => exact (List.nodup_cons.mp hleftNodup).1 (by simpa [hq] using hql)
    | cons y l₂ =>
        exact not_mem_of_nodup hnodup (List.mem_cons_of_mem h hql) (by simp [hq])
  refine ⟨p, hpq, hmem, Linked.append_iff.mpr ⟨?_, ?_⟩, hnodup'⟩
  · refine hredirect i _ _ ?_ (by simp) ?_ ?_
    · intro j hj hjp
      rw [Function.update_of_ne hjp, Function.update_of_ne (hne j (hleftMem j hj))]
    · rw [Function.update_of_ne hqi.symm, Function.update_self]
    · intro j hj
      have hjq : j ≠ q := fun hjq => hql₁ (hjq ▸ hj)
      rw [Function.update_of_ne hjq,
        Function.update_of_ne (hne j (hleftMem j (List.mem_cons_of_mem h hj)))]
  · have hstep : Linked
        (Function.update (Function.update next i (some q)) p (some i))
        (Function.update (Function.update prev i (some p)) q (some i)) i [] q :=
      ⟨by rw [Function.update_of_ne hpi.symm, Function.update_self],
        by rw [Function.update_self]⟩
    cases l₂ with
    | nil => simpa [hq] using hstep
    | cons y l₂ =>
        obtain rfl : q = y := by simpa using hq
        refine ⟨hstep.1, hstep.2, (Linked.append_iff.mp hlinked).2.congr ?_ ?_⟩
        · intro j hj
          rw [Function.update_of_ne, Function.update_of_ne (hne j (hrightMem j hj))]
          rintro rfl
          exact not_mem_of_nodup hnodup hmem hj
        · intro j hj
          have hmemj : j ∈ h :: (l₁ ++ q :: l₂) := by
            simp only [List.mem_cons, List.mem_append] at hj ⊢
            tauto
          rw [Function.update_of_ne, Function.update_of_ne (hne j hmemj)]
          rintro rfl
          rcases List.mem_cons.mp hj with rfl | hj
          · exact not_mem_of_nodup hnodup List.mem_cons_self (by simp)
          · have hright := (List.nodup_append.mp (List.nodup_cons.mp hnodup).2).2.1
            exact (List.nodup_cons.mp hright).1 hj

end Ring

end LibnklabsPico.Foundation
