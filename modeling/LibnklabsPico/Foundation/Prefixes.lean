/-
  Foundation/Prefixes.lean --- what the texts of a list begin with in common.

  `shared` is the greatest lower bound of a list of texts in the prefix order.
  `goesOn` is how far the texts that begin with a word agree behind it; a word that
  is extended along it goes on with the rest (`goesOn_append`).
-/
import Mathlib.Data.List.Infix
import Mathlib.Tactic.Common

set_option autoImplicit false

namespace LibnklabsPico.Foundation.Prefixes

variable {α : Type} [DecidableEq α] {p xs ys rest word : List α} {texts : List (List α)}

/-- The longest text that both begin with. -/
def common : List α → List α → List α
  | x :: xs, y :: ys => if x = y then x :: common xs ys else []
  | _, _ => []

/-- The longest text that all begin with. -/
def shared : List (List α) → List α
  | [] => []
  | text :: texts => texts.foldl common text

/-- What the texts that begin with a word have in common behind it. -/
def goesOn (texts : List (List α)) (word : List α) : List α :=
  (shared (texts.filter fun text => word <+: text)).drop word.length

theorem prefix_common_iff : p <+: common xs ys ↔ p <+: xs ∧ p <+: ys := by
  induction p generalizing xs ys with
  | nil => simp
  | cons a p ih =>
      cases xs with
      | nil => simp [common]
      | cons x xs =>
          cases ys with
          | nil => simp [common]
          | cons y ys =>
              by_cases hxy : x = y
              · subst hxy
                simp only [common, if_true, List.cons_prefix_cons, ih]
                tauto
              · have hnone : common (x :: xs) (y :: ys) = [] := if_neg hxy
                rw [hnone]
                simp only [List.prefix_nil, List.cons_prefix_cons, reduceCtorEq, false_iff]
                rintro ⟨⟨rfl, -⟩, rfl, -⟩
                exact hxy rfl

theorem prefix_foldl_iff {text : List α} :
    p <+: texts.foldl common text ↔ p <+: text ∧ ∀ t ∈ texts, p <+: t := by
  induction texts generalizing text with
  | nil => simp
  | cons t texts ih =>
      rw [List.foldl_cons, ih, prefix_common_iff]
      simp only [List.mem_cons, forall_eq_or_imp, and_assoc]

theorem prefix_shared_iff (hne : texts ≠ []) : p <+: shared texts ↔ ∀ t ∈ texts, p <+: t := by
  cases texts with
  | nil => exact absurd rfl hne
  | cons text texts =>
      rw [shared, prefix_foldl_iff]
      simp only [List.mem_cons, forall_eq_or_imp]

theorem goesOn_eq_nil (hnone : ∀ t ∈ texts, ¬ word <+: t) : goesOn texts word = [] := by
  have hempty : texts.filter (fun text => word <+: text) = [] :=
    List.filter_eq_nil_iff.mpr fun t ht => by simpa using hnone t ht
  rw [goesOn, hempty]
  exact List.drop_nil

/-- The word itself is in common. -/
theorem append_goesOn (hsome : ∃ t ∈ texts, word <+: t) :
    word ++ goesOn texts word = shared (texts.filter fun text => word <+: text) := by
  obtain ⟨t, ht, hword⟩ := hsome
  have hmem : t ∈ texts.filter fun text => word <+: text :=
    List.mem_filter.mpr ⟨ht, decide_eq_true hword⟩
  have hshared : word <+: shared (texts.filter fun text => word <+: text) :=
    (prefix_shared_iff (List.ne_nil_of_mem hmem)).mpr fun t ht =>
      of_decide_eq_true (List.mem_filter.mp ht).2
  exact (List.prefix_iff_eq_append.mp hshared)

theorem prefix_goesOn_iff (hsome : ∃ t ∈ texts, word <+: t) :
    p <+: goesOn texts word ↔ ∀ t ∈ texts, word <+: t → word ++ p <+: t := by
  obtain ⟨t, ht, hword⟩ := hsome
  have hmem : t ∈ texts.filter fun text => word <+: text :=
    List.mem_filter.mpr ⟨ht, decide_eq_true hword⟩
  rw [← List.prefix_append_right_inj word, append_goesOn ⟨t, ht, hword⟩,
    prefix_shared_iff (List.ne_nil_of_mem hmem)]
  simp only [List.mem_filter, decide_eq_true_eq, and_imp]

/-- Something is in common only where a text begins with the word. -/
theorem some_of_goesOn_ne_nil (hne : goesOn texts word ≠ []) : ∃ t ∈ texts, word <+: t := by
  by_contra hnone
  exact hne (goesOn_eq_nil fun t ht hword => hnone ⟨t, ht, hword⟩)

theorem goesOn_append (h : goesOn texts word = p ++ rest) : goesOn texts (word ++ p) = rest := by
  by_cases hsome : ∃ t ∈ texts, word <+: t
  · -- the texts that begin with the word begin with the longer one
    have hsame : (texts.filter fun text => word ++ p <+: text) =
        texts.filter fun text => word <+: text := by
      refine List.filter_congr fun t ht => decide_eq_decide.mpr ⟨fun hlong => ?_, fun hword => ?_⟩
      · exact (List.prefix_append word p).trans hlong
      · exact (prefix_goesOn_iff hsome).mp (h ▸ List.prefix_append p rest) t ht hword
    have hshared := append_goesOn hsome
    rw [goesOn, hsame, ← hshared, h, ← List.append_assoc, List.drop_left]
  · have hempty := goesOn_eq_nil fun t ht hword => hsome ⟨t, ht, hword⟩
    rw [h] at hempty
    obtain ⟨rfl, rfl⟩ := List.append_eq_nil_iff.mp hempty
    rw [List.append_nil, h, List.append_nil]

end LibnklabsPico.Foundation.Prefixes
