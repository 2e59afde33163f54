/-
  Foundation/Prog.lean --- programs over the calls of a device.

  A program is a tree: it returns, or it makes a call and goes on with the
  answer.  A device is a handler of calls on a state; the answer `none` says
  that the device does not allow the call.  Whole runs (`run`) and runs that are
  stopped at a call (`Stops`) are two readings of one tree.
-/
import Mathlib.Tactic.Common

set_option autoImplicit false

namespace LibnklabsPico.Foundation

/-- Programs that make calls `c : Cmd` and get answers of type `Res c`. -/
inductive Prog (Cmd : Type) (Res : Cmd → Type) (α : Type) : Type where
  | pure (a : α)
  | call (c : Cmd) (next : Res c → Prog Cmd Res α)

/-- How a device with states `σ` answers its calls. -/
abbrev Handler (Cmd : Type) (Res : Cmd → Type) (σ : Type) : Type :=
  (c : Cmd) → σ → Option (Res c × σ)

namespace Prog

variable {Cmd : Type} {Res : Cmd → Type} {α β σ τ : Type}

/-- Sequential composition. -/
def bind : Prog Cmd Res α → (α → Prog Cmd Res β) → Prog Cmd Res β
  | .pure a, f => f a
  | .call c next, f => .call c fun r => (next r).bind f

instance : Monad (Prog Cmd Res) where
  pure := .pure
  bind := bind

/-- One call. -/
def perform (c : Cmd) : Prog Cmd Res (Res c) := .call c .pure

theorem bind_pure' (p : Prog Cmd Res α) : p.bind .pure = p := by
  induction p with
  | pure a => rfl
  | call c next ih => simp [bind, ih]

theorem bind_assoc' {γ : Type} (p : Prog Cmd Res α) (f : α → Prog Cmd Res β)
    (g : β → Prog Cmd Res γ) : (p.bind f).bind g = p.bind fun a => (f a).bind g := by
  induction p with
  | pure a => rfl
  | call c next ih => simp [bind, ih]

instance : LawfulMonad (Prog Cmd Res) :=
  LawfulMonad.mk' (Prog Cmd Res) bind_pure' (fun _ _ => rfl) bind_assoc'

/-! ## Whole runs -/

/-- Run a program on a device. -/
def run (h : Handler Cmd Res σ) : Prog Cmd Res α → σ → Option (α × σ)
  | .pure a, s => some (a, s)
  | .call c next, s =>
      match h c s with
      | some (r, s') => (next r).run h s'
      | none => none

variable {h : Handler Cmd Res σ}

@[simp] theorem run_pure (a : α) (s : σ) :
    (Pure.pure a : Prog Cmd Res α).run h s = some (a, s) := rfl

@[simp] theorem run_perform (c : Cmd) (s : σ) : (perform c).run h s = h c s := by
  simp only [perform, run]
  cases h c s <;> rfl

@[simp] theorem run_bind (p : Prog Cmd Res α) (f : α → Prog Cmd Res β) (s : σ) :
    (p >>= f).run h s = (p.run h s).bind fun (a, s') => (f a).run h s' := by
  change (p.bind f).run h s = _
  induction p generalizing s with
  | pure a => rfl
  | call c next ih =>
      simp only [bind, run]
      cases h c s with
      | none => rfl
      | some answer => exact ih answer.1 answer.2

@[simp] theorem run_map (f : α → β) (p : Prog Cmd Res α) (s : σ) :
    (f <$> p).run h s = (p.run h s).map fun (a, s') => (f a, s') := by
  rw [← bind_pure_comp, run_bind]
  cases p.run h s <;> rfl

/-- The run of a composition from the runs of its parts. -/
theorem run_bind_of {p : Prog Cmd Res α} {f : α → Prog Cmd Res β} {s s' : σ} {a : α}
    (hrun : p.run h s = some (a, s')) : (p >>= f).run h s = (f a).run h s' := by
  rw [run_bind, hrun]
  rfl

/-- A device that answers every allowed call of another one in the same way runs
every program that the other one runs. -/
theorem run_simulates {h₁ : Handler Cmd Res σ} {h₂ : Handler Cmd Res τ} {R : σ → τ → Prop}
    (hstep : ∀ c s t r t', R s t → h₂ c t = some (r, t') →
      ∃ s', h₁ c s = some (r, s') ∧ R s' t')
    {p : Prog Cmd Res α} {s : σ} {t t' : τ} {a : α} (hrel : R s t)
    (hrun : p.run h₂ t = some (a, t')) :
    ∃ s', p.run h₁ s = some (a, s') ∧ R s' t' := by
  induction p generalizing s t with
  | pure b =>
      simp only [run, Option.some.injEq, Prod.mk.injEq] at hrun
      obtain ⟨rfl, rfl⟩ := hrun
      exact ⟨s, rfl, hrel⟩
  | call c next ih =>
      simp only [run] at hrun ⊢
      split at hrun
      · rename_i r t₁ hanswer
        obtain ⟨s₁, hcall, hrel₁⟩ := hstep c s t r t₁ hrel hanswer
        rw [hcall]
        exact ih r hrel₁ hrun
      · cases hrun

/-! ## Runs that are stopped -/

/-- `Stops cut h p s s'`: the run of `p` from `s` is stopped at one of its calls, and
`cut` says what that call may leave. -/
def Stops (cut : Cmd → σ → σ → Prop) (h : Handler Cmd Res σ) : Prog Cmd Res α → σ → σ → Prop
  | .pure _, _, _ => False
  | .call c next, s, s' =>
      cut c s s' ∨ ∃ r s₁, h c s = some (r, s₁) ∧ (next r).Stops cut h s₁ s'

section
variable {cut : Cmd → σ → σ → Prop}

/-- A composition stops in its first part or, after all of it, in the second. -/
theorem stops_bind {p : Prog Cmd Res α} {f : α → Prog Cmd Res β} {s s' : σ} :
    (p >>= f).Stops cut h s s' ↔
      p.Stops cut h s s' ∨ ∃ a s₁, p.run h s = some (a, s₁) ∧ (f a).Stops cut h s₁ s' := by
  change (p.bind f).Stops cut h s s' ↔ _
  induction p generalizing s with
  | pure a =>
      simp only [bind, Stops, run, Option.some.injEq, Prod.mk.injEq, false_or]
      refine ⟨fun hstop => ⟨a, s, ⟨rfl, rfl⟩, hstop⟩, ?_⟩
      rintro ⟨_, _, ⟨rfl, rfl⟩, hstop⟩
      exact hstop
  | call c next ih =>
      simp only [bind, Stops, run, ih]
      constructor
      · rintro (hcut | ⟨r, s₁, hanswer, hstop | ⟨a, s₂, hrun, hstop⟩⟩)
        · exact Or.inl (Or.inl hcut)
        · exact Or.inl (Or.inr ⟨r, s₁, hanswer, hstop⟩)
        · exact Or.inr ⟨a, s₂, by rw [hanswer]; exact hrun, hstop⟩
      · rintro ((hcut | ⟨r, s₁, hanswer, hstop⟩) | ⟨a, s₂, hrun, hstop⟩)
        · exact Or.inl hcut
        · exact Or.inr ⟨r, s₁, hanswer, Or.inl hstop⟩
        · split at hrun
          · rename_i r s₁ hanswer
            exact Or.inr ⟨r, s₁, hanswer, Or.inr ⟨a, s₂, hrun, hstop⟩⟩
          · cases hrun

/-- The second part of a composition, from what the first one leaves. -/
theorem stops_bind_of {p : Prog Cmd Res α} {f : α → Prog Cmd Res β} {s s₁ s' : σ} {a : α}
    (hrun : p.run h s = some (a, s₁)) :
    (p >>= f).Stops cut h s s' ↔ p.Stops cut h s s' ∨ (f a).Stops cut h s₁ s' := by
  rw [stops_bind, hrun]
  simp

theorem stops_perform {c : Cmd} {s s' : σ} :
    (perform c : Prog Cmd Res (Res c)).Stops cut h s s' ↔ cut c s s' := by
  simp only [perform, Stops, and_false, exists_false, or_false]

theorem Stops.mono {cut' : Cmd → σ → σ → Prop} (hcut : ∀ c s s', cut c s s' → cut' c s s')
    {p : Prog Cmd Res α} {s s' : σ} (hstop : p.Stops cut h s s') : p.Stops cut' h s s' := by
  induction p generalizing s with
  | pure a => exact hstop
  | call c next ih =>
      rcases hstop with hstop | ⟨r, s₁, hanswer, hstop⟩
      · exact Or.inl (hcut c s s' hstop)
      · exact Or.inr ⟨r, s₁, hanswer, ih r hstop⟩

@[simp] theorem not_stops_pure {a : α} {s s' : σ} :
    ¬ (Pure.pure a : Prog Cmd Res α).Stops cut h s s' := id

end

/-! ## Calls whatever the answers are -/

/-- Whatever the answers are, every call satisfies `Q` and the result satisfies
`post`. -/
def Ensures (Q : Cmd → Prop) (post : α → Prop) : Prog Cmd Res α → Prop
  | .pure a => post a
  | .call c next => Q c ∧ ∀ r, (next r).Ensures Q post

section
variable {Q : Cmd → Prop} {post : β → Prop}

@[simp] theorem ensures_pure {post : α → Prop} {a : α} :
    (Pure.pure a : Prog Cmd Res α).Ensures Q post ↔ post a := Iff.rfl

@[simp] theorem ensures_perform {c : Cmd} {post : Res c → Prop} :
    (perform c : Prog Cmd Res (Res c)).Ensures Q post ↔ Q c ∧ ∀ r, post r := Iff.rfl

@[simp] theorem ensures_bind {p : Prog Cmd Res α} {f : α → Prog Cmd Res β} :
    (p >>= f).Ensures Q post ↔ p.Ensures Q fun a => (f a).Ensures Q post := by
  change (p.bind f).Ensures Q post ↔ _
  induction p with
  | pure a => exact Iff.rfl
  | call c next ih =>
      simp only [bind, Ensures]
      exact and_congr_right fun _ => forall_congr' ih

theorem Ensures.mono {post post' : α → Prop} {p : Prog Cmd Res α} (h : p.Ensures Q post)
    (himp : ∀ a, post a → post' a) : p.Ensures Q post' := by
  induction p with
  | pure a => exact himp a h
  | call c next ih => exact ⟨h.1, fun r => ih r (h.2 r)⟩

theorem ensures_congr {post post' : α → Prop} (p : Prog Cmd Res α)
    (hiff : ∀ a, post a ↔ post' a) : p.Ensures Q post ↔ p.Ensures Q post' :=
  ⟨fun h => h.mono fun a => (hiff a).mp, fun h => h.mono fun a => (hiff a).mpr⟩

/-- A run of the program on any device. -/
theorem Ensures.result {post : α → Prop} {p : Prog Cmd Res α} {s s' : σ} {a : α}
    (hp : p.Ensures Q post) (hrun : p.run h s = some (a, s')) : post a := by
  induction p generalizing s with
  | pure b =>
      simp only [run, Option.some.injEq, Prod.mk.injEq] at hrun
      exact hrun.1 ▸ hp
  | call c next ih =>
      simp only [run] at hrun
      split at hrun
      · exact ih _ (hp.2 _) hrun
      · cases hrun

section
variable {h₁ h₂ : Handler Cmd Res σ} {post : α → Prop}

/-- Devices that agree on the calls of a program run it in the same way. -/
theorem Ensures.run_congr (hsame : ∀ c s, Q c → h₁ c s = h₂ c s) {p : Prog Cmd Res α}
    (hp : p.Ensures Q post) (s : σ) : p.run h₁ s = p.run h₂ s := by
  induction p generalizing s with
  | pure a => rfl
  | call c next ih =>
      simp only [run, hsame c s hp.1]
      split
      · exact ih _ (hp.2 _) _
      · rfl

/-- And stop it in the same way. -/
theorem Ensures.stops_congr (hsame : ∀ c s, Q c → h₁ c s = h₂ c s) {p : Prog Cmd Res α}
    (hp : p.Ensures Q post) {cut : Cmd → σ → σ → Prop} {s s' : σ} :
    p.Stops cut h₁ s s' ↔ p.Stops cut h₂ s s' := by
  induction p generalizing s with
  | pure a => exact Iff.rfl
  | call c next ih =>
      simp only [Stops, hsame c s hp.1]
      exact or_congr_right (exists_congr fun r => exists_congr fun s₁ =>
        and_congr_right fun _ => ih r (hp.2 r))

end

theorem ensures_true (p : Prog Cmd Res α) : p.Ensures (fun _ => True) fun _ => True := by
  induction p with
  | pure a => exact trivial
  | call c next ih => exact ⟨trivial, ih⟩

theorem Ensures.and {Q' : Cmd → Prop} {post post' : α → Prop} {p : Prog Cmd Res α}
    (h : p.Ensures Q post) (h' : p.Ensures Q' post') :
    p.Ensures (fun c => Q c ∧ Q' c) fun a => post a ∧ post' a := by
  induction p with
  | pure a => exact ⟨h, h'⟩
  | call c next ih => exact ⟨⟨h.1, h'.1⟩, fun r => ih r (h.2 r) (h'.2 r)⟩

/-- What holds behind every run of a program holds, since there is a run. -/
theorem Ensures.of_const [∀ c, Nonempty (Res c)] {P : Prop} {p : Prog Cmd Res α}
    (h : p.Ensures Q fun _ => P) : P := by
  induction p with
  | pure a => exact h
  | call c next ih =>
      obtain ⟨r⟩ : Nonempty (Res c) := inferInstance
      exact ih r (h.2 r)

end

/-! ## Devices that allow every call -/

/-- Run a program on a device that answers every call. -/
def exec (answer : (c : Cmd) → σ → Res c × σ) : Prog Cmd Res α → σ → α × σ
  | .pure a, s => (a, s)
  | .call c next, s => (next (answer c s).1).exec answer (answer c s).2

theorem exec_bind (answer : (c : Cmd) → σ → Res c × σ) (p : Prog Cmd Res α)
    (f : α → Prog Cmd Res β) (s : σ) :
    (p >>= f).exec answer s = (f (p.exec answer s).1).exec answer (p.exec answer s).2 := by
  change (p.bind f).exec answer s = _
  induction p generalizing s with
  | pure a => rfl
  | call c next ih => exact ih (answer c s).1 (answer c s).2

end Prog

end LibnklabsPico.Foundation
