/-
  Foundation/Alike.lean --- programs that make the same calls.

  `Alike h post p q s` says that two programs, from the state `s` of a device, make the same
  calls, get the same answers and end with the same result.  For a program whose loops run
  on fuel, `Settles` says that more fuel changes nothing: a loop that fuel cuts short would
  make more calls with more of it.
-/
import LibnklabsPico.Foundation.Prog

set_option autoImplicit false

namespace LibnklabsPico.Foundation

namespace Prog

variable {Cmd : Type} {Res : Cmd → Type} {α β σ τ : Type} {h : Handler Cmd Res σ}

/-- The two programs make the same calls from a state, and end with a result and in a state
that satisfy `post`. -/
inductive Alike (h : Handler Cmd Res σ) (post : α → σ → Prop) :
    Prog Cmd Res α → Prog Cmd Res α → σ → Prop where
  | pure {a : α} {s : σ} (hpost : post a s) : Alike h post (.pure a) (.pure a) s
  | call {c : Cmd} {next next' : Res c → Prog Cmd Res α} {s s' : σ} {r : Res c}
      (answer : h c s = some (r, s')) (rest : Alike h post (next r) (next' r) s') :
      Alike h post (.call c next) (.call c next') s

namespace Alike

variable {post post' mid : α → σ → Prop} {last : β → σ → Prop} {s s' : σ}

protected theorem bind {p q : Prog Cmd Res α} {f g : α → Prog Cmd Res β}
    (hp : Alike h mid p q s) (hf : ∀ a s', mid a s' → Alike h last (f a) (g a) s') :
    Alike h last (p >>= f) (q >>= g) s := by
  induction hp with
  | pure hmid => exact hf _ _ hmid
  | call answer _ ih => exact .call answer ih

protected theorem mono {p q : Prog Cmd Res α} (hp : Alike h post p q s)
    (himp : ∀ a s', post a s' → post' a s') : Alike h post' p q s := by
  induction hp with
  | pure hpost => exact .pure (himp _ _ hpost)
  | call answer _ ih => exact .call answer ih

/-- A program makes the same calls as itself. -/
theorem of_run {p : Prog Cmd Res α} {a : α} (hrun : p.run h s = some (a, s'))
    (hpost : post a s') : Alike h post p p s := by
  induction p generalizing s with
  | pure b =>
      obtain ⟨rfl, rfl⟩ := Prod.mk.inj (Option.some.inj hrun)
      exact .pure hpost
  | call c next ih =>
      rw [run] at hrun
      split at hrun
      · rename_i r s₁ hanswer
        exact .call hanswer (ih r hrun)
      · cases hrun

/-- A device that answers every allowed call of another one in the same way. -/
theorem simulates {h₁ : Handler Cmd Res σ} {h₂ : Handler Cmd Res τ} {R : σ → τ → Prop}
    (hstep : ∀ c s t r t', R s t → h₂ c t = some (r, t') →
      ∃ s', h₁ c s = some (r, s') ∧ R s' t')
    {post : α → τ → Prop} {p q : Prog Cmd Res α} {s : σ} {t : τ} (hrel : R s t)
    (hp : Alike h₂ post p q t) : Alike h₁ (fun a s => ∃ t, R s t ∧ post a t) p q s := by
  induction hp generalizing s with
  | pure hpost => exact .pure ⟨_, hrel, hpost⟩
  | call answer _ ih =>
      obtain ⟨s₁, hcall, hrel₁⟩ := hstep _ _ _ _ _ hrel answer
      exact .call hcall (ih hrel₁)

end Alike

/-! ## The calls that are made -/

/-- A device that writes down the calls. -/
def traced (h : Handler Cmd Res σ) : Handler Cmd Res (σ × List Cmd) :=
  fun c s => (h c s.1).map fun answer => (answer.1, (answer.2, s.2 ++ [c]))

theorem Alike.traced {post : α → σ → Prop} {p q : Prog Cmd Res α} {s : σ}
    (hp : Alike h post p q s) (calls : List Cmd) :
    ∃ a s' calls', post a s' ∧ p.run (Prog.traced h) (s, calls) = some (a, (s', calls')) ∧
      q.run (Prog.traced h) (s, calls) = some (a, (s', calls')) := by
  induction hp generalizing calls with
  | pure hpost => exact ⟨_, _, calls, hpost, rfl, rfl⟩
  | @call c next next' s s' r answer _ ih =>
      obtain ⟨a, s'', calls', hpost, hrun, hrun'⟩ := ih (calls ++ [c])
      have hcall : Prog.traced h c (s, calls) = some (r, (s', calls ++ [c])) := by
        rw [Prog.traced, answer]
        rfl
      refine ⟨a, s'', calls', hpost, ?_, ?_⟩
      · rw [run, hcall]
        exact hrun
      · rw [run, hcall]
        exact hrun'

/-- From `bound` on, more fuel changes neither the calls that are made nor the result. -/
def Settles (h : Handler Cmd Res σ) (p : Nat → Prog Cmd Res α) (bound : Nat) (s : σ) : Prop :=
  ∃ a s' calls, ∀ fuel, bound ≤ fuel →
    (p fuel).run (traced h) (s, []) = some (a, (s', calls))

theorem Settles.of_alike {post : α → σ → Prop} {p : Nat → Prog Cmd Res α} {bound : Nat} {s : σ}
    (halike : ∀ fuel, bound ≤ fuel → Alike h post (p bound) (p fuel) s) :
    Settles h p bound s := by
  obtain ⟨a, s', calls, -, hrun, -⟩ := (halike bound (Nat.le_refl _)).traced []
  refine ⟨a, s', calls, fun fuel hfuel => ?_⟩
  obtain ⟨_, _, _, -, hbound, hmore⟩ := (halike fuel hfuel).traced []
  exact hmore.trans (hbound.symm.trans hrun)

end Prog

end LibnklabsPico.Foundation
