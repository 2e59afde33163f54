/-
  Foundation/Refine.lean --- one system does what another one allows.

  The steps of a system show events.  When every step of the lower system is matched by
  a step of the higher one with the same event, the higher system allows every sequence
  of events that the lower one shows.
-/
import Mathlib.Tactic.Common

set_option autoImplicit false

namespace LibnklabsPico.Foundation

/-- A system with states `σ`, whose steps show events `ε`. -/
structure System (σ ε : Type) where
  init : σ → Prop
  step : σ → ε → σ → Prop

namespace System

variable {σ τ ε : Type}

/-- The events of a run, the last one at the end, and the state it leads to. -/
inductive Run (sys : System σ ε) : List ε → σ → Prop where
  | start {s : σ} (init : sys.init s) : Run sys [] s
  | next {events : List ε} {s s' : σ} {e : ε} (run : Run sys events s) (step : sys.step s e s') :
      Run sys (events ++ [e]) s'

/-- The higher system matches every step of the lower one, and the states stay related. -/
structure Simulates (low : System σ ε) (high : System τ ε) (R : σ → τ → Prop) : Prop where
  init : ∀ s, low.init s → ∃ t, high.init t ∧ R s t
  step : ∀ s e s' t, R s t → low.step s e s' → ∃ t', high.step t e t' ∧ R s' t'

/-- The higher system has a run with the same events. -/
theorem Simulates.run {low : System σ ε} {high : System τ ε} {R : σ → τ → Prop}
    (sim : Simulates low high R) {events : List ε} {s : σ} (hrun : low.Run events s) :
    ∃ t, high.Run events t ∧ R s t := by
  induction hrun with
  | start hinit =>
      obtain ⟨t, hhigh, hrel⟩ := sim.init _ hinit
      exact ⟨t, .start hhigh, hrel⟩
  | next _ hstep ih =>
      obtain ⟨t, hhigh, hrel⟩ := ih
      obtain ⟨t', hmatch, hrel'⟩ := sim.step _ _ _ t hrel hstep
      exact ⟨t', .next hhigh hmatch, hrel'⟩

end System

end LibnklabsPico.Foundation
