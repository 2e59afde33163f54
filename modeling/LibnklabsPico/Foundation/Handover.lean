/-
  Foundation/Handover.lean --- messages handed over one at a time.

  One side repeats message `taken` until it is acknowledged; the other side accepts each
  message once and acknowledges it again when it comes again.  Neither messages nor
  acknowledgements have to be numbered: the line between the two sides carries one thing
  at a time, and whatever it carries may be lost.  What is shown when a message is
  accepted is shown in the order of the messages, once for each.
-/
import LibnklabsPico.Foundation.Refine

set_option autoImplicit false

namespace LibnklabsPico.Foundation

/-- What the line carries. -/
inductive Line where
  | quiet
  | message (number : Nat)
  /-- a request to send -/
  | request
  | ack

/-- Both sides: how many messages have been acknowledged and how many accepted. -/
structure Handover where
  taken : Nat
  accepted : Nat
  line : Line

namespace Handover

variable {ε : Type}

/-- One step, and what is shown in it. -/
inductive Step (out : Nat → List ε) : Handover → List ε → Handover → Prop where
  /-- whatever the line carries is lost, or nobody answers it -/
  | lose (taken accepted : Nat) (line : Line) :
      Step out ⟨taken, accepted, line⟩ [] ⟨taken, accepted, .quiet⟩
  /-- the other side asks for a message, in place of what the line carries -/
  | ask (taken accepted : Nat) (line : Line) :
      Step out ⟨taken, accepted, line⟩ [] ⟨taken, accepted, .request⟩
  | send (taken accepted : Nat) :
      Step out ⟨taken, accepted, .request⟩ [] ⟨taken, accepted, .message taken⟩
  | accept (taken accepted : Nat) :
      Step out ⟨taken, accepted, .message accepted⟩ (out accepted) ⟨taken, accepted + 1, .ack⟩
  | again (taken number : Nat) :
      Step out ⟨taken, number + 1, .message number⟩ [] ⟨taken, number + 1, .ack⟩
  /-- the acknowledgement arrives, and the next message is sent -/
  | next (taken accepted : Nat) :
      Step out ⟨taken, accepted, .ack⟩ [] ⟨taken + 1, accepted, .message (taken + 1)⟩
  /-- the next message has to be asked for -/
  | wait (taken accepted : Nat) :
      Step out ⟨taken, accepted, .ack⟩ [] ⟨taken + 1, accepted, .quiet⟩
  | asked (taken accepted : Nat) :
      Step out ⟨taken, accepted, .ack⟩ [] ⟨taken + 1, accepted, .request⟩

/-- Both sides from the start. -/
def system (out : Nat → List ε) : System Handover (List ε) :=
  { init := fun s => s.taken = 0 ∧ s.accepted = 0 ∧ (s.line = .quiet ∨ s.line = .request)
    step := Step out }

/-- The sides are at most one message apart, and the line agrees with both of them. -/
structure Agree (s : Handover) : Prop where
  le : s.taken ≤ s.accepted
  lt : s.accepted ≤ s.taken + 1
  message : ∀ number, s.line = .message number → number = s.taken
  ack : s.line = .ack → s.accepted = s.taken + 1

variable {out : Nat → List ε} {s s' : Handover} {shown : List ε}

theorem Step.agree (step : Step out s shown s') (agree : s.Agree) : s'.Agree := by
  cases step with
  | lose taken accepted line =>
      exact ⟨agree.le, agree.lt, fun _ h => (by cases h), fun h => by cases h⟩
  | ask taken accepted line =>
      exact ⟨agree.le, agree.lt, fun _ h => (by cases h), fun h => by cases h⟩
  | send taken accepted =>
      refine ⟨agree.le, agree.lt, fun number h => ?_, fun h => by cases h⟩
      cases h
      rfl
  | accept taken accepted =>
      have heq : accepted = taken := agree.message accepted rfl
      subst heq
      exact ⟨Nat.le_succ _, Nat.le_refl _, fun _ h => (by cases h), fun _ => rfl⟩
  | again taken number =>
      have heq : number = taken := agree.message number rfl
      subst heq
      exact ⟨agree.le, agree.lt, fun _ h => (by cases h), fun _ => rfl⟩
  | next taken accepted =>
      have heq : accepted = taken + 1 := agree.ack rfl
      subst heq
      refine ⟨Nat.le_refl _, Nat.le_succ _, fun number h => ?_, fun h => by cases h⟩
      cases h
      rfl
  | wait taken accepted =>
      have heq : accepted = taken + 1 := agree.ack rfl
      subst heq
      exact ⟨Nat.le_refl _, Nat.le_succ _, fun _ h => (by cases h), fun h => by cases h⟩
  | asked taken accepted =>
      have heq : accepted = taken + 1 := agree.ack rfl
      subst heq
      exact ⟨Nat.le_refl _, Nat.le_succ _, fun _ h => (by cases h), fun h => by cases h⟩

/-- A step shows what accepting a message shows, or nothing. -/
theorem Step.accepts (step : Step out s shown s') :
    shown = [] ∧ s'.accepted = s.accepted ∨
      shown = out s.accepted ∧ s'.accepted = s.accepted + 1 := by
  cases step with
  | accept taken accepted => exact Or.inr ⟨rfl, rfl⟩
  | _ => exact Or.inl ⟨rfl, rfl⟩

/-- Every message that has been accepted is shown once, in order. -/
theorem run_shows {events : List (List ε)} (run : (system out).Run events s) :
    events.flatten = (List.range s.accepted).flatMap out := by
  induction run with
  | start init =>
      rw [init.2.1]
      rfl
  | next _ step ih =>
      rw [List.flatten_append, List.flatten_singleton, ih]
      rcases step.accepts with ⟨hshown, haccepted⟩ | ⟨hshown, haccepted⟩
      · rw [hshown, haccepted, List.append_nil]
      · rw [hshown, haccepted, List.range_succ, List.flatMap_append, List.flatMap_singleton]

end Handover

end LibnklabsPico.Foundation
