/-
  Sched/ReturnCodes.lean --- what the return codes of `nksched.c` say.

  `Truthful` is the documented meaning of the return code of each critical
  section, stated on the table of pending jobs.  Every return code is truthful
  but one: `nk_sched` of a task that is not pending returns `1` also when the
  pool of items is used up and nothing was submitted.
-/
import LibnklabsPico.Sched.Table
import Mathlib.Logic.Relation

set_option autoImplicit false

namespace LibnklabsPico.Sched

open LibnklabsPico.Foundation

variable {Func Data : Type} {items : Nat}

/-- The value that a critical section returns to its caller, if any. -/
def Outcome.rtn : Outcome Func Data → Option Int
  | .returned rtn => some rtn
  | .tooMany rtn => some rtn
  | .run _ _ _ => none
  | .wait => none

/-- One critical section that neither dispatches nor unschedules task `tid`. -/
inductive Spares (tid : Int) (s s' : WorkQueue Func Data items) : Prop where
  | step (call : Call Func Data) (outcome : Outcome Func Data)
      (done : step call s = some (outcome, s')) (notUnscheduled : call ≠ .unsched tid)
      (notDispatched : ∀ func data, outcome ≠ .run tid func data)

/-- The return code of a critical section entered at `s` tells the truth. -/
def Truthful (call : Call Func Data) (s : WorkQueue Func Data items) : Prop :=
  ∃ outcome s', step call s = some (outcome, s') ∧
    match call with
    | .sched now tid func data delay =>
        (outcome.rtn = some 1 ∨ outcome.rtn = some 0) ∧
        (outcome.rtn = some 1 ↔ s.table tid = none ∧ s'.table =
          Function.update s.table tid
            (some ⟨tid, func, data, u32 (now + nkConvertDelay delay)⟩)) ∧
        (outcome.rtn = some 0 ↔ s.table tid ≠ none ∧ s'.table =
          Function.update s.table tid
            (some ⟨tid, func, data, u32 (now + nkConvertDelay delay)⟩)) ∧
        ∀ later, Relation.ReflTransGen (Spares tid) s' later →
          nkCheck tid later = some (.returned 1, later)
    | .resched now tid func data delay =>
        (outcome.rtn = some 1 ∧ s.table tid ≠ none ∧ s'.table =
          Function.update s.table tid
            (some ⟨tid, func, data, u32 (now + nkConvertDelay delay)⟩)) ∨
        (outcome.rtn = some 0 ∧ s.table tid = none ∧ s'.table = s.table)
    | .unsched tid =>
        (outcome.rtn = some 1 ∧ s.table tid ≠ none ∧
          s'.table = Function.update s.table tid none) ∨
        (outcome.rtn = some 0 ∧ s.table tid = none ∧ s'.table = s.table)
    | .check tid =>
        s'.table = s.table ∧
        ((outcome.rtn = some 1 ∧ s.table tid ≠ none) ∨
          (outcome.rtn = some 0 ∧ s.table tid = none))
    | .loop _ => outcome.rtn = none

/-- A submission finds an item to use: the task is pending already, or the pool
is not used up. -/
def HasItem (call : Call Func Data) (s : WorkQueue Func Data items) : Prop :=
  match call with
  | .sched _ tid _ _ _ => s.table tid ≠ none ∨ s.freelist ≠ none
  | _ => True

/-! ## A pending task stays pending -/

/-- What `nk_check` returns for a pending task. -/
theorem nkCheck_of_pending {s : WorkQueue Func Data items} {tid : Int} (h : Reachable s)
    (hpending : s.table tid ≠ none) : nkCheck tid s = some (.returned 1, s) := by
  obtain ⟨queued, spare, rep⟩ := h.rep
  obtain ⟨rtn, hcheck, ⟨rfl, -⟩ | ⟨-, hnone⟩⟩ := nkCheck_spec rep tid
  · exact hcheck
  · exact absurd ((rep.table_eq_none_iff tid).mpr hnone) hpending

/-- A critical section takes a task out of the table only by dispatching or
unscheduling it. -/
theorem Effect.pending {room : Prop} {table table' : Table Func Data}
    {call : Call Func Data} {outcome : Outcome Func Data} {tid : Int}
    (h : Effect room table call outcome table') (hpending : table tid ≠ none)
    (hunsched : call ≠ .unsched tid) (hrun : ∀ func data, outcome ≠ .run tid func data) :
    table' tid ≠ none := by
  have hupdate : ∀ (t : Int) (job : Option (Job Func Data)), (t = tid → job ≠ none) →
      Function.update table t job tid ≠ none := by
    intro t job hjob
    by_cases ht : tid = t
    · subst ht
      rw [Function.update_self]
      exact hjob rfl
    · rw [Function.update_of_ne ht]
      exact hpending
  cases h with
  | replaced now t func data delay _ => exact hupdate t _ fun _ => Option.some_ne_none _
  | added now t func data delay _ _ => exact hupdate t _ fun _ => Option.some_ne_none _
  | tooMany now t func data delay _ _ => exact hpending
  | rescheduled now t func data delay _ => exact hupdate t _ fun _ => Option.some_ne_none _
  | notRescheduled now t func data delay _ => exact hpending
  | unscheduled t _ => exact hupdate t _ fun ht => absurd (congrArg Call.unsched ht) hunsched
  | notUnscheduled t _ => exact hpending
  | present t _ => exact hpending
  | missing t _ => exact hpending
  | dispatched now job _ _ =>
      refine hupdate job.tid _ fun ht => ?_
      exact absurd (by rw [ht]) (hrun job.func job.data)
  | waited now => exact hpending

theorem Spares.pending {s s' : WorkQueue Func Data items} {tid : Int}
    (h : Spares tid s s') (hreach : Reachable s) (hpending : s.table tid ≠ none) :
    Reachable s' ∧ s'.table tid ≠ none := by
  obtain ⟨call, outcome, done, hunsched, hrun⟩ := h
  exact ⟨.step call hreach done, (hreach.effect done).pending hpending hunsched hrun⟩

/-- A pending task is found by `nk_check` until it is dispatched or unscheduled. -/
theorem nkCheck_until {s later : WorkQueue Func Data items} {tid : Int}
    (hreach : Reachable s) (hpending : s.table tid ≠ none)
    (hrun : Relation.ReflTransGen (Spares tid) s later) :
    nkCheck tid later = some (.returned 1, later) := by
  have hlater : Reachable later ∧ later.table tid ≠ none := by
    induction hrun with
    | refl => exact ⟨hreach, hpending⟩
    | tail _ hspares ih => exact hspares.pending ih.1 ih.2
  exact nkCheck_of_pending hlater.1 hlater.2

/-! ## The return codes -/

/-- A critical section that finds an item to use returns the truth. -/
theorem truthful_of_hasItem {s : WorkQueue Func Data items} (h : Reachable s)
    (call : Call Func Data) (hitem : HasItem call s) : Truthful call s := by
  obtain ⟨outcome, s', hstep, heffect⟩ := h.step_effect call
  have hreach : Reachable s' := .step call h hstep
  refine ⟨outcome, s', hstep, ?_⟩
  generalize htable : s'.table = table' at heffect
  cases heffect with
  | replaced now tid func data delay pending =>
      refine ⟨by simp [Outcome.rtn], by simp [Outcome.rtn, pending],
        by simp [Outcome.rtn, pending], fun later hlater => ?_⟩
      apply nkCheck_until hreach _ hlater
      rw [htable, Function.update_self]
      exact Option.some_ne_none _
  | added now tid func data delay absent free =>
      refine ⟨by simp [Outcome.rtn], by simp [Outcome.rtn, absent],
        by simp [Outcome.rtn, absent], fun later hlater => ?_⟩
      apply nkCheck_until hreach _ hlater
      rw [htable, Function.update_self]
      exact Option.some_ne_none _
  | tooMany now tid func data delay absent full =>
      rcases hitem with hpending | hroom
      · exact absurd absent hpending
      · exact absurd hroom full
  | rescheduled now tid func data delay pending => exact Or.inl ⟨rfl, pending, rfl⟩
  | notRescheduled now tid func data delay absent => exact Or.inr ⟨rfl, absent, rfl⟩
  | unscheduled tid pending => exact Or.inl ⟨rfl, pending, rfl⟩
  | notUnscheduled tid absent => exact Or.inr ⟨rfl, absent, rfl⟩
  | present tid pending => exact ⟨rfl, Or.inl ⟨rfl, pending⟩⟩
  | missing tid absent => exact ⟨rfl, Or.inr ⟨rfl, absent⟩⟩
  | dispatched now job pending due => rfl
  | waited now => rfl

/-- The return code of `nk_sched` lies when no item is left for the task. -/
theorem hasItem_of_truthful {s : WorkQueue Func Data items} (h : Reachable s)
    (call : Call Func Data) (htruthful : Truthful call s) : HasItem call s := by
  obtain ⟨outcome, s', hstep, htells⟩ := htruthful
  have heffect := h.effect hstep
  generalize htable : s'.table = table' at heffect htells
  cases heffect with
  | replaced now tid func data delay pending => exact Or.inl pending
  | added now tid func data delay absent free => exact Or.inr free
  | tooMany now tid func data delay absent full =>
      obtain ⟨-, hone, -⟩ := htells
      have hself := congrFun (hone.mp rfl).2 tid
      rw [absent, Function.update_self] at hself
      exact absurd hself.symm (Option.some_ne_none _)
  | rescheduled => trivial
  | notRescheduled => trivial
  | unscheduled => trivial
  | notUnscheduled => trivial
  | present => trivial
  | missing => trivial
  | dispatched => trivial
  | waited => trivial

/-- In every reachable state a return code tells the truth exactly when the
critical section is not an `nk_sched` of a task that is not pending while the
pool of items is used up. -/
theorem truthful_iff {s : WorkQueue Func Data items} (h : Reachable s)
    (call : Call Func Data) : Truthful call s ↔ HasItem call s :=
  ⟨hasItem_of_truthful h call, truthful_of_hasItem h call⟩

/-- A submission to a pool of one item. -/
theorem truthful_iff_one :
    Truthful (.sched 5 7 1 2 3)
      (nkInitSched ⟨fun _ => ⟨none, none, 0, 0, 0, 0⟩, none, 0⟩ : WorkQueue Nat Nat 1) := by
  have hroom : (nkInitSched (⟨fun _ => ⟨none, none, 0, 0, 0, 0⟩, none, 0⟩ :
      WorkQueue Nat Nat 1)).freelist ≠ none := by decide
  exact (truthful_iff (.init _) (.sched 5 7 1 2 3)).mpr (Or.inr hroom)

/-- With the only item in use for task `7`, `nk_sched` of task `8` returns `1`
although task `8` is not pending afterwards. -/
theorem not_truthful_full :
    ∃ s : WorkQueue Nat Nat 1, Reachable s ∧
      step (.sched 6 8 1 2 3) s = some (.tooMany 1, s) ∧
      nkCheck 8 s = some (.returned 0, s) ∧ ¬ Truthful (.sched 6 8 1 2 3) s := by
  let init : WorkQueue Nat Nat 1 := nkInitSched ⟨fun _ => ⟨none, none, 0, 0, 0, 0⟩, none, 0⟩
  obtain ⟨s, hstep, hfree, htable, hsched, hcheck⟩ : ∃ s : WorkQueue Nat Nat 1,
      step (.sched 5 7 1 2 3) init = some (.returned 1, s) ∧ s.freelist = none ∧
        s.table 8 = none ∧ step (.sched 6 8 1 2 3) s = some (.tooMany 1, s) ∧
        nkCheck 8 s = some (.returned 0, s) := ⟨_, rfl, rfl, rfl, rfl, rfl⟩
  have hreach : Reachable s := .step _ (.init _) hstep
  refine ⟨s, hreach, hsched, hcheck, fun htruthful => ?_⟩
  rcases hasItem_of_truthful hreach _ htruthful with hpending | hroom
  · exact hpending htable
  · exact hroom hfree

end LibnklabsPico.Sched
