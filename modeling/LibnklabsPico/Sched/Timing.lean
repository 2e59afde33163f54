/-
  Sched/Timing.lean --- how early the main loop may call a task.

  A timed run has a clock that counts microseconds and never wraps; the
  critical sections only see its low 32 bits (`timer_hw->timerawl`).  The run
  remembers when each pending task was submitted and with which delay.
-/
import LibnklabsPico.Sched.Table

set_option autoImplicit false

namespace LibnklabsPico.Sched

open LibnklabsPico.Foundation

variable {Func Data : Type} {items : Nat}

/-- `nk_get_time` when the clock shows `time`. -/
def nkGetTime (time : Nat) : Nat := u32 time

/-- The clock value a critical section reads, if it reads the clock. -/
def Call.reads : Call Func Data → Option Nat
  | .sched now _ _ _ _ => some now
  | .resched now _ _ _ _ => some now
  | .unsched _ => none
  | .check _ => none
  | .loop now => some now

/-- A submission: the time it was made and the delay it asked for, in
milliseconds. -/
structure Submission where
  time : Nat
  delay : Nat

/-- The submissions behind the pending tasks after a critical section at `time`. -/
def submitted (time : Nat) (subs : Int → Option Submission) :
    Call Func Data → Outcome Func Data → Int → Option Submission
  | .sched _ tid _ _ delay, .returned _ => Function.update subs tid (some ⟨time, delay⟩)
  | .resched _ tid _ _ delay, .returned rtn =>
      if rtn = 1 then Function.update subs tid (some ⟨time, delay⟩) else subs
  | .unsched tid, _ => Function.update subs tid none
  | .loop _, .run tid _ _ => Function.update subs tid none
  | _, _ => subs

/-- Runs from `nk_init_sched` with the time and the submissions behind the
pending tasks. -/
inductive TimedRun : WorkQueue Func Data items → Nat → (Int → Option Submission) → Prop where
  | init (s : WorkQueue Func Data items) (time : Nat) :
      TimedRun (nkInitSched s) time fun _ => none
  | elapse {s : WorkQueue Func Data items} {time : Nat} {subs : Int → Option Submission}
      (later : Nat) (before : TimedRun s time subs) (ordered : time ≤ later) :
      TimedRun s later subs
  | step {s s' : WorkQueue Func Data items} {time : Nat} {subs : Int → Option Submission}
      {outcome : Outcome Func Data} (call : Call Func Data) (before : TimedRun s time subs)
      (clock : ∀ now ∈ call.reads, now = nkGetTime time)
      (done : step call s = some (outcome, s')) :
      TimedRun s' time (submitted time subs call outcome)

/-- Ticks of the clock in a delay of so many milliseconds. -/
def delayTicks (delay : Nat) : Nat := delay * (nkTimeCountsPerSecond / 1000)

/-- In every run, when the main loop calls a task there is a submission behind
it, and if that asked for `delay` milliseconds then these have gone by. -/
def NeverEarly (Func Data : Type) (items delay : Nat) : Prop :=
  ∀ (s s' : WorkQueue Func Data items) (time : Nat) (subs : Int → Option Submission)
    (tid : Int) (func : Func) (data : Data), TimedRun s time subs →
    step (.loop (nkGetTime time)) s = some (.run tid func data, s') →
    ∃ sub, subs tid = some sub ∧
      (sub.delay = delay → sub.time + delayTicks delay ≤ time)

/-! ## The due times of the pending jobs -/

/-- Behind every pending job there is a submission, and the job is due at the
wrapped sum of its time and its converted delay. -/
def Timed (table : Table Func Data) (time : Nat) (subs : Int → Option Submission) : Prop :=
  ∀ tid job, table tid = some job → ∃ sub, subs tid = some sub ∧ sub.time ≤ time ∧
    job.when = u32 (nkGetTime sub.time + nkConvertDelay sub.delay)

namespace Timed

variable {table : Table Func Data} {time : Nat} {subs : Int → Option Submission}

theorem elapse (h : Timed table time subs) {later : Nat} (hle : time ≤ later) :
    Timed table later subs := by
  intro tid job hjob
  obtain ⟨sub, hsub, htime, hwhen⟩ := h tid job hjob
  exact ⟨sub, hsub, Nat.le_trans htime hle, hwhen⟩

theorem submit (h : Timed table time subs) (tid : Int) (func : Func) (data : Data)
    (delay : Nat) :
    Timed (Function.update table tid
        (some ⟨tid, func, data, u32 (nkGetTime time + nkConvertDelay delay)⟩)) time
      (Function.update subs tid (some ⟨time, delay⟩)) := by
  intro t job hjob
  by_cases ht : t = tid
  · subst ht
    rw [Function.update_self, Option.some_inj] at hjob
    subst hjob
    exact ⟨⟨time, delay⟩, Function.update_self .., Nat.le_refl time, rfl⟩
  · rw [Function.update_of_ne ht] at hjob ⊢
    exact h t job hjob

theorem remove (h : Timed table time subs) (tid : Int) :
    Timed (Function.update table tid none) time (Function.update subs tid none) := by
  intro t job hjob
  by_cases ht : t = tid
  · subst ht
    rw [Function.update_self] at hjob
    exact absurd hjob (by simp)
  · rw [Function.update_of_ne ht] at hjob ⊢
    exact h t job hjob

/-- A task that is not pending has no submission that matters. -/
theorem forget (h : Timed table time subs) {tid : Int} (habsent : table tid = none) :
    Timed table time (Function.update subs tid none) := by
  have hremove := h.remove tid
  rwa [← habsent, Function.update_eq_self] at hremove

/-- One critical section keeps the due times. -/
theorem step {table' : Table Func Data} {room : Prop} {call : Call Func Data}
    {outcome : Outcome Func Data} (h : Timed table time subs)
    (hclock : ∀ now ∈ call.reads, now = nkGetTime time)
    (heffect : Effect room table call outcome table') :
    Timed table' time (submitted time subs call outcome) := by
  cases heffect with
  | replaced now tid func data delay pending =>
      rw [hclock now rfl]
      exact h.submit tid func data delay
  | added now tid func data delay absent free =>
      rw [hclock now rfl]
      exact h.submit tid func data delay
  | tooMany now tid func data delay absent full => exact h
  | rescheduled now tid func data delay pending =>
      rw [hclock now rfl]
      exact h.submit tid func data delay
  | notRescheduled now tid func data delay absent => exact h
  | unscheduled tid pending => exact h.remove tid
  | notUnscheduled tid absent => exact h.forget absent
  | present tid pending => exact h
  | missing tid absent => exact h
  | dispatched now job pending due => exact h.remove job.tid
  | waited now => exact h

end Timed

theorem TimedRun.reachable {s : WorkQueue Func Data items} {time : Nat}
    {subs : Int → Option Submission} (h : TimedRun s time subs) : Reachable s := by
  induction h with
  | init s time => exact .init s
  | elapse later _ _ ih => exact ih
  | step call _ _ done ih => exact .step call ih done

theorem TimedRun.timed {s : WorkQueue Func Data items} {time : Nat}
    {subs : Int → Option Submission} (h : TimedRun s time subs) :
    Timed s.table time subs := by
  induction h with
  | init s time =>
      intro tid job hjob
      rw [nkInitSched_table] at hjob
      exact absurd hjob (by simp)
  | elapse later _ ordered ih => exact ih.elapse ordered
  | step call before clock done ih => exact ih.step clock (before.reachable.effect done)

/-! ## Delays that the comparison of due times can tell -/

/-- A due job was submitted long enough ago when its delay is at most half the
range of the clock. -/
theorem elapsed_of_due {sent time delay : Nat} (hsent : sent ≤ time)
    (hdelay : delayTicks delay ≤ 2 ^ 31)
    (hdue : 0 ≤ int32 ((nkGetTime time : Int) -
      (u32 (nkGetTime sent + nkConvertDelay delay) : Nat))) :
    sent + delayTicks delay ≤ time := by
  simp only [int32, nkGetTime, nkConvertDelay, delayTicks, nkTimeCountsPerSecond, u32] at *
  omega

/-- After a longer delay the job is due while some of the delay is left. -/
theorem exists_due_early {delay : Nat} (hdelay : 2 ^ 31 < delayTicks delay) :
    ∃ time < delayTicks delay, 0 ≤ int32 ((nkGetTime time : Int) -
      (u32 (nkGetTime 0 + nkConvertDelay delay) : Nat)) := by
  simp only [int32, nkGetTime, nkConvertDelay, delayTicks, nkTimeCountsPerSecond, u32,
    Nat.reduceDiv, Nat.zero_mod, Nat.zero_add, Nat.mod_mod] at *
  have hlt : delay * 1000 % 2 ^ 32 < 2 ^ 32 := Nat.mod_lt _ (by decide)
  generalize delay * 1000 % 2 ^ 32 = ticks at hlt ⊢
  by_cases hwrapped : 2 ^ 31 < ticks
  · exact ⟨0, by omega, by omega⟩
  · exact ⟨ticks, by omega, by omega⟩

/-- A delay of at most half the range of the clock is never cut short. -/
theorem neverEarly_of_le {delay : Nat} (hdelay : delayTicks delay ≤ 2 ^ 31) :
    NeverEarly Func Data items delay := by
  intro s s' time subs tid func data hrun hstep
  have heffect := hrun.reachable.effect hstep
  generalize s'.table = table' at heffect
  cases heffect with
  | dispatched now job pending due =>
      obtain ⟨sub, hsub, htime, hwhen⟩ := hrun.timed job.tid job pending
      refine ⟨sub, hsub, ?_⟩
      rintro rfl
      exact elapsed_of_due htime hdelay (hwhen ▸ due)

/-! ## Longer delays -/

/-- A task submitted to an empty queue is called by the first pass of the main
loop that finds it due. -/
theorem exists_run_alone (init : WorkQueue Func Data (items + 1)) (tid : Int) (func : Func)
    (data : Data) (delay time : Nat)
    (hdue : 0 ≤ int32 ((nkGetTime time : Int) -
      (u32 (nkGetTime 0 + nkConvertDelay delay) : Nat))) :
    ∃ s s' : WorkQueue Func Data (items + 1),
      TimedRun s time (Function.update (fun _ => none) tid (some ⟨0, delay⟩)) ∧
      step (.loop (nkGetTime time)) s = some (.run tid func data, s') := by
  obtain ⟨spare, rep⟩ := nkInitSched_rep init
  obtain ⟨outcome, s, hsched, hcases⟩ := nkSched_spec rep (nkGetTime 0) tid func data delay
  have hspare : spare ≠ [] := by
    have hlength := rep.cells.length_eq
    rintro rfl
    simp at hlength
  rcases hcases with ⟨l₁, x, l₂, hsplit, -⟩ |
    ⟨-, ⟨i, spare', -, rfl, hplaced⟩ | ⟨hempty, -⟩⟩
  · exact absurd hsplit.symm (by simp)
  · have hrun : TimedRun s time (Function.update (fun _ => none) tid (some ⟨0, delay⟩)) := by
      refine .elapse time ?_ (Nat.zero_le time)
      exact .step (.sched (nkGetTime 0) tid func data delay) (.init init 0)
        (by simp [Call.reads]) hsched
    have hqueue : Rep s [i] spare' := hplaced.rep
    have hjob : s.job i = ⟨tid, func, data, u32 (nkGetTime 0 + nkConvertDelay delay)⟩ := by
      rw [hplaced.job, Function.update_self]
    obtain ⟨outcome, s', hloop, hcases⟩ := nkSchedLoop_spec hqueue (nkGetTime time)
    rcases hcases with ⟨y, l, heq, -, rfl, -⟩ | ⟨hnot, -⟩
    · obtain ⟨rfl, -⟩ := List.cons.inj heq
      rw [hjob] at hloop
      exact ⟨s, s', hrun, hloop⟩
    · have hlate := hnot i [] rfl
      rw [hjob] at hlate
      exact absurd hdue (Int.not_le.mpr hlate)
  · exact absurd hempty hspare

/-- A longer delay is cut short in some run. -/
theorem le_of_neverEarly [Inhabited Func] [Inhabited Data] {delay : Nat}
    (h : NeverEarly Func Data (items + 1) delay) : delayTicks delay ≤ 2 ^ 31 := by
  by_contra hlong
  obtain ⟨time, hearly, hdue⟩ := exists_due_early (Nat.lt_of_not_le hlong)
  obtain ⟨s, s', hrun, hloop⟩ := exists_run_alone
    (⟨fun _ => ⟨none, none, 0, default, default, 0⟩, none, 0⟩ : WorkQueue Func Data (items + 1))
    0 default default delay time hdue
  obtain ⟨sub, hsub, helapsed⟩ := h s s' time _ 0 default default hrun hloop
  rw [Function.update_self, Option.some_inj] at hsub
  subst hsub
  have := helapsed rfl
  omega

/-- The main loop never calls a task early exactly for the delays of at most
`2 ^ 31` ticks, which is 2147483 milliseconds. -/
theorem neverEarly_iff [Inhabited Func] [Inhabited Data] (delay : Nat) :
    NeverEarly Func Data (items + 1) delay ↔ delayTicks delay ≤ 2 ^ 31 :=
  ⟨le_of_neverEarly, neverEarly_of_le⟩

/-- A delay of 2147484 milliseconds, about 36 minutes, is no delay at all. -/
theorem not_neverEarly_long : ¬ NeverEarly Unit Unit 1 2147484 := by
  intro h
  exact absurd (le_of_neverEarly h) (by decide)

end LibnklabsPico.Sched
