/-
  Sched/Agenda.lean --- the work queue as a list of jobs.

  An agenda is what the scheduler is for: the pending jobs, earliest first, with
  neither cells nor links.  `Agenda.step` says for every call what it answers and
  which jobs are pending afterwards; `step_agenda` shows that a well-formed work
  queue does exactly this, from any critical section.
-/
import LibnklabsPico.Sched.Invariant

set_option autoImplicit false

namespace LibnklabsPico.Sched

open LibnklabsPico.Foundation

variable {Func Data : Type} {items : Nat}

/-- The pending jobs, earliest first. -/
abbrev Agenda (Func Data : Type) := List (Job Func Data)

namespace Agenda

/-- A job goes behind all jobs due no later than it. -/
def insert (agenda : Agenda Func Data) (job : Job Func Data) : Agenda Func Data :=
  (agenda.takeWhile fun old => !WorkQueue.ahead old job.when) ++
    job :: agenda.dropWhile fun old => !WorkQueue.ahead old job.when

/-- Some job of the task is pending. -/
def has (agenda : Agenda Func Data) (tid : Int) : Bool :=
  agenda.any fun job => job.tid == tid

/-- The agenda without the job of the task. -/
def without (agenda : Agenda Func Data) (tid : Int) : Agenda Func Data :=
  agenda.filter fun job => job.tid != tid

/-- What each call answers and what it makes of an agenda with room for `items`
jobs.

A submission replaces the pending job of its task; a new task needs room.  The
main loop takes the first job as soon as it is due and waits otherwise. -/
def step (items : Nat) (agenda : Agenda Func Data) :
    Call Func Data → Outcome Func Data × Agenda Func Data
  | .sched now tid func data delay =>
      let job : Job Func Data := ⟨tid, func, data, u32 (now + nkConvertDelay delay)⟩
      if agenda.has tid then (.returned 0, (agenda.without tid).insert job)
      else if agenda.length < items then (.returned 1, agenda.insert job)
      else (.tooMany 1, agenda)
  | .resched now tid func data delay =>
      let job : Job Func Data := ⟨tid, func, data, u32 (now + nkConvertDelay delay)⟩
      if agenda.has tid then (.returned 1, (agenda.without tid).insert job)
      else (.returned 0, agenda)
  | .unsched tid =>
      if agenda.has tid then (.returned 1, agenda.without tid) else (.returned 0, agenda)
  | .check tid => (.returned (if agenda.has tid then 1 else 0), agenda)
  | .loop now =>
      match agenda with
      | [] => (.wait, [])
      | job :: rest =>
          if 0 ≤ int32 ((now : Int) - (job.when : Int)) then
            (.run job.tid job.func job.data, rest)
          else (.wait, job :: rest)

theorem has_eq_false {agenda : Agenda Func Data} {tid : Int}
    (hnone : ∀ job ∈ agenda, job.tid ≠ tid) : agenda.has tid = false := by
  simpa [has] using hnone

theorem has_middle (l₁ l₂ : Agenda Func Data) (job : Job Func Data) :
    has (l₁ ++ job :: l₂) job.tid = true := by
  simp [has]

/-- Of the jobs of an agenda with distinct task ids, `without` drops one. -/
theorem without_middle {l₁ l₂ : Agenda Func Data} {job : Job Func Data}
    (htids : ((l₁ ++ job :: l₂).map Job.tid).Nodup) :
    without (l₁ ++ job :: l₂) job.tid = l₁ ++ l₂ := by
  rw [(List.perm_middle.map _).nodup_iff, List.map_cons, List.nodup_cons] at htids
  have hother : ∀ old ∈ l₁ ++ l₂, (old.tid != job.tid) = true := by
    intro old hold
    rw [bne_iff_ne]
    intro heq
    exact htids.1 (heq ▸ List.mem_map_of_mem hold)
  rw [without, List.filter_append, List.filter_cons_of_neg (by simp), ← List.filter_append]
  exact List.filter_eq_self.mpr hother

end Agenda

/-- The agenda of a work queue. -/
def WorkQueue.agenda (s : WorkQueue Func Data items) : Agenda Func Data :=
  s.pending.map s.job

section Refinement

variable {s s' : WorkQueue Func Data items} {queued spare : List Nat}

theorem Rep.agenda_eq (rep : Rep s queued spare) : s.agenda = queued.map s.job := by
  rw [WorkQueue.agenda, rep.pending_eq]

theorem Rep.agenda_tids (rep : Rep s queued spare) : (s.agenda.map Job.tid).Nodup := by
  rw [rep.agenda_eq, List.map_map]
  exact rep.tids

/-- A task that no queued cell holds is not on the agenda. -/
theorem Rep.has_eq_false (rep : Rep s queued spare) {tid : Int}
    (hnone : ∀ i ∈ queued, (s.job i).tid ≠ tid) : s.agenda.has tid = false := by
  refine Agenda.has_eq_false fun job hjob => ?_
  rw [rep.agenda_eq] at hjob
  obtain ⟨i, hi, rfl⟩ := List.mem_map.mp hjob
  exact hnone i hi

/-- A task that a queued cell holds is on the agenda, and without it the agenda
lists the other cells. -/
theorem Rep.has_split (rep : Rep s queued spare) {l₁ l₂ : List Nat} {x : Nat} {tid : Int}
    (hsplit : queued = l₁ ++ x :: l₂) (htid : (s.job x).tid = tid) :
    s.agenda.has tid = true ∧ s.agenda.without tid = (l₁ ++ l₂).map s.job := by
  subst htid
  have htids := rep.agenda_tids
  rw [rep.agenda_eq, hsplit, List.map_append, List.map_cons] at htids ⊢
  refine ⟨Agenda.has_middle _ _ _, ?_⟩
  rw [Agenda.without_middle htids, List.map_append]

/-- There is room on the agenda as long as a cell is free. -/
theorem Rep.agenda_length (rep : Rep s queued spare) :
    s.agenda.length + spare.length = items := by
  have := rep.cells.length_eq
  rwa [List.length_append, List.length_range', ← List.length_map s.job, ← rep.agenda_eq]
    at this

/-- A placed job stands on the agenda where `Agenda.insert` puts it. -/
theorem Placed.agenda_eq {l : List Nat} {x : Nat} {job : Job Func Data}
    (placed : Placed s s' x l spare job) (hfresh : x ∉ l) :
    s'.agenda = Agenda.insert (l.map s.job) job := by
  rw [placed.rep.agenda_eq, placed.job, WorkQueue.insertAhead, Agenda.insert,
    List.takeWhile_map, List.dropWhile_map, List.map_append, List.map_cons,
    Function.update_self]
  have hold : ∀ part : List Nat, part.Sublist l →
      part.map (Function.update s.job x job) = part.map s.job := by
    intro part hsub
    refine List.map_congr_left fun i hi => Function.update_of_ne ?_ _ _
    rintro rfl
    exact hfresh (hsub.subset hi)
  rw [hold _ (List.takeWhile_sublist _), hold _ (List.dropWhile_sublist _)]
  rfl

theorem Placed.fresh {l : List Nat} {x : Nat} {job : Job Func Data}
    (placed : Placed s s' x l spare job) : x ∉ l := by
  have hnodup := (List.nodup_append.mp placed.rep.nodup).1
  rw [(WorkQueue.insertAhead_perm s.job job.when x l).nodup_iff] at hnodup
  exact (List.nodup_cons.mp hnodup).1

/-- A well-formed work queue does what its agenda says, one critical section
after the other. -/
theorem step_agenda (rep : Rep s queued spare) (call : Call Func Data) :
    ∃ s', step call s = some ((s.agenda.step items call).1, s') ∧
      s'.agenda = (s.agenda.step items call).2 := by
  cases call with
  | sched now tid func data delay =>
      obtain ⟨outcome, s', hstep, hcases⟩ := nkSched_spec rep now tid func data delay
      refine ⟨s', ?_⟩
      rcases hcases with ⟨l₁, x, l₂, hsplit, htid, rfl, hplaced⟩ |
        ⟨hnone, ⟨i, spare', rfl, rfl, hplaced⟩ | ⟨rfl, rfl, rfl⟩⟩
      · obtain ⟨hhas, hwithout⟩ := rep.has_split hsplit htid
        refine ⟨hstep.trans (by simp [Agenda.step, hhas]), ?_⟩
        simp [Agenda.step, hhas, hwithout, hplaced.agenda_eq hplaced.fresh]
      · have hhas := rep.has_eq_false hnone
        have hroom : s.agenda.length < items := by
          have := rep.agenda_length
          simp only [List.length_cons] at this
          omega
        have hinsert := hplaced.agenda_eq hplaced.fresh
        rw [← rep.agenda_eq] at hinsert
        refine ⟨hstep.trans (by simp [Agenda.step, hhas, hroom]), ?_⟩
        simp [Agenda.step, hhas, hroom, hinsert]
      · have hhas := rep.has_eq_false hnone
        have hfull : ¬ s'.agenda.length < items := by
          have := rep.agenda_length
          simp only [List.length_nil] at this
          omega
        exact ⟨hstep.trans (by simp [Agenda.step, hhas, hfull]),
          by simp [Agenda.step, hhas, hfull]⟩
  | resched now tid func data delay =>
      obtain ⟨outcome, s', hstep, hcases⟩ := nkResched_spec rep now tid func data delay
      refine ⟨s', ?_⟩
      rcases hcases with ⟨l₁, x, l₂, hsplit, htid, rfl, hplaced⟩ | ⟨hnone, rfl, rfl⟩
      · obtain ⟨hhas, hwithout⟩ := rep.has_split hsplit htid
        refine ⟨hstep.trans (by simp [Agenda.step, hhas]), ?_⟩
        simp [Agenda.step, hhas, hwithout, hplaced.agenda_eq hplaced.fresh]
      · have hhas := rep.has_eq_false hnone
        exact ⟨hstep.trans (by simp [Agenda.step, hhas]), by simp [Agenda.step, hhas]⟩
  | unsched tid =>
      obtain ⟨outcome, s', hstep, hcases⟩ := nkUnsched_spec rep tid
      refine ⟨s', ?_⟩
      rcases hcases with ⟨l₁, x, l₂, hsplit, htid, rfl, hrep, hjob⟩ | ⟨hnone, rfl, rfl⟩
      · obtain ⟨hhas, hwithout⟩ := rep.has_split hsplit htid
        refine ⟨hstep.trans (by simp [Agenda.step, hhas]), ?_⟩
        simp [Agenda.step, hhas, hwithout, hrep.agenda_eq, hjob]
      · have hhas := rep.has_eq_false hnone
        exact ⟨hstep.trans (by simp [Agenda.step, hhas]), by simp [Agenda.step, hhas]⟩
  | check tid =>
      obtain ⟨rtn, hstep, hcases⟩ := nkCheck_spec rep tid
      refine ⟨s, ?_, rfl⟩
      rcases hcases with ⟨rfl, i, hi, htid⟩ | ⟨rfl, hnone⟩
      · obtain ⟨l₁, l₂, hsplit⟩ := List.append_of_mem hi
        have hhas := (rep.has_split hsplit htid).1
        exact hstep.trans (by simp [Agenda.step, hhas])
      · have hhas := rep.has_eq_false hnone
        exact hstep.trans (by simp [Agenda.step, hhas])
  | loop now =>
      obtain ⟨outcome, s', hstep, hcases⟩ := nkSchedLoop_spec rep now
      refine ⟨s', ?_⟩
      rcases hcases with ⟨x, l, rfl, hdue, rfl, hrep, hjob⟩ | ⟨hundue, rfl, rfl⟩
      · have hagenda : s.agenda = s.job x :: l.map s.job := by
          rw [rep.agenda_eq, List.map_cons]
        refine ⟨hstep.trans (by simp [hagenda, Agenda.step, hdue]), ?_⟩
        simp [hagenda, Agenda.step, hdue, hrep.agenda_eq, hjob]
      · cases queued with
        | nil =>
            have hagenda : s'.agenda = [] := by rw [rep.agenda_eq, List.map_nil]
            exact ⟨hstep.trans (by simp [hagenda, Agenda.step]),
              by simp [hagenda, Agenda.step]⟩
        | cons x l =>
            have hagenda : s'.agenda = s'.job x :: l.map s'.job := by
              rw [rep.agenda_eq, List.map_cons]
            have hnot : ¬ 0 ≤ int32 ((now : Int) - ((s'.job x).when : Int)) :=
              Int.not_le.mpr (hundue x l rfl)
            exact ⟨hstep.trans (by simp [hagenda, Agenda.step, hnot]),
              by simp [hagenda, Agenda.step, hnot]⟩

end Refinement

end LibnklabsPico.Sched
