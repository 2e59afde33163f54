/-
  Sched/Table.lean --- the work queue as a table of pending jobs.

  To its callers the work queue is a map from task ids to at most one pending
  job each.  `Effect` says what every critical section does to that map, in
  terms of the map alone, and `step_effect` says that the linked queue does
  exactly this.
-/
import LibnklabsPico.Sched.Invariant

set_option autoImplicit false

namespace LibnklabsPico.Sched

open LibnklabsPico.Foundation

variable {Func Data : Type} {items : Nat}

/-- The pending jobs, at most one for a task id. -/
abbrev Table (Func Data : Type) := Int → Option (Job Func Data)

/-- The job that is pending under a task id. -/
def WorkQueue.table (s : WorkQueue Func Data items) : Table Func Data := fun tid =>
  (s.pending.find? fun i => (s.job i).tid == tid).map s.job

/-- What a critical section may do to the pending jobs.  `room` says that the
pool of items is not used up. -/
inductive Effect (room : Prop) (table : Table Func Data) :
    Call Func Data → Outcome Func Data → Table Func Data → Prop where
  | replaced (now : Nat) (tid : Int) (func : Func) (data : Data) (delay : Nat)
      (pending : table tid ≠ none) :
      Effect room table (.sched now tid func data delay) (.returned 0)
        (Function.update table tid
          (some ⟨tid, func, data, u32 (now + nkConvertDelay delay)⟩))
  | added (now : Nat) (tid : Int) (func : Func) (data : Data) (delay : Nat)
      (absent : table tid = none) (free : room) :
      Effect room table (.sched now tid func data delay) (.returned 1)
        (Function.update table tid
          (some ⟨tid, func, data, u32 (now + nkConvertDelay delay)⟩))
  | tooMany (now : Nat) (tid : Int) (func : Func) (data : Data) (delay : Nat)
      (absent : table tid = none) (full : ¬ room) :
      Effect room table (.sched now tid func data delay) (.tooMany 1) table
  | rescheduled (now : Nat) (tid : Int) (func : Func) (data : Data) (delay : Nat)
      (pending : table tid ≠ none) :
      Effect room table (.resched now tid func data delay) (.returned 1)
        (Function.update table tid
          (some ⟨tid, func, data, u32 (now + nkConvertDelay delay)⟩))
  | notRescheduled (now : Nat) (tid : Int) (func : Func) (data : Data) (delay : Nat)
      (absent : table tid = none) :
      Effect room table (.resched now tid func data delay) (.returned 0) table
  | unscheduled (tid : Int) (pending : table tid ≠ none) :
      Effect room table (.unsched tid) (.returned 1) (Function.update table tid none)
  | notUnscheduled (tid : Int) (absent : table tid = none) :
      Effect room table (.unsched tid) (.returned 0) table
  | present (tid : Int) (pending : table tid ≠ none) :
      Effect room table (.check tid) (.returned 1) table
  | missing (tid : Int) (absent : table tid = none) :
      Effect room table (.check tid) (.returned 0) table
  | dispatched (now : Nat) (job : Job Func Data) (pending : table job.tid = some job)
      (due : 0 ≤ int32 ((now : Int) - (job.when : Int))) :
      Effect room table (.loop now) (.run job.tid job.func job.data)
        (Function.update table job.tid none)
  | waited (now : Nat) : Effect room table (.loop now) .wait table

/-! ## The table of a well-formed queue -/

namespace Rep

variable {s : WorkQueue Func Data items} {queued spare : List Nat}

/-- A job is in the table when some cell of the ring holds it. -/
theorem table_eq_some_iff (rep : Rep s queued spare) (tid : Int) (job : Job Func Data) :
    s.table tid = some job ↔ ∃ i ∈ queued, s.job i = job ∧ job.tid = tid := by
  rw [WorkQueue.table, rep.pending_eq, Option.map_eq_some_iff]
  constructor
  · rintro ⟨i, hfind, rfl⟩
    exact ⟨i, List.mem_of_find?_eq_some hfind, rfl, by simpa using List.find?_some hfind⟩
  · rintro ⟨i, hi, rfl, htid⟩
    refine ⟨i, ?_, rfl⟩
    cases hfind : queued.find? fun j => (s.job j).tid == tid with
    | none =>
        have hnone := List.find?_eq_none.mp hfind i hi
        exact absurd (by simpa using htid) hnone
    | some j =>
        have hj : (s.job j).tid = tid := by simpa using List.find?_some hfind
        have hsame : (s.job j).tid = (s.job i).tid := hj.trans htid.symm
        rw [List.inj_on_of_nodup_map rep.tids (List.mem_of_find?_eq_some hfind) hi hsame]

theorem table_eq_none_iff (rep : Rep s queued spare) (tid : Int) :
    s.table tid = none ↔ ∀ i ∈ queued, (s.job i).tid ≠ tid := by
  constructor
  · intro hnone i hi htid
    have hsome := (rep.table_eq_some_iff tid (s.job i)).mpr ⟨i, hi, rfl, htid⟩
    rw [hnone] at hsome
    exact absurd hsome (by simp)
  · intro hnone
    cases htable : s.table tid with
    | none => rfl
    | some job =>
        obtain ⟨i, hi, rfl, htid⟩ := (rep.table_eq_some_iff tid job).mp htable
        exact absurd htid (hnone i hi)

/-- A task id that the search finds is in the table. -/
theorem table_ne_none (rep : Rep s queued spare) {l₁ l₂ : List Nat} {x : Nat}
    (hsplit : queued = l₁ ++ x :: l₂) : s.table (s.job x).tid ≠ none := by
  intro hnone
  exact (rep.table_eq_none_iff _).mp hnone x (by simp [hsplit]) rfl

/-- The free list is empty when there is no spare cell. -/
theorem freelist_eq_none_iff (rep : Rep s queued spare) :
    s.freelist = none ↔ spare = [] := by
  have hfree := rep.free
  cases spare with
  | nil => exact iff_of_true hfree rfl
  | cons i spare => simp [hfree.1]

/-- The rest of the ring holds the jobs of the other task ids. -/
theorem mem_rest_iff (rep : Rep s queued spare) {l₁ l₂ : List Nat} {x : Nat}
    (hsplit : queued = l₁ ++ x :: l₂) (i : Nat) :
    i ∈ l₁ ++ l₂ ↔ i ∈ queued ∧ (s.job i).tid ≠ (s.job x).tid := by
  have htids := rep.tids
  rw [hsplit, (List.perm_middle.map _).nodup_iff, List.map_cons, List.nodup_cons] at htids
  have hmem : i ∈ queued ↔ i = x ∨ i ∈ l₁ ++ l₂ := by
    rw [hsplit, List.perm_middle.mem_iff, List.mem_cons]
  rw [hmem]
  constructor
  · intro hi
    refine ⟨Or.inr hi, fun htid => htids.1 ?_⟩
    exact List.mem_map.mpr ⟨i, hi, htid⟩
  · rintro ⟨rfl | hi, htid⟩
    · exact absurd rfl htid
    · exact hi

/-- Taking a cell out of the ring takes its task id out of the table. -/
theorem table_removed {s' : WorkQueue Func Data items} {l spare' : List Nat} {tid : Int}
    (rep : Rep s queued spare) (rep' : Rep s' l spare') (hjob : s'.job = s.job)
    (hrest : ∀ i, i ∈ l ↔ i ∈ queued ∧ (s.job i).tid ≠ tid) :
    s'.table = Function.update s.table tid none := by
  funext t
  by_cases ht : t = tid
  · subst ht
    rw [Function.update_self, rep'.table_eq_none_iff, hjob]
    exact fun i hi => ((hrest i).mp hi).2
  · rw [Function.update_of_ne ht]
    refine Option.ext fun job => ?_
    rw [rep'.table_eq_some_iff, rep.table_eq_some_iff, hjob]
    constructor
    · rintro ⟨i, hi, hij, htid⟩
      exact ⟨i, ((hrest i).mp hi).1, hij, htid⟩
    · rintro ⟨i, hi, rfl, htid⟩
      exact ⟨i, (hrest i).mpr ⟨hi, htid ▸ ht⟩, rfl, htid⟩

end Rep

/-- Placing a job in the ring puts it in the table under its task id. -/
theorem Placed.table {s s' : WorkQueue Func Data items} {queued spare spare' l : List Nat}
    {x : Nat} {job : Job Func Data} (hplaced : Placed s s' x l spare' job)
    (rep : Rep s queued spare)
    (hrest : ∀ i, i ∈ l ↔ i ∈ queued ∧ (s.job i).tid ≠ job.tid) :
    s'.table = Function.update s.table job.tid (some job) := by
  have hperm := WorkQueue.insertAhead_perm s.job job.when x l
  have hmem : ∀ i, i ∈ WorkQueue.insertAhead s.job job.when x l ↔ i = x ∨ i ∈ l := by
    intro i
    rw [hperm.mem_iff, List.mem_cons]
  have hfresh : x ∉ l := by
    have hnodup := (List.nodup_append.mp hplaced.rep.nodup).1
    rw [hperm.nodup_iff, List.nodup_cons] at hnodup
    exact hnodup.1
  have hother : ∀ i ∈ l, s'.job i = s.job i := by
    intro i hi
    rw [hplaced.job, Function.update_of_ne]
    rintro rfl
    exact hfresh hi
  have hself : s'.job x = job := by rw [hplaced.job, Function.update_self]
  funext t
  refine Option.ext fun job' => ?_
  rw [hplaced.rep.table_eq_some_iff]
  by_cases ht : t = job.tid
  · subst ht
    rw [Function.update_self, Option.some_inj]
    constructor
    · rintro ⟨i, hi, hij, htid⟩
      rcases (hmem i).mp hi with rfl | hi
      · exact hself.symm.trans hij
      · rw [hother i hi] at hij
        exact absurd (hij ▸ htid) ((hrest i).mp hi).2
    · rintro rfl
      exact ⟨x, (hmem x).mpr (Or.inl rfl), hself, rfl⟩
  · rw [Function.update_of_ne ht, rep.table_eq_some_iff]
    constructor
    · rintro ⟨i, hi, rfl, htid⟩
      rcases (hmem i).mp hi with rfl | hi
      · rw [hself] at htid
        exact absurd htid.symm ht
      · exact ⟨i, ((hrest i).mp hi).1, (hother i hi).symm, htid⟩
    · rintro ⟨i, hi, rfl, htid⟩
      have hil : i ∈ l := (hrest i).mpr ⟨hi, htid ▸ ht⟩
      exact ⟨i, (hmem i).mpr (Or.inr hil), hother i hil, htid⟩

/-! ## The queue refines the table -/

/-- Every critical section completes, and does to the table of pending jobs what
`Effect` says. -/
theorem Rep.step_effect {s : WorkQueue Func Data items} {queued spare : List Nat}
    (rep : Rep s queued spare) (call : Call Func Data) :
    ∃ outcome s', step call s = some (outcome, s') ∧
      Effect (s.freelist ≠ none) s.table call outcome s'.table := by
  cases call with
  | sched now tid func data delay =>
      obtain ⟨outcome, s', hstep, hcases⟩ := nkSched_spec rep now tid func data delay
      refine ⟨outcome, s', hstep, ?_⟩
      rcases hcases with ⟨l₁, x, l₂, hsplit, htid, rfl, hplaced⟩ |
        ⟨hnone, ⟨i, spare', hspare, rfl, hplaced⟩ | ⟨hspare, rfl, rfl⟩⟩
      · rw [hplaced.table rep (fun i => by rw [rep.mem_rest_iff hsplit, htid])]
        exact .replaced now tid func data delay (htid ▸ rep.table_ne_none hsplit)
      · rw [hplaced.table rep (fun i => ⟨fun hi => ⟨hi, hnone i hi⟩, fun hi => hi.1⟩)]
        refine .added now tid func data delay ((rep.table_eq_none_iff tid).mpr hnone) ?_
        rw [Ne, rep.freelist_eq_none_iff, hspare]
        exact List.cons_ne_nil i spare'
      · refine .tooMany now tid func data delay ((rep.table_eq_none_iff tid).mpr hnone) ?_
        exact not_not.mpr (rep.freelist_eq_none_iff.mpr hspare)
  | resched now tid func data delay =>
      obtain ⟨outcome, s', hstep, hcases⟩ := nkResched_spec rep now tid func data delay
      refine ⟨outcome, s', hstep, ?_⟩
      rcases hcases with ⟨l₁, x, l₂, hsplit, htid, rfl, hplaced⟩ | ⟨hnone, rfl, rfl⟩
      · rw [hplaced.table rep (fun i => by rw [rep.mem_rest_iff hsplit, htid])]
        exact .rescheduled now tid func data delay (htid ▸ rep.table_ne_none hsplit)
      · exact .notRescheduled now tid func data delay ((rep.table_eq_none_iff tid).mpr hnone)
  | unsched tid =>
      obtain ⟨outcome, s', hstep, hcases⟩ := nkUnsched_spec rep tid
      refine ⟨outcome, s', hstep, ?_⟩
      rcases hcases with ⟨l₁, x, l₂, hsplit, htid, rfl, rep', hjob⟩ | ⟨hnone, rfl, rfl⟩
      · rw [rep.table_removed rep' hjob (fun i => by rw [rep.mem_rest_iff hsplit, htid])]
        exact .unscheduled tid (htid ▸ rep.table_ne_none hsplit)
      · exact .notUnscheduled tid ((rep.table_eq_none_iff tid).mpr hnone)
  | check tid =>
      obtain ⟨rtn, hstep, hcases⟩ := nkCheck_spec rep tid
      refine ⟨_, s, hstep, ?_⟩
      rcases hcases with ⟨rfl, i, hi, htid⟩ | ⟨rfl, hnone⟩
      · refine .present tid fun hnone => ?_
        exact (rep.table_eq_none_iff tid).mp hnone i hi htid
      · exact .missing tid ((rep.table_eq_none_iff tid).mpr hnone)
  | loop now =>
      obtain ⟨outcome, s', hstep, hcases⟩ := nkSchedLoop_spec rep now
      refine ⟨outcome, s', hstep, ?_⟩
      rcases hcases with ⟨x, l, hqueued, hdue, rfl, rep', hjob⟩ | ⟨-, rfl, rfl⟩
      · have hsplit : queued = [] ++ x :: l := hqueued
        rw [rep.table_removed rep' hjob (fun i => rep.mem_rest_iff hsplit i)]
        exact .dispatched now (s.job x)
          ((rep.table_eq_some_iff _ _).mpr ⟨x, by simp [hqueued], rfl, rfl⟩) hdue
      · exact .waited now

/-- The linked queue refines the table: in every reachable state a critical
section completes with an outcome and a change that the table allows. -/
theorem Reachable.step_effect {s : WorkQueue Func Data items} (h : Reachable s)
    (call : Call Func Data) :
    ∃ outcome s', Sched.step call s = some (outcome, s') ∧
      Effect (s.freelist ≠ none) s.table call outcome s'.table := by
  obtain ⟨queued, spare, rep⟩ := h.rep
  exact rep.step_effect call

theorem Reachable.effect {s s' : WorkQueue Func Data items} {call : Call Func Data}
    {outcome : Outcome Func Data} (h : Reachable s)
    (done : Sched.step call s = some (outcome, s')) :
    Effect (s.freelist ≠ none) s.table call outcome s'.table := by
  obtain ⟨outcome', s'', hstep, heffect⟩ := h.step_effect call
  obtain ⟨rfl, rfl⟩ := Prod.mk.inj (Option.some.inj (hstep.symm.trans done))
  exact heffect

/-- After `nk_init_sched` nothing is pending. -/
theorem nkInitSched_table (s : WorkQueue Func Data items) :
    (nkInitSched s).table = fun _ => none := by
  obtain ⟨spare, rep⟩ := nkInitSched_rep s
  funext tid
  rw [rep.table_eq_none_iff]
  exact fun i hi => absurd hi List.not_mem_nil

end LibnklabsPico.Sched
