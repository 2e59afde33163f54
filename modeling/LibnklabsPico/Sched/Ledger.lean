/-
  Sched/Ledger.lean --- ordering, FIFO and exactly-once execution.

  Beside the work queue runs a ledger of what was submitted.  Accepted
  submissions are numbered in order.  The ledger knows the calls, whether a
  submission found the pool used up, and which functions the main loop called, but
  no return code: what is replaced or removed follows from the calls before.
  `Books` ties the ledger to the queue: the pending cells, the executed, the
  replaced and the removed submissions are together all the submissions, each
  once, and the ring is sorted by due time and, for equal due times, by
  submission number.
-/
import LibnklabsPico.Foundation.Window
import LibnklabsPico.Sched.Agenda

set_option autoImplicit false

namespace LibnklabsPico.Sched

open LibnklabsPico.Foundation

variable {Func Data : Type} {items : Nat}

/-- What became of the submissions so far. -/
structure Ledger (Func Data : Type) where
  /-- the accepted submissions; a submission's number is its index -/
  subs : List (Job Func Data)
  /-- the submission a pending task stems from -/
  owner : Int → Option Nat
  /-- the calls made by the main loop, with the submission each one stems from -/
  ran : List (Option Nat × Func × Data)
  /-- submissions replaced before they ran -/
  replaced : List Nat
  /-- submissions removed by `nk_unsched` -/
  removed : List Nat

namespace Ledger

def empty : Ledger Func Data := ⟨[], fun _ => none, [], [], []⟩

/-- A submission was accepted; a pending one of the same task is replaced. -/
def accept (ledger : Ledger Func Data) (job : Job Func Data) : Ledger Func Data :=
  { ledger with
    subs := ledger.subs ++ [job]
    owner := Function.update ledger.owner job.tid (some ledger.subs.length)
    replaced := ledger.replaced ++ (ledger.owner job.tid).toList }

/-- The pending submission of a task was removed. -/
def remove (ledger : Ledger Func Data) (tid : Int) : Ledger Func Data :=
  { ledger with
    owner := Function.update ledger.owner tid none
    removed := ledger.removed ++ (ledger.owner tid).toList }

/-- The main loop called `func(data)` for a task. -/
def execute (ledger : Ledger Func Data) (tid : Int) (func : Func) (data : Data) :
    Ledger Func Data :=
  { ledger with
    owner := Function.update ledger.owner tid none
    ran := ledger.ran ++ [(ledger.owner tid, func, data)] }

/-- Write down one critical section.  A submission counts as accepted unless the
pool of items is used up, a rescheduling when the task has a pending submission;
`nk_unsched` removes whatever is pending. -/
def record (ledger : Ledger Func Data) : Call Func Data → Outcome Func Data →
    Ledger Func Data
  | .sched _ _ _ _ _, .tooMany _ => ledger
  | .sched now tid func data delay, _ =>
      ledger.accept ⟨tid, func, data, u32 (now + nkConvertDelay delay)⟩
  | .resched now tid func data delay, _ =>
      if ledger.owner tid = none then ledger
      else ledger.accept ⟨tid, func, data, u32 (now + nkConvertDelay delay)⟩
  | .unsched tid, _ => ledger.remove tid
  | .check _, _ => ledger
  | .loop _, .run tid func data => ledger.execute tid func data
  | .loop _, _ => ledger

end Ledger

/-- The clock value and the new due time of a critical section. -/
def Call.times : Call Func Data → List Nat
  | .sched now _ _ _ delay => [now, u32 (now + nkConvertDelay delay)]
  | .resched now _ _ _ delay => [now, u32 (now + nkConvertDelay delay)]
  | .unsched _ => []
  | .check _ => []
  | .loop now => [now]

/-- The current time, all pending due times and a newly computed due time lie
within one window. -/
def OneWindow (call : Call Func Data) (s : WorkQueue Func Data items) : Prop :=
  ∃ w, ∀ t ∈ call.times ++ s.pending.map (fun i => (s.job i).when), InWindow w t

/-- Runs from `nk_init_sched` whose times stay within one window at every step,
with the ledger of the run. -/
inductive Run : WorkQueue Func Data items → Ledger Func Data → Prop where
  | init (s : WorkQueue Func Data items) : Run (nkInitSched s) Ledger.empty
  | step {s s' : WorkQueue Func Data items} {ledger : Ledger Func Data}
      {outcome : Outcome Func Data} (call : Call Func Data) (before : Run s ledger)
      (window : OneWindow call s) (done : step call s = some (outcome, s')) :
      Run s' (ledger.record call outcome)

/-! ## The books -/

/-- Cell `i` precedes cell `j`: it is due no later and, when both are due at the
same time, it was submitted first. -/
def Precedes (jobs : Nat → Job Func Data) (owner : Int → Option Nat) (i j : Nat) : Prop :=
  0 ≤ later (jobs i).when (jobs j).when ∧
    (later (jobs i).when (jobs j).when = 0 →
      ∀ m n, owner (jobs i).tid = some m → owner (jobs j).tid = some n → m < n)

/-- The submissions the cells of a list stem from. -/
def owners (jobs : Nat → Job Func Data) (owner : Int → Option Nat) (l : List Nat) :
    List Nat :=
  l.filterMap fun i => owner (jobs i).tid

/-- The ledger agrees with the queued cells, once the pending submission of the
task `except` (if there is one) is put aside. -/
structure BooksExcept (jobs : Nat → Job Func Data) (ledger : Ledger Func Data)
    (queued : List Nat) (except : Option Int) : Prop where
  own : ∀ i ∈ queued, ∃ k, ledger.owner (jobs i).tid = some k ∧
    ledger.subs[k]? = some (jobs i)
  distinct : ∀ i ∈ queued, some (jobs i).tid ≠ except
  idle : ∀ tid, (∀ i ∈ queued, (jobs i).tid ≠ tid) → some tid ≠ except →
    ledger.owner tid = none
  parts : (owners jobs ledger.owner queued ++ (except.bind ledger.owner).toList ++
      (ledger.ran.filterMap (·.1) ++ (ledger.replaced ++ ledger.removed))).Perm
    (List.range ledger.subs.length)
  ran : ∀ entry ∈ ledger.ran, ∃ k job, entry = (some k, job.func, job.data) ∧
    ledger.subs[k]? = some job
  sorted : queued.Pairwise (Precedes jobs ledger.owner)

/-- The ledger agrees with the queued cells. -/
abbrev Books (jobs : Nat → Job Func Data) (ledger : Ledger Func Data)
    (queued : List Nat) : Prop :=
  BooksExcept jobs ledger queued none

/-- Nothing is recorded twice: the owner of a queued cell is an earlier number. -/
theorem BooksExcept.owner_lt {jobs : Nat → Job Func Data} {ledger : Ledger Func Data}
    {queued : List Nat} {except : Option Int} (books : BooksExcept jobs ledger queued except)
    {i : Nat} (hi : i ∈ queued) :
    ∃ k < ledger.subs.length, ledger.owner (jobs i).tid = some k := by
  obtain ⟨k, howner, hsub⟩ := books.own i hi
  exact ⟨k, (List.getElem?_eq_some_iff.mp hsub).1, howner⟩

/-- Taking a cell out of the ring puts its submission aside. -/
theorem Books.takeOut {jobs : Nat → Job Func Data} {ledger : Ledger Func Data}
    {l₁ l₂ : List Nat} {x : Nat} (books : Books jobs ledger (l₁ ++ x :: l₂))
    (htids : ((l₁ ++ x :: l₂).map fun i => (jobs i).tid).Nodup) :
    BooksExcept jobs ledger (l₁ ++ l₂) (some (jobs x).tid) := by
  have hsub : (l₁ ++ l₂).Sublist (l₁ ++ x :: l₂) :=
    List.Sublist.append_left (List.sublist_cons_self x l₂) l₁
  have hmiddle : (l₁ ++ x :: l₂).Perm (x :: (l₁ ++ l₂)) := List.perm_middle
  rw [(hmiddle.map _).nodup_iff, List.map_cons, List.nodup_cons] at htids
  refine ⟨fun i hi => books.own i (hsub.subset hi), ?_, ?_, ?_, books.ran,
    books.sorted.sublist hsub⟩
  · intro i hi heq
    refine htids.1 (List.mem_map.mpr ⟨i, hi, ?_⟩)
    simpa using heq
  · intro tid hnone hne
    refine books.idle tid (fun i hi => ?_) (by simp)
    rcases List.mem_cons.mp (hmiddle.subset hi) with rfl | hi
    · intro heq
      exact hne (by rw [heq])
    · exact hnone i hi
  · refine List.Perm.trans ?_ books.parts
    refine List.Perm.append_right _ ?_
    obtain ⟨k, howner, -⟩ := books.own x (by simp)
    simp only [Option.bind_some, howner, Option.toList_some, Option.bind_none,
      Option.toList_none, List.append_nil]
    refine (List.perm_append_singleton k _).trans ?_
    have := (hmiddle.filterMap fun i => ledger.owner (jobs i).tid).symm
    simpa [owners, howner] using this

/-- With no cell of the task queued there is nothing to put aside. -/
theorem Books.absent {jobs : Nat → Job Func Data} {ledger : Ledger Func Data}
    {queued : List Nat} {tid : Int} (books : Books jobs ledger queued)
    (hnone : ∀ i ∈ queued, (jobs i).tid ≠ tid) :
    BooksExcept jobs ledger queued (some tid) := by
  have howner : ledger.owner tid = none := books.idle tid hnone (by simp)
  refine ⟨books.own, fun i hi heq => hnone i hi (by simpa using heq),
    fun t ht _ => books.idle t ht (by simp), ?_, books.ran, books.sorted⟩
  simpa [howner] using books.parts

section Accept

variable {jobs : Nat → Job Func Data} {ledger : Ledger Func Data} {l : List Nat}
  {x w : Nat} {job : Job Func Data}

/-- The cells in front of the new one are due no later than it. -/
theorem later_of_mem_takeWhile (hw : InWindow w job.when)
    (hwindow : ∀ i ∈ l, InWindow w (jobs i).when) {i : Nat}
    (hi : i ∈ l.takeWhile fun j => !WorkQueue.ahead (jobs j) job.when) :
    0 ≤ later (jobs i).when job.when := by
  have hl : i ∈ l := (List.takeWhile_sublist _).subset hi
  have hnot : later job.when (jobs i).when ≤ 0 := by
    simpa [WorkQueue.ahead, later] using List.mem_takeWhile_imp hi
  have := later_swap (hwindow i hl) hw
  omega

/-- The cells behind the new one are due later than it: the first of them is, by
the search, and the others are due no earlier than the first. -/
theorem later_of_mem_dropWhile (hw : InWindow w job.when)
    (hwindow : ∀ i ∈ l, InWindow w (jobs i).when)
    (hsorted : l.Pairwise (Precedes jobs ledger.owner)) {i : Nat}
    (hi : i ∈ l.dropWhile fun j => !WorkQueue.ahead (jobs j) job.when) :
    0 < later job.when (jobs i).when := by
  have hsub := (List.dropWhile_sublist
    (fun j => !WorkQueue.ahead (jobs j) job.when) (l := l))
  cases hdrop : l.dropWhile fun j => !WorkQueue.ahead (jobs j) job.when with
  | nil => simp [hdrop] at hi
  | cons q rest =>
      have hq : 0 < later job.when (jobs q).when := by
        have hne : (l.dropWhile fun j => !WorkQueue.ahead (jobs j) job.when) ≠ [] := by
          simp [hdrop]
        have := List.head_dropWhile_not
          (fun j => !WorkQueue.ahead (jobs j) job.when) hne
        simp only [hdrop, List.head_cons] at this
        simpa [WorkQueue.ahead, later] using this
      have hql : q ∈ l := hsub.subset (by simp [hdrop])
      have hil : i ∈ l := hsub.subset hi
      rw [hdrop] at hi
      rcases List.mem_cons.mp hi with rfl | hi
      · exact hq
      · have hpair := hsorted.sublist hsub
        rw [hdrop, List.pairwise_cons] at hpair
        have hqi := (hpair.1 i hi).1
        rw [later_trans hw (hwindow q hql) (hwindow i hil)]
        omega

/-- Accepting a submission and putting it in its place keeps the books. -/
theorem BooksExcept.accept (books : BooksExcept jobs ledger l (some job.tid))
    (hfresh : x ∉ l) (hw : InWindow w job.when)
    (hwindow : ∀ i ∈ l, InWindow w (jobs i).when) :
    Books (Function.update jobs x job) (ledger.accept job)
      (WorkQueue.insertAhead jobs job.when x l) := by
  have hjob : ∀ i ∈ l, Function.update jobs x job i = jobs i := by
    intro i hi
    refine Function.update_of_ne ?_ _ _
    rintro rfl
    exact hfresh hi
  have howner : ∀ i ∈ l, (ledger.accept job).owner (jobs i).tid =
      ledger.owner (jobs i).tid := by
    intro i hi
    refine Function.update_of_ne ?_ _ _
    intro heq
    exact books.distinct i hi (by rw [heq])
  have hnew : (ledger.accept job).owner job.tid = some ledger.subs.length := by
    simp [Ledger.accept]
  have hperm := WorkQueue.insertAhead_perm jobs job.when x l
  have hmem : ∀ {i : Nat}, i ∈ WorkQueue.insertAhead jobs job.when x l ↔ i = x ∨ i ∈ l := by
    intro i
    rw [hperm.mem_iff, List.mem_cons]
  refine ⟨?_, by simp, ?_, ?_, ?_, ?_⟩
  · intro i hi
    rcases hmem.mp hi with rfl | hi
    · refine ⟨ledger.subs.length, by simpa using hnew, ?_⟩
      simp [Ledger.accept]
    · obtain ⟨k, hk, hsub⟩ := books.own i hi
      refine ⟨k, by rw [hjob i hi, howner i hi, hk], ?_⟩
      rw [hjob i hi]
      exact (List.getElem?_append_left (List.getElem?_eq_some_iff.mp hsub).1).trans hsub
  · intro tid hnone _
    have htid : tid ≠ job.tid := by
      rintro rfl
      exact hnone x (hmem.mpr (Or.inl rfl)) (by simp)
    refine (Function.update_of_ne htid _ _).trans (books.idle tid (fun i hi => ?_) ?_)
    · rw [← hjob i hi]
      exact hnone i (hmem.mpr (Or.inr hi))
    · simpa using htid
  · have howners : (owners (Function.update jobs x job) (ledger.accept job).owner
        (WorkQueue.insertAhead jobs job.when x l)).Perm
        (ledger.subs.length :: owners jobs ledger.owner l) := by
      refine (hperm.filterMap _).trans (List.Perm.of_eq ?_)
      simp only [List.filterMap_cons, Function.update_self, hnew, owners, List.cons.injEq,
        true_and]
      exact List.filterMap_congr fun i hi => by rw [hjob i hi, howner i hi]
    have hrange : (List.range (ledger.accept job).subs.length).Perm
        (ledger.subs.length :: List.range ledger.subs.length) := by
      simp only [Ledger.accept, List.length_append, List.length_cons, List.length_nil,
        List.range_succ]
      exact List.perm_append_singleton _ _
    refine List.Perm.trans ?_ hrange.symm
    refine List.Perm.trans ?_ (List.Perm.cons _ books.parts)
    simp only [Option.bind_none, Option.toList_none, List.append_nil, Option.bind_some]
    refine (List.Perm.append_right _ howners).trans (List.Perm.cons _ ?_)
    have hmove : ∀ a b c d e : List Nat,
        (a ++ (b ++ (c ++ e ++ d))).Perm (a ++ e ++ (b ++ (c ++ d))) := by
      intro a b c d e
      simp only [List.append_assoc]
      refine List.Perm.append_left a ?_
      rw [← List.append_assoc b, ← List.append_assoc b c d]
      exact (List.perm_append_comm_assoc _ _ _)
    exact hmove _ _ _ _ _
  · intro entry hentry
    obtain ⟨k, old, heq, hsub⟩ := books.ran entry hentry
    refine ⟨k, old, heq, ?_⟩
    exact (List.getElem?_append_left (List.getElem?_eq_some_iff.mp hsub).1).trans hsub
  · -- the two halves of the old ring, and the new cell between them
    have hsplit := List.takeWhile_append_dropWhile
      (p := fun j => !WorkQueue.ahead (jobs j) job.when) (l := l)
    have hold : l.Pairwise (Precedes (Function.update jobs x job) (ledger.accept job).owner) := by
      refine books.sorted.imp_of_mem fun {i j} hi hj hpre => ?_
      simpa only [Precedes, hjob i hi, hjob j hj, howner i hi, howner j hj] using hpre
    rw [← hsplit, List.pairwise_append] at hold
    obtain ⟨hleft, hright, hcross⟩ := hold
    have hleftMem : ∀ i ∈ l.takeWhile fun j => !WorkQueue.ahead (jobs j) job.when, i ∈ l :=
      fun i hi => (List.takeWhile_sublist _).subset hi
    have hrightMem : ∀ i ∈ l.dropWhile fun j => !WorkQueue.ahead (jobs j) job.when, i ∈ l :=
      fun i hi => (List.dropWhile_sublist _).subset hi
    refine List.pairwise_append.mpr ⟨hleft, List.pairwise_cons.mpr ⟨?_, hright⟩, ?_⟩
    · intro j hj
      have hlater := later_of_mem_dropWhile hw hwindow books.sorted hj
      refine ⟨?_, fun hzero => ?_⟩
      · rw [Function.update_self, hjob j (hrightMem j hj)]
        omega
      · rw [Function.update_self, hjob j (hrightMem j hj)] at hzero
        omega
    · intro i hi j hj
      rcases List.mem_cons.mp hj with rfl | hj
      · refine ⟨?_, ?_⟩
        · rw [Function.update_self, hjob i (hleftMem i hi)]
          exact later_of_mem_takeWhile hw hwindow hi
        · intro _ m n hm hn
          obtain ⟨k, hlt, hk⟩ := books.owner_lt (hleftMem i hi)
          rw [hjob i (hleftMem i hi), howner i (hleftMem i hi), hk] at hm
          rw [Function.update_self, hnew] at hn
          cases hm
          cases hn
          exact hlt
      · exact hcross i hi j hj

end Accept

/-- Removing the submission put aside keeps the books. -/
theorem BooksExcept.remove {jobs : Nat → Job Func Data} {ledger : Ledger Func Data}
    {l : List Nat} {tid : Int} (books : BooksExcept jobs ledger l (some tid)) :
    Books jobs (ledger.remove tid) l := by
  have howner : ∀ i ∈ l, (ledger.remove tid).owner (jobs i).tid =
      ledger.owner (jobs i).tid := by
    intro i hi
    refine Function.update_of_ne ?_ _ _
    intro heq
    exact books.distinct i hi (by rw [heq])
  refine ⟨fun i hi => ?_, by simp, ?_, ?_, books.ran, ?_⟩
  · rw [howner i hi]
    exact books.own i hi
  · intro t ht _
    by_cases htid : t = tid
    · simp [Ledger.remove, htid]
    · exact (Function.update_of_ne htid _ _).trans (books.idle t ht (by simpa using htid))
  · refine List.Perm.trans ?_ books.parts
    have howners : owners jobs (ledger.remove tid).owner l = owners jobs ledger.owner l :=
      List.filterMap_congr fun i hi => howner i hi
    simp only [howners, Option.bind_none, Option.toList_none, List.append_nil,
      Option.bind_some, List.append_assoc]
    refine List.Perm.append_left _ ?_
    simp only [Ledger.remove, ← List.append_assoc]
    exact List.perm_append_comm.trans (List.Perm.of_eq (by simp only [List.append_assoc]))
  · refine books.sorted.imp_of_mem fun {i j} hi hj hpre => ?_
    simpa only [Precedes, howner i hi, howner j hj] using hpre

/-- Executing the submission put aside keeps the books. -/
theorem BooksExcept.execute {jobs : Nat → Job Func Data} {ledger : Ledger Func Data}
    {l : List Nat} {job : Job Func Data} {k : Nat}
    (books : BooksExcept jobs ledger l (some job.tid))
    (hk : ledger.owner job.tid = some k) (hsub : ledger.subs[k]? = some job) :
    Books jobs (ledger.execute job.tid job.func job.data) l := by
  have howner : ∀ i ∈ l, (ledger.execute job.tid job.func job.data).owner (jobs i).tid =
      ledger.owner (jobs i).tid := by
    intro i hi
    refine Function.update_of_ne ?_ _ _
    intro heq
    exact books.distinct i hi (by rw [heq])
  refine ⟨fun i hi => ?_, by simp, ?_, ?_, ?_, ?_⟩
  · rw [howner i hi]
    exact books.own i hi
  · intro t ht _
    by_cases htid : t = job.tid
    · simp [Ledger.execute, htid]
    · exact (Function.update_of_ne htid _ _).trans (books.idle t ht (by simpa using htid))
  · refine List.Perm.trans ?_ books.parts
    have howners : owners jobs (ledger.execute job.tid job.func job.data).owner l =
        owners jobs ledger.owner l :=
      List.filterMap_congr fun i hi => howner i hi
    simp only [howners, Option.bind_none, Option.toList_none, List.append_nil,
      Option.bind_some, List.append_assoc]
    refine List.Perm.append_left _ ?_
    simp only [Ledger.execute, List.filterMap_append, List.filterMap_cons, hk,
      List.filterMap_nil, Option.toList_some, List.append_assoc]
    rw [← List.append_assoc]
    exact (List.Perm.append_right _ List.perm_append_comm).trans (by simp)
  · intro entry hentry
    rcases List.mem_append.mp hentry with hentry | hentry
    · exact books.ran entry hentry
    · obtain rfl : entry = (some k, job.func, job.data) := by simpa [hk] using hentry
      exact ⟨k, job, rfl, hsub⟩
  · refine books.sorted.imp_of_mem fun {i j} hi hj hpre => ?_
    simpa only [Precedes, howner i hi, howner j hj] using hpre

/-! ## Runs -/

/-- A placed job, written down as accepted. -/
theorem Placed.books {s s' : WorkQueue Func Data items} {ledger : Ledger Func Data}
    {l spare : List Nat} {x w : Nat} {job : Job Func Data}
    (placed : Placed s s' x l spare job)
    (books : BooksExcept s.job ledger l (some job.tid)) (hw : InWindow w job.when)
    (hwindow : ∀ i ∈ l, InWindow w (s.job i).when) :
    ∃ queued', Rep s' queued' spare ∧ Books s'.job (ledger.accept job) queued' := by
  refine ⟨_, placed.rep, ?_⟩
  rw [placed.job]
  exact books.accept placed.fresh hw hwindow

/-- One critical section inside a window keeps queue and ledger in agreement. -/
theorem step_books {s s' : WorkQueue Func Data items} {ledger : Ledger Func Data}
    {queued spare : List Nat} {outcome : Outcome Func Data} {call : Call Func Data}
    (rep : Rep s queued spare) (books : Books s.job ledger queued)
    (window : OneWindow call s) (done : step call s = some (outcome, s')) :
    ∃ queued' spare', Rep s' queued' spare' ∧
      Books s'.job (ledger.record call outcome) queued' := by
  obtain ⟨w, hw⟩ := window
  rw [rep.pending_eq] at hw
  have hwindow : ∀ i ∈ queued, InWindow w (s.job i).when := fun i hi =>
    hw _ (List.mem_append_right _ (List.mem_map_of_mem hi))
  cases call with
  | sched now tid func data delay =>
      have hdue : InWindow w (u32 (now + nkConvertDelay delay)) := hw _ (by simp [Call.times])
      obtain ⟨outcome', s'', hstep, hcases⟩ := nkSched_spec rep now tid func data delay
      obtain ⟨rfl, rfl⟩ := Prod.mk.inj (Option.some.inj (hstep.symm.trans done))
      rcases hcases with ⟨l₁, x, l₂, rfl, htid, rfl, hplaced⟩ |
        ⟨hnone, ⟨i, spare', rfl, rfl, hplaced⟩ | ⟨rfl, rfl, rfl⟩⟩
      · have hout := books.takeOut rep.tids
        rw [htid] at hout
        obtain ⟨queued', hrep, hbooks⟩ := hplaced.books hout hdue fun i hi =>
          hwindow i (by simp only [List.mem_append, List.mem_cons] at hi ⊢; tauto)
        exact ⟨queued', spare, hrep, hbooks⟩
      · obtain ⟨queued', hrep, hbooks⟩ := hplaced.books (books.absent hnone) hdue hwindow
        exact ⟨queued', spare', hrep, hbooks⟩
      · exact ⟨queued, [], rep, books⟩
  | resched now tid func data delay =>
      have hdue : InWindow w (u32 (now + nkConvertDelay delay)) := hw _ (by simp [Call.times])
      obtain ⟨outcome', s'', hstep, hcases⟩ := nkResched_spec rep now tid func data delay
      obtain ⟨rfl, rfl⟩ := Prod.mk.inj (Option.some.inj (hstep.symm.trans done))
      rcases hcases with ⟨l₁, x, l₂, rfl, htid, rfl, hplaced⟩ | ⟨hnone, rfl, rfl⟩
      · have hout := books.takeOut rep.tids
        rw [htid] at hout
        obtain ⟨queued', hrep, hbooks⟩ := hplaced.books hout hdue fun i hi =>
          hwindow i (by simp only [List.mem_append, List.mem_cons] at hi ⊢; tauto)
        obtain ⟨k, howner, -⟩ := books.own x (by simp)
        rw [htid] at howner
        exact ⟨queued', spare, hrep, by simpa [Ledger.record, howner] using hbooks⟩
      · have howner : ledger.owner tid = none := books.idle tid hnone (by simp)
        exact ⟨queued, spare, rep, by simpa [Ledger.record, howner] using books⟩
  | unsched tid =>
      obtain ⟨outcome', s'', hstep, hcases⟩ := nkUnsched_spec rep tid
      obtain ⟨rfl, rfl⟩ := Prod.mk.inj (Option.some.inj (hstep.symm.trans done))
      rcases hcases with ⟨l₁, x, l₂, rfl, htid, rfl, hrep, hjob⟩ | ⟨hnone, rfl, rfl⟩
      · have hout := books.takeOut rep.tids
        rw [htid] at hout
        exact ⟨_, _, hrep, hjob ▸ hout.remove⟩
      · exact ⟨queued, spare, rep, (books.absent hnone).remove⟩
  | check tid =>
      obtain ⟨rtn, hstep, -⟩ := nkCheck_spec rep tid
      obtain ⟨rfl, rfl⟩ := Prod.mk.inj (Option.some.inj (hstep.symm.trans done))
      exact ⟨queued, spare, rep, books⟩
  | loop now =>
      obtain ⟨outcome', s'', hstep, hcases⟩ := nkSchedLoop_spec rep now
      obtain ⟨rfl, rfl⟩ := Prod.mk.inj (Option.some.inj (hstep.symm.trans done))
      rcases hcases with ⟨x, l, rfl, -, rfl, hrep, hjob⟩ | ⟨-, rfl, rfl⟩
      · obtain ⟨k, hk, hsub⟩ := books.own x (by simp)
        have hsplit : x :: l = [] ++ x :: l := rfl
        have hout := Books.takeOut (hsplit ▸ books) (hsplit ▸ rep.tids)
        exact ⟨_, _, hrep, hjob ▸ hout.execute hk hsub⟩
      · exact ⟨queued, spare, rep, books⟩

theorem Run.books {s : WorkQueue Func Data items} {ledger : Ledger Func Data}
    (h : Run s ledger) :
    ∃ queued spare, Rep s queued spare ∧ Books s.job ledger queued := by
  induction h with
  | init s =>
      obtain ⟨spare, rep⟩ := nkInitSched_rep s
      exact ⟨[], spare, rep, by constructor <;> simp [Ledger.empty, owners]⟩
  | step call _ window done ih =>
      obtain ⟨queued, spare, rep, books⟩ := ih
      exact step_books rep books window done

/-- As long as the first cell of an ordered ring is not due, none is. -/
theorem undue_of_head {jobs : Nat → Job Func Data} {owner : Int → Option Nat} {x w now : Nat}
    {l : List Nat} (hsorted : (x :: l).Pairwise (Precedes jobs owner)) (hnow : InWindow w now)
    (hwindow : ∀ i ∈ x :: l, InWindow w (jobs i).when) (hundue : later (jobs x).when now < 0) :
    ∀ i ∈ x :: l, later (jobs i).when now < 0 := by
  intro i hi
  rcases List.mem_cons.mp hi with rfl | htail
  · exact hundue
  · have hxi := ((List.pairwise_cons.mp hsorted).1 i htail).1
    have := later_trans (hwindow x (by simp)) (hwindow i hi) hnow
    omega

/-- Every accepted submission is in exactly one of four states: pending in the
queue with its own job, run exactly once with its own `func` and `data`,
replaced, or removed.  The queue is ordered by due time and, for equal due
times, by submission.  The main loop runs a job only when it is due, and then
the earliest-due, first-submitted one; it does run that one, and waits only while
no job is due.  Every call does to the pending jobs what `Agenda.step` says. -/
theorem run_exactlyOnce {s : WorkQueue Func Data items} {ledger : Ledger Func Data}
    (h : Run s ledger) :
    -- the four states partition the submissions
    (s.pending.filterMap (fun i => ledger.owner (s.job i).tid) ++
        (ledger.ran.filterMap (·.1) ++ (ledger.replaced ++ ledger.removed))).Perm
      (List.range ledger.subs.length) ∧
    -- a pending cell holds its submission
    (∀ i ∈ s.pending, ∃ k, ledger.owner (s.job i).tid = some k ∧
      ledger.subs[k]? = some (s.job i)) ∧
    -- a call of the main loop is that of its submission
    (∀ entry ∈ ledger.ran, ∃ k job, entry = (some k, job.func, job.data) ∧
      ledger.subs[k]? = some job) ∧
    -- order of the queue
    s.pending.Pairwise (fun i j =>
      0 ≤ int32 (((s.job j).when : Int) - ((s.job i).when : Int)) ∧
        ((s.job i).when = (s.job j).when → ∀ m n,
          ledger.owner (s.job i).tid = some m → ledger.owner (s.job j).tid = some n →
          m < n)) ∧
    -- what the main loop runs
    (∀ now tid func data s', step (.loop now) s = some (.run tid func data, s') →
      ∃ x rest, s.pending = x :: rest ∧ s'.pending = rest ∧
        (s.job x).tid = tid ∧ (s.job x).func = func ∧ (s.job x).data = data ∧
        0 ≤ int32 ((now : Int) - ((s.job x).when : Int))) ∧
    -- the main loop runs the first job as soon as it is due
    (∀ (now : Nat) x rest, s.pending = x :: rest →
      0 ≤ int32 ((now : Int) - ((s.job x).when : Int)) →
      ∃ s', step (.loop now) s =
          some (.run (s.job x).tid (s.job x).func (s.job x).data, s') ∧
        s'.pending = rest ∧ ∀ i ∈ rest, s'.job i = s.job i) ∧
    -- the main loop waits only while no job is due
    (∀ now s', OneWindow (.loop now) s → step (.loop now) s = some (.wait, s') →
      s' = s ∧ ∀ i ∈ s.pending, int32 ((now : Int) - ((s.job i).when : Int)) < 0) ∧
    -- what every call answers and does to the pending jobs
    (∀ call, ∃ s', step call s = some ((s.agenda.step items call).1, s') ∧
      s'.agenda = (s.agenda.step items call).2) := by
  obtain ⟨queued, spare, rep, books⟩ := h.books
  rw [rep.pending_eq]
  refine ⟨by simpa [owners] using books.parts, books.own, books.ran, ?_, ?_, ?_, ?_,
    step_agenda rep⟩
  · refine books.sorted.imp fun {i j} hpre => ⟨hpre.1, fun heq => hpre.2 ?_⟩
    rw [heq, later_self]
  · intro now tid func data s' hstep
    obtain ⟨outcome, s'', hstep', hcases⟩ := nkSchedLoop_spec rep now
    obtain ⟨rfl, rfl⟩ := Prod.mk.inj (Option.some.inj (hstep'.symm.trans hstep))
    rcases hcases with ⟨x, rest, rfl, hdue, hrun, hrep, -⟩ | ⟨-, hwait, -⟩
    · obtain ⟨rfl, rfl, rfl⟩ := Outcome.run.inj hrun
      exact ⟨x, rest, rfl, hrep.pending_eq, rfl, rfl, rfl, hdue⟩
    · cases hwait
  · intro now x rest hqueued hdue
    obtain ⟨outcome, s', hstep, hcases⟩ := nkSchedLoop_spec rep now
    rcases hcases with ⟨y, l, hsplit, -, rfl, hrep, hjob⟩ | ⟨hundue, -, -⟩
    · obtain ⟨rfl, rfl⟩ := List.cons.inj (hqueued.symm.trans hsplit)
      exact ⟨s', hstep, hrep.pending_eq, fun i _ => by rw [hjob]⟩
    · have := hundue x rest hqueued
      omega
  · intro now s' window hstep
    obtain ⟨w, hw⟩ := window
    rw [rep.pending_eq] at hw
    obtain ⟨outcome, s'', hstep', hcases⟩ := nkSchedLoop_spec rep now
    obtain ⟨rfl, rfl⟩ := Prod.mk.inj (Option.some.inj (hstep'.symm.trans hstep))
    rcases hcases with ⟨x, l, -, -, hwait, -⟩ | ⟨hundue, -, rfl⟩
    · cases hwait
    · refine ⟨rfl, ?_⟩
      cases queued with
      | nil => simp
      | cons x l =>
          exact undue_of_head books.sorted (hw now (by simp [Call.times]))
            (fun i hi => hw _ (List.mem_append_right _ (List.mem_map_of_mem hi)))
            (hundue x l rfl)

/-- A job submitted twice: the main loop runs the second submission, which is due at
once, and would then wait. -/
theorem run_exactlyOnce_now :
    ∃ (s : WorkQueue Nat Nat 2) (ledger : Ledger Nat Nat),
      Run s ledger ∧ ledger.ran = [(some 1, 1, 3)] ∧ ledger.replaced = [0] ∧
        (∀ entry ∈ ledger.ran, ∃ k job, entry = (some k, job.func, job.data) ∧
          ledger.subs[k]? = some job) ∧
        ∃ s', step (.loop 10) s = some (.wait, s') ∧ s'.agenda = [] := by
  have hrun := Run.step (.loop 9)
    (.step (.sched 6 7 1 3 0)
      (.step (.sched 5 7 1 2 4)
        (.init (⟨fun _ => ⟨none, none, 0, 0, 0, 0⟩, none, 0⟩ : WorkQueue Nat Nat 2))
        ⟨5, by decide⟩ rfl)
      ⟨5, by decide⟩ rfl)
    ⟨5, by decide⟩ rfl
  exact ⟨_, _, hrun, rfl, rfl, (run_exactlyOnce hrun).2.2.1,
    (run_exactlyOnce hrun).2.2.2.2.2.2.2 (.loop 10)⟩

end LibnklabsPico.Sched
