/-
  Sched/Invariant.lean --- the representation invariant of the work queue.

  `Rep s ring free` says that the links of `s` hold the ring `ring` behind the
  base of the queue and the null-terminated free list `free`.  There is one
  specification per function of `nksched.c`; each says which ring and which free
  list the function leaves, and that it does not follow a null pointer or loop
  for ever.
-/
import LibnklabsPico.Sched.Nksched
import Mathlib.Data.List.TakeWhile

set_option autoImplicit false

namespace LibnklabsPico.Sched

open LibnklabsPico.Foundation

variable {Func Data : Type} {items : Nat}

/-- What a cell holds besides its links. -/
structure Job (Func Data : Type) where
  tid : Int
  func : Func
  data : Data
  when : Nat

namespace WorkQueue

/-- The jobs in the cells. -/
def job (s : WorkQueue Func Data items) (i : Nat) : Job Func Data :=
  { tid := (s.queue i).tid, func := (s.queue i).func, data := (s.queue i).data,
    when := (s.queue i).when }

section Assignments

variable (s : WorkQueue Func Data items) (i : Nat) (p : Option Nat)

@[simp] theorem nexts_setNext :
    (s.setNext i p).nexts = Function.update s.nexts i p := by
  funext j
  by_cases h : j = i <;> simp [nexts, setNext, assign, h]

@[simp] theorem prevs_setNext : (s.setNext i p).prevs = s.prevs := by
  funext j
  by_cases h : j = i <;> simp [prevs, setNext, assign, h]

@[simp] theorem job_setNext : (s.setNext i p).job = s.job := by
  funext j
  by_cases h : j = i <;> simp [job, setNext, assign, h]

@[simp] theorem nexts_setPrev : (s.setPrev i p).nexts = s.nexts := by
  funext j
  by_cases h : j = i <;> simp [nexts, setPrev, assign, h]

@[simp] theorem prevs_setPrev :
    (s.setPrev i p).prevs = Function.update s.prevs i p := by
  funext j
  by_cases h : j = i <;> simp [prevs, setPrev, assign, h]

@[simp] theorem job_setPrev : (s.setPrev i p).job = s.job := by
  funext j
  by_cases h : j = i <;> simp [job, setPrev, assign, h]

@[simp] theorem freelist_assign (f : Item Func Data → Item Func Data) :
    (s.assign i f).freelist = s.freelist := rfl

@[simp] theorem freelist_setNext : (s.setNext i p).freelist = s.freelist := rfl

@[simp] theorem freelist_setPrev : (s.setPrev i p).freelist = s.freelist := rfl

@[simp] theorem nexts_freeItem :
    (s.freeItem i).nexts = Function.update s.nexts i s.freelist :=
  nexts_setNext s i s.freelist

@[simp] theorem prevs_freeItem : (s.freeItem i).prevs = s.prevs :=
  prevs_setNext s i s.freelist

@[simp] theorem job_freeItem : (s.freeItem i).job = s.job :=
  job_setNext s i s.freelist

@[simp] theorem freelist_freeItem : (s.freeItem i).freelist = some i := rfl

end Assignments

/-! ## The link operations -/

/-- `deque` takes a cell out of the ring and touches nothing outside it. -/
theorem deque_spec {s : WorkQueue Func Data items} {l₁ l₂ : List Nat} {x : Nat}
    (hring : Ring s.nexts s.prevs 0 (l₁ ++ x :: l₂)) :
    ∃ s', s.deque x = some s' ∧ Ring s'.nexts s'.prevs 0 (l₁ ++ l₂) ∧
      s'.job = s.job ∧ s'.freelist = s.freelist ∧
      ∀ j ∉ 0 :: (l₁ ++ x :: l₂), s'.nexts j = s.nexts j := by
  obtain ⟨p, n, hp, hn, hmem, hring'⟩ := hring.unlink
  have hnext : ((s.setNext p (some n)).queue x).next = some n := by
    have := congrFun (nexts_setNext s p (some n)) x
    by_cases hxp : x = p
    · simpa [nexts, hxp] using this
    · rw [Function.update_of_ne hxp, hn] at this
      exact this
  have hprev : ((s.setNext p (some n)).queue x).prev = some p :=
    (congrFun (prevs_setNext s p (some n)) x).trans hp
  refine ⟨(s.setNext p (some n)).setPrev n (some p), ?_, by simpa using hring',
    by simp, by simp, ?_⟩
  · change (s.queue x).prev = some p at hp
    change (s.queue x).next = some n at hn
    simp only [deque, hp, hn, Option.bind_eq_bind, Option.bind_some, hnext, hprev,
      Option.pure_def]
  · intro j hj
    have hjp : j ≠ p := by
      rintro rfl
      exact hj (by simp only [List.mem_cons, List.mem_append] at hmem ⊢; tauto)
    simp [Function.update_of_ne hjp]

/-- `enque` puts a fresh cell in front of `q`. -/
theorem enque_spec {s : WorkQueue Func Data items} (l₁ l₂ : List Nat) {i : Nat}
    (hring : Ring s.nexts s.prevs 0 (l₁ ++ l₂)) (hfresh : i ∉ 0 :: (l₁ ++ l₂)) :
    ∃ s', s.enque (l₂.headD 0) i = some s' ∧
      Ring s'.nexts s'.prevs 0 (l₁ ++ i :: l₂) ∧
      s'.job = s.job ∧ s'.freelist = s.freelist ∧
      ∀ j ∉ 0 :: i :: (l₁ ++ l₂), s'.nexts j = s.nexts j := by
  obtain ⟨p, hp, hmem, hring'⟩ := hring.insert hfresh rfl
  set q := l₂.headD 0 with hq
  have hqi : q ≠ i := by
    rintro rfl
    refine hfresh ?_
    cases l₂ <;> simp [hq]
  have hprev : ((s.setNext i (some q)).queue q).prev = some p :=
    (congrFun (prevs_setNext s i (some q)) q).trans hp
  have hprev' : (((s.setNext i (some q)).setPrev i (some p)).queue q).prev = some p := by
    refine (congrFun (prevs_setPrev (s.setNext i (some q)) i (some p)) q).trans ?_
    rw [Function.update_of_ne hqi]
    exact hprev
  refine ⟨(((s.setNext i (some q)).setPrev i (some p)).setNext p (some i)).setPrev q
    (some i), ?_, by simpa using hring', by simp, by simp, ?_⟩
  · simp only [enque, hprev, hprev', Option.bind_eq_bind, Option.bind_some,
      Option.pure_def]
  · intro j hj
    have hji : j ≠ i := by
      rintro rfl
      exact hj (by simp)
    have hjp : j ≠ p := by
      rintro rfl
      exact hj (by simp only [List.mem_cons, List.mem_append] at hmem ⊢; tauto)
    simp [Function.update_of_ne hji, Function.update_of_ne hjp]

/-- A search stops at the first cell of the ring that meets the test. -/
theorem search_spec {s : WorkQueue Func Data items}
    (test : Item Func Data → Bool) {a : Nat} {l : List Nat}
    (hlinked : Linked s.nexts s.prevs a l 0) (hzero : 0 ∉ l) {fuel : Nat}
    (hfuel : l.length < fuel) :
    s.search test fuel (s.nexts a) =
      some ((l.dropWhile fun i => !test (s.queue i)).headD 0) := by
  induction l generalizing a fuel with
  | nil =>
      obtain ⟨fuel, rfl⟩ : ∃ k, fuel = k + 1 := ⟨fuel - 1, by simp at hfuel; omega⟩
      rw [hlinked.1]
      simp [search]
  | cons i l ih =>
      obtain ⟨fuel, rfl⟩ : ∃ k, fuel = k + 1 := ⟨fuel - 1, by simp at hfuel; omega⟩
      obtain ⟨hnext, -, hrest⟩ := hlinked
      have hi : i ≠ 0 := fun h => hzero (by simp [h])
      rw [hnext]
      simp only [search, hi, if_false, List.dropWhile_cons]
      by_cases htest : test (s.queue i)
      · simp [htest]
      · simp only [htest, Bool.false_eq_true, if_false, Bool.not_false, if_true]
        exact ih hrest (fun h => hzero (by simp [h])) (by simpa using hfuel)

/-- The loop of the `work` command visits the cells of the ring in order. -/
theorem visit_spec {s : WorkQueue Func Data items} {a : Nat} {l : List Nat}
    (hlinked : Linked s.nexts s.prevs a l 0) (hzero : 0 ∉ l) {fuel : Nat}
    (hfuel : l.length < fuel) : s.visit fuel (s.nexts a) = l := by
  induction l generalizing a fuel with
  | nil =>
      obtain ⟨fuel, rfl⟩ : ∃ k, fuel = k + 1 := ⟨fuel - 1, by simp at hfuel; omega⟩
      rw [hlinked.1]
      simp [visit]
  | cons i l ih =>
      obtain ⟨fuel, rfl⟩ : ∃ k, fuel = k + 1 := ⟨fuel - 1, by simp at hfuel; omega⟩
      have hi : i ≠ 0 := fun h => hzero (by simp [h])
      rw [hlinked.1]
      simp only [visit, hi, if_false, List.cons.injEq, true_and]
      exact ih hlinked.2.2 (fun h => hzero (by simp [h])) (by simpa using hfuel)

@[simp] theorem nexts_assign (s : WorkQueue Func Data items) (i : Nat)
    {f : Item Func Data → Item Func Data} (hf : ∀ item, (f item).next = item.next) :
    (s.assign i f).nexts = s.nexts := by
  funext j
  by_cases h : j = i <;> simp [nexts, assign, h, hf]

@[simp] theorem prevs_assign (s : WorkQueue Func Data items) (i : Nat)
    {f : Item Func Data → Item Func Data} (hf : ∀ item, (f item).prev = item.prev) :
    (s.assign i f).prevs = s.prevs := by
  funext j
  by_cases h : j = i <;> simp [prevs, assign, h, hf]

theorem job_assign (s : WorkQueue Func Data items) (i : Nat)
    (f : Item Func Data → Item Func Data) :
    (s.assign i f).job = Function.update s.job i ((s.assign i f).job i) := by
  funext j
  by_cases h : j = i <;> simp [job, assign, h]

/-- A job is ahead of time `when`: the test of `findAhead`. -/
def ahead (job : Job Func Data) (when : Nat) : Bool :=
  decide (0 < int32 ((job.when : Int) - (when : Int)))

/-- The ring after cell `i`, due at `when`, is put in front of the first cell
ahead of it. -/
def insertAhead (jobs : Nat → Job Func Data) (when i : Nat) (l : List Nat) : List Nat :=
  (l.takeWhile fun j => !ahead (jobs j) when) ++
    i :: l.dropWhile fun j => !ahead (jobs j) when

theorem insertAhead_perm (jobs : Nat → Job Func Data) (when i : Nat) (l : List Nat) :
    (insertAhead jobs when i l).Perm (i :: l) := by
  refine List.perm_middle.trans (List.Perm.cons i ?_)
  rw [List.takeWhile_append_dropWhile]

/-- The common end of `_nk_sched` and `nk_resched`: fill in a cell that is not in
the ring and enqueue it. -/
theorem place_spec {s : WorkQueue Func Data items} {l : List Nat} {i : Nat} (when : Nat)
    {f : Item Func Data → Item Func Data} (hring : Ring s.nexts s.prevs 0 l)
    (hfresh : i ∉ 0 :: l) (hlength : l.length ≤ items)
    (hnext : ∀ item, (f item).next = item.next)
    (hprev : ∀ item, (f item).prev = item.prev) :
    ∃ q s', (s.assign i f).findAhead when = some q ∧
      (s.assign i f).enque q i = some s' ∧
      Ring s'.nexts s'.prevs 0 (insertAhead s.job when i l) ∧
      s'.job = (s.assign i f).job ∧ s'.freelist = s.freelist ∧
      ∀ j ∉ 0 :: i :: l, s'.nexts j = s.nexts j := by
  have hring' : Ring (s.assign i f).nexts (s.assign i f).prevs 0 l := by
    rw [nexts_assign s i hnext, prevs_assign s i hprev]
    exact hring
  -- the filled-in cell is not in the ring, so the search sees the old due times
  have hdrop : (l.dropWhile fun j =>
      !decide (0 < int32 ((((s.assign i f).queue j).when : Int) - (when : Int)))) =
      l.dropWhile fun j => !ahead (s.job j) when := by
    have : ∀ j ∈ l, (s.assign i f).queue j = s.queue j := by
      intro j hj
      have hji : j ≠ i := by
        rintro rfl
        exact hfresh (List.mem_cons_of_mem 0 hj)
      simp [assign, Function.update_of_ne hji]
    clear hring hring' hfresh hlength
    induction l with
    | nil => rfl
    | cons j l ih =>
        rw [List.dropWhile_cons, List.dropWhile_cons, this j (by simp),
          ih fun k hk => this k (List.mem_cons_of_mem j hk)]
        rfl
  have hsplit := List.takeWhile_append_dropWhile
    (p := fun j => !ahead (s.job j) when) (l := l)
  obtain ⟨s', henque, hring'', hjob, hfree, hframe⟩ :=
    enque_spec (i := i) (l.takeWhile fun j => !ahead (s.job j) when)
      (l.dropWhile fun j => !ahead (s.job j) when)
      (by rw [hsplit]; exact hring') (by rw [hsplit]; exact hfresh)
  refine ⟨_, s', ?_, henque, hring'', hjob, hfree, ?_⟩
  · have hsearch := search_spec (s := s.assign i f)
      (fun q => decide (0 < int32 ((q.when : Int) - (when : Int))))
      hring'.linked (List.nodup_cons.mp hring.nodup).1 (Nat.lt_succ_of_le hlength)
    rw [hdrop] at hsearch
    exact hsearch
  · intro j hj
    rw [hframe j (by rwa [hsplit]), nexts_assign s i hnext]

end WorkQueue

/-! ## The representation invariant -/

/-- The links of `s` hold the ring `queued` behind the base of the queue and the
free list `spare`; together these are all the items, each once, and no task id is
queued twice. -/
structure Rep (s : WorkQueue Func Data items) (queued spare : List Nat) : Prop where
  ring : Ring s.nexts s.prevs 0 queued
  free : Chain s.nexts s.freelist spare
  cells : (queued ++ spare).Perm (List.range' 1 items)
  tids : (queued.map fun i => (s.job i).tid).Nodup

namespace Rep

variable {s : WorkQueue Func Data items} {queued spare : List Nat}

theorem nodup (rep : Rep s queued spare) : (queued ++ spare).Nodup :=
  rep.cells.nodup_iff.mpr List.nodup_range'

theorem zero_not_mem (rep : Rep s queued spare) : 0 ∉ queued ++ spare := by
  rw [rep.cells.mem_iff, List.mem_range']
  omega

theorem length_le (rep : Rep s queued spare) : queued.length ≤ items := by
  have := rep.cells.length_eq
  simp only [List.length_append, List.length_range'] at this
  omega

/-- The `work` command visits exactly the ring. -/
theorem pending_eq (rep : Rep s queued spare) : s.pending = queued :=
  WorkQueue.visit_spec rep.ring.linked
    (fun h => rep.zero_not_mem (List.mem_append_left spare h))
    (Nat.lt_succ_of_le rep.length_le)

/-- The search for a task id finds the one cell that holds it, or the base of
the queue when there is none. -/
theorem find_tid (rep : Rep s queued spare) (tid : Int) :
    (s.find (fun item => item.tid == tid) = some 0 ∧ ∀ i ∈ queued, (s.job i).tid ≠ tid) ∨
    ∃ l₁ x l₂, queued = l₁ ++ x :: l₂ ∧ (s.job x).tid = tid ∧ x ≠ 0 ∧
      s.find (fun item => item.tid == tid) = some x := by
  have hfind : s.find (fun item => item.tid == tid) =
      some ((queued.dropWhile fun i => !((s.queue i).tid == tid)).headD 0) :=
    WorkQueue.search_spec _ rep.ring.linked
      (fun h => rep.zero_not_mem (List.mem_append_left spare h))
      (Nat.lt_succ_of_le rep.length_le)
  cases hdrop : queued.dropWhile fun i => !((s.queue i).tid == tid) with
  | nil =>
      refine Or.inl ⟨by rw [hfind, hdrop]; rfl, fun i hi htid => ?_⟩
      have := List.dropWhile_eq_nil_iff.mp hdrop i hi
      simp [show (s.queue i).tid = tid from htid] at this
  | cons x l₂ =>
      refine Or.inr ⟨queued.takeWhile fun i => !((s.queue i).tid == tid), x, l₂, ?_, ?_, ?_,
        by rw [hfind, hdrop]; rfl⟩
      · rw [← hdrop, List.takeWhile_append_dropWhile]
      · have hne : (queued.dropWhile fun i => !((s.queue i).tid == tid)) ≠ [] := by
          simp [hdrop]
        have := List.head_dropWhile_not (fun i => !((s.queue i).tid == tid)) hne
        simpa [WorkQueue.job, hdrop] using this
      · rintro rfl
        refine rep.zero_not_mem (List.mem_append_left spare ?_)
        exact (List.dropWhile_sublist _).subset (hdrop ▸ List.mem_cons_self)

/-- What distinctness of the cells says about one queued cell. -/
theorem not_mem_of_split (rep : Rep s queued spare) {l₁ l₂ : List Nat} {x : Nat}
    (hsplit : queued = l₁ ++ x :: l₂) : x ∉ 0 :: (l₁ ++ l₂) ∧ x ∉ spare := by
  have hnodup := rep.nodup
  have hzero := rep.zero_not_mem
  subst hsplit
  have hperm : (l₁ ++ x :: l₂ ++ spare).Perm (x :: (l₁ ++ l₂) ++ spare) :=
    List.Perm.append_right spare List.perm_middle
  rw [hperm.nodup_iff, List.cons_append, List.nodup_cons, List.mem_append] at hnodup
  rw [hperm.mem_iff, List.cons_append, List.mem_cons] at hzero
  simp only [List.mem_cons]
  tauto

/-- `deque` of a queued cell, as it is used by every critical section. -/
theorem deque (rep : Rep s queued spare) {l₁ l₂ : List Nat} {x : Nat}
    (hsplit : queued = l₁ ++ x :: l₂) :
    ∃ s', s.deque x = some s' ∧ Ring s'.nexts s'.prevs 0 (l₁ ++ l₂) ∧
      s'.job = s.job ∧ s'.freelist = s.freelist ∧ Chain s'.nexts s.freelist spare := by
  obtain ⟨s', hdeque, hring, hjob, hfree, hframe⟩ :=
    WorkQueue.deque_spec (hsplit ▸ rep.ring)
  refine ⟨s', hdeque, hring, hjob, hfree, rep.free.congr fun j hj => hframe j ?_⟩
  rw [← hsplit]
  intro hmem
  rcases List.mem_cons.mp hmem with rfl | hmem
  · exact rep.zero_not_mem (List.mem_append_right queued hj)
  · exact (List.nodup_append.mp rep.nodup).2.2 j hmem j hj rfl

end Rep

/-! ## Submitting -/

/-- `s'` is `s` after the job `job` was put in cell `i` and this cell among the
cells `l` of the ring. -/
structure Placed (s s' : WorkQueue Func Data items) (i : Nat) (l spare : List Nat)
    (job : Job Func Data) : Prop where
  rep : Rep s' (WorkQueue.insertAhead s.job job.when i l) spare
  job : s'.job = Function.update s.job i job

/-- Placing a job in a cell outside the ring keeps the invariant. -/
theorem placed_of_place {s : WorkQueue Func Data items} {l spare : List Nat} {i : Nat}
    {f : Item Func Data → Item Func Data} (job : Job Func Data)
    (hring : Ring s.nexts s.prevs 0 l) (hfree : Chain s.nexts s.freelist spare)
    (hcells : (i :: (l ++ spare)).Perm (List.range' 1 items))
    (htids : (job.tid :: l.map fun j => (s.job j).tid).Nodup)
    (hnext : ∀ item, (f item).next = item.next)
    (hprev : ∀ item, (f item).prev = item.prev)
    (hjob : (s.assign i f).job i = job) :
    ∃ q s', (s.assign i f).findAhead job.when = some q ∧
      (s.assign i f).enque q i = some s' ∧ Placed s s' i l spare job := by
  have hnodup : (i :: (l ++ spare)).Nodup := hcells.nodup_iff.mpr List.nodup_range'
  have hzero : 0 ∉ i :: (l ++ spare) := by
    rw [hcells.mem_iff, List.mem_range']
    omega
  have hlength : l.length ≤ items := by
    have := hcells.length_eq
    simp only [List.length_cons, List.length_append, List.length_range'] at this
    omega
  have hfresh : i ∉ 0 :: l := by
    simp only [List.nodup_cons, List.mem_append, List.mem_cons] at hnodup hzero ⊢
    tauto
  obtain ⟨q, s', hfind, henque, hring', hjob', hfree', hframe⟩ :=
    WorkQueue.place_spec job.when hring hfresh hlength hnext hprev
  have hjobs : s'.job = Function.update s.job i job := by
    rw [hjob', WorkQueue.job_assign, hjob]
  have hperm := WorkQueue.insertAhead_perm s.job job.when i l
  refine ⟨q, s', hfind, henque, ⟨hring', ?_, ?_, ?_⟩, hjobs⟩
  · rw [hfree']
    refine hfree.congr fun j hj => hframe j ?_
    simp only [List.nodup_cons, List.nodup_append, List.mem_append, List.mem_cons,
      not_or] at hnodup hzero ⊢
    refine ⟨?_, ?_, ?_⟩
    · rintro rfl
      exact hzero.2.2 hj
    · rintro rfl
      exact hnodup.1.2 hj
    · exact fun hjl => hnodup.2.2.2 j hjl j hj rfl
  · exact ((hperm.append_right spare).trans (by simp)).trans hcells
  · have hmap : (i :: l).map (fun j => (s'.job j).tid) =
        job.tid :: l.map fun j => (s.job j).tid := by
      simp only [List.map_cons, hjobs, Function.update_self, List.cons.injEq, true_and]
      refine List.map_congr_left fun j hj => ?_
      rw [Function.update_of_ne]
      rintro rfl
      exact hfresh (List.mem_cons_of_mem 0 hj)
    exact ((hperm.map _).trans (List.Perm.of_eq hmap)).nodup_iff.mpr htids

/-- What `_nk_sched` does: it moves a pending task, takes a free cell for a new
one, or reports that there is none. -/
theorem nkSched_spec {s : WorkQueue Func Data items} {queued spare : List Nat}
    (rep : Rep s queued spare) (now : Nat) (tid : Int) (func : Func) (data : Data)
    (delay : Nat) :
    ∃ outcome s', nkSched now tid func data delay s = some (outcome, s') ∧
      ((∃ l₁ x l₂, queued = l₁ ++ x :: l₂ ∧ (s.job x).tid = tid ∧
          outcome = .returned 0 ∧
          Placed s s' x (l₁ ++ l₂) spare
            ⟨tid, func, data, u32 (now + nkConvertDelay delay)⟩) ∨
        ((∀ i ∈ queued, (s.job i).tid ≠ tid) ∧
          ((∃ i spare', spare = i :: spare' ∧ outcome = .returned 1 ∧
              Placed s s' i queued spare'
                ⟨tid, func, data, u32 (now + nkConvertDelay delay)⟩) ∨
            (spare = [] ∧ outcome = .tooMany 1 ∧ s' = s)))) := by
  rcases rep.find_tid tid with ⟨hfind, hnone⟩ | ⟨l₁, x, l₂, hsplit, htid, hx, hfind⟩
  · cases spare with
    | nil =>
        have hfree : s.freelist = none := rep.free
        refine ⟨.tooMany 1, s, ?_, Or.inr ⟨hnone, Or.inr ⟨rfl, rfl, rfl⟩⟩⟩
        simp [nkSched, hfind, WorkQueue.allocItem, hfree]
    | cons i spare =>
        obtain ⟨hfree, hchain⟩ := rep.free
        have hperm : (i :: (queued ++ spare)).Perm (queued ++ i :: spare) :=
          List.perm_middle.symm
        obtain ⟨q, s', hahead, henque, hplaced⟩ :=
          placed_of_place (s := { s with freelist := (s.queue i).next }) (i := i)
            (f := fun old => { old with
              tid := tid, func := func, data := data
              when := u32 (now + nkConvertDelay delay) })
            ⟨tid, func, data, u32 (now + nkConvertDelay delay)⟩
            rep.ring hchain (hperm.trans rep.cells)
            (List.nodup_cons.mpr ⟨fun hmem => by
              obtain ⟨j, hj, htid⟩ := List.mem_map.mp hmem
              exact hnone j hj htid, rep.tids⟩)
            (fun _ => rfl) (fun _ => rfl)
            (by simp [WorkQueue.job, WorkQueue.assign])
        refine ⟨.returned 1, s', ?_, Or.inr ⟨hnone, Or.inl ⟨i, spare, rfl, rfl, ?_⟩⟩⟩
        · simp [nkSched, hfind, WorkQueue.allocItem, hfree, hahead, henque]
        · exact ⟨hplaced.rep, hplaced.job⟩
  · obtain ⟨s₁, hdeque, hring, hjob, hfree, hchain⟩ := rep.deque hsplit
    have hperm : (x :: (l₁ ++ l₂ ++ spare)).Perm (queued ++ spare) :=
      hsplit ▸ List.perm_middle.symm.append_right spare
    have htids : (tid :: (l₁ ++ l₂).map fun j => (s₁.job j).tid).Nodup := by
      have := rep.tids
      rw [hsplit, (List.perm_middle.map _).nodup_iff, List.map_cons, htid] at this
      rwa [hjob]
    obtain ⟨q, s', hahead, henque, hplaced⟩ :=
      placed_of_place (s := s₁) (i := x)
        (f := fun old => { old with
          tid := tid, func := func, data := data
          when := u32 (now + nkConvertDelay delay) })
        ⟨tid, func, data, u32 (now + nkConvertDelay delay)⟩
        hring (hfree ▸ hchain) (hperm.trans rep.cells) htids (fun _ => rfl)
        (fun _ => rfl) (by simp [WorkQueue.job, WorkQueue.assign])
    refine ⟨.returned 0, s', ?_, Or.inl ⟨l₁, x, l₂, hsplit, htid, rfl, ?_⟩⟩
    · simp [nkSched, hfind, hx, hdeque, hahead, henque]
    · exact ⟨hjob ▸ hplaced.rep, hjob ▸ hplaced.job⟩

/-- What `nk_resched` does: it moves a pending task and ignores any other. -/
theorem nkResched_spec {s : WorkQueue Func Data items} {queued spare : List Nat}
    (rep : Rep s queued spare) (now : Nat) (tid : Int) (func : Func) (data : Data)
    (delay : Nat) :
    ∃ outcome s', nkResched now tid func data delay s = some (outcome, s') ∧
      ((∃ l₁ x l₂, queued = l₁ ++ x :: l₂ ∧ (s.job x).tid = tid ∧
          outcome = .returned 1 ∧
          Placed s s' x (l₁ ++ l₂) spare
            ⟨tid, func, data, u32 (now + nkConvertDelay delay)⟩) ∨
        ((∀ i ∈ queued, (s.job i).tid ≠ tid) ∧ outcome = .returned 0 ∧ s' = s)) := by
  rcases rep.find_tid tid with ⟨hfind, hnone⟩ | ⟨l₁, x, l₂, hsplit, htid, hx, hfind⟩
  · exact ⟨.returned 0, s, by simp [nkResched, hfind], Or.inr ⟨hnone, rfl, rfl⟩⟩
  · obtain ⟨s₁, hdeque, hring, hjob, hfree, hchain⟩ := rep.deque hsplit
    have hperm : (x :: (l₁ ++ l₂ ++ spare)).Perm (queued ++ spare) :=
      hsplit ▸ List.perm_middle.symm.append_right spare
    have htids : (tid :: (l₁ ++ l₂).map fun j => (s₁.job j).tid).Nodup := by
      have := rep.tids
      rw [hsplit, (List.perm_middle.map _).nodup_iff, List.map_cons, htid] at this
      rwa [hjob]
    have hkept : (s₁.queue x).tid = tid := (congrArg Job.tid (congrFun hjob x)).trans htid
    obtain ⟨q, s', hahead, henque, hplaced⟩ :=
      placed_of_place (s := s₁) (i := x)
        (f := fun old => { old with
          when := u32 (now + nkConvertDelay delay), func := func, data := data })
        ⟨tid, func, data, u32 (now + nkConvertDelay delay)⟩
        hring (hfree ▸ hchain) (hperm.trans rep.cells) htids (fun _ => rfl)
        (fun _ => rfl) (by simp [WorkQueue.job, WorkQueue.assign, hkept])
    refine ⟨.returned 1, s', ?_, Or.inl ⟨l₁, x, l₂, hsplit, htid, rfl, ?_⟩⟩
    · simp [nkResched, hfind, hx, hdeque, hahead, henque]
    · exact ⟨hjob ▸ hplaced.rep, hjob ▸ hplaced.job⟩

/-! ## Taking items out -/

/-- `s'` is `s` after a queued cell was taken out of the ring and freed. -/
theorem Rep.removed {s s₁ : WorkQueue Func Data items} {queued spare l₁ l₂ : List Nat}
    {x : Nat} (rep : Rep s queued spare) (hsplit : queued = l₁ ++ x :: l₂)
    (hring : Ring s₁.nexts s₁.prevs 0 (l₁ ++ l₂)) (hjob : s₁.job = s.job)
    (hfree : s₁.freelist = s.freelist) (hchain : Chain s₁.nexts s.freelist spare) :
    Rep (s₁.freeItem x) (l₁ ++ l₂) (x :: spare) := by
  obtain ⟨hxring, hxspare⟩ := rep.not_mem_of_split hsplit
  refine ⟨⟨hring.linked.congr ?_ ?_, hring.nodup⟩, ⟨by simp, ?_⟩, ?_, ?_⟩
  · intro j hj
    have hjx : j ≠ x := by
      rintro rfl
      exact hxring hj
    simp [Function.update_of_ne hjx]
  · simp
  · have hchain' : Chain s₁.nexts ((s₁.freeItem x).nexts x) spare := by
      simpa [hfree] using hchain
    refine hchain'.congr fun j hj => ?_
    have hjx : j ≠ x := by
      rintro rfl
      exact hxspare hj
    simp [Function.update_of_ne hjx]
  · refine List.Perm.trans ?_ rep.cells
    rw [hsplit]
    have h₁ : (l₁ ++ l₂ ++ x :: spare).Perm (x :: (l₁ ++ l₂ ++ spare)) := List.perm_middle
    have h₂ : (x :: (l₁ ++ (l₂ ++ spare))).Perm (l₁ ++ x :: (l₂ ++ spare)) :=
      List.perm_middle.symm
    simpa using h₁.trans (by simpa using h₂)
  · have := rep.tids
    rw [hsplit, (List.perm_middle.map _).nodup_iff, List.map_cons, List.nodup_cons] at this
    simpa [hjob] using this.2

/-- What `nk_unsched` does. -/
theorem nkUnsched_spec {s : WorkQueue Func Data items} {queued spare : List Nat}
    (rep : Rep s queued spare) (tid : Int) :
    ∃ outcome s', nkUnsched tid s = some (outcome, s') ∧
      ((∃ l₁ x l₂, queued = l₁ ++ x :: l₂ ∧ (s.job x).tid = tid ∧
          outcome = .returned 1 ∧ Rep s' (l₁ ++ l₂) (x :: spare) ∧ s'.job = s.job) ∨
        ((∀ i ∈ queued, (s.job i).tid ≠ tid) ∧ outcome = .returned 0 ∧ s' = s)) := by
  rcases rep.find_tid tid with ⟨hfind, hnone⟩ | ⟨l₁, x, l₂, hsplit, htid, hx, hfind⟩
  · exact ⟨.returned 0, s, by simp [nkUnsched, hfind], Or.inr ⟨hnone, rfl, rfl⟩⟩
  · obtain ⟨s₁, hdeque, hring, hjob, hfree, hchain⟩ := rep.deque hsplit
    refine ⟨.returned 1, s₁.freeItem x, by simp [nkUnsched, hfind, hx, hdeque],
      Or.inl ⟨l₁, x, l₂, hsplit, htid, rfl, ?_, by simp [hjob]⟩⟩
    exact rep.removed hsplit hring hjob hfree hchain

/-- What `nk_check` does. -/
theorem nkCheck_spec {s : WorkQueue Func Data items} {queued spare : List Nat}
    (rep : Rep s queued spare) (tid : Int) :
    ∃ rtn, nkCheck tid s = some (.returned rtn, s) ∧
      ((rtn = 1 ∧ ∃ i ∈ queued, (s.job i).tid = tid) ∨
        (rtn = 0 ∧ ∀ i ∈ queued, (s.job i).tid ≠ tid)) := by
  rcases rep.find_tid tid with ⟨hfind, hnone⟩ | ⟨l₁, x, l₂, hsplit, htid, hx, hfind⟩
  · exact ⟨0, by simp [nkCheck, hfind], Or.inr ⟨rfl, hnone⟩⟩
  · exact ⟨1, by simp [nkCheck, hfind, hx], Or.inl ⟨rfl, x, by simp [hsplit], htid⟩⟩

/-- What one pass of the main loop does: it takes the first item of the ring if
that item is due, and waits otherwise. -/
theorem nkSchedLoop_spec {s : WorkQueue Func Data items} {queued spare : List Nat}
    (rep : Rep s queued spare) (now : Nat) :
    ∃ outcome s', nkSchedLoop now s = some (outcome, s') ∧
      ((∃ x l, queued = x :: l ∧ 0 ≤ int32 ((now : Int) - ((s.job x).when : Int)) ∧
          outcome = .run (s.job x).tid (s.job x).func (s.job x).data ∧
          Rep s' l (x :: spare) ∧ s'.job = s.job) ∨
        ((∀ x l, queued = x :: l → int32 ((now : Int) - ((s.job x).when : Int)) < 0) ∧
          outcome = .wait ∧ s' = s)) := by
  cases queued with
  | nil =>
      have hnext : s.nexts 0 = some 0 := rep.ring.linked.1
      refine ⟨.wait, s, ?_, Or.inr ⟨by simp, rfl, rfl⟩⟩
      simp [nkSchedLoop, WorkQueue.queueNotEmpty, hnext]
  | cons x l =>
      have hnext : (s.queue 0).next = some x := rep.ring.linked.1
      have hx : x ≠ 0 := fun h => rep.zero_not_mem (by simp [h])
      have hnotEmpty : s.queueNotEmpty = true := by
        simp [WorkQueue.queueNotEmpty, WorkQueue.nexts, hnext, hx]
      by_cases hdue : 0 ≤ int32 ((now : Int) - ((s.job x).when : Int))
      · have hsplit : x :: l = [] ++ x :: l := rfl
        obtain ⟨s₁, hdeque, hring, hjob, hfree, hchain⟩ := rep.deque hsplit
        have hremoved : Rep (WorkQueue.freeItem { s₁ with currentTid := (s₁.queue x).tid } x)
            l (x :: spare) := rep.removed hsplit hring hjob hfree hchain
        refine ⟨_, _, ?_, Or.inl ⟨x, l, rfl, hdue, rfl, hremoved, ?_⟩⟩
        · have hfunc : (s₁.queue x).func = (s.job x).func :=
            congrArg Job.func (congrFun hjob x)
          have hdata : (s₁.queue x).data = (s.job x).data :=
            congrArg Job.data (congrFun hjob x)
          have htid : (s₁.queue x).tid = (s.job x).tid :=
            congrArg Job.tid (congrFun hjob x)
          have hdue' : 0 ≤ int32 ((now : Int) - ((s.queue x).when : Int)) := hdue
          simp [nkSchedLoop, hnotEmpty, hnext, hdue', hdeque, hfunc, hdata, htid]
        · rw [WorkQueue.job_freeItem]
          exact hjob
      · refine ⟨.wait, s, ?_, Or.inr ⟨?_, rfl, rfl⟩⟩
        · have hdue' : ¬ 0 ≤ int32 ((now : Int) - ((s.queue x).when : Int)) := hdue
          simp [nkSchedLoop, hnotEmpty, hnext, hdue']
        · rintro y l' heq
          obtain ⟨rfl, -⟩ := List.cons.inj heq
          omega

/-! ## Reachable states -/

/-- Freeing the cells `1, 2, ..., n` one after the other builds a free list of
them and leaves the empty ring alone. -/
theorem freeItem_foldl_rep (s : WorkQueue Func Data items)
    (hnext : s.nexts 0 = some 0) (hprev : s.prevs 0 = some 0)
    (hfree : s.freelist = none) (n : Nat) :
    ∃ spare, Ring ((List.range' 1 n).foldl WorkQueue.freeItem s).nexts
        ((List.range' 1 n).foldl WorkQueue.freeItem s).prevs 0 [] ∧
      Chain ((List.range' 1 n).foldl WorkQueue.freeItem s).nexts
        ((List.range' 1 n).foldl WorkQueue.freeItem s).freelist spare ∧
      spare.Perm (List.range' 1 n) := by
  induction n with
  | zero => exact ⟨[], ⟨⟨hnext, hprev⟩, by simp⟩, hfree, List.Perm.refl _⟩
  | succ n ih =>
      obtain ⟨spare, hring, hchain, hperm⟩ := ih
      have hfresh : n + 1 ∉ spare := by
        rw [hperm.mem_iff, List.mem_range']
        omega
      rw [List.range'_1_concat, List.foldl_append, Nat.add_comm 1 n]
      simp only [List.foldl_cons, List.foldl_nil]
      refine ⟨(n + 1) :: spare, ⟨⟨?_, ?_⟩, by simp⟩, ⟨by simp, ?_⟩, ?_⟩
      · rw [WorkQueue.nexts_freeItem, Function.update_of_ne (by omega)]
        exact hring.linked.1
      · rw [WorkQueue.prevs_freeItem]
        exact hring.linked.2
      · rw [WorkQueue.nexts_freeItem, Function.update_self]
        refine hchain.congr fun j hj => Function.update_of_ne ?_ _ _
        rintro rfl
        exact hfresh hj
      · exact (List.Perm.cons _ hperm).trans (List.perm_append_singleton _ _).symm

theorem nkInitSched_rep (s : WorkQueue Func Data items) :
    ∃ spare, Rep (nkInitSched s) [] spare := by
  obtain ⟨spare, hring, hchain, hperm⟩ :=
    freeItem_foldl_rep
      { (s.setNext 0 (some 0)).setPrev 0 (some 0) with freelist := none }
      (show ((s.setNext 0 (some 0)).setPrev 0 (some 0)).nexts 0 = some 0 by simp)
      (show ((s.setNext 0 (some 0)).setPrev 0 (some 0)).prevs 0 = some 0 by simp)
      rfl items
  exact ⟨spare, hring, hchain, by simpa using hperm, by simp⟩

/-- Every critical section runs to its end on a well-formed queue and leaves a
well-formed queue. -/
theorem step_rep {s : WorkQueue Func Data items} {queued spare : List Nat}
    (rep : Rep s queued spare) (call : Call Func Data) :
    ∃ outcome s', step call s = some (outcome, s') ∧
      ∃ queued' spare', Rep s' queued' spare' := by
  cases call with
  | sched now tid func data delay =>
      obtain ⟨outcome, s', hstep, hcases⟩ := nkSched_spec rep now tid func data delay
      refine ⟨outcome, s', hstep, ?_⟩
      rcases hcases with ⟨l₁, x, l₂, -, -, -, hplaced⟩ |
        ⟨-, ⟨i, spare', -, -, hplaced⟩ | ⟨-, -, rfl⟩⟩
      · exact ⟨_, _, hplaced.rep⟩
      · exact ⟨_, _, hplaced.rep⟩
      · exact ⟨_, _, rep⟩
  | resched now tid func data delay =>
      obtain ⟨outcome, s', hstep, hcases⟩ := nkResched_spec rep now tid func data delay
      refine ⟨outcome, s', hstep, ?_⟩
      rcases hcases with ⟨l₁, x, l₂, -, -, -, hplaced⟩ | ⟨-, -, rfl⟩
      · exact ⟨_, _, hplaced.rep⟩
      · exact ⟨_, _, rep⟩
  | unsched tid =>
      obtain ⟨outcome, s', hstep, hcases⟩ := nkUnsched_spec rep tid
      refine ⟨outcome, s', hstep, ?_⟩
      rcases hcases with ⟨l₁, x, l₂, -, -, -, hrep, -⟩ | ⟨-, -, rfl⟩
      · exact ⟨_, _, hrep⟩
      · exact ⟨_, _, rep⟩
  | check tid =>
      obtain ⟨rtn, hstep, -⟩ := nkCheck_spec rep tid
      exact ⟨_, s, hstep, _, _, rep⟩
  | loop now =>
      obtain ⟨outcome, s', hstep, hcases⟩ := nkSchedLoop_spec rep now
      refine ⟨outcome, s', hstep, ?_⟩
      rcases hcases with ⟨x, l, -, -, -, hrep, -⟩ | ⟨-, -, rfl⟩
      · exact ⟨_, _, hrep⟩
      · exact ⟨_, _, rep⟩

theorem Reachable.rep {s : WorkQueue Func Data items} (h : Reachable s) :
    ∃ queued spare, Rep s queued spare := by
  induction h with
  | init s => exact ⟨[], nkInitSched_rep s⟩
  | step call _ done ih =>
      obtain ⟨queued, spare, rep⟩ := ih
      obtain ⟨outcome, s', hstep, hrep⟩ := step_rep rep call
      obtain ⟨-, rfl⟩ := Prod.mk.inj (Option.some.inj (hstep.symm.trans done))
      exact hrep

/-- In every reachable state the cells are split between the ring and the free
list, `prev` inverts `next` along the ring, the ring comes back to the base of
the queue, no task id is queued twice, and every critical section completes. -/
theorem reachable_wellFormed {s : WorkQueue Func Data items} (h : Reachable s) :
    ∃ queued spare : List Nat,
      ((fun p : Option Nat => p.bind s.nexts)^[queued.length + 1] (some 0) = some 0) ∧
      (∀ i ∈ 0 :: queued, ∃ j ∈ 0 :: queued, s.nexts i = some j ∧ s.prevs j = some i) ∧
      (∀ j ∈ 0 :: queued, ∃ i ∈ 0 :: queued, s.prevs j = some i ∧ s.nexts i = some j) ∧
      Linked s.nexts s.prevs 0 queued 0 ∧
      Chain s.nexts s.freelist spare ∧
      (0 :: (queued ++ spare)).Perm (List.range (items + 1)) ∧
      (queued.map fun i => (s.queue i).tid).Nodup ∧
      ∀ call : Call Func Data, ∃ outcome s', step call s = some (outcome, s') := by
  obtain ⟨queued, spare, rep⟩ := h.rep
  refine ⟨queued, spare, rep.ring.linked.iterate, fun i hi => rep.ring.next_of_mem hi,
    fun j hj => rep.ring.prev_of_mem hj, rep.ring.linked, rep.free, ?_, rep.tids, ?_⟩
  · rw [List.range_eq_range', List.range'_succ]
    exact List.Perm.cons 0 rep.cells
  · intro call
    obtain ⟨outcome, s', hstep, -⟩ := step_rep rep call
    exact ⟨outcome, s', hstep⟩

/-- One task queued in a pool of two items. -/
theorem reachable_wellFormed_two :
    ∃ s : WorkQueue Nat Nat 2,
      step (.sched 5 7 1 2 3)
          (nkInitSched ⟨fun _ => ⟨none, none, 0, 0, 0, 0⟩, none, 0⟩) =
        some (.returned 1, s) ∧
      ∃ queued spare : List Nat, (0 :: (queued ++ spare)).Perm (List.range 3) ∧
        (queued.map fun i => (s.queue i).tid).Nodup := by
  refine ⟨_, rfl, ?_⟩
  obtain ⟨queued, spare, -, -, -, -, -, hcells, htids, -⟩ :=
    reachable_wellFormed (.step (.sched 5 7 1 2 3)
      (.init (⟨fun _ => ⟨none, none, 0, 0, 0, 0⟩, none, 0⟩ : WorkQueue Nat Nat 2)) rfl)
  exact ⟨queued, spare, hcells, htids⟩

end LibnklabsPico.Sched
