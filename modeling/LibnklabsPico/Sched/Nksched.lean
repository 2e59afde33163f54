/-
  Sched/Nksched.lean --- the work queue scheduler of `libnklabs/src/nksched.c`.

  The array `queue[NK_WORK_QUEUE_SIZE]` is kept as it is in C: cell `0` is the
  base of the ring, a pointer to a cell is its index and the null pointer is
  `none`.  Every function below is one critical section under `sched_lock`.

  A critical section that would follow a null pointer, or a search loop that
  does not come back to the base of the queue, has the result `none`.  The
  fields `name`, `by` and `comment`, which only the `work` command prints, are
  left out.
-/
import LibnklabsPico.Foundation.Ring
import LibnklabsPico.Foundation.Word

set_option autoImplicit false

namespace LibnklabsPico.Sched

open LibnklabsPico.Foundation

/-- `struct item`. -/
structure Item (Func Data : Type) where
  next : Option Nat
  prev : Option Nat
  tid : Int
  func : Func
  data : Data
  /-- Time in timer ticks -/
  when : Nat

/-- The static variables of `nksched.c`, for a queue array of `items + 1` cells
(`NK_WORK_QUEUE_SIZE`): the base of the queue and the items to use. -/
structure WorkQueue (Func Data : Type) (items : Nat) where
  queue : Nat → Item Func Data
  freelist : Option Nat
  currentTid : Int

/-- What a critical section does besides changing the queue. -/
inductive Outcome (Func Data : Type) where
  /-- it returns to its caller -/
  | returned (rtn : Int)
  /-- it returns after `nk_error_message("Too many work queue entries ...")` -/
  | tooMany (rtn : Int)
  /-- the main loop calls `func(data)` with `current_tid` set to `tid` -/
  | run (tid : Int) (func : Func) (data : Data)
  /-- the main loop waits for the next interrupt -/
  | wait

variable {Func Data : Type} {items : Nat}

namespace WorkQueue

/-- All `next` links. -/
def nexts (s : WorkQueue Func Data items) (i : Nat) : Option Nat := (s.queue i).next

/-- All `prev` links. -/
def prevs (s : WorkQueue Func Data items) (i : Nat) : Option Nat := (s.queue i).prev

/-- Assign to the members of one cell. -/
def assign (s : WorkQueue Func Data items) (i : Nat)
    (f : Item Func Data → Item Func Data) : WorkQueue Func Data items :=
  { s with queue := Function.update s.queue i (f (s.queue i)) }

/-- `queue[i].next = p` -/
def setNext (s : WorkQueue Func Data items) (i : Nat) (p : Option Nat) :
    WorkQueue Func Data items :=
  s.assign i fun item => { item with next := p }

/-- `queue[i].prev = p` -/
def setPrev (s : WorkQueue Func Data items) (i : Nat) (p : Option Nat) :
    WorkQueue Func Data items :=
  s.assign i fun item => { item with prev := p }

/-- `alloc_item`: the null pointer when the free list is empty. -/
def allocItem (s : WorkQueue Func Data items) : Option Nat × WorkQueue Func Data items :=
  match s.freelist with
  | some i => (some i, { s with freelist := (s.queue i).next })
  | none => (none, s)

/-- `free_item` -/
def freeItem (s : WorkQueue Func Data items) (i : Nat) : WorkQueue Func Data items :=
  { s.setNext i s.freelist with freelist := some i }

/-- `deque`: join the neighbours of cell `i`. -/
def deque (s : WorkQueue Func Data items) (i : Nat) : Option (WorkQueue Func Data items) := do
  let p ← (s.queue i).prev
  let s := s.setNext p (s.queue i).next
  let n ← (s.queue i).next
  return s.setPrev n (s.queue i).prev

/-- `enque`: put cell `i` in front of cell `q`. -/
def enque (s : WorkQueue Func Data items) (q i : Nat) : Option (WorkQueue Func Data items) := do
  let s := s.setNext i (some q)
  let s := s.setPrev i (s.queue q).prev
  let p ← (s.queue q).prev
  let s := s.setNext p (some i)
  return s.setPrev q (some i)

/-- `queue_not_empty` -/
def queueNotEmpty (s : WorkQueue Func Data items) : Bool := s.nexts 0 != some 0

/-- The loop `for (item = ...; item != queue; item = item->next) if (...) break;`
of every search: the first cell that meets the test, or the base of the queue. -/
def search (s : WorkQueue Func Data items) (test : Item Func Data → Bool) :
    Nat → Option Nat → Option Nat
  | 0, _ => none
  | _ + 1, none => none
  | fuel + 1, some i =>
      if i = 0 then some 0
      else if test (s.queue i) then some i
      else s.search test fuel (s.queue i).next

/-- Search from `queue->next`. -/
def find (s : WorkQueue Func Data items) (test : Item Func Data → Bool) : Option Nat :=
  s.search test (items + 1) (s.queue 0).next

/-- The cell in front of which an item due at `when` goes: the first item ahead
of it in time, or the end of the queue. -/
def findAhead (s : WorkQueue Func Data items) (when : Nat) : Option Nat :=
  s.find fun q => decide (0 < int32 ((q.when : Int) - (when : Int)))

/-- The cells that the loop of the `work` command visits:
`for (i = queue->next; i != queue; i = i->next)`. -/
def visit (s : WorkQueue Func Data items) : Nat → Option Nat → List Nat
  | 0, _ => []
  | _ + 1, none => []
  | fuel + 1, some i => if i = 0 then [] else i :: s.visit fuel (s.queue i).next

/-- The pending cells, in queue order. -/
def pending (s : WorkQueue Func Data items) : List Nat :=
  s.visit (items + 1) (s.queue 0).next

end WorkQueue

/-- `NK_TIME_COUNTS_PER_SECOND` of the pico port. -/
def nkTimeCountsPerSecond : Nat := 1000000

/-- `nk_convert_delay`: milliseconds to timer ticks. -/
def nkConvertDelay (delay : Nat) : Nat :=
  u32 (delay * (nkTimeCountsPerSecond / 1000))

/-- `nk_init_sched`: whatever was in memory, an empty ring and all the other
cells on the free list. -/
def nkInitSched (s : WorkQueue Func Data items) : WorkQueue Func Data items :=
  let s := s.setNext 0 (some 0)
  let s := s.setPrev 0 (some 0)
  let s := { s with freelist := none }
  (List.range' 1 items).foldl WorkQueue.freeItem s

/-- `_nk_sched` at clock value `now`. -/
def nkSched (now : Nat) (tid : Int) (func : Func) (data : Data) (delay : Nat)
    (s : WorkQueue Func Data items) : Option (Outcome Func Data × WorkQueue Func Data items) := do
  let delay := nkConvertDelay delay
  -- Maybe this function is already queued.. if so reschedule
  let found ← s.find fun item => item.tid == tid
  let (item, rtn, s) ←
    if found = 0 then
      let (item, s) := s.allocItem
      pure (item, (1 : Int), s)
    else do
      let s ← s.deque found
      pure (some found, (0 : Int), s)
  match item with
  | some item => do
      let when := u32 (now + delay)
      let s := s.assign item fun old =>
        { old with tid := tid, func := func, data := data, when := when }
      let q ← s.findAhead when
      let s ← s.enque q item
      return (.returned rtn, s)
  | none => return (.tooMany rtn, s)

/-- `nk_resched` at clock value `now`. -/
def nkResched (now : Nat) (tid : Int) (func : Func) (data : Data) (delay : Nat)
    (s : WorkQueue Func Data items) : Option (Outcome Func Data × WorkQueue Func Data items) := do
  let delay := nkConvertDelay delay
  let item ← s.find fun item => item.tid == tid
  if item = 0 then
    return (.returned 0, s)
  else
    let s ← s.deque item
    let when := u32 (now + delay)
    let s := s.assign item fun old => { old with when := when, func := func, data := data }
    let q ← s.findAhead when
    let s ← s.enque q item
    return (.returned 1, s)

/-- `nk_unsched` -/
def nkUnsched (tid : Int) (s : WorkQueue Func Data items) :
    Option (Outcome Func Data × WorkQueue Func Data items) := do
  let item ← s.find fun item => item.tid == tid
  if item = 0 then
    return (.returned 0, s)
  else
    let s ← s.deque item
    return (.returned 1, s.freeItem item)

/-- `nk_check` -/
def nkCheck (tid : Int) (s : WorkQueue Func Data items) :
    Option (Outcome Func Data × WorkQueue Func Data items) := do
  let item ← s.find fun item => item.tid == tid
  return (.returned (if item = 0 then 0 else 1), s)

/-- One pass of the `for (;;)` of `nk_sched_loop` at clock value `now`, up to
the call of the job or to the wait. -/
def nkSchedLoop (now : Nat) (s : WorkQueue Func Data items) :
    Option (Outcome Func Data × WorkQueue Func Data items) := do
  if s.queueNotEmpty then
    let head ← (s.queue 0).next
    if 0 ≤ int32 ((now : Int) - ((s.queue head).when : Int)) then
      let s ← s.deque head
      let func := (s.queue head).func
      let data := (s.queue head).data
      let s := { s with currentTid := (s.queue head).tid }
      return (.run s.currentTid func data, s.freeItem head)
    else return (.wait, s)
  else return (.wait, s)

/-- The critical sections, with the clock value each one reads. -/
inductive Call (Func Data : Type) where
  | sched (now : Nat) (tid : Int) (func : Func) (data : Data) (delay : Nat)
  | resched (now : Nat) (tid : Int) (func : Func) (data : Data) (delay : Nat)
  | unsched (tid : Int)
  | check (tid : Int)
  | loop (now : Nat)

/-- Execute one critical section. -/
def step : Call Func Data → WorkQueue Func Data items →
    Option (Outcome Func Data × WorkQueue Func Data items)
  | .sched now tid func data delay => nkSched now tid func data delay
  | .resched now tid func data delay => nkResched now tid func data delay
  | .unsched tid => nkUnsched tid
  | .check tid => nkCheck tid
  | .loop now => nkSchedLoop now

/-- The states some interleaving of critical sections leads to after
`nk_init_sched`. -/
inductive Reachable : WorkQueue Func Data items → Prop where
  | init (s : WorkQueue Func Data items) : Reachable (nkInitSched s)
  | step {s s' : WorkQueue Func Data items} {outcome : Outcome Func Data}
      (call : Call Func Data) (before : Reachable s)
      (done : step call s = some (outcome, s')) : Reachable s'

end LibnklabsPico.Sched
