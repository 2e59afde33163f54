/-
  Uart/Console.lean --- the console receiver under every interleaving.

  A run takes interrupts, the functions of the receiver and the critical
  sections of the scheduler in any order.  Its history records what an observer
  sees: the characters that arrived and were read, the last registered callback,
  whether there was anything to read since then, and the calls of `nk_sched`
  made since then.  `Inv` ties the history to the ring and to the one-shot
  registration.
-/
import LibnklabsPico.Foundation.Circular
import LibnklabsPico.Sched.Invariant
import LibnklabsPico.Uart.NkuartPico

set_option autoImplicit false

namespace LibnklabsPico.Uart

open LibnklabsPico.Foundation LibnklabsPico.Sched

variable {Func Data : Type} {items k : Nat}

/-- The characters in the ring, oldest first. -/
def Receiver.ring (k : Nat) (s : Receiver Func Data) : List UInt8 :=
  unread 32 k s.rxBuf s.rxBufRd s.rxBufWr

/-- What can be seen of a run. -/
structure History (Func Data : Type) where
  /-- characters put in the ring -/
  put : List UInt8
  /-- characters returned by `nk_getc` -/
  got : List UInt8
  /-- arguments of the last `nk_set_uart_callback` -/
  callback : Option (Int × Func × Data)
  /-- there was something to read during or after it -/
  present : Bool
  /-- calls of `nk_sched` made during or after it -/
  scheduled : List (Call Func Data × Outcome Func Data)

namespace History

def empty : History Func Data := ⟨[], [], none, false, []⟩

/-- An interrupt brought characters. -/
def receive (h : History Func Data) (chars : List UInt8)
    (scheduled : Scheduled Func Data) : History Func Data :=
  { h with
    put := h.put ++ chars
    present := h.present || !chars.isEmpty
    scheduled := h.scheduled ++ scheduled.toList }

/-- A callback was registered while `ring` was in the ring. -/
def register (h : History Func Data) (tid : Int) (func : Func) (data : Data)
    (ring : List UInt8) (scheduled : Scheduled Func Data) : History Func Data :=
  { h with
    callback := some (tid, func, data)
    present := !ring.isEmpty
    scheduled := scheduled.toList }

/-- `nk_getc` returned `ch`. -/
def read (h : History Func Data) (ch : Int) : History Func Data :=
  { h with got := h.got ++ if ch = -1 then [] else [UInt8.ofNat ch.toNat] }

end History

/-- The work queue had room for what was scheduled. -/
def HasRoom (scheduled : Scheduled Func Data) : Prop :=
  ∀ call outcome, scheduled = some (call, outcome) → ∃ rtn, outcome = .returned rtn

/-- Runs from power up, for a receive buffer of `2 ^ k` characters. -/
inductive Run (k : Nat) (null : Data) : Console Func Data items → History Func Data → Prop where
  | boot (work : WorkQueue Func Data items) :
      Run k null ⟨.zeroed null, nkInitSched work⟩ .empty
  | onUartRx {s s' : Console Func Data items} {h : History Func Data}
      {scheduled : Scheduled Func Data} (before : Run k null s h) (now : Nat)
      (chars : List UInt8) (some_chars : chars ≠ [])
      (fit : (s.uart.ring k).length + chars.length ≤ 2 ^ k)
      (done : onUartRx (2 ^ k) now chars s = some (scheduled, s'))
      (room : HasRoom scheduled) : Run k null s' (h.receive chars scheduled)
  | nkSetUartCallback {s s' : Console Func Data items} {h : History Func Data}
      {scheduled : Scheduled Func Data} (before : Run k null s h) (now : Nat) (tid : Int)
      (func : Func) (data : Data)
      (done : nkSetUartCallback now tid func data s = some (scheduled, s'))
      (room : HasRoom scheduled) :
      Run k null s' (h.register tid func data (s.uart.ring k) scheduled)
  | nkGetc {s : Console Func Data items} {h : History Func Data} (before : Run k null s h) :
      Run k null { s with uart := (nkGetc (2 ^ k) s.uart).2 }
        (h.read (nkGetc (2 ^ k) s.uart).1)
  | sched {s : Console Func Data items} {work : WorkQueue Func Data items}
      {h : History Func Data} {outcome : Outcome Func Data} (before : Run k null s h)
      (call : Call Func Data) (done : step call s.work = some (outcome, work)) :
      Run k null { s with work := work } h

/-- The receiver agrees with the history of its run. -/
structure Inv (k : Nat) (s : Receiver Func Data) (h : History Func Data) : Prop where
  rd_lt : s.rxBufRd < 2 ^ 32
  wr_lt : s.rxBufWr < 2 ^ 32
  fits : (s.ring k).length ≤ 2 ^ k
  order : h.got ++ s.ring k = h.put
  idle : h.callback = none → s.waitingRxTask = none
  asleep : ∀ tid func data, h.callback = some (tid, func, data) → h.present = false →
    s.ring k = [] ∧ s.waitingRxTid = tid ∧ s.waitingRxTask = some func ∧
      s.waitingRxTaskData = data ∧ h.scheduled = []
  woken : ∀ tid func data, h.callback = some (tid, func, data) → h.present = true →
    s.waitingRxTask = none ∧
      ∃ now rtn, h.scheduled = [(.sched now tid func data 0, .returned rtn)]

/-! ## The ring -/

namespace Receiver

variable {s : Receiver Func Data}

theorem ring_eq_nil (hrd : s.rxBufRd < 2 ^ 32) (hwr : s.rxBufWr < 2 ^ 32) :
    s.ring k = [] ↔ s.rxBufRd = s.rxBufWr :=
  unread_eq_nil hrd hwr

@[simp] theorem length_ring : (s.ring k).length = unreadCount 32 s.rxBufRd s.rxBufWr := by
  simp [ring]

theorem ring_store (hk : k < 32) (hwr : s.rxBufWr < 2 ^ 32)
    (hroom : (s.ring k).length < 2 ^ k) (c : UInt8) :
    (s.store (2 ^ k) c).ring k = s.ring k ++ [c] := by
  rw [length_ring] at hroom
  have hstore := unread_store hk s.rxBuf hwr hroom c
  simpa only [ring, store, u32, Nat.and_two_pow_sub_one_eq_mod] using hstore

end Receiver

/-- Characters that fit are stored behind those in the ring; nothing but the
buffer and its write counter changes. -/
theorem rxChars_spec (hk : k < 32) (chars : List UInt8) {s : Receiver Func Data}
    (hwr : s.rxBufWr < 2 ^ 32) (hfit : (s.ring k).length + chars.length ≤ 2 ^ k) :
    ∃ buf wr, wr < 2 ^ 32 ∧
      rxChars (2 ^ k) chars s = some { s with rxBuf := buf, rxBufWr := wr } ∧
      Receiver.ring k { s with rxBuf := buf, rxBufWr := wr } = s.ring k ++ chars := by
  induction chars generalizing s with
  | nil => exact ⟨s.rxBuf, s.rxBufWr, hwr, rfl, (List.append_nil _).symm⟩
  | cons c chars ih =>
      rw [List.length_cons] at hfit
      have hroom : (s.ring k).length < 2 ^ k := by omega
      have hring := Receiver.ring_store hk hwr hroom c
      obtain ⟨buf, wr, hwr', hchars, hring'⟩ := ih (s := s.store (2 ^ k) c) (u32_lt _) (by
        rw [hring, List.length_append, List.length_singleton]
        omega)
      refine ⟨buf, wr, hwr', ?_, ?_⟩
      · have hnotFull : wrap 32 ((s.rxBufWr : Int) - s.rxBufRd) ≠ 2 ^ k := by
          rw [Receiver.length_ring] at hroom
          exact Nat.ne_of_lt hroom
        rw [rxChars, if_pos hnotFull]
        exact hchars
      · rw [hring, List.append_assoc] at hring'
        exact hring'

/-- `nk_getc` takes the oldest character out of the ring. -/
theorem nkGetc_spec (hk : k < 32) {s : Receiver Func Data} (hrd : s.rxBufRd < 2 ^ 32)
    (hwr : s.rxBufWr < 2 ^ 32) :
    (s.ring k = [] ∧ nkGetc (2 ^ k) s = (-1, s)) ∨
      ∃ c rest, s.ring k = c :: rest ∧
        nkGetc (2 ^ k) s = ((c.toNat : Int), { s with rxBufRd := u32 (s.rxBufRd + 1) }) ∧
        Receiver.ring k { s with rxBufRd := u32 (s.rxBufRd + 1) } = rest := by
  by_cases hempty : s.rxBufRd = s.rxBufWr
  · exact Or.inl ⟨(Receiver.ring_eq_nil hrd hwr).mpr hempty, if_neg (not_not.mpr hempty)⟩
  · have hcount : unreadCount 32 s.rxBufRd s.rxBufWr ≠ 0 :=
      fun hzero => hempty ((unreadCount_eq_zero hrd hwr).mp hzero)
    refine Or.inr ⟨_, _, unread_take hk.le hwr hcount, ?_, rfl⟩
    rw [nkGetc, if_pos hempty, Nat.and_two_pow_sub_one_eq_mod]

/-- `nk_kbhit` tells whether there is one. -/
theorem nkKbhit_eq_zero {s : Receiver Func Data} (hrd : s.rxBufRd < 2 ^ 32)
    (hwr : s.rxBufWr < 2 ^ 32) : nkKbhit s = 0 ↔ s.ring k = [] := by
  rw [Receiver.ring_eq_nil hrd hwr, nkKbhit]
  split
  · rename_i hne
    exact iff_of_false (by decide) hne
  · rename_i heq
    exact iff_of_true rfl (not_not.mp heq)

/-! ## Steps -/

/-- A scheduled callback leaves the receiver alone. -/
theorem callSched_cases {now : Nat} {tid : Int} {func : Func} {data : Data}
    {s s' : Console Func Data items} {scheduled : Scheduled Func Data}
    (done : callSched now tid func data s = some (scheduled, s')) (room : HasRoom scheduled) :
    s'.uart = s.uart ∧
      ∃ rtn, scheduled = some (.sched now tid func data 0, .returned rtn) := by
  simp only [callSched, Option.bind_eq_bind, Option.pure_def] at done
  obtain ⟨⟨outcome, work⟩, -, hresult⟩ := Option.bind_eq_some_iff.mp done
  obtain ⟨rfl, rfl⟩ := Prod.mk.inj (Option.some.inj hresult)
  obtain ⟨rtn, rfl⟩ := room _ _ rfl
  exact ⟨rfl, rtn, rfl⟩

/-- What an interrupt does: it stores the characters, and schedules the waiting
callback, which then waits no longer. -/
theorem onUartRx_cases {size now : Nat} {chars : List UInt8} {s s' : Console Func Data items}
    {uart : Receiver Func Data} {scheduled : Scheduled Func Data}
    (hchars : rxChars size chars s.uart = some uart)
    (done : onUartRx size now chars s = some (scheduled, s')) (room : HasRoom scheduled) :
    (uart.waitingRxTask = none ∧ scheduled = none ∧ s'.uart = uart) ∨
      ∃ func rtn, uart.waitingRxTask = some func ∧
        scheduled =
          some (.sched now uart.waitingRxTid func uart.waitingRxTaskData 0, .returned rtn) ∧
        s'.uart = { uart with waitingRxTask := none } := by
  simp only [onUartRx, hchars, Option.bind_eq_bind, Option.bind_some, Option.pure_def] at done
  cases htask : uart.waitingRxTask with
  | none =>
      rw [htask] at done
      obtain ⟨rfl, rfl⟩ := Prod.mk.inj (Option.some.inj done)
      exact Or.inl ⟨rfl, rfl, rfl⟩
  | some func =>
      rw [htask] at done
      obtain ⟨⟨scheduled', s₁⟩, hsched, hresult⟩ := Option.bind_eq_some_iff.mp done
      obtain ⟨rfl, rfl⟩ := Prod.mk.inj (Option.some.inj hresult)
      obtain ⟨huart, rtn, hscheduled⟩ := callSched_cases hsched room
      exact Or.inr ⟨func, rtn, rfl, hscheduled, by rw [Console.clearTask, huart]⟩

/-- What a registration does: the callback is scheduled at once when there is
something to read, and waits otherwise. -/
theorem nkSetUartCallback_cases {now : Nat} {tid : Int} {func : Func} {data : Data}
    {s s' : Console Func Data items} {scheduled : Scheduled Func Data}
    (done : nkSetUartCallback now tid func data s = some (scheduled, s'))
    (room : HasRoom scheduled) :
    (s.uart.rxBufRd ≠ s.uart.rxBufWr ∧ s'.uart = { s.uart with waitingRxTask := none } ∧
        ∃ rtn, scheduled = some (.sched now tid func data 0, .returned rtn)) ∨
      (s.uart.rxBufRd = s.uart.rxBufWr ∧ scheduled = none ∧
        s'.uart = { s.uart with
          waitingRxTid := tid, waitingRxTask := some func, waitingRxTaskData := data }) := by
  unfold nkSetUartCallback at done
  split at done
  · rename_i hsome
    simp only [Option.bind_eq_bind, Option.pure_def] at done
    obtain ⟨⟨scheduled', s₁⟩, hsched, hresult⟩ := Option.bind_eq_some_iff.mp done
    obtain ⟨rfl, rfl⟩ := Prod.mk.inj (Option.some.inj hresult)
    obtain ⟨huart, rtn, hscheduled⟩ := callSched_cases hsched room
    exact Or.inl ⟨hsome, by rw [Console.clearTask, huart], rtn, hscheduled⟩
  · rename_i hempty
    obtain ⟨rfl, rfl⟩ := Prod.mk.inj (Option.some.inj done)
    exact Or.inr ⟨not_not.mp hempty, rfl, rfl⟩

namespace Inv

variable {s : Console Func Data items} {h : History Func Data}

theorem onUartRx {s' : Console Func Data items} {scheduled : Scheduled Func Data}
    (inv : Inv k s.uart h) (hk : k < 32) {now : Nat} {chars : List UInt8}
    (some_chars : chars ≠ []) (fit : (s.uart.ring k).length + chars.length ≤ 2 ^ k)
    (done : onUartRx (2 ^ k) now chars s = some (scheduled, s'))
    (room : HasRoom scheduled) : Inv k s'.uart (h.receive chars scheduled) := by
  obtain ⟨buf, wr, hwr, hchars, hring⟩ := rxChars_spec hk chars inv.wr_lt fit
  have hpresent : (h.present || !chars.isEmpty) = true := by simp [some_chars]
  have hfits : (s.uart.ring k ++ chars).length ≤ 2 ^ k := by
    rwa [List.length_append]
  have horder : h.got ++ (s.uart.ring k ++ chars) = h.put ++ chars := by
    rw [← List.append_assoc, inv.order]
  rcases onUartRx_cases hchars done room with
    ⟨htask, rfl, huart⟩ | ⟨func, rtn, htask, rfl, huart⟩
  · rw [huart]
    refine ⟨inv.rd_lt, hwr, hring ▸ hfits, hring ▸ horder, fun _ => htask, ?_, ?_⟩
    · intro tid func data _ habsent
      exact absurd (hpresent.symm.trans habsent) (by decide)
    · intro tid func data hcallback _
      -- nothing waits, so there was something to read before this interrupt
      have hbefore : h.present = true := by
        rw [← Bool.not_eq_false]
        intro habsent
        obtain ⟨-, -, hwaiting, -, -⟩ := inv.asleep tid func data hcallback habsent
        cases htask.symm.trans hwaiting
      obtain ⟨-, now', rtn', hscheduled⟩ := inv.woken tid func data hcallback hbefore
      exact ⟨htask, now', rtn', (List.append_nil _).trans hscheduled⟩
  · rw [huart]
    refine ⟨inv.rd_lt, hwr, hring ▸ hfits, hring ▸ horder, fun _ => rfl, ?_, ?_⟩
    · intro tid func' data _ habsent
      exact absurd (hpresent.symm.trans habsent) (by decide)
    · intro tid func' data hcallback _
      -- a waiting callback is the registered one, and nothing was scheduled for it
      have hbefore : h.present = false := by
        rw [← Bool.not_eq_true]
        intro hthere
        cases htask.symm.trans (inv.woken tid func' data hcallback hthere).1
      obtain ⟨-, htid, hwaiting, hdata, hnone⟩ := inv.asleep tid func' data hcallback hbefore
      obtain rfl := Option.some.inj (htask.symm.trans hwaiting)
      refine ⟨rfl, now, rtn, ?_⟩
      subst htid hdata
      simp [History.receive, hnone]

theorem nkSetUartCallback {s' : Console Func Data items} {scheduled : Scheduled Func Data}
    (inv : Inv k s.uart h) {now : Nat} {tid : Int} {func : Func} {data : Data}
    (done : nkSetUartCallback now tid func data s = some (scheduled, s'))
    (room : HasRoom scheduled) :
    Inv k s'.uart (h.register tid func data (s.uart.ring k) scheduled) := by
  have hnil := Receiver.ring_eq_nil (k := k) inv.rd_lt inv.wr_lt
  rcases nkSetUartCallback_cases done room with
    ⟨hsome, huart, rtn, rfl⟩ | ⟨hempty, rfl, huart⟩
  · have hpresent : (!(s.uart.ring k).isEmpty) = true := by
      simpa using mt hnil.mp hsome
    rw [huart]
    refine ⟨inv.rd_lt, inv.wr_lt, inv.fits, inv.order, fun _ => rfl, ?_, ?_⟩
    · intro tid' func' data' _ habsent
      exact absurd (hpresent.symm.trans habsent) (by decide)
    · intro tid' func' data' hcallback _
      obtain ⟨rfl, rfl, rfl⟩ : tid = tid' ∧ func = func' ∧ data = data' := by
        simpa [History.register] using hcallback
      exact ⟨rfl, now, rtn, rfl⟩
  · have habsent : (!(s.uart.ring k).isEmpty) = false := by simp [hnil.mpr hempty]
    rw [huart]
    refine ⟨inv.rd_lt, inv.wr_lt, inv.fits, inv.order, ?_, ?_, ?_⟩
    · intro hcallback
      cases hcallback
    · intro tid' func' data' hcallback _
      obtain ⟨rfl, rfl, rfl⟩ : tid = tid' ∧ func = func' ∧ data = data' := by
        simpa [History.register] using hcallback
      exact ⟨hnil.mpr hempty, rfl, rfl, rfl, rfl⟩
    · intro tid' func' data' _ hpresent
      exact absurd (habsent.symm.trans hpresent) (by decide)

theorem nkGetc (inv : Inv k s.uart h) (hk : k < 32) :
    Inv k (nkGetc (2 ^ k) s.uart).2 (h.read (nkGetc (2 ^ k) s.uart).1) := by
  rcases nkGetc_spec hk inv.rd_lt inv.wr_lt with
    ⟨hnil, hgetc⟩ | ⟨c, rest, hring, hgetc, hrest⟩
  · rw [hgetc]
    simpa [History.read] using inv
  · have hc : ((c.toNat : Int) = -1) = False := eq_false (by omega)
    have hnonempty : s.uart.ring k ≠ [] := hring ▸ List.cons_ne_nil c rest
    rw [hgetc]
    refine ⟨u32_lt _, inv.wr_lt, ?_, ?_, inv.idle, ?_, inv.woken⟩
    · have hfits := inv.fits
      rw [hring, List.length_cons] at hfits
      rw [hrest]
      omega
    · simp only [History.read, hc, if_false, hrest, Int.toNat_natCast, UInt8.ofNat_toNat]
      rw [← inv.order, hring, List.append_assoc, List.singleton_append]
    · intro tid func data hcallback habsent
      exact absurd (inv.asleep tid func data hcallback habsent).1 hnonempty

end Inv

/-! ## Whole runs -/

variable {null : Data} {s : Console Func Data items} {h : History Func Data}

theorem Run.inv (hk : k < 32) (run : Run k null s h) : Inv k s.uart h := by
  induction run with
  | boot work =>
      have hnil : (Receiver.zeroed null : Receiver Func Data).ring k = [] :=
        (Receiver.ring_eq_nil (by simp [Receiver.zeroed]) (by simp [Receiver.zeroed])).mpr rfl
      refine ⟨by simp [Receiver.zeroed], by simp [Receiver.zeroed], ?_, ?_, fun _ => rfl, ?_, ?_⟩
      · rw [hnil]
        exact Nat.zero_le _
      · rw [hnil]
        rfl
      · intro tid func data hcallback
        cases hcallback
      · intro tid func data hcallback
        cases hcallback
  | onUartRx _ now chars some_chars fit done room ih =>
      exact ih.onUartRx hk some_chars fit done room
  | nkSetUartCallback _ now tid func data done room ih => exact ih.nkSetUartCallback done room
  | nkGetc _ ih => exact ih.nkGetc hk
  | sched _ call done ih => exact ih

/-- In every state of every run: the characters read so far are the first of
those put in the ring and the ring holds the others in order; while a callback
waits the ring is empty; `nk_getc` returns `-1` exactly when the ring is empty;
and since the last `nk_set_uart_callback` its callback waits and nothing was
scheduled as long as there was nothing to read, and was scheduled exactly once
otherwise. -/
theorem run_neverAsleep (hk : k < 32) (run : Run k null s h) :
    h.got ++ s.uart.ring k = h.put ∧
      (s.uart.waitingRxTask ≠ none → s.uart.ring k = []) ∧
      ((nkGetc (2 ^ k) s.uart).1 = -1 ↔ s.uart.ring k = []) ∧
      ∀ tid func data, h.callback = some (tid, func, data) →
        (h.present = false → s.uart.waitingRxTid = tid ∧ s.uart.waitingRxTask = some func ∧
          s.uart.waitingRxTaskData = data ∧ h.scheduled = []) ∧
        (h.present = true ∨ s.uart.ring k ≠ [] → s.uart.waitingRxTask = none ∧
          ∃ now rtn, h.scheduled = [(.sched now tid func data 0, .returned rtn)]) := by
  have inv := run.inv hk
  refine ⟨inv.order, ?_, ?_, ?_⟩
  · intro hwaiting
    cases hcallback : h.callback with
    | none => exact absurd (inv.idle hcallback) hwaiting
    | some callback =>
        obtain ⟨tid, func, data⟩ := callback
        cases hpresent : h.present with
        | false => exact (inv.asleep tid func data hcallback hpresent).1
        | true => exact absurd (inv.woken tid func data hcallback hpresent).1 hwaiting
  · rcases nkGetc_spec hk inv.rd_lt inv.wr_lt with ⟨hnil, hgetc⟩ | ⟨c, rest, hring, hgetc, -⟩
    · simp [hgetc, hnil]
    · rw [hgetc, hring]
      simp only [reduceCtorEq]
  · intro tid func data hcallback
    refine ⟨fun habsent => (inv.asleep tid func data hcallback habsent).2, fun hthere => ?_⟩
    refine inv.woken tid func data hcallback ?_
    rcases hthere with hpresent | hring
    · exact hpresent
    · rw [← Bool.not_eq_false]
      intro habsent
      exact hring (inv.asleep tid func data hcallback habsent).1

/-- A callback registered before the first character is scheduled by it. -/
theorem run_neverAsleep_wake :
    ∃ (s : Console Nat Nat 2) (h : History Nat Nat), Run 4 0 s h ∧ h.put = [65] ∧
      s.uart.waitingRxTask = none ∧
      ∃ now rtn, h.scheduled = [(.sched now 7 1 2 0, .returned rtn)] := by
  have hboot : Run 4 0 _ _ :=
    .boot (⟨fun _ => ⟨none, none, 0, 0, 0, 0⟩, none, 0⟩ : WorkQueue Nat Nat 2)
  have hset := Run.nkSetUartCallback hboot 5 7 1 2 rfl (fun _ _ heq => by cases heq)
  have hrx := Run.onUartRx hset 9 [65] (by decide) (by decide) rfl
    (fun _ _ heq => ⟨1, by cases heq; rfl⟩)
  exact ⟨_, _, hrx, rfl, ((run_neverAsleep (by decide) hrx).2.2.2 7 1 2 rfl).2 (Or.inl rfl)⟩

/-! ## Completion -/

/-- On a work queue the scheduler can reach, a callback is scheduled and leaves
such a work queue. -/
theorem callSched_completes (reachable : Reachable s.work) (now : Nat) (tid : Int)
    (func : Func) (data : Data) :
    ∃ scheduled s', callSched now tid func data s = some (scheduled, s') ∧
      Reachable s'.work := by
  obtain ⟨-, -, -, -, -, -, -, -, -, hcompletes⟩ := reachable_wellFormed reachable
  obtain ⟨outcome, work, hstep⟩ := hcompletes (.sched now tid func data 0)
  exact ⟨some (.sched now tid func data 0, outcome), { s with work := work },
    by simp [callSched, hstep], .step _ reachable hstep⟩

theorem nkSetUartCallback_completes (reachable : Reachable s.work) (now : Nat) (tid : Int)
    (func : Func) (data : Data) :
    ∃ scheduled s', nkSetUartCallback now tid func data s = some (scheduled, s') ∧
      Reachable s'.work := by
  unfold nkSetUartCallback
  split
  · obtain ⟨scheduled, s', hsched, hreachable⟩ :=
      callSched_completes reachable now tid func data
    exact ⟨scheduled, s'.clearTask, by simp [hsched], hreachable⟩
  · exact ⟨_, _, rfl, reachable⟩

theorem onUartRx_completes (reachable : Reachable s.work) {size : Nat} (now : Nat)
    {chars : List UInt8} {uart : Receiver Func Data}
    (hchars : rxChars size chars s.uart = some uart) :
    ∃ scheduled s', onUartRx size now chars s = some (scheduled, s') ∧ Reachable s'.work := by
  cases htask : uart.waitingRxTask with
  | none => exact ⟨none, { s with uart := uart }, by simp [onUartRx, hchars, htask], reachable⟩
  | some func =>
      obtain ⟨scheduled, s', hsched, hreachable⟩ :=
        callSched_completes (s := { s with uart := uart }) reachable now uart.waitingRxTid func
          uart.waitingRxTaskData
      exact ⟨scheduled, s'.clearTask, by simp [onUartRx, hchars, htask, hsched], hreachable⟩

theorem Run.reachable (hk : k < 32) (run : Run k null s h) : Reachable s.work := by
  induction run with
  | boot work => exact .init work
  | onUartRx before now chars _ fit done _ ih =>
      obtain ⟨buf, wr, -, hchars, -⟩ := rxChars_spec hk chars (before.inv hk).wr_lt fit
      obtain ⟨_, _, hcompletes, hreachable⟩ := onUartRx_completes ih now hchars
      obtain ⟨-, rfl⟩ := Prod.mk.inj (Option.some.inj (hcompletes.symm.trans done))
      exact hreachable
  | nkSetUartCallback _ now tid func data done _ ih =>
      obtain ⟨_, _, hcompletes, hreachable⟩ := nkSetUartCallback_completes ih now tid func data
      obtain ⟨-, rfl⟩ := Prod.mk.inj (Option.some.inj (hcompletes.symm.trans done))
      exact hreachable
  | nkGetc _ ih => exact ih
  | sched _ call done ih => exact .step call ih done

/-- In every state of every run a registration completes, and so does an
interrupt whose characters fit the ring. -/
theorem run_completes (hk : k < 32) (run : Run k null s h) :
    (∀ now tid func data,
      ∃ scheduled s', nkSetUartCallback now tid func data s = some (scheduled, s')) ∧
      ∀ (now : Nat) (chars : List UInt8), (s.uart.ring k).length + chars.length ≤ 2 ^ k →
        ∃ scheduled s', onUartRx (2 ^ k) now chars s = some (scheduled, s') := by
  have hreachable := run.reachable hk
  refine ⟨fun now tid func data => ?_, fun now chars fit => ?_⟩
  · obtain ⟨scheduled, s', hdone, -⟩ := nkSetUartCallback_completes hreachable now tid func data
    exact ⟨scheduled, s', hdone⟩
  · obtain ⟨buf, wr, -, hchars, -⟩ := rxChars_spec hk chars (run.inv hk).wr_lt fit
    obtain ⟨scheduled, s', hdone, -⟩ := onUartRx_completes hreachable now hchars
    exact ⟨scheduled, s', hdone⟩

end LibnklabsPico.Uart
