/-
  Ymodem/Session.lean --- which file the handler was told about last.

  `session` goes through the calls of the file handler alone.  In every run the handler is
  told that all is done only while no file is open and after no file of the transfer was
  canceled; so when a file has been closed in the transfer, the last file that was opened
  is the last one that was closed.
-/
import LibnklabsPico.Ymodem.Delivery
import Mathlib.Data.List.DropRight

set_option autoImplicit false

namespace LibnklabsPico.Ymodem

/-! ## A transfer as the handler sees it -/

/-- What the calls of the handler tell. -/
structure Session where
  /-- the file opened last: the name passed to `open`, and all that was written since -/
  file : Option (List UInt8 × List UInt8)
  isOpen : Bool
  /-- a file has been closed in the transfer -/
  done : Bool
  /-- nothing has been canceled in the transfer, and it is not done -/
  live : Bool

/-- One event. -/
def Session.event (t : Session) : Event → Session
  | .start => { t with isOpen := false, done := false, live := true }
  | .openFile name rtn => if rtn = 0 then { t with file := some (name, []), isOpen := true } else t
  | .write data => { t with file := t.file.map fun (name, old) => (name, old ++ data) }
  | .close => { t with isOpen := false, done := true }
  | .cancel => { t with isOpen := false, live := false }
  | .allDone => { t with live := false }
  | _ => t

/-- Several events. -/
def Session.events (t : Session) (trace : List Event) : Session := trace.foldl Session.event t

/-- What a whole trace tells. -/
def session (trace : List Event) : Session := Session.events ⟨none, false, false, false⟩ trace

@[simp] theorem Session.events_nil (t : Session) : t.events [] = t := rfl

@[simp] theorem Session.events_cons (t : Session) (event : Event) (trace : List Event) :
    t.events (event :: trace) = (t.event event).events trace := rfl

@[simp] theorem Session.event_opened (t : Session) (name : List UInt8) :
    t.event (.openFile name 0) = { t with file := some (name, []), isOpen := true } := rfl

theorem Session.event_refused (t : Session) (name : List UInt8) {rtn : Int} (failed : rtn ≠ 0) :
    t.event (.openFile name rtn) = t := if_neg failed

theorem Session.events_append (t : Session) (before after : List Event) :
    t.events (before ++ after) = (t.events before).events after :=
  List.foldl_append

theorem session_append (before after : List Event) :
    session (before ++ after) = (session before).events after :=
  Session.events_append _ before after

@[simp] theorem session_snoc (trace : List Event) (event : Event) :
    session (trace ++ [event]) = (session trace).event event :=
  session_append trace [event]

/-- The events since the last transfer was started. -/
def sinceStart (trace : List Event) : List Event := trace.rtakeWhile (· != .start)

theorem session_done (trace : List Event) :
    (session trace).done = true ↔ .close ∈ sinceStart trace := by
  unfold sinceStart
  induction trace using List.reverseRecOn with
  | nil => simp [session]
  | append_singleton trace event ih =>
      rw [session_snoc, List.rtakeWhile_concat]
      cases event with
      | openFile name rtn =>
          have hdone : ((session trace).event (.openFile name rtn)).done =
              (session trace).done := by
            rcases eq_or_ne rtn 0 with rfl | failed
            · rfl
            · rw [Session.event_refused _ _ failed]
          rw [hdone]
          simpa using ih
      | start => simp [Session.event]
      | close => simp [Session.event]
      | timeout | received | store | rcv | putc | write | cancel | allDone =>
          simpa [Session.event] using ih

/-! ## Between `close` and `all_done` -/

section Files

variable {trace : List Event} {f : Option Incoming} {closed : List Incoming}

/-- The dialogue without its last event. -/
theorem Told.shorter {event : Event} (told : Told (trace ++ [event]) f closed) :
    ∃ f' closed', Told trace f' closed' := by
  generalize htrace : trace ++ [event] = whole at told
  cases told with
  | nothing => exact absurd htrace (by simp)
  | outside before | data before | other before | refused before | opened before
  | anonymous before | write before | close before | cancel before | allDone before =>
      obtain rfl := (List.append_inj' htrace rfl).1
      exact ⟨_, _, before⟩

/-- The dialogue of a part of a trace. -/
theorem Told.part {before after : List Event} (told : Told (before ++ after) f closed) :
    ∃ f' closed', Told before f' closed' := by
  induction after using List.reverseRecOn generalizing f closed with
  | nil =>
      rw [List.append_nil] at told
      exact ⟨f, closed, told⟩
  | append_singleton after event ih =>
      rw [← List.append_assoc] at told
      obtain ⟨f', closed', hshorter⟩ := told.shorter
      exact ih hshorter

/-- The file that is open is the last one; so is the last one that was closed, when nothing
has been opened or canceled since. -/
structure Latest (t : Session) (f : Option Incoming) (closed : List Incoming) : Prop where
  current : ∀ file, f = some file →
    t.file = some (file.name, file.data) ∧ (t.done = true → t.isOpen = true)
  last : t.live = true → t.isOpen = false → t.done = true →
    ∃ file, closed.getLast? = some file ∧ t.file = some (file.name, file.data)

theorem Told.latest (told : Told trace f closed) : Latest (session trace) f closed := by
  induction told with
  | nothing => exact ⟨fun _ h => (by cases h), fun h => by cases h⟩
  | @outside trace f closed event told outside ih =>
      rw [session_snoc]
      cases event with
      | start => exact ⟨fun file hf => ⟨(ih.current file hf).1, fun h => by cases h⟩,
          fun _ _ h => by cases h⟩
      | timeout | received | store | putc => exact ih
      | rcv | openFile | write | close | cancel | allDone => cases outside
  | data told data ih =>
      rw [session_snoc]
      have hcurrent := ih.current _ rfl
      exact ⟨fun _ h => (by cases h; exact hcurrent), ih.last⟩
  | other told other ih =>
      rw [session_snoc]
      exact ih
  | refused told failed ih =>
      rw [session_snoc, Session.event_refused _ _ failed]
      exact ih
  | opened told last data number payload ih =>
      rw [session_snoc]
      exact ⟨fun _ h => (by cases h; exact ⟨rfl, fun _ => rfl⟩), fun _ h => by cases h⟩
  | anonymous told last data number ih =>
      rw [session_snoc]
      exact ⟨fun _ h => (by cases h; exact ⟨rfl, fun _ => rfl⟩), fun _ h => by cases h⟩
  | write told nonempty ih =>
      obtain ⟨hfile, hopen⟩ := ih.current _ rfl
      rw [session_snoc]
      refine ⟨fun _ h => ?_, fun _ hclosed hdone => ?_⟩
      · cases h
        refine ⟨?_, hopen⟩
        simp only [Session.event, hfile, Option.map_some]
      · exact absurd ((hopen hdone).symm.trans hclosed) (by simp)
  | close told received ended ih =>
      obtain ⟨hfile, -⟩ := ih.current _ rfl
      rw [session_snoc]
      exact ⟨fun _ h => (by cases h), fun _ _ _ => ⟨_, List.getLast?_concat, hfile⟩⟩
  | cancel told canceled ih =>
      rw [session_snoc]
      exact ⟨fun _ h => (by cases h), fun h => by cases h⟩
  | allDone told ih =>
      rw [session_snoc]
      exact ⟨fun _ h => (by cases h), fun h => by cases h⟩

/-- No file is open when all is done. -/
theorem Told.allDone_inv (told : Told (trace ++ [.allDone]) f closed) :
    ∃ closed', Told trace none closed' := by
  generalize htrace : trace ++ [.allDone] = whole at told
  cases told with
  | nothing => exact absurd htrace (by simp)
  | allDone before =>
      obtain rfl := (List.append_inj' htrace rfl).1
      exact ⟨_, before⟩
  | outside before outside =>
      obtain rfl := List.singleton_inj.mp (List.append_inj' htrace rfl).2
      cases outside
  | data | other | refused | opened | anonymous | write | close | cancel =>
      cases (List.append_inj' htrace rfl).2

end Files

/-! ## When all is done -/

/-- When an event may come: a file is written and closed while it is open, and all is done
when no file is open and nothing has been canceled. -/
def Proper (t : Session) : Event → Prop
  | .write _ | .close => t.isOpen = true
  | .allDone => t.live = true ∧ t.isOpen = false
  | _ => True

/-- Every event of a trace comes when it may. -/
def Orderly : Session → List Event → Prop
  | _, [] => True
  | t, event :: trace => Proper t event ∧ Orderly (t.event event) trace

section Order

variable {t : Session} {trace after : List Event}

theorem orderly_append :
    Orderly t (trace ++ after) ↔ Orderly t trace ∧ Orderly (t.events trace) after := by
  induction trace generalizing t with
  | nil => exact ⟨fun h => ⟨trivial, h⟩, And.right⟩
  | cons event trace ih => exact (and_congr_right fun _ => ih).trans and_assoc.symm

/-- An event of an orderly trace. -/
theorem Orderly.proper {event : Event} (orderly : Orderly t (trace ++ event :: after)) :
    Proper (t.events trace) event := (orderly_append.mp orderly).2.1

theorem Orderly.append (orderly : Orderly t trace) (orderly' : Orderly (t.events trace) after) :
    Orderly t (trace ++ after) := orderly_append.mpr ⟨orderly, orderly'⟩

end Order

section Runs

/-- What the calls for a packet tell agrees with the variables of `ymodem_rcv`. -/
structure Orders (t : Session) (handled : Handled) : Prop where
  orderly : Orderly t handled.2.1
  goesOn : handled.1.goesOn = true →
    (t.events handled.2.1).live = true ∧ handled.2.2.opened = (t.events handled.2.1).isOpen
  done : handled.1 = .done →
    (t.events handled.2.1).live = true ∧ (t.events handled.2.1).isOpen = false

variable {t : Session} {s : YmodemRecv}

/-- Writing neither opens nor closes. -/
theorem writeData_orders (hopen : t.isOpen = true) (rcvbuf : List UInt8) (thisSize : Nat)
    (s : YmodemRecv) :
    Orderly t (writeData rcvbuf thisSize s).1 ∧
      (t.events (writeData rcvbuf thisSize s).1).live = t.live ∧
      (t.events (writeData rcvbuf thisSize s).1).isOpen = true ∧
      (writeData rcvbuf thisSize s).2.opened = s.opened := by
  obtain ⟨hevents, hstate⟩ := writeData_spec rcvbuf thisSize s
  rw [hevents, hstate]
  split
  · exact ⟨trivial, rfl, hopen, rfl⟩
  · exact ⟨⟨hopen, trivial⟩, rfl, hopen, rfl⟩

theorem Orders.goingOn {sta : RecvStatus} {events : List Event} (hsta : sta ≠ .done)
    (orderly : Orderly t events) (hlive : (t.events events).live = true)
    (hopen : s.opened = (t.events events).isOpen) : Orders t (sta, events, s) :=
  ⟨orderly, fun _ => ⟨hlive, hopen⟩, fun h => absurd h hsta⟩

theorem Orders.canceled {sta : RecvStatus} {events : List Event} (hsta : sta.goesOn = false)
    (hdone : sta ≠ .done) (orderly : Orderly t events) : Orders t (sta, events, s) :=
  ⟨orderly, fun h => absurd (h.symm.trans hsta) (by simp), fun h => absurd h hdone⟩

theorem Orders.over {events : List Event} (orderly : Orderly t events)
    (hlive : (t.events events).live = true) (hclosed : (t.events events).isOpen = false) :
    Orders t (.done, events, s) :=
  ⟨orderly, fun h => (by cases h), fun _ => ⟨hlive, hclosed⟩⟩

theorem rcvHeader_orders (file : NkYrecvStruct) (rcvbuf : List UInt8) (len : Nat)
    (hlive : t.live = true) (hopen : s.opened = t.isOpen) (hwaiting : s.opened = false) :
    Orders t (rcvHeader file rcvbuf len s) := by
  have hclosed : t.isOpen = false := hopen.symm.trans hwaiting
  unfold rcvHeader
  split
  · -- Nothing came
    split
    · exact .goingOn (by decide) trivial hlive hopen
    · exact .goingOn (by decide) ⟨trivial, trivial⟩ hlive hclosed.symm
  · split
    · split
      · exact .canceled rfl (by decide) trivial
      · exact .goingOn (by decide) trivial hlive hopen
    · split
      · dsimp only
        split
        · exact .over ⟨trivial, trivial⟩ hlive hclosed
        · split
          · rename_i hrtn
            rw [hrtn]
            exact .goingOn (by decide) ⟨trivial, trivial, trivial⟩ hlive rfl
          · exact .canceled rfl (by decide) ⟨trivial, trivial, trivial, trivial⟩
      · split
        · dsimp only
          split
          · rename_i hrtn
            rw [hrtn]
            obtain ⟨horderly, hlive', hopen', hstate⟩ := writeData_orders
              (t := t.event (.openFile file.xname 0)) rfl rcvbuf 128
              { s with
                can := false, ymodemTo := 0, fileSize := 0xffffffff, oldSeq := 1, seq := 2
                opened := true, xmodem := true, first := false }
            refine .goingOn (by decide) ?_ ?_ ?_
            · exact ⟨trivial, horderly.append ⟨trivial, trivial⟩⟩
            · rw [List.cons_append, Session.events_cons, Session.events_append]
              exact hlive'.trans hlive
            · rw [List.cons_append, Session.events_cons, Session.events_append]
              exact hstate.trans hopen'.symm
          · exact .canceled rfl (by decide) ⟨trivial, trivial, trivial, trivial⟩
        · exact .goingOn (by decide) trivial hlive hopen

theorem rcvOpened_orders (rcvbuf : List UInt8) (len : Nat) (hlive : t.live = true)
    (hopen : s.opened = t.isOpen) (hopened : s.opened = true) :
    Orders t (rcvOpened rcvbuf len s) := by
  have hopen' : t.isOpen = true := hopen.symm.trans hopened
  unfold rcvOpened
  split
  · -- Nothing came
    exact .goingOn (by decide) ⟨trivial, trivial⟩ hlive hopen
  · split
    · dsimp only
      split
      · exact .canceled rfl (by decide) ⟨trivial, trivial⟩
      · exact .goingOn (by decide) trivial hlive hopen
    · split
      · dsimp only
        split
        · exact .goingOn (by decide) ⟨trivial, trivial⟩ hlive hopen
        · split
          · exact .canceled rfl (by decide) ⟨trivial, trivial, trivial, trivial⟩
          · obtain ⟨horderly, hlive', hwritten, hstate⟩ := writeData_orders hopen' rcvbuf (len - 5)
              { s with gotEot := false, can := false }
            refine .goingOn (by decide) (horderly.append ⟨trivial, trivial⟩) ?_ ?_
            · rw [Session.events_append]
              exact hlive'.trans hlive
            · rw [Session.events_append]
              exact hstate.trans (hopened.trans hwritten.symm)
      · split
        · dsimp only
          split
          · exact .over ⟨hopen', trivial, trivial⟩ hlive rfl
          · split
            · exact .goingOn (by decide) ⟨hopen', trivial, trivial, trivial⟩ hlive rfl
            · exact .goingOn (by decide) ⟨trivial, trivial⟩ hlive hopen
        · exact .goingOn (by decide) trivial hlive hopen

theorem ymodemRcv_orders (file : NkYrecvStruct) (rcvbuf : List UInt8) (len : Nat)
    (hlive : t.live = true) (hopen : s.opened = t.isOpen) :
    Orders t (ymodemRcv file rcvbuf len s) := by
  unfold ymodemRcv
  split
  · split
    · exact .goingOn (by decide) trivial hlive hopen
    · exact .goingOn (by decide) ⟨trivial, trivial⟩ hlive hopen
  · split
    · rename_i hwaiting
      exact rcvHeader_orders file rcvbuf len hlive hopen (by simpa using hwaiting)
    · rename_i hopened
      exact rcvOpened_orders rcvbuf len hlive hopen (by simpa using hopened)

/-- Several events of the receiver, which ends with them or goes on. -/
structure Tells (t : Session) (finished : Bool) (events : List Event) (s : Yrecv) : Prop where
  orderly : Orderly t events
  goesOn : finished = false →
    (t.events events).live = true ∧ s.rcv.opened = (t.events events).isOpen

theorem processFullOuter_tells {s : Yrecv} (hlive : t.live = true)
    (hopen : s.rcv.opened = t.isOpen) :
    Tells t (processFullOuter s).1 (processFullOuter s).2.1 (processFullOuter s).2.2 := by
  have horders := ymodemRcv_orders s.file s.rcvbuf s.yrecvLen hlive hopen
  obtain ⟨⟨sta, events, rcv⟩, hrcv⟩ : ∃ r, ymodemRcv s.file s.rcvbuf s.yrecvLen s.rcv = r :=
    ⟨_, rfl⟩
  rw [hrcv] at horders
  simp only [processFullOuter, hrcv]
  cases sta with
  | purge => exact ⟨⟨trivial, horders.orderly⟩, fun _ => horders.goesOn rfl⟩
  | more => exact ⟨⟨trivial, horders.orderly⟩, fun _ => horders.goesOn rfl⟩
  | done =>
      exact ⟨⟨trivial, horders.orderly.append ⟨horders.done rfl, trivial⟩⟩, fun h => by cases h⟩
  | remoteCancel | openCancel | syncCancel =>
      exact ⟨⟨trivial, horders.orderly⟩, fun h => by cases h⟩

theorem recvChar_tells (allowLong : Bool) (c : UInt8) {s : Yrecv} (hlive : t.live = true)
    (hopen : s.rcv.opened = t.isOpen) :
    Tells t (recvChar allowLong c s).1 (recvChar allowLong c s).2.1
      (recvChar allowLong c s).2.2 := by
  have hrcv := (classify_rcv allowLong c (s.put c)).1
  obtain ⟨⟨gotit, s'⟩, hclass⟩ : ∃ r, (s.put c).classify allowLong c = r := ⟨_, rfl⟩
  rw [hclass] at hrcv
  have hopen' : s'.rcv.opened = t.isOpen := by
    rw [← hopen]
    exact congrArg YmodemRecv.opened hrcv
  simp only [recvChar, hclass]
  cases gotit with
  | true =>
      have hprocess := processFullOuter_tells hlive hopen'
      exact ⟨⟨trivial, trivial, hprocess.orderly⟩, hprocess.goesOn⟩
  | false => exact ⟨⟨trivial, trivial, trivial⟩, fun _ => ⟨hlive, hopen'⟩⟩

theorem recvChars_tells (allowLong : Bool) (chars : List UInt8) {s : Yrecv} (hlive : t.live = true)
    (hopen : s.rcv.opened = t.isOpen) :
    Tells t (recvChars allowLong chars s).1 (recvChars allowLong chars s).2.1
      (recvChars allowLong chars s).2.2 := by
  induction chars generalizing t s with
  | nil => exact ⟨trivial, fun _ => ⟨hlive, hopen⟩⟩
  | cons c chars ih =>
      have hfirst := recvChar_tells allowLong c hlive hopen
      obtain ⟨⟨finished, events, s'⟩, hchar⟩ : ∃ r, recvChar allowLong c s = r := ⟨_, rfl⟩
      rw [hchar] at hfirst
      simp only [recvChars, hchar]
      cases finished with
      | true => exact hfirst
      | false =>
          obtain ⟨hlive', hopen'⟩ := hfirst.goesOn rfl
          have hrest := ih hlive' hopen'
          refine ⟨hfirst.orderly.append hrest.orderly, fun hgoes => ?_⟩
          rw [if_neg (by simp), Session.events_append]
          exact hrest.goesOn hgoes

/-- In every run. -/
theorem Run.tells {allowLong : Bool} {s : Yrecv} {active : Bool} {trace : List Event}
    (run : Run allowLong s active trace) :
    Tells ⟨none, false, false, false⟩ (!active) trace s := by
  induction run with
  | boot file => exact ⟨trivial, fun h => by cases h⟩
  | nkYrecv before file room ih =>
      refine ⟨ih.orderly.append ⟨trivial, trivial, trivial⟩, fun _ => ?_⟩
      rw [Session.events_append]
      exact ⟨rfl, rfl⟩
  | chars before chars ih =>
      obtain ⟨hlive, hopen⟩ := ih.goesOn rfl
      have hchars := recvChars_tells allowLong chars hlive hopen
      refine ⟨ih.orderly.append hchars.orderly, fun hgoes => ?_⟩
      rw [Bool.not_not] at hgoes
      rw [Session.events_append]
      exact hchars.goesOn hgoes
  | @timeout s trace before ih =>
      obtain ⟨hlive, hopen⟩ := ih.goesOn rfl
      have hprocess := processFullOuter_tells (s := { s with yrecvLen := 0 }) hlive hopen
      refine ⟨ih.orderly.append ⟨trivial, hprocess.orderly⟩, fun hgoes => ?_⟩
      rw [Bool.not_not] at hgoes
      rw [Session.events_append]
      exact hprocess.goesOn hgoes

end Runs

end LibnklabsPico.Ymodem
