/-
  File/Logged.lean --- programs over a file that log what they do.

  A logged program returns a log behind its result.  Without the log it is a plain program
  (`Erases`), so that a log can be added to a program that exists and the two are compared
  step by step.  `Logs` is `Stays` for what is logged.
-/
import LibnklabsPico.File.Stays
import Mathlib.Control.Monad.Writer

set_option autoImplicit false

namespace LibnklabsPico.File

open LibnklabsPico.Foundation

/-- Programs over a file with a log of events. -/
abbrev Logged (E : Type) : Type → Type := WriterT (List E) FileProg

variable {E α β : Type}

/-- Log one event. -/
def Logged.event (e : E) : Logged E PUnit := tell [e]

/-- A scan that returns to where it started when it gives up. -/
def Logged.orRewind (status : α → Bool) (p : Logged E α) : Logged E α :=
  WriterT.mk (FileProg.orRewind (fun r => status r.1) p.run)

/-! ## Without the log -/

/-- Without its log the first program is the second one. -/
def Erases (p : Logged E α) (q : FileProg α) : Prop := Prod.fst <$> p.run = q

namespace Erases

protected theorem pure (a : α) : Erases (Pure.pure a : Logged E α) (Pure.pure a) := rfl

theorem lift (q : FileProg α) : Erases (liftM q : Logged E α) q := by
  change Prod.fst <$> (fun a => (a, ([] : List E))) <$> q = q
  rw [← comp_map]
  exact id_map q

protected theorem bind {p : Logged E α} {q : FileProg α} {f : α → Logged E β}
    {g : α → FileProg β} (hp : Erases p q) (hf : ∀ a, Erases (f a) (g a)) :
    Erases (p >>= f) (q >>= g) := by
  have hg : g = fun a => Prod.fst <$> (f a).run := funext fun a => (hf a).symm
  subst hp hg
  change Prod.fst <$> (p.run >>= fun r => (fun r' => (r'.1, r.2 ++ r'.2)) <$> (f r.1).run) = _
  rw [map_bind, seq_bind_eq]
  refine congrArg (p.run >>= ·) (funext fun r => ?_)
  rw [← comp_map]
  rfl

/-- A step that is not logged. -/
theorem lift_then (q : FileProg α) {f : α → Logged E β} {g : α → FileProg β}
    (hf : ∀ a, Erases (f a) (g a)) : Erases (liftM q >>= f) (q >>= g) :=
  (lift q).bind hf

/-- A logged event is not in the program without its log. -/
theorem event_then (e : E) {p : Logged E α} {q : FileProg α} (hp : Erases p q) :
    Erases (Logged.event e >>= fun _ => p) q := by
  have hunit : Erases (Logged.event e) (Pure.pure PUnit.unit) := rfl
  exact hunit.bind fun _ => hp

protected theorem ite {c : Prop} [Decidable c] {p p' : Logged E α} {q q' : FileProg α}
    (hp : Erases p q) (hp' : Erases p' q') :
    Erases (if c then p else p') (if c then q else q') := by
  split
  · exact hp
  · exact hp'

theorem orRewind {status : α → Bool} {p : Logged E α} {q : FileProg α} (hp : Erases p q) :
    Erases (Logged.orRewind status p) (FileProg.orRewind status q) := by
  subst hp
  change Prod.fst <$> FileProg.orRewind (fun r => status r.1) p.run = _
  unfold FileProg.orRewind
  rw [map_bind]
  refine congrArg (FileProg.ftell >>= ·) (funext fun orgpos => ?_)
  rw [map_bind, seq_bind_eq]
  refine congrArg (p.run >>= ·) (funext fun r => ?_)
  dsimp only [Function.comp_apply]
  split
  · rfl
  · rw [map_bind]
    rfl

/-- A run with the log is one of the program without it. -/
theorem run {p : Logged E α} {q : FileProg α} (hp : Erases p q) {σ : Type}
    {h : Handler FileOp (fun _ => Int) σ} {s s' : σ} {r : α × List E}
    (hrun : p.run.run h s = some (r, s')) : q.run h s = some (r.1, s') := by
  subst hp
  rw [Prog.run_map, hrun]
  rfl

end Erases

/-! ## What is logged on any text -/

variable {text : List UInt8} {pos : Nat}

/-- From a position in the text the program does only what is allowed; all that it logs is
good, and it ends with a result and at a position that satisfy `post`. -/
def Logs (text : List UInt8) (good : E → Prop) (p : Logged E α) (pos : Nat)
    (post : α → Nat → Prop) : Prop :=
  Stays text p.run pos fun r pos' => (∀ e ∈ r.2, good e) ∧ post r.1 pos'

namespace Logs

variable {good : E → Prop} {post post' mid : α → Nat → Prop} {last : β → Nat → Prop}

protected theorem pure {a : α} (h : post a pos) :
    Logs text good (Pure.pure a : Logged E α) pos post :=
  Stays.pure ⟨fun _ he => absurd he List.not_mem_nil, h⟩

/-- A step that is not logged. -/
theorem lift {q : FileProg α} (hq : Stays text q pos post) :
    Logs text good (liftM q : Logged E α) pos post := by
  change Stays text ((fun a => (a, ([] : List E))) <$> q) pos _
  rw [← bind_pure_comp]
  exact hq.bind fun a pos' ha => .pure ⟨fun _ he => absurd he List.not_mem_nil, ha⟩

protected theorem bind {p : Logged E α} {f : α → Logged E β} (hp : Logs text good p pos mid)
    (hf : ∀ a pos', mid a pos' → Logs text good (f a) pos' last) :
    Logs text good (p >>= f) pos last := by
  change Stays text (p.run >>= fun r => (fun r' => (r'.1, r.2 ++ r'.2)) <$> (f r.1).run) pos _
  refine Stays.bind hp fun r pos₁ hr => ?_
  rw [← bind_pure_comp]
  refine Stays.bind (hf r.1 pos₁ hr.2) fun r' pos₂ hr' => .pure ⟨fun e he => ?_, hr'.2⟩
  rcases List.mem_append.mp he with he | he
  · exact hr.1 e he
  · exact hr'.1 e he

theorem lift_then {q : FileProg α} {f : α → Logged E β} (hq : Stays text q pos mid)
    (hf : ∀ a pos', mid a pos' → Logs text good (f a) pos' last) :
    Logs text good (liftM q >>= f) pos last :=
  (lift hq).bind hf

protected theorem ite {c : Prop} [Decidable c] {p p' : Logged E α}
    (hp : c → Logs text good p pos post) (hp' : ¬ c → Logs text good p' pos post) :
    Logs text good (if c then p else p') pos post := by
  split
  · exact hp ‹c›
  · exact hp' ‹¬ c›

/-- A test that is not logged, and what comes behind it in either case. -/
theorem test {q : FileProg Bool} {f : Bool → Logged E β} (hq : Stays text q pos fun _ _ => True)
    (htrue : ∀ pos', Logs text good (f true) pos' last)
    (hfalse : ∀ pos', Logs text good (f false) pos' last) :
    Logs text good (liftM q >>= f) pos last := by
  refine .lift_then hq fun found pos' _ => ?_
  cases found with
  | true => exact htrue pos'
  | false => exact hfalse pos'

theorem fpeek : Logs text good (liftM FileProg.fpeek : Logged E Int) pos
    fun c pos' => c = charAt text pos ∧ pos' = pos := by
  refine .lift ?_
  rw [← bind_pure FileProg.fpeek]
  exact .peek (.pure ⟨rfl, rfl⟩)

theorem fnextFast (hchar : charAt text pos ≠ -1) :
    Logs text good (liftM FileProg.fnextFast : Logged E Int) pos fun _ pos' => pos' = pos + 1 := by
  refine .lift ?_
  rw [← bind_pure FileProg.fnextFast]
  exact .nextFast hchar (.pure rfl)

theorem peek {f : Int → Logged E β} (h : Logs text good (f (charAt text pos)) pos last) :
    Logs text good (liftM FileProg.fpeek >>= f) pos last := by
  refine .bind .fpeek fun c pos' hc => ?_
  rw [hc.1, hc.2]
  exact h

theorem nextFast {f : Int → Logged E β} (hchar : charAt text pos ≠ -1)
    (h : ∀ c, Logs text good (f c) (pos + 1) last) :
    Logs text good (liftM FileProg.fnextFast >>= f) pos last := by
  refine .bind (.fnextFast hchar) fun c pos' hpos' => ?_
  rw [hpos']
  exact h c

theorem event {e : E} (he : good e) :
    Logs text good (Logged.event e) pos fun _ pos' => pos' = pos :=
  Stays.pure ⟨fun _ he' => (List.mem_singleton.mp he').symm ▸ he, rfl⟩

theorem event_then {e : E} {p : Logged E α} (he : good e) (hp : Logs text good p pos post) :
    Logs text good (Logged.event e >>= fun _ => p) pos post := by
  refine .bind (.event he) fun _ pos' hpos' => ?_
  rw [hpos']
  exact hp

protected theorem mono {p : Logged E α} (hp : Logs text good p pos post)
    (himp : ∀ a pos', post a pos' → post' a pos') : Logs text good p pos post' :=
  Stays.mono hp fun r pos' h => ⟨h.1, himp r.1 pos' h.2⟩

theorem orRewind {status : α → Bool} {p : Logged E α}
    (hp : Logs text good p pos fun _ _ => True) :
    Logs text good (Logged.orRewind status p) pos fun _ _ => True := by
  have hrewind : Stays text (FileProg.orRewind (fun r => status r.1) p.run) pos
      fun r pos' => (∀ e ∈ r.2, good e) ∧ (status r.1 = false → pos' = pos) :=
    Stays.orRewind (Stays.mono hp fun r _ h => h.1)
  exact hrewind.mono fun r _ h => ⟨h.1, trivial⟩

end Logs

/-! ## An event that is logged -/

/-- Every run from a position in the text logs an event that is bad. -/
def Reports (text : List UInt8) (bad : E → Prop) (p : Logged E α) (pos : Nat) : Prop :=
  pos ≤ text.length → ∀ r c, p.run.run plainFile ⟨text, pos⟩ = some (r, c) → ∃ e ∈ r.2, bad e

namespace Reports

variable {bad good : E → Prop} {post mid : α → Nat → Prop}

/-- It is in the first part. -/
theorem first {p : Logged E α} (f : α → Logged E β) (hp : Reports text bad p pos) :
    Reports text bad (p >>= f) pos := by
  intro hpos r c hrun
  change (p.run >>= fun a => (fun b => (b.1, a.2 ++ b.2)) <$> (f a.1).run).run _ _ = _ at hrun
  rw [Prog.run_bind] at hrun
  obtain ⟨⟨a, c₁⟩, hfirst, hrest⟩ := Option.bind_eq_some_iff.mp hrun
  dsimp only at hrest
  rw [Prog.run_map] at hrest
  obtain ⟨⟨b, c₂⟩, -, heq⟩ := Option.map_eq_some_iff.mp hrest
  obtain ⟨rfl, rfl⟩ := Prod.mk.inj heq
  obtain ⟨e, he, hbad⟩ := hp hpos a c₁ hfirst
  exact ⟨e, List.mem_append_left _ he, hbad⟩

/-- It is behind the first part. -/
theorem behind {p : Logged E α} {f : α → Logged E β}
    (hp : Logs text (fun _ => True) p pos mid)
    (hf : ∀ a pos', mid a pos' → Reports text bad (f a) pos') :
    Reports text bad (p >>= f) pos := by
  intro hpos r c hrun
  obtain ⟨a, pos₁, hfirst, hpos₁, -, hmid⟩ := hp hpos
  change (p.run >>= fun a => (fun b => (b.1, a.2 ++ b.2)) <$> (f a.1).run).run _ _ = _ at hrun
  rw [Prog.run_bind_of hfirst, Prog.run_map] at hrun
  obtain ⟨⟨b, c₂⟩, hrest, heq⟩ := Option.map_eq_some_iff.mp hrun
  obtain ⟨rfl, rfl⟩ := Prod.mk.inj heq
  obtain ⟨e, he, hbad⟩ := hf a.1 pos₁ hmid hpos₁ b c₂ hrest
  exact ⟨e, List.mem_append_right _ he, hbad⟩

/-- It is the next event. -/
theorem event {e : E} (f : PUnit → Logged E β) (he : bad e) :
    Reports text bad (Logged.event e >>= f) pos := by
  refine first f fun _ r c hrun => ?_
  obtain ⟨rfl, -⟩ := Prod.mk.inj (Option.some.inj hrun)
  exact ⟨e, List.mem_singleton.mpr rfl, he⟩

/-- It is behind an event. -/
theorem event_then {e : E} {p : Logged E α} (hp : Reports text bad p pos) :
    Reports text bad (Logged.event e >>= fun _ => p) pos := by
  refine behind (.event trivial) fun _ pos' hpos' => ?_
  rw [hpos']
  exact hp

theorem taken {c : Prop} [Decidable c] {p p' : Logged E α} (hc : c)
    (hp : Reports text bad p pos) : Reports text bad (if c then p else p') pos := by
  rw [if_pos hc]
  exact hp

theorem orRewind {status : α → Bool} {p : Logged E α} (hp : Reports text bad p pos) :
    Reports text bad (Logged.orRewind status p) pos := by
  intro hpos r c hrun
  change (FileProg.ftell >>= fun orgpos => p.run >>= fun r => if status r.1 then Pure.pure r
    else FileProg.fseek orgpos >>= fun _ => Pure.pure r).run _ _ = _ at hrun
  have htell : FileProg.ftell.run plainFile ⟨text, pos⟩ = some ((pos : Int), ⟨text, pos⟩) := rfl
  rw [Prog.run_bind_of htell, Prog.run_bind] at hrun
  obtain ⟨⟨r', c₁⟩, hbody, hrest⟩ := Option.bind_eq_some_iff.mp hrun
  obtain rfl : r' = r := by
    dsimp only at hrest
    split at hrest
    · exact (Prod.mk.inj (Option.some.inj hrest)).1
    · rw [Prog.run_bind] at hrest
      obtain ⟨answer, -, hpure⟩ := Option.bind_eq_some_iff.mp hrest
      exact (Prod.mk.inj (Option.some.inj hpure)).1
  exact hp hpos r' c₁ hbody

/-- A run on an input file. -/
theorem run {p : Logged E α} (hp : Reports text bad p pos) (hlogs : Logs text good p pos post)
    {w : Nat} {f : Nkinfile w} (hfile : Agrees f ⟨text, pos⟩) :
    ∃ r f', p.run.run (nkinfile w) f = some (r, f') ∧ ∃ e ∈ r.2, bad e := by
  have hstays : Stays text p.run pos fun r _ => ∃ e ∈ r.2, bad e := by
    intro hpos
    obtain ⟨r, pos', hrun, hpos', -⟩ := hlogs hpos
    exact ⟨r, pos', hrun, hpos', hp hpos r _ hrun⟩
  obtain ⟨r, f', pos', hrun, -, hbad⟩ := hstays.run hfile
  exact ⟨r, f', hrun, hbad⟩

end Reports

end LibnklabsPico.File
