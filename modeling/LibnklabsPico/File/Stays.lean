/-
  File/Stays.lean --- programs that keep to what a file allows, whatever is in it.

  `Takes` says what a parser does with text it knows.  `Stays` is for text that may be
  anything: from a position in the text every operation is allowed, the text stays as it
  is, and a postcondition holds of the result and of the position behind it.
-/
import LibnklabsPico.File.FileProg

set_option autoImplicit false

namespace LibnklabsPico.File

open LibnklabsPico.Foundation

variable {α β : Type} {text : List UInt8} {pos : Nat}

/-- The character at a position of a text, `-1` at its end. -/
def charAt (text : List UInt8) (pos : Nat) : Int := (Cursor.mk text pos).peek

theorem charAt_ne_end (hpos : pos ≤ text.length) : charAt text pos ≠ -1 ↔ pos < text.length := by
  constructor
  · intro hchar
    by_contra hge
    exact hchar (Cursor.peek_of_le (by omega))
  · intro hlt hchar
    have hpeek : charAt text pos = (text[pos].toNat : Int) := by
      simp [charAt, Cursor.peek, hlt]
    omega

/-- A character that satisfies a test is not the end of the text, if that does not. -/
theorem ne_end_of_test {test : Int → Bool} (hend : test (-1) = false) {c : Int}
    (hc : test c = true) : c ≠ -1 := by
  rintro rfl
  rw [hend] at hc
  cases hc

/-- From a position in the text the program does only what is allowed, and ends with a
result and at a position that satisfy `post`. -/
def Stays (text : List UInt8) (p : FileProg α) (pos : Nat) (post : α → Nat → Prop) : Prop :=
  pos ≤ text.length → ∃ a pos', p.run plainFile ⟨text, pos⟩ = some (a, ⟨text, pos'⟩) ∧
    pos' ≤ text.length ∧ post a pos'

/-- What holds of a result and a position: behind what is found in the text, or
when it is not there. -/
def Outcome {α β : Type} (found : Option (Nat × β)) (taken : β → α → Prop)
    (failed : α → Nat → Prop) (r : α) (pos' : Nat) : Prop :=
  match found with
  | some (stop, b) => taken b r ∧ pos' = stop
  | none => failed r pos'

namespace Stays

variable {post post' : α → Nat → Prop} {mid : α → Nat → Prop} {last : β → Nat → Prop}

protected theorem pure {a : α} (h : post a pos) : Stays text (Pure.pure a) pos post :=
  fun hpos => ⟨a, pos, Prog.run_pure a _, hpos, h⟩

protected theorem bind {p : FileProg α} {f : α → FileProg β} (hp : Stays text p pos mid)
    (hf : ∀ a pos', mid a pos' → Stays text (f a) pos' last) : Stays text (p >>= f) pos last := by
  intro hpos
  obtain ⟨a, pos₁, hrun, hpos₁, hmid⟩ := hp hpos
  obtain ⟨b, pos₂, hrun₂, hpos₂, hlast⟩ := hf a pos₁ hmid hpos₁
  exact ⟨b, pos₂, (Prog.run_bind_of hrun).trans hrun₂, hpos₂, hlast⟩

/-- A test, and what comes behind it in either case. -/
theorem test {p : FileProg Bool} {f : Bool → FileProg β} (hp : Stays text p pos fun _ _ => True)
    (htrue : ∀ pos', Stays text (f true) pos' last)
    (hfalse : ∀ pos', Stays text (f false) pos' last) : Stays text (p >>= f) pos last := by
  refine hp.bind fun found pos' _ => ?_
  cases found with
  | true => exact htrue pos'
  | false => exact hfalse pos'

/-- A scan with a status, and what comes behind it in either case. -/
theorem status {p : FileProg (Bool × α)} {f : Bool × α → FileProg β}
    (hp : Stays text p pos fun _ _ => True)
    (htrue : ∀ a pos', Stays text (f (true, a)) pos' last)
    (hfalse : ∀ a pos', Stays text (f (false, a)) pos' last) : Stays text (p >>= f) pos last := by
  refine hp.bind fun r pos' _ => ?_
  obtain ⟨found, a⟩ := r
  cases found with
  | true => exact htrue a pos'
  | false => exact hfalse a pos'

protected theorem mono {p : FileProg α} (hp : Stays text p pos post)
    (himp : ∀ a pos', post a pos' → post' a pos') : Stays text p pos post' := by
  intro hpos
  obtain ⟨a, pos', hrun, hpos', hpost⟩ := hp hpos
  exact ⟨a, pos', hrun, hpos', himp a pos' hpost⟩

/-- Two postconditions of one program. -/
protected theorem and {p : FileProg α} (hp : Stays text p pos post) (hp' : Stays text p pos post') :
    Stays text p pos fun a pos' => post a pos' ∧ post' a pos' := by
  intro hpos
  obtain ⟨a, pos₁, hrun, hpos₁, hpost⟩ := hp hpos
  obtain ⟨b, pos₂, hrun₂, -, hpost'⟩ := hp' hpos
  rw [hrun, Option.some.injEq, Prod.mk.injEq, Cursor.mk.injEq] at hrun₂
  obtain ⟨rfl, -, rfl⟩ := hrun₂
  exact ⟨a, pos₁, hrun, hpos₁, hpost, hpost'⟩

/-- A program that is right from a position in the text is right from any position. -/
protected theorem of_le {p : FileProg α} (hp : pos ≤ text.length → Stays text p pos post) :
    Stays text p pos post :=
  fun hpos => hp hpos hpos

/-- One operation, and what comes behind it. -/
theorem perform {op : FileOp} {f : Int → FileProg β}
    (h : pos ≤ text.length → op.Portable ⟨text, pos⟩ ∧
      ∃ pos', (op.execPlain ⟨text, pos⟩).2 = ⟨text, pos'⟩ ∧ pos' ≤ text.length ∧
        Stays text (f (op.execPlain ⟨text, pos⟩).1) pos' last) :
    Stays text (Prog.perform op >>= f) pos last := by
  intro hpos
  obtain ⟨hportable, pos₁, hstate, hpos₁, hf⟩ := h hpos
  obtain ⟨b, pos₂, hrun, hpos₂, hlast⟩ := hf hpos₁
  have hcall : (Prog.perform op : FileProg Int).run plainFile ⟨text, pos⟩ =
      some ((op.execPlain ⟨text, pos⟩).1, ⟨text, pos₁⟩) := by
    rw [Prog.run_perform, plainFile, if_pos hportable, ← hstate]
  exact ⟨b, pos₂, (Prog.run_bind_of hcall).trans hrun, hpos₂, hlast⟩

/-! ## The operations -/

section
variable {f : Int → FileProg β}

theorem tell (h : Stays text (f pos) pos last) : Stays text (FileProg.ftell >>= f) pos last :=
  perform fun hpos => ⟨⟨rfl, trivial⟩, pos, rfl, hpos, h⟩

theorem peek (h : Stays text (f (charAt text pos)) pos last) :
    Stays text (FileProg.fpeek >>= f) pos last :=
  perform fun hpos => ⟨⟨rfl, trivial⟩, pos, rfl, hpos, h⟩

theorem feof (h : ∀ atEnd : Int, (atEnd = 0 → charAt text pos ≠ -1) →
    Stays text (f atEnd) pos last) :
    Stays text (FileProg.feof >>= f) pos last := by
  refine perform fun hpos => ⟨⟨rfl, trivial⟩, pos, rfl, hpos, h _ fun hzero => ?_⟩
  have hne : pos ≠ text.length := by
    rintro rfl
    simp [FileOp.execPlain, Cursor.atEnd] at hzero
  exact (charAt_ne_end hpos).mpr (by omega)

/-- At the end or not. -/
theorem feof_cases (hmore : charAt text pos ≠ -1 → Stays text (f 0) pos last)
    (hend : charAt text pos = -1 → Stays text (f 1) pos last) :
    Stays text (FileProg.feof >>= f) pos last := by
  refine perform fun hpos => ⟨⟨rfl, trivial⟩, pos, rfl, hpos, ?_⟩
  by_cases hchar : charAt text pos = -1
  · have hat : (Cursor.mk text pos).atEnd = true := by
      have hnot := mt (charAt_ne_end hpos).mpr (not_not.mpr hchar)
      have heq : pos = text.length := by omega
      simp [Cursor.atEnd, heq]
    simp only [FileOp.execPlain, if_pos hat]
    exact hend hchar
  · have hat : ¬ (Cursor.mk text pos).atEnd = true := by
      have hlt := (charAt_ne_end hpos).mp hchar
      simpa [Cursor.atEnd] using hlt.ne
    simp only [FileOp.execPlain, if_neg hat]
    exact hmore hchar

theorem peekFast (hchar : charAt text pos ≠ -1) (h : Stays text (f (charAt text pos)) pos last) :
    Stays text (FileProg.fpeekFast >>= f) pos last :=
  perform fun hpos => ⟨⟨rfl, (charAt_ne_end hpos).mp hchar⟩, pos, rfl, hpos, h⟩

theorem nextFast (hchar : charAt text pos ≠ -1)
    (h : Stays text (f (charAt text (pos + 1))) (pos + 1) last) :
    Stays text (FileProg.fnextFast >>= f) pos last := by
  refine perform fun hpos => ?_
  have hlt : pos < text.length := (charAt_ne_end hpos).mp hchar
  have hexec : (FileOp.nextFast).execPlain ⟨text, pos⟩ =
      (charAt text (pos + 1), ⟨text, pos + 1⟩) := by
    have hnot : ¬ (Cursor.mk text pos).atEnd = true := by simpa [Cursor.atEnd] using hlt.ne
    simp only [FileOp.execPlain, if_neg hnot]
    rfl
  exact ⟨⟨rfl, hlt⟩, pos + 1, by rw [hexec], hlt, by rwa [hexec]⟩

theorem next (h : ∀ c pos', Stays text (f c) pos' last) :
    Stays text (FileProg.fnext >>= f) pos last := by
  refine perform fun hpos => ⟨⟨rfl, trivial⟩, ?_⟩
  by_cases hend : (Cursor.mk text pos).atEnd = true
  · refine ⟨pos, ?_, hpos, h _ _⟩
    simp only [FileOp.execPlain, if_pos hend]
  · have hlt : pos < text.length := by
      have hne : pos ≠ text.length := by simpa [Cursor.atEnd] using hend
      omega
    refine ⟨pos + 1, ?_, hlt, h _ _⟩
    simp only [FileOp.execPlain, if_neg hend]
    rfl

theorem seek {n : Nat} (hn : n ≤ text.length) (h : ∀ c, Stays text (f c) n last) :
    Stays text (FileProg.fseek n >>= f) pos last :=
  perform fun _ => ⟨⟨rfl, hn⟩, n, rfl, hn, h _⟩

theorem seekRel {n : Nat} (hn : pos + n ≤ text.length)
    (h : Stays text (f (charAt text (pos + n))) (pos + n) last) :
    Stays text (FileProg.fseekRel n >>= f) pos last :=
  perform fun _ => ⟨⟨rfl, by simp only [FileOp.Allowed]; omega⟩, pos + n, rfl, hn, h⟩

theorem peekRel {n : Nat} (hn : pos + n ≤ text.length)
    (h : Stays text (f (charAt text (pos + n))) pos last) :
    Stays text (FileProg.fpeekRel n >>= f) pos last :=
  perform fun hpos => ⟨⟨rfl, by simp only [FileOp.Allowed]; omega⟩, pos, rfl, hpos, h⟩

end

/-- A scan that gives up returns to where it started. -/
theorem orRewind {status : α → Bool} {p : FileProg α} {post : α → Prop}
    (hp : Stays text p pos fun a _ => post a) :
    Stays text (FileProg.orRewind status p) pos
      fun a pos' => post a ∧ (status a = false → pos' = pos) := by
  refine .of_le fun hpos => .tell (.bind hp fun a pos' hpost => ?_)
  by_cases hstatus : status a = true
  · rw [if_pos hstatus]
    exact .pure ⟨hpost, fun hfalse => by rw [hstatus] at hfalse; cases hfalse⟩
  · rw [if_neg hstatus]
    exact .seek hpos fun _ => .pure ⟨hpost, fun _ => rfl⟩

/-- Where a scan ends that returns to where it started when it gives up. -/
theorem orRewind_cases {status : α → Bool} {p : FileProg α} (hp : Stays text p pos post) :
    Stays text (FileProg.orRewind status p) pos
      fun a pos' => ∃ pos₁, post a pos₁ ∧ pos' = if status a then pos₁ else pos := by
  refine .of_le fun hpos => .tell (.bind hp fun a pos₁ hpost => ?_)
  by_cases hstatus : status a = true
  · rw [if_pos hstatus]
    exact .pure ⟨pos₁, hpost, (if_pos hstatus).symm⟩
  · rw [if_neg hstatus]
    exact .seek hpos fun _ => .pure ⟨pos₁, hpost, (if_neg hstatus).symm⟩

theorem orRewind_any {status : α → Bool} {p : FileProg α} (hp : Stays text p pos fun _ _ => True) :
    Stays text (FileProg.orRewind status p) pos fun a pos' => status a = false → pos' = pos := by
  have hrewind : Stays text (FileProg.orRewind status p) pos
      fun a pos' => True ∧ (status a = false → pos' = pos) := orRewind hp
  exact hrewind.mono fun _ _ h => h.2

/-- A scan that returns to where it started when it fails. -/
theorem orRewind_outcome {status : α → Bool} {p : FileProg α} {found : Option (Nat × β)}
    {taken : β → α → Prop} {failed : α → Prop}
    (hp : Stays text p pos (Outcome found taken fun a _ => failed a))
    (htaken : ∀ b a, taken b a → status a = true) (hfailed : ∀ a, failed a → status a = false) :
    Stays text (FileProg.orRewind status p) pos
      (Outcome found taken fun a pos' => failed a ∧ pos' = pos) := by
  refine (orRewind_cases hp).mono fun a pos' h => ?_
  obtain ⟨pos₁, ha, rfl⟩ := h
  cases found with
  | none => exact ⟨ha, if_neg (by rw [hfailed a ha]; exact Bool.false_ne_true)⟩
  | some found =>
      obtain ⟨htake, rfl⟩ := ha
      exact ⟨htake, if_pos (htaken found.2 a htake)⟩

/-- The result and the position themselves. -/
theorem exact {p : FileProg α} (hp : Stays text p pos post) (hpos : pos ≤ text.length) :
    ∃ a pos', pos' ≤ text.length ∧ post a pos' ∧
      Stays text p pos fun b pos'' => b = a ∧ pos'' = pos' := by
  obtain ⟨a, pos', hrun, hpos', hpost⟩ := hp hpos
  exact ⟨a, pos', hpos', hpost, fun _ => ⟨a, pos', hrun, hpos', rfl, rfl⟩⟩

/-- A run on an input file. -/
theorem run {p : FileProg α} (hp : Stays text p pos post) {w : Nat} {f : Nkinfile w}
    (hfile : Agrees f ⟨text, pos⟩) :
    ∃ a f' pos', p.run (nkinfile w) f = some (a, f') ∧ Agrees f' ⟨text, pos'⟩ ∧ post a pos' := by
  obtain ⟨a, pos', hrun, -, hpost⟩ := hp hfile.pos_le
  obtain ⟨f', hrun', hagrees⟩ := run_of_plainFile hfile hrun
  exact ⟨a, f', pos', hrun', hagrees, hpost⟩

end Stays

/-- Where a scan of a file ends, if it accepts what is there. -/
def reach {w : Nat} {α : Type} (status : α → Bool) (scan : FileProg α) (f : Nkinfile w) :
    Option Nat :=
  (scan.run (nkinfile w) f).bind fun (r, f') => if status r then some (nkFtell f') else none

theorem reach_eq {w : Nat} {α β : Type} {status : α → Bool} {scan : FileProg α}
    {found : Option (Nat × β)} {taken : β → α → Prop} {failed : α → Nat → Prop} {f : Nkinfile w}
    (hscan : Stays text scan pos (Outcome found taken failed))
    (htaken : ∀ b r, taken b r → status r = true)
    (hfailed : ∀ r pos', failed r pos' → status r = false) (agrees : Agrees f ⟨text, pos⟩) :
    reach status scan f = found.map Prod.fst := by
  obtain ⟨r, f', pos', hrun, hagrees, hr⟩ := hscan.run agrees
  rw [reach, hrun, Option.bind_some]
  cases found with
  | none => exact if_neg (by rw [hfailed r pos' hr]; exact Bool.false_ne_true)
  | some found =>
      obtain ⟨htake, rfl⟩ := hr
      dsimp only
      rw [if_pos (htaken found.2 r htake), hagrees.nkFtell_eq]
      rfl

end LibnklabsPico.File
