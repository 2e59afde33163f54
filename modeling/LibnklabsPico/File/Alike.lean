/-
  File/Alike.lean --- parsers that do the same on a text.

  `Alike` is `Stays` for two programs at once: from a position in the text both make the
  same calls, and they end with the same result at the same position.  It is used for a
  parser with two amounts of fuel.
-/
import LibnklabsPico.File.Stays
import LibnklabsPico.Foundation.Alike

set_option autoImplicit false

namespace LibnklabsPico.File

open LibnklabsPico.Foundation

variable {α β : Type} {text : List UInt8} {pos : Nat}

/-- From a position in the text the two programs do the same, as far as it is allowed, and end
with a result and at a position that satisfy `post`. -/
def Alike (text : List UInt8) (p q : FileProg α) (pos : Nat) (post : α → Nat → Prop) : Prop :=
  pos ≤ text.length → Prog.Alike plainFile
    (fun a c => ∃ pos', c = ⟨text, pos'⟩ ∧ pos' ≤ text.length ∧ post a pos') p q ⟨text, pos⟩

/-- The position does not go back, and goes on when the status is good. -/
def Advances (status : α → Bool) (pos : Nat) (a : α) (pos' : Nat) : Prop :=
  pos ≤ pos' ∧ (status a = true → pos < pos')

/-- Reading on ends: what holds at a position as long as it holds at those behind it. -/
theorem reading_induction (text : List UInt8) {motive : Nat → Prop}
    (step : ∀ pos, (∀ pos', pos < pos' → pos' ≤ text.length → motive pos') → motive pos)
    (pos : Nat) : motive pos := by
  induction hleft : text.length - pos using Nat.strong_induction_on generalizing pos with
  | h left ih => exact step pos fun pos' hlt hle => ih (text.length - pos') (by omega) pos' rfl

namespace Alike

variable {post post' mid : α → Nat → Prop} {last : β → Nat → Prop}

protected theorem pure {a : α} (h : post a pos) :
    Alike text (Pure.pure a) (Pure.pure a) pos post :=
  fun hpos => .pure ⟨pos, rfl, hpos, h⟩

protected theorem bind {p q : FileProg α} {f g : α → FileProg β} (hp : Alike text p q pos mid)
    (hf : ∀ a pos', mid a pos' → Alike text (f a) (g a) pos' last) :
    Alike text (p >>= f) (q >>= g) pos last := by
  intro hpos
  refine (hp hpos).bind fun a c hc => ?_
  obtain ⟨pos', rfl, hpos', hmid⟩ := hc
  exact hf a pos' hmid hpos'

protected theorem mono {p q : FileProg α} (hp : Alike text p q pos post)
    (himp : ∀ a pos', post a pos' → post' a pos') : Alike text p q pos post' := by
  refine fun hpos => (hp hpos).mono fun a c hc => ?_
  obtain ⟨pos', rfl, hpos', hpost⟩ := hc
  exact ⟨pos', rfl, hpos', himp a pos' hpost⟩

/-- A position from which the programs are used is in the text. -/
protected theorem of_le {p q : FileProg α} (hp : pos ≤ text.length → Alike text p q pos post) :
    Alike text p q pos post :=
  fun hpos => hp hpos hpos

/-- A program that has no fuel. -/
theorem of_stays {p : FileProg α} (hp : Stays text p pos post) : Alike text p p pos post := by
  intro hpos
  obtain ⟨a, pos', hrun, hpos', hpost⟩ := hp hpos
  exact .of_run hrun ⟨pos', rfl, hpos', hpost⟩

/-- A first part that has no fuel. -/
theorem step {p : FileProg α} {f g : α → FileProg β} (hp : Stays text p pos mid)
    (hf : ∀ a pos', mid a pos' → Alike text (f a) (g a) pos' last) :
    Alike text (p >>= f) (p >>= g) pos last :=
  .bind (of_stays hp) hf

protected theorem ite {c : Prop} [Decidable c] {p p' q q' : FileProg α}
    (hp : c → Alike text p q pos post) (hp' : ¬ c → Alike text p' q' pos post) :
    Alike text (if c then p else p') (if c then q else q') pos post := by
  split
  · exact hp ‹c›
  · exact hp' ‹¬ c›

/-! ## The operations -/

section
variable {f g : Int → FileProg β}

theorem tell (h : Alike text (f pos) (g pos) pos last) :
    Alike text (FileProg.ftell >>= f) (FileProg.ftell >>= g) pos last := by
  have htell : Stays text FileProg.ftell pos fun c pos' => c = pos ∧ pos' = pos := by
    rw [← bind_pure FileProg.ftell]
    exact .tell (.pure ⟨rfl, rfl⟩)
  refine .step htell fun c pos' hc => ?_
  rw [hc.1, hc.2]
  exact h

theorem peek (h : Alike text (f (charAt text pos)) (g (charAt text pos)) pos last) :
    Alike text (FileProg.fpeek >>= f) (FileProg.fpeek >>= g) pos last := by
  have hpeek : Stays text FileProg.fpeek pos fun c pos' => c = charAt text pos ∧ pos' = pos := by
    rw [← bind_pure FileProg.fpeek]
    exact .peek (.pure ⟨rfl, rfl⟩)
  refine .step hpeek fun c pos' hc => ?_
  rw [hc.1, hc.2]
  exact h

theorem nextFast (hchar : charAt text pos ≠ -1)
    (h : Alike text (f (charAt text (pos + 1))) (g (charAt text (pos + 1))) (pos + 1) last) :
    Alike text (FileProg.fnextFast >>= f) (FileProg.fnextFast >>= g) pos last := by
  have hnext : Stays text FileProg.fnextFast pos
      fun c pos' => c = charAt text (pos + 1) ∧ pos' = pos + 1 := by
    rw [← bind_pure FileProg.fnextFast]
    exact .nextFast hchar (.pure ⟨rfl, rfl⟩)
  refine .step hnext fun c pos' hc => ?_
  rw [hc.1, hc.2]
  exact h

theorem next (hchar : charAt text pos ≠ -1)
    (h : ∀ c, Alike text (f c) (g c) (pos + 1) last) :
    Alike text (FileProg.fnext >>= f) (FileProg.fnext >>= g) pos last := by
  have hnext : Stays text FileProg.fnext pos fun _ pos' => pos' = pos + 1 := by
    rw [← bind_pure FileProg.fnext]
    refine .perform fun hpos => ⟨⟨rfl, trivial⟩, pos + 1, ?_, ?_, .pure rfl⟩
    · have hlt := (charAt_ne_end hpos).mp hchar
      have hnot : ¬ (Cursor.mk text pos).atEnd = true := by simpa [Cursor.atEnd] using hlt.ne
      simp only [FileOp.execPlain, if_neg hnot]
      rfl
    · exact (charAt_ne_end hpos).mp hchar
  refine .step hnext fun c pos' hpos' => ?_
  rw [hpos']
  exact h c

theorem feof (h : ∀ atEnd : Int, (atEnd = 0 → charAt text pos ≠ -1) →
      Alike text (f atEnd) (g atEnd) pos last) :
    Alike text (FileProg.feof >>= f) (FileProg.feof >>= g) pos last := by
  have hfeof : Stays text FileProg.feof pos
      fun c pos' => pos' = pos ∧ (c = 0 → charAt text pos ≠ -1) := by
    rw [← bind_pure FileProg.feof]
    exact .feof fun _ hend => .pure ⟨rfl, hend⟩
  refine .step hfeof fun c pos' hc => ?_
  rw [hc.1]
  exact h c hc.2

end

/-- A scan that gives up returns to where it started. -/
theorem orRewind {status : α → Bool} {p q : FileProg α}
    (hp : Alike text p q pos fun a pos' => status a = true → post a pos') :
    Alike text (FileProg.orRewind status p) (FileProg.orRewind status q) pos
      fun a pos' => if status a = true then post a pos' else pos' = pos := by
  refine .of_le fun hpos => .tell (.bind hp fun a pos' hpost => ?_)
  by_cases hstatus : status a = true
  · rw [if_pos hstatus]
    exact .pure (by rw [if_pos hstatus]; exact hpost hstatus)
  · rw [if_neg hstatus]
    exact .of_stays (.seek hpos fun _ => .pure (by rw [if_neg hstatus]))

/-- A scan that goes on when it succeeds, and otherwise returns to where it started. -/
theorem orRewind_advances {status : α → Bool} {p q : FileProg α}
    (hp : Alike text p q pos fun a pos' => status a = true → pos < pos') :
    Alike text (FileProg.orRewind status p) (FileProg.orRewind status q) pos
      (Advances status pos) := by
  refine (Alike.orRewind hp).mono fun a pos' h => ?_
  split at h
  · exact ⟨Nat.le_of_lt h, fun _ => h⟩
  · rename_i hstatus
    exact ⟨Nat.le_of_eq h.symm, fun hgood => absurd hgood hstatus⟩

end Alike

/-- On an input file. -/
theorem settles_of_alike {p : Nat → FileProg α} {bound : Nat} {post : α → Nat → Prop}
    {w : Nat} {f : Nkinfile w} (agrees : Agrees f ⟨text, pos⟩)
    (halike : ∀ fuel, bound ≤ fuel → Alike text (p bound) (p fuel) pos post) :
    Prog.Settles (nkinfile w) p bound f := by
  refine .of_alike fun fuel hfuel => .simulates (R := Agrees) (fun op f c r c' hagrees hcall => ?_)
    agrees (halike fuel hfuel agrees.pos_le)
  have hrun : (Prog.perform op : FileProg Int).run plainFile c = some (r, c') := by
    rw [Prog.run_perform, hcall]
  obtain ⟨f', hrun', hagrees'⟩ := run_of_plainFile hagrees hrun
  rw [Prog.run_perform] at hrun'
  exact ⟨f', hrun', hagrees'⟩

end LibnklabsPico.File
