/-
  File/FileProg.lean --- programs that read an input file.

  A parser is a program over the file operations.  `nkinfile` runs it on an
  `nkinfile_t`, `plainFile` on a plain file; the second refuses operations that
  the caller of `nkinfile.h` must not make, and what it runs, the first runs with
  the same result (`run_of_plainFile`).

  `Takes p tok rest a` says what a parser does in terms of text alone: in front
  of `tok ++ rest` it reads `tok` and returns `a`.
-/
import LibnklabsPico.File.Cursor
import LibnklabsPico.Foundation.Prog

set_option autoImplicit false

namespace LibnklabsPico.File

open LibnklabsPico.Foundation

/-- Programs that read an input file. -/
abbrev FileProg : Type → Type := Prog FileOp fun _ => Int

namespace FileProg

/-- `nk_ftell(f)` -/
def ftell : FileProg Int := Prog.perform FileOp.tell

/-- `nk_feof(f)` -/
def feof : FileProg Int := Prog.perform FileOp.feof

/-- `nk_fseek(f, n)` -/
def fseek (n : Int) : FileProg Int := Prog.perform (FileOp.seek n.toNat)

/-- `nk_fseek_rel(f, n)` -/
def fseekRel (n : Int) : FileProg Int := Prog.perform (FileOp.seekRel n)

/-- `nk_fpeek(f)` -/
def fpeek : FileProg Int := Prog.perform FileOp.peek

/-- `nk_fpeek_fast(f)` -/
def fpeekFast : FileProg Int := Prog.perform FileOp.peekFast

/-- `nk_fpeek_rel(f, n)` -/
def fpeekRel (n : Int) : FileProg Int := Prog.perform (FileOp.peekRel n)

/-- `nk_fnext(f)` -/
def fnext : FileProg Int := Prog.perform FileOp.next

/-- `nk_fnext_fast(f)` -/
def fnextFast : FileProg Int := Prog.perform FileOp.nextFast

/-- `nk_fgetc(f)` -/
def fgetc : FileProg Int := Prog.perform FileOp.getc

/-- `orgpos = nk_ftell(f)` at the start of a scan and
`if (!status) nk_fseek(f, orgpos)` at its end. -/
def orRewind {α : Type} (status : α → Bool) (scan : FileProg α) : FileProg α := do
  let orgpos ← ftell
  let result ← scan
  if status result then pure result
  else
    let _ ← fseek orgpos
    pure result

end FileProg

/-! ## Running on the file and on a plain file -/

/-- Run the operations on an `nkinfile_t`. -/
def nkinfile (w : Nat) : Handler FileOp (fun _ => Int) (Nkinfile w) :=
  fun op f => some (op.exec f)

/-- Whether an operation depends on the current buffer. -/
def FileOp.needsBuffer : FileOp → Bool
  | .seekFast _ => true
  | _ => false

/-- What may be done whatever the current buffer is. -/
def FileOp.Portable (op : FileOp) (c : Cursor) : Prop :=
  op.needsBuffer = false ∧ op.Allowed c

instance (op : FileOp) (c : Cursor) : Decidable (op.Allowed c) :=
  match op with
  | .tell | .feof | .peek | .next | .getc => inferInstanceAs (Decidable True)
  | .seek _ | .seekFast _ => inferInstanceAs (Decidable (_ ≤ _))
  | .seekRel _ | .peekRel _ => inferInstanceAs (Decidable (_ ∧ _))
  | .peekFast | .nextFast | .getcFast => inferInstanceAs (Decidable (_ < _))

instance (op : FileOp) (c : Cursor) : Decidable (op.Portable c) :=
  inferInstanceAs (Decidable (_ ∧ _))

/-- Run the operations on a plain file, as far as they are allowed. -/
def plainFile : Handler FileOp (fun _ => Int) Cursor :=
  fun op c => if op.Portable c then some (op.execPlain c) else none

/-- A program that stays within what is allowed gives the same result on an
input file as on the plain file. -/
theorem run_of_plainFile {w : Nat} {α : Type} {p : FileProg α} {f : Nkinfile w}
    {c c' : Cursor} {a : α} (agrees : Agrees f c) (hrun : p.run plainFile c = some (a, c')) :
    ∃ f', p.run (nkinfile w) f = some (a, f') ∧ Agrees f' c' := by
  refine Prog.run_simulates (fun op f c r c' hagrees hcall => ?_) agrees hrun
  unfold plainFile at hcall
  split at hcall
  · rename_i hportable
    obtain ⟨hbuffer, hallowed⟩ := hportable
    have hin : op.InBuffer f := by
      cases op <;> trivial
    obtain ⟨hresult, hagrees'⟩ := exec_spec hagrees op hallowed hin
    rw [Option.some.injEq] at hcall
    rw [hcall] at hresult hagrees'
    exact ⟨(op.exec f).2, congrArg some (Prod.ext hresult rfl), hagrees'⟩
  · cases hcall

/-! ## Parsers in terms of text -/

/-- A plain file with `pre` behind the position and `rest` ahead of it. -/
def Cursor.at (pre rest : List UInt8) : Cursor := ⟨pre ++ rest, pre.length⟩

/-- The next character, `-1` at end of file. -/
def peekHead : List UInt8 → Int
  | [] => -1
  | c :: _ => c.toNat

@[simp] theorem Cursor.peek_at (pre rest : List UInt8) :
    (Cursor.at pre rest).peek = peekHead rest := by
  cases rest <;> simp [Cursor.at, Cursor.peek, peekHead]

variable {α β : Type}

/-- In front of `tok ++ rest` the parser reads `tok` and returns `a`. -/
def Takes (p : FileProg α) (tok rest : List UInt8) (a : α) : Prop :=
  ∀ pre, p.run plainFile (Cursor.at pre (tok ++ rest)) = some (a, Cursor.at (pre ++ tok) rest)

namespace Takes

theorem pure (a : α) (rest : List UInt8) : Takes (Pure.pure a) [] rest a := by
  intro pre
  simp

/-- One parser after the other. -/
theorem bind {p : FileProg α} {f : α → FileProg β} {t₁ t₂ rest : List UInt8} {a : α} {b : β}
    (hp : Takes p t₁ (t₂ ++ rest) a) (hf : Takes (f a) t₂ rest b) :
    Takes (p >>= f) (t₁ ++ t₂) rest b := by
  intro pre
  rw [List.append_assoc, Prog.run_bind_of (hp pre), hf (pre ++ t₁), List.append_assoc]

/-- A parser that only looks, and another one. -/
theorem look {p : FileProg α} {f : α → FileProg β} {tok rest : List UInt8} {a : α} {b : β}
    (hp : Takes p [] (tok ++ rest) a) (hf : Takes (f a) tok rest b) :
    Takes (p >>= f) tok rest b :=
  hp.bind hf

/-- A parser, and another one that only looks. -/
theorem finish {p : FileProg α} {f : α → FileProg β} {tok rest : List UInt8} {a : α} {b : β}
    (hp : Takes p tok rest a) (hf : Takes (f a) [] rest b) : Takes (p >>= f) tok rest b := by
  rw [← List.append_nil tok]
  exact hp.bind hf

theorem peek (rest : List UInt8) : Takes FileProg.fpeek [] rest (peekHead rest) := by
  intro pre
  simp [FileProg.fpeek, plainFile, FileOp.Portable, FileOp.needsBuffer,
    FileOp.Allowed, FileOp.execPlain]

theorem nextFast (c : UInt8) (rest : List UInt8) :
    Takes FileProg.fnextFast [c] rest (peekHead rest) := by
  intro pre
  have hin : pre.length < (pre ++ ([c] ++ rest)).length := by simp
  have hend : ¬ (Cursor.at pre ([c] ++ rest)).atEnd = true := by
    simp [Cursor.at, Cursor.atEnd]
  have hseek : (Cursor.at pre ([c] ++ rest)).seek (pre.length + 1) =
      Cursor.at (pre ++ [c]) rest := by
    simp [Cursor.at, Cursor.seek]
  have hallowed : FileOp.Portable .nextFast (Cursor.at pre ([c] ++ rest)) := ⟨rfl, hin⟩
  rw [FileProg.fnextFast, Prog.run_perform, plainFile, if_pos hallowed]
  simp only [FileOp.execPlain, hend, Cursor.seekPeek]
  rw [show (Cursor.at pre ([c] ++ rest)).pos + 1 = pre.length + 1 from rfl, hseek,
    Cursor.peek_at]
  rfl

/-- `nk_fgetc(f)` in front of a character. -/
theorem getc (c : UInt8) (rest : List UInt8) : Takes FileProg.fgetc [c] rest c.toNat := by
  intro pre
  have hend : ¬ (Cursor.at pre ([c] ++ rest)).atEnd = true := by
    simp [Cursor.at, Cursor.atEnd]
  have hseek : (Cursor.at pre ([c] ++ rest)).seek (pre.length + 1) =
      Cursor.at (pre ++ [c]) rest := by
    simp [Cursor.at, Cursor.seek]
  have hallowed : FileOp.Portable .getc (Cursor.at pre ([c] ++ rest)) := ⟨rfl, trivial⟩
  rw [FileProg.fgetc, Prog.run_perform, plainFile, if_pos hallowed]
  simp only [FileOp.execPlain, hend, Cursor.peek_at]
  rw [show (Cursor.at pre ([c] ++ rest)).pos + 1 = pre.length + 1 from rfl, hseek]
  rfl

/-- Looking one character ahead. -/
theorem peekRel_one (c : UInt8) (rest : List UInt8) :
    Takes (FileProg.fpeekRel 1) [] (c :: rest) (peekHead rest) := by
  intro pre
  have hallowed : FileOp.Portable (.peekRel 1) (Cursor.at pre (c :: rest)) := by
    refine ⟨rfl, ?_⟩
    simp only [FileOp.Allowed, Cursor.at, List.length_append, List.length_cons]
    omega
  have hseek : (Cursor.at pre (c :: rest)).seek (pre.length + 1) =
      Cursor.at (pre ++ [c]) rest := by
    simp [Cursor.at, Cursor.seek]
  rw [List.nil_append, FileProg.fpeekRel, Prog.run_perform, plainFile, if_pos hallowed]
  simp only [FileOp.execPlain, List.append_nil]
  rw [show ((Cursor.at pre (c :: rest)).pos + (1 : Int)).toNat = pre.length + 1 from rfl, hseek,
    Cursor.peek_at]

/-- Looking two characters ahead. -/
theorem peekRel_two (c d : UInt8) (rest : List UInt8) :
    Takes (FileProg.fpeekRel 2) [] (c :: d :: rest) (peekHead rest) := by
  intro pre
  have hallowed : FileOp.Portable (.peekRel 2) (Cursor.at pre (c :: d :: rest)) := by
    refine ⟨rfl, ?_⟩
    simp only [FileOp.Allowed, Cursor.at, List.length_append, List.length_cons]
    omega
  have hseek : (Cursor.at pre (c :: d :: rest)).seek (pre.length + 2) =
      Cursor.at (pre ++ [c, d]) rest := by
    simp [Cursor.at, Cursor.seek]
  rw [List.nil_append, FileProg.fpeekRel, Prog.run_perform, plainFile, if_pos hallowed]
  simp only [FileOp.execPlain, List.append_nil]
  rw [show ((Cursor.at pre (c :: d :: rest)).pos + (2 : Int)).toNat = pre.length + 2 from rfl,
    hseek, Cursor.peek_at]

/-- The position does not matter to what follows. -/
theorem tell {f : Int → FileProg β} {tok rest : List UInt8} {b : β}
    (hf : ∀ pos, Takes (f pos) tok rest b) : Takes (FileProg.ftell >>= f) tok rest b := by
  intro pre
  have htell : FileProg.ftell.run plainFile (Cursor.at pre (tok ++ rest)) =
      some ((pre.length : Int), Cursor.at pre (tok ++ rest)) := by
    simp [FileProg.ftell, plainFile, FileOp.Portable, FileOp.needsBuffer,
        FileOp.Allowed, FileOp.execPlain, Cursor.at]
  rw [Prog.run_bind_of htell, hf (pre.length : Int) pre]

/-- A scan that succeeds stays where it is. -/
theorem orRewind_ok {status : α → Bool} {p : FileProg α} {tok rest : List UInt8} {a : α}
    (hp : Takes p tok rest a) (hstatus : status a = true) :
    Takes (FileProg.orRewind status p) tok rest a := by
  refine Takes.tell fun pos => ?_
  have hdone : Takes (if status a then Pure.pure a
      else do
        let _ ← FileProg.fseek pos
        Pure.pure a) [] rest a := by
    rw [if_pos hstatus]
    exact Takes.pure a rest
  exact Takes.finish hp hdone

/-- A scan that gives up returns to where it started. -/
theorem orRewind_fail {status : α → Bool} {p : FileProg α} {tok rest : List UInt8} {a : α}
    (hp : Takes p tok rest a) (hstatus : status a = false) :
    Takes (FileProg.orRewind status p) [] (tok ++ rest) a := by
  intro pre
  have htell : FileProg.ftell.run plainFile (Cursor.at pre (tok ++ rest)) =
      some ((pre.length : Int), Cursor.at pre (tok ++ rest)) := by
    simp [FileProg.ftell, plainFile, FileOp.Portable, FileOp.needsBuffer,
      FileOp.Allowed, FileOp.execPlain, Cursor.at]
  have hallowed : FileOp.Portable (.seek (pre.length : Int).toNat)
      (Cursor.at (pre ++ tok) rest) := by
    refine ⟨rfl, ?_⟩
    simp only [FileOp.Allowed, Cursor.at, List.length_append, Int.toNat_natCast]
    omega
  have hseek : (FileProg.fseek (pre.length : Int)).run plainFile (Cursor.at (pre ++ tok) rest) =
      some (peekHead (tok ++ rest), Cursor.at pre (tok ++ rest)) := by
    have hback : (Cursor.at (pre ++ tok) rest).seek pre.length =
        Cursor.at pre (tok ++ rest) := by
      simp [Cursor.at, Cursor.seek]
    rw [FileProg.fseek, Prog.run_perform, plainFile, if_pos hallowed]
    simp only [FileOp.execPlain, Cursor.seekPeek, Int.toNat_natCast, hback, Cursor.peek_at]
  rw [List.nil_append, FileProg.orRewind, Prog.run_bind_of htell, Prog.run_bind_of (hp pre),
    if_neg (by simp [hstatus]), Prog.run_bind_of hseek, Prog.run_pure, List.append_nil]

end Takes

end LibnklabsPico.File
