import ChatBackup.Proofs.OneShot
import ChatBackup.Proofs.Writing

/-!
# What a failed write leaves pending

A writing stage encrypts where the bytes stand and drops them only once they are sent. So what could
not be sent stays pending, whole blocks of it, and what comes later is put behind. This file counts
what is pending after any calls on any sink, failing or not.

> `finish_follows_backlog`: the last block can be made just if no push has failed or one has
> succeeded since. Otherwise a block at least is pending: if it is just one there is no room for its
> padding, and if there is more the last block is overrun.

A push is a call that brings bytes to the stage (`CbcWriter.pushed`). One call changes the backlog
by its answer alone (`CbcWriter.call_pending`), so a series of calls does (`CbcWriter.run_pending`).
In an encrypted backup the stages are finished only while no push has failed
(`EncryptedWriter.pending_lt`).
-/

namespace ChatBackup

/-- Whether a call was granted. -/
def SinkAnswer.isGranted : SinkAnswer → Bool
  | write (.done _) => true
  | writeAll (.ok ()) => true
  | flush (.ok ()) => true
  | _ => false

namespace CbcWriter

open Block Cbc Sink

/-! ## The backlog -/

/-- What a call pushes into the stage, if anything. Writing an empty string in full is done without
a write. -/
def pushed : SinkCall → Option Bytes
  | .write b => some b
  | .writeAll [] => none
  | .writeAll b => some b
  | .flush => none

/-- How many bytes are pending after a call, by its answer, if it was `n` before. -/
def backlog (n : Nat) (x : SinkCall × SinkAnswer) : Nat :=
  match pushed x.1 with
  | none => n
  | some b => if x.2.isGranted then (n + b.length) % blockLength else n + b.length

/-- Whether the last push has failed after a call, by its answer. -/
def stuck (before : Bool) (x : SinkCall × SinkAnswer) : Bool :=
  match pushed x.1 with
  | none => before
  | some _ => !x.2.isGranted

variable {σ : Type} [Sink σ]

/-! ## One call -/

/-- A push leaves less than a block if it succeeds, and else everything, which is a block at
least. -/
theorem push_pending (w : CbcWriter σ) (b : Bytes) :
    ((push w b).1 = .ok () ∧
      (push w b).2.pending.length = (w.pending.length + b.length) % blockLength) ∨
    ∃ e, (push w b).1 = .error e ∧ (push w b).2.pending.length = w.pending.length + b.length ∧
      blockLength ≤ w.pending.length + b.length := by
  obtain ⟨cs, rest, hcut, hrest⟩ := exists_blocks (w.pending ++ b)
  have hlen : w.pending.length + b.length = blockLength * cs.length + rest.length := by
    rw [← List.length_append, hcut, List.length_append, length_join]
  rw [push_eq w hcut hrest, hlen]
  split
  next inner hwrite =>
    refine Or.inl ⟨rfl, ?_⟩
    rw [Nat.mul_add_mod, Nat.mod_eq_of_lt hrest]
  next e inner hwrite =>
    refine Or.inr ⟨e, rfl, ?_, ?_⟩
    · show (join (encryptChain w.cipher w.previous cs) ++ rest).length = _
      rw [List.length_append, length_join, length_encryptChain]
    · -- without a whole block nothing is sent, and so nothing fails
      cases cs with
      | nil => cases hwrite
      | cons c cs =>
        rw [List.length_cons, Nat.mul_succ]
        omega

/-- To write a string in full is one push. -/
theorem writeAll_eq_push (w : CbcWriter σ) {b : Bytes} (hb : b ≠ []) : writeAll w b = push w b := by
  rw [writeAll_eq w b hb, show patience w = 0 from rfl, writePast, write_eq]
  cases hpush : push w b with
  | mk r w' =>
    cases r with
    | error e => rfl
    | ok u =>
      obtain ⟨x, b, rfl⟩ := List.exists_cons_of_ne_nil hb
      show writeAll w' ((x :: b).drop (x :: b).length) = (.ok (), w')
      rw [List.drop_length]
      rfl

/-- A call that pushes nothing leaves alone what is pending. -/
theorem call_of_pushed_none (w : CbcWriter σ) {c : SinkCall} (hc : pushed c = none) :
    (Sink.call w c).2.pending = w.pending := by
  cases c with
  | write b => cases hc
  | writeAll b =>
    cases b with
    | nil => rfl
    | cons x b => cases hc
  | flush => rfl

/-- A call that pushes does nothing else, and is granted if the push succeeds. -/
theorem call_of_pushed_some (w : CbcWriter σ) {c : SinkCall} {b : Bytes} (hc : pushed c = some b) :
    (Sink.call w c).2 = (push w b).2 ∧
      ((Sink.call w c).1.isGranted = true ↔ (push w b).1 = .ok ()) := by
  cases c with
  | write b' =>
    cases hc
    simp only [Sink.call, write_eq]
    cases hpush : push w b with
    | mk r w' => cases r <;> simp [SinkAnswer.isGranted]
  | writeAll b' =>
    cases b' with
    | nil => cases hc
    | cons x b' =>
      cases hc
      simp only [Sink.call, writeAll_eq_push w (List.cons_ne_nil x b')]
      cases hpush : push w (x :: b') with
      | mk r w' => cases r <;> simp [SinkAnswer.isGranted]
  | flush => cases hc

/-- What is pending after a call is told by its answer. -/
theorem call_pending (w : CbcWriter σ) (c : SinkCall) :
    (Sink.call w c).2.pending.length = backlog w.pending.length (c, (Sink.call w c).1) := by
  unfold backlog
  cases hc : pushed c with
  | none => rw [call_of_pushed_none w hc]
  | some b =>
    obtain ⟨hafter, hgranted⟩ := call_of_pushed_some w hc
    rw [hafter]
    rcases push_pending w b with ⟨hok, hlen⟩ | ⟨e, herror, hlen, -⟩
    · simp only [hgranted.mpr hok, if_true, hlen]
    · have hno : (Sink.call w c).1.isGranted = false := by
        rw [← Bool.not_eq_true, hgranted, herror]
        simp
      simp only [hno, Bool.false_eq_true, if_false, hlen]

/-- Just after a push that has failed a block at least is pending. -/
theorem call_stuck (w : CbcWriter σ) (c : SinkCall) {before : Bool}
    (h : before = true ↔ blockLength ≤ w.pending.length) :
    stuck before (c, (Sink.call w c).1) = true ↔
      blockLength ≤ (Sink.call w c).2.pending.length := by
  unfold stuck
  cases hc : pushed c with
  | none =>
    rw [call_of_pushed_none w hc]
    exact h
  | some b =>
    obtain ⟨hafter, hgranted⟩ := call_of_pushed_some w hc
    rw [hafter]
    simp only [Bool.not_eq_true', ← Bool.not_eq_true, hgranted]
    rcases push_pending w b with ⟨hok, hlen⟩ | ⟨e, herror, hlen, hle⟩
    · have hlt := Nat.mod_lt (w.pending.length + b.length) (show 0 < blockLength by decide)
      rw [hok, hlen]
      simp only [not_true_eq_false, false_iff]
      omega
    · rw [herror, hlen]
      simp only [reduceCtorEq, not_false_eq_true, true_iff]
      exact hle

/-! ## A series of calls -/

theorem run_pending (calls : List SinkCall) : ∀ w : CbcWriter σ,
    (Sink.run w calls).2.pending.length =
      (calls.zip (Sink.run w calls).1).foldl backlog w.pending.length := by
  induction calls with
  | nil => intro w; rfl
  | cons c calls ih =>
    intro w
    rw [run_cons, List.zip_cons_cons, List.foldl_cons, ← call_pending]
    exact ih (Sink.call w c).2

theorem run_stuck (calls : List SinkCall) : ∀ {w : CbcWriter σ} {before : Bool},
    (before = true ↔ blockLength ≤ w.pending.length) →
    ((calls.zip (Sink.run w calls).1).foldl stuck before = true ↔
      blockLength ≤ (Sink.run w calls).2.pending.length) := by
  induction calls with
  | nil => intro w before h; exact h
  | cons c calls ih =>
    intro w before h
    rw [run_cons, List.zip_cons_cons, List.foldl_cons]
    exact ih (call_stuck w c h)

/-! ## Finishing -/

/-- Writes a last string in full and flushes. -/
def sendLast (s : σ) (last : Bytes) : Except Failure Unit × σ :=
  match writeAll s last with
  | (.ok (), s) => Sink.flush s
  | (.error e, s) => (.error e, s)

/-- If less than a block is pending it is padded to one, which is sent. -/
theorem finish_sends {w : CbcWriter σ} (h : w.pending.length < blockLength) :
    ∃ last : Bytes, last.length = blockLength ∧ w.finish = sendLast w.inner last := by
  refine ⟨join (encryptChain w.cipher w.previous (ofBytes (pad w.pending))), ?_, finish_eq h⟩
  rw [length_join, length_encryptChain, length_ofBytes_block (length_pad h), Nat.mul_one]

/-- If a block or more is pending nothing is sent. -/
theorem finish_refuses {w : CbcWriter σ} (h : blockLength ≤ w.pending.length) :
    w.finish = (.error (if w.pending.length = blockLength then .cipherPadding
      else .cipherOverrun w.pending.length), w.inner) := by
  unfold finish
  by_cases heq : w.pending.length = blockLength
  · rw [if_neg (by omega), if_pos heq, if_pos heq]
  · rw [if_pos (by omega), if_neg heq]

end CbcWriter

/-- In an encrypted backup, after any calls on any sink, the stages that are finished to close it
never leave a whole block pending in the cipher stage. -/
theorem EncryptedWriter.pending_lt {C : Compressor} {σ : Type} [AppendSink σ] {sink : σ}
    {key : BackupKey} {iv : Block} {draws : List UInt64} {settings : WriteSettings}
    {w : EncryptedWriter C σ} (h : EncryptedWriter.start C sink key iv draws settings = .ok w)
    (calls : List WriterCall) (hs : (w.run calls).2.HasHeader) :
    ∃ stages left, (w.run calls).2.output = .opened stages left ∧
      ∀ {sizes cbc}, stages.finish left = (.ok sizes, cbc) → cbc.pending.length < blockLength := by
  let T : Sink.Ledger σ := fun _ _ => True
  have hT : AppendSink.RecordsAll T T := by
    constructor
    · exact ⟨fun _ _ => trivial, fun _ _ => trivial, fun _ _ => trivial⟩
    · exact fun _ _ => trivial
    · exact fun _ _ => trivial
  obtain ⟨hstate, -, hcarries⟩ := EncryptedWriter.start_ok (T := T) hT.toRecords trivial h
  have hwrote : BackupWriter.Wrote
      (EncryptedOutput.Carries T key iv (.ofNat settings.compressionLevel) settings.padding)
      (EncryptedOutput.Left T key iv) w [] := by
    rw [BackupWriter.Wrote, hstate]
    exact hcarries
  have hrun := BackupWriter.run_wrote (EncryptedOutput.outputs hT) calls hwrote
  obtain ⟨stages, left, hout, hover⟩ := (hrun.of_header hs).eq_opened
  refine ⟨stages, left, hout, ?_⟩
  intro sizes cbc hfinish
  obtain ⟨m, -, hcbc, -⟩ :=
    GzipWriter.finish_ok (EncryptedOutput.below_records hT.toRecords) hover hfinish
  exact hcbc.2.1

/-! ## The main statement -/

/-- **A failed write can overrun the last block**, and only an unsettled one. After any series of
calls on a stage over any sink, also one that goes on after failures, what is pending is counted by
the calls and their answers. It is less than a block just if no push has failed or one has succeeded
after the last that did; then finishing sends one block and flushes, and fails only with the sink.
Otherwise nothing is sent: the last block has no room for padding if it is full already, and is
overrun if more than one block is pending. -/
theorem finish_follows_backlog {σ : Type} [Sink σ] (sink : σ) (cipher : BlockCipher) (iv : Block)
    (calls : List SinkCall) :
    let r := Sink.run (CbcWriter.start sink cipher iv) calls
    let history := calls.zip r.1
    let n := history.foldl CbcWriter.backlog 0
    r.2.pending.length = n ∧
    (history.foldl CbcWriter.stuck false = true ↔ blockLength ≤ n) ∧
    (n < blockLength → ∃ last : Bytes, last.length = blockLength ∧
      r.2.finish = CbcWriter.sendLast r.2.inner last) ∧
    (blockLength ≤ n → r.2.finish =
      (.error (if n = blockLength then .cipherPadding else .cipherOverrun n), r.2.inner)) := by
  intro r history n
  have hpending : r.2.pending.length = n :=
    CbcWriter.run_pending calls (CbcWriter.start sink cipher iv)
  have hstuck : history.foldl CbcWriter.stuck false = true ↔ blockLength ≤ r.2.pending.length :=
    CbcWriter.run_stuck calls (iff_of_false Bool.false_ne_true (Nat.not_succ_le_zero 15))
  rw [hpending] at hstuck
  refine ⟨hpending, hstuck, ?_, ?_⟩
  · intro hn
    exact CbcWriter.finish_sends (hpending ▸ hn)
  · intro hn
    rw [← hpending]
    exact CbcWriter.finish_refuses (hpending.symm ▸ hn)

/-- Two blocks that a sink refuses stay pending, and the last block is overrun. -/
theorem refused_write_overruns :
    let key : BackupKey := ⟨List.replicate 32 7, List.replicate 32 9, rfl, rfl⟩
    let refusal : Failure := .device .other "scripted write failure"
    let sink : ScriptedSink := { failAt := some (0, refusal) }
    let r := Sink.run (CbcWriter.start sink key.cipher .zero) [.write (List.replicate 32 0)]
    r.1.map SinkAnswer.isGranted = [false] ∧ ¬ r.2.pending.length ≤ blockLength ∧
      r.2.finish.1 = .error (.cipherOverrun 32) := by
  intro key refusal sink r
  have hanswers : r.1.map SinkAnswer.isGranted = [false] := by decide +kernel
  have hpending : r.2.pending.length = 32 := by decide +kernel
  have hfinish := CbcWriter.finish_refuses (w := r.2) (by rw [hpending]; decide)
  rw [hpending] at hfinish
  refine ⟨hanswers, by rw [hpending]; decide, ?_⟩
  rw [hfinish]
  rfl

/-- A sink that refuses everything leaves a full block or more behind, and one that takes everything
leaves what does not fill a block. -/
theorem finish_follows_backlog_of_two :
    let key : BackupKey := ⟨List.replicate 32 7, List.replicate 32 9, rfl, rfl⟩
    let refusal : Failure := .device .other "scripted write failure"
    let sink : ScriptedSink := { failAt := some (0, refusal) }
    let calls : List SinkCall := [.write [1, 2], .writeAll (List.replicate 14 3), .flush]
    let more : List SinkCall := calls ++ [.writeAll [4]]
    (Sink.run (CbcWriter.start sink key.cipher .zero) calls).2.finish.1 = .error .cipherPadding ∧
      (Sink.run (CbcWriter.start sink key.cipher .zero) more).2.finish.1 =
        .error (.cipherOverrun 17) ∧
      let r := Sink.run (CbcWriter.start ({} : ScriptedSink) key.cipher .zero) more
      r.2.pending.length = 1 ∧
        ∃ last : Bytes, last.length = 16 ∧ r.2.finish = CbcWriter.sendLast r.2.inner last := by
  intro key refusal sink calls more
  have hsixteen : (calls.zip (Sink.run (CbcWriter.start sink key.cipher .zero) calls).1).foldl
      CbcWriter.backlog 0 = 16 := by decide +kernel
  have hseventeen : (more.zip (Sink.run (CbcWriter.start sink key.cipher .zero) more).1).foldl
      CbcWriter.backlog 0 = 17 := by decide +kernel
  have hone : (more.zip (Sink.run (CbcWriter.start ({} : ScriptedSink) key.cipher .zero)
      more).1).foldl CbcWriter.backlog 0 = 1 := by decide +kernel
  obtain ⟨-, -, -, hfull⟩ := finish_follows_backlog sink key.cipher .zero calls
  obtain ⟨-, -, -, hover⟩ := finish_follows_backlog sink key.cipher .zero more
  obtain ⟨hpending, -, hsends, -⟩ :=
    finish_follows_backlog ({} : ScriptedSink) key.cipher .zero more
  rw [hsixteen] at hfull
  rw [hseventeen] at hover
  rw [hone] at hpending hsends
  refine ⟨?_, ?_, hpending, hsends (by decide)⟩
  · rw [hfull (by decide)]
    rfl
  · rw [hover (by decide)]
    rfl

end ChatBackup
