import ChatBackup.Proofs.Overrun
import ChatBackup.Proofs.SideBySide

/-!
# The state of an encrypted writer and its output

Closing an encrypted writer takes its stages apart and leaves the sink alone behind, or nothing that
could be used any more. The writer's state is kept apart from that. This file proves that the two
stay in step, whatever calls are made and whatever the sink does:

> `output_in_step`: the stages are open as long as records may come, the sink is finished exactly in
> the closed state, and an output is broken only in the failed one. So no record is ever put into an
> output whose stages are not open, nor is such an output completed; the sink is given back exactly
> if a close has succeeded, and is left alone after that.

`EncryptedOutput.InStep` are the states that go with an output. All that a call can do to a writer
in step is said once, by `EncryptedWriter.Turn`; what holds after any calls is read off it.

A case that never occurs is one that may be anything: the writer runs the same over outputs which do
something else there (`BackupWriter.AsksOnly`). That a sink is left alone is an equation between
writers, for every type of sink; one that keeps a log shows no new entry.
-/

namespace ChatBackup

/-! ## Cases that never occur -/

/-- Two ways to take records that do the same with outputs that are ready. -/
structure RecordOutput.Agree {δ : Type} (ready : δ → Prop) (A B : RecordOutput δ) : Prop where
  put : ∀ {o : δ} (b : Bytes), ready o → A.put o b = B.put o b
  complete : ∀ {o : δ} (counts : BackupCounts), ready o → A.complete o counts = B.complete o counts

namespace BackupWriter

variable {δ : Type} {ready : δ → Prop} {A B : RecordOutput δ}

/-- The output is asked to take a record, or to be complete, only while it is ready. Whatever came
of asking it at other times, all calls would be answered the same and leave the same behind. -/
def AsksOnly [inst : RecordOutput δ] (ready : δ → Prop) (w : BackupWriter δ) : Prop :=
  ∀ other : RecordOutput δ, RecordOutput.Agree ready inst other → ∀ calls,
    @run δ other w calls = @run δ inst w calls

theorem put_agree (h : RecordOutput.Agree ready A B) {w : BackupWriter δ} (hw : ready w.output)
    {α : Type} [Record α] (a : α) (next : WriteProgress)
    (enter : BackupCounts → Nat → BackupCounts) :
    @put δ α A _ w a next enter = @put δ α B _ w a next enter := by
  unfold put
  simp only [h.put (Record.wire a) hw]

theorem close_agree (h : RecordOutput.Agree ready A B) {w : BackupWriter δ} (hw : ready w.output)
    (hs : w.HasHeader) : @close δ A w = @close δ B w := by
  unfold close
  rw [hs.admitClose, h.complete w.counts hw]

/-- A call that is not refused finds the output ready. -/
theorem call_agree (h : RecordOutput.Agree ready A B) {w : BackupWriter δ} (hw : w.Sound ready)
    (c : WriterCall) : @call δ A w c = @call δ B w c := by
  -- which case it is depends on the state alone, so it is the same one for both
  cases @call_cases δ A w c with
  | refused hc hcall => rw [hcall, @call_of_refusal δ B w _ _ hc]
  | again hs hcall =>
    rw [hcall, @call_closed δ B w hs]
    rfl
  | header a hs hcall =>
    have hready : ready w.output := hw.ready (by rw [hs]; simp) (by rw [hs]; simp)
    rw [hcall, @call_header δ B w _ _ a hs]
    exact put_agree h hready a _ _
  | frame a hs hcall =>
    rw [hcall, @call_frame δ B w _ _ a hs]
    exact put_agree h (hw.ready_of_header hs) a _ _
  | close hs => exact close_agree h (hw.ready_of_header hs) hs

theorem run_agree (hr : @RecordOutput.Ready δ A ready) (h : RecordOutput.Agree ready A B)
    (calls : List WriterCall) :
    ∀ {w : BackupWriter δ}, w.Sound ready → @run δ A w calls = @run δ B w calls := by
  induction calls with
  | nil => intro w _; rfl
  | cons c calls ih =>
    intro w hw
    -- soundness is what carries readiness from one call to the next
    have hafter := (@call_move δ A ready hr w hw c).2
    rw [@run_cons δ A, @run_cons δ B, ← call_agree h hw c, ih hafter]

theorem Sound.asksOnly [RecordOutput δ] {w : BackupWriter δ} (hw : w.Sound ready)
    (hr : RecordOutput.Ready ready) : w.AsksOnly ready :=
  fun _ h calls => (run_agree hr h calls hw).symm

/-- What one kind of call brings about and no call undoes is so after any calls exactly if it was so
before or there was such a call. -/
theorem run_iff_exists [RecordOutput δ] {I P : BackupWriter δ → Prop}
    {R : WriterCall × Except BackupError Unit → Prop}
    (hkept : ∀ {w : BackupWriter δ} (c : WriterCall), I w → I (w.call c).2)
    (hcall : ∀ {w : BackupWriter δ} (c : WriterCall), I w →
      (P (w.call c).2 ↔ P w ∨ R (c, (w.call c).1)))
    (calls : List WriterCall) :
    ∀ {w : BackupWriter δ}, I w → (P (w.run calls).2 ↔ P w ∨ ∃ x ∈ (w.run calls).1, R x) := by
  induction calls with
  | nil => intro w _; simp
  | cons c calls ih =>
    intro w hw
    rw [run_cons]
    simp only [List.mem_cons, exists_eq_or_imp]
    rw [ih (hkept c hw), hcall c hw, or_assoc]

end BackupWriter

/-! ## Outputs and states -/

namespace EncryptedOutput

variable {C : Coder} {σ : Type}

/-- The states that a writer may be in with an output. -/
def InStep : EncryptedOutput C σ → WriteProgress → Prop
  -- also the failed state: a record that could not be written leaves the stages open
  | opened _ _, s => s ≠ .closed
  | finished _, s => s = .closed
  | broken _, s => s = .failed

variable {o : EncryptedOutput C σ} {s : WriteProgress}

theorem InStep.isOpen_or (h : o.InStep s) : s = .closed ∨ s = .failed ∨ o.IsOpen := by
  cases o with
  | opened stages draws => exact Or.inr (Or.inr trivial)
  | finished sink => exact Or.inl h
  | broken sink => exact Or.inr (Or.inl h)

theorem InStep.finished_iff (h : o.InStep s) : (∃ sink, o = finished sink) ↔ s = .closed := by
  cases o with
  | opened stages draws => exact iff_of_false (by simp) h
  | finished sink => exact iff_of_true ⟨sink, rfl⟩ h
  | broken sink =>
    obtain rfl : s = .failed := h
    simp

theorem InStep.of_failed (h : o.InStep .failed) : o.IsOpen ∨ ∃ sink, o = broken sink := by
  cases o with
  | opened stages draws => exact Or.inl trivial
  | finished sink => exact nomatch h
  | broken sink => exact Or.inr ⟨sink, rfl⟩

theorem IsOpen.inStep (h : o.IsOpen) (hs : s ≠ .closed) : o.InStep s := by
  cases o with
  | opened stages draws => exact hs
  | finished sink => exact absurd h id
  | broken sink => exact absurd h id

theorem IsOpen.ne_finished (h : o.IsOpen) (sink : σ) : o ≠ finished sink := by
  rintro rfl
  exact h

theorem IsOpen.ne_broken (h : o.IsOpen) (sink : σ) : o ≠ broken sink := by
  rintro rfl
  exact h

variable [AppendSink σ]

/-- Stages stay open whatever comes of a record. -/
theorem IsOpen.put (h : o.IsOpen) (b : Bytes) : (RecordOutput.put o b).2.IsOpen := by
  cases o with
  | opened stages draws => exact trivial
  | finished sink => exact absurd h id
  | broken sink => exact absurd h id

/-- Open stages are finished, or a failure of the channel breaks them. -/
theorem IsOpen.complete (h : o.IsOpen) (c : BackupCounts) :
    (∃ c' sink, RecordOutput.complete o c = (.ok (), c', finished sink)) ∨
    ∃ f c' sink, RecordOutput.complete o c = (.error (.io f), c', broken sink) := by
  cases o with
  | opened stages draws =>
    simp only [RecordOutput.complete]
    split
    next c' sink _ => exact Or.inl ⟨c', sink, rfl⟩
    next f c' sink _ => exact Or.inr ⟨f, c', sink, rfl⟩
  | finished sink => exact absurd h id
  | broken sink => exact absurd h id

end EncryptedOutput

/-! ## One call -/

namespace EncryptedWriter

open EncryptedOutput

variable {C : Compressor} {σ : Type} [AppendSink σ] {w : EncryptedWriter C σ}

/-- What a call does to a writer in step: nothing, or the open stages take a record and stay open,
or they are finished, or they break. -/
inductive Turn (w : EncryptedWriter C σ) : WriterCall → Prop where
  | refused {c : WriterCall} (e : OrderError) : w.call c = (.error (.order e), w) → Turn w c
  | again (sink : σ) : w.output = .finished sink → w.call .close = (.ok (), w) → Turn w .close
  | record {c : WriterCall} : c ≠ .close → w.output.IsOpen → (w.call c).2.output.IsOpen →
    (w.call c).2.state ≠ .closed → Turn w c
  | finishes (counts : BackupCounts) (sink : σ) : w.output.IsOpen →
    w.call .close = (.ok (), ⟨.finished sink, .closed, counts⟩) → Turn w .close
  | breaks (f : Failure) (counts : BackupCounts) (sink : σ) : w.output.IsOpen →
    w.call .close = (.error (.io f), ⟨.broken sink, .failed, counts⟩) → Turn w .close

/-- Putting a record leaves open stages open, and does not close the writer. -/
theorem put_isOpen (h : w.output.IsOpen) {α : Type} [Record α] (a : α) {next : WriteProgress}
    (hnext : next ≠ .closed) (enter : BackupCounts → Nat → BackupCounts) :
    (w.put a next enter).2.output.IsOpen ∧ (w.put a next enter).2.state ≠ .closed := by
  have hput := h.put (Record.wire a)
  have hfails := fun {e} => ready.put_error (b := Record.wire a) (e := e) h
  unfold BackupWriter.put
  simp only
  split
  next heq =>
    rw [heq] at hput
    exact ⟨hput, hnext⟩
  next heq =>
    rw [heq] at hput hfails
    obtain ⟨f, rfl⟩ := hfails rfl
    exact ⟨hput, by simp⟩

theorem call_turn (hw : w.output.InStep w.state) (c : WriterCall) : Turn w c := by
  have hsound : w.Sound IsOpen := hw.isOpen_or
  cases BackupWriter.call_cases w c with
  | refused _ hcall => exact .refused _ hcall
  | again hs hcall =>
    obtain ⟨sink, hout⟩ := hw.finished_iff.mpr hs
    exact .again sink hout hcall
  | header a hs hcall =>
    have hopen : w.output.IsOpen := hsound.ready (by rw [hs]; simp) (by rw [hs]; simp)
    obtain ⟨hout, hstate⟩ := put_isOpen hopen a (show WriteProgress.headerWritten ≠ .closed by simp)
      BackupCounts.countHeader
    exact .record (by simp) hopen (by rw [hcall]; exact hout) (by rw [hcall]; exact hstate)
  | frame a hs hcall =>
    have hopen : w.output.IsOpen := hsound.ready_of_header hs
    obtain ⟨hout, hstate⟩ := put_isOpen hopen a (show WriteProgress.frameWritten ≠ .closed by simp)
      BackupCounts.countFrame
    exact .record (by simp) hopen (by rw [hcall]; exact hout) (by rw [hcall]; exact hstate)
  | close hs =>
    have hopen : w.output.IsOpen := hsound.ready_of_header hs
    rcases hopen.complete w.counts with ⟨c', sink, hdone⟩ | ⟨f, c', sink, hdone⟩
    · refine .finishes c' sink hopen ?_
      simp only [BackupWriter.call, BackupWriter.close, hs.admitClose, hdone]
    · refine .breaks f c' sink hopen ?_
      simp only [BackupWriter.call, BackupWriter.close, hs.admitClose, hdone]

theorem call_inStep (c : WriterCall) (hw : w.output.InStep w.state) :
    (w.call c).2.output.InStep (w.call c).2.state := by
  cases call_turn hw c with
  | refused e hcall => rwa [hcall]
  | again sink _ hcall => rwa [hcall]
  | record _ _ hopen hstate => exact hopen.inStep hstate
  | finishes counts sink _ hcall => rw [hcall]; rfl
  | breaks f counts sink _ hcall => rw [hcall]; rfl

/-- A sink is finished by a close that succeeds, and by nothing else. -/
theorem call_finished_iff (c : WriterCall) (hw : w.output.InStep w.state) :
    (∃ sink, (w.call c).2.output = .finished sink) ↔
      (∃ sink, w.output = .finished sink) ∨ (c, (w.call c).1) = (.close, .ok ()) := by
  cases call_turn hw c with
  | refused e hcall => simp [hcall]
  | again sink hout hcall => simp [hcall, hout]
  | record hc hopen hopen' => simp [hc, hopen.ne_finished, hopen'.ne_finished]
  | finishes counts sink hopen hcall => simp [hcall]
  | breaks f counts sink hopen hcall => simp [hcall, hopen.ne_finished]

/-- An output is broken by a close that fails with the channel, and by nothing else. -/
theorem call_broken_iff (c : WriterCall) (hw : w.output.InStep w.state) :
    (∃ sink, (w.call c).2.output = .broken sink) ↔
      (∃ sink, w.output = .broken sink) ∨ ∃ f, (c, (w.call c).1) = (.close, .error (.io f)) := by
  cases call_turn hw c with
  | refused e hcall => simp [hcall]
  | again sink hout hcall => simp [hcall, hout]
  | record hc hopen hopen' => simp [hc, hopen.ne_broken, hopen'.ne_broken]
  | finishes counts sink hopen hcall => simp [hcall, hopen.ne_broken]
  | breaks f counts sink hopen hcall => simp [hcall]

/-! ## Giving the sink back -/

/-- A finished sink is left alone by all later calls. -/
theorem run_finished (hw : w.output.InStep w.state) {sink : σ} (h : w.output = .finished sink)
    (later : List WriterCall) : (w.run later).2 = w := by
  have hclosed := hw.finished_iff.mp ⟨sink, h⟩
  rw [BackupWriter.run_of_idle (BackupWriter.call_closed hclosed)]

/-- A close that succeeds leaves a finished sink, which is given back. -/
theorem intoSink_of_close (hw : w.output.InStep w.state) (h : w.close.1 = .ok ()) :
    ∃ sink, w.close.2.output = .finished sink ∧ w.intoSink = (.ok sink, w.close.2) := by
  obtain ⟨sink, hout⟩ := (call_finished_iff .close hw).mpr (Or.inr (Prod.ext rfl h))
  change w.close.2.output = .finished sink at hout
  refine ⟨sink, hout, ?_⟩
  unfold intoSink
  cases hclose : w.close with
  | mk r w' =>
    rw [hclose] at h hout
    obtain rfl : r = .ok () := h
    change w'.output = .finished sink at hout
    simp only [hout]

/-- A close that fails is all that comes of giving the sink back. -/
theorem intoSink_of_error {e : BackupError} (h : w.close.1 = .error e) :
    w.intoSink = (.error e, w.close.2) := by
  unfold intoSink
  cases hclose : w.close with
  | mk r w' =>
    rw [hclose] at h
    obtain rfl : r = .error e := h
    rfl

theorem intoSink_ok_iff (hw : w.output.InStep w.state) :
    (∃ sink, w.intoSink.1 = .ok sink) ↔ w.close.1 = .ok () := by
  cases h : w.close.1 with
  | ok u =>
    obtain ⟨sink, -, hsink⟩ := intoSink_of_close hw h
    simp [hsink]
  | error e => simp [intoSink_of_error h]

/-- A writer with a finished sink closes again and does nothing. -/
theorem close_finished (hw : w.output.InStep w.state) {sink : σ} (h : w.output = .finished sink) :
    w.close = (.ok (), w) :=
  BackupWriter.call_closed (hw.finished_iff.mp ⟨sink, h⟩) .close

theorem intoSink_finished (hw : w.output.InStep w.state) {sink : σ}
    (h : w.output = .finished sink) : w.intoSink = (.ok sink, w) := by
  have hclose := close_finished hw h
  obtain ⟨sink', hout, hsink⟩ := intoSink_of_close hw (by rw [hclose])
  rw [hclose] at hout hsink
  obtain rfl : sink = sink' := by
    injection h.symm.trans hout
  exact hsink

/-! ## Any calls -/

/-- A writer after calls that were answered as a history tells, with an output that is in step with
its state. -/
structure Standing (w : EncryptedWriter C σ)
    (history : List (WriterCall × Except BackupError Unit)) : Prop where
  /-- The stages are open as long as records may come. -/
  opened : w.state = .created ∨ w.HasHeader → w.output.IsOpen
  /-- The sink is finished exactly in the closed state. -/
  closed : (∃ sink, w.output = .finished sink) ↔ w.state = .closed
  /-- A failed writer's stages are open still, or broken. -/
  failed : w.state = .failed → w.output.IsOpen ∨ ∃ sink, w.output = .broken sink
  /-- No other writer's are broken. -/
  broken : ∀ {sink}, w.output = .broken sink → w.state = .failed
  /-- It takes a close that succeeds to finish the sink. -/
  finishes : (∃ sink, w.output = .finished sink) ↔ (WriterCall.close, .ok ()) ∈ history
  /-- It takes a close that fails with the channel to break the stages. -/
  breaks : (∃ sink, w.output = .broken sink) ↔ ∃ f, (WriterCall.close, .error (.io f)) ∈ history
  /-- When the stages are finished there is room for the padding of the last block, so that a close
  always comes to its end. -/
  room : w.HasHeader → ∃ stages draws, w.output = .opened stages draws ∧
    ∀ {sizes cbc}, stages.finish draws = (.ok sizes, cbc) → cbc.pending.length < blockLength
  /-- To give the sink back is to close. If that succeeds it leaves a finished sink, the one that is
  given back. -/
  returned : w.close.1 = .ok () →
    ∃ sink, w.close.2.output = .finished sink ∧ w.intoSink = (.ok sink, w.close.2)
  /-- If it fails its error is the answer. -/
  refused : ∀ {e}, w.close.1 = .error e → w.intoSink = (.error e, w.close.2)
  /-- So the sink is given back exactly if this close or an earlier one succeeds. -/
  returned_iff : (∃ sink, w.intoSink.1 = .ok sink) ↔
    (WriterCall.close, .ok ()) ∈ history ++ [(.close, w.close.1)]
  /-- A finished sink stays as it is, whatever is called, also when it is given back or the writer
  is given up. -/
  left : ∀ {sink}, w.output = .finished sink →
    (∀ later, (w.run later).2 = w) ∧ w.intoSink = (.ok sink, w) ∧ w.output.abandon = sink

/-- All of this is told by the invariant and by the closes of the history. -/
theorem standing_of_inStep {history : List (WriterCall × Except BackupError Unit)}
    (hw : w.output.InStep w.state)
    (hfinishes : (∃ sink, w.output = .finished sink) ↔ (WriterCall.close, .ok ()) ∈ history)
    (hbreaks : (∃ sink, w.output = .broken sink) ↔
      ∃ f, (WriterCall.close, .error (.io f)) ∈ history)
    (hroom : w.HasHeader → ∃ stages draws, w.output = .opened stages draws ∧
      ∀ {sizes cbc}, stages.finish draws = (.ok sizes, cbc) → cbc.pending.length < blockLength) :
    Standing w history where
  opened hs := by
    have hsound : w.Sound IsOpen := hw.isOpen_or
    rcases hs with hs | hs
    · exact hsound.ready (by rw [hs]; simp) (by rw [hs]; simp)
    · exact hsound.ready_of_header hs
  closed := hw.finished_iff
  failed hs := by
    rw [hs] at hw
    exact hw.of_failed
  broken hout := by
    rw [hout] at hw
    exact hw
  finishes := hfinishes
  breaks := hbreaks
  room := hroom
  returned := intoSink_of_close hw
  refused := intoSink_of_error
  returned_iff := by
    rw [intoSink_ok_iff hw, List.mem_append, ← hfinishes, List.mem_singleton, Prod.mk.injEq]
    constructor
    · intro hclose
      exact Or.inr ⟨rfl, hclose.symm⟩
    · rintro (⟨sink, hout⟩ | ⟨-, hclose⟩)
      -- after an earlier close this one does nothing and succeeds again
      · rw [close_finished hw hout]
      · exact hclose.symm
  left {sink} hout := by
    refine ⟨run_finished hw hout, intoSink_finished hw hout, ?_⟩
    rw [hout]
    rfl

theorem run_inStep (calls : List WriterCall) :
    ∀ {w : EncryptedWriter C σ}, w.output.InStep w.state →
      (w.run calls).2.output.InStep (w.run calls).2.state := by
  induction calls with
  | nil => intro w hw; exact hw
  | cons c calls ih => intro w hw; exact ih (call_inStep c hw)

theorem run_finished_iff (hw : w.output.InStep w.state) (calls : List WriterCall) :
    (∃ sink, (w.run calls).2.output = .finished sink) ↔
      (∃ sink, w.output = .finished sink) ∨ (WriterCall.close, .ok ()) ∈ (w.run calls).1 := by
  have h := BackupWriter.run_iff_exists
    (I := fun w : EncryptedWriter C σ => w.output.InStep w.state)
    (P := fun w => ∃ sink, w.output = .finished sink) (R := fun x => x = (.close, .ok ()))
    call_inStep call_finished_iff calls hw
  rw [exists_eq_right] at h
  exact h

theorem run_broken_iff (hw : w.output.InStep w.state) (calls : List WriterCall) :
    (∃ sink, (w.run calls).2.output = .broken sink) ↔
      (∃ sink, w.output = .broken sink) ∨
        ∃ f, (WriterCall.close, .error (.io f)) ∈ (w.run calls).1 := by
  have h := BackupWriter.run_iff_exists
    (I := fun w : EncryptedWriter C σ => w.output.InStep w.state)
    (P := fun w => ∃ sink, w.output = .broken sink)
    (R := fun x => ∃ f, x = (.close, .error (.io f))) call_inStep call_broken_iff calls hw
  rw [h]
  refine or_congr_right ⟨?_, ?_⟩
  · rintro ⟨_, hx, f, rfl⟩
    exact ⟨f, hx⟩
  · rintro ⟨f, hx⟩
    exact ⟨_, hx, f, rfl⟩

/-- A new writer has open stages, before its first record. -/
theorem start_isOpen {sink : σ} {key : BackupKey} {iv : Block} {draws : List UInt64}
    {settings : WriteSettings} (h : start C sink key iv draws settings = .ok w) :
    w.state = .created ∧ w.output.IsOpen := by
  obtain ⟨mac, -, rfl⟩ := start_cases h
  exact ⟨rfl, trivial⟩

end EncryptedWriter

/-! ## The main statement -/

/-- **The output of an encrypted writer is in step with its state**, whatever calls are made on it,
whatever compressor it has and whatever its sink does. Its stages are open as long as records may
come, its sink is finished exactly in the closed state, and its output is broken only in the failed
one, after a close that failed with the channel. So an output is asked only while its stages are
open, to take a record or to be complete, and closing never stops in between. To give the sink back
means to close: it is given back, finished, exactly if this close or an earlier one succeeds, and
otherwise the error of the close is. A finished sink is left as it is. -/
theorem output_in_step {C : Compressor} {σ : Type} [AppendSink σ] {sink : σ} {key : BackupKey}
    {iv : Block} {draws : List UInt64} {settings : WriteSettings} {w : EncryptedWriter C σ}
    (h : EncryptedWriter.start C sink key iv draws settings = .ok w) :
    w.AsksOnly EncryptedOutput.IsOpen ∧
      ∀ calls, EncryptedWriter.Standing (w.run calls).2 (w.run calls).1 := by
  obtain ⟨hstate, hopen⟩ := EncryptedWriter.start_isOpen h
  refine ⟨(EncryptedWriter.start_sound h).asksOnly EncryptedOutput.ready, ?_⟩
  intro calls
  have hnew : w.output.InStep w.state := hopen.inStep (by rw [hstate]; simp)
  have hw := EncryptedWriter.run_inStep calls hnew
  have hfinishes := EncryptedWriter.run_finished_iff hnew calls
  have hbreaks := EncryptedWriter.run_broken_iff hnew calls
  simp only [hopen.ne_finished, exists_false, false_or] at hfinishes
  simp only [hopen.ne_broken, exists_false, false_or] at hbreaks
  exact EncryptedWriter.standing_of_inStep hw hfinishes hbreaks (EncryptedWriter.pending_lt h calls)

/-- A sink that refuses the authentication code breaks the output when the writer is closed, and is
not given back. One that takes everything is finished, and a frame that comes too late leaves it
as it is. -/
theorem output_in_step_of_refused_code :
    let settings : WriteSettings := { compressionLevel := 0, padding := .disabled }
    let key : BackupKey := ⟨List.replicate 32 1, List.replicate 32 2, rfl, rfl⟩
    let refusing : ScriptedSink := { failAppend := some (.device .other "refused") }
    let records : List WriterCall := [.frame ({} : Frame), .header ({} : BackupInfo)]
    let calls : List WriterCall := records ++ [.close]
    (∃ w, EncryptedWriter.start Deflater.compressor refusing key .zero [] settings = .ok w ∧
      w.AsksOnly EncryptedOutput.IsOpen ∧
      (∃ sink, (w.run calls).2.output = .broken sink) ∧
      (EncryptedWriter.intoSink (w.run calls).2).1 = .error (.order .failed)) ∧
    ∃ w sink, EncryptedWriter.start Deflater.compressor ({} : ScriptedSink) key .zero [] settings =
        .ok w ∧
      (w.run calls).2.output = .finished sink ∧
      ((w.run calls).2.run [.frame ({} : Frame)]).2.output = .finished sink ∧
      (EncryptedWriter.intoSink (w.run calls).2).1 = .ok sink := by
  intro settings key refusing records calls
  constructor
  · -- the answer of the close is told by the states before and after it
    have hstates : (EncryptedWriter.start Deflater.compressor refusing key .zero []
        settings).toOption.map (fun w => ((w.run records).2.state, (w.run calls).2.state)) =
        some (.headerWritten, .failed) := by
      decide +kernel
    cases hw : EncryptedWriter.start Deflater.compressor refusing key .zero [] settings with
    | error e =>
      rw [hw] at hstates
      cases hstates
    | ok w =>
      rw [hw] at hstates
      injection hstates with hstates
      injection hstates with hheader hfailed
      obtain ⟨hasks, hstands⟩ := output_in_step hw
      have hopen := (hstands records).opened (Or.inr (Or.inl hheader))
      have hrun := BackupWriter.run_append w records [.close]
      have hbreaks : ∃ f, (WriterCall.close, .error (.io f)) ∈ (w.run calls).1 := by
        rcases BackupWriter.close_cases EncryptedOutput.ready hopen (Or.inl hheader) with
          ⟨-, hclosed⟩ | ⟨f, hclose, -⟩
        · rw [hrun] at hfailed
          cases hclosed.symm.trans hfailed
        · refine ⟨f, ?_⟩
          rw [hrun]
          exact List.mem_append_right _ (List.mem_singleton.mpr (Prod.ext rfl hclose.symm))
      have hrefused := BackupWriter.call_of_refusal (w := (w.run calls).2) (c := .close)
        (e := .failed) (by rw [hfailed]; rfl)
      exact ⟨w, rfl, hasks, (hstands calls).breaks.mpr hbreaks,
        by rw [(hstands calls).refused (congrArg Prod.fst hrefused)]⟩
  · have hstate : (EncryptedWriter.start Deflater.compressor ({} : ScriptedSink) key .zero []
        settings).toOption.map (fun w => (w.run calls).2.state) = some .closed := by
      decide +kernel
    cases hw : EncryptedWriter.start Deflater.compressor ({} : ScriptedSink) key .zero []
        settings with
    | error e =>
      rw [hw] at hstate
      cases hstate
    | ok w =>
      rw [hw] at hstate
      injection hstate with hstate
      have hstanding := (output_in_step hw).2 calls
      obtain ⟨sink, hout⟩ := hstanding.closed.mpr hstate
      obtain ⟨hlater, hsink, -⟩ := hstanding.left hout
      exact ⟨w, sink, rfl, hout, by rw [hlater, hout], by rw [hsink]⟩

end ChatBackup
