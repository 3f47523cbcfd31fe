import ChatBackup.Backup.EncryptedWriter
import ChatBackup.Backup.Plain
import ChatBackup.Channel.Scripted
import ChatBackup.Gzip.Deflater

/-!
# The life of a writer

`WriteProgress.Move` is the documented life cycle as a relation: created, header written, frames
written, closed, or failed. This file proves that a writer follows it through any sequence of
calls, whatever its sink does:

> `writer_lifecycle`: out-of-order calls are refused with the error of the state and change nothing;
> one header at most is ever written and nothing before it; a closed writer stays closed and a
> failed one failed, and neither moves its sink again.

The argument does not look into the outputs. `RecordOutput.Ready` says what it needs of them: while
records are put successfully an output stays ready for more, and all that can go wrong is a failure
of the channel. A plain output is always ready, an encrypted one while its stages are open. That
"nothing is touched" is an equation between writers, sinks included, and holds for every type of
sink; one that keeps a log of its operations shows no new entry.
-/

namespace ChatBackup

/-- A call on a writer, with the record it is to write. -/
inductive WriterCall : Type 1 where
  | header {α : Type} [Record α] (a : α)
  | frame {α : Type} [Record α] (a : α)
  | close

namespace WriterCall

/-- Why a call is out of order in a state, if it is. -/
def refusal : WriterCall → WriteProgress → Option OrderError
  | header _, .created => none
  | header _, .headerWritten | header _, .frameWritten => some .headerAlreadyWritten
  | header _, .closed => some .closed
  | frame _, .created => some .headerNotWritten
  | frame _, .headerWritten | frame _, .frameWritten => none
  | frame _, .closed => some .closed
  | close, .created => some .headerNotWritten
  | close, .headerWritten | close, .frameWritten | close, .closed => none
  | _, .failed => some .failed

/-- What a closed writer answers. -/
def answerClosed : WriterCall → Except BackupError Unit
  | close => .ok ()
  | _ => .error (.order .closed)

/-- Whether a call and its result mean that a header was written. -/
def writesHeader : WriterCall × Except BackupError Unit → Bool
  | (header _, .ok ()) => true
  | _ => false

end WriterCall

/-! ## The documented life cycle -/

namespace WriteProgress

/-- One move of the life cycle: the state before, the call, its result and the state after. -/
inductive Move : WriteProgress → WriterCall → Except BackupError Unit → WriteProgress → Prop where
  | header {α : Type} [Record α] (a : α) : Move .created (.header a) (.ok ()) .headerWritten
  | firstFrame {α : Type} [Record α] (a : α) :
    Move .headerWritten (.frame a) (.ok ()) .frameWritten
  | nextFrame {α : Type} [Record α] (a : α) :
    Move .frameWritten (.frame a) (.ok ()) .frameWritten
  | closeHeader : Move .headerWritten .close (.ok ()) .closed
  | closeFrames : Move .frameWritten .close (.ok ()) .closed
  | closeAgain : Move .closed .close (.ok ()) .closed
  | refused {s : WriteProgress} {c : WriterCall} {e : OrderError} :
    c.refusal s = some e → Move s c (.error (.order e)) s
  | failing {s : WriteProgress} {c : WriterCall} (f : Failure) :
    c.refusal s = none → s ≠ .closed → Move s c (.error (.io f)) .failed

/-- A sequence of moves, told by the calls and their results. -/
inductive Path : WriteProgress → List (WriterCall × Except BackupError Unit) → WriteProgress →
    Prop where
  | nil (s : WriteProgress) : Path s [] s
  | cons {s t u : WriteProgress} {c : WriterCall} {r : Except BackupError Unit}
    {history : List (WriterCall × Except BackupError Unit)} :
    Move s c r t → Path t history u → Path s ((c, r) :: history) u

/-- No move leads back to a writer without a header, and only from there is a header written. -/
theorem Move.not_writesHeader {s t : WriteProgress} {c : WriterCall}
    {r : Except BackupError Unit} (h : Move s c r t) (hs : s ≠ .created) :
    t ≠ .created ∧ WriterCall.writesHeader (c, r) = false := by
  cases h with
  | header => exact absurd rfl hs
  | refused => exact ⟨hs, by cases c <;> rfl⟩
  | failing => exact ⟨by simp, by cases c <;> rfl⟩
  | _ => exact ⟨by simp, rfl⟩

/-- An admitted call goes wrong only with the channel, and the writer has failed then. -/
theorem Move.failed_of_error {s t : WriteProgress} {c : WriterCall} {r : Except BackupError Unit}
    (h : Move s c r t) {e : BackupError} (hr : r = .error e) (hfree : c.refusal s = none) :
    (∃ f, e = .io f) ∧ t = .failed := by
  cases h with
  | refused h => rw [hfree] at h; cases h
  | failing f => cases hr; exact ⟨⟨f, rfl⟩, rfl⟩
  | _ => cases hr

/-- Once a state has a header no other is written. -/
theorem Path.countP_writesHeader {s t : WriteProgress}
    {history : List (WriterCall × Except BackupError Unit)} (h : Path s history t)
    (hs : s ≠ .created) : history.countP WriterCall.writesHeader = 0 := by
  induction h with
  | nil => rfl
  | cons hmove _ ih =>
    obtain ⟨ht, hno⟩ := hmove.not_writesHeader hs
    rw [List.countP_cons, hno, ih ht]
    rfl

/-- From a new writer at most one header is written. -/
theorem Path.countP_writesHeader_le {t : WriteProgress}
    {history : List (WriterCall × Except BackupError Unit)} :
    ∀ {s : WriteProgress}, Path s history t → history.countP WriterCall.writesHeader ≤ 1 := by
  intro s h
  induction h with
  | nil => exact Nat.zero_le _
  | @cons s t u c r history hmove hpath ih =>
    rw [List.countP_cons]
    by_cases ht : t = .created
    · -- only a refused call comes back to the beginning
      subst ht
      have hno : WriterCall.writesHeader (c, r) = false := by
        cases hmove with
        | refused => cases c <;> rfl
      rw [hno]
      exact ih
    · rw [hpath.countP_writesHeader ht]
      split <;> omega

/-- A failed writer answers nothing with success. -/
theorem Path.failed_result {t : WriteProgress}
    {history : List (WriterCall × Except BackupError Unit)}
    {x : WriterCall × Except BackupError Unit} :
    ∀ {s : WriteProgress}, Path s history t → s = .failed → x ∈ history → x.2 ≠ .ok () := by
  intro s h
  induction h with
  | nil => intro _ hx; exact absurd hx (by simp)
  | cons hmove _ ih =>
    intro hs hx
    subst hs
    cases hmove with
    | refused =>
      rcases List.mem_cons.mp hx with rfl | hx
      · simp
      · exact ih rfl hx
    | failing f hfree =>
      exact absurd hfree (by simp [WriterCall.refusal])

/-- A success of any other call than one that writes a header comes after such a call. -/
theorem Path.header_before {t : WriteProgress} {x : WriterCall × Except BackupError Unit}
    {after : List (WriterCall × Except BackupError Unit)} :
    ∀ (before : List (WriterCall × Except BackupError Unit)),
      Path .created (before ++ x :: after) t → x.2 = .ok () →
      WriterCall.writesHeader x = false → ∃ y ∈ before, WriterCall.writesHeader y = true := by
  intro before
  induction before with
  | nil =>
    intro h hok hno
    cases h with
    | cons hmove _ =>
      cases hmove with
      | header => exact absurd hno (by simp [WriterCall.writesHeader])
      | refused => exact absurd hok (by simp)
      | failing => exact absurd hok (by simp)
  | cons y before ih =>
    intro h hok hno
    cases h with
    | cons hmove hrest =>
      cases hmove with
      | header a => exact ⟨_, List.mem_cons_self, rfl⟩
      | refused =>
        obtain ⟨z, hz, hw⟩ := ih hrest hok hno
        exact ⟨z, List.mem_cons_of_mem _ hz, hw⟩
      | failing => exact absurd hok (hrest.failed_result rfl (by simp))

/-- The end is final. -/
theorem Path.eq_closed {s t : WriteProgress}
    {history : List (WriterCall × Except BackupError Unit)} (h : Path s history t)
    (hs : s = .closed) : t = .closed := by
  induction h with
  | nil => exact hs
  | cons hmove _ ih =>
    subst hs
    cases hmove with
    | closeAgain => exact ih rfl
    | refused => exact ih rfl
    | failing f _ hne => exact absurd rfl hne

/-- A writer that was closed with success is closed. -/
theorem Path.closed_of_close {s t : WriteProgress}
    {history : List (WriterCall × Except BackupError Unit)} (h : Path s history t)
    (hclose : (WriterCall.close, .ok ()) ∈ history) : t = .closed := by
  induction h with
  | nil => exact absurd hclose List.not_mem_nil
  | cons hmove hpath ih =>
    rcases List.mem_cons.mp hclose with heq | hclose
    · cases heq
      cases hmove with
      | closeHeader | closeFrames | closeAgain => exact hpath.eq_closed rfl
    · exact ih hclose

/-- A writer that has failed has met a failure of the channel. -/
theorem Path.io_of_failed {s t : WriteProgress}
    {history : List (WriterCall × Except BackupError Unit)} (h : Path s history t)
    (hs : s ≠ .failed) (ht : t = .failed) : ∃ c f, (c, .error (.io f)) ∈ history := by
  induction h with
  | nil => exact absurd ht hs
  | @cons s u t c r history hmove _ ih =>
    by_cases hu : u = .failed
    · subst hu
      cases hmove with
      | refused => exact absurd rfl hs
      | failing f => exact ⟨c, f, List.mem_cons_self⟩
    · obtain ⟨c', f, hmem⟩ := ih hu ht
      exact ⟨c', f, List.mem_cons_of_mem _ hmem⟩

end WriteProgress

/-! ## Calls on a writer -/

namespace BackupWriter

variable {δ : Type} [RecordOutput δ]

/-- Makes a call. -/
def call (w : BackupWriter δ) : WriterCall → Except BackupError Unit × BackupWriter δ
  | @WriterCall.header _ _ a => w.writeHeader a
  | @WriterCall.frame _ _ a => w.writeFrame a
  | .close => w.close

/-- Makes calls one after another and notes each with its result. -/
def run : BackupWriter δ → List WriterCall →
    List (WriterCall × Except BackupError Unit) × BackupWriter δ
  | w, [] => ([], w)
  | w, c :: calls =>
    match w.call c with
    | (r, w) =>
      match run w calls with
      | (history, w) => ((c, r) :: history, w)

@[simp] theorem run_nil (w : BackupWriter δ) : w.run [] = ([], w) := rfl

theorem run_cons (w : BackupWriter δ) (c : WriterCall) (calls : List WriterCall) :
    w.run (c :: calls) = ((c, (w.call c).1) :: ((w.call c).2.run calls).1,
      ((w.call c).2.run calls).2) := rfl

theorem run_append (w : BackupWriter δ) (calls more : List WriterCall) :
    w.run (calls ++ more) = ((w.run calls).1 ++ ((w.run calls).2.run more).1,
      ((w.run calls).2.run more).2) := by
  induction calls generalizing w with
  | nil => rfl
  | cons c calls ih => rw [List.cons_append, run_cons, run_cons, ih, List.cons_append]

/-- A call that is out of order is refused and changes nothing at all. -/
theorem call_of_refusal {w : BackupWriter δ} {c : WriterCall} {e : OrderError}
    (h : c.refusal w.state = some e) : w.call c = (.error (.order e), w) := by
  cases c with
  | header a =>
    unfold call writeHeader
    cases hs : w.state <;> rw [hs] at h <;> cases h <;> rfl
  | frame a =>
    unfold call writeFrame
    cases hs : w.state <;> rw [hs] at h <;> cases h <;> rfl
  | close =>
    unfold call close
    cases hs : w.state <;> rw [hs] at h <;> cases h <;> rfl

/-- A closed writer answers every call without doing anything. -/
theorem call_closed {w : BackupWriter δ} (h : w.state = .closed) (c : WriterCall) :
    w.call c = (c.answerClosed, w) := by
  cases c with
  | header a => exact call_of_refusal (by rw [h]; rfl)
  | frame a => exact call_of_refusal (by rw [h]; rfl)
  | close =>
    unfold call close
    rw [h]
    rfl

/-- Whether frames and the end may follow. -/
def HasHeader (w : BackupWriter δ) : Prop := w.state = .headerWritten ∨ w.state = .frameWritten

omit [RecordOutput δ] in
theorem HasHeader.admitClose {w : BackupWriter δ} (h : w.HasHeader) :
    w.state.admitClose = .ok true := by
  rcases h with h | h <;> rw [h] <;> rfl

theorem call_header {w : BackupWriter δ} {α : Type} [Record α] (a : α) (h : w.state = .created) :
    w.call (.header a) = w.put a .headerWritten BackupCounts.countHeader := by
  unfold call writeHeader
  rw [h]
  rfl

theorem call_frame {w : BackupWriter δ} {α : Type} [Record α] (a : α) (h : w.HasHeader) :
    w.call (.frame a) = w.put a .frameWritten BackupCounts.countFrame := by
  unfold call writeFrame
  rcases h with h | h <;> rw [h] <;> rfl

/-- What becomes of a call: it changes nothing, or it puts a record, or it completes the backup. -/
inductive CallCase (w : BackupWriter δ) : WriterCall → Prop where
  | refused {c : WriterCall} {e : OrderError} : c.refusal w.state = some e →
    w.call c = (.error (.order e), w) → CallCase w c
  | again : w.state = .closed → w.call .close = (.ok (), w) → CallCase w .close
  | header {α : Type} [Record α] (a : α) : w.state = .created →
    w.call (.header a) = w.put a .headerWritten BackupCounts.countHeader → CallCase w (.header a)
  | frame {α : Type} [Record α] (a : α) : w.HasHeader →
    w.call (.frame a) = w.put a .frameWritten BackupCounts.countFrame → CallCase w (.frame a)
  | close : w.HasHeader → CallCase w .close

theorem call_cases (w : BackupWriter δ) (c : WriterCall) : CallCase w c := by
  cases hc : c.refusal w.state with
  | some e => exact .refused hc (call_of_refusal hc)
  | none =>
    cases c with
    | header a =>
      have hs : w.state = .created := by
        cases hs : w.state <;> rw [hs] at hc <;> first | rfl | cases hc
      exact .header a hs (call_header a hs)
    | frame a =>
      have hs : w.HasHeader := by
        cases hs : w.state <;> rw [hs] at hc <;>
          first | exact Or.inl hs | exact Or.inr hs | cases hc
      exact .frame a hs (call_frame a hs)
    | close =>
      cases hs : w.state with
      | closed => exact .again hs (call_closed hs .close)
      | headerWritten => exact .close (Or.inl hs)
      | frameWritten => exact .close (Or.inr hs)
      | created => rw [hs] at hc; cases hc
      | failed => rw [hs] at hc; cases hc

/-- A writer that answers every call without doing anything goes on like that. -/
theorem run_of_idle {w : BackupWriter δ} {answer : WriterCall → Except BackupError Unit}
    (h : ∀ c, w.call c = (answer c, w)) (calls : List WriterCall) :
    w.run calls = (calls.map fun c => (c, answer c), w) := by
  induction calls with
  | nil => rfl
  | cons c calls ih => rw [run_cons, h c, ih, List.map_cons]

end BackupWriter

/-! ## What is needed of outputs -/

/-- Outputs that stay ready while all goes well, and that only ever fail with the channel. -/
structure RecordOutput.Ready {δ : Type} [RecordOutput δ] (ready : δ → Prop) : Prop where
  put_ok : ∀ {o : δ} {b : Bytes}, ready o → (RecordOutput.put o b).1 = .ok () →
    ready (RecordOutput.put o b).2
  put_error : ∀ {o : δ} {b : Bytes} {e : BackupError}, ready o →
    (RecordOutput.put o b).1 = .error e → ∃ f, e = .io f
  complete_error : ∀ {o : δ} {counts : BackupCounts} {e : BackupError}, ready o →
    (RecordOutput.complete o counts).1 = .error e → ∃ f, e = .io f

theorem PlainOutput.ready {σ : Type} [Sink σ] :
    RecordOutput.Ready fun _ : PlainOutput σ => True where
  put_ok _ _ := trivial
  put_error {o b e} _ h := by
    simp only [RecordOutput.put] at h
    cases hr : (Sink.writeAll o.sink b).1 with
    | ok => rw [hr] at h; cases h
    | error f => rw [hr] at h; cases h; exact ⟨f, rfl⟩
  complete_error {o counts e} _ h := by
    simp only [RecordOutput.complete] at h
    cases hr : (Sink.flush o.sink).1 with
    | ok => rw [hr] at h; cases h
    | error f => rw [hr] at h; cases h; exact ⟨f, rfl⟩

namespace EncryptedOutput

variable {C : Coder} {σ : Type} [AppendSink σ]

/-- Whether the stages are open. -/
def IsOpen : EncryptedOutput C σ → Prop
  | opened _ _ => True
  | _ => False

theorem ready : RecordOutput.Ready (IsOpen (C := C) (σ := σ)) where
  put_ok {o b} ho _ := by
    cases o with
    | opened stages draws => exact trivial
    | _ => exact absurd ho id
  put_error {o b e} ho h := by
    cases o with
    | opened stages draws =>
      simp only [RecordOutput.put] at h
      cases hr : (Sink.writeAll stages b).1 with
      | ok => rw [hr] at h; cases h
      | error f => rw [hr] at h; cases h; exact ⟨f, rfl⟩
    | _ => exact absurd ho id
  complete_error {o counts e} ho h := by
    cases o with
    | opened stages draws =>
      simp only [RecordOutput.complete] at h
      split at h
      next => cases h
      next f _ _ _ => cases h; exact ⟨f, rfl⟩
    | _ => exact absurd ho id

end EncryptedOutput

/-! ## A writer and its states -/

namespace BackupWriter

variable {δ : Type} [RecordOutput δ]

/-- A writer whose output is ready for records as long as its state admits them. -/
def Sound (ready : δ → Prop) (w : BackupWriter δ) : Prop :=
  w.state = .closed ∨ w.state = .failed ∨ ready w.output

/-- What putting a record does to a writer: a move forward, or a failure of the channel. -/
theorem put_cases {α : Type} [Record α] {ready : δ → Prop} (hr : RecordOutput.Ready ready)
    {w : BackupWriter δ} (hw : ready w.output) (a : α) (next : WriteProgress)
    (enter : BackupCounts → Nat → BackupCounts) :
    ((w.put a next enter).1 = .ok () ∧ (w.put a next enter).2.state = next ∧
      ready (w.put a next enter).2.output) ∨
    ∃ f, (w.put a next enter).1 = .error (.io f) ∧ (w.put a next enter).2.state = .failed := by
  unfold put
  simp only
  split
  next o hput =>
    refine Or.inl ⟨rfl, rfl, ?_⟩
    have hok := hr.put_ok (b := Record.wire a) hw (by rw [hput])
    rw [hput] at hok
    exact hok
  next e o hput =>
    obtain ⟨f, rfl⟩ := hr.put_error (b := Record.wire a) hw (by rw [hput])
    exact Or.inr ⟨f, rfl, rfl⟩

/-- What completing a backup does to a writer that has a header. -/
theorem close_cases {ready : δ → Prop} (hr : RecordOutput.Ready ready) {w : BackupWriter δ}
    (hw : ready w.output) (hs : w.HasHeader) :
    (w.close.1 = .ok () ∧ w.close.2.state = .closed) ∨
    ∃ f, w.close.1 = .error (.io f) ∧ w.close.2.state = .failed := by
  unfold close
  rw [hs.admitClose]
  simp only
  split
  next => exact Or.inl ⟨rfl, rfl⟩
  next e counts o hdone =>
    have herr : (RecordOutput.complete w.output w.counts).1 = .error e := by rw [hdone]
    obtain ⟨f, rfl⟩ := hr.complete_error hw herr
    exact Or.inr ⟨f, rfl, rfl⟩

omit [RecordOutput δ] in
theorem Sound.ready {ready : δ → Prop} {w : BackupWriter δ} (hw : w.Sound ready)
    (hclosed : w.state ≠ .closed) (hfailed : w.state ≠ .failed) : ready w.output := by
  rcases hw with h | h | h
  · exact absurd h hclosed
  · exact absurd h hfailed
  · exact h

omit [RecordOutput δ] in
theorem Sound.ready_of_header {ready : δ → Prop} {w : BackupWriter δ} (hw : w.Sound ready)
    (hs : w.HasHeader) : ready w.output := by
  apply hw.ready
  · rcases hs with h | h <;> rw [h] <;> simp
  · rcases hs with h | h <;> rw [h] <;> simp

/-- Every call is a move of the life cycle and leaves the writer sound. -/
theorem call_move {ready : δ → Prop} (hr : RecordOutput.Ready ready) {w : BackupWriter δ}
    (hw : w.Sound ready) (c : WriterCall) :
    WriteProgress.Move w.state c (w.call c).1 (w.call c).2.state ∧ (w.call c).2.Sound ready := by
  cases call_cases w c with
  | refused hc hcall =>
    rw [hcall]
    exact ⟨.refused hc, hw⟩
  | again hs hcall =>
    rw [hcall]
    refine ⟨?_, hw⟩
    show WriteProgress.Move w.state .close (.ok ()) w.state
    rw [hs]
    exact .closeAgain
  | header a hs hcall =>
    have hready : ready w.output := hw.ready (by rw [hs]; simp) (by rw [hs]; simp)
    rw [hcall, hs]
    rcases put_cases hr hready a .headerWritten BackupCounts.countHeader with
      ⟨hres, hst, hout⟩ | ⟨f, hres, hst⟩
    · rw [hres, hst]
      exact ⟨.header a, Or.inr (Or.inr hout)⟩
    · rw [hres, hst]
      exact ⟨.failing f rfl (by simp), Or.inr (Or.inl hst)⟩
  | frame a hs hcall =>
    rw [hcall]
    rcases put_cases hr (hw.ready_of_header hs) a .frameWritten BackupCounts.countFrame with
      ⟨hres, hst, hout⟩ | ⟨f, hres, hst⟩
    · rw [hres, hst]
      refine ⟨?_, Or.inr (Or.inr hout)⟩
      rcases hs with hs | hs
      · rw [hs]
        exact .firstFrame a
      · rw [hs]
        exact .nextFrame a
    · rw [hres, hst]
      refine ⟨?_, Or.inr (Or.inl hst)⟩
      rcases hs with hs | hs <;> rw [hs] <;> exact .failing f rfl (by simp)
  | close hs =>
    have hcall : w.call .close = w.close := rfl
    rw [hcall]
    rcases close_cases hr (hw.ready_of_header hs) hs with ⟨hres, hst⟩ | ⟨f, hres, hst⟩
    · rw [hres, hst]
      refine ⟨?_, Or.inl hst⟩
      rcases hs with hs | hs
      · rw [hs]
        exact .closeHeader
      · rw [hs]
        exact .closeFrames
    · rw [hres, hst]
      refine ⟨?_, Or.inr (Or.inl hst)⟩
      rcases hs with hs | hs <;> rw [hs] <;> exact .failing f rfl (by simp)

/-- Any sequence of calls is a path of the life cycle and leaves the writer sound. -/
theorem run_path {ready : δ → Prop} (hr : RecordOutput.Ready ready) (calls : List WriterCall) :
    ∀ {w : BackupWriter δ}, w.Sound ready →
      WriteProgress.Path w.state (w.run calls).1 (w.run calls).2.state ∧
        (w.run calls).2.Sound ready := by
  induction calls with
  | nil => intro w hw; exact ⟨.nil _, hw⟩
  | cons c calls ih =>
    intro w hw
    obtain ⟨hmove, hsound⟩ := call_move hr hw c
    obtain ⟨hpath, hend⟩ := ih hsound
    rw [run_cons]
    exact ⟨.cons hmove hpath, hend⟩

/-! ## The main statement -/

/-- What it means for a new writer to follow the life cycle, whatever calls are made. -/
structure FollowsLifecycle (w₀ : BackupWriter δ) : Prop where
  /-- The states are those that the documented life cycle goes through. -/
  path : ∀ calls, WriteProgress.Path .created (w₀.run calls).1 (w₀.run calls).2.state
  /-- A call out of order answers with the error of the state and changes nothing. -/
  refused : ∀ calls c e, WriterCall.refusal c (w₀.run calls).2.state = some e →
    (w₀.run calls).2.call c = (.error (.order e), (w₀.run calls).2)
  /-- At most one header is written. -/
  one_header : ∀ calls, (w₀.run calls).1.countP WriterCall.writesHeader ≤ 1
  /-- Nothing else succeeds before it. -/
  header_first : ∀ calls before x after, (w₀.run calls).1 = before ++ x :: after →
    x.2 = .ok () → WriterCall.writesHeader x = false →
    ∃ y ∈ before, WriterCall.writesHeader y = true
  /-- A closed writer refuses records, closes again with success and does nothing in either
  case. -/
  closed : ∀ calls, (w₀.run calls).2.state = .closed → ∀ later,
    (w₀.run calls).2.run later = (later.map fun c => (c, c.answerClosed), (w₀.run calls).2)
  /-- An admitted call that does not succeed has met a failure of the channel. From then on every
  call is refused and nothing is done. -/
  failed : ∀ calls c e, WriterCall.refusal c (w₀.run calls).2.state = none →
    ((w₀.run calls).2.call c).1 = .error e →
    (∃ f, e = .io f) ∧ ((w₀.run calls).2.call c).2.state = .failed ∧
    ∀ later, ((w₀.run calls).2.call c).2.run later =
      (later.map fun c => (c, .error (.order .failed)), ((w₀.run calls).2.call c).2)

/-- A writer over outputs that stay ready follows the life cycle. -/
theorem followsLifecycle {ready : δ → Prop} (hr : RecordOutput.Ready ready)
    {w₀ : BackupWriter δ} (hnew : w₀.state = .created) (hout : ready w₀.output) :
    w₀.FollowsLifecycle := by
  have hpath : ∀ calls, WriteProgress.Path .created (w₀.run calls).1 (w₀.run calls).2.state ∧
      (w₀.run calls).2.Sound ready := by
    intro calls
    rw [← hnew]
    exact run_path hr calls (Or.inr (Or.inr hout))
  refine ⟨fun calls => (hpath calls).1, fun _ _ _ h => call_of_refusal h,
    fun calls => (hpath calls).1.countP_writesHeader_le, ?_, ?_, ?_⟩
  · intro calls before x after hsplit hok hno
    have h := (hpath calls).1
    rw [hsplit] at h
    exact h.header_before before hok hno
  · intro calls hclosed later
    exact run_of_idle (call_closed hclosed) later
  · intro calls c e hfree herr
    obtain ⟨hio, hfailed⟩ := (call_move hr (hpath calls).2 c).1.failed_of_error herr hfree
    refine ⟨hio, hfailed, run_of_idle fun c => call_of_refusal ?_⟩
    rw [hfailed]
    cases c <;> rfl

end BackupWriter

/-- **A writer's life**, for plain and encrypted backups: whatever the sink does, however records
are compressed and in whatever order calls come, a writer goes through the documented states,
refuses what is out of order without touching anything, and never comes back from the end or from a
failure. -/
theorem writer_lifecycle {σ : Type} :
    (∀ [Sink σ] (sink : σ), (PlainWriter.start sink).FollowsLifecycle) ∧
    (∀ (C : Coder) [AppendSink σ] (sink : σ) (key : BackupKey) (iv : Block)
      (draws : List UInt64) (settings : WriteSettings) (w : EncryptedWriter C σ),
      EncryptedWriter.start C sink key iv draws settings = .ok w → w.FollowsLifecycle) := by
  constructor
  · intro _ sink
    exact BackupWriter.followsLifecycle PlainOutput.ready rfl trivial
  · intro C _ sink key iv draws settings w h
    unfold EncryptedWriter.start at h
    split at h
    · cases h
    · split at h
      · cases h
      · cases h
        exact BackupWriter.followsLifecycle EncryptedOutput.ready rfl trivial

/-- On a sink that fails after twenty bytes, so that the initialisation vector still fits. -/
theorem writer_lifecycle_of_full_sink :
    let sink : ScriptedSink := { failAt := some (20, .device .other "full") }
    let key : BackupKey := ⟨List.replicate 32 1, List.replicate 32 2, rfl, rfl⟩
    (PlainWriter.start sink).FollowsLifecycle ∧
    ∃ w, EncryptedWriter.start Deflater.coder sink key .zero [] {} = .ok w ∧
      w.FollowsLifecycle := by
  intro sink key
  refine ⟨writer_lifecycle.1 sink, ?_⟩
  cases h : EncryptedWriter.start Deflater.coder sink key .zero [] {} with
  | ok w => exact ⟨w, rfl, writer_lifecycle.2 _ sink key _ _ _ w h⟩
  | error e => exact nomatch (show true = false from congrArg Except.isOk h)

end ChatBackup
