import ChatBackup.Proofs.Compression
import ChatBackup.Proofs.Cbc
import ChatBackup.Proofs.Lifecycle
import ChatBackup.Proofs.Mac

/-!
# What writers send

Whatever the order of calls on a writer, what it was given are the records of the calls that
succeeded, one after another (`WriterCall.sent`). A plain writer sends just these bytes. For an
encrypted one `EncryptedOutput.IsSealed` says what it sends:

> `BackupWriter.run_wrote`: after any calls a writer's output has taken the records of those that
> succeeded, and a closed writer's output is complete for them.
> `EncryptedOutput.outputs`: a complete encrypted output has left the sealed form of what it took.

On a sink that takes everything no call in the documented order fails (`BackupWriter.run_backup`).
-/

namespace ChatBackup

open Sink

/-! ## Outputs -/

namespace RecordOutput

variable {δ : Type} [RecordOutput δ]

/-- `T` says what an open output has taken, `F` what a complete one was given in all. -/
structure Outputs (T F : δ → Bytes → Prop) : Prop where
  put : ∀ {o o' : δ} {p b : Bytes}, T o p → RecordOutput.put o b = (.ok (), o') → T o' (p ++ b)
  /-- An open output only ever fails with the channel. -/
  fails : ∀ {o : δ} {p b : Bytes} {e : BackupError}, T o p →
    (RecordOutput.put o b).1 = .error e → ∃ f, e = .io f
  complete : ∀ {o o' : δ} {p : Bytes} {c c' : BackupCounts}, T o p →
    RecordOutput.complete o c = (.ok (), c', o') → F o' p

/-- Besides, nothing fails. -/
structure Succeeds (T F : δ → Bytes → Prop) : Prop extends Outputs T F where
  puts : ∀ {o : δ} {p : Bytes} (b : Bytes), T o p → ∃ o', RecordOutput.put o b = (.ok (), o')
  completes : ∀ {o : δ} {p : Bytes} (c : BackupCounts), T o p →
    ∃ c' o', RecordOutput.complete o c = (.ok (), c', o')

/-- Puts pieces one after another until one fails. -/
def putAll : δ → List Bytes → Except BackupError Unit × δ
  | o, [] => (.ok (), o)
  | o, b :: pieces =>
    match RecordOutput.put o b with
    | (.ok (), o) => putAll o pieces
    | (.error e, o) => (.error e, o)

theorem Succeeds.putAll {T F : δ → Bytes → Prop} (hS : Succeeds T F) (pieces : List Bytes) :
    ∀ {o : δ} {p : Bytes}, T o p →
      ∃ o', RecordOutput.putAll o pieces = (.ok (), o') ∧ T o' (p ++ pieces.flatten) := by
  induction pieces with
  | nil =>
    intro o p ho
    rw [List.flatten_nil, List.append_nil]
    exact ⟨o, rfl, ho⟩
  | cons b pieces ih =>
    intro o p ho
    obtain ⟨o₁, hput⟩ := hS.puts b ho
    obtain ⟨o', hall, ho'⟩ := ih (hS.put ho hput)
    rw [List.flatten_cons, ← List.append_assoc]
    refine ⟨o', ?_, ho'⟩
    unfold RecordOutput.putAll
    rw [hput]
    exact hall

end RecordOutput

namespace WriterCall

/-- The record that a call has added, given its result. -/
def added : WriterCall × Except BackupError Unit → Bytes
  | (header a, .ok ()) => Record.wire a
  | (frame a, .ok ()) => Record.wire a
  | _ => []

/-- The records that calls have added, one after another. -/
def sent (history : List (WriterCall × Except BackupError Unit)) : Bytes := history.flatMap added

theorem added_error (c : WriterCall) (e : BackupError) : added (c, .error e) = [] := by
  cases c <;> rfl

theorem added_close (r : Except BackupError Unit) : added (close, r) = [] := rfl

end WriterCall

namespace BackupWriter

open RecordOutput

variable {δ : Type} [RecordOutput δ] {T F : δ → Bytes → Prop} {w : BackupWriter δ} {p : Bytes}

/-- What a writer has been given is told by its output in every state but the failed one. -/
def Wrote (T F : δ → Bytes → Prop) (w : BackupWriter δ) (p : Bytes) : Prop :=
  match w.state with
  | .created | .headerWritten | .frameWritten => T w.output p
  | .closed => F w.output p
  | .failed => True

omit [RecordOutput δ] in
theorem wrote_of_failed (h : w.state = .failed) : Wrote T F w p := by
  unfold Wrote
  rw [h]
  exact trivial

omit [RecordOutput δ] in
theorem Wrote.of_header (hw : Wrote T F w p) (hs : w.HasHeader) : T w.output p := by
  unfold Wrote at hw
  rcases hs with hs | hs <;> rw [hs] at hw <;> exact hw

omit [RecordOutput δ] in
/-- An output that completing leaves as it is tells in either case what was written. -/
theorem Wrote.of_not_failed (hw : Wrote T T w p) (hs : w.state ≠ .failed) : T w.output p := by
  unfold Wrote at hw
  cases hstate : w.state with
  | failed => exact absurd hstate hs
  | _ =>
    rw [hstate] at hw
    exact hw

/-- What putting a record comes to. -/
theorem put_records {α : Type} [Record α] (hO : Outputs T F) (hw : T w.output p) (a : α)
    (next : WriteProgress) (enter : BackupCounts → Nat → BackupCounts) :
    ((w.put a next enter).1 = .ok () ∧ (w.put a next enter).2.state = next ∧
      T (w.put a next enter).2.output (p ++ Record.wire a)) ∨
    ∃ e, (w.put a next enter).1 = .error e ∧ (w.put a next enter).2.state = .failed := by
  unfold put
  cases hput : RecordOutput.put w.output (Record.wire a) with
  | mk r o =>
    cases r with
    | ok u => exact Or.inl ⟨by simp [hput], by simp [hput], by simpa [hput] using hO.put hw hput⟩
    | error e =>
      obtain ⟨f, rfl⟩ := hO.fails (b := Record.wire a) hw (by rw [hput])
      exact Or.inr ⟨.io f, by simp [hput], by simp [hput]⟩

theorem complete_cases (hO : Outputs T F) (hw : T w.output p)
    (hs : w.HasHeader) :
    (w.close.1 = .ok () ∧ w.close.2.state = .closed ∧ F w.close.2.output p) ∨
    ∃ e, w.close.1 = .error e ∧ w.close.2.state = .failed := by
  unfold close
  rw [hs.admitClose]
  cases hc : RecordOutput.complete w.output w.counts with
  | mk r x =>
    obtain ⟨counts, o⟩ := x
    cases r with
    | ok u => exact Or.inl ⟨rfl, rfl, hO.complete hw hc⟩
    | error e => exact Or.inr ⟨e, rfl, rfl⟩

/-- A call adds to what was written the record it was given, if it succeeds. -/
theorem call_wrote (hO : Outputs T F) (hw : Wrote T F w p) (c : WriterCall) :
    Wrote T F (w.call c).2 (p ++ WriterCall.added (c, (w.call c).1)) := by
  cases call_cases w c with
  | refused _ hcall =>
    rw [hcall, WriterCall.added_error, List.append_nil]
    exact hw
  | again _ hcall =>
    rw [hcall, WriterCall.added_close, List.append_nil]
    exact hw
  | header a hs hcall =>
    rw [hcall]
    rw [Wrote, hs] at hw
    rcases put_records hO hw a .headerWritten BackupCounts.countHeader with
      ⟨hr, hs', hT⟩ | ⟨e, -, hs'⟩
    · rw [hr, Wrote, hs']
      exact hT
    · exact wrote_of_failed hs'
  | frame a hs hcall =>
    rw [hcall]
    rcases put_records hO (hw.of_header hs) a .frameWritten BackupCounts.countFrame with
      ⟨hr, hs', hT⟩ | ⟨e, -, hs'⟩
    · rw [hr, Wrote, hs']
      exact hT
    · exact wrote_of_failed hs'
  | close hs =>
    rw [WriterCall.added_close, List.append_nil]
    show Wrote T F w.close.2 p
    rcases complete_cases hO (hw.of_header hs) hs with ⟨-, hs', hF⟩ | ⟨e, -, hs'⟩
    · rw [Wrote, hs']
      exact hF
    · exact wrote_of_failed hs'

/-- What was written after any calls are the records of those that succeeded. -/
theorem run_wrote (hO : Outputs T F) (calls : List WriterCall) :
    ∀ {w : BackupWriter δ} {p : Bytes}, Wrote T F w p →
      Wrote T F (w.run calls).2 (p ++ WriterCall.sent (w.run calls).1) := by
  induction calls with
  | nil =>
    intro w p hw
    rw [run_nil, WriterCall.sent, List.flatMap_nil, List.append_nil]
    exact hw
  | cons c calls ih =>
    intro w p hw
    have h := ih (call_wrote hO hw c)
    rw [List.append_assoc] at h
    rw [run_cons, WriterCall.sent, List.flatMap_cons]
    exact h

/-! ## A backup without faults -/

/-- The calls that write frames and close. -/
def frameCalls {φ : Type} [Record φ] (frames : List φ) : List WriterCall :=
  frames.map (WriterCall.frame ·) ++ [.close]

/-- The calls that write a backup. -/
def backupCalls {η φ : Type} [Record η] [Record φ] (header : η) (frames : List φ) :
    List WriterCall := .header header :: frameCalls frames

/-- The records of a backup. -/
def backupWire {η φ : Type} [Record η] [Record φ] (header : η) (frames : List φ) : Bytes :=
  Record.wire header ++ frames.flatMap Record.wire

theorem put_ok {α : Type} [Record α] (hS : Succeeds T F) (hT : T w.output p) (a : α)
    (next : WriteProgress) (enter : BackupCounts → Nat → BackupCounts) :
    (w.put a next enter).1 = .ok () ∧ (w.put a next enter).2.state = next ∧
      T (w.put a next enter).2.output (p ++ Record.wire a) := by
  rcases put_records hS.toOutputs hT a next enter with h | ⟨e, he, -⟩
  · exact h
  · obtain ⟨o, hput⟩ := hS.puts (Record.wire a) hT
    simp only [put, hput] at he
    cases he

theorem close_ok (hS : Succeeds T F) (hT : T w.output p) (hs : w.HasHeader) :
    w.close.1 = .ok () ∧ w.close.2.state = .closed ∧ F w.close.2.output p := by
  rcases complete_cases hS.toOutputs hT hs with h | ⟨e, he, -⟩
  · exact h
  · obtain ⟨c, o, hc⟩ := hS.completes w.counts hT
    simp only [close, hs.admitClose, hc] at he
    cases he

/-- The frames after the header, and the end. -/
theorem run_frames {φ : Type} [Record φ] (hS : Succeeds T F) (frames : List φ) :
    ∀ {w : BackupWriter δ} {p : Bytes}, w.HasHeader → T w.output p →
      ∃ w', w.run (frameCalls frames) =
        ((frameCalls frames).map fun c => (c, .ok ()), w') ∧
      w'.state = .closed ∧ F w'.output (p ++ frames.flatMap Record.wire) := by
  induction frames with
  | nil =>
    intro w p hs hT
    obtain ⟨hr, hs', hF⟩ := close_ok hS hT hs
    refine ⟨w.close.2, ?_, hs', ?_⟩
    · show ([(WriterCall.close, w.close.1)], w.close.2) = _
      rw [hr]
      rfl
    · rw [List.flatMap_nil, List.append_nil]
      exact hF
  | cons f frames ih =>
    intro w p hs hT
    obtain ⟨hr, hs', hT'⟩ := put_ok hS hT f .frameWritten BackupCounts.countFrame
    obtain ⟨w', hrun, hclosed, hF⟩ := ih (Or.inr hs') hT'
    refine ⟨w', ?_, hclosed, ?_⟩
    · rw [show frameCalls (f :: frames) = .frame f :: frameCalls frames from rfl, run_cons,
        call_frame f hs, hrun, hr]
      rfl
    · rw [List.flatMap_cons, ← List.append_assoc]
      exact hF

/-- Where nothing fails all calls that write a backup succeed, and its records are written. -/
theorem run_backup {η φ : Type} [Record η] [Record φ] (hS : Succeeds T F) (header : η)
    (frames : List φ) (hs : w.state = .created) (hT : T w.output []) :
    ∃ w', w.run (backupCalls header frames) =
        ((backupCalls header frames).map fun c => (c, .ok ()), w') ∧
      w'.state = .closed ∧ F w'.output (backupWire header frames) := by
  obtain ⟨hr, hs', hT'⟩ := put_ok hS hT header .headerWritten BackupCounts.countHeader
  obtain ⟨w', hrun, hclosed, hF⟩ := run_frames hS frames (Or.inl hs') hT'
  refine ⟨w', ?_, hclosed, hF⟩
  rw [backupCalls, run_cons, call_header header hs, hrun, hr]
  rfl

/-! ## Any calls without faults -/

/-- Where nothing fails no writer fails. -/
theorem call_ne_failed (hS : Succeeds T F) (hw : Wrote T F w p) (hs : w.state ≠ .failed)
    (c : WriterCall) : (w.call c).2.state ≠ .failed := by
  cases call_cases w c with
  | refused _ hcall => rwa [hcall]
  | again _ hcall => rwa [hcall]
  | header a hnew hcall =>
    rw [Wrote, hnew] at hw
    obtain ⟨-, hs', -⟩ := put_ok hS hw a .headerWritten BackupCounts.countHeader
    rw [hcall, hs']
    simp
  | frame a hheader hcall =>
    obtain ⟨-, hs', -⟩ := put_ok hS (hw.of_header hheader) a .frameWritten BackupCounts.countFrame
    rw [hcall, hs']
    simp
  | close hheader =>
    obtain ⟨-, hs', -⟩ := close_ok hS (hw.of_header hheader) hheader
    show w.close.2.state ≠ .failed
    rw [hs']
    simp

theorem run_ne_failed (hS : Succeeds T F) (calls : List WriterCall) :
    ∀ {w : BackupWriter δ} {p : Bytes}, Wrote T F w p → w.state ≠ .failed →
      (w.run calls).2.state ≠ .failed := by
  induction calls with
  | nil => intro w p _ hs; exact hs
  | cons c calls ih =>
    intro w p hw hs
    rw [run_cons]
    exact ih (call_wrote hS.toOutputs hw c) (call_ne_failed hS hw hs c)

theorem call_ne_created (hs : w.state ≠ .created) (c : WriterCall) :
    (w.call c).2.state ≠ .created := by
  cases call_cases w c with
  | refused _ hcall => rwa [hcall]
  | again _ hcall => rwa [hcall]
  | header a hnew => exact absurd hnew hs
  | frame a _ hcall =>
    rw [hcall]
    unfold put
    simp only
    split
    · simp
    · exact WriteProgress.afterRefusal_ne_created hs _
  | close hheader =>
    show w.close.2.state ≠ .created
    unfold close
    rw [hheader.admitClose]
    simp only
    split <;> simp

theorem run_ne_created (calls : List WriterCall) :
    ∀ {w : BackupWriter δ}, w.state ≠ .created → (w.run calls).2.state ≠ .created := by
  induction calls with
  | nil => intro w hs; exact hs
  | cons c calls ih => intro w hs; exact ih (call_ne_created hs c)

/-- A header is written if none was yet. -/
theorem call_header_ne_created {α : Type} [Record α] (hS : Succeeds T F) (hw : Wrote T F w p)
    (a : α) : (w.call (.header a)).2.state ≠ .created := by
  by_cases hs : w.state = .created
  · rw [Wrote, hs] at hw
    obtain ⟨-, hs', -⟩ := put_ok hS hw a .headerWritten BackupCounts.countHeader
    rw [call_header a hs, hs']
    simp
  · exact call_ne_created hs _

/-- A writer that neither has yet to begin nor has failed can be closed. -/
theorem close_of_ne (hS : Succeeds T F) (hw : Wrote T F w p) (hcreated : w.state ≠ .created)
    (hfailed : w.state ≠ .failed) : (w.call .close).1 = .ok () := by
  cases hs : w.state with
  | created => exact absurd hs hcreated
  | failed => exact absurd hs hfailed
  | closed => rw [call_closed hs]; rfl
  | headerWritten => exact (close_ok hS (hw.of_header (Or.inl hs)) (Or.inl hs)).1
  | frameWritten => exact (close_ok hS (hw.of_header (Or.inr hs)) (Or.inr hs)).1

/-- Where nothing fails a backup with a header can be closed, whatever other calls are made. -/
theorem run_closes {α : Type} [Record α] (hS : Succeeds T F) (hw : Wrote T F w p)
    (hs : w.state ≠ .failed) (before : List WriterCall) (a : α) (after : List WriterCall) :
    (WriterCall.close, .ok ()) ∈ (w.run (before ++ .header a :: after ++ [.close])).1 := by
  have hwrote := run_wrote hS.toOutputs (before ++ .header a :: after) hw
  have hfailed := run_ne_failed hS (before ++ .header a :: after) hw hs
  have hcreated : (w.run (before ++ .header a :: after)).2.state ≠ .created := by
    rw [run_append, run_cons]
    exact run_ne_created after (call_header_ne_created hS (run_wrote hS.toOutputs before hw) a)
  have hclose := close_of_ne hS hwrote hcreated hfailed
  rw [run_append, run_cons, hclose]
  exact List.mem_append_right _ List.mem_cons_self

end BackupWriter

/-! ## Plain backups -/

namespace PlainOutput

open RecordOutput

variable {σ : Type} [Sink σ] {T : Ledger σ}

theorem outputs (hT : Records T) :
    Outputs (δ := PlainOutput σ) (fun o p => T o.sink p) (fun o p => T o.sink p) where
  put {o o' p b} ho h := by
    simp only [RecordOutput.put] at h
    cases hw : writeAll o.sink b with
    | mk r s =>
      rw [hw] at h
      cases r with
      | error e => cases h
      | ok u => cases h; exact hT.writeAll ho hw
  fails _ h := ready.put_error trivial h
  complete {o o' p c c'} ho h := by
    simp only [RecordOutput.complete] at h
    cases hf : Sink.flush o.sink with
    | mk r s =>
      rw [hf] at h
      cases r with
      | error e => cases h
      | ok u => cases h; exact hT.flush ho hf

theorem succeeds (hT : Takes T) :
    Succeeds (δ := PlainOutput σ) (fun o p => T o.sink p) (fun o p => T o.sink p) where
  toOutputs := outputs hT.toRecords
  puts {o p} b ho := by
    obtain ⟨s, hw, -⟩ := hT.writeAll b ho
    refine ⟨⟨s⟩, ?_⟩
    simp only [RecordOutput.put, hw]
    rfl
  completes {o p} c ho := by
    obtain ⟨s, hf⟩ := hT.flushes ho
    refine ⟨c, ⟨s⟩, ?_⟩
    simp only [RecordOutput.complete, hf]
    rfl

end PlainOutput

/-! ## Encrypted backups -/

namespace EncryptedOutput

open RecordOutput

variable {C : Compressor} {σ : Type} [AppendSink σ] {T E : Ledger σ} {key : BackupKey}
  {iv : Block} {level : Gzip.Level} {policy : PaddingPolicy} {payload s : Bytes}

/-- The part of an encrypted backup that is authenticated: the initialisation vector and the
sealed form of a member for the payload with zeros behind it. -/
def IsBody (key : BackupKey) (iv : Block) (payload body : Bytes) : Prop :=
  ∃ (m : Bytes) (padding : Nat), Gzip.IsMember payload m ∧
    body = iv.toBytes ++ Cbc.sealed key.cipher iv (m ++ List.replicate padding 0)

/-- An encrypted backup of a payload. -/
def IsSealed (key : BackupKey) (iv : Block) (payload s : Bytes) : Prop :=
  ∃ body, IsBody key iv payload body ∧ s = body ++ Hmac.hash key.macKey body

/-- What the stages below compression have taken. -/
abbrev Below (T : Ledger σ) (key : BackupKey) (iv : Block) : Ledger (CbcWriter (Authenticated σ)) :=
  CbcWriter.Over (Authenticated.Over T key.macKey) key.cipher iv iv.toBytes

theorem below_records (hT : Records T) : Records (Below T key iv) :=
  CbcWriter.records (Authenticated.records hT)

theorem below_swallows (hT : Takes T) : Swallows (Below T key iv) :=
  CbcWriter.swallows (Authenticated.takes hT)

/-- An open output has taken the payload, as far as it is not on its way through the stages. -/
def Carries (T : Ledger σ) (key : BackupKey) (iv : Block) (level : Gzip.Level)
    (policy : PaddingPolicy) : EncryptedOutput C σ → Bytes → Prop
  | opened stages _, p => GzipWriter.Over (Below T key iv) level policy stages p
  | _, _ => False

/-- A complete output has left the sealed form with its sink. -/
def Left (E : Ledger σ) (key : BackupKey) (iv : Block) : EncryptedOutput C σ → Bytes → Prop
  | finished sink, p => ∃ s, E sink s ∧ IsSealed key iv p s
  | _, _ => False

omit [AppendSink σ] in
theorem Carries.eq_opened {o : EncryptedOutput C σ} (h : Carries T key iv level policy o payload) :
    ∃ stages draws, o = opened stages draws ∧
      GzipWriter.Over (Below T key iv) level policy stages payload := by
  cases o with
  | opened stages draws => exact ⟨stages, draws, rfl, h⟩
  | finished sink => exact absurd h id
  | broken sink => exact absurd h id

omit [AppendSink σ] in
theorem Left.eq_finished {o : EncryptedOutput C σ} (h : Left E key iv o payload) :
    ∃ sink s, o = finished sink ∧ E sink s ∧ IsSealed key iv payload s := by
  cases o with
  | finished sink =>
    obtain ⟨s, hE, hsealed⟩ := h
    exact ⟨sink, s, rfl, hE, hsealed⟩
  | opened stages draws => exact absurd h id
  | broken sink => exact absurd h id

/-- The authentication code goes behind all that was written. -/
theorem appendMac_ok (hT : AppendSink.RecordsAll T E) {sink sink' : σ} {c digest : Bytes}
    (hs : T sink c) (h : appendMac sink digest = (.ok (), sink')) : E sink' (c ++ digest) := by
  unfold appendMac at h
  split at h
  next t happend => exact hT.flushEnd (hT.append hs happend) h
  next => cases h

/-- Finishing all stages succeeds only if each of them does. -/
theorem finishStages_cases {stages : EncryptStages C σ} {draws : List UInt64} {c c' : BackupCounts}
    {sink : σ} (h : finishStages stages draws c = (.ok (), c', sink)) :
    ∃ sizes cbc mac digest inner, stages.finish draws = (.ok sizes, cbc) ∧
      cbc.finish = (.ok (), mac) ∧ mac.finish = (.ok digest, inner) ∧
      appendMac inner digest = (.ok (), sink) ∧
      c' = (c.countCompression sizes).countEncryption mac.written digest.length := by
  unfold finishStages at h
  split at h
  next => cases h
  next sizes cbc hgzip =>
    simp only at h
    split at h
    next => cases h
    next mac hcbc =>
      split at h
      next => cases h
      next digest inner hmac =>
        split at h
        next => cases h
        next sink' happend =>
          cases h
          exact ⟨sizes, cbc, mac, digest, inner, hgzip, hcbc, hmac, happend, rfl⟩

/-- The authenticated part of an encrypted backup, given its member. -/
def bodyOf (key : BackupKey) (iv : Block) (policy : PaddingPolicy) (draws : List UInt64)
    (m : Bytes) : Bytes :=
  iv.toBytes ++ Cbc.sealed key.cipher iv
    (m ++ List.replicate (Padding.amount m.length policy draws).1 0)

/-- When the stages are finished the sink has the body, and then gets its authentication code. The
counts tell the length of the member, of its padding, of the body and of the code. -/
theorem finishStages_body (hT : Records T) {stages : EncryptStages C σ} {draws : List UInt64}
    {c c' : BackupCounts} {sink : σ}
    (hs : GzipWriter.Over (Below T key iv) level policy stages payload)
    (h : finishStages stages draws c = (.ok (), c', sink)) :
    ∃ m inner, Gzip.IsMember payload m ∧ T inner (bodyOf key iv policy draws m) ∧
      appendMac inner (Hmac.hash key.macKey (bodyOf key iv policy draws m)) = (.ok (), sink) ∧
      c' = (c.countCompression
          ⟨payload.length, m.length, (Padding.amount m.length policy draws).1⟩).countEncryption
        (bodyOf key iv policy draws m).length Sha256.digestLength := by
  have hmac : Records (Authenticated.Over T key.macKey) := Authenticated.records hT
  obtain ⟨sizes, cbc, mac, digest, inner, hgz, hfin, hdig, happ, rfl⟩ := finishStages_cases h
  obtain ⟨m, hm, hover, rfl⟩ := GzipWriter.finish_ok (below_records hT) hs hgz
  have hbody := CbcWriter.finish_ok hmac hover hfin
  obtain ⟨rfl, hinner⟩ := Authenticated.finish_ok hT hbody hdig
  refine ⟨m, inner, hm, hinner, happ, ?_⟩
  rw [hbody.2.2, Hmac.length_hash]
  rfl

/-- What the stages leave when they are finished is the sealed form of what they took. -/
theorem finishStages_ok (hT : AppendSink.RecordsAll T E) {stages : EncryptStages C σ}
    {draws : List UInt64} {c c' : BackupCounts} {sink : σ}
    (hs : GzipWriter.Over (Below T key iv) level policy stages payload)
    (h : finishStages stages draws c = (.ok (), c', sink)) :
    ∃ s, E sink s ∧ IsSealed key iv payload s := by
  obtain ⟨m, inner, hm, hinner, happ, -⟩ := finishStages_body hT.toRecords hs h
  exact ⟨_, appendMac_ok hT hinner happ, _, ⟨m, _, hm, rfl⟩, rfl⟩

theorem outputs (hT : AppendSink.RecordsAll T E) :
    Outputs (Carries (C := C) T key iv level policy) (Left E key iv) where
  put {o o' p b} ho h := by
    obtain ⟨stages, draws, rfl, hover⟩ := ho.eq_opened
    simp only [RecordOutput.put] at h
    cases hw : writeAll stages b with
    | mk r stages' =>
      rw [hw] at h
      cases r with
      | error e => cases h
      | ok u =>
        cases h
        exact (GzipWriter.records (below_records hT.toRecords)).writeAll hover hw
  fails {o p b e} ho h := by
    obtain ⟨stages, draws, rfl, -⟩ := ho.eq_opened
    exact ready.put_error (o := opened stages draws) trivial h
  complete {o o' p c c'} ho h := by
    obtain ⟨stages, draws, rfl, hover⟩ := ho.eq_opened
    simp only [RecordOutput.complete] at h
    split at h
    next hf =>
      cases h
      exact finishStages_ok hT hover hf
    next => cases h

theorem finishStages_succeeds (hT : AppendSink.TakesAll T E) {stages : EncryptStages C σ}
    (hs : GzipWriter.Over (Below T key iv) level policy stages payload) (draws : List UInt64)
    (c : BackupCounts) :
    ∃ c' sink, finishStages stages draws c = (.ok (), c', sink) := by
  have hmac : Takes (Authenticated.Over T key.macKey) := Authenticated.takes hT.toTakes
  have hcbc : Swallows (Below T key iv) := below_swallows hT.toTakes
  obtain ⟨sizes, cbc, hgz⟩ := GzipWriter.finish_succeeds hcbc.steady hs draws
  obtain ⟨m, -, hover, -⟩ := GzipWriter.finish_ok hcbc.toRecords hs hgz
  obtain ⟨mac, hfin⟩ := CbcWriter.finish_succeeds hmac hover
  have hbody := CbcWriter.finish_ok hmac.toRecords hover hfin
  obtain ⟨digest, inner, hdig⟩ := Authenticated.finish_succeeds hT.toTakes hbody
  obtain ⟨-, hinner⟩ := Authenticated.finish_ok hT.toRecords hbody hdig
  obtain ⟨t, happend⟩ := hT.appends digest hinner
  obtain ⟨t', hflush⟩ := hT.flushesEnd (hT.append hinner happend)
  have happ : appendMac inner digest = (.ok (), t') := by
    unfold appendMac
    rw [happend]
    exact hflush
  unfold finishStages
  simp only [hgz, hfin, hdig, happ]
  exact ⟨_, _, rfl⟩

theorem succeeds (hT : AppendSink.TakesAll T E) :
    Succeeds (Carries (C := C) T key iv level policy) (Left E key iv) where
  toOutputs := outputs hT.toRecordsAll
  puts {o p} b ho := by
    obtain ⟨stages, draws, rfl, hover⟩ := ho.eq_opened
    have hgzip : Takes (GzipWriter.Over (C := C) (Below T key iv) level policy) :=
      GzipWriter.takes (below_swallows hT.toTakes).steady
    obtain ⟨stages', hw, -⟩ := hgzip.writeAll b hover
    refine ⟨opened stages' draws, ?_⟩
    simp only [RecordOutput.put, hw]
    rfl
  completes {o p} c ho := by
    obtain ⟨stages, draws, rfl, hover⟩ := ho.eq_opened
    obtain ⟨c', sink, hf⟩ := finishStages_succeeds hT hover draws c
    refine ⟨c', finished sink, ?_⟩
    simp only [RecordOutput.complete, hf]

end EncryptedOutput

namespace EncryptedWriter

variable {C : Compressor} {σ : Type} [AppendSink σ] {T E : Ledger σ} {key : BackupKey}
  {iv : Block} {draws : List UInt64} {settings : WriteSettings} {sink : σ}

/-- A writer opens when the initialisation vector could be sent. -/
theorem start_cases {w : EncryptedWriter C σ} (h : start C sink key iv draws settings = .ok w) :
    ∃ mac, writeAll (Authenticated.start sink key.macKey) iv.toBytes = (.ok (), mac) ∧
      w = { output := .opened (GzipWriter.start C (CbcWriter.start mac key.cipher iv)
              (.ofNat settings.compressionLevel) settings.padding) draws } := by
  unfold start at h
  split at h
  · cases h
  · split at h
    next => cases h
    next mac hw =>
      cases h
      exact ⟨mac, hw, rfl⟩

/-- A new writer is open. -/
theorem start_sound {w : EncryptedWriter C σ} (h : start C sink key iv draws settings = .ok w) :
    w.Sound EncryptedOutput.IsOpen := by
  obtain ⟨mac, -, rfl⟩ := start_cases h
  exact Or.inr (Or.inr trivial)

/-- A new writer has sent the initialisation vector and is ready for records. -/
theorem start_ok (hT : Records T) (hs : T sink []) {w : EncryptedWriter C σ}
    (h : start C sink key iv draws settings = .ok w) :
    w.state = .created ∧ w.counts = {} ∧ EncryptedOutput.Carries T key iv
      (.ofNat settings.compressionLevel) settings.padding w.output [] := by
  obtain ⟨mac, hw, rfl⟩ := start_cases h
  refine ⟨rfl, rfl, GzipWriter.over_start (CbcWriter.over_start ?_)⟩
  have := (Authenticated.records hT).writeAll (Authenticated.over_start hs) hw
  rwa [List.nil_append] at this

theorem start_succeeds (C : Compressor) (hT : Takes T) (hs : T sink []) (key : BackupKey)
    (iv : Block) (draws : List UInt64) {settings : WriteSettings}
    (hsettings : settings.check = .ok ()) :
    ∃ w, start C sink key iv draws settings = .ok w := by
  have hmac : Takes (Authenticated.Over T key.macKey) := Authenticated.takes hT
  obtain ⟨mac, hw, -⟩ := hmac.writeAll iv.toBytes (Authenticated.over_start hs)
  unfold start
  simp only [hsettings, hw]
  exact ⟨_, rfl⟩

/-- A writer that was closed, after whatever calls, has left the sealed form of the records that
it was given with success. -/
theorem run_sealed (hT : AppendSink.RecordsAll T E) (hs : T sink []) {w : EncryptedWriter C σ}
    (h : start C sink key iv draws settings = .ok w) (calls : List WriterCall)
    (hclosed : (w.run calls).2.state = .closed) :
    ∃ sink' s, (w.run calls).2.output = .finished sink' ∧ E sink' s ∧
      EncryptedOutput.IsSealed key iv (WriterCall.sent (w.run calls).1) s := by
  obtain ⟨hstate, -, hcarries⟩ := start_ok hT.toRecords hs h
  have hwrote : BackupWriter.Wrote
      (EncryptedOutput.Carries T key iv (.ofNat settings.compressionLevel) settings.padding)
      (EncryptedOutput.Left E key iv) w [] := by
    rw [BackupWriter.Wrote, hstate]
    exact hcarries
  have hrun := BackupWriter.run_wrote (EncryptedOutput.outputs hT) calls hwrote
  rw [BackupWriter.Wrote, hclosed, List.nil_append] at hrun
  exact EncryptedOutput.Left.eq_finished hrun

end EncryptedWriter
end ChatBackup
