import ChatBackup.Proofs.Deflater
import ChatBackup.Proofs.Logging
import ChatBackup.Proofs.Writing

/-!
# The layout of an encrypted backup

Byte for byte, and operation for operation, what a writer of encrypted backups has done to its sink
when it is closed:

> `encrypted_backup_layout`: after any calls among which the backup was closed with success, the
> sink was given the initialisation vector and the ciphertext by writes, then their authentication
> code as the closing string, once, and nothing after it. The plaintext is one member for the
> records that were accepted, with the padding that the policy asks for behind it.

The sink stands under a log, so this is said of any sink. That a backup gets closed at all is shown
where the sink takes everything.
-/

namespace ChatBackup

open Sink

namespace EncryptedOutput

open RecordOutput

variable {C : Compressor} {σ : Type} [AppendSink σ] {T : Ledger σ} {key : BackupKey} {iv : Block}
  {level : Gzip.Level} {policy : PaddingPolicy} {draws : List UInt64}

/-- The log of a complete backup of a payload. -/
def HasLayout (key : BackupKey) (iv : Block) (policy : PaddingPolicy) (draws : List UInt64)
    (payload : Bytes) (log : List SinkEvent) : Prop :=
  ∃ m before, Gzip.IsMember payload m ∧ Unclosed before ∧
    accepted before = bodyOf key iv policy draws m ∧
    log = before ++
      [.append (Hmac.hash key.macKey (bodyOf key iv policy draws m)) (.ok ()), .flush (.ok ())]

/-- To append an authentication code is one append, and then a flush if that succeeds. -/
theorem appendMac_events (s : Logged σ) (tag : Bytes) :
    ∃ result after, (appendMac s tag).2.log = s.log ++ .append tag result :: after ∧
      Unclosed after ∧ accepted after = [] ∧
      ((appendMac s tag).1 = .ok () → result = .ok () ∧ after = [.flush (.ok ())]) := by
  unfold appendMac
  cases happend : AppendSink.append s tag with
  | mk r t =>
    have hlog := Logged.append_log happend
    cases r with
    | error e => exact ⟨.error e, [], hlog, unclosed_nil, rfl, nofun⟩
    | ok u =>
      simp only
      cases hflush : Sink.flush t with
      | mk r t' =>
        have hend := Logged.flush_log hflush
        rw [hlog, List.append_assoc] at hend
        refine ⟨.ok (), [.flush r], hend, unclosed_singleton id, rfl, ?_⟩
        rintro rfl
        exact ⟨rfl, rfl⟩

/-- What an appended authentication code leaves in a log. -/
theorem appendMac_log {s s' : Logged σ} {digest : Bytes}
    (h : appendMac s digest = (.ok (), s')) :
    s'.log = s.log ++ [.append digest (.ok ()), .flush (.ok ())] := by
  obtain ⟨result, after, hlog, -, -, hok⟩ := appendMac_events s digest
  rw [h] at hlog hok
  obtain ⟨rfl, rfl⟩ := hok rfl
  exact hlog

/-- An open output that draws its padding from the bits given. -/
def CarriesDraws (T : Ledger σ) (key : BackupKey) (iv : Block) (level : Gzip.Level)
    (policy : PaddingPolicy) (draws : List UInt64) : EncryptedOutput C σ → Bytes → Prop :=
  fun o p => ∃ stages, o = .opened stages draws ∧
    GzipWriter.Over (Below T key iv) level policy stages p

/-- A complete output whose sink has a log of the right layout. -/
def LeftLayout (key : BackupKey) (iv : Block) (policy : PaddingPolicy) (draws : List UInt64) :
    EncryptedOutput C (Logged σ) → Bytes → Prop :=
  fun o p => ∃ s, o = .finished s ∧ HasLayout key iv policy draws p s.log

theorem outputs_layout : Outputs (δ := EncryptedOutput C (Logged σ))
    (CarriesDraws Logged.Accepted key iv level policy draws)
    (LeftLayout key iv policy draws) where
  put {o o' p b} ho h := by
    obtain ⟨stages, rfl, hover⟩ := ho
    simp only [RecordOutput.put] at h
    cases hw : writeAll stages b with
    | mk r stages' =>
      rw [hw] at h
      cases r with
      | error e => cases h
      | ok u =>
        cases h
        have hT : Records
            (GzipWriter.Over (C := C) (Below (Logged.Accepted (σ := σ)) key iv) level policy) :=
          GzipWriter.records (below_records Logged.enters.records)
        exact ⟨stages', rfl, hT.writeAll hover hw⟩
  fails {o p b e} ho h := by
    obtain ⟨stages, rfl, -⟩ := ho
    exact ready.put_error (o := .opened stages draws) trivial h
  complete {o o' p c c'} ho h := by
    obtain ⟨stages, rfl, hover⟩ := ho
    simp only [RecordOutput.complete] at h
    split at h
    next counts sink hf =>
      cases h
      obtain ⟨m, inner, hm, ⟨hbody, hunclosed⟩, happ, -⟩ :=
        finishStages_body Logged.enters.records hover hf
      exact ⟨sink, rfl, m, inner.log, hm, hunclosed, hbody, appendMac_log happ⟩
    next => cases h

end EncryptedOutput

namespace EncryptedWriter

variable {C : Compressor} {σ : Type} [AppendSink σ] {T E : Ledger σ} {key : BackupKey} {iv : Block}
  {draws : List UInt64} {settings : WriteSettings}

theorem start_draws {sink : σ} {w : EncryptedWriter C σ}
    (h : start C sink key iv draws settings = .ok w) :
    ∃ stages, w.output = .opened stages draws := by
  obtain ⟨mac, -, rfl⟩ := start_cases h
  exact ⟨_, rfl⟩

/-- A writer that was closed, after whatever calls, has left a log of the right layout. -/
theorem run_layout {sink : σ} {w : EncryptedWriter C (Logged σ)}
    (h : start C ⟨sink, []⟩ key iv draws settings = .ok w) (calls : List WriterCall)
    (hclosed : (w.run calls).2.state = .closed) :
    EncryptedOutput.LeftLayout key iv settings.padding draws (w.run calls).2.output
      (WriterCall.sent (w.run calls).1) := by
  obtain ⟨hstate, -, hcarries⟩ :=
    start_ok (Logged.enters (σ := σ)).records (Logged.accepted_new sink) h
  obtain ⟨stages, hout⟩ := start_draws h
  have hwrote : BackupWriter.Wrote
      (EncryptedOutput.CarriesDraws Logged.Accepted key iv (.ofNat settings.compressionLevel)
        settings.padding draws)
      (EncryptedOutput.LeftLayout key iv settings.padding draws) w [] := by
    rw [BackupWriter.Wrote, hstate]
    rw [hout] at hcarries ⊢
    exact ⟨stages, rfl, hcarries⟩
  have hrun := BackupWriter.run_wrote EncryptedOutput.outputs_layout calls hwrote
  rwa [BackupWriter.Wrote, hclosed, List.nil_append] at hrun

/-- On a sink that takes everything a backup with a header can be closed, whatever calls came
before and in between. -/
theorem run_closes (hT : AppendSink.TakesAll T E) {sink : σ} (hs : T sink [])
    {w : EncryptedWriter C σ} (h : start C sink key iv draws settings = .ok w) {α : Type}
    [Record α] (before : List WriterCall) (a : α) (between : List WriterCall) :
    (WriterCall.close, .ok ()) ∈ (w.run (before ++ .header a :: between ++ [.close])).1 := by
  obtain ⟨hstate, -, hcarries⟩ := start_ok hT.toRecords hs h
  have hwrote : BackupWriter.Wrote
      (EncryptedOutput.Carries T key iv (.ofNat settings.compressionLevel) settings.padding)
      (EncryptedOutput.Left E key iv) w [] := by
    rw [BackupWriter.Wrote, hstate]
    exact hcarries
  exact BackupWriter.run_closes (EncryptedOutput.succeeds hT) hwrote (by simp [hstate]) before a
    between

end EncryptedWriter

/-! ## The main statement -/

/-- **The layout of an encrypted backup**: when a backup was closed with success, with whatever
compressor and after whatever calls in whatever order, its sink was first given the body by writes
and then the authentication code of the body, by the only append and with nothing after it but a
flush. The body is the initialisation vector and the ciphertext of a member for the records that
were accepted, padded as the policy asks for the member's length. On a sink that takes everything
every writer opens, and every backup with a header can be closed. -/
theorem encrypted_backup_layout (C : Compressor) {σ : Type} [AppendSink σ] (sink : σ)
    (key : BackupKey) (iv : Block) (draws : List UInt64) (settings : WriteSettings) :
    (∀ w : EncryptedWriter C (Logged σ),
      EncryptedWriter.start C ⟨sink, []⟩ key iv draws settings = .ok w →
      ∀ calls, (WriterCall.close, .ok ()) ∈ (w.run calls).1 →
        ∃ s, (w.run calls).2.output = .finished s ∧
          EncryptedOutput.HasLayout key iv settings.padding draws
            (WriterCall.sent (w.run calls).1) s.log) ∧
    (∀ {T E : Ledger σ}, AppendSink.TakesAll T E → T sink [] → settings.check = .ok () →
      ∃ w : EncryptedWriter C (Logged σ),
        EncryptedWriter.start C ⟨sink, []⟩ key iv draws settings = .ok w ∧
        ∀ {α : Type} [Record α] (before : List WriterCall) (a : α) (between : List WriterCall),
          (WriterCall.close, .ok ()) ∈
            (w.run (before ++ .header a :: between ++ [.close])).1) := by
  constructor
  · intro w hw calls hclose
    have hcreated := (EncryptedWriter.start_ok (Logged.enters (σ := σ)).records
      (Logged.accepted_new sink) hw).1
    obtain ⟨stages, hout⟩ := EncryptedWriter.start_draws hw
    have hsound : w.Sound EncryptedOutput.IsOpen := by
      refine Or.inr (Or.inr ?_)
      rw [hout]
      exact trivial
    have hclosed := (BackupWriter.run_path EncryptedOutput.ready calls hsound).1.closed_of_close
      hclose
    exact EncryptedWriter.run_layout hw calls hclosed
  · intro T E hT hs hsettings
    have hlogged := Logged.takesAll hT
    have hnew : T (Logged.mk sink []).inner [] ∧ Logged.Accepted (Logged.mk sink []) [] :=
      ⟨hs, Logged.accepted_new sink⟩
    obtain ⟨w, hw⟩ := EncryptedWriter.start_succeeds C hlogged.toTakes hnew key iv draws hsettings
    refine ⟨w, hw, ?_⟩
    intro α _ before a between
    exact EncryptedWriter.run_closes hlogged hnew hw before a between

/-- A frame that comes too early, a header, a frame, and the end. -/
theorem encrypted_backup_layout_of_frames :
    let key : BackupKey := ⟨List.replicate 32 1, List.replicate 32 2, rfl, rfl⟩
    let calls : List WriterCall :=
      [.frame ({} : Frame)] ++ .header ({} : BackupInfo) :: [.frame ({} : Frame)] ++ [.close]
    ∃ (w : EncryptedWriter Deflater.compressor (Logged ScriptedSink)) (s : Logged ScriptedSink),
      EncryptedWriter.start Deflater.compressor ⟨{}, []⟩ key .zero [] {} = .ok w ∧
      (w.run calls).2.output = .finished s ∧
      EncryptedOutput.HasLayout key .zero .randomized [] (WriterCall.sent (w.run calls).1)
        s.log := by
  intro key calls
  obtain ⟨hlayout, hcloses⟩ :=
    encrypted_backup_layout Deflater.compressor ({} : ScriptedSink) key .zero [] {}
  obtain ⟨w, hw, hclose⟩ :=
    hcloses ScriptedSink.takes ⟨ScriptedSink.faultless_new, ScriptedSink.written_new⟩ rfl
  obtain ⟨s, hout, hs⟩ := hlayout w hw calls (hclose _ _ _)
  exact ⟨w, s, hw, hout, hs⟩

end ChatBackup
