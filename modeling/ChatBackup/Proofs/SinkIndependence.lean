import ChatBackup.Proofs.Faults

/-!
# Writers do not depend on how their sinks take the bytes

A sink may take what it is offered in pieces of any size, with interruptions in between. As long as
it takes everything in the end nothing of that shows:

> `writers_ignore_sink_pattern`: the same calls on two writers, plain or encrypted, have the same
> results, pass through the same states, count the same and leave the same bytes, whatever two sinks
> that take everything do on the way. A complete encrypted backup ends with the authentication code
> of just the bytes that were accepted before it.

The two writers run side by side, as they do for faults (`BackupWriter.Beside`). Here neither of
them falls behind, since neither fails.
-/

namespace ChatBackup

open Sink

/-! ## Writers that do the same -/

namespace BackupWriter

/-- The same calls were answered alike and have led to the same state, the same counts and the same
bytes; `bytes` and `bytes'` tell what a sink was given through an output. -/
structure Same {δ ε : Type} (bytes : δ → Bytes) (bytes' : ε → Bytes)
    (x : List (WriterCall × Except BackupError Unit) × BackupWriter δ)
    (y : List (WriterCall × Except BackupError Unit) × BackupWriter ε) : Prop where
  results : x.1 = y.1
  state : x.2.state = y.2.state
  counts : x.2.counts = y.2.counts
  bytes : bytes x.2.output = bytes' y.2.output

/-- Two writers side by side, of which the first one has not failed, have done the same. -/
theorem Alongside.same {δ ε : Type} {Q F D : δ → ε → Prop} {bytes : δ → Bytes} {bytes' : ε → Bytes}
    {x : List (WriterCall × Except BackupError Unit) × BackupWriter δ}
    {y : List (WriterCall × Except BackupError Unit) × BackupWriter ε}
    (h : Alongside Q F D x y) (hs : x.2.state ≠ .failed)
    (hQ : ∀ {o q}, Q o q → bytes o = bytes' q) (hF : ∀ {o q}, F o q → bytes o = bytes' q) :
    Same bytes bytes' x y := by
  obtain ⟨hbeside, hresults⟩ := h
  have hsame : x.1 = y.1 := hresults.resolve_right hs
  cases hbeside with
  | going hstate hcounts _ _ ho => exact ⟨hsame, hstate, hcounts, hQ ho⟩
  | closed hstate hstate' hcounts ho =>
    exact ⟨hsame, hstate.trans hstate'.symm, hcounts, hF ho⟩
  | behind hstate => exact absurd hstate hs

end BackupWriter

/-! ## Plain writers -/

namespace PlainWriter

variable {σ ρ : Type} [Sink σ] [Sink ρ] {S : Ledger σ} {T : Ledger ρ}

/-- On a sink that takes everything a plain writer sends the records of the calls that succeeded,
and does not fail. -/
theorem run_sent (hS : Takes S) {sink : σ} (hnew : S sink []) (calls : List WriterCall) :
    ((start (Logged.mk sink [])).run calls).2.state ≠ .failed ∧
      Logged.Over S ((start (Logged.mk sink [])).run calls).2.output.sink
        (WriterCall.sent ((start (Logged.mk sink [])).run calls).1) := by
  have hsucceeds := PlainOutput.succeeds (Logged.takes hS)
  have hwrote : BackupWriter.Wrote (fun o p => Logged.Over S o.sink p)
      (fun o p => Logged.Over S o.sink p) (start (Logged.mk sink [])) [] :=
    ⟨hnew, Logged.accepted_new sink⟩
  have hfine := BackupWriter.run_ne_failed hsucceeds calls hwrote (by simp [start])
  have hlast := BackupWriter.run_wrote hsucceeds.toOutputs calls hwrote
  refine ⟨hfine, ?_⟩
  rw [List.nil_append, BackupWriter.Wrote] at hlast
  cases hs : ((start (Logged.mk sink [])).run calls).2.state with
  | failed => exact absurd hs hfine
  | _ => rw [hs] at hlast; exact hlast

theorem run_same (hS : Takes S) (hT : Takes T) {sink : σ} {full : ρ} (hsink : S sink [])
    (hfull : T full []) (calls : List WriterCall) :
    BackupWriter.Same (fun o => given o.sink.log) (fun q => given q.sink.log)
      ((start (Logged.mk sink [])).run calls) ((start (Logged.mk full [])).run calls) := by
  have hbytes : ∀ {s : Logged σ} {t : Logged ρ}, Level Logged.Accepted (Logged.Over T) s t →
      given s.log = given t.log := by
    rintro s t ⟨c, ⟨hc, hun⟩, -, hc', hun'⟩
    rw [given_of_unclosed hun, given_of_unclosed hun', hc, hc']
  have hrun := BackupWriter.run_beside (w := start (Logged.mk sink []))
    (v := start (Logged.mk full [])) (PlainOutput.pursues Logged.enters (Logged.takes hT)) rfl rfl
    rfl ⟨[], Logged.accepted_new sink, hfull, Logged.accepted_new full⟩ calls
  exact hrun.same (run_sent hS hsink calls).1 hbytes fun h => hbytes h.2

end PlainWriter

/-! ## Encrypted writers -/

namespace EncryptedOutput

variable {C : Compressor} {σ ρ : Type} [AppendSink σ] [AppendSink ρ] {T : Ledger ρ}
  {key : BackupKey} {iv : Block} {level : Gzip.Level} {policy : PaddingPolicy}
  {macKey body : Bytes} {log : List SinkEvent}

/-- A complete backup is a body and its authentication code. -/
theorem IsClosed.given_eq (h : IsClosed macKey body log) :
    given log = body ++ Hmac.hash macKey body := by
  obtain ⟨before, hun, rfl, rfl⟩ := h
  rw [given_append, given_of_unclosed hun]
  exact congrArg (accepted before ++ ·) (List.append_nil _)

omit [AppendSink σ] [AppendSink ρ] in
theorem OpenAlike.given_eq {o : EncryptedOutput C (Logged σ)} {q : EncryptedOutput C (Logged ρ)}
    (h : OpenAlike T key iv level policy o q) : given o.sink.log = given q.sink.log := by
  obtain ⟨w, v, draws, p, rfl, rfl, hstages, -⟩ := h
  obtain ⟨c, ⟨⟨hc, hun⟩, -⟩, ⟨-, hc', hun'⟩, -⟩ := hstages.inner.2.inner
  show given w.inner.inner.inner.inner.log = given v.inner.inner.inner.inner.log
  rw [given_of_unclosed hun, given_of_unclosed hun', hc, hc']

omit [AppendSink σ] [AppendSink ρ] in
theorem ClosedAlike.given_eq {o : EncryptedOutput C (Logged σ)} {q : EncryptedOutput C (Logged ρ)}
    (h : ClosedAlike macKey o q) : given o.sink.log = given q.sink.log := by
  obtain ⟨s, t, body, rfl, rfl, hs, ht⟩ := h
  show given s.log = given t.log
  rw [hs.given_eq, ht.given_eq]

end EncryptedOutput

namespace EncryptedWriter

open EncryptedOutput

variable {C : Compressor} {σ ρ : Type} [AppendSink σ] [AppendSink ρ] {S E : Ledger σ}
  {T F : Ledger ρ} {key : BackupKey} {iv : Block} {draws : List UInt64} {settings : WriteSettings}
  {sink : σ} {full : ρ} {w : EncryptedWriter C (Logged σ)} {v : EncryptedWriter C (Logged ρ)}

/-- On a sink that takes everything an encrypted writer does not fail. -/
theorem run_fine (hS : AppendSink.TakesAll S E) (hsink : S sink [])
    (hw : start C (Logged.mk sink []) key iv draws settings = .ok w) (calls : List WriterCall) :
    (w.run calls).2.state ≠ .failed := by
  obtain ⟨hstate, -, hcarries⟩ := start_ok (Logged.takes hS.toTakes).toRecords
    ⟨hsink, Logged.accepted_new sink⟩ hw
  have hwrote : BackupWriter.Wrote
      (Carries (Logged.Over S) key iv (.ofNat settings.compressionLevel) settings.padding)
      (Left (fun s c => E s.inner c) key iv) w [] := by
    rw [BackupWriter.Wrote, hstate]
    exact hcarries
  exact BackupWriter.run_ne_failed (EncryptedOutput.succeeds (Logged.takesAll hS)) calls hwrote
    (by simp [hstate])

/-- Two writers on sinks that take everything are side by side, and none of them is behind. -/
theorem run_alongside (hT : AppendSink.TakesAll T F) (hfull : T full [])
    (hw : start C (Logged.mk sink []) key iv draws settings = .ok w)
    (hv : start C (Logged.mk full []) key iv draws settings = .ok v) (calls : List WriterCall) :
    BackupWriter.Alongside
      (OpenAlike T key iv (.ofNat settings.compressionLevel) settings.padding)
      (ClosedAlike key.macKey) (Behind key.macKey fun _ => True) (w.run calls) (v.run calls) := by
  obtain ⟨hstate, hstate', hcounts, halike⟩ := start_alike hT.toTakes hfull hw hv
  exact BackupWriter.run_beside (EncryptedOutput.pursues hT fun _ => trivial) hstate hstate'
    hcounts halike calls

/-- What a writer has brought through when it is given up is a front part of what another one
has. -/
theorem run_abandon_prefix (hS : AppendSink.TakesAll S E) (hT : AppendSink.TakesAll T F)
    (hsink : S sink []) (hfull : T full [])
    (hw : start C (Logged.mk sink []) key iv draws settings = .ok w)
    (hv : start C (Logged.mk full []) key iv draws settings = .ok v) (calls : List WriterCall) :
    accepted (w.run calls).2.output.abandon.log <+:
      accepted (v.run calls).2.output.abandon.log := by
  obtain ⟨hbeside, -⟩ := run_alongside hT hfull hw hv calls
  cases hbeside with
  | going _ _ _ _ ho => exact ho.abandon hT.toTakes
  | closed _ _ _ ho =>
    obtain ⟨s, t, body, ho, hq, hs, ht⟩ := ho
    rw [ho, hq]
    exact prefix_of_eq (hs.accepted_eq.trans ht.accepted_eq.symm)
  | behind hstate => exact absurd hstate (run_fine hS hsink hw calls)

/-- Two writers that are given up have brought the same bytes through. -/
theorem run_abandon_eq (hS : AppendSink.TakesAll S E) (hT : AppendSink.TakesAll T F)
    (hsink : S sink []) (hfull : T full [])
    (hw : start C (Logged.mk sink []) key iv draws settings = .ok w)
    (hv : start C (Logged.mk full []) key iv draws settings = .ok v) (calls : List WriterCall) :
    accepted (w.run calls).2.output.abandon.log =
      accepted (v.run calls).2.output.abandon.log := by
  have hfront := run_abandon_prefix hS hT hsink hfull hw hv calls
  have hback := run_abandon_prefix hT hS hfull hsink hv hw calls
  exact hfront.eq_of_length_le hback.length_le

/-- A closed writer has left a complete backup, which its sink holds. -/
theorem run_complete (hS : AppendSink.TakesAll S E) (hsink : S sink [])
    (hw : start C (Logged.mk sink []) key iv draws settings = .ok w) {calls : List WriterCall}
    (hclosed : (w.run calls).2.state = .closed) :
    ∃ s, (w.run calls).2.output = .finished s ∧ E s.inner (given s.log) := by
  obtain ⟨s, b, hout, ⟨hE, rfl⟩, -⟩ := run_sealed (Logged.recordsAll_held hS)
    ⟨hsink, Logged.accepted_new sink⟩ hw calls hclosed
  exact ⟨s, hout, hE⟩

theorem run_same (hS : AppendSink.TakesAll S E) (hT : AppendSink.TakesAll T F)
    (hsink : S sink []) (hfull : T full [])
    (hw : start C (Logged.mk sink []) key iv draws settings = .ok w)
    (hv : start C (Logged.mk full []) key iv draws settings = .ok v) (calls : List WriterCall) :
    BackupWriter.Same (fun o => given o.sink.log) (fun q => given q.sink.log) (w.run calls)
      (v.run calls) :=
  (run_alongside hT hfull hw hv calls).same (run_fine hS hsink hw calls) OpenAlike.given_eq
    ClosedAlike.given_eq

/-- The code at the end of a complete backup is that of the bytes accepted before it. -/
theorem run_isClosed (hT : AppendSink.TakesAll T F) (hfull : T full [])
    (hw : start C (Logged.mk sink []) key iv draws settings = .ok w)
    (hv : start C (Logged.mk full []) key iv draws settings = .ok v) {calls : List WriterCall}
    (hclosed : (w.run calls).2.state = .closed) :
    IsClosed key.macKey (accepted (w.run calls).2.output.sink.log)
      (w.run calls).2.output.sink.log := by
  obtain ⟨hbeside, -⟩ := run_alongside hT hfull hw hv calls
  cases hbeside with
  | going hstate _ hopen => exact absurd (hstate.symm.trans hclosed) hopen
  | closed _ _ _ ho =>
    obtain ⟨s, t, body, ho, -, hs, -⟩ := ho
    rw [ho]
    show IsClosed _ (accepted s.log) s.log
    rw [hs.accepted_eq]
    exact hs
  | behind hstate => rw [hstate] at hclosed; cases hclosed

end EncryptedWriter

/-! ## The main statement -/

/-- **Writers do not depend on how their sinks take the bytes.** Both sinks take everything, in
pieces of any size and with interruptions in between. Then the same calls, however many were made,
were answered alike, have led to the same state and the same counts, and the same bytes were given
to the sinks, which hold them; a plain backup is the records of the calls that succeeded. Encrypted
writers with the same compressor open alike. Given up at any point they have brought the same bytes
through, and closed they have appended the authentication code of just the bytes that were accepted
before it. -/
theorem writers_ignore_sink_pattern {σ ρ : Type} :
    (∀ [Sink σ] [Sink ρ] {S : Ledger σ} {T : Ledger ρ}, Takes S → Takes T →
      ∀ (sink : σ) (full : ρ), S sink [] → T full [] → ∀ calls,
        BackupWriter.Same (fun o => given o.sink.log) (fun q => given q.sink.log)
          ((PlainWriter.start (Logged.mk sink [])).run calls)
          ((PlainWriter.start (Logged.mk full [])).run calls) ∧
        ((PlainWriter.start (Logged.mk sink [])).run calls).2.state ≠ .failed ∧
        Logged.Over S ((PlainWriter.start (Logged.mk sink [])).run calls).2.output.sink
          (WriterCall.sent ((PlainWriter.start (Logged.mk sink [])).run calls).1)) ∧
    (∀ (C : Compressor) [AppendSink σ] [AppendSink ρ] {S E : Ledger σ} {T F : Ledger ρ},
      AppendSink.TakesAll S E → AppendSink.TakesAll T F →
      ∀ (sink : σ) (full : ρ), S sink [] → T full [] →
      ∀ (key : BackupKey) (iv : Block) (draws : List UInt64) (settings : WriteSettings),
        (∀ e, settings.check = .error e →
          EncryptedWriter.start C (Logged.mk sink []) key iv draws settings =
            .error (.settings e, Logged.mk sink []) ∧
          EncryptedWriter.start C (Logged.mk full []) key iv draws settings =
            .error (.settings e, Logged.mk full [])) ∧
        (settings.check = .ok () →
          ∃ w v, EncryptedWriter.start C (Logged.mk sink []) key iv draws settings = .ok w ∧
            EncryptedWriter.start C (Logged.mk full []) key iv draws settings = .ok v ∧
            ∀ calls,
              BackupWriter.Same (fun o => given o.sink.log) (fun q => given q.sink.log)
                (w.run calls) (v.run calls) ∧
              (w.run calls).2.state ≠ .failed ∧
              accepted (w.run calls).2.output.abandon.log =
                accepted (v.run calls).2.output.abandon.log ∧
              ((w.run calls).2.state = .closed →
                EncryptedOutput.IsClosed key.macKey (accepted (w.run calls).2.output.sink.log)
                  (w.run calls).2.output.sink.log ∧
                ∃ s, (w.run calls).2.output = .finished s ∧ E s.inner (given s.log)))) := by
  constructor
  · intro _ _ S T hS hT sink full hsink hfull calls
    exact ⟨PlainWriter.run_same hS hT hsink hfull calls, PlainWriter.run_sent hS hsink calls⟩
  · intro C _ _ S E T F hS hT sink full hsink hfull key iv draws settings
    constructor
    · intro e he
      simp only [EncryptedWriter.start, he, and_self]
    · intro hsettings
      obtain ⟨w, hw⟩ := EncryptedWriter.start_succeeds C (Logged.takes hS.toTakes)
        ⟨hsink, Logged.accepted_new sink⟩ key iv draws hsettings
      obtain ⟨v, hv⟩ := EncryptedWriter.start_succeeds C (Logged.takes hT.toTakes)
        ⟨hfull, Logged.accepted_new full⟩ key iv draws hsettings
      refine ⟨w, v, hw, hv, ?_⟩
      intro calls
      refine ⟨EncryptedWriter.run_same hS hT hsink hfull hw hv calls,
        EncryptedWriter.run_fine hS hsink hw calls,
        EncryptedWriter.run_abandon_eq hS hT hsink hfull hw hv calls, ?_⟩
      intro hclosed
      exact ⟨EncryptedWriter.run_isClosed hT hfull hw hv hclosed,
        EncryptedWriter.run_complete hS hsink hw hclosed⟩

/-- A sink that takes a byte at a time, every other write interrupted, and one that takes everything
at once. -/
theorem writers_ignore_sink_pattern_of_single_bytes :
    let slow : ScriptedSink := { maxWrite := some 1, interrupts := true }
    let key : BackupKey := ⟨List.replicate 32 1, List.replicate 32 2, rfl, rfl⟩
    let calls : List WriterCall := [.header ({} : BackupInfo), .frame ({} : Frame), .close]
    given ((PlainWriter.start (Logged.mk slow [])).run calls).2.output.sink.log =
        given ((PlainWriter.start (Logged.mk ({} : ScriptedSink) [])).run calls).2.output.sink.log ∧
      ∃ w v, EncryptedWriter.start Deflater.compressor (Logged.mk slow []) key .zero [] {} = .ok w ∧
        EncryptedWriter.start Deflater.compressor (Logged.mk ({} : ScriptedSink) []) key .zero []
          {} = .ok v ∧
        (w.run calls).1 = (v.run calls).1 ∧ (w.run calls).2.counts = (v.run calls).2.counts ∧
        given (w.run calls).2.output.sink.log = given (v.run calls).2.output.sink.log := by
  intro slow key calls
  have hslow : ScriptedSink.Faultless slow ∧ ScriptedSink.Written slow [] :=
    ⟨⟨by simp [slow], rfl, rfl, rfl, rfl⟩, rfl, rfl⟩
  have hnew : ScriptedSink.Faultless {} ∧ ScriptedSink.Written {} [] :=
    ⟨ScriptedSink.faultless_new, ScriptedSink.written_new⟩
  obtain ⟨hplain, hencrypted⟩ :=
    writers_ignore_sink_pattern (σ := ScriptedSink) (ρ := ScriptedSink)
  constructor
  · exact (hplain ScriptedSink.takes.toTakes ScriptedSink.takes.toTakes slow {} hslow hnew
      calls).1.bytes
  · obtain ⟨w, v, hw, hv, hruns⟩ :=
      (hencrypted Deflater.compressor ScriptedSink.takes ScriptedSink.takes slow {} hslow hnew key
        .zero [] {}).2 rfl
    obtain ⟨hsame, -⟩ := hruns calls
    exact ⟨w, v, hw, hv, hsame.results, hsame.counts, hsame.bytes⟩

end ChatBackup
