import ChatBackup.Proofs.Layout
import ChatBackup.Proofs.Pursuit

/-!
# Two writers side by side

The same calls are made on two writers, of which the second has a sink that takes everything. They
answer alike, state for state and count for count, until a call on the first one fails; from then on
the first one stands still.

> `BackupWriter.Beside.run`: this is kept up through any calls, over outputs that keep it up.
> `PlainOutput.pursues`, `EncryptedOutput.pursues`: outputs of either kind do, whatever the first
> sink does. One that is completed has a log of the right end (`IsClosed`), and one that is behind
> has not authenticated anything but the whole body (`AppendsOnce`).
-/

namespace ChatBackup

universe u

open Sink

/-! ## Outputs side by side -/

/-- Operations keep two outputs abreast, complete both alike, or leave the first one behind; and
behind it stays, whatever the second one does. -/
structure RecordOutput.Pursues {δ ε : Type} [RecordOutput δ] [RecordOutput ε]
    (Q F D : δ → ε → Prop) : Prop where
  put : ∀ {o : δ} {q : ε} (b : Bytes), Q o q →
    Pace Except.ok (fun f => Except.error (.io f)) Q D (RecordOutput.put o b)
      (RecordOutput.put q b)
  complete : ∀ {o : δ} {q : ε} (c : BackupCounts), Q o q →
    Pace Except.ok Except.error (fun x y => x.1 = y.1 ∧ F x.2 y.2) (fun x y => D x.2 y.2)
      (RecordOutput.complete o c) (RecordOutput.complete q c)
  keepsPut : ∀ {o : δ} {q : ε} (b : Bytes), D o q → D o (RecordOutput.put q b).2
  keepsComplete : ∀ {o : δ} {q : ε} (c : BackupCounts), D o q →
    D o (RecordOutput.complete q c).2.2

namespace BackupWriter

open RecordOutput

variable {δ ε : Type} [RecordOutput δ] [RecordOutput ε]

/-- What every operation of an output keeps is kept by calls. -/
theorem call_kept {I : ε → Prop} (hput : ∀ {q : ε} (b : Bytes), I q → I (RecordOutput.put q b).2)
    (hcomplete : ∀ {q : ε} (c : BackupCounts), I q → I (RecordOutput.complete q c).2.2)
    {v : BackupWriter ε} (hv : I v.output) (c : WriterCall) : I (v.call c).2.output := by
  have hafter : ∀ {α : Type} [Record α] (a : α) (next : WriteProgress)
      (enter : BackupCounts → Nat → BackupCounts), I (v.put a next enter).2.output := by
    intro α _ a next enter
    have h := hput (Record.wire a) hv
    unfold BackupWriter.put
    simp only
    split
    next heq => rw [heq] at h; exact h
    next heq => rw [heq] at h; exact h
  cases call_cases v c with
  | refused _ hcall => rwa [hcall]
  | again _ hcall => rwa [hcall]
  | header a _ hcall =>
    rw [hcall]
    exact hafter a _ _
  | frame a _ hcall =>
    rw [hcall]
    exact hafter a _ _
  | close hs =>
    have h := hcomplete v.counts hv
    show I v.close.2.output
    unfold close
    rw [hs.admitClose]
    simp only
    split
    next heq => rw [heq] at h; exact h
    next heq => rw [heq] at h; exact h

/-- A failed writer does nothing any more. -/
theorem run_failed {w : BackupWriter δ} (hs : w.state = .failed) (calls : List WriterCall) :
    (w.run calls).2 = w := by
  have hidle : ∀ c, w.call c = (.error (.order .failed), w) := by
    intro c
    refine call_of_refusal ?_
    rw [hs]
    cases c <;> rfl
  rw [run_of_idle hidle]

variable {Q F D : δ → ε → Prop} {w : BackupWriter δ} {v : BackupWriter ε}

/-- Two writers after the same calls. -/
inductive Beside (Q F D : δ → ε → Prop) (w : BackupWriter δ) (v : BackupWriter ε) : Prop where
  | going : w.state = v.state → w.counts = v.counts → v.state ≠ .closed → v.state ≠ .failed →
    Q w.output v.output → Beside Q F D w v
  | closed : w.state = .closed → v.state = .closed → w.counts = v.counts →
    F w.output v.output → Beside Q F D w v
  | behind : w.state = .failed → D w.output v.output → Beside Q F D w v

/-- What the same calls come to on two writers: the same answers, unless the first one has
failed. -/
def Alongside {α : Type u} (Q F D : δ → ε → Prop) (x : α × BackupWriter δ)
    (y : α × BackupWriter ε) : Prop :=
  Beside Q F D x.2 y.2 ∧ (x.1 = y.1 ∨ x.2.state = .failed)

theorem put_beside {α : Type} [Record α] (h : Pursues Q F D) (hQ : Q w.output v.output)
    (hcounts : w.counts = v.counts) (a : α) {next : WriteProgress} (hclosed : next ≠ .closed)
    (hfailed : next ≠ .failed) (enter : BackupCounts → Nat → BackupCounts) :
    Alongside Q F D (w.put a next enter) (v.put a next enter) := by
  have hpace := h.put (Record.wire a) hQ
  have hkeeps := fun o => h.keepsPut (o := o) (q := v.output) (Record.wire a)
  unfold BackupWriter.put
  simp only
  generalize RecordOutput.put w.output (Record.wire a) = x at hpace
  generalize RecordOutput.put v.output (Record.wire a) = y at hpace
  cases hpace with
  | keep _ hq =>
    refine ⟨.going rfl ?_ hclosed hfailed hq, Or.inl rfl⟩
    show enter w.counts _ = enter v.counts _
    rw [hcounts]
  | @lose o q r f hd =>
    have hfailed : w.state.afterRefusal (.io f) = .failed := rfl
    cases r <;> exact ⟨.behind hfailed hd, Or.inr hfailed⟩

theorem close_beside (h : Pursues Q F D) (hQ : Q w.output v.output)
    (hcounts : w.counts = v.counts) (hw : w.HasHeader) (hv : v.HasHeader) :
    Alongside Q F D w.close v.close := by
  have hpace := h.complete v.counts hQ
  unfold close
  rw [hw.admitClose, hv.admitClose, hcounts]
  simp only
  generalize RecordOutput.complete w.output v.counts = x at hpace
  generalize RecordOutput.complete v.output v.counts = y at hpace
  cases hpace with
  | keep _ hq => exact ⟨.closed rfl rfl hq.1 hq.2, Or.inl rfl⟩
  | @lose o q r e hd => cases r <;> exact ⟨.behind rfl hd, Or.inr rfl⟩

/-- A call keeps two writers side by side. -/
theorem Beside.call (h : Pursues Q F D) (hw : Beside Q F D w v) (c : WriterCall) :
    Alongside Q F D (w.call c) (v.call c) := by
  cases hw with
  | going hs hcounts hclosed hfailed hQ =>
    cases call_cases v c with
    | refused hr hcall =>
      rw [hcall, call_of_refusal (by rw [hs]; exact hr)]
      exact ⟨.going hs hcounts hclosed hfailed hQ, Or.inl rfl⟩
    | again heq => exact absurd heq hclosed
    | header a hnew hcall =>
      rw [hcall, call_header a (hs.trans hnew)]
      exact put_beside h hQ hcounts a (by simp) (by simp) _
    | frame a hheader hcall =>
      have hheader' : w.HasHeader := by
        unfold HasHeader
        rw [hs]
        exact hheader
      rw [hcall, call_frame a hheader']
      exact put_beside h hQ hcounts a (by simp) (by simp) _
    | close hheader =>
      have hheader' : w.HasHeader := by
        unfold HasHeader
        rw [hs]
        exact hheader
      exact close_beside h hQ hcounts hheader' hheader
  | closed hs hs' hcounts hF =>
    rw [call_closed hs, call_closed hs']
    exact ⟨.closed hs hs' hcounts hF, Or.inl rfl⟩
  | behind hs hd =>
    -- the first writer refuses, so it is only the second one that moves
    rw [call_of_refusal (w := w) (c := c) (e := .failed) (by rw [hs]; cases c <;> rfl)]
    exact ⟨.behind hs (call_kept h.keepsPut h.keepsComplete hd c), Or.inr hs⟩

/-- Any calls keep two writers side by side. -/
theorem Beside.run (h : Pursues Q F D) (calls : List WriterCall) :
    ∀ {w : BackupWriter δ} {v : BackupWriter ε}, Beside Q F D w v →
      Alongside Q F D (w.run calls) (v.run calls) := by
  induction calls with
  | nil => intro w v hw; exact ⟨hw, Or.inl rfl⟩
  | cons c calls ih =>
    intro w v hw
    obtain ⟨hcall, hanswer⟩ := hw.call h c
    obtain ⟨hrun, hanswers⟩ := ih hcall
    rw [run_cons, run_cons]
    refine ⟨hrun, ?_⟩
    rcases hanswer with heq | hfailed
    · -- if the call was answered alike all depends on the later ones
      rcases hanswers with heqs | hfailed
      · exact Or.inl (by rw [heq, heqs])
      · exact Or.inr hfailed
    · refine Or.inr ?_
      show ((w.call c).2.run calls).2.state = .failed
      rw [run_failed hfailed]
      exact hfailed

/-- The same calls on two new writers. -/
theorem run_beside (h : Pursues Q F D) (hw : w.state = .created) (hv : v.state = .created)
    (hcounts : w.counts = v.counts) (hQ : Q w.output v.output) (calls : List WriterCall) :
    Alongside Q F D (w.run calls) (v.run calls) :=
  Beside.run h calls (.going (hw.trans hv.symm) hcounts (by simp [hv]) (by simp [hv]) hQ)

/-- What every operation of an output keeps is kept by any calls. -/
theorem run_kept {I : ε → Prop} (hput : ∀ {q : ε} (b : Bytes), I q → I (RecordOutput.put q b).2)
    (hcomplete : ∀ {q : ε} (c : BackupCounts), I q → I (RecordOutput.complete q c).2.2)
    (calls : List WriterCall) :
    ∀ {v : BackupWriter ε}, I v.output → I (v.run calls).2.output := by
  induction calls with
  | nil => intro v hv; exact hv
  | cons c calls ih => intro v hv; exact ih (call_kept hput hcomplete hv c)

end BackupWriter

/-! ## Plain outputs -/

namespace PlainOutput

open RecordOutput

variable {σ ρ : Type} [Sink σ] [Sink ρ] {A : Ledger σ} {B : Ledger ρ}

theorem pursues (hA : Enters A) (hB : Takes B) :
    Pursues (fun (o : PlainOutput σ) (q : PlainOutput ρ) => Level A B o.sink q.sink)
      (fun o q => (∃ s, Sink.flush s = (.ok (), o.sink)) ∧ Level A B o.sink q.sink)
      (fun o q => Short A B (fun _ => True) o.sink q.sink) where
  put {o q} b ho := by
    have hpace := (pursuesAll hA hB fun _ => trivial).writeAll b ho
    simp only [RecordOutput.put]
    generalize writeAll o.sink b = x at hpace
    generalize writeAll q.sink b = y at hpace
    cases hpace with
    | keep _ hq => exact .keep () hq
    | lose e hd => exact .lose e hd
  complete {o q} c ho := by
    have hpace := flush_pace hA hB ho
    simp only [RecordOutput.complete]
    generalize hx : flush o.sink = x at hpace
    generalize flush q.sink = y at hpace
    cases hpace with
    | keep _ hq => exact .keep () ⟨rfl, ⟨_, hx⟩, hq⟩
    | lose e hd => exact .lose _ hd
  keepsPut b hd := (pursuesAll hA hB fun _ => trivial).keeps b hd
  keepsComplete c hd := hd.flush hB

end PlainOutput

/-! ## What every operation keeps -/

/-- A property of states that no operation of a sink ends. -/
structure AppendSink.Kept {σ : Type} [AppendSink σ] (I : σ → Prop) : Prop where
  write : KeptByWrites I
  flush : ∀ {s : σ}, I s → I (Sink.flush s).2
  append : ∀ {s : σ} (b : Bytes), I s → I (AppendSink.append s b).2

/-- What was accepted stays so. -/
theorem Logged.kept {σ : Type} [AppendSink σ] (c : Bytes) :
    AppendSink.Kept fun s : Logged σ => c <+: accepted s.log where
  write s b hs := by
    show c <+: accepted (s.log ++ _)
    rw [accepted_append]
    exact hs.trans (List.prefix_append _ _)
  flush {s} hs := by
    show c <+: accepted (s.log ++ _)
    rw [accepted_append]
    exact hs.trans (List.prefix_append _ _)
  append {s} b hs := by
    show c <+: accepted (s.log ++ _)
    rw [accepted_append]
    exact hs.trans (List.prefix_append _ _)

/-! ## Encrypted outputs -/

namespace EncryptedOutput

open RecordOutput

/-- The sink below all stages. -/
def sink {C : Coder} {σ : Type} : EncryptedOutput C σ → σ
  | opened stages _ => stages.inner.inner.inner.inner
  | finished s => s
  | broken s => s

section Kept

variable {C : Coder} {σ : Type} [AppendSink σ]

/-- What is left to do when the ciphertext is complete. -/
def closeMac (mac : Authenticated σ) (counts : BackupCounts) :
    Except Failure Unit × BackupCounts × σ :=
  match mac.finish with
  | (.error e, sink) => (.error e, counts, sink)
  | (.ok digest, sink) =>
    match appendMac sink digest with
    | (.error e, sink) => (.error e, counts, sink)
    | (.ok (), sink) => (.ok (), counts.countEncryption mac.written digest.length, sink)

/-- What is left to do when the member is complete. -/
def closeCbc (cbc : CbcWriter (Authenticated σ)) (counts : BackupCounts) :
    Except Failure Unit × BackupCounts × σ :=
  match cbc.finish with
  | (.error e, mac) => (.error e, counts, mac.inner)
  | (.ok (), mac) => closeMac mac counts

theorem finishStages_eq (stages : EncryptStages C σ) (draws : List UInt64)
    (counts : BackupCounts) :
    finishStages stages draws counts =
      match stages.finish draws with
      | (.error e, cbc) => (.error e, counts, cbc.inner.inner)
      | (.ok summary, cbc) => closeCbc cbc (counts.countCompression summary) := rfl

variable {I : σ → Prop}

theorem mac_kept (hI : KeptByWrites I) : KeptByWrites fun w : Authenticated σ => I w.inner := by
  intro w b hw
  have h := hI w.inner b hw
  rw [Authenticated.write_eq]
  split
  next heq => rw [heq] at h; exact h
  next heq => rw [heq] at h; exact h
  next heq => rw [heq] at h; exact h

theorem cbc_kept (hI : KeptByWrites I) :
    KeptByWrites fun w : CbcWriter (Authenticated σ) => I w.inner.inner :=
  CbcWriter.kept (I := fun w : Authenticated σ => I w.inner) fun _ b => (mac_kept hI).writeAll b

theorem closeMac_kept (hI : AppendSink.Kept I) {mac : Authenticated σ} (hm : I mac.inner)
    (counts : BackupCounts) : I (closeMac mac counts).2.2 := by
  have hflush := hI.flush hm
  unfold closeMac Authenticated.finish
  cases hf : Sink.flush mac.inner with
  | mk r s =>
    rw [hf] at hflush
    cases r with
    | error e => exact hflush
    | ok u =>
      have happend := hI.append mac.mac.digest hflush
      simp only [appendMac]
      cases ha : AppendSink.append s mac.mac.digest with
      | mk r t =>
        rw [ha] at happend
        cases r with
        | error e => exact happend
        | ok u =>
          have hend := hI.flush happend
          simp only
          cases he : Sink.flush t with
          | mk r t' =>
            rw [he] at hend
            cases r <;> exact hend

theorem closeCbc_kept (hI : AppendSink.Kept I) {cbc : CbcWriter (Authenticated σ)}
    (hc : I cbc.inner.inner) (counts : BackupCounts) : I (closeCbc cbc counts).2.2 := by
  have hfinish := CbcWriter.finish_kept (mac_kept hI.write) (fun h => hI.flush h) hc
  unfold closeCbc
  split
  next heq => rw [heq] at hfinish; exact hfinish
  next heq =>
    rw [heq] at hfinish
    exact closeMac_kept hI hfinish counts

theorem finishStages_kept (hI : AppendSink.Kept I) {stages : EncryptStages C σ}
    (hs : I stages.inner.inner.inner.inner) (draws : List UInt64) (counts : BackupCounts) :
    I (finishStages stages draws counts).2.2 := by
  have hfinish := GzipWriter.finish_kept (cbc_kept hI.write) hs draws
  rw [finishStages_eq]
  split
  next heq => rw [heq] at hfinish; exact hfinish
  next heq =>
    rw [heq] at hfinish
    exact closeCbc_kept hI hfinish _

theorem put_kept (hI : AppendSink.Kept I) {o : EncryptedOutput C σ} (b : Bytes) (ho : I o.sink) :
    I (put o b).2.sink := by
  cases o with
  | opened stages draws => exact (GzipWriter.kept (cbc_kept hI.write)).writeAll b ho
  | finished s => exact ho
  | broken s => exact ho

theorem complete_kept (hI : AppendSink.Kept I) {o : EncryptedOutput C σ} (counts : BackupCounts)
    (ho : I o.sink) : I (complete o counts).2.2.sink := by
  cases o with
  | opened stages draws =>
    have h : I (finishStages stages draws counts).2.2 := finishStages_kept hI ho draws counts
    simp only [RecordOutput.complete]
    split
    next heq => rw [heq] at h; exact h
    next heq => rw [heq] at h; exact h
  | finished s => exact ho
  | broken s => exact ho

/-- What writes keep is kept when an output is given up. -/
theorem abandon_kept (hI : KeptByWrites I) {o : EncryptedOutput C σ} (ho : I o.sink) :
    I o.abandon := by
  cases o with
  | opened stages draws => exact GzipWriter.sendEnding_kept (cbc_kept hI) ho
  | finished s => exact ho
  | broken s => exact ho

end Kept

/-! ### Logs of backups -/

variable {macKey body : Bytes} {log : List SinkEvent}

/-- A log that ends with the code of all that was accepted, between two flushes. -/
def IsClosed (macKey body : Bytes) (log : List SinkEvent) : Prop :=
  ∃ before, Unclosed before ∧ accepted before = body ∧
    log = before ++
      [.flush (.ok ()), .append (Hmac.hash macKey body) (.ok ()), .flush (.ok ())]

/-- If anything was appended at all, it was the code of the body, 32 bytes, once and right after a
flush, and the body had been accepted in full by then. -/
def AppendsOnce (macKey body : Bytes) (log : List SinkEvent) : Prop :=
  Unclosed log ∨ ∃ before tag result after, Unclosed before ∧ accepted before = body ∧
    tag = Hmac.hash macKey body ∧ tag.length = 32 ∧ Unclosed after ∧ accepted after = [] ∧
    log = before ++ .flush (.ok ()) :: .append tag result :: after

theorem appendsOnce_of_append {before after : List SinkEvent} (hun : Unclosed before)
    (hbefore : accepted before = body) (hun' : Unclosed after) (hafter : accepted after = [])
    (result : Except Failure Unit)
    (hlog : log = before ++ .flush (.ok ()) :: .append (Hmac.hash macKey body) result :: after) :
    AppendsOnce macKey body log :=
  Or.inr ⟨before, _, result, after, hun, hbefore, rfl, Hmac.length_hash macKey body, hun', hafter,
    hlog⟩

theorem IsClosed.accepted_eq (h : IsClosed macKey body log) : accepted log = body := by
  obtain ⟨before, -, hbefore, rfl⟩ := h
  rw [accepted_append, hbefore]
  exact List.append_nil body

theorem IsClosed.appendsOnce (h : IsClosed macKey body log) : AppendsOnce macKey body log := by
  obtain ⟨before, hun, hbefore, rfl⟩ := h
  exact appendsOnce_of_append hun hbefore (unclosed_singleton id) rfl (.ok ()) rfl

/-- The first log tells of a front part of what the second one does, and of nothing appended but
the code of the whole. -/
def Trails (macKey : Bytes) (l m : List SinkEvent) : Prop :=
  accepted l <+: accepted m ∧ AppendsOnce macKey (accepted m) l

/-- What closing leaves once all ciphertext was accepted. -/
theorem closeMac_log {σ : Type} [AppendSink σ] {mac : Authenticated (Logged σ)} {c : Bytes}
    (hm : Authenticated.Over Logged.Accepted macKey mac c) (counts : BackupCounts) :
    ∃ s, accepted s.log = c ∧
      ((∃ e, closeMac mac counts = (.error e, counts, s) ∧ AppendsOnce macKey c s.log) ∨
        (closeMac mac counts =
            (.ok (), counts.countEncryption c.length (Hmac.hash macKey c).length, s) ∧
          IsClosed macKey c s.log)) := by
  obtain ⟨⟨hc, hun⟩, hmac, hwritten⟩ := hm
  have hdigest : mac.mac.digest = Hmac.hash macKey c := by rw [hmac, Hmac.hash]
  unfold closeMac Authenticated.finish
  rw [hdigest, hwritten]
  cases hf : Sink.flush mac.inner with
  | mk r s =>
    have hlog := Logged.flush_log hf
    cases r with
    | error e =>
      refine ⟨s, ?_, Or.inl ⟨e, rfl, Or.inl ?_⟩⟩
      · rw [hlog, accepted_append, hc]
        exact List.append_nil c
      · rw [hlog]
        exact hun.append (unclosed_singleton id)
    | ok u =>
      obtain ⟨result, after, hend, hun', hafter, hok⟩ := appendMac_events s (Hmac.hash macKey c)
      rw [hlog, List.append_assoc] at hend
      simp only
      cases ha : appendMac s (Hmac.hash macKey c) with
      | mk r t =>
        rw [ha] at hend hok
        have hall : accepted t.log = c := by
          rw [hend, accepted_append, hc]
          show c ++ accepted after = c
          rw [hafter, List.append_nil]
        cases r with
        | error e =>
          exact ⟨t, hall, Or.inl ⟨e, rfl, appendsOnce_of_append hun hc hun' hafter result hend⟩⟩
        | ok u =>
          obtain ⟨rfl, rfl⟩ := hok rfl
          exact ⟨t, hall, Or.inr ⟨rfl, mac.inner.log, hun, hc, hend⟩⟩

/-! ### Stages side by side -/

variable {C : Compressor} {σ ρ : Type} [AppendSink σ] [AppendSink ρ] {T E : Ledger ρ}
  {key : BackupKey} {iv : Block} {level : Gzip.Level} {policy : PaddingPolicy}
  {Z : Logged σ → Prop}

/-- Below encryption two sinks are abreast. -/
abbrev MacLevel (T : Ledger ρ) (macKey : Bytes) :
    Authenticated (Logged σ) → Authenticated (Logged ρ) → Prop :=
  Level (Authenticated.Over Logged.Accepted macKey) (Authenticated.Over (Logged.Over T) macKey)

/-- Below encryption the first of two sinks is behind. -/
abbrev MacShort (T : Ledger ρ) (macKey : Bytes) (Z : Logged σ → Prop) :
    Authenticated (Logged σ) → Authenticated (Logged ρ) → Prop :=
  Short (Authenticated.Over Logged.Accepted macKey) (Authenticated.Over (Logged.Over T) macKey)
    fun a => Z a.inner

theorem mac_enters : Enters (Authenticated.Over (Logged.Accepted (σ := σ)) macKey) :=
  Authenticated.enters Logged.enters

theorem mac_takes (hT : Takes T) : Takes (Authenticated.Over (Logged.Over T) macKey) :=
  Authenticated.takes (Logged.takes hT)

/-- Below encryption two sinks go on side by side. `Z` is what can be said of the first one after a
string that it did not let through. -/
theorem mac_pursuesAll (hT : Takes T)
    (hZ : ∀ {a a' : Authenticated (Logged σ)} {x : Bytes} {e : Failure},
      writeAll a x = (.error e, a') → Z a'.inner) :
    PursuesAll (MacLevel T macKey) (MacShort T macKey Z) :=
  pursuesAll mac_enters (mac_takes hT) hZ

omit [AppendSink σ] [AppendSink ρ] in
theorem mac_short {a : Authenticated (Logged σ)} {b : Authenticated (Logged ρ)}
    (h : MacShort T macKey Z a b) :
    Unclosed a.inner.log ∧ Z a.inner ∧ accepted a.inner.log <+: accepted b.inner.log := by
  obtain ⟨c, d, ⟨⟨rfl, hun⟩, -⟩, ⟨⟨-, rfl, -⟩, -⟩, hle, hz⟩ := h
  exact ⟨hun, hz, hle⟩

/-- Completing two outputs comes to the same. -/
def EndsAlike (macKey : Bytes) (x : BackupCounts × Logged σ) (y : BackupCounts × Logged ρ) : Prop :=
  x.1 = y.1 ∧ ∃ body, IsClosed macKey body x.2.log ∧ IsClosed macKey body y.2.log

theorem closeMac_pace {mac : Authenticated (Logged σ)} {mac' : Authenticated (Logged ρ)}
    (hm : MacLevel T macKey mac mac') (counts : BackupCounts)
    (hok : (closeMac mac' counts).1 = .ok ()) :
    Pace Except.ok Except.error (EndsAlike macKey) (fun x y => Trails macKey x.2.log y.2.log)
      (closeMac mac counts) (closeMac mac' counts) := by
  obtain ⟨c, ha, hb⟩ := hm
  obtain ⟨s, hs, hleft⟩ := closeMac_log ha counts
  obtain ⟨t, ht, ⟨e, hright, -⟩ | ⟨hright, hclosed'⟩⟩ := closeMac_log ⟨hb.1.2, hb.2⟩ counts
  · rw [hright] at hok
    cases hok
  · rw [hright]
    rcases hleft with ⟨e, hleft, honce⟩ | ⟨hleft, hclosed⟩
    · rw [hleft]
      refine .lose e ⟨prefix_of_eq (hs.trans ht.symm), ?_⟩
      rw [ht]
      exact honce
    · rw [hleft]
      exact .keep () ⟨rfl, c, hclosed, hclosed'⟩

theorem closeCbc_pace (hT : Takes T) {w : CbcWriter (Authenticated (Logged σ))}
    {v : CbcWriter (Authenticated (Logged ρ))} (hw : CbcWriter.Abreast (MacLevel T macKey) w v)
    (counts : BackupCounts) (hok : (closeCbc v counts).1 = .ok ()) :
    Pace Except.ok Except.error (EndsAlike macKey) (fun x y => Trails macKey x.2.log y.2.log)
      (closeCbc w counts) (closeCbc v counts) := by
  have hpace := CbcWriter.finish_pace (mac_pursuesAll (Z := fun _ => True) hT fun _ => trivial)
    (fun h => flush_pace mac_enters (mac_takes hT) h) (fun h => h.flush (mac_takes hT)) hw
  unfold closeCbc at hok ⊢
  generalize w.finish = x at hpace
  generalize v.finish = y at hpace hok
  cases hpace with
  | keep _ hm => exact closeMac_pace hm counts hok
  | @lose a b r e hd =>
    -- the second one goes on alone, and what it has accepted more only makes the front shorter
    obtain ⟨hun, -, hle⟩ := mac_short (Z := fun _ => True) hd
    cases r with
    | ok _ => exact .lose e ⟨closeMac_kept (Logged.kept _) hle counts, Or.inl hun⟩
    | error _ => exact .lose e ⟨hle, Or.inl hun⟩

/-- Open stages over sinks that are abreast. -/
abbrev StagesAbreast (T : Ledger ρ) (macKey : Bytes) :
    EncryptStages C (Logged σ) → EncryptStages C (Logged ρ) → Prop :=
  GzipWriter.Abreast (CbcWriter.Abreast (MacLevel T macKey))

theorem finishStages_pace (hT : Takes T) {w : EncryptStages C (Logged σ)}
    {v : EncryptStages C (Logged ρ)} (hw : StagesAbreast T macKey w v) (draws : List UInt64)
    (counts : BackupCounts) (hok : (finishStages v draws counts).1 = .ok ()) :
    Pace Except.ok Except.error (EndsAlike macKey) (fun x y => Trails macKey x.2.log y.2.log)
      (finishStages w draws counts) (finishStages v draws counts) := by
  have hpace := GzipWriter.finish_pace
    (CbcWriter.pursues (mac_pursuesAll (Z := fun _ => True) hT fun _ => trivial)) hw draws
  rw [finishStages_eq] at hok ⊢
  rw [finishStages_eq]
  generalize w.finish draws = x at hpace
  generalize v.finish draws = y at hpace hok
  cases hpace with
  | keep sizes hm => exact closeCbc_pace hT hm _ hok
  | @lose a b r e hd =>
    obtain ⟨hun, -, hle⟩ := mac_short (Z := fun _ => True) hd
    cases r with
    | ok _ => exact .lose e ⟨closeCbc_kept (Logged.kept _) hle _, Or.inl hun⟩
    | error _ => exact .lose e ⟨hle, Or.inl hun⟩

/-! ### Outputs -/

/-- Both outputs are open, and what the second one has taken is known. -/
def OpenAlike (T : Ledger ρ) (key : BackupKey) (iv : Block) (level : Gzip.Level)
    (policy : PaddingPolicy) (o : EncryptedOutput C (Logged σ)) (q : EncryptedOutput C (Logged ρ)) :
    Prop :=
  ∃ stages stages' draws p, o = opened stages draws ∧ q = opened stages' draws ∧
    StagesAbreast T key.macKey stages stages' ∧
    GzipWriter.Over (Below (Logged.Over T) key iv) level policy stages' p

/-- Both outputs are complete. -/
def ClosedAlike (macKey : Bytes) (o : EncryptedOutput C (Logged σ))
    (q : EncryptedOutput C (Logged ρ)) : Prop :=
  ∃ s t body, o = finished s ∧ q = finished t ∧ IsClosed macKey body s.log ∧
    IsClosed macKey body t.log

/-- The first output has met a failure, while records were put or while it was completed. -/
inductive Behind (macKey : Bytes) (Z : Logged σ → Prop) :
    EncryptedOutput C (Logged σ) → EncryptedOutput C (Logged ρ) → Prop where
  | putting {stages : EncryptStages C (Logged σ)} {draws : List UInt64}
    {q : EncryptedOutput C (Logged ρ)} : Unclosed (opened stages draws).sink.log →
    Z (opened stages draws).sink → accepted (opened stages draws).sink.log <+: accepted q.sink.log →
    Behind macKey Z (opened stages draws) q
  | completing {s : Logged σ} {t : Logged ρ} : Trails macKey s.log t.log →
    Behind macKey Z (broken s) (finished t)

/-- Encrypted outputs go on side by side, whatever the first sink does. -/
theorem pursues (hT : AppendSink.TakesAll T E)
    (hZ : ∀ {a a' : Authenticated (Logged σ)} {x : Bytes} {e : Failure},
      writeAll a x = (.error e, a') → Z a'.inner) :
    Pursues (OpenAlike (C := C) (σ := σ) T key iv level policy) (ClosedAlike key.macKey)
      (Behind key.macKey Z) where
  put {o q} b ho := by
    obtain ⟨w, v, draws, p, rfl, rfl, hw, hp⟩ := ho
    have hU : Swallows (Below (Logged.Over T) key iv) := below_swallows (Logged.takes hT.toTakes)
    have hbelow : PursuesAll (MacLevel T key.macKey) (MacShort T key.macKey Z) :=
      mac_pursuesAll hT.toTakes hZ
    have hpace := (GzipWriter.pursues hU (CbcWriter.pursues hbelow) level policy).writeAll b
      ⟨hw, p, hp⟩
    simp only [RecordOutput.put]
    generalize writeAll w b = x at hpace
    generalize writeAll v b = y at hpace
    cases hpace with
    | keep _ hq =>
      obtain ⟨hq, p', hp'⟩ := hq
      exact .keep () ⟨_, _, draws, p', rfl, rfl, hq, hp'⟩
    | lose e hd =>
      obtain ⟨hun, hz, hle⟩ := mac_short hd
      exact .lose e (.putting hun hz hle)
  complete {o q} c ho := by
    obtain ⟨w, v, draws, p, rfl, rfl, hw, hp⟩ := ho
    -- whatever becomes of the first output, the second one is completed
    obtain ⟨c', t, hv⟩ := finishStages_succeeds (Logged.takesAll hT) hp draws c
    have hpace := finishStages_pace hT.toTakes hw draws c (by rw [hv])
    simp only [RecordOutput.complete]
    rw [hv] at hpace ⊢
    generalize finishStages w draws c = x at hpace
    cases hpace with
    | keep _ hends =>
      obtain ⟨hcounts, body, hs, ht⟩ := hends
      exact .keep () ⟨hcounts, _, _, body, rfl, rfl, hs, ht⟩
    | lose e hd => exact .lose _ (.completing hd)
  keepsPut {o q} b hd := by
    cases hd with
    | putting hun hz hle => exact .putting hun hz (put_kept (Logged.kept _) b hle)
    | completing htrails => exact .completing htrails
  keepsComplete {o q} c hd := by
    cases hd with
    | putting hun hz hle => exact .putting hun hz (complete_kept (Logged.kept _) c hle)
    | completing htrails => exact .completing htrails

end EncryptedOutput

end ChatBackup
