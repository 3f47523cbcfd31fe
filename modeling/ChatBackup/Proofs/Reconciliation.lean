import ChatBackup.Proofs.OutputSize
import ChatBackup.Proofs.Splitting

/-!
# Counts against what was written

The counts of a writer are fed in different places: a record is counted when it was written, the
compressed form, the body and the authentication code when the stages are finished one by one. This
file compares them with the history of the calls and with a log of the sink.

> `writer_counts_reconcile`: after any calls on any sink the records counted are those of the calls
> that succeeded, with their lengths, and a record that fails leaves the counts alone. A plain
> writer that has not failed has counted the bytes of its sink. An encrypted one has counted no
> output until it is closed, and then just the body and the authentication code that its sink took.

`Entered` is what a history adds to the counts of records. One call adds what it says
(`BackupWriter.call_entered`), so a run adds what its history says (`BackupWriter.run_entered`).
-/

namespace ChatBackup

open Sink

/-! ## The length of a record -/

/-- A record is as long as it is told to be without writing it. -/
theorem Record.length_wire {α : Type} [Record α] [Record.Lawful α] {a : α} (h : Record.Fits a) :
    (Record.wire a).length = Record.wireLength a := by
  obtain ⟨_, _, hcodes⟩ := Record.Lawful.codes a
  have hsize := hcodes.size h
  rw [Record.wire, Record.wireLength, List.length_append, Varint.length_encode _ (hsize ▸ h), hsize]

/-- A record whose written form has a length of 64 bits has room for its own length. -/
theorem Record.fits_of_wire {α : Type} [Record α] {a : α}
    (h : (Record.wire a).length < UInt64.size) : Record.Fits a := by
  rw [Record.wire, List.length_append] at h
  exact Nat.lt_of_le_of_lt (Nat.le_add_left _ _) h

/-! ## What calls add to the counts -/

namespace WriterCall

/-- Whether a call and its result mean that a frame was written. -/
def writesFrame : WriterCall × Except BackupError Unit → Bool
  | (frame _, .ok ()) => true
  | _ => false

/-- The length that is told for the record that a call has added, given its result. -/
def toldLength : WriterCall × Except BackupError Unit → Nat
  | (header a, .ok ()) => Record.wireLength a
  | (frame a, .ok ()) => Record.wireLength a
  | _ => 0

/-- The lengths that are told for the records of a history, in all. -/
def told (history : List (WriterCall × Except BackupError Unit)) : Nat :=
  history.foldr (fun x n => toldLength x + n) 0

/-- The record of a call is of a type whose schema codes all its values. -/
def IsLawful : WriterCall → Prop
  | @header α _ _ => Record.Lawful α
  | @frame α _ _ => Record.Lawful α
  | close => True

theorem writesHeader_error (c : WriterCall) (e : BackupError) :
    writesHeader (c, .error e) = false := by
  cases c <;> rfl

theorem writesFrame_error (c : WriterCall) (e : BackupError) :
    writesFrame (c, .error e) = false := by
  cases c <;> rfl

theorem length_added {x : WriterCall × Except BackupError Unit} (h : x.1.IsLawful)
    (hlen : (added x).length < UInt64.size) : (added x).length = toldLength x := by
  obtain ⟨c, r⟩ := x
  cases r with
  | error e =>
    rw [added_error]
    cases c <;> rfl
  | ok u =>
    cases c with
    | @header α _ a =>
      have : Record.Lawful α := h
      exact Record.length_wire (Record.fits_of_wire hlen)
    | @frame α _ a =>
      have : Record.Lawful α := h
      exact Record.length_wire (Record.fits_of_wire hlen)
    | close => rfl

/-- The records that were sent are as long as they are told to be. -/
theorem length_sent {history : List (WriterCall × Except BackupError Unit)}
    (h : ∀ x ∈ history, x.1.IsLawful) (hlen : (sent history).length < UInt64.size) :
    (sent history).length = told history := by
  induction history with
  | nil => rfl
  | cons x history ih =>
    rw [sent, List.flatMap_cons, List.length_append] at hlen ⊢
    have hhead := length_added (h x List.mem_cons_self) (by omega)
    have htail := ih (fun y hy => h y (List.mem_cons_of_mem x hy)) (Nat.lt_of_le_of_lt
      (Nat.le_add_left _ _) hlen)
    rw [hhead]
    exact congrArg (_ + ·) htail

/-- What a history adds to the counts of records. -/
structure Entered (history : List (WriterCall × Except BackupError Unit))
    (before after : BackupCounts) : Prop where
  headers : after.headers = before.headers + history.countP writesHeader
  frames : after.frames = before.frames + history.countP writesFrame
  plaintext : after.plaintextBytes = before.plaintextBytes + (sent history).length

theorem Entered.nil (c : BackupCounts) : Entered [] c c := ⟨rfl, rfl, rfl⟩

theorem Entered.append {history more : List (WriterCall × Except BackupError Unit)}
    {c d e : BackupCounts} (h : Entered history c d) (h' : Entered more d e) :
    Entered (history ++ more) c e where
  headers := by rw [h'.headers, h.headers, List.countP_append, Nat.add_assoc]
  frames := by rw [h'.frames, h.frames, List.countP_append, Nat.add_assoc]
  plaintext := by
    rw [h'.plaintext, h.plaintext, sent, sent, sent, List.flatMap_append, List.length_append,
      Nat.add_assoc]

/-- The counts with the record of a call. -/
def enter (counts : BackupCounts) : WriterCall → BackupCounts
  | header a => counts.countHeader (Record.wire a).length
  | frame a => counts.countFrame (Record.wire a).length
  | close => counts

theorem enter_entered (c : WriterCall) (counts : BackupCounts) :
    Entered [(c, .ok ())] counts (c.enter counts) := by
  cases c <;> refine ⟨rfl, rfl, ?_⟩ <;> rw [sent, List.flatMap_singleton] <;> rfl

end WriterCall

/-! ## What completing enters -/

namespace BackupCounts

/-- Two counts agree on records. -/
structure SameRecords (c d : BackupCounts) : Prop where
  headers : d.headers = c.headers
  frames : d.frames = c.frames
  plaintext : d.plaintextBytes = c.plaintextBytes

/-- Nothing of the output was counted. -/
structure Unsent (c : BackupCounts) : Prop where
  ciphertext : c.ciphertextBytes = 0
  mac : c.macBytes = 0

theorem Unsent.enter {counts : BackupCounts} (h : counts.Unsent) (c : WriterCall) :
    (c.enter counts).Unsent := by
  cases c <;> exact ⟨h.ciphertext, h.mac⟩

theorem Unsent.written {c : BackupCounts} (h : c.Unsent) : c.written = 0 := by
  rw [BackupCounts.written, h.ciphertext, h.mac]

/-- Counts that agree on records were fed by no call. -/
theorem SameRecords.entered {c d : BackupCounts} (h : SameRecords c d)
    {x : WriterCall × Except BackupError Unit} (hheader : WriterCall.writesHeader x = false)
    (hframe : WriterCall.writesFrame x = false) (hadded : WriterCall.added x = []) :
    WriterCall.Entered [x] c d where
  headers := by rw [h.headers, List.countP_singleton, hheader]; rfl
  frames := by rw [h.frames, List.countP_singleton, hframe]; rfl
  plaintext := by
    rw [h.plaintext, WriterCall.sent, List.flatMap_singleton, hadded]
    rfl

end BackupCounts

/-- Completing leaves the counts of records alone, and counts output only if it succeeds. -/
structure RecordOutput.CountsAtEnd (δ : Type) [RecordOutput δ] : Prop where
  records : ∀ (o : δ) (c : BackupCounts), c.SameRecords (RecordOutput.complete o c).2.1
  unsent : ∀ {o : δ} {c : BackupCounts} {e : BackupError}, c.Unsent →
    (RecordOutput.complete o c).1 = .error e → (RecordOutput.complete o c).2.1.Unsent

theorem PlainOutput.countsAtEnd {σ : Type} [Sink σ] : RecordOutput.CountsAtEnd (PlainOutput σ) where
  records _ _ := ⟨rfl, rfl, rfl⟩
  unsent h _ := h

namespace EncryptedOutput

variable {C : Coder} {σ : Type} [AppendSink σ]

/-- However far the stages are finished, records are not counted again, and the body and its code
only at the very end. -/
theorem finishStages_counts (stages : EncryptStages C σ) (draws : List UInt64) (c : BackupCounts) :
    c.SameRecords (finishStages stages draws c).2.1 ∧
      ∀ e, (finishStages stages draws c).1 = .error e → c.Unsent →
        (finishStages stages draws c).2.1.Unsent := by
  unfold finishStages
  split
  next => exact ⟨⟨rfl, rfl, rfl⟩, fun _ _ h => h⟩
  next summary cbc _ =>
    simp only
    split
    next => exact ⟨⟨rfl, rfl, rfl⟩, fun _ _ h => ⟨h.ciphertext, h.mac⟩⟩
    next mac _ =>
      split
      next => exact ⟨⟨rfl, rfl, rfl⟩, fun _ _ h => ⟨h.ciphertext, h.mac⟩⟩
      next digest sink _ =>
        split
        next => exact ⟨⟨rfl, rfl, rfl⟩, fun _ _ h => ⟨h.ciphertext, h.mac⟩⟩
        next => exact ⟨⟨rfl, rfl, rfl⟩, fun _ he => nomatch he⟩

theorem countsAtEnd : RecordOutput.CountsAtEnd (EncryptedOutput C σ) where
  records o c := by
    cases o with
    | opened stages draws =>
      have hrecords := (finishStages_counts stages draws c).1
      simp only [RecordOutput.complete]
      generalize finishStages stages draws c = x at hrecords
      obtain ⟨r, counts, sink⟩ := x
      cases r <;> exact hrecords
    | finished sink => exact ⟨rfl, rfl, rfl⟩
    | broken sink => exact ⟨rfl, rfl, rfl⟩
  unsent {o c e} h he := by
    cases o with
    | opened stages draws =>
      have hunsent := (finishStages_counts stages draws c).2
      simp only [RecordOutput.complete] at he ⊢
      generalize finishStages stages draws c = x at hunsent he
      obtain ⟨r, counts, sink⟩ := x
      cases r with
      | ok u => cases he
      | error f => exact hunsent f rfl h
    | finished sink => exact h
    | broken sink => exact h

end EncryptedOutput

/-! ## What a run adds -/

namespace BackupWriter

open RecordOutput WriterCall

variable {δ : Type} [RecordOutput δ] {w : BackupWriter δ}

/-- A record is counted if it was put, and else nothing is. -/
theorem put_counts {α : Type} [Record α] (w : BackupWriter δ) (a : α) (next : WriteProgress)
    (enter : BackupCounts → Nat → BackupCounts) :
    ((w.put a next enter).1 = .ok () ∧
      (w.put a next enter).2.counts = enter w.counts (Record.wire a).length) ∨
    ∃ e, (w.put a next enter).1 = .error e ∧ (w.put a next enter).2.counts = w.counts := by
  unfold put
  simp only
  split
  next => exact Or.inl ⟨rfl, rfl⟩
  next e _ _ => exact Or.inr ⟨e, rfl, rfl⟩

/-- A call with a record enters it if it succeeds, and else leaves all counts alone. -/
theorem call_counts (w : BackupWriter δ) {c : WriterCall} (hc : c ≠ .close) :
    ((w.call c).1 = .ok () ∧ (w.call c).2.counts = c.enter w.counts) ∨
    ∃ e, (w.call c).1 = .error e ∧ (w.call c).2.counts = w.counts := by
  cases call_cases w c with
  | refused _ hcall =>
    rw [hcall]
    exact Or.inr ⟨_, rfl, rfl⟩
  | again => exact absurd rfl hc
  | header a _ hcall =>
    rw [hcall]
    exact put_counts w a .headerWritten BackupCounts.countHeader
  | frame a _ hcall =>
    rw [hcall]
    exact put_counts w a .frameWritten BackupCounts.countFrame
  | close => exact absurd rfl hc

/-- A call that fails to write a record leaves all counts alone. -/
theorem counts_of_error {c : WriterCall} {e : BackupError} (hc : c ≠ .close)
    (h : (w.call c).1 = .error e) : (w.call c).2.counts = w.counts := by
  rcases call_counts w hc with ⟨hok, -⟩ | ⟨_, -, hcounts⟩
  · rw [hok] at h
    cases h
  · exact hcounts

/-- To close a writer counts no record. -/
theorem close_records (hO : CountsAtEnd δ) (w : BackupWriter δ) :
    w.counts.SameRecords w.close.2.counts := by
  have hrecords := hO.records w.output w.counts
  unfold close
  split
  next => exact ⟨rfl, rfl, rfl⟩
  next => exact ⟨rfl, rfl, rfl⟩
  next =>
    generalize RecordOutput.complete w.output w.counts = x at hrecords
    obtain ⟨r, counts, o⟩ := x
    cases r <;> exact hrecords

/-- A call adds to the counts of records what it says. -/
theorem call_entered (hO : CountsAtEnd δ) (w : BackupWriter δ) (c : WriterCall) :
    Entered [(c, (w.call c).1)] w.counts (w.call c).2.counts := by
  by_cases hc : c = .close
  · subst hc
    exact (close_records hO w).entered rfl rfl rfl
  · rcases call_counts w hc with ⟨hok, hcounts⟩ | ⟨e, herror, hcounts⟩
    · rw [hok, hcounts]
      exact c.enter_entered w.counts
    · rw [herror, hcounts]
      exact BackupCounts.SameRecords.entered ⟨rfl, rfl, rfl⟩ (writesHeader_error c e)
        (writesFrame_error c e) (added_error c e)

/-- A run adds to the counts of records what its history says. -/
theorem run_entered (hO : CountsAtEnd δ) (calls : List WriterCall) :
    ∀ w : BackupWriter δ, Entered (w.run calls).1 w.counts (w.run calls).2.counts := by
  induction calls with
  | nil => intro w; exact .nil w.counts
  | cons c calls ih =>
    intro w
    rw [run_cons]
    exact (call_entered hO w c).append (ih (w.call c).2)

/-- The calls of a history are those that were made. -/
theorem map_fst_run (calls : List WriterCall) :
    ∀ w : BackupWriter δ, (w.run calls).1.map Prod.fst = calls := by
  induction calls with
  | nil => intro w; rfl
  | cons c calls ih =>
    intro w
    rw [run_cons, List.map_cons, ih]

theorem fst_mem_of_mem_run {calls : List WriterCall} {x : WriterCall × Except BackupError Unit}
    (hx : x ∈ (w.run calls).1) : x.1 ∈ calls := by
  have hcall := List.mem_map_of_mem (f := Prod.fst) hx
  rwa [map_fst_run] at hcall

theorem run_isLawful {calls : List WriterCall} (h : ∀ c ∈ calls, c.IsLawful)
    (w : BackupWriter δ) : ∀ x ∈ (w.run calls).1, x.1.IsLawful :=
  fun x hx => h x.1 (fst_mem_of_mem_run hx)

/-- A writer that is not closed has counted no output. -/
def UnsentUntilClosed (w : BackupWriter δ) : Prop := w.state ≠ .closed → w.counts.Unsent

/-- Closing counts the output only if it succeeds. -/
theorem close_unsent (hO : CountsAtEnd δ) (hw : w.counts.Unsent) (hs : w.HasHeader) :
    w.close.2.UnsentUntilClosed := by
  have hunsent := fun e => hO.unsent (o := w.output) (e := e) hw
  unfold close
  rw [hs.admitClose]
  generalize RecordOutput.complete w.output w.counts = x at hunsent
  obtain ⟨r, counts, o⟩ := x
  cases r with
  | ok u => exact fun h => absurd rfl h
  | error e => exact fun _ => hunsent e rfl

theorem call_unsent (hO : CountsAtEnd δ) (hw : w.UnsentUntilClosed) (c : WriterCall) :
    (w.call c).2.UnsentUntilClosed := by
  by_cases hs : w.state = .closed
  · rw [call_closed hs]
    exact hw
  by_cases hc : c = .close
  · subst hc
    cases call_cases w .close with
    | refused _ hcall =>
      rw [hcall]
      exact hw
    | again h => exact absurd h hs
    | close hheader => exact close_unsent hO (hw hs) hheader
  · intro _
    rcases call_counts w hc with ⟨-, hcounts⟩ | ⟨_, -, hcounts⟩
    · rw [hcounts]
      exact (hw hs).enter c
    · rw [hcounts]
      exact hw hs

theorem run_unsent (hO : CountsAtEnd δ) (calls : List WriterCall) :
    ∀ {w : BackupWriter δ}, w.UnsentUntilClosed → (w.run calls).2.UnsentUntilClosed := by
  induction calls with
  | nil => intro w hw; exact hw
  | cons c calls ih =>
    intro w hw
    rw [run_cons]
    exact ih (call_unsent hO hw c)

/-- The records that a writer has counted are those of its history. -/
structure Reconciled (history : List (WriterCall × Except BackupError Unit))
    (w : BackupWriter δ) : Prop where
  headers : w.counts.headers = history.countP writesHeader
  frames : w.counts.frames = history.countP writesFrame
  plaintext : w.counts.plaintextBytes = (sent history).length
  /-- The lengths that are told of the records without writing them add up. -/
  lengths : (∀ x ∈ history, x.1.IsLawful) → w.counts.plaintextBytes < UInt64.size →
    w.counts.plaintextBytes = told history
  /-- A record that cannot be written next would leave the counts alone. -/
  unchanged : ∀ c e, c ≠ .close → (w.call c).1 = .error e → (w.call c).2.counts = w.counts

theorem run_reconciled (hO : CountsAtEnd δ) (hw : w.counts = {}) (calls : List WriterCall) :
    (w.run calls).2.Reconciled (w.run calls).1 := by
  have hrun := run_entered hO calls w
  rw [hw] at hrun
  have hplaintext := hrun.plaintext.trans (Nat.zero_add _)
  refine ⟨hrun.headers.trans (Nat.zero_add _), hrun.frames.trans (Nat.zero_add _), hplaintext, ?_,
    fun _ _ => counts_of_error⟩
  intro hlawful hlen
  rw [hplaintext] at hlen ⊢
  exact length_sent hlawful hlen

end BackupWriter

/-! ## Closed backups -/

/-- A writer gets to its end by closing it. -/
theorem WriteProgress.Path.close_of_closed {s t : WriteProgress}
    {history : List (WriterCall × Except BackupError Unit)} (h : Path s history t)
    (hs : s ≠ .closed) (ht : t = .closed) : (WriterCall.close, .ok ()) ∈ history := by
  induction h with
  | nil => exact absurd ht hs
  | cons hmove _ ih =>
    cases hmove with
    | closeHeader => exact List.mem_cons_self
    | closeFrames => exact List.mem_cons_self
    | closeAgain => exact absurd rfl hs
    | refused => exact List.mem_cons_of_mem _ (ih hs ht)
    | _ => exact List.mem_cons_of_mem _ (ih (by simp) ht)

namespace CompleteBackup

variable {σ : Type} [AppendSink σ] (r : CompleteBackup σ)

/-- The counts of a complete backup tell the bytes that its sink took, by writes and in all. -/
theorem counted : ∃ s, r.last.output = .finished s ∧
    r.last.counts.ciphertextBytes =
      16 + 16 * ((r.last.counts.compressedBytes + r.last.counts.paddingBytes) / 16 + 1) ∧
    r.last.counts.ciphertextBytes = (accepted s.log).length ∧ r.last.counts.macBytes = 32 ∧
    r.last.counts.written = (given s.log).length := by
  obtain ⟨stages, s, c, hout, hc, hover, hfinish⟩ := r.completed
  obtain ⟨m, inner, -, ⟨hbody, hunclosed⟩, hmac, hcounts⟩ :=
    EncryptedOutput.finishStages_body Logged.enters.records hover hfinish
  have hlog := EncryptedOutput.appendMac_log hmac
  have hcompressed : r.last.counts.compressedBytes = m.length := by
    rw [hcounts]
    show c.compressedBytes + m.length = m.length
    rw [hc.compressed, Nat.zero_add]
  have hpadding : r.last.counts.paddingBytes =
      (Padding.amount m.length r.settings.padding r.draws).1 := by
    rw [hcounts]
    show c.paddingBytes + _ = _
    rw [hc.padding, Nat.zero_add]
  have hcipher : r.last.counts.ciphertextBytes =
      (EncryptedOutput.bodyOf r.key r.iv r.settings.padding r.draws m).length := by
    rw [hcounts]
    show c.ciphertextBytes + _ = _
    rw [hc.ciphertext, Nat.zero_add]
  have htag : r.last.counts.macBytes = 32 := by
    rw [hcounts]
    show c.macBytes + 32 = 32
    rw [hc.mac]
  refine ⟨s, hout, ?_, ?_, htag, ?_⟩
  · rw [hcipher, EncryptedOutput.length_bodyOf, hcompressed, hpadding]
  · rw [hcipher, hlog, accepted_append, hbody]
    exact congrArg List.length (List.append_nil _).symm
  · rw [BackupCounts.written, hcipher, htag, hlog, given_append, given_of_unclosed hunclosed, hbody,
      List.length_append]
    show _ = _ + (Hmac.hash r.key.macKey _ ++ []).length
    rw [List.append_nil, Hmac.length_hash]
    rfl

end CompleteBackup

/-! ## The main statement -/

/-- **The counts of a writer agree with what it wrote**, after any calls, on any sink and however
records are compressed. As many headers and frames are counted as calls to write one succeeded, and
the bytes of their records; the lengths that are told of these records without writing them add up
to the same. A record that could not be written changes no count. As long as a plain writer has not
failed the record bytes are the bytes of its sink. An encrypted writer has counted no byte of output
in any state but the closed one, not even after a close that failed; then the ciphertext counted is
what the compressed bytes and the padding come to in blocks behind the initialisation vector, it is
what the sink accepted by writes, the code counted is one of 32 bytes, and the output counted is all
that the sink was given. -/
theorem writer_counts_reconcile {σ : Type} :
    (∀ [Sink σ] (sink : σ) (calls : List WriterCall),
      let r := (PlainWriter.start (Logged.mk sink [])).run calls
      r.2.Reconciled r.1 ∧
      (r.2.state ≠ .failed →
        r.2.counts.plaintextBytes = (accepted r.2.output.sink.log).length)) ∧
    (∀ (C : Compressor) [AppendSink σ] (sink : σ) (key : BackupKey) (iv : Block)
      (draws : List UInt64) (settings : WriteSettings) (w : EncryptedWriter C (Logged σ)),
      EncryptedWriter.start C ⟨sink, []⟩ key iv draws settings = .ok w →
      ∀ calls : List WriterCall,
        let r := w.run calls
        r.2.Reconciled r.1 ∧
        (r.2.state ≠ .closed → r.2.counts.ciphertextBytes = 0 ∧ r.2.counts.macBytes = 0 ∧
          r.2.counts.written = 0) ∧
        (r.2.state = .closed → ∃ s, r.2.output = .finished s ∧
          r.2.counts.ciphertextBytes =
            16 + 16 * ((r.2.counts.compressedBytes + r.2.counts.paddingBytes) / 16 + 1) ∧
          r.2.counts.ciphertextBytes = (accepted s.log).length ∧ r.2.counts.macBytes = 32 ∧
          r.2.counts.written = (given s.log).length)) := by
  constructor
  · intro _ sink calls r
    have hrecords : r.2.Reconciled r.1 :=
      BackupWriter.run_reconciled PlainOutput.countsAtEnd rfl calls
    refine ⟨hrecords, ?_⟩
    intro hs
    have hwrote := BackupWriter.run_wrote (w := PlainWriter.start (Logged.mk sink []))
      (PlainOutput.outputs Logged.enters.records) calls (Logged.accepted_new sink)
    have haccepted : accepted r.2.output.sink.log = WriterCall.sent r.1 := by
      change BackupWriter.Wrote _ _ r.2 _ at hwrote
      unfold BackupWriter.Wrote at hwrote
      cases hstate : r.2.state with
      | failed => exact absurd hstate hs
      | _ =>
        rw [hstate] at hwrote
        exact hwrote.1
    rw [haccepted]
    exact hrecords.plaintext
  · intro C _ sink key iv draws settings w hw calls r
    obtain ⟨hstate, hcounts, -⟩ := EncryptedWriter.start_ok (Logged.enters (σ := σ)).records
      (Logged.accepted_new sink) hw
    refine ⟨BackupWriter.run_reconciled EncryptedOutput.countsAtEnd hcounts calls, ?_, ?_⟩
    · intro hs
      have hnew : w.UnsentUntilClosed := by
        intro _
        rw [hcounts]
        exact ⟨rfl, rfl⟩
      have hunsent := BackupWriter.run_unsent EncryptedOutput.countsAtEnd calls hnew hs
      exact ⟨hunsent.ciphertext, hunsent.mac, hunsent.written⟩
    · intro hs
      have hpath := (BackupWriter.run_path EncryptedOutput.ready calls
        (EncryptedWriter.start_sound hw)).1
      have hclose := hpath.close_of_closed (by rw [hstate]; simp) hs
      exact (CompleteBackup.mk C sink key iv draws settings calls w hw hclose).counted

/-- A frame that comes too early is refused and counted nowhere. The header and the frame after it
are counted, and so is the output once the writer is closed. A plain writer counts the same
records. -/
theorem writer_counts_reconcile_after_refusal :
    let settings : WriteSettings := { compressionLevel := 0, padding := .bucketed }
    let key : BackupKey := ⟨List.replicate 32 1, List.replicate 32 2, rfl, rfl⟩
    let sink : Logged ScriptedSink := ⟨{}, []⟩
    let records : List WriterCall := [.frame (Frame.recipient 7), .header ({} : BackupInfo),
      .frame (Frame.recipient 7)]
    let plain := (PlainWriter.start sink).run records
    plain.2.state = .frameWritten ∧ plain.1.countP WriterCall.writesFrame = 1 ∧
    (accepted plain.2.output.sink.log).length = 6 ∧
    ∃ w, EncryptedWriter.start Deflater.compressor sink key .zero [] settings = .ok w ∧
      (w.run records).2.counts.written = 0 ∧
      ∃ s, (w.run (records ++ [.close])).2.output = .finished s ∧
        (w.run (records ++ [.close])).2.counts.plaintextBytes =
          Record.wireLength ({} : BackupInfo) + Record.wireLength (Frame.recipient 7) ∧
        (accepted s.log).length = 16 + 16 * ((29 + 512) / 16 + 1) ∧ (given s.log).length = 592 := by
  intro settings key sink records plain
  obtain ⟨hplain, hencrypted⟩ := writer_counts_reconcile (σ := ScriptedSink)
  obtain ⟨hrecords, hbytes⟩ := hplain {} records
  have hstate : plain.2.state = .frameWritten := by decide +kernel
  have hcounts : plain.2.counts.frames = 1 ∧ plain.2.counts.plaintextBytes = 6 := by
    decide +kernel
  refine ⟨hstate, hrecords.frames.symm.trans hcounts.1,
    (hbytes (by rw [hstate]; simp)).symm.trans hcounts.2, ?_⟩
  have hcounted : (EncryptedWriter.start Deflater.compressor sink key .zero []
      settings).toOption.map (fun w =>
        ((w.run records).2.state, (w.run (records ++ [.close])).2.state,
        (w.run (records ++ [.close])).2.counts,
        WriterCall.told (w.run (records ++ [.close])).1)) =
      some (.frameWritten, .closed, ⟨1, 1, 6, 29, 512, 560, 32⟩,
        Record.wireLength ({} : BackupInfo) + Record.wireLength (Frame.recipient 7)) := by
    decide +kernel
  cases hw : EncryptedWriter.start Deflater.compressor sink key .zero [] settings with
  | error e =>
    rw [hw] at hcounted
    cases hcounted
  | ok w =>
    rw [hw] at hcounted
    injection hcounted with hcounted
    injection hcounted with hopen hcounted
    injection hcounted with hclosed hcounted
    injection hcounted with hcounts htold
    obtain ⟨-, hunsent, -⟩ := hencrypted Deflater.compressor {} key .zero [] settings w hw records
    obtain ⟨hrecords, -, hsent⟩ :=
      hencrypted Deflater.compressor {} key .zero [] settings w hw (records ++ [.close])
    have hlawful : ∀ c ∈ records ++ [.close], c.IsLawful := by
      simp only [records, List.cons_append, List.nil_append, List.forall_mem_cons]
      exact ⟨inferInstanceAs (Record.Lawful Frame), inferInstanceAs (Record.Lawful BackupInfo),
        inferInstanceAs (Record.Lawful Frame), trivial, fun _ h => nomatch h⟩
    have hlengths := hrecords.lengths (BackupWriter.run_isLawful hlawful w)
      (by rw [hcounts]; decide)
    obtain ⟨s, hout, hcipher, haccepted, -, hgiven⟩ := hsent hclosed
    refine ⟨w, rfl, (hunsent (by rw [hopen]; simp)).2.2, s, hout, hlengths.trans htold, ?_, ?_⟩
    · rw [← haccepted, hcipher, hcounts]
    · rw [← hgiven, hcounts]
      rfl

end ChatBackup
