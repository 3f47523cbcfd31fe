import ChatBackup.Proofs.Codec
import ChatBackup.Proofs.Partition
import ChatBackup.Proofs.Refinement

/-!
# Backups read back

What a writer has written a reader gives back, for plain and for encrypted backups:

> `backup_round_trip`: on a sink that takes everything all calls of a writer succeed, and a reader
> of the bytes that were written gives the header, all frames in their order, and then nothing more.

A reader is first followed over the plain bytes of the records (`BackupReader.start_wire`). The
simulation between readers carries that over to every source that brings these bytes, and to the
stages of an encrypted one.
-/

namespace ChatBackup

open Source

/-! ## One record -/

section Records

variable {α : Type} [Record α]

/-- Every value is coded by the schema of its type. -/
class Record.Lawful (α : Type) [Record α] : Prop where
  codes : ∀ a : α, ∃ depth, depth ≤ recursionBudget ∧ (Record.schema (α := α)).Codes depth a

instance : Record.Lawful BackupInfo := ⟨fun a => ⟨0, by decide, BackupInfo.codes a⟩⟩

instance : Record.Lawful Frame := ⟨fun a => ⟨3, by decide, Frame.codes a⟩⟩

theorem Record.wire_ne_nil (a : α) : Record.wire a ≠ [] := by
  intro h
  exact Varint.encode_ne_nil _ (List.append_eq_nil_iff.mp h).1

/-- A record that is not longer than allowed is read as it was written. -/
theorem Record.front_wire [Record.Lawful α] {a : α} {maxLength : Nat}
    (hlen : (Record.schema.encode a).length ≤ maxLength) (hmax : maxLength < UInt64.size)
    (rest : Bytes) : Record.Front α maxLength (Record.wire a ++ rest) (.record a) rest := by
  obtain ⟨depth, hdepth, hcodes⟩ := Record.Lawful.codes a
  have h64 : (Record.schema.encode a).length < UInt64.size := Nat.lt_of_le_of_lt hlen hmax
  rw [Record.wire, hcodes.size h64, List.append_assoc]
  exact .record (Varint.form_encode h64) hlen (hcodes.decode hdepth h64)

theorem Record.fetch_wire [Record.Lawful α] {a : α} {maxLength : Nat}
    (hlen : (Record.schema.encode a).length ≤ maxLength) (hmax : maxLength < UInt64.size)
    (rest : Bytes) :
    Record.fetch α (⟨Record.wire a ++ rest⟩ : ByteSource) maxLength = (.ok (some a), ⟨rest⟩) :=
  (Record.front_wire hlen hmax rest).fetch

theorem Record.fetch_nil (maxLength : Nat) :
    Record.fetch α (⟨[]⟩ : ByteSource) maxLength = (.ok none, ⟨[]⟩) :=
  Record.Front.endOfStream.fetch

end Records

/-! ## All records -/

namespace BackupReader

variable {σ η φ : Type} [Source σ] [Record φ]

/-- A reader hands out the frames one after another, each announced before, and then nothing. -/
inductive Yields : BackupReader σ η φ → List φ → Prop where
  | nil {r : BackupReader σ η φ} : r.hasMore = false → r.next = (.error .noSuchElement, r) →
    Yields r []
  | cons {r r' : BackupReader σ η φ} {f : φ} {frames : List φ} : r.hasMore = true →
    r.next = (.ok f, r') → Yields r' frames → Yields r (f :: frames)

/-- A reader over the bytes of records that has read the first of them ahead. -/
def Ahead (r : BackupReader ByteSource η φ) : List φ → Prop
  | [] => r.upcoming = .nothing
  | f :: frames => r.upcoming = .frame f ∧ r.source = some ⟨frames.flatMap Record.wire⟩

variable [Record.Lawful φ] {r : BackupReader ByteSource η φ}

theorem advance_ahead {frames : List φ} (hs : r.source = some ⟨frames.flatMap Record.wire⟩)
    (hmax : r.maxRecordLength < UInt64.size)
    (hlen : ∀ f ∈ frames, (Record.schema.encode f).length ≤ r.maxRecordLength) :
    Ahead r.advance frames ∧ r.advance.maxRecordLength = r.maxRecordLength := by
  unfold advance
  cases frames with
  | nil =>
    rw [List.flatMap_nil] at hs
    simp only [hs, Record.fetch_nil]
    exact ⟨rfl, trivial⟩
  | cons f frames =>
    rw [List.flatMap_cons] at hs
    simp only [hs, Record.fetch_wire (hlen f List.mem_cons_self) hmax]
    exact ⟨⟨rfl, rfl⟩, trivial⟩

theorem Ahead.yields {frames : List φ} (h : Ahead r frames) (hmax : r.maxRecordLength < UInt64.size)
    (hlen : ∀ f ∈ frames, (Record.schema.encode f).length ≤ r.maxRecordLength) :
    Yields r frames := by
  induction frames generalizing r with
  | nil =>
    have hup : r.upcoming = .nothing := h
    refine .nil ?_ ?_
    · rw [hasMore, hup]
    · rw [next, hup]
  | cons f frames ih =>
    obtain ⟨hup, hs⟩ := h
    obtain ⟨hahead, hsame⟩ := advance_ahead hs hmax fun g hg => hlen g (List.mem_cons_of_mem f hg)
    have hnext : r.next = (.ok f, r.advance) := by rw [next, hup]
    refine .cons ?_ hnext (ih hahead ?_ ?_)
    · rw [hasMore, hup]
    · rw [hsame]
      exact hmax
    · rw [hsame]
      exact fun g hg => hlen g (List.mem_cons_of_mem f hg)

omit [Record.Lawful φ] in
theorem header_advance {σ : Type} [Source σ] (r : BackupReader σ η φ) :
    r.advance.header = r.header := by
  unfold advance
  split
  · rfl
  · split <;> rfl

/-- Over the records of a backup a reader gives them back. -/
theorem start_wire [Record η] [Record.Lawful η] {header : η} {frames : List φ} {maxLength : Nat}
    (hmax : maxLength < UInt64.size) (hheader : (Record.schema.encode header).length ≤ maxLength)
    (hframes : ∀ f ∈ frames, (Record.schema.encode f).length ≤ maxLength) :
    ∃ r : BackupReader ByteSource η φ,
      start (⟨BackupWriter.backupWire header frames⟩ : ByteSource) maxLength = .ok r ∧
      r.header = some header ∧ Yields r frames := by
  let r : BackupReader ByteSource η φ := {
    source := some ⟨frames.flatMap Record.wire⟩
    header := some header
    upcoming := .nothing
    maxRecordLength := maxLength
    counts := ({} : BackupCounts).countHeader (Record.wireLength header) }
  obtain ⟨hahead, hsame⟩ := advance_ahead (r := r) rfl hmax hframes
  refine ⟨r.advance, ?_, ?_, hahead.yields ?_ ?_⟩
  · unfold start BackupWriter.backupWire
    rw [Record.fetch_wire hheader hmax]
  · rw [header_advance]
  · rw [hsame]
    exact hmax
  · rw [hsame]
    exact hframes

omit [Record.Lawful φ] in
/-- A reader that agrees with another one hands out the same. -/
theorem Alike.yields {τ : Type} [Source τ] {S : σ → τ → Prop} (hS : Agrees S)
    {r : BackupReader σ η φ} {q : BackupReader τ η φ} {frames : List φ} (h : Alike S r q)
    (hq : Yields q frames) : Yields r frames := by
  induction hq generalizing r with
  | @nil q hmore hnext =>
    have hup : r.upcoming = .nothing := by
      rw [h.upcoming]
      cases hu : q.upcoming with
      | nothing => rfl
      | frame f => rw [BackupReader.hasMore, hu] at hmore; cases hmore
      | failure e => rw [BackupReader.hasMore, hu] at hmore; cases hmore
    refine .nil ?_ ?_
    · rw [BackupReader.hasMore, hup]
    · rw [BackupReader.next, hup]
  | @cons q q' f frames hmore hnext _ ih =>
    obtain ⟨hres, hafter⟩ := h.next hS
    rw [hnext] at hres hafter
    have hnext' : r.next = (.ok f, r.next.2) := Prod.ext hres rfl
    refine .cons ?_ hnext' (ih hafter)
    rw [h.hasMore, hmore]

/-- A reader over any source that brings the records of a backup gives them back. -/
theorem start_of_brings [Record η] [Record.Lawful η] {s : σ} {header : η} {frames : List φ}
    {maxLength : Nat} (h : Brings s (BackupWriter.backupWire header frames) none)
    (hmax : maxLength < UInt64.size) (hheader : (Record.schema.encode header).length ≤ maxLength)
    (hframes : ∀ f ∈ frames, (Record.schema.encode f).length ≤ maxLength) :
    ∃ r : BackupReader σ η φ, start s maxLength = .ok r ∧ r.header = some header ∧
      Yields r frames := by
  obtain ⟨q, hq, hheader', hyields⟩ := start_wire (η := η) hmax hheader hframes
  rcases start_alike (η := η) (φ := φ) agrees_matches (matches_bytes h) maxLength with
    ⟨e, -, h₂⟩ | ⟨r, q', h₁, h₂, halike⟩
  · rw [hq] at h₂
    cases h₂
  · rw [hq] at h₂
    cases h₂
    exact ⟨r, h₁, halike.header.trans hheader', halike.yields agrees_matches hyields⟩

end BackupReader

/-! ## The main statement -/

/-- What it means that a backup was written and closed with success. -/
def allOk (calls : List WriterCall) : List (WriterCall × Except BackupError Unit) :=
  calls.map fun c => (c, .ok ())

/-- **Backups read back**: whatever the header and the frames hold and however records are
compressed, all calls that write and close a backup succeed on a sink that takes everything, and a
reader of the bytes that were written, with the same key if they are encrypted, gives the header,
exactly the frames in their order, and then nothing more. The limit on records is a number of 64
bits, as the lengths in front of them are. -/
theorem backup_round_trip (header : BackupInfo) (frames : List Frame) (settings : ReadSettings)
    (hsettings : settings.check = .ok ()) (hmax : settings.maxRecordLength < UInt64.size)
    (hheader : (Record.schema.encode header).length ≤ settings.maxRecordLength)
    (hframes : ∀ f ∈ frames, (Record.schema.encode f).length ≤ settings.maxRecordLength) :
    (∀ {σ : Type} [Sink σ] {T : Sink.Ledger σ}, Sink.Takes T → ∀ sink : σ, T sink [] →
      ∃ (w : PlainWriter σ) (b : Bytes),
        (PlainWriter.start sink).run (BackupWriter.backupCalls header frames) =
          (allOk (BackupWriter.backupCalls header frames), w) ∧
        w.state = .closed ∧ T w.output.sink b ∧
        ∀ {τ : Type} [Source τ] (source : τ), Brings source b none →
          ∃ r : PlainReader τ BackupInfo Frame, PlainReader.start source settings = .ok r ∧
            r.header = some header ∧ r.Yields frames) ∧
    (∀ (C : Compressor) {σ : Type} [AppendSink σ] {T E : Sink.Ledger σ}, AppendSink.TakesAll T E →
      ∀ (sink : σ) (key : BackupKey) (iv : Block) (draws : List UInt64)
        (writeSettings : WriteSettings), T sink [] → writeSettings.check = .ok () →
      ∃ (w₀ w : EncryptedWriter C σ) (sink' : σ) (b : Bytes),
        EncryptedWriter.start C sink key iv draws writeSettings = .ok w₀ ∧
        w₀.run (BackupWriter.backupCalls header frames) =
          (allOk (BackupWriter.backupCalls header frames), w) ∧
        w.state = .closed ∧ w.output = .finished sink' ∧ E sink' b ∧
        ∀ {τ : Type} [SeekableSource τ] (source : τ), SeekableSource.Holds source b →
          ∃ r : EncryptedReader τ BackupInfo Frame,
            EncryptedReader.start source key settings = .ok r ∧
            r.header = some header ∧ r.Yields frames) := by
  constructor
  · intro σ _ T hT sink hs
    obtain ⟨w, hrun, hclosed, hbytes⟩ := BackupWriter.run_backup (PlainOutput.succeeds hT) header
      frames (w := PlainWriter.start sink) rfl hs
    refine ⟨w, _, hrun, hclosed, hbytes, ?_⟩
    intro τ _ source hsource
    obtain ⟨s, hs', hstart⟩ :=
      PlainReader.start_of_brings (η := BackupInfo) (φ := Frame) hsettings hsource
    rw [hstart]
    exact BackupReader.start_of_brings hs' hmax hheader hframes
  · intro C σ _ T E hT sink key iv draws writeSettings hs hwrite
    obtain ⟨w₀, hw⟩ := EncryptedWriter.start_succeeds C hT.toTakes hs key iv draws hwrite
    obtain ⟨hstate, -, hcarries⟩ := EncryptedWriter.start_ok hT.toRecords hs hw
    obtain ⟨w, hrun, hclosed, hleft⟩ :=
      BackupWriter.run_backup (EncryptedOutput.succeeds hT) header frames hstate hcarries
    obtain ⟨sink', b, hout, hE, hsealed⟩ := hleft.eq_finished
    refine ⟨w₀, w, sink', b, hw, hrun, hclosed, hout, hE, ?_⟩
    intro τ _ source hsource
    obtain ⟨stages, hbrings, hstart⟩ := EncryptedReader.start_of_sealed (η := BackupInfo)
      (φ := Frame) hsettings hsource hsealed
    rw [hstart]
    exact BackupReader.start_of_brings hbrings hmax hheader hframes

/-- A header, an empty frame and a message, plain and encrypted without compression. -/
theorem backup_round_trip_of_message :
    let header := BackupInfo.current 7
    let frames := [{}, Frame.textMessage 1 2 3 "hello"]
    let key : BackupKey := ⟨List.replicate 32 1, List.replicate 32 2, rfl, rfl⟩
    (∃ (w : PlainWriter ScriptedSink) (r : PlainReader ScriptedSource BackupInfo Frame),
      ((PlainWriter.start {}).run (BackupWriter.backupCalls header frames)).2 = w ∧
      PlainReader.start (ScriptedSource.ofBytes w.output.sink.bytes) {} = .ok r ∧
      r.header = some header ∧ r.Yields frames) ∧
    ∃ (w₀ w : EncryptedWriter Deflater.compressor ScriptedSink) (sink : ScriptedSink)
      (r : EncryptedReader ScriptedSource BackupInfo Frame),
      EncryptedWriter.start Deflater.compressor {} key .zero [] { compressionLevel := 0 } =
        .ok w₀ ∧
      (w₀.run (BackupWriter.backupCalls header frames)).2 = w ∧ w.output = .finished sink ∧
      EncryptedReader.start (ScriptedSource.ofBytes sink.bytes) key {} = .ok r ∧
      r.header = some header ∧ r.Yields frames := by
  intro header frames key
  have hheader : (Record.schema.encode header).length ≤ 16777216 := by decide +kernel
  have hframes : ∀ f ∈ frames, (Record.schema.encode f).length ≤ 16777216 := by
    intro f hf
    rw [List.mem_cons, List.mem_singleton] at hf
    rcases hf with rfl | rfl <;> decide +kernel
  obtain ⟨hplain, hencrypted⟩ :=
    backup_round_trip header frames {} rfl (by decide) hheader hframes
  have hnew : ScriptedSink.Faultless {} ∧ ScriptedSink.Written {} [] :=
    ⟨ScriptedSink.faultless_new, ScriptedSink.written_new⟩
  constructor
  · obtain ⟨w, b, hrun, -, ⟨-, hbody, htail⟩, hread⟩ := hplain ScriptedSink.takes.toTakes {} hnew
    obtain ⟨r, hstart, hr⟩ := hread _ (ScriptedSource.brings_ofBytes b)
    have hbytes : w.output.sink.bytes = b := by
      rw [ScriptedSink.bytes, htail, List.append_nil, hbody]
    exact ⟨w, r, by rw [hrun], by rw [hbytes]; exact hstart, hr⟩
  · obtain ⟨w₀, w, sink, b, hw, hrun, -, hout, ⟨-, hbytes⟩, hread⟩ :=
      hencrypted Deflater.compressor ScriptedSink.takes {} key .zero [] { compressionLevel := 0 }
        hnew rfl
    obtain ⟨r, hstart, hr⟩ := hread _ (ScriptedSource.holds_ofBytes b)
    have hwhole : sink.bytes = b := hbytes
    exact ⟨w₀, w, sink, r, hw, by rw [hrun], hout, by rw [hwhole]; exact hstart, hr⟩

end ChatBackup
