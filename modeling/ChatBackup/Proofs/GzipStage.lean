import ChatBackup.Proofs.CallSeries
import ChatBackup.Proofs.Compression
import ChatBackup.Proofs.Deflater
import ChatBackup.Proofs.Lockstep
import Mathlib.Data.List.Forall2

/-!
# The compressing stage and back

A compressing writer is given bytes by any calls, and a reader gives them back. What the writer
takes of a single write may be less than what it is offered, so that the data is told by the
answers to the calls (`takenIn`).

> `gzip_stage_lossless`: on a sink that takes everything all calls get through, the bytes taken are
> counted, and at the end the sink has one member for them and the zeros that the policy asks for.
> Behind any member of these bytes any string may stand: a reader gives the bytes and then ends.

The reader is followed in two ways. Over any source it brings the data (`Brings`). Over a byte
string it is not interrupted besides, since it is read alike with itself (`HandsOver.of_twins`), so
that each single read is known (`ReadsOut`).
-/

namespace ChatBackup

open Source

/-! ## What calls have brought -/

namespace SinkCall

/-- The bytes of a call that were taken, as the answer tells. -/
def taken : SinkCall → SinkAnswer → Bytes
  | write b, .write r => Sink.taken b r
  | writeAll b, .writeAll (.ok ()) => b
  | _, _ => []

/-- The call did what it is for: a string and a flush went through as a whole, and of a single write
some bytes were taken if there were any. -/
def GetsThrough : SinkCall → SinkAnswer → Prop
  | write b, .write r => ∃ n, r = .done n ∧ n ≤ b.length ∧ (b ≠ [] → 0 < n)
  | writeAll _, .writeAll r => r = .ok ()
  | flush, .flush r => r = .ok ()
  | _, _ => False

end SinkCall

/-- The bytes that were taken in calls, one after another. -/
def takenIn (calls : List SinkCall) (answers : List SinkAnswer) : Bytes :=
  (List.zipWith SinkCall.taken calls answers).flatten

namespace GzipWriter

open Sink

variable {C : Compressor} {σ : Type} [Sink σ] {U : Ledger σ} {level : Gzip.Level}
  {policy : PaddingPolicy} {w : GzipWriter C σ} {p b : Bytes}

/-- Every call gets through, and what was taken is data. -/
theorem call_through (hU : Steady U) (hw : Over U level policy w p) (c : SinkCall) :
    c.GetsThrough (call w c).1 ∧ Over U level policy (call w c).2 (p ++ c.taken (call w c).1) := by
  have hT : Takes (Over (C := C) U level policy) := takes hU
  cases c with
  | write b =>
    obtain ⟨n, w', h, hpos⟩ := writeOnce_done hU hw b
    have hwrite : write w b = (.done n, w') := h
    have hle := write_le w b n (by rw [hwrite])
    simp only [call, hwrite]
    exact ⟨⟨n, rfl, hle, hpos⟩, hT.done hw hwrite⟩
  | writeAll b =>
    obtain ⟨w', h, hafter⟩ := hT.writeAll b hw
    simp only [call, h]
    exact ⟨rfl, hafter⟩
  | flush =>
    obtain ⟨w', h⟩ := hT.flushes hw
    have hafter := hT.flush hw h
    simp only [call, h]
    rw [← List.append_nil p] at hafter
    exact ⟨rfl, hafter⟩

theorem run_through (hU : Steady U) (hw : Over U level policy w p) (calls : List SinkCall) :
    List.Forall₂ SinkCall.GetsThrough calls (run w calls).1 ∧
      Over U level policy (run w calls).2 (p ++ takenIn calls (run w calls).1) := by
  induction calls generalizing w p with
  | nil =>
    show _ ∧ Over U level policy w (p ++ [])
    rw [List.append_nil]
    exact ⟨.nil, hw⟩
  | cons c calls ih =>
    obtain ⟨hanswer, hafter⟩ := call_through hU hw c
    obtain ⟨hanswers, hend⟩ := ih hafter
    rw [List.append_assoc] at hend
    rw [run_cons]
    exact ⟨.cons hanswer hanswers, hend⟩

omit [Sink σ] in
/-- The data that was taken is counted. -/
theorem Over.plaintextLength (hw : Over U level policy w p) : w.plaintextLength = p.length := by
  obtain ⟨front, behind, hw⟩ := hw
  exact hw.length

end GzipWriter

/-! ## What a reader makes of a member -/

namespace Source

variable {σ τ : Type} [Source σ] [Source τ] {S : σ → τ → Prop} {R : Promise σ}

/-- A source that is read alike with another one is never interrupted, and a promise without a
failure at the end says what each read comes to. -/
theorem HandsOver.of_twins (hR : Delivers R) (hS : Twins S) :
    HandsOver fun s b ending => ending = none ∧ R s b none ∧ ∃ t, S s t := by
  rintro s b ending n ⟨rfl, hs, t, hst⟩ hn
  have hread := hS s t n hst hn
  have hd := hR s b none n hs hn
  generalize read s n = x at hread hd
  generalize read t n = y at hread
  cases hread with
  | done got hafter =>
    cases hd with
    | bytes hgot hb hmore _ => exact .bytes hgot hb ⟨rfl, hmore, _, hafter⟩
    | ended hb _ hend => exact .ended hb rfl ⟨rfl, hend, _, hafter⟩
  | failed f =>
    cases hd with
    | failed _ he => cases he

end Source

/-- A byte string is read alike with itself. -/
theorem ByteSource.twins : Twins fun s t : ByteSource => s = t := by
  rintro s t n rfl hn
  exact .done _ rfl

namespace GzipReader

variable {data m : Bytes}

/-- Whatever stands behind a member, a reader brings the data of the member. -/
theorem brings_member (hm : Gzip.IsMember data m) {σ : Type} [Source σ] {R : Promise σ}
    (hR : Delivers R) (hq : Rests R) {source : σ} {tail : Bytes}
    (hs : R source (m ++ tail) none) : Brings (start source) data none :=
  ⟨_, delivers hR hq,
    over_start hR hs (Gzip.lossless_member hm tail) (Gzip.unpacked_member hm tail)⟩

/-- From memory the data comes in reads of any sizes, and then nothing. -/
theorem readsOut_member (hm : Gzip.IsMember data m) (tail : Bytes) {sizes : Nat → Nat}
    (hsizes : ∀ i, 0 < sizes i) :
    ReadsOut (start (⟨m ++ tail⟩ : ByteSource)) sizes data none := by
  have hbytes := ByteSource.delivers
  have hstart := over_start hbytes (s := (⟨m ++ tail⟩ : ByteSource)) ⟨rfl, rfl⟩
    (Gzip.lossless_member hm tail) (Gzip.unpacked_member hm tail)
  have hkept := ByteSource.twins.kept hbytes hbytes
  have hbeside := start_beside hkept (s := (⟨m ++ tail⟩ : ByteSource))
    ⟨rfl, ⟨_, _, rfl, rfl⟩, ⟨_, _, rfl, rfl⟩⟩
  have hreader := twins ByteSource.twins hbytes hbytes
  exact (HandsOver.of_twins (delivers hbytes ByteSource.rests) hreader).readsOut
    ⟨rfl, hstart, _, hbeside⟩ hsizes

end GzipReader

/-! ## The main statement -/

/-- **The compressing stage loses nothing**: with any compressor, at any level, with any policy and
any draws, on a sink that takes everything, if in pieces, every call on a writer gets through. At
any time the count of its data is the number of bytes that calls have taken. At the end the sink has
one member for these bytes and just the zeros that the policy asks for, and the sizes told are those
of all three. Whatever stands behind the member, a reader gives exactly these bytes and then ends
without a failure, from memory in reads of any sizes and from any other source that stays at its
end. -/
theorem gzip_stage_lossless (C : Compressor) {σ : Type} [Sink σ] {U : Sink.Ledger σ}
    (hU : Sink.Steady U) {sink : σ} (hsink : U sink []) (level : Nat) (policy : PaddingPolicy)
    (draws : List UInt64) (calls : List SinkCall) :
    let run := Sink.run (GzipWriter.start C sink (.ofNat level) policy) calls
    let data := takenIn calls run.1
    List.Forall₂ SinkCall.GetsThrough calls run.1 ∧ run.2.plaintextLength = data.length ∧
    ∃ (m : Bytes) (sizes : StreamSizes) (sink' : σ), run.2.finish draws = (.ok sizes, sink') ∧
      U sink' (m ++ List.replicate sizes.padding 0) ∧ Gzip.IsMember data m ∧
      sizes.plaintext = data.length ∧ sizes.compressed = m.length ∧
      sizes.padding = (Padding.amount m.length policy draws).1 ∧
      sizes.total = (m ++ List.replicate sizes.padding (0 : UInt8)).length ∧
      ∀ tail : Bytes,
        (∀ {reads : Nat → Nat}, (∀ i, 0 < reads i) →
          ReadsOut (GzipReader.start (⟨m ++ tail⟩ : ByteSource)) reads data none) ∧
        ∀ {τ : Type} [Source τ] {R : Promise τ} {source : τ}, Delivers R → Rests R →
          R source (m ++ tail) none → Brings (GzipReader.start source) data none := by
  intro run data
  have hstart : GzipWriter.Over U (.ofNat level) policy
      (GzipWriter.start C sink (.ofNat level) policy) [] := GzipWriter.over_start hsink
  obtain ⟨hanswers, hw⟩ := GzipWriter.run_through hU hstart calls
  rw [List.nil_append] at hw
  obtain ⟨sizes, sink', hfinish⟩ := GzipWriter.finish_succeeds hU hw draws
  obtain ⟨m, hm, hsent, hsizes⟩ := GzipWriter.finish_ok hU.toRecords hw hfinish
  refine ⟨hanswers, hw.plaintextLength, m, sizes, sink', hfinish, hsent, hm, ?_, ?_, ?_, ?_, ?_⟩
  · rw [hsizes]
  · rw [hsizes]
  · rw [hsizes]
  · rw [hsizes, StreamSizes.total, List.length_append, List.length_replicate]
  · intro tail
    exact ⟨GzipReader.readsOut_member hm tail, fun hR hq hs => GzipReader.brings_member hm hR hq hs⟩

/-- Two strings around a flush, stored and sent in pieces of three bytes. The same member once more
behind the first one is not read. -/
theorem gzip_stage_lossless_of_stored :
    let sink : ScriptedSink := { maxWrite := some 3 }
    let run := Sink.run (GzipWriter.start Deflater.compressor sink (.ofNat 0) .bucketed)
      [.write [1, 2, 3], .flush, .writeAll [4, 5]]
    (∀ i, 0 < (fun _ : Nat => 2) i) ∧
    ∃ m sizes sink', run.2.finish [] = (.ok sizes, sink') ∧
      sink'.body = m ++ List.replicate sizes.padding 0 ∧ sizes.plaintext = 5 ∧
      ReadsOut (GzipReader.start (⟨m ++ m⟩ : ByteSource)) (fun _ => 2) [1, 2, 3, 4, 5] none := by
  intro sink run
  have hsizes : ∀ i, 0 < (fun _ : Nat => 2) i := fun _ => Nat.two_pos
  have hsink : sink.interrupts = false ∧ ScriptedSink.Faultless sink ∧ sink.Written [] :=
    ⟨rfl, ⟨by decide, rfl, rfl, rfl, rfl⟩, rfl, rfl⟩
  have hdata : takenIn [.write [1, 2, 3], .flush, .writeAll [4, 5]] run.1 = [1, 2, 3, 4, 5] := by
    decide +kernel
  obtain ⟨-, -, m, sizes, sink', hfinish, hsent, -, hplain, -, -, -, hread⟩ :=
    gzip_stage_lossless Deflater.compressor ScriptedSink.steady hsink 0 .bucketed []
      [.write [1, 2, 3], .flush, .writeAll [4, 5]]
  have hout := (hread m).1 hsizes
  rw [hdata] at hplain hout
  exact ⟨hsizes, m, sizes, sink', hfinish, hsent.2.2.1, hplain, hout⟩

end ChatBackup
