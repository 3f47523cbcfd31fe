import ChatBackup.Proofs.Accounting
import ChatBackup.Proofs.Layout

/-!
# What the size of an encrypted backup tells

Whoever sees the size of an encrypted backup learns the bucket of its compressed length and nothing
finer:

> `output_size_reveals_bucket`: the size of a complete backup is a function of the sum of the
> compressed length and the padding alone (`outputLength`). With bucketed padding that sum is the
> bucket, so that any two backups of one bucket have the same size; with random padding it lies
> between the length itself and the bucket of the next length; without padding it is the length.

Where a bucket ends is computed in floating point. Nothing here looks into that: the bounds are
proved of `Padding.amountBy`, which takes any numbers of 64 bits for the ends of buckets, and
`Padding.amount` is the case of the numbers that are computed (`Padding.amount_eq`).
-/

namespace ChatBackup

open Sink

/-! ## Padding for any ends of buckets -/

namespace Padding

/-- The end of the bucket of a length, where `ends` tells what was computed for it. -/
def sizeBy (ends : Nat → UInt64) (length : Nat) : Nat :=
  if length ≤ firstBucket then firstBucket else max (ends length).toNat length

/-- The padding after `length` bytes, and the number of draws it took. -/
def amountBy (ends : Nat → UInt64) (length : Nat) (policy : PaddingPolicy)
    (draws : List UInt64) : Nat × Nat :=
  match policy with
  | .disabled => (0, 0)
  | .bucketed => (sizeBy ends length - length, 0)
  | .randomized => uniform (sizeBy ends (min (length + 1) maxUInt64) - length) draws

/-- The ends of buckets as they are computed. -/
def computedEnd (length : Nat) : UInt64 := .ofNat (bucketEnd length)

theorem toNat_computedEnd (length : Nat) : (computedEnd length).toNat = bucketEnd length := by
  rw [computedEnd, UInt64.toNat_ofNat']
  exact Nat.mod_eq_of_lt (UInt64.toNat_lt _)

theorem bucketSize_eq (length : Nat) : bucketSize length = sizeBy computedEnd length := by
  rw [bucketSize, sizeBy, toNat_computedEnd]

theorem bucketSize_of_le {length : Nat} (h : length ≤ firstBucket) :
    bucketSize length = firstBucket := if_pos h

/-- The padding of a backup is the one for the ends that are computed. -/
theorem amount_eq (length : Nat) (policy : PaddingPolicy) (draws : List UInt64) :
    amount length policy draws = amountBy computedEnd length policy draws := by
  cases policy with
  | randomized => rw [amount, amountBy, maxRandom, bucketSize_eq]
  | bucketed => rw [amount, amountBy, bucketSize_eq]
  | disabled => rfl

variable (ends : Nat → UInt64)

theorem le_sizeBy (n : Nat) : n ≤ sizeBy ends n := by
  unfold sizeBy
  split <;> omega

/-- A trial never leaves its range. -/
theorem trial_lt {range n : Nat} {draw : UInt64} (h : trial range draw.toNat = some n)
    (hpos : 0 < range) : n < range := by
  unfold trial at h
  simp only at h
  split at h
  · cases h
    have hdraw : draw.toNat < UInt64.size := UInt64.toNat_lt draw
    apply Nat.div_lt_of_lt_mul
    exact Nat.mul_lt_mul_of_pos_right hdraw hpos
  · cases h

theorem uniform_le (most : Nat) (draws : List UInt64) : (uniform most draws).1 ≤ most := by
  induction draws with
  | nil => exact Nat.zero_le most
  | cons draw draws ih =>
    unfold uniform
    split
    next hall =>
      have hdraw := UInt64.toNat_lt draw
      show draw.toNat ≤ most
      rw [hall, maxUInt64, UInt64.size]
      omega
    · split
      next n htrial => exact Nat.le_of_lt_succ (trial_lt htrial (Nat.succ_pos most))
      next => exact ih

/-- No bucket ends behind the numbers of 64 bits, as long as the length is one of them. -/
theorem sizeBy_le {n : Nat} (h : n ≤ maxUInt64) : sizeBy ends n ≤ maxUInt64 := by
  have hend := UInt64.toNat_lt (ends n)
  unfold sizeBy
  rw [maxUInt64, UInt64.size] at *
  split
  · decide
  · omega

/-- Padding that is drawn stays in the bucket of the next length. -/
theorem add_drawn_le (c : Nat) (draws : List UInt64) :
    c + (amountBy ends c .randomized draws).1 ≤ sizeBy ends (c + 1) := by
  have hdrawn := uniform_le (sizeBy ends (min (c + 1) maxUInt64) - c) draws
  have hnext := le_sizeBy ends (c + 1)
  show c + (uniform (sizeBy ends (min (c + 1) maxUInt64) - c) draws).1 ≤ _
  by_cases hc : c + 1 ≤ maxUInt64
  · rw [Nat.min_eq_left hc] at hdrawn ⊢
    omega
  · -- there is no room left for padding behind the greatest number
    have hsize := sizeBy_le ends (Nat.min_le_right (c + 1) maxUInt64)
    omega

end Padding

/-- The length of a backup whose compressed stream has a given length with its padding: the
initialisation vector, the blocks of the ciphertext, the last of them never empty of padding of its
own, and the authentication code. -/
def outputLength (total : Nat) : Nat := 48 + 16 * (total / 16 + 1)

theorem outputLength_mono {m n : Nat} (h : m ≤ n) : outputLength m ≤ outputLength n := by
  have hdiv := Nat.div_le_div_right (c := 16) h
  rw [outputLength, outputLength]
  omega

/-- What a policy makes of a compressed length `c` and its padding `p`, and so of the length of the
output, where `ends` tells the ends of buckets. -/
structure Padding.Hides (ends : Nat → UInt64) (policy : PaddingPolicy) (c p : Nat) : Prop where
  bucketed : policy = .bucketed → c + p = Padding.sizeBy ends c
  randomized : policy = .randomized → outputLength c ≤ outputLength (c + p) ∧
    outputLength (c + p) ≤ outputLength (Padding.sizeBy ends (c + 1))
  disabled : policy = .disabled → p = 0

theorem Padding.hides (ends : Nat → UInt64) (policy : PaddingPolicy) (c : Nat)
    (draws : List UInt64) :
    Padding.Hides ends policy c (Padding.amountBy ends c policy draws).1 where
  bucketed h := by
    subst h
    have hle := Padding.le_sizeBy ends c
    show c + (Padding.sizeBy ends c - c) = _
    omega
  randomized h := by
    subst h
    exact ⟨outputLength_mono (Nat.le_add_right c _),
      outputLength_mono (Padding.add_drawn_le ends c draws)⟩
  disabled h := by
    subst h
    rfl

theorem EncryptedOutput.length_bodyOf (key : BackupKey) (iv : Block) (policy : PaddingPolicy)
    (draws : List UInt64) (m : Bytes) : (bodyOf key iv policy draws m).length =
      16 + 16 * ((m.length + (Padding.amount m.length policy draws).1) / 16 + 1) := by
  rw [bodyOf, List.length_append, Block.length_toBytes, Cbc.length_sealed, List.length_append,
    List.length_replicate]
  rfl

/-! ## Complete backups -/

/-- A backup that was written by any calls, on a sink under a log, and closed with success. -/
structure CompleteBackup (σ : Type) [AppendSink σ] where
  compressor : Compressor
  sink : σ
  key : BackupKey
  iv : Block
  draws : List UInt64
  settings : WriteSettings
  calls : List WriterCall
  writer : EncryptedWriter compressor (Logged σ)
  opened : EncryptedWriter.start compressor ⟨sink, []⟩ key iv draws settings = .ok writer
  closed : (WriterCall.close, .ok ()) ∈ (writer.run calls).1

namespace CompleteBackup

variable {σ : Type} [AppendSink σ] {T E : Ledger σ} (r : CompleteBackup σ)

/-- The records that were accepted. -/
def records : Bytes := WriterCall.sent (r.writer.run r.calls).1

/-- The writer after all calls. -/
def last : EncryptedWriter r.compressor (Logged σ) := (r.writer.run r.calls).2

/-- The length of the compressed records, as the writer has counted it. -/
def compressed : Nat := r.last.counts.compressedBytes

/-- The number of zeros behind the compressed records, as the writer has counted it. -/
def padding : Nat := r.last.counts.paddingBytes

/-- All bytes that the sink was given. -/
def output : Bytes :=
  match r.last.output with
  | .finished s => given s.log
  | _ => []

/-- What the calls of a backup are counted to is what it has counted. -/
theorem compressed_eq {n : Nat}
    (h : (EncryptedWriter.start r.compressor (Logged.mk r.sink []) r.key r.iv r.draws
      r.settings).toOption.map (fun w => (w.run r.calls).2.counts.compressedBytes) = some n) :
    r.compressed = n := by
  rw [r.opened] at h
  exact Option.some.inj h

theorem state_last : r.last.state = .closed := by
  have hcreated := (EncryptedWriter.start_ok (Logged.enters (σ := σ)).records
    (Logged.accepted_new r.sink) r.opened).1
  have hpath := (BackupWriter.run_path EncryptedOutput.ready r.calls
    (EncryptedWriter.start_sound r.opened)).1
  exact hpath.closed_of_close r.closed

/-- The writer has finished the stages of an output that took the records. -/
theorem completed : ∃ (stages : EncryptStages r.compressor (Logged σ)) (s : Logged σ)
    (c : BackupCounts), r.last.output = .finished s ∧ c.RecordsOnly ∧
    GzipWriter.Over (EncryptedOutput.Below Logged.Accepted r.key r.iv)
      (.ofNat r.settings.compressionLevel) r.settings.padding stages r.records ∧
    EncryptedOutput.finishStages stages r.draws c = (.ok (), r.last.counts, s) := by
  obtain ⟨hstate, hcounts, hcarries⟩ := EncryptedWriter.start_ok (Logged.enters (σ := σ)).records
    (Logged.accepted_new r.sink) r.opened
  obtain ⟨stages, hout⟩ := EncryptedWriter.start_draws r.opened
  have hwriter : BackupWriter.Accounts
      (EncryptedOutput.CarriesDraws Logged.Accepted r.key r.iv
        (.ofNat r.settings.compressionLevel) r.settings.padding r.draws) r.writer [] := by
    rw [BackupWriter.Accounts, hstate, hcounts]
    rw [hout] at hcarries ⊢
    exact ⟨⟨stages, rfl, hcarries⟩, BackupCounts.recordsOnly_new⟩
  have hlast := BackupWriter.run_accounts EncryptedOutput.outputs_layout r.calls hwriter
  rw [BackupWriter.Accounts, show (r.writer.run r.calls).2.state = .closed from r.state_last,
    List.nil_append] at hlast
  obtain ⟨o, c, ⟨stages, rfl, hover⟩, hc, hcomplete⟩ := hlast
  simp only [RecordOutput.complete] at hcomplete
  split at hcomplete
  next counts s hfinish =>
    injection hcomplete with _ hcomplete
    injection hcomplete with hcounts hout
    rw [hcounts] at hfinish
    exact ⟨stages, s, c, hout.symm, hc, hover, hfinish⟩
  next => cases hcomplete

/-- A complete backup holds one member for the records that were accepted. Its length and the
padding that the policy asks for are as they were counted, and make up the length of the output. -/
theorem sizes : ∃ m, Gzip.IsMember r.records m ∧ r.compressed = m.length ∧
    r.padding = (Padding.amount m.length r.settings.padding r.draws).1 ∧
    r.output.length = outputLength (r.compressed + r.padding) := by
  obtain ⟨stages, s, c, hout, hc, hover, hfinish⟩ := r.completed
  obtain ⟨m, inner, hm, ⟨hbody, hunclosed⟩, hmac, hcounts⟩ :=
    EncryptedOutput.finishStages_body Logged.enters.records hover hfinish
  have hcompressed : r.compressed = m.length := by
    rw [compressed, hcounts]
    show c.compressedBytes + m.length = m.length
    rw [hc.compressed, Nat.zero_add]
  have hpadding : r.padding = (Padding.amount m.length r.settings.padding r.draws).1 := by
    rw [padding, hcounts]
    show c.paddingBytes + _ = _
    rw [hc.padding, Nat.zero_add]
  refine ⟨m, hm, hcompressed, hpadding, ?_⟩
  have hlog := EncryptedOutput.appendMac_log hmac
  have htail : given [.append (Hmac.hash r.key.macKey (EncryptedOutput.bodyOf r.key r.iv
      r.settings.padding r.draws m)) (.ok ()), .flush (.ok ())] = Hmac.hash r.key.macKey _ :=
    List.append_nil _
  have houtput : r.output = given s.log := by rw [output, hout]
  rw [houtput, hlog, given_append, given_of_unclosed hunclosed, hbody, htail, List.length_append,
    Hmac.length_hash, EncryptedOutput.length_bodyOf, hcompressed, hpadding, outputLength,
    Sha256.digestLength]
  omega

/-- The output is what the sink holds by any ledger of what it takes. -/
theorem held (hT : AppendSink.TakesAll T E) (hs : T r.sink []) :
    ∃ s, r.last.output = .finished s ∧ E s.inner r.output := by
  obtain ⟨s, b, hout, ⟨hE, hgiven⟩, -⟩ := EncryptedWriter.run_sealed (Logged.recordsAll_held hT)
    ⟨hs, Logged.accepted_new r.sink⟩ r.opened r.calls r.state_last
  have houtput : r.output = given s.log := by
    rw [output, show r.last.output = .finished s from hout]
  refine ⟨s, hout, ?_⟩
  rw [houtput, hgiven]
  exact hE

theorem hides : Padding.Hides Padding.computedEnd r.settings.padding r.compressed r.padding := by
  obtain ⟨m, -, hcompressed, hpadding, -⟩ := r.sizes
  rw [hpadding, hcompressed, Padding.amount_eq]
  exact Padding.hides _ _ _ _

end CompleteBackup

/-! ## The main statement -/

/-- **The size of an encrypted backup reveals its padding bucket and nothing finer.** A complete
backup, of any records, by any key, with any compressor, at any level and on any sink, holds one
member, whose length `c` is counted as compressed, and its size depends on the sum of `c` and the
padding `p` alone. Bucketed padding fills the bucket up, so that two backups of one bucket have the
same size; random padding keeps the size between that of no padding and that of the bucket of the
next length; disabled padding is none. Such bounds hold for any ends of buckets that might be
computed. Where the sink takes everything these are the bytes it holds, and any calls with a header
make a backup that is complete once it is closed. -/
theorem output_size_reveals_bucket :
    (∀ (ends : Nat → UInt64) (policy : PaddingPolicy) (c : Nat) (draws : List UInt64),
      Padding.Hides ends policy c (Padding.amountBy ends c policy draws).1) ∧
    (∀ {σ : Type} [AppendSink σ] (r : CompleteBackup σ),
      (∃ m, Gzip.IsMember r.records m ∧ r.compressed = m.length) ∧
      r.padding =
        (Padding.amountBy Padding.computedEnd r.compressed r.settings.padding r.draws).1 ∧
      r.output.length = 48 + 16 * ((r.compressed + r.padding) / 16 + 1)) ∧
    (∀ {σ τ : Type} [AppendSink σ] [AppendSink τ] (r : CompleteBackup σ) (q : CompleteBackup τ),
      r.settings.padding = .bucketed → q.settings.padding = .bucketed →
      r.compressed + r.padding = Padding.bucketSize r.compressed ∧
      (Padding.bucketSize r.compressed = Padding.bucketSize q.compressed →
        r.output.length = q.output.length)) ∧
    (∀ {σ : Type} [AppendSink σ] (r : CompleteBackup σ), r.settings.padding = .randomized →
      48 + 16 * (r.compressed / 16 + 1) ≤ r.output.length ∧
      r.output.length ≤ 48 + 16 * (Padding.bucketSize (r.compressed + 1) / 16 + 1)) ∧
    (∀ {σ : Type} [AppendSink σ] (r : CompleteBackup σ), r.settings.padding = .disabled →
      r.padding = 0) ∧
    (∀ {σ : Type} [AppendSink σ] {T E : Ledger σ}, AppendSink.TakesAll T E →
      (∀ r : CompleteBackup σ, T r.sink [] →
        ∃ s, r.last.output = .finished s ∧ E s.inner r.output) ∧
      ∀ (C : Compressor) (sink : σ) (key : BackupKey) (iv : Block) (draws : List UInt64)
        (settings : WriteSettings), T sink [] → settings.check = .ok () →
        ∀ {α : Type} [Record α] (before : List WriterCall) (a : α) (between : List WriterCall),
          ∃ r : CompleteBackup σ, r.compressor = C ∧ r.sink = sink ∧ r.key = key ∧ r.iv = iv ∧
            r.draws = draws ∧ r.settings = settings ∧
            r.calls = before ++ .header a :: between ++ [.close]) := by
  refine ⟨Padding.hides, ?_, ?_, ?_, ?_, ?_⟩
  · intro σ _ r
    obtain ⟨m, hm, hcompressed, hpadding, hlength⟩ := r.sizes
    refine ⟨⟨m, hm, hcompressed⟩, ?_, hlength⟩
    rw [← Padding.amount_eq, hpadding, hcompressed]
  · intro σ τ _ _ r q hr hq
    obtain ⟨-, -, -, -, hlength⟩ := r.sizes
    obtain ⟨-, -, -, -, hlength'⟩ := q.sizes
    have hbucket := r.hides.bucketed hr
    have hbucket' := q.hides.bucketed hq
    rw [← Padding.bucketSize_eq] at hbucket hbucket'
    refine ⟨hbucket, ?_⟩
    intro hsame
    rw [hlength, hlength', hbucket, hbucket', hsame]
  · intro σ _ r hr
    obtain ⟨-, -, -, -, hlength⟩ := r.sizes
    obtain ⟨hleast, hmost⟩ := r.hides.randomized hr
    rw [← Padding.bucketSize_eq] at hmost
    rw [hlength]
    exact ⟨hleast, hmost⟩
  · intro σ _ r hr
    exact r.hides.disabled hr
  · intro σ _ T E hT
    refine ⟨fun r hs => r.held hT hs, ?_⟩
    intro C sink key iv draws settings hs hsettings α _ before a between
    have hlogged := Logged.takesAll hT
    have hnew : T (Logged.mk sink []).inner [] ∧ Logged.Accepted (Logged.mk sink []) [] :=
      ⟨hs, Logged.accepted_new sink⟩
    obtain ⟨w, hw⟩ := EncryptedWriter.start_succeeds C hlogged.toTakes hnew key iv draws hsettings
    have hclosed := EncryptedWriter.run_closes hlogged hnew hw before a between
    exact ⟨⟨C, sink, key, iv, draws, settings, _, w, hw, hclosed⟩, rfl, rfl, rfl, rfl, rfl, rfl,
      rfl⟩

/-- Two backups of different records by different keys that both fill the first bucket. -/
theorem output_size_reveals_bucket_of_two :
    let settings : WriteSettings := { compressionLevel := 0, padding := .bucketed }
    let key : BackupKey := ⟨List.replicate 32 1, List.replicate 32 2, rfl, rfl⟩
    let other : BackupKey := ⟨List.replicate 32 3, List.replicate 32 4, rfl, rfl⟩
    let calls : List WriterCall := [] ++ .header ({} : BackupInfo) :: [] ++ [.close]
    let more : List WriterCall :=
      [] ++ .header ({} : BackupInfo) :: [.frame (Frame.recipient 7)] ++ [.close]
    ∃ r q : CompleteBackup ScriptedSink, r.key = key ∧ q.key = other ∧ r.settings = settings ∧
      q.settings = settings ∧ r.calls = calls ∧ q.calls = more ∧ r.compressed < q.compressed ∧
      r.output.length = q.output.length := by
  intro settings key other calls more
  let sink : Logged ScriptedSink := ⟨{}, []⟩
  have hsize : (EncryptedWriter.start Deflater.compressor sink key .zero [] settings).toOption.map
      (fun w => (w.run calls).2.counts.compressedBytes) = some 24 := by decide +kernel
  have hsize' : (EncryptedWriter.start Deflater.compressor sink other .zero []
      settings).toOption.map (fun w => (w.run more).2.counts.compressedBytes) = some 29 := by
    decide +kernel
  have hnew : ScriptedSink.Faultless {} ∧ ScriptedSink.Written {} [] :=
    ⟨ScriptedSink.faultless_new, ScriptedSink.written_new⟩
  obtain ⟨-, -, htwo, -, -, hmake⟩ := output_size_reveals_bucket
  obtain ⟨r, hcompressor, hsink, hkey, hiv, hdraws, hr, hcalls⟩ :=
    (hmake ScriptedSink.takes).2 Deflater.compressor {} key .zero [] settings hnew rfl []
      ({} : BackupInfo) []
  obtain ⟨q, hcompressor', hsink', hkey', hiv', hdraws', hq, hmore⟩ :=
    (hmake ScriptedSink.takes).2 Deflater.compressor {} other .zero [] settings hnew rfl []
      ({} : BackupInfo) [.frame (Frame.recipient 7)]
  have hcompressed : r.compressed = 24 := by
    apply r.compressed_eq
    rw [hcompressor, hsink, hkey, hiv, hdraws, hr, hcalls]
    exact hsize
  have hcompressed' : q.compressed = 29 := by
    apply q.compressed_eq
    rw [hcompressor', hsink', hkey', hiv', hdraws', hq, hmore]
    exact hsize'
  have hbucket : Padding.bucketSize r.compressed = Padding.bucketSize q.compressed := by
    rw [hcompressed, hcompressed', Padding.bucketSize_of_le (by decide),
      Padding.bucketSize_of_le (by decide)]
  have hlength := (htwo r q (by rw [hr]) (by rw [hq])).2 hbucket
  refine ⟨r, q, hkey, hkey', hr, hq, hcalls, hmore, ?_, hlength⟩
  rw [hcompressed, hcompressed']
  decide

end ChatBackup
