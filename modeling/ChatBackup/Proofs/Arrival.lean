import ChatBackup.Proofs.Lockstep
import ChatBackup.Proofs.Refinement

/-!
# How a backup arrives

What is read from a backup does not depend on the pieces in which its bytes arrive, nor on where a
source stands when it is opened. It does not depend on the size of the buffers either, unless a
reader loses output that it holds when the compressed data breaks the rules.

> `reading_ignores_arrival`: plain backups are read the same from all sources that bring the same
> bytes, whatever the sizes of the buffers. So are encrypted ones from all sources that hold the
> same bytes, if the buffers are of one size or nothing is lost; nothing is lost from a backup that
> a writer has sealed.

That the condition is needed is shown by an authentic backup that opens with one size of the buffers
and not with another (`broken_backup_shows_bufferLength`).

Two stacks of stages with the same buffers run in lockstep (`Lockstep`). Where nothing is lost, both
bring the payload, however it is cut into pieces.
-/

namespace ChatBackup

open Source SeekableSource

/-! ## Schedules -/

/-- A byte string that arrives by a schedule. -/
structure ScheduledSource where
  content : Bytes
  /-- Where the next read begins. -/
  position : Nat
  /-- What becomes of each read: an interruption, or at most so many bytes and one more. -/
  schedule : Nat → Option Nat
  /-- The number of reads so far. -/
  reads : Nat
  /-- The first read from which on none is interrupted. -/
  quiet : Nat
  not_interrupted : ∀ i, quiet ≤ i → schedule i ≠ none

namespace ScheduledSource

variable {content : Bytes} {s : ScheduledSource}

/-- At most `n` bytes from the position on. -/
def piece (s : ScheduledSource) (n : Nat) : Bytes := (s.content.drop s.position).take n

/-- One read. -/
def readOnce (s : ScheduledSource) (n : Nat) : Outcome Bytes × ScheduledSource :=
  match s.schedule s.reads with
  | none => (.interrupted, { s with reads := s.reads + 1 })
  | some k =>
    let piece := s.piece (min n (k + 1))
    (.done piece, { s with reads := s.reads + 1, position := s.position + piece.length })

theorem length_piece_le (s : ScheduledSource) (n : Nat) : (s.piece n).length ≤ n :=
  List.length_take_le _ _

instance : SeekableSource ScheduledSource where
  read := readOnce
  turns s := (s.content.length - s.position) + (s.quiet - s.reads)
  read_le s n b h := by
    unfold readOnce at h
    split at h
    · cases h
    next k _ =>
      cases h
      have := s.length_piece_le (min n (k + 1))
      omega
  toEnd s := (.ok s.content.length, { s with position := s.content.length })
  toStart s := (.ok (), { s with position := 0 })

/-- It brings what stands behind its position. -/
def Reading (content : Bytes) : Promise ScheduledSource := fun s b ending =>
  s.content = content ∧ b = content.drop s.position ∧ ending = none

theorem turns_eq (s : ScheduledSource) :
    turns s = (s.content.length - s.position) + (s.quiet - s.reads) := rfl

theorem delivers : Delivers (Reading content) := by
  rintro s b ending n ⟨rfl, rfl, rfl⟩ hn
  show Delivery _ s (s.content.drop s.position) none (readOnce s n)
  unfold readOnce
  split
  next hnone =>
    have hearly : s.reads < s.quiet :=
      Nat.lt_of_not_le fun hlate => s.not_interrupted s.reads hlate hnone
    refine .interrupted ⟨rfl, rfl, rfl⟩ ?_
    rw [turns_eq, turns_eq]
    show (s.content.length - s.position) + (s.quiet - (s.reads + 1)) < _
    omega
  next k _ =>
    have hsplit : s.content.drop s.position = s.piece (min n (k + 1)) ++
        s.content.drop (s.position + (s.piece (min n (k + 1))).length) :=
      drop_eq_take_append s.content s.position _
    by_cases hend : s.content.drop s.position = []
    · have hnil : s.piece (min n (k + 1)) = [] := by rw [piece, hend, List.take_nil]
      rw [hnil] at hsplit ⊢
      exact .ended hend rfl ⟨rfl, hend.symm.trans hsplit, rfl⟩
    · have hleft := List.length_pos_iff.mpr hend
      have hlen : (s.piece (min n (k + 1))).length =
          min (min n (k + 1)) (s.content.drop s.position).length := List.length_take
      rw [List.length_drop] at hleft hlen
      refine .bytes (List.length_pos_iff.mp (by omega)) hsplit ⟨rfl, rfl, rfl⟩ ?_
      rw [turns_eq, turns_eq]
      show (s.content.length - (s.position + (s.piece (min n (k + 1))).length)) +
        (s.quiet - (s.reads + 1)) < _
      omega

theorem rewinds : Rewinds (Reading content) (fun s => s.content = content) content where
  delivers := delivers
  keeps h := h.1
  toEnd {s} h := ⟨{ s with position := s.content.length }, by rw [← h]; rfl, h⟩
  toStart {s} h := ⟨{ s with position := 0 }, rfl, h, rfl, rfl⟩

/-- Whatever the schedule is, the bytes behind the position arrive. -/
theorem brings (s : ScheduledSource) : Brings s (s.content.drop s.position) none :=
  ⟨_, delivers, rfl, rfl, rfl⟩

/-- Whatever the schedule and the position are, all bytes can be read from the start. -/
theorem holds (s : ScheduledSource) : Holds s s.content := ⟨_, _, rewinds, rfl⟩

/-- Single bytes after an interruption, with the position at the end. -/
def trickle (content : Bytes) : ScheduledSource where
  content := content
  position := content.length
  schedule i := if i = 0 then none else some 0
  reads := 0
  quiet := 1
  not_interrupted i hi := by
    rw [if_neg (Nat.ne_of_gt hi)]
    exact Option.some_ne_none 0

end ScheduledSource

/-! ## Settings -/

/-- The size of the buffers is not looked at if there are buffers at all. -/
theorem ReadSettings.check_eq {c d : ReadSettings} (hc : 0 < c.bufferLength)
    (hd : 0 < d.bufferLength) (h : c.maxRecordLength = d.maxRecordLength) : c.check = d.check := by
  unfold check
  rw [h, if_neg (Nat.ne_of_gt hc), if_neg (Nat.ne_of_gt hd)]

/-! ## Plain backups -/

theorem PlainReader.observe_start {σ τ η φ : Type} [Source σ] [Source τ] [Record η] [Record φ]
    {settings settings' : ReadSettings} {source : σ} {source' : τ} {content : Bytes}
    (hcheck : settings.check = settings'.check)
    (hmax : settings.maxRecordLength = settings'.maxRecordLength) (h : Brings source content none)
    (h' : Brings source' content none) (calls : List ReaderCall) :
    observe (start source settings : Except _ (PlainReader σ η φ)) calls =
      observe (start source' settings' : Except _ (PlainReader τ η φ)) calls := by
  cases hs : settings.check with
  | error e =>
    unfold start
    rw [← hcheck, hs]
    rfl
  | ok u =>
    obtain ⟨s, hs₁, hstart⟩ := start_of_brings (η := η) (φ := φ) hs h
    obtain ⟨t, ht₁, hstart'⟩ := start_of_brings (η := η) (φ := φ) (hcheck ▸ hs) h'
    rw [hstart, hstart', hmax]
    exact observe_of_agrees agrees_matches ⟨content, none, hs₁, ht₁⟩ _ calls

/-! ## Encrypted backups -/

namespace EncryptedReader

/-- With the same buffers it cannot be seen how the ciphertext arrives. -/
theorem stagesOver_agree {σ τ : Type} [Source σ] [Source τ] {R : Promise σ} {R' : Promise τ}
    (hR : Delivers R) (hq : Rests R) (hR' : Delivers R') (hq' : Rests R') {s : σ} {t : τ}
    {c : Bytes} (hs : R s c none) (ht : R' t c none) (cipher : BlockCipher) (iv : Block)
    {bufferLength : Nat} (hpos : 0 < bufferLength) :
    ∃ S, Agrees S ∧
      S (stagesOver s cipher iv bufferLength) (stagesOver t cipher iv bufferLength) := by
  -- the promises go along because they bound the rounds of the decompressing readers
  have htwins := CbcReader.twins hR hR'
  have hdelivers := CbcReader.delivers hR hq
  have hdelivers' := CbcReader.delivers hR' hq'
  have hstart : Kept (CbcReader.Over R) (CbcReader.Over R') (CbcReader.Beside R R')
      (CbcReader.start s cipher iv bufferLength) (CbcReader.start t cipher iv bufferLength) :=
    ⟨.mk hs ht, ⟨_, _, CbcReader.over_start cipher iv bufferLength hs⟩,
      ⟨_, _, CbcReader.over_start cipher iv bufferLength ht⟩⟩
  have hgzip := GzipReader.start_beside (htwins.kept hdelivers hdelivers') hstart
  have hreaders := GzipReader.twins htwins hdelivers hdelivers'
  exact ⟨_, (Buffered.twins hreaders).agrees, .mk hpos hgzip⟩

section Observing

variable {σ τ η φ : Type} [SeekableSource σ] [SeekableSource τ] [Record η] [Record φ]
  {settings settings' : ReadSettings} {source : σ} {source' : τ} {content : Bytes}
  {key : BackupKey} {n : Nat}

/-- What is seen of an authentic backup is what is seen of its ciphertext in memory. -/
theorem observe_start_of_gate (hsettings : settings.check = .ok ()) (h : Holds source content)
    (hgate : gate key.macKey content = .ok n) (calls : List ReaderCall) :
    observe (start source key settings : Except _ (EncryptedReader σ η φ)) calls =
      observe (BackupReader.start
        (stagesOver (⟨ciphertextOf content⟩ : ByteSource) key.cipher (vectorOf content)
          settings.bufferLength) settings.maxRecordLength :
        Except _ (BackupReader _ η φ)) calls := by
  obtain ⟨R, s, hR, hq, hs, hstart⟩ := start_eq (η := η) (φ := φ) hsettings h hgate
  obtain ⟨S, hS, hstages⟩ := stagesOver_agree hR hq ByteSource.delivers ByteSource.rests hs
    ⟨rfl, rfl⟩ key.cipher (vectorOf content) (settings.bufferLength_pos hsettings)
  rw [hstart]
  exact observe_of_agrees hS hstages _ calls

/-- If nothing gets lost the size of the buffers cannot be seen. -/
theorem observe_start_of_lossless (hsettings : settings.check = .ok ())
    (hsettings' : settings'.check = .ok ())
    (hmax : settings.maxRecordLength = settings'.maxRecordLength) (h : Holds source content)
    (h' : Holds source' content) (hgate : gate key.macKey content = .ok n)
    (hlossless : Lossless key content) (calls : List ReaderCall) :
    observe (start source key settings : Except _ (EncryptedReader σ η φ)) calls =
      observe (start source' key settings' : Except _ (EncryptedReader τ η φ)) calls := by
  obtain ⟨payload, last, hpayload⟩ : ∃ payload last, payloadOf key content = (payload, last) :=
    ⟨_, _, rfl⟩
  obtain ⟨R, s, hR, hq, hs, hstart⟩ := start_eq (η := η) (φ := φ) hsettings h hgate
  obtain ⟨R', t, hR', hq', ht, hstart'⟩ := start_eq (η := η) (φ := φ) hsettings' h' hgate
  have hbrings := stagesOver_brings hR hq hs hlossless hpayload
    (settings.bufferLength_pos hsettings)
  have hbrings' := stagesOver_brings hR' hq' ht hlossless hpayload
    (settings'.bufferLength_pos hsettings')
  rw [hstart, hstart', hmax]
  exact observe_of_agrees agrees_matches ⟨payload, last, hbrings, hbrings'⟩ _ calls

theorem observe_start (hcheck : settings.check = settings'.check)
    (hmax : settings.maxRecordLength = settings'.maxRecordLength) (h : Holds source content)
    (h' : Holds source' content)
    (hbuffer : settings.bufferLength = settings'.bufferLength ∨
      ∀ n, gate key.macKey content = .ok n → Lossless key content) (calls : List ReaderCall) :
    observe (start source key settings : Except _ (EncryptedReader σ η φ)) calls =
      observe (start source' key settings' : Except _ (EncryptedReader τ η φ)) calls := by
  cases hs : settings.check with
  | error e =>
    unfold start
    rw [← hcheck, hs]
    rfl
  | ok u =>
    have hs' : settings'.check = .ok () := hcheck ▸ hs
    cases hgate : gate key.macKey content with
    | error e =>
      rw [start_of_gate_error hs h hgate, start_of_gate_error hs' h' hgate]
      rfl
    | ok n =>
      rcases hbuffer with hsize | hlossless
      · -- both are what is seen of the ciphertext in memory
        rw [observe_start_of_gate hs h hgate, observe_start_of_gate hs' h' hgate, hsize, hmax]
      · exact observe_start_of_lossless hs hs' hmax h h' hgate (hlossless n hgate) calls

end Observing
end EncryptedReader

/-! ## The main statement -/

/-- **What is read does not depend on how a backup arrives**: with buffers of any sizes and the same
longest record, a plain backup is read from any source as from its bytes in memory, and so is an
encrypted backup, wherever its source stands, if the buffers are of one size or what is authentic is
read without loss. A backup that a writer has sealed is, and the sources are those of all
schedules. -/
theorem reading_ignores_arrival {η φ : Type} [Record η] [Record φ]
    {settings settings' : ReadSettings} (hbuffer : 0 < settings.bufferLength)
    (hbuffer' : 0 < settings'.bufferLength)
    (hmax : settings.maxRecordLength = settings'.maxRecordLength) (calls : List ReaderCall) :
    (∀ {σ : Type} [Source σ] (source : σ) (content : Bytes), Brings source content none →
      observe (PlainReader.start source settings : Except _ (PlainReader σ η φ)) calls =
        observe (PlainReader.start (⟨content⟩ : ByteSource) settings' :
          Except _ (PlainReader ByteSource η φ)) calls) ∧
    (∀ {σ : Type} [SeekableSource σ] (source : σ) (content : Bytes) (key : BackupKey),
      Holds source content →
      (settings.bufferLength = settings'.bufferLength ∨
        ∀ n, gate key.macKey content = .ok n → EncryptedReader.Lossless key content) →
      observe (EncryptedReader.start source key settings : Except _ (EncryptedReader σ η φ)) calls =
        observe (EncryptedReader.start (ScriptedSource.ofBytes content) key settings' :
          Except _ (EncryptedReader ScriptedSource η φ)) calls) ∧
    (∀ (key : BackupKey) (iv : Block) (payload content : Bytes),
      EncryptedOutput.IsSealed key iv payload content → EncryptedReader.Lossless key content) ∧
    ∀ s : ScheduledSource, Brings s (s.content.drop s.position) none ∧ Holds s s.content := by
  have hcheck := ReadSettings.check_eq hbuffer hbuffer' hmax
  refine ⟨?_, ?_, ?_, ?_⟩
  · intro σ _ source content h
    exact PlainReader.observe_start hcheck hmax h (ByteSource.brings content) calls
  · intro σ _ source content key h hsize
    exact EncryptedReader.observe_start hcheck hmax h (ScriptedSource.holds_ofBytes content) hsize
      calls
  · intro key iv payload content hs
    exact EncryptedReader.lossless_sealed hs
  · intro s
    exact ⟨s.brings, s.holds⟩

/-- A sealed backup that arrives in single bytes and is read with buffers of one byte. -/
theorem reading_ignores_arrival_of_single_bytes :
    let key : BackupKey := ⟨List.replicate 32 1, List.replicate 32 2, rfl, rfl⟩
    ∃ (sink : ScriptedSink) (s : Bytes), sink.bytes = s ∧
      EncryptedOutput.IsSealed key .zero [5, 1, 2] s ∧
      ∀ calls,
        observe (EncryptedReader.start (ScheduledSource.trickle s) key { bufferLength := 1 } :
          Except _ (EncryptedReader ScheduledSource BackupInfo Frame)) calls =
        observe (EncryptedReader.start (ScriptedSource.ofBytes s) key {} :
          Except _ (EncryptedReader ScriptedSource BackupInfo Frame)) calls := by
  intro key
  obtain ⟨w, o, counts, sink, s, -, -, -, ⟨-, hbytes⟩, hsealed⟩ :=
    EncryptedWriter.builds Deflater.compressor ScriptedSink.takes
      ⟨ScriptedSink.faultless_new, ScriptedSink.written_new⟩ key .zero []
      (show WriteSettings.check {} = .ok () from rfl) [[5, 1], [2]]
  refine ⟨sink, s, hbytes, hsealed, ?_⟩
  intro calls
  have hbuffer : 0 < ({ bufferLength := 1 } : ReadSettings).bufferLength := Nat.one_pos
  have hbuffer' : 0 < ({} : ReadSettings).bufferLength := Nat.succ_pos _
  obtain ⟨-, hencrypted, hlossless, hschedules⟩ :=
    reading_ignores_arrival (η := BackupInfo) (φ := Frame) hbuffer hbuffer' rfl calls
  exact hencrypted _ _ key (hschedules (ScheduledSource.trickle s)).2
    (Or.inr fun _ _ => hlossless key .zero [5, 1, 2] s hsealed)

/-! ## A backup that is read with loss -/

/-- A member whose data breaks the rules behind its first block: twenty zeros as they stand, then a
block of a kind that there is not. -/
def brokenMember : Bytes :=
  Gzip.header (.ofNat 0) ++ [0, 20, 0, 235, 255] ++ List.replicate 20 0 ++ [7] ++
    List.replicate 27 0

example : ¬ Gzip.Lossless brokenMember none := by decide +kernel

/-- The keys of a backup with that member. -/
def brokenKey : BackupKey := ⟨List.replicate 32 7, List.replicate 32 9, rfl, rfl⟩

/-- The part of that backup in front of its authentication code. -/
def brokenBody : Bytes := Block.zero.toBytes ++ Cbc.sealed brokenKey.cipher .zero brokenMember

/-- An authentic backup with that member. -/
def brokenBackup : Bytes := brokenBody ++ Hmac.hash brokenKey.macKey brokenBody

/-- What is seen of the backup is what is seen of its ciphertext. -/
theorem observe_brokenBackup {settings : ReadSettings} (hsettings : settings.check = .ok ())
    (calls : List ReaderCall) :
    observe (EncryptedReader.start (ScriptedSource.ofBytes brokenBackup) brokenKey settings :
        Except _ (EncryptedReader ScriptedSource BackupInfo Frame)) calls =
      observe (BackupReader.start (EncryptedReader.stagesOver
        (⟨Cbc.sealed brokenKey.cipher .zero brokenMember⟩ : ByteSource) brokenKey.cipher .zero
        settings.bufferLength) settings.maxRecordLength :
        Except _ (BackupReader _ BackupInfo Frame)) calls := by
  have hlen : brokenBody.length = 80 := by
    rw [brokenBody, List.length_append, Block.length_toBytes, Cbc.length_sealed]
    rfl
  have hgate : gate brokenKey.macKey brokenBackup = .ok brokenBody.length :=
    gate_append (by rw [hlen]; exact Nat.le_add_right 64 48)
  obtain ⟨hiv, hc⟩ : EncryptedReader.vectorOf brokenBackup = .zero ∧
      EncryptedReader.ciphertextOf brokenBackup =
        Cbc.sealed brokenKey.cipher .zero brokenMember :=
    EncryptedReader.parts_append .zero _ (Hmac.length_hash _ _)
  rw [EncryptedReader.observe_start_of_gate hsettings (ScriptedSource.holds_ofBytes _) hgate, hiv,
    hc]

/-- With a buffer of one byte the records in front of the fault are read one by one, so the backup
opens. With a large buffer the fault is met by the first read, and they are lost. -/
theorem broken_backup_shows_bufferLength :
    observe (EncryptedReader.start (ScriptedSource.ofBytes brokenBackup) brokenKey
        { bufferLength := 1 } : Except _ (EncryptedReader ScriptedSource BackupInfo Frame)) [] ≠
      observe (EncryptedReader.start (ScriptedSource.ofBytes brokenBackup) brokenKey
        { bufferLength := 8192 } :
        Except _ (EncryptedReader ScriptedSource BackupInfo Frame)) [] := by
  rw [observe_brokenBackup rfl, observe_brokenBackup rfl]
  intro heq
  have hsmall : (observe (BackupReader.start (EncryptedReader.stagesOver
      (⟨Cbc.sealed brokenKey.cipher .zero brokenMember⟩ : ByteSource) brokenKey.cipher .zero 1)
      16777216 : Except _ (BackupReader _ BackupInfo Frame)) []).isOk = true := by
    decide +kernel
  have hlarge : (observe (BackupReader.start (EncryptedReader.stagesOver
      (⟨Cbc.sealed brokenKey.cipher .zero brokenMember⟩ : ByteSource) brokenKey.cipher .zero 8192)
      16777216 : Except _ (BackupReader _ BackupInfo Frame)) []).isOk = false := by
    decide +kernel
  rw [heq, hlarge] at hsmall
  cases hsmall

end ChatBackup
