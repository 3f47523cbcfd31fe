import ChatBackup.Backup.Plain
import ChatBackup.Proofs.Authentication
import ChatBackup.Proofs.Decompression
import ChatBackup.Proofs.Reading

/-!
# An encrypted backup reads like its payload

Encryption, compression and padding cannot be seen by a reader. Whatever the payload is, records or
not, an encrypted backup of it is read as if the payload stood there plainly:

> `encrypted_refines_plain`: opening comes to the same header or error, and so does every call
> afterwards.

The stages are peeled off from the inside out (`EncryptedReader.stagesOver_brings`), each with the
promise of the one below, until a source is left that brings the payload and ends cleanly after it.
-/

namespace ChatBackup

open Source SeekableSource EncryptedOutput

theorem ReadSettings.bufferLength_pos (settings : ReadSettings) (h : settings.check = .ok ()) :
    0 < settings.bufferLength := by
  unfold check at h
  split at h
  · cases h
  · split at h
    · cases h
    · omega

namespace EncryptedReader

/-! ## What an encrypted backup is decrypted to -/

/-- The initialisation vector, which stands in front of a backup. -/
def vectorOf (content : Bytes) : Block :=
  Block.first ((authenticatedPart content).take blockLength)

/-- The ciphertext between the initialisation vector and the authentication code. -/
def ciphertextOf (content : Bytes) : Bytes := (authenticatedPart content).drop blockLength

theorem parts_append (iv : Block) (c : Bytes) {tag : Bytes}
    (h : tag.length = Sha256.digestLength) :
    vectorOf (iv.toBytes ++ c ++ tag) = iv ∧ ciphertextOf (iv.toBytes ++ c ++ tag) = c := by
  have hlen : blockLength = iv.toBytes.length := (Block.length_toBytes iv).symm
  have hfirst : Block.first iv.toBytes = iv := by
    have h := Block.ofBytes_toBytes_append iv []
    rw [List.append_nil] at h
    rw [Block.first, h]
    rfl
  rw [vectorOf, ciphertextOf, authenticatedPart_append _ h, hlen, List.take_left, List.drop_left]
  exact ⟨hfirst, rfl⟩

/-- What the ciphertext is opened to, and how it ends. -/
def decrypted (key : BackupKey) (content : Bytes) : Bytes × Option Failure :=
  Cbc.opened key.cipher (vectorOf content) (ciphertextOf content)

/-- The payload of a backup, and how it ends. -/
def payloadOf (key : BackupKey) (content : Bytes) : Bytes × Option Failure :=
  Gzip.unpacked (decrypted key content).1 (decrypted key content).2

/-- Nothing of the payload is lost on the way, in whatever pieces it is asked for. -/
def Lossless (key : BackupKey) (content : Bytes) : Prop :=
  Gzip.Lossless (decrypted key content).1 (decrypted key content).2

section Sealed

variable {key : BackupKey} {iv : Block} {payload s : Bytes}

/-- A sealed backup is decrypted to a member with zeros behind it. -/
theorem decrypted_of_sealed (hs : IsSealed key iv payload s) :
    ∃ m padding, Gzip.IsMember payload m ∧
      decrypted key s = (m ++ List.replicate padding 0, none) := by
  obtain ⟨body, ⟨m, padding, hm, rfl⟩, rfl⟩ := hs
  refine ⟨m, padding, hm, ?_⟩
  obtain ⟨hiv, hc⟩ := parts_append iv (Cbc.sealed key.cipher iv (m ++ List.replicate padding 0))
    (Hmac.length_hash key.macKey _)
  rw [decrypted, hiv, hc, Cbc.opened_sealed]

/-- The payload of a sealed backup is the one it was built from. -/
theorem payloadOf_sealed (hs : IsSealed key iv payload s) :
    payloadOf key s = (payload, none) := by
  obtain ⟨m, padding, hm, hdec⟩ := decrypted_of_sealed hs
  rw [payloadOf, hdec]
  exact Gzip.unpacked_member hm _

/-- A sealed backup is read without loss. -/
theorem lossless_sealed (hs : IsSealed key iv payload s) : Lossless key s := by
  obtain ⟨m, padding, hm, hdec⟩ := decrypted_of_sealed hs
  rw [Lossless, hdec]
  exact Gzip.lossless_member hm _

end Sealed

/-! ## Opening -/

/-- The stages over a source of ciphertext. -/
def stagesOver {τ : Type} [Source τ] (ciphertext : τ) (cipher : BlockCipher) (iv : Block)
    (bufferLength : Nat) : Buffered (GzipReader (CbcReader τ)) :=
  { inner := GzipReader.start (CbcReader.start ciphertext cipher iv bufferLength)
    capacity := bufferLength }

/-- The stages bring what the ciphertext stands for if nothing of it gets lost. -/
theorem stagesOver_brings {τ : Type} [Source τ] {R : Promise τ} {source : τ} (hR : Delivers R)
    (hq : Rests R) {c payload : Bytes} (h : R source c none) {cipher : BlockCipher} {iv : Block}
    {last : Option Failure}
    (hlossless : Gzip.Lossless (Cbc.opened cipher iv c).1 (Cbc.opened cipher iv c).2)
    (hpayload : Gzip.unpacked (Cbc.opened cipher iv c).1 (Cbc.opened cipher iv c).2 =
      (payload, last)) {bufferLength : Nat} (hpos : 0 < bufferLength) :
    Brings (stagesOver source cipher iv bufferLength) payload last := by
  have hdelivers := CbcReader.delivers hR hq
  have hreader := GzipReader.delivers hdelivers (CbcReader.rests hR hq)
  have hcbc := CbcReader.over_start cipher iv bufferLength h
  have hgzip := GzipReader.over_start hdelivers hcbc hlossless hpayload
  unfold stagesOver
  exact ⟨_, Buffered.delivers hreader, hpos, payload, rfl, hgzip⟩

variable {σ η φ : Type} [SeekableSource σ] {R : Promise σ} {K : σ → Prop}
  {payload content : Bytes} {source : σ} {key : BackupKey} {iv : Block} {settings : ReadSettings}

theorem decrypt_eq (hR : Rewinds R K content) (hK : K source)
    (hlen : minEncryptedLength ≤ content.length) (key : BackupKey) (bufferLength : Nat) :
    ∃ s : Limited σ, decrypt source key (content.length - Sha256.digestLength) bufferLength =
      .ok (stagesOver s key.cipher (vectorOf content) bufferLength) ∧
      Limited.Front R (macPart content) none s (ciphertextOf content) none := by
  have h64 : minEncryptedLength = 64 := rfl
  have h32 : Sha256.digestLength = 32 := rfl
  have h16 : blockLength = 16 := rfl
  have hbody := length_authenticatedPart content
  obtain ⟨s₁, hstart, h₁⟩ := hR.toStart hK
  have hsplit : content = (authenticatedPart content).take blockLength ++
      (ciphertextOf content ++ macPart content) := by
    rw [ciphertextOf, ← List.append_assoc, List.take_append_drop]
    exact (authenticatedPart_append_macPart content).symm
  rw [hsplit] at h₁
  obtain ⟨s₂, hiv, h₂⟩ := gatherExactly_append hR.delivers h₁
  have hfront : ((authenticatedPart content).take blockLength).length = blockLength := by
    rw [List.length_take, hbody]
    omega
  rw [hfront] at hiv
  have hleft : content.length - Sha256.digestLength - blockLength =
      (ciphertextOf content).length := by
    rw [ciphertextOf, List.length_drop, hbody]
  refine ⟨⟨s₂, (ciphertextOf content).length⟩, ?_, rfl, rfl, h₂⟩
  unfold decrypt
  simp only [hstart, hiv, hleft]
  rfl

/-- Opening what is authentic is to read records from the stages over its ciphertext. -/
theorem start_eq [Record η] [Record φ] (hsettings : settings.check = .ok ())
    (h : Holds source content) {n : Nat} (hgate : gate key.macKey content = .ok n) :
    ∃ (R : Promise (Limited σ)) (s : Limited σ), Delivers R ∧ Rests R ∧
      R s (ciphertextOf content) none ∧
      (start source key settings : Except _ (EncryptedReader σ η φ)) =
        BackupReader.start (stagesOver s key.cipher (vectorOf content) settings.bufferLength)
          settings.maxRecordLength := by
  obtain ⟨R, K, hR, hK⟩ := h
  obtain ⟨s', hauth, hK'⟩ := authenticate_eq hR hK key settings.bufferLength
  obtain ⟨hlen, rfl⟩ := gate_eq_ok hgate
  obtain ⟨s, hdecrypt, hs⟩ := decrypt_eq hR hK' hlen key settings.bufferLength
  have hpass : (gate key.macKey content).mapError BackupError.crypto =
      .ok (content.length - Sha256.digestLength) := by
    rw [hgate]
    rfl
  refine ⟨_, s, Limited.delivers hR.delivers, Limited.rests, hs, ?_⟩
  unfold start
  simp only [hsettings, hauth, hpass, hdecrypt]

/-- Opening a sealed backup is to read records from stages that bring its payload. -/
theorem start_of_sealed [Record η] [Record φ] (hsettings : settings.check = .ok ())
    (h : Holds source content) (hs : IsSealed key iv payload content) :
    ∃ stages : DecryptStages σ, Brings stages payload none ∧
      (start source key settings : Except _ (EncryptedReader σ η φ)) =
        BackupReader.start stages settings.maxRecordLength := by
  obtain ⟨R, s, hR, hq, hat, hstart⟩ := start_eq (η := η) (φ := φ) hsettings h hs.gate_eq
  exact ⟨_, stagesOver_brings hR hq hat (lossless_sealed hs) (payloadOf_sealed hs)
    (settings.bufferLength_pos hsettings), hstart⟩

end EncryptedReader

namespace PlainReader

variable {σ η φ : Type} [Source σ] [Record η] [Record φ] {payload : Bytes} {source : σ}
  {settings : ReadSettings}

/-- A plain backup is read through a buffer. -/
theorem start_of_brings {ending : Option Failure} (hsettings : settings.check = .ok ())
    (h : Brings source payload ending) :
    ∃ s : Buffered σ, Brings s payload ending ∧
      (start source settings : Except _ (PlainReader σ η φ)) =
        BackupReader.start s settings.maxRecordLength := by
  obtain ⟨R, hR, hs⟩ := h
  refine ⟨{ inner := source, capacity := settings.bufferLength },
    ⟨_, Buffered.delivers hR, settings.bufferLength_pos hsettings, payload, rfl, hs⟩, ?_⟩
  unfold start
  simp only [hsettings]

end PlainReader

/-! ## The main statement -/

/-- An encrypted backup of a payload is built by the stages of a writer, on any sink that takes
everything and in whatever pieces the payload comes. -/
theorem EncryptedWriter.builds (C : Compressor) {σ : Type} [AppendSink σ] {T E : Sink.Ledger σ}
    (hT : AppendSink.TakesAll T E) {sink : σ} (hs : T sink []) (key : BackupKey) (iv : Block)
    (draws : List UInt64) {settings : WriteSettings} (hsettings : settings.check = .ok ())
    (pieces : List Bytes) :
    ∃ (w : EncryptedWriter C σ) (o : EncryptedOutput C σ) (counts : BackupCounts) (sink' : σ)
      (s : Bytes), EncryptedWriter.start C sink key iv draws settings = .ok w ∧
      RecordOutput.putAll w.output pieces = (.ok (), o) ∧
      RecordOutput.complete o w.counts = (.ok (), counts, .finished sink') ∧
      E sink' s ∧ IsSealed key iv pieces.flatten s := by
  obtain ⟨w, hw⟩ := EncryptedWriter.start_succeeds C hT.toTakes hs key iv draws hsettings
  obtain ⟨-, -, hcarries⟩ := EncryptedWriter.start_ok hT.toRecords hs hw
  have hS : RecordOutput.Succeeds (Carries (C := C) T key iv (.ofNat settings.compressionLevel)
      settings.padding) (Left E key iv) := EncryptedOutput.succeeds hT
  obtain ⟨o, hput, ho⟩ := hS.putAll pieces hcarries
  obtain ⟨counts, o', hcomplete⟩ := hS.completes w.counts ho
  have hleft := hS.complete ho hcomplete
  rw [List.nil_append] at hleft
  obtain ⟨sink', s, rfl, hE, hsealed⟩ := hleft.eq_finished
  exact ⟨w, o, counts, sink', s, hw, hput, hcomplete, hE, hsealed⟩

/-- **An encrypted backup reads like its payload**: the stages of a writer build one for any
payload, key, initialisation vector, compressor, level and padding, and for every such backup
opening it and all calls afterwards come to what they come to for the payload as a plain backup. -/
theorem encrypted_refines_plain (key : BackupKey) :
    (∀ (C : Compressor) {σ : Type} [AppendSink σ] {T E : Sink.Ledger σ}, AppendSink.TakesAll T E →
      ∀ (sink : σ) (iv : Block) (draws : List UInt64) (settings : WriteSettings)
        (pieces : List Bytes), T sink [] → settings.check = .ok () →
        ∃ (w : EncryptedWriter C σ) (o : EncryptedOutput C σ) (counts : BackupCounts) (sink' : σ)
          (s : Bytes), EncryptedWriter.start C sink key iv draws settings = .ok w ∧
          RecordOutput.putAll w.output pieces = (.ok (), o) ∧
          RecordOutput.complete o w.counts = (.ok (), counts, .finished sink') ∧
          E sink' s ∧ IsSealed key iv pieces.flatten s) ∧
    (∀ {σ τ η φ : Type} [SeekableSource σ] [Source τ] [Record η] [Record φ] (iv : Block)
      (payload s : Bytes) (source : σ) (plain : τ) (settings : ReadSettings)
      (calls : List ReaderCall), IsSealed key iv payload s → Holds source s →
      Brings plain payload none →
      observe (EncryptedReader.start source key settings :
          Except _ (EncryptedReader σ η φ)) calls =
        observe (PlainReader.start plain settings : Except _ (PlainReader τ η φ)) calls) := by
  refine ⟨fun C _ _ _ _ hT sink iv draws settings pieces hs hsettings =>
    EncryptedWriter.builds C hT hs key iv draws hsettings pieces, ?_⟩
  intro σ τ η φ _ _ _ _ iv payload s source plain settings calls hsealed hholds hbrings
  cases hsettings : settings.check with
  | error e =>
    unfold EncryptedReader.start PlainReader.start
    rw [hsettings]
    rfl
  | ok u =>
    obtain ⟨stages, hstages, hencrypted⟩ :=
      EncryptedReader.start_of_sealed (η := η) (φ := φ) hsettings hholds hsealed
    obtain ⟨buffer, hbuffer, hplain⟩ :=
      PlainReader.start_of_brings (η := η) (φ := φ) hsettings hbrings
    rw [hencrypted, hplain, observe_of_brings hstages, observe_of_brings hbuffer]

/-- A payload that is no record, in two pieces. -/
theorem encrypted_refines_plain_of_pieces :
    let key : BackupKey := ⟨List.replicate 32 1, List.replicate 32 2, rfl, rfl⟩
    ∃ (sink : ScriptedSink) (s : Bytes), sink.bytes = s ∧
      IsSealed key .zero ([[5, 1], [2]] : List Bytes).flatten s ∧
      ∀ calls, observe (EncryptedReader.start (ScriptedSource.ofBytes s) key {} :
          Except _ (EncryptedReader ScriptedSource BackupInfo Frame)) calls =
        observe (PlainReader.start (⟨[5, 1, 2]⟩ : ByteSource) {} :
          Except _ (PlainReader ByteSource BackupInfo Frame)) calls := by
  intro key
  obtain ⟨hbuilds, hreads⟩ := encrypted_refines_plain key
  obtain ⟨w, o, counts, sink, s, -, -, -, ⟨-, hbytes⟩, hsealed⟩ := hbuilds Deflater.compressor
    ScriptedSink.takes {} .zero [] {} [[5, 1], [2]]
    ⟨ScriptedSink.faultless_new, ScriptedSink.written_new⟩ rfl
  refine ⟨sink, s, hbytes, hsealed, ?_⟩
  intro calls
  exact hreads .zero _ s _ _ {} calls hsealed (ScriptedSource.holds_ofBytes s)
    (ByteSource.brings [5, 1, 2])

end ChatBackup
