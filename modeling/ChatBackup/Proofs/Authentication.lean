import ChatBackup.Backup.EncryptedReader
import ChatBackup.Proofs.Deflater
import ChatBackup.Proofs.Writing

/-!
# Authentication comes first

The outcome of opening an encrypted backup is decided by its bytes and the authentication key alone,
unless the authentication code is right:

> `authentication_gates`: too few bytes are refused with their number, a wrong code with a mismatch,
> and in both cases the cipher key plays no part. What was changed in a backup that a writer has
> closed is refused, unless the change comes with the right code for another body.

`gate` is the decision as a function of the bytes. `EncryptedReader.authenticate_eq` proves that the
two passes over the source come to it, and all else follows from that.
-/

namespace ChatBackup

open Source SeekableSource

/-! ## The decision -/

/-- The part of an encrypted backup that its authentication code covers. -/
def authenticatedPart (s : Bytes) : Bytes := s.take (s.length - Sha256.digestLength)

/-- The authentication code of an encrypted backup. -/
def macPart (s : Bytes) : Bytes := s.drop (s.length - Sha256.digestLength)

/-- Whether the authentication code is that of the part it covers. -/
def HasValidMac (macKey s : Bytes) : Prop := Hmac.hash macKey (authenticatedPart s) = macPart s

instance (macKey s : Bytes) : Decidable (HasValidMac macKey s) :=
  inferInstanceAs (Decidable (_ = _))

/-- What authentication decides about a backup: the length of the part that is covered, or an
error. -/
def gate (macKey s : Bytes) : Except CryptoError Nat :=
  if s.length < minEncryptedLength then .error (.streamTooShort s.length)
  else if HasValidMac macKey s then .ok (s.length - Sha256.digestLength)
  else .error .macMismatch

theorem authenticatedPart_append_macPart (s : Bytes) : authenticatedPart s ++ macPart s = s :=
  List.take_append_drop _ _

theorem length_authenticatedPart (s : Bytes) :
    (authenticatedPart s).length = s.length - Sha256.digestLength := by
  rw [authenticatedPart, List.length_take]
  exact Nat.min_eq_left (Nat.sub_le _ _)

theorem length_macPart {s : Bytes} (h : minEncryptedLength ≤ s.length) :
    (macPart s).length = Sha256.digestLength := by
  have h64 : minEncryptedLength = 64 := rfl
  have h32 : Sha256.digestLength = 32 := rfl
  rw [macPart, List.length_drop]
  omega

theorem authenticatedPart_append (body : Bytes) {tag : Bytes}
    (h : tag.length = Sha256.digestLength) : authenticatedPart (body ++ tag) = body := by
  rw [authenticatedPart, List.length_append, h, Nat.add_sub_cancel, List.take_left]

theorem macPart_append (body : Bytes) {tag : Bytes} (h : tag.length = Sha256.digestLength) :
    macPart (body ++ tag) = tag := by
  rw [macPart, List.length_append, h, Nat.add_sub_cancel, List.drop_left]

/-- A body with its own code behind it passes. -/
theorem gate_append {macKey body : Bytes}
    (h : minEncryptedLength ≤ body.length + Sha256.digestLength) :
    gate macKey (body ++ Hmac.hash macKey body) = .ok body.length := by
  have hmac : HasValidMac macKey (body ++ Hmac.hash macKey body) := by
    rw [HasValidMac, authenticatedPart_append _ (Hmac.length_hash _ _),
      macPart_append _ (Hmac.length_hash _ _)]
  rw [gate, List.length_append, Hmac.length_hash, if_neg (Nat.not_lt.mpr h), if_pos hmac,
    Nat.add_sub_cancel]

/-- What passes is long enough, and all but the code is covered. -/
theorem gate_eq_ok {macKey s : Bytes} {n : Nat} (h : gate macKey s = .ok n) :
    minEncryptedLength ≤ s.length ∧ n = s.length - Sha256.digestLength := by
  unfold gate at h
  split at h
  · cases h
  next hlen =>
    split at h
    · cases h
      exact ⟨Nat.le_of_not_lt hlen, rfl⟩
    · cases h

namespace EncryptedReader

variable {σ η φ : Type} [SeekableSource σ] {R : Promise σ} {K : σ → Prop} {content : Bytes}
  {source : σ} {key : BackupKey} {settings : ReadSettings}

/-- The two passes over a source come to the decision about its bytes. -/
theorem authenticate_eq (hR : Rewinds R K content) (hK : K source) (key : BackupKey)
    (bufferLength : Nat) :
    ∃ s', authenticate source key bufferLength =
      ((gate key.macKey content).mapError .crypto, s') ∧ K s' := by
  obtain ⟨s₁, hend, h₁⟩ := hR.toEnd hK
  unfold authenticate gate
  rw [hend]
  by_cases hshort : content.length < minEncryptedLength
  · simp only [hshort, if_true]
    exact ⟨s₁, rfl, h₁⟩
  · obtain ⟨s₂, hstart, h₂⟩ := hR.toStart h₁
    have htag := length_macPart (Nat.le_of_not_lt hshort)
    rw [← authenticatedPart_append_macPart content, ← List.append_nil (macPart content)] at h₂
    obtain ⟨s₃, h₃, hverify⟩ := verifyMac_eq hR.delivers htag h₂ key.macKey bufferLength
    rw [length_authenticatedPart] at hverify
    refine ⟨s₃, ?_, hR.keeps h₃⟩
    simp only [hshort, if_false, hstart, hverify]
    by_cases hmac : HasValidMac key.macKey content
    · have heq : Hmac.hash key.macKey (authenticatedPart content) = macPart content := hmac
      simp only [heq, hmac, if_true]
      rfl
    · have hne : Hmac.hash key.macKey (authenticatedPart content) ≠ macPart content := hmac
      simp only [hne, hmac, if_false]
      rfl

variable [Record η] [Record φ]

/-- What authentication refuses is not opened. -/
theorem start_of_gate_error (hsettings : settings.check = .ok ()) (h : Holds source content)
    {e : CryptoError} (hgate : gate key.macKey content = .error e) :
    (start source key settings : Except _ (EncryptedReader σ η φ)) = .error (.crypto e) := by
  obtain ⟨R, K, hR, hK⟩ := h
  obtain ⟨s', hauth, -⟩ := authenticate_eq hR hK key settings.bufferLength
  unfold start
  simp only [hsettings, hauth, hgate]
  rfl

end EncryptedReader

/-- What goes wrong with a record lies with the source or with the record. -/
theorem Record.fetch_error {σ α : Type} [Source σ] [Record α] {s : σ} {maxLength : Nat}
    {e : BackupError} (h : (Record.fetch α s maxLength).1 = .error e) (c : CryptoError) :
    e ≠ .crypto c := by
  unfold Record.fetch at h
  rintro rfl
  split at h
  next => cases h
  next r s' _ =>
    cases hr : r.toResult with
    | ok a => rw [hr] at h; cases h
    | error e => rw [hr] at h; cases h

namespace EncryptedReader

variable {σ η φ : Type} [SeekableSource σ] [Record η] [Record φ] {content : Bytes}
  {source : σ} {key : BackupKey} {settings : ReadSettings}

/-- Behind authentication no cryptographic error is met. -/
theorem start_of_gate_ok (hsettings : settings.check = .ok ()) (h : Holds source content)
    {n : Nat} (hgate : gate key.macKey content = .ok n) (c : CryptoError) :
    (start source key settings : Except _ (EncryptedReader σ η φ)) ≠ .error (.crypto c) := by
  obtain ⟨R, K, hR, hK⟩ := h
  obtain ⟨s', hauth, -⟩ := authenticate_eq hR hK key settings.bufferLength
  unfold start
  simp only [hsettings, hauth, hgate]
  intro herr
  split at herr
  next h => cases h
  next n' s'' hn =>
    split at herr
    next => cases herr
    next stages _ =>
      unfold BackupReader.start at herr
      split at herr
      next e t hfetch =>
        cases herr
        exact Record.fetch_error (by rw [hfetch]) c rfl
      next => cases herr
      next => cases herr

theorem start_eq_crypto_iff (hsettings : settings.check = .ok ()) (h : Holds source content)
    (c : CryptoError) :
    (start source key settings : Except _ (EncryptedReader σ η φ)) = .error (.crypto c) ↔
      gate key.macKey content = .error c := by
  constructor
  · intro hstart
    cases hgate : gate key.macKey content with
    | ok n => exact absurd hstart (start_of_gate_ok hsettings h hgate c)
    | error e =>
      rw [start_of_gate_error hsettings h hgate] at hstart
      cases hstart
      rfl
  · exact start_of_gate_error hsettings h

end EncryptedReader

/-! ## What a writer has closed -/

namespace EncryptedOutput

variable {key : BackupKey} {iv : Block} {payload s : Bytes}

/-- A sealed backup has its authentication code at the end, and it is not too short. -/
theorem IsSealed.valid (h : IsSealed key iv payload s) :
    minEncryptedLength ≤ s.length ∧ HasValidMac key.macKey s := by
  obtain ⟨body, ⟨m, padding, -, rfl⟩, rfl⟩ := h
  refine ⟨?_, ?_⟩
  · have h16 : blockLength = 16 := rfl
    have h32 : Sha256.digestLength = 32 := rfl
    have h64 : minEncryptedLength = 64 := rfl
    rw [List.length_append, List.length_append, Hmac.length_hash, Block.length_toBytes,
      Cbc.length_sealed, Nat.mul_add, h16, h32, h64]
    omega
  · rw [HasValidMac, authenticatedPart_append _ (Hmac.length_hash _ _),
      macPart_append _ (Hmac.length_hash _ _)]

/-- A sealed backup passes authentication. -/
theorem IsSealed.gate_eq (h : IsSealed key iv payload s) :
    gate key.macKey s = .ok (s.length - Sha256.digestLength) := by
  obtain ⟨hlen, hmac⟩ := h.valid
  rw [gate, if_neg (Nat.not_lt.mpr hlen), if_pos hmac]

end EncryptedOutput

/-- Two strings are the same if both parts of them are. -/
theorem eq_of_parts {s s' : Bytes} (hbody : authenticatedPart s' = authenticatedPart s)
    (hmac : macPart s' = macPart s) : s' = s := by
  rw [← authenticatedPart_append_macPart s', ← authenticatedPart_append_macPart s, hbody, hmac]

/-! ## The main statement -/

/-- What it means that opening a source is decided by authentication first. -/
structure IsGated (η φ : Type) {σ : Type} [SeekableSource σ] [Record η] [Record φ] (source : σ)
    (content : Bytes) (key : BackupKey) (settings : ReadSettings) : Prop where
  too_short : ∀ n, (EncryptedReader.start source key settings :
      Except _ (EncryptedReader σ η φ)) = .error (.crypto (.streamTooShort n)) ↔
    content.length < minEncryptedLength ∧ n = content.length
  mismatch : (EncryptedReader.start source key settings :
      Except _ (EncryptedReader σ η φ)) = .error (.crypto .macMismatch) ↔
    minEncryptedLength ≤ content.length ∧ ¬ HasValidMac key.macKey content
  /-- No other error counts as a failed authentication. -/
  classified : ∀ e, (EncryptedReader.start source key settings :
      Except _ (EncryptedReader σ η φ)) = .error e →
    (e.failsAuthentication = true ↔ e = .crypto .macMismatch)
  /-- The refusal is that of authentication, which comes before any decryption, and it is the same
  for every cipher key. -/
  refused : ∀ c, (EncryptedReader.start source key settings :
      Except _ (EncryptedReader σ η φ)) = .error (.crypto c) →
    ∀ key' : BackupKey, key'.macKey = key.macKey →
      (EncryptedReader.authenticate source key' settings.bufferLength).1 = .error (.crypto c) ∧
      (EncryptedReader.start source key' settings : Except _ (EncryptedReader σ η φ)) =
        .error (.crypto c)

/-- What it means that a backup passes authentication and changes to it are noticed. -/
structure ResistsTampering (σ η φ : Type) [SeekableSource σ] [Record η] [Record φ] (s : Bytes)
    (key : BackupKey) (settings : ReadSettings) : Prop where
  length_le : minEncryptedLength ≤ s.length
  valid : HasValidMac key.macKey s
  /-- A change of the authentication code alone is always refused. -/
  mac : ∀ (source : σ) (s' : Bytes), Holds source s' → s'.length = s.length →
    authenticatedPart s' = authenticatedPart s → s' ≠ s →
    (EncryptedReader.start source key settings : Except _ (EncryptedReader σ η φ)) =
      .error (.crypto .macMismatch)
  /-- Any other change is refused, unless it is a forgery: the right code for another body. -/
  forgery : ∀ (source : σ) (s' : Bytes), Holds source s' → minEncryptedLength ≤ s'.length →
    s' ≠ s →
    (EncryptedReader.start source key settings : Except _ (EncryptedReader σ η φ)) =
      .error (.crypto .macMismatch) ∨
    authenticatedPart s' ≠ authenticatedPart s ∧ HasValidMac key.macKey s'

section

variable {σ η φ : Type} [SeekableSource σ] [Record η] [Record φ] {content s : Bytes}
  {source : σ} {key : BackupKey} {settings : ReadSettings}

theorem gate_eq_mismatch_iff (macKey s : Bytes) :
    gate macKey s = .error .macMismatch ↔
      minEncryptedLength ≤ s.length ∧ ¬ HasValidMac macKey s := by
  unfold gate
  by_cases hshort : s.length < minEncryptedLength
  · rw [if_pos hshort]
    constructor
    · intro h; cases h
    · intro h; omega
  · rw [if_neg hshort]
    by_cases hmac : HasValidMac macKey s
    · rw [if_pos hmac]
      constructor
      · intro h; cases h
      · intro h; exact absurd hmac h.2
    · rw [if_neg hmac]
      exact ⟨fun _ => ⟨Nat.le_of_not_lt hshort, hmac⟩, fun _ => rfl⟩

theorem gate_eq_tooShort_iff (macKey s : Bytes) (n : Nat) :
    gate macKey s = .error (.streamTooShort n) ↔ s.length < minEncryptedLength ∧ n = s.length := by
  unfold gate
  by_cases hshort : s.length < minEncryptedLength
  · rw [if_pos hshort]
    constructor
    · intro h; cases h; exact ⟨hshort, rfl⟩
    · rintro ⟨-, rfl⟩; rfl
  · rw [if_neg hshort]
    constructor
    · intro h; split at h <;> cases h
    · intro h; exact absurd h.1 hshort

theorem isGated (hsettings : settings.check = .ok ()) (h : Holds source content) :
    IsGated η φ source content key settings where
  too_short n := by rw [EncryptedReader.start_eq_crypto_iff hsettings h, gate_eq_tooShort_iff]
  mismatch := by rw [EncryptedReader.start_eq_crypto_iff hsettings h, gate_eq_mismatch_iff]
  classified e _ := by
    constructor
    · intro he
      unfold BackupError.failsAuthentication at he
      split at he
      · rfl
      · cases he
    · rintro rfl
      rfl
  refused c hstart key' hkey := by
    rw [EncryptedReader.start_eq_crypto_iff hsettings h] at hstart
    rw [← hkey] at hstart
    refine ⟨?_, EncryptedReader.start_of_gate_error hsettings h hstart⟩
    obtain ⟨R, K, hR, hK⟩ := h
    obtain ⟨s', hauth, -⟩ := EncryptedReader.authenticate_eq hR hK key' settings.bufferLength
    rw [hauth, hstart]
    rfl

theorem resistsTampering (hsettings : settings.check = .ok ())
    (hlen : minEncryptedLength ≤ s.length) (hs : HasValidMac key.macKey s) :
    ResistsTampering σ η φ s key settings where
  length_le := hlen
  valid := hs
  mac source s' h hsame hbody hne := by
    rw [EncryptedReader.start_eq_crypto_iff hsettings h, gate_eq_mismatch_iff]
    refine ⟨by omega, fun hmac => hne (eq_of_parts hbody ?_)⟩
    rw [HasValidMac, hbody] at hmac
    exact hmac.symm.trans hs
  forgery source s' h hlen' hne := by
    by_cases hmac : HasValidMac key.macKey s'
    · refine Or.inr ⟨fun hbody => hne (eq_of_parts hbody ?_), hmac⟩
      rw [HasValidMac, hbody] at hmac
      exact hmac.symm.trans hs
    · refine Or.inl ?_
      rw [EncryptedReader.start_eq_crypto_iff hsettings h, gate_eq_mismatch_iff]
      exact ⟨hlen', hmac⟩

end

/-- **Authentication gates everything**: whatever a source holds, its length and its authentication
code decide before the cipher key is used, and a backup that a writer has closed cannot be changed
unnoticed without a forgery. -/
theorem authentication_gates {σ η φ : Type} [SeekableSource σ] [Record η] [Record φ]
    (key : BackupKey) (settings : ReadSettings) (hsettings : settings.check = .ok ()) :
    (∀ (source : σ) (content : Bytes), Holds source content →
      IsGated η φ source content key settings) ∧
    (∀ (C : Compressor) {τ : Type} [AppendSink τ] {T E : Sink.Ledger τ}, AppendSink.RecordsAll T E →
      ∀ (sink : τ) (iv : Block) (draws : List UInt64) (writeSettings : WriteSettings)
        (w : EncryptedWriter C τ) (calls : List WriterCall), T sink [] →
        EncryptedWriter.start C sink key iv draws writeSettings = .ok w →
        (w.run calls).2.state = .closed →
        ∃ sink' s, (w.run calls).2.output = .finished sink' ∧ E sink' s ∧
          ResistsTampering σ η φ s key settings) := by
  refine ⟨fun source content h => isGated hsettings h, ?_⟩
  intro C τ _ T E hT sink iv draws writeSettings w calls hs hw hclosed
  obtain ⟨sink', s, hout, hE, hsealed⟩ := EncryptedWriter.run_sealed hT hs hw calls hclosed
  obtain ⟨hlen, hmac⟩ := hsealed.valid
  exact ⟨sink', s, hout, hE, resistsTampering hsettings hlen hmac⟩

/-- An empty source, and a written backup with its last byte counted up. -/
theorem authentication_gates_of_last_byte :
    let key : BackupKey := ⟨List.replicate 32 1, List.replicate 32 2, rfl, rfl⟩
    (EncryptedReader.start (ScriptedSource.ofBytes []) key {} :
      Except _ (EncryptedReader ScriptedSource BackupInfo Frame)) =
        .error (.crypto (.streamTooShort 0)) ∧
    ∃ (w w' : EncryptedWriter Deflater.compressor ScriptedSink) (sink : ScriptedSink)
        (front : Bytes) (x : UInt8),
      EncryptedWriter.start Deflater.compressor ({} : ScriptedSink) key .zero [] {} = .ok w ∧
      (w.run (BackupWriter.backupCalls (BackupInfo.current 7) [Frame.chat 1 2])).2 = w' ∧
      w'.output = .finished sink ∧ sink.bytes = front ++ [x] ∧
      (EncryptedReader.start (ScriptedSource.ofBytes (front ++ [x + 1])) key {} :
        Except _ (EncryptedReader ScriptedSource BackupInfo Frame)) =
          .error (.crypto .macMismatch) := by
  intro key
  obtain ⟨hopen, hwritten⟩ :=
    authentication_gates (σ := ScriptedSource) (η := BackupInfo) (φ := Frame) key {} rfl
  refine ⟨((hopen _ _ (ScriptedSource.holds_ofBytes [])).too_short 0).mpr ⟨by decide, rfl⟩, ?_⟩
  have hnew : ScriptedSink.Faultless {} ∧ ScriptedSink.Written {} [] :=
    ⟨ScriptedSink.faultless_new, ScriptedSink.written_new⟩
  obtain ⟨w, hw⟩ :=
    EncryptedWriter.start_succeeds Deflater.compressor ScriptedSink.takes.toTakes hnew key .zero []
      (show WriteSettings.check {} = .ok () from rfl)
  obtain ⟨hstate, -, hcarries⟩ := EncryptedWriter.start_ok ScriptedSink.takes.toRecords hnew hw
  obtain ⟨w', hrun, hclosed, -⟩ := BackupWriter.run_backup
    (EncryptedOutput.succeeds ScriptedSink.takes) (BackupInfo.current 7) [Frame.chat 1 2] hstate
    hcarries
  have hend :
      (w.run (BackupWriter.backupCalls (BackupInfo.current 7) [Frame.chat 1 2])).2 = w' := by
    rw [hrun]
  obtain ⟨sink, s, hout, ⟨-, hbytes⟩, hresists⟩ := hwritten Deflater.compressor
    ScriptedSink.takes.toRecordsAll {} .zero [] {} w _ hnew hw (by rw [hend]; exact hclosed)
  have hlen := hresists.length_le
  have h64 : minEncryptedLength = 64 := rfl
  have h32 : Sha256.digestLength = 32 := rfl
  have hne : s ≠ [] := by
    rintro rfl
    rw [List.length_nil] at hlen
    omega
  obtain ⟨front, x, rfl⟩ : ∃ front x, s = front ++ [x] :=
    ⟨s.dropLast, s.getLast hne, (List.dropLast_concat_getLast hne).symm⟩
  refine ⟨w, w', sink, front, x, hw, hend, by rw [← hend, hout], hbytes, ?_⟩
  refine hresists.mac _ _ (ScriptedSource.holds_ofBytes _) (by simp) ?_ ?_
  · simp only [List.length_append, List.length_singleton] at hlen
    have hle : front.length + 1 - Sha256.digestLength ≤ front.length := by omega
    simp only [authenticatedPart, List.length_append, List.length_singleton]
    rw [List.take_append_of_le_length hle, List.take_append_of_le_length hle]
  · intro heq
    have hx := List.append_cancel_left heq
    simp at hx

end ChatBackup
