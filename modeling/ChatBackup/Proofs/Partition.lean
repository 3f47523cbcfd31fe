import ChatBackup.Proofs.LengthForms
import ChatBackup.Proofs.Reading

/-!
# What one record takes of its source

Reading a record comes to one of seven results, and it depends on the bytes that are to come which
one it is and how many of them it takes. `Record.Front` says so of byte strings, without a look at
how they are read:

> `record_reading_partitions`: every byte string has exactly one such front, and it is what reading
> comes to over any source that brings the bytes. What stands behind it is what the source brings
> next.

A source that brings a byte string is read as the byte string is (`Agrees.read`), so that the cases
are only gone through for byte strings (`Record.Front.read_bytes`).
-/

namespace ChatBackup

open Source Varint

/-- Reading has come to the end of the bytes, between two records or inside of one. -/
def RecordRead.runsOut {α : Type} : RecordRead α → Bool
  | endOfStream | truncated _ => true
  | record _ | failed _ => false

namespace Record

/-- What reading a record comes to if the bytes to come are given, and the bytes that it leaves. -/
inductive Front (α : Type) [Record α] (maxLength : Nat) : Bytes → RecordRead α → Bytes → Prop where
  /-- Nothing is there. -/
  | endOfStream : Front α maxLength [] .endOfStream []
  /-- All there is asks for another byte of the length. -/
  | inLength {p : Bytes} : Unfinished p → 0 < p.length → p.length < Varint.maxLength →
    Front α maxLength p (.truncated (.inLength p.length)) []
  /-- Ten bytes are too large for a length. -/
  | lengthOverflow {more rest : Bytes} {last : UInt8} : Unfinished more →
    more.length + 1 = Varint.maxLength → 1 < last →
    Front α maxLength (more ++ last :: rest) (.failed .lengthOverflow) rest
  /-- The length is above the limit; nothing behind it is taken. -/
  | tooLarge {p rest : Bytes} {n : Nat} : Form p n → maxLength < n →
    Front α maxLength (p ++ rest) (.failed (.tooLarge n maxLength)) rest
  /-- Less is there than the length tells. -/
  | inPayload {p body : Bytes} {n : Nat} : Form p n → n ≤ maxLength → body.length < n →
    Front α maxLength (p ++ body) (.truncated (.inPayload n body.length)) []
  /-- The bytes that the length tells are a message. -/
  | record {p body rest : Bytes} {a : α} : Form p body.length → body.length ≤ maxLength →
    (Record.schema (α := α)).decode body = .ok a →
    Front α maxLength (p ++ (body ++ rest)) (.record a) rest
  /-- The bytes that the length tells are not a message. -/
  | malformed {p body rest : Bytes} {e : DecodeError} : Form p body.length →
    body.length ≤ maxLength → (Record.schema (α := α)).decode body = .error e →
    Front α maxLength (p ++ (body ++ rest)) (.failed (.decode e)) rest

variable {α : Type} [Record α] {maxLength n : Nat} {s rest p body : Bytes} {r : RecordRead α}

/-! ## Byte strings -/

/-- What follows the length decides. -/
theorem read_of_form (h : Form p n) (tail : Bytes) :
    Record.read α (⟨p ++ tail⟩ : ByteSource) maxLength =
      if maxLength < n then (.ok (.failed (.tooLarge n maxLength)), ⟨tail⟩)
      else if tail.length < n then
        (.ok (.truncated (.inPayload n tail.length)), ⟨tail.drop n⟩)
      else
        match (Record.schema (α := α)).decode (tail.take n) with
        | .ok a => (.ok (.record a), ⟨tail.drop n⟩)
        | .error e => (.ok (.failed (.decode e)), ⟨tail.drop n⟩) := by
  unfold Record.read
  rw [readLength_form h tail]
  simp only [ByteSource.gatherPages_eq, List.length_take]
  by_cases hmax : maxLength < n
  · simp only [if_pos hmax]
  · by_cases hlen : tail.length < n
    · simp only [if_neg hmax, if_pos hlen, Nat.min_eq_right (Nat.le_of_lt hlen)]
    · simp only [if_neg hmax, if_neg hlen, Nat.min_eq_left (Nat.le_of_not_lt hlen), Nat.lt_irrefl]
      rfl

theorem Front.read_bytes (h : Front α maxLength s r rest) :
    Record.read α (⟨s⟩ : ByteSource) maxLength = (.ok r, ⟨rest⟩) := by
  cases h with
  | endOfStream =>
    unfold Record.read
    rw [readLength_unfinished unfinished_nil (by decide)]
    rfl
  | inLength hmore hpos hlen =>
    unfold Record.read
    rw [readLength_unfinished hmore hlen, if_neg (Nat.ne_of_gt hpos)]
  | lengthOverflow hmore hlen hlast =>
    unfold Record.read
    rw [readLength_overflow hmore hlen hlast]
  | tooLarge hform hmax => rw [read_of_form hform, if_pos hmax]
  | inPayload hform hmax hlen =>
    rw [read_of_form hform, if_neg (Nat.not_lt.mpr hmax), if_pos hlen,
      List.drop_of_length_le (Nat.le_of_lt hlen)]
  | @record p body rest a hform hmax hdecode =>
    have hlen : ¬ (body ++ rest).length < body.length := by
      rw [List.length_append]
      omega
    rw [read_of_form hform, if_neg (Nat.not_lt.mpr hmax), if_neg hlen, List.take_left,
      List.drop_left, hdecode]
  | @malformed p body rest e hform hmax hdecode =>
    have hlen : ¬ (body ++ rest).length < body.length := by
      rw [List.length_append]
      omega
    rw [read_of_form hform, if_neg (Nat.not_lt.mpr hmax), if_neg hlen, List.take_left,
      List.drop_left, hdecode]

/-- Every byte string has a front. -/
theorem exists_front (α : Type) [Record α] (maxLength : Nat) (s : Bytes) :
    ∃ (r : RecordRead α) (rest : Bytes), Front α maxLength s r rest := by
  rcases exists_length s with ⟨hmore, hlen⟩ | ⟨more, last, rest, rfl, hmore, hlen, hlast⟩ |
    ⟨p, n, tail, rfl, hform⟩
  · rcases Nat.eq_zero_or_pos s.length with h0 | hpos
    · obtain rfl : s = [] := List.length_eq_zero_iff.mp h0
      exact ⟨_, _, .endOfStream⟩
    · exact ⟨_, _, .inLength hmore hpos hlen⟩
  · exact ⟨_, _, .lengthOverflow hmore hlen hlast⟩
  · by_cases hmax : maxLength < n
    · exact ⟨_, _, .tooLarge hform hmax⟩
    · by_cases hlen : tail.length < n
      · exact ⟨_, _, .inPayload hform (Nat.le_of_not_lt hmax) hlen⟩
      · -- enough is there, so that what the length tells can be cut off
        obtain ⟨body, rest, rfl, rfl⟩ : ∃ body rest, tail = body ++ rest ∧ body.length = n := by
          refine ⟨tail.take n, tail.drop n, (List.take_append_drop n tail).symm, ?_⟩
          rw [List.length_take]
          omega
        cases hdecode : (Record.schema (α := α)).decode body with
        | ok a => exact ⟨_, _, .record hform (Nat.le_of_not_lt hmax) hdecode⟩
        | error e => exact ⟨_, _, .malformed hform (Nat.le_of_not_lt hmax) hdecode⟩

/-- The front is determined by the bytes. -/
theorem Front.unique {r' : RecordRead α} {rest' : Bytes} (h : Front α maxLength s r rest)
    (h' : Front α maxLength s r' rest') : r' = r ∧ rest' = rest := by
  have hread := h'.read_bytes
  rw [h.read_bytes] at hread
  cases hread
  exact ⟨rfl, rfl⟩

/-- What does not run out of bytes is the same with more of them behind. -/
theorem Front.append (h : Front α maxLength s r rest) (hr : r.runsOut = false) (later : Bytes) :
    Front α maxLength (s ++ later) r (rest ++ later) := by
  cases h with
  | endOfStream | inLength | inPayload => cases hr
  | lengthOverflow hmore hlen hlast =>
    rw [List.append_assoc, List.cons_append]
    exact .lengthOverflow hmore hlen hlast
  | tooLarge hform hmax =>
    rw [List.append_assoc]
    exact .tooLarge hform hmax
  | record hform hmax hdecode =>
    rw [List.append_assoc, List.append_assoc]
    exact .record hform hmax hdecode
  | malformed hform hmax hdecode =>
    rw [List.append_assoc, List.append_assoc]
    exact .malformed hform hmax hdecode

/-- Bytes that are left anyway do not matter. -/
theorem Front.of_append {later : Bytes} (h : Front α maxLength (s ++ later) r (rest ++ later))
    (hr : r.runsOut = false) : Front α maxLength s r rest := by
  generalize hs : s ++ later = whole at h
  generalize hrest : rest ++ later = left at h
  cases h with
  | endOfStream | inLength | inPayload => cases hr
  | @lengthOverflow more _ last hmore hlen hlast =>
    subst hrest
    rw [← List.cons_append, ← List.append_assoc] at hs
    rw [List.append_cancel_right hs]
    exact .lengthOverflow hmore hlen hlast
  | tooLarge hform hmax =>
    subst hrest
    rw [← List.append_assoc] at hs
    rw [List.append_cancel_right hs]
    exact .tooLarge hform hmax
  | record hform hmax hdecode =>
    subst hrest
    rw [← List.append_assoc, ← List.append_assoc, List.append_assoc _ _ rest] at hs
    rw [List.append_cancel_right hs]
    exact .record hform hmax hdecode
  | malformed hform hmax hdecode =>
    subst hrest
    rw [← List.append_assoc, ← List.append_assoc, List.append_assoc _ _ rest] at hs
    rw [List.append_cancel_right hs]
    exact .malformed hform hmax hdecode

/-- The byte of a zero is a record with all fields at their defaults. -/
theorem Front.zero (rest : Bytes) :
    Front α maxLength (0 :: rest) (.record (Record.schema (α := α)).empty) rest := by
  have hfront : Front α maxLength ([0] ++ ([] ++ rest)) (.record Record.schema.empty) rest :=
    .record (.single (by decide)) (Nat.zero_le _) rfl
  exact hfront

/-- Fetching tells the same, every failure as one of reading a backup. -/
theorem Front.fetch (h : Front α maxLength s r rest) :
    Record.fetch α (⟨s⟩ : ByteSource) maxLength = (r.toResult.mapError .record, ⟨rest⟩) := by
  unfold Record.fetch
  rw [h.read_bytes]

/-! ## Any source -/

/-- Over a source that brings the bytes a record is read as their front tells. -/
theorem Front.read {σ : Type} [Source σ] {source : σ} (hsource : Brings source s none)
    (h : Front α maxLength s r rest) :
    ∃ source', Record.read α source maxLength = (.ok r, source') ∧ Brings source' rest none := by
  have hread := agrees_matches.read (α := α) (matches_bytes hsource) maxLength
  rw [h.read_bytes] at hread
  generalize Record.read α source maxLength = x at hread
  cases hread with
  | @ok source' _ _ hafter =>
    -- both sources are left with the same bytes, and those of the byte string are known
    obtain ⟨b, ending, hb, hrest⟩ := hafter
    obtain ⟨rfl, rfl⟩ := hrest.unique (ByteSource.brings rest)
    exact ⟨source', rfl, hb⟩

/-- Reading comes to what the front tells and to nothing else. -/
theorem read_iff_front {σ : Type} [Source σ] {source : σ} (hsource : Brings source s none) :
    (∃ source', Record.read α source maxLength = (.ok r, source') ∧ Brings source' rest none) ↔
      Front α maxLength s r rest := by
  constructor
  · rintro ⟨source', hread, hrest⟩
    obtain ⟨r₀, rest₀, hfront⟩ := exists_front α maxLength s
    obtain ⟨source₀, hread₀, hrest₀⟩ := hfront.read hsource
    rw [hread] at hread₀
    cases hread₀
    obtain ⟨rfl, -⟩ := hrest.unique hrest₀
    exact hfront
  · intro h
    exact h.read hsource

/-! ## Without a limit -/

/-- No length is above the largest of 64 bits. -/
theorem Front.ne_tooLarge (h : Front α (UInt64.size - 1) s r rest) (n m : Nat) :
    r ≠ .failed (.tooLarge n m) := by
  rintro rfl
  cases h with
  | tooLarge hform hmax =>
    have := hform.lt
    omega

/-- A limit only matters to the lengths above it. -/
theorem Front.unlimited (h : Front α maxLength s r rest)
    (hr : ∀ n m, r ≠ .failed (.tooLarge n m)) : Front α (UInt64.size - 1) s r rest := by
  cases h with
  | endOfStream => exact .endOfStream
  | inLength hmore hpos hlen => exact .inLength hmore hpos hlen
  | lengthOverflow hmore hlen hlast => exact .lengthOverflow hmore hlen hlast
  | tooLarge hform hmax => exact absurd rfl (hr _ _)
  | inPayload hform hmax hlen => exact .inPayload hform (Nat.le_sub_one_of_lt hform.lt) hlen
  | record hform hmax hdecode => exact .record hform (Nat.le_sub_one_of_lt hform.lt) hdecode
  | malformed hform hmax hdecode => exact .malformed hform (Nat.le_sub_one_of_lt hform.lt) hdecode

/-- The front of a byte string in memory, with the number of its bytes if it is a record. -/
theorem Front.ofBytes (h : Front α (UInt64.size - 1) s r rest) :
    Record.ofBytes α s =
      (r.toResult.mapError BackupError.record).map
        (Option.map fun a => (a, s.length - rest.length)) := by
  unfold Record.ofBytes
  rw [h.read_bytes]
  cases r <;> rfl

end Record

/-! ## The main statement -/

/-- **What reading a record takes**: every byte string has one front, and over any source that
brings the bytes, however they arrive, reading comes to just what it tells: the end, a length that
is cut or too large, a length above the limit, a record that is cut, a record, or bytes that are no
message. What it leaves is what the source brings next; so behind a record that cannot be decoded
reading goes on with the record after it. In memory the same is told without a limit. -/
theorem record_reading_partitions {α : Type} [Record α] (maxLength : Nat) :
    (∀ s : Bytes, ∃ (r : RecordRead α) (rest : Bytes), Record.Front α maxLength s r rest ∧
      ∀ (r' : RecordRead α) (rest' : Bytes), Record.Front α maxLength s r' rest' →
        r' = r ∧ rest' = rest) ∧
    (∀ {σ : Type} [Source σ] (source : σ) (s : Bytes), Brings source s none →
      ∀ (r : RecordRead α) (rest : Bytes),
        (∃ source', Record.read α source maxLength = (.ok r, source') ∧
          Brings source' rest none) ↔ Record.Front α maxLength s r rest) ∧
    (∀ {σ : Type} [Source σ] (source : σ) (p body rest : Bytes) (e : DecodeError),
      Brings source (p ++ (body ++ rest)) none → Form p body.length → body.length ≤ maxLength →
      (Record.schema (α := α)).decode body = .error e →
      ∃ source', Record.read α source maxLength = (.ok (.failed (.decode e)), source') ∧
        ∀ (r : RecordRead α) (rest' : Bytes),
          (∃ source'', Record.read α source' maxLength = (.ok r, source'') ∧
            Brings source'' rest' none) ↔ Record.Front α maxLength rest r rest') ∧
    ∀ (s : Bytes) (r : RecordRead α) (rest : Bytes),
      (Record.Front α (UInt64.size - 1) s r rest →
        (∀ n m, r ≠ .failed (.tooLarge n m)) ∧
        Record.ofBytes α s =
          (r.toResult.mapError BackupError.record).map
            (Option.map fun a => (a, s.length - rest.length))) ∧
      (Record.Front α maxLength s r rest → (∀ n m, r ≠ .failed (.tooLarge n m)) →
        Record.Front α (UInt64.size - 1) s r rest) := by
  refine ⟨?_, ?_, ?_, ?_⟩
  · intro s
    obtain ⟨r, rest, h⟩ := Record.exists_front α maxLength s
    exact ⟨r, rest, h, fun _ _ h' => h.unique h'⟩
  · intro σ _ source s hsource r rest
    exact Record.read_iff_front hsource
  · intro σ _ source p body rest e hsource hform hmax hdecode
    obtain ⟨source', hread, hrest⟩ := Record.Front.read hsource (.malformed hform hmax hdecode)
    exact ⟨source', hread, fun r rest' => Record.read_iff_front hrest⟩
  · intro s r rest
    exact ⟨fun h => ⟨h.ne_tooLarge, h.ofBytes⟩, fun h hr => h.unlimited hr⟩

/-- A record of one byte that is no message, and an empty frame behind it: the failure is told, and
the next read gives the frame. -/
theorem record_read_behind_malformed :
    let source : ScriptedSource := { data := #[1, 7, 0], chunk := some 1, interrupts := true }
    (∃ source' source'' : ScriptedSource,
      Record.read Frame source 16 =
        (.ok (.failed (.decode { path := [], cause := .invalidWireType 7 })), source') ∧
      Record.read Frame source' 16 = (.ok (.record {}), source'') ∧ Brings source'' [] none) ∧
    Record.ofBytes Frame [0, 9] = .ok (some ({}, 1)) := by
  intro source
  have hsource : ScriptedSource.Faultless ([1] ++ ([7] ++ [0])) source :=
    ⟨rfl, Nat.zero_le _, by simp [source], rfl, rfl, rfl⟩
  obtain ⟨-, -, hbehind, hbytes⟩ := record_reading_partitions (α := Frame) 16
  constructor
  · obtain ⟨source', hread, hnext⟩ := hbehind source [1] [7] [0] _ hsource.brings
      (.single (by decide)) (by decide) rfl
    obtain ⟨source'', hread', hrest⟩ := (hnext (.record {}) []).mpr (.zero [])
    exact ⟨source', source'', hread, hread', hrest⟩
  · exact ((hbytes [0, 9] (.record {}) [9]).1 (.zero [9])).2

end ChatBackup
