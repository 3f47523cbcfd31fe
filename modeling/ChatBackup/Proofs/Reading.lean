import ChatBackup.Backup.Reader
import ChatBackup.Proofs.Agreement

/-!
# A reader sees bytes only

A reader of backups gathers bytes and does nothing else to its source, so two sources that gathering
cannot tell apart are the same to it:

> `observe_of_agrees`: the result of opening a backup, and the answers to any calls afterwards, are
> the same over both.
> `observe_of_brings`: in particular they are those over the byte string that a source brings.

The simulation is between readers over the two sources (`Alike`). It is kept by reading ahead, and
with it by every call.
-/

namespace ChatBackup

open Source

/-! ## Reading records -/

section Records

variable {σ τ : Type} [Source σ] [Source τ] {S : σ → τ → Prop} {s : σ} {t : τ}

theorem Source.Agrees.readLengthWithin (hS : Agrees S) : ∀ (left i v : Nat) {s : σ} {t : τ}, S s t →
    SameResult S (readLengthWithin left i v s) (readLengthWithin left i v t) := by
  intro left
  induction left with
  | zero => intro i v s t h; exact .ok _ h
  | succ left ih =>
    intro i v s t h
    have hone := hS.gather 1 h
    unfold ChatBackup.readLengthWithin
    generalize Source.gather s 1 = g at hone
    generalize Source.gather t 1 = g' at hone
    cases hone with
    | failed got f => exact .error f
    | done got hafter =>
      cases got with
      | nil => exact .ok _ hafter
      | cons b more =>
        simp only
        split
        · exact .ok _ hafter
        · split
          · exact .ok _ hafter
          · exact ih _ _ hafter

theorem Source.Agrees.read (hS : Agrees S) {α : Type} [Record α] (h : S s t) (maxLength : Nat) :
    SameResult S (Record.read α s maxLength) (Record.read α t maxLength) := by
  have hlen := hS.readLengthWithin Varint.maxLength 0 0 h
  unfold Record.read readLength
  generalize ChatBackup.readLengthWithin Varint.maxLength 0 0 s = x at hlen
  generalize ChatBackup.readLengthWithin Varint.maxLength 0 0 t = y at hlen
  cases hlen with
  | error e => exact .error e
  | @ok s' t' length hafter =>
    cases length with
    | cleanEnd => exact .ok _ hafter
    | cut n => exact .ok _ hafter
    | overflow => exact .ok _ hafter
    | value length =>
      simp only
      split
      · exact .ok _ hafter
      · have hbody := hS.gatherPages length hafter
        generalize Source.gatherPages s' length = g at hbody
        generalize Source.gatherPages t' length = g' at hbody
        cases hbody with
        | failed got f => exact .error f
        | done got hend =>
          simp only
          split
          · exact .ok _ hend
          · split <;> exact .ok _ hend

theorem Source.Agrees.fetch (hS : Agrees S) (α : Type) [Record α] (h : S s t) (maxLength : Nat) :
    SameResult S (Record.fetch α s maxLength) (Record.fetch α t maxLength) := by
  have hread := hS.read (α := α) h maxLength
  unfold Record.fetch
  generalize Record.read α s maxLength = x at hread
  generalize Record.read α t maxLength = y at hread
  cases hread with
  | error e => exact .error _
  | ok r hafter =>
    simp only
    cases r.toResult with
    | error e => exact .error _
    | ok record => exact .ok record hafter

end Records

/-! ## Calls on a reader -/

/-- A call on a reader. -/
inductive ReaderCall where
  | header
  | counts
  | hasMore
  | next
  /-- What an iteration asks for. -/
  | step
  | close
  deriving DecidableEq, Repr

/-- What a reader answers to a call. -/
inductive ReaderAnswer (η φ : Type) where
  | header (header : Option η)
  | counts (counts : BackupCounts)
  | more (more : Bool)
  | frame (result : Except BackupError φ)
  | step (result : Option (Except BackupError φ))
  | closed

namespace BackupReader

variable {σ η φ : Type} [Source σ] [Record φ]

/-- Makes a call. -/
def call (r : BackupReader σ η φ) : ReaderCall → ReaderAnswer η φ × BackupReader σ η φ
  | .header => (.header r.header, r)
  | .counts => (.counts r.counts, r)
  | .hasMore => (.more r.hasMore, r)
  | .next => (.frame r.next.1, r.next.2)
  | .step => (.step r.next?.1, r.next?.2)
  | .close => (.closed, r.close)

/-- The answers to calls one after another. -/
def answers : BackupReader σ η φ → List ReaderCall → List (ReaderAnswer η φ)
  | _, [] => []
  | r, c :: calls => (r.call c).1 :: answers (r.call c).2 calls

end BackupReader

/-- All that can be seen of a backup that was opened: the error, or the answers to calls. -/
def observe {σ η φ : Type} [Source σ] [Record φ]
    (opened : Except BackupError (BackupReader σ η φ)) (calls : List ReaderCall) :
    Except BackupError (List (ReaderAnswer η φ)) := opened.map (·.answers calls)

/-! ## The simulation -/

namespace BackupReader

variable {σ τ η φ : Type} [Source σ] [Source τ] [Record φ] {S : σ → τ → Prop}

/-- A reader that agrees with another one. Their sources have to be related only as long as they
will be asked again, which is after a frame. -/
structure Alike (S : σ → τ → Prop) (r : BackupReader σ η φ) (q : BackupReader τ η φ) : Prop where
  header : r.header = q.header
  upcoming : r.upcoming = q.upcoming
  maxRecordLength : r.maxRecordLength = q.maxRecordLength
  counts : r.counts = q.counts
  source : ∀ f, r.upcoming = .frame f → Option.Rel S r.source q.source

variable {r : BackupReader σ η φ} {q : BackupReader τ η φ}

/-- Reading ahead makes readers agree if their sources do. -/
theorem advance_alike (hS : Agrees S) (hheader : r.header = q.header)
    (hmax : r.maxRecordLength = q.maxRecordLength) (hcounts : r.counts = q.counts)
    (hsource : Option.Rel S r.source q.source) : Alike S r.advance q.advance := by
  obtain ⟨source, header, upcoming, maxLength, counts⟩ := r
  obtain ⟨source', header', upcoming', maxLength', counts'⟩ := q
  obtain rfl : header = header' := hheader
  obtain rfl : maxLength = maxLength' := hmax
  obtain rfl : counts = counts' := hcounts
  unfold BackupReader.advance
  cases hsource with
  | none => exact ⟨rfl, rfl, rfl, rfl, fun _ hf => nomatch hf⟩
  | @some s t hs =>
    -- after an error the sources may differ, and nothing is said of them
    have hfetch := hS.fetch φ hs maxLength
    simp only
    generalize Record.fetch φ s maxLength = x at hfetch
    generalize Record.fetch φ t maxLength = y at hfetch
    cases hfetch with
    | error e => exact ⟨rfl, rfl, rfl, rfl, fun _ hf => nomatch hf⟩
    | ok frame hafter =>
      cases frame with
      | none => exact ⟨rfl, rfl, rfl, rfl, fun _ hf => nomatch hf⟩
      | some frame => exact ⟨rfl, rfl, rfl, rfl, fun _ _ => .some hafter⟩

theorem Alike.next (hS : Agrees S) (h : Alike S r q) :
    r.next.1 = q.next.1 ∧ Alike S r.next.2 q.next.2 := by
  have hup := h.upcoming
  unfold BackupReader.next
  cases hr : r.upcoming with
  | frame f =>
    rw [← hup, hr]
    exact ⟨rfl, advance_alike hS h.header h.maxRecordLength h.counts (h.source f hr)⟩
  | failure e =>
    rw [← hup, hr]
    exact ⟨rfl, h.header, rfl, h.maxRecordLength, h.counts, fun _ hf => nomatch hf⟩
  | nothing =>
    rw [← hup, hr]
    exact ⟨rfl, h⟩

omit [Source σ] [Source τ] [Record φ] in
theorem Alike.hasMore (h : Alike S r q) : r.hasMore = q.hasMore := by
  unfold BackupReader.hasMore
  rw [h.upcoming]

theorem Alike.call (hS : Agrees S) (h : Alike S r q) (c : ReaderCall) :
    (r.call c).1 = (q.call c).1 ∧ Alike S (r.call c).2 (q.call c).2 := by
  obtain ⟨hres, hafter⟩ := h.next hS
  cases c with
  | header => exact ⟨congrArg ReaderAnswer.header h.header, h⟩
  | counts => exact ⟨congrArg ReaderAnswer.counts h.counts, h⟩
  | hasMore => exact ⟨congrArg ReaderAnswer.more h.hasMore, h⟩
  | next => exact ⟨congrArg ReaderAnswer.frame hres, hafter⟩
  | step =>
    unfold BackupReader.call next?
    rw [h.hasMore]
    cases q.hasMore with
    | true => exact ⟨congrArg (ReaderAnswer.step ∘ some) hres, hafter⟩
    | false => exact ⟨rfl, h⟩
  | close => exact ⟨rfl, h.header, rfl, h.maxRecordLength, h.counts, fun _ hf => nomatch hf⟩

theorem Alike.answers (hS : Agrees S) (h : Alike S r q) (calls : List ReaderCall) :
    r.answers calls = q.answers calls := by
  induction calls generalizing r q with
  | nil => rfl
  | cons c calls ih =>
    obtain ⟨hres, hafter⟩ := h.call hS c
    rw [BackupReader.answers, BackupReader.answers, hres, ih hafter]

/-- Opening a backup over sources that agree comes to the same. -/
theorem start_alike [Record η] (hS : Agrees S) {s : σ} {t : τ} (h : S s t) (maxLength : Nat) :
    (∃ e, start s maxLength = (.error e : Except _ (BackupReader σ η φ)) ∧
      start t maxLength = (.error e : Except _ (BackupReader τ η φ))) ∨
    ∃ (r : BackupReader σ η φ) (q : BackupReader τ η φ),
      start s maxLength = .ok r ∧ start t maxLength = .ok q ∧ Alike S r q := by
  have hfetch := hS.fetch η h maxLength
  unfold start
  generalize Record.fetch η s maxLength = x at hfetch
  generalize Record.fetch η t maxLength = y at hfetch
  cases hfetch with
  | error e => exact Or.inl ⟨e, rfl, rfl⟩
  | ok header hafter =>
    refine Or.inr ?_
    cases header with
    | none => exact ⟨_, _, rfl, rfl, rfl, rfl, rfl, rfl, fun _ hf => nomatch hf⟩
    | some header =>
      exact ⟨_, _, rfl, rfl, advance_alike hS rfl rfl rfl (.some hafter)⟩

end BackupReader

/-- Nothing that can be seen of a backup differs between sources that agree. -/
theorem observe_of_agrees {σ τ η φ : Type} [Source σ] [Source τ] [Record η] [Record φ]
    {S : σ → τ → Prop} (hS : Agrees S) {s : σ} {t : τ} (h : S s t) (maxLength : Nat)
    (calls : List ReaderCall) :
    observe (BackupReader.start s maxLength : Except _ (BackupReader σ η φ)) calls =
      observe (BackupReader.start t maxLength : Except _ (BackupReader τ η φ)) calls := by
  rcases BackupReader.start_alike (η := η) (φ := φ) hS h maxLength with
    ⟨e, h₁, h₂⟩ | ⟨r, q, h₁, h₂, halike⟩
  · rw [h₁, h₂]
    rfl
  · rw [h₁, h₂]
    exact congrArg Except.ok (halike.answers hS calls)

/-! ## Sources that bring the same bytes -/

section Bytes

variable {σ τ : Type} [Source σ] [Source τ] {s : σ} {b : Bytes} {ending : Option Failure}

/-- Both sources bring the same bytes and end in the same way. -/
abbrev Matches (s : σ) (t : τ) : Prop := Together Brings Brings s t

theorem agrees_matches : Agrees (Matches : σ → τ → Prop) :=
  agrees_together delivers_brings delivers_brings

/-- A source matches the byte string that it brings. -/
theorem matches_bytes (h : Brings s b none) : Matches s (⟨b⟩ : ByteSource) :=
  ⟨b, none, h, ByteSource.brings b⟩

/-- All that can be seen of a backup depends on the bytes that the source brings alone. -/
theorem observe_of_brings {η φ : Type} [Record η] [Record φ] (h : Brings s b none)
    (maxLength : Nat) (calls : List ReaderCall) :
    observe (BackupReader.start s maxLength : Except _ (BackupReader σ η φ)) calls =
      observe (BackupReader.start (⟨b⟩ : ByteSource) maxLength) calls :=
  observe_of_agrees agrees_matches (matches_bytes h) maxLength calls

end Bytes
end ChatBackup
