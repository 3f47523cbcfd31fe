import ChatBackup.Proofs.DecodedSize
import ChatBackup.Proofs.FailingSource

/-!
# Counts of a reader

A reader counts a record when it was decoded, with the length that is told of it, and it is one
frame ahead of what it hands out. So its counts are those of the header and of the frames that were
handed out with the one that is ahead, and their bytes may be less than the source has given:

> `reader_counts_reconcile`: this holds after any calls over any source. Over a source that brings a
> byte string the records counted stand at its front and are told to be no longer than the bytes
> they take there. Behind a writer, when its records were read to the end, both have counted the
> same.

What is said of a reader and the frames it has decoded so far is kept by every call if it is kept by
reading ahead and by closing (`BackupReader.Kept`). This is used twice, for the counts (`Tallied`)
and for the place in the byte string (`Follows`).
-/

namespace ChatBackup

open Source

/-! ## Records at the front of a byte string -/

namespace Record

variable {α : Type} [Record α] {maxLength : Nat} {b rest : Bytes} {a : α} {records : List α}

/-- The records stand one after another at the front of the byte string, before the rest. -/
inductive Stand (α : Type) [Record α] (maxLength : Nat) : Bytes → List α → Bytes → Prop where
  | nil (b : Bytes) : Stand α maxLength b [] b
  | cons {b rest last : Bytes} {a : α} {records : List α} : Front α maxLength b (.record a) rest →
    Stand α maxLength rest records last → Stand α maxLength b (a :: records) last

theorem Stand.append {last : Bytes} {more : List α} (h : Stand α maxLength b records rest)
    (h' : Stand α maxLength rest more last) : Stand α maxLength b (records ++ more) last := by
  induction h with
  | nil => exact h'
  | cons hfront _ ih => exact .cons hfront (ih h')

/-- What fetching a record over a source comes to, told by the bytes that the source brings. -/
inductive Fetched {σ : Type} [Source σ] (α : Type) [Record α] (maxLength : Nat) (b : Bytes)
    (ending : Option Failure) : Except BackupError (Option α) × σ → Prop where
  | record {rest : Bytes} {a : α} {s : σ} : Front α maxLength b (.record a) rest →
    Brings s rest ending → Fetched α maxLength b ending (.ok (some a), s)
  | ended {s : σ} : b = [] → Fetched α maxLength b ending (.ok none, s)
  | failed {e : BackupError} {s : σ} : Fetched α maxLength b ending (.error e, s)

theorem fetched_of_brings (α : Type) [Record α] (maxLength : Nat) {σ : Type} [Source σ]
    {source : σ} {ending : Option Failure} (h : Brings source b ending) :
    Fetched α maxLength b ending (fetch α source maxLength) := by
  obtain ⟨r, rest, hfront⟩ := exists_front α maxLength b
  cases ending with
  | none =>
    obtain ⟨s, hfetch, hafter⟩ := hfront.fetch_of_brings h
    rw [hfetch]
    cases r with
    | record a => exact .record hfront hafter
    | endOfStream =>
      cases hfront
      exact .ended rfl
    | truncated | failed => exact .failed
  | some f =>
    obtain ⟨s, hfetch, hafter⟩ := hfront.read_broken h
    rw [hfetch]
    cases r with
    | record a => exact .record hfront (hafter rfl)
    | endOfStream | truncated | failed => exact .failed

end Record

/-! ## Calls -/

/-- The frame that is there already, if one is. -/
def Upcoming.frames {φ : Type} : Upcoming φ → List φ
  | frame f => [f]
  | _ => []

/-- The frame that an answer hands out, if it does. -/
def ReaderAnswer.frames {η φ : Type} : ReaderAnswer η φ → List φ
  | frame (.ok f) => [f]
  | step (some (.ok f)) => [f]
  | _ => []

namespace BackupReader

variable {σ η φ : Type} [Source σ] [Record φ] {r : BackupReader σ η φ}

/-- The frames that calls hand out. -/
def handedOut (r : BackupReader σ η φ) (calls : List ReaderCall) : List φ :=
  (r.answers calls).flatMap ReaderAnswer.frames

/-- The frame that is ahead after calls, or that was ahead when one of them closed the reader. -/
def lastAhead (r : BackupReader σ η φ) (calls : List ReaderCall) : List φ :=
  (r.after (calls.takeWhile (· ≠ .close))).upcoming.frames

/-- What is said of a reader and the frames it has decoded is kept. -/
structure Kept (P : BackupReader σ η φ → List φ → Prop) : Prop where
  /-- Another frame is read ahead when one is handed out. -/
  advance : ∀ {r : BackupReader σ η φ} {decoded : List φ} {f : φ}, r.upcoming = .frame f →
    P r decoded → P r.advance (decoded ++ r.advance.upcoming.frames)
  close : ∀ {r : BackupReader σ η φ} {decoded : List φ}, P r decoded → P r.close decoded

theorem frames_next (r : BackupReader σ η φ) :
    (ReaderAnswer.frame r.next.1 : ReaderAnswer η φ).frames = r.upcoming.frames := by
  unfold BackupReader.next
  cases r.upcoming <;> rfl

theorem frames_next? (r : BackupReader σ η φ) :
    (ReaderAnswer.step r.next?.1 : ReaderAnswer η φ).frames = r.upcoming.frames := by
  unfold next? hasMore BackupReader.next
  cases r.upcoming <;> rfl

/-- What a request for the next frame hands out is the frame that was ahead. -/
theorem Kept.next {P : BackupReader σ η φ → List φ → Prop} (hP : Kept P) {done : List φ}
    (h : P r (done ++ r.upcoming.frames)) :
    P r.next.2 (done ++ r.upcoming.frames ++ r.next.2.upcoming.frames) := by
  unfold BackupReader.next
  cases hup : r.upcoming with
  | frame f =>
    rw [hup] at h
    exact hP.advance hup h
  | failure e =>
    rw [hup] at h
    have hclosed : P r.close (done ++ Upcoming.frames (.failure e) ++ []) := by
      rw [List.append_nil]
      exact hP.close h
    exact hclosed
  | nothing =>
    rw [hup] at h
    have hsame : P r (done ++ [] ++ r.upcoming.frames) := by
      rw [hup, List.append_nil]
      exact h
    exact hsame

theorem Kept.call {P : BackupReader σ η φ → List φ → Prop} (hP : Kept P) {done : List φ}
    (h : P r (done ++ r.upcoming.frames)) {c : ReaderCall} (hc : c ≠ .close) :
    P (r.call c).2 (done ++ (r.call c).1.frames ++ (r.call c).2.upcoming.frames) := by
  cases c with
  | close => exact absurd rfl hc
  | header | counts | hasMore =>
    have hnone : P r (done ++ [] ++ r.upcoming.frames) := by
      rw [List.append_nil]
      exact h
    exact hnone
  | next =>
    show P r.next.2 (done ++ (ReaderAnswer.frame r.next.1 : ReaderAnswer η φ).frames ++ _)
    rw [frames_next]
    exact hP.next h
  | step =>
    show P r.next?.2 (done ++ (ReaderAnswer.step r.next?.1 : ReaderAnswer η φ).frames ++
      r.next?.2.upcoming.frames)
    rw [frames_next?, snd_next?]
    exact hP.next h

/-- With nothing ahead a reader can only be closed. -/
theorem call_of_nothing (hup : r.upcoming = .nothing) (c : ReaderCall) :
    ((r.call c).2 = r ∨ (r.call c).2 = r.close) ∧ (r.call c).1.frames = [] := by
  have hnext : r.next.2 = r := by
    unfold BackupReader.next
    rw [hup]
  have hnone : r.upcoming.frames = [] := by
    rw [hup]
    rfl
  cases c with
  | next => exact ⟨Or.inl hnext, (frames_next r).trans hnone⟩
  | step => exact ⟨Or.inl ((snd_next? r).trans hnext), (frames_next? r).trans hnone⟩
  | close => exact ⟨Or.inr rfl, rfl⟩
  | header | counts | hasMore => exact ⟨Or.inl rfl, rfl⟩

theorem after_of_nothing (hup : r.upcoming = .nothing) (calls : List ReaderCall) :
    (r.after calls = r ∨ r.after calls = r.close) ∧ r.handedOut calls = [] := by
  induction calls generalizing r with
  | nil => exact ⟨Or.inl rfl, rfl⟩
  | cons c calls ih =>
    obtain ⟨hcall, hnone⟩ := call_of_nothing hup c
    have hhanded : r.handedOut (c :: calls) = (r.call c).2.handedOut calls := by
      rw [handedOut, answers, List.flatMap_cons, hnone]
      rfl
    rw [hhanded]
    show ((r.call c).2.after calls = r ∨ (r.call c).2.after calls = r.close) ∧ _
    rcases hcall with hsame | hclosed
    · rw [hsame]
      exact ih hup
    · rw [hclosed]
      obtain ⟨hafter, hrest⟩ := ih (r := r.close) rfl
      exact ⟨Or.inr (hafter.elim id id), hrest⟩

/-- What is kept by each call holds of a reader after calls and of the frames that were handed out
with the one that is ahead. -/
theorem Kept.after {P : BackupReader σ η φ → List φ → Prop} (hP : Kept P)
    (calls : List ReaderCall) : ∀ {r : BackupReader σ η φ} {done : List φ},
      P r (done ++ r.upcoming.frames) →
      P (r.after calls) (done ++ (r.handedOut calls ++ r.lastAhead calls)) := by
  induction calls with
  | nil =>
    intro r done h
    exact h
  | cons c calls ih =>
    intro r done h
    by_cases hc : c = .close
    · -- what was ahead is dropped, and nothing follows
      subst hc
      obtain ⟨hafter, hrest⟩ := after_of_nothing (r := r.close) rfl calls
      have hclosed : (r.close).after calls = r.close := hafter.elim id id
      have hhanded : r.handedOut (.close :: calls) = [] := hrest
      have hlast : r.lastAhead (.close :: calls) = r.upcoming.frames := rfl
      show P ((r.close).after calls) _
      rw [hclosed, hhanded, hlast, List.nil_append]
      exact hP.close h
    · have hhanded : r.handedOut (c :: calls) =
          (r.call c).1.frames ++ (r.call c).2.handedOut calls := rfl
      have hlast : r.lastAhead (c :: calls) = (r.call c).2.lastAhead calls := by
        rw [lastAhead, List.takeWhile_cons_of_pos (by simpa using hc)]
        rfl
      have hmore := ih (hP.call h hc)
      rw [hhanded, hlast, List.append_assoc]
      rw [List.append_assoc] at hmore
      exact hmore

/-! ## What is counted -/

variable [Record η] {decoded : List φ}

/-- The counts are those of the header and of the frames that were decoded. -/
structure Tallied (r : BackupReader σ η φ) (decoded : List φ) : Prop where
  headers : r.counts.headers = if r.header.isSome then 1 else 0
  frames : r.counts.frames = decoded.length
  plaintext : r.counts.plaintextBytes =
    (r.header.toList.map Record.wireLength).sum + (decoded.map Record.wireLength).sum

/-- A frame is counted when it is read ahead. -/
theorem Tallied.advance (h : r.Tallied decoded) :
    r.advance.Tallied (decoded ++ r.advance.upcoming.frames) := by
  have hsame : ∀ (source : Option σ) (up : Upcoming φ), up.frames = [] →
      Tallied { r with source, upcoming := up } (decoded ++ up.frames) := by
    intro source up hup
    rw [hup, List.append_nil]
    exact ⟨h.headers, h.frames, h.plaintext⟩
  unfold BackupReader.advance
  split
  · exact hsame _ _ rfl
  · split
    next frame s _ =>
      refine ⟨h.headers, ?_, ?_⟩
      · show r.counts.frames + 1 = (decoded ++ [frame]).length
        rw [h.frames, List.length_append]
        rfl
      · show r.counts.plaintextBytes + Record.wireLength frame =
          _ + ((decoded ++ [frame]).map _).sum
        rw [h.plaintext, List.map_append, List.sum_append, Nat.add_assoc]
        rfl
    · exact hsame _ _ rfl
    · exact hsame _ _ rfl

theorem tallied_kept : Kept (Tallied : BackupReader σ η φ → List φ → Prop) where
  advance _ h := h.advance
  close h := ⟨h.headers, h.frames, h.plaintext⟩

/-- A reader that was opened has counted the header, and the frame that is ahead. -/
theorem start_tallied {source : σ} {maxLength : Nat} {r : BackupReader σ η φ}
    (h : start source maxLength = .ok r) : r.Tallied r.upcoming.frames := by
  unfold start at h
  split at h
  · cases h
  · cases h
    exact ⟨rfl, rfl, rfl⟩
  next header s _ =>
    cases h
    have hheader : 0 + Record.wireLength header = Record.wireLength header + 0 + 0 := by omega
    have hnew : Tallied (φ := φ) {
        source := some s
        header := some header
        upcoming := .nothing
        maxRecordLength := maxLength
        counts := ({} : BackupCounts).countHeader (Record.wireLength header) } [] :=
      ⟨rfl, rfl, hheader⟩
    exact hnew.advance

/-! ## Where the records stand -/

/-- What a reader has read ahead is told by the bytes that are left. -/
inductive Reads (ending : Option Failure) (r : BackupReader σ η φ) (rest : Bytes) : Prop where
  | frame {f : φ} {s : σ} : r.upcoming = .frame f → r.source = some s → Brings s rest ending →
    Reads ending r rest
  | failure {e : BackupError} : r.upcoming = .failure e → Reads ending r rest
  /-- All bytes were read. -/
  | ended : r.upcoming = .nothing → rest = [] → Reads ending r rest
  /-- The source was let go of. -/
  | gone : r.upcoming = .nothing → r.source = none → Reads ending r rest

/-- The frames that were decoded stand behind the header, and what is left is behind them. -/
structure Follows (maxLength : Nat) (ending : Option Failure) (behind : Bytes)
    (r : BackupReader σ η φ) (decoded : List φ) : Prop where
  maxRecordLength : r.maxRecordLength = maxLength
  reads : ∃ rest, Record.Stand φ maxLength behind decoded rest ∧ Reads ending r rest

/-- All that the source has was read, and it was not let go of before. -/
structure AtEnd (r : BackupReader σ η φ) : Prop where
  nothing : r.upcoming = .nothing
  source : r.source ≠ none

omit [Record η] in
theorem maxRecordLength_advance (r : BackupReader σ η φ) :
    r.advance.maxRecordLength = r.maxRecordLength := by
  unfold BackupReader.advance
  split
  · rfl
  · split <;> rfl

omit [Record η] in
/-- Reading ahead takes the record at the front of what is left. -/
theorem advance_reads {s : σ} {rest : Bytes} {ending : Option Failure} (hs : r.source = some s)
    (h : Brings s rest ending) : ∃ rest',
      Record.Stand φ r.maxRecordLength rest r.advance.upcoming.frames rest' ∧
      Reads ending r.advance rest' := by
  have hfetch := Record.fetched_of_brings φ r.maxRecordLength h
  unfold BackupReader.advance
  simp only [hs]
  generalize Record.fetch φ s r.maxRecordLength = x at hfetch
  cases hfetch with
  | record hfront hafter => exact ⟨_, .cons hfront (.nil _), .frame rfl rfl hafter⟩
  | ended hrest => exact ⟨rest, .nil rest, .ended rfl hrest⟩
  | failed => exact ⟨rest, .nil rest, .failure rfl⟩

omit [Record η] in
theorem follows_kept (maxLength : Nat) (ending : Option Failure) (behind : Bytes) :
    Kept (Follows maxLength ending behind : BackupReader σ η φ → List φ → Prop) where
  advance {r decoded f} hup h := by
    obtain ⟨rfl, rest, hstand, hreads⟩ := h
    cases hreads with
    | frame _ hs hrest =>
      obtain ⟨rest', hnext, hafter⟩ := advance_reads hs hrest
      exact ⟨maxRecordLength_advance r, rest', hstand.append hnext, hafter⟩
    | failure h => rw [hup] at h; cases h
    | ended h => rw [hup] at h; cases h
    | gone h => rw [hup] at h; cases h
  close h := by
    obtain ⟨hmax, rest, hstand, -⟩ := h
    exact ⟨hmax, rest, hstand, .gone rfl rfl⟩

omit [Record η] in
theorem Follows.stand_of_atEnd {maxLength : Nat} {ending : Option Failure} {behind : Bytes}
    (h : r.Follows maxLength ending behind decoded) (hend : r.AtEnd) :
    Record.Stand φ maxLength behind decoded [] := by
  obtain ⟨-, rest, hstand, hreads⟩ := h
  cases hreads with
  | frame hup => rw [hend.nothing] at hup; cases hup
  | failure hup => rw [hend.nothing] at hup; cases hup
  | ended _ hrest => rwa [hrest] at hstand
  | gone _ hsource => exact absurd hsource hend.source

/-- How a backup opens: its first record is the header, and what was read ahead is behind it. -/
theorem start_follows {source : σ} {maxLength : Nat} {b : Bytes} {ending : Option Failure}
    {r : BackupReader σ η φ} (hsource : Brings source b ending)
    (h : start source maxLength = .ok r) : ∃ behind,
      Record.Stand η maxLength b r.header.toList behind ∧
      r.Follows maxLength ending behind r.upcoming.frames ∧ (r.header = none → b = []) := by
  have hfetch := Record.fetched_of_brings η maxLength hsource
  unfold start at h
  generalize Record.fetch η source maxLength = x at hfetch h
  cases hfetch with
  | failed => cases h
  | ended hb =>
    cases h
    exact ⟨b, .nil b, ⟨rfl, b, .nil b, .ended rfl hb⟩, fun _ => hb⟩
  | @record behind header s hfront hafter =>
    cases h
    obtain ⟨rest, hnext, hreads⟩ := advance_reads (φ := φ) (η := η) (r := {
      source := some s
      header := some header
      upcoming := .nothing
      maxRecordLength := maxLength
      counts := ({} : BackupCounts).countHeader (Record.wireLength header) }) rfl hafter
    refine ⟨behind, ?_, ⟨maxRecordLength_advance _, rest, hnext, hreads⟩, ?_⟩
    · rw [header_advance]
      exact .cons hfront (.nil behind)
    · intro hnone
      rw [header_advance] at hnone
      cases hnone

end BackupReader

/-! ## Behind a writer -/

namespace Record

variable {α : Type} [Record α] {maxLength : Nat} {records : List α}

/-- Records whose written forms fit in all fit each. -/
theorem fits_of_mem {a : α} (h : (records.flatMap wire).length < UInt64.size) (ha : a ∈ records) :
    Fits a := by
  obtain ⟨before, behind, rfl⟩ := List.append_of_mem ha
  rw [List.flatMap_append, List.flatMap_cons, List.length_append, List.length_append] at h
  exact fits_of_wire (by omega)

variable [Record.Lawful α]

theorem length_wires (h : ∀ a ∈ records, Fits a) :
    (records.flatMap wire).length = (records.map wireLength).sum := by
  induction records with
  | nil => rfl
  | cons a records ih =>
    rw [List.flatMap_cons, List.length_append, length_wire (h a List.mem_cons_self),
      ih fun b hb => h b (List.mem_cons_of_mem a hb), List.map_cons, List.sum_cons]

/-- The record at the front is the one that was written there. -/
theorem Front.eq_of_wire {a b : α} {rest tail : Bytes} (ha : Fits a)
    (h : Front α maxLength (wire a ++ tail) (.record b) rest) : b = a ∧ rest = tail := by
  have hwritten : Front α (UInt64.size - 1) (wire a ++ tail) (.record a) tail :=
    front_wire (Nat.le_sub_one_of_lt ha) (by decide) tail
  obtain ⟨hsame, hrest⟩ := hwritten.unique (h.unlimited fun _ _ hr => nomatch hr)
  cases hsame
  exact ⟨rfl, hrest⟩

/-- The records that make up a byte string are those that were written. -/
theorem Stand.eq_of_wires : ∀ {records read : List α}, (∀ a ∈ records, Fits a) →
    Stand α maxLength (records.flatMap wire) read [] → read = records := by
  intro records
  induction records with
  | nil =>
    intro read _ h
    cases h with
    | nil => rfl
    | cons hfront => cases (Front.endOfStream.unique hfront).1
  | cons a records ih =>
    intro read hfits h
    rw [List.flatMap_cons] at h
    generalize hlast : ([] : Bytes) = last at h
    cases h with
    | nil => exact absurd (List.append_eq_nil_iff.mp hlast.symm).1 (wire_ne_nil a)
    | cons hfront hmore =>
      obtain ⟨rfl, rfl⟩ := hfront.eq_of_wire (hfits a List.mem_cons_self)
      subst hlast
      rw [ih (fun b hb => hfits b (List.mem_cons_of_mem _ hb)) hmore]

end Record

namespace WriterCall

variable {η φ : Type} [Record η] [Record φ] {header : Option η} {frames : List φ}
  {history : List (WriterCall × Except BackupError Unit)} {s t : WriteProgress}

/-- The call writes a header of the first type or a frame of the second one, or closes. -/
inductive IsOf (η φ : Type) [Record η] [Record φ] : WriterCall → Prop where
  | header (a : η) : IsOf η φ (.header a)
  | frame (a : φ) : IsOf η φ (.frame a)
  | close : IsOf η φ .close

/-- The length of the record of a call, without the length in front of it. -/
def bodyLength : WriterCall → Nat
  | @WriterCall.header α _ a => ((Record.schema (α := α)).encode a).length
  | @WriterCall.frame α _ a => ((Record.schema (α := α)).encode a).length
  | .close => 0

/-- The records that calls have written are these. -/
structure Sends (history : List (WriterCall × Except BackupError Unit)) (header : Option η)
    (frames : List φ) : Prop where
  /-- They were given to the calls. -/
  given : header.toList.map WriterCall.header ++ frames.map WriterCall.frame ⊆
    history.map Prod.fst
  sent : sent history = header.toList.flatMap Record.wire ++ frames.flatMap Record.wire
  headers : history.countP writesHeader = if header.isSome then 1 else 0
  frames : history.countP writesFrame = frames.length

theorem sends_nil : Sends [] (none : Option η) ([] : List φ) := ⟨List.Subset.refl _, rfl, rfl, rfl⟩

/-- A call that fails has written nothing. -/
theorem Sends.error (h : Sends history header frames) (c : WriterCall) (e : BackupError) :
    Sends ((c, .error e) :: history) header frames where
  given := List.subset_cons_of_subset c h.given
  sent := by
    rw [WriterCall.sent, List.flatMap_cons, added_error]
    exact h.sent
  headers := by
    rw [List.countP_cons_of_neg (by rw [writesHeader_error]; exact Bool.false_ne_true)]
    exact h.headers
  frames := by
    rw [List.countP_cons_of_neg (by rw [writesFrame_error]; exact Bool.false_ne_true)]
    exact h.frames

theorem sends_of_errors (h : ∀ x ∈ history, x.2 ≠ .ok ()) :
    Sends history (none : Option η) ([] : List φ) := by
  induction history with
  | nil => exact sends_nil
  | cons x history ih =>
    obtain ⟨c, r⟩ := x
    have hmore := ih fun y hy => h y (List.mem_cons_of_mem _ hy)
    cases r with
    | ok => exact absurd rfl (h _ List.mem_cons_self)
    | error e => exact hmore.error c e

/-- Behind a header only frames are written. -/
theorem exists_frames_sent (h : WriteProgress.Path s history t) (hs : s ≠ .created)
    (hof : ∀ x ∈ history, x.1.IsOf η φ) :
    ∃ frames : List φ, Sends history (none : Option η) frames := by
  induction h with
  | nil => exact ⟨[], sends_nil⟩
  | @cons s s' t c r history hmove _ ih =>
    obtain ⟨hs', hno⟩ := hmove.not_writesHeader hs
    obtain ⟨frames, hmore⟩ := ih hs' fun x hx => hof x (List.mem_cons_of_mem _ hx)
    cases r with
    | error e => exact ⟨frames, hmore.error c e⟩
    | ok u =>
      cases hof _ List.mem_cons_self with
      | header a => cases hno
      | frame a =>
        refine ⟨a :: frames, List.cons_subset_cons _ hmore.given, ?_, ?_, ?_⟩
        · rw [sent, List.flatMap_cons, List.flatMap_cons]
          exact congrArg (Record.wire a ++ ·) hmore.sent
        · exact hmore.headers
        · rw [List.countP_cons_of_pos rfl, hmore.frames, List.length_cons]
      | close =>
        exact ⟨frames, List.subset_cons_of_subset _ hmore.given, hmore.sent, hmore.headers,
          hmore.frames⟩

/-- A writer has written nothing, or a header with frames behind it. -/
theorem exists_records_sent (h : WriteProgress.Path s history t) (hs : s = .created)
    (hof : ∀ x ∈ history, x.1.IsOf η φ) :
    ∃ (header : Option η) (frames : List φ),
      (header = none → frames = []) ∧ Sends history header frames := by
  induction h with
  | nil => exact ⟨none, [], fun _ => rfl, sends_nil⟩
  | @cons s s' t c r history hmove hpath ih =>
    subst hs
    have hrest : ∀ x ∈ history, x.1.IsOf η φ := fun x hx => hof x (List.mem_cons_of_mem _ hx)
    cases hmove with
    | header a =>
      obtain ⟨frames, hmore⟩ := exists_frames_sent (η := η) hpath (by simp) hrest
      cases hof _ List.mem_cons_self with
      | header a =>
        refine ⟨some a, frames, fun hnone => (nomatch hnone),
          List.cons_subset_cons _ hmore.given, ?_, ?_, ?_⟩
        · rw [sent, List.flatMap_cons]
          refine (congrArg (Record.wire a ++ ·) hmore.sent).trans ?_
          simp
        · rw [List.countP_cons_of_pos rfl, hmore.headers]
          rfl
        · exact hmore.frames
    | refused =>
      obtain ⟨header, frames, hnone, hmore⟩ := ih rfl hrest
      exact ⟨header, frames, hnone, hmore.error c _⟩
    | failing f =>
      have herrors := sends_of_errors (η := η) (φ := φ) fun x hx => hpath.failed_result rfl hx
      exact ⟨none, [], fun _ => rfl, herrors.error c _⟩

end WriterCall

/-! ## At the end -/

namespace BackupReader

variable {σ η φ : Type} [Source σ] [Record η] [Record φ] {r : BackupReader σ η φ}
  {source : σ} {maxLength : Nat} {b : Bytes} {ending : Option Failure}

/-- After any calls the records that were decoded stand at the front of what the source brings. -/
theorem after_stand (hsource : Brings source b ending) (h : start source maxLength = .ok r)
    (calls : List ReaderCall) : ∃ behind,
      Record.Stand η maxLength b r.header.toList behind ∧
      (r.after calls).Follows maxLength ending behind (r.handedOut calls ++ r.lastAhead calls) ∧
      (r.header = none → b = []) := by
  obtain ⟨behind, hheader, hfollows, hnone⟩ := start_follows hsource h
  have hopened : r.Follows maxLength ending behind ([] ++ r.upcoming.frames) := hfollows
  exact ⟨behind, hheader, (follows_kept maxLength ending behind).after calls hopened, hnone⟩

theorem after_tallied (h : start source maxLength = .ok r) (calls : List ReaderCall) :
    (r.after calls).Tallied (r.handedOut calls ++ r.lastAhead calls) := by
  have hopened : r.Tallied ([] ++ r.upcoming.frames) := start_tallied h
  exact tallied_kept.after calls hopened

omit [Record η] in
theorem after_append (r : BackupReader σ η φ) (calls more : List ReaderCall) :
    r.after (calls ++ more) = (r.after calls).after more := List.foldl_append

omit [Record η] in
/-- At the end nothing more is counted. -/
theorem AtEnd.counts_after (h : r.AtEnd) (calls : List ReaderCall) :
    (r.after calls).counts = r.counts := by
  rcases (after_of_nothing h.nothing calls).1 with hsame | hclosed
  · rw [hsame]
  · rw [hclosed]
    rfl

omit [Record η] in
theorem source_advance (h : r.source ≠ none) : r.advance.source ≠ none := by
  unfold BackupReader.advance
  split
  next hs => exact absurd hs h
  · split <;> exact Option.some_ne_none _

theorem source_start (h : start source maxLength = .ok r) : r.source ≠ none := by
  unfold start at h
  split at h
  · cases h
  · cases h
    exact Option.some_ne_none _
  · cases h
    exact source_advance (Option.some_ne_none _)

omit [Record η] in
/-- To ask for all frames leads to the end. -/
theorem Yields.atEnd {frames : List φ} (h : r.Yields frames) (hs : r.source ≠ none) :
    (r.after (List.replicate frames.length .next)).AtEnd := by
  induction h with
  | @nil r hmore =>
    refine ⟨?_, hs⟩
    unfold hasMore at hmore
    cases hup : r.upcoming with
    | nothing => exact hup
    | frame | failure => rw [hup] at hmore; cases hmore
  | @cons r r' f frames _ hnext _ ih =>
    have hcall : (r.call .next).2 = r' := congrArg Prod.snd hnext
    have hadvance : r' = r.advance := by
      unfold BackupReader.next at hnext
      split at hnext <;> cases hnext
      rfl
    show ((r.call .next).2.after _).AtEnd
    rw [hcall]
    exact ih (hadvance ▸ source_advance hs)

/-- What opening a reader comes to if it is over what calls have sent through a writer. -/
structure Recounts {δ : Type} (opened : Except BackupError (BackupReader σ η φ))
    (settings : ReadSettings) (calls : List WriterCall) (w : BackupWriter δ) : Prop where
  /-- Once it was at the end it has counted the same records as the writer. -/
  same : ∀ r, opened = .ok r → ∀ reads more, (r.after reads).AtEnd →
    w.counts.SameRecords (r.after (reads ++ more)).counts
  /-- It gets to the end if its limit covers the records. -/
  ends : settings.check = .ok () → settings.maxRecordLength < UInt64.size →
    (∀ c ∈ calls, c.bodyLength ≤ settings.maxRecordLength) →
    ∃ r, opened = .ok r ∧ ∃ reads, (r.after reads).AtEnd

variable [Record.Lawful η] [Record.Lawful φ]

/-- At the end of what a writer has sent a reader has decoded just its records. -/
theorem decoded_of_sent {header read : Option η} {frames decoded : List φ} {behind : Bytes}
    (hnone : header = none → frames = [])
    (hfits : (header.toList.flatMap Record.wire ++ frames.flatMap Record.wire).length < UInt64.size)
    (hempty : read = none → header.toList.flatMap Record.wire ++ frames.flatMap Record.wire = [])
    (hheader : Record.Stand η maxLength
      (header.toList.flatMap Record.wire ++ frames.flatMap Record.wire) read.toList behind)
    (hframes : Record.Stand φ maxLength behind decoded []) : read = header ∧ decoded = frames := by
  rw [List.length_append] at hfits
  have hfit : ∀ a ∈ frames, Record.Fits a := fun a ha => Record.fits_of_mem (by omega) ha
  cases header with
  | none =>
    obtain rfl := hnone rfl
    cases read with
    | none =>
      cases hheader with
      | nil => exact ⟨rfl, hframes.eq_of_wires hfit⟩
    | some a =>
      cases hheader with
      | cons hfront => cases (Record.Front.endOfStream.unique hfront).1
  | some a =>
    rw [Option.toList_some, List.flatMap_singleton] at hfits hempty hheader
    cases read with
    | none => exact absurd (List.append_eq_nil_iff.mp (hempty rfl)).1 (Record.wire_ne_nil a)
    | some a' =>
      cases hheader with
      | cons hfront hmore =>
        obtain ⟨rfl, rfl⟩ := hfront.eq_of_wire (Record.fits_of_wire (by omega))
        cases hmore with
        | nil => exact ⟨rfl, hframes.eq_of_wires hfit⟩

/-- A reader whose limit covers the records of a writer gets to the end of what it has sent. -/
theorem exists_atEnd {header : Option η} {frames : List φ} (hnone : header = none → frames = [])
    (hmax : maxLength < UInt64.size)
    (hheader : ∀ a ∈ header, (Record.schema.encode a).length ≤ maxLength)
    (hframes : ∀ a ∈ frames, (Record.schema.encode a).length ≤ maxLength)
    (hsource : Brings source
      (header.toList.flatMap Record.wire ++ frames.flatMap Record.wire) none) :
    ∃ r : BackupReader σ η φ, start source maxLength = .ok r ∧
      ∃ calls, (r.after calls).AtEnd := by
  cases header with
  | none =>
    rw [hnone rfl] at hsource
    have hend : Record.Front η maxLength [] .endOfStream [] := .endOfStream
    obtain ⟨s, hfetch, -⟩ := hend.fetch_of_brings hsource
    unfold start
    rw [hfetch]
    exact ⟨_, rfl, [], rfl, Option.some_ne_none s⟩
  | some a =>
    have hwire : Brings source (BackupWriter.backupWire a frames) none := by
      rw [Option.toList_some, List.flatMap_singleton] at hsource
      exact hsource
    obtain ⟨r, hstart, -, hyields⟩ := start_of_brings hwire hmax (hheader a rfl) hframes
    exact ⟨r, hstart, _, hyields.atEnd (source_start hstart)⟩

/-- Over what a writer has sent a reader comes to the same counts. -/
theorem counts_at_end {δ : Type} [RecordOutput δ] {w : BackupWriter δ}
    {history : List (WriterCall × Except BackupError Unit)} {header : Option η} {frames : List φ}
    (hw : w.Reconciled history) (hnone : header = none → frames = [])
    (hsends : WriterCall.Sends history header frames)
    (hlen : w.counts.plaintextBytes < UInt64.size)
    (hsource : Brings source (WriterCall.sent history) ending)
    (h : start source maxLength = .ok r) {calls : List ReaderCall} (hend : (r.after calls).AtEnd) :
    w.counts.SameRecords (r.after calls).counts := by
  obtain ⟨behind, hheader, hfollows, hempty⟩ := after_stand hsource h calls
  have hframes := hfollows.stand_of_atEnd hend
  have hplaintext := hw.plaintext
  rw [hplaintext] at hlen
  rw [hsends.sent] at hheader hempty hlen hplaintext
  obtain ⟨hread, hdecoded⟩ := decoded_of_sent hnone hlen hempty hheader hframes
  have htallied := after_tallied h calls
  rw [hdecoded] at htallied
  rw [List.length_append] at hlen hplaintext
  have hlengths : (header.toList.flatMap Record.wire).length =
      (header.toList.map Record.wireLength).sum ∧
      (frames.flatMap Record.wire).length = (frames.map Record.wireLength).sum :=
    ⟨Record.length_wires fun a ha => Record.fits_of_mem (by omega) ha,
      Record.length_wires fun a ha => Record.fits_of_mem (by omega) ha⟩
  have hkept : (r.after calls).header = header := (header_after r calls).trans hread
  refine ⟨?_, ?_, ?_⟩
  · rw [htallied.headers, hkept, hw.headers, hsends.headers]
  · rw [htallied.frames, hw.frames, hsends.frames]
  · rw [htallied.plaintext, hkept, hplaintext, hlengths.1, hlengths.2]

/-- A reader counts like a writer if opening it is to read records from what the writer has sent. -/
theorem recounts {δ : Type} [RecordOutput δ] {w₀ : BackupWriter δ} {calls : List WriterCall}
    {opened : Except BackupError (BackupReader σ η φ)} {settings : ReadSettings}
    (hw : (w₀.run calls).2.Reconciled (w₀.run calls).1)
    (hpath : WriteProgress.Path .created (w₀.run calls).1 (w₀.run calls).2.state)
    (hcalls : ∀ c ∈ calls, c.IsOf η φ)
    (hlen : (w₀.run calls).2.counts.plaintextBytes < UInt64.size)
    (hrefused : ∀ e, settings.check = .error e → opened = .error (.settings e))
    (hopened : settings.check = .ok () → ∃ source : σ,
      Brings source (WriterCall.sent (w₀.run calls).1) none ∧
      opened = start source settings.maxRecordLength) :
    Recounts opened settings calls (w₀.run calls).2 := by
  obtain ⟨header, frames, hnone, hsends⟩ := WriterCall.exists_records_sent hpath rfl
    fun x hx => hcalls x.1 (BackupWriter.fst_mem_of_mem_run hx)
  constructor
  · intro r hr reads more hend
    cases hcheck : settings.check with
    | error e =>
      rw [hrefused e hcheck] at hr
      cases hr
    | ok u =>
      obtain ⟨source, hsource, hstart⟩ := hopened hcheck
      rw [after_append, hend.counts_after]
      exact counts_at_end hw hnone hsends hlen hsource (hstart.symm.trans hr) hend
  · intro hcheck hmax hlimit
    obtain ⟨source, hsource, hstart⟩ := hopened hcheck
    have hgiven := hsends.given
    rw [BackupWriter.map_fst_run] at hgiven
    rw [hsends.sent] at hsource
    rw [hstart]
    refine exists_atEnd hnone hmax (fun a ha => ?_) (fun a ha => ?_) hsource
    · exact hlimit (.header a) (hgiven (List.mem_append_left _
        (List.mem_map_of_mem (Option.mem_toList.mpr ha))))
    · exact hlimit (.frame a) (hgiven (List.mem_append_right _ (List.mem_map_of_mem ha)))

end BackupReader

theorem PlainReader.start_refused {σ η φ : Type} [Source σ] [Record η] [Record φ] (source : σ)
    {settings : ReadSettings} {e : SettingsError} (h : settings.check = .error e) :
    (start source settings : Except _ (PlainReader σ η φ)) = .error (.settings e) := by
  unfold start
  rw [h]

theorem EncryptedReader.start_refused {σ η φ : Type} [SeekableSource σ] [Record η] [Record φ]
    (source : σ) (key : BackupKey) {settings : ReadSettings} {e : SettingsError}
    (h : settings.check = .error e) :
    (start source key settings : Except _ (EncryptedReader σ η φ)) = .error (.settings e) := by
  unfold start
  rw [h]

/-- Records of any type take as many bytes at least as they are told to be long. -/
theorem RecordType.length_stand {t : RecordType} {maxLength : Nat} {b rest : Bytes}
    {records : List t.Value} (h : Record.Stand t.Value maxLength b records rest) :
    (records.map Record.wireLength).sum + rest.length ≤ b.length := by
  induction h with
  | nil => exact Nat.le_of_eq (Nat.zero_add _)
  | cons hfront _ ih =>
    have hfirst := t.wireLength_le hfront
    rw [List.map_cons, List.sum_cons]
    omega

/-! ## The main statement -/

/-- **The counts of a reader agree with what it read.** A record of any type that is taken off the
front of bytes in memory is told to be no longer than the bytes that it takes there, whatever they
are. After any calls over any source the headers counted are the one that was read, if one was, the
frames counted are those that were handed out and the one that is ahead, or was when the reader was
closed, and the bytes counted are the lengths told of these records. Over a source that brings a
byte string these records stand at its front, one after another, and the bytes counted are at most
those in front of what is left behind them. Over what a plain writer has sent that has not failed,
or an encrypted writer that was closed, a reader that was at the end has counted the same headers,
frames and bytes as the writer, also after it was closed; and it does get to the end if its limit
covers the records. -/
theorem reader_counts_reconcile :
    (∀ (t : RecordType) (b : Bytes) (a : t.Value) (n : Nat),
      Record.ofBytes t.Value b = .ok (some (a, n)) → Record.wireLength a ≤ n) ∧
    (∀ {σ η φ : Type} [Source σ] [Record η] [Record φ] (source : σ) (maxLength : Nat)
      (r : BackupReader σ η φ), BackupReader.start source maxLength = .ok r →
      ∀ calls, (r.after calls).Tallied (r.handedOut calls ++ r.lastAhead calls) ∧
        (r.lastAhead calls).length ≤ 1) ∧
    (∀ (t u : RecordType) {σ : Type} [Source σ] (source : σ) (b : Bytes) (ending : Option Failure)
      (maxLength : Nat) (r : BackupReader σ t.Value u.Value), Brings source b ending →
      BackupReader.start source maxLength = .ok r →
      ∀ calls, ∃ behind rest, Record.Stand t.Value maxLength b r.header.toList behind ∧
        Record.Stand u.Value maxLength behind (r.handedOut calls ++ r.lastAhead calls) rest ∧
        (r.after calls).counts.plaintextBytes ≤ b.length - rest.length) ∧
    (∀ (t u : RecordType) {σ : Type} [Sink σ] {T : Sink.Ledger σ}, Sink.Records T →
      ∀ (sink : σ) (calls : List WriterCall), T sink [] → (∀ c ∈ calls, c.IsOf t.Value u.Value) →
      let w := ((PlainWriter.start sink).run calls).2
      w.state ≠ .failed → w.counts.plaintextBytes < UInt64.size →
      ∃ content, T w.output.sink content ∧
        ∀ {τ : Type} [Source τ] (source : τ) (settings : ReadSettings), Brings source content none →
          BackupReader.Recounts (PlainReader.start source settings :
            Except _ (PlainReader τ t.Value u.Value)) settings calls w) ∧
    ∀ (t u : RecordType) (C : Compressor) {σ : Type} [AppendSink σ] {T E : Sink.Ledger σ},
      AppendSink.RecordsAll T E → ∀ (sink : σ) (key : BackupKey) (iv : Block)
      (draws : List UInt64) (settings : WriteSettings) (w₀ : EncryptedWriter C σ)
      (calls : List WriterCall), T sink [] →
      EncryptedWriter.start C sink key iv draws settings = .ok w₀ →
      (∀ c ∈ calls, c.IsOf t.Value u.Value) →
      let w := (w₀.run calls).2
      w.state = .closed → w.counts.plaintextBytes < UInt64.size →
      ∃ sink' content, w.output = .finished sink' ∧ E sink' content ∧
        ∀ {τ : Type} [SeekableSource τ] (source : τ) (settings : ReadSettings),
          SeekableSource.Holds source content →
          BackupReader.Recounts (EncryptedReader.start source key settings :
            Except _ (EncryptedReader τ t.Value u.Value)) settings calls w := by
  refine ⟨?_, ?_, ?_, ?_, ?_⟩
  · intro t b a n h
    obtain ⟨r, rest, hfront⟩ := Record.exists_front t.Value (UInt64.size - 1) b
    rw [hfront.ofBytes] at h
    cases r with
    | record a' =>
      cases h
      have hlength := t.wireLength_le hfront
      omega
    | endOfStream | truncated | failed => cases h
  · intro σ η φ _ _ _ source maxLength r hstart calls
    refine ⟨BackupReader.after_tallied hstart calls, ?_⟩
    unfold BackupReader.lastAhead
    cases (r.after _).upcoming with
    | frame f => exact Nat.le_refl 1
    | failure | nothing => exact Nat.zero_le 1
  · intro t u σ _ source b ending maxLength r hsource hstart calls
    obtain ⟨behind, hheader, ⟨-, rest, hframes, -⟩, -⟩ :=
      BackupReader.after_stand hsource hstart calls
    refine ⟨behind, rest, hheader, hframes, ?_⟩
    have hplaintext := (BackupReader.after_tallied hstart calls).plaintext
    rw [BackupReader.header_after] at hplaintext
    have hfirst := RecordType.length_stand hheader
    have hmore := RecordType.length_stand hframes
    omega
  · intro t u σ _ T hT sink calls hsink hcalls w hopen hlen
    have hpath := (BackupWriter.run_path (w := PlainWriter.start sink) PlainOutput.ready calls
      (Or.inr (Or.inr trivial))).1
    have hwrote := BackupWriter.run_wrote (w := PlainWriter.start sink) (PlainOutput.outputs hT)
      calls hsink
    refine ⟨_, hwrote.of_not_failed hopen, ?_⟩
    intro τ _ source settings hsource
    exact BackupReader.recounts (BackupWriter.run_reconciled PlainOutput.countsAtEnd rfl calls)
      hpath hcalls hlen (fun e he => PlainReader.start_refused source he)
      (fun hcheck => PlainReader.start_of_brings hcheck hsource)
  · intro t u C σ _ T E hT sink key iv draws settings w₀ calls hsink hw hcalls w hclosed hlen
    obtain ⟨hstate, hcounts, -⟩ := EncryptedWriter.start_ok hT.toRecords hsink hw
    obtain ⟨sink', content, hout, hE, hsealed⟩ :=
      EncryptedWriter.run_sealed hT hsink hw calls hclosed
    have hpath := (BackupWriter.run_path EncryptedOutput.ready calls
      (EncryptedWriter.start_sound hw)).1
    rw [hstate] at hpath
    refine ⟨sink', content, hout, hE, ?_⟩
    intro τ _ source readSettings hholds
    exact BackupReader.recounts
      (BackupWriter.run_reconciled EncryptedOutput.countsAtEnd hcounts calls) hpath hcalls hlen
      (fun e he => EncryptedReader.start_refused source key he)
      (fun hcheck => EncryptedReader.start_of_sealed hcheck hholds hsealed)

/-- A header behind an overlong length and a recipient in two parts take thirteen bytes and are told
to be eight long; the frame that was ahead stays counted when it is dropped. Behind a plain writer
and an encrypted one, which have refused a frame, the reader of a whole backup counts the same. -/
theorem reader_counts_reconcile_of_overlong :
    let frame := Frame.recipient 7
    let split : Bytes := [8, 18, 2, 8, 9, 18, 2, 8, 7]
    let calls : List WriterCall :=
      [.frame frame, .header (BackupInfo.current 0), .frame frame, .close]
    let key : BackupKey := ⟨List.replicate 32 1, List.replicate 32 2, rfl, rfl⟩
    (Record.ofBytes Frame split = .ok (some (frame, 9)) ∧ Record.wireLength frame ≤ 9) ∧
    (∃ r : BackupReader ByteSource BackupInfo Frame,
      BackupReader.start (⟨[130, 0, 8, 1] ++ split⟩ : ByteSource) 8 = .ok r ∧
      r.handedOut [.close] = [] ∧
      (r.after [.close]).counts = { headers := 1, frames := 1, plaintextBytes := 8 } ∧
      (r.after [.close]).Tallied [frame] ∧
      ∃ behind rest, Record.Stand BackupInfo 8 ([130, 0, 8, 1] ++ split) r.header.toList behind ∧
        Record.Stand Frame 8 behind [frame] rest ∧
        (r.after [.close]).counts.plaintextBytes ≤ 13 - rest.length) ∧
    (∃ (w : PlainWriter ScriptedSink) (r : PlainReader ScriptedSource BackupInfo Frame)
      (reads : List ReaderCall), ((PlainWriter.start {}).run calls).2 = w ∧
      PlainReader.start (ScriptedSource.ofBytes w.output.sink.bytes) {} = .ok r ∧
      (r.after reads).AtEnd ∧ w.counts.SameRecords (r.after (reads ++ [.close])).counts) ∧
    ∃ (w : EncryptedWriter Deflater.compressor ScriptedSink) (sink : ScriptedSink)
      (r : EncryptedReader ScriptedSource BackupInfo Frame) (reads : List ReaderCall),
      w.output = .finished sink ∧ w.counts.frames = 1 ∧
      EncryptedReader.start (ScriptedSource.ofBytes sink.bytes) key {} = .ok r ∧
      (r.after reads).AtEnd ∧ w.counts.SameRecords (r.after (reads ++ [.close])).counts := by
  intro frame split calls key
  obtain ⟨hlength, htallied, hbounded, hplain, hencrypted⟩ := reader_counts_reconcile
  have hcalls : ∀ c ∈ calls, c.IsOf BackupInfo Frame := by
    simp only [calls, List.forall_mem_cons]
    exact ⟨.frame frame, .header _, .frame frame, .close, fun _ h => nomatch h⟩
  have hlimit : ∀ c ∈ calls, c.bodyLength ≤ ({} : ReadSettings).maxRecordLength := by
    simp only [calls, List.forall_mem_cons]
    exact ⟨by decide +kernel, by decide +kernel, by decide +kernel, by decide,
      fun _ h => nomatch h⟩
  have hnew : ScriptedSink.Faultless {} ∧ ScriptedSink.Written {} [] :=
    ⟨ScriptedSink.faultless_new, ScriptedSink.written_new⟩
  refine ⟨?_, ?_, ?_, ?_⟩
  · have hread : Record.ofBytes Frame split = .ok (some (frame, 9)) := rfl
    exact ⟨hread, hlength .frame split frame 9 hread⟩
  · have hopened : (BackupReader.start (⟨[130, 0, 8, 1] ++ split⟩ : ByteSource) 8 :
        Except _ (BackupReader ByteSource BackupInfo Frame)).toOption.map (fun r =>
          (r.lastAhead [.close], (r.after [.close]).counts)) =
        some ([frame], { headers := 1, frames := 1, plaintextBytes := 8 }) := by
      decide +kernel
    cases hstart : (BackupReader.start (⟨[130, 0, 8, 1] ++ split⟩ : ByteSource) 8 :
        Except _ (BackupReader ByteSource BackupInfo Frame)) with
    | error e =>
      rw [hstart] at hopened
      cases hopened
    | ok r =>
      rw [hstart] at hopened
      injection hopened with hopened
      injection hopened with hahead hcounts
      obtain ⟨htally, -⟩ := htallied _ 8 r hstart [.close]
      obtain ⟨behind, rest, hheader, hstand, hbound⟩ := hbounded .backupInfo .frame _ _ none 8 r
        (ByteSource.brings ([130, 0, 8, 1] ++ split)) hstart [.close]
      have hframes : Record.Stand Frame 8 behind (r.handedOut [.close] ++ r.lastAhead [.close])
        rest := hstand
      rw [hahead] at htally hframes
      exact ⟨r, rfl, rfl, hcounts, htally, behind, rest, hheader, hframes, hbound⟩
  · have hstate : ((PlainWriter.start ({} : ScriptedSink)).run calls).2.state = .closed := by
      decide +kernel
    obtain ⟨b, ⟨-, hbody, htail⟩, hread⟩ := hplain .backupInfo .frame
      ScriptedSink.takes.toTakes.toRecords {} calls hnew hcalls (by rw [hstate]; simp)
      (by decide +kernel)
    have hrecounts := hread (ScriptedSource.ofBytes b) {} (ScriptedSource.brings_ofBytes b)
    obtain ⟨r, hstart, reads, hend⟩ := hrecounts.ends rfl (by decide) hlimit
    refine ⟨_, r, reads, rfl, ?_, hend, hrecounts.same r hstart reads [.close] hend⟩
    rw [ScriptedSink.bytes, htail, List.append_nil, hbody]
    exact hstart
  · have hwritten : (EncryptedWriter.start Deflater.compressor ({} : ScriptedSink) key .zero []
        { compressionLevel := 0, padding := .disabled }).toOption.map (fun w =>
          ((w.run calls).2.state, (w.run calls).2.counts.frames,
            (w.run calls).2.counts.plaintextBytes)) = some (.closed, 1, 8) := by
      decide +kernel
    cases hw : EncryptedWriter.start Deflater.compressor ({} : ScriptedSink) key .zero []
        { compressionLevel := 0, padding := .disabled } with
    | error e =>
      rw [hw] at hwritten
      cases hwritten
    | ok w =>
      rw [hw] at hwritten
      injection hwritten with hwritten
      injection hwritten with hclosed hwritten
      injection hwritten with hframes hbytes
      obtain ⟨sink, b, hout, ⟨-, hwhole⟩, hread⟩ := hencrypted .backupInfo .frame
        Deflater.compressor ScriptedSink.takes.toRecordsAll {} key .zero [] _ w calls hnew hw hcalls
        hclosed (by rw [hbytes]; decide)
      have hrecounts := hread (ScriptedSource.ofBytes b) {} (ScriptedSource.holds_ofBytes b)
      obtain ⟨r, hstart, reads, hend⟩ := hrecounts.ends rfl (by decide) hlimit
      have hsink : sink.bytes = b := hwhole
      refine ⟨_, sink, r, reads, hout, hframes, ?_, hend,
        hrecounts.same r hstart reads [.close] hend⟩
      rw [hsink]
      exact hstart

end ChatBackup
