import ChatBackup.Proofs.RoundTrip

/-!
# What a reader makes of any bytes

A byte string, good or bad, is a series of records that stops at a clean end or at a failure
(`Record.series`). A reader of backups hands out just this series behind the header:

> `plain_reader_serves`: a plain backup opens with its first record as the header, or fails with
> the failure in its place. At any point afterwards what is left is the series without as many
> results as were asked for, and nothing once the reader was closed.

A reader is one frame ahead. The invariant that removes this shift (`BackupReader.Offers`) speaks of
the results that a reader still owes: none, only a failure, or a frame that is there already and
the series of what its source has left. One lemma per call keeps it.
-/

namespace ChatBackup

open Source

/-! ## The records of a byte string -/

namespace Record

variable {α : Type} [Record α] {maxLength n : Nat} {b : Bytes} {s : ByteSource}

/-- A record takes a byte at least. -/
theorem fetch_shortens {a : α}
    (h : Record.fetch α (⟨b⟩ : ByteSource) maxLength = (.ok (some a), s)) :
    s.rest.length < b.length := by
  obtain ⟨r, rest, hfront⟩ := exists_front α maxLength b
  rw [hfront.fetch] at h
  cases hfront with
  | @record p body rest a hform _ _ =>
    cases h
    have hpos := hform.length_pos
    simp only [List.length_append]
    omega
  | _ => cases h

theorem fetch_eq_none_iff (maxLength : Nat) :
    (Record.fetch α (⟨b⟩ : ByteSource) maxLength).1 = .ok none ↔ b = [] := by
  constructor
  · intro h
    obtain ⟨r, rest, hfront⟩ := exists_front α maxLength b
    rw [hfront.fetch] at h
    cases hfront with
    | endOfStream => rfl
    | _ => cases h
  · rintro rfl
    rw [fetch_nil]

/-- A failure to take a record is never that none is left. -/
theorem fetch_ne_noSuchElement {σ : Type} [Source σ] (s : σ) (maxLength : Nat) :
    (Record.fetch α s maxLength).1 ≠ .error .noSuchElement := by
  unfold Record.fetch
  split
  · simp
  next r t _ =>
    intro h
    cases r <;> cases h

/-- The byte of a zero is a record with all fields at their defaults. -/
theorem fetch_zero (rest : Bytes) :
    Record.fetch α (⟨0 :: rest⟩ : ByteSource) maxLength =
      (.ok (some (Record.schema (α := α)).empty), ⟨rest⟩) := (Front.zero rest).fetch

/-- The records at the front of a byte string, taken one after another, and the failure at which
they stop; nothing if they stop at the clean end. -/
def series (α : Type) [Record α] (maxLength : Nat) (b : Bytes) : List α × Option BackupError :=
  match h : Record.fetch α (⟨b⟩ : ByteSource) maxLength with
  | (.ok (some a), s) =>
    have := fetch_shortens h
    let more := series α maxLength s.rest
    (a :: more.1, more.2)
  | (.ok none, _) => ([], none)
  | (.error e, _) => ([], some e)
termination_by b.length

/-- The results of taking the records, the failure last. -/
def results (α : Type) [Record α] (maxLength : Nat) (b : Bytes) : List (Except BackupError α) :=
  (series α maxLength b).1.map .ok ++ (series α maxLength b).2.toList.map .error

theorem series_of_record {a : α}
    (h : Record.fetch α (⟨b⟩ : ByteSource) maxLength = (.ok (some a), s)) :
    series α maxLength b =
      (a :: (series α maxLength s.rest).1, (series α maxLength s.rest).2) := by
  rw [series]
  split
  next h' => rw [h] at h'; cases h'; rfl
  next h' => rw [h] at h'; cases h'
  next h' => rw [h] at h'; cases h'

theorem series_of_end (h : Record.fetch α (⟨b⟩ : ByteSource) maxLength = (.ok none, s)) :
    series α maxLength b = ([], none) := by
  rw [series]
  split
  next h' => rw [h] at h'; cases h'
  next => rfl
  next h' => rw [h] at h'; cases h'

theorem series_of_failure {e : BackupError}
    (h : Record.fetch α (⟨b⟩ : ByteSource) maxLength = (.error e, s)) :
    series α maxLength b = ([], some e) := by
  rw [series]
  split
  next h' => rw [h] at h'; cases h'
  next h' => rw [h] at h'; cases h'
  next h' => rw [h] at h'; cases h'; rfl

/-- What ends the records is never that none is left. -/
theorem series_ne_noSuchElement {e : BackupError} (h : (series α maxLength b).2 = some e) :
    e ≠ .noSuchElement := by
  fun_induction series α maxLength b with
  | case1 b a s hf _ _ ih => exact ih h
  | case2 => cases h
  | case3 b e' s hf =>
    cases h
    intro he
    exact fetch_ne_noSuchElement (α := α) (⟨b⟩ : ByteSource) maxLength (by rw [hf, he])

end Record

/-! ## What a reader owes -/

namespace ReaderCall

/-- Whether a call asks for the next result. -/
def requests : ReaderCall → Bool
  | next | step => true
  | _ => false

/-- What is left of the results after one call. -/
def leaves {ρ : Type} : ReaderCall → List ρ → List ρ
  | next, results | step, results => results.tail
  | close, _ => []
  | _, results => results

/-- What is left of the results after calls: as many are gone as were asked for, and all of them
once the reader was closed. -/
def left {ρ : Type} (calls : List ReaderCall) (results : List ρ) : List ρ :=
  if .close ∈ calls then [] else results.drop (calls.countP requests)

theorem foldl_leaves_nil {ρ : Type} (calls : List ReaderCall) :
    calls.foldl (fun results c => c.leaves results) ([] : List ρ) = [] := by
  induction calls with
  | nil => rfl
  | cons c calls ih => cases c <;> exact ih

theorem foldl_leaves {ρ : Type} (calls : List ReaderCall) (results : List ρ) :
    calls.foldl (fun results c => c.leaves results) results = left calls results := by
  induction calls generalizing results with
  | nil => rfl
  | cons c calls ih =>
    rw [List.foldl_cons]
    cases c with
    | close =>
      rw [left, if_pos List.mem_cons_self]
      exact foldl_leaves_nil calls
    | next | step =>
      rw [ih, left, left, List.countP_cons_of_pos rfl, ← List.drop_tail]
      simp [leaves]
    | header | counts | hasMore =>
      rw [ih, left, left, List.countP_cons_of_neg (by simp [requests])]
      simp [leaves]

end ReaderCall

namespace BackupReader

open Record ReaderCall

section After

variable {σ η φ : Type} [Source σ] [Record φ]

/-- The reader after calls. -/
def after (r : BackupReader σ η φ) (calls : List ReaderCall) : BackupReader σ η φ :=
  calls.foldl (fun r c => (r.call c).2) r

/-- A reader serves the results one after another, whatever calls are made on it in between. -/
structure Serves (r : BackupReader σ η φ) (header : Option η)
    (results : List (Except BackupError φ)) : Prop where
  /-- The header is kept, also after the reader was closed. -/
  header : ∀ calls, (r.after calls).header = header
  /-- The next result is the first one left; if none is there is no such element. -/
  next : ∀ calls,
    (r.after calls).next.1 = (left calls results).head?.getD (.error .noSuchElement)
  /-- An iteration gives the same results and ends after them. -/
  step : ∀ calls, (r.after calls).next?.1 = (left calls results).head?
  /-- More is announced exactly if there is something to be handed out. -/
  hasMore : ∀ calls,
    (r.after calls).hasMore = true ↔ (r.after calls).next.1 ≠ .error .noSuchElement

/-- What a reader has ahead is the first of the results that it owes. -/
inductive Opens : Upcoming φ → List (Except BackupError φ) → Prop where
  | nothing : Opens .nothing []
  | failure {e : BackupError} : e ≠ .noSuchElement → Opens (.failure e) [.error e]
  | frame (f : φ) (more : List (Except BackupError φ)) : Opens (.frame f) (.ok f :: more)

/-- An iteration changes a reader as a request for the next result does. -/
theorem snd_next? (r : BackupReader σ η φ) : r.next?.2 = r.next.2 := by
  unfold next? hasMore BackupReader.next
  cases r.upcoming <;> rfl

theorem header_after (r : BackupReader σ η φ) (calls : List ReaderCall) :
    (r.after calls).header = r.header := by
  induction calls generalizing r with
  | nil => rfl
  | cons c calls ih =>
    have hnext : r.next.2.header = r.header := by
      unfold BackupReader.next
      split
      · exact header_advance r
      · rfl
      · rfl
    refine (ih _).trans ?_
    cases c with
    | next => exact hnext
    | step =>
      show r.next?.2.header = r.header
      rw [snd_next?]
      exact hnext
    | header | counts | hasMore | close => rfl

/-- A reader serves what it has ahead after any calls. -/
theorem serves_of_opens {r : BackupReader σ η φ} {rs : List (Except BackupError φ)}
    (h : ∀ calls, Opens (r.after calls).upcoming (left calls rs)) : r.Serves r.header rs where
  header := header_after r
  next calls := by
    have hahead := h calls
    unfold BackupReader.next
    generalize (r.after calls).upcoming = up at hahead
    generalize left calls rs = owed at hahead
    cases hahead <;> rfl
  step calls := by
    have hahead := h calls
    unfold next? hasMore BackupReader.next
    generalize (r.after calls).upcoming = up at hahead
    generalize left calls rs = owed at hahead
    cases hahead <;> rfl
  hasMore calls := by
    have hahead := h calls
    unfold BackupReader.hasMore BackupReader.next
    generalize (r.after calls).upcoming = up at hahead
    generalize left calls rs = owed at hahead
    cases hahead with
    | nothing => simp
    | failure hne => simp [hne]
    | frame f more => simp

/-- Readers that agree do so after any calls. -/
theorem Alike.after {τ : Type} [Source τ] {S : σ → τ → Prop} (hS : Agrees S)
    {r : BackupReader σ η φ} {q : BackupReader τ η φ} (h : Alike S r q) (calls : List ReaderCall) :
    Alike S (r.after calls) (q.after calls) := by
  induction calls generalizing r q with
  | nil => exact h
  | cons c calls ih => exact ih (h.call hS c).2

/-- Readers that agree serve the same. -/
theorem Alike.serves {τ : Type} [Source τ] {S : σ → τ → Prop} (hS : Agrees S)
    {r : BackupReader σ η φ} {q : BackupReader τ η φ} (h : Alike S r q) {header : Option η}
    {results : List (Except BackupError φ)} (hq : q.Serves header results) :
    r.Serves header results where
  header calls := (h.after hS calls).header.trans (hq.header calls)
  next calls := ((h.after hS calls).next hS).1.trans (hq.next calls)
  step calls := by
    rw [← hq.step calls]
    have hcall := ((h.after hS calls).call hS .step).1
    exact ReaderAnswer.step.inj hcall
  hasMore calls := by
    rw [(h.after hS calls).hasMore, ((h.after hS calls).next hS).1]
    exact hq.hasMore calls

end After

variable {η φ : Type} [Record φ] {q : BackupReader ByteSource η φ}
  {rs : List (Except BackupError φ)}

/-- What a reader over a byte string still has to hand out. -/
inductive Offers (q : BackupReader ByteSource η φ) : List (Except BackupError φ) → Prop where
  | nothing : q.upcoming = .nothing → Offers q []
  | failure {e : BackupError} : q.upcoming = .failure e → e ≠ .noSuchElement →
    Offers q [.error e]
  | frame {f : φ} {s : ByteSource} : q.upcoming = .frame f → q.source = some s →
    Offers q (.ok f :: results φ q.maxRecordLength s.rest)

/-- Reading ahead takes up the series of what the source has left. -/
theorem advance_offers {s : ByteSource} (hs : q.source = some s) :
    Offers q.advance (results φ q.maxRecordLength s.rest) := by
  obtain ⟨b⟩ := s
  have hne := fetch_ne_noSuchElement (α := φ) (⟨b⟩ : ByteSource) q.maxRecordLength
  unfold advance results
  cases hf : Record.fetch φ (⟨b⟩ : ByteSource) q.maxRecordLength with
  | mk r s =>
    rw [hf] at hne
    simp only [hs, hf]
    cases r with
    | error e =>
      rw [series_of_failure hf]
      exact .failure rfl fun he => hne (by rw [he])
    | ok frame =>
      cases frame with
      | none =>
        rw [series_of_end hf]
        exact .nothing rfl
      | some f =>
        rw [series_of_record hf]
        exact .frame rfl rfl

/-- A call hands out the first of the results or drops them or leaves them alone. -/
theorem Offers.call (h : Offers q rs) (c : ReaderCall) : Offers (q.call c).2 (c.leaves rs) := by
  have hclose : Offers q.close [] := .nothing rfl
  have hnext : Offers q.next.2 rs.tail := by
    unfold BackupReader.next
    cases h with
    | nothing hup =>
      rw [hup]
      exact .nothing hup
    | failure hup =>
      rw [hup]
      exact .nothing rfl
    | frame hup hs =>
      rw [hup]
      exact advance_offers hs
  cases c with
  | next => exact hnext
  | step =>
    show Offers q.next?.2 rs.tail
    rw [snd_next?]
    exact hnext
  | close => exact hclose
  | header | counts | hasMore => exact h

theorem Offers.after (h : Offers q rs) (calls : List ReaderCall) :
    Offers (q.after calls) (left calls rs) := by
  rw [← foldl_leaves]
  induction calls generalizing q rs with
  | nil => exact h
  | cons c calls ih => exact ih (h.call c)

theorem Offers.opens (h : Offers q rs) : Opens q.upcoming rs := by
  cases h with
  | nothing hup =>
    rw [hup]
    exact .nothing
  | failure hup hne =>
    rw [hup]
    exact .failure hne
  | frame hup =>
    rw [hup]
    exact .frame _ _

/-- What a reader offers it serves. -/
theorem Offers.serves (h : Offers q rs) : q.Serves q.header rs :=
  serves_of_opens fun calls => (h.after calls).opens

/-- Over a byte string a reader opens with the first record and offers the series behind it. -/
theorem start_bytes [Record η] (b : Bytes) (maxLength : Nat) :
    (∃ e s, Record.fetch η (⟨b⟩ : ByteSource) maxLength = (.error e, s) ∧
      (start (⟨b⟩ : ByteSource) maxLength :
        Except _ (BackupReader ByteSource η φ)) = .error e) ∨
    ∃ header s q, Record.fetch η (⟨b⟩ : ByteSource) maxLength = (.ok header, s) ∧
      (start (⟨b⟩ : ByteSource) maxLength :
        Except _ (BackupReader ByteSource η φ)) = .ok q ∧
      q.Serves header (results φ maxLength s.rest) := by
  unfold start
  cases hf : Record.fetch η (⟨b⟩ : ByteSource) maxLength with
  | mk r s =>
    cases r with
    | error e => exact Or.inl ⟨e, s, rfl, rfl⟩
    | ok header =>
      refine Or.inr ?_
      cases header with
      | none =>
        -- nothing is left behind a clean end
        have hb : b = [] := (fetch_eq_none_iff maxLength).mp (by rw [hf])
        subst hb
        rw [fetch_nil] at hf
        cases hf
        have hseries : series φ maxLength [] = ([], none) := series_of_end (fetch_nil maxLength)
        refine ⟨none, _, _, rfl, rfl, ?_⟩
        rw [results, hseries]
        exact (Offers.nothing rfl).serves
      | some header =>
        refine ⟨some header, _, _, rfl, rfl, ?_⟩
        have h := (advance_offers (φ := φ) (q := {
          source := some s
          header := some header
          upcoming := .nothing
          maxRecordLength := maxLength
          counts := ({} : BackupCounts).countHeader (Record.wireLength header) }) rfl).serves
        rwa [header_advance] at h

end BackupReader

/-- Over any source that brings a byte string a plain backup opens and is served just as over the
byte string itself. -/
theorem PlainReader.start_serves {τ η φ : Type} [Source τ] [Record η] [Record φ]
    {settings : ReadSettings} (hsettings : settings.check = .ok ()) {source : τ} {b : Bytes}
    (hsource : Brings source b none) :
    (∃ e s, Record.fetch η (⟨b⟩ : ByteSource) settings.maxRecordLength = (.error e, s) ∧
      (start source settings : Except _ (PlainReader τ η φ)) = .error e) ∨
    ∃ (header : Option η) (s : ByteSource) (r : PlainReader τ η φ),
      Record.fetch η (⟨b⟩ : ByteSource) settings.maxRecordLength = (.ok header, s) ∧
      start source settings = .ok r ∧
      r.Serves header (Record.results φ settings.maxRecordLength s.rest) := by
  obtain ⟨s, hs, hstart⟩ := start_of_brings (η := η) (φ := φ) hsettings hsource
  have halike := BackupReader.start_alike (η := η) (φ := φ) agrees_matches (matches_bytes hs)
    settings.maxRecordLength
  rw [hstart]
  rcases BackupReader.start_bytes (η := η) (φ := φ) b settings.maxRecordLength with
    ⟨e, t, hfetch, hbytes⟩ | ⟨header, t, q, hfetch, hbytes, hserves⟩
  · refine Or.inl ⟨e, t, hfetch, ?_⟩
    rcases halike with ⟨e', he, he'⟩ | ⟨r, q, -, hq, -⟩
    · rw [hbytes] at he'
      cases he'
      exact he
    · rw [hbytes] at hq
      cases hq
  · refine Or.inr ⟨header, t, ?_⟩
    rcases halike with ⟨e', -, he'⟩ | ⟨r, q', hr, hq, h⟩
    · rw [hbytes] at he'
      cases he'
    · rw [hbytes] at hq
      cases hq
      exact ⟨r, hfetch, hr, h.serves agrees_matches hserves⟩

/-! ## The main statement -/

/-- **A plain backup is served record by record**, whatever its bytes are and however they arrive:
it does not open if its first record fails, and with the same failure. Otherwise that record is the
header, which is missing only if there are no bytes at all, and at any point what follows are the
records behind it with the failure that ends them, if one does, as far as they were not asked for;
nothing follows once the reader was closed. A record of length zero is one like any other, with all
its fields at their defaults. -/
theorem plain_reader_serves {τ η φ : Type} [Source τ] [Record η] [Record φ]
    (settings : ReadSettings) (hsettings : settings.check = .ok ()) {source : τ} {b : Bytes}
    (hsource : Brings source b none) :
    (match Record.fetch η (⟨b⟩ : ByteSource) settings.maxRecordLength with
      | (.error e, _) =>
        (PlainReader.start source settings : Except _ (PlainReader τ η φ)) = .error e
      | (.ok header, behind) =>
        (header = none ↔ b = []) ∧
        ∃ r : PlainReader τ η φ, PlainReader.start source settings = .ok r ∧
          r.Serves header (Record.results φ settings.maxRecordLength behind.rest)) ∧
    (∀ e, (Record.series φ settings.maxRecordLength b).2 = some e → e ≠ .noSuchElement) ∧
    ∀ rest, Record.series φ settings.maxRecordLength (0 :: rest) =
      (Record.schema.empty :: (Record.series φ settings.maxRecordLength rest).1,
        (Record.series φ settings.maxRecordLength rest).2) := by
  refine ⟨?_, fun e => Record.series_ne_noSuchElement,
    fun rest => Record.series_of_record (Record.fetch_zero rest)⟩
  rcases PlainReader.start_serves (η := η) (φ := φ) hsettings hsource with
    ⟨e, t, hfetch, hstart⟩ | ⟨header, t, r, hfetch, hstart, hserves⟩
  · rw [hfetch]
    exact hstart
  · rw [hfetch]
    refine ⟨?_, r, hstart, hserves⟩
    rw [← Record.fetch_eq_none_iff (α := η) settings.maxRecordLength, hfetch]
    simp

/-- Two records of length zero and one that is cut short: the header, a frame and a failure. -/
theorem plain_reader_serves_cut_record :
    let cut : BackupError := .record (.truncated (.inPayload 5 1))
    ∃ r : PlainReader ScriptedSource BackupInfo Frame,
      PlainReader.start (ScriptedSource.ofBytes [0, 0, 5, 1]) {} = .ok r ∧
        r.Serves (some {}) [.ok {}, .error cut] := by
  intro cut
  obtain ⟨hopen, -, hzero⟩ := plain_reader_serves (η := BackupInfo) (φ := Frame) {} rfl
    (ScriptedSource.brings_ofBytes [0, 0, 5, 1])
  have hcut : Record.fetch Frame (⟨[5, 1]⟩ : ByteSource) 16777216 = (.error cut, ⟨[]⟩) := rfl
  have hresults : Record.results Frame 16777216 [0, 5, 1] = [.ok {}, .error cut] := by
    rw [Record.results, hzero [5, 1], Record.series_of_failure hcut]
    rfl
  rw [Record.fetch_zero] at hopen
  obtain ⟨-, r, hr, hserves⟩ := hopen
  rw [← hresults]
  exact ⟨r, hr, hserves⟩

end ChatBackup
