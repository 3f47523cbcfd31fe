import ChatBackup.Proofs.Sequence

/-!
# Sources that fail

A source that fails in the middle has not ended. A reader tells the failure and never takes it for
the end of a backup or for a record that was cut short:

> `failing_source_never_ends`: a plain backup whose source fails behind some bytes is served as one
> that has these bytes only, with the failure in place of the end or of the record cut short. What
> comes before are just the frames whose records lie within the bytes, and a record that cannot be
> decoded and lies within them is told as ever.

What of the records lies within the bytes is said of the whole content (`Record.Reached`), of which
the reader does not see what stands behind the failure. The two readers, over the source that fails
and over one that ends, are followed side by side (`BackupReader.Breaks`), together with the results
that the first one still owes.
-/

namespace ChatBackup

open Source

/-- The error in place of one that was met where a source ends, if it fails there instead. -/
def BackupError.unlessCut (f : Failure) (e : BackupError) : BackupError :=
  if e.cutsRecord then .io f else e

theorem BackupError.cutsRecord_unlessCut (f : Failure) (e : BackupError) :
    (e.unlessCut f).cutsRecord = false := by
  unfold unlessCut
  split
  · rfl
  next h => exact Bool.eq_false_iff.mpr h

theorem BackupError.unlessCut_ne_noSuchElement {f : Failure} {e : BackupError}
    (h : e ≠ .noSuchElement) : e.unlessCut f ≠ .noSuchElement := by
  unfold unlessCut
  split
  · exact fun he => nomatch he
  · exact h

/-! ## Reading where the source fails -/

/-- Reading a length has come to the end of the bytes. -/
def LengthRead.runsOut : LengthRead → Bool
  | cleanEnd | cut _ => true
  | value _ | overflow => false

namespace Source

variable {σ τ : Type} [Source σ] [Source τ] {f : Failure} {s : σ} {t : τ}

/-- Both sources bring the same bytes, behind which the first one fails and the second one ends. -/
def Broken (f : Failure) (s : σ) (t : τ) : Prop := ∃ b, Brings s b (some f) ∧ Brings t b none

/-- The same was gathered from both, and all that was asked for unless the first one has failed. -/
inductive GathersBroken (f : Failure) (n : Nat) : Gathered σ → Gathered τ → Prop where
  | whole {s : σ} {t : τ} (got : Bytes) : got.length = n → Broken f s t →
    GathersBroken f n ⟨got, none, s⟩ ⟨got, none, t⟩
  | short {s : σ} {t : τ} (got : Bytes) : got.length < n →
    GathersBroken f n ⟨got, some f, s⟩ ⟨got, none, t⟩

theorem GathersBroken.of_gathers {b : Bytes} {n : Nat} {g : Gathered σ} {h : Gathered τ}
    (hg : Gathers Brings s b (some f) n g) (hh : Gathers Brings t b none n h) :
    GathersBroken f n g h := by
  obtain ⟨got, failure, s'⟩ := g
  obtain ⟨got', failure', t'⟩ := h
  obtain rfl : got = b.take n := hg.got
  obtain rfl : got' = b.take n := hh.got
  have hf : failure = if b.length < n then some f else none := hg.failure
  have hf' : failure' = none := by
    rw [show failure' = if b.length < n then none else none from hh.failure, ite_self]
  subst hf'
  by_cases hlen : b.length < n
  · rw [if_pos hlen] at hf
    subst hf
    exact .short _ (by rw [List.length_take]; omega)
  · rw [if_neg hlen] at hf
    subst hf
    exact .whole _ (by rw [List.length_take]; omega) ⟨_, hg.after rfl, hh.after rfl⟩

theorem Broken.gather (h : Broken f s t) (n : Nat) :
    GathersBroken f n (gather s n) (gather t n) := by
  obtain ⟨b, hs, ht⟩ := h
  exact .of_gathers (gather_gathers delivers_brings hs n) (gather_gathers delivers_brings ht n)

theorem Broken.gatherPages (h : Broken f s t) (n : Nat) :
    GathersBroken f n (gatherPages s n) (gatherPages t n) := by
  obtain ⟨b, hs, ht⟩ := h
  exact .of_gathers (gatherPages_gathers delivers_brings hs n)
    (gatherPages_gathers delivers_brings ht n)

/-- Both results are the same, unless the bytes have run out: then the first source has failed. -/
inductive SameUnlessOut {α : Type} (f : Failure) (runsOut : α → Bool) :
    Except Failure α × σ → Except Failure α × τ → Prop where
  | same {s : σ} {t : τ} (a : α) : runsOut a = false → Broken f s t →
    SameUnlessOut f runsOut (.ok a, s) (.ok a, t)
  | out {s : σ} {t : τ} (a : α) : runsOut a = true →
    SameUnlessOut f runsOut (.error f, s) (.ok a, t)

theorem Broken.readLengthWithin : ∀ (left i v : Nat) {s : σ} {t : τ}, Broken f s t →
    SameUnlessOut f LengthRead.runsOut (readLengthWithin left i v s)
      (readLengthWithin left i v t) := by
  intro left
  induction left with
  | zero => intro i v s t h; exact .same _ rfl h
  | succ left ih =>
    intro i v s t h
    have hone := h.gather 1
    unfold ChatBackup.readLengthWithin
    generalize Source.gather s 1 = g at hone
    generalize Source.gather t 1 = g' at hone
    cases hone with
    | short got hlen =>
      -- not a single byte was there
      obtain rfl : got = [] := List.length_eq_zero_iff.mp (by omega)
      refine .out _ ?_
      split <;> rfl
    | whole got hlen hafter =>
      obtain ⟨b, rfl⟩ := List.length_eq_one_iff.mp hlen
      simp only
      split
      · exact .same _ rfl hafter
      · split
        · exact .same _ rfl hafter
        · exact ih _ _ hafter

theorem Broken.read {α : Type} [Record α] (h : Broken f s t) (maxLength : Nat) :
    SameUnlessOut f RecordRead.runsOut (Record.read α s maxLength) (Record.read α t maxLength) := by
  have hlength := Broken.readLengthWithin Varint.maxLength 0 0 h
  unfold Record.read readLength
  generalize ChatBackup.readLengthWithin Varint.maxLength 0 0 s = x at hlength
  generalize ChatBackup.readLengthWithin Varint.maxLength 0 0 t = y at hlength
  cases hlength with
  | out length hout =>
    cases length with
    | cleanEnd | cut => exact .out _ rfl
    | value | overflow => cases hout
  | @same s' t' length hin hafter =>
    cases length with
    | cleanEnd | cut => cases hin
    | overflow => exact .same _ rfl hafter
    | value length =>
      simp only
      split
      · exact .same _ rfl hafter
      · have hbody := hafter.gatherPages length
        generalize Source.gatherPages s' length = g at hbody
        generalize Source.gatherPages t' length = g' at hbody
        cases hbody with
        | short got hlen =>
          simp only [if_pos hlen]
          exact .out _ rfl
        | whole got hlen hend =>
          simp only [if_neg (Nat.not_lt.mpr (Nat.le_of_eq hlen.symm))]
          split <;> exact .same _ rfl hend

end Source

/-! ## Records before the failure -/

namespace Record

variable {α : Type} [Record α] {maxLength : Nat} {b rest : Bytes} {r : RecordRead α}
  {f : Failure}

/-- Over a source that fails behind the bytes a record is read as their front tells, unless they run
out. -/
theorem Front.read_broken {σ : Type} [Source σ] {source : σ} (hsource : Brings source b (some f))
    (h : Front α maxLength b r rest) :
    ∃ source', Record.fetch α source maxLength =
        (if r.runsOut then .error (.io f) else r.toResult.mapError .record, source') ∧
      (r.runsOut = false → Brings source' rest (some f)) := by
  have hread := Broken.read (α := α) ⟨b, hsource, ByteSource.brings b⟩ maxLength
  rw [h.read_bytes] at hread
  unfold Record.fetch
  generalize Record.read α source maxLength = x at hread
  cases hread with
  | out _ hout =>
    rw [if_pos hout]
    exact ⟨_, rfl, fun hin => by rw [hout] at hin; cases hin⟩
  | same _ hin hafter =>
    obtain ⟨b', hb, hrest⟩ := hafter
    obtain ⟨rfl, -⟩ := hrest.unique (ByteSource.brings rest)
    rw [if_neg (by rw [hin]; exact Bool.false_ne_true)]
    exact ⟨_, rfl, fun _ => hb⟩

/-- Over a source that ends behind them it is read in any case. -/
theorem Front.fetch_of_brings {σ : Type} [Source σ] {source : σ} (hsource : Brings source b none)
    (h : Front α maxLength b r rest) :
    ∃ source', Record.fetch α source maxLength = (r.toResult.mapError .record, source') ∧
      Brings source' rest none := by
  obtain ⟨source', hread, hrest⟩ := h.read hsource
  unfold Record.fetch
  rw [hread]
  exact ⟨source', rfl, hrest⟩

/-- A failure that is told with its own front is never that a record was cut short. -/
theorem Front.unlessCut_failed {e : RecordError} (h : Front α maxLength b (.failed e) rest) :
    (BackupError.record e).unlessCut f = .record e := by
  cases h <;> rfl

/-- The records at the front of a byte string and what a reader is told behind them if its source
fails there. -/
def brokenResults (α : Type) [Record α] (f : Failure) (maxLength : Nat) (b : Bytes) :
    List (Except BackupError α) :=
  (series α maxLength b).1.map .ok ++
    [.error ((series α maxLength b).2.elim (.io f) (·.unlessCut f))]

theorem Front.series_eq (h : Front α maxLength b r rest) :
    series α maxLength b =
      match r.toResult with
      | .ok (some a) => (a :: (series α maxLength rest).1, (series α maxLength rest).2)
      | .ok none => ([], none)
      | .error e => ([], some (.record e)) := by
  have hfetch := h.fetch
  cases r with
  | record a => exact series_of_record hfetch
  | endOfStream => exact series_of_end hfetch
  | truncated cut => exact series_of_failure hfetch
  | failed e => exact series_of_failure hfetch

/-- What of the records of `x ++ later` lies within `x`: the records that end there, and the failure
that stops them if it is told by bytes of `x` alone. -/
inductive Reached (α : Type) [Record α] (maxLength : Nat) (later : Bytes) :
    Bytes → List α → Option RecordError → Prop where
  | record {x x' : Bytes} {a : α} {records : List α} {cause : Option RecordError} :
    Front α maxLength (x ++ later) (.record a) (x' ++ later) →
    Reached α maxLength later x' records cause → Reached α maxLength later x (a :: records) cause
  | failed {x x' : Bytes} {e : RecordError} :
    Front α maxLength (x ++ later) (.failed e) (x' ++ later) →
    Reached α maxLength later x [] (some e)
  /-- Nothing that comes next lies within `x`. -/
  | out {x : Bytes} :
    (∀ r x', Front α maxLength (x ++ later) r (x' ++ later) → r.runsOut = true) →
    Reached α maxLength later x [] none

/-- Where the bytes run out nothing more lies within them, whatever stands behind. -/
theorem Front.reached_out (h : Front α maxLength b r rest) (hr : r.runsOut = true)
    (later : Bytes) : Reached α maxLength later b [] none := by
  refine .out ?_
  intro r' x' h'
  cases hin : r'.runsOut with
  | true => rfl
  | false =>
    -- what lies within the bytes is their front
    obtain ⟨rfl, -⟩ := h.unique (h'.of_append hin)
    rw [hin] at hr
    cases hr

/-- What lies within a byte string is its series, of whose failures those are told that do not
depend on what stands behind. -/
theorem reached_series (α : Type) [Record α] (f : Failure) (maxLength : Nat) (later x : Bytes) :
    ∃ cause, Reached α maxLength later x (series α maxLength x).1 cause ∧
      (series α maxLength x).2.elim (.io f) (·.unlessCut f) =
        cause.elim (.io f) BackupError.record := by
  induction hlen : x.length using Nat.strongRecOn generalizing x with
  | ind n ih =>
    obtain ⟨r, rest, hfront⟩ := exists_front α maxLength x
    rw [hfront.series_eq]
    cases r with
    | endOfStream | truncated => exact ⟨none, hfront.reached_out rfl later, rfl⟩
    | failed e => exact ⟨some e, .failed (hfront.append rfl later), hfront.unlessCut_failed⟩
    | record a =>
      have hshorter : rest.length < x.length := fetch_shortens hfront.fetch
      obtain ⟨cause, hreached, hcause⟩ := ih rest.length (by omega) rest rfl
      exact ⟨cause, .record (hfront.append rfl later) hreached, hcause⟩

/-- What is reached is determined by the bytes. -/
theorem Reached.unique {later x : Bytes} {records records' : List α}
    {cause cause' : Option RecordError} (h : Reached α maxLength later x records cause)
    (h' : Reached α maxLength later x records' cause') : records' = records ∧ cause' = cause := by
  induction h generalizing records' with
  | record hfront _ ih =>
    cases h' with
    | record hfront' hmore' =>
      obtain ⟨ha, hx⟩ := hfront.unique hfront'
      cases ha
      rw [List.append_cancel_right hx] at hmore'
      obtain ⟨rfl, rfl⟩ := ih hmore'
      exact ⟨rfl, rfl⟩
    | failed hfront' => cases (hfront.unique hfront').1
    | out hout => cases hout _ _ hfront
  | failed hfront =>
    cases h' with
    | record hfront' => cases (hfront.unique hfront').1
    | failed hfront' =>
      cases (hfront.unique hfront').1
      exact ⟨rfl, rfl⟩
    | out hout => cases hout _ _ hfront
  | out hout =>
    cases h' with
    | record hfront' => cases hout _ _ hfront'
    | failed hfront' => cases hout _ _ hfront'
    | out => exact ⟨rfl, rfl⟩

end Record

/-! ## Two readers side by side -/

namespace BackupReader

open Record ReaderCall

variable {σ τ η φ : Type} [Source σ] [Source τ] [Record φ] {f : Failure}
  {r : BackupReader σ η φ} {q : BackupReader τ η φ} {rs : List (Except BackupError φ)}

/-- What a reader has ahead whose source is going to fail, what one has ahead whose source ends
there, and the results that the first one owes. -/
inductive Owes (f : Failure) (r : BackupReader σ η φ) (q : BackupReader τ η φ) :
    List (Except BackupError φ) → Prop where
  | nothing : r.upcoming = .nothing → q.upcoming = .nothing → Owes f r q []
  | ended : r.upcoming = .failure (.io f) → q.upcoming = .nothing →
    Owes f r q [.error (.io f)]
  | failure {e : BackupError} : r.upcoming = .failure (e.unlessCut f) → q.upcoming = .failure e →
    e ≠ .noSuchElement → Owes f r q [.error (e.unlessCut f)]
  | frame {a : φ} {s : σ} {t : τ} {b : Bytes} : r.upcoming = .frame a → q.upcoming = .frame a →
    r.source = some s → q.source = some t → Brings s b (some f) → Brings t b none →
    Owes f r q (.ok a :: brokenResults φ f r.maxRecordLength b)

/-- The readers have counted the same besides. -/
structure Breaks (f : Failure) (r : BackupReader σ η φ) (q : BackupReader τ η φ)
    (rs : List (Except BackupError φ)) : Prop where
  counts : r.counts = q.counts
  maxRecordLength : r.maxRecordLength = q.maxRecordLength
  owes : Owes f r q rs

/-- Reading ahead comes to the same unless the bytes run out. -/
theorem advance_breaks {s : σ} {t : τ} {b : Bytes} (hcounts : r.counts = q.counts)
    (hmax : r.maxRecordLength = q.maxRecordLength) (hr : r.source = some s)
    (hq : q.source = some t) (hs : Brings s b (some f)) (ht : Brings t b none) :
    Breaks f r.advance q.advance (brokenResults φ f r.maxRecordLength b) := by
  obtain ⟨result, rest, hfront⟩ := exists_front φ r.maxRecordLength b
  obtain ⟨s', hfetch, hafter⟩ := hfront.read_broken hs
  obtain ⟨t', hfetch', hafter'⟩ := hfront.fetch_of_brings ht
  rw [brokenResults, hfront.series_eq]
  unfold advance
  simp only [hr, hq, ← hmax, hfetch, hfetch']
  cases result with
  | endOfStream => exact ⟨hcounts, rfl, .ended rfl rfl⟩
  | truncated cut =>
    exact ⟨hcounts, rfl, .failure rfl rfl fun he => nomatch he⟩
  | failed e =>
    refine ⟨hcounts, rfl, .failure ?_ rfl fun he => nomatch he⟩
    rw [hfront.unlessCut_failed]
    rfl
  | record a =>
    refine ⟨?_, rfl, .frame rfl rfl rfl rfl (hafter rfl) hafter'⟩
    show r.counts.countFrame _ = q.counts.countFrame _
    rw [hcounts]

/-- A call keeps readers side by side. -/
theorem Breaks.call (h : Breaks f r q rs) (c : ReaderCall) :
    Breaks f (r.call c).2 (q.call c).2 (c.leaves rs) := by
  obtain ⟨hcounts, hmax, howes⟩ := h
  have hnext : Breaks f r.next.2 q.next.2 rs.tail := by
    unfold BackupReader.next
    cases howes with
    | nothing hr hq =>
      rw [hr, hq]
      exact ⟨hcounts, hmax, .nothing hr hq⟩
    | ended hr hq =>
      rw [hr, hq]
      exact ⟨hcounts, hmax, .nothing rfl hq⟩
    | failure hr hq =>
      rw [hr, hq]
      exact ⟨hcounts, hmax, .nothing rfl rfl⟩
    | frame hr hq hsource hsource' hs ht =>
      rw [hr, hq]
      exact advance_breaks hcounts hmax hsource hsource' hs ht
  cases c with
  | next => exact hnext
  | step =>
    show Breaks f r.next?.2 q.next?.2 rs.tail
    rw [snd_next?, snd_next?]
    exact hnext
  | close => exact ⟨hcounts, hmax, .nothing rfl rfl⟩
  | header | counts | hasMore => exact ⟨hcounts, hmax, howes⟩

theorem Breaks.after (h : Breaks f r q rs) (calls : List ReaderCall) :
    Breaks f (r.after calls) (q.after calls) (left calls rs) := by
  rw [← foldl_leaves]
  induction calls generalizing r q rs with
  | nil => exact h
  | cons c calls ih => exact ih (h.call c)

theorem Breaks.opens (h : Breaks f r q rs) : Opens r.upcoming rs := by
  cases h.owes with
  | nothing hr =>
    rw [hr]
    exact .nothing
  | ended hr =>
    rw [hr]
    exact .failure fun he => nomatch he
  | failure hr _ hne =>
    rw [hr]
    exact .failure (BackupError.unlessCut_ne_noSuchElement hne)
  | frame hr =>
    rw [hr]
    exact .frame _ _

theorem Breaks.serves (h : Breaks f r q rs) : r.Serves r.header rs :=
  serves_of_opens fun calls => (h.after calls).opens

/-- How a backup opens is told by the front of the bytes. -/
theorem start_breaks [Record η] {s : σ} {t : τ} {b rest : Bytes} {maxLength : Nat}
    {result : RecordRead η} (hs : Brings s b (some f)) (ht : Brings t b none)
    (hfront : Front η maxLength b result rest) :
    match result with
    | .record header => ∃ (r : BackupReader σ η φ) (q : BackupReader τ η φ),
      start s maxLength = .ok r ∧ start t maxLength = .ok q ∧ r.header = some header ∧
        q.header = some header ∧ Breaks f r q (brokenResults φ f maxLength rest)
    | .endOfStream =>
      (start s maxLength : Except _ (BackupReader σ η φ)) = .error (.io f) ∧
        ∃ q : BackupReader τ η φ, start t maxLength = .ok q ∧ q.header = none
    | .truncated cut =>
      (start s maxLength : Except _ (BackupReader σ η φ)) = .error (.io f) ∧
        (start t maxLength : Except _ (BackupReader τ η φ)) = .error (.record (.truncated cut))
    | .failed e =>
      (start s maxLength : Except _ (BackupReader σ η φ)) = .error (.record e) ∧
        (start t maxLength : Except _ (BackupReader τ η φ)) = .error (.record e) := by
  obtain ⟨s', hfetch, hafter⟩ := hfront.read_broken hs
  obtain ⟨t', hfetch', hafter'⟩ := hfront.fetch_of_brings ht
  unfold start
  rw [hfetch, hfetch']
  cases result with
  | endOfStream => exact ⟨rfl, _, rfl, rfl⟩
  | truncated cut => exact ⟨rfl, rfl⟩
  | failed e => exact ⟨rfl, rfl⟩
  | record header =>
    refine ⟨_, _, rfl, rfl, header_advance _, header_advance _, ?_⟩
    exact advance_breaks rfl rfl rfl rfl (hafter rfl) hafter'

end BackupReader

/-! ## Scripted sources that fail -/

namespace ScriptedSource

open Source

variable {content : Bytes} {n : Nat} {f : Failure} {s : ScriptedSource}

/-- A scripted source that fails from a position on: reads before it may be short or interrupted. -/
structure FailsAt (content : Bytes) (n : Nat) (f : Failure) (s : ScriptedSource) : Prop where
  data : s.data.toList = content
  pos_le : s.pos ≤ n
  le : n ≤ content.length
  chunk : s.chunk ≠ some 0
  armed : s.armed = some (n, f)

/-- It brings what stands between its position and the one where it fails. -/
def Until (content : Bytes) (n : Nat) (f : Failure) : Promise ScriptedSource := fun s b ending =>
  FailsAt content n f s ∧ b = (content.take n).drop s.pos ∧ ending = some f

theorem FailsAt.length_front (h : FailsAt content n f s) : (content.take n).length = n := by
  rw [List.length_take, Nat.min_eq_left h.le]

theorem FailsAt.piece (h : FailsAt content n f s) (k : Nat) :
    s.piece k = ((content.take n).drop s.pos).take (atMost s.chunk k) := by
  have hmin : min (s.pos + atMost s.chunk k) n - s.pos = min (atMost s.chunk k) (n - s.pos) := by
    omega
  rw [List.drop_take, List.take_take, ← hmin, ← h.data]
  simp only [ScriptedSource.piece, h.armed, Option.map_some, atMost, Array.toList_extract,
    List.extract_eq_take_drop]

theorem delivers_until : Delivers (Until content n f) := by
  rintro s b ending k ⟨hs, rfl, rfl⟩ hk
  show Delivery _ s _ _ (readOnce s k)
  unfold readOnce
  by_cases hint : s.interrupts && s.reads % 2 == 0
  · rw [if_pos hint]
    exact .interrupted ⟨⟨hs.data, hs.pos_le, hs.le, hs.chunk, hs.armed⟩, rfl, rfl⟩
      (turns_interrupted_lt s hint)
  · rw [if_neg hint]
    have hpos := hs.pos_le
    have hle := hs.le
    by_cases hend : n ≤ s.pos
    · have hblocked : s.blocked = some f := by
        simp only [blocked, hs.armed, if_pos hend]
      rw [hblocked]
      exact .failed (List.drop_of_length_le (by rw [hs.length_front]; exact hend)) rfl
    · have hblocked : s.blocked = none := by
        simp only [blocked, hs.armed, if_neg hend]
      have hpiece := hs.piece k
      have hsplit := drop_eq_take_append (content.take n) s.pos (atMost s.chunk k)
      rw [← hpiece] at hsplit
      have hfront := hs.length_front
      have hchunk := atMost_pos hs.chunk hk
      have hlen : (s.piece k).length = min (atMost s.chunk k) (n - s.pos) := by
        rw [hpiece, List.length_take, List.length_drop, hfront]
      rw [hblocked]
      refine .bytes (List.length_pos_iff.mp (by omega)) hsplit
        ⟨⟨hs.data, ?_, hs.le, hs.chunk, hs.armed⟩, rfl, rfl⟩ ?_
      · show s.pos + (s.piece k).length ≤ n
        omega
      · apply turns_read_lt s (by omega)
        rw [← Array.length_toList, hs.data]
        omega

/-- Before the position where it fails a scripted source brings what stands there. -/
theorem FailsAt.brings (h : FailsAt content n f s) :
    Brings s ((content.take n).drop s.pos) (some f) := ⟨_, delivers_until, h, rfl, rfl⟩

end ScriptedSource

/-! ## The main statement -/

/-- **A source that fails is not taken for one that ends.** Let a source bring the first `n` bytes
of some content and then fail, and let another one bring them and end. A plain backup over the first
source is read as over the second one: it opens with the same header or fails with the same error,
hands out the same frames, tells the same counts after any calls. But where the second one ends or
tells that a record is cut short, be it at opening or behind the frames, the failure is told, and
once only. So a record cut short is never told.

As to the content, the frames are those that end within the first `n` bytes, and an error other than
the failure is just that of a record that cannot be had for what stands within them. -/
theorem failing_source_never_ends {σ τ η φ : Type} [Source σ] [Source τ] [Record η] [Record φ]
    (settings : ReadSettings) {content : Bytes} {n : Nat} {f : Failure} {source : σ} {plain : τ}
    (hsource : Brings source (content.take n) (some f))
    (hplain : Brings plain (content.take n) none) :
    (match (PlainReader.start plain settings : Except _ (PlainReader τ η φ)) with
      | .error e =>
        (PlainReader.start source settings : Except _ (PlainReader σ η φ)) =
          .error (e.unlessCut f)
      | .ok q =>
        match q.header with
        | none =>
          (PlainReader.start source settings : Except _ (PlainReader σ η φ)) = .error (.io f)
        | some header =>
          ∃ (r : PlainReader σ η φ) (frames : List φ) (ending : Option BackupError),
            PlainReader.start source settings = .ok r ∧
            q.Serves (some header) (frames.map .ok ++ ending.toList.map .error) ∧
            r.Serves (some header)
              (frames.map .ok ++ [.error (ending.elim (.io f) (·.unlessCut f))]) ∧
            ∀ calls, (r.after calls).counts = (q.after calls).counts) ∧
    (∀ e : BackupError, (e.unlessCut f).cutsRecord = false) ∧
    (settings.check = .ok () →
      (∃ cause, Record.Reached η settings.maxRecordLength (content.drop n) (content.take n) []
          cause ∧
        (PlainReader.start source settings : Except _ (PlainReader σ η φ)) =
          .error (cause.elim (.io f) .record)) ∨
      ∃ (header : η) (behind : Bytes) (frames : List φ) (cause : Option RecordError)
        (r : PlainReader σ η φ),
        Record.Front η settings.maxRecordLength content (.record header)
          (behind ++ content.drop n) ∧
        Record.Reached φ settings.maxRecordLength (content.drop n) behind frames cause ∧
        PlainReader.start source settings = .ok r ∧
        r.Serves (some header) (frames.map .ok ++ [.error (cause.elim (.io f) .record)])) := by
  cases hsettings : settings.check with
  | error e =>
    have hstart : (PlainReader.start source settings : Except _ (PlainReader σ η φ)) =
        .error (.settings e) := by
      simp only [PlainReader.start, hsettings]
    have hstart' : (PlainReader.start plain settings : Except _ (PlainReader τ η φ)) =
        .error (.settings e) := by
      simp only [PlainReader.start, hsettings]
    rw [hstart, hstart']
    exact ⟨rfl, BackupError.cutsRecord_unlessCut f, nofun⟩
  | ok =>
    obtain ⟨s, hs, hstart⟩ := PlainReader.start_of_brings (η := η) (φ := φ) hsettings hsource
    obtain ⟨t, ht, hstart'⟩ := PlainReader.start_of_brings (η := η) (φ := φ) hsettings hplain
    obtain ⟨result, rest, hfront⟩ :=
      Record.exists_front η settings.maxRecordLength (content.take n)
    have hopen := BackupReader.start_breaks (φ := φ) hs ht hfront
    have hserves := PlainReader.start_serves (η := η) (φ := φ) hsettings hplain
    rw [hfront.fetch] at hserves
    have hwhole := fun hr => hfront.append hr (content.drop n)
    rw [hstart'] at hserves
    rw [hstart, hstart']
    cases result with
    | endOfStream =>
      obtain ⟨hs, q, hq, hheader⟩ := hopen
      rw [hs, hq]
      simp only [hheader]
      exact ⟨trivial, BackupError.cutsRecord_unlessCut f,
        fun _ => Or.inl ⟨none, hfront.reached_out rfl _, rfl⟩⟩
    | truncated cut =>
      obtain ⟨hs, ht⟩ := hopen
      rw [hs, ht]
      exact ⟨rfl, BackupError.cutsRecord_unlessCut f,
        fun _ => Or.inl ⟨none, hfront.reached_out rfl _, rfl⟩⟩
    | failed e =>
      obtain ⟨hs, ht⟩ := hopen
      rw [hs, ht]
      exact ⟨congrArg _ hfront.unlessCut_failed.symm, BackupError.cutsRecord_unlessCut f,
        fun _ => Or.inl ⟨some e, .failed (hwhole rfl), rfl⟩⟩
    | record header =>
      obtain ⟨r, q, hr, hq, hheader, hheader', hbreaks⟩ := hopen
      rcases hserves with ⟨e, s', he, -⟩ | ⟨header', s', q', hfetch, hq', hserves⟩
      · cases he
      · cases hfetch
        rw [hq] at hq'
        cases hq'
        have hfront' := hwhole rfl
        rw [List.take_append_drop] at hfront'
        have hbroken := hbreaks.serves
        rw [hheader] at hbroken
        obtain ⟨cause, hreached, hcause⟩ :=
          Record.reached_series φ f settings.maxRecordLength (content.drop n) rest
        rw [hr, hq]
        simp only [hheader']
        refine ⟨⟨r, _, _, rfl, hserves, hbroken, fun calls => (hbreaks.after calls).counts⟩,
          BackupError.cutsRecord_unlessCut f,
          fun _ => Or.inr ⟨header, rest, _, cause, r, hfront', hreached, rfl, ?_⟩⟩
        rw [← hcause]
        exact hbroken

/-- The source fails inside the payload of the second frame, while bytes arrive one by one and every
other read is interrupted: the first frame comes, and then the failure. -/
theorem failing_source_never_ends_in_payload :
    let f : Failure := .device .other "unplugged"
    let source : ScriptedSource :=
      { data := #[0, 0, 5, 1, 2], chunk := some 1, interrupts := true, failAt := some (4, f) }
    ∃ r : PlainReader ScriptedSource BackupInfo Frame,
      PlainReader.start source {} = .ok r ∧ r.Serves (some {}) [.ok {}, .error (.io f)] := by
  intro f source
  have hfails : ScriptedSource.FailsAt [0, 0, 5, 1, 2] 4 f source :=
    ⟨rfl, Nat.zero_le _, by decide, by simp [source], rfl⟩
  have hheader : Record.Front BackupInfo 16777216 [0, 0, 5, 1, 2] (.record {})
      ([0, 5, 1] ++ [2]) := .zero _
  have hframe : Record.Front Frame 16777216 ([0, 5, 1] ++ [2]) (.record {}) ([5, 1] ++ [2]) :=
    .zero _
  have hcut : Record.Front Frame 16777216 ([5] ++ [1]) (.truncated (.inPayload 5 1)) [] :=
    .inPayload (.single (by decide)) (by decide) (by decide)
  have hreached : Record.Reached Frame 16777216 [2] [0, 5, 1] [{}] none :=
    .record hframe (hcut.reached_out rfl [2])
  obtain ⟨-, -, hopen⟩ := failing_source_never_ends (η := BackupInfo) (φ := Frame) {}
    (n := 4) hfails.brings (ByteSource.brings _)
  rcases hopen rfl with ⟨cause, hnone, -⟩ |
    ⟨header, behind, frames, cause, r, hheader', hreached', hstart, hserves⟩
  · cases hnone with
    | failed hfront => cases (hheader.unique hfront).1
    | out hout => cases hout _ [0, 5, 1] hheader
  · obtain ⟨hsame, hbehind⟩ := hheader.unique hheader'
    cases hsame
    rw [List.append_cancel_right hbehind] at hreached'
    obtain ⟨rfl, rfl⟩ := hreached.unique hreached'
    exact ⟨r, hstart, hserves⟩

end ChatBackup
