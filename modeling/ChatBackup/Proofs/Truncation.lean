import ChatBackup.Proofs.Sequence

/-!
# Backups cut short

The bytes of a plain backup, cut anywhere, are read up to the cut and the cut is told for what it
is:

> `plain_backup_cut`: a reader of the first bytes of a backup gives exactly the frames whose records
> are whole, and then ends if the cut lies between two records, or tells where it cuts the next.

So a front part of a record is never taken for a record, nor for the end. For a length in base 128
this holds since every byte but the last asks for another one (`Varint.Form.unfinished_take`).
-/

namespace ChatBackup

open Source

/-! ## A record cut short -/

namespace Record

variable {α : Type} [Record α] [Record.Lawful α] {maxLength k : Nat} {a : α}

/-- Where a record is cut of which `k` bytes are there. -/
def cutAt {α : Type} [Record α] (a : α) (k : Nat) : RecordCut :=
  let prefixLength := (Varint.encode (Record.schema.size a)).length
  if k < prefixLength then .inLength k
  else .inPayload (Record.schema.encode a).length (k - prefixLength)

/-- A record that is cut short is told to be so, and where. -/
theorem front_take (hlen : (Record.schema.encode a).length ≤ maxLength)
    (hmax : maxLength < UInt64.size) (hpos : 0 < k) (hk : k < (Record.wire a).length) :
    Front α maxLength ((Record.wire a).take k) (.truncated (cutAt a k)) [] := by
  obtain ⟨depth, -, hcodes⟩ := Record.Lawful.codes a
  have h64 : (Record.schema.encode a).length < UInt64.size := Nat.lt_of_le_of_lt hlen hmax
  have hform := Varint.form_encode h64
  unfold cutAt
  simp only [Record.wire, hcodes.size h64, List.length_append] at hk ⊢
  generalize Record.schema.encode a = body at hlen hk hform ⊢
  generalize Varint.encode body.length = p at hk hform ⊢
  by_cases hcut : k < p.length
  · obtain ⟨hmore, hlength, hten⟩ := hform.unfinished_take hcut
    have hfront : Front α maxLength (p.take k) (.truncated (.inLength (p.take k).length)) [] :=
      .inLength hmore (by omega) (by omega)
    rw [hlength] at hfront
    rw [if_pos hcut, List.take_append_of_le_length (Nat.le_of_lt hcut)]
    exact hfront
  · have hle := Nat.le_of_not_lt hcut
    have hrest : (body.take (k - p.length)).length = k - p.length := by
      rw [List.length_take]
      omega
    have hfront : Front α maxLength (p ++ body.take (k - p.length))
        (.truncated (.inPayload body.length (body.take (k - p.length)).length)) [] :=
      .inPayload hform hlen (by omega)
    rw [hrest] at hfront
    rw [if_neg hcut, List.take_append, List.take_of_length_le hle]
    exact hfront

theorem fetch_take (hlen : (Record.schema.encode a).length ≤ maxLength)
    (hmax : maxLength < UInt64.size) (hpos : 0 < k) (hk : k < (Record.wire a).length) :
    ∃ s, Record.fetch α (⟨(Record.wire a).take k⟩ : ByteSource) maxLength =
      (.error (.record (.truncated (cutAt a k))), s) :=
  ⟨_, (front_take hlen hmax hpos hk).fetch⟩

/-! ## Records cut short -/

/-- Where the first `n` of records end that begin at `start`. -/
def ends {α : Type} [Record α] (start : Nat) (records : List α) (n : Nat) : Nat :=
  start + ((records.take n).flatMap Record.wire).length

/-- What the first `c` bytes hold if records begin at `start`: the first `n` of the records, and
then a failure unless `c` lies between two of them. -/
structure Holds {α : Type} [Record α] (start : Nat) (records : List α) (c n : Nat)
    (failure : Option BackupError) : Prop where
  le : n ≤ records.length
  /-- A record counts if it ends at or before the cut. -/
  whole : ∀ i < records.length, i < n ↔ ends start records (i + 1) ≤ c
  /-- The end is a clean one exactly at the end of a record. -/
  clean : failure = none ↔ ∃ i ≤ records.length, c = ends start records i
  /-- Otherwise it is told how much of the next record is there. -/
  cut : ∀ e, failure = some e → e.cutsRecord = true ∧ ∃ a, records[n]? = some a ∧
    e = .record (.truncated (cutAt a (c - ends start records n)))

omit [Record.Lawful α] in
@[simp] theorem ends_zero (start : Nat) (records : List α) : ends start records 0 = start := rfl

omit [Record.Lawful α] in
theorem ends_cons (start : Nat) (a : α) (records : List α) (n : Nat) :
    ends start (a :: records) (n + 1) = ends (start + (wire a).length) records n := by
  rw [ends, ends, List.take_succ_cons, List.flatMap_cons, List.length_append, Nat.add_assoc]

omit [Record.Lawful α] in
theorem le_ends (start : Nat) (records : List α) (n : Nat) : start ≤ ends start records n :=
  Nat.le_add_right _ _

variable {start c n : Nat} {records : List α} {failure : Option BackupError}

omit [Record.Lawful α] in
/-- Nothing is whole before the first record ends. -/
theorem Holds.of_lt (h : c < start + (wire a).length)
    (hclean : failure = none ↔ c = start)
    (hcut : ∀ e, failure = some e → e = .record (.truncated (cutAt a (c - start)))) :
    Holds start (a :: records) c 0 failure where
  le := Nat.zero_le _
  whole i _ := by
    have hle := le_ends (start + (wire a).length) records i
    rw [ends_cons]
    omega
  clean := by
    rw [hclean]
    constructor
    · intro hc
      exact ⟨0, Nat.zero_le _, hc⟩
    · rintro ⟨i, -, hi⟩
      cases i with
      | zero => exact hi
      | succ i =>
        have hle := le_ends (start + (wire a).length) records i
        rw [ends_cons] at hi
        omega
  cut e he := by
    rw [hcut e he]
    exact ⟨rfl, a, rfl, rfl⟩

omit [Record.Lawful α] in
/-- Behind the first record the others are held. -/
theorem Holds.cons (h : Holds (start + (wire a).length) records c n failure)
    (hc : start + (wire a).length ≤ c) : Holds start (a :: records) c (n + 1) failure where
  le := Nat.succ_le_succ h.le
  whole i hi := by
    rw [ends_cons]
    cases i with
    | zero => exact ⟨fun _ => hc, fun _ => Nat.succ_pos n⟩
    | succ i =>
      rw [Nat.succ_lt_succ_iff]
      exact h.whole i (Nat.lt_of_succ_lt_succ hi)
  clean := by
    rw [h.clean]
    constructor
    · rintro ⟨i, hi, hends⟩
      exact ⟨i + 1, Nat.succ_le_succ hi, by rw [ends_cons]; exact hends⟩
    · rintro ⟨i, hi, hends⟩
      cases i with
      | zero =>
        have hpos := List.length_pos_iff.mpr (wire_ne_nil a)
        rw [ends_zero] at hends
        omega
      | succ i =>
        rw [ends_cons] at hends
        exact ⟨i, Nat.le_of_succ_le_succ hi, hends⟩
  cut e he := by
    rw [ends_cons]
    exact h.cut e he

/-- The series of records that are cut somewhere. -/
theorem series_take (hmax : maxLength < UInt64.size) :
    ∀ {start : Nat}, start ≤ c → c ≤ ends start records records.length →
      (∀ a ∈ records, (Record.schema.encode a).length ≤ maxLength) →
      ∃ n failure, series α maxLength ((records.flatMap wire).take (c - start)) =
        (records.take n, failure) ∧ Holds start records c n failure := by
  induction records with
  | nil =>
    intro start hstart hend _
    have hc : c = start := Nat.le_antisymm hend hstart
    refine ⟨0, none, ?_, Nat.le_refl _, ?_, ?_, ?_⟩
    · rw [List.flatMap_nil, List.take_nil, series_of_end (fetch_nil maxLength)]
      rfl
    · intro i hi
      exact absurd hi (Nat.not_lt_zero i)
    · exact ⟨fun _ => ⟨0, Nat.le_refl _, hc⟩, fun _ => rfl⟩
    · intro e he
      cases he
  | cons a records ih =>
    intro start hstart hend hlens
    have hlen := hlens a List.mem_cons_self
    rw [List.flatMap_cons]
    by_cases hc : start + (wire a).length ≤ c
    · obtain ⟨n, failure, hseries, hholds⟩ := ih hc (by rwa [List.length_cons, ends_cons] at hend)
        fun b hb => hlens b (List.mem_cons_of_mem a hb)
      refine ⟨n + 1, failure, ?_, hholds.cons hc⟩
      rw [List.take_append, List.take_of_length_le (by omega),
        series_of_record (fetch_wire hlen hmax _), ← Nat.sub_add_eq, hseries, List.take_succ_cons]
    · have hlt := Nat.lt_of_not_le hc
      rw [List.take_append_of_le_length (by omega)]
      by_cases hpos : c = start
      · refine ⟨0, none, ?_, .of_lt hlt (by simp [hpos]) nofun⟩
        rw [hpos, Nat.sub_self, List.take_zero, series_of_end (fetch_nil maxLength)]
        rfl
      · obtain ⟨s, hfetch⟩ := fetch_take hlen hmax (k := c - start) (by omega) (by omega)
        refine ⟨0, _, series_of_failure hfetch, .of_lt hlt (by simp [hpos]) ?_⟩
        rintro e ⟨⟩
        rfl

end Record

/-! ## The main statement -/

/-- **A plain backup that is cut short** gives what is whole and tells the cut. A writer leaves the
bytes `BackupWriter.backupWire`. Of their first `c` bytes a reader makes nothing at all if there are
none, does not open if the header is cut, and otherwise gives the header, the frames whose records
are whole, and a failure unless `c` lies between two records. The failure tells how much of the
next record there is. -/
theorem plain_backup_cut (header : BackupInfo) (frames : List Frame) (settings : ReadSettings)
    (hsettings : settings.check = .ok ()) (hmax : settings.maxRecordLength < UInt64.size)
    (hheader : (Record.schema.encode header).length ≤ settings.maxRecordLength)
    (hframes : ∀ f ∈ frames, (Record.schema.encode f).length ≤ settings.maxRecordLength) :
    (∀ {σ : Type} [Sink σ] {T : Sink.Ledger σ}, Sink.Takes T → ∀ sink : σ, T sink [] →
      ∃ w : PlainWriter σ, (PlainWriter.start sink).run (BackupWriter.backupCalls header frames) =
          (allOk (BackupWriter.backupCalls header frames), w) ∧
        T w.output.sink (BackupWriter.backupWire header frames)) ∧
    ∀ c ≤ (BackupWriter.backupWire header frames).length,
      ∀ {τ : Type} [Source τ] (source : τ),
        Brings source ((BackupWriter.backupWire header frames).take c) none →
        (c = 0 → ∃ r : PlainReader τ BackupInfo Frame,
          PlainReader.start source settings = .ok r ∧ r.Serves none []) ∧
        (0 < c → c < (Record.wire header).length → ∃ e : BackupError, e.cutsRecord = true ∧
          e = .record (.truncated (Record.cutAt header c)) ∧
          (PlainReader.start source settings : Except _ (PlainReader τ BackupInfo Frame)) =
            .error e) ∧
        ((Record.wire header).length ≤ c →
          ∃ (n : Nat) (failure : Option BackupError) (r : PlainReader τ BackupInfo Frame),
            Record.Holds (Record.wire header).length frames c n failure ∧
            PlainReader.start source settings = .ok r ∧
            r.Serves (some header) ((frames.take n).map .ok ++ failure.toList.map .error)) := by
  constructor
  · intro σ _ T hT sink hs
    obtain ⟨w, hrun, -, hbytes⟩ := BackupWriter.run_backup (PlainOutput.succeeds hT) header
      frames (w := PlainWriter.start sink) rfl hs
    exact ⟨w, hrun, hbytes⟩
  · intro c hc τ _ source hsource
    have hopen := PlainReader.start_serves (η := BackupInfo) (φ := Frame) hsettings hsource
    refine ⟨?_, ?_, ?_⟩
    · rintro rfl
      rw [List.take_zero, Record.fetch_nil] at hopen
      rcases hopen with ⟨e, s, he, -⟩ | ⟨header', s, r, hfetch, hstart, hserves⟩
      · cases he
      · cases hfetch
        rw [Record.results, Record.series_of_end (Record.fetch_nil _)] at hserves
        exact ⟨r, hstart, hserves⟩
    · intro hpos hlt
      obtain ⟨s, hfetch⟩ := Record.fetch_take hheader hmax hpos hlt
      rw [BackupWriter.backupWire, List.take_append_of_le_length (Nat.le_of_lt hlt),
        hfetch] at hopen
      rcases hopen with ⟨e, s', he, hstart⟩ | ⟨header', s', r, he, -, -⟩
      · cases he
        exact ⟨_, rfl, rfl, hstart⟩
      · cases he
    · intro hle
      have hend : c ≤ Record.ends (Record.wire header).length frames frames.length := by
        rw [BackupWriter.backupWire, List.length_append] at hc
        rw [Record.ends, List.take_length]
        exact hc
      obtain ⟨n, failure, hseries, hholds⟩ := Record.series_take hmax hle hend hframes
      rw [BackupWriter.backupWire, List.take_append, List.take_of_length_le hle,
        Record.fetch_wire hheader hmax] at hopen
      rcases hopen with ⟨e, s', he, -⟩ | ⟨header', s', r, hfetch, hstart, hserves⟩
      · cases he
      · cases hfetch
        rw [Record.results, hseries] at hserves
        exact ⟨n, failure, r, hholds, hstart, hserves⟩

/-- An empty header, an empty frame and two bytes of a message: its length and one byte more. -/
theorem plain_backup_cut_in_message :
    let frames := [{}, Frame.textMessage 1 2 3 "hello"]
    ∃ r : PlainReader ScriptedSource BackupInfo Frame,
      PlainReader.start (ScriptedSource.ofBytes
        ((BackupWriter.backupWire ({} : BackupInfo) frames).take 4)) {} = .ok r ∧
      r.Serves (some {}) [.ok {}, .error (.record (.truncated (.inPayload 17 1)))] := by
  intro frames
  have hframes : ∀ f ∈ frames, (Record.schema.encode f).length ≤ 16777216 := by
    intro f hf
    rw [List.mem_cons, List.mem_singleton] at hf
    rcases hf with rfl | rfl <;> decide +kernel
  obtain ⟨-, hcuts⟩ := plain_backup_cut {} frames {} rfl (by decide) (by decide) hframes
  obtain ⟨-, -, hread⟩ := hcuts 4 (by decide +kernel) _ (ScriptedSource.brings_ofBytes _)
  obtain ⟨n, failure, r, hholds, hstart, hserves⟩ := hread (by decide +kernel)
  have hfirst := (hholds.whole 0 (by decide)).mpr (by decide +kernel)
  have hsecond := mt (hholds.whole 1 (by decide)).mp (by decide +kernel)
  obtain rfl : n = 1 := Nat.le_antisymm (Nat.le_of_not_lt hsecond) hfirst
  have hclean : ∀ i ≤ frames.length,
      4 ≠ Record.ends (Record.wire ({} : BackupInfo)).length frames i := by
    decide +kernel
  cases failure with
  | none =>
    obtain ⟨i, hi, hends⟩ := hholds.clean.mp rfl
    exact absurd hends (hclean i hi)
  | some e =>
    obtain ⟨-, f, ⟨⟩, rfl⟩ := hholds.cut e rfl
    have hcut : Record.cutAt (Frame.textMessage 1 2 3 "hello")
        (4 - Record.ends (Record.wire ({} : BackupInfo)).length frames 1) = .inPayload 17 1 := by
      decide +kernel
    rw [hcut] at hserves
    exact ⟨r, hstart, hserves⟩

end ChatBackup
