import ChatBackup.Gzip.Writer
import ChatBackup.Proofs.Acceptance
import ChatBackup.Proofs.Coding

/-!
# What a compressing writer sends

A gzip member is a header, compressed data that decodes, and a trailer that fits the data
(`Gzip.IsMember`). Over any compressor, whenever it puts out its bytes:

> `GzipWriter.finish_ok`: a writer that was given data, in pieces of any size and with any flushes
> and interruptions between them, ends by sending one member for it and zeros after that.

What was sent behind the header and what waits in the queue are what the compressor has put out
(`GzipWriter.Account`). That the compressor comes to an end (`Compressor.held_le`) matters only for
progress: a write takes at least a byte (`writeOnce_done`), and after a flush nothing waits
(`flushAll_records`).
-/

namespace ChatBackup

namespace Gzip

/-- A member that holds the data: a header, compressed bytes that decode, and the trailer. -/
def IsMember (data m : Bytes) : Prop :=
  ∃ level d, m = header level ++ d ++ trailer (Crc32.check data) data.length ∧
    Deflate.Decodes true #[] d data

end Gzip

namespace GzipWriter

open Sink

variable {C : Compressor} {σ : Type} [Sink σ] {U : Ledger σ}

/-! ## Sending -/

/-- Sending that does not fail has sent the front of the string and tells the rest. -/
theorem send_records (hU : Records U) {r : Outcome Unit} {s' : σ} {rest : Bytes} :
    ∀ (fuel : Nat) {s : σ} {b c : Bytes}, b.length ≤ fuel → U s c →
      send fuel s b = (r, s', rest) → (∀ e, r ≠ .failed e) →
      ∃ front, b = front ++ rest ∧ U s' (c ++ front) ∧ (r = .done () → rest = []) := by
  intro fuel
  induction fuel with
  | zero =>
    intro s b c hb hs h _
    obtain rfl : b = [] := List.length_eq_zero_iff.mp (Nat.le_zero.mp hb)
    cases h
    exact ⟨[], rfl, by rw [List.append_nil]; exact hs, fun _ => rfl⟩
  | succ fuel ih =>
    intro s b c hb hs h hr
    unfold send at h
    split at h
    next hnil =>
      cases h
      rw [List.isEmpty_iff.mp hnil]
      exact ⟨[], rfl, by rw [List.append_nil]; exact hs, fun _ => rfl⟩
    next =>
      split at h
      next => cases h; exact absurd rfl (hr _)
      next n t hn hw =>
        have hpos := Nat.pos_of_ne_zero hn
        obtain ⟨front, hb', hs', hdone⟩ :=
          ih (by rw [List.length_drop]; omega) (hU.done hs hw) h hr
        refine ⟨b.take n ++ front, ?_, ?_, hdone⟩
        · rw [List.append_assoc, ← hb', List.take_append_drop]
        · rw [← List.append_assoc]
          exact hs'
      next t hw =>
        cases h
        exact ⟨[], rfl, by rw [List.append_nil]; exact hU.interrupted hs hw, fun h => nomatch h⟩
      next => cases h; exact absurd rfl (hr _)

/-- A sink that takes bytes without an interruption is sent everything. -/
theorem send_steady (hU : Steady U) : ∀ (fuel : Nat) {s : σ} {b c : Bytes}, b.length ≤ fuel →
    U s c → ∃ s', send fuel s b = (.done (), s', []) := by
  intro fuel
  induction fuel with
  | zero =>
    intro s b c hb _
    obtain rfl : b = [] := List.length_eq_zero_iff.mp (Nat.le_zero.mp hb)
    exact ⟨s, rfl⟩
  | succ fuel ih =>
    intro s b c hb hs
    unfold send
    by_cases hnil : b.isEmpty
    · rw [if_pos hnil, List.isEmpty_iff.mp hnil]
      exact ⟨s, rfl⟩
    · obtain ⟨n, t, hw⟩ := hU.accepts hs (mt List.isEmpty_iff.mpr hnil)
      have hfewer : (b.drop (n + 1)).length ≤ fuel := by rw [List.length_drop]; omega
      obtain ⟨s', hrest⟩ := ih hfewer (hU.done hs hw)
      rw [if_neg hnil, hw]
      exact ⟨s', hrest⟩

/-! ## The writer's account -/

variable {level : Gzip.Level} {policy : PaddingPolicy} {w w' : GzipWriter C σ} {p b : Bytes}

/-- What a writer has sent, of the header and behind it, and what it still has. -/
structure Account (U : Ledger σ) (level : Gzip.Level) (policy : PaddingPolicy)
    (w : GzipWriter C σ) (p front behind : Bytes) : Prop where
  policy : w.policy = policy
  header : Gzip.header level = front ++ w.header
  rest : w.header ≠ [] → behind = []
  inner : Counted.Over U w.inner (front ++ behind)
  run : C.Run w.coder p (behind ++ w.queue)
  check : w.check = Crc32.start.feed p
  length : w.plaintextLength = p.length

/-- A writer that was given the data `p`. -/
def Over (U : Ledger σ) (level : Gzip.Level) (policy : PaddingPolicy) : Ledger (GzipWriter C σ) :=
  fun w p => ∃ front behind, Account U level policy w p front behind

omit [Sink σ] in
theorem over_start {inner : σ} (h : U inner []) :
    Over U level policy (start C inner level policy) [] :=
  ⟨[], [], rfl, rfl, fun _ => rfl, ⟨h, rfl⟩, .start level, rfl, rfl⟩

theorem sendHeader_records (hU : Records U) {r : Outcome Unit} (hw : Over U level policy w p)
    (h : w.sendHeader = (r, w')) (hr : ∀ e, r ≠ .failed e) :
    Over U level policy w' p ∧ (r = .done () → w'.header = []) := by
  obtain ⟨header, sent, hw⟩ := hw
  unfold sendHeader at h
  cases hsend : send w.header.length w.inner w.header with
  | mk r' x =>
    obtain ⟨inner, rest⟩ := x
    rw [hsend] at h
    cases h
    obtain ⟨front, hfront, hinner, hdone⟩ :=
      send_records (Counted.records hU) _ (Nat.le_refl _) hw.inner hsend hr
    refine ⟨⟨header ++ front, sent, hw.policy, ?_, ?_, ?_, hw.run, hw.check, hw.length⟩, hdone⟩
    · rw [List.append_assoc, ← hfront]
      exact hw.header
    · intro hrest
      refine hw.rest fun hnil => hrest ?_
      rw [hnil] at hfront
      exact (List.append_eq_nil_iff.mp hfront.symm).2
    · -- nothing was sent behind the header before all of it was sent
      by_cases hnil : w.header = []
      · rw [hnil] at hfront
        rw [(List.append_eq_nil_iff.mp hfront.symm).1, List.append_nil] at hinner ⊢
        exact hinner
      · rw [hw.rest hnil, List.append_nil] at hinner ⊢
        exact hinner

theorem sendQueue_records (hU : Records U) {r : Outcome Unit} (hw : Over U level policy w p)
    (hnil : w.header = []) (h : w.sendQueue = (r, w')) (hr : ∀ e, r ≠ .failed e) :
    Over U level policy w' p ∧ w'.header = [] ∧ w'.coder = w.coder ∧
      (r = .done () → w'.queue = []) := by
  obtain ⟨header, sent, hw⟩ := hw
  unfold sendQueue at h
  cases hsend : send w.queue.length w.inner w.queue with
  | mk r' x =>
    obtain ⟨inner, rest⟩ := x
    rw [hsend] at h
    cases h
    obtain ⟨front, hfront, hinner, hdone⟩ :=
      send_records (Counted.records hU) _ (Nat.le_refl _) hw.inner hsend hr
    have hrun := hw.run
    rw [hfront, ← List.append_assoc] at hrun
    rw [List.append_assoc] at hinner
    exact ⟨⟨header, sent ++ front, hw.policy, hw.header, fun h => absurd hnil h, hinner, hrun,
      hw.check, hw.length⟩, hnil, rfl, hdone⟩

omit [Sink σ] in
/-- Data that the coder takes has been written. -/
theorem Over.code (hw : Over U level policy w p) (hqueue : w.queue = []) (b : Bytes) :
    Over U level policy (w.code b).1 (p ++ b.take (w.code b).2) := by
  obtain ⟨header, sent, hw⟩ := hw
  have hrun := hw.run.take queueLength b
  rw [hqueue, List.append_nil] at hrun
  refine ⟨header, sent, hw.policy, hw.header, hw.rest, hw.inner, hrun, ?_, ?_⟩
  · show w.check.feed _ = _
    rw [hw.check, Crc32.feed_append]
    rfl
  · have hle : (w.code b).2 ≤ b.length := C.taken_le w.coder queueLength b
    show w.plaintextLength + (w.code b).2 = _
    rw [hw.length, List.length_append, List.length_take, Nat.min_eq_left hle]

omit [Sink σ] in
theorem Over.pause (hw : Over U level policy w p) : Over U level policy w.pause p := by
  obtain ⟨header, sent, hw⟩ := hw
  have hrun := hw.run.pause (queueLength - w.queue.length)
  rw [List.append_assoc] at hrun
  exact ⟨header, sent, hw.policy, hw.header, hw.rest, hw.inner, hrun, hw.check, hw.length⟩

omit [Sink σ] in
/-- A coder that takes nothing puts out bytes that it held. -/
theorem Over.code_held (hw : Over U level policy w p) (hnone : (w.code b).2 = 0) :
    (w.code b).1.queue.length + C.held (w.code b).1.coder ≤ C.held w.coder := by
  obtain ⟨header, sent, hw⟩ := hw
  exact C.held_le hw.run hnone

/-- Whatever rounds it takes, a write takes a front part of what it is offered. -/
theorem writeRounds_records (hU : Records U) {r : Outcome Nat} :
    ∀ (fuel : Nat) {w : GzipWriter C σ}, Over U level policy w p → w.header = [] →
      writeRounds fuel w b = (r, w') →
        (r = .interrupted → Over U level policy w' p) ∧
          ∀ n, r = .done n → Over U level policy w' (p ++ b.take n) := by
  intro fuel
  induction fuel with
  | zero =>
    intro w hw _ h
    cases h
    refine ⟨by simp, ?_⟩
    intro n hn
    cases hn
    rw [List.take_zero, List.append_nil]
    exact hw
  | succ fuel ih =>
    intro w hw hnil h
    unfold writeRounds at h
    split at h
    next w₁ hqueue =>
      cases h
      exact ⟨fun _ => (sendQueue_records hU hw hnil hqueue (by simp)).1, by simp⟩
    next => cases h; exact ⟨by simp, by simp⟩
    next w₁ hqueue =>
      obtain ⟨hw₁, hnil₁, -, hempty⟩ := sendQueue_records hU hw hnil hqueue (by simp)
      have hcode := hw₁.code (hempty rfl) b
      simp only at h
      split at h
      next hidle =>
        rw [Bool.and_eq_true, decide_eq_true_eq] at hidle
        rw [hidle.1, List.take_zero, List.append_nil] at hcode
        exact ih hcode hnil₁ h
      next =>
        cases h
        refine ⟨by simp, ?_⟩
        intro n hn
        cases hn
        exact hcode

theorem writeOnce_records (hU : Records U) {r : Outcome Nat} (hw : Over U level policy w p)
    (h : w.writeOnce b = (r, w')) :
    (r = .interrupted → Over U level policy w' p) ∧
      ∀ n, r = .done n → Over U level policy w' (p ++ b.take n) := by
  unfold writeOnce at h
  split at h
  next w₁ hheader =>
    cases h
    exact ⟨fun _ => (sendHeader_records hU hw hheader (by simp)).1, by simp⟩
  next => cases h; exact ⟨by simp, by simp⟩
  next w₁ hheader =>
    obtain ⟨hw₁, hnil⟩ := sendHeader_records hU hw hheader (by simp)
    exact writeRounds_records hU _ hw₁ (hnil rfl) h

/-- With enough rounds everything that was held is sent. -/
theorem sendHeld_records (hU : Records U) {r : Outcome Unit} :
    ∀ (fuel : Nat) {w : GzipWriter C σ}, Over U level policy w p → w.header = [] →
      sendHeld fuel w = (r, w') → (∀ e, r ≠ .failed e) →
        Over U level policy w' p ∧ (r = .done () → C.held w.coder < fuel → w'.queue = []) := by
  intro fuel
  induction fuel with
  | zero =>
    intro w hw _ h _
    cases h
    exact ⟨hw, fun _ hfuel => absurd hfuel (Nat.not_lt_zero _)⟩
  | succ fuel ih =>
    intro w hw hnil h hr
    unfold sendHeld at h
    split at h
    next w₁ hqueue =>
      obtain ⟨hw₁, hnil₁, hcoder, hempty⟩ := sendQueue_records hU hw hnil hqueue (by simp)
      have hcode := hw₁.code (hempty rfl) []
      have hheld := hw₁.code_held (Nat.le_zero.mp (C.taken_le w₁.coder queueLength []))
      rw [List.take_nil, List.append_nil] at hcode
      rw [hcoder] at hheld
      simp only at h
      split at h
      next hnone =>
        cases h
        exact ⟨hcode, fun _ _ => List.isEmpty_iff.mp hnone⟩
      next hsome =>
        have hpos := List.length_pos_iff.mpr (mt List.isEmpty_iff.mpr hsome)
        obtain ⟨hw', hsent⟩ := ih hcode hnil₁ h hr
        exact ⟨hw', fun hdone hfuel => hsent hdone (by omega)⟩
    next hnot =>
      obtain ⟨hw', -, -, hempty⟩ := sendQueue_records hU hw hnil h hr
      exact ⟨hw', fun hdone _ => hempty hdone⟩

/-- After a successful flush nothing waits. -/
theorem flushAll_records (hU : Records U) (hw : Over U level policy w p)
    (h : w.flushAll = (.ok (), w')) : Over U level policy w' p ∧ w'.queue = [] := by
  unfold flushAll at h
  split at h
  next => cases h
  next => cases h
  next w₁ hheader =>
    obtain ⟨hw₁, hnil⟩ := sendHeader_records hU hw hheader (by simp)
    simp only at h
    split at h
    next => cases h
    next => cases h
    next w₂ hheld =>
      obtain ⟨⟨front, behind, hw₂⟩, hsent⟩ :=
        sendHeld_records hU _ hw₁.pause (hnil rfl) hheld (by simp)
      cases hf : Sink.flush w₂.inner with
      | mk r inner =>
        rw [hf] at h
        cases h
        exact ⟨⟨front, behind, hw₂.policy, hw₂.header, hw₂.rest,
          (Counted.records hU).flush hw₂.inner hf, hw₂.run, hw₂.check, hw₂.length⟩,
          hsent rfl (Nat.lt_succ_self _)⟩

theorem records (hU : Records U) : Records (Over (C := C) U level policy) where
  done hw h := (writeOnce_records hU hw h).2 _ rfl
  interrupted hw h := (writeOnce_records hU hw h).1 rfl
  flush hw h := (flushAll_records hU hw h).1

/-! ## Progress -/

theorem sendHeader_succeeds (hU : Steady U) (hw : Over U level policy w p) :
    ∃ w', w.sendHeader = (.done (), w') := by
  obtain ⟨front, behind, hw⟩ := hw
  obtain ⟨inner, hsend⟩ := send_steady (Counted.steady hU) w.header.length (Nat.le_refl _) hw.inner
  exact ⟨_, by rw [sendHeader, hsend]⟩

theorem sendQueue_succeeds (hU : Steady U) (hw : Over U level policy w p) :
    ∃ w', w.sendQueue = (.done (), w') := by
  obtain ⟨front, behind, hw⟩ := hw
  obtain ⟨inner, hsend⟩ := send_steady (Counted.steady hU) w.queue.length (Nat.le_refl _) hw.inner
  exact ⟨_, by rw [sendQueue, hsend]⟩

/-- Over a steady sink rounds go on until some of the data is taken. -/
theorem writeRounds_done (hU : Steady U) (b : Bytes) :
    ∀ (fuel : Nat) {w : GzipWriter C σ}, Over U level policy w p → w.header = [] →
      C.held w.coder < fuel →
        ∃ n w', writeRounds fuel w b = (.done n, w') ∧ (b ≠ [] → 0 < n) := by
  intro fuel
  induction fuel with
  | zero => intro w _ _ hfuel; exact absurd hfuel (Nat.not_lt_zero _)
  | succ fuel ih =>
    intro w hw hnil hfuel
    obtain ⟨w₁, h₁⟩ := sendQueue_succeeds hU hw
    obtain ⟨hw₁, hnil₁, hcoder, hempty⟩ := sendQueue_records hU.toRecords hw hnil h₁ (by simp)
    have hcode := hw₁.code (hempty rfl) b
    unfold writeRounds
    simp only [h₁]
    split
    next hidle =>
      rw [Bool.and_eq_true, decide_eq_true_eq, Bool.not_eq_true', List.isEmpty_eq_false_iff]
        at hidle
      obtain ⟨hnone, hb⟩ := hidle
      have hheld := hw₁.code_held hnone
      have hpos : 0 < (w₁.code b).1.queue.length := by
        obtain ⟨front, behind, hacc⟩ := hw₁
        exact List.length_pos_iff.mpr (C.moves hacc.run (by decide) hb hnone)
      rw [hnone, List.take_zero, List.append_nil] at hcode
      rw [hcoder] at hheld
      exact ih hcode hnil₁ (by omega)
    next hsome =>
      refine ⟨_, _, rfl, fun hb => Nat.pos_of_ne_zero fun hnone => hsome ?_⟩
      rw [hnone]
      simpa using hb

/-- Over a steady sink a single write is neither interrupted nor fails, and takes some of the
data. -/
theorem writeOnce_done (hU : Steady U) (hw : Over U level policy w p) (b : Bytes) :
    ∃ n w', w.writeOnce b = (.done n, w') ∧ (b ≠ [] → 0 < n) := by
  obtain ⟨w₁, h₁⟩ := sendHeader_succeeds hU hw
  obtain ⟨hw₁, hnil⟩ := sendHeader_records hU.toRecords hw h₁ (by simp)
  unfold writeOnce
  simp only [h₁]
  exact writeRounds_done hU b _ hw₁ (hnil rfl) (Nat.lt_succ_self _)

theorem sendHeld_succeeds (hU : Steady U) :
    ∀ (fuel : Nat) {w : GzipWriter C σ}, Over U level policy w p → w.header = [] →
      ∃ w', sendHeld fuel w = (.done (), w') := by
  intro fuel
  induction fuel with
  | zero => intro w _ _; exact ⟨w, rfl⟩
  | succ fuel ih =>
    intro w hw hnil
    obtain ⟨w₁, h₁⟩ := sendQueue_succeeds hU hw
    obtain ⟨hw₁, hnil₁, -, hempty⟩ := sendQueue_records hU.toRecords hw hnil h₁ (by simp)
    have hcode := hw₁.code (hempty rfl) []
    rw [List.take_nil, List.append_nil] at hcode
    unfold sendHeld
    simp only [h₁]
    split
    · exact ⟨_, rfl⟩
    · exact ih hcode hnil₁

theorem flushAll_succeeds (hU : Steady U) (hw : Over U level policy w p) :
    ∃ w', w.flushAll = (.ok (), w') := by
  obtain ⟨w₁, h₁⟩ := sendHeader_succeeds hU hw
  obtain ⟨hw₁, hnil⟩ := sendHeader_records hU.toRecords hw h₁ (by simp)
  obtain ⟨w₂, h₂⟩ := sendHeld_succeeds hU (C.held w₁.pause.coder + 1) hw₁.pause (hnil rfl)
  obtain ⟨⟨front, behind, hw₂⟩, -⟩ :=
    sendHeld_records hU.toRecords _ hw₁.pause (hnil rfl) h₂ (by simp)
  obtain ⟨inner, hf⟩ := (Counted.steady hU).flushes hw₂.inner
  unfold flushAll
  simp only [h₁, h₂, hf]
  exact ⟨_, rfl⟩

theorem takes (hU : Steady U) : Takes (Over (C := C) U level policy) where
  toRecords := records hU.toRecords
  takes {w p b} hw hb := by
    obtain ⟨n, w', h, hpos⟩ := writeOnce_done hU hw b
    obtain ⟨n, rfl⟩ := Nat.exists_eq_succ_of_ne_zero (Nat.ne_of_gt (hpos hb))
    have hwrite : write w b = (.done (n + 1), w') := h
    exact ⟨n, w', by rw [writePast_of_not_interrupted (by rw [hwrite]; simp), hwrite]⟩
  flushes hw := flushAll_succeeds hU hw

/-! ## The end of the member -/

omit [Sink σ] in
/-- The member is complete with its ending. -/
theorem Account.isMember {front behind : Bytes} (hw : Account U level policy w p front behind) :
    Gzip.IsMember p (front ++ behind ++ w.ending) := by
  refine ⟨level, behind ++ w.queue ++ C.ending w.coder, ?_, C.decodes hw.run⟩
  have hcheck : w.check.value = Crc32.check p := by rw [hw.check]; rfl
  rw [ending, hw.header, hcheck, hw.length]
  by_cases hnil : w.header = []
  · simp only [hnil, List.append_nil, List.nil_append, List.append_assoc]
  · simp only [hw.rest hnil, List.append_nil, List.nil_append, List.append_assoc]

theorem sendEnding_ok (hU : Records U) {front behind : Bytes}
    (hw : Account U level policy w p front behind) {inner : Counted σ}
    (h : w.sendEnding = (.ok (), inner)) : Counted.Over U inner (front ++ behind ++ w.ending) := by
  unfold sendEnding at h
  cases hsend : send w.ending.length w.inner w.ending with
  | mk r x =>
    simp only [hsend] at h
    cases r with
    | interrupted => cases h
    | failed e => cases h
    | done =>
      cases h
      obtain ⟨sent, hsent, hinner, hdone⟩ :=
        send_records (Counted.records hU) _ (Nat.le_refl _) hw.inner hsend (by simp)
      rw [hdone rfl, List.append_nil] at hsent
      rwa [← hsent] at hinner

/-- After a successful end the next sink has one member for the data and the zeros that the policy
asks for behind it. -/
theorem finish_ok (hU : Records U) (hw : Over U level policy w p) {draws : List UInt64}
    {sizes : StreamSizes} {s : σ} (h : w.finish draws = (.ok sizes, s)) :
    ∃ m, Gzip.IsMember p m ∧ U s (m ++ List.replicate sizes.padding 0) ∧
      sizes = ⟨p.length, m.length, (Padding.amount m.length policy draws).1⟩ := by
  obtain ⟨front, behind, hw⟩ := hw
  unfold finish at h
  split at h
  next => cases h
  next inner hending =>
    have hinner := sendEnding_ok hU hw hending
    simp only [hinner.2, hw.policy] at h
    split at h
    next => cases h
    next t hzeros =>
      cases h
      refine ⟨_, hw.isMember, ?_, ?_⟩
      · exact hU.fillZeros hinner.1 hzeros
      · rw [hw.length]

theorem finish_succeeds (hU : Steady U) (hw : Over U level policy w p) (draws : List UInt64) :
    ∃ sizes s, w.finish draws = (.ok sizes, s) := by
  obtain ⟨front, behind, hw⟩ := hw
  have hC := Counted.steady hU
  obtain ⟨inner, hsend⟩ := send_steady hC w.ending.length (Nat.le_refl _) hw.inner
  obtain ⟨sent, -, hinner, -⟩ :=
    send_records hC.toRecords _ (Nat.le_refl _) hw.inner hsend (by simp)
  obtain ⟨s, hzeros⟩ := hU.takes.fillZeros_ok
    (Padding.amount inner.count w.policy draws).1 hinner.1
  unfold finish sendEnding
  simp only [hsend, Outcome.settle, hzeros]
  exact ⟨_, _, rfl⟩

end GzipWriter
end ChatBackup
