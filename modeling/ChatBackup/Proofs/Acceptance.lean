import ChatBackup.Channel.Scripted

/-!
# What sinks take

A ledger says which bytes the states of a sink have taken so far. Four laws tell sinks apart:

* `Records`: the ledger is kept by writes and flushes that do not fail. It can be had for any sink,
  by writing down what its writes report.
* `Takes`: besides, every write gets some bytes through if it is tried again after interruptions,
  and every flush succeeds.
* `Steady`: besides, no write is interrupted.
* `Swallows`: besides, every write takes all it is offered at once.

From these follow the loops that write whole strings:

> `Records.writeAll`, `Takes.writeAll`: after a successful `writeAll` all bytes are in the ledger,
> and on a sink that takes bytes it is successful.

A ledger that also holds through failures (`Enters`) tells what a string that could not be written
has left behind.

As for sources, each stage has a ledger over that of the next one, and one lemma about single
writes.
-/

namespace ChatBackup

namespace Sink

variable {σ : Type} [Sink σ]

/-- Says of states of a sink which bytes they have taken. -/
abbrev Ledger (σ : Type) := σ → Bytes → Prop

/-- What a write reports as taken is entered. -/
structure Records (T : Ledger σ) : Prop where
  done : ∀ {s s' : σ} {c b : Bytes} {n : Nat}, T s c → write s b = (.done n, s') →
    T s' (c ++ b.take n)
  interrupted : ∀ {s s' : σ} {c b : Bytes}, T s c → write s b = (.interrupted, s') → T s' c
  flush : ∀ {s s' : σ} {c : Bytes}, T s c → Sink.flush s = (.ok (), s') → T s' c

/-- Bytes that are offered get through, in pieces of any size. -/
structure Takes (T : Ledger σ) : Prop extends Records T where
  takes : ∀ {s : σ} {c b : Bytes}, T s c → b ≠ [] →
    ∃ n s', writePast (patience s) s b = (.done (n + 1), s')
  flushes : ∀ {s : σ} {c : Bytes}, T s c → ∃ s', Sink.flush s = (.ok (), s')

/-- Bytes that are offered get through in pieces of any size, and no write is interrupted. -/
structure Steady (T : Ledger σ) : Prop extends Records T where
  accepts : ∀ {s : σ} {c b : Bytes}, T s c → b ≠ [] → ∃ n s', write s b = (.done (n + 1), s')
  flushes : ∀ {s : σ} {c : Bytes}, T s c → ∃ s', Sink.flush s = (.ok (), s')

/-- Bytes that are offered get through at once. -/
structure Swallows (T : Ledger σ) : Prop extends Records T where
  swallows : ∀ {s : σ} {c : Bytes} (b : Bytes), T s c → ∃ s', write s b = (.done b.length, s')
  flushes : ∀ {s : σ} {c : Bytes}, T s c → ∃ s', Sink.flush s = (.ok (), s')

variable {T : Ledger σ}

/-- What is not interrupted is not tried again. -/
theorem writePast_of_not_interrupted {s : σ} {b : Bytes} (h : (write s b).1 ≠ .interrupted)
    (k : Nat) : writePast k s b = write s b := by
  cases k with
  | zero => rfl
  | succ k =>
    unfold writePast
    split
    next s' hw => exact absurd (by rw [hw]) h
    next => rfl

theorem writePast_interrupted {s s' : σ} {b : Bytes} (h : write s b = (.interrupted, s'))
    (k : Nat) : writePast (k + 1) s b = writePast k s' b := by
  rw [Sink.writePast, h]

theorem Steady.takes (hT : Steady T) : Takes T where
  toRecords := hT.toRecords
  takes {s c b} hs hb := by
    obtain ⟨n, s', hw⟩ := hT.accepts hs hb
    refine ⟨n, s', ?_⟩
    rw [writePast_of_not_interrupted (by rw [hw]; simp), hw]
  flushes := hT.flushes

theorem Swallows.steady (hT : Swallows T) : Steady T where
  toRecords := hT.toRecords
  accepts {s c b} hs hb := by
    obtain ⟨s', hw⟩ := hT.swallows b hs
    obtain ⟨n, hn⟩ := Nat.exists_eq_succ_of_ne_zero (mt List.length_eq_zero_iff.mp hb)
    exact ⟨n, s', by rw [hw, hn]⟩
  flushes := hT.flushes

/-! ## Writing whole strings -/

theorem Records.writePast (hT : Records T) {b c : Bytes} {n : Nat} {s' : σ} :
    ∀ (k : Nat) {s : σ}, T s c → writePast k s b = (.done n, s') → T s' (c ++ b.take n) := by
  intro k
  induction k with
  | zero => intro s hs h; exact hT.done hs h
  | succ k ih =>
    intro s hs h
    unfold Sink.writePast at h
    split at h
    next t hw => exact ih (hT.interrupted hs hw) h
    next => exact hT.done hs h

theorem Records.writeRounds (hT : Records T) {s' : σ} :
    ∀ (fuel : Nat) {s : σ} {b c : Bytes}, b.length ≤ fuel → T s c →
      writeRounds fuel s b = (.ok (), s') → T s' (c ++ b) := by
  intro fuel
  induction fuel with
  | zero =>
    intro s b c hb hs h
    obtain rfl : b = [] := List.length_eq_zero_iff.mp (Nat.le_zero.mp hb)
    rw [List.append_nil]
    cases h
    exact hs
  | succ fuel ih =>
    intro s b c hb hs h
    unfold Sink.writeRounds at h
    split at h
    next hnil =>
      rw [List.isEmpty_iff.mp hnil, List.append_nil]
      cases h
      exact hs
    next =>
      split at h
      next => cases h
      next n t hn hw =>
        have hpos := Nat.pos_of_ne_zero hn
        have h' := ih (by rw [List.length_drop]; omega) (hT.writePast _ hs hw) h
        rw [List.append_assoc, List.take_append_drop] at h'
        exact h'
      next => cases h
      next => cases h

/-- After a successful `writeAll` the whole string is in the ledger. -/
theorem Records.writeAll (hT : Records T) {s s' : σ} {b c : Bytes} (hs : T s c)
    (h : writeAll s b = (.ok (), s')) : T s' (c ++ b) :=
  hT.writeRounds b.length (Nat.le_refl _) hs h

/-- A sink that takes bytes lets a whole string through. -/
theorem Takes.writeAll_ok (hT : Takes T) {s : σ} {c : Bytes} :
    ∀ (b : Bytes), T s c → ∃ s', writeAll s b = (.ok (), s') := by
  intro b
  induction hlen : b.length using Nat.strongRecOn generalizing s c b with
  | ind n ih =>
    intro hs
    by_cases hb : b = []
    · rw [hb, writeAll_nil]
      exact ⟨s, rfl⟩
    · obtain ⟨n, t, hw⟩ := hT.takes hs hb
      have hpos := List.length_pos_iff.mpr hb
      obtain ⟨s', h⟩ := ih _ (by rw [← hlen, List.length_drop]; omega) (b.drop (n + 1)) rfl
        (hT.writePast _ hs hw)
      exact ⟨s', by rw [writeAll_eq s b hb, hw]; exact h⟩

theorem Takes.writeAll (hT : Takes T) {s : σ} {c : Bytes} (b : Bytes) (hs : T s c) :
    ∃ s', Sink.writeAll s b = (.ok (), s') ∧ T s' (c ++ b) := by
  obtain ⟨s', h⟩ := hT.writeAll_ok b hs
  exact ⟨s', h, hT.toRecords.writeAll hs h⟩

/-! ## Writing to sinks that may fail -/

/-- The front part of what was offered that a write has taken. -/
def taken (b : Bytes) : Outcome Nat → Bytes
  | .done n => b.take n
  | _ => []

@[simp] theorem taken_interrupted (b : Bytes) : taken b .interrupted = [] := rfl

/-- Just what was taken is entered, also by operations that fail. -/
structure Enters (T : Ledger σ) : Prop where
  write : ∀ {s : σ} {c : Bytes} (b : Bytes), T s c →
    T (Sink.write s b).2 (c ++ taken b (Sink.write s b).1)
  flush : ∀ {s : σ} {c : Bytes}, T s c → T (Sink.flush s).2 c

theorem Enters.records (hT : Enters T) : Records T where
  done {s s' c b n} hs h := by
    have hw := hT.write b hs
    rwa [h] at hw
  interrupted {s s' c b} hs h := by
    have hw := hT.write b hs
    rwa [h, taken_interrupted, List.append_nil] at hw
  flush {s s' c} hs h := by
    have hf := hT.flush hs
    rwa [h] at hf

theorem Enters.writePast (hT : Enters T) {b c : Bytes} :
    ∀ (k : Nat) {s : σ}, T s c →
      T (writePast k s b).2 (c ++ taken b (writePast k s b).1) := by
  intro k
  induction k with
  | zero => intro s hs; exact hT.write b hs
  | succ k ih =>
    intro s hs
    have hw := hT.write b hs
    unfold Sink.writePast
    split
    next t ht =>
      rw [ht, taken_interrupted, List.append_nil] at hw
      exact ih hw
    next => exact hw

theorem Enters.writeRounds (hT : Enters T) :
    ∀ (fuel : Nat) {s : σ} {c : Bytes} (b : Bytes), T s c →
      ∃ front, front <+: b ∧ T (writeRounds fuel s b).2 (c ++ front) := by
  intro fuel
  induction fuel with
  | zero =>
    intro s c b hs
    exact ⟨[], List.nil_prefix, by rw [List.append_nil]; exact hs⟩
  | succ fuel ih =>
    intro s c b hs
    have hw := hT.writePast (b := b) (patience s) hs
    unfold Sink.writeRounds
    split
    · exact ⟨[], List.nil_prefix, by rw [List.append_nil]; exact hs⟩
    · split
      next t h =>
        rw [h] at hw
        exact ⟨_, List.take_prefix 0 b, hw⟩
      next n t _ h =>
        rw [h] at hw
        obtain ⟨front, ⟨rest, hfront⟩, ht⟩ := ih (b.drop n) hw
        refine ⟨b.take n ++ front, ⟨rest, ?_⟩, ?_⟩
        · rw [List.append_assoc, hfront, List.take_append_drop]
        · rw [← List.append_assoc]
          exact ht
      next t h =>
        rw [h] at hw
        exact ⟨[], List.nil_prefix, hw⟩
      next e t h =>
        rw [h] at hw
        exact ⟨[], List.nil_prefix, hw⟩

/-- Whatever comes of writing a string, a front part of it was taken. -/
theorem Enters.writeAll (hT : Enters T) {s : σ} {c : Bytes} (b : Bytes) (hs : T s c) :
    ∃ front, front <+: b ∧ T (Sink.writeAll s b).2 (c ++ front) :=
  hT.writeRounds b.length b hs

/-! ## Writing zeros -/

theorem Records.fillZeroRounds (hT : Records T) {s' : σ} :
    ∀ (fuel : Nat) {s : σ} {c : Bytes} {count : Nat}, count ≤ fuel → T s c →
      fillZeroRounds fuel s count = (.ok (), s') → T s' (c ++ List.replicate count 0) := by
  intro fuel
  induction fuel with
  | zero =>
    intro s c count hc hs h
    obtain rfl : count = 0 := Nat.le_zero.mp hc
    rw [List.replicate_zero, List.append_nil]
    cases h
    exact hs
  | succ fuel ih =>
    intro s c count hc hs h
    unfold Sink.fillZeroRounds at h
    split at h
    next h0 =>
      rw [h0, List.replicate_zero, List.append_nil]
      cases h
      exact hs
    next h0 =>
      split at h
      next t hw =>
        have hchunk : 0 < zeroChunk := by decide
        have h' := ih (by omega) (hT.writeAll hs hw) h
        rw [List.append_assoc, List.replicate_append_replicate,
          Nat.add_sub_cancel' (Nat.min_le_left _ _)] at h'
        exact h'
      next => cases h

theorem Records.fillZeros (hT : Records T) {s s' : σ} {c : Bytes} {count : Nat} (hs : T s c)
    (h : fillZeros s count = (.ok (), s')) : T s' (c ++ List.replicate count 0) :=
  hT.fillZeroRounds count (Nat.le_refl _) hs h

theorem Takes.fillZeroRounds_ok (hT : Takes T) :
    ∀ (fuel : Nat) {s : σ} {c : Bytes} (count : Nat), T s c →
      ∃ s', fillZeroRounds fuel s count = (.ok (), s') := by
  intro fuel
  induction fuel with
  | zero => intro s c count _; exact ⟨s, rfl⟩
  | succ fuel ih =>
    intro s c count hs
    unfold Sink.fillZeroRounds
    by_cases h0 : count = 0
    · rw [if_pos h0]
      exact ⟨s, rfl⟩
    · rw [if_neg h0]
      obtain ⟨t, hw, ht⟩ := hT.writeAll (List.replicate (min count zeroChunk) 0) hs
      rw [hw]
      exact ih _ ht

theorem Takes.fillZeros_ok (hT : Takes T) {s : σ} {c : Bytes} (count : Nat) (hs : T s c) :
    ∃ s', fillZeros s count = (.ok (), s') := hT.fillZeroRounds_ok count count hs

end Sink

/-! ## Sinks with a closing string -/

namespace AppendSink

open Sink

variable {σ : Type} [AppendSink σ]

/-- Ledgers before and after the closing string. Nothing is said about writes that come after
it. -/
structure RecordsAll (T E : Ledger σ) : Prop extends Records T where
  append : ∀ {s s' : σ} {c b : Bytes}, T s c → AppendSink.append s b = (.ok (), s') →
    E s' (c ++ b)
  flushEnd : ∀ {s s' : σ} {c : Bytes}, E s c → Sink.flush s = (.ok (), s') → E s' c

/-- A sink that takes bytes and a closing string. -/
structure TakesAll (T E : Ledger σ) : Prop extends Takes T, RecordsAll T E where
  appends : ∀ {s : σ} {c : Bytes} (b : Bytes), T s c →
    ∃ s', AppendSink.append s b = (.ok (), s')
  flushesEnd : ∀ {s : σ} {c : Bytes}, E s c → ∃ s', Sink.flush s = (.ok (), s')

end AppendSink

/-! ## Counting on the way -/

namespace Counted

open Sink

variable {σ : Type} [Sink σ] {T : Ledger σ}

/-- The count is the length of what the next sink has taken. -/
def Over (T : Ledger σ) : Ledger (Counted σ) := fun s c => T s.inner c ∧ s.count = c.length

theorem write_eq (s : Counted σ) (b : Bytes) :
    write s b =
      match write s.inner b with
      | (.done n, t) => (.done n, ⟨t, s.count + n⟩)
      | (.interrupted, t) => (.interrupted, ⟨t, s.count⟩)
      | (.failed e, t) => (.failed e, ⟨t, s.count⟩) := rfl

theorem flush_eq (s : Counted σ) :
    flush s = ((flush s.inner).1, ⟨(flush s.inner).2, s.count⟩) := rfl

theorem records (hT : Records T) : Records (Over T) where
  done {s s' c b n} hs h := by
    have hle := write_le s.inner b
    rw [write_eq] at h
    split at h
    next k t hw =>
      cases h
      refine ⟨hT.done hs.1 hw, ?_⟩
      have := hle n (by rw [hw])
      show s.count + n = _
      rw [hs.2, List.length_append, List.length_take, Nat.min_eq_left this]
    next => cases h
    next => cases h
  interrupted {s s' c b} hs h := by
    rw [write_eq] at h
    split at h
    next => cases h
    next t hw =>
      cases h
      exact ⟨hT.interrupted hs.1 hw, hs.2⟩
    next => cases h
  flush {s s' c} hs h := by
    rw [flush_eq] at h
    cases hf : Sink.flush s.inner with
    | mk r t =>
      rw [hf] at h
      cases h
      exact ⟨hT.flush hs.1 hf, hs.2⟩

theorem steady (hT : Steady T) : Steady (Over T) where
  toRecords := records hT.toRecords
  accepts {s c b} hs hb := by
    obtain ⟨n, t, hw⟩ := hT.accepts hs.1 hb
    exact ⟨n, ⟨t, s.count + (n + 1)⟩, by rw [write_eq, hw]⟩
  flushes {s c} hs := by
    obtain ⟨t, hf⟩ := hT.flushes hs.1
    exact ⟨⟨t, s.count⟩, by rw [flush_eq, hf]⟩

end Counted

/-! ## Scripted sinks -/

namespace ScriptedSink

open Sink

/-- What writes have brought, with nothing appended yet. -/
def Written : Ledger ScriptedSink := fun s c => s.body = c ∧ s.tail = []

/-- What writes and appends have brought. -/
def Whole : Ledger ScriptedSink := fun s c => s.bytes = c

/-- A script that lets everything through, if in small pieces and with interruptions. -/
structure Faultless (s : ScriptedSink) : Prop where
  maxWrite : s.maxWrite ≠ some 0
  failAt : s.failAt = none
  zeroAt : s.zeroAt = none
  failFlush : s.failFlush = none
  failAppend : s.failAppend = none

theorem faultless_new : Faultless {} := ⟨by simp, rfl, rfl, rfl, rfl⟩

theorem written_new : Written {} [] := ⟨rfl, rfl⟩

/-- What comes of one write. -/
theorem write_cases (s : ScriptedSink) (b : Bytes) :
    (s.interrupts = true ∧ s.writes % 2 = 0 ∧
      write s b = (.interrupted, { s with writes := s.writes + 1 })) ∨
    (∃ e, s.refused b.length = some e ∧
      write s b = (.failed e, { s with writes := s.writes + 1 })) ∨
    write s b = (.done (s.room b.length), { s with
      writes := s.writes + 1
      pieces := b.take (s.room b.length) :: s.pieces
      accepted := s.accepted + s.room b.length }) := by
  show _ ∨ _ ∨ writeOnce s b = _
  by_cases hint : s.interrupts && s.writes % 2 == 0
  · have h : writeOnce s b = (.interrupted, { s with writes := s.writes + 1 }) := by
      unfold writeOnce
      rw [if_pos hint]
    rw [Bool.and_eq_true, beq_iff_eq] at hint
    exact Or.inl ⟨hint.1, hint.2, h⟩
  · refine Or.inr ?_
    cases hrefused : s.refused b.length with
    | some e =>
      refine Or.inl ⟨e, rfl, ?_⟩
      show writeOnce s b = _
      unfold writeOnce
      rw [if_neg hint, hrefused]
    | none =>
      refine Or.inr ?_
      unfold writeOnce
      rw [if_neg hint, hrefused]

/-- An interrupted write changes nothing but the count of writes, and the next one is not
interrupted. -/
theorem write_interrupted {s : ScriptedSink} {b : Bytes}
    (h : (Sink.write s b).1 = .interrupted) :
    patience s = 1 ∧ Sink.write s b = (.interrupted, { s with writes := s.writes + 1 }) ∧
      ∀ x : Bytes, (Sink.write { s with writes := s.writes + 1 } x).1 ≠ .interrupted := by
  rcases write_cases s b with ⟨hint, hwrites, hw⟩ | ⟨e, -, hw⟩ | hw
  · refine ⟨if_pos hint, hw, ?_⟩
    intro x
    rcases write_cases { s with writes := s.writes + 1 } x with ⟨-, hodd, -⟩ | ⟨e, -, hw⟩ | hw
    · change (s.writes + 1) % 2 = 0 at hodd
      omega
    · rw [hw]
      simp
    · rw [hw]
      simp
  · rw [hw] at h
    cases h
  · rw [hw] at h
    cases h

theorem records : AppendSink.RecordsAll Written Whole where
  done {s s' c b n} hs h := by
    rcases write_cases s b with ⟨-, -, hw⟩ | ⟨e, -, hw⟩ | hw
    · rw [hw] at h
      cases h
    · rw [hw] at h
      cases h
    · rw [hw] at h
      cases h
      refine ⟨?_, hs.2⟩
      simp only [body, List.reverse_cons, List.flatten_append, List.flatten_singleton]
      rw [← hs.1]
      rfl
  interrupted {s s' c b} hs h := by
    obtain ⟨-, hw, -⟩ := write_interrupted (s := s) (b := b) (by rw [h])
    rw [hw] at h
    cases h
    exact hs
  flush {s s' c} hs h := by
    change flushOnce s = _ at h
    have hafter := snd_flushOnce s
    rw [h] at hafter
    obtain rfl : s' = _ := hafter
    exact hs
  append {s s' c b} hs h := by
    change appendOnce s b = _ at h
    unfold appendOnce at h
    split at h
    · cases h
    · cases h
      show s.body ++ (s.tail ++ b) = c ++ b
      rw [hs.1, hs.2, List.nil_append]
  flushEnd {s s' c} hs h := by
    change flushOnce s = _ at h
    have hafter := snd_flushOnce s
    rw [h] at hafter
    obtain rfl : s' = _ := hafter
    exact hs

/-- A write to a faultless sink that is not interrupted takes a byte at least. -/
theorem Faultless.write {s : ScriptedSink} (h : Faultless s) {b : Bytes} (hb : b ≠ [])
    (hint : (Sink.write s b).1 ≠ .interrupted) : ∃ n s', Sink.write s b = (.done (n + 1), s') := by
  have hrefused : s.refused b.length = none := by simp [refused, h.failAt]
  have hroom : 0 < s.room b.length := by
    simp only [room, h.failAt, h.zeroAt, Option.map_none]
    exact atMost_pos h.maxWrite (List.length_pos_iff.mpr hb)
  obtain ⟨n, hn⟩ := Nat.exists_eq_succ_of_ne_zero (Nat.ne_of_gt hroom)
  rcases write_cases s b with ⟨-, -, hw⟩ | ⟨e, hrefused', hw⟩ | hw
  · exact absurd (by rw [hw]) hint
  · rw [hrefused] at hrefused'
    cases hrefused'
  · rw [hn] at hw
    exact ⟨n, _, hw⟩

theorem Faultless.copy {s t : ScriptedSink} (h : Faultless s) (h₁ : t.maxWrite = s.maxWrite)
    (h₂ : t.failAt = s.failAt) (h₃ : t.zeroAt = s.zeroAt) (h₄ : t.failFlush = s.failFlush)
    (h₅ : t.failAppend = s.failAppend) : Faultless t :=
  ⟨h₁ ▸ h.maxWrite, h₂ ▸ h.failAt, h₃ ▸ h.zeroAt, h₄ ▸ h.failFlush, h₅ ▸ h.failAppend⟩

theorem faultless_write {s : ScriptedSink} (h : Faultless s) (b : Bytes) :
    Faultless (Sink.write s b).2 := by
  rcases write_cases s b with ⟨-, -, hw⟩ | ⟨e, -, hw⟩ | hw
  · rw [hw]
    exact h.copy rfl rfl rfl rfl rfl
  · rw [hw]
    exact h.copy rfl rfl rfl rfl rfl
  · rw [hw]
    exact h.copy rfl rfl rfl rfl rfl

theorem flush_eq {s : ScriptedSink} (h : Faultless s) :
    flush s = (.ok (), { s with flushes := s.flushes + 1 }) := by
  show flushOnce s = _
  simp only [flushOnce, h.failFlush]

theorem append_eq {s : ScriptedSink} (h : Faultless s) (b : Bytes) :
    AppendSink.append s b = (.ok (), { s with tail := s.tail ++ b }) := by
  show appendOnce s b = _
  simp only [appendOnce, h.failAppend]

/-- A faultless sink takes everything, also while every other write is interrupted. -/
theorem takes : AppendSink.TakesAll (fun s c => Faultless s ∧ Written s c)
    (fun s c => Faultless s ∧ Whole s c) where
  done {s s' c b n} hs h := by
    have hf := faultless_write hs.1 b
    rw [h] at hf
    exact ⟨hf, records.done hs.2 h⟩
  interrupted {s s' c b} hs h := by
    have hf := faultless_write hs.1 b
    rw [h] at hf
    exact ⟨hf, records.interrupted hs.2 h⟩
  flush {s s' c} hs h := by
    refine ⟨?_, records.flush hs.2 h⟩
    rw [flush_eq hs.1] at h
    cases h
    exact hs.1.copy rfl rfl rfl rfl rfl
  append {s s' c b} hs h := by
    refine ⟨?_, records.append hs.2 h⟩
    rw [append_eq hs.1] at h
    cases h
    exact hs.1.copy rfl rfl rfl rfl rfl
  flushEnd {s s' c} hs h := by
    refine ⟨?_, records.flushEnd hs.2 h⟩
    rw [flush_eq hs.1] at h
    cases h
    exact hs.1.copy rfl rfl rfl rfl rfl
  takes {s c b} hs hb := by
    by_cases hint : (Sink.write s b).1 = .interrupted
    · obtain ⟨hpatience, hw, hnext⟩ := write_interrupted hint
      have hagain := faultless_write hs.1 b
      rw [hw] at hagain
      obtain ⟨n, s', h⟩ := hagain.write hb (hnext b)
      exact ⟨n, s', by rw [hpatience, writePast_interrupted hw]; exact h⟩
    · obtain ⟨n, s', h⟩ := hs.1.write hb hint
      exact ⟨n, s', by rw [writePast_of_not_interrupted hint, h]⟩
  flushes hs := ⟨_, flush_eq hs.1⟩
  appends b hs := ⟨_, append_eq hs.1 b⟩
  flushesEnd hs := ⟨_, flush_eq hs.1⟩

@[simp] theorem write_interrupts (s : ScriptedSink) (b : Bytes) :
    (Sink.write s b).2.interrupts = s.interrupts := by
  rcases write_cases s b with ⟨-, -, hw⟩ | ⟨e, -, hw⟩ | hw <;> rw [hw]

/-- Without interruptions each single write gets through. -/
theorem steady : Steady fun s c => s.interrupts = false ∧ Faultless s ∧ Written s c where
  done {s s' c b n} hs h := by
    have hint := write_interrupts s b
    rw [h] at hint
    exact ⟨hint.trans hs.1, takes.done hs.2 h⟩
  interrupted {s s' c b} hs h := by
    have hint := write_interrupts s b
    rw [h] at hint
    exact ⟨hint.trans hs.1, takes.interrupted hs.2 h⟩
  flush {s s' c} hs h := by
    refine ⟨?_, takes.flush hs.2 h⟩
    rw [flush_eq hs.2.1] at h
    cases h
    exact hs.1
  accepts {s c b} hs hb := by
    refine hs.2.1.write hb fun hint => ?_
    have hpatience : (if s.interrupts then 1 else 0) = 1 := (write_interrupted hint).1
    rw [hs.1] at hpatience
    cases hpatience
  flushes hs := takes.flushes hs.2

end ScriptedSink
end ChatBackup
