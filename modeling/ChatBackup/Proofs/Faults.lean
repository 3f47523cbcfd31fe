import ChatBackup.Proofs.Deflater
import ChatBackup.Proofs.SideBySide

/-!
# Backups on sinks that fail

What can be told of a backup whose sink does not take everything, for every sink and every sequence
of calls. It is compared with what the same calls send to a sink that takes everything:

> `no_false_success`: only a front part of the body reaches the sink. The authentication code is
> appended once at most, and then it is that of the whole body, which was accepted and flushed
> before. The end succeeds only if all of that did. If anything is missing some call has answered
> with the failure of the channel, and the writer has failed.

A writer that is given up with its stages open still tries to end its member. On a sink that lets
nothing through after a failure (`Stops`) no more than a front part has reached it even then.
-/

namespace ChatBackup

open Sink

/-! ## Sinks that stop -/

namespace Sink

section Stops

variable {σ : Type} [Sink σ] {K : σ → Prop}

/-- A sink that has once let nothing through of what it was offered never lets anything through
again; `K` are the states that it is in then. -/
structure Stops (K : σ → Prop) : Prop where
  enters : ∀ {s : σ} {b : Bytes}, b ≠ [] →
    (∀ n, (writePast (patience s) s b).1 ≠ .done (n + 1)) → K (writePast (patience s) s b).2
  write : ∀ {s : σ} (b : Bytes), K s → K (Sink.write s b).2
  nothing : ∀ {s : σ} (b : Bytes), K s → taken b (Sink.write s b).1 = []

theorem Stops.through {α : Type} [Sink α] {below : α → σ} (hK : Stops K) (h : Through below) :
    Stops fun a => K (below a) where
  enters {a b} hb hnone := by
    obtain ⟨hres, hbelow⟩ := h.writePast b (patience (below a)) a
    rw [h.patience] at hnone ⊢
    rw [hbelow]
    refine hK.enters hb fun n hn => hnone n ?_
    rw [hres, hn]
  write {a} b ha := by
    rw [(h.write a b).2]
    exact hK.write b ha
  nothing {a} b ha := by
    rw [(h.write a b).1]
    exact hK.nothing b ha

theorem Stops.writeRounds (hK : Stops K) {e : Failure} {s' : σ} :
    ∀ (fuel : Nat) {s : σ} {b : Bytes}, writeRounds fuel s b = (.error e, s') → K s' := by
  intro fuel
  induction fuel with
  | zero => intro s b h; cases h
  | succ fuel ih =>
    intro s b h
    have henters := hK.enters (s := s) (b := b)
    unfold Sink.writeRounds at h
    split at h
    · cases h
    next hb =>
      have hb' : b ≠ [] := by simpa using hb
      split at h
      next heq =>
        cases h
        rw [heq] at henters
        exact henters hb' (by simp)
      next => exact ih h
      next heq =>
        cases h
        rw [heq] at henters
        exact henters hb' (by simp)
      next heq =>
        cases h
        rw [heq] at henters
        exact henters hb' (by simp)

/-- A string that did not get through has stopped the sink. -/
theorem Stops.of_writeAll (hK : Stops K) {s s' : σ} {b : Bytes} {e : Failure}
    (h : writeAll s b = (.error e, s')) : K s' := hK.writeRounds b.length h

/-- Nothing is entered any more. -/
theorem Stops.kept {T : Ledger σ} (hK : Stops K) (hT : Enters T) (c : Bytes) :
    KeptByWrites fun s => T s c ∧ K s := by
  rintro s b ⟨hs, hk⟩
  have hw := hT.write b hs
  rw [hK.nothing b hk, List.append_nil] at hw
  exact ⟨hw, hK.write b hk⟩

end Stops
end Sink

/-! ## Hashing on the way -/

namespace Authenticated

variable {σ : Type} [Sink σ] {T : Ledger σ} {key : Bytes}

theorem through : Through (Authenticated.inner (σ := σ)) where
  write w b := by
    rw [write_eq]
    cases write w.inner b with
    | mk r inner => cases r <;> exact ⟨rfl, rfl⟩
  flush w := ⟨rfl, rfl⟩
  patience _ := rfl

end Authenticated

/-! ## Scripted sinks that stop -/

namespace ScriptedSink

/-- The script lets nothing more through. -/
def Spent (s : ScriptedSink) : Prop :=
  (∃ limit e, s.failAt = some (limit, e) ∧ limit ≤ s.accepted) ∨
    (∃ limit, s.zeroAt = some limit ∧ limit ≤ s.accepted) ∨ s.maxWrite = some 0

theorem spent_of_refused {s : ScriptedSink} {n : Nat} {e : Failure} (h : s.refused n = some e) :
    Spent s := by
  unfold refused at h
  split at h
  next limit e' hfail =>
    split at h
    next hle =>
      rw [Bool.and_eq_true, decide_eq_true_iff] at hle
      exact Or.inl ⟨limit, e', hfail, hle.1⟩
    next => cases h
  next => cases h

theorem atMost_eq_zero {limit : Option Nat} {n : Nat} :
    atMost limit n = 0 ↔ n = 0 ∨ limit = some 0 := by
  unfold atMost
  cases limit with
  | none => simp
  | some m => simp only [Option.some.injEq]; omega

theorem spent_iff_room {s : ScriptedSink} {n : Nat} (hn : 0 < n) : Spent s ↔ s.room n = 0 := by
  have hn' : n ≠ 0 := Nat.ne_of_gt hn
  unfold room Spent
  simp only [atMost_eq_zero, Option.map_eq_some_iff, Nat.sub_eq_zero_iff_le, Prod.exists, hn',
    false_or]
  constructor
  · rintro (⟨limit, e, hfail, hle⟩ | ⟨limit, hzero, hle⟩ | hmax)
    · exact Or.inl (Or.inr ⟨limit, e, hfail, hle⟩)
    · exact Or.inr ⟨limit, hzero, hle⟩
    · exact Or.inl (Or.inl hmax)
  · rintro ((hmax | ⟨limit, e, hfail, hle⟩) | ⟨limit, hzero, hle⟩)
    · exact Or.inr (Or.inr hmax)
    · exact Or.inl ⟨limit, e, hfail, hle⟩
    · exact Or.inr (Or.inl ⟨limit, hzero, hle⟩)

theorem Spent.later {s t : ScriptedSink} (h : Spent s) (hfail : t.failAt = s.failAt)
    (hzero : t.zeroAt = s.zeroAt) (hmax : t.maxWrite = s.maxWrite)
    (hle : s.accepted ≤ t.accepted) : Spent t := by
  rcases h with ⟨limit, e, hs, h⟩ | ⟨limit, hs, h⟩ | hs
  · exact Or.inl ⟨limit, e, hfail.trans hs, Nat.le_trans h hle⟩
  · exact Or.inr (Or.inl ⟨limit, hzero.trans hs, Nat.le_trans h hle⟩)
  · exact Or.inr (Or.inr (hmax.trans hs))

theorem Spent.write {s : ScriptedSink} (h : Spent s) (b : Bytes) : Spent (Sink.write s b).2 := by
  rcases write_cases s b with ⟨-, -, hw⟩ | ⟨e, -, hw⟩ | hw
  · rw [hw]
    exact h.later rfl rfl rfl (Nat.le_refl _)
  · rw [hw]
    exact h.later rfl rfl rfl (Nat.le_refl _)
  · rw [hw]
    exact h.later rfl rfl rfl (Nat.le_add_right _ _)

/-- A write that is not interrupted and takes nothing is made to a script at its end. -/
theorem spent_of_write {s : ScriptedSink} {b : Bytes} (hb : b ≠ [])
    (hint : (Sink.write s b).1 ≠ .interrupted)
    (hnone : ∀ n, (Sink.write s b).1 ≠ .done (n + 1)) : Spent (Sink.write s b).2 := by
  rcases write_cases s b with ⟨-, -, hw⟩ | ⟨e, hrefused, hw⟩ | hw
  · exact absurd (by rw [hw]) hint
  · exact (spent_of_refused hrefused).write b
  · have hroom : s.room b.length = 0 := by
      cases hr : s.room b.length with
      | zero => rfl
      | succ n => exact absurd (by rw [hw, hr]) (hnone n)
    exact ((spent_iff_room (List.length_pos_iff.mpr hb)).mpr hroom).write b

/-- Every script that lets nothing through of what it is offered has come to its end. -/
theorem stops : Stops Spent where
  enters {s b} hb hnone := by
    by_cases hint : (Sink.write s b).1 = .interrupted
    · obtain ⟨hpatience, hw, hnext⟩ := write_interrupted hint
      rw [hpatience, writePast_interrupted hw] at hnone ⊢
      exact spent_of_write hb (hnext b) hnone
    · rw [writePast_of_not_interrupted hint] at hnone ⊢
      exact spent_of_write hb hint hnone
  write b hs := hs.write b
  nothing {s} b hs := by
    rcases write_cases s b with ⟨-, -, hw⟩ | ⟨e, -, hw⟩ | hw
    · rw [hw]
      rfl
    · rw [hw]
      rfl
    · rw [hw]
      show b.take (s.room b.length) = []
      cases b with
      | nil => exact List.take_nil
      | cons x b =>
        have hroom : s.room (x :: b).length = 0 := (spent_iff_room (Nat.succ_pos _)).mp hs
        rw [hroom, List.take_zero]

end ScriptedSink

/-! ## What calls come to -/

/-- What calls have come to if nothing is told that is not so. `body` is what the same calls send to
a sink that takes everything; `Fair` are the logs that any calls may leave, `Closed` those of
complete backups. -/
structure Truthful (Fair Closed : Bytes → List SinkEvent → Prop) (body : Bytes)
    (history : List (WriterCall × Except BackupError Unit)) (state : WriteProgress)
    (log : List SinkEvent) : Prop where
  /-- A front part of the body was accepted. -/
  front : accepted log <+: body
  fair : Fair body log
  /-- The end succeeds only with a complete backup. -/
  closed : (WriterCall.close, .ok ()) ∈ history → Closed body log
  /-- What is missing was told by a failure of the channel. -/
  missing : (accepted log).length < body.length →
    state = .failed ∧ ∃ c f, (c, .error (.io f)) ∈ history

theorem truthful_of_whole {Fair Closed : Bytes → List SinkEvent → Prop} {body : Bytes}
    {history : List (WriterCall × Except BackupError Unit)} {state : WriteProgress}
    {log : List SinkEvent} (hall : accepted log = body) (hfair : Fair body log)
    (hclosed : (WriterCall.close, .ok ()) ∈ history → Closed body log) :
    Truthful Fair Closed body history state log where
  front := prefix_of_eq hall
  fair := hfair
  closed := hclosed
  missing hlt := by
    rw [hall] at hlt
    exact absurd hlt (Nat.lt_irrefl _)

namespace BackupWriter

/-- Side by side with a writer whose sink takes everything nothing is told that is not so. -/
theorem Beside.truthful {δ ε : Type} {Q F D : δ → ε → Prop}
    {Fair Closed : Bytes → List SinkEvent → Prop} (logOf : δ → List SinkEvent) (sent : ε → Bytes)
    {w : BackupWriter δ} {v : BackupWriter ε} (hw : Beside Q F D w v) {s : WriteProgress}
    (hs : s ≠ .failed) {history : List (WriterCall × Except BackupError Unit)}
    (hpath : WriteProgress.Path s history w.state)
    (hQ : ∀ {o q}, Q o q → accepted (logOf o) = sent q ∧ Fair (sent q) (logOf o))
    (hF : ∀ {o q}, F o q → accepted (logOf o) = sent q ∧ Fair (sent q) (logOf o) ∧
      Closed (sent q) (logOf o))
    (hD : ∀ {o q}, D o q → accepted (logOf o) <+: sent q ∧ Fair (sent q) (logOf o)) :
    Truthful Fair Closed (sent v.output) history w.state (logOf w.output) := by
  cases hw with
  | going hstate _ hclosed _ ho =>
    -- nothing is missing yet, and nothing was closed
    obtain ⟨hall, hfair⟩ := hQ ho
    refine truthful_of_whole hall hfair ?_
    intro hclose
    exact absurd (hstate.symm.trans (hpath.closed_of_close hclose)) hclosed
  | closed _ _ _ ho =>
    obtain ⟨hall, hfair, hclosed⟩ := hF ho
    exact truthful_of_whole hall hfair fun _ => hclosed
  | behind hstate ho =>
    -- a writer fails only with a failure of the channel, and never after it was closed
    obtain ⟨hfront, hfair⟩ := hD ho
    refine ⟨hfront, hfair, ?_, fun _ => ⟨hstate, hpath.io_of_failed hs hstate⟩⟩
    intro hclose
    rw [hpath.closed_of_close hclose] at hstate
    cases hstate

end BackupWriter

/-! ## Plain backups -/

namespace PlainOutput

/-- A log that ends with a flush of all that was accepted, and nothing appended. -/
def IsClosed (body : Bytes) (log : List SinkEvent) : Prop :=
  Unclosed log ∧ ∃ before, accepted before = body ∧ log = before ++ [.flush (.ok ())]

end PlainOutput

namespace PlainWriter

variable {σ ρ : Type} [Sink σ] [Sink ρ] {T : Ledger ρ}

theorem run_truthful (hT : Takes T) (sink : σ) {full : ρ} (hfull : T full [])
    (calls : List WriterCall) :
    Truthful (fun _ => Unclosed) PlainOutput.IsClosed
      (accepted ((PlainWriter.start (Logged.mk full [])).run calls).2.output.sink.log)
      ((PlainWriter.start (Logged.mk sink [])).run calls).1
      ((PlainWriter.start (Logged.mk sink [])).run calls).2.state
      ((PlainWriter.start (Logged.mk sink [])).run calls).2.output.sink.log := by
  obtain ⟨hrun, -⟩ := BackupWriter.run_beside (w := start (Logged.mk sink []))
    (v := start (Logged.mk full [])) (PlainOutput.pursues Logged.enters (Logged.takes hT)) rfl rfl
    rfl ⟨[], Logged.accepted_new sink, hfull, Logged.accepted_new full⟩ calls
  have hpath := (BackupWriter.run_path PlainOutput.ready calls
    (w := start (Logged.mk sink [])) (Or.inr (Or.inr trivial))).1
  refine hrun.truthful (fun o => o.sink.log) (fun q => accepted q.sink.log) (by simp [start]) hpath
    ?_ ?_ ?_
  · rintro o q ⟨c, ⟨hc, hun⟩, -, hd, -⟩
    exact ⟨hc.trans hd.symm, hun⟩
  · rintro o q ⟨⟨s, hflush⟩, c, ⟨hc, hun⟩, -, hd, -⟩
    have hlog := Logged.flush_log hflush
    refine ⟨hc.trans hd.symm, hun, hun, s.log, ?_, hlog⟩
    rw [hlog, accepted_append] at hc
    rw [hd, ← hc]
    exact (List.append_nil _).symm
  · rintro o q ⟨c, d, ⟨rfl, hun⟩, ⟨-, rfl, -⟩, hle, -⟩
    exact ⟨hle, hun⟩

end PlainWriter

/-! ## Encrypted backups -/

namespace EncryptedOutput

variable {C : Compressor} {σ ρ : Type} [AppendSink σ] [AppendSink ρ] {T E : Ledger ρ}
  {key : BackupKey} {iv : Block} {level : Gzip.Level} {policy : PaddingPolicy}

/-- A sink that stops at all has done so. -/
abbrev Stopped (s : Logged σ) : Prop := ∀ K, Stops K → K s.inner

theorem stopped_of_writeAll {a a' : Authenticated (Logged σ)} {x : Bytes} {e : Failure}
    (h : writeAll a x = (.error e, a')) : Stopped a'.inner := by
  intro K hK
  exact ((hK.through Logged.through).through Authenticated.through).of_writeAll h

omit [AppendSink σ] [AppendSink ρ] in
theorem mac_level {a : Authenticated (Logged σ)} {b : Authenticated (Logged ρ)}
    (h : MacLevel T key.macKey a b) :
    accepted a.inner.log = accepted b.inner.log ∧ Unclosed a.inner.log := by
  obtain ⟨c, ⟨⟨ha, hun⟩, -⟩, ⟨-, hb, -⟩, -⟩ := h
  exact ⟨ha.trans hb.symm, hun⟩

/-- To give an output up appends nothing. -/
theorem abandon_log (o : EncryptedOutput C (Logged σ)) :
    ∃ more, Unclosed more ∧ o.abandon.log = o.sink.log ++ more := by
  have hI : KeptByWrites fun s : Logged σ =>
      ∃ more, Unclosed more ∧ s.log = o.sink.log ++ more := by
    rintro s b ⟨more, hmore, hlog⟩
    refine ⟨more ++ [.write b (Sink.write s.inner b).1], hmore.append (unclosed_singleton id), ?_⟩
    show s.log ++ _ = _
    rw [hlog, List.append_assoc]
  exact abandon_kept hI ⟨[], unclosed_nil, (List.append_nil _).symm⟩

/-- Two outputs that are given up while both are open. -/
theorem OpenAlike.abandon (hT : Takes T) {o : EncryptedOutput C (Logged σ)}
    {q : EncryptedOutput C (Logged ρ)} (h : OpenAlike T key iv level policy o q) :
    accepted o.abandon.log <+: accepted q.abandon.log := by
  obtain ⟨w, v, draws, p, rfl, rfl, hw, -⟩ := h
  have hpace := GzipWriter.sendEnding_pace
    (CbcWriter.pursues (mac_pursuesAll (Z := fun _ => True) hT fun _ => trivial)) hw
  show accepted w.sendEnding.2.inner.inner.inner.log <+:
    accepted v.sendEnding.2.inner.inner.inner.log
  generalize w.sendEnding = x at hpace
  generalize v.sendEnding = y at hpace
  cases hpace with
  | keep _ hs => exact prefix_of_eq (mac_level hs.2.inner).1
  | lose e hd => exact (mac_short (Z := fun _ => True) hd).2.2

/-- An output that is behind stays so when it is given up, if its sink stops. -/
theorem Behind.abandon {K : σ → Prop} (hK : Stops K) {o : EncryptedOutput C (Logged σ)}
    {q : EncryptedOutput C (Logged ρ)} (h : Behind key.macKey Stopped o q) :
    accepted o.abandon.log <+: accepted q.abandon.log := by
  cases h with
  | completing htrails => exact htrails.1
  | @putting stages draws q hun hz hle =>
    -- nothing more gets through to the first sink, and the second one only accepts more
    have hkept := (hK.through Logged.through).kept Logged.enters
      (accepted (opened stages draws).sink.log)
    have hafter := abandon_kept hkept (o := opened stages draws) ⟨⟨rfl, hun⟩, hz K hK⟩
    have hgrown := abandon_kept (Logged.kept (accepted (opened stages draws).sink.log)).write hle
    rw [hafter.1.1]
    exact hgrown

end EncryptedOutput

namespace EncryptedWriter

open EncryptedOutput

variable {C : Compressor} {σ ρ : Type} [AppendSink σ] [AppendSink ρ] {T E : Ledger ρ}
  {key : BackupKey} {iv : Block} {draws : List UInt64} {settings : WriteSettings} {sink : σ}
  {full : ρ}

/-- A writer that could not be opened has told so, and has sent no more than a front part of the
initialisation vector. -/
theorem start_error {e : BackupError} {s : Logged σ} (hsettings : settings.check = .ok ())
    (h : start C (Logged.mk sink []) key iv draws settings = .error (e, s)) :
    (∃ f, e = .io f) ∧ Unclosed s.log ∧ accepted s.log <+: iv.toBytes := by
  have hnew : Authenticated.Over Logged.Accepted key.macKey
      (Authenticated.start (Logged.mk sink []) key.macKey) [] :=
    Authenticated.over_start (Logged.accepted_new sink)
  obtain ⟨front, hfront, hmac⟩ := (Authenticated.enters Logged.enters).writeAll iv.toBytes hnew
  unfold start at h
  simp only [hsettings] at h
  split at h
  next f mac hw =>
    cases h
    rw [hw, List.nil_append] at hmac
    obtain ⟨⟨hacc, hun⟩, -⟩ := hmac
    refine ⟨⟨f, rfl⟩, hun, ?_⟩
    rw [hacc]
    exact hfront
  next => cases h

/-- Two writers that could be opened are side by side. -/
theorem start_alike (hT : Takes T) (hfull : T full []) {w : EncryptedWriter C (Logged σ)}
    {v : EncryptedWriter C (Logged ρ)}
    (hw : start C (Logged.mk sink []) key iv draws settings = .ok w)
    (hv : start C (Logged.mk full []) key iv draws settings = .ok v) :
    w.state = .created ∧ v.state = .created ∧ w.counts = v.counts ∧
      OpenAlike T key iv (.ofNat settings.compressionLevel) settings.padding w.output v.output := by
  obtain ⟨-, -, hcarries⟩ :=
    start_ok (Logged.takes hT).toRecords ⟨hfull, Logged.accepted_new full⟩ hv
  obtain ⟨mac, hmac, rfl⟩ := start_cases hw
  obtain ⟨mac', hmac', rfl⟩ := start_cases hv
  have ha := (Authenticated.enters Logged.enters).records.writeAll
    (Authenticated.over_start (Logged.accepted_new sink)) hmac
  have hb := (Authenticated.records (Logged.takes hT).toRecords).writeAll
    (Authenticated.over_start ⟨hfull, Logged.accepted_new full⟩) hmac'
  refine ⟨rfl, rfl, rfl, _, _, draws, [], rfl, rfl, ?_, hcarries⟩
  exact ⟨rfl, rfl, rfl, rfl, rfl, rfl, rfl, rfl, rfl, rfl, Nat.succ_pos _, _, ha, hb⟩

/-- A backup begins with the initialisation vector. -/
theorem run_begins (hT : Takes T) (hfull : T full []) {v : EncryptedWriter C (Logged ρ)}
    (hv : start C (Logged.mk full []) key iv draws settings = .ok v) (calls : List WriterCall) :
    iv.toBytes <+: accepted (v.run calls).2.output.sink.log := by
  obtain ⟨mac, hmac, rfl⟩ := start_cases hv
  have hb := (Authenticated.records (Logged.takes hT).toRecords).writeAll
    (Authenticated.over_start ⟨hfull, Logged.accepted_new full⟩) hmac
  have hkept := Logged.kept (σ := ρ) iv.toBytes
  refine BackupWriter.run_kept (I := fun q : EncryptedOutput C (Logged ρ) =>
    iv.toBytes <+: accepted q.sink.log)
    (fun b => put_kept hkept b) (fun c => complete_kept hkept c) calls ?_
  exact prefix_of_eq hb.1.2.1.symm

theorem run_truthful (hT : AppendSink.TakesAll T E) (hfull : T full [])
    {w : EncryptedWriter C (Logged σ)} {v : EncryptedWriter C (Logged ρ)}
    (hw : start C (Logged.mk sink []) key iv draws settings = .ok w)
    (hv : start C (Logged.mk full []) key iv draws settings = .ok v) (calls : List WriterCall) :
    Truthful (AppendsOnce key.macKey) (IsClosed key.macKey)
        (accepted (v.run calls).2.output.sink.log) (w.run calls).1 (w.run calls).2.state
        (w.run calls).2.output.sink.log ∧
      ∀ K : σ → Prop, Stops K → accepted (w.run calls).2.output.abandon.log <+:
        accepted (v.run calls).2.output.abandon.log := by
  obtain ⟨hstate, hstate', hcounts, halike⟩ := start_alike hT.toTakes hfull hw hv
  have hpursues : RecordOutput.Pursues
      (OpenAlike (C := C) T key iv (.ofNat settings.compressionLevel) settings.padding)
      (ClosedAlike key.macKey) (Behind (σ := σ) (ρ := ρ) key.macKey Stopped) :=
    EncryptedOutput.pursues hT stopped_of_writeAll
  obtain ⟨hrun, -⟩ := BackupWriter.run_beside hpursues hstate hstate' hcounts halike calls
  have hpath := (BackupWriter.run_path EncryptedOutput.ready calls (start_sound hw)).1
  constructor
  · refine hrun.truthful (fun o => o.sink.log) (fun q => accepted q.sink.log) (by simp [hstate])
      hpath ?_ ?_ ?_
    · rintro o q ⟨w, v, draws, p, rfl, rfl, hw, -⟩
      obtain ⟨hall, hun⟩ := mac_level hw.inner.2.inner
      exact ⟨hall, Or.inl hun⟩
    · rintro o q ⟨s, t, body, rfl, rfl, hs, ht⟩
      show accepted s.log = accepted t.log ∧ AppendsOnce _ (accepted t.log) s.log ∧
        IsClosed _ (accepted t.log) s.log
      rw [ht.accepted_eq]
      exact ⟨hs.accepted_eq, hs.appendsOnce, hs⟩
    · intro o q hd
      cases hd with
      | putting hun hz hle => exact ⟨hle, Or.inl hun⟩
      | completing htrails => exact htrails
  · intro K hK
    cases hrun with
    | going _ _ _ _ ho => exact ho.abandon hT.toTakes
    | closed _ _ _ ho =>
      obtain ⟨s, t, body, ho, hq, hs, ht⟩ := ho
      rw [ho, hq]
      exact prefix_of_eq (hs.accepted_eq.trans ht.accepted_eq.symm)
    | behind _ hd => exact hd.abandon hK

end EncryptedWriter

/-! ## The main statement -/

/-- **No false success**: a backup that is not complete is never taken for one, whatever the sink
does, however records are compressed and whatever calls are made. Here `full` is a sink that takes
everything, on which a writer always opens, and the body is what the same calls send to it.

A plain backup appends nothing, and is closed with success only if all of the body was accepted and
flushed. An encrypted one is closed with success only if besides its authentication code was
appended and flushed; and its code is appended at most once, and only to the whole body. Whatever
is missing of the body, down to the initialisation vector, some call has answered with a failure of
the channel. To give an encrypted writer up appends nothing, and brings no more than a front part
through to a sink that stops. -/
theorem no_false_success {σ ρ : Type} :
    (∀ [Sink σ] [Sink ρ] {T : Ledger ρ}, Takes T → ∀ (sink : σ) (full : ρ), T full [] →
      ∀ calls, Truthful (fun _ => Unclosed) PlainOutput.IsClosed
        (accepted ((PlainWriter.start (Logged.mk full [])).run calls).2.output.sink.log)
        ((PlainWriter.start (Logged.mk sink [])).run calls).1
        ((PlainWriter.start (Logged.mk sink [])).run calls).2.state
        ((PlainWriter.start (Logged.mk sink [])).run calls).2.output.sink.log) ∧
    (∀ (C : Compressor) [AppendSink σ] [AppendSink ρ] {T E : Ledger ρ}, AppendSink.TakesAll T E →
      ∀ (sink : σ) (full : ρ), T full [] →
      ∀ (key : BackupKey) (iv : Block) (draws : List UInt64) (settings : WriteSettings),
        settings.check = .ok () →
      ∃ v, EncryptedWriter.start C (Logged.mk full []) key iv draws settings = .ok v ∧
        (∀ e s, EncryptedWriter.start C (Logged.mk sink []) key iv draws settings = .error (e, s) →
          (∃ f, e = .io f) ∧ Unclosed s.log ∧
            ∀ calls, accepted s.log <+: accepted (v.run calls).2.output.sink.log) ∧
        ∀ w, EncryptedWriter.start C (Logged.mk sink []) key iv draws settings = .ok w → ∀ calls,
          Truthful (EncryptedOutput.AppendsOnce key.macKey) (EncryptedOutput.IsClosed key.macKey)
            (accepted (v.run calls).2.output.sink.log) (w.run calls).1 (w.run calls).2.state
            (w.run calls).2.output.sink.log ∧
          (∃ more, Unclosed more ∧ (w.run calls).2.output.abandon.log =
            (w.run calls).2.output.sink.log ++ more) ∧
          ∀ K : σ → Prop, Stops K → accepted (w.run calls).2.output.abandon.log <+:
            accepted (v.run calls).2.output.abandon.log) := by
  constructor
  · intro _ _ T hT sink full hfull calls
    exact PlainWriter.run_truthful hT sink hfull calls
  · intro C _ _ T E hT sink full hfull key iv draws settings hsettings
    have hnew : Logged.Over T (Logged.mk full []) [] := ⟨hfull, Logged.accepted_new full⟩
    obtain ⟨v, hv⟩ := EncryptedWriter.start_succeeds C (Logged.takes hT.toTakes) hnew key iv draws
      hsettings
    refine ⟨v, hv, ?_, ?_⟩
    · intro e s hw
      obtain ⟨hio, hun, hfront⟩ := EncryptedWriter.start_error hsettings hw
      exact ⟨hio, hun, fun calls =>
        hfront.trans (EncryptedWriter.run_begins hT.toTakes hfull hv calls)⟩
    · intro w hw calls
      obtain ⟨htruthful, hgiven⟩ := EncryptedWriter.run_truthful hT hfull hw hv calls
      exact ⟨htruthful, EncryptedOutput.abandon_log _, hgiven⟩

/-- On sinks that fail after one byte, where a plain backup stops, and after twenty, so that the
initialisation vector still fits. -/
theorem no_false_success_of_full_sink :
    let sink : Nat → ScriptedSink := fun limit =>
      { failAt := some (limit, .device .other "full") }
    let key : BackupKey := ⟨List.replicate 32 1, List.replicate 32 2, rfl, rfl⟩
    let calls : List WriterCall := [.header ({} : BackupInfo), .frame ({} : Frame), .close]
    ((PlainWriter.start (Logged.mk (sink 1) [])).run calls).2.state = .failed ∧
    ∃ v w, EncryptedWriter.start Deflater.compressor (Logged.mk ({} : ScriptedSink) []) key .zero []
        {} = .ok v ∧
      EncryptedWriter.start Deflater.compressor (Logged.mk (sink 20) []) key .zero [] {} = .ok w ∧
      EncryptedOutput.AppendsOnce key.macKey (accepted (v.run calls).2.output.sink.log)
        (w.run calls).2.output.sink.log ∧
      accepted (w.run calls).2.output.abandon.log <+:
        accepted (v.run calls).2.output.abandon.log := by
  intro sink key calls
  have hnew : ScriptedSink.Faultless {} ∧ ScriptedSink.Written {} [] :=
    ⟨ScriptedSink.faultless_new, ScriptedSink.written_new⟩
  obtain ⟨hplain, hencrypted⟩ := no_false_success (σ := ScriptedSink) (ρ := ScriptedSink)
  constructor
  · exact ((hplain ScriptedSink.takes.toTakes (sink 1) {} hnew calls).missing
      (by decide +kernel)).1
  · obtain ⟨v, hv, -, hruns⟩ :=
      hencrypted Deflater.compressor ScriptedSink.takes (sink 20) {} hnew key .zero [] {} rfl
    cases hw : EncryptedWriter.start Deflater.compressor (Logged.mk (sink 20) []) key .zero [] {}
    with
    | error e => exact nomatch (show true = false from congrArg Except.isOk hw)
    | ok w =>
      obtain ⟨htruthful, -, hgiven⟩ := hruns w hw calls
      exact ⟨v, w, hv, rfl, htruthful.fair, hgiven _ ScriptedSink.stops⟩

end ChatBackup
