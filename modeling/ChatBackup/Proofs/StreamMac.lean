import ChatBackup.Proofs.CallSeries
import ChatBackup.Proofs.Faults
import ChatBackup.Proofs.Mac

/-!
# What an authentication code says

The two ends of authentication on channels that do what they like: a source that brings too little
for a code, and a sink that refuses what it is offered.

> `mac_verification_decides`: a source that is too short for its body or for the code behind it is
> told to be so, and else the code decides. The verdict depends on the bytes alone.
> `mac_covers_accepted`: whatever a sink makes of the calls on it, the bytes that it has accepted
> are those that are counted and hashed, so they pass the check in front of their code.

A body that is too short for the number of bytes told is read to the end of its source; that is the
case that `Limited.Front` does not speak of, and `Limited.Whole` does.
-/

namespace ChatBackup

open Source

/-! ## Sources that are too short -/

namespace Limited

variable {σ : Type} [Source σ] {R : Promise σ}

/-- A front part that is longer than all that the source brings ends as the source does. -/
def Whole (R : Promise σ) : Promise (Limited σ) :=
  fun s b ending => b.length < s.left ∧ R s.inner b ending

theorem whole_delivers (hR : Delivers R) : Delivers (Whole R) := by
  rintro s b ending n ⟨hlt, hs⟩ hn
  have hleft : s.left ≠ 0 := Nat.ne_of_gt (Nat.zero_lt_of_lt hlt)
  show Delivery _ s b ending (if s.left = 0 then _ else _)
  rw [if_neg hleft]
  have hd := hR s.inner b ending (min n s.left) hs (by omega)
  generalize Source.read s.inner (min n s.left) = r at hd
  cases hd with
  | @bytes got more t hgot hb ht hturns =>
    subst hb
    refine .bytes hgot rfl ⟨?_, ht⟩ hturns
    show more.length < s.left - got.length
    rw [List.length_append] at hlt
    omega
  | interrupted ht hturns => exact .interrupted ⟨hlt, ht⟩ hturns
  | ended hb he ht =>
    subst hb
    exact .ended rfl he ⟨hlt, ht⟩
  | failed hb he => exact .failed hb he

end Limited

section Verifying

variable {σ : Type} [Source σ] {R : Promise σ} {s : σ} {b : Bytes}

/-- A body that is cut short is told with what there is of it. -/
theorem verifyMac_cut (hR : Delivers R) (hs : R s b none) {bodyLength : Nat}
    (hlt : b.length < bodyLength) (key : Bytes) (bufferLength : Nat) :
    ∃ s', verifyMac s key bodyLength bufferLength =
      (.error (.io (.bodyCut b.length bodyLength)), s') ∧ R s' [] none := by
  have hwhole : Limited.Whole R ⟨s, bodyLength⟩ b none := ⟨hlt, hs⟩
  obtain ⟨body, hhash, -, hbehind⟩ := hashToEnd_eq (Limited.whole_delivers hR)
    (show 0 < max bufferLength 1 by omega) (bodyLength + 1) (Hmac.start key) 0 (by omega) hwhole
  refine ⟨body.inner, ?_, hbehind⟩
  unfold verifyMac
  simp only [hhash, Nat.zero_add, ne_eq, Nat.ne_of_lt hlt, not_false_eq_true, if_true]

/-- A code that is cut short is never compared. -/
theorem verifyMac_untagged (hR : Delivers R) {body tag : Bytes} (hs : R s (body ++ tag) none)
    (hlt : tag.length < Sha256.digestLength) (key : Bytes) (bufferLength : Nat) :
    ∃ s', verifyMac s key body.length bufferLength = (.error (.io .bufferNotFilled), s') ∧
      R s' [] none := by
  have hfront : Limited.Front R tag none ⟨s, body.length⟩ body none := ⟨rfl, rfl, hs⟩
  obtain ⟨⟨t, left⟩, hhash, -, -, hbehind⟩ := hashToEnd_eq (Limited.delivers hR)
    (show 0 < max bufferLength 1 by omega) (body.length + 1) (Hmac.start key) 0
    (Nat.lt_succ_self _) hfront
  obtain ⟨s', hgather, hend⟩ := gatherExactly_short hR hbehind hlt
  refine ⟨s', ?_, hend⟩
  unfold verifyMac
  simp only [hhash, Nat.zero_add, ne_eq, not_true_eq_false, if_false, hgather]

/-- The body, the code behind it and what is left decide. -/
theorem verifyMac_split (hR : Delivers R) (hs : R s b none) {bodyLength : Nat}
    (hle : bodyLength + Sha256.digestLength ≤ b.length) (key : Bytes) (bufferLength : Nat) :
    ∃ s', R s' (b.drop (bodyLength + Sha256.digestLength)) none ∧
      verifyMac s key bodyLength bufferLength =
        (if Hmac.hash key (b.take bodyLength) = (b.drop bodyLength).take Sha256.digestLength
          then .ok () else .error (.crypto .macMismatch), s') := by
  have hbody : (b.take bodyLength).length = bodyLength := by
    rw [List.length_take]
    omega
  have htag : ((b.drop bodyLength).take Sha256.digestLength).length = Sha256.digestLength := by
    rw [List.length_take, List.length_drop]
    omega
  have hparts : b.take bodyLength ++ ((b.drop bodyLength).take Sha256.digestLength ++
      b.drop (bodyLength + Sha256.digestLength)) = b := by
    rw [← List.drop_drop, List.take_append_drop, List.take_append_drop]
  rw [← hparts] at hs
  have hverify := verifyMac_eq hR htag hs key bufferLength
  rw [hbody] at hverify
  exact hverify

/-- What a check comes to, told by the bytes that the source brings. -/
def macVerdict (key : Bytes) (bodyLength : Nat) (b : Bytes) : Except BackupError Unit :=
  if b.length < bodyLength then .error (.io (.bodyCut b.length bodyLength))
  else if b.length < bodyLength + Sha256.digestLength then .error (.io .bufferNotFilled)
  else if Hmac.hash key (b.take bodyLength) = (b.drop bodyLength).take Sha256.digestLength
    then .ok ()
  else .error (.crypto .macMismatch)

/-- No more than the body and the code behind it is taken, and the bytes alone decide. -/
theorem verifyMac_verdict (hR : Delivers R) (hs : R s b none) (key : Bytes)
    (bodyLength bufferLength : Nat) :
    ∃ s', R s' (b.drop (bodyLength + Sha256.digestLength)) none ∧
      verifyMac s key bodyLength bufferLength = (macVerdict key bodyLength b, s') := by
  have htag : Sha256.digestLength = 32 := rfl
  unfold macVerdict
  by_cases hbody : b.length < bodyLength
  · obtain ⟨s', hverify, hend⟩ := verifyMac_cut hR hs hbody key bufferLength
    rw [if_pos hbody, List.drop_of_length_le (by omega)]
    exact ⟨s', hend, hverify⟩
  · rw [if_neg hbody]
    by_cases hcode : b.length < bodyLength + Sha256.digestLength
    · have hlen : (b.take bodyLength).length = bodyLength := by
        rw [List.length_take]
        omega
      rw [← List.take_append_drop bodyLength b] at hs
      obtain ⟨s', hverify, hend⟩ := verifyMac_untagged hR hs
        (by rw [List.length_drop]; omega) key bufferLength
      rw [hlen] at hverify
      rw [if_pos hcode, List.drop_of_length_le (Nat.le_of_lt hcode)]
      exact ⟨s', hend, hverify⟩
    · rw [if_neg hcode]
      exact verifyMac_split hR hs (Nat.le_of_not_lt hcode) key bufferLength

end Verifying

/-- **What the check of a code comes to**, over any source of the bytes and with any buffer. A
source that is shorter than its body is told how much there was of it, and one that ends inside the
code is told so, neither with a verdict on the code. Otherwise the check succeeds if and only if the
code is that of the body, and is a mismatch if and only if it is not. It takes the body and the code
and nothing behind them. No other source of the bytes and no other buffer gives another verdict. -/
theorem mac_verification_decides {σ : Type} [Source σ] {source : σ} {s : Bytes}
    (hsource : Brings source s none) (key : Bytes) (bodyLength bufferLength : Nat) :
    let check := verifyMac source key bodyLength bufferLength
    let cut := Failure.bodyCut s.length bodyLength
    let tag := (s.drop bodyLength).take Sha256.digestLength
    (s.length < bodyLength → check.1 = .error (.io cut) ∧ cut.kind = .unexpectedEof ∧
      cut.message = "stream ended after " ++ toString s.length ++ " of " ++ toString bodyLength
        ++ " authenticated bytes") ∧
    (bodyLength ≤ s.length → s.length < bodyLength + Sha256.digestLength →
      check.1 = .error (.io .bufferNotFilled) ∧
      Failure.bufferNotFilled.kind = .unexpectedEof) ∧
    (bodyLength + Sha256.digestLength ≤ s.length →
      (check.1 = .ok () ↔ Hmac.hash key (s.take bodyLength) = tag) ∧
      (check.1 = .error (.crypto .macMismatch) ↔ Hmac.hash key (s.take bodyLength) ≠ tag)) ∧
    Brings check.2 (s.drop (bodyLength + Sha256.digestLength)) none ∧
    ∀ {τ : Type} [Source τ] (other : τ) (otherLength : Nat), Brings other s none →
      (verifyMac other key bodyLength otherLength).1 = check.1 := by
  intro check cut tag
  obtain ⟨source', hrest, hcheck⟩ :=
    verifyMac_verdict delivers_brings hsource key bodyLength bufferLength
  have hverdict : check.1 = macVerdict key bodyLength s := congrArg Prod.fst hcheck
  rw [hverdict]
  unfold macVerdict
  refine ⟨?_, ?_, ?_, ?_, ?_⟩
  · intro hbody
    rw [if_pos hbody]
    exact ⟨rfl, rfl, rfl⟩
  · intro hbody hcode
    rw [if_neg (Nat.not_lt.mpr hbody), if_pos hcode]
    exact ⟨rfl, rfl⟩
  · intro hle
    rw [if_neg (by omega), if_neg (Nat.not_lt.mpr hle)]
    by_cases htag : Hmac.hash key (s.take bodyLength) = tag
    · rw [if_pos htag]
      exact ⟨⟨fun _ => htag, fun _ => rfl⟩, ⟨nofun, fun h => absurd htag h⟩⟩
    · rw [if_neg htag]
      exact ⟨⟨nofun, fun h => absurd h htag⟩, ⟨fun _ => htag, fun _ => rfl⟩⟩
  · show Brings check.2 _ none
    rw [show check.2 = source' from congrArg Prod.snd hcheck]
    exact hrest
  · intro τ _ other otherLength hother
    obtain ⟨other', -, hcheck'⟩ :=
      verifyMac_verdict delivers_brings hother key bodyLength otherLength
    rw [hcheck']
    rfl

/-- Five bytes that arrive one by one, of eight told; and two with their code and a byte behind
it. -/
theorem mac_verification_decides_of_single_bytes :
    let short : ScriptedSource := { data := #[1, 2, 3, 4, 5], chunk := some 1, interrupts := true }
    let s : Bytes := [1, 2] ++ (Hmac.hash [7] [1, 2] ++ [9])
    let whole : ScriptedSource := { data := s.toArray, chunk := some 1, interrupts := true }
    (verifyMac short [7] 8 0).1 = .error (.io (.bodyCut 5 8)) ∧
    (verifyMac whole [7] 2 0).1 = .ok () ∧ Brings (verifyMac whole [7] 2 0).2 [9] none := by
  intro short s whole
  have hshort : ScriptedSource.Faultless [1, 2, 3, 4, 5] short :=
    ⟨rfl, Nat.zero_le _, by simp [short], rfl, rfl, rfl⟩
  have hwhole : ScriptedSource.Faultless s whole :=
    ⟨rfl, Nat.zero_le _, by simp [whole], rfl, rfl, rfl⟩
  have hcode : (Hmac.hash [7] [1, 2]).length = Sha256.digestLength := Hmac.length_hash _ _
  have hbehind : s.drop 2 = Hmac.hash [7] [1, 2] ++ [9] := rfl
  have htag : (s.drop 2).take Sha256.digestLength = Hmac.hash [7] [1, 2] := by
    rw [hbehind, List.take_left' hcode]
  have hrest : s.drop (2 + Sha256.digestLength) = [9] := by
    rw [← List.drop_drop, hbehind, List.drop_left' hcode]
  have hlen : 2 + Sha256.digestLength ≤ s.length := by
    rw [List.length_append, List.length_append, hcode]
    exact Nat.le_succ _
  obtain ⟨hcut, -⟩ := mac_verification_decides hshort.brings [7] 8 0
  obtain ⟨-, -, hdecides, htaken, -⟩ := mac_verification_decides hwhole.brings [7] 2 0
  refine ⟨(hcut (by decide)).1, (hdecides hlen).1.mpr htag.symm, ?_⟩
  rw [← hrest]
  exact htaken

/-! ## Sinks that refuse -/

namespace Authenticated

open Sink

variable {σ : Type} [Sink σ]

/-- The same stage without the log below it. -/
def unlogged (w : Authenticated (Logged σ)) : Authenticated σ :=
  { inner := w.inner.inner, mac := w.mac, written := w.written }

theorem through_unlogged : Through (unlogged (σ := σ)) where
  write w b := by
    have hinner : (unlogged w).inner = w.inner.inner := rfl
    rw [write_eq, write_eq, Logged.write_eq, hinner]
    generalize Sink.write w.inner.inner b = x
    obtain ⟨r, inner⟩ := x
    cases r <;> exact ⟨rfl, rfl⟩
  flush _ := ⟨rfl, rfl⟩
  patience _ := rfl

/-- A code is that of the bytes which were hashed. -/
theorem digest_of_finish {w : Authenticated σ} {digest : Bytes} {s : σ}
    (h : finish w = (.ok digest, s)) : digest = w.mac.digest := by
  unfold finish at h
  split at h
  · cases h
    rfl
  · cases h

/-- After any calls the bytes that a log tells as accepted are counted and hashed. -/
theorem run_covers (sink : σ) (key : Bytes) (calls : List SinkCall) :
    (run (start sink key) calls).2.written =
        (accepted (run (⟨sink, []⟩ : Logged σ) calls).2.log).length ∧
      (run (start sink key) calls).2.mac =
        (Hmac.start key).update (accepted (run (⟨sink, []⟩ : Logged σ) calls).2.log) := by
  have hstart : Over Logged.Accepted key (start (⟨sink, []⟩ : Logged σ) key) [] :=
    over_start (Logged.accepted_new sink)
  obtain ⟨c, ⟨hlog, -⟩, hmac, hwritten⟩ := (enters Logged.enters).run hstart calls
  -- the log is that of the same calls without the stage in between
  have hbelow := (through (σ := Logged σ)).run (start (⟨sink, []⟩ : Logged σ) key) calls
  have hunlogged := through_unlogged.run (start (⟨sink, []⟩ : Logged σ) key) calls
  change _ ∧ _ = (run (⟨sink, []⟩ : Logged σ) calls).2 at hbelow
  change _ ∧ _ = (run (start sink key) calls).2 at hunlogged
  rw [List.nil_append] at hlog hmac hwritten
  rw [← hunlogged.2, ← hbelow.2, hlog]
  exact ⟨hwritten, hmac⟩

end Authenticated

/-- **What a code covers**: whatever a sink makes of calls, in whatever order they succeed, are
interrupted or fail, they come to what they come to without the stage that hashes. After them the
bytes that the sink has accepted are those that are counted, and a code that is told then is theirs.
So with the code behind them, and whatever follows, they pass the check of as many bytes as were
counted. -/
theorem mac_covers_accepted {σ : Type} [Sink σ] (sink : σ) (key : Bytes) (calls : List SinkCall) :
    let hashed := Sink.run (Authenticated.start sink key) calls
    let plain := Sink.run (⟨sink, []⟩ : Logged σ) calls
    let c := accepted plain.2.log
    hashed.1 = plain.1 ∧ hashed.2.inner = plain.2.inner ∧ hashed.2.written = c.length ∧
    ∀ (digest : Bytes) (sink' : σ), hashed.2.finish = (.ok digest, sink') →
      digest = Hmac.hash key c ∧
      ∀ {τ : Type} [Source τ] (source : τ) (rest : Bytes) (ending : Option Failure)
        (bufferLength : Nat), Brings source (c ++ (digest ++ rest)) ending →
        (verifyMac source key hashed.2.written bufferLength).1 = .ok () := by
  intro hashed plain c
  obtain ⟨hwritten, hmac⟩ := Authenticated.run_covers sink key calls
  have hstage := Authenticated.through.run (Authenticated.start sink key) calls
  have hlogged := Logged.through.run (⟨sink, []⟩ : Logged σ) calls
  refine ⟨hstage.1.trans hlogged.1.symm, hstage.2.trans hlogged.2.symm, hwritten, ?_⟩
  intro digest sink' hfinish
  have hdigest : digest = Hmac.hash key c := by
    rw [Authenticated.digest_of_finish hfinish]
    exact congrArg Hmac.digest hmac
  refine ⟨hdigest, ?_⟩
  intro τ _ source rest ending bufferLength hsource
  have htag : digest.length = Sha256.digestLength := by
    rw [hdigest]
    exact Hmac.length_hash key c
  obtain ⟨source', -, hverify⟩ := verifyMac_eq delivers_brings htag hsource key bufferLength
  rw [show hashed.2.written = c.length from hwritten, hverify]
  exact if_pos hdigest.symm

/-- A sink that takes three bytes at a time and fails behind the fifth one: a write that is
interrupted, one that is cut, a string that fails on its way, and a code for the five bytes. -/
theorem mac_covers_accepted_of_failing_sink :
    let sink : ScriptedSink :=
      { maxWrite := some 3, interrupts := true, failAt := some (5, .device .other "full") }
    let calls : List SinkCall :=
      [.write [1, 2, 3, 4], .write [1, 2, 3, 4], .writeAll [5, 6, 7, 8], .flush, .write [9]]
    let hashed := Sink.run (Authenticated.start sink [7]) calls
    hashed.2.written = 5 ∧ ∃ (digest : Bytes) (sink' : ScriptedSink),
      hashed.2.finish = (.ok digest, sink') ∧ digest = Hmac.hash [7] [1, 2, 3, 5, 6] ∧
      (verifyMac (⟨[1, 2, 3, 5, 6] ++ (digest ++ [0])⟩ : ByteSource) [7] 5 2).1 = .ok () := by
  intro sink calls hashed
  have haccepted : accepted (Sink.run (⟨sink, []⟩ : Logged ScriptedSink) calls).2.log =
      [1, 2, 3, 5, 6] := by decide
  obtain ⟨-, hinner, hwritten, hcovers⟩ := mac_covers_accepted sink [7] calls
  rw [haccepted] at hwritten hcovers
  obtain ⟨digest, sink', hfinish⟩ : ∃ digest sink', hashed.2.finish = (.ok digest, sink') := by
    have hscript : (Sink.run (⟨sink, []⟩ : Logged ScriptedSink) calls).2.inner.failFlush = none := by
      decide
    rw [← hinner] at hscript
    have hflush : Sink.flush hashed.2.inner =
        (.ok (), { hashed.2.inner with flushes := hashed.2.inner.flushes + 1 }) := by
      show ScriptedSink.flushOnce hashed.2.inner = _
      simp only [ScriptedSink.flushOnce, hashed, hscript]
    unfold Authenticated.finish
    rw [hflush]
    exact ⟨_, _, rfl⟩
  obtain ⟨hdigest, hpass⟩ := hcovers digest sink' hfinish
  refine ⟨hwritten, digest, sink', hfinish, hdigest, ?_⟩
  have hverify := hpass (⟨[1, 2, 3, 5, 6] ++ (digest ++ [0])⟩ : ByteSource) [0] none 2
    (ByteSource.brings _)
  rw [hwritten] at hverify
  exact hverify

end ChatBackup
