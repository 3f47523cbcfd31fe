import ChatBackup.Crypto.Mac
import ChatBackup.Proofs.Acceptance
import ChatBackup.Proofs.Delivery

/-!
# Authentication codes on channels

The two ends of authentication: a sink on whose way bytes are hashed, and the check of a source.

> `Authenticated.finish_ok`: the digest is that of exactly the bytes which the next sink has taken.
> `verifyMac_eq`: a source passes the check if and only if the bytes behind the body are the digest
> of the body, however it delivers them and with whatever buffer they are read.
-/

namespace ChatBackup

/-! ## Hashing on the way -/

namespace Authenticated

open Sink

variable {σ : Type} [Sink σ] {T : Ledger σ} {key : Bytes}

/-- What the next sink has taken is hashed and counted. -/
def Over (T : Ledger σ) (key : Bytes) : Ledger (Authenticated σ) := fun w c =>
  T w.inner c ∧ w.mac = (Hmac.start key).update c ∧ w.written = c.length

omit [Sink σ] in
theorem over_start {inner : σ} (h : T inner []) : Over T key (start inner key) [] :=
  ⟨h, rfl, rfl⟩

theorem write_eq (w : Authenticated σ) (b : Bytes) :
    write w b =
      match write w.inner b with
      | (.done n, inner) =>
        (.done n, { inner, mac := w.mac.update (b.take n), written := w.written + n })
      | (.interrupted, inner) => (.interrupted, { w with inner })
      | (.failed e, inner) => (.failed e, { w with inner }) := rfl

theorem flush_eq (w : Authenticated σ) :
    Sink.flush w = ((Sink.flush w.inner).1, { w with inner := (Sink.flush w.inner).2 }) := rfl

theorem records (hT : Records T) : Records (Over T key) where
  done {w w' c b n} hw h := by
    obtain ⟨hinner, hmac, hwritten⟩ := hw
    have hle := write_le w.inner b
    rw [write_eq] at h
    split at h
    next k inner hwrite =>
      cases h
      refine ⟨hT.done hinner hwrite, ?_, ?_⟩
      · rw [hmac, Hmac.update_append]
      · show w.written + n = _
        rw [hwritten, List.length_append, List.length_take,
          Nat.min_eq_left (hle n (by rw [hwrite]))]
    next => cases h
    next => cases h
  interrupted {w w' c b} hw h := by
    rw [write_eq] at h
    split at h
    next => cases h
    next inner hwrite =>
      cases h
      exact ⟨hT.interrupted hw.1 hwrite, hw.2⟩
    next => cases h
  flush {w w' c} hw h := by
    rw [flush_eq] at h
    cases hf : Sink.flush w.inner with
    | mk r inner =>
      rw [hf] at h
      cases h
      exact ⟨hT.flush hw.1 hf, hw.2⟩

theorem enters (hT : Enters T) : Enters (Over T key) where
  write {w c} b hw := by
    obtain ⟨hinner, hmac, hwritten⟩ := hw
    have henter := hT.write b hinner
    have hle := write_le w.inner b
    rw [write_eq]
    cases hwrite : write w.inner b with
    | mk r inner =>
      rw [hwrite] at henter hle
      cases r with
      | done n =>
        refine ⟨henter, ?_, ?_⟩
        · show w.mac.update (b.take n) = _
          rw [hmac, ← Hmac.update_append]
          rfl
        · show w.written + n = _
          rw [hwritten, List.length_append]
          show _ = c.length + (b.take n).length
          rw [List.length_take, Nat.min_eq_left (hle n rfl)]
      | interrupted =>
        rw [taken_interrupted, List.append_nil] at henter ⊢
        exact ⟨henter, hmac, hwritten⟩
      | failed e =>
        have hnone : taken b (.failed e) = [] := rfl
        rw [hnone, List.append_nil] at henter ⊢
        exact ⟨henter, hmac, hwritten⟩
  flush {w c} hw := ⟨hT.flush hw.1, hw.2⟩

/-- A write on the way goes through if it does below. -/
theorem writePast_done {b : Bytes} {n : Nat} {inner : σ} :
    ∀ (k : Nat) {w : Authenticated σ}, writePast k w.inner b = (.done n, inner) →
      ∃ w', writePast k w b = (.done n, w') := by
  intro k
  induction k with
  | zero =>
    intro w h
    change write w.inner b = _ at h
    exact ⟨_, by rw [writePast, write_eq, h]⟩
  | succ k ih =>
    intro w h
    cases hw : write w.inner b with
    | mk r t =>
      cases r with
      | interrupted =>
        have hw' : write w b = (.interrupted, { w with inner := t }) := by rw [write_eq, hw]
        rw [writePast_interrupted hw] at h
        rw [writePast_interrupted hw']
        exact ih (w := { w with inner := t }) h
      | done m =>
        rw [writePast_of_not_interrupted (by rw [hw]; simp), hw] at h
        cases h
        have hw' : (write w b).1 ≠ .interrupted := by rw [write_eq, hw]; simp
        exact ⟨_, by rw [writePast_of_not_interrupted hw', write_eq, hw]⟩
      | failed e =>
        rw [writePast_of_not_interrupted (by rw [hw]; simp), hw] at h
        cases h

theorem takes (hT : Takes T) : Takes (Over T key) where
  toRecords := records hT.toRecords
  takes {w c b} hw hb := by
    obtain ⟨n, inner, h⟩ := hT.takes hw.1 hb
    obtain ⟨w', h'⟩ := writePast_done (w := w) _ h
    exact ⟨n, w', h'⟩
  flushes {w c} hw := by
    obtain ⟨inner, hf⟩ := hT.flushes hw.1
    exact ⟨{ w with inner }, by rw [flush_eq, hf]⟩

/-- The digest is that of the bytes which were taken. -/
theorem finish_ok (hT : Records T) {w : Authenticated σ} {c digest : Bytes} {s : σ}
    (hw : Over T key w c) (h : finish w = (.ok digest, s)) :
    digest = Hmac.hash key c ∧ T s c := by
  unfold finish at h
  split at h
  next inner hf =>
    cases h
    refine ⟨?_, hT.flush hw.1 hf⟩
    rw [hw.2.1, Hmac.hash]
  next => cases h

theorem finish_succeeds (hT : Takes T) {w : Authenticated σ} {c : Bytes} (hw : Over T key w c) :
    ∃ digest s, finish w = (.ok digest, s) := by
  obtain ⟨inner, hf⟩ := hT.flushes hw.1
  refine ⟨w.mac.digest, inner, ?_⟩
  rw [finish, hf]

end Authenticated

/-! ## Verifying -/

section Verifying

open Source

variable {σ : Type} [Source σ] {R : Promise σ} {s : σ} {b : Bytes} {ending : Option Failure}

/-- Hashing takes in all that a source brings and counts it. -/
theorem hashToEnd_eq (hR : Delivers R) {bufferLength : Nat} (hpos : 0 < bufferLength) :
    ∀ (fuel : Nat) {s : σ} {b : Bytes} (m : Hmac) (seen : Nat), b.length < fuel → R s b none →
      ∃ s', hashToEnd bufferLength fuel m seen s = (.ok (m.update b, seen + b.length), s') ∧
        R s' [] none := by
  intro fuel
  induction fuel with
  | zero => intro s b m seen hfuel _; exact absurd hfuel (Nat.not_lt_zero _)
  | succ fuel ih =>
    intro s b m seen hfuel hs
    have hg := gather_gathers hR hs bufferLength
    have hfail : (gather s bufferLength).failure = none := by rw [hg.failure, ite_self]
    have hafter := hg.after hfail
    have hgot := hg.got
    unfold hashToEnd
    generalize gather s bufferLength = g at hfail hafter hgot
    obtain ⟨got, failure, t⟩ := g
    simp only at hfail hafter hgot
    subst hfail
    cases hb : b with
    | nil =>
      rw [hb, List.take_nil] at hgot
      rw [hb, List.drop_nil] at hafter
      subst hgot
      exact ⟨t, rfl, hafter⟩
    | cons x rest =>
      have hne : got ≠ [] := by
        intro hnil
        have := congrArg List.length hgot
        rw [hnil, List.length_take, hb, List.length_cons, List.length_nil] at this
        omega
      have hlen : (b.drop bufferLength).length < fuel := by
        have : 0 < b.length := by rw [hb]; exact Nat.succ_pos _
        rw [List.length_drop]
        omega
      obtain ⟨s', hrest, hs'⟩ := ih (m.update got) (seen + got.length) hlen hafter
      refine ⟨s', ?_, hs'⟩
      have hall : got ++ b.drop bufferLength = b := by rw [hgot, List.take_append_drop]
      have hcount := congrArg List.length hall
      rw [List.length_append] at hcount
      rw [← Hmac.update_append, hall, Nat.add_assoc, hcount] at hrest
      rw [← hb, ← hrest]
      obtain ⟨y, ys, rfl⟩ := List.exists_cons_of_ne_nil hne
      rfl

/-- The check compares the digest of the body with the bytes behind it and takes no more. -/
theorem verifyMac_eq (hR : Delivers R) {body tag rest : Bytes}
    (htag : tag.length = Sha256.digestLength) (hs : R s (body ++ (tag ++ rest)) ending)
    (key : Bytes) (bufferLength : Nat) :
    ∃ s', R s' rest ending ∧ verifyMac s key body.length bufferLength =
      (if Hmac.hash key body = tag then .ok () else .error (.crypto .macMismatch), s') := by
  have hfront : Limited.Front R (tag ++ rest) ending ⟨s, body.length⟩ body none := ⟨rfl, rfl, hs⟩
  obtain ⟨⟨t, left⟩, hhash, -, -, ht⟩ := hashToEnd_eq (Limited.delivers hR)
    (show 0 < max bufferLength 1 by omega) (body.length + 1) (Hmac.start key) 0
    (Nat.lt_succ_self _) hfront
  have hbehind : R t (tag ++ rest) ending := ht
  obtain ⟨s', hgather, hs'⟩ := gatherExactly_append hR hbehind
  rw [htag] at hgather
  refine ⟨s', hs', ?_⟩
  unfold verifyMac
  simp only [hhash, Nat.zero_add, ne_eq, not_true_eq_false, if_false, hgather]
  split
  next h => rw [if_pos (show Hmac.hash key body = tag from h)]
  next h => rw [if_neg (show ¬ Hmac.hash key body = tag from h)]

end Verifying
end ChatBackup
