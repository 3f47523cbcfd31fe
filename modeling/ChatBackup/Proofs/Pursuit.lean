import ChatBackup.Proofs.Compression
import ChatBackup.Proofs.Cbc
import ChatBackup.Proofs.Mac

/-!
# Two sinks side by side

The same bytes are written to two sinks, of which the second takes everything. The two go abreast
as long as the first one takes everything too; once it fails it stays behind, whatever is written
to the second. The stages of a writer keep this up:

> `Pursues.writeAll`: if single writes keep two sinks abreast or leave the first one behind, so does
> writing whole strings.
> `CbcWriter.pursues`, `Counted.pursues`, `GzipWriter.pursues`: a stage over sinks abreast goes
> abreast itself.
> `GzipWriter.finish_pace`, `CbcWriter.finish_pace`: so does its end.

`Pace` says what comes of an operation on both. To stay behind is a property of the second sink
alone, so it is enough that it is kept by every write (`KeptByWrites`).
-/

namespace ChatBackup

namespace Sink

/-! ## What writes keep -/

section Kept

variable {σ : Type} [Sink σ] {I : σ → Prop}

/-- A property of states that no write ends. -/
def KeptByWrites (I : σ → Prop) : Prop := ∀ (s : σ) (b : Bytes), I s → I (write s b).2

theorem KeptByWrites.writePast (h : KeptByWrites I) {b : Bytes} :
    ∀ (k : Nat) {s : σ}, I (write s b).2 → I (writePast k s b).2 := by
  intro k
  induction k with
  | zero => intro s hs; exact hs
  | succ k ih =>
    intro s hs
    unfold Sink.writePast
    split
    next t ht =>
      rw [ht] at hs
      exact ih (h t b hs)
    next => exact hs

theorem KeptByWrites.writeRounds_of_past {fuel : Nat} {s : σ} {b : Bytes} (hb : b ≠ [])
    (hpast : I (Sink.writePast (patience s) s b).2)
    (hrounds : ∀ {t : σ} (rest : Bytes), I t → I (Sink.writeRounds fuel t rest).2) :
    I (Sink.writeRounds (fuel + 1) s b).2 := by
  unfold Sink.writeRounds
  rw [if_neg (by simpa using hb)]
  split
  next t heq => rw [heq] at hpast; exact hpast
  next n t _ heq => rw [heq] at hpast; exact hrounds _ hpast
  next t heq => rw [heq] at hpast; exact hpast
  next e t heq => rw [heq] at hpast; exact hpast

theorem KeptByWrites.writeRounds (h : KeptByWrites I) :
    ∀ (fuel : Nat) {s : σ} (b : Bytes), I s → I (writeRounds fuel s b).2 := by
  intro fuel
  induction fuel with
  | zero => intro s b hs; exact hs
  | succ fuel ih =>
    intro s b hs
    by_cases hb : b = []
    · subst hb
      exact hs
    · exact writeRounds_of_past hb (h.writePast (patience s) (h s b hs)) ih

theorem KeptByWrites.writeAll (h : KeptByWrites I) {s : σ} (b : Bytes) (hs : I s) :
    I (writeAll s b).2 := h.writeRounds b.length b hs

/-- It is enough that the first write has brought the property about. -/
theorem KeptByWrites.writeRounds_of_write (h : KeptByWrites I) (fuel : Nat) {s : σ} {b : Bytes}
    (hb : b ≠ []) (hs : I (write s b).2) : I (Sink.writeRounds (fuel + 1) s b).2 :=
  writeRounds_of_past hb (h.writePast (patience s) hs) (h.writeRounds fuel)

theorem KeptByWrites.fillZeroRounds (h : KeptByWrites I) :
    ∀ (fuel : Nat) {s : σ} {count : Nat}, I s → I (fillZeroRounds fuel s count).2 := by
  intro fuel
  induction fuel with
  | zero => intro s count hs; exact hs
  | succ fuel ih =>
    intro s count hs
    have hchunk := h.writeAll (List.replicate (min count zeroChunk) 0) hs
    unfold Sink.fillZeroRounds
    split
    · exact hs
    · split
      next t heq =>
        rw [heq] at hchunk
        exact ih hchunk
      next e t heq =>
        rw [heq] at hchunk
        exact hchunk

theorem KeptByWrites.fillZeros (h : KeptByWrites I) {s : σ} (count : Nat) (hs : I s) :
    I (fillZeros s count).2 := h.fillZeroRounds count hs

end Kept

/-! ## Abreast or behind -/

/-- What comes of an operation on two sinks: both are through with the same answer and abreast, or
the first one has failed and is behind. -/
inductive Pace {ρ ν ε α β : Type} (ok : ν → ρ) (bad : ε → ρ) (Q D : α → β → Prop) :
    ρ × α → ρ × β → Prop where
  | keep {a : α} {b : β} (r : ν) : Q a b → Pace ok bad Q D (ok r, a) (ok r, b)
  | lose {a : α} {b : β} {x : ρ} (e : ε) : D a b → Pace ok bad Q D (bad e, a) (x, b)

/-- Single writes keep two sinks abreast or leave the first one behind, and behind it stays. A
write that the second one takes does not come to nothing. -/
structure Pursues {α β : Type} [Sink α] [Sink β] (Q D : α → β → Prop) : Prop where
  write : ∀ {a : α} {b : β} (x : Bytes), Q a b →
    Pace Outcome.done Outcome.failed Q D (write a x) (write b x)
  pos : ∀ {a : α} {b b' : β} {x : Bytes} {n : Nat}, Q a b → x ≠ [] →
    Sink.write b x = (.done n, b') → 0 < n
  keeps : ∀ a : α, KeptByWrites (D a)

variable {α β : Type} [Sink α] [Sink β] {Q D : α → β → Prop}

theorem Pursues.writeRounds (h : Pursues Q D) :
    ∀ (fuel : Nat) {a : α} {b : β} (x : Bytes), Q a b →
      Pace Except.ok Except.error Q D (writeRounds fuel a x) (writeRounds fuel b x) := by
  intro fuel
  induction fuel with
  | zero => intro a b x hab; exact .keep () hab
  | succ fuel ih =>
    intro a b x hab
    by_cases hx : x = []
    · subst hx
      exact .keep () hab
    · have hpace := h.write x hab
      cases ha : Sink.write a x with
      | mk r a' =>
        cases hb : Sink.write b x with
        | mk q b' =>
          rw [ha, hb] at hpace
          cases hpace with
          | keep n hnext =>
            obtain ⟨n, rfl⟩ := Nat.exists_eq_succ_of_ne_zero (Nat.ne_of_gt (h.pos hab hx hb))
            have hround := ih (x.drop (n + 1)) hnext
            unfold Sink.writeRounds
            rw [if_neg (by simpa using hx), if_neg (by simpa using hx),
              writePast_of_not_interrupted (by rw [ha]; simp),
              writePast_of_not_interrupted (by rw [hb]; simp), ha, hb]
            exact hround
          | lose e hd =>
            -- the first one ends here; the second one goes on, which `keeps` allows for
            have hlost : Sink.writeRounds (fuel + 1) a x = (.error e, a') := by
              unfold Sink.writeRounds
              rw [if_neg (by simpa using hx),
                writePast_of_not_interrupted (by rw [ha]; simp), ha]
            rw [hlost]
            refine .lose e ((h.keeps a').writeRounds_of_write fuel hx ?_)
            rw [hb]
            exact hd

/-- Whole strings keep two sinks abreast or leave the first one behind. -/
theorem Pursues.writeAll (h : Pursues Q D) {a : α} {b : β} (x : Bytes) (hab : Q a b) :
    Pace Except.ok Except.error Q D (writeAll a x) (writeAll b x) :=
  h.writeRounds x.length x hab

theorem Pursues.fillZeroRounds (h : Pursues Q D) :
    ∀ (fuel : Nat) {a : α} {b : β} (count : Nat), Q a b →
      Pace Except.ok Except.error Q D (fillZeroRounds fuel a count)
        (fillZeroRounds fuel b count) := by
  intro fuel
  induction fuel with
  | zero => intro a b count hab; exact .keep () hab
  | succ fuel ih =>
    intro a b count hab
    have hpace := h.writeAll (List.replicate (min count zeroChunk) 0) hab
    unfold Sink.fillZeroRounds
    by_cases hcount : count = 0
    · rw [if_pos hcount, if_pos hcount]
      exact .keep () hab
    · rw [if_neg hcount, if_neg hcount]
      generalize Sink.writeAll a (List.replicate (min count zeroChunk) 0) = ra at hpace
      generalize Sink.writeAll b (List.replicate (min count zeroChunk) 0) = rb at hpace
      cases hpace with
      | keep _ hnext => exact ih _ hnext
      | @lose a' b' x e hd =>
        cases x with
        | ok _ => exact .lose e ((h.keeps a').fillZeroRounds fuel hd)
        | error _ => exact .lose e hd

theorem Pursues.fillZeros (h : Pursues Q D) {a : α} {b : β} (count : Nat) (hab : Q a b) :
    Pace Except.ok Except.error Q D (fillZeros a count) (fillZeros b count) :=
  h.fillZeroRounds count count hab

/-! ## Sinks that take what they can -/

/-- Whole strings and flushes keep two sinks abreast or leave the first one behind. -/
structure PursuesAll (Q D : α → β → Prop) : Prop where
  writeAll : ∀ {a : α} {b : β} (x : Bytes), Q a b →
    Pace Except.ok Except.error Q D (writeAll a x) (writeAll b x)
  keeps : ∀ {a : α} {b : β} (x : Bytes), D a b → D a (Sink.writeAll b x).2

variable {A : Ledger α} {B : Ledger β} {Z : α → Prop}

/-- Both sinks have taken the same. -/
def Level (A : Ledger α) (B : Ledger β) (a : α) (b : β) : Prop := ∃ c, A a c ∧ B b c

/-- The first sink has taken a front part of what the second one has, and is as sinks are after a
failure. -/
def Short (A : Ledger α) (B : Ledger β) (Z : α → Prop) (a : α) (b : β) : Prop :=
  ∃ c d, A a c ∧ B b d ∧ c <+: d ∧ Z a

theorem pursuesAll (hA : Enters A) (hB : Takes B)
    (hZ : ∀ {a a' : α} {x : Bytes} {e : Failure}, Sink.writeAll a x = (.error e, a') → Z a') :
    PursuesAll (Level A B) (Short A B Z) where
  writeAll {a b} x hab := by
    obtain ⟨c, ha, hb⟩ := hab
    obtain ⟨b', hwb, hb'⟩ := hB.writeAll x hb
    obtain ⟨front, hfront, ha'⟩ := hA.writeAll x ha
    rw [hwb]
    cases hwa : Sink.writeAll a x with
    | mk r a' =>
      rw [hwa] at ha'
      cases r with
      | ok _ => exact .keep () ⟨_, hA.records.writeAll ha hwa, hb'⟩
      | error e =>
        exact .lose e ⟨_, _, ha', hb', (List.prefix_append_right_inj c).mpr hfront, hZ hwa⟩
  keeps {a b} x hd := by
    obtain ⟨c, d, ha, hb, hle, hz⟩ := hd
    obtain ⟨b', hwb, hb'⟩ := hB.writeAll x hb
    rw [hwb]
    exact ⟨c, _, ha, hb', hle.trans (List.prefix_append d x), hz⟩

theorem flush_pace (hA : Enters A) (hB : Takes B) {a : α} {b : β} (hab : Level A B a b) :
    Pace Except.ok Except.error (Level A B) (Short A B fun _ => True) (flush a) (flush b) := by
  obtain ⟨c, ha, hb⟩ := hab
  obtain ⟨b', hfb⟩ := hB.flushes hb
  have ha' := hA.flush ha
  have hb' := hB.flush hb hfb
  rw [hfb]
  cases hfa : flush a with
  | mk r a' =>
    rw [hfa] at ha'
    cases r with
    | ok _ => exact .keep () ⟨c, ha', hb'⟩
    | error e => exact .lose e ⟨c, c, ha', hb', List.prefix_refl c, trivial⟩

omit [Sink α] in
theorem Short.flush (hB : Takes B) {a : α} {b : β} (h : Short A B Z a b) :
    Short A B Z a (flush b).2 := by
  obtain ⟨c, d, ha, hb, hle, hz⟩ := h
  obtain ⟨b', hfb⟩ := hB.flushes hb
  rw [hfb]
  exact ⟨c, d, ha, hB.flush hb hfb, hle, hz⟩

end Sink

open Sink

/-! ## Encrypting -/

namespace CbcWriter

variable {σ τ : Type} [Sink σ] [Sink τ] {Q D : σ → τ → Prop}

/-- Stages that go on alike over sinks abreast. -/
structure Abreast (Q : σ → τ → Prop) (w : CbcWriter σ) (v : CbcWriter τ) : Prop where
  cipher : w.cipher = v.cipher
  previous : w.previous = v.previous
  pending : w.pending = v.pending
  room : v.pending.length < blockLength
  inner : Q w.inner v.inner

theorem kept {I : σ → Prop} (h : ∀ (s : σ) (b : Bytes), I s → I (writeAll s b).2) :
    KeptByWrites fun w : CbcWriter σ => I w.inner := by
  intro w b hw
  obtain ⟨cs, rest, hcut, hrest⟩ := Block.exists_blocks (w.pending ++ b)
  have hall := h w.inner (Block.join (Cbc.encryptChain w.cipher w.previous cs)) hw
  rw [write_eq, push_eq w hcut hrest]
  generalize writeAll w.inner _ = r at hall
  obtain ⟨r, inner⟩ := r
  cases r <;> exact hall

theorem finish_kept {I : σ → Prop} (h : KeptByWrites I) (hflush : ∀ {s : σ}, I s → I (flush s).2)
    {w : CbcWriter σ} (hw : I w.inner) : I w.finish.2 := by
  unfold finish
  split
  · exact hw
  · split
    · exact hw
    · have hall := h.writeAll
        (Block.join (Cbc.encryptChain w.cipher w.previous (Block.ofBytes (Cbc.pad w.pending)))) hw
      simp only
      split
      next heq => rw [heq] at hall; exact hflush hall
      next heq => rw [heq] at hall; exact hall

theorem pursues (h : PursuesAll Q D) :
    Pursues (Abreast Q) (fun (w : CbcWriter σ) (v : CbcWriter τ) => D w.inner v.inner) where
  write {w v} x hw := by
    obtain ⟨cs, rest, hcut, hrest⟩ := Block.exists_blocks (v.pending ++ x)
    have hcut' : w.pending ++ x = Block.join cs ++ rest := by rw [hw.pending, hcut]
    have hpace := h.writeAll (Block.join (Cbc.encryptChain v.cipher v.previous cs)) hw.inner
    rw [write_eq, write_eq, push_eq w hcut' hrest, push_eq v hcut hrest, hw.cipher, hw.previous]
    generalize writeAll w.inner (Block.join (Cbc.encryptChain v.cipher v.previous cs)) = rw at hpace
    generalize writeAll v.inner (Block.join (Cbc.encryptChain v.cipher v.previous cs)) = rv at hpace
    cases hpace with
    | keep _ hq => exact .keep x.length ⟨rfl, rfl, rfl, hrest, hq⟩
    | @lose a b y e hd => cases y <;> exact .lose e hd
  pos {w v v' x n} _ hx h := by
    rw [write_eq] at h
    split at h <;> cases h
    exact List.length_pos_iff.mpr hx
  keeps w := kept fun _ x hd => h.keeps x hd

/-- The end of two stages abreast. -/
theorem finish_pace (h : PursuesAll Q D)
    (hflush : ∀ {a : σ} {b : τ}, Q a b → Pace Except.ok Except.error Q D (flush a) (flush b))
    (hkeeps : ∀ {a : σ} {b : τ}, D a b → D a (flush b).2) {w : CbcWriter σ} {v : CbcWriter τ}
    (hw : Abreast Q w v) : Pace Except.ok Except.error Q D (finish w) (finish v) := by
  have hroom : w.pending.length < blockLength := by
    rw [hw.pending]
    exact hw.room
  have hpace := h.writeAll (Block.join
    (Cbc.encryptChain v.cipher v.previous (Block.ofBytes (Cbc.pad v.pending)))) hw.inner
  rw [finish_eq hroom, finish_eq hw.room, hw.cipher, hw.previous, hw.pending]
  generalize writeAll w.inner _ = rw at hpace
  generalize writeAll v.inner _ = rv at hpace
  cases hpace with
  | keep _ hq => exact hflush hq
  | @lose a b y e hd =>
    cases y with
    | ok _ => exact .lose e (hkeeps hd)
    | error _ => exact .lose e hd

end CbcWriter

/-! ## Counting -/

namespace Counted

variable {σ τ : Type} [Sink σ] [Sink τ] {Q D : σ → τ → Prop}

/-- The same count over sinks abreast. -/
def Abreast (Q : σ → τ → Prop) (s : Counted σ) (t : Counted τ) : Prop :=
  s.count = t.count ∧ Q s.inner t.inner

theorem kept {I : σ → Prop} (h : KeptByWrites I) :
    KeptByWrites fun s : Counted σ => I s.inner := by
  intro s b hs
  have hw := h s.inner b hs
  rw [write_eq]
  split
  next heq => rw [heq] at hw; exact hw
  next heq => rw [heq] at hw; exact hw
  next heq => rw [heq] at hw; exact hw

theorem pursues (h : Pursues Q D) :
    Pursues (Abreast Q) (fun (s : Counted σ) (t : Counted τ) => D s.inner t.inner) where
  write {s t} x hs := by
    have hpace := h.write x hs.2
    rw [write_eq, write_eq, hs.1]
    generalize write s.inner x = rs at hpace
    generalize write t.inner x = rt at hpace
    cases hpace with
    | keep n hq => exact .keep n ⟨rfl, hq⟩
    | @lose a b y e hd => cases y <;> exact .lose e hd
  pos {s t t' x n} hs hx hw := by
    rw [write_eq] at hw
    split at hw
    next heq => cases hw; exact h.pos hs.2 hx heq
    next => cases hw
    next => cases hw
  keeps s := kept (h.keeps s.inner)

end Counted

/-! ## Compressing -/

namespace GzipWriter

variable {C : Coder} {σ τ : Type} [Sink σ] [Sink τ]

section Kept

variable {I : σ → Prop}

theorem send_kept (h : KeptByWrites I) :
    ∀ (fuel : Nat) {s : σ} (b : Bytes), I s → I (send fuel s b).2.1 := by
  intro fuel
  induction fuel with
  | zero => intro s b hs; exact hs
  | succ fuel ih =>
    intro s b hs
    have hw := h s b hs
    unfold send
    split
    · exact hs
    · split
      next heq => rw [heq] at hw; exact hw
      next heq => rw [heq] at hw; exact ih _ hw
      next heq => rw [heq] at hw; exact hw
      next heq => rw [heq] at hw; exact hw

theorem sendHeader_kept (h : KeptByWrites I) {w : GzipWriter C σ} (hw : I w.inner.inner) :
    I w.sendHeader.2.inner.inner := send_kept (Counted.kept h) _ w.header hw

theorem sendQueue_kept (h : KeptByWrites I) {w : GzipWriter C σ} (hw : I w.inner.inner) :
    I w.sendQueue.2.inner.inner := send_kept (Counted.kept h) _ w.queue hw

theorem sendEnding_kept (h : KeptByWrites I) {w : GzipWriter C σ} (hw : I w.inner.inner) :
    I w.sendEnding.2.inner := send_kept (Counted.kept h) _ w.ending hw

theorem writeRounds_kept (h : KeptByWrites I) (b : Bytes) :
    ∀ (fuel : Nat) {w : GzipWriter C σ}, I w.inner.inner →
      I (writeRounds fuel w b).2.inner.inner := by
  intro fuel
  induction fuel with
  | zero => intro w hw; exact hw
  | succ fuel ih =>
    intro w hw
    have hqueue := sendQueue_kept h hw
    unfold writeRounds
    split
    next heq => rw [heq] at hqueue; exact hqueue
    next heq => rw [heq] at hqueue; exact hqueue
    next w₁ heq =>
      rw [heq] at hqueue
      have hcode : I (w₁.code b).1.inner.inner := hqueue
      simp only
      split
      · exact ih hcode
      · exact hcode

theorem kept (h : KeptByWrites I) : KeptByWrites fun w : GzipWriter C σ => I w.inner.inner := by
  intro w b hw
  have hheader := sendHeader_kept h hw
  show I (w.writeOnce b).2.inner.inner
  unfold writeOnce
  split
  next heq => rw [heq] at hheader; exact hheader
  next heq => rw [heq] at hheader; exact hheader
  next w₁ heq =>
    rw [heq] at hheader
    exact writeRounds_kept h b _ hheader

theorem finish_kept (h : KeptByWrites I) {w : GzipWriter C σ} (hw : I w.inner.inner)
    (draws : List UInt64) : I (w.finish draws).2 := by
  have hending := sendEnding_kept h hw
  unfold finish
  split
  next heq => rw [heq] at hending; exact hending
  next inner heq =>
    rw [heq] at hending
    have hzeros := h.fillZeros (Padding.amount inner.count w.policy draws).1 hending
    simp only
    split
    next heq => rw [heq] at hzeros; exact hzeros
    next heq => rw [heq] at hzeros; exact hzeros

end Kept

variable {Q D : σ → τ → Prop}

/-- Strings that are sent to sinks abreast are left over alike. -/
theorem send_pace (h : Pursues Q D) :
    ∀ (fuel : Nat) {a : σ} {b : τ} (x : Bytes), Q a b →
      Pace Outcome.done Outcome.failed (fun p q => Q p.1 q.1 ∧ p.2 = q.2)
        (fun p q => D p.1 q.1) (send fuel a x) (send fuel b x) := by
  intro fuel
  induction fuel with
  | zero => intro a b x hab; exact .keep () ⟨hab, rfl⟩
  | succ fuel ih =>
    intro a b x hab
    by_cases hx : x = []
    · subst hx
      exact .keep () ⟨hab, rfl⟩
    · have hpace := h.write x hab
      have hpos : ∀ n b', write b x = (.done n, b') → 0 < n := fun _ _ => h.pos hab hx
      unfold send
      rw [if_neg (by simpa using hx), if_neg (by simpa using hx)]
      generalize write a x = ra at hpace
      generalize write b x = rb at hpace hpos
      cases hpace with
      | keep n hnext =>
        obtain ⟨n, rfl⟩ := Nat.exists_eq_succ_of_ne_zero (Nat.ne_of_gt (hpos n _ rfl))
        exact ih _ hnext
      | @lose a' b' y e hd =>
        refine .lose e ?_
        cases y with
        | interrupted => exact hd
        | failed _ => exact hd
        | done n =>
          -- what the second one sends after this leaves the first one behind all the same
          cases n with
          | zero => exact hd
          | succ n => exact send_kept (h.keeps a') fuel _ hd

/-- Stages that go on alike over sinks abreast. -/
structure Abreast (Q : σ → τ → Prop) (w : GzipWriter C σ) (v : GzipWriter C τ) : Prop where
  policy : w.policy = v.policy
  coder : w.coder = v.coder
  queue : w.queue = v.queue
  header : w.header = v.header
  check : w.check = v.check
  length : w.plaintextLength = v.plaintextLength
  inner : Counted.Abreast Q w.inner v.inner

/-- The first stage is behind if what it writes to is. -/
def Behind (D : σ → τ → Prop) (w : GzipWriter C σ) (v : GzipWriter C τ) : Prop :=
  D w.inner.inner v.inner.inner

theorem sendHeader_pace (h : Pursues Q D) {w : GzipWriter C σ} {v : GzipWriter C τ}
    (hw : Abreast Q w v) :
    Pace Outcome.done Outcome.failed (Abreast Q) (Behind D) w.sendHeader v.sendHeader := by
  have hpace := send_pace (Counted.pursues h) v.header.length v.header hw.inner
  unfold sendHeader
  rw [hw.header]
  generalize send v.header.length w.inner v.header = rw at hpace
  generalize send v.header.length v.inner v.header = rv at hpace
  cases hpace with
  | keep _ hq => exact .keep () ⟨hw.policy, hw.coder, hw.queue, hq.2, hw.check, hw.length, hq.1⟩
  | lose e hd => exact .lose e hd

theorem sendQueue_pace (h : Pursues Q D) {w : GzipWriter C σ} {v : GzipWriter C τ}
    (hw : Abreast Q w v) :
    Pace Outcome.done Outcome.failed (Abreast Q) (Behind D) w.sendQueue v.sendQueue := by
  have hpace := send_pace (Counted.pursues h) v.queue.length v.queue hw.inner
  unfold sendQueue
  rw [hw.queue]
  generalize send v.queue.length w.inner v.queue = rw at hpace
  generalize send v.queue.length v.inner v.queue = rv at hpace
  cases hpace with
  | keep _ hq => exact .keep () ⟨hw.policy, hw.coder, hq.2, hw.header, hw.check, hw.length, hq.1⟩
  | lose e hd => exact .lose e hd

omit [Sink σ] [Sink τ] in
/-- The same coders are handed the same data and come to the same. -/
theorem code_abreast {w : GzipWriter C σ} {v : GzipWriter C τ} (hw : Abreast Q w v) (b : Bytes) :
    Abreast Q (w.code b).1 (v.code b).1 ∧ (w.code b).2 = (v.code b).2 := by
  unfold code
  simp only [hw.coder]
  exact ⟨⟨hw.policy, rfl, rfl, hw.header, by rw [hw.check], by rw [hw.length], hw.inner⟩, trivial⟩

theorem writeRounds_pace (h : Pursues Q D) (b : Bytes) :
    ∀ (fuel : Nat) {w : GzipWriter C σ} {v : GzipWriter C τ}, Abreast Q w v →
      Pace Outcome.done Outcome.failed (Abreast Q) (Behind D) (writeRounds fuel w b)
        (writeRounds fuel v b) := by
  intro fuel
  induction fuel with
  | zero => intro w v hw; exact .keep 0 hw
  | succ fuel ih =>
    intro w v hw
    have hqueue := sendQueue_pace h hw
    unfold writeRounds
    generalize w.sendQueue = rw at hqueue
    generalize v.sendQueue = rv at hqueue
    cases hqueue with
    | @lose w₁ v₁ y e hd =>
      refine .lose e ?_
      cases y with
      | interrupted => exact hd
      | failed _ => exact hd
      | done _ =>
        have hcode : Behind D w₁ (v₁.code b).1 := hd
        simp only
        split
        · exact writeRounds_kept (h.keeps w₁.inner.inner) b fuel hcode
        · exact hcode
    | @keep w₁ v₁ _ hw₁ =>
      obtain ⟨hcode, hsame⟩ := code_abreast hw₁ b
      simp only [hsame]
      split
      · exact ih hcode
      · exact .keep _ hcode

theorem writeOnce_pace (h : Pursues Q D) {w : GzipWriter C σ} {v : GzipWriter C τ}
    (hw : Abreast Q w v) (b : Bytes) :
    Pace Outcome.done Outcome.failed (Abreast Q) (Behind D) (w.writeOnce b) (v.writeOnce b) := by
  have hheader := sendHeader_pace h hw
  unfold writeOnce
  generalize w.sendHeader = rw at hheader
  generalize v.sendHeader = rv at hheader
  cases hheader with
  | @lose w₁ v₁ y e hd =>
    refine .lose e ?_
    cases y with
    | interrupted => exact hd
    | failed _ => exact hd
    | done _ => exact writeRounds_kept (h.keeps w₁.inner.inner) b _ hd
  | @keep w₁ v₁ _ hw₁ =>
    simp only [hw₁.coder]
    exact writeRounds_pace h b _ hw₁

/-- Where the second stage takes its data, two stages abreast stay so or the first one falls
behind. -/
theorem pursues {C : Compressor} {U : Ledger τ} (hU : Swallows U) (h : Pursues Q D)
    (level : Gzip.Level) (policy : PaddingPolicy) :
    Pursues (fun (w : GzipWriter C σ) v => Abreast Q w v ∧ ∃ p, Over U level policy v p)
      (Behind D) where
  write {w v} x hw := by
    obtain ⟨habreast, p, hp⟩ := hw
    have hpace := writeOnce_pace h habreast x
    have hrecords : ∀ n v', v.writeOnce x = (.done n, v') →
        Over U level policy v' (p ++ x.take n) :=
      fun n _ h => (writeOnce_records hU.toRecords hp h).2 n rfl
    show Pace _ _ _ _ (w.writeOnce x) (v.writeOnce x)
    generalize w.writeOnce x = rw at hpace
    generalize v.writeOnce x = rv at hpace hrecords
    cases hpace with
    | @keep w' v' n hq => exact .keep n ⟨hq, _, hrecords n v' rfl⟩
    | lose e hd => exact .lose e hd
  pos {w v v' x n} hw hx hwrite := by
    obtain ⟨-, p, hp⟩ := hw
    obtain ⟨k, v'', hk, hpos⟩ := writeOnce_done hU.steady hp x
    change v.writeOnce x = _ at hwrite
    rw [hk] at hwrite
    cases hwrite
    exact hpos hx
  keeps w := kept (h.keeps w.inner.inner)

theorem sendEnding_pace (h : Pursues Q D) {w : GzipWriter C σ} {v : GzipWriter C τ}
    (hw : Abreast Q w v) :
    Pace Except.ok Except.error (Counted.Abreast Q) (fun s t => D s.inner t.inner)
      w.sendEnding v.sendEnding := by
  have hending : w.ending = v.ending := by
    unfold ending
    rw [hw.header, hw.queue, hw.coder, hw.check, hw.length]
  have hpace := send_pace (Counted.pursues h) v.ending.length v.ending hw.inner
  unfold sendEnding
  simp only [hending]
  generalize send v.ending.length w.inner v.ending = rw at hpace
  generalize send v.ending.length v.inner v.ending = rv at hpace
  cases hpace with
  | keep _ hq => exact .keep () hq.1
  | lose e hd => exact .lose e hd

/-- The end of two stages abreast. -/
theorem finish_pace (h : Pursues Q D) {w : GzipWriter C σ} {v : GzipWriter C τ}
    (hw : Abreast Q w v) (draws : List UInt64) :
    Pace Except.ok Except.error Q D (w.finish draws) (v.finish draws) := by
  have hending := sendEnding_pace h hw
  unfold finish
  rw [hw.policy, hw.length]
  generalize w.sendEnding = rw at hending
  generalize v.sendEnding = rv at hending
  cases hending with
  | @lose s t y e hd =>
    refine .lose e ?_
    cases y with
    | error _ => exact hd
    | ok _ =>
      have hzeros := (h.keeps s.inner).fillZeros (Padding.amount t.count v.policy draws).1 hd
      simp only
      split
      next heq => rw [heq] at hzeros; exact hzeros
      next heq => rw [heq] at hzeros; exact hzeros
  | @keep s t _ hs =>
    simp only [hs.1]
    have hzeros := h.fillZeros (Padding.amount t.count v.policy draws).1 hs.2
    generalize fillZeros s.inner _ = rs at hzeros
    generalize fillZeros t.inner _ = rt at hzeros
    cases hzeros with
    | keep _ hq => exact .keep _ hq
    | @lose a b y e hd => cases y <;> exact .lose e hd

end GzipWriter
end ChatBackup
