import ChatBackup.Proofs.Cbc
import ChatBackup.Proofs.Decompression

/-!
# Stages that run in lockstep

Where output gets lost it depends on the sizes of the buffers how much of it. It does not depend on
how the ciphertext arrives, since the decrypting reader fetches whole chunks of it: over two sources
that bring the same ciphertext, stages with buffers of the same sizes are read alike, whatever the
ciphertext is opened to.

> `CbcReader.twins`, `GzipReader.twins`, `Buffered.twins`: each stage is read alike if the stage
> below it is, and the lowest one if the sources bring the same.

Rounds are bounded by turns, and those of the two sources differ. So the comparison of two reads of
a decompressing reader (`GzipReader.readBody_twin`) is over any two numbers of rounds that are
enough.
-/

namespace ChatBackup

open Source

/-! ## Decrypting -/

namespace CbcReader

variable {σ τ : Type} [Source σ] [Source τ] {R : Promise σ} {R' : Promise τ}
  {r : CbcReader σ} {q : CbcReader τ}

/-- Readers in the same state, over sources that bring the same ciphertext. -/
inductive Beside (R : Promise σ) (R' : Promise τ) : CbcReader σ → CbcReader τ → Prop where
  | mk {inner : σ} {inner' : τ} {cipher : BlockCipher} {previous : Block} {chunk : Nat}
    {held out : Bytes} {ended : Bool} {c : Bytes} : R inner c none → R' inner' c none →
    Beside R R' ⟨inner, cipher, previous, chunk, held, out, ended⟩
      ⟨inner', cipher, previous, chunk, held, out, ended⟩

omit [Source σ] [Source τ] in
theorem finish_beside (h : Beside R R' r q) : SameResult (Beside R R') (finish r) (finish q) := by
  cases h with
  | mk hs ht =>
    unfold finish
    simp only
    split
    · exact .error _
    · split
      · exact .ok () (.mk hs ht)
      · exact .error _

theorem fill_beside (hR : Delivers R) (hR' : Delivers R') (h : Beside R R' r q) :
    SameResult (Beside R R') (fill r) (fill q) := by
  cases h with
  | @mk inner inner' cipher previous chunk held out ended c hs ht =>
    -- a chunk is gathered whole, in however many reads
    have hg := gather_gathers hR hs chunk
    have hg' := gather_gathers hR' ht chunk
    have hfail : (gather inner chunk).failure = none := by rw [hg.failure, ite_self]
    have hfail' : (gather inner' chunk).failure = none := by rw [hg'.failure, ite_self]
    have hsame : (gather inner chunk).got = (gather inner' chunk).got := hg.got.trans hg'.got.symm
    rw [fill_eq hfail, fill_eq hfail']
    simp only [hsame]
    split
    · exact finish_beside (.mk (hg.after hfail) (hg'.after hfail'))
    · exact .ok () (.mk (hg.after hfail) (hg'.after hfail'))

theorem fillRounds_beside (hR : Delivers R) (hR' : Delivers R') : ∀ (fuel : Nat)
    {r : CbcReader σ} {q : CbcReader τ}, Beside R R' r q →
    SameResult (Beside R R') (fillRounds fuel r) (fillRounds fuel q) := by
  intro fuel
  induction fuel with
  | zero => intro r q h; exact .ok () h
  | succ fuel ih =>
    intro r q h
    have hfill := fill_beside hR hR' h
    have hstop : (!r.out.isEmpty || r.ended) = (!q.out.isEmpty || q.ended) := by cases h; rfl
    unfold fillRounds
    rw [hstop]
    split
    · exact .ok () h
    · generalize fill r = x at hfill
      generalize fill q = y at hfill
      cases hfill with
      | error e => exact .error e
      | ok u hafter => exact ih hafter

/-- Decrypting readers with buffers of the same size are read alike. -/
theorem twins (hR : Delivers R) (hR' : Delivers R') : Twins (Beside R R') := by
  intro r q n h hn
  show Twin _ (readOnce r n) (readOnce q n)
  have hfill := fillRounds_beside hR hR' (blockLength + 2) h
  unfold readOnce
  rw [if_neg (Nat.ne_of_gt hn), if_neg (Nat.ne_of_gt hn)]
  generalize fillRounds (blockLength + 2) r = x at hfill
  generalize fillRounds (blockLength + 2) q = y at hfill
  cases hfill with
  | error e => exact .failed e
  | ok u hafter =>
    cases hafter with
    | mk hs ht => exact .done _ (.mk hs ht)

end CbcReader

/-! ## Fetching in large pieces -/

namespace Buffered

variable {σ τ : Type} [Source σ] [Source τ] {S : σ → τ → Prop} {s : Buffered σ} {t : Buffered τ}

/-- Buffers with the same bytes in them, over sources that are related. -/
inductive Beside (S : σ → τ → Prop) : Buffered σ → Buffered τ → Prop where
  | mk {inner : σ} {inner' : τ} {capacity : Nat} {buffer : Bytes} : 0 < capacity →
    S inner inner' → Beside S ⟨inner, capacity, buffer⟩ ⟨inner', capacity, buffer⟩

omit [Source σ] [Source τ] in
theorem Beside.over_left {R : Promise σ} {R' : Promise τ} (h : Beside (Kept R R' S) s t) :
    ∃ b ending, Over R s b ending := by
  cases h with
  | mk hcap hst =>
    obtain ⟨-, ⟨b, ending, hs⟩, -⟩ := hst
    exact ⟨_, ending, hcap, b, rfl, hs⟩

omit [Source σ] [Source τ] in
theorem Beside.over_right {R : Promise σ} {R' : Promise τ} (h : Beside (Kept R R' S) s t) :
    ∃ b ending, Over R' t b ending := by
  cases h with
  | mk hcap hst =>
    obtain ⟨-, -, b, ending, ht⟩ := hst
    exact ⟨_, ending, hcap, b, rfl, ht⟩

theorem fill_twin (hS : Twins S) (h : Beside S s t) : Twin (Beside S) s.fill t.fill := by
  cases h with
  | @mk inner inner' capacity buffer hcap hst =>
    have hread := hS inner inner' capacity hst hcap
    unfold fill
    simp only
    split
    · generalize Source.read inner capacity = x at hread
      generalize Source.read inner' capacity = y at hread
      cases hread with
      | done b hafter => exact .done () (.mk hcap hafter)
      | failed f => exact .failed f
    · exact .done () (.mk hcap hst)

/-- Buffers are read alike if their sources are. -/
theorem twins (hS : Twins S) : Twins (Beside S) := by
  intro s t n h hn
  show Twin _ (readOnce s n) (readOnce t n)
  have hfill := fill_twin hS h
  cases h with
  | @mk inner inner' capacity buffer hcap hst =>
    have hread := hS inner inner' n hst hn
    unfold readOnce
    simp only
    split
    · generalize Source.read inner n = x at hread
      generalize Source.read inner' n = y at hread
      cases hread with
      | done b hafter => exact .done b (.mk hcap hafter)
      | failed f => exact .failed f
    · generalize fill ⟨inner, capacity, buffer⟩ = x at hfill
      generalize fill ⟨inner', capacity, buffer⟩ = y at hfill
      cases hfill with
      | failed f => exact .failed f
      | done u hafter =>
        cases hafter with
        | mk hcap' hst' => exact .done _ (.mk hcap' hst')

end Buffered

/-! ## Decompressing -/

namespace GzipReader

open GzipBody

variable {σ τ : Type} [Source σ] [Source τ] {S : σ → τ → Prop} {R : Promise σ} {R' : Promise τ}
  {input : Buffered σ} {input' : Buffered τ} {b : GzipBody} {n : Nat}

/-- Readers at the same place in a member, over inputs that are related. -/
inductive Beside (S : σ → τ → Prop) : GzipReader σ → GzipReader τ → Prop where
  | body {input : Buffered σ} {input' : Buffered τ} {b : GzipBody} :
    Buffered.Beside S input input' → Sound b → Beside S ⟨input, .body b⟩ ⟨input', .body b⟩
  | refused {input : Buffered σ} {input' : Buffered τ} (f : Failure) :
    Beside S ⟨input, .refused f⟩ ⟨input', .refused f⟩
  | ended {input : Buffered σ} {input' : Buffered τ} : Beside S ⟨input, .ended⟩ ⟨input', .ended⟩

/-- The same was fetched into the same body. -/
def FetchedBeside (S : σ → τ → Prop) (x : Buffered σ × GzipBody) (y : Buffered τ × GzipBody) :
    Prop := Buffered.Beside S x.1 y.1 ∧ x.2 = y.2 ∧ Sound x.2

theorem fetch_twin (hS : Twins S) (h : Buffered.Beside S input input') (hb : Sound b) :
    Twin (FetchedBeside S) (fetch input b) (fetch input' b) := by
  unfold fetch
  split
  · have hfill := Buffered.fill_twin hS h
    generalize input.fill = x at hfill
    generalize input'.fill = y at hfill
    cases hfill with
    | failed f => exact .failed f
    | done u hafter =>
      cases hafter with
      | @mk inner inner' capacity buffer hcap hst =>
        exact .done _ ⟨.mk hcap hst, rfl, hb.feed buffer⟩
  · exact .done false ⟨h, rfl, hb⟩

theorem readTrailer_twin (hS : Twins S) (h : Buffered.Beside S input input') (got : Bytes) :
    Twin (Beside S) (readTrailer input got b) (readTrailer input' got b) := by
  have hg := (Buffered.twins hS).agrees.gather (Gzip.trailerLength - got.length) h
  unfold readTrailer
  generalize gather input (Gzip.trailerLength - got.length) = g at hg
  generalize gather input' (Gzip.trailerLength - got.length) = g' at hg
  cases hg with
  | failed more f => exact .failed f
  | done more hafter =>
    simp only
    split
    · exact .failed _
    · split
      · exact .done [] .ended
      · exact .failed _

/-- Any two numbers of rounds that are enough come to the same. -/
theorem readBody_twin (hS : Twins (Kept R R' S)) (hR : Delivers R) (hR' : Delivers R')
    (hn : 0 < n) : ∀ (fuel fuel' : Nat) {input : Buffered σ} {input' : Buffered τ} {b : GzipBody},
    rounds input b ≤ fuel → rounds input' b ≤ fuel' →
    Buffered.Beside (Kept R R' S) input input' → Sound b →
    Twin (Beside (Kept R R' S)) (readBody fuel input b n) (readBody fuel' input' b n) := by
  intro fuel
  induction fuel with
  | zero =>
    intro fuel' input input' b hfuel
    unfold rounds at hfuel
    split at hfuel <;> omega
  | succ fuel ih =>
    intro fuel' input input' b hfuel hfuel' hinput hb
    cases fuel' with
    | zero =>
      unfold rounds at hfuel'
      split at hfuel' <;> omega
    | succ fuel' =>
      have hf := fetch_twin hS hinput hb
      obtain ⟨rest, ending, hover⟩ := hinput.over_left
      obtain ⟨rest', ending', hover'⟩ := hinput.over_right
      unfold readBody
      generalize hfetch : fetch input b = x at hf
      generalize hfetch' : fetch input' b = y at hf
      cases hf with
      | failed f => exact .failed f
      | @done x y atEnd hafter =>
        obtain ⟨t, c⟩ := x
        obtain ⟨t', c'⟩ := y
        obtain ⟨hbuffer, hsame, hc⟩ := hafter
        obtain rfl : c = c' := hsame
        simp only at hbuffer hc ⊢
        split
        · exact .done _ (.body hbuffer (hc.give n).sound)
        · have hd := hc.decompress atEnd (n + 1) (Nat.lt_succ_self n) hn
          generalize c.decompress atEnd (n + 1) n = r at hd
          obtain ⟨pieces, c', stop⟩ := r
          obtain ⟨hmoves, -, hstarved, hempty⟩ := hd
          simp only at hmoves hstarved hempty
          cases stop with
          | corrupt => exact .failed _
          | full =>
            -- a pause for want of room comes only after a byte
            have hne : pieces.flatten ≠ [] := fun hnil => (hempty hnil).1 rfl
            have hsome : (!pieces.flatten.isEmpty) = true := by
              rw [Bool.not_eq_true', List.isEmpty_eq_false_iff]
              exact hne
            simp only [hsome, if_true]
            exact .done _ (.body hbuffer hmoves.sound)
          | finished =>
            simp only
            split
            · exact .done _ (.body hbuffer hmoves.sound)
            · cases hbuffer with
              | mk hcap hst => exact readTrailer_twin hS (.mk hcap hst) []
          | starved =>
            simp only
            split
            · exact .done _ (.body hbuffer hmoves.sound)
            · cases atEnd with
              | true => exact .failed _
              | false =>
                -- both inputs have spent a turn on what was fetched
                have hleft := rounds_fetch hR hover hfetch
                have hleft' := rounds_fetch hR' hover' hfetch'
                refine ih fuel' ?_ ?_ hbuffer hmoves.sound
                · rw [rounds_starved t (hstarved rfl)]
                  omega
                · rw [rounds_starved t' (hstarved rfl)]
                  omega

/-- Decompressing readers are read alike if their sources are. -/
theorem twins (hS : Twins S) (hR : Delivers R) (hR' : Delivers R') :
    Twins (Beside (Kept R R' S)) := by
  intro r q n h hn
  show Twin _ (readOnce r n) (readOnce q n)
  unfold readOnce
  rw [if_neg (Nat.ne_of_gt hn), if_neg (Nat.ne_of_gt hn)]
  have hkept := hS.kept hR hR'
  have hrounds : ∀ {ρ : Type} [Source ρ] (input : Buffered ρ) (b : GzipBody),
      rounds input b ≤ turns input + 2 := by
    intro ρ _ input b
    unfold rounds
    split <;> omega
  cases h with
  | @body input input' b hinput hb =>
    exact readBody_twin hkept hR hR' hn _ _ (hrounds input b) (hrounds input' b) hinput hb
  | refused f => exact .failed f
  | ended => exact .done [] .ended

/-- A header is taken alike. -/
theorem start_beside (hS : Twins S) {s : σ} {t : τ} (h : S s t) :
    Beside S (start s) (start t) := by
  have hinput : Buffered.Beside S ({ inner := s, capacity := fetchLength } : Buffered σ)
      ({ inner := t, capacity := fetchLength } : Buffered τ) := .mk (Nat.succ_pos _) h
  have hheader := Gzip.readHeader_same (Buffered.twins hS).agrees hinput
  unfold start
  generalize Gzip.readHeader ({ inner := s, capacity := fetchLength } : Buffered σ) = x at hheader
  generalize Gzip.readHeader ({ inner := t, capacity := fetchLength } : Buffered τ) = y at hheader
  cases hheader with
  | error e => exact .refused e
  | ok u hafter => exact .body hafter sound_start

end GzipReader
end ChatBackup
