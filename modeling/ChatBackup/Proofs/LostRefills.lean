import ChatBackup.Proofs.OneShot

/-!
# Reading on after failures

A source may fail, take nothing for it and go on when it is asked again. A reading stage may be
asked again as well, but it fetches ciphertext in refills of several reads, and a failure drops what
the refill had brought so far. This file says what a user gets who reads on.

> `reading_on_loses_refills`: the ciphertext comes in refills, some of which fail. Reading on gives
> each of those failures once, and else just what decrypting at once gives of the refills that did
> not fail. That is what it gives of the whole ciphertext as long as no refill fails after its first
> bytes.

`Recovers` is what is asked of the source and `Refills` what gathering makes of it
(`Recovers.exists_refills`). What is still to come of a reader is told over its refills
(`CbcReader.Ahead`), one read at a time (`CbcReader.read_resumed`).
-/

namespace ChatBackup

namespace Source

variable {σ : Type} [Source σ]

/-! ## Sources that recover -/

/-- Says of states of a source which bytes they still bring, and a bound on the failures to come. -/
abbrev Prospect (σ : Type) := σ → Bytes → Nat → Prop

/-- What one read may come to if a failure takes nothing. -/
inductive Attempt (R : Prospect σ) (s : σ) (c : Bytes) (k : Nat) : Outcome Bytes × σ → Prop where
  | bytes {got more : Bytes} {s' : σ} : got ≠ [] → c = got ++ more → R s' more k →
    Attempt R s c k (.done got, s')
  | interrupted {s' : σ} : R s' c k → turns s' < turns s → Attempt R s c k (.interrupted, s')
  | failed {f : Failure} {s' : σ} {k' : Nat} : k' < k → R s' c k' → Attempt R s c k (.failed f, s')
  | ended {s' : σ} : c = [] → R s' [] k → Attempt R s c k (.done [], s')

/-- Reads bring the bytes and fail so often at most. -/
def Recovers (R : Prospect σ) : Prop :=
  ∀ s c k n, R s c k → 0 < n → Attempt R s c k (read s n)

/-- What one read comes to if it sits through interruptions. -/
inductive Settles (R : Prospect σ) (c : Bytes) (k : Nat) : Except Failure Bytes × σ → Prop where
  | bytes {got more : Bytes} {s' : σ} : got ≠ [] → c = got ++ more → R s' more k →
    Settles R c k (.ok got, s')
  | failed {f : Failure} {s' : σ} {k' : Nat} : k' < k → R s' c k' → Settles R c k (.error f, s')
  | ended {s' : σ} : c = [] → R s' [] k → Settles R c k (.ok [], s')

variable {R : Prospect σ} {s : σ} {c : Bytes} {k n : Nat}

theorem Attempt.settles {r : Outcome Bytes × σ} (h : Attempt R s c k r) (hne : r.1 ≠ .interrupted) :
    Settles R c k (r.1.settle, r.2) := by
  cases h with
  | bytes hgot hc hR => exact .bytes hgot hc hR
  | interrupted => exact absurd rfl hne
  | failed hk hR => exact .failed hk hR
  | ended hc hR => exact .ended hc hR

theorem readPast_settles (hR : Recovers R) (hn : 0 < n) : ∀ (t : Nat) {s : σ}, turns s ≤ t →
    R s c k → Settles R c k ((readPast t s n).1.settle, (readPast t s n).2) := by
  intro t
  induction t with
  | zero =>
    intro s ht hs
    have hread := hR s c k n hs hn
    refine hread.settles ?_
    intro hint
    rw [← Prod.eta (read s n), hint] at hread
    cases hread with
    | interrupted _ hlt => omega
  | succ t ih =>
    intro s ht hs
    have hread := hR s c k n hs hn
    unfold readPast
    split
    next s' hint =>
      rw [hint] at hread
      cases hread with
      | interrupted hs' hlt => exact ih (by omega) hs'
    next hnot =>
      refine hread.settles ?_
      intro hint
      exact hnot (read s n).2 (by rw [← hint])

theorem readSettled_settles (hR : Recovers R) (hs : R s c k) (hn : 0 < n) :
    Settles R c k (readSettled s n) := by
  have hread := hR s c k n hs hn
  unfold readSettled
  split
  next s' hint =>
    rw [hint] at hread
    cases hread with
    | interrupted hs' _ => exact readPast_settles hR hn _ (Nat.le_refl _) hs'
  next r s' hnot heq =>
    have h := hread.settles (by rw [heq]; exact fun hint => hnot hint)
    rw [heq] at h
    exact h

/-- What gathering comes to: a front part of the bytes, and either a failure less to come or what
follows the front part. -/
structure Collects (R : Prospect σ) (c : Bytes) (k : Nat) (g : Gathered σ) (more : Bytes) :
    Prop where
  split : c = g.got ++ more
  clean : g.failure = none → R g.source more k
  failed : g.failure ≠ none → ∃ k' < k, R g.source more k'

/-- A front part of the bytes is gathered, and nothing without a failure only at their end. -/
theorem gatherRounds_collects (hR : Recovers R) : ∀ (fuel : Nat) {s : σ} {c : Bytes} {n : Nat},
    n ≤ fuel → R s c k →
    ∃ more, Collects R c k (gatherRounds fuel s n) more ∧
      (0 < n → (gatherRounds fuel s n).got = [] → (gatherRounds fuel s n).failure = none →
        c = []) := by
  intro fuel
  induction fuel with
  | zero =>
    intro s c n hn hs
    exact ⟨c, ⟨rfl, fun _ => hs, fun h => absurd rfl h⟩, by omega⟩
  | succ fuel ih =>
    intro s c n hn hs
    unfold gatherRounds
    by_cases h0 : n = 0
    · rw [if_pos h0]
      exact ⟨c, ⟨rfl, fun _ => hs, fun h => absurd rfl h⟩, by omega⟩
    · rw [if_neg h0]
      have hread := readSettled_settles hR hs (Nat.pos_of_ne_zero h0)
      generalize readSettled s n = x at hread
      cases hread with
      | @bytes got rest s' hgot hc hs' =>
        have hpos := List.length_pos_iff.mpr hgot
        obtain ⟨more, hmore, -⟩ := ih (n := n - got.length) (by omega) hs'
        obtain ⟨y, got, rfl⟩ := List.exists_cons_of_ne_nil hgot
        refine ⟨more, ⟨?_, hmore.clean, hmore.failed⟩, ?_⟩
        · rw [hc, hmore.split, ← List.append_assoc]
        · intro _ hnil
          cases hnil
      | failed hk hs' =>
        refine ⟨c, ⟨rfl, ?_, fun _ => ⟨_, hk, hs'⟩⟩, ?_⟩
        · intro h
          cases h
        · intro _ _ h
          cases h
      | ended hc hs' =>
        subst hc
        exact ⟨[], ⟨rfl, fun _ => hs', fun h => absurd rfl h⟩, fun _ _ _ => rfl⟩

/-! ## Refills -/

/-- What one refill has brought, and the failure that ended it if there was one. -/
structure Refill where
  got : Bytes
  failure : Option Failure

/-- What is kept of a refill. -/
def Refill.kept (x : Refill) : Bytes := if x.failure = none then x.got else []

/-- A source is gathered in refills of one size until a refill meets nothing but the end. -/
inductive Refills (size : Nat) : σ → List Refill → Prop where
  | ended {s s' : σ} : gather s size = ⟨[], none, s'⟩ → Refills size s []
  | cons {s s' : σ} {got : Bytes} {failure : Option Failure} {later : List Refill} :
    gather s size = ⟨got, failure, s'⟩ → (failure = none → got ≠ []) → Refills size s' later →
    Refills size s (⟨got, failure⟩ :: later)

/-- All bytes of refills. -/
def gotten (refills : List Refill) : Bytes := refills.flatMap Refill.got

/-- The bytes of the refills that did not fail. -/
def kept (refills : List Refill) : Bytes := refills.flatMap Refill.kept

/-- The failures of refills. -/
def faults (refills : List Refill) : List Failure := refills.filterMap Refill.failure

theorem Refills.unique {size : Nat} {refills refills' : List Refill} (h : Refills size s refills)
    (h' : Refills size s refills') : refills = refills' := by
  induction h generalizing refills' with
  | ended hg =>
    cases h' with
    | ended => rfl
    | cons hg' hne _ =>
      rw [hg] at hg'
      cases hg'
      exact absurd rfl (hne rfl)
  | cons hg hne _ ih =>
    cases h' with
    | ended hg' =>
      rw [hg] at hg'
      cases hg'
      exact absurd rfl (hne rfl)
    | cons hg' _ hlater =>
      rw [hg] at hg'
      cases hg'
      rw [ih hlater]

/-- A source that recovers comes in refills, which make up its bytes and do not fail more often. -/
theorem Recovers.exists_refills (hR : Recovers R) {size : Nat} (hsize : 0 < size) (hs : R s c k) :
    ∃ refills, Refills size s refills ∧ gotten refills = c ∧ (faults refills).length ≤ k := by
  induction hlen : c.length + k using Nat.strongRecOn generalizing s c k with
  | ind m ih =>
    obtain ⟨more, hg, hend⟩ := gatherRounds_collects hR size (Nat.le_refl size) hs
    change Collects R c k (gather s size) more at hg
    change 0 < size → (gather s size).got = [] → (gather s size).failure = none → c = [] at hend
    obtain ⟨⟨got, failure, s'⟩, hx⟩ : ∃ g, gather s size = g := ⟨_, rfl⟩
    rw [hx] at hg hend
    obtain ⟨hsplit, hclean, hfailed⟩ := hg
    simp only at hsplit hclean hfailed hend
    cases failure with
    | some f =>
      obtain ⟨k', hk, hs'⟩ := hfailed (by simp)
      have hle := congrArg List.length hsplit
      rw [List.length_append] at hle
      obtain ⟨later, hlater, hgotten, hfaults⟩ := ih (more.length + k') (by omega) hs' rfl
      refine ⟨⟨got, some f⟩ :: later, .cons hx (fun h => nomatch h) hlater, ?_, ?_⟩
      · rw [hsplit, ← hgotten]
        rfl
      · show (faults later).length + 1 ≤ k
        omega
    | none =>
      by_cases hnil : got = []
      · subst hnil
        rw [hend hsize rfl rfl]
        exact ⟨[], .ended hx, rfl, Nat.zero_le k⟩
      · have hpos := List.length_pos_iff.mpr hnil
        have hle := congrArg List.length hsplit
        rw [List.length_append] at hle
        obtain ⟨later, hlater, hgotten, hfaults⟩ :=
          ih (more.length + k) (by omega) (hclean rfl) rfl
        refine ⟨⟨got, none⟩ :: later, .cons hx (fun _ => hnil) hlater, ?_, hfaults⟩
        rw [hsplit, ← hgotten]
        rfl

theorem length_kept_le (refills : List Refill) :
    (kept refills).length ≤ (gotten refills).length := by
  induction refills with
  | nil => exact Nat.le_refl 0
  | cons x refills ih =>
    rw [kept, gotten, List.flatMap_cons, List.flatMap_cons, List.length_append, List.length_append]
    have hx : x.kept.length ≤ x.got.length := by
      rw [Refill.kept]
      split
      · exact Nat.le_refl _
      · exact Nat.zero_le _
    exact Nat.add_le_add hx ih

/-- Nothing is lost just if no refill has failed after its first bytes. -/
theorem kept_eq_gotten_iff (refills : List Refill) :
    kept refills = gotten refills ↔ ∀ x ∈ refills, x.failure ≠ none → x.got = [] := by
  induction refills with
  | nil => exact iff_of_true rfl fun _ h => nomatch h
  | cons x refills ih =>
    rw [List.forall_mem_cons, ← ih, kept, gotten, List.flatMap_cons, List.flatMap_cons, Refill.kept]
    have hle := length_kept_le refills
    rw [kept, gotten] at hle ih
    by_cases hx : x.failure = none
    · rw [if_pos hx, List.append_cancel_left_eq]
      exact ⟨fun h => ⟨fun hne => absurd hx hne, h⟩, fun h => h.2⟩
    · rw [if_neg hx, List.nil_append]
      constructor
      · intro h
        have hlen := congrArg List.length h
        rw [List.length_append] at hlen
        have hnil : x.got = [] := List.length_eq_zero_iff.mp (by omega)
        rw [hnil, List.nil_append] at h
        exact ⟨fun _ => hnil, h⟩
      · rintro ⟨hnil, h⟩
        rw [hnil hx, List.nil_append]
        exact h

/-! ## Reading on -/

/-- In reads of the sizes given a source hands out the bytes piece by piece, with the failures
between the pieces, then tells how it ends, and from then on gives nothing. -/
inductive ReadsPast : σ → (Nat → Nat) → Bytes → List Failure → Option Failure → Prop where
  | bytes {s s' : σ} {sizes : Nat → Nat} {got more : Bytes} {failures : List Failure}
    {ending : Option Failure} : read s (sizes 0) = (.done got, s') → got ≠ [] →
    ReadsPast s' (fun k => sizes (k + 1)) more failures ending →
    ReadsPast s sizes (got ++ more) failures ending
  | failed {s s' : σ} {sizes : Nat → Nat} {b : Bytes} {f : Failure} {failures : List Failure}
    {ending : Option Failure} : read s (sizes 0) = (.failed f, s') →
    ReadsPast s' (fun k => sizes (k + 1)) b failures ending →
    ReadsPast s sizes b (f :: failures) ending
  | ended {s : σ} {sizes : Nat → Nat} {ending : Option Failure} :
    answerAt s sizes 0 = ending.elim (.done []) .failed →
    (∀ i, answerAt (read s (sizes 0)).2 (fun k => sizes (k + 1)) i = .done []) →
    ReadsPast s sizes [] [] ending

theorem ReadsPast.nil_of_done {sizes : Nat → Nat} {b : Bytes} {failures : List Failure}
    {ending : Option Failure} (h : ReadsPast s sizes b failures ending)
    (hdone : ∀ i, answerAt s sizes i = .done []) : b = [] := by
  cases h with
  | bytes hread hgot _ =>
    have h0 := hdone 0
    rw [answerAt, stateAt, hread] at h0
    exact absurd (Outcome.done.inj h0) hgot
  | failed hread _ =>
    have h0 := hdone 0
    rw [answerAt, stateAt, hread] at h0
    cases h0
  | ended => rfl

/-- What is handed out in all is settled by the reads. -/
theorem ReadsPast.unique {sizes : Nat → Nat} {b b' : Bytes} {failures failures' : List Failure}
    {ending ending' : Option Failure} (h : ReadsPast s sizes b failures ending)
    (h' : ReadsPast s sizes b' failures' ending') : b = b' := by
  induction h generalizing b' failures' ending' with
  | bytes hread hgot hmore ih =>
    cases h' with
    | bytes hread' _ hmore' =>
      rw [hread] at hread'
      cases hread'
      rw [ih hmore']
    | failed hread' _ =>
      rw [hread] at hread'
      cases hread'
    | ended hending' _ =>
      rw [answerAt, stateAt, hread] at hending'
      cases ending' with
      | none => exact absurd (Outcome.done.inj hending') hgot
      | some f => cases hending'
  | failed hread hmore ih =>
    cases h' with
    | bytes hread' _ _ =>
      rw [hread] at hread'
      cases hread'
    | failed hread' hmore' =>
      rw [hread] at hread'
      cases hread'
      exact ih hmore'
    | ended _ hafter' =>
      rw [hread] at hafter'
      exact hmore.nil_of_done hafter'
  | @ended _ _ ending hending hafter =>
    cases h' with
    | bytes hread' hgot' _ =>
      rw [answerAt, stateAt, hread'] at hending
      cases ending with
      | none => exact absurd (Outcome.done.inj hending) hgot'
      | some f => cases hending
    | failed hread' hmore' =>
      rw [hread'] at hafter
      exact (hmore'.nil_of_done hafter).symm
    | ended => rfl

end Source

/-! ## A reader over refills -/

namespace CbcReader

open Block Cbc Source

variable {σ : Type} [Source σ] {r : CbcReader σ} {b : Bytes} {failures : List Failure}
  {ending : Option Failure}

/-- A source comes in refills whose failures are known. -/
def Refilled (size : Nat) (failures : List Failure) : Promise σ := fun s c ending =>
  ending = none ∧ ∃ refills, Refills size s refills ∧ kept refills = c ∧ faults refills = failures

/-- What is still to come of a reader: the bytes, the failures between them, and how it ends. -/
def Ahead (failures : List Failure) : Promise (CbcReader σ) := fun r b ending =>
  Over (Refilled r.chunk failures) r b ending ∧ (r.ended = true → failures = [])

/-- Nothing is to come of a reader. -/
def Spent (r : CbcReader σ) : Prop := r.ended = true ∧ r.out = []

/-- What a round of fetching comes to. -/
inductive Fetched (r : CbcReader σ) (failures : List Failure) (b : Bytes)
    (ending : Option Failure) : Except Failure Unit × CbcReader σ → Prop where
  | more {r' : CbcReader σ} : Ahead failures r' b ending →
    (r'.ended = true ∨ r'.out ≠ [] ∨ r.held.length < r'.held.length) →
    Fetched r failures b ending (.ok (), r')
  | stumbled {f : Failure} {later : List Failure} {r' : CbcReader σ} : failures = f :: later →
    Ahead later r' b ending → Fetched r failures b ending (.error f, r')
  | failed {f : Failure} {r' : CbcReader σ} : b = r.out → failures = [] → ending = some f →
    r'.ended = true → r'.out = r.out → Fetched r failures b ending (.error f, r')

theorem fill_fetched (h : Ahead failures r b ending) (hended : r.ended = false) :
    Fetched r failures b ending (fill r) := by
  obtain ⟨⟨ht, -⟩ | ⟨-, hchunk, hheld, c, ⟨-, refills, hrefills, hkept, hfaults⟩, rfl, rfl⟩, -⟩ := h
  · rw [hended] at ht
    cases ht
  cases hrefills with
  | @ended _ s' hg =>
    obtain rfl : c = [] := hkept.symm
    obtain rfl : failures = [] := hfaults.symm
    have hfill : fill r = finish { r with inner := s' } := by
      unfold fill
      rw [hg]
    rw [hfill, List.append_nil]
    rcases finish_eq (r := { r with inner := s' }) hheld with ⟨x, hx, -, hfin⟩ |
      ⟨f, r', hx, hfin, hmet, hout⟩
    · rw [hfin]
      refine .more ⟨Or.inl ⟨rfl, ?_, ?_⟩, fun _ => rfl⟩ (Or.inl rfl)
      · exact congrArg (r.out ++ ·) (congrArg Prod.fst hx)
      · exact congrArg Prod.snd hx
    · rw [hfin]
      refine .failed ?_ rfl (congrArg Prod.snd hx) hmet hout
      have : (opened r.cipher r.previous r.held).1 = [] := congrArg Prod.fst hx
      rw [this, List.append_nil]
  | @cons _ s' got failure later hg hne hlater =>
    cases failure with
    | some f =>
      have hfill : fill r = (.error f, { r with inner := s' }) := by
        unfold fill
        rw [hg]
      rw [hfill]
      refine .stumbled hfaults.symm ⟨Or.inr ⟨hended, hchunk, hheld, c, ?_, rfl, rfl⟩, ?_⟩
      · exact ⟨rfl, later, hlater, hkept, rfl⟩
      · intro ht
        rw [show r.ended = true from ht] at hended
        cases hended
    | none =>
      have hgot := hne rfl
      have hfill : fill r = (.ok (), absorb { r with inner := s' } got) := by
        unfold fill
        rw [hg]
        cases got with
        | nil => exact absurd rfl hgot
        | cons y got => rfl
      obtain rfl : got ++ kept later = c := hkept
      have hover := over_absorb (R := Refilled r.chunk failures) (r := { r with inner := s' })
        hended hchunk hgot ⟨rfl, later, hlater, rfl, hfaults⟩
      rw [hfill]
      refine .more ⟨hover, ?_⟩ (Or.inr (absorb_grows _ hgot))
      intro ht
      rw [show r.ended = true from ht] at hended
      cases hended

theorem fillRounds_fetched (h : Ahead failures r b ending) :
    (∃ r', fillRounds (blockLength + 2) r = (.ok (), r') ∧ Ahead failures r' b ending ∧
      (r'.ended = true ∨ r'.out ≠ [])) ∨
    ∃ f r', fillRounds (blockLength + 2) r = (.error f, r') ∧
      ((∃ later, failures = f :: later ∧ Ahead later r' b ending) ∨
        b = [] ∧ failures = [] ∧ ending = some f ∧ r'.Spent) := by
  refine fillRounds_rounds (fun q hq => Over.length_held_le hq.1) ?_ (blockLength + 2) h
    (Or.inl (by omega))
  intro q hq hout hended
  have hfetched := fill_fetched hq hended
  generalize fill q = x at hfetched
  cases hfetched with
  | more hq' hgrow => exact Or.inl ⟨_, rfl, hq', hgrow⟩
  | stumbled hf hq' => exact Or.inr ⟨_, _, rfl, Or.inl ⟨_, hf, hq'⟩⟩
  | failed hb hf he hmet hnothing =>
    exact Or.inr ⟨_, _, rfl, Or.inr ⟨by rw [hb, hout], hf, he, hmet, by rw [hnothing, hout]⟩⟩

/-- What one read comes to: bytes, a failure after which reading may go on, or the end. -/
inductive Resumed (failures : List Failure) (b : Bytes) (ending : Option Failure) :
    Outcome Bytes × CbcReader σ → Prop where
  | bytes {got more : Bytes} {r' : CbcReader σ} : got ≠ [] → b = got ++ more →
    Ahead failures r' more ending → Resumed failures b ending (.done got, r')
  | stumbled {f : Failure} {later : List Failure} {r' : CbcReader σ} : failures = f :: later →
    Ahead later r' b ending → Resumed failures b ending (.failed f, r')
  | ended {r' : CbcReader σ} : b = [] → failures = [] → ending = none → r'.Spent →
    Resumed failures b ending (.done [], r')
  | failed {f : Failure} {r' : CbcReader σ} : b = [] → failures = [] → ending = some f →
    r'.Spent → Resumed failures b ending (.failed f, r')

theorem read_resumed (h : Ahead failures r b ending) {n : Nat} (hn : 0 < n) :
    Resumed failures b ending (read r n) := by
  show Resumed failures b ending (readOnce r n)
  unfold readOnce
  rw [if_neg (Nat.ne_of_gt hn)]
  rcases fillRounds_fetched h with
    ⟨r', hfill, hr', hdone⟩ | ⟨f, r', hfill, ⟨later, hf, hr'⟩ | ⟨hb, hf, he, hspent⟩⟩
  · rw [hfill]
    show Resumed failures b ending (.done (r'.out.take n), { r' with out := r'.out.drop n })
    by_cases hout : r'.out = []
    · have hended : r'.ended = true := hdone.resolve_right fun hne => hne hout
      rw [hout, List.take_nil, List.drop_nil]
      rcases hr'.1 with ⟨-, hb, he⟩ | ⟨hnot, -⟩
      · exact .ended (hb.trans hout) (hr'.2 hended) he ⟨hended, rfl⟩
      · rw [hended] at hnot
        cases hnot
    · obtain ⟨more, hb, hmore⟩ := over_handOut hr'.1 n
      have hpos := List.length_pos_iff.mpr hout
      refine .bytes ?_ hb ⟨hmore, hr'.2⟩
      intro hnil
      have := congrArg List.length hnil
      rw [List.length_take, List.length_nil] at this
      omega
  · rw [hfill]
    exact .stumbled hf hr'
  · rw [hfill]
    exact .failed hb hf he hspent

/-- A reader that is spent gives nothing any more. -/
theorem answerAt_of_spent : ∀ (i : Nat) {r : CbcReader σ} {sizes : Nat → Nat}, r.Spent →
    answerAt r sizes i = .done [] := by
  have hread : ∀ {r : CbcReader σ} (n : Nat), r.Spent → read r n = (.done [], r) := by
    intro r n hr
    show readOnce r n = (.done [], r)
    unfold readOnce
    split
    · rfl
    · unfold fillRounds
      rw [if_pos ((stops_iff r).mpr (Or.inr hr.1))]
      show (Outcome.done (r.out.take n), { r with out := r.out.drop n }) = _
      rw [hr.2, List.take_nil, List.drop_nil, ← hr.2]
  intro i
  induction i with
  | zero =>
    intro r sizes hr
    rw [answerAt, stateAt, hread _ hr]
  | succ i ih =>
    intro r sizes hr
    rw [answerAt, stateAt, hread _ hr]
    exact ih hr

/-- Reading on gives what is ahead. -/
theorem readsPast_ahead {sizes : Nat → Nat} (h : Ahead failures r b ending)
    (hsizes : ∀ i, 0 < sizes i) : ReadsPast r sizes b failures ending := by
  induction hlen : b.length + failures.length using Nat.strongRecOn
    generalizing r b failures sizes with
  | ind m ih =>
    have hshift : ∀ k, 0 < sizes (k + 1) := fun k => hsizes (k + 1)
    have hresumed := read_resumed h (hsizes 0)
    obtain ⟨⟨x, r'⟩, hx⟩ : ∃ y, read r (sizes 0) = y := ⟨_, rfl⟩
    rw [hx] at hresumed
    cases hresumed with
    | bytes hgot hb hr' =>
      subst hb
      have hpos := List.length_pos_iff.mpr hgot
      rw [List.length_append] at hlen
      exact .bytes hx hgot (ih _ (by omega) hr' hshift rfl)
    | stumbled hf hr' =>
      subst hf
      rw [List.length_cons] at hlen
      exact .failed hx (ih _ (by omega) hr' hshift rfl)
    | ended hb hf he hspent =>
      subst hb hf he
      refine .ended (congrArg Prod.fst hx) fun i => ?_
      rw [hx]
      exact answerAt_of_spent i hspent
    | failed hb hf he hspent =>
      subst hb hf he
      refine .ended (congrArg Prod.fst hx) fun i => ?_
      rw [hx]
      exact answerAt_of_spent i hspent

/-- A new reader gives what decrypting at once gives of the refills that do not fail. -/
theorem readsPast_kept {source : σ} {refills : List Refill} (cipher : BlockCipher) (iv : Block)
    (bufferLength : Nat) (h : Refills (max bufferLength blockLength) source refills)
    {sizes : Nat → Nat} (hsizes : ∀ i, 0 < sizes i) :
    ReadsPast (start source cipher iv bufferLength) sizes (opened cipher iv (kept refills)).1
      (faults refills) (opened cipher iv (kept refills)).2 :=
  readsPast_ahead ⟨over_start cipher iv bufferLength ⟨rfl, refills, h, rfl, rfl⟩,
    fun ht => nomatch ht⟩ hsizes

end CbcReader

/-! ## Sources that stumble -/

/-- A source whose reads fail as a schedule tells, without taking anything for it. -/
structure Stumbling (σ : Type) where
  /-- The source the bytes come from. -/
  inner : σ
  /-- Whether the next reads fail. -/
  schedule : List (Option Failure)

namespace Stumbling

open Source

variable {σ : Type} [Source σ]

instance : Source (Stumbling σ) where
  read s n :=
    match s.schedule with
    | some f :: schedule => (.failed f, ⟨s.inner, schedule⟩)
    | schedule =>
      match read s.inner n with
      | (r, inner) => (r, ⟨inner, schedule.tail⟩)
  turns s := turns s.inner
  read_le s n b h := by
    split at h
    · cases h
    · exact read_le s.inner n b h

/-- Below a schedule a promise is kept, and failures are as many as are left in it. -/
def Over (R : Promise σ) : Prospect (Stumbling σ) := fun s c k =>
  R s.inner c none ∧ (s.schedule.filterMap id).length ≤ k

theorem read_inner {s : Stumbling σ} (h : ∀ f schedule, s.schedule ≠ some f :: schedule) (n : Nat) :
    read s n = ((read s.inner n).1, ⟨(read s.inner n).2, s.schedule.tail⟩) := by
  obtain ⟨inner, schedule⟩ := s
  cases schedule with
  | nil => rfl
  | cons x schedule =>
    cases x with
    | none => rfl
    | some f => exact absurd rfl (h f schedule)

/-- Whatever the schedule, a source that keeps a promise recovers under it. -/
theorem recovers {R : Promise σ} (hR : Delivers R) : Recovers (Over R) := by
  intro s c k n ⟨hs, hk⟩ hn
  by_cases hfails : ∃ f schedule, s.schedule = some f :: schedule
  · obtain ⟨f, schedule, hschedule⟩ := hfails
    obtain ⟨inner, _⟩ := s
    subst hschedule
    have hless : (schedule.filterMap id).length < k := hk
    exact .failed hless ⟨hs, Nat.le_refl _⟩
  · have hpass : ∀ f schedule, s.schedule ≠ some f :: schedule :=
      fun f schedule h => hfails ⟨f, schedule, h⟩
    have hleft : (s.schedule.tail.filterMap id).length ≤ k := by
      refine Nat.le_trans ?_ hk
      exact ((List.tail_sublist s.schedule).filterMap id).length_le
    have hread := hR s.inner c none n hs hn
    rw [read_inner hpass]
    generalize read s.inner n = x at hread
    cases hread with
    | bytes hgot hc hs' _ => exact .bytes hgot hc ⟨hs', hleft⟩
    | interrupted hs' hlt => exact .interrupted ⟨hs', hleft⟩ hlt
    | ended hc _ hs' => exact .ended hc ⟨hs', hleft⟩
    | failed _ he => cases he

end Stumbling

/-! ## The main statement -/

open Source

/-- **Reading on after failures loses the refills that failed, and nothing else.** Over any source
that recovers from its failures, with a buffer and reads of any sizes, the ciphertext comes in
refills, which make it up. A reader gives the failures of these refills in their order, each of them
once, and else what decrypting at once gives of those that have not failed, and ends as that does.
The bytes that a failed refill had brought are lost. So nothing is lost just if refills fail with
nothing brought, and then reading on gives what a source of the same ciphertext gives that never
fails. -/
theorem reading_on_loses_refills {σ : Type} [Source σ] {R : Prospect σ} (hR : Recovers R)
    {source : σ} {c : Bytes} {k : Nat} (hsource : R source c k) (cipher : BlockCipher) (iv : Block)
    (bufferLength : Nat) {sizes : Nat → Nat} (hsizes : ∀ i, 0 < sizes i) :
    let reader := CbcReader.start source cipher iv bufferLength
    ∃ refills, Refills (max bufferLength blockLength) source refills ∧ gotten refills = c ∧
      (faults refills).length ≤ k ∧
      ReadsPast reader sizes (Cbc.opened cipher iv (kept refills)).1 (faults refills)
        (Cbc.opened cipher iv (kept refills)).2 ∧
      (kept refills = c ↔ ∀ x ∈ refills, x.failure ≠ none → x.got = []) ∧
      ((∀ x ∈ refills, x.failure ≠ none → x.got = []) →
        ReadsPast reader sizes (Cbc.opened cipher iv c).1 (faults refills)
          (Cbc.opened cipher iv c).2 ∧
        ∀ {τ : Type} [Source τ] {other : τ}, Brings other c none →
          ReadsOut (CbcReader.start other cipher iv bufferLength) sizes (Cbc.opened cipher iv c).1
            (Cbc.opened cipher iv c).2) := by
  intro reader
  have hsize : 0 < max bufferLength blockLength :=
    Nat.lt_of_lt_of_le (show 0 < blockLength by decide) (Nat.le_max_right _ _)
  obtain ⟨refills, hrefills, hgotten, hfaults⟩ := hR.exists_refills hsize hsource
  have hreads : ReadsPast reader sizes _ _ _ :=
    CbcReader.readsPast_kept cipher iv bufferLength hrefills hsizes
  have hiff := kept_eq_gotten_iff refills
  rw [hgotten] at hiff
  refine ⟨refills, hrefills, hgotten, hfaults, hreads, hiff, ?_⟩
  intro hnothing
  rw [hiff.mpr hnothing] at hreads
  exact ⟨hreads, fun hother => CbcReader.readsOut_opened hother cipher iv bufferLength hsizes⟩

/-- Two blocks that decrypt to twenty bytes. -/
theorem opened_twenty :
    Cbc.opened (BackupKey.cipher ⟨List.replicate 32 7, List.replicate 32 9, rfl, rfl⟩) .zero
      [0xa8, 0x70, 0xe2, 0x5d, 0xf9, 0xd5, 0x33, 0x1b, 0xb1, 0x5e, 0x94, 0xeb, 0x95, 0x88, 0xbc,
        0x4f, 0xe9, 0x7e, 0xff, 0x2c, 0xef, 0x2b, 0x93, 0x4f, 0x24, 0xe9, 0x6c, 0x2b, 0x03, 0x12,
        0x59, 0x40] = (List.replicate 20 7, none) := by
  decide +kernel

/-- Two blocks are brought by a refill that fails when it asks for more. Both are lost, though the
source goes on. -/
theorem failed_refill_drops_blocks :
    let key : BackupKey := ⟨List.replicate 32 7, List.replicate 32 9, rfl, rfl⟩
    let failure : Failure := .device .timedOut "scripted read failure"
    let c : Bytes := [0xa8, 0x70, 0xe2, 0x5d, 0xf9, 0xd5, 0x33, 0x1b, 0xb1, 0x5e, 0x94, 0xeb, 0x95,
      0x88, 0xbc, 0x4f, 0xe9, 0x7e, 0xff, 0x2c, 0xef, 0x2b, 0x93, 0x4f, 0x24, 0xe9, 0x6c, 0x2b,
      0x03, 0x12, 0x59, 0x40]
    let source : Stumbling ByteSource := ⟨⟨c⟩, [none, some failure]⟩
    let reader := CbcReader.start source key.cipher .zero 64
    Cbc.opened key.cipher .zero c = (List.replicate 20 7, none) ∧
      ReadsPast reader (fun _ => 16) [] [failure] (some (.cipherUnaligned 0)) ∧
      ∀ failures ending, ¬ ReadsPast reader (fun _ => 16) (List.replicate 20 7) failures ending := by
  intro key failure c source reader
  have hrefills : Refills 64 source [⟨c, some failure⟩] :=
    .cons rfl (fun h => nomatch h) (.ended rfl)
  have hreads : ReadsPast reader (fun _ => 16) [] [failure] (some (.cipherUnaligned 0)) :=
    CbcReader.readsPast_kept key.cipher .zero 64 hrefills fun _ => by decide
  refine ⟨opened_twenty, hreads, ?_⟩
  intro failures ending h
  cases hreads.unique h

/-- The same ciphertext over a source that fails only between refills comes out in full. -/
theorem reading_on_loses_refills_between :
    let key : BackupKey := ⟨List.replicate 32 7, List.replicate 32 9, rfl, rfl⟩
    let failure : Failure := .device .timedOut "scripted read failure"
    let c : Bytes := [0xa8, 0x70, 0xe2, 0x5d, 0xf9, 0xd5, 0x33, 0x1b, 0xb1, 0x5e, 0x94, 0xeb, 0x95,
      0x88, 0xbc, 0x4f, 0xe9, 0x7e, 0xff, 0x2c, 0xef, 0x2b, 0x93, 0x4f, 0x24, 0xe9, 0x6c, 0x2b,
      0x03, 0x12, 0x59, 0x40]
    let source : Stumbling ByteSource := ⟨⟨c⟩, [some failure, none, none, some .bufferNotFilled]⟩
    ReadsPast (CbcReader.start source key.cipher .zero 64) (fun _ => 16) (List.replicate 20 7)
      [failure, .bufferNotFilled] none := by
  intro key failure c source
  have hsource : Stumbling.Over (fun (t : ByteSource) b ending => t.rest = b ∧ ending = none)
      source c 2 := ⟨⟨rfl, rfl⟩, Nat.le_refl 2⟩
  have hsizes : ∀ i, 0 < (fun _ : Nat => 16) i := fun _ => Nat.succ_pos 15
  obtain ⟨refills, hrefills, -, -, -, -, hfull⟩ :=
    reading_on_loses_refills (Stumbling.recovers ByteSource.delivers) hsource key.cipher .zero 64
      hsizes
  have hthree : Refills 64 source [⟨[], some failure⟩, ⟨c, none⟩, ⟨[], some .bufferNotFilled⟩] :=
    .cons rfl (fun h => nomatch h)
      (.cons rfl (fun _ h => nomatch h) (.cons rfl (fun h => nomatch h) (.ended rfl)))
  obtain rfl := hrefills.unique hthree
  have hopened : Cbc.opened key.cipher .zero c = (List.replicate 20 7, none) := opened_twenty
  rw [hopened] at hfull
  refine (hfull ?_).1
  intro x hx hfailure
  rcases List.mem_cons.mp hx with rfl | hx
  · rfl
  · rcases List.mem_cons.mp hx with rfl | hx
    · exact absurd rfl hfailure
    · obtain rfl := List.mem_singleton.mp hx
      rfl

end ChatBackup
