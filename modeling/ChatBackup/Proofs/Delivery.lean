import ChatBackup.Channel.Scripted

/-!
# What sources bring

A source is known by the bytes that it still brings and by how it ends after them. `Brings` says so
of a state without saying how reads cut the bytes into pieces or how often they are interrupted.
This file proves what gathering makes of it:

> `gather_gathers`, `gatherPages_gathers`: gathering `n` bytes gives the first `n` of those that a
> source brings, all of them if there are fewer, and leaves a source that brings the rest.

`Brings` is endless behaviour told by one step: a promise on states is kept if each read delivers
what was promised and leaves a state with the promise that remains (`Delivers`). A stage keeps a
promise if the source below it keeps one, so each stage has a promise over that of the next one
(`Limited.Front`, `Buffered.Over`) and one lemma about single reads; all else follows here. The
reads that bring something or are interrupted are bounded by `turns`, which goes down with each.
-/

namespace ChatBackup

namespace Source

variable {σ : Type} [Source σ]

/-- Says of states of a source which bytes they still bring and with which failure they end, if
with any. -/
abbrev Promise (σ : Type) := σ → Bytes → Option Failure → Prop

variable {R : Promise σ} {s : σ} {b : Bytes} {ending : Option Failure} {n : Nat}

/-- What one read may come to if a promise is to be kept. At a clean end nothing is said about the
turns, since a source may be interrupted anew each time it is asked whether it has ended. -/
inductive Delivery (R : Promise σ) (s : σ) (b : Bytes) (ending : Option Failure) :
    Outcome Bytes × σ → Prop where
  | bytes {got more : Bytes} {s' : σ} : got ≠ [] → b = got ++ more → R s' more ending →
    turns s' < turns s → Delivery R s b ending (.done got, s')
  | interrupted {s' : σ} : R s' b ending → turns s' < turns s →
    Delivery R s b ending (.interrupted, s')
  | ended {s' : σ} : b = [] → ending = none → R s' [] none → Delivery R s b ending (.done [], s')
  | failed {f : Failure} {s' : σ} : b = [] → ending = some f →
    Delivery R s b ending (.failed f, s')

/-- What a read comes to from a state without more turns is no less from another one. -/
theorem Delivery.of_turns_le {s₀ : σ} {r : Outcome Bytes × σ} (h : Delivery R s b ending r)
    (hle : turns s ≤ turns s₀) : Delivery R s₀ b ending r := by
  cases h with
  | bytes hne hb hR ht => exact .bytes hne hb hR (Nat.lt_of_lt_of_le ht hle)
  | interrupted hR ht => exact .interrupted hR (Nat.lt_of_lt_of_le ht hle)
  | ended hb he hR => exact .ended hb he hR
  | failed hb he => exact .failed hb he

/-- A promise that reads keep. -/
def Delivers (R : Promise σ) : Prop :=
  ∀ s b ending n, R s b ending → 0 < n → Delivery R s b ending (read s n)

/-- A promise under which asking again after the end does not bring back any turns. -/
def Rests (R : Promise σ) : Prop := ∀ s n, R s [] none → turns (read s n).2 ≤ turns s

/-- A source brings the bytes, in pieces of any size and with interruptions between them, and then
ends, cleanly or with a failure. -/
def Brings (s : σ) (b : Bytes) (ending : Option Failure) : Prop :=
  ∃ R : Promise σ, Delivers R ∧ R s b ending

theorem Delivery.mono {R' : Promise σ} {r : Outcome Bytes × σ} (h : Delivery R s b ending r)
    (hle : ∀ s b ending, R s b ending → R' s b ending) : Delivery R' s b ending r := by
  cases h with
  | bytes hne hb hR ht => exact .bytes hne hb (hle _ _ _ hR) ht
  | interrupted hR ht => exact .interrupted (hle _ _ _ hR) ht
  | ended hb he hR => exact .ended hb he (hle _ _ _ hR)
  | failed hb he => exact .failed hb he

/-- What a source brings is itself a promise that is kept. -/
theorem delivers_brings : Delivers (Brings (σ := σ)) := by
  intro s b ending n h hn
  obtain ⟨R, hR, hs⟩ := h
  exact (hR s b ending n hs hn).mono fun s b ending hs => ⟨R, hR, hs⟩

/-! ## Reads that sit through interruptions -/

/-- What one read comes to if it sits through interruptions. -/
inductive Settled (R : Promise σ) (s : σ) (b : Bytes) (ending : Option Failure) (n : Nat) :
    Except Failure Bytes × σ → Prop where
  | bytes {got more : Bytes} {s' : σ} : got ≠ [] → got.length ≤ n → b = got ++ more →
    R s' more ending → turns s' < turns s → Settled R s b ending n (.ok got, s')
  | ended {s' : σ} : b = [] → ending = none → R s' [] none → (Rests R → turns s' ≤ turns s) →
    Settled R s b ending n (.ok [], s')
  | failed {f : Failure} {s' : σ} : b = [] → ending = some f →
    Settled R s b ending n (.error f, s')

/-- A read after an interruption comes to no more than one before it. -/
theorem Settled.after_interruption {s' : σ} {r : Except Failure Bytes × σ}
    (h : Settled R s' b ending n r) (ht : turns s' < turns s) : Settled R s b ending n r := by
  cases h with
  | bytes hne hle hb hR hlt => exact .bytes hne hle hb hR (Nat.lt_trans hlt ht)
  | ended hb he hR hq => exact .ended hb he hR fun hr => Nat.le_trans (hq hr) (Nat.le_of_lt ht)
  | failed hb he => exact .failed hb he

/-- A read that is not interrupted is settled. -/
theorem Delivery.settled (h : Delivery R s b ending (read s n)) (hs : R s b ending)
    (hne : (read s n).1 ≠ .interrupted) :
    Settled R s b ending n ((read s n).1.settle, (read s n).2) := by
  have hle := read_le s n
  have hrest : b = [] → ending = none → Rests R → turns (read s n).2 ≤ turns s := by
    rintro rfl rfl hr
    exact hr s n hs
  generalize read s n = r at h hne hle hrest
  cases h with
  | bytes hgot hb hR ht => exact .bytes hgot (hle _ rfl) hb hR ht
  | interrupted => exact absurd rfl hne
  | ended hb he hR => exact .ended hb he hR (hrest hb he)
  | failed hb he => exact .failed hb he

/-- As many tries as a source has turns are enough to get through its interruptions. -/
theorem readPast_settled (hR : Delivers R) (hn : 0 < n) :
    ∀ (k : Nat) {s : σ}, turns s ≤ k → R s b ending →
      Settled R s b ending n ((readPast k s n).1.settle, (readPast k s n).2) := by
  intro k
  induction k with
  | zero =>
    intro s hk hs
    refine (hR s b ending n hs hn).settled hs ?_
    intro hint
    have hd := hR s b ending n hs hn
    rw [← Prod.eta (read s n), hint] at hd
    cases hd with
    | interrupted _ ht => omega
  | succ k ih =>
    intro s hk hs
    have hd := hR s b ending n hs hn
    unfold readPast
    split
    next s' hread =>
      rw [hread] at hd
      cases hd with
      | interrupted hs' ht => exact (ih (by omega) hs').after_interruption ht
    next hnot =>
      refine hd.settled hs ?_
      intro hint
      exact hnot (read s n).2 (by rw [← hint])

theorem readSettled_settled (hR : Delivers R) (hs : R s b ending) (hn : 0 < n) :
    Settled R s b ending n (readSettled s n) := by
  have hd := hR s b ending n hs hn
  unfold readSettled
  split
  next s' hread =>
    rw [hread] at hd
    cases hd with
    | interrupted hs' ht =>
      exact (readPast_settled hR hn _ (Nat.le_refl _) hs').after_interruption ht
  next r s' hnot hread =>
    have h := hd.settled hs (by rw [hread]; exact fun hint => hnot hint)
    rw [hread] at h
    exact h

/-! ## Gathering -/

/-- What gathering `n` bytes comes to. -/
structure Gathers (R : Promise σ) (s : σ) (b : Bytes) (ending : Option Failure) (n : Nat)
    (g : Gathered σ) : Prop where
  got : g.got = b.take n
  failure : g.failure = if b.length < n then ending else none
  after : g.failure = none → R g.source (b.drop n) ending
  turns : g.failure = none → n ≤ b.length ∨ Rests R →
    turns g.source + min (min n b.length) 1 ≤ turns s

/-- Nothing is asked for. -/
theorem Gathers.zero (hs : R s b ending) : Gathers R s b ending 0 ⟨[], none, s⟩ where
  got := by simp
  failure := by simp
  after _ := hs
  turns _ _ := by simp

/-- The source has ended. -/
theorem Gathers.ended {s' : σ} (hs' : R s' [] none)
    (ht : Rests R → Source.turns s' ≤ Source.turns s) (hn : 0 < n) :
    Gathers R s [] none n ⟨[], none, s'⟩ where
  got := by simp
  failure := by simp
  after _ := by simpa using hs'
  turns _ h := by
    rcases h with h | h
    · exact absurd h (by simp; omega)
    · simpa using ht h

/-- The source has failed. -/
theorem Gathers.failed {s' : σ} {f : Failure} (hn : 0 < n) :
    Gathers R s [] (some f) n ⟨[], some f, s'⟩ where
  got := by simp
  failure := by simp [hn]
  after h := by cases h
  turns h := by cases h

/-- One read has brought a part of what was asked for. -/
theorem Gathers.bytes {s' : σ} {got more : Bytes} {g : Gathered σ}
    (hg : Gathers R s' more ending (n - got.length) g) (hle : got.length ≤ n)
    (ht : Source.turns s' < Source.turns s) :
    Gathers R s (got ++ more) ending n { g with got := got ++ g.got } where
  got := by
    rw [hg.got, List.take_append, List.take_of_length_le hle]
  failure := by
    rw [hg.failure, List.length_append]
    split
    · rw [if_pos (by omega)]
    · rw [if_neg (by omega)]
  after h := by
    rw [List.drop_append, List.drop_of_length_le hle]
    exact hg.after h
  turns h hor := by
    have hor' : n - got.length ≤ more.length ∨ Rests R := by
      refine hor.imp ?_ id
      intro h
      rw [List.length_append] at h
      omega
    have := hg.turns h hor'
    simp only
    omega

/-- One read of a part of what is asked for, and the rest after it. -/
theorem Settled.gathers {k : Nat} {r : Except Failure Bytes × σ} {next : Bytes → σ → Gathered σ}
    (hk : k ≤ n) (hn : 0 < n)
    (hnext : ∀ {got more : Bytes} {s' : σ}, got ≠ [] → R s' more ending →
      Gathers R s' more ending (n - got.length) (next got s')) :
    Settled R s b ending k r → Gathers R s b ending n
      (match r with
      | (.error e, s') => ⟨[], some e, s'⟩
      | (.ok [], s') => ⟨[], none, s'⟩
      | (.ok got, s') => { next got s' with got := got ++ (next got s').got }) := by
  intro h
  cases h with
  | @bytes got more s' hne hle hb hs' ht =>
    have hg := hnext hne hs'
    obtain ⟨x, rest, rfl⟩ := List.exists_cons_of_ne_nil hne
    subst hb
    exact hg.bytes (Nat.le_trans hle hk) ht
  | ended hb he hs' ht =>
    subst hb he
    exact .ended hs' ht hn
  | failed hb he =>
    subst hb he
    exact .failed hn

theorem gatherRounds_gathers (hR : Delivers R) :
    ∀ (fuel : Nat) {s : σ} {b : Bytes} {n : Nat}, n ≤ fuel → R s b ending →
      Gathers R s b ending n (gatherRounds fuel s n) := by
  intro fuel
  induction fuel with
  | zero =>
    intro s b n hn hs
    obtain rfl : n = 0 := Nat.le_zero.mp hn
    exact .zero hs
  | succ fuel ih =>
    intro s b n hn hs
    unfold gatherRounds
    by_cases h0 : n = 0
    · rw [if_pos h0, h0]
      exact .zero hs
    · rw [if_neg h0]
      have hpos := Nat.pos_of_ne_zero h0
      refine Settled.gathers (Nat.le_refl n) hpos ?_ (readSettled_settled hR hs hpos)
      intro got more s' hne hs'
      have := List.length_pos_iff.mpr hne
      exact ih (by omega) hs'

/-- Gathering gives what a source brings, as far as it goes. -/
theorem gather_gathers (hR : Delivers R) (hs : R s b ending) (n : Nat) :
    Gathers R s b ending n (gather s n) := gatherRounds_gathers hR n (Nat.le_refl _) hs

theorem pageRequest_pos (got : Nat) : 0 < pageRequest got := by
  unfold pageRequest probeSize pageSize
  split <;> omega

theorem gatherPageRounds_gathers (hR : Delivers R) :
    ∀ (fuel : Nat) {s : σ} {b : Bytes} {already n : Nat}, n ≤ fuel → R s b ending →
      Gathers R s b ending n (gatherPageRounds fuel s already n) := by
  intro fuel
  induction fuel with
  | zero =>
    intro s b already n hn hs
    obtain rfl : n = 0 := Nat.le_zero.mp hn
    exact .zero hs
  | succ fuel ih =>
    intro s b already n hn hs
    unfold gatherPageRounds
    by_cases h0 : n = 0
    · rw [if_pos h0, h0]
      exact .zero hs
    · rw [if_neg h0]
      have hpage := pageRequest_pos already
      refine Settled.gathers (Nat.min_le_left _ _) (Nat.pos_of_ne_zero h0) ?_
        (readSettled_settled hR hs (by omega))
      intro got more s' hne hs'
      have := List.length_pos_iff.mpr hne
      exact ih (by omega) hs'

/-- Gathering page by page gives the same. -/
theorem gatherPages_gathers (hR : Delivers R) (hs : R s b ending) (n : Nat) :
    Gathers R s b ending n (gatherPages s n) := gatherPageRounds_gathers hR n (Nat.le_refl _) hs

/-- What a source brings and how it ends is settled by its reads. -/
theorem Brings.unique {c : Bytes} {later : Option Failure} (h : Brings s b ending)
    (h' : Brings s c later) : b = c ∧ ending = later := by
  have hg := gather_gathers delivers_brings h (max b.length c.length + 1)
  have hg' := gather_gathers delivers_brings h' (max b.length c.length + 1)
  have hb : b.length < max b.length c.length + 1 := by omega
  have hc : c.length < max b.length c.length + 1 := by omega
  have hgot := hg.got.symm.trans hg'.got
  have hfailure := hg.failure.symm.trans hg'.failure
  rw [List.take_of_length_le (Nat.le_of_lt hb), List.take_of_length_le (Nat.le_of_lt hc)] at hgot
  rw [if_pos hb, if_pos hc] at hfailure
  exact ⟨hgot, hfailure⟩

/-- Bytes in front of others are gathered without meeting the end. -/
theorem gather_append (hR : Delivers R) {front rest : Bytes} (hs : R s (front ++ rest) ending) :
    ∃ s', gather s front.length = ⟨front, none, s'⟩ ∧ R s' rest ending := by
  have hg := gather_gathers hR hs front.length
  generalize gather s front.length = g at hg
  obtain ⟨got, failure, s'⟩ := g
  obtain rfl : failure = none := by
    rw [show failure = _ from hg.failure, if_neg (by simp)]
  obtain rfl : got = front := by
    rw [show got = _ from hg.got, List.take_left]
  have hafter := hg.after rfl
  rw [List.drop_left] at hafter
  exact ⟨s', rfl, hafter⟩

theorem gatherExactly_append (hR : Delivers R) {front rest : Bytes}
    (hs : R s (front ++ rest) ending) :
    ∃ s', gatherExactly s front.length = (.ok front, s') ∧ R s' rest ending := by
  obtain ⟨s', hgather, hs'⟩ := gather_append hR hs
  refine ⟨s', ?_, hs'⟩
  unfold gatherExactly
  simp only [hgather, Nat.lt_irrefl, if_false]

/-- A source that ends before the number of bytes is told to have done so. -/
theorem gatherExactly_short (hR : Delivers R) (hs : R s b none) {n : Nat} (hlt : b.length < n) :
    ∃ s', gatherExactly s n = (.error .bufferNotFilled, s') ∧ R s' [] none := by
  have hg := gather_gathers hR hs n
  have hok : (gather s n).failure = none := by rw [hg.failure, ite_self]
  have hshort : (gather s n).got.length < n := by
    rw [hg.got, List.length_take]
    omega
  have hafter := hg.after hok
  rw [List.drop_of_length_le (Nat.le_of_lt hlt)] at hafter
  refine ⟨(gather s n).source, ?_, hafter⟩
  unfold gatherExactly
  simp only [hok, if_pos hshort]

end Source

/-! ## Byte strings -/

namespace ByteSource

open Source

/-- A byte string brings itself. -/
theorem delivers : Delivers fun (s : ByteSource) b ending => s.rest = b ∧ ending = none := by
  rintro s b ending n ⟨rfl, rfl⟩ hn
  show Delivery _ s s.rest none (.done (s.rest.take n), ⟨s.rest.drop n⟩)
  by_cases h : s.rest = []
  · rw [h, List.take_nil]
    exact .ended rfl rfl ⟨List.drop_nil, rfl⟩
  · have hpos := List.length_pos_iff.mpr h
    refine .bytes ?_ (List.take_append_drop n s.rest).symm ⟨rfl, rfl⟩ ?_
    · intro hnil
      have := congrArg List.length hnil
      rw [List.length_take, List.length_nil] at this
      omega
    · show (s.rest.drop n).length < s.rest.length
      rw [List.length_drop]
      omega

/-- Asking again after the end leaves the same. -/
theorem rests : Rests fun (s : ByteSource) b ending => s.rest = b ∧ ending = none := by
  intro s n _
  show (s.rest.drop n).length ≤ s.rest.length
  rw [List.length_drop]
  exact Nat.sub_le _ _

theorem brings (b : Bytes) : Brings (⟨b⟩ : ByteSource) b none := ⟨_, delivers, rfl, rfl⟩

/-- A byte string gives what is asked for and keeps the rest. -/
theorem gathered_eq {t : ByteSource} {n : Nat} {g : Gathered ByteSource}
    (h : Gathers (fun (t : ByteSource) b ending => t.rest = b ∧ ending = none) t t.rest none n g) :
    g = ⟨t.rest.take n, none, ⟨t.rest.drop n⟩⟩ := by
  have hok : g.failure = none := by rw [h.failure]; split <;> rfl
  have hafter := (h.after hok).1
  obtain ⟨got, failure, source⟩ := g
  obtain rfl : failure = none := hok
  obtain rfl : got = t.rest.take n := h.got
  obtain ⟨rest⟩ := source
  obtain rfl : rest = t.rest.drop n := hafter
  rfl

theorem gather_eq (t : ByteSource) (n : Nat) :
    gather t n = ⟨t.rest.take n, none, ⟨t.rest.drop n⟩⟩ :=
  gathered_eq (gather_gathers delivers ⟨rfl, rfl⟩ n)

theorem gatherPages_eq (t : ByteSource) (n : Nat) :
    gatherPages t n = ⟨t.rest.take n, none, ⟨t.rest.drop n⟩⟩ :=
  gathered_eq (gatherPages_gathers delivers ⟨rfl, rfl⟩ n)

end ByteSource

/-! ## The front part of a source -/

namespace Limited

open Source

variable {σ : Type} [Source σ] {R : Promise σ} {tail : Bytes} {later : Option Failure}

/-- The front part brings what stands before the tail. -/
def Front (R : Promise σ) (tail : Bytes) (later : Option Failure) : Promise (Limited σ) :=
  fun s b ending => ending = none ∧ s.left = b.length ∧ R s.inner (b ++ tail) later

theorem delivers (hR : Delivers R) : Delivers (Front R tail later) := by
  rintro s b ending n ⟨rfl, hleft, hs⟩ hn
  show Delivery _ s b none (if s.left = 0 then _ else _)
  by_cases h0 : s.left = 0
  · rw [if_pos h0]
    have hb : b = [] := List.length_eq_zero_iff.mp (by omega)
    subst hb
    exact .ended rfl rfl ⟨rfl, hleft, hs⟩
  · rw [if_neg h0]
    have hne : b ++ tail ≠ [] := by
      intro h
      rw [(List.append_eq_nil_iff.mp h).1] at hleft
      exact h0 hleft
    have hle := Source.read_le s.inner (min n s.left)
    have hd := hR s.inner _ later (min n s.left) hs (by omega)
    generalize Source.read s.inner (min n s.left) = r at hd hle
    cases hd with
    | @bytes got more t hgot hb ht hlt =>
      have hlen : got.length ≤ b.length := by
        have := hle got rfl
        omega
      -- what was read is a front part of `b`, since no more than `left` was asked for
      obtain ⟨rest, rfl, rfl⟩ : ∃ rest, b = got ++ rest ∧ more = rest ++ tail := by
        refine ⟨b.drop got.length, ?_, ?_⟩
        · have := congrArg (List.take got.length) hb
          rw [List.take_append_of_le_length hlen, List.take_left] at this
          rw [← this, List.length_take, Nat.min_eq_left hlen, List.take_append_drop]
        · have := congrArg (List.drop got.length) hb
          rw [List.drop_append_of_le_length hlen, List.drop_left] at this
          exact this.symm
      refine .bytes hgot rfl ⟨rfl, ?_, ht⟩ hlt
      show s.left - got.length = rest.length
      rw [hleft, List.length_append]
      omega
    | interrupted ht hlt => exact .interrupted ⟨rfl, hleft, ht⟩ hlt
    | ended hb => exact absurd hb hne
    | failed hb => exact absurd hb hne

/-- The end of a front part is reached without a look at the source behind it. -/
theorem rests : Rests (Front R tail later) := by
  rintro s n ⟨-, hleft, -⟩
  have hend : read s n = (.done [], s) := if_pos hleft
  exact Nat.le_of_eq (by rw [hend])

end Limited

/-! ## Fetching in large pieces -/

namespace Buffered

open Source

variable {σ : Type} [Source σ] {R : Promise σ} {s : Buffered σ} {b : Bytes}
  {ending : Option Failure}

/-- What was fetched and not handed out comes first, then what the source still brings. -/
def Over (R : Promise σ) : Promise (Buffered σ) := fun s b ending =>
  0 < s.capacity ∧ ∃ more, b = s.buffer ++ more ∧ R s.inner more ending

/-- What fetching a piece comes to. -/
inductive Filled (R : Promise σ) (s : Buffered σ) (b : Bytes) (ending : Option Failure) :
    Outcome Unit × Buffered σ → Prop where
  | ready {t : Buffered σ} : t.buffer ≠ [] → Over R t b ending → turns t ≤ turns s →
    Filled R s b ending (.done (), t)
  | ended {t : Buffered σ} : t.buffer = [] → b = [] → ending = none → Over R t [] none →
    (Rests R → turns t ≤ turns s) → Filled R s b ending (.done (), t)
  | interrupted {t : Buffered σ} : Over R t b ending → turns t < turns s →
    Filled R s b ending (.interrupted, t)
  | failed {f : Failure} {t : Buffered σ} : b = [] → ending = some f →
    Filled R s b ending (.failed f, t)

theorem turns_eq (s : Buffered σ) :
    turns s = s.buffer.length + (s.capacity + 1) * turns s.inner := rfl

/-- A read below has fetched no more than fits. -/
theorem turns_lt {t : σ} {got : Bytes} (hgot : got.length ≤ s.capacity)
    (hlt : turns t < turns s.inner) :
    turns ({ s with inner := t, buffer := got } : Buffered σ) < turns s := by
  have := Nat.mul_le_mul_left (s.capacity + 1) (Nat.succ_le_of_lt hlt)
  rw [Nat.mul_succ] at this
  rw [turns_eq, turns_eq]
  show got.length + (s.capacity + 1) * turns t < _
  omega

theorem fill_filled (hR : Delivers R) (hs : Over R s b ending) :
    Filled R s b ending s.fill := by
  obtain ⟨hcap, more, rfl, hmore⟩ := hs
  unfold fill
  by_cases hempty : s.buffer = []
  · rw [if_pos (by rw [hempty]; rfl), hempty, List.nil_append]
    have hle := Source.read_le s.inner s.capacity
    have hd := hR s.inner more ending s.capacity hmore hcap
    have hrest : more = [] → ending = none → Rests R →
        turns (Source.read s.inner s.capacity).2 ≤ turns s.inner := by
      rintro rfl rfl hq
      exact hq s.inner s.capacity hmore
    generalize Source.read s.inner s.capacity = r at hd hle hrest
    cases hd with
    | @bytes got rest t hgot hb ht hlt =>
      exact .ready hgot ⟨hcap, rest, hb, ht⟩ (Nat.le_of_lt (turns_lt (hle got rfl) hlt))
    | @interrupted t ht hlt =>
      exact .interrupted ⟨hcap, more, rfl, ht⟩ (turns_lt (Nat.zero_le _) hlt)
    | @ended t hb he ht =>
      refine .ended rfl hb he ⟨hcap, [], rfl, ht⟩ ?_
      intro hq
      rw [turns_eq, turns_eq, hempty]
      exact Nat.add_le_add_left (Nat.mul_le_mul_left _ (hrest hb he hq)) 0
    | failed hb he => exact .failed hb he
  · rw [if_neg (by rwa [List.isEmpty_iff])]
    exact .ready hempty ⟨hcap, more, rfl, hmore⟩ (Nat.le_refl _)

theorem delivers (hR : Delivers R) : Delivers (Over R) := by
  intro s b ending n hs hn
  show Delivery _ s b ending (readOnce s n)
  unfold readOnce
  by_cases hpass : s.buffer.isEmpty && s.capacity ≤ n
  · rw [if_pos hpass]
    rw [Bool.and_eq_true, List.isEmpty_iff] at hpass
    obtain ⟨hcap, more, rfl, hmore⟩ := hs
    rw [hpass.1, List.nil_append]
    have hd := hR s.inner more ending n hmore hn
    generalize Source.read s.inner n = r at hd
    cases hd with
    | bytes hgot hb ht hlt =>
      exact .bytes hgot hb ⟨hcap, _, rfl, ht⟩ (turns_lt (Nat.zero_le _) hlt)
    | interrupted ht hlt =>
      exact .interrupted ⟨hcap, _, rfl, ht⟩ (turns_lt (Nat.zero_le _) hlt)
    | ended hb he ht => exact .ended hb he ⟨hcap, _, rfl, ht⟩
    | failed hb he => exact .failed hb he
  · rw [if_neg hpass]
    have hf := fill_filled hR hs
    generalize s.fill = r at hf
    cases hf with
    | @ready t hne ht hle =>
      obtain ⟨hcap, more, rfl, hmore⟩ := ht
      have hpos := List.length_pos_iff.mpr hne
      refine .bytes ?_ ?_ ⟨hcap, more, rfl, hmore⟩ ?_
      · intro hnil
        have := congrArg List.length hnil
        rw [List.length_take, List.length_nil] at this
        omega
      · rw [← List.append_assoc, List.take_append_drop]
      · rw [turns_eq] at hle ⊢
        simp only [List.length_drop]
        omega
    | @ended t hnil hb he ht =>
      have htake : t.take n = (.done [], t) := by
        unfold take
        rw [hnil, List.take_nil, List.drop_nil, ← hnil]
      show Delivery (Over R) s b ending (t.take n)
      rw [htake]
      exact .ended hb he ht
    | interrupted ht hlt => exact .interrupted ht hlt
    | failed hb he => exact .failed hb he

end Buffered

/-! ## Sources that can be read again -/

namespace SeekableSource

open Source

variable {σ : Type} [SeekableSource σ]

/-- A promise under which a source can be read from the start as often as one likes; `K` marks its
states between two such readings. -/
structure Rewinds (R : Promise σ) (K : σ → Prop) (content : Bytes) : Prop where
  delivers : Delivers R
  keeps : ∀ {s : σ} {b : Bytes} {ending : Option Failure}, R s b ending → K s
  toEnd : ∀ {s : σ}, K s → ∃ s', SeekableSource.toEnd s = (.ok content.length, s') ∧ K s'
  toStart : ∀ {s : σ}, K s → ∃ s', SeekableSource.toStart s = (.ok (), s') ∧ R s' content none

/-- A source holds the bytes: it tells their number and brings them from the start, without a
failure, as often as it is asked. -/
def Holds (s : σ) (content : Bytes) : Prop :=
  ∃ (R : Promise σ) (K : σ → Prop), Rewinds R K content ∧ K s

end SeekableSource

/-- What is taken behind a position moves the position on by its length. -/
theorem drop_eq_take_append (b : Bytes) (position n : Nat) :
    b.drop position =
      (b.drop position).take n ++ b.drop (position + ((b.drop position).take n).length) := by
  rw [← List.drop_drop, List.length_take]
  rcases Nat.le_total (b.drop position).length n with hle | hle
  · rw [Nat.min_eq_right hle, List.take_of_length_le hle, List.drop_length, List.append_nil]
  · rw [Nat.min_eq_left hle, List.take_append_drop]

namespace ScriptedSource

open Source SeekableSource

variable {content : Bytes} {s : ScriptedSource}

/-- A scripted source without faults: reads may be short or interrupted, but none fails. -/
structure Faultless (content : Bytes) (s : ScriptedSource) : Prop where
  data : s.data.toList = content
  pos_le : s.pos ≤ content.length
  chunk : s.chunk ≠ some 0
  failAt : s.failAt = none
  failSeek : s.failSeek = none
  claimedEnd : s.claimedEnd = none

/-- It brings what stands behind its position. -/
def Reading (content : Bytes) : Promise ScriptedSource := fun s b ending =>
  Faultless content s ∧ b = content.drop s.pos ∧ ending = none

theorem faultless_ofBytes (b : Bytes) : Faultless b (ofBytes b) where
  data := rfl
  pos_le := Nat.zero_le _
  chunk := by simp [ofBytes]
  failAt := rfl
  failSeek := rfl
  claimedEnd := rfl

/-- One read delivers the bytes behind the position, as many as the script lets through. -/
theorem Faultless.piece (h : Faultless content s) (n : Nat) :
    s.piece n = (content.drop s.pos).take (atMost s.chunk n) := by
  have harmed : s.armed = none := by simp [armed, h.failAt]
  rw [← h.data]
  simp only [ScriptedSource.piece, harmed, Option.map_none, atMost, Array.toList_extract,
    List.extract_eq_take_drop, Nat.add_sub_cancel_left]

theorem Faultless.blocked (h : Faultless content s) : s.blocked = none := by
  have harmed : s.armed = none := by simp [armed, h.failAt]
  simp only [ScriptedSource.blocked, harmed]

theorem Faultless.length_piece (h : Faultless content s) (n : Nat) :
    (s.piece n).length = min (atMost s.chunk n) (content.drop s.pos).length := by
  rw [h.piece, List.length_take]

/-- A read takes its piece off the front of what stands behind the position. -/
theorem Faultless.drop_eq (h : Faultless content s) (n : Nat) :
    content.drop s.pos = s.piece n ++ content.drop (s.pos + (s.piece n).length) := by
  rw [h.piece]
  exact drop_eq_take_append content s.pos _

theorem Faultless.reading (h : Faultless content s) (n : Nat) :
    Reading content { s with reads := s.reads + 1, pos := s.pos + (s.piece n).length }
      (content.drop (s.pos + (s.piece n).length)) none := by
  refine ⟨⟨h.data, ?_, h.chunk, h.failAt, h.failSeek, h.claimedEnd⟩, rfl, rfl⟩
  have hlen := h.length_piece n
  rw [List.length_drop] at hlen
  have := h.pos_le
  show s.pos + (s.piece n).length ≤ content.length
  omega

/-- A read that brings something saves a turn, though the next one may be interrupted. -/
theorem turns_read_lt (s : ScriptedSource) {k : Nat} (hk : 0 < k) (hle : s.pos + k ≤ s.data.size) :
    turns { s with reads := s.reads + 1, pos := s.pos + k } < turns s := by
  show 2 * (s.data.size - (s.pos + k)) + (if _ then 1 else 0) <
    2 * (s.data.size - s.pos) + (if _ then 1 else 0)
  split <;> split <;> omega

/-- An interruption saves a turn, since the read after it is not interrupted. -/
theorem turns_interrupted_lt (s : ScriptedSource)
    (hint : (s.interrupts && s.reads % 2 == 0) = true) :
    turns { s with reads := s.reads + 1 } < turns s := by
  show 2 * (s.data.size - s.pos) + (if s.interrupts && (s.reads + 1) % 2 == 0 then 1 else 0) <
    2 * (s.data.size - s.pos) + (if s.interrupts && s.reads % 2 == 0 then 1 else 0)
  rw [if_pos hint]
  rw [Bool.and_eq_true, beq_iff_eq] at hint
  have hodd : ((s.reads + 1) % 2 == 0) = false := beq_eq_false_iff_ne.mpr (by omega)
  rw [hodd, Bool.and_false]
  exact Nat.lt_succ_self _

theorem delivers : Delivers (Reading content) := by
  rintro s b ending n ⟨hs, rfl, rfl⟩ hn
  show Delivery _ s (content.drop s.pos) none (readOnce s n)
  unfold readOnce
  by_cases hint : s.interrupts && s.reads % 2 == 0
  · rw [if_pos hint]
    refine .interrupted ?_ (turns_interrupted_lt s hint)
    exact ⟨⟨hs.data, hs.pos_le, hs.chunk, hs.failAt, hs.failSeek, hs.claimedEnd⟩, rfl, rfl⟩
  · rw [if_neg hint, hs.blocked]
    have hnext := hs.reading n
    have hlen := hs.length_piece n
    by_cases hend : content.drop s.pos = []
    · have hnil : s.piece n = [] := by rw [hs.piece, hend, List.take_nil]
      rw [hnil] at hnext ⊢
      rw [List.length_nil, Nat.add_zero, hend] at hnext
      exact .ended hend rfl hnext
    · have hleft := List.length_pos_iff.mpr hend
      have hpos := atMost_pos hs.chunk hn
      have hpiece : 0 < (s.piece n).length := by omega
      refine .bytes (List.length_pos_iff.mp hpiece) (hs.drop_eq n) hnext ?_
      apply turns_read_lt s hpiece
      rw [← Array.length_toList, hs.data]
      rw [List.length_drop] at hlen hleft
      omega

/-- A source without faults holds its bytes. -/
theorem rewinds : Rewinds (Reading content) (Faultless content) content where
  delivers := delivers
  keeps h := h.1
  toEnd {s} h := by
    have hsize : s.data.size = content.length := by rw [← h.data, Array.length_toList]
    refine ⟨{ s with seeks := s.seeks + 1, pos := content.length }, ?_,
      ⟨h.data, Nat.le_refl _, h.chunk, h.failAt, h.failSeek, h.claimedEnd⟩⟩
    show seek s (s.claimedEnd.getD s.data.size) = _
    simp only [seek, h.failSeek, h.claimedEnd, Option.getD_none, hsize]
  toStart {s} h := by
    refine ⟨{ s with seeks := s.seeks + 1, pos := 0 }, ?_,
      ⟨h.data, Nat.zero_le _, h.chunk, h.failAt, h.failSeek, h.claimedEnd⟩, rfl, rfl⟩
    show rewind s = _
    simp only [rewind, seek, h.failSeek]
    rfl

theorem holds_ofBytes (b : Bytes) : Holds (ofBytes b) b :=
  ⟨_, _, rewinds, faultless_ofBytes b⟩

/-- A source without faults brings what stands behind its position. -/
theorem Faultless.brings (h : Faultless content s) : Brings s (content.drop s.pos) none :=
  ⟨_, delivers, h, rfl, rfl⟩

theorem brings_ofBytes (b : Bytes) : Brings (ofBytes b) b none := (faultless_ofBytes b).brings

end ScriptedSource
end ChatBackup
