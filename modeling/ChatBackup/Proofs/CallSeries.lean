import ChatBackup.Proofs.Delivery
import ChatBackup.Proofs.Logging

/-!
# Series of calls

What a user of a channel does is a series of calls: single writes, whole strings and flushes of a
sink (`SinkCall`), or reads of any sizes of a source. This file says what such a series comes to.

> `Swallows.run`: a sink that takes what it is offered at once grants every call, and the bytes of
> the calls are in its ledger one after another.
> `Enters.run`, `Through.run`: on a sink that fails as it likes a ledger goes on with what was
> taken, and a layer that hands everything on changes nothing.
> `HandsOver.readsOut`: a source whose reads are never interrupted is read out piece by piece in
> reads of any sizes. Then it ends, and from then on every read gives nothing, also after a failure.
-/

namespace ChatBackup

/-! ## Calls on a sink -/

/-- A call on a sink. -/
inductive SinkCall where
  | write (b : Bytes)
  | writeAll (b : Bytes)
  | flush
  deriving DecidableEq, Repr

/-- What a sink answers to a call. -/
inductive SinkAnswer where
  | write (outcome : Outcome Nat)
  | writeAll (result : Except Failure Unit)
  | flush (result : Except Failure Unit)

namespace SinkCall

/-- The bytes that a call carries. -/
def payload : SinkCall → Bytes
  | write b => b
  | writeAll b => b
  | flush => []

/-- The answer of a sink that takes the whole payload and is not interrupted. -/
def granted : SinkCall → SinkAnswer
  | write b => .write (.done b.length)
  | writeAll _ => .writeAll (.ok ())
  | flush => .flush (.ok ())

end SinkCall

namespace Sink

variable {σ : Type} [Sink σ]

/-- Makes a call. -/
def call (s : σ) : SinkCall → SinkAnswer × σ
  | .write b =>
    match write s b with
    | (r, s) => (.write r, s)
  | .writeAll b =>
    match writeAll s b with
    | (r, s) => (.writeAll r, s)
  | .flush =>
    match flush s with
    | (r, s) => (.flush r, s)

/-- Makes calls one after another. -/
def run : σ → List SinkCall → List SinkAnswer × σ
  | s, [] => ([], s)
  | s, c :: calls =>
    match call s c with
    | (answer, s) =>
      match run s calls with
      | (answers, s) => (answer :: answers, s)

theorem run_cons (s : σ) (c : SinkCall) (calls : List SinkCall) :
    run s (c :: calls) = ((call s c).1 :: (run (call s c).2 calls).1,
      (run (call s c).2 calls).2) := rfl

variable {T : Ledger σ} {s : σ} {d : Bytes}

theorem Swallows.call (hT : Swallows T) (hs : T s d) (c : SinkCall) :
    (Sink.call s c).1 = c.granted ∧ T (Sink.call s c).2 (d ++ c.payload) := by
  cases c with
  | write b =>
    obtain ⟨s', hw⟩ := hT.swallows b hs
    have hafter := hT.done hs hw
    rw [List.take_length] at hafter
    simp only [Sink.call, hw]
    exact ⟨rfl, hafter⟩
  | writeAll b =>
    obtain ⟨s', hw, hafter⟩ := hT.steady.takes.writeAll b hs
    simp only [Sink.call, hw]
    exact ⟨rfl, hafter⟩
  | flush =>
    obtain ⟨s', hf⟩ := hT.flushes hs
    have hafter := hT.flush hs hf
    simp only [Sink.call, hf, SinkCall.payload, List.append_nil]
    exact ⟨rfl, hafter⟩

/-- Every call is granted, and what the calls carry is taken in their order. -/
theorem Swallows.run (hT : Swallows T) (hs : T s d) (calls : List SinkCall) :
    (Sink.run s calls).1 = calls.map SinkCall.granted ∧
      T (Sink.run s calls).2 (d ++ calls.flatMap SinkCall.payload) := by
  induction calls generalizing s d with
  | nil =>
    rw [List.flatMap_nil, List.append_nil]
    exact ⟨rfl, hs⟩
  | cons c calls ih =>
    obtain ⟨hanswer, hafter⟩ := hT.call hs c
    obtain ⟨hanswers, hend⟩ := ih hafter
    rw [List.append_assoc] at hend
    rw [run_cons, hanswer, hanswers, List.map_cons, List.flatMap_cons]
    exact ⟨rfl, hend⟩

theorem Enters.call (hT : Enters T) (hs : T s d) (c : SinkCall) :
    ∃ more, T (Sink.call s c).2 (d ++ more) := by
  cases c with
  | write b => exact ⟨_, hT.write b hs⟩
  | writeAll b =>
    obtain ⟨front, -, hafter⟩ := hT.writeAll b hs
    exact ⟨front, hafter⟩
  | flush =>
    have hafter := hT.flush hs
    exact ⟨[], by rw [List.append_nil]; exact hafter⟩

/-- Whatever comes of calls, a ledger that holds through failures goes on with what was taken. -/
theorem Enters.run (hT : Enters T) (hs : T s d) (calls : List SinkCall) :
    ∃ more, T (Sink.run s calls).2 (d ++ more) := by
  induction calls generalizing s d with
  | nil => exact ⟨[], by rw [List.append_nil]; exact hs⟩
  | cons c calls ih =>
    obtain ⟨front, hafter⟩ := hT.call hs c
    obtain ⟨more, hend⟩ := ih hafter
    rw [List.append_assoc] at hend
    exact ⟨front ++ more, hend⟩

variable {α : Type} [Sink α] {below : α → σ}

theorem Through.call (h : Through below) (a : α) (c : SinkCall) :
    (call a c).1 = (call (below a) c).1 ∧ below (call a c).2 = (call (below a) c).2 := by
  cases c with
  | write b => exact (h.write a b).imp (congrArg SinkAnswer.write) id
  | writeAll b => exact (h.writeRounds b.length a b).imp (congrArg SinkAnswer.writeAll) id
  | flush => exact (h.flush a).imp (congrArg SinkAnswer.flush) id

/-- Calls through a layer come to what they come to without it. -/
theorem Through.run (h : Through below) (a : α) (calls : List SinkCall) :
    (run a calls).1 = (run (below a) calls).1 ∧
      below (run a calls).2 = (run (below a) calls).2 := by
  induction calls generalizing a with
  | nil => exact ⟨rfl, rfl⟩
  | cons c calls ih =>
    obtain ⟨hanswer, hafter⟩ := h.call a c
    obtain ⟨hanswers, hend⟩ := ih (Sink.call a c).2
    rw [run_cons, run_cons, hanswer, hanswers, ← hafter]
    exact ⟨rfl, hend⟩

end Sink

/-! ## Reads of a source -/

namespace Source

variable {σ : Type} [Source σ]

/-- The source before the read with number `i` of those that ask for the sizes given. -/
def stateAt : σ → (Nat → Nat) → Nat → σ
  | s, _, 0 => s
  | s, sizes, i + 1 => stateAt (read s (sizes 0)).2 (fun k => sizes (k + 1)) i

/-- What the read with number `i` comes to. -/
def answerAt (s : σ) (sizes : Nat → Nat) (i : Nat) : Outcome Bytes :=
  (read (stateAt s sizes i) (sizes i)).1

/-- In reads of the sizes given a source hands out the bytes piece by piece, then tells how it
ends, and from then on gives nothing. -/
def ReadsOut (s : σ) (sizes : Nat → Nat) (b : Bytes) (ending : Option Failure) : Prop :=
  ∃ pieces : List Bytes, pieces.flatten = b ∧ (∀ p ∈ pieces, p ≠ []) ∧
    (∀ (i : Nat) (h : i < pieces.length), answerAt s sizes i = .done pieces[i]) ∧
    answerAt s sizes pieces.length = ending.elim (.done []) .failed ∧
    ∀ i, pieces.length < i → answerAt s sizes i = .done []

variable {R : Promise σ} {s s' : σ} {sizes : Nat → Nat} {b more : Bytes} {ending : Option Failure}

/-- A source that ends at once. -/
theorem ReadsOut.nil (h : answerAt s sizes 0 = ending.elim (.done []) .failed)
    (hafter : ∀ i, answerAt (read s (sizes 0)).2 (fun k => sizes (k + 1)) i = .done []) :
    ReadsOut s sizes [] ending := by
  refine ⟨[], rfl, ?_, ?_, h, ?_⟩
  · intro p hp
    cases hp
  · intro i hi
    cases hi
  · intro i hi
    obtain ⟨k, rfl⟩ := Nat.exists_eq_add_of_lt hi
    rw [List.length_nil, Nat.zero_add]
    exact hafter k

/-- A source that gives a piece first. -/
theorem ReadsOut.cons {got : Bytes} (h : read s (sizes 0) = (.done got, s')) (hgot : got ≠ [])
    (hmore : ReadsOut s' (fun k => sizes (k + 1)) more ending) :
    ReadsOut s sizes (got ++ more) ending := by
  obtain ⟨pieces, rfl, hne, hpieces, hending, hafter⟩ := hmore
  have hshift : ∀ i, answerAt s sizes (i + 1) = answerAt s' (fun k => sizes (k + 1)) i := by
    intro i
    rw [answerAt, stateAt, h]
    rfl
  refine ⟨got :: pieces, List.flatten_cons, ?_, ?_, ?_, ?_⟩
  · intro p hp
    rcases List.mem_cons.mp hp with rfl | hp
    · exact hgot
    · exact hne p hp
  · intro i hi
    cases i with
    | zero => exact congrArg Prod.fst h
    | succ i =>
      rw [hshift, List.getElem_cons_succ]
      exact hpieces i (Nat.lt_of_succ_lt_succ hi)
  · rw [List.length_cons, hshift]
    exact hending
  · intro i hi
    obtain ⟨k, rfl⟩ := Nat.exists_eq_add_of_lt hi
    rw [hshift]
    exact hafter _ (by rw [List.length_cons]; omega)

/-- What one read comes to if it is not interrupted and a failure is the end. -/
inductive Handover (R : Promise σ) (b : Bytes) (ending : Option Failure) :
    Outcome Bytes × σ → Prop where
  | bytes {got more : Bytes} {s' : σ} : got ≠ [] → b = got ++ more → R s' more ending →
    Handover R b ending (.done got, s')
  | ended {s' : σ} : b = [] → ending = none → R s' [] none → Handover R b ending (.done [], s')
  | failed {f : Failure} {s' : σ} : b = [] → ending = some f → R s' [] none →
    Handover R b ending (.failed f, s')

/-- A promise that reads keep without an interruption, and that a failure leaves nothing of. -/
def HandsOver (R : Promise σ) : Prop :=
  ∀ s b ending n, R s b ending → 0 < n → Handover R b ending (read s n)

/-- After any number of reads a promise of something is left. -/
theorem HandsOver.stateAt (hR : HandsOver R) : ∀ (i : Nat) {s : σ} {sizes : Nat → Nat} {b : Bytes}
    {ending : Option Failure}, R s b ending → (∀ k, 0 < sizes k) →
    ∃ b' ending', R (stateAt s sizes i) b' ending' := by
  intro i
  induction i with
  | zero => intro s sizes b ending hs _; exact ⟨b, ending, hs⟩
  | succ i ih =>
    intro s sizes b ending hs hsizes
    have hread := hR s b ending (sizes 0) hs (hsizes 0)
    rw [Source.stateAt]
    generalize read s (sizes 0) = x at hread
    cases hread with
    | bytes _ _ hs' => exact ih hs' fun k => hsizes (k + 1)
    | ended _ _ hs' => exact ih hs' fun k => hsizes (k + 1)
    | failed _ _ hs' => exact ih hs' fun k => hsizes (k + 1)

/-- A source of which nothing is left gives nothing. -/
theorem HandsOver.answerAt_of_nil (hR : HandsOver R) : ∀ (i : Nat) {s : σ} {sizes : Nat → Nat},
    R s [] none → (∀ k, 0 < sizes k) → answerAt s sizes i = .done [] := by
  intro i
  induction i with
  | zero =>
    intro s sizes hs hsizes
    have hread := hR s [] none (sizes 0) hs (hsizes 0)
    rw [answerAt, Source.stateAt]
    generalize read s (sizes 0) = x at hread
    cases hread with
    | bytes hgot hb _ => exact absurd (List.append_eq_nil_iff.mp hb.symm).1 hgot
    | ended _ _ _ => rfl
    | failed _ he _ => cases he
  | succ i ih =>
    intro s sizes hs hsizes
    have hread := hR s [] none (sizes 0) hs (hsizes 0)
    rw [answerAt, Source.stateAt]
    generalize read s (sizes 0) = x at hread
    cases hread with
    | bytes hgot hb _ => exact absurd (List.append_eq_nil_iff.mp hb.symm).1 hgot
    | ended _ _ hs' => exact ih hs' fun k => hsizes (k + 1)
    | failed _ he _ => cases he

/-- Reads of any sizes bring what was promised. -/
theorem HandsOver.readsOut (hR : HandsOver R) (hs : R s b ending) (hsizes : ∀ k, 0 < sizes k) :
    ReadsOut s sizes b ending := by
  induction hlen : b.length using Nat.strongRecOn generalizing s sizes b with
  | ind n ih =>
    have hshift : ∀ k, 0 < sizes (k + 1) := fun k => hsizes (k + 1)
    have hread := hR s b ending (sizes 0) hs (hsizes 0)
    obtain ⟨x, s', hx⟩ : ∃ x s', read s (sizes 0) = (x, s') := ⟨_, _, rfl⟩
    rw [hx] at hread
    cases hread with
    | @bytes got more _ hgot hb hs' =>
      -- every piece leaves less to come
      subst hb
      have hpos := List.length_pos_iff.mpr hgot
      rw [List.length_append] at hlen
      exact .cons hx hgot (ih more.length (by omega) hs' hshift rfl)
    | ended hb he hs' =>
      subst hb he
      refine .nil (congrArg Prod.fst hx) ?_
      intro i
      rw [hx]
      exact hR.answerAt_of_nil i hs' hshift
    | failed hb he hs' =>
      subst hb he
      refine .nil (congrArg Prod.fst hx) ?_
      intro i
      rw [hx]
      exact hR.answerAt_of_nil i hs' hshift

end Source
end ChatBackup
