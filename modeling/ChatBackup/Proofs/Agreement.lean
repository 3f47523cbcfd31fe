import ChatBackup.Proofs.Delivery

/-!
# Sources that cannot be told apart

Whoever gathers bytes sees what was gathered and whether the source failed. `Agrees S` says of a
relation between the states of two sources that gathering comes to the same on both and leaves
states that are related again. After a failure nothing is said, because nobody reads on there.

A relation agrees for one of two reasons:

> `agrees_together`: both sources bring the same bytes and end in the same way, however the bytes
> arrive.
> `Twins.agrees`: single reads come to the same. That needs no knowledge of what the sources bring.
-/

namespace ChatBackup

namespace Source

variable {σ τ : Type} [Source σ] [Source τ] {S : σ → τ → Prop} {s : σ} {t : τ} {n : Nat}

/-- Two results are the same, and so are the states left if there is no error. -/
inductive SameResult {σ τ ε α : Type} (S : σ → τ → Prop) :
    Except ε α × σ → Except ε α × τ → Prop where
  | ok {s : σ} {t : τ} (a : α) : S s t → SameResult S (.ok a, s) (.ok a, t)
  | error {s : σ} {t : τ} (e : ε) : SameResult S (.error e, s) (.error e, t)

/-- The same was gathered, and if there was no failure the same can be gathered next. -/
inductive SameGathered {σ τ : Type} (S : σ → τ → Prop) : Gathered σ → Gathered τ → Prop where
  | done {s : σ} {t : τ} (got : Bytes) : S s t → SameGathered S ⟨got, none, s⟩ ⟨got, none, t⟩
  | failed {s : σ} {t : τ} (got : Bytes) (f : Failure) :
    SameGathered S ⟨got, some f, s⟩ ⟨got, some f, t⟩

/-- Gathering cannot tell related states apart. -/
structure Agrees (S : σ → τ → Prop) : Prop where
  gather : ∀ {s : σ} {t : τ} (n : Nat), S s t → SameGathered S (gather s n) (gather t n)
  gatherPages : ∀ {s : σ} {t : τ} (n : Nat), S s t →
    SameGathered S (gatherPages s n) (gatherPages t n)

/-! ## Sources that bring the same -/

section Together

variable {R : Promise σ} {R' : Promise τ} {b : Bytes} {ending : Option Failure}

/-- Both states promise the same bytes and the same end. -/
def Together (R : Promise σ) (R' : Promise τ) (s : σ) (t : τ) : Prop :=
  ∃ b ending, R s b ending ∧ R' t b ending

theorem SameGathered.of_gathers {g : Gathered σ} {h : Gathered τ}
    (hg : Gathers R s b ending n g) (hh : Gathers R' t b ending n h) :
    SameGathered (Together R R') g h := by
  obtain ⟨got, failure, s'⟩ := g
  obtain ⟨got', failure', t'⟩ := h
  obtain rfl : got = got' := hg.got.trans hh.got.symm
  obtain rfl : failure = failure' := hg.failure.trans hh.failure.symm
  cases failure with
  | none => exact .done _ ⟨_, _, hg.after rfl, hh.after rfl⟩
  | some f => exact .failed _ f

/-- How bytes arrive cannot be seen by gathering them. -/
theorem agrees_together (hR : Delivers R) (hR' : Delivers R') : Agrees (Together R R') where
  gather n h := by
    obtain ⟨b, ending, hs, ht⟩ := h
    exact .of_gathers (gather_gathers hR hs n) (gather_gathers hR' ht n)
  gatherPages n h := by
    obtain ⟨b, ending, hs, ht⟩ := h
    exact .of_gathers (gatherPages_gathers hR hs n) (gatherPages_gathers hR' ht n)

end Together

/-! ## Sources that are read alike -/

/-- One request comes to the same on both sides, without an interruption. -/
inductive Twin {σ τ α : Type} (S : σ → τ → Prop) :
    Outcome α × σ → Outcome α × τ → Prop where
  | done {s : σ} {t : τ} (a : α) : S s t → Twin S (.done a, s) (.done a, t)
  | failed {s : σ} {t : τ} (f : Failure) : Twin S (.failed f, s) (.failed f, t)

/-- Related states stay related as long as both are asked for the same. -/
def Twins (S : σ → τ → Prop) : Prop :=
  ∀ (s : σ) (t : τ) (n : Nat), S s t → 0 < n → Twin S (read s n) (read t n)

theorem Twins.readSettled (hS : Twins S) (h : S s t) (hn : 0 < n) :
    SameResult S (readSettled s n) (readSettled t n) := by
  have hread := hS s t n h hn
  unfold Source.readSettled
  generalize read s n = x at hread
  generalize read t n = y at hread
  cases hread with
  | done b hafter => exact .ok b hafter
  | failed f => exact .error f

omit [Source σ] [Source τ] in
/-- One settled read and what is gathered after it. -/
theorem SameResult.gathered {next : Bytes → σ → Gathered σ} {next' : Bytes → τ → Gathered τ}
    (hnext : ∀ got {s : σ} {t : τ}, S s t → SameGathered S (next got s) (next' got t))
    {x : Except Failure Bytes × σ} {y : Except Failure Bytes × τ} : SameResult S x y →
    SameGathered S
      (match x with
      | (.error e, s') => ⟨[], some e, s'⟩
      | (.ok [], s') => ⟨[], none, s'⟩
      | (.ok got, s') => { next got s' with got := got ++ (next got s').got })
      (match y with
      | (.error e, t') => ⟨[], some e, t'⟩
      | (.ok [], t') => ⟨[], none, t'⟩
      | (.ok got, t') => { next' got t' with got := got ++ (next' got t').got }) := by
  intro h
  cases h with
  | error e => exact .failed [] e
  | @ok s' t' got hafter =>
    cases got with
    | nil => exact .done [] hafter
    | cons x got =>
      have hmore := hnext (x :: got) hafter
      simp only
      generalize next (x :: got) s' = g at hmore
      generalize next' (x :: got) t' = g' at hmore
      cases hmore with
      | done more hend => exact .done _ hend
      | failed more f => exact .failed _ f

theorem Twins.gatherRounds (hS : Twins S) : ∀ (fuel : Nat) {s : σ} {t : τ} (n : Nat), S s t →
    SameGathered S (gatherRounds fuel s n) (gatherRounds fuel t n) := by
  intro fuel
  induction fuel with
  | zero => intro s t n h; exact .done [] h
  | succ fuel ih =>
    intro s t n h
    unfold Source.gatherRounds
    by_cases h0 : n = 0
    · rw [if_pos h0, if_pos h0]
      exact .done [] h
    · rw [if_neg h0, if_neg h0]
      refine SameResult.gathered ?_ (hS.readSettled h (Nat.pos_of_ne_zero h0))
      intro got s' t' hafter
      exact ih _ hafter

theorem Twins.gatherPageRounds (hS : Twins S) : ∀ (fuel : Nat) {s : σ} {t : τ} (already n : Nat),
    S s t → SameGathered S (gatherPageRounds fuel s already n)
      (gatherPageRounds fuel t already n) := by
  intro fuel
  induction fuel with
  | zero => intro s t already n h; exact .done [] h
  | succ fuel ih =>
    intro s t already n h
    unfold Source.gatherPageRounds
    by_cases h0 : n = 0
    · rw [if_pos h0, if_pos h0]
      exact .done [] h
    · rw [if_neg h0, if_neg h0]
      have hpage := pageRequest_pos already
      have hpos : 0 < min n (pageRequest already) := by omega
      refine SameResult.gathered ?_ (hS.readSettled h hpos)
      intro got s' t' hafter
      exact ih _ _ hafter

/-- Both states keep a promise, though not necessarily the same one. -/
def Kept (R : Promise σ) (R' : Promise τ) (S : σ → τ → Prop) (s : σ) (t : τ) : Prop :=
  S s t ∧ (∃ b ending, R s b ending) ∧ ∃ b ending, R' t b ending

/-- A promise that a read keeps is not lost unless the read fails. -/
theorem Delivery.kept {R : Promise σ} {b got : Bytes} {ending : Option Failure} {s' : σ}
    (h : Delivery R s b ending (.done got, s')) : ∃ b' ending', R s' b' ending' := by
  cases h with
  | bytes _ _ hR _ => exact ⟨_, _, hR⟩
  | ended _ _ hR => exact ⟨_, _, hR⟩

theorem Twins.kept {R : Promise σ} {R' : Promise τ} (hS : Twins S) (hR : Delivers R)
    (hR' : Delivers R') : Twins (Kept R R' S) := by
  intro s t n h hn
  obtain ⟨hst, ⟨b, ending, hs⟩, b', ending', ht⟩ := h
  have hread := hS s t n hst hn
  have hd := hR s b ending n hs hn
  have hd' := hR' t b' ending' n ht hn
  generalize read s n = x at hread hd
  generalize read t n = y at hread hd'
  cases hread with
  | done got hafter => exact .done got ⟨hafter, hd.kept, hd'.kept⟩
  | failed f => exact .failed f

/-- Sources that are read alike are gathered from alike. -/
theorem Twins.agrees (hS : Twins S) : Agrees S where
  gather n h := hS.gatherRounds n n h
  gatherPages n h := hS.gatherPageRounds n 0 n h

end Source

/-! ## Byte strings with an end of their own -/

/-- A byte string as a source that ends cleanly or with a failure. -/
structure EndingSource where
  /-- The bytes not read yet. -/
  rest : Bytes
  /-- The failure at the end, if there is one. -/
  ending : Option Failure

namespace EndingSource

open Source

/-- One read. -/
def readOnce (s : EndingSource) (n : Nat) : Outcome Bytes × EndingSource :=
  match s.rest, s.ending with
  | [], some f => (.failed f, s)
  | rest, _ => (.done (rest.take n), { s with rest := rest.drop n })

instance : Source EndingSource where
  read := readOnce
  turns s := s.rest.length
  read_le s n b h := by
    unfold readOnce at h
    split at h
    · cases h
    · cases h
      exact List.length_take_le _ _

/-- It promises what it has. -/
def Has : Promise EndingSource := fun s b ending => s.rest = b ∧ s.ending = ending

theorem delivers : Delivers Has := by
  rintro ⟨rest, later⟩ b ending n ⟨rfl, rfl⟩ hn
  show Delivery _ _ rest later (readOnce ⟨rest, later⟩ n)
  cases rest with
  | nil =>
    cases later with
    | none =>
      have hend : readOnce ⟨[], none⟩ n = (.done [], ⟨[], none⟩) := by
        simp only [readOnce, List.take_nil, List.drop_nil]
      rw [hend]
      exact .ended rfl rfl ⟨rfl, rfl⟩
    | some f => exact .failed rfl rfl
  | cons x rest =>
    refine .bytes ?_ (List.take_append_drop n (x :: rest)).symm ⟨rfl, rfl⟩ ?_
    · intro hnil
      have := congrArg List.length hnil
      rw [List.length_take, List.length_cons, List.length_nil] at this
      omega
    · show ((x :: rest).drop n).length < (x :: rest).length
      rw [List.length_drop, List.length_cons]
      omega

theorem has (b : Bytes) (ending : Option Failure) : Has ⟨b, ending⟩ b ending := ⟨rfl, rfl⟩

end EndingSource
end ChatBackup
