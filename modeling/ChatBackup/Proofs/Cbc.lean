import ChatBackup.Crypto.CbcStage
import ChatBackup.Proofs.Acceptance
import ChatBackup.Proofs.Delivery

/-!
# Whole strings in chained blocks

`Cbc.sealed` is a string of any length encrypted at once, `Cbc.opened` one decrypted, valid or not,
with the failure that it ends with. They are what the two stages come to:

> `CbcWriter.finish_ok`: what was written, in pieces of any size, is sent as its `sealed` form.
> `CbcReader.delivers`: a reader brings what `opened` makes of the ciphertext below it.
> `opened_sealed`: sealing is undone.

A string is best seen as whole blocks and a rest shorter than a block (`exists_blocks`): the
writer's invariant is that the blocks are encrypted and sent and the rest is pending, the reader's
that what is still to come depends only on the held bytes and the source below.
-/

namespace ChatBackup

namespace Block

theorem exists_toBytes {b : Bytes} (h : b.length = blockLength) : ∃ x : Block, x.toBytes = b := by
  match b, h with
  | [a0, a1, a2, a3, b0, b1, b2, b3, c0, c1, c2, c3, d0, d1, d2, d3], _ =>
    exact ⟨⟨⟨a0, a1, a2, a3⟩, ⟨b0, b1, b2, b3⟩, ⟨c0, c1, c2, c3⟩, ⟨d0, d1, d2, d3⟩⟩, rfl⟩

@[simp] theorem join_nil : join [] = [] := rfl

@[simp] theorem join_cons (x : Block) (bs : List Block) : join (x :: bs) = x.toBytes ++ join bs :=
  rfl

theorem join_append (bs cs : List Block) : join (bs ++ cs) = join bs ++ join cs := by
  simp [join]

@[simp] theorem length_join (bs : List Block) : (join bs).length = blockLength * bs.length := by
  induction bs with
  | nil => rfl
  | cons x bs ih =>
    rw [join_cons, List.length_append, ih, length_toBytes, List.length_cons, Nat.mul_succ]
    exact Nat.add_comm _ _

/-- Any string is whole blocks and a rest that is shorter than a block. -/
theorem exists_blocks (b : Bytes) :
    ∃ bs rest, b = join bs ++ rest ∧ rest.length < blockLength := by
  induction hlen : b.length using Nat.strongRecOn generalizing b with
  | ind n ih =>
    by_cases h : b.length < blockLength
    · exact ⟨[], b, rfl, h⟩
    · have h16 : blockLength = 16 := rfl
      obtain ⟨x, hx⟩ := exists_toBytes (b := b.take blockLength) (by
        rw [List.length_take]; omega)
      obtain ⟨bs, rest, hb, hrest⟩ := ih _ (by rw [← hlen, List.length_drop]; omega)
        (b.drop blockLength) rfl
      refine ⟨x :: bs, rest, ?_, hrest⟩
      rw [join_cons, hx, List.append_assoc, ← hb, List.take_append_drop]

theorem ofBytes_join_append (bs : List Block) (rest : Bytes) :
    ofBytes (join bs ++ rest) = bs ++ ofBytes rest := by
  induction bs with
  | nil => rfl
  | cons x bs ih => rw [join_cons, List.append_assoc, ofBytes_toBytes_append, ih]; rfl

/-- A string shorter than a block holds none. -/
theorem ofBytes_of_length_lt {b : Bytes} (h : b.length < blockLength) : ofBytes b = [] := by
  have h16 : blockLength = 16 := rfl
  unfold ofBytes
  split
  · simp only [List.length_cons] at h
    omega
  · rfl

/-- Whole blocks are all there is if the length is a multiple of a block's. -/
theorem join_ofBytes {b : Bytes} (h : b.length % blockLength = 0) : join (ofBytes b) = b := by
  obtain ⟨bs, rest, rfl, hrest⟩ := exists_blocks b
  rw [List.length_append, length_join, Nat.mul_add_mod, Nat.mod_eq_of_lt hrest] at h
  obtain rfl : rest = [] := List.length_eq_zero_iff.mp h
  rw [List.append_nil, ofBytes_join]

end Block

namespace Cbc

open Block

/-! ## Chains in parts -/

@[simp] theorem lastOf_nil (previous : Block) : lastOf previous [] = previous := rfl

@[simp] theorem lastOf_cons (previous e : Block) (es : List Block) :
    lastOf previous (e :: es) = lastOf e es := by
  simp [lastOf, List.getLast?_cons]

theorem lastOf_append (previous : Block) (es fs : List Block) :
    lastOf previous (es ++ fs) = lastOf (lastOf previous es) fs := by
  induction es generalizing previous with
  | nil => rfl
  | cons e es ih => rw [List.cons_append, lastOf_cons, lastOf_cons, ih]

@[simp] theorem length_encryptChain (c : BlockCipher) (previous : Block) (bs : List Block) :
    (encryptChain c previous bs).length = bs.length := by
  induction bs generalizing previous with
  | nil => rfl
  | cons b bs ih => rw [encryptChain, List.length_cons, ih, List.length_cons]

@[simp] theorem length_decryptChain (c : BlockCipher) (previous : Block) (es : List Block) :
    (decryptChain c previous es).length = es.length := by
  induction es generalizing previous with
  | nil => rfl
  | cons e es ih => rw [decryptChain, List.length_cons, ih, List.length_cons]

/-- A chain goes on from its last encrypted block. -/
theorem encryptChain_append (c : BlockCipher) (previous : Block) (bs cs : List Block) :
    encryptChain c previous (bs ++ cs) = encryptChain c previous bs ++
      encryptChain c (lastOf previous (encryptChain c previous bs)) cs := by
  induction bs generalizing previous with
  | nil => rfl
  | cons b bs ih =>
    rw [List.cons_append, encryptChain, encryptChain, ih, lastOf_cons, List.cons_append]

theorem decryptChain_append (c : BlockCipher) (previous : Block) (es fs : List Block) :
    decryptChain c previous (es ++ fs) = decryptChain c previous es ++
      decryptChain c (lastOf previous es) fs := by
  induction es generalizing previous with
  | nil => rfl
  | cons e es ih =>
    rw [List.cons_append, decryptChain, decryptChain, ih, lastOf_cons, List.cons_append]

/-! ## Sealing and opening at once -/

/-- Fills a string of any length up to a whole number of blocks. -/
def padded (d : Bytes) : Bytes :=
  let missing := blockLength - d.length % blockLength
  d ++ List.replicate missing (UInt8.ofNat missing)

/-- The padded string, encrypted. -/
def sealed (c : BlockCipher) (iv : Block) (d : Bytes) : Bytes :=
  join (encryptChain c iv (ofBytes (padded d)))

/-- What decrypting brings out and the failure that it ends with. A rest that is no block is not
decrypted. A last block without valid padding brings nothing out. -/
def opened (c : BlockCipher) (previous : Block) (x : Bytes) : Bytes × Option Failure :=
  let plain := join (decryptChain c previous (ofBytes x))
  if x = [] ∨ x.length % blockLength ≠ 0 then
    (plain, some (.cipherUnaligned (x.length % blockLength)))
  else
    let before := plain.take (plain.length - blockLength)
    match unpad (plain.drop (plain.length - blockLength)) with
    | some last => (before ++ last, none)
    | none => (before, some .cipherPadding)

theorem length_pad {b : Bytes} (h : b.length < blockLength) : (pad b).length = blockLength := by
  simp only [pad, List.length_append, List.length_replicate]
  omega

theorem length_unpad_le {b x : Bytes} (h : unpad b = some x) : x.length ≤ b.length := by
  unfold unpad at h
  simp only at h
  split at h
  · cases h
  · split at h
    · cases h
      rw [List.length_take]
      exact Nat.min_le_right _ _
    · cases h

/-- Only the rest behind the whole blocks is filled. -/
theorem padded_join_append (bs : List Block) {rest : Bytes} (h : rest.length < blockLength) :
    padded (join bs ++ rest) = join bs ++ pad rest := by
  unfold padded pad
  rw [List.length_append, length_join, Nat.mul_add_mod, Nat.mod_eq_of_lt h]
  simp only [List.append_assoc]

theorem sealed_join_append (c : BlockCipher) (iv : Block) (bs : List Block) {rest : Bytes}
    (h : rest.length < blockLength) :
    sealed c iv (join bs ++ rest) = join (encryptChain c iv bs) ++
      join (encryptChain c (lastOf iv (encryptChain c iv bs)) (ofBytes (pad rest))) := by
  rw [sealed, padded_join_append bs h, ofBytes_join_append, encryptChain_append, join_append]

/-- There is always a last block for the padding. -/
theorem length_sealed (c : BlockCipher) (iv : Block) (d : Bytes) :
    (sealed c iv d).length = blockLength * (d.length / blockLength + 1) := by
  obtain ⟨bs, rest, rfl, hrest⟩ := exists_blocks d
  have hpos : 0 < blockLength := by decide
  have hlast : (ofBytes (pad rest)).length = 1 := by
    have h := length_pad hrest
    have hjoin := congrArg List.length (join_ofBytes (b := pad rest) (by rw [h, Nat.mod_self]))
    rw [length_join, h] at hjoin
    exact Nat.eq_of_mul_eq_mul_left hpos (by rw [hjoin, Nat.mul_one])
  rw [sealed_join_append c iv bs hrest, List.length_append, length_join, length_join,
    length_encryptChain, length_encryptChain, hlast, List.length_append, length_join,
    Nat.mul_add_div hpos, Nat.div_eq_of_lt hrest, Nat.add_zero, Nat.mul_add]

/-- The whole blocks in front of something come out as they are decrypted. -/
theorem opened_join_append (c : BlockCipher) (previous : Block) (es : List Block) {x : Bytes}
    (hx : x ≠ []) :
    opened c previous (join es ++ x) =
      (join (decryptChain c previous es) ++ (opened c (lastOf previous es) x).1,
        (opened c (lastOf previous es) x).2) := by
  have hlen : (join es ++ x).length % blockLength = x.length % blockLength := by
    rw [List.length_append, length_join, Nat.mul_add_mod]
  have hnil : join es ++ x ≠ [] := fun h => hx (List.append_eq_nil_iff.mp h).2
  unfold opened
  simp only [hlen, ofBytes_join_append, decryptChain_append, join_append, hx, hnil, false_or]
  split
  · rfl
  next hmod =>
    have hmod : x.length % blockLength = 0 := Decidable.not_not.mp hmod
    -- the last block is in the rest
    have hge : blockLength ≤ (join (decryptChain c (lastOf previous es) (ofBytes x))).length := by
      have hpos := List.length_pos_iff.mpr hx
      have hjoin := congrArg List.length (join_ofBytes hmod)
      rw [length_join] at hjoin
      rw [length_join, length_decryptChain, hjoin]
      exact Nat.le_of_dvd hpos (Nat.dvd_of_mod_eq_zero hmod)
    have hsub : (join (decryptChain c previous es) ++
        join (decryptChain c (lastOf previous es) (ofBytes x))).length - blockLength =
        (join (decryptChain c previous es)).length +
          ((join (decryptChain c (lastOf previous es) (ofBytes x))).length - blockLength) := by
      rw [List.length_append]
      omega
    rw [hsub, List.take_length_add_append, List.drop_length_add_append]
    split
    · rw [List.append_assoc]
    · rfl

/-- Opening undoes sealing. -/
theorem opened_sealed (c : BlockCipher) (iv : Block) (d : Bytes) :
    opened c iv (sealed c iv d) = (d, none) := by
  obtain ⟨bs, rest, rfl, hrest⟩ := exists_blocks d
  have hpad := length_pad hrest
  have hjoin := join_ofBytes (b := pad rest) (by rw [hpad, Nat.mod_self])
  have hlast : ∀ q : Block,
      opened c q (join (encryptChain c q (ofBytes (pad rest)))) = (rest, none) := by
    intro q
    have hlen : (join (encryptChain c q (ofBytes (pad rest)))).length = blockLength := by
      rw [length_join, length_encryptChain, ← length_join, hjoin, hpad]
    have hnil : join (encryptChain c q (ofBytes (pad rest))) ≠ [] := by
      intro h
      rw [h] at hlen
      cases hlen
    unfold opened
    simp only [hlen, hnil, Nat.mod_self, false_or, ne_eq, not_true_eq_false, if_false,
      ofBytes_join, decryptChain_encryptChain, hjoin, hpad, Nat.sub_self, List.take_zero,
      List.drop_zero, unpad_pad _ hrest, List.nil_append]
  have hnil :
      join (encryptChain c (lastOf iv (encryptChain c iv bs)) (ofBytes (pad rest))) ≠ [] := by
    intro h
    have := hlast (lastOf iv (encryptChain c iv bs))
    rw [h] at this
    cases congrArg Prod.snd this
  rw [sealed_join_append c iv bs hrest, opened_join_append c iv _ hnil, hlast,
    decryptChain_encryptChain]

end Cbc

/-! ## The writing stage -/

namespace CbcWriter

open Block Cbc Sink

variable {σ : Type} [Sink σ] {T : Ledger σ} {cipher : BlockCipher} {iv : Block}
  {before d b : Bytes} {w w' : CbcWriter σ}

/-- The whole blocks of what was written are encrypted and sent after the bytes `before`, the rest
is pending. -/
def Over (T : Ledger σ) (cipher : BlockCipher) (iv : Block) (before : Bytes) :
    Ledger (CbcWriter σ) := fun w d =>
  w.cipher = cipher ∧ w.pending.length < blockLength ∧
    ∃ bs, d = join bs ++ w.pending ∧ w.previous = lastOf iv (encryptChain cipher iv bs) ∧
      T w.inner (before ++ join (encryptChain cipher iv bs))

omit [Sink σ] in
theorem over_start {inner : σ} (h : T inner before) :
    Over T cipher iv before (start inner cipher iv) [] := by
  refine ⟨rfl, Nat.succ_pos _, [], rfl, rfl, ?_⟩
  rw [encryptChain, join_nil, List.append_nil]
  exact h

/-- What is pending and what comes are cut into blocks, which are sent, and a rest. -/
theorem push_eq (w : CbcWriter σ) {cs : List Block} {rest : Bytes}
    (h : w.pending ++ b = join cs ++ rest) (hrest : rest.length < blockLength) :
    push w b =
      match writeAll w.inner (join (encryptChain w.cipher w.previous cs)) with
      | (.ok (), inner) =>
        (.ok (), { w with
          inner, previous := lastOf w.previous (encryptChain w.cipher w.previous cs)
          pending := rest })
      | (.error e, inner) =>
        (.error e, { w with
          inner, previous := lastOf w.previous (encryptChain w.cipher w.previous cs)
          pending := join (encryptChain w.cipher w.previous cs) ++ rest }) := by
  have hwhole : (join cs ++ rest).length - (join cs ++ rest).length % blockLength =
      (join cs).length := by
    rw [List.length_append, length_join, Nat.mul_add_mod, Nat.mod_eq_of_lt hrest,
      Nat.add_sub_cancel]
  unfold push
  simp only [h, hwhole, List.take_left, List.drop_left, ofBytes_join]
  split
  next h0 =>
    -- no block is whole: nothing is sent
    obtain rfl : cs = [] := by
      rw [length_join] at h0
      cases cs with
      | nil => rfl
      | cons c cs => cases h0
    rfl
  next => rfl

/-- A successful push has taken everything. -/
theorem push_ok (hT : Records T) (hw : Over T cipher iv before w d)
    (h : push w b = (.ok (), w')) : Over T cipher iv before w' (d ++ b) := by
  obtain ⟨rfl, -, bs, rfl, hprev, hsent⟩ := hw
  obtain ⟨cs, rest, hcut, hrest⟩ := exists_blocks (w.pending ++ b)
  rw [push_eq w hcut hrest] at h
  split at h
  next inner hwrite =>
    cases h
    refine ⟨rfl, hrest, bs ++ cs, ?_, ?_, ?_⟩
    · rw [List.append_assoc, hcut, join_append, List.append_assoc]
    · show lastOf w.previous (encryptChain w.cipher w.previous cs) = _
      rw [encryptChain_append, lastOf_append, ← hprev]
    · have := hT.writeAll hsent hwrite
      rw [List.append_assoc] at this
      rw [encryptChain_append, join_append, ← hprev]
      exact this
  next => cases h

theorem push_succeeds (hT : Takes T) (hw : Over T cipher iv before w d) (b : Bytes) :
    ∃ w', push w b = (.ok (), w') := by
  obtain ⟨-, -, bs, -, -, hsent⟩ := hw
  obtain ⟨cs, rest, hcut, hrest⟩ := exists_blocks (w.pending ++ b)
  obtain ⟨inner, hwrite⟩ := hT.writeAll_ok (join (encryptChain w.cipher w.previous cs)) hsent
  rw [push_eq w hcut hrest, hwrite]
  exact ⟨_, rfl⟩

theorem write_eq (w : CbcWriter σ) (b : Bytes) :
    write w b =
      match push w b with
      | (.ok (), w) => (.done b.length, w)
      | (.error e, w) => (.failed e, w) := rfl

theorem flush_eq (w : CbcWriter σ) :
    Sink.flush w = ((Sink.flush w.inner).1, { w with inner := (Sink.flush w.inner).2 }) := rfl

theorem records (hT : Records T) : Records (Over T cipher iv before) where
  done {w w' d b n} hw h := by
    rw [write_eq] at h
    split at h
    next v hpush =>
      cases h
      rw [List.take_length]
      exact push_ok hT hw hpush
    next => cases h
  interrupted {w w' d b} hw h := by
    rw [write_eq] at h
    split at h <;> cases h
  flush {w w' d} hw h := by
    rw [flush_eq] at h
    obtain ⟨hc, hp, bs, hd, hprev, hsent⟩ := hw
    cases hf : Sink.flush w.inner with
    | mk r inner =>
      rw [hf] at h
      cases h
      exact ⟨hc, hp, bs, hd, hprev, hT.flush hsent hf⟩

/-- Over a sink that takes bytes everything is taken at once. -/
theorem swallows (hT : Takes T) : Swallows (Over T cipher iv before) where
  toRecords := records hT.toRecords
  swallows {w d} b hw := by
    obtain ⟨w', hpush⟩ := push_succeeds hT hw b
    exact ⟨w', by rw [write_eq, hpush]⟩
  flushes {w d} hw := by
    obtain ⟨-, -, bs, -, -, hsent⟩ := hw
    obtain ⟨inner, hf⟩ := hT.flushes hsent
    exact ⟨{ w with inner }, by rw [flush_eq, hf]⟩

theorem finish_eq (h : w.pending.length < blockLength) :
    finish w =
      match writeAll w.inner
        (join (encryptChain w.cipher w.previous (ofBytes (pad w.pending)))) with
      | (.ok (), inner) => Sink.flush inner
      | (.error e, inner) => (.error e, inner) := by
  unfold finish
  rw [if_neg (by omega)]
  exact if_neg (by omega)

/-- After a successful end the sink below has the sealed form of all that was written. -/
theorem finish_ok (hT : Records T) (hw : Over T cipher iv before w d) {s : σ}
    (h : finish w = (.ok (), s)) : T s (before ++ sealed cipher iv d) := by
  obtain ⟨rfl, hp, bs, rfl, hprev, hsent⟩ := hw
  rw [finish_eq hp] at h
  split at h
  next inner hwrite =>
    have := hT.flush (hT.writeAll hsent hwrite) h
    rw [List.append_assoc] at this
    rw [sealed_join_append _ _ _ hp, ← hprev]
    exact this
  next => cases h

theorem finish_succeeds (hT : Takes T) (hw : Over T cipher iv before w d) :
    ∃ s, finish w = (.ok (), s) := by
  obtain ⟨-, hp, bs, -, -, hsent⟩ := hw
  obtain ⟨inner, hwrite, hinner⟩ := hT.writeAll
    (join (encryptChain w.cipher w.previous (ofBytes (pad w.pending)))) hsent
  obtain ⟨s, hf⟩ := hT.flushes hinner
  exact ⟨s, by rw [finish_eq hp, hwrite]; exact hf⟩

end CbcWriter

/-! ## The reading stage -/

namespace CbcReader

open Block Cbc Source

variable {σ : Type} [Source σ] {R : Promise σ} {r : CbcReader σ} {b : Bytes}
  {ending : Option Failure}

/-- Until the end of the ciphertext is met, what waits comes first and then what the held bytes and
the source below are decrypted to. Afterwards only what waits is to come. -/
def Over (R : Promise σ) : Promise (CbcReader σ) := fun r b ending =>
  (r.ended = true ∧ b = r.out ∧ ending = none) ∨
  (r.ended = false ∧ 0 < r.chunk ∧ r.held.length ≤ blockLength ∧ ∃ c, R r.inner c none ∧
    b = r.out ++ (opened r.cipher r.previous (r.held ++ c)).1 ∧
    ending = (opened r.cipher r.previous (r.held ++ c)).2)

omit [Source σ] in
theorem over_start {inner : σ} {c : Bytes} (cipher : BlockCipher) (iv : Block)
    (bufferLength : Nat) (h : R inner c none) :
    Over R (start inner cipher iv bufferLength) (opened cipher iv c).1 (opened cipher iv c).2 := by
  refine Or.inr ⟨rfl, ?_, Nat.zero_le _, c, h, rfl, rfl⟩
  exact Nat.lt_of_lt_of_le (show 0 < blockLength by decide) (Nat.le_max_right _ _)

theorem turns_eq (r : CbcReader σ) :
    turns r = r.out.length + r.held.length + r.chunk * turns r.inner := rfl

/-- What is held back is not empty, and leaves whole blocks. -/
theorem keep_spec {n : Nat} (h : 0 < n) :
    0 < keep n ∧ keep n ≤ n ∧ keep n ≤ blockLength ∧ (n - keep n) % blockLength = 0 := by
  have h16 : blockLength = 16 := rfl
  unfold keep
  rw [h16]
  split <;> omega

omit [Source σ] in
/-- The end of the ciphertext: the held bytes are all there is to open. -/
theorem finish_eq (h : r.held.length ≤ blockLength) :
    (∃ x, opened r.cipher r.previous r.held = (x, none) ∧ x.length ≤ r.held.length ∧
      finish r = (.ok (), { r with ended := true, held := [], out := r.out ++ x })) ∨
    ∃ f r', opened r.cipher r.previous r.held = ([], some f) ∧ finish r = (.error f, r') ∧
      r'.ended = true ∧ r'.out = r.out := by
  unfold opened finish
  simp only [Bool.or_eq_true, List.isEmpty_iff, bne_iff_ne]
  by_cases hcut : r.held = [] ∨ r.held.length % blockLength ≠ 0
  · rw [if_pos hcut, if_pos hcut]
    have hlt : r.held.length < blockLength := by
      rcases hcut with hnil | hmod
      · rw [hnil]
        exact Nat.succ_pos _
      · refine Nat.lt_of_le_of_ne h fun heq => hmod ?_
        rw [heq, Nat.mod_self]
    refine Or.inr ⟨.cipherUnaligned r.held.length, _, ?_, rfl, rfl, rfl⟩
    rw [ofBytes_of_length_lt hlt, Nat.mod_eq_of_lt hlt]
    rfl
  · rw [if_neg hcut, if_neg hcut]
    rw [not_or, Decidable.not_not] at hcut
    have hpos := List.length_pos_iff.mpr hcut.1
    have hheld : r.held.length = blockLength :=
      Nat.le_antisymm h (Nat.le_of_dvd hpos (Nat.dvd_of_mod_eq_zero hcut.2))
    have hplain : (join (decryptChain r.cipher r.previous (ofBytes r.held))).length =
        blockLength := by
      rw [length_join, length_decryptChain, ← length_join, join_ofBytes hcut.2, hheld]
    rw [hplain, Nat.sub_self, List.take_zero, List.drop_zero]
    cases hunpad : unpad (join (decryptChain r.cipher r.previous (ofBytes r.held))) with
    | some last =>
      refine Or.inl ⟨last, rfl, ?_, by rw [List.append_nil]⟩
      rw [hheld, ← hplain]
      exact length_unpad_le hunpad
    | none => exact Or.inr ⟨_, _, rfl, rfl, rfl, rfl⟩

/-- The reader after a piece of ciphertext: all but what is held back is decrypted. -/
def absorb (r : CbcReader σ) (got : Bytes) : CbcReader σ :=
  let held := r.held ++ got
  let ready := held.length - keep held.length
  let blocks := ofBytes (held.take ready)
  { r with
    held := held.drop ready
    previous := lastOf r.previous blocks
    out := r.out ++ join (decryptChain r.cipher r.previous blocks) }

omit [Source σ] in
theorem absorb_spec (r : CbcReader σ) {got : Bytes} (hgot : got ≠ []) :
    ∃ bs, r.held ++ got = join bs ++ (r.absorb got).held ∧
      (r.absorb got).previous = lastOf r.previous bs ∧
      (r.absorb got).out = r.out ++ join (decryptChain r.cipher r.previous bs) ∧
      (r.absorb got).held ≠ [] ∧ (r.absorb got).held.length ≤ blockLength := by
  have hpos : 0 < (r.held ++ got).length := by
    have := List.length_pos_iff.mpr hgot
    rw [List.length_append]
    omega
  obtain ⟨hkeep, hle, hblock, hready⟩ := keep_spec hpos
  have hheld : (r.absorb got).held.length = keep (r.held ++ got).length := by
    show ((r.held ++ got).drop ((r.held ++ got).length - keep (r.held ++ got).length)).length = _
    rw [List.length_drop]
    omega
  refine ⟨_, ?_, rfl, rfl, ?_, by omega⟩
  · rw [join_ofBytes]
    · exact (List.take_append_drop _ _).symm
    · rw [List.length_take, Nat.min_eq_left (Nat.sub_le _ _)]
      exact hready
  · intro hnil
    rw [hnil, List.length_nil] at hheld
    omega

omit [Source σ] in
/-- Ciphertext that is taken in does not come from below any more. -/
theorem over_absorb {got more : Bytes} (hended : r.ended = false) (hchunk : 0 < r.chunk)
    (hgot : got ≠ []) (hmore : R r.inner more none) :
    Over R (r.absorb got) (r.out ++ (opened r.cipher r.previous (r.held ++ (got ++ more))).1)
      (opened r.cipher r.previous (r.held ++ (got ++ more))).2 := by
  obtain ⟨bs, hcut, hprev, hout, hne, hblock⟩ := absorb_spec r hgot
  have hnil : (r.absorb got).held ++ more ≠ [] := fun h => hne (List.append_eq_nil_iff.mp h).1
  have hopened := opened_join_append r.cipher r.previous bs hnil
  rw [← List.append_assoc, ← hcut, List.append_assoc] at hopened
  refine Or.inr ⟨hended, hchunk, hblock, more, hmore, ?_, ?_⟩
  · rw [hopened, hprev, hout, List.append_assoc]
    rfl
  · rw [hopened, hprev]
    rfl

omit [Source σ] in
/-- Either a block can be handed out, or all that was taken in is held. -/
theorem absorb_grows (r : CbcReader σ) {got : Bytes} (hgot : got ≠ []) :
    (r.absorb got).out ≠ [] ∨ r.held.length < (r.absorb got).held.length := by
  obtain ⟨bs, hcut, -, hout, -, -⟩ := absorb_spec r hgot
  cases bs with
  | nil =>
    right
    have hpos := List.length_pos_iff.mpr hgot
    have hlen := congrArg List.length hcut
    simp only [join_nil, List.nil_append, List.length_append] at hlen
    omega
  | cons x bs =>
    left
    rw [hout, decryptChain, join_cons]
    intro h
    cases congrArg List.length (List.append_eq_nil_iff.mp (List.append_eq_nil_iff.mp h).2).1

theorem turns_absorb (r : CbcReader σ) {got : Bytes} (hgot : got ≠ []) :
    turns (r.absorb got) = turns r + got.length := by
  obtain ⟨bs, hcut, -, hout, -, -⟩ := absorb_spec r hgot
  have hlen := congrArg List.length hcut
  rw [turns_eq, turns_eq, hout]
  show _ + _ + r.chunk * turns r.inner = _
  simp only [List.length_append, length_join, length_decryptChain] at hlen ⊢
  omega

/-- The two ways in which a chunk is taken in. -/
theorem fill_eq (h : (gather r.inner r.chunk).failure = none) :
    fill r =
      if (gather r.inner r.chunk).got = [] then
        finish { r with inner := (gather r.inner r.chunk).source }
      else
        (.ok (), absorb { r with inner := (gather r.inner r.chunk).source }
          (gather r.inner r.chunk).got) := by
  unfold fill
  generalize gather r.inner r.chunk = g at h
  obtain ⟨got, failure, inner⟩ := g
  obtain rfl : failure = none := h
  cases got <;> rfl

/-- One round of fetching: what is to come stays the same, and something can be handed out, or the
end was met, or more is held than before; or else nothing is left but the failure, and the end was
met with it. -/
theorem fill_spec (hR : Delivers R) (h : Over R r b ending) (hended : r.ended = false) :
    (∃ r', fill r = (.ok (), r') ∧ Over R r' b ending ∧ (Rests R → turns r' ≤ turns r) ∧
      (r'.ended = true ∨ r'.out ≠ [] ∨ r.held.length < r'.held.length)) ∨
    ∃ f r', fill r = (.error f, r') ∧ b = r.out ∧ ending = some f ∧
      r'.ended = true ∧ r'.out = r.out := by
  rcases h with ⟨ht, -⟩ | ⟨-, hchunk, hheld, c, hc, rfl, rfl⟩
  · rw [hended] at ht
    cases ht
  have hg := gather_gathers hR hc r.chunk
  have hfail : (gather r.inner r.chunk).failure = none := by rw [hg.failure, ite_self]
  have hafter := hg.after hfail
  have hturns := fun hq => hg.turns hfail (Or.inr hq)
  have hgot := hg.got
  rw [fill_eq hfail]
  generalize gather r.inner r.chunk = g at hafter hturns hgot
  by_cases hend : g.got = []
  · rw [if_pos hend]
    rw [hend] at hgot
    obtain rfl : c = [] := by
      have hlen := congrArg List.length hgot
      rw [List.length_take, List.length_nil] at hlen
      exact List.length_eq_zero_iff.mp (by omega)
    rw [List.append_nil]
    rcases finish_eq (r := { r with inner := g.source }) hheld with ⟨x, hx, hlen, hfin⟩ |
      ⟨f, r', hx, hfin, hmet, hout⟩
    · refine Or.inl ⟨_, hfin, Or.inl ⟨rfl, ?_, ?_⟩, ?_, Or.inl rfl⟩
      · exact congrArg (r.out ++ ·) (congrArg Prod.fst hx)
      · exact congrArg Prod.snd hx
      · intro hq
        have hle := hturns hq
        have := Nat.mul_le_mul_left r.chunk (show turns g.source ≤ turns r.inner by omega)
        rw [turns_eq, turns_eq]
        simp only [List.length_append, List.length_nil] at hlen ⊢
        omega
    · refine Or.inr ⟨f, r', hfin, ?_, congrArg Prod.snd hx, hmet, hout⟩
      have : (opened r.cipher r.previous r.held).1 = [] := congrArg Prod.fst hx
      rw [this, List.append_nil]
  · rw [if_neg hend]
    have hsplit : c = g.got ++ c.drop r.chunk := by rw [hgot, List.take_append_drop]
    have hover := over_absorb (r := { r with inner := g.source }) hended hchunk hend hafter
    rw [← hsplit] at hover
    refine Or.inl ⟨_, rfl, hover, ?_, Or.inr (absorb_grows _ hend)⟩
    intro hq
    -- the bytes of the chunk are paid for by a turn of the source below
    have hlt : turns g.source < turns r.inner := by
      have hturn := hturns hq
      have hpos := List.length_pos_iff.mpr hend
      have hle := congrArg List.length hgot
      rw [List.length_take] at hle
      omega
    have hle : g.got.length ≤ r.chunk := by rw [hgot]; exact List.length_take_le _ _
    have hpaid := Nat.mul_le_mul_left r.chunk (Nat.succ_le_of_lt hlt)
    rw [Nat.mul_succ] at hpaid
    rw [turns_absorb _ hend, turns_eq, turns_eq]
    show r.out.length + r.held.length + r.chunk * turns g.source + g.got.length ≤ _
    omega

omit [Source σ] in
/-- Fetching stops with something to hand out or at the end. -/
theorem stops_iff (r : CbcReader σ) :
    (!r.out.isEmpty || r.ended) = true ↔ r.out ≠ [] ∨ r.ended = true := by
  rw [Bool.or_eq_true, Bool.not_eq_true', List.isEmpty_eq_false_iff]

/-- Rounds of fetching until something can be handed out or the end was met, by what one round comes
to. A round that brings nothing out lets the held bytes grow, and they are never more than a block,
so that the rounds of a read suffice. -/
theorem fillRounds_rounds {P : CbcReader σ → Prop} {Q : Failure → CbcReader σ → Prop}
    (hheld : ∀ r, P r → r.ended = true ∨ r.held.length ≤ blockLength)
    (hround : ∀ r, P r → r.out = [] → r.ended = false →
      (∃ r', fill r = (.ok (), r') ∧ P r' ∧
        (r'.ended = true ∨ r'.out ≠ [] ∨ r.held.length < r'.held.length)) ∨
      ∃ f r', fill r = (.error f, r') ∧ Q f r') :
    ∀ (fuel : Nat) {r : CbcReader σ}, P r →
      (blockLength + 1 < fuel + r.held.length ∨ r.ended = true ∨ r.out ≠ []) →
      (∃ r', fillRounds fuel r = (.ok (), r') ∧ P r' ∧ (r'.ended = true ∨ r'.out ≠ [])) ∨
      ∃ f r', fillRounds fuel r = (.error f, r') ∧ Q f r' := by
  intro fuel
  induction fuel with
  | zero =>
    intro r h henough
    refine Or.inl ⟨r, rfl, h, ?_⟩
    rcases henough with hlt | hstop
    · rcases hheld r h with hended | hle
      · exact Or.inl hended
      · omega
    · exact hstop
  | succ fuel ih =>
    intro r h henough
    unfold fillRounds
    by_cases hstop : (!r.out.isEmpty || r.ended) = true
    · rw [if_pos hstop]
      exact Or.inl ⟨r, rfl, h, ((stops_iff r).mp hstop).symm⟩
    · rw [if_neg hstop]
      rw [stops_iff, not_or, Decidable.not_not, Bool.not_eq_true] at hstop
      obtain ⟨hout, hended⟩ := hstop
      rcases hround r h hout hended with ⟨r', hfill, hr', hgrow⟩ | ⟨f, r', hfill, hf⟩
      · rw [hfill]
        refine ih hr' ?_
        rcases hgrow with hend | hout' | hgrown
        · exact Or.inr (Or.inl hend)
        · exact Or.inr (Or.inr hout')
        · left
          rcases henough with hlt | hend | hne
          · omega
          · rw [hended] at hend
            cases hend
          · exact absurd hout hne
      · rw [hfill]
        exact Or.inr ⟨f, r', rfl, hf⟩

omit [Source σ] in
/-- Before the end never more than a block is held. -/
theorem Over.length_held_le (h : Over R r b ending) :
    r.ended = true ∨ r.held.length ≤ blockLength := by
  rcases h with ⟨hended, -⟩ | ⟨-, -, hheld, -⟩
  · exact Or.inl hended
  · exact Or.inr hheld

/-- Fetching over a source that keeps its promise. -/
theorem fillRounds_spec (hR : Delivers R) :
    ∀ (fuel : Nat) {r : CbcReader σ}, Over R r b ending →
      (blockLength + 1 < fuel + r.held.length ∨ r.ended = true ∨ r.out ≠ []) →
      (∃ r', fillRounds fuel r = (.ok (), r') ∧ Over R r' b ending ∧
        (Rests R → turns r' ≤ turns r) ∧ (r'.ended = true ∨ r'.out ≠ [])) ∨
      ∃ f r', fillRounds fuel r = (.error f, r') ∧ b = [] ∧ ending = some f ∧
        Over R r' [] none := by
  intro fuel r h henough
  have hrounds := fillRounds_rounds
    (P := fun r' => Over R r' b ending ∧ (Rests R → turns r' ≤ turns r))
    (Q := fun f r' => b = [] ∧ ending = some f ∧ Over R r' [] none)
    (fun r' h' => Over.length_held_le h'.1) ?_ fuel ⟨h, fun _ => Nat.le_refl _⟩ henough
  · rcases hrounds with ⟨r', hfill, ⟨hr', hle⟩, hdone⟩ | hfail
    · exact Or.inl ⟨r', hfill, hr', hle, hdone⟩
    · exact Or.inr hfail
  · intro q ⟨hq, hle⟩ hout hended
    rcases fill_spec hR hq hended with ⟨q', hfill, hq', hle', hgrow⟩ |
      ⟨f, q', hfill, hb, he, hmet, hnothing⟩
    · exact Or.inl ⟨q', hfill, ⟨hq', fun hrest => Nat.le_trans (hle' hrest) (hle hrest)⟩, hgrow⟩
    · exact Or.inr ⟨f, q', hfill, by rw [hb, hout], he, Or.inl ⟨hmet, by rw [hnothing, hout], rfl⟩⟩

omit [Source σ] in
/-- What waits is handed out in pieces of any size. -/
theorem over_handOut (h : Over R r b ending) (n : Nat) :
    ∃ more, b = r.out.take n ++ more ∧ Over R { r with out := r.out.drop n } more ending := by
  rcases h with ⟨hended, rfl, rfl⟩ | ⟨hended, hchunk, hheld, c, hc, rfl, rfl⟩
  · exact ⟨_, (List.take_append_drop n r.out).symm, Or.inl ⟨hended, rfl, rfl⟩⟩
  · refine ⟨_, ?_, Or.inr ⟨hended, hchunk, hheld, c, hc, rfl, rfl⟩⟩
    rw [← List.append_assoc, List.take_append_drop]

/-- What one read comes to. After a failure nothing more is to come. Asking a source for the end may
bring back its turns, so that they are only bounded over a source that rests. -/
inductive Handed (R : Promise σ) (r : CbcReader σ) (b : Bytes) (ending : Option Failure) :
    Outcome Bytes × CbcReader σ → Prop where
  | bytes {got more : Bytes} {r' : CbcReader σ} : got ≠ [] → b = got ++ more →
    Over R r' more ending → (Rests R → turns r' < turns r) → Handed R r b ending (.done got, r')
  | ended {r' : CbcReader σ} : b = [] → ending = none → Over R r' [] none →
    (Rests R → turns r' ≤ turns r) → Handed R r b ending (.done [], r')
  | failed {f : Failure} {r' : CbcReader σ} : b = [] → ending = some f → Over R r' [] none →
    Handed R r b ending (.failed f, r')

/-- A read hands out what its ciphertext is opened to, and ends as that does. -/
theorem read_handed (hR : Delivers R) (h : Over R r b ending) {n : Nat} (hn : 0 < n) :
    Handed R r b ending (read r n) := by
  show Handed R r b ending (readOnce r n)
  unfold readOnce
  rw [if_neg (Nat.ne_of_gt hn)]
  rcases fillRounds_spec hR (blockLength + 2) h (Or.inl (by omega)) with
    ⟨r', hfill, hr', hle, hdone⟩ | ⟨f, r', hfill, hb, he, hnothing⟩
  · rw [hfill]
    show Handed R r b ending (.done (r'.out.take n), { r' with out := r'.out.drop n })
    obtain ⟨more, hb, hmore⟩ := over_handOut hr' n
    by_cases hout : r'.out = []
    · have hended : r'.ended = true := hdone.resolve_right fun hne => hne hout
      have hsame : ({ r' with out := r'.out.drop n } : CbcReader σ) = r' := by
        rw [hout, List.drop_nil, ← hout]
      rw [hsame] at hmore ⊢
      rw [hout, List.take_nil] at hb ⊢
      rcases hr' with ⟨-, hb', rfl⟩ | ⟨hnot, -⟩
      · rw [hout] at hb'
        obtain rfl : more = [] := hb.symm.trans hb'
        exact .ended hb' rfl hmore hle
      · rw [hended] at hnot
        cases hnot
    · have hpos := List.length_pos_iff.mpr hout
      refine .bytes ?_ hb hmore ?_
      · intro hnil
        have := congrArg List.length hnil
        rw [List.length_take, List.length_nil] at this
        omega
      · intro hq
        refine Nat.lt_of_lt_of_le ?_ (hle hq)
        rw [turns_eq, turns_eq]
        simp only [List.length_drop]
        omega
  · rw [hfill]
    exact .failed hb he hnothing

/-- A reader brings what its ciphertext is opened to, and ends as that does. -/
theorem delivers (hR : Delivers R) (hq : Rests R) : Delivers (Over R) := by
  intro r b ending n h hn
  have hread := read_handed hR h hn
  generalize read r n = x at hread
  cases hread with
  | bytes hgot hb hmore ht => exact .bytes hgot hb hmore (ht hq)
  | ended hb he hend => exact .ended hb he hend
  | failed hb he => exact .failed hb he

/-- Asking again after the end does not fetch anything. -/
theorem rests (hR : Delivers R) (hq : Rests R) : Rests (Over R) := by
  intro r n h
  by_cases h0 : n = 0
  · show turns (readOnce r n).2 ≤ turns r
    exact Nat.le_of_eq (by rw [readOnce, if_pos h0])
  · have hread := read_handed hR h (Nat.pos_of_ne_zero h0)
    generalize read r n = x at hread
    cases hread with
    | bytes _ _ _ ht => exact Nat.le_of_lt (ht hq)
    | ended _ _ _ ht => exact ht hq
    | failed _ he => cases he

end CbcReader
end ChatBackup
