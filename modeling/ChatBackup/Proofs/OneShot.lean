import ChatBackup.Crypto.Key
import ChatBackup.Proofs.Cbc
import ChatBackup.Proofs.CallSeries

/-!
# Streaming against encrypting at once

The two stages take and give bytes in pieces of any size. What they come to is what encrypting or
decrypting the whole string at once would come to:

> `cbc_writer_matches_one_shot`: after any calls the sink below has the whole blocks of what was
> written, encrypted, and at the end the encrypted form of the padded string.
> `cbc_reader_matches_one_shot`: reads of any sizes give what decrypting at once gives of any
> ciphertext, good or bad, and end as it does.
> `cbc_round_trip`: what a writer was given a reader gives back.

Padding is valid if it is the padding of some string (`unpad_eq_some_iff`), so that the three
outcomes of decrypting at once are told without a look at how padding is taken off.
-/

namespace ChatBackup

open Source

namespace Cbc

open Block

/-! ## Whole blocks and the rest -/

/-- The whole blocks at the front of a string. -/
def wholeBlocks (d : Bytes) : Bytes := d.take (blockLength * (d.length / blockLength))

/-- What follows the whole blocks. -/
def partialBlock (d : Bytes) : Bytes := d.drop (blockLength * (d.length / blockLength))

/-- Whole blocks, encrypted in a chain. -/
def encrypted (c : BlockCipher) (iv : Block) (d : Bytes) : Bytes :=
  join (encryptChain c iv (ofBytes d))

/-- Whole blocks, decrypted in a chain. -/
def decrypted (c : BlockCipher) (iv : Block) (x : Bytes) : Bytes :=
  join (decryptChain c iv (ofBytes x))

theorem length_wholeBlocks (bs : List Block) {r : Bytes} (h : r.length < blockLength) :
    blockLength * ((join bs ++ r).length / blockLength) = (join bs).length := by
  have hpos : 0 < blockLength := by decide
  rw [List.length_append, length_join, Nat.mul_add_div hpos, Nat.div_eq_of_lt h, Nat.add_zero]

theorem wholeBlocks_join_append (bs : List Block) {r : Bytes} (h : r.length < blockLength) :
    wholeBlocks (join bs ++ r) = join bs := by
  rw [wholeBlocks, length_wholeBlocks bs h, List.take_left]

theorem partialBlock_join_append (bs : List Block) {r : Bytes} (h : r.length < blockLength) :
    partialBlock (join bs ++ r) = r := by
  rw [partialBlock, length_wholeBlocks bs h, List.drop_left]

theorem length_ofBytes_block {b : Bytes} (h : b.length = blockLength) : (ofBytes b).length = 1 := by
  obtain ⟨x, rfl⟩ := exists_toBytes h
  rw [← List.append_nil x.toBytes, ofBytes_toBytes_append]
  rfl

/-- The padding adds one block to the whole ones that were encrypted before. -/
theorem encrypted_padded (c : BlockCipher) (iv : Block) (d : Bytes) :
    ∃ last, last.length = blockLength ∧
      encrypted c iv (padded d) = encrypted c iv (wholeBlocks d) ++ last := by
  obtain ⟨bs, r, rfl, hr⟩ := exists_blocks d
  refine ⟨join (encryptChain c (lastOf iv (encryptChain c iv bs)) (ofBytes (pad r))), ?_, ?_⟩
  · rw [length_join, length_encryptChain, length_ofBytes_block (length_pad hr), Nat.mul_one]
  · rw [wholeBlocks_join_append bs hr, encrypted, encrypted, padded_join_append bs hr,
      ofBytes_join_append, ofBytes_join, encryptChain_append, join_append]

/-! ## Padding -/

/-- What padding is taken off from is a padded string, and only that string is left. -/
theorem unpad_eq_some_iff {b x : Bytes} (h : b.length = blockLength) :
    unpad b = some x ↔ x.length < blockLength ∧ b = pad x := by
  constructor
  · intro hunpad
    unfold unpad at hunpad
    simp only [Bool.or_eq_true, decide_eq_true_eq] at hunpad
    generalize hmissing : (b.getLast?.getD 0).toNat = missing at hunpad
    split at hunpad
    · cases hunpad
    next hrange =>
      rw [not_or] at hrange
      split at hunpad
      next hfilling =>
        cases hunpad
        have hlen : (b.take (b.length - missing)).length = blockLength - missing := by
          rw [List.length_take, h]
          omega
        have hsub : blockLength - (blockLength - missing) = missing := by omega
        refine ⟨by omega, ?_⟩
        unfold pad
        simp only [hlen, hsub]
        -- every byte of the filling is the number of bytes that are missing
        have hreplicate : b.drop (b.length - missing) =
            List.replicate missing (UInt8.ofNat missing) := by
          rw [List.eq_replicate_iff]
          constructor
          · rw [List.length_drop]
            omega
          · intro y hy
            have := of_decide_eq_true (List.all_eq_true.mp hfilling y hy)
            rw [← this, UInt8.ofNat_toNat]
        rw [← hreplicate, List.take_append_drop]
      · cases hunpad
  · rintro ⟨hx, rfl⟩
    exact unpad_pad x hx

/-! ## Opening at once -/

theorem opened_nil (c : BlockCipher) (iv : Block) :
    opened c iv [] = ([], some (.cipherUnaligned 0)) := rfl

/-- A partial block is left where it is. -/
theorem opened_of_partial (c : BlockCipher) (iv : Block) {x : Bytes}
    (h : x.length % blockLength ≠ 0) :
    opened c iv x =
      (decrypted c iv (wholeBlocks x), some (.cipherUnaligned (x.length % blockLength))) := by
  obtain ⟨bs, r, rfl, hr⟩ := exists_blocks x
  unfold opened
  rw [if_pos (Or.inr h), decrypted, wholeBlocks_join_append bs hr, ofBytes_join_append,
    ofBytes_of_length_lt hr, ofBytes_join, List.append_nil]

/-- A single block is padding and what it was put behind, or it is not. -/
theorem opened_block (c : BlockCipher) (iv : Block) (e : Block) :
    opened c iv e.toBytes =
      match unpad ((c.decrypt e).xor iv).toBytes with
      | some last => (last, none)
      | none => ([], some .cipherPadding) := by
  have hblock : ofBytes e.toBytes = [e] := by
    rw [← List.append_nil e.toBytes, ofBytes_toBytes_append]
    rfl
  have hnot : ¬ (e.toBytes = [] ∨ e.toBytes.length % blockLength ≠ 0) := by
    rw [length_toBytes, Nat.mod_self]
    rintro (hnil | hne)
    · cases hnil
    · exact hne rfl
  have hplain : join (decryptChain c iv [e]) = ((c.decrypt e).xor iv).toBytes := List.append_nil _
  unfold opened
  rw [if_neg hnot, hblock, hplain]
  cases hunpad : unpad ((c.decrypt e).xor iv).toBytes with
  | some last => simp only [length_toBytes, Nat.sub_self, List.take_zero, List.drop_zero, hunpad,
      List.nil_append]
  | none => simp only [length_toBytes, Nat.sub_self, List.take_zero, List.drop_zero, hunpad]

/-- The last of whole blocks is taken apart, those before it come out as they are decrypted. -/
theorem opened_of_whole (c : BlockCipher) (iv : Block) {x : Bytes} (hne : x ≠ [])
    (h : x.length % blockLength = 0) :
    ∃ last, last.length = blockLength ∧
      decrypted c iv x = decrypted c iv (x.take (x.length - blockLength)) ++ last ∧
      ((∃ y, y.length < blockLength ∧ last = pad y ∧
        opened c iv x = (decrypted c iv (x.take (x.length - blockLength)) ++ y, none)) ∨
      (∀ y, y.length < blockLength → last ≠ pad y) ∧
        opened c iv x = (decrypted c iv (x.take (x.length - blockLength)), some .cipherPadding)) := by
  obtain ⟨es, e, hx⟩ : ∃ (es : List Block) (e : Block), x = join es ++ e.toBytes := by
    have hjoin := join_ofBytes h
    rcases List.eq_nil_or_concat (ofBytes x) with hnil | ⟨es, e, hes⟩
    · rw [hnil] at hjoin
      exact absurd hjoin.symm hne
    · refine ⟨es, e, ?_⟩
      rw [← hjoin, hes, List.concat_eq_append, join_append, join_cons, join_nil, List.append_nil]
  subst hx
  -- the blocks before the last come out whatever the last one is
  have hfront : (join es ++ e.toBytes).take ((join es ++ e.toBytes).length - blockLength) =
      join es := by
    rw [List.length_append, length_toBytes, Nat.add_sub_cancel, List.take_left]
  have hblocks : ofBytes (join es ++ e.toBytes) = es ++ [e] := by
    rw [ofBytes_join_append, ← List.append_nil e.toBytes, ofBytes_toBytes_append]
    rfl
  have hopened := opened_join_append c iv es (x := e.toBytes) (by simp [toBytes])
  rw [opened_block] at hopened
  refine ⟨((c.decrypt e).xor (lastOf iv es)).toBytes, length_toBytes _, ?_, ?_⟩
  · rw [hfront, decrypted, decrypted, hblocks, ofBytes_join, decryptChain_append, join_append]
    rfl
  · rw [hfront, decrypted, ofBytes_join]
    cases hunpad : unpad ((c.decrypt e).xor (lastOf iv es)).toBytes with
    | some y =>
      obtain ⟨hy, hpad⟩ := (unpad_eq_some_iff (length_toBytes _)).mp hunpad
      rw [hunpad] at hopened
      exact Or.inl ⟨y, hy, hpad, hopened⟩
    | none =>
      rw [hunpad, List.append_nil] at hopened
      refine Or.inr ⟨?_, hopened⟩
      intro y hy hpad
      rw [(unpad_eq_some_iff (length_toBytes _)).mpr ⟨hy, hpad⟩] at hunpad
      cases hunpad

end Cbc

/-! ## The writing stage -/

namespace CbcWriter

open Block Cbc Sink

variable {σ : Type} {T : Ledger σ} {cipher : BlockCipher} {iv : Block} {before d : Bytes}
  {w : CbcWriter σ}

/-- What was written is sent up to the last whole block, and the rest is pending. -/
theorem Over.parts (h : Over T cipher iv before w d) :
    T w.inner (before ++ encrypted cipher iv (wholeBlocks d)) ∧ w.pending = partialBlock d ∧
      w.pending.length < blockLength := by
  obtain ⟨-, hp, bs, rfl, -, hsent⟩ := h
  rw [wholeBlocks_join_append bs hp, partialBlock_join_append bs hp, encrypted, ofBytes_join]
  exact ⟨hsent, rfl, hp⟩

/-- On a sink that takes everything all calls are granted, and what they brought is sealed. -/
theorem run_seals [Sink σ] (hT : Takes T) {sink : σ} (hsink : T sink []) (cipher : BlockCipher)
    (iv : Block) (calls : List SinkCall) :
    ∃ (w : CbcWriter σ) (sink' : σ),
      Sink.run (start sink cipher iv) calls = (calls.map SinkCall.granted, w) ∧
      Over T cipher iv [] w (calls.flatMap SinkCall.payload) ∧ w.finish = (.ok (), sink') ∧
      T sink' (sealed cipher iv (calls.flatMap SinkCall.payload)) := by
  have hstart : Over T cipher iv [] (start sink cipher iv) [] := over_start hsink
  obtain ⟨hanswers, hw⟩ := (swallows hT).run hstart calls
  rw [List.nil_append] at hw
  obtain ⟨sink', hfinish⟩ := finish_succeeds hT hw
  exact ⟨_, sink', Prod.ext hanswers rfl, hw, hfinish, finish_ok hT.toRecords hw hfinish⟩

end CbcWriter

/-- **Writing in pieces**: on a sink that takes everything all calls of a writer are granted. After
any series of calls the sink has the whole blocks of what was written, encrypted, and what is
pending is less than a block. At the end one block more is sent, so that the sink has the encrypted
form of the padded string, however it was cut into pieces. -/
theorem cbc_writer_matches_one_shot {σ : Type} [Sink σ] {T : Sink.Ledger σ} (hT : Sink.Takes T)
    {sink : σ} (hsink : T sink []) (cipher : BlockCipher) (iv : Block) (calls : List SinkCall) :
    let d := calls.flatMap SinkCall.payload
    ∃ w : CbcWriter σ,
      Sink.run (CbcWriter.start sink cipher iv) calls = (calls.map SinkCall.granted, w) ∧
      T w.inner (Cbc.encrypted cipher iv (Cbc.wholeBlocks d)) ∧
      w.pending = Cbc.partialBlock d ∧ w.pending.length < blockLength ∧
      ∃ (sink' : σ) (last : Bytes), w.finish = (.ok (), sink') ∧ last.length = blockLength ∧
        Cbc.encrypted cipher iv (Cbc.padded d) =
          Cbc.encrypted cipher iv (Cbc.wholeBlocks d) ++ last ∧
        T sink' (Cbc.encrypted cipher iv (Cbc.padded d)) ∧
        (Cbc.encrypted cipher iv (Cbc.padded d)).length =
          blockLength * (d.length / blockLength + 1) := by
  intro d
  obtain ⟨w, sink', hrun, hw, hfinish, hsealed⟩ := CbcWriter.run_seals hT hsink cipher iv calls
  obtain ⟨hsent, hpending, hlt⟩ := hw.parts
  rw [List.nil_append] at hsent
  obtain ⟨last, hlast, hblock⟩ := Cbc.encrypted_padded cipher iv d
  exact ⟨w, hrun, hsent, hpending, hlt, sink', last, hfinish, hlast, hblock, hsealed,
    Cbc.length_sealed cipher iv d⟩

/-- Nine bytes in two calls on a sink that takes three bytes at a time: nothing is sent before the
end, then one block. -/
theorem cbc_writer_sends_padded_block :
    let key : BackupKey := ⟨List.replicate 32 1, List.replicate 32 2, rfl, rfl⟩
    let sink : ScriptedSink := { maxWrite := some 3, interrupts := true }
    let calls : List SinkCall := [.write [1, 2, 3, 4], .flush, .writeAll [5, 6, 7, 8, 9]]
    ∃ (w : CbcWriter ScriptedSink) (sink' : ScriptedSink),
      Sink.run (CbcWriter.start sink key.cipher .zero) calls =
        ([.write (.done 4), .flush (.ok ()), .writeAll (.ok ())], w) ∧
      w.inner.body = [] ∧ w.pending = [1, 2, 3, 4, 5, 6, 7, 8, 9] ∧
      w.finish = (.ok (), sink') ∧ sink'.body.length = 16 := by
  intro key sink calls
  have hsink : ScriptedSink.Faultless sink ∧ ScriptedSink.Written sink [] :=
    ⟨⟨by simp [sink], rfl, rfl, rfl, rfl⟩, rfl, rfl⟩
  obtain ⟨w, hrun, ⟨-, hsent, -⟩, hpending, -, sink', last, hfinish, -, -, ⟨-, hsealed, -⟩, hlen⟩ :=
    cbc_writer_matches_one_shot ScriptedSink.takes.toTakes hsink key.cipher .zero calls
  have hwhole : Cbc.wholeBlocks (calls.flatMap SinkCall.payload) = [] := by decide
  have hpartial : Cbc.partialBlock (calls.flatMap SinkCall.payload) =
      [1, 2, 3, 4, 5, 6, 7, 8, 9] := by decide
  have hone : blockLength * ((calls.flatMap SinkCall.payload).length / blockLength + 1) = 16 := by
    decide
  rw [hwhole] at hsent
  rw [hpartial] at hpending
  rw [← hsealed, hone] at hlen
  exact ⟨w, sink', hrun, hsent, hpending, hfinish, hlen⟩

/-! ## The reading stage -/

namespace CbcReader

open Cbc

variable {σ : Type} [Source σ] {R : Promise σ} {r : CbcReader σ} {b : Bytes}
  {ending : Option Failure}

/-- Reads are not interrupted, and a failure is the end. -/
theorem handsOver (hR : Delivers R) : HandsOver (Over R) := by
  intro r b ending n h hn
  have hread := read_handed hR h hn
  generalize read r n = x at hread
  cases hread with
  | bytes hgot hb hmore _ => exact .bytes hgot hb hmore
  | ended hb he hend _ => exact .ended hb he hend
  | failed hb he hend => exact .failed hb he hend

/-- Fetching until something can be handed out or the end was met, in as many rounds as it takes. -/
inductive Fetches : CbcReader σ → Except Failure Unit × CbcReader σ → Prop where
  | enough {r : CbcReader σ} : r.out ≠ [] ∨ r.ended = true → Fetches r (.ok (), r)
  | failed {r r' : CbcReader σ} {e : Failure} : r.out = [] → r.ended = false →
    fill r = (.error e, r') → Fetches r (.error e, r')
  | again {r r' : CbcReader σ} {result : Except Failure Unit × CbcReader σ} : r.out = [] →
    r.ended = false → fill r = (.ok (), r') → Fetches r' result → Fetches r result

/-- Rounds that come to something are all the rounds there are. -/
theorem fetches_of_done : ∀ (fuel : Nat) {r : CbcReader σ},
    ((fillRounds fuel r).1 = .ok () →
      (fillRounds fuel r).2.out ≠ [] ∨ (fillRounds fuel r).2.ended = true) →
    Fetches r (fillRounds fuel r) := by
  intro fuel
  induction fuel with
  | zero =>
    -- no round is left, but by `h` none is needed
    intro r h
    exact .enough (h rfl)
  | succ fuel ih =>
    intro r h
    unfold fillRounds at h ⊢
    by_cases hstop : (!r.out.isEmpty || r.ended) = true
    · rw [if_pos hstop]
      exact .enough ((stops_iff r).mp hstop)
    · rw [if_neg hstop] at h ⊢
      rw [stops_iff, not_or, Decidable.not_not, Bool.not_eq_true] at hstop
      obtain ⟨hout, hended⟩ := hstop
      split
      next r' hfill =>
        rw [hfill] at h
        exact .again hout hended hfill (ih h)
      next e r' hfill => exact .failed hout hended hfill

/-- The bound on the rounds of a read is never what ends them. -/
theorem fillRounds_fetches (hR : Delivers R) (h : Over R r b ending) :
    Fetches r (fillRounds (blockLength + 2) r) := by
  apply fetches_of_done
  intro hok
  rcases fillRounds_spec hR (blockLength + 2) h (Or.inl (by omega)) with
    ⟨r', hfill, -, -, hdone⟩ | ⟨f, r', hfill, -⟩
  · rw [hfill]
    exact hdone.symm
  · rw [hfill] at hok
    cases hok

/-- In reads of any sizes a ciphertext comes out as it is opened at once. -/
theorem readsOut_opened {source : σ} {c : Bytes} (h : Brings source c none) (cipher : BlockCipher)
    (iv : Block) (bufferLength : Nat) {sizes : Nat → Nat} (hsizes : ∀ i, 0 < sizes i) :
    ReadsOut (start source cipher iv bufferLength) sizes (opened cipher iv c).1
      (opened cipher iv c).2 :=
  (handsOver delivers_brings).readsOut (over_start cipher iv bufferLength h) hsizes

end CbcReader

/-- **Reading in pieces**: over any source of a ciphertext, with a buffer and reads of any sizes, a
reader gives what decrypting at once gives. Nothing of an empty ciphertext, and then tells so. If a
partial block is left, the whole blocks before it, and then its length. Else all blocks but the
last, and of that one what its padding was put behind, or nothing and that its padding is not valid.
From then on every read gives nothing. No read is ended by the bound on its rounds. -/
theorem cbc_reader_matches_one_shot {σ : Type} [Source σ] {source : σ} {c : Bytes}
    (hsource : Brings source c none) (cipher : BlockCipher) (iv : Block) (bufferLength : Nat)
    {sizes : Nat → Nat} (hsizes : ∀ i, 0 < sizes i) :
    let reader := CbcReader.start source cipher iv bufferLength
    let front := Cbc.decrypted cipher iv (c.take (c.length - blockLength))
    (c = [] → ReadsOut reader sizes [] (some (.cipherUnaligned 0))) ∧
    (c.length % blockLength ≠ 0 →
      ReadsOut reader sizes (Cbc.decrypted cipher iv (Cbc.wholeBlocks c))
        (some (.cipherUnaligned (c.length % blockLength)))) ∧
    (c ≠ [] → c.length % blockLength = 0 →
      ∃ last, last.length = blockLength ∧ Cbc.decrypted cipher iv c = front ++ last ∧
        ((∃ x, x.length < blockLength ∧ last = Cbc.pad x ∧
          ReadsOut reader sizes (front ++ x) none) ∨
        (∀ x, x.length < blockLength → last ≠ Cbc.pad x) ∧
          ReadsOut reader sizes front (some .cipherPadding))) ∧
    ∀ i, CbcReader.Fetches (stateAt reader sizes i)
      (CbcReader.fillRounds (blockLength + 2) (stateAt reader sizes i)) := by
  intro reader front
  have hreads := CbcReader.readsOut_opened hsource cipher iv bufferLength hsizes
  refine ⟨?_, ?_, ?_, ?_⟩
  · rintro rfl
    rw [Cbc.opened_nil] at hreads
    exact hreads
  · intro hpartial
    rw [Cbc.opened_of_partial cipher iv hpartial] at hreads
    exact hreads
  · intro hne haligned
    obtain ⟨last, hlen, hlast, hcases⟩ := Cbc.opened_of_whole cipher iv hne haligned
    refine ⟨last, hlen, hlast, ?_⟩
    rcases hcases with ⟨x, hx, hpad, hopened⟩ | ⟨hinvalid, hopened⟩
    · rw [hopened] at hreads
      exact Or.inl ⟨x, hx, hpad, hreads⟩
    · rw [hopened] at hreads
      exact Or.inr ⟨hinvalid, hreads⟩
  · intro i
    have hstart := CbcReader.over_start cipher iv bufferLength hsource
    obtain ⟨b, ending, hi⟩ := (CbcReader.handsOver delivers_brings).stateAt i hstart hsizes
    exact CbcReader.fillRounds_fetches delivers_brings hi

/-- Two blocks of zeros do not end in padding: the first one is given, byte by byte, and then the
reader tells so. -/
theorem cbc_reader_refuses_padding :
    let key : BackupKey := ⟨List.replicate 32 1, List.replicate 32 2, rfl, rfl⟩
    let source : ScriptedSource :=
      { data := (List.replicate 32 0).toArray, chunk := some 5, interrupts := true }
    ReadsOut (CbcReader.start source key.cipher .zero 3) (fun _ => 1)
      [123, 211, 251, 144, 101, 86, 159, 57, 139, 9, 203, 147, 75, 30, 1, 35]
      (some .cipherPadding) := by
  intro key source
  have hsource : ScriptedSource.Faultless (List.replicate 32 0) source :=
    ⟨rfl, Nat.zero_le _, by simp [source], rfl, rfl, rfl⟩
  obtain ⟨-, -, hwhole, -⟩ := cbc_reader_matches_one_shot hsource.brings key.cipher .zero 3
    fun _ => Nat.one_pos
  obtain ⟨last, hlen, hlast, hcases⟩ := hwhole (by decide) (by decide)
  have hfront : Cbc.decrypted key.cipher .zero (List.replicate 16 0) =
      [123, 211, 251, 144, 101, 86, 159, 57, 139, 9, 203, 147, 75, 30, 1, 35] := by
    decide +kernel
  have hinvalid : Cbc.unpad ((Cbc.decrypted key.cipher .zero (List.replicate 32 0)).drop 16) =
      none := by
    decide +kernel
  change Cbc.decrypted key.cipher .zero (List.replicate 32 0) =
    Cbc.decrypted key.cipher .zero (List.replicate 16 0) ++ last at hlast
  rw [hlast, hfront] at hinvalid
  change Cbc.unpad last = none at hinvalid
  rcases hcases with ⟨x, hx, hpad, -⟩ | ⟨-, hreads⟩
  · rw [(Cbc.unpad_eq_some_iff hlen).mpr ⟨hx, hpad⟩] at hinvalid
    cases hinvalid
  · rw [← hfront]
    exact hreads

/-! ## Both stages -/

/-- **What was encrypted in pieces is decrypted in pieces**: whatever calls bring a string to a
writer, on a sink that takes everything they are granted and the writer finishes. Whatever source
brings what the sink has then, with a buffer and reads of any sizes, a reader under the same cipher
and the same initialisation vector gives exactly the string and then ends without a failure. -/
theorem cbc_round_trip {σ : Type} [Sink σ] {T : Sink.Ledger σ} (hT : Sink.Takes T) {sink : σ}
    (hsink : T sink []) (cipher : BlockCipher) (iv : Block) (calls : List SinkCall) :
    let d := calls.flatMap SinkCall.payload
    let c := Cbc.sealed cipher iv d
    ∃ (w : CbcWriter σ) (sink' : σ),
      Sink.run (CbcWriter.start sink cipher iv) calls = (calls.map SinkCall.granted, w) ∧
      w.finish = (.ok (), sink') ∧ T sink' c ∧
      ∀ {τ : Type} [Source τ] (source : τ) (bufferLength : Nat) (sizes : Nat → Nat),
        Brings source c none → (∀ i, 0 < sizes i) →
        ReadsOut (CbcReader.start source cipher iv bufferLength) sizes d none := by
  intro d c
  obtain ⟨w, sink', hrun, -, hfinish, hsealed⟩ := CbcWriter.run_seals hT hsink cipher iv calls
  refine ⟨w, sink', hrun, hfinish, hsealed, ?_⟩
  intro τ _ source bufferLength sizes hsource hsizes
  have hreads := CbcReader.readsOut_opened hsource cipher iv bufferLength hsizes
  rw [Cbc.opened_sealed] at hreads
  exact hreads

/-- Twenty-three bytes, written in four calls and read in pieces that grow, over a sink and a source
that let a few bytes through at a time. -/
theorem cbc_round_trip_in_pieces :
    let key : BackupKey := ⟨List.replicate 32 1, List.replicate 32 2, rfl, rfl⟩
    let sink : ScriptedSink := { maxWrite := some 3, interrupts := true }
    let calls : List SinkCall :=
      [.write [1, 2, 3], .flush, .write [], .writeAll (List.replicate 20 7)]
    ∃ (w : CbcWriter ScriptedSink) (sink' : ScriptedSink),
      Sink.run (CbcWriter.start sink key.cipher .zero) calls =
        (calls.map SinkCall.granted, w) ∧
      w.finish = (.ok (), sink') ∧
      let source : ScriptedSource :=
        { data := sink'.body.toArray, chunk := some 5, interrupts := true }
      ReadsOut (CbcReader.start source key.cipher .zero 0) (fun i => i + 1)
        ([1, 2, 3] ++ List.replicate 20 7) none := by
  intro key sink calls
  have hsink : ScriptedSink.Faultless sink ∧ ScriptedSink.Written sink [] :=
    ⟨⟨by simp [sink], rfl, rfl, rfl, rfl⟩, rfl, rfl⟩
  obtain ⟨w, sink', hrun, hfinish, ⟨-, hsealed, -⟩, hread⟩ :=
    cbc_round_trip ScriptedSink.takes.toTakes hsink key.cipher .zero calls
  refine ⟨w, sink', hrun, hfinish, ?_⟩
  intro source
  have hsource : ScriptedSource.Faultless
      (Cbc.sealed key.cipher .zero (calls.flatMap SinkCall.payload)) source :=
    ⟨hsealed, Nat.zero_le _, by simp [source], rfl, rfl, rfl⟩
  exact hread source 0 _ hsource.brings Nat.succ_pos

end ChatBackup
