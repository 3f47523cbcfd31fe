import ChatBackup.Gzip.Reader
import ChatBackup.Proofs.Agreement
import ChatBackup.Proofs.Compression

/-!
# What compressed bytes stand for

`Gzip.unpacked` is the data that a string of bytes with a given end is unpacked to, and how the data
ends. `Gzip.Lossless` says of the same bytes that nothing can get lost while they arrive piece by
piece: a fault in the compressed data, or a failure of the source, costs a reader the output that it
holds at that moment, so there must be none.

> `Gzip.readHeader_same`: a header is read alike from sources that agree.
> `Gzip.unpacked_member`, `Gzip.lossless_member`: a member for `data`, with any bytes behind it, is
> unpacked to `data` without loss.

All of the input is worked off at once by giving the inflater enough room (`Inflater.exhaust`), for
which there is a potential (`Inflater.cost`) that no move raises.
-/

namespace ChatBackup

/-! ## A potential -/

namespace BitReader

variable {α β : Type} {p : BitReader α} {f : α → BitReader β} {bits rest : Bits} {b : β}

theorem run_andThen_done (h : (p.andThen f).run bits = .done b rest) :
    ∃ a mid, p.run bits = .done a mid ∧ (f a).run mid = .done b rest := by
  cases hp : p.run bits with
  | done a mid =>
    rw [run_andThen hp] at h
    exact ⟨a, mid, rfl, h⟩
  | starved =>
    simp only [andThen, hp] at h
    cases h
  | corrupt =>
    simp only [andThen, hp] at h
    cases h

theorem run_bind_done (h : (p >>= f).run bits = .done b rest) :
    ∃ a mid, p.run bits = .done a mid ∧ (f a).run mid = .done b rest := run_andThen_done h

theorem number_lt (width : Nat) {bits rest : Bits} {n : Nat}
    (h : (number width).run bits = .done n rest) : n < 1 <<< width := by
  induction width generalizing bits rest n with
  | zero => cases h; exact Nat.one_pos
  | succ width ih =>
    obtain ⟨b, mid, -, h⟩ := run_andThen_done h
    obtain ⟨m, mid', hm, h⟩ := run_andThen_done h
    cases h
    have := ih hm
    rw [Nat.one_shiftLeft] at this ⊢
    rw [Nat.pow_succ]
    split <;> omega

theorem length_byte {bits rest : Bits} {x : UInt8} (h : byte.run bits = .done x rest) :
    rest.length + 8 = bits.length := by
  simp only [byte] at h
  split at h
  · cases h
    simp only [List.length_cons]
  · cases h

end BitReader

namespace Block

open BitReader

theorem stepReader_le {steps : List (Nat × Nat)} {most : Nat} {symbol n : Nat} {bits rest : Bits}
    (hsteps : ∀ s ∈ steps, s.1 + 1 <<< s.2 ≤ most + 1)
    (h : (stepReader steps symbol).run bits = .done n rest) : n ≤ most := by
  unfold stepReader at h
  split at h
  next least width hstep =>
    obtain ⟨more, mid, hmore, h⟩ := run_bind_done h
    cases h
    have hstep' : least + 1 <<< width ≤ most + 1 := hsteps _ (List.mem_of_getElem? hstep)
    have := number_lt width hmore
    omega
  next => cases h

/-- No item stands for more bytes than the longest copy. -/
theorem length_copy_le {codes : BlockCodes} {distance length : Nat} {bits rest : Bits}
    (h : (itemReader codes).run bits = .done (.copy distance length) rest) :
    length ≤ GzipReader.longestCopy := by
  obtain ⟨symbol, mid, -, h⟩ := run_andThen_done h
  split at h
  · cases h
  · split at h
    · cases h
    · obtain ⟨n, mid', hn, h⟩ := run_bind_done h
      obtain ⟨symbol', mid'', -, h⟩ := run_bind_done h
      obtain ⟨d, mid''', -, h⟩ := run_bind_done h
      cases h
      exact stepReader_le (by decide) hn

end Block

namespace Inflater

open GzipReader (longestCopy waiting)

/-- A bound on the length of all output that is possible with the input that is there. -/
def cost (i : Inflater) : Nat := i.out.size + waiting i.phase + longestCopy * i.bits.length

theorem waiting_afterBlock (final : Bool) : waiting (afterBlock final) = 0 := by
  cases final <;> rfl

theorem waiting_insideBlock (final : Bool) (start : BlockStart) :
    waiting (insideBlock final start) = 0 := by
  cases start with
  | coded codes => rfl
  | stored length =>
    cases length with
    | zero => exact waiting_afterBlock final
    | succ more => rfl

theorem waiting_afterStored (final : Bool) (more : Nat) : waiting (afterStored final more) = 0 := by
  cases more with
  | zero => exact waiting_afterBlock final
  | succ more => rfl

theorem waiting_afterCopied (distance more : Nat) (codes : BlockCodes) :
    waiting (afterCopied distance more codes) = more := by
  cases more <;> rfl

theorem cost_silent {i j : Inflater} (h : i.step = .silent j) : j.cost ≤ i.cost := by
  have hk : longestCopy = 258 := rfl
  rcases silent_cases h with ⟨final, start, rest, -, hrun, rfl⟩ | ⟨codes, item, rest, -, hrun, rfl⟩
  · have := Block.length_lt_of_start hrun
    simp only [cost, waiting_insideBlock, hk]
    omega
  · have hlt := Block.length_lt_of_item hrun
    have hwait : waiting (afterItem i.final codes item) ≤ longestCopy := by
      cases item with
      | literal byte => exact Nat.succ_le_succ (Nat.zero_le _)
      | endOfBlock => exact Nat.le_trans (Nat.le_of_eq (waiting_afterBlock _)) (Nat.zero_le _)
      | copy distance length =>
        have := Block.length_copy_le hrun
        cases length with
        | zero => exact Nat.zero_le _
        | succ more => exact this
    simp only [cost, hk] at hwait ⊢
    omega

theorem cost_byte {i j : Inflater} {x : UInt8} (h : i.step = .byte x j) : j.cost ≤ i.cost := by
  have hk : longestCopy = 258 := rfl
  rcases byte_cases h with ⟨more, rest, -, hrun, rfl⟩ | ⟨codes, hp, rfl⟩ |
    ⟨distance, more, codes, hp, -, rfl⟩
  · have := BitReader.length_byte hrun
    simp only [cost, waiting_afterStored, Array.size_push, hk]
    omega
  · simp only [cost, hp, waiting, Array.size_push]
    omega
  · have hwait : waiting (.copy distance more codes) = more + 1 := rfl
    simp only [cost, hp, waiting_afterCopied, hwait, Array.size_push]
    omega

/-- No run raises the potential. -/
theorem Inflates.cost_le {i j : Inflater} {d : Bytes} (h : Inflates i d j) : j.cost ≤ i.cost := by
  induction h with
  | refl => exact Nat.le_refl _
  | silent hs _ ih => exact Nat.le_trans ih (cost_silent hs)
  | byte hs _ ih => exact Nat.le_trans ih (cost_byte hs)

theorem Inflates.length_le {i j : Inflater} {d : Bytes} (h : Inflates i d j) :
    j.bits.length ≤ i.bits.length := by
  induction h with
  | refl => exact Nat.le_refl _
  | silent hs _ ih => exact Nat.le_trans ih (Nat.le_of_lt (step_silent hs).2.1)
  | byte hs _ ih => exact Nat.le_trans ih (step_byte hs).2.1

theorem cost_feed (i : Inflater) (b : Bytes) :
    (i.feed b).cost = i.cost + longestCopy * (8 * b.length) := by
  unfold cost feed
  simp only [List.length_append, Bits.length_ofBytes, Nat.mul_add, Nat.add_assoc]

end Inflater

/-! ## All of the input at once -/

namespace Bits

/-- Whole bytes are packed by themselves. -/
theorem toBytes_append : ∀ (a b : Bits), a.length % 8 = 0 →
    toBytes (a ++ b) = toBytes a ++ toBytes b
  | [], _, _ => rfl
  | b0 :: b1 :: b2 :: b3 :: b4 :: b5 :: b6 :: b7 :: rest, b, h => by
    have hrest : rest.length % 8 = 0 := by
      simp only [List.length_cons] at h
      omega
    simp only [List.cons_append, toBytes, toBytes_append rest b hrest]
  -- fewer than eight bits are no whole byte
  | [_], _, h | [_, _], _, h | [_, _, _], _, h | [_, _, _, _], _, h | [_, _, _, _, _], _, h
  | [_, _, _, _, _, _], _, h | [_, _, _, _, _, _, _], _, h => by simp at h

end Bits

namespace Inflater

variable {i k : Inflater} {d : Bytes} {halt : InflateHalt}

/-- The whole bytes that were taken in and not needed. -/
def behind (i : Inflater) : Bytes := Bits.toBytes (i.bits.drop (i.bits.length % 8))

theorem behind_feed (i : Inflater) (b : Bytes) : (i.feed b).behind = i.behind ++ b := by
  have hmod : (i.bits ++ Bits.ofBytes b).length % 8 = i.bits.length % 8 := by
    rw [List.length_append, Bits.length_ofBytes]
    omega
  unfold behind feed
  rw [hmod, List.drop_append_of_le_length (Nat.mod_le _ _), Bits.toBytes_append,
    Bits.toBytes_ofBytes]
  rw [List.length_drop]
  omega

/-- Less than a byte is nothing. -/
theorem behind_of_short (h : i.bits.length < 8) : i.behind = [] := by
  rw [behind, Nat.mod_eq_of_lt h, List.drop_length]
  rfl

/-- What an inflater comes to with the input that is there and all the room it needs. -/
def exhaust (i : Inflater) : Inflater × InflateHalt := i.advance (i.cost + 1)

theorem exhaust_inflates (i : Inflater) :
    ∃ d, Inflates i d i.exhaust.1 ∧ i.exhaust.1.step = .halt i.exhaust.2 := by
  obtain ⟨d, hrun, -, hstop⟩ := advance_inflates i (i.cost + 1)
  refine ⟨d, hrun, hstop.resolve_left ?_⟩
  rintro ⟨-, hd⟩
  -- a full output would be longer than the potential allows
  have hout := congrArg List.length hrun.out
  rw [List.length_append, Array.length_toList, Array.length_toList] at hout
  have hcost := hrun.cost_le
  have hsize : (i.advance (i.cost + 1)).1.out.size ≤ (i.advance (i.cost + 1)).1.cost :=
    Nat.le_trans (Nat.le_add_right _ _) (Nat.le_add_right _ _)
  omega

/-- There is one state only in which a run can end. -/
theorem exhaust_eq (h : Inflates i d k) (hk : k.step = .halt halt) : i.exhaust = (k, halt) := by
  obtain ⟨e, hrun, hend⟩ := i.exhaust_inflates
  have hsame : i.exhaust.1 = k := by
    rcases hrun.split h with ⟨_, -, hback⟩ | ⟨_, -, hback⟩
    · exact (Inflates.of_halt hk hback).2
    · exact ((Inflates.of_halt hend hback).2).symm
  rw [hsame, hk] at hend
  cases hend
  exact Prod.ext hsame rfl

end Inflater
/-! ## What compressed bytes stand for -/

namespace Gzip

open Inflater

/-- How the data ends if these bytes stand behind the last block: cleanly only behind the right
trailer. A trailer that is cut short gives way to the failure that cut it. -/
def trailerVerdict (data behind : Bytes) (ending : Option Failure) : Option Failure :=
  if behind.length < trailerLength then some (ending.getD .gzipCut)
  else if behind.take trailerLength = trailer (Crc32.check data) data.length then none
  else some .gzipChecksum

/-- How the data ends if the inflater stops in a state with all of the input. -/
def verdict (k : Inflater) (halt : InflateHalt) (ending : Option Failure) : Option Failure :=
  match halt with
  | .finished => trailerVerdict k.out.toList k.behind ending
  | .corrupt => some .deflateCorrupt
  | .starved | .full => some (ending.getD .deflateCut)

/-- No output waits when the compressed data turns out to be wrong or its source to fail: either
nothing is put out at all, or the data follows the rules, and a source that fails does so behind
bytes that a reader does not need before all output was handed out. -/
def LosslessAt (k : Inflater) (halt : InflateHalt) (ending : Option Failure) : Prop :=
  k.out = #[] ∨ halt ≠ .corrupt ∧ (ending = none ∨ halt = .finished ∧ k.behind ≠ [])

instance (k : Inflater) (halt : InflateHalt) (ending : Option Failure) :
    Decidable (LosslessAt k halt ending) := inferInstanceAs (Decidable (_ ∨ _))

/-- The data that bytes with a given end are unpacked to, and how it ends. -/
def unpacked (b : Bytes) (ending : Option Failure) : Bytes × Option Failure :=
  match readHeader (⟨b, ending⟩ : EndingSource) with
  | (.error f, _) => ([], some f)
  | (.ok (), s) =>
    match (feed {} s.rest).exhaust with
    | (k, halt) => (k.out.toList, verdict k halt s.ending)

/-- Unpacking the bytes loses nothing, in whatever pieces they arrive. -/
def Lossless (b : Bytes) (ending : Option Failure) : Prop :=
  ∀ s, readHeader (⟨b, ending⟩ : EndingSource) = (.ok (), s) →
    LosslessAt (feed {} s.rest).exhaust.1 (feed {} s.rest).exhaust.2 s.ending

instance (b : Bytes) (ending : Option Failure) : Decidable (Lossless b ending) :=
  match h : readHeader (⟨b, ending⟩ : EndingSource) with
  | (.error _, _) => isTrue fun s hs => nomatch h.symm.trans hs
  | (.ok (), s) =>
    decidable_of_iff (LosslessAt (feed {} s.rest).exhaust.1 (feed {} s.rest).exhaust.2 s.ending)
      ⟨fun hat s' hs => by cases h.symm.trans hs; exact hat, fun hall => hall s h⟩

/-! ### The header -/

open Source

variable {σ τ : Type} [Source σ] [Source τ] {S : σ → τ → Prop} {R : Promise σ} {s : σ} {t : τ}
  {ending : Option Failure}

theorem readPart_same (hS : Agrees S) (h : S s t) (n : Nat) :
    SameResult S (readPart s n) (readPart t n) := by
  have hg := hS.gather n h
  unfold readPart
  generalize gather s n = g at hg
  generalize gather t n = g' at hg
  cases hg with
  | failed got f => exact .error f
  | done got hafter =>
    simp only
    split
    · exact .error _
    · exact .ok got hafter

theorem readTextWithin_same (hS : Agrees S) : ∀ (left : Nat) (taken : Bytes) {s : σ} {t : τ},
    S s t → SameResult S (readTextWithin left taken s) (readTextWithin left taken t) := by
  intro left
  induction left with
  | zero =>
    intro taken s t h
    have hpart := readPart_same hS h 1
    unfold readTextWithin
    generalize readPart s 1 = x at hpart
    generalize readPart t 1 = y at hpart
    cases hpart with
    | error e => exact .error e
    | ok b hafter =>
      simp only
      split
      · exact .ok _ hafter
      · exact .error _
  | succ left ih =>
    intro taken s t h
    have hpart := readPart_same hS h 1
    unfold readTextWithin
    generalize readPart s 1 = x at hpart
    generalize readPart t 1 = y at hpart
    cases hpart with
    | error e => exact .error e
    | ok b hafter =>
      simp only
      split
      · exact .ok _ hafter
      · exact ih _ hafter

theorem readExtra_same (hS : Agrees S) (h : S s t) :
    SameResult S (readExtra s) (readExtra t) := by
  have hlen := readPart_same hS h 2
  unfold readExtra
  generalize readPart s 2 = x at hlen
  generalize readPart t 2 = y at hlen
  cases hlen with
  | error e => exact .error e
  | @ok s' t' length hafter =>
    have hextra := readPart_same hS hafter (Bytes.ofLittleEndian length)
    simp only
    generalize readPart s' (Bytes.ofLittleEndian length) = x at hextra
    generalize readPart t' (Bytes.ofLittleEndian length) = y at hextra
    cases hextra with
    | error e => exact .error e
    | ok extra hend => exact .ok _ hend

theorem readHeaderCheck_same (hS : Agrees S) (before : Bytes) (h : S s t) :
    SameResult S (readHeaderCheck before s) (readHeaderCheck before t) := by
  have hpart := readPart_same hS h 2
  unfold readHeaderCheck
  generalize readPart s 2 = x at hpart
  generalize readPart t 2 = y at hpart
  cases hpart with
  | error e => exact .error e
  | ok told hafter =>
    simp only
    split
    · exact .ok _ hafter
    · exact .error _

theorem readFixed_same (hS : Agrees S) (h : S s t) :
    SameResult S (readFixed s) (readFixed t) := by
  have hpart := readPart_same hS h headerLength
  unfold readFixed
  generalize readPart s headerLength = x at hpart
  generalize readPart t headerLength = y at hpart
  cases hpart with
  | error e => exact .error e
  | ok b hafter =>
    simp only
    split
    · exact .ok _ hafter
    · exact .error _

omit [Source σ] [Source τ] in
theorem readIf_same (announced : Bool) {part : Bytes → σ → Except Failure Bytes × σ}
    {part' : Bytes → τ → Except Failure Bytes × τ}
    (hpart : ∀ before {s : σ} {t : τ}, S s t → SameResult S (part before s) (part' before t))
    {x : Except Failure Bytes × σ} {y : Except Failure Bytes × τ} (h : SameResult S x y) :
    SameResult S (readIf announced part x) (readIf announced part' y) := by
  cases h with
  | error e => exact .error e
  | @ok s t before hafter =>
    unfold readIf
    by_cases hann : announced = true
    · have hp := hpart before hafter
      simp only [hann, if_true]
      generalize part before s = x at hp
      generalize part' before t = y at hp
      cases hp with
      | error e => exact .error e
      | ok b hend => exact .ok _ hend
    · simp only [hann]
      exact .ok before hafter

/-- A header is read alike from sources that agree. -/
theorem readHeader_same (hS : Agrees S) (h : S s t) :
    SameResult S (readHeader s) (readHeader t) := by
  have hfixed := readFixed_same hS h
  unfold readHeader
  generalize readFixed s = x at hfixed
  generalize readFixed t = y at hfixed
  cases hfixed with
  | error e => exact .error e
  | @ok s' t' b hafter =>
    simp only
    split
    · exact .error _
    · have hall := readIf_same ((b[3]?).getD 0 &&& 2 != 0)
        (fun before _ _ h => readHeaderCheck_same hS before h)
        (readIf_same ((b[3]?).getD 0 &&& 16 != 0)
          (fun _ _ _ h => readTextWithin_same hS maxTextLength [] h)
          (readIf_same ((b[3]?).getD 0 &&& 8 != 0)
            (fun _ _ _ h => readTextWithin_same hS maxTextLength [] h)
            (readIf_same ((b[3]?).getD 0 &&& 4 != 0) (fun _ _ _ h => readExtra_same hS h)
              (.ok b hafter))))
      unfold readText
      revert hall
      generalize readIf ((b[3]?).getD 0 &&& 2 != 0) readHeaderCheck (σ := σ) _ = x
      generalize readIf ((b[3]?).getD 0 &&& 2 != 0) readHeaderCheck (σ := τ) _ = y
      intro hall
      cases hall with
      | error e => exact .error e
      | ok all hend => exact .ok () hend

theorem readPart_append (hR : Delivers R) {front rest : Bytes} (hs : R s (front ++ rest) ending) :
    ∃ s', readPart s front.length = (.ok front, s') ∧ R s' rest ending := by
  obtain ⟨s', hgather, hs'⟩ := gather_append hR hs
  refine ⟨s', ?_, hs'⟩
  unfold readPart
  simp only [hgather, Nat.lt_irrefl, if_false]

/-- A header as it is written is taken off the front. -/
theorem readHeader_append (hR : Delivers R) {level : Level} {rest : Bytes}
    (hs : R s (header level ++ rest) ending) :
    ∃ s', readHeader s = (.ok (), s') ∧ R s' rest ending := by
  obtain ⟨s', hpart, hs'⟩ := readPart_append hR hs
  refine ⟨s', ?_, hs'⟩
  have hfixed : readFixed s = (.ok (header level), s') := by
    have hlen : (header level).length = headerLength := rfl
    rw [hlen] at hpart
    unfold readFixed
    rw [hpart]
    rfl
  have hflags : ((header level)[3]?).getD 0 = 0 := rfl
  have hnone : ∀ bit : UInt8, ((0 &&& bit) != 0) = false := by simp
  unfold readHeader
  simp only [hfixed, hflags, hnone, readIf, Bool.false_eq_true, if_false]
  rfl

/-! ### Members -/

/-- With a member in front the inflater stops behind its last block. -/
theorem exhaust_member {data m : Bytes} (hm : IsMember data m) (trailing : Bytes) :
    ∃ rest k, readHeader (⟨m ++ trailing, none⟩ : EndingSource) = (.ok (), ⟨rest, none⟩) ∧
      (Inflater.feed {} rest).exhaust = (k, .finished) ∧ k.out.toList = data ∧
      k.behind = trailer (Crc32.check data) data.length ++ trailing := by
  obtain ⟨level, compressed, rfl, j, hrun, hend⟩ := hm
  rw [if_pos rfl] at hend
  let behind := trailer (Crc32.check data) data.length ++ trailing
  have hhas : EndingSource.Has ⟨header level ++ compressed ++
      trailer (Crc32.check data) data.length ++ trailing, none⟩
      (header level ++ (compressed ++ behind)) none := by
    refine ⟨?_, rfl⟩
    simp only [behind, List.append_assoc]
  obtain ⟨⟨rest, later⟩, hheader, hrest, hlater⟩ := readHeader_append EndingSource.delivers hhas
  obtain rfl : rest = compressed ++ behind := hrest
  obtain rfl : later = none := hlater
  have hfeed := hrun.feed behind
  have hstart : Inflater.feed {} (compressed ++ behind) =
      ({ bits := Bits.ofBytes compressed } : Inflater).feed behind :=
    Inflater.feed_append {} compressed behind
  have hout : (j.feed behind).out.toList = data := hrun.out
  refine ⟨_, j.feed behind, hheader, ?_, hout, ?_⟩
  · rw [hstart]
    exact Inflater.exhaust_eq hfeed (Inflater.step_of_finished hend.1)
  · rw [Inflater.behind_feed, Inflater.behind_of_short hend.2, List.nil_append]

theorem length_trailer (check : UInt32) (length : Nat) :
    (trailer check length).length = trailerLength := by
  rw [trailer, List.length_append, Bytes.length_littleEndian, Bytes.length_littleEndian]
  rfl

/-- A member is unpacked to its data, whatever stands behind it. -/
theorem unpacked_member {data m : Bytes} (hm : IsMember data m) (trailing : Bytes) :
    unpacked (m ++ trailing) none = (data, none) := by
  obtain ⟨rest, k, hheader, hend, hout, hbehind⟩ := exhaust_member hm trailing
  have hlen := length_trailer (Crc32.check data) data.length
  unfold unpacked
  simp only [hheader, hend, verdict, hout, hbehind, trailerVerdict]
  rw [if_neg (by rw [List.length_append]; omega), ← hlen, List.take_left, if_pos rfl]

theorem lossless_member {data m : Bytes} (hm : IsMember data m) (trailing : Bytes) :
    Lossless (m ++ trailing) none := by
  obtain ⟨rest, k, hheader, hend, -, -⟩ := exhaust_member hm trailing
  intro s hs
  rw [hheader] at hs
  cases hs
  rw [hend]
  exact Or.inr ⟨by simp, Or.inl rfl⟩

end Gzip
end ChatBackup
