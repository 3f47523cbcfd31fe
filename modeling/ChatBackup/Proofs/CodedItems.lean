import ChatBackup.Proofs.Deflation
import ChatBackup.Proofs.Repeating

/-!
# Blocks of symbols

A block of items is read back item by item, and what the items stand for is put out:

> `Deflate.closed_decodes`: a block whose codes have words for all its symbols, ended at a byte,
> stands for its data, after any history.

Lengths and distances are told by the last step that is not above them and the bits that are left
(`reads_step`); that this is enough is a property of the tables of steps (`Covers`), which is
checked on them.
-/

namespace ChatBackup
namespace Bits

theorem ofByte_byte (b0 b1 b2 b3 b4 b5 b6 b7 : Bool) :
    ofByte (byte b0 b1 b2 b3 b4 b5 b6 b7) = [b0, b1, b2, b3, b4, b5, b6, b7] := by
  revert b0 b1 b2 b3 b4 b5 b6 b7
  decide +kernel

/-- The bits of packed bits are these, filled up to the next byte. -/
theorem ofBytes_toBytes : ∀ x : Bits, ∃ fill : Bits, fill.length < 8 ∧
    ofBytes (toBytes x) = x ++ fill
  | [] => ⟨[], by decide, rfl⟩
  | [a] => ⟨List.replicate 7 false, by decide, by simp [toBytes, ofByte_byte]⟩
  | [a, b] => ⟨List.replicate 6 false, by decide, by simp [toBytes, ofByte_byte]⟩
  | [a, b, c] => ⟨List.replicate 5 false, by decide, by simp [toBytes, ofByte_byte]⟩
  | [a, b, c, d] => ⟨List.replicate 4 false, by decide, by simp [toBytes, ofByte_byte]⟩
  | [a, b, c, d, e] => ⟨List.replicate 3 false, by decide, by simp [toBytes, ofByte_byte]⟩
  | [a, b, c, d, e, f] => ⟨List.replicate 2 false, by decide, by simp [toBytes, ofByte_byte]⟩
  | [a, b, c, d, e, f, g] => ⟨[false], by decide, by simp [toBytes, ofByte_byte]⟩
  | a :: b :: c :: d :: e :: f :: g :: h :: rest => by
    obtain ⟨fill, hfill, hrest⟩ := ofBytes_toBytes rest
    refine ⟨fill, hfill, ?_⟩
    rw [toBytes, ofBytes_cons, ofByte_byte, hrest]
    rfl

end Bits

namespace Inflater

theorem step_item {i : Inflater} {codes : BlockCodes} {item : BlockItem} {rest : Bits}
    (hp : i.phase = .item codes) (hr : (Block.itemReader codes).run i.bits = .done item rest) :
    i.step = .silent { i with phase := afterItem i.final codes item, bits := rest } := by
  unfold step
  rw [hp]
  simp only [hr, Step.ofReading]

/-- A copy is put out byte by byte. -/
theorem inflates_copy (final : Bool) (bits : Bits) (codes : BlockCodes) (distance : Nat) :
    ∀ (more : Nat) (out : Array UInt8), ∃ d,
      Inflates { phase := .copy distance more codes, final, out, bits } d
        { phase := .item codes, final, out := copied out distance (more + 1), bits } := by
  intro more
  induction more with
  | zero =>
    intro out
    exact ⟨[back out distance], .byte rfl (.refl _)⟩
  | succ more ih =>
    intro out
    obtain ⟨d, hd⟩ := ih (out.push (back out distance))
    exact ⟨back out distance :: d, .byte rfl hd⟩

end Inflater

namespace Deflate

open BitReader Inflater Repeats

/-! ## Values told by steps -/

/-- A value from one step on, up to the next one or to the bound, is told by the bits of the
step. -/
def Covers (steps : List (Nat × Nat)) (bound : Nat) : Prop :=
  ∀ i < steps.length, ((steps[i + 1]?).map (·.1)).getD (bound + 1) ≤
    ((steps[i]?).map fun s => s.1 + 2 ^ s.2).getD 0

instance (steps : List (Nat × Nat)) (bound : Nat) : Decidable (Covers steps bound) :=
  inferInstanceAs (Decidable (∀ i < steps.length, _ ≤ _))

/-- The last element before a condition fails for the first time. -/
theorem getLast?_takeWhile {α : Type} {p : α → Bool} : ∀ {l : List α} {x : α},
    (l.takeWhile p).getLast? = some x →
      p x = true ∧ ∃ n, l[n]? = some x ∧ ∀ y, l[n + 1]? = some y → p y = false
  | [], x, h => by cases h
  | a :: l, x, h => by
    rw [List.takeWhile_cons] at h
    split at h
    next ha =>
      rw [List.getLast?_cons] at h
      cases hlast : (l.takeWhile p).getLast? with
      | some z =>
        rw [hlast] at h
        cases h
        obtain ⟨hz, n, hn, hnext⟩ := getLast?_takeWhile hlast
        exact ⟨hz, n + 1, hn, hnext⟩
      | none =>
        rw [hlast] at h
        cases h
        refine ⟨ha, 0, rfl, ?_⟩
        rintro y hy
        rw [List.getLast?_eq_none_iff] at hlast
        cases l with
        | nil => cases hy
        | cons b l =>
          cases hy
          rw [List.takeWhile_cons] at hlast
          split at hlast
          · cases hlast
          · exact Bool.eq_false_iff.mpr ‹_›
    next => cases h

/-- The step for a value: the last one that is not above it, so that the value lies within. -/
theorem stepCode_spec {steps : List (Nat × Nat)} {bound value first width : Nat}
    (hc : Covers steps bound) (hfirst : steps[0]? = some (first, width)) (hlow : first ≤ value)
    (hhigh : value ≤ bound) :
    ∃ least width, steps[(stepCode steps value).symbol]? = some (least, width) ∧
      least ≤ value ∧ value < least + 2 ^ width ∧
      (stepCode steps value).rest = Bits.ofNat width (value - least) := by
  cases hlast : (steps.zipIdx.takeWhile (·.1.1 ≤ value)).getLast? with
  | none =>
    obtain _ | ⟨s, steps⟩ := steps
    · cases hfirst
    · cases hfirst
      rw [List.getLast?_eq_none_iff, List.zipIdx_cons, List.takeWhile_cons,
        if_pos (decide_eq_true hlow)] at hlast
      cases hlast
  | some x =>
    obtain ⟨⟨least, width⟩, symbol⟩ := x
    obtain ⟨hle, n, hn, hnext⟩ := getLast?_takeWhile hlast
    rw [List.getElem?_zipIdx, Option.map_eq_some_iff] at hn
    obtain ⟨s, hs, heq⟩ := hn
    obtain ⟨rfl, rfl⟩ := Prod.mk.inj heq
    rw [Nat.zero_add] at hlast
    have hcover := hc n (List.getElem?_eq_some_iff.mp hs).1
    rw [hs] at hcover
    rw [stepCode, hlast]
    refine ⟨least, width, hs, of_decide_eq_true hle, ?_, rfl⟩
    cases hafter : steps[n + 1]? with
    | none =>
      rw [hafter] at hcover
      exact Nat.lt_of_lt_of_le (Nat.lt_succ_of_le hhigh) hcover
    | some next =>
      rw [hafter] at hcover
      -- the next step is above the value, which the bits of this one therefore reach
      have hpast := hnext (next, n + 1) (by rw [List.getElem?_zipIdx, hafter, Nat.zero_add]; rfl)
      have : ¬ next.1 ≤ value := of_decide_eq_false hpast
      simp only [Option.map_some, Option.getD_some] at hcover
      omega

theorem covers_lengths : Covers Block.lengthSteps maxLength := by decide

theorem covers_distances : Covers Block.distanceSteps window := by decide

/-- A value is read back from the bits behind its symbol. -/
theorem reads_step {steps : List (Nat × Nat)} {bound value first width : Nat}
    (hc : Covers steps bound) (hfirst : steps[0]? = some (first, width)) (hlow : first ≤ value)
    (hhigh : value ≤ bound) :
    (Block.stepReader steps (stepCode steps value).symbol).Reads (stepCode steps value).rest
      value := by
  obtain ⟨least, width, hstep, hle, hlt, hrest⟩ := stepCode_spec hc hfirst hlow hhigh
  rw [Block.stepReader, hstep, hrest]
  refine (reads_number (by omega)).last ?_
  rw [Nat.add_sub_cancel' hle]
  exact reads_give _

/-! ## Items -/

/-- A code reads the words of some symbols out of its table. -/
def Knows (code : PrefixCode) (size : Nat) (symbols : List Nat) : Prop :=
  ∀ s ∈ symbols, code.reader.Reads (word (wordTable code size) s) s

theorem Knows.mono {code : PrefixCode} {size : Nat} {symbols more : List Nat}
    (h : Knows code size more) (hsub : symbols ⊆ more) : Knows code size symbols :=
  fun s hs => h s (hsub hs)

/-- The bits of one item. -/
abbrev oneItem (codes : BlockCodes) (item : BlockItem) : Bits :=
  prependItem (wordTable codes.literals 288) (wordTable codes.distances 32) item []

theorem prependItem_eq (literals distances : Array Bits) (item : BlockItem) (rest : Bits) :
    prependItem literals distances item rest = prependItem literals distances item [] ++ rest := by
  cases item <;> simp [prependItem]

theorem reads_item {codes : BlockCodes} {item : BlockItem} (htell : Tellable item)
    (hl : Knows codes.literals 288 [literalSymbol item])
    (hd : Knows codes.distances 32 (distanceSymbol item).toList) :
    (Block.itemReader codes).Reads (oneItem codes item) item := by
  have hsymbol := hl _ List.mem_cons_self
  cases item with
  | literal byte =>
    refine hsymbol.andThen ?_
    have hbyte : byte.toNat < Block.endSymbol := byte.toNat_lt
    rw [literalSymbol, if_pos hbyte, UInt8.ofNat_toNat]
    exact reads_give _
  | copy distance length =>
    obtain ⟨hmin, hmax, hpos, hnear⟩ := htell
    have hlength := reads_step covers_lengths rfl hmin hmax
    have hdistance := reads_step covers_distances rfl hpos hnear
    have hword := hd _ List.mem_cons_self
    have hback : Block.endSymbol + 1 + (stepCode Block.lengthSteps length).symbol -
        Block.endSymbol - 1 = (stepCode Block.lengthSteps length).symbol := by omega
    refine hsymbol.andThen ?_
    rw [literalSymbol, if_neg (by omega), if_neg (by omega), hback]
    exact hlength.bind (hword.bind (hdistance.bind (reads_give _)))
  | endOfBlock => cases htell

/-- The end of a block is read behind its items. -/
theorem reads_end {codes : BlockCodes} (hl : Knows codes.literals 288 [Block.endSymbol]) :
    (Block.itemReader codes).Reads (word (wordTable codes.literals 288) Block.endSymbol)
      .endOfBlock := by
  refine (hl _ List.mem_cons_self).last ?_
  rw [if_neg (Nat.lt_irrefl _), if_pos rfl]
  exact reads_give _

/-- An item is carried out. -/
theorem inflates_item {codes : BlockCodes} {item : BlockItem} (final : Bool) (out : Array UInt8)
    {bits rest : Bits} (htell : Tellable item)
    (hread : (Block.itemReader codes).run bits = .done item rest) :
    ∃ d, Inflates { phase := .item codes, final, out, bits } d
      { phase := .item codes, final, out := put out item, bits := rest } := by
  cases item with
  | literal byte => exact ⟨_, .silent (step_item rfl hread) (.byte rfl (.refl _))⟩
  | copy distance length =>
    obtain ⟨more, rfl⟩ : ∃ more, length = more + 1 := by
      have : 3 ≤ length := htell.1
      exact ⟨length - 1, by omega⟩
    obtain ⟨d, hd⟩ := inflates_copy final rest codes distance more out
    exact ⟨d, .silent (step_item rfl hread) hd⟩
  | endOfBlock => cases htell

/-- Items are carried out one after the other up to the end of their block. -/
theorem inflates_items {codes : BlockCodes} (final : Bool) (rest : Bits) :
    ∀ {items : List BlockItem} (out : Array UInt8), (∀ item ∈ items, Tellable item) →
      Knows codes.literals 288 (literalSymbols items) →
      Knows codes.distances 32 (distanceSymbols items) →
        ∃ d, Inflates { phase := .item codes, final, out, bits := itemBits codes items ++ rest } d
          { phase := afterBlock final, final, out := expand out items, bits := rest } := by
  intro items
  induction items with
  | nil =>
    intro out _ hl _
    exact ⟨[], .silent (step_item rfl (reads_end hl rest)) (.refl _)⟩
  | cons item items ih =>
    intro out htell hl hd
    have hone : (Block.itemReader codes).Reads (oneItem codes item) item := by
      refine reads_item (htell item List.mem_cons_self) (hl.mono ?_) (hd.mono ?_)
      · simp [literalSymbols]
      · cases h : distanceSymbol item <;> simp [distanceSymbols, h]
    have hbits : itemBits codes (item :: items) ++ rest =
        oneItem codes item ++ (itemBits codes items ++ rest) := by
      rw [itemBits, List.foldr_cons, prependItem_eq, List.append_assoc]
      rfl
    obtain ⟨d, hitem⟩ := inflates_item final out (htell item List.mem_cons_self)
      (hone (itemBits codes items ++ rest))
    have hlmore : Knows codes.literals 288 (literalSymbols items) :=
      hl.mono (by simp [literalSymbols])
    have hdmore : Knows codes.distances 32 (distanceSymbols items) :=
      hd.mono (by cases h : distanceSymbol item <;> simp [distanceSymbols, h])
    obtain ⟨e, hmore⟩ :=
      ih (put out item) (fun i hi => htell i (List.mem_cons_of_mem _ hi)) hlmore hdmore
    rw [hbits]
    exact ⟨d ++ e, hitem.trans hmore⟩

/-! ## Blocks -/

/-- A block is carried out. -/
theorem inflates_block {codes : BlockCodes} {opening : Bits} {final : Bool}
    {items : List BlockItem} (out : Array UInt8) (rest : Bits)
    (hopen : Block.startReader.Reads opening (final, .coded codes))
    (htell : ∀ item ∈ items, Tellable item)
    (hl : Knows codes.literals 288 (literalSymbols items))
    (hd : Knows codes.distances 32 (distanceSymbols items)) :
    ∃ d, Inflates { out, bits := opening ++ itemBits codes items ++ rest } d
      { phase := afterBlock final, final, out := expand out items, bits := rest } := by
  obtain ⟨d, h⟩ := inflates_items final rest out htell hl hd
  rw [List.append_assoc]
  exact ⟨d, .silent (step_start rfl (hopen _)) h⟩

/-- What is put out by a run is what its output has grown by. -/
theorem inflates_of_out {i j : Inflater} {d : Bytes} {data : Array UInt8} (h : Inflates i d j)
    (hout : j.out = i.out ++ data) : d = data.toList := by
  have hlist := h.out
  rw [hout, Array.toList_append] at hlist
  exact (List.append_cancel_left hlist).symm

/-- The block without bytes that closes a segment may begin anywhere in a byte. -/
theorem inflates_pause (out : Array UInt8) {fill : Bits} (hfill : fill.length < 8) :
    Inflates { out, bits := Bits.ofNat 3 0 ++ (fill ++ Bits.ofBytes (pauseBlock.drop 1)) } []
      { out } := by
  have hrest : Bits.ofBytes (pauseBlock.drop 1) =
      Bits.ofNat 16 0 ++ (Bits.ofNat 16 0xffff ++ Bits.ofBytes []) := by decide
  rw [hrest]
  exact .silent (step_start rfl (run_storedStart false hfill (b := []) (by decide))) (.refl _)

/-- **Blocks of symbols stand for their data**, after any history, if their codes have words for all
their symbols. -/
theorem closed_decodes {codes : BlockCodes} {opening : Bits} {final : Bool}
    (history data : Array UInt8)
    (hopen : Block.startReader.Reads opening (final, .coded codes))
    (hl : Knows codes.literals 288 (literalSymbols (items data)))
    (hd : Knows codes.distances 32 (distanceSymbols (items data))) :
    Decodes final history (closed final (opening ++ itemBits codes (items data))) data.toList := by
  have hblock (rest : Bits) := inflates_block history rest hopen (tellable_of_mem_items data) hl hd
  simp only [expand_items] at hblock
  cases final with
  | true =>
    obtain ⟨fill, hfill, hbits⟩ := Bits.ofBytes_toBytes (opening ++ itemBits codes (items data))
    obtain ⟨d, h⟩ := hblock fill
    obtain rfl := inflates_of_out h rfl
    rw [closed, if_pos rfl, Decodes, hbits]
    exact ⟨_, h, rfl, hfill⟩
  | false =>
    -- the closing block begins in the last byte of the items and fills it up
    obtain ⟨fill, hfill, hbits⟩ :=
      Bits.ofBytes_toBytes (opening ++ itemBits codes (items data) ++ Bits.ofNat 3 0)
    obtain ⟨d, h⟩ := hblock (Bits.ofNat 3 0 ++ (fill ++ Bits.ofBytes (pauseBlock.drop 1)))
    obtain rfl := inflates_of_out h rfl
    have hpaused := h.trans (inflates_pause (history ++ data) hfill)
    rw [List.append_nil] at hpaused
    rw [closed, if_neg Bool.false_ne_true, Decodes, Bits.ofBytes_append, hbits,
      List.append_assoc _ _ fill, List.append_assoc]
    exact ⟨_, hpaused, rfl⟩

end Deflate
end ChatBackup
