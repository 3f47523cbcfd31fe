import ChatBackup.Proofs.ToldCodes

/-!
# Segments stand for their data

> `Deflate.segment_decodes`: a segment stands for its data, after any history, in whichever form it
> is the shortest.

A block under the fixed codes has words for all symbols there are (`fixedBlock_decodes`). One with
its own codes has words for the symbols that were counted, which are those of its items
(`ownBlock_decodes`).
-/

namespace ChatBackup.Deflate

open BitReader Repeats WordLengths

/-! ## Symbols -/

theorem symbol_lt {steps : List (Nat × Nat)} {bound value first width : Nat}
    (hc : Covers steps bound) (hfirst : steps[0]? = some (first, width)) (hlow : first ≤ value)
    (hhigh : value ≤ bound) : (stepCode steps value).symbol < steps.length := by
  obtain ⟨_, _, hstep, -⟩ := stepCode_spec hc hfirst hlow hhigh
  exact (List.getElem?_eq_some_iff.mp hstep).1

theorem literalSymbol_lt {item : BlockItem} (h : Tellable item) : literalSymbol item < 286 := by
  cases item with
  | literal byte => exact Nat.lt_trans byte.toNat_lt (by decide)
  | copy distance length =>
    have hlt := symbol_lt covers_lengths rfl h.1 h.2.1
    have hlen : Block.lengthSteps.length = 29 := rfl
    have hend : Block.endSymbol = 256 := rfl
    rw [literalSymbol]
    omega
  | endOfBlock => cases h

theorem literalSymbols_lt {items : List BlockItem} (h : ∀ item ∈ items, Tellable item) :
    ∀ s ∈ literalSymbols items, s < 286 := by
  intro s hs
  rcases List.mem_cons.mp hs with rfl | hs
  · decide
  · obtain ⟨item, hitem, rfl⟩ := List.mem_map.mp hs
    exact literalSymbol_lt (h item hitem)

theorem distanceSymbols_lt {items : List BlockItem} (h : ∀ item ∈ items, Tellable item) :
    ∀ s ∈ distanceSymbols items, s < 30 := by
  intro s hs
  obtain ⟨item, hitem, hs⟩ := List.mem_filterMap.mp hs
  cases item with
  | copy distance length =>
    cases hs
    obtain ⟨-, -, hpos, hnear⟩ := h _ hitem
    exact symbol_lt covers_distances rfl hpos hnear
  | literal => cases hs
  | endOfBlock => cases hs

/-! ## Segments -/

/-- A code in which every symbol has a word knows them all. -/
theorem knows_of_all {lengths symbols : List Nat} {size : Nat}
    (hroom : PrefixCode.space lengths ≤ 2 ^ PrefixCode.maxLength)
    (hall : ∀ l ∈ lengths, l ≠ 0 ∧ l ≤ PrefixCode.maxLength) (hsize : lengths.length = size)
    (hs : ∀ s ∈ symbols, s < size) : Knows (.ofLengths lengths) size symbols := by
  refine knows_of_lengths hroom fun s hmem => ⟨hs s hmem, ?_⟩
  have hlt : s < lengths.length := hsize ▸ hs s hmem
  exact ⟨lengths[s], List.getElem?_eq_getElem hlt, hall _ (List.getElem_mem hlt)⟩

theorem fixedBlock_decodes (final : Bool) (history data : Array UInt8) :
    Decodes final history (closed final (fixedBlock final (items data))) data.toList := by
  have hopen : Block.startReader.Reads (final :: Bits.ofNat 2 1) (final, .coded Block.fixedCodes) :=
    fun rest => rfl
  refine closed_decodes history data hopen ?_ ?_
  · refine knows_of_all (by decide +kernel) (by decide +kernel) (by decide +kernel) fun s hs => ?_
    exact Nat.lt_trans (literalSymbols_lt (tellable_of_mem_items data) s hs) (by decide)
  · refine knows_of_all (by decide +kernel) (by decide +kernel) rfl fun s hs => ?_
    exact Nat.lt_trans (distanceSymbols_lt (tellable_of_mem_items data) s hs) (by decide)

theorem ownBlock_decodes {final : Bool} {data : Array UInt8} {block : Bits}
    (h : ownBlock final (items data) = some block) (history : Array UInt8) :
    Decodes final history (closed final block) data.toList := by
  unfold ownBlock at h
  simp only [Option.bind_eq_bind, Option.bind_eq_some_iff, Option.some.injEq] at h
  obtain ⟨literals, hl, distances, hd, told, htold, rfl⟩ := h
  have hlsuits := ofCounts_suits (by decide) hl
  have hdsuits := ofCounts_suits (by decide) hd
  have hllength : literals.length = 286 := by rw [hlsuits.length, length_countSymbols]
  have hdlength : distances.length = 30 := by rw [hdsuits.length, length_countSymbols]
  have htell := tellable_of_mem_items data
  have hcodes := reads_codes htold
    ⟨le_length_trimmed (by omega), hllength ▸ length_trimmed_le _ _⟩
    ⟨le_length_trimmed (by omega), hdlength ▸ length_trimmed_le _ _⟩ ?_
    (isUsable_trimmed hlsuits) (isUsable_trimmed hdsuits)
  · have hopen : Block.startReader.Reads (final :: Bits.ofNat 2 2 ++ told) (final, .coded _) :=
      (reads_bit final).andThen
        ((reads_number (n := 2) (by decide)).bind (hcodes.last (reads_give _)))
    exact closed_decodes history data hopen
      (knows_trimmed (by decide) hlsuits (literalSymbols_lt htell) (by decide))
      (knows_trimmed (by decide) hdsuits (distanceSymbols_lt htell) (by decide))
  · -- both limits are fifteen bits
    intro l hl
    rcases List.mem_append.mp hl with hl | hl
    · exact Nat.lt_succ_of_le (hlsuits.le l (List.mem_of_mem_take hl))
    · exact Nat.lt_succ_of_le (hdsuits.le l (List.mem_of_mem_take hl))

/-- **Coded segments stand for their data**, after any history. -/
theorem codedSegment_decodes (final : Bool) (history data : Array UInt8) :
    Decodes final history (codedSegment final data) data.toList := by
  have hfixed := fixedBlock_decodes final history data
  unfold codedSegment
  simp only
  split
  next => exact hfixed
  next block hblock =>
    split
    next => exact ownBlock_decodes hblock history
    next => exact hfixed

/-- **Segments stand for their data**, after any history. -/
theorem segment_decodes (final : Bool) (history data : Array UInt8) :
    Decodes final history (segment final data) data.toList := by
  unfold segment
  simp only
  split
  next => exact codedSegment_decodes final history data
  next => exact storedSegment_decodes final history data.toList

end ChatBackup.Deflate
