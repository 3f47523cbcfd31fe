import ChatBackup.Proofs.CodedItems
import ChatBackup.Proofs.WordChoice
import Mathlib.Data.List.Chain
import Mathlib.Data.List.SplitBy

/-!
# Codes at the beginning of a block

A block may begin with its own codes. What it tells of them is read back:

> `Deflate.reads_codes`: from what a block tells of two codes a reader makes the same codes, if it
> would take their word lengths for codes.

The word lengths are told run by run. `Tells` says of bits what a reader of word lengths adds behind
those it has, and each way to tell a part of a run is one lemma about a round of the reader
(`Adds`). The code that the word lengths are written in must be complete, which it is as two symbols
at least are counted for it.
-/

namespace ChatBackup

namespace Deflate

open BitReader WordLengths

/-! ## Counting -/

theorem size_count (symbols : List Nat) (t : Array Nat) :
    (symbols.foldl (fun t s => t.modify s (· + 1)) t).size = t.size := by
  induction symbols generalizing t with
  | nil => rfl
  | cons s symbols ih => rw [List.foldl_cons, ih, Array.size_modify]

theorem length_countSymbols (size : Nat) (symbols : List Nat) :
    (countSymbols size symbols).length = size := by
  rw [countSymbols, Array.length_toList, size_count, Array.size_replicate]

/-- Counting makes no count smaller. -/
theorem count_mono {s c : Nat} (symbols : List Nat) (t : Array Nat) (h : t[s]? = some c)
    (hc : c ≠ 0) :
    ∃ c', (symbols.foldl (fun t s => t.modify s (· + 1)) t)[s]? = some c' ∧ c' ≠ 0 := by
  induction symbols generalizing t c with
  | nil => exact ⟨c, h, hc⟩
  | cons r symbols ih =>
    rw [List.foldl_cons]
    refine ih (c := if r = s then c + 1 else c) _ ?_ ?_
    · rw [Array.getElem?_modify, h]
      split <;> rfl
    · split
      · exact Nat.succ_ne_zero c
      · exact hc

/-- What is met is counted. -/
theorem count_of_mem {s : Nat} {symbols : List Nat} (h : s ∈ symbols) (t : Array Nat)
    (hs : s < t.size) :
    ∃ c, (symbols.foldl (fun t s => t.modify s (· + 1)) t)[s]? = some c ∧ c ≠ 0 := by
  induction symbols generalizing t with
  | nil => cases h
  | cons r symbols ih =>
    rw [List.foldl_cons]
    rcases List.mem_cons.mp h with rfl | h
    · refine count_mono (c := t[s] + 1) symbols _ ?_ (Nat.succ_ne_zero _)
      rw [Array.getElem?_modify, if_pos rfl, Array.getElem?_eq_getElem hs]
      rfl
    · exact ih h _ (by rw [Array.size_modify]; exact hs)

theorem mem_occurring_count {s size : Nat} {symbols : List Nat} (h : s ∈ symbols) (hs : s < size) :
    s ∈ occurring (countSymbols size symbols) := by
  obtain ⟨c, hc, hne⟩ := count_of_mem h (Array.replicate size 0) (by rwa [Array.size_replicate])
  rw [mem_occurring]
  exact ⟨c, by rw [countSymbols, Array.getElem?_toList]; exact hc, hne⟩

/-! ## Leaving zeros out -/

/-- What is left out are zeros. -/
theorem trimmed_spec (least : Nat) (lengths : List Nat) :
    ∃ k, lengths = trimmed least lengths ++ List.replicate k 0 := by
  obtain ⟨kept, zeros, rfl, hzeros, hkept⟩ : ∃ kept zeros, lengths = kept ++ zeros ∧
      (∀ l ∈ zeros, l = 0) ∧ (lengths.reverse.dropWhile (· == 0)).length = kept.length := by
    refine ⟨(lengths.reverse.dropWhile (· == 0)).reverse,
      (lengths.reverse.takeWhile (· == 0)).reverse, ?_, ?_, List.length_reverse.symm⟩
    · rw [← List.reverse_append, List.takeWhile_append_dropWhile, List.reverse_reverse]
    · intro l hl
      have h := List.all_eq_true.mp (List.all_takeWhile (p := (· == 0)) (l := lengths.reverse)) l
      exact beq_iff_eq.mp (h (List.mem_reverse.mp hl))
  have hbehind : ∀ l ∈ zeros.drop (least - kept.length), l = 0 := fun l hl =>
    hzeros l (List.mem_of_mem_drop hl)
  have hmax : max least kept.length - kept.length = least - kept.length := by omega
  refine ⟨(zeros.drop (least - kept.length)).length, ?_⟩
  rw [trimmed, hkept, List.take_append, List.take_of_length_le (Nat.le_max_right _ _), hmax,
    ← List.eq_replicate_of_mem hbehind, List.append_assoc, List.take_append_drop]

theorem le_length_trimmed {least : Nat} {lengths : List Nat} (h : least ≤ lengths.length) :
    least ≤ (trimmed least lengths).length := by
  rw [trimmed, List.length_take]
  omega

theorem length_trimmed_le (least : Nat) (lengths : List Nat) :
    (trimmed least lengths).length ≤ lengths.length :=
  List.length_take_le' _ _

variable {limit least : Nat} {counts lengths : List Nat}

theorem getElem?_trimmed {s l : Nat} (h : lengths[s]? = some l) (hl : l ≠ 0) :
    (trimmed least lengths)[s]? = some l := by
  obtain ⟨k, hk⟩ := trimmed_spec least lengths
  rw [hk] at h
  by_cases hs : s < (trimmed least lengths).length
  · rwa [List.getElem?_append_left hs] at h
  · rw [List.getElem?_append_right (by omega), List.getElem?_replicate] at h
    split at h
    · cases h; exact absurd rfl hl
    · cases h

theorem space_trimmed (least : Nat) (lengths : List Nat) :
    PrefixCode.space (trimmed least lengths) = PrefixCode.space lengths := by
  obtain ⟨k, hk⟩ := trimmed_spec least lengths
  have hspace := congrArg PrefixCode.space hk
  simp only [space_eq, List.map_append, List.sum_append, List.map_replicate, WordLengths.room,
    if_true, List.sum_replicate_nat, Nat.mul_zero, Nat.add_zero] at hspace ⊢
  exact hspace.symm

theorem used_trimmed (least : Nat) (lengths : List Nat) :
    PrefixCode.used (trimmed least lengths) = PrefixCode.used lengths := by
  obtain ⟨k, hk⟩ := trimmed_spec least lengths
  have hused := congrArg PrefixCode.used hk
  simp only [PrefixCode.used, List.countP_append, List.countP_replicate, bne_self_eq_false]
    at hused ⊢
  simpa using hused.symm

/-- Chosen lengths without zeros at the end are taken for a code. -/
theorem isUsable_trimmed (h : Suits limit counts lengths) :
    Block.isUsable (trimmed least lengths) = true := by
  rw [Block.isUsable, PrefixCode.isComplete, space_trimmed, used_trimmed, Bool.or_eq_true]
  rcases h.code with hone | hfull
  · exact Or.inl (decide_eq_true hone)
  · rw [hfull, Nat.one_shiftLeft]
    exact Or.inr (beq_self_eq_true _)

/-- A code knows the symbols that have a length, if there is room for all words. -/
theorem knows_of_lengths {size : Nat} {symbols : List Nat}
    (hroom : PrefixCode.space lengths ≤ 2 ^ PrefixCode.maxLength)
    (h : ∀ s ∈ symbols, s < size ∧ ∃ l, lengths[s]? = some l ∧ l ≠ 0 ∧ l ≤ PrefixCode.maxLength) :
    Knows (.ofLengths lengths) size symbols := by
  intro s hs
  obtain ⟨hlt, l, hl, hpos, hle⟩ := h s hs
  exact PrefixCode.reads_word hroom hl hpos hle hlt

/-- Chosen lengths have a word for every symbol that was counted. -/
theorem exists_length {size : Nat} {symbols : List Nat} (hlimit : limit ≤ PrefixCode.maxLength)
    (h : Suits limit (countSymbols size symbols) lengths) {s : Nat} (hmem : s ∈ symbols)
    (hs : s < size) : ∃ l, lengths[s]? = some l ∧ l ≠ 0 ∧ l ≤ PrefixCode.maxLength := by
  obtain ⟨c, hc, hne⟩ := mem_occurring.mp (mem_occurring_count hmem hs)
  obtain ⟨l, hl, hpos⟩ := h.word hc hne
  exact ⟨l, hl, hpos, Nat.le_trans (h.le l (List.mem_of_getElem? hl)) hlimit⟩

/-- Without the zeros at the end a code knows the symbols that were counted, too. -/
theorem knows_trimmed {size room : Nat} {symbols : List Nat} (hlimit : limit ≤ PrefixCode.maxLength)
    (h : Suits limit (countSymbols size symbols) lengths) (hs : ∀ s ∈ symbols, s < size)
    (hroom : size ≤ room) : Knows (.ofLengths (trimmed least lengths)) room symbols := by
  refine knows_of_lengths (by rw [space_trimmed]; exact h.room) fun s hmem => ?_
  obtain ⟨l, hl, hpos, hle⟩ := exists_length hlimit h hmem (hs s hmem)
  exact ⟨Nat.lt_of_lt_of_le (hs s hmem) hroom, l, getElem?_trimmed hl hpos, hpos, hle⟩

/-! ## Telling word lengths -/

/-- The bits of what word lengths are told by. -/
abbrev toldBits (table : Array Bits) (told : List StepCode) : Bits :=
  told.flatMap fun t => word table t.symbol ++ t.rest

/-- Behind the lengths that are `done` a reader of lengths takes these bits for `count` times a
length more, whatever it reads then. -/
def Adds (code : PrefixCode) (done : List Nat) (bits : Bits) (count length : Nat) : Prop :=
  ∀ (fuel left : Nat) (rest : Bits), count ≤ left →
    (Block.lengthsReader code (fuel + 1) left done).run (bits ++ rest) =
      (Block.lengthsReader code fuel (left - count) (List.replicate count length ++ done)).run rest

variable {code : PrefixCode} {w : Bits} {done : List Nat} {length : Nat}

/-- A length by itself. -/
theorem adds_one (hw : code.reader.Reads w length) (hlength : length < 16) :
    Adds code done (w ++ []) 1 length := by
  intro fuel left rest hleft
  rw [List.append_nil, Block.lengthsReader, if_neg (by omega), run_bind (hw rest)]
  split
  · omega
  · omega
  · omega
  · exact run_bind (reads_ensure (decide_eq_true hleft) rest)

/-- A length as often as is told by the bits behind a symbol. -/
theorem run_counted {least width n fuel left : Nat} (hn : least ≤ n ∧ n < least + 2 ^ width)
    (hleft : n ≤ left) (rest : Bits) :
    BitReader.run (do
        let more ← number width
        ensure (least + more ≤ left)
        Block.lengthsReader code fuel (left - (least + more))
          (List.replicate (least + more) length ++ done))
      (Bits.ofNat width (n - least) ++ rest) =
    (Block.lengthsReader code fuel (left - n) (List.replicate n length ++ done)).run rest := by
  have hnumber : (number width).Reads (Bits.ofNat width (n - least)) (n - least) :=
    reads_number (by omega)
  rw [run_bind (hnumber _), Nat.add_sub_cancel' hn.1]
  exact run_bind (reads_ensure (decide_eq_true hleft) rest)

/-- The last length again. -/
theorem adds_again {last n : Nat} (hw : code.reader.Reads w 16) (hn : 3 ≤ n ∧ n < 3 + 2 ^ 2) :
    Adds code (last :: done) (w ++ Bits.ofNat 2 (n - 3)) n last := by
  intro fuel left rest hleft
  rw [Block.lengthsReader, if_neg (by omega), List.append_assoc, run_bind (hw _)]
  exact run_counted hn hleft rest

/-- A few zeros. -/
theorem adds_few {n : Nat} (hw : code.reader.Reads w 17) (hn : 3 ≤ n ∧ n < 3 + 2 ^ 3) :
    Adds code done (w ++ Bits.ofNat 3 (n - 3)) n 0 := by
  intro fuel left rest hleft
  rw [Block.lengthsReader, if_neg (by omega), List.append_assoc, run_bind (hw _)]
  exact run_counted hn hleft rest

/-- Many zeros. -/
theorem adds_many {n : Nat} (hw : code.reader.Reads w 18) (hn : 11 ≤ n ∧ n < 11 + 2 ^ 7) :
    Adds code done (w ++ Bits.ofNat 7 (n - 11)) n 0 := by
  intro fuel left rest hleft
  rw [Block.lengthsReader, if_neg (by omega), List.append_assoc, run_bind (hw _)]
  dsimp only
  exact run_counted hn hleft rest

/-- Behind the lengths that are `done` a reader of lengths takes these bits for some lengths more,
with as much fuel as it needs. -/
def Tells (code : PrefixCode) (done : List Nat) (bits : Bits) (lengths : List Nat) : Prop :=
  ∀ (fuel left : Nat) (rest : Bits), left ≤ fuel → lengths.length ≤ left →
    ∃ fuel', left - lengths.length ≤ fuel' ∧
      (Block.lengthsReader code fuel left done).run (bits ++ rest) =
        (Block.lengthsReader code fuel' (left - lengths.length) (lengths.reverse ++ done)).run rest

theorem tells_nil (code : PrefixCode) (done : List Nat) : Tells code done [] [] :=
  fun fuel _ _ hfuel _ => ⟨fuel, hfuel, rfl⟩

theorem Tells.append {bits more : Bits} {lengths others : List Nat}
    (h : Tells code done bits lengths) (hmore : Tells code (lengths.reverse ++ done) more others) :
    Tells code done (bits ++ more) (lengths ++ others) := by
  intro fuel left rest hfuel hleft
  rw [List.length_append] at hleft
  obtain ⟨fuel', hfuel', hrun⟩ := h fuel left (more ++ rest) hfuel (by omega)
  obtain ⟨fuel'', hfuel'', hrun'⟩ :=
    hmore fuel' (left - lengths.length) rest hfuel' (by omega)
  refine ⟨fuel'', ?_, ?_⟩
  · rw [List.length_append, Nat.sub_add_eq]
    exact hfuel''
  · rw [List.append_assoc, hrun, hrun', List.length_append, Nat.sub_add_eq, List.reverse_append,
      List.append_assoc]

theorem Adds.tells {bits : Bits} {count : Nat} (h : Adds code done bits count length)
    (hpos : 0 < count) : Tells code done bits (List.replicate count length) := by
  intro fuel left rest hfuel hleft
  rw [List.length_replicate] at hleft ⊢
  obtain ⟨fuel, rfl⟩ : ∃ f, fuel = f + 1 := ⟨fuel - 1, by omega⟩
  rw [h fuel left rest hleft, List.reverse_replicate]
  exact ⟨fuel, by omega, rfl⟩

/-- More of the same length behind some. -/
theorem Tells.more {bits more : Bits} {n count : Nat}
    (h : Tells code done bits (List.replicate n length)) (hn : n ≤ count)
    (hmore : Tells code (List.replicate n length ++ done) more
      (List.replicate (count - n) length)) :
    Tells code done (bits ++ more) (List.replicate count length) := by
  have hboth := h.append (by rw [List.reverse_replicate]; exact hmore)
  rw [List.replicate_append_replicate, Nat.add_sub_cancel' hn] at hboth
  exact hboth

/-- A run of lengths is read back. -/
theorem tells_run {table : Array Bits} (hlength : length < 16) :
    ∀ (fuel : Nat) {count : Nat} (done : List Nat), count ≤ fuel →
      (∀ t ∈ tellRun length fuel count, code.reader.Reads (word table t.symbol) t.symbol) →
        Tells code done (toldBits table (tellRun length fuel count))
          (List.replicate count length) := by
  intro fuel
  induction fuel with
  | zero =>
    intro count done hcount _
    obtain rfl := Nat.le_zero.mp hcount
    exact tells_nil code done
  | succ fuel ih =>
    intro count done hcount hk
    generalize htold : tellRun length (fuel + 1) count = told at hk ⊢
    unfold tellRun at htold
    split at htold
    next hzero =>
      subst htold hzero
      exact tells_nil code done
    next hpos =>
      split at htold
      next hmany =>
        subst htold
        obtain ⟨rfl, hmany⟩ : length = 0 ∧ 11 ≤ count := by simpa using hmany
        have hfirst : Adds code done _ (min count 138) 0 :=
          adds_many (hk _ List.mem_cons_self) (by omega)
        refine (hfirst.tells (by omega)).more (by omega) (ih _ (by omega) fun t ht => ?_)
        exact hk t (List.mem_cons_of_mem _ ht)
      next =>
        split at htold
        next hfew =>
          subst htold
          obtain ⟨rfl, hfew⟩ : length = 0 ∧ 3 ≤ count := by simpa using hfew
          have hfirst : Adds code done _ (min count 10) 0 :=
            adds_few (hk _ List.mem_cons_self) (by omega)
          refine (hfirst.tells (by omega)).more (by omega) (ih _ (by omega) fun t ht => ?_)
          exact hk t (List.mem_cons_of_mem _ ht)
        next =>
          split at htold
          next hagain =>
            -- the length is told once, so that it is there to be told again
            subst htold
            have hone : Adds code done _ 1 length := adds_one (hk _ List.mem_cons_self) hlength
            have hsame : Adds code (length :: done) _ (min (count - 1) 6) length :=
              adds_again (hk _ (List.mem_cons_of_mem _ List.mem_cons_self)) (by omega)
            refine (hone.tells Nat.one_pos).more (by omega) ?_
            refine (hsame.tells (by omega)).more (by omega) ?_
            refine ih _ (by omega) fun t ht => ?_
            exact hk t (List.mem_cons_of_mem _ (List.mem_cons_of_mem _ ht))
          next =>
            subst htold
            have hone : Adds code done _ 1 length := adds_one (hk _ List.mem_cons_self) hlength
            refine (hone.tells Nat.one_pos).more (by omega) (ih _ (by omega) fun t ht => ?_)
            exact hk t (List.mem_cons_of_mem _ ht)

/-- Lengths are told by fewer symbols than the code for them may have. -/
theorem symbol_lt_of_mem_tellRun (hlength : length < 16) : ∀ (fuel : Nat) {count : Nat},
    ∀ t ∈ tellRun length fuel count, t.symbol < 19 := by
  intro fuel
  induction fuel with
  | zero =>
    intro count t ht
    cases ht
  | succ fuel ih =>
    intro count t ht
    unfold tellRun at ht
    split at ht
    · cases ht
    · split at ht
      · rcases List.mem_cons.mp ht with rfl | ht
        · exact Nat.le_refl 19
        · exact ih t ht
      · split at ht
        · rcases List.mem_cons.mp ht with rfl | ht
          · exact Nat.le_succ 18
          · exact ih t ht
        · split at ht
          · rcases List.mem_cons.mp ht with rfl | ht
            · exact Nat.lt_trans hlength (by decide)
            · rcases List.mem_cons.mp ht with rfl | ht
              · exact Nat.le_add_right 17 2
              · exact ih t ht
          · rcases List.mem_cons.mp ht with rfl | ht
            · exact Nat.lt_trans hlength (by decide)
            · exact ih t ht

/-- The runs that lengths are told by. -/
theorem eq_replicate_of_mem_runs {run : List Nat} (h : run ∈ lengths.splitBy (· == ·)) :
    run = List.replicate run.length (run.headD 0) := by
  have hchain : run.IsChain (· = ·) := by
    have := List.isChain_of_mem_splitBy h
    simpa using this
  cases run with
  | nil => rfl
  | cons l run =>
    rw [List.isChain_cons_eq_iff_eq_replicate] at hchain
    rw [List.headD_cons, List.length_cons, List.replicate_succ, ← hchain]

theorem headD_mem {run : List Nat} (h : run ≠ []) : run.headD 0 ∈ run := by
  cases run with
  | nil => exact absurd rfl h
  | cons l run => exact List.mem_cons_self

/-- Runs of lengths are read back one after the other. -/
theorem tells_runs {table : Array Bits} : ∀ {runs : List (List Nat)} (done : List Nat),
    (∀ run ∈ runs, run = List.replicate run.length (run.headD 0) ∧ run.headD 0 < 16) →
    (∀ t ∈ runs.flatMap fun run => tellRun (run.headD 0) run.length run.length,
      code.reader.Reads (word table t.symbol) t.symbol) →
        Tells code done (toldBits table
          (runs.flatMap fun run => tellRun (run.headD 0) run.length run.length)) runs.flatten := by
  intro runs
  induction runs with
  | nil => exact fun done _ _ => tells_nil code done
  | cons run runs ih =>
    intro done hruns hk
    obtain ⟨heq, hlt⟩ := hruns run List.mem_cons_self
    rw [List.flatMap_cons] at hk
    have hfirst := tells_run hlt run.length done (Nat.le_refl _) fun t ht =>
      hk t (List.mem_append_left _ ht)
    rw [← heq] at hfirst
    have hmore := ih (run.reverse ++ done) (fun r hr => hruns r (List.mem_cons_of_mem _ hr))
      fun t ht => hk t (List.mem_append_right _ ht)
    rw [List.flatMap_cons, toldBits, List.flatMap_append, List.flatten_cons]
    exact hfirst.append hmore

theorem run_of_mem_splitBy (h : ∀ l ∈ lengths, l < 16) {run : List Nat}
    (hrun : run ∈ lengths.splitBy (· == ·)) :
    run = List.replicate run.length (run.headD 0) ∧ run.headD 0 < 16 := by
  refine ⟨eq_replicate_of_mem_runs hrun, h _ ?_⟩
  have hmem := headD_mem (List.ne_nil_of_mem_splitBy hrun)
  have hflat := List.mem_flatten_of_mem hrun hmem
  rwa [List.flatten_splitBy] at hflat

/-- Word lengths are read back. -/
theorem reads_lengths {table : Array Bits} (h : ∀ l ∈ lengths, l < 16)
    (hk : ∀ t ∈ tellLengths lengths, code.reader.Reads (word table t.symbol) t.symbol) :
    (Block.lengthsReader code lengths.length lengths.length []).Reads
      (toldBits table (tellLengths lengths)) lengths := by
  intro rest
  have htells := tells_runs [] (fun run hrun => run_of_mem_splitBy h hrun) hk
  rw [List.flatten_splitBy] at htells
  obtain ⟨fuel, -, hrun⟩ :=
    htells lengths.length lengths.length rest (Nat.le_refl _) (Nat.le_refl _)
  rw [tellLengths, hrun, Nat.sub_self, List.append_nil]
  cases fuel <;> simp [Block.lengthsReader, give]

theorem symbol_lt_of_mem_tellLengths (h : ∀ l ∈ lengths, l < 16) :
    ∀ t ∈ tellLengths lengths, t.symbol < 19 := by
  intro t ht
  obtain ⟨run, hrun, ht⟩ := List.mem_flatMap.mp ht
  exact symbol_lt_of_mem_tellRun (run_of_mem_splitBy h hrun).2 _ t ht

/-! ## Telling codes -/

theorem getD_trimmed (least : Nat) (lengths : List Nat) (i : Nat) :
    ((trimmed least lengths)[i]?).getD 0 = (lengths[i]?).getD 0 := by
  obtain ⟨k, hk⟩ := trimmed_spec least lengths
  have hget : (lengths[i]?).getD 0 = _ := congrArg (fun l => (l[i]?).getD 0) hk
  rw [hget]
  by_cases hi : i < (trimmed least lengths).length
  · rw [List.getElem?_append_left hi]
  · rw [List.getElem?_append_right (by omega), List.getElem?_eq_none (by omega),
      List.getElem?_replicate]
    split <;> rfl

/-- The order in which lengths are told has a place for every symbol. -/
theorem getElem?_lengthOrder :
    ∀ s < 19, Block.lengthOrder[Block.lengthOrder.idxOf s]? = some s := by
  decide

/-- Lengths in the order in which they are told, without the zeros at the end. -/
abbrev ordered (lengths : List Nat) : List Nat :=
  trimmed 4 (Block.lengthOrder.map fun s => (lengths[s]?).getD 0)

theorem length_ordered (lengths : List Nat) :
    4 ≤ (ordered lengths).length ∧ (ordered lengths).length ≤ 19 :=
  ⟨le_length_trimmed (by rw [List.length_map]; decide),
    Nat.le_trans (length_trimmed_le _ _) (by rw [List.length_map]; decide)⟩

/-- Lengths that were told in another order stand at their symbols again. -/
theorem reordered (hlen : lengths.length = 19) :
    (List.range 19).map (fun s => ((ordered lengths)[Block.lengthOrder.idxOf s]?).getD 0) =
      lengths := by
  refine List.ext_getElem? fun i => ?_
  rw [List.getElem?_map]
  by_cases hi : i < 19
  · have hget := List.getElem?_eq_getElem (hlen ▸ hi)
    rw [List.getElem?_range hi, Option.map_some, getD_trimmed, List.getElem?_map,
      getElem?_lengthOrder i hi, Option.map_some, hget]
    rfl
  · rw [List.getElem?_eq_none (by rw [List.length_range]; omega),
      List.getElem?_eq_none (by omega)]
    rfl

/-- Lengths in their order are read back, each from three bits. -/
theorem reads_ordered (h : ∀ l ∈ lengths, l ≤ 7) :
    (times (number 3) (ordered lengths).length).Reads ((ordered lengths).flatMap (Bits.ofNat 3))
      (ordered lengths) := by
  refine reads_times fun l hl => reads_number ?_
  obtain ⟨s, -, rfl⟩ := List.mem_map.mp (List.mem_of_mem_take hl)
  cases hs : lengths[s]? with
  | none => decide
  | some l => exact Nat.lt_succ_of_le (h l (List.mem_of_getElem? hs))

/-- **Codes are read back** from what a block tells of them. -/
theorem reads_codes {literals distances : List Nat} {bits : Bits}
    (h : tellCodes literals distances = some bits)
    (hl : 257 ≤ literals.length ∧ literals.length ≤ 286)
    (hd : 1 ≤ distances.length ∧ distances.length ≤ 30)
    (hle : ∀ l ∈ literals ++ distances, l < 16)
    (hlu : Block.isUsable literals = true) (hdu : Block.isUsable distances = true) :
    Block.codesReader.Reads bits
      { literals := .ofLengths literals, distances := .ofLengths distances } := by
  unfold tellCodes at h
  simp only [Option.bind_eq_bind, Option.bind_eq_some_iff, Option.some.injEq] at h
  obtain ⟨lengths, hcounts, rfl⟩ := h
  have hsuits := ofCounts_suits (by decide) hcounts
  have hlength : lengths.length = 19 := by rw [hsuits.length, length_countSymbols]
  have hsymbols :
      ∀ s ∈ 0 :: 18 :: (tellLengths (literals ++ distances)).map (·.symbol), s < 19 := by
    intro s hs
    rcases List.mem_cons.mp hs with rfl | hs
    · decide
    rcases List.mem_cons.mp hs with rfl | hs
    · decide
    obtain ⟨t, ht, rfl⟩ := List.mem_map.mp hs
    exact symbol_lt_of_mem_tellLengths hle t ht
  have hknows : Knows (.ofLengths lengths) 19 _ := knows_of_lengths hsuits.room fun s hs =>
    ⟨hsymbols s hs, exists_length (by decide) hsuits hs (hsymbols s hs)⟩
  -- both symbols that were counted besides have words
  have hcomplete : PrefixCode.isComplete lengths = true := by
    have h (s) (hs : s ∈ 0 :: 18 :: (tellLengths (literals ++ distances)).map (·.symbol)) :=
      mem_occurring_count hs (hsymbols s hs)
    rw [PrefixCode.isComplete, Nat.one_shiftLeft, hsuits.complete (h 0 List.mem_cons_self)
      (h 18 (List.mem_cons_of_mem _ List.mem_cons_self)) (by decide)]
    exact beq_self_eq_true _
  have hboth := reads_lengths hle fun t ht =>
    hknows _ (List.mem_cons_of_mem _ (List.mem_cons_of_mem _ (List.mem_map_of_mem ht)))
  have hfour := length_ordered lengths
  have htimes := reads_ordered hsuits.le
  have hall := reordered hlength
  -- three counts, the lengths of the words for lengths, and the lengths of both codes as one row
  rw [← ordered]
  simp only [List.append_assoc]
  unfold Block.codesReader
  refine (reads_number (by omega)).bind ?_
  refine (reads_number (by omega)).bind ?_
  refine (reads_number (by omega)).bind ?_
  rw [Nat.add_sub_cancel' hl.1, Nat.add_sub_cancel' hd.1, Nat.add_sub_cancel' hfour.1]
  refine (reads_ensure (by simp [hl.2, hd.2])).bind ?_
  refine htimes.bind ?_
  simp only [hall]
  refine (reads_ensure hcomplete).bind ?_
  rw [← List.length_append]
  refine hboth.last ?_
  simp only [List.take_left, List.drop_left, hlu, hdu]
  exact (reads_ensure rfl).bind (reads_give _)

end Deflate
end ChatBackup
