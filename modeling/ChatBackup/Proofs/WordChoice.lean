import ChatBackup.Gzip.WordLengths
import Mathlib.Algebra.BigOperators.Group.List.Basic
import Mathlib.Algebra.GroupWithZero.Nat

/-!
# Chosen word lengths make a code

Whatever the counts of symbols are, the word lengths that are chosen for them fill all the room
there is for words, so that a reader takes them for a code:

> `WordLengths.ofCounts_suits`: every symbol that occurs has a word, no word is longer than the
> limit, and unless at most one symbol occurs no room for another word is left.

The counts bear on nothing of this. A group that was joined is a tree whose leaves are its symbols
(`Full`), so that the rooms of its words add up to the room of a single word without bits
(`Full.space`). Joining keeps groups full and moves symbols around (`joinAll_spec`), and telling the
lengths symbol by symbol changes no sum over them (`sum_bySymbol`).
-/

namespace ChatBackup.WordLengths

/-! ## Full trees -/

/-- The depths of the leaves of a tree in which every branch goes on to a leaf. -/
inductive Full : List Nat → Prop where
  | leaf : Full [0]
  | node {a b : List Nat} : Full a → Full b → Full ((a ++ b).map (· + 1))

theorem Full.ne_nil {depths : List Nat} (h : Full depths) : depths ≠ [] := by
  induction h with
  | leaf => simp
  | node _ _ iha _ => simp [iha]

/-- The rooms of the leaves are the room of the tree, whatever depth it is measured with. -/
theorem Full.space {depths : List Nat} (h : Full depths) :
    ∀ limit, (∀ l ∈ depths, l ≤ limit) →
      (depths.map fun l => 2 ^ (limit - l)).sum = 2 ^ limit := by
  induction h with
  | leaf =>
    intro limit _
    simp
  | @node a b ha _ iha ihb =>
    intro limit hle
    -- there is a leaf below the root, so that the limit has room for a bit
    obtain ⟨l, hl⟩ := List.exists_mem_of_ne_nil a ha.ne_nil
    have hpos : l + 1 ≤ limit := hle (l + 1) (by
      rw [List.map_append]
      exact List.mem_append_left _ (List.mem_map_of_mem hl))
    obtain ⟨below, rfl⟩ : ∃ below, limit = below + 1 := ⟨limit - 1, by omega⟩
    have hbelow : ∀ l ∈ a ++ b, l ≤ below := by
      intro l hl
      have := hle (l + 1) (List.mem_map_of_mem hl)
      omega
    have ha := iha below fun l hl => hbelow l (List.mem_append_left _ hl)
    have hb := ihb below fun l hl => hbelow l (List.mem_append_right _ hl)
    have hshift : (fun l => 2 ^ (below + 1 - l)) ∘ (· + 1) = fun l => 2 ^ (below - l) := by
      funext l
      show 2 ^ (below + 1 - (l + 1)) = _
      rw [Nat.add_sub_add_right]
    rw [List.map_map, hshift, List.map_append, List.sum_append, ha, hb, Nat.pow_succ]
    omega

/-- Only a tree that is a single leaf has one at the root. -/
theorem Full.pos {depths : List Nat} (h : Full depths) (hmore : depths.length ≠ 1) :
    ∀ l ∈ depths, l ≠ 0 := by
  cases h with
  | leaf => exact absurd rfl hmore
  | node _ _ =>
    intro l hl
    obtain ⟨k, -, rfl⟩ := List.mem_map.mp hl
    exact Nat.succ_ne_zero k

/-! ## Joining groups -/

/-- The symbols of words. -/
abbrev symbols (words : List (Nat × Nat)) : List Nat := words.map (·.1)

/-- The lengths of words. -/
abbrev depths (words : List (Nat × Nat)) : List Nat := words.map (·.2)

theorem symbols_lengthen (words : List (Nat × Nat)) : symbols (lengthen words) = symbols words := by
  rw [symbols, lengthen, List.map_map]
  rfl

theorem depths_lengthen (words : List (Nat × Nat)) :
    depths (lengthen words) = (depths words).map (· + 1) := by
  rw [depths, lengthen, List.map_map, List.map_map]
  rfl

theorem insert_perm (g : Group) (groups : List Group) : (insert g groups).Perm (g :: groups) := by
  induction groups with
  | nil => exact .refl _
  | cons h rest ih =>
    rw [insert]
    split
    · exact .refl _
    · exact (ih.cons h).trans (.swap g h rest)

theorem sort_perm (groups : List Group) : (groups.foldr insert []).Perm groups := by
  induction groups with
  | nil => exact .refl _
  | cons g groups ih =>
    rw [List.foldr_cons]
    exact (insert_perm g _).trans (ih.cons g)

/-- All symbols of groups. -/
abbrev allSymbols (groups : List Group) : List Nat := groups.flatMap fun g => symbols g.words

theorem allSymbols_perm {groups more : List Group} (h : groups.Perm more) :
    (allSymbols groups).Perm (allSymbols more) :=
  h.flatMap_right _

/-- Joining loses no symbol and leaves a single full tree. -/
theorem joinAll_spec : ∀ (fuel : Nat) {groups : List Group}, groups.length ≤ fuel →
    groups ≠ [] → (∀ g ∈ groups, Full (depths g.words)) →
      Full (depths (joinAll fuel groups)) ∧
        (symbols (joinAll fuel groups)).Perm (allSymbols groups) := by
  intro fuel
  induction fuel with
  | zero =>
    intro groups hlen hne _
    exact absurd (List.length_eq_zero_iff.mp (Nat.le_zero.mp hlen)) hne
  | succ fuel ih =>
    intro groups hlen hne hfull
    match groups, hne with
    | [g], _ =>
      have hg := hfull g List.mem_cons_self
      rw [joinAll, List.flatMap_singleton, allSymbols, List.flatMap_singleton]
      · exact ⟨hg, .refl _⟩
      · -- a single group is no pair
        simp
    | a :: b :: rest, _ =>
      have ha := hfull a List.mem_cons_self
      have hb := hfull b (List.mem_cons_of_mem _ List.mem_cons_self)
      have hjoin : Full (depths (a.join b).words) := by
        rw [Group.join, depths_lengthen, depths, List.map_append]
        exact .node ha hb
      have hperm := insert_perm (a.join b) rest
      have hlen' : (insert (a.join b) rest).length ≤ fuel := by
        rw [hperm.length_eq]
        simp only [List.length_cons] at hlen ⊢
        omega
      have hne' : insert (a.join b) rest ≠ [] := by
        intro h
        rw [h] at hperm
        exact absurd hperm.nil_eq (by simp)
      have hfull' : ∀ g ∈ insert (a.join b) rest, Full (depths g.words) := by
        intro g hg
        rcases List.mem_cons.mp (hperm.mem_iff.mp hg) with rfl | hg
        · exact hjoin
        · exact hfull g (List.mem_cons_of_mem _ (List.mem_cons_of_mem _ hg))
      obtain ⟨hdepths, hsymbols⟩ := ih hlen' hne' hfull'
      refine ⟨hdepths, hsymbols.trans ((allSymbols_perm hperm).trans (.of_eq ?_))⟩
      rw [allSymbols, List.flatMap_cons, Group.join, symbols_lengthen, symbols, List.map_append,
        List.append_assoc]
      rfl

/-! ## Lengths symbol by symbol -/

variable {size : Nat} {words : List (Nat × Nat)}

theorem length_bySymbol (size : Nat) (words : List (Nat × Nat)) :
    (bySymbol size words).length = size := by
  rw [bySymbol, List.length_map, List.length_range]

theorem getElem?_bySymbol {s : Nat} (hs : s < size) :
    (bySymbol size words)[s]? = some ((words.lookup s).getD 0) := by
  rw [bySymbol, List.getElem?_map, List.getElem?_range hs]
  rfl

theorem lookup_of_not_mem {s : Nat} (h : s ∉ symbols words) : words.lookup s = none := by
  rw [List.lookup_eq_none_iff]
  intro w hw
  rw [bne_iff_ne]
  rintro rfl
  exact h (List.mem_map_of_mem hw)

theorem lookup_of_mem {w : Nat × Nat} (hnodup : (symbols words).Nodup) (hw : w ∈ words) :
    words.lookup w.1 = some w.2 := by
  induction words with
  | nil => cases hw
  | cons v words ih =>
    obtain ⟨hv, hrest⟩ := List.nodup_cons.mp hnodup
    rcases List.mem_cons.mp hw with rfl | hw
    · exact List.lookup_cons_self
    · have hne : w.1 ≠ v.1 := by
        intro h
        have hmem : w.1 ∈ symbols words := List.mem_map_of_mem hw
        rw [h] at hmem
        exact hv hmem
      rw [List.lookup_cons, beq_eq_false_iff_ne.mpr hne]
      exact ih hrest hw

theorem sum_single {k : Nat} (hk : k < size) (c : Nat) :
    ((List.range size).map fun s => if s = k then c else 0).sum = c := by
  induction size with
  | zero => exact absurd hk (Nat.not_lt_zero k)
  | succ size ih =>
    rw [List.sum_range_succ]
    by_cases h : k = size
    · -- all places before the last one count nothing
      have hnone : ((List.range size).map fun s => if s = k then c else 0) =
          (List.range size).map fun _ => 0 := by
        refine List.map_congr_left fun s hs => if_neg ?_
        have := List.mem_range.mp hs
        omega
      rw [hnone, List.map_const', List.sum_replicate_nat, Nat.mul_zero, if_pos h.symm, Nat.zero_add]
    · rw [ih (by omega), if_neg (Ne.symm h), Nat.add_zero]

/-- A sum over all symbols is the sum over the words, if symbols without a word count nothing. -/
theorem sum_bySymbol {f : Nat → Nat} (h0 : f 0 = 0) :
    ∀ {words : List (Nat × Nat)}, (symbols words).Nodup → (∀ s ∈ symbols words, s < size) →
      ((bySymbol size words).map f).sum = ((depths words).map f).sum := by
  intro words
  induction words with
  | nil =>
    intro _ _
    rw [bySymbol, List.map_map]
    have hnone : (f ∘ fun s => ((List.lookup s ([] : List (Nat × Nat))).getD 0)) = fun _ => 0 := by
      funext s
      exact h0
    rw [hnone, List.map_const', List.sum_replicate_nat, Nat.mul_zero]
    rfl
  | cons w words ih =>
    intro hnodup hlt
    obtain ⟨k, l⟩ := w
    obtain ⟨hk, hrest⟩ := List.nodup_cons.mp hnodup
    have hmore := ih hrest fun s hs => hlt s (List.mem_cons_of_mem _ hs)
    have hsplit : (f ∘ fun s => ((List.lookup s ((k, l) :: words)).getD 0)) =
        fun s => (if s = k then f l else 0) + f ((words.lookup s).getD 0) := by
      funext s
      show f ((List.lookup s ((k, l) :: words)).getD 0) = _
      by_cases hs : s = k
      · subst hs
        rw [if_pos rfl, List.lookup_cons_self, lookup_of_not_mem hk]
        show f l = f l + f 0
        rw [h0, Nat.add_zero]
      · rw [if_neg hs, List.lookup_cons, beq_eq_false_iff_ne.mpr hs, Nat.zero_add]
    have hk' : k < size := hlt k List.mem_cons_self
    rw [bySymbol, List.map_map] at hmore
    rw [bySymbol, List.map_map, hsplit, List.sum_map_add, sum_single hk', depths, List.map_cons,
      List.map_cons, List.sum_cons, ← depths, ← hmore]
    rfl

/-! ## The choice -/

/-- The symbols that occur. -/
def occurring (counts : List Nat) : List Nat := allSymbols (singles counts)

theorem occurring_eq (counts : List Nat) :
    occurring counts = (counts.zipIdx.filter (·.1 ≠ 0)).map (·.2) := by
  rw [occurring, allSymbols, singles, List.flatMap_map]
  exact List.map_eq_flatMap.symm

theorem mem_occurring {counts : List Nat} {s : Nat} :
    s ∈ occurring counts ↔ ∃ c, counts[s]? = some c ∧ c ≠ 0 := by
  rw [occurring_eq, List.mem_map]
  constructor
  · rintro ⟨⟨c, s⟩, hc, rfl⟩
    obtain ⟨hmem, hpos⟩ := List.mem_filter.mp hc
    exact ⟨c, List.mk_mem_zipIdx_iff_getElem?.mp hmem, by simpa using hpos⟩
  · rintro ⟨c, hget, hpos⟩
    exact ⟨(c, s), List.mem_filter.mpr
      ⟨List.mk_mem_zipIdx_iff_getElem?.mpr hget, by simpa using hpos⟩, rfl⟩

theorem nodup_occurring (counts : List Nat) : (occurring counts).Nodup := by
  have hall : (counts.zipIdx.map (·.2)).Nodup := by
    rw [List.zipIdx_map_snd]
    exact List.nodup_range'
  rw [occurring_eq]
  exact hall.sublist (List.filter_sublist.map _)

/-- The words for given counts: one for every symbol that occurs. -/
theorem unlimited_spec (counts : List Nat) :
    (symbols (unlimited counts)).Perm (occurring counts) ∧
      ((occurring counts).length ≤ 1 ∧ (∀ l ∈ depths (unlimited counts), l = 1) ∨
        (occurring counts).length ≠ 1 ∧ Full (depths (unlimited counts))) := by
  have hone : ∀ g ∈ singles counts, ∃ c s, g = ⟨c, [(s, 0)]⟩ := by
    intro g hg
    obtain ⟨c, -, rfl⟩ := List.mem_map.mp hg
    exact ⟨_, _, rfl⟩
  have hlen : (occurring counts).length = (singles counts).length := by
    rw [occurring_eq, singles, List.length_map, List.length_map]
  rw [hlen]
  unfold unlimited
  split
  next g hsingle =>
    obtain ⟨c, s, rfl⟩ := hone g (by rw [hsingle]; exact List.mem_singleton_self g)
    rw [occurring, hsingle]
    exact ⟨.refl _, Or.inl ⟨Nat.le_refl _, by simp [depths, lengthen]⟩⟩
  next hmany =>
    by_cases hnil : singles counts = []
    · rw [occurring, hnil]
      exact ⟨.refl _, Or.inl ⟨Nat.zero_le _, by simp [depths, joinAll]⟩⟩
    · have hsort := sort_perm (singles counts)
      have hne : (singles counts).foldr insert [] ≠ [] := fun h =>
        hnil (List.Perm.nil_eq (h ▸ hsort)).symm
      have hleaf : ∀ g ∈ (singles counts).foldr insert [], Full (depths g.words) := by
        intro g hg
        obtain ⟨c, s, rfl⟩ := hone g (hsort.mem_iff.mp hg)
        exact .leaf
      obtain ⟨hdepths, hsymbols⟩ :=
        joinAll_spec (singles counts).length (Nat.le_of_eq hsort.length_eq) hne hleaf
      refine ⟨hsymbols.trans (allSymbols_perm hsort), Or.inr ⟨?_, hdepths⟩⟩
      intro h
      obtain ⟨g, hg⟩ := List.length_eq_one_iff.mp h
      exact hmany g hg

/-- Word lengths that suit counts: there is one for every symbol, and a word at least for each that
occurs; none is above the limit; and they give a code, which leaves no room if it has more than one
word. -/
structure Suits (limit : Nat) (counts lengths : List Nat) : Prop where
  length : lengths.length = counts.length
  le : ∀ l ∈ lengths, l ≤ limit
  word : ∀ {s c : Nat}, counts[s]? = some c → c ≠ 0 → ∃ l, lengths[s]? = some l ∧ l ≠ 0
  room : PrefixCode.space lengths ≤ 2 ^ PrefixCode.maxLength
  code : PrefixCode.used lengths ≤ 1 ∨ PrefixCode.space lengths = 2 ^ PrefixCode.maxLength
  complete : ∀ {s t : Nat}, s ∈ occurring counts → t ∈ occurring counts → s ≠ t →
    PrefixCode.space lengths = 2 ^ PrefixCode.maxLength

/-- The room that a word takes. -/
def room (l : Nat) : Nat := if l = 0 then 0 else 2 ^ (PrefixCode.maxLength - l)

theorem space_eq (lengths : List Nat) : PrefixCode.space lengths = (lengths.map room).sum := by
  induction lengths with
  | nil => rfl
  | cons l lengths ih =>
    rw [PrefixCode.space, List.foldr_cons, ← PrefixCode.space, ih, List.map_cons, List.sum_cons,
      room, Nat.one_shiftLeft]

theorem used_eq (lengths : List Nat) :
    PrefixCode.used lengths = (lengths.map fun l => if l = 0 then 0 else 1).sum := by
  induction lengths with
  | nil => rfl
  | cons l lengths ih =>
    rw [PrefixCode.used, List.countP_cons, ← PrefixCode.used, ih, List.map_cons, List.sum_cons]
    by_cases h : l = 0 <;> simp [h, Nat.add_comm]

theorem nodup_unlimited (counts : List Nat) : (symbols (unlimited counts)).Nodup :=
  (unlimited_spec counts).1.nodup_iff.mpr (nodup_occurring counts)

theorem lt_of_mem_unlimited {counts : List Nat} : ∀ s ∈ symbols (unlimited counts),
    s < counts.length := by
  intro s hs
  obtain ⟨c, hget, -⟩ := mem_occurring.mp ((unlimited_spec counts).1.mem_iff.mp hs)
  exact (List.getElem?_eq_some_iff.mp hget).1

/-- Told symbol by symbol, every word has its length at its symbol. -/
theorem getElem?_unlimited {counts : List Nat} {w : Nat × Nat} (hw : w ∈ unlimited counts) :
    (bySymbol counts.length (unlimited counts))[w.1]? = some w.2 := by
  rw [getElem?_bySymbol (lt_of_mem_unlimited w.1 (List.mem_map_of_mem hw)),
    lookup_of_mem (nodup_unlimited counts) hw]
  rfl

theorem length_depths_unlimited (counts : List Nat) :
    (depths (unlimited counts)).length = (occurring counts).length := by
  rw [List.length_map, ← (unlimited_spec counts).1.length_eq, List.length_map]

/-- No word is without bits. -/
theorem unlimited_ne_zero (counts : List Nat) : ∀ l ∈ depths (unlimited counts), l ≠ 0 := by
  rcases (unlimited_spec counts).2 with ⟨-, hone⟩ | ⟨hmany, hfull⟩
  · intro l hl
    rw [hone l hl]
    exact Nat.one_ne_zero
  · exact hfull.pos (by rw [length_depths_unlimited]; exact hmany)

/-- The words take all the room, unless there is a single one of one bit or none. -/
theorem space_unlimited {counts : List Nat}
    (hle : ∀ l ∈ depths (unlimited counts), l ≤ PrefixCode.maxLength) :
    let lengths := bySymbol counts.length (unlimited counts)
    PrefixCode.space lengths ≤ 2 ^ PrefixCode.maxLength ∧
      (PrefixCode.used lengths ≤ 1 ∧ (occurring counts).length ≤ 1 ∨
        PrefixCode.space lengths = 2 ^ PrefixCode.maxLength) := by
  intro lengths
  have hspace := sum_bySymbol (f := room) rfl (nodup_unlimited counts) lt_of_mem_unlimited
  have hused := sum_bySymbol (f := fun l => if l = 0 then 0 else 1) rfl (nodup_unlimited counts)
    lt_of_mem_unlimited
  rw [← space_eq] at hspace
  rw [← used_eq] at hused
  rw [hspace, hused]
  rcases (unlimited_spec counts).2 with ⟨hfew, hone⟩ | ⟨-, hfull⟩
  · -- no word, or a single one of one bit
    have hlen := length_depths_unlimited counts
    generalize depths (unlimited counts) = ds at hlen hone
    match ds with
    | [] => exact ⟨Nat.zero_le _, Or.inl ⟨Nat.zero_le _, hfew⟩⟩
    | [d] =>
      rw [hone d List.mem_cons_self]
      exact ⟨by decide, Or.inl ⟨Nat.le_refl _, hfew⟩⟩
    | d :: e :: more =>
      simp only [List.length_cons] at hlen
      omega
  · have hall : (depths (unlimited counts)).map room =
        (depths (unlimited counts)).map fun l => 2 ^ (PrefixCode.maxLength - l) :=
      List.map_congr_left fun l hl => if_neg (unlimited_ne_zero counts l hl)
    rw [hall, hfull.space _ hle]
    exact ⟨Nat.le_refl _, Or.inr rfl⟩

/-- Lengths that were told symbol by symbol and are within the limit suit the counts. -/
theorem suits_of_le {limit : Nat} {counts : List Nat} (hlimit : limit ≤ PrefixCode.maxLength)
    (hle : ∀ l ∈ bySymbol counts.length (unlimited counts), l ≤ limit) :
    Suits limit counts (bySymbol counts.length (unlimited counts)) := by
  have hdepths : ∀ l ∈ depths (unlimited counts), l ≤ PrefixCode.maxLength := by
    intro l hl
    obtain ⟨w, hw, rfl⟩ := List.mem_map.mp hl
    exact Nat.le_trans (hle _ (List.mem_of_getElem? (getElem?_unlimited hw))) hlimit
  obtain ⟨hroom, hcode⟩ := space_unlimited hdepths
  refine ⟨length_bySymbol _ _, hle, ?_, hroom, hcode.imp And.left id, ?_⟩
  · intro s c hc hne
    obtain ⟨w, hw, rfl⟩ := List.mem_map.mp
      ((unlimited_spec counts).1.mem_iff.mpr (mem_occurring.mpr ⟨c, hc, hne⟩))
    exact ⟨w.2, getElem?_unlimited hw, unlimited_ne_zero counts _ (List.mem_map_of_mem hw)⟩
  · -- two symbols that occur leave no room for another word
    intro s t hs ht hne
    refine hcode.resolve_left fun ⟨_, hfew⟩ => ?_
    match hocc : occurring counts, hfew with
    | [], _ => rw [hocc] at hs; cases hs
    | [u], _ =>
      rw [hocc] at hs ht
      exact hne ((List.mem_singleton.mp hs).trans (List.mem_singleton.mp ht).symm)

theorem occurring_halved (counts : List Nat) {s : Nat} :
    s ∈ occurring (counts.map fun c => (c + 1) / 2) ↔ s ∈ occurring counts := by
  simp only [mem_occurring, List.getElem?_map, Option.map_eq_some_iff]
  constructor
  · rintro ⟨_, ⟨c, hc, rfl⟩, hne⟩
    exact ⟨c, hc, by omega⟩
  · rintro ⟨c, hc, hne⟩
    exact ⟨_, ⟨c, hc, rfl⟩, by omega⟩

/-- Smaller counts of the same symbols are suited by the same lengths. -/
theorem Suits.of_halved {limit : Nat} {counts lengths : List Nat}
    (h : Suits limit (counts.map fun c => (c + 1) / 2) lengths) : Suits limit counts lengths where
  length := by rw [h.length, List.length_map]
  le := h.le
  word {s c} hc hne := by
    refine h.word (s := s) (c := (c + 1) / 2) ?_ (by omega)
    rw [List.getElem?_map, hc]
    rfl
  room := h.room
  code := h.code
  complete hs ht hne :=
    h.complete ((occurring_halved counts).mpr hs) ((occurring_halved counts).mpr ht) hne

theorem limited_suits {limit : Nat} (hlimit : limit ≤ PrefixCode.maxLength) :
    ∀ (tries : Nat) {counts lengths : List Nat}, limited limit tries counts = some lengths →
      Suits limit counts lengths := by
  intro tries
  induction tries with
  | zero => intro counts lengths h; cases h
  | succ tries ih =>
    intro counts lengths h
    rw [limited] at h
    split at h
    next hall =>
      cases h
      exact suits_of_le hlimit fun l hl => of_decide_eq_true (List.all_eq_true.mp hall l hl)
    next => exact (ih h).of_halved

/-- **Chosen lengths make a code**: every symbol that occurs has a word, no word is longer than the
limit, and the words leave no room for another one unless at most one symbol occurs. -/
theorem ofCounts_suits {limit : Nat} {counts lengths : List Nat}
    (hlimit : limit ≤ PrefixCode.maxLength) (h : ofCounts limit counts = some lengths) :
    Suits limit counts lengths :=
  limited_suits hlimit 64 h

end ChatBackup.WordLengths
