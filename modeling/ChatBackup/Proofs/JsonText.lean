import ChatBackup.Json.Grammar

/-!
# Written JSON values read back

What `compact` writes `ofText?` reads, unless the value has no text to begin with:

> `JsonValue.ofText?_compact`: a value is read from its written form, if it has one (`HasText`).

The readers take a part off the front of the characters. So for each of them one lemma says that it
takes just what was written, whatever stands behind; only a number depends on that, since it ends
where it does not go on (`Follows`). The fuel for a value is bound by the length of its own text
(`ReadsBack`), which makes items and members an induction of their own.
-/

namespace ChatBackup.JsonValue

variable {rest : List Char}

/-- What may stand behind a value that is written without blanks. -/
inductive Follows : List Char → Prop where
  | nil : Follows []
  | comma (cs : List Char) : Follows (',' :: cs)
  | bracket (cs : List Char) : Follows (']' :: cs)
  | brace (cs : List Char) : Follows ('\x7d' :: cs)

theorem skipBlanks_cons {c : Char} (h : isBlank c = false) :
    skipBlanks (c :: rest) = c :: rest := by
  rw [skipBlanks, List.dropWhile_cons_of_neg (by rw [h]; exact Bool.false_ne_true)]

/-! ## Numbers -/

theorem ne_of_isDigit {c d : Char} (h : c.isDigit = true) (hd : d.isDigit = false) : c ≠ d := by
  rintro rfl
  rw [hd] at h
  cases h

/-- Only zero begins with a zero. -/
theorem toDigits_ne_zero {n : Nat} (h : 0 < n) (cs : List Char) :
    Nat.toDigits 10 n ≠ '0' :: cs := by
  induction n using Nat.strongRecOn generalizing cs with
  | ind n ih =>
    intro heq
    by_cases hn : n < 10
    · rw [Nat.toDigits_of_lt_base hn] at heq
      have hdigits : ∀ d < 10, 0 < d → Nat.digitChar d ≠ '0' := by decide
      exact hdigits n hn h (List.cons.inj heq).1
    · rw [Nat.toDigits_of_base_le (by decide) (by omega)] at heq
      rcases List.append_eq_cons_iff.mp heq with ⟨hnil, -⟩ | ⟨more, hmore, -⟩
      · exact Nat.toDigits_ne_nil hnil
      · exact ih (n / 10) (by omega) (by omega) more hmore

theorem isDigit_toDigits (n : Nat) : ∀ c ∈ Nat.toDigits 10 n, c.isDigit = true :=
  fun _ => Nat.isDigit_of_mem_toDigits (by decide) (by decide)

theorem Follows.takeWhile (h : Follows rest) : rest.takeWhile Char.isDigit = [] := by
  cases h <;> rfl

theorem Follows.dropWhile (h : Follows rest) : rest.dropWhile Char.isDigit = rest := by
  cases h <;> rfl

theorem readDigits_toDigits (n : Nat) (h : Follows rest) :
    readDigits (Nat.toDigits 10 n ++ rest) = some (Nat.toDigits 10 n, rest) := by
  unfold readDigits
  rw [List.takeWhile_append_of_pos (isDigit_toDigits n), h.takeWhile, List.append_nil,
    List.dropWhile_append_of_pos (isDigit_toDigits n), h.dropWhile]
  simp [Nat.toDigits_ne_nil]

theorem readWhole_toDigits (n : Nat) (h : Follows rest) :
    readWhole (Nat.toDigits 10 n ++ rest) = some (Nat.toDigits 10 n, rest) := by
  rcases Nat.eq_zero_or_pos n with rfl | hn
  · rfl
  · unfold readWhole
    split
    next cs heq =>
      rcases List.append_eq_cons_iff.mp heq with ⟨hnil, -⟩ | ⟨more, hmore, -⟩
      · exact absurd hnil Nat.toDigits_ne_nil
      · exact absurd hmore (toDigits_ne_zero hn more)
    next => exact readDigits_toDigits n h

theorem Follows.readFraction (h : Follows rest) : readFraction rest = some (false, rest) := by
  cases h <;> rfl

theorem Follows.readExponent (h : Follows rest) : readExponent rest = some (false, rest) := by
  cases h <;> rfl

theorem natOfDigits_toDigits (n : Nat) : natOfDigits (Nat.toDigits 10 n) = n :=
  Nat.ofDigitChars_toDigits (by decide) (by decide)

/-- A number begins with a digit. -/
theorem toDigits_eq_cons (n : Nat) : ∃ c cs, Nat.toDigits 10 n = c :: cs ∧ c.isDigit = true := by
  cases hdigits : Nat.toDigits 10 n with
  | nil => exact absurd hdigits Nat.toDigits_ne_nil
  | cons c cs =>
    have hc := isDigit_toDigits n c
    rw [hdigits] at hc
    exact ⟨c, cs, rfl, hc List.mem_cons_self⟩

theorem readNumber_toDigits (n : Nat) (h : Follows rest) :
    readNumber (Nat.toDigits 10 n ++ rest) = some (.natural n, rest) := by
  have hwhole := readWhole_toDigits n h
  obtain ⟨c, cs, hdigits, hc⟩ := toDigits_eq_cons n
  have hsign : c ≠ '-' := ne_of_isDigit hc rfl
  rw [hdigits, List.cons_append] at hwhole ⊢
  simp [readNumber, hsign, hwhole, h.readFraction, h.readExponent, ← hdigits, natOfDigits_toDigits]

/-! ## Strings -/

theorem hexValue?_hexDigit : ∀ n < 16, hexValue? (hexDigit n) = some n := by decide

/-- A number below a hundred is read from its last two digits. -/
theorem readUnit_hexDigit {n : Nat} (h : n < 256) (cs : List Char) :
    readUnit ('0' :: '0' :: hexDigit (n / 16) :: hexDigit (n % 16) :: cs) = some (n, cs) := by
  have hzero : hexValue? '0' = some 0 := rfl
  have hhigh := hexValue?_hexDigit (n / 16) (by omega)
  have hlow := hexValue?_hexDigit (n % 16) (by omega)
  simp only [readUnit, hzero, hhigh, hlow, Option.bind_eq_bind, Option.bind_some]
  congr
  omega

/-- What stands for a character is taken for it. -/
theorem readPoints_quotedChar (c : Char) (fuel : Nat) (cs : List Char) (points : List Nat) :
    readPoints (fuel + 1) (quotedChar c ++ cs) points = readPoints fuel cs (c.toNat :: points) := by
  unfold quotedChar
  split
  next h => subst h; rfl
  split
  next h => subst h; rfl
  split
  next h => subst h; rfl
  split
  next h => subst h; rfl
  split
  next h => subst h; rfl
  split
  next h => rw [h]; rfl
  split
  next h => rw [h]; rfl
  split
  next h =>
    have hunit := readUnit_hexDigit (n := c.toNat) (by omega) cs
    rw [List.cons_append, List.cons_append]
    simp only [readPoints, readEscape, List.cons_append, List.nil_append, hunit]
  next hlow =>
    rw [List.singleton_append, readPoints.eq_def]
    simp [hlow]

/-- A character is neither half of a surrogate pair. -/
theorem not_isHigh_or_isLow (c : Char) : (isHigh c.toNat || isLow c.toNat) = false := by
  have hvalid : c.toNat < 0xd800 ∨ 0xdfff < c.toNat ∧ c.toNat < 0x110000 := c.valid
  simp only [isHigh, isLow, Bool.or_eq_false_iff, Bool.and_eq_false_iff, decide_eq_false_iff_not]
  omega

theorem joinPairs_toNat (text : List Char) : joinPairs (text.map Char.toNat) = some text := by
  induction text with
  | nil => rfl
  | cons c text ih =>
    have hc := not_isHigh_or_isLow c
    obtain ⟨hhigh, hlow⟩ := Bool.or_eq_false_iff.mp hc
    cases text with
    | nil => simp [joinPairs, hc, Char.ofNat_toNat]
    | cons d text =>
      simp only [List.map_cons] at ih ⊢
      simp [joinPairs, hhigh, hlow, ih, Char.ofNat_toNat]

/-- The characters of a string are read up to its closing quote. -/
theorem readPoints_quoted (text : List Char) :
    ∀ (fuel : Nat) (points : List Nat), text.length < fuel →
      readPoints fuel (text.flatMap quotedChar ++ '"' :: rest) points =
        some (points.reverse ++ text.map Char.toNat, rest) := by
  induction text with
  | nil =>
    intro fuel points hfuel
    obtain ⟨fuel, rfl⟩ : ∃ k, fuel = k + 1 := ⟨fuel - 1, by omega⟩
    rw [List.map_nil, List.append_nil]
    rfl
  | cons c text ih =>
    intro fuel points hfuel
    rw [List.length_cons] at hfuel
    obtain ⟨fuel, rfl⟩ : ∃ k, fuel = k + 1 := ⟨fuel - 1, by omega⟩
    rw [List.flatMap_cons, List.append_assoc, readPoints_quotedChar, ih fuel _ (by omega),
      List.reverse_cons, List.append_assoc]
    rfl

theorem quotedChar_ne_nil (c : Char) : quotedChar c ≠ [] := by
  unfold quotedChar
  repeat' split
  all_goals simp

theorem length_le_quoted (text : List Char) : text.length ≤ (text.flatMap quotedChar).length := by
  induction text with
  | nil => exact Nat.le_refl 0
  | cons c text ih =>
    have hpos := List.length_pos_iff.mpr (quotedChar_ne_nil c)
    rw [List.flatMap_cons, List.length_append, List.length_cons]
    omega

theorem readString_quoted (text : String) :
    readString (text.toList.flatMap quotedChar ++ '"' :: rest) = some (some text, rest) := by
  have hlen := length_le_quoted text.toList
  unfold readString
  rw [readPoints_quoted _ _ _ (by rw [List.length_append]; omega), List.reverse_nil,
    List.nil_append, Option.map_some]
  simp only [joinPairs_toNat, Option.map_some, String.ofList_toList]

theorem toList_quoted (text : String) :
    (quoted text).toList = '"' :: (text.toList.flatMap quotedChar ++ ['"']) := by
  rw [quoted, String.toList_ofList]
  rfl

theorem readKey_quoted (key : String) {cs : List Char} (hcs : skipBlanks cs = cs) :
    readKey ((quoted key).toList ++ ':' :: cs) = some (some key, cs) := by
  rw [toList_quoted, List.cons_append, List.append_assoc, List.singleton_append]
  simp only [readKey, readString_quoted, skipBlanks_cons (show isBlank ':' = false from rfl), hcs]

/-! ## Values -/

/-- The values that a text stands for: no number is written but with digits, and every string has a
text. -/
inductive HasText : JsonValue → Prop where
  | null : HasText .null
  | bool (value : Bool) : HasText (.bool value)
  | natural (value : Nat) : HasText (.natural value)
  | string (text : String) : HasText (.string (some text))
  | array {items : List JsonValue} : (∀ v ∈ items, HasText v) → HasText (.array items)
  | object {members : List (Option String × JsonValue)} : (∀ m ∈ members, m.1.isSome) →
    (∀ m ∈ members, HasText m.2) → HasText (.object members)

/-- A value is taken off the front of its written form, which begins like no end of an array. -/
structure ReadsBack (v : JsonValue) : Prop where
  begins : ∃ c cs, v.compact.toList = c :: cs ∧ isBlank c = false ∧ c ≠ ']'
  reads : ∀ (fuel : Nat) (rest : List Char), 2 * v.compact.toList.length < fuel → Follows rest →
    readValue fuel (v.compact.toList ++ rest) = some (v, rest)

theorem ReadsBack.skipBlanks {v : JsonValue} (h : v.ReadsBack) (rest : List Char) :
    skipBlanks (v.compact.toList ++ rest) = v.compact.toList ++ rest := by
  obtain ⟨c, cs, hcs, hblank, -⟩ := h.begins
  rw [hcs]
  exact skipBlanks_cons hblank

/-- Parts with commas between them. -/
def separated (parts : List (List Char)) : List Char := [','].intercalate parts

theorem separated_cons (part next : List Char) (parts : List (List Char)) :
    separated (part :: next :: parts) = part ++ ',' :: separated (next :: parts) := by
  rw [separated, List.intercalate_cons_cons, List.append_assoc]
  rfl

/-- Parts begin with the first one. -/
theorem separated_eq_append (part : List Char) (parts : List (List Char)) :
    ∃ more, separated (part :: parts) = part ++ more := by
  cases parts with
  | nil => exact ⟨[], by rw [separated, List.intercalate_singleton, List.append_nil]⟩
  | cons next parts => exact ⟨_, separated_cons part next parts⟩

theorem skipBlanks_separated {part : List Char}
    (h : ∀ more, skipBlanks (part ++ more) = part ++ more) (parts : List (List Char))
    (rest : List Char) :
    skipBlanks (separated (part :: parts) ++ rest) = separated (part :: parts) ++ rest := by
  obtain ⟨more, hmore⟩ := separated_eq_append part parts
  rw [hmore, List.append_assoc]
  exact h _

/-! ### Arrays -/

theorem toList_compact_array (items : List JsonValue) : (array items).compact.toList =
    '[' :: (separated (items.map (·.compact.toList)) ++ [']']) := by
  have hitems : ∀ items, compactItems items = items.map compact := by
    intro items
    induction items with
    | nil => rfl
    | cons v items ih => rw [compactItems, ih, List.map_cons]
  rw [compact, hitems, String.toList_append, String.toList_append, String.toList_intercalate,
    List.map_map]
  rfl

/-- The items of an array are read one after another. -/
theorem readItems_separated {items : List JsonValue} {v : JsonValue}
    (h : ∀ u ∈ v :: items, u.ReadsBack) (rest : List Char) :
    ∀ (fuel : Nat) (done : List JsonValue),
      2 * (separated ((v :: items).map (·.compact.toList))).length + 1 < fuel →
      readItems fuel (separated ((v :: items).map (·.compact.toList)) ++ ']' :: rest) done =
        some (done.reverse ++ v :: items, rest) := by
  induction items generalizing v with
  | nil =>
    intro fuel done hfuel
    obtain ⟨fuel, rfl⟩ : ∃ k, fuel = k + 1 := ⟨fuel - 1, by omega⟩
    rw [List.map_singleton, separated, List.intercalate_singleton] at hfuel ⊢
    have hv := (h v List.mem_cons_self).reads fuel (']' :: rest) (by omega) (.bracket rest)
    simp only [readItems, hv, skipBlanks_cons (show isBlank ']' = false from rfl),
      List.reverse_cons]
  | cons w items ih =>
    intro fuel done hfuel
    obtain ⟨fuel, rfl⟩ : ∃ k, fuel = k + 1 := ⟨fuel - 1, by omega⟩
    have htail : ∀ u ∈ w :: items, u.ReadsBack := fun u hu => h u (List.mem_cons_of_mem v hu)
    have hnext := skipBlanks_separated (htail w List.mem_cons_self).skipBlanks
      (items.map (·.compact.toList)) (']' :: rest)
    -- of the fuel one is for this round, and the comma leaves another two for the next ones
    rw [List.map_cons, List.map_cons, separated_cons, List.length_append, List.length_cons]
      at hfuel
    have hv := (h v List.mem_cons_self).reads fuel
      (',' :: (separated ((w :: items).map (·.compact.toList)) ++ ']' :: rest)) (by omega)
      (.comma _)
    have hrest := ih htail fuel (v :: done) (by rw [List.map_cons]; omega)
    rw [List.map_cons] at hv hrest
    rw [List.map_cons, List.map_cons, separated_cons, List.append_assoc, List.cons_append]
    simp only [readItems, hv, skipBlanks_cons (show isBlank ',' = false from rfl), hnext, hrest,
      List.reverse_cons, List.append_assoc, List.singleton_append]

/-- An array whose first character is no end of it has items. -/
theorem readValue_items {c : Char} (hblank : isBlank c = false) (hend : c ≠ ']') (fuel : Nat)
    (cs : List Char) : readValue (fuel + 1) ('[' :: c :: cs) =
      (readItems fuel (c :: cs) []).map fun (items, cs) => (.array items, cs) := by
  simp [readValue, skipBlanks_cons hblank, hend]

theorem readsBack_array {items : List JsonValue} (h : ∀ v ∈ items, v.ReadsBack) :
    (array items).ReadsBack where
  begins := ⟨_, _, toList_compact_array items, rfl, by decide⟩
  reads := by
    intro fuel rest hfuel _
    rw [toList_compact_array] at hfuel ⊢
    rw [List.length_cons, List.length_append, List.length_singleton] at hfuel
    obtain ⟨fuel, rfl⟩ : ∃ k, fuel = k + 1 := ⟨fuel - 1, by omega⟩
    rw [List.cons_append, List.append_assoc, List.singleton_append]
    cases items with
    | nil => rfl
    | cons v items =>
      have hitems := readItems_separated h rest fuel [] (by omega)
      -- the first item tells the array from one that ends at once
      obtain ⟨c, cs, hcs, hblank, hend⟩ := (h v List.mem_cons_self).begins
      obtain ⟨more, hmore⟩ := separated_eq_append v.compact.toList (items.map (·.compact.toList))
      rw [List.map_cons, hmore, hcs, List.cons_append, List.cons_append] at hitems ⊢
      rw [readValue_items hblank hend, hitems]
      rfl

/-! ### Objects -/

/-- A member as it is written. -/
def memberText (m : Option String × JsonValue) : List Char :=
  (quotedOrNull m.1).toList ++ ':' :: m.2.compact.toList

theorem toList_compact_object (members : List (Option String × JsonValue)) :
    (object members).compact.toList =
      '\x7b' :: (separated (members.map memberText) ++ ['\x7d']) := by
  have hmembers : ∀ members, (compactMembers members).map String.toList =
      members.map memberText := by
    intro members
    induction members with
    | nil => rfl
    | cons m members ih =>
      rw [compactMembers, List.map_cons, List.map_cons, ih, String.toList_append,
        String.toList_append, List.append_assoc]
      rfl
  rw [compact, String.toList_append, String.toList_append, String.toList_intercalate, hmembers]
  rfl

/-- A member whose key has a text and whose value reads back. -/
def MemberReadsBack (m : Option String × JsonValue) : Prop := m.1.isSome ∧ m.2.ReadsBack

/-- A member begins with the quote of its key. -/
theorem MemberReadsBack.begins {m : Option String × JsonValue} (h : MemberReadsBack m) :
    ∃ cs, memberText m = '"' :: cs := by
  obtain ⟨key, hkey⟩ := Option.isSome_iff_exists.mp h.1
  rw [memberText, hkey, quotedOrNull, toList_quoted]
  exact ⟨_, rfl⟩

theorem MemberReadsBack.readKey {m : Option String × JsonValue} (h : MemberReadsBack m)
    (rest : List Char) : JsonValue.readKey (memberText m ++ rest) =
      some (m.1, m.2.compact.toList ++ rest) := by
  obtain ⟨key, hkey⟩ := Option.isSome_iff_exists.mp h.1
  rw [memberText, hkey, List.append_assoc, List.cons_append]
  exact readKey_quoted key (h.2.skipBlanks rest)

theorem MemberReadsBack.skipBlanks {m : Option String × JsonValue} (h : MemberReadsBack m)
    (rest : List Char) : JsonValue.skipBlanks (memberText m ++ rest) = memberText m ++ rest := by
  obtain ⟨cs, hcs⟩ := h.begins
  rw [hcs]
  exact skipBlanks_cons rfl

theorem length_memberText (m : Option String × JsonValue) :
    m.2.compact.toList.length < (memberText m).length := by
  rw [memberText, List.length_append, List.length_cons]
  omega

/-- The members of an object are read one after another. -/
theorem readMembers_separated {members : List (Option String × JsonValue)}
    {m : Option String × JsonValue} (h : ∀ p ∈ m :: members, MemberReadsBack p)
    (rest : List Char) :
    ∀ (fuel : Nat) (done : List (Option String × JsonValue)),
      2 * (separated ((m :: members).map memberText)).length < fuel →
      readMembers fuel (separated ((m :: members).map memberText) ++ '\x7d' :: rest) done =
        some (done.reverse ++ m :: members, rest) := by
  induction members generalizing m with
  | nil =>
    intro fuel done hfuel
    obtain ⟨fuel, rfl⟩ : ∃ k, fuel = k + 1 := ⟨fuel - 1, by omega⟩
    have hm := h m List.mem_cons_self
    have hlen := length_memberText m
    rw [List.map_singleton, separated, List.intercalate_singleton] at hfuel ⊢
    have hv := hm.2.reads fuel ('\x7d' :: rest) (by omega) (.brace rest)
    simp only [readMembers, hm.readKey, hv, skipBlanks_cons (show isBlank '\x7d' = false from rfl),
      List.reverse_cons]
  | cons n members ih =>
    intro fuel done hfuel
    obtain ⟨fuel, rfl⟩ : ∃ k, fuel = k + 1 := ⟨fuel - 1, by omega⟩
    have hm := h m List.mem_cons_self
    -- the key leaves the fuel that the round takes
    have hlen := length_memberText m
    have htail : ∀ p ∈ n :: members, MemberReadsBack p :=
      fun p hp => h p (List.mem_cons_of_mem m hp)
    have hnext := skipBlanks_separated (htail n List.mem_cons_self).skipBlanks
      (members.map memberText) ('\x7d' :: rest)
    rw [List.map_cons, List.map_cons, separated_cons, List.length_append, List.length_cons]
      at hfuel
    have hv := hm.2.reads fuel
      (',' :: (separated ((n :: members).map memberText) ++ '\x7d' :: rest)) (by omega)
      (.comma _)
    have hrest := ih htail fuel (m :: done) (by rw [List.map_cons]; omega)
    rw [List.map_cons] at hv hrest
    rw [List.map_cons, List.map_cons, separated_cons, List.append_assoc, List.cons_append]
    simp only [readMembers, hm.readKey, hv, skipBlanks_cons (show isBlank ',' = false from rfl),
      hnext, hrest, List.reverse_cons, List.append_assoc, List.singleton_append]

/-- An object that begins with a quote has members. -/
theorem readValue_members (fuel : Nat) (cs : List Char) :
    readValue (fuel + 1) ('\x7b' :: '"' :: cs) =
      (readMembers fuel ('"' :: cs) []).map fun (members, cs) => (.object members, cs) := by
  simp [readValue, skipBlanks_cons (show isBlank '"' = false from rfl)]

theorem readsBack_object {members : List (Option String × JsonValue)}
    (h : ∀ m ∈ members, MemberReadsBack m) : (object members).ReadsBack where
  begins := ⟨_, _, toList_compact_object members, rfl, by decide⟩
  reads := by
    intro fuel rest hfuel _
    rw [toList_compact_object] at hfuel ⊢
    rw [List.length_cons, List.length_append, List.length_singleton] at hfuel
    obtain ⟨fuel, rfl⟩ : ∃ k, fuel = k + 1 := ⟨fuel - 1, by omega⟩
    rw [List.cons_append, List.append_assoc, List.singleton_append]
    cases members with
    | nil => rfl
    | cons m members =>
      have hmembers := readMembers_separated h rest fuel [] (by omega)
      obtain ⟨cs, hcs⟩ := (h m List.mem_cons_self).begins
      obtain ⟨more, hmore⟩ := separated_eq_append (memberText m) (members.map memberText)
      rw [List.map_cons, hmore, hcs, List.cons_append, List.cons_append] at hmembers ⊢
      rw [readValue_members, hmembers]
      rfl

/-! ### Values without parts -/

/-- A value that is read at once, whatever stands behind it. -/
theorem readsBack_of_at_once {v : JsonValue} {c : Char} {cs : List Char}
    (htext : v.compact.toList = c :: cs) (hblank : isBlank c = false) (hend : c ≠ ']')
    (h : ∀ fuel rest, readValue (fuel + 1) (c :: (cs ++ rest)) = some (v, rest)) : v.ReadsBack where
  begins := ⟨c, cs, htext, hblank, hend⟩
  reads := by
    intro fuel rest hfuel _
    obtain ⟨fuel, rfl⟩ : ∃ k, fuel = k + 1 := ⟨fuel - 1, by omega⟩
    rw [htext]
    exact h fuel rest

theorem readsBack_string (text : String) : (string (some text)).ReadsBack := by
  refine readsBack_of_at_once (toList_quoted text) rfl (by decide) ?_
  intro fuel rest
  rw [List.append_assoc, List.singleton_append]
  simp only [readValue, readString_quoted, Option.map_some]

/-- What begins with a digit is a number. -/
theorem readValue_digit {c : Char} (h : c.isDigit = true) (fuel : Nat) (cs : List Char) :
    readValue (fuel + 1) (c :: cs) = readNumber (c :: cs) := by
  simp [readValue, ne_of_isDigit h]

theorem readsBack_natural (n : Nat) : (natural n).ReadsBack := by
  have htext : (natural n).compact.toList = Nat.toDigits 10 n := Nat.toList_repr
  obtain ⟨c, cs, hdigits, hc⟩ := toDigits_eq_cons n
  constructor
  · have hblank : isBlank c = false := by simp [isBlank, ne_of_isDigit hc]
    exact ⟨c, cs, htext.trans hdigits, hblank, ne_of_isDigit hc rfl⟩
  · intro fuel rest hfuel hrest
    obtain ⟨fuel, rfl⟩ : ∃ k, fuel = k + 1 := ⟨fuel - 1, by omega⟩
    have hnumber := readNumber_toDigits n hrest
    rw [htext]
    rw [hdigits, List.cons_append] at hnumber ⊢
    rw [readValue_digit hc, hnumber]

/-! ### Whole texts -/

theorem HasText.readsBack {v : JsonValue} (h : v.HasText) : v.ReadsBack := by
  induction h with
  | null => exact readsBack_of_at_once rfl rfl (by decide) fun _ _ => rfl
  | bool b =>
    cases b with
    | true => exact readsBack_of_at_once rfl rfl (by decide) fun _ _ => rfl
    | false => exact readsBack_of_at_once rfl rfl (by decide) fun _ _ => rfl
  | natural n => exact readsBack_natural n
  | string text => exact readsBack_string text
  | array _ ih => exact readsBack_array ih
  | object hkeys _ ih => exact readsBack_object fun m hm => ⟨hkeys m hm, ih m hm⟩

/-- **A value is read from its written form.** -/
theorem ofText?_compact {v : JsonValue} (h : v.HasText) : ofText? v.compact = some v := by
  have hback := h.readsBack
  have hblank := hback.skipBlanks []
  have hread := hback.reads (2 * v.compact.toList.length + 2) [] (by omega) .nil
  rw [List.append_nil] at hblank hread
  unfold ofText?
  simp only [hblank, hread]
  rfl

end ChatBackup.JsonValue
