import ChatBackup.Record.Basic

/-!
# Encoded messages read back

The encoding of a message decodes to the message, whatever its fields hold:

> `Schema.Codes.decode`: if the fields of a schema code a value one after another, the encoding of
> the value decodes to it, and its length is the one that is told without encoding.
> `BackupInfo.codes`, `Frame.codes`: this holds for the records of a backup.

`Schema.Merges` says what taking fields off the front of a message does, whatever follows them. For
each kind of field one lemma (`Field.uint64_writes` and its like) tells how the written form of the
field is merged into a value that does not have it yet. The lengths must stay below `UInt64.size`,
since lengths are written as numbers of 64 bits.
-/

namespace ChatBackup

theorem Varint.encode_ne_nil (n : Nat) : Varint.encode n ≠ [] := by
  by_cases h : n < 128
  · rw [Varint.encode_of_lt h]
    simp
  · rw [Varint.encode_of_le (Nat.le_of_not_lt h)]
    simp

theorem Key.encode_ne_nil (k : Key) : Key.encode k ≠ [] := Varint.encode_ne_nil _

theorem Key.length_encode {k : Key} (h : k.number < 1 <<< 29) :
    (Key.encode k).length = Key.size k := by
  have hcode : k.wire.code < 8 := by cases k.wire <;> decide
  refine Varint.length_encode _ ?_
  rw [Key.toNat, UInt64.size]
  omega

/-! ## Fields one after another -/

namespace Schema

variable {α : Type} {m : Schema α} {budget : Nat} {b : Bytes} {s t u : α}

/-- Taking the fields in `b` off the front leads from `s` to `t`, whatever stands behind them. -/
inductive Merges (m : Schema α) (budget : Nat) : Bytes → α → α → Prop where
  | nil (s : α) : Merges m budget [] s s
  | cons {b more : Bytes} {s t u : α} : b ≠ [] →
    (∀ rest, m.mergeField budget s (b ++ rest) = .ok (t, rest)) → Merges m budget more t u →
    Merges m budget (b ++ more) s u

theorem Merges.append {more : Bytes} (h : Merges m budget b s t) (h' : Merges m budget more t u) :
    Merges m budget (b ++ more) s u := by
  induction h with
  | nil => exact h'
  | cons hne hfield _ ih =>
    rw [List.append_assoc]
    exact .cons hne hfield (ih h')

/-- The rounds of a message stop in front of what follows it. -/
theorem Merges.mergeRounds (h : Merges m budget b s t) (rest : Bytes) :
    ∀ fuel, b.length ≤ fuel →
      m.mergeRounds budget rest.length fuel s (b ++ rest) = .ok (t, rest) := by
  induction h with
  | nil =>
    intro fuel _
    cases fuel with
    | zero => rfl
    | succ fuel =>
      unfold Schema.mergeRounds
      rw [if_pos (by simp), List.nil_append]
  | @cons b more s t u hne hfield _ ih =>
    intro fuel hfuel
    have hpos := List.length_pos_iff.mpr hne
    rw [List.length_append] at hfuel
    obtain ⟨fuel, rfl⟩ : ∃ k, fuel = k + 1 := ⟨fuel - 1, by omega⟩
    have hmore : ¬ ((b ++ more ++ rest).drop rest.length).isEmpty = true := by
      rw [List.isEmpty_iff, List.drop_eq_nil_iff]
      simp only [List.length_append]
      omega
    unfold Schema.mergeRounds
    rw [if_neg hmore, List.append_assoc, hfield]
    exact ih fuel (by omega)

/-- A submessage ends where its length says, in whatever way the length is written. -/
theorem Merges.mergeDelimited (h : Merges m budget b s t) {length : Bytes}
    (hlength : ∀ rest, Varint.decode (length ++ rest) = some (b.length, rest)) (rest : Bytes) :
    m.mergeDelimited budget s (length ++ b ++ rest) = .ok (t, rest) := by
  have hfits : ¬ (b ++ rest).length < b.length := by
    rw [List.length_append]
    omega
  have hend : (b ++ rest).length - b.length = rest.length := by
    rw [List.length_append, Nat.add_sub_cancel_left]
  unfold Schema.mergeDelimited
  have hfuel : b.length ≤ (b ++ rest).length := List.length_append ▸ Nat.le_add_right _ _
  rw [List.append_assoc, hlength]
  simp only [hfits, if_false, hend, h.mergeRounds rest _ hfuel, if_true]

theorem Merges.decode (h : Merges m recursionBudget b m.empty t) : m.decode b = .ok t := by
  have hrounds := h.mergeRounds [] b.length (Nat.le_refl _)
  rw [List.append_nil, List.length_nil] at hrounds
  rw [Schema.decode, hrounds]
  rfl

/-- A field that is found under its own number. -/
structure Has (m : Schema α) (f : Field α) : Prop where
  found : m.fields.find? (·.number = f.number) = some f
  pos : 0 < f.number
  lt : f.number < 1 <<< 29

/-- The written form of a field of `a` leads from `s` to `t`, and its length is known. -/
structure Writes (m : Schema α) (budget : Nat) (f : Field α) (a s t : α) : Prop where
  size : (f.encode a).length < UInt64.size → f.size a = (f.encode a).length
  merges : (f.encode a).length < UInt64.size → Merges m budget (f.encode a) s t

/-- The written forms of fields one after another lead from `s` to `t`. -/
inductive Builds (m : Schema α) (budget : Nat) (a : α) : List (Field α) → α → α → Prop where
  | nil (s : α) : Builds m budget a [] s s
  | cons {f : Field α} {fs : List (Field α)} {s t u : α} : Writes m budget f a s t →
    Builds m budget a fs t u → Builds m budget a (f :: fs) s u

theorem Builds.size {a : α} {fs : List (Field α)} (h : Builds m budget a fs s t) :
    (fs.flatMap (·.encode a)).length < UInt64.size →
      fs.foldr (fun f n => f.size a + n) 0 = (fs.flatMap (·.encode a)).length := by
  induction h with
  | nil => intro _; rfl
  | cons hf _ ih =>
    intro hlen
    rw [List.flatMap_cons, List.length_append] at hlen ⊢
    rw [List.foldr_cons, hf.size (by omega), ih (by omega)]

theorem Builds.merges {a : α} {fs : List (Field α)} (h : Builds m budget a fs s t) :
    (fs.flatMap (·.encode a)).length < UInt64.size →
      Merges m budget (fs.flatMap (·.encode a)) s t := by
  induction h with
  | nil => intro _; exact .nil _
  | cons hf _ ih =>
    intro hlen
    rw [List.flatMap_cons, List.length_append] at hlen
    rw [List.flatMap_cons]
    exact (hf.merges (by omega)).append (ih (by omega))

/-- The fields of a schema code a value if the nesting is allowed to be so deep. -/
def Codes (m : Schema α) (depth : Nat) (a : α) : Prop :=
  ∀ budget, depth ≤ budget → Builds m budget a m.fields m.empty a

theorem Codes.size {a : α} {depth : Nat} (h : m.Codes depth a)
    (hlen : (m.encode a).length < UInt64.size) : m.size a = (m.encode a).length :=
  (h depth (Nat.le_refl _)).size hlen

theorem Codes.merges {a : α} {depth : Nat} (h : m.Codes depth a) (hb : depth ≤ budget)
    (hlen : (m.encode a).length < UInt64.size) : Merges m budget (m.encode a) m.empty a :=
  (h budget hb).merges hlen

/-- What is coded decodes. -/
theorem Codes.decode {a : α} {depth : Nat} (h : m.Codes depth a) (hd : depth ≤ recursionBudget)
    (hlen : (m.encode a).length < UInt64.size) : m.decode (m.encode a) = .ok a :=
  (h.merges hd hlen).decode

end Schema

/-! ## The kinds of fields -/

namespace Field

open Schema

variable {α β : Type} {m : Schema α} {budget : Nat} {f : Field α} {a s t : α}

/-- A key leads to its field. -/
theorem merges_of_merge (hf : m.Has f) {wire : WireType} {content : Bytes}
    (h : ∀ rest, f.merge budget wire s (content ++ rest) = .ok (t, rest)) :
    Merges m budget (Key.encode ⟨f.number, wire⟩ ++ content) s t := by
  have hone : Merges m budget (Key.encode ⟨f.number, wire⟩ ++ content ++ []) s t := by
    refine .cons ?_ ?_ (.nil t)
    · intro hnil
      exact Key.encode_ne_nil _ (List.append_eq_nil_iff.mp hnil).1
    · intro rest
      rw [mergeField, List.append_assoc, Key.decode_encode _ _ hf.pos hf.lt]
      simp only [hf.found, h]
      rfl
  rwa [List.append_nil] at hone

/-- A field with its default value is left out. -/
theorem absent_writes (hencode : f.encode a = []) (hsize : f.size a = 0) :
    Writes m budget f a s s where
  size _ := by rw [hencode, hsize]; rfl
  merges _ := by rw [hencode]; exact .nil s

theorem length_encodeNumber {number n : Nat} (hf : number < 1 <<< 29) (hn : n < UInt64.size) :
    (encodeNumber number n).length = sizeNumber number n := by
  rw [encodeNumber, List.length_append, Key.length_encode hf, Varint.length_encode _ hn]
  rfl

theorem length_encodeDelimited {number : Nat} {content : Bytes} (hf : number < 1 <<< 29)
    (hlen : content.length < UInt64.size) :
    (encodeDelimited number content.length content).length =
      sizeDelimited number content.length := by
  rw [encodeDelimited, List.length_append, List.length_append, Key.length_encode hf,
    Varint.length_encode _ hlen]
  rfl

/-- A field that is written as a number. -/
theorem number_writes (hf : m.Has f) {n : Nat} (hn : n < UInt64.size)
    (hencode : f.encode a = encodeNumber f.number n) (hsize : f.size a = sizeNumber f.number n)
    (hmerge : ∀ rest, f.merge budget .varint s (Varint.encode n ++ rest) = .ok (t, rest)) :
    Writes m budget f a s t where
  size _ := by rw [hencode, hsize, length_encodeNumber hf.lt hn]
  merges _ := by rw [hencode]; exact merges_of_merge hf hmerge

theorem length_le_encodeDelimited (number length : Nat) (content : Bytes) :
    content.length ≤ (encodeDelimited number length content).length := by
  rw [encodeDelimited, List.length_append]
  exact Nat.le_add_left _ _

/-- A field that is written as a string of bytes, with the length told in some other way. -/
theorem delimited_writes (hf : m.Has f) {content : Bytes} {length : Nat}
    (hlength : content.length < UInt64.size → length = content.length)
    (hencode : f.encode a = encodeDelimited f.number length content)
    (hsize : f.size a = sizeDelimited f.number length)
    (hmerge : content.length < UInt64.size → ∀ rest, f.merge budget .lengthDelimited s
      (Varint.encode content.length ++ content ++ rest) = .ok (t, rest)) :
    Writes m budget f a s t := by
  have hle := length_le_encodeDelimited f.number length content
  constructor
  · intro hlen
    rw [hencode] at hlen ⊢
    have hcontent := Nat.lt_of_le_of_lt hle hlen
    rw [hsize, hlength hcontent, length_encodeDelimited hf.lt hcontent]
  · intro hlen
    rw [hencode] at hlen ⊢
    have hcontent := Nat.lt_of_le_of_lt hle hlen
    rw [hlength hcontent, encodeDelimited, List.append_assoc]
    exact merges_of_merge hf (hmerge hcontent)

/-! ### Reading contents -/

theorem readNumber_encode {n : Nat} (hn : n < UInt64.size) (rest : Bytes) :
    readNumber .varint (Varint.encode n ++ rest) = .ok (n, rest) := by
  unfold readNumber
  rw [if_neg (by simp), Varint.decode_encode hn]

theorem readDelimited_encode {content : Bytes} (hlen : content.length < UInt64.size)
    (rest : Bytes) :
    readDelimited .lengthDelimited (Varint.encode content.length ++ content ++ rest) =
      .ok (content, rest) := by
  unfold readDelimited
  rw [if_neg (by simp), List.append_assoc, Varint.decode_encode hlen]
  simp only [Bytes.split?_eq_some_iff.mpr ⟨rfl, rfl⟩]

theorem length_textBytes (x : String) : (textBytes x).length = x.utf8ByteSize := by
  simp [textBytes]

theorem text?_textBytes (x : String) : text? (textBytes x) = some x := by
  have hbytes : (⟨(textBytes x).toArray⟩ : ByteArray) = x.toUTF8 := by
    rw [textBytes, Array.toArray_toList]
  have hvalid : x.toUTF8.IsValidUTF8 := x.isValidUTF8
  rw [text?, hbytes, String.fromUTF8?, dif_pos hvalid]
  rfl

theorem readText_encode {x : String} (hlen : (textBytes x).length < UInt64.size) (rest : Bytes) :
    readText .lengthDelimited (Varint.encode (textBytes x).length ++ textBytes x ++ rest) =
      .ok (x, rest) := by
  unfold readText
  rw [readDelimited_encode hlen]
  simp only [text?_textBytes]

theorem readMessage_encode {m : Schema β} {depth : Nat} {v : β} (h : m.Codes depth v)
    (hb : depth < budget) (hlen : (m.encode v).length < UInt64.size) (rest : Bytes) :
    readMessage m budget .lengthDelimited m.empty
      (Varint.encode (m.encode v).length ++ m.encode v ++ rest) = .ok (v, rest) := by
  obtain ⟨k, rfl⟩ : ∃ k, budget = k + 1 := ⟨budget - 1, by omega⟩
  unfold readMessage
  rw [if_neg (by simp)]
  exact (h.merges (Nat.le_of_lt_succ hb) hlen).mergeDelimited (Varint.decode_encode hlen) rest

/-! ### Plain fields -/

variable {number : Nat} {name : String}

theorem uint64_writes {get : α → UInt64} {set : UInt64 → α → α}
    (hf : m.Has (uint64 number name get set)) (h0 : set 0 s = s) :
    Writes m budget (uint64 number name get set) a s (set (get a) s) := by
  by_cases h : get a = 0
  · rw [h, h0]
    exact absent_writes (if_pos h) (if_pos h)
  · have hn : (get a).toNat < UInt64.size := (get a).toNat_lt
    apply number_writes hf hn (if_neg h) (if_neg h)
    intro rest
    show (readNumber .varint _).map _ = _
    rw [readNumber_encode hn]
    show Except.ok (set (UInt64.ofNat (get a).toNat) s, rest) = _
    rw [UInt64.ofNat_toNat]

theorem uint32_writes {get : α → UInt32} {set : UInt32 → α → α}
    (hf : m.Has (uint32 number name get set)) (h0 : set 0 s = s) :
    Writes m budget (uint32 number name get set) a s (set (get a) s) := by
  by_cases h : get a = 0
  · rw [h, h0]
    exact absent_writes (if_pos h) (if_pos h)
  · have hn : (get a).toNat < UInt64.size := Nat.lt_trans (get a).toNat_lt (by decide)
    apply number_writes hf hn (if_neg h) (if_neg h)
    intro rest
    show (readNumber .varint _).map _ = _
    rw [readNumber_encode hn]
    show Except.ok (set (UInt32.ofNat (get a).toNat) s, rest) = _
    rw [UInt32.ofNat_toNat]

theorem bool_writes {get : α → Bool} {set : Bool → α → α}
    (hf : m.Has (bool number name get set)) (h0 : set false s = s) :
    Writes m budget (bool number name get set) a s (set (get a) s) := by
  cases h : get a with
  | false =>
    rw [h0]
    have hnot : ¬ get a = true := by rw [h]; simp
    exact absent_writes (if_neg hnot) (if_neg hnot)
  | true =>
    apply number_writes hf (by decide) (if_pos h) (if_pos h)
    intro rest
    show (readNumber .varint _).map _ = _
    rw [readNumber_encode (by decide)]
    rfl

theorem bytes_writes {get : α → Bytes} {set : Bytes → α → α}
    (hf : m.Has (bytes number name get set)) (h0 : set [] s = s) :
    Writes m budget (bytes number name get set) a s (set (get a) s) := by
  by_cases h : (get a).isEmpty = true
  · rw [List.isEmpty_iff.mp h, h0]
    exact absent_writes (if_pos h) (if_pos h)
  · apply delimited_writes hf (fun _ => rfl) (if_neg h) (if_neg h)
    intro hlen rest
    show (readDelimited .lengthDelimited _).map _ = _
    rw [readDelimited_encode hlen]
    rfl

theorem text_writes {get : α → String} {set : String → α → α}
    (hf : m.Has (text number name get set)) (h0 : set "" s = s) :
    Writes m budget (text number name get set) a s (set (get a) s) := by
  by_cases h : get a = ""
  · rw [h, h0]
    exact absent_writes (if_pos h) (if_pos h)
  · apply delimited_writes hf (fun _ => (length_textBytes (get a)).symm) (if_neg h) (if_neg h)
    intro hlen rest
    show (readText .lengthDelimited _).map _ = _
    rw [readText_encode hlen]
    rfl

/-! ### Optional fields -/

/-- The value with an optional field taken over. -/
def takeOver (x : Option β) (set : β → α → α) (s : α) : α := x.elim s fun v => set v s

theorem optionalUint64_writes {get : α → Option UInt64} {set : UInt64 → α → α}
    (hf : m.Has (optionalUint64 number name get set)) :
    Writes m budget (optionalUint64 number name get set) a s (takeOver (get a) set s) := by
  cases h : get a with
  | none =>
    exact absent_writes (by simp only [optionalUint64, h]) (by simp only [optionalUint64, h])
  | some x =>
    have hn : x.toNat < UInt64.size := x.toNat_lt
    apply number_writes hf hn (by simp only [optionalUint64, h])
      (by simp only [optionalUint64, h])
    intro rest
    show (readNumber .varint _).map _ = _
    rw [readNumber_encode hn]
    show Except.ok (set (UInt64.ofNat x.toNat) s, rest) = _
    rw [UInt64.ofNat_toNat]
    rfl

theorem optionalUint32_writes {get : α → Option UInt32} {set : UInt32 → α → α}
    (hf : m.Has (optionalUint32 number name get set)) :
    Writes m budget (optionalUint32 number name get set) a s (takeOver (get a) set s) := by
  cases h : get a with
  | none =>
    exact absent_writes (by simp only [optionalUint32, h]) (by simp only [optionalUint32, h])
  | some x =>
    have hn : x.toNat < UInt64.size := Nat.lt_trans x.toNat_lt (by decide)
    apply number_writes hf hn (by simp only [optionalUint32, h])
      (by simp only [optionalUint32, h])
    intro rest
    show (readNumber .varint _).map _ = _
    rw [readNumber_encode hn]
    show Except.ok (set (UInt32.ofNat x.toNat) s, rest) = _
    rw [UInt32.ofNat_toNat]
    rfl

theorem optionalText_writes {get : α → Option String} {set : String → α → α}
    (hf : m.Has (optionalText number name get set)) :
    Writes m budget (optionalText number name get set) a s (takeOver (get a) set s) := by
  cases h : get a with
  | none => exact absent_writes (by simp only [optionalText, h]) (by simp only [optionalText, h])
  | some x =>
    apply delimited_writes hf (fun _ => (length_textBytes x).symm)
      (by simp only [optionalText, h]) (by simp only [optionalText, h])
    intro hlen rest
    show (readText .lengthDelimited _).map _ = _
    rw [readText_encode hlen]
    rfl

/-! ### Submessages -/

variable {mb : Schema β} {depth : Nat}

theorem message_writes {get : α → Option β} {set : β → α → α}
    (hf : m.Has (message number name mb get set)) (hb : depth < budget)
    (hcodes : ∀ v, get a = some v → mb.Codes depth v) (hs : get s = none) :
    Writes m budget (message number name mb get set) a s (takeOver (get a) set s) := by
  cases h : get a with
  | none => exact absent_writes (by simp only [message, h]) (by simp only [message, h])
  | some v =>
    apply delimited_writes hf (hcodes v h).size (by simp only [message, h])
      (by simp only [message, h])
    intro hlen rest
    show (readMessage mb budget .lengthDelimited ((get s).getD mb.empty) _).map _ = _
    rw [hs, Option.getD_none, readMessage_encode (hcodes v h) hb hlen]
    rfl

/-- The written form of one of several submessages. -/
def element (number : Nat) (mb : Schema β) (v : β) : Bytes :=
  encodeDelimited number (mb.size v) (mb.encode v)

theorem size_element (hf : number < 1 <<< 29) {v : β} (hv : mb.Codes depth v)
    (hlen : (element number mb v).length < UInt64.size) :
    sizeDelimited number (mb.size v) = (element number mb v).length := by
  have hle := length_le_encodeDelimited number (mb.size v) (mb.encode v)
  have hcontent := Nat.lt_of_le_of_lt hle hlen
  rw [element, hv.size hcontent, length_encodeDelimited hf hcontent]

/-- Each submessage is added behind those that are there. -/
theorem elements_merges {get : α → List β} {set : List β → α → α}
    (hf : m.Has (repeated number name mb get set)) (hb : depth < budget)
    (hget : ∀ vs, get (set vs s) = vs) (hset : ∀ vs ws, set vs (set ws s) = set vs s) :
    ∀ (vs done : List β), (∀ v ∈ vs, mb.Codes depth v) →
      (vs.flatMap (element number mb)).length < UInt64.size →
      Merges m budget (vs.flatMap (element number mb)) (set done s) (set (done ++ vs) s) := by
  intro vs
  induction vs with
  | nil =>
    intro done _ _
    rw [List.append_nil]
    exact .nil _
  | cons v vs ih =>
    intro done hcodes hlen
    rw [List.flatMap_cons, List.length_append] at hlen
    have hv := hcodes v (List.mem_cons_self)
    have hle := length_le_encodeDelimited number (mb.size v) (mb.encode v)
    have hcontent : (mb.encode v).length < UInt64.size := by
      have : (element number mb v).length =
        (encodeDelimited number (mb.size v) (mb.encode v)).length := rfl
      omega
    have hone : Merges m budget (element number mb v) (set done s) (set (done ++ [v]) s) := by
      rw [element, hv.size hcontent, encodeDelimited, List.append_assoc]
      apply merges_of_merge hf
      intro rest
      show (readMessage mb budget .lengthDelimited mb.empty _).map _ = _
      rw [readMessage_encode hv hb hcontent]
      show Except.ok (set (get (set done s) ++ [v]) (set done s), rest) = _
      rw [hget, hset]
    have hmore := ih (done ++ [v]) (fun w hw => hcodes w (List.mem_cons_of_mem v hw)) (by omega)
    rw [List.append_assoc] at hmore
    rw [List.flatMap_cons]
    exact hone.append hmore

theorem repeated_writes {get : α → List β} {set : List β → α → α}
    (hf : m.Has (repeated number name mb get set)) (hb : depth < budget)
    (hcodes : ∀ v ∈ get a, mb.Codes depth v) (h0 : set [] s = s)
    (hget : ∀ vs, get (set vs s) = vs) (hset : ∀ vs ws, set vs (set ws s) = set vs s) :
    Writes m budget (repeated number name mb get set) a s (set (get a) s) where
  size hlen := by
    show (get a).foldr (fun v n => sizeDelimited number (mb.size v) + n) 0 =
      ((get a).flatMap (element number mb)).length
    replace hlen : ((get a).flatMap (element number mb)).length < UInt64.size := hlen
    have hnumber : number < 1 <<< 29 := hf.lt
    generalize get a = vs at hcodes hlen
    induction vs with
    | nil => rfl
    | cons v vs ih =>
      rw [List.flatMap_cons, List.length_append] at hlen ⊢
      rw [List.foldr_cons, ih (fun w hw => hcodes w (List.mem_cons_of_mem v hw))
        (by omega), size_element hnumber (hcodes v List.mem_cons_self) (by omega)]
  merges hlen := by
    have h := elements_merges hf hb hget hset (get a) [] hcodes hlen
    rw [h0, List.nil_append] at h
    exact h

end Field

/-! ## The records -/

open Schema ChatBackup.Field

theorem BackupInfo.codes (a : BackupInfo) : (Record.schema (α := BackupInfo)).Codes 0 a := by
  intro budget _
  refine .cons (uint64_writes ?_ rfl) (.cons (uint64_writes ?_ rfl) (.cons (bytes_writes ?_ rfl)
    (.cons (text_writes ?_ rfl) (.cons (text_writes ?_ rfl) (.nil _)))))
  all_goals exact ⟨rfl, by decide, by decide⟩

theorem AccountData.codes (a : AccountData) : (Record.schema (α := AccountData)).Codes 0 a := by
  obtain ⟨profileKey, username, givenName, familyName⟩ := a
  intro budget _
  cases username <;>
    refine .cons (bytes_writes ?_ rfl) (.cons (optionalText_writes ?_)
      (.cons (text_writes ?_ rfl) (.cons (text_writes ?_ rfl) (.nil _))))
  all_goals exact ⟨rfl, by decide, by decide⟩

theorem Recipient.codes (a : Recipient) : (Record.schema (α := Recipient)).Codes 0 a := by
  obtain ⟨id, aci, e164, name⟩ := a
  intro budget _
  cases e164 <;>
    refine .cons (uint64_writes ?_ rfl) (.cons (bytes_writes ?_ rfl)
      (.cons (optionalUint64_writes ?_) (.cons (text_writes ?_ rfl) (.nil _))))
  all_goals exact ⟨rfl, by decide, by decide⟩

theorem Chat.codes (a : Chat) : (Record.schema (α := Chat)).Codes 0 a := by
  obtain ⟨id, recipientId, archived, pinnedOrder, expirationTimerMs, muteUntilMs⟩ := a
  intro budget _
  cases pinnedOrder <;>
    refine .cons (uint64_writes ?_ rfl) (.cons (uint64_writes ?_ rfl) (.cons (bool_writes ?_ rfl)
      (.cons (optionalUint32_writes ?_) (.cons (uint64_writes ?_ rfl)
      (.cons (uint64_writes ?_ rfl) (.nil _))))))
  all_goals exact ⟨rfl, by decide, by decide⟩

theorem FilePointer.codes (a : FilePointer) : (Record.schema (α := FilePointer)).Codes 0 a := by
  intro budget _
  refine .cons (text_writes ?_ rfl) (.cons (uint32_writes ?_ rfl) (.cons (bytes_writes ?_ rfl)
    (.cons (bytes_writes ?_ rfl) (.nil _))))
  all_goals exact ⟨rfl, by decide, by decide⟩

theorem StickerPack.codes (a : StickerPack) : (Record.schema (α := StickerPack)).Codes 0 a := by
  intro budget _
  refine .cons (bytes_writes ?_ rfl) (.cons (bytes_writes ?_ rfl) (.nil _))
  all_goals exact ⟨rfl, by decide, by decide⟩

theorem StandardMessage.codes (a : StandardMessage) :
    (Record.schema (α := StandardMessage)).Codes 1 a := by
  intro budget hb
  refine .cons (text_writes ?_ rfl) (.cons (repeated_writes ?_ hb
    (fun v _ => FilePointer.codes v) rfl (fun _ => rfl) (fun _ _ => rfl)) (.nil _))
  all_goals exact ⟨rfl, by decide, by decide⟩

theorem ChatItem.codes (a : ChatItem) : (Record.schema (α := ChatItem)).Codes 2 a := by
  obtain ⟨chatId, authorId, dateSent, standardMessage⟩ := a
  intro budget hb
  cases standardMessage <;>
    refine .cons (uint64_writes ?_ rfl) (.cons (uint64_writes ?_ rfl) (.cons (uint64_writes ?_ rfl)
      (.cons (message_writes ?_ hb (fun v _ => StandardMessage.codes v) rfl) (.nil _))))
  all_goals exact ⟨rfl, by decide, by decide⟩

/-- Only the field that a frame holds is written. -/
theorem Frame.codes (a : Frame) : (Record.schema (α := Frame)).Codes 3 a := by
  obtain ⟨item⟩ := a
  intro budget hb
  have h0 : 0 < budget := Nat.lt_of_lt_of_le (by decide) hb
  rcases item with _ | (_ | _ | _ | _ | _) <;>
    refine .cons (message_writes ?_ h0 (fun v _ => AccountData.codes v) rfl)
      (.cons (message_writes ?_ h0 (fun v _ => Recipient.codes v) rfl)
      (.cons (message_writes ?_ h0 (fun v _ => Chat.codes v) rfl)
      (.cons (message_writes ?_ hb (fun v _ => ChatItem.codes v) rfl)
      (.cons (message_writes ?_ h0 (fun v _ => StickerPack.codes v) rfl) (.nil _)))))
  all_goals exact ⟨rfl, by decide, by decide⟩

end ChatBackup
