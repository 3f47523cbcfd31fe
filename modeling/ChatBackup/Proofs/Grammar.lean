import ChatBackup.Proofs.Base128
import ChatBackup.Proofs.Codec

/-!
# The grammar of messages

What is taken off the front of a message is told by the bytes alone. A key and the content behind it
make a field (`Content`, `Fields`); for both, reading is sound and complete:

> `skipField_eq_ok_iff`: a field is skipped just if a content of its wire type comes first, and just
> this is taken. In a group there are fields up to its end mark, and the budget bounds the nesting.
> `Schema.decode_eq_ok_iff`: a message decodes to a value just if its fields one after another lead
> to it (`Schema.Merges`), and then it is a series of fields (`Schema.Merges.areFields`).

Since reading tells where a field ends, a byte string is a series of fields in one way only
(`field_unique`), so that fields that were taken one after another can be parted at any boundary
(`Schema.Merges.split`). Of a schema only one thing is used (`Schema.Local`): what each of its
fields takes is a content, and it takes the same whatever stands behind.
-/

namespace ChatBackup

/-! ## Keys -/

theorem WireType.code_of_ofCode? {n : Nat} {w : WireType} (h : ofCode? n = some w) :
    w.code = n := by
  unfold ofCode? at h
  split at h <;> cases h <;> rfl

namespace Key

variable {k : Key} {p b r : Bytes}

/-- The bytes are a form of the key, perhaps longer than needed. -/
structure Form (p : Bytes) (k : Key) : Prop where
  form : Varint.Form p k.toNat
  pos : 0 < k.number
  lt : k.number < 1 <<< 29

theorem Form.decode (h : Form p k) (rest : Bytes) : Key.decode (p ++ rest) = .ok (k, rest) := by
  have hencode := Key.decode_encode k rest h.pos h.lt
  have hsame : Varint.decode (p ++ rest) = Varint.decode (Key.encode k ++ rest) := by
    rw [Varint.decode_form h.form, Key.encode, Varint.decode_encode h.form.lt]
  unfold Key.decode at hencode ⊢
  rw [hsame]
  exact hencode

theorem exists_form_of_decode (h : Key.decode b = .ok (k, r)) : ∃ p, Form p k ∧ b = p ++ r := by
  unfold Key.decode at h
  split at h
  · cases h
  next n r' hn =>
    obtain ⟨p, hform, rfl⟩ := Varint.decode_eq_some_iff.mp hn
    split at h
    · cases h
    next hsmall =>
      split at h
      · cases h
      next w hw =>
        split at h
        · cases h
        next hnumber =>
          cases h
          have hcode := WireType.code_of_ofCode? hw
          have hnat : toNat ⟨n / 8, w⟩ = n := by
            simp only [toNat, hcode]
            omega
          have hsize : UInt32.size = 8 * (1 <<< 29) := rfl
          refine ⟨p, ⟨?_, Nat.pos_of_ne_zero hnumber, ?_⟩, rfl⟩
          · rw [hnat]
            exact hform
          · show n / 8 < 1 <<< 29
            omega

/-- A key is read from its forms and from nothing else. -/
theorem decode_eq_ok_iff : Key.decode b = .ok (k, r) ↔ ∃ p, Form p k ∧ b = p ++ r := by
  refine ⟨exists_form_of_decode, ?_⟩
  rintro ⟨p, hform, rfl⟩
  exact hform.decode r

theorem Form.ne_nil (h : Form p k) : p ≠ [] :=
  List.ne_nil_of_length_pos h.form.length_pos

theorem Form.append_ne_nil (h : Form p k) (c : Bytes) : p ++ c ≠ [] :=
  List.append_ne_nil_of_left_ne_nil h.ne_nil c

/-- What is written of a key is one of its forms. -/
theorem form_encode (hpos : 0 < k.number) (hlt : k.number < 1 <<< 29) : Form (encode k) k := by
  refine ⟨Varint.form_encode ?_, hpos, hlt⟩
  have hcode : k.wire.code < 8 := by cases k.wire <;> decide
  rw [toNat, UInt64.size]
  omega

/-- A key tells where it ends. -/
theorem Form.unique {q c d : Bytes} {l : Key} (hp : Form p k) (hq : Form q l)
    (h : p ++ c = q ++ d) : l = k ∧ q = p ∧ d = c := by
  have hread := hp.decode c
  rw [h, hq.decode d] at hread
  cases hread
  exact ⟨rfl, (List.append_cancel_right h).symm, rfl⟩

end Key

/-! ## Contents -/

/-- Fields one after another, the contents of which are those that `C` allows. -/
inductive Fields (C : Key → Bytes → Prop) : Bytes → Prop where
  | nil : Fields C []
  | cons {k : Key} {p c b : Bytes} : Key.Form p k → C k c → Fields C b → Fields C (p ++ c ++ b)

/-- The bytes are the content of a field, in which groups are nested less deeply than the budget
allows. -/
def Content : Nat → Key → Bytes → Prop
  | 0, _, _ => False
  | budget + 1, k, c =>
    match k.wire with
    | .varint => ∃ n, Varint.Form c n
    | .sixtyFourBit => c.length = 8
    | .thirtyTwoBit => c.length = 4
    | .lengthDelimited => ∃ p d, Varint.Form p d.length ∧ c = p ++ d
    | .startGroup =>
      ∃ b p, Fields (Content budget) b ∧ Key.Form p ⟨k.number, .endGroup⟩ ∧ c = b ++ p
    | .endGroup => False

theorem Fields.mono {C D : Key → Bytes → Prop} (hCD : ∀ k c, C k c → D k c) {b : Bytes}
    (h : Fields C b) : Fields D b := by
  induction h with
  | nil => exact .nil
  | cons hkey hc _ ih => exact .cons hkey (hCD _ _ hc) ih

theorem Fields.append {C : Key → Bytes → Prop} {b b' : Bytes} (h : Fields C b) (h' : Fields C b') :
    Fields C (b ++ b') := by
  induction h with
  | nil => exact h'
  | cons hkey hc _ ih =>
    rw [List.append_assoc]
    exact .cons hkey hc ih

theorem Fields.single {C : Key → Bytes → Prop} {k : Key} {p c : Bytes} (hkey : Key.Form p k)
    (hc : C k c) : Fields C (p ++ c) := by
  have h : Fields C (p ++ c ++ []) := .cons hkey hc .nil
  rwa [List.append_nil] at h

theorem not_content_endGroup (budget number : Nat) (c : Bytes) :
    ¬ Content budget ⟨number, .endGroup⟩ c := by
  cases budget <;> exact id

/-- A larger budget allows more. -/
theorem Content.succ : ∀ (budget : Nat) (k : Key) (c : Bytes), Content budget k c →
    Content (budget + 1) k c := by
  intro budget
  induction budget with
  | zero => intro k c h; exact h.elim
  | succ budget ih =>
    rintro ⟨number, wire⟩ c h
    cases wire with
    | varint | sixtyFourBit | thirtyTwoBit | lengthDelimited => exact h
    | startGroup =>
      obtain ⟨b, p, hfields, hend, rfl⟩ := h
      exact ⟨b, p, hfields.mono ih, hend, rfl⟩
    | endGroup => exact h

theorem Content.mono {budget larger : Nat} {k : Key} {c : Bytes} (h : Content budget k c)
    (hle : budget ≤ larger) : Content larger k c := by
  induction hle with
  | refl => exact h
  | step _ ih => exact ih.succ

/-- The bytes are fields one after another, so that a message may be parted behind them. -/
def AreFields (b : Bytes) : Prop := ∃ depth, Fields (Content depth) b

theorem AreFields.append {b b' : Bytes} (h : AreFields b) (h' : AreFields b') :
    AreFields (b ++ b') := by
  obtain ⟨depth, hb⟩ := h
  obtain ⟨depth', hb'⟩ := h'
  refine ⟨max depth depth', ?_⟩
  exact (hb.mono fun _ _ hc => hc.mono (Nat.le_max_left _ _)).append
    (hb'.mono fun _ _ hc => hc.mono (Nat.le_max_right _ _))

/-! ## Skipping -/

theorem skipBytes_eq_ok_iff {n : Nat} {b r : Bytes} :
    skipBytes n b = .ok r ↔ ∃ c, c.length = n ∧ b = c ++ r := by
  unfold skipBytes
  constructor
  · intro h
    split at h
    next front rest hsplit =>
      cases h
      obtain ⟨hb, hlen⟩ := Bytes.split?_eq_some_iff.mp hsplit
      exact ⟨front, hlen, hb⟩
    next => cases h
  · rintro ⟨c, hlen, hb⟩
    rw [Bytes.split?_eq_some_iff.mpr ⟨hb, hlen⟩]

section Groups

variable {C : Key → Bytes → Prop} {skip : WireType → Nat → Bytes → Except DecodeCause Bytes}

/-- What is skipped of a group are fields and its end mark. -/
theorem skipGroup_sound (hskip : ∀ {wire : WireType} {number : Nat} {b r : Bytes},
      skip wire number b = .ok r → ∃ c, C ⟨number, wire⟩ c ∧ b = c ++ r) (number : Nat) :
    ∀ (fuel : Nat) {b r : Bytes}, skipGroup skip fuel number b = .ok r →
      ∃ c p, Fields C c ∧ Key.Form p ⟨number, .endGroup⟩ ∧ b = c ++ p ++ r := by
  intro fuel
  induction fuel with
  | zero => intro b r h; cases h
  | succ fuel ih =>
    intro b r h
    unfold skipGroup at h
    split at h
    · cases h
    next k b' hkey =>
      obtain ⟨p, hp, rfl⟩ := Key.decode_eq_ok_iff.mp hkey
      split at h
      next hend =>
        split at h
        next hnumber =>
          cases h
          obtain ⟨n, w⟩ := k
          obtain rfl : w = .endGroup := hend
          obtain rfl : n = number := hnumber
          exact ⟨[], p, .nil, hp, rfl⟩
        next => cases h
      next =>
        split at h
        · cases h
        next b'' hfield =>
          obtain ⟨c, hc, rfl⟩ := hskip hfield
          obtain ⟨more, q, hmore, hq, rfl⟩ := ih h
          refine ⟨p ++ c ++ more, q, .cons hp hc hmore, hq, ?_⟩
          simp only [List.append_assoc]

/-- Fields and an end mark are skipped as a group. -/
theorem skipGroup_complete (hend : ∀ number c, ¬ C ⟨number, .endGroup⟩ c)
    (hskip : ∀ {k : Key} {c : Bytes} (rest : Bytes), C k c →
      skip k.wire k.number (c ++ rest) = .ok rest) {number : Nat} {p : Bytes}
    (hp : Key.Form p ⟨number, .endGroup⟩) (rest : Bytes) {c : Bytes} (h : Fields C c) :
    ∀ fuel, c.length < fuel → skipGroup skip fuel number (c ++ p ++ rest) = .ok rest := by
  induction h with
  | nil =>
    intro fuel hfuel
    obtain ⟨fuel, rfl⟩ := Nat.exists_eq_add_of_lt hfuel
    unfold skipGroup
    rw [List.nil_append, hp.decode]
    simp only [if_true]
  | @cons k q c b hq hc _ ih =>
    intro fuel hfuel
    have hpos := List.length_pos_iff.mpr hq.ne_nil
    rw [List.length_append, List.length_append] at hfuel
    obtain ⟨fuel, rfl⟩ : ∃ n, fuel = n + 1 := ⟨fuel - 1, by omega⟩
    have hwire : k.wire ≠ .endGroup := by
      obtain ⟨n, w⟩ := k
      rintro rfl
      exact hend n c hc
    have happend : q ++ c ++ b ++ p ++ rest = q ++ (c ++ (b ++ p ++ rest)) := by
      simp only [List.append_assoc]
    unfold skipGroup
    rw [happend, hq.decode]
    simp only [if_neg hwire, hskip _ hc]
    exact ih fuel (by omega)

end Groups

theorem skipField_sound : ∀ (budget : Nat) {wire : WireType} {number : Nat} {b r : Bytes},
    skipField budget wire number b = .ok r → ∃ c, Content budget ⟨number, wire⟩ c ∧ b = c ++ r := by
  intro budget
  induction budget with
  | zero => intro wire number b r h; cases h
  | succ budget ih =>
    intro wire number b r h
    unfold skipField at h
    cases wire with
    | varint =>
      simp only at h
      split at h
      next n r' hn =>
        cases h
        obtain ⟨p, hform, rfl⟩ := Varint.decode_eq_some_iff.mp hn
        exact ⟨p, ⟨n, hform⟩, rfl⟩
      next => cases h
    | sixtyFourBit | thirtyTwoBit => exact skipBytes_eq_ok_iff.mp h
    | lengthDelimited =>
      simp only at h
      split at h
      next n b' hn =>
        obtain ⟨p, hform, rfl⟩ := Varint.decode_eq_some_iff.mp hn
        obtain ⟨d, rfl, rfl⟩ := skipBytes_eq_ok_iff.mp h
        exact ⟨p ++ d, ⟨p, d, hform, rfl⟩, (List.append_assoc _ _ _).symm⟩
      next => cases h
    | startGroup =>
      obtain ⟨c, p, hfields, hp, hb⟩ := skipGroup_sound ih number _ h
      exact ⟨c ++ p, ⟨c, p, hfields, hp, rfl⟩, hb⟩
    | endGroup => cases h

theorem Content.skipField : ∀ (budget : Nat) {k : Key} {c : Bytes} (rest : Bytes),
    Content budget k c → skipField budget k.wire k.number (c ++ rest) = .ok rest := by
  intro budget
  induction budget with
  | zero => intro k c rest h; exact h.elim
  | succ budget ih =>
    rintro ⟨number, wire⟩ c rest h
    unfold ChatBackup.skipField
    cases wire with
    | varint =>
      obtain ⟨n, hform⟩ := h
      simp only [Varint.decode_form hform]
    | sixtyFourBit | thirtyTwoBit => exact skipBytes_eq_ok_iff.mpr ⟨c, h, rfl⟩
    | lengthDelimited =>
      obtain ⟨p, d, hform, rfl⟩ := h
      simp only [List.append_assoc, Varint.decode_form hform]
      exact skipBytes_eq_ok_iff.mpr ⟨d, rfl, rfl⟩
    | startGroup =>
      obtain ⟨b, p, hfields, hp, rfl⟩ := h
      refine skipGroup_complete (not_content_endGroup budget) ih hp rest hfields _ ?_
      simp only [List.length_append]
      omega
    | endGroup => exact h.elim

/-- A field is skipped just if a content of it comes first. -/
theorem skipField_eq_ok_iff {budget number : Nat} {wire : WireType} {b r : Bytes} :
    skipField budget wire number b = .ok r ↔ ∃ c, Content budget ⟨number, wire⟩ c ∧ b = c ++ r := by
  refine ⟨skipField_sound budget, ?_⟩
  rintro ⟨c, hc, rfl⟩
  exact hc.skipField budget r

/-- A content tells where it ends. -/
theorem Content.unique {budget budget' : Nat} {k : Key} {c d r r' : Bytes}
    (hc : Content budget k c) (hd : Content budget' k d) (h : c ++ r = d ++ r') :
    d = c ∧ r' = r := by
  have hread := (hc.mono (Nat.le_max_left budget budget')).skipField _ r
  rw [h, (hd.mono (Nat.le_max_right budget budget')).skipField] at hread
  cases hread
  exact ⟨(List.append_cancel_right h).symm, rfl⟩

/-- A byte string begins with a field in one way only. -/
theorem field_unique {budget budget' : Nat} {k l : Key} {p q c d r r' : Bytes}
    (hp : Key.Form p k) (hc : Content budget k c) (hq : Key.Form q l) (hd : Content budget' l d)
    (h : p ++ c ++ r = q ++ d ++ r') : q ++ d = p ++ c ∧ r' = r := by
  rw [List.append_assoc, List.append_assoc] at h
  obtain ⟨rfl, rfl, htail⟩ := hp.unique hq h
  obtain ⟨rfl, rfl⟩ := hc.unique hd htail.symm
  exact ⟨rfl, rfl⟩

/-! ## Reading contents -/

namespace Field

variable {wire : WireType} {b r : Bytes}

theorem readNumber_eq_ok_iff {n : Nat} : readNumber wire b = .ok (n, r) ↔
    wire = .varint ∧ ∃ p, Varint.Form p n ∧ b = p ++ r := by
  unfold readNumber
  constructor
  · intro h
    split at h
    · cases h
    next hwire =>
      split at h
      next hn =>
        cases h
        exact ⟨Decidable.not_not.mp hwire, Varint.decode_eq_some_iff.mp hn⟩
      next => cases h
  · rintro ⟨rfl, p, hform, rfl⟩
    rw [if_neg (by simp), Varint.decode_form hform]

theorem readDelimited_eq_ok_iff {c : Bytes} : readDelimited wire b = .ok (c, r) ↔
    wire = .lengthDelimited ∧ ∃ p, Varint.Form p c.length ∧ b = p ++ c ++ r := by
  unfold readDelimited
  constructor
  · intro h
    split at h
    · cases h
    next hwire =>
      split at h
      · cases h
      next n b' hn =>
        obtain ⟨p, hform, rfl⟩ := Varint.decode_eq_some_iff.mp hn
        split at h
        next hsplit =>
          cases h
          obtain ⟨rfl, rfl⟩ := Bytes.split?_eq_some_iff.mp hsplit
          exact ⟨Decidable.not_not.mp hwire, p, hform, (List.append_assoc _ _ _).symm⟩
        next => cases h
  · rintro ⟨rfl, p, hform, rfl⟩
    rw [if_neg (by simp), List.append_assoc, Varint.decode_form hform]
    simp only [Bytes.split?_eq_some_iff.mpr ⟨rfl, rfl⟩]

theorem readText_eq_ok_iff {x : String} : readText wire b = .ok (x, r) ↔
    ∃ c, text? c = some x ∧ readDelimited wire b = .ok (c, r) := by
  unfold readText
  constructor
  · intro h
    split at h
    · cases h
    next c r' hread =>
      split at h
      next hx =>
        cases h
        exact ⟨c, hx, hread⟩
      next => cases h
  · rintro ⟨c, hx, hread⟩
    simp only [hread, hx]

/-- What is taken is the content of a field, and the same is taken whatever stands behind. -/
def Takes {ν : Type} (read : WireType → Bytes → Except DecodeError (ν × Bytes)) : Prop :=
  ∀ (wire : WireType) (b r : Bytes) (v : ν), read wire b = .ok (v, r) →
    ∃ c, (∀ number, Content 1 ⟨number, wire⟩ c) ∧ b = c ++ r ∧
      ∀ rest, read wire (c ++ rest) = .ok (v, rest)

theorem Takes.map {ν μ : Type} {read : WireType → Bytes → Except DecodeError (ν × Bytes)}
    (h : Takes read) (g : ν → μ) :
    Takes fun wire b => (read wire b).map fun (v, r) => (g v, r) := by
  intro wire b r v hread
  simp only at hread ⊢
  cases hv : read wire b with
  | error e =>
    rw [hv] at hread
    cases hread
  | ok x =>
    obtain ⟨y, r'⟩ := x
    rw [hv] at hread
    cases hread
    obtain ⟨c, hc, hb, hrest⟩ := h _ _ _ _ hv
    refine ⟨c, hc, hb, ?_⟩
    intro rest
    simp only [hrest]
    rfl

theorem takes_readNumber : Takes readNumber := by
  intro wire b r n h
  obtain ⟨rfl, p, hform, rfl⟩ := readNumber_eq_ok_iff.mp h
  exact ⟨p, fun _ => ⟨n, hform⟩, rfl, fun rest =>
    readNumber_eq_ok_iff.mpr ⟨rfl, p, hform, rfl⟩⟩

theorem takes_readDelimited : Takes readDelimited := by
  intro wire b r c h
  obtain ⟨rfl, p, hform, rfl⟩ := readDelimited_eq_ok_iff.mp h
  exact ⟨p ++ c, fun _ => ⟨p, c, hform, rfl⟩, rfl, fun rest =>
    readDelimited_eq_ok_iff.mpr ⟨rfl, p, hform, rfl⟩⟩

theorem takes_readText : Takes readText := by
  intro wire b r x h
  obtain ⟨d, hx, hread⟩ := readText_eq_ok_iff.mp h
  obtain ⟨c, hc, hb, hrest⟩ := takes_readDelimited _ _ _ _ hread
  exact ⟨c, hc, hb, fun rest => readText_eq_ok_iff.mpr ⟨d, hx, hrest rest⟩⟩

/-- What the field takes is a content, and it takes the same whatever stands behind. -/
def Local {α : Type} (f : Field α) : Prop :=
  ∀ budget a, Takes fun wire b => f.merge budget wire a b

section Kinds

variable {α : Type} {number : Nat} {name : String}

theorem uint64_local {get : α → UInt64} {set : UInt64 → α → α} :
    (uint64 number name get set).Local :=
  fun _ a => takes_readNumber.map fun n => set (UInt64.ofNat n) a

theorem uint32_local {get : α → UInt32} {set : UInt32 → α → α} :
    (uint32 number name get set).Local :=
  fun _ a => takes_readNumber.map fun n => set (UInt32.ofNat n) a

theorem bool_local {get : α → Bool} {set : Bool → α → α} : (bool number name get set).Local :=
  fun _ a => takes_readNumber.map fun n => set (n != 0) a

theorem bytes_local {get : α → Bytes} {set : Bytes → α → α} : (bytes number name get set).Local :=
  fun _ a => takes_readDelimited.map fun c => set c a

theorem text_local {get : α → String} {set : String → α → α} : (text number name get set).Local :=
  fun _ a => takes_readText.map fun x => set x a

theorem optionalUint64_local {get : α → Option UInt64} {set : UInt64 → α → α} :
    (optionalUint64 number name get set).Local :=
  fun _ a => takes_readNumber.map fun n => set (UInt64.ofNat n) a

theorem optionalUint32_local {get : α → Option UInt32} {set : UInt32 → α → α} :
    (optionalUint32 number name get set).Local :=
  fun _ a => takes_readNumber.map fun n => set (UInt32.ofNat n) a

theorem optionalText_local {get : α → Option String} {set : String → α → α} :
    (optionalText number name get set).Local :=
  fun _ a => takes_readText.map fun x => set x a

end Kinds

end Field

/-! ## Messages -/

namespace Schema

open ChatBackup.Field

variable {α : Type} {m : Schema α} {budget : Nat} {b r : Bytes} {s t : α}

/-- What a field of the schema takes is a content, and it takes the same whatever stands behind. -/
def Local (m : Schema α) : Prop := ∀ f ∈ m.fields, f.Local

/-- What is taken off the front of a message is a field. -/
theorem Local.mergeField (hm : m.Local) (h : m.mergeField budget s b = .ok (t, r)) :
    ∃ k p c, Key.Form p k ∧ Content (budget + 1) k c ∧ b = p ++ c ++ r ∧
      ∀ rest, m.mergeField budget s (p ++ c ++ rest) = .ok (t, rest) := by
  unfold Schema.mergeField at h
  split at h
  · cases h
  next k b' hkey =>
    obtain ⟨p, hp, rfl⟩ := Key.decode_eq_ok_iff.mp hkey
    split at h
    next f hfind =>
      cases hmerge : f.merge budget k.wire s b' with
      | error e =>
        rw [hmerge] at h
        cases h
      | ok x =>
        rw [hmerge] at h
        cases h
        obtain ⟨c, hc, rfl, hrest⟩ := hm f (List.mem_of_find?_eq_some hfind) budget s _ _ _ _ hmerge
        refine ⟨k, p, c, hp, (hc k.number).mono (Nat.le_add_left 1 budget),
          (List.append_assoc _ _ _).symm, ?_⟩
        intro rest
        unfold Schema.mergeField
        rw [List.append_assoc, hp.decode]
        simp only [hfind, hrest]
        rfl
    next hfind =>
      split at h
      · cases h
      next r' hskip =>
        cases h
        obtain ⟨c, hc, rfl⟩ := skipField_eq_ok_iff.mp hskip
        refine ⟨k, p, c, hp, hc.succ, (List.append_assoc _ _ _).symm, ?_⟩
        intro rest
        unfold Schema.mergeField
        rw [List.append_assoc, hp.decode]
        simp only [hfind, hc.skipField budget rest]

/-- What the rounds of a message take are fields one after another. -/
theorem Local.mergeRounds (hm : m.Local) (limit : Nat) :
    ∀ (fuel : Nat) {s : α} {b : Bytes}, m.mergeRounds budget limit fuel s b = .ok (t, r) →
      ∃ p, b = p ++ r ∧ Merges m budget p s t := by
  intro fuel
  induction fuel with
  | zero =>
    intro s b h
    cases h
    exact ⟨[], rfl, .nil t⟩
  | succ fuel ih =>
    intro s b h
    unfold Schema.mergeRounds at h
    split at h
    · cases h
      exact ⟨[], rfl, .nil t⟩
    · split at h
      · cases h
      next s' b' hfield =>
        obtain ⟨k, p, c, hp, -, rfl, hrest⟩ := hm.mergeField hfield
        obtain ⟨q, rfl, hq⟩ := ih h
        exact ⟨p ++ c ++ q, (List.append_assoc _ _ _).symm, .cons (hp.append_ne_nil c) hrest hq⟩

/-- Without a limit all bytes are taken. -/
theorem Local.mergeRounds_all (hm : m.Local) :
    ∀ (fuel : Nat) {s : α} {b : Bytes}, b.length ≤ fuel →
      m.mergeRounds budget 0 fuel s b = .ok (t, r) → r = [] := by
  intro fuel
  induction fuel with
  | zero =>
    intro s b hfuel h
    cases h
    exact List.eq_nil_of_length_eq_zero (Nat.le_zero.mp hfuel)
  | succ fuel ih =>
    intro s b hfuel h
    unfold Schema.mergeRounds at h
    split at h
    next hempty =>
      cases h
      exact List.isEmpty_iff.mp hempty
    · split at h
      · cases h
      next s' b' hfield =>
        obtain ⟨k, p, c, hp, -, rfl, -⟩ := hm.mergeField hfield
        have hpos := List.length_pos_iff.mpr hp.ne_nil
        rw [List.length_append, List.length_append] at hfuel
        exact ih (by omega) h

/-- A message decodes just if its fields lead to the value. -/
theorem decode_eq_ok_iff (hm : m.Local) {a : α} :
    m.decode b = .ok a ↔ Merges m recursionBudget b m.empty a := by
  refine ⟨?_, Merges.decode⟩
  intro h
  unfold Schema.decode at h
  cases hrounds : m.mergeRounds recursionBudget 0 b.length m.empty b with
  | error e =>
    rw [hrounds] at h
    cases h
  | ok x =>
    obtain ⟨t, r⟩ := x
    rw [hrounds] at h
    cases h
    obtain rfl := hm.mergeRounds_all _ (Nat.le_refl _) hrounds
    obtain ⟨p, hb, hp⟩ := hm.mergeRounds 0 _ hrounds
    rw [List.append_nil] at hb
    rwa [hb]

/-- A submessage is taken just if its length is followed by fields that lead to the value. -/
theorem mergeDelimited_eq_ok_iff (hm : m.Local) :
    m.mergeDelimited budget s b = .ok (t, r) ↔
      ∃ p c, Varint.Form p c.length ∧ b = p ++ c ++ r ∧ Merges m budget c s t := by
  constructor
  · intro h
    unfold Schema.mergeDelimited at h
    split at h
    · cases h
    next n b' hn =>
      obtain ⟨p, hform, rfl⟩ := Varint.decode_eq_some_iff.mp hn
      split at h
      · cases h
      next hfits =>
        split at h
        · cases h
        next t' r' hrounds =>
          split at h
          next hend =>
            cases h
            obtain ⟨c, rfl, hc⟩ := hm.mergeRounds _ _ hrounds
            have hlength : c.length = n := by
              rw [List.length_append] at hend hfits
              omega
            subst hlength
            exact ⟨p, c, hform, (List.append_assoc _ _ _).symm, hc⟩
          next => cases h
  · rintro ⟨p, c, hform, rfl, hc⟩
    exact hc.mergeDelimited (Varint.decode_form hform) r

theorem readMessage_eq_ok_iff (hm : m.Local) {wire : WireType} :
    readMessage m budget wire s b = .ok (t, r) ↔ wire = .lengthDelimited ∧
      ∃ inner, budget = inner + 1 ∧ ∃ p c, Varint.Form p c.length ∧ b = p ++ c ++ r ∧
        Merges m inner c s t := by
  unfold readMessage
  constructor
  · intro h
    split at h
    · cases h
    next hwire =>
      cases budget with
      | zero => cases h
      | succ inner =>
        exact ⟨Decidable.not_not.mp hwire, inner, rfl, (mergeDelimited_eq_ok_iff hm).mp h⟩
  · rintro ⟨rfl, inner, rfl, hcontent⟩
    rw [if_neg (by simp)]
    exact (mergeDelimited_eq_ok_iff hm).mpr hcontent

theorem takes_readMessage (hm : m.Local) (budget : Nat) (a : α) :
    Takes fun wire b => readMessage m budget wire a b := by
  intro wire b r v h
  obtain ⟨rfl, inner, rfl, p, c, hform, rfl, hc⟩ := (readMessage_eq_ok_iff hm).mp h
  exact ⟨p ++ c, fun _ => ⟨p, c, hform, rfl⟩, rfl, fun rest =>
    (readMessage_eq_ok_iff hm).mpr ⟨rfl, inner, rfl, p, c, hform, rfl, hc⟩⟩

/-- Without any bytes the value stays. -/
theorem Merges.eq_of_nil (h : Merges m budget [] s t) : t = s := by
  generalize hb : ([] : Bytes) = b at h
  cases h with
  | nil => rfl
  | cons hne => exact absurd (List.append_eq_nil_iff.mp hb.symm).1 hne

/-- The field that stands first was taken first. -/
theorem Merges.uncons (hm : m.Local) {depth : Nat} {k : Key} {p c q : Bytes} (hp : Key.Form p k)
    (hc : Content depth k c) (h : Merges m budget (p ++ c ++ q) s t) :
    ∃ mid, (∀ rest, m.mergeField budget s (p ++ c ++ rest) = .ok (mid, rest)) ∧
      Merges m budget q mid t := by
  generalize hwhole : p ++ c ++ q = whole at h
  cases h with
  | nil => exact absurd (List.append_eq_nil_iff.mp hwhole).1 (hp.append_ne_nil c)
  | @cons b more _ mid _ _ hfield hmore =>
    obtain ⟨k', x, d, hx, hd, hb, -⟩ := hm.mergeField (hfield [])
    rw [List.append_nil, List.append_nil] at hb
    subst hb
    -- the boundary of the first field is the one at which it was taken
    obtain ⟨hsame, rfl⟩ := field_unique hp hc hx hd hwhole
    rw [hsame] at hfield
    exact ⟨mid, hfield, hmore⟩

/-- A field that leads from a value to another does so whatever stands behind it. -/
theorem merges_field_iff (hm : m.Local) {depth : Nat} {k : Key} {p c : Bytes} (hp : Key.Form p k)
    (hc : Content depth k c) : Merges m budget (p ++ c) s t ↔
      ∀ rest, m.mergeField budget s (p ++ c ++ rest) = .ok (t, rest) := by
  constructor
  · intro h
    rw [← List.append_nil (p ++ c)] at h
    obtain ⟨mid, hfield, hmore⟩ := h.uncons hm hp hc
    obtain rfl := hmore.eq_of_nil
    exact hfield
  · intro h
    have hone : Merges m budget (p ++ c ++ []) s t := .cons (hp.append_ne_nil c) h (.nil t)
    rwa [List.append_nil] at hone

/-- What leads from a value to another is a series of fields. -/
theorem Merges.areFields (hm : m.Local) (h : Merges m budget b s t) : AreFields b := by
  refine ⟨budget + 1, ?_⟩
  induction h with
  | nil => exact .nil
  | cons _ hfield _ ih =>
    obtain ⟨k, p, c, hp, hc, hb, -⟩ := hm.mergeField (hfield [])
    rw [List.append_nil, List.append_nil] at hb
    rw [hb]
    exact (Fields.single hp hc).append ih

/-- Fields that were taken one after another can be parted at any boundary. -/
theorem Merges.split (hm : m.Local) {p q : Bytes} (hp : AreFields p) :
    ∀ {s : α}, Merges m budget (p ++ q) s t →
      ∃ mid, Merges m budget p s mid ∧ Merges m budget q mid t := by
  obtain ⟨depth, hp⟩ := hp
  induction hp with
  | nil => exact fun h => ⟨_, .nil _, h⟩
  | @cons k x c p hx hc _ ih =>
    intro s h
    rw [List.append_assoc _ p] at h
    obtain ⟨mid, hfield, hmore⟩ := h.uncons hm hx hc
    obtain ⟨mid', hfront, hback⟩ := ih hmore
    exact ⟨mid', .cons (hx.append_ne_nil c) hfield hfront, hback⟩

end Schema

/-! ## The records -/

namespace Field

variable {α β : Type} {number : Nat} {name : String} {mb : Schema β} {f : Field α}

/-- The field reads a submessage into something of the value, and puts what it becomes there. -/
def ReadsMessage (f : Field α) (mb : Schema β) : Prop :=
  ∃ (old : α → β) (put : β → α → α), ∀ budget wire a b, f.merge budget wire a b =
    (readMessage mb budget wire (old a) b).map fun (v, r) => (put v a, r)

theorem message_readsMessage {get : α → Option β} {set : β → α → α} :
    (message number name mb get set).ReadsMessage mb :=
  ⟨fun a => (get a).getD mb.empty, set, fun _ _ _ _ => rfl⟩

theorem repeated_readsMessage {get : α → List β} {set : List β → α → α} :
    (repeated number name mb get set).ReadsMessage mb :=
  ⟨fun _ => mb.empty, fun v a => set (get a ++ [v]) a, fun _ _ _ _ => rfl⟩

theorem ReadsMessage.isLocal (hf : f.ReadsMessage mb) (hb : mb.Local) : f.Local := by
  obtain ⟨old, put, hmerge⟩ := hf
  intro budget a
  simp only [hmerge]
  exact (Schema.takes_readMessage hb budget (old a)).map fun v => put v a

theorem message_local (hb : mb.Local) {get : α → Option β} {set : β → α → α} :
    (message number name mb get set).Local :=
  message_readsMessage.isLocal hb

theorem repeated_local (hb : mb.Local) {get : α → List β} {set : List β → α → α} :
    (repeated number name mb get set).Local :=
  repeated_readsMessage.isLocal hb

end Field

open ChatBackup.Field

theorem BackupInfo.isLocal : (Record.schema (α := BackupInfo)).Local := by
  simp only [Schema.Local, Record.schema, List.forall_mem_cons]
  exact ⟨uint64_local, uint64_local, bytes_local, text_local, text_local, fun _ h => nomatch h⟩

theorem AccountData.isLocal : (Record.schema (α := AccountData)).Local := by
  simp only [Schema.Local, Record.schema, List.forall_mem_cons]
  exact ⟨bytes_local, optionalText_local, text_local, text_local, fun _ h => nomatch h⟩

theorem Recipient.isLocal : (Record.schema (α := Recipient)).Local := by
  simp only [Schema.Local, Record.schema, List.forall_mem_cons]
  exact ⟨uint64_local, bytes_local, optionalUint64_local, text_local, fun _ h => nomatch h⟩

theorem Chat.isLocal : (Record.schema (α := Chat)).Local := by
  simp only [Schema.Local, Record.schema, List.forall_mem_cons]
  exact ⟨uint64_local, uint64_local, bool_local, optionalUint32_local, uint64_local, uint64_local,
    fun _ h => nomatch h⟩

theorem FilePointer.isLocal : (Record.schema (α := FilePointer)).Local := by
  simp only [Schema.Local, Record.schema, List.forall_mem_cons]
  exact ⟨text_local, uint32_local, bytes_local, bytes_local, fun _ h => nomatch h⟩

theorem StickerPack.isLocal : (Record.schema (α := StickerPack)).Local := by
  simp only [Schema.Local, Record.schema, List.forall_mem_cons]
  exact ⟨bytes_local, bytes_local, fun _ h => nomatch h⟩

theorem StandardMessage.isLocal : (Record.schema (α := StandardMessage)).Local := by
  simp only [Schema.Local, Record.schema, List.forall_mem_cons]
  exact ⟨text_local, repeated_local FilePointer.isLocal, fun _ h => nomatch h⟩

theorem ChatItem.isLocal : (Record.schema (α := ChatItem)).Local := by
  simp only [Schema.Local, Record.schema, List.forall_mem_cons]
  exact ⟨uint64_local, uint64_local, uint64_local, message_local StandardMessage.isLocal,
    fun _ h => nomatch h⟩

theorem Frame.isLocal : (Record.schema (α := Frame)).Local := by
  simp only [Schema.Local, Record.schema, List.forall_mem_cons]
  exact ⟨message_local AccountData.isLocal, message_local Recipient.isLocal,
    message_local Chat.isLocal, message_local ChatItem.isLocal, message_local StickerPack.isLocal,
    fun _ h => nomatch h⟩

end ChatBackup
