import ChatBackup.Proofs.EncodedLengths

/-!
# Decoded values are not longer than what was read

A message need not be written in the shortest way: numbers may be longer than needed, fields may
occur again or be unknown, submessages may come in pieces. The value that is read has a shortest
encoding, and its length, which is told without encoding it, is never more than what was read:

> `RecordType.wireLength_le`: a record of any type that is taken off a byte string is told to be no
> longer than the bytes it took.

It is enough to say so of one field (`Field.Bounded`): what a field adds to the length that is told
is no more than the bytes that were taken for it. When a submessage goes on as another piece its
length grows by the piece and the number in front may widen, which the number in front of the piece
makes up for (`Varint.size_add_le`). Fields that lead from a value to another then add no more than
their bytes (`Schema.Compact.merges`).
-/

namespace ChatBackup

/-! ## The lengths of numbers -/

namespace Varint

theorem log2_mono {x y : Nat} (h : x ≤ y) : x.log2 ≤ y.log2 := by
  by_cases hx : x = 0
  · subst hx
    exact Nat.zero_le _
  · have hy : y ≠ 0 := by omega
    exact (Nat.le_log2 hy).mpr (Nat.le_trans (Nat.log2_self_le hx) h)

/-- A sum has at most one bit more than the larger number. -/
theorem log2_add_le (x y : Nat) : (x + y).log2 ≤ max x.log2 y.log2 + 1 := by
  by_cases h0 : x + y = 0
  · rw [h0]
    exact Nat.zero_le _
  · have hx : x < 2 ^ (max x.log2 y.log2 + 1) :=
      Nat.lt_of_lt_of_le Nat.lt_log2_self (Nat.pow_le_pow_right (by decide) (by omega))
    have hy : y < 2 ^ (max x.log2 y.log2 + 1) :=
      Nat.lt_of_lt_of_le Nat.lt_log2_self (Nat.pow_le_pow_right (by decide) (by omega))
    have hsum : x + y < 2 ^ (max x.log2 y.log2 + 2) := by
      rw [Nat.pow_succ]
      omega
    exact Nat.le_of_lt_succ ((Nat.log2_lt h0).mpr hsum)

theorem size_mono {x y : Nat} (h : x ≤ y) : size x ≤ size y := by
  have hlog := log2_mono h
  rw [size, size]
  omega

theorem size_add_le (x y : Nat) : size (x + y) ≤ size x + size y := by
  have hlog := log2_add_le x y
  rw [size, size, size]
  omega

/-- No form is shorter than the length that is told. -/
theorem Form.size_le {p : Bytes} {n : Nat} (h : Form p n) : size n ≤ p.length := by
  have hpos := h.length_pos
  cases h with
  | @mk more last hmore hlast hlen hten =>
    have hlt := value_lt (more ++ [last])
    generalize value (more ++ [last]) = n at hlt ⊢
    rw [List.length_append, List.length_singleton] at hpos hlt ⊢
    have hmax : more.length < 10 := hlen
    have hlog : n.log2 < 7 * (more.length + 1) := by
      by_cases h0 : n = 0
      · rw [h0, Nat.log2_zero]
        omega
      · rw [Nat.one_shiftLeft] at hlt
        exact (Nat.log2_lt h0).mpr hlt
    rw [size]
    omega

end Varint

/-! ## What a field adds -/

namespace Field

variable {α ν : Type} {m : Schema α} {f : Field α} {number : Nat} {name : String}

/-- What is taken for the field makes the message longer by no more than its bytes. -/
def Bounded (f : Field α) (m : Schema α) : Prop :=
  ∀ (budget : Nat) (wire : WireType) (a t : α) (b r : Bytes),
    f.merge budget wire a b = .ok (t, r) →
    m.size t + r.length ≤ m.size a + Key.size ⟨f.number, wire⟩ + b.length

/-- To put something into the field does not make other fields longer. -/
def Owns (f : Field α) (m : Schema α) (set : ν → α → α) : Prop :=
  ∀ v a, m.size (set v a) + f.size a ≤ m.size a + f.size (set v a)

/-- What is read is told to be no longer than the bytes that it took. -/
def Costs (number : Nat) (read : WireType → Bytes → Except DecodeError (ν × Bytes))
    (cost : ν → Nat) : Prop :=
  ∀ (wire : WireType) (b r : Bytes) (v : ν), read wire b = .ok (v, r) →
    cost v + r.length ≤ Key.size ⟨number, wire⟩ + b.length

theorem costs_readNumber (number : Nat) : Costs number readNumber (sizeNumber number) := by
  intro wire b r n h
  obtain ⟨rfl, p, hp, rfl⟩ := readNumber_eq_ok_iff.mp h
  have hle := hp.size_le
  rw [sizeNumber, List.length_append]
  omega

theorem costs_readDelimited (number : Nat) :
    Costs number readDelimited fun c => sizeDelimited number c.length := by
  intro wire b r c h
  obtain ⟨rfl, p, hp, rfl⟩ := readDelimited_eq_ok_iff.mp h
  have hle := hp.size_le
  simp only [sizeDelimited, List.length_append]
  omega

theorem utf8ByteSize_of_text? {c : Bytes} {x : String} (h : text? c = some x) :
    x.utf8ByteSize = c.length := by
  unfold text? String.fromUTF8? at h
  split at h
  · cases h
    rfl
  · cases h

theorem costs_readText (number : Nat) :
    Costs number readText fun x => sizeDelimited number x.utf8ByteSize := by
  intro wire b r x h
  obtain ⟨c, hx, hread⟩ := readText_eq_ok_iff.mp h
  simp only [utf8ByteSize_of_text? hx]
  exact costs_readDelimited number wire b r c hread

/-- A field whose content is read by itself, turned into its value and put in its place. -/
theorem bounded_of_costs {μ : Type} {read : WireType → Bytes → Except DecodeError (μ × Bytes)}
    {cost : μ → Nat} (hread : Costs f.number read cost) (turn : μ → ν) (set : ν → α → α)
    (hmerge : ∀ budget wire a b,
      f.merge budget wire a b = (read wire b).map fun (v, r) => (set (turn v) a, r))
    (hset : f.Owns m set) (hcost : ∀ v a, f.size (set (turn v) a) ≤ cost v) : f.Bounded m := by
  intro budget wire a t b r h
  rw [hmerge] at h
  cases hv : read wire b with
  | error e =>
    rw [hv] at h
    cases h
  | ok x =>
    obtain ⟨v, r'⟩ := x
    rw [hv] at h
    cases h
    have hbytes := hread wire b r v hv
    have hsize := hset (turn v) a
    have hadded := hcost v a
    omega

section Kinds

theorem uint64_bounded {get : α → UInt64} {set : UInt64 → α → α}
    (hset : (uint64 number name get set).Owns m set) (hget : ∀ v a, get (set v a) = v) :
    (uint64 number name get set).Bounded m := by
  refine bounded_of_costs (costs_readNumber number) UInt64.ofNat set (fun _ _ _ _ => rfl) hset ?_
  intro n a
  have hle : (UInt64.ofNat n).toNat ≤ n := Nat.mod_le _ _
  simp only [uint64, hget]
  split
  · exact Nat.zero_le _
  · exact Nat.add_le_add_left (Varint.size_mono hle) _

theorem uint32_bounded {get : α → UInt32} {set : UInt32 → α → α}
    (hset : (uint32 number name get set).Owns m set) (hget : ∀ v a, get (set v a) = v) :
    (uint32 number name get set).Bounded m := by
  refine bounded_of_costs (costs_readNumber number) UInt32.ofNat set (fun _ _ _ _ => rfl) hset ?_
  intro n a
  have hle : (UInt32.ofNat n).toNat ≤ n := Nat.mod_le _ _
  simp only [uint32, hget]
  split
  · exact Nat.zero_le _
  · exact Nat.add_le_add_left (Varint.size_mono hle) _

theorem bool_bounded {get : α → Bool} {set : Bool → α → α}
    (hset : (bool number name get set).Owns m set) (hget : ∀ v a, get (set v a) = v) :
    (bool number name get set).Bounded m := by
  refine bounded_of_costs (costs_readNumber number) (· != 0) set (fun _ _ _ _ => rfl) hset ?_
  intro n a
  simp only [bool, hget]
  split
  next h => exact Nat.add_le_add_left (Varint.size_mono (Nat.pos_of_ne_zero (bne_iff_ne.mp h))) _
  · exact Nat.zero_le _

theorem bytes_bounded {get : α → Bytes} {set : Bytes → α → α}
    (hset : (bytes number name get set).Owns m set) (hget : ∀ v a, get (set v a) = v) :
    (bytes number name get set).Bounded m := by
  refine bounded_of_costs (costs_readDelimited number) id set (fun _ _ _ _ => rfl) hset ?_
  intro c a
  simp only [bytes, hget]
  split
  · exact Nat.zero_le _
  · exact Nat.le_refl _

theorem text_bounded {get : α → String} {set : String → α → α}
    (hset : (text number name get set).Owns m set) (hget : ∀ v a, get (set v a) = v) :
    (text number name get set).Bounded m := by
  refine bounded_of_costs (costs_readText number) id set (fun _ _ _ _ => rfl) hset ?_
  intro x a
  simp only [text, hget]
  split
  · exact Nat.zero_le _
  · exact Nat.le_refl _

theorem optionalUint64_bounded {get : α → Option UInt64} {set : UInt64 → α → α}
    (hset : (optionalUint64 number name get set).Owns m set)
    (hget : ∀ v a, get (set v a) = some v) : (optionalUint64 number name get set).Bounded m := by
  refine bounded_of_costs (costs_readNumber number) UInt64.ofNat set (fun _ _ _ _ => rfl) hset ?_
  intro n a
  have hle : (UInt64.ofNat n).toNat ≤ n := Nat.mod_le _ _
  simp only [optionalUint64, hget]
  exact Nat.add_le_add_left (Varint.size_mono hle) _

theorem optionalUint32_bounded {get : α → Option UInt32} {set : UInt32 → α → α}
    (hset : (optionalUint32 number name get set).Owns m set)
    (hget : ∀ v a, get (set v a) = some v) : (optionalUint32 number name get set).Bounded m := by
  refine bounded_of_costs (costs_readNumber number) UInt32.ofNat set (fun _ _ _ _ => rfl) hset ?_
  intro n a
  have hle : (UInt32.ofNat n).toNat ≤ n := Nat.mod_le _ _
  simp only [optionalUint32, hget]
  exact Nat.add_le_add_left (Varint.size_mono hle) _

theorem optionalText_bounded {get : α → Option String} {set : String → α → α}
    (hset : (optionalText number name get set).Owns m set)
    (hget : ∀ v a, get (set v a) = some v) : (optionalText number name get set).Bounded m := by
  refine bounded_of_costs (costs_readText number) id set (fun _ _ _ _ => rfl) hset ?_
  intro x a
  simp only [optionalText, hget]
  exact Nat.le_refl _

end Kinds

end Field

/-! ## Messages -/

namespace Schema

open ChatBackup.Field

variable {α : Type} {m : Schema α} {budget : Nat} {s t : α} {b r : Bytes}

/-- No field of the message adds more than is taken for it. -/
structure Compact (m : Schema α) : Prop where
  isLocal : m.Local
  empty : m.size m.empty = 0
  bounded : ∀ f ∈ m.fields, f.Bounded m

/-- One field adds no more than is taken, and one that is unknown adds nothing. -/
theorem Compact.mergeField (hm : m.Compact) (h : m.mergeField budget s b = .ok (t, r)) :
    m.size t + r.length ≤ m.size s + b.length := by
  unfold Schema.mergeField at h
  split at h
  · cases h
  next k b' hkey =>
    obtain ⟨p, hp, rfl⟩ := Key.decode_eq_ok_iff.mp hkey
    have hle := hp.form.size_le
    rw [List.length_append]
    split at h
    next f hfind =>
      cases hmerge : f.merge budget k.wire s b' with
      | error e =>
        rw [hmerge] at h
        cases h
      | ok x =>
        rw [hmerge] at h
        cases h
        have hnumber : f.number = k.number := by simpa using List.find?_some hfind
        have hadded := hm.bounded f (List.mem_of_find?_eq_some hfind) _ _ _ _ _ _ hmerge
        rw [hnumber] at hadded
        change _ ≤ _ + Varint.size k.toNat + _ at hadded
        omega
    next =>
      split at h
      · cases h
      next r' hskip =>
        cases h
        obtain ⟨c, -, rfl⟩ := skipField_eq_ok_iff.mp hskip
        rw [List.length_append]
        omega

theorem Compact.merges (hm : m.Compact) (h : Merges m budget b s t) :
    m.size t ≤ m.size s + b.length := by
  induction h with
  | nil => exact Nat.le_add_right _ _
  | cons _ hfield _ ih =>
    have hadded := hm.mergeField (hfield [])
    rw [List.append_nil, List.length_nil] at hadded
    rw [List.length_append]
    omega

/-- What a message decodes to is told to be no longer than the message. -/
theorem Compact.size_le_of_decode (hm : m.Compact) (h : m.decode b = .ok s) :
    m.size s ≤ b.length := by
  have hadded := hm.merges ((decode_eq_ok_iff hm.isLocal).mp h)
  rwa [hm.empty, Nat.zero_add] at hadded

/-- A submessage gets longer by its piece at most, and the number in front of the piece is taken
besides. -/
theorem Compact.readMessage (hm : m.Compact) {wire : WireType}
    (h : readMessage m budget wire s b = .ok (t, r)) : wire = .lengthDelimited ∧ ∃ n,
      m.size t ≤ m.size s + n ∧ Varint.size n + n + r.length ≤ b.length := by
  obtain ⟨rfl, inner, rfl, p, c, hp, rfl, hc⟩ := (readMessage_eq_ok_iff hm.isLocal).mp h
  have hwidth := hp.size_le
  refine ⟨rfl, c.length, hm.merges hc, ?_⟩
  rw [List.length_append, List.length_append]
  omega

end Schema

namespace Field

variable {α β : Type} {m : Schema α} {mb : Schema β} {number : Nat} {name : String}

/-- A submessage goes on from the one that is there, or replaces what excludes it. -/
theorem message_bounded (hmb : mb.Compact) {get : α → Option β} {set : β → α → α}
    (hset : (message number name mb get set).Owns m set) (hget : ∀ v a, get (set v a) = some v) :
    (message number name mb get set).Bounded m := by
  intro budget wire a t b r h
  change (readMessage mb budget wire ((get a).getD mb.empty) b).map _ = _ at h
  cases hv : readMessage mb budget wire ((get a).getD mb.empty) b with
  | error e =>
    rw [hv] at h
    cases h
  | ok x =>
    obtain ⟨v, r'⟩ := x
    rw [hv] at h
    cases h
    obtain ⟨rfl, n, hgrows, htaken⟩ := hmb.readMessage hv
    have hsize := hset v a
    have hnew : (message number name mb get set).size (set v a) =
        sizeDelimited number (mb.size v) := by
      simp only [message, hget]
    rw [hnew, sizeDelimited] at hsize
    show _ ≤ _ + Key.size ⟨number, .lengthDelimited⟩ + _
    cases hold : get a with
    | none =>
      rw [hold, Option.getD_none, hmb.empty, Nat.zero_add] at hgrows
      have hwidth := Varint.size_mono hgrows
      omega
    | some u =>
      rw [hold, Option.getD_some] at hgrows
      have hthere : (message number name mb get set).size a = sizeDelimited number (mb.size u) := by
        simp only [message, hold]
      rw [hthere, sizeDelimited] at hsize
      -- the number in front may widen, but not by more than the number in front of the piece
      have hwidth := Nat.le_trans (Varint.size_mono hgrows) (Varint.size_add_le _ _)
      omega

theorem size_concat (vs : List β) (v : β) :
    (vs ++ [v]).foldr (fun v n => sizeDelimited number (mb.size v) + n) 0 =
      vs.foldr (fun v n => sizeDelimited number (mb.size v) + n) 0 +
        sizeDelimited number (mb.size v) := by
  induction vs with
  | nil => exact Nat.add_comm _ _
  | cons u vs ih => rw [List.cons_append, List.foldr_cons, ih, List.foldr_cons, Nat.add_assoc]

theorem repeated_bounded (hmb : mb.Compact) {get : α → List β} {set : List β → α → α}
    (hset : (repeated number name mb get set).Owns m set) (hget : ∀ vs a, get (set vs a) = vs) :
    (repeated number name mb get set).Bounded m := by
  intro budget wire a t b r h
  change (readMessage mb budget wire mb.empty b).map _ = _ at h
  cases hv : readMessage mb budget wire mb.empty b with
  | error e =>
    rw [hv] at h
    cases h
  | ok x =>
    obtain ⟨v, r'⟩ := x
    rw [hv] at h
    cases h
    obtain ⟨rfl, n, hgrows, htaken⟩ := hmb.readMessage hv
    have hsize := hset (get a ++ [v]) a
    have hnew : (repeated number name mb get set).size (set (get a ++ [v]) a) =
        (repeated number name mb get set).size a + sizeDelimited number (mb.size v) := by
      simp only [repeated, hget]
      exact size_concat (get a) v
    rw [hnew, sizeDelimited] at hsize
    show _ ≤ _ + Key.size ⟨number, .lengthDelimited⟩ + _
    rw [hmb.empty, Nat.zero_add] at hgrows
    have hwidth := Varint.size_mono hgrows
    omega

end Field

/-! ## The records -/

open ChatBackup.Field

theorem BackupInfo.compact : (Record.schema (α := BackupInfo)).Compact := by
  refine ⟨BackupInfo.isLocal, rfl, ?_⟩
  simp only [Record.schema, List.forall_mem_cons]
  refine ⟨uint64_bounded ?_ fun _ _ => rfl, uint64_bounded ?_ fun _ _ => rfl,
    bytes_bounded ?_ fun _ _ => rfl, text_bounded ?_ fun _ _ => rfl,
    text_bounded ?_ fun _ _ => rfl, fun _ h => nomatch h⟩
  all_goals
    intro v a
    simp only [Schema.size, List.foldr_cons, List.foldr_nil, uint64, bytes, text]
    omega

theorem AccountData.compact : (Record.schema (α := AccountData)).Compact := by
  refine ⟨AccountData.isLocal, rfl, ?_⟩
  simp only [Record.schema, List.forall_mem_cons]
  refine ⟨bytes_bounded ?_ fun _ _ => rfl, optionalText_bounded ?_ fun _ _ => rfl,
    text_bounded ?_ fun _ _ => rfl, text_bounded ?_ fun _ _ => rfl, fun _ h => nomatch h⟩
  all_goals
    intro v a
    simp only [Schema.size, List.foldr_cons, List.foldr_nil, bytes, optionalText, text]
    omega

theorem Recipient.compact : (Record.schema (α := Recipient)).Compact := by
  refine ⟨Recipient.isLocal, rfl, ?_⟩
  simp only [Record.schema, List.forall_mem_cons]
  refine ⟨uint64_bounded ?_ fun _ _ => rfl, bytes_bounded ?_ fun _ _ => rfl,
    optionalUint64_bounded ?_ fun _ _ => rfl, text_bounded ?_ fun _ _ => rfl, fun _ h => nomatch h⟩
  all_goals
    intro v a
    simp only [Schema.size, List.foldr_cons, List.foldr_nil, uint64, bytes, optionalUint64, text]
    omega

theorem Chat.compact : (Record.schema (α := Chat)).Compact := by
  refine ⟨Chat.isLocal, rfl, ?_⟩
  simp only [Record.schema, List.forall_mem_cons]
  refine ⟨uint64_bounded ?_ fun _ _ => rfl, uint64_bounded ?_ fun _ _ => rfl,
    bool_bounded ?_ fun _ _ => rfl, optionalUint32_bounded ?_ fun _ _ => rfl,
    uint64_bounded ?_ fun _ _ => rfl, uint64_bounded ?_ fun _ _ => rfl, fun _ h => nomatch h⟩
  all_goals
    intro v a
    simp only [Schema.size, List.foldr_cons, List.foldr_nil, uint64, Field.bool,
      optionalUint32]
    omega

theorem FilePointer.compact : (Record.schema (α := FilePointer)).Compact := by
  refine ⟨FilePointer.isLocal, rfl, ?_⟩
  simp only [Record.schema, List.forall_mem_cons]
  refine ⟨text_bounded ?_ fun _ _ => rfl, uint32_bounded ?_ fun _ _ => rfl,
    bytes_bounded ?_ fun _ _ => rfl, bytes_bounded ?_ fun _ _ => rfl, fun _ h => nomatch h⟩
  all_goals
    intro v a
    simp only [Schema.size, List.foldr_cons, List.foldr_nil, text, uint32, bytes]
    omega

theorem StickerPack.compact : (Record.schema (α := StickerPack)).Compact := by
  refine ⟨StickerPack.isLocal, rfl, ?_⟩
  simp only [Record.schema, List.forall_mem_cons]
  refine ⟨bytes_bounded ?_ fun _ _ => rfl, bytes_bounded ?_ fun _ _ => rfl, fun _ h => nomatch h⟩
  all_goals
    intro v a
    simp only [Schema.size, List.foldr_cons, List.foldr_nil, bytes]
    omega

theorem StandardMessage.compact : (Record.schema (α := StandardMessage)).Compact := by
  refine ⟨StandardMessage.isLocal, rfl, ?_⟩
  simp only [Record.schema, List.forall_mem_cons]
  refine ⟨text_bounded ?_ fun _ _ => rfl,
    repeated_bounded FilePointer.compact ?_ fun _ _ => rfl, fun _ h => nomatch h⟩
  all_goals
    intro v a
    simp only [Record.schema, Schema.size, List.foldr_cons, List.foldr_nil, Field.text, repeated]
    omega

theorem ChatItem.compact : (Record.schema (α := ChatItem)).Compact := by
  refine ⟨ChatItem.isLocal, rfl, ?_⟩
  simp only [Record.schema, List.forall_mem_cons]
  refine ⟨uint64_bounded ?_ fun _ _ => rfl, uint64_bounded ?_ fun _ _ => rfl,
    uint64_bounded ?_ fun _ _ => rfl, message_bounded StandardMessage.compact ?_ fun _ _ => rfl,
    fun _ h => nomatch h⟩
  all_goals
    intro v a
    simp only [Record.schema, Schema.size, List.foldr_cons, List.foldr_nil, uint64, message]
    omega

/-- What a frame holds may be replaced, and then the other one is not told any more. -/
theorem Frame.compact : (Record.schema (α := Frame)).Compact := by
  refine ⟨Frame.isLocal, rfl, ?_⟩
  simp only [Record.schema, List.forall_mem_cons]
  refine ⟨message_bounded AccountData.compact ?_ fun _ _ => rfl,
    message_bounded Recipient.compact ?_ fun _ _ => rfl,
    message_bounded Chat.compact ?_ fun _ _ => rfl,
    message_bounded ChatItem.compact ?_ fun _ _ => rfl,
    message_bounded StickerPack.compact ?_ fun _ _ => rfl, fun _ h => nomatch h⟩
  all_goals
    intro v a
    simp only [Record.schema, Schema.size, List.foldr_cons, List.foldr_nil, message, Frame.account?,
      Frame.recipient?, Frame.chat?, Frame.chatItem?, Frame.stickerPack?]
    omega

namespace RecordType

theorem compact (t : RecordType) : (Record.schema (α := t.Value)).Compact :=
  t.elim (P := fun α => (Record.schema (α := α)).Compact) BackupInfo.compact Frame.compact
    AccountData.compact Recipient.compact Chat.compact ChatItem.compact StandardMessage.compact
    FilePointer.compact StickerPack.compact

/-- A record takes as many bytes at least as it is told to be long. -/
theorem wireLength_le {t : RecordType} {maxLength : Nat} {b rest : Bytes} {a : t.Value}
    (h : Record.Front t.Value maxLength b (.record a) rest) :
    Record.wireLength a + rest.length ≤ b.length := by
  cases h with
  | @record p body _ _ hp _ hdecode =>
    have hsize := t.compact.size_le_of_decode hdecode
    have hwidth := Nat.le_trans (Varint.size_mono hsize) hp.size_le
    rw [Record.wireLength, List.length_append, List.length_append]
    omega

end RecordType
end ChatBackup
