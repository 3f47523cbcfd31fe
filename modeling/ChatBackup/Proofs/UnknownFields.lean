import ChatBackup.Proofs.EncodedLengths

/-!
# Unknown fields are ignored

A later version of the format may add fields to any message. A reader that does not know them has to
take out of a message just what it would take out without them:

> `unknown_fields_ignored`: a field with a number that the message type does not have, of any wire
> type, may be put between any two fields of a message or of a submessage at any depth. If the
> lengths around it are adjusted, the record decodes to the same value and takes all its bytes.

`RecordType.Inserted` says what such an insertion is, of bytes alone; by induction on it, fields
that lead to a value still do so afterwards (`RecordType.Inserted.merges`). At the depth of the
insertion the unknown field is skipped; further out a submessage has become longer and leads to the
same value.
-/

namespace ChatBackup

open Schema ChatBackup.Field

namespace RecordType

/-! ## Insertions -/

/-- A field with a number that the message type does not have, with groups nested in it less deeply
than the budget allows. -/
inductive Unknown (t : RecordType) (budget : Nat) : Bytes → Prop where
  | field {k : Key} {p c : Bytes} : Key.Form p k →
    (∀ f ∈ (Record.schema (α := t.Value)).fields, f.number ≠ k.number) → Content budget k c →
    Unknown t budget (p ++ c)

/-- A field with the number holds submessages of the second type in messages of the first one. -/
def Holds (t : RecordType) (number : Nat) (t' : RecordType) : Prop :=
  ∃ (v : t'.Value) (m : t.Value), Part number ⟨t', v⟩ ⟨t, m⟩

/-- The second byte string is the first one with an unknown field put in at a boundary between
fields, of the message itself or of a submessage at some depth. The lengths around it are written in
any form. -/
inductive Inserted : RecordType → Nat → Bytes → Bytes → Prop where
  | here {t : RecordType} {budget : Nat} {p u q : Bytes} : AreFields p →
    Unknown t budget u → Inserted t budget (p ++ q) (p ++ u ++ q)
  | inside {t t' : RecordType} {budget number : Nat} {p k x x' c c' q : Bytes} :
    AreFields p → Holds t number t' → Key.Form k ⟨number, .lengthDelimited⟩ →
    Varint.Form x c.length → Varint.Form x' c'.length → Inserted t' budget c c' →
    Inserted t (budget + 1) (p ++ (k ++ (x ++ c)) ++ q) (p ++ (k ++ (x' ++ c')) ++ q)

/-! ## What an insertion does -/

/-- An unknown field leads from each value to the same value. -/
theorem Unknown.merges {t : RecordType} {budget : Nat} {u : Bytes} (h : Unknown t budget u)
    (s : t.Value) : Merges Record.schema budget u s s := by
  obtain @⟨k, p, c, hp, hnumber, hc⟩ := h
  refine (merges_field_iff t.isLocal hp hc).mpr ?_
  intro rest
  have hnone : (Record.schema (α := t.Value)).fields.find? (·.number = k.number) = none :=
    List.find?_eq_none.mpr fun f hf => by simpa using hnumber f hf
  unfold Schema.mergeField
  rw [List.append_assoc, hp.decode]
  simp only [hnone, hc.skipField budget rest]

theorem Holds.exists_field {t t' : RecordType} {number : Nat} (h : Holds t number t') :
    ∃ f, (Record.schema (α := t.Value)).fields.find? (·.number = number) = some f ∧
      f.ReadsMessage (Record.schema (α := t'.Value)) := by
  obtain ⟨v, m, hpart⟩ := h
  cases hpart with
  | account | recipient | chat | chatItem | stickerPack | standardMessage =>
    exact ⟨_, rfl, message_readsMessage⟩
  | attachment => exact ⟨_, rfl, repeated_readsMessage⟩

/-- A submessage is taken just if its fields lead on from what is there. -/
theorem Holds.exists_merges_iff {t t' : RecordType} {number : Nat} (h : Holds t number t') :
    ∃ (old : t.Value → t'.Value) (put : t'.Value → t.Value → t.Value),
      ∀ {k x c : Bytes} {budget : Nat} {s a : t.Value},
        Key.Form k ⟨number, .lengthDelimited⟩ → Varint.Form x c.length →
        (Merges Record.schema (budget + 1) (k ++ (x ++ c)) s a ↔
          ∃ v, Merges Record.schema budget c (old s) v ∧ a = put v s) := by
  obtain ⟨f, hfind, old, put, hmerge⟩ := h.exists_field
  refine ⟨old, put, ?_⟩
  intro k x c budget s a hk hx
  have hcontent : Content 1 ⟨number, .lengthDelimited⟩ (x ++ c) := ⟨x, c, hx, rfl⟩
  have htaken : ∀ rest, (Record.schema (α := t.Value)).mergeField (budget + 1) s
      (k ++ (x ++ c) ++ rest) =
        ((readMessage (Record.schema (α := t'.Value)) (budget + 1) .lengthDelimited (old s)
          (x ++ c ++ rest)).map fun (v, r) => (put v s, r)).mapError
            (·.within (Record.schema (α := t.Value)).name f.name) := by
    intro rest
    unfold Schema.mergeField
    rw [List.append_assoc, hk.decode]
    simp only [hfind, hmerge]
  rw [merges_field_iff t.isLocal hk hcontent]
  constructor
  · intro h
    have hnil := (htaken []).symm.trans (h [])
    cases hread : readMessage (Record.schema (α := t'.Value)) (budget + 1) .lengthDelimited
      (old s) (x ++ c ++ []) with
    | error e =>
      rw [hread] at hnil
      cases hnil
    | ok y =>
      obtain ⟨v, r⟩ := y
      rw [hread] at hnil
      cases hnil
      obtain ⟨-, inner, hinner, x', c', hx', hbytes, hv⟩ :=
        (readMessage_eq_ok_iff t'.isLocal).mp hread
      cases hinner
      -- the length tells where the submessage ends
      obtain rfl : c = c' := by
        rw [List.append_nil, List.append_nil] at hbytes
        exact (hx.unique hx' hbytes).2
      exact ⟨v, hv, rfl⟩
  · rintro ⟨v, hv, rfl⟩ rest
    rw [htaken, (readMessage_eq_ok_iff t'.isLocal).mpr ⟨rfl, budget, rfl, x, c, hx, rfl, hv⟩]
    rfl

/-- Fields that lead from a value to another still do so after the insertion. -/
theorem Inserted.merges {t : RecordType} {budget : Nat} {b b' : Bytes}
    (h : Inserted t budget b b') : ∀ {s a : t.Value},
      Merges Record.schema budget b s a → Merges Record.schema budget b' s a := by
  induction h with
  | @here t budget p u q hp hu =>
    intro s a hb
    obtain ⟨mid, hfront, hback⟩ := hb.split t.isLocal hp
    exact (hfront.append (hu.merges mid)).append hback
  | @inside t t' budget number p k x x' c c' q hp hholds hk hx hx' _ ih =>
    intro s a hb
    obtain ⟨old, put, htaken⟩ := hholds.exists_merges_iff
    have hcontent : Content 1 ⟨number, .lengthDelimited⟩ (x ++ c) := ⟨x, c, hx, rfl⟩
    rw [List.append_assoc] at hb
    obtain ⟨before, hfront, hrest⟩ := hb.split t.isLocal hp
    obtain ⟨behind, hfield, hback⟩ := hrest.split t.isLocal ⟨1, .single hk hcontent⟩
    obtain ⟨v, hv, rfl⟩ := (htaken hk hx).mp hfield
    have hfield' := (htaken hk hx').mpr ⟨v, ih hv, rfl⟩
    exact (hfront.append hfield').append hback

/-- A message decodes to the same value after an insertion. -/
theorem Inserted.decode {t : RecordType} {b b' : Bytes} (h : Inserted t recursionBudget b b')
    {a : t.Value} (hb : (Record.schema (α := t.Value)).decode b = .ok a) :
    (Record.schema (α := t.Value)).decode b' = .ok a :=
  (h.merges ((decode_eq_ok_iff t.isLocal).mp hb)).decode

/-! ## Where fields can be inserted -/

/-- An insertion into a submessage is one into its message; only the length around it changes. -/
theorem Part.inserted {number : Nat} {v m : Typed} (h : Part number v m) (hm : Record.Fits m.2) :
    ∃ front back, body m = front ++ encodeDelimited number (body v).length (body v) ++ back ∧
      ∀ {budget : Nat} {c : Bytes}, Inserted v.1 budget (body v) c → c.length < UInt64.size →
        Inserted m.1 (budget + 1) (body m)
          (front ++ encodeDelimited number c.length c ++ back) := by
  obtain ⟨hv, front, back, hfront, hbody⟩ := h.stands hm
  refine ⟨front, back, hbody, ?_⟩
  intro budget c hc hlen
  have hkey : Key.Form (Key.encode ⟨number, .lengthDelimited⟩) ⟨number, .lengthDelimited⟩ := by
    cases h <;> exact Key.form_encode (by decide) (by decide)
  rw [hbody]
  simp only [encodeDelimited, List.append_assoc (Key.encode _)]
  exact .inside hfront ⟨v.2, m.2, h⟩ hkey (Varint.form_encode hv) (Varint.form_encode hlen) hc

/-- Between any two fields of the schema an unknown field can be inserted. -/
theorem inserted_between {t : RecordType} {m : t.Value} (hm : Record.Fits m)
    {fs gs : List (Field t.Value)} (hfields : (Record.schema (α := t.Value)).fields = fs ++ gs)
    {budget : Nat} {u : Bytes} (hu : Unknown t budget u) :
    Inserted t budget (Record.schema.encode m)
      (fs.flatMap (·.encode m) ++ u ++ gs.flatMap (·.encode m)) := by
  obtain ⟨_, _, hcodes⟩ := Record.Lawful.codes m
  have hencode : (Record.schema (α := t.Value)).encode m =
      fs.flatMap (·.encode m) ++ gs.flatMap (·.encode m) := by
    rw [Schema.encode, hfields, List.flatMap_append]
  rw [hencode]
  exact .here (hcodes.areFields t.isLocal hfields hm) hu

end RecordType

/-! ## The main statement -/

/-- **Unknown fields are ignored**: into the encoding of a value of any record type a field that its
message type does not have may be put at any boundary between fields, of the message or of a
submessage at any depth, and be a number, bytes of any of the three kinds, or a group that is nested
as deeply as the budget that is left allows. With the lengths around it adjusted, the record decodes
to the same value, takes just all its bytes and leaves what stands behind it. So does any other
message that decodes, so that insertions may be repeated. Between any two fields that are written,
and in every submessage wherever it allows one, there is such an insertion. -/
theorem unknown_fields_ignored :
    (∀ (t : RecordType) (m : t.Value) (body x : Bytes), Record.Fits m →
      RecordType.Inserted t recursionBudget (Record.schema.encode m) body →
      Varint.Form x body.length → ∀ rest,
        Record.ofBytes t.Value (x ++ (body ++ rest)) = .ok (some (m, (x ++ body).length)) ∧
        ∀ maxLength, body.length ≤ maxLength →
          Record.Front t.Value maxLength (x ++ (body ++ rest)) (.record m) rest) ∧
    (∀ (t : RecordType) (a : t.Value) (b b' : Bytes),
      RecordType.Inserted t recursionBudget b b' →
      (Record.schema (α := t.Value)).decode b = .ok a →
      (Record.schema (α := t.Value)).decode b' = .ok a) ∧
    (∀ (t : RecordType) (m : t.Value), Record.Fits m → ∀ fs gs : List (Field t.Value),
      (Record.schema (α := t.Value)).fields = fs ++ gs → ∀ (budget : Nat) (u : Bytes),
        RecordType.Unknown t budget u → RecordType.Inserted t budget (Record.schema.encode m)
          (fs.flatMap (·.encode m) ++ u ++ gs.flatMap (·.encode m))) ∧
    ∀ (number : Nat) (v m : RecordType.Typed), RecordType.Part number v m → Record.Fits m.2 →
      ∃ front back, Record.schema.encode m.2 = front ++ encodeDelimited number
          (Record.schema.encode v.2).length (Record.schema.encode v.2) ++ back ∧
        ∀ (budget : Nat) (c : Bytes),
          RecordType.Inserted v.1 budget (Record.schema.encode v.2) c → c.length < UInt64.size →
          RecordType.Inserted m.1 (budget + 1) (Record.schema.encode m.2)
            (front ++ encodeDelimited number c.length c ++ back) := by
  refine ⟨?_, fun _ _ _ _ h hb => h.decode hb, ?_, ?_⟩
  · intro t m body x hm hbody hx rest
    obtain ⟨_, hdepth, hcodes⟩ := Record.Lawful.codes m
    have hdecode := hbody.decode (hcodes.decode hdepth hm)
    have hfront : ∀ maxLength, body.length ≤ maxLength →
        Record.Front t.Value maxLength (x ++ (body ++ rest)) (.record m) rest :=
      fun maxLength hmax => .record hx hmax hdecode
    have hused : (x ++ (body ++ rest)).length - rest.length = (x ++ body).length := by
      rw [← List.append_assoc, List.length_append, Nat.add_sub_cancel]
    refine ⟨?_, hfront⟩
    rw [(hfront _ (Nat.le_sub_one_of_lt hx.lt)).ofBytes, hused]
    rfl
  · intro t m hm fs gs hfields budget u hu
    exact RecordType.inserted_between hm hfields hu
  · intro number v m hpart hm
    obtain ⟨front, back, hbody, hinserted⟩ := hpart.inserted hm
    exact ⟨front, back, hbody, fun _ _ hc hlen => hinserted hc hlen⟩

/-- A group with a number in it, put into an attachment three levels down, and then a number in
front of the frame: the same frame is read, and all of the record is taken. -/
theorem unknown_fields_ignored_of_group :
    let pointer : FilePointer := {}
    let message : StandardMessage := { attachments := [pointer] }
    let item : ChatItem := { standardMessage := some message }
    let frame : Frame := ⟨some (.chatItem item)⟩
    let u : Bytes := [43, 8, 7, 44]
    Record.schema.encode frame = [34, 4, 34, 2, 18, 0] ∧
    Record.ofBytes Frame ([10] ++ ([34, 8, 34, 6, 18, 4] ++ u ++ [9])) = .ok (some (frame, 11)) ∧
    (Record.schema (α := Frame)).decode ([48, 1] ++ ([34, 8, 34, 6, 18, 4] ++ u)) = .ok frame := by
  intro pointer message item frame u
  have hencode : Record.schema.encode frame = [34, 4, 34, 2, 18, 0] := by decide +kernel
  have hgroup : RecordType.Unknown .filePointer 97 ([43] ++ [8, 7, 44]) := by
    refine .field (k := ⟨5, .startGroup⟩) ⟨.single (by decide), by decide, by decide⟩ (by decide) ?_
    refine ⟨[8, 7], [44], ?_, ⟨.single (by decide), by decide, by decide⟩, rfl⟩
    exact .single (k := ⟨1, .varint⟩) (p := [8]) ⟨.single (by decide), by decide, by decide⟩
      ⟨7, .single (by decide)⟩
  have hpointer : RecordType.Inserted .filePointer 97 [] u :=
    .here (p := []) (q := []) ⟨0, .nil⟩ hgroup
  have hattachments : RecordType.Holds .standardMessage 2 .filePointer :=
    ⟨pointer, message, .attachment List.mem_cons_self⟩
  have hmessage : RecordType.Inserted .standardMessage 98 ([] ++ ([18] ++ ([0] ++ [])) ++ [])
      ([] ++ ([18] ++ ([4] ++ u)) ++ []) :=
    .inside ⟨0, .nil⟩ hattachments ⟨.single (by decide), by decide, by decide⟩
      (.single (by decide)) (.single (by decide)) hpointer
  have hstandard : RecordType.Holds .chatItem 4 .standardMessage :=
    ⟨message, item, .standardMessage (m := item) rfl⟩
  have hitem : RecordType.Inserted .chatItem 99 ([] ++ ([34] ++ ([2] ++ [18, 0])) ++ [])
      ([] ++ ([34] ++ ([6] ++ ([18, 4] ++ u))) ++ []) :=
    .inside ⟨0, .nil⟩ hstandard ⟨.single (by decide), by decide, by decide⟩
      (.single (by decide)) (.single (by decide)) hmessage
  have hchatItem : RecordType.Holds .frame 4 .chatItem := ⟨item, frame, .chatItem item⟩
  have hframe : RecordType.Inserted .frame recursionBudget (Record.schema.encode frame)
      ([] ++ ([34] ++ ([8] ++ ([34, 6, 18, 4] ++ u))) ++ []) := by
    rw [hencode]
    exact .inside (p := []) (k := [34]) (x := [4]) (q := []) ⟨0, .nil⟩ hchatItem
      ⟨.single (by decide), by decide, by decide⟩ (.single (by decide)) (.single (by decide)) hitem
  have hnumber : RecordType.Unknown .frame recursionBudget ([48] ++ [1]) :=
    .field (k := ⟨6, .varint⟩) ⟨.single (by decide), by decide, by decide⟩ (by decide)
      ⟨1, .single (by decide)⟩
  have hfits : Record.Fits frame := by decide +kernel
  have hdecode : Record.schema.decode (Record.schema.encode frame) = .ok frame :=
    (Frame.codes frame).decode (by decide) hfits
  obtain ⟨hrecord, hagain, -, -⟩ := unknown_fields_ignored
  refine ⟨hencode, ?_, ?_⟩
  · exact (hrecord .frame frame _ [10] hfits hframe (.single (by decide)) [9]).1
  · have hfirst := hagain .frame frame _ _ hframe hdecode
    exact hagain .frame frame _ _ (.here (p := []) ⟨0, .nil⟩ hnumber) hfirst

end ChatBackup
