import ChatBackup.Proofs.Sequence

/-!
# Encoded records split back

Each of the nine record types can stand in a byte string as a record, and encodings that follow one
another can be told apart again:

> `records_split`: a record is taken off the front of a byte string as it was encoded, whatever
> stands behind it, and the number of bytes it took is told. So no two values of a type have the
> same encoding, no encoding goes on as another, and any series of encodings, of one type or of
> several, is split back into its records.

The types are listed (`RecordType`), so that one statement speaks of all of them and a series may
change the type from record to record.
-/

namespace ChatBackup

instance : Record.Lawful AccountData := ⟨fun a => ⟨0, by decide, AccountData.codes a⟩⟩

instance : Record.Lawful Recipient := ⟨fun a => ⟨0, by decide, Recipient.codes a⟩⟩

instance : Record.Lawful Chat := ⟨fun a => ⟨0, by decide, Chat.codes a⟩⟩

instance : Record.Lawful ChatItem := ⟨fun a => ⟨2, by decide, ChatItem.codes a⟩⟩

instance : Record.Lawful StandardMessage := ⟨fun a => ⟨1, by decide, StandardMessage.codes a⟩⟩

instance : Record.Lawful FilePointer := ⟨fun a => ⟨0, by decide, FilePointer.codes a⟩⟩

instance : Record.Lawful StickerPack := ⟨fun a => ⟨0, by decide, StickerPack.codes a⟩⟩

/-! ## One record off the front -/

namespace Record

variable {α β : Type} [Record α] [Record β] {b : Bytes}

/-- The length in front of the record has 64 bits, as every length in memory has. -/
def Fits (a : α) : Prop := (Record.schema.encode a).length < UInt64.size

instance (a : α) : Decidable (Fits a) := inferInstanceAs (Decidable (_ < _))

theorem ofBytes_eq (b : Bytes) : Record.ofBytes α b =
    match Record.fetch α (⟨b⟩ : ByteSource) (UInt64.size - 1) with
    | (.error e, _) => .error e
    | (.ok none, _) => .ok none
    | (.ok (some a), s) => .ok (some (a, b.length - s.rest.length)) := by
  unfold Record.ofBytes Record.fetch
  cases Record.read α (⟨b⟩ : ByteSource) (UInt64.size - 1) with
  | mk result s =>
    cases result with
    | error e => rfl
    | ok r => cases r <;> rfl

/-- What stands behind a record is shorter than the byte string. -/
theorem ofBytes_shortens {a : α} {n : Nat} (h : Record.ofBytes α b = .ok (some (a, n))) :
    b.length - n < b.length := by
  rw [ofBytes_eq] at h
  split at h
  · cases h
  · cases h
  next a' s hfetch =>
    cases h
    have hshort := fetch_shortens hfetch
    omega

theorem ofBytes_nil : Record.ofBytes α [] = .ok none := by
  rw [ofBytes_eq, fetch_nil]

/-- An encoded record is taken off the front, and no byte of what follows it. -/
theorem ofBytes_wire [Record.Lawful α] {a : α} (h : Fits a) (rest : Bytes) :
    Record.ofBytes α (Record.wire a ++ rest) = .ok (some (a, (Record.wire a).length)) := by
  have hfits : (Record.schema.encode a).length ≤ UInt64.size - 1 := Nat.le_sub_one_of_lt h
  have hlength : (Record.wire a ++ rest).length - rest.length = (Record.wire a).length := by
    rw [List.length_append, Nat.add_sub_cancel]
  rw [ofBytes_eq, fetch_wire hfits (by decide) rest]
  simp only [hlength]

theorem wire_injective [Record.Lawful α] {a b : α} (ha : Fits a) (hb : Fits b)
    (h : Record.wire a = Record.wire b) : a = b := by
  have hread := ofBytes_wire ha []
  rw [h, ofBytes_wire hb] at hread
  cases hread
  rfl

/-- The length in front of a record tells where it ends, so that its encoding does not go on as
another one, not even as one of another type. -/
theorem rest_eq_nil_of_wire_append [Record.Lawful α] [Record.Lawful β] {a : α} {b : β}
    (ha : Fits a) (hb : Fits b) {rest : Bytes} (h : Record.wire a ++ rest = Record.wire b) :
    rest = [] := by
  obtain ⟨_, _, hcodesA⟩ := Record.Lawful.codes a
  obtain ⟨_, _, hcodesB⟩ := Record.Lawful.codes b
  unfold Record.wire at h
  rw [hcodesA.size ha, hcodesB.size hb, List.append_assoc] at h
  obtain ⟨hlength, hbody⟩ := (Varint.form_encode ha).unique (Varint.form_encode hb) h
  have htotal := congrArg List.length hbody
  rw [List.length_append] at htotal
  exact List.eq_nil_of_length_eq_zero (by omega)

/-- Takes the records off a byte string one after another until nothing is left. -/
def split (α : Type) [Record α] (b : Bytes) : Except BackupError (List α) :=
  match _h : Record.ofBytes α b with
  | .error e => .error e
  | .ok none => .ok []
  | .ok (some (a, n)) =>
    (split α (b.drop n)).map (a :: ·)
termination_by b.length
decreasing_by
  rw [List.length_drop]
  exact ofBytes_shortens _h

theorem split_nil : split α [] = .ok [] := by
  rw [split]
  split
  next h => rw [ofBytes_nil] at h; cases h
  next => rfl
  next h => rw [ofBytes_nil] at h; cases h

theorem split_of_record {a : α} {n : Nat} (h : Record.ofBytes α b = .ok (some (a, n))) :
    split α b = (split α (b.drop n)).map (a :: ·) := by
  rw [split]
  split
  next h' => rw [h] at h'; cases h'
  next h' => rw [h] at h'; cases h'
  next h' => rw [h] at h'; cases h'; rfl

/-- Encodings one after another are split into their records. -/
theorem split_wire [Record.Lawful α] {records : List α} (h : ∀ a ∈ records, Fits a) :
    split α (records.flatMap Record.wire) = .ok records := by
  induction records with
  | nil => exact split_nil
  | cons a records ih =>
    have htail := ih fun b hb => h b (List.mem_cons_of_mem a hb)
    rw [List.flatMap_cons, split_of_record (ofBytes_wire (h a List.mem_cons_self) _),
      List.drop_left, htail]
    rfl

end Record

/-! ## All record types -/

/-- The message types that can stand in a byte string as a record. -/
inductive RecordType where
  | backupInfo
  | frame
  | accountData
  | recipient
  | chat
  | chatItem
  | standardMessage
  | filePointer
  | stickerPack
  deriving DecidableEq, Repr

namespace RecordType

/-- The values of a record type. -/
def Value : RecordType → Type
  | backupInfo => BackupInfo
  | frame => Frame
  | accountData => AccountData
  | recipient => Recipient
  | chat => Chat
  | chatItem => ChatItem
  | standardMessage => StandardMessage
  | filePointer => FilePointer
  | stickerPack => StickerPack

instance : (t : RecordType) → Record t.Value
  | backupInfo => inferInstanceAs (Record BackupInfo)
  | frame => inferInstanceAs (Record Frame)
  | accountData => inferInstanceAs (Record AccountData)
  | recipient => inferInstanceAs (Record Recipient)
  | chat => inferInstanceAs (Record Chat)
  | chatItem => inferInstanceAs (Record ChatItem)
  | standardMessage => inferInstanceAs (Record StandardMessage)
  | filePointer => inferInstanceAs (Record FilePointer)
  | stickerPack => inferInstanceAs (Record StickerPack)

/-- What is true of each of the message types is true of every record type. -/
theorem elim {P : (α : Type) → [Record α] → Prop} (backupInfo : P BackupInfo) (frame : P Frame)
    (accountData : P AccountData) (recipient : P Recipient) (chat : P Chat) (chatItem : P ChatItem)
    (standardMessage : P StandardMessage) (filePointer : P FilePointer)
    (stickerPack : P StickerPack) (t : RecordType) : P t.Value := by
  cases t <;> assumption

instance (t : RecordType) : Record.Lawful t.Value :=
  t.elim (P := fun α => Record.Lawful α) inferInstance inferInstance inferInstance inferInstance
    inferInstance inferInstance inferInstance inferInstance inferInstance

/-- A record of one of the types. -/
abbrev Typed : Type := Σ t : RecordType, t.Value

/-- Takes records of the given types off the front of a byte string, each where the one before it
has ended, and leaves what stands behind them; nothing if the byte string ends before. -/
def take : List RecordType → Bytes → Except BackupError (Option (List Typed × Bytes))
  | [], b => .ok (some ([], b))
  | t :: types, b =>
    match Record.ofBytes t.Value b with
    | .error e => .error e
    | .ok none => .ok none
    | .ok (some (a, n)) =>
      (take types (b.drop n)).map (·.map fun more => (⟨t, a⟩ :: more.1, more.2))

/-- Encodings of any types one after another are taken apart by their types. -/
theorem take_wire {records : List Typed} (h : ∀ r ∈ records, Record.Fits r.2) (rest : Bytes) :
    take (records.map (·.1)) (records.flatMap (fun r => Record.wire r.2) ++ rest) =
      .ok (some (records, rest)) := by
  induction records with
  | nil => rfl
  | cons r records ih =>
    have htail := ih fun b hb => h b (List.mem_cons_of_mem r hb)
    rw [List.map_cons, List.flatMap_cons, List.append_assoc, take,
      Record.ofBytes_wire (h r List.mem_cons_self)]
    simp only [List.drop_left, htail]
    rfl

end RecordType

/-! ## The main statement -/

/-- **Records split back**: for each record type and each value of it that fits, the record is
taken off the front of its encoding as it was, whatever stands behind, with the number of its bytes.
No two values of a type have the same encoding, and no encoding goes on as the encoding of a value
of any type. Encodings one after another are split into the same records in their order, those of
one type until nothing is left, those of several types by their types. -/
theorem records_split :
    (∀ (t : RecordType) (m : t.Value) (rest : Bytes), Record.Fits m →
      Record.ofBytes t.Value (Record.wire m ++ rest) =
        .ok (some (m, (Record.wire m).length))) ∧
    (∀ (t : RecordType) (m n : t.Value), Record.Fits m → Record.Fits n →
      Record.wire m = Record.wire n → m = n) ∧
    (∀ (t u : RecordType) (m : t.Value) (n : u.Value) (rest : Bytes), Record.Fits m →
      Record.Fits n → Record.wire m ++ rest = Record.wire n → rest = []) ∧
    (∀ (t : RecordType) (records : List t.Value), (∀ m ∈ records, Record.Fits m) →
      Record.split t.Value (records.flatMap Record.wire) = .ok records) ∧
    (∀ (records : List RecordType.Typed) (rest : Bytes), (∀ r ∈ records, Record.Fits r.2) →
      RecordType.take (records.map (·.1)) (records.flatMap (fun r => Record.wire r.2) ++ rest) =
        .ok (some (records, rest))) := by
  refine ⟨?_, ?_, ?_, ?_, ?_⟩
  · intro t m rest hm
    exact Record.ofBytes_wire hm rest
  · intro t m n hm hn h
    exact Record.wire_injective hm hn h
  · intro t u m n rest hm hn h
    exact Record.rest_eq_nil_of_wire_append hm hn h
  · intro t records h
    exact Record.split_wire h
  · intro records rest h
    exact RecordType.take_wire h rest

/-- A header, an empty frame and a sticker pack with bytes behind them. -/
theorem records_split_three :
    let records : List RecordType.Typed :=
      [⟨.backupInfo, BackupInfo.current 7⟩, ⟨.frame, ({} : Frame)⟩,
        ⟨.stickerPack, ({ packId := [1, 2] } : StickerPack)⟩]
    (∀ r ∈ records, Record.Fits r.2) ∧
      RecordType.take [.backupInfo, .frame, .stickerPack]
        (records.flatMap (fun r => Record.wire r.2) ++ [9, 9]) = .ok (some (records, [9, 9])) := by
  intro records
  have hfits : ∀ r ∈ records, Record.Fits r.2 := by
    intro r hr
    simp only [records, List.mem_cons, List.not_mem_nil, or_false] at hr
    rcases hr with rfl | rfl | rfl <;> decide +kernel
  exact ⟨hfits, records_split.2.2.2.2 records [9, 9] hfits⟩

end ChatBackup
