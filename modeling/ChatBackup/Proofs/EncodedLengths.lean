import ChatBackup.Proofs.Grammar
import ChatBackup.Proofs.Reconciliation

/-!
# Lengths told and lengths written

The length of a record is told in two ways: by summing over its fields without encoding them, and by
encoding it. The first one is written in front of every record and every submessage, so a reader
relies on both being the same:

> `lengths_agree`: for every value of every record type they are, and so are the number of bytes
> that writing tells and the number that taking the record off a byte string tells. Every submessage
> at any depth stands in the encoding behind a key and the number of just its own bytes.

Which submessages a record has is said of the record alone (`RecordType.Inside`), without a look at
its encoding.
-/

namespace ChatBackup

open ChatBackup.Field

/-! ## Where a field stands -/

namespace Schema

variable {α : Type} {m : Schema α} {budget : Nat} {s t a : α}

theorem Builds.split {fs gs : List (Field α)} (h : Builds m budget a (fs ++ gs) s t) :
    ∃ mid, Builds m budget a fs s mid ∧ Builds m budget a gs mid t := by
  induction fs generalizing s with
  | nil => exact ⟨s, .nil s, h⟩
  | cons f fs ih =>
    cases h with
    | cons hf hmore =>
      obtain ⟨mid, hfront, hback⟩ := ih hmore
      exact ⟨mid, .cons hf hfront, hback⟩

/-- Behind each field that is written the encoding may be parted. -/
theorem Codes.areFields (hm : m.Local) {depth : Nat} (h : m.Codes depth a) {fs gs : List (Field α)}
    (hfields : m.fields = fs ++ gs) (hlen : (m.encode a).length < UInt64.size) :
    AreFields (fs.flatMap (·.encode a)) := by
  have hbuilds := h depth (Nat.le_refl _)
  rw [hfields] at hbuilds
  rw [Schema.encode, hfields, List.flatMap_append, List.length_append] at hlen
  obtain ⟨_, hfront, -⟩ := hbuilds.split
  exact (hfront.merges (by omega)).areFields hm

end Schema

namespace Record

variable {α : Type} [Record α]

theorem size_eq [Record.Lawful α] {a : α} (h : Fits a) :
    (Record.schema (α := α)).size a = (Record.schema.encode a).length := by
  obtain ⟨_, _, hcodes⟩ := Record.Lawful.codes a
  exact hcodes.size h

/-- The written form of each field stands in the encoding behind those of the fields before it. -/
theorem encode_getElem [Record.Lawful α] (hlocal : (Record.schema (α := α)).Local) (i : Nat)
    (h : i < (Record.schema (α := α)).fields.length) (a : α) : ∃ front back,
      Record.schema.encode a = front ++ (Record.schema (α := α)).fields[i].encode a ++ back ∧
      (Fits a → AreFields front) := by
  obtain ⟨before, behind, hfields⟩ := List.append_of_mem (List.getElem_mem h)
  refine ⟨before.flatMap (·.encode a), behind.flatMap (·.encode a), ?_, ?_⟩
  · conv => lhs; rw [Schema.encode, hfields]
    rw [List.flatMap_append, List.flatMap_cons, List.append_assoc]
  · intro hfits
    obtain ⟨_, _, hcodes⟩ := Record.Lawful.codes a
    exact hcodes.areFields hlocal hfields hfits

/-- Writing tells the number of bytes that were offered, or the failure to write them. -/
theorem write_eq {σ : Type} [Sink σ] (s : σ) (a : α) :
    (Record.write s a).1 = (Sink.writeAll s (Record.wire a)).1.map fun _ =>
      (Record.wire a).length := by
  unfold Record.write
  simp only
  generalize Sink.writeAll s (Record.wire a) = x
  obtain ⟨r, s'⟩ := x
  cases r <;> rfl

/-- A sink that takes everything takes the record. -/
theorem write_succeeds {σ : Type} [Sink σ] {T : Sink.Ledger σ} (hT : Sink.Takes T) {s : σ}
    {c : Bytes} (hs : T s c) (a : α) :
    ∃ s', Record.write s a = (.ok (Record.wire a).length, s') ∧ T s' (c ++ Record.wire a) := by
  obtain ⟨s', hwrite, hafter⟩ := hT.writeAll (Record.wire a) hs
  refine ⟨s', ?_, hafter⟩
  unfold Record.write
  simp only [hwrite]

end Record

/-! ## Submessages -/

namespace RecordType

theorem isLocal (t : RecordType) : (Record.schema (α := t.Value)).Local :=
  t.elim (P := fun α => (Record.schema (α := α)).Local) BackupInfo.isLocal Frame.isLocal
    AccountData.isLocal Recipient.isLocal Chat.isLocal ChatItem.isLocal StandardMessage.isLocal
    FilePointer.isLocal StickerPack.isLocal

/-- The first record is a submessage of the second one, in the field with the number. -/
inductive Part : Nat → Typed → Typed → Prop where
  | account (v : AccountData) : Part 1 ⟨.accountData, v⟩ ⟨.frame, Frame.mk (some (.account v))⟩
  | recipient (v : Recipient) : Part 2 ⟨.recipient, v⟩ ⟨.frame, Frame.mk (some (.recipient v))⟩
  | chat (v : Chat) : Part 3 ⟨.chat, v⟩ ⟨.frame, Frame.mk (some (.chat v))⟩
  | chatItem (v : ChatItem) : Part 4 ⟨.chatItem, v⟩ ⟨.frame, Frame.mk (some (.chatItem v))⟩
  | stickerPack (v : StickerPack) :
    Part 5 ⟨.stickerPack, v⟩ ⟨.frame, Frame.mk (some (.stickerPack v))⟩
  | standardMessage {m : ChatItem} {v : StandardMessage} : m.standardMessage = some v →
    Part 4 ⟨.standardMessage, v⟩ ⟨.chatItem, m⟩
  | attachment {m : StandardMessage} {v : FilePointer} : v ∈ m.attachments →
    Part 2 ⟨.filePointer, v⟩ ⟨.standardMessage, m⟩

/-- The first record is a submessage of the second one at any depth, in a field with the number. -/
inductive Inside : Nat → Typed → Typed → Prop where
  | here {number : Nat} {v m : Typed} : Part number v m → Inside number v m
  | deeper {number n : Nat} {v u m : Typed} : Part number v u → Inside n u m → Inside number v m

/-- The encoding of a record of one of the types. -/
def body (r : Typed) : Bytes := Record.schema.encode r.2

/-- Attachments that are written one behind another are fields of their message. -/
theorem areFields_attachments {attachments : List FilePointer}
    (h : (attachments.flatMap (element 2 Record.schema)).length < UInt64.size) :
    AreFields (attachments.flatMap (element 2 Record.schema)) := by
  have hfield : (Record.schema (α := StandardMessage)).Has
      (repeated 2 "attachments" (Record.schema (α := FilePointer)) (·.attachments)
        fun v a => { a with attachments := v }) := ⟨rfl, by decide, by decide⟩
  have hmerges := elements_merges (s := {}) hfield Nat.zero_lt_one (fun _ => rfl) (fun _ _ => rfl)
    attachments [] (fun v _ => FilePointer.codes v) h
  exact hmerges.areFields StandardMessage.isLocal

/-- A submessage is written as a string of bytes, with the length that is told of it. -/
theorem Part.encoded {number : Nat} {v m : Typed} (h : Part number v m) : ∃ front back, body m =
      front ++ encodeDelimited number (Record.schema.size v.2) (body v) ++ back ∧
      (Record.Fits m.2 → AreFields front) := by
  cases h with
  | account v => exact Record.encode_getElem Frame.isLocal 0 (by decide) _
  | recipient v => exact Record.encode_getElem Frame.isLocal 1 (by decide) _
  | chat v => exact Record.encode_getElem Frame.isLocal 2 (by decide) _
  | chatItem v => exact Record.encode_getElem Frame.isLocal 3 (by decide) _
  | stickerPack v => exact Record.encode_getElem Frame.isLocal 4 (by decide) _
  | @standardMessage m v hv =>
    obtain ⟨front, back, hbody, hfront⟩ := Record.encode_getElem ChatItem.isLocal 3 (by decide) m
    have hfield : ((Record.schema (α := ChatItem)).fields.get ⟨3, by decide⟩).encode m =
        encodeDelimited 4 ((Record.schema (α := StandardMessage)).size v)
          ((Record.schema (α := StandardMessage)).encode v) := by
      obtain ⟨chatId, authorId, dateSent, standardMessage⟩ := m
      obtain rfl : standardMessage = some v := hv
      rfl
    change _ =
      front ++ ((Record.schema (α := ChatItem)).fields.get ⟨3, _⟩).encode m ++ back at hbody
    rw [hfield] at hbody
    exact ⟨front, back, hbody, hfront⟩
  | @attachment m v hv =>
    obtain ⟨front, back, hbody, hfront⟩ :=
      Record.encode_getElem StandardMessage.isLocal 1 (by decide) m
    obtain ⟨before, behind, hattachments⟩ := List.append_of_mem hv
    have hfield : ((Record.schema (α := StandardMessage)).fields.get ⟨1, by decide⟩).encode m =
        before.flatMap (element 2 (Record.schema (α := FilePointer))) ++
          (element 2 (Record.schema (α := FilePointer)) v ++
            behind.flatMap (element 2 (Record.schema (α := FilePointer)))) := by
      show m.attachments.flatMap (element 2 (Record.schema (α := FilePointer))) = _
      rw [hattachments, List.flatMap_append, List.flatMap_cons]
    change _ = front ++ ((Record.schema (α := StandardMessage)).fields.get ⟨1, _⟩).encode m ++
      back at hbody
    rw [hfield] at hbody
    simp only [← List.append_assoc] at hbody
    refine ⟨front ++ before.flatMap (element 2 (Record.schema (α := FilePointer))),
      behind.flatMap (element 2 (Record.schema (α := FilePointer))) ++ back, ?_, ?_⟩
    · simp only [← List.append_assoc]
      exact hbody
    · intro hfits
      have hlen : (Record.schema.encode m).length < UInt64.size := hfits
      rw [hbody] at hlen
      simp only [List.length_append] at hlen
      exact (hfront hfits).append (areFields_attachments (by omega))

/-- The submessage fits. It stands behind the fields before it, and the length in front of it is the
number of its bytes. -/
theorem Part.stands {number : Nat} {v m : Typed} (h : Part number v m) (hm : Record.Fits m.2) :
    Record.Fits v.2 ∧ ∃ front back, AreFields front ∧ body m =
      front ++ encodeDelimited number (body v).length (body v) ++ back := by
  obtain ⟨front, back, hbody, hfront⟩ := h.encoded
  have hle := length_le_encodeDelimited number (Record.schema.size v.2) (body v)
  have hlen := congrArg List.length hbody
  rw [List.length_append, List.length_append] at hlen
  have hfits : Record.Fits v.2 := by
    have hm' : (body m).length < UInt64.size := hm
    show (body v).length < UInt64.size
    omega
  rw [Record.size_eq hfits] at hbody
  exact ⟨hfits, front, back, hfront hm, hbody⟩

/-- A submessage at any depth stands in the encoding behind its key and the number of its bytes. -/
theorem Inside.stands {number : Nat} {v m : Typed} (h : Inside number v m) :
    Record.Fits m.2 → Record.Fits v.2 ∧ ∃ front back, body m =
      front ++ encodeDelimited number (body v).length (body v) ++ back := by
  induction h with
  | here hpart =>
    intro hm
    obtain ⟨hv, front, back, -, hbody⟩ := hpart.stands hm
    exact ⟨hv, front, back, hbody⟩
  | @deeper number n v u m hpart _ ih =>
    intro hm
    obtain ⟨hu, front, back, hbody⟩ := ih hm
    obtain ⟨hv, front', back', -, hbody'⟩ := hpart.stands hu
    refine ⟨hv, front ++ (Key.encode ⟨n, .lengthDelimited⟩ ++ Varint.encode (body u).length ++
      front'), back' ++ back, ?_⟩
    rw [hbody, encodeDelimited]
    simp only [List.append_assoc]
    rw [hbody']
    simp only [List.append_assoc]

end RecordType

/-! ## The main statement -/

/-- **The lengths agree**, for every value of every record type whose length has 64 bits: what is
told of the message and of the record without encoding them is the number of bytes they are encoded
to. Writing the record tells the same number if it succeeds, on any sink, and it does on one that
takes everything; taking the record off a byte string tells this number as well, whatever stands
behind. The lengths told of submessages, at any depth, are the numbers of their bytes too. In the
encoding of its message a submessage stands behind the fields before it, its key and the length told
of it, so that this length is the number of the bytes that follow for it. -/
theorem lengths_agree :
    (∀ (t : RecordType) (m : t.Value), Record.Fits m →
      (Record.schema (α := t.Value)).size m = (Record.schema.encode m).length ∧
      Record.wireLength m = (Record.wire m).length ∧
      (∀ {σ : Type} [Sink σ] (s : σ), (Record.write s m).1 =
        (Sink.writeAll s (Record.wire m)).1.map fun _ => Record.wireLength m) ∧
      (∀ {σ : Type} [Sink σ] {T : Sink.Ledger σ}, Sink.Takes T → ∀ (s : σ) (c : Bytes), T s c →
        ∃ s', Record.write s m = (.ok (Record.wireLength m), s') ∧ T s' (c ++ Record.wire m)) ∧
      ∀ rest, Record.ofBytes t.Value (Record.wire m ++ rest) =
        .ok (some (m, Record.wireLength m))) ∧
    (∀ (number : Nat) (v m : RecordType.Typed), RecordType.Part number v m → Record.Fits m.2 →
      ∃ front back, AreFields front ∧ Record.schema.encode m.2 = front ++
        (Key.encode ⟨number, .lengthDelimited⟩ ++ Varint.encode (Record.schema.size v.2) ++
          Record.schema.encode v.2) ++ back) ∧
    ∀ (number : Nat) (v m : RecordType.Typed), RecordType.Inside number v m → Record.Fits m.2 →
      Record.schema.size v.2 = (Record.schema.encode v.2).length ∧
      ∃ front back, Record.schema.encode m.2 = front ++
        (Key.encode ⟨number, .lengthDelimited⟩ ++
          Varint.encode (Record.schema.encode v.2).length ++ Record.schema.encode v.2) ++ back := by
  refine ⟨?_, ?_, ?_⟩
  · intro t m hm
    have hwire := Record.length_wire hm
    refine ⟨Record.size_eq hm, hwire.symm, ?_, ?_, ?_⟩
    · intro σ _ s
      rw [Record.write_eq, hwire]
    · intro σ _ T hT s c hs
      rw [← hwire]
      exact Record.write_succeeds hT hs m
    · intro rest
      rw [Record.ofBytes_wire hm, hwire]
  · intro number v m hpart hm
    obtain ⟨hv, front, back, hfront, hbody⟩ := hpart.stands hm
    rw [Record.size_eq hv]
    exact ⟨front, back, hfront, hbody⟩
  · intro number v m hinside hm
    obtain ⟨hv, hbody⟩ := hinside.stands hm
    exact ⟨Record.size_eq hv, hbody⟩

/-- A message with an attachment in a frame: the record takes 17 bytes, and so do all ways to tell;
the attachment, three levels down, stands behind its own length. -/
theorem lengths_agree_of_attachment :
    let pointer : FilePointer := { size := 300, key := [1, 2] }
    let message : StandardMessage := { attachments := [pointer] }
    let item : ChatItem := { chatId := 128, standardMessage := some message }
    let frame : Frame := ⟨some (.chatItem item)⟩
    Record.wireLength frame = 17 ∧ (Record.write ({} : ScriptedSink) frame).1 = .ok 17 ∧
    (∀ rest, Record.ofBytes Frame (Record.wire frame ++ rest) = .ok (some (frame, 17))) ∧
    (∃ front back, AreFields front ∧ Record.schema.encode item =
      front ++ (Key.encode ⟨4, .lengthDelimited⟩ ++ Varint.encode (Record.schema.size message) ++
        Record.schema.encode message) ++ back) ∧
    Record.schema.size pointer = 7 ∧ ∃ front back, Record.schema.encode frame =
      front ++ (Key.encode ⟨2, .lengthDelimited⟩ ++ Varint.encode 7 ++
        Record.schema.encode pointer) ++ back := by
  intro pointer message item frame
  have hfits : Record.Fits frame := by decide +kernel
  have hitem : Record.Fits item := by decide +kernel
  have hlength : Record.wireLength frame = 17 := by decide +kernel
  have hpointer : (Record.schema.encode pointer).length = 7 := by decide +kernel
  obtain ⟨-, -, -, hwrite, htake⟩ := lengths_agree.1 .frame frame hfits
  have hpart : RecordType.Part 4 ⟨.standardMessage, message⟩ ⟨.chatItem, item⟩ :=
    .standardMessage (m := item) rfl
  have hinside : RecordType.Inside 2 ⟨.filePointer, pointer⟩ ⟨.frame, frame⟩ :=
    .deeper (.attachment List.mem_cons_self) (.deeper hpart (.here (.chatItem item)))
  obtain ⟨hsize, hstands⟩ := lengths_agree.2.2 2 _ _ hinside hfits
  refine ⟨hlength, ?_, ?_, lengths_agree.2.1 4 _ _ hpart hitem, hsize.trans hpointer, ?_⟩
  · obtain ⟨s', hs', -⟩ := hwrite ScriptedSink.takes.toTakes {} []
      ⟨ScriptedSink.faultless_new, ScriptedSink.written_new⟩
    rw [← hlength]
    exact congrArg Prod.fst hs'
  · intro rest
    rw [← hlength]
    exact htake rest
  · rw [← hpointer]
    exact hstands

end ChatBackup
