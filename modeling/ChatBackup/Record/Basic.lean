import ChatBackup.Wire.Field

/-!
# The records of a backup

A backup is a `BackupInfo` followed by frames; a frame holds one of an account, a recipient, a
chat, a chat item and a sticker pack, or nothing. Each record type has a schema (`Record.schema`),
which fixes its encoded form.
-/

namespace ChatBackup

/-- A message type that can stand in a backup as a record. -/
class Record (α : Type) where
  schema : Schema α

/-! ## The record types -/

/-- What opens a backup. -/
structure BackupInfo where
  version : UInt64 := 0
  backupTimeMs : UInt64 := 0
  mediaRootBackupKey : Bytes := []
  currentAppVersion : String := ""
  firstAppVersion : String := ""
  deriving DecidableEq, Repr

/-- The profile of the account that is backed up. -/
structure AccountData where
  profileKey : Bytes := []
  username : Option String := none
  givenName : String := ""
  familyName : String := ""
  deriving DecidableEq, Repr

/-- Someone the account exchanges messages with. -/
structure Recipient where
  id : UInt64 := 0
  aci : Bytes := []
  e164 : Option UInt64 := none
  profileGivenName : String := ""
  deriving DecidableEq, Repr

/-- A conversation. -/
structure Chat where
  id : UInt64 := 0
  recipientId : UInt64 := 0
  archived : Bool := false
  pinnedOrder : Option UInt32 := none
  expirationTimerMs : UInt64 := 0
  muteUntilMs : UInt64 := 0
  deriving DecidableEq, Repr

/-- Where the content of an attachment is found. -/
structure FilePointer where
  contentType : String := ""
  size : UInt32 := 0
  key : Bytes := []
  digest : Bytes := []
  deriving DecidableEq, Repr

/-- The text and the attachments of a message. -/
structure StandardMessage where
  text : String := ""
  attachments : List FilePointer := []
  deriving DecidableEq, Repr

/-- A message in a chat. -/
structure ChatItem where
  chatId : UInt64 := 0
  authorId : UInt64 := 0
  dateSent : UInt64 := 0
  standardMessage : Option StandardMessage := none
  deriving DecidableEq, Repr

/-- An installed set of stickers. -/
structure StickerPack where
  packId : Bytes := []
  packKey : Bytes := []
  deriving DecidableEq, Repr

/-- What a frame holds. -/
inductive FrameItem where
  | account (value : AccountData)
  | recipient (value : Recipient)
  | chat (value : Chat)
  | chatItem (value : ChatItem)
  | stickerPack (value : StickerPack)
  deriving DecidableEq, Repr

/-- One record of a backup after its header. -/
structure Frame where
  item : Option FrameItem := none
  deriving DecidableEq, Repr

/-! ## Making records -/

/-- The version written into new backups. -/
def formatVersion : UInt64 := 1

/-- The header of a backup made now. -/
def BackupInfo.current (backupTimeMs : UInt64) : BackupInfo :=
  { version := formatVersion, backupTimeMs }

namespace Frame

/-- A frame with an account. -/
def account (value : AccountData) : Frame := ⟨some (.account value)⟩

/-- A frame with a recipient of whom only the number is known. -/
def recipient (id : UInt64) : Frame := ⟨some (.recipient { id })⟩

/-- A frame with a chat in its initial state. -/
def chat (id recipientId : UInt64) : Frame := ⟨some (.chat { id, recipientId })⟩

/-- A frame with a message that is only a text. -/
def textMessage (chatId authorId dateSent : UInt64) (text : String) : Frame :=
  ⟨some (.chatItem { chatId, authorId, dateSent, standardMessage := some { text } })⟩

/-- A frame with a sticker pack. -/
def stickerPack (packId packKey : Bytes) : Frame := ⟨some (.stickerPack { packId, packKey })⟩

/-- The name of what a frame holds. -/
def kind (f : Frame) : String :=
  match f.item with
  | some (.account _) => "account"
  | some (.recipient _) => "recipient"
  | some (.chat _) => "chat"
  | some (.chatItem _) => "chat_item"
  | some (.stickerPack _) => "sticker_pack"
  | none => "empty"

end Frame

/-! ## Their schemas -/

instance : Record BackupInfo where
  schema := {
    name := "BackupInfo"
    empty := {}
    fields := [
      .uint64 1 "version" (·.version) fun v a => { a with version := v },
      .uint64 2 "backup_time_ms" (·.backupTimeMs) fun v a => { a with backupTimeMs := v },
      .bytes 3 "media_root_backup_key" (·.mediaRootBackupKey)
        fun v a => { a with mediaRootBackupKey := v },
      .text 4 "current_app_version" (·.currentAppVersion)
        fun v a => { a with currentAppVersion := v },
      .text 5 "first_app_version" (·.firstAppVersion)
        fun v a => { a with firstAppVersion := v }] }

instance : Record AccountData where
  schema := {
    name := "AccountData"
    empty := {}
    fields := [
      .bytes 1 "profile_key" (·.profileKey) fun v a => { a with profileKey := v },
      .optionalText 2 "username" (·.username) fun v a => { a with username := some v },
      .text 3 "given_name" (·.givenName) fun v a => { a with givenName := v },
      .text 4 "family_name" (·.familyName) fun v a => { a with familyName := v }] }

instance : Record Recipient where
  schema := {
    name := "Recipient"
    empty := {}
    fields := [
      .uint64 1 "id" (·.id) fun v a => { a with id := v },
      .bytes 2 "aci" (·.aci) fun v a => { a with aci := v },
      .optionalUint64 3 "e164" (·.e164) fun v a => { a with e164 := some v },
      .text 4 "profile_given_name" (·.profileGivenName)
        fun v a => { a with profileGivenName := v }] }

instance : Record Chat where
  schema := {
    name := "Chat"
    empty := {}
    fields := [
      .uint64 1 "id" (·.id) fun v a => { a with id := v },
      .uint64 2 "recipient_id" (·.recipientId) fun v a => { a with recipientId := v },
      .bool 3 "archived" (·.archived) fun v a => { a with archived := v },
      .optionalUint32 4 "pinned_order" (·.pinnedOrder)
        fun v a => { a with pinnedOrder := some v },
      .uint64 5 "expiration_timer_ms" (·.expirationTimerMs)
        fun v a => { a with expirationTimerMs := v },
      .uint64 6 "mute_until_ms" (·.muteUntilMs) fun v a => { a with muteUntilMs := v }] }

instance : Record FilePointer where
  schema := {
    name := "FilePointer"
    empty := {}
    fields := [
      .text 1 "content_type" (·.contentType) fun v a => { a with contentType := v },
      .uint32 2 "size" (·.size) fun v a => { a with size := v },
      .bytes 3 "key" (·.key) fun v a => { a with key := v },
      .bytes 4 "digest" (·.digest) fun v a => { a with digest := v }] }

instance : Record StandardMessage where
  schema := {
    name := "StandardMessage"
    empty := {}
    fields := [
      .text 1 "text" (·.text) fun v a => { a with text := v },
      .repeated 2 "attachments" (Record.schema (α := FilePointer)) (·.attachments)
        fun v a => { a with attachments := v }] }

instance : Record ChatItem where
  schema := {
    name := "ChatItem"
    empty := {}
    fields := [
      .uint64 1 "chat_id" (·.chatId) fun v a => { a with chatId := v },
      .uint64 2 "author_id" (·.authorId) fun v a => { a with authorId := v },
      .uint64 3 "date_sent" (·.dateSent) fun v a => { a with dateSent := v },
      .message 4 "standard_message" (Record.schema (α := StandardMessage)) (·.standardMessage)
        fun v a => { a with standardMessage := some v }] }

instance : Record StickerPack where
  schema := {
    name := "StickerPack"
    empty := {}
    fields := [
      .bytes 1 "pack_id" (·.packId) fun v a => { a with packId := v },
      .bytes 2 "pack_key" (·.packKey) fun v a => { a with packKey := v }] }

namespace Frame

/-- The account in a frame, if it holds one. -/
def account? (f : Frame) : Option AccountData :=
  match f.item with
  | some (.account v) => some v
  | _ => none

/-- The recipient in a frame, if it holds one. -/
def recipient? (f : Frame) : Option Recipient :=
  match f.item with
  | some (.recipient v) => some v
  | _ => none

/-- The chat in a frame, if it holds one. -/
def chat? (f : Frame) : Option Chat :=
  match f.item with
  | some (.chat v) => some v
  | _ => none

/-- The chat item in a frame, if it holds one. -/
def chatItem? (f : Frame) : Option ChatItem :=
  match f.item with
  | some (.chatItem v) => some v
  | _ => none

/-- The sticker pack in a frame, if it holds one. -/
def stickerPack? (f : Frame) : Option StickerPack :=
  match f.item with
  | some (.stickerPack v) => some v
  | _ => none

end Frame

/-- What a frame holds is one of five fields; reading another of them replaces it. -/
instance : Record Frame where
  schema := {
    name := "Frame"
    empty := {}
    fields := [
      .message 1 "item" (Record.schema (α := AccountData)) Frame.account?
        fun v _ => ⟨some (.account v)⟩,
      .message 2 "item" (Record.schema (α := Recipient)) Frame.recipient?
        fun v _ => ⟨some (.recipient v)⟩,
      .message 3 "item" (Record.schema (α := Chat)) Frame.chat?
        fun v _ => ⟨some (.chat v)⟩,
      .message 4 "item" (Record.schema (α := ChatItem)) Frame.chatItem?
        fun v _ => ⟨some (.chatItem v)⟩,
      .message 5 "item" (Record.schema (α := StickerPack)) Frame.stickerPack?
        fun v _ => ⟨some (.stickerPack v)⟩] }

end ChatBackup
