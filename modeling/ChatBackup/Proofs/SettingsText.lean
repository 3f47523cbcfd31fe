import ChatBackup.Backup.SettingsText
import ChatBackup.Proofs.JsonText

/-!
# Written settings read back

Settings and counts are read from their written form exactly if their numbers are not too large:

> `WriteSettings.ofText?_compact_iff`, `ReadSettings.ofText?_compact_iff`,
> `BackupCounts.ofText?_compact_iff`: what reads back is what `Fits`, and nothing else is ever read.

The order of the members and what stands among them make no difference (`fields?_of_perm`), so that
the same is read from every object that holds the written members and others besides
(`WriteSettings.ofText?_of_perm` and its like).
-/

namespace ChatBackup

open JsonValue

/-! ## Fields of an object -/

namespace JsonValue

/-- Members for fields with the names given. -/
def membersOf (names : List String) (values : List JsonValue) : List (Option String × JsonValue) :=
  (names.map some).zip values

/-- A member that is none of the fields with the names given, but can be passed over. -/
def IsOther (names : List String) (m : Option String × JsonValue) : Prop :=
  (∃ key, m.1 = some key ∧ key ∉ names) ∧ m.2.HasText

variable {names : List String} {values : List JsonValue}
  {others members : List (Option String × JsonValue)}

theorem isSome_of_mem_membersOf {m : Option String × JsonValue} (h : m ∈ membersOf names values) :
    m.1.isSome := by
  obtain ⟨key, -, hkey⟩ := List.mem_map.mp (List.of_mem_zip h).1
  rw [← hkey]
  rfl

/-- Of members for different fields one is found under a name that they have. -/
theorem filter_membersOf {name : String} {v : JsonValue} (hnames : names.Nodup)
    (h : (name, v) ∈ names.zip values) :
    (membersOf names values).filter (·.1 == some name) = [(some name, v)] := by
  induction names generalizing values with
  | nil => cases h
  | cons n names ih =>
    obtain ⟨hn, hnames⟩ := List.nodup_cons.mp hnames
    cases values with
    | nil => cases h
    | cons w values =>
      rw [membersOf, List.map_cons, List.zip_cons_cons]
      rcases List.mem_cons.mp h with heq | htail
      · cases heq
        rw [List.filter_cons_of_pos (by simp), List.filter_eq_nil_iff.mpr]
        intro m hm hkey
        obtain ⟨key, hkeys, heq⟩ := List.mem_map.mp (List.of_mem_zip hm).1
        rw [← heq] at hkey
        exact hn (Option.some.inj (eq_of_beq hkey) ▸ hkeys)
      · have hne : n ≠ name := by
          rintro rfl
          exact hn (List.of_mem_zip htail).1
        rw [List.filter_cons_of_neg (by simpa using hne)]
        exact ih hnames htail

theorem member?_of_perm (hnames : names.Nodup) (hothers : ∀ m ∈ others, IsOther names m)
    (hperm : members.Perm (membersOf names values ++ others)) {name : String} {v : JsonValue}
    (h : (name, v) ∈ names.zip values) : member? members name = some (some v) := by
  have hnone : others.filter (·.1 == some name) = [] := by
    rw [List.filter_eq_nil_iff]
    intro m hm hkey
    obtain ⟨⟨key, hm, hkeys⟩, -⟩ := hothers m hm
    rw [hm] at hkey
    exact hkeys (Option.some.inj (eq_of_beq hkey) ▸ (List.of_mem_zip h).1)
  have hfound := hperm.filter (·.1 == some name)
  rw [List.filter_append, filter_membersOf hnames h, hnone, List.append_nil,
    List.perm_singleton] at hfound
  rw [member?, hfound]

/-- **Fields are found in any order and among any others.** -/
theorem fields?_of_perm (hnames : names.Nodup) (hlen : values.length = names.length)
    (hothers : ∀ m ∈ others, IsOther names m)
    (hperm : members.Perm (membersOf names values ++ others)) :
    fields? names (object members) = some (values.map some) := by
  have hkeys : members.all (·.1.isSome) = true := by
    rw [List.all_eq_true]
    intro m hm
    rcases List.mem_append.mp (hperm.mem_iff.mp hm) with h | h
    · exact isSome_of_mem_membersOf h
    · obtain ⟨⟨key, hkey, -⟩, -⟩ := hothers m h
      rw [hkey]
      rfl
  have hfound : ∀ (ns : List String) (vs : List JsonValue), vs.length = ns.length →
      (∀ p ∈ ns.zip vs, p ∈ names.zip values) →
      ns.mapM (member? members) = some (vs.map some) := by
    intro ns
    induction ns with
    | nil =>
      intro vs hlen _
      rw [List.length_eq_zero_iff.mp hlen]
      rfl
    | cons n ns ih =>
      intro vs hlen hin
      cases vs with
      | nil => cases hlen
      | cons v vs =>
        have hhead := member?_of_perm hnames hothers hperm (hin (n, v) List.mem_cons_self)
        have htail := ih vs (Nat.succ.inj hlen) fun p hp => hin p (List.mem_cons_of_mem _ hp)
        rw [List.mapM_cons, hhead, htail]
        rfl
  rw [fields?, if_pos hkeys]
  exact hfound names values hlen fun _ h => h

theorem natural?_of_le {limit n : Nat} (h : n ≤ limit) : natural? limit (.natural n) = some n :=
  if_pos h

theorem le_of_natural? {limit n : Nat} {v : JsonValue} (h : natural? limit v = some n) :
    n ≤ limit := by
  unfold natural? at h
  split at h
  · split at h
    next hle => cases h; exact hle
    next => cases h
  · cases h

theorem le_of_orDefault {limit default n : Nat} {v : Option JsonValue}
    (h : orDefault (natural? limit) default v = some n) (hdefault : default ≤ limit) :
    n ≤ limit := by
  cases v with
  | none => cases h; exact hdefault
  | some v => exact le_of_natural? h

/-- An object with written members and others has a text, and the members are found in what is read
from it. -/
theorem ofText?_fields?_of_perm (hnames : names.Nodup) (hlen : values.length = names.length)
    (hvalues : ∀ v ∈ values, v.HasText) (hothers : ∀ m ∈ others, IsOther names m)
    (hperm : members.Perm (membersOf names values ++ others)) :
    ofText? (object members).compact = some (object members) ∧
      fields? names (object members) = some (values.map some) := by
  have hmembers : ∀ m ∈ members, m.1.isSome ∧ m.2.HasText := by
    intro m hm
    rcases List.mem_append.mp (hperm.mem_iff.mp hm) with h | h
    · exact ⟨isSome_of_mem_membersOf h, hvalues _ (List.of_mem_zip h).2⟩
    · obtain ⟨⟨key, hkey, -⟩, htext⟩ := hothers m h
      exact ⟨by rw [hkey]; rfl, htext⟩
  exact ⟨ofText?_compact (.object (fun m hm => (hmembers m hm).1) fun m hm => (hmembers m hm).2),
    fields?_of_perm hnames hlen hothers hperm⟩

end JsonValue

theorem PaddingPolicy.ofName?_name (p : PaddingPolicy) : ofName? p.name = some p := by
  cases p <;> rfl

namespace WriteSettings

variable {c : WriteSettings} {others members : List (Option String × JsonValue)}

/-- The level is a number of 32 bits. -/
def Fits (c : WriteSettings) : Prop := c.compressionLevel ≤ maxUInt32

/-- **Settings for writing are read** from any object that holds their written members and others
besides. -/
theorem ofText?_of_perm (hc : c.Fits)
    (hothers : ∀ m ∈ others, IsOther ["compression_level", "padding"] m)
    (hperm : members.Perm (membersOf ["compression_level", "padding"]
      [.natural c.compressionLevel, .string (some c.padding.name)] ++ others)) :
    ofText? (object members).compact = some c := by
  obtain ⟨htext, hfields⟩ := ofText?_fields?_of_perm (by decide) rfl
    (by simpa using ⟨.natural _, .string _⟩) hothers hperm
  simp [ofText?, htext, hfields, orDefault, natural?_of_le hc, policy?,
    PaddingPolicy.ofName?_name]

/-- Settings that are read fit. -/
theorem fits_of_ofText? {text : String} (h : ofText? text = some c) : c.Fits := by
  simp only [ofText?, Option.bind_eq_bind, Option.bind_eq_some_iff] at h
  obtain ⟨v, -, fields, -, h⟩ := h
  split at h
  · simp only [Option.bind_eq_some_iff] at h
    obtain ⟨n, hn, policy, -, h⟩ := h
    cases h
    exact le_of_orDefault hn (by decide)
  · cases h

/-- Settings read back just if they fit. -/
theorem ofText?_compact_iff : ofText? c.toJson.compact = some c ↔ c.Fits :=
  ⟨fits_of_ofText?, fun hc =>
    ofText?_of_perm hc (show ∀ m ∈ [], IsOther _ m from nofun) (.refl _)⟩

end WriteSettings

namespace ReadSettings

variable {c : ReadSettings} {others members : List (Option String × JsonValue)}

/-- Both lengths are numbers of 64 bits. -/
def Fits (c : ReadSettings) : Prop :=
  c.maxRecordLength ≤ maxUInt64 ∧ c.bufferLength ≤ maxUInt64

/-- **Settings for reading are read** from any object that holds their written members and others
besides. -/
theorem ofText?_of_perm (hc : c.Fits)
    (hothers : ∀ m ∈ others, IsOther ["max_record_len", "buffer_len"] m)
    (hperm : members.Perm (membersOf ["max_record_len", "buffer_len"]
      [.natural c.maxRecordLength, .natural c.bufferLength] ++ others)) :
    ofText? (object members).compact = some c := by
  obtain ⟨htext, hfields⟩ := ofText?_fields?_of_perm (by decide) rfl
    (by simpa using ⟨.natural _, .natural _⟩) hothers hperm
  simp [ofText?, htext, hfields, orDefault, natural?_of_le hc.1, natural?_of_le hc.2]

/-- Settings that are read fit. -/
theorem fits_of_ofText? {text : String} (h : ofText? text = some c) : c.Fits := by
  simp only [ofText?, Option.bind_eq_bind, Option.bind_eq_some_iff] at h
  obtain ⟨v, -, fields, -, h⟩ := h
  split at h
  · simp only [Option.bind_eq_some_iff] at h
    obtain ⟨record, hrecord, buffer, hbuffer, h⟩ := h
    cases h
    exact ⟨le_of_orDefault hrecord (by decide), le_of_orDefault hbuffer (by decide)⟩
  · cases h

/-- Settings read back just if they fit. -/
theorem ofText?_compact_iff : ofText? c.toJson.compact = some c ↔ c.Fits :=
  ⟨fits_of_ofText?, fun hc =>
    ofText?_of_perm hc (show ∀ m ∈ [], IsOther _ m from nofun) (.refl _)⟩

end ReadSettings

namespace BackupCounts

variable {c : BackupCounts} {others members : List (Option String × JsonValue)}

/-- Every count is a number of 64 bits. -/
def Fits (c : BackupCounts) : Prop := ∀ n ∈ c.toList, n ≤ maxUInt64

theorem ofList?_eq_some_iff {counts : List Nat} : ofList? counts = some c ↔ counts = c.toList := by
  constructor
  · intro h
    unfold ofList? at h
    split at h
    · cases h
      rfl
    · cases h
  · rintro rfl
    rfl

/-- Numbers are read if none is too large. -/
theorem mapM_natural? {limit : Nat} {counts : List Nat} (h : ∀ n ∈ counts, n ≤ limit) :
    ((counts.map JsonValue.natural).map some).mapM (fun v => v.bind (natural? limit)) =
      some counts := by
  induction counts with
  | nil => rfl
  | cons n counts ih =>
    obtain ⟨hn, hcounts⟩ := List.forall_mem_cons.mp h
    rw [List.map_cons, List.map_cons, List.mapM_cons, ih hcounts, Option.bind_some,
      natural?_of_le hn]
    rfl

theorem le_of_mapM_natural? {limit : Nat} {values : List (Option JsonValue)} {counts : List Nat}
    (h : values.mapM (fun v => v.bind (natural? limit)) = some counts) :
    ∀ n ∈ counts, n ≤ limit := by
  induction values generalizing counts with
  | nil => cases h; exact nofun
  | cons v values ih =>
    simp only [List.mapM_cons, Option.bind_eq_bind, Option.bind_eq_some_iff] at h
    obtain ⟨n, ⟨w, -, hn⟩, more, hmore, h⟩ := h
    cases h
    exact List.forall_mem_cons.mpr ⟨le_of_natural? hn, ih hmore⟩

/-- **Counts are read** from any object that holds their written members and others besides. -/
theorem ofText?_of_perm (hc : c.Fits) (hothers : ∀ m ∈ others, IsOther names m)
    (hperm : members.Perm (membersOf names (c.toList.map .natural) ++ others)) :
    ofText? (object members).compact = some c := by
  have hvalues : ∀ v ∈ c.toList.map JsonValue.natural, v.HasText := by
    intro v hv
    obtain ⟨n, -, rfl⟩ := List.mem_map.mp hv
    exact .natural n
  obtain ⟨htext, hfields⟩ := ofText?_fields?_of_perm (by decide) rfl hvalues hothers hperm
  have hcounts := mapM_natural? hc
  simp only [ofText?, htext, hfields, hcounts, Option.bind_eq_bind, Option.bind_some]
  exact ofList?_eq_some_iff.mpr rfl

/-- Counts that are read fit. -/
theorem fits_of_ofText? {text : String} (h : ofText? text = some c) : c.Fits := by
  simp only [ofText?, Option.bind_eq_bind, Option.bind_eq_some_iff] at h
  obtain ⟨v, -, fields, -, counts, hcounts, h⟩ := h
  rw [ofList?_eq_some_iff] at h
  subst h
  exact le_of_mapM_natural? hcounts

/-- Counts read back just if they fit. -/
theorem ofText?_compact_iff : ofText? c.toJson.compact = some c ↔ c.Fits :=
  ⟨fits_of_ofText?, fun hc =>
    ofText?_of_perm hc (show ∀ m ∈ [], IsOther _ m from nofun) (by simp [membersOf])⟩

end BackupCounts
end ChatBackup
