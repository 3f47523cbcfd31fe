import ChatBackup.Proofs.Writing

/-!
# The counts of a writer

While a backup is open its counts tell of records alone. Completing it enters what the stages have
told, and nothing after that changes the counts again:

> `BackupWriter.run_accounts`: the output and the counts of a closed writer are those of completing
> an output that took the records of the calls that succeeded.
-/

namespace ChatBackup

namespace BackupCounts

/-- Counts of records alone: of no later form has anything been seen. -/
structure RecordsOnly (c : BackupCounts) : Prop where
  compressed : c.compressedBytes = 0
  padding : c.paddingBytes = 0
  ciphertext : c.ciphertextBytes = 0
  mac : c.macBytes = 0

theorem recordsOnly_new : RecordsOnly {} := ⟨rfl, rfl, rfl, rfl⟩

variable {c : BackupCounts}

theorem RecordsOnly.countHeader (h : c.RecordsOnly) (n : Nat) : (c.countHeader n).RecordsOnly :=
  ⟨h.compressed, h.padding, h.ciphertext, h.mac⟩

theorem RecordsOnly.countFrame (h : c.RecordsOnly) (n : Nat) : (c.countFrame n).RecordsOnly :=
  ⟨h.compressed, h.padding, h.ciphertext, h.mac⟩

end BackupCounts

namespace BackupWriter

open RecordOutput

variable {δ : Type} [RecordOutput δ] {T F : δ → Bytes → Prop} {w : BackupWriter δ} {p : Bytes}

/-- An open writer has counted records alone; a closed one has the output and the counts that
completing an open one came to. -/
def Accounts (T : δ → Bytes → Prop) (w : BackupWriter δ) (p : Bytes) : Prop :=
  match w.state with
  | .created | .headerWritten | .frameWritten => T w.output p ∧ w.counts.RecordsOnly
  | .closed => ∃ o c, T o p ∧ c.RecordsOnly ∧
      RecordOutput.complete o c = (.ok (), w.counts, w.output)
  | .failed => True

theorem accounts_of_failed (h : w.state = .failed) : Accounts T w p := by
  unfold Accounts
  rw [h]
  exact trivial

theorem Accounts.of_header (hw : Accounts T w p) (hs : w.HasHeader) :
    T w.output p ∧ w.counts.RecordsOnly := by
  unfold Accounts at hw
  rcases hs with hs | hs <;> rw [hs] at hw <;> exact hw

/-- To put a record leaves the later counts at nothing, if to enter it does. -/
theorem put_accounts {α : Type} [Record α] (hO : Outputs T F) (hT : T w.output p)
    {next : WriteProgress} {enter : BackupCounts → Nat → BackupCounts}
    (hnext : next = .headerWritten ∨ next = .frameWritten) (a : α)
    (henter : (enter w.counts (Record.wire a).length).RecordsOnly) :
    ((w.put a next enter).1 = .ok () ∧
      Accounts T (w.put a next enter).2 (p ++ Record.wire a)) ∨
    ∃ e, (w.put a next enter).1 = .error e ∧ (w.put a next enter).2.state = .failed := by
  cases hput : RecordOutput.put w.output (Record.wire a) with
  | mk r o =>
    simp only [put, hput]
    cases r with
    | error e =>
      obtain ⟨f, rfl⟩ := hO.fails (b := Record.wire a) hT (by rw [hput])
      exact Or.inr ⟨.io f, rfl, rfl⟩
    | ok u =>
      refine Or.inl ⟨rfl, ?_⟩
      have hafter := hO.put hT hput
      rcases hnext with rfl | rfl <;> exact ⟨hafter, henter⟩

theorem close_accounts (hT : T w.output p) (hc : w.counts.RecordsOnly) (hs : w.HasHeader) :
    Accounts T w.close.2 p := by
  unfold close
  rw [hs.admitClose]
  cases hcomplete : RecordOutput.complete w.output w.counts with
  | mk r x =>
    cases r with
    | ok u => exact ⟨w.output, w.counts, hT, hc, hcomplete⟩
    | error e => exact accounts_of_failed rfl

theorem call_accounts (hO : Outputs T F) (hw : Accounts T w p) (c : WriterCall) :
    Accounts T (w.call c).2 (p ++ WriterCall.added (c, (w.call c).1)) := by
  cases call_cases w c with
  | refused _ hcall =>
    rw [hcall, WriterCall.added_error, List.append_nil]
    exact hw
  | again _ hcall =>
    rw [hcall, WriterCall.added_close, List.append_nil]
    exact hw
  | header a hs hcall =>
    rw [hcall]
    rw [Accounts, hs] at hw
    rcases put_accounts hO hw.1 (Or.inl rfl) a (hw.2.countHeader _) with ⟨hr, h⟩ | ⟨e, -, hs'⟩
    · rw [hr]
      exact h
    · exact accounts_of_failed hs'
  | frame a hs hcall =>
    rw [hcall]
    obtain ⟨hT, hc⟩ := hw.of_header hs
    rcases put_accounts hO hT (Or.inr rfl) a (hc.countFrame _) with ⟨hr, h⟩ | ⟨e, -, hs'⟩
    · rw [hr]
      exact h
    · exact accounts_of_failed hs'
  | close hs =>
    rw [WriterCall.added_close, List.append_nil]
    obtain ⟨hT, hc⟩ := hw.of_header hs
    exact close_accounts hT hc hs

/-- What the counts and the output of a writer are after any calls. -/
theorem run_accounts (hO : Outputs T F) (calls : List WriterCall) :
    ∀ {w : BackupWriter δ} {p : Bytes}, Accounts T w p →
      Accounts T (w.run calls).2 (p ++ WriterCall.sent (w.run calls).1) := by
  induction calls with
  | nil =>
    intro w p hw
    rw [run_nil, WriterCall.sent, List.flatMap_nil, List.append_nil]
    exact hw
  | cons c calls ih =>
    intro w p hw
    have h := ih (call_accounts hO hw c)
    rw [List.append_assoc] at h
    rw [run_cons, WriterCall.sent, List.flatMap_cons]
    exact h

end BackupWriter
end ChatBackup
