import ChatBackup.Gzip.Member

/-!
# Ways to compress

A `Coder` takes data piece by piece and puts out compressed bytes when it likes to: at once, at a
pause, or not before the end. It may put out no more at a time than there is room for, so that it
may have to hold bytes back and take no data meanwhile.
-/

namespace ChatBackup

/-- What a call on a coder comes to. -/
structure Coded (S : Type) where
  /-- The coder after the call. -/
  state : S
  /-- How many bytes of data were taken, from the front. -/
  taken : Nat
  /-- The compressed bytes that were put out. -/
  out : Bytes

/-- A way to compress. -/
structure Coder where
  /-- A compression on its way. -/
  State : Type
  /-- A compression with nothing taken yet. -/
  start : Gzip.Level → State
  /-- Takes data, with room for so many compressed bytes. -/
  take : State → Nat → Bytes → Coded State
  /-- Closes a segment, with room for so many compressed bytes. -/
  pause : State → Nat → State × Bytes
  /-- All compressed bytes that are still to come if no more data does. -/
  ending : State → Bytes
  /-- How many bytes were held back for want of room. -/
  held : State → Nat
  /-- No more is taken than there is. -/
  taken_le : ∀ (s : State) (room : Nat) (b : Bytes), (take s room b).taken ≤ b.length

end ChatBackup
