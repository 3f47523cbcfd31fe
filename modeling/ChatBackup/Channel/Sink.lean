import ChatBackup.Bytes
import ChatBackup.Channel.Failure

/-!
# Sinks

A sink is a state that takes bytes: one write accepts some front part of what it is offered, is
interrupted, or fails. Stages that transform bytes on their way are sinks over the next sink, so
`Sink` is a class on the state's type. `writeAll` keeps writing until everything is accepted; it
sits through interruptions, at most as many in a row as the sink announces by `patience`.

The main statements: `writeAll_nil` and `writeAll_eq`, one step of it.
-/

namespace ChatBackup

/-- A state that bytes can be written to. -/
class Sink (σ : Type) where
  /-- Offer bytes once; the number accepted counts from the front. -/
  write : σ → Bytes → Outcome Nat × σ
  /-- Push everything accepted so far to its destination. -/
  flush : σ → Except Failure Unit × σ
  /-- A bound on the interruptions in a row that a writer has to sit through. -/
  patience : σ → Nat
  /-- No more is accepted than was offered. -/
  write_le : ∀ (s : σ) (b : Bytes) (n : Nat), (write s b).1 = .done n → n ≤ b.length

/-- A sink that takes one closing string apart from all else. -/
class AppendSink (σ : Type) extends Sink σ where
  /-- Add bytes after everything written so far. -/
  append : σ → Bytes → Except Failure Unit × σ

namespace Sink

variable {σ : Type} [Sink σ]

/-- One write that is tried again after at most `k` interruptions. -/
def writePast : Nat → σ → Bytes → Outcome Nat × σ
  | 0, s, b => write s b
  | k + 1, s, b =>
    match write s b with
    | (.interrupted, s') => writePast k s' b
    | r => r

/-- Writes until nothing is left; each round accepts a byte at least, so `fuel ≥ b.length`
always suffices. -/
def writeRounds : Nat → σ → Bytes → Except Failure Unit × σ
  | 0, s, _ => (.ok (), s)
  | fuel + 1, s, b =>
    if b.isEmpty then (.ok (), s)
    else
      match writePast (patience s) s b with
      -- to offer the same bytes once more would not help
      | (.done 0, s') => (.error .bufferNotWritten, s')
      | (.done n, s') => writeRounds fuel s' (b.drop n)
      | (.interrupted, s') => (.error .interrupted, s')
      | (.failed e, s') => (.error e, s')

/-- Write the whole string. A sink that accepts nothing is a failure. -/
def writeAll (s : σ) (b : Bytes) : Except Failure Unit × σ := writeRounds b.length s b

/-- The size of the chunks in which zeros are written. -/
def zeroChunk : Nat := 1024

/-- Writes `count` zeros in chunks; `fuel ≥ count` always suffices. -/
def fillZeroRounds : Nat → σ → Nat → Except Failure Unit × σ
  | 0, s, _ => (.ok (), s)
  | fuel + 1, s, count =>
    if count = 0 then (.ok (), s)
    else
      match writeAll s (List.replicate (min count zeroChunk) 0) with
      | (.ok (), s') => fillZeroRounds fuel s' (count - min count zeroChunk)
      | (.error e, s') => (.error e, s')

/-- Write `count` zero bytes. -/
def fillZeros (s : σ) (count : Nat) : Except Failure Unit × σ := fillZeroRounds count s count

/-! ## Laws of writing everything -/

@[simp] theorem writeAll_nil (s : σ) : writeAll s [] = (.ok (), s) := rfl

/-- More rounds than bytes change nothing. -/
theorem writeRounds_congr : ∀ (f g : Nat) (s : σ) (b : Bytes), b.length ≤ f → b.length ≤ g →
    writeRounds f s b = writeRounds g s b
  | 0, 0, _, _, _, _ => rfl
  | 0, _ + 1, _, [], _, _ => rfl
  | _ + 1, 0, _, [], _, _ => rfl
  | _ + 1, _ + 1, _, [], _, _ => rfl
  | f + 1, g + 1, s, x :: r, hf, hg => by
    simp only [writeRounds, List.isEmpty_cons, Bool.false_eq_true, if_false]
    split
    next => rfl
    next n s' hn _ =>
      have hlen : ((x :: r).drop n).length ≤ r.length := by
        cases n with
        | zero => exact absurd rfl hn
        | succ n => simp
      rw [List.length_cons] at hf hg
      exact writeRounds_congr f g s' _ (Nat.le_trans hlen (Nat.le_of_succ_le_succ hf))
        (Nat.le_trans hlen (Nat.le_of_succ_le_succ hg))
    next => rfl
    next => rfl

/-- One round of `writeAll`. -/
theorem writeAll_eq (s : σ) (b : Bytes) (hb : b ≠ []) :
    writeAll s b =
      match writePast (patience s) s b with
      | (.done 0, s') => (.error .bufferNotWritten, s')
      | (.done n, s') => writeAll s' (b.drop n)
      | (.interrupted, s') => (.error .interrupted, s')
      | (.failed e, s') => (.error e, s') := by
  obtain ⟨x, r, rfl⟩ := List.exists_cons_of_ne_nil hb
  simp only [writeAll, writeRounds, List.length_cons, List.isEmpty_cons, Bool.false_eq_true,
    if_false]
  split
  next => rfl
  next n s' hn _ =>
    have hlen : ((x :: r).drop n).length ≤ r.length := by
      cases n with
      | zero => exact absurd rfl hn
      | succ n => simp
    exact writeRounds_congr _ _ _ _ hlen (Nat.le_refl _)
  next => rfl
  next => rfl

end Sink

/-! ## Counting on the way -/

/-- A sink that counts the bytes accepted on their way through. -/
structure Counted (σ : Type) where
  /-- The sink the bytes go to. -/
  inner : σ
  /-- How many bytes it accepted. -/
  count : Nat := 0

namespace Counted

variable {σ : Type} [Sink σ]

instance : Sink (Counted σ) where
  write s b :=
    match Sink.write s.inner b with
    | (.done n, t) => (.done n, ⟨t, s.count + n⟩)
    | (.interrupted, t) => (.interrupted, ⟨t, s.count⟩)
    | (.failed e, t) => (.failed e, ⟨t, s.count⟩)
  flush s :=
    match Sink.flush s.inner with
    | (r, t) => (r, ⟨t, s.count⟩)
  patience s := Sink.patience s.inner
  write_le s b n h := by
    have := Sink.write_le s.inner b n
    revert h
    split <;> rename_i heq <;> simp_all

end Counted
end ChatBackup
