import ChatBackup.Bytes
import ChatBackup.Channel.Failure

/-!
# Sources

A source is a state that bytes are read from: one read delivers at most what was asked for, is
interrupted, or fails; delivering nothing when something was asked for is the end. Stages that
transform bytes on their way are sources over the next source, so `Source` is a class on the
state's type. A source announces by `turns` how many more reads can deliver something or be
interrupted, which bounds every loop over it.

`gather` gathers a given number of bytes, `gatherExactly` insists on them, `Limited` is the front
part of a source and `Buffered` fetches from a source in large pieces.
-/

namespace ChatBackup

/-- A state that bytes can be read from. -/
class Source (σ : Type) where
  /-- Ask once for at most so many bytes. -/
  read : σ → Nat → Outcome Bytes × σ
  /-- A bound on the reads to come that deliver something or are interrupted. -/
  turns : σ → Nat
  /-- No more is delivered than was asked for. -/
  read_le : ∀ (s : σ) (n : Nat) (b : Bytes), (read s n).1 = .done b → b.length ≤ n

/-- A source whose read position can be moved to either end. -/
class SeekableSource (σ : Type) extends Source σ where
  /-- Move to the end and tell its position. -/
  toEnd : σ → Except Failure Nat × σ
  /-- Move back to the start. -/
  toStart : σ → Except Failure Unit × σ

/-- What a series of reads brought: the bytes, the failure that cut the series short if there was
one, and the source after it. -/
structure Gathered (σ : Type) where
  got : Bytes
  failure : Option Failure
  source : σ

namespace Source

variable {σ : Type} [Source σ]

/-- One read that is tried again after at most `k` interruptions. -/
def readPast : Nat → σ → Nat → Outcome Bytes × σ
  | 0, s, n => read s n
  | k + 1, s, n =>
    match read s n with
    | (.interrupted, s') => readPast k s' n
    | r => r

/-- One read that sits through interruptions. -/
def readSettled (s : σ) (n : Nat) : Except Failure Bytes × σ :=
  match read s n with
  -- the bound is only worked out where a read has to be tried again
  | (.interrupted, s) =>
    match readPast (turns s) s n with
    | (r, s) => (r.settle, s)
  | (r, s) => (r.settle, s)

/-! ## Gathering -/

/-- Reads until `n` bytes are gathered or the source ends; each round brings a byte at least, so
`fuel ≥ n` always suffices. -/
def gatherRounds : Nat → σ → Nat → Gathered σ
  | 0, s, _ => ⟨[], none, s⟩
  | fuel + 1, s, n =>
    if n = 0 then ⟨[], none, s⟩
    else
      match readSettled s n with
      | (.error e, s') => ⟨[], some e, s'⟩
      | (.ok [], s') => ⟨[], none, s'⟩
      | (.ok b, s') =>
        let more := gatherRounds fuel s' (n - b.length)
        { more with got := b ++ more.got }

/-- Gather `n` bytes; fewer only if the source ends or fails before. -/
def gather (s : σ) (n : Nat) : Gathered σ := gatherRounds n s n

/-- Gather exactly `n` bytes. An earlier end is a failure. -/
def gatherExactly (s : σ) (n : Nat) : Except Failure Bytes × σ :=
  let all := gather s n
  match all.failure with
  | some e => (.error e, all.source)
  | none =>
    if all.got.length < n then (.error .bufferNotFilled, all.source)
    else (.ok all.got, all.source)

/-- The size of a page in which a long string is fetched. -/
def pageSize : Nat := 8192

/-- The size of the first request after a full page, which shows whether more comes at all. -/
def probeSize : Nat := 32

/-- The most that is asked for when `got` bytes of a long string are there: the rest of a page, but
only a probe right after the first one. -/
def pageRequest (got : Nat) : Nat :=
  if got = pageSize then probeSize else pageSize - got % pageSize

/-- Reads `n` bytes more where `got` bytes are there already, a page request at a time. Each round
brings a byte at least, so `fuel ≥ n` always suffices. -/
def gatherPageRounds : Nat → σ → Nat → Nat → Gathered σ
  | 0, s, _, _ => ⟨[], none, s⟩
  | fuel + 1, s, got, n =>
    if n = 0 then ⟨[], none, s⟩
    else
      match readSettled s (min n (pageRequest got)) with
      | (.error e, s') => ⟨[], some e, s'⟩
      | (.ok [], s') => ⟨[], none, s'⟩
      | (.ok b, s') =>
        let more := gatherPageRounds fuel s' (got + b.length) (n - b.length)
        { more with got := b ++ more.got }

/-- Gather `n` bytes page by page. -/
def gatherPages (s : σ) (n : Nat) : Gathered σ := gatherPageRounds n s 0 n

end Source

/-! ## Sources over byte strings and other sources -/

/-- A byte string as a source that delivers all that is asked for. -/
structure ByteSource where
  /-- The bytes not read yet. -/
  rest : Bytes

instance : Source ByteSource where
  read s n := (.done (s.rest.take n), ⟨s.rest.drop n⟩)
  turns s := s.rest.length
  read_le s n b h := by
    simp only [Outcome.done.injEq] at h
    subst h
    simp only [List.length_take]
    omega

/-- The front part of a source: it ends after `left` more bytes. -/
structure Limited (σ : Type) where
  /-- The source the bytes come from. -/
  inner : σ
  /-- How many bytes may still be taken. -/
  left : Nat

namespace Limited

variable {σ : Type} [Source σ]

instance : Source (Limited σ) where
  read s n :=
    if s.left = 0 then (.done [], s)
    else
      match Source.read s.inner (min n s.left) with
      | (.done b, t) => (.done b, ⟨t, s.left - b.length⟩)
      | (.interrupted, t) => (.interrupted, ⟨t, s.left⟩)
      | (.failed e, t) => (.failed e, ⟨t, s.left⟩)
  turns s := Source.turns s.inner
  read_le s n b h := by
    have hle := Source.read_le s.inner (min n s.left)
    split at h
    · cases h; exact Nat.zero_le _
    · split at h
      next heq =>
        cases h
        exact Nat.le_trans (hle _ (by rw [heq])) (Nat.min_le_left _ _)
      next => cases h
      next => cases h

end Limited

/-- A source that is read in pieces of up to `capacity` bytes, kept until they are asked for. -/
structure Buffered (σ : Type) where
  /-- The source the bytes come from. -/
  inner : σ
  /-- The most that is fetched in advance. -/
  capacity : Nat
  /-- Bytes fetched and not yet handed out. -/
  buffer : Bytes := []

namespace Buffered

variable {σ : Type} [Source σ]

/-- Hand out bytes of a full buffer. -/
def take (s : Buffered σ) (n : Nat) : Outcome Bytes × Buffered σ :=
  (.done (s.buffer.take n), { s with buffer := s.buffer.drop n })

/-- Fetch the next piece if nothing is left of the last one. An empty buffer after this means that
the source has ended. -/
def fill (s : Buffered σ) : Outcome Unit × Buffered σ :=
  if s.buffer.isEmpty then
    match Source.read s.inner s.capacity with
    | (.done b, t) => (.done (), { s with inner := t, buffer := b })
    | (.interrupted, t) => (.interrupted, { s with inner := t })
    | (.failed e, t) => (.failed e, { s with inner := t })
  else (.done (), s)

/-- One read: a request as large as the buffer passes an empty buffer by. -/
def readOnce (s : Buffered σ) (n : Nat) : Outcome Bytes × Buffered σ :=
  if s.buffer.isEmpty && s.capacity ≤ n then
    -- the buffer would hold no more than is asked for anyway
    match Source.read s.inner n with
    | (r, t) => (r, { s with inner := t })
  else
    match fill s with
    | (.done (), s') => take s' n
    | (.interrupted, s') => (.interrupted, s')
    | (.failed e, s') => (.failed e, s')

instance : Source (Buffered σ) where
  read := readOnce
  turns s := s.buffer.length + (s.capacity + 1) * Source.turns s.inner
  read_le s n b h := by
    unfold readOnce at h
    split at h
    · exact Source.read_le s.inner n b h
    · split at h
      · simp only [take, Outcome.done.injEq] at h
        subst h
        simp only [List.length_take]
        omega
      · simp at h
      · simp at h

end Buffered
end ChatBackup
