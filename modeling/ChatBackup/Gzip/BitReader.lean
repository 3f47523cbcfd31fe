import ChatBackup.Gzip.Bits

/-!
# Reading items off bits

A `BitReader` takes one item off the front of a string of bits, unless the bits end inside it or
break the rules of the format. Every reader carries two facts: what it leaves is no longer than
what it was given, and whole bytes that arrive later change nothing about an item that is already
there. Readers are put together with `do`, which keeps both facts.
-/

namespace ChatBackup

/-- What reading an item came to. -/
inductive Reading (α : Type) where
  /-- The item and the bits after it. -/
  | done (value : α) (rest : Bits)
  /-- The bits end inside the item. -/
  | starved
  /-- No continuation of the bits is an item. -/
  | corrupt
  deriving DecidableEq, Repr

/-- The same reading in front of more bits. -/
def Reading.append {α : Type} (more : Bits) : Reading α → Reading α
  | done a rest => done a (rest ++ more)
  | starved => starved
  | corrupt => corrupt

/-- A way to take an item off the front of bits. -/
structure BitReader (α : Type) where
  /-- Takes the item off. -/
  run : Bits → Reading α
  /-- Nothing is added to the bits. -/
  length_le : ∀ {bits : Bits} {a : α} {rest : Bits}, run bits = .done a rest →
    rest.length ≤ bits.length
  /-- What arrives later changes nothing. -/
  run_append : ∀ (bits more : Bits), more.length % 8 = 0 → run bits ≠ .starved →
    run (bits ++ more) = (run bits).append more

namespace BitReader

variable {α β : Type}

/-- Takes nothing. -/
def give (a : α) : BitReader α where
  run bits := .done a bits
  length_le h := by cases h; exact Nat.le_refl _
  run_append _ _ _ _ := rfl

/-- One item after the other, where the first decides about the second. -/
def andThen (p : BitReader α) (f : α → BitReader β) : BitReader β where
  run bits :=
    match p.run bits with
    | .done a rest => (f a).run rest
    | .starved => .starved
    | .corrupt => .corrupt
  length_le {bits b rest} h := by
    split at h
    next a r hp => exact Nat.le_trans ((f a).length_le h) (p.length_le hp)
    next => cases h
    next => cases h
  run_append bits more hm h := by
    split at h
    next a r hp =>
      have := p.run_append bits more hm (by simp [hp])
      simp only [this, hp, Reading.append]
      exact (f a).run_append r more hm h
    next => exact absurd rfl h
    next hp =>
      have := p.run_append bits more hm (by simp [hp])
      simp only [this, hp, Reading.append]

instance : Monad BitReader where
  pure := give
  bind := andThen

/-- Refuses the bits. -/
def refuse : BitReader α where
  run _ := .corrupt
  length_le h := by cases h
  run_append _ _ _ _ := rfl

/-- Refuses the bits unless a condition holds. -/
def ensure (condition : Bool) : BitReader Unit := if condition then give () else refuse

/-- Takes one bit. -/
def bit : BitReader Bool where
  run
    | [] => .starved
    | b :: rest => .done b rest
  length_le {bits a rest} h := by
    cases bits with
    | nil => cases h
    | cons b r => cases h; simp
  run_append bits more _ h := by
    cases bits with
    | nil => exact absurd rfl h
    | cons b r => rfl

/-- Takes a number of the given width. -/
def number : Nat → BitReader Nat
  | 0 => give 0
  | width + 1 => bit.andThen fun b => (number width).andThen fun n =>
    give ((if b then 1 else 0) + 2 * n)

/-- Takes the eight bits of a byte. -/
def byte : BitReader UInt8 where
  run
    | b0 :: b1 :: b2 :: b3 :: b4 :: b5 :: b6 :: b7 :: rest =>
      .done (Bits.byte b0 b1 b2 b3 b4 b5 b6 b7) rest
    | _ => .starved
  length_le {bits a rest} h := by
    split at h
    next => cases h; simp only [List.length_cons]; omega
    next => cases h
  run_append bits more _ h := by
    split at h
    next => rfl
    next => exact absurd rfl h

/-- Skips to the next byte. Bits arrive in whole bytes, so the number of bits left tells how far
that is. -/
def align : BitReader Unit where
  run bits := .done () (bits.drop (bits.length % 8))
  length_le h := by cases h; simp
  run_append bits more hm _ := by
    have h : (bits ++ more).length % 8 = bits.length % 8 := by
      simp only [List.length_append]; omega
    simp only [h, Reading.append, Reading.done.injEq, true_and]
    exact List.drop_append_of_le_length (Nat.mod_le _ _)

/-- Takes a number of items of one kind. -/
def times (p : BitReader α) : Nat → BitReader (List α)
  | 0 => give []
  | n + 1 => p.andThen fun a => (times p n).andThen fun as => give (a :: as)

/-- What begins with a bit takes at least that bit. -/
theorem length_lt_of_bit {f : Bool → BitReader β} {bits : Bits} {b : β} {rest : Bits}
    (h : (bit.andThen f).run bits = .done b rest) : rest.length < bits.length := by
  cases bits with
  | nil => cases h
  | cons x r => exact Nat.lt_succ_of_le ((f x).length_le h)

/-- What goes on after taking at least a bit has taken at least a bit. -/
theorem length_lt_of_andThen {p : BitReader α} {f : α → BitReader β} {bits : Bits} {b : β}
    {rest : Bits}
    (hp : ∀ {a r}, p.run bits = .done a r → r.length < bits.length)
    (h : (p.andThen f).run bits = .done b rest) : rest.length < bits.length := by
  simp only [andThen] at h
  split at h
  next a r hr => exact Nat.lt_of_le_of_lt ((f a).length_le h) (hp hr)
  next => cases h
  next => cases h

end BitReader
end ChatBackup
