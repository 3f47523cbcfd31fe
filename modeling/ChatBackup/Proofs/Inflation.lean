import ChatBackup.Gzip.Inflate

/-!
# Runs of an inflater

`Inflater.advance` is many small moves. This file takes it apart into single ones (`step`) and tells
what they come to as a relation: `Inflates i d j` says that an inflater gets from `i` to `j` and
puts out `d` on the way. The relation knows nothing of room for output or of input that is still to
come, so it can say what compressed data stands for, and yet every call of `advance` is a run of it:

> `advance_inflates`: what `advance` does is a run, as far as room and input allow.
> `Inflates.split`: a run that gets on to the end passes through every state that is reached with a
> part of the input, and the rest of it is a run from there.
-/

namespace ChatBackup

namespace Inflater

/-- One move of an inflater: to another state, there with a byte put out, or none at all. -/
inductive Step where
  | silent (i : Inflater)
  | byte (x : UInt8) (i : Inflater)
  | halt (h : InflateHalt)

/-- A move that depends on the next item of the input. -/
def Step.ofReading {α : Type} (f : α → Bits → Step) : Reading α → Step
  | .done a rest => f a rest
  | .starved => .halt .starved
  | .corrupt => .halt .corrupt

/-- The move from a state if there is room for output. -/
def step (i : Inflater) : Step :=
  match i.phase with
  | .finished => .halt .finished
  | .start =>
    .ofReading (fun (final, start) rest =>
      .silent { i with phase := insideBlock final start, final, bits := rest })
      (Block.startReader.run i.bits)
  | .item codes =>
    .ofReading (fun item rest =>
      .silent { i with phase := afterItem i.final codes item, bits := rest })
      ((Block.itemReader codes).run i.bits)
  | .stored more =>
    .ofReading (fun byte rest => .byte byte { i with
        phase := afterStored i.final more, out := i.out.push byte, bits := rest })
      (BitReader.byte.run i.bits)
  | .literal byte codes => .byte byte { i with phase := .item codes, out := i.out.push byte }
  | .copy distance more codes =>
    .byte (back i.out distance) { i with
      phase := afterCopied distance more codes, out := i.out.push (back i.out distance) }

theorem step_start {i : Inflater} {final : Bool} {start : BlockStart} {rest : Bits}
    (hp : i.phase = .start) (hr : Block.startReader.run i.bits = .done (final, start) rest) :
    i.step = .silent { i with phase := insideBlock final start, final, bits := rest } := by
  unfold step
  rw [hp]
  simp only [hr, Step.ofReading]

theorem step_stored {i : Inflater} {more : Nat} {x : UInt8} {rest : Bits}
    (hp : i.phase = .stored more) (hr : BitReader.byte.run i.bits = .done x rest) :
    i.step = .byte x { i with
      phase := afterStored i.final more, out := i.out.push x, bits := rest } := by
  unfold step
  rw [hp]
  simp only [hr, Step.ofReading]

/-- Whether the next move puts out a byte. -/
def putsOut : InflatePhase → Bool
  | .stored _ | .literal _ _ | .copy _ _ _ => true
  | _ => false

/-- `advance` makes one move and goes on, unless there is no room for it. -/
theorem advance_eq (i : Inflater) (room : Nat) :
    i.advance room =
      if putsOut i.phase = true ∧ room = 0 then (i, .full)
      else
        match i.step with
        | .silent j => j.advance room
        | .byte _ j => j.advance (room - 1)
        | .halt h => (i, h) := by
  rw [advance]
  unfold step
  cases hp : i.phase with
  | finished => simp only [putsOut, Bool.false_eq_true, false_and, if_false]
  | start =>
    simp only [putsOut, Bool.false_eq_true, false_and, if_false]
    split <;> rename_i h <;> rw [h] <;> rfl
  | item codes =>
    simp only [putsOut, Bool.false_eq_true, false_and, if_false]
    split <;> rename_i h <;> rw [h] <;> rfl
  | stored more =>
    simp only [putsOut, true_and]
    split
    · rfl
    · split <;> rename_i h <;> rw [h] <;> rfl
  | literal byte codes => simp only [putsOut, true_and]
  | copy distance more codes => simp only [putsOut, true_and]

/-! ## What a move does -/

/-- The state and the output of a move, as far as there is one. -/
def Step.map (f : Inflater → Inflater) : Step → Step
  | silent i => silent (f i)
  | byte x i => byte x (f i)
  | halt h => halt h

theorem feed_nil (i : Inflater) : i.feed [] = i := by
  unfold feed
  rw [Bits.ofBytes_nil, List.append_nil]

theorem feed_append (i : Inflater) (a b : Bytes) : i.feed (a ++ b) = (i.feed a).feed b := by
  unfold feed
  rw [Bits.ofBytes_append, List.append_assoc]

theorem Step.ofReading_append {α : Type} {p : BitReader α} {bits more : Bits}
    {f g : α → Bits → Step} {k : Inflater → Inflater} (hmore : more.length % 8 = 0)
    (hg : ∀ a rest, g a (rest ++ more) = (f a rest).map k)
    (h : Step.ofReading f (p.run bits) ≠ .halt .starved) :
    Step.ofReading g (p.run (bits ++ more)) = (Step.ofReading f (p.run bits)).map k := by
  have hrun := p.run_append bits more hmore
  cases hr : p.run bits with
  | done a rest =>
    rw [hr] at hrun
    rw [hrun (by simp)]
    exact hg a rest
  | starved =>
    rw [hr] at h
    exact absurd rfl h
  | corrupt =>
    rw [hr] at hrun
    rw [hrun (by simp)]
    rfl

/-- Input that arrives later changes nothing about a move that can be made already. -/
theorem step_feed {i : Inflater} (b : Bytes) (h : i.step ≠ .halt .starved) :
    (i.feed b).step = i.step.map (·.feed b) := by
  have hwhole : (Bits.ofBytes b).length % 8 = 0 := by
    rw [Bits.length_ofBytes]
    exact Nat.mul_mod_right 8 _
  unfold step feed at *
  cases hp : i.phase with
  | finished => rfl
  | literal byte codes => rfl
  | copy distance more codes => rfl
  | start =>
    rw [hp] at h
    exact Step.ofReading_append hwhole (fun _ _ => rfl) h
  | item codes =>
    rw [hp] at h
    exact Step.ofReading_append hwhole (fun _ _ => rfl) h
  | stored more =>
    rw [hp] at h
    exact Step.ofReading_append hwhole (fun _ _ => rfl) h

/-- A move without output reads the start of a block or one of its items. -/
theorem silent_cases {i j : Inflater} (h : i.step = .silent j) :
    (∃ final start rest, i.phase = .start ∧
      Block.startReader.run i.bits = .done (final, start) rest ∧
      j = { i with phase := insideBlock final start, final, bits := rest }) ∨
    ∃ codes item rest, i.phase = .item codes ∧
      (Block.itemReader codes).run i.bits = .done item rest ∧
      j = { i with phase := afterItem i.final codes item, bits := rest } := by
  unfold step at h
  cases hp : i.phase with
  | start =>
    rw [hp] at h
    simp only at h
    cases hr : Block.startReader.run i.bits with
    | done a rest =>
      rw [hr] at h
      cases h
      exact Or.inl ⟨a.1, a.2, rest, rfl, rfl, rfl⟩
    | starved => rw [hr] at h; cases h
    | corrupt => rw [hr] at h; cases h
  | item codes =>
    rw [hp] at h
    simp only at h
    cases hr : (Block.itemReader codes).run i.bits with
    | done item rest =>
      rw [hr] at h
      cases h
      exact Or.inr ⟨codes, item, rest, rfl, hr, rfl⟩
    | starved => rw [hr] at h; cases h
    | corrupt => rw [hr] at h; cases h
  | stored more =>
    rw [hp] at h
    simp only at h
    cases hr : BitReader.byte.run i.bits <;> rw [hr] at h <;> cases h
  | finished => rw [hp] at h; cases h
  | literal byte codes => rw [hp] at h; cases h
  | copy distance more codes => rw [hp] at h; cases h

/-- A move with output puts out a byte of the input, one that was read before, or one that is
repeated. -/
theorem byte_cases {i j : Inflater} {x : UInt8} (h : i.step = .byte x j) :
    (∃ more rest, i.phase = .stored more ∧ BitReader.byte.run i.bits = .done x rest ∧
      j = { i with phase := afterStored i.final more, out := i.out.push x, bits := rest }) ∨
    (∃ codes, i.phase = .literal x codes ∧
      j = { i with phase := .item codes, out := i.out.push x }) ∨
    ∃ distance more codes, i.phase = .copy distance more codes ∧ x = back i.out distance ∧
      j = { i with phase := afterCopied distance more codes, out := i.out.push x } := by
  unfold step at h
  cases hp : i.phase with
  | stored more =>
    rw [hp] at h
    simp only at h
    cases hr : BitReader.byte.run i.bits with
    | done byte rest =>
      rw [hr] at h
      cases h
      exact Or.inl ⟨more, rest, rfl, rfl, rfl⟩
    | starved => rw [hr] at h; cases h
    | corrupt => rw [hr] at h; cases h
  | literal byte codes =>
    rw [hp] at h
    cases h
    exact Or.inr (Or.inl ⟨codes, rfl, rfl⟩)
  | copy distance more codes =>
    rw [hp] at h
    cases h
    exact Or.inr (Or.inr ⟨distance, more, codes, rfl, rfl, rfl⟩)
  | start =>
    rw [hp] at h
    simp only at h
    cases hr : Block.startReader.run i.bits <;> rw [hr] at h <;> cases h
  | item codes =>
    rw [hp] at h
    simp only at h
    cases hr : (Block.itemReader codes).run i.bits <;> rw [hr] at h <;> cases h
  | finished => rw [hp] at h; cases h

/-- Only a block that is not the last one leads to another block. -/
theorem afterBlock_start {final : Bool} (h : afterBlock final = .start) : final = false := by
  cases final with
  | false => rfl
  | true => cases h

/-- A move without output takes something of the input. -/
theorem step_silent {i j : Inflater} (h : i.step = .silent j) :
    j.out = i.out ∧ j.bits.length < i.bits.length ∧ putsOut i.phase = false ∧
      (j.phase = .start → j.final = false) := by
  rcases silent_cases h with ⟨final, start, rest, hp, hrun, rfl⟩ |
    ⟨codes, item, rest, hp, hrun, rfl⟩
  · rw [hp]
    refine ⟨rfl, Block.length_lt_of_start hrun, rfl, ?_⟩
    intro hs
    cases start with
    | coded codes => cases hs
    | stored length =>
      cases length with
      | zero => exact afterBlock_start hs
      | succ more => cases hs
  · rw [hp]
    refine ⟨rfl, Block.length_lt_of_item hrun, rfl, ?_⟩
    intro hs
    cases item with
    | literal byte => cases hs
    | copy distance length => cases length <;> cases hs
    | endOfBlock => exact afterBlock_start hs

/-- A move with output puts it behind the other one. -/
theorem step_byte {i j : Inflater} {x : UInt8} (h : i.step = .byte x j) :
    j.out = i.out.push x ∧ j.bits.length ≤ i.bits.length ∧ putsOut i.phase = true ∧
      (j.phase = .start → j.final = false) := by
  rcases byte_cases h with ⟨more, rest, hp, hrun, rfl⟩ | ⟨codes, hp, rfl⟩ |
    ⟨distance, more, codes, hp, -, rfl⟩
  · rw [hp]
    refine ⟨rfl, BitReader.byte.length_le hrun, rfl, ?_⟩
    intro hs
    cases more with
    | zero => exact afterBlock_start hs
    | succ more => cases hs
  · rw [hp]
    exact ⟨rfl, Nat.le_refl _, rfl, fun hs => nomatch hs⟩
  · rw [hp]
    refine ⟨rfl, Nat.le_refl _, rfl, ?_⟩
    intro hs
    cases more <;> cases hs

theorem step_halt {i : Inflater} {h : InflateHalt} (hi : i.step = .halt h) :
    h ≠ .full ∧ (h = .finished ↔ i.phase = .finished) := by
  have ofReading : ∀ {α : Type} {f : α → Bits → Step} {r : Reading α},
      Step.ofReading f r = .halt h → (∀ a rest h, f a rest ≠ .halt h) →
        h ≠ .full ∧ h ≠ .finished := by
    intro α f r hr hf
    cases r with
    | done a rest => exact absurd hr (hf a rest h)
    | starved => cases hr; exact ⟨by simp, by simp⟩
    | corrupt => cases hr; exact ⟨by simp, by simp⟩
  unfold step at hi
  cases hp : i.phase with
  | finished => rw [hp] at hi; cases hi; exact ⟨by simp, by simp⟩
  | start =>
    rw [hp] at hi
    obtain ⟨h₁, h₂⟩ := ofReading hi fun _ _ _ => by simp
    exact ⟨h₁, by simp [h₂]⟩
  | item codes =>
    rw [hp] at hi
    obtain ⟨h₁, h₂⟩ := ofReading hi fun _ _ _ => by simp
    exact ⟨h₁, by simp [h₂]⟩
  | stored more =>
    rw [hp] at hi
    obtain ⟨h₁, h₂⟩ := ofReading hi fun _ _ _ => by simp
    exact ⟨h₁, by simp [h₂]⟩
  | literal byte codes => rw [hp] at hi; cases hi
  | copy distance more codes => rw [hp] at hi; cases hi

/-! ## Runs -/

/-- An inflater gets from one state to another and puts out the bytes on the way. -/
inductive Inflates : Inflater → Bytes → Inflater → Prop where
  | refl (i : Inflater) : Inflates i [] i
  | silent {i j k : Inflater} {d : Bytes} : i.step = .silent j → Inflates j d k → Inflates i d k
  | byte {i j k : Inflater} {x : UInt8} {d : Bytes} :
    i.step = .byte x j → Inflates j d k → Inflates i (x :: d) k

namespace Inflates

variable {i j k : Inflater} {d e : Bytes}

theorem trans (h : Inflates i d j) (h' : Inflates j e k) : Inflates i (d ++ e) k := by
  induction h with
  | refl => exact h'
  | silent hs _ ih => exact .silent hs (ih h')
  | byte hs _ ih => exact .byte hs (ih h')

/-- The output is what was put out before and on the way. -/
theorem out (h : Inflates i d j) : j.out.toList = i.out.toList ++ d := by
  induction h with
  | refl => rw [List.append_nil]
  | silent hs _ ih => rw [ih, (step_silent hs).1]
  | byte hs _ ih => rw [ih, (step_byte hs).1, Array.toList_push, List.append_assoc]; rfl

/-- A run does not depend on what arrives after the input that it takes. -/
theorem feed (h : Inflates i d j) (b : Bytes) : Inflates (i.feed b) d (j.feed b) := by
  induction h with
  | refl => exact .refl _
  | silent hs _ ih =>
    have h := step_feed b (by rw [hs]; simp)
    rw [hs] at h
    exact .silent h ih
  | byte hs _ ih =>
    have h := step_feed b (by rw [hs]; simp)
    rw [hs] at h
    exact .byte h ih

/-- Before a block it is always noted that more blocks come. -/
theorem final (h : Inflates i d j) (hi : i.phase = .start → i.final = false) :
    j.phase = .start → j.final = false := by
  induction h with
  | refl => exact hi
  | silent hs _ ih => exact ih (step_silent hs).2.2.2
  | byte hs _ ih => exact ih (step_byte hs).2.2.2

/-- Nothing comes after a halt. -/
theorem of_halt {h : InflateHalt} (hi : i.step = .halt h) (hrun : Inflates i d j) :
    d = [] ∧ j = i := by
  cases hrun with
  | refl => exact ⟨rfl, rfl⟩
  | silent hs => rw [hi] at hs; cases hs
  | byte hs => rw [hi] at hs; cases hs

/-- Of two runs from one state one goes on from the other. -/
theorem split (h : Inflates i d j) (h' : Inflates i e k) :
    (∃ d', d = e ++ d' ∧ Inflates k d' j) ∨ ∃ e', e = d ++ e' ∧ Inflates j e' k := by
  induction h' generalizing d with
  | refl => exact Or.inl ⟨d, rfl, h⟩
  | silent hs hrun ih =>
    cases h with
    | refl => exact Or.inr ⟨_, rfl, .silent hs hrun⟩
    | silent hs' h =>
      rw [hs] at hs'
      cases hs'
      exact ih h
    | byte hs' => rw [hs] at hs'; cases hs'
  | byte hs hrun ih =>
    cases h with
    | refl => exact Or.inr ⟨_, rfl, .byte hs hrun⟩
    | silent hs' => rw [hs] at hs'; cases hs'
    | byte hs' h =>
      rw [hs] at hs'
      cases hs'
      rcases ih h with ⟨d', rfl, hd⟩ | ⟨e', rfl, he⟩
      · exact Or.inl ⟨d', rfl, hd⟩
      · exact Or.inr ⟨e', rfl, he⟩

end Inflates

theorem step_of_finished {i : Inflater} (h : i.phase = .finished) : i.step = .halt .finished := by
  unfold step
  rw [h]

/-- What `advance` does is a run. It stops for want of room only when the room is used up, and
otherwise because no move is possible. -/
theorem advance_inflates (i : Inflater) (room : Nat) :
    ∃ d, Inflates i d (i.advance room).1 ∧ d.length ≤ room ∧
      (((i.advance room).2 = .full ∧ d.length = room) ∨
        (i.advance room).1.step = .halt (i.advance room).2) := by
  induction hm : i.bits.length + room using Nat.strongRecOn generalizing i room with
  | ind m ih =>
    rw [advance_eq]
    split
    next hfull =>
      exact ⟨[], .refl _, Nat.zero_le _, Or.inl ⟨rfl, hfull.2.symm⟩⟩
    next hroom =>
      cases hs : i.step with
      | silent j =>
        obtain ⟨d, hrun, hlen, hstop⟩ := ih (j.bits.length + room)
          (by have := (step_silent hs).2.1; omega) j room rfl
        exact ⟨d, .silent hs hrun, hlen, hstop⟩
      | byte x j =>
        obtain ⟨-, hbits, hputs, -⟩ := step_byte hs
        have hpos : room ≠ 0 := fun h => hroom ⟨hputs, h⟩
        obtain ⟨d, hrun, hlen, hstop⟩ := ih (j.bits.length + (room - 1)) (by omega) j (room - 1) rfl
        refine ⟨x :: d, .byte hs hrun, ?_, ?_⟩
        · rw [List.length_cons]
          omega
        · rcases hstop with ⟨hfull, hd⟩ | hhalt
          · refine Or.inl ⟨hfull, ?_⟩
            rw [List.length_cons]
            omega
          · exact Or.inr hhalt
      | halt h => exact ⟨[], .refl _, Nat.zero_le _, Or.inr hs⟩

end Inflater
end ChatBackup
