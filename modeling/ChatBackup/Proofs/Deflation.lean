import ChatBackup.Proofs.Inflation
import ChatBackup.Proofs.Words

/-!
# What compressed data stands for

`Deflate.Decodes` says of compressed bytes which data an inflater makes of them that has put out
some `history` before: it gets to the beginning of another block, or to the end.

> `storedSegment_decodes`: stored blocks stand for their data, after any history.

For a single stored block this is its format (`storedBlock_decodes`). Blocks are put together by
`Decodes.append`.
-/

namespace ChatBackup

namespace Deflate

open Inflater

/-! ## Decoding -/

/-- An inflater that has put out `history` makes the data of compressed bytes. It stands before
another block then, or, if they are the last ones, at the end, with no more than a part of a byte
left over. -/
def Decodes (final : Bool) (history : Array UInt8) (d data : Bytes) : Prop :=
  ∃ j : Inflater, Inflates { out := history, bits := Bits.ofBytes d } data j ∧
    if final then j.phase = .finished ∧ j.bits.length < 8
    else j = { out := history ++ data.toArray }

theorem decodes_nil (history : Array UInt8) : Decodes false history [] [] := by
  refine ⟨_, .refl _, ?_⟩
  rw [if_neg (by simp)]
  simp

/-- Compressed bytes that lead to another block are followed by others. -/
theorem Decodes.append {final : Bool} {history : Array UInt8} {d e x y : Bytes}
    (hd : Decodes false history d x) (he : Decodes final (history ++ x.toArray) e y) :
    Decodes final history (d ++ e) (x ++ y) := by
  obtain ⟨j, hj, hend⟩ := hd
  obtain ⟨k, hk, hlast⟩ := he
  rw [if_neg (by simp)] at hend
  subst hend
  refine ⟨k, ?_, ?_⟩
  · have hfeed := hj.feed e
    simp only [Inflater.feed, List.nil_append, ← Bits.ofBytes_append] at hfeed
    exact hfeed.trans hk
  · split
    next hfinal =>
      rw [if_pos hfinal] at hlast
      exact hlast
    next hfinal =>
      rw [if_neg hfinal] at hlast
      rw [hlast]
      simp

/-! ## Stored blocks -/

theorem ofByte_final (final : Bool) :
    Bits.ofByte (if final then 1 else 0) = final :: List.replicate 7 false := by
  cases final <;> rfl

/-- The beginning of a stored block, with any bits up to the next byte. -/
theorem run_storedStart (final : Bool) {skipped : Bits} (hs : skipped.length < 8) {b : Bytes}
    (h : b.length ≤ 0xffff) :
    Block.startReader.run (final :: false :: false :: (skipped ++ (Bits.ofNat 16 b.length ++
        (Bits.ofNat 16 (0xffff - b.length) ++ Bits.ofBytes b)))) =
      .done (final, .stored b.length) (Bits.ofBytes b) := by
  have hwhole : (Bits.ofNat 16 b.length ++
      (Bits.ofNat 16 (0xffff - b.length) ++ Bits.ofBytes b)).length % 8 = 0 := by
    simp only [List.length_append, Bits.length_ofNat, Bits.length_ofBytes]
    omega
  have hensure : b.length + (0xffff - b.length) == 0xffff := by
    rw [beq_iff_eq]
    omega
  have hstored : Block.storedReader.run (skipped ++ (Bits.ofNat 16 b.length ++
      (Bits.ofNat 16 (0xffff - b.length) ++ Bits.ofBytes b))) =
      .done b.length (Bits.ofBytes b) := by
    rw [Block.storedReader, BitReader.run_bind (BitReader.run_align hs hwhole),
      BitReader.run_bind (BitReader.reads_number (by omega) _),
      BitReader.run_bind (BitReader.reads_number (by omega) _)]
    exact BitReader.run_bind (BitReader.reads_ensure hensure _)
  rw [Block.startReader, BitReader.run_andThen (a := final) rfl, BitReader.run_bind (a := 0) rfl]
  exact BitReader.run_bind hstored

/-- The beginning of a stored block. -/
theorem run_startReader (final : Bool) {b : Bytes} (h : b.length ≤ 0xffff) :
    Block.startReader.run (Bits.ofBytes (storedBlock final b)) =
      .done (final, .stored b.length) (Bits.ofBytes b) := by
  have hbits : Bits.ofBytes (storedBlock final b) = final :: false :: false ::
      (List.replicate 5 false ++ (Bits.ofNat 16 b.length ++
        (Bits.ofNat 16 (0xffff - b.length) ++ Bits.ofBytes b))) := by
    rw [storedBlock, List.cons_append, List.cons_append, Bits.ofBytes_cons, ofByte_final,
      Bits.ofBytes_append, Bits.ofBytes_append, Bits.ofBytes_littleEndian,
      Bits.ofBytes_littleEndian, List.append_assoc]
    rfl
  rw [hbits]
  exact run_storedStart final (by decide) h

/-- The bytes of a stored block are put out one by one. -/
theorem inflates_stored (final : Bool) : ∀ (b : Bytes) (out : Array UInt8),
    Inflates { phase := insideBlock final (.stored b.length), final, out, bits := Bits.ofBytes b }
      b { phase := afterBlock final, final, out := out ++ b.toArray } := by
  intro b
  induction b with
  | nil =>
    intro out
    have hout : out ++ ([] : Bytes).toArray = out := by simp
    rw [hout]
    exact .refl _
  | cons x b ih =>
    intro out
    have hout : out ++ (x :: b).toArray = out.push x ++ b.toArray := by simp
    rw [hout]
    refine .byte (step_stored rfl (BitReader.run_byte x (Bits.ofBytes b))) ?_
    have hphase : afterStored final b.length = insideBlock final (.stored b.length) := by
      cases b.length <;> rfl
    rw [hphase]
    exact ih (out.push x)

theorem storedBlock_decodes (final : Bool) (history : Array UInt8) {b : Bytes}
    (h : b.length ≤ 0xffff) : Decodes final history (storedBlock final b) b := by
  refine ⟨{ phase := afterBlock final, final, out := history ++ b.toArray }, ?_, ?_⟩
  · exact .silent (step_start rfl (run_startReader final h)) (inflates_stored final b history)
  · cases final with
    | true => exact ⟨rfl, Nat.succ_pos _⟩
    | false => rfl

theorem lastBlocks_decodes (final : Bool) (history : Array UInt8) {b : Bytes}
    (h : b.length < storedLength) : Decodes final history (lastBlocks final b) b := by
  have hlen : b.length ≤ 0xffff := by
    have : storedLength = 31745 := rfl
    omega
  unfold lastBlocks
  split
  next hfinal =>
    rw [hfinal]
    exact storedBlock_decodes true history hlen
  next hfinal =>
    rw [Bool.not_eq_true] at hfinal
    rw [hfinal]
    split
    next hnil =>
      rw [List.isEmpty_iff.mp hnil]
      exact storedBlock_decodes false history (by decide)
    next =>
      have hpause := storedBlock_decodes false (history ++ b.toArray) (b := []) (by decide)
      have hboth := (storedBlock_decodes false history hlen).append hpause
      rw [List.append_nil] at hboth
      exact hboth

theorem storedSegment_decodes (final : Bool) (history : Array UInt8) (b : Bytes) :
    Decodes final history (storedSegment final b) b := by
  induction b using storedSegment.induct generalizing history with
  | case1 b hlen ih =>
    have hfirst : (b.take storedLength).length ≤ 0xffff :=
      Nat.le_trans (List.length_take_le _ _) (by decide)
    have hboth := (storedBlock_decodes false history hfirst).append
      (ih (history ++ (b.take storedLength).toArray))
    rw [storedSegment, if_pos hlen]
    rw [List.take_append_drop] at hboth
    exact hboth
  | case2 b hlen =>
    rw [storedSegment, if_neg hlen]
    exact lastBlocks_decodes final history (Nat.lt_of_not_le hlen)

end Deflate
end ChatBackup
