import ChatBackup.Gzip.Deflater
import ChatBackup.Proofs.Coding
import ChatBackup.Proofs.Segments

/-!
# The deflater is fit for its purpose

`Deflater.compressor` is the deflater with the proof that it loses nothing and comes to an end. Its
invariant (`Deflater.Holds`) is that the bytes put out and those that wait decode to all data but
what is pending; every block that is made of the data keeps it, whichever kind it is
(`Holds.block`). That not all room for pending data is taken (`Deflater.Fits`) matters only for
progress: unless bytes wait some data is taken.
-/

namespace ChatBackup.Deflater

open Deflate

variable {d : Deflater} {out data b : Bytes} {room : Nat}

/-! ## The invariant -/

/-- What was put out, what waits and what is pending make up the data. -/
def Holds (d : Deflater) (out data : Bytes) : Prop :=
  ∃ done, data = done ++ d.pending.toList ∧ Decodes false #[] (out ++ d.waiting) done

/-- There is always room for pending data. -/
def Fits (d : Deflater) : Prop := d.pending.size < d.limit

theorem limit_pos (d : Deflater) : 0 < d.limit := by
  unfold limit
  split <;> decide

theorem limit_stored (hc : d.coded = false) : d.limit = 32002 := by
  rw [limit, if_neg (by simp [hc])]
  rfl

theorem holds_new (coded : Bool) : Holds { coded } [] [] := ⟨[], rfl, decodes_nil _⟩

theorem fits_new (coded : Bool) : Fits { coded } := limit_pos _

/-- A block is made of the first part of the pending data. -/
theorem Holds.block (h : d.Holds out data) {first rest : Array UInt8} {block : Bytes}
    (hpending : d.pending.toList = first.toList ++ rest.toList)
    (hblock : ∀ history, Decodes false history block first.toList) :
    (({ d with pending := rest } : Deflater).put block).Holds out data := by
  obtain ⟨done, rfl, hdec⟩ := h
  refine ⟨done ++ first.toList, ?_, ?_⟩
  · rw [hpending, ← List.append_assoc]
    rfl
  · have hboth := hdec.append (hblock _)
    rw [List.append_assoc] at hboth
    exact hboth

theorem extract_append_extract (a : Array UInt8) (n : Nat) :
    a.toList = (a.extract 0 n).toList ++ (a.extract n).toList := by
  have hrest : (a.toList.drop n).length ≤ a.size - n :=
    Nat.le_of_eq (by rw [List.length_drop, Array.length_toList])
  rw [Array.toList_extract, Array.toList_extract, List.extract_eq_take_drop,
    List.extract_eq_take_drop, List.drop_zero, Nat.sub_zero, List.take_of_length_le hrest,
    List.take_append_drop]

theorem Holds.storeFirst (h : d.Holds out data) : d.storeFirst.Holds out data := by
  refine h.block (extract_append_extract _ _) fun history => storedBlock_decodes false history ?_
  have hs : storedLength = 31745 := rfl
  rw [Array.length_toList, Array.size_extract]
  omega

theorem Holds.close (h : d.Holds out data)
    (hsize : d.coded = false → d.pending.size < storedLength) :
    d.close.Holds out data := by
  refine h.block (List.append_nil _).symm fun history => ?_
  split
  next => exact segment_decodes false history d.pending
  next hc =>
    have hlt := hsize (Bool.not_eq_true _ ▸ hc)
    exact lastBlocks_decodes false history (by rwa [Array.length_toList])

/-- The bytes that wait are put out as far as there is room. -/
theorem Holds.give (h : d.Holds out data) (room : Nat) :
    (d.give room).1.Holds (out ++ (d.give room).2) data := by
  obtain ⟨done, hdata, hdec⟩ := h
  refine ⟨done, hdata, ?_⟩
  show Decodes false #[] (out ++ d.waiting.take room ++ d.waiting.drop room) done
  rw [List.append_assoc, List.take_append_drop]
  exact hdec

@[simp] theorem put_pending (d : Deflater) (b : Bytes) : (d.put b).pending = d.pending := rfl

@[simp] theorem put_limit (d : Deflater) (b : Bytes) : (d.put b).limit = d.limit := rfl

theorem size_storeFirst (d : Deflater) :
    d.storeFirst.pending.size = d.pending.size - storedLength := by
  rw [storeFirst, put_pending, Array.size_extract, Nat.min_self]

theorem limit_storeFirst (d : Deflater) : d.storeFirst.limit = d.limit := by
  rw [storeFirst, put_limit, limit, limit]

/-! ## Taking data -/

/-- Data is taken as pending. -/
def pend (d : Deflater) (b : Bytes) : Deflater := { d with pending := d.pending ++ b }

theorem Holds.pend (h : d.Holds out data) (b : Bytes) : (d.pend b).Holds out (data ++ b) := by
  obtain ⟨done, rfl, hdec⟩ := h
  refine ⟨done, ?_, hdec⟩
  rw [Deflater.pend, List.append_assoc, Array.toList_appendList]

theorem size_pend (d : Deflater) (b : Bytes) :
    (d.pend b).pending.size = d.pending.size + b.length := by
  rw [Deflater.pend, ← Array.length_toList, Array.toList_appendList, List.length_append,
    Array.length_toList]

/-- One round of taking data. -/
theorem takeRounds_succ (fuel : Nat) (d : Deflater) (b : Bytes) :
    d.takeRounds room (fuel + 1) b =
      if room < d.waiting.length || b.isEmpty then (d, 0)
      else
        let piece := b.take (d.limit - d.pending.size)
        if (d.pend piece).pending.size < d.limit then (d.pend piece, piece.length)
        else
          let more := takeRounds room fuel (d.pend piece).pack (b.drop piece.length)
          (more.1, piece.length + more.2) := rfl

/-- Once there is enough data a block is made of it, and there is room again. -/
theorem pack_spec (h : d.Holds out data) (hsize : d.pending.size ≤ d.limit) :
    d.pack.Holds out data ∧ d.pack.Fits := by
  unfold pack
  split
  next hc =>
    refine ⟨h.close fun hc' => absurd (hc.symm.trans hc') (by simp), ?_⟩
    exact limit_pos _
  next hc =>
    refine ⟨h.storeFirst, ?_⟩
    have hs : storedLength = 31745 := rfl
    have hl := limit_stored (Bool.not_eq_true _ ▸ hc)
    rw [Fits, size_storeFirst, limit_storeFirst]
    omega

/-- Data is taken piece by piece, with a block made of it whenever there is enough. -/
theorem takeRounds_spec : ∀ (fuel : Nat) {d : Deflater} {data : Bytes} (b : Bytes),
    d.Holds out data → d.Fits →
      (d.takeRounds room fuel b).1.Holds out (data ++ b.take (d.takeRounds room fuel b).2) ∧
        (d.takeRounds room fuel b).1.Fits := by
  intro fuel
  induction fuel with
  | zero =>
    intro d data b h hf
    rw [takeRounds, List.take_zero, List.append_nil]
    exact ⟨h, hf⟩
  | succ fuel ih =>
    intro d data b h hf
    rw [takeRounds_succ]
    split
    next =>
      rw [List.take_zero, List.append_nil]
      exact ⟨h, hf⟩
    next =>
      -- whether or not a block is made of it, the piece is taken first
      generalize hpiece : b.take (d.limit - d.pending.size) = piece
      have htake : b.take piece.length = piece := by
        rw [← hpiece, List.length_take, ← List.take_take, List.take_length]
      have hpend := h.pend piece
      simp only
      split
      next hlt =>
        rw [htake]
        exact ⟨hpend, hlt⟩
      next =>
        have hsize : (d.pend piece).pending.size ≤ (d.pend piece).limit := by
          have hle : piece.length ≤ d.limit - d.pending.size := by
            rw [← hpiece]
            exact List.length_take_le _ _
          have hlt : d.pending.size < d.limit := hf
          rw [size_pend]
          show _ ≤ d.limit
          omega
        obtain ⟨hpack, hfits⟩ := pack_spec hpend hsize
        obtain ⟨hholds, hfits⟩ := ih (b.drop piece.length) hpack hfits
        rw [List.take_add, htake, ← List.append_assoc]
        exact ⟨hholds, hfits⟩

/-- Unless bytes wait for room, data is taken. -/
theorem takeRounds_pos (fuel : Nat) (hf : d.Fits) (hroom : d.waiting.length ≤ room) (hb : b ≠ []) :
    0 < (d.takeRounds room (fuel + 1) b).2 := by
  have hpos := List.length_pos_iff.mpr hb
  have hlt : d.pending.size < d.limit := hf
  have hpiece : 0 < (b.take (d.limit - d.pending.size)).length := by
    rw [List.length_take]
    omega
  rw [takeRounds_succ, if_neg (by simpa [hb] using hroom)]
  simp only
  split
  · exact hpiece
  · exact Nat.lt_of_lt_of_le hpiece (Nat.le_add_right _ _)

/-- Where no data is taken the deflater stays as it is. -/
theorem takeRounds_of_zero (fuel : Nat) (hf : d.Fits)
    (h : (d.takeRounds room (fuel + 1) b).2 = 0) :
    (d.takeRounds room (fuel + 1) b).1 = d ∧ (b ≠ [] → room < d.waiting.length) := by
  by_cases hstop : room < d.waiting.length || b.isEmpty
  · rw [takeRounds_succ, if_pos hstop]
    refine ⟨rfl, fun hb => ?_⟩
    simpa [hb] using hstop
  · rw [Bool.or_eq_true, not_or, decide_eq_true_eq, List.isEmpty_iff] at hstop
    have hpos := takeRounds_pos fuel hf (Nat.le_of_not_lt hstop.1) hstop.2
    omega

/-! ## Pausing -/

/-- A pause closes a segment, or puts this off. -/
theorem pause_spec (h : d.Holds out data) (hf : d.Fits) (room : Nat) :
    (d.pause room).1.Holds (out ++ (d.pause room).2) data ∧ (d.pause room).1.Fits := by
  unfold pause
  split
  next => exact ⟨h.give room, hf⟩
  next =>
    -- a stored block is closed only when the rest is short enough for a single one
    have hs : storedLength = 31745 := rfl
    generalize he :
      (if !d.coded && decide (storedLength ≤ d.pending.size) then d.storeFirst else d) = e
    have hlt : d.pending.size < d.limit := hf
    have hspec : e.Holds out data ∧ e.Fits ∧ (e.coded = false → e.pending.size < storedLength) := by
      subst he
      split
      next hfirst =>
        rw [Bool.and_eq_true, Bool.not_eq_true', decide_eq_true_eq] at hfirst
        have hl := limit_stored hfirst.1
        have hsize := size_storeFirst d
        refine ⟨h.storeFirst, ?_, fun _ => by omega⟩
        rw [Fits, limit_storeFirst]
        omega
      next hfirst =>
        rw [Bool.and_eq_true, not_and, Bool.not_eq_true', decide_eq_true_eq] at hfirst
        exact ⟨h, hf, fun hc => Nat.lt_of_not_le (hfirst hc)⟩
    obtain ⟨hholds, hfits, hsmall⟩ := hspec
    simp only
    split
    next => exact ⟨hholds.give room, hfits⟩
    next => exact ⟨(hholds.close hsmall).give room, limit_pos _⟩

/-! ## The end -/

/-- With what is still to come the compressed bytes are complete. -/
theorem ending_spec (h : d.Holds out data) : Decodes true #[] (out ++ d.ending) data := by
  obtain ⟨done, rfl, hdec⟩ := h
  have hlast : Decodes true (#[] ++ done.toArray)
      (if d.coded then segment true d.pending else storedSegment true d.pending.toList)
      d.pending.toList := by
    split
    next => exact segment_decodes true _ _
    next => exact storedSegment_decodes true _ _
  have hboth := hdec.append hlast
  rw [List.append_assoc] at hboth
  exact hboth

/-- The invariant holds after any calls. -/
theorem holds_run {s : coder.State} (h : coder.Run s data out) :
    Holds s out data ∧ Fits s := by
  induction h with
  | start level => exact ⟨holds_new _, fits_new _⟩
  | take room b _ ih =>
    obtain ⟨hholds, hfits⟩ := takeRounds_spec (b.length + 1) b ih.1 ih.2
    exact ⟨hholds.give room, hfits⟩
  | pause room _ ih => exact pause_spec ih.1 ih.2 room

/-- **The deflater** loses nothing and comes to an end. -/
def compressor : Compressor where
  toCoder := coder
  decodes h := ending_spec (holds_run h).1
  moves {d data out b room} h hroom hb hnone := by
    obtain ⟨-, hfits⟩ := holds_run h
    obtain ⟨hsame, hwait⟩ := takeRounds_of_zero b.length hfits hnone
    have hlen := hwait hb
    -- more bytes wait than there is room for, and there is some room
    intro hnil
    have hout := congrArg List.length hnil
    change ((takeRounds room (b.length + 1) d b).1.waiting.take room).length = 0 at hout
    rw [hsame, List.length_take] at hout
    omega
  held_le {d data out b room} h hnone := by
    obtain ⟨-, hfits⟩ := holds_run h
    obtain ⟨hsame, -⟩ := takeRounds_of_zero b.length hfits hnone
    show ((takeRounds room (b.length + 1) d b).1.waiting.take room).length +
      ((takeRounds room (b.length + 1) d b).1.waiting.drop room).length ≤ d.waiting.length
    rw [hsame, ← List.length_append, List.take_append_drop]

end ChatBackup.Deflater
