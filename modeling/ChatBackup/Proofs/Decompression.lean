import ChatBackup.Proofs.Unpacking

/-!
# What a decompressing reader brings

What a reader decompresses does not depend on the pieces that the compressed data arrives in or the
pieces that are asked for, as long as nothing gets lost:

> `GzipReader.delivers`, `GzipReader.over_start`: over a source that brings bytes, the reader brings
> what they are unpacked to, and ends as that does.

The invariant (`GzipBody.Follows`) is a run of the inflater over the input that is still to come. A
read takes that run further and hands out what was put out on the way (`GzipBody.Moves`).
-/

namespace ChatBackup

/-! ## Inside the compressed data -/

namespace GzipBody

open Inflater

variable {b c : GzipBody} {rest got : Bytes} {n : Nat} {k : Inflater} {halt stop : InflateHalt}
  {ending : Option Failure}

/-- The bytes handed out so far. -/
def handed (b : GzipBody) : Bytes := b.inflater.out.toList.take b.given

/-- The books on what was handed out are right, and so is the note that input is missing. -/
structure Sound (b : GzipBody) : Prop where
  given_le : b.given ≤ b.inflater.out.size
  check : b.check = Crc32.start.feed b.handed
  starved : b.starved = true → b.inflater.step = .halt .starved

theorem sound_start : Sound {} where
  given_le := Nat.le_refl _
  check := rfl
  starved _ := rfl

theorem Sound.length_handed (h : Sound b) : b.handed.length = b.given := by
  rw [handed, List.length_take, Array.length_toList]
  exact Nat.min_eq_left h.given_le

theorem Sound.feed (h : Sound b) (input : Bytes) : Sound (b.feed input) where
  given_le := h.given_le
  check := h.check
  starved hflag := by
    replace hflag : (b.starved && input.isEmpty) = true := hflag
    rw [Bool.and_eq_true, List.isEmpty_iff] at hflag
    show (b.inflater.feed input).step = _
    rw [hflag.2, feed_nil]
    exact h.starved hflag.1

/-- A run of the inflater, and bytes handed out on the way. -/
structure Moves (b : GzipBody) (got : Bytes) (c : GzipBody) : Prop where
  sound : Sound c
  run : ∃ d, Inflates b.inflater d c.inflater
  handed : c.handed = b.handed ++ got

theorem Moves.trans {got' : Bytes} {a : GzipBody} (h : Moves a got b) (h' : Moves b got' c) :
    Moves a (got ++ got') c where
  sound := h'.sound
  run := by
    obtain ⟨d, hrun⟩ := h.run
    obtain ⟨d', hrun'⟩ := h'.run
    exact ⟨d ++ d', hrun.trans hrun'⟩
  handed := by rw [h'.handed, h.handed, List.append_assoc]

theorem Moves.given (h : Moves b got c) (hb : Sound b) : c.given = b.given + got.length := by
  rw [← h.sound.length_handed, h.handed, List.length_append, hb.length_handed]

/-! ### Handing out -/

theorem length_give (b : GzipBody) (n : Nat) :
    (b.give n).1.length = min n (b.inflater.out.size - b.given) := by
  rw [give, piece, Array.length_toList, Array.size_extract]
  omega

theorem Sound.give (h : Sound b) (n : Nat) : Moves b (b.give n).1 (b.give n).2 := by
  have hlen := length_give b n
  have hpiece : (b.give n).1 = (b.inflater.out.toList.drop b.given).take (b.give n).1.length := by
    rw [hlen]
    show b.piece n = _
    rw [piece, Array.toList_extract, List.extract_eq_take_drop, Nat.add_sub_cancel_left,
      ← List.take_take, List.take_of_length_le (i := b.inflater.out.size - b.given)]
    exact Nat.le_of_eq (by rw [List.length_drop, Array.length_toList])
  have hhanded : (b.give n).2.handed = b.handed ++ (b.give n).1 := by
    show b.inflater.out.toList.take (b.given + (b.give n).1.length) = _
    rw [List.take_add, ← hpiece]
    rfl
  refine ⟨⟨?_, ?_, h.starved⟩, ⟨[], .refl _⟩, hhanded⟩
  · have := h.given_le
    show b.given + (b.give n).1.length ≤ b.inflater.out.size
    omega
  · show b.check.feed (b.give n).1 = _
    rw [hhanded, Crc32.feed_append, h.check]

/-! ### Going on -/

theorem Sound.fillWindow (h : Sound b) :
    Moves b [] b.fillWindow.1 ∧
      (b.fillWindow.2 = .full ∧ b.inflater.out.size < b.fillWindow.1.inflater.out.size ∨
        b.fillWindow.1.inflater.step = .halt b.fillWindow.2 ∧
          (b.fillWindow.2 = .starved → b.fillWindow.1.starved = true)) := by
  have hroom : 0 < window - b.given % window :=
    Nat.sub_pos_of_lt (Nat.mod_lt _ (Nat.succ_pos _))
  obtain ⟨d, hrun, -, hstop⟩ := advance_inflates b.inflater (window - b.given % window)
  have hout := hrun.out
  unfold GzipBody.fillWindow
  generalize b.inflater.advance (window - b.given % window) = r at hrun hstop hout
  obtain ⟨i, halt⟩ := r
  simp only at hrun hstop hout ⊢
  have hsize : i.out.size = b.inflater.out.size + d.length := by
    rw [← Array.length_toList, hout, List.length_append, Array.length_toList]
  have hle := h.given_le
  have hhanded : i.out.toList.take b.given = b.handed := by
    rw [hout, List.take_append_of_le_length (by rwa [Array.length_toList])]
    rfl
  have hflag : decide (halt = .starved) = true → i.step = .halt .starved := by
    intro hdec
    obtain rfl := of_decide_eq_true hdec
    exact hstop.resolve_left fun hfull => by cases hfull.1
  refine ⟨⟨⟨?_, ?_, hflag⟩, ⟨d, hrun⟩, ?_⟩, ?_⟩
  · show b.given ≤ i.out.size
    omega
  · show b.check = Crc32.start.feed (i.out.toList.take b.given)
    rw [hhanded, h.check]
  · show i.out.toList.take b.given = b.handed ++ []
    rw [hhanded, List.append_nil]
  · rcases hstop with ⟨hfull, hd⟩ | hhalt
    · exact Or.inl ⟨hfull, by omega⟩
    · exact Or.inr ⟨hhalt, fun hst => decide_eq_true hst⟩

/-- What decompressing comes to. -/
structure Decompressed (b : GzipBody) (r : List Bytes × GzipBody × InflateHalt) : Prop where
  moves : Moves b r.1.flatten r.2.1
  halted : r.2.2 ≠ .full → r.2.1.inflater.step = .halt r.2.2
  starved : r.2.2 = .starved → r.2.1.starved = true
  /-- Nothing is brought only if there is nothing. -/
  empty : r.1.flatten = [] → r.2.2 ≠ .full ∧ r.2.1.given = r.2.1.inflater.out.size

/-- One round without another one after it. -/
theorem Sound.round (h : Sound b) (hn : 0 < n) :
    Decompressed b ([(b.fillWindow.1.give n).1], (b.fillWindow.1.give n).2, b.fillWindow.2) := by
  obtain ⟨hfill, hstop⟩ := h.fillWindow
  have hgiven : b.fillWindow.1.given = b.given := hfill.given h
  have hgive := hfill.sound.give n
  have hlen := length_give b.fillWindow.1 n
  have hmoves := hfill.trans hgive
  rw [List.nil_append] at hmoves
  refine ⟨?_, ?_, ?_, ?_⟩
  · rw [List.flatten_singleton]
    exact hmoves
  · intro hne
    rcases hstop with ⟨hfull, -⟩ | ⟨hhalt, -⟩
    · exact absurd hfull hne
    · exact hhalt
  · intro hst
    rcases hstop with ⟨hfull, -⟩ | ⟨-, hflag⟩
    · rw [hfull] at hst
      cases hst
    · exact hflag hst
  · intro hempty
    rw [List.flatten_singleton] at hempty
    rw [hempty, List.length_nil] at hlen
    have hle := hfill.sound.given_le
    have hbefore := h.given_le
    have hafter := hgive.given hfill.sound
    rw [hempty] at hafter
    refine ⟨?_, ?_⟩
    · intro hfull
      rcases hstop with ⟨-, hlt⟩ | ⟨hhalt, -⟩
      · omega
      · exact absurd hfull (step_halt hhalt).1
    · show (b.fillWindow.1.give n).2.given = b.fillWindow.1.inflater.out.size
      rw [hafter, List.length_nil]
      omega

/-- Another round after one that brought a piece. -/
theorem Decompressed.cons {piece : Bytes} {r : List Bytes × GzipBody × InflateHalt}
    (h : Decompressed c r) (hpiece : Moves b piece c) (hne : piece ≠ []) :
    Decompressed b (piece :: r.1, r.2) where
  moves := by
    rw [List.flatten_cons]
    exact hpiece.trans h.moves
  halted := h.halted
  starved := h.starved
  empty hempty := absurd (List.append_eq_nil_iff.mp (List.flatten_cons ▸ hempty)).1 hne

theorem Sound.decompress (atEnd : Bool) : ∀ (fuel : Nat) {b : GzipBody} {n : Nat}, n < fuel →
    0 < n → Sound b → Decompressed b (b.decompress atEnd fuel n) := by
  intro fuel
  induction fuel with
  | zero => intro b n hfuel; exact absurd hfuel (Nat.not_lt_zero _)
  | succ fuel ih =>
    intro b n hfuel hn h
    unfold GzipBody.decompress
    have hround := h.round hn
    generalize b.fillWindow = r at hround
    obtain ⟨c, halt⟩ := r
    simp only at hround ⊢
    split
    next hmore =>
      rw [Bool.and_eq_true, Bool.and_eq_true, decide_eq_true_eq, decide_eq_true_eq] at hmore
      obtain ⟨⟨rfl, hleft⟩, -⟩ := hmore
      -- a pause for want of room comes only after a byte
      have hne : (c.give n).1 ≠ [] := by
        intro hnil
        have hempty : [(c.give n).1].flatten = [] := by rw [List.flatten_singleton, hnil]
        exact (hround.empty hempty).1 rfl
      have hpos := List.length_pos_iff.mpr hne
      have hpiece := hround.moves
      rw [List.flatten_singleton] at hpiece
      have hnext := ih (b := (c.give n).2) (n := n - (c.give n).1.length) (by omega) (by omega)
        hpiece.sound
      exact hnext.cons hpiece hne
    next => exact hround

/-! ### The input that is still to come -/

/-- With the input that is still to come the inflater gets to `k`. -/
structure Follows (b : GzipBody) (rest : Bytes) (k : Inflater) : Prop where
  sound : Sound b
  run : ∃ d, Inflates (b.inflater.feed rest) d k

/-- Input that arrives is no longer to come. -/
theorem Follows.feed {input : Bytes} (h : Follows b (input ++ rest) k) :
    Follows (b.feed input) rest k := by
  refine ⟨h.sound.feed input, ?_⟩
  obtain ⟨d, hrun⟩ := h.run
  rw [feed_append] at hrun
  exact ⟨d, hrun⟩

theorem Follows.out_eq (h : Follows b rest k) :
    ∃ d, k.out.toList = b.inflater.out.toList ++ d := by
  obtain ⟨d, hrun⟩ := h.run
  exact ⟨d, hrun.out⟩

/-- What was handed out is the front part of the data. -/
theorem Follows.handed_eq (h : Follows b rest k) : b.handed = k.out.toList.take b.given := by
  obtain ⟨d, hout⟩ := h.out_eq
  have hle : b.given ≤ b.inflater.out.toList.length := by
    rw [Array.length_toList]
    exact h.sound.given_le
  rw [hout, List.take_append_of_le_length hle]
  rfl

theorem Follows.given_le (h : Follows b rest k) : b.given ≤ k.out.size := by
  obtain ⟨d, hout⟩ := h.out_eq
  have hlen := congrArg List.length hout
  rw [List.length_append, Array.length_toList, Array.length_toList] at hlen
  have := h.sound.given_le
  omega

/-- A run stays on the way to the state where all runs end, and what is handed out is the next part
of the data. -/
theorem Follows.moves (h : Follows b rest k) (hk : k.step = .halt halt) (hm : Moves b got c) :
    Follows c rest k ∧ k.out.toList.drop b.given = got ++ k.out.toList.drop c.given := by
  obtain ⟨d, hrun⟩ := h.run
  obtain ⟨e, hmove⟩ := hm.run
  have hfollows : Follows c rest k := by
    refine ⟨hm.sound, ?_⟩
    rcases hrun.split (hmove.feed rest) with ⟨d', -, hrest⟩ | ⟨e', -, hback⟩
    · exact ⟨d', hrest⟩
    · -- the move has got where all runs end
      rw [(Inflates.of_halt hk hback).2]
      exact ⟨[], .refl _⟩
  refine ⟨hfollows, ?_⟩
  have hhanded := hm.handed
  rw [hfollows.handed_eq, h.handed_eq] at hhanded
  refine List.append_cancel_left (?_ : k.out.toList.take b.given ++ _ = _)
  rw [List.take_append_drop, ← List.append_assoc, ← hhanded, List.take_append_drop]

/-- If the inflater stops for a reason that more input does not remove, or without more input, it
has got where all runs end. -/
theorem Follows.eq_of_halt (h : Follows b rest k) (hk : k.step = .halt halt)
    (hb : b.inflater.step = .halt stop) (hlast : stop = .starved → rest = []) :
    k = b.inflater.feed rest ∧ halt = stop := by
  obtain ⟨d, hrun⟩ := h.run
  have hfed : (b.inflater.feed rest).step = .halt stop := by
    by_cases hst : stop = .starved
    · rw [hlast hst, feed_nil, hb]
    · rw [step_feed rest (by rw [hb]; simpa using hst), hb]
      rfl
  obtain ⟨-, rfl⟩ := Inflates.of_halt hfed hrun
  rw [hfed] at hk
  cases hk
  exact ⟨rfl, rfl⟩

/-- A body on its way to the state where all runs end, without loss. -/
structure Unpacks (b : GzipBody) (rest : Bytes) (ending : Option Failure) (k : Inflater)
    (halt : InflateHalt) : Prop extends Follows b rest k where
  halted : k.step = .halt halt
  lossless : Gzip.LosslessAt k halt ending

theorem Unpacks.moves (h : Unpacks b rest ending k halt) (hm : Moves b got c) :
    Unpacks c rest ending k halt ∧
      k.out.toList.drop b.given = got ++ k.out.toList.drop c.given := by
  obtain ⟨hfollows, hdrop⟩ := h.toFollows.moves h.halted hm
  exact ⟨⟨hfollows, h.halted, h.lossless⟩, hdrop⟩

theorem Unpacks.feed {input : Bytes} (h : Unpacks b (input ++ rest) ending k halt) :
    Unpacks (b.feed input) rest ending k halt := ⟨h.toFollows.feed, h.halted, h.lossless⟩

/-- When the source fails, all data was handed out. -/
theorem Unpacks.at_failure {f : Failure} (h : Unpacks b [] (some f) k halt)
    (hidle : b.isIdle = true) (hbegun : b.starved = true ∨ 0 < b.given) :
    k.out.toList.drop b.given = [] ∧ Gzip.verdict k halt (some f) = some f := by
  have hst : b.starved = true → halt = .starved := fun hflag =>
    (h.eq_of_halt h.halted (h.sound.starved hflag) fun _ => rfl).2
  rcases h.lossless with hout | ⟨-, hend | ⟨rfl, hbehind⟩⟩
  · -- nothing was put out, so input was missing from the start
    have hgiven := h.given_le
    rw [hout, Array.size_empty] at hgiven
    obtain rfl : halt = .starved := hst (hbegun.resolve_right (by omega))
    rw [hout]
    exact ⟨List.drop_nil, rfl⟩
  · cases hend
  · -- there is input behind the last block, so the inflater was not idle
    exfalso
    rw [isIdle, Bool.or_eq_true] at hidle
    rcases hidle with hflag | hbits
    · cases hst hflag
    · obtain ⟨d, hrun⟩ := h.run
      have hlen := hrun.length_le
      rw [feed_nil] at hlen
      rw [Bool.not_eq_true', ← Bool.not_eq_true, Bits.holdByte_iff] at hbits
      exact hbehind (behind_of_short (by omega))

/-- Where the rules are broken there is no data. -/
theorem Unpacks.at_corrupt (h : Unpacks b rest ending k halt)
    (hb : b.inflater.step = .halt .corrupt) :
    k.out = #[] ∧ Gzip.verdict k halt ending = some .deflateCorrupt := by
  obtain ⟨-, rfl⟩ := h.eq_of_halt h.halted hb (fun hst => by cases hst)
  rcases h.lossless with hout | ⟨hne, -⟩
  · exact ⟨hout, rfl⟩
  · exact absurd rfl hne

/-- Where all runs end and all is handed out, nothing of the data is left. -/
theorem Unpacks.at_end (h : Unpacks b rest ending k halt) (hb : b.inflater.step = .halt stop)
    (hlast : stop = .starved → rest = []) (hgiven : b.given = b.inflater.out.size) :
    k = b.inflater.feed rest ∧ halt = stop ∧ k.out.toList.drop b.given = [] := by
  obtain ⟨hk, hstop⟩ := h.eq_of_halt h.halted hb hlast
  refine ⟨hk, hstop, ?_⟩
  rw [hk, hgiven, ← Array.length_toList]
  exact List.drop_length

end GzipBody
/-! ## Reading -/

namespace GzipReader

open Source GzipBody Inflater

variable {σ : Type} [Source σ] {R : Promise σ} {input : Buffered σ} {b c : GzipBody}
  {rest got : Bytes} {ending : Option Failure} {k : Inflater} {halt : InflateHalt} {n : Nat}

/-- Inside the compressed data the reader brings what was not handed out, and in the end the
verdict. A header that was refused is told first. -/
inductive Over (R : Promise σ) : Promise (GzipReader σ) where
  | body {input : Buffered σ} {b : GzipBody} {rest : Bytes} {ending : Option Failure}
    {k : Inflater} {halt : InflateHalt} :
    Buffered.Over R input rest ending → Unpacks b rest ending k halt →
    (b.starved = true ∨ 0 < b.given) →
    Over R ⟨input, .body b⟩ (k.out.toList.drop b.given) (Gzip.verdict k halt ending)
  | refused {input : Buffered σ} (f : Failure) : Over R ⟨input, .refused f⟩ [] (some f)
  | ended {input : Buffered σ} : Over R ⟨input, .ended⟩ [] none

theorem turns_body (input : Buffered σ) (h : b.given ≤ b.inflater.out.size) :
    turns (⟨input, .body b⟩ : GzipReader σ) + b.given =
      b.inflater.cost + longestCopy * (8 * turns input) := by
  show (b.inflater.out.size - b.given) + waiting b.inflater.phase
    + longestCopy * (b.inflater.bits.length + 8 * turns input) + b.given = _
  unfold cost
  rw [Nat.mul_add]
  omega

/-- Moves without output cost no turns, and every byte handed out saves one. -/
theorem turns_moves (t : Buffered σ) (hb : Sound b) (h : Moves b got c) :
    turns (⟨t, .body c⟩ : GzipReader σ) + got.length ≤ turns (⟨t, .body b⟩ : GzipReader σ) := by
  obtain ⟨d, hrun⟩ := h.run
  have hcost := hrun.cost_le
  have hgiven := h.given hb
  have h₁ := turns_body t h.sound.given_le
  have h₂ := turns_body t hb.given_le
  omega

/-! ### Fetching -/

/-- What fetching comes to. -/
inductive Fetched (R : Promise σ) (input : Buffered σ) (b : GzipBody) (rest : Bytes)
    (ending : Option Failure) (k : Inflater) (halt : InflateHalt) :
    Outcome Bool × Buffered σ × GzipBody → Prop where
  | done {atEnd : Bool} {t : Buffered σ} {c : GzipBody} {more : Bytes} :
    Buffered.Over R t more ending → Unpacks c more ending k halt → c.given = b.given →
    turns (⟨t, .body c⟩ : GzipReader σ) ≤ turns (⟨input, .body b⟩ : GzipReader σ) →
    (atEnd = true → more = [] ∧ ending = none) →
    Fetched R input b rest ending k halt (.done atEnd, t, c)
  | interrupted {t : Buffered σ} : Buffered.Over R t rest ending → turns t < turns input →
    Fetched R input b rest ending k halt (.interrupted, t, b)
  | failed {f : Failure} {t : Buffered σ} : rest = [] → ending = some f → b.isIdle = true →
    Fetched R input b rest ending k halt (.failed f, t, b)

/-- All that was fetched is handed to the inflater. -/
theorem turns_emptied (t : Buffered σ) :
    turns ({ t with buffer := [] } : Buffered σ) + t.buffer.length = turns t := by
  rw [Buffered.turns_eq, Buffered.turns_eq]
  simp only [List.length_nil]
  omega

/-- What was fetched is paid for by the source below. -/
theorem turns_feed (t : Buffered σ) (hb : Sound b) (hle : turns t ≤ turns input) :
    turns (⟨{ t with buffer := [] }, .body (b.feed t.buffer)⟩ : GzipReader σ) ≤
      turns (⟨input, .body b⟩ : GzipReader σ) := by
  have hempty := turns_emptied t
  have h₁ := turns_body ({ t with buffer := [] } : Buffered σ) (hb.feed t.buffer).given_le
  have h₂ := turns_body input hb.given_le
  have hcost : (b.feed t.buffer).inflater.cost =
      b.inflater.cost + longestCopy * (8 * t.buffer.length) := cost_feed _ _
  have hgiven : (b.feed t.buffer).given = b.given := rfl
  have hk : longestCopy = 258 := rfl
  rw [hcost, hgiven, hk] at h₁
  rw [hk] at h₂
  omega

theorem fetch_fetched (hR : Delivers R) (hq : Rests R) (hinput : Buffered.Over R input rest ending)
    (h : Unpacks b rest ending k halt) :
    Fetched R input b rest ending k halt (fetch input b) := by
  unfold fetch
  by_cases hidle : b.isIdle = true
  · rw [if_pos hidle]
    have hf := Buffered.fill_filled hR hinput
    generalize input.fill = r at hf
    cases hf with
    | @ready t hne ht hle =>
      obtain ⟨hcap, more, rfl, hmore⟩ := ht
      have hend : t.buffer.isEmpty = false := by rwa [List.isEmpty_eq_false_iff]
      simp only [hend]
      exact .done ⟨hcap, more, rfl, hmore⟩ h.feed rfl (turns_feed t h.sound hle)
        (fun hat => nomatch hat)
    | @ended t hnil hrest he ht hle =>
      obtain rfl := hrest
      obtain rfl := he
      obtain ⟨hcap, more, hmore, hover⟩ := ht
      rw [hnil, List.nil_append] at hmore
      obtain rfl := hmore
      have hend : t.buffer.isEmpty = true := by rw [hnil]; rfl
      have hfed : Unpacks (b.feed t.buffer) [] none k halt := by
        refine Unpacks.feed ?_
        rw [hnil]
        exact h
      simp only [hend]
      exact .done ⟨hcap, [], rfl, hover⟩ hfed rfl (turns_feed t h.sound (hle hq))
        (fun _ => ⟨rfl, rfl⟩)
    | interrupted ht hlt => exact .interrupted ht hlt
    | failed hrest he => exact .failed hrest he hidle
  · rw [if_neg hidle]
    exact .done hinput h rfl (Nat.le_refl _) (fun hat => nomatch hat)

/-- A bound on the rounds of one read. -/
def rounds (input : Buffered σ) (b : GzipBody) : Nat := turns input + if b.isIdle then 1 else 2

theorem rounds_starved (input : Buffered σ) (h : b.starved = true) :
    rounds input b = turns input + 1 := by
  rw [rounds, isIdle, h]
  rfl

/-- Fetching brings the end of the rounds nearer, unless it meets the end of the input. -/
theorem rounds_fetch (hR : Delivers R) (hinput : Buffered.Over R input rest ending)
    {t : Buffered σ} (h : fetch input b = (.done false, t, c)) : turns t + 2 ≤ rounds input b := by
  unfold rounds
  unfold fetch at h
  by_cases hidle : b.isIdle = true
  · rw [if_pos hidle] at h ⊢
    have hf := Buffered.fill_filled hR hinput
    generalize input.fill = r at hf h
    cases hf with
    | @ready t' hne ht hle =>
      have hpos := List.length_pos_iff.mpr hne
      have hempty := turns_emptied t'
      have ht : { t' with buffer := [] } = t := congrArg (·.2.1) h
      rw [← ht]
      omega
    | @ended t' hnil =>
      simp only [hnil] at h
      cases h
    | interrupted => cases h
    | failed => cases h
  · rw [if_neg hidle] at h ⊢
    cases h
    exact Nat.le_refl _

/-! ### The trailer -/

theorem trailer_eq (h : Sound b) (hgiven : b.given = b.inflater.out.size) :
    b.trailer = Gzip.trailer (Crc32.check b.inflater.out.toList) b.inflater.out.toList.length := by
  have hall : b.handed = b.inflater.out.toList := by
    rw [handed, hgiven, ← Array.length_toList, List.take_length]
  rw [GzipBody.trailer, h.check, hall, hgiven, Array.length_toList]
  rfl

/-- What stands behind the last block decides how the data ends. -/
theorem readTrailer_cases (hR : Delivers R) {behind : Bytes}
    (hinput : Buffered.Over R input behind ending) (h : Sound b)
    (hgiven : b.given = b.inflater.out.size) :
    (∃ t, readTrailer input [] b = (.done [], ⟨t, .ended⟩) ∧
      Gzip.trailerVerdict b.inflater.out.toList behind ending = none) ∨
    ∃ f r, readTrailer input [] b = (.failed f, r) ∧
      Gzip.trailerVerdict b.inflater.out.toList behind ending = some f := by
  have hg := gather_gathers (Buffered.delivers hR) hinput Gzip.trailerLength
  unfold readTrailer Gzip.trailerVerdict
  simp only [List.length_nil, Nat.sub_zero, List.nil_append, trailer_eq h hgiven]
  generalize gather input Gzip.trailerLength = g at hg
  obtain ⟨got, failure, t⟩ := g
  obtain rfl : got = behind.take Gzip.trailerLength := hg.got
  have hlen : (behind.take Gzip.trailerLength).length = min Gzip.trailerLength behind.length :=
    List.length_take
  have hfail : failure = if behind.length < Gzip.trailerLength then ending else none := hg.failure
  by_cases hshort : behind.length < Gzip.trailerLength
  · rw [if_pos hshort] at hfail ⊢
    right
    cases ending with
    | some f => rw [hfail]; exact ⟨f, _, rfl, rfl⟩
    | none =>
      have hcut : (behind.take Gzip.trailerLength).length < Gzip.trailerLength := by omega
      rw [hfail]
      simp only [hcut, if_true]
      exact ⟨.gzipCut, _, rfl, rfl⟩
  · rw [if_neg hshort] at hfail ⊢
    have hwhole : ¬ (behind.take Gzip.trailerLength).length < Gzip.trailerLength := by omega
    rw [hfail]
    simp only [hwhole, if_false]
    split
    · exact Or.inl ⟨t, rfl, rfl⟩
    · exact Or.inr ⟨.gzipChecksum, _, rfl, rfl⟩

/-! ### Reads -/

/-- Bytes handed out shorten what the reader brings. -/
theorem delivery_bytes {t : Buffered σ} (hinput : Buffered.Over R t rest ending)
    (h : Unpacks b rest ending k halt) (hm : Moves b got c) (hne : got ≠ []) :
    Delivery (Over R) ⟨t, .body b⟩ (k.out.toList.drop b.given) (Gzip.verdict k halt ending)
      (.done got, ⟨t, .body c⟩) := by
  obtain ⟨hc, hdrop⟩ := h.moves hm
  have hpos := List.length_pos_iff.mpr hne
  have hgiven := hm.given h.sound
  refine .bytes hne hdrop (.body hinput hc (Or.inr (by omega))) ?_
  have := turns_moves t h.sound hm
  omega

/-- Behind the last block the trailer is compared, and the data has ended. -/
theorem trailer_delivers (hR : Delivers R) {t : Buffered σ}
    (hinput : Buffered.Over R t rest ending) (h : Unpacks b rest ending k halt)
    (hb : b.inflater.step = .halt .finished) (hgiven : b.given = b.inflater.out.size) :
    Delivery (Over R) ⟨t, .body b⟩ (k.out.toList.drop b.given) (Gzip.verdict k halt ending)
      (readTrailer { t with buffer := b.leftover ++ t.buffer } [] b) := by
  obtain ⟨rfl, rfl, hdrop⟩ := h.at_end hb (fun hst => by cases hst) hgiven
  have hbehind : (b.inflater.feed rest).behind = b.leftover ++ rest := behind_feed _ _
  have hverdict : Gzip.verdict (b.inflater.feed rest) .finished ending =
      Gzip.trailerVerdict b.inflater.out.toList (b.leftover ++ rest) ending := by
    rw [← hbehind]
    rfl
  rw [hdrop, hverdict]
  obtain ⟨hcap, fetched, rfl, hfetched⟩ := hinput
  have hover : Buffered.Over R { t with buffer := b.leftover ++ t.buffer }
      (b.leftover ++ (t.buffer ++ fetched)) ending := by
    refine ⟨hcap, fetched, ?_, hfetched⟩
    rw [List.append_assoc]
  rcases readTrailer_cases hR hover h.sound hgiven with ⟨t', hread, hv⟩ | ⟨f, r, hread, hv⟩
  · rw [hread, hv]
    exact .ended rfl rfl .ended
  · rw [hread]
    exact .failed rfl hv

/-- If decompressing has brought nothing, then the data has ended, or more input is needed: there is
none, or the next round fetches it. -/
theorem nothing_delivers (hR : Delivers R) {t : Buffered σ} {stop : InflateHalt} {atEnd : Bool}
    {next : Outcome Bytes × GzipReader σ} (hinput : Buffered.Over R t rest ending)
    (h : Unpacks b rest ending k halt) (hb : b.inflater.step = .halt stop)
    (hgiven : b.given = b.inflater.out.size) (hsound : stop ≠ .corrupt)
    (hlast : atEnd = true → rest = [] ∧ ending = none)
    (hnext : stop = .starved → atEnd = false →
      Delivery (Over R) ⟨t, .body b⟩ (k.out.toList.drop b.given) (Gzip.verdict k halt ending)
        next) :
    Delivery (Over R) ⟨t, .body b⟩ (k.out.toList.drop b.given) (Gzip.verdict k halt ending)
      (if stop = .finished then readTrailer { t with buffer := b.leftover ++ t.buffer } [] b
      else if atEnd then (.failed .deflateCut, ⟨t, .body b⟩)
      else next) := by
  cases stop with
  | corrupt => exact absurd rfl hsound
  | full => exact absurd rfl (step_halt hb).1
  | finished =>
    rw [if_pos rfl]
    exact trailer_delivers hR hinput h hb hgiven
  | starved =>
    rw [if_neg (by simp)]
    cases atEnd with
    | true =>
      rw [if_pos rfl]
      obtain ⟨rfl, rfl⟩ := hlast rfl
      obtain ⟨-, rfl, hnone⟩ := h.at_end hb (fun _ => rfl) hgiven
      exact .failed hnone rfl
    | false =>
      rw [if_neg (by simp)]
      exact hnext rfl rfl

theorem readBody_delivers (hR : Delivers R) (hq : Rests R) (hn : 0 < n) :
    ∀ (fuel : Nat) {input : Buffered σ} {b : GzipBody} {rest : Bytes}, rounds input b ≤ fuel →
      Buffered.Over R input rest ending → Unpacks b rest ending k halt →
      (b.starved = true ∨ 0 < b.given) →
      Delivery (Over R) ⟨input, .body b⟩ (k.out.toList.drop b.given) (Gzip.verdict k halt ending)
        (readBody fuel input b n) := by
  intro fuel
  induction fuel with
  | zero =>
    intro input b rest hfuel
    unfold rounds at hfuel
    split at hfuel <;> omega
  | succ fuel ih =>
    intro input b rest hfuel hinput h hbegun
    have hf := fetch_fetched hR hq hinput h
    unfold readBody
    generalize hfetch : fetch input b = r at hf
    cases hf with
    | @interrupted t ht hlt =>
      refine .interrupted (.body ht h hbegun) ?_
      have h₁ := turns_body t h.sound.given_le
      have h₂ := turns_body input h.sound.given_le
      have hk : longestCopy = 258 := rfl
      rw [hk] at h₁ h₂
      omega
    | @failed f t hrest he hidle =>
      subst hrest he
      obtain ⟨hdrop, hverdict⟩ := h.at_failure hidle hbegun
      exact .failed hdrop hverdict
    | @done atEnd t c more ht hc hgiven hturns hlast =>
      rw [← hgiven]
      refine Delivery.of_turns_le ?_ hturns
      simp only
      by_cases hwait : c.isWaiting = true
      · rw [if_pos hwait]
        have hlt : c.given < c.inflater.out.size := of_decide_eq_true hwait
        refine delivery_bytes ht hc (hc.sound.give n) ?_
        have hlen := length_give c n
        exact List.length_pos_iff.mp (by omega)
      · rw [if_neg hwait]
        have hd := hc.sound.decompress atEnd (n + 1) (Nat.lt_succ_self n) hn
        generalize c.decompress atEnd (n + 1) n = r at hd
        obtain ⟨pieces, c', stop⟩ := r
        obtain ⟨hmoves, hhalted, hstarved, hempty⟩ := hd
        simp only at hmoves hhalted hstarved hempty
        obtain ⟨hc', hdrop⟩ := hc.moves hmoves
        by_cases hcorrupt : stop = .corrupt
        · -- the output of this read is lost, but there is none
          subst hcorrupt
          obtain ⟨hnone, hverdict⟩ := hc'.at_corrupt (hhalted (by simp))
          rw [hnone]
          exact .failed List.drop_nil hverdict
        · by_cases hnil : pieces.flatten = []
          · obtain ⟨hroom, hall⟩ := hempty hnil
            have hturns' := turns_moves t hc.sound hmoves
            rw [hnil, List.nil_append] at hdrop
            rw [hnil, List.length_nil, Nat.add_zero] at hturns'
            have hnext : stop = .starved → atEnd = false →
                Delivery (Over R) ⟨t, .body c'⟩ (k.out.toList.drop c'.given)
                  (Gzip.verdict k halt ending) (readBody fuel t c' n) := by
              rintro rfl rfl
              have := rounds_fetch hR hinput hfetch
              refine ih ?_ ht hc' (Or.inl (hstarved rfl))
              rw [rounds_starved t (hstarved rfl)]
              omega
            rw [hdrop]
            simp only [hnil, List.isEmpty_nil, Bool.not_true, Bool.false_eq_true, if_false]
            exact (nothing_delivers hR ht hc' (hhalted hroom) hall hcorrupt hlast
              hnext).of_turns_le hturns'
          · have hsome : (!pieces.flatten.isEmpty) = true := by
              rw [Bool.not_eq_true', List.isEmpty_eq_false_iff]
              exact hnil
            simp only [hsome, if_true]
            exact delivery_bytes ht hc hmoves hnil

/-- A reader keeps its promise if the source below does. -/
theorem delivers (hR : Delivers R) (hq : Rests R) : Delivers (Over R) := by
  intro s d ending n hs hn
  show Delivery _ s d ending (readOnce s n)
  unfold readOnce
  rw [if_neg (Nat.ne_of_gt hn)]
  cases hs with
  | @body input b rest ending k halt hinput h hbegun =>
    refine readBody_delivers hR hq hn _ ?_ hinput h hbegun
    show turns input + _ ≤ turns input + 2
    split <;> simp
  | refused f => exact .failed rfl rfl
  | ended => exact .ended rfl rfl .ended

/-- A reader brings what its source is unpacked to, if nothing gets lost. -/
theorem over_start (hR : Delivers R) {s : σ} {x data : Bytes} {last : Option Failure}
    (hs : R s x ending) (hx : Gzip.Lossless x ending)
    (hdata : Gzip.unpacked x ending = (data, last)) :
    Over R (start s) data last := by
  have hinput : Buffered.Over R ({ inner := s, capacity := fetchLength } : Buffered σ) x ending :=
    ⟨Nat.succ_pos _, x, rfl, hs⟩
  have hheader := Gzip.readHeader_same
    (agrees_together (Buffered.delivers hR) EndingSource.delivers)
    ⟨x, ending, hinput, EndingSource.has x ending⟩
  unfold Gzip.Lossless at hx
  unfold Gzip.unpacked at hdata
  unfold start
  generalize Gzip.readHeader ({ inner := s, capacity := fetchLength } : Buffered σ) = r at hheader
  generalize Gzip.readHeader (⟨x, ending⟩ : EndingSource) = q at hheader hx hdata
  cases hheader with
  | error e =>
    cases hdata
    exact .refused e
  | @ok input t u hafter =>
    obtain ⟨rest, later, hrest, hhas⟩ := hafter
    obtain ⟨rfl, rfl⟩ := hhas
    cases hdata
    obtain ⟨d, hrun, hhalted⟩ := (Inflater.feed {} t.rest).exhaust_inflates
    exact .body hrest ⟨⟨sound_start, ⟨d, hrun⟩⟩, hhalted, hx t rfl⟩ (Or.inl rfl)

end GzipReader
end ChatBackup
