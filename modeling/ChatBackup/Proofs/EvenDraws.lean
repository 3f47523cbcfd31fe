import Mathlib.Data.FinEnum
import Mathlib.Algebra.BigOperators.Option
import Mathlib.Data.Fintype.BigOperators
import Mathlib.SetTheory.Cardinal.Finite
import Mathlib.Tactic.Ring
import ChatBackup.Proofs.OutputSize

/-!
# Random padding is drawn evenly

Random padding is a number from nothing up to a bound, drawn by trials: a draw of 64 bits is
multiplied with the size of the range, and the upper half of the product is taken unless the lower
half lies behind a zone. This file counts what comes of the draws.

> `padding_safe_and_even`: for any ends of buckets no padding leaves the numbers of 64 bits, and
> every random padding that is allowed is the outcome of equally many draws.

The zone is as long as a multiple `share` of the range. So the draws that come to `k` are those
whose product with the range lies in a stretch of that length, which are `share` neighbours
(`outcome_eq_some_iff`), and none of them is cut off at the greatest draw
(`firstDraw_add_share_le`). From one draw the law of a whole series follows by what its first draw
comes to (`card_series`).
-/

namespace ChatBackup

namespace Padding

/-! ## One draw -/

/-- What one draw comes to for a padding of up to `most` bytes, unless it is rejected. -/
def outcome (most : Nat) (draw : UInt64) : Option Nat :=
  if most = maxUInt64 then some draw.toNat else trial (most + 1) draw.toNat

/-- How many draws come to each padding of up to `most` bytes. -/
def share (most : Nat) : Nat := 2 ^ (63 - (most + 1).log2)

/-- The least draw that comes to a padding of `k` bytes out of up to `most`. -/
def firstDraw (most k : Nat) : Nat := (k * UInt64.size + most) / (most + 1)

/-- Padding is what the first draw comes to that is not rejected. -/
theorem uniform_fst (most : Nat) (draws : List UInt64) :
    (uniform most draws).1 = (draws.findSome? (outcome most)).getD 0 := by
  induction draws with
  | nil => rfl
  | cons draw draws ih =>
    rw [uniform, List.findSome?_cons, outcome]
    split
    next => rfl
    next =>
      cases trial (most + 1) draw.toNat with
      | some n => rfl
      | none => exact ih

theorem firstBucket_le_sizeBy (ends : Nat → UInt64) (n : Nat) : firstBucket ≤ sizeBy ends n := by
  unfold sizeBy
  split <;> omega

theorem firstDraw_le_iff {most k v : Nat} :
    firstDraw most k ≤ v ↔ k * UInt64.size ≤ (most + 1) * v := by
  rw [firstDraw, Nat.div_le_iff_le_mul_add_pred (Nat.succ_pos most)]
  exact Nat.add_le_add_iff_right

variable {most : Nat}

/-- The zone is less by one than the range times its share, which is at least half of all draws. -/
theorem range_mul_share (h : most < maxUInt64) :
    (most + 1) <<< (63 - (most + 1).log2) = (most + 1) * share most ∧
      2 ^ 63 ≤ (most + 1) * share most ∧ (most + 1) * share most < UInt64.size := by
  have hlog : (most + 1).log2 < 64 := by
    rw [Nat.log2_lt (Nat.succ_ne_zero most)]
    exact Nat.lt_sub_iff_add_lt.mp h
  have hle : 2 ^ (most + 1).log2 ≤ most + 1 := Nat.log2_self_le (Nat.succ_ne_zero most)
  have hlt : most + 1 < 2 ^ ((most + 1).log2 + 1) := Nat.lt_log2_self
  have hsplit : 2 ^ (most + 1).log2 * share most = 2 ^ 63 := by
    rw [share, ← Nat.pow_add]
    congr 1
    omega
  refine ⟨Nat.shiftLeft_eq _ _, ?_, ?_⟩
  · rw [← hsplit]
    exact Nat.mul_le_mul_right _ hle
  · calc (most + 1) * share most
        < 2 ^ ((most + 1).log2 + 1) * share most :=
          Nat.mul_lt_mul_of_pos_right hlt (Nat.two_pow_pos _)
      _ = UInt64.size := by rw [Nat.pow_succ, Nat.mul_right_comm, hsplit]; rfl

/-- The draws of a trial that come to `k` are those whose product lies in a stretch of the length of
the zone. -/
theorem trial_eq_some_iff (h : most < maxUInt64) {v k : Nat} :
    trial (most + 1) v = some k ↔
      k * UInt64.size ≤ (most + 1) * v ∧
        (most + 1) * v < k * UInt64.size + (most + 1) * share most := by
  obtain ⟨hzone, hleast, hmost⟩ := range_mul_share h
  rw [trial, hzone, Nat.mul_comm v]
  generalize (most + 1) * v = p
  generalize (most + 1) * share most = z at *
  rw [UInt64.size] at *
  simp only [Option.ite_none_right_eq_some, Option.some.injEq]
  omega

theorem firstDraw_all (k : Nat) : firstDraw maxUInt64 k = k := by
  rw [firstDraw, maxUInt64, UInt64.size]
  omega

theorem share_all : share maxUInt64 = 1 := by decide

/-- The draws that come to `k` are neighbours. -/
theorem outcome_eq_some_iff (h : most ≤ maxUInt64) {draw : UInt64} {k : Nat} :
    outcome most draw = some k ↔
      firstDraw most k ≤ draw.toNat ∧ draw.toNat < firstDraw most k + share most := by
  unfold outcome
  split
  next hall =>
    subst hall
    rw [firstDraw_all, share_all, Option.some.injEq]
    omega
  next hne =>
    rw [trial_eq_some_iff (Nat.lt_of_le_of_ne h hne), firstDraw_le_iff]
    refine and_congr_right fun _ => ?_
    by_cases hv : draw.toNat < share most
    · have hproduct : (most + 1) * draw.toNat < (most + 1) * share most :=
        Nat.mul_lt_mul_of_pos_left hv (Nat.succ_pos most)
      omega
    · obtain ⟨w, hw⟩ := Nat.exists_eq_add_of_le (Nat.le_of_not_lt hv)
      have hfirst := @firstDraw_le_iff most k w
      rw [hw, Nat.mul_add]
      omega

/-- No share is cut off: the draws that come to `k` end before the numbers of 64 bits do. -/
theorem firstDraw_add_share_le (h : most ≤ maxUInt64) {k : Nat} (hk : k ≤ most) :
    firstDraw most k + share most ≤ UInt64.size := by
  by_cases hall : most = maxUInt64
  · subst hall
    rw [firstDraw_all, share_all]
    exact Nat.lt_of_le_of_lt hk (by decide)
  obtain ⟨-, -, hmost⟩ := range_mul_share (Nat.lt_of_le_of_ne h hall)
  have hshare : share most ≤ UInt64.size :=
    (Nat.le_mul_of_pos_left _ (Nat.succ_pos most)).trans (Nat.le_of_lt hmost)
  refine Nat.add_le_of_le_sub hshare ?_
  rw [firstDraw_le_iff, Nat.mul_sub]
  apply Nat.le_sub_of_add_le
  calc k * UInt64.size + (most + 1) * share most
      ≤ k * UInt64.size + UInt64.size := Nat.add_le_add_left (Nat.le_of_lt hmost) _
    _ = (k + 1) * UInt64.size := (Nat.succ_mul k _).symm
    _ ≤ (most + 1) * UInt64.size := Nat.mul_le_mul_right _ (Nat.succ_le_succ hk)

/-- As many draws come to one padding as to any other. -/
theorem card_outcome (h : most ≤ maxUInt64) {k : Nat} (hk : k ≤ most) :
    Nat.card {draw : UInt64 // outcome most draw = some k} = share most := by
  have hlast := firstDraw_add_share_le h hk
  have hsize (i : Fin (share most)) :
      (UInt64.ofNat (firstDraw most k + i)).toNat = firstDraw most k + i := by
    rw [UInt64.toNat_ofNat']
    exact Nat.mod_eq_of_lt (Nat.lt_of_lt_of_le (Nat.add_lt_add_left i.isLt _) hlast)
  let e : {draw : UInt64 // outcome most draw = some k} ≃ Fin (share most) :=
    { toFun := fun d => ⟨d.1.toNat - firstDraw most k, by
        have := (outcome_eq_some_iff h).mp d.2
        omega⟩
      invFun := fun i => ⟨.ofNat (firstDraw most k + i), by
        rw [outcome_eq_some_iff h, hsize]
        omega⟩
      left_inv := fun d => by
        have := (outcome_eq_some_iff h).mp d.2
        apply Subtype.ext
        rw [← UInt64.toNat_inj, hsize]
        exact Nat.add_sub_cancel' this.1
      right_inv := fun i => by
        apply Fin.ext
        show (UInt64.ofNat (firstDraw most k + i)).toNat - firstDraw most k = i
        rw [hsize, Nat.add_sub_cancel_left] }
  rw [Nat.card_congr e, Nat.card_fin]

/-- Draws that are not rejected come to a padding of at most `most` bytes. -/
theorem outcome_le {draw : UInt64} {k : Nat} (hk : outcome most draw = some k) : k ≤ most := by
  unfold outcome at hk
  split at hk
  next hall =>
    cases hk
    rw [hall]
    exact Nat.le_of_lt_succ draw.toNat_lt
  next => exact Nat.le_of_lt_succ (trial_lt hk (Nat.succ_pos most))

/-! ## Counting draws -/

theorem card_uint64 : Fintype.card UInt64 = UInt64.size := by
  rw [Fintype.card_congr ⟨UInt64.toFin, UInt64.ofFin, fun _ => rfl, fun _ => rfl⟩, Fintype.card_fin]

theorem card_eq_filter {α : Type} [Fintype α] (p : α → Prop) [DecidablePred p] :
    Nat.card {x // p x} = (Finset.univ.filter p).card := by
  rw [Nat.card_eq_fintype_card, Fintype.card_subtype]

/-- The draws that are rejected are those that no padding has a share in. -/
theorem card_rejected (h : most ≤ maxUInt64) :
    Nat.card {draw : UInt64 // outcome most draw = none} + (most + 1) * share most =
      UInt64.size := by
  have hmaps : ((Finset.univ : Finset UInt64) : Set UInt64).MapsTo (outcome most)
      (Finset.insertNone (Finset.range (most + 1))) := by
    intro draw _
    rw [Finset.mem_coe, Finset.mem_insertNone]
    intro k hk
    exact Finset.mem_range.mpr (Nat.lt_succ_of_le (outcome_le hk))
  have heach : ∀ k ∈ Finset.range (most + 1),
      (Finset.univ.filter fun draw => outcome most draw = some k).card = share most := by
    intro k hk
    rw [← card_eq_filter, card_outcome h (Nat.le_of_lt_succ (Finset.mem_range.mp hk))]
  rw [← card_uint64, ← Finset.card_univ, Finset.card_eq_sum_card_fiberwise hmaps,
    Finset.sum_insertNone, Finset.sum_const_nat heach, Finset.card_range, card_eq_filter]

/-! ## Counting series of draws -/

/-- A series of draws either begins with one that comes to `b`, or the first one is rejected and the
others come to `b`. -/
theorem card_series_succ {α β : Type} [Fintype α] [DecidableEq β] (f : α → Option β) (t : Nat)
    (b : β) :
    Nat.card {s : Fin (t + 1) → α // (List.ofFn s).findSome? f = some b} =
      Nat.card {a // f a = some b} * Fintype.card α ^ t +
        Nat.card {a // f a = none} *
          Nat.card {s : Fin t → α // (List.ofFn s).findSome? f = some b} := by
  classical
  let first : Finset (α × (Fin t → α)) := (Finset.univ.filter (f · = some b)) ×ˢ Finset.univ
  let later : Finset (α × (Fin t → α)) := (Finset.univ.filter (f · = none)) ×ˢ
    Finset.univ.filter fun s => (List.ofFn s).findSome? f = some b
  have hsplit : (Finset.univ.filter fun s : Fin (t + 1) → α =>
      (List.ofFn s).findSome? f = some b) =
        (first ∪ later).map (Fin.consEquiv fun _ => α).toEmbedding := by
    ext s
    rw [Finset.mem_map_equiv]
    simp only [first, later, Finset.mem_filter, Finset.mem_univ, true_and, List.ofFn_succ,
      List.findSome?_cons, Finset.mem_union, Finset.mem_product, Fin.consEquiv_symm_apply, and_true]
    cases f (s 0) with
    | none => simp [Fin.tail_def]
    | some a => simp
  have hdisjoint : Disjoint first later := by
    rw [Finset.disjoint_left]
    rintro ⟨a, s⟩ hfirst hlater
    simp only [first, later, Finset.mem_product, Finset.mem_filter] at hfirst hlater
    rw [hfirst.1.2] at hlater
    exact nomatch hlater.1.2
  rw [card_eq_filter, hsplit, Finset.card_map, Finset.card_union_of_disjoint hdisjoint,
    Finset.card_product, Finset.card_product, Finset.card_univ, Fintype.card_fun, Fintype.card_fin,
    card_eq_filter, card_eq_filter, card_eq_filter]

/-- Every padding has the same share of the series of draws that are not all rejected. -/
theorem card_series (h : most ≤ maxUInt64) {k : Nat} (hk : k ≤ most) (t : Nat) :
    (most + 1) * Nat.card {draws : Fin t → UInt64 //
        (List.ofFn draws).findSome? (outcome most) = some k} +
      Nat.card {draw : UInt64 // outcome most draw = none} ^ t = UInt64.size ^ t := by
  have hall := card_rejected h
  induction t with
  | zero => simp
  | succ t ih =>
    rw [card_series_succ, card_outcome h hk, card_uint64]
    generalize Nat.card {draws : Fin t → UInt64 //
      (List.ofFn draws).findSome? (outcome most) = some k} = n at ih ⊢
    generalize Nat.card {draw : UInt64 // outcome most draw = none} = r at *
    calc (most + 1) * (share most * UInt64.size ^ t + r * n) + r ^ (t + 1)
        = (most + 1) * share most * UInt64.size ^ t + r * ((most + 1) * n + r ^ t) := by ring
      _ = (r + (most + 1) * share most) * UInt64.size ^ t := by rw [ih]; ring
      _ = UInt64.size ^ (t + 1) := by rw [hall, Nat.pow_succ']

/-- At most every second draw is rejected. -/
theorem two_mul_card_rejected_le (h : most ≤ maxUInt64) :
    2 * Nat.card {draw : UInt64 // outcome most draw = none} ≤ UInt64.size := by
  have hall := card_rejected h
  have hleast : 2 ^ 63 ≤ (most + 1) * share most := by
    by_cases hmost : most = maxUInt64
    · rw [hmost, share_all]
      decide
    · exact (range_mul_share (Nat.lt_of_le_of_ne h hmost)).2.1
  generalize (most + 1) * share most = accepted at *
  rw [UInt64.size] at *
  omega

end Padding

/-! ## The main statement -/

/-- **Padding is safe arithmetic, and random padding is drawn evenly.** Let `n` be a length of 64
bits, whatever was computed for the ends of buckets. The size it is padded to is a number of 64 bits
and neither below the first bucket nor below `n`. Bucketed padding fills `n` up to that size. Random
padding has a bound `most`, from `n` up to the size for the next length; whatever is drawn, it is
the first draw that is not rejected, at most `most`, and with `n` it stays below the size for the
next length. Every padding up to `most` is the outcome of equally many of the draws of 64 bits, and
of equally many series of draws of any length; at most every second draw is rejected. -/
theorem padding_safe_and_even (ends : Nat → UInt64) {n : Nat} (hn : n ≤ maxUInt64) :
    let size := Padding.sizeBy ends
    let next := size (min (n + 1) maxUInt64)
    let most := next - n
    (max 541 n ≤ size n ∧ size n ≤ maxUInt64) ∧
    (∀ draws, n + (Padding.amountBy ends n .bucketed draws).1 = size n) ∧
    n ≤ next ∧
    (∀ draws, let p := (Padding.amountBy ends n .randomized draws).1
      p = (draws.findSome? (Padding.outcome most)).getD 0 ∧ p ≤ most ∧ n + p ≤ next ∧
        n + p ≤ size (n + 1) ∧ n + p ≤ maxUInt64) ∧
    (∀ k ≤ most,
      Nat.card {draw : UInt64 // Padding.outcome most draw = some k} = Padding.share most ∧
      ∀ t, (most + 1) * Nat.card {draws : Fin t → UInt64 //
          (List.ofFn draws).findSome? (Padding.outcome most) = some k} +
        Nat.card {draw : UInt64 // Padding.outcome most draw = none} ^ t = UInt64.size ^ t) ∧
    2 * Nat.card {draw : UInt64 // Padding.outcome most draw = none} ≤ UInt64.size ∧
    (∀ policy draws,
      Padding.amount n policy draws = Padding.amountBy Padding.computedEnd n policy draws) ∧
    Padding.bucketSize n = Padding.sizeBy Padding.computedEnd n := by
  intro size next most
  have hsize : size n ≤ maxUInt64 := Padding.sizeBy_le ends hn
  have hnext : next ≤ maxUInt64 := Padding.sizeBy_le ends (Nat.min_le_right _ _)
  have hle : n ≤ next := (Nat.le_min.mpr ⟨Nat.le_succ n, hn⟩).trans (Padding.le_sizeBy ends _)
  have hmost : most ≤ maxUInt64 := (Nat.sub_le _ _).trans hnext
  refine ⟨⟨Nat.max_le.mpr ⟨?_, Padding.le_sizeBy ends n⟩, hsize⟩, ?_, hle, ?_, ?_,
    Padding.two_mul_card_rejected_le hmost, Padding.amount_eq n, Padding.bucketSize_eq n⟩
  · exact Padding.firstBucket_le_sizeBy ends n
  · exact fun draws => (Padding.hides ends .bucketed n draws).bucketed rfl
  · intro draws p
    have hp : p ≤ most := Padding.uniform_le most draws
    have hadd : n + p ≤ next := by omega
    exact ⟨Padding.uniform_fst most draws, hp, hadd, Padding.add_drawn_le ends n draws,
      hadd.trans hnext⟩
  · exact fun k hk => ⟨Padding.card_outcome hmost hk, Padding.card_series hmost hk⟩

/-- A length in the first bucket: each of the 442 paddings it may get is the outcome of a share of
the draws that is a power of two. -/
theorem padding_safe_and_even_of_hundred :
    100 ≤ maxUInt64 ∧ Padding.bucketSize 100 = 541 ∧ (Padding.amount 100 .bucketed []).1 = 441 ∧
      Nat.card {draw : UInt64 // Padding.outcome 441 draw = some 441} = 2 ^ 55 := by
  have hn : 100 ≤ maxUInt64 := by decide
  have hnext : Padding.sizeBy Padding.computedEnd (min (100 + 1) maxUInt64) = 541 :=
    if_pos (by decide)
  obtain ⟨-, hbucketed, -, -, heven, -, hamount, -⟩ :=
    padding_safe_and_even Padding.computedEnd hn
  have hfirst : Padding.bucketSize 100 = 541 := Padding.bucketSize_of_le (by decide)
  have hfilled := hbucketed []
  rw [← hamount, ← Padding.bucketSize_eq, hfirst] at hfilled
  rw [hnext] at heven
  refine ⟨hn, hfirst, Nat.add_left_cancel (hfilled.trans rfl), ?_⟩
  exact (heven 441 (by decide)).1

end ChatBackup
