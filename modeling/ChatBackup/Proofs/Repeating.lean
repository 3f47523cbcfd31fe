import ChatBackup.Gzip.Repeats

/-!
# Repeats stand for the data

To carry out the items of a block is to put out the bytes and copies that they tell
(`Inflater.expand`). The search for repeats tells data in such a way that it comes out again:

> `Repeats.expand_items`: the items for data put out exactly the data, behind any history.

A copy is taken where the bytes at two places were compared (`common_spec`). It may reach into the
bytes that it puts out itself, so it is followed byte by byte: each byte it repeats was either there
before or was put out on the way (`copied_eq`). What bears on the choice of a place is only that
places that are remembered lie behind (`Behind`).
-/

namespace ChatBackup

namespace Inflater

/-- What was put out, with bytes from a distance back repeated. -/
def copied (out : Array UInt8) (distance : Nat) : Nat → Array UInt8
  | 0 => out
  | n + 1 => copied (out.push (back out distance)) distance n

/-- What was put out, with what an item stands for behind it. -/
def put (out : Array UInt8) : BlockItem → Array UInt8
  | .literal byte => out.push byte
  | .copy distance length => copied out distance length
  | .endOfBlock => out

/-- What was put out, with what items stand for behind it. -/
def expand (out : Array UInt8) (items : List BlockItem) : Array UInt8 := items.foldl put out

end Inflater

namespace Repeats

open Inflater

variable {data history : Array UInt8} {latest : Array Nat} {i j k : Nat}

/-- Copies of the lengths and distances that can be told. -/
def Tellable : BlockItem → Prop
  | .literal _ => True
  | .copy distance length =>
    minLength ≤ length ∧ length ≤ maxLength ∧ 0 < distance ∧ distance ≤ window
  | .endOfBlock => False

/-! ## Comparing -/

theorem common_le (data : Array UInt8) : ∀ (limit i j : Nat), common data limit i j ≤ limit
  | 0, _, _ => Nat.le_refl _
  | limit + 1, i, j => by
    unfold common
    split
    · split
      · exact Nat.succ_le_succ (common_le data limit (i + 1) (j + 1))
      · exact Nat.zero_le _
    · exact Nat.zero_le _

/-- The bytes from two places on are the same as far as is told. -/
theorem common_spec : ∀ (limit : Nat) {i j t : Nat}, t < common data limit i j →
    ∃ x, data[i + t]? = some x ∧ data[j + t]? = some x
  | 0, i, j, t, h => absurd h (Nat.not_lt_zero t)
  | limit + 1, i, j, t, h => by
    unfold common at h
    split at h
    next x y hx hy =>
      split at h
      next hxy =>
        subst hxy
        cases t with
        | zero => exact ⟨x, hx, hy⟩
        | succ t =>
          obtain ⟨z, hz⟩ := common_spec limit (Nat.lt_of_succ_lt_succ h)
          rw [Nat.add_right_comm, Nat.add_right_comm j] at hz
          exact ⟨z, hz⟩
      next => exact absurd h (Nat.not_lt_zero t)
    next => exact absurd h (Nat.not_lt_zero t)

/-! ## Copying -/

theorem extract_succ {x : UInt8} (h : data[i]? = some x) :
    (data.extract 0 i).push x = data.extract 0 (i + 1) := by
  obtain ⟨hi, rfl⟩ := Array.getElem?_eq_some_iff.mp h
  rw [Array.push_extract_getElem, Nat.zero_min]

/-- The byte at a distance that reaches back into the data. -/
theorem back_extract {x : UInt8} (hk : k < i) (hi : i ≤ data.size) (h : data[k]? = some x) :
    back (history ++ data.extract 0 i) (i - k) = x := by
  have hsize : (history ++ data.extract 0 i).size = history.size + i := by
    rw [Array.size_append, Array.size_extract, Nat.min_eq_left hi, Nat.sub_zero]
  have hplace : history.size + i - (i - k) - history.size = k := by omega
  have hget : (data.extract 0 i)[k]? = some x := by
    rw [Array.getElem?_extract, if_pos (by rw [Nat.min_eq_left hi]; omega), Nat.zero_add]
    exact h
  rw [back, hsize, if_pos (by omega), Array.getElem?_append_right (by omega), hplace, hget]
  rfl

/-- A copy puts out the data as far as it goes on in the same way. -/
theorem copied_eq : ∀ (n : Nat) {i k : Nat}, k < i →
    (∀ t < n, ∃ x, data[k + t]? = some x ∧ data[i + t]? = some x) →
      copied (history ++ data.extract 0 i) (i - k) n = history ++ data.extract 0 (i + n) := by
  intro n
  induction n with
  | zero => intro i k _ _; rfl
  | succ n ih =>
    intro i k hk hsame
    obtain ⟨x, hx, hy⟩ := hsame 0 (Nat.succ_pos n)
    rw [Nat.add_zero] at hx hy
    have hi : i < data.size := (Array.getElem?_eq_some_iff.mp hy).1
    have hnext := ih (i := i + 1) (k := k + 1) (Nat.succ_lt_succ hk) fun t ht => by
      have := hsame (t + 1) (Nat.succ_lt_succ ht)
      rwa [Nat.add_right_comm k, Nat.add_right_comm i]
    -- the byte that is repeated is there, put out by this copy or before it
    rw [copied, back_extract hk (Nat.le_of_lt hi) hx, ← Array.append_push, extract_succ hy]
    rw [Nat.add_sub_add_right] at hnext
    rw [hnext, Nat.add_right_comm]
    rfl

/-! ## The search -/

/-- The places that are remembered lie behind. -/
def Behind (latest : Array Nat) (i : Nat) : Prop := ∀ m : Nat, (latest[m]?).getD 0 ≤ i

theorem behind_new (i : Nat) : Behind (Array.replicate markCount 0) i := by
  intro m
  rw [Array.getElem?_replicate]
  split <;> exact Nat.zero_le i

theorem Behind.set (h : Behind latest i) (hij : i < j) (m : Nat) :
    Behind (latest.setIfInBounds m (i + 1)) j := by
  intro n
  rw [Array.getElem?_setIfInBounds]
  split
  · split
    · exact hij
    · exact Nat.zero_le j
  · exact Nat.le_trans (h n) (Nat.le_of_lt hij)

/-- A copy that is long enough repeats what stands at a place behind. -/
theorem candidate_spec (h : Behind latest i) (hlen : minLength ≤ (candidate data latest i).1) :
    ∃ k < i, i - k ≤ window ∧ candidate data latest i = (common data maxLength k i, i - k) := by
  have hplace := h (mark data i)
  have hnone : ¬ minLength ≤ 0 := by decide
  unfold candidate at hlen ⊢
  split at hlen
  next => exact absurd hlen hnone
  next k hk =>
    split at hlen
    next => exact absurd hlen hnone
    next hnear =>
      rw [hk] at hplace
      exact ⟨k, hplace, Nat.le_of_not_lt hnear, if_neg hnear⟩

theorem expand_snoc (out : Array UInt8) (items : List BlockItem) (item : BlockItem) :
    expand out (items ++ [item]) = put (expand out items) item := by
  rw [expand, List.foldl_append, ← expand]
  rfl

/-- With items that tell the data up to a position those found from there on tell all of it. -/
theorem itemsFrom_spec : ∀ (fuel : Nat) {i : Nat} {latest : Array Nat} {items : List BlockItem},
    data.size ≤ i + fuel → i ≤ data.size → Behind latest i → (∀ item ∈ items, Tellable item) →
      expand history items.reverse = history ++ data.extract 0 i →
        (∀ item ∈ itemsFrom data fuel i latest items, Tellable item) ∧
          expand history (itemsFrom data fuel i latest items).reverse = history ++ data := by
  intro fuel
  induction fuel with
  | zero =>
    intro i latest items hfuel hi _ htell hout
    obtain rfl : i = data.size := Nat.le_antisymm hi hfuel
    rw [Array.extract_size] at hout
    exact ⟨htell, hout⟩
  | succ fuel ih =>
    intro i latest items hfuel hi hbehind htell hout
    unfold itemsFrom
    split
    next hnone =>
      obtain rfl : i = data.size := Nat.le_antisymm hi (Array.getElem?_eq_none_iff.mp hnone)
      rw [Array.extract_size] at hout
      exact ⟨htell, hout⟩
    next x hx =>
      have hlt : i < data.size := (Array.getElem?_eq_some_iff.mp hx).1
      generalize hc : candidate data latest i = c
      obtain ⟨length, distance⟩ := c
      simp only
      split
      next =>
        refine ih (by omega) hlt (hbehind.set (Nat.lt_succ_self i) _) ?_ ?_
        · exact List.forall_mem_cons.mpr ⟨trivial, htell⟩
        · rw [List.reverse_cons, expand_snoc, hout, put, ← Array.append_push, extract_succ hx]
      next hlong =>
        have hmin : 3 ≤ (candidate data latest i).1 := by
          rw [hc]
          exact Nat.le_of_not_lt hlong
        obtain ⟨k, hk, hnear, hcand⟩ := candidate_spec hbehind hmin
        rw [hcand] at hmin
        obtain ⟨rfl, rfl⟩ := Prod.mk.inj (hc.symm.trans hcand)
        -- the last byte of the copy is one of the data
        have hlast : common data maxLength k i - 1 < common data maxLength k i := by omega
        obtain ⟨y, -, hy⟩ := common_spec maxLength hlast
        have hend := (Array.getElem?_eq_some_iff.mp hy).1
        refine ih (by omega) (by omega) (hbehind.set (by omega) _) ?_ ?_
        · exact List.forall_mem_cons.mpr
            ⟨⟨hmin, common_le data _ _ _, Nat.sub_pos_of_lt hk, hnear⟩, htell⟩
        · rw [List.reverse_cons, expand_snoc, hout, put]
          exact copied_eq _ hk fun t ht => common_spec maxLength ht

theorem tellable_of_mem_items (data : Array UInt8) : ∀ item ∈ items data, Tellable item := by
  intro item hitem
  rw [items, List.mem_reverse] at hitem
  have hnew : expand #[] ([] : List BlockItem).reverse = #[] ++ data.extract 0 0 := by simp [expand]
  exact (itemsFrom_spec data.size (Nat.le_add_left _ _) (Nat.zero_le _) (behind_new 0) (by simp)
    hnew).1 item hitem

/-- **Repeats stand for the data**: carried out behind any history the items put out the data. -/
theorem expand_items (history data : Array UInt8) :
    expand history (items data) = history ++ data := by
  have hnew : expand history ([] : List BlockItem).reverse = history ++ data.extract 0 0 := by
    simp [expand]
  exact (itemsFrom_spec data.size (Nat.le_add_left _ _) (Nat.zero_le _) (behind_new 0) (by simp)
    hnew).2

end Repeats
end ChatBackup
