import LibEmbedding.Foundation.Buffer
import LibEmbedding.Types

/-!
# Batch ranges

`batch.hpp`: how many batches cover `total` items and which items batch `index`
holds. A nonpositive batch size means one batch.
-/

namespace LibEmbedding

open Foundation

structure BatchRange where
  start : Int
  stop : Int
  deriving DecidableEq, Repr

def batchCount (total batchSize : Int) : Checked Int := do
  let batchSize := if batchSize ≤ 0 then total else batchSize
  let sum ← addInt total batchSize
  let sum ← subInt sum 1
  divInt sum batchSize

def getBatch (index total batchSize : Int) : Checked BatchRange := do
  let batchSize := if batchSize ≤ 0 then total else batchSize
  let start ← mulInt index batchSize
  let stop ← addInt start batchSize
  return ⟨start, min stop total⟩

/-- The rounded-up quotient, while `total + batchSize` is an `int`. -/
theorem batchCount_ok {total batchSize : Int} (ht : 0 ≤ total) (hb : 0 < batchSize) :
    batchCount total batchSize = .ok k ↔
      total + batchSize ≤ intMax ∧ (total + batchSize - 1) / batchSize = k := by
  have hneg : ¬batchSize ≤ 0 := by omega
  have hdiv : (total + batchSize - 1).tdiv batchSize = (total + batchSize - 1) / batchSize :=
    Int.tdiv_eq_ediv_of_nonneg (by omega)
  simp only [batchCount, if_neg hneg, bind_ok, addInt, subInt, narrow_ok, divInt_ok]
  constructor
  · rintro ⟨_, ⟨hs, rfl⟩, _, ⟨_, rfl⟩, _, _, hk⟩
    exact ⟨hs.2, hdiv ▸ hk⟩
  · rintro ⟨hs, hk⟩
    have hle := Int.ediv_le_self batchSize (by omega : 0 ≤ total + batchSize - 1)
    have hge := Int.ediv_nonneg (by omega : 0 ≤ total + batchSize - 1) hb.le
    have hmin : intMin ≤ 0 := by decide
    exact ⟨_, ⟨⟨by omega, hs⟩, rfl⟩, _, ⟨⟨by omega, by omega⟩, rfl⟩, by omega,
      ⟨by omega, by omega⟩, hdiv.trans hk⟩

theorem batchCount_total {total batchSize : Int} (ht : 0 ≤ total) (hb : 0 < batchSize)
    (h : total + batchSize ≤ intMax) :
    batchCount total batchSize = .ok ((total + batchSize - 1) / batchSize) :=
  (batchCount_ok ht hb).mpr ⟨h, rfl⟩

/-- Each batch before the count starts inside the items and has no overflow. -/
theorem getBatch_total {index total batchSize : Int} (hb : 0 < batchSize)
    (h : total + batchSize ≤ intMax) (hi : 0 ≤ index)
    (hlt : index < (total + batchSize - 1) / batchSize) :
    getBatch index total batchSize =
      .ok ⟨index * batchSize, min (index * batchSize + batchSize) total⟩ ∧
    0 ≤ index * batchSize ∧ index * batchSize < total := by
  have hneg : ¬batchSize ≤ 0 := by omega
  have hstart : index * batchSize < total := by
    have hmul : (index + 1) * batchSize ≤ total + batchSize - 1 :=
      (Int.le_ediv_iff_mul_le hb).mp (by omega)
    rw [add_mul, one_mul] at hmul
    omega
  have hnonneg : 0 ≤ index * batchSize := mul_nonneg hi hb.le
  have hmin : intMin ≤ 0 := by decide
  have hmul : mulInt index batchSize = .ok (index * batchSize) :=
    narrow_eq ⟨by omega, by omega⟩
  have hadd : addInt (index * batchSize) batchSize = .ok (index * batchSize + batchSize) :=
    narrow_eq ⟨by omega, by omega⟩
  refine ⟨?_, hnonneg, hstart⟩
  simp only [getBatch, if_neg hneg, hmul, hadd, ok_bind]
  rfl

/-- Without a batch size all items make one batch. -/
theorem batchCount_nonpos {total batchSize : Int} (ht : 0 < total) (hb : batchSize ≤ 0) :
    batchCount total batchSize = batchCount total total := by
  have hneg : ¬total ≤ 0 := by omega
  simp only [batchCount, if_pos hb, if_neg hneg]

theorem getBatch_nonpos {index total batchSize : Int} (ht : 0 < total) (hb : batchSize ≤ 0) :
    getBatch index total batchSize = getBatch index total total := by
  have hneg : ¬total ≤ 0 := by omega
  simp only [getBatch, if_pos hb, if_neg hneg]

/-- The batches before `index` hold the items before its start, and the last batch
ends with the last item. -/
theorem batch_end {total batchSize : Int} (hb : 0 < batchSize) :
    total ≤ (total + batchSize - 1) / batchSize * batchSize := by
  have := Int.lt_ediv_add_one_mul_self (total + batchSize - 1) hb
  rw [add_mul, one_mul] at this
  omega

-- ---------------------------------------------------------------------------
-- Slices
-- ---------------------------------------------------------------------------

/-- What batch `k` holds of a list, for batches of `b`. -/
def slice (b : Nat) (l : List α) (k : Nat) : List α := (l.drop (k * b)).take b

/-- How many batches of `b` cover `n` items. -/
def sliceCount (b n : Nat) : Nat := (n + b - 1) / b

theorem length_slice (b : Nat) (l : List α) (k : Nat) :
    (slice b l k).length = min b (l.length - k * b) := by
  simp [slice]

theorem getElem?_slice {l : List α} (hi : i < b) : (slice b l k)[i]? = l[k * b + i]? := by
  rw [slice, List.getElem?_take, if_pos hi, List.getElem?_drop]

theorem lt_of_getElem?_slice {l : List α} {i : Nat} (h : (slice b l k)[i]? = some x) : i < b := by
  have hlt := (List.getElem?_eq_some_iff.mp h).1
  rw [length_slice] at hlt
  omega

theorem getElem?_of_slice {l : List α} {i : Nat} (h : (slice b l k)[i]? = some x) :
    l[k * b + i]? = some x := by
  rwa [getElem?_slice (lt_of_getElem?_slice h)] at h

theorem mem_of_mem_slice {l : List α} (h : x ∈ slice b l k) : x ∈ l :=
  List.mem_of_mem_drop (List.mem_of_mem_take h)

/-- Batches share no item of a list without repetitions. -/
theorem slice_disjoint {l : List α} (h : l.Nodup) (hx : x ∈ slice b l k)
    (hx' : x ∈ slice b l k') : k = k' := by
  obtain ⟨i, hi⟩ := List.getElem?_of_mem hx
  obtain ⟨i', hi'⟩ := List.getElem?_of_mem hx'
  have hb := lt_of_getElem?_slice hi
  have hb' := lt_of_getElem?_slice hi'
  have hi := getElem?_of_slice hi
  have hi' := getElem?_of_slice hi'
  have heq := (List.getElem?_inj (List.getElem?_eq_some_iff.mp hi).1 h).mp (hi.trans hi'.symm)
  have hdiv : (k * b + i) / b = (k' * b + i') / b := congrArg (· / b) heq
  rwa [row_of_place hb, row_of_place hb'] at hdiv

theorem slice_nodup {l : List α} (h : l.Nodup) : (slice b l k).Nodup :=
  h.sublist ((List.take_sublist ..).trans (List.drop_sublist ..))

/-- The items before batch `k`, and then those of the batch. -/
theorem take_append_slice (b : Nat) (l : List α) (k : Nat) :
    l.take (k * b) ++ slice b l k = l.take ((k + 1) * b) := by
  rw [slice, Nat.succ_mul, List.take_add]

theorem sliceCount_cast {b : Nat} (hb : 0 < b) (n : Nat) :
    (sliceCount b n : Int) = ((n : Int) + b - 1) / b := by
  have hsum : ((n + b - 1 : Nat) : Int) = (n : Int) + b - 1 := by omega
  rw [sliceCount, Int.natCast_ediv, hsum]

theorem le_sliceCount_mul {b : Nat} (hb : 0 < b) (n : Nat) : n ≤ sliceCount b n * b := by
  have hend : (n : Int) ≤ ((n : Int) + b - 1) / b * b := batch_end (by omega)
  rw [← sliceCount_cast hb] at hend
  exact_mod_cast hend

/-- The batches hold all items. -/
theorem take_slices {b : Nat} (hb : 0 < b) (l : List α) :
    l.take (sliceCount b l.length * b) = l :=
  List.take_of_length_le (le_sliceCount_mul hb l.length)

theorem flatMap_slices (b : Nat) (l : List α) (n : Nat) :
    (List.range n).flatMap (slice b l) = l.take (n * b) := by
  induction n with
  | zero => simp
  | succ n ih => rw [List.range_succ, List.flatMap_append, ih, List.flatMap_singleton, take_append_slice]

theorem sliceCount_zero {b : Nat} (hb : 0 < b) : sliceCount b 0 = 0 :=
  Nat.div_eq_of_lt (by omega)

theorem sliceCount_step {b n : Nat} (hb : 0 < b) (hn : 0 < n) :
    sliceCount b n = sliceCount b (n - b) + 1 := by
  unfold sliceCount
  rcases Nat.le_total b n with hle | hle
  · rw [← Nat.add_div_right _ hb]
    congr 1
    omega
  · rw [Nat.sub_eq_zero_of_le hle, Nat.div_eq_of_lt (by omega : 0 + b - 1 < b)]
    exact Nat.div_eq_of_lt_le (by omega) (by omega)

theorem sliceCount_pos {b n : Nat} (hb : 0 < b) (hn : 0 < n) : 0 < sliceCount b n := by
  rw [sliceCount_step hb hn]
  exact Nat.succ_pos _

/-- Item `p` is in batch `p / b`. -/
theorem slice_covers {b n : Nat} (hb : 0 < b) {p : Nat} (hp : p < n) :
    p / b < sliceCount b n ∧ p % b < b ∧ p / b * b + p % b = p := by
  refine ⟨?_, Nat.mod_lt p hb, Nat.div_add_mod' p b⟩
  rw [sliceCount, Nat.lt_div_iff_mul_lt hb]
  have := Nat.div_mul_le_self p b
  have := Nat.div_add_mod' p b
  have := Nat.mod_lt p hb
  omega

theorem slice_start_lt {b n k : Nat} (hb : 0 < b) (hk : k < sliceCount b n) : k * b < n := by
  rw [sliceCount, Nat.lt_div_iff_mul_lt hb] at hk
  have : k * b = b * k := Nat.mul_comm k b
  omega

theorem slice_ne_nil {b : Nat} {l : List α} {k : Nat} (hb : 0 < b)
    (hk : k < sliceCount b l.length) : slice b l k ≠ [] := by
  have hin := slice_start_lt hb hk
  refine List.length_pos_iff.mp ?_
  rw [length_slice]
  omega

theorem batchCount_slices {b n : Nat} (hb : 0 < b) :
    batchCount n b = .ok count ↔ (n : Int) + b ≤ intMax ∧ (sliceCount b n : Int) = count := by
  rw [batchCount_ok (by omega) (by omega), sliceCount_cast hb]

/-- The range of batch `k` is that of its slice. -/
theorem getBatch_slice {b : Nat} {l : List α} {k : Nat} (hb : 0 < b)
    (hfits : (l.length : Int) + b ≤ intMax) (hk : k < sliceCount b l.length) :
    ∃ range, getBatch k l.length b = .ok range ∧ range.start.toNat = k * b ∧
      (range.stop - range.start).toNat = (slice b l k).length := by
  have hlt : (k : Int) < ((l.length : Int) + b - 1) / b := by
    rw [← sliceCount_cast hb]
    exact_mod_cast hk
  obtain ⟨hrange, -, -⟩ := getBatch_total (by omega) hfits (Int.natCast_nonneg k) hlt
  have hstart : ((k * b : Nat) : Int) = (k : Int) * b := Nat.cast_mul k b
  refine ⟨_, hrange, ?_, ?_⟩
  · show ((k : Int) * b).toNat = k * b
    omega
  · show (min ((k : Int) * b + b) l.length - (k : Int) * b).toNat = (slice b l k).length
    rw [length_slice]
    omega

end LibEmbedding
