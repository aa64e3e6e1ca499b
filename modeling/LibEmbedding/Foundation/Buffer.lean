import LibEmbedding.Foundation.Checked

/-!
# Flat buffers and the rows they hold

A buffer is the list of its elements. Reads and writes take an offset and stop
with `outOfBounds` when they leave the buffer. A matrix of row length `d` is a
buffer read at the offsets `i * d`.
-/

namespace LibEmbedding.Foundation

def readAt (buf : List α) (off len : Nat) : Checked (List α) := do
  ensure (off + len ≤ buf.length) .outOfBounds
  return (buf.drop off).take len

def writeAt (buf : List α) (off : Nat) (xs : List α) : Checked (List α) := do
  ensure (off + xs.length ≤ buf.length) .outOfBounds
  return buf.take off ++ xs ++ buf.drop (off + xs.length)

theorem readAt_ok : readAt buf off len = .ok xs ↔
    off + len ≤ buf.length ∧ (buf.drop off).take len = xs := by
  simp only [readAt, bind_ok, ensure_ok, pure_ok]
  constructor
  · rintro ⟨-, h⟩
    exact h
  · intro h
    exact ⟨(), h⟩

theorem writeAt_ok : writeAt buf off xs = .ok out ↔
    off + xs.length ≤ buf.length ∧ buf.take off ++ xs ++ buf.drop (off + xs.length) = out := by
  simp only [writeAt, bind_ok, ensure_ok, pure_ok]
  constructor
  · rintro ⟨-, h⟩
    exact h
  · intro h
    exact ⟨(), h⟩

theorem length_of_readAt (h : readAt buf off len = .ok xs) : xs.length = len := by
  obtain ⟨hb, rfl⟩ := readAt_ok.mp h
  simp only [List.length_take, List.length_drop]
  omega

theorem length_of_writeAt (h : writeAt buf off xs = .ok out) : out.length = buf.length := by
  obtain ⟨hb, rfl⟩ := writeAt_ok.mp h
  simp only [List.length_append, List.length_take, List.length_drop]
  omega

/-- What a write leaves at each place: the written element inside the range,
the old one outside. -/
theorem getElem?_of_writeAt (h : writeAt buf off xs = .ok out) (k : Nat) :
    out[k]? = if off ≤ k ∧ k < off + xs.length then xs[k - off]? else buf[k]? := by
  obtain ⟨hb, rfl⟩ := writeAt_ok.mp h
  have htake : (buf.take off).length = off := by simp; omega
  rw [List.append_assoc]
  by_cases hlow : k < off
  · rw [List.getElem?_append_left (by omega), List.getElem?_take, if_pos hlow, if_neg (by omega)]
  · rw [List.getElem?_append_right (by omega), htake]
    by_cases hin : k < off + xs.length
    · rw [List.getElem?_append_left (by omega), if_pos (by omega)]
    · rw [List.getElem?_append_right (by omega), List.getElem?_drop, if_neg (by omega)]
      congr 1
      omega

-- ---------------------------------------------------------------------------
-- Rows
-- ---------------------------------------------------------------------------

/-- Row `i` of a buffer of row length `d`. -/
def row (d i : Nat) (buf : List α) : List α := (buf.drop (i * d)).take d

theorem row_bound (hi : i < n) (d : Nat) : i * d + d ≤ n * d := by
  calc i * d + d = (i + 1) * d := by ring
    _ ≤ n * d := Nat.mul_le_mul_right d hi

/-- Each place of a buffer belongs to one row. -/
theorem row_of_place (ht : t < d) (i : Nat) : (i * d + t) / d = i := by
  rw [Nat.mul_comm, Nat.mul_add_div (by omega), Nat.div_eq_of_lt ht, Nat.add_zero]

theorem length_row (hlen : buf.length = n * d) (hi : i < n) : (row d i buf).length = d := by
  have := row_bound hi d
  simp only [row, List.length_take, List.length_drop]
  omega

theorem getElem?_row : (row d i buf)[k]? = if k < d then buf[i * d + k]? else none := by
  simp [row, List.getElem?_take]

theorem readAt_row (hlen : buf.length = n * d) (hi : i < n) :
    readAt buf (i * d) d = .ok (row d i buf) :=
  readAt_ok.mpr ⟨hlen ▸ row_bound hi d, rfl⟩

theorem writeAt_row_ok (hlen : buf.length = n * d) (hi : i < n) (hx : xs.length = d) :
    ∃ out, writeAt buf (i * d) xs = .ok out := by
  have := row_bound hi d
  exact ⟨_, writeAt_ok.mpr ⟨by omega, rfl⟩⟩

theorem row_of_writeAt (h : writeAt buf (i * d) xs = .ok out) (hx : xs.length = d) :
    row d i out = xs := by
  apply List.ext_getElem?
  intro k
  rw [getElem?_row, getElem?_of_writeAt h]
  by_cases hk : k < d
  · rw [if_pos hk, if_pos (by omega), Nat.add_sub_cancel_left]
  · rw [if_neg hk, List.getElem?_eq_none (by omega)]

/-- Distinct rows do not overlap. -/
theorem row_disjoint {i j k d : Nat} (hij : i ≠ j) (hk : k < d) :
    ¬(i * d ≤ j * d + k ∧ j * d + k < i * d + d) := by
  rintro ⟨hl, hr⟩
  rcases Nat.lt_or_gt_of_ne hij with h | h
  · have := Nat.mul_le_mul_right d (Nat.succ_le_of_lt h)
    rw [Nat.succ_mul] at this
    omega
  · have := Nat.mul_le_mul_right d (Nat.succ_le_of_lt h)
    rw [Nat.succ_mul] at this
    omega

theorem row_of_writeAt_ne (h : writeAt buf (i * d) xs = .ok out) (hx : xs.length = d)
    (hij : i ≠ j) : row d j out = row d j buf := by
  apply List.ext_getElem?
  intro k
  rw [getElem?_row, getElem?_row, getElem?_of_writeAt h, hx]
  by_cases hk : k < d
  · rw [if_pos hk, if_pos hk, if_neg (row_disjoint hij hk)]
  · rw [if_neg hk, if_neg hk]

/-- A write of whole rows replaces these rows. -/
theorem row_of_writeRows (h : writeAt buf (o * d) xs = .ok out) (hx : xs.length = m * d) (i : Nat) :
    row d i out = if o ≤ i ∧ i < o + m then row d (i - o) xs else row d i buf := by
  apply List.ext_getElem?
  intro k
  rw [getElem?_row, getElem?_of_writeAt h, hx]
  by_cases hk : k < d
  · have hend : o * d + m * d = (o + m) * d := (Nat.add_mul o m d).symm
    rw [if_pos hk, hend]
    by_cases hin : o ≤ i ∧ i < o + m
    · have hlow := Nat.mul_le_mul_right d hin.1
      have hhigh := row_bound hin.2 d
      rw [if_pos ⟨by omega, by omega⟩, if_pos hin, getElem?_row, if_pos hk, Nat.sub_mul,
        Nat.sub_add_comm hlow]
    · have hout : ¬(o * d ≤ i * d + k ∧ i * d + k < (o + m) * d) := by
        rintro ⟨hlow, hhigh⟩
        refine hin ⟨?_, Nat.lt_of_mul_lt_mul_right (Nat.lt_of_le_of_lt (Nat.le_add_right ..) hhigh)⟩
        have hlow : o * d < (i + 1) * d := by rw [Nat.succ_mul]; omega
        exact Nat.lt_succ_iff.mp (Nat.lt_of_mul_lt_mul_right hlow)
      rw [if_neg hout, if_neg hin, getElem?_row, if_pos hk]
  · rw [if_neg hk, List.getElem?_eq_none]
    split <;> simp only [row, List.length_take] <;> omega

/-- A buffer is determined by its rows. -/
theorem ext_rows (ha : a.length = n * d) (hb : b.length = n * d)
    (h : ∀ i < n, row d i a = row d i b) : a = b := by
  apply List.ext_getElem?
  intro k
  by_cases hk : k < n * d
  · have hd : 0 < d := Nat.pos_of_ne_zero fun hz => by simp [hz] at hk
    have hrow := congrArg (·[k % d]?) (h (k / d) (Nat.div_lt_of_lt_mul (by rwa [Nat.mul_comm])))
    simpa [getElem?_row, Nat.mod_lt k hd, Nat.div_add_mod' k d] using hrow
  · rw [List.getElem?_eq_none (by omega), List.getElem?_eq_none (by omega)]

/-- A row inside the first places of a buffer. -/
theorem row_take {i d : Nat} (h : i * d + d ≤ n) : row d i (buf.take n) = row d i buf := by
  rw [row, row, List.drop_take, List.take_take, Nat.min_eq_left (by omega)]

/-- A row that starts later in the same buffer. -/
theorem row_drop (k : Nat) : row d i (buf.drop (k * d)) = row d (k + i) buf := by
  rw [row, List.drop_drop, row, Nat.add_mul]

-- ---------------------------------------------------------------------------
-- Matrices from rows
-- ---------------------------------------------------------------------------

theorem length_flatMap {l : List β} {f : β → List α} (h : ∀ x ∈ l, (f x).length = d) :
    (l.flatMap f).length = l.length * d := by
  induction l with
  | nil => simp
  | cons x l ih =>
    rw [List.flatMap_cons, List.length_append, h x List.mem_cons_self,
      ih fun y hy => h y (List.mem_cons_of_mem x hy), List.length_cons]
    ring

theorem row_flatMap {l : List β} {f : β → List α} (h : ∀ x ∈ l, (f x).length = d)
    (hx : l[i]? = some x) : row d i (l.flatMap f) = f x := by
  induction l generalizing i with
  | nil => simp at hx
  | cons y l ih =>
    have hy : (f y).length = d := h y List.mem_cons_self
    rw [List.flatMap_cons]
    cases i with
    | zero =>
      cases hx
      rw [row, Nat.zero_mul, List.drop_zero, List.take_left' hy]
    | succ i =>
      have hoff : (i + 1) * d = (f y).length + i * d := by rw [hy]; ring
      rw [← ih (fun z hz => h z (List.mem_cons_of_mem y hz)) hx, row, hoff,
        ← List.drop_drop, List.drop_left, row]

/-- A buffer whose rows are known is the matrix of these rows. -/
theorem eq_flatMap {l : List β} {f : β → List α} (h : ∀ x ∈ l, (f x).length = d)
    (hlen : buf.length = l.length * d)
    (hrow : ∀ i x, l[i]? = some x → row d i buf = f x) : buf = l.flatMap f := by
  refine ext_rows hlen (length_flatMap h) fun i hi => ?_
  have hx := List.getElem?_eq_getElem hi
  rw [hrow i _ hx, row_flatMap h hx]

/-- A loop that writes one computed row after another. -/
theorem writeRows_total {f : Nat → Checked (List α)} {g : Nat → List α}
    (hlen : out.length = n * d) (hf : ∀ i < n, f i = .ok (g i))
    (hg : ∀ i < n, (g i).length = d) :
    ∃ res, forUpTo n (fun out i => f i >>= writeAt out (i * d)) out = .ok res ∧
      res.length = n * d ∧ ∀ i < n, row d i res = g i := by
  refine forUpTo_total (fun k (out : List α) => out.length = n * d ∧ ∀ i < k, row d i out = g i)
    ⟨hlen, fun i hi => by omega⟩ ?_
  rintro k s hk ⟨hs, hdone⟩
  obtain ⟨res, hres⟩ := writeAt_row_ok hs hk (hg k hk)
  refine ⟨res, by rw [hf k hk, ok_bind, hres], (length_of_writeAt hres).trans hs, fun i hi => ?_⟩
  rcases Nat.lt_succ_iff_lt_or_eq.mp hi with hlt | rfl
  · rw [row_of_writeAt_ne hres (hg k hk) (by omega), hdone i hlt]
  · exact row_of_writeAt hres (hg i hk)

/-- Applying a row operation in place, row after row. -/
def mapRows (buf : List α) (n d : Nat) (g : List α → List α) : Checked (List α) :=
  forUpTo n (fun buf i => do
    let r ← readAt buf (i * d) d
    writeAt buf (i * d) (g r)) buf

theorem mapRows_total (hlen : buf.length = m * d) (hn : n ≤ m)
    (hg : ∀ r : List α, r.length = d → (g r).length = d) :
    ∃ out, mapRows buf n d g = .ok out ∧ out.length = m * d ∧
      (∀ i < n, row d i out = g (row d i buf)) ∧ ∀ i, n ≤ i → row d i out = row d i buf := by
  refine forUpTo_total (fun k out => out.length = m * d ∧
    (∀ i < k, row d i out = g (row d i buf)) ∧ ∀ i, k ≤ i → row d i out = row d i buf)
    ⟨hlen, fun i hi => by omega, fun i _ => rfl⟩ ?_
  rintro k s hk ⟨hs, hdone, htodo⟩
  have hr : (g (row d k s)).length = d := hg _ (length_row hs (by omega))
  obtain ⟨out, hout⟩ := writeAt_row_ok hs (by omega : k < m) hr
  refine ⟨out, by rw [readAt_row hs (by omega : k < m), ok_bind, hout], ?_, ?_, ?_⟩
  · rw [length_of_writeAt hout, hs]
  · intro i hi
    rcases Nat.lt_succ_iff_lt_or_eq.mp hi with hlt | rfl
    · rw [row_of_writeAt_ne hout hr (by omega), hdone i hlt]
    · rw [row_of_writeAt hout hr, htodo i le_rfl]
  · intro i hi
    rw [row_of_writeAt_ne hout hr (by omega), htodo i (by omega)]

end LibEmbedding.Foundation
