import LibEmbedding.Foundation.Checked
import Mathlib.Algebra.BigOperators.Group.Finset.Basic
import Mathlib.Algebra.Order.Field.Basic

/-!
# Tensors

Operations of a tensor library over exact numbers. A tensor has four axes, the first
varies fastest in memory; an operation checks the shapes the library asserts. Each comes
with the entries of its result, given those of its operands.
-/

namespace LibEmbedding.Foundation

/-- How the entries lie in memory: in order of the axes, with two later axes exchanged, or
with the first two exchanged. -/
inductive Layout where
  | contiguous
  | permuted
  | transposed
  deriving DecidableEq, Repr

structure Tensor4 (α : Type) where
  ne0 : Nat
  ne1 : Nat
  ne2 : Nat
  ne3 : Nat
  layout : Layout
  value : Nat → Nat → Nat → Nat → α

namespace Tensor4

variable {α β : Type}

def numel (x : Tensor4 α) : Nat := x.ne0 * x.ne1 * x.ne2 * x.ne3

/-- The entry at a position of the flattened tensor. -/
def flat (x : Tensor4 α) (p : Nat) : α :=
  x.value (p % x.ne0) (p / x.ne0 % x.ne1) (p / (x.ne0 * x.ne1) % x.ne2)
    (p / (x.ne0 * x.ne1 * x.ne2) % x.ne3)

-- ---------------------------------------------------------------------------
-- Operations
-- ---------------------------------------------------------------------------

/-- The rows of a table that a list of indices names. -/
def getRows (x : Tensor4 α) (rows : List Int) : Checked (Tensor4 α) := do
  ensure (x.ne2 = 1 ∧ x.ne3 = 1) .assertFailed
  ensure (∀ r ∈ rows, 0 ≤ r ∧ r < x.ne1) .outOfBounds
  return ⟨x.ne0, rows.length, 1, 1, .contiguous,
    fun i t _ _ => x.value i (rows.getD t 0).toNat 0 0⟩

/-- `y` fits into `x` a whole number of times along every axis. -/
def CanRepeat (y x : Tensor4 α) : Prop :=
  if y.numel = 0 then x.numel = 0
  else x.ne0 % y.ne0 = 0 ∧ x.ne1 % y.ne1 = 0 ∧ x.ne2 % y.ne2 = 0 ∧ x.ne3 % y.ne3 = 0

instance (y x : Tensor4 α) : Decidable (CanRepeat y x) :=
  inferInstanceAs (Decidable (if _ = 0 then _ = 0 else _ ∧ _ ∧ _ ∧ _))

/-- An entrywise operation that repeats its second operand. -/
def zipRepeat (f : α → α → α) (x y : Tensor4 α) : Checked (Tensor4 α) := do
  ensure (CanRepeat y x) .assertFailed
  return { x with
    layout := .contiguous
    value := fun i j k l =>
      f (x.value i j k l) (y.value (i % y.ne0) (j % y.ne1) (k % y.ne2) (l % y.ne3)) }

def add [Add α] (x y : Tensor4 α) : Checked (Tensor4 α) := zipRepeat (· + ·) x y

def mul [Mul α] (x y : Tensor4 α) : Checked (Tensor4 α) := zipRepeat (· * ·) x y

/-- The products of the rows of `w` with those of `x`, which may repeat `w`. -/
def mulMat [AddCommMonoid α] [Mul α] (w x : Tensor4 α) : Checked (Tensor4 α) := do
  ensure (w.ne0 = x.ne0 ∧ x.ne2 % w.ne2 = 0 ∧ x.ne3 % w.ne3 = 0) .assertFailed
  ensure (w.layout ≠ .transposed) .assertFailed
  return ⟨w.ne1, x.ne1, x.ne2, x.ne3, .contiguous, fun i j k l =>
    ∑ e ∈ Finset.range w.ne0,
      w.value e i (k / (x.ne2 / w.ne2)) (l / (x.ne3 / w.ne3)) * x.value e j k l⟩

/-- An entrywise function. -/
def map (f : α → β) (x : Tensor4 α) : Tensor4 β :=
  { x with layout := .contiguous, value := fun i j k l => f (x.value i j k l) }

/-- The mean of a row. -/
def mean [Field α] (n : Nat) (row : Nat → α) : α := (∑ i ∈ Finset.range n, row i) / n

/-- A row less its mean, times what its variance is scaled by. -/
def normalized [Field α] (scale : α → α) (n : Nat) (row : Nat → α) (i : Nat) : α :=
  (row i - mean n row) *
    scale (mean n fun e => (row e - mean n row) * (row e - mean n row))

def norm [Field α] (scale : α → α) (x : Tensor4 α) : Tensor4 α :=
  { x with
    layout := .contiguous
    value := fun i j k l => normalized scale x.ne0 (fun e => x.value e j k l) i }

/-- The greatest of a row. -/
def rowMax [Zero α] [Max α] : List α → α
  | [] => 0
  | x :: xs => xs.foldl max x

/-- The weight of one entry among the finite ones of its row; an entry of minus infinity has
none. -/
def softmaxWeight [Field α] [Max α] (exp : α → α) (finite : List α) : Option α → α
  | none => 0
  | some z => exp (z - rowMax finite) / (finite.map fun y => exp (y - rowMax finite)).sum

/-- Softmax along the first axis of the scaled entries, a mask added. In a mask `none` is
minus infinity. -/
def softMaxExt [Field α] [Max α] (exp : α → α) (x : Tensor4 α) (mask : Tensor4 (Option α))
    (scale : α) : Checked (Tensor4 α) := do
  ensure (x.layout = .contiguous ∧ mask.layout = .contiguous) .assertFailed
  ensure (mask.ne0 = x.ne0 ∧ x.ne1 ≤ mask.ne1) .assertFailed
  ensure (x.ne2 % mask.ne2 = 0 ∧ x.ne3 % mask.ne3 = 0) .assertFailed
  let entry (i j k l : Nat) : Option α :=
    (mask.value i j (k % mask.ne2) (l % mask.ne3)).map fun m => x.value i j k l * scale + m
  return { x with
    value := fun i j k l =>
      softmaxWeight exp ((List.range x.ne0).filterMap fun e => entry e j k l) (entry i j k l) }

/-- A contiguous tensor under another shape. -/
def reshape4d (x : Tensor4 α) (n0 n1 n2 n3 : Nat) : Checked (Tensor4 α) := do
  ensure (x.layout = .contiguous) .assertFailed
  ensure (x.numel = n0 * n1 * n2 * n3) .assertFailed
  return ⟨n0, n1, n2, n3, .contiguous, fun i j k l => x.flat (i + n0 * (j + n1 * (k + n2 * l)))⟩

/-- A copy in memory order. -/
def cont (x : Tensor4 α) : Tensor4 α := { x with layout := .contiguous }

def cont2d (x : Tensor4 α) (n0 n1 : Nat) : Checked (Tensor4 α) := do
  ensure (x.numel = n0 * n1) .assertFailed
  return ⟨n0, n1, 1, 1, .contiguous, fun i j _ _ => x.flat (i + n0 * j)⟩

/-- `permute(x, 0, 2, 1, 3)` -/
def permute0213 (x : Tensor4 α) : Tensor4 α :=
  ⟨x.ne0, x.ne2, x.ne1, x.ne3, .permuted, fun i j k l => x.value i k j l⟩

def transpose (x : Tensor4 α) : Tensor4 α :=
  ⟨x.ne1, x.ne0, x.ne2, x.ne3, .transposed, fun i j k l => x.value j i k l⟩

/-- The first `n` entries of a tensor. -/
def view1d (x : Tensor4 α) (n : Nat) : Checked (Tensor4 α) := do
  ensure (n ≤ x.numel) .assertFailed
  return ⟨n, 1, 1, 1, .contiguous, fun i _ _ _ => x.flat i⟩

-- ---------------------------------------------------------------------------
-- The entries of a result
-- ---------------------------------------------------------------------------

/-- A tensor in memory order, of the given shape and with the given entries. -/
structure Entries (x : Tensor4 α) (n0 n1 n2 n3 : Nat) (f : Nat → Nat → Nat → Nat → α) : Prop where
  ne0 : x.ne0 = n0
  ne1 : x.ne1 = n1
  ne2 : x.ne2 = n2
  ne3 : x.ne3 = n3
  layout : x.layout = .contiguous
  value : ∀ i < n0, ∀ j < n1, ∀ k < n2, ∀ l < n3, x.value i j k l = f i j k l

/-- A matrix whose columns, one for each index of the second axis, are `f 0`, `f 1`, ... -/
abbrev Columns (x : Tensor4 α) (n t : Nat) (f : Nat → Nat → α) : Prop :=
  x.Entries n t 1 1 fun i j _ _ => f j i

namespace Entries

theorem numel {x : Tensor4 α} (h : x.Entries n0 n1 n2 n3 f) : x.numel = n0 * n1 * n2 * n3 := by
  rw [Tensor4.numel, h.ne0, h.ne1, h.ne2, h.ne3]

theorem congr {x : Tensor4 α} (h : x.Entries n0 n1 n2 n3 f)
    (hfg : ∀ i < n0, ∀ j < n1, ∀ k < n2, ∀ l < n3, f i j k l = g i j k l) :
    x.Entries n0 n1 n2 n3 g where
  ne0 := h.ne0
  ne1 := h.ne1
  ne2 := h.ne2
  ne3 := h.ne3
  layout := h.layout
  value i hi j hj k hk l hl := (h.value i hi j hj k hk l hl).trans (hfg i hi j hj k hk l hl)

/-- The entry at a position of the flattened tensor, by the indices the position is made of. -/
theorem flat {x : Tensor4 α} (h : x.Entries n0 n1 n2 n3 f) (hi : i < n0) (hj : j < n1)
    (hk : k < n2) (hl : l < n3) :
    x.flat (i + n0 * (j + n1 * (k + n2 * l))) = f i j k l := by
  have hn0 : 0 < n0 := Nat.zero_lt_of_lt hi
  have hn1 : 0 < n1 := Nat.zero_lt_of_lt hj
  have hn2 : 0 < n2 := Nat.zero_lt_of_lt hk
  have hdiv0 : (i + n0 * (j + n1 * (k + n2 * l))) / n0 = j + n1 * (k + n2 * l) := by
    rw [Nat.add_mul_div_left _ _ hn0, Nat.div_eq_of_lt hi, Nat.zero_add]
  have hdiv1 : (j + n1 * (k + n2 * l)) / n1 = k + n2 * l := by
    rw [Nat.add_mul_div_left _ _ hn1, Nat.div_eq_of_lt hj, Nat.zero_add]
  have hdiv2 : (k + n2 * l) / n2 = l := by
    rw [Nat.add_mul_div_left _ _ hn2, Nat.div_eq_of_lt hk, Nat.zero_add]
  rw [Tensor4.flat, h.ne0, h.ne1, h.ne2, h.ne3, ← Nat.div_div_eq_div_mul, ← Nat.div_div_eq_div_mul,
    ← Nat.div_div_eq_div_mul, hdiv0, hdiv1, hdiv2, Nat.add_mul_mod_self_left,
    Nat.add_mul_mod_self_left, Nat.add_mul_mod_self_left, Nat.mod_eq_of_lt hi,
    Nat.mod_eq_of_lt hj, Nat.mod_eq_of_lt hk, Nat.mod_eq_of_lt hl]
  exact h.value i hi j hj k hk l hl

theorem cont {x : Tensor4 α} (h : x.Entries n0 n1 n2 n3 f) : x.cont.Entries n0 n1 n2 n3 f :=
  ⟨h.ne0, h.ne1, h.ne2, h.ne3, rfl, h.value⟩

end Entries

-- ---------------------------------------------------------------------------
-- Operations on columns
-- ---------------------------------------------------------------------------

theorem getRows_columns {x : Tensor4 α} (h : x.Columns n r f)
    (hrows : ∀ id ∈ rows, 0 ≤ id ∧ id < (r : Int)) :
    ∃ z, x.getRows rows = .ok z ∧ z.Columns n rows.length fun j => f (rows.getD j 0).toNat := by
  refine ⟨⟨n, rows.length, 1, 1, .contiguous, fun i j _ _ => x.value i (rows.getD j 0).toNat 0 0⟩,
    ?_, rfl, rfl, rfl, rfl, rfl, fun i hi j hj _ _ _ _ => ?_⟩
  · unfold getRows
    rw [ensure_pos ⟨h.ne2, h.ne3⟩, ok_bind, ensure_pos (by rwa [h.ne1]), ok_bind, h.ne0]
    rfl
  · have hmem : rows.getD j 0 ∈ rows := by
      rw [List.getD_eq_getElem?_getD, List.getElem?_eq_getElem hj]
      exact List.getElem_mem hj
    obtain ⟨hpos, hlt⟩ := hrows _ hmem
    exact h.value i hi _ ((Int.toNat_lt hpos).mpr hlt) 0 Nat.one_pos 0 Nat.one_pos

/-- Columns combined with a number of columns that divides theirs. -/
theorem zipRepeat_columns (op : α → α → α) {x y : Tensor4 α} (hx : x.Columns n t f)
    (hy : y.Columns n u g) (hn : 0 < n) (hu : 0 < u) (hdvd : t % u = 0) :
    ∃ z, zipRepeat op x y = .ok z ∧ z.Columns n t fun j i => op (f j i) (g (j % u) i) := by
  have hrepeat : CanRepeat y x := by
    have hne : y.numel ≠ 0 := by
      rw [hy.numel]
      simp [hn.ne', hu.ne']
    rw [CanRepeat, if_neg hne, hx.ne0, hx.ne1, hx.ne2, hx.ne3, hy.ne0, hy.ne1, hy.ne2, hy.ne3]
    exact ⟨Nat.mod_self n, hdvd, rfl, rfl⟩
  unfold zipRepeat
  rw [ensure_pos hrepeat, ok_bind]
  refine ⟨_, rfl, hx.ne0, hx.ne1, hx.ne2, hx.ne3, rfl, fun i hi j hj k hk l hl => ?_⟩
  have hyvalue := hy.value i hi (j % u) (Nat.mod_lt j hu) k hk l hl
  dsimp only
  rw [hx.value i hi j hj k hk l hl, hy.ne0, hy.ne1, hy.ne2, hy.ne3, Nat.mod_eq_of_lt hi,
    Nat.mod_eq_of_lt hk, Nat.mod_eq_of_lt hl, hyvalue]

/-- A vector combined with every column. -/
theorem zipRepeat_vector (op : α → α → α) {x y : Tensor4 α} (hx : x.Columns n t f)
    (hy : y.Columns n 1 g) (hn : 0 < n) :
    ∃ z, zipRepeat op x y = .ok z ∧ z.Columns n t fun j i => op (f j i) (g 0 i) := by
  obtain ⟨z, hz, hcolumns⟩ := zipRepeat_columns op hx hy hn Nat.one_pos (Nat.mod_one t)
  refine ⟨z, hz, hcolumns.congr fun i _ j _ _ _ _ _ => ?_⟩
  dsimp only
  rw [Nat.mod_one]

/-- Columns combined one by one. -/
theorem zipRepeat_same (op : α → α → α) {x y : Tensor4 α} (hx : x.Columns n t f)
    (hy : y.Columns n t g) (hn : 0 < n) (ht : 0 < t) :
    ∃ z, zipRepeat op x y = .ok z ∧ z.Columns n t fun j i => op (f j i) (g j i) := by
  obtain ⟨z, hz, hcolumns⟩ := zipRepeat_columns op hx hy hn ht (Nat.mod_self t)
  refine ⟨z, hz, hcolumns.congr fun i _ j hj _ _ _ _ => ?_⟩
  dsimp only
  rw [Nat.mod_eq_of_lt hj]

theorem map_columns (fn : α → β) {x : Tensor4 α} (h : x.Columns n t f) :
    (x.map fn).Columns n t fun j i => fn (f j i) where
  ne0 := h.ne0
  ne1 := h.ne1
  ne2 := h.ne2
  ne3 := h.ne3
  layout := rfl
  value i hi j hj k hk l hl := congrArg fn (h.value i hi j hj k hk l hl)

/-- The first column of a table, as a vector. -/
theorem view1d_columns {x : Tensor4 α} (h : x.Columns n r f) (hr : 0 < r) :
    ∃ z, x.view1d n = .ok z ∧ z.Columns n 1 f := by
  have hfits : n ≤ x.numel := by
    rw [h.numel, Nat.mul_one, Nat.mul_one]
    exact Nat.le_mul_of_pos_right n hr
  unfold view1d
  rw [ensure_pos hfits, ok_bind]
  refine ⟨_, rfl, rfl, rfl, rfl, rfl, rfl, fun i hi j hj k hk l hl => ?_⟩
  obtain rfl : j = 0 := Nat.lt_one_iff.mp hj
  exact h.flat hi hr Nat.one_pos Nat.one_pos

section Field

variable [Field α]

/-- A matrix, given by its rows, times every column. -/
theorem mulMat_columns {w x : Tensor4 α} (hw : w.Columns n m g) (hx : x.Columns n t f) :
    ∃ z, mulMat w x = .ok z ∧
      z.Columns m t fun j o => ∑ e ∈ Finset.range n, g o e * f j e := by
  unfold mulMat
  rw [ensure_pos ⟨hw.ne0.trans hx.ne0.symm, by rw [hx.ne2, hw.ne2], by rw [hx.ne3, hw.ne3]⟩,
    ok_bind, ensure_pos (by rw [hw.layout]; decide), ok_bind]
  refine ⟨_, rfl, hw.ne1, hx.ne1, hx.ne2, hx.ne3, rfl, fun o ho j hj k hk l hl => ?_⟩
  obtain rfl : k = 0 := Nat.lt_one_iff.mp hk
  obtain rfl : l = 0 := Nat.lt_one_iff.mp hl
  dsimp only
  rw [hw.ne0, Nat.zero_div, Nat.zero_div]
  refine Finset.sum_congr rfl fun e he => ?_
  have he := Finset.mem_range.mp he
  rw [hw.value e he o ho 0 hk 0 hl, hx.value e he j hj 0 hk 0 hl]

theorem mean_congr {row row' : Nat → α} (h : ∀ i < n, row i = row' i) :
    mean n row = mean n row' := by
  rw [mean, mean, Finset.sum_congr rfl fun i hi => h i (Finset.mem_range.mp hi)]

theorem normalized_congr (scale : α → α) {row row' : Nat → α} (h : ∀ i < n, row i = row' i)
    (hi : i < n) : normalized scale n row i = normalized scale n row' i := by
  have hmean := mean_congr h
  have hvariance : mean n (fun e => (row e - mean n row) * (row e - mean n row)) =
      mean n fun e => (row' e - mean n row') * (row' e - mean n row') :=
    mean_congr fun e he => by rw [h e he, hmean]
  rw [normalized, normalized, h i hi, hmean, ← hvariance, hmean]

theorem norm_columns (scale : α → α) {x : Tensor4 α} (h : x.Columns n t f) :
    (norm scale x).Columns n t fun j => normalized scale n (f j) where
  ne0 := h.ne0
  ne1 := h.ne1
  ne2 := h.ne2
  ne3 := h.ne3
  layout := rfl
  value i hi j hj k hk l hl := by
    rw [norm, h.ne0]
    exact normalized_congr scale (fun e he => h.value e he j hj k hk l hl) hi

end Field

-- ---------------------------------------------------------------------------
-- Operations on four axes
-- ---------------------------------------------------------------------------

/-- Columns split into `n1` parts of `n0` entries, and into `n3` groups of `n2` columns. -/
theorem reshape4d_columns {x : Tensor4 α} (h : x.Columns (n0 * n1) (n2 * n3) f) :
    ∃ z, x.reshape4d n0 n1 n2 n3 = .ok z ∧
      z.Entries n0 n1 n2 n3 fun i j k l => f (k + n2 * l) (i + n0 * j) := by
  have hsize : x.numel = n0 * n1 * n2 * n3 := by
    rw [h.numel]
    ring
  unfold reshape4d
  rw [ensure_pos h.layout, ok_bind, ensure_pos hsize, ok_bind]
  refine ⟨_, rfl, rfl, rfl, rfl, rfl, rfl, fun i hi j hj k hk l hl => ?_⟩
  have hrow : i + n0 * j < n0 * n1 := by
    calc i + n0 * j < n0 + n0 * j := Nat.add_lt_add_right hi _
      _ = n0 * (j + 1) := by ring
      _ ≤ n0 * n1 := Nat.mul_le_mul_left n0 hj
  have hcolumn : k + n2 * l < n2 * n3 := by
    calc k + n2 * l < n2 + n2 * l := Nat.add_lt_add_right hk _
      _ = n2 * (l + 1) := by ring
      _ ≤ n2 * n3 := Nat.mul_le_mul_left n2 hl
  have hposition : i + n0 * (j + n1 * (k + n2 * l)) =
      (i + n0 * j) + n0 * n1 * ((k + n2 * l) + n2 * n3 * (0 + 1 * 0)) := by ring
  dsimp only
  rw [hposition, h.flat hrow hcolumn Nat.one_pos Nat.one_pos]

theorem permute0213_cont {x : Tensor4 α} (h : x.Entries n0 n1 n2 n3 f) :
    x.permute0213.cont.Entries n0 n2 n1 n3 fun i j k l => f i k j l where
  ne0 := h.ne0
  ne1 := h.ne2
  ne2 := h.ne1
  ne3 := h.ne3
  layout := rfl
  value i hi j hj k hk l hl := h.value i hi k hk j hj l hl

theorem transpose_cont {x : Tensor4 α} (h : x.Entries n0 n1 n2 n3 f) :
    x.transpose.cont.Entries n1 n0 n2 n3 fun i j k l => f j i k l where
  ne0 := h.ne1
  ne1 := h.ne0
  ne2 := h.ne2
  ne3 := h.ne3
  layout := rfl
  value i hi j hj k hk l hl := h.value j hj i hi k hk l hl

/-- Parts and groups put back into columns. -/
theorem cont2d_permute0213 {x : Tensor4 α} (h : x.Entries n0 n1 n2 n3 f) :
    ∃ z, x.permute0213.cont2d (n0 * n2) (n1 * n3) = .ok z ∧
      z.Columns (n0 * n2) (n1 * n3) fun j i => f (i % n0) (j % n1) (i / n0) (j / n1) := by
  have hp := permute0213_cont h
  have hsize : x.permute0213.numel = n0 * n2 * (n1 * n3) := by
    rw [show x.permute0213.numel = x.permute0213.cont.numel from rfl, hp.numel]
    ring
  unfold cont2d
  rw [ensure_pos hsize, ok_bind]
  refine ⟨_, rfl, rfl, rfl, rfl, rfl, rfl, fun i hi j hj _ _ _ _ => ?_⟩
  have hn0 : 0 < n0 := Nat.pos_of_mul_pos_right (Nat.zero_lt_of_lt hi)
  have hn1 : 0 < n1 := Nat.pos_of_mul_pos_right (Nat.zero_lt_of_lt hj)
  have hposition : i + n0 * n2 * j =
      i % n0 + n0 * (i / n0 + n2 * (j % n1 + n1 * (j / n1))) := by
    rw [Nat.mod_add_div, Nat.mul_add, ← Nat.add_assoc, Nat.mod_add_div, Nat.mul_assoc]
  dsimp only
  rw [hposition]
  exact hp.flat (Nat.mod_lt i hn0) (Nat.div_lt_of_lt_mul hi) (Nat.mod_lt j hn1)
    (Nat.div_lt_of_lt_mul hj)

section Attention

variable [Field α]

/-- Matrix products, one for each index of the last two axes. -/
theorem mulMat_entries {w x : Tensor4 α} (hw : w.Entries n m p q g) (hx : x.Entries n t p q f)
    (hp : 0 < p) (hq : 0 < q) :
    ∃ z, mulMat w x = .ok z ∧
      z.Entries m t p q fun o j k l => ∑ e ∈ Finset.range n, g e o k l * f e j k l := by
  unfold mulMat
  rw [ensure_pos ⟨hw.ne0.trans hx.ne0.symm, by rw [hx.ne2, hw.ne2, Nat.mod_self],
    by rw [hx.ne3, hw.ne3, Nat.mod_self]⟩, ok_bind, ensure_pos (by rw [hw.layout]; decide), ok_bind]
  refine ⟨_, rfl, hw.ne1, hx.ne1, hx.ne2, hx.ne3, rfl, fun o ho j hj k hk l hl => ?_⟩
  dsimp only
  rw [hw.ne0, hw.ne2, hw.ne3, hx.ne2, hx.ne3, Nat.div_self hp, Nat.div_self hq, Nat.div_one,
    Nat.div_one]
  refine Finset.sum_congr rfl fun e he => ?_
  have he := Finset.mem_range.mp he
  rw [hw.value e he o ho k hk l hl, hx.value e he j hj k hk l hl]

variable [Max α] (exp : α → α)

/-- Softmax under a mask that has one plane for each index of the last axis. -/
theorem softMaxExt_entries {x : Tensor4 α} {mask : Tensor4 (Option α)} (scale : α)
    (hx : x.Entries n t p q f) (hmask : mask.Entries n t 1 q m) :
    ∃ z, softMaxExt exp x mask scale = .ok z ∧ z.Entries n t p q fun i j k l =>
      softmaxWeight exp
        ((List.range n).filterMap fun e => (m e j 0 l).map fun y => f e j k l * scale + y)
        ((m i j 0 l).map fun y => f i j k l * scale + y) := by
  unfold softMaxExt
  rw [ensure_pos ⟨hx.layout, hmask.layout⟩, ok_bind,
    ensure_pos ⟨hmask.ne0.trans hx.ne0.symm, by rw [hx.ne1, hmask.ne1]⟩, ok_bind,
    ensure_pos ⟨by rw [hmask.ne2, Nat.mod_one], by rw [hx.ne3, hmask.ne3, Nat.mod_self]⟩, ok_bind]
  refine ⟨_, rfl, hx.ne0, hx.ne1, hx.ne2, hx.ne3, hx.layout, fun i hi j hj k hk l hl => ?_⟩
  have hentry : ∀ e < n, ((mask.value e j (k % mask.ne2) (l % mask.ne3)).map fun y =>
      x.value e j k l * scale + y) = (m e j 0 l).map fun y => f e j k l * scale + y := by
    intro e he
    rw [hmask.ne2, hmask.ne3, Nat.mod_one, Nat.mod_eq_of_lt hl, hx.value e he j hj k hk l hl,
      hmask.value e he j hj 0 Nat.one_pos l hl]
  dsimp only
  rw [hx.ne0, hentry i hi, List.filterMap_congr fun e he => hentry e (List.mem_range.mp he)]

/-- Entries that a mask leaves out have no part in a weighted sum. -/
theorem sum_softmaxWeight (entry : Nat → Option α) (v z : Nat → α) (hlen : len ≤ n)
    (hkept : ∀ e < len, entry e = some (z e)) (hmasked : ∀ e < n, len ≤ e → entry e = none) :
    ∑ e ∈ Finset.range n, v e * softmaxWeight exp ((List.range n).filterMap entry) (entry e) =
      ∑ e ∈ Finset.range len,
        v e * softmaxWeight exp ((List.range len).map z) (some (z e)) := by
  have hfinite : (List.range n).filterMap entry = (List.range len).map z := by
    obtain ⟨rest, rfl⟩ := Nat.exists_eq_add_of_le hlen
    rw [List.range_add, List.filterMap_append]
    have hhead : (List.range len).filterMap entry = (List.range len).map z := by
      rw [← List.filterMap_eq_map]
      exact List.filterMap_congr fun e he => hkept e (List.mem_range.mp he)
    have htail : ((List.range rest).map (len + ·)).filterMap entry = [] := by
      rw [List.filterMap_eq_nil_iff]
      intro e he
      obtain ⟨d, hd, rfl⟩ := List.mem_map.mp he
      exact hmasked _ (Nat.add_lt_add_left (List.mem_range.mp hd) len) (Nat.le_add_right len d)
    rw [hhead, htail, List.append_nil]
  rw [hfinite]
  refine (Finset.sum_subset (Finset.range_mono hlen) fun e he hout => ?_).symm.trans ?_
  · rw [hmasked e (Finset.mem_range.mp he) (not_lt.mp fun hlt => hout (Finset.mem_range.mpr hlt))]
    exact mul_zero (v e)
  · exact Finset.sum_congr rfl fun e he => by rw [hkept e (Finset.mem_range.mp he)]

end Attention

end Tensor4

end LibEmbedding.Foundation
