import LibEmbedding.Foundation.Checked
import Mathlib.Algebra.BigOperators.Fin
import Mathlib.Data.Fin.VecNotation

/-!
# Strided tensors

A tensor is a buffer with a length and a stride for each axis, the first axis varies fastest.
A permutation moves axes and no entry, a copy writes the entries in the order of the axes,
and a reshape gives a buffer in that order other axes.
-/

namespace LibEmbedding.Foundation

structure Strided (n : Nat) (α : Type) where
  ne : Fin n → Nat
  nb : Fin n → Nat
  data : List α

namespace Strided

variable {α : Type}

def numel (ne : Fin n → Nat) : Nat := ∏ k, ne k

/-- Where an entry is in the buffer. -/
def offset (nb i : Fin n → Nat) : Nat := ∑ k, i k * nb k

def InRange (ne i : Fin n → Nat) : Prop := ∀ k, i k < ne k

/-- The strides of entries that lie one after another, the first axis `next` apart. -/
def stridesFrom (next : Nat) : {n : Nat} → (Fin n → Nat) → Fin n → Nat
  | 0, _ => Fin.elim0
  | _ + 1, ne => Fin.cons next (stridesFrom (next * ne 0) (Fin.tail ne))

/-- The indices of the entry that comes `p`-th. -/
def positions : {n : Nat} → (Fin n → Nat) → Nat → Fin n → Nat
  | 0, _, _ => Fin.elim0
  | _ + 1, ne, p => Fin.cons (p % ne 0) (positions (Fin.tail ne) (p / ne 0))

/-- An axis of one entry has no stride to speak of. -/
def ContiguousFrom (next : Nat) : {n : Nat} → (Fin n → Nat) → (Fin n → Nat) → Prop
  | 0, _, _ => True
  | _ + 1, ne, nb => (ne 0 ≠ 1 → nb 0 = next) ∧
      ContiguousFrom (next * ne 0) (Fin.tail ne) (Fin.tail nb)

instance instDecidableContiguousFrom : (next : Nat) → {n : Nat} → (ne nb : Fin n → Nat) →
    Decidable (ContiguousFrom next ne nb)
  | _, 0, _, _ => instDecidableTrue
  | next, _ + 1, ne, nb =>
    have := instDecidableContiguousFrom (next * ne 0) (Fin.tail ne) (Fin.tail nb)
    inferInstanceAs (Decidable ((ne 0 ≠ 1 → nb 0 = next) ∧ _))

/-- How many entries come before one. -/
def flatten (ne i : Fin n → Nat) : Nat := offset (stridesFrom 1 ne) i

-- ---------------------------------------------------------------------------
-- Operations
-- ---------------------------------------------------------------------------

def entry (x : Strided n α) (i : Fin n → Nat) : Option α := x.data[offset x.nb i]?

abbrev Contiguous (x : Strided n α) : Prop := ContiguousFrom 1 x.ne x.nb

/-- A buffer with its entries one after another. -/
def compact (ne : Fin n → Nat) (data : List α) : Strided n α := ⟨ne, stridesFrom 1 ne, data⟩

def reshape (x : Strided n α) (ne : Fin n → Nat) : Checked (Strided n α) := do
  ensure x.Contiguous .assertFailed
  ensure (numel x.ne = numel ne) .assertFailed
  return compact ne x.data

/-- Axis `k` becomes axis `axis k`. -/
def permute (x : Strided n α) (axis : Equiv.Perm (Fin n)) : Strided n α :=
  ⟨x.ne ∘ axis.symm, x.nb ∘ axis.symm, x.data⟩

/-- The entries in the order of the axes. -/
def copied (x : Strided n α) : Checked (List α) :=
  (List.range (numel x.ne)).mapM fun (p : Nat) => get x.data (offset x.nb (positions x.ne p))

/-- A copy under another shape. -/
def contShaped (x : Strided n α) (ne : Fin n → Nat) : Checked (Strided n α) := do
  ensure (numel x.ne = numel ne) .assertFailed
  let data ← x.copied
  return compact ne data

def cont (x : Strided n α) : Checked (Strided n α) := do
  let data ← x.copied
  return compact x.ne data

-- ---------------------------------------------------------------------------
-- Positions
-- ---------------------------------------------------------------------------

theorem offset_cons (nb : Fin (n + 1) → Nat) (i : Fin (n + 1) → Nat) :
    offset nb i = i 0 * nb 0 + offset (Fin.tail nb) (Fin.tail i) :=
  Fin.sum_univ_succ _

theorem numel_cons (ne : Fin (n + 1) → Nat) : numel ne = ne 0 * numel (Fin.tail ne) :=
  Fin.prod_univ_succ _

theorem contiguous_stridesFrom (next : Nat) (ne : Fin n → Nat) :
    ContiguousFrom next ne (stridesFrom next ne) := by
  induction n generalizing next with
  | zero => trivial
  | succ n ih => exact ⟨fun _ => rfl, ih (next * ne 0) (Fin.tail ne)⟩

/-- Entries that lie one after another are where they are counted. -/
theorem offset_positions {ne nb : Fin n → Nat} (h : ContiguousFrom next ne nb)
    (hp : p < numel ne) : offset nb (positions ne p) = next * p := by
  induction n generalizing next p with
  | zero =>
    obtain rfl : p = 0 := Nat.lt_one_iff.mp hp
    rfl
  | succ n ih =>
    rw [numel_cons] at hp
    have hrest := ih h.2 (Nat.div_lt_of_lt_mul hp)
    rw [offset_cons]
    show p % ne 0 * nb 0 + offset (Fin.tail nb) (positions (Fin.tail ne) (p / ne 0)) = _
    have hfirst : p % ne 0 * nb 0 = next * (p % ne 0) := by
      by_cases hone : ne 0 = 1
      · rw [hone, Nat.mod_one, Nat.zero_mul, Nat.mul_zero]
      · rw [h.1 hone, Nat.mul_comm]
    rw [hrest, hfirst, Nat.mul_assoc, ← Nat.mul_add, Nat.mod_add_div]

theorem positions_inRange {ne : Fin n → Nat} (hp : p < numel ne) : InRange ne (positions ne p) := by
  induction n generalizing p with
  | zero => exact fun k => k.elim0
  | succ n ih =>
    rw [numel_cons] at hp
    have hpos : 0 < ne 0 := Nat.pos_of_mul_pos_right (Nat.zero_lt_of_lt hp)
    refine Fin.cases (Nat.mod_lt p hpos) fun k => ?_
    exact ih (Nat.div_lt_of_lt_mul hp) k

theorem offset_stridesFrom (next : Nat) (ne i : Fin n → Nat) :
    offset (stridesFrom next ne) i = next * flatten ne i := by
  unfold flatten
  induction n generalizing next with
  | zero => rfl
  | succ n ih =>
    rw [offset_cons, offset_cons]
    show i 0 * next + offset (stridesFrom (next * ne 0) (Fin.tail ne)) (Fin.tail i) =
      next * (i 0 * 1 + offset (stridesFrom (1 * ne 0) (Fin.tail ne)) (Fin.tail i))
    rw [ih, ih (1 * ne 0)]
    ring

theorem flatten_cons (ne i : Fin (n + 1) → Nat) :
    flatten ne i = i 0 + ne 0 * flatten (Fin.tail ne) (Fin.tail i) := by
  rw [flatten, offset_cons]
  show i 0 * 1 + offset (stridesFrom (1 * ne 0) (Fin.tail ne)) (Fin.tail i) = _
  rw [offset_stridesFrom, Nat.mul_one, Nat.one_mul]

theorem flatten_lt {ne i : Fin n → Nat} (h : InRange ne i) : flatten ne i < numel ne := by
  induction n with
  | zero => exact Nat.one_pos
  | succ n ih =>
    have hrest : flatten (Fin.tail ne) (Fin.tail i) < numel (Fin.tail ne) := ih fun k => h k.succ
    rw [flatten_cons, numel_cons]
    calc i 0 + ne 0 * flatten (Fin.tail ne) (Fin.tail i)
        < ne 0 + ne 0 * flatten (Fin.tail ne) (Fin.tail i) := Nat.add_lt_add_right (h 0) _
      _ = ne 0 * (flatten (Fin.tail ne) (Fin.tail i) + 1) := by ring
      _ ≤ ne 0 * numel (Fin.tail ne) := Nat.mul_le_mul_left _ hrest

theorem positions_flatten {ne i : Fin n → Nat} (h : InRange ne i) :
    positions ne (flatten ne i) = i := by
  induction n with
  | zero => exact funext fun k => k.elim0
  | succ n ih =>
    have hpos : 0 < ne 0 := Nat.zero_lt_of_lt (h 0)
    have hdiv : flatten ne i / ne 0 = flatten (Fin.tail ne) (Fin.tail i) := by
      rw [flatten_cons, Nat.add_mul_div_left _ _ hpos, Nat.div_eq_of_lt (h 0), Nat.zero_add]
    have hmod : flatten ne i % ne 0 = i 0 := by
      rw [flatten_cons, Nat.add_mul_mod_self_left, Nat.mod_eq_of_lt (h 0)]
    funext k
    refine Fin.cases hmod (fun k => ?_) k
    have hrest : InRange (Fin.tail ne) (Fin.tail i) := fun k => h k.succ
    show positions (Fin.tail ne) (flatten ne i / ne 0) k = i k.succ
    rw [hdiv, ih hrest]
    rfl

-- ---------------------------------------------------------------------------
-- The entries of a result
-- ---------------------------------------------------------------------------

/-- A tensor of the given shape with the given entries, all inside its buffer. -/
structure Holds (x : Strided n α) (ne : Fin n → Nat) (f : (Fin n → Nat) → α) : Prop where
  shape : x.ne = ne
  entry : ∀ i, InRange ne i → x.entry i = some (f i)

/-- What an operation of the library has computed: entries one after another, all of them in the
buffer. -/
structure Dense (x : Strided n α) (ne : Fin n → Nat) : Prop where
  shape : x.ne = ne
  contiguous : x.Contiguous
  fits : numel ne ≤ x.data.length

theorem Dense.holds [Inhabited α] {x : Strided n α} {ne : Fin n → Nat} (h : x.Dense ne) :
    x.Holds ne fun i => (x.entry i).getD default := by
  refine ⟨h.shape, fun i hi => ?_⟩
  have hlt := flatten_lt hi
  have hcontiguous : ContiguousFrom 1 ne x.nb := h.shape ▸ h.contiguous
  have hoffset : offset x.nb i = flatten ne i := by
    rw [← positions_flatten hi, offset_positions hcontiguous hlt, positions_flatten hi, Nat.one_mul]
  have hread := List.getElem?_eq_getElem (Nat.lt_of_lt_of_le hlt h.fits)
  rw [entry, hoffset, hread]
  rfl

theorem Holds.congr {x : Strided n α} {ne : Fin n → Nat} {f g : (Fin n → Nat) → α}
    (h : x.Holds ne f) (hfg : ∀ i, InRange ne i → f i = g i) : x.Holds ne g :=
  ⟨h.shape, fun i hi => by rw [h.entry i hi, hfg i hi]⟩

theorem entry_permute (x : Strided n α) (axis : Equiv.Perm (Fin n)) (i : Fin n → Nat) :
    (x.permute axis).entry i = x.entry (i ∘ axis) := by
  have hoffset : offset (x.nb ∘ axis.symm) i = offset x.nb (i ∘ axis) := by
    unfold offset
    rw [← Equiv.sum_comp axis]
    exact Finset.sum_congr rfl fun k _ => by simp
  rw [entry, permute, hoffset]
  rfl

theorem permute_holds {x : Strided n α} {ne : Fin n → Nat} {f : (Fin n → Nat) → α}
    (h : x.Holds ne f) (axis : Equiv.Perm (Fin n)) :
    (x.permute axis).Holds (ne ∘ axis.symm) fun i => f (i ∘ axis) := by
  refine ⟨by rw [← h.shape]; rfl, fun i hi => ?_⟩
  rw [entry_permute, h.entry]
  intro k
  simpa using hi (axis k)

/-- What a buffer in the order of the axes holds under another shape. -/
theorem compact_holds {ne ne' : Fin n → Nat} {f : (Fin n → Nat) → α} {data : List α}
    (hsize : numel ne = numel ne') (hdata : ∀ p < numel ne, data[p]? = some (f (positions ne p))) :
    (compact ne' data).Contiguous ∧
      (compact ne' data).Holds ne' fun i => f (positions ne (flatten ne' i)) := by
  refine ⟨contiguous_stridesFrom 1 ne', rfl, fun i hi => ?_⟩
  exact hdata _ (hsize ▸ flatten_lt hi)

theorem reshape_holds {x : Strided n α} {ne ne' : Fin n → Nat} {f : (Fin n → Nat) → α}
    (h : x.Holds ne f) (hx : x.Contiguous) (hsize : numel ne = numel ne') :
    ∃ y, x.reshape ne' = .ok y ∧ y.Contiguous ∧
      y.Holds ne' fun i => f (positions ne (flatten ne' i)) := by
  refine ⟨compact ne' x.data, ?_, compact_holds hsize fun p hp => ?_⟩
  · rw [reshape, ensure_pos hx, ok_bind, ensure_pos (h.shape ▸ hsize), ok_bind]
    rfl
  · have hentry := h.entry _ (positions_inRange hp)
    rw [Contiguous, h.shape] at hx
    rwa [entry, offset_positions hx hp, Nat.one_mul] at hentry

theorem copied_eq {x : Strided n α} {ne : Fin n → Nat} {f : (Fin n → Nat) → α}
    (h : x.Holds ne f) :
    x.copied = .ok ((List.range (numel ne)).map fun p => f (positions ne p)) := by
  rw [copied, h.shape]
  refine mapM_eq fun p hp => ?_
  exact get_ok.mpr (h.entry _ (positions_inRange (List.mem_range.mp hp)))

theorem getElem?_copied {f : (Fin n → Nat) → α} (ne : Fin n → Nat) :
    ∀ p < numel ne, ((List.range (numel ne)).map fun p => f (positions ne p))[p]? =
      some (f (positions ne p)) := by
  intro p hp
  rw [List.getElem?_map, List.getElem?_range hp, Option.map_some]

theorem contShaped_holds {x : Strided n α} {ne ne' : Fin n → Nat} {f : (Fin n → Nat) → α}
    (h : x.Holds ne f) (hsize : numel ne = numel ne') :
    ∃ y, x.contShaped ne' = .ok y ∧ y.Contiguous ∧
      y.Holds ne' fun i => f (positions ne (flatten ne' i)) := by
  refine ⟨_, ?_, compact_holds hsize (getElem?_copied ne)⟩
  rw [contShaped, ensure_pos (h.shape ▸ hsize), ok_bind, copied_eq h, ok_bind]
  rfl

theorem cont_holds {x : Strided n α} {ne : Fin n → Nat} {f : (Fin n → Nat) → α}
    (h : x.Holds ne f) : ∃ y, x.cont = .ok y ∧ y.Contiguous ∧ y.Holds ne f := by
  obtain ⟨hcontiguous, hne, hentry⟩ := compact_holds rfl (getElem?_copied (f := f) ne)
  refine ⟨_, ?_, hcontiguous, hne, fun i hi => ?_⟩
  · rw [cont, copied_eq h, ok_bind, h.shape]
    rfl
  · rw [hentry i hi, positions_flatten hi]

end Strided

end LibEmbedding.Foundation
