import LibEmbedding.Foundation.Strided
import LibEmbedding.GgufGraph

/-!
# Heads in memory

`bert_split_heads` and the end of `bert_attention` over buffers with strides. The one undoes the
other, and both compute the entries that the encoder has them compute.
-/

namespace LibEmbedding

open Foundation

namespace StridedHeads

variable {α : Type}

/-- The axes `0, 2, 1, 3` of `ggml_permute`. -/
def headAxes : Equiv.Perm (Fin 4) := Equiv.swap 1 2

def bertSplitHeads (t : Strided 4 α) (nEmbd nHead seqLen batch : Nat) : Checked (Strided 4 α) := do
  let headDim := nEmbd / nHead
  let t4 ← t.reshape ![headDim, nHead, seqLen, batch]
  (t4.permute headAxes).cont

/-- What `bert_attention` makes of the heads it has computed. -/
def mergeHeads (kqv : Strided 4 α) (nEmbd seqLen batch : Nat) : Checked (Strided 4 α) :=
  (kqv.permute headAxes).contShaped ![nEmbd, seqLen * batch, 1, 1]

-- ---------------------------------------------------------------------------
-- Where the entries go
-- ---------------------------------------------------------------------------

theorem headAxes_symm : headAxes.symm = headAxes := Equiv.symm_swap 1 2

theorem comp_headAxes (i : Fin 4 → Nat) : i ∘ headAxes = ![i 0, i 2, i 1, i 3] := by
  funext k
  fin_cases k <;> rfl

theorem shape_headAxes (n0 n1 n2 n3 : Nat) :
    (![n0, n1, n2, n3] : Fin 4 → Nat) ∘ headAxes.symm = ![n0, n2, n1, n3] := by
  rw [headAxes_symm, comp_headAxes]
  rfl

theorem inRange_iff {n0 n1 n2 n3 : Nat} {i : Fin 4 → Nat} :
    Strided.InRange ![n0, n1, n2, n3] i ↔ i 0 < n0 ∧ i 1 < n1 ∧ i 2 < n2 ∧ i 3 < n3 := by
  constructor
  · intro h
    exact ⟨h 0, h 1, h 2, h 3⟩
  · rintro ⟨h0, h1, h2, h3⟩ k
    fin_cases k
    · exact h0
    · exact h1
    · exact h2
    · exact h3

theorem flatten_axes (n0 n1 n2 n3 : Nat) (i : Fin 4 → Nat) :
    Strided.flatten ![n0, n1, n2, n3] i = i 0 + n0 * (i 1 + n1 * (i 2 + n2 * (i 3 + n3 * 0))) := by
  simp only [Strided.flatten_cons]
  rfl

theorem numel_axes (n0 n1 n2 n3 : Nat) :
    Strided.numel ![n0, n1, n2, n3] = n0 * n1 * n2 * n3 :=
  Fin.prod_univ_four _

/-- The entry of a matrix at a place of its buffer, by the indices the place is made of. -/
theorem positions_matrix {n0 n1 row column p : Nat} (hrow : row < n0) (hcolumn : column < n1)
    (hp : p = row + n0 * column) :
    Strided.positions ![n0, n1, 1, 1] p = ![row, column, 0, 0] := by
  have hflat : p = Strided.flatten ![n0, n1, 1, 1] ![row, column, 0, 0] := by
    rw [flatten_axes, hp]
    simp
  rw [hflat]
  exact Strided.positions_flatten (inRange_iff.mpr ⟨hrow, hcolumn, Nat.one_pos, Nat.one_pos⟩)

theorem part_lt {i j m n : Nat} (hi : i < m) (hj : j < n) : i + m * j < m * n := by
  calc i + m * j < m + m * j := Nat.add_lt_add_right hi _
    _ = m * (j + 1) := by ring
    _ ≤ m * n := Nat.mul_le_mul_left m hj

variable {nEmbd nHead seqLen batch : Nat} {x : Strided 4 α} {f : (Fin 4 → Nat) → α}

theorem bertSplitHeads_holds (hdvd : nHead ∣ nEmbd) (hx : x.Contiguous)
    (h : x.Holds ![nEmbd, seqLen * batch, 1, 1] f) :
    ∃ y, bertSplitHeads x nEmbd nHead seqLen batch = .ok y ∧ y.Contiguous ∧
      y.Holds ![nEmbd / nHead, seqLen, nHead, batch] fun i =>
        f ![i 0 + nEmbd / nHead * i 2, i 1 + seqLen * i 3, 0, 0] := by
  have hheads := Nat.div_mul_cancel hdvd
  have hsize : Strided.numel ![nEmbd, seqLen * batch, 1, 1] =
      Strided.numel ![nEmbd / nHead, nHead, seqLen, batch] := by
    rw [numel_axes, numel_axes, hheads]
    ring
  obtain ⟨t4, ht4, -, hholds⟩ := Strided.reshape_holds h hx hsize
  obtain ⟨y, hy, hcontiguous, hyholds⟩ := Strided.cont_holds (Strided.permute_holds hholds headAxes)
  rw [shape_headAxes] at hyholds
  refine ⟨y, by rw [bertSplitHeads, ht4, ok_bind, hy], hcontiguous, hyholds.congr fun i hi => ?_⟩
  obtain ⟨hd, hs, hh, hb⟩ := inRange_iff.mp hi
  have hrow : i 0 + nEmbd / nHead * i 2 < nEmbd / nHead * nHead := part_lt hd hh
  rw [hheads] at hrow
  rw [comp_headAxes, flatten_axes]
  refine congrArg f (positions_matrix hrow (part_lt hs hb) ?_)
  show i 0 + nEmbd / nHead * (i 2 + nHead * (i 1 + seqLen * (i 3 + batch * 0))) = _
  rw [Nat.mul_zero, Nat.add_zero, Nat.mul_add, ← Nat.mul_assoc, hheads, Nat.add_assoc]

theorem mergeHeads_holds (hdvd : nHead ∣ nEmbd)
    (h : x.Holds ![nEmbd / nHead, seqLen, nHead, batch] f) :
    ∃ z, mergeHeads x nEmbd seqLen batch = .ok z ∧ z.Contiguous ∧
      z.Holds ![nEmbd, seqLen * batch, 1, 1] fun i =>
        f ![i 0 % (nEmbd / nHead), i 1 % seqLen, i 0 / (nEmbd / nHead), i 1 / seqLen] := by
  have hheads := Nat.div_mul_cancel hdvd
  have hpermuted := Strided.permute_holds h headAxes
  rw [shape_headAxes] at hpermuted
  have hsize : Strided.numel ![nEmbd / nHead, nHead, seqLen, batch] =
      Strided.numel ![nEmbd, seqLen * batch, 1, 1] := by
    rw [numel_axes, numel_axes, hheads]
    ring
  obtain ⟨z, hz, hcontiguous, hzholds⟩ := Strided.contShaped_holds hpermuted hsize
  refine ⟨z, hz, hcontiguous, hzholds.congr fun i hi => ?_⟩
  obtain ⟨hrow, hcolumn, h2, h3⟩ := inRange_iff.mp hi
  have hd : 0 < nEmbd / nHead := Nat.pos_of_mul_pos_right (by rw [hheads]; omega)
  have hs : 0 < seqLen := Nat.pos_of_mul_pos_right (Nat.zero_lt_of_lt hcolumn)
  have hparts : Strided.InRange ![nEmbd / nHead, nHead, seqLen, batch]
      ![i 0 % (nEmbd / nHead), i 0 / (nEmbd / nHead), i 1 % seqLen, i 1 / seqLen] :=
    inRange_iff.mpr ⟨Nat.mod_lt _ hd, Nat.div_lt_of_lt_mul (by rwa [hheads]), Nat.mod_lt _ hs,
      Nat.div_lt_of_lt_mul hcolumn⟩
  have hplace : Strided.flatten ![nEmbd, seqLen * batch, 1, 1] i =
      Strided.flatten ![nEmbd / nHead, nHead, seqLen, batch]
        ![i 0 % (nEmbd / nHead), i 0 / (nEmbd / nHead), i 1 % seqLen, i 1 / seqLen] := by
    rw [flatten_axes, flatten_axes, Nat.lt_one_iff.mp h2, Nat.lt_one_iff.mp h3]
    show i 0 + nEmbd * i 1 =
      i 0 % (nEmbd / nHead) + nEmbd / nHead * (i 0 / (nEmbd / nHead) +
        nHead * (i 1 % seqLen + seqLen * (i 1 / seqLen + batch * 0)))
    rw [Nat.mul_zero batch, Nat.add_zero (i 1 / seqLen), Nat.mod_add_div,
      Nat.mul_add (nEmbd / nHead), ← Nat.add_assoc, Nat.mod_add_div, ← Nat.mul_assoc, hheads]
  rw [hplace, Strided.positions_flatten hparts, comp_headAxes]
  rfl

-- ---------------------------------------------------------------------------
-- The one undoes the other
-- ---------------------------------------------------------------------------

/-- Splitting `x` into heads puts every entry where the attention expects it, and merging the
heads gives `x` back. -/
def SplitMerges (x : Strided 4 α) (nEmbd nHead seqLen batch : Nat) : Prop :=
  ∃ y z, bertSplitHeads x nEmbd nHead seqLen batch = .ok y ∧
    mergeHeads y nEmbd seqLen batch = .ok z ∧
    y.ne = ![nEmbd / nHead, seqLen, nHead, batch] ∧
    (∀ d < nEmbd / nHead, ∀ s < seqLen, ∀ h < nHead, ∀ b < batch,
      y.entry ![d, s, h, b] = x.entry ![d + nEmbd / nHead * h, s + seqLen * b, 0, 0]) ∧
    z.ne = x.ne ∧ ∀ i, Strided.InRange x.ne i → z.entry i = x.entry i

/-- Merging the heads `y` and splitting again gives `y` back. -/
def MergeSplits (y : Strided 4 α) (nEmbd nHead seqLen batch : Nat) : Prop :=
  ∃ x z, mergeHeads y nEmbd seqLen batch = .ok x ∧
    bertSplitHeads x nEmbd nHead seqLen batch = .ok z ∧
    z.ne = y.ne ∧ ∀ i, Strided.InRange y.ne i → z.entry i = y.entry i

theorem split_merges (hdvd : nHead ∣ nEmbd) (hx : x.Contiguous)
    (h : x.Holds ![nEmbd, seqLen * batch, 1, 1] f) :
    SplitMerges x nEmbd nHead seqLen batch := by
  have hheads := Nat.div_mul_cancel hdvd
  obtain ⟨y, hy, -, hyholds⟩ := bertSplitHeads_holds hdvd hx h
  obtain ⟨z, hz, -, hzholds⟩ := mergeHeads_holds hdvd hyholds
  refine ⟨y, z, hy, hz, hyholds.shape, fun d hd s hs hh hhh b hb => ?_,
    hzholds.shape.trans h.shape.symm, fun i hi => ?_⟩
  · have hrow : d + nEmbd / nHead * hh < nEmbd / nHead * nHead := part_lt hd hhh
    rw [hheads] at hrow
    rw [hyholds.entry _ (inRange_iff.mpr ⟨hd, hs, hhh, hb⟩), h.entry]
    · rfl
    · exact inRange_iff.mpr ⟨hrow, part_lt hs hb, Nat.one_pos, Nat.one_pos⟩
  · rw [h.shape] at hi
    obtain ⟨-, -, h2, h3⟩ := inRange_iff.mp hi
    rw [hzholds.entry i hi, h.entry i hi]
    refine congrArg (fun i => some (f i)) (funext fun k => ?_)
    fin_cases k
    · exact Nat.mod_add_div (i 0) _
    · exact Nat.mod_add_div (i 1) _
    · exact (Nat.lt_one_iff.mp h2).symm
    · exact (Nat.lt_one_iff.mp h3).symm

theorem merge_splits (hdvd : nHead ∣ nEmbd)
    (h : x.Holds ![nEmbd / nHead, seqLen, nHead, batch] f) :
    MergeSplits x nEmbd nHead seqLen batch := by
  obtain ⟨y, hy, hcontiguous, hyholds⟩ := mergeHeads_holds hdvd h
  obtain ⟨z, hz, -, hzholds⟩ := bertSplitHeads_holds hdvd hcontiguous hyholds
  refine ⟨y, z, hy, hz, hzholds.shape.trans h.shape.symm, fun i hi => ?_⟩
  rw [h.shape] at hi
  obtain ⟨hd, hs, -, -⟩ := inRange_iff.mp hi
  have hd : i 0 < nEmbd / nHead := hd
  have hs : i 1 < seqLen := hs
  rw [hzholds.entry i hi, h.entry i hi]
  refine congrArg (fun i => some (f i)) (funext fun k => ?_)
  fin_cases k
  · show (i 0 + nEmbd / nHead * i 2) % (nEmbd / nHead) = i 0
    rw [Nat.add_mul_mod_self_left, Nat.mod_eq_of_lt hd]
  · show (i 1 + seqLen * i 3) % seqLen = i 1
    rw [Nat.add_mul_mod_self_left, Nat.mod_eq_of_lt hs]
  · show (i 0 + nEmbd / nHead * i 2) / (nEmbd / nHead) = i 2
    rw [Nat.add_mul_div_left _ _ (Nat.zero_lt_of_lt hd), Nat.div_eq_of_lt hd, Nat.zero_add]
  · show (i 1 + seqLen * i 3) / seqLen = i 3
    rw [Nat.add_mul_div_left _ _ (Nat.zero_lt_of_lt hs), Nat.div_eq_of_lt hs, Nat.zero_add]

theorem heads_inverse [Inhabited α] (hdvd : nHead ∣ nEmbd) (seqLen batch : Nat) :
    (∀ x : Strided 4 α, x.Dense ![nEmbd, seqLen * batch, 1, 1] →
      SplitMerges x nEmbd nHead seqLen batch) ∧
    ∀ y : Strided 4 α, y.Dense ![nEmbd / nHead, seqLen, nHead, batch] →
      MergeSplits y nEmbd nHead seqLen batch :=
  ⟨fun _ hx => split_merges hdvd hx.contiguous hx.holds, fun _ hy => merge_splits hdvd hy.holds⟩

/-- Two documents of two tokens, two heads of two entries. -/
theorem heads_inverse_two :
    SplitMerges (Strided.compact ![4, 4, 1, 1] (List.range 16)) 4 2 2 2 ∧
      MergeSplits (Strided.compact ![2, 2, 2, 2] (List.range 16)) 4 2 2 2 :=
  have h := heads_inverse (α := Nat) (show 2 ∣ 4 from Dvd.intro 2 rfl) 2 2
  ⟨h.1 _ ⟨rfl, Strided.contiguous_stridesFrom 1 _, Nat.le_refl 16⟩,
    h.2 _ ⟨rfl, Strided.contiguous_stridesFrom 1 _, Nat.le_refl 16⟩⟩

-- ---------------------------------------------------------------------------
-- The heads of the encoder
-- ---------------------------------------------------------------------------

/-- The buffer holds the entries of the tensor. -/
def Denotes (x : Strided 4 α) (t : Tensor4 α) : Prop :=
  x.Holds ![t.ne0, t.ne1, t.ne2, t.ne3] fun i => t.value (i 0) (i 1) (i 2) (i 3)

theorem denotes_iff {t : Tensor4 α} {g : Nat → Nat → Nat → Nat → α}
    (h : t.Entries n0 n1 n2 n3 g) :
    Denotes x t ↔ x.Holds ![n0, n1, n2, n3] fun i => g (i 0) (i 1) (i 2) (i 3) := by
  have hshape : (![t.ne0, t.ne1, t.ne2, t.ne3] : Fin 4 → Nat) = ![n0, n1, n2, n3] := by
    rw [h.ne0, h.ne1, h.ne2, h.ne3]
  have hvalue : ∀ i, Strided.InRange ![n0, n1, n2, n3] i →
      t.value (i 0) (i 1) (i 2) (i 3) = g (i 0) (i 1) (i 2) (i 3) := by
    intro i hi
    obtain ⟨h0, h1, h2, h3⟩ := inRange_iff.mp hi
    exact h.value _ h0 _ h1 _ h2 _ h3
  unfold Denotes
  rw [hshape]
  exact ⟨fun hx => hx.congr hvalue, fun hx => hx.congr fun i hi => (hvalue i hi).symm⟩

/-- The heads that the encoder computes with are the heads in memory. -/
theorem bertSplitHeads_denotes {t : Tensor4 α} {g : Nat → Nat → α} (hdvd : nHead ∣ nEmbd)
    (hx : x.Contiguous) (ht : t.Columns nEmbd (seqLen * batch) g) (h : Denotes x t) :
    ∃ y z, bertSplitHeads x nEmbd nHead seqLen batch = .ok y ∧
      LibEmbedding.bertSplitHeads t nEmbd nHead seqLen batch = .ok z ∧ Denotes y z := by
  obtain ⟨y, hy, -, hyholds⟩ := bertSplitHeads_holds hdvd hx ((denotes_iff ht).mp h)
  have ht' : t.Columns (nEmbd / nHead * nHead) (seqLen * batch) g := by
    rwa [Nat.div_mul_cancel hdvd]
  obtain ⟨t4, ht4, hentries⟩ := Tensor4.reshape4d_columns ht'
  refine ⟨y, t4.permute0213.cont, hy, ?_, ?_⟩
  · rw [LibEmbedding.bertSplitHeads, ht4, ok_bind]
    rfl
  · exact (denotes_iff (Tensor4.permute0213_cont hentries)).mpr hyholds

theorem mergeHeads_denotes {t : Tensor4 α} {g : Nat → Nat → Nat → Nat → α} (hdvd : nHead ∣ nEmbd)
    (ht : t.Entries (nEmbd / nHead) seqLen nHead batch g) (h : Denotes x t) :
    ∃ y z, mergeHeads x nEmbd seqLen batch = .ok y ∧
      t.permute0213.cont2d nEmbd (seqLen * batch) = .ok z ∧ Denotes y z := by
  obtain ⟨y, hy, -, hyholds⟩ := mergeHeads_holds hdvd ((denotes_iff ht).mp h)
  obtain ⟨z, hz, hcolumns⟩ := Tensor4.cont2d_permute0213 ht
  rw [Nat.div_mul_cancel hdvd] at hz hcolumns
  exact ⟨y, z, hy, hz, (denotes_iff hcolumns).mpr hyholds⟩

end StridedHeads

end LibEmbedding
