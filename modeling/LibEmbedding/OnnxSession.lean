import LibEmbedding.Foundation.Buffer
import LibEmbedding.Tokenizer

/-!
# Batches for the ONNX session

The flat buffers the ONNX paths copy an `EncodingBatch` into, and what a session
returns for them. The session itself is a parameter: it runs the model.
-/

namespace LibEmbedding

open Foundation

/-- `TensorResult`: the data has one element for each index of the shape. -/
structure Tensor (α : Type) where
  data : List α
  shape : List Nat
  sized : data.length = shape.prod
  deriving DecidableEq

/-- The inputs of a run, flat `[batch * seqLength]` buffers. -/
structure FlatBatch where
  ids : List Int
  mask : List Int
  types : List Int
  batch : Nat
  seqLength : Nat
  deriving DecidableEq, Repr

/-- `OnnxSession`. `selectOutput` gets the output name the model is known by, if
it has one; `run` may throw, and returns at least the requested output. -/
structure OnnxSession (α : Type) where
  selectOutput : Option Bytes → Int
  run : FlatBatch → Int → Outcome (List (Tensor α))

/-- The largest `i * len + j` of an inner loop over `j < len`, an `int`. -/
def rowEnd (i len : Nat) : Checked Unit :=
  ensure (len = 0 ∨ FitsInt ((i : Int) * len + (len - 1))) .overflow

/-- Copies the rows one after another into a buffer of `rows.length * len` places. -/
def flatten (rows : List (List Int)) (len : Nat) : Checked (List Int) :=
  forUpTo rows.length (fun buf i => do
    rowEnd i len
    let row ← get rows i
    let row ← readAt row 0 len
    writeAt buf (i * len) row) (List.replicate (rows.length * len) 0)

theorem flatten_ok {rows : List (List Int)} (hrows : ∀ r ∈ rows, r.length = len)
    (h : flatten rows len = .ok buf) : buf = rows.flatMap id := by
  have hinv := forUpTo_invariant (fun k (buf : List Int) => buf.length = rows.length * len ∧
    ∀ i < k, ∀ r, rows[i]? = some r → row len i buf = r) (by simp) ?_ h
  · refine eq_flatMap hrows hinv.1 fun i r hr => ?_
    exact hinv.2 i (List.getElem?_eq_some_iff.mp hr).1 r hr
  · rintro i s t hi ⟨hs, hdone⟩ hstep
    simp only [bind_ok, get_ok, readAt_ok] at hstep
    obtain ⟨-, -, r, hr, -, ⟨-, rfl⟩, hw⟩ := hstep
    have hlen : r.length = len := hrows r (List.mem_of_getElem? hr)
    rw [List.drop_zero, List.take_of_length_le hlen.le] at hw
    refine ⟨(length_of_writeAt hw).trans hs, fun j hj x hx => ?_⟩
    rcases Nat.lt_succ_iff_lt_or_eq.mp hj with hlt | rfl
    · rw [row_of_writeAt_ne hw hlen (by omega), hdone j hlt x hx]
    · cases hr.symm.trans hx
      exact row_of_writeAt hw hlen

theorem flatten_total {rows : List (List Int)} (hrows : ∀ r ∈ rows, r.length = len)
    (hfits : ((rows.length * len : Nat) : Int) ≤ intMax + 1) :
    flatten rows len = .ok (rows.flatMap id) := by
  have hloop : ∃ buf, flatten rows len = .ok buf ∧ buf.length = rows.length * len := by
    refine forUpTo_total (fun _ (buf : List Int) => buf.length = rows.length * len) (by simp) ?_
    intro i buf hi hbuf
    have hbound := row_bound hi len
    have hend : len = 0 ∨ FitsInt ((i : Int) * len + (len - 1)) := by
      rcases Nat.eq_zero_or_pos len with h | h
      · exact .inl h
      · refine .inr ⟨?_, ?_⟩
        · have : intMin ≤ 0 := by decide
          have : 0 ≤ (i : Int) * len := by positivity
          omega
        · have : ((i * len + len : Nat) : Int) ≤ (rows.length * len : Nat) := by
            exact_mod_cast hbound
          push_cast at this hfits ⊢
          omega
    have hr := List.getElem?_eq_getElem hi
    have hlen : rows[i].length = len := hrows _ (List.getElem_mem hi)
    have hread : readAt rows[i] 0 len = .ok rows[i] :=
      readAt_ok.mpr ⟨by omega, by rw [List.drop_zero, List.take_of_length_le hlen.le]⟩
    obtain ⟨out, hout⟩ := writeAt_row_ok hbuf hi hlen
    refine ⟨out, ?_, (length_of_writeAt hout).trans hbuf⟩
    simp only [rowEnd, ensure_pos hend, ok_bind, get_ok.mpr hr, hread, hout]
  obtain ⟨buf, hbuf, -⟩ := hloop
  rw [hbuf, flatten_ok hrows hbuf]

/-- The last offset of the loops is an `int`. -/
theorem flatten_fits {rows : List (List Int)} (h : flatten rows len = .ok buf) :
    ((rows.length * len : Nat) : Int) ≤ intMax + 1 := by
  have hmax : 0 ≤ intMax := by decide
  rcases Nat.eq_zero_or_pos rows.length with hrows | hrows
  · rw [hrows, Nat.zero_mul]
    push_cast
    omega
  · obtain ⟨s, t, -, hstep⟩ := forUpTo_ran h (Nat.sub_one_lt_of_lt hrows)
    simp only [bind_ok, rowEnd, ensure_ok] at hstep
    obtain ⟨-, hend, -⟩ := hstep
    rcases hend with rfl | hend
    · rw [Nat.mul_zero]
      push_cast
      omega
    · obtain ⟨m, hm⟩ : ∃ m, rows.length = m + 1 := ⟨_, (Nat.sub_add_cancel hrows).symm⟩
      have hle := hend.2
      rw [hm] at hle ⊢
      push_cast at hle ⊢
      rw [add_mul, one_mul]
      omega

end LibEmbedding
