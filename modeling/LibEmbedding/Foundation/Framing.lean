import Mathlib.Tactic

/-!
# Framing

Strings written as one, each behind its length or with a separator between them, and what a fold
over symbols keeps apart.
-/

namespace LibEmbedding.Foundation

variable {α σ : Type}

-- ---------------------------------------------------------------------------
-- Behind their lengths
-- ---------------------------------------------------------------------------

/-- How a length is written: in a fixed number of symbols, and apart from every other length
below a bound. -/
structure LengthCode (α : Type) where
  header : Nat → List α
  width : Nat
  bound : Nat
  width_pos : 0 < width
  length_header : ∀ n, (header n).length = width
  header_injective : ∀ n < bound, ∀ m < bound, header n = header m → n = m

namespace LengthCode

variable (code : LengthCode α)

def frame (x : List α) : List α := code.header x.length ++ x

def stream (xs : List (List α)) : List α := xs.flatMap code.frame

theorem frame_ne_nil (x rest : List α) : code.frame x ++ rest ≠ [] := by
  intro h
  have hheader := List.append_eq_nil_iff.mp (List.append_eq_nil_iff.mp h).1
  have hlength := code.length_header x.length
  rw [hheader.1] at hlength
  exact Nat.ne_of_lt code.width_pos hlength

/-- A frame ends where its length says, whatever follows. -/
theorem frame_append {x y rest rest' : List α} (hx : x.length < code.bound)
    (hy : y.length < code.bound) (h : code.frame x ++ rest = code.frame y ++ rest') :
    x = y ∧ rest = rest' := by
  simp only [frame, List.append_assoc] at h
  obtain ⟨hheader, htail⟩ := List.append_inj h <| by
    rw [code.length_header, code.length_header]
  exact List.append_inj htail (code.header_injective _ hx _ hy hheader)

theorem stream_injective {xs ys : List (List α)} (hxs : ∀ x ∈ xs, x.length < code.bound)
    (hys : ∀ y ∈ ys, y.length < code.bound) (h : code.stream xs = code.stream ys) : xs = ys := by
  induction xs generalizing ys with
  | nil =>
    cases ys with
    | nil => rfl
    | cons y ys => exact absurd h.symm (code.frame_ne_nil y _)
  | cons x xs ih =>
    cases ys with
    | nil => exact absurd h (code.frame_ne_nil x _)
    | cons y ys =>
      rw [List.forall_mem_cons] at hxs hys
      obtain ⟨rfl, hrest⟩ := code.frame_append hxs.1 hys.1 h
      rw [ih hxs.2 hys.2 hrest]

end LengthCode

-- ---------------------------------------------------------------------------
-- Between separators
-- ---------------------------------------------------------------------------

section Separators

variable {sep : α} {xs ys : List (List α)}

/-- What comes before the first separator is told by what is written. -/
theorem append_separator {x y rest rest' : List α} (hx : sep ∉ x) (hy : sep ∉ y)
    (h : x ++ sep :: rest = y ++ sep :: rest') : x = y ∧ rest = rest' := by
  induction x generalizing y with
  | nil =>
    cases y with
    | nil => exact ⟨rfl, (List.cons.inj h).2⟩
    | cons b y =>
      obtain ⟨rfl, -⟩ := List.cons.inj h
      exact absurd List.mem_cons_self hy
  | cons a x ih =>
    cases y with
    | nil =>
      obtain ⟨rfl, -⟩ := List.cons.inj h
      exact absurd List.mem_cons_self hx
    | cons b y =>
      obtain ⟨rfl, htail⟩ := List.cons.inj h
      rw [List.mem_cons, not_or] at hx hy
      obtain ⟨rfl, hrest⟩ := ih hx.2 hy.2 htail
      exact ⟨rfl, hrest⟩

theorem mem_intercalate (hc : c ≠ sep) : c ∈ [sep].intercalate xs ↔ ∃ x ∈ xs, c ∈ x := by
  induction xs with
  | nil => simp
  | cons x xs ih =>
    cases xs with
    | nil => simp [List.intercalate_singleton]
    | cons y xs =>
      rw [List.intercalate_cons_cons, List.mem_append, List.mem_append, ih, List.mem_singleton]
      simp [hc]

theorem count_intercalate [DecidableEq α] (sep : α) (h : xs ≠ []) :
    ([sep].intercalate xs).count sep + 1 = xs.length + (xs.map (·.count sep)).sum := by
  induction xs with
  | nil => exact absurd rfl h
  | cons x xs ih =>
    cases xs with
    | nil =>
      simp only [List.intercalate_singleton, List.length_singleton, List.map_singleton,
        List.sum_singleton]
      exact Nat.add_comm ..
    | cons y xs =>
      have hrest := ih (List.cons_ne_nil y xs)
      rw [List.intercalate_cons_cons, List.count_append, List.count_append, List.count_singleton_self]
      rw [List.map_cons, List.sum_cons, List.length_cons]
      omega

/-- Fields without a separator are told by what is written, and so is their number. -/
theorem intercalate_injective [DecidableEq α] (hne : xs ≠ []) (hlength : xs.length = ys.length)
    (hxs : ∀ x ∈ xs, sep ∉ x) (h : [sep].intercalate xs = [sep].intercalate ys) : xs = ys := by
  have hne' : ys ≠ [] := by
    rintro rfl
    exact hne (List.length_eq_zero_iff.mp hlength)
  have hcount : (xs.map (·.count sep)).sum = (ys.map (·.count sep)).sum := by
    have hleft := count_intercalate sep hne
    have hright := count_intercalate sep hne'
    rw [h] at hleft
    omega
  have hnone : (xs.map (·.count sep)).sum = 0 := by
    rw [List.sum_eq_zero_iff_forall_eq_nat]
    intro n hn
    obtain ⟨x, hx, rfl⟩ := List.mem_map.mp hn
    exact List.count_eq_zero.mpr (hxs x hx)
  have hys : ∀ y ∈ ys, sep ∉ y := by
    rw [hnone, eq_comm, List.sum_eq_zero_iff_forall_eq_nat] at hcount
    intro y hy
    exact List.count_eq_zero.mp (hcount _ (List.mem_map.mpr ⟨y, hy, rfl⟩))
  rw [← List.splitOn_intercalate sep hxs hne, h, List.splitOn_intercalate sep hys hne']

/-- A separator inside a field can be read as one between fields, and one between fields as one
inside. -/
theorem exists_regrouped (hlength : 2 ≤ xs.length) (h : ∃ x ∈ xs, sep ∈ x) :
    ∃ ys, ys.length = xs.length ∧ ys ≠ xs ∧ [sep].intercalate ys = [sep].intercalate xs := by
  induction xs with
  | nil => exact absurd hlength (Nat.not_succ_le_zero 1)
  | cons x xs ih =>
    cases xs with
    | nil => exact absurd hlength (Nat.not_succ_le_self 1)
    | cons y xs =>
      by_cases hx : sep ∈ x
      · -- the first field ends earlier
        obtain ⟨a, b, rfl⟩ := List.append_of_mem hx
        refine ⟨a :: (b ++ sep :: y) :: xs, rfl, fun heq => ?_, ?_⟩
        · have hlen := congrArg List.length (List.cons.inj heq).1
          rw [List.length_append, List.length_cons] at hlen
          omega
        · cases xs <;> simp [List.intercalate_cons_cons, List.intercalate_singleton]
      · have hrest : ∃ z ∈ y :: xs, sep ∈ z := by
          obtain ⟨z, hz, hsep⟩ := h
          rcases List.mem_cons.mp hz with rfl | hz
          · exact absurd hsep hx
          · exact ⟨z, hz, hsep⟩
        cases xs with
        | nil =>
          -- the last two fields meet later
          obtain ⟨z, hz, hsep⟩ := hrest
          obtain rfl := List.mem_singleton.mp hz
          obtain ⟨a, b, rfl⟩ := List.append_of_mem hsep
          refine ⟨[x ++ sep :: a, b], rfl, fun heq => ?_, ?_⟩
          · have hlen := congrArg List.length (List.cons.inj heq).1
            rw [List.length_append, List.length_cons] at hlen
            omega
          · simp [List.intercalate_cons_cons, List.intercalate_singleton]
        | cons z xs =>
          obtain ⟨ys, hlen, hdiffers, hsame⟩ := ih (Nat.le_add_left 2 _) hrest
          refine ⟨x :: ys, congrArg Nat.succ hlen, fun heq => hdiffers (List.cons.inj heq).2, ?_⟩
          have hys : ys ≠ [] := by
            rintro rfl
            exact absurd hlen (by simp)
          rw [List.intercalate_cons_of_ne_nil hys, hsame,
            List.intercalate_cons_of_ne_nil (List.cons_ne_nil y (z :: xs))]

end Separators

-- ---------------------------------------------------------------------------
-- Places
-- ---------------------------------------------------------------------------

/-- Two lists of one length that differ at one place and nowhere else. -/
def DifferOnce (xs ys : List α) : Prop := xs.length = ys.length ∧ ∃! i : Nat, xs[i]? ≠ ys[i]?

theorem DifferOnce.split {xs ys : List α} (h : DifferOnce xs ys) :
    ∃ before a b rest, a ≠ b ∧ xs = before ++ a :: rest ∧ ys = before ++ b :: rest := by
  obtain ⟨hlength, i, hi, honly⟩ := h
  have hagree : ∀ j, j ≠ i → xs[j]? = ys[j]? := by
    intro j hj
    by_contra hne
    exact hj (honly j hne)
  have hx : i < xs.length := by
    by_contra hge
    rw [List.getElem?_eq_none (by omega), List.getElem?_eq_none (by omega)] at hi
    exact hi rfl
  have hy : i < ys.length := hlength ▸ hx
  have htake : xs.take i = ys.take i := by
    refine List.ext_getElem? fun j => ?_
    rw [List.getElem?_take, List.getElem?_take]
    split
    · exact hagree j (by omega)
    · rfl
  have hdrop : xs.drop (i + 1) = ys.drop (i + 1) := by
    refine List.ext_getElem? fun j => ?_
    rw [List.getElem?_drop, List.getElem?_drop]
    exact hagree _ (by omega)
  refine ⟨xs.take i, xs[i], ys[i], xs.drop (i + 1), fun heq => hi ?_, ?_, ?_⟩
  · rw [List.getElem?_eq_getElem hx, List.getElem?_eq_getElem hy, heq]
  · rw [List.getElem_cons_drop, List.take_append_drop]
  · rw [htake, hdrop, List.getElem_cons_drop, List.take_append_drop]

-- ---------------------------------------------------------------------------
-- Folds
-- ---------------------------------------------------------------------------

theorem foldl_injective {f : σ → α → σ} (hf : ∀ a, Function.Injective fun s => f s a)
    (xs : List α) : Function.Injective fun s => xs.foldl f s := by
  induction xs with
  | nil => exact fun _ _ h => h
  | cons x xs ih => exact fun s t h => hf x (ih h)

/-- A fold whose steps lose nothing keeps lists apart that differ at one place. -/
theorem foldl_ne {f : σ → α → σ} (hf : ∀ a, Function.Injective fun s => f s a)
    (hsymbol : ∀ s, Function.Injective (f s)) (hab : a ≠ b) (before rest : List α) (s : σ) :
    (before ++ a :: rest).foldl f s ≠ (before ++ b :: rest).foldl f s := by
  intro h
  rw [List.foldl_append, List.foldl_append] at h
  exact hab (hsymbol _ (foldl_injective hf rest h))

-- ---------------------------------------------------------------------------
-- Digits
-- ---------------------------------------------------------------------------

theorem digits_injective {base width n m : Nat} (hn : n < base ^ width) (hm : m < base ^ width)
    (h : ∀ i < width, n / base ^ i % base = m / base ^ i % base) : n = m := by
  induction width generalizing n m with
  | zero =>
    rw [Nat.pow_zero] at hn hm
    omega
  | succ width ih =>
    have hlow : n % base = m % base := by simpa using h 0 (Nat.succ_pos _)
    have hhigh : n / base = m / base := by
      rw [Nat.pow_succ'] at hn hm
      refine ih (Nat.div_lt_of_lt_mul hn) (Nat.div_lt_of_lt_mul hm) fun i hi => ?_
      have hi := h (i + 1) (Nat.succ_lt_succ hi)
      rwa [Nat.pow_succ', ← Nat.div_div_eq_div_mul, ← Nat.div_div_eq_div_mul] at hi
    rw [← Nat.mod_add_div n base, ← Nat.mod_add_div m base, hlow, hhigh]

end LibEmbedding.Foundation
