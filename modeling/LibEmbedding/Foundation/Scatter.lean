import LibEmbedding.Foundation.Buffer

/-!
# Writes to places of their own

A list of writes, carried out one after another. Where no place is written twice the order
leaves no trace, so writing every element of a list to its own place gives the list back.
-/

namespace LibEmbedding.Foundation

/-- Each element goes to the place it comes with. -/
def scatter (writes : List (Nat × α)) (out : List α) : List α :=
  writes.foldl (fun out w => out.set w.1 w.2) out

@[simp] theorem scatter_nil (out : List α) : scatter [] out = out := rfl

@[simp] theorem scatter_cons (w : Nat × α) (writes : List (Nat × α)) (out : List α) :
    scatter (w :: writes) out = scatter writes (out.set w.1 w.2) := rfl

theorem scatter_append (front back : List (Nat × α)) (out : List α) :
    scatter (front ++ back) out = scatter back (scatter front out) :=
  List.foldl_append

@[simp] theorem length_scatter (writes : List (Nat × α)) (out : List α) :
    (scatter writes out).length = out.length := by
  induction writes generalizing out with
  | nil => rfl
  | cons w writes ih => rw [scatter_cons, ih, List.length_set]

theorem getElem?_scatter_of_notMem {writes : List (Nat × α)} (h : j ∉ writes.map Prod.fst)
    (out : List α) : (scatter writes out)[j]? = out[j]? := by
  induction writes generalizing out with
  | nil => rfl
  | cons w writes ih =>
    rw [List.map_cons, List.mem_cons, not_or] at h
    rw [scatter_cons, ih h.2, List.getElem?_set_ne (Ne.symm h.1)]

theorem getElem?_scatter {writes : List (Nat × α)} (hnodup : (writes.map Prod.fst).Nodup)
    (h : (j, x) ∈ writes) {out : List α} (hj : j < out.length) :
    (scatter writes out)[j]? = some x := by
  induction writes generalizing out with
  | nil => cases h
  | cons w writes ih =>
    rw [List.map_cons, List.nodup_cons] at hnodup
    rw [scatter_cons]
    rcases List.mem_cons.mp h with rfl | hmem
    · rw [getElem?_scatter_of_notMem hnodup.1, List.getElem?_set_self hj]
    · exact ih hnodup.2 hmem (by rwa [List.length_set])

/-- The elements of a list, each written to its own place in any order. -/
theorem scatter_perm {writes : List (Nat × α)} {xs out : List α}
    (h : writes.Perm (xs.zipIdx.map Prod.swap)) (hlen : out.length = xs.length) :
    scatter writes out = xs := by
  have hplaces : (xs.zipIdx.map Prod.swap).map Prod.fst = List.range xs.length := by
    rw [List.map_map, List.range_eq_range']
    exact List.zipIdx_map_snd 0 xs
  have hnodup : (writes.map Prod.fst).Nodup := by
    rw [(h.map Prod.fst).nodup_iff, hplaces]
    exact List.nodup_range
  apply List.ext_getElem?
  intro j
  by_cases hj : j < xs.length
  · have hmem : (j, xs[j]) ∈ writes := by
      refine h.mem_iff.mpr (List.mem_map.mpr ⟨(xs[j], j), ?_, rfl⟩)
      exact List.mem_zipIdx_iff_getElem?.mpr (List.getElem?_eq_getElem hj)
    rw [getElem?_scatter hnodup hmem (by omega), List.getElem?_eq_getElem hj]
  · rw [List.getElem?_eq_none (by rw [length_scatter]; omega), List.getElem?_eq_none (by omega)]

/-- A loop that writes the elements of one list to the places of another. -/
theorem forUpTo_scatter {targets : List Nat} {vs out : List α} (hlen : vs.length = targets.length)
    (htargets : ∀ j ∈ targets, j < out.length) :
    forUpTo targets.length (fun out j => do
      let target ← get targets j
      let v ← get vs j
      writeAt out target [v]) out = .ok (scatter (targets.zip vs) out) := by
  induction targets generalizing vs out with
  | nil => rfl
  | cons target targets ih =>
    cases vs with
    | nil => cases hlen
    | cons v vs =>
      have hwrite : writeAt out target [v] = .ok (out.set target v) := by
        have hin := htargets target List.mem_cons_self
        refine writeAt_ok.mpr ⟨hin, ?_⟩
        rw [List.set_eq_take_append_cons_drop, if_pos hin, List.append_assoc]
        rfl
      have hlater : ∀ j ∈ targets, j < (out.set target v).length := by
        intro j hj
        rw [List.length_set]
        exact htargets j (List.mem_cons_of_mem target hj)
      have hrest := ih (Nat.succ.inj hlen) hlater
      rw [List.length_cons, forUpTo_cons, List.zip_cons_cons, scatter_cons, ← hrest]
      show (writeAt out target [v] >>= fun t => _) = _
      rw [hwrite]
      rfl

end LibEmbedding.Foundation
