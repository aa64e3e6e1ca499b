import LibEmbedding.GgufTables
import LibEmbedding.SparseCalls

/-!
# What a sparse call leaves to its caller

Whether the struct can be freed after a call, whatever fails in it. On the ONNX path the count is
set before there are items; on the GGUF path an exception before the items exist frees what the
caller has brought along.
-/

namespace LibEmbedding

open Foundation Program CallState

namespace CallState

variable {α : Type} {s : CallState α}

/-- The state a call starts in. -/
def start (heap : Heap (SparseBlock α)) (result : SparseEmbeddings) : CallState α :=
  ⟨heap, result, [], []⟩

/-- A call has used no pointer that leads nowhere and no exception has left it; it has freed
only what it has allocated; and what it leaves on its return is well formed and can be freed. -/
structure ResultSafe (ended : Except Halt Status × CallState α) : Prop where
  defined : ended.1 ≠ .error .misused
  caught : ended.1 ≠ .error .threw
  freed : ∀ q ∈ ended.2.freed, q ∈ ended.2.allocated
  wellFormed : ∀ status, ended.1 = .ok status → ended.2.WellFormed
  freeable : ∀ status, ended.1 = .ok status → (sparseEmbeddingsFree.run ended.2).1 = .ok ()

/-- A well-formed struct can be freed. -/
theorem WellFormed.free (h : s.WellFormed) : (sparseEmbeddingsFree.run s).1 = .ok () := by
  rcases h with ⟨hitems, hcount⟩ | ⟨p, items, vectors, hreadable⟩
  · have hloop : s.result.count.toNat = 0 := Int.toNat_eq_zero.mpr hcount
    unfold sparseEmbeddingsFree
    rw [bind_of_ok (a := s) (t := s) rfl, hloop, bind_of_ok (a := ()) (t := s) rfl,
      bind_of_ok (a := s) (t := s) rfl, hitems, bind_of_ok free_none]
    rfl
  · have hmeets := hreadable.free (T := fun _ _ => False) s rfl
    cases hrun : sparseEmbeddingsFree.run s with
    | mk result t =>
      rw [hrun] at hmeets
      cases result with
      | ok u => rfl
      | error e => exact hmeets.elim

/-- All that has been freed is the call's own. -/
def Clean (s : CallState α) : Prop := ∀ q ∈ s.freed, q ∈ s.allocated

/-- What a call may be cut short by. -/
def FaultedClean (e : Halt) (s : CallState α) : Prop := (∃ fault, e = .faulted fault) ∧ s.Clean

theorem resultSafe_of_meets {m : Program (CallState α) Status}
    (h : m.Meets (· = s) (fun _ t => t.WellFormed ∧ t.Clean) FaultedClean) :
    ResultSafe (m.run s) := by
  have hs := h s rfl
  cases hrun : m.run s with
  | mk result t =>
    rw [hrun] at hs
    cases result with
    | ok status => exact ⟨nofun, nofun, hs.2, fun _ _ => hs.1, fun _ _ => hs.1.free⟩
    | error e =>
      obtain ⟨⟨fault, rfl⟩, hclean⟩ := hs
      exact ⟨nofun, nofun, hclean, nofun, nofun⟩

/-- The items of a call, once they are allocated: `n` of them, and `count` says `count`. -/
def Assembling (n : Nat) (count : Int) (s : CallState α) : Prop :=
  ∃ p vectors, vectors.length = n ∧ Filling p vectors count s

variable {n : Nat} {count : Int}

theorem Assembling.of_filling {vectors : List (SparseResult α)} (h : ∃ p, Filling p vectors count s)
    (hlength : vectors.length = n) : Assembling n count s := by
  obtain ⟨p, hfilling⟩ := h
  exact ⟨p, vectors, hlength, hfilling⟩

theorem Assembling.clean (h : Assembling n count s) : s.Clean := by
  obtain ⟨p, vectors, -, items, -, howns, -⟩ := h
  exact howns.freed

theorem Assembling.wellFormed (h : Assembling n count s) (hcount : 0 ≤ count)
    (hle : count ≤ n) : s.WellFormed := by
  obtain ⟨p, vectors, hlength, items, hholds, -, hs⟩ := h
  have hreadable := hholds.readable (n := count.toNat)
    (hs.trans (Int.toNat_of_nonneg hcount).symm) (by omega)
  exact .inr ⟨p, items, _, hreadable⟩

/-- Freeing what a call has assembled. -/
theorem Assembling.free (hcount : 0 ≤ count) (hle : count ≤ n) :
    sparseEmbeddingsFree.Meets (Assembling n count : CallState α → Prop)
      (fun _ t => t.Empty ∧ t.Clean) FaultedClean := by
  rintro s ⟨p, vectors, hlength, items, hholds, howns, hs⟩
  have hreadable := hholds.readable (n := count.toNat)
    (hs.trans (Int.toNat_of_nonneg hcount).symm) (by omega)
  refine hreadable.free.weaken (K := (· = s)) (fun _ => id) ?_ (fun _ _ => id) s rfl
  rintro - t ⟨hresult, hallocated, hfreed⟩
  refine ⟨⟨by rw [hresult], by rw [hresult]⟩, ?_⟩
  intro q hq
  rw [hallocated]
  rcases hfreed q hq with hold | hown
  · exact howns.freed q hold
  · refine howns.own q (List.Sublist.subset (.cons_cons p ?_) hown)
    exact (List.take_sublist _ items).flatMap SparseItem.pointers

end CallState

namespace SparseEmbedding

-- ---------------------------------------------------------------------------
-- The steps of both paths
-- ---------------------------------------------------------------------------

section Steps

variable {α : Type} {env : SparseEnv} {n : Nat} {count : Int}

/-- What is left where a call is cut short while it assembles its items. -/
def Interrupted (n : Nat) (count : Int) (e : Halt) (s : CallState α) : Prop :=
  e ≠ .misused ∧ Assembling n count s

theorem Interrupted.of_threw {s : CallState α} (h : Assembling n count s) :
    Interrupted n count .threw s := ⟨nofun, h⟩

theorem Interrupted.of_fault (fault : Fault) {s : CallState α} (h : Assembling n count s) :
    Interrupted n count (.faulted fault) s := ⟨nofun, h⟩

theorem Interrupted.faultedClean {e : Halt} {s : CallState α} (h : Interrupted n count e s)
    (hthrew : e ≠ .threw) : FaultedClean e s := by
  refine ⟨?_, h.2.clean⟩
  cases e with
  | threw => exact absurd rfl hthrew
  | faulted fault => exact ⟨fault, rfl⟩
  | misused => exact absurd rfl h.1

/-- The items, when there is memory for them. -/
theorem meets_allocItems {T : Halt → CallState α → Prop} (hcalloc : env.calloc = true) :
    (allocItems env n).Meets
      (fun s : CallState α => s.allocated = [] ∧ s.freed = [] ∧ s.result.count = count)
      (fun there s => there = true ∧
        ∃ p, Filling p (List.replicate n ([] : SparseResult α)) count s) T := by
  refine Meets.of_run ?_
  rintro s ⟨hallocated, hfreed, hcount⟩
  have hempty : List.Forall₂ (HoldsVector (s.grow (.items (List.replicate n emptyItem))).heap)
      (List.replicate n emptyItem) (List.replicate n ([] : SparseResult α)) := by
    refine List.forall₂_iff_get.mpr ⟨by simp, fun i hi hi' => ?_⟩
    simp only [List.get_eq_getElem, List.getElem_replicate]
    exact .empty
  have hpointers : pointers (List.replicate n emptyItem) = [] := by
    refine List.flatMap_eq_nil_iff.mpr fun item hitem => ?_
    rw [List.eq_of_mem_replicate hitem]
    rfl
  unfold allocItems
  rw [hcalloc, bind_of_ok alloc_true]
  refine ⟨true, _, rfl, rfl, s.heap.next, List.replicate n emptyItem,
    ⟨⟨rfl, Heap.cells_alloc⟩, hempty, ?_⟩, ⟨?_, ?_⟩, hcount⟩
  · rw [hpointers]
    exact List.nodup_singleton _
  · rw [hpointers]
    intro q hq
    rw [List.mem_singleton.mp hq]
    exact List.mem_cons_self
  · intro q hq
    have hold : q ∈ s.freed := hq
    rw [hfreed] at hold
    cases hold

theorem meets_allocItems_failed {T : Halt → CallState α → Prop} (hcalloc : env.calloc = false) :
    (allocItems env n).Meets
      (fun s : CallState α => s.allocated = [] ∧ s.freed = [] ∧ s.result.count = count)
      (fun there s => there = false ∧ s.result = ⟨none, count⟩ ∧ s.Clean) T := by
  refine Meets.of_run ?_
  rintro s ⟨-, hfreed, hcount⟩
  unfold allocItems
  rw [hcalloc, bind_of_ok alloc_false]
  refine ⟨false, _, rfl, rfl, ?_, ?_⟩
  · rw [← hcount]
  · intro q hq
    have hold : q ∈ s.freed := hq
    rw [hfreed] at hold
    cases hold

theorem meets_setCount {T : Halt → CallState α → Prop} (next : Int) :
    (setCount next).Meets (Assembling n count : CallState α → Prop)
      (fun _ => Assembling n next) T := by
  refine Meets.modify ?_
  rintro s ⟨p, vectors, hlength, items, hholds, howns, -⟩
  exact ⟨p, vectors, hlength, items, ⟨⟨hholds.points.pointer, hholds.points.array⟩, hholds.held,
    hholds.apart⟩, ⟨howns.own, howns.freed⟩, rfl⟩

variable [Field α] [LinearOrder α]

theorem meets_storePruned {sorter : SortImpl} {options : SparseOptions α}
    {results : List (SparseResult α)} {outOffset i : Nat} (hi : outOffset + i < n) :
    (storePruned env sorter options results outOffset i).Meets (Assembling n count)
      (fun _ => Assembling n count) (Interrupted n count) := by
  refine (Meets.compute fun fault _ => .of_fault fault).bind fun sr => .of_fact fun _ => ?_
  refine (Meets.throwIf fun _ => .of_threw).bind fun _ => .of_fact fun _ => ?_
  refine (Meets.compute fun fault _ => .of_fault fault).bind fun sr => .of_fact fun _ => ?_
  rintro s ⟨p, vectors, rfl, hfilling⟩
  refine (Filling.store hi).weaken (fun _ => id) ?_ (fun _ _ => id) s hfilling
  intro _ t ht
  exact ⟨p, _, List.length_set, ht⟩

end Steps

-- ---------------------------------------------------------------------------
-- ONNX
-- ---------------------------------------------------------------------------

section Onnx

variable {α : Type} [Field α] [LinearOrder α] {ctx : SparseEmbedding α} {env : SparseEnv}
  {fns : MathFns α} {sorter : SortImpl} {options : SparseOptions α}
  {texts : Nat → Option Bytes} {numTexts batchSize : Int}

/-- The batches before `bi` have filled the items before `outOffset`. -/
def BatchesDone (numTexts batchSize : Int) (bi outOffset : Nat) (s : CallState α) : Prop :=
  (outOffset : Int) = min (bi * batchSize) numTexts ∧ Assembling numTexts.toNat numTexts s

theorem meets_onnxBatch {bi outOffset : Nat} (hbatch : 0 < batchSize)
    (hfits : numTexts + batchSize ≤ intMax) (hbi : (bi : Int) < (numTexts + batchSize - 1) / batchSize) :
    (ctx.onnxBatch env fns sorter options texts numTexts batchSize outOffset bi).Meets
      (BatchesDone numTexts batchSize bi outOffset)
      (fun next => BatchesDone numTexts batchSize (bi + 1) next)
      (Interrupted numTexts.toNat numTexts) := by
  obtain ⟨hrange, hstart, hlt⟩ := getBatch_total hbatch hfits (Int.natCast_nonneg bi) hbi
  refine Meets.of_fact fun hoffset => ?_
  have hnext : ((bi + 1 : Nat) : Int) * batchSize = bi * batchSize + batchSize := by
    push_cast
    ring
  have hbsz : ∀ range : BatchRange,
      range = ⟨bi * batchSize, min (bi * batchSize + batchSize) numTexts⟩ →
        ((outOffset + (range.stop - range.start).toNat : Nat) : Int) =
          min (bi * batchSize + batchSize) numTexts := by
    rintro range rfl
    dsimp only
    omega
  refine (Meets.compute fun fault _ => .of_fault fault).bind fun range => .of_fact fun hgot => ?_
  have hend := hbsz range (Except.ok.inj (hgot.symm.trans hrange))
  refine (Meets.throwIf fun _ => .of_threw).bind fun _ => .of_fact fun _ => ?_
  refine (Meets.compute fun fault _ => .of_fault fault).bind fun ids => .of_fact fun _ => ?_
  refine (Meets.compute fun fault _ => .of_fault fault).bind fun mask => .of_fact fun _ => ?_
  dsimp only
  split
  · exact Meets.stop fun _ => .of_threw
  · refine (Meets.compute fun fault _ => .of_fault fault).bind fun output => .of_fact fun _ => ?_
    refine (Meets.compute fun fault _ => .of_fault fault).bind fun vocab => .of_fact fun _ => ?_
    refine (Meets.compute fun fault _ => .of_fault fault).bind fun results => .of_fact fun _ => ?_
    refine (Meets.forUpTo (fun _ _ => Assembling numTexts.toNat numTexts) fun i hi _ => ?_).bind
      fun _ => ?_
    · exact meets_storePruned (by omega)
    · intro s hs
      refine ⟨?_, hs⟩
      rw [hnext]
      exact hend

/-- The loop over the batches, for any batch size. -/
theorem meets_onnxBatches {numBatches : Int} (hn : 0 < numTexts)
    (hcount : batchCount numTexts batchSize = .ok numBatches) :
    (forUpTo numBatches.toNat (ctx.onnxBatch env fns sorter options texts numTexts batchSize) 0).Meets
      (Assembling numTexts.toNat numTexts) (fun _ => Assembling numTexts.toNat numTexts)
      (Interrupted numTexts.toNat numTexts) := by
  wlog hbatch : 0 < batchSize with hpos
  · have hnone : batchSize ≤ 0 := not_lt.mp hbatch
    have hbody : ctx.onnxBatch env fns sorter options texts numTexts batchSize =
        ctx.onnxBatch env fns sorter options texts numTexts numTexts := by
      funext outOffset bi
      unfold onnxBatch
      rw [getBatch_nonpos hn hnone]
    rw [batchCount_nonpos hn hnone] at hcount
    rw [hbody]
    exact hpos hn hcount hn
  obtain ⟨hfits, hk⟩ := (batchCount_ok hn.le hbatch).mp hcount
  refine (Meets.forUpTo (fun bi outOffset => BatchesDone numTexts batchSize bi outOffset)
    fun bi hbi outOffset => ?_).weaken (fun s hs => ⟨?_, hs⟩) (fun _ _ hs => hs.2) fun _ _ => id
  · refine meets_onnxBatch hbatch hfits ?_
    omega
  · rw [Nat.cast_zero, zero_mul, min_eq_left hn.le]

theorem meets_embedOnnx (hn : 0 < numTexts) (hcalloc : env.calloc = true) :
    (ctx.embedOnnx env fns sorter options texts numTexts batchSize).Meets
      (fun s => s.allocated = [] ∧ s.freed = []) (fun _ s => s.WellFormed ∧ s.Clean)
      FaultedClean := by
  have hcast : numTexts ≤ (numTexts.toNat : Int) := Int.self_le_toNat numTexts
  refine Meets.tryCatch (U := Interrupted numTexts.toNat numTexts) ?_ ?_ ?_
  · refine (Meets.modify (K := fun s => s.allocated = [] ∧ s.freed = [] ∧
      s.result.count = numTexts) fun s hs => ⟨hs.1, hs.2, rfl⟩).bind fun _ => ?_
    refine (meets_allocItems hcalloc).bind fun there => .of_fact ?_
    rintro rfl
    refine Meets.weaken (P := Assembling numTexts.toNat numTexts) ?_
      (fun s hs => .of_filling hs List.length_replicate) (fun _ _ => id) fun _ _ => id
    refine (Meets.compute fun fault _ => .of_fault fault).bind fun numBatches => .of_fact
      fun hcount => ?_
    refine (meets_onnxBatches hn hcount).bind fun _ => ?_
    exact fun s hs => ⟨hs.wellFormed hn.le hcast, hs.clean⟩
  · refine Meets.bind (Q := fun _ t => t.Empty ∧ t.Clean) ?_ fun _ s hs => ⟨.inl hs.1, hs.2⟩
    exact (Assembling.free hn.le hcast).weaken (fun _ hs => hs.2) (fun _ _ => id) fun _ _ => id
  · exact fun e s hthrew hs => hs.faultedClean hthrew

end Onnx

-- ---------------------------------------------------------------------------
-- GGUF
-- ---------------------------------------------------------------------------

section Gguf

variable {α : Type} [Field α] [LinearOrder α] {session : SparseSession} {env : SparseEnv}
  {graphs : Nat → GraphEnv} {fns : MathFns α} {sorter : SortImpl} {options : SparseOptions α}
  {texts : Nat → Option Bytes} {numTexts batchSize : Int}

theorem meets_embedGguf (hn : 0 < numTexts) (htexts : env.throws .texts = false)
    (hembed : env.throws .embed = false) :
    (embedGguf session env graphs fns sorter options texts numTexts batchSize).Meets
      (fun s => s.allocated = [] ∧ s.freed = []) (fun _ s => s.WellFormed ∧ s.Clean)
      FaultedClean := by
  let U (e : Halt) (s : CallState α) : Prop := Interrupted numTexts.toNat 0 e s ∨ FaultedClean e s
  refine Meets.tryCatch (U := U) ?_ ?_ ?_
  · rw [htexts, hembed]
    refine Meets.throwIf_false.bind fun _ => ?_
    refine Meets.throwIf_false.bind fun _ => ?_
    have hfresh : ∀ fault (s : CallState α), s.allocated = [] ∧ s.freed = [] →
        U (.faulted fault) s := by
      rintro fault s ⟨-, hfreed⟩
      refine .inr ⟨⟨fault, rfl⟩, fun q hq => ?_⟩
      rw [hfreed] at hq
      cases hq
    refine (Meets.compute hfresh).bind fun sparse => .of_fact fun _ => ?_
    refine (Meets.modify (K := fun s => s.allocated = [] ∧ s.freed = [] ∧
      s.result.count = 0) fun s hs => ⟨hs.1, hs.2, rfl⟩).bind fun _ => ?_
    cases hcalloc : env.calloc with
    | false =>
      refine (meets_allocItems_failed hcalloc).bind fun there => .of_fact ?_
      rintro rfl s ⟨hresult, hclean⟩
      exact ⟨.inl ⟨by rw [hresult], by rw [hresult]⟩, hclean⟩
    | true =>
      refine (meets_allocItems hcalloc).bind fun there => .of_fact ?_
      rintro rfl
      refine Meets.weaken (P := Assembling numTexts.toNat 0) ?_
        (fun s hs => .of_filling hs List.length_replicate) (fun _ _ => id) fun _ _ => id
      refine (Meets.compute fun fault _ hs => .inl (.of_fault fault hs)).bind fun _ => .of_fact
        fun _ => ?_
      refine (Meets.forUpTo (fun _ _ => Assembling numTexts.toNat 0) fun i hi _ => ?_).bind
        fun _ => ?_
      · refine (meets_storePruned ?_).weaken (fun _ => id) (fun _ _ => id) fun _ _ => .inl
        omega
      · refine (meets_setCount _).bind fun _ s hs => ?_
        refine ⟨hs.wellFormed (Int.natCast_nonneg _) ?_, hs.clean⟩
        exact Int.ofNat_le.mpr (min_le_right _ _)
  · refine Meets.bind (Q := fun _ t => t.Empty ∧ t.Clean) ?_ fun _ s hs => ⟨.inl hs.1, hs.2⟩
    refine (Assembling.free (n := numTexts.toNat) (le_refl (0 : Int))
      (Int.natCast_nonneg _)).weaken ?_ (fun _ _ => id) fun _ _ => id
    rintro s (hinterrupted | ⟨⟨fault, hfault⟩, -⟩)
    · exact hinterrupted.2
    · cases hfault
  · rintro e s hthrew (hinterrupted | hfaulted)
    · exact hinterrupted.faultedClean hthrew
    · exact hfaulted

omit [Field α] [LinearOrder α] in
/-- Freeing a struct whose items are not the call's frees them, or goes wrong. -/
theorem meets_free_foreign (r : SparseEmbeddings) :
    sparseEmbeddingsFree.Meets (fun s : CallState α => s.allocated = [] ∧ s.result = r)
      (fun _ s => s.allocated = [] ∧ (∀ p, r.items = some p → p ∈ s.freed) ∧
        (r.items = none → r.count ≤ 0))
      (fun e _ => e = .misused) := by
  let P (s : CallState α) : Prop := s.allocated = [] ∧ s.result = r
  have hitem : ∀ i, (itemAt i).Meets P (fun _ s => r.items ≠ none ∧ P s)
      (fun e _ => e = .misused) := by
    rintro i s ⟨hallocated, rfl⟩
    cases hgot : s.itemArray.bind fun array => array.2[i]? with
    | none => rw [itemAt_none hgot]
    | some item =>
      rw [itemAt_some hgot]
      refine ⟨fun hnone => ?_, hallocated, rfl⟩
      rw [CallState.itemArray, hnone] at hgot
      cases hgot
  have hfree : ∀ a, (CallState.free a).Meets P (fun _ => P) (fun e _ => e = .misused) := by
    rintro a s ⟨hallocated, hresult⟩
    cases a with
    | none => exact ⟨hallocated, hresult⟩
    | some q =>
      by_cases hlive : s.heap.Live q
      · rw [free_live hlive]
        exact ⟨hallocated, hresult⟩
      · rw [free_dead hlive]
  refine Meets.read_bind ?_
  rintro s ⟨hallocated, rfl⟩
  have hloop : (Program.forUpTo s.result.count.toNat (fun (_ : Unit) i => do
      let item ← itemAt i
      CallState.free item.indices
      let item ← itemAt i
      CallState.free item.values) ()).Meets (fun t => (0 < 0 → s.result.items ≠ none) ∧ P t)
      (fun _ t => (0 < s.result.count.toNat → s.result.items ≠ none) ∧ P t)
      (fun e _ => e = .misused) := by
    refine Meets.forUpTo (fun i _ t => (0 < i → s.result.items ≠ none) ∧ P t) fun i _ _ => ?_
    refine Meets.of_fact fun _ => ?_
    refine (hitem i).bind fun item => .of_fact fun hthere => ?_
    refine (hfree _).bind fun _ => ?_
    refine (hitem i).bind fun item => .of_fact fun _ => ?_
    exact (hfree _).weaken (fun _ => id) (fun _ _ ht => ⟨fun _ => hthere, ht⟩) fun _ _ => id
  refine (hloop.weaken (K := (· = s)) (fun t ht => ⟨by simp, ht ▸ ⟨hallocated, rfl⟩⟩)
    (fun _ _ => id) fun _ _ => id).bind fun _ => .of_fact fun hcount => ?_
  refine Meets.read_bind ?_
  rintro t ⟨hown, hresult⟩
  have hle : s.result.items = none → s.result.count ≤ 0 := by
    intro hnone
    by_contra hpos
    exact hcount (by omega) hnone
  rintro t' rfl
  rw [hresult]
  cases hitems : s.result.items with
  | none =>
    rw [bind_of_ok free_none]
    exact ⟨hown, by simp, fun _ => hle hitems⟩
  | some q =>
    by_cases hlive : t'.heap.Live q
    · rw [bind_of_ok (free_live hlive)]
      refine ⟨hown, ?_, by simp⟩
      rintro _ ⟨⟩
      exact List.mem_cons_self
    · rw [bind_of_error (free_dead hlive)]

/-- An exception before the items exist reaches the handler with what the caller has brought. -/
theorem run_embedGguf_thrown {s : CallState α}
    (h : env.throws .texts = true ∨ env.throws .embed = true) :
    (embedGguf session env graphs fns sorter options texts numTexts batchSize).run s =
      (do
        sparseEmbeddingsFree
        return Status.gguf : Program (CallState α) Status).run s := by
  apply tryCatch_of_threw
  cases htexts : env.throws .texts with
  | true => exact bind_of_error throwIf_true
  | false =>
    have hembed := h.resolve_left (by rw [htexts]; nofun)
    rw [hembed]
    rfl

/-- Then it is safe just when that was nothing. -/
theorem safe_thrown_iff (heap : Heap (SparseBlock α)) (result : SparseEmbeddings)
    (h : env.throws .texts = true ∨ env.throws .embed = true) :
    ResultSafe ((embedGguf session env graphs fns sorter options texts numTexts batchSize).run
      (start heap result)) ↔ (start heap result).Empty := by
  rw [run_embedGguf_thrown h]
  constructor
  · intro hsafe
    have hforeign := meets_free_foreign result (start heap result) ⟨rfl, rfl⟩
    cases hrun : (sparseEmbeddingsFree (α := α)).run (start heap result) with
    | mk ended t =>
      rw [hrun] at hforeign
      cases ended with
      | error e =>
        rw [bind_of_error hrun] at hsafe
        exact absurd (congrArg Except.error hforeign) hsafe.defined
      | ok u =>
        obtain ⟨hallocated, hfreed, hcount⟩ := hforeign
        rw [bind_of_ok hrun] at hsafe
        have hnone : result.items = none := by
          cases hitems : result.items with
          | none => rfl
          | some q =>
            have hown := hsafe.freed q (hfreed q hitems)
            have hnil : q ∈ t.allocated := hown
            rw [hallocated] at hnil
            cases hnil
        exact ⟨hnone, hcount hnone⟩
  · rintro ⟨hitems, hcount⟩
    have hloop : (start heap result).result.count.toNat = 0 := Int.toNat_eq_zero.mpr hcount
    have hrun : sparseEmbeddingsFree.run (start heap result) =
        (.ok (), start heap ⟨none, 0⟩) := by
      unfold sparseEmbeddingsFree
      rw [bind_of_ok (a := start heap result) (t := start heap result) rfl, hloop,
        bind_of_ok (a := ()) (t := start heap result) rfl,
        bind_of_ok (a := start heap result) (t := start heap result) rfl, hitems,
        bind_of_ok free_none]
      rfl
    rw [bind_of_ok hrun]
    have hempty : (start heap ⟨none, 0⟩).WellFormed := .inl ⟨rfl, le_rfl⟩
    exact ⟨nofun, nofun, nofun, fun _ _ => hempty, fun _ _ => hempty.free⟩

end Gguf

-- ---------------------------------------------------------------------------
-- Both paths
-- ---------------------------------------------------------------------------

section Call

variable {α : Type} [Field α] [LinearOrder α]

/-- What a call needs to leave a struct that can be freed. Without texts to embed the struct stays
as it was; ONNX needs memory for its items; and where the GGUF path throws before it has
items, it frees what it was given. -/
structure SafeWhen (ctx : SparseEmbedding α) (env : SparseEnv) (call : SparseCall α)
    (s : CallState α) : Prop where
  unused : call.texts = none ∨ call.numTexts ≤ 0 → s.WellFormed
  onnx : call.texts ≠ none → 0 < call.numTexts → ctx.gguf = none → env.calloc = true
  gguf : call.texts ≠ none → 0 < call.numTexts → ctx.gguf ≠ none →
    env.throws .texts = true ∨ env.throws .embed = true → s.Empty

variable {fns : MathFns α} {sorter : SortImpl} {graphs : Nat → GraphEnv}

/-- Without memory for the items, ONNX leaves a count of items that do not exist. -/
theorem not_safe_without_items {ctx : SparseEmbedding α} {env : SparseEnv}
    {options : SparseOptions α} {texts : Nat → Option Bytes} {numTexts batchSize : Int}
    (hn : 0 < numTexts) (hcalloc : env.calloc = false) (s : CallState α) :
    ¬ResultSafe ((ctx.embedOnnx env fns sorter options texts numTexts batchSize).run s) := by
  intro hsafe
  have hrun : (ctx.embedOnnx env fns sorter options texts numTexts batchSize).run s =
      (.ok .outOfMemory, { s with result := ⟨none, numTexts⟩ }) := by
    apply tryCatch_of_ok
    rw [setCount, bind_of_ok rfl, allocItems, hcalloc]
    rfl
  rw [hrun] at hsafe
  rcases hsafe.wellFormed _ rfl with ⟨-, hcount⟩ | ⟨p, items, vectors, hreadable⟩
  · exact absurd hcount (not_le.mpr hn)
  · cases hreadable.points.pointer

/-- A call leaves a struct that can be freed, whatever it held and whatever fails, just when
it gets this far. -/
theorem embed_safe_iff (ctx : SparseEmbedding α) (env : SparseEnv) (graphs : Nat → GraphEnv)
    (fns : MathFns α) (sorter : SortImpl) (call : SparseCall α)
    (heap : Heap (SparseBlock α)) (result : SparseEmbeddings) :
    ResultSafe ((ctx.embed env graphs fns sorter call).run (start heap result)) ↔
      ctx.SafeWhen env call (start heap result) := by
  have hunused : ResultSafe (.ok Status.invalidArgument, start heap result) ↔
      (start heap result).WellFormed := by
    constructor
    · exact fun hsafe => hsafe.wellFormed _ rfl
    · exact fun h => ⟨nofun, nofun, nofun, fun _ _ => h, fun _ _ => h.free⟩
  unfold embed
  cases htexts : call.texts with
  | none =>
    refine hunused.trans ⟨fun h => ⟨fun _ => h, ?_, ?_⟩, fun h => h.unused (.inl htexts)⟩
    · exact fun hne => absurd htexts hne
    · exact fun hne => absurd htexts hne
  | some texts =>
    have hsome : call.texts ≠ none := by
      rw [htexts]
      nofun
    by_cases hn : call.numTexts ≤ 0
    · dsimp only
      rw [if_pos hn]
      refine hunused.trans ⟨fun h => ⟨fun _ => h, ?_, ?_⟩, fun h => h.unused (.inr hn)⟩
      · exact fun _ hpos => absurd hn (not_le.mpr hpos)
      · exact fun _ hpos => absurd hn (not_le.mpr hpos)
    · have hpos : 0 < call.numTexts := not_le.mp hn
      have hused : ¬(call.texts = none ∨ call.numTexts ≤ 0) := fun h => h.elim hsome hn
      dsimp only
      rw [if_neg hn]
      cases hgguf : ctx.gguf with
      | none =>
        have honly : ctx.SafeWhen env call (start heap result) ↔ env.calloc = true := by
          constructor
          · exact fun h => h.onnx hsome hpos hgguf
          · exact fun h => ⟨fun hnot => absurd hnot hused, fun _ _ _ => h,
              fun _ _ hne => absurd hgguf hne⟩
        rw [honly]
        cases hcalloc : env.calloc with
        | false => exact iff_of_false (not_safe_without_items hpos hcalloc _) Bool.false_ne_true
        | true =>
          refine iff_of_true (resultSafe_of_meets ?_) rfl
          refine (meets_embedOnnx hpos hcalloc).weaken ?_ (fun _ _ => id) fun _ _ => id
          rintro s rfl
          exact ⟨rfl, rfl⟩
      | some session =>
        have hthere : ctx.gguf ≠ none := by
          rw [hgguf]
          nofun
        have honly : ctx.SafeWhen env call (start heap result) ↔
            (env.throws .texts = true ∨ env.throws .embed = true → (start heap result).Empty) := by
          constructor
          · exact fun h => h.gguf hsome hpos hthere
          · exact fun h => ⟨fun hnot => absurd hnot hused, fun _ _ hnone => absurd hnone hthere,
              fun _ _ _ => h⟩
        rw [honly]
        by_cases hthrows : env.throws .texts = true ∨ env.throws .embed = true
        · rw [forall_prop_of_true hthrows]
          exact safe_thrown_iff heap result hthrows
        · refine iff_of_true (resultSafe_of_meets ?_) fun h => absurd h hthrows
          obtain ⟨htexts, hembed⟩ := not_or.mp hthrows
          refine (meets_embedGguf hpos (Bool.eq_false_of_not_eq_true htexts)
            (Bool.eq_false_of_not_eq_true hembed)).weaken ?_ (fun _ _ => id) fun _ _ => id
          rintro s rfl
          exact ⟨rfl, rfl⟩

/-- A call with one text for an ONNX model, without memory for its item. -/
theorem count_of_missing_items : ¬ResultSafe
    ((embed (α := ℚ) ⟨.new, ⟨fun _ => 0, fun _ _ => .threw⟩, none, 32, ⟨0, 0, 0⟩⟩
      ⟨fun _ => false, false, fun _ => true, fun _ => true⟩ (fun _ => .ample) plainFns insertionImpl
      ⟨some fun _ => some (ascii "a"), 1, 32, none⟩).run (start .empty ⟨none, 0⟩)) := by
  unfold embed
  apply not_safe_without_items
  · decide
  · rfl

end Call

end SparseEmbedding

end LibEmbedding
