import LibEmbedding.Foundation.Heap
import LibEmbedding.Foundation.Programs
import LibEmbedding.SparsePostprocess

/-!
# Results of the sparse calls

The struct that a caller hands to a sparse call, the arrays it points to, and the two functions
that fill and free it: `sparse_result_store` of `sparse_postprocess.hpp` and
`lembed_sparse_embeddings_free` of `types.h`.
-/

namespace LibEmbedding

open Foundation

/-- `lembed_sparse_embedding_t` -/
structure SparseItem where
  indices : Option Nat
  values : Option Nat
  length : Int
  deriving DecidableEq

/-- `lembed_sparse_embeddings_t` -/
structure SparseEmbeddings where
  items : Option Nat
  count : Int
  deriving DecidableEq

/-- What lies under an address: an array of items, the indices or the values of a vector, or
memory for so many of them that nothing has been written to. -/
inductive SparseBlock (α : Type) where
  | items (items : List SparseItem)
  | raw (size : Nat)
  | indices (indices : List Int)
  | values (values : List α)
  deriving DecidableEq

/-- The memory and the struct of the caller, and the addresses that a call has allocated and
those it has called `free` with. -/
structure CallState (α : Type) where
  heap : Heap (SparseBlock α)
  result : SparseEmbeddings
  allocated : List Nat
  freed : List Nat

/-- The steps of a call that may throw. -/
inductive SparseStep where
  | texts
  | embed
  | batch (bi : Nat)
  | prune (idx : Nat)
  deriving DecidableEq

/-- Which steps throw, and which allocations succeed. -/
structure SparseEnv where
  throws : SparseStep → Bool
  calloc : Bool
  mallocIndices : Nat → Bool
  mallocValues : Nat → Bool

def SparseItem.pointers (item : SparseItem) : List Nat := item.indices.toList ++ item.values.toList

namespace CallState

variable {α : Type}

-- ---------------------------------------------------------------------------
-- Memory
-- ---------------------------------------------------------------------------

/-- `malloc` and `calloc` -/
def alloc (succeeds : Bool) (block : SparseBlock α) : Program (CallState α) (Option Nat) where
  run s :=
    if succeeds then
      (.ok (some s.heap.next), { s with
        heap := s.heap.alloc block, allocated := s.heap.next :: s.allocated })
    else (.ok none, s)

def free (p : Option Nat) : Program (CallState α) Unit where
  run s :=
    match p with
    | none => (.ok (), s)
    | some p =>
      if s.heap.Live p then (.ok (), { s with heap := s.heap.free p, freed := p :: s.freed })
      else (.error .misused, { s with freed := p :: s.freed })

/-- Where `result->items` points to, and what is there. -/
def itemArray (s : CallState α) : Option (Nat × List SparseItem) :=
  s.result.items.bind fun p =>
    match s.heap.cells p with
    | some (.items items) => some (p, items)
    | _ => none

/-- `result->items[index]` -/
def itemAt (index : Nat) : Program (CallState α) SparseItem where
  run s :=
    match s.itemArray.bind fun array => array.2[index]? with
    | some item => (.ok item, s)
    | none => (.error .misused, s)

def withItems (s : CallState α) (p : Nat) (items : List SparseItem) : CallState α :=
  { s with heap := s.heap.write p (.items items) }

/-- An assignment to members of `result->items[index]`. -/
def setItem (index : Nat) (f : SparseItem → SparseItem) : Program (CallState α) Unit where
  run s :=
    match s.itemArray with
    | none => (.error .misused, s)
    | some (p, items) =>
      match items[index]? with
      | none => (.error .misused, s)
      | some item => (.ok (), s.withItems p (items.set index (f item)))

/-- Fills an array of `size` elements. -/
def memcpy (p : Option Nat) (size : Nat) (block : SparseBlock α) :
    Program (CallState α) Unit where
  run s :=
    match p with
    | none => (.error .misused, s)
    | some p =>
      match s.heap.cells p with
      | some (.raw n) =>
        if n = size then (.ok (), { s with heap := s.heap.write p block }) else (.error .misused, s)
      | _ => (.error .misused, s)

-- ---------------------------------------------------------------------------
-- Storing and freeing
-- ---------------------------------------------------------------------------

def emptyItem : SparseItem := ⟨none, none, 0⟩

/-- The arrays of a vector of which one is missing are given back. -/
def discard (index : Nat) (indices values : Option Nat) : Program (CallState α) Unit := do
  free indices
  free values
  setItem index fun item => { item with indices := none, values := none }

/-- The part of a store behind the check for an empty vector. The number of terms is at most the
size of the vocabulary, an `int`. -/
def storeTerms (env : SparseEnv) (index : Nat) (sr : SparseResult α) :
    Program (CallState α) Unit := do
  let indices ← alloc (env.mallocIndices index) (.raw sr.length)
  setItem index fun item => { item with indices }
  let values ← alloc (env.mallocValues index) (.raw sr.length)
  setItem index fun item => { item with values }
  if indices.isNone || values.isNone then discard index indices values
  else
    setItem index fun item => { item with length := sr.length }
    memcpy indices sr.length (.indices (sr.map SparseTerm.index))
    memcpy values sr.length (.values (sr.map SparseTerm.value))

def sparseResultStore (env : SparseEnv) (index : Nat) (sr : SparseResult α) :
    Program (CallState α) Unit := do
  setItem index fun _ => emptyItem
  if sr.isEmpty then return
  storeTerms env index sr

/-- `lembed_sparse_embeddings_free` -/
def sparseEmbeddingsFree : Program (CallState α) Unit := do
  let s ← Program.read
  Program.forUpTo s.result.count.toNat (fun _ i => do
    let item ← itemAt i
    free item.indices
    let item ← itemAt i
    free item.values) ()
  let s ← Program.read
  free s.result.items
  Program.modify fun s => { s with result := ⟨none, 0⟩ }

-- ---------------------------------------------------------------------------
-- Single steps
-- ---------------------------------------------------------------------------

/-- After an allocation that succeeds. -/
def grow (s : CallState α) (block : SparseBlock α) : CallState α :=
  { s with heap := s.heap.alloc block, allocated := s.heap.next :: s.allocated }

/-- After `free` of an address that is allocated. -/
def release (s : CallState α) (p : Nat) : CallState α :=
  { s with heap := s.heap.free p, freed := p :: s.freed }

/-- After the array of an allocation is filled. -/
def fill (s : CallState α) (p : Nat) (block : SparseBlock α) : CallState α :=
  { s with heap := s.heap.write p block }

variable {s : CallState α} {p q index : Nat} {items : List SparseItem} {item : SparseItem}
  {block : SparseBlock α} {f : SparseItem → SparseItem}

/-- The struct points to an array of items. -/
structure Points (s : CallState α) (p : Nat) (items : List SparseItem) : Prop where
  pointer : s.result.items = some p
  array : s.heap.cells p = some (.items items)

theorem Points.itemArray (h : s.Points p items) : s.itemArray = some (p, items) := by
  rw [CallState.itemArray, h.pointer, Option.bind_some, h.array]

theorem Points.withItems (h : s.Points p items) (items' : List SparseItem) :
    (s.withItems p items').Points p items' :=
  ⟨h.pointer, Heap.cells_write h.array⟩

theorem Points.lt (h : s.Points p items) : p < s.heap.next := Heap.lt_of_cells h.array

theorem Points.grow (h : s.Points p items) (block : SparseBlock α) :
    (s.grow block).Points p items :=
  ⟨h.pointer, (Heap.cells_alloc_of_ne h.lt.ne).trans h.array⟩

theorem Points.release (h : s.Points p items) (hq : p ≠ q) : (s.release q).Points p items :=
  ⟨h.pointer, (Heap.cells_free_of_ne hq).trans h.array⟩

theorem Points.fill (h : s.Points p items) (hq : p ≠ q) (block : SparseBlock α) :
    (s.fill q block).Points p items :=
  ⟨h.pointer, (Heap.cells_write_of_ne hq).trans h.array⟩

theorem Points.setItem (h : s.Points p items) (hitem : items[index]? = some item)
    (f : SparseItem → SparseItem) :
    (CallState.setItem index f).run s = (.ok (), s.withItems p (items.set index (f item))) := by
  unfold CallState.setItem
  dsimp only
  rw [h.itemArray]
  dsimp only
  rw [hitem]

/-- An assignment to an item that has been assigned before. -/
theorem Points.assign (h : s.Points p (items.set index item)) (hi : index < items.length)
    (f : SparseItem → SparseItem) :
    (CallState.setItem index f).run s = (.ok (), s.withItems p (items.set index (f item))) := by
  rw [h.setItem (List.getElem?_set_self hi), List.set_set]

theorem itemAt_some (h : (s.itemArray.bind fun array => array.2[index]?) = some item) :
    (itemAt index).run s = (.ok item, s) := by
  unfold itemAt
  dsimp only
  rw [h]

theorem itemAt_none (h : (s.itemArray.bind fun array => array.2[index]?) = none) :
    (itemAt index).run s = (.error .misused, s) := by
  unfold itemAt
  dsimp only
  rw [h]

theorem Points.itemAt (h : s.Points p items) (hitem : items[index]? = some item) :
    (CallState.itemAt index).run s = (.ok item, s) := by
  apply itemAt_some
  rw [h.itemArray]
  exact hitem

theorem alloc_true : (alloc true block).run s = (.ok (some s.heap.next), s.grow block) := rfl

theorem alloc_false : (alloc false block).run s = (.ok none, s) := rfl

theorem free_none : (free none).run s = (.ok (), s) := rfl

theorem free_live (h : s.heap.Live p) : (free (some p)).run s = (.ok (), s.release p) := if_pos h

theorem free_dead (h : ¬s.heap.Live p) :
    (free (some p)).run s = (.error .misused, { s with freed := p :: s.freed }) := if_neg h

theorem memcpy_raw (h : s.heap.cells p = some (.raw n)) :
    (memcpy (some p) n block).run s = (.ok (), s.fill p block) := by
  unfold memcpy
  dsimp only
  rw [h]
  exact if_pos rfl

-- ---------------------------------------------------------------------------
-- Storing a vector
-- ---------------------------------------------------------------------------

/-- An item that holds a vector has arrays for its terms, and none for the empty vector. -/
inductive HoldsVector (heap : Heap (SparseBlock α)) : SparseItem → SparseResult α → Prop
  | empty : HoldsVector heap emptyItem []
  | arrays (hne : sr ≠ []) (hindices : heap.cells a = some (.indices (sr.map SparseTerm.index)))
      (hvalues : heap.cells b = some (.values (sr.map SparseTerm.value))) :
      HoldsVector heap ⟨some a, some b, sr.length⟩ sr

/-- Between two states only the array at `p` and addresses from `n` on have changed, and what has
been freed was allocated. -/
structure Frame (n p : Nat) (s t : CallState α) : Prop where
  result : t.result = s.result
  next : s.heap.next ≤ t.heap.next
  cells : ∀ q ≠ p, q < n → t.heap.cells q = s.heap.cells q
  allocated : ∀ q ∈ s.allocated, q ∈ t.allocated
  freed : ∀ q ∈ t.freed, q ∈ s.freed ∨ q ∈ t.allocated

theorem Frame.trans {n : Nat} {t u : CallState α} (h : Frame n p s t) (h' : Frame n p t u) :
    Frame n p s u where
  result := h'.result.trans h.result
  next := h.next.trans h'.next
  cells q hq hlt := (h'.cells q hq hlt).trans (h.cells q hq hlt)
  allocated q hq := h'.allocated q (h.allocated q hq)
  freed q hq := by
    rcases h'.freed q hq with hold | hnew
    · exact (h.freed q hold).imp_right (h'.allocated q)
    · exact .inr hnew

theorem frame_withItems (n : Nat) : Frame n p s (s.withItems p items) where
  result := rfl
  next := le_rfl
  cells _ hq _ := Heap.cells_write_of_ne hq
  allocated _ hq := hq
  freed _ hq := .inl hq

theorem frame_grow (hn : n ≤ s.heap.next) : Frame n p s (s.grow block) where
  result := rfl
  next := Nat.le_succ _
  cells _ _ hlt := Heap.cells_alloc_of_ne (hlt.trans_le hn).ne
  allocated _ hq := List.mem_cons_of_mem _ hq
  freed _ hq := .inl hq

theorem frame_release (hn : n ≤ q) (hq : q ∈ s.allocated) : Frame n p s (s.release q) where
  result := rfl
  next := le_rfl
  cells _ _ hlt := Heap.cells_free_of_ne (hlt.trans_le hn).ne
  allocated _ ha := ha
  freed r hr := by
    rcases List.mem_cons.mp hr with rfl | hold
    · exact .inr hq
    · exact .inl hold

theorem frame_fill (hn : n ≤ q) : Frame n p s (s.fill q block) where
  result := rfl
  next := le_rfl
  cells _ _ hlt := Heap.cells_write_of_ne (hlt.trans_le hn).ne
  allocated _ ha := ha
  freed _ hr := .inl hr

/-- What a store leaves: the item holds the vector, with arrays of its own. -/
structure Stored (s : CallState α) (p : Nat) (items : List SparseItem) (item : SparseItem)
    (sr : SparseResult α) (t : CallState α) : Prop where
  points : t.Points p items
  frame : Frame s.heap.next p s t
  holds : HoldsVector t.heap item sr
  fresh : ∀ q ∈ item.pointers, s.heap.next ≤ q ∧ q ∈ t.allocated
  apart : item.pointers.Nodup

/-- What becomes of a vector: without memory for it, it is the empty one. -/
def stored (env : SparseEnv) (index : Nat) (sr : SparseResult α) : SparseResult α :=
  if env.mallocIndices index && env.mallocValues index then sr else []

/-- In the middle of a store: the item, and two arrays that are new since `s`. -/
structure Slot (s : CallState α) (p : Nat) (items : List SparseItem) (index : Nat)
    (item : SparseItem) (a b : Option Nat) (blockA blockB : SparseBlock α) (t : CallState α) :
    Prop where
  points : t.Points p (items.set index item)
  lt : p < s.heap.next
  frame : Frame s.heap.next p s t
  arrayA : ∀ q ∈ a, s.heap.next ≤ q ∧ q ∈ t.allocated ∧ t.heap.cells q = some blockA
  arrayB : ∀ q ∈ b, s.heap.next ≤ q ∧ q ∈ t.allocated ∧ t.heap.cells q = some blockB
  apart : ∀ q ∈ a, q ∉ b

section Slots

variable {t : CallState α} {a b : Option Nat} {blockA blockA' blockB : SparseBlock α}
  {T : Halt → CallState α → Prop}

theorem Slot.symm (h : Slot s p items index item a b blockA blockB t) :
    Slot s p items index item b a blockB blockA t :=
  ⟨h.points, h.lt, h.frame, h.arrayB, h.arrayA, fun q hb ha => h.apart q ha hb⟩

theorem slot_setItem (hi : index < items.length) : (setItem index f).Meets
    (Slot s p items index item a b blockA blockB)
    (fun _ => Slot s p items index (f item) a b blockA blockB) T := by
  refine Program.Meets.of_run fun t h => ⟨(), _, h.points.assign hi f, ?_⟩
  have hne : ∀ {q}, s.heap.next ≤ q → q ≠ p := fun hq => (h.lt.trans_le hq).ne'
  constructor
  case points => exact h.points.withItems _
  case lt => exact h.lt
  case frame => exact h.frame.trans (frame_withItems _)
  case arrayA =>
    intro q hq
    obtain ⟨hnew, hown, hcell⟩ := h.arrayA q hq
    exact ⟨hnew, hown, (Heap.cells_write_of_ne (hne hnew)).trans hcell⟩
  case arrayB =>
    intro q hq
    obtain ⟨hnew, hown, hcell⟩ := h.arrayB q hq
    exact ⟨hnew, hown, (Heap.cells_write_of_ne (hne hnew)).trans hcell⟩
  case apart => exact h.apart

theorem slot_alloc (c : Bool) : (alloc c block).Meets
    (Slot s p items index item none b blockA blockB)
    (fun a t => a.isSome = c ∧ Slot s p items index item a b block blockB t) T := by
  refine Program.Meets.of_run fun t h => ?_
  cases c with
  | false => exact ⟨none, t, alloc_false, rfl, { h with arrayA := nofun, apart := nofun }⟩
  | true =>
    have hold : ∀ q, t.heap.cells q = some blockB → q ≠ t.heap.next :=
      fun q hq => (Heap.lt_of_cells hq).ne
    refine ⟨some t.heap.next, _, alloc_true, rfl, ?_⟩
    constructor
    case points => exact h.points.grow block
    case lt => exact h.lt
    case frame => exact h.frame.trans (frame_grow h.frame.next)
    case arrayA =>
      rintro q ⟨⟩
      exact ⟨h.frame.next, List.mem_cons_self, Heap.cells_alloc⟩
    case arrayB =>
      intro q hq
      obtain ⟨hnew, hown, hcell⟩ := h.arrayB q hq
      exact ⟨hnew, List.mem_cons_of_mem _ hown,
        (Heap.cells_alloc_of_ne (hold q hcell)).trans hcell⟩
    case apart =>
      rintro q ⟨⟩ hb
      exact hold _ (h.arrayB _ hb).2.2 rfl

theorem slot_free : (free a).Meets (Slot s p items index item a b blockA blockB)
    (fun _ => Slot s p items index item none b blockA blockB) T := by
  refine Program.Meets.of_run fun t h => ?_
  cases a with
  | none => exact ⟨(), t, free_none, h⟩
  | some q =>
    obtain ⟨hnew, hown, hcell⟩ := h.arrayA q rfl
    refine ⟨(), _, free_live (Heap.live_of_cells hcell), ?_⟩
    constructor
    case points => exact h.points.release (h.lt.trans_le hnew).ne
    case lt => exact h.lt
    case frame => exact h.frame.trans (frame_release hnew hown)
    case arrayA => exact nofun
    case arrayB =>
      intro r hr
      obtain ⟨hnew', hown', hcell'⟩ := h.arrayB r hr
      have hne : r ≠ q := by
        rintro rfl
        exact h.apart r rfl hr
      exact ⟨hnew', hown', (Heap.cells_free_of_ne hne).trans hcell'⟩
    case apart => exact nofun

theorem slot_memcpy {n : Nat} (ha : a.isSome = true) : (memcpy a n block).Meets
    (Slot s p items index item a b (.raw n) blockB)
    (fun _ => Slot s p items index item a b block blockB) T := by
  refine Program.Meets.of_run fun t h => ?_
  obtain ⟨q, rfl⟩ := Option.isSome_iff_exists.mp ha
  obtain ⟨hnew, hown, hcell⟩ := h.arrayA q rfl
  refine ⟨(), _, memcpy_raw hcell, ?_⟩
  constructor
  case points => exact h.points.fill (h.lt.trans_le hnew).ne block
  case lt => exact h.lt
  case frame => exact h.frame.trans (frame_fill hnew)
  case arrayA =>
    rintro r ⟨⟩
    exact ⟨hnew, hown, Heap.cells_write hcell⟩
  case arrayB =>
    intro r hr
    obtain ⟨hnew', hown', hcell'⟩ := h.arrayB r hr
    have hne : r ≠ q := by
      rintro rfl
      exact h.apart r rfl hr
    exact ⟨hnew', hown', (Heap.cells_write_of_ne hne).trans hcell'⟩
  case apart => exact h.apart

/-- A rule for the one array is a rule for the other. -/
theorem meets_symm {β : Type} {m : Program (CallState α) β} {a' : β → Option Nat} {φ : β → Prop}
    (h : m.Meets (Slot s p items index item b a blockB blockA)
      (fun r t => φ r ∧ Slot s p items index item (a' r) a blockA' blockA t) T) :
    m.Meets (Slot s p items index item a b blockA blockB)
      (fun r t => φ r ∧ Slot s p items index item a (a' r) blockA blockA' t) T :=
  h.weaken (fun _ ht => ht.symm) (fun _ _ hr => ⟨hr.1, hr.2.symm⟩) fun _ _ => id

/-- An item with arrays for a vector, behind its store. -/
theorem Slot.stored_both {sr : SparseResult α} (hne : sr ≠ [])
    (ha : a.isSome = true) (hb : b.isSome = true)
    (h : Slot s p items index ⟨a, b, sr.length⟩ a b (.indices (sr.map SparseTerm.index))
      (.values (sr.map SparseTerm.value)) t) :
    Stored s p (items.set index ⟨a, b, sr.length⟩) ⟨a, b, sr.length⟩ sr t := by
  obtain ⟨q, rfl⟩ := Option.isSome_iff_exists.mp ha
  obtain ⟨r, rfl⟩ := Option.isSome_iff_exists.mp hb
  obtain ⟨hq, hownq, hcellq⟩ := h.arrayA q rfl
  obtain ⟨hr, hownr, hcellr⟩ := h.arrayB r rfl
  refine ⟨h.points, h.frame, .arrays hne hcellq hcellr, ?_, ?_⟩
  · intro e he
    rcases List.mem_cons.mp he with rfl | he
    · exact ⟨hq, hownq⟩
    · rw [List.mem_singleton.mp he]
      exact ⟨hr, hownr⟩
  · refine List.nodup_cons.mpr ⟨?_, List.nodup_singleton r⟩
    intro hmem
    exact h.apart q rfl (congrArg some (List.mem_singleton.mp hmem).symm)

/-- An item without arrays. -/
theorem Slot.stored_empty (h : Slot s p items index emptyItem a b blockA blockB t) :
    Stored s p (items.set index emptyItem) emptyItem [] t where
  points := h.points
  frame := h.frame
  holds := .empty
  fresh _ hq := by cases hq
  apart := List.nodup_nil

theorem meets_discard (hi : index < items.length) : (discard index a b).Meets
    (Slot s p items index ⟨a, b, 0⟩ a b blockA blockB)
    (fun _ => Stored s p (items.set index emptyItem) emptyItem []) T := by
  refine slot_free.bind fun _ => ?_
  refine (slot_free.weaken (fun _ h => h.symm) (fun _ _ h => h) fun _ _ => id).bind fun _ => ?_
  exact (slot_setItem hi).weaken (fun _ h => h) (fun _ _ h => h.stored_empty) fun _ _ => id

theorem meets_storeTerms {env : SparseEnv} {sr : SparseResult α} (hi : index < items.length)
    (hne : sr ≠ []) : (storeTerms env index sr).Meets
      (Slot s p items index emptyItem none none blockA blockB)
      (fun _ t => ∃ item, Stored s p (items.set index item) item (stored env index sr) t) T := by
  refine (slot_alloc _).bind fun a => .of_fact fun ha => ?_
  refine (slot_setItem hi).bind fun _ => ?_
  refine (meets_symm (slot_alloc _)).bind fun b => .of_fact fun hb => ?_
  refine (slot_setItem hi).bind fun _ => ?_
  split
  · rename_i hmissing
    have hstored : stored env index sr = [] := by
      rw [stored, ← ha, ← hb]
      cases a with
      | none => rfl
      | some q =>
        cases b with
        | none => rfl
        | some r => cases hmissing
    refine (meets_discard hi).weaken (fun _ h => h) (fun _ _ h => ⟨emptyItem, ?_⟩) fun _ _ => id
    rw [hstored]
    exact h
  · rename_i hthere
    have hboth : a.isSome = true ∧ b.isSome = true := by
      cases a with
      | none => exact absurd rfl hthere
      | some q =>
        cases b with
        | none => exact absurd rfl hthere
        | some r => exact ⟨rfl, rfl⟩
    have hstored : stored env index sr = sr := by
      rw [stored, ← ha, ← hb, hboth.1, hboth.2]
      rfl
    refine (slot_setItem hi).bind fun _ => ?_
    refine (slot_memcpy hboth.1).bind fun _ => ?_
    refine (slot_memcpy hboth.2).weaken (fun _ h => h.symm) (fun _ t h => ?_) fun _ _ => id
    rw [hstored]
    exact ⟨_, h.symm.stored_both hne hboth.1 hboth.2⟩

theorem meets_store {env : SparseEnv} {sr : SparseResult α} (h : s.Points p items)
    (hi : index < items.length) : (sparseResultStore env index sr).Meets (· = s)
      (fun _ t => ∃ item, Stored s p (items.set index item) item (stored env index sr) t) T := by
  have hslot : Slot s p items index emptyItem none none (.raw 0) (.raw 0)
      (s.withItems p (items.set index emptyItem)) :=
    ⟨h.withItems _, h.lt, frame_withItems _, nofun, nofun, nofun⟩
  have hreset : (setItem index fun _ => emptyItem).Meets (· = s)
      (fun _ => Slot s p items index emptyItem none none (.raw 0) (.raw 0)) T := by
    refine Program.Meets.of_run ?_
    rintro t rfl
    exact ⟨(), _, h.setItem (List.getElem?_eq_getElem hi) _, hslot⟩
  refine hreset.bind fun _ => ?_
  split
  · rename_i hempty
    have hstored : stored env index sr = [] := by
      rw [List.isEmpty_iff.mp hempty, stored, ite_self]
    rw [hstored]
    exact fun t ht => ⟨emptyItem, ht.stored_empty⟩
  · rename_i hterms
    exact meets_storeTerms hi fun hnil => hterms (List.isEmpty_iff.mpr hnil)

end Slots

-- ---------------------------------------------------------------------------
-- The array of a call
-- ---------------------------------------------------------------------------

def pointers (items : List SparseItem) : List Nat := items.flatMap SparseItem.pointers

theorem pointers_cons : pointers (item :: items) = item.pointers ++ pointers items := rfl

theorem mem_pointers_set (h : q ∈ pointers (items.set index item)) :
    q ∈ pointers items ∨ q ∈ item.pointers := by
  obtain ⟨other, hmem, hq⟩ := List.mem_flatMap.mp h
  rcases List.mem_or_eq_of_mem_set hmem with hold | rfl
  · exact .inl (List.mem_flatMap.mpr ⟨other, hold, hq⟩)
  · exact .inr hq

/-- New arrays in one place leave all arrays apart. -/
theorem nodup_pointers_set (h : (pointers items).Nodup) (hitem : item.pointers.Nodup)
    (hnew : ∀ q ∈ item.pointers, q ∉ pointers items) :
    (pointers (items.set index item)).Nodup := by
  induction items generalizing index with
  | nil => exact List.nodup_nil
  | cons other items ih =>
    rw [pointers_cons, List.nodup_append'] at h
    obtain ⟨hother, hitems, hapart⟩ := h
    have hfresh : ∀ q ∈ item.pointers, q ∉ other.pointers ∧ q ∉ pointers items := by
      intro q hq
      have := hnew q hq
      rw [pointers_cons, List.mem_append, not_or] at this
      exact this
    cases index with
    | zero =>
      rw [List.set_cons_zero, pointers_cons, List.nodup_append']
      exact ⟨hitem, hitems, fun q hq hold => (hfresh q hq).2 hold⟩
    | succ index =>
      rw [List.set_cons_succ, pointers_cons, List.nodup_append']
      refine ⟨hother, ih hitems fun q hq => (hfresh q hq).2, ?_⟩
      intro q hq hset
      rcases mem_pointers_set hset with hold | hin
      · exact hapart hq hold
      · exact (hfresh q hin).1 hq

theorem forall₂_set {R : β → γ → Prop} {l : List β} {l' : List γ} (h : List.Forall₂ R l l')
    (hab : R a b) : List.Forall₂ R (l.set index a) (l'.set index b) := by
  induction h generalizing index with
  | nil => exact .nil
  | cons hx hrest ih =>
    cases index with
    | zero => exact .cons hab hrest
    | succ index => exact .cons hx ih

/-- A vector stays while its arrays do. -/
theorem HoldsVector.of_cells {heap heap' : Heap (SparseBlock α)} {sr : SparseResult α}
    (h : HoldsVector heap item sr) (hcells : ∀ q ∈ item.pointers, heap'.cells q = heap.cells q) :
    HoldsVector heap' item sr := by
  cases h with
  | empty => exact .empty
  | arrays hne hindices hvalues =>
    refine .arrays hne ?_ ?_
    · exact (hcells _ List.mem_cons_self).trans hindices
    · exact (hcells _ (List.mem_cons_of_mem _ List.mem_cons_self)).trans hvalues

/-- The arrays of an item that holds a vector are allocated. -/
theorem HoldsVector.live {heap : Heap (SparseBlock α)} {sr : SparseResult α}
    (h : HoldsVector heap item sr) (hq : q ∈ item.pointers) : heap.Live q := by
  cases h with
  | empty => cases hq
  | arrays hne hindices hvalues =>
    rcases List.mem_cons.mp hq with rfl | hq
    · exact Heap.live_of_cells hindices
    · rw [List.mem_singleton.mp hq]
      exact Heap.live_of_cells hvalues

/-- The array at `p` holds the vectors, and it and their arrays are apart. -/
structure Holds (p : Nat) (items : List SparseItem) (vectors : List (SparseResult α))
    (s : CallState α) : Prop where
  points : s.Points p items
  held : List.Forall₂ (HoldsVector s.heap) items vectors
  apart : (p :: pointers items).Nodup

/-- What a call holds is its own, and it has freed nothing else. -/
structure Owns (p : Nat) (items : List SparseItem) (s : CallState α) : Prop where
  own : ∀ q ∈ p :: pointers items, q ∈ s.allocated
  freed : ∀ q ∈ s.freed, q ∈ s.allocated

/-- A call in the middle of its work. -/
def Filling (p : Nat) (vectors : List (SparseResult α)) (count : Int) (s : CallState α) : Prop :=
  ∃ items, Holds p items vectors s ∧ Owns p items s ∧ s.result.count = count

variable {vectors : List (SparseResult α)} {count : Int} {T : Halt → CallState α → Prop}

theorem Holds.live (h : Holds p items vectors s) (hq : q ∈ p :: pointers items) :
    s.heap.Live q := by
  rcases List.mem_cons.mp hq with rfl | hq
  · exact Heap.live_of_cells h.points.array
  · obtain ⟨item, hitem, hq⟩ := List.mem_flatMap.mp hq
    obtain ⟨sr, hsr⟩ : ∃ sr, HoldsVector s.heap item sr := by
      obtain ⟨i, hi, rfl⟩ := List.getElem_of_mem hitem
      exact ⟨_, List.Forall₂.get h.held hi (h.held.length_eq ▸ hi)⟩
    exact hsr.live hq

theorem Filling.store {env : SparseEnv} {sr : SparseResult α} (hi : index < vectors.length) :
    (sparseResultStore env index sr).Meets (Filling p vectors count)
      (fun _ => Filling p (vectors.set index (stored env index sr)) count) T := by
  rintro s ⟨items, hholds, howns, hcount⟩
  have hi : index < items.length := hholds.held.length_eq ▸ hi
  refine (meets_store hholds.points hi).weaken (fun _ h => h) ?_ (fun _ _ => id) s rfl
  rintro - t ⟨item, h⟩
  have hbelow : ∀ q ∈ pointers items, q ≠ p ∧ q < s.heap.next := by
    intro q hq
    refine ⟨?_, (hholds.live (List.mem_cons_of_mem _ hq)).lt⟩
    rintro rfl
    exact (List.nodup_cons.mp hholds.apart).1 hq
  have hnew : ∀ q ∈ item.pointers, q ∉ p :: pointers items := by
    intro q hq hold
    exact absurd (hholds.live hold).lt (Nat.not_lt.mpr (h.fresh q hq).1)
  have hnodup := List.nodup_cons.mp hholds.apart
  refine ⟨items.set index item, ⟨h.points, ?_, ?_⟩, ⟨?_, ?_⟩, ?_⟩
  · refine forall₂_set (List.Forall₂.imp ?_ ((List.forall₂_and_left items vectors).mpr
      ⟨fun _ => id, hholds.held⟩)) h.holds
    rintro other vector ⟨hmem, hvector⟩
    refine hvector.of_cells fun q hq => ?_
    have hq := hbelow q (List.mem_flatMap.mpr ⟨other, hmem, hq⟩)
    exact h.frame.cells q hq.1 hq.2
  · refine List.nodup_cons.mpr ⟨fun hmem => ?_, ?_⟩
    · rcases mem_pointers_set hmem with hold | hin
      · exact hnodup.1 hold
      · exact hnew p hin List.mem_cons_self
    · exact nodup_pointers_set hnodup.2 h.apart fun q hq hold =>
        hnew q hq (List.mem_cons_of_mem _ hold)
  · intro q hq
    rcases List.mem_cons.mp hq with rfl | hq
    · exact h.frame.allocated _ (howns.own _ List.mem_cons_self)
    · rcases mem_pointers_set hq with hold | hin
      · exact h.frame.allocated _ (howns.own _ (List.mem_cons_of_mem _ hold))
      · exact (h.fresh q hin).2
  · intro q hq
    rcases h.frame.freed q hq with hold | hown
    · exact h.frame.allocated _ (howns.freed _ hold)
    · exact hown
  · rw [h.frame.result]
    exact hcount

-- ---------------------------------------------------------------------------
-- What a caller can free
-- ---------------------------------------------------------------------------

/-- The struct is that of so many vectors, each with arrays of its own. -/
structure Readable (p : Nat) (items : List SparseItem) (vectors : List (SparseResult α))
    (s : CallState α) : Prop where
  points : s.Points p items
  count : s.result.count = vectors.length
  le : vectors.length ≤ items.length
  held : List.Forall₂ (HoldsVector s.heap) (items.take vectors.length) vectors
  apart : (p :: pointers (items.take vectors.length)).Nodup

/-- A struct that holds nothing. -/
def Empty (s : CallState α) : Prop := s.result.items = none ∧ s.result.count ≤ 0

instance (s : CallState α) : Decidable s.Empty := inferInstanceAs (Decidable (_ ∧ _))

/-- A struct is empty, or it has `count` items with arrays of their own. -/
def WellFormed (s : CallState α) : Prop := s.Empty ∨ ∃ p items vectors, Readable p items vectors s

/-- The first items of an array that is being filled are readable. -/
theorem Holds.readable (h : Holds p items vectors s) (hcount : s.result.count = (n : Nat))
    (hle : n ≤ vectors.length) : Readable p items (vectors.take n) s := by
  have hlength : (vectors.take n).length = n := List.length_take_of_le hle
  have hitems := h.held.length_eq
  refine ⟨h.points, by rw [hcount, hlength], by omega, ?_, ?_⟩
  · rw [hlength]
    exact List.forall₂_take n h.held
  · rw [hlength]
    refine h.apart.sublist (.cons_cons p ?_)
    exact (List.take_sublist n items).flatMap SparseItem.pointers

/-- In the middle of freeing: `rest` is still allocated. -/
structure Freeing (s : CallState α) (p : Nat) (items : List SparseItem) (all rest : List Nat)
    (t : CallState α) : Prop where
  points : t.Points p items
  result : t.result = s.result
  allocated : t.allocated = s.allocated
  live : ∀ q ∈ rest, t.heap.Live q
  apart : (p :: rest).Nodup
  sub : ∀ q ∈ rest, q ∈ all
  freed : ∀ q ∈ t.freed, q ∈ s.freed ∨ q ∈ all

theorem Freeing.free {all rest : List Nat} {a : Option Nat} :
    (CallState.free a).Meets (Freeing s p items all (a.toList ++ rest))
      (fun _ => Freeing s p items all rest) T := by
  refine Program.Meets.of_run fun t h => ?_
  cases a with
  | none => exact ⟨(), t, free_none, h⟩
  | some q =>
    have hq : q ∈ q :: rest := List.mem_cons_self
    obtain ⟨hp, hrest⟩ := List.nodup_cons.mp h.apart
    have hpq : p ≠ q := fun heq => hp (heq ▸ hq)
    refine ⟨(), _, free_live (h.live q hq), ?_⟩
    constructor
    case points => exact h.points.release hpq
    case result => exact h.result
    case allocated => exact h.allocated
    case live =>
      intro r hr
      have hne : r ≠ q := fun heq => (List.nodup_cons.mp hrest).1 (heq ▸ hr)
      exact Heap.live_free_iff.mpr ⟨hne, h.live r (List.mem_cons_of_mem _ hr)⟩
    case apart =>
      exact List.nodup_cons.mpr ⟨fun hmem => hp (List.mem_cons_of_mem _ hmem),
        (List.nodup_cons.mp hrest).2⟩
    case sub => exact fun r hr => h.sub r (List.mem_cons_of_mem _ hr)
    case freed =>
      intro r hr
      rcases List.mem_cons.mp hr with rfl | hold
      · exact .inr (h.sub _ hq)
      · exact h.freed r hold

theorem Freeing.itemAt {all rest : List Nat} (hitem : items[index]? = some item) :
    (CallState.itemAt index).Meets (Freeing s p items all rest)
      (fun got t => got = item ∧ Freeing s p items all rest t) T :=
  .of_run fun t h => ⟨item, t, h.points.itemAt hitem, rfl, h⟩

/-- A readable struct can be freed: every array once, and nothing else. -/
theorem Readable.free (h : Readable p items vectors s) :
    sparseEmbeddingsFree.Meets (· = s) (fun _ t => t.result = ⟨none, 0⟩ ∧
      t.allocated = s.allocated ∧ ∀ q ∈ t.freed,
        q ∈ s.freed ∨ q ∈ p :: pointers (items.take vectors.length)) T := by
  let taken := items.take vectors.length
  have hlength : taken.length = vectors.length := List.length_take_of_le h.le
  have hlive : ∀ q ∈ pointers taken, s.heap.Live q := by
    intro q hq
    obtain ⟨item, hitem, hq⟩ := List.mem_flatMap.mp hq
    obtain ⟨i, hi, rfl⟩ := List.getElem_of_mem hitem
    exact (List.Forall₂.get h.held hi (h.held.length_eq ▸ hi)).live hq
  have hstart : Freeing s p items (pointers taken) (pointers (taken.drop 0)) s :=
    ⟨h.points, rfl, rfl, hlive, h.apart, fun _ => id, fun _ => .inl⟩
  have hloop : (Program.forUpTo s.result.count.toNat (fun (_ : Unit) i => do
      let item ← CallState.itemAt i
      CallState.free item.indices
      let item ← CallState.itemAt i
      CallState.free item.values) ()).Meets
      (Freeing s p items (pointers taken) (pointers (taken.drop 0)))
      (fun _ => Freeing s p items (pointers taken)
        (pointers (taken.drop s.result.count.toNat))) T := by
    refine Program.Meets.forUpTo
      (fun i _ => Freeing s p items (pointers taken) (pointers (taken.drop i))) fun i hi _ => ?_
    rw [h.count, Int.toNat_natCast, ← hlength] at hi
    have hitem : items[i]? = some taken[i] := by
      have hget := List.getElem?_eq_getElem hi
      rwa [List.getElem?_take_of_lt (hlength ▸ hi)] at hget
    rw [List.drop_eq_getElem_cons hi, pointers_cons, SparseItem.pointers, List.append_assoc]
    refine (Freeing.itemAt hitem).bind fun got => .of_fact ?_
    rintro rfl
    refine Freeing.free.bind fun _ => ?_
    refine (Freeing.itemAt hitem).bind fun got => .of_fact ?_
    rintro rfl
    exact Freeing.free
  unfold sparseEmbeddingsFree
  refine Program.Meets.read_bind ?_
  rintro s' rfl
  refine (hloop.weaken (K := (· = s')) (fun t ht => ht ▸ hstart) (fun _ _ => id)
    fun _ _ => id).bind fun _ => ?_
  refine Program.Meets.read_bind fun t ht => ?_
  have hfree : (CallState.free t.result.items).run t = (.ok (), t.release p) := by
    rw [ht.points.pointer]
    exact free_live (Heap.live_of_cells ht.points.array)
  refine Program.Meets.of_run ?_
  rintro t' rfl
  refine ⟨(), _, Program.bind_of_ok hfree, rfl, ht.allocated, ?_⟩
  intro q hq
  rcases List.mem_cons.mp hq with rfl | hold
  · exact .inr List.mem_cons_self
  · exact (ht.freed q hold).imp_right (List.mem_cons_of_mem _)

end CallState

end LibEmbedding
