import LibEmbedding.Foundation.Heap
import LibEmbedding.LruCacheRefines

/-!
# The memory of the embedding cache

`LRUCache` of `embedding_cache_impl.hpp` on a heap: the map holds pointers to entries, an entry a
pointer to the buffer with its values, and `get` lends that pointer out. A `free`, a `delete` or a
read of what is not allocated stops with `dangling`.

Whatever calls come in whatever order, nothing is freed twice, read after it was freed or left
behind, and the answers are those of the cache without pointers. A pointer that was lent out stays
good exactly until the entry is overwritten or goes.
-/

namespace LibEmbedding

open Foundation

/-- `Entry` as it lies on the heap. -/
structure HeapEntry (κ : Type) where
  it : Nat
  key : κ
  vec : Nat
  dim : Int
  expiresAt : Int

inductive Block (κ α : Type) where
  | floats (values : List α)
  | entry (e : HeapEntry κ)

structure LruMemory (κ α : Type) where
  capacity : Nat
  ttlSeconds : Int
  list : List (Node κ)
  map : UMap κ Nat
  nextNode : Nat
  heap : Heap (Block κ α)

namespace LruMemory

-- ---------------------------------------------------------------------------
-- Pointers
-- ---------------------------------------------------------------------------

section Pointers

variable {κ α : Type} (heap : Heap (Block κ α)) (p : Nat)

def readEntry : Checked (HeapEntry κ) :=
  match heap.cells p with
  | some (.entry e) => .ok e
  | _ => .error .dangling

def writeEntry (e : HeapEntry κ) : Checked (Heap (Block κ α)) :=
  match heap.cells p with
  | some (.entry _) => .ok (heap.write p (.entry e))
  | _ => .error .dangling

def deleteEntry : Checked (Heap (Block κ α)) :=
  match heap.cells p with
  | some (.entry _) => .ok (heap.free p)
  | _ => .error .dangling

def readFloats : Checked (List α) :=
  match heap.cells p with
  | some (.floats values) => .ok values
  | _ => .error .dangling

def freeFloats : Checked (Heap (Block κ α)) :=
  match heap.cells p with
  | some (.floats _) => .ok (heap.free p)
  | _ => .error .dangling

/-- `memcpy` of `n` values from a buffer. -/
def copyFloats (n : Int) : Checked (List α) := do
  let values ← readFloats heap p
  ensure (n ≤ values.length) .outOfBounds
  return values.take n.toNat

end Pointers

-- ---------------------------------------------------------------------------
-- Where an entry lies
-- ---------------------------------------------------------------------------

section Placed

variable {κ α : Type}

/-- The entry of a key under `p` and its values under `v`, which nothing else shares. -/
structure Placed (heap : Heap (Block κ α)) (owner : Nat → Option (Option κ)) (key : κ)
    (e : Entry κ α) (p v : Nat) : Prop where
  entry : heap.cells p = some (.entry ⟨e.it, e.key, v, e.dim, e.expiresAt⟩)
  floats : heap.cells v = some (.floats e.vec)
  owned : ∀ a, owner a = some (some key) ↔ a = p ∨ a = v

variable {heap heap' : Heap (Block κ α)} {owner owner' : Nat → Option (Option κ)} {key : κ}
  {e : Entry κ α} {p v : Nat}

theorem Placed.ne (h : Placed heap owner key e p v) : v ≠ p := by
  rintro rfl
  have hsame := h.entry.symm.trans h.floats
  cases hsame

theorem Placed.owner_entry (h : Placed heap owner key e p v) : owner p = some (some key) :=
  (h.owned p).mpr (.inl rfl)

theorem Placed.owner_floats (h : Placed heap owner key e p v) : owner v = some (some key) :=
  (h.owned v).mpr (.inr rfl)

/-- What happens to the blocks of others does not matter. -/
theorem Placed.frame (h : Placed heap owner key e p v)
    (hcells : ∀ a, owner a = some (some key) → heap'.cells a = heap.cells a)
    (howner : ∀ a, owner' a = some (some key) ↔ owner a = some (some key)) :
    Placed heap' owner' key e p v where
  entry := (hcells p h.owner_entry).trans h.entry
  floats := (hcells v h.owner_floats).trans h.floats
  owned a := (howner a).trans (h.owned a)

end Placed

variable {κ α : Type} [DecidableEq κ]

def new (capacity : Nat) (ttlSeconds : Int) : LruMemory κ α :=
  ⟨capacity, ttlSeconds, [], ∅, 0, .empty⟩

-- ---------------------------------------------------------------------------
-- Operations
-- ---------------------------------------------------------------------------

def remove (m : LruMemory κ α) (key : κ) (p : Nat) : Checked (LruMemory κ α) := do
  let e ← readEntry m.heap p
  let heap ← freeFloats m.heap e.vec
  let list ← eraseNode m.list e.it
  let heap ← deleteEntry heap p
  return { m with list, heap, map := m.map.erase key }

def removeByIterator (m : LruMemory κ α) (key : κ) : Checked (LruMemory κ α) :=
  match m.map.lookup key with
  | some p => m.remove key p
  | none => .ok m

/-- `list_.splice(list_.begin(), list_, e->it); e->it = list_.begin()`. -/
def promote (m : LruMemory κ α) (p : Nat) : Checked (LruMemory κ α) := do
  let e ← readEntry m.heap p
  let list ← spliceFront m.list e.it
  let it ← listBegin list
  let heap ← writeEntry m.heap p { e with it }
  return { m with list, heap }

def touch (now : Int) (key : κ) (m : LruMemory κ α) : Checked (Option Nat × LruMemory κ α) :=
  match m.map.lookup key with
  | none => .ok (none, m)
  | some p => do
    let e ← readEntry m.heap p
    if 0 < m.ttlSeconds ∧ now > e.expiresAt then
      let m ← m.remove key p
      return (none, m)
    else
      let m ← m.promote p
      return (some p, m)

/-- The pointer that is lent out and the dimension, or a miss. -/
def get (now : Int) (key : κ) (m : LruMemory κ α) :
    Checked (Option (Nat × Int) × LruMemory κ α) := do
  let (hit, m) ← m.touch now key
  match hit with
  | none => return (none, m)
  | some p =>
    let e ← readEntry m.heap p
    return (some (e.vec, e.dim), m)

def getCopy (now : Int) (key : κ) (out : Bool) (room : Int) (m : LruMemory κ α) :
    Checked (LRUCache.CopyResult α × LruMemory κ α) := do
  let (hit, m) ← m.touch now key
  match hit with
  | none => return (⟨0, none, none⟩, m)
  | some p =>
    let e ← readEntry m.heap p
    if !out ∨ room < e.dim then return (⟨-1, some e.dim, none⟩, m)
    else
      let values ← copyFloats m.heap e.vec e.dim
      return (⟨1, some e.dim, some values⟩, m)

/-- The overload that assigns a `std::vector`, through the pointer that `get` lends. -/
def getCopyVec (now : Int) (key : κ) (m : LruMemory κ α) :
    Checked (Option (List α) × LruMemory κ α) := do
  let (hit, m) ← m.get now key
  match hit with
  | none => return (none, m)
  | some (vec, dim) =>
    if dim ≤ 0 then return (none, m)
    else
      let values ← copyFloats m.heap vec dim
      return (some values, m)

def evictLast (m : LruMemory κ α) : Checked (LruMemory κ α) := do
  let last ← listBack m.list
  m.removeByIterator last

/-- `allocates` says whether `malloc` gives the memory for the copy. -/
def put (now : Int) (key : κ) (vec : List α) (allocates : Bool) (m : LruMemory κ α) :
    Checked (LruMemory κ α) := do
  if m.capacity = 0 then return m
  if !allocates then return m
  let copy := m.heap.next
  let m := { m with heap := m.heap.alloc (.floats vec) }
  let expiresAt := if 0 < m.ttlSeconds then now + m.ttlSeconds else 0
  match m.map.lookup key with
  | some p =>
    let e ← readEntry m.heap p
    let heap ← freeFloats m.heap e.vec
    let heap ← writeEntry heap p { e with vec := copy, dim := vec.length, expiresAt }
    { m with heap }.promote p
  | none =>
    let m ← if m.capacity ≤ m.map.keys.length then m.evictLast else pure m
    let list := ⟨m.nextNode, key⟩ :: m.list
    let it ← listBegin list
    let p := m.heap.next
    let heap := m.heap.alloc (.entry ⟨it, key, copy, vec.length, expiresAt⟩)
    return { m with list, heap, map := m.map.insert key p, nextNode := m.nextNode + 1 }

/-- The loop of `clear`. -/
def freeAll (heap : Heap (Block κ α)) : List (Σ _ : κ, Nat) → Checked (Heap (Block κ α))
  | [] => .ok heap
  | kv :: rest => do
    let e ← readEntry heap kv.2
    let heap ← freeFloats heap e.vec
    let heap ← deleteEntry heap kv.2
    freeAll heap rest

def clear (m : LruMemory κ α) : Checked (LruMemory κ α) := do
  let heap ← freeAll m.heap m.map.entries
  return { m with heap, map := ∅, list := [] }

def size (m : LruMemory κ α) : Nat := m.map.keys.length

-- ---------------------------------------------------------------------------
-- Ownership
-- ---------------------------------------------------------------------------

/-- Everything that is allocated has one owner: the entry of a key, or the call that is running. -/
structure Owns (heap : Heap (Block κ α)) (map : UMap κ Nat) (entries : UMap κ (Entry κ α))
    (owner : Nat → Option (Option κ)) : Prop where
  live : ∀ a, heap.Live a ↔ owner a ≠ none
  absent : ∀ k, entries.lookup k = none → map.lookup k = none ∧ ∀ a, owner a ≠ some (some k)
  held : ∀ k e, entries.lookup k = some e →
    ∃ p v, map.lookup k = some p ∧ Placed heap owner k e p v

section Ownership

variable {heap : Heap (Block κ α)} {map : UMap κ Nat} {entries : UMap κ (Entry κ α)}
  {owner : Nat → Option (Option κ)} {key : κ} {e : Entry κ α} {p v : Nat}

theorem Owns.alloc_next (h : Owns heap map entries owner) : owner heap.next = none := by
  by_contra hne
  exact Heap.not_live_fresh le_rfl ((h.live heap.next).mpr hne)

theorem Owns.placed_alloc (h : Owns heap map entries owner) (b : Block κ α)
    (hp : Placed heap owner key e p v) :
    Placed (heap.alloc b) (Function.update owner heap.next (some none)) key e p v := by
  refine hp.frame (fun a ha => ?_) fun a => ?_
  · apply Heap.cells_alloc_of_ne
    rintro rfl
    rw [h.alloc_next] at ha
    cases ha
  · by_cases ha : a = heap.next
    · simp [ha, h.alloc_next]
    · simp [ha]

/-- A buffer of the running call. -/
theorem Owns.alloc (h : Owns heap map entries owner) (b : Block κ α) :
    Owns (heap.alloc b) map entries (Function.update owner heap.next (some none)) where
  live a := by
    rw [Heap.live_alloc_iff, h.live]
    by_cases ha : a = heap.next
    · simp [ha]
    · simp [ha]
  absent k hk := by
    obtain ⟨hmap, howner⟩ := h.absent k hk
    refine ⟨hmap, fun a => ?_⟩
    by_cases ha : a = heap.next
    · simp [ha]
    · simpa [ha] using howner a
  held k e hk := by
    obtain ⟨p, v, hmap, hplaced⟩ := h.held k e hk
    exact ⟨p, v, hmap, h.placed_alloc b hplaced⟩

/-- The entry of a key goes, with its values. -/
theorem Owns.erase (h : Owns heap map entries owner) (hk : Placed heap owner key e p v) :
    Owns ((heap.free v).free p) (map.erase key) (entries.erase key)
      (fun a => if owner a = some (some key) then none else owner a) where
  live a := by
    rw [Heap.live_free_iff, Heap.live_free_iff, h.live]
    by_cases ha : owner a = some (some key)
    · rw [if_pos ha]
      obtain rfl | rfl := (hk.owned a).mp ha
      · simp
      · simp
    · rw [if_neg ha]
      have hother : a ≠ p ∧ a ≠ v := by
        rw [hk.owned a, not_or] at ha
        exact ha
      simp [hother.1, hother.2]
  absent k hlookup := by
    by_cases hkey : k = key
    · subst hkey
      refine ⟨AList.lookup_erase _ _, fun a => ?_⟩
      by_cases ha : owner a = some (some k)
      · simp [ha]
      · simp [ha]
    · rw [AList.lookup_erase_ne hkey] at hlookup
      obtain ⟨hmap, howner⟩ := h.absent k hlookup
      refine ⟨by rwa [AList.lookup_erase_ne hkey], fun a => ?_⟩
      by_cases ha : owner a = some (some key)
      · simp [ha]
      · simpa [ha] using howner a
  held k e' hlookup := by
    have hkey : k ≠ key := by
      rintro rfl
      rw [AList.lookup_erase] at hlookup
      cases hlookup
    rw [AList.lookup_erase_ne hkey] at hlookup
    obtain ⟨p', v', hmap, hplaced⟩ := h.held k e' hlookup
    refine ⟨p', v', by rwa [AList.lookup_erase_ne hkey], hplaced.frame (fun a ha => ?_) fun a => ?_⟩
    · have hother : ¬(a = p ∨ a = v) := by
        rw [← hk.owned a, ha]
        simpa using hkey
      rw [not_or] at hother
      rw [Heap.cells_free_of_ne hother.1, Heap.cells_free_of_ne hother.2]
    · by_cases ha : owner a = some (some key)
      · simp [ha, Ne.symm hkey]
      · simp [ha]

/-- What concerns one key is all that changes. -/
theorem Owns.update (h : Owns heap map entries owner) {heap' : Heap (Block κ α)}
    {map' : UMap κ Nat} {owner' : Nat → Option (Option κ)} {e' : Entry κ α} (p' v' : Nat)
    (hlive : ∀ a, heap'.Live a ↔ owner' a ≠ none)
    (hmap : map'.lookup key = some p') (hothers : ∀ k, k ≠ key → map'.lookup k = map.lookup k)
    (hplaced : Placed heap' owner' key e' p' v')
    (hcells : ∀ k a, k ≠ key → owner a = some (some k) → heap'.cells a = heap.cells a)
    (howner : ∀ k a, k ≠ key → (owner' a = some (some k) ↔ owner a = some (some k))) :
    Owns heap' map' (entries.insert key e') owner' where
  live := hlive
  absent k hlookup := by
    have hkey : k ≠ key := by
      rintro rfl
      rw [AList.lookup_insert] at hlookup
      cases hlookup
    rw [AList.lookup_insert_ne hkey] at hlookup
    obtain ⟨hnone, hfree⟩ := h.absent k hlookup
    exact ⟨(hothers k hkey).trans hnone, fun a ha => hfree a ((howner k a hkey).mp ha)⟩
  held k x hlookup := by
    by_cases hkey : k = key
    · subst hkey
      rw [AList.lookup_insert] at hlookup
      obtain rfl := Option.some.inj hlookup
      exact ⟨p', v', hmap, hplaced⟩
    · rw [AList.lookup_insert_ne hkey] at hlookup
      obtain ⟨p, v, hp, hx⟩ := h.held k x hlookup
      exact ⟨p, v, (hothers k hkey).trans hp,
        hx.frame (fun a => hcells k a hkey) fun a => howner k a hkey⟩

/-- The entry of a key is written over and keeps its values. -/
theorem Owns.relink (h : Owns heap map entries owner) (hmap : map.lookup key = some p)
    (hk : Placed heap owner key e p v) (it : Nat) :
    Owns (heap.write p (.entry ⟨it, e.key, v, e.dim, e.expiresAt⟩)) map
      (entries.insert key { e with it }) owner := by
  refine h.update p v (fun a => ?_) hmap (fun _ _ => rfl) ⟨?_, ?_, hk.owned⟩ (fun k a hkey ha => ?_)
    fun _ _ _ => Iff.rfl
  · rw [Heap.live_write_iff, h.live]
  · exact Heap.cells_write hk.entry
  · rw [Heap.cells_write_of_ne hk.ne, hk.floats]
  · apply Heap.cells_write_of_ne
    rintro rfl
    rw [hk.owner_entry] at ha
    simp [hkey.symm] at ha

/-- The values of a key go and those of the running call take their place. -/
theorem Owns.replace (h : Owns heap map entries owner) (hmap : map.lookup key = some p)
    (hk : Placed heap owner key e p v) {copy : Nat} {values : List α} (expiresAt : Int)
    (howner : owner copy = some none) (hcopy : heap.cells copy = some (.floats values)) :
    Owns ((heap.free v).write p (.entry ⟨e.it, e.key, copy, values.length, expiresAt⟩)) map
      (entries.insert key { e with vec := values, expiresAt })
      (Function.update (Function.update owner v none) copy (some (some key))) := by
  have hp : copy ≠ p := by
    rintro rfl
    rw [hk.owner_entry] at howner
    cases howner
  have hv : copy ≠ v := by
    rintro rfl
    rw [hk.owner_floats] at howner
    cases howner
  refine h.update p copy (fun a => ?_) hmap (fun _ _ => rfl) ⟨?_, ?_, fun a => ?_⟩
    (fun k a hkey ha => ?_) fun k a hkey => ?_
  · rw [Heap.live_write_iff, Heap.live_free_iff, h.live]
    by_cases hac : a = copy
    · simp [hac, hv, howner]
    · by_cases hav : a = v
      · simp [hav, hv.symm]
      · simp [hac, hav]
  · exact Heap.cells_write ((Heap.cells_free_of_ne hk.ne.symm).trans hk.entry)
  · rw [Heap.cells_write_of_ne hp, Heap.cells_free_of_ne hv, hcopy]
  · by_cases hac : a = copy
    · simp [hac]
    · by_cases hav : a = v
      · simp [hav, hv.symm, hk.ne]
      · simp [hac, hav, hk.owned]
  · rw [Heap.cells_write_of_ne, Heap.cells_free_of_ne]
    · rintro rfl
      rw [hk.owner_floats] at ha
      simp [hkey.symm] at ha
    · rintro rfl
      rw [hk.owner_entry] at ha
      simp [hkey.symm] at ha
  · by_cases hac : a = copy
    · simp [hac, howner, hkey.symm]
    · by_cases hav : a = v
      · simp [hav, hv.symm, hk.owner_floats, hkey.symm]
      · simp [hac, hav]

/-- A new entry takes the values of the running call. -/
theorem Owns.insert (h : Owns heap map entries owner) (hkey : entries.lookup key = none)
    {copy : Nat}
    {values : List α} (it : Nat) (expiresAt : Int) (howner : owner copy = some none)
    (hcopy : heap.cells copy = some (.floats values)) :
    Owns (heap.alloc (.entry ⟨it, key, copy, values.length, expiresAt⟩))
      (map.insert key heap.next) (entries.insert key ⟨it, key, values, expiresAt⟩)
      (Function.update (Function.update owner copy (some (some key))) heap.next
        (some (some key))) := by
  obtain ⟨hmap, hfree⟩ := h.absent key hkey
  have hnext : heap.next ≠ copy := (Heap.lt_of_cells hcopy).ne'
  refine h.update heap.next copy (fun a => ?_) (AList.lookup_insert _)
    (fun k hk => AList.lookup_insert_ne hk) ⟨Heap.cells_alloc, ?_, fun a => ?_⟩
    (fun k a hk ha => ?_) fun k a hk => ?_
  · rw [Heap.live_alloc_iff, h.live]
    by_cases hn : a = heap.next
    · simp [hn]
    · by_cases hc : a = copy
      · simp [hc, hnext.symm, howner]
      · simp [hn, hc]
  · rw [Heap.cells_alloc_of_ne hnext.symm, hcopy]
  · by_cases hn : a = heap.next
    · simp [hn]
    · by_cases hc : a = copy
      · simp [hc, hnext.symm]
      · simp [hn, hc, hfree a]
  · apply Heap.cells_alloc_of_ne
    rintro rfl
    rw [h.alloc_next] at ha
    cases ha
  · by_cases hn : a = heap.next
    · simp [hn, h.alloc_next, hk.symm]
    · by_cases hc : a = copy
      · simp [hc, hnext.symm, howner, hk.symm]
      · simp [hn, hc]

end Ownership

-- ---------------------------------------------------------------------------
-- The cache on the heap
-- ---------------------------------------------------------------------------

/-- The memory holds the cache, and the call that is running owns `loose`. -/
structure Holds (loose : Option Nat) (m : LruMemory κ α) (c : LRUCache κ α)
    (owner : Nat → Option (Option κ)) : Prop where
  capacity : m.capacity = c.capacity
  ttl : m.ttlSeconds = c.ttlSeconds
  list : m.list = c.list
  nextNode : m.nextNode = c.nextNode
  owns : Owns m.heap m.map c.map owner
  settled : ∀ a, owner a = some none → loose = some a
  inv : c.Inv

/-- What a call leaves of the blocks that were there before: a block goes or stays with its owner,
buffers keep their values, and all stays that belongs to a key that is still there, unless the
call has put new values under it. -/
structure Evolves (written : Option κ) (heap : Heap (Block κ α)) (owner : Nat → Option (Option κ))
    (heap' : Heap (Block κ α)) (owner' : Nat → Option (Option κ)) (c' : LRUCache κ α) : Prop where
  next : heap.next ≤ heap'.next
  owners : ∀ a < heap.next, owner' a = owner a ∨ owner' a = none
  floats : ∀ a < heap.next, ∀ values, heap.cells a = some (.floats values) → owner' a ≠ none →
    heap'.cells a = some (.floats values)
  kept : ∀ k, written ≠ some k → c'.map.lookup k ≠ none → ∀ a < heap.next,
    owner a = some (some k) → owner' a = some (some k)
  overwritten : ∀ k, written = some k → ∀ a < heap.next, ∀ values,
    heap.cells a = some (.floats values) → owner a = some (some k) → owner' a = none

section Holds

variable {m : LruMemory κ α} {c : LRUCache κ α} {owner : Nat → Option (Option κ)} {key : κ}
  {e : Entry κ α} {p v : Nat} {loose : Option Nat}

theorem Holds.empty (capacity : Nat) (ttl : Int) :
    Holds none (new capacity ttl : LruMemory κ α) (.new capacity ttl) (fun _ => none) where
  capacity := rfl
  ttl := rfl
  list := rfl
  nextNode := rfl
  owns := ⟨by simp [new, Heap.Live, Heap.empty], by simp [new], by simp [LRUCache.new]⟩
  settled _ h := by cases h
  inv := .empty capacity ttl

theorem Holds.keys (h : Holds loose m c owner) : m.map.keys.length = c.map.keys.length := by
  have hmem (k : κ) : k ∈ m.map.keys ↔ k ∈ c.map.keys := by
    rw [← AList.mem_keys, ← AList.mem_keys, ← AList.lookup_isSome, ← AList.lookup_isSome]
    cases hk : c.map.lookup k with
    | none => simp [(h.owns.absent k hk).1]
    | some e =>
      obtain ⟨p, v, hp, -⟩ := h.owns.held k e hk
      rw [hp]
      rfl
  exact ((List.perm_ext_iff_of_nodup m.map.keys_nodup c.map.keys_nodup).mpr hmem).length_eq

/-- `remove` of a key that is there. -/
theorem Holds.remove (h : Holds loose m c owner) (hc : c.map.lookup key = some e)
    (hp : Placed m.heap owner key e p v) :
    ∃ m', m.remove key p = .ok m' ∧ m'.heap = (m.heap.free v).free p ∧
      Holds loose m' (c.dropped key)
        (fun a => if owner a = some (some key) then none else owner a) := by
  refine ⟨{ m with list := c.list.filter (·.key ≠ key), map := m.map.erase key,
                   heap := (m.heap.free v).free p }, ?_, rfl, ?_⟩
  · have hread : readEntry m.heap p = .ok ⟨e.it, e.key, v, e.dim, e.expiresAt⟩ := by
      rw [readEntry, hp.entry]
    have hfree : freeFloats m.heap v = .ok (m.heap.free v) := by rw [freeFloats, hp.floats]
    have hdelete : deleteEntry (m.heap.free v) p = .ok ((m.heap.free v).free p) := by
      rw [deleteEntry, Heap.cells_free_of_ne hp.ne.symm, hp.entry]
    have hn : ∃ n ∈ c.list, n.id = e.it := ⟨_, (h.inv.linked _ _ hc).1, rfl⟩
    simp only [LruMemory.remove, hread, ok_bind, hfree, eraseNode, h.list, ensure_pos hn,
      h.inv.eraseP hc, hdelete]
    rfl
  · refine ⟨h.capacity, h.ttl, rfl, h.nextNode, h.owns.erase hp, fun a => ?_, h.inv.dropped key⟩
    by_cases ha : owner a = some (some key)
    · simp [ha]
    · simpa [ha] using h.settled a

theorem Evolves.remove (hp : Placed m.heap owner key e p v) :
    Evolves none m.heap owner ((m.heap.free v).free p)
      (fun a => if owner a = some (some key) then none else owner a) (c.dropped key) where
  next := le_rfl
  owners a _ := by
    by_cases ha : owner a = some (some key)
    · simp [ha]
    · simp [ha]
  floats a _ values ha hne := by
    have hother : ¬(a = p ∨ a = v) := by
      rw [← hp.owned a]
      intro hkey
      simp [hkey] at hne
    rw [not_or] at hother
    rw [Heap.cells_free_of_ne hother.1, Heap.cells_free_of_ne hother.2, ha]
  kept k _ hk a _ ha := by
    have hkey : k ≠ key := by
      rintro rfl
      exact hk (AList.lookup_erase _ _)
    simp [ha, hkey]
  overwritten k hk := by cases hk

omit [DecidableEq κ] in
/-- `promote` of an entry that the list has a node for. -/
theorem promote_ok {x : HeapEntry κ} {rest : List (Node κ)} (hp : m.heap.cells p = some (.entry x))
    (hlist : spliceFront m.list x.it = .ok (⟨x.it, key⟩ :: rest)) :
    m.promote p =
      .ok { m with list := ⟨x.it, key⟩ :: rest, heap := m.heap.write p (.entry x) } := by
  simp only [LruMemory.promote, readEntry, hp, ok_bind, hlist, listBegin, List.head?_cons,
    writeEntry]
  rfl

theorem Holds.promote (h : Holds loose m c owner) (hc : c.map.lookup key = some e)
    (hm : m.map.lookup key = some p) (hp : Placed m.heap owner key e p v) :
    ∃ m', m.promote p = .ok m' ∧ Holds loose m' (c.fronted key e) owner ∧
      m'.map = m.map ∧ m'.heap = m.heap.write p (.entry ⟨e.it, e.key, v, e.dim, e.expiresAt⟩) := by
  have hlist : spliceFront m.list e.it = .ok (⟨e.it, key⟩ :: c.list.filter (·.key ≠ key)) := by
    rw [h.list]
    exact h.inv.spliceFront hc
  have hkey := (h.inv.linked _ _ hc).2
  exact ⟨_, promote_ok hp.entry hlist, ⟨h.capacity, h.ttl, rfl, h.nextNode,
    h.owns.relink hm hp e.it, h.settled, h.inv.fronted hc rfl hkey⟩, rfl, rfl⟩

theorem Evolves.write (hp : Placed m.heap owner key e p v) (x : HeapEntry κ) :
    Evolves none m.heap owner (m.heap.write p (.entry x)) owner c where
  next := le_rfl
  owners a _ := .inl rfl
  floats a _ values ha _ := by
    rw [Heap.cells_write_of_ne, ha]
    rintro rfl
    rw [hp.entry] at ha
    cases ha
  kept k _ _ a _ ha := ha
  overwritten k hk := by cases hk

theorem Evolves.refl (heap : Heap (Block κ α)) (owner : Nat → Option (Option κ))
    (c : LRUCache κ α) : Evolves none heap owner heap owner c :=
  ⟨le_rfl, fun _ _ => .inl rfl, fun _ _ _ ha _ => ha, fun _ _ _ _ _ ha => ha,
    fun _ hk => by cases hk⟩

/-- What a call comes to: the memory still holds the cache, and what was there has evolved. -/
structure Reaches (loose : Option Nat) (written : Option κ) (m : LruMemory κ α)
    (owner : Nat → Option (Option κ)) (m' : LruMemory κ α) (c' : LRUCache κ α)
    (owner' : Nat → Option (Option κ)) : Prop where
  holds : Holds loose m' c' owner'
  evolves : Evolves written m.heap owner m'.heap owner' c'

theorem Holds.touch (h : Holds loose m c owner) (now : Int) (key : κ) :
    ∃ hit m' x c' owner', m.touch now key = .ok (hit, m') ∧ c.touch now key = .ok (x, c') ∧
      Reaches loose none m owner m' c' owner' ∧
        (hit = none ∧ x = none ∨ ∃ p e v, hit = some p ∧ x = some e ∧
          m'.map.lookup key = some p ∧ Placed m'.heap owner' key e p v) := by
  cases hc : c.map.lookup key with
  | none =>
    have hm := (h.owns.absent key hc).1
    exact ⟨none, m, none, c, owner, by rw [LruMemory.touch, hm], by rw [LRUCache.touch, hc],
      ⟨h, .refl _ _ _⟩, .inl ⟨rfl, rfl⟩⟩
  | some e =>
    obtain ⟨p, v, hm, hp⟩ := h.owns.held key e hc
    have hread : readEntry m.heap p = .ok ⟨e.it, e.key, v, e.dim, e.expiresAt⟩ := by
      rw [readEntry, hp.entry]
    by_cases hexpired : 0 < c.ttlSeconds ∧ now > e.expiresAt
    · obtain ⟨m', hremove, hheap, hholds⟩ := h.remove hc hp
      refine ⟨none, m', none, c.dropped key, _, ?_, ?_, ⟨hholds, ?_⟩, .inl ⟨rfl, rfl⟩⟩
      · simp only [LruMemory.touch, hm, hread, ok_bind, h.ttl, if_pos hexpired, hremove]
        rfl
      · simp only [LRUCache.touch, hc, if_pos hexpired, h.inv.remove hc, ok_bind]
        rfl
      · rw [hheap]
        exact .remove hp
    · obtain ⟨m', hpromote, hholds, hmap, hheap⟩ := h.promote hc hm hp
      refine ⟨some p, m', some e, c.fronted key e, owner, ?_, ?_, ⟨hholds, ?_⟩,
        .inr ⟨p, e, v, rfl, rfl, hmap ▸ hm, ?_⟩⟩
      · simp only [LruMemory.touch, hm, hread, ok_bind, h.ttl, if_neg hexpired, hpromote]
        rfl
      · simp only [LRUCache.touch, hc, if_neg hexpired, h.inv.promote hc rfl, ok_bind]
        rfl
      · rw [hheap]
        exact .write hp _
      · rw [hheap]
        exact ⟨Heap.cells_write hp.entry, (Heap.cells_write_of_ne hp.ne).trans hp.floats, hp.owned⟩

/-- What `get` lends out is the buffer of the entry. -/
theorem Holds.get (h : Holds loose m c owner) (now : Int) (key : κ) :
    ∃ hit m' r c' owner', m.get now key = .ok (hit, m') ∧ c.get now key = .ok (r, c') ∧
      Reaches loose none m owner m' c' owner' ∧
        (hit = none ∧ r = none ∨ ∃ v vec, hit = some (v, (vec.length : Int)) ∧
          r = some (vec, (vec.length : Int)) ∧ m'.heap.cells v = some (.floats vec) ∧
          owner' v = some (some key)) := by
  obtain ⟨hit, m', x, c', owner', hm, hc, hreaches, hhit⟩ := h.touch now key
  obtain ⟨rfl, rfl⟩ | ⟨p, e, v, rfl, rfl, -, hp⟩ := hhit
  · refine ⟨none, m', none, c', owner', ?_, ?_, hreaches, .inl ⟨rfl, rfl⟩⟩
    · rw [LruMemory.get, hm]
      rfl
    · rw [LRUCache.get, hc]
      rfl
  · refine ⟨some (v, e.dim), m', some (e.vec, e.dim), c', owner', ?_, ?_, hreaches,
      .inr ⟨v, e.vec, rfl, rfl, hp.floats, hp.owner_floats⟩⟩
    · simp only [LruMemory.get, hm, ok_bind, readEntry, hp.entry]
      rfl
    · rw [LRUCache.get, hc]
      rfl

omit [DecidableEq κ] in
theorem copyFloats_ok {heap : Heap (Block κ α)} {values : List α}
    (h : heap.cells v = some (.floats values)) :
    copyFloats heap v (values.length : Int) = .ok values := by
  rw [copyFloats, readFloats, h]
  simp [ensure_pos, pure, Except.pure]

theorem Holds.getCopy (h : Holds loose m c owner) (now : Int) (key : κ) (out : Bool) (room : Int) :
    ∃ r m' c' owner', m.getCopy now key out room = .ok (r, m') ∧
      c.getCopy now key out room = .ok (r, c') ∧ Reaches loose none m owner m' c' owner' := by
  obtain ⟨hit, m', x, c', owner', hm, hc, hreaches, hhit⟩ := h.touch now key
  obtain ⟨rfl, rfl⟩ | ⟨p, e, v, rfl, rfl, -, hp⟩ := hhit
  · refine ⟨⟨0, none, none⟩, m', c', owner', ?_, ?_, hreaches⟩
    · rw [LruMemory.getCopy, hm]
      rfl
    · rw [LRUCache.getCopy, hc]
      rfl
  · have hread : readEntry m'.heap p = .ok ⟨e.it, e.key, v, e.dim, e.expiresAt⟩ := by
      rw [readEntry, hp.entry]
    have hcopy : copyFloats m'.heap v e.dim = .ok e.vec := copyFloats_ok hp.floats
    by_cases hsmall : !out ∨ room < e.dim
    · refine ⟨⟨-1, some e.dim, none⟩, m', c', owner', ?_, ?_, hreaches⟩
      · simp only [LruMemory.getCopy, hm, ok_bind, hread, if_pos hsmall]
        rfl
      · simp only [LRUCache.getCopy, hc, ok_bind, if_pos hsmall]
        rfl
    · refine ⟨⟨1, some e.dim, some e.vec⟩, m', c', owner', ?_, ?_, hreaches⟩
      · simp only [LruMemory.getCopy, hm, ok_bind, hread, if_neg hsmall, hcopy]
        rfl
      · simp only [LRUCache.getCopy, hc, ok_bind, if_neg hsmall]
        rfl

theorem Holds.getCopyVec (h : Holds loose m c owner) (now : Int) (key : κ) :
    ∃ r m' c' owner', m.getCopyVec now key = .ok (r, m') ∧ c.getCopyVec now key = .ok (r, c') ∧
      Reaches loose none m owner m' c' owner' := by
  obtain ⟨hit, m', r, c', owner', hm, hc, hreaches, hhit⟩ := h.get now key
  obtain ⟨rfl, rfl⟩ | ⟨v, vec, rfl, rfl, hv, -⟩ := hhit
  · refine ⟨none, m', c', owner', ?_, ?_, hreaches⟩
    · rw [LruMemory.getCopyVec, hm]
      rfl
    · rw [LRUCache.getCopyVec, hc]
      rfl
  · by_cases hempty : (vec.length : Int) ≤ 0
    · refine ⟨none, m', c', owner', ?_, ?_, hreaches⟩
      · simp only [LruMemory.getCopyVec, hm, ok_bind, if_pos hempty]
        rfl
      · simp only [LRUCache.getCopyVec, hc, ok_bind, if_pos hempty]
        rfl
    · refine ⟨some vec, m', c', owner', ?_, ?_, hreaches⟩
      · simp only [LruMemory.getCopyVec, hm, ok_bind, if_neg hempty, copyFloats_ok hv]
        rfl
      · simp only [LRUCache.getCopyVec, hc, ok_bind, if_neg hempty]
        rfl

theorem length_keys {c : LRUCache κ α} (h : c.Inv) : c.map.keys.length = c.list.length := by
  have hperm : c.map.keys.Perm (c.list.map Node.key) :=
    (List.perm_ext_iff_of_nodup c.map.keys_nodup h.keysNodup).mpr fun k =>
      AList.mem_keys.symm.trans (h.mapped k)
  rw [hperm.length_eq, List.length_map]

/-- The eviction of the last key. -/
theorem Holds.evictLast (h : Holds loose m c owner) (hne : c.list ≠ []) :
    ∃ m' last e p v, m.evictLast = .ok m' ∧ c.evictLast = .ok (c.dropped last) ∧
      c.map.lookup last = some e ∧ Placed m.heap owner last e p v ∧
      m'.heap = (m.heap.free v).free p ∧
      Holds loose m' (c.dropped last)
        (fun a => if owner a = some (some last) then none else owner a) := by
  obtain ⟨n, hn⟩ : ∃ n, c.list.getLast? = some n := ⟨_, List.getLast?_eq_some_getLast hne⟩
  have hmem : n.key ∈ c.map :=
    (h.inv.mapped n.key).mpr (List.mem_map_of_mem (List.mem_of_getLast? hn))
  obtain ⟨e, he⟩ := Option.isSome_iff_exists.mp (AList.lookup_isSome.mpr hmem)
  obtain ⟨p, v, hm, hp⟩ := h.owns.held n.key e he
  obtain ⟨m', hremove, hheap, hholds⟩ := h.remove he hp
  refine ⟨m', n.key, e, p, v, ?_, ?_, he, hp, hheap, hholds⟩
  · simp only [LruMemory.evictLast, h.list, listBack, hn, ok_bind, removeByIterator, hm, hremove]
  · simp only [LRUCache.evictLast, listBack, hn, ok_bind, LRUCache.removeByIterator, he,
      h.inv.remove he]

/-- The copy of the values, before anything is done with it. -/
theorem Holds.alloc (h : Holds none m c owner) (b : Block κ α) :
    Holds (some m.heap.next) { m with heap := m.heap.alloc b } c
      (Function.update owner m.heap.next (some none)) where
  capacity := h.capacity
  ttl := h.ttl
  list := h.list
  nextNode := h.nextNode
  owns := h.owns.alloc b
  settled a ha := by
    by_cases hn : a = m.heap.next
    · rw [hn]
    · rw [Function.update_of_ne hn] at ha
      cases h.settled a ha
  inv := h.inv

/-- `put` over an entry. -/
theorem Holds.overwrite {copy : Nat} {values : List α} (h : Holds (some copy) m c owner)
    (hc : c.map.lookup key = some e) (hm : m.map.lookup key = some p)
    (hp : Placed m.heap owner key e p v) (howner : owner copy = some none)
    (hcopy : m.heap.cells copy = some (.floats values)) (expiresAt : Int) :
    ∃ m', (do
        let e ← readEntry m.heap p
        let heap ← freeFloats m.heap e.vec
        let heap ← writeEntry heap p { e with vec := copy, dim := values.length, expiresAt }
        { m with heap }.promote p) = .ok m' ∧
      m'.heap =
        ((m.heap.free v).write p (.entry ⟨e.it, e.key, copy, values.length, expiresAt⟩)).write p
          (.entry ⟨e.it, e.key, copy, values.length, expiresAt⟩) ∧
      Holds none m' (c.fronted key { e with vec := values, expiresAt })
        (Function.update (Function.update owner v none) copy (some (some key))) := by
  obtain ⟨x, hx⟩ : ∃ x : HeapEntry κ, x = ⟨e.it, e.key, copy, values.length, expiresAt⟩ := ⟨_, rfl⟩
  obtain ⟨heap, hheap⟩ : ∃ heap, heap = (m.heap.free v).write p (.entry x) := ⟨_, rfl⟩
  have hread : readEntry m.heap p = .ok ⟨e.it, e.key, v, e.dim, e.expiresAt⟩ := by
    rw [readEntry, hp.entry]
  have hfree : freeFloats m.heap v = .ok (m.heap.free v) := by rw [freeFloats, hp.floats]
  have hcell : (m.heap.free v).cells p = some (.entry ⟨e.it, e.key, v, e.dim, e.expiresAt⟩) :=
    (Heap.cells_free_of_ne hp.ne.symm).trans hp.entry
  have hwrite : writeEntry (m.heap.free v) p x = .ok heap := by rw [writeEntry, hcell, hheap]
  have hnew : heap.cells p = some (.entry x) := by rw [hheap]; exact Heap.cells_write hcell
  have hlist : spliceFront m.list x.it = .ok (⟨x.it, key⟩ :: c.list.filter (·.key ≠ key)) := by
    rw [h.list, hx]
    exact h.inv.spliceFront hc
  have howns := h.owns.replace hm hp expiresAt howner hcopy
  rw [← hx, ← hheap] at howns
  obtain ⟨p', v', hm', hp'⟩ := howns.held key _ (AList.lookup_insert _)
  obtain rfl : p' = p := Option.some.inj (hm'.symm.trans hm)
  have hrelink := howns.relink hm hp' e.it
  have hentry : (⟨e.it, e.key, v', values.length, expiresAt⟩ : HeapEntry κ) = x :=
    Block.entry.inj (Option.some.inj (hp'.entry.symm.trans hnew))
  refine ⟨{ m with list := ⟨x.it, key⟩ :: c.list.filter (·.key ≠ key),
                   heap := heap.write p' (.entry x) }, ?_, ?_, ?_⟩
  · simp only [hread, ok_bind, hfree, ← hx, hwrite]
    exact promote_ok hnew hlist
  · rw [hheap, hx]
  · refine ⟨h.capacity, h.ttl, ?_, h.nextNode, ?_, fun a ha => ?_, ?_⟩
    · rw [hx]
      rfl
    · have hsame : (c.fronted key { e with vec := values, expiresAt }).map =
          (c.map.insert key { e with vec := values, expiresAt }).insert key
            { e with vec := values, expiresAt } := (AList.insert_insert _).symm
      rw [hsame, ← hentry]
      exact hrelink
    · by_cases hac : a = copy
      · simp [hac] at ha
      · rw [Function.update_of_ne hac] at ha
        by_cases hav : a = v
        · simp [hav] at ha
        · rw [Function.update_of_ne hav] at ha
          exact absurd (Option.some.inj (h.settled a ha)).symm hac
    · exact h.inv.fronted hc rfl (h.inv.linked _ _ hc).2

/-- A new entry in front of the others. -/
theorem Holds.push {copy : Nat} {values : List α} (h : Holds (some copy) m c owner)
    (hkey : c.map.lookup key = none) (howner : owner copy = some none)
    (hcopy : m.heap.cells copy = some (.floats values)) (expiresAt : Int)
    (hroom : c.list.length < c.capacity) :
    Holds none
      { m with list := ⟨m.nextNode, key⟩ :: m.list,
               map := m.map.insert key m.heap.next,
               nextNode := m.nextNode + 1,
               heap := m.heap.alloc (.entry ⟨m.nextNode, key, copy, values.length, expiresAt⟩) }
      { c with list := ⟨c.nextNode, key⟩ :: c.list,
               map := c.map.insert key ⟨c.nextNode, key, values, expiresAt⟩,
               nextNode := c.nextNode + 1 }
      (Function.update (Function.update owner copy (some (some key))) m.heap.next
        (some (some key))) where
  capacity := h.capacity
  ttl := h.ttl
  list := by rw [h.list, h.nextNode]
  nextNode := by rw [h.nextNode]
  owns := by
    have howns := h.owns.insert hkey c.nextNode expiresAt howner hcopy
    rw [h.nextNode]
    exact howns
  settled a ha := by
    by_cases hn : a = m.heap.next
    · simp [hn] at ha
    · rw [Function.update_of_ne hn] at ha
      by_cases hac : a = copy
      · simp [hac] at ha
      · rw [Function.update_of_ne hac] at ha
        exact absurd (Option.some.inj (h.settled a ha)).symm hac
  inv := by
    have hid : c.nextNode ∉ c.list.map Node.id := by
      intro hmem
      obtain ⟨n, hn, heq⟩ := List.mem_map.mp hmem
      exact absurd (h.inv.idsFresh n hn) (by omega)
    exact h.inv.cons (e := ⟨c.nextNode, key, values, expiresAt⟩) (AList.lookup_eq_none.mp hkey) rfl
      hid (Nat.lt_succ_self c.nextNode) (Nat.le_succ c.nextNode) hroom

theorem Owns.lt (h : Owns m.heap m.map c.map owner) {k : κ} {a : Nat}
    (ha : owner a = some (some k)) : a < m.heap.next := by
  apply Heap.Live.lt
  rw [h.live, ha]
  simp

/-- `put` over an entry frees its old values and nothing else. -/
theorem Evolves.overwrite (hp : Placed m.heap owner key e p v) (b x : Block κ α)
    {c' : LRUCache κ α} :
    Evolves (some key) m.heap owner
      (((((m.heap.alloc b).free v).write p x).write p x))
      (Function.update (Function.update (Function.update owner m.heap.next (some none)) v none)
        m.heap.next (some (some key))) c' where
  next := Nat.le_succ _
  owners a ha := by
    rw [Function.update_of_ne (Nat.ne_of_lt ha)]
    by_cases hav : a = v
    · exact .inr (by rw [hav, Function.update_self])
    · exact .inl (by rw [Function.update_of_ne hav, Function.update_of_ne (Nat.ne_of_lt ha)])
  floats a ha values hvalues hne := by
    have hav : a ≠ v := by
      rintro rfl
      rw [Function.update_of_ne (Nat.ne_of_lt ha), Function.update_self] at hne
      exact hne rfl
    have hap : a ≠ p := by
      rintro rfl
      rw [hp.entry] at hvalues
      cases hvalues
    rw [Heap.cells_write_of_ne hap, Heap.cells_write_of_ne hap, Heap.cells_free_of_ne hav,
      Heap.cells_alloc_of_ne (Nat.ne_of_lt ha), hvalues]
  kept k hk _ a ha hown := by
    have hav : a ≠ v := by
      rintro rfl
      rw [hp.owner_floats] at hown
      exact hk (Option.some.inj hown)
    rw [Function.update_of_ne (Nat.ne_of_lt ha), Function.update_of_ne hav,
      Function.update_of_ne (Nat.ne_of_lt ha), hown]
  overwritten k hk a ha values hvalues hown := by
    obtain rfl := Option.some.inj hk
    rcases (hp.owned a).mp hown with rfl | rfl
    · rw [hp.entry] at hvalues
      cases hvalues
    · rw [Function.update_of_ne (Nat.ne_of_lt ha), Function.update_self]

/-- A key that is new takes nothing from the others. -/
theorem Evolves.push (h : Owns m.heap m.map c.map owner) (hkey : c.map.lookup key = none)
    (b b' : Block κ α) {c' : LRUCache κ α} :
    Evolves (some key) m.heap owner ((m.heap.alloc b).alloc b')
      (Function.update (Function.update (Function.update owner m.heap.next (some none))
        m.heap.next (some (some key))) (m.heap.alloc b).next (some (some key))) c' where
  next := Nat.le_add_right _ 2
  owners a ha := by
    have hnext : a ≠ (m.heap.alloc b).next := Nat.ne_of_lt (Nat.lt_succ_of_lt ha)
    left
    rw [Function.update_of_ne hnext, Function.update_of_ne (Nat.ne_of_lt ha),
      Function.update_of_ne (Nat.ne_of_lt ha)]
  floats a ha values hvalues _ := by
    rw [Heap.cells_alloc_of_ne (Nat.ne_of_lt (Nat.lt_succ_of_lt ha)),
      Heap.cells_alloc_of_ne (Nat.ne_of_lt ha), hvalues]
  kept k _ _ a ha hown := by
    have hnext : a ≠ (m.heap.alloc b).next := Nat.ne_of_lt (Nat.lt_succ_of_lt ha)
    rw [Function.update_of_ne hnext, Function.update_of_ne (Nat.ne_of_lt ha),
      Function.update_of_ne (Nat.ne_of_lt ha), hown]
  overwritten k hk a _ _ _ hown := by
    obtain rfl := Option.some.inj hk
    exact absurd hown ((h.absent key hkey).2 a)

/-- The last key makes room for a new one. -/
theorem Evolves.evict (h : Owns m.heap m.map c.map owner) (hkey : c.map.lookup key = none)
    (b b' : Block κ α) {last : κ} {x : Entry κ α}
    (hp : Placed (m.heap.alloc b) (Function.update owner m.heap.next (some none)) last e p v)
    {c' : LRUCache κ α} (hmap : c'.map = (c.map.erase last).insert key x) (hne : last ≠ key) :
    Evolves (some key) m.heap owner ((((m.heap.alloc b).free v).free p).alloc b')
      (Function.update (Function.update (fun a =>
        if Function.update owner m.heap.next (some none) a = some (some last) then none
        else Function.update owner m.heap.next (some none) a) m.heap.next (some (some key)))
          (((m.heap.alloc b).free v).free p).next (some (some key))) c' := by
  have howner (a : Nat) (ha : a < m.heap.next) : Function.update (Function.update (fun a =>
      if Function.update owner m.heap.next (some none) a = some (some last) then none
      else Function.update owner m.heap.next (some none) a) m.heap.next (some (some key)))
        (((m.heap.alloc b).free v).free p).next (some (some key)) a =
      if owner a = some (some last) then none else owner a := by
    have hnext : a ≠ (((m.heap.alloc b).free v).free p).next :=
      Nat.ne_of_lt (Nat.lt_succ_of_lt ha)
    rw [Function.update_of_ne hnext, Function.update_of_ne (Nat.ne_of_lt ha),
      Function.update_of_ne (Nat.ne_of_lt ha)]
  refine ⟨Nat.le_add_right _ 2, fun a ha => ?_, fun a ha values hvalues hne => ?_,
    fun k hk hthere a ha hown => ?_, fun k hk a ha _ _ hown => ?_⟩
  · rw [howner a ha]
    split
    · exact .inr rfl
    · exact .inl rfl
  · rw [howner a ha] at hne
    have hother : ¬(a = p ∨ a = v) := by
      rw [← hp.owned a, Function.update_of_ne (Nat.ne_of_lt ha)]
      intro hlast
      rw [if_pos hlast] at hne
      exact hne rfl
    rw [not_or] at hother
    rw [Heap.cells_alloc_of_ne (Nat.ne_of_lt (Nat.lt_succ_of_lt ha)),
      Heap.cells_free_of_ne hother.1, Heap.cells_free_of_ne hother.2,
      Heap.cells_alloc_of_ne (Nat.ne_of_lt ha), hvalues]
  · have hlast : k ≠ last := by
      rintro rfl
      apply hthere
      rw [hmap, AList.lookup_insert_ne hne]
      exact AList.lookup_erase _ _
    rw [howner a ha, hown, if_neg (by simpa using hlast)]
  · obtain rfl := Option.some.inj hk
    exact absurd hown ((h.absent key hkey).2 a)

/-- `put`, whose `malloc` may fail. -/
theorem Holds.put (h : Holds none m c owner) (now : Int) (key : κ) (values : List α)
    (allocates : Bool) :
    ∃ m' c' owner', m.put now key values allocates = .ok m' ∧
      (if allocates then c.put now key values else .ok c) = .ok c' ∧
      Reaches none (if allocates ∧ c.capacity ≠ 0 then some key else none) m owner m' c'
        owner' := by
  by_cases hcap : c.capacity = 0
  · refine ⟨m, c, owner, ?_, ?_, ⟨h, ?_⟩⟩
    · rw [LruMemory.put, if_pos (h.capacity.trans hcap)]
      rfl
    · split
      · rw [LRUCache.put, if_pos hcap]
        rfl
      · rfl
    · rw [if_neg fun hboth => hboth.2 hcap]
      exact .refl _ _ _
  have hcap' : ¬m.capacity = 0 := by rwa [h.capacity]
  cases allocates with
  | false =>
    refine ⟨m, c, owner, ?_, rfl, ⟨h, .refl _ _ _⟩⟩
    rw [LruMemory.put, if_neg hcap']
    rfl
  | true =>
    have halloc := h.alloc (.floats values)
    obtain ⟨expiresAt, hexp⟩ : ∃ x, (if 0 < c.ttlSeconds then now + c.ttlSeconds else 0) = x :=
      ⟨_, rfl⟩
    have hcopy : (m.heap.alloc (.floats values)).cells m.heap.next = some (.floats values) :=
      Heap.cells_alloc
    have howner : Function.update owner m.heap.next (some none) m.heap.next = some none :=
      Function.update_self _ _ _
    simp only [hcap, ne_eq, not_false_eq_true, and_self, if_true]
    have hexp' : (if 0 < m.ttlSeconds then now + m.ttlSeconds else 0) = expiresAt := by
      rw [h.ttl, hexp]
    cases hc : c.map.lookup key with
    | some e =>
      obtain ⟨p, v, hm, hp⟩ := h.owns.held key e hc
      obtain ⟨m', hput, hheap, hholds⟩ :=
        halloc.overwrite hc hm (h.owns.placed_alloc _ hp) howner hcopy expiresAt
      refine ⟨m', _, _, ?_, ?_, ⟨hholds, ?_⟩⟩
      · simp only [LruMemory.put, if_neg hcap', hexp', hm, Bool.not_true, Bool.false_eq_true,
          if_false]
        exact hput
      · have hpromote : c.promote key { e with vec := values, expiresAt } =
          .ok ({ e with vec := values, expiresAt },
            c.fronted key { e with vec := values, expiresAt }) :=
            h.inv.promote hc rfl
        simp only [LRUCache.put, if_neg hcap, hc, hexp, hpromote]
        rfl
      · rw [hheap]
        exact .overwrite hp _ _
    | none =>
      have hm : m.map.lookup key = none := (h.owns.absent key hc).1
      by_cases hfull : c.capacity ≤ c.map.keys.length
      · have hfull' : m.capacity ≤ m.map.keys.length := by rwa [h.capacity, h.keys]
        have hne : c.list ≠ [] := by
          rintro hnil
          rw [length_keys h.inv, hnil, List.length_nil] at hfull
          omega
        obtain ⟨m₁, last, e, p, v, hevict, hevict', hlast, hp, hheap, hholds⟩ :=
          halloc.evictLast hne
        have hother : last ≠ key := by
          rintro rfl
          rw [hc] at hlast
          cases hlast
        have hhere : m.heap.next ≠ p ∧ m.heap.next ≠ v := by
          have hnot : ¬(m.heap.next = p ∨ m.heap.next = v) := by
            rw [← hp.owned, howner]
            simp
          rwa [not_or] at hnot
        have hkey : (c.dropped last).map.lookup key = none :=
          (AList.lookup_erase_ne hother.symm).trans hc
        have hcopy' : m₁.heap.cells m.heap.next = some (.floats values) := by
          rw [hheap]
          exact (Heap.cells_free_of_ne hhere.1).trans ((Heap.cells_free_of_ne hhere.2).trans hcopy)
        have hroom : (c.dropped last).list.length < (c.dropped last).capacity := by
          have hmem := (h.inv.linked _ _ hlast).1
          refine lt_of_lt_of_le ?_ h.inv.bounded
          exact List.length_filter_lt_length_iff_exists.mpr ⟨_, hmem, by simp⟩
        refine ⟨_, _, _, ?_, ?_, ⟨hholds.push hkey (by simp) hcopy' expiresAt hroom, ?_⟩⟩
        · simp only [LruMemory.put, if_neg hcap', hexp', hm, Bool.not_true, Bool.false_eq_true,
            if_false, if_pos hfull', hevict, ok_bind]
          rfl
        · simp only [LRUCache.put, if_neg hcap, hc, hexp, if_pos hfull, hevict', ok_bind]
          rfl
        · rw [hheap]
          exact .evict h.owns hc _ _ hp rfl hother
      · have hfull' : ¬m.capacity ≤ m.map.keys.length := by rwa [h.capacity, h.keys]
        have hroom : c.list.length < c.capacity := by
          rw [← length_keys h.inv]
          exact Nat.lt_of_not_le hfull
        refine ⟨_, _, _, ?_, ?_, ⟨halloc.push hc howner hcopy expiresAt hroom, .push h.owns hc _ _⟩⟩
        · simp only [LruMemory.put, if_neg hcap', hexp', hm, Bool.not_true, Bool.false_eq_true,
            if_false, if_neg hfull']
          rfl
        · simp only [LRUCache.put, if_neg hcap, hc, hexp, if_neg hfull]
          rfl

/-- The loop of `clear` frees everything, and each block once. -/
theorem freeAll_ok (entries' : List (Σ _ : κ, Nat)) {heap : Heap (Block κ α)} {map : UMap κ Nat}
    {entries : UMap κ (Entry κ α)} {owner : Nat → Option (Option κ)} (hmap : map.entries = entries')
    (h : Owns heap map entries owner) (hsettled : ∀ a, owner a ≠ some none) :
    ∃ heap', freeAll heap entries' = .ok heap' ∧ heap.next ≤ heap'.next ∧ ∀ a, ¬heap'.Live a := by
  induction entries' generalizing heap map entries owner with
  | nil =>
    refine ⟨heap, rfl, le_rfl, fun a ha => ?_⟩
    obtain ⟨o, ho⟩ := Option.ne_none_iff_exists'.mp ((h.live a).mp ha)
    cases o with
    | none => exact hsettled a ho
    | some k =>
      have hnone : map.lookup k = none := by
        rw [AList.lookup, hmap]
        rfl
      cases hk : entries.lookup k with
      | none => exact (h.absent k hk).2 a ho
      | some e =>
        obtain ⟨p, v, hp, -⟩ := h.held k e hk
        rw [hnone] at hp
        cases hp
  | cons kv rest ih =>
    obtain ⟨key, p⟩ := kv
    have hm : map.lookup key = some p := by
      rw [AList.lookup, hmap, List.dlookup_cons_eq]
    cases hc : entries.lookup key with
    | none =>
      rw [(h.absent key hc).1] at hm
      cases hm
    | some e =>
      obtain ⟨p', v, hm', hp⟩ := h.held key e hc
      obtain rfl : p' = p := Option.some.inj (hm'.symm.trans hm)
      have hrest : (map.erase key).entries = rest := by
        have herase : (map.erase key).entries = List.kerase key map.entries := rfl
        rw [herase, hmap]
        exact List.kerase_cons_eq rfl
      obtain ⟨heap', hfree, hnext, hnone⟩ := ih hrest (h.erase hp) (fun a => by
        by_cases ha : owner a = some (some key)
        · simp [ha]
        · simpa [ha] using hsettled a)
      refine ⟨heap', ?_, hnext, hnone⟩
      have hdelete : deleteEntry (heap.free v) p' = .ok ((heap.free v).free p') := by
        rw [deleteEntry, Heap.cells_free_of_ne hp.ne.symm, hp.entry]
      simp only [freeAll, readEntry, hp.entry, ok_bind, freeFloats, hp.floats, hdelete]
      exact hfree

theorem Holds.clear (h : Holds none m c owner) :
    ∃ m', m.clear = .ok m' ∧ (∀ a, ¬m'.heap.Live a) ∧
      Reaches none none m owner m' c.clear (fun _ => none) := by
  obtain ⟨heap, hfree, hnext, hnone⟩ := freeAll_ok m.map.entries rfl h.owns fun a ha => by
    cases h.settled a ha
  refine ⟨{ m with heap, map := ∅, list := [] }, ?_, hnone, ⟨?_, ?_⟩⟩
  · rw [LruMemory.clear, hfree]
    rfl
  · have howns : Owns heap ∅ c.clear.map fun _ => none :=
      ⟨fun a => by simpa using hnone a, fun k _ => ⟨rfl, by simp⟩, fun k e hk => by cases hk⟩
    exact ⟨h.capacity, h.ttl, rfl, h.nextNode, howns, (fun a ha => by cases ha), .clear⟩
  · exact ⟨hnext, fun a _ => .inr rfl, fun a _ _ _ hne => absurd rfl hne,
      fun k _ hk => absurd rfl hk, fun k hk => by cases hk⟩

end Holds

-- ---------------------------------------------------------------------------
-- Calls
-- ---------------------------------------------------------------------------

/-- What a call answers; `get` answers with a pointer. -/
inductive Answer (α : Type) where
  | borrowed (hit : Option (Nat × Int))
  | copied (result : LRUCache.CopyResult α)
  | assigned (vec : Option (List α))
  | done
  | size (n : Nat)

/-- The answer says what the cache without pointers answers. -/
def Answer.Says (heap : Heap (Block κ α)) : Answer α → LRUCache.Reply α → Prop
  | .borrowed none, .borrowed none => True
  | .borrowed (some (v, dim)), .borrowed (some (vec, dim')) =>
    heap.cells v = some (.floats vec) ∧ dim = dim'
  | .copied result, .copied result' => result = result'
  | .assigned vec, .assigned vec' => vec = vec'
  | .done, .done => True
  | .size n, .size n' => n = n'
  | _, _ => False

/-- A call at the time `now`, whose `malloc` gives memory or does not. -/
structure Call (κ α : Type) where
  now : Int
  allocates : Bool
  op : LRUCache.Op κ α

def step (call : Call κ α) (m : LruMemory κ α) : Checked (Answer α × LruMemory κ α) :=
  match call.op with
  | .get key => do
    let (hit, m) ← m.get call.now key
    return (.borrowed hit, m)
  | .getCopy key out room => do
    let (result, m) ← m.getCopy call.now key out room
    return (.copied result, m)
  | .getCopyVec key => do
    let (vec, m) ← m.getCopyVec call.now key
    return (.assigned vec, m)
  | .put key vec => do
    let m ← m.put call.now key vec call.allocates
    return (.done, m)
  | .clear => do
    let m ← m.clear
    return (.done, m)
  | .size => .ok (.size m.size, m)

/-- The same call of the cache without pointers. A `put` without memory does nothing. -/
def plainStep (call : Call κ α) (c : LRUCache κ α) : Checked (LRUCache.Reply α × LRUCache κ α) :=
  match call.op with
  | .put key vec => do
    let c ← (if call.allocates then c.put call.now key vec else .ok c)
    return (.done, c)
  | op => c.step call.now op

/-- The key that a call puts new values under. -/
def Call.written (call : Call κ α) (capacity : Nat) : Option κ :=
  match call.op with
  | .put key _ => if call.allocates ∧ capacity ≠ 0 then some key else none
  | _ => none

theorem Holds.step {m : LruMemory κ α} {c : LRUCache κ α} {owner : Nat → Option (Option κ)}
    (h : Holds none m c owner) (call : Call κ α) :
    ∃ answer m' reply c' owner', m.step call = .ok (answer, m') ∧
      plainStep call c = .ok (reply, c') ∧ answer.Says m'.heap reply ∧
      Reaches none (call.written c.capacity) m owner m' c' owner' := by
  obtain ⟨now, allocates, op⟩ := call
  cases op with
  | get key =>
    obtain ⟨hit, m', r, c', owner', hm, hc, hreaches, hhit⟩ := h.get now key
    refine ⟨.borrowed hit, m', .borrowed r, c', owner', ?_, ?_, ?_, hreaches⟩
    · simp only [LruMemory.step, hm]
      rfl
    · simp only [plainStep, LRUCache.step, hc]
      rfl
    · obtain ⟨rfl, rfl⟩ | ⟨v, vec, rfl, rfl, hv, -⟩ := hhit
      · trivial
      · exact ⟨hv, rfl⟩
  | getCopy key out room =>
    obtain ⟨r, m', c', owner', hm, hc, hreaches⟩ := h.getCopy now key out room
    refine ⟨.copied r, m', .copied r, c', owner', ?_, ?_, rfl, hreaches⟩
    · simp only [LruMemory.step, hm]
      rfl
    · simp only [plainStep, LRUCache.step, hc]
      rfl
  | getCopyVec key =>
    obtain ⟨r, m', c', owner', hm, hc, hreaches⟩ := h.getCopyVec now key
    refine ⟨.assigned r, m', .assigned r, c', owner', ?_, ?_, rfl, hreaches⟩
    · simp only [LruMemory.step, hm]
      rfl
    · simp only [plainStep, LRUCache.step, hc]
      rfl
  | put key vec =>
    obtain ⟨m', c', owner', hm, hc, hreaches⟩ := h.put now key vec allocates
    refine ⟨.done, m', .done, c', owner', ?_, ?_, trivial, hreaches⟩
    · simp only [LruMemory.step, hm]
      rfl
    · simp only [plainStep, hc]
      rfl
  | clear =>
    obtain ⟨m', hm, -, hreaches⟩ := h.clear
    refine ⟨.done, m', .done, c.clear, _, ?_, rfl, trivial, hreaches⟩
    simp only [LruMemory.step, hm]
    rfl
  | size =>
    exact ⟨.size m.size, m, .size c.size, c, owner, rfl, rfl, h.keys, ⟨h, .refl _ _ _⟩⟩

-- ---------------------------------------------------------------------------
-- Runs
-- ---------------------------------------------------------------------------

def run : List (Call κ α) → LruMemory κ α → Checked (List (Answer α) × LruMemory κ α)
  | [], m => .ok ([], m)
  | call :: calls, m => do
    let (answer, m) ← m.step call
    let (answers, m) ← m.run calls
    return (answer :: answers, m)

def plainRun : List (Call κ α) → LRUCache κ α → Checked (List (LRUCache.Reply α) × LRUCache κ α)
  | [], c => .ok ([], c)
  | call :: calls, c => do
    let (reply, c) ← plainStep call c
    let (replies, c) ← plainRun calls c
    return (reply :: replies, c)

/-- No call puts new values under the key, and the key is there after every call. -/
def Stays (key : κ) : List (Call κ α) → LRUCache κ α → Prop
  | [], _ => True
  | call :: calls, c => call.written c.capacity ≠ some key ∧
    ∃ reply c', plainStep call c = .ok (reply, c') ∧ c'.map.lookup key ≠ none ∧ Stays key calls c'

section Runs

variable {m m' : LruMemory κ α} {c c' : LRUCache κ α} {owner owner' : Nat → Option (Option κ)}
  {key : κ} {v : Nat} {values : List α}

theorem Holds.run (h : Holds none m c owner) (calls : List (Call κ α)) :
    ∃ answers m' replies c' owner', m.run calls = .ok (answers, m') ∧
      plainRun calls c = .ok (replies, c') ∧ Holds none m' c' owner' := by
  induction calls generalizing m c owner with
  | nil => exact ⟨[], m, [], c, owner, rfl, rfl, h⟩
  | cons call calls ih =>
    obtain ⟨answer, m₁, reply, c₁, owner₁, hm, hc, -, hreaches⟩ := h.step call
    obtain ⟨answers, m', replies, c', owner', hrun, hplain, hholds⟩ := ih hreaches.holds
    refine ⟨answer :: answers, m', reply :: replies, c', owner', ?_, ?_, hholds⟩
    · simp only [LruMemory.run, hm, ok_bind, hrun]
      rfl
    · simp only [plainRun, hc, ok_bind, hplain]
      rfl

/-- What is allocated is the entries of the map and their values. -/
theorem Holds.live_iff (h : Holds none m c owner) (a : Nat) :
    m.heap.Live a ↔
      ∃ k p e, m.map.lookup k = some p ∧ readEntry m.heap p = .ok e ∧ (a = p ∨ a = e.vec) := by
  constructor
  · intro ha
    obtain ⟨o, ho⟩ := Option.ne_none_iff_exists'.mp ((h.owns.live a).mp ha)
    cases o with
    | none => cases h.settled a ho
    | some k =>
      cases hk : c.map.lookup k with
      | none => exact absurd ho ((h.owns.absent k hk).2 a)
      | some e =>
        obtain ⟨p, v, hp, hplaced⟩ := h.owns.held k e hk
        have hread : readEntry m.heap p = .ok ⟨e.it, e.key, v, e.dim, e.expiresAt⟩ := by
          rw [readEntry, hplaced.entry]
        exact ⟨k, p, _, hp, hread, (hplaced.owned a).mp ho⟩
  · rintro ⟨k, p, x, hp, hread, ha⟩
    rw [h.owns.live]
    cases hk : c.map.lookup k with
    | none =>
      rw [(h.owns.absent k hk).1] at hp
      cases hp
    | some e =>
      obtain ⟨p', v, hp', hplaced⟩ := h.owns.held k e hk
      obtain rfl : p' = p := Option.some.inj (hp'.symm.trans hp)
      rw [readEntry, hplaced.entry] at hread
      cases hread
      rw [(hplaced.owned a).mpr ha]
      simp

/-- A buffer that is gone stays gone. -/
theorem Reaches.gone {loose : Option Nat} {written : Option κ}
    (h : Reaches loose written m owner m' c' owner') (hlt : v < m.heap.next)
    (hgone : owner v = none) : v < m'.heap.next ∧ owner' v = none := by
  refine ⟨lt_of_lt_of_le hlt h.evolves.next, ?_⟩
  obtain howner | howner := h.evolves.owners v hlt
  · exact howner.trans hgone
  · exact howner

/-- The values of a key lie where they lay, as long as the call leaves the key alone. -/
theorem Reaches.stays {loose : Option Nat} {written : Option κ}
    (h : Reaches loose written m owner m' c' owner') (hlt : v < m.heap.next)
    (hcell : m.heap.cells v = some (.floats values)) (howner : owner v = some (some key))
    (hwritten : written ≠ some key) (hthere : c'.map.lookup key ≠ none) :
    v < m'.heap.next ∧ m'.heap.cells v = some (.floats values) ∧ owner' v = some (some key) := by
  have hkept := h.evolves.kept key hwritten hthere v hlt howner
  refine ⟨lt_of_lt_of_le hlt h.evolves.next, h.evolves.floats v hlt values hcell ?_, hkept⟩
  rw [hkept]
  simp

/-- They go when the call overwrites the key or the key goes. -/
theorem Reaches.goes {loose : Option Nat} {written : Option κ}
    (h : Reaches loose written m owner m' c' owner') (hlt : v < m.heap.next)
    (hcell : m.heap.cells v = some (.floats values)) (howner : owner v = some (some key))
    (hgoes : written = some key ∨ c'.map.lookup key = none) :
    v < m'.heap.next ∧ owner' v = none := by
  refine ⟨lt_of_lt_of_le hlt h.evolves.next, ?_⟩
  obtain hwritten | hnone := hgoes
  · exact h.evolves.overwritten key hwritten v hlt values hcell howner
  · obtain hsame | hfreed := h.evolves.owners v hlt
    · exact absurd (hsame.trans howner) ((h.holds.owns.absent key hnone).2 v)
    · exact hfreed

theorem Holds.run_gone (h : Holds none m c owner) (calls : List (Call κ α)) (hlt : v < m.heap.next)
    (hgone : owner v = none) :
    ∃ answers m', m.run calls = .ok (answers, m') ∧ readFloats m'.heap v = .error .dangling := by
  induction calls generalizing m c owner with
  | nil =>
    refine ⟨[], m, rfl, ?_⟩
    have hdead : m.heap.cells v = none := by
      have hlive := h.owns.live v
      rw [hgone] at hlive
      simpa [Heap.Live] using hlive
    rw [readFloats, hdead]
  | cons call calls ih =>
    obtain ⟨answer, m₁, reply, c₁, owner₁, hm, hc, -, hreaches⟩ := h.step call
    obtain ⟨hlt₁, hgone₁⟩ := hreaches.gone hlt hgone
    obtain ⟨answers, m', hrun, hread⟩ := ih hreaches.holds hlt₁ hgone₁
    refine ⟨answer :: answers, m', ?_, hread⟩
    simp only [LruMemory.run, hm, ok_bind, hrun]
    rfl

/-- A pointer to the values of a key, after more calls. -/
theorem Holds.run_lent (h : Holds none m c owner) (calls : List (Call κ α)) (hlt : v < m.heap.next)
    (hcell : m.heap.cells v = some (.floats values)) (howner : owner v = some (some key)) :
    ∃ answers m', m.run calls = .ok (answers, m') ∧
      (Stays key calls c ∧ readFloats m'.heap v = .ok values ∨
        ¬Stays key calls c ∧ readFloats m'.heap v = .error .dangling) := by
  induction calls generalizing m c owner with
  | nil =>
    refine ⟨[], m, rfl, .inl ⟨trivial, ?_⟩⟩
    rw [readFloats, hcell]
  | cons call calls ih =>
    obtain ⟨answer, m₁, reply, c₁, owner₁, hm, hc, -, hreaches⟩ := h.step call
    have hstep : ∀ {answers m'}, m₁.run calls = .ok (answers, m') →
        m.run (call :: calls) = .ok (answer :: answers, m') := by
      intro answers m' hrun
      simp only [LruMemory.run, hm, ok_bind, hrun]
      rfl
    have hstays : Stays key (call :: calls) c ↔ call.written c.capacity ≠ some key ∧
        c₁.map.lookup key ≠ none ∧ Stays key calls c₁ := by
      simp [Stays, hc]
    by_cases hleft : call.written c.capacity ≠ some key ∧ c₁.map.lookup key ≠ none
    · obtain ⟨hlt₁, hcell₁, howner₁⟩ := hreaches.stays hlt hcell howner hleft.1 hleft.2
      obtain ⟨answers, m', hrun, hread⟩ := ih hreaches.holds hlt₁ hcell₁ howner₁
      refine ⟨answer :: answers, m', hstep hrun, ?_⟩
      simpa [hstays, hleft.1, hleft.2] using hread
    · have hgoes : call.written c.capacity = some key ∨ c₁.map.lookup key = none := by
        by_contra hneither
        rw [not_or] at hneither
        exact hleft hneither
      obtain ⟨hlt₁, hgone₁⟩ := hreaches.goes hlt hcell howner hgoes
      obtain ⟨answers, m', hrun, hread⟩ := hreaches.holds.run_gone calls hlt₁ hgone₁
      refine ⟨answer :: answers, m', hstep hrun, .inr ⟨fun hall => ?_, hread⟩⟩
      rw [hstays, ← and_assoc] at hall
      exact hleft hall.1

end Runs

/-- Any calls in any order, `malloc` failing or not, free nothing twice and read nothing that was
freed; what is allocated afterwards is what the map holds, the destructor leaves nothing behind,
and any further call answers what the cache without pointers answers. -/
theorem run_memory (capacity : Nat) (ttl : Int) (calls : List (Call κ α)) :
    ∃ answers m replies c, (new capacity ttl).run calls = .ok (answers, m) ∧
      plainRun calls (.new capacity ttl) = .ok (replies, c) ∧
      (∀ a, m.heap.Live a ↔
        ∃ k p e, m.map.lookup k = some p ∧ readEntry m.heap p = .ok e ∧ (a = p ∨ a = e.vec)) ∧
      (∃ m', m.clear = .ok m' ∧ ∀ a, ¬m'.heap.Live a) ∧
      ∀ call, ∃ answer m' reply c', m.step call = .ok (answer, m') ∧
        plainStep call c = .ok (reply, c') ∧ answer.Says m'.heap reply := by
  obtain ⟨answers, m, replies, c, owner, hrun, hplain, h⟩ :=
    (Holds.empty (κ := κ) (α := α) capacity ttl).run calls
  obtain ⟨m', hclear, hnone, -⟩ := h.clear
  refine ⟨answers, m, replies, c, hrun, hplain, h.live_iff, ⟨m', hclear, hnone⟩, fun call => ?_⟩
  obtain ⟨answer, m', reply, c', owner', hm, hc, hsays, -⟩ := h.step call
  exact ⟨answer, m', reply, c', hm, hc, hsays⟩

/-- A pointer that `get` lends out gives the values of the entry as long as no later call puts
new values under the key and the key does not go, and dangles from then on. -/
theorem lent_pointer (capacity : Nat) (ttl : Int) (calls : List (Call κ α)) (now : Int) (key : κ)
    (later : List (Call κ α)) {replies : List (LRUCache.Reply α)} {c c₁ : LRUCache κ α}
    {values : List α} {dim : Int} (hcalls : plainRun calls (.new capacity ttl) = .ok (replies, c))
    (hhit : c.get now key = .ok (some (values, dim), c₁)) :
    ∃ answers m v m₁ answers' m₂, (new capacity ttl).run calls = .ok (answers, m) ∧
      m.get now key = .ok (some (v, dim), m₁) ∧ readFloats m₁.heap v = .ok values ∧
      m₁.run later = .ok (answers', m₂) ∧
      (Stays key later c₁ ∧ readFloats m₂.heap v = .ok values ∨
        ¬Stays key later c₁ ∧ readFloats m₂.heap v = .error .dangling) := by
  obtain ⟨answers, m, replies', c', owner, hrun, hplain, h⟩ :=
    (Holds.empty (κ := κ) (α := α) capacity ttl).run calls
  cases hplain.symm.trans hcalls
  obtain ⟨hit, m₁, r, c₁', owner₁, hm, hc, hreaches, hlent⟩ := h.get now key
  cases hc.symm.trans hhit
  obtain ⟨-, hnone⟩ | ⟨v, vec, rfl, hsome, hcell, howner⟩ := hlent
  · cases hnone
  cases hsome
  obtain ⟨answers', m₂, hlater, hread⟩ := hreaches.holds.run_lent later
    (Heap.lt_of_cells hcell) hcell howner
  exact ⟨answers, m, v, m₁, answers', m₂, hrun, hm, by rw [readFloats, hcell], hlater, hread⟩

/-- A `put` of another key evicts the only entry, and the pointer to its values dangles. -/
theorem lent_pointer_evicted :
    ∃ (m₁ : LruMemory Nat Nat) (v : Nat) (answers : _) (m₂ : LruMemory Nat Nat),
      readFloats m₁.heap v = .ok [7, 8] ∧
      m₁.run [⟨0, true, .put 2 [9]⟩] = .ok (answers, m₂) ∧
      readFloats m₂.heap v = .error .dangling := by
  obtain ⟨-, -, v, m₁, answers, m₂, -, -, hread, hrun, hend⟩ :=
    lent_pointer (κ := Nat) (α := Nat) 1 0 [⟨0, true, .put 1 [7, 8]⟩] 0 1 [⟨0, true, .put 2 [9]⟩]
      rfl rfl
  refine ⟨m₁, v, answers, m₂, hread, hrun, ?_⟩
  obtain ⟨hstays, -⟩ | ⟨-, hdangling⟩ := hend
  · obtain ⟨-, reply, c', hstep, hthere, -⟩ := hstays
    cases hstep
    exact absurd rfl hthere
  · exact hdangling

end LruMemory

end LibEmbedding
