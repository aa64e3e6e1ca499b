import LibEmbedding.Foundation.Checked
import LibEmbedding.Foundation.Lru

/-!
# The embedding cache

`LRUCache` of `embedding_cache_impl.hpp`: a hash map whose entries store an
iterator into a recency list of keys. A list iterator is the identity of its
node; using one whose node is gone stops with `staleIterator`.

`Inv` ties the two together; under it no operation uses a stale iterator.
-/

namespace LibEmbedding

open Foundation

structure Node (κ : Type) where
  id : Nat
  key : κ
  deriving DecidableEq, Repr

/-- `vec` is the buffer of `dim` floats the entry owns. -/
structure Entry (κ α : Type) where
  it : Nat
  key : κ
  vec : List α
  expiresAt : Int
  deriving DecidableEq, Repr

def Entry.dim (e : Entry κ α) : Int := e.vec.length

/-- `nextNode` is the identity the next list node gets. -/
structure LRUCache (κ α : Type) where
  capacity : Nat
  ttlSeconds : Int
  list : List (Node κ)
  map : UMap κ (Entry κ α)
  nextNode : Nat

-- ---------------------------------------------------------------------------
-- `std::list`
-- ---------------------------------------------------------------------------

def eraseNode (list : List (Node κ)) (it : Nat) : Checked (List (Node κ)) := do
  ensure (∃ n ∈ list, n.id = it) .staleIterator
  return list.eraseP (·.id = it)

def spliceFront (list : List (Node κ)) (it : Nat) : Checked (List (Node κ)) :=
  match list.find? (·.id = it) with
  | some n => .ok (n :: list.eraseP (·.id = it))
  | none => .error .staleIterator

def listBegin (list : List (Node κ)) : Checked Nat :=
  match list.head? with
  | some n => .ok n.id
  | none => .error .outOfBounds

def listBack (list : List (Node κ)) : Checked κ :=
  match list.getLast? with
  | some n => .ok n.key
  | none => .error .outOfBounds

namespace LRUCache

variable {κ α : Type} [DecidableEq κ]

def new (capacity : Nat) (ttlSeconds : Int) : LRUCache κ α := ⟨capacity, ttlSeconds, [], ∅, 0⟩

def remove (c : LRUCache κ α) (key : κ) (e : Entry κ α) : Checked (LRUCache κ α) := do
  let list ← eraseNode c.list e.it
  return { c with list, map := c.map.erase key }

def removeByIterator (c : LRUCache κ α) (key : κ) : Checked (LRUCache κ α) :=
  match c.map.lookup key with
  | some e => c.remove key e
  | none => .ok c

/-- `list_.splice(list_.begin(), list_, e->it); e->it = list_.begin()`. -/
def promote (c : LRUCache κ α) (key : κ) (e : Entry κ α) : Checked (Entry κ α × LRUCache κ α) := do
  let list ← spliceFront c.list e.it
  let it ← listBegin list
  let e := { e with it }
  return (e, { c with list, map := c.map.insert key e })

def touch (now : Int) (key : κ) (c : LRUCache κ α) :
    Checked (Option (Entry κ α) × LRUCache κ α) :=
  match c.map.lookup key with
  | none => .ok (none, c)
  | some e =>
    if 0 < c.ttlSeconds ∧ now > e.expiresAt then do
      let c ← c.remove key e
      return (none, c)
    else do
      let (e, c) ← c.promote key e
      return (some e, c)

/-- The borrowed buffer and its length, or a miss. -/
def get (now : Int) (key : κ) (c : LRUCache κ α) :
    Checked (Option (List α × Int) × LRUCache κ α) := do
  let (e, c) ← c.touch now key
  return (e.map fun e => (e.vec, e.dim), c)

/-- What the copying lookup reports: its code, the stored dimension on a hit and
the values it copied out. -/
structure CopyResult (α : Type) where
  code : Int
  dim : Option Int
  copied : Option (List α)
  deriving DecidableEq, Repr

/-- `out` says whether the caller passed a buffer, `room` how much it holds. -/
def getCopy (now : Int) (key : κ) (out : Bool) (room : Int) (c : LRUCache κ α) :
    Checked (CopyResult α × LRUCache κ α) := do
  let (e, c) ← c.touch now key
  match e with
  | none => return (⟨0, none, none⟩, c)
  | some e =>
    if !out ∨ room < e.dim then return (⟨-1, some e.dim, none⟩, c)
    else return (⟨1, some e.dim, some e.vec⟩, c)

/-- The overload that assigns a `std::vector`; an empty value counts as a miss. -/
def getCopyVec (now : Int) (key : κ) (c : LRUCache κ α) :
    Checked (Option (List α) × LRUCache κ α) := do
  let (hit, c) ← c.get now key
  match hit with
  | some (vec, dim) => if dim ≤ 0 then return (none, c) else return (some vec, c)
  | none => return (none, c)

def evictLast (c : LRUCache κ α) : Checked (LRUCache κ α) := do
  let last ← listBack c.list
  c.removeByIterator last

def put (now : Int) (key : κ) (vec : List α) (c : LRUCache κ α) : Checked (LRUCache κ α) := do
  if c.capacity = 0 then return c
  let expiresAt := if 0 < c.ttlSeconds then now + c.ttlSeconds else 0
  match c.map.lookup key with
  | some e =>
    let (_, c) ← c.promote key { e with vec, expiresAt }
    return c
  | none =>
    let c ← if c.capacity ≤ c.map.keys.length then c.evictLast else pure c
    let list := ⟨c.nextNode, key⟩ :: c.list
    let it ← listBegin list
    return { c with list, map := c.map.insert key ⟨it, key, vec, expiresAt⟩,
                    nextNode := c.nextNode + 1 }

def clear (c : LRUCache κ α) : LRUCache κ α := { c with list := [], map := ∅ }

def size (c : LRUCache κ α) : Nat := c.map.keys.length

-- ---------------------------------------------------------------------------
-- The invariant
-- ---------------------------------------------------------------------------

/-- The recency list and the map have the same keys, each once, and the iterator
an entry stores points at the node of its own key. -/
structure Inv (c : LRUCache κ α) : Prop where
  idsNodup : (c.list.map Node.id).Nodup
  idsFresh : ∀ n ∈ c.list, n.id < c.nextNode
  keysNodup : (c.list.map Node.key).Nodup
  mapped : ∀ k, k ∈ c.map ↔ k ∈ c.list.map Node.key
  linked : ∀ k e, c.map.lookup k = some e → ⟨e.it, k⟩ ∈ c.list ∧ e.key = k
  bounded : c.list.length ≤ c.capacity

theorem eraseP_eq_filter {l : List β} {f : β → γ} {g : β → δ} [DecidableEq γ] [DecidableEq δ]
    (hf : (l.map f).Nodup) (hg : (l.map g).Nodup) (ha : a ∈ l) :
    l.eraseP (f · = f a) = l.filter (g · ≠ g a) := by
  induction l with
  | nil => simp at ha
  | cons b l ih =>
    simp only [List.map_cons, List.nodup_cons, List.mem_map, not_exists, not_and] at hf hg
    rcases List.mem_cons.mp ha with rfl | hm
    · have hkeep : l.filter (g · ≠ g a) = l :=
        List.filter_eq_self.mpr fun x hx => by simpa using hg.1 x hx
      rw [List.eraseP_cons_of_pos (by simp), List.filter_cons_of_neg (by simp), hkeep]
    · have hfb : f b ≠ f a := fun h => hf.1 a hm h.symm
      have hgb : g b ≠ g a := fun h => hg.1 a hm h.symm
      rw [List.eraseP_cons_of_neg (by simpa using hfb),
        List.filter_cons_of_pos (by simpa using hgb), ih hf.2 hg.2 hm]

theorem find?_of_nodup {l : List β} {f : β → γ} [DecidableEq γ] (hf : (l.map f).Nodup)
    (ha : a ∈ l) : l.find? (f · = f a) = some a := by
  induction l with
  | nil => simp at ha
  | cons b l ih =>
    simp only [List.map_cons, List.nodup_cons, List.mem_map, not_exists, not_and] at hf
    rcases List.mem_cons.mp ha with rfl | hm
    · simp
    · have hfb : f b ≠ f a := fun h => hf.1 a hm h.symm
      rw [List.find?_cons_of_neg (by simpa using hfb), ih hf.2 hm]

theorem filter_ne_last {l : List β} {g : β → δ} [DecidableEq δ] (hg : (l.map g).Nodup)
    (ha : l.getLast? = some a) : l.filter (g · ≠ g a) = l.dropLast := by
  obtain ⟨init, rfl⟩ := List.getLast?_eq_some_iff.mp ha
  have hinit : ∀ x ∈ init, g x ≠ g a := by
    simp only [List.map_append, List.nodup_append] at hg
    intro x hx
    exact hg.2.2 _ (List.mem_map_of_mem hx) _ (by simp)
  rw [List.filter_append, List.dropLast_concat, List.filter_eq_self.mpr (by simpa using hinit)]
  simp

/-- The state after the entry under `key` is removed. -/
def dropped (c : LRUCache κ α) (key : κ) : LRUCache κ α :=
  { c with list := c.list.filter (·.key ≠ key), map := c.map.erase key }

/-- The state after the entry under `key` becomes `e`, in front of the list. -/
def fronted (c : LRUCache κ α) (key : κ) (e : Entry κ α) : LRUCache κ α :=
  { c with list := ⟨e.it, key⟩ :: c.list.filter (·.key ≠ key), map := c.map.insert key e }

theorem Inv.eraseP {c : LRUCache κ α} (hi : Inv c) (h : c.map.lookup key = some e) :
    c.list.eraseP (·.id = e.it) = c.list.filter (·.key ≠ key) :=
  eraseP_eq_filter hi.idsNodup hi.keysNodup (hi.linked _ _ h).1

theorem Inv.remove {c : LRUCache κ α} (hi : Inv c) (h : c.map.lookup key = some e) :
    c.remove key e = .ok (c.dropped key) := by
  have hn : ∃ n ∈ c.list, n.id = e.it := ⟨_, (hi.linked _ _ h).1, rfl⟩
  simp only [LRUCache.remove, eraseNode, ensure_pos hn, ok_bind, hi.eraseP h]
  rfl

theorem Inv.spliceFront {c : LRUCache κ α} (hi : Inv c) (h : c.map.lookup key = some e) :
    spliceFront c.list e.it = .ok (⟨e.it, key⟩ :: c.list.filter (·.key ≠ key)) := by
  have hf : c.list.find? (·.id = e.it) = some ⟨e.it, key⟩ :=
    find?_of_nodup hi.idsNodup (hi.linked _ _ h).1
  simp only [LibEmbedding.spliceFront, hf, hi.eraseP h]

theorem Inv.promote {c : LRUCache κ α} (hi : Inv c) (h : c.map.lookup key = some e)
    (hit : e'.it = e.it) : c.promote key e' = .ok (e', c.fronted key e') := by
  cases e'
  cases hit
  simp only [LRUCache.promote, hi.spliceFront h, ok_bind, listBegin, List.head?_cons]
  rfl

theorem Inv.empty (capacity : Nat) (ttl : Int) : Inv (new capacity ttl : LRUCache κ α) :=
  ⟨by simp [new], by simp [new], by simp [new], by simp [new], by simp [new], by simp [new]⟩

theorem Inv.clear {c : LRUCache κ α} : Inv c.clear :=
  ⟨by simp [LRUCache.clear], by simp [LRUCache.clear], by simp [LRUCache.clear],
    by simp [LRUCache.clear], by simp [LRUCache.clear], by simp [LRUCache.clear]⟩

theorem Inv.dropped {c : LRUCache κ α} (hi : Inv c) (key : κ) : Inv (c.dropped key) where
  idsNodup := hi.idsNodup.sublist (List.filter_sublist.map _)
  idsFresh n hn := hi.idsFresh n (List.mem_of_mem_filter hn)
  keysNodup := hi.keysNodup.sublist (List.filter_sublist.map _)
  mapped k := by
    have := hi.mapped k
    simp only [LRUCache.dropped, AList.mem_erase, this, List.mem_map, List.mem_filter]
    constructor
    · rintro ⟨hk, n, hn, rfl⟩
      exact ⟨n, ⟨hn, by simpa using hk⟩, rfl⟩
    · rintro ⟨n, ⟨hn, hk⟩, rfl⟩
      exact ⟨by simpa using hk, n, hn, rfl⟩
  linked k e h := by
    by_cases hk : k = key
    · subst hk
      simp only [LRUCache.dropped, AList.lookup_erase] at h
      cases h
    · simp only [LRUCache.dropped, AList.lookup_erase_ne hk] at h
      obtain ⟨hm, he⟩ := hi.linked k e h
      exact ⟨List.mem_filter.mpr ⟨hm, by simpa using hk⟩, he⟩
  bounded := le_trans (List.length_filter_le ..) hi.bounded

/-- A node in front of the others, under a key none of them has. -/
theorem Inv.cons {c : LRUCache κ α} (hi : Inv c) (hkey : key ∉ c.map) (he : e.key = key)
    (hid : e.it ∉ c.list.map Node.id) (hfresh : e.it < next) (hnext : c.nextNode ≤ next)
    (hroom : c.list.length < c.capacity) :
    Inv { c with list := ⟨e.it, key⟩ :: c.list, map := c.map.insert key e, nextNode := next } where
  idsNodup := List.nodup_cons.mpr ⟨hid, hi.idsNodup⟩
  idsFresh n hn := by
    rcases List.mem_cons.mp hn with rfl | hn
    · exact hfresh
    · exact lt_of_lt_of_le (hi.idsFresh n hn) hnext
  keysNodup := List.nodup_cons.mpr ⟨fun hm => hkey ((hi.mapped key).mpr hm), hi.keysNodup⟩
  mapped k := by simp [hi.mapped k]
  linked k x h := by
    by_cases hk : k = key
    · subst hk
      cases (AList.lookup_insert c.map).symm.trans h
      exact ⟨List.mem_cons_self, he⟩
    · rw [AList.lookup_insert_ne hk] at h
      obtain ⟨hm, hx⟩ := hi.linked k x h
      exact ⟨List.mem_cons_of_mem _ hm, hx⟩
  bounded := hroom

theorem AList.insert_erase {m : UMap κ ν} : (m.erase k).insert k v = m.insert k v := by
  have hk : k ∉ (List.kerase k m.entries).keys := List.notMem_keys_kerase k m.nodupKeys
  apply AList.ext
  exact congrArg (List.cons ⟨k, v⟩) (List.kerase_of_notMem_keys hk)

theorem Inv.fronted {c : LRUCache κ α} (hi : Inv c) (h : c.map.lookup key = some old)
    (hit : e.it = old.it) (he : e.key = key) : Inv (c.fronted key e) := by
  have hmem := (hi.linked _ _ h).1
  have hlt : (c.dropped key).list.length < c.list.length :=
    List.length_filter_lt_length_iff_exists.mpr ⟨_, hmem, by simp⟩
  have hid : e.it ∉ (c.dropped key).list.map Node.id := by
    simp only [LRUCache.dropped, List.mem_map, List.mem_filter, not_exists, not_and]
    rintro n ⟨hn, hk⟩ heq
    have hsame := List.inj_on_of_nodup_map hi.idsNodup hn hmem (heq.trans hit)
    simp [hsame] at hk
  have hfresh : e.it < c.nextNode := hit ▸ hi.idsFresh _ hmem
  have hcons := (hi.dropped key).cons (by simp [LRUCache.dropped]) he hid hfresh le_rfl
    (lt_of_lt_of_le hlt hi.bounded)
  simpa [LRUCache.fronted, LRUCache.dropped, AList.insert_erase] using hcons

end LRUCache

end LibEmbedding
