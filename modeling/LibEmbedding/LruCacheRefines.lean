import LibEmbedding.LruCache

/-!
# The embedding cache is a least recently used map

`LRUCache.Refines` relates a cache to the reference map with the same entries
in the same order. Each operation on related states succeeds, reports what the
reference reports and leads to related states, hence so does every run from the
empty cache.
-/

namespace LibEmbedding

open Foundation

namespace LRUCache

variable {κ α : Type} [DecidableEq κ]

/-- The reference entry a list node stands for. -/
def entryOf (c : LRUCache κ α) (n : Node κ) : Option (LruEntry κ (List α)) :=
  (c.map.lookup n.key).map fun e => ⟨n.key, e.vec, e.expiresAt⟩

structure Refines (c : LRUCache κ α) (s : LruMap κ (List α)) : Prop where
  inv : Inv c
  capacity : s.capacity = c.capacity
  ttl : s.ttl = c.ttlSeconds
  entries : s.entries = c.list.filterMap c.entryOf

theorem Refines.empty (capacity : Nat) (ttl : Int) :
    Refines (new capacity ttl : LRUCache κ α) (.empty capacity ttl) :=
  ⟨.empty capacity ttl, rfl, rfl, rfl⟩

theorem Refines.clear {c : LRUCache κ α} (h : Refines c s) : Refines c.clear s.clear :=
  ⟨.clear, h.capacity, h.ttl, rfl⟩

theorem Refines.keys {c : LRUCache κ α} (h : Refines c s) :
    s.entries.map LruEntry.key = c.list.map Node.key := by
  have hmap : ∀ l : List (Node κ), (∀ n ∈ l, n.key ∈ c.map) →
      (l.filterMap c.entryOf).map LruEntry.key = l.map Node.key := by
    intro l hl
    induction l with
    | nil => rfl
    | cons n l ih =>
      obtain ⟨e, he⟩ := Option.isSome_iff_exists.mp
        (AList.lookup_isSome.mpr (hl n List.mem_cons_self))
      have hn : c.entryOf n = some ⟨n.key, e.vec, e.expiresAt⟩ := by simp [entryOf, he]
      rw [List.filterMap_cons_some hn, List.map_cons, List.map_cons,
        ih fun n hn => hl n (List.mem_cons_of_mem _ hn)]
  rw [h.entries]
  exact hmap c.list fun n hn => (h.inv.mapped n.key).mpr (List.mem_map_of_mem hn)

theorem Refines.find {c : LRUCache κ α} (h : Refines c s) (key : κ) :
    s.find key = (c.map.lookup key).map fun e => ⟨key, e.vec, e.expiresAt⟩ := by
  cases hl : c.map.lookup key with
  | none =>
    rw [Option.map_none, LruMap.find_none, h.keys, ← h.inv.mapped]
    exact AList.lookup_eq_none.mp hl
  | some e =>
    have hmem : (⟨key, e.vec, e.expiresAt⟩ : LruEntry κ (List α)) ∈ s.entries := by
      rw [h.entries]
      exact List.mem_filterMap.mpr ⟨_, (h.inv.linked _ _ hl).1, by simp [entryOf, hl]⟩
    exact find?_of_nodup s.nodup hmem

/-- Filtering the nodes by key filters the entries by key, whatever the map
holds under the dropped key. -/
theorem Refines.others {c : LRUCache κ α} (h : Refines c s) {m : UMap κ (Entry κ α)}
    (hm : ∀ k, k ≠ key → m.lookup k = c.map.lookup k) :
    s.others key = (c.list.filter (·.key ≠ key)).filterMap
      fun n => (m.lookup n.key).map fun e => ⟨n.key, e.vec, e.expiresAt⟩ := by
  rw [LruMap.others, h.entries, List.filter_filterMap, List.filterMap_filter]
  apply List.filterMap_congr
  intro n _
  by_cases hk : n.key = key
  · cases hl : c.map.lookup n.key <;> simp [entryOf, hk, hl, Option.filter]
  · cases hl : c.map.lookup n.key <;> simp [entryOf, hk, hl, hm n.key hk, Option.filter]

theorem Refines.dropped {c : LRUCache κ α} (h : Refines c s) (key : κ) :
    Refines (c.dropped key) (s.drop key) where
  inv := h.inv.dropped key
  capacity := h.capacity
  ttl := h.ttl
  entries := h.others fun _ hk => AList.lookup_erase_ne hk

theorem Refines.fronted {c : LRUCache κ α} (h : Refines c s) (hl : c.map.lookup key = some old)
    (hit : e.it = old.it) (he : e.key = key) {x : LruEntry κ (List α)}
    (hx : x = ⟨key, e.vec, e.expiresAt⟩) (found : LruEntry κ (List α))
    (hs : s.find x.key = some found) : Refines (c.fronted key e) (s.promote x hs) where
  inv := h.inv.fronted hl hit he
  capacity := h.capacity
  ttl := h.ttl
  entries := by
    subst hx
    have hself : (c.fronted key e).entryOf ⟨e.it, key⟩ = some ⟨key, e.vec, e.expiresAt⟩ := by
      simp [entryOf, LRUCache.fronted]
    have hrest := h.others (m := c.map.insert key e) fun _ hk => AList.lookup_insert_ne hk
    exact (congrArg _ hrest).trans (List.filterMap_cons_some hself).symm

-- ---------------------------------------------------------------------------
-- One operation
-- ---------------------------------------------------------------------------

theorem Refines.touch {c : LRUCache κ α} (h : Refines c s) (now : Int) (key : κ) :
    ∃ hit c', c.touch now key = .ok (hit, c') ∧
      hit.map Entry.vec = (s.touch now key).1 ∧ Refines c' (s.touch now key).2 := by
  cases hl : c.map.lookup key with
  | none =>
    have hf : s.find key = none := by rw [h.find, hl]; rfl
    rw [LruMap.touch_none hf]
    exact ⟨none, c, by simp [LRUCache.touch, hl], rfl, h⟩
  | some e =>
    have hf : s.find key = some ⟨key, e.vec, e.expiresAt⟩ := by rw [h.find, hl]; rfl
    rw [LruMap.touch_some hf]
    by_cases hexp : 0 < c.ttlSeconds ∧ now > e.expiresAt
    · have hs : s.Expired now ⟨key, e.vec, e.expiresAt⟩ := by
        simpa [LruMap.Expired, h.ttl] using hexp
      rw [if_pos hs]
      refine ⟨none, c.dropped key, ?_, rfl, h.dropped key⟩
      simp only [LRUCache.touch, hl, if_pos hexp, h.inv.remove hl, ok_bind]
      rfl
    · have hs : ¬s.Expired now ⟨key, e.vec, e.expiresAt⟩ := by
        simpa [LruMap.Expired, h.ttl] using hexp
      rw [if_neg hs]
      have he := (h.inv.linked _ _ hl).2
      refine ⟨some e, c.fronted key e, ?_, rfl, h.fronted hl rfl he rfl _ hf⟩
      simp only [LRUCache.touch, hl, if_neg hexp, h.inv.promote hl rfl, ok_bind]
      rfl

theorem Refines.size {c : LRUCache κ α} (h : Refines c s) : c.size = s.entries.length := by
  have hperm : c.map.keys.Perm (c.list.map Node.key) :=
    (List.perm_ext_iff_of_nodup c.map.keys_nodup h.inv.keysNodup).mpr fun k =>
      AList.mem_keys.symm.trans (h.inv.mapped k)
  rw [LRUCache.size, hperm.length_eq, ← h.keys, List.length_map]

/-- At capacity the key of the last node is removed: the least recent entry. -/
theorem Refines.evict {c : LRUCache κ α} (h : Refines c s) (hc : s.capacity ≠ 0)
    (hfull : c.capacity ≤ c.map.keys.length) :
    ∃ last, c.evictLast = .ok (c.dropped last) ∧ (s.drop last).entries = s.room := by
  have hlen : s.capacity ≤ s.entries.length := by rw [h.capacity, ← h.size]; exact hfull
  obtain ⟨x, hx⟩ : ∃ x, s.entries.getLast? = some x := by
    rw [← Option.isSome_iff_exists, List.getLast?_isSome]
    rintro hnil
    simp [hnil] at hlen
    omega
  have hkeys := congrArg List.getLast? h.keys
  rw [List.getLast?_map, List.getLast?_map, hx] at hkeys
  obtain ⟨n, hn, hnk⟩ := Option.map_eq_some_iff.mp hkeys.symm
  have hmem : n.key ∈ c.map :=
    (h.inv.mapped _).mpr (List.mem_map_of_mem (List.mem_of_getLast? hn))
  obtain ⟨e, he⟩ := Option.isSome_iff_exists.mp (AList.lookup_isSome.mpr hmem)
  refine ⟨n.key, ?_, ?_⟩
  · simp only [evictLast, listBack, hn, ok_bind, removeByIterator, he, h.inv.remove he]
  · rw [LruMap.room, if_pos hlen, hnk]
    exact filter_ne_last s.nodup hx

theorem Refines.push {c : LRUCache κ α} (h : Refines c s) (hkey : key ∉ c.map)
    (hroom : c.list.length < c.capacity) (vec : List α) (exp : Int) {t : LruMap κ (List α)}
    (hcap : t.capacity = s.capacity) (httl : t.ttl = s.ttl)
    (ht : t.entries = ⟨key, vec, exp⟩ :: s.entries) :
    Refines { c with list := ⟨c.nextNode, key⟩ :: c.list,
                     map := c.map.insert key ⟨c.nextNode, key, vec, exp⟩,
                     nextNode := c.nextNode + 1 } t where
  inv := by
    have hid : c.nextNode ∉ c.list.map Node.id := by
      intro hm
      obtain ⟨n, hn, he⟩ := List.mem_map.mp hm
      exact absurd (h.inv.idsFresh n hn) (by omega)
    exact h.inv.cons (e := ⟨c.nextNode, key, vec, exp⟩) hkey rfl hid
      (Nat.lt_succ_self c.nextNode) (Nat.le_succ c.nextNode) hroom
  capacity := hcap.trans h.capacity
  ttl := httl.trans h.ttl
  entries := by
    have hnot : ∀ n ∈ c.list, n.key ≠ key := by
      rintro n hn rfl
      exact hkey ((h.inv.mapped _).mpr (List.mem_map_of_mem hn))
    rw [ht, h.entries, List.filterMap_cons_some (b := ⟨key, vec, exp⟩) (by simp [entryOf])]
    congr 1
    apply List.filterMap_congr
    intro n hn
    simp [entryOf, AList.lookup_insert_ne (hnot n hn)]

theorem Refines.put {c : LRUCache κ α} (h : Refines c s) (now : Int) (key : κ) (vec : List α) :
    ∃ c', c.put now key vec = .ok c' ∧ Refines c' (s.put now key vec) := by
  by_cases hc : c.capacity = 0
  · exact ⟨c, by simp [LRUCache.put, hc]; rfl, by simpa [LruMap.put, h.capacity, hc] using h⟩
  have hs : s.capacity ≠ 0 := h.capacity ▸ hc
  have hstamp : s.stamp now = if 0 < c.ttlSeconds then now + c.ttlSeconds else 0 := by
    simp [LruMap.stamp, h.ttl]
  cases hl : c.map.lookup key with
  | some e =>
    have hf : s.find key = some ⟨key, e.vec, e.expiresAt⟩ := by rw [h.find, hl]; rfl
    have he := (h.inv.linked _ _ hl).2
    let e' : Entry κ α := { e with vec, expiresAt := s.stamp now }
    refine ⟨c.fronted key e', ?_, ?_⟩
    · have hp : c.promote key e' = .ok (e', c.fronted key e') := h.inv.promote hl rfl
      simp only [LRUCache.put, if_neg hc, hl, ← hstamp]
      rw [hp]
      rfl
    · rw [LruMap.put_some hs hf]
      exact h.fronted (e := e') hl rfl he rfl _ hf
  | none =>
    have hf : s.find key = none := by rw [h.find, hl]; rfl
    have hkey : key ∉ c.map := AList.lookup_eq_none.mp hl
    have hlen : s.entries.length = c.list.length := by
      simpa using congrArg List.length h.keys
    have hput : (s.put now key vec).entries = ⟨key, vec, s.stamp now⟩ :: s.room := by
      rw [LruMap.put_entries hs, hf]; rfl
    by_cases hfull : c.capacity ≤ c.map.keys.length
    · obtain ⟨last, hevict, hroom⟩ := h.evict hs hfull
      have hd := h.dropped last
      have hdlen : (c.dropped last).list.length < (c.dropped last).capacity := by
        have hk := congrArg List.length hd.keys
        rw [List.length_map, List.length_map, hroom] at hk
        rw [← hk, ← hd.capacity]
        exact s.length_room_lt hs
      refine ⟨_, ?_, hd.push (fun hm => hkey (AList.mem_erase.mp hm).2) hdlen vec (s.stamp now)
        (LruMap.put_capacity ..) (LruMap.put_ttl ..) (hroom ▸ hput)⟩
      simp only [LRUCache.put, if_neg hc, hl, if_pos hfull, hevict, ok_bind, hstamp]
      rfl
    · refine ⟨_, ?_, h.push hkey ?_ vec (s.stamp now) (LruMap.put_capacity ..)
        (LruMap.put_ttl ..) ?_⟩
      · simp only [LRUCache.put, if_neg hc, hl, if_neg hfull, hstamp]
        rfl
      · rw [← hlen, ← h.size]; exact Nat.lt_of_not_le hfull
      · rw [hput, LruMap.room, if_neg]
        rw [h.capacity, ← h.size]; exact hfull

/-- What a copying lookup reports of a found value. -/
def copyReport (out : Bool) (room : Int) : Option (List α) → CopyResult α
  | none => ⟨0, none, none⟩
  | some vec =>
    if out ∧ (vec.length : Int) ≤ room then ⟨1, some vec.length, some vec⟩
    else ⟨-1, some vec.length, none⟩

theorem Refines.get {c : LRUCache κ α} (h : Refines c s) (now : Int) (key : κ) :
    ∃ c', c.get now key = .ok ((s.touch now key).1.map fun vec => (vec, (vec.length : Int)), c') ∧
      Refines c' (s.touch now key).2 := by
  obtain ⟨hit, c', htouch, hvec, hr⟩ := h.touch now key
  refine ⟨c', ?_, hr⟩
  rw [LRUCache.get, htouch, ok_bind, ← hvec]
  cases hit <;> rfl

theorem Refines.getCopy {c : LRUCache κ α} (h : Refines c s) (now : Int) (key : κ) (out : Bool)
    (room : Int) :
    ∃ c', c.getCopy now key out room = .ok (copyReport out room (s.touch now key).1, c') ∧
      Refines c' (s.touch now key).2 := by
  obtain ⟨hit, c', htouch, hvec, hr⟩ := h.touch now key
  refine ⟨c', ?_, hr⟩
  rw [LRUCache.getCopy, htouch, ok_bind, ← hvec]
  cases hit with
  | none => rfl
  | some e =>
    by_cases hfit : out = true ∧ (e.vec.length : Int) ≤ room
    · have hno : ¬((!out) = true ∨ room < e.dim) := by
        simp [Entry.dim, hfit.1, hfit.2]
      simp only [if_neg hno, copyReport, Option.map_some, if_pos hfit]
      rfl
    · have hyes : (!out) = true ∨ room < e.dim := by
        cases out
        · exact .inl rfl
        · exact .inr (not_le.mp fun hle => hfit ⟨rfl, hle⟩)
      simp only [if_pos hyes, copyReport, Option.map_some, if_neg hfit]
      rfl

theorem Refines.getCopyVec {c : LRUCache κ α} (h : Refines c s) (now : Int) (key : κ) :
    ∃ c', c.getCopyVec now key = .ok ((s.touch now key).1.filter (· ≠ []), c') ∧
      Refines c' (s.touch now key).2 := by
  obtain ⟨c', hget, hr⟩ := h.get now key
  refine ⟨c', ?_, hr⟩
  rw [LRUCache.getCopyVec, hget, ok_bind]
  cases (s.touch now key).1 with
  | none => rfl
  | some vec => cases vec <;> simp [Option.filter, pure, Except.pure]

/-- What a lookup would return. -/
def peek (now : Int) (key : κ) (c : LRUCache κ α) : Option (List α) :=
  match c.getCopyVec now key with
  | .ok (hit, _) => hit
  | .error _ => none

theorem Refines.peek {c : LRUCache κ α} (h : Refines c s) (now : Int) (key : κ) :
    c.peek now key = (s.touch now key).1.filter (· ≠ []) := by
  obtain ⟨c', hget, -⟩ := h.getCopyVec now key
  rw [LRUCache.peek, hget]

/-- A lookup does not change what others at the same time return. -/
theorem Refines.peek_getCopyVec {c c' : LRUCache κ α} (h : Refines c s) (key : κ)
    (hget : c.getCopyVec now key = .ok (hit, c')) :
    (∃ s', Refines c' s') ∧ ∀ other, c'.peek now other = c.peek now other := by
  obtain ⟨c'', hget', hr⟩ := h.getCopyVec now key
  cases hget.symm.trans hget'
  refine ⟨⟨_, hr⟩, fun other => ?_⟩
  rw [hr.peek, h.peek, LruMap.touch_touch]

-- ---------------------------------------------------------------------------
-- A cache that serves a relation
-- ---------------------------------------------------------------------------

/-- Every value the cache can return is related to the key it is returned for. -/
def Serves (P : κ → List α → Prop) (c : LRUCache κ α) : Prop := ∃ s, Refines c s ∧ s.Holds P

theorem Serves.new (P : κ → List α → Prop) (capacity : Nat) (ttl : Int) :
    Serves P (new capacity ttl) :=
  ⟨_, .empty capacity ttl, LruMap.holds_empty P capacity ttl⟩

theorem Serves.getCopyVec {P : κ → List α → Prop} {c : LRUCache κ α} (h : Serves P c) (now : Int)
    (key : κ) : ∃ hit c', c.getCopyVec now key = .ok (hit, c') ∧ Serves P c' ∧
      ∀ v, hit = some v → P key v := by
  obtain ⟨s, hr, hs⟩ := h
  obtain ⟨c', hget, hr'⟩ := hr.getCopyVec now key
  refine ⟨_, c', hget, ⟨_, hr', hs.touch.1⟩, ?_⟩
  intro v hv
  exact hs.touch.2 v (Option.eq_some_of_filter_eq_some hv)

theorem Serves.put {P : κ → List α → Prop} {c : LRUCache κ α} (h : Serves P c) (now : Int)
    (hv : P key vec) : ∃ c', c.put now key vec = .ok c' ∧ Serves P c' := by
  obtain ⟨s, hr, hs⟩ := h
  obtain ⟨c', hput, hr'⟩ := hr.put now key vec
  exact ⟨c', hput, _, hr', hs.put hv⟩

-- ---------------------------------------------------------------------------
-- Runs
-- ---------------------------------------------------------------------------

inductive Op (κ α : Type) where
  | get (key : κ)
  | getCopy (key : κ) (out : Bool) (room : Int)
  | getCopyVec (key : κ)
  | put (key : κ) (vec : List α)
  | clear
  | size
  deriving DecidableEq, Repr

inductive Reply (α : Type) where
  | borrowed (hit : Option (List α × Int))
  | copied (result : CopyResult α)
  | assigned (vec : Option (List α))
  | done
  | size (n : Nat)
  deriving DecidableEq, Repr

/-- One call of the cache at the time `now`. -/
def step (now : Int) (op : Op κ α) (c : LRUCache κ α) : Checked (Reply α × LRUCache κ α) :=
  match op with
  | .get key => do
    let (hit, c) ← c.get now key
    return (.borrowed hit, c)
  | .getCopy key out room => do
    let (result, c) ← c.getCopy now key out room
    return (.copied result, c)
  | .getCopyVec key => do
    let (vec, c) ← c.getCopyVec now key
    return (.assigned vec, c)
  | .put key vec => do
    let c ← c.put now key vec
    return (.done, c)
  | .clear => .ok (.done, c.clear)
  | .size => .ok (.size c.size, c)

def run : List (Int × Op κ α) → LRUCache κ α → Checked (List (Reply α) × LRUCache κ α)
  | [], c => .ok ([], c)
  | (now, op) :: ops, c => do
    let (reply, c) ← c.step now op
    let (replies, c) ← run ops c
    return (reply :: replies, c)

/-- The same call on the reference map. -/
def refStep (now : Int) (op : Op κ α) (s : LruMap κ (List α)) : Reply α × LruMap κ (List α) :=
  match op with
  | .get key =>
    let (hit, s) := s.touch now key
    (.borrowed (hit.map fun vec => (vec, (vec.length : Int))), s)
  | .getCopy key out room =>
    let (hit, s) := s.touch now key
    (.copied (copyReport out room hit), s)
  | .getCopyVec key =>
    let (hit, s) := s.touch now key
    (.assigned (hit.filter (· ≠ [])), s)
  | .put key vec => (.done, s.put now key vec)
  | .clear => (.done, s.clear)
  | .size => (.size s.entries.length, s)

def refRun : List (Int × Op κ α) → LruMap κ (List α) → List (Reply α) × LruMap κ (List α)
  | [], s => ([], s)
  | (now, op) :: ops, s =>
    let (reply, s) := refStep now op s
    let (replies, s) := refRun ops s
    (reply :: replies, s)

/-- The value of the last put under each key since the last clear. -/
def record (last : κ → Option (List α)) : Op κ α → κ → Option (List α)
  | .put key vec => Function.update last key (some vec)
  | .clear => fun _ => none
  | _ => last

def lastPut (ops : List (Int × Op κ α)) : κ → Option (List α) :=
  ops.foldl (fun last op => record last op.2) fun _ => none

/-- One call on related states: same reply, related states. -/
theorem Refines.step {c : LRUCache κ α} (h : Refines c s) (now : Int) (op : Op κ α) :
    ∃ c', c.step now op = .ok ((refStep now op s).1, c') ∧ Refines c' (refStep now op s).2 := by
  cases op with
  | get key =>
    obtain ⟨c', hget, hr⟩ := h.get now key
    exact ⟨c', by simp only [LRUCache.step, hget]; rfl, hr⟩
  | getCopy key out room =>
    obtain ⟨c', hget, hr⟩ := h.getCopy now key out room
    exact ⟨c', by simp only [LRUCache.step, hget]; rfl, hr⟩
  | getCopyVec key =>
    obtain ⟨c', hget, hr⟩ := h.getCopyVec now key
    exact ⟨c', by simp only [LRUCache.step, hget]; rfl, hr⟩
  | put key vec =>
    obtain ⟨c', hput, hr⟩ := h.put now key vec
    exact ⟨c', by simp only [LRUCache.step, hput]; rfl, hr⟩
  | clear => exact ⟨c.clear, rfl, h.clear⟩
  | size => exact ⟨c, by simp only [LRUCache.step, h.size]; rfl, h⟩

theorem Holds.refStep {last : κ → Option (List α)} {s : LruMap κ (List α)}
    (h : s.Holds fun k v => last k = some v) (now : Int) (op : Op κ α) :
    (refStep now op s).2.Holds fun k v => record last op k = some v := by
  cases op with
  | get key => exact h.touch.1
  | getCopy key out room => exact h.touch.1
  | getCopyVec key => exact h.touch.1
  | put key vec =>
    refine (h.of_ne_put (Q := fun k v => record last (.put key vec) k = some v) ?_ ?_)
    · intro k v hk hv
      simpa [record, Function.update_of_ne hk] using hv
    · simp [record]
  | clear => exact LruMap.Holds.clear s
  | size => exact h

theorem refStep_capacity (now : Int) (op : Op κ α) (s : LruMap κ (List α)) :
    (refStep now op s).2.capacity = s.capacity := by
  cases op with
  | get key => exact s.touch_capacity now key
  | getCopy key out room => exact s.touch_capacity now key
  | getCopyVec key => exact s.touch_capacity now key
  | put key vec => exact s.put_capacity now key vec
  | clear => rfl
  | size => rfl

theorem refRun_capacity (ops : List (Int × Op κ α)) (s : LruMap κ (List α)) :
    (refRun ops s).2.capacity = s.capacity := by
  induction ops generalizing s with
  | nil => rfl
  | cons op ops ih => exact (ih _).trans (refStep_capacity op.1 op.2 s)

theorem Refines.run {c : LRUCache κ α} (h : Refines c s) {last : κ → Option (List α)}
    (hlast : s.Holds fun k v => last k = some v) (ops : List (Int × Op κ α)) :
    ∃ c', c.run ops = .ok ((refRun ops s).1, c') ∧ Refines c' (refRun ops s).2 ∧
      (refRun ops s).2.Holds fun k v =>
        ops.foldl (fun last op => record last op.2) last k = some v := by
  induction ops generalizing c s last with
  | nil => exact ⟨c, rfl, h, hlast⟩
  | cons op ops ih =>
    obtain ⟨now, op⟩ := op
    obtain ⟨c₁, hstep, h₁⟩ := h.step now op
    obtain ⟨c₂, hrun, h₂⟩ := ih h₁ (Holds.refStep hlast now op)
    refine ⟨c₂, ?_, h₂⟩
    simp only [LRUCache.run, hstep, ok_bind, hrun]
    rfl

/-- Every sequence of calls from the empty cache runs through, ends in a state of
the invariant and reports what the reference map reports, whose every entry
stores the last value put under its key. -/
theorem run_refines (capacity : Nat) (ttl : Int) (ops : List (Int × Op κ α)) :
    ∃ c replies s, (new capacity ttl).run ops = .ok (replies, c) ∧
      refRun ops (.empty capacity ttl) = (replies, s) ∧ Inv c ∧ c.size ≤ capacity ∧
      Refines c s ∧ s.Holds fun k v => lastPut ops k = some v := by
  obtain ⟨c, hrun, hr, hlast⟩ := (Refines.empty (κ := κ) (α := α) capacity ttl).run
    (LruMap.holds_empty (fun k v => (fun _ => none) k = some v) capacity ttl) ops
  have hsize : c.size ≤ capacity := by
    rw [hr.size]
    exact (refRun ops _).2.bounded.trans_eq (refRun_capacity ops (.empty capacity ttl))
  exact ⟨c, _, _, hrun, rfl, hr.inv, hsize, hr, hlast⟩

end LRUCache

end LibEmbedding
