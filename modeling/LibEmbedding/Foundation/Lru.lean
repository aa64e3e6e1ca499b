import Mathlib.Data.List.AList
import Mathlib.Tactic

/-!
# Least recently used maps

The reference structure: at most `capacity` entries under distinct keys, in the
order of their last touch, the most recent first. A touch is a successful
lookup or a put. Both facts are fields, so every value of the type has them.

`LruMap.Holds` is the rule for caches in front of a pure function: what every
put stores is what every later lookup returns.
-/

namespace LibEmbedding.Foundation

/-- A finite map whose iteration order nothing depends on. -/
abbrev UMap (κ ν : Type) := AList (fun _ : κ => ν)

structure LruEntry (κ ν : Type) where
  key : κ
  val : ν
  expiresAt : Int
  deriving DecidableEq, Repr

@[ext] structure LruMap (κ ν : Type) where
  capacity : Nat
  ttl : Int
  entries : List (LruEntry κ ν)
  nodup : (entries.map LruEntry.key).Nodup
  bounded : entries.length ≤ capacity

namespace LruMap

variable {κ ν : Type}

def empty (capacity : Nat) (ttl : Int) : LruMap κ ν := ⟨capacity, ttl, [], by simp, by simp⟩

/-- Every entry stores a value that `P` relates to its key. -/
def Holds (P : κ → ν → Prop) (s : LruMap κ ν) : Prop := ∀ e ∈ s.entries, P e.key e.val

theorem holds_empty (P : κ → ν → Prop) (cap : Nat) (ttl : Int) : Holds P (.empty cap ttl) := by
  simp [Holds, empty]

def clear (s : LruMap κ ν) : LruMap κ ν := empty s.capacity s.ttl

theorem Holds.clear {P : κ → ν → Prop} (s : LruMap κ ν) : Holds P s.clear :=
  holds_empty P _ _

/-- Entries kept when a new key arrives: all of them below capacity, all but the
least recent at capacity. -/
def room (s : LruMap κ ν) : List (LruEntry κ ν) :=
  if s.capacity ≤ s.entries.length then s.entries.dropLast else s.entries

theorem room_sublist (s : LruMap κ ν) : s.room.Sublist s.entries := by
  unfold room
  split
  · exact List.dropLast_sublist _
  · exact List.Sublist.refl _

theorem length_room_lt (s : LruMap κ ν) (h : s.capacity ≠ 0) : s.room.length < s.capacity := by
  unfold room
  split
  · have := s.bounded
    rw [List.length_dropLast]
    omega
  · omega

variable [DecidableEq κ]

def find (s : LruMap κ ν) (k : κ) : Option (LruEntry κ ν) := s.entries.find? (·.key = k)

/-- The entries other than the one under `k`, in their order. -/
def others (s : LruMap κ ν) (k : κ) : List (LruEntry κ ν) := s.entries.filter (·.key ≠ k)

theorem find_some {s : LruMap κ ν} (h : s.find k = some e) : e ∈ s.entries ∧ e.key = k :=
  ⟨List.mem_of_find?_eq_some h, by simpa using List.find?_some h⟩

theorem find_none {s : LruMap κ ν} : s.find k = none ↔ k ∉ s.entries.map LruEntry.key := by
  simp [find]

theorem mem_others {s : LruMap κ ν} : e ∈ s.others k ↔ e ∈ s.entries ∧ e.key ≠ k := by
  simp [others]

theorem others_nodup (s : LruMap κ ν) (k : κ) : ((s.others k).map LruEntry.key).Nodup :=
  s.nodup.sublist (List.filter_sublist.map _)

theorem not_mem_others (s : LruMap κ ν) (k : κ) : k ∉ (s.others k).map LruEntry.key := by
  simp [mem_others]

theorem length_others_lt {s : LruMap κ ν} (h : s.find k = some e) :
    (s.others k).length < s.entries.length := by
  obtain ⟨hm, hk⟩ := find_some h
  exact List.length_filter_lt_length_iff_exists.mpr ⟨e, hm, by simpa using hk⟩

def drop (s : LruMap κ ν) (k : κ) : LruMap κ ν where
  capacity := s.capacity
  ttl := s.ttl
  entries := s.others k
  nodup := s.others_nodup k
  bounded := le_trans (List.length_filter_le ..) s.bounded

/-- The entry under the key of `e` becomes `e` and the most recent one. -/
def promote (s : LruMap κ ν) (e : LruEntry κ ν) (h : s.find e.key = some old) : LruMap κ ν where
  capacity := s.capacity
  ttl := s.ttl
  entries := e :: s.others e.key
  nodup := List.nodup_cons.mpr ⟨s.not_mem_others e.key, s.others_nodup e.key⟩
  bounded := le_trans (length_others_lt h) s.bounded

def Expired (s : LruMap κ ν) (now : Int) (e : LruEntry κ ν) : Prop :=
  0 < s.ttl ∧ e.expiresAt < now

instance (s : LruMap κ ν) (now : Int) (e : LruEntry κ ν) : Decidable (s.Expired now e) :=
  inferInstanceAs (Decidable (_ ∧ _))

/-- A lookup: an expired entry is dropped, any other becomes the most recent. -/
def touch (now : Int) (k : κ) (s : LruMap κ ν) : Option ν × LruMap κ ν :=
  match h : s.find k with
  | none => (none, s)
  | some e =>
    if s.Expired now e then (none, s.drop k)
    else (some e.val, s.promote e ((find_some h).2 ▸ h))

def stamp (s : LruMap κ ν) (now : Int) : Int := if 0 < s.ttl then now + s.ttl else 0

def put (now : Int) (k : κ) (v : ν) (s : LruMap κ ν) : LruMap κ ν :=
  if hc : s.capacity = 0 then s else
  match h : s.find k with
  | some _ => s.promote ⟨k, v, s.stamp now⟩ h
  | none =>
    { capacity := s.capacity
      ttl := s.ttl
      entries := ⟨k, v, s.stamp now⟩ :: s.room
      nodup := List.nodup_cons.mpr
        ⟨fun hm => find_none.mp h (s.room_sublist.map _ |>.subset hm),
          s.nodup.sublist (s.room_sublist.map _)⟩
      bounded := s.length_room_lt hc }

theorem touch_none {s : LruMap κ ν} (h : s.find k = none) : s.touch now k = (none, s) := by
  unfold touch
  split <;> simp_all

theorem touch_some {s : LruMap κ ν} (h : s.find k = some e) : s.touch now k =
    if s.Expired now e then (none, s.drop k)
    else (some e.val, s.promote e ((find_some h).2 ▸ h)) := by
  unfold touch
  split
  · simp_all
  · rename_i e' h'
    cases h.symm.trans h'
    rfl

theorem put_some {s : LruMap κ ν} (hc : s.capacity ≠ 0) (h : s.find k = some e) :
    s.put now k v = s.promote ⟨k, v, s.stamp now⟩ h := by
  unfold put
  rw [dif_neg hc]
  split
  · rfl
  · rename_i hnone
    cases h.symm.trans hnone

theorem put_entries {s : LruMap κ ν} (hc : s.capacity ≠ 0) : (s.put now k v).entries =
    ⟨k, v, s.stamp now⟩ :: if (s.find k).isSome then s.others k else s.room := by
  unfold put
  rw [dif_neg hc]
  split <;> simp_all [promote]

@[simp] theorem touch_capacity (s : LruMap κ ν) (now : Int) (k : κ) :
    (s.touch now k).2.capacity = s.capacity := by
  unfold touch
  split
  · rfl
  · split <;> rfl

@[simp] theorem put_capacity (s : LruMap κ ν) (now : Int) (k : κ) (v : ν) :
    (s.put now k v).capacity = s.capacity := by
  unfold put
  split
  · rfl
  · split <;> rfl

@[simp] theorem put_ttl (s : LruMap κ ν) (now : Int) (k : κ) (v : ν) :
    (s.put now k v).ttl = s.ttl := by
  unfold put
  split
  · rfl
  · split <;> rfl

-- ---------------------------------------------------------------------------
-- Several lookups, several puts
-- ---------------------------------------------------------------------------

def touchAll (now : Int) : List κ → LruMap κ ν → List (Option ν) × LruMap κ ν
  | [], s => ([], s)
  | k :: ks, s =>
    let (hit, s) := s.touch now k
    let (hits, s) := touchAll now ks s
    (hit :: hits, s)

def putAll (now : Int) (entries : List (κ × ν)) (s : LruMap κ ν) : LruMap κ ν :=
  entries.foldl (fun s e => s.put now e.1 e.2) s

theorem touchAll_append (now : Int) (ks : List κ) (k : κ) (s : LruMap κ ν) :
    touchAll now (ks ++ [k]) s =
      ((touchAll now ks s).1 ++ [((touchAll now ks s).2.touch now k).1],
        ((touchAll now ks s).2.touch now k).2) := by
  induction ks generalizing s with
  | nil => rfl
  | cons key ks ih => simp only [List.cons_append, touchAll, ih]

@[simp] theorem length_touchAll (now : Int) (ks : List κ) (s : LruMap κ ν) :
    (touchAll now ks s).1.length = ks.length := by
  induction ks generalizing s with
  | nil => rfl
  | cons key ks ih => simp only [touchAll, List.length_cons, ih]

/-- A lookup finds what it finds in the state the lookups before it leave. -/
theorem getElem?_touchAll {ks : List κ} (now : Int) (hk : ks[i]? = some k) (s : LruMap κ ν) :
    (touchAll now ks s).1[i]? = some ((touchAll now (ks.take i) s).2.touch now k).1 := by
  induction ks generalizing s i with
  | nil => simp at hk
  | cons key ks ih =>
    cases i with
    | zero =>
      cases hk
      rfl
    | succ i => simpa [touchAll] using ih (by simpa using hk) (s.touch now key).2

theorem putAll_append (now : Int) (entries : List (κ × ν)) (e : κ × ν) (s : LruMap κ ν) :
    putAll now (entries ++ [e]) s = (putAll now entries s).put now e.1 e.2 := by
  simp [putAll]

-- ---------------------------------------------------------------------------
-- Maps with room
-- ---------------------------------------------------------------------------

/-- What a lookup would return if nothing expired. -/
def value (s : LruMap κ ν) (k : κ) : Option ν := (s.find k).map LruEntry.val

/-- Entries never expire and `n` more of them fit. -/
structure Roomy (n : Nat) (s : LruMap κ ν) : Prop where
  ttl : s.ttl ≤ 0
  fits : s.entries.length + n ≤ s.capacity

theorem find_eq_some_iff {s : LruMap κ ν} : s.find k = some e ↔ e ∈ s.entries ∧ e.key = k := by
  refine ⟨find_some, ?_⟩
  rintro ⟨hm, rfl⟩
  cases h : s.find e.key with
  | none => exact absurd (List.mem_map_of_mem hm) (find_none.mp h)
  | some e' =>
    obtain ⟨hm', hk⟩ := find_some h
    rw [List.inj_on_of_nodup_map s.nodup hm' hm hk]

theorem find_promote {s : LruMap κ ν} (h : s.find e.key = some old) (k : κ) :
    (s.promote e h).find k = if k = e.key then some e else s.find k := by
  split
  · rename_i hk
    subst hk
    exact find_eq_some_iff.mpr ⟨List.mem_cons_self, rfl⟩
  · rename_i hk
    apply Option.ext
    intro x
    rw [find_eq_some_iff, find_eq_some_iff]
    simp only [promote, List.mem_cons, mem_others]
    constructor
    · rintro ⟨rfl | ⟨hx, -⟩, hkey⟩
      · exact absurd hkey.symm hk
      · exact ⟨hx, hkey⟩
    · rintro ⟨hx, hkey⟩
      exact ⟨.inr ⟨hx, fun heq => hk (hkey.symm.trans heq)⟩, hkey⟩

theorem find_drop (s : LruMap κ ν) (h : k ≠ k') : (s.drop k').find k = s.find k := by
  apply Option.ext
  intro x
  rw [find_eq_some_iff, find_eq_some_iff]
  simp only [drop, mem_others]
  constructor
  · rintro ⟨⟨hx, -⟩, hkey⟩
    exact ⟨hx, hkey⟩
  · rintro ⟨hx, hkey⟩
    exact ⟨⟨hx, fun heq => h (hkey.symm.trans heq)⟩, hkey⟩

/-- What a lookup finds depends on the entry under its key. -/
theorem touch_congr {s t : LruMap κ ν} (hfind : t.find k = s.find k) (httl : t.ttl = s.ttl)
    (now : Int) : (t.touch now k).1 = (s.touch now k).1 := by
  cases hf : s.find k with
  | none => rw [touch_none hf, touch_none (hfind.trans hf)]
  | some e =>
    rw [touch_some hf, touch_some (hfind.trans hf)]
    by_cases hexp : s.Expired now e
    · rw [if_pos hexp, if_pos (by rwa [Expired, httl])]
    · rw [if_neg hexp, if_neg (by rwa [Expired, httl])]

/-- Lookups at one time do not change what the others find. -/
theorem touch_touch (s : LruMap κ ν) (now : Int) (k k' : κ) :
    ((s.touch now k').2.touch now k).1 = (s.touch now k).1 := by
  cases hf : s.find k' with
  | none => rw [touch_none hf]
  | some e =>
    obtain ⟨-, rfl⟩ := find_some hf
    by_cases hexp : s.Expired now e
    · rw [touch_some hf, if_pos hexp]
      by_cases hk : k = e.key
      · subst hk
        rw [touch_none (find_none.mpr (not_mem_others s e.key)), touch_some hf, if_pos hexp]
      · exact touch_congr (find_drop s hk) rfl now
    · have hfind : (s.promote e hf).find k = s.find k := by
        rw [find_promote hf]
        split
        · rename_i hk
          rw [hk, hf]
        · rfl
      rw [touch_some hf, if_neg hexp]
      exact touch_congr hfind rfl now

theorem touchAll_touch (ks : List κ) (s : LruMap κ ν) (now : Int) (k : κ) :
    ((touchAll now ks s).2.touch now k).1 = (s.touch now k).1 := by
  induction ks generalizing s with
  | nil => rfl
  | cons key ks ih => exact (ih (s.touch now key).2).trans (touch_touch s now k key)

theorem touch_roomy {s : LruMap κ ν} (h : Roomy n s) (now : Int) (k : κ) :
    (s.touch now k).1 = s.value k ∧ Roomy n (s.touch now k).2 ∧
      ∀ k', (s.touch now k).2.value k' = s.value k' := by
  cases hf : s.find k with
  | none =>
    rw [touch_none hf]
    exact ⟨by simp [value, hf], h, fun _ => rfl⟩
  | some e =>
    have hexp : ¬s.Expired now e := fun hx => absurd hx.1 (not_lt.mpr h.ttl)
    obtain ⟨hm, hk⟩ := find_some hf
    rw [touch_some hf, if_neg hexp]
    refine ⟨by simp [value, hf], ⟨h.ttl, ?_⟩, fun k' => ?_⟩
    · have hlen : (s.others e.key).length < s.entries.length :=
        length_others_lt (find_eq_some_iff.mpr ⟨hm, rfl⟩)
      have := h.fits
      simp only [promote, List.length_cons]
      omega
    · simp only [value, find_promote]
      split
      · rename_i hk'
        rw [hk', hk, hf]
      · rfl

theorem touchAll_roomy {s : LruMap κ ν} (h : Roomy n s) (now : Int) (ks : List κ) :
    (touchAll now ks s).1 = ks.map s.value ∧ Roomy n (touchAll now ks s).2 ∧
      ∀ k', (touchAll now ks s).2.value k' = s.value k' := by
  induction ks using List.reverseRecOn with
  | nil => exact ⟨rfl, h, fun _ => rfl⟩
  | append_singleton ks k ih =>
    obtain ⟨hfound, hroomy, hvalue⟩ := ih
    obtain ⟨htouch, hroomy', hvalue'⟩ := touch_roomy hroomy now k
    rw [touchAll_append]
    refine ⟨?_, hroomy', fun k' => (hvalue' k').trans (hvalue k')⟩
    rw [hfound, htouch, hvalue, List.map_append]
    rfl

theorem put_roomy {s : LruMap κ ν} (h : Roomy (n + 1) s) (now : Int) (k : κ) (v : ν) :
    Roomy n (s.put now k v) ∧
      ∀ k', (s.put now k v).value k' = if k' = k then some v else s.value k' := by
  have hfits := h.fits
  have hc : s.capacity ≠ 0 := by omega
  cases hf : s.find k with
  | some e =>
    have hlen : (s.others k).length < s.entries.length := length_others_lt hf
    rw [put_some hc hf]
    refine ⟨⟨h.ttl, ?_⟩, fun k' => ?_⟩
    · simp only [promote, List.length_cons]
      omega
    · simp only [value, find_promote]
      split <;> rfl
  | none =>
    have hroom : s.room = s.entries := if_neg (by omega)
    have hentries : (s.put now k v).entries = ⟨k, v, s.stamp now⟩ :: s.entries := by
      rw [put_entries hc, hf, hroom]
      rfl
    refine ⟨⟨by simpa using h.ttl, ?_⟩, fun k' => ?_⟩
    · rw [hentries, put_capacity, List.length_cons]
      omega
    · simp only [value, find, hentries]
      split
      · rename_i hk
        rw [hk, List.find?_cons_of_pos (by simp)]
        rfl
      · rename_i hk
        rw [List.find?_cons_of_neg (by simpa using Ne.symm hk)]

/-- Among maps with room a key is lost by no put. -/
theorem putAll_roomy {s : LruMap κ ν} {entries : List (κ × ν)}
    (h : Roomy (entries.length + n) s) (now : Int) :
    Roomy n (putAll now entries s) ∧ ∀ k, ((putAll now entries s).value k).isSome ↔
      k ∈ entries.map Prod.fst ∨ (s.value k).isSome := by
  induction entries generalizing s with
  | nil => exact ⟨by simpa [putAll] using h, by simp [putAll]⟩
  | cons e entries ih =>
    have hroomy : Roomy (entries.length + n + 1) s := by
      rwa [List.length_cons, Nat.add_right_comm] at h
    obtain ⟨hput, hvalue⟩ := put_roomy hroomy now e.1 e.2
    obtain ⟨hrest, hsome⟩ := ih hput
    refine ⟨hrest, fun k => ?_⟩
    have hk := hsome k
    rw [hvalue] at hk
    rw [List.map_cons, List.mem_cons]
    by_cases heq : k = e.1
    · rw [if_pos heq] at hk
      exact ⟨fun _ => .inl (.inl heq), fun _ => hk.mpr (.inr rfl)⟩
    · rw [if_neg heq] at hk
      exact hk.trans (by simp [heq])

-- ---------------------------------------------------------------------------
-- Caches in front of a function
-- ---------------------------------------------------------------------------

theorem Holds.value {P : κ → ν → Prop} {s : LruMap κ ν} (hs : Holds P s)
    (h : s.value k = some v) : P k v := by
  obtain ⟨e, he, rfl⟩ := Option.map_eq_some_iff.mp h
  obtain ⟨hm, rfl⟩ := find_some he
  exact hs e hm

theorem Holds.touch {P : κ → ν → Prop} {s : LruMap κ ν} (hs : Holds P s) :
    Holds P (s.touch now k).2 ∧ ∀ v, (s.touch now k).1 = some v → P k v := by
  cases h : s.find k with
  | none => simpa [touch_none h] using hs
  | some e =>
    obtain ⟨hm, hk⟩ := find_some h
    have hsub : ∀ x ∈ s.others k, P x.key x.val := fun x hx => hs x (mem_others.mp hx).1
    rw [touch_some h]
    split
    · exact ⟨hsub, by simp⟩
    · refine ⟨?_, by rintro v ⟨⟩; exact hk ▸ hs e hm⟩
      intro x hx
      rcases List.mem_cons.mp hx with rfl | hx
      · exact hs x hm
      · exact hsub x (hk ▸ hx)

/-- A put replaces the relation at its own key only. -/
theorem Holds.of_ne_put {P Q : κ → ν → Prop} {s : LruMap κ ν} (hs : Holds P s)
    (hpq : ∀ k' v', k' ≠ k → P k' v' → Q k' v') (hv : Q k v) : Holds Q (s.put now k v) := by
  have hothers : ∀ x ∈ s.others k, Q x.key x.val := fun x hx =>
    hpq _ _ (mem_others.mp hx).2 (hs x (mem_others.mp hx).1)
  by_cases hc : s.capacity = 0
  · have hnil : s.entries = [] := List.length_eq_zero_iff.mp (by have := s.bounded; omega)
    simp [Holds, LruMap.put, hc, hnil]
  · intro x hx
    rw [put_entries hc] at hx
    rcases List.mem_cons.mp hx with rfl | hx
    · exact hv
    · split at hx
      · exact hothers x hx
      · rename_i hnone
        have hmem := s.room_sublist.subset hx
        have hkeys : x.key ∈ s.entries.map LruEntry.key := List.mem_map_of_mem hmem
        have hk : x.key ≠ k := by
          rintro heq
          exact find_none.mp (by simpa using hnone) (heq ▸ hkeys)
        exact hothers x (mem_others.mpr ⟨hmem, hk⟩)

theorem Holds.put {P : κ → ν → Prop} {s : LruMap κ ν} (hs : Holds P s) (hv : P k v) :
    Holds P (s.put now k v) :=
  hs.of_ne_put (fun _ _ _ h => h) hv

theorem Holds.touchAll {P : κ → ν → Prop} {s : LruMap κ ν} (hs : Holds P s) (now : Int)
    (ks : List κ) : Holds P (LruMap.touchAll now ks s).2 ∧
      ∀ (i : Nat) k v, ks[i]? = some k → (LruMap.touchAll now ks s).1[i]? = some (some v) →
        P k v := by
  induction ks generalizing s with
  | nil => exact ⟨hs, by simp⟩
  | cons key ks ih =>
    have htouch : Holds P (s.touch now key).2 ∧ ∀ v, (s.touch now key).1 = some v → P key v :=
      hs.touch
    obtain ⟨hrest, hfound⟩ := ih htouch.1
    refine ⟨hrest, ?_⟩
    rintro (_ | i) k v hk hv
    · cases hk
      exact htouch.2 v (by simpa [LruMap.touchAll] using hv)
    · exact hfound i k v (by simpa using hk) (by simpa [LruMap.touchAll] using hv)

theorem Holds.putAll {P : κ → ν → Prop} {s : LruMap κ ν} {entries : List (κ × ν)} (hs : Holds P s)
    (now : Int) (he : ∀ e ∈ entries, P e.1 e.2) : Holds P (LruMap.putAll now entries s) := by
  induction entries generalizing s with
  | nil => exact hs
  | cons e entries ih =>
    exact ih (hs.put (he e List.mem_cons_self)) fun x hx => he x (List.mem_cons_of_mem e hx)

end LruMap

end LibEmbedding.Foundation
