import LibEmbedding.LruCacheRefines
import LibEmbedding.Types

/-!
# The cache from Python

`EmbeddingCache.get` of `cache.py` copies a value in two calls of the C cache: the first reads the
dimension, the second fills a buffer of that size. Every C call holds the lock, so other threads
come in between the two and nowhere else.

What comes back was stored at some moment of the call. A shorter value that is stored between the
two calls leaves the zeros of the buffer behind it.
-/

namespace LibEmbedding

open Foundation

namespace EmbeddingCache

variable {α : Type}

/-- `memcpy` over the front of a buffer. -/
def fill (buf : List α) (copied : List α) : List α := copied ++ buf.drop copied.length

/-- The C string is the text up to its first NUL. `between` is what other threads call between the
two reads, and `expectedDim` the argument or else the one of the constructor. -/
def get [Zero α] (expectedDim : Int) (text : Bytes) (now₁ : Int)
    (between : List (Int × LRUCache.Op Bytes α)) (now₂ : Int) (c : LRUCache Bytes α) :
    Checked (Option (List α) × LRUCache Bytes α) := do
  let key := cstr text
  let (status, c) ← c.getCopy now₁ key false 0
  if status.code = 0 then return (none, c)
  let cachedDim := status.dim.getD 0
  if 0 < expectedDim ∧ cachedDim ≠ expectedDim then return (none, c)
  if cachedDim = 0 then return (some [], c)
  let buf := List.replicate cachedDim.toNat 0
  let (_, c) ← c.run between
  let (status, c) ← c.getCopy now₂ key true cachedDim
  if status.code ≠ 1 then return (none, c)
  return (some (fill buf (status.copied.getD [])), c)

section Lasts

variable {κ : Type} [DecidableEq κ]

/-- A value that was put last was put. -/
theorem mem_of_lastPut {ops : List (Int × LRUCache.Op κ α)} {key : κ} {v : List α}
    (h : LRUCache.lastPut ops key = some v) : ∃ now, (now, .put key v) ∈ ops := by
  induction ops using List.reverseRecOn with
  | nil => cases h
  | append_singleton ops op ih =>
    obtain ⟨now, op⟩ := op
    rw [LRUCache.lastPut, List.foldl_append, ← LRUCache.lastPut] at h
    have hearlier (h : LRUCache.lastPut ops key = some v) :
        ∃ t, (t, LRUCache.Op.put key v) ∈ ops ++ [(now, op)] := by
      obtain ⟨t, ht⟩ := ih h
      exact ⟨t, List.mem_append_left _ ht⟩
    cases op with
    | put k vec =>
      by_cases hk : key = k
      · subst hk
        simp only [List.foldl_cons, List.foldl_nil, LRUCache.record, Function.update_self,
          Option.some.injEq] at h
        subst h
        exact ⟨now, by simp⟩
      · simp only [List.foldl_cons, List.foldl_nil, LRUCache.record, Function.update_of_ne hk] at h
        exact hearlier h
    | clear => cases h
    | get | getCopy | getCopyVec | size => exact hearlier h

end Lasts

theorem length_lastPut {ops : List (Int × LRUCache.Op Bytes α)} {key : Bytes} {v : List α} {n : Nat}
    (hsame : ∀ now vec, (now, .put key vec) ∈ ops → vec.length = n)
    (h : LRUCache.lastPut ops key = some v) : v.length = n := by
  obtain ⟨now, hmem⟩ := mem_of_lastPut h
  exact hsame now v hmem

/-- A copy that succeeds is the value that is there, and it fits. -/
theorem copyReport_copied {room : Int} {found : Option (List α)}
    (hcode : (LRUCache.copyReport true room found).code = 1) :
    ∃ v, found = some v ∧ (LRUCache.copyReport true room found).copied = some v ∧
      (v.length : Int) ≤ room := by
  cases found with
  | none => cases hcode
  | some v =>
    by_cases hfits : (v.length : Int) ≤ room
    · exact ⟨v, rfl, by simp [LRUCache.copyReport, hfits], hfits⟩
    · simp [LRUCache.copyReport, hfits] at hcode

theorem fill_replicate [Zero α] (v : List α) (n : Nat) :
    fill (List.replicate n 0) v = v ++ List.replicate (n - v.length) 0 := by
  rw [fill, List.drop_replicate]

variable [Zero α] {capacity : Nat} {ttl : Int} {ops : List (Int × LRUCache.Op Bytes α)}

/-- What a call of `get` may return. -/
def Read (ops between : List (Int × LRUCache.Op Bytes α)) (key : Bytes) (expectedDim : Int)
    (values : List α) : Prop :=
  (0 < expectedDim → (values.length : Int) = expectedDim) ∧
    ∃ during v, during <+: between ∧ LRUCache.lastPut (ops ++ during) key = some v ∧
      v.length ≤ values.length ∧ values = v ++ List.replicate (values.length - v.length) 0 ∧
      ((∃ n, ∀ now vec, (now, .put key vec) ∈ ops ++ between → vec.length = n) → values = v)

/-- The second read fills the buffer of the first. -/
theorem read_filled {between : List (Int × LRUCache.Op Bytes α)} {key : Bytes} {expectedDim : Int}
    {first second : List α} (hdim : 0 < expectedDim → (first.length : Int) = expectedDim)
    (hfirst : LRUCache.lastPut ops key = some first)
    (hsecond : LRUCache.lastPut (ops ++ between) key = some second)
    (hfits : second.length ≤ first.length) :
    Read ops between key expectedDim (fill (List.replicate first.length 0) second) := by
  have hlength : (fill (List.replicate first.length 0) second).length = first.length := by
    rw [fill_replicate, List.length_append, List.length_replicate]
    omega
  refine ⟨fun hpos => by rw [hlength, hdim hpos], between, second, List.prefix_rfl,
    hsecond, ?_, ?_, ?_⟩
  · rw [hlength]
    exact hfits
  · rw [hlength]
    exact fill_replicate second first.length
  · rintro ⟨n, hsame⟩
    have hn : first.length = n :=
      length_lastPut (fun now vec hmem => hsame now vec (List.mem_append_left _ hmem)) hfirst
    have hn' : second.length = n := length_lastPut hsame hsecond
    rw [fill_replicate, hn, hn', Nat.sub_self, List.replicate_zero, List.append_nil]

theorem get_refined {c : LRUCache Bytes α} {s : LruMap Bytes (List α)} (hr : LRUCache.Refines c s)
    (hlast : s.Holds fun k v => LRUCache.lastPut ops k = some v) (expectedDim : Int) (text : Bytes)
    (now₁ : Int) (between : List (Int × LRUCache.Op Bytes α)) (now₂ : Int) :
    ∃ out c', get expectedDim text now₁ between now₂ c = .ok (out, c') ∧
      ∀ values, out = some values → Read ops between (cstr text) expectedDim values := by
  obtain ⟨c₁, hget₁, hr₁⟩ := hr.getCopy now₁ (cstr text) false 0
  rw [get, hget₁, ok_bind]
  cases hfound : (s.touch now₁ (cstr text)).1 with
  | none => exact ⟨none, c₁, rfl, nofun⟩
  | some first =>
    have hfirst : LRUCache.lastPut ops (cstr text) = some first := hlast.touch.2 first hfound
    have hreport : LRUCache.copyReport false 0 (some first) =
        ⟨-1, some (first.length : Int), none⟩ := rfl
    rw [hreport]
    dsimp only [Option.getD_some]
    rw [if_neg (by decide)]
    by_cases hdim : 0 < expectedDim ∧ (first.length : Int) ≠ expectedDim
    · rw [if_pos hdim]
      exact ⟨none, c₁, rfl, nofun⟩
    rw [if_neg hdim]
    rw [not_and, not_not] at hdim
    by_cases hzero : (first.length : Int) = 0
    · rw [if_pos hzero]
      obtain rfl : first = [] := by simpa using hzero
      refine ⟨some [], c₁, rfl, ?_⟩
      rintro values ⟨⟩
      exact ⟨hdim, [], [], List.nil_prefix, by rwa [List.append_nil], le_rfl, rfl, fun _ => rfl⟩
    rw [if_neg hzero]
    obtain ⟨c₂, hrun₂, hr₂, hlast₂⟩ := hr₁.run hlast.touch.1 between
    obtain ⟨c₃, hget₃, -⟩ := hr₂.getCopy now₂ (cstr text) true first.length
    rw [hrun₂, ok_bind]
    dsimp only
    rw [hget₃, ok_bind]
    dsimp only
    split
    · exact ⟨none, c₃, rfl, nofun⟩
    · rename_i hcode
      obtain ⟨second, hfound₂, hcopied, hfits⟩ := copyReport_copied (not_not.mp hcode)
      refine ⟨_, c₃, rfl, ?_⟩
      rintro values ⟨⟩
      rw [hcopied, Option.getD_some, Int.toNat_natCast]
      refine read_filled hdim hfirst ?_ (by exact_mod_cast hfits)
      rw [LRUCache.lastPut, List.foldl_append]
      exact hlast₂.touch.2 second hfound₂

/-- With nobody in between, a lookup is one of the reference map. -/
theorem get_alone {c : LRUCache Bytes α} {s : LruMap Bytes (List α)} (hr : LRUCache.Refines c s)
    (expectedDim : Int) (text : Bytes) (now : Int) :
    ∃ c', get expectedDim text now [] now c = .ok ((s.touch now (cstr text)).1.filter fun v =>
      decide (expectedDim ≤ 0 ∨ (v.length : Int) = expectedDim), c') := by
  obtain ⟨c₁, hget₁, hr₁⟩ := hr.getCopy now (cstr text) false 0
  rw [get, hget₁, ok_bind]
  have hsecond := s.touch_touch now (cstr text) (cstr text)
  cases hfound : (s.touch now (cstr text)).1 with
  | none => exact ⟨c₁, rfl⟩
  | some first =>
    have hreport : LRUCache.copyReport false 0 (some first) =
        ⟨-1, some (first.length : Int), none⟩ := rfl
    have hreport' : LRUCache.copyReport true first.length (some first) =
        ⟨1, some (first.length : Int), some first⟩ := by
      simp [LRUCache.copyReport]
    obtain ⟨c₂, hget₂, -⟩ := hr₁.getCopy now (cstr text) true first.length
    rw [hsecond, hfound, hreport'] at hget₂
    rw [hreport]
    dsimp only [Option.getD_some]
    rw [if_neg (by decide)]
    by_cases hdim : 0 < expectedDim ∧ (first.length : Int) ≠ expectedDim
    · rw [if_pos hdim, Option.filter_some_neg (by simpa using hdim)]
      exact ⟨c₁, rfl⟩
    rw [if_neg hdim, Option.filter_some_pos (by rw [not_and_or] at hdim; simpa using hdim)]
    by_cases hzero : (first.length : Int) = 0
    · rw [if_pos hzero]
      obtain rfl : first = [] := by simpa using hzero
      exact ⟨c₁, rfl⟩
    rw [if_neg hzero, LRUCache.run, ok_bind]
    dsimp only
    rw [hget₂, ok_bind]
    dsimp only
    rw [if_neg (by simp), Option.getD_some, Int.toNat_natCast, fill_replicate, Nat.sub_self,
      List.replicate_zero, List.append_nil]
    exact ⟨c₂, rfl⟩

end EmbeddingCache

end LibEmbedding
