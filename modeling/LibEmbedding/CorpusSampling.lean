import LibEmbedding.Foundation.Checked
import LibEmbedding.Foundation.Rounding

/-!
# Sampling a corpus

`_sample_corpus` takes a strided part of each of ten buckets of texts and fills up at random. How a
text comes into its bucket, how the stride is rounded and what the random fill takes are left open.
-/

namespace LibEmbedding

open Foundation

-- ---------------------------------------------------------------------------
-- The sampler
-- ---------------------------------------------------------------------------

/-- `bucket_idx` of a text of so many words. -/
def bucketIdx (rounded : ℚ → ℚ) (log10 : Nat → ℚ) (wordCount : Nat) : Nat :=
  if wordCount = 0 then 0 else min ⌊rounded (log10 wordCount * (5 / 2))⌋₊ 9

theorem bucketIdx_lt (rounded : ℚ → ℚ) (log10 : Nat → ℚ) (wordCount : Nat) :
    bucketIdx rounded log10 wordCount < 10 := by
  unfold bucketIdx
  split <;> omega

structure CorpusSampler (α : Type) where
  bucketOf : α → Fin 10
  /-- What a floating-point operation gives for its exact result. -/
  rounded : ℚ → ℚ
  /-- `random.sample` -/
  randomSample : List Nat → Nat → List Nat

/-- The set of indices is the list of what has been added to it. -/
structure Sampled (α : Type) where
  sampled : List α
  sampledIndices : List Nat

variable {α : Type}

def Sampled.add (s : Sampled α) (entry : Nat × α) : Sampled α :=
  if entry.1 ∈ s.sampledIndices then s
  else { sampled := s.sampled ++ [entry.2], sampledIndices := s.sampledIndices ++ [entry.1] }

namespace CorpusSampler

variable (S : CorpusSampler α)

def putInBucket (buckets : Fin 10 → List (Nat × α)) (entry : α × Nat) :
    Fin 10 → List (Nat × α) :=
  Function.update buckets (S.bucketOf entry.1)
    (buckets (S.bucketOf entry.1) ++ [(entry.2, entry.1)])

def buckets (texts : List α) : Fin 10 → List (Nat × α) :=
  texts.zipIdx.foldl S.putInBucket fun _ => []

/-- `int(i * step)` -/
def stride (size perBucket i : Nat) : Nat :=
  ⌊S.rounded (S.rounded i * S.rounded (size / perBucket))⌋₊

def sampleBucket (perBucket : Nat) (s : Sampled α) (bucket : List (Nat × α)) :
    Checked (Sampled α) :=
  if bucket.isEmpty then .ok s
  else if bucket.length ≤ perBucket then .ok (bucket.foldl Sampled.add s)
  else forUpTo perBucket (fun s i => do
    let entry ← get bucket (S.stride bucket.length perBucket i)
    return s.add entry) s

def fill (texts : List α) (maxSize : Nat) (s : Sampled α) : Checked (Sampled α) :=
  if s.sampled.length < maxSize then
    let remaining := (List.range texts.length).filter (· ∉ s.sampledIndices)
    let chosen := S.randomSample remaining (min (maxSize - s.sampled.length) remaining.length)
    chosen.foldlM (fun s index => do
      let text ← get texts index
      return { sampled := s.sampled ++ [text], sampledIndices := s.sampledIndices ++ [index] }) s
  else .ok s

/-- `_sample_corpus` -/
def sampleCorpus (texts : List α) (maxSize : Nat) : Checked (List α) :=
  if texts.length ≤ maxSize then .ok texts
  else do
    let perBucket := max 1 (maxSize / 10)
    let s ← (List.finRange 10).foldlM
      (fun s b => S.sampleBucket perBucket s (S.buckets texts b)) ⟨[], []⟩
    let s ← S.fill texts maxSize s
    return s.sampled.take maxSize

end CorpusSampler

/-- The sampler with the buckets by how many words a text has. -/
def CorpusSampler.byWords (rounded : ℚ → ℚ) (log10 : Nat → ℚ)
    (randomSample : List Nat → Nat → List Nat) (wordCount : α → Nat) : CorpusSampler α where
  bucketOf text := ⟨bucketIdx rounded log10 (wordCount text), bucketIdx_lt ..⟩
  rounded
  randomSample

/-- `random.sample` takes so many members of a population, each of them once. -/
def SamplesWithoutReplacement (randomSample : List Nat → Nat → List Nat) : Prop :=
  ∀ population k, k ≤ population.length →
    (randomSample population k).Subperm population ∧ (randomSample population k).length = k

-- ---------------------------------------------------------------------------
-- Strides
-- ---------------------------------------------------------------------------

namespace CorpusSampler

variable {S : CorpusSampler α} {texts : List α}

/-- A bucket that is larger than what is taken of it. -/
structure Strided (S : CorpusSampler α) (top size perBucket : Nat) : Prop where
  rounds : Rounds S.rounded top
  size_le : size ≤ top
  pos : 0 < perBucket
  lt : perBucket < size

variable {top size perBucket : Nat}

theorem Strided.step (h : Strided S top size perBucket) :
    1 ≤ S.rounded (size / perBucket) ∧
      2 * top * S.rounded (size / perBucket) ≤ (2 * top + 1) * (size / perBucket) := by
  have hpos : (0 : ℚ) < perBucket := by exact_mod_cast h.pos
  have hlt : (perBucket : ℚ) < size := by exact_mod_cast h.lt
  have hone : ((1 : Nat) : ℚ) ≤ size / perBucket := by
    rw [Nat.cast_one, one_le_div hpos]
    exact hlt.le
  have htop : 1 ≤ top := by
    have := h.pos
    have := h.lt
    have := h.size_le
    omega
  constructor
  · have hexact := h.rounds.exact htop
    rw [Nat.cast_one] at hexact hone
    rw [← hexact]
    exact h.rounds.mono zero_le_one hone
  · have hclose := h.rounds.close (x := size / perBucket) (by positivity)
    linarith

/-- The positions in a bucket stay inside it. -/
theorem Strided.stride_lt (h : Strided S top size perBucket) {i : Nat} (hi : i < perBucket) :
    S.stride size perBucket i < size := by
  have hpos : (0 : ℚ) < perBucket := by exact_mod_cast h.pos
  have hi' : (i : ℚ) ≤ perBucket - 1 := by
    rw [le_sub_iff_add_le]
    exact_mod_cast hi
  have hlast : (0 : ℚ) ≤ perBucket - 1 := le_trans (Nat.cast_nonneg i) hi'
  have hexact : S.rounded i = i := h.rounds.exact (by have := h.lt; have := h.size_le; omega)
  obtain ⟨hone, hstep⟩ := h.step
  have hoffset : 0 ≤ i * S.rounded (size / perBucket) := by positivity
  -- The last offset is a whole step short of the end, by more than two roundings can add.
  have hshort : 2 * top * (i * S.rounded (size / perBucket)) ≤ (2 * top + 1) * (size - 1) := by
    have hfull : (1 : ℚ) ≤ size / perBucket := by
      rw [one_le_div hpos]
      exact_mod_cast h.lt.le
    calc 2 * top * (i * S.rounded (size / perBucket))
        = i * (2 * top * S.rounded (size / perBucket)) := by ring
      _ ≤ (perBucket - 1) * ((2 * top + 1) * (size / perBucket)) := by gcongr
      _ = (2 * top + 1) * (size - size / perBucket) := by field_simp
      _ ≤ (2 * top + 1) * (size - 1) := by gcongr
  unfold stride
  rw [hexact, Nat.floor_lt (h.rounds.nonneg hoffset)]
  exact h.rounds.lt_of_short h.size_le (Nat.zero_lt_of_lt h.lt) hoffset hshort

theorem Strided.stride_strictMono (h : Strided S top size perBucket) {i j : Nat} (hij : i < j)
    (hj : j < perBucket) : S.stride size perBucket i < S.stride size perBucket j := by
  have hsize := h.stride_lt (hij.trans hj)
  have hper := h.lt
  have htop := h.size_le
  have hexact : ∀ {k : Nat}, k < perBucket → S.rounded k = k := fun hk => h.rounds.exact (by omega)
  have hstep := h.step.1
  have hnext : (i : ℚ) + 1 ≤ j := by exact_mod_cast hij
  unfold stride at hsize ⊢
  rw [hexact (hij.trans hj)] at hsize ⊢
  rw [hexact hj]
  refine h.rounds.floor_lt_floor (by positivity) ?_ (by omega)
  nlinarith

-- ---------------------------------------------------------------------------
-- Buckets
-- ---------------------------------------------------------------------------

theorem buckets_fold (entries : List (α × Nat)) (buckets : Fin 10 → List (Nat × α)) (b : Fin 10) :
    entries.foldl S.putInBucket buckets b =
      buckets b ++ (entries.filter fun e => S.bucketOf e.1 = b).map Prod.swap := by
  induction entries generalizing buckets with
  | nil => exact (List.append_nil _).symm
  | cons e entries ih =>
    rw [List.foldl_cons, ih, putInBucket]
    by_cases hb : S.bucketOf e.1 = b
    · subst hb
      rw [Function.update_self, List.filter_cons_of_pos (by simp), List.map_cons,
        List.append_assoc]
      rfl
    · rw [Function.update_of_ne (Ne.symm hb), List.filter_cons_of_neg (by simpa using hb)]

theorem buckets_eq (b : Fin 10) :
    S.buckets texts b = (texts.zipIdx.filter fun e => S.bucketOf e.1 = b).map Prod.swap := by
  rw [buckets, buckets_fold, List.nil_append]

theorem mem_buckets {b : Fin 10} {entry : Nat × α} :
    entry ∈ S.buckets texts b ↔ texts[entry.1]? = some entry.2 ∧ S.bucketOf entry.2 = b := by
  obtain ⟨i, text⟩ := entry
  rw [buckets_eq, List.mem_map]
  constructor
  · rintro ⟨⟨text', i'⟩, hmem, hswap⟩
    cases hswap
    obtain ⟨hentry, hb⟩ := List.mem_filter.mp hmem
    exact ⟨List.mem_zipIdx_iff_getElem?.mp hentry, of_decide_eq_true hb⟩
  · rintro ⟨hentry, hb⟩
    exact ⟨(text, i), List.mem_filter.mpr ⟨List.mem_zipIdx_iff_getElem?.mpr hentry,
      decide_eq_true hb⟩, rfl⟩

theorem buckets_nodup (b : Fin 10) : ((S.buckets texts b).map Prod.fst).Nodup := by
  have hswap : (Prod.fst ∘ Prod.swap : α × Nat → Nat) = Prod.snd := rfl
  have hsub : ((texts.zipIdx.filter fun e => S.bucketOf e.1 = b).map Prod.snd).Sublist
      (texts.zipIdx.map Prod.snd) := List.filter_sublist.map Prod.snd
  rw [List.zipIdx_map_snd] at hsub
  rw [buckets_eq, List.map_map, hswap]
  exact hsub.nodup (List.nodup_range' ..)

theorem length_buckets (b : Fin 10) :
    (S.buckets texts b).length = texts.countP fun text => S.bucketOf text = b := by
  have hcount : texts.countP (fun text => S.bucketOf text = b) =
      (texts.zipIdx.map Prod.fst).countP fun text => S.bucketOf text = b := by
    rw [List.zipIdx_map_fst]
  rw [buckets_eq, List.length_map, hcount, List.countP_map, List.countP_eq_length_filter]
  rfl

-- ---------------------------------------------------------------------------
-- What is taken
-- ---------------------------------------------------------------------------

/-- The texts are those at the indices, and no index is there twice. -/
structure Sound (texts : List α) (s : Sampled α) : Prop where
  entries : s.sampled.map some = s.sampledIndices.map fun i => texts[i]?
  nodup : s.sampledIndices.Nodup

theorem Sound.length_eq {s : Sampled α} (h : Sound texts s) :
    s.sampled.length = s.sampledIndices.length := by
  have hlength := congrArg List.length h.entries
  rwa [List.length_map, List.length_map] at hlength

theorem Sound.lt {s : Sampled α} (h : Sound texts s) {i : Nat} (hi : i ∈ s.sampledIndices) :
    i < texts.length := by
  have hmem : texts[i]? ∈ s.sampled.map some := by
    rw [h.entries]
    exact List.mem_map_of_mem hi
  obtain ⟨text, -, htext⟩ := List.mem_map.mp hmem
  exact (List.getElem?_eq_some_iff.mp htext.symm).1

theorem Sound.append {s : Sampled α} (h : Sound texts s) (entry : Nat × α)
    (hentry : texts[entry.1]? = some entry.2) (hnew : entry.1 ∉ s.sampledIndices) :
    Sound texts { sampled := s.sampled ++ [entry.2],
                  sampledIndices := s.sampledIndices ++ [entry.1] } where
  entries := by
    rw [List.map_append, List.map_append, h.entries, List.map_singleton, List.map_singleton, hentry]
  nodup := h.nodup.append (List.nodup_singleton _) (List.disjoint_singleton.mpr hnew)

theorem Sound.add {s : Sampled α} (h : Sound texts s) {entry : Nat × α}
    (hentry : texts[entry.1]? = some entry.2) : Sound texts (s.add entry) := by
  unfold Sampled.add
  split
  · exact h
  · rename_i hnew
    exact h.append entry hentry hnew

theorem mem_add {s : Sampled α} {entry : Nat × α} {i : Nat} :
    i ∈ (s.add entry).sampledIndices ↔ i ∈ s.sampledIndices ∨ i = entry.1 := by
  unfold Sampled.add
  split
  · rename_i hthere
    exact ⟨.inl, fun h => h.elim id fun heq => heq ▸ hthere⟩
  · exact List.mem_append.trans (or_congr_right List.mem_singleton)

theorem length_add_le (s : Sampled α) (entry : Nat × α) :
    (s.add entry).sampled.length ≤ s.sampled.length + 1 := by
  unfold Sampled.add
  split
  · exact Nat.le_succ _
  · exact (List.length_append ..).le

theorem Sound.addAll {s : Sampled α} (h : Sound texts s) {entries : List (Nat × α)}
    (hentries : ∀ e ∈ entries, texts[e.1]? = some e.2) :
    Sound texts (entries.foldl Sampled.add s) := by
  induction entries generalizing s with
  | nil => exact h
  | cons e entries ih =>
    obtain ⟨he, hrest⟩ := List.forall_mem_cons.mp hentries
    exact ih (h.add he) hrest

theorem mem_addAll {entries : List (Nat × α)} {s : Sampled α} {i : Nat} :
    i ∈ (entries.foldl Sampled.add s).sampledIndices ↔
      i ∈ s.sampledIndices ∨ i ∈ entries.map Prod.fst := by
  induction entries generalizing s with
  | nil => simp
  | cons e entries ih => rw [List.foldl_cons, ih, mem_add, List.map_cons, List.mem_cons, or_assoc]

theorem length_addAll_le (entries : List (Nat × α)) (s : Sampled α) :
    (entries.foldl Sampled.add s).sampled.length ≤ s.sampled.length + entries.length := by
  induction entries generalizing s with
  | nil => exact le_refl _
  | cons e entries ih =>
    have hrest := ih (s.add e)
    have hfirst := length_add_le s e
    rw [List.foldl_cons, List.length_cons]
    omega

-- ---------------------------------------------------------------------------
-- One bucket
-- ---------------------------------------------------------------------------

/-- A loop that adds what it finds at each of its steps. -/
theorem addUpTo {find : Nat → Checked (Nat × α)} {found : Nat → Nat × α} {n : Nat}
    (h : ∀ i < n, find i = .ok (found i)) (s : Sampled α) :
    forUpTo n (fun s i => do
      let entry ← find i
      return s.add entry) s = .ok (((List.range n).map found).foldl Sampled.add s) := by
  induction n with
  | zero => rfl
  | succ n ih =>
    have hbefore := ih fun i hi => h i (Nat.lt_succ_of_lt hi)
    rw [forUpTo_succ, hbefore, ok_bind, h n (Nat.lt_succ_self n), ok_bind, List.range_succ,
      List.map_append, List.foldl_append]
    rfl

/-- As many entries of a bucket are taken as the limit allows, and no position twice. -/
theorem sampleBucket_spec {n perBucket : Nat} (hround : Rounds S.rounded n)
    (hper : 0 < perBucket) {bucket : List (Nat × α)} (hsize : bucket.length ≤ n)
    (hnodup : (bucket.map Prod.fst).Nodup) :
    ∃ picks : List (Nat × α), (∀ s, S.sampleBucket perBucket s bucket =
        .ok (picks.foldl Sampled.add s)) ∧
      (∀ e ∈ picks, e ∈ bucket) ∧ (picks.map Prod.fst).Nodup ∧
      picks.length = min perBucket bucket.length := by
  unfold sampleBucket
  by_cases hempty : bucket.isEmpty
  · rw [List.isEmpty_iff.mp hempty]
    exact ⟨[], fun _ => rfl, fun _ h => h, List.nodup_nil, (Nat.min_zero _).symm⟩
  · by_cases hsmall : bucket.length ≤ perBucket
    · refine ⟨bucket, fun s => ?_, fun _ h => h, hnodup, (Nat.min_eq_right hsmall).symm⟩
      rw [if_neg hempty, if_pos hsmall]
    · have hstrided : Strided S n bucket.length perBucket :=
        ⟨hround, hsize, hper, not_le.mp hsmall⟩
      obtain ⟨first, -⟩ := List.exists_mem_of_ne_nil bucket fun h => hempty (List.isEmpty_iff.mpr h)
      let found := fun i => bucket.getD (S.stride bucket.length perBucket i) first
      have hfound : ∀ {i} (hi : i < perBucket),
          found i = bucket.get ⟨_, hstrided.stride_lt hi⟩ := by
        intro i hi
        have hthere := List.getElem?_eq_getElem (hstrided.stride_lt hi)
        unfold found
        rw [List.getD_eq_getElem?_getD, hthere]
        rfl
      refine ⟨(List.range perBucket).map found, fun s => ?_, fun e he => ?_, ?_, ?_⟩
      · rw [if_neg hempty, if_neg hsmall]
        exact addUpTo (fun i hi => get_getD (hstrided.stride_lt hi) first) s
      · obtain ⟨i, hi, rfl⟩ := List.mem_map.mp he
        rw [hfound (List.mem_range.mp hi)]
        exact List.getElem_mem _
      · rw [List.map_map]
        refine List.Nodup.map_on (fun i hi j hj heq => ?_) List.nodup_range
        rw [List.mem_range] at hi hj
        have hsame : S.stride bucket.length perBucket i = S.stride bucket.length perBucket j := by
          rw [Function.comp_apply, Function.comp_apply, hfound hi, hfound hj] at heq
          have hinside : ∀ {i}, i < perBucket →
              S.stride bucket.length perBucket i < (bucket.map Prod.fst).length := by
            intro i hi
            rw [List.length_map]
            exact hstrided.stride_lt hi
          have hkeys : (bucket.map Prod.fst).get ⟨S.stride bucket.length perBucket i, hinside hi⟩ =
              (bucket.map Prod.fst).get ⟨S.stride bucket.length perBucket j, hinside hj⟩ := by
            rw [List.get_eq_getElem, List.get_eq_getElem, List.getElem_map, List.getElem_map]
            exact heq
          exact Fin.val_eq_of_eq (hnodup.get_inj_iff.mp hkeys)
        rcases lt_trichotomy i j with hlt | rfl | hgt
        · exact absurd hsame (hstrided.stride_strictMono hlt hj).ne
        · rfl
        · exact absurd hsame (hstrided.stride_strictMono hgt hi).ne'
      · rw [List.length_map, List.length_range, Nat.min_eq_left (not_le.mp hsmall).le]

-- ---------------------------------------------------------------------------
-- All buckets
-- ---------------------------------------------------------------------------

/-- At least so many of the indices are those of texts of the bucket. -/
def Represents (S : CorpusSampler α) (texts : List α) (indices : List Nat) (b : Fin 10)
    (count : Nat) : Prop :=
  ∃ picks : List Nat, picks.Nodup ∧ picks.length = count ∧
    ∀ i ∈ picks, i ∈ indices ∧ (texts[i]?).map S.bucketOf = some b

theorem Represents.mono {indices indices' : List Nat} {b : Fin 10} {count : Nat}
    (h : Represents S texts indices b count) (hsub : ∀ i ∈ indices, i ∈ indices') :
    Represents S texts indices' b count := by
  obtain ⟨picks, hnodup, hlength, hpicks⟩ := h
  exact ⟨picks, hnodup, hlength, fun i hi => ⟨hsub i (hpicks i hi).1, (hpicks i hi).2⟩⟩

theorem Represents.le_countP {indices : List Nat} {b : Fin 10} {count : Nat}
    (h : Represents S texts indices b count) :
    count ≤ indices.countP fun i => (texts[i]?).map S.bucketOf = some b := by
  obtain ⟨picks, hnodup, rfl, hpicks⟩ := h
  rw [List.countP_eq_length_filter]
  refine (List.subperm_of_subset hnodup fun i hi => ?_).length_le
  exact List.mem_filter.mpr ⟨(hpicks i hi).1, decide_eq_true (hpicks i hi).2⟩

theorem sampleBuckets_spec {perBucket : Nat} (hround : Rounds S.rounded texts.length)
    (hper : 0 < perBucket) (bs : List (Fin 10)) {s : Sampled α} (hs : Sound texts s) :
    ∃ t, bs.foldlM (fun s b => S.sampleBucket perBucket s (S.buckets texts b)) s = .ok t ∧
      Sound texts t ∧ (∀ i ∈ s.sampledIndices, i ∈ t.sampledIndices) ∧
      t.sampled.length ≤ s.sampled.length + bs.length * perBucket ∧
      ∀ b ∈ bs, Represents S texts t.sampledIndices b
        (min perBucket (texts.countP fun text => S.bucketOf text = b)) := by
  induction bs generalizing s with
  | nil =>
    exact ⟨s, rfl, hs, fun _ h => h, Nat.le_add_right .., fun b hb => absurd hb List.not_mem_nil⟩
  | cons b bs ih =>
    have hsize : (S.buckets texts b).length ≤ texts.length := by
      rw [length_buckets]
      exact List.countP_le_length
    obtain ⟨picks, hpicks, hmem, hnodup, hlength⟩ :=
      sampleBucket_spec hround hper hsize (buckets_nodup b)
    have hentries : ∀ e ∈ picks, texts[e.1]? = some e.2 ∧ S.bucketOf e.2 = b :=
      fun e he => mem_buckets.mp (hmem e he)
    obtain ⟨t, ht, hsound, hkept, hcount, hall⟩ := ih (hs.addAll fun e he => (hentries e he).1)
    refine ⟨t, ?_, hsound, fun i hi => hkept i (mem_addAll.mpr (.inl hi)), ?_, fun c hc => ?_⟩
    · rw [List.foldlM_cons, hpicks, ok_bind]
      exact ht
    · have hfirst := length_addAll_le picks s
      rw [List.length_cons, Nat.succ_mul]
      omega
    · rcases List.mem_cons.mp hc with rfl | hc
      · refine ⟨picks.map Prod.fst, hnodup, ?_, fun i hi =>
          ⟨hkept i (mem_addAll.mpr (.inr hi)), ?_⟩⟩
        · rw [List.length_map, hlength, length_buckets]
        · obtain ⟨e, he, rfl⟩ := List.mem_map.mp hi
          obtain ⟨htext, hbucket⟩ := hentries e he
          rw [htext, Option.map_some, hbucket]
      · exact hall c hc

-- ---------------------------------------------------------------------------
-- The fill
-- ---------------------------------------------------------------------------

theorem fill_loop {chosen : List Nat} {s : Sampled α} (hs : Sound texts s)
    (hnodup : chosen.Nodup) (hnew : ∀ i ∈ chosen, i < texts.length ∧ i ∉ s.sampledIndices) :
    ∃ t, chosen.foldlM (fun s index => do
        let text ← get texts index
        return ({ sampled := s.sampled ++ [text],
                  sampledIndices := s.sampledIndices ++ [index] } : Sampled α)) s =
          (.ok t : Checked (Sampled α)) ∧
      Sound texts t ∧ t.sampledIndices = s.sampledIndices ++ chosen := by
  induction chosen generalizing s with
  | nil => exact ⟨s, rfl, hs, (List.append_nil _).symm⟩
  | cons i chosen ih =>
    obtain ⟨hfirst, hnodup⟩ := List.nodup_cons.mp hnodup
    obtain ⟨⟨hlt, hfresh⟩, hrest⟩ := List.forall_mem_cons.mp hnew
    have hentry : texts[i]? = some texts[i] := List.getElem?_eq_getElem hlt
    have hnext : Sound texts { sampled := s.sampled ++ [texts[i]],
                               sampledIndices := s.sampledIndices ++ [i] } :=
      hs.append (i, texts[i]) hentry hfresh
    have hrest' : ∀ j ∈ chosen, j < texts.length ∧ j ∉ s.sampledIndices ++ [i] := by
      intro j hj
      refine ⟨(hrest j hj).1, fun hmem => ?_⟩
      rcases List.mem_append.mp hmem with hold | hsame
      · exact (hrest j hj).2 hold
      · exact hfirst (List.mem_singleton.mp hsame ▸ hj)
    obtain ⟨t, ht, hsound, hindices⟩ := ih hnext hnodup hrest'
    refine ⟨t, ?_, hsound, ?_⟩
    · rw [List.foldlM_cons, get_ok.mpr hentry, ok_bind]
      exact ht
    · rw [hindices, List.append_assoc, List.singleton_append]

theorem length_remaining {s : Sampled α} (hs : Sound texts s) :
    texts.length - s.sampled.length ≤
      ((List.range texts.length).filter (· ∉ s.sampledIndices)).length := by
  have hused : ((List.range texts.length).filter (· ∈ s.sampledIndices)).length ≤
      s.sampled.length := by
    rw [hs.length_eq]
    refine (List.subperm_of_subset (List.nodup_range.filter _) fun i hi => ?_).length_le
    exact of_decide_eq_true (List.mem_filter.mp hi).2
  have hsplit := List.length_eq_length_filter_add (l := List.range texts.length)
    (· ∈ s.sampledIndices)
  rw [List.length_range] at hsplit
  simp only [decide_not] at hsplit ⊢
  omega

/-- Afterwards there are at least as many texts as asked for, and exactly as many if there were not
more before. -/
theorem fill_spec (hsample : SamplesWithoutReplacement S.randomSample) {maxSize : Nat}
    (hmany : maxSize ≤ texts.length) {s : Sampled α} (hs : Sound texts s) :
    ∃ t, S.fill texts maxSize s = .ok t ∧ Sound texts t ∧
      (∀ i ∈ s.sampledIndices, i ∈ t.sampledIndices) ∧
      t.sampled.length = max s.sampled.length maxSize := by
  unfold fill
  by_cases hfull : s.sampled.length < maxSize
  · rw [if_pos hfull]
    have hremaining := length_remaining hs
    have hneed : maxSize - s.sampled.length ≤
        ((List.range texts.length).filter (· ∉ s.sampledIndices)).length := by omega
    dsimp only
    rw [Nat.min_eq_left hneed]
    obtain ⟨hsub, hlength⟩ := hsample _ _ hneed
    have hnew := fun (i : Nat) hi => List.mem_filter.mp (hsub.subset (a := i) hi)
    obtain ⟨members, hperm, hmembers⟩ := hsub
    have hnodup := hperm.nodup (hmembers.nodup (List.nodup_range.filter _))
    obtain ⟨t, ht, hsound, hindices⟩ := fill_loop hs hnodup fun i hi =>
      ⟨List.mem_range.mp (hnew i hi).1, of_decide_eq_true (hnew i hi).2⟩
    refine ⟨t, ht, hsound, fun i hi => ?_, ?_⟩
    · rw [hindices]
      exact List.mem_append_left _ hi
    · rw [hsound.length_eq, hindices, List.length_append, hlength, ← hs.length_eq]
      omega
  · rw [if_neg hfull]
    exact ⟨s, rfl, hs, fun _ h => h, (Nat.max_eq_left (not_lt.mp hfull)).symm⟩

-- ---------------------------------------------------------------------------
-- Whole samples
-- ---------------------------------------------------------------------------

theorem represents_all (b : Fin 10) :
    Represents S texts (List.range texts.length) b
      (texts.countP fun text => S.bucketOf text = b) := by
  refine ⟨(S.buckets texts b).map Prod.fst, buckets_nodup b, ?_, fun i hi => ?_⟩
  · rw [List.length_map, length_buckets]
  · obtain ⟨e, he, rfl⟩ := List.mem_map.mp hi
    obtain ⟨htext, hbucket⟩ := mem_buckets.mp he
    rw [htext, Option.map_some, hbucket]
    exact ⟨List.mem_range.mpr (List.getElem?_eq_some_iff.mp htext).1, rfl⟩

theorem map_some_eq_range (texts : List α) :
    texts.map some = (List.range texts.length).map fun i => texts[i]? := by
  refine List.ext_getElem ?_ fun i hi _ => ?_
  · rw [List.length_map, List.length_map, List.length_range]
  · rw [List.length_map] at hi
    rw [List.getElem_map, List.getElem_map, List.getElem_range, List.getElem?_eq_getElem hi]

/-- The law of a sample: its size, its positions and its share of every bucket. -/
theorem sampleCorpus_law (S : CorpusSampler α) (texts : List α) (maxSize : Nat)
    (hround : Rounds S.rounded texts.length)
    (hsample : SamplesWithoutReplacement S.randomSample) :
    ∃ (sampled : List α) (positions : List Nat), S.sampleCorpus texts maxSize = .ok sampled ∧
      sampled.map some = positions.map (fun i => texts[i]?) ∧ positions.Nodup ∧
      sampled.length = min texts.length maxSize ∧
      (10 ≤ maxSize → ∀ b, min (maxSize / 10) (texts.countP fun text => S.bucketOf text = b) ≤
        positions.countP fun i => (texts[i]?).map S.bucketOf = some b) := by
  unfold sampleCorpus
  by_cases hall : texts.length ≤ maxSize
  · rw [if_pos hall]
    refine ⟨texts, List.range texts.length, rfl, map_some_eq_range texts, List.nodup_range,
      (Nat.min_eq_left hall).symm, fun _ b => ?_⟩
    exact (Nat.min_le_right ..).trans (represents_all b).le_countP
  · rw [if_neg hall]
    have hmany : maxSize ≤ texts.length := (not_le.mp hall).le
    have hstart : Sound texts (⟨[], []⟩ : Sampled α) := ⟨rfl, List.nodup_nil⟩
    obtain ⟨s, hs, hsound, -, hcount, hshares⟩ :=
      sampleBuckets_spec hround (Nat.lt_of_lt_of_le Nat.one_pos (Nat.le_max_left 1 (maxSize / 10)))
        (List.finRange 10) hstart
    obtain ⟨t, ht, htsound, hkept, hlength⟩ := fill_spec hsample hmany hsound
    refine ⟨t.sampled.take maxSize, t.sampledIndices.take maxSize, ?_, ?_, ?_, ?_, ?_⟩
    · dsimp only
      rw [hs, ok_bind, ht, ok_bind]
      rfl
    · rw [List.map_take, List.map_take, htsound.entries]
    · exact htsound.nodup.sublist (List.take_sublist ..)
    · rw [List.length_take, hlength]
      omega
    · intro hten b
      -- From ten on the buckets fit into the sample, and the cut takes nothing.
      rw [List.length_nil, List.length_finRange] at hcount
      have hexact : t.sampledIndices.length = maxSize := by
        rw [← htsound.length_eq, hlength]
        omega
      rw [List.take_of_length_le hexact.le]
      have hshare := ((hshares b (List.mem_finRange b)).mono hkept).le_countP
      exact le_trans (by omega) hshare

/-- Twelve texts by their words: eight of one, three of ten and one of a thousand. -/
theorem sampleCorpus_twelve :
    let S := byWords (nearest 52) (fun words => (Nat.log 10 words : Nat))
      (fun population k => population.take k) fun words : Nat => words
    let texts := List.replicate 8 1 ++ List.replicate 3 10 ++ [1000]
    ∃ (sampled : List Nat) (positions : List Nat), S.sampleCorpus texts 10 = .ok sampled ∧
      sampled.map some = positions.map (fun i => texts[i]?) ∧ positions.Nodup ∧
      sampled.length = min texts.length 10 ∧
      (10 ≤ 10 → ∀ b, min (10 / 10) (texts.countP fun text => S.bucketOf text = b) ≤
        positions.countP fun i => (texts[i]?).map S.bucketOf = some b) :=
  sampleCorpus_law _ _ 10 ((nearest_rounds 52).of_le (by decide)) fun population k hk =>
    ⟨(List.take_sublist k population).subperm, List.length_take_of_le hk⟩

end CorpusSampler

end LibEmbedding
