import LibEmbedding.Foundation.PairMerging
import LibEmbedding.TokenizerLoad
import LibEmbedding.TokenizerScan

/-!
# Byte pair encoding

The merge loop of `bpe_tokenize` against merging the leftmost adjacent pair of least rank until
none is left, for the ranks that any merge list gives. Symbols are cut at the length their
lead byte announces, or at the end of the word, so they always make up the word.
-/

namespace LibEmbedding

open Foundation

/-- The `merges` of a document; `cJSON_GetArraySize` counts them in an int. -/
structure MergeList where
  items : List Json
  countable : (items.length : Int) ≤ intMax

namespace TokenizerWrapper

/-- The tokenizer with the merges of a list and no others. -/
def withMerges (t : TokenizerWrapper) (merges : MergeList) : TokenizerWrapper :=
  merges.items.zipIdx.foldl loadMerge { t with bpeMerges := [], bpeRanks := ∅ }

/-- The rank of two adjacent symbols. -/
def pairRank (t : TokenizerWrapper) (a b : Bytes) : Option Int :=
  t.bpeRanks.lookup (a ++ [32] ++ b)

/-- The symbols the merge loop leaves of a word. -/
def mergedSymbols (t : TokenizerWrapper) (word : Bytes) : List Bytes :=
  t.mergeLoop (symbolsLoop word.length word).length (symbolsLoop word.length word)

/-- The merge loop ends with the symbols of the reference procedure, which make up the word. -/
structure MergesWord (t : TokenizerWrapper) (word : Bytes) : Prop where
  /-- Rounds beyond the number of symbols change nothing. -/
  ends : ∀ fuel, (symbolsLoop word.length word).length ≤ fuel →
    t.mergeLoop fuel (symbolsLoop word.length word) = t.mergedSymbols word
  noEndlessRun : ∀ run : Nat → List Bytes,
    ¬∀ n, MergeStep t.pairRank (· ++ ·) (run n) (run (n + 1))
  whole : (t.mergedSymbols word).flatten = word
  noPairLeft : Merged t.pairRank (t.mergedSymbols word)
  reference : ∀ symbols, MergesTo t.pairRank (· ++ ·) (symbolsLoop word.length word) symbols ↔
    symbols = t.mergedSymbols word
  ids : ∀ ids, t.bpeTokenize word ids =
    ids ++ (t.mergedSymbols word).map fun sym => (t.vocab.lookup sym).getD t.unkTokenId

-- ---------------------------------------------------------------------------
-- Ranks
-- ---------------------------------------------------------------------------

theorem loadMerges_ranks {items : List Json} {t : TokenizerWrapper} (start : Nat)
    (ht : ∀ key r, t.bpeRanks.lookup key = some r → r < start + items.length) (key : Bytes)
    (r : Int) (h : ((items.zipIdx start).foldl loadMerge t).bpeRanks.lookup key = some r) :
    r < start + items.length := by
  induction items generalizing start t with
  | nil => exact ht key r h
  | cons item items ih =>
    rw [List.zipIdx_cons, List.foldl_cons] at h
    have hlength : ((start + 1 : Nat) : Int) + items.length = start + (item :: items).length := by
      push_cast [List.length_cons]
      omega
    rw [← hlength]
    refine ih (start + 1) (fun key' r' h' => ?_) h
    rw [hlength]
    unfold loadMerge at h'
    split at h'
    · rename_i m _
      by_cases hkey : key' = m
      · subst hkey
        rw [AList.lookup_insert] at h'
        obtain rfl := Option.some.inj h'
        push_cast [List.length_cons]
        omega
      · rw [AList.lookup_insert_ne hkey] at h'
        exact ht key' r' h'
    · exact ht key' r' h'

/-- Every rank of a merge list is below the one the search starts with. -/
theorem pairRank_lt (t : TokenizerWrapper) (merges : MergeList) {a b : Bytes} {r : Int}
    (h : (t.withMerges merges).pairRank a b = some r) : r < intMax := by
  have hlt : r < (0 : Nat) + merges.items.length := loadMerges_ranks 0 (by simp) _ r h
  have hcount := merges.countable
  omega

-- ---------------------------------------------------------------------------
-- The search for the best pair
-- ---------------------------------------------------------------------------

section Search

variable {t : TokenizerWrapper} {symbols : List Bytes}

/-- One round of the search. -/
def betterPair (t : TokenizerWrapper) (symbols : List Bytes) (best : Int × Option Nat) (i : Nat) :
    Int × Option Nat :=
  match t.pairRank (symbols.getD i []) (symbols.getD (i + 1) []) with
  | some rank => if rank < best.1 then (rank, some i) else best
  | none => best

theorem rankAt_iff (h : i + 1 < symbols.length) : RankAt t.pairRank symbols i r ↔
    t.pairRank (symbols.getD i []) (symbols.getD (i + 1) []) = some r := by
  have hi : symbols[i]? = some (symbols.getD i []) := by
    rw [List.getD_eq_getElem?_getD, List.getElem?_eq_getElem (by omega)]
    rfl
  have hnext : symbols[i + 1]? = some (symbols.getD (i + 1) []) := by
    rw [List.getD_eq_getElem?_getD, List.getElem?_eq_getElem h]
    rfl
  constructor
  · rintro ⟨a, b, ha, hb, hrank⟩
    rw [hi] at ha
    rw [hnext] at hb
    cases ha
    cases hb
    exact hrank
  · intro hrank
    exact ⟨_, _, hi, hnext, hrank⟩

theorem rankAt_lt (h : RankAt t.pairRank symbols i r) : i + 1 < symbols.length := by
  obtain ⟨_, _, _, hnext, _⟩ := h
  exact (List.getElem?_eq_some_iff.mp hnext).1

/-- What the search holds after `k` rounds: the leftmost pair of least rank among the first
`k`, if any has a rank. -/
def SearchedTo (t : TokenizerWrapper) (symbols : List Bytes) (k : Nat)
    (best : Int × Option Nat) : Prop :=
  match best.2 with
  | none => best.1 = intMax ∧ ∀ j < k, ∀ s, ¬RankAt t.pairRank symbols j s
  | some i => i < k ∧ RankAt t.pairRank symbols i best.1 ∧
    (∀ j < k, ∀ s, RankAt t.pairRank symbols j s → best.1 ≤ s) ∧
    ∀ j s, RankAt t.pairRank symbols j s → j < i → best.1 < s

variable (hranks : ∀ a b r, t.pairRank a b = some r → r < intMax)

include hranks

/-- One more round. -/
theorem searchedTo_succ (hk : k + 1 < symbols.length) (h : SearchedTo t symbols k best) :
    SearchedTo t symbols (k + 1) (betterPair t symbols best k) := by
  obtain ⟨rank, pos⟩ := best
  unfold betterPair
  cases hpair : t.pairRank (symbols.getD k []) (symbols.getD (k + 1) []) with
  | none =>
    have hnone (s : Int) : ¬RankAt t.pairRank symbols k s := by
      rw [rankAt_iff hk, hpair]
      exact Option.some_ne_none s ∘ Eq.symm
    cases pos with
    | none =>
      obtain ⟨hmax, hall⟩ := h
      refine ⟨hmax, fun j hj s => ?_⟩
      rcases Nat.lt_succ_iff_lt_or_eq.mp hj with hlt | rfl
      · exact hall j hlt s
      · exact hnone s
    | some i =>
      obtain ⟨hi, hrank, hleast, hleft⟩ := h
      refine ⟨Nat.lt_succ_of_lt hi, hrank, fun j hj s hs => ?_, hleft⟩
      rcases Nat.lt_succ_iff_lt_or_eq.mp hj with hlt | rfl
      · exact hleast j hlt s hs
      · exact absurd hs (hnone s)
  | some r =>
    have hown : RankAt t.pairRank symbols k r := (rankAt_iff hk).mpr hpair
    have hsame {s : Int} (hs : RankAt t.pairRank symbols k s) : s = r := by
      rw [rankAt_iff hk, hpair] at hs
      exact (Option.some.inj hs).symm
    dsimp only
    cases pos with
    | none =>
      obtain ⟨hmax, hall⟩ := h
      have hlt : r < rank := by
        rw [show rank = intMax from hmax]
        exact hranks _ _ r hpair
      rw [if_pos hlt]
      refine ⟨Nat.lt_succ_self k, hown, fun j hj s hs => ?_, fun j s hs hj => ?_⟩
      · rcases Nat.lt_succ_iff_lt_or_eq.mp hj with hbefore | rfl
        · exact absurd hs (hall j hbefore s)
        · exact (hsame hs).ge
      · exact absurd hs (hall j hj s)
    | some i =>
      obtain ⟨hi, hrank, hleast, hleft⟩ := h
      by_cases hlt : r < rank
      · rw [if_pos hlt]
        refine ⟨Nat.lt_succ_self k, hown, fun j hj s hs => ?_, fun j s hs hj => ?_⟩
        · rcases Nat.lt_succ_iff_lt_or_eq.mp hj with hbefore | rfl
          · exact hlt.le.trans (hleast j hbefore s hs)
          · exact (hsame hs).ge
        · exact hlt.trans_le (hleast j hj s hs)
      · rw [if_neg hlt]
        refine ⟨Nat.lt_succ_of_lt hi, hrank, fun j hj s hs => ?_, hleft⟩
        rcases Nat.lt_succ_iff_lt_or_eq.mp hj with hbefore | rfl
        · exact hleast j hbefore s hs
        · rw [hsame hs]
          exact not_lt.mp hlt

theorem searchedTo_foldl (hk : k + 1 ≤ symbols.length) :
    SearchedTo t symbols k ((List.range k).foldl (betterPair t symbols) (intMax, none)) := by
  induction k with
  | zero => exact ⟨rfl, fun j hj => absurd hj (Nat.not_lt_zero j)⟩
  | succ k ih =>
    rw [List.range_succ, List.foldl_append]
    exact searchedTo_succ hranks (by omega) (ih (by omega))

/-- The search finds the best pair, or there is none. -/
theorem bestPair_spec (hlength : 1 < symbols.length) :
    (∃ i, (t.bestPair symbols).2 = some i ∧
      BestPair t.pairRank symbols i (t.bestPair symbols).1) ∨
    (t.bestPair symbols).2 = none ∧ Merged t.pairRank symbols := by
  have hsearched : SearchedTo t symbols (symbols.length - 1) (t.bestPair symbols) :=
    searchedTo_foldl hranks (by omega)
  have hin {j : Nat} {s : Int} (hs : RankAt t.pairRank symbols j s) : j < symbols.length - 1 := by
    have hlt := rankAt_lt hs
    omega
  unfold SearchedTo at hsearched
  cases hpos : (t.bestPair symbols).2 with
  | none =>
    rw [hpos] at hsearched
    exact .inr ⟨rfl, fun j s hs => hsearched.2 j (hin hs) s hs⟩
  | some i =>
    rw [hpos] at hsearched
    obtain ⟨-, hrank, hleast, hleft⟩ := hsearched
    exact .inl ⟨i, rfl, hrank, fun j s hs => hleast j (hin hs) s hs, hleft⟩

-- ---------------------------------------------------------------------------
-- The merge loop
-- ---------------------------------------------------------------------------

omit hranks in
/-- Merging at a place is a step when the best pair stands there. -/
theorem mergeAt_step (h : BestPair t.pairRank symbols i r) :
    MergeStep t.pairRank (· ++ ·) symbols (mergeAt symbols i) := by
  have hlt := rankAt_lt h.rankAt
  refine ⟨symbols.take i, symbols[i], symbols[i + 1], symbols.drop (i + 2), r, ?_, ?_, ?_⟩
  · rw [List.getElem_cons_drop, List.getElem_cons_drop, List.take_append_drop]
  · rwa [List.length_take, Nat.min_eq_left (by omega)]
  · rw [mergeAt, List.getD_eq_getElem?_getD, List.getD_eq_getElem?_getD,
      List.getElem?_eq_getElem (by omega), List.getElem?_eq_getElem hlt, List.append_assoc]
    rfl

/-- With a round for every symbol the loop merges until no pair is left. -/
theorem mergeLoop_mergesTo (fuel : Nat) (symbols : List Bytes) (hfuel : symbols.length ≤ fuel) :
    MergesTo t.pairRank (· ++ ·) symbols (t.mergeLoop fuel symbols) := by
  have hshort {symbols : List Bytes} (h : ¬1 < symbols.length) : Merged t.pairRank symbols := by
    intro i r hr
    have hlt := rankAt_lt hr
    omega
  induction fuel generalizing symbols with
  | zero =>
    have hempty : ¬1 < symbols.length := by omega
    exact ⟨.refl, hshort hempty⟩
  | succ fuel ih =>
    rw [mergeLoop]
    by_cases hlength : 1 < symbols.length
    · rw [if_pos hlength]
      rcases bestPair_spec hranks hlength with ⟨i, hpos, hbest⟩ | ⟨hpos, hmerged⟩
      · have hstep := mergeAt_step hbest
        have hless := hstep.length
        obtain ⟨hrun, hmerged⟩ := ih (mergeAt symbols i) (by omega)
        rw [hpos]
        exact ⟨.head hstep hrun, hmerged⟩
      · rw [hpos]
        exact ⟨.refl, hmerged⟩
    · rw [if_neg hlength]
      exact ⟨.refl, hshort hlength⟩

end Search

-- ---------------------------------------------------------------------------
-- Words
-- ---------------------------------------------------------------------------

theorem flatten_symbolsLoop (fuel : Nat) (word : Bytes) (hfuel : word.length ≤ fuel) :
    (symbolsLoop fuel word).flatten = word := by
  induction fuel generalizing word with
  | zero =>
    obtain rfl := List.eq_nil_of_length_eq_zero (Nat.le_zero.mp hfuel)
    rfl
  | succ fuel ih =>
    cases word with
    | nil => rfl
    | cons c rest =>
      have hpos := utf8Length_pos c
      have hrest : ((c :: rest).drop (utf8Length c)).length ≤ fuel := by
        rw [List.length_drop]
        omega
      rw [symbolsLoop, List.flatten_cons, ih _ hrest, List.take_append_drop]

theorem flatten_mergeStep {rank : Bytes → Bytes → Option Int} {xs ys : List Bytes}
    (h : MergeStep rank (· ++ ·) xs ys) :
    ys.flatten = xs.flatten := by
  obtain ⟨front, a, b, back, r, rfl, -, rfl⟩ := h
  simp

/-- For every merge list and word, the merge loop ends, loses nothing and does what the
reference procedure does. -/
theorem withMerges_mergesWord (t : TokenizerWrapper) (merges : MergeList) (word : Bytes) :
    (t.withMerges merges).MergesWord word := by
  have hranks : ∀ a b r, (t.withMerges merges).pairRank a b = some r → r < intMax :=
    fun a b r h => t.pairRank_lt merges h
  have hmerges := mergeLoop_mergesTo hranks _ (symbolsLoop word.length word) le_rfl
  constructor
  · intro fuel hfuel
    exact (mergeLoop_mergesTo hranks fuel _ hfuel).unique hmerges
  · exact no_endless_merging
  · have hflatten := hmerges.keeps (f := List.flatten) fun _ _ => flatten_mergeStep
    exact hflatten.trans (flatten_symbolsLoop word.length word le_rfl)
  · exact hmerges.2
  · intro symbols
    constructor
    · exact fun h => h.unique hmerges
    · rintro rfl
      exact hmerges
  · exact fun ids => rfl

end TokenizerWrapper

end LibEmbedding
