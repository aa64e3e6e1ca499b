import LibEmbedding.AutotuneCacheReads

/-!
# Documents cut short

What the accessors find in the first bytes of a document: its first lines, the last one cut, and
on a line that is cut no field that was not on it. No text belongs to an identity that does not
stay on its lines.
-/

namespace LibEmbedding

open Foundation

/-- The first of the lines, the last one cut. -/
inductive Cut : List Bytes → List Bytes → Prop
  | none : Cut lines []
  | within : part <+: line → Cut (line :: lines) [part]
  | line : Cut lines cut → Cut (line :: lines) (line :: cut)

namespace Cut

theorem mem (h : Cut lines cut) : ∀ part ∈ cut, ∃ line ∈ lines, part <+: line := by
  induction h with
  | none => exact fun _ hpart => absurd hpart List.not_mem_nil
  | within hpre =>
    intro part hpart
    obtain rfl := List.mem_singleton.mp hpart
    exact ⟨_, List.mem_cons_self, hpre⟩
  | line _ ih =>
    intro part hpart
    rcases List.mem_cons.mp hpart with rfl | hpart
    · exact ⟨_, List.mem_cons_self, List.prefix_rfl⟩
    · obtain ⟨line, hline, hpre⟩ := ih part hpart
      exact ⟨line, List.mem_cons_of_mem _ hline, hpre⟩

theorem length_le (h : Cut lines cut) : cut.length ≤ lines.length := by
  induction h with
  | none => exact Nat.zero_le _
  | within _ => exact Nat.succ_le_succ (Nat.zero_le _)
  | line _ ih => exact Nat.succ_le_succ ih

/-- The cut is in the first lines or behind them. -/
theorem append {first : List Bytes} (h : Cut (first ++ rest) cut) :
    Cut first cut ∨ ∃ cut', Cut rest cut' ∧ cut = first ++ cut' := by
  induction first generalizing cut with
  | nil => exact .inr ⟨cut, h, rfl⟩
  | cons line first ih =>
    cases h with
    | none => exact .inl .none
    | within hpre => exact .inl (.within hpre)
    | line h =>
      rcases ih h with hfirst | ⟨cut', hrest, rfl⟩
      · exact .inl (.line hfirst)
      · exact .inr ⟨cut', hrest, rfl⟩

end Cut

-- ---------------------------------------------------------------------------
-- Lines
-- ---------------------------------------------------------------------------

theorem linesFrom_unbroken (hpart : 10 ∉ part) (start : Bytes) :
    linesFrom start part = if start ++ part = [] then [] else [start ++ part] := by
  induction part generalizing start with
  | nil =>
    rw [List.append_nil]
    rfl
  | cons c part ih =>
    have hc := List.ne_of_not_mem_cons hpart
    rw [linesFrom, if_neg (Ne.symm hc), ih (List.not_mem_of_not_mem_cons hpart), List.append_assoc]
    rfl

theorem document_cons (line : Bytes) (lines : List Bytes) :
    document (line :: lines) = line ++ 10 :: document lines := by
  rw [document, List.flatMap_cons, List.append_assoc]
  rfl

theorem linesOf_cons (hline : 10 ∉ line) (rest : Bytes) :
    linesOf (line ++ 10 :: rest) = line :: linesOf rest := linesFrom_append hline []

/-- Whole lines and the start of another. -/
theorem linesOf_partial (hlines : ∀ line ∈ lines, 10 ∉ line) (hpart : 10 ∉ part) (hne : part ≠ []) :
    linesOf (document lines ++ part) = lines ++ [part] := by
  induction lines with
  | nil =>
    have hlast := linesFrom_unbroken hpart []
    rw [List.nil_append, if_neg hne] at hlast
    exact hlast
  | cons line lines ih =>
    rw [List.forall_mem_cons] at hlines
    rw [document_cons, List.append_assoc, List.cons_append, linesOf_cons hlines.1, ih hlines.2]
    rfl

theorem prefix_split {p a b : Bytes} (h : p <+: a ++ b) :
    p <+: a ∨ ∃ t, p = a ++ t ∧ t <+: b := by
  induction a generalizing p with
  | nil => exact .inr ⟨p, rfl, h⟩
  | cons c a ih =>
    cases p with
    | nil => exact .inl List.nil_prefix
    | cons d p =>
      obtain ⟨rfl, hrest⟩ := List.cons_prefix_cons.mp h
      rcases ih hrest with hshort | ⟨t, rfl, ht⟩
      · exact .inl (List.cons_prefix_cons.mpr ⟨rfl, hshort⟩)
      · exact .inr ⟨t, rfl, ht⟩

/-- The lines of the first bytes of a document. -/
theorem cut_of_initial (hlines : ∀ line ∈ lines, 10 ∉ line) (h : p <+: document lines) :
    Cut lines (linesOf p) := by
  induction lines generalizing p with
  | nil =>
    obtain rfl := List.prefix_nil.mp h
    exact .none
  | cons line lines ih =>
    rw [List.forall_mem_cons] at hlines
    have hwithin (hpre : p <+: line) : Cut (line :: lines) (linesOf p) := by
      have hsame := linesFrom_unbroken (fun hin => hlines.1 (hpre.subset hin)) []
      rw [linesOf, hsame]
      split
      · exact .none
      · exact .within hpre
    rw [document_cons] at h
    rcases prefix_split h with hpre | ⟨t, rfl, ht⟩
    · exact hwithin hpre
    · cases t with
      | nil => exact hwithin (by rw [List.append_nil])
      | cons c t =>
        obtain ⟨rfl, hrest⟩ := List.cons_prefix_cons.mp ht
        rw [linesOf_cons hlines.1]
        exact .line (ih hlines.2 hrest)

-- ---------------------------------------------------------------------------
-- Fields on a line that is cut
-- ---------------------------------------------------------------------------

theorem after_length (h : after pattern s = some found) : pattern.length ≤ s.length := by
  induction s with
  | nil =>
    rw [after] at h
    split at h
    · rename_i hnil
      exact le_of_eq (congrArg List.length hnil)
    · cases h
  | cons c s ih =>
    rw [after] at h
    split at h
    · rename_i hpre
      exact (List.isPrefixOf_iff_prefix.mp hpre).length_le
    · exact (ih h).trans (Nat.le_succ _)

/-- What is found is found in a longer text too, at the same place. -/
theorem after_extend (h : after pattern s = some found) (t : Bytes) :
    after pattern (s ++ t) = some (found ++ t) := by
  have hlength := after_length h
  induction s with
  | nil =>
    obtain rfl := List.eq_nil_of_length_eq_zero (Nat.le_zero.mp hlength)
    cases h
    cases t with
    | nil => rfl
    | cons c t => rfl
  | cons c s ih =>
    have hsame : pattern.isPrefixOf (c :: (s ++ t)) = pattern.isPrefixOf (c :: s) := by
      rw [Bool.eq_iff_iff, List.isPrefixOf_iff_prefix, List.isPrefixOf_iff_prefix]
      exact ⟨fun hpre => List.prefix_of_prefix_length_le hpre (List.prefix_append (c :: s) t) hlength,
        fun hpre => hpre.trans (List.prefix_append (c :: s) t)⟩
    rw [after] at h
    rw [List.cons_append, after, hsame]
    split
    · rename_i hpre
      rw [if_pos hpre] at h
      cases h
      rw [← List.cons_append, List.drop_append_of_le_length hlength]
    · rename_i hpre
      rw [if_neg hpre] at h
      exact ih h (after_length h)

theorem jsonValueSpan_extend (h : jsonValueSpan line key = some found) (t : Bytes) :
    jsonValueSpan (line ++ t) key = some (found ++ t) := by
  obtain ⟨value, hvalue, hfound⟩ := Option.bind_eq_some_iff.mp h
  rw [jsonValueSpan, after_extend hvalue t]
  exact after_extend hfound t

/-- A line that is cut tells no more than the whole line. -/
theorem OnlyField.of_prefix (h : OnlyField line name) (hpre : part <+: line) :
    OnlyField part name := by
  obtain ⟨t, rfl⟩ := hpre
  intro key hkey hne
  cases hspan : jsonValueSpan part key with
  | none => rfl
  | some found =>
    have hnone := h key hkey hne
    rw [jsonValueSpan_extend hspan t] at hnone
    cases hnone

-- ---------------------------------------------------------------------------
-- Owners
-- ---------------------------------------------------------------------------

theorem after_suffix (h : after pattern s = some found) : found <:+ s := by
  induction s with
  | nil =>
    rw [after] at h
    split at h
    · cases h
      exact List.suffix_rfl
    · cases h
  | cons c s ih =>
    rw [after] at h
    split at h
    · cases h
      exact List.drop_suffix _ _
    · exact (ih h).trans (List.suffix_cons c s)

theorem linesFrom_noNewline (s : Bytes) (hstart : 10 ∉ start) :
    ∀ line ∈ linesFrom start s, 10 ∉ line := by
  induction s generalizing start with
  | nil =>
    intro line hline
    rw [linesFrom] at hline
    split at hline
    · cases hline
    · exact List.mem_singleton.mp hline ▸ hstart
  | cons c s ih =>
    intro line hline
    rw [linesFrom] at hline
    split at hline
    · rcases List.mem_cons.mp hline with rfl | hrest
      · exact hstart
      · exact ih List.not_mem_nil line hrest
    · rename_i hc
      refine ih ?_ line hline
      rw [List.mem_append, List.mem_singleton, not_or]
      exact ⟨hstart, Ne.symm hc⟩

/-- A quoted value stays between its quotes and on its line. -/
theorem plain_jsonStringIn (h : jsonStringIn content key = some value) : Plain value := by
  obtain ⟨line, hline, hvalue⟩ := List.exists_of_findSome?_eq_some h
  obtain ⟨span, hspan, hquoted⟩ := Option.bind_eq_some_iff.mp hvalue
  obtain ⟨rest, hrest, hclose⟩ := Option.bind_eq_some_iff.mp hquoted
  split at hclose
  · cases hclose
    refine ⟨fun hquote => ?_, fun hnewline => ?_⟩
    · have hbefore := List.mem_takeWhile_imp hquote
      simp at hbefore
    · obtain ⟨first, hfirst, hcolon⟩ := Option.bind_eq_some_iff.mp hspan
      have hin : 10 ∈ line := (after_suffix hfirst).subset <| (after_suffix hcolon).subset <|
        (after_suffix hrest).subset <| (List.takeWhile_prefix _).subset hnewline
      exact linesFrom_noNewline content List.not_mem_nil line hline hin
  · cases hclose

theorem stod_inRange (h : stod s = some v) : inRange v = true := by
  rw [stod] at h
  dsimp only at h
  split at h
  · cases h
  · obtain ⟨hrange, hvalue⟩ := Option.ite_none_right_eq_some.mp h
    exact Option.some.inj hvalue ▸ hrange

theorem truncated_size (h : inRange v = true) : (truncated v).natAbs < 2 ^ 1024 := by
  rw [inRange, Bool.or_eq_true, Bool.and_eq_true, decide_eq_true_eq, decide_eq_true_eq] at h
  rcases h with rfl | ⟨hsize, -⟩
  · exact Nat.pow_pos Nat.two_pos
  · rw [truncated, Int.natAbs_tdiv, Int.natAbs_natCast]
    exact Nat.div_lt_of_lt_mul (by rwa [Nat.mul_comm])

theorem size_jsonNumberIn (h : jsonNumberIn content key = some v) :
    (truncated v).natAbs < 2 ^ 1024 := by
  obtain ⟨line, -, hvalue⟩ := List.exists_of_findSome?_eq_some h
  obtain ⟨span, -, hnumber⟩ := Option.bind_eq_some_iff.mp hvalue
  dsimp only at hnumber
  split at hnumber
  · cases hnumber
  · exact truncated_size (stod_inRange hnumber)

/-- Only an identity that its own document can be told by owns a text. -/
theorem CacheIdentity.legible_of_matches {id : CacheIdentity}
    (h : CacheIdentity.matches content id = true) : id.Legible := by
  unfold CacheIdentity.matches at h
  split at h
  · rename_i model variant corpus objective mode hmodel hvariant hcorpus hobjective hmode
    simp only [Bool.and_eq_true, decide_eq_true_eq] at h
    obtain ⟨⟨⟨⟨rfl, rfl⟩, rfl⟩, hown⟩, hown'⟩ := h
    exact {
      model := plain_jsonStringIn hmodel
      variant := plain_jsonStringIn hvariant
      corpus := plain_jsonStringIn hcorpus
      objective := hown ▸ size_jsonNumberIn hobjective
      mode := hown' ▸ size_jsonNumberIn hmode }
  · cases h

end LibEmbedding
