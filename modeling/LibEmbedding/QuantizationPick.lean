import LibEmbedding.Foundation.Leaders
import LibEmbedding.QuantizationAuto

/-!
# The gain floor of the decision

`quant_auto_pick` keeps the fastest variant that clears the floor, and then prefers the dynamic
one while nothing is clearly faster. The preference does not ask whether the dynamic variant
clears the floor.
-/

namespace LibEmbedding

open Foundation

/-- A measured table: at most one row a mode. -/
structure PickTable (measured : List QuantizationMeasurement) : Prop where
  size : measured.length ≤ quantMaxVariants
  modes : (measured.map (·.quantization)).Nodup
  rates : ∀ row ∈ measured, 0 < row.docsPerSec

/-- What is picked over full precision is faster by the floor. -/
def KeepsFloor (measured : List QuantizationMeasurement) : Prop :=
  quantAutoPick measured ≠ Quantization.none.code →
    ∃ base ∈ measured, ∃ picked ∈ measured, base.quantization = Quantization.none.code ∧
      picked.quantization = quantAutoPick measured ∧
      quantMinGain * base.docsPerSec ≤ picked.docsPerSec

def PickOrderFree (measured : List QuantizationMeasurement) : Prop :=
  (measured.map (·.docsPerSec)).Nodup → ∀ other : List QuantizationMeasurement,
    other.Perm measured → quantAutoPick other = quantAutoPick measured

/-- Where the fastest row clears the floor and is not clearly faster than the dynamic one, the
dynamic one clears it too. -/
def DynamicClears (measured : List QuantizationMeasurement) : Prop :=
  ∀ base ∈ measured, ∀ dynamic ∈ measured, ∀ top ∈ measured,
    base.quantization = Quantization.none.code → dynamic.quantization = Quantization.dynamic.code →
      (∀ row ∈ measured, row.docsPerSec ≤ top.docsPerSec) →
        quantMinGain * base.docsPerSec ≤ top.docsPerSec →
          top.docsPerSec / dynamic.docsPerSec < quantDynamicPreference →
            quantMinGain * base.docsPerSec ≤ dynamic.docsPerSec

instance (measured : List QuantizationMeasurement) : Decidable (DynamicClears measured) :=
  inferInstanceAs (Decidable (∀ _ ∈ _, _))

variable {measured other : List QuantizationMeasurement}

-- ---------------------------------------------------------------------------
-- Rates and the fastest row
-- ---------------------------------------------------------------------------

theorem PickTable.unique (h : PickTable measured) {a b : QuantizationMeasurement}
    (ha : a ∈ measured) (hb : b ∈ measured) (hmode : a.quantization = b.quantization) : a = b :=
  List.inj_on_of_nodup_map h.modes ha hb hmode

theorem PickTable.perm (h : PickTable measured) (hperm : other.Perm measured) :
    PickTable other where
  size := hperm.length_eq ▸ h.size
  modes := ((hperm.map _).nodup_iff).mpr h.modes
  rates row hrow := h.rates row (hperm.mem_iff.mp hrow)

theorem rateOf_append (q : Int) (measured : List QuantizationMeasurement)
    (row : QuantizationMeasurement) :
    rateOf q (measured ++ [row]) =
      if row.docsPerSec ≤ 0 then rateOf q measured
      else if row.quantization = q then some row.docsPerSec else rateOf q measured := by
  rw [rateOf, List.foldl_append, List.foldl_cons, List.foldl_nil]
  rfl

/-- With one row a mode, the last row of a mode is its row. -/
theorem rateOf_eq_some_iff (hmodes : (measured.map (·.quantization)).Nodup)
    (hrates : ∀ row ∈ measured, 0 < row.docsPerSec) :
    rateOf q measured = some rate ↔
      ∃ row ∈ measured, row.quantization = q ∧ row.docsPerSec = rate := by
  induction measured using List.reverseRecOn with
  | nil => exact ⟨nofun, fun ⟨row, hrow, _⟩ => absurd hrow List.not_mem_nil⟩
  | append_singleton measured last ih =>
    have hpos := hrates last (List.mem_append_right _ List.mem_cons_self)
    rw [List.map_append, List.nodup_append] at hmodes
    obtain ⟨hbefore, -, hdisjoint⟩ := hmodes
    have ih := ih hbefore fun row hrow => hrates row (List.mem_append_left _ hrow)
    rw [rateOf_append, if_neg (not_le.mpr hpos)]
    by_cases hlast : last.quantization = q
    · rw [if_pos hlast]
      constructor
      · intro hrate
        exact ⟨last, List.mem_append_right _ List.mem_cons_self, hlast, Option.some.inj hrate⟩
      · rintro ⟨row, hrow, hmode, hrate⟩
        rcases List.mem_append.mp hrow with hearlier | hown
        · have hmem := List.mem_map_of_mem (f := (·.quantization)) hearlier
          exact absurd (hmode.trans hlast.symm)
            (hdisjoint _ hmem _ (by rw [List.map_singleton]; exact List.mem_cons_self))
        · rw [← hrate, List.mem_singleton.mp hown]
    · rw [if_neg hlast, ih]
      constructor
      · rintro ⟨row, hrow, hfound⟩
        exact ⟨row, List.mem_append_left _ hrow, hfound⟩
      · rintro ⟨row, hrow, hmode, hrate⟩
        rcases List.mem_append.mp hrow with hearlier | hown
        · exact ⟨row, hearlier, hmode, hrate⟩
        · rw [List.mem_singleton.mp hown] at hmode
          exact absurd hmode hlast

/-- The rows that clear the floor. -/
def clearing (baseline : ℚ) (measured : List QuantizationMeasurement) :
    List QuantizationMeasurement :=
  measured.filter fun row => row.quantization ≠ Quantization.none.code ∧ 0 < row.docsPerSec ∧
    quantMinGain ≤ row.docsPerSec / baseline

/-- The search keeps the leader of the rows that clear the floor. -/
theorem fastest_eq_leader (baseline : ℚ) (measured : List QuantizationMeasurement) :
    fastest baseline measured =
      ((leader (·.docsPerSec) baseline (clearing baseline measured)).map fun row =>
        (row.quantization, row.docsPerSec)).getD (Quantization.none.code, baseline) := by
  induction measured using List.reverseRecOn with
  | nil => rfl
  | append_singleton measured row ih =>
    have hstanding (best : Option QuantizationMeasurement) :
        ((best.map fun row => (row.quantization, row.docsPerSec)).getD
          (Quantization.none.code, baseline)).2 =
            standing (·.docsPerSec) baseline best := by
      cases best with
      | none => rfl
      | some best => rfl
    have hfold : fastest baseline (measured ++ [row]) =
        (let best := fastest baseline measured
        if row.quantization = Quantization.none.code ∨ row.docsPerSec ≤ 0 then best
        else if quantMinGain ≤ row.docsPerSec / baseline ∧ best.2 < row.docsPerSec then
          (row.quantization, row.docsPerSec)
        else best) := by
      rw [fastest, List.foldl_append, List.foldl_cons, List.foldl_nil]
      rfl
    have hsplit : clearing baseline (measured ++ [row]) =
        clearing baseline measured ++ clearing baseline [row] := List.filter_append ..
    rw [hfold, ih, hsplit]
    dsimp only
    rw [hstanding]
    by_cases hclears : row.quantization ≠ Quantization.none.code ∧ 0 < row.docsPerSec ∧
        quantMinGain ≤ row.docsPerSec / baseline
    · obtain ⟨hmode, hpos, hgain⟩ := id hclears
      have hrow : clearing baseline [row] = [row] := List.filter_cons_of_pos (decide_eq_true hclears)
      rw [hrow, leader_append, if_neg (not_or.mpr ⟨hmode, not_le.mpr hpos⟩)]
      by_cases hbeats : standing (·.docsPerSec) baseline
          (leader (·.docsPerSec) baseline (clearing baseline measured)) < row.docsPerSec
      · rw [if_pos ⟨hgain, hbeats⟩, if_pos hbeats]
        rfl
      · rw [if_neg fun h => hbeats h.2, if_neg hbeats]
    · have hrow : clearing baseline [row] = [] := List.filter_cons_of_neg (by simpa using hclears)
      rw [hrow, List.append_nil]
      split
      · rfl
      · rename_i hskipped
        rw [not_or, not_le] at hskipped
        rw [if_neg fun h => hclears ⟨hskipped.1, hskipped.2, h.1⟩]

-- ---------------------------------------------------------------------------
-- What is picked
-- ---------------------------------------------------------------------------

/-- A row that clears the floor and is the fastest of its table. -/
structure Tops (measured : List QuantizationMeasurement) (base top : QuantizationMeasurement) :
    Prop where
  baseMem : base ∈ measured
  baseMode : base.quantization = Quantization.none.code
  topMem : top ∈ measured
  floor : quantMinGain * base.docsPerSec ≤ top.docsPerSec
  fastest : ∀ row ∈ measured, row.docsPerSec ≤ top.docsPerSec

theorem quantMinGain_pos : 1 < quantMinGain := by
  norm_num [quantMinGain]

theorem Tops.mode_ne (h : PickTable measured) (htops : Tops measured base top) :
    top.quantization ≠ Quantization.none.code := by
  intro hnone
  obtain rfl := h.unique htops.topMem htops.baseMem (hnone.trans htops.baseMode.symm)
  have hpos := h.rates top htops.baseMem
  have hfloor := htops.floor
  have hgain := mul_lt_mul_of_pos_right quantMinGain_pos hpos
  linarith

/-- The leader of the rows that clear the floor is the fastest row. -/
theorem tops_of_leader (h : PickTable measured) (hbase : base ∈ measured)
    (hmode : base.quantization = Quantization.none.code)
    (hleader : leader (·.docsPerSec) base.docsPerSec (clearing base.docsPerSec measured) =
      some top) : Tops measured base top := by
  have hlead := leader_eq_some_iff.mp hleader
  obtain ⟨htop, hclears⟩ := List.mem_filter.mp hlead.mem
  obtain ⟨-, -, hgain⟩ := of_decide_eq_true hclears
  have hpos := h.rates base hbase
  have hfloor : quantMinGain * base.docsPerSec ≤ top.docsPerSec := (le_div_iff₀ hpos).mp hgain
  refine ⟨hbase, hmode, htop, hfloor, fun row hrow => ?_⟩
  by_cases hrowClears : row.quantization ≠ Quantization.none.code ∧ 0 < row.docsPerSec ∧
      quantMinGain ≤ row.docsPerSec / base.docsPerSec
  · exact hlead.max (List.mem_filter.mpr ⟨hrow, decide_eq_true hrowClears⟩)
  · by_cases hnone : row.quantization = Quantization.none.code
    · rw [h.unique hrow hbase (hnone.trans hmode.symm)]
      exact hlead.above.le
    · have hshort : ¬quantMinGain ≤ row.docsPerSec / base.docsPerSec := fun hle =>
        hrowClears ⟨hnone, h.rates row hrow, hle⟩
      rw [not_le, div_lt_iff₀ hpos] at hshort
      exact hshort.le.trans hfloor

theorem leader_of_tops (h : PickTable measured) (htops : Tops measured base top) :
    ∃ found, leader (·.docsPerSec) base.docsPerSec (clearing base.docsPerSec measured) =
      some found ∧ found ∈ measured ∧ found.docsPerSec = top.docsPerSec := by
  have hpos := h.rates base htops.baseMem
  have hclears : top ∈ clearing base.docsPerSec measured := by
    refine List.mem_filter.mpr ⟨htops.topMem, decide_eq_true ⟨htops.mode_ne h, ?_, ?_⟩⟩
    · exact h.rates top htops.topMem
    · exact (le_div_iff₀ hpos).mpr htops.floor
  cases hleader : leader (·.docsPerSec) base.docsPerSec (clearing base.docsPerSec measured) with
  | none =>
    have hbelow := leader_eq_none_iff.mp hleader top hclears
    have hgain := mul_lt_mul_of_pos_right quantMinGain_pos hpos
    have hfloor := htops.floor
    linarith
  | some found =>
    have hfound := tops_of_leader h htops.baseMem htops.baseMode hleader
    have hlead := leader_eq_some_iff.mp hleader
    exact ⟨found, rfl, hfound.topMem,
      le_antisymm (htops.fastest found hfound.topMem) (hlead.max hclears)⟩

/-- The rule, once the baseline and the fastest row are known. -/
theorem quantAutoPick_of_leader (h : PickTable measured) (hbase : base ∈ measured)
    (hmode : base.quantization = Quantization.none.code)
    (hleader : leader (·.docsPerSec) base.docsPerSec (clearing base.docsPerSec measured) =
      some top) :
    quantAutoPick measured =
      match rateOf Quantization.dynamic.code measured with
      | none => top.quantization
      | some dynamic =>
        if top.quantization ≠ Quantization.dynamic.code ∧
            top.docsPerSec / dynamic < quantDynamicPreference then Quantization.dynamic.code
        else top.quantization := by
  have hrate : rateOf Quantization.none.code measured = some base.docsPerSec :=
    (rateOf_eq_some_iff h.modes h.rates).mpr ⟨base, hbase, hmode, rfl⟩
  have htop := (tops_of_leader h hbase hmode hleader).mode_ne h
  rw [quantAutoPick, hrate]
  dsimp only
  rw [fastest_eq_leader, hleader, Option.map_some, Option.getD_some]
  exact if_neg htop

/-- Over full precision nothing is picked without a baseline and a row that clears the floor. -/
theorem leader_of_picked (h : PickTable measured)
    (hpicked : quantAutoPick measured ≠ Quantization.none.code) :
    ∃ base ∈ measured, base.quantization = Quantization.none.code ∧ ∃ top,
      leader (·.docsPerSec) base.docsPerSec (clearing base.docsPerSec measured) = some top := by
  cases hrate : rateOf Quantization.none.code measured with
  | none =>
    rw [quantAutoPick, hrate] at hpicked
    exact absurd rfl hpicked
  | some rate =>
    obtain ⟨base, hbase, hmode, rfl⟩ := (rateOf_eq_some_iff h.modes h.rates).mp hrate
    refine ⟨base, hbase, hmode, ?_⟩
    cases hleader : leader (·.docsPerSec) base.docsPerSec
        (clearing base.docsPerSec measured) with
    | some top => exact ⟨top, rfl⟩
    | none =>
      rw [quantAutoPick, hrate] at hpicked
      dsimp only at hpicked
      rw [fastest_eq_leader, hleader] at hpicked
      exact absurd (if_pos rfl) hpicked

-- ---------------------------------------------------------------------------
-- The floor and the order
-- ---------------------------------------------------------------------------

theorem keepsFloor_of_dynamicClears (h : PickTable measured) (hclears : DynamicClears measured) :
    KeepsFloor measured := by
  intro hpicked
  obtain ⟨base, hbase, hmode, top, hleader⟩ := leader_of_picked h hpicked
  have htops := tops_of_leader h hbase hmode hleader
  have hpick := quantAutoPick_of_leader h hbase hmode hleader
  cases hrate : rateOf Quantization.dynamic.code measured with
  | none =>
    rw [hrate] at hpick
    exact ⟨base, hbase, top, htops.topMem, hmode, hpick.symm, htops.floor⟩
  | some rate =>
    obtain ⟨dynamic, hmem, hdynamic, rfl⟩ := (rateOf_eq_some_iff h.modes h.rates).mp hrate
    rw [hrate] at hpick
    dsimp only at hpick
    split at hpick
    · rename_i hprefers
      refine ⟨base, hbase, dynamic, hmem, hmode, hdynamic.trans hpick.symm, ?_⟩
      exact hclears base hbase dynamic hmem top htops.topMem hmode hdynamic htops.fastest htops.floor
        hprefers.2
    · exact ⟨base, hbase, top, htops.topMem, hmode, hpick.symm, htops.floor⟩

theorem dynamicClears_of_keepsFloor (h : PickTable measured) (hkeeps : KeepsFloor measured) :
    DynamicClears measured := by
  intro base hbase dynamic hmem top htop hmode hdynamic hfastest hfloor hnear
  obtain ⟨found, hleader, hfound, hrate⟩ :=
    leader_of_tops h ⟨hbase, hmode, htop, hfloor, hfastest⟩
  have hdynamic_ne : Quantization.dynamic.code ≠ Quantization.none.code := by decide
  by_cases hown : found.quantization = Quantization.dynamic.code
  · obtain rfl := h.unique hfound hmem (hown.trans hdynamic.symm)
    exact hrate ▸ hfloor
  · have hdynamicRate : rateOf Quantization.dynamic.code measured = some dynamic.docsPerSec :=
      (rateOf_eq_some_iff h.modes h.rates).mpr ⟨dynamic, hmem, hdynamic, rfl⟩
    have hpick : quantAutoPick measured = Quantization.dynamic.code := by
      rw [quantAutoPick_of_leader h hbase hmode hleader, hdynamicRate]
      exact if_pos ⟨hown, by rwa [hrate]⟩
    obtain ⟨base', hbase', picked, hpickedMem, hmode', hpicked, hgain⟩ :=
      hkeeps (hpick ▸ hdynamic_ne)
    obtain rfl := h.unique hbase' hbase (hmode'.trans hmode.symm)
    obtain rfl := h.unique hpickedMem hmem (hpicked.trans (hpick.trans hdynamic.symm))
    exact hgain

/-- Rows in another order lead to the same decision if no two of them are equally fast. -/
theorem pickOrderFree (h : PickTable measured) : PickOrderFree measured := by
  intro hdistinct other hperm
  have hrate (q : Int) : rateOf q other = rateOf q measured := by
    refine Option.ext fun rate => ?_
    rw [rateOf_eq_some_iff (h.perm hperm).modes (h.perm hperm).rates,
      rateOf_eq_some_iff h.modes h.rates]
    simp only [hperm.mem_iff]
  have hfastest (baseline : ℚ) : fastest baseline other = fastest baseline measured := by
    have hclearing : (clearing baseline other).Perm (clearing baseline measured) := hperm.filter _
    rw [fastest_eq_leader, fastest_eq_leader,
      leader_perm hclearing (hdistinct.sublist (List.filter_sublist.map _))]
  rw [quantAutoPick, hrate, quantAutoPick]
  simp only [hrate, hfastest]

/-- The decision keeps its floor, whatever the order of the rows, exactly when the dynamic
variant clears it wherever it is preferred. -/
theorem keepsFloor_iff (h : PickTable measured) :
    KeepsFloor measured ∧ PickOrderFree measured ↔ DynamicClears measured :=
  ⟨fun hboth => dynamicClears_of_keepsFloor h hboth.1,
    fun hclears => ⟨keepsFloor_of_dynamicClears h hclears, pickOrderFree h⟩⟩

/-- A table in which everything quantized is faster by the floor. -/
def plainTable : List QuantizationMeasurement :=
  [⟨0, 100, 1, 1⟩, ⟨2, 120, 1, 1⟩, ⟨4, 110, 1, 1⟩]

theorem plainTable_keepsFloor : KeepsFloor plainTable ∧ PickOrderFree plainTable :=
  (keepsFloor_iff ⟨by decide, by decide, by decide +kernel⟩).mpr (by decide +kernel)

/-- A table whose dynamic variant is slower than full precision. -/
def slowDynamic : List QuantizationMeasurement :=
  [⟨0, 100, 1, 1⟩, ⟨2, 96, 1, 1⟩, ⟨4, 110, 1, 1⟩]

/-- The slower variant is picked. -/
theorem slowDynamic_not_keepsFloor : ¬KeepsFloor slowDynamic := by
  intro hkeeps
  have hpick : quantAutoPick slowDynamic = Quantization.dynamic.code := by decide +kernel
  have hnone : ¬∃ base ∈ slowDynamic, ∃ picked ∈ slowDynamic,
      base.quantization = Quantization.none.code ∧
        picked.quantization = Quantization.dynamic.code ∧
          quantMinGain * base.docsPerSec ≤ picked.docsPerSec := by decide +kernel
  refine hnone ?_
  rw [← hpick]
  exact hkeeps (by rw [hpick]; decide)

end LibEmbedding
