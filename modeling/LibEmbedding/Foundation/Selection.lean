import LibEmbedding.Foundation.Sorting

/-!
# Selecting the heaviest elements

A selection of `k` elements none of which is lighter than an element left out. It is
determined up to ties: how many of its elements weigh at least `w` depends on how many
of the whole list do, for every `w`, and these counts determine the weights.
-/

namespace LibEmbedding.Foundation

variable {α : Type} [LinearOrder α] {β : Type} {weight : β → α}

/-- `out` are `k` heaviest elements of `l`, or all of it where it is shorter. -/
def Heaviest (weight : β → α) (k : Nat) (l out : List β) : Prop :=
  ∃ rest, (out ++ rest).Perm l ∧ out.length = min k l.length ∧
    ∀ a ∈ out, ∀ b ∈ rest, weight b ≤ weight a

theorem Heaviest.of_perm {k : Nat} (h : Heaviest weight k l out) (hp : l.Perm l') :
    Heaviest weight k l' out := by
  obtain ⟨rest, hperm, hlen, hle⟩ := h
  exact ⟨rest, hperm.trans hp, hp.length_eq ▸ hlen, hle⟩

/-- The number of elements that weigh at least `w`. -/
def countFrom (weight : β → α) (w : α) (l : List β) : Nat := l.countP fun b => decide (w ≤ weight b)

theorem countFrom_append (w : α) (l l' : List β) :
    countFrom weight w (l ++ l') = countFrom weight w l + countFrom weight w l' :=
  List.countP_append

theorem countFrom_perm (weight : β → α) (h : l.Perm l') (w : α) :
    countFrom weight w l = countFrom weight w l' :=
  h.countP_eq _

theorem countFrom_pos_iff {l : List β} : 0 < countFrom weight w l ↔ ∃ b ∈ l, w ≤ weight b := by
  simp [countFrom, List.countP_pos_iff]

theorem countFrom_eq_length_iff {l : List β} :
    countFrom weight w l = l.length ↔ ∀ b ∈ l, w ≤ weight b := by
  simp [countFrom, List.countP_eq_length]

theorem countFrom_le_length (weight : β → α) (w : α) (l : List β) : countFrom weight w l ≤ l.length :=
  List.countP_le_length

theorem Heaviest.subset {k : Nat} (h : Heaviest weight k l out) (ha : a ∈ out) : a ∈ l := by
  obtain ⟨rest, hperm, -, -⟩ := h
  exact hperm.subset (List.mem_append_left rest ha)

theorem Heaviest.count {k : Nat} (h : Heaviest weight k l out) (w : α) :
    countFrom weight w out = min k (countFrom weight w l) := by
  obtain ⟨rest, hperm, hlen, hle⟩ := h
  have htotal := countFrom_perm weight hperm w
  rw [countFrom_append] at htotal
  have hlength := hperm.length_eq
  rw [List.length_append] at hlength
  have hbound := countFrom_le_length weight w out
  by_cases hrest : 0 < countFrom weight w rest
  · -- An element left out weighs enough, so all selected ones do, and there are `k`.
    obtain ⟨b, hb, hw⟩ := countFrom_pos_iff.mp hrest
    have hall : countFrom weight w out = out.length :=
      countFrom_eq_length_iff.mpr fun a ha => hw.trans (hle a ha b hb)
    have hne : 0 < rest.length := List.length_pos_of_mem hb
    omega
  · omega

/-- Where fewer than `k` elements weigh at least `w`, all of them are selected. -/
theorem Heaviest.mem_of_count_lt {k : Nat} (h : Heaviest weight k l out)
    (hlt : countFrom weight (weight b) l < k) (hb : b ∈ l) : b ∈ out := by
  have hcount := h.count (weight b)
  obtain ⟨rest, hperm, -, -⟩ := h
  have htotal := countFrom_perm weight hperm (weight b)
  rw [countFrom_append] at htotal
  rcases List.mem_append.mp (hperm.mem_iff.mpr hb) with hout | hrest
  · exact hout
  · have := countFrom_pos_iff.mpr ⟨b, hrest, le_refl (weight b)⟩
    omega

/-- An element as heavy as the cut is no heavier than any selected one. -/
theorem Heaviest.tie {k : Nat} (h : Heaviest weight k l out)
    (hk : k ≤ countFrom weight (weight b) l) :
    out.length = k ∧ ∀ a ∈ out, weight b ≤ weight a := by
  have hcount := h.count (weight b)
  have hbound := countFrom_le_length weight (weight b) out
  obtain ⟨-, -, hlen, -⟩ := h
  have hall : countFrom weight (weight b) out = out.length := by omega
  exact ⟨by omega, countFrom_eq_length_iff.mp hall⟩

theorem Heaviest.length {k : Nat} (h : Heaviest weight k l out) : out.length = min k l.length := by
  obtain ⟨-, -, hlen, -⟩ := h
  exact hlen

theorem Heaviest.le_of_not_mem {k : Nat} (h : Heaviest weight k l out) (ha : a ∈ out) (hb : b ∈ l)
    (hnot : b ∉ out) : weight b ≤ weight a := by
  obtain ⟨rest, hperm, -, hle⟩ := h
  rcases List.mem_append.mp (hperm.mem_iff.mpr hb) with hout | hrest
  · exact absurd hout hnot
  · exact hle a ha b hrest

/-- A list that is short enough is selected as a whole. -/
theorem Heaviest.perm_of_length_le {k : Nat} (h : Heaviest weight k l out) (hk : l.length ≤ k) :
    out.Perm l := by
  obtain ⟨rest, hperm, hlen, -⟩ := h
  have htotal := hperm.length_eq
  rw [List.length_append] at htotal
  obtain rfl := List.eq_nil_of_length_eq_zero (show rest.length = 0 by omega)
  rwa [List.append_nil] at hperm

theorem Heaviest.nodup {κ : Type} {key : β → κ} {k : Nat} (h : Heaviest weight k l out)
    (hl : (l.map key).Nodup) : (out.map key).Nodup := by
  obtain ⟨rest, hperm, -, -⟩ := h
  have hall : ((out ++ rest).map key).Nodup := (hperm.map key).nodup_iff.mpr hl
  exact hall.sublist ((List.sublist_append_left out rest).map key)

/-- Selections from a list with extra elements and from the one without them have the
same weights exactly if the cut of the second is as heavy as every extra element. -/
theorem Heaviest.count_eq_iff {k : Nat} (hx : Heaviest weight k (l ++ extra) a)
    (hy : Heaviest weight k l b) : (∀ w, countFrom weight w a = countFrom weight w b) ↔
      ∀ e ∈ extra, k ≤ countFrom weight (weight e) l := by
  have hcount : ∀ w, countFrom weight w a = countFrom weight w b ↔
      k ≤ countFrom weight w l ∨ countFrom weight w extra = 0 := by
    intro w
    have ha := hx.count w
    have hb := hy.count w
    rw [countFrom_append] at ha
    omega
  constructor
  · intro h e he
    refine ((hcount _).mp (h (weight e))).resolve_right ?_
    exact (countFrom_pos_iff.mpr ⟨e, he, le_rfl⟩).ne'
  · intro h w
    refine (hcount w).mpr ?_
    by_cases hw : 0 < countFrom weight w extra
    · obtain ⟨e, he, hle⟩ := countFrom_pos_iff.mp hw
      refine .inl ((h e he).trans (List.countP_mono_left fun x _ hx => ?_))
      simp only [decide_eq_true_eq] at hx ⊢
      exact hle.trans hx
    · exact .inr (Nat.eq_zero_of_not_pos hw)

theorem countP_lt_eq {l l' : List α} (h : ∀ w, countFrom id w l = countFrom id w l') (a : α) :
    l.countP (fun x => decide (a < x)) = l'.countP fun x => decide (a < x) := by
  by_cases hs : ∃ x ∈ l ++ l', a < x
  · -- Above `a` is the same as from the least value above it.
    obtain ⟨m, hm, hmin⟩ := Finset.exists_min_image ((l ++ l').filter (a < ·)).toFinset id
      (by obtain ⟨x, hx, hax⟩ := hs; exact ⟨x, by simpa [hax] using hx⟩)
    simp only [List.mem_toFinset, List.mem_filter, decide_eq_true_eq, id] at hm hmin
    have hiff : ∀ x ∈ l ++ l', a < x ↔ m ≤ x := fun x hx =>
      ⟨fun hax => hmin x ⟨hx, hax⟩, fun hmx => lt_of_lt_of_le hm.2 hmx⟩
    have hcongr : ∀ l₁ : List α, (∀ x ∈ l₁, x ∈ l ++ l') →
        l₁.countP (fun x => decide (a < x)) = countFrom id m l₁ := fun l₁ hsub =>
      List.countP_congr fun x hx => by simp [hiff x (hsub x hx)]
    rw [hcongr l fun x hx => List.mem_append_left _ hx,
      hcongr l' fun x hx => List.mem_append_right _ hx, h]
  · push Not at hs
    rw [List.countP_eq_zero.mpr fun x hx => by simpa using hs x (List.mem_append_left _ hx),
      List.countP_eq_zero.mpr fun x hx => by simpa using hs x (List.mem_append_right _ hx)]

/-- The counts determine the values. -/
theorem perm_of_countFrom {l l' : List α} (h : ∀ w, countFrom id w l = countFrom id w l') :
    l.Perm l' := by
  have hsplit : ∀ (l : List α) (a : α),
      countFrom id a l = l.countP (fun x => decide (a < x)) + l.count a := by
    intro l a
    induction l with
    | nil => rfl
    | cons x l ih =>
      simp only [countFrom, List.countP_cons, List.count_cons, id] at ih ⊢
      rcases lt_trichotomy a x with hx | rfl | hx
      · simp [hx, hx.le, hx.ne', ih]
        omega
      · simp [ih]
        omega
      · simp [not_le.mpr hx, not_lt.mpr hx.le, hx.ne, ih]
  refine List.perm_iff_count.mpr fun a => ?_
  have hl := hsplit l a
  have hl' := hsplit l' a
  have hlt := countP_lt_eq h a
  have heq := h a
  omega

end LibEmbedding.Foundation
