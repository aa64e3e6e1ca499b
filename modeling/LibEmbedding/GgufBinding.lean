import LibEmbedding.GgufLoad
import LibEmbedding.Foundation.Framing

/-!
# Names and slots

`collect_required_names` lists the names of the tensors, `bind` reads the copies back with a
running index. Both go through the fields in the same order, whatever the number of layers.
-/

namespace LibEmbedding

open Foundation

-- ---------------------------------------------------------------------------
-- The running index
-- ---------------------------------------------------------------------------

section Bind

variable {τ : Type}

/-- `t[i++]` -/
def readNext (t : List τ) : StateT Nat Checked τ := fun i => do
  let x ← Foundation.get t i
  return (x, i + 1)

def bindLayer (t : List τ) : StateT Nat Checked (LayerWeights τ) := do
  let ln1W ← readNext t
  let ln1B ← readNext t
  let qW ← readNext t
  let qB ← readNext t
  let kW ← readNext t
  let kB ← readNext t
  let vW ← readNext t
  let vB ← readNext t
  let oW ← readNext t
  let oB ← readNext t
  let ln2W ← readNext t
  let ln2B ← readNext t
  let fc1W ← readNext t
  let fc1B ← readNext t
  let fc2W ← readNext t
  let fc2B ← readNext t
  return ⟨ln1W, ln1B, qW, qB, kW, kB, vW, vB, oW, oB, ln2W, ln2B, fc1W, fc1B, fc2W, fc2B⟩

def bindLayers (t : List τ) : Nat → StateT Nat Checked (List (LayerWeights τ))
  | 0 => return []
  | n + 1 => do
    let layer ← bindLayer t
    let layers ← bindLayers t n
    return layer :: layers

/-- `bind`, from the first index on. -/
def bindSlots (nLayer : Nat) (t : List τ) :
    StateT Nat Checked (HeadWeights τ × List (LayerWeights τ)) := do
  let tokEmbd ← readNext t
  let posEmbd ← readNext t
  let typeEmbd ← readNext t
  let embdLnW ← readNext t
  let embdLnB ← readNext t
  let layers ← bindLayers t nLayer
  let mlmTransformW ← readNext t
  let mlmTransformB ← readNext t
  let mlmLnW ← readNext t
  let mlmLnB ← readNext t
  let mlmBias ← readNext t
  return (⟨tokEmbd, posEmbd, typeEmbd, embdLnW, embdLnB,
    mlmTransformW, mlmTransformB, mlmLnW, mlmLnB, mlmBias⟩, layers)

/-- The values of a layer's slots. -/
def LayerWeights.slots (l : LayerWeights τ) : List τ :=
  [l.ln1W, l.ln1B, l.qW, l.qB, l.kW, l.kB, l.vW, l.vB, l.oW, l.oB, l.ln2W, l.ln2B,
    l.fc1W, l.fc1B, l.fc2W, l.fc2B]

/-- The values of all slots. -/
def allSlots (head : HeadWeights τ) (layers : List (LayerWeights τ)) : List τ :=
  [head.tokEmbd, head.posEmbd, head.typeEmbd, head.embdLnW, head.embdLnB] ++
    layers.flatMap LayerWeights.slots ++
    [head.mlmTransformW, head.mlmTransformB, head.mlmLnW, head.mlmLnB, head.mlmBias]

theorem bind_run {x : StateT Nat Checked α} {f : α → StateT Nat Checked β}
    (h : x i = .ok (a, j)) : (x >>= f) i = f a j := by
  change (x i >>= fun p => f p.1 p.2) = _
  rw [h]
  rfl

theorem readNext_bind (t : List τ) (f : τ → StateT Nat Checked α) (i : Nat) :
    (readNext t >>= f) i =
      match t[i]? with
      | some x => f x (i + 1)
      | none => .error .outOfBounds := by
  change (readNext t i >>= fun p => f p.1 p.2) = _
  rw [readNext, Foundation.get]
  cases t[i]? <;> rfl

/-- A layer is read off what stands behind the index, and leaves the rest. -/
theorem bindLayer_take {t : List τ} (h : LayerWeights.take (t.drop i) = some (layer, rest)) :
    bindLayer t i = .ok (layer, i + 16) ∧ t.drop (i + 16) = rest := by
  unfold LayerWeights.take at h
  split at h
  · rename_i hdrop
    cases h
    have hget (k : Nat) : t[i + k]? = (t.drop i)[k]? := List.getElem?_drop.symm
    constructor
    · have hzero := hget 0
      rw [Nat.add_zero] at hzero
      simp only [bindLayer, readNext_bind, Nat.add_assoc, Nat.reduceAdd, hzero, hget, hdrop,
        List.getElem?_cons_zero, List.getElem?_cons_succ]
      rfl
    · rw [← List.drop_drop, hdrop]
      rfl
  · cases h

theorem bindLayers_take {t : List τ} (h : takeLayers n (t.drop i) = some (layers, rest)) :
    bindLayers t n i = .ok (layers, i + 16 * n) ∧ t.drop (i + 16 * n) = rest := by
  induction n generalizing i layers with
  | zero =>
    cases h
    exact ⟨rfl, rfl⟩
  | succ n ih =>
    simp only [takeLayers, Option.bind_eq_bind, Option.bind_eq_some_iff] at h
    obtain ⟨⟨layer, behind⟩, hlayer, ⟨more, last⟩, hmore, hall⟩ := h
    cases hall
    obtain ⟨hrun, rfl⟩ := bindLayer_take hlayer
    obtain ⟨hruns, hrest⟩ := ih hmore
    have hindex : i + 16 * (n + 1) = i + 16 + 16 * n := by omega
    rw [hindex]
    refine ⟨?_, hrest⟩
    rw [bindLayers, bind_run hrun, bind_run hruns]
    rfl

/-- The running index reads what the pattern takes, and no more. -/
theorem bindSlots_run {t : List τ} (h : bindWeights nLayer t = some (head, layers)) :
    bindSlots nLayer t 0 = .ok ((head, layers), 10 + 16 * nLayer) := by
  unfold bindWeights at h
  split at h
  · rename_i tokEmbd posEmbd typeEmbd embdLnW embdLnB behind
    split at h
    · rename_i found mlmTransformW mlmTransformB mlmLnW mlmLnB mlmBias last hlayers
      cases h
      generalize ht : tokEmbd :: posEmbd :: typeEmbd :: embdLnW :: embdLnB :: behind = t
      have h0 : t[0]? = some tokEmbd := by rw [← ht]; rfl
      have h1 : t[1]? = some posEmbd := by rw [← ht]; rfl
      have h2 : t[2]? = some typeEmbd := by rw [← ht]; rfl
      have h3 : t[3]? = some embdLnW := by rw [← ht]; rfl
      have h4 : t[4]? = some embdLnB := by rw [← ht]; rfl
      have hbehind : t.drop 5 = behind := by rw [← ht]; rfl
      obtain ⟨hrun, hback⟩ := bindLayers_take (t := t) (i := 5) (hbehind.symm ▸ hlayers)
      have hend : 10 + 16 * nLayer = 5 + 16 * nLayer + 5 := by omega
      rw [hend]
      generalize 5 + 16 * nLayer = j at hrun hback
      have hget (k : Nat) : t[j + k]? = (t.drop j)[k]? := List.getElem?_drop.symm
      have hzero := hget 0
      rw [Nat.add_zero] at hzero
      simp only [bindSlots, readNext_bind, h0, h1, h2, h3, h4, Nat.reduceAdd, bind_run hrun]
      rw [hback] at hget hzero
      simp only [hzero, hget, Nat.add_assoc, Nat.reduceAdd, List.getElem?_cons_zero,
        List.getElem?_cons_succ]
      rfl
    · cases h
  · cases h

end Bind

-- ---------------------------------------------------------------------------
-- The names
-- ---------------------------------------------------------------------------

/-- The names of the slots, in the order of the fields. -/
def slotNames (nLayer : Nat) : List Bytes :=
  allSlots (HeadWeights.named id) ((List.range nLayer).map (LayerWeights.named id))

theorem slotNames_eq (nLayer : Nat) : slotNames nLayer = requiredNames nLayer := by
  have hlayers : ((List.range nLayer).map (LayerWeights.named id)).flatMap LayerWeights.slots =
      (List.range nLayer).flatMap layerNames := by
    rw [List.flatMap_map]
    rfl
  rw [slotNames, allSlots, hlayers]
  rfl

theorem length_requiredNames (nLayer : Nat) :
    (requiredNames nLayer).length = 10 + 16 * nLayer := by
  have hlayers : ((List.range nLayer).flatMap layerNames).length = 16 * nLayer := by
    simp [List.length_flatMap, layerNames, layerSuffixes, Nat.mul_comm]
  simp only [requiredNames, List.length_append, List.length_map, hlayers, embeddingNames,
    headNames, List.length_cons, List.length_nil]
  omega

theorem digit_toNat {n : Nat} {c : Char} (h : c ∈ n.repr.toList) : 48 ≤ c.toNat ∧ c.toNat ≤ 57 := by
  rw [Nat.toList_repr] at h
  have hdigit := Nat.isDigit_of_mem_toDigits (by decide) (by decide) h
  simp only [Char.isDigit, Bool.and_eq_true, decide_eq_true_eq, ge_iff_le,
    UInt32.le_iff_toNat_le] at hdigit
  exact hdigit

theorem stdToString_inj {n m : Nat} (h : stdToString n = stdToString m) : n = m := by
  have hchars (k : Nat) :
      (stdToString k).map (fun b => Char.ofNat b.toNat) = Nat.toDigits 10 k := by
    rw [stdToString, ascii, List.map_map, ← Nat.toList_repr]
    refine List.map_congr_left (fun c hc => ?_) |>.trans (List.map_id _)
    have hsmall : c.toNat < UInt8.size := lt_of_le_of_lt (digit_toNat hc).2 (by decide)
    simp [UInt8.toNat_ofNat_of_lt' hsmall]
  have hdigits : Nat.toDigits 10 n = Nat.toDigits 10 m := by rw [← hchars n, h, hchars m]
  have hvalue := congrArg (Nat.ofDigitChars 10 · 0) hdigits
  simpa [Nat.ofDigitChars_toDigits] using hvalue

theorem dot_not_mem_stdToString (n : Nat) : (46 : UInt8) ∉ stdToString n := by
  intro hmem
  obtain ⟨c, hc, hdot⟩ := List.mem_map.mp hmem
  obtain ⟨hlow, hhigh⟩ := digit_toNat hc
  have hvalue := congrArg UInt8.toNat hdot
  rw [UInt8.toNat_ofNat_of_lt' (lt_of_le_of_lt hhigh (by decide))] at hvalue
  simp only [UInt8.reduceToNat] at hvalue
  omega

theorem layerName_inj {il il' : Nat} {suffix suffix' : String}
    (h : layerName il suffix = layerName il' suffix') : il = il' ∧ ascii suffix = ascii suffix' := by
  have hdot : ascii "." = [46] := by decide
  simp only [layerName, List.append_assoc, List.append_cancel_left_eq, hdot,
    List.singleton_append] at h
  obtain ⟨hnumber, hsuffix⟩ := append_separator (dot_not_mem_stdToString il)
    (dot_not_mem_stdToString il') h
  exact ⟨stdToString_inj hnumber, hsuffix⟩

/-- The names of the layers begin with `enc.`, the others do not. -/
theorem layerName_take (il : Nat) (suffix : String) :
    (layerName il suffix).take 4 = ascii "enc." := by
  rw [layerName, List.append_assoc, List.append_assoc, List.take_append_of_le_length (by decide)]
  rfl

theorem nodup_layerNames (n : Nat) : ((List.range n).flatMap layerNames).Nodup := by
  rw [List.nodup_flatMap]
  constructor
  · intro il _
    have hsuffixes : (layerSuffixes.map ascii).Nodup := by decide +kernel
    refine List.Nodup.map_on ?_ (List.Nodup.of_map ascii hsuffixes)
    intro suffix hsuffix suffix' hsuffix' h
    exact List.inj_on_of_nodup_map hsuffixes hsuffix hsuffix' (layerName_inj h).2
  · refine List.nodup_range.imp ?_
    intro il il' hne name hname hname'
    obtain ⟨suffix, -, rfl⟩ := List.mem_map.mp hname
    obtain ⟨suffix', -, h⟩ := List.mem_map.mp hname'
    exact hne (layerName_inj h).1.symm

theorem nodup_requiredNames (nLayer : Nat) : (requiredNames nLayer).Nodup := by
  have hfixed : (embeddingNames.map ascii ++ headNames.map ascii).Nodup := by decide +kernel
  have hapart : ∀ name ∈ embeddingNames.map ascii ++ headNames.map ascii,
      name.take 4 ≠ ascii "enc." := by decide +kernel
  have hlayer : ∀ name ∈ (List.range nLayer).flatMap layerNames, name.take 4 = ascii "enc." := by
    intro name hname
    obtain ⟨il, -, hil⟩ := List.mem_flatMap.mp hname
    obtain ⟨suffix, -, rfl⟩ := List.mem_map.mp hil
    exact layerName_take il suffix
  have hperm : (requiredNames nLayer).Perm ((List.range nLayer).flatMap layerNames ++
      (embeddingNames.map ascii ++ headNames.map ascii)) := by
    rw [requiredNames, List.append_assoc]
    exact List.perm_append_comm_assoc _ _ _
  rw [hperm.nodup_iff, List.nodup_append]
  refine ⟨nodup_layerNames nLayer, hfixed, fun name hname other hother heq => ?_⟩
  exact hapart other hother (heq ▸ hlayer name hname)

-- ---------------------------------------------------------------------------
-- The directory
-- ---------------------------------------------------------------------------

/-- A header over a tensor table. The reader finds the first entry of a name. -/
def GgufHeader.ofDirectory (key : Bytes → Option GgufValue)
    (entries : List (Bytes × GgufTensor)) : GgufHeader where
  key
  tensor name := (entries.find? (·.1 = name)).map (·.2)
  nTensors := entries.length

theorem GgufHeader.ofDirectory_mem {key : Bytes → Option GgufValue}
    {entries : List (Bytes × GgufTensor)} (h : (ofDirectory key entries).tensor name = some t) :
    (name, t) ∈ entries := by
  obtain ⟨entry, hentry, rfl⟩ := Option.map_eq_some_iff.mp h
  have hname : entry.1 = name := by simpa using List.find?_some hentry
  subst hname
  exact List.mem_of_find?_eq_some hentry

/-- What the copies are bound to: `copy` gives a tensor of the table under every required
name, the index reads all copies and stops behind the last one, every name has one slot, and
what is loaded is bound so. -/
structure BoundByName (o : OpenWeights) (env : LoadEnv) (entries : List (Bytes × GgufTensor))
    (copy : Bytes → GgufTensor) : Prop where
  own : ∀ name ∈ requiredNames o.hparams.nLayer.toNat, (name, copy name) ∈ entries
  copied : (requiredNames o.hparams.nLayer.toNat).mapM (copyTensor env o.header) =
    .ok ((requiredNames o.hparams.nLayer.toNat).map copy)
  bound : bindSlots o.hparams.nLayer.toNat ((requiredNames o.hparams.nLayer.toNat).map copy) 0 =
    .ok ((HeadWeights.named copy,
      (List.range o.hparams.nLayer.toNat).map (LayerWeights.named copy)),
        (requiredNames o.hparams.nLayer.toNat).length)
  slots : slotNames o.hparams.nLayer.toNat = requiredNames o.hparams.nLayer.toNat
  once : (requiredNames o.hparams.nLayer.toNat).Nodup
  loaded : ∀ w, loadTensors o env = .ok w → w.head = .named copy ∧
    w.layers = (List.range o.hparams.nLayer.toNat).map (.named copy)

end LibEmbedding
