import LibEmbedding.TuneCache
import LibEmbedding.Foundation.Framing

/-!
# What a fingerprint tells apart

`lembed_tune_cache_key` hashes its six fields with bars between them. A bar inside a field reads
like one between two fields, so the string says what it was made of as long as no field has one.
-/

namespace LibEmbedding

open Foundation

/-- The texts that a fingerprint is made of. -/
def fingerprintFields (hw : HardwareInfo) (sw : SoftwareInfo) (model : ModelInfo)
    (backend : Bytes) : List Bytes :=
  [hw.cpuName, hw.osName, sw.libembedding, sw.llamaCpp, model.modelId, backend]

/-- What a result is tuned for. Its texts are C strings. -/
structure TunedFor where
  hardware : HardwareInfo
  software : SoftwareInfo
  model : ModelInfo
  backend : Bytes
  nulFree : ∀ s ∈ fingerprintFields hardware software model backend, 0 ∉ s

namespace TunedFor

def fields (x : TunedFor) : List Bytes :=
  fingerprintFields x.hardware x.software x.model x.backend

/-- The string that is hashed into the key. -/
def preHash (x : TunedFor) : Bytes :=
  fingerprint (some x.hardware) (some x.software) (some x.model) (some x.backend)

/-- Nothing with other fields has the same string. -/
def ToldApart (x : TunedFor) : Prop := ∀ y : TunedFor, x.preHash = y.preHash → x.fields = y.fields

theorem preHash_eq (x : TunedFor) : x.preHash = [124].intercalate x.fields ++ [0] := by
  simp [preHash, fingerprint, appendField, fields, fingerprintFields, List.intercalate_cons_cons,
    List.intercalate_singleton]

/-- Six C strings are the fields of some configuration. -/
theorem exists_fields {xs : List Bytes} (hlength : xs.length = 6) (hnul : ∀ s ∈ xs, 0 ∉ s) :
    ∃ x : TunedFor, x.fields = xs := by
  obtain ⟨cpu, os, lib, llama, id, backend, rfl⟩ :
      ∃ a b c d e f, xs = [a, b, c, d, e, f] := by
    match xs, hlength with
    | [a, b, c, d, e, f], _ => exact ⟨a, b, c, d, e, f, rfl⟩
  exact ⟨⟨⟨cpu, zeroInt, zeroInt, os, zeroInt, []⟩, ⟨lib, llama⟩, ⟨id, [], zeroInt, zeroInt⟩,
    backend, hnul⟩, rfl⟩

theorem toldApart_of_noBar {x : TunedFor} (h : ∀ s ∈ x.fields, 124 ∉ s) : x.ToldApart := by
  intro y heq
  rw [preHash_eq, preHash_eq] at heq
  exact intercalate_injective (List.cons_ne_nil _ _) rfl h (List.append_cancel_right heq)

theorem toldApart_iff (x : TunedFor) : x.ToldApart ↔ ∀ s ∈ x.fields, 124 ∉ s := by
  constructor
  · intro h
    by_contra hnone
    have hbar : ∃ s ∈ x.fields, 124 ∈ s := by simpa using hnone
    have htwo : 2 ≤ x.fields.length := Nat.le_add_left 2 4
    obtain ⟨ys, hlength, hdiffers, hsame⟩ := exists_regrouped htwo hbar
    have hnul : ∀ s ∈ ys, 0 ∉ s := by
      intro s hs hzero
      have hmem : (0 : UInt8) ∈ [124].intercalate x.fields :=
        hsame ▸ (mem_intercalate (by decide)).mpr ⟨s, hs, hzero⟩
      obtain ⟨t, ht, hzero⟩ := (mem_intercalate (by decide)).mp hmem
      exact x.nulFree t ht hzero
    obtain ⟨y, rfl⟩ := exists_fields hlength hnul
    refine hdiffers (h y ?_).symm
    rw [preHash_eq, preHash_eq, hsame]
  · exact toldApart_of_noBar

/-- A processor `a|b` on a system `c` and a processor `a` on a system `b|c`. -/
theorem fingerprints_collide :
    ¬ ∀ x y : TunedFor, x.preHash = y.preHash → x.fields = y.fields := by
  intro h
  obtain ⟨x, hx⟩ : ∃ x : TunedFor, x.fields = ["a|b", "c", "1", "2", "m", "cpu"].map ascii :=
    exists_fields rfl (by decide)
  obtain ⟨y, hy⟩ : ∃ y : TunedFor, y.fields = ["a", "b|c", "1", "2", "m", "cpu"].map ascii :=
    exists_fields rfl (by decide)
  have hsame : x.preHash = y.preHash := by
    rw [preHash_eq, preHash_eq, hx, hy]
    decide
  have hfields := h x y hsame
  rw [hx, hy] at hfields
  exact absurd hfields (by decide)

end TunedFor

end LibEmbedding
