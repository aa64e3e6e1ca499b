import Mathlib.Tactic

/-!
# Checked steps

A computation over machine integers and raw memory that stops where the
language leaves it undefined. `Checked` carries the first such stop; integer
steps are exact or stop with `overflow`, so a success theorem never speaks of
a wrapped value.
-/

namespace LibEmbedding.Foundation

/-- The ways a step can leave defined behaviour. -/
inductive Fault where
  | overflow
  | divisionByZero
  | outOfBounds
  | staleIterator
  | dangling
  | assertFailed
  deriving DecidableEq, Repr

abbrev Checked (α : Type u) := Except Fault α

theorem bind_ok {x : Except ε α} {f : α → Except ε β} :
    x >>= f = .ok b ↔ ∃ a, x = .ok a ∧ f a = .ok b := by
  cases x <;> simp [bind, Except.bind]

theorem pure_ok : (pure a : Except ε α) = .ok b ↔ a = b := by
  simp [pure, Except.pure]

theorem map_ok {x : Except ε α} {f : α → β} : x.map f = .ok b ↔ ∃ a, x = .ok a ∧ f a = b := by
  cases x <;> simp [Except.map]

@[simp] theorem ok_bind (a : α) (f : α → Except ε β) : (Except.ok a >>= f) = f a := rfl

@[simp] theorem error_bind (e : ε) (f : α → Except ε β) :
    ((Except.error e : Except ε α) >>= f) = .error e := rfl

/-- An assertion: the process stops where the condition fails. -/
def ensure (p : Prop) [Decidable p] (fault : Fault) : Checked Unit :=
  if p then .ok () else .error fault

theorem ensure_ok [Decidable p] : ensure p fault = .ok u ↔ p := by
  unfold ensure
  split <;> simp_all

@[simp] theorem ensure_pos [Decidable p] (h : p) : ensure p fault = .ok () := if_pos h

/-- `xs[i]` of an array the program indexes without a check. -/
def get (xs : List α) (i : Nat) : Checked α :=
  match xs[i]? with
  | some x => .ok x
  | none => .error .outOfBounds

theorem get_ok {xs : List α} : get xs i = .ok x ↔ xs[i]? = some x := by
  unfold get
  split <;> simp_all

theorem get_getD {xs : List α} (hi : i < xs.length) (d : α) : get xs i = .ok (xs.getD i d) := by
  rw [get_ok, List.getD_eq_getElem?_getD, List.getElem?_eq_getElem hi]
  rfl

theorem mapM_eq {f : α → Except ε β} {g : α → β} {l : List α} (h : ∀ x ∈ l, f x = .ok (g x)) :
    l.mapM f = .ok (l.map g) := by
  induction l with
  | nil => rfl
  | cons x l ih =>
    rw [List.mapM_cons, h x List.mem_cons_self, ok_bind,
      ih fun y hy => h y (List.mem_cons_of_mem x hy), ok_bind]
    rfl

/-- Of a step that can only yield one value, the loop succeeds when every step does. -/
theorem mapM_ok {f : α → Except ε β} {g : α → β} {l : List α}
    (hg : ∀ x b, f x = .ok b → b = g x) :
    l.mapM f = .ok bs ↔ (∀ x ∈ l, f x = .ok (g x)) ∧ bs = l.map g := by
  constructor
  · intro h
    induction l generalizing bs with
    | nil =>
      cases h
      exact ⟨fun x hx => absurd hx List.not_mem_nil, rfl⟩
    | cons x l ih =>
      simp only [List.mapM_cons, bind_ok, pure_ok] at h
      obtain ⟨b, hb, tail, htail, rfl⟩ := h
      obtain ⟨hall, rfl⟩ := ih htail
      have hx := hg x b hb
      subst hx
      exact ⟨List.forall_mem_cons.mpr ⟨hb, hall⟩, rfl⟩
  · rintro ⟨hall, rfl⟩
    exact mapM_eq hall

/-- A loop over a list succeeds when every element does. -/
theorem mapM_total_iff {f : α → Except ε β} {l : List α} :
    (∃ bs, l.mapM f = .ok bs) ↔ ∀ x ∈ l, ∃ b, f x = .ok b := by
  induction l with
  | nil => simp [pure, Except.pure]
  | cons x l ih =>
    rw [List.forall_mem_cons, ← ih]
    simp only [List.mapM_cons, bind_ok, pure_ok]
    constructor
    · rintro ⟨bs, b, hb, tail, htail, -⟩
      exact ⟨⟨b, hb⟩, tail, htail⟩
    · rintro ⟨⟨b, hb⟩, tail, htail⟩
      exact ⟨_, b, hb, tail, htail, rfl⟩

theorem length_of_mapM {f : α → Except ε β} {l : List α} (h : l.mapM f = .ok bs) :
    bs.length = l.length := by
  induction l generalizing bs with
  | nil =>
    cases h
    rfl
  | cons x l ih =>
    simp only [List.mapM_cons, bind_ok, pure_ok] at h
    obtain ⟨b, -, tail, htail, rfl⟩ := h
    rw [List.length_cons, List.length_cons, ih htail]

/-- A loop over positions that reads one element after another. -/
theorem mem_of_mapM {f : α → Except ε β} {l : List α} (h : l.mapM f = .ok bs) (hb : b ∈ bs) :
    ∃ a ∈ l, f a = .ok b := by
  induction l generalizing bs with
  | nil =>
    cases h
    cases hb
  | cons x l ih =>
    rw [List.mapM_cons] at h
    obtain ⟨c, hc, h⟩ := bind_ok.mp h
    obtain ⟨cs, hcs, h⟩ := bind_ok.mp h
    cases h
    rcases List.mem_cons.mp hb with rfl | hb
    · exact ⟨x, List.mem_cons_self, hc⟩
    · obtain ⟨a, ha, hab⟩ := ih hcs hb
      exact ⟨a, List.mem_cons_of_mem x ha, hab⟩

theorem mapM_range' {f : Nat → Except ε β} {g : α → β} {l : List α} {start : Nat}
    (h : ∀ i x, l[i]? = some x → f (start + i) = .ok (g x)) :
    (List.range' start l.length).mapM f = .ok (l.map g) := by
  induction l generalizing start with
  | nil => rfl
  | cons x l ih =>
    have htail : (List.range' (start + 1) l.length).mapM f = .ok (l.map g) := by
      refine ih fun i y hy => ?_
      rw [← h (i + 1) y hy, Nat.add_right_comm, Nat.add_assoc]
    rw [List.length_cons, List.range'_succ, List.mapM_cons, ← Nat.add_zero start, h 0 x rfl,
      ok_bind, Nat.add_zero, htail, ok_bind]
    rfl

-- ---------------------------------------------------------------------------
-- 32-bit integers
-- ---------------------------------------------------------------------------

def intMin : Int := -2147483648
def intMax : Int := 2147483647

/-- The values of a 32-bit `int`. -/
def FitsInt (x : Int) : Prop := intMin ≤ x ∧ x ≤ intMax

instance (x : Int) : Decidable (FitsInt x) := inferInstanceAs (Decidable (_ ∧ _))

theorem fitsInt_iff : FitsInt x ↔ -2147483648 ≤ x ∧ x ≤ 2147483647 := Iff.rfl

/-- A value of type `int`. -/
abbrev CInt := { x : Int // FitsInt x }

theorem clamp_fits (x : Int) : FitsInt (max intMin (min x intMax)) := by
  have : intMin ≤ intMax := by decide
  exact ⟨le_max_left .., max_le this (min_le_right ..)⟩

/-- The conversion that saturates at both ends. -/
def clamp (x : Int) : CInt := ⟨max intMin (min x intMax), clamp_fits x⟩

@[simp] theorem clamp_val (x : CInt) : clamp x.val = x :=
  Subtype.ext (by simp [clamp, x.property.1, x.property.2])

def narrow (x : Int) : Checked Int := do
  ensure (FitsInt x) .overflow
  return x

theorem narrow_ok : narrow x = .ok y ↔ FitsInt x ∧ x = y := by
  simp only [narrow, bind_ok, ensure_ok, pure_ok]
  exact ⟨fun ⟨_, h⟩ => h, fun h => ⟨(), h⟩⟩

theorem narrow_eq (h : FitsInt x) : narrow x = .ok x := narrow_ok.mpr ⟨h, rfl⟩

def addInt (a b : Int) : Checked Int := narrow (a + b)
def subInt (a b : Int) : Checked Int := narrow (a - b)
def mulInt (a b : Int) : Checked Int := narrow (a * b)

/-- `int` division truncates toward zero. -/
def divInt (a b : Int) : Checked Int := do
  ensure (b ≠ 0) .divisionByZero
  narrow (a.tdiv b)

theorem divInt_ok : divInt a b = .ok c ↔ b ≠ 0 ∧ FitsInt (a.tdiv b) ∧ a.tdiv b = c := by
  simp only [divInt, bind_ok, ensure_ok, narrow_ok]
  exact ⟨fun ⟨_, h⟩ => h, fun h => ⟨(), h⟩⟩

-- ---------------------------------------------------------------------------
-- Counted loops
-- ---------------------------------------------------------------------------

/-- `for (i = 0; i < n; i++) s = body(s, i)`. -/
def forUpTo (n : Nat) (body : σ → Nat → Except ε σ) (init : σ) : Except ε σ :=
  (List.range n).foldlM body init

@[simp] theorem forUpTo_zero {body : σ → Nat → Except ε σ} : forUpTo 0 body s = .ok s := rfl

theorem forUpTo_succ {body : σ → Nat → Except ε σ} :
    forUpTo (n + 1) body s = forUpTo n body s >>= fun t => body t n := by
  simp [forUpTo, List.range_succ]

theorem forUpTo_cons {body : σ → Nat → Except ε σ} : forUpTo (n + 1) body s =
    body s 0 >>= fun t => forUpTo n (fun t i => body t (i + 1)) t := by
  simp only [forUpTo, List.range_succ_eq_map, List.foldlM_cons, List.foldlM_map]

theorem forUpTo_congr {body body' : σ → Nat → Except ε σ}
    (h : ∀ i < n, ∀ s, body s i = body' s i) : forUpTo n body init = forUpTo n body' init := by
  induction n with
  | zero => rfl
  | succ n ih =>
    rw [forUpTo_succ, forUpTo_succ, ih fun i hi => h i (Nat.lt_succ_of_lt hi)]
    simp only [h n (Nat.lt_succ_self n)]

/-- A loop whose iterations change nothing. -/
theorem forUpTo_fixed {body : σ → Nat → Except ε σ} (h : ∀ i < n, body s i = .ok s) :
    forUpTo n body s = .ok s := by
  induction n with
  | zero => rfl
  | succ n ih =>
    rw [forUpTo_succ, ih fun i hi => h i (Nat.lt_succ_of_lt hi), ok_bind, h n (Nat.lt_succ_self n)]

/-- The rule for counted loops: an invariant that every iteration carries to
the next one holds of the state the loop ends in. -/
theorem forUpTo_invariant {body : σ → Nat → Except ε σ} (P : Nat → σ → Prop)
    (hinit : P 0 init) (hstep : ∀ i s t, i < n → P i s → body s i = .ok t → P (i + 1) t)
    (h : forUpTo n body init = .ok final) : P n final := by
  induction n generalizing final with
  | zero => simpa [Except.ok.inj h.symm] using hinit
  | succ n ih =>
    rw [forUpTo_succ, bind_ok] at h
    obtain ⟨t, ht, hb⟩ := h
    have hmid := ih (fun i s t hi => hstep i s t (Nat.lt_succ_of_lt hi)) ht
    exact hstep n t final (Nat.lt_succ_self n) hmid hb

/-- Total correctness of a counted loop: every iteration succeeds from a state
of the invariant and re-establishes it. -/
theorem forUpTo_total {body : σ → Nat → Except ε σ} (P : Nat → σ → Prop)
    (hinit : P 0 init) (hstep : ∀ i s, i < n → P i s → ∃ t, body s i = .ok t ∧ P (i + 1) t) :
    ∃ final, forUpTo n body init = .ok final ∧ P n final := by
  induction n with
  | zero => exact ⟨init, rfl, hinit⟩
  | succ n ih =>
    obtain ⟨s, hs, hp⟩ := ih fun i s hi => hstep i s (Nat.lt_succ_of_lt hi)
    obtain ⟨t, ht, hq⟩ := hstep n s (Nat.lt_succ_self n) hp
    exact ⟨t, by rw [forUpTo_succ, hs, ok_bind, ht], hq⟩

/-- Two loops that keep an agreement of their states end alike. -/
theorem forUpTo_simulation {body : σ → Nat → Except ε σ} {body' : τ → Nat → Except ε τ}
    {f : σ → υ} {g : τ → υ} (R : σ → τ → Prop) (hinit : R init init')
    (hview : ∀ s t, R s t → f s = g t)
    (hstep : ∀ i s t, i < n → R s t → (body s i).map f = (body' t i).map g ∧
      ∀ s' t', body s i = .ok s' → body' t i = .ok t' → R s' t') :
    (forUpTo n body init).map f = (forUpTo n body' init').map g ∧
      ∀ s' t', forUpTo n body init = .ok s' → forUpTo n body' init' = .ok t' → R s' t' := by
  induction n with
  | zero =>
    refine ⟨congrArg Except.ok (hview _ _ hinit), fun s' t' hs ht => ?_⟩
    cases hs
    cases ht
    exact hinit
  | succ n ih =>
    obtain ⟨hmap, hrel⟩ := ih fun i s t hi => hstep i s t (Nat.lt_succ_of_lt hi)
    rw [forUpTo_succ, forUpTo_succ]
    cases hs : forUpTo n body init with
    | error e =>
      cases ht : forUpTo n body' init' with
      | error e' =>
        rw [hs, ht] at hmap
        exact ⟨hmap, fun _ _ h => by cases h⟩
      | ok t =>
        rw [hs, ht] at hmap
        cases hmap
    | ok s =>
      cases ht : forUpTo n body' init' with
      | error e =>
        rw [hs, ht] at hmap
        cases hmap
      | ok t => exact hstep n s t (Nat.lt_succ_self n) (hrel s t hs ht)

/-- A property of the final state that every iteration hands back to the state before it
holds after every iteration. -/
theorem forUpTo_ran_of {body : σ → Nat → Except ε σ} (Q : σ → Prop)
    (hback : ∀ i s t, body s i = .ok t → Q t → Q s) (h : forUpTo n body init = .ok final)
    (hfinal : Q final) (hi : i < n) :
    ∃ s t, forUpTo i body init = .ok s ∧ body s i = .ok t ∧ Q t := by
  induction n generalizing final with
  | zero => omega
  | succ n ih =>
    rw [forUpTo_succ, bind_ok] at h
    obtain ⟨t, ht, hb⟩ := h
    rcases Nat.lt_succ_iff_lt_or_eq.mp hi with hlt | rfl
    · exact ih ht (hback n t final hb hfinal) hlt
    · exact ⟨t, final, ht, hb, hfinal⟩

/-- Every iteration of a loop that succeeded has succeeded. -/
theorem forUpTo_ran {body : σ → Nat → Except ε σ} (h : forUpTo n body init = .ok final)
    (hi : i < n) : ∃ s t, forUpTo i body init = .ok s ∧ body s i = .ok t := by
  obtain ⟨s, t, hs, ht, -⟩ := forUpTo_ran_of (fun _ => True) (fun _ _ _ _ _ => trivial) h trivial hi
  exact ⟨s, t, hs, ht⟩

end LibEmbedding.Foundation
