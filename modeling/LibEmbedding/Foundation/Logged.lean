import LibEmbedding.Foundation.Checked

/-!
# Computations that leave a log

A computation that may stop early, with the events that happened up to there. What it returns
does not depend on its log, so forgetting the log gives the plain computation. `Emits` says
what all events have in common, and its rules take a program apart step by step.
-/

namespace LibEmbedding.Foundation

structure Logged (ω ε α : Type) where
  log : List ω
  result : Except ε α

namespace Logged

variable {ω ε α β σ : Type}

instance : Monad (Logged ω ε) where
  pure a := ⟨[], .ok a⟩
  bind x f :=
    match x.result with
    | .error e => ⟨x.log, .error e⟩
    | .ok a => ⟨x.log ++ (f a).log, (f a).result⟩

/-- An event. -/
def emit (e : ω) : Logged ω ε Unit := ⟨[e], .ok ()⟩

/-- A computation without events. -/
def lift (x : Except ε α) : Logged ω ε α := ⟨[], x⟩

def stop (e : ε) : Logged ω ε α := lift (.error e)

/-- `for (i = 0; i < n; i++) s = body(s, i)`. -/
def forUpTo (n : Nat) (body : σ → Nat → Logged ω ε σ) (init : σ) : Logged ω ε σ :=
  (List.range n).foldlM body init

@[simp] theorem log_pure (a : α) : (pure a : Logged ω ε α).log = [] := rfl

@[simp] theorem log_emit (e : ω) : (emit e : Logged ω ε Unit).log = [e] := rfl

@[simp] theorem log_lift (x : Except ε α) : (lift x : Logged ω ε α).log = [] := rfl

@[simp] theorem log_stop (e : ε) : (stop e : Logged ω ε α).log = [] := rfl

@[simp] theorem result_pure (a : α) : (pure a : Logged ω ε α).result = .ok a := rfl

@[simp] theorem result_emit (e : ω) : (emit e : Logged ω ε Unit).result = .ok () := rfl

@[simp] theorem result_lift (x : Except ε α) : (lift x : Logged ω ε α).result = x := rfl

@[simp] theorem result_stop (e : ε) : (stop e : Logged ω ε α).result = .error e := rfl

theorem bind_def (x : Logged ω ε α) (f : α → Logged ω ε β) : x >>= f =
    match x.result with
    | .error e => ⟨x.log, .error e⟩
    | .ok a => ⟨x.log ++ (f a).log, (f a).result⟩ := rfl

theorem bind_of_ok {x : Logged ω ε α} (h : x.result = .ok a) (f : α → Logged ω ε β) :
    x >>= f = ⟨x.log ++ (f a).log, (f a).result⟩ := by
  rw [bind_def, h]

/-- A step without events that succeeds leaves only what it yields. -/
theorem lift_bind {x : Except ε α} (h : x = .ok a) (f : α → Logged ω ε β) :
    lift x >>= f = f a := by
  rw [h]
  rfl

/-- Without their logs, steps run one after another as usual. -/
theorem result_bind (x : Logged ω ε α) (f : α → Logged ω ε β) :
    (x >>= f).result = x.result >>= fun a => (f a).result := by
  rw [bind_def]
  cases x.result with
  | error e => rfl
  | ok a => rfl

theorem result_foldlM {ι : Type} (body : σ → ι → Logged ω ε σ) (l : List ι) (init : σ) :
    (l.foldlM body init).result = l.foldlM (fun s i => (body s i).result) init := by
  induction l generalizing init with
  | nil => rfl
  | cons i l ih =>
    rw [List.foldlM_cons, List.foldlM_cons, result_bind]
    exact congrArg ((body init i).result >>= ·) (funext ih)

/-- What every iteration keeps, a loop that succeeds has kept. -/
theorem foldlM_invariant {ι : Type} {body : σ → ι → Logged ω ε σ} {l : List ι} (I : σ → Prop)
    (hinit : I init) (hkeep : ∀ i ∈ l, ∀ s t, I s → (body s i).result = .ok t → I t)
    (h : (l.foldlM body init).result = .ok final) : I final := by
  induction l generalizing init with
  | nil =>
    cases h
    exact hinit
  | cons i l ih =>
    rw [List.foldlM_cons, result_bind, bind_ok] at h
    obtain ⟨s, hs, h⟩ := h
    exact ih (hkeep i List.mem_cons_self init s hinit hs)
      (fun j hj => hkeep j (List.mem_cons_of_mem i hj)) h

theorem result_forUpTo (n : Nat) (body : σ → Nat → Logged ω ε σ) (init : σ) :
    (forUpTo n body init).result = Foundation.forUpTo n (fun s i => (body s i).result) init :=
  result_foldlM body _ init

theorem forUpTo_congr {body body' : σ → Nat → Logged ω ε σ}
    (h : ∀ i < n, ∀ s, body s i = body' s i) : forUpTo n body init = forUpTo n body' init := by
  have hfold : ∀ (l : List Nat) (s : σ), (∀ i ∈ l, i < n) →
      l.foldlM body s = l.foldlM body' s := by
    intro l
    induction l with
    | nil => exact fun _ _ => rfl
    | cons i l ih =>
      intro s hl
      rw [List.foldlM_cons, List.foldlM_cons, h i (hl i List.mem_cons_self)]
      exact congrArg (body' s i >>= ·)
        (funext fun t => ih t fun j hj => hl j (List.mem_cons_of_mem i hj))
  exact hfold _ init fun i hi => List.mem_range.mp hi

theorem forUpTo_emit (n : Nat) (e : ω) :
    forUpTo n (fun _ _ => emit e) () = (⟨List.replicate n e, .ok ()⟩ : Logged ω ε Unit) := by
  have hfold : ∀ l : List Nat, l.foldlM (fun _ _ => emit e) () =
      (⟨List.replicate l.length e, .ok ()⟩ : Logged ω ε Unit) := by
    intro l
    induction l with
    | nil => rfl
    | cons i l ih =>
      rw [List.foldlM_cons, bind_of_ok rfl, ih]
      rfl
  rw [forUpTo, hfold, List.length_range]

-- ---------------------------------------------------------------------------
-- The number of events
-- ---------------------------------------------------------------------------

/-- The computation ends with `a` after `k` events. -/
def Ran (x : Logged ω ε α) (a : α) (k : Nat) : Prop := x.result = .ok a ∧ x.log.length = k

@[simp] theorem ran_pure {a b : α} : (pure a : Logged ω ε α).Ran b k ↔ a = b ∧ k = 0 := by
  simp [Ran, eq_comm]

@[simp] theorem ran_emit {e : ω} {u : Unit} : (emit e : Logged ω ε Unit).Ran u k ↔ k = 1 := by
  simp [Ran, eq_comm]

@[simp] theorem ran_lift {x : Except ε α} : (lift x : Logged ω ε α).Ran a k ↔ x = .ok a ∧ k = 0 := by
  simp [Ran, eq_comm]

theorem ran_bind {x : Logged ω ε α} {f : α → Logged ω ε β} :
    (x >>= f).Ran b k ↔ ∃ a i j, x.Ran a i ∧ (f a).Ran b j ∧ k = i + j := by
  constructor
  · rintro ⟨hresult, hlog⟩
    rw [result_bind, bind_ok] at hresult
    obtain ⟨a, ha, hrest⟩ := hresult
    rw [bind_of_ok ha, List.length_append] at hlog
    exact ⟨a, _, _, ⟨ha, rfl⟩, ⟨hrest, rfl⟩, hlog.symm⟩
  · rintro ⟨a, i, j, ⟨ha, rfl⟩, ⟨hrest, rfl⟩, rfl⟩
    rw [bind_of_ok ha]
    exact ⟨hrest, List.length_append⟩

/-- A step without events adds none. -/
theorem ran_lift_bind {x : Except ε α} {f : α → Logged ω ε β} :
    (lift x >>= f).Ran b k ↔ ∃ a, x = .ok a ∧ (f a).Ran b k := by
  rw [ran_bind]
  constructor
  · rintro ⟨a, i, j, hran, hrest, rfl⟩
    obtain ⟨hx, rfl⟩ := ran_lift.mp hran
    exact ⟨a, hx, by rwa [Nat.zero_add]⟩
  · rintro ⟨a, hx, hrest⟩
    exact ⟨a, 0, k, ran_lift.mpr ⟨hx, rfl⟩, hrest, (Nat.zero_add k).symm⟩

/-- A loop that ends in a state of `Q` has one event for each iteration, when an iteration
that ends in such a state starts in one and leaves one event. -/
theorem Ran.forUpTo {body : σ → Nat → Logged ω ε σ} (Q : σ → Prop)
    (hback : ∀ i s t k, (body s i).Ran t k → Q t → Q s ∧ k = 1)
    (h : (Logged.forUpTo n body init).Ran final k) (hfinal : Q final) : k = n := by
  have hfold : ∀ (l : List Nat) (s : σ) (k : Nat), (l.foldlM body s).Ran final k →
      Q s ∧ k = l.length := by
    intro l
    induction l with
    | nil =>
      intro s k hs
      obtain ⟨rfl, rfl⟩ := ran_pure.mp hs
      exact ⟨hfinal, rfl⟩
    | cons i l ih =>
      intro s k hs
      rw [List.foldlM_cons, ran_bind] at hs
      obtain ⟨t, one, rest, hstep, hrest, rfl⟩ := hs
      obtain ⟨hq, rfl⟩ := ih t rest hrest
      obtain ⟨hs, rfl⟩ := hback i s t one hstep hq
      exact ⟨hs, Nat.add_comm ..⟩
  rw [(hfold _ _ k h).2, List.length_range]

-- ---------------------------------------------------------------------------
-- What the events have in common
-- ---------------------------------------------------------------------------

def Emits (P : ω → Prop) (x : Logged ω ε α) : Prop := ∀ e ∈ x.log, P e

variable {P : ω → Prop}

theorem Emits.of_log_nil {x : Logged ω ε α} (h : x.log = []) : x.Emits P := by
  intro e he
  rw [h] at he
  cases he

theorem Emits.pure (a : α) : (pure a : Logged ω ε α).Emits P := .of_log_nil rfl

theorem Emits.lift (x : Except ε α) : (lift x : Logged ω ε α).Emits P := .of_log_nil rfl

theorem Emits.stop (e : ε) : (stop e : Logged ω ε α).Emits P := .of_log_nil rfl

theorem emits_emit {e : ω} : (emit e : Logged ω ε Unit).Emits P ↔ P e := by
  simp [Emits]

/-- A step that succeeds is followed by the next one. -/
theorem Emits.bind {x : Logged ω ε α} {f : α → Logged ω ε β} (hx : x.Emits P)
    (hf : ∀ a, x.result = .ok a → (f a).Emits P) : (x >>= f).Emits P := by
  intro e he
  rw [bind_def] at he
  cases hresult : x.result with
  | error stop =>
    rw [hresult] at he
    exact hx e he
  | ok a =>
    rw [hresult] at he
    rcases List.mem_append.mp he with hfirst | hrest
    · exact hx e hfirst
    · exact hf a hresult e hrest

/-- What the first step emits stays in the log. -/
theorem Emits.of_bind {x : Logged ω ε α} {f : α → Logged ω ε β} (h : (x >>= f).Emits P) :
    x.Emits P := by
  intro e he
  refine h e ?_
  rw [bind_def]
  cases x.result with
  | error stop => exact he
  | ok a => exact List.mem_append_left _ he

/-- The rule for loops: the invariant carries from one iteration to the next. -/
theorem Emits.foldlM {ι : Type} {body : σ → ι → Logged ω ε σ} {l : List ι} (I : σ → Prop)
    (hinit : I init) (hbody : ∀ i ∈ l, ∀ s, I s → (body s i).Emits P)
    (hkeep : ∀ i ∈ l, ∀ s t, I s → (body s i).result = .ok t → I t) :
    (l.foldlM body init).Emits P := by
  induction l generalizing init with
  | nil => exact .pure init
  | cons i l ih =>
    rw [List.foldlM_cons]
    refine (hbody i List.mem_cons_self init hinit).bind fun s hs => ?_
    exact ih (hkeep i List.mem_cons_self init s hinit hs)
      (fun j hj => hbody j (List.mem_cons_of_mem i hj))
      (fun j hj => hkeep j (List.mem_cons_of_mem i hj))

theorem Emits.forUpTo {body : σ → Nat → Logged ω ε σ} (h : ∀ i < n, ∀ s, (body s i).Emits P) :
    (forUpTo n body init).Emits P :=
  .foldlM (fun _ => True) trivial (fun i hi s _ => h i (List.mem_range.mp hi) s)
    fun _ _ _ _ _ _ => trivial

/-- A loop that runs at all emits what its first iteration does. -/
theorem Emits.of_forUpTo {body : σ → Nat → Logged ω ε σ} (hn : 0 < n)
    (h : (Logged.forUpTo n body init).Emits P) : (body init 0).Emits P := by
  obtain ⟨m, rfl⟩ := Nat.exists_eq_succ_of_ne_zero hn.ne'
  rw [Logged.forUpTo, List.range_succ_eq_map, List.foldlM_cons] at h
  exact h.of_bind

end Logged

end LibEmbedding.Foundation
