import LibEmbedding.Foundation.Programs

/-!
# Turns

A loop whose steps are taken one turn after another, each with a choice that is not its own: which
thread goes on, or nothing at all. It has ended when it is done or when a step has failed.
-/

namespace LibEmbedding.Foundation

variable {σ τ α β ε : Type}

/-- The loop after the given turns, `none` while it is still going. -/
def turns (step : σ → α → Except ε σ) (done : σ → Bool) (s : σ) : List α → Option (Except ε σ)
  | [] => if done s then some (.ok s) else none
  | a :: choices =>
    if done s then some (.ok s)
    else match step s a with
      | .ok t => turns step done t choices
      | .error e => some (.error e)

/-- What comes before a loop, and what comes after it. -/
def around (before : Except ε σ) (loop : σ → Option (Except ε τ)) (after : τ → Except ε β) :
    Option (Except ε β) :=
  match before with
  | .ok s => (loop s).map fun ended => ended >>= after
  | .error e => some (.error e)

/-- A computation that throws nothing. -/
def computed (x : Checked β) : Except Halt β := x.mapError .faulted

@[simp] theorem computed_ok (b : β) : computed (.ok b) = .ok b := rfl

@[simp] theorem computed_error (fault : Fault) :
    computed (.error fault : Checked β) = .error (.faulted fault) := rfl

/-- Nothing in it is undefined. -/
def NoFault (x : Except Halt β) : Prop := ∀ fault, x ≠ .error (.faulted fault)

/-- A loop that has come to an end, and to no undefined behaviour. -/
def EndedWell (ended : Option (Except Halt β)) : Prop := ∃ x, ended = some x ∧ NoFault x

theorem noFault_ok (b : β) : NoFault (.ok b) := fun _ h => nomatch h

theorem noFault_threw : NoFault (.error .threw : Except Halt β) := fun _ h => nomatch h

theorem NoFault.bind {x : Except Halt α} {f : α → Except Halt β} (hx : NoFault x)
    (hf : ∀ a, x = .ok a → NoFault (f a)) : NoFault (x >>= f) := by
  cases x with
  | ok a => exact hf a rfl
  | error e =>
    intro fault h
    cases h
    exact hx fault rfl

theorem EndedWell.around {before : Except Halt σ} {loop : σ → Option (Except Halt τ)}
    {after : τ → Except Halt β} (hbefore : NoFault before)
    (hloop : ∀ s, before = .ok s → EndedWell (loop s)) (hafter : ∀ t, NoFault (after t)) :
    EndedWell (around before loop after) := by
  unfold Foundation.around
  cases before with
  | error e => exact ⟨.error e, rfl, fun fault h => hbefore fault (by cases h; rfl)⟩
  | ok s =>
    obtain ⟨x, hx, hnone⟩ := hloop s rfl
    refine ⟨x >>= after, ?_, hnone.bind fun t _ => hafter t⟩
    show (loop s).map (fun ended => ended >>= after) = _
    rw [hx, Option.map_some]

theorem not_endedWell_around {before : Except Halt σ} {loop : σ → Option (Except Halt τ)}
    {after : τ → Except Halt β} (hbefore : before = .ok s)
    (h : ∀ x, loop s = some x → ¬ NoFault (x >>= after)) :
    ¬ EndedWell (around before loop after) := by
  rintro ⟨x, hx, hnone⟩
  subst hbefore
  change (loop s).map (fun ended => ended >>= after) = some x at hx
  obtain ⟨ended, hended, rfl⟩ := Option.map_eq_some_iff.mp hx
  exact h ended hended hnone

theorem NoFault.not_bind {x : Except Halt α} (h : ∃ fault, x = .error (.faulted fault))
    (f : α → Except Halt β) : ¬ NoFault (x >>= f) := by
  obtain ⟨fault, rfl⟩ := h
  exact fun hnone => hnone fault rfl

/-- What comes after and always succeeds changes nothing. -/
theorem endedWell_map {o : Option (Except Halt α)} {f : α → Except Halt β}
    (hf : ∀ a, ∃ b, f a = .ok b) : EndedWell (o.map fun x => x >>= f) ↔ EndedWell o := by
  cases o with
  | none => exact iff_of_false (fun ⟨_, h, _⟩ => nomatch h) (fun ⟨_, h, _⟩ => nomatch h)
  | some x =>
    have hsame : NoFault (x >>= f) ↔ NoFault x := by
      cases x with
      | ok a =>
        obtain ⟨b, hb⟩ := hf a
        rw [ok_bind, hb]
        exact iff_of_true (noFault_ok b) (noFault_ok a)
      | error e => exact forall_congr' fun fault => by simp
    constructor
    · rintro ⟨_, h, hnone⟩
      cases h
      exact ⟨x, rfl, hsame.mp hnone⟩
    · rintro ⟨_, h, hnone⟩
      cases h
      exact ⟨_, rfl, hsame.mpr hnone⟩

variable {step : σ → α → Except ε σ} {done : σ → Bool} {I : σ → Prop} {Q : ε → Prop}

/-- The rule for loops that end: a step fails in an allowed way, or it keeps the invariant and
leaves fewer turns to take. -/
theorem turns_ends (measure : σ → Nat)
    (hstep : ∀ s a, I s → done s = false → (∃ e, step s a = .error e ∧ Q e) ∨
      ∃ t, step s a = .ok t ∧ I t ∧ measure t < measure s)
    {s : σ} (hs : I s) {choices : List α} (henough : measure s < choices.length) :
    (∃ e, turns step done s choices = some (.error e) ∧ Q e) ∨
      ∃ t, turns step done s choices = some (.ok t) ∧ I t ∧ done t = true := by
  induction choices generalizing s with
  | nil => exact absurd henough (Nat.not_lt_zero _)
  | cons a choices ih =>
    rw [turns]
    by_cases hdone : done s = true
    · rw [if_pos hdone]
      exact .inr ⟨s, rfl, hs, hdone⟩
    · rw [if_neg hdone]
      rcases hstep s a hs (Bool.eq_false_iff.mpr hdone) with ⟨e, herror, he⟩ | ⟨t, ht, hi, hlt⟩
      · rw [herror]
        exact .inl ⟨e, rfl, he⟩
      · rw [ht]
        exact ih hi (Nat.lt_of_lt_of_le hlt (Nat.le_of_lt_succ henough))

/-- The rule for loops that never end well: as long as the invariant holds nothing is done, and a
step keeps it or fails. -/
theorem turns_fails (hopen : ∀ s, I s → done s = false)
    (hstep : ∀ s a, I s → (∃ e, step s a = .error e ∧ Q e) ∨ ∃ t, step s a = .ok t ∧ I t)
    {s : σ} (hs : I s) {choices : List α} (h : turns step done s choices = some ended) :
    ∃ e, ended = .error e ∧ Q e := by
  induction choices generalizing s with
  | nil =>
    rw [turns, hopen s hs] at h
    cases h
  | cons a choices ih =>
    rw [turns, hopen s hs, if_neg Bool.false_ne_true] at h
    rcases hstep s a hs with ⟨e, herror, he⟩ | ⟨t, ht, hi⟩
    · rw [herror] at h
      cases h
      exact ⟨e, rfl, he⟩
    · rw [ht] at h
      exact ih hi h

theorem turns_error (hstep : ∀ s a e, step s a = .error e → Q e) {s : σ} {choices : List α}
    (h : turns step done s choices = some (.error e)) : Q e := by
  induction choices generalizing s with
  | nil =>
    rw [turns] at h
    split at h <;> cases h
  | cons a choices ih =>
    rw [turns] at h
    split at h
    · cases h
    · cases hnext : step s a with
      | ok t =>
        rw [hnext] at h
        exact ih h
      | error e' =>
        rw [hnext] at h
        cases h
        exact hstep s a e hnext

end LibEmbedding.Foundation
