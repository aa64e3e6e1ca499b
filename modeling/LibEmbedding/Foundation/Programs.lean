import LibEmbedding.Foundation.Checked

/-!
# Programs over a state

Code that reads and changes a state and may be cut short, by an exception or because it leaves
defined behaviour. `Meets` says what holds of the state at either end, and its rules take a
program apart step by step.
-/

namespace LibEmbedding.Foundation

/-- What cuts a program short. -/
inductive Halt where
  /-- An exception. -/
  | threw
  /-- A computation that has no defined value. -/
  | faulted (fault : Fault)
  /-- A pointer that does not lead to what it is used for. -/
  | misused
  deriving DecidableEq

structure Program (σ α : Type) where
  run : σ → Except Halt α × σ

namespace Program

variable {σ α β : Type}

instance : Monad (Program σ) where
  pure a := ⟨fun s => (.ok a, s)⟩
  bind m f := ⟨fun s =>
    match m.run s with
    | (.ok a, t) => (f a).run t
    | (.error stop, t) => (.error stop, t)⟩

def read : Program σ σ := ⟨fun s => (.ok s, s)⟩

def modify (f : σ → σ) : Program σ Unit := ⟨fun s => (.ok (), f s)⟩

def stop (e : Halt) : Program σ α := ⟨fun s => (.error e, s)⟩

def throwIf (b : Bool) : Program σ Unit := if b then stop .threw else pure ()

/-- A computation that does not touch the state. -/
def compute (x : Checked α) : Program σ α :=
  match x with
  | .ok a => pure a
  | .error fault => stop (.faulted fault)

/-- `for (i = 0; i < n; i++) a = body(a, i)`. -/
def forUpTo (n : Nat) (body : α → Nat → Program σ α) (init : α) : Program σ α :=
  (List.range n).foldlM body init

/-- `try { m } catch { handler }` -/
def tryCatch (m handler : Program σ α) : Program σ α := ⟨fun s =>
  match m.run s with
  | (.error .threw, t) => handler.run t
  | ended => ended⟩

theorem run_bind (m : Program σ α) (f : α → Program σ β) (s : σ) : (m >>= f).run s =
    match m.run s with
    | (.ok a, t) => (f a).run t
    | (.error e, t) => (.error e, t) := rfl

theorem run_tryCatch (m handler : Program σ α) (s : σ) : (tryCatch m handler).run s =
    match m.run s with
    | (.error .threw, t) => handler.run t
    | ended => ended := rfl

theorem bind_of_ok {m : Program σ α} {f : α → Program σ β} (h : m.run s = (.ok a, t)) :
    (m >>= f).run s = (f a).run t := by
  rw [run_bind, h]

theorem bind_of_error {m : Program σ α} {f : α → Program σ β} (h : m.run s = (.error e, t)) :
    (m >>= f).run s = (.error e, t) := by
  rw [run_bind, h]

theorem tryCatch_of_ok {m handler : Program σ α} (h : m.run s = (.ok a, t)) :
    (tryCatch m handler).run s = (.ok a, t) := by
  rw [run_tryCatch, h]

theorem tryCatch_of_threw {m handler : Program σ α} (h : m.run s = (.error .threw, t)) :
    (tryCatch m handler).run s = handler.run t := by
  rw [run_tryCatch, h]

theorem throwIf_true : (throwIf true : Program σ Unit).run s = (.error .threw, s) := rfl

-- ---------------------------------------------------------------------------
-- What a program leaves
-- ---------------------------------------------------------------------------

/-- From a state of `P` the program ends in one of `Q`, or it is cut short in one of `T`. -/
def Meets (P : σ → Prop) (m : Program σ α) (Q : α → σ → Prop) (T : Halt → σ → Prop) : Prop :=
  ∀ s, P s → match m.run s with
    | (.ok a, t) => Q a t
    | (.error e, t) => T e t

variable {P K : σ → Prop} {Q Q' : α → σ → Prop} {R : β → σ → Prop} {T T' : Halt → σ → Prop}

theorem Meets.of_ok {m : Program σ α} (h : m.Meets P Q T) (hs : P s) (hrun : m.run s = (.ok a, t)) :
    Q a t := by
  have := h s hs
  rwa [hrun] at this

theorem Meets.of_error {m : Program σ α} (h : m.Meets P Q T) (hs : P s)
    (hrun : m.run s = (.error e, t)) : T e t := by
  have := h s hs
  rwa [hrun] at this

/-- A run that is known to succeed. -/
theorem Meets.of_run {m : Program σ α} (h : ∀ s, P s → ∃ a t, m.run s = (.ok a, t) ∧ Q a t) :
    m.Meets P Q T := by
  intro s hs
  obtain ⟨a, t, hrun, hq⟩ := h s hs
  rw [hrun]
  exact hq

theorem Meets.weaken {m : Program σ α} (h : m.Meets P Q T) (hpre : ∀ s, K s → P s)
    (hpost : ∀ a s, Q a s → Q' a s) (hstop : ∀ e s, T e s → T' e s) : m.Meets K Q' T' := by
  intro s hs
  cases hrun : m.run s with
  | mk result t =>
    cases result with
    | ok a => exact hpost a t (h.of_ok (hpre s hs) hrun)
    | error e => exact hstop e t (h.of_error (hpre s hs) hrun)

theorem Meets.trivial {m : Program σ α} : m.Meets P (fun _ _ => True) fun _ _ => True := by
  intro s _
  split
  · trivial
  · trivial

theorem Meets.pure {a : α} : (pure a : Program σ α).Meets (Q a) Q T := fun _ hs => hs

theorem Meets.bind {m : Program σ α} {f : α → Program σ β} (hm : m.Meets P Q T)
    (hf : ∀ a, (f a).Meets (Q a) R T) : (m >>= f).Meets P R T := by
  intro s hs
  cases hrun : m.run s with
  | mk result t =>
    cases result with
    | ok a =>
      rw [bind_of_ok hrun]
      exact hf a t (hm.of_ok hs hrun)
    | error e =>
      rw [bind_of_error hrun]
      exact hm.of_error hs hrun

/-- What follows a read knows the state it has read. -/
theorem Meets.read_bind {f : σ → Program σ β} (h : ∀ s, P s → (f s).Meets (· = s) R T) :
    (read >>= f).Meets P R T := fun s hs => h s hs s rfl

theorem Meets.modify {f : σ → σ} (h : ∀ s, P s → K (f s)) :
    (modify f).Meets P (fun _ => K) T := h

theorem Meets.stop (h : ∀ s, P s → T e s) : (stop e : Program σ α).Meets P Q T := h

theorem Meets.throwIf (h : ∀ s, P s → T .threw s) :
    (throwIf b).Meets P (fun _ s => b = false ∧ P s) T := by
  cases b with
  | true => exact h
  | false => exact fun _ hs => ⟨rfl, hs⟩

theorem Meets.throwIf_false : (Program.throwIf false : Program σ Unit).Meets P (fun _ => P) T :=
  fun _ hs => hs

/-- What a computation yields is all that the rest learns of it. -/
theorem Meets.compute {x : Checked α} (h : ∀ fault s, P s → T (.faulted fault) s) :
    (compute x).Meets P (fun a s => x = .ok a ∧ P s) T := by
  cases x with
  | ok a => exact fun _ hs => ⟨rfl, hs⟩
  | error fault => exact h fault

theorem Meets.compute_ok {x : Checked α} (h : x = .ok a) :
    (Program.compute x).Meets P (fun b s => a = b ∧ P s) T := by
  rw [h]
  exact fun _ hs => ⟨rfl, hs⟩

/-- A fact that does not depend on the state. -/
theorem Meets.of_fact {m : Program σ α} {φ : Prop} (h : φ → m.Meets P Q T) :
    m.Meets (fun s => φ ∧ P s) Q T := fun s hs => h hs.1 s hs.2

/-- The rule for counted loops: the invariant carries from one iteration to the next. -/
theorem Meets.forUpTo {body : α → Nat → Program σ α} (I : Nat → α → σ → Prop)
    (h : ∀ i < n, ∀ a, (body a i).Meets (I i a) (I (i + 1)) T) :
    (forUpTo n body init).Meets (I 0 init) (I n) T := by
  have hfold : ∀ m ≤ n, ∀ a, ((List.range' (n - m) m).foldlM body a).Meets (I (n - m) a) (I n) T := by
    intro m
    induction m with
    | zero => exact fun _ _ _ hs => hs
    | succ m ih =>
      intro hm a
      have hnext : n - (m + 1) + 1 = n - m := by omega
      rw [List.range'_succ, List.foldlM_cons]
      refine (h (n - (m + 1)) (by omega) a).bind fun b => ?_
      rw [hnext]
      exact ih (by omega) b
  have hall := hfold n le_rfl init
  rw [Nat.sub_self] at hall
  rw [Program.forUpTo, List.range_eq_range']
  exact hall

/-- What the handler starts from is what an exception leaves. -/
theorem Meets.tryCatch {m handler : Program σ α} {U : Halt → σ → Prop} (hm : m.Meets P Q U)
    (hhandler : handler.Meets (U .threw) Q T) (hstop : ∀ e s, e ≠ .threw → U e s → T e s) :
    (tryCatch m handler).Meets P Q T := by
  intro s hs
  cases hrun : m.run s with
  | mk result t =>
    cases result with
    | ok a =>
      rw [tryCatch_of_ok hrun]
      exact hm.of_ok hs hrun
    | error e =>
      have hleft := hm.of_error hs hrun
      cases e with
      | threw =>
        rw [tryCatch_of_threw hrun]
        exact hhandler t hleft
      | faulted fault =>
        rw [run_tryCatch, hrun]
        exact hstop _ t nofun hleft
      | misused =>
        rw [run_tryCatch, hrun]
        exact hstop _ t nofun hleft

end Program

end LibEmbedding.Foundation
