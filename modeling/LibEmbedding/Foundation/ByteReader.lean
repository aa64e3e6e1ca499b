import LibEmbedding.Foundation.Checked

/-!
# Reading bytes

A reader stands at a position of its bytes and takes them in turn. It ends with a value, refuses
what it sees, or comes to a step that is not defined.

Two rules carry a reader through its steps. `Accepts` says what it makes of the bytes of one value,
whatever follows them; `Yields` says what holds of every value it gives, on any bytes.
-/

namespace LibEmbedding.Foundation

-- ---------------------------------------------------------------------------
-- Numbers
-- ---------------------------------------------------------------------------

/-- The bytes of a number, the lowest first. -/
def littleEndian : Nat → Nat → List UInt8
  | 0, _ => []
  | width + 1, n => UInt8.ofNat n :: littleEndian width (n / 256)

def ofLittleEndian : List UInt8 → Nat
  | [] => 0
  | b :: bytes => b.toNat + 256 * ofLittleEndian bytes

@[simp] theorem length_littleEndian (width n : Nat) : (littleEndian width n).length = width := by
  induction width generalizing n with
  | zero => rfl
  | succ width ih => simp [littleEndian, ih]

theorem ofLittleEndian_lt (bytes : List UInt8) : ofLittleEndian bytes < 256 ^ bytes.length := by
  induction bytes with
  | nil => simp [ofLittleEndian]
  | cons b bytes ih =>
    have hb := b.toNat_lt
    simp only [ofLittleEndian, List.length_cons, pow_succ]
    omega

theorem ofLittleEndian_littleEndian {width n : Nat} (h : n < 256 ^ width) :
    ofLittleEndian (littleEndian width n) = n := by
  induction width generalizing n with
  | zero => simp_all [littleEndian, ofLittleEndian]
  | succ width ih =>
    have hnext : n / 256 < 256 ^ width := by
      rw [pow_succ] at h
      exact Nat.div_lt_of_lt_mul (by omega)
    simp only [littleEndian, ofLittleEndian, ih hnext, UInt8.toNat_ofNat']
    omega

-- ---------------------------------------------------------------------------
-- Readers
-- ---------------------------------------------------------------------------

/-- The bytes on both sides of a position. -/
structure ByteStream where
  before : List UInt8
  rest : List UInt8
  deriving DecidableEq

def ByteStream.whole (s : ByteStream) : List UInt8 := s.before ++ s.rest

/-- The position `n` of the same bytes. -/
def ByteStream.at (s : ByteStream) (n : Nat) : ByteStream := ⟨s.whole.take n, s.whole.drop n⟩

@[simp] theorem ByteStream.whole_at (s : ByteStream) (n : Nat) : (s.at n).whole = s.whole :=
  List.take_append_drop n s.whole

inductive ReadStop where
  | refused
  | fault (f : Fault)
  deriving DecidableEq, Repr

abbrev ByteReader (α : Type) := StateT ByteStream (Except ReadStop) α

namespace ByteReader

def refuse : ByteReader α := fun _ => .error .refused

def demand (p : Prop) [Decidable p] : ByteReader Unit := if p then pure () else refuse

def runChecked : Checked α → ByteReader α
  | .ok a => pure a
  | .error f => fun _ => .error (.fault f)

/-- At least `n` bytes are left. -/
def expect (n : Nat) : ByteReader Unit := fun s =>
  if n ≤ s.rest.length then .ok ((), s) else .error .refused

def take (n : Nat) : ByteReader (List UInt8) := fun s =>
  if n ≤ s.rest.length then .ok (s.rest.take n, ⟨s.before ++ s.rest.take n, s.rest.drop n⟩)
  else .error .refused

def tell : ByteReader Nat := fun s => .ok (s.before.length, s)

def seek (n : Nat) : ByteReader Unit := fun s =>
  if n ≤ s.whole.length then .ok ((), s.at n) else .error .refused

def number (width : Nat) : ByteReader Nat := do
  let bytes ← take width
  return ofLittleEndian bytes

/-- A loop whose steps see what has been read before. -/
def each (step : List α → ByteReader α) : Nat → List α → ByteReader (List α)
  | 0, done => pure done
  | n + 1, done => do
    let a ← step done
    each step n (done ++ [a])

def many (n : Nat) (step : ByteReader α) : ByteReader (List α) := each (fun _ => step) n []

-- ---------------------------------------------------------------------------
-- The bytes of a value
-- ---------------------------------------------------------------------------

/-- These bytes are read as `a`. -/
def Accepts (r : ByteReader α) (bytes : List UInt8) (a : α) : Prop :=
  ∀ before rest, r ⟨before, bytes ++ rest⟩ = .ok (a, ⟨before ++ bytes, rest⟩)

theorem bind_apply (r : ByteReader α) (f : α → ByteReader β) (s : ByteStream) :
    (r >>= f) s = r s >>= fun p => f p.1 p.2 := rfl

theorem bind_reads {r : ByteReader α} {f : α → ByteReader β} :
    (r >>= f) s = .ok p ↔ ∃ a s', r s = .ok (a, s') ∧ f a s' = .ok p := by
  rw [bind_apply, bind_ok, Prod.exists]

theorem demand_run {p : Prop} [Decidable p] {f : Unit → ByteReader α} :
    (demand p >>= f) s = .ok q ↔ p ∧ f () s = .ok q := by
  unfold demand
  split
  · rename_i hp
    exact ⟨fun h => ⟨hp, h⟩, fun h => h.2⟩
  · rename_i hp
    exact ⟨fun h => (nomatch h), fun h => absurd h.1 hp⟩

theorem take_run : take n s = .ok (bytes, s') ↔
    n ≤ s.rest.length ∧ s.rest.take n = bytes ∧ ⟨s.before ++ bytes, s.rest.drop n⟩ = s' := by
  unfold take
  split
  · rename_i hle
    simp only [Except.ok.injEq, Prod.mk.injEq, hle, true_and]
    constructor
    · rintro ⟨rfl, rfl⟩
      exact ⟨rfl, rfl⟩
    · rintro ⟨rfl, rfl⟩
      exact ⟨rfl, rfl⟩
  · rename_i hgt
    exact ⟨fun h => (nomatch h), fun h => absurd h.1 hgt⟩

theorem Accepts.pure (a : α) : Accepts (Pure.pure a : ByteReader α) [] a := fun before rest => by
  rw [List.append_nil]
  rfl

theorem Accepts.bind {r : ByteReader α} {f : α → ByteReader β} (hr : Accepts r bytes a)
    (hf : Accepts (f a) bytes' b) : Accepts (r >>= f) (bytes ++ bytes') b := by
  intro before rest
  rw [bind_apply, List.append_assoc, hr, ok_bind]
  rw [hf, List.append_assoc]

theorem Accepts.map {r : ByteReader α} (hr : Accepts r bytes a) (f : α → β) :
    Accepts (f <$> r) bytes (f a) := by
  have h : Accepts (r >>= fun a => Pure.pure (f a)) (bytes ++ []) (f a) :=
    hr.bind (Accepts.pure (f a))
  rwa [List.append_nil] at h

theorem Accepts.guard {p : Prop} [Decidable p] {f : Unit → ByteReader β} (hp : p)
    (hf : Accepts (f ()) bytes b) : Accepts (demand p >>= f) bytes b := by
  rw [demand, if_pos hp]
  exact hf

theorem Accepts.checked {x : Checked α} {f : α → ByteReader β} (hx : x = .ok a)
    (hf : Accepts (f a) bytes b) : Accepts (runChecked x >>= f) bytes b := by
  rw [hx]
  exact hf

theorem Accepts.expect {f : Unit → ByteReader β} (hn : n ≤ bytes.length)
    (hf : Accepts (f ()) bytes b) : Accepts (expect n >>= f) bytes b := by
  intro before rest
  have hleft : n ≤ (bytes ++ rest).length := by
    rw [List.length_append]
    omega
  rw [bind_apply, ByteReader.expect, if_pos hleft, ok_bind]
  exact hf before rest

theorem accepts_take (bytes : List UInt8) : Accepts (take bytes.length) bytes bytes := by
  intro before rest
  simp [take]

theorem accepts_number {width n : Nat} (h : n < 256 ^ width) :
    Accepts (number width) (littleEndian width n) n := by
  have htake := accepts_take (littleEndian width n)
  rw [length_littleEndian] at htake
  have hread : Accepts (number width) (littleEndian width n ++ [])
      (ofLittleEndian (littleEndian width n)) := htake.bind (Accepts.pure _)
  rwa [ofLittleEndian_littleEndian h, List.append_nil] at hread

theorem accepts_each {step : List α → ByteReader α} {encode : α → List UInt8} {items : List α}
    (done : List α) (h : ∀ before a behind, items = before ++ a :: behind →
      Accepts (step (done ++ before)) (encode a) a) :
    Accepts (each step items.length done) (items.flatMap encode) (done ++ items) := by
  induction items generalizing done with
  | nil =>
    rw [List.append_nil]
    exact Accepts.pure done
  | cons a items ih =>
    have hhead := h [] a items rfl
    rw [List.append_nil] at hhead
    have hrest := ih (done ++ [a]) fun before b behind heq => by
      have hstep := h (a :: before) b behind (by rw [heq]; rfl)
      rwa [List.append_cons] at hstep
    rw [List.append_assoc] at hrest
    exact hhead.bind hrest

theorem accepts_many {step : ByteReader α} {encode : α → List UInt8} {items : List α}
    (h : ∀ a ∈ items, Accepts step (encode a) a) :
    Accepts (many items.length step) (items.flatMap encode) items :=
  accepts_each [] fun before a behind heq => h a (by simp [heq])

-- ---------------------------------------------------------------------------
-- The values of a reader
-- ---------------------------------------------------------------------------

/-- On any bytes the reader stops at the faults in `may` at most, and gives values of which `P`
holds, over the same bytes. -/
def Yields (may : Fault → Prop) (r : ByteReader α) (P : α → Prop) : Prop :=
  ∀ s, (∀ a s', r s = .ok (a, s') → s'.whole = s.whole ∧ P a) ∧
    ∀ f, r s = .error (.fault f) → may f

variable {may : Fault → Prop}

theorem Yields.pure {a : α} (h : P a) : Yields may (Pure.pure a) P := by
  refine fun s => ⟨fun b s' hrun => ?_, fun f hrun => (nomatch hrun)⟩
  cases hrun
  exact ⟨rfl, h⟩

theorem Yields.bind {r : ByteReader α} {f : α → ByteReader β} (hr : Yields may r P)
    (hf : ∀ a, P a → Yields may (f a) Q) : Yields may (r >>= f) Q := by
  intro s
  obtain ⟨hvalue, hfault⟩ := hr s
  rw [bind_apply]
  cases hrun : r s with
  | error stop =>
    refine ⟨fun b s' h => (nomatch h), fun f h => ?_⟩
    cases h
    exact hfault f hrun
  | ok p =>
    obtain ⟨a, t⟩ := p
    obtain ⟨hwhole, ha⟩ := hvalue a t hrun
    obtain ⟨hvalue', hfault'⟩ := hf a ha t
    refine ⟨fun b s' h => ?_, hfault'⟩
    obtain ⟨hwhole', hb⟩ := hvalue' b s' h
    exact ⟨hwhole'.trans hwhole, hb⟩

theorem Yields.mono {r : ByteReader α} (hr : Yields may r P) (h : ∀ a, P a → Q a) :
    Yields may r Q :=
  fun s => ⟨fun a s' hrun => ((hr s).1 a s' hrun).imp_right (h a), (hr s).2⟩

theorem yields_refuse (P : α → Prop) : Yields may refuse P :=
  fun _ => ⟨fun _ _ h => (nomatch h), fun _ h => (nomatch h)⟩

theorem yields_demand (p : Prop) [Decidable p] :
    Yields may (demand p) fun _ => p := by
  unfold demand
  split
  · rename_i hp
    exact Yields.pure hp
  · exact yields_refuse _

theorem yields_runChecked {x : Checked α} (hx : ∀ f, x = .error f → may f) :
    Yields may (runChecked x) fun a => x = .ok a := by
  cases x with
  | ok a => exact Yields.pure rfl
  | error f =>
    refine fun s => ⟨fun _ _ h => (nomatch h), fun g h => ?_⟩
    cases h
    exact hx f rfl

theorem yields_expect (n : Nat) : Yields may (expect n) fun _ => True := by
  intro s
  unfold expect
  split
  · refine ⟨fun a s' h => ?_, fun f h => (nomatch h)⟩
    cases h
    exact ⟨rfl, trivial⟩
  · exact ⟨fun a s' h => (nomatch h), fun f h => (nomatch h)⟩

theorem yields_take (n : Nat) : Yields may (take n) fun bytes => bytes.length = n := by
  intro s
  unfold take
  split
  · rename_i hn
    refine ⟨fun a s' h => ?_, fun f h => (nomatch h)⟩
    cases h
    exact ⟨by simp [ByteStream.whole], List.length_take_of_le hn⟩
  · exact ⟨fun a s' h => (nomatch h), fun f h => (nomatch h)⟩

theorem yields_tell : Yields may tell fun _ => True := by
  refine fun s => ⟨fun a s' h => ?_, fun f h => (nomatch h)⟩
  cases h
  exact ⟨rfl, trivial⟩

theorem yields_seek (n : Nat) : Yields may (seek n) fun _ => True := by
  intro s
  unfold seek
  split
  · refine ⟨fun a s' h => ?_, fun f h => (nomatch h)⟩
    cases h
    exact ⟨s.whole_at n, trivial⟩
  · exact ⟨fun a s' h => (nomatch h), fun f h => (nomatch h)⟩

theorem yields_number (width : Nat) : Yields may (number width) fun n => n < 256 ^ width := by
  refine (yields_take width).bind fun bytes hbytes => Yields.pure ?_
  have hlt := ofLittleEndian_lt bytes
  rwa [hbytes] at hlt

/-- An invariant of what has been read holds of all of it. -/
theorem yields_each {step : List α → ByteReader α} {I : List α → Prop}
    (hstep : ∀ done, I done → Yields may (step done) fun a => I (done ++ [a])) (n : Nat)
    {done : List α} (hdone : I done) :
    Yields may (each step n done) fun items => I items ∧ items.length = done.length + n := by
  induction n generalizing done with
  | zero => exact Yields.pure ⟨hdone, rfl⟩
  | succ n ih =>
    refine (hstep done hdone).bind fun a ha => ?_
    refine (ih ha).mono fun items hitems => ⟨hitems.1, ?_⟩
    rw [hitems.2, List.length_append, List.length_singleton]
    omega

theorem yields_many {step : ByteReader α} (hstep : Yields may step P) (n : Nat) :
    Yields may (many n step) fun items => (∀ a ∈ items, P a) ∧ items.length = n := by
  have hall : ∀ done : List α, (∀ a ∈ done, P a) →
      Yields may step fun a => ∀ b ∈ done ++ [a], P b := by
    intro done hdone
    apply hstep.mono
    intro a ha
    simp only [List.mem_append, List.mem_singleton]
    rintro b (hb | rfl)
    · exact hdone b hb
    · exact ha
  have heach := yields_each (I := fun items => ∀ a ∈ items, P a) hall n
    fun a ha => absurd ha List.not_mem_nil
  apply heach.mono
  intro items hitems
  simpa using hitems

end ByteReader

end LibEmbedding.Foundation
