import Mathlib.Logic.Function.Basic
import Mathlib.Tactic

/-!
# Names and the files they name

A directory gives names to files. A descriptor stays on its file when the name moves, so what
is written through it is found wherever the file is. No file has two names.
-/

namespace LibEmbedding.Foundation

open Function

structure Inodes (ν : Type u) (β : Type v) where
  dir : ν → Option Nat
  data : Nat → List β
  /-- No file from here on is in use. -/
  fresh : Nat
  bounded : ∀ n k, dir n = some k → k < fresh
  unshared : ∀ n m k, dir n = some k → dir m = some k → n = m

namespace Inodes

variable {ν : Type u} {β : Type v} [DecidableEq ν]

def content (s : Inodes ν β) (n : ν) : Option (List β) := (s.dir n).map s.data

theorem unlink_some {dir : ν → Option Nat} (h : update dir n none m = some k) :
    m ≠ n ∧ dir m = some k := by
  by_cases hm : m = n
  · rw [hm, update_self] at h
    cases h
  · exact ⟨hm, by rwa [update_of_ne hm] at h⟩

def unlink (s : Inodes ν β) (n : ν) : Inodes ν β where
  dir := update s.dir n none
  data := s.data
  fresh := s.fresh
  bounded m k h := s.bounded m k (unlink_some h).2
  unshared m m' k h h' := s.unshared m m' k (unlink_some h).2 (unlink_some h').2

theorem link_some {s : Inodes ν β} (h : update s.dir n (some s.fresh) m = some k) :
    m = n ∧ k = s.fresh ∨ m ≠ n ∧ s.dir m = some k := by
  by_cases hm : m = n
  · rw [hm, update_self] at h
    exact .inl ⟨hm, (Option.some.inj h).symm⟩
  · exact .inr ⟨hm, by rwa [update_of_ne hm] at h⟩

theorem link_bounded {s : Inodes ν β} (h : update s.dir n (some s.fresh) m = some k) :
    k < s.fresh + 1 := by
  rcases link_some h with ⟨-, rfl⟩ | ⟨-, hold⟩
  · exact Nat.lt_succ_self _
  · exact (s.bounded m k hold).trans (Nat.lt_succ_self _)

theorem link_unshared {s : Inodes ν β} (h : update s.dir n (some s.fresh) m = some k)
    (h' : update s.dir n (some s.fresh) m' = some k) : m = m' := by
  rcases link_some h with ⟨rfl, rfl⟩ | ⟨-, hold⟩
  · rcases link_some h' with ⟨rfl, -⟩ | ⟨-, hold'⟩
    · rfl
    · exact absurd (s.bounded m' _ hold') (lt_irrefl _)
  · rcases link_some h' with ⟨-, rfl⟩ | ⟨-, hold'⟩
    · exact absurd (s.bounded m _ hold) (lt_irrefl _)
    · exact s.unshared m m' k hold hold'

/-- No file at all. -/
def empty (ν : Type u) (β : Type v) : Inodes ν β where
  dir _ := none
  data _ := []
  fresh := 0
  bounded := nofun
  unshared := nofun

/-- An empty file under a name that has none. -/
def create (s : Inodes ν β) (n : ν) : Inodes ν β where
  dir := update s.dir n (some s.fresh)
  data := update s.data s.fresh []
  fresh := s.fresh + 1
  bounded _ _ h := link_bounded h
  unshared _ _ _ h h' := link_unshared h h'

def setData (s : Inodes ν β) (k : Nat) (bytes : List β) : Inodes ν β where
  dir := s.dir
  data := update s.data k bytes
  fresh := s.fresh
  bounded := s.bounded
  unshared := s.unshared

/-- `O_CREAT | O_TRUNC`: the disk, and the file the descriptor is on. -/
def openTrunc (s : Inodes ν β) (n : ν) : Inodes ν β × Nat :=
  match s.dir n with
  | some k => (s.setData k [], k)
  | none => (s.create n, s.fresh)

theorem move_some {s : Inodes ν β} (h : update (update s.dir m (s.dir n)) n none l = some k) :
    l ≠ n ∧ (l = m ∧ s.dir n = some k ∨ l ≠ m ∧ s.dir l = some k) := by
  obtain ⟨hl, hrest⟩ := unlink_some h
  refine ⟨hl, ?_⟩
  by_cases hm : l = m
  · rw [hm, update_self] at hrest
    exact .inl ⟨hm, hrest⟩
  · exact .inr ⟨hm, by rwa [update_of_ne hm] at hrest⟩

theorem move_bounded {s : Inodes ν β} (h : update (update s.dir m (s.dir n)) n none l = some k) :
    k < s.fresh := by
  rcases (move_some h).2 with ⟨-, hmoved⟩ | ⟨-, hold⟩
  · exact s.bounded n k hmoved
  · exact s.bounded l k hold

theorem move_unshared {s : Inodes ν β} (h : update (update s.dir m (s.dir n)) n none l = some k)
    (h' : update (update s.dir m (s.dir n)) n none l' = some k) : l = l' := by
  obtain ⟨hl, hfile⟩ := move_some h
  obtain ⟨hl', hfile'⟩ := move_some h'
  rcases hfile with ⟨rfl, hmoved⟩ | ⟨-, hold⟩
  · rcases hfile' with ⟨rfl, -⟩ | ⟨-, hold'⟩
    · rfl
    · exact absurd (s.unshared l' n k hold' hmoved) hl'
  · rcases hfile' with ⟨-, hmoved'⟩ | ⟨-, hold'⟩
    · exact absurd (s.unshared l n k hold hmoved') hl
    · exact s.unshared l l' k hold hold'

/-- The file of `n` moves to the name `m`, in the place of the file there. -/
def rename (s : Inodes ν β) (n m : ν) : Inodes ν β where
  dir := update (update s.dir m (s.dir n)) n none
  data := s.data
  fresh := s.fresh
  bounded _ _ h := move_bounded h
  unshared _ _ _ h h' := move_unshared h h'

-- ---------------------------------------------------------------------------
-- What is found under a name
-- ---------------------------------------------------------------------------

theorem content_unlink_self (s : Inodes ν β) (n : ν) : (s.unlink n).content n = none := by
  rw [content, unlink]
  dsimp only
  rw [update_self]
  rfl

theorem content_unlink_other (s : Inodes ν β) (hm : m ≠ n) :
    (s.unlink n).content m = s.content m := by
  rw [content, unlink]
  dsimp only
  rw [update_of_ne hm]
  rfl

theorem content_rename_self (s : Inodes ν β) (hm : m ≠ n) :
    (s.rename n m).content m = s.content n := by
  rw [content, rename]
  dsimp only
  rw [update_of_ne hm, update_self]
  rfl

omit [DecidableEq ν] in
theorem content_setData_other (s : Inodes ν β) (bytes : List β) (hm : s.dir m ≠ some k) :
    (s.setData k bytes).content m = s.content m := by
  rw [content, content, setData]
  dsimp only
  cases hdir : s.dir m with
  | none => rfl
  | some l =>
    have hne : l ≠ k := fun heq => hm (hdir.trans (congrArg some heq))
    rw [Option.map_some, Option.map_some, update_of_ne hne]

/-- Opening a file changes nothing under another name. -/
theorem content_openTrunc_other (s : Inodes ν β) (hm : m ≠ n) :
    (s.openTrunc n).1.content m = s.content m := by
  unfold openTrunc
  split
  · rename_i k hk
    exact content_setData_other s [] fun hshared => hm (s.unshared m n k hshared hk)
  · unfold content create
    dsimp only
    rw [update_of_ne hm]
    cases hdir : s.dir m with
    | none => rfl
    | some l => rw [Option.map_some, Option.map_some, update_of_ne (s.bounded m l hdir).ne]

/-- The descriptor is on the file under the name, which is empty. -/
theorem openTrunc_dir (s : Inodes ν β) (n : ν) :
    (s.openTrunc n).1.dir n = some (s.openTrunc n).2 ∧
      (s.openTrunc n).1.data (s.openTrunc n).2 = [] := by
  unfold openTrunc
  split
  · rename_i k hk
    exact ⟨hk, update_self _ _ _⟩
  · exact ⟨update_self _ _ _, update_self _ _ _⟩

/-- `write` at an offset. What lies between the end of the file and the offset reads as `gap`. -/
def overwrite (gap : β) (old : List β) (offset : Nat) (bytes : List β) : List β :=
  (old ++ List.replicate (offset - old.length) gap).take offset ++ bytes ++
    old.drop (offset + bytes.length)

theorem overwrite_end (gap : β) (old bytes : List β) :
    overwrite gap old old.length bytes = old ++ bytes := by
  rw [overwrite, Nat.sub_self, List.replicate_zero, List.append_nil, List.take_length,
    List.drop_eq_nil_of_le (Nat.le_add_right _ _), List.append_nil]

end Inodes

end LibEmbedding.Foundation
