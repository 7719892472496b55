import Mathlib.Tactic.Common

/-!
# Names of files

A directory as the system calls see it: each name is free or leads to a file,
given by its inode number. `openCreate` (`open` with `O_CREAT`) takes the file
a name leads to or makes a new one under it; `rename` gives a file another
name and replaces what had it. Numbers are not used twice, which the last
field says.
-/

namespace CLib

/-- The names, and the number of the next new file. -/
structure Directory (Name : Type) where
  entry : Name → Option Nat
  next : Nat
  fresh : ∀ name ino, entry name = some ino → ino < next

namespace Directory

variable {Name : Type} [DecidableEq Name] {old new name : Name} {ino : Nat}

/-- Nothing has a name yet. -/
def empty : Directory Name := ⟨fun _ => none, 0, fun _ _ h => nomatch h⟩

/-- The file `open(name, O_CREAT | …)` opens. -/
def opened (dir : Directory Name) (name : Name) : Nat := (dir.entry name).getD dir.next

/-- `open(name, O_CREAT | …)`. -/
def openCreate (dir : Directory Name) (name : Name) : Directory Name where
  entry := Function.update dir.entry name (some (dir.opened name))
  next := dir.next + 1
  fresh := by
    intro other ino h
    rw [Function.update_apply] at h
    split at h
    · obtain rfl := Option.some.inj h
      rw [opened]
      cases hname : dir.entry name with
      | none => exact Nat.lt_succ_self _
      | some ino => exact Nat.lt_succ_of_lt (dir.fresh name ino hname)
    · exact Nat.lt_succ_of_lt (dir.fresh other ino h)

/-- The entries after `rename(old, new)`. Nothing happens where `old` is free,
which is an error, or where both names are those of one file. -/
def renamed (entry : Name → Option Nat) (old new : Name) : Name → Option Nat :=
  if entry old = none ∨ entry new = entry old then entry
  else Function.update (Function.update entry new (entry old)) old none

theorem renamed_sub {entry : Name → Option Nat} (h : renamed entry old new name = some ino) :
    ∃ was, entry was = some ino := by
  rw [renamed] at h
  split at h
  · exact ⟨name, h⟩
  · rw [Function.update_apply] at h
    split at h
    · cases h
    · rw [Function.update_apply] at h
      split at h
      · exact ⟨old, h⟩
      · exact ⟨name, h⟩

/-- `rename(old, new)`. -/
def rename (dir : Directory Name) (old new : Name) : Directory Name where
  entry := renamed dir.entry old new
  next := dir.next
  fresh := by
    intro name ino h
    obtain ⟨was, hwas⟩ := renamed_sub h
    exact dir.fresh was ino hwas

variable {dir : Directory Name}

/-! ## `open` -/

@[simp] theorem openCreate_self : (dir.openCreate name).entry name = some (dir.opened name) := by
  show Function.update dir.entry name (some (dir.opened name)) name = some (dir.opened name)
  rw [Function.update_self]

theorem openCreate_ne {other : Name} (h : other ≠ name) :
    (dir.openCreate name).entry other = dir.entry other := by
  show Function.update dir.entry name (some (dir.opened name)) other = dir.entry other
  rw [Function.update_of_ne h]

/-! ## `rename` -/

/-- The file has the new name. -/
theorem rename_new (h : dir.entry old = some ino) : (dir.rename old new).entry new = some ino := by
  show renamed dir.entry old new new = some ino
  rw [renamed]
  split
  · rename_i hcase
    rcases hcase with hnone | hsame
    · rw [h] at hnone
      cases hnone
    · rw [hsame, h]
  · rename_i hcase
    have hne : new ≠ old := fun heq => hcase (.inr (by rw [heq]))
    rw [Function.update_of_ne hne, Function.update_self, h]

/-- The old name is free, unless both were names of the file. -/
theorem rename_old (h : dir.entry old = some ino) (hnew : dir.entry new ≠ some ino) :
    (dir.rename old new).entry old = none := by
  have hmoves : ¬ (dir.entry old = none ∨ dir.entry new = dir.entry old) := by
    rw [h]
    rintro (hnone | hsame)
    · cases hnone
    · exact hnew hsame
  show renamed dir.entry old new old = none
  rw [renamed, if_neg hmoves, Function.update_self]

/-- The other names are as they were. -/
theorem rename_ne (hold : name ≠ old) (hnew : name ≠ new) :
    (dir.rename old new).entry name = dir.entry name := by
  show renamed dir.entry old new name = dir.entry name
  rw [renamed]
  split
  · rfl
  · rw [Function.update_of_ne hold, Function.update_of_ne hnew]

/-- `ino` is a file, and `name` its one name. -/
def OneName (dir : Directory Name) (ino : Nat) (name : Name) : Prop :=
  ∀ other, dir.entry other = some ino ↔ other = name

/-- No other name leads to the file of `name`, if it has one. -/
def Unshared (dir : Directory Name) (name : Name) : Prop :=
  ∀ other ino, dir.entry name = some ino → dir.entry other = some ino → other = name

/-- A file that is new, or not shared, has one name after `open`. -/
theorem OneName.openCreate (h : dir.Unshared name) :
    (dir.openCreate name).OneName (dir.opened name) name := by
  intro other
  constructor
  · intro hother
    by_contra hne
    rw [openCreate_ne hne] at hother
    cases hname : dir.entry name with
    | none =>
      -- the number of a new file is not in use
      rw [opened, hname] at hother
      exact Nat.lt_irrefl _ (dir.fresh other dir.next hother)
    | some ino =>
      rw [opened, hname] at hother
      exact hne (h other ino hname hother)
  · rintro rfl
    exact openCreate_self

/-- A file with one name has the new one instead. -/
theorem OneName.rename (h : dir.OneName ino old) : (dir.rename old new).OneName ino new := by
  have hold : dir.entry old = some ino := (h old).mpr rfl
  intro other
  constructor
  · intro hother
    by_contra hnew
    by_cases heq : other = old
    · have hgone : (dir.rename old new).entry old = none :=
        rename_old hold fun hsame => hnew (heq.trans ((h new).mp hsame).symm)
      rw [heq, hgone] at hother
      cases hother
    · rw [rename_ne heq hnew] at hother
      exact heq ((h other).mp hother)
  · rintro rfl
    exact rename_new hold

end Directory

end CLib
