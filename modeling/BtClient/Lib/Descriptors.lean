import Mathlib.Data.List.Nodup
import Mathlib.Data.List.Range
import Mathlib.Data.List.Perm.Subperm
import Mathlib.Tactic.Common

/-!
# The descriptors of a process

A process has a table of open descriptors. Opening takes the lowest number that
is free and fails when there is none below the limit; closing frees a number.

The table is accounted for by the lists of those who hold a descriptor, up to
order. No descriptor is then held twice, and together they are no more than the
limit.
-/

namespace CLib

/-- The open descriptors: all below the limit, and each of them once. -/
structure FdTable where
  limit : Nat
  opened : List Nat
  nodup : opened.Nodup
  below : ∀ fd ∈ opened, fd < limit

namespace FdTable

/-- The lowest free number. -/
def lowest (t : FdTable) : Option Nat :=
  (List.range t.limit).find? fun fd => !t.opened.contains fd

theorem lowest_free {t : FdTable} {fd : Nat} (h : t.lowest = some fd) :
    fd ∉ t.opened ∧ fd < t.limit := by
  refine ⟨?_, List.mem_range.mp (List.mem_of_find?_eq_some h)⟩
  have hfree := List.find?_some h
  simpa using hfree

/-- A new descriptor and the table with it. -/
def acquire (t : FdTable) : Option (Nat × FdTable) :=
  match h : t.lowest with
  | none => none
  | some fd =>
    have hfree := lowest_free h
    some (fd, ⟨t.limit, fd :: t.opened, t.nodup.cons hfree.1,
      List.forall_mem_cons.mpr ⟨hfree.2, t.below⟩⟩)

/-- The table without a descriptor. -/
def close (t : FdTable) (fd : Nat) : FdTable where
  limit := t.limit
  opened := t.opened.erase fd
  nodup := t.nodup.erase fd
  below := fun fd' h => t.below fd' (List.mem_of_mem_erase h)

theorem acquire_limit {t t' : FdTable} {fd : Nat} (h : t.acquire = some (fd, t')) :
    t'.limit = t.limit := by
  unfold acquire at h
  split at h
  · cases h
  · cases h
    rfl

/-- **No more than the limit.** -/
theorem length_opened_le (t : FdTable) : t.opened.length ≤ t.limit := by
  have hsub : t.opened ⊆ List.range t.limit := fun fd h => List.mem_range.mpr (t.below fd h)
  have hle := (List.subperm_of_subset t.nodup hsub).length_le
  rwa [List.length_range] at hle

/-! ## Accounts -/

/-- These are the open descriptors. -/
def Accounts (t : FdTable) (held : List Nat) : Prop := t.opened.Perm held

section Accounts

variable {t : FdTable} {held held' : List Nat} {fd : Nat}

theorem Accounts.of_perm (h : t.Accounts held) (hperm : held.Perm held') : t.Accounts held' :=
  List.Perm.trans h hperm

theorem Accounts.acquire {t' : FdTable} (h : t.Accounts held)
    (hacquire : t.acquire = some (fd, t')) : t'.Accounts (fd :: held) := by
  unfold FdTable.acquire at hacquire
  split at hacquire
  · cases hacquire
  · cases hacquire
    exact List.Perm.cons _ h

theorem Accounts.close (h : t.Accounts (fd :: held)) : (t.close fd).Accounts held := by
  have herase := List.Perm.erase fd h
  rwa [List.erase_cons_head] at herase

/-- Nobody else holds the same descriptor. -/
theorem Accounts.nodup (h : t.Accounts held) : held.Nodup := (List.Perm.nodup_iff h).mp t.nodup

theorem Accounts.below (h : t.Accounts held) (hfd : fd ∈ held) : fd < t.limit :=
  t.below fd ((List.Perm.mem_iff h).mpr hfd)

theorem Accounts.length_le (h : t.Accounts held) : held.length ≤ t.limit := by
  rw [← List.Perm.length_eq h]
  exact t.length_opened_le

end Accounts

end FdTable

/-! ## What each of many holds -/

section Holders

variable {α β : Type} {f : α → List β} {holders : List α} {c : Nat} {a b : α}

/-- What is held after one of the holders has changed. -/
theorem perm_flatMap_set (h : holders[c]? = some a) :
    (f a ++ (holders.set c b).flatMap f).Perm (f b ++ holders.flatMap f) := by
  induction holders generalizing c with
  | nil => simp at h
  | cons holder holders ih =>
    cases c with
    | zero =>
      cases h
      exact List.perm_append_comm_assoc ..
    | succ c =>
      have hrest := ih (by simpa using h)
      rw [List.set_cons_succ, List.flatMap_cons, List.flatMap_cons]
      -- the holder in front steps aside and back
      calc
        List.Perm (f a ++ (f holder ++ (holders.set c b).flatMap f))
            (f holder ++ (f a ++ (holders.set c b).flatMap f)) := List.perm_append_comm_assoc ..
        List.Perm _ (f holder ++ (f b ++ holders.flatMap f)) := List.Perm.append_left _ hrest
        List.Perm _ (f b ++ (f holder ++ holders.flatMap f)) := List.perm_append_comm_assoc ..

/-- One of the holders has got something. -/
theorem perm_flatMap_gain (h : holders[c]? = some a) {new : List β}
    (hf : (f b).Perm (new ++ f a)) :
    (new ++ holders.flatMap f).Perm ((holders.set c b).flatMap f) := by
  have hset := (perm_flatMap_set (f := f) (b := b) h).trans (hf.append_right _)
  rw [List.append_assoc] at hset
  exact ((List.perm_append_left_iff (f a)).mp
    (hset.trans (List.perm_append_comm_assoc ..))).symm

/-- One of the holders has lost something. -/
theorem perm_flatMap_lose (h : holders[c]? = some a) {old : List β}
    (hf : (f a).Perm (old ++ f b)) :
    (holders.flatMap f).Perm (old ++ (holders.set c b).flatMap f) := by
  have hlt := (List.getElem?_eq_some_iff.mp h).1
  have hback : (holders.set c b)[c]? = some b := List.getElem?_set_self hlt
  have hgain := perm_flatMap_gain hback hf
  rw [List.set_set, ← (List.getElem?_eq_some_iff.mp h).2, List.set_getElem_self] at hgain
  exact hgain.symm

end Holders

end CLib
