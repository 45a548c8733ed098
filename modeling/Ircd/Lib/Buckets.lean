import Mathlib.Data.List.Basic
import Mathlib.Logic.Function.Basic

/-!
Entries filed in chains: a hash table, or the member lists of several owners.

`Files t loc` says that every entry stands in the chain where it belongs, once,
and in no other. The two moves are `add` and `del`, and a move changes where one
entry belongs and nothing else (`Files.add`, `Files.del`).
-/

namespace Buckets

open Function

variable {κ ι : Type*}

def add [DecidableEq κ] (t : κ → List ι) (k : κ) (c : ι) : κ → List ι :=
    update t k (c :: t k)

def del [DecidableEq κ] [DecidableEq ι] (t : κ → List ι) (k : κ) (c : ι) : κ → List ι :=
    update t k ((t k).erase c)

/-- Every entry stands in the chain that `loc` names, and once. -/
structure Files (t : κ → List ι) (loc : ι → Option κ) : Prop where
  mem : ∀ {k c}, c ∈ t k ↔ loc c = some k
  nodup : ∀ k, (t k).Nodup

variable {t : κ → List ι} {loc : ι → Option κ} {k : κ} {c : ι}

theorem files_empty : Files (fun _ : κ => ([] : List ι)) fun _ => none :=
  ⟨by simp, fun _ => List.nodup_nil⟩

theorem Files.congr {loc' : ι → Option κ} (h : Files t loc) (hloc : ∀ c, loc' c = loc c) :
    Files t loc' := by
  rwa [show loc' = loc from funext hloc]

theorem Files.perm {t' : κ → List ι} (h : Files t loc) (hperm : ∀ k, (t' k).Perm (t k)) :
    Files t' loc where
  mem {k _} := (hperm k).mem_iff.trans h.mem
  nodup k := (hperm k).nodup_iff.mpr (h.nodup k)

variable [DecidableEq ι]

theorem Files.absent (h : Files t loc) (hc : loc c = none) :
    Files t (update loc c none) := by
  rwa [← hc, update_eq_self]

variable [DecidableEq κ]

theorem Files.add (h : Files t loc) (hc : loc c = none) :
    Files (Buckets.add t k c) (update loc c (some k)) where
  mem {k' d} := by
    by_cases hd : d = c
    · subst hd
      by_cases hk : k' = k
      · simp [Buckets.add, hk]
      · simp [Buckets.add, update_of_ne hk, h.mem, hc, Ne.symm hk]
    · by_cases hk : k' = k
      · subst hk
        simp [Buckets.add, hd, h.mem]
      · simp [Buckets.add, update_of_ne hk, update_of_ne hd, h.mem]
  nodup k' := by
    by_cases hk : k' = k
    · subst hk
      have : c ∉ t k' := fun hm => by simp [h.mem.mp hm] at hc
      simpa [Buckets.add] using ⟨this, h.nodup k'⟩
    · simpa [Buckets.add, update_of_ne hk] using h.nodup k'

theorem Files.del (h : Files t loc) (hc : ∀ k', loc c = some k' → k' = k) :
    Files (Buckets.del t k c) (update loc c none) where
  mem {k' d} := by
    by_cases hd : d = c
    · subst hd
      have : d ∉ Buckets.del t k d k' := by
        by_cases hk : k' = k
        · subst hk
          simpa [Buckets.del] using (h.nodup k').not_mem_erase
        · simpa [Buckets.del, update_of_ne hk, h.mem] using fun e => hk (hc k' e)
      simp [this]
    · by_cases hk : k' = k
      · subst hk
        simp [Buckets.del, update_of_ne hd, List.mem_erase_of_ne hd, h.mem]
      · simp [Buckets.del, update_of_ne hk, update_of_ne hd, h.mem]
  nodup k' := by
    by_cases hk : k' = k
    · subst hk
      simpa [Buckets.del] using (h.nodup k').erase c
    · simpa [Buckets.del, update_of_ne hk] using h.nodup k'

omit [DecidableEq ι] in
theorem find_add {p : ι → Bool} (hp : p c = false) (k' : κ) :
    (Buckets.add t k' c k).find? p = (t k).find? p := by
  by_cases hk : k = k'
  · subst hk
    simp [Buckets.add, hp]
  · simp [Buckets.add, update_of_ne hk]

end Buckets
