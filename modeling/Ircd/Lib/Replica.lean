import Mathlib.Logic.Function.Basic
import Mathlib.Data.List.Basic

/-!
A table that lags behind another one by the messages still on their way to it.

A message changes at most the entry of its key and never makes one. `replay` is
the table after a list of messages, and `Valid` says that each of them meets a
condition on the table it arrives at. Both get along with taking an entry away.
-/

namespace Replica

open Function

variable {ι ν μ : Type*}

/-- `t` says nothing that `u` does not say. -/
def Sub (t u : ι → Option ν) : Prop := ∀ i v, t i = some v → u i = some v

theorem Sub.refl (t : ι → Option ν) : Sub t t := fun _ _ h => h

theorem Sub.trans {t u w : ι → Option ν} (h₁ : Sub t u) (h₂ : Sub u w) : Sub t w :=
  fun i v h => h₂ i v (h₁ i v h)

theorem Sub.eq_none {t u : ι → Option ν} (h : Sub t u) {i : ι} (hu : u i = none) : t i = none := by
  cases ht : t i with
  | none => rfl
  | some v => exact absurd (h i v ht) (by simp [hu])

section Update

variable [DecidableEq ι]

theorem sub_erase (t : ι → Option ν) (i : ι) : Sub (update t i none) t := by
  intro j v h
  by_cases hj : j = i
  · subst hj
    simp at h
  · rwa [update_of_ne hj] at h

theorem Sub.erase {t u : ι → Option ν} (h : Sub t u) {i : ι} (hi : t i = none) :
    Sub t (update u i none) := by
  intro j v hj
  by_cases hji : j = i
  · subst hji
    simp [hi] at hj
  · rw [update_of_ne hji]
    exact h j v hj

end Update

/-- What the messages do: the entry they change, and how. -/
structure Effect (μ ι ν : Type*) where
  key : μ → ι
  change : μ → ν → Option ν

namespace Effect

variable [DecidableEq ι] (e : Effect μ ι ν)

def apply (t : ι → Option ν) (m : μ) : ι → Option ν :=
  update t (e.key m) ((t (e.key m)).bind (e.change m))

def replay (t : ι → Option ν) (ms : List μ) : ι → Option ν := ms.foldl e.apply t

/-- Every message meets the condition on the table that it arrives at. -/
def Valid (ok : (ι → Option ν) → μ → Prop) : (ι → Option ν) → List μ → Prop
  | _, [] => True
  | t, m :: ms => ok t m ∧ Valid ok (e.apply t m) ms

variable {e} {t u : ι → Option ν} {m : μ} {ms : List μ} {ok : (ι → Option ν) → μ → Prop} {i : ι}

@[simp] theorem replay_nil : e.replay t [] = t := rfl

@[simp] theorem replay_cons : e.replay t (m :: ms) = e.replay (e.apply t m) ms := rfl

theorem replay_concat : e.replay t (ms ++ [m]) = e.apply (e.replay t ms) m := by
  simp [replay]

theorem apply_of_none (h : t (e.key m) = none) : e.apply t m = t := by
  rw [apply, h]
  exact update_eq_self_iff.mpr (by simp [h])

theorem apply_of_some {v : ν} (h : t (e.key m) = some v) :
    e.apply t m = update t (e.key m) (e.change m v) := by
  rw [apply, h]
  rfl

theorem apply_of_keep (h : e.change m = some) : e.apply t m = t := by
  rw [apply, h]
  exact update_eq_self_iff.mpr (by simp)

theorem apply_other (h : i ≠ e.key m) : e.apply t m i = t i :=
  update_of_ne h _ _

theorem apply_eq_none (h : t i = none) : e.apply t m i = none := by
  by_cases hi : i = e.key m
  · subst hi
    rw [apply_of_none h, h]
  · rw [apply_other hi, h]

theorem replay_eq_none (h : t i = none) : e.replay t ms i = none := by
  induction ms generalizing t with
  | nil => exact h
  | cons m ms ih => exact ih (apply_eq_none h)

theorem apply_mono (h : Sub t u) : Sub (e.apply t m) (e.apply u m) := by
  intro i v hi
  by_cases hk : i = e.key m
  · subst hk
    cases ht : t (e.key m) with
    | none => simp [apply_eq_none ht] at hi
    | some w =>
      rw [apply_of_some ht, update_self] at hi
      rw [apply_of_some (h _ w ht), update_self, hi]
  · rw [apply_other hk] at hi ⊢
    exact h i v hi

theorem replay_mono (h : Sub t u) : Sub (e.replay t ms) (e.replay u ms) := by
  induction ms generalizing t u with
  | nil => exact h
  | cons m ms ih => exact ih (apply_mono h)

theorem apply_sub_update {o : Option ν} (h : Sub t u) (hm : ∀ v, e.change m v = o) :
    Sub (e.apply t m) (update u (e.key m) o) := by
  intro i v hi
  by_cases hk : i = e.key m
  · subst hk
    cases ht : t (e.key m) with
    | none => simp [apply_eq_none ht] at hi
    | some w =>
      rw [apply_of_some ht, update_self, hm] at hi
      rwa [update_self]
  · rw [apply_other hk] at hi
    rw [update_of_ne hk]
    exact h i v hi

theorem apply_erase : e.apply (update t i none) m = update (e.apply t m) i
    none := by
  by_cases hi : e.key m = i
  · subst hi
    rw [apply_of_none (update_self ..), apply, update_idem]
  · rw [apply, apply, update_of_ne hi, update_comm hi]

theorem replay_erase :
    e.replay (update t i none) ms = update (e.replay t ms) i none := by
  induction ms generalizing t with
  | nil => rfl
  | cons m ms ih => rw [replay_cons, apply_erase, ih, replay_cons]

theorem valid_concat : e.Valid ok t (ms ++ [m]) ↔ e.Valid ok t ms ∧ ok (e.replay t ms) m := by
  induction ms generalizing t with
  | nil => exact and_comm
  | cons m' ms ih =>
    rw [List.cons_append, Valid, Valid, ih, and_assoc, replay_cons]

theorem Valid.mono (hok : ∀ t u m, Sub t u → ok u m → ok t m) (h : Sub t u) (hu : e.Valid ok u ms) :
    e.Valid ok t ms := by
  induction ms generalizing t u with
  | nil => trivial
  | cons m ms ih =>
    obtain ⟨hm, hms⟩ := hu
    exact ⟨hok t u m h hm, ih (apply_mono h) hms⟩

end Effect

end Replica
