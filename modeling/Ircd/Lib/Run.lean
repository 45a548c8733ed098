import Mathlib.Data.List.Basic

/-!
Runs of a deterministic machine over a list of inputs, and the induction that
carries an invariant along a run whose steps all meet a condition.
-/

namespace Run

variable {σ ι : Type*} {step : σ → ι → σ} {ok : σ → ι → Prop} {inv : σ → Prop}

/-- The state after a list of inputs. -/
def exec (step : σ → ι → σ) (s : σ) (is : List ι) : σ := is.foldl step s

/-- Every step of the run meets the condition, in the state before the step. -/
def Guarded (step : σ → ι → σ) (ok : σ → ι → Prop) : σ → List ι → Prop
  | _, [] => True
  | s, i :: is => ok s i ∧ Guarded step ok (step s i) is

@[simp] theorem exec_nil (s : σ) : exec step s [] = s := rfl

@[simp] theorem exec_cons (s : σ) (i : ι) (is : List ι) :
    exec step s (i :: is) = exec step (step s i) is := rfl

theorem guarded_of_forall (h : ∀ s i, ok s i) (s : σ) (is : List ι) : Guarded step ok s is := by
  induction is generalizing s with
  | nil => exact True.intro
  | cons i is ih => exact ⟨h s i, ih (step s i)⟩

theorem guarded_true (s : σ) (is : List ι) : Guarded step (fun _ _ => True) s is :=
  guarded_of_forall (fun _ _ => trivial) s is

theorem Guarded.initial {s : σ} {is js : List ι} (h : Guarded step ok s is) (hjs : js <+: is) :
    Guarded step ok s js := by
  induction js generalizing s is with
  | nil => trivial
  | cons j js ih =>
    obtain ⟨is, rfl, htail⟩ := List.cons_prefix_iff.mp hjs
    exact ⟨h.1, ih h.2 htail⟩

theorem inv_exec (hstep : ∀ s i, inv s → ok s i → inv (step s i)) {s : σ} {is : List ι}
    (h0 : inv s) (hok : Guarded step ok s is) : inv (exec step s is) := by
  induction is generalizing s with
  | nil => exact h0
  | cons i is ih =>
    obtain ⟨hi, his⟩ := hok
    exact ih (hstep s i h0 hi) his

theorem guarded_iff {ok' : σ → ι → Prop} (hiff : ∀ s i, inv s → (ok' s i ↔ ok s i))
    (hstep : ∀ s i, inv s → ok s i → inv (step s i)) {s : σ} {is : List ι} (h0 : inv s) :
    Guarded step ok' s is ↔ Guarded step ok s is := by
  induction is generalizing s with
  | nil => exact Iff.rfl
  | cons i is ih =>
    constructor
    · rintro ⟨hi, his⟩
      have hok := (hiff s i h0).mp hi
      exact ⟨hok, (ih (hstep s i h0 hok)).mp his⟩
    · rintro ⟨hi, his⟩
      exact ⟨(hiff s i h0).mpr hi, (ih (hstep s i h0 hi)).mpr his⟩

theorem iff_guarded (bad good : σ → Prop) (hstep : ∀ s i, inv s → ok s i → inv (step s i))
    (hbad : ∀ s i, inv s → ¬ok s i → bad (step s i)) (hstays : ∀ s i, bad s → bad (step s i))
    (hgood : ∀ s, inv s → good s) (hnot : ∀ s, bad s → ¬good s) {s : σ} {is : List ι} (h0 : inv s) :
    good (exec step s is) ↔ Guarded step ok s is := by
  have hlost : ∀ {s} (is : List ι), bad s → bad (exec step s is) := by
    intro s is hs
    induction is generalizing s with
    | nil => exact hs
    | cons i is ih => exact ih (hstays s i hs)
  induction is generalizing s with
  | nil => exact iff_of_true (hgood s h0) trivial
  | cons i is ih =>
    by_cases hi : ok s i
    · exact (ih (hstep s i h0 hi)).trans (and_iff_right hi).symm
    · exact iff_of_false (hnot _ (hlost is (hbad s i h0 hi))) fun h => hi h.1

/-- Where a step that does not meet the condition ends in a bad state, every state on the
way is good, and follows its input, exactly if the steps of the run meet it. -/
theorem prefixes_iff_guarded (good : σ → Prop) (after : ι → σ → Prop)
    (hstep : ∀ s i, inv s → ok s i → inv (step s i)) (hgood : ∀ s, inv s → good s)
    (hafter : ∀ s i, inv s → ok s i → after i (step s i))
    (hbad : ∀ s i, inv s → ¬ok s i → ¬good (step s i)) {s : σ} {is : List ι} (h0 : inv s) :
    (∀ js, js <+: is → good (exec step s js) ∧
      ∀ i, js.getLast? = some i → after i (exec step s js)) ↔ Guarded step ok s is := by
  induction is generalizing s with
  | nil =>
    refine iff_of_true (fun js hjs => ?_) trivial
    obtain rfl := List.prefix_nil.mp hjs
    exact ⟨hgood s h0, nofun⟩
  | cons i is ih =>
    constructor
    · intro hall
      have hi : ok s i := by
        by_contra hi
        exact hbad s i h0 hi (hall [i] (by simp)).1
      refine ⟨hi, (ih (hstep s i h0 hi)).mp fun js hjs => ?_⟩
      obtain ⟨hlast, hfollows⟩ := hall (i :: js) (List.cons_prefix_cons.mpr ⟨rfl, hjs⟩)
      exact ⟨hlast, fun j hj => hfollows j (by simp [List.getLast?_cons, hj])⟩
    · rintro ⟨hi, his⟩ js hjs
      cases js with
      | nil => exact ⟨hgood s h0, nofun⟩
      | cons j js =>
        obtain ⟨rfl, htail⟩ := List.cons_prefix_cons.mp hjs
        obtain ⟨hlast, hfollows⟩ := (ih (hstep s j h0 hi)).mpr his js htail
        refine ⟨hlast, fun k hk => ?_⟩
        cases js with
        | nil =>
          obtain rfl : j = k := by simpa using hk
          exact hafter s j h0 hi
        | cons l js => exact hfollows k (by simpa using hk)

theorem steps_iff_guarded (good : σ → ι → σ → Prop)
    (hstep : ∀ s i, inv s → ok s i → inv (step s i))
    (hgood : ∀ s i, inv s → (good s i (step s i) ↔ ok s i)) {s : σ} {is : List ι} (h0 : inv s) :
    (∀ js i, js ++ [i] <+: is → good (exec step s js) i (exec step s (js ++ [i]))) ↔
      Guarded step ok s is := by
  induction is generalizing s with
  | nil => exact iff_of_true (fun js i hjs => absurd (List.prefix_nil.mp hjs) (by simp)) trivial
  | cons j is ih =>
    constructor
    · intro hall
      have hj : ok s j := (hgood s j h0).mp (hall [] j (by simp))
      refine ⟨hj, (ih (hstep s j h0 hj)).mp fun js i hjs => ?_⟩
      exact hall (j :: js) i (List.cons_prefix_cons.mpr ⟨rfl, hjs⟩)
    · rintro ⟨hj, his⟩ js i hjs
      cases js with
      | nil =>
        obtain ⟨rfl, -⟩ := List.cons_prefix_cons.mp hjs
        exact (hgood s i h0).mpr hj
      | cons k js =>
        obtain ⟨rfl, htail⟩ := List.cons_prefix_cons.mp hjs
        exact (ih (hstep s k h0 hj)).mpr his js i htail

end Run
