import Mathlib.Data.List.Basic

/-!
A list of lines in a usable order: each line names what was known before, or what
an earlier line gave.

`InOrder needs gives known lines` is what a reader sees who takes the lines one by
one. The rules are those of a writer: lines are appended (`inOrder_append_iff`), the
reader knows other things (`InOrder.restrict`), a line that nobody needs is left out
(`InOrder.filter`).
-/

namespace Reading

open List

variable {α κ : Type*} {needs : α → κ → Prop} {gives : α → Option κ} {known : κ → Prop}
  {xs ys : List α} {x : α} {k : κ}

/-- Each line names what is known when it is read. -/
def InOrder (needs : α → κ → Prop) (gives : α → Option κ) : (κ → Prop) → List α → Prop
  | _, [] => True
  | known, x :: xs =>
    (∀ k, needs x k → known k) ∧ InOrder needs gives (fun k => known k ∨ gives x = some k) xs

theorem InOrder.restrict {known' : κ → Prop} (h : InOrder needs gives known xs)
    (hknown : ∀ x ∈ xs, ∀ k, needs x k → known k → known' k) : InOrder needs gives known' xs := by
  induction xs generalizing known known' with
  | nil => trivial
  | cons x xs ih =>
    obtain ⟨hx, hxs⟩ := h
    refine ⟨fun k hk => hknown x mem_cons_self k hk (hx k hk), ih hxs fun y hy k hk hor =>
      ?_⟩
    exact hor.imp (hknown y (mem_cons_of_mem _ hy) k hk) id

theorem InOrder.less {needs' : α → κ → Prop} (h : InOrder needs gives known xs)
    (hneeds : ∀ x ∈ xs, ∀ k, needs' x k → needs x k) : InOrder needs' gives known xs := by
  induction xs generalizing known with
  | nil => trivial
  | cons x xs ih =>
    obtain ⟨hx, hxs⟩ := h
    exact ⟨fun k hk => hx k (hneeds x mem_cons_self k hk),
      ih hxs fun y hy => hneeds y (mem_cons_of_mem _ hy)⟩

theorem inOrder_append_iff :
    InOrder needs gives known (xs ++ ys) ↔
      InOrder needs gives known xs ∧
        InOrder needs gives (fun k => known k ∨ ∃ x ∈ xs, gives x = some k) ys := by
  induction xs generalizing known with
  | nil => simp [InOrder]
  | cons x xs ih =>
    have hsame : (fun k => (known k ∨ gives x = some k) ∨ ∃ y ∈ xs, gives y = some k) =
        fun k => known k ∨ ∃ y ∈ x :: xs, gives y = some k := by
      funext k
      simp [or_assoc]
    rw [cons_append, InOrder, InOrder, ih, hsame, and_assoc]

theorem inOrder_of_known (h : ∀ x ∈ xs, ∀ k, needs x k → known k) : InOrder needs gives known
    xs := by
  induction xs generalizing known with
  | nil => trivial
  | cons x xs ih =>
    refine ⟨h x mem_cons_self, ih fun y hy k hk => ?_⟩
    exact .inl (h y (mem_cons_of_mem _ hy) k hk)

theorem InOrder.known_or_given (h : InOrder needs gives known xs) (hx : x ∈ xs) (hk : needs x k) :
    known k ∨ ∃ y ∈ xs, gives y = some k := by
  obtain ⟨before, after, rfl⟩ := append_of_mem hx
  obtain ⟨-, hat⟩ := inOrder_append_iff.mp h
  refine (hat.1 k hk).imp id ?_
  rintro ⟨y, hy, hgives⟩
  exact ⟨y, mem_append_left _ hy, hgives⟩

theorem InOrder.filterMap {β : Type*} {needs' : β → κ → Prop} {gives' : β → Option κ}
    {known' : κ → Prop} {f : α → Option β} (h : InOrder needs gives known xs)
    (hneeds : ∀ x ∈ xs, ∀ y, f x = some y → ∀ k, needs' y k → known' k ∨ needs x k)
    (hknown : ∀ k, known k → known' k)
    (hgives : ∀ x ∈ xs, ∀ k, gives x = some k → known' k ∨ ∃ y, f x = some y ∧ gives' y = some k) :
    InOrder needs' gives' known' (xs.filterMap f) := by
  induction xs generalizing known known' with
  | nil => trivial
  | cons x xs ih =>
    obtain ⟨hx, hxs⟩ := h
    have hhere := hgives x mem_cons_self
    cases hf : f x with
    | none =>
      rw [filterMap_cons_none hf]
      refine ih hxs (fun z hz => hneeds z (mem_cons_of_mem _ hz)) ?_
        (fun z hz => hgives z (mem_cons_of_mem _ hz))
      rintro k (hk | hk)
      · exact hknown k hk
      · rcases hhere k hk with hk | ⟨y, hy, -⟩
        · exact hk
        · rw [hf] at hy
          cases hy
    | some y =>
      rw [filterMap_cons_some hf]
      refine ⟨fun k hk => ?_, ih hxs ?_ ?_ ?_⟩
      · rcases hneeds x mem_cons_self y hf k hk with hk | hk
        · exact hk
        · exact hknown k (hx k hk)
      · intro z hz y' hy' k hk
        exact (hneeds z (mem_cons_of_mem _ hz) y' hy' k hk).imp .inl id
      · rintro k (hk | hk)
        · exact .inl (hknown k hk)
        · rcases hhere k hk with hk | ⟨y', hy', hk⟩
          · exact .inl hk
          · rw [hf, Option.some.injEq] at hy'
            exact .inr (hy' ▸ hk)
      · intro z hz k hk
        exact (hgives z (mem_cons_of_mem _ hz) k hk).imp .inl id

theorem InOrder.filter {keep : α → Bool} (h : InOrder needs gives known xs)
    (hunused : ∀ x ∈ xs, keep x = false → ∀ y ∈ xs, keep y = true → ∀ k, gives x = some k →
      ¬needs y k) : InOrder needs gives known (xs.filter keep) := by
  suffices hgen : ∀ known' : κ → Prop,
      (∀ y ∈ xs, keep y = true → ∀ k, needs y k → known k → known' k) →
      InOrder needs gives known' (xs.filter keep) from hgen known fun _ _ _ _ _ hk => hk
  induction xs generalizing known with
  | nil => exact fun _ _ => trivial
  | cons x xs ih =>
    intro known' hknown
    obtain ⟨hx, hxs⟩ := h
    have htail := ih hxs fun y hy hkeep z hz => hunused y (mem_cons_of_mem _ hy) hkeep z
      (mem_cons_of_mem _ hz)
    cases hkeep : keep x with
    | true =>
      rw [filter_cons_of_pos hkeep]
      refine ⟨fun k hk => hknown x mem_cons_self hkeep k hk (hx k hk),
        htail _ fun y hy hy' k hk hor => ?_⟩
      exact hor.imp (hknown y (mem_cons_of_mem _ hy) hy' k hk) id
    | false =>
      rw [filter_cons_of_neg (by simp [hkeep])]
      refine htail known' fun y hy hy' k hk hor => ?_
      rcases hor with hor | hgives
      · exact hknown y (mem_cons_of_mem _ hy) hy' k hk hor
      · exact absurd hk (hunused x mem_cons_self hkeep y (mem_cons_of_mem _ hy) hy' k
          hgives)

end Reading
