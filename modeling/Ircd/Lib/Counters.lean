import Mathlib.Data.List.Count
import Mathlib.Data.List.Nodup

/-!
A list of counters, one for each class of an equivalence: what comes in counts up
the counter of its class or gets a new one, what goes out counts it down and drops
it at zero.

`Counts` says that each counter shows how many members of its class are in.
-/

namespace Counters

open List

/-- A counter with the mark of its class. -/
structure Counter (β : Type*) where
  mask : β
  number : Int
  deriving DecidableEq, Repr

variable {β κ : Type*}

/-- Count up the first counter that is hit. -/
def bump (hit : β → Bool) : List (Counter β) → List (Counter β)
  | [] => []
  | b :: bs => if hit b.mask then { b with number := b.number + 1 } :: bs else b :: bump hit bs

/-- Count down the counters that are hit, up to the first that comes to zero, which
is dropped. -/
def release (hit : β → Bool) : List (Counter β) → List (Counter β)
  | [] => []
  | b :: bs =>
    if hit b.mask then
      if b.number - 1 = 0 then bs else { b with number := b.number - 1 } :: release hit bs
    else b :: release hit bs

variable {key : β → κ} {hit : β → Bool} {bs : List (Counter β)} {ks : List κ} {k : κ}

/-- Each class has at most one counter, which shows the number of its members. -/
structure Counts [DecidableEq κ] (key : β → κ) (bs : List (Counter β)) (ks : List κ) : Prop where
  nodup : (bs.map fun b => key b.mask).Nodup
  number : ∀ b ∈ bs, b.number = ks.count (key b.mask)

def Covers (key : β → κ) (bs : List (Counter β)) (ks : List κ) : Prop :=
  ∀ k ∈ ks, k ∈ bs.map fun b => key b.mask

theorem counts_nil [DecidableEq κ] : Counts key ([] : List (Counter β)) ks :=
  ⟨nodup_nil, fun _ hb => absurd hb not_mem_nil⟩

theorem covers_nil : Covers key bs [] := fun _ hk => absurd hk not_mem_nil

theorem map_bump : (bump hit bs).map (fun b => key b.mask) = bs.map fun b => key b.mask := by
  induction bs with
  | nil => rfl
  | cons b bs ih =>
    unfold bump
    split
    · rfl
    · rw [map_cons, ih, map_cons]

theorem mem_bump [DecidableEq κ] (hhit : ∀ b ∈ bs, hit b.mask = true ↔ key b.mask = k)
    (hnodup : (bs.map fun b => key b.mask).Nodup) {b : Counter β} (hb : b ∈ bump hit bs) :
    ∃ c ∈ bs, key c.mask = key b.mask ∧ b.number = c.number + if key b.mask = k then 1 else 0 := by
  induction bs with
  | nil => exact absurd hb not_mem_nil
  | cons c bs ih =>
    obtain ⟨hfresh, hnodup⟩ := List.nodup_cons.mp hnodup
    have hc := hhit c mem_cons_self
    have hrest : ∀ b ∈ bs, hit b.mask = true ↔ key b.mask = k :=
      fun b hb => hhit b (mem_cons_of_mem _ hb)
    unfold bump at hb
    split at hb
    · rename_i hhitc
      have hk := hc.mp hhitc
      rcases List.mem_cons.mp hb with rfl | hb
      · exact ⟨c, mem_cons_self, rfl, by simp [hk]⟩
      · have hne : key b.mask ≠ k := by
          rintro heq
          exact hfresh (List.mem_map.mpr ⟨b, hb, heq.trans hk.symm⟩)
        exact ⟨b, mem_cons_of_mem _ hb, rfl, by simp [hne]⟩
    · rename_i hhitc
      rcases List.mem_cons.mp hb with rfl | hb
      · have hne : key b.mask ≠ k := fun heq => hhitc (hc.mpr heq)
        exact ⟨b, mem_cons_self, rfl, by simp [hne]⟩
      · obtain ⟨d, hd, hkey, hnumber⟩ := ih hrest hnodup hb
        exact ⟨d, mem_cons_of_mem _ hd, hkey, hnumber⟩

theorem Counts.bump [DecidableEq κ] (h : Counts key bs ks)
    (hhit : ∀ b ∈ bs, hit b.mask = true ↔ key b.mask = k) :
    Counts key (bump hit bs) (k :: ks) where
  nodup := by
    rw [map_bump]
    exact h.nodup
  number b hb := by
    obtain ⟨c, hc, hkey, hnumber⟩ := mem_bump hhit h.nodup hb
    rw [hnumber, h.number c hc, hkey, count_cons]
    by_cases heq : key b.mask = k
    · simp [heq]
    · simp [heq, Ne.symm heq]

theorem Counts.push [DecidableEq κ] (h : Counts key bs ks) (hcovers : Covers key bs ks) {mask : β}
    (hkey : key mask = k) (hfresh : k ∉ bs.map fun b => key b.mask) :
    Counts key (⟨mask, 1⟩ :: bs) (k :: ks) where
  nodup := by
    rw [map_cons, hkey]
    exact List.nodup_cons.mpr ⟨hfresh, h.nodup⟩
  number b hb := by
    rcases List.mem_cons.mp hb with rfl | hb
    · have hnone : ks.count k = 0 := count_eq_zero_of_not_mem fun hk => hfresh (hcovers k hk)
      rw [hkey, count_cons_self, hnone]
      rfl
    · have hne : key b.mask ≠ k := fun heq => hfresh (List.mem_map.mpr ⟨b, hb, heq⟩)
      rw [h.number b hb, count_cons_of_ne (Ne.symm hne)]

theorem Covers.bump (h : Covers key bs ks) (hk : k ∈ bs.map fun b => key b.mask) :
    Covers key (bump hit bs) (k :: ks) := by
  intro j hj
  rw [map_bump]
  rcases List.mem_cons.mp hj with rfl | hj
  · exact hk
  · exact h j hj

theorem Covers.push (h : Covers key bs ks) {mask : β} (hkey : key mask = k) :
    Covers key (⟨mask, 1⟩ :: bs) (k :: ks) := by
  intro j hj
  rw [map_cons, hkey]
  rcases List.mem_cons.mp hj with rfl | hj
  · exact mem_cons_self
  · exact mem_cons_of_mem _ (h j hj)

theorem release_of_no_hit (h : ∀ b ∈ bs, hit b.mask = false) : release hit bs = bs := by
  induction bs with
  | nil => rfl
  | cons b bs ih =>
    rw [release, if_neg (by simp [h b mem_cons_self]),
      ih fun c hc => h c (mem_cons_of_mem _ hc)]

theorem release_append {pre : List (Counter β)} (h : ∀ b ∈ pre, hit b.mask = false) :
    release hit (pre ++ bs) = pre ++ release hit bs := by
  induction pre with
  | nil => rfl
  | cons b pre ih =>
    rw [cons_append, release, if_neg (by simp [h b mem_cons_self]),
      ih fun c hc => h c (mem_cons_of_mem _ hc), cons_append]

theorem release_cases [DecidableEq κ] (hhit : ∀ b ∈ bs, hit b.mask = true ↔ key b.mask = k)
    (hnodup : (bs.map fun b => key b.mask).Nodup) :
    (release hit bs = bs ∧ k ∉ bs.map fun b => key b.mask) ∨
      ∃ pre c post, bs = pre ++ c :: post ∧ key c.mask = k ∧
        (∀ b ∈ pre ++ post, key b.mask ≠ k) ∧
        release hit bs =
          pre ++ if c.number - 1 = 0 then post else { c with number := c.number - 1 } :: post := by
  have hmiss : ∀ b ∈ bs, key b.mask ≠ k → hit b.mask = false := fun b hb hne => by
    rw [← Bool.not_eq_true, hhit b hb]
    exact hne
  by_cases hk : k ∈ bs.map fun b => key b.mask
  · obtain ⟨c, hc, hkey⟩ := List.mem_map.mp hk
    obtain ⟨pre, post, rfl⟩ := append_of_mem hc
    have hothers : ∀ b ∈ pre ++ post, key b.mask ≠ k := by
      intro b hb heq
      rw [map_append, map_cons, nodup_middle, nodup_cons, ← map_append]
        at hnodup
      exact hnodup.1 (List.mem_map.mpr ⟨b, hb, heq.trans hkey.symm⟩)
    have hpre : ∀ b ∈ pre, hit b.mask = false := fun b hb =>
      hmiss b (mem_append_left _ hb) (hothers b (mem_append_left _ hb))
    have hpost : ∀ b ∈ post, hit b.mask = false := fun b hb =>
      hmiss b (mem_append_right _ (mem_cons_of_mem _ hb))
        (hothers b (mem_append_right _ hb))
    refine .inr ⟨pre, c, post, rfl, hkey, hothers, ?_⟩
    rw [release_append hpre, release, if_pos ((hhit c hc).mpr hkey), release_of_no_hit hpost]
  · refine .inl ⟨release_of_no_hit fun b hb => hmiss b hb fun heq => ?_, hk⟩
    exact hk (List.mem_map.mpr ⟨b, hb, heq⟩)

theorem Counts.release [DecidableEq κ] (h : Counts key bs ks) (hit : β → Bool)
    (hhit : ∀ b ∈ bs, hit b.mask = true ↔ key b.mask = k)
    (hk : k ∈ ks) : Counts key (release hit bs) (ks.erase k) := by
  obtain ⟨hsame, hno⟩ | ⟨pre, c, post, rfl, hkey, hothers, hrel⟩ := release_cases hhit h.nodup
  · rw [hsame]
    refine ⟨h.nodup, fun b hb => ?_⟩
    have hne : key b.mask ≠ k := fun heq => hno (List.mem_map.mpr ⟨b, hb, heq⟩)
    rw [h.number b hb, count_erase_of_ne hne]
  · have hnodup := h.nodup
    have hrest : ∀ b ∈ pre ++ post, b.number = (ks.erase k).count (key b.mask) := by
      intro b hb
      have hmem : b ∈ pre ++ c :: post := by
        rcases List.mem_append.mp hb with hb | hb
        · exact mem_append_left _ hb
        · exact mem_append_right _ (mem_cons_of_mem _ hb)
      rw [h.number b hmem, count_erase_of_ne (hothers b hb)]
    have hc := h.number c (by simp)
    have hpos : 0 < ks.count k := List.count_pos_iff.mpr hk
    rw [hkey] at hc
    rw [hrel]
    split
    · rename_i hzero
      refine ⟨?_, hrest⟩
      rw [map_append, map_cons, nodup_middle, nodup_cons] at hnodup
      rw [map_append]
      exact hnodup.2
    · refine ⟨by simpa using hnodup, fun b hb => ?_⟩
      rcases List.mem_append.mp hb with hb | hb
      · exact hrest b (mem_append_left _ hb)
      · rcases List.mem_cons.mp hb with rfl | hb
        · rw [hkey, count_erase_self]
          show c.number - 1 = _
          rw [hc]
          omega
        · exact hrest b (mem_append_right _ hb)

theorem Covers.release [DecidableEq κ] (h : Covers key bs ks) (hcounts : Counts key bs ks)
    (hit : β → Bool)
    (hhit : ∀ b ∈ bs, hit b.mask = true ↔ key b.mask = k) (hk : k ∈ ks) :
    Covers key (release hit bs) (ks.erase k) := by
  obtain ⟨hsame, -⟩ | ⟨pre, c, post, rfl, hkey, hothers, hrel⟩ := release_cases hhit hcounts.nodup
  · rw [hsame]
    exact fun j hj => h j (mem_of_mem_erase hj)
  · intro j hj
    have hin := h j (mem_of_mem_erase hj)
    rw [map_append, map_cons, mem_append, mem_cons, hkey] at hin
    have hc := hcounts.number c (by simp)
    rw [hkey] at hc
    rw [hrel, map_append, mem_append]
    rcases hin with hin | rfl | hin
    · exact .inl hin
    · right
      split
      · rename_i hzero
        have hcount : 0 < (ks.erase j).count j := List.count_pos_iff.mpr hj
        rw [count_erase_self] at hcount
        omega
      · exact List.mem_map.mpr ⟨_, mem_cons_self, hkey⟩
    · right
      split
      · exact hin
      · exact mem_cons_of_mem _ hin

theorem Counts.perm [DecidableEq κ] {ks' : List κ} (h : Counts key bs ks) (hperm : ks.Perm ks') :
    Counts key bs ks' :=
  ⟨h.nodup, fun b hb => by rw [h.number b hb, hperm.count_eq]⟩

end Counters
