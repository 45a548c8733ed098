import Ircd.Lib.Buckets

/-!
A hash table of singly linked chains, by its pointers: the heads and the pointer in
each entry. A search moves what it finds to the front of its chain, and a removal
goes along the chain for the entry in front. Both walk with fuel.

`Holds t lists` says that the pointers lead through the chains `lists`. Each
operation is the one on the lists (`Holds.add`, `Holds.find`, `Holds.del`,
`Holds.walk`), with a length of fuel that is enough.
-/

namespace Chains

open Function List

variable {κ : Type*}

/-- The heads of the chains and the pointer in each entry. -/
structure Table (κ : Type*) where
  head : κ → Option Nat
  next : Nat → Option Nat

section Operations

variable [DecidableEq κ]

def Table.add (k : κ) (a : Nat) (t : Table κ) : Table κ where
  head := update t.head k (some a)
  next := update t.next a (t.head k)

/-- The entry behind `prev` comes to the front. -/
def Table.moveUp (k : κ) (prev a : Nat) (t : Table κ) : Table κ where
  head := update t.head k (some a)
  next := update (update t.next prev (t.next a)) a (t.head k)

/-- The search behind `prev`. -/
def Table.findLoop (hit : Nat → Bool) (k : κ) :
    Nat → Nat → Table κ → Option (Option Nat × Table κ)
  | 0, _, _ => none
  | fuel + 1, prev, t =>
    match t.next prev with
    | none => some (none, t)
    | some a =>
      if hit a then some (some a, t.moveUp k prev a) else Table.findLoop hit k fuel a t

/-- The search, which leaves a hit at the front where it is. -/
def Table.find (hit : Nat → Bool) (k : κ) (fuel : Nat) (t : Table κ) :
    Option (Option Nat × Table κ) :=
  match t.head k with
  | none => some (none, t)
  | some a => if hit a then some (some a, t) else Table.findLoop hit k fuel a t

/-- The removal behind `tmp`. A removed entry points to itself. -/
def Table.delLoop (a : Nat) : Nat → Nat → Table κ → Option (Table κ)
  | 0, _, _ => none
  | fuel + 1, tmp, t =>
    match t.next tmp with
    | none => some t
    | some b =>
      if b = a then
        some { t with
          next := update (update t.next tmp (t.next a)) a (some a) }
      else Table.delLoop a fuel b t

def Table.del (k : κ) (a fuel : Nat) (t : Table κ) : Option (Table κ) :=
  match t.head k with
  | none => some t
  | some tmp =>
    if tmp = a then
      some { head := update t.head k (t.next a),
             next := update t.next a (some a) }
    else Table.delLoop a fuel tmp t

/-- The pointer behind `last` is set, or the head of the chain. -/
def Table.relink (k : κ) (last q : Option Nat) (t : Table κ) : Table κ :=
  match last with
  | none => { t with head := update t.head k q }
  | some p => { t with next := update t.next p q }

/-- The entries that a walk along a chain meets. -/
def walkFrom (next : Nat → Option Nat) : Nat → Option Nat → Option (List Nat)
  | _, none => some []
  | 0, some _ => none
  | fuel + 1, some a => (walkFrom next fuel (next a)).map (a :: ·)

def Table.walk (k : κ) (fuel : Nat) (t : Table κ) : Option (List Nat) :=
  walkFrom t.next fuel (t.head k)

end Operations

/-- What a search does to the list of a chain. -/
def moveToFront (hit : Nat → Bool) (l : List Nat) : List Nat :=
  match l.find? hit with
  | none => l
  | some a => a :: l.erase a

theorem moveToFront_perm (hit : Nat → Bool) (l : List Nat) : (moveToFront hit l).Perm l := by
  unfold moveToFront
  cases hfind : l.find? hit with
  | none => exact List.Perm.refl _
  | some a => exact (perm_cons_erase (mem_of_find?_eq_some hfind)).symm

/-! ### Segments -/

/-- The pointers lead from `p` through the entries to `q`. -/
def Seg (next : Nat → Option Nat) : Option Nat → List Nat → Option Nat → Prop
  | p, [], q => p = q
  | p, a :: l, q => p = some a ∧ Seg next (next a) l q

variable {next next' : Nat → Option Nat} {p q : Option Nat} {l m : List Nat} {a : Nat}

theorem seg_append : Seg next p (l ++ m) q ↔ ∃ r, Seg next p l r ∧ Seg next r m q := by
  induction l generalizing p with
  | nil => simp [Seg]
  | cons a l ih => simp [Seg, ih, and_assoc]

theorem seg_unique (h : Seg next p l none) (h' : Seg next p m none) : l = m := by
  induction l generalizing p m with
  | nil =>
    cases m with
    | nil => rfl
    | cons b m =>
      have hnone : p = none := h
      rw [hnone] at h'
      cases h'.1
  | cons a l ih =>
    cases m with
    | nil =>
      have hnone : p = none := h'
      rw [hnone] at h
      cases h.1
    | cons b m =>
      obtain rfl : a = b := Option.some.inj (h.1.symm.trans h'.1)
      rw [ih h.2 h'.2]

theorem Seg.congr (h : Seg next p l q) (hsame : ∀ a ∈ l, next' a = next a) :
    Seg next' p l q := by
  induction l generalizing p with
  | nil => exact h
  | cons a l ih =>
    refine ⟨h.1, ?_⟩
    rw [hsame a mem_cons_self]
    exact ih h.2 fun b hb => hsame b (mem_cons_of_mem _ hb)

theorem Seg.update (h : Seg next p l q) (ha : a ∉ l) (r : Option Nat) :
    Seg (update next a r) p l q :=
  h.congr fun _ hb => update_of_ne (ne_of_mem_of_not_mem hb ha) _ _

theorem Seg.head_eq (h : Seg next p l none) : p = l.head? := by
  cases l with
  | nil => exact h
  | cons a l => exact h.1

/-- The pointers lead through the chains. -/
def Holds (t : Table κ) (lists : κ → List Nat) : Prop :=
  ∀ k, Seg t.next (t.head k) (lists k) none

def Table.OnChain (t : Table κ) (a : Nat) : Prop :=
  ∃ k l, Seg t.next (t.head k) l none ∧ a ∈ l

theorem Holds.onChain_iff {t : Table κ} {lists : κ → List Nat} (h : Holds t lists) :
    t.OnChain a ↔ ∃ k, a ∈ lists k := by
  constructor
  · rintro ⟨k, l, hseg, ha⟩
    exact ⟨k, seg_unique hseg (h k) ▸ ha⟩
  · rintro ⟨k, ha⟩
    exact ⟨k, lists k, h k, ha⟩

theorem Seg.walkFrom (h : Seg next p l none) {fuel : Nat} (hfuel : l.length ≤ fuel) :
    walkFrom next fuel p = some l := by
  induction l generalizing p fuel with
  | nil =>
    have hp : p = none := h
    rw [hp]
    cases fuel <;> rfl
  | cons a l ih =>
    cases fuel with
    | zero => cases hfuel
    | succ fuel =>
      rw [h.1, Chains.walkFrom, ih h.2 (Nat.le_of_succ_le_succ hfuel), Option.map_some]

theorem Holds.walk {t : Table κ} {lists : κ → List Nat} (h : Holds t lists) {k : κ} {fuel : Nat}
    (hfuel : (lists k).length ≤ fuel) : t.walk k fuel = some (lists k) :=
  (h k).walkFrom hfuel

theorem Holds.next_eq {t : Table κ} {lists : κ → List Nat} (h : Holds t lists) {k : κ}
    {pre suf : List Nat} (hlist : lists k = pre ++ a :: suf) : t.next a = suf.head? := by
  have hold := h k
  rw [hlist, seg_append] at hold
  obtain ⟨r, -, -, hrest⟩ := hold
  exact hrest.head_eq

theorem Holds.outside {t : Table κ} {lists : κ → List Nat} (h : Holds t lists)
    (hout : ∀ k, a ∉ lists k) (r : Option Nat) :
    Holds { t with next := update t.next a r } lists :=
  fun k => (h k).update (hout k) r

theorem holds_empty : Holds (⟨fun _ => none, fun _ => none⟩ : Table κ) fun _ => [] :=
  fun _ => rfl

theorem notMem_of_ne {lists : κ → List Nat} {loc : Nat → Option κ}
    (hf : Buckets.Files lists loc) {k k' : κ} (hk : k' ≠ k) (ha : a ∈ lists k) :
    a ∉ lists k' := by
  intro ha'
  exact hk (Option.some.inj ((hf.mem.mp ha').symm.trans (hf.mem.mp ha)))

theorem find_passed {hit : Nat → Bool} {pre suf : List Nat}
    (hpre : ∀ b ∈ pre, hit b = false) : (pre ++ suf).find? hit = suf.find? hit := by
  rw [find?_append, List.find?_eq_none.mpr (by simpa using hpre), Option.none_or]

theorem erase_behind {pre suf : List Nat} {prev : Nat} (hnd : (pre ++ prev :: a :: suf).Nodup) :
    (pre ++ prev :: a :: suf).erase a = pre ++ prev :: suf := by
  obtain ⟨-, hsuf, hdis⟩ := List.nodup_append.mp hnd
  have hpre : a ∉ pre := fun ha => hdis a ha a (by simp) rfl
  have hne : prev ≠ a := by
    rintro rfl
    simp at hsuf
  rw [erase_append_right _ hpre, erase_cons_tail (by simpa using hne),
    erase_cons_head]

/-! ### The operations on the lists -/

variable [DecidableEq κ] {t : Table κ} {lists : κ → List Nat} {loc : Nat → Option κ}
  {k : κ}

theorem Holds.add (h : Holds t lists) (hout : ∀ k, a ∉ lists k) :
    Holds (t.add k a) (Buckets.add lists k a) := by
  intro k'
  by_cases hk : k' = k
  · subst hk
    rw [Buckets.add, update_self]
    refine ⟨by simp [Table.add], ?_⟩
    have hhead : (t.add k' a).next a = t.head k' := by simp [Table.add]
    rw [hhead]
    exact (h k').update (hout k') _
  · rw [Buckets.add, update_of_ne hk]
    have hhead : (t.add k a).head k' = t.head k' := by simp [Table.add, hk]
    rw [hhead]
    exact (h k').update (hout k') _

theorem Holds.moveUp (h : Holds t lists) (hf : Buckets.Files lists loc) {pre suf : List Nat}
    {prev : Nat} (hlist : lists k = pre ++ prev :: a :: suf) :
    Holds (t.moveUp k prev a) (update lists k (a :: (lists k).erase a)) := by
  have hnd := hf.nodup k
  rw [hlist] at hnd
  obtain ⟨-, hsuf, hdis⟩ := List.nodup_append.mp hnd
  rw [nodup_cons, nodup_cons] at hsuf
  intro k'
  by_cases hk : k' = k
  · subst hk
    have hhead : (t.moveUp k' prev a).next a = t.head k' := by simp [Table.moveUp]
    have hprev : (t.moveUp k' prev a).next prev = t.next a := by
      have hne : prev ≠ a := fun h => hsuf.1 (h ▸ mem_cons_self)
      simp [Table.moveUp, hne]
    have hsame : ∀ b, b ≠ a → b ≠ prev → (t.moveUp k' prev a).next b = t.next b := by
      intro b hba hbp
      simp [Table.moveUp, hba, hbp]
    have hold := h k'
    rw [hlist, seg_append] at hold
    obtain ⟨r, hpre, rfl, hbehind, hrest⟩ := hold
    rw [update_self, hlist, erase_behind hnd]
    refine ⟨by simp [Table.moveUp], ?_⟩
    rw [hhead, seg_append]
    refine ⟨some prev, ?_, rfl, ?_⟩
    · apply hpre.congr
      intro b hb
      exact hsame b (hdis b hb a (by simp)) (hdis b hb prev (by simp))
    · rw [hprev]
      apply hrest.congr
      intro b hb
      exact hsame b (ne_of_mem_of_not_mem hb hsuf.2.1)
        (ne_of_mem_of_not_mem hb fun h => hsuf.1 (mem_cons_of_mem _ h))
  · have ha : a ∉ lists k' := notMem_of_ne hf hk (by simp [hlist])
    have hp : prev ∉ lists k' := notMem_of_ne hf hk (by simp [hlist])
    have hhead : (t.moveUp k prev a).head k' = t.head k' := by simp [Table.moveUp, hk]
    rw [update_of_ne hk, hhead]
    exact ((h k').update hp _).update ha _

theorem Holds.findLoop (h : Holds t lists) (hf : Buckets.Files lists loc) {hit : Nat → Bool}
    {pre suf : List Nat} {prev fuel : Nat} (hlist : lists k = pre ++ prev :: suf)
    (hpre : ∀ b ∈ pre ++ [prev], hit b = false) (hfuel : suf.length < fuel) :
    ∃ t', t.findLoop hit k fuel prev = some ((lists k).find? hit, t') ∧
      Holds t' (update lists k (moveToFront hit (lists k))) := by
  induction suf generalizing pre prev fuel with
  | nil =>
    obtain ⟨fuel, rfl⟩ := Nat.exists_eq_add_one_of_ne_zero (Nat.ne_of_gt hfuel)
    have hnone : (lists k).find? hit = none := by
      rw [hlist]
      exact List.find?_eq_none.mpr (by simpa using hpre)
    have hend : t.next prev = none := by
      have hold := h k
      rw [hlist, seg_append] at hold
      obtain ⟨r, -, rfl, hend⟩ := hold
      exact hend
    refine ⟨t, by rw [Table.findLoop, hend, hnone], ?_⟩
    rw [moveToFront, hnone, update_eq_self]
    exact h
  | cons a suf ih =>
    obtain ⟨fuel, rfl⟩ := Nat.exists_eq_add_one_of_ne_zero
        (Nat.ne_of_gt (Nat.zero_lt_of_lt hfuel))
    have hsplit : lists k = (pre ++ [prev]) ++ a :: suf := by simp [hlist]
    have hbehind : t.next prev = some a := by
      have hold := h k
      rw [hlist, seg_append] at hold
      obtain ⟨r, -, rfl, hbehind, -⟩ := hold
      exact hbehind
    rw [Table.findLoop, hbehind]
    by_cases hhit : hit a = true
    · have hfind : (lists k).find? hit = some a := by
        rw [hsplit, find_passed hpre, find?_cons_of_pos hhit]
      refine ⟨t.moveUp k prev a, ?_, ?_⟩
      · simp only [hhit, if_true, hfind]
      · rw [moveToFront, hfind]
        exact h.moveUp hf hlist
    · have hpre' : ∀ b ∈ (pre ++ [prev]) ++ [a], hit b = false := by
        intro b hb
        rcases List.mem_append.mp hb with hb | hb
        · exact hpre b hb
        · rw [List.mem_singleton.mp hb]
          simpa using hhit
      obtain ⟨t', hloop, hholds⟩ := ih hsplit hpre' (Nat.lt_of_succ_lt_succ hfuel)
      exact ⟨t', by simp only [hhit, if_false, Bool.false_eq_true, hloop], hholds⟩

theorem Holds.find (h : Holds t lists) (hf : Buckets.Files lists loc) (hit : Nat → Bool)
    {fuel : Nat} (hfuel : (lists k).length ≤ fuel) :
    ∃ t', t.find hit k fuel = some ((lists k).find? hit, t') ∧
      Holds t' (update lists k (moveToFront hit (lists k))) := by
  have hold := h k
  cases hlist : lists k with
  | nil =>
    rw [hlist] at hold
    have hhead : t.head k = none := hold
    refine ⟨t, by rw [Table.find, hhead, find?_nil], ?_⟩
    rw [moveToFront, find?_nil, ← hlist, update_eq_self]
    exact h
  | cons a suf =>
    rw [hlist] at hold hfuel
    rw [Table.find, hold.1]
    by_cases hhit : hit a = true
    · have hfind : (a :: suf).find? hit = some a := find?_cons_of_pos hhit
      have hfront : moveToFront hit (a :: suf) = lists k := by
        rw [moveToFront, hfind, hlist]
        simp
      refine ⟨t, by simp only [hhit, if_true, hfind], ?_⟩
      rw [hfront, update_eq_self]
      exact h
    · have hpre : ∀ b ∈ [] ++ [a], hit b = false := by simpa using hhit
      have hlt : suf.length < fuel := hfuel
      have hsplit : lists k = [] ++ a :: suf := hlist
      obtain ⟨t', hloop, hholds⟩ := h.findLoop hf hsplit hpre hlt
      rw [hlist] at hloop hholds
      exact ⟨t', by simp only [hhit, if_false, Bool.false_eq_true, hloop], hholds⟩

theorem Holds.relink (h : Holds t lists) (hf : Buckets.Files lists loc) {pre suf : List Nat}
    (hlist : lists k = pre ++ a :: suf) :
    Holds (t.relink k pre.getLast? (t.next a)) (Buckets.del lists k a) := by
  have hnd := hf.nodup k
  rw [hlist] at hnd
  obtain ⟨hpre, -, hdis⟩ := List.nodup_append.mp hnd
  have herase : (pre ++ a :: suf).erase a = pre ++ suf := by
    rw [erase_append_right _ fun ha => hdis a ha a (by simp) rfl, erase_cons_head]
  have hold := h k
  rw [hlist, seg_append] at hold
  obtain ⟨r, hfront, rfl, hrest⟩ := hold
  intro k'
  rcases eq_nil_or_concat' pre with rfl | ⟨pre, p, rfl⟩
  · by_cases hk : k' = k
    · subst hk
      rw [Buckets.del, update_self, hlist, herase]
      change Seg t.next (update t.head k' (t.next a) k') suf none
      rw [update_self]
      exact hrest
    · rw [Buckets.del, update_of_ne hk]
      change Seg t.next (update t.head k (t.next a) k') (lists k') none
      rw [update_of_ne hk]
      exact h k'
  · rw [getLast?_concat]
    by_cases hk : k' = k
    · subst hk
      have hp : p ∉ suf := fun hp => hdis p (by simp) p (mem_cons_of_mem _ hp) rfl
      obtain ⟨hpre, -, hlast⟩ := List.nodup_append.mp hpre
      rw [seg_append] at hfront
      obtain ⟨r, hfront, rfl, -⟩ := hfront
      rw [Buckets.del, update_self, hlist, herase, append_assoc, seg_append]
      refine ⟨some p, hfront.update (fun hp => hlast p hp p (by simp) rfl) _, rfl, ?_⟩
      change Seg (update t.next p _) (update t.next p (t.next a) p) suf none
      rw [update_self]
      exact hrest.update hp _
    · have hp : p ∉ lists k' := notMem_of_ne hf hk (by simp [hlist])
      rw [Buckets.del, update_of_ne hk]
      exact (h k').update hp _

theorem notMem_del (hf : Buckets.Files lists loc) (ha : a ∈ lists k) (k' : κ) :
    a ∉ Buckets.del lists k a k' := by
  by_cases hk : k' = k
  · subst hk
    rw [Buckets.del, update_self]
    exact (hf.nodup k').not_mem_erase
  · rw [Buckets.del, update_of_ne hk]
    exact notMem_of_ne hf hk ha

theorem Holds.cut (h : Holds t lists) (hf : Buckets.Files lists loc) {pre suf : List Nat}
    {tmp : Nat} (hlist : lists k = pre ++ tmp :: a :: suf) :
    Holds { t with next := update (update t.next tmp (t.next a)) a (some a) }
      (Buckets.del lists k a) := by
  have hsplit : lists k = (pre ++ [tmp]) ++ a :: suf := by simp [hlist]
  have hcut := h.relink hf hsplit
  rw [getLast?_concat] at hcut
  exact hcut.outside (notMem_del hf (by simp [hlist])) _

theorem Holds.delLoop (h : Holds t lists) (hf : Buckets.Files lists loc) {pre suf : List Nat}
    {tmp fuel : Nat} (hlist : lists k = pre ++ tmp :: suf) (hpre : a ∉ pre ++ [tmp])
    (hfuel : suf.length < fuel) :
    ∃ t', t.delLoop a fuel tmp = some t' ∧ Holds t' (Buckets.del lists k a) := by
  induction suf generalizing pre tmp fuel with
  | nil =>
    obtain ⟨fuel, rfl⟩ := Nat.exists_eq_add_one_of_ne_zero (Nat.ne_of_gt hfuel)
    have hend : t.next tmp = none := by
      have hold := h k
      rw [hlist, seg_append] at hold
      obtain ⟨r, -, rfl, hend⟩ := hold
      exact hend
    refine ⟨t, by rw [Table.delLoop, hend], ?_⟩
    rw [Buckets.del, hlist, erase_of_not_mem hpre, ← hlist, update_eq_self]
    exact h
  | cons b suf ih =>
    obtain ⟨fuel, rfl⟩ := Nat.exists_eq_add_one_of_ne_zero
        (Nat.ne_of_gt (Nat.zero_lt_of_lt hfuel))
    have hbehind : t.next tmp = some b := by
      have hold := h k
      rw [hlist, seg_append] at hold
      obtain ⟨r, -, rfl, hbehind, -⟩ := hold
      exact hbehind
    rw [Table.delLoop, hbehind]
    by_cases hba : b = a
    · subst hba
      exact ⟨_, if_pos rfl, h.cut hf hlist⟩
    · have hsplit : lists k = (pre ++ [tmp]) ++ b :: suf := by simp [hlist]
      have hpre' : a ∉ (pre ++ [tmp]) ++ [b] := by
        rw [mem_append, mem_singleton]
        exact fun hm => hm.elim hpre fun heq => hba heq.symm
      obtain ⟨t', hloop, hholds⟩ := ih hsplit hpre' (Nat.lt_of_succ_lt_succ hfuel)
      exact ⟨t', by simp only [hba, if_false, hloop], hholds⟩

theorem Holds.del (h : Holds t lists) (hf : Buckets.Files lists loc) {fuel : Nat}
    (hfuel : (lists k).length ≤ fuel) :
    ∃ t', t.del k a fuel = some t' ∧ Holds t' (Buckets.del lists k a) := by
  have hold := h k
  cases hlist : lists k with
  | nil =>
    rw [hlist] at hold
    have hhead : t.head k = none := hold
    refine ⟨t, by rw [Table.del, hhead], ?_⟩
    rw [Buckets.del, hlist, erase_nil, ← hlist, update_eq_self]
    exact h
  | cons tmp suf =>
    rw [hlist] at hold hfuel
    rw [Table.del, hold.1]
    by_cases heq : tmp = a
    · subst heq
      refine ⟨_, if_pos rfl, ?_⟩
      have hcut := @Holds.relink _ _ _ _ _ _ _ h hf [] _ hlist
      exact hcut.outside (notMem_del hf (by simp [hlist])) _
    · have hpre : a ∉ [] ++ [tmp] := by simpa using Ne.symm heq
      have hlt : suf.length < fuel := hfuel
      have hsplit : lists k = [] ++ tmp :: suf := hlist
      obtain ⟨t', hloop, hholds⟩ := h.delLoop hf hsplit hpre hlt
      exact ⟨t', by simp only [heq, if_false, hloop], hholds⟩

end Chains
