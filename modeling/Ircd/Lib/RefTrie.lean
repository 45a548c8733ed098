import Mathlib.Data.Fintype.Card
import Mathlib.Logic.Function.Basic

/-!
A trie on a heap. Each node counts the references that keep it: its value and its
children. `insert` makes the nodes that a path lacks, `remove` frees the nodes that
a path no longer needs, on the way back; `none` is an access to a freed node.

`Shape h vals place` says that the heap is the trie with the values `vals`, where
`place` gives the address of the node for each path. What `insert` and `remove` do to
the values and to the places is `Shape.insert` and `Shape.remove`. In `Kept`, every
node is also needed by a value.
-/

namespace RefTrie

open Function

/-- A node: the count of references, the value and the children. -/
structure Node (σ α : Type*) where
  links : Int
  val : Option α
  kids : σ → Option Nat

/-- The live nodes by address, and the next address that is given out. -/
structure Heap (σ α : Type*) where
  node : Nat → Option (Node σ α)
  next : Nat

variable {σ α : Type*}

def Heap.put (h : Heap σ α) (a : Nat) (t : Node σ α) : Heap σ α :=
  { h with node := update h.node a (some t) }

/-- A new node, empty, at the next address. -/
def Heap.alloc (h : Heap σ α) : Heap σ α where
  node := update h.node h.next (some ⟨0, none, fun _ => none⟩)
  next := h.next + 1

def Heap.free (h : Heap σ α) (a : Nat) : Heap σ α :=
  { h with node := update h.node a none }

/-- The value of a path, from the node `a` on. -/
def find (h : Heap σ α) : List σ → Nat → Option (Option α)
  | [], a => (h.node a).map Node.val
  | i :: p, a =>
    match h.node a with
    | none => none
    | some t =>
      match t.kids i with
      | none => some none
      | some b => find h p b

/-! ### Paths -/

theorem concat_ne_self (p : List σ) (i : σ) : p ++ [i] ≠ p := by
  intro h
  simpa using congrArg List.length h

theorem concat_ne_of_ne {p q : List σ} (hqp : q ≠ p) (i j : σ) : q ++ [j] ≠ p ++ [i] :=
  fun h => hqp (List.append_inj_left' h rfl)

theorem concat_ne_of_kid_ne {i j : σ} (hj : j ≠ i) (p : List σ) : p ++ [j] ≠ p ++ [i] := by
  simpa using hj

variable [Fintype σ]

/-- What keeps a node: its value and its children. -/
def Node.refs (t : Node σ α) : Nat :=
  (if t.val.isSome then 1 else 0) + (Finset.univ.filter fun i => (t.kids i).isSome).card

/-- The heap is the trie of these values, with the nodes at these places. -/
structure Shape (h : Heap σ α) (vals : List σ → Option α) (place : List σ → Option Nat) :
    Prop where
  root : place [] = some 0
  node : ∀ {p a}, place p = some a → ∃ t, h.node a = some t ∧ t.val = vals p ∧
    (∀ i, t.kids i = place (p ++ [i])) ∧ t.links = t.refs
  out : ∀ {p} i, place p = none → place (p ++ [i]) = none
  absent : ∀ {p}, place p = none → vals p = none
  inj : ∀ {p q a}, place p = some a → place q = some a → p = q
  live : ∀ {a}, h.node a ≠ none → ∃ p, place p = some a
  fresh : ∀ {a}, h.next ≤ a → h.node a = none

/-- A path that goes on to a value. -/
def Used (vals : List σ → Option α) (p : List σ) : Prop := ∃ q, p <+: q ∧ vals q ≠ none

/-- The trie of these values, with the nodes that they need and no other. -/
def Kept (h : Heap σ α) (vals : List σ → Option α) : Prop :=
  ∃ place, Shape h vals place ∧ ∀ p, place p ≠ none → p ≠ [] → Used vals p

/-! ### Places -/

variable {h : Heap σ α} {vals : List σ → Option α} {place : List σ → Option Nat}
  {p q : List σ} {a b : Nat} {i : σ} {t : Node σ α} {v : α}

theorem refs_eq_zero (h0 : t.refs = 0) : t.val = none ∧ ∀ i, t.kids i = none := by
  have hval : ¬ t.val.isSome := fun hv => by simp [Node.refs, hv] at h0
  have hkids : (Finset.univ.filter fun i => (t.kids i).isSome) = ∅ :=
    Finset.card_eq_zero.mp (Nat.eq_zero_of_add_eq_zero_left h0)
  refine ⟨by simpa using hval, fun i => ?_⟩
  have hi := Finset.filter_eq_empty_iff.mp hkids (Finset.mem_univ i)
  simpa using hi

theorem refs_ne_zero (h0 : t.refs ≠ 0) : t.val ≠ none ∨ ∃ i, t.kids i ≠ none := by
  by_contra hno
  simp only [not_or, not_not, not_exists] at hno
  simp [Node.refs, hno.1, hno.2] at h0

theorem Shape.out_append (s : Shape h vals place) (hp : place p = none) (q : List σ) :
    place (p ++ q) = none := by
  induction q generalizing p with
  | nil => simpa using hp
  | cons i q ih =>
    have hq := ih (s.out i hp)
    rwa [List.append_assoc] at hq

theorem Shape.lt_next (s : Shape h vals place) (hp : place p = some a) : a < h.next := by
  obtain ⟨t, ht, -⟩ := s.node hp
  by_contra hlt
  rw [s.fresh (Nat.le_of_not_lt hlt)] at ht
  cases ht

theorem Shape.find_eq (s : Shape h vals place) (hp : place p = some a) :
    find h q a = some (vals (p ++ q)) := by
  induction q generalizing p a with
  | nil =>
    obtain ⟨t, ht, hval, -⟩ := s.node hp
    simp [find, ht, hval]
  | cons i q ih =>
    obtain ⟨t, ht, -, hkids, -⟩ := s.node hp
    simp only [find, ht, hkids i]
    cases hi : place (p ++ [i]) with
    | none =>
      have hout := s.absent (s.out_append hi q)
      rw [List.append_assoc] at hout
      simpa using hout.symm
    | some b => simpa using ih hi

/-! ### The trie as a map -/

/-- The node at the end of a path, from the node `a` on. -/
def reach (h : Heap σ α) : List σ → Nat → Option Nat
  | [], a => some a
  | i :: p, a => ((h.node a).bind fun t => t.kids i).bind (reach h p)

theorem Shape.reach_eq (s : Shape h vals place) (hp : place p = some a) :
    reach h q a = place (p ++ q) := by
  induction q generalizing p a with
  | nil => rw [List.append_nil, hp, reach]
  | cons i q ih =>
    obtain ⟨t, ht, -, hkids, -⟩ := s.node hp
    have hcons : p ++ i :: q = p ++ [i] ++ q := by simp
    rw [hcons, reach, ht, Option.bind_some, hkids i]
    cases hi : place (p ++ [i]) with
    | none => rw [Option.bind_none, s.out_append hi]
    | some b => rw [Option.bind_some, ih hi]

/-- Every count is that of the references, every child is live, and every node but the
root lies on the path to a value. -/
structure Sound (h : Heap σ α) : Prop where
  counted : ∀ {a t}, h.node a = some t → t.links = t.refs
  alive : ∀ {a t} i {b}, h.node a = some t → t.kids i = some b → h.node b ≠ none
  needed : ∀ {a}, h.node a ≠ none → a ≠ 0 →
    ∃ p q v, reach h p 0 = some a ∧ find h (p ++ q) 0 = some (some v)

theorem Kept.find (k : Kept h vals) (p : List σ) : RefTrie.find h p 0 = some (vals p) := by
  obtain ⟨place, s, -⟩ := k
  exact s.find_eq s.root

theorem Kept.sound (k : Kept h vals) : Sound h := by
  obtain ⟨place, s, hused⟩ := id k
  have hnode : ∀ {a t}, h.node a = some t → ∃ p, place p = some a ∧
      (∀ i, t.kids i = place (p ++ [i])) ∧ t.links = t.refs := by
    intro a t ht
    obtain ⟨p, hp⟩ := s.live (a := a) (by rw [ht]; exact Option.some_ne_none _)
    obtain ⟨u, hu, -, hkids, hlinks⟩ := s.node hp
    obtain rfl : u = t := Option.some.inj (hu.symm.trans ht)
    exact ⟨p, hp, hkids, hlinks⟩
  refine ⟨?_, ?_, ?_⟩
  · intro a t ht
    obtain ⟨-, -, -, hlinks⟩ := hnode ht
    exact hlinks
  · intro a t i b ht hi
    obtain ⟨p, -, hkids, -⟩ := hnode ht
    obtain ⟨u, hu, -⟩ := s.node ((hkids i).symm.trans hi)
    rw [hu]
    exact Option.some_ne_none _
  · intro a ha h0
    obtain ⟨p, hp⟩ := s.live ha
    have hne : p ≠ [] := by
      rintro rfl
      exact h0 (Option.some.inj (hp.symm.trans s.root))
    obtain ⟨x, ⟨q, rfl⟩, hsome⟩ := hused p (by rw [hp]; exact Option.some_ne_none _) hne
    obtain ⟨v, hv⟩ := Option.ne_none_iff_exists'.mp hsome
    refine ⟨p, q, v, ?_, by rw [k.find, hv]⟩
    rw [s.reach_eq s.root, List.nil_append, hp]

theorem Kept.kid (k : Kept h vals) (ht : h.node a = some t) (hi : t.kids i ≠ none) :
    ∃ p q, vals (p ++ i :: q) ≠ none := by
  obtain ⟨place, s, hused⟩ := k
  obtain ⟨p, hp⟩ := s.live (a := a) (by rw [ht]; exact Option.some_ne_none _)
  obtain ⟨u, hu, -, hkids, -⟩ := s.node hp
  obtain rfl : u = t := Option.some.inj (hu.symm.trans ht)
  rw [hkids i] at hi
  obtain ⟨x, ⟨q, rfl⟩, hsome⟩ := hused (p ++ [i]) hi (by simp)
  exact ⟨p, q, by simpa using hsome⟩

def Heap.empty : Heap σ α where
  node := fun a => if a = 0 then some ⟨0, none, fun _ => none⟩ else none
  next := 1

theorem kept_empty : Kept (Heap.empty : Heap σ α) fun _ => none := by
  refine ⟨fun p => if p = [] then some 0 else none,
    ⟨rfl, ?_, ?_, fun _ => rfl, ?_, ?_, ?_⟩, ?_⟩
  · intro p a hp
    by_cases hnil : p = []
    · obtain rfl : a = 0 := by simpa [hnil, eq_comm] using hp
      exact ⟨⟨0, none, fun _ => none⟩, rfl, rfl, fun i => by simp, by simp [Node.refs]⟩
    · simp [hnil] at hp
  · intro p i _
    simp
  · intro p q a hp hq
    have hnil : ∀ {x : List σ}, (if x = [] then some 0 else none) = some a → x = [] := by
      intro x hx
      by_contra hne
      simp [hne] at hx
    rw [hnil hp, hnil hq]
  · intro a ha
    by_cases h0 : a = 0
    · exact ⟨[], by simp [h0]⟩
    · simp [Heap.empty, h0] at ha
  · intro a ha
    have h0 : a ≠ 0 := Nat.ne_of_gt (show 0 < a from ha)
    simp [Heap.empty, h0]
  · intro p hp hne
    simp [hne] at hp

/-! ### The moves -/

section Moves

variable [DecidableEq σ]

/-- A child is entered, or taken out, with the count. -/
def Node.setKid (t : Node σ α) (i : σ) : Option Nat → Node σ α
  | some b => { t with kids := update t.kids i (some b), links := t.links + 1 }
  | none => { t with kids := update t.kids i none, links := t.links - 1 }

/-- Give a path a value, from the node `a` on. -/
def insert (v : α) : List σ → Nat → Heap σ α → Option (Heap σ α)
  | [], a, h => (h.node a).map fun t => h.put a { t with val := some v, links := t.links + 1 }
  | i :: p, a, h =>
    match h.node a with
    | none => none
    | some t =>
      match t.kids i with
      | some b => insert v p b h
      | none => insert v p h.next (h.alloc.put a (t.setKid i (some h.next)))

/-- On the way back: free the child `b` if nothing keeps it. -/
def prune (i : σ) (a b : Nat) (h : Heap σ α) : Option (Heap σ α) :=
  match h.node b, h.node a with
  | some c, some t => some (if c.links = 0 then (h.put a (t.setKid i none)).free b else h)
  | _, _ => none

/-- Take the value of a path away, from the node `a` on. -/
def remove : List σ → Nat → Heap σ α → Option (Heap σ α)
  | [], a, h =>
    (h.node a).map fun t =>
      if t.val.isSome then h.put a { t with val := none, links := t.links - 1 } else h
  | i :: p, a, h =>
    match h.node a with
    | none => none
    | some t =>
      match t.kids i with
      | none => some h
      | some b => (remove p b h).bind (prune i a b)

theorem refs_setKid_some (hi : t.kids i = none) : (t.setKid i (some b)).refs = t.refs + 1 := by
  have hset : (Finset.univ.filter fun j => ((update t.kids i (some b)) j).isSome) =
      Insert.insert i (Finset.univ.filter fun j => (t.kids j).isSome) := by
    ext j
    by_cases hj : j = i
    · simp [hj]
    · simp [hj]
  have hnot : i ∉ Finset.univ.filter fun j => (t.kids j).isSome := by simp [hi]
  change (if t.val.isSome then 1 else 0) +
    (Finset.univ.filter fun j => (update t.kids i (some b) j).isSome).card = _
  rw [hset, Finset.card_insert_of_notMem hnot, Node.refs, Nat.add_assoc]

theorem refs_setKid_none (hi : t.kids i = some b) : (t.setKid i none).refs + 1 = t.refs := by
  have hback : ((t.setKid i none).setKid i (some b)).refs = t.refs := by
    have hkids : update (update t.kids i none) i (some b) = t.kids := by
      rw [update_idem, ← hi, update_eq_self]
    simp only [Node.refs, Node.setKid, hkids]
  rw [← hback, refs_setKid_some (by simp [Node.setKid])]

theorem Shape.setVal (s : Shape h vals place) (hp : place p = some a) (ht : h.node a = some t)
    {w : Option α} {l : Int} (hl : l = ({ t with val := w, links := l } : Node σ α).refs) :
    Shape (h.put a { t with val := w, links := l }) (update vals p w) place where
  root := s.root
  node {q b} hq := by
    by_cases hqp : q = p
    · subst hqp
      obtain rfl : b = a := Option.some.inj (hq.symm.trans hp)
      obtain ⟨u, hu, -, hkids, -⟩ := s.node hq
      obtain rfl : u = t := Option.some.inj (hu.symm.trans ht)
      exact ⟨{ u with val := w, links := l }, by simp [Heap.put], by simp, hkids, hl⟩
    · have hne : b ≠ a := fun h => hqp (s.inj hq (h ▸ hp))
      obtain ⟨u, hu, hval, hkids, hlinks⟩ := s.node hq
      exact ⟨u, by simp [Heap.put, hne, hu], by rw [update_of_ne hqp, hval], hkids,
        hlinks⟩
  out := s.out
  absent {q} hq := by
    have hne : q ≠ p := by
      rintro rfl
      rw [hp] at hq
      cases hq
    rw [update_of_ne hne, s.absent hq]
  inj := s.inj
  live {b} hb := by
    by_cases hne : b = a
    · exact ⟨p, hne ▸ hp⟩
    · exact s.live (by simpa [Heap.put, hne] using hb)
  fresh {b} hb := by
    have hlt := s.lt_next hp
    have hne : b ≠ a := by
      rintro rfl
      exact Nat.not_lt.mpr hb hlt
    simpa [Heap.put, hne] using s.fresh hb

theorem Shape.grow (s : Shape h vals place) (hp : place p = some a) (ht : h.node a = some t)
    (hi : place (p ++ [i]) = none) :
    Shape (h.alloc.put a (t.setKid i (some h.next))) vals
      (update place (p ++ [i]) (some h.next)) where
  root := by
    rw [update_of_ne (by simp), s.root]
  node {q b} hq := by
    have ha := s.lt_next hp
    obtain ⟨u, hu, hval, hkids, hlinks⟩ := s.node hp
    obtain rfl : u = t := Option.some.inj (hu.symm.trans ht)
    by_cases hqi : q = p ++ [i]
    · subst hqi
      rw [update_self, Option.some.injEq] at hq
      subst hq
      refine ⟨⟨0, none, fun _ => none⟩, ?_, (s.absent hi).symm, ?_, ?_⟩
      · simp [Heap.put, Heap.alloc, Nat.ne_of_gt ha]
      · intro j
        rw [update_of_ne (concat_ne_self _ _), s.out j hi]
      · simp [Node.refs]
    · rw [update_of_ne hqi] at hq
      by_cases hqp : q = p
      · subst hqp
        obtain rfl : b = a := Option.some.inj (hq.symm.trans hp)
        have hnone : u.kids i = none := (hkids i).trans hi
        refine ⟨u.setKid i (some h.next), by simp [Heap.put], hval, ?_, ?_⟩
        · intro j
          by_cases hj : j = i
          · subst hj
            simp [Node.setKid]
          · rw [update_of_ne (concat_ne_of_kid_ne hj _), ← hkids j]
            exact update_of_ne hj _ _
        · have hrefs := refs_setKid_some (b := h.next) hnone
          have hnew : (u.setKid i (some h.next)).links = u.links + 1 := rfl
          rw [hnew, hlinks]
          omega
      · have hne : b ≠ a := fun h => hqp (s.inj hq (h ▸ hp))
        have hlt := s.lt_next hq
        obtain ⟨w, hw, hval, hkids, hlinks⟩ := s.node hq
        refine ⟨w, ?_, hval, ?_, hlinks⟩
        · simp [Heap.put, Heap.alloc, hne, Nat.ne_of_lt hlt, hw]
        · intro j
          rw [update_of_ne (concat_ne_of_ne hqp i j), hkids j]
  out {q} j hq := by
    have hne : q ≠ p ++ [i] := by
      rintro rfl
      rw [update_self] at hq
      cases hq
    rw [update_of_ne hne] at hq
    have hqp : q ≠ p := by
      rintro rfl
      rw [hp] at hq
      cases hq
    rw [update_of_ne (concat_ne_of_ne hqp i j), s.out j hq]
  absent {q} hq := by
    have hne : q ≠ p ++ [i] := by
      rintro rfl
      rw [update_self] at hq
      cases hq
    rw [update_of_ne hne] at hq
    exact s.absent hq
  inj {q r b} hq hr := by
    have hold : ∀ {x}, place x = some b → b ≠ h.next := fun hx => Nat.ne_of_lt (s.lt_next hx)
    by_cases hqi : q = p ++ [i] <;> by_cases hri : r = p ++ [i]
    · rw [hqi, hri]
    · rw [hqi, update_self, Option.some.injEq] at hq
      rw [update_of_ne hri] at hr
      exact absurd hq.symm (hold hr)
    · rw [hri, update_self, Option.some.injEq] at hr
      rw [update_of_ne hqi] at hq
      exact absurd hr.symm (hold hq)
    · rw [update_of_ne hqi] at hq
      rw [update_of_ne hri] at hr
      exact s.inj hq hr
  live {b} hb := by
    have hnew : ∀ x, place x = some b →
        ∃ x, update place (p ++ [i]) (some h.next) x = some b := by
      intro x hx
      refine ⟨x, ?_⟩
      rw [update_of_ne, hx]
      rintro rfl
      rw [hi] at hx
      cases hx
    by_cases hnext : b = h.next
    · exact ⟨p ++ [i], by rw [update_self, hnext]⟩
    · by_cases hba : b = a
      · exact hnew p (hba ▸ hp)
      · have hold : h.node b ≠ none := by simpa [Heap.put, Heap.alloc, hba, hnext] using hb
        obtain ⟨x, hx⟩ := s.live hold
        exact hnew x hx
  fresh {b} hb := by
    have hlt := s.lt_next hp
    have hb : h.next + 1 ≤ b := hb
    have hold := s.fresh (Nat.le_of_succ_le hb)
    simpa [Heap.put, Heap.alloc, Nat.ne_of_gt (Nat.lt_of_lt_of_le hlt (Nat.le_of_succ_le hb)),
      Nat.ne_of_gt hb] using hold

theorem Shape.shrink (s : Shape h vals place) (hp : place p = some a) (ht : h.node a = some t)
    (hi : place (p ++ [i]) = some b) {c : Node σ α} (hc : h.node b = some c) (h0 : c.links = 0) :
    Shape ((h.put a (t.setKid i none)).free b) vals (update place (p ++ [i]) none) := by
  obtain ⟨u, hu, hvalc, hkidsc, hlinksc⟩ := s.node hi
  obtain rfl : u = c := Option.some.inj (hu.symm.trans hc)
  have hrefs : u.refs = 0 := by
    rw [h0] at hlinksc
    exact_mod_cast hlinksc.symm
  obtain ⟨hnoval, hnokids⟩ := refs_eq_zero hrefs
  have hab : a ≠ b := fun h => concat_ne_self p i (s.inj hi (h ▸ hp))
  have hplace : ∀ {q d}, update place (p ++ [i]) none q = some d ↔
      q ≠ p ++ [i] ∧ place q = some d := by
    intro q d
    by_cases hq : q = p ++ [i]
    · simp [hq]
    · simp [hq]
  refine ⟨?_, ?_, ?_, ?_, ?_, ?_, ?_⟩
  · exact hplace.mpr ⟨by simp, s.root⟩
  · intro q d hnew
    obtain ⟨hqi, hq⟩ := hplace.mp hnew
    have hdb : d ≠ b := fun h => hqi (s.inj hq (h ▸ hi))
    obtain ⟨w, hw, hval, hkids, hlinks⟩ := s.node hq
    by_cases hqp : q = p
    · subst hqp
      obtain rfl : d = a := Option.some.inj (hq.symm.trans hp)
      obtain rfl : w = t := Option.some.inj (hw.symm.trans ht)
      have hsome : w.kids i = some b := (hkids i).trans hi
      refine ⟨w.setKid i none, by simp [Heap.put, Heap.free, hab], hval, ?_, ?_⟩
      · intro j
        by_cases hj : j = i
        · subst hj
          simp [Node.setKid]
        · rw [update_of_ne (concat_ne_of_kid_ne hj _), ← hkids j]
          exact update_of_ne hj _ _
      · have hrefs := refs_setKid_none hsome
        have hnew : (w.setKid i none).links = w.links - 1 := rfl
        rw [hnew, hlinks]
        omega
    · have hda : d ≠ a := fun h => hqp (s.inj hq (h ▸ hp))
      refine ⟨w, by simp [Heap.put, Heap.free, hdb, hda, hw], hval, ?_, hlinks⟩
      intro j
      rw [update_of_ne (concat_ne_of_ne hqp i j), hkids j]
  · intro q j hq
    by_cases hqi : q = p ++ [i]
    · subst hqi
      rw [update_of_ne (concat_ne_self _ _), ← hkidsc j, hnokids j]
    · rw [update_of_ne hqi] at hq
      by_cases hqj : q ++ [j] = p ++ [i]
      · rw [hqj, update_self]
      · rw [update_of_ne hqj, s.out j hq]
  · intro q hq
    by_cases hqi : q = p ++ [i]
    · rw [hqi, ← hvalc, hnoval]
    · rw [update_of_ne hqi] at hq
      exact s.absent hq
  · intro q r d hq hr
    exact s.inj (hplace.mp hq).2 (hplace.mp hr).2
  · intro d hd
    have hdb : d ≠ b := by
      rintro rfl
      simp [Heap.free] at hd
    have hlive : h.node d ≠ none := by
      by_cases hda : d = a
      · rw [hda, ht]
        exact Option.some_ne_none _
      · simpa [Heap.put, Heap.free, hdb, hda] using hd
    obtain ⟨q, hq⟩ := s.live hlive
    have hqi : q ≠ p ++ [i] := fun hqi => hdb (Option.some.inj ((hqi ▸ hq).symm.trans hi))
    exact ⟨q, hplace.mpr ⟨hqi, hq⟩⟩
  · intro d hd
    have hda : d ≠ a := Nat.ne_of_gt (Nat.lt_of_lt_of_le (s.lt_next hp) hd)
    have hdb : d ≠ b := Nat.ne_of_gt (Nat.lt_of_lt_of_le (s.lt_next hi) hd)
    simpa [Heap.put, Heap.free, hdb, hda] using s.fresh hd

theorem Shape.insert (s : Shape h vals place) (hp : place p = some a)
    (hno : vals (p ++ q) = none) :
    ∃ h' place', RefTrie.insert v q a h = some h' ∧
      Shape h' (update vals (p ++ q) (some v)) place' ∧
      ∀ r, place' r ≠ none → place r ≠ none ∨ r <+: p ++ q := by
  induction q generalizing p a h place with
  | nil =>
    obtain ⟨t, ht, hval, -, hlinks⟩ := s.node hp
    rw [List.append_nil] at hno ⊢
    have hrefs : t.links + 1 =
        ({ t with val := some v, links := t.links + 1 } : Node σ α).refs := by
      rw [hno] at hval
      simp [hlinks, Node.refs, hval, Int.add_comm]
    refine ⟨h.put a { t with val := some v, links := t.links + 1 }, place, ?_,
      s.setVal hp ht hrefs, fun r hr => .inl hr⟩
    rw [RefTrie.insert, ht, Option.map_some]
  | cons i q ih =>
    obtain ⟨t, ht, -, hkids, -⟩ := s.node hp
    have hcons : p ++ i :: q = p ++ [i] ++ q := by simp
    rw [hcons] at hno ⊢
    cases hi : place (p ++ [i]) with
    | some b =>
      obtain ⟨h', place', hins, hshape, hgrow⟩ := ih s hi hno
      refine ⟨h', place', ?_, hshape, hgrow⟩
      simp only [RefTrie.insert, ht, hkids i, hi, hins]
    | none =>
      have hgrown := s.grow hp ht hi
      obtain ⟨h', place', hins, hshape, hgrow⟩ := ih hgrown (update_self ..) hno
      refine ⟨h', place', ?_, hshape, ?_⟩
      · simp only [RefTrie.insert, ht, hkids i, hi, hins]
      · intro r hr
        rcases hgrow r hr with hr | hr
        · by_cases hri : r = p ++ [i]
          · exact .inr (hri ▸ List.prefix_append _ _)
          · rw [update_of_ne hri] at hr
            exact .inl hr
        · exact .inr hr

theorem Shape.remove (s : Shape h vals place) (hp : place p = some a)
    (hused : ∀ r, place r ≠ none → r ≠ [] → Used vals r) :
    ∃ h' place', RefTrie.remove q a h = some h' ∧
      Shape h' (update vals (p ++ q) none) place' ∧
      (∀ r, r <+: p → place' r = place r) ∧
      ∀ r, place' r ≠ none → ¬ r <+: p → Used (update vals (p ++ q) none) r := by
  induction q generalizing p a with
  | nil =>
    obtain ⟨t, ht, hval, -, hlinks⟩ := s.node hp
    rw [List.append_nil]
    have hstill : ∀ r, place r ≠ none → ¬ r <+: p →
        Used (update vals p none) r := by
      intro r hr hrp
      obtain ⟨x, hx, hsome⟩ := hused r hr fun h => hrp (h ▸ List.nil_prefix)
      have hxp : x ≠ p := fun h => hrp (h ▸ hx)
      exact ⟨x, hx, by rwa [update_of_ne hxp]⟩
    cases hv : t.val with
    | none =>
      have hsame : update vals p none = vals := by
        rw [← hv, hval, update_eq_self]
      refine ⟨h, place, ?_, by rw [hsame]; exact s, fun r _ => rfl, hstill⟩
      simp [RefTrie.remove, ht, hv]
    | some w =>
      have hrefs : t.links - 1 =
          ({ t with val := none, links := t.links - 1 } : Node σ α).refs := by
        have hwith : t.refs = 1 + (Finset.univ.filter fun i => (t.kids i).isSome).card := by
          simp [Node.refs, hv]
        have hwithout : ({ t with val := none, links := t.links - 1 } : Node σ α).refs =
            (Finset.univ.filter fun i => (t.kids i).isSome).card := by
          simp [Node.refs]
        omega
      refine ⟨h.put a { t with val := none, links := t.links - 1 }, place, ?_,
        s.setVal hp ht hrefs, fun r _ => rfl, hstill⟩
      simp [RefTrie.remove, ht, hv]
  | cons i q ih =>
    obtain ⟨t, ht, -, hkids, -⟩ := s.node hp
    have hcons : p ++ i :: q = p ++ [i] ++ q := by simp
    rw [hcons]
    cases hi : place (p ++ [i]) with
    | none =>
      have hsame : update vals (p ++ [i] ++ q) none = vals := by
        rw [← s.absent (s.out_append hi q), update_eq_self]
      rw [hsame]
      refine ⟨h, place, ?_, s, fun r _ => rfl, ?_⟩
      · simp only [RefTrie.remove, ht, hkids i, hi]
      · intro r hr hrp
        exact hused r hr fun h => hrp (h ▸ List.nil_prefix)
    | some b =>
      obtain ⟨h', place', hrem, hshape, habove, hneeded⟩ := ih hi
      have hp' : place' p = some a := (habove p (List.prefix_append _ _)).trans hp
      have hi' : place' (p ++ [i]) = some b := (habove _ (List.prefix_refl _)).trans hi
      obtain ⟨t', ht', -, -, -⟩ := hshape.node hp'
      obtain ⟨c, hc, hvalc, hkidsc, hlinksc⟩ := hshape.node hi'
      have hup : ∀ r, r <+: p ++ [i] → r ≠ p ++ [i] → r <+: p := by
        intro r hr hne
        exact (List.prefix_concat_iff.mp hr).resolve_left hne
      by_cases h0 : c.links = 0
      · refine ⟨(h'.put a (t'.setKid i none)).free b, _, ?_, hshape.shrink hp' ht' hi' hc h0,
          ?_, ?_⟩
        · simp only [RefTrie.remove, ht, hkids i, hi, hrem, Option.bind_some, prune, hc, ht',
            h0, if_true]
        · intro r hr
          have hne : r ≠ p ++ [i] := by
            rintro rfl
            exact absurd hr.length_le (by simp)
          rw [update_of_ne hne, habove r (hr.trans (List.prefix_append _ _))]
        · intro r hr hrp
          have hne : r ≠ p ++ [i] := by
            rintro rfl
            exact hr (update_self ..)
          rw [update_of_ne hne] at hr
          exact hneeded r hr fun h => hrp (hup r h hne)
      · refine ⟨h', place', ?_, hshape,
          fun r hr => habove r (hr.trans (List.prefix_append _ _)), ?_⟩
        · simp only [RefTrie.remove, ht, hkids i, hi, hrem, Option.bind_some, prune, hc, ht',
            h0, if_false]
        · intro r hr hrp
          by_cases hri : r <+: p ++ [i]
          · obtain rfl : r = p ++ [i] := by
              by_contra hne
              exact hrp (hup r hri hne)
            have hrefs : c.refs ≠ 0 := fun h => h0 (by rw [hlinksc, h]; rfl)
            rcases refs_ne_zero hrefs with hv | ⟨j, hj⟩
            · exact ⟨_, List.prefix_refl _, hvalc ▸ hv⟩
            · have hnot : ¬ p ++ [i] ++ [j] <+: p ++ [i] := fun h =>
                absurd h.length_le (by simp)
              obtain ⟨x, hx, hsome⟩ := hneeded _ (hkidsc j ▸ hj) hnot
              exact ⟨x, (List.prefix_append _ _).trans hx, hsome⟩
          · exact hneeded r hr hri

theorem Kept.insert (k : Kept h vals) (hno : vals q = none) :
    ∃ h', RefTrie.insert v q 0 h = some h' ∧ Kept h' (update vals q (some v)) := by
  obtain ⟨place, s, hused⟩ := k
  obtain ⟨h', place', hins, hshape, hgrow⟩ := s.insert (q := q) (v := v) s.root hno
  refine ⟨h', hins, place', hshape, fun r hr hne => ?_⟩
  rcases hgrow r hr with hr | hr
  · obtain ⟨x, hx, hsome⟩ := hused r hr hne
    have hxq : x ≠ q := fun h => hsome (h ▸ hno)
    exact ⟨x, hx, by rwa [update_of_ne hxq]⟩
  · exact ⟨q, hr, by rw [update_self]; exact Option.some_ne_none _⟩

theorem Kept.remove (k : Kept h vals) (q : List σ) :
    ∃ h', RefTrie.remove q 0 h = some h' ∧ Kept h' (update vals q none) := by
  obtain ⟨place, s, hused⟩ := k
  obtain ⟨h', place', hrem, hshape, -, hneeded⟩ := s.remove (q := q) s.root hused
  refine ⟨h', hrem, place', hshape, fun r hr hne => hneeded r hr fun h => hne ?_⟩
  exact List.prefix_nil.mp h

end Moves

end RefTrie
