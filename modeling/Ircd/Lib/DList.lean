import Mathlib.Data.List.Nodup
import Mathlib.Logic.Function.Basic

/-!
Doubly linked lists whose nodes lie inside the items they link: adding at the head,
unlinking, walking along the `next` pointers, and what they do on a list that
holds given items.

The operations are total. Unlinking an item that is on no list is what a caller
gets who does it twice: the list loses all it holds (`delete_unlinked`).
-/

/-- The pointers inside an item. -/
@[ext]
structure DNode (α : Type*) where
  prev : Option α
  next : Option α
  deriving DecidableEq

/-- A list, with the nodes of all items, linked or not. -/
structure DList (α : Type*) where
  nodes : α → DNode α
  head : Option α
  tail : Option α

namespace DList

open Function List

variable {α : Type*} [DecidableEq α]

/-- Set the back pointer of an item, if there is one. -/
def setPrev (nodes : α → DNode α) (x : Option α) (p : Option α) : α → DNode α :=
  match x with
  | none => nodes
  | some x => update nodes x { nodes x with prev := p }

/-- Set the forward pointer of an item, if there is one. -/
def setNext (nodes : α → DNode α) (x : Option α) (n : Option α) : α → DNode α :=
  match x with
  | none => nodes
  | some x => update nodes x { nodes x with next := n }

def add (l : DList α) (m : α) : DList α where
  nodes := setPrev (update l.nodes m ⟨none, l.head⟩) l.head (some m)
  head := some m
  tail := if l.head = none ∧ l.tail = none then some m else l.tail

def delete (l : DList α) (m : α) : DList α :=
  let nodes := setPrev l.nodes (l.nodes m).next (l.nodes m).prev
  { nodes := update (setNext nodes (nodes m).prev (nodes m).next) m ⟨none, none⟩
    head := if (nodes m).prev = none then (nodes m).next else l.head
    tail := if (l.nodes m).next = none then (l.nodes m).prev else l.tail }

/-- At most `n` items from an item on, along the forward pointers. -/
def walk (nodes : α → DNode α) : Nat → Option α → List α
  | 0, _ => []
  | _ + 1, none => []
  | n + 1, some x => x :: walk nodes n (nodes x).next

/-- The nodes link the items in order, between `p` in front and `n` behind. -/
def Seg (nodes : α → DNode α) : Option α → List α → Option α → Prop
  | _, [], _ => True
  | p, x :: xs, n => nodes x = ⟨p, xs.head?.or n⟩ ∧ Seg nodes (some x) xs n

/-- The list holds the items, each once and in order. -/
structure IsList (l : DList α) (xs : List α) : Prop where
  nodup : xs.Nodup
  head : l.head = xs.head?
  tail : l.tail = xs.getLast?
  seg : Seg l.nodes none xs none

variable {l : DList α} {nodes nodes' : α → DNode α} {p n : Option α} {m : α} {xs ys : List α}

/-! ### Segments -/

omit [DecidableEq α] in
theorem Seg.congr (h : ∀ x ∈ xs, nodes' x = nodes x) (hs : Seg nodes p xs n) :
    Seg nodes' p xs n := by
  induction xs generalizing p with
  | nil => trivial
  | cons x xs ih =>
    obtain ⟨hx, hxs⟩ := hs
    exact ⟨(h x mem_cons_self).trans hx, ih (fun y hy => h y (mem_cons_of_mem _ hy))
      hxs⟩

omit [DecidableEq α] in
theorem seg_append :
    Seg nodes p (xs ++ ys) n ↔ Seg nodes p xs (ys.head?.or n) ∧
      Seg nodes (xs.getLast?.or p) ys n := by
  induction xs generalizing p with
  | nil => simp [Seg]
  | cons x xs ih =>
    have hhead : (xs ++ ys).head?.or n = xs.head?.or (ys.head?.or n) := by
      cases xs <;> simp
    have hlast : (x :: xs).getLast?.or p = xs.getLast?.or (some x) := by
      rw [getLast?_cons]
      cases xs.getLast? <;> rfl
    rw [cons_append, Seg, Seg, ih, hhead, hlast, and_assoc]

theorem Seg.setNext (hnodup : xs.Nodup) (h : Seg nodes p xs n) (n' : Option α) :
    Seg (setNext nodes xs.getLast? n') p xs n' := by
  rcases eq_nil_or_concat xs with rfl | ⟨ys, y, rfl⟩
  · trivial
  · rw [concat_eq_append] at hnodup h ⊢
    rw [getLast?_append, getLast?_singleton, Option.some_or]
    obtain ⟨hys, hy, -⟩ := seg_append.mp h
    have hout : ∀ x ∈ ys, update nodes y { nodes y with next := n' } x = nodes x := by
      intro x hx
      refine update_of_ne ?_ _ _
      rintro rfl
      exact disjoint_of_nodup_append hnodup hx mem_cons_self
    refine seg_append.mpr ⟨Seg.congr hout hys, ?_, trivial⟩
    change update nodes y { nodes y with next := n' } y = _
    rw [update_self, hy]
    rfl

theorem Seg.setPrev (hnodup : xs.Nodup) (h : Seg nodes p xs n) (p' : Option α) :
    Seg (setPrev nodes xs.head? p') p' xs n := by
  cases xs with
  | nil => trivial
  | cons x xs =>
    obtain ⟨hx, hxs⟩ := h
    refine ⟨?_, Seg.congr (fun y hy => ?_) hxs⟩
    · change update nodes x { nodes x with prev := p' } x = _
      rw [update_self, hx]
    · refine update_of_ne ?_ _ _
      rintro rfl
      exact (List.nodup_cons.mp hnodup).1 hy

theorem setPrev_of_notMem (h : ∀ x, n = some x → x ∉ xs) (p : Option α) {x : α} (hx : x ∈ xs) :
    DList.setPrev nodes n p x = nodes x := by
  cases n with
  | none => rfl
  | some y =>
    refine update_of_ne ?_ _ _
    rintro rfl
    exact h x rfl hx

theorem setNext_of_notMem (h : ∀ x, n = some x → x ∉ xs) (p : Option α) {x : α} (hx : x ∈ xs) :
    DList.setNext nodes n p x = nodes x := by
  cases n with
  | none => rfl
  | some y =>
    refine update_of_ne ?_ _ _
    rintro rfl
    exact h x rfl hx

theorem setPrev_setNext (x y p n : Option α) :
    DList.setPrev (DList.setNext nodes x n) y p = DList.setNext (DList.setPrev nodes y p) x n := by
  cases x with
  | none => rfl
  | some x =>
    cases y with
    | none => rfl
    | some y =>
      unfold DList.setPrev DList.setNext
      dsimp only
      by_cases hxy : y = x
      · subst hxy
        rw [update_self, update_self, update_idem,
          update_idem]
      · rw [update_of_ne hxy, update_of_ne (Ne.symm hxy)]
        exact update_comm (Ne.symm hxy) _ _ _

omit [DecidableEq α] in
theorem Seg.node (h : Seg nodes none (xs ++ m :: ys) none) :
    nodes m = ⟨xs.getLast?, ys.head?⟩ := by
  obtain ⟨-, hm, -⟩ := seg_append.mp h
  rw [hm, Option.or_none, Option.or_none]

theorem Seg.unlink (hnodup : (xs ++ m :: ys).Nodup) (h : Seg nodes none (xs ++ m :: ys) none) :
    Seg (DList.setNext (DList.setPrev nodes ys.head? xs.getLast?) xs.getLast? ys.head?) none
      (xs ++ ys) none := by
  obtain ⟨hxs, -, hys⟩ := seg_append.mp h
  obtain ⟨hnodupXs, hnodupYs, hdisj⟩ := List.nodup_append'.mp hnodup
  obtain ⟨-, hnodupYs⟩ := List.nodup_cons.mp hnodupYs
  have hapart : ∀ x ∈ xs, x ∉ ys := fun x hx hy => hdisj hx (mem_cons_of_mem _ hy)
  apply seg_append.mpr
  constructor
  · rw [Option.or_none]
    have hkeep : Seg (DList.setPrev nodes ys.head? xs.getLast?) none xs
        ((m :: ys).head?.or none) :=
      Seg.congr (fun x hx => setPrev_of_notMem
        (fun y hy hmem => hapart y hmem (mem_of_head? hy)) _ hx) hxs
    exact hkeep.setNext hnodupXs _
  · rw [Option.or_none]
    have hkeep := Seg.setPrev hnodupYs hys xs.getLast?
    refine Seg.congr (fun y hy => setNext_of_notMem (fun x hx hmem => ?_) _ hy) hkeep
    exact hapart x (mem_of_getLast? hx) hmem

/-! ### The operations on a list -/

omit [DecidableEq α] in
theorem isList_nil (nodes : α → DNode α) : IsList ⟨nodes, none, none⟩ ([] : List α) :=
  ⟨nodup_nil, rfl, rfl, trivial⟩

theorem IsList.add (h : IsList l xs) (hm : m ∉ xs) : IsList (l.add m) (m :: xs) := by
  have hne : ∀ x ∈ xs, x ≠ m := fun x hx hxm => hm (hxm ▸ hx)
  have hfresh : Seg (update l.nodes m ⟨none, l.head⟩) none xs none :=
    Seg.congr (fun x hx => update_of_ne (hne x hx) _ _) h.seg
  constructor
  · exact List.nodup_cons.mpr ⟨hm, h.nodup⟩
  · rfl
  · rw [DList.add, getLast?_cons]
    simp only [h.head, h.tail]
    cases xs with
    | nil => rfl
    | cons x xs => simp [getLast?_cons]
  · constructor
    · rw [DList.add, h.head]
      cases xs with
      | nil => exact update_self _ _ _
      | cons x xs =>
        change update _ x _ m = _
        rw [update_of_ne fun hmx : m = x => hm (hmx ▸ mem_cons_self),
          update_self]
        rfl
    · rw [DList.add, h.head]
      rw [h.head] at hfresh
      exact hfresh.setPrev h.nodup (some m)

theorem IsList.delete (h : IsList l (xs ++ m :: ys)) : IsList (l.delete m) (xs ++ ys) := by
  have hm := h.seg.node
  have hnot := (List.nodup_middle.mp h.nodup).notMem
  have hnodup := (List.nodup_middle.mp h.nodup).of_cons
  rw [mem_append, not_or] at hnot
  -- the back pointer of the next item does not touch the item itself
  have hsame : DList.setPrev l.nodes ys.head? xs.getLast? m = ⟨xs.getLast?, ys.head?⟩ := by
    rw [setPrev_of_notMem (fun y hy hmem => ?_) _ (List.mem_singleton.mpr rfl), hm]
    exact hnot.2 (List.mem_singleton.mp hmem ▸ mem_of_head? hy)
  have hdelete : l.delete m =
      ⟨update (DList.setNext (DList.setPrev l.nodes ys.head? xs.getLast?) xs.getLast?
        ys.head?)
        m ⟨none, none⟩,
        if xs.getLast? = none then ys.head? else l.head,
        if ys.head? = none then xs.getLast? else l.tail⟩ := by
    rw [DList.delete]
    simp only [hm, hsame]
  rw [hdelete]
  constructor
  · exact hnodup
  · rw [head?_append]
    simp only [h.head, head?_append]
    cases xs with
    | nil => rfl
    | cons x xs => simp [getLast?_cons]
  · rw [getLast?_append]
    simp only [h.tail, getLast?_append, getLast?_cons]
    cases ys with
    | nil => simp
    | cons y ys => simp [getLast?_cons]
  · refine Seg.congr (fun x hx => update_of_ne ?_ _ _) (h.seg.unlink h.nodup)
    rintro rfl
    exact (List.mem_append.mp hx).elim hnot.1 hnot.2

theorem IsList.delete_filter (h : IsList l xs) (hm : m ∈ xs) :
    IsList (l.delete m) (xs.filter (· ≠ m)) := by
  obtain ⟨as, bs, rfl⟩ := append_of_mem hm
  have hnodup := h.nodup
  have hout := (List.nodup_middle.mp hnodup).notMem
  rw [mem_append, not_or] at hout
  have hall : ∀ {l : List α}, m ∉ l → l.filter (· ≠ m) = l := fun hl =>
    List.filter_eq_self.mpr fun x hx => decide_eq_true (ne_of_mem_of_not_mem hx hl)
  rw [filter_append, filter_cons_of_neg (by simp), hall hout.1, hall hout.2]
  exact h.delete

omit [DecidableEq α] in
theorem IsList.next (h : IsList l (xs ++ m :: ys)) : (l.nodes m).next = ys.head? := by
  obtain ⟨-, hm, -⟩ := seg_append.mp h.seg
  rw [hm]
  exact Option.or_none

omit [DecidableEq α] in
theorem IsList.walk_eq (h : IsList l xs) {k : Nat} (hk : xs.length ≤ k) :
    walk l.nodes k l.head = xs := by
  have hseg : ∀ {p xs k}, Seg l.nodes p xs none → xs.length ≤ k → walk l.nodes k xs.head? = xs := by
    intro p xs k hxs hk
    induction xs generalizing p k with
    | nil => cases k <;> rfl
    | cons x xs ih =>
      obtain ⟨hx, hxs⟩ := hxs
      cases k with
      | zero => exact absurd hk (Nat.not_succ_le_zero _)
      | succ k =>
        rw [Option.or_none] at hx
        rw [head?_cons, walk, hx]
        exact congrArg _ (ih hxs (Nat.le_of_succ_le_succ hk))
  rw [h.head]
  exact hseg h.seg hk

end DList
