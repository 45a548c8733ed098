import Ircd.Lib.DList

/-!
Doubly linked lists that share their nodes: every key has a list, and an item is
linked into the list of one key at most.

`Threads t order loc` says that the list of a key holds the items that `loc` assigns
to it, in the order of `order`. Items come to the front of `order` and of their list
(`Threads.add`), and unlinking an item takes it out of its own list only
(`Threads.del`).
-/

/-- The heads of the lists, and the nodes of all items. -/
structure DTable (κ α : Type*) where
  nodes : α → DNode α
  head : κ → Option α

namespace DTable

open Function List

variable {κ α : Type*} [DecidableEq κ] [DecidableEq α]

def add (t : DTable κ α) (k : κ) (m : α) : DTable κ α where
  nodes := DList.setPrev (update t.nodes m ⟨none, t.head k⟩) (t.head k) (some m)
  head := update t.head k (some m)

/-- Unlink an item of a list. Its own pointers stay. -/
def del (t : DTable κ α) (k : κ) (m : α) : DTable κ α :=
  let nodes := DList.setNext t.nodes (t.nodes m).prev (t.nodes m).next
  { nodes := DList.setPrev nodes (nodes m).next (nodes m).prev
    head := if (t.nodes m).prev = none then update t.head k (t.nodes m).next else t.head }

/-- The items met on a walk of at most `n` steps from the head of a list. -/
def walk (t : DTable κ α) (n : Nat) (k : κ) : List α := DList.walk t.nodes n (t.head k)

/-- The items of a key, in the order of `order`. -/
def listOf (order : List α) (loc : α → Option κ) (k : κ) : List α :=
  order.filter fun m => loc m = some k

/-- The lists of the keys hold their items, each once. -/
structure Threads (t : DTable κ α) (order : List α) (loc : α → Option κ) : Prop where
  nodup : order.Nodup
  head : ∀ k, t.head k = (listOf order loc k).head?
  seg : ∀ k, DList.Seg t.nodes none (listOf order loc k) none

variable {t : DTable κ α} {order : List α} {loc loc' : α → Option κ} {k : κ} {m : α}

omit [DecidableEq α] in
@[simp] theorem mem_listOf {x : α} : x ∈ listOf order loc k ↔ x ∈ order ∧ loc x = some k := by
  simp [listOf]

omit [DecidableEq α] in
theorem nodup_listOf (h : order.Nodup) (loc : α → Option κ) (k : κ) : (listOf order loc k).Nodup :=
  h.filter _

omit [DecidableEq α] in
theorem listOf_congr (h : ∀ x ∈ order, loc' x = loc x) (k : κ) :
    listOf order loc' k = listOf order loc k :=
  filter_congr fun x hx => by rw [h x hx]

omit [DecidableEq α] in
theorem threads_empty (nodes : α → DNode α) (loc : α → Option κ) :
    Threads ⟨nodes, fun _ => none⟩ [] loc :=
  ⟨nodup_nil, fun _ => rfl, fun _ => trivial⟩

theorem listOf_update_none (h : order.Nodup) (loc : α → Option κ) (m : α) (k : κ) :
    listOf order (update loc m none) k = (listOf order loc k).erase m := by
  rw [(nodup_listOf h loc k).erase_eq_filter, listOf, listOf, filter_filter]
  apply filter_congr
  intro x _
  by_cases hx : x = m
  · simp [hx]
  · simp [hx]

theorem listOf_erase (h : order.Nodup) (loc : α → Option κ) (m : α) (k : κ) :
    listOf (order.erase m) loc k = (listOf order loc k).erase m := by
  rw [(nodup_listOf h loc k).erase_eq_filter, h.erase_eq_filter, listOf, listOf,
    filter_filter, filter_filter]
  exact filter_congr fun x _ => Bool.and_comm _ _

/-! ### Segments that an operation does not touch -/

omit [DecidableEq α] in
theorem Threads.list (h : Threads t order loc) (k : κ) :
    DList.IsList ⟨t.nodes, t.head k, (listOf order loc k).getLast?⟩ (listOf order loc k) :=
  ⟨nodup_listOf h.nodup loc k, h.head k, rfl, h.seg k⟩

omit [DecidableEq α] in
theorem Threads.congr (h : Threads t order loc) (hloc : ∀ x ∈ order, loc' x = loc x) :
    Threads t order loc' where
  nodup := h.nodup
  head k := by rw [listOf_congr hloc, h.head]
  seg k := by
    rw [listOf_congr hloc]
    exact h.seg k

theorem Threads.erase (h : Threads t order loc) (hm : loc m = none) :
    Threads t (order.erase m) loc := by
  have hsame : ∀ k, listOf (order.erase m) loc k = listOf order loc k := by
    intro k
    rw [listOf_erase h.nodup]
    apply erase_of_not_mem
    simp [hm]
  constructor
  · exact h.nodup.erase m
  · intro k
    rw [hsame, h.head]
  · intro k
    rw [hsame]
    exact h.seg k

omit [DecidableEq α] in
theorem Threads.skip (h : Threads t order loc) (hout : m ∉ order) (hm : loc m = none) :
    Threads t (m :: order) loc := by
  have hsame : ∀ k, listOf (m :: order) loc k = listOf order loc k := by
    intro k
    rw [listOf, filter_cons_of_neg (by simp [hm])]
    rfl
  constructor
  · exact List.nodup_cons.mpr ⟨hout, h.nodup⟩
  · intro k
    rw [hsame, h.head]
  · intro k
    rw [hsame]
    exact h.seg k

/-! ### The operations -/

theorem Threads.add (h : Threads t order loc) (hout : m ∉ order) (k : κ) :
    Threads (t.add k m) (m :: order) (update loc m (some k)) := by
  have hne : ∀ x ∈ order, x ≠ m := fun x hx hxm => hout (hxm ▸ hx)
  have hloc : ∀ x ∈ order, update loc m (some k) x = loc x := fun x hx =>
    update_of_ne (hne x hx) _ _
  have hself : listOf (m :: order) (update loc m (some k)) k =
      m :: listOf order loc k := by
    rw [listOf, filter_cons_of_pos (by simp)]
    exact congrArg _ (listOf_congr hloc k)
  have hother : ∀ k' ≠ k, listOf (m :: order) (update loc m (some k)) k' =
      listOf order loc k' := by
    intro k' hk
    rw [listOf, filter_cons_of_neg (by simpa using Ne.symm hk)]
    exact listOf_congr hloc k'
  have hnotMem : m ∉ listOf order loc k := fun hm => hout (mem_listOf.mp hm).1
  constructor
  · exact List.nodup_cons.mpr ⟨hout, h.nodup⟩
  · intro k'
    by_cases hk : k' = k
    · subst hk
      rw [hself]
      exact update_self _ _ _
    · rw [hother k' hk, ← h.head k']
      exact update_of_ne hk _ _
  · intro k'
    by_cases hk : k' = k
    · subst hk
      rw [hself]
      exact ((h.list k').add hnotMem).seg
    · rw [hother k' hk]
      refine DList.Seg.congr (fun x hx => ?_) (h.seg k')
      obtain ⟨hmem, hx⟩ := mem_listOf.mp hx
      -- the item that was the head of the other list is not on this one
      have hhead : ∀ y, t.head k = some y → y ∉ [x] := by
        rintro y hy hyx
        rw [h.head, List.mem_singleton.mp hyx] at hy
        have hxk := (mem_listOf.mp (mem_of_head? hy)).2
        exact hk (Option.some.inj (hx.symm.trans hxk))
      change DList.setPrev _ (t.head k) (some m) x = _
      rw [DList.setPrev_of_notMem hhead _ (List.mem_singleton.mpr rfl),
        update_of_ne (hne x hmem)]

omit [DecidableEq α] in
theorem Threads.listOf_other (hm : loc m = some k) {k' : κ} (hk : k' ≠ k) {x : α}
    (hx : x ∈ listOf order loc k') : x ∉ listOf order loc k ∧ x ≠ m := by
  have hloc := (mem_listOf.mp hx).2
  constructor
  · intro hx'
    exact hk (Option.some.inj (hloc.symm.trans (mem_listOf.mp hx').2))
  · rintro rfl
    exact hk (Option.some.inj (hloc.symm.trans hm))

theorem Threads.del (h : Threads t order loc) (hmem : m ∈ order) (hm : loc m = some k) :
    Threads (t.del k m) order (update loc m none) := by
  obtain ⟨xs, ys, hsplit⟩ := append_of_mem (mem_listOf.mpr ⟨hmem, hm⟩)
  have hnodup := nodup_listOf h.nodup loc k
  have hseg := h.seg k
  rw [hsplit] at hnodup hseg
  have hnode := hseg.node
  have hnot := (List.nodup_middle.mp hnodup).notMem
  rw [mem_append, not_or] at hnot
  have herase : (listOf order loc k).erase m = xs ++ ys := by
    rw [hsplit, erase_append_right _ hnot.1, erase_cons_head]
  have hother : ∀ k' ≠ k, (listOf order loc k').erase m = listOf order loc k' := fun k' hk =>
    erase_of_not_mem fun hm' => (Threads.listOf_other hm hk hm').2 rfl
  -- the forward pointer of the item before does not touch the item itself
  have hsame : DList.setNext t.nodes xs.getLast? ys.head? m = ⟨xs.getLast?, ys.head?⟩ := by
    rw [DList.setNext_of_notMem (fun x hx hmem => ?_) _ (List.mem_singleton.mpr rfl), hnode]
    exact hnot.1 (List.mem_singleton.mp hmem ▸ mem_of_getLast? hx)
  have hdel : t.del k m =
      ⟨DList.setPrev (DList.setNext t.nodes xs.getLast? ys.head?) ys.head? xs.getLast?,
        if xs.getLast? = none then update t.head k ys.head? else t.head⟩ := by
    rw [DTable.del]
    simp only [hnode, hsame]
  rw [hdel]
  constructor
  · exact h.nodup
  · intro k'
    rw [listOf_update_none h.nodup]
    by_cases hk : k' = k
    · subst hk
      have hhead := h.head k'
      rw [hsplit] at hhead
      rw [herase]
      cases xs with
      | nil => exact update_self _ _ _
      | cons x xs =>
        rw [if_neg (by simp [getLast?_cons]), hhead]
        rfl
    · rw [hother k' hk, ← h.head k']
      dsimp only
      split
      · exact update_of_ne hk _ _
      · rfl
  · intro k'
    rw [listOf_update_none h.nodup]
    by_cases hk : k' = k
    · subst hk
      rw [herase, DList.setPrev_setNext]
      exact hseg.unlink hnodup
    · rw [hother k' hk]
      refine DList.Seg.congr (fun x hx => ?_) (h.seg k')
      have hout := (Threads.listOf_other hm hk hx).1
      rw [hsplit, mem_append, mem_cons, not_or, not_or] at hout
      change DList.setPrev _ _ _ x = _
      rw [DList.setPrev_of_notMem (fun y hy hmem => ?_) _ (List.mem_singleton.mpr rfl),
        DList.setNext_of_notMem (fun y hy hmem => ?_) _ (List.mem_singleton.mpr rfl)]
      · exact hout.1 (List.mem_singleton.mp hmem ▸ mem_of_getLast? hy)
      · exact hout.2.2 (List.mem_singleton.mp hmem ▸ mem_of_head? hy)

theorem Threads.take (h : Threads t order loc) (hmem : m ∈ order) (hm : loc m = some k) :
    Threads (t.del k m) (order.erase m) loc := by
  apply ((h.del hmem hm).erase (update_self m none loc)).congr
  intro x hx
  have hne : x ≠ m := ne_of_mem_of_not_mem hx h.nodup.not_mem_erase
  exact (update_of_ne hne _ _).symm

omit [DecidableEq α] in
theorem Threads.walk_eq (h : Threads t order loc) {n : Nat} (hn : order.length ≤ n) (k : κ) :
    t.walk n k = listOf order loc k :=
  (h.list k).walk_eq (Nat.le_trans (length_filter_le _ _) hn)

end DTable
