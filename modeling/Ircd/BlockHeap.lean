import Ircd.Lib.Run
import Mathlib.Algebra.Order.BigOperators.Group.List
import Mathlib.Data.Finset.Basic
import Mathlib.Tactic.Ring

/-!
The block heaps that clients, channels and masks are allocated from.

Every heap counts what its blocks count, an element that is handed out is in use nowhere, and a
collection only takes blocks away in which nothing is in use (`HeapInv`, `Process.Inv`). It
takes every such block, so the last one goes too when nothing is in use at all
(`block_heap_iff`).
-/

namespace Ircd

open List

/-- The address of an element: that of the memory of its block, and its place there. -/
abbrev ElemPtr := Nat × Nat

/-- `struct Block`; `elems` is the address of its memory. -/
structure Block where
  freeElems : Int
  elems : Nat
  freeList : List ElemPtr
  usedList : List ElemPtr
  deriving DecidableEq, Repr

/-- `struct BlockHeap`, with the blocks from `base` on. -/
structure BlockHeap where
  elemsPerBlock : Nat
  blocksAllocated : Int
  freeElems : Int
  blocks : List Block
  deriving DecidableEq, Repr

/-! ### The functions -/

/-- The elements of a new block, each put in front of `free_list`. -/
def newElems (elems elemsPerBlock : Nat) : List ElemPtr :=
  ((List.range elemsPerBlock).map fun i => (elems, i)).reverse

/-- The heap with a new block in the memory at an address. -/
def BlockHeap.addBlock (bh : BlockHeap) (elems : Nat) : BlockHeap :=
  { bh with
    blocks :=
      { freeElems := bh.elemsPerBlock, elems := elems
        freeList := newElems elems bh.elemsPerBlock, usedList := [] } :: bh.blocks
    blocksAllocated := bh.blocksAllocated + 1
    freeElems := bh.freeElems + bh.elemsPerBlock }

/-- `newblock`, where `get_block` gives memory at this address, or none. -/
def newblock (bh : BlockHeap) (elems : Option Nat) : Option BlockHeap := elems.map bh.addBlock

/-- `BlockHeapCreate`; without a heap the server ends, out of memory. -/
def blockHeapCreate (elemsize : Nat) (elemsperblock : Int) (elems : Option Nat) :
    Option BlockHeap :=
  if elemsize = 0 ∨ elemsperblock ≤ 0 then none
  else newblock ⟨elemsperblock.toNat, 0, 0, []⟩ elems

/-- The loop of `BlockHeapGarbageCollect`: the blocks it has left behind, the last one first,
and those it comes to. -/
def collectLoop (bh : BlockHeap) (last : List Block) : List Block → BlockHeap
  | [] => { bh with blocks := last.reverse }
  | walker :: rest =>
    if walker.freeElems = bh.elemsPerBlock then
      collectLoop
        { bh with
          blocksAllocated := bh.blocksAllocated - 1
          freeElems := bh.freeElems - bh.elemsPerBlock }
        last rest
    else collectLoop bh (walker :: last) rest

/-- `BlockHeapGarbageCollect`. -/
def blockHeapGarbageCollect (bh : BlockHeap) : BlockHeap :=
  if bh.freeElems < bh.elemsPerBlock ∨ bh.blocksAllocated = 1 then bh
  else collectLoop bh [] bh.blocks

/-- How the walk of `BlockHeapAlloc` ends: an element and the blocks after that, a block that
counts an element and has none, or no block at all. -/
inductive AllocWalk
  | found (blocks : List Block) (ptr : ElemPtr)
  | noNode
  | noBlock
  deriving DecidableEq, Repr

/-- The block with its first free element in use. -/
def Block.take (b : Block) (ptr : ElemPtr) (free : List ElemPtr) : Block :=
  { b with freeElems := b.freeElems - 1, freeList := free, usedList := ptr :: b.usedList }

def allocWalk : List Block → AllocWalk
  | [] => .noBlock
  | b :: rest =>
    if 0 < b.freeElems then
      match b.freeList with
      | [] => .noNode
      | ptr :: free => .found (b.take ptr free :: rest) ptr
    else
      match allocWalk rest with
      | .found rest ptr => .found (b :: rest) ptr
      | r => r

/-- What `BlockHeapAlloc` comes to; `noNode` is the use of a null pointer and `assertion` the
`assert(0 == 1)`. -/
inductive AllocResult
  | found (bh : BlockHeap) (ptr : ElemPtr)
  | noNode
  | assertion
  | outofmemory
  deriving DecidableEq, Repr

/-- The rest of `BlockHeapAlloc`, when it has made room. -/
def allocFrom (bh : BlockHeap) : AllocResult :=
  match allocWalk bh.blocks with
  | .found blocks ptr => .found { bh with freeElems := bh.freeElems - 1, blocks := blocks } ptr
  | .noNode => .noNode
  | .noBlock => .assertion

/-- `BlockHeapAlloc`, with what `get_block` gives if it is called once and again. -/
def blockHeapAlloc (bh : BlockHeap) (first second : Option Nat) : AllocResult :=
  if bh.freeElems = 0 then
    match newblock bh first with
    | some bh => allocFrom bh
    | none =>
      match newblock (blockHeapGarbageCollect bh) second with
      | some bh => allocFrom bh
      | none => .outofmemory
  else allocFrom bh

/-- The block with an element back in its free list. -/
def Block.release (b : Block) (ptr : ElemPtr) : Block :=
  { b with
    freeElems := b.freeElems + 1
    freeList := ptr :: b.freeList
    usedList := b.usedList.erase ptr }

/-- `BlockHeapFree`, for an element of the heap; none if the assertion on it fails. -/
def blockHeapFree (bh : BlockHeap) (ptr : ElemPtr) : Option BlockHeap :=
  if bh.blocks.any fun b => b.elems == ptr.1 && b.usedList.contains ptr then
    some
      { bh with
        freeElems := bh.freeElems + 1
        blocks := bh.blocks.map fun b => if b.elems = ptr.1 then b.release ptr else b }
  else none

/-! ### The heaps of a process -/

/-- What has become of the process. -/
inductive Fate
  | running
  | outofmemory
  | assertion
  | noNode
  deriving DecidableEq, Repr

/-- The heaps in the order of their creation, and the elements that have been handed out and
not been freed, with the heap they are from. -/
structure Process where
  heaps : List BlockHeap
  live : Finset (Nat × ElemPtr)
  fate : Fate
  deriving DecidableEq

/-- A call; `heap_garbage_collection` collects in every heap. -/
inductive HeapOp
  | create (elemsize : Nat) (elemsperblock : Int) (elems : Option Nat)
  | alloc (bh : Nat) (first second : Option Nat)
  | free (bh : Nat) (ptr : ElemPtr)
  | gc
  deriving DecidableEq, Repr

namespace Process

def start : Process := ⟨[], ∅, .running⟩

def step (p : Process) (op : HeapOp) : Process :=
  if p.fate ≠ .running then p
  else
    match op with
    | .create elemsize elemsperblock elems =>
      match blockHeapCreate elemsize elemsperblock elems with
      | some bh => { p with heaps := p.heaps ++ [bh] }
      | none => { p with fate := .outofmemory }
    | .alloc i first second =>
      match p.heaps[i]? with
      | none => p
      | some bh =>
        match blockHeapAlloc bh first second with
        | .found bh' ptr =>
          { p with heaps := p.heaps.set i bh', live := insert (i, ptr) p.live }
        | .noNode => { p with fate := .noNode }
        | .assertion => { p with fate := .assertion }
        | .outofmemory => { p with fate := .outofmemory }
    | .free i ptr =>
      match p.heaps[i]? with
      | none => p
      | some bh =>
        match blockHeapFree bh ptr with
        | some bh' => { p with heaps := p.heaps.set i bh', live := p.live.erase (i, ptr) }
        | none => { p with fate := .assertion }
    | .gc => { p with heaps := p.heaps.map blockHeapGarbageCollect }

def Fresh (p : Process) (elems : Nat) : Prop := ∀ bh ∈ p.heaps, ∀ b ∈ bh.blocks, b.elems ≠ elems

/-- What the callers and the system keep to: memory that `get_block` gives is not in use, and
only an element that is in use is freed. -/
def Proper (p : Process) : HeapOp → Prop
  | .create _ _ elems => ∀ a ∈ elems, p.Fresh a
  | .alloc i first second =>
    i < p.heaps.length ∧ (∀ a ∈ first, p.Fresh a) ∧ ∀ a ∈ second, p.Fresh a
  | .free i ptr => (i, ptr) ∈ p.live
  | .gc => True

instance (p : Process) (elems : Nat) : Decidable (p.Fresh elems) :=
  inferInstanceAs (Decidable (∀ bh ∈ p.heaps, ∀ b ∈ bh.blocks, b.elems ≠ elems))

instance (p : Process) : (op : HeapOp) → Decidable (p.Proper op)
  | .create _ _ elems => inferInstanceAs (Decidable (∀ a ∈ elems, p.Fresh a))
  | .alloc i first second =>
    inferInstanceAs
      (Decidable (i < p.heaps.length ∧ (∀ a ∈ first, p.Fresh a) ∧ ∀ a ∈ second, p.Fresh a))
  | .free i ptr => inferInstanceAs (Decidable ((i, ptr) ∈ p.live))
  | .gc => inferInstanceAs (Decidable True)

end Process

/-! ### The counts of one heap -/

/-- A block counts its free elements, and has each of its elements once. -/
structure BlockInv (elemsPerBlock : Nat) (b : Block) : Prop where
  count : b.freeElems = b.freeList.length
  elems : (b.freeList ++ b.usedList).Perm (newElems b.elems elemsPerBlock)

/-- A heap counts its blocks and their free elements, and its blocks are apart. -/
structure HeapInv (bh : BlockHeap) : Prop where
  pos : 0 < bh.elemsPerBlock
  blocks : ∀ b ∈ bh.blocks, BlockInv bh.elemsPerBlock b
  count : bh.freeElems = (bh.blocks.map Block.freeElems).sum
  allocated : bh.blocksAllocated = bh.blocks.length
  apart : (bh.blocks.map Block.elems).Nodup

def BlockHeap.Uses (bh : BlockHeap) (ptr : ElemPtr) : Prop := ∃ b ∈ bh.blocks, ptr ∈ b.usedList

namespace BlockInv

variable {n : Nat} {b : Block} {ptr : ElemPtr} {free : List ElemPtr}

theorem mem_newElems {elems : Nat} : ptr ∈ newElems elems n ↔ ptr.1 = elems ∧ ptr.2 < n := by
  obtain ⟨a, i⟩ := ptr
  simp only [newElems, mem_reverse, mem_map, mem_range, Prod.mk.injEq]
  constructor
  · rintro ⟨j, hj, rfl, rfl⟩
    exact ⟨rfl, hj⟩
  · rintro ⟨rfl, hi⟩
    exact ⟨i, hi, rfl, rfl⟩

theorem nodup_newElems (elems n : Nat) : (newElems elems n).Nodup := by
  rw [newElems, nodup_reverse]
  exact List.nodup_range.map fun i j h => (Prod.mk.injEq _ _ _ _ ▸ h).2

theorem nodup (h : BlockInv n b) : (b.freeList ++ b.usedList).Nodup :=
  h.elems.nodup_iff.mpr (nodup_newElems _ _)

theorem fst_of_mem_used (h : BlockInv n b) (hptr : ptr ∈ b.usedList) : ptr.1 = b.elems :=
  (mem_newElems.mp (h.elems.mem_iff.mp (mem_append_right _ hptr))).1

theorem fst_of_mem_free (h : BlockInv n b) (hptr : ptr ∈ b.freeList) : ptr.1 = b.elems :=
  (mem_newElems.mp (h.elems.mem_iff.mp (mem_append_left _ hptr))).1

theorem length (h : BlockInv n b) : b.freeList.length + b.usedList.length = n := by
  have hlength := h.elems.length_eq
  simpa [newElems] using hlength

theorem freeElems_eq_iff (h : BlockInv n b) : b.freeElems = n ↔ b.usedList = [] := by
  have hlength := h.length
  rw [h.count, ← length_eq_zero_iff]
  omega

theorem fresh (n elems : Nat) : BlockInv n ⟨n, elems, newElems elems n, []⟩ :=
  ⟨by simp [newElems], by rw [append_nil]⟩

theorem take (h : BlockInv n b) (hfree : b.freeList = ptr :: free) :
    BlockInv n (b.take ptr free) := by
  constructor
  · have hcount := h.count
    rw [hfree, length_cons] at hcount
    simp only [Block.take]
    omega
  · refine List.Perm.trans ?_ h.elems
    rw [hfree]
    exact perm_middle

theorem release (h : BlockInv n b) (hptr : ptr ∈ b.usedList) : BlockInv n (b.release ptr) := by
  constructor
  · have hcount := h.count
    simp only [Block.release, length_cons]
    omega
  · refine List.Perm.trans ?_ h.elems
    refine List.perm_middle.symm.trans ?_
    exact (perm_cons_erase hptr).symm.append_left _

end BlockInv

namespace HeapInv

variable {bh bh' : BlockHeap} {b b' : Block} {before after : List Block} {ptr : ElemPtr}

theorem replace (h : HeapInv bh) (hblocks : bh.blocks = before ++ b :: after)
    (hinv : BlockInv bh.elemsPerBlock b') (helems : b'.elems = b.elems) (d : Int)
    (hd : b'.freeElems = b.freeElems + d) :
    HeapInv { bh with freeElems := bh.freeElems + d, blocks := before ++ b' :: after } := by
  have hall := h.blocks
  have hcount := h.count
  have hallocated := h.allocated
  have hapart := h.apart
  rw [hblocks] at hall hcount hallocated hapart
  simp only [map_append, map_cons, sum_append, sum_cons] at hcount hapart
  refine ⟨h.pos, ?_, ?_, ?_, ?_⟩
  · intro c hc
    rcases List.mem_append.mp hc with hc | hc
    · exact hall c (mem_append_left _ hc)
    · rcases List.mem_cons.mp hc with rfl | hc
      · exact hinv
      · exact hall c (mem_append_right _ (mem_cons_of_mem _ hc))
  · simp only [map_append, map_cons, sum_append, sum_cons]
    omega
  · simpa using hallocated
  · simpa only [map_append, map_cons, helems] using hapart

theorem eq_of_elems (h : HeapInv bh) (hb : b ∈ bh.blocks) (hb' : b' ∈ bh.blocks)
    (heq : b.elems = b'.elems) : b = b' :=
  inj_on_of_nodup_map h.apart hb hb' heq

theorem addBlock (h : HeapInv bh) {elems : Nat} (hfresh : ∀ b ∈ bh.blocks, b.elems ≠ elems) :
    HeapInv (bh.addBlock elems) := by
  have hcount := h.count
  have hallocated := h.allocated
  refine ⟨h.pos, ?_, ?_, ?_, ?_⟩
  · intro c hc
    rcases List.mem_cons.mp hc with rfl | hc
    · exact BlockInv.fresh _ _
    · exact h.blocks c hc
  · simp only [BlockHeap.addBlock, map_cons, sum_cons]
    omega
  · simp only [BlockHeap.addBlock, length_cons]
    push_cast
    omega
  · simp only [BlockHeap.addBlock, map_cons, nodup_cons]
    refine ⟨?_, h.apart⟩
    intro hmem
    obtain ⟨b, hb, helems⟩ := List.mem_map.mp hmem
    exact hfresh b hb helems

theorem remove (h : HeapInv { bh with blocks := before ++ b :: after })
    (hfull : b.freeElems = bh.elemsPerBlock) :
    HeapInv
      { bh with
        blocksAllocated := bh.blocksAllocated - 1
        freeElems := bh.freeElems - bh.elemsPerBlock
        blocks := before ++ after } := by
  have hcount := h.count
  have hallocated := h.allocated
  have hapart := h.apart
  simp only [map_append, map_cons, sum_append, sum_cons, length_append,
    length_cons] at hcount hallocated hapart
  refine ⟨h.pos, ?_, ?_, ?_, ?_⟩
  · intro c hc
    rcases List.mem_append.mp hc with hc | hc
    · exact h.blocks c (mem_append_left _ hc)
    · exact h.blocks c (mem_append_right _ (mem_cons_of_mem _ hc))
  · simp only [map_append, sum_append]
    omega
  · simp only [length_append]
    push_cast at hallocated ⊢
    omega
  · rw [map_append]
    exact hapart.sublist ((List.Sublist.refl _).append (sublist_cons_self _ _))

end HeapInv

/-! ### Allocating -/

theorem freeElems_nonneg {n : Nat} {blocks : List Block} (hall : ∀ b ∈ blocks, BlockInv n b) :
    0 ≤ (blocks.map Block.freeElems).sum := by
  refine sum_nonneg fun x hx => ?_
  obtain ⟨b, hb, rfl⟩ := List.mem_map.mp hx
  rw [(hall b hb).count]
  exact Int.natCast_nonneg _

theorem allocWalk_found {n : Nat} {blocks : List Block} (hall : ∀ b ∈ blocks, BlockInv n b)
    (hsum : 0 < (blocks.map Block.freeElems).sum) :
    ∃ before b after ptr free, blocks = before ++ b :: after ∧ b.freeList = ptr :: free ∧
      allocWalk blocks = .found (before ++ b.take ptr free :: after) ptr := by
  induction blocks with
  | nil => simp at hsum
  | cons b rest ih =>
    have hcount := (hall b mem_cons_self).count
    unfold allocWalk
    by_cases hfree : 0 < b.freeElems
    · cases hlist : b.freeList with
      | nil =>
        rw [hlist] at hcount
        simp [hcount] at hfree
      | cons ptr free =>
        refine ⟨[], b, rest, ptr, free, rfl, hlist, ?_⟩
        rw [if_pos hfree]
        rfl
    · rw [map_cons, sum_cons] at hsum
      obtain ⟨before, c, after, ptr, free, hrest, hlist, hwalk⟩ :=
        ih (fun c hc => hall c (mem_cons_of_mem _ hc)) (by omega)
      refine ⟨b :: before, c, after, ptr, free, by rw [hrest]; rfl, hlist, ?_⟩
      rw [if_neg hfree, hwalk]
      rfl

/-- What an allocation leaves: one more element in use, which was in use nowhere in the heap,
and no new memory but what `get_block` gave. -/
structure Allocated (bh bh' : BlockHeap) (ptr : ElemPtr) (given : Nat → Prop) : Prop where
  inv : HeapInv bh'
  unused : ¬bh.Uses ptr
  uses : ∀ x, bh'.Uses x ↔ x = ptr ∨ bh.Uses x
  place : (∃ b ∈ bh.blocks, b.elems = ptr.1) ∨ given ptr.1
  elems : ∀ b' ∈ bh'.blocks, (∃ b ∈ bh.blocks, b.elems = b'.elems) ∨ given b'.elems

section

variable {bh bh' : BlockHeap} {ptr : ElemPtr} {given : Nat → Prop}

theorem allocFrom_found (h : HeapInv bh) (hfree : 0 < bh.freeElems) :
    ∃ bh' ptr, allocFrom bh = .found bh' ptr ∧ Allocated bh bh' ptr fun _ => False := by
  rw [h.count] at hfree
  obtain ⟨before, b, after, ptr, free, hblocks, hlist, hwalk⟩ := allocWalk_found h.blocks hfree
  have hb : b ∈ bh.blocks := by simp [hblocks]
  have hinv := h.blocks b hb
  have hptr : ptr ∈ b.freeList := by simp [hlist]
  have hunused : ¬bh.Uses ptr := by
    rintro ⟨c, hc, hused⟩
    obtain rfl : c = b := h.eq_of_elems hc hb
      (((h.blocks c hc).fst_of_mem_used hused).symm.trans (hinv.fst_of_mem_free hptr))
    exact disjoint_of_nodup_append hinv.nodup hptr hused
  refine ⟨_, ptr, by rw [allocFrom, hwalk], ?_⟩
  refine ⟨h.replace hblocks (hinv.take hlist) rfl (-1) rfl, hunused, fun x => ?_, ?_, ?_⟩
  · simp only [BlockHeap.Uses, hblocks, mem_append, mem_cons, or_and_right,
      exists_or, exists_eq_left, Block.take]
    rw [or_assoc, or_left_comm]
  · exact .inl ⟨b, hb, (hinv.fst_of_mem_free hptr).symm⟩
  · intro b' hb'
    left
    rcases List.mem_append.mp hb' with hb' | hb'
    · exact ⟨b', by simp [hblocks, hb'], rfl⟩
    · rcases List.mem_cons.mp hb' with rfl | hb'
      · exact ⟨b, hb, rfl⟩
      · exact ⟨b', by simp [hblocks, hb'], rfl⟩

theorem allocFrom_addBlock (h : HeapInv bh) (hempty : bh.freeElems = 0) {elems : Nat}
    (hfresh : ∀ b ∈ bh.blocks, b.elems ≠ elems) (hgiven : given elems) :
    ∃ bh' ptr, allocFrom (bh.addBlock elems) = .found bh' ptr ∧ Allocated bh bh' ptr given := by
  have hpos := h.pos
  have hfree : 0 < (bh.addBlock elems).freeElems := by
    simp only [BlockHeap.addBlock]
    omega
  obtain ⟨bh', ptr, hfound, hall⟩ := allocFrom_found (h.addBlock hfresh) hfree
  have huses : ∀ x, (bh.addBlock elems).Uses x ↔ bh.Uses x := fun x => by
    simp [BlockHeap.Uses, BlockHeap.addBlock]
  have helems : ∀ a, (∃ b ∈ (bh.addBlock elems).blocks, b.elems = a) →
      (∃ b ∈ bh.blocks, b.elems = a) ∨ given a := by
    rintro a ⟨b, hb, rfl⟩
    rcases List.mem_cons.mp hb with rfl | hb
    · exact .inr hgiven
    · exact .inl ⟨b, hb, rfl⟩
  refine ⟨bh', ptr, hfound, hall.inv, fun hx => hall.unused ((huses ptr).mpr hx), ?_, ?_, ?_⟩
  · exact fun x => (hall.uses x).trans (or_congr_right (huses x))
  · exact hall.place.elim (helems _) False.elim
  · exact fun b' hb' => (hall.elems b' hb').elim (helems _) False.elim

theorem collect_of_empty (h : HeapInv bh) (hempty : bh.freeElems = 0) :
    blockHeapGarbageCollect bh = bh := by
  have hpos := h.pos
  rw [blockHeapGarbageCollect, if_pos (.inl (by omega))]

theorem blockHeapAlloc_cases (h : HeapInv bh) {first second : Option Nat}
    (hfirst : ∀ a ∈ first, ∀ b ∈ bh.blocks, b.elems ≠ a)
    (hsecond : ∀ a ∈ second, ∀ b ∈ bh.blocks, b.elems ≠ a) :
    (bh.freeElems = 0 ∧ blockHeapAlloc bh first second = .outofmemory) ∨
      ∃ bh' ptr, blockHeapAlloc bh first second = .found bh' ptr ∧
        Allocated bh bh' ptr fun a => a ∈ first ∨ a ∈ second := by
  unfold blockHeapAlloc
  by_cases hempty : bh.freeElems = 0
  · rw [if_pos hempty, collect_of_empty h hempty]
    cases first with
    | some a =>
      exact .inr (allocFrom_addBlock h hempty (hfirst a rfl) (.inl rfl))
    | none =>
      cases second with
      | some a =>
        exact .inr (allocFrom_addBlock h hempty (hsecond a rfl) (.inr rfl))
      | none => exact .inl ⟨hempty, rfl⟩
  · have hnonneg := freeElems_nonneg h.blocks
    rw [← h.count] at hnonneg
    obtain ⟨bh', ptr, hfound, hall⟩ := allocFrom_found h (by omega)
    rw [if_neg hempty]
    exact .inr ⟨bh', ptr, hfound, hall.inv, hall.unused, hall.uses, hall.place.imp_right
      False.elim, fun b' hb' => (hall.elems b' hb').imp_right False.elim⟩

end

/-! ### Freeing -/

section

variable {bh : BlockHeap} {ptr : ElemPtr}

theorem map_at {blocks before after : List Block} {b : Block} (f : Block → Block)
    (hblocks : blocks = before ++ b :: after) (hapart : (blocks.map Block.elems).Nodup) :
    (blocks.map fun c => if c.elems = b.elems then f c else c) = before ++ f b :: after := by
  have hother : ∀ {l : List Block}, b.elems ∉ l.map Block.elems →
      (l.map fun c => if c.elems = b.elems then f c else c) = l := by
    intro l hl
    refine (map_congr_left fun c hc => ?_).trans (map_id l)
    exact if_neg fun heq => hl (List.mem_map.mpr ⟨c, hc, heq⟩)
  rw [hblocks, map_append, map_cons, nodup_middle, nodup_cons,
    mem_append, not_or] at hapart
  rw [hblocks, map_append, map_cons, hother hapart.1.1, hother hapart.1.2, if_pos rfl]

theorem blockHeapFree_some (h : HeapInv bh) (hused : bh.Uses ptr) :
    ∃ bh', blockHeapFree bh ptr = some bh' ∧ HeapInv bh' ∧
      (∀ x, bh'.Uses x ↔ x ≠ ptr ∧ bh.Uses x) ∧
      bh'.blocks.map Block.elems = bh.blocks.map Block.elems := by
  obtain ⟨b, hb, hptr⟩ := hused
  have hinv := h.blocks b hb
  have helems : ptr.1 = b.elems := hinv.fst_of_mem_used hptr
  have hassert : (bh.blocks.any fun b => b.elems == ptr.1 && b.usedList.contains ptr) = true :=
    List.any_eq_true.mpr ⟨b, hb, by simp [helems, hptr]⟩
  obtain ⟨before, after, hblocks⟩ := append_of_mem hb
  have hmap := map_at (fun c => c.release ptr) hblocks h.apart
  have hblock : ∀ c ∈ bh.blocks, ∀ x,
      x ∈ (if c.elems = ptr.1 then c.release ptr else c).usedList ↔ x ≠ ptr ∧ x ∈ c.usedList := by
    intro c hc x
    split
    · exact (List.nodup_append.mp (h.blocks c hc).nodup).2.1.mem_erase_iff
    · rename_i hother
      refine (and_iff_right_of_imp ?_).symm
      rintro hx rfl
      exact hother ((h.blocks c hc).fst_of_mem_used hx).symm
  refine ⟨_, by rw [blockHeapFree, if_pos hassert], ?_, fun x => ?_, ?_⟩
  · rw [helems, hmap]
    exact h.replace hblocks (hinv.release hptr) rfl 1 rfl
  · constructor
    · rintro ⟨c', hc', hx⟩
      obtain ⟨c, hc, rfl⟩ := List.mem_map.mp hc'
      obtain ⟨hne, hmem⟩ := (hblock c hc x).mp hx
      exact ⟨hne, c, hc, hmem⟩
    · rintro ⟨hne, c, hc, hmem⟩
      exact ⟨_, List.mem_map.mpr ⟨c, hc, rfl⟩, (hblock c hc x).mpr ⟨hne, hmem⟩⟩
  · rw [map_map]
    refine map_congr_left fun c _ => ?_
    simp only [Function.comp_apply]
    split <;> rfl

end

/-! ### Collecting -/

section

variable {bh bh' : BlockHeap} {last rest : List Block}

theorem blocks_collectLoop : (collectLoop bh last rest).blocks =
    last.reverse ++ rest.filter fun b => decide (b.freeElems ≠ (bh.elemsPerBlock : Int)) := by
  induction rest generalizing bh last with
  | nil => simp [collectLoop]
  | cons walker rest ih =>
    unfold collectLoop
    split
    · rename_i hfull
      rw [ih, filter_cons_of_neg (by simpa using hfull)]
    · rename_i hused
      rw [ih, filter_cons_of_pos (by simpa using hused)]
      simp

theorem count_collectLoop : (collectLoop bh last rest).freeElems -
    bh.elemsPerBlock * (collectLoop bh last rest).blocksAllocated =
      bh.freeElems - bh.elemsPerBlock * bh.blocksAllocated := by
  induction rest generalizing bh last with
  | nil => rfl
  | cons walker rest ih =>
    unfold collectLoop
    split
    · refine ih.trans ?_
      dsimp only
      ring
    · exact ih

theorem HeapInv.collectLoop (h : HeapInv { bh with blocks := last.reverse ++ rest }) :
    HeapInv (collectLoop bh last rest) := by
  induction rest generalizing bh last with
  | nil =>
    rw [append_nil] at h
    exact h
  | cons walker rest ih =>
    unfold Ircd.collectLoop
    split
    · rename_i hfull
      exact ih (h.remove hfull)
    · refine ih ?_
      rw [reverse_cons, append_assoc]
      exact h

/-- What a collection leaves: the blocks that it takes away have no element in use, and their
elements leave the count once. -/
structure Collected (bh bh' : BlockHeap) : Prop where
  inv : HeapInv bh'
  kept : bh'.blocks.Sublist bh.blocks
  unused : ∀ b ∈ bh.blocks, b ∉ bh'.blocks → b.usedList = []
  count : bh.freeElems - bh'.freeElems =
    bh.elemsPerBlock * (bh.blocks.length - bh'.blocks.length : Int)

theorem collected (h : HeapInv bh) : Collected bh (blockHeapGarbageCollect bh) := by
  unfold blockHeapGarbageCollect
  split
  · exact ⟨h, List.Sublist.refl _, fun b hb hnot => absurd hb hnot, by simp⟩
  · have hinv : HeapInv (collectLoop bh [] bh.blocks) := HeapInv.collectLoop h
    have hblocks := @blocks_collectLoop bh [] bh.blocks
    refine ⟨hinv, ?_, fun b hb hnot => ?_, ?_⟩
    · rw [hblocks]
      exact filter_sublist
    · rw [hblocks] at hnot
      refine ((h.blocks b hb).freeElems_eq_iff).mp ?_
      by_contra hused
      exact hnot (by simpa using ⟨hb, hused⟩)
    · have hcount := @count_collectLoop bh [] bh.blocks
      rw [hinv.allocated, h.allocated] at hcount
      rw [mul_sub]
      omega

theorem Collected.uses (hc : Collected bh bh') (ptr : ElemPtr) :
    bh'.Uses ptr ↔ bh.Uses ptr := by
  constructor
  · rintro ⟨b, hb, hptr⟩
    exact ⟨b, hc.kept.subset hb, hptr⟩
  · rintro ⟨b, hb, hptr⟩
    refine ⟨b, ?_, hptr⟩
    by_contra hnot
    rw [hc.unused b hb hnot] at hptr
    cases hptr

/-- The heap has a single block, or a block with an element in use. -/
def KeepsBlock (bh : BlockHeap) : Prop :=
  bh.blocks.length = 1 ∨ ∃ b ∈ bh.blocks, b.usedList ≠ []

theorem collect_leaves_iff (h : HeapInv bh) :
    (blockHeapGarbageCollect bh).blocks ≠ [] ↔ KeepsBlock bh := by
  unfold blockHeapGarbageCollect KeepsBlock
  split
  · rename_i hstop
    constructor
    · intro hne
      rcases hstop with hfew | hone
      · obtain ⟨b, hb⟩ := exists_mem_of_ne_nil _ hne
        refine .inr ⟨b, hb, fun hnone => ?_⟩
        obtain ⟨before, after, hblocks⟩ := append_of_mem hb
        have hfull := ((h.blocks b hb).freeElems_eq_iff).mpr hnone
        have hall := h.blocks
        have hcount := h.count
        rw [hblocks] at hall hcount
        simp only [map_append, map_cons, sum_append, sum_cons] at hcount
        have hbefore := freeElems_nonneg fun c hc => hall c (mem_append_left _ hc)
        have hafter := freeElems_nonneg fun c hc =>
          hall c (mem_append_right _ (mem_cons_of_mem _ hc))
        omega
      · have hallocated := h.allocated
        exact .inl (by omega)
    · rintro (hone | ⟨b, hb, -⟩) hnone
      · rw [hnone] at hone
        cases hone
      · rw [hnone] at hb
        cases hb
  · rename_i hgo
    have hmany : bh.blocks.length ≠ 1 := fun hone => hgo (.inr (by rw [h.allocated, hone]; rfl))
    rw [blocks_collectLoop, or_iff_right hmany, reverse_nil, nil_append, ne_eq,
      filter_eq_nil_iff]
    simp only [ne_eq, decide_not, Bool.not_eq_true', decide_eq_false_iff_not, not_not, not_forall]
    refine exists_congr fun b => ?_
    rw [exists_prop]
    exact and_congr_right fun hb => not_congr (h.blocks b hb).freeElems_eq_iff

end

/-! ### Runs -/

namespace Process

/-- The heaps are right, their blocks are apart, and what is live is what they have in use. -/
structure Inv (p : Process) : Prop where
  fate : p.fate = .running ∨ p.fate = .outofmemory
  heaps : ∀ bh ∈ p.heaps, HeapInv bh
  apart : ∀ (i j : Nat) (bh bh' : BlockHeap), p.heaps[i]? = some bh → p.heaps[j]? = some bh' →
    ∀ b ∈ bh.blocks, ∀ b' ∈ bh'.blocks, b.elems = b'.elems → i = j
  live : ∀ i ptr, (i, ptr) ∈ p.live ↔ ∃ bh, p.heaps[i]? = some bh ∧ bh.Uses ptr

/-- The heaps in which a call collects. -/
def collects (p : Process) : HeapOp → List BlockHeap
  | .gc => p.heaps
  | .alloc i first _ => p.heaps[i]?.toList.filter fun bh => bh.freeElems = 0 ∧ first = none
  | _ => []

/-- What is right about a process, whatever it calls next: the counts, what an allocation finds,
and what a collection takes away. -/
structure Sound (p : Process) : Prop where
  fate : p.fate = .running ∨ p.fate = .outofmemory
  counts : ∀ bh ∈ p.heaps, bh.freeElems = (bh.blocks.map Block.freeElems).sum ∧
    ∀ b ∈ bh.blocks, b.freeElems = b.freeList.length
  finds : ∀ i bh first second, p.heaps[i]? = some bh → p.Proper (.alloc i first second) →
    (∃ bh' ptr, blockHeapAlloc bh first second = .found bh' ptr ∧ ∀ j, (j, ptr) ∉ p.live) ∨
      bh.freeElems = 0 ∧ blockHeapAlloc bh first second = .outofmemory
  frees : ∀ i bh ptr, p.heaps[i]? = some bh → (i, ptr) ∈ p.live → blockHeapFree bh ptr ≠ none
  takes : ∀ bh ∈ p.heaps, Collected bh (blockHeapGarbageCollect bh) ∧
    ∀ b ∈ bh.blocks, b ∉ (blockHeapGarbageCollect bh).blocks →
      ∀ j ptr, (j, ptr) ∈ p.live → ptr.1 ≠ b.elems

variable {p : Process} {i : Nat} {bh bh' : BlockHeap} {ptr : ElemPtr}

theorem Inv.block (h : p.Inv) (hlive : (i, ptr) ∈ p.live) : ∃ bh, p.heaps[i]? = some bh ∧
    ∃ b ∈ bh.blocks, ptr ∈ b.usedList ∧ ptr.1 = b.elems := by
  obtain ⟨bh, hi, b, hb, hptr⟩ := (h.live i ptr).mp hlive
  have hinv := h.heaps bh (mem_of_getElem? hi)
  exact ⟨bh, hi, b, hb, hptr, (hinv.blocks b hb).fst_of_mem_used hptr⟩

theorem Inv.set (h : p.Inv) (hi : p.heaps[i]? = some bh) (hinv : HeapInv bh')
    (helems : ∀ b' ∈ bh'.blocks, (∃ b ∈ bh.blocks, b.elems = b'.elems) ∨ p.Fresh b'.elems)
    {live : Finset (Nat × ElemPtr)} (hsame : ∀ x, (i, x) ∈ live ↔ bh'.Uses x)
    (hother : ∀ j x, j ≠ i → ((j, x) ∈ live ↔ (j, x) ∈ p.live)) :
    Inv { p with heaps := p.heaps.set i bh', live := live } := by
  have hlt : i < p.heaps.length := (List.getElem?_eq_some_iff.mp hi).1
  have hget : (p.heaps.set i bh')[i]? = some bh' := getElem?_set_self hlt
  have hne : ∀ {j}, j ≠ i → (p.heaps.set i bh')[j]? = p.heaps[j]? := fun hj =>
    getElem?_set_ne (Ne.symm hj)
  -- a block of the new heap and one of another heap
  have hcross : ∀ {j c}, j ≠ i → p.heaps[j]? = some c → ∀ b' ∈ bh'.blocks, ∀ b ∈ c.blocks,
      b'.elems ≠ b.elems := by
    intro j c hj hc b' hb' b hb heq
    rcases helems b' hb' with ⟨b₀, hb₀, hsame⟩ | hfresh
    · exact hj (h.apart j i c bh hc hi b hb b₀ hb₀ (heq.symm.trans hsame.symm))
    · exact hfresh c (mem_of_getElem? hc) b hb heq.symm
  refine ⟨h.fate, ?_, ?_, ?_⟩
  · intro c hc
    rcases mem_or_eq_of_mem_set hc with hc | rfl
    · exact h.heaps c hc
    · exact hinv
  · intro j k c d hj hk b hb b' hb' heq
    by_cases hji : j = i
    · by_cases hki : k = i
      · rw [hji, hki]
      · subst hji
        rw [hget] at hj
        rw [hne hki] at hk
        cases hj
        exact absurd heq (hcross hki hk b hb b' hb')
    · rw [hne hji] at hj
      by_cases hki : k = i
      · subst hki
        rw [hget] at hk
        cases hk
        exact absurd heq.symm (hcross hji hj b' hb' b hb)
      · rw [hne hki] at hk
        exact h.apart j k c d hj hk b hb b' hb' heq
  · intro j x
    by_cases hji : j = i
    · subst hji
      rw [hsame, hget]
      simp
    · rw [hother j x hji, h.live, hne hji]

theorem inv_start : start.Inv :=
  ⟨.inl rfl, fun bh hbh => (not_mem_nil hbh).elim, fun i j bh bh' hi => by simp [start] at hi,
    fun i ptr => by simp [start]⟩

theorem heapInv_create {elemsize : Nat} {elemsperblock : Int} {elems : Option Nat}
    (h : blockHeapCreate elemsize elemsperblock elems = some bh) : ∃ a, elems = some a ∧
      HeapInv bh ∧ (∀ b ∈ bh.blocks, b.elems = a) ∧ ∀ x, ¬bh.Uses x := by
  unfold blockHeapCreate at h
  split at h
  · cases h
  · rename_i hgood
    cases elems with
    | none => cases h
    | some a =>
      have hpos : 0 < elemsperblock.toNat := by omega
      have hempty : HeapInv ⟨elemsperblock.toNat, 0, 0, []⟩ :=
        ⟨hpos, fun b hb => (not_mem_nil hb).elim, rfl, rfl, nodup_nil⟩
      obtain rfl : _ = bh := Option.some.inj h
      refine ⟨a, rfl, hempty.addBlock fun b hb => (not_mem_nil hb).elim, ?_, ?_⟩
      · intro b hb
        obtain rfl := List.mem_singleton.mp hb
        rfl
      · rintro x ⟨b, hb, hx⟩
        obtain rfl := List.mem_singleton.mp hb
        cases hx

theorem getElem?_concat {heaps : List BlockHeap} :
    (heaps ++ [bh])[i]? = some bh' ↔
      heaps[i]? = some bh' ∨ i = heaps.length ∧ bh' = bh := by
  rcases lt_or_ge i heaps.length with hlt | hge
  · rw [getElem?_append_left hlt]
    exact (or_iff_left fun h => absurd h.1 hlt.ne).symm
  · rw [getElem?_append_right hge, getElem?_eq_none hge]
    rcases hge.eq_or_lt with heq | hlt
    · simp [← heq, eq_comm]
    · have hpos : i - heaps.length ≠ 0 := by omega
      simp [hpos, hlt.ne']

theorem Inv.add (h : p.Inv) (hinv : HeapInv bh) (hfresh : ∀ b ∈ bh.blocks, p.Fresh b.elems)
    (hnone : ∀ x, ¬bh.Uses x) : Inv { p with heaps := p.heaps ++ [bh] } := by
  refine ⟨h.fate, ?_, ?_, ?_⟩
  · intro c hc
    rcases List.mem_append.mp hc with hc | hc
    · exact h.heaps c hc
    · rw [List.mem_singleton.mp hc]
      exact hinv
  · intro j k c d hj hk b hb b' hb' heq
    rcases getElem?_concat.mp hj with hold | ⟨rfl, rfl⟩
    · rcases getElem?_concat.mp hk with hold' | ⟨rfl, rfl⟩
      · exact h.apart j k c d hold hold' b hb b' hb' heq
      · exact absurd heq (hfresh b' hb' c (mem_of_getElem? hold) b hb)
    · rcases getElem?_concat.mp hk with hold' | ⟨rfl, -⟩
      · exact absurd heq.symm (hfresh b hb d (mem_of_getElem? hold') b' hb')
      · rfl
  · intro j x
    rw [h.live]
    constructor
    · rintro ⟨c, hc, hx⟩
      exact ⟨c, getElem?_concat.mpr (.inl hc), hx⟩
    · rintro ⟨c, hc, hx⟩
      rcases getElem?_concat.mp hc with hc | ⟨-, rfl⟩
      · exact ⟨c, hc, hx⟩
      · exact absurd hx (hnone x)

theorem Inv.collect (h : p.Inv) :
    Inv { p with heaps := p.heaps.map blockHeapGarbageCollect } := by
  have hget : ∀ {j : Nat} {c : BlockHeap}, (p.heaps.map blockHeapGarbageCollect)[j]? = some c →
      ∃ bh, p.heaps[j]? = some bh ∧ c = blockHeapGarbageCollect bh := by
    intro j c hc
    rw [getElem?_map, Option.map_eq_some_iff] at hc
    obtain ⟨bh, hbh, rfl⟩ := hc
    exact ⟨bh, hbh, rfl⟩
  have hall : ∀ {j : Nat} {bh : BlockHeap}, p.heaps[j]? = some bh →
      Collected bh (blockHeapGarbageCollect bh) := fun hj =>
     collected (h.heaps _ (mem_of_getElem? hj))
  refine ⟨h.fate, ?_, ?_, ?_⟩
  · intro c hc
    obtain ⟨bh, hbh, rfl⟩ := List.mem_map.mp hc
    exact (collected (h.heaps bh hbh)).inv
  · intro j k c d hj hk b hb b' hb' heq
    obtain ⟨bh, hbh, rfl⟩ := hget hj
    obtain ⟨bh', hbh', rfl⟩ := hget hk
    exact h.apart j k bh bh' hbh hbh' b ((hall hbh).kept.subset hb) b'
      ((hall hbh').kept.subset hb') heq
  · intro j x
    rw [h.live]
    constructor
    · rintro ⟨bh, hbh, hx⟩
      exact ⟨_, by rw [getElem?_map, hbh]; rfl, ((hall hbh).uses x).mpr hx⟩
    · rintro ⟨c, hc, hx⟩
      obtain ⟨bh, hbh, rfl⟩ := hget hc
      exact ⟨bh, hbh, ((hall hbh).uses x).mp hx⟩

theorem Fresh.heap {a : Nat} (hfresh : p.Fresh a) (hi : p.heaps[i]? = some bh) :
    ∀ b ∈ bh.blocks, b.elems ≠ a := hfresh bh (mem_of_getElem? hi)

theorem Inv.notMem_live (h : p.Inv) (hi : p.heaps[i]? = some bh) {given : Nat → Prop}
    (hall : Allocated bh bh' ptr given) (hgiven : ∀ a, given a → p.Fresh a) (j : Nat) :
    (j, ptr) ∉ p.live := by
  intro hlive
  obtain ⟨c, hc, b', hb', hused, helems⟩ := h.block hlive
  rcases hall.place with ⟨b, hb, hplace⟩ | hnew
  · obtain rfl := h.apart j i c bh hc hi b' hb' b hb (helems.symm.trans hplace.symm)
    obtain rfl : c = bh := Option.some.inj (hc.symm.trans hi)
    exact hall.unused ⟨b', hb', hused⟩
  · exact hgiven _ hnew c (mem_of_getElem? hc) b' hb' helems.symm

theorem Inv.step (h : p.Inv) {op : HeapOp} (hproper : p.Proper op) : (p.step op).Inv := by
  unfold Process.step
  split
  · exact h
  cases op with
  | create elemsize elemsperblock elems =>
    dsimp only
    split
    · rename_i bh hcreate
      obtain ⟨a, rfl, hinv, helems, hnone⟩ := heapInv_create hcreate
      refine h.add hinv (fun b hb => ?_) hnone
      rw [helems b hb]
      exact hproper a rfl
    · exact ⟨.inr rfl, h.heaps, h.apart, h.live⟩
  | alloc i first second =>
    obtain ⟨hlt, hfirst, hsecond⟩ := hproper
    obtain ⟨bh, hi⟩ : ∃ bh, p.heaps[i]? = some bh := ⟨_, getElem?_eq_getElem hlt⟩
    have hinv := h.heaps bh (mem_of_getElem? hi)
    have hgiven : ∀ a, a ∈ first ∨ a ∈ second → p.Fresh a := fun a ha =>
      ha.elim (hfirst a) (hsecond a)
    dsimp only
    rw [hi]
    dsimp only
    rcases blockHeapAlloc_cases hinv (fun a ha => (hfirst a ha).heap hi) fun a ha =>
      (hsecond a ha).heap hi with ⟨-, hout⟩ | ⟨bh', ptr, hfound, hall⟩
    · rw [hout]
      exact ⟨.inr rfl, h.heaps, h.apart, h.live⟩
    · rw [hfound]
      refine h.set hi hall.inv (fun b' hb' => (hall.elems b' hb').imp_right (hgiven _)) ?_ ?_
      · intro x
        have hlive : (i, x) ∈ p.live ↔ bh.Uses x := by
          rw [h.live, hi]
          simp
        rw [Finset.mem_insert, hall.uses, hlive]
        simp
      · intro j x hj
        rw [Finset.mem_insert]
        exact or_iff_right fun heq => hj (congrArg Prod.fst heq)
  | free i ptr =>
    obtain ⟨bh, hi, hused⟩ := (h.live i ptr).mp hproper
    obtain ⟨bh', hfree, hinv, huses, helems⟩ :=
      blockHeapFree_some (h.heaps bh (mem_of_getElem? hi)) hused
    dsimp only
    rw [hi]
    dsimp only
    rw [hfree]
    refine h.set hi hinv (fun b' hb' => .inl ?_) ?_ ?_
    · have hmem : b'.elems ∈ bh.blocks.map Block.elems :=
        helems ▸ List.mem_map.mpr ⟨b', hb', rfl⟩
      exact List.mem_map.mp hmem
    · intro x
      have hlive : (i, x) ∈ p.live ↔ bh.Uses x := by
        rw [h.live, hi]
        simp
      rw [Finset.mem_erase, huses, hlive]
      simp
    · intro j x hj
      rw [Finset.mem_erase]
      exact and_iff_right fun heq => hj (congrArg Prod.fst heq)
  | gc => exact h.collect

theorem Inv.sound (h : p.Inv) : p.Sound := by
  refine ⟨h.fate, ?_, ?_, ?_, ?_⟩
  · exact fun bh hbh => ⟨(h.heaps bh hbh).count, fun b hb => ((h.heaps bh hbh).blocks b hb).count⟩
  · rintro i bh first second hi ⟨-, hfirst, hsecond⟩
    rcases blockHeapAlloc_cases (h.heaps bh (mem_of_getElem? hi))
      (fun a ha => (hfirst a ha).heap hi) fun a ha => (hsecond a ha).heap hi
      with hout | ⟨bh', ptr, hfound, hall⟩
    · exact .inr hout
    · refine .inl ⟨bh', ptr, hfound, h.notMem_live hi hall fun a ha => ?_⟩
      exact ha.elim (hfirst a) (hsecond a)
  · intro i bh ptr hi hlive
    obtain ⟨c, hc, hused⟩ := (h.live i ptr).mp hlive
    obtain rfl : c = bh := Option.some.inj (hc.symm.trans hi)
    obtain ⟨bh', hfree, -⟩ := blockHeapFree_some (h.heaps c (mem_of_getElem? hc)) hused
    rw [hfree]
    exact Option.some_ne_none _
  · intro bh hbh
    have hall := collected (h.heaps bh hbh)
    refine ⟨hall, fun b hb hgone j ptr hlive heq => ?_⟩
    obtain ⟨i, hi⟩ := List.mem_iff_getElem?.mp hbh
    obtain ⟨c, hc, b', hb', hused, helems⟩ := h.block hlive
    obtain rfl := h.apart j i c bh hc hi b' hb' b hb (helems.symm.trans heq)
    obtain rfl : c = bh := Option.some.inj (hc.symm.trans hi)
    obtain rfl : b' = b := (h.heaps c hbh).eq_of_elems hb' hb (helems.symm.trans heq)
    rw [hall.unused b' hb' hgone] at hused
    cases hused

theorem mem_of_collects {op : HeapOp} (h : bh ∈ p.collects op) : bh ∈ p.heaps := by
  unfold collects at h
  split at h
  · exact h
  · exact mem_of_getElem? (Option.mem_toList.mp (List.mem_filter.mp h).1)
  · cases h

theorem inv_exec {ops done : List HeapOp} (hproper : Run.Guarded step Proper start ops)
    (hdone : done <+: ops) : (Run.exec step start done).Inv :=
  Run.inv_exec (fun _ _ h hproper => h.step hproper) inv_start (hproper.initial hdone)

end Process

/-- In every run the counts agree, an allocation finds an element that is live nowhere unless
the heap has none and gets no memory, and a collection takes away blocks in which nothing is in
use and takes their elements from the count once. It always leaves a block just when it never
comes to a heap of several blocks without an element in use. -/
theorem block_heap_iff {ops : List HeapOp}
    (hproper : Run.Guarded Process.step Process.Proper Process.start ops) :
    (∀ done, done <+: ops → (Run.exec Process.step Process.start done).Sound) ∧
      ((∀ done op, done ++ [op] <+: ops →
          ∀ bh ∈ (Run.exec Process.step Process.start done).collects op,
            (blockHeapGarbageCollect bh).blocks ≠ []) ↔
        Run.Guarded Process.step (fun p op => ∀ bh ∈ p.collects op, KeepsBlock bh) Process.start
          ops) := by
  refine ⟨fun done hdone => (Process.inv_exec hproper hdone).sound, ?_⟩
  have hsteps := @Run.steps_iff_guarded _ _ Process.step
    (fun p op => ∀ bh ∈ p.collects op, KeepsBlock bh) (fun _ => True)
    (fun p op _ => ∀ bh ∈ p.collects op, KeepsBlock bh) (fun _ _ _ _ => trivial)
    (fun _ _ _ => Iff.rfl) Process.start ops trivial
  rw [← hsteps]
  refine forall₂_congr fun done op => forall_congr' fun hdone => ?_
  have hinv := Process.inv_exec hproper ((prefix_append done [op]).trans hdone)
  refine forall₂_congr fun bh hbh => ?_
  exact collect_leaves_iff (hinv.heaps bh (Process.mem_of_collects hbh))

/-- Three clients come and two go again, with two clients in a block. -/
def threeClients : List HeapOp :=
  [.create 8 2 (some 100), .alloc 0 none none, .alloc 0 none none, .alloc 0 (some 200) none,
    .free 0 (100, 1), .free 0 (100, 0), .gc]

theorem threeClients_proper :
    Run.Guarded Process.step Process.Proper Process.start threeClients :=
  ⟨by decide, by decide, by decide, by decide, by decide, by decide, by decide, trivial⟩

theorem block_heap_iff_threeClients :
    (Run.exec Process.step Process.start threeClients).Sound ∧
      (Run.exec Process.step Process.start threeClients).live = {(0, (200, 1))} :=
  ⟨(block_heap_iff threeClients_proper).1 threeClients (prefix_refl _), by decide⟩

def nobodyLeft : List HeapOp := threeClients.dropLast ++ [.free 0 (200, 1), .gc]

theorem nobodyLeft_loses_blocks :
    Run.Guarded Process.step Process.Proper Process.start nobodyLeft ∧
      (Run.exec Process.step Process.start nobodyLeft).heaps.map BlockHeap.blocks = [[]] :=
  ⟨⟨by decide, by decide, by decide, by decide, by decide, by decide, by decide, trivial, trivial⟩,
    by decide⟩

end Ircd
