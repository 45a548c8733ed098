import Ircd.Lib.Run
import Mathlib.Data.Finset.Erase
import Mathlib.Data.Finset.Insert
import Mathlib.Data.List.Infix
import Mathlib.Data.List.Nodup
import Mathlib.Logic.Function.Basic

/-!
The books of a hub about its lazy leaves: `nextFreeMask`, `add_lazylinkchannel`,
`remove_lazylink_flags` and what `destroy_channel` does to `lazylink_channels`.

A channel is put on the list each time a leaf takes an interest in it, and
`destroy_channel` takes it off once.

- `lazylinks_consistent_iff`: the books are right in every state of a run exactly if no
  channel is added that a leaf knows already.
-/

namespace Ircd

open Function

abbrev ChanAddr := Nat

/-- A lazy leaf: which client it is, and its `serverMask`. -/
structure LazyLeaf where
  server : Nat
  serverMask : BitVec 64
  deriving DecidableEq, Repr

/-- What a hub knows of its lazy leaves. `channelExists` is the field `lazyLinkChannelExists`
at an address, also of a channel that is freed, and `clientExists` that of a client. -/
structure LazyHub where
  freeMask : BitVec 64
  leaves : List LazyLeaf
  channels : Finset ChanAddr
  channelExists : ChanAddr → BitVec 64
  clientExists : Nat → BitVec 64
  lazylinkChannels : List ChanAddr

namespace LazyHub

/-- The hub after `initServerMask`, without a channel. -/
def start : LazyHub := ⟨0xFFFFFFFF, [], ∅, fun _ => 0, fun _ => 0, []⟩

/-- The loop of `nextFreeMask`, with the turns left. -/
def nextFreeMaskFrom (freeMask : BitVec 64) : Nat → BitVec 64 → BitVec 64 × BitVec 64
  | 0, _ => (0, freeMask)
  | n + 1, mask =>
    if mask &&& freeMask ≠ 0 then (mask, freeMask &&& ~~~mask)
    else nextFreeMaskFrom freeMask n (mask <<< 1)

/-- `nextFreeMask`: the mask and the new `freeMask`. -/
def nextFreeMask (freeMask : BitVec 64) : BitVec 64 × BitVec 64 := nextFreeMaskFrom freeMask 32 1

/-- A leaf with `CAP_LL` is linked. Without a free mask the capability is taken from it. -/
def link (s : LazyHub) (server : Nat) : LazyHub :=
  let (mask, freeMask) := nextFreeMask s.freeMask
  if mask = 0 then { s with freeMask := freeMask }
  else { s with freeMask := freeMask, leaves := ⟨server, mask⟩ :: s.leaves }

/-- `add_lazylinkchannel`. -/
def addLazylinkchannel (s : LazyHub) (leaf : LazyLeaf) (chptr : ChanAddr) : LazyHub :=
  { s with
    channelExists := update s.channelExists chptr
      (s.channelExists chptr ||| leaf.serverMask)
    lazylinkChannels := chptr :: s.lazylinkChannels }

/-- `add_lazylinkclient`. -/
def addLazylinkclient (s : LazyHub) (leaf : LazyLeaf) (client : Nat) : LazyHub :=
  { s with
    clientExists := update s.clientExists client
      (s.clientExists client ||| leaf.serverMask) }

/-- The loop of `remove_lazylink_flags` over the list of channels. -/
def removeLoop (clearMask : BitVec 64) :
    List ChanAddr → (ChanAddr → BitVec 64) → List ChanAddr × (ChanAddr → BitVec 64)
  | [], field => ([], field)
  | chptr :: rest, field =>
    let flags := field chptr &&& clearMask
    let (kept, field) := removeLoop clearMask rest (update field chptr flags)
    (if flags = 0 then kept else chptr :: kept, field)

/-- `remove_lazylink_flags`. -/
def removeLazylinkFlags (s : LazyHub) (mask : BitVec 64) : LazyHub :=
  if mask = 0 then s
  else
    let (kept, field) := removeLoop (~~~mask) s.lazylinkChannels s.channelExists
    { s with
      freeMask := s.freeMask ||| mask
      channelExists := field
      lazylinkChannels := kept
      clientExists := fun c => s.clientExists c &&& ~~~mask }

def unlink (s : LazyHub) (leaf : LazyLeaf) : LazyHub :=
  { s.removeLazylinkFlags leaf.serverMask with leaves := s.leaves.erase leaf }

/-- A channel is created at an address that is free, with its fields zero. -/
def createChannel (s : LazyHub) (chptr : ChanAddr) : LazyHub :=
  { s with
    channels := insert chptr s.channels
    channelExists := update s.channelExists chptr 0 }

/-- `destroy_channel`: one entry of the list goes with the channel. -/
def destroyChannel (s : LazyHub) (chptr : ChanAddr) : LazyHub :=
  { s with
    channels := s.channels.erase chptr
    lazylinkChannels := s.lazylinkChannels.erase chptr }

end LazyHub

/-- What happens at a hub. -/
inductive LazyOp
  | link (server : Nat)
  | unlink (leaf : LazyLeaf)
  | addChannel (leaf : LazyLeaf) (chptr : ChanAddr)
  | addClient (leaf : LazyLeaf) (client : Nat)
  | create (chptr : ChanAddr)
  | destroy (chptr : ChanAddr)
  deriving DecidableEq, Repr

namespace LazyHub

/-- One operation; it is about a leaf that is linked, a channel that exists, a free address. -/
def step (s : LazyHub) : LazyOp → LazyHub
  | .link server => s.link server
  | .unlink leaf => if leaf ∈ s.leaves then s.unlink leaf else s
  | .addChannel leaf chptr =>
    if leaf ∈ s.leaves ∧ chptr ∈ s.channels then s.addLazylinkchannel leaf chptr else s
  | .addClient leaf client => if leaf ∈ s.leaves then s.addLazylinkclient leaf client else s
  | .create chptr => if chptr ∈ s.channels then s else s.createChannel chptr
  | .destroy chptr => if chptr ∈ s.channels then s.destroyChannel chptr else s

/-- The books are right: the list has existing channels that a leaf knows, each once, and no
bit belongs to two leaves, or to a leaf and to `freeMask`. -/
structure Consistent (s : LazyHub) : Prop where
  listed_exist : ∀ chptr ∈ s.lazylinkChannels, chptr ∈ s.channels
  listed_nodup : s.lazylinkChannels.Nodup
  listed_known : ∀ chptr ∈ s.lazylinkChannels, s.channelExists chptr ≠ 0
  leaves_disjoint : s.leaves.Pairwise fun a b => a.serverMask &&& b.serverMask = 0
  leaves_free : ∀ leaf ∈ s.leaves, leaf.serverMask &&& s.freeMask = 0

/-- The addition of a channel that no leaf knows yet. -/
def Fresh (s : LazyHub) : LazyOp → Prop
  | .addChannel leaf chptr =>
    leaf ∈ s.leaves → chptr ∈ s.channels → s.channelExists chptr = 0
  | _ => True

/-- The books are right, leaves have a mask, and channels that a leaf knows are on the list. -/
structure Inv (s : LazyHub) : Prop extends Consistent s where
  leaves_masked : ∀ leaf ∈ s.leaves, leaf.serverMask ≠ 0
  known_listed : ∀ chptr ∈ s.channels, s.channelExists chptr ≠ 0 → chptr ∈ s.lazylinkChannels

/-! ### Masks -/

/-- A mask is a bit that `freeMask` had and has no more; without one nothing changes. -/
def TakesBit (freeMask : BitVec 64) (result : BitVec 64 × BitVec 64) : Prop :=
  result = (0, freeMask) ∨
    result.1 ≠ 0 ∧ result.2 = freeMask &&& ~~~result.1 ∧ result.1 &&& freeMask = result.1

theorem takesBit_nextFreeMaskFrom (freeMask : BitVec 64) (n i : Nat) :
    TakesBit freeMask (nextFreeMaskFrom freeMask n (BitVec.twoPow 64 i)) := by
  induction n generalizing i with
  | zero => exact Or.inl rfl
  | succ n ih =>
    unfold nextFreeMaskFrom
    by_cases hbit : BitVec.twoPow 64 i &&& freeMask ≠ 0
    · rw [if_pos hbit]
      refine Or.inr ⟨?_, rfl, ?_⟩
      · intro hzero
        simp only at hzero
        rw [hzero] at hbit
        exact hbit BitVec.zero_and
      · rw [BitVec.twoPow_and] at hbit ⊢
        split at hbit
        · rename_i hset
          rw [if_pos hset]
        · exact absurd rfl hbit
    · rw [if_neg hbit]
      have hnext : BitVec.twoPow 64 i <<< 1 = BitVec.twoPow 64 (i + 1) := by
        rw [BitVec.twoPow_eq, BitVec.twoPow_eq, BitVec.shiftLeft_add]
      rw [hnext]
      exact ih (i + 1)

theorem takesBit_nextFreeMask (freeMask : BitVec 64) : TakesBit freeMask (nextFreeMask freeMask) :=
  takesBit_nextFreeMaskFrom freeMask 32 0

/-! ### The steps -/

theorem removeLoop_spec (clearMask : BitVec 64) {l : List ChanAddr} (hl : l.Nodup)
    (field : ChanAddr → BitVec 64) : removeLoop clearMask l field =
      (l.filter fun c => field c &&& clearMask ≠ 0,
        fun c => if c ∈ l then field c &&& clearMask else field c) := by
  induction l generalizing field with
  | nil => simp [removeLoop]
  | cons chptr l ih =>
    obtain ⟨hnot, hnodup⟩ := List.nodup_cons.mp hl
    rw [removeLoop, ih hnodup]
    have hkept : (l.filter fun c => update field chptr (field chptr &&& clearMask) c &&&
        clearMask ≠ 0) = l.filter fun c => field c &&& clearMask ≠ 0 := by
      refine List.filter_congr fun c hc => ?_
      have hne : c ≠ chptr := by
        rintro rfl
        exact hnot hc
      rw [update_of_ne hne]
    refine Prod.ext ?_ (funext fun c => ?_)
    · simp only [hkept, List.filter_cons]
      by_cases hzero : field chptr &&& clearMask = 0 <;> simp [hzero]
    · by_cases heq : c = chptr
      · subst heq
        simp [hnot]
      · simp [heq]

theorem Inv.link {s : LazyHub} (h : s.Inv) (server : Nat) : (s.link server).Inv := by
  unfold LazyHub.link
  rcases takesBit_nextFreeMask s.freeMask with heq | ⟨hne, hfree, hbit⟩
  · rw [heq]
    exact { h with }
  · generalize nextFreeMask s.freeMask = result at hne hfree hbit
    obtain ⟨mask, free⟩ := result
    simp only at hne hfree hbit
    simp only [if_neg hne, hfree]
    have hdisjoint : ∀ leaf ∈ s.leaves, mask &&& leaf.serverMask = 0 := by
      intro leaf hleaf
      rw [← hbit, BitVec.and_assoc, BitVec.and_comm s.freeMask, h.leaves_free leaf hleaf]
      exact BitVec.and_zero
    refine ⟨⟨h.listed_exist, h.listed_nodup, h.listed_known, ?_, ?_⟩, ?_, h.known_listed⟩
    · exact List.pairwise_cons.mpr ⟨hdisjoint, h.leaves_disjoint⟩
    · intro leaf hleaf
      rcases List.mem_cons.mp hleaf with rfl | hleaf
      · simp only
        rw [BitVec.and_comm s.freeMask, ← BitVec.and_assoc, BitVec.and_not_self]
        exact BitVec.zero_and
      · simp only
        rw [← BitVec.and_assoc, h.leaves_free leaf hleaf]
        exact BitVec.zero_and
    · intro leaf hleaf
      rcases List.mem_cons.mp hleaf with rfl | hleaf
      · exact hne
      · exact h.leaves_masked leaf hleaf

theorem Inv.unlink {s : LazyHub} (h : s.Inv) {leaf : LazyLeaf} (hleaf : leaf ∈ s.leaves) :
    (s.unlink leaf).Inv := by
  have hmask : leaf.serverMask ≠ 0 := h.leaves_masked leaf hleaf
  have hothers : ∀ other ∈ s.leaves.erase leaf, other.serverMask &&& leaf.serverMask = 0 := by
    have hperm : s.leaves.Perm (leaf :: s.leaves.erase leaf) := List.perm_cons_erase hleaf
    have hpairs := (hperm.pairwise_iff fun {a b} hab => (BitVec.and_comm _ _).trans hab).mp
        h.leaves_disjoint
    intro other hother
    rw [BitVec.and_comm]
    exact (List.pairwise_cons.mp hpairs).1 other hother
  have hremoved := removeLoop_spec (~~~leaf.serverMask) h.listed_nodup s.channelExists
  simp only [LazyHub.unlink, removeLazylinkFlags, if_neg hmask, hremoved]
  refine ⟨⟨?_, ?_, ?_, ?_, ?_⟩, ?_, ?_⟩
  · intro chptr hmem
    exact h.listed_exist chptr (List.mem_of_mem_filter hmem)
  · exact h.listed_nodup.filter _
  · intro chptr hmem
    obtain ⟨hlisted, hkept⟩ := List.mem_filter.mp hmem
    simpa only [if_pos hlisted, decide_eq_true_eq] using hkept
  · exact h.leaves_disjoint.sublist List.erase_sublist
  · intro other hother
    have hfree := h.leaves_free other (List.mem_of_mem_erase hother)
    simp only [BitVec.and_or_distrib_left, hfree, hothers other hother, BitVec.or_self]
  · intro other hother
    exact h.leaves_masked other (List.mem_of_mem_erase hother)
  · intro chptr hmem hknown
    by_cases hlisted : chptr ∈ s.lazylinkChannels
    · simp only [if_pos hlisted] at hknown
      exact List.mem_filter.mpr ⟨hlisted, decide_eq_true hknown⟩
    · simp only [if_neg hlisted] at hknown
      exact absurd (h.known_listed chptr hmem hknown) hlisted

theorem Inv.not_listed {s : LazyHub} (h : s.Inv) {chptr : ChanAddr}
    (hzero : s.channelExists chptr = 0) :
    chptr ∉ s.lazylinkChannels :=
  fun hmem => h.listed_known chptr hmem hzero

theorem Inv.addLazylinkchannel {s : LazyHub} (h : s.Inv) {leaf : LazyLeaf} (hleaf : leaf ∈ s.leaves)
    {chptr : ChanAddr} (hchptr : chptr ∈ s.channels) (hfresh : s.channelExists chptr = 0) :
    (s.addLazylinkchannel leaf chptr).Inv := by
  refine ⟨⟨?_, ?_, ?_, h.leaves_disjoint, h.leaves_free⟩, h.leaves_masked, ?_⟩
  · intro other hmem
    rcases List.mem_cons.mp hmem with rfl | hmem
    · exact hchptr
    · exact h.listed_exist other hmem
  · exact List.nodup_cons.mpr ⟨h.not_listed hfresh, h.listed_nodup⟩
  · intro other hmem
    by_cases heq : other = chptr
    · subst heq
      have hflags : s.channelExists other ||| leaf.serverMask = leaf.serverMask := by
        rw [hfresh]
        exact BitVec.zero_or
      simp only [LazyHub.addLazylinkchannel, update_self, hflags]
      exact h.leaves_masked leaf hleaf
    · simp only [LazyHub.addLazylinkchannel, update_of_ne heq]
      exact h.listed_known other ((List.mem_cons.mp hmem).resolve_left heq)
  · intro other hmem hknown
    by_cases heq : other = chptr
    · exact heq ▸ List.mem_cons_self
    · simp only [LazyHub.addLazylinkchannel, update_of_ne heq] at hknown
      exact List.mem_cons_of_mem _ (h.known_listed other hmem hknown)

theorem Inv.createChannel {s : LazyHub} (h : s.Inv) {chptr : ChanAddr} (hnew : chptr ∉ s.channels) :
    (s.createChannel chptr).Inv := by
  have hother : ∀ other ∈ s.lazylinkChannels, other ≠ chptr := by
    rintro other hmem rfl
    exact hnew (h.listed_exist other hmem)
  refine ⟨⟨?_, h.listed_nodup, ?_, h.leaves_disjoint, h.leaves_free⟩, h.leaves_masked, ?_⟩
  · intro other hmem
    exact Finset.mem_insert_of_mem (h.listed_exist other hmem)
  · intro other hmem
    simp only [LazyHub.createChannel, update_of_ne (hother other hmem)]
    exact h.listed_known other hmem
  · intro other hmem hknown
    by_cases heq : other = chptr
    · subst heq
      simp only [LazyHub.createChannel, update_self] at hknown
      exact absurd rfl hknown
    · simp only [LazyHub.createChannel, update_of_ne heq] at hknown
      exact h.known_listed other ((Finset.mem_insert.mp hmem).resolve_left heq) hknown

theorem Inv.destroyChannel {s : LazyHub} (h : s.Inv) (chptr : ChanAddr) :
    (s.destroyChannel chptr).Inv := by
  refine ⟨⟨?_, h.listed_nodup.erase chptr, ?_, h.leaves_disjoint, h.leaves_free⟩, h.leaves_masked,
    ?_⟩
  · intro other hmem
    obtain ⟨hne, hlisted⟩ := h.listed_nodup.mem_erase_iff.mp hmem
    exact Finset.mem_erase.mpr ⟨hne, h.listed_exist other hlisted⟩
  · intro other hmem
    exact h.listed_known other (List.mem_of_mem_erase hmem)
  · intro other hmem hknown
    obtain ⟨hne, hexists⟩ := Finset.mem_erase.mp hmem
    exact h.listed_nodup.mem_erase_iff.mpr ⟨hne, h.known_listed other hexists hknown⟩

theorem inv_start : start.Inv := by
  refine ⟨⟨nofun, List.nodup_nil, nofun, List.Pairwise.nil, nofun⟩, nofun, nofun⟩

theorem Inv.step {s : LazyHub} {op : LazyOp} (h : s.Inv) (hop : s.Fresh op) : (s.step op).Inv := by
  cases op with
  | link server => exact h.link server
  | unlink leaf =>
    by_cases hleaf : leaf ∈ s.leaves
    · rw [LazyHub.step, if_pos hleaf]
      exact h.unlink hleaf
    · rw [LazyHub.step, if_neg hleaf]
      exact h
  | addChannel leaf chptr =>
    by_cases hvalid : leaf ∈ s.leaves ∧ chptr ∈ s.channels
    · rw [LazyHub.step, if_pos hvalid]
      exact h.addLazylinkchannel hvalid.1 hvalid.2 (hop hvalid.1 hvalid.2)
    · rw [LazyHub.step, if_neg hvalid]
      exact h
  | addClient leaf client =>
    by_cases hleaf : leaf ∈ s.leaves
    · rw [LazyHub.step, if_pos hleaf]
      exact { h with }
    · rw [LazyHub.step, if_neg hleaf]
      exact h
  | create chptr =>
    by_cases hold : chptr ∈ s.channels
    · rw [LazyHub.step, if_pos hold]
      exact h
    · rw [LazyHub.step, if_neg hold]
      exact h.createChannel hold
  | destroy chptr =>
    by_cases hold : chptr ∈ s.channels
    · rw [LazyHub.step, if_pos hold]
      exact h.destroyChannel chptr
    · rw [LazyHub.step, if_neg hold]
      exact h

theorem Inv.not_consistent {s : LazyHub} {op : LazyOp} (h : s.Inv) (hop : ¬s.Fresh op) :
    ¬(s.step op).Consistent := by
  cases op with
  | addChannel leaf chptr =>
    simp only [Fresh, Classical.not_imp] at hop
    obtain ⟨hleaf, hchptr, hknown⟩ := hop
    intro hbad
    have hnodup := hbad.listed_nodup
    rw [LazyHub.step, if_pos ⟨hleaf, hchptr⟩] at hnodup
    exact (List.nodup_cons.mp hnodup).1 (h.known_listed chptr hchptr hknown)
  | link server => exact absurd trivial hop
  | unlink leaf => exact absurd trivial hop
  | addClient leaf client => exact absurd trivial hop
  | create chptr => exact absurd trivial hop
  | destroy chptr => exact absurd trivial hop

/-- The books are right in every state on the way exactly if every channel that is added for a
leaf is known to no leaf then. -/
theorem lazylinks_consistent_iff (ops : List LazyOp) :
    (∀ pre, pre <+: ops → (Run.exec step start pre).Consistent) ↔
      Run.Guarded step Fresh start ops := by
  have hall : (∀ pre, pre <+: ops → (Run.exec step start pre).Consistent ∧
      ∀ op, pre.getLast? = some op → True) ↔ Run.Guarded step Fresh start ops :=
    Run.prefixes_iff_guarded Consistent (fun _ _ => True) (fun _ _ => Inv.step)
      (fun _ h => h.toConsistent) (fun _ _ _ _ => trivial) (fun _ _ => Inv.not_consistent) inv_start
  rw [← hall]
  exact forall_congr' fun pre => forall_congr' fun _ =>
    ⟨fun h => ⟨h, fun _ _ => trivial⟩, fun h => h.1⟩

/-- Two leaves ask for one channel; when it is destroyed, its address stays on the list. -/
theorem lazylinks_stale :
    ¬∀ ops, (Run.exec step start ops).Consistent := by
  intro h
  have hstale := (h [.create 0, .link 1, .link 2, .addChannel ⟨1, 1⟩ 0, .addChannel ⟨2, 2⟩ 0,
    .destroy 0]).listed_exist 0 (by decide)
  exact absurd hstale (by decide)

end LazyHub

end Ircd
