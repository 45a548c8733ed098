import Ircd.Lib.Run
import Mathlib.Data.List.Nodup
import Mathlib.Logic.Function.Basic

/-!
`abort_list`: local clients whose link has failed wait there until the main loop exits them.

Exiting a client sends to others, and a write that fails puts those at the end of the list
that is being gone through. `eac_next` is then where the loop goes on, so the list is a queue
that the loop empties (`aborted_exited_once`), whatever else is exited meanwhile.
-/

namespace Ircd

open Function List

/-! ### Clients and the list -/

/-- The flags of `IsDefunct`. -/
structure ConnFlags where
  dead : Bool
  closing : Bool
  killed : Bool
  deriving DecidableEq, Repr

/-- `IsDefunct`. -/
def ConnFlags.defunct (flags : ConnFlags) : Bool := flags.dead || flags.closing || flags.killed

/-- Where `exit_aborted_clients` stands: it does not run, its loop begins a turn at a node,
or with none left, or `exit_client` runs in a turn. -/
inductive AbortLoop
  | idle
  | turn (ptr : Option Nat)
  | inside
  deriving DecidableEq, Repr

/-- The flags of the local clients, `abort_list` with the numbers of its nodes, `eac_next`,
the number of the next node, the calls of `exit_client` that run, the last one first, and the
loop. Beside these: the clients that were put on the list, those that were exited, the nodes
that the loop has taken, and whether it has read one that is not on the list. -/
structure AbortState (α : Type) where
  flags : α → ConnFlags
  abortList : List (Nat × α)
  eacNext : Option Nat
  nodes : Nat
  running : List α
  loop : AbortLoop
  puts : List α
  exited : List α
  taken : Nat
  dangling : Bool

variable {α : Type} [DecidableEq α]

def AbortState.head (s : AbortState α) : Option Nat := s.abortList.head?.map Prod.fst

/-- `ptr->next`. -/
def AbortState.nextOf (s : AbortState α) (ptr : Nat) : Option Nat :=
  ((s.abortList.dropWhile (·.1 ≠ ptr)).tail.head?).map Prod.fst

def AbortState.setFlags (s : AbortState α) (c : α) (flags : ConnFlags) : AbortState α :=
  { s with flags := update s.flags c flags }

/-- `SetDead`. -/
def AbortState.setDead (s : AbortState α) (c : α) : AbortState α :=
  s.setFlags c { s.flags c with dead := true }

/-- `SetKilled`. -/
def AbortState.setKilled (s : AbortState α) (c : α) : AbortState α :=
  s.setFlags c { s.flags c with killed := true }

/-! ### The functions -/

/-- `dead_link_on_write`. -/
def deadLinkOnWrite (s : AbortState α) (c : α) : AbortState α :=
  if (s.flags c).defunct then s
  else
    let s := { s with
      abortList := s.abortList ++ [(s.nodes, c)]
      nodes := s.nodes + 1
      eacNext := if s.eacNext = none then some s.nodes else s.eacNext
      puts := s.puts ++ [c] }
    s.setDead c

/-- `exit_client` is called for a local client: it returns at once for one that is closing. -/
def callExit (s : AbortState α) (c : α) : AbortState α :=
  if (s.flags c).closing then s
  else { s.setFlags c { s.flags c with closing := true } with running := c :: s.running }

/-- `dead_link_on_read`. -/
def deadLinkOnRead (s : AbortState α) (c : α) : AbortState α :=
  if (s.flags c).defunct then s else callExit s c

/-- The loop goes on at `eac_next`. -/
def loopNext (s : AbortState α) : AbortState α :=
  { s with loop := .turn s.eacNext, eacNext := s.eacNext.bind s.nextOf }

/-- `exit_aborted_clients` is called by the main loop. -/
def callAborted (s : AbortState α) : AbortState α :=
  { s with loop := .turn s.head, eacNext := s.head.bind s.nextOf }

/-- A turn of its loop: the node is taken off the list and `exit_client` called, or the loop
ends. -/
def loopTurn (s : AbortState α) : Option Nat → AbortState α
  | none => { s with loop := .idle }
  | some ptr =>
    match s.abortList.find? (·.1 = ptr) with
    | none => { s with dangling := true }
    | some (_, target) =>
      let s := { s with
        eacNext := s.nextOf ptr
        abortList := s.abortList.filter (·.1 ≠ ptr)
        taken := s.taken + 1 }
      if (s.flags target).closing then loopNext s
      else { callExit s target with loop := .inside }

/-- The last call of `exit_client` ends: `exit_one_client` puts the client on `dead_list`. -/
def finishExit (s : AbortState α) : AbortState α :=
  match s.running with
  | [] => s
  | c :: running =>
    let s := { s.setDead c with running := running, exited := s.exited ++ [c] }
    if running = [] ∧ s.loop = .inside then loopNext s else s

/-- What can happen. -/
inductive AbortOp (α : Type)
  | write (c : α)
  | read (c : α)
  | exit (c : α)
  | dead (c : α)
  | kill (c : α)
  | finish
  | aborted
  | turn

/-- It happens. Between the turns of the loop nothing else runs, and the main loop calls
`exit_aborted_clients` when nothing does. -/
def AbortState.step (s : AbortState α) (op : AbortOp α) : AbortState α :=
  match s.loop, op with
  | .turn ptr, .turn => loopTurn s ptr
  | .turn _, _ => s
  | _, .turn => s
  | _, .aborted => if s.running = [] then callAborted s else s
  | _, .write c => deadLinkOnWrite s c
  | _, .read c => deadLinkOnRead s c
  | _, .exit c => callExit s c
  | _, .dead c => s.setDead c
  | _, .kill c => s.setKilled c
  | _, .finish => finishExit s

def abortStart : AbortState α :=
  ⟨fun _ => ⟨false, false, false⟩, [], none, 0, [], .idle, [], [], 0, false⟩

/-! ### What holds -/

/-- Where the loop stands, `eac_next` is the head of the list, or the turn begins there. -/
def LoopRight (s : AbortState α) : Prop :=
  match s.loop with
  | .idle => True
  | .turn ptr => s.running = [] ∧ ptr = s.head
  | .inside => s.running ≠ [] ∧ s.eacNext = s.head

/-- The clients that are closing are being exited or were, each once; those put on the list
are dead, each once, and are on it until the loop takes them and they close. -/
structure AbortInv (s : AbortState α) : Prop where
  inside : s.dangling = false
  nodesNodup : (s.abortList.map Prod.fst).Nodup
  nodesLt : ∀ p ∈ s.abortList, p.1 < s.nodes
  once : (s.running ++ s.exited).Nodup
  closing_iff : ∀ c, (s.flags c).closing ↔ c ∈ s.running ++ s.exited
  putsNodup : s.puts.Nodup
  putsDead : ∀ c ∈ s.puts, (s.flags c).dead
  waits : ∀ c ∈ s.puts, c ∈ s.abortList.map Prod.snd ∨ (s.flags c).closing
  count : s.taken + s.abortList.length = s.puts.length
  loop : LoopRight s

/-- No client is put on the list twice or exited twice, and the loop reads no node that is
not on it; and when the loop ends the list is empty and every client that was put there is
exited. -/
structure AbortsRight (s : AbortState α) : Prop where
  putsNodup : s.puts.Nodup
  exitedNodup : s.exited.Nodup
  inside : s.dangling = false
  count : s.taken + s.abortList.length = s.puts.length
  ends : s.loop = .turn none → s.abortList = [] ∧ ∀ c ∈ s.puts, s.exited.count c = 1

theorem AbortInv.abortsRight {s : AbortState α} (h : AbortInv s) : AbortsRight s := by
  have hexited : s.exited.Nodup := (List.nodup_append.mp h.once).2.1
  refine ⟨h.putsNodup, hexited, h.inside, h.count, fun hloop => ?_⟩
  have hright := h.loop
  rw [LoopRight, hloop] at hright
  obtain ⟨hrunning, hhead⟩ := hright
  have hempty : s.abortList = [] := by
    have hnone := Option.map_eq_none_iff.mp hhead.symm
    exact List.head?_eq_none_iff.mp hnone
  refine ⟨hempty, fun c hc => ?_⟩
  obtain hwaits | hclosing := h.waits c hc
  · rw [hempty] at hwaits
    cases hwaits
  · have hmem := (h.closing_iff c).mp hclosing
    rw [hrunning, nil_append] at hmem
    exact count_eq_one_of_mem hexited hmem

/-! ### Flags that are set -/

theorem update_flags_of_eq {β : Type} (g : ConnFlags → β) {flags : α → ConnFlags} {c : α}
    {f : ConnFlags} (hg : g f = g (flags c)) (d : α) :
    g (update flags c f d) = g (flags d) := by
  by_cases hdc : d = c
  · subst hdc
    rw [update_self, hg]
  · rw [update_of_ne hdc]

theorem update_flags_iff (g : ConnFlags → Bool) {flags : α → ConnFlags} {c : α} {f : ConnFlags}
    (hg : g f = true) (d : α) :
    g (update flags c f d) = true ↔ d = c ∨ g (flags d) = true := by
  by_cases hdc : d = c
  · subst hdc
    rw [update_self]
    exact iff_of_true hg (Or.inl rfl)
  · rw [update_of_ne hdc, or_iff_right hdc]

/-! ### What each operation keeps -/

omit [DecidableEq α] in
theorem AbortInv.withFlags {s : AbortState α} (h : AbortInv s) {flags : α → ConnFlags}
    (hclosing : ∀ c, (flags c).closing = (s.flags c).closing)
    (hdead : ∀ c, (s.flags c).dead → (flags c).dead) : AbortInv { s with flags := flags } where
  inside := h.inside
  nodesNodup := h.nodesNodup
  nodesLt := h.nodesLt
  once := h.once
  closing_iff c := by
    dsimp only
    rw [hclosing]
    exact h.closing_iff c
  putsNodup := h.putsNodup
  putsDead c hc := hdead c (h.putsDead c hc)
  waits c hc := by
    dsimp only
    rw [hclosing]
    exact h.waits c hc
  count := h.count
  loop := h.loop

theorem AbortInv.setDead {s : AbortState α} (h : AbortInv s) (c : α) : AbortInv (s.setDead c) := by
  apply h.withFlags
  · exact update_flags_of_eq ConnFlags.closing rfl
  · exact fun d hd => (update_flags_iff ConnFlags.dead rfl d).mpr (Or.inr hd)

theorem AbortInv.setKilled {s : AbortState α} (h : AbortInv s) (c : α) :
    AbortInv (s.setKilled c) := by
  apply h.withFlags
  · exact update_flags_of_eq ConnFlags.closing rfl
  · intro d hd
    rw [update_flags_of_eq ConnFlags.dead]
    · exact hd
    · rfl

omit [DecidableEq α] in
theorem head_concat (l : List (Nat × α)) (p : Nat × α) :
    (l ++ [p]).head?.map Prod.fst =
      if l.head?.map Prod.fst = none then some p.1 else l.head?.map Prod.fst := by
  cases l <;> simp

theorem AbortInv.deadLinkOnWrite {s : AbortState α} (h : AbortInv s) (c : α)
    (hloop : ∀ ptr, s.loop ≠ .turn ptr) : AbortInv (deadLinkOnWrite s c) := by
  unfold Ircd.deadLinkOnWrite
  by_cases hdefunct : (s.flags c).defunct = true
  · rw [if_pos hdefunct]
    exact h
  rw [if_neg hdefunct]
  have hfresh : c ∉ s.puts := by
    intro hc
    apply hdefunct
    rw [ConnFlags.defunct, h.putsDead c hc, Bool.true_or, Bool.true_or]
  have hput : AbortInv { s with
      flags := update s.flags c { s.flags c with dead := true }
      abortList := s.abortList ++ [(s.nodes, c)]
      nodes := s.nodes + 1
      eacNext := if s.eacNext = none then some s.nodes else s.eacNext
      puts := s.puts ++ [c] } := by
    have hflags : ∀ d, (update s.flags c { s.flags c with dead := true } d).closing =
        (s.flags d).closing := update_flags_of_eq ConnFlags.closing rfl
    constructor
    · exact h.inside
    · rw [map_append, nodup_append]
      refine ⟨h.nodesNodup, nodup_singleton _, fun n hn m hm => ?_⟩
      obtain ⟨p, hp, rfl⟩ := List.mem_map.mp hn
      obtain rfl := List.mem_singleton.mp hm
      exact Nat.ne_of_lt (h.nodesLt p hp)
    · intro p hp
      obtain hp | hp := List.mem_append.mp hp
      · exact Nat.lt_succ_of_lt (h.nodesLt p hp)
      · obtain rfl := List.mem_singleton.mp hp
        exact Nat.lt_succ_self _
    · exact h.once
    · intro d
      dsimp only
      rw [hflags]
      exact h.closing_iff d
    · exact List.nodup_append.mpr ⟨h.putsNodup, nodup_singleton c, fun d hd e he =>
        fun hde => hfresh (List.mem_singleton.mp he ▸ hde ▸ hd)⟩
    · intro d hd
      apply (update_flags_iff ConnFlags.dead rfl d).mpr
      obtain hd | hd := List.mem_append.mp hd
      · exact Or.inr (h.putsDead d hd)
      · exact Or.inl (List.mem_singleton.mp hd)
    · intro d hd
      dsimp only
      rw [hflags, map_append, mem_append]
      obtain hd | hd := List.mem_append.mp hd
      · exact (h.waits d hd).imp Or.inl id
      · exact Or.inl (Or.inr (by simpa using hd))
    · have hcount := h.count
      simp only [length_append, length_singleton]
      omega
    · have hright := h.loop
      unfold LoopRight at hright ⊢
      dsimp only
      cases hl : s.loop with
      | idle => trivial
      | turn ptr => exact absurd hl (hloop ptr)
      | inside =>
        rw [hl] at hright
        obtain ⟨hrunning, hnext⟩ := hright
        refine ⟨hrunning, ?_⟩
        rw [AbortState.head] at hnext ⊢
        dsimp only
        rw [head_concat, hnext]
  exact hput

theorem AbortInv.closing_iff_cons {s : AbortState α} (h : AbortInv s) (c d : α) :
    (update s.flags c { s.flags c with closing := true } d).closing ↔
      d ∈ c :: s.running ++ s.exited := by
  rw [update_flags_iff ConnFlags.closing rfl, cons_append, mem_cons, h.closing_iff]

theorem AbortInv.putsDead_closing {s : AbortState α} (h : AbortInv s) (c d : α)
    (hd : d ∈ s.puts) :
    (update s.flags c { s.flags c with closing := true } d).dead := by
  rw [update_flags_of_eq ConnFlags.dead]
  · exact h.putsDead d hd
  · rfl

theorem AbortInv.callExit {s : AbortState α} (h : AbortInv s) (c : α)
    (hloop : ∀ ptr, s.loop ≠ .turn ptr) : AbortInv (callExit s c) := by
  unfold Ircd.callExit
  by_cases hclosing : (s.flags c).closing = true
  · rw [if_pos hclosing]
    exact h
  rw [if_neg hclosing]
  constructor
  · exact h.inside
  · exact h.nodesNodup
  · exact h.nodesLt
  · exact List.nodup_cons.mpr ⟨fun hc => hclosing ((h.closing_iff c).mpr hc), h.once⟩
  · exact fun d => h.closing_iff_cons c d
  · exact h.putsNodup
  · exact fun d hd => h.putsDead_closing c d hd
  · intro d hd
    dsimp only [AbortState.setFlags]
    rw [update_flags_iff ConnFlags.closing rfl]
    exact (h.waits d hd).imp id Or.inr
  · exact h.count
  · have hright := h.loop
    unfold LoopRight at hright ⊢
    dsimp only [AbortState.setFlags]
    cases hl : s.loop with
    | idle => trivial
    | turn ptr => exact absurd hl (hloop ptr)
    | inside =>
      rw [hl] at hright
      exact ⟨cons_ne_nil _ _, hright.2⟩

theorem AbortInv.finishExit {s : AbortState α} (h : AbortInv s)
    (hloop : ∀ ptr, s.loop ≠ .turn ptr) : AbortInv (finishExit s) := by
  unfold Ircd.finishExit
  cases hrunning : s.running with
  | nil => exact h
  | cons c running =>
    have hdead := h.setDead c
    have hperm : (running ++ (s.exited ++ [c])).Perm (s.running ++ s.exited) := by
      rw [hrunning, ← append_assoc]
      exact perm_append_singleton c _
    have hrest : ∀ (loop : AbortLoop) (eacNext : Option Nat),
        LoopRight { s.setDead c with
          running := running, exited := s.exited ++ [c], loop := loop, eacNext := eacNext } →
        AbortInv { s.setDead c with
          running := running, exited := s.exited ++ [c], loop := loop, eacNext := eacNext } := by
      intro loop eacNext hright
      constructor
      · exact hdead.inside
      · exact hdead.nodesNodup
      · exact hdead.nodesLt
      · exact hperm.nodup_iff.mpr h.once
      · intro d
        dsimp only
        rw [hperm.mem_iff]
        exact hdead.closing_iff d
      · exact hdead.putsNodup
      · exact hdead.putsDead
      · exact hdead.waits
      · exact hdead.count
      · exact hright
    have hright := h.loop
    unfold LoopRight at hright
    dsimp only
    cases hl : s.loop with
    | idle =>
      have hidle : (s.setDead c).loop = .idle := hl
      rw [if_neg (by rw [hidle]; simp)]
      apply hrest (s.setDead c).loop (s.setDead c).eacNext
      unfold LoopRight
      dsimp only
      rw [hidle]
      trivial
    | turn ptr => exact absurd hl (hloop ptr)
    | inside =>
      have hinside : (s.setDead c).loop = .inside := hl
      rw [hl] at hright
      by_cases hlast : running = []
      · rw [if_pos ⟨hlast, hinside⟩]
        exact hrest _ _ ⟨hlast, hright.2⟩
      · rw [if_neg fun hboth => hlast hboth.1]
        apply hrest (s.setDead c).loop (s.setDead c).eacNext
        unfold LoopRight
        dsimp only
        rw [hinside]
        exact ⟨hlast, hright.2⟩

theorem AbortInv.loopTurn {s : AbortState α} (h : AbortInv s) {ptr : Option Nat}
    (hl : s.loop = .turn ptr) : AbortInv (loopTurn s ptr) := by
  have hright := h.loop
  rw [LoopRight, hl] at hright
  obtain ⟨hrunning, hhead⟩ := hright
  cases hlist : s.abortList with
  | nil =>
    have hnone : ptr = none := by rw [hhead, AbortState.head, hlist]; rfl
    subst hnone
    exact { h with loop := trivial }
  | cons p rest =>
    obtain ⟨n, target⟩ := p
    have hsome : ptr = some n := by rw [hhead, AbortState.head, hlist]; rfl
    subst hsome
    have hnodup := h.nodesNodup
    rw [hlist, map_cons, nodup_cons] at hnodup
    have hfind : s.abortList.find? (·.1 = n) = some (n, target) := by simp [hlist]
    have hnext : s.nextOf n = rest.head?.map Prod.fst := by simp [AbortState.nextOf, hlist]
    have hfilter : s.abortList.filter (·.1 ≠ n) = rest := by
      rw [hlist, filter_cons_of_neg (by simp), filter_eq_self]
      intro q hq
      have hmem : q.1 ∈ rest.map Prod.fst := mem_map_of_mem hq
      have hne : q.1 ≠ n := fun heq => hnodup.1 (heq ▸ hmem)
      simpa using hne
    have hcount := h.count
    rw [hlist, length_cons] at hcount
    have hwaits : ∀ c ∈ s.puts, c ≠ target →
        c ∈ rest.map Prod.snd ∨ (s.flags c).closing := by
      intro c hc hne
      have hw := h.waits c hc
      rw [hlist, map_cons, mem_cons] at hw
      exact hw.imp (fun hmem => hmem.resolve_left hne) id
    have hlt : ∀ q ∈ rest, q.1 < s.nodes := by
      intro q hq
      apply h.nodesLt
      rw [hlist]
      exact mem_cons_of_mem _ hq
    rw [Ircd.loopTurn, hfind]
    dsimp only
    rw [hnext, hfilter]
    by_cases hclosing : (s.flags target).closing = true
    · -- it was exited meanwhile
      rw [if_pos hclosing, loopNext]
      refine ⟨h.inside, hnodup.2, hlt, h.once, h.closing_iff, h.putsNodup, h.putsDead, ?_, ?_,
        hrunning, rfl⟩
      · intro c hc
        by_cases hct : c = target
        · exact Or.inr (hct ▸ hclosing)
        · exact hwaits c hc hct
      · dsimp only
        omega
    · rw [if_neg hclosing, Ircd.callExit, if_neg hclosing]
      refine ⟨h.inside, hnodup.2, hlt, ?_, ?_, h.putsNodup, ?_, ?_, ?_, ?_, rfl⟩
      · exact List.nodup_cons.mpr ⟨fun hc => hclosing ((h.closing_iff _).mpr hc), h.once⟩
      · exact fun d => h.closing_iff_cons target d
      · exact fun d hd => h.putsDead_closing target d hd
      · intro d hd
        dsimp only [AbortState.setFlags]
        rw [update_flags_iff ConnFlags.closing rfl]
        by_cases hdt : d = target
        · exact Or.inr (Or.inl hdt)
        · exact (hwaits d hd hdt).imp id Or.inr
      · dsimp only [AbortState.setFlags]
        omega
      · exact cons_ne_nil _ _

theorem AbortInv.step {s : AbortState α} (h : AbortInv s) (op : AbortOp α) :
    AbortInv (s.step op) := by
  cases hl : s.loop with
  | turn ptr =>
    unfold AbortState.step
    rw [hl]
    cases op with
    | turn => exact h.loopTurn hl
    | _ => exact h
  | idle | inside =>
    have hloop : ∀ ptr, s.loop ≠ .turn ptr := by
      intro ptr
      rw [hl]
      simp
    unfold AbortState.step
    rw [hl]
    cases op with
    | write c => exact h.deadLinkOnWrite c hloop
    | read c =>
      dsimp only
      unfold deadLinkOnRead
      split
      · exact h
      · exact h.callExit c hloop
    | exit c => exact h.callExit c hloop
    | dead c => exact h.setDead c
    | kill c => exact h.setKilled c
    | finish => exact h.finishExit hloop
    | aborted =>
      dsimp only
      split
      · next hrunning => exact { h with loop := ⟨hrunning, rfl⟩ }
      · exact h
    | turn => exact h

omit [DecidableEq α] in
theorem abortInv_start : AbortInv (abortStart : AbortState α) := by
  constructor <;> simp [abortStart, LoopRight]

/-- Whatever fails and whatever is exited meanwhile, the clients put on the list are exited
once when the loop ends. -/
theorem aborted_exited_once (ops : List (AbortOp α)) :
    AbortsRight (Run.exec AbortState.step (abortStart : AbortState α) ops) := by
  have hstep : ∀ (s : AbortState α) (op : AbortOp α), AbortInv s → True → AbortInv (s.step op) :=
    fun s op h _ => h.step op
  have hinv := Run.inv_exec hstep abortInv_start (Run.guarded_true abortStart ops)
  exact hinv.abortsRight

/-- A client whose link fails while the last one on the list is exited. -/
example :
    (Run.exec AbortState.step (abortStart : AbortState Nat)
        [.write 1, .aborted, .turn, .write 2, .finish, .turn, .finish]).exited = [1, 2] ∧
      (Run.exec AbortState.step (abortStart : AbortState Nat)
        [.write 1, .aborted, .turn, .write 2, .finish, .turn, .finish]).loop = .turn none := by
  decide

end Ircd
