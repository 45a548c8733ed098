import Ircd.World
import Ircd.Lib.Chains

/-!
The name tables of `hash.c` by their pointers: clients by name and by id, channels,
reserved channels, and the hosts of `add_user_host`.

The functions of the tables are alike, and each is one definition at its table.
`liveAfter` is the map that a run of insertions and removals leaves, without tables;
`hash_tables_refine` says that the tables hold its entries, and that a lookup by any
text gives the entry with an equal name, for any amount of fuel that the longest
chain needs.
-/

namespace Ircd

open Function
open Chains (Table Holds Seg moveToFront)

/-- The tables of `hash.c` that are filed by names. -/
inductive TableName where
  | client
  | id
  | channel
  | resv
  | userhost
  deriving DecidableEq, Repr

/-- A table, with the name in each structure. -/
structure NameTable where
  chains : Table Nat
  name : Nat → CStr

/-- The tables, with the key that the process drew at its start. -/
structure HashTables where
  ircdRandomKey : Nat
  table : TableName → NameTable

namespace HashTables

def setChains (s : HashTables) (w : TableName) (chains : Table Nat) : HashTables :=
  { s with table := update s.table w { s.table w with chains } }

/-- A structure gets its name before it is filed. -/
def setName (s : HashTables) (w : TableName) (a : Nat) (name : CStr) : HashTables :=
  { s with
    table := update s.table w
      { s.table w with name := update (s.table w).name a name } }

def hashAdd (w : TableName) (a : Nat) (s : HashTables) : HashTables :=
  s.setChains w ((s.table w).chains.add (strhash s.ircdRandomKey ((s.table w).name a)) a)

def hashDel (w : TableName) (fuel a : Nat) (s : HashTables) : Option HashTables :=
  ((s.table w).chains.del (strhash s.ircdRandomKey ((s.table w).name a)) a fuel).map
    (s.setChains w)

/-- A lookup in a table, among the entries that `want` admits. -/
def hashFind (w : TableName) (want : Nat → Bool) (fuel : Nat) (name : CStr) (s : HashTables) :
    Option (Option Nat × HashTables) :=
  ((s.table w).chains.find (fun a => want a && ircEq name ((s.table w).name a))
    (strhash s.ircdRandomKey name) fuel).map fun found => (found.1, s.setChains w found.2)

/-- `hash_add_client`. -/
def hashAddClient := hashAdd .client

/-- `hash_add_id`. -/
def hashAddId := hashAdd .id

/-- `hash_add_channel`. -/
def hashAddChannel := hashAdd .channel

/-- `hash_add_resv`. -/
def hashAddResv := hashAdd .resv

/-- `hash_add_userhost`. -/
def hashAddUserhost := hashAdd .userhost

/-- `hash_del_client`. -/
def hashDelClient := hashDel .client

/-- `hash_del_id`. -/
def hashDelId := hashDel .id

/-- `hash_del_channel`. -/
def hashDelChannel := hashDel .channel

/-- `hash_del_resv`. -/
def hashDelResv := hashDel .resv

/-- `hash_del_userhost`. -/
def hashDelUserhost := hashDel .userhost

/-- `find_client`. -/
def findClient := hashFind .client fun _ => true

/-- `hash_find_id`. -/
def hashFindId := hashFind .id fun _ => true

/-- `hash_find_channel`. -/
def hashFindChannel := hashFind .channel fun _ => true

/-- `hash_find_resv`. -/
def hashFindResv := hashFind .resv fun _ => true

/-- `hash_find_userhost`. -/
def hashFindUserhost := hashFind .userhost fun _ => true

/-- The loop of `hash_find_masked_server` over the masks of a name. -/
def findMasks (fuel : Nat) : List CStr → HashTables → Option (Option Nat × HashTables)
  | [], s => some (none, s)
  | mask :: masks, s =>
    match s.findClient fuel mask with
    | none => none
    | some (some a, s) => some (some a, s)
    | some (none, s) => findMasks fuel masks s

/-- `hash_find_masked_server`. -/
def hashFindMaskedServer (fuel : Nat) (name : CStr) (s : HashTables) :
    Option (Option Nat × HashTables) :=
  if name.head? = some '*' ∨ name.head? = some '.' then some (none, s)
  else findMasks fuel (World.maskedNames (strlcpy name (HOSTLEN + 1))) s

/-- `find_server`. -/
def findServer (isServer : Nat → Bool) (fuel : Nat) (name : CStr) (s : HashTables) :
    Option (Option Nat × HashTables) :=
  let byId :=
    if startsWithDigit name ∧ name.length = IRC_MAXSID then s.hashFindId fuel name
    else some (none, s)
  byId.bind fun (found, s) =>
    if found.isSome then some (found, s)
    else
      (s.hashFind .client isServer fuel name).bind fun (found, s) =>
        if found.isSome then some (found, s) else s.hashFindMaskedServer fuel name

def start (key : Nat) : HashTables where
  ircdRandomKey := key
  table := fun _ => ⟨⟨fun _ => none, fun _ => none⟩, fun _ => []⟩

end HashTables

/-- What happens to the tables. A structure that is filed has its name by then. -/
inductive HashOp where
  | add (w : TableName) (a : Nat) (name : CStr)
  | del (w : TableName) (a : Nat)
  | find (w : TableName) (name : CStr)
  | findServer (isServer : Nat → Bool) (name : CStr)

/-- One call, with fuel for its walk. -/
def HashTables.step (fuel : Nat) (s : HashTables) : HashOp → Option HashTables
  | .add w a name => some ((s.setName w a name).hashAdd w a)
  | .del w a => s.hashDel w fuel a
  | .find w name => (s.hashFind w (fun _ => true) fuel name).map Prod.snd
  | .findServer isServer name => (s.findServer isServer fuel name).map Prod.snd

def HashTables.run (fuel : Nat) (s : HashTables) (ops : List HashOp) : Option HashTables :=
  ops.foldlM (HashTables.step fuel) s

/-! ### The maps -/

/-- The entries of each table, with their names. -/
abbrev LiveNames := TableName → Nat → Option CStr

def liveStep (live : LiveNames) : HashOp → LiveNames
  | .add w a name => update live w (update (live w) a (some name))
  | .del w a => update live w (update (live w) a none)
  | .find _ _ => live
  | .findServer _ _ => live

def liveAfter (ops : List HashOp) : LiveNames := ops.foldl liveStep fun _ _ => none

/-- An insertion is of an entry that is not in the table, under a name that no entry of
it has. -/
def Admissible (live : LiveNames) : HashOp → Prop
  | .add w a name => live w a = none ∧ ∀ b m, live w b = some m → ircEq name m = false
  | _ => True

/-- Every insertion of the run is admissible when it comes. -/
def AdmissibleRun (live : LiveNames) : List HashOp → Prop
  | [] => True
  | op :: ops => Admissible live op ∧ AdmissibleRun (liveStep live op) ops

theorem admissibleRun_append {live : LiveNames} {ops ops' : List HashOp} :
    AdmissibleRun live (ops ++ ops') ↔
      AdmissibleRun live ops ∧ AdmissibleRun (ops.foldl liveStep live) ops' := by
  induction ops generalizing live with
  | nil => simp [AdmissibleRun]
  | cons op ops ih => simp [AdmissibleRun, ih, and_assoc]

/-! ### The tables hold the maps -/

/-- The tables hold these entries in these chains, none longer than `n`. -/
structure Filed (n : Nat) (s : HashTables) (live : LiveNames)
    (lists : TableName → Nat → List Nat) : Prop where
  holds : ∀ w, Holds (s.table w).chains (lists w)
  files : ∀ w, Buckets.Files (lists w) fun a => (live w a).map (strhash s.ircdRandomKey)
  short : ∀ w k, (lists w k).length ≤ n
  named : ∀ {w a m}, live w a = some m → (s.table w).name a = m
  distinct : ∀ {w a b m m'}, live w a = some m → live w b = some m' →
    ircEq m m' = true → a = b

/-- A lookup has found the entry with this name among those that it admits. -/
def Finds (live : LiveNames) (w : TableName) (want : Nat → Bool) (name : CStr)
    (r : Option Nat) : Prop :=
  ∀ a, r = some a ↔ want a = true ∧ ∃ m, live w a = some m ∧ ircEq name m = true

variable {n fuel : Nat} {s : HashTables} {live : LiveNames} {lists : TableName → Nat → List Nat}
  {w : TableName} {a : Nat} {name : CStr}

theorem Filed.onChain_iff (h : Filed n s live lists) (w : TableName) (a : Nat) :
    (s.table w).chains.OnChain a ↔ live w a ≠ none := by
  rw [(h.holds w).onChain_iff]
  simp only [(h.files w).mem]
  cases live w a with
  | none => simp
  | some m => simp

theorem Filed.mono (h : Filed n s live lists) {n' : Nat} (hle : n ≤ n') : Filed n' s live lists :=
  { h with short := fun w k => (h.short w k).trans hle }

@[simp] theorem setChains_table_self (s : HashTables) (w : TableName) (t : Table Nat) :
    (s.setChains w t).table w = { s.table w with chains := t } := by
  simp [HashTables.setChains]

theorem setChains_table_of_ne (s : HashTables) (t : Table Nat) {w w' : TableName} (hw : w' ≠ w) :
    (s.setChains w t).table w' = s.table w' := by
  simp [HashTables.setChains, hw]

theorem Filed.change {n' : Nat} {s' : HashTables} {live' : LiveNames}
    (h : Filed n s live lists) (chains : Nat → List Nat) (hle : n ≤ n') (w : TableName)
    (hkey : s'.ircdRandomKey = s.ircdRandomKey) (htable : ∀ w' ≠ w, s'.table w' = s.table w')
    (hlive : ∀ w' ≠ w, live' w' = live w') (hholds : Holds (s'.table w).chains chains)
    (hfiles : Buckets.Files chains fun a => (live' w a).map (strhash s.ircdRandomKey))
    (hshort : ∀ k, (chains k).length ≤ n')
    (hnamed : ∀ a m, live' w a = some m → (s'.table w).name a = m)
    (hdistinct : ∀ a b m m', live' w a = some m → live' w b = some m' → ircEq m m' = true →
      a = b) :
    Filed n' s' live' (update lists w chains) := by
  constructor
  · intro w'
    by_cases hw : w' = w
    · subst hw
      rwa [update_self]
    · rw [update_of_ne hw, htable w' hw]
      exact h.holds w'
  · intro w'
    rw [hkey]
    by_cases hw : w' = w
    · subst hw
      rwa [update_self]
    · rw [update_of_ne hw, hlive w' hw]
      exact h.files w'
  · intro w' k
    by_cases hw : w' = w
    · subst hw
      rw [update_self]
      exact hshort k
    · rw [update_of_ne hw]
      exact (h.short w' k).trans hle
  · intro w' a m hm
    by_cases hw : w' = w
    · subst hw
      exact hnamed a m hm
    · rw [hlive w' hw] at hm
      rw [htable w' hw]
      exact h.named hm
  · intro w' a b m m' hm hm' heq
    by_cases hw : w' = w
    · subst hw
      exact hdistinct a b m m' hm hm' heq
    · rw [hlive w' hw] at hm hm'
      exact h.distinct hm hm' heq

theorem Filed.finds (h : Filed n s live lists) (w : TableName) (want : Nat → Bool) (name : CStr) :
    Finds live w want name ((lists w (strhash s.ircdRandomKey name)).find?
      fun a => want a && ircEq name ((s.table w).name a)) := by
  set k := strhash s.ircdRandomKey name with hk
  set hit : Nat → Bool := fun a => want a && ircEq name ((s.table w).name a) with hhit
  have hlive : ∀ a, a ∈ lists w k →
      ∃ m, live w a = some m ∧ (s.table w).name a = m := by
    intro a ha
    obtain ⟨m, hm, -⟩ := Option.map_eq_some_iff.mp ((h.files w).mem.mp ha)
    exact ⟨m, hm, h.named hm⟩
  have hfound : ∀ b, (lists w k).find? hit = some b →
      want b = true ∧ ∃ m, live w b = some m ∧ ircEq name m = true := by
    intro b hb
    obtain ⟨m, hm, hname⟩ := hlive b (List.mem_of_find?_eq_some hb)
    have hb := List.find?_some hb
    rw [hhit, Bool.and_eq_true, hname] at hb
    exact ⟨hb.1, m, hm, hb.2⟩
  intro a
  constructor
  · exact hfound a
  · rintro ⟨hwant, m, hm, heq⟩
    have hmem : a ∈ lists w k := by
      rw [(h.files w).mem, hm, Option.map_some, ← strhash_eq_of_ircEq heq]
    have hhita : hit a = true := by
      rw [hhit, Bool.and_eq_true, h.named hm]
      exact ⟨hwant, heq⟩
    cases hb : (lists w k).find? hit with
    | none => exact absurd hhita (List.find?_eq_none.mp hb a hmem)
    | some b =>
      obtain ⟨-, m', hm', heq'⟩ := hfound b hb
      rw [h.distinct hm' hm (ircEq_trans (ircEq_symm heq') heq)]

theorem Filed.find (h : Filed n s live lists) (hfuel : n ≤ fuel) (w : TableName)
    (want : Nat → Bool) (name : CStr) :
    ∃ r s' lists', s.hashFind w want fuel name = some (r, s') ∧ Filed n s' live lists' ∧
      Finds live w want name r := by
  set k := strhash s.ircdRandomKey name with hk
  set hit : Nat → Bool := fun a => want a && ircEq name ((s.table w).name a) with hhit
  obtain ⟨t', hfind, hholds⟩ :=
    (h.holds w).find (h.files w) hit ((h.short w k).trans hfuel)
  have hperm : ∀ k', (update (lists w) k (moveToFront hit (lists w k)) k').Perm
      (lists w k') := by
    intro k'
    by_cases hk' : k' = k
    · subst hk'
      rw [update_self]
      exact Chains.moveToFront_perm _ _
    · rw [update_of_ne hk']
  refine ⟨(lists w k).find? hit, s.setChains w t', _, ?_,
    h.change _ (le_refl n) w rfl (fun _ hw => setChains_table_of_ne s t' hw) (fun _ _ => rfl)
      (by rwa [setChains_table_self]) ((h.files w).perm hperm) (fun k' => ?_) (fun a m hm => ?_)
      (fun _ _ _ _ => h.distinct), h.finds w want name⟩
  · rw [HashTables.hashFind, ← hk, ← hhit, hfind]
    rfl
  · rw [(hperm k').length_eq]
    exact h.short w k'
  · rw [setChains_table_self]
    exact h.named hm

theorem update_map {live : Nat → Option CStr} {f : CStr → Nat} (m : Option CStr) :
    (fun b => (update live a m b).map f) =
      update (fun b => (live b).map f) a (m.map f) := by
  funext b
  by_cases hb : b = a
  · simp [hb]
  · simp [hb]

theorem Filed.add (h : Filed n s live lists) (hok : Admissible live (.add w a name)) :
    ∃ lists', Filed (n + 1) ((s.setName w a name).hashAdd w a) (liveStep live (.add w a name))
      lists' := by
  obtain ⟨hnew, hfresh⟩ := hok
  set k := strhash s.ircdRandomKey name with hk
  have hout : ∀ k, a ∉ lists w k := by
    intro k ha
    have hloc := (h.files w).mem.mp ha
    rw [hnew] at hloc
    cases hloc
  have htable : ((s.setName w a name).hashAdd w a).table w =
      ⟨(s.table w).chains.add k a, update (s.table w).name a name⟩ := by
    simp [HashTables.hashAdd, HashTables.setChains, HashTables.setName, hk]
  have hother : ∀ w' ≠ w, ((s.setName w a name).hashAdd w a).table w' = s.table w' := by
    intro w' hw
    simp [HashTables.hashAdd, HashTables.setChains, HashTables.setName, hw]
  have hlive : liveStep live (.add w a name) w = update (live w) a (some name) := by
    rw [liveStep, update_self]
  refine ⟨_, h.change (Buckets.add (lists w) k a) (Nat.le_succ n) w rfl hother
    (fun _ hw => update_of_ne hw _ _) ?_ ?_ ?_ ?_ ?_⟩
  · rw [htable]
    exact (h.holds w).add hout
  · rw [hlive, update_map]
    exact (h.files w).add (by rw [hnew]; rfl)
  · intro k'
    by_cases hk' : k' = k
    · rw [hk', Buckets.add, update_self, List.length_cons]
      exact Nat.succ_le_succ (h.short w k)
    · rw [Buckets.add, update_of_ne hk']
      exact (h.short w k').trans (Nat.le_succ n)
  · intro b m hm
    rw [htable]
    rw [hlive] at hm
    dsimp only
    by_cases hb : b = a
    · subst hb
      rw [update_self] at hm ⊢
      exact Option.some.inj hm
    · rw [update_of_ne hb] at hm ⊢
      exact h.named hm
  · intro b c m m' hm hm' heq
    rw [hlive] at hm hm'
    by_cases hb : b = a <;> by_cases hc : c = a
    · rw [hb, hc]
    · rw [hb, update_self] at hm
      rw [update_of_ne hc] at hm'
      rw [← Option.some.inj hm, hfresh c m' hm'] at heq
      cases heq
    · rw [hc, update_self] at hm'
      rw [update_of_ne hb] at hm
      rw [← Option.some.inj hm'] at heq
      have hno := hfresh b m hm
      rw [ircEq_symm heq] at hno
      cases hno
    · rw [update_of_ne hb] at hm
      rw [update_of_ne hc] at hm'
      exact h.distinct hm hm' heq

theorem Filed.del (h : Filed n s live lists) (hfuel : n ≤ fuel) (w : TableName) (a : Nat) :
    ∃ s' lists', s.hashDel w fuel a = some s' ∧
      Filed n s' (liveStep live (.del w a)) lists' := by
  set k := strhash s.ircdRandomKey ((s.table w).name a) with hk
  obtain ⟨t', hdel, hholds⟩ :=
    (h.holds w).del (a := a) (h.files w) ((h.short w k).trans hfuel)
  have hloc : ∀ k', (live w a).map (strhash s.ircdRandomKey) = some k' → k' = k := by
    intro k' hk'
    obtain ⟨m, hm, rfl⟩ := Option.map_eq_some_iff.mp hk'
    rw [hk, h.named hm]
  have hlive : liveStep live (.del w a) w = update (live w) a none := by
    rw [liveStep, update_self]
  have hstill : ∀ b m, liveStep live (.del w a) w b = some m → live w b = some m := by
    intro b m hm
    rw [hlive] at hm
    by_cases hb : b = a
    · rw [hb, update_self] at hm
      cases hm
    · rwa [update_of_ne hb] at hm
  refine ⟨s.setChains w t', _, by rw [HashTables.hashDel, ← hk, hdel, Option.map_some],
    h.change _ (le_refl n) w rfl (fun _ hw => setChains_table_of_ne s t' hw)
      (fun _ hw => update_of_ne hw _ _) (by rwa [setChains_table_self]) ?_ (fun k' => ?_)
      (fun b m hm => ?_)
      (fun b c m m' hm hm' => h.distinct (hstill b m hm) (hstill c m' hm'))⟩
  · rw [hlive, update_map]
    exact (h.files w).del hloc
  · by_cases hk' : k' = k
    · rw [hk', Buckets.del, update_self]
      exact (List.length_erase_le).trans (h.short w k)
    · rw [Buckets.del, update_of_ne hk']
      exact h.short w k'
  · rw [setChains_table_self]
    exact h.named (hstill b m hm)

/-! ### The lookup of a server -/

theorem Filed.findMasks (h : Filed n s live lists) (hfuel : n ≤ fuel) (masks : List CStr) :
    ∃ r s' lists', s.findMasks fuel masks = some (r, s') ∧ Filed n s' live lists' := by
  induction masks generalizing s lists with
  | nil => exact ⟨none, s, lists, rfl, h⟩
  | cons mask masks ih =>
    obtain ⟨r, s', lists', hfind, hfiled, -⟩ := h.find hfuel .client (fun _ => true) mask
    have hfind : s.findClient fuel mask = some (r, s') := hfind
    rw [HashTables.findMasks, hfind]
    cases r with
    | none => exact ih hfiled
    | some a => exact ⟨some a, s', lists', rfl, hfiled⟩

theorem Filed.findServer (h : Filed n s live lists) (hfuel : n ≤ fuel) (isServer : Nat → Bool)
    (name : CStr) :
    ∃ r s' lists', s.findServer isServer fuel name = some (r, s') ∧ Filed n s' live lists' := by
  have hbyId : ∃ r s' lists',
      (if startsWithDigit name ∧ name.length = IRC_MAXSID then s.hashFindId fuel name
        else some (none, s)) = some (r, s') ∧ Filed n s' live lists' := by
    split
    · obtain ⟨r, s', lists', hfind, hfiled, -⟩ := h.find hfuel .id (fun _ => true) name
      exact ⟨r, s', lists', hfind, hfiled⟩
    · exact ⟨none, s, lists, rfl, h⟩
  obtain ⟨r, t, tlists, hid, ht⟩ := hbyId
  rw [HashTables.findServer, hid]
  dsimp only [Option.bind_some]
  cases r with
  | some a => exact ⟨some a, t, tlists, rfl, ht⟩
  | none =>
    obtain ⟨r, u, ulists, hfind, hu, -⟩ := ht.find hfuel .client isServer name
    rw [hfind]
    cases r with
    | some a => exact ⟨some a, u, ulists, rfl, hu⟩
    | none =>
      simp only [Option.isSome_none, Bool.false_eq_true, if_false, Option.bind_some,
        HashTables.hashFindMaskedServer]
      split
      · exact ⟨none, u, ulists, rfl, hu⟩
      · exact hu.findMasks hfuel _

/-! ### Runs -/

theorem Filed.step (h : Filed n s live lists) (hfuel : n ≤ fuel) {op : HashOp}
    (hok : Admissible live op) :
    ∃ s' lists', s.step fuel op = some s' ∧ Filed (n + 1) s' (liveStep live op) lists' := by
  cases op with
  | add w a name =>
    obtain ⟨lists', hadd⟩ := h.add hok
    exact ⟨_, lists', rfl, hadd⟩
  | del w a =>
    obtain ⟨s', lists', hdel, hfiled⟩ := h.del hfuel w a
    exact ⟨s', lists', hdel, hfiled.mono (Nat.le_succ n)⟩
  | find w name =>
    obtain ⟨r, s', lists', hfind, hfiled, -⟩ := h.find hfuel w (fun _ => true) name
    exact ⟨s', lists', by rw [HashTables.step, hfind, Option.map_some],
      hfiled.mono (Nat.le_succ n)⟩
  | findServer isServer name =>
    obtain ⟨r, s', lists', hfind, hfiled⟩ := h.findServer hfuel isServer name
    exact ⟨s', lists', by rw [HashTables.step, hfind, Option.map_some],
      hfiled.mono (Nat.le_succ n)⟩

theorem Filed.run (h : Filed n s live lists) {ops : List HashOp} (hok : AdmissibleRun live ops)
    (hfuel : n + ops.length ≤ fuel) :
    ∃ s' lists', s.run fuel ops = some s' ∧
      Filed (n + ops.length) s' (ops.foldl liveStep live) lists' := by
  induction ops generalizing n s live lists with
  | nil => exact ⟨s, lists, rfl, h⟩
  | cons op ops ih =>
    rw [List.length_cons] at hfuel
    have hn : n ≤ fuel := by omega
    have hrest : n + 1 + ops.length ≤ fuel := by omega
    obtain ⟨t, tlists, hstep, ht⟩ := h.step hn hok.1
    obtain ⟨s', lists', hrun, hs'⟩ := ih ht hok.2 hrest
    refine ⟨s', lists', ?_, ?_⟩
    · rw [HashTables.run, List.foldlM_cons, hstep]
      exact hrun
    · rw [List.length_cons, ← Nat.add_assoc, Nat.add_right_comm]
      exact hs'

theorem filed_start (key : Nat) :
    Filed 0 (HashTables.start key) (fun _ _ => none) fun _ _ => [] where
  holds _ := Chains.holds_empty
  files _ := Buckets.files_empty
  short _ _ := Nat.le_refl 0
  named h := by cases h
  distinct h := by cases h

/-- After any admissible run: the chains hold the entries that are live, a lookup by any
text gives the live entry with an equal name if there is one, and changes no set of
entries. Equal names have the same hash. -/
theorem hash_tables_refine (key : Nat) {ops : List HashOp}
    (hok : AdmissibleRun (fun _ _ => none) ops) {fuel : Nat} (hfuel : ops.length ≤ fuel) :
    ∃ s, (HashTables.start key).run fuel ops = some s ∧
      (∀ w a, (s.table w).chains.OnChain a ↔ liveAfter ops w a ≠ none) ∧
      (∀ w name, ∃ r s', s.hashFind w (fun _ => true) fuel name = some (r, s') ∧
        Finds (liveAfter ops) w (fun _ => true) name r ∧
        ∀ w' a, (s'.table w').chains.OnChain a ↔ (s.table w').chains.OnChain a) ∧
      ∀ x y, ircEq x y = true → strhash key x = strhash key y := by
  have hlen : 0 + ops.length = ops.length := Nat.zero_add _
  obtain ⟨s, lists, hrun, hfiled⟩ := (filed_start key).run hok (hlen.trans_le hfuel)
  rw [hlen] at hfiled
  refine ⟨s, hrun, hfiled.onChain_iff, fun w name => ?_, fun x y => strhash_eq_of_ircEq⟩
  obtain ⟨r, s', lists', hfind, hfiled', hfinds⟩ := hfiled.find hfuel w (fun _ => true) name
  exact ⟨r, s', hfind, hfinds, fun w' a => (hfiled'.onChain_iff w' a).trans
    (hfiled.onChain_iff w' a).symm⟩

/-- Two clients, with a lookup of the one and the removal of the other. -/
def twoClients : List HashOp :=
  [.add .client 1 "Alice".toList, .add .client 2 "[bob]".toList, .find .client "ALICE".toList,
    .del .client 2]

theorem hash_tables_refine_twoClients :
    ∃ s, (HashTables.start 7).run 4 twoClients = some s ∧
      (∀ w a, (s.table w).chains.OnChain a ↔ liveAfter twoClients w a ≠ none) ∧
      (∀ w name, ∃ r s', s.hashFind w (fun _ => true) 4 name = some (r, s') ∧
        Finds (liveAfter twoClients) w (fun _ => true) name r ∧
        ∀ w' a, (s'.table w').chains.OnChain a ↔ (s.table w').chains.OnChain a) ∧
      ∀ x y, ircEq x y = true → strhash 7 x = strhash 7 y := by
  apply hash_tables_refine 7 _ (Nat.le_refl 4)
  have hempty : Admissible (fun _ _ => none) (.add .client 1 "Alice".toList) := by
    simp [Admissible]
  refine ⟨hempty, ⟨rfl, fun b m hm => ?_⟩, trivial, trivial, trivial⟩
  by_cases hb : b = 1
  · simp only [hb, liveStep, update_self, Option.some.injEq] at hm
    rw [← hm]
    decide
  · simp [liveStep, hb] at hm

end Ircd
