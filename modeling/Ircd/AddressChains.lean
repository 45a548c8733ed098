import Ircd.AddressConf
import Ircd.Lib.Chains
import Mathlib.Data.List.Nodup

/-!
The chains of the address conf table of `hostmask.c` by their pointers: `add_conf_by_address`,
`delete_one_address_conf` and `clear_out_address_conf`, which unlink a record while they walk.

Clearing keeps the temporary records and drops each other one once. A deletion takes out the
record of its conf if it looks in the bucket that the record was put in: not for a conf with an
empty host, which is added under another host (`callsRight_iff`). In every order of all three
the lookups see what the same operations do to lists (`table_refines`).
-/

namespace Ircd

open Function List

namespace AddressChains

open Chains

/-- `ATABLE_SIZE`. -/
def ATABLE_SIZE : Nat := 0x1000

/-- A call of `add_conf_by_address`, and where `MyMalloc` puts the record. -/
structure AddCall where
  type : Nat
  aconf : AccessItem
  arec : Nat

/-- What happens to a record that is unlinked, and to its conf. -/
inductive Event where
  | illegal (aconf : Nat)
  | freeAconf (aconf : Nat)
  | freeArec (arec : Nat)

/-- The table, and the records by their addresses. -/
structure Memory where
  atable : Table Nat
  arecs : Nat → AddressRec
  precValue : Nat
  events : List Event

/-- After `init_host_hash`. No record is read before it is written. -/
def Memory.init : Memory where
  atable := ⟨fun _ => none, fun _ => none⟩
  arecs _ := ⟨.hostname [], 0, 0, [], ⟨0, [], [], none, false, false⟩⟩
  precValue := 0xFFFFFFFF
  events := []

def AddCall.bucket (c : AddCall) : Nat := (recMask (confAddress c.aconf)).hash

/-- `add_conf_by_address`. -/
def Memory.addConfByAddress (m : Memory) (c : AddCall) : Memory :=
  let arec : AddressRec :=
    { mask := recMask (confAddress c.aconf), type := c.type, precedence := m.precValue,
      username := c.aconf.user, aconf := c.aconf }
  { m with
    atable := m.atable.add arec.mask.hash c.arec
    arecs := update m.arecs c.arec arec
    precValue := (m.precValue + 2 ^ 64 - 1) % 2 ^ 64 }

def built (calls : List AddCall) : Memory := calls.foldl Memory.addConfByAddress Memory.init

/-- What is read of the confs: `CONF_FLAGS_TEMPORARY` and `clients`. -/
structure Confs where
  temporary : Nat → Bool
  clients : Nat → Nat

section Operations

variable (confs : Confs)

/-- A record is dropped, and its conf is freed if nothing references it. -/
def dropped (arecs : Nat → AddressRec) (a : Nat) : List Event :=
  let aconf := (arecs a).aconf.ptr
  .illegal aconf :: (if confs.clients aconf = 0 then [.freeAconf aconf] else []) ++ [.freeArec a]

/-- The record `a` behind `last` is unlinked and dropped. -/
def Memory.unlink (i : Nat) (last : Option Nat) (a : Nat) (m : Memory) : Memory :=
  { m with
    atable := m.atable.relink i last (m.atable.next a)
    events := m.events ++ dropped confs m.arecs a }

/-- The loop of `delete_one_address_conf`, from `arecl` and `arec` on. -/
def deleteLoop (hv aconf : Nat) : Nat → Option Nat → Option Nat → Memory → Option Memory
  | _, _, none, m => some m
  | 0, _, some _, _ => none
  | fuel + 1, arecl, some arec, m =>
    if (m.arecs arec).aconf.ptr = aconf then some (m.unlink confs hv arecl arec)
    else deleteLoop hv aconf fuel (some arec) (m.atable.next arec) m

/-- `delete_one_address_conf`. -/
def deleteOneAddressConf (fuel : Nat) (address : CStr) (aconf : AccessItem) (m : Memory) :
    Option Memory :=
  let hv := (recMask address).hash
  deleteLoop confs hv aconf.ptr fuel none (m.atable.head hv) m

/-- The loop of `clear_out_address_conf` over a chain, from `last_arec` and `arec` on. -/
def clearLoop (i : Nat) : Nat → Option Nat → Option Nat → Memory → Option Memory
  | _, _, none, m => some m
  | 0, _, some _, _ => none
  | fuel + 1, last, some arec, m =>
    let next := m.atable.next arec
    if confs.temporary (m.arecs arec).aconf.ptr then clearLoop i fuel (some arec) next m
    else clearLoop i fuel last next (m.unlink confs i last arec)

/-- `clear_out_address_conf`. -/
def clearOutAddressConf (fuel : Nat) (m : Memory) : Option Memory :=
  (List.range ATABLE_SIZE).foldlM (fun m i => clearLoop confs i fuel none (m.atable.head i) m) m

/-! ### What they are for -/

def chainsOf (calls : List AddCall) : Nat → List Nat :=
  calls.foldl (fun chains c => Buckets.add chains c.bucket c.arec) fun _ => []

def kept (arecs : Nat → AddressRec) (a : Nat) : Bool := confs.temporary (arecs a).aconf.ptr

/-- The other records, one bucket after the other. -/
def gone (arecs : Nat → AddressRec) (chains : Nat → List Nat) : List Nat :=
  (List.range ATABLE_SIZE).flatMap fun i => (chains i).filter fun a => !kept confs arecs a

/-- The lookups see the records of the chains. -/
def Memory.view (m : Memory) (chains : Nat → List Nat) : AddressTable :=
  ⟨fun h => (chains h).map m.arecs, m.precValue⟩

/-- Clearing keeps the temporary records in their order, and drops every other one once. -/
def ClearsOut (fuel : Nat) (chains : Nat → List Nat) (m : Memory) : Prop :=
  ∃ m' events, clearOutAddressConf confs fuel m = some m' ∧
    Holds m'.atable (fun i => (chains i).filter (kept confs m.arecs)) ∧ m'.arecs = m.arecs ∧
    m'.events = m.events ++ events ∧
    events = (gone confs m.arecs chains).flatMap (dropped confs m.arecs) ∧ events.Nodup ∧
    ∀ a, a ∈ gone confs m.arecs chains ↔
      (∃ i, a ∈ chains i) ∧ kept confs m.arecs a = false

/-- A deletion with the host and the conf of a record drops this record and no other. -/
def Deletes (fuel : Nat) (chains : Nat → List Nat) (c : AddCall) (m : Memory) : Prop :=
  ∃ m', deleteOneAddressConf confs fuel c.aconf.host c.aconf m = some m' ∧
    Holds m'.atable (Buckets.del chains c.bucket c.arec) ∧ m'.arecs = m.arecs ∧
    m'.events = m.events ++ dropped confs m.arecs c.arec

/-- A conf that is added and then deleted leaves every chain and every lookup as it was. -/
def Restores (fuel : Nat) (calls : List AddCall) (c : AddCall) : Prop :=
  ∃ m', deleteOneAddressConf confs fuel c.aconf.host c.aconf (built (calls ++ [c])) = some m' ∧
    Holds m'.atable (chainsOf calls) ∧
    ∀ crypt q, findConfByAddress crypt (m'.view (chainsOf calls)) q =
      findConfByAddress crypt ((built calls).view (chainsOf calls)) q

end Operations

/-- The calls that build a table, and one of them. Each has made its conf, and each record is
where no other is. -/
structure Calls where
  before : List AddCall
  one : AddCall
  after : List AddCall
  arecs : ((before ++ one :: after).map AddCall.arec).Nodup
  aconfs : ((before ++ one :: after).map fun c => c.aconf.ptr).Nodup

def Calls.all (calls : Calls) : List AddCall := calls.before ++ calls.one :: calls.after

/-- Clearing and deleting are exact. -/
def CallsRight (confs : Confs) (fuel : Nat) (calls : Calls) : Prop :=
  Holds (built calls.all).atable (chainsOf calls.all) ∧
    ClearsOut confs fuel (chainsOf calls.all) (built calls.all) ∧
    Deletes confs fuel (chainsOf calls.all) calls.one (built calls.all) ∧
    Restores confs fuel calls.before calls.one

/-! ### The loops -/

section Loops

variable (confs : Confs) {chains : Nat → List Nat} {loc : Nat → Option Nat} {m : Memory} {i : Nat}

theorem deleteLoop_passes (h : Holds m.atable chains) {aconf fuel : Nat} {mid suf : List Nat}
    (hmid : ∀ a ∈ mid, (m.arecs a).aconf.ptr ≠ aconf) {pre : List Nat}
    (hlist : chains i = pre ++ (mid ++ suf)) :
    deleteLoop confs i aconf (mid.length + fuel) pre.getLast? (mid ++ suf).head? m =
      deleteLoop confs i aconf fuel (pre ++ mid).getLast? suf.head? m := by
  induction mid generalizing pre with
  | nil => rw [length_nil, Nat.zero_add, append_nil, nil_append]
  | cons a mid ih =>
    have hsplit : chains i = (pre ++ [a]) ++ (mid ++ suf) := by simp [hlist]
    have hpass := ih (fun b hb => hmid b (mem_cons_of_mem _ hb)) hsplit
    rw [getLast?_concat, append_assoc] at hpass
    rw [length_cons, Nat.succ_add]
    change deleteLoop confs i aconf (mid.length + fuel + 1) pre.getLast? (some a) m = _
    rw [deleteLoop, if_neg (hmid a mem_cons_self), h.next_eq hlist]
    exact hpass

theorem deleteLoop_hit (h : Holds m.atable chains) {aconf fuel a : Nat} {pre suf : List Nat}
    (hpre : ∀ b ∈ pre, (m.arecs b).aconf.ptr ≠ aconf) (ha : (m.arecs a).aconf.ptr = aconf)
    (hlist : chains i = pre ++ a :: suf) (hfuel : (chains i).length ≤ fuel) :
    deleteLoop confs i aconf fuel none (m.atable.head i) m =
      some (m.unlink confs i pre.getLast? a) := by
  rw [hlist, length_append, length_cons] at hfuel
  obtain ⟨fuel, rfl⟩ := Nat.exists_eq_add_of_le hfuel
  have hpass := @deleteLoop_passes confs _ _ i h aconf (suf.length + fuel + 1) pre (a :: suf) hpre []
    hlist
  rw [(h i).head_eq, hlist, show pre.length + (suf.length + 1) + fuel =
    pre.length + (suf.length + fuel + 1) by omega]
  refine hpass.trans ?_
  rw [nil_append, head?_cons, deleteLoop, if_pos ha]

theorem deleteLoop_miss (h : Holds m.atable chains) {aconf fuel : Nat}
    (hnone : ∀ b ∈ chains i, (m.arecs b).aconf.ptr ≠ aconf) (hfuel : (chains i).length ≤ fuel) :
    deleteLoop confs i aconf fuel none (m.atable.head i) m = some m := by
  obtain ⟨fuel, rfl⟩ := Nat.exists_eq_add_of_le hfuel
  have hpass := @deleteLoop_passes confs _ _ i h aconf fuel (chains i) [] hnone []
    (append_nil _).symm
  rw [append_nil] at hpass
  rw [(h i).head_eq]
  refine hpass.trans ?_
  cases fuel <;> rfl

theorem files_filter (hf : Buckets.Files chains loc) (keep : Nat → Nat → Bool) :
    ∃ loc', Buckets.Files (fun k => (chains k).filter (keep k)) loc' := by
  refine ⟨fun a => (loc a).filter fun k => keep k a, fun {k a} => ?_, fun k => (hf.nodup k).filter _⟩
  rw [mem_filter, hf.mem, Option.filter_eq_some_iff]

theorem clearLoop_spec (h : Holds m.atable chains) (hf : Buckets.Files chains loc) {fuel : Nat}
    {pre suf : List Nat} (hlist : chains i = pre ++ suf) (hfuel : suf.length ≤ fuel) :
    ∃ m', clearLoop confs i fuel pre.getLast? suf.head? m = some m' ∧ m'.arecs = m.arecs ∧
      Holds m'.atable (update chains i (pre ++ suf.filter (kept confs m.arecs))) ∧
      m'.events = m.events ++
        (suf.filter fun a => !kept confs m.arecs a).flatMap (dropped confs m.arecs) := by
  induction suf generalizing pre m chains loc fuel with
  | nil =>
    refine ⟨m, by cases fuel <;> rfl, rfl, ?_, (append_nil _).symm⟩
    rwa [filter_nil, ← hlist, update_eq_self]
  | cons a suf ih =>
    obtain ⟨fuel, rfl⟩ := Nat.exists_eq_add_one_of_ne_zero
      (Nat.ne_of_gt (Nat.zero_lt_of_lt hfuel))
    have hfuel := Nat.le_of_succ_le_succ hfuel
    rw [head?_cons, clearLoop, h.next_eq hlist]
    by_cases htemp : confs.temporary (m.arecs a).aconf.ptr = true
    · have hkept : kept confs m.arecs a = true := htemp
      have hsplit : chains i = (pre ++ [a]) ++ suf := by simp [hlist]
      obtain ⟨m', hloop, harecs, hholds, hevents⟩ := ih h hf hsplit hfuel
      rw [getLast?_concat] at hloop
      rw [append_assoc] at hholds
      rw [if_pos htemp, filter_cons_of_pos hkept, filter_cons_of_neg (by simp [hkept])]
      exact ⟨m', hloop, harecs, hholds, hevents⟩
    · have hkept : ¬kept confs m.arecs a = true := htemp
      have hnd := hf.nodup i
      rw [hlist] at hnd
      have hpre : a ∉ pre := fun ha => (List.nodup_append.mp hnd).2.2 a ha a (by simp) rfl
      have herase : Buckets.del chains i a i = pre ++ suf := by
        rw [Buckets.del, update_self, hlist, erase_append_right _ hpre,
          erase_cons_head]
      have hplace : ∀ k, loc a = some k → k = i := fun k hk =>
        Option.some.inj (hk.symm.trans (hf.mem.mp (by rw [hlist]; simp)))
      obtain ⟨m', hloop, harecs, hholds, hevents⟩ := ih (m := m.unlink confs i pre.getLast? a)
        (h.relink hf hlist) (hf.del hplace) herase hfuel
      rw [Buckets.del, update_idem] at hholds
      rw [if_neg htemp, filter_cons_of_neg hkept, filter_cons_of_pos (by simp [hkept]),
        flatMap_cons, ← append_assoc]
      exact ⟨m', hloop, harecs, hholds, hevents⟩

theorem clear_buckets (h : Holds m.atable chains) (hf : Buckets.Files chains loc) {fuel : Nat}
    (hfuel : ∀ k, (chains k).length ≤ fuel) (n : Nat) :
    ∃ m', (List.range n).foldlM
        (fun m i => clearLoop confs i fuel none (m.atable.head i) m) m = some m' ∧
      m'.arecs = m.arecs ∧
      Holds m'.atable (fun k => (chains k).filter fun a => decide (n ≤ k) || kept confs m.arecs a) ∧
      m'.events = m.events ++ ((List.range n).flatMap fun i =>
        (chains i).filter fun a => !kept confs m.arecs a).flatMap (dropped confs m.arecs) := by
  induction n with
  | zero =>
    refine ⟨m, rfl, rfl, ?_, (append_nil _).symm⟩
    simpa using h
  | succ n ih =>
    obtain ⟨m₁, hfold, harecs, hholds, hevents⟩ := ih
    obtain ⟨loc₁, hf₁⟩ := files_filter hf fun k a => decide (n ≤ k) || kept confs m.arecs a
    have hwhole : ((chains n).filter fun a => decide (n ≤ n) || kept confs m.arecs a) =
        [] ++ chains n := by simp
    obtain ⟨m', hloop, harecs', hholds', hevents'⟩ :=
      clearLoop_spec confs hholds hf₁ hwhole (hfuel n)
    have hhead : m₁.atable.head n = (chains n).head? :=
      (hholds n).head_eq.trans (congrArg List.head? hwhole)
    rw [← hhead] at hloop
    rw [harecs] at harecs' hholds' hevents'
    refine ⟨m', ?_, harecs', ?_, ?_⟩
    · rw [range_succ, foldlM_append, hfold]
      change (clearLoop confs n fuel none (m₁.atable.head n) m₁).bind some = some m'
      exact congrArg (fun result => result.bind some) hloop
    · have hsame : (fun k => (chains k).filter fun a =>
            decide (n + 1 ≤ k) || kept confs m.arecs a) =
          update (fun k => (chains k).filter fun a =>
            decide (n ≤ k) || kept confs m.arecs a) n
            ([] ++ (chains n).filter (kept confs m.arecs)) := by
        funext k
        by_cases hk : k = n
        · subst hk
          simp
        · have hle : n + 1 ≤ k ↔ n ≤ k := by omega
          simp only [update_of_ne hk, hle]
      rw [hsame]
      exact hholds'
    · rw [hevents', hevents, range_succ, flatMap_append, flatMap_append,
        append_assoc, flatMap_singleton]

end Loops

/-! ### The tables that are built -/

theorem chainsOf_concat (calls : List AddCall) (c : AddCall) :
    chainsOf (calls ++ [c]) = Buckets.add (chainsOf calls) c.bucket c.arec :=
  foldl_append ..

theorem built_concat (calls : List AddCall) (c : AddCall) :
    built (calls ++ [c]) = (built calls).addConfByAddress c :=
  foldl_append ..

theorem mem_chainsOf {calls : List AddCall} {a k : Nat} :
    a ∈ chainsOf calls k ↔ ∃ c ∈ calls, c.arec = a ∧ c.bucket = k := by
  induction calls using List.reverseRecOn with
  | nil => simp [chainsOf]
  | append_singleton calls c ih =>
    rw [chainsOf_concat, Buckets.add, update_apply]
    by_cases hk : k = c.bucket
    · subst hk
      simp [ih, or_comm, eq_comm]
    · simp [hk, ih, Ne.symm hk]

theorem length_chainsOf (calls : List AddCall) (k : Nat) :
    (chainsOf calls k).length ≤ calls.length := by
  induction calls using List.reverseRecOn with
  | nil => exact Nat.le_refl 0
  | append_singleton calls c ih =>
    rw [chainsOf_concat, Buckets.add, update_apply, length_append]
    split
    · rename_i hk
      rw [hk] at ih
      exact Nat.succ_le_succ ih
    · exact Nat.le_add_right_of_le ih

theorem arec_ne {calls : List AddCall} {c : AddCall}
    (h : ((calls ++ [c]).map AddCall.arec).Nodup) :
    (calls.map AddCall.arec).Nodup ∧ ∀ d ∈ calls, d.arec ≠ c.arec := by
  rw [map_append] at h
  obtain ⟨hcalls, -, hdis⟩ := List.nodup_append.mp h
  exact ⟨hcalls, fun d hd => hdis _ (mem_map_of_mem hd) _ mem_cons_self⟩

theorem built_spec {calls : List AddCall} (h : (calls.map AddCall.arec).Nodup) :
    Holds (built calls).atable (chainsOf calls) ∧ (∃ loc, Buckets.Files (chainsOf calls) loc) ∧
      ∀ c ∈ calls, ((built calls).arecs c.arec).aconf = c.aconf := by
  induction calls using List.reverseRecOn with
  | nil => exact ⟨holds_empty, ⟨_, Buckets.files_empty⟩, fun c hc => absurd hc not_mem_nil⟩
  | append_singleton calls c ih =>
    obtain ⟨hcalls, hnew⟩ := arec_ne h
    obtain ⟨hholds, ⟨loc, hfiles⟩, hstored⟩ := ih hcalls
    have hout : ∀ k, c.arec ∉ chainsOf calls k := by
      intro k hk
      obtain ⟨d, hd, heq, -⟩ := mem_chainsOf.mp hk
      exact hnew d hd heq
    have hnone : loc c.arec = none := by
      cases hloc : loc c.arec with
      | none => rfl
      | some k => exact absurd (hfiles.mem.mpr hloc) (hout k)
    rw [chainsOf_concat, built_concat]
    refine ⟨hholds.add hout, ⟨_, hfiles.add hnone⟩, fun d hd => ?_⟩
    rcases List.mem_append.mp hd with hd | hd
    · refine Eq.trans ?_ (hstored d hd)
      exact congrArg AddressRec.aconf (update_of_ne (hnew d hd) _ _)
    · rw [List.mem_singleton.mp hd]
      change (update (built calls).arecs c.arec _ c.arec).aconf = c.aconf
      rw [update_self]

theorem map_arecs_concat {calls : List AddCall} {c : AddCall}
    (hnew : ∀ d ∈ calls, d.arec ≠ c.arec) (k : Nat) :
    (chainsOf calls k).map ((built calls).addConfByAddress c).arecs =
      (chainsOf calls k).map (built calls).arecs := by
  refine map_congr_left fun a ha => update_of_ne ?_ _ _
  obtain ⟨d, hd, rfl, -⟩ := mem_chainsOf.mp ha
  exact hnew d hd

/-! ### Buckets -/

theorem and_atableMask_lt (v : Nat) : v &&& atableMask < ATABLE_SIZE :=
  Nat.lt_succ_of_le Nat.and_le_right

theorem hashIpv6Loop_lt (bits v : Nat) (bytes : List Nat) :
    hashIpv6Loop bits v bytes < ATABLE_SIZE := by
  induction bytes generalizing bits v with
  | nil => exact and_atableMask_lt v
  | cons b bytes ih =>
    rw [hashIpv6Loop]
    split_ifs
    · exact ih _ _
    · exact and_atableMask_lt _
    · exact and_atableMask_lt _

theorem maskHashLoop_lt (hp after before : CStr) : maskHashLoop hp after before < ATABLE_SIZE := by
  induction before generalizing hp after with
  | nil => exact and_atableMask_lt _
  | cons c before ih =>
    rw [maskHashLoop]
    split_ifs
    · exact and_atableMask_lt _
    · exact ih _ _
    · exact ih _ _

theorem AddCall.bucket_lt (c : AddCall) : c.bucket < ATABLE_SIZE := by
  rw [AddCall.bucket]
  cases recMask (confAddress c.aconf) with
  | hostname host => exact maskHashLoop_lt _ _ _
  | ipv4 addr bits =>
    rw [RecMask.hash, hashIpv4]
    split_ifs
    · exact and_atableMask_lt _
    · decide
  | ipv6 addr bits => exact hashIpv6Loop_lt _ _ _

/-! ### Every order of operations -/

/-- The operations on the table, with what is read of the confs at that time. -/
inductive TableOp where
  | add (c : AddCall)
  | delete (confs : Confs) (address : CStr) (aconf : AccessItem)
  | clear (confs : Confs)

def TableOp.run (fuel : Nat) (m : Memory) : TableOp → Option Memory
  | add c => some (m.addConfByAddress c)
  | delete confs address aconf => deleteOneAddressConf confs fuel address aconf m
  | clear confs => clearOutAddressConf confs fuel m

/-- The operation on the lists that the lookups read. -/
def TableOp.act (t : AddressTable) : TableOp → AddressTable
  | add c => Ircd.addConfByAddress t c.type c.aconf
  | delete _ address aconf => Ircd.deleteOneAddressConf t address aconf
  | clear confs =>
    { t with atable := fun h => (t.atable h).filter fun arec => confs.temporary arec.aconf.ptr }

/-- `MyMalloc` returns no record that is on a chain at that time. -/
def Fresh (fuel : Nat) : Memory → List TableOp → Prop
  | _, [] => True
  | m, op :: ops => (∀ c, op = .add c → ¬m.atable.OnChain c.arec) ∧
      ∀ m', op.run fuel m = some m' → Fresh fuel m' ops

/-- The pointers form chains of at most `n` records, which the lookups see as the lists of `t`. -/
def Memory.Shows (n : Nat) (m : Memory) (t : AddressTable) : Prop :=
  ∃ chains loc, Holds m.atable chains ∧ Buckets.Files chains loc ∧
    (∀ k, (chains k).length ≤ n ∧ (ATABLE_SIZE ≤ k → chains k = [])) ∧ m.view chains = t

variable {n fuel : Nat} {m : Memory} {t : AddressTable}

theorem Memory.Shows.mono {k : Nat} (h : m.Shows n t) (hle : n ≤ k) : m.Shows k t := by
  obtain ⟨chains, loc, hholds, hfiles, hchains, hview⟩ := h
  exact ⟨chains, loc, hholds, hfiles, fun k => ⟨(hchains k).1.trans hle, (hchains k).2⟩, hview⟩

theorem Memory.Shows.add (h : m.Shows n t) {c : AddCall} (hnew : ¬m.atable.OnChain c.arec) :
    (m.addConfByAddress c).Shows (n + 1) (Ircd.addConfByAddress t c.type c.aconf) := by
  obtain ⟨chains, loc, hholds, hfiles, hchains, rfl⟩ := h
  have hout : ∀ k, c.arec ∉ chains k := fun k hk => hnew (hholds.onChain_iff.mpr ⟨k, hk⟩)
  have hnone : loc c.arec = none := by
    cases hloc : loc c.arec with
    | none => rfl
    | some k => exact absurd (hfiles.mem.mpr hloc) (hout k)
  have hsame : ∀ k, (chains k).map (m.addConfByAddress c).arecs = (chains k).map m.arecs :=
    fun k => map_congr_left fun a ha => update_of_ne (fun heq : a = c.arec => hout k (heq ▸ ha)) _ _
  refine ⟨_, _, hholds.add (k := c.bucket) hout, hfiles.add hnone, fun k => ?_, ?_⟩
  · by_cases hk : k = c.bucket
    · subst hk
      rw [Buckets.add, update_self]
      exact ⟨Nat.succ_le_succ (hchains _).1, fun hle => absurd c.bucket_lt (Nat.not_lt.mpr hle)⟩
    · rw [Buckets.add, update_of_ne hk]
      exact ⟨Nat.le_succ_of_le (hchains k).1, (hchains k).2⟩
  · refine congrArg (fun atable => (⟨atable, _⟩ : AddressTable)) (funext fun k => ?_)
    change (update chains c.bucket _ k).map _ = update (fun k => (chains k).map m.arecs) c.bucket _ k
    by_cases hk : k = c.bucket
    · subst hk
      rw [update_self, update_self, map_cons, hsame]
      exact congrArg (· :: _) (update_self ..)
    · rw [update_of_ne hk, update_of_ne hk, hsame]

theorem Memory.Shows.delete (h : m.Shows n t) (hfuel : n ≤ fuel) (confs : Confs) (address : CStr)
    (aconf : AccessItem) : ∃ m', deleteOneAddressConf confs fuel address aconf m = some m' ∧
      m'.Shows n (Ircd.deleteOneAddressConf t address aconf) := by
  obtain ⟨chains, loc, hholds, hfiles, hchains, rfl⟩ := h
  unfold deleteOneAddressConf Ircd.deleteOneAddressConf
  generalize (recMask address).hash = hv
  have hle := (hchains hv).1.trans hfuel
  have herase : ((m.view chains).atable hv).eraseP (fun arec => arec.aconf.ptr == aconf.ptr) =
      ((chains hv).eraseP fun a => (m.arecs a).aconf.ptr == aconf.ptr).map m.arecs :=
    eraseP_map ..
  by_cases hhit : ∃ a ∈ chains hv, ((m.arecs a).aconf.ptr == aconf.ptr) = true
  · obtain ⟨a, ha, hptr⟩ := hhit
    obtain ⟨a, pre, suf, hpre, hptr, hlist, hrest⟩ := exists_of_eraseP (p := fun a => (m.arecs a).aconf.ptr == aconf.ptr) ha hptr
    have hdel : Buckets.del chains hv a = update chains hv (pre ++ suf) := by
      have hnot : a ∉ pre := fun hmem => hpre a hmem hptr
      rw [Buckets.del, hlist, erase_append_right _ hnot, erase_cons_head]
    have hplace : ∀ k, loc a = some k → k = hv := fun k hk =>
      Option.some.inj (hk.symm.trans (hfiles.mem.mp (hlist ▸ mem_append_right pre mem_cons_self)))
    refine ⟨_, deleteLoop_hit confs hholds (fun b hb => by simpa using hpre b hb)
      (by simpa using hptr) hlist hle, _, _, hholds.relink hfiles hlist, hfiles.del hplace,
      fun k => ?_, ?_⟩
    · by_cases hk : k = hv
      · subst hk
        rw [Buckets.del, update_self]
        exact ⟨length_erase_le.trans (hchains k).1, fun hout => by rw [(hchains k).2 hout]; rfl⟩
      · rw [Buckets.del, update_of_ne hk]
        exact hchains k
    · dsimp only
      rw [herase, hrest, hdel]
      refine congrArg (fun atable => (⟨atable, _⟩ : AddressTable)) (funext fun k => ?_)
      exact apply_update (fun _ (l : List Nat) => l.map m.arecs) chains hv (pre ++ suf) k
  · have hnone : ∀ a ∈ chains hv, ¬((m.arecs a).aconf.ptr == aconf.ptr) = true :=
      fun a ha hptr => hhit ⟨a, ha, hptr⟩
    refine ⟨m, deleteLoop_miss confs hholds (fun a ha => by simpa using hnone a ha) hle, chains, loc,
      hholds, hfiles, hchains, ?_⟩
    dsimp only
    rw [herase, eraseP_of_forall_not hnone]
    exact congrArg (fun atable => (⟨atable, _⟩ : AddressTable)) (update_eq_self hv _).symm

theorem clearLoop_precValue {confs : Confs} {m m' : Memory} {i fuel : Nat} {last p : Option Nat}
    (h : clearLoop confs i fuel last p m = some m') : m'.precValue = m.precValue := by
  fun_induction clearLoop confs i fuel last p m with
  | case1 => rw [Option.some.inj h]
  | case2 => cases h
  | case3 _ _ _ _ _ _ ih => exact ih h
  | case4 _ _ _ _ _ _ ih => exact ih h

theorem clear_precValue (confs : Confs) {m m' : Memory}
    (h : clearOutAddressConf confs fuel m = some m') : m'.precValue = m.precValue := by
  unfold clearOutAddressConf at h
  generalize List.range ATABLE_SIZE = l at h
  induction l generalizing m with
  | nil => rw [Option.some.inj h]
  | cons i l ih =>
    obtain ⟨m₁, hloop, hrest⟩ := Option.bind_eq_some_iff.mp ((foldlM_cons ..).symm.trans h)
    rw [ih hrest, clearLoop_precValue hloop]

theorem Memory.Shows.clear (h : m.Shows n t) (hfuel : n ≤ fuel) (confs : Confs) :
    ∃ m', clearOutAddressConf confs fuel m = some m' ∧ m'.Shows n (TableOp.act t (.clear confs)) := by
  obtain ⟨chains, loc, hholds, hfiles, hchains, rfl⟩ := h
  obtain ⟨m', hclear, harecs, hkept, -⟩ := clear_buckets confs hholds hfiles
    (fun k => (hchains k).1.trans hfuel) ATABLE_SIZE
  obtain ⟨loc', hfiles'⟩ := files_filter hfiles
    fun k a => decide (ATABLE_SIZE ≤ k) || kept confs m.arecs a
  refine ⟨m', hclear, _, loc', hkept, hfiles', fun k => ⟨(length_filter_le _ _).trans (hchains k).1,
    fun hout => by rw [(hchains k).2 hout]; rfl⟩, ?_⟩
  have hsame : ∀ k, (chains k).filter (fun a => decide (ATABLE_SIZE ≤ k) || kept confs m.arecs a) =
      (chains k).filter (kept confs m.arecs) := by
    intro k
    by_cases hout : ATABLE_SIZE ≤ k
    · rw [(hchains k).2 hout]
      rfl
    · rw [decide_eq_false hout]
      rfl
  unfold Memory.view TableOp.act
  rw [harecs, clear_precValue confs hclear]
  refine congrArg (fun atable => (⟨atable, _⟩ : AddressTable)) (funext fun k => ?_)
  dsimp only
  rw [hsame]
  exact (filter_map (f := m.arecs) (p := fun arec => confs.temporary arec.aconf.ptr)).symm

theorem Memory.Shows.run {ops : List TableOp} (h : m.Shows n t) (hfuel : n + ops.length ≤ fuel)
    (hfresh : Fresh fuel m ops) : ∃ m', ops.foldlM (TableOp.run fuel) m = some m' ∧
      m'.Shows (n + ops.length) (ops.foldl TableOp.act t) := by
  induction ops generalizing m n t with
  | nil => exact ⟨m, rfl, h⟩
  | cons op ops ih =>
    rw [length_cons] at hfuel ⊢
    have hle : n ≤ fuel := by omega
    obtain ⟨m₁, hrun, hshows⟩ : ∃ m₁, op.run fuel m = some m₁ ∧ m₁.Shows (n + 1) (op.act t) := by
      cases op with
      | add c => exact ⟨_, rfl, h.add (hfresh.1 c rfl)⟩
      | delete confs address aconf =>
        obtain ⟨m₁, hrun, hshows⟩ := h.delete hle confs address aconf
        exact ⟨m₁, hrun, hshows.mono (Nat.le_succ n)⟩
      | clear confs =>
        obtain ⟨m₁, hrun, hshows⟩ := h.clear hle confs
        exact ⟨m₁, hrun, hshows.mono (Nat.le_succ n)⟩
    obtain ⟨m', hrest, hend⟩ := ih hshows (by omega) (hfresh.2 m₁ hrun)
    refine ⟨m', ?_, ?_⟩
    · rw [foldlM_cons, hrun]
      exact hrest
    · rwa [foldl_cons, show n + (ops.length + 1) = n + 1 + ops.length by omega]

/-- In every order of additions, deletions and clearings the loops over the pointers end, and the
lookups see what the operations on lists give. -/
theorem table_refines (ops : List TableOp) (more : Nat)
    (hfresh : Fresh (ops.length + more) Memory.init ops) :
    ∃ m, ops.foldlM (TableOp.run (ops.length + more)) Memory.init = some m ∧
      m.Shows ops.length (ops.foldl TableOp.act AddressTable.init) := by
  have hinit : Memory.init.Shows 0 AddressTable.init :=
    ⟨_, _, holds_empty, Buckets.files_empty, fun _ => ⟨le_rfl, fun _ => rfl⟩, rfl⟩
  have hrun := hinit.run (by omega) hfresh
  rwa [Nat.zero_add] at hrun

theorem table_refines_again :
    let aconf : AccessItem := ⟨1, ['h'], [], none, false, false⟩
    let confs : Confs := ⟨fun _ => false, fun _ => 1⟩
    let ops : List TableOp :=
      [.add ⟨1, aconf, 1⟩, .add ⟨1, aconf, 2⟩, .clear confs, .delete confs ['h'] aconf]
    ∃ m, ops.foldlM (TableOp.run 4) Memory.init = some m ∧
      m.Shows 4 (ops.foldl TableOp.act AddressTable.init) := by
  intro aconf confs ops
  have hempty : ∀ a, ¬Memory.init.atable.OnChain a := fun a hon => by
    obtain ⟨_, ha⟩ := holds_empty.onChain_iff.mp hon
    exact not_mem_nil ha
  refine table_refines ops 0 ⟨fun c _ => hempty _, fun m hadd => ⟨fun c hc hon => ?_,
    fun _ _ => ⟨nofun, fun _ _ => ⟨nofun, fun _ _ => trivial⟩⟩⟩⟩
  obtain rfl := TableOp.add.inj hc
  rw [← Option.some.inj hadd] at hon
  obtain ⟨k, hk⟩ := (holds_empty.add fun _ => not_mem_nil).onChain_iff.mp hon
  rw [Buckets.add, update_apply] at hk
  split at hk <;> simp at hk

/-! ### What is exact -/

section Exact

variable (confs : Confs) {calls : List AddCall} {fuel : Nat}

/-- The calls, each with a new record and a conf of its own. -/
structure Distinct (calls : List AddCall) : Prop where
  arecs : (calls.map AddCall.arec).Nodup
  aconfs : (calls.map fun c => c.aconf.ptr).Nodup

theorem nodup_dropped {arecs : Nat → AddressRec} {l : List Nat} (hl : l.Nodup)
    (hinj : ∀ a ∈ l, ∀ b ∈ l, (arecs a).aconf.ptr = (arecs b).aconf.ptr → a = b) :
    (l.flatMap (dropped confs arecs)).Nodup := by
  have hmem : ∀ a e, e ∈ dropped confs arecs a → e = .illegal (arecs a).aconf.ptr ∨
      e = .freeAconf (arecs a).aconf.ptr ∨ e = .freeArec a := by
    intro a e he
    simp only [dropped, mem_append, mem_cons, not_mem_nil, or_false] at he
    rcases he with (he | he) | he
    · exact Or.inl he
    · split_ifs at he
      · exact Or.inr (Or.inl (List.mem_singleton.mp he))
      · exact absurd he not_mem_nil
    · exact Or.inr (Or.inr he)
  rw [nodup_flatMap]
  refine ⟨fun a _ => ?_, hl.imp_of_mem fun {a b} ha hb hne e hea heb => hne ?_⟩
  · simp only [dropped]
    split_ifs <;> simp
  · have heq := hmem b e heb
    rcases hmem a e hea with rfl | rfl | rfl <;> simp at heq
    · exact hinj a ha b hb heq
    · exact hinj a ha b hb heq
    · exact heq

theorem clearsOut (h : Distinct calls) (hfuel : calls.length ≤ fuel) :
    ClearsOut confs fuel (chainsOf calls) (built calls) := by
  obtain ⟨hholds, ⟨loc, hfiles⟩, hstored⟩ := built_spec h.arecs
  obtain ⟨m', hclear, harecs, hkept, hevents⟩ := clear_buckets confs hholds hfiles
    (fun k => (length_chainsOf calls k).trans hfuel) ATABLE_SIZE
  have hgone : ∀ a, a ∈ gone confs (built calls).arecs (chainsOf calls) ↔
      (∃ i, a ∈ chainsOf calls i) ∧ kept confs (built calls).arecs a = false := by
    intro a
    simp only [gone, mem_flatMap, mem_range, mem_filter, Bool.not_eq_true']
    constructor
    · rintro ⟨i, -, ha, hnot⟩
      exact ⟨⟨i, ha⟩, hnot⟩
    · rintro ⟨⟨i, ha⟩, hnot⟩
      obtain ⟨c, -, -, rfl⟩ := mem_chainsOf.mp ha
      exact ⟨_, c.bucket_lt, ha, hnot⟩
  have hnodup : (gone confs (built calls).arecs (chainsOf calls)).Nodup := by
    rw [gone, nodup_flatMap]
    refine ⟨fun i _ => (hfiles.nodup i).filter _, List.nodup_range.imp fun {i j} hne a hi hj => ?_⟩
    exact notMem_of_ne hfiles hne (mem_of_mem_filter hj) (mem_of_mem_filter hi)
  refine ⟨m', _, hclear, ?_, harecs, hevents, rfl, nodup_dropped confs hnodup ?_, hgone⟩
  · intro k
    have hsame : ((chainsOf calls k).filter fun a =>
        decide (ATABLE_SIZE ≤ k) || kept confs (built calls).arecs a) =
          (chainsOf calls k).filter (kept confs (built calls).arecs) := by
      refine filter_congr fun a ha => ?_
      obtain ⟨c, -, -, rfl⟩ := mem_chainsOf.mp ha
      rw [decide_eq_false (Nat.not_le_of_lt c.bucket_lt), Bool.false_or]
    dsimp only
    rw [← hsame]
    exact hkept k
  · intro a ha b hb heq
    obtain ⟨⟨i, hi⟩, -⟩ := (hgone a).mp ha
    obtain ⟨⟨j, hj⟩, -⟩ := (hgone b).mp hb
    obtain ⟨c, hc, rfl, -⟩ := mem_chainsOf.mp hi
    obtain ⟨d, hd, rfl, -⟩ := mem_chainsOf.mp hj
    rw [hstored c hc, hstored d hd] at heq
    exact congrArg AddCall.arec (inj_on_of_nodup_map h.aconfs hc hd heq)

theorem ptr_ne (h : Distinct calls) {c : AddCall} (hc : c ∈ calls) {k a : Nat}
    (ha : a ∈ chainsOf calls k) (hne : a ≠ c.arec) :
    ((built calls).arecs a).aconf.ptr ≠ c.aconf.ptr := by
  obtain ⟨-, -, hstored⟩ := built_spec h.arecs
  obtain ⟨d, hd, rfl, -⟩ := mem_chainsOf.mp ha
  rw [hstored d hd]
  exact fun heq => hne (congrArg AddCall.arec (inj_on_of_nodup_map h.aconfs hd hc heq))

theorem deletes (h : Distinct calls) (hfuel : calls.length ≤ fuel) {c : AddCall} (hc : c ∈ calls)
    (hhost : c.aconf.host ≠ []) : Deletes confs fuel (chainsOf calls) c (built calls) := by
  obtain ⟨hholds, ⟨loc, hfiles⟩, hstored⟩ := built_spec h.arecs
  have hbucket : (recMask c.aconf.host).hash = c.bucket := by
    rw [AddCall.bucket, confAddress, if_neg (by simpa using hhost)]
  obtain ⟨pre, suf, hlist⟩ := append_of_mem (mem_chainsOf.mpr ⟨c, hc, rfl, rfl⟩)
  have hpre : ∀ b ∈ pre, ((built calls).arecs b).aconf.ptr ≠ c.aconf.ptr := by
    intro b hb
    refine ptr_ne h hc (k := c.bucket) (by rw [hlist]; exact mem_append_left _ hb) ?_
    rintro rfl
    have hnd := hfiles.nodup c.bucket
    rw [hlist] at hnd
    exact (List.nodup_append.mp hnd).2.2 _ hb _ mem_cons_self rfl
  have hhit := deleteLoop_hit confs hholds hpre (congrArg AccessItem.ptr (hstored c hc))
    hlist ((length_chainsOf calls c.bucket).trans hfuel)
  refine ⟨(built calls).unlink confs c.bucket pre.getLast? c.arec, ?_,
    hholds.relink hfiles hlist, rfl, rfl⟩
  rw [deleteOneAddressConf, hbucket]
  exact hhit

theorem not_deletes (h : Distinct calls) (hfuel : calls.length ≤ fuel) {c : AddCall}
    (hc : c ∈ calls) (hhost : c.aconf.host = []) :
    ¬Deletes confs fuel (chainsOf calls) c (built calls) := by
  rintro ⟨m', hdelete, hdel, -, -⟩
  obtain ⟨hholds, ⟨loc, hfiles⟩, hstored⟩ := built_spec h.arecs
  have hmem : c.arec ∈ chainsOf calls c.bucket := mem_chainsOf.mpr ⟨c, hc, rfl, rfl⟩
  have hbucket : (recMask c.aconf.host).hash ≠ c.bucket := by
    rw [AddCall.bucket, confAddress, hhost]
    decide
  have hnone : ∀ b ∈ chainsOf calls (recMask c.aconf.host).hash,
      ((built calls).arecs b).aconf.ptr ≠ c.aconf.ptr := by
    intro b hb
    refine ptr_ne h hc hb ?_
    rintro rfl
    exact notMem_of_ne hfiles hbucket hmem hb
  have hmiss := deleteLoop_miss confs hholds hnone
    ((length_chainsOf calls _).trans hfuel)
  obtain rfl : built calls = m' := Option.some.inj (hmiss.symm.trans hdelete)
  exact notMem_del hfiles hmem c.bucket (seg_unique (hholds c.bucket) (hdel c.bucket) ▸ hmem)

theorem restores {c : AddCall} (h : Distinct (calls ++ [c])) (hfuel : calls.length < fuel)
    (hhost : c.aconf.host ≠ []) : Restores confs fuel calls c := by
  have hc : c ∈ calls ++ [c] := mem_append_right _ mem_cons_self
  have hlong : (calls ++ [c]).length ≤ fuel := by
    rw [length_append]
    exact hfuel
  obtain ⟨m', hdelete, hdel, harecs, -⟩ := deletes confs h hlong hc hhost
  obtain ⟨-, hnew⟩ := arec_ne h.arecs
  rw [chainsOf_concat, Buckets.del, Buckets.add, update_idem, update_self,
    erase_cons_head, update_eq_self] at hdel
  refine ⟨m', hdelete, hdel, fun crypt q => ?_⟩
  have hview : ∀ k, (chainsOf calls k).map m'.arecs = (chainsOf calls k).map (built calls).arecs := by
    intro k
    rw [harecs, built_concat]
    exact map_arecs_concat hnew k
  have hsame : m'.view (chainsOf calls) =
      { (built calls).view (chainsOf calls) with precValue := m'.precValue } :=
    congrArg (fun atable => (⟨atable, m'.precValue⟩ : AddressTable)) (funext hview)
  rw [hsame]
  rfl

end Exact

/-- Clearing and deleting are exact exactly for a conf with a host. -/
theorem callsRight_iff (confs : Confs) (calls : Calls) (more : Nat) :
    CallsRight confs (calls.all.length + more) calls ↔ calls.one.aconf.host ≠ [] := by
  have hall : Distinct calls.all := ⟨calls.arecs, calls.aconfs⟩
  have hone : calls.one ∈ calls.all := mem_append_right _ mem_cons_self
  have hfuel : calls.all.length ≤ calls.all.length + more := Nat.le_add_right _ _
  constructor
  · rintro ⟨-, -, hdeletes, -⟩ hhost
    exact not_deletes confs hall hfuel hone hhost hdeletes
  · intro hhost
    have hfront : (calls.before ++ [calls.one]).Sublist calls.all :=
      List.Sublist.append_left (List.singleton_sublist.mpr mem_cons_self) _
    have hbefore : Distinct (calls.before ++ [calls.one]) :=
      ⟨calls.arecs.sublist (hfront.map _), calls.aconfs.sublist (hfront.map _)⟩
    have hlength := hfront.length_le
    rw [length_append] at hlength
    exact ⟨(built_spec calls.arecs).1, clearsOut confs hall hfuel, deletes confs hall hfuel hone hhost,
      restores confs hbefore (Nat.lt_of_lt_of_le hlength hfuel) hhost⟩

def hostless : Calls where
  before := []
  one := ⟨1, ⟨1, [], [], none, false, false⟩, 1⟩
  after := []
  arecs := by decide
  aconfs := by decide

/-- The record of the conf without a host is still in its chain. -/
theorem hostless_stays : ¬CallsRight ⟨fun _ => false, fun _ => 0⟩ 1 hostless := by
  rintro ⟨-, -, hdeletes, -⟩
  exact not_deletes _ ⟨hostless.arecs, hostless.aconfs⟩ (Nat.le_refl 1) mem_cons_self rfl
    hdeletes

end AddressChains

end Ircd
