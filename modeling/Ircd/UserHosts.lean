import Ircd.HashTables
import Ircd.Cidr

/-!
The counters of clients per user and host: `add_user_host`, `delete_user_host` and
`count_user_host` over the host table of `hash.c`.

`NamesExact` says that the entries of a host count its clients by user name; it is
kept by one client that comes or goes (`NamesExact.add`, `NamesExact.drop`).
`Counted` puts the hosts together, on top of `Filed` for their table.
-/

namespace Ircd

open Function List

/-! ### The records -/

/-- The three counters of a user name at a host. -/
structure HostCounts where
  gcount : Int := 0
  lcount : Int := 0
  icount : Int := 0
  deriving DecidableEq, Repr

/-- `struct NameHost`. -/
structure NameHost extends HostCounts where
  name : CStr
  deriving DecidableEq, Repr

/-- The host table, the list of names of each record, and the next free address. -/
structure UserHosts where
  tables : HashTables
  list : Nat → List NameHost
  next : Nat

def HostCounts.up (hasident isGlobal : Bool) (c : HostCounts) : HostCounts where
  gcount := c.gcount + 1
  lcount := if isGlobal then c.lcount else c.lcount + 1
  icount := if !isGlobal && hasident then c.icount + 1 else c.icount

/-- One client less; no counter goes below zero. -/
def HostCounts.down (hasident isGlobal : Bool) (c : HostCounts) : HostCounts where
  gcount := if 0 < c.gcount then c.gcount - 1 else c.gcount
  lcount := if !isGlobal && decide (0 < c.lcount) then c.lcount - 1 else c.lcount
  icount := if !isGlobal && hasident && decide (0 < c.icount) then c.icount - 1 else c.icount

/-- A loop over the names of a record that returns at the first hit: the hit is
replaced. `none` if there is no hit. -/
def onFirst (hit : NameHost → Bool) (f : NameHost → List NameHost) :
    List NameHost → Option (List NameHost)
  | [] => none
  | n :: l => if hit n then some (f n ++ l) else (onFirst hit f l).map (n :: ·)

/-- `++user` for a user without an answer from its ident server. -/
def bareUser (user : CStr) : CStr :=
  match user with
  | '~' :: rest => rest
  | _ => user

/-- The list part of `add_user_host`. A new record comes zeroed from its heap. -/
def addName (user : CStr) (hasident isGlobal : Bool) (list : List NameHost) : List NameHost :=
  match onFirst (fun nameh => ircEq user nameh.name)
      (fun nameh => [{ nameh with toHostCounts := nameh.up hasident isGlobal }]) list with
  | some list => list
  | none =>
    { name := strlcpy user (USERLEN + 1), gcount := 1, lcount := if isGlobal then 0 else 1,
      icount := if !isGlobal && hasident then 1 else 0 } :: list

/-- The list part of `delete_user_host`: `none` if the name is not there. -/
def dropName (user : CStr) (hasident isGlobal : Bool) (list : List NameHost) :
    Option (List NameHost) :=
  onFirst (fun nameh => ircEq user nameh.name)
    (fun nameh =>
      let c := nameh.down hasident isGlobal
      if c.gcount = 0 ∧ c.lcount = 0 then [] else [{ nameh with toHostCounts := c }]) list

namespace UserHosts

/-- `hash_find_userhost`. -/
def hashFindUserhost (fuel : Nat) (host : CStr) (s : UserHosts) : Option (Option Nat × UserHosts) :=
  (s.tables.hashFindUserhost fuel host).map fun found => (found.1, { s with tables := found.2 })

/-- `find_or_add_userhost`. -/
def findOrAddUserhost (fuel : Nat) (host : CStr) (s : UserHosts) : Option (Nat × UserHosts) :=
  (s.hashFindUserhost fuel host).map fun (found, s) =>
    match found with
    | some userhost => (userhost, s)
    | none =>
      (s.next,
        { tables := (s.tables.setName .userhost s.next (strlcpy host (HOSTLEN + 1))).hashAddUserhost
            s.next
          list := update s.list s.next []
          next := s.next + 1 })

/-- `add_user_host`. -/
def addUserHost (fuel : Nat) (user host : CStr) (isGlobal : Bool) (s : UserHosts) :
    Option UserHosts :=
  (s.findOrAddUserhost fuel host).map fun (userhost, s) =>
    { s with
      list := update s.list userhost
        (addName (bareUser user) (user.head? != some '~') isGlobal (s.list userhost)) }

/-- `delete_user_host`. -/
def deleteUserHost (fuel : Nat) (user host : CStr) (isGlobal : Bool) (s : UserHosts) :
    Option UserHosts :=
  (s.hashFindUserhost fuel host).bind fun (found, s) =>
    match found with
    | none => some s
    | some userhost =>
      match dropName (bareUser user) (user.head? != some '~') isGlobal (s.list userhost) with
      | none => some s
      | some list =>
        let s := { s with list := update s.list userhost list }
        if list.length = 0 then
          (s.tables.hashDelUserhost fuel userhost).map fun tables => { s with tables }
        else some s

/-- `count_user_host`, with what the three places hold before. -/
def countUserHost (fuel : Nat) (user host : CStr) (init : HostCounts) (s : UserHosts) :
    Option (HostCounts × UserHosts) :=
  (s.hashFindUserhost fuel host).map fun (found, s) =>
    match found with
    | none => (init, s)
    | some userhost =>
      match (s.list userhost).find? fun nameh => ircEq user nameh.name with
      | none => (init, s)
      | some nameh => (nameh.toHostCounts, s)

end UserHosts

/-! ### The clients -/

/-- What a registered client is counted by. -/
structure HostUser where
  user : CStr
  host : CStr
  isLocal : Bool
  user_le : user.length ≤ USERLEN
  host_le : host.length ≤ HOSTLEN

instance : DecidableEq HostUser := fun x y =>
  decidable_of_iff (x.user = y.user ∧ x.host = y.host ∧ x.isLocal = y.isLocal) <| by
    cases x
    cases y
    rw [HostUser.mk.injEq]

/-- The client has an answer from its ident server. -/
def HostUser.hasident (x : HostUser) : Bool := x.user.head? != some '~'

def HostUser.named (name : CStr) (x : HostUser) : Bool := ircEq name (bareUser x.user)

def clientsAt (host : CStr) (xs : List HostUser) : List HostUser :=
  xs.filter fun x => ircEq host x.host

/-- The numbers of the clients with a user name: all, those of this server, and those
of this server with an ident. -/
def countsOf (name : CStr) (xs : List HostUser) : HostCounts where
  gcount := xs.countP fun x => x.named name
  lcount := xs.countP fun x => x.named name && x.isLocal
  icount := xs.countP fun x => x.named name && x.isLocal && x.hasident

/-- The entries of a host: one for each user name of its clients, with their numbers. -/
structure NamesExact (l : List NameHost) (xs : List HostUser) : Prop where
  distinct : l.Pairwise fun n m => ircEq n.name m.name = false
  counts : ∀ n ∈ l, n.toHostCounts = countsOf n.name xs
  pos : ∀ n ∈ l, 0 < n.gcount
  covers : ∀ x ∈ xs, ∃ n ∈ l, x.named n.name = true

/-! ### Counting -/

variable {l : List NameHost} {xs ys : List HostUser} {x : HostUser} {name name' : CStr}

theorem named_congr (h : ircEq name name' = true) (x : HostUser) :
    x.named name = x.named name' := by
  rw [HostUser.named, HostUser.named, Bool.eq_iff_iff]
  exact ⟨ircEq_trans (ircEq_symm h), ircEq_trans h⟩

theorem countsOf_congr (h : ircEq name name' = true) (xs : List HostUser) :
    countsOf name xs = countsOf name' xs := by
  simp only [countsOf, named_congr h]

theorem countsOf_perm (h : xs.Perm ys) (name : CStr) : countsOf name xs = countsOf name ys := by
  simp only [countsOf, h.countP_eq]

theorem countsOf_nil (name : CStr) : countsOf name [] = {} := rfl

theorem countsOf_nobody (h : ∀ y ∈ xs, y.named name = false) : countsOf name xs = {} := by
  simp only [countsOf, HostCounts.mk.injEq, Int.natCast_eq_zero, countP_eq_zero]
  exact ⟨fun y hy => by simp [h y hy], fun y hy => by simp [h y hy], fun y hy => by simp [h y hy]⟩

theorem countsOf_cons (h : x.named name = true) (xs : List HostUser) :
    countsOf name (x :: xs) = (countsOf name xs).up x.hasident (!x.isLocal) := by
  cases hlocal : x.isLocal <;> cases hident : x.hasident <;>
    simp [countsOf, HostCounts.up, h, hlocal, hident]

theorem countsOf_cons_of_not (h : x.named name = false) (xs : List HostUser) :
    countsOf name (x :: xs) = countsOf name xs := by
  simp [countsOf, h]

theorem down_up {c : HostCounts} (hg : 0 ≤ c.gcount) (hl : 0 ≤ c.lcount) (hi : 0 ≤ c.icount)
    (hasident isGlobal : Bool) : (c.up hasident isGlobal).down hasident isGlobal = c := by
  have hg : 0 < c.gcount + 1 := by omega
  have hl : 0 < c.lcount + 1 := by omega
  have hi : 0 < c.icount + 1 := by omega
  cases hasident <;> cases isGlobal <;> simp [HostCounts.up, HostCounts.down, hg, hl, hi]

theorem down_countsOf_cons (h : x.named name = true) (xs : List HostUser) :
    (countsOf name (x :: xs)).down x.hasident (!x.isLocal) = countsOf name xs := by
  rw [countsOf_cons h]
  exact down_up (Int.natCast_nonneg _) (Int.natCast_nonneg _) (Int.natCast_nonneg _) _ _

theorem gcount_eq_zero_iff (name : CStr) (xs : List HostUser) :
    ((countsOf name xs).gcount = 0 ∧ (countsOf name xs).lcount = 0) ↔
      ∀ x ∈ xs, x.named name = false := by
  have hle : xs.countP (fun x => x.named name && x.isLocal) ≤
      xs.countP fun x => x.named name :=
    countP_mono_left fun x _ hx => (Bool.and_eq_true _ _ ▸ hx).1
  have hzero : xs.countP (fun x => x.named name) = 0 ↔ ∀ x ∈ xs, x.named name = false := by
    simp [countP_eq_zero]
  rw [← hzero]
  simp only [countsOf]
  omega

/-! ### The loop over the names -/

theorem onFirst_cases (hit : NameHost → Bool) (f : NameHost → List NameHost)
    (l : List NameHost) :
    (onFirst hit f l = none ∧ ∀ n ∈ l, hit n = false) ∨
      ∃ pre n suf, l = pre ++ n :: suf ∧ hit n = true ∧
        onFirst hit f l = some (pre ++ f n ++ suf) := by
  induction l with
  | nil => exact .inl ⟨rfl, by simp⟩
  | cons n l ih =>
    by_cases hn : hit n = true
    · exact .inr ⟨[], n, l, rfl, hn, by simp [onFirst, hn]⟩
    · rcases ih with ⟨hnone, hall⟩ | ⟨pre, m, suf, rfl, hm, hsome⟩
      · refine .inl ⟨by simp [onFirst, hn, hnone], ?_⟩
        intro m hm
        rcases List.mem_cons.mp hm with rfl | hm
        · simpa using hn
        · exact hall m hm
      · exact .inr ⟨n :: pre, m, suf, rfl, hm, by simp [onFirst, hn, hsome]⟩

theorem NamesExact.others (h : NamesExact l xs) {pre suf : List NameHost} {n m : NameHost}
    (hl : l = pre ++ n :: suf) (hm : m ∈ pre ++ suf) : ircEq m.name n.name = false := by
  have hd := h.distinct
  rw [hl, pairwise_append, pairwise_cons] at hd
  obtain ⟨-, ⟨hsuf, -⟩, hcross⟩ := hd
  rcases List.mem_append.mp hm with hm | hm
  · exact hcross m hm n mem_cons_self
  · have hno := hsuf m hm
    by_contra heq
    rw [ircEq_symm (by simpa using heq)] at hno
    cases hno

theorem named_of_ne {n m : NameHost} (hx : x.named n.name = true)
    (hne : ircEq m.name n.name = false) : x.named m.name = false := by
  by_contra hm
  have hm : x.named m.name = true := by simpa using hm
  rw [HostUser.named] at hx hm
  rw [ircEq_trans hm (ircEq_symm hx)] at hne
  cases hne

theorem NamesExact.replace (h : NamesExact l xs) {pre mid suf : List NameHost} {n : NameHost}
    (hl : l = pre ++ n :: suf)
    (hothers : ∀ m ∈ pre ++ suf, countsOf m.name ys = countsOf m.name xs)
    (hone : mid.length ≤ 1)
    (hmid : ∀ m ∈ mid, m.name = n.name ∧ m.toHostCounts = countsOf n.name ys ∧ 0 < m.gcount)
    (hcovers : ∀ y ∈ ys, (y.named n.name = true ∧ mid ≠ []) ∨
      ∃ m ∈ pre ++ suf, y.named m.name = true) :
    NamesExact (pre ++ mid ++ suf) ys where
  distinct := by
    have hd := h.distinct
    rw [hl, pairwise_append, pairwise_cons] at hd
    obtain ⟨hpre, ⟨hn, hsuf⟩, hcross⟩ := hd
    rw [append_assoc, pairwise_append, pairwise_append]
    refine ⟨hpre, ⟨?_, hsuf, ?_⟩, ?_⟩
    · match mid, hone with
      | [], _ => exact List.Pairwise.nil
      | [m], _ => exact pairwise_singleton _ _
    · intro m hm k hk
      rw [(hmid m hm).1]
      exact hn k hk
    · intro k hk m hm
      rcases List.mem_append.mp hm with hm | hm
      · rw [(hmid m hm).1]
        exact hcross k hk n mem_cons_self
      · exact hcross k hk m (mem_cons_of_mem _ hm)
  counts m hm := by
    rw [append_assoc, mem_append, mem_append] at hm
    rcases hm with hm | hm | hm
    · rw [h.counts m (by simp [hl, hm]), hothers m (by simp [hm])]
    · rw [(hmid m hm).2.1, (hmid m hm).1]
    · rw [h.counts m (by simp [hl, hm]), hothers m (by simp [hm])]
  pos m hm := by
    rw [append_assoc, mem_append, mem_append] at hm
    rcases hm with hm | hm | hm
    · exact h.pos m (by simp [hl, hm])
    · exact (hmid m hm).2.2
    · exact h.pos m (by simp [hl, hm])
  covers y hy := by
    rcases hcovers y hy with ⟨hname, hne⟩ | ⟨m, hm, hname⟩
    · obtain ⟨m, hm⟩ := exists_mem_of_ne_nil _ hne
      exact ⟨m, by simp [hm], (hmid m hm).1 ▸ hname⟩
    · refine ⟨m, ?_, hname⟩
      rcases List.mem_append.mp hm with hm | hm
      · simp [hm]
      · simp [hm]

theorem length_bareUser_le (user : CStr) : (bareUser user).length ≤ user.length := by
  unfold bareUser
  split
  · simp
  · exact Nat.le_refl _

theorem NamesExact.add (h : NamesExact l xs) (x : HostUser) :
    NamesExact (addName (bareUser x.user) x.hasident (!x.isLocal) l) (x :: xs) := by
  have hfits : strlcpy (bareUser x.user) (USERLEN + 1) = bareUser x.user :=
    take_of_length_le ((length_bareUser_le _).trans x.user_le)
  unfold addName
  rcases onFirst_cases (fun nameh => ircEq (bareUser x.user) nameh.name)
    (fun nameh => [{ nameh with toHostCounts := nameh.up x.hasident (!x.isLocal) }]) l with
    ⟨hnone, hall⟩ | ⟨pre, n, suf, hl, hn, hsome⟩
  · rw [hnone, hfits]
    dsimp only
    have hnot : ∀ n ∈ l, x.named n.name = false := by
      intro n hn
      by_contra hx
      have hno := hall n hn
      rw [ircEq_symm (Bool.eq_true_of_not_eq_false hx)] at hno
      cases hno
    have hnobody : ∀ y ∈ xs, y.named (bareUser x.user) = false := by
      intro y hy
      obtain ⟨n, hn, hyn⟩ := h.covers y hy
      by_contra hyx
      have hno := hall n hn
      rw [ircEq_trans (Bool.eq_true_of_not_eq_false hyx) (ircEq_symm hyn)] at hno
      cases hno
    have hself : x.named (bareUser x.user) = true := ircEq_refl _
    have hcounts : countsOf (bareUser x.user) (x :: xs) =
        (({} : HostCounts).up x.hasident (!x.isLocal)) := by
      rw [countsOf_cons hself, countsOf_nobody hnobody]
    refine ⟨?_, ?_, ?_, ?_⟩
    · rw [pairwise_cons]
      exact ⟨hall, h.distinct⟩
    · intro m hm
      rcases List.mem_cons.mp hm with rfl | hm
      · rw [hcounts]
        cases x.isLocal <;> cases x.hasident <;> rfl
      · rw [h.counts m hm, countsOf_cons_of_not (hnot m hm)]
    · intro m hm
      rcases List.mem_cons.mp hm with rfl | hm
      · exact Int.one_pos
      · exact h.pos m hm
    · intro y hy
      rcases List.mem_cons.mp hy with rfl | hy
      · exact ⟨_, mem_cons_self, hself⟩
      · obtain ⟨n, hn, hyn⟩ := h.covers y hy
        exact ⟨n, mem_cons_of_mem _ hn, hyn⟩
  · rw [hsome]
    have hx : x.named n.name = true := ircEq_symm hn
    refine h.replace hl ?_ (Nat.le_refl 1) ?_ ?_
    · intro m hm
      exact countsOf_cons_of_not (named_of_ne hx (h.others hl hm)) xs
    · intro m hm
      obtain rfl := List.mem_singleton.mp hm
      refine ⟨rfl, ?_, ?_⟩
      · rw [countsOf_cons hx, ← h.counts n (by simp [hl])]
      · have hpos := h.pos n (by simp [hl])
        simp only [HostCounts.up]
        omega
    · intro y hy
      rcases List.mem_cons.mp hy with rfl | hy
      · exact .inl ⟨hx, by simp⟩
      · obtain ⟨m, hm, hym⟩ := h.covers y hy
        rw [hl, mem_append, mem_cons] at hm
        rcases hm with hm | rfl | hm
        · exact .inr ⟨m, by simp [hm], hym⟩
        · exact .inl ⟨hym, by simp⟩
        · exact .inr ⟨m, by simp [hm], hym⟩

theorem NamesExact.drop (h : NamesExact l (x :: ys)) :
    ∃ l', dropName (bareUser x.user) x.hasident (!x.isLocal) l = some l' ∧ NamesExact l' ys := by
  unfold dropName
  rcases onFirst_cases (fun nameh => ircEq (bareUser x.user) nameh.name)
    (fun nameh =>
      let c := nameh.down x.hasident (!x.isLocal)
      if c.gcount = 0 ∧ c.lcount = 0 then [] else [{ nameh with toHostCounts := c }]) l with
    ⟨-, hall⟩ | ⟨pre, n, suf, hl, hn, hsome⟩
  · obtain ⟨n, hn, hxn⟩ := h.covers x mem_cons_self
    have hno := hall n hn
    rw [ircEq_symm hxn] at hno
    cases hno
  · refine ⟨_, hsome, ?_⟩
    have hx : x.named n.name = true := ircEq_symm hn
    have hdown : n.down x.hasident (!x.isLocal) = countsOf n.name ys := by
      rw [h.counts n (by simp [hl]), down_countsOf_cons hx]
    dsimp only
    rw [hdown]
    refine h.replace hl ?_ ?_ ?_ ?_
    · intro m hm
      exact (countsOf_cons_of_not (named_of_ne hx (h.others hl hm)) ys).symm
    · split <;> simp
    · intro m hm
      split at hm
      · exact absurd hm not_mem_nil
      · rename_i hlive
        obtain rfl := List.mem_singleton.mp hm
        refine ⟨rfl, rfl, ?_⟩
        rw [gcount_eq_zero_iff] at hlive
        simp only [countsOf, Int.natCast_pos, countP_pos_iff]
        simpa using hlive
    · intro y hy
      obtain ⟨m, hm, hym⟩ := h.covers y (mem_cons_of_mem _ hy)
      rw [hl, mem_append, mem_cons] at hm
      rcases hm with hm | rfl | hm
      · exact .inr ⟨m, by simp [hm], hym⟩
      · refine .inl ⟨hym, ?_⟩
        rw [if_neg]
        · simp
        · rw [gcount_eq_zero_iff]
          intro hnobody
          rw [hnobody y hy] at hym
          cases hym
      · exact .inr ⟨m, by simp [hm], hym⟩

theorem NamesExact.perm (h : NamesExact l xs) (hp : ys.Perm xs) : NamesExact l ys where
  distinct := h.distinct
  counts n hn := (h.counts n hn).trans (countsOf_perm hp n.name).symm
  pos := h.pos
  covers y hy := h.covers y (hp.mem_iff.mp hy)

theorem NamesExact.lookup (h : NamesExact l xs) (name : CStr) :
    (match l.find? fun nameh => ircEq name nameh.name with
      | none => {}
      | some nameh => nameh.toHostCounts) = countsOf name xs := by
  cases hfind : l.find? fun nameh => ircEq name nameh.name with
  | none =>
    rw [find?_eq_none] at hfind
    have hnobody : ∀ y ∈ xs, y.named name = false := by
      intro y hy
      obtain ⟨n, hn, hyn⟩ := h.covers y hy
      by_contra hy
      exact hfind n hn (ircEq_trans (Bool.eq_true_of_not_eq_false hy) (ircEq_symm hyn))
    exact (countsOf_nobody hnobody).symm
  | some n =>
    have hname := find?_some hfind
    dsimp only
    rw [h.counts n (mem_of_find?_eq_some hfind), countsOf_congr hname]

/-! ### The clients at a host -/

variable {host : CStr}

theorem clientsAt_congr {h h' : CStr} (heq : ircEq h h' = true) (xs : List HostUser) :
    clientsAt h xs = clientsAt h' xs := by
  unfold clientsAt
  congr 1
  funext x
  rw [Bool.eq_iff_iff]
  exact ⟨ircEq_trans (ircEq_symm heq), ircEq_trans heq⟩

theorem mem_clientsAt : x ∈ clientsAt host xs ↔ x ∈ xs ∧ ircEq host x.host = true := by
  simp [clientsAt]

theorem clientsAt_cons (h : ircEq host x.host = true) (xs : List HostUser) :
    clientsAt host (x :: xs) = x :: clientsAt host xs := by
  simp [clientsAt, h]

theorem clientsAt_cons_of_not (h : ircEq host x.host = false) (xs : List HostUser) :
    clientsAt host (x :: xs) = clientsAt host xs := by
  simp [clientsAt, h]

/-! ### The table -/

/-- Every record counts the clients of its host, there is no empty record, and each
client has one. -/
structure Counted (n : Nat) (s : UserHosts) (live : LiveNames)
    (lists : TableName → Nat → List Nat) (xs : List HostUser) : Prop where
  filed : Filed n s.tables live lists
  fresh : ∀ {p h}, live .userhost p = some h → p < s.next
  exact : ∀ {p h}, live .userhost p = some h → NamesExact (s.list p) (clientsAt h xs)
  used : ∀ {p h}, live .userhost p = some h → s.list p ≠ []
  covered : ∀ x ∈ xs, ∃ p h, live .userhost p = some h ∧ ircEq h x.host = true

variable {n fuel : Nat} {s : UserHosts} {live : LiveNames} {lists : TableName → Nat → List Nat}

theorem Counted.find (h : Counted n s live lists xs) (hfuel : n ≤ fuel) (host : CStr) :
    ∃ r tables lists', s.hashFindUserhost fuel host = some (r, { s with tables }) ∧
      Counted n { s with tables } live lists' xs ∧
      Finds live .userhost (fun _ => true) host r := by
  obtain ⟨r, tables, lists', hfind, hfiled, hfinds⟩ :=
    h.filed.find hfuel .userhost (fun _ => true) host
  have hfind : s.tables.hashFindUserhost fuel host = some (r, tables) := hfind
  refine ⟨r, tables, lists', ?_, ⟨hfiled, h.fresh, h.exact, h.used, h.covered⟩, hfinds⟩
  rw [UserHosts.hashFindUserhost, hfind, Option.map_some]

theorem Counted.nobody (h : Counted n s live lists xs)
    (hnone : Finds live .userhost (fun _ => true) host none) : clientsAt host xs = [] := by
  rw [eq_nil_iff_forall_not_mem]
  intro x hx
  obtain ⟨hx, heq⟩ := mem_clientsAt.mp hx
  obtain ⟨p, m, hp, hm⟩ := h.covered x hx
  have hfound := (hnone p).mpr ⟨rfl, m, hp, ircEq_trans heq (ircEq_symm hm)⟩
  cases hfound

theorem namesExact_nil : NamesExact [] [] :=
  ⟨List.Pairwise.nil, by simp, by simp, by simp⟩

theorem addName_ne_nil (user : CStr) (hasident isGlobal : Bool) (l : List NameHost) :
    addName user hasident isGlobal l ≠ [] := by
  unfold addName
  rcases onFirst_cases (fun nameh => ircEq user nameh.name)
    (fun nameh => [{ nameh with toHostCounts := nameh.up hasident isGlobal }]) l with
    ⟨hnone, -⟩ | ⟨pre, n, suf, -, -, hsome⟩
  · rw [hnone]
    exact cons_ne_nil _ _
  · rw [hsome]
    simp

theorem Counted.findOrAdd (h : Counted n s live lists xs) (hfuel : n ≤ fuel)
    (hhost : host.length ≤ HOSTLEN) :
    ∃ p s' live' lists' m, s.findOrAddUserhost fuel host = some (p, s') ∧
      Filed (n + 1) s'.tables live' lists' ∧ live' .userhost p = some m ∧ ircEq m host = true ∧
      p < s'.next ∧ NamesExact (s'.list p) (clientsAt m xs) ∧
      (∀ q k, q ≠ p → live' .userhost q = some k →
        q < s'.next ∧ NamesExact (s'.list q) (clientsAt k xs) ∧ s'.list q ≠ [] ∧
          ircEq k host = false) ∧
      ∀ x ∈ xs, ∃ q k, live' .userhost q = some k ∧ ircEq k x.host = true := by
  obtain ⟨r, tables, lists', hfind, hcounted, hfinds⟩ := h.find hfuel host
  rw [UserHosts.findOrAddUserhost, hfind]
  cases r with
  | some p =>
    obtain ⟨-, m, hp, hm⟩ := (hfinds p).mp rfl
    refine ⟨p, _, live, lists', m, rfl, hcounted.filed.mono (Nat.le_succ n), hp, ircEq_symm hm,
      h.fresh hp, h.exact hp, ?_, h.covered⟩
    intro q k hqp hq
    refine ⟨h.fresh hq, h.exact hq, h.used hq, ?_⟩
    by_contra hk
    have hfound := (hfinds q).mpr ⟨rfl, k, hq, ircEq_symm (Bool.eq_true_of_not_eq_false hk)⟩
    exact hqp (Option.some.inj hfound).symm
  | none =>
    have hnew : live .userhost s.next = none := by
      by_contra hsome
      obtain ⟨m, hm⟩ := Option.ne_none_iff_exists'.mp hsome
      exact Nat.lt_irrefl _ (h.fresh hm)
    have hunknown : ∀ q k, live .userhost q = some k → ircEq host k = false := by
      intro q k hq
      by_contra hk
      have hfound := (hfinds q).mpr ⟨rfl, k, hq, Bool.eq_true_of_not_eq_false hk⟩
      cases hfound
    have hfits : strlcpy host (HOSTLEN + 1) = host := take_of_length_le hhost
    have hok : Admissible live (.add .userhost s.next host) := ⟨hnew, hunknown⟩
    obtain ⟨lists'', hfiled⟩ := hcounted.filed.add hok
    refine ⟨s.next, _, liveStep live (.add .userhost s.next host), lists'', host, rfl, ?_, ?_,
      ircEq_refl host, Nat.lt_succ_self _, ?_, ?_, ?_⟩
    · rw [hfits]
      exact hfiled
    · simp [liveStep]
    · rw [h.nobody hfinds]
      simp [namesExact_nil]
    · intro q k hqp hq
      have hq : live .userhost q = some k := by simpa [liveStep, hqp] using hq
      refine ⟨(h.fresh hq).trans (Nat.lt_succ_self _), ?_, ?_, ?_⟩
      · simpa [hqp] using h.exact hq
      · simpa [hqp] using h.used hq
      · by_contra hk
        have hno := hunknown q k hq
        rw [ircEq_symm (Bool.eq_true_of_not_eq_false hk)] at hno
        cases hno
    · intro x hx
      obtain ⟨q, k, hq, hk⟩ := h.covered x hx
      refine ⟨q, k, ?_, hk⟩
      have hne : q ≠ s.next := Nat.ne_of_lt (h.fresh hq)
      simpa [liveStep, hne] using hq

theorem Counted.add (h : Counted n s live lists xs) (hfuel : n ≤ fuel) (x : HostUser) :
    ∃ s' live' lists', s.addUserHost fuel x.user x.host (!x.isLocal) = some s' ∧
      Counted (n + 1) s' live' lists' (x :: xs) := by
  obtain ⟨p, t, live', lists', m, hfind, hfiled, hp, hm, hlt, hexact, hothers, hcovered⟩ :=
    h.findOrAdd hfuel x.host_le
  refine ⟨⟨t.tables, update t.list p
    (addName (bareUser x.user) x.hasident (!x.isLocal) (t.list p)), t.next⟩, live', lists', ?_,
    hfiled, ?_, ?_, ?_, ?_⟩
  · rw [UserHosts.addUserHost, hfind, Option.map_some]
    rfl
  · intro q k hq
    by_cases hqp : q = p
    · exact hqp ▸ hlt
    · exact (hothers q k hqp hq).1
  · intro q k hq
    dsimp only
    by_cases hqp : q = p
    · subst hqp
      obtain rfl : k = m := Option.some.inj (hq.symm.trans hp)
      rw [clientsAt_cons hm, update_self]
      exact hexact.add x
    · obtain ⟨-, hq', -, hne⟩ := hothers q k hqp hq
      rw [clientsAt_cons_of_not hne, update_of_ne hqp]
      exact hq'
  · intro q k hq
    dsimp only
    by_cases hqp : q = p
    · subst hqp
      rw [update_self]
      exact addName_ne_nil _ _ _ _
    · rw [update_of_ne hqp]
      exact (hothers q k hqp hq).2.2.1
  · intro y hy
    rcases List.mem_cons.mp hy with rfl | hy
    · exact ⟨p, m, hp, hm⟩
    · exact hcovered y hy

theorem Counted.delete (h : Counted n s live lists xs) (hfuel : n ≤ fuel) (hx : x ∈ xs) :
    ∃ s' live' lists', s.deleteUserHost fuel x.user x.host (!x.isLocal) = some s' ∧
      Counted n s' live' lists' (xs.erase x) := by
  have hperm : xs.Perm (x :: xs.erase x) := perm_cons_erase hx
  obtain ⟨r, tables, lists', hfind, hcounted, hfinds⟩ := h.find hfuel x.host
  obtain ⟨p, m, hp, hm⟩ := h.covered x hx
  obtain rfl : r = some p := (hfinds p).mpr ⟨rfl, m, hp, ircEq_symm hm⟩
  have hexact : NamesExact (s.list p) (x :: clientsAt m (xs.erase x)) := by
    rw [← clientsAt_cons hm]
    exact (h.exact hp).perm (hperm.symm.filter _)
  obtain ⟨l', hdrop, hl'⟩ := hexact.drop
  have hothers : ∀ q k, q ≠ p → live .userhost q = some k →
      NamesExact (s.list q) (clientsAt k (xs.erase x)) := by
    intro q k hqp hq
    have hne : ircEq k x.host = false := by
      by_contra hk
      have hk := Bool.eq_true_of_not_eq_false hk
      exact hqp (h.filed.distinct hq hp (ircEq_trans hk (ircEq_symm hm)))
    have hsame := clientsAt_cons_of_not hne (xs.erase x)
    exact (h.exact hq).perm (hsame ▸ (hperm.symm.filter _))
  have hdrop : dropName (bareUser x.user) (x.user.head? != some '~') (!x.isLocal) (s.list p) =
      some l' := hdrop
  rw [UserHosts.deleteUserHost, hfind]
  simp only [Option.bind_some, hdrop]
  by_cases hempty : l' = []
  · subst hempty
    obtain ⟨tables', lists'', hdel, hfiled⟩ := hcounted.filed.del hfuel .userhost p
    have hdel : tables.hashDelUserhost fuel p = some tables' := hdel
    have hlive : ∀ q k, liveStep live (.del .userhost p) .userhost q = some k →
        q ≠ p ∧ live .userhost q = some k := by
      intro q k hq
      by_cases hqp : q = p
      · simp [liveStep, hqp] at hq
      · exact ⟨hqp, by simpa [liveStep, hqp] using hq⟩
    refine ⟨{ tables := tables', list := update s.list p [], next := s.next },
      liveStep live (.del .userhost p), lists'', ?_, hfiled, ?_, ?_, ?_, ?_⟩
    · simp only [length_nil, if_true, hdel, Option.map_some]
    · intro q k hq
      exact h.fresh (hlive q k hq).2
    · intro q k hq
      obtain ⟨hqp, hq⟩ := hlive q k hq
      dsimp only
      rw [update_of_ne hqp]
      exact hothers q k hqp hq
    · intro q k hq
      obtain ⟨hqp, hq⟩ := hlive q k hq
      dsimp only
      rw [update_of_ne hqp]
      exact h.used hq
    · intro y hy
      obtain ⟨q, k, hq, hk⟩ := h.covered y (mem_of_mem_erase hy)
      have hqp : q ≠ p := by
        rintro rfl
        obtain rfl : k = m := Option.some.inj (hq.symm.trans hp)
        obtain ⟨entry, hnil, -⟩ := hl'.covers y (mem_clientsAt.mpr ⟨hy, hk⟩)
        exact absurd hnil not_mem_nil
      exact ⟨q, k, by simpa [liveStep, hqp] using hq, hk⟩
  · refine ⟨{ tables := tables, list := update s.list p l', next := s.next }, live, lists',
      ?_, hcounted.filed, h.fresh, ?_, ?_, ?_⟩
    · rw [if_neg (by simpa using hempty)]
    · intro q k hq
      dsimp only
      by_cases hqp : q = p
      · subst hqp
        obtain rfl : k = m := Option.some.inj (hq.symm.trans hp)
        rw [update_self]
        exact hl'
      · rw [update_of_ne hqp]
        exact hothers q k hqp hq
    · intro q k hq
      dsimp only
      by_cases hqp : q = p
      · subst hqp
        rw [update_self]
        exact hempty
      · rw [update_of_ne hqp]
        exact h.used hq
    · intro y hy
      exact h.covered y (mem_of_mem_erase hy)

theorem Counted.count (h : Counted n s live lists xs) (hfuel : n ≤ fuel) (user host : CStr) :
    ∃ tables lists', s.countUserHost fuel user host {} =
        some (countsOf user (clientsAt host xs), { s with tables }) ∧
      Counted n { s with tables } live lists' xs := by
  obtain ⟨r, tables, lists', hfind, hcounted, hfinds⟩ := h.find hfuel host
  refine ⟨tables, lists', ?_, hcounted⟩
  rw [UserHosts.countUserHost, hfind, Option.map_some]
  cases r with
  | none => rw [h.nobody hfinds, countsOf_nil]
  | some p =>
    obtain ⟨-, m, hp, hm⟩ := (hfinds p).mp rfl
    have hlookup := (h.exact hp).lookup user
    rw [← clientsAt_congr hm] at hlookup
    rw [← hlookup]
    dsimp only
    cases (s.list p).find? fun nameh => ircEq user nameh.name <;> rfl

/-! ### Runs -/

/-- A call for a client, or a count. -/
inductive UserHostOp where
  | add (x : HostUser)
  | delete (x : HostUser)
  | count (user host : CStr)

def UserHosts.step (fuel : Nat) (s : UserHosts) : UserHostOp → Option UserHosts
  | .add x => s.addUserHost fuel x.user x.host (!x.isLocal)
  | .delete x => s.deleteUserHost fuel x.user x.host (!x.isLocal)
  | .count user host => (s.countUserHost fuel user host {}).map Prod.snd

def UserHosts.run (fuel : Nat) (s : UserHosts) (ops : List UserHostOp) : Option UserHosts :=
  ops.foldlM (UserHosts.step fuel) s

def clientsStep (xs : List HostUser) : UserHostOp → List HostUser
  | .add x => x :: xs
  | .delete x => xs.erase x
  | .count _ _ => xs

def clientsAfter (ops : List UserHostOp) : List HostUser := ops.foldl clientsStep []

/-- A client is deleted with the data with which it was added, and once. -/
def Paired (xs : List HostUser) : List UserHostOp → Prop
  | [] => True
  | .delete x :: ops => x ∈ xs ∧ Paired (xs.erase x) ops
  | op :: ops => Paired (clientsStep xs op) ops

def UserHosts.start (key : Nat) : UserHosts := ⟨HashTables.start key, fun _ => [], 0⟩

theorem counted_start (key : Nat) :
    Counted 0 (UserHosts.start key) (fun _ _ => none) (fun _ _ => []) [] where
  filed := filed_start key
  fresh h := by cases h
  exact h := by cases h
  used h := by cases h
  covered := by simp

theorem Counted.mono (h : Counted n s live lists xs) {n' : Nat} (hle : n ≤ n') :
    Counted n' s live lists xs :=
  { h with filed := h.filed.mono hle }

theorem Counted.run (h : Counted n s live lists xs) {ops : List UserHostOp} (hops : Paired xs ops)
    (hfuel : n + ops.length ≤ fuel) :
    ∃ s' live' lists', s.run fuel ops = some s' ∧
      Counted (n + ops.length) s' live' lists' (ops.foldl clientsStep xs) := by
  induction ops generalizing n s live lists xs with
  | nil => exact ⟨s, live, lists, rfl, h⟩
  | cons op ops ih =>
    rw [length_cons] at hfuel
    have hn : n ≤ fuel := by omega
    have hrest : n + 1 + ops.length ≤ fuel := by omega
    have hstep : Paired (clientsStep xs op) ops ∧ ∃ t live' lists', s.step fuel op = some t ∧
        Counted (n + 1) t live' lists' (clientsStep xs op) := by
      cases op with
      | add x => exact ⟨hops, h.add hn x⟩
      | delete x =>
        obtain ⟨t, live', lists', hdel, ht⟩ := h.delete hn hops.1
        exact ⟨hops.2, t, live', lists', hdel, ht.mono (Nat.le_succ n)⟩
      | count user host =>
        obtain ⟨tables, lists', hcount, ht⟩ := h.count hn user host
        refine ⟨hops, { s with tables }, live, lists', ?_, ht.mono (Nat.le_succ n)⟩
        rw [UserHosts.step, hcount, Option.map_some]
    obtain ⟨hops', t, live', lists', hdo, ht⟩ := hstep
    obtain ⟨s', live'', lists'', hrun, hs'⟩ := ih ht hops' hrest
    refine ⟨s', live'', lists'', ?_, ?_⟩
    · rw [UserHosts.run, foldlM_cons, hdo]
      exact hrun
    · rw [length_cons, ← Nat.add_assoc, Nat.add_right_comm]
      exact hs'

/-- After any run in which clients come and go: a count gives the numbers of the live
clients with that user name at that host, a host has a record exactly while one of its
clients is live, and the entries of the record are right and not negative. -/
theorem user_host_counts_exact (key : Nat) {ops : List UserHostOp} (hops : Paired [] ops)
    {fuel : Nat} (hfuel : ops.length ≤ fuel) :
    ∃ s, (UserHosts.start key).run fuel ops = some s ∧
      (∀ user host, ∃ s', s.countUserHost fuel user host {} =
        some (countsOf user (clientsAt host (clientsAfter ops)), s')) ∧
      ∀ host, ∃ r s', s.hashFindUserhost fuel host = some (r, s') ∧
        (r ≠ none ↔ ∃ x ∈ clientsAfter ops, ircEq host x.host = true) ∧
        ∀ p, r = some p → NamesExact (s.list p) (clientsAt host (clientsAfter ops)) ∧
          ∀ nameh ∈ s.list p, 0 ≤ nameh.gcount ∧ 0 ≤ nameh.lcount ∧ 0 ≤ nameh.icount := by
  have hlen : 0 + ops.length = ops.length := Nat.zero_add _
  obtain ⟨s, live, lists, hrun, h⟩ := (counted_start key).run hops (hlen.trans_le hfuel)
  rw [hlen] at h
  refine ⟨s, hrun, fun user host => ?_, fun host => ?_⟩
  · obtain ⟨tables, -, hcount, -⟩ := h.count hfuel user host
    exact ⟨_, hcount⟩
  · obtain ⟨r, tables, lists', hfind, -, hfinds⟩ := h.find hfuel host
    refine ⟨r, _, hfind, ?_, ?_⟩
    · constructor
      · intro hr
        obtain ⟨p, rfl⟩ := Option.ne_none_iff_exists'.mp hr
        obtain ⟨-, m, hp, hm⟩ := (hfinds p).mp rfl
        obtain ⟨nameh, hname⟩ := exists_mem_of_ne_nil _ (h.used hp)
        have hpos := (h.exact hp).pos nameh hname
        rw [(h.exact hp).counts nameh hname] at hpos
        obtain ⟨x, hx, -⟩ := List.countP_pos_iff.mp (Int.natCast_pos.mp hpos)
        obtain ⟨hx, heq⟩ := mem_clientsAt.mp hx
        exact ⟨x, hx, ircEq_trans hm heq⟩
      · rintro ⟨x, hx, heq⟩ rfl
        have hmem : x ∈ clientsAt host (clientsAfter ops) := mem_clientsAt.mpr ⟨hx, heq⟩
        rw [show clientsAt host (clientsAfter ops) = [] from h.nobody hfinds] at hmem
        exact absurd hmem not_mem_nil
    · rintro p rfl
      obtain ⟨-, m, hp, hm⟩ := (hfinds p).mp rfl
      have hexact : NamesExact (s.list p) (clientsAt host (clientsAfter ops)) := by
        rw [clientsAt_congr hm]
        exact h.exact hp
      refine ⟨hexact, fun nameh hname => ?_⟩
      rw [hexact.counts nameh hname]
      exact ⟨Int.natCast_nonneg _, Int.natCast_nonneg _, Int.natCast_nonneg _⟩

/-- A local client with an ident, and a remote one without, at one host. -/
def twoAtHost : List UserHostOp :=
  [.add ⟨"ann".toList, "a.b".toList, true, by decide, by decide⟩,
    .add ⟨"~Ann".toList, "A.B".toList, false, by decide, by decide⟩,
    .delete ⟨"ann".toList, "a.b".toList, true, by decide, by decide⟩]

theorem user_host_counts_exact_twoAtHost :
    ∃ s, (UserHosts.start 7).run 3 twoAtHost = some s ∧
      (∀ user host, ∃ s', s.countUserHost 3 user host {} =
        some (countsOf user (clientsAt host (clientsAfter twoAtHost)), s')) ∧
      ∀ host, ∃ r s', s.hashFindUserhost 3 host = some (r, s') ∧
        (r ≠ none ↔ ∃ x ∈ clientsAfter twoAtHost, ircEq host x.host = true) ∧
        ∀ p, r = some p → NamesExact (s.list p) (clientsAt host (clientsAfter twoAtHost)) ∧
          ∀ nameh ∈ s.list p, 0 ≤ nameh.gcount ∧ 0 ≤ nameh.lcount ∧ 0 ≤ nameh.icount := by
  have hpaired : Paired [] twoAtHost := by
    refine And.intro ?_ trivial
    decide
  exact user_host_counts_exact 7 hpaired (Nat.le_refl 3)

end Ircd
