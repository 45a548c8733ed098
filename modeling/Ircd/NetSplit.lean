import Ircd.Cidr
import Mathlib.Data.List.Flatten
import Mathlib.Data.List.Nodup
import Mathlib.Logic.Relation

/-!
A server splits: `remove_dependents` and `recurse_send_quits`, against what
`ms_sid`, `ms_server` and `server_estab` introduced to a link before.

A link is told of a server unless the name this server has on the link matches
it. What comes from behind a server that a peer was not told of is to the peer
directly behind this server, so a SQUIT takes away only what was introduced
without a gap.

- `mem_sendQuits_quit`, `mem_sendQuits_squit`: the lines for one link.
- `split_announced_exact`: when they name just what had been introduced.
-/

namespace Ircd

open List

/-! ### The tree and the link -/

/-- A server of the network: `ptr` stands for its address. -/
structure NetServer where
  ptr : Nat
  name : CStr
  id : CStr
  deriving DecidableEq, Repr

/-- A user of the network: `ptr` stands for its address. -/
structure NetUser where
  ptr : Nat
  name : CStr
  deriving DecidableEq, Repr

/-- A list of servers, as in `serv->servers`, each with its users and with the
servers behind it. -/
inductive Forest where
  | nil
  | cons (server : NetServer) (users : List NetUser) (servers rest : Forest)
  deriving DecidableEq, Repr

/-- A server link: its address, its capabilities QS and TS6, and the name its
connect block gives this server in place of `me.name`. -/
structure NetLink where
  ptr : Nat
  qs : Bool
  ts6 : Bool
  fakename : Option CStr
  deriving DecidableEq, Repr

/-- A line of a split, with whom it is about. -/
inductive SplitLine where
  | quit (target : NetUser) (text : CStr)
  | squit (target : NetServer) (text : CStr)
  deriving DecidableEq, Repr

namespace Forest

/-- The servers of the list and those behind them. -/
def allServers : Forest → List NetServer
  | nil => []
  | cons s _ servers rest => s :: (servers.allServers ++ rest.allServers)

def roots : Forest → List NetServer
  | nil => []
  | cons s _ _ rest => s :: rest.roots

def usersOn : Forest → List (NetServer × NetUser)
  | nil => []
  | cons s users servers rest => users.map (s, ·) ++ (servers.usersOn ++ rest.usersOn)

/-- Each server with one that is linked to it from behind. -/
def edges : Forest → List (NetServer × NetServer)
  | nil => []
  | cons s _ servers rest => servers.roots.map (s, ·) ++ (servers.edges ++ rest.edges)

end Forest

/-! ### The lines -/

/-- `my_name_for_link`. -/
def myNameForLink (me : CStr) (link : NetLink) : CStr := link.fakename.getD me

/-- `ID_or_name`. -/
def idOrName (s : NetServer) (link : NetLink) : CStr :=
  if link.ts6 && !s.id.isEmpty then s.id else s.name

/-- What `recurse_send_quits` is called with, besides the server. -/
structure SplitArgs where
  original : NetServer
  origin : Nat
  link : NetLink
  comment : CStr
  splitstr : CStr
  myname : CStr
  deriving DecidableEq, Repr

namespace SplitArgs

variable (args : SplitArgs)

/-- `hidden`. -/
def hidden (s : NetServer) : Bool := matchMask args.myname s.name

def quits (s : NetServer) (users : List NetUser) : List SplitLine :=
  if args.hidden s || !args.link.qs then
    users.map fun u => .quit u (':' :: u.name ++ " QUIT :".toList ++ args.splitstr)
  else []

def squits (s : NetServer) : List SplitLine :=
  if !args.hidden s && (s.ptr == args.original.ptr && args.link.ptr != args.origin || !args.link.qs)
    then
    [.squit s ("SQUIT ".toList ++ idOrName s args.link ++ " :".toList ++ args.comment)]
  else []

/-- `recurse_send_quits` for each server of a list. -/
def recurseSendQuits : Forest → List SplitLine
  | .nil => []
  | .cons s users servers rest =>
    args.quits s users ++ recurseSendQuits servers ++ args.squits s ++ recurseSendQuits rest

end SplitArgs

/-- A server `server` splits with its users and with the servers behind it. The
split came from the link `origin`. Servers and users are different ones. -/
structure NetSplit where
  me : CStr
  server : NetServer
  users : List NetUser
  servers : Forest
  origin : Nat
  comment : CStr
  splitstr : CStr
  servers_nodup : ((Forest.cons server users servers .nil).allServers.map NetServer.ptr).Nodup
  users_nodup : ((Forest.cons server users servers .nil).usersOn.map fun su => su.2.ptr).Nodup

namespace NetSplit

variable (split : NetSplit)

def tree : Forest := .cons split.server split.users split.servers .nil

/-- The arguments for one link; the name is copied into a buffer. -/
def args (link : NetLink) : SplitArgs where
  original := split.server
  origin := split.origin
  link := link
  comment := split.comment
  splitstr := split.splitstr
  myname := strlcpy (myNameForLink split.me link) (HOSTLEN + 1)

/-- What `remove_dependents` sends to one link of `serv_list`. -/
def removeDependents (link : NetLink) : List SplitLine :=
  (split.args link).recurseSendQuits split.tree

/-! ### What the peer was told -/

/-- The test of `ms_sid`, `ms_server` and `server_estab`: the link is told of the
server. -/
def introduces (link : NetLink) (s : NetServer) : Bool :=
  !matchMask (myNameForLink split.me link) s.name

/-- The peer has the second server directly behind the first. -/
def PeerEdge (link : NetLink) (s t : NetServer) : Prop :=
  (s, t) ∈ split.tree.edges ∧ split.introduces link t = true

/-- The peer has `t` behind `s`, or `t` is `s`: it was told of each on the way. -/
def PeerBehind (link : NetLink) (s t : NetServer) : Prop :=
  split.introduces link s = true ∧ Relation.ReflTransGen (split.PeerEdge link) s t

/-- A SQUIT names the server, or it names one with the server behind it. -/
def NamesServer (link : NetLink) (s : NetServer) : Prop :=
  (∃ text, .squit s text ∈ split.removeDependents link) ∨
    link.qs = true ∧ ∃ r text, .squit r text ∈ split.removeDependents link ∧
      split.PeerBehind link r s

/-- A QUIT names the user, or a SQUIT names a server with the user behind it. -/
def NamesUser (link : NetLink) (u : NetUser) : Prop :=
  (∃ text, .quit u text ∈ split.removeDependents link) ∨
    link.qs = true ∧ ∃ r text s, .squit r text ∈ split.removeDependents link ∧
      split.PeerBehind link r s ∧ (s, u) ∈ split.tree.usersOn

/-- The lines for the link name just what was introduced to it, each at most once. -/
structure Announced (link : NetLink) : Prop where
  nodup : (split.removeDependents link).Nodup
  servers : ∀ s, split.NamesServer link s ↔
    s ∈ split.tree.allServers ∧ split.introduces link s = true
  users : ∀ u, split.NamesUser link u ↔ ∃ s, (s, u) ∈ split.tree.usersOn

/-- Without QS the name of this server hides in its buffer what it hid before. With
QS the split server is told of if it is not hidden, and so is each server on the
way to one that was introduced, or that is not hidden and has a user. -/
def Covered (link : NetLink) : Prop :=
  (link.qs = false ∧ ∀ s ∈ split.tree.allServers,
    (split.args link).hidden s = !split.introduces link s) ∨
  (link.qs = true ∧
    ((split.args link).hidden split.server = false → split.introduces link split.server = true) ∧
    ∀ s ∈ split.tree.allServers,
      (split.introduces link s = true ∨
        (split.args link).hidden s = false ∧ ∃ u, (s, u) ∈ split.tree.usersOn) →
      (split.args link).hidden split.server = false ∧ split.PeerBehind link split.server s)

end NetSplit

/-! ### The lines of a list of servers -/

namespace SplitArgs

variable {args : SplitArgs} {u : NetUser} {s : NetServer} {text : CStr}

theorem mem_quits {t : NetServer} {users : List NetUser} :
    .quit u text ∈ args.quits t users ↔ u ∈ users ∧ (args.hidden t = true ∨ args.link.qs = false) ∧
      text = ':' :: u.name ++ " QUIT :".toList ++ args.splitstr := by
  unfold quits
  split
  · rename_i h
    simp only [Bool.or_eq_true, Bool.not_eq_true'] at h
    constructor
    · intro hmem
      obtain ⟨v, hv, heq⟩ := List.mem_map.mp hmem
      obtain ⟨rfl, rfl⟩ := SplitLine.quit.inj heq
      exact ⟨hv, h, rfl⟩
    · rintro ⟨hu, -, rfl⟩
      exact List.mem_map.mpr ⟨u, hu, rfl⟩
  · rename_i h
    simp only [Bool.or_eq_true, Bool.not_eq_true'] at h
    exact ⟨fun hmem => absurd hmem not_mem_nil, fun hmem => absurd hmem.2.1 h⟩

theorem mem_squits {t : NetServer} :
    .squit s text ∈ args.squits t ↔ s = t ∧ args.hidden t = false ∧
      (t.ptr = args.original.ptr ∧ args.link.ptr ≠ args.origin ∨ args.link.qs = false) ∧
      text = "SQUIT ".toList ++ idOrName t args.link ++ " :".toList ++ args.comment := by
  unfold squits
  split
  · rename_i h
    simp only [Bool.and_eq_true, Bool.or_eq_true, Bool.not_eq_true', beq_iff_eq, bne_iff_ne] at h
    rw [mem_singleton]
    constructor
    · intro heq
      obtain ⟨rfl, rfl⟩ := SplitLine.squit.inj heq
      exact ⟨rfl, h.1, h.2, rfl⟩
    · rintro ⟨rfl, -, -, rfl⟩
      rfl
  · rename_i h
    simp only [Bool.and_eq_true, Bool.or_eq_true, Bool.not_eq_true', beq_iff_eq, bne_iff_ne] at h
    exact ⟨fun hmem => absurd hmem not_mem_nil, fun hmem => absurd ⟨hmem.2.1, hmem.2.2.1⟩ h⟩

theorem not_quit_mem_squits {t : NetServer} : .quit u text ∉ args.squits t := by
  unfold squits
  split <;> simp

theorem not_squit_mem_quits {t : NetServer} {users : List NetUser} :
    .squit s text ∉ args.quits t users := by
  unfold quits
  split <;> simp

theorem mem_recurseSendQuits_quit {forest : Forest} :
    .quit u text ∈ args.recurseSendQuits forest ↔
      (∃ t, (t, u) ∈ forest.usersOn ∧ (args.hidden t = true ∨ args.link.qs = false)) ∧
        text = ':' :: u.name ++ " QUIT :".toList ++ args.splitstr := by
  induction forest with
  | nil => simp [recurseSendQuits, Forest.usersOn]
  | cons t users servers rest ihs ihr =>
    simp only [recurseSendQuits, Forest.usersOn, mem_append, mem_quits, not_quit_mem_squits,
      ihs, ihr, mem_map, Prod.mk.injEq]
    constructor
    · rintro (((⟨hu, hsent, htext⟩ | ⟨⟨t', ht, hsent⟩, htext⟩) | hfalse) |
        ⟨⟨t', ht, hsent⟩, htext⟩)
      · exact ⟨⟨t, .inl ⟨u, hu, rfl, rfl⟩, hsent⟩, htext⟩
      · exact ⟨⟨t', .inr (.inl ht), hsent⟩, htext⟩
      · exact absurd hfalse id
      · exact ⟨⟨t', .inr (.inr ht), hsent⟩, htext⟩
    · rintro ⟨⟨t', ⟨v, hv, rfl, rfl⟩ | ht | ht, hsent⟩, htext⟩
      · exact .inl (.inl (.inl ⟨hv, hsent, htext⟩))
      · exact .inl (.inl (.inr ⟨⟨t', ht, hsent⟩, htext⟩))
      · exact .inr ⟨⟨t', ht, hsent⟩, htext⟩

theorem mem_recurseSendQuits_squit {forest : Forest} :
    .squit s text ∈ args.recurseSendQuits forest ↔
      s ∈ forest.allServers ∧ args.hidden s = false ∧
        (s.ptr = args.original.ptr ∧ args.link.ptr ≠ args.origin ∨ args.link.qs = false) ∧
        text = "SQUIT ".toList ++ idOrName s args.link ++ " :".toList ++ args.comment := by
  induction forest with
  | nil => simp [recurseSendQuits, Forest.allServers]
  | cons t users servers rest ihs ihr =>
    simp only [recurseSendQuits, Forest.allServers, mem_append, mem_cons, mem_squits,
      not_squit_mem_quits, ihs, ihr]
    constructor
    · rintro (((hfalse | ⟨hs, hall⟩) | ⟨rfl, hall⟩) | ⟨hs, hall⟩)
      · exact absurd hfalse id
      · exact ⟨.inr (.inl hs), hall⟩
      · exact ⟨.inl rfl, hall⟩
      · exact ⟨.inr (.inr hs), hall⟩
    · rintro ⟨rfl | hs | hs, hall⟩
      · exact .inl (.inr ⟨rfl, hall⟩)
      · exact .inl (.inl (.inr ⟨hs, hall⟩))
      · exact .inr ⟨hs, hall⟩

/-! ### No line twice -/

theorem count_quits {t : NetServer} (users : List NetUser) :
    (args.quits t users).count (.quit u text) ≤ users.count u := by
  unfold quits
  split
  · rw [count_eq_countP, countP_map, count_eq_countP]
    apply countP_mono_left
    intro v _ hv
    simp only [Function.comp_apply, beq_iff_eq, SplitLine.quit.injEq] at hv
    simpa using hv.1
  · exact Nat.zero_le _

theorem count_squits {t : NetServer} :
    (args.squits t).count (.squit s text) ≤ [t].count s := by
  unfold squits
  split
  · by_cases hst : t = s
    · subst hst
      rw [count_singleton_self]
      exact count_le_length
    · rw [count_eq_zero_of_not_mem]
      · exact Nat.zero_le _
      · simp [Ne.symm hst]
  · exact Nat.zero_le _

theorem count_recurseSendQuits_quit (forest : Forest) :
    (args.recurseSendQuits forest).count (.quit u text) ≤ (forest.usersOn.map Prod.snd).count
      u := by
  induction forest with
  | nil => exact Nat.le_refl _
  | cons t users servers rest ihs ihr =>
    have hquits : (args.quits t users).count (.quit u text) ≤ users.count u := count_quits users
    have hsquits : (args.squits t).count (.quit u text) = 0 :=
      count_eq_zero_of_not_mem not_quit_mem_squits
    have hmap : (users.map (t, ·)).map Prod.snd = users := by simp
    simp only [recurseSendQuits, Forest.usersOn, count_append, map_append, hmap]
    omega

theorem count_recurseSendQuits_squit (forest : Forest) :
    (args.recurseSendQuits forest).count (.squit s text) ≤ forest.allServers.count s := by
  induction forest with
  | nil => exact Nat.le_refl _
  | cons t users servers rest ihs ihr =>
    have hsquits : (args.squits t).count (.squit s text) ≤ [t].count s := count_squits
    have hquits : (args.quits t users).count (.squit s text) = 0 :=
      count_eq_zero_of_not_mem not_squit_mem_quits
    have hcons : (t :: (servers.allServers ++ rest.allServers)).count s =
        [t].count s + (servers.allServers.count s + rest.allServers.count s) := by
      rw [← singleton_append, count_append, count_append]
    simp only [recurseSendQuits, Forest.allServers, count_append, hcons]
    omega

end SplitArgs

namespace NetSplit

variable {split : NetSplit} {link : NetLink}

theorem server_mem : split.server ∈ split.tree.allServers := mem_cons_self

theorem eq_server {s : NetServer} (hs : s ∈ split.tree.allServers) (hptr : s.ptr = split.server.ptr)
    :
    s = split.server :=
  inj_on_of_nodup_map split.servers_nodup hs server_mem hptr

theorem usersOn_unique {s t : NetServer} {u : NetUser} (hs : (s, u) ∈ split.tree.usersOn)
    (ht : (t, u) ∈ split.tree.usersOn) : s = t :=
  (Prod.mk.inj (inj_on_of_nodup_map split.users_nodup hs ht rfl)).1

theorem fst_mem_allServers {forest : Forest} {s : NetServer} {u : NetUser}
    (h : (s, u) ∈ forest.usersOn) : s ∈ forest.allServers := by
  induction forest with
  | nil => exact absurd h not_mem_nil
  | cons t users servers rest ihs ihr =>
    simp only [Forest.usersOn, mem_append, mem_map, Prod.mk.injEq] at h
    simp only [Forest.allServers, mem_cons, mem_append]
    obtain ⟨v, -, rfl, -⟩ | h | h := h
    · exact .inl rfl
    · exact .inr (.inl (ihs h))
    · exact .inr (.inr (ihr h))

theorem roots_subset (forest : Forest) : forest.roots ⊆ forest.allServers := by
  induction forest with
  | nil => exact List.Subset.refl _
  | cons t users servers rest _ ihr =>
    intro s hs
    obtain rfl | hs := List.mem_cons.mp hs
    · exact mem_cons_self
    · exact mem_cons_of_mem _ (mem_append_right _ (ihr hs))

theorem snd_mem_allServers {forest : Forest} {s t : NetServer} (h : (s, t) ∈ forest.edges) :
    t ∈ forest.allServers := by
  induction forest with
  | nil => exact absurd h not_mem_nil
  | cons r users servers rest ihs ihr =>
    simp only [Forest.edges, mem_append, mem_map, Prod.mk.injEq] at h
    simp only [Forest.allServers, mem_cons, mem_append]
    obtain ⟨r', hr, -, rfl⟩ | h | h := h
    · exact .inr (.inl (roots_subset servers hr))
    · exact .inr (.inl (ihs h))
    · exact .inr (.inr (ihr h))

theorem PeerBehind.introduces {s t : NetServer} (h : split.PeerBehind link s t) :
    split.introduces link t = true := by
  obtain ⟨hs, hpath⟩ := h
  cases hpath with
  | refl => exact hs
  | tail _ hedge => exact hedge.2

theorem PeerBehind.mem {s t : NetServer} (h : split.PeerBehind link s t)
    (hs : s ∈ split.tree.allServers) : t ∈ split.tree.allServers := by
  obtain ⟨-, hpath⟩ := h
  cases hpath with
  | refl => exact hs
  | tail _ hedge => exact snd_mem_allServers hedge.1

theorem nodup_removeDependents : (split.removeDependents link).Nodup := by
  rw [nodup_iff_count_le_one]
  rintro (⟨u, text⟩ | ⟨s, text⟩)
  · have hnodup : (split.tree.usersOn.map Prod.snd).Nodup := by
      have hmap : (split.tree.usersOn.map Prod.snd).map NetUser.ptr =
          split.tree.usersOn.map fun su => su.2.ptr := by
        rw [map_map]
        rfl
      have h : ((split.tree.usersOn.map Prod.snd).map NetUser.ptr).Nodup := hmap ▸ split.users_nodup
      exact h.of_map
    exact (SplitArgs.count_recurseSendQuits_quit _).trans (List.nodup_iff_count_le_one.mp hnodup u)
  · have hnodup : split.tree.allServers.Nodup := split.servers_nodup.of_map
    exact (SplitArgs.count_recurseSendQuits_squit _).trans (List.nodup_iff_count_le_one.mp hnodup s)

theorem quit_sent_iff {u : NetUser} :
    (∃ text, .quit u text ∈ split.removeDependents link) ↔
      ∃ s, (s, u) ∈ split.tree.usersOn ∧
        ((split.args link).hidden s = true ∨ link.qs = false) := by
  simp only [removeDependents, SplitArgs.mem_recurseSendQuits_quit, exists_and_left, exists_eq,
    and_true]
  rfl

theorem squit_sent_iff (hother : link.ptr ≠ split.origin) {s : NetServer} :
    (∃ text, .squit s text ∈ split.removeDependents link) ↔
      s ∈ split.tree.allServers ∧ (split.args link).hidden s = false ∧
        (s = split.server ∨ link.qs = false) := by
  simp only [removeDependents, SplitArgs.mem_recurseSendQuits_squit, exists_and_left, exists_eq,
    and_true]
  refine and_congr_right fun hs => and_congr_right fun _ =>
    or_congr ⟨fun h => ?_, fun h => ?_⟩ Iff.rfl
  · exact eq_server hs h.1
  · exact ⟨congrArg NetServer.ptr h, hother⟩

theorem namesUser_of_no_qs (hqs : link.qs = false) {u : NetUser} :
    split.NamesUser link u ↔ ∃ s, (s, u) ∈ split.tree.usersOn := by
  simp [NamesUser, quit_sent_iff, hqs]

section Links

variable (hother : link.ptr ≠ split.origin)
include hother

theorem namesServer_of_no_qs (hqs : link.qs = false) {s : NetServer} :
    split.NamesServer link s ↔
      s ∈ split.tree.allServers ∧ (split.args link).hidden s = false := by
  simp [NamesServer, squit_sent_iff hother, hqs]

theorem namesServer_of_qs (hqs : link.qs = true) {s : NetServer} :
    split.NamesServer link s ↔
      (split.args link).hidden split.server = false ∧
        (s = split.server ∨ split.PeerBehind link split.server s) := by
  have hsent : ∀ r, (∃ text, .squit r text ∈ split.removeDependents link) ↔
      (split.args link).hidden split.server = false ∧ r = split.server := by
    intro r
    rw [squit_sent_iff hother]
    constructor
    · rintro ⟨-, hshown, hr | hr⟩
      · exact ⟨hr ▸ hshown, hr⟩
      · simp [hqs] at hr
    · rintro ⟨hshown, rfl⟩
      exact ⟨server_mem, hshown, .inl rfl⟩
  rw [NamesServer, hsent]
  constructor
  · rintro (⟨hshown, hs⟩ | ⟨-, r, text, hr, hbehind⟩)
    · exact ⟨hshown, .inl hs⟩
    · obtain ⟨hshown, rfl⟩ := (hsent r).mp ⟨text, hr⟩
      exact ⟨hshown, .inr hbehind⟩
  · rintro ⟨hshown, hs | hbehind⟩
    · exact .inl ⟨hshown, hs⟩
    · obtain ⟨text, hr⟩ := (hsent split.server).mpr ⟨hshown, rfl⟩
      exact .inr ⟨hqs, split.server, text, hr, hbehind⟩

theorem namesUser_of_qs (hqs : link.qs = true) {u : NetUser} :
    split.NamesUser link u ↔ ∃ s, (s, u) ∈ split.tree.usersOn ∧
      ((split.args link).hidden s = true ∨
        (split.args link).hidden split.server = false ∧ split.PeerBehind link split.server s) := by
  rw [NamesUser, quit_sent_iff]
  constructor
  · rintro (⟨s, hs, hhid | hno⟩ | ⟨-, r, text, s, hr, hbehind, hs⟩)
    · exact ⟨s, hs, .inl hhid⟩
    · simp [hqs] at hno
    · obtain ⟨-, hshown, rfl | hno⟩ := (squit_sent_iff hother).mp ⟨text, hr⟩
      · exact ⟨s, hs, .inr ⟨hshown, hbehind⟩⟩
      · simp [hqs] at hno
  · rintro ⟨s, hs, hhid | ⟨hshown, hbehind⟩⟩
    · exact .inl ⟨s, hs, .inl hhid⟩
    · obtain ⟨text, hr⟩ := (squit_sent_iff hother).mpr ⟨server_mem, hshown, .inl rfl⟩
      exact .inr ⟨hqs, split.server, text, s, hr, hbehind, hs⟩

end Links

end NetSplit

/-- The lines for a link other than the one the split came from name just what had
been introduced to it, exactly when that is covered. -/
theorem split_announced_exact (split : NetSplit) (link : NetLink)
    (hother : link.ptr ≠ split.origin) : split.Announced link ↔ split.Covered link := by
  cases hqs : link.qs with
  | false =>
    constructor
    · intro h
      refine .inl ⟨hqs, fun s hs => ?_⟩
      have hnamed := (NetSplit.namesServer_of_no_qs hother hqs).symm.trans (h.servers s)
      cases hhid : (split.args link).hidden s <;> cases hint : split.introduces link s <;>
        simp [hs, hhid, hint] at hnamed ⊢
    · rintro (⟨-, hsame⟩ | ⟨hyes, -⟩)
      · refine ⟨NetSplit.nodup_removeDependents, fun s => ?_, fun u =>
          NetSplit.namesUser_of_no_qs hqs⟩
        rw [NetSplit.namesServer_of_no_qs hother hqs]
        refine and_congr_right fun hs => ?_
        rw [hsame s hs]
        simp
      · simp [hqs] at hyes
  | true =>
    constructor
    · intro h
      refine .inr ⟨hqs, fun hshown => ?_, fun s hs hcase => ?_⟩
      · exact ((h.servers _).mp ((NetSplit.namesServer_of_qs hother hqs).mpr
          ⟨hshown, .inl rfl⟩)).2
      · rcases hcase with hint | ⟨hshown, u, hu⟩
        · obtain ⟨hroot, rfl | hbehind⟩ :=
            (NetSplit.namesServer_of_qs hother hqs).mp ((h.servers s).mpr ⟨hs, hint⟩)
          · exact ⟨hroot, hint, .refl⟩
          · exact ⟨hroot, hbehind⟩
        · obtain ⟨t, ht, hhid | hbehind⟩ :=
            (NetSplit.namesUser_of_qs hother hqs).mp ((h.users u).mpr ⟨s, hu⟩)
          · obtain rfl := NetSplit.usersOn_unique hu ht
            exact absurd (hhid.symm.trans hshown) (by simp)
          · obtain rfl := NetSplit.usersOn_unique hu ht
            exact hbehind
    · rintro (⟨hno, -⟩ | ⟨-, hroot, hall⟩)
      · simp [hqs] at hno
      · refine ⟨NetSplit.nodup_removeDependents, fun s => ?_, fun u => ?_⟩
        · rw [NetSplit.namesServer_of_qs hother hqs]
          constructor
          · rintro ⟨hshown, rfl | hbehind⟩
            · exact ⟨NetSplit.server_mem, hroot hshown⟩
            · exact ⟨hbehind.mem NetSplit.server_mem, hbehind.introduces⟩
          · rintro ⟨hs, hint⟩
            obtain ⟨hshown, hbehind⟩ := hall s hs (.inl hint)
            exact ⟨hshown, .inr hbehind⟩
        · rw [NetSplit.namesUser_of_qs hother hqs]
          constructor
          · rintro ⟨s, hs, -⟩
            exact ⟨s, hs⟩
          · rintro ⟨s, hs⟩
            refine ⟨s, hs, ?_⟩
            cases hhid : (split.args link).hidden s with
            | true => exact .inl rfl
            | false => exact .inr (hall s (NetSplit.fst_mem_allServers hs) (.inr ⟨hhid, u, hs⟩))

theorem covered_of_fits {split : NetSplit} {link : NetLink}
    (hfits : (myNameForLink split.me link).length ≤ HOSTLEN) :
    split.Covered link ↔ link.qs = false ∨
      ∀ s ∈ split.tree.allServers, split.introduces link s = true →
        split.PeerBehind link split.server s := by
  have hhidden : ∀ s, (split.args link).hidden s = !split.introduces link s := by
    intro s
    have hcut : strlcpy (myNameForLink split.me link) (HOSTLEN + 1) = myNameForLink split.me link :=
      take_of_length_le hfits
    simp [SplitArgs.hidden, NetSplit.introduces, NetSplit.args, hcut]
  constructor
  · rintro (⟨hqs, -⟩ | ⟨-, -, hall⟩)
    · exact .inl hqs
    · exact .inr fun s hs hint => (hall s hs (.inl hint)).2
  · intro h
    cases hqs : link.qs with
    | false => exact .inl ⟨hqs, fun s _ => hhidden s⟩
    | true =>
      have hall := h.resolve_left (by simp [hqs])
      refine .inr ⟨hqs, fun hshown => by simpa [hhidden] using hshown, fun s hs hcase => ?_⟩
      have hint : split.introduces link s = true := by
        rcases hcase with hint | ⟨hshown, -⟩
        · exact hint
        · simpa [hhidden] using hshown
      exact ⟨by simp [hhidden, (hall s hs hint).1], hall s hs hint⟩

/-- A hub with a leaf behind it, each with a user. -/
def hubSplit (hub leaf : CStr) : NetSplit where
  me := "irc.example".toList
  server := ⟨1, hub, "1AA".toList⟩
  users := [⟨2, "near".toList⟩]
  servers := .cons ⟨3, leaf, "1BB".toList⟩ [⟨4, "far".toList⟩] .nil .nil
  origin := 1
  comment := "gone".toList
  splitstr := "*.net *.split".toList
  servers_nodup := by simp [Forest.allServers]
  users_nodup := by simp [Forest.usersOn]

theorem hubSplit_allServers (hub leaf : CStr) : (hubSplit hub leaf).tree.allServers =
    [⟨1, hub, "1AA".toList⟩, ⟨3, leaf, "1BB".toList⟩] := rfl

theorem hubSplit_edges (hub leaf : CStr) : (hubSplit hub leaf).tree.edges =
    [(⟨1, hub, "1AA".toList⟩, ⟨3, leaf, "1BB".toList⟩)] := rfl

/-- A link with QS that hides the servers of hub.net. -/
def maskedLink : NetLink := ⟨7, true, true, some "*.hub.net".toList⟩

theorem hubSplit_covered {hub leaf : CStr} (hhub : matchMask "*.hub.net".toList hub = false) :
    (hubSplit hub leaf).Covered maskedLink := by
  have hfits : (myNameForLink (hubSplit hub leaf).me maskedLink).length ≤ HOSTLEN := by
    show "*.hub.net".toList.length ≤ HOSTLEN
    decide
  refine (covered_of_fits hfits).mpr (.inr fun s hs hint => ⟨congrArg Bool.not hhub, ?_⟩)
  rw [hubSplit_allServers] at hs
  obtain rfl | hs := List.mem_cons.mp hs
  · exact .refl
  · obtain rfl := List.mem_singleton.mp hs
    exact .single (And.intro (hubSplit_edges hub leaf ▸ mem_singleton_self _) hint)

theorem hubSplit_not_named {hub leaf : CStr} (hhub : matchMask "*.hub.net".toList hub = true)
    (s : NetServer) : ¬ (hubSplit hub leaf).NamesServer maskedLink s := by
  have hother : maskedLink.ptr ≠ 1 := by decide
  intro hnamed
  have hshown := ((NetSplit.namesServer_of_qs hother rfl).mp hnamed).1
  exact absurd (hhub.symm.trans hshown) (by decide)

/-- Where nothing is hidden, the SQUIT of the hub covers the leaf. -/
theorem split_announced_plain :
    (hubSplit "a.example".toList "b.example".toList).Announced maskedLink :=
  (split_announced_exact _ maskedLink (by decide)).mpr (hubSplit_covered (by decide +kernel))

/-- A hidden hub splits: the link is told neither of the leaf behind it, which it was
told of before, nor of the user there. -/
theorem split_not_announced :
    ¬ (hubSplit "a.hub.net".toList "b.example".toList).Announced maskedLink := by
  intro h
  have hleaf : matchMask "*.hub.net".toList "b.example".toList = false := by decide +kernel
  refine hubSplit_not_named (by decide +kernel) ⟨3, "b.example".toList, "1BB".toList⟩
    ((h.servers _).mpr (And.intro ?_ (congrArg Bool.not hleaf)))
  rw [hubSplit_allServers]
  exact .tail _ (.head _)

end Ircd
