import Ircd.Lib.TreeRoute
import Ircd.MatchEsc
import Ircd.MaskBuffer
import Ircd.ServerTreeRuns
import Mathlib.Combinatorics.SimpleGraph.Star

/-!
Where a query goes (`hunt_server` of `s_serv.c`).

The target of a query is looked for as a client, as a server, and as a mask over all clients.
Whoever is behind the link that the query came from is passed over each time, except where a
text without wildcards is looked for as a server once more. A server that is linked directly
is never passed over. `SendsBack` says when the query goes back for one of the two,
`SendsAstray` when the server that is found has another name, and `hunt_server_iff` that
nothing else goes wrong. `routed_once_iff` follows a query from server to server.

Lazy links are left out.
-/

namespace Ircd

open List
open TreeRoute

/-! ### `hunt_server` -/

/-- What a server knows when it looks for a target: `global_client_list`, and the connections
with `CAP_TS6`. -/
structure HuntView extends World where
  globalClientList : List Cid
  ts6 : Cid → Bool

/-- A call: the connection that the line came in on, its sender, and the parameters, of which
one is the target. -/
structure HuntCall where
  client : Cid
  source : Cid
  server : Nat
  parv : List CStr

/-- `HUNTED_NOSUCH`, with the parameters of `ERR_NOSUCHSERVER` for the source, `HUNTED_ISME`,
and `HUNTED_PASS`, with the parameters of the command for the target. -/
inductive Hunted where
  | nosuch (reply : List CStr)
  | isme
  | pass (target : Cid) (parv : List CStr)
  deriving DecidableEq

def HuntCall.text (call : HuntCall) : CStr := param call.parv call.server

def isWild (text : CStr) : Bool := text.contains '?' || text.contains '*'

namespace HuntView

variable (v : HuntView)

/-- The text is this server's. A missing one is, too. -/
def forMe (text : CStr) : Bool :=
  text.isEmpty || matchMask (v.clients me).name text || matchMask text (v.clients me).name ||
    text == (v.clients me).id

/-- The client is behind the same link as the source, and not at the end of it. -/
def wrongWay (source c : Cid) : Bool :=
  (v.clients c).from == (v.clients source).from && !(v.clients c).myConnect

/-- The client that the text names, unless it is passed over. -/
def person (client source : Cid) (text : CStr) : Option Cid :=
  (if (v.clients source).myClient then v.findClient text
    else findPerson v.directory (v.clients client) text).filter fun c => !v.wrongWay source c

/-- The search with a mask. It ends at the first client that is registered and not the
connection. -/
def huntMask (client source : Cid) (mask : CStr) : List Cid → Option Cid → Option Cid
  | [], target => target
  | c :: l, target =>
    if matchMask mask (v.clients c).name then
      if v.wrongWay source c then huntMask client source mask l target
      else if (v.clients c).isRegistered && c != client then some c
      else huntMask client source mask l (some c)
    else huntMask client source mask l target

def huntTarget (client source : Cid) (text : CStr) : Option Cid :=
  match (v.person client source text).or
      ((v.findServer text).filter fun c => !v.wrongWay source c) with
  | some target => some target
  | none =>
    if isWild (collapse text) then
      v.huntMask client source (collapse text) v.globalClientList none
    else v.findServer (collapse text)

/-- `parv[0]` of the line for a target. -/
def huntPrefix (source target : Cid) (name : CStr) : CStr :=
  let t := v.clients target
  if (v.clients source).isClient &&
      (t.myConnect && v.ts6 target || !t.myConnect && v.ts6 t.from) then
    (v.clients source).ID
  else name

/-- `hunt_server`. -/
def huntServer (call : HuntCall) : Hunted :=
  if v.forMe call.text then .isme
  else
    let text := collapse call.text
    let nosuch := .nosuch [(v.clients me).name, param call.parv 0, text]
    match v.huntTarget call.client call.source call.text with
    | none => nosuch
    | some target =>
      let t := v.clients target
      if !t.isRegistered then nosuch
      else if t.isMe || t.myClient then .isme
      else
        let text := if matchMask t.name text then text else t.name
        .pass target
          ((call.parv.set call.server text).set 0
            (v.huntPrefix call.source target (param call.parv 0)))

/-! ### What can go wrong -/

/-- The client is one that a query is passed on to. -/
def remote (c : Cid) : Bool :=
  (v.clients c).isRegistered && !((v.clients c).isMe || (v.clients c).myClient)

/-- A client in the search with a mask that is not passed over. -/
def hits (source : Cid) (mask : CStr) (c : Cid) : Bool :=
  matchMask mask (v.clients c).name && !v.wrongWay source c

/-- The clients are in order, and those in `global_client_list` are alive. -/
structure Sound (v : HuntView) : Prop where
  coherent : Coherent v.toWorld
  listed : ∀ c ∈ v.globalClientList, (v.clients c).isDead = false

end HuntView

/-- The text denotes the client: it is the name or the identifier, or a mask for the name, or
the name is a mask for the text. -/
inductive Denoted (text : CStr) (x : Client) : Prop where
  | name (h : ircEq text x.name = true)
  | id (h : ircEq text x.id = true)
  | mask (h : matchMask text x.name = true)
  | masked (h : matchMask x.name text = true)

namespace HuntCall

variable (call : HuntCall) (v : HuntView)

/-- The line came in on a live connection that the source is behind. -/
structure Received : Prop where
  live : (v.clients call.source).isDead = false
  connected : (v.clients call.client).isDead = false ∧ (v.clients call.client).myConnect = true
  behind : (v.clients call.source).from = call.client

/-- Where the query is passed on, it goes to a registered client that the text denotes, and
not back. -/
def RightWay : Prop :=
  ∀ target parv, v.huntServer call = .pass target parv →
    (v.clients target).isRegistered = true ∧ Denoted call.text (v.clients target) ∧
      (v.clients target).from ≠ (v.clients call.source).from

/-- No client that the text names is to be had, and either the server that it names is in
the direction of the source, at the end of the link or looked for once more without
wildcards, or a mask fits the server at the end of the link, no other registered client
behind another link, and nobody later in the list. -/
inductive SendsBack : Prop where
  | server {t : Cid} (hme : v.forMe call.text = false)
    (hperson : v.person call.client call.source call.text = none)
    (hfind : v.findServer call.text = some t) (hremote : v.remote t = true)
    (hback : (v.clients t).from = call.client)
    (hagain : (v.clients t).myConnect = true ∨ isWild call.text = false)
  | mask (hme : v.forMe call.text = false)
    (hperson : v.person call.client call.source call.text = none)
    (hserver : ∀ t, v.findServer call.text = some t → v.wrongWay call.source t = true)
    (hwild : isWild call.text = true) (hremote : v.remote call.client = true)
    (halone : ∀ c ∈ v.globalClientList, v.hits call.source (collapse call.text) c = true →
      (v.clients c).isRegistered = true → c = call.client)
    (hlast : v.globalClientList.reverse.find? (v.hits call.source (collapse call.text)) =
      some call.client)

/-- The text is longer than a host name, and a server is found whose name is a mask for the
part of it that is looked for. -/
structure SendsAstray : Prop where
  notMe : v.forMe call.text = false
  noPerson : v.person call.client call.source call.text = none
  long : HOSTLEN < call.text.length
  found : ∃ t, v.findServer call.text = some t ∧ v.remote t = true ∧
    (v.wrongWay call.source t = false ∨ isWild call.text = false) ∧
    ¬Denoted call.text (v.clients t)

end HuntCall

/-! ### The search -/

theorem isWild_collapse (text : CStr) : isWild (collapse text) = isWild text := by
  have hmem : ∀ c : Char, c ∈ collapse text ↔ c ∈ text := by
    intro c
    refine ⟨mem_collapse, fun h => ?_⟩
    induction text with
    | nil => exact h
    | cons d text ih =>
      unfold collapse
      split
      · rename_i hstars
        refine ih ?_
        rcases List.mem_cons.mp h with rfl | h
        · rw [hstars.1]
          exact mem_of_head? hstars.2
        · exact h
      · rcases List.mem_cons.mp h with rfl | h
        · exact mem_cons_self
        · exact mem_cons_of_mem _ (ih h)
  unfold isWild
  rw [Bool.eq_iff_iff]
  simp only [Bool.or_eq_true, contains_iff_mem, hmem]

theorem collapse_of_not_wild {text : CStr} (h : isWild text = false) : collapse text = text := by
  have hstar : '*' ∉ text := by
    intro hmem
    rw [isWild, Bool.or_eq_false_iff, ← Bool.not_eq_true, ← Bool.not_eq_true,
      contains_iff_mem, contains_iff_mem] at h
    exact h.2 hmem
  clear h
  induction text with
  | nil => rfl
  | cons c text ih =>
    rw [mem_cons, not_or] at hstar
    rw [collapse, if_neg (fun hc => hstar.1 hc.1.symm), ih hstar.2]

theorem matchMask_collapse (mask name : CStr) :
    matchMask (collapse mask) name = matchMask mask name := by
  rw [Bool.eq_iff_iff, matchMask_iff, matchMask_iff, collapse_eq_squeeze,
    Glob.denotes_squeeze_iff]

namespace HuntView

variable {v : HuntView} {client source t : Cid} {text mask : CStr} {l : List Cid}
  {target : Option Cid}

theorem huntMask_some (h : v.huntMask client source mask l target = some t) :
    (t ∈ l ∧ v.hits source mask t = true) ∨ target = some t := by
  induction l generalizing target with
  | nil => exact .inr h
  | cons c l ih =>
    unfold huntMask at h
    have hrest : ∀ {o}, v.huntMask client source mask l o = some t →
        (t ∈ c :: l ∧ v.hits source mask t = true) ∨ o = some t :=
      fun h => (ih h).imp_left fun hin => ⟨mem_cons_of_mem _ hin.1, hin.2⟩
    by_cases hmatch : matchMask mask (v.clients c).name = true
    · rw [if_pos hmatch] at h
      by_cases hway : v.wrongWay source c = true
      · rw [if_pos hway] at h
        exact hrest h
      · rw [if_neg hway] at h
        have hhits : v.hits source mask c = true := by
          rw [hits, hmatch, Bool.eq_false_iff.mpr hway]
          rfl
        have hself : ∀ {d}, some d = some t → t ∈ d :: l := by
          rintro d ⟨⟩
          exact mem_cons_self
        split at h
        · cases h
          exact .inl ⟨mem_cons_self, hhits⟩
        · rcases hrest h with hin | hc
          · exact .inl hin
          · cases hc
            exact .inl ⟨mem_cons_self, hhits⟩
    · rw [if_neg hmatch] at h
      exact hrest h

theorem huntMask_client_iff :
    v.huntMask client source mask l target = some client ↔
      (∀ c ∈ l, v.hits source mask c = true → (v.clients c).isRegistered = true → c = client) ∧
        (l.reverse.find? (v.hits source mask)).or target = some client := by
  induction l generalizing target with
  | nil => simp [huntMask]
  | cons c l ih =>
    rw [reverse_cons, find?_append, find?_singleton, forall_mem_cons]
    unfold huntMask
    by_cases hhits : v.hits source mask c = true
    · have hboth := hhits
      rw [hits, Bool.and_eq_true_iff, Bool.not_eq_true'] at hboth
      rw [if_pos hboth.1, if_neg (by simp [hboth.2]), if_pos hhits]
      by_cases hstop : ((v.clients c).isRegistered && c != client) = true
      · rw [if_pos hstop]
        rw [Bool.and_eq_true_iff, bne_iff_ne] at hstop
        refine iff_of_false (fun h => hstop.2 (Option.some.inj h)) fun h => ?_
        exact hstop.2 (h.1.1 hhits hstop.1)
      · rw [if_neg hstop, ih]
        rw [Bool.and_eq_true_iff, bne_iff_ne, not_and, not_not] at hstop
        rw [Option.or_assoc, Option.some_or, and_assoc]
        exact ⟨fun h => ⟨fun _ => hstop, h⟩, fun h => h.2⟩
    · rw [if_neg hhits, Option.or_none, iff_comm, and_assoc]
      have hskip : (if matchMask mask (v.clients c).name = true then
          if v.wrongWay source c = true then v.huntMask client source mask l target
          else if ((v.clients c).isRegistered && c != client) = true then some c
          else v.huntMask client source mask l (some c)
        else v.huntMask client source mask l target) =
          v.huntMask client source mask l target := by
        split
        · rename_i hmatch
          refine if_pos ?_
          by_contra hway
          rw [hits, hmatch, Bool.eq_false_iff.mpr hway] at hhits
          exact hhits rfl
        · rfl
      rw [hskip, ih]
      exact ⟨fun h => h.2, fun h => ⟨fun hc => absurd hc hhits, h⟩⟩

/-! ### The target -/

theorem huntTarget_iff :
    v.huntTarget client source text = some t ↔
      v.person client source text = some t ∨
      v.person client source text = none ∧
        (v.findServer text = some t ∧ (v.wrongWay source t = false ∨ isWild text = false) ∨
        (∀ s, v.findServer text = some s → v.wrongWay source s = true) ∧ isWild text = true ∧
          v.huntMask client source (collapse text) v.globalClientList none = some t) := by
  unfold huntTarget
  rw [isWild_collapse]
  cases hperson : v.person client source text with
  | some p => simp
  | none =>
    rw [Option.none_or]
    cases hfind : v.findServer text with
    | none =>
      cases hwild : isWild text with
      | true => simp
      | false =>
        rw [collapse_of_not_wild hwild]
        simp [hfind]
    | some s =>
      cases hway : v.wrongWay source s with
      | false =>
        rw [Option.filter_some, hway]
        have hnot : ¬∀ s', some s = some s' → v.wrongWay source s' = true := fun h => by
          rw [h s rfl] at hway
          cases hway
        simp only [Bool.not_false, if_true, reduceCtorEq, false_or, true_and, hnot,
          false_and, or_false]
        refine ⟨fun h => ⟨h, .inl ?_⟩, fun h => h.1⟩
        rw [← Option.some.inj h]
        exact hway
      | true =>
        have hall : ∀ s', some s = some s' → v.wrongWay source s' = true := by
          rintro s' ⟨⟩
          exact hway
        rw [Option.filter_some, hway]
        cases hwild : isWild text with
        | true =>
          simp only [Bool.not_true, Bool.false_eq_true, if_false, if_true, reduceCtorEq,
            false_or, true_and, or_false]
          refine ⟨fun h => .inr ⟨hall, h⟩, fun h => ?_⟩
          rcases h with ⟨hs, hnot⟩ | h
          · rw [hall t hs] at hnot
            cases hnot
          · exact h.2
        | false =>
          rw [collapse_of_not_wild hwild, hfind]
          simp

theorem huntServer_pass {call : HuntCall} :
    (∃ parv, v.huntServer call = .pass t parv) ↔
      v.forMe call.text = false ∧ v.huntTarget call.client call.source call.text = some t ∧
        v.remote t = true := by
  unfold huntServer
  cases hme : v.forMe call.text with
  | true => simp
  | false =>
    rw [if_neg Bool.false_ne_true]
    dsimp only
    cases htarget : v.huntTarget call.client call.source call.text with
    | none => simp
    | some s =>
      dsimp only
      rw [remote]
      cases hreg : (v.clients s).isRegistered with
      | false =>
        refine iff_of_false (by simp) ?_
        rintro ⟨-, ⟨⟩, hremote⟩
        rw [hreg] at hremote
        cases hremote
      | true =>
        rw [Bool.not_true, if_neg Bool.false_ne_true]
        cases hhere : (v.clients s).isMe || (v.clients s).myClient with
        | true =>
          refine iff_of_false (by simp) ?_
          rintro ⟨-, ⟨⟩, hremote⟩
          rw [hhere, Bool.not_true, Bool.and_false] at hremote
          cases hremote
        | false =>
          rw [if_neg Bool.false_ne_true]
          constructor
          · rintro ⟨parv, ⟨⟩⟩
            refine ⟨rfl, rfl, ?_⟩
            rw [hreg, hhere]
            rfl
          · rintro ⟨-, ⟨⟩, -⟩
            exact ⟨_, rfl⟩

theorem myConnect_of_not_wrongWay (hway : v.wrongWay source t = false)
    (hback : (v.clients t).from = (v.clients source).from) : (v.clients t).myConnect = true := by
  rw [wrongWay, hback, beq_self_eq_true, Bool.true_and, Bool.not_eq_false'] at hway
  exact hway

theorem Sound.person_onward {call : HuntCall} (hv : v.Sound) (hcall : call.Received v)
    (h : v.person call.client call.source text = some t) (hremote : v.remote t = true) :
    (v.clients t).from ≠ call.client := by
  intro hback
  rw [person, Option.filter_eq_some_iff, Bool.not_eq_true'] at h
  obtain ⟨hfind, hway⟩ := h
  rw [← hcall.behind] at hback
  have hconn := myConnect_of_not_wrongWay hway hback
  have hnot : (v.clients t).myClient = false := by
    rw [remote, Bool.and_eq_true_iff, Bool.not_eq_true', Bool.or_eq_false_iff] at hremote
    exact hremote.2.2
  split at hfind
  · -- both are their own connections
    rename_i hmine
    have hsource : (v.clients call.source).from = call.source := by
      rw [Client.myClient, Bool.and_eq_true_iff] at hmine
      exact (hv.coherent.fits _).direct hcall.live hmine.1
    have htarget : (v.clients t).from = t :=
      (hv.coherent.fits t).direct (hv.coherent.findClient_some hfind).1 hconn
    rw [← htarget, hback, hsource, hmine] at hnot
    cases hnot
  · rw [findPerson, Option.filter_eq_some_iff] at hfind
    have hclient : (v.clients t).isClient = true := hfind.2
    rw [Client.myClient, hconn, hclient] at hnot
    cases hnot

end HuntView

namespace HuntCall

variable {v : HuntView} {call : HuntCall} {t : Cid}

theorem sendsBack_iff (hv : v.Sound) (hcall : call.Received v) :
    call.SendsBack v ↔ ∃ t parv, v.huntServer call = .pass t parv ∧
      (v.clients t).from = call.client := by
  constructor
  · rintro (⟨hme, hperson, hfind, hremote, hback, hagain⟩ |
      ⟨hme, hperson, hserver, hwild, hremote, halone, hlast⟩)
    · rename_i t
      have htarget : v.huntTarget call.client call.source call.text = some t := by
        refine HuntView.huntTarget_iff.mpr (.inr ⟨hperson, .inl ⟨hfind, hagain.imp_left ?_⟩⟩)
        intro hconn
        rw [HuntView.wrongWay, hconn, Bool.not_true, Bool.and_false]
      obtain ⟨parv, hpass⟩ := HuntView.huntServer_pass.mpr ⟨hme, htarget, hremote⟩
      exact ⟨t, parv, hpass, hback⟩
    · have hmask := HuntView.huntMask_client_iff.mpr ⟨halone, (Option.or_none ..).trans hlast⟩
      have htarget : v.huntTarget call.client call.source call.text = some call.client :=
        HuntView.huntTarget_iff.mpr (.inr ⟨hperson, .inr ⟨hserver, hwild, hmask⟩⟩)
      obtain ⟨parv, hpass⟩ := HuntView.huntServer_pass.mpr ⟨hme, htarget, hremote⟩
      obtain ⟨hlive, hconn⟩ := hcall.connected
      exact ⟨call.client, parv, hpass, (hv.coherent.fits _).direct hlive hconn⟩
  · rintro ⟨t, parv, hpass, hback⟩
    obtain ⟨hme, htarget, hremote⟩ := HuntView.huntServer_pass.mp ⟨parv, hpass⟩
    have hdir : (v.clients t).from = (v.clients call.source).from :=
      hback.trans hcall.behind.symm
    rcases HuntView.huntTarget_iff.mp htarget with hperson | ⟨hperson, hserver | hmask⟩
    · exact absurd hback (hv.person_onward hcall hperson hremote)
    · refine .server hme hperson hserver.1 hremote hback (hserver.2.imp_left fun hway => ?_)
      exact HuntView.myConnect_of_not_wrongWay hway hdir
    · obtain ⟨hpassed, hwild, hfind⟩ := hmask
      -- only the connection is both behind the link and not passed over
      have hself : t = call.client := by
        rcases HuntView.huntMask_some hfind with ⟨hmem, hhits⟩ | hnone
        · rw [HuntView.hits, Bool.and_eq_true_iff, Bool.not_eq_true'] at hhits
          have hconn := HuntView.myConnect_of_not_wrongWay hhits.2 hdir
          exact ((hv.coherent.fits t).direct (hv.listed t hmem) hconn).symm.trans hback
        · cases hnone
      rw [hself] at hfind hremote
      obtain ⟨halone, hlast⟩ := HuntView.huntMask_client_iff.mp hfind
      exact .mask hme hperson hpassed hwild hremote halone ((Option.or_none ..).symm.trans hlast)

theorem matchMask_of_maskedNames {text mask name : CStr} (hmem : mask ∈ World.maskedNames text)
    (hname : ircEq name mask = true) : matchMask name text = true := by
  obtain ⟨before, rest, rfl, rfl⟩ :
      ∃ before rest, text = before ++ '.' :: rest ∧ mask = '*' :: '.' :: rest := by
    induction text with
    | nil => cases hmem
    | cons c text ih =>
      have hlater : mask ∈ World.maskedNames text →
          ∃ before rest, c :: text = before ++ '.' :: rest ∧ mask = '*' :: '.' :: rest := by
        intro h
        obtain ⟨before, rest, htext, hmask⟩ := ih h
        exact ⟨c :: before, rest, congrArg (c :: ·) htext, hmask⟩
      unfold World.maskedNames at hmem
      split at hmem
      · rename_i hdot
        rcases List.mem_cons.mp hmem with rfl | hmem
        · exact ⟨[], text, congrArg (· :: text) hdot, rfl⟩
        · exact hlater hmem
      · exact hlater hmem
  have hlower := map_toLower_of_ircEq hname
  have hupper := ircEq_iff.mp hname
  cases name with
  | nil => cases hlower
  | cons c tail =>
    obtain rfl : c = '*' :=
      eq_of_toLower_eq (by decide) (List.cons.inj hlower).1.symm
    have htail : ircEq tail ('.' :: rest) = true := ircEq_iff.mpr (List.cons.inj hupper).2
    exact (matchMask_iff _ _).mpr
      (.star before isStar_star ((matchMask_iff _ _).mp (matchMask_of_ircEq htail)))

theorem denoted_of_findServer (hv : v.Sound) {text : CStr} (hlen : text.length ≤ HOSTLEN)
    (h : v.findServer text = some t) : Denoted text (v.clients t) := by
  simp only [World.findServer, Option.or_eq_some_iff] at h
  rcases h with (hid | ⟨-, hname⟩) | ⟨-, hmasked⟩
  · split at hid
    · exact .id (hv.coherent.hashFindId_some hid).2
    · cases hid
  · have hfound := find?_some hname
    exact .name (Bool.and_eq_true_iff.mp hfound).2
  · unfold World.hashFindMaskedServer at hmasked
    split at hmasked
    · cases hmasked
    · have hwhole : strlcpy text (HOSTLEN + 1) = text := take_of_length_le hlen
      rw [hwhole] at hmasked
      obtain ⟨mask, hmem, hfind⟩ := exists_of_findSome?_eq_some hmasked
      have hname := ircEq_symm (hv.coherent.findClient_some hfind).2
      exact .masked (matchMask_of_maskedNames hmem hname)

theorem denoted_of_person (hv : v.Sound) {client source : Cid} {text : CStr}
    (h : v.person client source text = some t) : Denoted text (v.clients t) := by
  rw [HuntView.person, Option.filter_eq_some_iff] at h
  have hfind := h.1
  split at hfind
  · exact .name (hv.coherent.findClient_some hfind).2
  · rw [findPerson, Option.filter_eq_some_iff] at hfind
    have hperson := hfind.1
    split at hperson
    · exact .id (hv.coherent.hashFindId_some (Option.filter_eq_some_iff.mp hperson).1).2
    · exact .name (hv.coherent.findClient_some hperson).2

theorem sendsAstray_iff (hv : v.Sound) :
    call.SendsAstray v ↔ ∃ t parv, v.huntServer call = .pass t parv ∧
      ¬Denoted call.text (v.clients t) := by
  constructor
  · rintro ⟨hme, hperson, -, t, hfind, hremote, hway, hother⟩
    have htarget : v.huntTarget call.client call.source call.text = some t :=
      HuntView.huntTarget_iff.mpr (.inr ⟨hperson, .inl ⟨hfind, hway⟩⟩)
    obtain ⟨parv, hpass⟩ := HuntView.huntServer_pass.mpr ⟨hme, htarget, hremote⟩
    exact ⟨t, parv, hpass, hother⟩
  · rintro ⟨t, parv, hpass, hother⟩
    obtain ⟨hme, htarget, hremote⟩ := HuntView.huntServer_pass.mp ⟨parv, hpass⟩
    rcases HuntView.huntTarget_iff.mp htarget with hperson | ⟨hperson, hserver | hmask⟩
    · exact absurd (denoted_of_person hv hperson) hother
    · refine ⟨hme, hperson, ?_, t, hserver.1, hremote, hserver.2, hother⟩
      by_contra hlen
      exact hother (denoted_of_findServer hv (not_lt.mp hlen) hserver.1)
    · rcases HuntView.huntMask_some hmask.2.2 with ⟨-, hhits⟩ | hnone
      · rw [HuntView.hits, Bool.and_eq_true_iff, matchMask_collapse] at hhits
        exact absurd (.mask hhits.1) hother
      · cases hnone

theorem rightWay_iff (hv : v.Sound) (hcall : call.Received v) :
    call.RightWay v ↔ ¬call.SendsBack v ∧ ¬call.SendsAstray v := by
  rw [sendsBack_iff hv hcall, sendsAstray_iff hv]
  constructor
  · intro hright
    constructor
    · rintro ⟨t, parv, hpass, hback⟩
      exact (hright t parv hpass).2.2 (hback.trans hcall.behind.symm)
    · rintro ⟨t, parv, hpass, hother⟩
      exact hother (hright t parv hpass).2.1
  · rintro ⟨hback, hastray⟩ t parv hpass
    obtain ⟨-, -, hremote⟩ := HuntView.huntServer_pass.mp ⟨parv, hpass⟩
    refine ⟨(Bool.and_eq_true_iff.mp hremote).1, ?_, fun hdir => ?_⟩
    · by_contra hother
      exact hastray ⟨t, parv, hpass, hother⟩
    · exact hback ⟨t, parv, hpass, hdir.trans hcall.behind⟩

end HuntCall

/-! ### A query on its way -/

/-- The client is the end of a link to another server. -/
def HuntView.Link (v : HuntView) (l : Cid) : Prop :=
  (v.clients l).isDead = false ∧ (v.clients l).myConnect = true ∧ (v.clients l).isServer = true

theorem HuntView.Sound.link_of_remote {v : HuntView} (hv : v.Sound) (c : Cid)
    (hlive : (v.clients c).isDead = false) (hremote : v.remote c = true) :
    v.Link (v.clients c).from := by
  induction c using Nat.strongRecOn with
  | _ c ih =>
    have hfits := hv.coherent.fits c
    have hreg : (v.clients c).isRegistered = true := (Bool.and_eq_true_iff.mp hremote).1
    rw [HuntView.remote, hreg, Bool.true_and, Bool.not_eq_true', Bool.or_eq_false_iff] at hremote
    cases hconn : (v.clients c).myConnect with
    | true =>
      have hnot := hremote.2
      rw [Client.myClient, hconn, Bool.true_and] at hnot
      rw [Client.isRegistered, hnot, Bool.or_false] at hreg
      rw [hfits.direct hlive hconn]
      exact ⟨hlive, hconn, hreg⟩
    | false =>
      -- the server that it is behind has the same direction
      obtain ⟨hme, hdir⟩ := hfits.behind hlive hreg hconn
      obtain ⟨hlt, hup⟩ := hfits.uplink hlive hreg
      obtain ⟨huplive, hserver⟩ := hup.resolve_left hme
      rw [← hdir]
      refine ih _ hlt huplive ?_
      have hstatus : (v.clients (v.clients c).servptr).status = .server := beq_iff_eq.mp hserver
      simp [HuntView.remote, Client.isRegistered, Client.isServer, Client.isMe,
        Client.myClient, Client.isClient, hstatus]

theorem HuntView.Sound.live_of_pass {v : HuntView} {call : HuntCall} {t : Cid}
    {parv : List CStr} (hv : v.Sound) (h : v.huntServer call = .pass t parv) :
    (v.clients t).isDead = false := by
  obtain ⟨-, htarget, -⟩ := HuntView.huntServer_pass.mp ⟨parv, h⟩
  rcases HuntView.huntTarget_iff.mp htarget with hperson | ⟨-, hserver | hmask⟩
  · rw [HuntView.person, Option.filter_eq_some_iff] at hperson
    have hfind := hperson.1
    split at hfind
    · exact (hv.coherent.findClient_some hfind).1
    · rw [findPerson, Option.filter_eq_some_iff] at hfind
      have hfind := hfind.1
      split at hfind
      · exact (hv.coherent.hashFindId_some (Option.filter_eq_some_iff.mp hfind).1).1
      · exact (hv.coherent.findClient_some hfind).1
  · exact hv.coherent.findServer_some hserver.1
  · rcases HuntView.huntMask_some hmask.2.2 with hin | hnone
    · exact hv.listed t hin.1
    · cases hnone

/-- A server on the way of a query: its clients and the call there, and the servers that its
links lead to. -/
structure Hop {V : Type*} (G : SimpleGraph V) where
  server : V
  view : HuntView
  call : HuntCall
  peer : Cid → V
  sound : view.Sound
  received : call.Received view
  adj : ∀ l, view.Link l → G.Adj server (peer l)
  inj : ∀ l l', view.Link l → view.Link l' → peer l = peer l' → l = l'

namespace Hop

variable {V : Type*} {G : SimpleGraph V}

def destination (h : Hop G) : Option V :=
  match h.view.huntServer h.call with
  | .pass target _ => some (h.peer (h.view.clients target).from)
  | _ => none

/-- The query is passed on to the next server, which takes it on the link from this one. -/
structure Next (h h' : Hop G) : Prop where
  passed : ∃ target parv, h.view.huntServer h.call = .pass target parv ∧
    h'.call.text = param parv h.call.server
  server : h.destination = some h'.server
  link : h'.view.Link h'.call.client
  peer : h'.peer h'.call.client = h.server

/-- The servers that the query comes to. The last one need not take it. -/
def visited : List (Hop G) → List V
  | [] => []
  | [h] => h.server :: h.destination.toList
  | h :: h' :: route => h.server :: visited (h' :: route)

variable {h h₁ h₂ : Hop G} {route : List (Hop G)} {u : V}

theorem destination_iff : h.destination = some u ↔
    ∃ t parv, h.view.huntServer h.call = .pass t parv ∧
      h.view.Link (h.view.clients t).from ∧ h.peer (h.view.clients t).from = u := by
  have hlink : ∀ {t parv}, h.view.huntServer h.call = .pass t parv →
      h.view.Link (h.view.clients t).from := by
    intro t parv hpass
    obtain ⟨-, -, hremote⟩ := HuntView.huntServer_pass.mp ⟨parv, hpass⟩
    exact h.sound.link_of_remote t (h.sound.live_of_pass hpass) hremote
  unfold destination
  cases hrun : h.view.huntServer h.call with
  | nosuch reply => simp
  | isme => simp
  | pass t parv =>
    rw [Option.some.injEq]
    constructor
    · intro hpeer
      exact ⟨t, parv, rfl, hlink hrun, hpeer⟩
    · rintro ⟨t', parv', hpass, -, hpeer⟩
      cases hpass
      exact hpeer

theorem adj_destination (hto : h.destination = some u) : G.Adj h.server u := by
  obtain ⟨t, parv, -, hlink, rfl⟩ := destination_iff.mp hto
  exact h.adj _ hlink

theorem Next.back_iff (hnext : Next h₁ h₂) :
    h₂.destination = some h₁.server ↔ h₂.call.SendsBack h₂.view := by
  rw [HuntCall.sendsBack_iff h₂.sound h₂.received, destination_iff, ← hnext.peer]
  constructor
  · rintro ⟨t, parv, hpass, hlink, heq⟩
    exact ⟨t, parv, hpass, h₂.inj _ _ hlink hnext.link heq⟩
  · rintro ⟨t, parv, hpass, hback⟩
    exact ⟨t, parv, hpass, hback ▸ hnext.link, congrArg h₂.peer hback⟩

theorem exists_visited (hroute : (h :: route).IsChain Next) :
    ∃ rest, visited (h :: route) = h.server :: rest ∧ rest.head? = h.destination := by
  cases route with
  | nil => exact ⟨_, rfl, by cases h.destination <;> rfl⟩
  | cons h' route =>
    obtain ⟨hnext, -⟩ := List.isChain_cons_cons.mp hroute
    refine ⟨visited (h' :: route), rfl, ?_⟩
    rw [hnext.server]
    cases route <;> rfl

theorem isChain_visited (hroute : route.IsChain Next) : (visited route).IsChain G.Adj := by
  induction route with
  | nil => exact .nil
  | cons h route ih =>
    cases route with
    | nil =>
      unfold visited
      cases hto : h.destination with
      | none => exact .singleton _
      | some u => exact List.isChain_pair.mpr (adj_destination hto)
    | cons h' route =>
      obtain ⟨hnext, hrest⟩ := List.isChain_cons_cons.mp hroute
      obtain ⟨rest, hvisited, -⟩ := exists_visited hrest
      have htail := ih hrest
      rw [visited, hvisited] at *
      exact List.isChain_cons_cons.mpr ⟨adj_destination hnext.server, htail⟩

theorem onward_iff (hroute : route.IsChain Next) :
    Onward (visited route) ↔ ∀ h ∈ route.tail, ¬h.call.SendsBack h.view := by
  induction route with
  | nil => simp [visited, Onward]
  | cons h₁ route ih =>
    cases route with
    | nil =>
      unfold visited
      cases h₁.destination <;> simp [Onward]
    | cons h₂ route =>
      obtain ⟨hnext, hrest⟩ := List.isChain_cons_cons.mp hroute
      obtain ⟨rest, hvisited, hhead⟩ := exists_visited hrest
      have htail := ih hrest
      rw [tail_cons] at htail ⊢
      rw [visited, forall_mem_cons, ← htail, ← hnext.back_iff, ← hhead, hvisited]
      cases rest with
      | nil => simp [Onward]
      | cons u rest => simp [onward_cons_cons_cons, eq_comm]

end Hop

/-- A query goes the right way exactly when it is not sent back or astray, and on its way
through a network without cycles it crosses each link at most once, and comes to each
server at most once, exactly when no server behind the first sends it back. -/
theorem hunt_server_iff {V : Type*} {G : SimpleGraph V} (hG : G.IsAcyclic)
    (route : List (Hop G)) (hroute : route.IsChain Hop.Next) :
    (∀ (v : HuntView) (call : HuntCall), v.Sound → call.Received v →
      (call.RightWay v ↔ ¬call.SendsBack v ∧ ¬call.SendsAstray v)) ∧
    ((crossed (Hop.visited route)).Nodup ↔ ∀ h ∈ route.tail, ¬h.call.SendsBack h.view) ∧
    ((Hop.visited route).Nodup ↔ ∀ h ∈ route.tail, ¬h.call.SendsBack h.view) := by
  have hchain := Hop.isChain_visited hroute
  refine ⟨fun v call hv hcall => HuntCall.rightWay_iff hv hcall, ?_, ?_⟩
  · rw [nodup_crossed_iff hG hchain, Hop.onward_iff hroute]
  · rw [nodup_iff hG hchain, Hop.onward_iff hroute]

/-! ### Two servers that disagree -/

/-- Each server takes `c.x` to be behind the other: this one behind `b.x`, with `d.x`. -/
def behindHub : List ServerInput :=
  [.connect [], .link 1 "b.x".toList "1BB".toList,
    .sid 1 [] ["d.x".toList, "2".toList, "3DD".toList, "d".toList],
    .sid 1 [] ["c.x".toList, "2".toList, "2CC".toList, "c".toList]]

/-- And `b.x`, which `d.x` is linked to, behind `a.x`. -/
def behindLeaf : List ServerInput :=
  [.connect [], .link 1 "d.x".toList "3DD".toList,
    .connect [], .link 2 "a.x".toList "0AA".toList,
    .sid 2 [] ["c.x".toList, "2".toList, "2CC".toList, "c".toList]]

def midServer : Identity := ⟨"b.x".toList, "1BB".toList, by decide⟩

/-- What a server knows after links and introductions. -/
def viewAfter (self : Identity) (is : List ServerInput) : HuntView where
  toWorld := Run.exec (World.serverStep openHub self) (World.start 0 self) is
  globalClientList :=
    (Run.exec (World.serverStep openHub self) (World.start 0 self) is).globalServList
  ts6 := fun _ => true

/-- A query for `c.x` from `d.x`. -/
def askLeaf (client source : Cid) : HuntCall where
  client := client
  source := source
  server := 1
  parv := ["d.x".toList, "c.x".toList]

/-- The ends of the links that a server has. -/
def HuntView.links (v : HuntView) : List Cid :=
  v.globalServList.filter fun c => (v.clients c).myConnect && (v.clients c).isServer

section

variable {self : Identity} {is : List ServerInput}

theorem sound_viewAfter (h : Run.Guarded (World.serverStep openHub self)
    (World.Distinguishable openHub self) (World.start 0 self) is) :
    Ircd.Sound (viewAfter self is).toWorld ∧ (viewAfter self is).Sound := by
  have hstep : ∀ w i, Ircd.Sound w → World.Distinguishable openHub self w i →
      Ircd.Sound (World.serverStep openHub self w i) := fun _ i hw hi => hw.run_step i hi
  have hsound := Run.inv_exec hstep (sound_start 0 self) h
  refine ⟨hsound, hsound.coherent, fun c hc => ?_⟩
  rcases hsound.enlisted.mem.mp hc with rfl | ⟨hlive, -⟩
  · exact hsound.live
  · exact hlive

theorem mem_links (h : Ircd.Sound (viewAfter self is).toWorld) {l : Cid}
    (hl : (viewAfter self is).Link l) : l ∈ (viewAfter self is).links := by
  obtain ⟨hlive, hconn, hserver⟩ := hl
  exact List.mem_filter.mpr
    ⟨h.enlisted.mem.mpr (.inr ⟨hlive, hserver⟩), Bool.and_eq_true_iff.mpr ⟨hconn, hserver⟩⟩

end

/-- A server is told from the known ones when nobody has its identifier and its name is not
like one. -/
def World.apart (cf : ServerConfig) (self : Identity) (w : World) (i : ServerInput) : Bool :=
  (w.newServer cf (i.op self)).all fun new =>
    (w.hashFindId new.2).isNone && !World.looksLikeId new.1 && (w.findServerName new.2).isNone

theorem World.distinguishable_of_apart {cf : ServerConfig} {self : Identity} {w : World}
    {i : ServerInput} (h : w.apart cf self i = true) : w.Distinguishable cf self i := by
  intro name id hnew
  rw [World.apart, hnew, Option.all_some, Bool.and_eq_true_iff, Bool.and_eq_true_iff,
    Option.isNone_iff_eq_none, Option.isNone_iff_eq_none, Bool.not_eq_true'] at h
  obtain ⟨⟨huntaken, hname⟩, hid⟩ := h
  exact ⟨fun _ => huntaken, fun hlook => absurd (hname.symm.trans hlook) Bool.false_ne_true,
    fun _ => hid⟩

/-- Each server of a run is told from those before it. -/
def World.apartRun (cf : ServerConfig) (self : Identity) : World → List ServerInput → Bool
  | _, [] => true
  | w, i :: is => w.apart cf self i && apartRun cf self (World.serverStep cf self w i) is

theorem World.guarded_of_apartRun {cf : ServerConfig} {self : Identity} {w : World}
    {is : List ServerInput} (h : w.apartRun cf self is = true) :
    Run.Guarded (World.serverStep cf self) (World.Distinguishable cf self) w is := by
  induction is generalizing w with
  | nil => exact trivial
  | cons i is ih =>
    obtain ⟨hi, his⟩ := Bool.and_eq_true_iff.mp h
    exact ⟨World.distinguishable_of_apart hi, ih his⟩

theorem computed_behindHub :
    (World.start 0 hubServer).apartRun openHub hubServer behindHub = true ∧
      (viewAfter hubServer behindHub).links = [1] ∧
      ((viewAfter hubServer behindHub).clients 2).isDead = false ∧
      ((viewAfter hubServer behindHub).clients 1).isDead = false ∧
      ((viewAfter hubServer behindHub).clients 1).myConnect = true ∧
      ((viewAfter hubServer behindHub).clients 1).isServer = true ∧
      ((viewAfter hubServer behindHub).clients 2).from = 1 ∧
      ((viewAfter hubServer behindHub).clients 3).from = 1 ∧
      (viewAfter hubServer behindHub).huntServer (askLeaf 1 2) =
        .pass 3 ["d.x".toList, "c.x".toList] := by
  decide +kernel

theorem computed_behindLeaf :
    (World.start 0 midServer).apartRun openHub midServer behindLeaf = true ∧
      (viewAfter midServer behindLeaf).links = [2, 1] ∧
      ((viewAfter midServer behindLeaf).clients 1).isDead = false ∧
      ((viewAfter midServer behindLeaf).clients 1).myConnect = true ∧
      ((viewAfter midServer behindLeaf).clients 1).from = 1 ∧
      ((viewAfter midServer behindLeaf).clients 3).from = 2 ∧
      (viewAfter midServer behindLeaf).huntServer (askLeaf 1 1) =
        .pass 3 ["d.x".toList, "c.x".toList] := by
  decide +kernel

theorem sound_behindHub : Ircd.Sound (viewAfter hubServer behindHub).toWorld ∧
    (viewAfter hubServer behindHub).Sound :=
  sound_viewAfter (World.guarded_of_apartRun computed_behindHub.1)

theorem sound_behindLeaf : Ircd.Sound (viewAfter midServer behindLeaf).toWorld ∧
    (viewAfter midServer behindLeaf).Sound :=
  sound_viewAfter (World.guarded_of_apartRun computed_behindLeaf.1)

theorem links_behindHub {l : Cid} (hl : (viewAfter hubServer behindHub).Link l) : l = 1 := by
  have hmem := mem_links sound_behindHub.1 hl
  rw [computed_behindHub.2.1] at hmem
  exact List.mem_singleton.mp hmem

theorem links_behindLeaf {l : Cid} (hl : (viewAfter midServer behindLeaf).Link l) :
    l = 2 ∨ l = 1 := by
  have hmem := mem_links sound_behindLeaf.1 hl
  rw [computed_behindLeaf.2.1] at hmem
  exact List.mem_pair.mp hmem

theorem received_behindHub : (askLeaf 1 2).Received (viewAfter hubServer behindHub) := by
  obtain ⟨-, -, hsource, hclient, hconn, -, hbehind, -⟩ := computed_behindHub
  exact ⟨hsource, ⟨hclient, hconn⟩, hbehind⟩

theorem received_behindLeaf : (askLeaf 1 1).Received (viewAfter midServer behindLeaf) := by
  obtain ⟨-, -, hlive, hconn, hbehind, -⟩ := computed_behindLeaf
  exact ⟨hlive, ⟨hlive, hconn⟩, hbehind⟩

/-- The query for `c.x` that came in from `b.x` goes back to it. -/
theorem disagreement_sends_back :
    ¬∀ (v : HuntView) (call : HuntCall), v.Sound → call.Received v → call.RightWay v := by
  intro hclaim
  have hright := hclaim _ _ sound_behindHub.2 received_behindHub
  obtain ⟨-, -, -, -, -, -, hbehind, htarget, hpass⟩ := computed_behindHub
  exact (hright _ _ hpass).2.2 (htarget.trans hbehind.symm)

/-- The query at `b.x`, which is linked to `d.x` and `a.x`. -/
def atMid : Hop (SimpleGraph.starGraph 'b') where
  server := 'b'
  view := viewAfter midServer behindLeaf
  call := askLeaf 1 1
  peer := fun l => if l = 1 then 'd' else 'a'
  sound := sound_behindLeaf.2
  received := received_behindLeaf
  adj := by
    intro l hl
    rcases links_behindLeaf hl with rfl | rfl <;> decide
  inj := by
    intro l l' hl hl' heq
    rcases links_behindLeaf hl with rfl | rfl <;> rcases links_behindLeaf hl' with rfl | rfl
    · rfl
    · exact absurd heq (by decide)
    · exact absurd heq (by decide)
    · rfl

/-- And at `a.x`. -/
def atHub : Hop (SimpleGraph.starGraph 'b') where
  server := 'a'
  view := viewAfter hubServer behindHub
  call := askLeaf 1 2
  peer := fun _ => 'b'
  sound := sound_behindHub.2
  received := received_behindHub
  adj := fun _ _ => by decide
  inj := fun _ _ hl hl' _ => (links_behindHub hl).trans (links_behindHub hl').symm

theorem atMid_next : Hop.Next atMid atHub := by
  obtain ⟨-, -, -, -, -, htarget, hpass⟩ := computed_behindLeaf
  obtain ⟨-, -, -, hlive, hconn, hserver, -⟩ := computed_behindHub
  refine ⟨⟨3, _, hpass, rfl⟩, ?_, ⟨hlive, hconn, hserver⟩, rfl⟩
  unfold Hop.destination
  rw [show atMid.view.huntServer atMid.call = _ from hpass]
  exact congrArg some (congrArg atMid.peer htarget)

theorem hunt_server_iff_disagreement :
    (crossed (Hop.visited [atMid, atHub])).Nodup ↔
      ∀ h ∈ [atMid, atHub].tail, ¬h.call.SendsBack h.view :=
  (hunt_server_iff (SimpleGraph.isAcyclic_starGraph 'b') [atMid, atHub]
    (List.isChain_pair.mpr atMid_next)).2.1

end Ircd
