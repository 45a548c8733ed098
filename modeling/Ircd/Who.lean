import Ircd.ChannelSend
import Ircd.Lib.Quota
import Ircd.Membership

/-!
WHO: the two passes of `who_global` over the invisible clients on the channels of the requester
and over all visible ones, and the rest of `m_who.c`.

Both passes count the same limit down, and the first marks the clients that it has seen. A
limit that is used up in the first pass is none for the second, and a second pass that stops
does not take the marks away behind the place where it does (`who_global_iff`).
-/

namespace Ircd

open List
open Quota

/-- What WHO reads of a client beside `struct Client`: `info`, whether `away` is set,
`IsCaptured`, `hopcount`, and whether the link it is behind has `CAP_TS6`. -/
structure WhoUser where
  info : CStr
  away : Bool
  captured : Bool
  hopcount : Int
  ts6 : Bool
  deriving DecidableEq

/-- What `m_who` reads; `marked` are the clients with `FLAGS_MARK`. The list of all clients has
each once, no two users have one name, and the members of a channel are users in the list. -/
structure WhoNet where
  me : Cid
  hideServers : Bool
  clients : Clients
  users : Cid → WhoUser
  marked : Finset Cid
  globalClientList : List Cid
  channel : Cid → List Channel
  hashFindChannel : CStr → Option Channel
  findClient : CStr → Option Cid
  nodup : globalClientList.Nodup
  names : ∀ x y, (clients x).isClient = true → (clients y).isClient = true →
    (clients x).name = (clients y).name → x = y
  listed : ∀ who, ∀ chptr ∈ channel who, ∀ ms ∈ chptr.members,
    ms.client ∈ globalClientList ∧ (clients ms.client).isClient = true

/-- `maxmatches` at the start. -/
def MAX_MATCHES : Nat := 500

/-- The state of the loops of `who_global`: the marks, `maxmatches`, and who has been listed. -/
structure WhoLoop where
  marked : Finset Cid
  maxmatches : Nat
  listed : List Cid

/-- `do_who`, and the countdown, which stays at zero. -/
def WhoLoop.list (s : WhoLoop) (x : Cid) : WhoLoop :=
  { s with maxmatches := s.maxmatches - 1, listed := s.listed ++ [x] }

/-- `SetMark`. -/
def WhoLoop.mark (s : WhoLoop) (x : Cid) : WhoLoop := { s with marked := insert x s.marked }

namespace WhoNet

variable (net : WhoNet) (source : Cid) (mask : Option CStr) (serverOper : Bool)

/-! ### The two passes -/

/-- The mask matches a client; `servers` says if the name of its server is tried. -/
def maskMatches (servers : Bool) (x : Cid) : Bool :=
  mask.all fun m =>
    matchMask m (net.clients x).name || matchMask m (net.clients x).username ||
      matchMask m (net.clients x).host ||
      (servers && matchMask m (net.clients (net.clients x).servptr).name) ||
      matchMask m (net.users x).info

/-- The test of `who_common_channel`. -/
def commonHit (x : Cid) : Bool :=
  net.maskMatches mask (!net.hideServers || (net.clients source).isOper) x

/-- The test of `who_global` itself. -/
def visibleHit (x : Cid) : Bool := net.maskMatches mask true x

/-- The loop of `who_common_channel`. -/
def whoCommonChannel : List Membership → WhoLoop → WhoLoop
  | [], s => s
  | ms :: rest, s =>
    if !(net.clients ms.client).isInvisible || decide (ms.client ∈ s.marked) then
      whoCommonChannel rest s
    else if serverOper && !(net.clients ms.client).isOper then whoCommonChannel rest s
    else if net.commonHit source mask ms.client then
      if s.maxmatches = 1 then (s.mark ms.client).list ms.client
      else whoCommonChannel rest ((s.mark ms.client).list ms.client)
    else whoCommonChannel rest (s.mark ms.client)

/-- The second loop of `who_global`. -/
def whoVisible : List Cid → WhoLoop → WhoLoop
  | [], s => s
  | x :: rest, s =>
    if !(net.clients x).isClient then whoVisible rest s
    else if (net.clients x).isInvisible then
      whoVisible rest { s with marked := s.marked.erase x }
    else if serverOper && !(net.clients x).isOper then whoVisible rest s
    else if net.visibleHit mask x then
      if s.maxmatches = 1 then s.list x else whoVisible rest (s.list x)
    else whoVisible rest s

/-- The first loop of `who_global`. -/
def whoCommon (chans : List Channel) (s : WhoLoop) : WhoLoop :=
  chans.foldl (fun s chptr => net.whoCommonChannel source mask serverOper chptr.members s) s

/-- `who_global`. -/
def whoGlobal : WhoLoop :=
  net.whoVisible mask serverOper net.globalClientList
    (net.whoCommon source mask serverOper (net.channel source) ⟨net.marked, MAX_MATCHES, []⟩)

/-! ### Who matches -/

/-- An invisible client that the first pass looks at. -/
def candidate (x : Cid) : Bool :=
  (net.clients x).isInvisible && (!serverOper || (net.clients x).isOper)

/-- The candidates on channels, channel by channel. -/
def candidates (chans : List Channel) : List Cid :=
  ((chans.flatMap Channel.members).map Membership.client).filter (net.candidate serverOper)

/-- Those of them that match, each where it is first seen. -/
def invisibleMatches (chans : List Channel) : List Cid :=
  (firsts net.marked (net.candidates serverOper chans)).filter (net.commonHit source mask)

/-- A visible client that the second pass lists. -/
def visibleMatch (x : Cid) : Bool :=
  (net.clients x).isClient && !(net.clients x).isInvisible &&
    (!serverOper || (net.clients x).isOper) && net.visibleHit mask x

end WhoNet

/-! ### What the loops do -/

/-- The state when these clients have been marked, and those of them listed that match. -/
def WhoLoop.visit (hit : Cid → Bool) (s : WhoLoop) (l : List Cid) : WhoLoop :=
  { marked := s.marked ∪ l.toFinset
    maxmatches := s.maxmatches - (l.filter hit).length
    listed := s.listed ++ l.filter hit }

theorem WhoLoop.visit_nil (hit : Cid → Bool) (s : WhoLoop) : s.visit hit [] = s := by
  simp [WhoLoop.visit]

theorem WhoLoop.visit_append (hit : Cid → Bool) (s : WhoLoop) (l l' : List Cid) :
    (s.visit hit l).visit hit l' = s.visit hit (l ++ l') := by
  simp [WhoLoop.visit, Finset.union_assoc, Nat.sub_sub]

namespace WhoNet

variable {net : WhoNet} {source : Cid} {mask : Option CStr} {serverOper : Bool}

theorem whoCommonChannel_skip {ms : Membership} {rest : List Membership} {s : WhoLoop}
    (h : net.candidate serverOper ms.client = false ∨ ms.client ∈ s.marked) :
    net.whoCommonChannel source mask serverOper (ms :: rest) s =
      net.whoCommonChannel source mask serverOper rest s := by
  rw [whoCommonChannel]
  split
  · rfl
  · rename_i hfirst
    split
    · rfl
    · rename_i hoper
      simp only [Bool.or_eq_true, Bool.not_eq_true', decide_eq_true_eq, not_or,
        Bool.not_eq_false] at hfirst
      refine absurd h (not_or.mpr ⟨fun hcand => ?_, hfirst.2⟩)
      simp only [candidate, hfirst.1, Bool.true_and] at hcand
      cases serverOper <;> simp_all

theorem whoCommonChannel_look {ms : Membership} {rest : List Membership} {s : WhoLoop}
    (hcand : net.candidate serverOper ms.client = true) (hmarked : ms.client ∉ s.marked) :
    net.whoCommonChannel source mask serverOper (ms :: rest) s =
      if net.commonHit source mask ms.client then
        if s.maxmatches = 1 then (s.mark ms.client).list ms.client
        else net.whoCommonChannel source mask serverOper rest ((s.mark ms.client).list ms.client)
      else net.whoCommonChannel source mask serverOper rest (s.mark ms.client) := by
  obtain ⟨hinvisible, hoper⟩ := Bool.and_eq_true_iff.mp hcand
  rw [whoCommonChannel, if_neg (by simp [hinvisible, hmarked]), if_neg]
  cases serverOper <;> simp_all

variable (net source mask serverOper) in
theorem whoCommonChannel_eq (members : List Membership) (s : WhoLoop) :
    net.whoCommonChannel source mask serverOper members s =
      s.visit (net.commonHit source mask)
        (upTo (net.commonHit source mask) s.maxmatches (firsts s.marked
          ((members.map Membership.client).filter (net.candidate serverOper)))) := by
  induction members generalizing s with
  | nil => exact (WhoLoop.visit_nil _ s).symm
  | cons ms rest ih =>
    rw [map_cons]
    cases hcand : net.candidate serverOper ms.client with
    | false =>
      rw [whoCommonChannel_skip (.inl hcand), ih, filter_cons_of_neg (by simp [hcand])]
    | true =>
      rw [filter_cons_of_pos hcand, firsts]
      by_cases hmarked : ms.client ∈ s.marked
      · rw [whoCommonChannel_skip (.inr hmarked), ih, if_pos hmarked]
      · rw [whoCommonChannel_look hcand hmarked, if_neg hmarked, upTo]
        split
        · rename_i hhit
          split
          · simp [WhoLoop.visit, WhoLoop.mark, WhoLoop.list, hhit]
          · rw [ih]
            simp [WhoLoop.visit, WhoLoop.mark, WhoLoop.list, hhit, Nat.sub_sub, Nat.add_comm]
        · rename_i hhit
          rw [ih]
          simp [WhoLoop.visit, WhoLoop.mark, hhit]

/-- The state when the second pass has gone over these clients: the invisible ones lose their
marks, and those that match are listed. -/
def clear (net : WhoNet) (mask : Option CStr) (serverOper : Bool) (s : WhoLoop) (l : List Cid) :
    WhoLoop :=
  { marked := s.marked \
      (l.filter fun x => (net.clients x).isClient && (net.clients x).isInvisible).toFinset
    maxmatches := s.maxmatches - (l.filter (net.visibleMatch mask serverOper)).length
    listed := s.listed ++ l.filter (net.visibleMatch mask serverOper) }

theorem whoVisible_eq (l : List Cid) (s : WhoLoop) : net.whoVisible mask serverOper l s =
    net.clear mask serverOper s (upTo (net.visibleMatch mask serverOper) s.maxmatches l) := by
  induction l generalizing s with
  | nil => simp [whoVisible, upTo, clear]
  | cons x rest ih =>
    unfold whoVisible
    cases hclient : (net.clients x).isClient with
    | false =>
      have hmatch : net.visibleMatch mask serverOper x = false := by
        simp [visibleMatch, hclient]
      rw [if_pos (by simp), upTo, if_neg (by simp [hmatch]), ih]
      simp [clear, hclient, hmatch]
    | true =>
      rw [if_neg (by simp)]
      cases hinvisible : (net.clients x).isInvisible with
      | true =>
        have hmatch : net.visibleMatch mask serverOper x = false := by
          simp [visibleMatch, hinvisible]
        rw [if_pos (by simp), upTo, if_neg (by simp [hmatch]), ih]
        simp [clear, hclient, hinvisible, hmatch, Finset.sdiff_insert, Finset.erase_sdiff_comm]
      | false =>
        rw [if_neg (by simp)]
        by_cases hoper : (serverOper && !(net.clients x).isOper) = true
        · have hmatch : net.visibleMatch mask serverOper x = false := by
            simp only [Bool.and_eq_true, Bool.not_eq_true'] at hoper
            simp [visibleMatch, hoper.1, hoper.2]
          rw [if_pos hoper, upTo, if_neg (by simp [hmatch]), ih]
          simp [clear, hinvisible, hmatch]
        · have hmatch : net.visibleMatch mask serverOper x = net.visibleHit mask x := by
            cases serverOper <;> simp_all [visibleMatch]
          rw [if_neg hoper, upTo, hmatch]
          split
          · rename_i hhit
            split
            · simp [clear, WhoLoop.list, hinvisible, hmatch, hhit]
            · rw [ih]
              simp [clear, WhoLoop.list, hinvisible, hmatch, hhit, Nat.sub_sub, Nat.add_comm]
          · rename_i hhit
            rw [ih]
            simp [clear, hinvisible, hmatch, hhit]

/-! ### The first pass -/

theorem candidates_cons (chptr : Channel) (chans : List Channel) :
    net.candidates serverOper (chptr :: chans) =
      (chptr.members.map Membership.client).filter (net.candidate serverOper) ++
        net.candidates serverOper chans := by
  simp [candidates]

theorem candidates_append (chans chans' : List Channel) :
    net.candidates serverOper (chans ++ chans') =
      net.candidates serverOper chans ++ net.candidates serverOper chans' := by
  simp [candidates]

theorem candidates_singleton (chptr : Channel) : net.candidates serverOper [chptr] =
    (chptr.members.map Membership.client).filter (net.candidate serverOper) := by
  simp [candidates]

theorem whoCommon_append (chans chans' : List Channel) (s : WhoLoop) :
    net.whoCommon source mask serverOper (chans ++ chans') s =
      net.whoCommon source mask serverOper chans' (net.whoCommon source mask serverOper chans s) :=
  foldl_append

variable (net source mask serverOper) in
theorem whoCommon_visit (chans : List Channel) (s : WhoLoop) : ∃ l,
    net.whoCommon source mask serverOper chans s = s.visit (net.commonHit source mask) l ∧
      l.Nodup ∧ ∀ x ∈ l, x ∈ net.candidates serverOper chans ∧ x ∉ s.marked := by
  induction chans generalizing s with
  | nil => exact ⟨[], (WhoLoop.visit_nil _ s).symm, nodup_nil, by simp⟩
  | cons chptr chans ih =>
    have hchan := whoCommonChannel_eq net source mask serverOper chptr.members s
    rw [← candidates_singleton] at hchan
    set here := upTo (net.commonHit source mask) s.maxmatches
      (firsts s.marked (net.candidates serverOper [chptr])) with hhere
    have hsub : here.Sublist (firsts s.marked (net.candidates serverOper [chptr])) :=
      upTo_sublist _ _ _
    obtain ⟨l, heq, hnodup, hl⟩ := ih (s.visit (net.commonHit source mask) here)
    refine ⟨here ++ l, ?_, ?_, ?_⟩
    · rw [whoCommon, foldl_cons, hchan]
      exact heq.trans (WhoLoop.visit_append _ s here l)
    · refine List.nodup_append.mpr ⟨(nodup_firsts _ _).sublist hsub, hnodup, ?_⟩
      rintro x hx y hy rfl
      exact (hl x hy).2 (Finset.mem_union_right _ (List.mem_toFinset.mpr hx))
    · intro x hx
      rw [candidates_cons, ← candidates_singleton, mem_append]
      rcases List.mem_append.mp hx with hx | hx
      · obtain ⟨hcand, hmarked⟩ := mem_firsts.mp (hsub.subset hx)
        exact ⟨.inl hcand, hmarked⟩
      · obtain ⟨hcand, hmarked⟩ := hl x hx
        exact ⟨.inr hcand, fun h => hmarked (Finset.mem_union_left _ h)⟩

variable (net source mask serverOper) in
theorem whoCommon_room (chans : List Channel) (s : WhoLoop)
    (h : s.maxmatches = 0 ∨ ((firsts s.marked (net.candidates serverOper chans)).filter
      (net.commonHit source mask)).length < s.maxmatches) :
    net.whoCommon source mask serverOper chans s = s.visit (net.commonHit source mask)
      (firsts s.marked (net.candidates serverOper chans)) := by
  induction chans generalizing s with
  | nil => exact (WhoLoop.visit_nil _ s).symm
  | cons chptr chans ih =>
    rw [candidates_cons, firsts_append, filter_append, length_append] at h
    have hchan := whoCommonChannel_eq net source mask serverOper chptr.members s
    rw [upTo_of_room (by omega)] at hchan
    have hunion := union_firsts s.marked
      ((chptr.members.map Membership.client).filter (net.candidate serverOper))
    rw [whoCommon, foldl_cons, hchan, candidates_cons, firsts_append, ← hunion,
      ← WhoLoop.visit_append]
    refine ih _ ?_
    rw [← hunion] at h
    simp only [WhoLoop.visit]
    omega

variable (net) in
def whoStart : WhoLoop := ⟨net.marked, MAX_MATCHES, []⟩

theorem invisibleMatches_append (chans chans' : List Channel) :
    net.invisibleMatches source mask serverOper (chans ++ chans') =
      net.invisibleMatches source mask serverOper chans ++
        (firsts (net.marked ∪ (net.candidates serverOper chans).toFinset)
          (net.candidates serverOper chans')).filter (net.commonHit source mask) := by
  rw [invisibleMatches, candidates_append, firsts_append, filter_append]
  rfl

theorem whoCommon_stop {before : List Channel} (chptr : Channel)
    (hbefore : (net.invisibleMatches source mask serverOper before).length < MAX_MATCHES) :
    ∃ l, net.whoCommon source mask serverOper (before ++ [chptr]) net.whoStart =
        net.whoStart.visit (net.commonHit source mask) l ∧
      l.filter (net.commonHit source mask) =
        (net.invisibleMatches source mask serverOper (before ++ [chptr])).take MAX_MATCHES := by
  set seen := firsts net.marked (net.candidates serverOper before) with hseen
  have hroom := whoCommon_room net source mask serverOper before net.whoStart (.inr hbefore)
  have hmarked : (net.whoStart.visit (net.commonHit source mask) seen).marked =
      net.marked ∪ (net.candidates serverOper before).toFinset := union_firsts _ _
  have hchan := whoCommonChannel_eq net source mask serverOper chptr.members
    (net.whoStart.visit (net.commonHit source mask) seen)
  rw [hmarked, ← candidates_singleton] at hchan
  set here := firsts (net.marked ∪ (net.candidates serverOper before).toFinset)
    (net.candidates serverOper [chptr]) with hhere
  have hleft : (net.whoStart.visit (net.commonHit source mask) seen).maxmatches =
      MAX_MATCHES - (net.invisibleMatches source mask serverOper before).length := rfl
  rw [hleft] at hchan
  refine ⟨seen ++ upTo (net.commonHit source mask)
    (MAX_MATCHES - (net.invisibleMatches source mask serverOper before).length) here, ?_, ?_⟩
  · rw [whoCommon_append, hroom]
    exact hchan.trans (WhoLoop.visit_append _ _ _ _)
  · rw [filter_append, filter_upTo, if_neg (by omega), invisibleMatches_append,
      take_append, take_of_length_le hbefore.le]
    rfl

theorem maxmatches_whoCommon (chans : List Channel) :
    (net.whoCommon source mask serverOper chans net.whoStart).maxmatches =
      MAX_MATCHES - (net.invisibleMatches source mask serverOper chans).length := by
  by_cases hfew : (net.invisibleMatches source mask serverOper chans).length < MAX_MATCHES
  · rw [whoCommon_room net source mask serverOper chans net.whoStart (.inr hfew)]
    rfl
  · obtain ⟨before, chptr, after, rfl, hbefore, hstop⟩ :=
      exists_crossing (fun chans => (net.invisibleMatches source mask serverOper chans).length)
        (show ([] : List Cid).length < MAX_MATCHES by decide) (not_lt.mp hfew)
    obtain ⟨l, hl, htake⟩ := whoCommon_stop chptr hbefore
    have hspent : (net.whoStart.visit (net.commonHit source mask) l).maxmatches = 0 := by
      simp only [WhoLoop.visit, htake, length_take, Nat.min_eq_left hstop]
      exact Nat.sub_self _
    rw [append_cons, whoCommon_append, hl,
      whoCommon_room net source mask serverOper _ _ (.inl hspent)]
    simp only [WhoLoop.visit] at hspent ⊢
    rw [append_cons] at hfew
    omega

/-! ### Both passes -/

theorem whoGlobal_eq : net.whoGlobal source mask serverOper =
    net.clear mask serverOper
      (net.whoCommon source mask serverOper (net.channel source) net.whoStart)
      (upTo (net.visibleMatch mask serverOper)
        (net.whoCommon source mask serverOper (net.channel source) net.whoStart).maxmatches
        net.globalClientList) :=
  whoVisible_eq _ _

theorem mem_candidates {chans : List Channel} {x : Cid} : x ∈ net.candidates serverOper chans ↔
    (∃ chptr ∈ chans, ∃ ms ∈ chptr.members, ms.client = x) ∧
      net.candidate serverOper x = true := by
  rw [candidates, mem_filter, mem_map]
  refine and_congr_left fun _ => ?_
  constructor
  · rintro ⟨ms, hms, hx⟩
    obtain ⟨chptr, hchptr, hmem⟩ := List.mem_flatMap.mp hms
    exact ⟨chptr, hchptr, ms, hmem, hx⟩
  · rintro ⟨chptr, hchptr, ms, hms, hx⟩
    exact ⟨ms, List.mem_flatMap.mpr ⟨chptr, hchptr, hms⟩, hx⟩

theorem candidate_listed {x : Cid} (h : x ∈ net.candidates serverOper (net.channel source)) :
    x ∈ net.globalClientList ∧ (net.clients x).isClient = true ∧
      (net.clients x).isInvisible = true := by
  obtain ⟨⟨chptr, hchptr, ms, hms, rfl⟩, hcand⟩ := mem_candidates.mp h
  obtain ⟨hlist, hclient⟩ := net.listed source chptr hchptr ms hms
  exact ⟨hlist, hclient, (Bool.and_eq_true_iff.mp hcand).1⟩

theorem not_invisible_of_visibleMatch {x : Cid} (h : net.visibleMatch mask serverOper x = true) :
    (net.clients x).isInvisible = false := by
  simp only [visibleMatch, Bool.and_eq_true, Bool.not_eq_true'] at h
  exact h.1.1.2

/-- What WHO should be: each client at most once, an invisible one only if it is on a channel
of the requester, all visible ones that match or five hundred replies, never more, and no mark
that is left, so that any WHO that follows is answered as before. -/
structure WhoRight (net : WhoNet) (source : Cid) (mask : Option CStr) (serverOper : Bool) :
    Prop where
  once : (net.whoGlobal source mask serverOper).listed.Nodup
  shares : ∀ x ∈ (net.whoGlobal source mask serverOper).listed,
    (net.clients x).isInvisible = true →
      ∃ chptr ∈ net.channel source, ∃ ms ∈ chptr.members, ms.client = x
  complete : (∀ x ∈ net.globalClientList, net.visibleMatch mask serverOper x = true →
      x ∈ (net.whoGlobal source mask serverOper).listed) ∨
    (net.whoGlobal source mask serverOper).listed.length = MAX_MATCHES
  bounded : (net.whoGlobal source mask serverOper).listed.length ≤ MAX_MATCHES
  unmarked : (net.whoGlobal source mask serverOper).marked = ∅
  again : ∀ source' mask' serverOper',
    { net with marked := (net.whoGlobal source mask serverOper).marked }.whoGlobal source' mask'
      serverOper' = net.whoGlobal source' mask' serverOper'

/-- The limit is used up by visible clients, and no candidate is behind the last that is listed;
or by invisible ones, and no other client matches that the passes still come to. -/
def LimitApart (net : WhoNet) (source : Cid) (mask : Option CStr) (serverOper : Bool) : Prop :=
  ((net.invisibleMatches source mask serverOper (net.channel source)).length < MAX_MATCHES ∧
    ∀ before x after, net.globalClientList = before ++ x :: after →
      net.visibleMatch mask serverOper x = true →
      (net.invisibleMatches source mask serverOper (net.channel source)).length +
        (before.filter (net.visibleMatch mask serverOper)).length + 1 = MAX_MATCHES →
      ∀ y ∈ after, y ∉ net.candidates serverOper (net.channel source)) ∨
  (MAX_MATCHES ≤ (net.invisibleMatches source mask serverOper (net.channel source)).length ∧
    (∀ x ∈ net.globalClientList, net.visibleMatch mask serverOper x = false) ∧
    ∀ before chptr after, net.channel source = before ++ chptr :: after →
      (net.invisibleMatches source mask serverOper before).length < MAX_MATCHES →
      MAX_MATCHES ≤ (net.invisibleMatches source mask serverOper (before ++ [chptr])).length →
      ∀ y ∈ net.candidates serverOper after, net.commonHit source mask y = true →
        y ∈ (net.invisibleMatches source mask serverOper (before ++ [chptr])).take MAX_MATCHES)

theorem whoGlobal_listed : (net.whoGlobal source mask serverOper).listed.Nodup ∧
    ∀ x ∈ (net.whoGlobal source mask serverOper).listed, (net.clients x).isInvisible = true →
      ∃ chptr ∈ net.channel source, ∃ ms ∈ chptr.members, ms.client = x := by
  obtain ⟨l, hl, hnodup, hcand⟩ :=
    whoCommon_visit net source mask serverOper (net.channel source) net.whoStart
  have hlisted : ∃ n, (net.whoGlobal source mask serverOper).listed =
      l.filter (net.commonHit source mask) ++
        (upTo (net.visibleMatch mask serverOper) n net.globalClientList).filter
          (net.visibleMatch mask serverOper) := by
    rw [whoGlobal_eq, hl]
    exact ⟨_, rfl⟩
  obtain ⟨n, hlisted⟩ := hlisted
  rw [hlisted]
  have hinvisible : ∀ x ∈ l.filter (net.commonHit source mask),
      x ∈ net.candidates serverOper (net.channel source) := fun x hx =>
    (hcand x (mem_of_mem_filter hx)).1
  have hvisible : ∀ x ∈ (upTo (net.visibleMatch mask serverOper) n net.globalClientList).filter
      (net.visibleMatch mask serverOper), (net.clients x).isInvisible = false := fun x hx =>
    not_invisible_of_visibleMatch (List.mem_filter.mp hx).2
  constructor
  · refine List.nodup_append.mpr ⟨hnodup.filter _,
      (net.nodup.sublist (upTo_sublist _ _ _)).filter _, ?_⟩
    rintro x hx y hy rfl
    have hno := hvisible x hy
    rw [(candidate_listed (hinvisible x hx)).2.2] at hno
    cases hno
  · intro x hx hyes
    rcases List.mem_append.mp hx with hx | hx
    · exact (mem_candidates.mp (hinvisible x hx)).1
    · rw [hvisible x hx] at hyes
      cases hyes

theorem whoRight_iff (hnone : net.marked = ∅) : WhoRight net source mask serverOper ↔
    ((∀ x ∈ net.globalClientList, net.visibleMatch mask serverOper x = true →
        x ∈ (net.whoGlobal source mask serverOper).listed) ∨
      (net.whoGlobal source mask serverOper).listed.length = MAX_MATCHES) ∧
    (net.whoGlobal source mask serverOper).listed.length ≤ MAX_MATCHES ∧
    (net.whoGlobal source mask serverOper).marked = ∅ := by
  constructor
  · exact fun h => ⟨h.complete, h.bounded, h.unmarked⟩
  · rintro ⟨hcomplete, hbounded, hunmarked⟩
    refine ⟨whoGlobal_listed.1, whoGlobal_listed.2, hcomplete, hbounded, hunmarked, ?_⟩
    intro source' mask' serverOper'
    rw [hunmarked, ← hnone]

theorem marked_of_end {s : WhoLoop}
    (hs : ∀ x ∈ s.marked, x ∈ net.candidates serverOper (net.channel source)) :
    (net.clear mask serverOper s net.globalClientList).marked = ∅ := by
  rw [clear, Finset.sdiff_eq_empty_iff_subset]
  intro x hx
  obtain ⟨hlist, hclient, hinvisible⟩ := candidate_listed (hs x hx)
  rw [mem_toFinset, mem_filter]
  exact ⟨hlist, by simp [hclient, hinvisible]⟩

/-- With less than the limit of invisible matches WHO is right if no candidate is behind the
visible client that uses the limit up. -/
theorem whoRight_of_few (hnone : net.marked = ∅)
    (hfew : (net.invisibleMatches source mask serverOper (net.channel source)).length <
      MAX_MATCHES) :
    WhoRight net source mask serverOper ↔
      ∀ before x after, net.globalClientList = before ++ x :: after →
        net.visibleMatch mask serverOper x = true →
        (net.invisibleMatches source mask serverOper (net.channel source)).length +
          (before.filter (net.visibleMatch mask serverOper)).length + 1 = MAX_MATCHES →
        ∀ y ∈ after, y ∉ net.candidates serverOper (net.channel source) := by
  rw [whoRight_iff hnone]
  set cands := net.candidates serverOper (net.channel source) with hcands
  set few := net.invisibleMatches source mask serverOper (net.channel source) with hfewdef
  have hpass :=
    whoCommon_room net source mask serverOper (net.channel source) net.whoStart (.inr hfew)
  set s := net.whoStart.visit (net.commonHit source mask) (firsts net.marked cands) with hs
  have hglobal : net.whoGlobal source mask serverOper = net.clear mask serverOper s
      (upTo (net.visibleMatch mask serverOper) (MAX_MATCHES - few.length)
        net.globalClientList) := by
    rw [whoGlobal_eq, hpass]
    rfl
  have hmarked : s.marked = cands.toFinset := by
    rw [hs]
    simp only [WhoLoop.visit]
    rw [show net.whoStart.marked = net.marked from rfl, union_firsts, hnone, Finset.empty_union]
  have hlisted : s.listed = few := nil_append _
  rw [hglobal]
  by_cases hend : (net.globalClientList.filter (net.visibleMatch mask serverOper)).length <
      MAX_MATCHES - few.length
  · -- all visible clients are listed
    rw [upTo_of_room (.inr hend)]
    refine iff_of_true ⟨.inl fun x hx hmatch => ?_, ?_, ?_⟩ ?_
    · exact mem_append_right _ (List.mem_filter.mpr ⟨hx, hmatch⟩)
    · simp only [clear, hlisted, length_append]
      omega
    · exact marked_of_end fun x hx => by rwa [hmarked, mem_toFinset] at hx
    · intro before x after hsplit hmatch hcount
      rw [hsplit, filter_append, filter_cons_of_pos hmatch, length_append,
        length_cons] at hend
      omega
  · -- the pass stops at the client that uses the limit up
    have hstop : ∀ {before x after}, net.globalClientList = before ++ x :: after →
        net.visibleMatch mask serverOper x = true →
        few.length + (before.filter (net.visibleMatch mask serverOper)).length + 1 = MAX_MATCHES →
        upTo (net.visibleMatch mask serverOper) (MAX_MATCHES - few.length) net.globalClientList =
            before ++ [x] ∧
          ((net.clear mask serverOper s (before ++ [x])).marked = ∅ ↔
            ∀ y ∈ after, y ∉ cands) := by
      intro before x after hsplit hmatch hcount
      have hnodup := net.nodup
      rw [hsplit] at hnodup
      refine ⟨by rw [hsplit, upTo_at hmatch (by omega)], ?_⟩
      rw [clear, hmarked, Finset.sdiff_eq_empty_iff_subset]
      constructor
      · intro hsub y hy hcand
        have hmem := hsub (List.mem_toFinset.mpr hcand)
        rw [mem_toFinset, mem_filter, mem_append, mem_singleton] at hmem
        have hapart := List.nodup_append.mp hnodup
        rcases hmem.1 with hbefore | rfl
        · exact hapart.2.2 y hbefore y (mem_cons_of_mem _ hy) rfl
        · exact (List.nodup_cons.mp hapart.2.1).1 hy
      · intro hafter y hy
        have hcand := List.mem_toFinset.mp hy
        obtain ⟨hlist, hclient, hinvisible⟩ := candidate_listed hcand
        rw [mem_toFinset, mem_filter]
        refine ⟨?_, by simp [hclient, hinvisible]⟩
        rw [hsplit] at hlist
        rcases List.mem_append.mp hlist with hbefore | hlist
        · exact mem_append_left _ hbefore
        · rcases List.mem_cons.mp hlist with rfl | hin
          · exact mem_append_right _ (mem_singleton_self _)
          · exact absurd hcand (hafter y hin)
    have hleft : 0 < MAX_MATCHES - few.length := by omega
    obtain ⟨before, x, after, hsplit, hmatch, hcount⟩ := exists_at hleft (not_lt.mp hend)
    obtain ⟨hupTo, hiff⟩ := hstop hsplit hmatch (by omega)
    have hlength : (net.clear mask serverOper s (before ++ [x])).listed.length = MAX_MATCHES := by
      simp only [clear, hlisted, filter_append, length_append,
        filter_cons_of_pos hmatch, filter_nil, length_singleton]
      omega
    rw [hupTo]
    constructor
    · rintro ⟨-, -, hunmarked⟩ before' x' after' hsplit' hmatch' hcount'
      obtain ⟨hupTo', hiff'⟩ := hstop hsplit' hmatch' hcount'
      rw [← hupTo, hupTo'] at hunmarked
      exact hiff'.mp hunmarked
    · intro hapart
      exact ⟨.inr hlength, hlength.le, hiff.mpr (hapart before x after hsplit hmatch (by omega))⟩

theorem whoRight_of_stop (hnone : net.marked = ∅) {before after : List Channel} {chptr : Channel}
    (hsplit : net.channel source = before ++ chptr :: after)
    (hbefore : (net.invisibleMatches source mask serverOper before).length < MAX_MATCHES)
    (hstop : MAX_MATCHES ≤
      (net.invisibleMatches source mask serverOper (before ++ [chptr])).length) :
    WhoRight net source mask serverOper ↔
      (∀ x ∈ net.globalClientList, net.visibleMatch mask serverOper x = false) ∧
      ∀ y ∈ net.candidates serverOper after, net.commonHit source mask y = true →
        y ∈ (net.invisibleMatches source mask serverOper (before ++ [chptr])).take
          MAX_MATCHES := by
  rw [whoRight_iff hnone]
  obtain ⟨l, hl, htake⟩ := whoCommon_stop chptr hbefore
  have hcount : (l.filter (net.commonHit source mask)).length = MAX_MATCHES := by
    rw [htake, length_take, Nat.min_eq_left hstop]
  have hspent : (net.whoStart.visit (net.commonHit source mask) l).maxmatches = 0 := by
    simp only [WhoLoop.visit, hcount]
    exact Nat.sub_self _
  have hmarked : (net.whoStart.visit (net.commonHit source mask) l).marked = l.toFinset := by
    simp only [WhoLoop.visit, whoStart, hnone, Finset.empty_union]
  have hpass : net.whoCommon source mask serverOper (net.channel source) net.whoStart =
      (net.whoStart.visit (net.commonHit source mask) l).visit (net.commonHit source mask)
        (firsts l.toFinset (net.candidates serverOper after)) := by
    rw [hsplit, append_cons, whoCommon_append, hl,
      whoCommon_room net source mask serverOper _ _ (.inl hspent), hmarked]
  obtain ⟨l', hl', -, hcand⟩ :=
    whoCommon_visit net source mask serverOper (net.channel source) net.whoStart
  have hunmarked : (net.clear mask serverOper (net.whoCommon source mask serverOper
      (net.channel source) net.whoStart) net.globalClientList).marked = ∅ := by
    rw [hl']
    have hmarks : ∀ x ∈ (net.whoStart.visit (net.commonHit source mask) l').marked,
        x ∈ net.candidates serverOper (net.channel source) := by
      intro x hx
      simp only [WhoLoop.visit, whoStart, hnone, Finset.empty_union, mem_toFinset] at hx
      exact (hcand x hx).1
    exact marked_of_end hmarks
  have hzero : (net.whoCommon source mask serverOper (net.channel source)
      net.whoStart).maxmatches = 0 := by
    rw [hpass]
    simp only [WhoLoop.visit, whoStart, hcount]
    omega
  have hlisted : (net.whoGlobal source mask serverOper).listed =
      l.filter (net.commonHit source mask) ++
        (firsts l.toFinset (net.candidates serverOper after)).filter
          (net.commonHit source mask) ++
        net.globalClientList.filter (net.visibleMatch mask serverOper) := by
    rw [whoGlobal_eq, hzero, upTo_of_room (.inl rfl), hpass]
    rfl
  have hbounded : (net.whoGlobal source mask serverOper).listed.length ≤ MAX_MATCHES ↔
      (firsts l.toFinset (net.candidates serverOper after)).filter
          (net.commonHit source mask) = [] ∧
        net.globalClientList.filter (net.visibleMatch mask serverOper) = [] := by
    rw [hlisted, length_append, length_append, hcount, ← length_eq_zero_iff,
      ← length_eq_zero_iff]
    omega
  rw [hbounded, filter_eq_nil_iff, filter_eq_nil_iff, ← htake]
  constructor
  · rintro ⟨-, ⟨hcommon, hvisible⟩, -⟩
    refine ⟨fun x hx => Bool.eq_false_iff.mpr (hvisible x hx), fun y hy hhit => ?_⟩
    rw [mem_filter]
    refine ⟨?_, hhit⟩
    by_contra hnot
    exact hcommon y (mem_firsts.mpr ⟨hy, fun h => hnot (List.mem_toFinset.mp h)⟩) hhit
  · rintro ⟨hvisible, hcommon⟩
    refine ⟨.inl fun x hx hmatch => ?_, ⟨fun y hy hhit => ?_, fun x hx => ?_⟩, ?_⟩
    · rw [hvisible x hx] at hmatch
      cases hmatch
    · obtain ⟨hmem, hnot⟩ := mem_firsts.mp hy
      exact hnot (List.mem_toFinset.mpr (mem_of_mem_filter (hcommon y hmem hhit)))
    · rw [hvisible x hx]
      exact Bool.false_ne_true
    · rw [whoGlobal_eq, hzero, upTo_of_room (.inl rfl)]
      exact hunmarked

end WhoNet

/-- A WHO is as it should be just when the clients that come up behind its limit are none that
matter. -/
theorem who_global_iff (net : WhoNet) (hnone : net.marked = ∅) (source : Cid)
    (mask : Option CStr) (serverOper : Bool) :
    net.WhoRight source mask serverOper ↔ net.LimitApart source mask serverOper := by
  unfold WhoNet.LimitApart
  by_cases hfew : (net.invisibleMatches source mask serverOper (net.channel source)).length <
      MAX_MATCHES
  · rw [WhoNet.whoRight_of_few hnone hfew, or_iff_left fun h => absurd h.1 (not_le.mpr hfew),
      and_iff_right hfew]
  · have hmany := not_lt.mp hfew
    rw [or_iff_right fun h => hfew h.1, and_iff_right hmany]
    obtain ⟨before, chptr, after, hsplit, hbefore, hstop⟩ :=
      exists_crossing (fun chans => (net.invisibleMatches source mask serverOper chans).length)
        (show ([] : List Cid).length < MAX_MATCHES by decide) hmany
    constructor
    · intro hright
      refine ⟨((WhoNet.whoRight_of_stop hnone hsplit hbefore hstop).mp hright).1, ?_⟩
      intro before' chptr' after' hsplit' hbefore' hstop'
      exact ((WhoNet.whoRight_of_stop hnone hsplit' hbefore' hstop').mp hright).2
    · rintro ⟨hvisible, hcommon⟩
      exact (WhoNet.whoRight_of_stop hnone hsplit hbefore hstop).mpr
        ⟨hvisible, hcommon before chptr after hsplit hbefore hstop⟩

/-- Users of whom all but the last are visible; the first and the last are on a channel. -/
def crowd (n : Nat) : WhoNet where
  me := n + 1
  hideServers := false
  clients := fun x =>
    { (default : Client) with
      status := .client, name := List.replicate x 'x'
      umodes := if x = n then {.invisible} else ∅, servptr := n + 1 }
  users := fun _ => ⟨"user".toList, false, false, 0, false⟩
  marked := ∅
  globalClientList := List.range (n + 1)
  channel := fun _ =>
    [{ (default : Channel) with
       chname := "#c".toList, members := [⟨0, ∅, true⟩, ⟨n, ∅, true⟩] }]
  hashFindChannel := fun _ => none
  findClient := fun _ => none
  nodup := nodup_range
  names := fun x y _ _ hname => by simpa using congrArg List.length hname
  listed := by
    intro who chptr hchptr ms hms
    obtain rfl := List.mem_singleton.mp hchptr
    refine ⟨List.mem_range.mpr ?_, rfl⟩
    rcases List.mem_cons.mp hms with rfl | hms
    · exact Nat.succ_pos n
    · obtain rfl := List.mem_singleton.mp hms
      exact Nat.lt_succ_self n

theorem globalClientList_crowd (n : Nat) : (crowd n).globalClientList = List.range (n + 1) := rfl

theorem visibleMatch_crowd {n x : Nat} (h : x ≠ n) :
    (crowd n).visibleMatch none false x = true := by
  simp [crowd, WhoNet.visibleMatch, WhoNet.visibleHit, WhoNet.maskMatches, Client.isClient,
    Client.isInvisible, h]

theorem candidates_crowd {n : Nat} (hn : 0 < n) :
    (crowd n).candidates false ((crowd n).channel 0) = [n] := by
  simp [crowd, WhoNet.candidates, WhoNet.candidate, Client.isInvisible, hn.ne]

theorem invisibleMatches_crowd {n : Nat} (hn : 0 < n) :
    (crowd n).invisibleMatches 0 none false ((crowd n).channel 0) = [n] := by
  rw [WhoNet.invisibleMatches, candidates_crowd hn]
  simp [crowd, firsts, WhoNet.commonHit, WhoNet.maskMatches]

/-- A WHO in a small crowd. -/
theorem who_global_iff_crowd : (crowd 2).WhoRight 0 none false := by
  refine (who_global_iff (crowd 2) rfl 0 none false).mpr (.inl ⟨?_, ?_⟩)
  · rw [invisibleMatches_crowd (by decide)]
    decide
  · intro before x after hsplit _ hcount
    rw [invisibleMatches_crowd (by decide), length_singleton, MAX_MATCHES] at hcount
    have hlength : (List.range 3).length = (before ++ x :: after).length :=
      congrArg List.length hsplit
    have hfilter := length_filter_le ((crowd 2).visibleMatch none false) before
    rw [length_range, length_append] at hlength
    omega

/-- Five hundred visible users and an invisible one behind them: its mark is left. -/
theorem who_leaves_mark : (crowd 500).marked = ∅ ∧ ¬(crowd 500).WhoRight 0 none false := by
  refine ⟨rfl, fun hright => ?_⟩
  have hone := invisibleMatches_crowd (n := 500) (by decide)
  have hfew : ((crowd 500).invisibleMatches 0 none false ((crowd 500).channel 0)).length <
      MAX_MATCHES := by
    rw [hone]
    decide
  have hsplit : (crowd 500).globalClientList = List.range 498 ++ 498 :: [499, 500] := by
    have htail : (List.range 3).map (fun x => 498 + x) = [498, 499, 500] := by decide
    rw [globalClientList_crowd, show 500 + 1 = 498 + 3 from rfl, range_add, htail]
  have hall : (List.range 498).filter ((crowd 500).visibleMatch none false) = List.range 498 := by
    refine List.filter_eq_self.mpr fun x hx => visibleMatch_crowd ?_
    have hlt := List.mem_range.mp hx
    omega
  refine (WhoNet.whoRight_of_few rfl hfew).mp hright _ 498 _ hsplit
    (visibleMatch_crowd (by decide)) ?_ 500 (by simp) ?_
  · rw [hone, hall, length_range]
    rfl
  · rw [candidates_crowd (by decide)]
    exact mem_singleton_self _

end Ircd
