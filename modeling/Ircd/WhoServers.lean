import Ircd.Who

/-!
What WHO tells of servers with `hide_servers`.

The replies have a star for the server and no hop count. The second pass of `who_global` still
tries the mask on the name of the server of each client, so who is listed depends on it
(`who_hides_servers_iff`).
-/

namespace Ircd

open List
open Quota

/-- The arguments of `form_str(RPL_WHOREPLY)`. -/
structure WhoReply where
  sender : CStr
  dest : CStr
  chname : CStr
  username : CStr
  host : CStr
  server : CStr
  name : CStr
  status : CStr
  hopcount : Int
  info : CStr
  deriving DecidableEq, Repr

/-- A line of the answer: a reply, or `form_str(RPL_ENDOFWHO)` with its arguments. -/
inductive WhoLine
  | reply (reply : WhoReply)
  | endOfWho (sender dest mask : CStr)
  deriving DecidableEq, Repr

namespace WhoNet

variable (net : WhoNet) (source : Cid)

/-! ### The replies -/

/-- `from` and `to`. -/
def whoNames : CStr × CStr :=
  if (net.users source).ts6 && (net.clients source).hasID then
    ((net.clients net.me).id, (net.clients source).id)
  else ((net.clients net.me).name, (net.clients source).name)

/-- `status` in `do_who`. -/
def whoStatus (target : Cid) (opFlags : CStr) : CStr :=
  (if (net.users target).away then 'G' else 'H') ::
    ((if (net.clients target).isOper then ['*'] else []) ++
      (if (net.clients source).isOper && (net.users target).captured then ['#'] else []) ++ opFlags)

/-- `do_who`. -/
def doWho (target : Cid) (chname : Option CStr) (opFlags : CStr) : WhoReply where
  sender := (net.whoNames source).1
  dest := (net.whoNames source).2
  chname := chname.getD ['*']
  username := (net.clients target).username
  host := (net.clients target).host
  server :=
    if net.hideServers && !(net.clients source).isOper then ['*']
    else (net.clients (net.clients target).servptr).name
  name := (net.clients target).name
  status := net.whoStatus source target opFlags
  hopcount := if net.hideServers then 0 else (net.users target).hopcount
  info := (net.users target).info

/-- `IsMember`. -/
def isMember (who : Cid) (chptr : Channel) : Bool :=
  (findChannelLink net.clients who chptr).isSome

/-- `do_who_on_channel`. -/
def doWhoOnChannel (chptr : Channel) (member serverOper : Bool) : List WhoReply :=
  (chptr.members.filter fun ms => (member || !(net.clients ms.client).isInvisible) &&
      (!serverOper || (net.clients ms.client).isOper)).map fun ms =>
    net.doWho source ms.client (some chptr.chname) (getMemberStatus ms.flags)

/-- The branch of `m_who` for one client, with the first of its channels that the requester may
know of. -/
def whoNick (target : Cid) : WhoReply :=
  match (net.channel target).find? fun chptr =>
      decide (.secret ∉ chptr.mode.mode) || net.isMember source chptr with
  | some chptr =>
    net.doWho source target (some chptr.chname)
      (((chptr.members.find? fun ms => ms.client == target).map fun ms =>
        getMemberStatus ms.flags).getD [])
  | none => net.doWho source target none []

/-- The branch of `m_who` for a channel. -/
def whoChannel (mask : CStr) (serverOper : Bool) : List WhoReply :=
  match net.hashFindChannel mask with
  | none => []
  | some chptr =>
    if net.isMember source chptr then net.doWhoOnChannel source chptr true serverOper
    else if .secret ∉ chptr.mode.mode then net.doWhoOnChannel source chptr false serverOper
    else []

/-- The replies of `who_global`. -/
def whoAll (mask : Option CStr) (serverOper : Bool) : List WhoReply :=
  (net.whoGlobal source mask serverOper).listed.map fun target =>
    net.doWho source target none []

/-- What the mask of a WHO asks for: the clients on a channel of the requester, on a channel, one
client, or all that match. -/
inductive WhoTask
  | own
  | chan (mask : CStr)
  | nick (target : Cid) (mask : CStr)
  | all (mask : Option CStr) (shown : CStr)
  deriving DecidableEq

/-- The tests of `m_who`. No client has the name of another, so one that is found and is no user
is none. -/
def whoTask (parv1 : Option CStr) (serverOper : Bool) : WhoTask :=
  match parv1 with
  | none => .all none ['*']
  | some [] => .all (some []) ['*']
  | some m =>
    if collapse m = ['*'] then .own
    else if isChanPrefix (collapse m) then .chan (collapse m)
    else
      match (net.findClient (collapse m)).filter fun x =>
          (net.clients x).isClient && (!serverOper || (net.clients x).isOper) with
      | some target => .nick target (collapse m)
      | none => .all (if collapse m = ['0'] then none else some (collapse m)) (collapse m)

/-- The replies to a WHO and the mask at their end. -/
def whoReplies (serverOper : Bool) : WhoTask → List WhoReply × CStr
  | .own =>
    (match (net.channel source).head? with
      | some chptr => net.doWhoOnChannel source chptr true serverOper
      | none => [], ['*'])
  | .chan mask => (net.whoChannel source mask serverOper, mask)
  | .nick target mask => ([net.whoNick source target], mask)
  | .all mask shown => (net.whoAll source mask serverOper, shown)

def whoOper (parv2 : Option CStr) : Bool := parv2.any fun flag => flag.head? == some 'o'

def whoAnswer (serverOper : Bool) (task : WhoTask) : List WhoLine :=
  (net.whoReplies source serverOper task).1.map .reply ++
    [.endOfWho (net.whoNames source).1 (net.whoNames source).2
      (net.whoReplies source serverOper task).2]

/-- `m_who`: the lines for the requester. -/
def mWho (parv1 parv2 : Option CStr) : List WhoLine :=
  net.whoAnswer source (whoOper parv2) (net.whoTask parv1 (whoOper parv2))

end WhoNet

/-! ### Networks that differ in servers only -/

/-- The networks have the same users and channels, and differ in the servers: their names, and
which of them a remote user is on, and how far away. -/
structure SameButServers (net net' : WhoNet) : Prop where
  name : (net.clients net.me).name = (net'.clients net'.me).name
  id : (net.clients net.me).id = (net'.clients net'.me).id
  hide : net.hideServers = net'.hideServers
  marked : net.marked = net'.marked
  isClient : ∀ x, (net.clients x).isClient = (net'.clients x).isClient
  client : ∀ x, (net.clients x).isClient = true → ∃ servptr,
    net'.clients x = { net.clients x with servptr := servptr }
  user : ∀ x, (net.clients x).isClient = true → ∃ hopcount,
    net'.users x = { net.users x with hopcount := hopcount }
  home : ∀ x, (net.clients x).isClient = true → (net.clients x).localClient.isSome = true →
    (net.clients (net.clients x).servptr).name = (net'.clients (net'.clients x).servptr).name
  list : net.globalClientList.filter (fun x => (net.clients x).isClient) =
    net'.globalClientList.filter fun x => (net'.clients x).isClient
  channel : ∀ x, net.channel x = net'.channel x
  hashFindChannel : ∀ name, net.hashFindChannel name = net'.hashFindChannel name
  findClient : ∀ name, (net.findClient name).filter (fun x => (net.clients x).isClient) =
    (net'.findClient name).filter fun x => (net'.clients x).isClient
  members : ∀ name chptr, net.hashFindChannel name = some chptr →
    ∀ ms ∈ chptr.members, (net.clients ms.client).isClient = true

/-- A WHO of all clients comes to no visible user whom the mask matches through the name of the
server in just one of the networks. -/
def ServersApart (net net' : WhoNet) (source : Cid) (parv1 : Option CStr) (serverOper : Bool) :
    Prop :=
  ∀ mask shown, net.whoTask parv1 serverOper = .all mask shown →
    ∀ before x after,
      net.globalClientList.filter (fun x => (net.clients x).isClient) = before ++ x :: after →
      (MAX_MATCHES ≤ (net.invisibleMatches source mask serverOper (net.channel source)).length ∨
        (net.invisibleMatches source mask serverOper (net.channel source)).length +
          (before.filter (net.visibleMatch mask serverOper)).length < MAX_MATCHES) →
      net.visibleMatch mask serverOper x = net'.visibleMatch mask serverOper x

namespace SameButServers

variable {net net' : WhoNet} (h : SameButServers net net') {source x : Cid} {mask : Option CStr}
  {serverOper : Bool}

include h

theorem isInvisible (hx : (net.clients x).isClient = true) :
    (net'.clients x).isInvisible = (net.clients x).isInvisible := by
  obtain ⟨servptr, hclient⟩ := h.client x hx
  rw [hclient]
  rfl

theorem isOper (hx : (net.clients x).isClient = true) :
    (net'.clients x).isOper = (net.clients x).isOper := by
  obtain ⟨servptr, hclient⟩ := h.client x hx
  rw [hclient]
  rfl

theorem maskMatches (hx : (net.clients x).isClient = true) :
    net'.maskMatches mask false x = net.maskMatches mask false x := by
  obtain ⟨servptr, hclient⟩ := h.client x hx
  obtain ⟨hopcount, huser⟩ := h.user x hx
  simp only [WhoNet.maskMatches, Bool.false_and, hclient, huser]

theorem visibleMatch_none :
    net.visibleMatch none serverOper x = net'.visibleMatch none serverOper x := by
  unfold WhoNet.visibleMatch WhoNet.visibleHit WhoNet.maskMatches
  rw [← h.isClient x]
  cases hx : (net.clients x).isClient with
  | false => simp
  | true =>
    rw [h.isInvisible hx, h.isOper hx]
    rfl

theorem whoNames (hsource : (net.clients source).isClient = true) :
    net'.whoNames source = net.whoNames source := by
  obtain ⟨servptr, hclient⟩ := h.client source hsource
  obtain ⟨hopcount, huser⟩ := h.user source hsource
  unfold WhoNet.whoNames
  rw [hclient, huser, ← h.name, ← h.id]
  rfl

theorem isMember (who : Cid) (chptr : Channel) :
    net'.isMember who chptr = net.isMember who chptr := by
  simp only [WhoNet.isMember, findChannelLink, h.isClient who]

theorem whoTask (parv1 : Option CStr) :
    net'.whoTask parv1 serverOper = net.whoTask parv1 serverOper := by
  have hfound : ∀ m, (net'.findClient m).filter (fun x =>
        (net'.clients x).isClient && (!serverOper || (net'.clients x).isOper)) =
      (net.findClient m).filter fun x =>
        (net.clients x).isClient && (!serverOper || (net.clients x).isOper) := by
    intro m
    have hfind := h.findClient m
    cases hm : (net.findClient m).filter fun x => (net.clients x).isClient with
    | none =>
      rw [hm] at hfind
      rw [Option.filter_eq_none_iff] at hm
      have hm' := Option.filter_eq_none_iff.mp hfind.symm
      rw [Option.filter_eq_none_iff.mpr, Option.filter_eq_none_iff.mpr]
      · intro x hx hboth
        exact hm x hx (Bool.and_eq_true_iff.mp hboth).1
      · intro x hx hboth
        exact hm' x hx (Bool.and_eq_true_iff.mp hboth).1
    | some x =>
      rw [hm] at hfind
      obtain ⟨hx, hclient⟩ := Option.filter_eq_some_iff.mp hm
      obtain ⟨hx', hclient'⟩ := Option.filter_eq_some_iff.mp hfind.symm
      rw [hx, hx']
      simp only [Option.filter_some, hclient, hclient', Bool.true_and, h.isOper hclient]
  unfold WhoNet.whoTask
  simp only [hfound]

section

variable (hhide : net.hideServers = true) (hsource : (net.clients source).isClient = true)
  (hplain : (net.clients source).isOper = false)

include hhide hsource hplain

theorem doWho (hx : (net.clients x).isClient = true) (chname : Option CStr) (opFlags : CStr) :
    net'.doWho source x chname opFlags = net.doWho source x chname opFlags := by
  obtain ⟨servptr, hclient⟩ := h.client x hx
  obtain ⟨hopcount, huser⟩ := h.user x hx
  have hnames := h.whoNames hsource
  have hhide' : net'.hideServers = true := h.hide ▸ hhide
  have hplain' : (net'.clients source).isOper = false := (h.isOper hsource).trans hplain
  unfold WhoNet.doWho WhoNet.whoStatus
  rw [hnames, hhide, hhide', hplain, hplain', hclient, huser]
  rfl

theorem commonHit (hx : (net.clients x).isClient = true) :
    net'.commonHit source mask x = net.commonHit source mask x := by
  have hhide' : net'.hideServers = true := h.hide ▸ hhide
  have hplain' : (net'.clients source).isOper = false := (h.isOper hsource).trans hplain
  simp only [WhoNet.commonHit, hhide, hhide', hplain, hplain', Bool.not_true, Bool.or_self]
  exact h.maskMatches hx

theorem doWhoOnChannel {chptr : Channel}
    (hchptr : ∀ ms ∈ chptr.members, (net.clients ms.client).isClient = true) (member : Bool) :
    net'.doWhoOnChannel source chptr member serverOper =
      net.doWhoOnChannel source chptr member serverOper := by
  have hfilter : (chptr.members.filter fun ms =>
        (member || !(net'.clients ms.client).isInvisible) &&
          (!serverOper || (net'.clients ms.client).isOper)) =
      chptr.members.filter fun ms => (member || !(net.clients ms.client).isInvisible) &&
        (!serverOper || (net.clients ms.client).isOper) := by
    refine filter_congr fun ms hms => ?_
    rw [h.isInvisible (hchptr ms hms), h.isOper (hchptr ms hms)]
  unfold WhoNet.doWhoOnChannel
  rw [hfilter]
  refine map_congr_left fun ms hms => ?_
  exact h.doWho hhide hsource hplain (hchptr ms (mem_of_mem_filter hms)) _ _

theorem whoChannel (mask : CStr) :
    net'.whoChannel source mask serverOper = net.whoChannel source mask serverOper := by
  unfold WhoNet.whoChannel
  rw [← h.hashFindChannel mask]
  cases hfind : net.hashFindChannel mask with
  | none => rfl
  | some chptr =>
    have hmembers := h.members mask chptr hfind
    dsimp only
    rw [h.isMember source chptr, h.doWhoOnChannel hhide hsource hplain hmembers true,
      h.doWhoOnChannel hhide hsource hplain hmembers false]

theorem whoNick {target : Cid} (htarget : (net.clients target).isClient = true) :
    net'.whoNick source target = net.whoNick source target := by
  unfold WhoNet.whoNick
  simp only [← h.channel target, h.isMember source]
  split
  · exact h.doWho hhide hsource hplain htarget _ _
  · exact h.doWho hhide hsource hplain htarget _ _

theorem whoCommonChannel {members : List Membership}
    (hmembers : ∀ ms ∈ members, (net.clients ms.client).isClient = true) (s : WhoLoop) :
    net'.whoCommonChannel source mask serverOper members s =
      net.whoCommonChannel source mask serverOper members s := by
  induction members generalizing s with
  | nil => rfl
  | cons ms rest ih =>
    have hms := hmembers ms mem_cons_self
    have hrest := ih fun m hm => hmembers m (mem_cons_of_mem _ hm)
    simp only [WhoNet.whoCommonChannel, h.isInvisible hms, h.isOper hms,
      h.commonHit hhide hsource hplain hms, hrest]

theorem whoCommon : net'.whoCommon source mask serverOper (net'.channel source) net'.whoStart =
    net.whoCommon source mask serverOper (net.channel source) net.whoStart := by
  have hstart : net'.whoStart = net.whoStart := by
    rw [WhoNet.whoStart, WhoNet.whoStart, h.marked]
  rw [← h.channel source, hstart]
  have hclients : ∀ chptr ∈ net.channel source, ∀ ms ∈ chptr.members,
      (net.clients ms.client).isClient = true :=
    fun chptr hchptr ms hms => (net.listed source chptr hchptr ms hms).2
  generalize net.whoStart = s
  revert s
  unfold WhoNet.whoCommon
  generalize net.channel source = chans at hclients
  induction chans with
  | nil => exact fun _ => rfl
  | cons chptr chans ih =>
    intro s
    rw [foldl_cons, foldl_cons,
      h.whoCommonChannel hhide hsource hplain (hclients chptr mem_cons_self)]
    exact ih (fun c hc => hclients c (mem_cons_of_mem _ hc)) _

end

end SameButServers

/-! ### The second pass -/

def WhoNet.userList (net : WhoNet) : List Cid :=
  net.globalClientList.filter fun x => (net.clients x).isClient

namespace WhoNet

variable {net : WhoNet} {source : Cid} {mask : Option CStr} {serverOper : Bool}

theorem filter_userList : net.userList.filter (net.visibleMatch mask serverOper) =
    net.globalClientList.filter (net.visibleMatch mask serverOper) := by
  rw [userList, filter_filter]
  refine filter_congr fun x _ => ?_
  cases hclient : (net.clients x).isClient <;> simp [visibleMatch, hclient]

theorem listed_whoGlobal : (net.whoGlobal source mask serverOper).listed =
    (net.whoCommon source mask serverOper (net.channel source) net.whoStart).listed ++
      (upTo (net.visibleMatch mask serverOper)
        (net.whoCommon source mask serverOper (net.channel source) net.whoStart).maxmatches
        net.userList).filter (net.visibleMatch mask serverOper) := by
  rw [whoGlobal_eq, clear, filter_upTo, filter_upTo, filter_userList]

theorem isClient_of_listed {x : Cid} (hx : x ∈ (net.whoGlobal source mask serverOper).listed) :
    (net.clients x).isClient = true := by
  rw [listed_whoGlobal] at hx
  rcases List.mem_append.mp hx with hx | hx
  · obtain ⟨l, hl, -, hcand⟩ := whoCommon_visit net source mask serverOper (net.channel source)
      net.whoStart
    rw [hl] at hx
    simp only [WhoLoop.visit, whoStart, nil_append] at hx
    exact (candidate_listed (hcand x (mem_of_mem_filter hx)).1).2.1
  · have hmatch := (List.mem_filter.mp hx).2
    simp only [visibleMatch, Bool.and_eq_true] at hmatch
    exact hmatch.1.1.1

theorem map_doWho_inj {l l' : List Cid} (hl : ∀ x ∈ l, (net.clients x).isClient = true)
    (hl' : ∀ x ∈ l', (net.clients x).isClient = true)
    (heq : (l.map fun x => net.doWho source x none []) =
      l'.map fun x => net.doWho source x none []) : l = l' := by
  induction l generalizing l' with
  | nil => exact (List.map_eq_nil_iff.mp heq.symm).symm
  | cons x l ih =>
    cases l' with
    | nil => cases heq
    | cons y l' =>
      obtain ⟨hhead, htail⟩ := List.cons.inj heq
      have hname : (net.clients x).name = (net.clients y).name := congrArg WhoReply.name hhead
      rw [net.names x y (hl x mem_cons_self) (hl' y mem_cons_self) hname,
        ih (fun z hz => hl z (mem_cons_of_mem _ hz))
          (fun z hz => hl' z (mem_cons_of_mem _ hz)) htail]

theorem isClient_of_whoTask {parv1 : Option CStr} {target : Cid} {shown : CStr}
    (h : net.whoTask parv1 serverOper = .nick target shown) :
    (net.clients target).isClient = true := by
  unfold whoTask at h
  split at h
  · cases h
  · cases h
  · split at h
    · cases h
    · split at h
      · cases h
      · split at h
        · rename_i htarget
          cases h
          exact (Bool.and_eq_true_iff.mp (Option.filter_eq_some_iff.mp htarget).2).1
        · cases h

end WhoNet

theorem SameButServers.whoAll_iff {net net' : WhoNet} (h : SameButServers net net')
    (hhide : net.hideServers = true) {source : Cid}
    (hsource : (net.clients source).isClient = true)
    (hplain : (net.clients source).isOper = false) {mask : Option CStr} {serverOper : Bool} :
    net.whoAll source mask serverOper = net'.whoAll source mask serverOper ↔
      ∀ before x after, net.userList = before ++ x :: after →
        (MAX_MATCHES ≤ (net.invisibleMatches source mask serverOper (net.channel source)).length ∨
          (net.invisibleMatches source mask serverOper (net.channel source)).length +
            (before.filter (net.visibleMatch mask serverOper)).length < MAX_MATCHES) →
        net.visibleMatch mask serverOper x = net'.visibleMatch mask serverOper x := by
  have hclients : ∀ x ∈ (net'.whoGlobal source mask serverOper).listed,
      (net.clients x).isClient = true := fun x hx => by
    rw [h.isClient x]
    exact WhoNet.isClient_of_listed hx
  have hwho : net'.whoAll source mask serverOper =
      (net'.whoGlobal source mask serverOper).listed.map fun x => net.doWho source x none [] :=
    map_congr_left fun x hx => h.doWho hhide hsource hplain (hclients x hx) none []
  have hsame : net.whoAll source mask serverOper = net'.whoAll source mask serverOper ↔
      (net.whoGlobal source mask serverOper).listed =
        (net'.whoGlobal source mask serverOper).listed := by
    rw [hwho, WhoNet.whoAll]
    constructor
    · exact WhoNet.map_doWho_inj (fun x hx => WhoNet.isClient_of_listed hx) hclients
    · exact fun heq => by rw [heq]
  have hlist : net'.userList = net.userList := h.list.symm
  have hnodup : net.userList.Nodup := net.nodup.filter _
  rw [hsame, WhoNet.listed_whoGlobal, WhoNet.listed_whoGlobal,
    h.whoCommon hhide hsource hplain, hlist, append_cancel_left_eq,
    filter_upTo_eq_iff hnodup, WhoNet.maxmatches_whoCommon]
  refine forall₄_congr fun before x after _ => imp_congr_left ?_
  omega

/-- With `hide_servers` two networks that differ in servers only answer an ordinary user in the
same way just when the names of servers do not tell two users apart that a WHO of all clients
comes to. -/
theorem who_hides_servers_iff {net net' : WhoNet} (h : SameButServers net net')
    (hhide : net.hideServers = true) {source : Cid}
    (hsource : (net.clients source).isClient = true)
    (hplain : (net.clients source).isOper = false) (parv1 parv2 : Option CStr) :
    net.mWho source parv1 parv2 = net'.mWho source parv1 parv2 ↔
      ServersApart net net' source parv1 (WhoNet.whoOper parv2) := by
  have hnames := h.whoNames hsource
  unfold WhoNet.mWho ServersApart
  rw [h.whoTask parv1]
  generalize WhoNet.whoOper parv2 = serverOper
  -- only a WHO of all clients tries the mask on servers
  have hother : ∀ task, (∀ mask shown, task ≠ .all mask shown) →
      net.whoTask parv1 serverOper = task →
      net'.whoReplies source serverOper task = net.whoReplies source serverOper task →
      (net.whoAnswer source serverOper (net.whoTask parv1 serverOper) =
          net'.whoAnswer source serverOper (net.whoTask parv1 serverOper) ↔
        ServersApart net net' source parv1 serverOper) := by
    intro task hnot htask hreplies
    refine iff_of_true ?_ fun mask shown hall => absurd (htask.symm.trans hall) (hnot mask shown)
    rw [htask, WhoNet.whoAnswer, WhoNet.whoAnswer, hreplies, hnames]
  cases htask : net.whoTask parv1 serverOper with
  | own =>
    rw [← htask]
    refine hother .own (fun _ _ heq => by cases heq) htask ?_
    unfold WhoNet.whoReplies
    rw [← h.channel source]
    cases hhead : (net.channel source).head? with
    | none => rfl
    | some chptr =>
      have hchptr := mem_of_head? hhead
      dsimp only
      rw [h.doWhoOnChannel hhide hsource hplain fun ms hms =>
        (net.listed source chptr hchptr ms hms).2]
  | chan mask =>
    rw [← htask]
    refine hother (.chan mask) (fun _ _ heq => by cases heq) htask ?_
    simp only [WhoNet.whoReplies, h.whoChannel hhide hsource hplain]
  | nick target mask =>
    rw [← htask]
    refine hother (.nick target mask) (fun _ _ heq => by cases heq) htask ?_
    simp only [WhoNet.whoReplies,
      h.whoNick hhide hsource hplain (WhoNet.isClient_of_whoTask htask)]
  | all mask shown =>
    have hanswer : net.whoAnswer source serverOper (.all mask shown) =
          net'.whoAnswer source serverOper (.all mask shown) ↔
        net.whoAll source mask serverOper = net'.whoAll source mask serverOper := by
      simp only [WhoNet.whoAnswer, WhoNet.whoReplies, hnames, append_cancel_right_eq]
      exact (List.map_injective_iff.mpr fun r r' heq => WhoLine.reply.inj heq).eq_iff
    rw [hanswer, h.whoAll_iff hhide hsource hplain]
    constructor
    · intro hall mask' shown' heq
      cases heq
      exact hall
    · exact fun hall => hall mask shown rfl

/-- The clients of a server that hides servers: itself, two users, of whom the second is on
another server, and that server. -/
def hiddenClients (name : CStr) : Clients := fun x =>
  if x = 0 then { (default : Client) with status := .me, name := "hub.example".toList }
  else if x = 3 then { (default : Client) with status := .server, name := name }
  else
    { (default : Client) with
      status := .client, name := List.replicate x 'n', servptr := if x = 1 then 0 else 3 }

theorem name_hiddenClients {name : CStr} {x : Cid}
    (h : (hiddenClients name x).isClient = true) :
    (hiddenClients name x).name = List.replicate x 'n' := by
  unfold hiddenClients at h ⊢
  split_ifs at h ⊢
  · simp [Client.isClient] at h
  · simp [Client.isClient] at h
  · rfl
  · rfl

/-- The server with the other one under this name. -/
def hidden (name : CStr) : WhoNet where
  me := 0
  hideServers := true
  clients := hiddenClients name
  users := fun _ => ⟨"user".toList, false, false, 1, false⟩
  marked := ∅
  globalClientList := [1, 2]
  channel := fun _ => []
  hashFindChannel := fun _ => none
  findClient := fun _ => none
  nodup := by decide
  names := by
    intro x y hx hy hname
    rw [name_hiddenClients hx, name_hiddenClients hy] at hname
    simpa using congrArg List.length hname
  listed := fun who chptr hchptr => (not_mem_nil hchptr).elim

theorem sameButServers_hidden (name name' : CStr) : SameButServers (hidden name) (hidden name')
    where
  name := rfl
  id := rfl
  hide := rfl
  marked := rfl
  isClient x := by
    unfold hidden hiddenClients
    dsimp only
    split_ifs <;> rfl
  client x hx := by
    unfold hidden hiddenClients at hx ⊢
    dsimp only at hx ⊢
    split_ifs at hx ⊢
    · cases hx
    · cases hx
    · exact ⟨_, rfl⟩
    · exact ⟨_, rfl⟩
  user x _ := ⟨1, rfl⟩
  home x hx hlocal := by
    unfold hidden hiddenClients at hlocal
    dsimp only at hlocal
    split_ifs at hlocal <;> cases hlocal
  list := rfl
  channel _ := rfl
  hashFindChannel _ := rfl
  findClient _ := rfl
  members _ _ h := by cases h

/-- A WHO without a mask. -/
theorem who_hides_servers_iff_hidden :
    (hidden "alpha.example".toList).mWho 1 none none =
      (hidden "beta.example".toList).mWho 1 none none := by
  refine (who_hides_servers_iff (sameButServers_hidden _ _) rfl rfl rfl none none).mpr ?_
  intro mask shown htask before x after _ _
  obtain ⟨rfl, -⟩ := WhoNet.WhoTask.all.inj htask
  exact (sameButServers_hidden _ _).visibleMatch_none

/-- A WHO for the name of a server lists its users. -/
theorem who_tells_server : SameButServers (hidden "alpha.example".toList)
      (hidden "beta.example".toList) ∧
    (hidden "alpha.example".toList).mWho 1 (some "alpha.*".toList) none ≠
      (hidden "beta.example".toList).mWho 1 (some "alpha.*".toList) none :=
  ⟨sameButServers_hidden _ _, by decide +kernel⟩

end Ircd
