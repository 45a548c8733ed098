import Ircd.Ban
import Ircd.Lib.Run

/-!
The ban cache of a membership, `CHFL_BAN_CHECKED` and `CHFL_BAN_SILENCED`.

`can_send` keeps the result of `is_banned` in two flags of the membership of a
local client, and `add_id` and `del_id` drop them. A nick change of a local
client does not (`ban_cache_stale_after_nick_change`). In every run in which no
such nick change alters `is_banned` for a cached membership, the cache is
coherent and `can_send` answers as it would from the lists
(`ban_cache_coherent`).
-/

namespace Ircd

/-! ### The operations -/

/-- The clients and the channels of a server. -/
structure ChanState where
  clients : Clients
  channels : List Channel

/-- What can happen to the memberships, the mask lists and the nicks. -/
inductive ChanOp where
  /-- A client joins with the given member status. -/
  | join (chname : CStr) (who : Cid) (chanop halfop voice deopped : Bool)
  /-- A client leaves by PART or KICK. -/
  | part (chname : CStr) (who : Cid)
  /-- A client exits. -/
  | exit (who : Cid)
  /-- A new channel. -/
  | create (chptr : Channel)
  | addId (chname : CStr) (client : Cid) (banid : CStr) (type : BanType) (now : Int)
  | delId (chname : CStr) (banid : CStr) (type : BanType)
  /-- The lists go when an SJOIN lowers the TS. -/
  | dropLists (chname : CStr)
  /-- A client loses or gains a status flag. -/
  | status (chname : CStr) (who : Cid) (chanop halfop voice deopped : Bool)
  | changeLocalNick (who : Cid) (nick : CStr) (now : Int)
  | changeRemoteNick (who : Cid) (nick : CStr) (tsinfo : Int)
  | canSend (chname : CStr) (who : Cid)

def statusFlags (chanop halfop voice deopped : Bool) : Finset ChFlag :=
  (if chanop then {.chanop} else ∅) ∪ (if halfop then {.halfop} else ∅) ∪
    (if voice then {.voice} else ∅) ∪ (if deopped then {.deopped} else ∅)

def banFlags : Finset ChFlag := {.banChecked, .banSilenced}

def ChanState.onChannel (s : ChanState) (chname : CStr) (f : Channel → Channel) : ChanState :=
  { s with channels := s.channels.map fun chptr => if chptr.chname = chname then f chptr else chptr }

def ChanState.onClient (s : ChanState) (who : Cid) (f : Client → Client) : ChanState :=
  { s with clients := Function.update s.clients who (f (s.clients who)) }

def setStatus (chptr : Channel) (who : Cid) (flags : Finset ChFlag) : Channel :=
  { chptr with
    members := chptr.members.map fun ms =>
      if ms.client = who then { ms with flags := (ms.flags ∩ banFlags) ∪ flags } else ms }

/-- The removal of all masks when `ms_sjoin` takes a lower TS. -/
def dropLists (chptr : Channel) : Channel :=
  clearBanCache { chptr with banlist := [], exceptlist := [], invexlist := [] }

/-- One operation. A nick change is local for a directly connected client and
remote for the others; a channel starts without members. -/
def ChanState.step (cf : Config) (s : ChanState) : ChanOp → ChanState
  | .join chname who o h v d =>
    s.onChannel chname fun chptr => addUserToChannel s.clients chptr who (statusFlags o h v d)
  | .part chname who => s.onChannel chname fun chptr => removeUserFromChannel chptr who
  | .exit who => { s with channels := s.channels.map fun chptr => removeUserFromChannel chptr who }
  | .create chptr => { s with channels := { chptr with members := [] } :: s.channels }
  | .addId chname client banid type now =>
    s.onChannel chname fun chptr => (Ircd.addId cf now (s.clients client) chptr banid type).chptr
  | .delId chname banid type => s.onChannel chname fun chptr =>
    (Ircd.delId cf chptr banid type).chptr
  | .dropLists chname => s.onChannel chname Ircd.dropLists
  | .status chname who o h v d =>
    s.onChannel chname fun chptr => setStatus chptr who (statusFlags o h v d)
  | .changeLocalNick who nick now =>
    s.onClient who fun source => changeLocalNickFields cf now source nick
  | .changeRemoteNick who nick tsinfo =>
    if (s.clients who).myConnect then s
    else s.onClient who fun source => { source with name := nick, tsinfo := tsinfo }
  | .canSend chname who => s.onChannel chname fun chptr => (Ircd.canSend cf s.clients chptr who).2

/-! ### Coherence -/

/-- The cache of a membership is coherent: where `CHFL_BAN_CHECKED` is set,
`CHFL_BAN_SILENCED` is the result of `is_banned`. -/
def CacheOk (cf : Config) (cl : Clients) (chptr : Channel) (ms : Membership) : Prop :=
  .banChecked ∈ ms.flags → (.banSilenced ∈ ms.flags ↔ isBanned cf chptr (cl ms.client) = true)

/-- What the cache relies on: `locmembers` holds the members that are directly
connected, only they have cache flags, and `CHFL_BAN_SILENCED` comes with
`CHFL_BAN_CHECKED`. -/
structure MemberWf (cl : Clients) (ms : Membership) : Prop where
  local_iff : ms.onLocmembers = (cl ms.client).myConnect
  cached_local : .banChecked ∈ ms.flags → ms.onLocmembers = true
  silenced_checked : .banSilenced ∈ ms.flags → .banChecked ∈ ms.flags

def ChannelInv (cf : Config) (cl : Clients) (chptr : Channel) : Prop :=
  ∀ ms ∈ chptr.members, MemberWf cl ms ∧ CacheOk cf cl chptr ms

def ChanState.Inv (cf : Config) (s : ChanState) : Prop :=
  ∀ chptr ∈ s.channels, ChannelInv cf s.clients chptr

/-- The nick changes that do no harm: where the client has a cached membership,
the new nick is banned exactly when the old one is. -/
def ChanOp.Harmless (cf : Config) (s : ChanState) : ChanOp → Prop
  | .changeLocalNick who nick now =>
    ∀ chptr ∈ s.channels, ∀ ms ∈ chptr.members, ms.client = who → .banChecked ∈ ms.flags →
      isBanned cf chptr (changeLocalNickFields cf now (s.clients who) nick) =
        isBanned cf chptr (s.clients who)
  | _ => True

/-! ### The cache is dropped with the lists -/

theorem isBanned_congr {cf : Config} {chptr chptr' : Channel} {who : Client}
    (hban : chptr'.banlist = chptr.banlist) (hex : chptr'.exceptlist = chptr.exceptlist) :
    isBanned cf chptr' who = isBanned cf chptr who := by
  simp only [isBanned, hban, hex]

theorem mem_clearBan_flags {ms : Membership} {flag : ChFlag} (hflag : flag ∉ banFlags) :
    flag ∈ ms.clearBan.flags ↔ flag ∈ ms.flags := by
  simp only [banFlags, Finset.mem_insert, Finset.mem_singleton, not_or] at hflag
  unfold Membership.clearBan
  split
  · simp [hflag]
  · rfl

theorem MemberWf.clearBan {cl : Clients} {ms : Membership} (h : MemberWf cl ms) :
    MemberWf cl ms.clearBan ∧ .banChecked ∉ ms.clearBan.flags := by
  unfold Membership.clearBan
  cases hloc : ms.onLocmembers with
  | true => exact ⟨⟨by simpa [hloc] using h.local_iff, by simp, by simp⟩, by simp⟩
  | false =>
    have hnot : .banChecked ∉ ms.flags := fun hc => by simpa [hloc] using h.cached_local hc
    exact ⟨by simpa using h, by simpa using hnot⟩

theorem ChannelInv.of_cleared {cf : Config} {cl : Clients} {chptr chptr' : Channel}
    (h : ChannelInv cf cl chptr) (hmem : chptr'.members = (clearBanCache chptr).members) :
    ChannelInv cf cl chptr' := by
  intro ms hms
  rw [hmem] at hms
  obtain ⟨old, hold, rfl⟩ := List.mem_map.mp hms
  obtain ⟨hwf, hnot⟩ := (h old hold).1.clearBan
  exact ⟨hwf, fun hc => absurd hc hnot⟩

theorem ChannelInv.congr {cf : Config} {cl : Clients} {chptr chptr' : Channel}
    (h : ChannelInv cf cl chptr) (hmem : chptr'.members = chptr.members)
    (hban : chptr'.banlist = chptr.banlist) (hex : chptr'.exceptlist = chptr.exceptlist) :
    ChannelInv cf cl chptr' := by
  intro ms hms
  rw [hmem] at hms
  refine ⟨(h ms hms).1, fun hc => ?_⟩
  rw [isBanned_congr hban hex]
  exact (h ms hms).2 hc

theorem ChannelInv.setList {cf : Config} {cl : Clients} {chptr : Channel}
    (h : ChannelInv cf cl chptr) (type : BanType) (list : List Ban) :
    ChannelInv cf cl ((selectList chptr type).setList type list) := by
  cases type with
  | ban => exact h.of_cleared rfl
  | exception => exact h.of_cleared rfl
  | invex => exact h.congr rfl rfl rfl

theorem ChannelInv.selectList {cf : Config} {cl : Clients} {chptr : Channel}
    (h : ChannelInv cf cl chptr) (type : BanType) : ChannelInv cf cl (selectList chptr type) := by
  cases type with
  | ban => exact h.of_cleared rfl
  | exception => exact h.of_cleared rfl
  | invex => exact h

theorem ChannelInv.addId {cf : Config} {cl : Clients} {chptr : Channel}
    (h : ChannelInv cf cl chptr) (now : Int) (client : Client) (banid : CStr) (type : BanType) :
    ChannelInv cf cl (Ircd.addId cf now client chptr banid type).chptr := by
  unfold Ircd.addId
  split
  · exact h
  · simp only
    split
    · exact h.selectList type
    · exact h.setList type _

theorem ChannelInv.delId {cf : Config} {cl : Clients} {chptr : Channel}
    (h : ChannelInv cf cl chptr) (banid : CStr) (type : BanType) :
    ChannelInv cf cl (Ircd.delId cf chptr banid type).chptr :=
  h.setList type _

/-! ### Members come, go and change -/

theorem banChecked_notMem_statusFlags (o h v d : Bool) : .banChecked ∉ statusFlags o h v d := by
  cases o <;> cases h <;> cases v <;> cases d <;> decide

theorem banSilenced_notMem_statusFlags (o h v d : Bool) : .banSilenced ∉ statusFlags o h v d := by
  cases o <;> cases h <;> cases v <;> cases d <;> decide

theorem ChannelInv.addUser {cf : Config} {cl : Clients} {chptr : Channel}
    (h : ChannelInv cf cl chptr) (who : Cid) (o hf v d : Bool) :
    ChannelInv cf cl (addUserToChannel cl chptr who (statusFlags o hf v d)) := by
  have hchecked := banChecked_notMem_statusFlags o hf v d
  have hsilenced := banSilenced_notMem_statusFlags o hf v d
  intro ms hms
  rcases List.mem_cons.mp hms with rfl | hms
  · exact ⟨⟨rfl, fun hc => absurd hc hchecked, fun hs => absurd hs hsilenced⟩,
      fun hc => absurd hc hchecked⟩
  · exact h ms hms

theorem ChannelInv.removeUser {cf : Config} {cl : Clients} {chptr : Channel}
    (h : ChannelInv cf cl chptr) (who : Cid) :
    ChannelInv cf cl (removeUserFromChannel chptr who) := by
  intro ms hms
  exact h ms (List.mem_filter.mp hms).1

theorem ChannelInv.setStatus {cf : Config} {cl : Clients} {chptr : Channel}
    (h : ChannelInv cf cl chptr) (who : Cid) (o hf v d : Bool) :
    ChannelInv cf cl (setStatus chptr who (statusFlags o hf v d)) := by
  have hchecked := banChecked_notMem_statusFlags o hf v d
  have hsilenced := banSilenced_notMem_statusFlags o hf v d
  intro ms hms
  obtain ⟨old, hold, rfl⟩ := List.mem_map.mp hms
  obtain ⟨hwf, hok⟩ := h old hold
  split
  · have h1 : .banChecked ∈ old.flags ∩ banFlags ∪ statusFlags o hf v d ↔
        .banChecked ∈ old.flags := by
      simp [hchecked, banFlags]
    have h2 : .banSilenced ∈ old.flags ∩ banFlags ∪ statusFlags o hf v d ↔
        .banSilenced ∈ old.flags := by
      simp [hsilenced, banFlags]
    refine ⟨⟨hwf.local_iff, fun hc => hwf.cached_local (h1.mp hc), fun hs => ?_⟩, fun hc => ?_⟩
    · exact h1.mpr (hwf.silenced_checked (h2.mp hs))
    · exact h2.trans (hok (h1.mp hc))
  · exact ⟨hwf, hok⟩

theorem ChannelInv.setCache {cf : Config} {cl : Clients} {chptr : Channel} {who : Cid}
    (h : ChannelInv cf cl chptr) (hlocal : (cl who).myConnect = true) {flags : Finset ChFlag}
    (hchecked : .banChecked ∈ flags)
    (hsilenced : .banSilenced ∈ flags ↔ isBanned cf chptr (cl who) = true) :
    ChannelInv cf cl (setMemberFlags chptr who flags) := by
  intro ms hms
  obtain ⟨old, hold, rfl⟩ := List.mem_map.mp hms
  obtain ⟨hwf, hok⟩ := h old hold
  have hban : isBanned cf (setMemberFlags chptr who flags) = isBanned cf chptr := rfl
  split
  · rename_i hwho
    refine ⟨⟨hwf.local_iff, fun _ => ?_, fun _ => ?_⟩, fun _ => ?_⟩
    · rw [hwf.local_iff, hwho, hlocal]
    · exact Finset.mem_union_right _ hchecked
    · rw [hban]
      simp only [Finset.mem_union, hsilenced, hwho, or_iff_right_iff_imp]
      intro hs
      rw [← hwho]
      exact (hok (hwf.silenced_checked hs)).mp hs
  · exact ⟨hwf, hok⟩

theorem ChannelInv.canSend {cf : Config} {cl : Clients} {chptr : Channel}
    (h : ChannelInv cf cl chptr) (who : Cid) :
    ChannelInv cf cl (Ircd.canSend cf cl chptr who).2 := by
  unfold Ircd.canSend
  simp only
  split
  · exact h
  split
  · exact h
  split
  · split <;> exact h
  split
  · exact h
  split
  · rename_i hmine
    have hlocal : (cl who).myConnect = true := by
      simp only [Client.myClient, Bool.and_eq_true] at hmine
      exact hmine.2.1
    split
    · exact h
    split
    · exact h
    split
    · rename_i hb
      exact h.setCache hlocal (by simp) (by simp [hb])
    · rename_i hb
      exact h.setCache hlocal (by simp) (by simp [hb])
  · exact h

/-! ### The server -/

theorem ChanState.Inv.onChannel {cf : Config} {s : ChanState} (h : s.Inv cf) (chname : CStr)
    {f : Channel → Channel}
    (hf : ∀ chptr, ChannelInv cf s.clients chptr → ChannelInv cf s.clients (f chptr)) :
    (s.onChannel chname f).Inv cf := by
  intro chptr hchptr
  obtain ⟨old, hold, rfl⟩ := List.mem_map.mp hchptr
  have hinv := h old hold
  split
  · exact hf old hinv
  · exact hinv

theorem ChanState.Inv.onClient {cf : Config} {s : ChanState} (h : s.Inv cf) (who : Cid)
    {f : Client → Client} (hlocal : (f (s.clients who)).myConnect = (s.clients who).myConnect)
    (hban : ∀ chptr ∈ s.channels, ∀ ms ∈ chptr.members, ms.client = who → .banChecked ∈ ms.flags →
      isBanned cf chptr (f (s.clients who)) = isBanned cf chptr (s.clients who)) :
    (s.onClient who f).Inv cf := by
  intro chptr hchptr ms hms
  obtain ⟨hwf, hok⟩ := h chptr hchptr ms hms
  by_cases hwho : ms.client = who
  · have hnew : (s.onClient who f).clients ms.client = f (s.clients who) := by
      simp [ChanState.onClient, hwho]
    refine ⟨⟨?_, hwf.cached_local, hwf.silenced_checked⟩, fun hc => ?_⟩
    · rw [hnew, hlocal, ← hwho]
      exact hwf.local_iff
    · rw [hnew, hban chptr hchptr ms hms hwho hc, ← hwho]
      exact hok hc
  · have hnew : (s.onClient who f).clients ms.client = s.clients ms.client := by
      simp [ChanState.onClient, hwho]
    refine ⟨⟨?_, hwf.cached_local, hwf.silenced_checked⟩, fun hc => ?_⟩
    · rw [hnew]
      exact hwf.local_iff
    · rw [hnew]
      exact hok hc

theorem ChanState.Inv.step {cf : Config} {s : ChanState} (h : s.Inv cf) (op : ChanOp)
    (hok : op.Harmless cf s) : (s.step cf op).Inv cf := by
  cases op with
  | join chname who o hf v d => exact h.onChannel _ fun chptr hc => hc.addUser who o hf v d
  | part chname who => exact h.onChannel _ fun chptr hc => hc.removeUser who
  | exit who =>
    intro chptr hchptr
    obtain ⟨old, hold, rfl⟩ := List.mem_map.mp hchptr
    exact (h old hold).removeUser who
  | create chptr =>
    intro c hc
    rcases List.mem_cons.mp hc with rfl | hc
    · intro ms hms
      simp at hms
    · exact h c hc
  | addId chname client banid type now =>
    exact h.onChannel _ fun chptr hc => hc.addId now _ banid type
  | delId chname banid type => exact h.onChannel _ fun chptr hc => hc.delId banid type
  | dropLists chname => exact h.onChannel _ fun chptr hc => hc.of_cleared rfl
  | status chname who o hf v d => exact h.onChannel _ fun chptr hc => hc.setStatus who o hf v d
  | changeLocalNick who nick now =>
    exact h.onClient who (myConnect_changeLocalNickFields cf now _ nick) hok
  | changeRemoteNick who nick tsinfo =>
    simp only [ChanState.step]
    split
    · exact h
    · rename_i hremote
      refine h.onClient who rfl fun chptr hchptr ms hms hwho hc => ?_
      -- no membership of a remote client is cached
      have hwf := (h chptr hchptr ms hms).1
      have hloc := hwf.local_iff
      rw [hwf.cached_local hc, hwho] at hloc
      exact absurd hloc.symm hremote
  | canSend chname who => exact h.onChannel _ fun chptr hc => hc.canSend who

/-! ### The answers of can_send -/

theorem findChannelLink_clearBanCache (cl : Clients) (who : Cid) (chptr : Channel) :
    findChannelLink cl who (clearBanCache chptr) =
      (findChannelLink cl who chptr).map Membership.clearBan := by
  have hcomp : (fun ms : Membership => ms.client == who) ∘ Membership.clearBan =
      fun ms => ms.client == who := by
    funext ms
    simp
  unfold findChannelLink
  split
  · simp only [clearBanCache, List.find?_map, hcomp]
  · rfl

theorem mem_members_of_findChannelLink {cl : Clients} {who : Cid} {chptr : Channel}
    {ms : Membership} (h : findChannelLink cl who chptr = some ms) :
    ms ∈ chptr.members ∧ ms.client = who := by
  unfold findChannelLink at h
  split at h
  · exact ⟨List.mem_of_find?_eq_some h, by simpa using List.find?_some h⟩
  · simp at h

theorem canSend_clearBanCache {cf : Config} {cl : Clients} {chptr : Channel}
    (h : ChannelInv cf cl chptr) (who : Cid) :
    (canSend cf cl chptr who).1 = (canSend cf cl (clearBanCache chptr) who).1 := by
  have hname : (clearBanCache chptr).chname = chptr.chname := rfl
  have hmode : (clearBanCache chptr).mode = chptr.mode := rfl
  have hmod : canSendModerated (clearBanCache chptr) = canSendModerated chptr := rfl
  have hban : isBanned cf (clearBanCache chptr) = isBanned cf chptr := rfl
  unfold canSend
  simp only [hname, hmode, hmod, hban, findChannelLink_clearBanCache]
  split
  · rfl
  split
  · rfl
  cases hms : findChannelLink cl who chptr with
  | none =>
    simp only [Option.map_none]
    split <;> rfl
  | some ms =>
    obtain ⟨hmem, hwho⟩ := mem_members_of_findChannelLink hms
    obtain ⟨hwf, hok⟩ := h ms hmem
    have hchecked : .banChecked ∉ ms.clearBan.flags := hwf.clearBan.2
    have hsilenced : .banSilenced ∉ ms.clearBan.flags := fun hs =>
      hchecked (hwf.clearBan.1.silenced_checked hs)
    have hopv : (.chanop ∈ ms.clearBan.flags ∨ .halfop ∈ ms.clearBan.flags ∨
        .voice ∈ ms.clearBan.flags) ↔
        (.chanop ∈ ms.flags ∨ .halfop ∈ ms.flags ∨ .voice ∈ ms.flags) := by
      rw [mem_clearBan_flags (by decide), mem_clearBan_flags (by decide),
        mem_clearBan_flags (by decide)]
    simp only [Option.map_some, hopv, hchecked, hsilenced, if_false]
    by_cases hop : .chanop ∈ ms.flags ∨ .halfop ∈ ms.flags ∨ .voice ∈ ms.flags
    · simp only [hop, if_true]
    · simp only [hop, if_false]
      rw [CacheOk, hwho] at hok
      by_cases hc : .banChecked ∈ ms.flags
      · -- cached: the flag is the result of `is_banned`
        by_cases hs : .banSilenced ∈ ms.flags
        · simp [hs, (hok hc).mp hs]
          split <;> rfl
        · have hb : isBanned cf chptr (cl who) = false := by
            simpa [hs] using hok hc
          simp [hs, hc, hb]
          split <;> rfl
      · have hs : .banSilenced ∉ ms.flags := fun hs => hc (hwf.silenced_checked hs)
        simp only [hs, hc, if_false]
        split
        · split <;> rfl
        · rfl

/-- The ban cache of every membership is coherent, and `can_send` answers as it
does from the lists. -/
def ChanState.Coherent (cf : Config) (s : ChanState) : Prop :=
  ∀ chptr ∈ s.channels, (∀ ms ∈ chptr.members, CacheOk cf s.clients chptr ms) ∧
    ∀ who, (canSend cf s.clients chptr who).1 =
      (canSend cf s.clients (clearBanCache chptr) who).1

/-- In every run in which no nick change of a local client alters `is_banned` for
a cached membership, the cache is coherent. -/
theorem ban_cache_coherent (cf : Config) (cl : Clients) (ops : List ChanOp)
    (hok : Run.Guarded (ChanState.step cf) (fun s op => op.Harmless cf s) ⟨cl, []⟩ ops) :
    (Run.exec (ChanState.step cf) ⟨cl, []⟩ ops).Coherent cf := by
  have h0 : ChanState.Inv cf ⟨cl, []⟩ := fun chptr hchptr => by simp at hchptr
  have hstep : ∀ s op, ChanState.Inv cf s → op.Harmless cf s → (s.step cf op).Inv cf :=
    fun s op hs => hs.step op
  have hinv := Run.inv_exec hstep h0 hok
  intro chptr hchptr
  exact ⟨fun ms hms => (hinv chptr hchptr ms hms).2, canSend_clearBanCache (hinv chptr hchptr)⟩

/-- Bans silence members, and nicks change freely. -/
def quietConfig : Config :=
  { nicklen := 10
    channel := { (default : ConfigChannel) with quietOnBan := true, maxBans := 25 }
    file := default
    hashFindResv := fun _ => false }

/-- A server with one local client, `good!user@host.example.com`. -/
def oneClient : Clients := fun _ =>
  { (default : Client) with
    status := .client, name := "good".toList, username := "user".toList,
    host := "host.example.com".toList, sockhost := "192.0.2.1".toList,
    localClient := some ⟨0, 0⟩ }

/-- The client joins a channel that bans another nick, and speaks. -/
def joinAndSpeak : List ChanOp :=
  [.create { (default : Channel) with chname := "#c".toList },
    .join "#c".toList 0 false false false false,
    .addId "#c".toList 1 "bad!*@*".toList .ban 0, .canSend "#c".toList 0]

theorem ban_cache_coherent_joinAndSpeak :
    (Run.exec (ChanState.step quietConfig) ⟨oneClient, []⟩ joinAndSpeak).Coherent quietConfig :=
  ban_cache_coherent quietConfig oneClient joinAndSpeak ⟨trivial, trivial, trivial, trivial,
    trivial⟩

/-- After a change to the banned nick the cache still lets the client speak. -/
theorem ban_cache_stale_after_nick_change :
    let s := Run.exec (ChanState.step quietConfig) ⟨oneClient, []⟩
      (joinAndSpeak ++ [.changeLocalNick 0 "bad".toList 1])
    ∃ chptr ∈ s.channels, ∃ ms ∈ chptr.members, ¬ CacheOk quietConfig s.clients chptr ms ∧
      (canSend quietConfig s.clients chptr 0).1 ≠
        (canSend quietConfig s.clients (clearBanCache chptr) 0).1 := by
  refine ⟨_, List.mem_singleton.mpr rfl, _, List.mem_singleton.mpr rfl, ?_, ?_⟩
  · unfold CacheOk
    decide
  · decide

end Ircd
