import Ircd.MembershipRuns

/-!
The channels of a client by their names, in every run.

`Owned` says that the channels of a client are its memberships; `Tabled` adds that a membership
is on a channel that is there, and that a channel is found under its name. Unlike `Linked` they
hold in every state, whatever the commands have done (`tabled_exec`). `channelsOf` is the set of the
names of the channels that a client is on.
-/

namespace Ircd

open Function

namespace MemberState

variable {s s' : MemberState} {env : MemberEnv} {source who : Cid} {ch d m n : Nat} {name : CStr}
  {c c' : ChannelData} {x : Member}

/-! ### The channels of a client -/

/-- Every membership stands once among the channels of its client, and in no other list, and its
number has been given out. -/
structure Owned (s : MemberState) : Prop where
  channel : Buckets.Files s.channel fun m => (s.member m).map Member.client
  below : ∀ {m x}, s.member m = some x → m < s.nextMember

theorem Owned.congr (h : s.Owned) (hchannel : s'.channel = s.channel)
    (hmember : ∀ m, (s'.member m).map Member.client = (s.member m).map Member.client)
    (hnext : s'.nextMember = s.nextMember) : s'.Owned where
  channel := by
    rw [hchannel]
    exact h.channel.congr hmember
  below {m x} hx := by
    rw [hnext]
    cases hm : s.member m with
    | none =>
      have := hmember m
      rw [hx, hm] at this
      cases this
    | some y => exact h.below hm

theorem Owned.fresh (h : s.Owned) : s.member s.nextMember = none := by
  cases hm : s.member s.nextMember with
  | none => rfl
  | some x => exact absurd (h.below hm) (Nat.lt_irrefl _)

theorem Owned.lt_of_mem (h : s.Owned) {m : Nat} (hm : m ∈ s.channel source) : m < s.nextMember := by
  obtain ⟨x, hx, -⟩ := Option.map_eq_some_iff.mp (h.channel.mem.mp hm)
  exact h.below hx

theorem Owned.addUserToChannel (h : s.Owned) (ch : Nat) (who : Cid) (flags : Finset ChFlag) :
    (s.addUserToChannel ch who flags).Owned where
  channel := by
    refine (h.channel.add (k := who) (c := s.nextMember) ?_).congr
      (apply_update_member (Option.map Member.client) s.nextMember _)
    rw [h.fresh]
    rfl
  below {m x} hx := by
    change update s.member s.nextMember _ m = some x at hx
    change m < s.nextMember + 1
    by_cases hm : m = s.nextMember
    · omega
    · rw [update_of_ne hm] at hx
      exact Nat.lt_succ_of_lt (h.below hx)

theorem destroyChannel_members (s : MemberState) (ch : Nat) :
    (s.destroyChannel ch).channel = s.channel ∧ (s.destroyChannel ch).member = s.member ∧
      (s.destroyChannel ch).nextMember = s.nextMember := by
  unfold destroyChannel
  split
  · exact ⟨rfl, rfl, rfl⟩
  · exact ⟨rfl, rfl, rfl⟩

theorem Owned.destroyChannel (h : s.Owned) (ch : Nat) : (s.destroyChannel ch).Owned := by
  obtain ⟨hchannel, hmember, hnext⟩ := destroyChannel_members s ch
  exact h.congr hchannel (fun m => by rw [hmember]) hnext

theorem Owned.setChannel (h : s.Owned) (ch : Nat) (c : ChannelData) : (s.setChannel ch c).Owned :=
  h.congr rfl (fun _ => rfl) rfl

/-! ### The tables -/

/-- Every membership stands once in the list of members of its channel, which is there, and a
channel is found under its name and no other is. -/
structure Tabled (s : MemberState) : Prop extends s.Owned where
  members : Buckets.Files s.members fun m => (s.member m).map Member.chptr
  known : ∀ {m x}, s.member m = some x → s.chans x.chptr ≠ none
  table : Buckets.Files s.channelTable fun ch =>
    (s.chans ch).map fun c => strhash s.ircdRandomKey c.chname
  names : ∀ {ch ch' c c'}, s.chans ch = some c → s.chans ch' = some c' →
    ircEq c.chname c'.chname = true → ch = ch'
  freshChan : ∀ {ch}, s.nextChan ≤ ch → s.chans ch = none

theorem Tabled.mem_members (h : s.Tabled) :
    m ∈ s.members ch ↔ ∃ x, s.member m = some x ∧ x.chptr = ch := by
  rw [h.members.mem, Option.map_eq_some_iff]

theorem Tabled.mem_channel (h : s.Tabled) :
    m ∈ s.channel who ↔ ∃ x, s.member m = some x ∧ x.client = who := by
  rw [h.channel.mem, Option.map_eq_some_iff]

theorem Tabled.indexed (h : s.Tabled) : s.Indexed := ⟨h.table, h.names, h.freshChan⟩

/-! ### What keeps the tables -/

theorem Tabled.congr (h : s.Tabled) (hchannel : s'.channel = s.channel)
    (hmembers : s'.members = s.members)
    (hmember : ∀ m, (s'.member m).map (fun x => (x.client, x.chptr)) =
      (s.member m).map fun x => (x.client, x.chptr))
    (hnext : s'.nextMember = s.nextMember) (hchans : s'.chans = s.chans)
    (htable : s'.channelTable = s.channelTable) (hkey : s'.ircdRandomKey = s.ircdRandomKey)
    (hfresh : s'.nextChan = s.nextChan) : s'.Tabled := by
  have hpart : ∀ {β : Type} (f : Cid × Nat → β) (m : Nat),
      (s'.member m).map (fun x => f (x.client, x.chptr)) =
        (s.member m).map fun x => f (x.client, x.chptr) := by
    intro β f m
    have hmap := congrArg (Option.map f) (hmember m)
    rwa [Option.map_map, Option.map_map] at hmap
  refine ⟨h.toOwned.congr hchannel (hpart Prod.fst) hnext, ?_, fun {m x} hx => ?_, ?_, ?_, ?_⟩
  · rw [hmembers]
    exact h.members.congr (hpart Prod.snd)
  · have hmap := hpart Prod.snd m
    rw [hx, Option.map_some, eq_comm, Option.map_eq_some_iff] at hmap
    obtain ⟨y, hy, heq⟩ := hmap
    have heq : y.chptr = x.chptr := heq
    rw [hchans, ← heq]
    exact h.known hy
  · rw [hchans, htable, hkey]
    exact h.table
  · rw [hchans]
    exact h.names
  · rw [hchans, hfresh]
    exact h.freshChan

theorem Tabled.addUserToChannel (h : s.Tabled) (hch : s.chans ch ≠ none) (who : Cid)
    (flags : Finset ChFlag) : (s.addUserToChannel ch who flags).Tabled := by
  refine ⟨h.toOwned.addUserToChannel ch who flags, ?_, fun {m x} hx => ?_, h.table, h.names,
    h.freshChan⟩
  · refine (h.members.add (k := ch) (c := s.nextMember) ?_).congr
      (apply_update_member (Option.map Member.chptr) s.nextMember _)
    rw [h.fresh]
    rfl
  · change update s.member s.nextMember _ m = some x at hx
    change s.chans x.chptr ≠ none
    by_cases hm : m = s.nextMember
    · rw [hm, update_self] at hx
      cases hx
      exact hch
    · rw [update_of_ne hm] at hx
      exact h.known hx

theorem of_update_none {member : Nat → Option Member} (hx : update member m none n = some
    x) :
    n ≠ m ∧ member n = some x := by
  by_cases hn : n = m
  · rw [hn, update_self] at hx
    cases hx
  · rw [update_of_ne hn] at hx
    exact ⟨hn, hx⟩

theorem Owned.unlinkMember (h : s.Owned) (hm : s.member m = some x) : (s.unlinkMember m x).Owned
    where
  channel := by
    refine (h.channel.del (k := x.client) (c := m) fun k hk => ?_).congr
      (apply_update_member (Option.map Member.client) m none)
    rw [hm] at hk
    exact (Option.some.inj hk).symm
  below hy := h.below (of_update_none hy).2

theorem Tabled.unlinkMember (h : s.Tabled) (hm : s.member m = some x) :
    (s.unlinkMember m x).Tabled := by
  refine ⟨h.toOwned.unlinkMember hm, ?_, fun hy => h.known (of_update_none hy).2, h.table, h.names,
    h.freshChan⟩
  refine (h.members.del (k := x.chptr) (c := m) fun k hk => ?_).congr
    (apply_update_member (Option.map Member.chptr) m none)
  rw [hm] at hk
  exact (Option.some.inj hk).symm

theorem Tabled.destroyChannel (h : s.Tabled) (hnil : s.members ch = []) :
    (s.destroyChannel ch).Tabled := by
  have hown := h.toOwned.destroyChannel ch
  have hindexed := h.indexed.destroyChannel ch
  unfold MemberState.destroyChannel at hown hindexed ⊢
  cases hc : s.chans ch with
  | none => exact h
  | some c =>
    rw [hc] at hown hindexed
    refine ⟨hown, h.members, fun {m x} hx => ?_, hindexed.table, hindexed.names,
      hindexed.freshChan⟩
    have hne : x.chptr ≠ ch := by
      rintro rfl
      have hmem := h.mem_members.mpr ⟨x, hx, rfl⟩
      rw [hnil] at hmem
      exact List.not_mem_nil hmem
    change update s.chans ch none x.chptr ≠ none
    rw [update_of_ne hne]
    exact h.known hx

theorem Tabled.removeUserFromChannel (h : s.Tabled) (m : Nat) :
    (s.removeUserFromChannel m).Tabled := by
  unfold MemberState.removeUserFromChannel
  cases hm : s.member m with
  | none => exact h
  | some x =>
    have hout := h.unlinkMember hm
    simp only
    split
    · rename_i hnil
      exact hout.destroyChannel hnil
    · exact hout

theorem Tabled.createChannel (h : s.Tabled) (now : Int) (hnone : s.hashFindChannel name = none) :
    (s.createChannel now name).Tabled := by
  have hindexed := h.indexed.createChannel now hnone
  refine ⟨h.toOwned.congr rfl (fun _ => rfl) rfl, h.members, fun {m x} hx => ?_, hindexed.table,
    hindexed.names, hindexed.freshChan⟩
  have hne : x.chptr ≠ s.nextChan := fun heq =>
    h.known hx (heq ▸ h.freshChan (Nat.le_refl s.nextChan))
  change update s.chans s.nextChan _ x.chptr ≠ none
  rw [update_of_ne hne]
  exact h.known hx

theorem Tabled.setChannel (h : s.Tabled) (hc : s.chans ch = some c) (hname : c'.chname = c.chname) :
    (s.setChannel ch c').Tabled := by
  have hindexed := h.indexed.setChannel hc hname
  refine ⟨h.toOwned.setChannel ch c', h.members, fun hx => ?_, hindexed.table, hindexed.names,
    hindexed.freshChan⟩
  rw [ne_eq, setChannel_eq_none_iff hc]
  exact h.known hx

theorem Tabled.removeOurModes (h : s.Tabled) (ch : Nat) : (s.removeOurModes ch).Tabled := by
  refine h.congr rfl rfl (fun m => ?_) rfl rfl rfl rfl rfl
  rw [MemberState.removeOurModes, Option.map_map]
  refine congrArg (Option.map · _) (funext fun x => ?_)
  simp only [Function.comp]
  split
  · rfl
  · rfl

/-! ### The commands -/

theorem Tabled.foldl {α : Type} {f : MemberState → α → MemberState}
    (hf : ∀ s a, s.Tabled → (f s a).Tabled) {l : List α} (h : s.Tabled) : (l.foldl f s).Tabled := by
  induction l generalizing s with
  | nil => exact h
  | cons a l ih => exact ih (hf s a h)

theorem Tabled.targets (h : s.Tabled) (targets : List Target) (join0 : Option Nat) :
    Tabled { s with targets := targets, join0 := join0 } :=
  h.congr rfl rfl (fun _ => rfl) rfl rfl rfl rfl rfl

theorem Tabled.getOrCreateChannel (h : s.Tabled) {now : Int} {isnew : Bool}
    (hmade : s.getOrCreateChannel now name = some (s', ch, isnew)) : s'.Tabled := by
  unfold MemberState.getOrCreateChannel at hmade
  split at hmade
  · cases hmade
  · split at hmade
    · cases hmade
      exact h
    · rename_i hnone
      cases hmade
      exact h.createChannel now hnone

theorem Tabled.addTarget (h : s.Tabled) (env : MemberEnv) (source : Cid) (key : Option CStr)
    (e : JoinEntry) : (s.addTarget env source key e).Tabled := by
  cases e with
  | zero => exact h.targets _ _
  | chan name =>
    obtain ⟨s', targets, heq, rfl | ⟨hnone, rfl⟩, -⟩ := s.addTarget_chan env source key name
    · rw [heq]
      exact h.targets _ _
    · rw [heq]
      exact (h.createChannel env.now hnone).targets _ _

theorem Tabled.buildTargetList (h : s.Tabled) (env : MemberEnv) (source : Cid) (channels : CStr)
    (keys : Option CStr) : (s.buildTargetList env source channels keys).Tabled :=
  Tabled.foldl (fun _ e h => h.addTarget env source e.2 e.1) (h.targets [] none)

theorem Tabled.doJoin0 (h : s.Tabled) (source : Cid) : (s.doJoin0 source).Tabled := by
  refine Tabled.foldl (fun s m h => ?_) h
  unfold leaveIfBefore0
  split
  · exact h
  · split
    · exact h.removeUserFromChannel m
    · exact h

theorem Tabled.joinTarget (h : s.Tabled) (env : MemberEnv) (source : Cid) (t : Target) :
    (s.joinTarget env source t).Tabled := by
  unfold MemberState.joinTarget
  split
  · exact h
  · rename_i ch hch
    split
    · exact h
    · rename_i c hc
      have hsome : s.chans ch ≠ none := by
        rw [hc]
        exact Option.some_ne_none c
      split
      · exact h
      · have hadd := h.addUserToChannel hsome source t.flags
        simp only
        split
        · exact hadd.setChannel (c := c) hc rfl
        · exact hadd

theorem Tabled.mJoin (h : s.Tabled) (env : MemberEnv) (source : Cid) (parv : List CStr) :
    (s.mJoin env source parv).Tabled := by
  unfold MemberState.mJoin
  split
  · exact h
  · rename_i channels keys
    split
    · exact h
    · have hbuilt := h.buildTargetList env source channels keys.head?
      simp only
      split
      · exact Tabled.foldl (fun _ t h => h.joinTarget env source t) (hbuilt.doJoin0 source)
      · exact Tabled.foldl (fun _ t h => h.joinTarget env source t) hbuilt

theorem Tabled.applyStamps (h : s.Tabled) (hc : s.chans ch = some c) (rule : TsRule) (mode : Mode) :
    (s.applyStamps ch c rule mode).Tabled := by
  have hset : (s.setChannel ch { c with
      channelts := rule.channelts, mode := keptMode rule mode c.mode }).Tabled :=
        h.setChannel hc rfl
  unfold MemberState.applyStamps
  simp only
  split
  · exact hset
  · exact hset.removeOurModes ch

theorem chans_applyStamps (s : MemberState) (ch : Nat) (c : ChannelData) (rule : TsRule)
    (mode : Mode) :
    (s.applyStamps ch c rule mode).chans ch ≠ none := by
  have hset : ∀ c', (s.setChannel ch c').chans ch ≠ none := by
    intro c'
    change update s.chans ch (some c') ch ≠ none
    rw [update_self]
    exact Option.some_ne_none c'
  unfold MemberState.applyStamps
  simp only
  split
  · exact hset _
  · exact hset _

theorem Tabled.msJoin (h : s.Tabled) (env : MemberEnv) (source : Cid) (parv : List CStr) :
    (s.msJoin env source parv).Tabled := by
  unfold MemberState.msJoin
  split
  · exact h.doJoin0 source
  · split
    · exact h
    · split
      · exact h
      · split
        · exact h
        · rename_i hmade
          have hmade' := h.getOrCreateChannel hmade
          split
          · exact hmade'
          · rename_i c hc
            simp only
            split
            · exact hmade'.applyStamps hc _ _
            · exact (hmade'.applyStamps hc _ _).addUserToChannel (chans_applyStamps _ _ _ _ _) _ _
  · exact h

theorem Tabled.sjoinNick (h : s.Tabled) (hch : s.chans ch ≠ none) (env : MemberEnv) (client : Cid)
    (keep : Bool) (word : CStr) :
    (s.sjoinNick env client ch keep word).Tabled ∧
      (s.sjoinNick env client ch keep word).chans ch ≠ none := by
  unfold MemberState.sjoinNick
  split
  · exact ⟨h, hch⟩
  · split
    · exact ⟨h, hch⟩
    · exact ⟨h.addUserToChannel hch _ _, hch⟩

theorem Tabled.sjoinNicks (h : s.Tabled) (hch : s.chans ch ≠ none) (env : MemberEnv) (client : Cid)
    (keep : Bool) (words : List CStr) :
    (words.foldl (fun s word => s.sjoinNick env client ch keep word) s).Tabled := by
  induction words generalizing s with
  | nil => exact h
  | cons word words ih =>
    obtain ⟨h', hch'⟩ := h.sjoinNick hch env client keep word
    exact ih h' hch'

theorem Tabled.clearBanLists (h : s.Tabled) (ch : Nat) : (s.clearBanLists ch).Tabled := by
  unfold MemberState.clearBanLists
  split
  · exact h
  · rename_i c hc
    exact h.setChannel hc rfl

theorem Tabled.msSjoin (h : s.Tabled) (env : MemberEnv) (client source : Cid) (parv : List CStr) :
    (s.msSjoin env client source parv).Tabled := by
  unfold MemberState.msSjoin
  split
  · exact h
  · split
    · exact h
    · rename_i hmade
      have hmade' := h.getOrCreateChannel hmade
      split
      · exact hmade'
      · rename_i c hc
        simp only
        split
        · rename_i hnil
          refine Tabled.destroyChannel ?_ hnil.1
          exact (hmade'.applyStamps hc _ _).sjoinNicks (chans_applyStamps _ _ _ _ _) _ _ _ _
        · split
          · refine Tabled.clearBanLists ?_ _
            exact (hmade'.applyStamps hc _ _).sjoinNicks (chans_applyStamps _ _ _ _ _) _ _ _ _
          · exact (hmade'.applyStamps hc _ _).sjoinNicks (chans_applyStamps _ _ _ _ _) _ _ _ _

theorem Tabled.mPart (h : s.Tabled) (source : Cid) (parv : List CStr) :
    (s.mPart source parv).Tabled := by
  unfold MemberState.mPart
  split
  · exact h
  · split
    · exact h
    · refine Tabled.foldl (fun s name h => ?_) h
      unfold MemberState.partOneClient
      split
      · exact h
      · split
        · exact h
        · exact h.removeUserFromChannel _

theorem Tabled.mKick (h : s.Tabled) (env : MemberEnv) (client source : Cid) (parv : List CStr) :
    (s.mKick env client source parv).Tabled := by
  unfold MemberState.mKick
  split
  · repeat' split
    all_goals first | exact h | exact h.removeUserFromChannel _
  · exact h

theorem Tabled.exitOneClient (h : s.Tabled) (who : Cid) : (s.exitOneClient who).Tabled := by
  unfold MemberState.exitOneClient
  simp only
  split
  · exact (Tabled.foldl (fun _ m h => h.removeUserFromChannel m) h).congr rfl rfl (fun _ => rfl) rfl
      rfl rfl
      rfl rfl
  · exact h.congr rfl rfl (fun _ => rfl) rfl rfl rfl rfl rfl

theorem Tabled.step (h : s.Tabled) (op : MemberOp) : (s.step op).Tabled := by
  cases op with
  | introduce record => exact h.congr rfl rfl (fun _ => rfl) rfl rfl rfl rfl rfl
  | change who record =>
    simp only [MemberState.step]
    split
    · exact h.congr rfl rfl (fun _ => rfl) rfl rfl rfl rfl rfl
    · exact h
  | data ch c =>
    simp only [MemberState.step]
    split
    · exact h
    · rename_i old hold
      exact h.setChannel hold rfl
  | flags m fl =>
    simp only [MemberState.step]
    cases hm : s.member m with
    | none => exact h
    | some x =>
      refine h.congr rfl rfl (fun n => ?_) rfl rfl rfl rfl rfl
      by_cases hn : n = m
      · rw [hn, hm]
        change (update s.member m _ m).map _ = _
        rw [update_self]
        rfl
      · change (update s.member m _ n).map _ = _
        rw [update_of_ne hn]
  | join env source parv =>
    simp only [MemberState.step]
    split
    · exact h.mJoin env source parv
    · exact h
  | remoteJoin env source parv =>
    simp only [MemberState.step]
    split
    · exact h.msJoin env source parv
    · exact h
  | sjoin env client source parv =>
    simp only [MemberState.step]
    split
    · exact h.msSjoin env client source parv
    · exact h
  | part source parv =>
    simp only [MemberState.step]
    split
    · exact h.mPart source parv
    · exact h
  | kick env client source parv =>
    simp only [MemberState.step]
    split
    · exact h.mKick env client source parv
    · exact h
  | exit who =>
    simp only [MemberState.step]
    split
    · exact h.exitOneClient who
    · exact h

theorem tabled_exec (cf : Config) (key : Nat) (ops : List MemberOp) :
    (Run.exec MemberState.step (start cf key) ops).Tabled := by
  have hstart : (start cf key).Tabled := by
    refine ⟨⟨Buckets.files_empty, fun hx => ?_⟩, Buckets.files_empty, fun hx => ?_,
      Buckets.files_empty,
      fun hc => ?_, fun _ => rfl⟩
    · cases hx
    · cases hx
    · cases hc
  have hstep : ∀ (s : MemberState) (op : MemberOp), s.Tabled → True → (s.step op).Tabled :=
    fun s op h _ => h.step op
  exact Run.inv_exec hstep hstart (Run.guarded_true _ _)

/-- Whatever the commands have done: the lists of clients and channels hold the same memberships,
each once, their channels are there, and a channel is found under its name in any case, and only
there. -/
theorem lists_agree (cf : Config) (key : Nat) (ops : List MemberOp) :
    let s := Run.exec MemberState.step (start cf key) ops
    (∀ m x, s.member m = some x → (s.channel x.client).count m = 1 ∧
      (s.members x.chptr).count m = 1 ∧ s.chans x.chptr ≠ none) ∧
    (∀ m who, m ∈ s.channel who → ∃ x, s.member m = some x ∧ x.client = who) ∧
    (∀ m ch, m ∈ s.members ch → ∃ x, s.member m = some x ∧ x.chptr = ch) ∧
    ∀ name ch, s.hashFindChannel name = some ch ↔
      ∃ c, s.chans ch = some c ∧ ircEq name c.chname = true := by
  intro s
  have h : s.Tabled := tabled_exec cf key ops
  refine ⟨fun m x hx => ⟨?_, ?_, h.known hx⟩, fun m who hm => h.mem_channel.mp hm,
    fun m ch hm => h.mem_members.mp hm, fun name ch => h.indexed.hashFindChannel_eq_some⟩
  · exact List.count_eq_one_of_mem (h.channel.nodup _) (h.mem_channel.mpr ⟨x, hx, rfl⟩)
  · exact List.count_eq_one_of_mem (h.members.nodup _) (h.mem_members.mpr ⟨x, hx, rfl⟩)

/-! ### The names of a client's channels -/

def foldName (name : CStr) : CStr := name.map toUpper

theorem ircEq_iff_foldName {other : CStr} : ircEq name other = true ↔
    foldName name = foldName other :=
  ircEq_iff

def channelName (s : MemberState) (ch : Nat) : Option CStr := (s.chans ch).map fun c =>
    foldName c.chname

/-- The names of the channels that a client is on. -/
def channelsOf (s : MemberState) (source : Cid) : Finset CStr :=
  ((s.channel source).filterMap fun m => (s.member m).bind fun x => s.channelName x.chptr).toFinset

def IsOn (s : MemberState) (source : Cid) (ch : Nat) : Prop :=
  ∃ m x, s.member m = some x ∧ x.client = source ∧ x.chptr = ch

theorem channelName_eq_some {a : CStr} :
    s.channelName ch = some a ↔ ∃ c, s.chans ch = some c ∧ foldName c.chname = a :=
  Option.map_eq_some_iff

theorem Tabled.hashFindChannel_iff (h : s.Tabled) :
    s.hashFindChannel name = some ch ↔ s.channelName ch = some (foldName name) := by
  rw [h.indexed.hashFindChannel_eq_some, channelName_eq_some]
  refine exists_congr fun c => and_congr_right fun _ => ?_
  rw [ircEq_iff_foldName, eq_comm]

theorem Tabled.channelName_inj (h : s.Tabled) {a : CStr} (hch : s.channelName ch = some a)
    (hd : s.channelName d = some a) : ch = d := by
  obtain ⟨c, hc, rfl⟩ := channelName_eq_some.mp hch
  obtain ⟨c', hc', heq⟩ := channelName_eq_some.mp hd
  exact h.names hc hc' (ircEq_iff_foldName.mpr heq.symm)

theorem Tabled.mem_channelsOf (h : s.Tabled) {a : CStr} :
    a ∈ s.channelsOf source ↔ ∃ ch, s.IsOn source ch ∧ s.channelName ch = some a := by
  rw [channelsOf, List.mem_toFinset, List.mem_filterMap]
  constructor
  · rintro ⟨m, hm, hname⟩
    obtain ⟨x, hx, hclient⟩ := h.mem_channel.mp hm
    rw [hx, Option.bind_some] at hname
    exact ⟨x.chptr, ⟨m, x, hx, hclient, rfl⟩, hname⟩
  · rintro ⟨ch, ⟨m, x, hx, hclient, rfl⟩, hname⟩
    exact ⟨m, h.mem_channel.mpr ⟨x, hx, hclient⟩, by rwa [hx, Option.bind_some]⟩

theorem Tabled.findChannelLink_isSome (h : s.Tabled) (hclient : (s.clients source).isClient = true)
    :
    (s.findChannelLink source ch).isSome = true ↔ s.IsOn source ch := by
  rw [findChannelLink, if_pos hclient, List.find?_isSome]
  constructor
  · rintro ⟨m, hm, hch⟩
    obtain ⟨x, hx, hwho⟩ := h.mem_channel.mp hm
    rw [hx, Option.any_some, beq_iff_eq] at hch
    exact ⟨m, x, hx, hwho, hch⟩
  · rintro ⟨m, x, hx, hwho, rfl⟩
    exact ⟨m, h.mem_channel.mpr ⟨x, hx, hwho⟩, by rw [hx, Option.any_some, beq_self_eq_true]⟩

end MemberState

end Ircd
