import Ircd.MembershipJoin

/-!
Runs over clients and channels.

- `membership_consistent`: the memberships stay consistent in the runs whose steps
  all meet `MemberState.Keeps`.
- `membership_orphan`: a JOIN that makes a channel and goes on to 0 leaves the
  channel without members.
-/

namespace Ircd

open Function

namespace MemberState

variable {s : MemberState} {E : Nat → ChannelData → Prop} {record : Client} {who : Cid}

/-! ### Clients -/

theorem Sound.setClients (h : s.Sound E) (clients : Clients)
    (hsame : ∀ {m x}, s.member m = some x →
      (clients x.client).myConnect = (s.clients x.client).myConnect ∧
        ((clients x.client).isClient = true ∨ (clients x.client).isServer = true)) :
    Sound { s with clients := clients } E := by
  refine ⟨⟨h.members, h.channel, h.locmembers.congr fun m => ?_, h.once, h.ends, h.table,
    h.globalNodup, h.global⟩, fun hx => (hsame hx).2, h.names, h.freshMember, h.freshChan,
    h.freshClient, h.pending⟩
  cases hm : s.member m with
  | none => simp only [localPlace, hm, Option.bind_none]
  | some x => simp only [localPlace, hm, Option.bind_some, (hsame hm).1]

theorem Sound.introduce (h : s.Sound E) (record : Client) : (s.step (.introduce record)).Sound
    E := by
  have hne : ∀ {m x}, s.member m = some x → x.client ≠ s.nextClient := by
    rintro m x hx heq
    have halive := (h.ends hx).1
    rw [heq, h.freshClient (Nat.le_refl _)] at halive
    cases halive
  have hset := h.setClients (update s.clients s.nextClient record) fun {m x} hx => by
    rw [update_of_ne (hne hx)]
    exact ⟨rfl, h.registered hx⟩
  refine ⟨⟨hset.members, hset.channel, hset.locmembers, hset.once, fun {m x} hx =>
    ⟨?_, (h.ends hx).2⟩,
    hset.table, hset.globalNodup, hset.global⟩, hset.registered, hset.names, hset.freshMember,
    hset.freshChan, fun {c} hc => ?_, hset.pending⟩
  · change update s.alive s.nextClient true x.client = true
    rw [update_of_ne (hne hx)]
    exact (h.ends hx).1
  · have hc : s.nextClient + 1 ≤ c := hc
    change update s.alive s.nextClient true c = false
    rw [update_of_ne (Nat.ne_of_gt hc)]
    exact h.freshClient (Nat.le_of_succ_le hc)

theorem Sound.change (h : s.Sound E) (hfollows : record.Follows (s.clients who)) :
    Sound { s with clients := update s.clients who record } E := by
  refine h.setClients _ fun {m x} hx => ?_
  by_cases heq : x.client = who
  · rw [heq, update_self]
    obtain ⟨hconnect, hclient, hserver⟩ := hfollows
    refine ⟨hconnect, ?_⟩
    rcases h.registered hx with hreg | hreg
    · exact .inl (hclient (heq ▸ hreg))
    · exact .inr (hserver (heq ▸ hreg))
  · rw [update_of_ne heq]
    exact ⟨rfl, h.registered hx⟩

/-! ### Runs -/

theorem sound_start (cf : Config) (key : Nat) : (start cf key).Sound fun _ _ => False where
  members := Buckets.files_empty
  channel := Buckets.files_empty
  locmembers := Buckets.files_empty
  once hx := nomatch hx
  ends hx := nomatch hx
  table := Buckets.files_empty
  globalNodup := List.nodup_nil
  global := ⟨fun hmem => absurd hmem List.not_mem_nil, fun hne => absurd rfl hne⟩
  registered hx := nomatch hx
  names hc := nomatch hc
  freshMember _ := rfl
  freshChan _ := rfl
  freshClient _ := rfl
  pending hc := nomatch hc

theorem Sound.step (h : s.Sound fun _ _ => False) (op : MemberOp) (hkeeps : s.Keeps op) :
    (s.step op).Sound fun _ _ => False := by
  cases op with
  | introduce record => exact h.introduce record
  | change who record =>
    simp only [MemberState.step]
    split
    · rename_i hok
      exact h.change hok.2
    · exact h
  | data ch c =>
    simp only [MemberState.step]
    split
    · exact h
    · rename_i old hold
      exact h.setChannel hold rfl (h.pending hold)
  | flags m fl =>
    simp only [MemberState.step]
    split
    · exact h
    · rename_i x hx
      refine h.reflag fun n => ?_
      by_cases heq : n = m
      · rw [heq, update_self, hx]
        rfl
      · rw [update_of_ne heq]
  | join env source parv =>
    simp only [MemberState.step]
    split
    · rename_i hok
      have hclient := hok.2
      rw [Client.myClient, Bool.and_eq_true] at hclient
      exact h.mJoin env hok.1 hclient.2 hkeeps
    · exact h
  | remoteJoin env source parv =>
    simp only [MemberState.step]
    split
    · rename_i hok
      exact h.msJoin env hok.1 hok.2 hkeeps
    · exact h
  | sjoin env client source parv =>
    simp only [MemberState.step]
    split
    · exact h.msSjoin env client source parv
    · exact h
  | part source parv =>
    simp only [MemberState.step]
    split
    · exact h.mPart source parv
    · exact h
  | kick env client source parv =>
    simp only [MemberState.step]
    split
    · exact h.mKick env client source parv
    · exact h
  | exit who =>
    simp only [MemberState.step]
    split
    · exact h.exitOneClient hkeeps
    · exact h

/-- In a run whose steps all meet what is asked of them, the memberships are
consistent in every state. -/
theorem membership_consistent (cf : Config) (key : Nat) (ops : List MemberOp)
    (hkeeps : Run.Guarded step Keeps (start cf key) ops) :
    (Run.exec step (start cf key) ops).Consistent := by
  have hstep : ∀ (s : MemberState) (op : MemberOp), (s.Sound fun _ _ => False) → s.Keeps op →
      (s.step op).Sound fun _ _ => False := fun s op h hk => h.step op hk
  exact (Run.inv_exec hstep (sound_start cf key) hkeeps).consistent

def localUser : Client := { (default : Client) with
  status := .client, name := "ann".toList, localClient := some ⟨0, 0⟩ }

/-- Nothing is found, no split, and one channel for each client. -/
def quietEnv : MemberEnv where
  now := 1000000000
  hashFindId _ := none
  findClient _ := none
  findServer _ := none
  getHistory _ := none
  invited _ := false
  splitmode := false
  noCreateOnSplit := false
  noJoinOnSplit := false
  disableLocalChannels := false
  maxChansPerUser := 1
  lazyUplink := false

def joinAndExit : List MemberOp :=
  [.introduce localUser, .join quietEnv 0 ["#new".toList], .exit 0]

theorem membership_joinAndExit : Run.Guarded step Keeps (start default 0) joinAndExit ∧
    (Run.exec step (start default 0) joinAndExit).Consistent := by
  have hguard : Run.Guarded step Keeps (start default 0) joinAndExit := by
    refine ⟨trivial, ?_, ?_, trivial⟩
    · intro channels hchannels pre post hentries
      cases hchannels
      have hlist : ((((start default 0).step (.introduce localUser)).joinEntries quietEnv 0
          "#new".toList
          none).map Prod.fst) = [.chan "#new".toList] := by decide +kernel
      have hboth : [JoinEntry.chan "#new".toList] = pre ++ .zero :: post :=
          hlist.symm.trans hentries
      have hmem : JoinEntry.zero ∈ [JoinEntry.chan "#new".toList] := by
        rw [hboth]
        exact List.mem_append_right _ List.mem_cons_self
      exact absurd (List.mem_singleton.mp hmem) (fun heq => nomatch heq)
    · intro hserver
      have hclient : ((((start default 0).step (.introduce localUser)).step
          (.join quietEnv 0 ["#new".toList])).clients 0).isServer = false := by decide +kernel
      exact absurd (hclient.symm.trans hserver) Bool.false_ne_true
  exact ⟨hguard, membership_consistent default 0 joinAndExit hguard⟩

/-- A JOIN of a new channel and of 0 makes the channel and puts nobody on it. -/
theorem membership_orphan :
    ¬ ∀ cf key ops, (Run.exec step (start cf key) ops).Consistent := by
  intro h
  have hrun := h default 0 [.introduce localUser, .join quietEnv 0 ["#new,0".toList]]
  have hglobal : (Run.exec step (start default 0)
    [.introduce localUser, .join quietEnv 0 ["#new,0".toList]]).globalChannelList = [0] := by
    decide +kernel
  have hmembers : (Run.exec step (start default 0)
    [.introduce localUser, .join quietEnv 0 ["#new,0".toList]]).members 0 = [] := by
    decide +kernel
  exact hrun.global 0 (by rw [hglobal]; exact List.mem_singleton_self 0) hmembers

end MemberState

end Ircd
