import Ircd.MembershipCommands

/-!
`m_join`: what becomes of the channels that a channel list makes before the client
is put on them.

- `MemberState.Due`: the channel waits for its first member, and a target for it
  stands behind the last 0, or the entries that are left name it.
- `Sound.buildTargetList`: after the list is read every new channel has a target.
- `Sound.mJoin`: so no channel is left without members.
-/

namespace Ircd

open Function List

/-- A channel that nobody has written to: `can_join` does not refuse it. -/
def ChannelData.Blank (c : ChannelData) : Prop := c.mode = Mode.zero ∧ c.banlist = []

namespace MemberState

variable {s : MemberState} {env : MemberEnv} {E : Nat → ChannelData → Prop} {ch d : Nat}
  {source : Cid} {c : ChannelData} {name : CStr} {t : Target} {ts : List Target} {j : Nat}
  {entries post : List JoinEntry} {e : JoinEntry} {key : Option CStr}

/-! ### Joining the targets -/

/-- The channel waits for its first member, and has a target. -/
def Waits (ts : List Target) (ch : Nat) (c : ChannelData) : Prop :=
  c.Blank ∧ ∃ t ∈ ts, t.chptr = some ch

theorem canJoin_of_blank (hblank : c.Blank) : s.canJoin env source ch c key = true := by
  obtain ⟨hmode, hbans⟩ := hblank
  simp [canJoin, hmode, hbans, findBmask, Mode.zero]

theorem Sound.joinTarget (env : MemberEnv) (h : s.Sound (Waits (t :: ts)))
    (halive : s.alive source = true)
    (hclient : (s.clients source).isClient = true) :
    (s.joinTarget env source t).Sound (Waits ts) ∧
      (s.joinTarget env source t).alive = s.alive ∧
      (s.joinTarget env source t).clients = s.clients := by
  have hrest : ∀ {d c}, t.chptr ≠ some d → Waits (t :: ts) d c → Waits ts d c := by
    rintro d c hne ⟨hblank, u, hu, htarget⟩
    refine ⟨hblank, u, (List.mem_cons.mp hu).resolve_left ?_, htarget⟩
    rintro rfl
    exact hne htarget
  unfold MemberState.joinTarget
  split
  · rename_i hnone
    exact ⟨h.mono fun _ _ hE => hrest (by rw [hnone]; exact Option.some_ne_none _ |>.symm) hE, rfl,
      rfl⟩
  · rename_i ch hch
    have hother : ∀ {d}, d ≠ ch → t.chptr ≠ some d := by
      intro d hne heq
      rw [hch] at heq
      exact hne (Option.some.inj heq).symm
    split
    · rename_i hnone
      refine ⟨h.mono fun hd _ hE => hrest (hother ?_) hE, rfl, rfl⟩
      rintro rfl
      rw [hnone] at hd
      cases hd
    · rename_i c hc
      split
      · rename_i hpass
        refine ⟨h.mono fun {d e} hd hnil hE => hrest (hother ?_) hE, rfl, rfl⟩
        rintro rfl
        rw [Bool.or_eq_true] at hpass
        rcases hpass with hlink | hrefused
        · exact members_ne_nil_of_link h.toLinked hlink hnil
        · rw [hc] at hd
          cases hd
          rw [canJoin_of_blank hE.1] at hrefused
          cases hrefused
      · rename_i hpass
        have hlink : s.findChannelLink source ch = none := by
          rw [← Option.not_isSome_iff_eq_none]
          intro hlink
          rw [hlink] at hpass
          exact hpass rfl
        have hsome : s.chans ch ≠ none := by
          rw [hc]
          exact Option.some_ne_none c
        have hadd := (h.addUserToChannel t.flags hsome halive (.inl hclient) fun {m x} hx hwho =>
          findChannelLink_none h.toLinked hclient hlink hx hwho).mono
            fun _ _ hE => hrest (hother hE.1) hE.2
        simp only
        split
        · refine ⟨hadd.setChannel (c := c) hc rfl fun hnil => ?_, rfl, rfl⟩
          change Buckets.add s.members ch s.nextMember ch = [] at hnil
          rw [Buckets.add, update_self] at hnil
          cases hnil
        · exact ⟨hadd, rfl, rfl⟩

theorem Sound.joinTargets (h : s.Sound (Waits ts)) (halive : s.alive source = true)
    (hclient : (s.clients source).isClient = true) :
    (ts.foldl (fun s t => s.joinTarget env source t) s).Sound fun _ _ => False := by
  induction ts generalizing s with
  | nil =>
    refine h.mono fun _ _ hE => ?_
    obtain ⟨-, t, ht, -⟩ := hE
    exact not_mem_nil ht
  | cons t ts ih =>
    obtain ⟨hjoin, halive', hclients⟩ := h.joinTarget env halive hclient
    exact ih hjoin (halive' ▸ halive) (hclients ▸ hclient)

/-! ### Reading the list -/

theorem isTarget_append (ch : Nat) (ts : List Target) (t : Target) :
    isTarget.go ch (ts ++ [t]) = if t.chptr = some ch then some ts.length else isTarget.go ch
      ts := by
  induction ts with
  | nil => rfl
  | cons u ts ih =>
    rw [cons_append, isTarget.go, ih]
    by_cases ht : t.chptr = some ch
    · simp [ht]
    · simp only [ht, if_false, isTarget.go]

theorem isTarget_eq_zero_of_fresh (h : ∀ t ∈ s.targets, t.chptr ≠ some ch) : s.isTarget ch = 0 := by
  have hgo : ∀ ts : List Target, (∀ t ∈ ts, t.chptr ≠ some ch) → isTarget.go ch ts = none := by
    intro ts hts
    induction ts with
    | nil => rfl
    | cons t ts ih =>
      rw [isTarget.go, ih fun u hu => hts u (mem_cons_of_mem _ hu)]
      exact if_neg (hts t mem_cons_self)
  rw [isTarget, hgo _ h]
  rfl

theorem entryChannel_found (env : MemberEnv) (source : Cid)
    (hfound : s.hashFindChannel name = some ch) :
    s.splitBars env source name env.noJoinOnSplit = true ∧ s.entryChannel env source name = none ∨
      ∃ flags, s.entryChannel env source name = some (s, ch, flags) := by
  unfold entryChannel
  rw [hfound]
  simp only
  split
  · rename_i hbars
    exact .inl ⟨hbars, rfl⟩
  · exact .inr ⟨_, rfl⟩

theorem entryChannel_new (env : MemberEnv) (source : Cid)
    (hnone : s.hashFindChannel name = none) :
    s.entryChannel env source name = none ∨ s.makes env source name ∧
      s.entryChannel env source name =
        some (s.createChannel env.now name, s.nextChan, {.chanop}) := by
  unfold entryChannel
  rw [hnone]
  simp only
  split
  · exact .inl rfl
  · rename_i hbars
    split
    · exact .inl rfl
    · rename_i hlazy
      rw [getOrCreateChannel, hnone]
      split
      · exact .inl rfl
      · refine .inr ⟨⟨hnone, by simpa using hbars, fun ⟨hhead, huplink⟩ => hlazy ?_⟩, rfl⟩
        rw [Bool.and_eq_true]
        exact ⟨by simpa using hhead, huplink⟩

/-- The channel was made by this list and waits for its first member: a target for
it stands from this place on, or it has none that counts and is named later. -/
def Due (s : MemberState) (env : MemberEnv) (source : Cid) (j : Nat) (rest : List JoinEntry)
    (ch : Nat)
    (c : ChannelData) : Prop :=
  c.Blank ∧ s.splitBars env source c.chname env.noJoinOnSplit = false ∧
    ((∃ t ∈ s.targets.drop j, t.chptr = some ch) ∨
      s.isTarget ch = 0 ∧ ∃ e ∈ rest, e.names c.chname = true)

theorem Due.append (h : s.Due env source j entries ch c) (hj : j ≤ s.targets.length) (t : Target) :
    Due { s with targets := s.targets ++ [t] } env source j entries ch c := by
  obtain ⟨hblank, hbars, hdue⟩ := h
  refine ⟨hblank, hbars, ?_⟩
  show (∃ u ∈ (s.targets ++ [t]).drop j, u.chptr = some ch) ∨ _
  rw [drop_append_of_le_length hj]
  by_cases ht : t.chptr = some ch
  · exact .inl ⟨t, mem_append_right _ (mem_singleton_self _), ht⟩
  · rcases hdue with ⟨u, hu, htarget⟩ | ⟨hzero, hnamed⟩
    · exact .inl ⟨u, mem_append_left _ hu, htarget⟩
    · refine .inr ⟨?_, hnamed⟩
      rw [isTarget, isTarget_append, if_neg ht]
      exact hzero

theorem Due.tail (h : s.Due env source j (.chan name :: entries) ch c)
    (hnamed : ircEq name c.chname = true → ∃ t ∈ s.targets.drop j, t.chptr = some ch) :
    s.Due env source j entries ch c := by
  obtain ⟨hblank, hbars, hdue⟩ := h
  refine ⟨hblank, hbars, ?_⟩
  rcases hdue with hdue | ⟨hzero, e, he, hname⟩
  · exact .inl hdue
  · rcases List.mem_cons.mp he with rfl | he
    · exact .inl (hnamed hname)
    · exact .inr ⟨hzero, e, he, hname⟩

/-- The list is read behind its last 0, which left `j` targets. -/
structure Listing (s : MemberState) (env : MemberEnv) (source : Cid) (j : Nat)
    (rest : List JoinEntry) : Prop where
  sound : s.Sound (s.Due env source j rest)
  known : ∀ t ∈ s.targets, ∀ ch, t.chptr = some ch → s.chans ch ≠ none
  le : j ≤ s.targets.length

theorem splitBars_of_ircEq {other : CStr} {rule : Bool} (h : ircEq name other = true) :
    s.splitBars env source name rule = s.splitBars env source other rule := by
  have hhead := head?_iff_of_ircEq (c := '&') (by decide) h
  have hbne : (name.head? != some '&') = (other.head? != some '&') := by
    rw [Bool.eq_iff_iff, bne_iff_ne, bne_iff_ne, ne_eq, ne_eq, hhead]
  rw [splitBars, splitBars, hbne]

theorem Listing.addTarget (h : s.Listing env source j (.chan name :: entries)) (key : Option CStr) :
    (s.addTarget env source key (.chan name)).Listing env source j entries := by
  cases hfind : s.hashFindChannel name with
  | none =>
    -- no channel that waits has this name
    have hother : ∀ {ch c}, s.chans ch = some c → ircEq name c.chname ≠ true := fun hc heq => by
      rw [h.sound.indexed.hashFindChannel_eq_none hfind hc] at heq
      cases heq
    rcases entryChannel_new env source hfind with hdrop | ⟨hmakes, hnew⟩
    · simp only [MemberState.addTarget, hdrop]
      exact ⟨h.sound.mono fun hc _ hE => hE.tail fun heq => absurd heq (hother hc), h.known, h.le⟩
    · have hfresh := h.sound.freshChan (Nat.le_refl s.nextChan)
      have hzero : (s.createChannel env.now name).isTarget s.nextChan = 0 :=
        isTarget_eq_zero_of_fresh fun t ht heq => h.known t ht _ heq hfresh
      simp only [MemberState.addTarget, hnew, hzero, ne_eq, not_true_eq_false, if_false]
      have hcreate := h.sound.createChannel env.now hfind
      refine ⟨(hcreate.targets _ _).mono fun {ch c} hc _ hE => ?_, fun t ht ch hch => ?_, ?_⟩
      · rcases hE with hdue | ⟨rfl, rfl⟩
        · by_cases heq : ch = s.nextChan
          · subst heq
            refine ⟨hdue.1, hdue.2.1, .inl ⟨⟨some s.nextChan, key, {.chanop}⟩, ?_, rfl⟩⟩
            show _ ∈ (s.targets ++ [_]).drop j
            rw [drop_append_of_le_length h.le]
            exact mem_append_right _ (mem_singleton_self _)
          · have hold : s.chans ch = some c := by
              change update s.chans s.nextChan _ ch = some c at hc
              rwa [update_of_ne heq] at hc
            exact Due.append (s := s.createChannel env.now name)
              (hdue.tail fun hname => absurd hname (hother hold)) h.le _
        · obtain ⟨-, hbars, -⟩ := hmakes
          refine ⟨⟨rfl, rfl⟩, ?_, .inl ⟨⟨some s.nextChan, key, {.chanop}⟩, ?_, rfl⟩⟩
          · show s.splitBars env source name env.noJoinOnSplit = false
            rw [splitBars, Bool.and_or_distrib_left, Bool.or_eq_false_iff] at hbars
            exact hbars.2
          · show _ ∈ (s.targets ++ [_]).drop j
            rw [drop_append_of_le_length h.le]
            exact mem_append_right _ (mem_singleton_self _)
      · change update s.chans s.nextChan _ ch ≠ none
        by_cases heq : ch = s.nextChan
        · rw [heq, update_self]
          exact Option.some_ne_none _
        · rw [update_of_ne heq]
          rcases List.mem_append.mp ht with ht | ht
          · exact h.known t ht ch hch
          · cases List.mem_singleton.mp ht
            exact absurd (Option.some.inj hch).symm heq
      · show j ≤ (s.targets ++ [_]).length
        rw [length_append]
        exact Nat.le_trans h.le (Nat.le_add_right _ _)
  | some ch₀ =>
    obtain ⟨c₀, hc₀, hname₀⟩ := h.sound.indexed.hashFindChannel_eq_some.mp hfind
    -- a channel that waits and has this name is the one that is found
    have hsame : ∀ {ch c}, s.chans ch = some c → ircEq name c.chname = true → ch = ch₀ :=
      fun hc heq => h.sound.names hc hc₀ (ircEq_trans (ircEq_symm heq) hname₀)
    rcases entryChannel_found env source hfind with ⟨hbars, hdrop⟩ | ⟨flags, hfound⟩
    · simp only [MemberState.addTarget, hdrop]
      refine ⟨h.sound.mono fun hc _ hE => hE.tail fun heq => ?_, h.known, h.le⟩
      have hfree := hE.2.1
      rw [← splitBars_of_ircEq heq, hbars] at hfree
      cases hfree
    · simp only [MemberState.addTarget, hfound]
      split
      · rename_i hplace
        refine ⟨h.sound.mono fun hc _ hE => ?_, h.known, h.le⟩
        rcases hE.2.2 with hin | ⟨hzero, -⟩
        · exact ⟨hE.1, hE.2.1, .inl hin⟩
        · refine hE.tail fun heq => ?_
          rw [hsame hc heq] at hzero
          exact absurd hzero hplace
      · refine ⟨(h.sound.targets _ _).mono fun {ch c} hc _ hE => ?_, fun t ht ch hch => ?_, ?_⟩
        · refine (hE.append h.le _).tail fun heq => ?_
          refine ⟨⟨some ch₀, key, flags⟩, ?_, by rw [hsame hc heq]⟩
          show _ ∈ (s.targets ++ [_]).drop j
          rw [drop_append_of_le_length h.le]
          exact mem_append_right _ (mem_singleton_self _)
        · rcases List.mem_append.mp ht with ht | ht
          · exact h.known t ht ch hch
          · cases List.mem_singleton.mp ht
            cases hch
            show s.chans ch₀ ≠ none
            rw [hc₀]
            exact Option.some_ne_none _
        · show j ≤ (s.targets ++ [_]).length
          rw [length_append]
          exact Nat.le_trans h.le (Nat.le_add_right _ _)

/-- The list is read in front of its last 0: a channel that waits is not named again
up to the 0, has no target that counts, and is named behind the 0. -/
structure Heading (s : MemberState) (env : MemberEnv) (source : Cid) (rest post : List JoinEntry) :
    Prop where
  sound : s.Sound fun ch c => c.Blank ∧ s.splitBars env source c.chname env.noJoinOnSplit = false ∧
    s.isTarget ch = 0 ∧ (∀ e ∈ rest, e.names c.chname = false) ∧ ∃ e ∈ post, e.names c.chname = true
  known : ∀ t ∈ s.targets, ∀ ch, t.chptr = some ch → s.chans ch ≠ none

theorem Heading.addTarget (h : s.Heading env source (e :: entries) post)
    (hold : ∀ name, e = .chan name → ¬ s.makes env source name) (key : Option CStr) :
    ∃ targets join0, s.addTarget env source key e = { s with targets := targets, join0 := join0 } ∧
      (s.addTarget env source key e).Heading env source entries post := by
  have happend : ∀ (t : Target) (join0 : Option Nat), (∀ ch, t.chptr = some ch →
      s.chans ch ≠ none) →
      (∀ ch c, t.chptr = some ch → s.chans ch = some c → e.names c.chname = true) →
      ({ s with targets := s.targets ++ [t], join0 := join0 } : MemberState).Heading env source
        entries post := by
    intro t join0 hknown hnames
    refine ⟨(h.sound.targets _ _).mono fun {ch c} hc _ hE => ?_, fun u hu ch hch => ?_⟩
    · obtain ⟨hblank, hbars, hzero, hrest, hpost⟩ := hE
      refine ⟨hblank, hbars, ?_, fun e he => hrest e (mem_cons_of_mem _ he), hpost⟩
      have hne : t.chptr ≠ some ch := by
        intro heq
        have hname := hnames ch c heq hc
        rw [hrest e mem_cons_self] at hname
        cases hname
      rw [isTarget, isTarget_append, if_neg hne]
      exact hzero
    · rcases List.mem_append.mp hu with hu | hu
      · exact h.known u hu ch hch
      · cases List.mem_singleton.mp hu
        exact hknown ch hch
  have hsame : s.Heading env source entries post :=
    ⟨h.sound.mono fun _ _ hE => ⟨hE.1, hE.2.1, hE.2.2.1,
      fun e he => hE.2.2.2.1 e (mem_cons_of_mem _ he), hE.2.2.2.2⟩, h.known⟩
  cases e with
  | zero => exact ⟨_, _, rfl, happend ⟨none, none, ∅⟩ _ (fun _ hch => nomatch hch) fun _ _ hch =>
    nomatch hch⟩
  | chan name =>
    cases hfind : s.hashFindChannel name with
    | none =>
      rcases entryChannel_new env source hfind with hdrop | ⟨hmakes, -⟩
      · simp only [MemberState.addTarget, hdrop]
        exact ⟨s.targets, s.join0, rfl, hsame⟩
      · exact absurd hmakes (hold name rfl)
    | some ch₀ =>
      obtain ⟨c₀, hc₀, hname₀⟩ := h.sound.indexed.hashFindChannel_eq_some.mp hfind
      rcases entryChannel_found env source hfind with ⟨-, hdrop⟩ | ⟨flags, hfound⟩
      · simp only [MemberState.addTarget, hdrop]
        exact ⟨s.targets, s.join0, rfl, hsame⟩
      · simp only [MemberState.addTarget, hfound]
        split
        · exact ⟨s.targets, s.join0, rfl, hsame⟩
        · refine ⟨_, _, rfl, happend ⟨some ch₀, key, flags⟩ s.join0 ?_ ?_⟩
          · rintro ch heq
            cases heq
            rw [hc₀]
            exact Option.some_ne_none _
          · rintro ch c heq hc
            cases heq
            rw [hc₀] at hc
            cases hc
            exact hname₀

theorem Sound.firstTarget (h : s.Sound fun _ _ => False) (hnil : s.targets = [])
    (hnew : ∀ name, e = .chan name → s.makes env source name →
      (∀ e ∈ entries, e.names name = false) ∧ ∃ e ∈ post, e.names name = true) (key : Option CStr) :
    (s.addTarget env source key e).Heading env source entries post ∧
      ∀ name, (s.addTarget env source key e).hashFindChannel name = none →
        s.hashFindChannel name = none := by
  cases e with
  | zero =>
    refine ⟨⟨(h.targets _ _).mono fun _ _ hE => hE.elim, fun t ht ch hch => ?_⟩, fun _ hnone =>
      hnone⟩
    rw [MemberState.addTarget, hnil] at ht
    cases List.mem_singleton.mp ht
    cases hch
  | chan name =>
    have hempty : ∀ ch, s.isTarget ch = 0 := fun ch =>
      isTarget_eq_zero_of_fresh fun t ht => absurd ht (by rw [hnil]; exact not_mem_nil)
    have hsame : s.Heading env source entries post :=
      ⟨h.mono fun _ _ hE => hE.elim, fun t ht => absurd ht (by rw [hnil]; exact not_mem_nil)⟩
    cases hfind : s.hashFindChannel name with
    | none =>
      rcases entryChannel_new env source hfind with hdrop | ⟨hmakes, hmade⟩
      · simp only [MemberState.addTarget, hdrop]
        exact ⟨hsame, fun _ hnone => hnone⟩
      · have hzero : (s.createChannel env.now name).isTarget s.nextChan = 0 := hempty _
        simp only [MemberState.addTarget, hmade, hzero, ne_eq, not_true_eq_false, if_false]
        have hcreate := h.createChannel env.now hfind
        obtain ⟨hrest, hpost⟩ := hnew name rfl hmakes
        have hbars := hmakes.2.1
        rw [splitBars, Bool.and_or_distrib_left, Bool.or_eq_false_iff] at hbars
        have hsound := hcreate.targets (s.targets ++ [⟨some s.nextChan, key, {.chanop}⟩])
            s.join0
        refine ⟨⟨hsound.mono fun {ch c} _ _ hE => ?_, fun t ht ch hch => ?_⟩, fun other hnone =>
          ?_⟩
        · obtain ⟨rfl, rfl⟩ := hE.resolve_left id
          refine ⟨⟨rfl, rfl⟩, hbars.2, ?_, hrest, hpost⟩
          show (isTarget.go s.nextChan (s.targets ++ [_])).getD 0 = 0
          rw [isTarget_append, if_pos rfl, hnil]
          rfl
        · change t ∈ s.targets ++ [_] at ht
          rw [hnil] at ht
          cases List.mem_singleton.mp ht
          cases hch
          change update s.chans s.nextChan _ s.nextChan ≠ none
          rw [update_self]
          exact Option.some_ne_none _
        · by_contra hfound
          obtain ⟨ch, hch⟩ := Option.ne_none_iff_exists'.mp hfound
          obtain ⟨c, hc, heq⟩ := h.indexed.hashFindChannel_eq_some.mp hch
          have hne : ch ≠ s.nextChan := by
            rintro rfl
            rw [h.freshChan (Nat.le_refl _)] at hc
            cases hc
          have hstill : update s.chans s.nextChan
              (some ⟨name, env.now, Mode.zero, [], [], []⟩) ch = some c := by
            rwa [update_of_ne hne]
          have hsome := hsound.indexed.hashFindChannel_eq_some.mpr ⟨c, hstill, heq⟩
          exact absurd (hnone.symm.trans hsome) (Option.some_ne_none ch).symm
    | some ch₀ =>
      obtain ⟨c₀, hc₀, -⟩ := h.indexed.hashFindChannel_eq_some.mp hfind
      rcases entryChannel_found env source hfind with ⟨-, hdrop⟩ | ⟨flags, hfound⟩
      · simp only [MemberState.addTarget, hdrop]
        exact ⟨hsame, fun _ hnone => hnone⟩
      · simp only [MemberState.addTarget, hfound, hempty, ne_eq, not_true_eq_false, if_false]
        refine ⟨⟨(h.targets _ s.join0).mono fun _ _ hE => hE.elim, fun t ht ch hch => ?_⟩,
          fun _ hnone => hnone⟩
        rw [hnil] at ht
        cases List.mem_singleton.mp ht
        cases hch
        show s.chans ch₀ ≠ none
        rw [hc₀]
        exact Option.some_ne_none _

abbrev Entries := List (JoinEntry × Option CStr)

/-- The loop of `build_target_list`. -/
def addTargets (s : MemberState) (env : MemberEnv) (source : Cid) (l : Entries) : MemberState :=
  l.foldl (fun s e => s.addTarget env source e.2 e.1) s

theorem addTarget_chan (env : MemberEnv) (source : Cid) (key : Option CStr) (name : CStr) :
    ∃ s' targets, s.addTarget env source key (.chan name) = { s' with targets := targets } ∧
      (s' = s ∨ s.hashFindChannel name = none ∧ s' = s.createChannel env.now name) ∧
      (targets = s.targets ∨ ∃ t, targets = s.targets ++ [t] ∧ t.key = key) := by
  cases hfind : s.hashFindChannel name with
  | none =>
    rcases entryChannel_new env source hfind with hdrop | ⟨-, hmade⟩
    · refine ⟨s, s.targets, ?_, Or.inl rfl, Or.inl rfl⟩
      simp only [addTarget, hdrop]
    · simp only [addTarget, hmade]
      split
      · exact ⟨_, _, rfl, Or.inr ⟨trivial, rfl⟩, Or.inl rfl⟩
      · exact ⟨_, _, rfl, Or.inr ⟨trivial, rfl⟩, Or.inr ⟨_, rfl, rfl⟩⟩
  | some ch =>
    rcases entryChannel_found env source hfind with ⟨-, hdrop⟩ | ⟨flags, hfound⟩
    · refine ⟨s, s.targets, ?_, Or.inl rfl, Or.inl rfl⟩
      simp only [addTarget, hdrop]
    · simp only [addTarget, hfound]
      split
      · exact ⟨s, s.targets, rfl, Or.inl rfl, Or.inl rfl⟩
      · exact ⟨_, _, rfl, Or.inl rfl, Or.inr ⟨_, rfl, rfl⟩⟩

theorem addTarget_clients (s : MemberState) (env : MemberEnv) (source : Cid) (key : Option CStr)
    (e : JoinEntry) : (s.addTarget env source key e).clients = s.clients ∧
      (s.addTarget env source key e).alive = s.alive ∧
      (e ≠ .zero → (s.addTarget env source key e).join0 = s.join0) := by
  cases e with
  | zero => exact ⟨rfl, rfl, fun hne => absurd rfl hne⟩
  | chan name =>
    obtain ⟨s', targets, heq, rfl | ⟨-, rfl⟩, -⟩ := s.addTarget_chan env source key name
    · rw [heq]
      exact ⟨rfl, rfl, fun _ => rfl⟩
    · rw [heq]
      exact ⟨rfl, rfl, fun _ => rfl⟩

theorem addTargets_clients (s : MemberState) (env : MemberEnv) (source : Cid) (l : Entries) :
    (s.addTargets env source l).clients = s.clients ∧ (s.addTargets env source l).alive =
      s.alive := by
  induction l generalizing s with
  | nil => exact ⟨rfl, rfl⟩
  | cons e l ih =>
    obtain ⟨hclients, halive, -⟩ := addTarget_clients s env source e.2 e.1
    obtain ⟨hclients', halive'⟩ := ih (s.addTarget env source e.2 e.1)
    exact ⟨hclients'.trans hclients, halive'.trans halive⟩

theorem Listing.addTargets {l : Entries} (h : s.Listing env source j (l.map Prod.fst))
    (hzero : .zero ∉ l.map Prod.fst) :
    (s.addTargets env source l).Listing env source j [] ∧
      (s.addTargets env source l).join0 = s.join0 := by
  induction l generalizing s with
  | nil => exact ⟨h, rfl⟩
  | cons e l ih =>
    obtain ⟨entry, key⟩ := e
    rw [map_cons, mem_cons, not_or] at hzero
    cases entry with
    | zero => exact absurd rfl hzero.1
    | chan name =>
      obtain ⟨-, -, hjoin0⟩ := addTarget_clients s env source key (.chan name)
      obtain ⟨hlist, hrest⟩ := ih (h.addTarget key) hzero.2
      exact ⟨hlist, hrest.trans (hjoin0 (fun heq => nomatch heq))⟩

theorem Heading.addTargets {l : Entries} (h : s.Heading env source (l.map Prod.fst) post)
    (hold : ∀ name, .chan name ∈ l.map Prod.fst → ¬ s.makes env source name) :
    (s.addTargets env source l).Heading env source [] post := by
  induction l generalizing s with
  | nil => exact h
  | cons e l ih =>
    obtain ⟨targets, join0, hsame, hnext⟩ := h.addTarget
      (fun name heq => hold name (heq ▸ mem_cons_self)) e.2
    refine ih hnext fun name hname => ?_
    show ¬ (s.addTarget env source e.2 e.1).makes env source name
    rw [hsame]
    exact hold name (mem_cons_of_mem _ hname)

theorem Heading.zero (h : s.Heading env source [] post) (key : Option CStr) :
    (s.addTarget env source key .zero).Listing env source (s.targets.length + 1) post := by
  refine ⟨(h.sound.targets _ _).mono fun {ch c} _ _ hE => ?_, fun t ht ch hch => ?_, ?_⟩
  · obtain ⟨hblank, hbars, hzero, -, hpost⟩ := hE
    refine ⟨hblank, hbars, .inr ⟨?_, hpost⟩⟩
    show (isTarget.go ch (s.targets ++ [_])).getD 0 = 0
    rw [isTarget_append, if_neg (fun heq => nomatch heq)]
    exact hzero
  · rcases List.mem_append.mp ht with ht | ht
    · exact h.known t ht ch hch
    · cases List.mem_singleton.mp ht
      cases hch
  · show s.targets.length + 1 ≤ (s.targets ++ [_]).length
    rw [length_append]
    exact Nat.le_refl _

theorem exists_last_zero {l : Entries} (h : .zero ∈ l.map Prod.fst) :
    ∃ l₁ key l₂, l = l₁ ++ (.zero, key) :: l₂ ∧ .zero ∉ l₂.map Prod.fst := by
  induction l with
  | nil => exact absurd h not_mem_nil
  | cons e l ih =>
    by_cases hmem : .zero ∈ l.map Prod.fst
    · obtain ⟨l₁, key, l₂, rfl, hlast⟩ := ih hmem
      exact ⟨e :: l₁, key, l₂, rfl, hlast⟩
    · rw [map_cons, mem_cons] at h
      obtain ⟨entry, key⟩ := e
      cases h.resolve_right hmem
      exact ⟨[], key, l, rfl, hmem⟩

theorem addTargets_append (l₁ l₂ : Entries) :
    s.addTargets env source (l₁ ++ l₂) = (s.addTargets env source l₁).addTargets env source l₂ :=
  foldl_append

theorem Sound.heading {l : Entries} (h : s.Sound fun _ _ => False) (hnil : s.targets = [])
    (hkeeps : ∀ name, .chan name ∈ l.map Prod.fst → s.makes env source name →
      (∃ first rest, l.map Prod.fst = .chan first :: rest ∧ ircEq first name = true ∧
        ∀ e ∈ rest, e.names name = false) ∧ ∃ e ∈ post, e.names name = true) :
    (s.addTargets env source l).Heading env source [] post := by
  cases l with
  | nil =>
    refine ⟨h.mono fun _ _ hE => hE.elim, fun t ht => ?_⟩
    rw [addTargets, foldl_nil, hnil] at ht
    exact absurd ht not_mem_nil
  | cons e l =>
    have hkept : ∀ name, e.1 = .chan name → s.makes env source name →
        (∀ e' ∈ l.map Prod.fst, e'.names name = false) ∧ ∃ e' ∈ post, e'.names name = true := by
      intro name heq hmakes
      obtain ⟨⟨first, rest, hlist, -, hrest⟩, hpost⟩ :=
        hkeeps name (heq ▸ mem_cons_self) hmakes
      rw [map_cons, List.cons.injEq] at hlist
      exact ⟨hlist.2 ▸ hrest, hpost⟩
    obtain ⟨hhead, hfind⟩ := h.firstTarget hnil hkept e.2
    refine hhead.addTargets fun name hname hmakes => ?_
    obtain ⟨hnone, hbars, hlazy⟩ := hmakes
    obtain ⟨hclients, -, -⟩ := addTarget_clients s env source e.2 e.1
    have hbars' : s.splitBars env source name (env.noCreateOnSplit || env.noJoinOnSplit) =
        false := by
      rwa [splitBars, hclients] at hbars
    obtain ⟨⟨first, rest, hlist, -, hrest⟩, -⟩ :=
      hkeeps name (mem_cons_of_mem _ hname) ⟨hfind name hnone, hbars', hlazy⟩
    rw [map_cons, List.cons.injEq] at hlist
    have hmiss := hrest _ (hlist.2 ▸ hname)
    rw [JoinEntry.names, ircEq_refl] at hmiss
    cases hmiss

theorem Sound.addTargets {l : Entries} (h : s.Sound fun _ _ => False) (hnil : s.targets = [])
    (hjoin0 : s.join0 = none) (hkeeps : s.KeepsNew env source (l.map Prod.fst)) :
    (s.addTargets env source l).Sound
      (Waits ((s.addTargets env source l).targets.drop ((s.addTargets env source l).join0.getD
        0))) := by
  have hwaits : ∀ {s' : MemberState} {j}, s'.Listing env source j [] →
      s'.Sound (Waits (s'.targets.drop j)) := by
    intro s' j hlist
    refine hlist.sound.mono fun _ _ hE => ⟨hE.1, hE.2.2.resolve_right ?_⟩
    rintro ⟨-, e, he, -⟩
    exact not_mem_nil he
  by_cases hzero : .zero ∈ l.map Prod.fst
  · obtain ⟨l₁, key, l₂, rfl, hlast⟩ := exists_last_zero hzero
    rw [map_append, map_cons] at hkeeps
    have hhead : (s.addTargets env source l₁).Heading env source [] (l₂.map Prod.fst) :=
      h.heading hnil fun name hname hmakes => hkeeps _ _ rfl hlast name hname hmakes
    obtain ⟨hlist, hplace⟩ := (hhead.zero key).addTargets hlast
    rw [addTargets_append]
    change ((s.addTargets env source l₁).addTarget env source key .zero |>.addTargets env source
      l₂).Sound
      (Waits (((s.addTargets env source l₁).addTarget env source key .zero |>.addTargets env source
        l₂).targets.drop (((s.addTargets env source l₁).addTarget env source key .zero |>.addTargets
          env
          source l₂).join0.getD 0)))
    rw [hplace]
    exact hwaits hlist
  · have hstart : s.Listing env source 0 (l.map Prod.fst) :=
      ⟨h.mono fun _ _ hE => hE.elim, fun t ht => absurd ht (by rw [hnil]; exact not_mem_nil),
        Nat.zero_le _⟩
    obtain ⟨hlist, hplace⟩ := hstart.addTargets hzero
    rw [hplace, hjoin0]
    exact hwaits hlist

theorem Sound.mJoin (h : s.Sound fun _ _ => False) (env : MemberEnv) {parv : List CStr}
    (halive : s.alive source = true) (hclient : (s.clients source).isClient = true)
    (hkeeps : s.Keeps (.join env source parv)) :
    (s.mJoin env source parv).Sound fun _ _ => False := by
  unfold MemberState.mJoin
  split
  · exact h
  · rename_i channels keys
    split
    · exact h
    · simp only
      have hbuild := Sound.addTargets (l := s.joinEntries env source channels keys.head?)
        (h.targets [] none) rfl rfl (hkeeps channels rfl)
      obtain ⟨hclients, halive'⟩ := addTargets_clients { s with targets := [], join0 := none } env
          source
        (s.joinEntries env source channels keys.head?)
      change (s.buildTargetList env source channels keys.head?).Sound _ at hbuild
      change (s.buildTargetList env source channels keys.head?).clients = s.clients at hclients
      change (s.buildTargetList env source channels keys.head?).alive = s.alive at halive'
      change Sound _ (Waits ((s.buildTargetList env source channels keys.head?).targets.drop
        ((s.buildTargetList env source channels keys.head?).join0.getD 0))) at hbuild
      generalize s.buildTargetList env source channels keys.head? = s' at hbuild hclients halive' ⊢
      split
      · obtain ⟨hleft, hclients'', halive'', htargets⟩ := hbuild.doJoin0 source
        rw [htargets]
        exact hleft.joinTargets (by rw [halive'', halive', halive])
          (by rw [hclients'', hclients, hclient])
      · exact hbuild.joinTargets (by rw [halive', halive]) (by rw [hclients, hclient])

end MemberState

end Ircd
