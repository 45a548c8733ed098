import Ircd.Membership

/-!
What every small operation on channels and memberships keeps.

`Sound s E` says that the lists of `s` are linked and that a channel without
members satisfies `E`: while a command runs, it may have made a channel that it is
still going to fill. Each operation has one lemma, which says what becomes of `E`.
-/

namespace Ircd

open Function
open Buckets (Files)

namespace MemberState

variable {s : MemberState} {E E' : Nat → ChannelData → Prop} {ch ch' m n : Nat} {who : Cid}
  {c c' : ChannelData} {x y : Member} {name : CStr}

/-! ### Channels and their names -/

/-- A channel is found under its name, and no other is. -/
structure Indexed (s : MemberState) : Prop where
  table : Files s.channelTable fun ch =>
    (s.chans ch).map fun c => strhash s.ircdRandomKey c.chname
  names : ∀ {ch ch' c c'}, s.chans ch = some c → s.chans ch' = some c' →
    ircEq c.chname c'.chname = true → ch = ch'
  freshChan : ∀ {ch}, s.nextChan ≤ ch → s.chans ch = none

theorem Indexed.hashFindChannel_eq_some (h : s.Indexed) :
    s.hashFindChannel name = some ch ↔ ∃ c, s.chans ch = some c ∧ ircEq name c.chname = true := by
  constructor
  · intro hfind
    have hfound := List.find?_some hfind
    rwa [Option.any_eq_true] at hfound
  · rintro ⟨c, hc, heq⟩
    have hmem : ch ∈ s.channelTable (strhash s.ircdRandomKey name) := by
      rw [h.table.mem, hc, Option.map_some, strhash_eq_of_ircEq heq]
    have hfound : (s.hashFindChannel name).isSome = true := by
      rw [hashFindChannel, List.find?_isSome]
      exact ⟨ch, hmem, by rwa [hc]⟩
    obtain ⟨d, hd⟩ := Option.isSome_iff_exists.mp hfound
    have hfind := List.find?_some hd
    rw [Option.any_eq_true] at hfind
    obtain ⟨c', hc', heq'⟩ := hfind
    rw [hd, h.names hc hc' (ircEq_trans (ircEq_symm heq) heq')]

theorem Indexed.hashFindChannel_eq_none (h : s.Indexed) (hfind : s.hashFindChannel name = none)
    (hc : s.chans ch = some c) : ircEq name c.chname = false := by
  rw [← Bool.not_eq_true]
  intro heq
  rw [h.hashFindChannel_eq_some.mpr ⟨c, hc, heq⟩] at hfind
  cases hfind

theorem chans_destroyChannel (hch : update s.chans ch none ch' = some c) :
    ch' ≠ ch ∧ s.chans ch' = some c := by
  by_cases heq : ch' = ch
  · rw [heq, update_self] at hch
    cases hch
  · rw [update_of_ne heq] at hch
    exact ⟨heq, hch⟩

theorem Indexed.destroyChannel (h : s.Indexed) (ch : Nat) : (s.destroyChannel ch).Indexed := by
  unfold MemberState.destroyChannel
  cases hc : s.chans ch with
  | none => exact h
  | some c =>
    refine ⟨?_, fun he he' => h.names (chans_destroyChannel he).2 (chans_destroyChannel he').2,
      fun {d} hle => ?_⟩
    · refine (h.table.del (k := strhash s.ircdRandomKey c.chname) (c := ch) fun k hk => ?_).congr
        (congrFun (Function.comp_update (Option.map fun c : ChannelData =>
          strhash s.ircdRandomKey c.chname) s.chans ch none))
      rw [hc] at hk
      exact (Option.some.inj hk).symm
    · change update s.chans ch none d = none
      by_cases heq : d = ch
      · rw [heq, update_self]
      · rw [update_of_ne heq]
        exact h.freshChan hle

theorem chans_createChannel {now : Int} (hc : (s.createChannel now name).chans ch = some c) :
    ch = s.nextChan ∧ c = ⟨name, now, Mode.zero, [], [], []⟩ ∨ s.chans ch = some c := by
  change update s.chans s.nextChan _ ch = some c at hc
  by_cases heq : ch = s.nextChan
  · rw [heq, update_self] at hc
    cases hc
    exact .inl ⟨heq, rfl⟩
  · rw [update_of_ne heq] at hc
    exact .inr hc

theorem Indexed.createChannel (h : s.Indexed) (now : Int) (hnone : s.hashFindChannel name = none) :
    (s.createChannel now name).Indexed := by
  refine ⟨?_, fun {ch ch' c c'} hc hc' heq => ?_, fun {ch} hle => ?_⟩
  · refine (h.table.add (k := strhash s.ircdRandomKey name) (c := s.nextChan) ?_).congr
      (congrFun (Function.comp_update (Option.map fun c : ChannelData =>
        strhash s.ircdRandomKey c.chname) s.chans s.nextChan _))
    rw [h.freshChan (Nat.le_refl s.nextChan)]
    rfl
  · rcases chans_createChannel hc with ⟨rfl, rfl⟩ | hc
    · rcases chans_createChannel hc' with ⟨rfl, -⟩ | hc'
      · rfl
      · rw [h.hashFindChannel_eq_none hnone hc'] at heq
        cases heq
    · rcases chans_createChannel hc' with ⟨-, rfl⟩ | hc'
      · have hmiss := h.hashFindChannel_eq_none hnone hc
        rw [ircEq_symm heq] at hmiss
        cases hmiss
      · exact h.names hc hc' heq
  · have hle : s.nextChan + 1 ≤ ch := hle
    change update s.chans s.nextChan _ ch = none
    rw [update_of_ne (Nat.ne_of_gt hle)]
    exact h.freshChan (Nat.le_of_succ_le hle)

theorem setChannel_eq_none_iff (hc : s.chans ch = some c) (d : Nat) :
    (s.setChannel ch c').chans d = none ↔ s.chans d = none := by
  change update s.chans ch (some c') d = none ↔ _
  by_cases heq : d = ch
  · rw [heq, update_self, hc]
    simp
  · rw [update_of_ne heq]

theorem Indexed.setChannel (h : s.Indexed) (hc : s.chans ch = some c)
    (hname : c'.chname = c.chname) : (s.setChannel ch c').Indexed := by
  have hchans : ∀ d, ((s.setChannel ch c').chans d).map ChannelData.chname =
      (s.chans d).map ChannelData.chname := by
    intro d
    change (update s.chans ch (some c') d).map _ = _
    by_cases heq : d = ch
    · rw [heq, update_self, hc, Option.map_some, Option.map_some, hname]
    · rw [update_of_ne heq]
  have hold : ∀ {d e}, (s.setChannel ch c').chans d = some e →
      ∃ e₀, s.chans d = some e₀ ∧ e₀.chname = e.chname := by
    intro d e he
    have hmap := hchans d
    rw [he, Option.map_some, eq_comm, Option.map_eq_some_iff] at hmap
    exact hmap
  refine ⟨h.table.congr fun d => ?_, fun {d d' e e'} he he' heq => ?_,
    fun hle => (setChannel_eq_none_iff hc _).mpr (h.freshChan hle)⟩
  · have hmap := congrArg (Option.map (strhash s.ircdRandomKey)) (hchans d)
    rwa [Option.map_map, Option.map_map] at hmap
  · obtain ⟨e₀, he₀, hsame⟩ := hold he
    obtain ⟨e₁, he₁, hsame'⟩ := hold he'
    rw [← hsame, ← hsame'] at heq
    exact h.names he₀ he₁ heq

/-- The lists are linked, pointers are fresh, names are told apart, and channels
without members satisfy `E`. -/
structure Sound (s : MemberState) (E : Nat → ChannelData → Prop) : Prop extends s.Linked where
  registered : ∀ {m x}, s.member m = some x →
    (s.clients x.client).isClient = true ∨ (s.clients x.client).isServer = true
  names : ∀ {ch ch' c c'}, s.chans ch = some c → s.chans ch' = some c' →
    ircEq c.chname c'.chname = true → ch = ch'
  freshMember : ∀ {m}, s.nextMember ≤ m → s.member m = none
  freshChan : ∀ {ch}, s.nextChan ≤ ch → s.chans ch = none
  freshClient : ∀ {c}, s.nextClient ≤ c → s.alive c = false
  pending : ∀ {ch c}, s.chans ch = some c → s.members ch = [] → E ch c

theorem Sound.indexed (h : s.Sound E) : s.Indexed := ⟨h.table, h.names, h.freshChan⟩

theorem Sound.mono (h : s.Sound E)
    (hE : ∀ {ch c}, s.chans ch = some c → s.members ch = [] → E ch c → E' ch c) : s.Sound E' :=
  { h with pending := fun hc hnil => hE hc hnil (h.pending hc hnil) }

theorem Sound.allFilled (h : s.Sound E) (hE : ∀ {ch c}, s.members ch = [] → ¬E ch c) :
    s.Sound fun _ _ => False :=
  h.mono fun _ hnil => hE hnil

theorem Sound.consistent (h : s.Sound fun _ _ => False) : s.Consistent := by
  have hfull : ∀ ch, s.chans ch ≠ none → s.members ch ≠ [] := by
    intro ch hch hnil
    obtain ⟨c, hc⟩ := Option.ne_none_iff_exists'.mp hch
    exact h.pending hc hnil
  refine ⟨h.toLinked, fun k ch hmem => hfull ch fun hnone => ?_, fun ch hmem =>
    hfull ch (h.global.mp hmem)⟩
  have hplace := h.table.mem.mp hmem
  rw [hnone] at hplace
  cases hplace

theorem Sound.targets (h : s.Sound E) (targets : List Target) (join0 : Option Nat) :
    Sound { s with targets := targets, join0 := join0 } E :=
  ⟨⟨h.members, h.channel, h.locmembers, h.once, h.ends, h.table, h.globalNodup, h.global⟩,
    h.registered, h.names, h.freshMember, h.freshChan, h.freshClient, h.pending⟩

/-! ### What is found -/

theorem Linked.mem_members (h : s.Linked) : m ∈ s.members ch ↔ ∃ x, s.member m = some x ∧
    x.chptr = ch := by
  rw [h.members.mem, Option.map_eq_some_iff]

theorem Linked.mem_channel (h : s.Linked) :
    m ∈ s.channel who ↔ ∃ x, s.member m = some x ∧ x.client = who := by
  rw [h.channel.mem, Option.map_eq_some_iff]

theorem findChannelLink_some (h : s.Linked) (hfind : s.findChannelLink who ch = some m) :
    ∃ x, s.member m = some x ∧ x.client = who ∧ x.chptr = ch := by
  unfold findChannelLink at hfind
  split at hfind
  · obtain ⟨x, hx, hclient⟩ := h.mem_channel.mp (List.mem_of_find?_eq_some hfind)
    have hfound := List.find?_some hfind
    simp only [hx, Option.any_some, beq_iff_eq] at hfound
    exact ⟨x, hx, hclient, hfound⟩
  · cases hfind

theorem findChannelLink_none (h : s.Linked) (hclient : (s.clients who).isClient = true)
    (hfind : s.findChannelLink who ch = none) (hx : s.member m = some x) (hwho : x.client = who) :
    x.chptr ≠ ch := by
  rw [findChannelLink, if_pos hclient, List.find?_eq_none] at hfind
  have hmiss := hfind m (h.mem_channel.mpr ⟨x, hx, hwho⟩)
  simpa only [hx, Option.any_some, beq_iff_eq] using hmiss

theorem members_ne_nil_of_link (h : s.Linked) (hfind : (s.findChannelLink who ch).isSome = true) :
    s.members ch ≠ [] := by
  obtain ⟨m, hm⟩ := Option.isSome_iff_exists.mp hfind
  obtain ⟨x, hx, -, hch⟩ := findChannelLink_some h hm
  exact List.ne_nil_of_mem (h.mem_members.mpr ⟨x, hx, hch⟩)

/-! ### Memberships come and go -/

theorem apply_update_member (g : Option Member → Option Nat) (m : Nat) (v : Option Member) (n : Nat)
    :
    g (update s.member m v n) = update (fun n => g (s.member n)) m (g v) n :=
  congrFun (Function.comp_update g s.member m v) n

theorem Sound.addUserToChannel (h : s.Sound E) (flags : Finset ChFlag) (hch : s.chans ch ≠ none)
    (halive : s.alive who = true)
    (hreg : (s.clients who).isClient = true ∨ (s.clients who).isServer = true)
    (hnew : ∀ {m x}, s.member m = some x → x.client = who → x.chptr ≠ ch) :
    (s.addUserToChannel ch who flags).Sound fun ch' c => ch' ≠ ch ∧ E ch' c := by
  have hfresh := h.freshMember (Nat.le_refl s.nextMember)
  have hcases : ∀ {m y}, (s.addUserToChannel ch who flags).member m = some y →
      m = s.nextMember ∧ y = ⟨who, ch, flags⟩ ∨ m ≠ s.nextMember ∧ s.member m = some y := by
    intro m y hy
    change update s.member s.nextMember (some ⟨who, ch, flags⟩) m = some y at hy
    by_cases hm : m = s.nextMember
    · subst hm
      rw [update_self] at hy
      cases hy
      exact .inl ⟨rfl, rfl⟩
    · rw [update_of_ne hm] at hy
      exact .inr ⟨hm, hy⟩
  refine ⟨⟨?_, ?_, ?_, ?_, ?_, h.table, h.globalNodup, h.global⟩, ?_, h.names, ?_, h.freshChan,
    h.freshClient, ?_⟩
  · refine (h.members.add (k := ch) (c := s.nextMember) ?_).congr
      (apply_update_member (Option.map Member.chptr) s.nextMember _)
    rw [hfresh]
    rfl
  · refine (h.channel.add (k := who) (c := s.nextMember) ?_).congr
      (apply_update_member (Option.map Member.client) s.nextMember _)
    rw [hfresh]
    rfl
  · have hnone : s.localPlace s.nextMember = none := by
      rw [localPlace, hfresh]
      rfl
    have hplace := apply_update_member (s := s) (fun o => o.bind fun ms =>
      if (s.clients ms.client).myConnect then some ms.chptr else none) s.nextMember
      (some ⟨who, ch, flags⟩)
    change Files (if (s.clients who).myConnect then _ else _) _
    by_cases hlocal : (s.clients who).myConnect = true
    · rw [if_pos hlocal]
      refine (h.locmembers.add (k := ch) hnone).congr fun n => (hplace n).trans ?_
      rw [Option.bind_some, if_pos hlocal]
      rfl
    · rw [if_neg hlocal]
      refine (h.locmembers.absent hnone).congr fun n => (hplace n).trans ?_
      rw [Option.bind_some, if_neg hlocal]
      rfl
  · intro m n x y hx hy hclient hchptr
    rcases hcases hx with ⟨rfl, rfl⟩ | ⟨-, hx⟩
    · rcases hcases hy with ⟨rfl, -⟩ | ⟨-, hy⟩
      · rfl
      · exact absurd hchptr.symm (hnew hy hclient.symm)
    · rcases hcases hy with ⟨-, rfl⟩ | ⟨-, hy⟩
      · exact absurd hchptr (hnew hx hclient)
      · exact h.once hx hy hclient hchptr
  · intro m x hx
    rcases hcases hx with ⟨-, rfl⟩ | ⟨-, hx⟩
    · exact ⟨halive, hch⟩
    · exact h.ends hx
  · intro m x hx
    rcases hcases hx with ⟨-, rfl⟩ | ⟨-, hx⟩
    · exact hreg
    · exact h.registered hx
  · intro m hm
    have hm : s.nextMember + 1 ≤ m := hm
    change update s.member s.nextMember _ m = none
    rw [update_of_ne (Nat.ne_of_gt hm)]
    exact h.freshMember (Nat.le_of_succ_le hm)
  · intro ch' c hc hnil
    have hne : ch' ≠ ch := by
      rintro rfl
      change Buckets.add s.members ch' s.nextMember ch' = [] at hnil
      rw [Buckets.add, update_self] at hnil
      cases hnil
    refine ⟨hne, h.pending hc ?_⟩
    change Buckets.add s.members ch s.nextMember ch' = [] at hnil
    rwa [Buckets.add, update_of_ne hne] at hnil

theorem Sound.unlinkMember (h : s.Sound E) (hm : s.member m = some x) :
    (s.unlinkMember m x).Sound fun ch c => ch = x.chptr ∨ E ch c := by
  have hcases : ∀ {n y}, (s.unlinkMember m x).member n = some y → s.member n = some y := by
    intro n y hy
    change update s.member m none n = some y at hy
    by_cases hn : n = m
    · subst hn
      rw [update_self] at hy
      cases hy
    · rwa [update_of_ne hn] at hy
  refine ⟨⟨?_, ?_, ?_, ?_, ?_, h.table, h.globalNodup, h.global⟩, ?_, h.names, ?_, h.freshChan,
    h.freshClient, ?_⟩
  · refine (h.members.del (k := x.chptr) (c := m) fun k hk => ?_).congr
      (apply_update_member (Option.map Member.chptr) m none)
    rw [hm] at hk
    exact (Option.some.inj hk).symm
  · refine (h.channel.del (k := x.client) (c := m) fun k hk => ?_).congr
      (apply_update_member (Option.map Member.client) m none)
    rw [hm] at hk
    exact (Option.some.inj hk).symm
  · have hplace := apply_update_member (s := s) (fun o => o.bind fun ms =>
      if (s.clients ms.client).myConnect then some ms.chptr else none) m none
    change Files (if (s.clients x.client).myConnect then _ else _) _
    by_cases hlocal : (s.clients x.client).myConnect = true
    · rw [if_pos hlocal]
      refine (h.locmembers.del (k := x.chptr) (c := m) fun k hk => ?_).congr hplace
      rw [localPlace, hm, Option.bind_some, if_pos hlocal] at hk
      exact (Option.some.inj hk).symm
    · rw [if_neg hlocal]
      refine (h.locmembers.absent (c := m) ?_).congr hplace
      rw [localPlace, hm, Option.bind_some, if_neg hlocal]
  · exact fun hx hy => h.once (hcases hx) (hcases hy)
  · exact fun hy => h.ends (hcases hy)
  · exact fun hy => h.registered (hcases hy)
  · intro n hn
    change update s.member m none n = none
    by_cases heq : n = m
    · rw [heq, update_self]
    · rw [update_of_ne heq]
      exact h.freshMember hn
  · intro ch c hc hnil
    by_cases heq : ch = x.chptr
    · exact .inl heq
    · change Buckets.del s.members x.chptr m ch = [] at hnil
      rw [Buckets.del, update_of_ne heq] at hnil
      exact .inr (h.pending hc hnil)

/-! ### Channels come and go -/

theorem Sound.destroyChannel (h : s.Sound E) (hnil : s.members ch = []) :
    (s.destroyChannel ch).Sound fun ch' c => ch' ≠ ch ∧ E ch' c := by
  have hindexed := h.indexed.destroyChannel ch
  unfold MemberState.destroyChannel at hindexed ⊢
  cases hc : s.chans ch with
  | none =>
    refine h.mono fun hc' _ hE => ⟨?_, hE⟩
    rintro rfl
    rw [hc] at hc'
    cases hc'
  | some c =>
    rw [hc] at hindexed
    refine ⟨⟨h.members, h.channel, h.locmembers, h.once, ?_, hindexed.table,
      h.globalNodup.erase ch, ?_⟩, h.registered, hindexed.names, h.freshMember,
      hindexed.freshChan, h.freshClient, fun hc' hnil' => ?_⟩
    · intro m x hx
      obtain ⟨halive, hch⟩ := h.ends hx
      have hne : x.chptr ≠ ch := by
        rintro rfl
        have hmem := h.mem_members.mpr ⟨x, hx, rfl⟩
        rw [hnil] at hmem
        exact List.not_mem_nil hmem
      refine ⟨halive, ?_⟩
      change update s.chans ch none x.chptr ≠ none
      rwa [update_of_ne hne]
    · intro ch'
      change ch' ∈ s.globalChannelList.erase ch ↔ update s.chans ch none ch' ≠ none
      rw [h.globalNodup.mem_erase_iff, h.global]
      by_cases heq : ch' = ch
      · simp [heq]
      · simp [heq]
    · obtain ⟨hne, hold⟩ := chans_destroyChannel hc'
      exact ⟨hne, h.pending hold hnil'⟩

theorem Sound.removeUserFromChannel (h : s.Sound E) (m : Nat) :
    (s.removeUserFromChannel m).Sound E := by
  unfold MemberState.removeUserFromChannel
  split
  · exact h
  · rename_i x hx
    have hout := h.unlinkMember hx
    simp only
    split
    · rename_i hnil
      exact (hout.destroyChannel hnil).mono fun _ _ hE => hE.2.resolve_left hE.1
    · rename_i hne
      refine hout.mono fun _ hnil hE => hE.resolve_left ?_
      rintro rfl
      exact hne hnil

theorem Sound.createChannel (h : s.Sound E) (now : Int) (hnone : s.hashFindChannel name = none) :
    (s.createChannel now name).Sound fun ch c =>
      E ch c ∨ ch = s.nextChan ∧ c = ⟨name, now, Mode.zero, [], [], []⟩ := by
  have hfresh := h.freshChan (Nat.le_refl s.nextChan)
  have hindexed := h.indexed.createChannel now hnone
  refine ⟨⟨h.members, h.channel, h.locmembers, h.once, ?_, hindexed.table, ?_, ?_⟩, h.registered,
    hindexed.names, h.freshMember, hindexed.freshChan, h.freshClient, ?_⟩
  · intro m x hx
    obtain ⟨halive, hch⟩ := h.ends hx
    have hne : x.chptr ≠ s.nextChan := by
      rintro heq
      exact hch (heq ▸ hfresh)
    refine ⟨halive, ?_⟩
    change update s.chans s.nextChan _ x.chptr ≠ none
    rwa [update_of_ne hne]
  · refine List.nodup_cons.mpr ⟨?_, h.globalNodup⟩
    rw [h.global]
    exact fun hne => hne hfresh
  · intro ch
    change ch ∈ s.nextChan :: s.globalChannelList ↔ update s.chans s.nextChan _ ch ≠ none
    rw [List.mem_cons, h.global]
    by_cases heq : ch = s.nextChan
    · simp [heq]
    · simp [heq]
  · intro ch c hc hnil
    rcases chans_createChannel hc with hnew | hc
    · exact .inr hnew
    · exact .inl (h.pending hc hnil)

theorem Sound.setChannel (h : s.Sound E) (hc : s.chans ch = some c) (hname : c'.chname = c.chname)
    (hE : s.members ch = [] → E ch c') : (s.setChannel ch c').Sound E := by
  have hindexed := h.indexed.setChannel hc hname
  refine ⟨⟨h.members, h.channel, h.locmembers, h.once, fun hx => ⟨(h.ends hx).1, ?_⟩,
    hindexed.table, h.globalNodup, fun {d} => ?_⟩, h.registered, hindexed.names, h.freshMember,
    hindexed.freshChan, h.freshClient, fun {d e} he hnil => ?_⟩
  · rw [ne_eq, setChannel_eq_none_iff hc]
    exact (h.ends hx).2
  · rw [ne_eq, setChannel_eq_none_iff hc]
    exact h.global
  · change update s.chans ch (some c') d = some e at he
    by_cases heq : d = ch
    · rw [heq, update_self] at he
      cases he
      exact heq ▸ hE (heq ▸ hnil)
    · rw [update_of_ne heq] at he
      exact h.pending he hnil

theorem Sound.reflag (h : s.Sound E) {member : Nat → Option Member}
    (hsame : ∀ m, (member m).map (fun x => (x.client, x.chptr)) =
      (s.member m).map fun x => (x.client, x.chptr)) :
    Sound { s with member := member } E := by
  have hx : ∀ {m x}, member m = some x →
      ∃ x₀, s.member m = some x₀ ∧ x₀.client = x.client ∧ x₀.chptr = x.chptr := by
    intro m x hx
    have hmap := hsame m
    rw [hx, Option.map_some, eq_comm, Option.map_eq_some_iff] at hmap
    obtain ⟨x₀, hx₀, heq⟩ := hmap
    exact ⟨x₀, hx₀, (Prod.mk.inj heq).1, (Prod.mk.inj heq).2⟩
  have hcongr : ∀ (g : Cid × Nat → Option Nat) (f : Member → Option Nat),
      (∀ x, f x = g (x.client, x.chptr)) → ∀ m, (member m).bind f = (s.member m).bind f := by
    intro g f hf m
    have hbind : ∀ o : Option Member, o.bind f = (o.map fun x => (x.client, x.chptr)).bind g := by
      intro o
      cases o with
      | none => rfl
      | some x => exact hf x
    rw [hbind, hbind, hsame]
  refine ⟨⟨?_, ?_, ?_, ?_, ?_, h.table, h.globalNodup, h.global⟩, ?_, h.names, ?_, h.freshChan,
    h.freshClient, h.pending⟩
  · refine h.members.congr fun m => ?_
    rw [Option.map_eq_bind, Option.map_eq_bind]
    exact hcongr (fun p => some p.2) _ (fun _ => rfl) m
  · refine h.channel.congr fun m => ?_
    rw [Option.map_eq_bind, Option.map_eq_bind]
    exact hcongr (fun p => some p.1) _ (fun _ => rfl) m
  · exact h.locmembers.congr
      (hcongr (fun p => if (s.clients p.1).myConnect then some p.2 else none) _ fun _ => rfl)
  · intro m n x y hm hn hclient hchptr
    obtain ⟨x₀, hx₀, hc₀, hp₀⟩ := hx hm
    obtain ⟨y₀, hy₀, hc₁, hp₁⟩ := hx hn
    exact h.once hx₀ hy₀ (by rw [hc₀, hc₁, hclient]) (by rw [hp₀, hp₁, hchptr])
  · intro m x hm
    obtain ⟨x₀, hx₀, hclient, hchptr⟩ := hx hm
    rw [← hclient, ← hchptr]
    exact h.ends hx₀
  · intro m x hm
    obtain ⟨x₀, hx₀, hclient, -⟩ := hx hm
    have hreg := h.registered hx₀
    rwa [hclient] at hreg
  · intro m hle
    have hmap := hsame m
    rwa [h.freshMember hle, Option.map_none, Option.map_eq_none_iff] at hmap

theorem Sound.removeOurModes (h : s.Sound E) (ch : Nat) : (s.removeOurModes ch).Sound E := by
  refine h.reflag fun m => ?_
  rw [Option.map_map]
  congr 1
  funext x
  simp only [Function.comp]
  split
  · rfl
  · rfl

end MemberState

end Ircd
