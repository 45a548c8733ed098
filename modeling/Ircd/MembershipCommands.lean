import Ircd.MembershipInvariant
import Ircd.Lib.Run

/-!
The commands that take clients off channels, and the JOIN and SJOIN of a server:
each keeps the lists sound, under what is asked of it.
-/

namespace Ircd

open Function

namespace MemberState

variable {s : MemberState} {env : MemberEnv} {E : Nat → ChannelData → Prop} {ch m : Nat}
  {source who : Cid} {c : ChannelData} {x : Member} {name : CStr}

/-! ### Leaving -/

theorem removeUserFromChannel_frame (s : MemberState) (m : Nat) :
    (s.removeUserFromChannel m).clients = s.clients ∧ (s.removeUserFromChannel m).alive = s.alive ∧
      (s.removeUserFromChannel m).targets = s.targets := by
  have hdestroy : ∀ (s : MemberState) ch, (s.destroyChannel ch).clients = s.clients ∧
      (s.destroyChannel ch).alive = s.alive ∧ (s.destroyChannel ch).targets = s.targets := by
    intro s ch
    unfold destroyChannel
    split
    · exact ⟨rfl, rfl, rfl⟩
    · exact ⟨rfl, rfl, rfl⟩
  unfold removeUserFromChannel
  split
  · exact ⟨rfl, rfl, rfl⟩
  · rename_i x hx
    simp only
    split
    · exact hdestroy (s.unlinkMember m x) x.chptr
    · exact ⟨rfl, rfl, rfl⟩

theorem Sound.doJoin0 (h : s.Sound E) (source : Cid) :
    (s.doJoin0 source).Sound E ∧ (s.doJoin0 source).clients = s.clients ∧
      (s.doJoin0 source).alive = s.alive ∧ (s.doJoin0 source).targets = s.targets := by
  have hstep : ∀ (s' : MemberState) (m : Nat), (s'.Sound E ∧ s'.clients = s.clients ∧
      s'.alive = s.alive ∧ s'.targets = s.targets) → True →
      (leaveIfBefore0 s' m).Sound E ∧ (leaveIfBefore0 s' m).clients = s.clients ∧
        (leaveIfBefore0 s' m).alive = s.alive ∧ (leaveIfBefore0 s' m).targets = s.targets := by
    rintro s' m ⟨hsound, hclients, halive, htargets⟩ -
    unfold leaveIfBefore0
    split
    · exact ⟨hsound, hclients, halive, htargets⟩
    · split
      · obtain ⟨hc, ha, ht⟩ := removeUserFromChannel_frame s' m
        exact ⟨hsound.removeUserFromChannel m, hc.trans hclients, ha.trans halive,
          ht.trans htargets⟩
      · exact ⟨hsound, hclients, halive, htargets⟩
  exact Run.inv_exec hstep ⟨h, rfl, rfl, rfl⟩ (Run.guarded_true _ _)

theorem Sound.partOneClient (h : s.Sound E) (source : Cid) (name : CStr) :
    (s.partOneClient source name).Sound E := by
  unfold MemberState.partOneClient
  split
  · exact h
  · split
    · exact h
    · exact h.removeUserFromChannel _

theorem Sound.mPart (h : s.Sound E) (source : Cid) (parv : List CStr) : (s.mPart source parv).Sound
    E := by
  unfold MemberState.mPart
  split
  · exact h
  · split
    · exact h
    · have hstep : ∀ (s' : MemberState) (name : CStr), s'.Sound E → True →
          (s'.partOneClient source name).Sound E := fun s' name hs _ => hs.partOneClient source name
      exact Run.inv_exec hstep h (Run.guarded_true _ _)

theorem Sound.mKick (h : s.Sound E) (env : MemberEnv) (client source : Cid) (parv : List CStr) :
    (s.mKick env client source parv).Sound E := by
  unfold MemberState.mKick
  split
  · split
    · exact h
    · split
      · exact h
      · split
        · exact h
        · split
          · exact h
          · split
            · exact h
            · split
              · exact h
              · split
                · exact h
                · exact h.removeUserFromChannel _
  · exact h

theorem channel_removeUserFromChannel (hx : s.member m = some x) :
    (s.removeUserFromChannel m).channel x.client = (s.channel x.client).erase m := by
  have hunlink : (s.unlinkMember m x).channel x.client = (s.channel x.client).erase m := by
    change Buckets.del s.channel x.client m x.client = _
    rw [Buckets.del, update_self]
  rw [removeUserFromChannel, hx]
  simp only
  split
  · rw [← hunlink, destroyChannel]
    split
    · rfl
    · rfl
  · exact hunlink

theorem Sound.leaveAll (h : s.Sound E) {l : List Nat} (hl : s.channel who = l) :
    (l.foldl (fun s m => s.removeUserFromChannel m) s).Sound E ∧
      (l.foldl (fun s m => s.removeUserFromChannel m) s).channel who = [] ∧
      (l.foldl (fun s m => s.removeUserFromChannel m) s).clients = s.clients ∧
      (l.foldl (fun s m => s.removeUserFromChannel m) s).alive = s.alive := by
  induction l generalizing s with
  | nil => exact ⟨h, hl, rfl, rfl⟩
  | cons m l ih =>
    obtain ⟨x, hx, rfl⟩ := h.mem_channel.mp (hl ▸ List.mem_cons_self)
    have hrest : (s.removeUserFromChannel m).channel x.client = l := by
      rw [channel_removeUserFromChannel hx, hl, List.erase_cons_head]
    obtain ⟨hc, ha, -⟩ := removeUserFromChannel_frame s m
    obtain ⟨hsound, hnil, hclients, halive⟩ := ih (h.removeUserFromChannel m) hrest
    exact ⟨hsound, hnil, hclients.trans hc, halive.trans ha⟩

theorem Sound.bury (h : s.Sound E) (hnil : s.channel who = []) :
    Sound { s with alive := update s.alive who false } E := by
  refine ⟨⟨h.members, h.channel, h.locmembers, h.once, fun {m x} hx => ?_, h.table, h.globalNodup,
    h.global⟩, h.registered, h.names, h.freshMember, h.freshChan, fun {c} hc => ?_, h.pending⟩
  · have hne : x.client ≠ who := by
      rintro rfl
      have hmem := h.mem_channel.mpr ⟨x, hx, rfl⟩
      rw [hnil] at hmem
      exact List.not_mem_nil hmem
    refine ⟨?_, (h.ends hx).2⟩
    change update s.alive who false x.client = true
    rw [update_of_ne hne]
    exact (h.ends hx).1
  · change update s.alive who false c = false
    by_cases heq : c = who
    · rw [heq, update_self]
    · rw [update_of_ne heq]
      exact h.freshClient hc

theorem Sound.exitOneClient (h : s.Sound E) (hkeeps : s.Keeps (.exit who)) :
    (s.exitOneClient who).Sound E := by
  unfold MemberState.exitOneClient
  split
  · obtain ⟨hsound, hnil, -, -⟩ := h.leaveAll rfl
    exact hsound.bury hnil
  · rename_i hclient
    refine h.bury (List.eq_nil_iff_forall_not_mem.mpr fun m hm => ?_)
    obtain ⟨x, hx, rfl⟩ := h.mem_channel.mp hm
    have hserver := (h.registered hx).resolve_left hclient
    have hnil : s.channel x.client = [] := hkeeps hserver
    rw [hnil] at hm
    exact List.not_mem_nil hm

/-! ### JOIN and SJOIN of a server -/

theorem Sound.getOrCreateChannel (h : s.Sound fun _ _ => False) {now : Int} {s' : MemberState}
    {isnew : Bool} (hsome : s.getOrCreateChannel now name = some (s', ch, isnew)) :
    s'.Sound (fun ch' _ => isnew = true ∧ ch' = ch) ∧ s'.clients = s.clients ∧ s'.alive = s.alive ∧
      s'.member = s.member ∧ (isnew = true → ∀ {m x}, s.member m = some x → x.chptr ≠ ch) ∧
      (isnew = false → s.hashFindChannel name = some ch) ∧ s'.chans ch ≠ none := by
  unfold MemberState.getOrCreateChannel at hsome
  split at hsome
  · cases hsome
  · split at hsome
    · rename_i found hfound
      cases hsome
      obtain ⟨c, hc, -⟩ := h.indexed.hashFindChannel_eq_some.mp hfound
      refine ⟨h.mono fun _ _ hE => hE.elim, rfl, rfl, rfl, fun hnew => ?_, fun _ => hfound, ?_⟩
      · cases hnew
      · rw [hc]
        exact Option.some_ne_none c
    · rename_i hnone
      cases hsome
      refine ⟨(h.createChannel now hnone).mono fun _ _ hE => ⟨rfl, (hE.resolve_left id).1⟩, rfl,
        rfl, rfl,
        fun _ m x hx => ?_, fun hnew => ?_, ?_⟩
      · rintro heq
        exact (h.ends hx).2 (heq ▸ h.freshChan (Nat.le_refl _))
      · cases hnew
      · change update s.chans s.nextChan _ s.nextChan ≠ none
        rw [update_self]
        exact Option.some_ne_none _

theorem Sound.applyStamps {F : Nat → Prop} (h : s.Sound fun ch' _ => F ch')
    (hc : s.chans ch = some c)
    (rule : TsRule) (mode : Mode) :
    (s.applyStamps ch c rule mode).Sound (fun ch' _ => F ch') ∧
      (s.applyStamps ch c rule mode).clients = s.clients ∧
      (s.applyStamps ch c rule mode).alive = s.alive ∧
      (s.applyStamps ch c rule mode).chans ch ≠ none ∧
      (s.applyStamps ch c rule mode).channel = s.channel ∧
      ∀ {m x}, (s.applyStamps ch c rule mode).member m = some x →
        ∃ x₀, s.member m = some x₀ ∧ x₀.client = x.client ∧ x₀.chptr = x.chptr := by
  have hset : (s.setChannel ch { c with
      channelts := rule.channelts, mode := keptMode rule mode c.mode
        }).Sound (fun ch' _ => F ch') :=
    h.setChannel hc rfl (h.pending hc)
  have hsome : update s.chans ch (some { c with
      channelts := rule.channelts, mode := keptMode rule mode c.mode }) ch ≠ none := by
    rw [update_self]
    exact Option.some_ne_none _
  unfold MemberState.applyStamps
  simp only
  split
  · exact ⟨hset, rfl, rfl, hsome, rfl, fun {m x} hx => ⟨x, hx, rfl, rfl⟩⟩
  · refine ⟨hset.removeOurModes ch, rfl, rfl, hsome, rfl, fun {m x} hx => ?_⟩
    obtain ⟨x₀, hx₀, rfl⟩ := Option.map_eq_some_iff.mp hx
    refine ⟨x₀, hx₀, ?_, ?_⟩
    · split
      · rfl
      · rfl
    · split
      · rfl
      · rfl

theorem Sound.msJoin (h : s.Sound fun _ _ => False) (env : MemberEnv) {parv : List CStr}
    (halive : s.alive source = true)
    (hreg : (s.clients source).isClient = true ∨ (s.clients source).isServer = true)
    (hkeeps : s.Keeps (.remoteJoin env source parv)) :
    (s.msJoin env source parv).Sound fun _ _ => False := by
  unfold MemberState.msJoin
  split
  · exact (h.doJoin0 source).1
  · rename_i ts chname modes rest
    split
    · exact h
    · split
      · exact h
      · split
        · exact h
        · rename_i mode _ _ s' ch isnew hget
          obtain ⟨hs, hclients, halive', hmember, hnew, hfound, hch⟩ := h.getOrCreateChannel hget
          split
          · exact absurd ‹_› hch
          · rename_i c hc
            simp only
            obtain ⟨hst, hclients', halive'', hch', -, hback⟩ := hs.applyStamps hc
              (tsRule isnew (effectiveTs s'.cf (strtol ts) c.channelts) c.channelts) mode
            split
            · rename_i hlink
              refine hst.mono fun _ hnil hE => ?_
              obtain ⟨-, rfl⟩ := hE
              exact members_ne_nil_of_link hst.toLinked hlink hnil
            · rename_i hlink
              rw [← hclients, ← hclients'] at hreg
              rw [← halive', ← halive''] at halive
              refine (hst.addUserToChannel ∅ hch' halive hreg fun {m x} hx hwho => ?_).mono
                fun _ _ hE => hE.1 hE.2.2
              rcases hreg with hclient | hserver
              · exact findChannelLink_none hst.toLinked hclient (by simpa using hlink) hx hwho
              · obtain ⟨x₀, hx₀, hclient₀, hchptr₀⟩ := hback hx
                rw [hmember] at hx₀
                rintro rfl
                cases isnew with
                | true => exact hnew rfl hx₀ hchptr₀
                | false =>
                  rw [hclients', hclients] at hserver
                  exact hkeeps hserver chname rfl _ (hfound rfl) m
                    (h.mem_members.mpr ⟨x₀, hx₀, hchptr₀⟩) x₀ hx₀ (hclient₀.trans hwho)
  · exact h

theorem findPerson_alive {client : Client} {name : CStr} {who : Cid}
    (h : findPerson (s.dir env) client name = some who) :
    s.alive who = true ∧ (s.clients who).isClient = true := by
  have hfilter : ∀ o : Option Cid, o.filter s.alive = some who → s.alive who = true :=
    fun o ho => (Option.filter_eq_some_iff.mp ho).2
  unfold findPerson at h
  obtain ⟨hfound, hclient⟩ := Option.filter_eq_some_iff.mp h
  refine ⟨?_, hclient⟩
  split at hfound
  · exact hfilter _ (Option.filter_eq_some_iff.mp hfound).1
  · exact hfilter _ hfound

theorem wordTarget_alive {client : Cid} {word : CStr} {target : Cid}
    (h : wordTarget (s.dir env) client word = some target) :
    s.alive target = true ∧ (s.clients target).isClient = true := by
  unfold wordTarget at h
  obtain ⟨hchase, hwhere⟩ := Option.filter_eq_some_iff.mp h
  rw [Bool.and_eq_true] at hwhere
  refine ⟨?_, hwhere.2⟩
  have hfilter : ∀ o : Option Cid, o.filter s.alive = some target → s.alive target = true :=
    fun o ho => (Option.filter_eq_some_iff.mp ho).2
  unfold findChasing at hchase
  split at hchase
  · rename_i who hperson
    cases hchase
    exact (findPerson_alive hperson).1
  · split at hchase
    · cases hchase
    · exact hfilter _ hchase

theorem Sound.sjoinNick {F : Nat → Prop} (h : s.Sound fun ch' _ => F ch') (hch : s.chans ch ≠ none)
    (env : MemberEnv) (client : Cid) (keep : Bool) (word : CStr) :
    (s.sjoinNick env client ch keep word).Sound (fun ch' _ => F ch') ∧
      (s.sjoinNick env client ch keep word).chans = s.chans := by
  unfold MemberState.sjoinNick
  split
  · exact ⟨h, rfl⟩
  · rename_i target hword
    obtain ⟨halive, hclient⟩ := wordTarget_alive hword
    split
    · exact ⟨h, rfl⟩
    · rename_i hlink
      refine ⟨(h.addUserToChannel _ hch halive (.inl hclient) fun {m x} hx hwho => ?_).mono
        fun _ _ hE => hE.2, rfl⟩
      exact findChannelLink_none h.toLinked hclient (by simpa using hlink) hx hwho

theorem Sound.clearBanLists {F : Nat → Prop} (h : s.Sound fun ch' _ => F ch') (ch : Nat) :
    (s.clearBanLists ch).Sound fun ch' _ => F ch' := by
  unfold MemberState.clearBanLists
  split
  · exact h
  · rename_i c hc
    exact h.setChannel hc rfl (h.pending hc)

theorem Sound.msSjoin (h : s.Sound fun _ _ => False) (env : MemberEnv) (client source : Cid)
    (parv : List CStr) : (s.msSjoin env client source parv).Sound fun _ _ => False := by
  unfold MemberState.msSjoin
  split
  · exact h
  · split
    · exact h
    · rename_i args _ _ s' ch isnew hget
      obtain ⟨hs, -, -, -, -, -, hch⟩ := h.getOrCreateChannel hget
      split
      · exact absurd ‹_› hch
      · rename_i c hc
        simp only
        obtain ⟨hst, -, -, hch', -, -⟩ := hs.applyStamps hc
          (tsRule isnew (effectiveTs s'.cf args.newts c.channelts) c.channelts) args.mode
        have hstep : ∀ (s'' : MemberState) (word : CStr),
            (s''.Sound (fun ch' _ => isnew = true ∧ ch' = ch) ∧ s''.chans ch ≠ none) → True →
            (s''.sjoinNick env client ch
              (tsRule isnew (effectiveTs s'.cf args.newts c.channelts) c.channelts).keepNewModes
              word).Sound (fun ch' _ => isnew = true ∧ ch' = ch) ∧
            (s''.sjoinNick env client ch
              (tsRule isnew (effectiveTs s'.cf args.newts c.channelts) c.channelts).keepNewModes
              word).chans ch ≠ none := by
          rintro s'' word ⟨hsound, hsome⟩ -
          obtain ⟨hnick, hchans⟩ := hsound.sjoinNick hsome env client
            (tsRule isnew (effectiveTs s'.cf args.newts c.channelts) c.channelts).keepNewModes word
          exact ⟨hnick, hchans ▸ hsome⟩
        have hloop := (Run.inv_exec hstep ⟨hst, hch'⟩ (Run.guarded_true _ (nickWords args.nicks))).1
        split
        · rename_i hempty
          exact (hloop.destroyChannel hempty.1).mono fun _ _ hE => hE.1 hE.2.2
        · rename_i hempty
          have hfull := hloop.allFilled fun {ch' _} hnil hE =>
            hempty ⟨hE.2 ▸ hnil, hE.1⟩
          split
          · exact Sound.clearBanLists (F := fun _ => False) hfull ch
          · exact hfull

end MemberState

end Ircd
