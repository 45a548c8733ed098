import Ircd.Lib.Stamped
import Ircd.Sjoin

/-!
The modes a channel ends up with after any number of bursts: the least time
stamp wins, and the modes that come with it are joined.
-/

namespace Ircd

/-! ### The lattice of modes -/

/-- Modes are compared flag set by flag set, limit by limit and key by key. -/
instance : PartialOrder Mode where
  le a b := a.mode ⊆ b.mode ∧ a.limit ≤ b.limit ∧ a.key ≤ b.key
  le_refl a := ⟨subset_rfl, le_rfl, le_rfl⟩
  le_trans a b c hab hbc :=
    ⟨hab.1.trans hbc.1, hab.2.1.trans hbc.2.1, hab.2.2.trans hbc.2.2⟩
  le_antisymm a b hab hba := by
    cases a
    cases b
    simp only [Mode.mk.injEq]
    exact ⟨hab.1.antisymm hba.1, hab.2.1.antisymm hba.2.1, hab.2.2.antisymm hba.2.2⟩

/-- The merge of two sets of modes: the union of the flags, the larger limit and
the `strcmp` greater key. -/
instance : SemilatticeSup Mode where
  sup a b := ⟨a.mode ∪ b.mode, max a.limit b.limit, max a.key b.key⟩
  le_sup_left _ _ := ⟨Finset.subset_union_left, le_max_left _ _, le_max_left _ _⟩
  le_sup_right _ _ := ⟨Finset.subset_union_right, le_max_right _ _, le_max_right _ _⟩
  sup_le _ _ _ hac hbc :=
    ⟨Finset.union_subset hac.1 hbc.1, max_le hac.2.1 hbc.2.1, max_le hac.2.2 hbc.2.2⟩

theorem key_nil_le (key : CStr) : [] ≤ key := by
  cases key with
  | nil => exact le_rfl
  | cons c s => exact le_of_lt List.Lex.nil

/-- No modes are below all others. -/
instance : OrderBot Mode where
  bot := Mode.zero
  bot_le _ := ⟨Finset.empty_subset _, Fin.zero_le _, key_nil_le _⟩

theorem mode_zero_eq_bot : Mode.zero = ⊥ := rfl

theorem keptMode_join {rule : TsRule} (hour : rule.keepOurModes = true)
    (hnew : rule.keepNewModes = true) (mode old : Mode) : keptMode rule mode old = mode ⊔ old := by
  have hlimit : (if mode.limit < old.limit then old.limit else mode.limit) =
      max mode.limit old.limit := by
    split
    · exact (max_eq_right (le_of_lt ‹_›)).symm
    · exact (max_eq_left (not_lt.mp ‹_›)).symm
  have hkey : (if mode.key < old.key then old.key else mode.key) = max mode.key old.key := by
    split
    · exact (max_eq_right (le_of_lt ‹_›)).symm
    · exact (max_eq_left (not_lt.mp ‹_›)).symm
  simp only [keptMode, hour, hnew, Bool.not_true, Bool.false_eq_true, if_false, if_true, hlimit,
    hkey]
  rfl

theorem keptMode_both (ts tstosend : Int) (mode old : Mode) :
    keptMode ⟨ts, tstosend, true, true⟩ mode old = mode ⊔ old :=
  keptMode_join rfl rfl mode old

/-! ### The nick list and the channel -/

/-- What a nick list means: the members it names behind a server, with the flags
that stay. -/
def named (dir : Directory) (client : Cid) (keepNewModes : Bool) (ws : List CStr) :
    List (Cid × Finset ChFlag) :=
  ws.filterMap fun w =>
    (wordTarget dir client w).map fun target => (target, keptFlags keepNewModes (readPrefix w).1)

def joinMember (dir : Directory) (chptr : Channel) (m : Cid × Finset ChFlag) : Channel :=
  if (findChannelLink dir.clients m.1 chptr).isSome then chptr
  else addUserToChannel dir.clients chptr m.1 m.2

theorem foldl_sjoinNick (dir : Directory) (hd : SjoinHead) (ws : List CStr) (st : SjoinLoop) :
    ws.foldl (sjoinNick dir hd) st =
      (named dir hd.client hd.keepNewModes ws).foldl
        (fun st m => sjoinMember dir hd st m.1 m.2) st := by
  rw [named, List.foldl_filterMap]
  congr 1
  funext st w
  rw [sjoinNick]
  cases wordTarget dir hd.client w <;> rfl

theorem foldl_sjoinMember_chptr (dir : Directory) (hd : SjoinHead) (ms : List (Cid × Finset ChFlag))
    (st : SjoinLoop) :
    (ms.foldl (fun st m => sjoinMember dir hd st m.1 m.2) st).chptr =
      ms.foldl (joinMember dir) st.chptr := by
  induction ms generalizing st with
  | nil => rfl
  | cons m ms ih => exact ih _

theorem joinMember_fields (dir : Directory) (chptr : Channel) (m : Cid × Finset ChFlag) :
    (joinMember dir chptr m).channelts = chptr.channelts ∧
      (joinMember dir chptr m).mode = chptr.mode := by
  unfold joinMember
  split <;> exact ⟨rfl, rfl⟩

theorem foldl_joinMember_fields (dir : Directory) (ms : List (Cid × Finset ChFlag))
    (chptr : Channel) :
    (ms.foldl (joinMember dir) chptr).channelts = chptr.channelts ∧
      (ms.foldl (joinMember dir) chptr).mode = chptr.mode := by
  induction ms generalizing chptr with
  | nil => exact ⟨rfl, rfl⟩
  | cons m ms ih =>
    obtain ⟨hts, hmode⟩ := joinMember_fields dir chptr m
    obtain ⟨hts', hmode'⟩ := ih (joinMember dir chptr m)
    exact ⟨hts'.trans hts, hmode'.trans hmode⟩

theorem joinMember_ne_nil (dir : Directory) (chptr : Channel) (m : Cid × Finset ChFlag) :
    (joinMember dir chptr m).members ≠ [] := by
  unfold joinMember
  split
  · rename_i h
    intro hnil
    simp [findChannelLink, hnil] at h
  · simp [addUserToChannel]

theorem foldl_joinMember_ne_nil (dir : Directory) {ms : List (Cid × Finset ChFlag)}
    {chptr : Channel} (h : ms ≠ [] ∨ chptr.members ≠ []) :
    (ms.foldl (joinMember dir) chptr).members ≠ [] := by
  induction ms generalizing chptr with
  | nil => simpa using h
  | cons m ms ih => exact ih (.inr (joinMember_ne_nil dir chptr m))

theorem sjoinBody_fields {env : SjoinEnv} {client source : Cid} {args : SjoinArgs} {chptr : Channel}
    {isnew : Bool} (hnames : named env.dir client true (nickWords args.nicks) ≠ []) :
    ∃ ch, (sjoinBody env client source args chptr isnew).chan = some ch ∧
      ch.channelts = (sjoinRule env args.newts chptr isnew).channelts ∧
      ch.mode = keptMode (sjoinRule env args.newts chptr isnew) args.mode chptr.mode := by
  set rule := sjoinRule env args.newts chptr isnew with hrule
  have hnames' : named env.dir client rule.keepNewModes (nickWords args.nicks) ≠ [] := by
    intro hnil
    apply hnames
    simp only [named, List.filterMap_eq_nil_iff, Option.map_eq_none_iff] at hnil ⊢
    exact hnil
  have hstart : (sjoinChannel rule args.mode chptr).channelts = rule.channelts ∧
      (sjoinChannel rule args.mode chptr).mode = keptMode rule args.mode chptr.mode := by
    unfold sjoinChannel
    split <;> exact ⟨rfl, rfl⟩
  have hfields := foldl_joinMember_fields env.dir
    (named env.dir client rule.keepNewModes (nickWords args.nicks))
    (sjoinChannel rule args.mode chptr)
  have hmembers := @foldl_joinMember_ne_nil env.dir
    (named env.dir client rule.keepNewModes (nickWords args.nicks))
    (sjoinChannel rule args.mode chptr) (.inl hnames')
  unfold sjoinBody
  simp only [← hrule, foldl_sjoinNick, foldl_sjoinMember_chptr, hmembers, false_and, if_false]
  split
  · exact ⟨_, rfl, hfields.1.trans hstart.1, hfields.2.trans hstart.2⟩
  · refine ⟨_, rfl, ?_⟩
    split
    · exact ⟨hfields.1.trans hstart.1, hfields.2.trans hstart.2⟩
    · exact ⟨hfields.1.trans hstart.1, hfields.2.trans hstart.2⟩

/-! ### Bursts in any order -/

/-- A burst as a server receives it. -/
structure SjoinMsg where
  env : SjoinEnv
  client : Cid
  source : Cid
  parv : List CStr

def receive (chan : Option Channel) (m : SjoinMsg) : Option Channel :=
  (msSjoin m.env m.client m.source m.parv chan).chan

/-- A stamp as `ignore_bogus_ts` lets it count. -/
def countedTs (cf : Config) (ts : Int) : Int :=
  if cf.file.ignoreBogusTs && decide (ts < 800000000) then 800000000 else ts

/-- The stamp and the modes a burst carries, when the server takes the burst and
it names a client behind the server it comes from. -/
def SjoinMsg.carried (m : SjoinMsg) : Option (Int × Mode) :=
  (readSjoin m.env.dir m.source m.parv).bind fun args =>
    if CHANNELLEN < args.chname.length ∨
        named m.env.dir m.client true (nickWords args.nicks) = [] then none
    else some (countedTs m.env.cf args.newts, args.mode)

/-- The states that a list of bursts carries. -/
def carriedBy (msgs : List SjoinMsg) : Finset (Int × Mode) :=
  (msgs.filterMap SjoinMsg.carried).toFinset

theorem readSjoin_chname {dir : Directory} {source : Cid} {parv : List CStr} {args : SjoinArgs}
    (h : readSjoin dir source parv = some args) :
    args.chname.head? = some '#' ∧ checkChannelName args.chname = true := by
  unfold readSjoin at h
  split at h
  case h_1 ts chname modes nicks rest =>
    split at h
    · simp at h
    · rename_i hcond
      have hcond' : ((dir.clients source).isClient = false ∧ chname.head? = some '#') ∧
          checkChannelName chname = true := by simpa using hcond
      obtain ⟨⟨mode, left⟩, -, rfl⟩ := Option.map_eq_some_iff.mp h
      exact ⟨hcond'.1.2, hcond'.2⟩
  case h_2 => simp at h

theorem receive_of_carried {m : SjoinMsg} {x : Int × Mode} (h : m.carried = some x)
    (chan : Option Channel) :
    ∃ args, x = (countedTs m.env.cf args.newts, args.mode) ∧
      named m.env.dir m.client true (nickWords args.nicks) ≠ [] ∧
      receive chan m =
        match chan with
        | some chptr => (sjoinBody m.env m.client m.source args chptr false).chan
        | none =>
          (sjoinBody m.env m.client m.source args
            ⟨args.chname, m.env.now, Mode.zero, [], [], [], []⟩ true).chan := by
  obtain ⟨args, hread, hx⟩ := Option.bind_eq_some_iff.mp h
  split at hx
  · simp at hx
  · rename_i hcond
    obtain ⟨hlen, hnames⟩ := not_or.mp hcond
    obtain ⟨hhash, -⟩ := readSjoin_chname hread
    have hne : args.chname ≠ [] := by
      intro hnil
      simp [hnil] at hhash
    refine ⟨args, (Option.some.inj hx).symm, hnames, ?_⟩
    unfold receive msSjoin
    cases chan <;> simp [hread, getOrCreateChannel, hne, hlen]

theorem receive_merge {m : SjoinMsg} {x : Int × Mode} (h : m.carried = some x) (hx : x.1 ≠ 0)
    {chptr : Channel} (hts : chptr.channelts ≠ 0) :
    ∃ ch, receive (some chptr) m = some ch ∧
      (ch.channelts, ch.mode) = Stamped.merge (chptr.channelts, chptr.mode) x := by
  obtain ⟨args, rfl, hnames, hrecv⟩ := receive_of_carried h (some chptr)
  obtain ⟨ch, hch, hchts, hchmode⟩ := @sjoinBody_fields m.env m.client m.source args chptr false
      hnames
  refine ⟨ch, hrecv.trans hch, ?_⟩
  have heff : effectiveTs m.env.cf args.newts chptr.channelts = countedTs m.env.cf args.newts := by
    rw [effectiveTs, countedTs, if_neg hts]
  rw [sjoinRule, heff] at hchts hchmode
  generalize countedTs m.env.cf args.newts = ts at hx hchts hchmode ⊢
  dsimp only at hx
  rcases lt_trichotomy ts chptr.channelts with hlt | heq | hgt
  · rw [Stamped.merge_of_lt hlt, hchts, hchmode]
    simp [tsRule, hx, hts, hlt.ne, hlt, keptMode]
  · rw [Stamped.merge_of_eq heq.symm, hchts, hchmode]
    simp [tsRule, heq, hts, keptMode_both, sup_comm]
  · rw [Stamped.merge_of_gt hgt, hchts, hchmode]
    simp [tsRule, hx, hts, hgt.ne', not_lt_of_gt hgt, keptMode]

theorem receive_new {m : SjoinMsg} {x : Int × Mode} (h : m.carried = some x) :
    ∃ ch, receive none m = some ch ∧ (ch.channelts, ch.mode) = x := by
  obtain ⟨args, rfl, hnames, hrecv⟩ := receive_of_carried h none
  obtain ⟨ch, hch, hchts, hchmode⟩ := @sjoinBody_fields m.env m.client m.source args
    ⟨args.chname, m.env.now, Mode.zero, [], [], [], []⟩ true hnames
  refine ⟨ch, hrecv.trans hch, ?_⟩
  have heff : effectiveTs m.env.cf args.newts m.env.now = countedTs m.env.cf args.newts := by
    rw [effectiveTs, countedTs, if_neg m.env.clockSet]
  simp only [sjoinRule, heff] at hchts hchmode
  rw [hchts, hchmode, tsRule, if_pos rfl, keptMode_both, mode_zero_eq_bot, sup_bot_eq]

theorem foldl_receive_merge {msgs : List SjoinMsg} {chptr : Channel}
    (hts : chptr.channelts ≠ 0)
    (hmsgs : ∀ m ∈ msgs, ∃ x, m.carried = some x ∧ x.1 ≠ 0) :
    ∃ ch, msgs.foldl receive (some chptr) = some ch ∧
      (ch.channelts, ch.mode) =
        (msgs.filterMap SjoinMsg.carried).foldl Stamped.merge (chptr.channelts, chptr.mode) := by
  induction msgs generalizing chptr with
  | nil => exact ⟨chptr, rfl, rfl⟩
  | cons m msgs ih =>
    obtain ⟨x, hx, hx0⟩ := hmsgs m (by simp)
    obtain ⟨mid, hmid, hmerge⟩ := receive_merge hx hx0 hts
    have hmidts : mid.channelts ≠ 0 := by
      have hfst : mid.channelts = (Stamped.merge (chptr.channelts, chptr.mode) x).1 :=
        congrArg Prod.fst hmerge
      rw [hfst, Stamped.merge]
      split
      · exact hx0
      · split <;> exact hts
    obtain ⟨ch, hch, hfold⟩ := ih hmidts fun m' hm' => hmsgs m' (List.mem_cons_of_mem _ hm')
    refine ⟨ch, ?_, ?_⟩
    · rw [List.foldl_cons, hmid, hch]
    · rw [List.filterMap_cons_some hx, List.foldl_cons, ← hmerge, hfold]

/-- Whatever the order of the bursts, the channel ends with the least stamp they
carry and with the modes carried under it, joined. -/
theorem sjoin_modes_converge {msgs : List SjoinMsg} {init : Option Channel}
    (hcarried : ∀ m ∈ msgs, m.carried.isSome) (hzero : ∀ x ∈ carriedBy msgs, x.1 ≠ 0)
    (hne : msgs ≠ []) (hinit : ∀ c ∈ init, (c.channelts, c.mode) ∈ carriedBy msgs) :
    ∃ ch, msgs.foldl receive init = some ch ∧
      IsLeast (Prod.fst '' (carriedBy msgs : Set (Int × Mode))) ch.channelts ∧
      ch.mode = ((carriedBy msgs).filter fun x => x.1 = ch.channelts).sup Prod.snd := by
  have hmsgs : ∀ m ∈ msgs, ∃ x, m.carried = some x ∧ x.1 ≠ 0 := by
    intro m hm
    obtain ⟨x, hx⟩ := Option.isSome_iff_exists.mp (hcarried m hm)
    exact ⟨x, hx, hzero x (List.mem_toFinset.mpr (List.mem_filterMap.mpr ⟨m, hm, hx⟩))⟩
  -- the channel holds the merge of everything that was carried
  suffices hmerged : ∃ ch, msgs.foldl receive init = some ch ∧
      Stamped.IsMerge (carriedBy msgs : Set (Int × Mode)) (ch.channelts, ch.mode) by
    obtain ⟨ch, hch, hmerge⟩ := hmerged
    exact ⟨ch, hch, hmerge.least, hmerge.eq_sup⟩
  have hcarriedSet : ∀ x, x ∈ carriedBy msgs ↔ x ∈ msgs.filterMap SjoinMsg.carried :=
    fun x => List.mem_toFinset
  cases init with
  | some chptr =>
    have hmem := hinit chptr rfl
    obtain ⟨ch, hch, hfold⟩ := foldl_receive_merge (hzero _ hmem) hmsgs
    refine ⟨ch, hch, ?_⟩
    have hset : (carriedBy msgs : Set (Int × Mode)) =
        {(chptr.channelts, chptr.mode)} ∪ {x | x ∈ msgs.filterMap SjoinMsg.carried} := by
      ext x
      simp only [Finset.mem_coe, hcarriedSet, Set.singleton_union, Set.mem_insert_iff,
        Set.mem_ofPred_eq]
      refine ⟨.inr, ?_⟩
      rintro (rfl | h)
      · exact (hcarriedSet _).mp hmem
      · exact h
    rw [hset, hfold]
    exact (Stamped.isMerge_singleton _).foldl _
  | none =>
    obtain ⟨m, rest, rfl⟩ := List.exists_cons_of_ne_nil hne
    obtain ⟨x, hx, hx0⟩ := hmsgs m (by simp)
    obtain ⟨first, hfirst, hstate⟩ := receive_new hx
    have hts : first.channelts ≠ 0 := by
      have hfst : first.channelts = x.1 := congrArg Prod.fst hstate
      rw [hfst]
      exact hx0
    obtain ⟨ch, hch, hfold⟩ := foldl_receive_merge hts fun m' hm' =>
      hmsgs m' (List.mem_cons_of_mem _ hm')
    refine ⟨ch, by rw [List.foldl_cons, hfirst, hch], ?_⟩
    have hset : (carriedBy (m :: rest) : Set (Int × Mode)) =
        {x} ∪ {y | y ∈ rest.filterMap SjoinMsg.carried} := by
      ext y
      simp [hcarriedSet, List.filterMap_cons_some hx]
    rw [hset, hfold, hstate]
    exact (Stamped.isMerge_singleton _).foldl _

/-! ### Two bursts -/

def hubDirectory : Directory where
  clients c :=
    if c = 1 then
      { (default : Client) with
        status := .server, name := "hub.net".toList, id := "1AA".toList, «from» := 1 }
    else if c = 2 then
      { (default : Client) with
        status := .client, name := "nick".toList, id := "1AAAAAAAA".toList, «from» := 1 }
    else default
  hashFindId name := if name = "1AAAAAAAA".toList then some 2 else none
  findClient name := if name = "nick".toList then some 2 else none
  findServer name := if name = "1AA".toList then some 1 else none
  getHistory _ := none

def hubEnv : SjoinEnv where
  cf := default
  dir := hubDirectory
  now := 1000
  modebuf := []
  clockSet := by decide

theorem hub_client {c : Cid} (h : (hubEnv.dir.clients c).isClient = true) : c = 2 := by
  simp only [hubEnv, hubDirectory] at h
  split at h
  · exact absurd h (by decide)
  · split at h
    · assumption
    · exact absurd h (by decide)

def hubBurst (ts modes nicks : String) : SjoinMsg :=
  ⟨hubEnv, 1, 1, [ts.toList, "#c".toList, modes.toList, nicks.toList]⟩

/-- Two bursts that name the client, the older one with another mode. -/
theorem sjoin_modes_converge_twoBursts :
    ∃ ch, [hubBurst "200" "+t" "@1AAAAAAAA", hubBurst "100" "+n" "nick"].foldl receive none = some
      ch ∧
      IsLeast (Prod.fst '' (carriedBy
        [hubBurst "200" "+t" "@1AAAAAAAA", hubBurst "100" "+n" "nick"] : Set (Int × Mode)))
        ch.channelts ∧
      ch.mode = ((carriedBy [hubBurst "200" "+t" "@1AAAAAAAA", hubBurst "100" "+n" "nick"]).filter
        fun x => x.1 = ch.channelts).sup Prod.snd :=
  sjoin_modes_converge (by decide) (by decide) (by simp) (by simp)

/-- A burst that names nobody is forgotten when it comes first and not when it
comes last. -/
theorem sjoin_order_matters_without_nicks :
    (([hubBurst "100" "+n" "", hubBurst "200" "+t" "nick"].foldl receive none).map
        Channel.channelts = some 200) ∧
      (([hubBurst "200" "+t" "nick", hubBurst "100" "+n" ""].foldl receive none).map
        Channel.channelts = some 100) := by
  decide

end Ircd
