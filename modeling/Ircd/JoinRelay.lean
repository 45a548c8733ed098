import Ircd.Membership
import Ircd.ModeSend
import Ircd.SjoinSimulation

/-!
The JOIN of a server, `ms_join`, and the line it relays.

A server that handles a JOIN with modes merges them by the stamps as it does for an
SJOIN, but the line it relays to servers with `CAP_TS6` always ends in a bare `+`:
the next server learns the stamp and the member and none of the modes.

- `join_relay_simulates`: when the two servers hold the same channel again.
- `join_relay_loses_modes`: an older JOIN with modes.
-/

namespace Ircd

/-! ### The command -/

/-- What `ms_join` reads from its parameters. -/
structure JoinArgs where
  newts : Int
  chname : CStr
  mode : Mode
  deriving DecidableEq

/-- The checks and the loop over `parv[3]` at the start of `ms_join`. -/
def readJoin (parv : List CStr) : Option JoinArgs :=
  match parv with
  | ts :: chname :: modes :: rest =>
    if chname.head? = some '&' ∨ !checkChannelName chname then none
    else (MemberState.readJoinModes modes Mode.zero rest).map fun mode => ⟨strtol ts, chname, mode⟩
  | _ => none

/-- `":%s JOIN %lu %s +"`. -/
def joinLine (sender : CStr) (channelts : Int) (chname : CStr) : CStr :=
  ':' :: sender ++ ' ' :: "JOIN".toList ++
    ' ' :: (luText (toULong channelts) ++ ' ' :: (chname ++ ' ' :: ['+']))

/-- What `ms_join` leaves: the channel, and the lines for the other servers with
`CAP_TS6`. -/
structure JoinResult where
  chan : Option Channel
  lines : List CStr
  deriving DecidableEq

/-- The part of `ms_join` behind the creation of the channel, without the lines
for the members. -/
def joinBody (env : SjoinEnv) (source : Cid) (args : JoinArgs) (chptr : Channel) (isnew : Bool) :
    JoinResult :=
  let rule := sjoinRule env args.newts chptr isnew
  let chptr' := sjoinChannel rule args.mode chptr
  { chan := some
      (if (findChannelLink env.dir.clients source chptr').isSome then chptr'
      else addUserToChannel env.dir.clients chptr' source ∅)
    lines := [sendFormat (joinLine (env.dir.clients source).ID rule.channelts chptr.chname)] }

/-- `ms_join` with a stamp and a channel, given the channel that
`hash_find_channel` finds for `parv[2]`. -/
def msJoin (env : SjoinEnv) (source : Cid) (parv : List CStr) (chan : Option Channel) :
    JoinResult :=
  match readJoin parv with
  | none => ⟨chan, []⟩
  | some args =>
    match getOrCreateChannel env.now args.chname chan with
    | none => ⟨chan, []⟩
    | some (chptr, isnew) => joinBody env source args chptr isnew

/-- A relayed line arrives over a server link: `parse` cuts it, looks the sender
up, refuses one from another direction, and calls `ms_join`. -/
def deliverJoin (env : SjoinEnv) (link : Cid) (chan : Option Channel) (line : CStr) :
    Option Channel :=
  match parseLine line with
  | none => chan
  | some msg =>
    match findSender env.dir link msg.sender with
    | none => chan
    | some source =>
      if (env.dir.clients source).from = link ∧ ircEq msg.command "JOIN".toList then
        (msJoin env source msg.parv chan).chan
      else chan

/-! ### Reading the relayed line -/

/-- The byte that `%lu` prints above nine digits is a colon, which makes the rest
of the line one parameter. -/
def Swallowed (v : Nat) : Prop := ('0'.toNat + v / 1000000000) % 256 = ':'.toNat

instance (v : Nat) : Decidable (Swallowed v) := inferInstanceAs (Decidable (_ = _))

theorem stringToArray_plus {w chname : CStr} (hw : IsWord w) (hname : IsWord chname) :
    stringToArray (w ++ ' ' :: (chname ++ ' ' :: ['+'])) = [w, chname, ['+']] := by
  obtain ⟨c, w, rfl⟩ := List.exists_cons_of_ne_nil hw.ne
  obtain ⟨d, chname, rfl⟩ := List.exists_cons_of_ne_nil hname.ne
  have hc : c ≠ ' ' := fun h => hw.noBlank (by simp [h])
  have hd : d ≠ ' ' := fun h => hname.noBlank (by simp [h])
  have hdrop : (c :: w ++ ' ' :: (d :: chname ++ ' ' :: ['+'])).dropWhile (· == ' ') =
      c :: (w ++ ' ' :: (d :: chname ++ ' ' :: ['+'])) :=
    List.dropWhile_cons_of_neg (by simpa using hc)
  have hdrop' : (d :: chname ++ ' ' :: ['+']).dropWhile (· == ' ') = d ::
      (chname ++ ' ' :: ['+']) :=
    List.dropWhile_cons_of_neg (by simpa using hd)
  have hfirst := toArrayFrom_word (p := d :: chname ++ ' ' :: ['+']) (MAXPARA - 3) hw
  have hsecond := toArrayFrom_word (p := ['+']) (MAXPARA - 4) hname
  have hlast : toArrayFrom (MAXPARA - 4) ['+'] = [['+']] := by decide
  rw [hdrop'] at hfirst
  rw [stringToArray, hdrop]
  simp only [MAXPARA, List.cons_append] at hfirst hsecond hlast ⊢
  rw [hfirst]
  simp only [hsecond]
  rw [List.dropWhile_cons_of_neg (by decide)]
  simp only [hlast]
  rfl

theorem stringToArray_join {chname : CStr} (hname : IsWord chname) (v : Nat) :
    (Swallowed v ∧ ∃ p, stringToArray (luText v ++ ' ' :: (chname ++ ' ' :: ['+'])) = [p]) ∨
      ¬Swallowed v ∧ ∃ w, stringToArray (luText v ++ ' ' :: (chname ++ ' ' :: ['+'])) =
        [w, chname, ['+']] ∧ strtol w = stampRead v (chname ++ ' ' :: ['+']) := by
  have hread : ∀ w, stringToArray (luText v ++ ' ' :: (chname ++ ' ' :: ['+'])) =
      [w, chname, ['+']] →
      strtol w = stampRead v (chname ++ ' ' :: ['+']) := by
    intro w hw
    rw [stampRead, hw]
    rfl
  by_cases hshort : v < 10000000000
  · have hcut := stringToArray_plus (isWord_luText hshort) hname
    refine .inr ⟨?_, _, hcut, hread _ hcut⟩
    have h48 : '0'.toNat = 48 := rfl
    have h58 : ':'.toNat = 58 := rfl
    unfold Swallowed
    omega
  · have hbyte : (Char.ofNat (('0'.toNat + v / 1000000000) % 256)).toNat =
        ('0'.toNat + v / 1000000000) % 256 := toNat_ofNat (.inl (by omega))
    have htext : luText v =
        Char.ofNat (('0'.toNat + v / 1000000000) % 256) :: padDigits 9 (v % 1000000000) := by
      rw [luText, if_neg (by omega), if_pos (by omega)]
    have hlead : Swallowed v ↔ Char.ofNat (('0'.toNat + v / 1000000000) % 256) = ':' := by
      rw [← Char.toNat_inj, hbyte]
      exact Iff.rfl
    rw [htext] at hread ⊢
    rw [hlead]
    generalize Char.ofNat (('0'.toNat + v / 1000000000) % 256) = c at hread ⊢
    have hdigits := isWord_padDigits (v % 1000000000)
    rcases eq_or_ne c ':' with rfl | hcolon
    · exact .inl ⟨rfl, _, rfl⟩
    · refine .inr ⟨hcolon, ?_⟩
      rcases eq_or_ne c ' ' with rfl | hblank
      · have hskip : stringToArray (' ' :: padDigits 9 (v % 1000000000) ++
            ' ' :: (chname ++ ' ' :: ['+'])) =
            stringToArray (padDigits 9 (v % 1000000000) ++ ' ' :: (chname ++ ' ' :: ['+'])) := by
          simp [stringToArray]
        have hcut := stringToArray_plus hdigits hname
        exact ⟨_, hskip.trans hcut, hread _ (hskip.trans hcut)⟩
      · have hword : IsWord (c :: padDigits 9 (v % 1000000000)) :=
          ⟨by simp, by simpa [Ne.symm hblank] using hdigits.noBlank, by simpa using hcolon⟩
        have hcut := stringToArray_plus hword hname
        exact ⟨_, hcut, hread _ hcut⟩

/-! ### What the other server does with it -/

/-- The part of `readJoin` that looks at the name. -/
structure JoinName (chname : CStr) : Prop where
  isWord : IsWord chname
  notLocal : chname.head? ≠ some '&'
  chars : checkChannelName chname = true
  short : chname.length ≤ CHANNELLEN

theorem JoinName.of_ircEq {s t : CStr} (h : ircEq s t = true) (ht : JoinName t) : JoinName s := by
  have hmap : s.map toUpper = t.map toUpper := ircEq_iff.mp h
  have hlen : s.length = t.length := by simpa using congrArg List.length hmap
  have hchars : checkChannelName s = true := by
    have hall : (s.map toUpper).all isChanChar = (t.map toUpper).all isChanChar := by rw [hmap]
    simp only [List.all_map, Function.comp_def, isChanChar_toUpper] at hall
    exact hall.trans ht.chars
  constructor
  · constructor
    · rintro rfl
      exact ht.isWord.ne (List.length_eq_zero_iff.mp hlen.symm)
    · intro hblank
      exact ht.isWord.noBlank ((mem_iff_of_ircEq (by decide) h).mp hblank)
    · intro hcolon
      exact ht.isWord.noColon ((head?_iff_of_ircEq (by decide) h).mp hcolon)
  · intro hlocal
    exact ht.notLocal ((head?_iff_of_ircEq (by decide) h).mp hlocal)
  · exact hchars
  · rw [hlen]
    exact ht.short

theorem joinName_of_readJoin {text : CStr} {args : JoinArgs} {now : Int} {chan : Option Channel}
    {found : Channel × Bool} (hread : readJoin (stringToArray text) = some args)
    (hcreate : getOrCreateChannel now args.chname chan = some found) : JoinName args.chname := by
  unfold readJoin at hread
  split at hread
  · rename_i ts chname modes rest hparv
    split at hread
    · cases hread
    · rename_i hname
      obtain ⟨mode, -, rfl⟩ := Option.map_eq_some_iff.mp hread
      unfold getOrCreateChannel at hcreate
      split at hcreate
      · cases hcreate
      · rename_i hlen
        have hmem : chname ∈ (stringToArray text).dropLast := by
          rw [hparv, List.dropLast_cons_cons, List.dropLast_cons_cons]
          exact List.mem_cons_of_mem _ List.mem_cons_self
        rw [Bool.not_eq_true', not_or, Bool.not_eq_false] at hname
        exact ⟨isWord_of_mem_stringToArray hmem, hname.1, hname.2,
          not_lt.mp (not_or.mp hlen).2⟩
  · cases hread

/-- The two servers agree on the client that joins. -/
structure JoinLinked (a b : SjoinEnv) (linkB source : Cid) : Prop where
  sourceFound : findSender b.dir linkB (a.dir.clients source).ID = some source
  sourceBehind : (b.dir.clients source).from = linkB
  sourceStatus : (b.dir.clients source).isClient = (a.dir.clients source).isClient
  sourceBlank : ' ' ∉ (a.dir.clients source).ID
  sourceLength : (a.dir.clients source).ID.length ≤ HOSTLEN

/-- What the other server reads as the stamp of a relayed line. -/
def relayedStamp (channelts : Int) (chname : CStr) : Int :=
  stampRead (toULong channelts) (chname ++ ' ' :: ['+'])

section Relay

variable {a b : SjoinEnv} {linkB source : Cid} {args : JoinArgs} {chptr : Channel} {isnew : Bool}

theorem JoinLinked.deliver (h : JoinLinked a b linkB source) {chname : CStr}
    (hname : JoinName chname) (channelts : Int) (chan : Option Channel) :
    deliverJoin b linkB chan (sendFormat (joinLine (a.dir.clients source).ID channelts chname)) =
      if Swallowed (toULong channelts) then chan
      else match chan with
        | some chptr =>
          (joinBody b source ⟨relayedStamp channelts chname, chname, Mode.zero⟩ chptr false).chan
        | none =>
          (joinBody b source ⟨relayedStamp channelts chname, chname, Mode.zero⟩
            ⟨chname, b.now, Mode.zero, [], [], [], []⟩ true).chan := by
  have hlen : (joinLine (a.dir.clients source).ID channelts chname).length ≤ IRCD_BUFSIZE - 2 := by
    have hlu := length_luText_le (toULong channelts)
    have hid := h.sourceLength
    have hshort := hname.short
    unfold HOSTLEN at hid
    unfold CHANNELLEN at hshort
    simp [joinLine, IRCD_BUFSIZE]
    omega
  have hjoin : IsWord "JOIN".toList := ⟨by decide, by decide, by decide⟩
  have heq : ircEq "JOIN".toList "JOIN".toList = true := ircEq_refl _
  rw [sendFormat, List.take_of_length_le hlen, deliverJoin, joinLine,
    parseLine_eq h.sourceBlank hjoin]
  simp only [h.sourceFound, h.sourceBehind, heq, and_self, if_true]
  rcases stringToArray_join hname.isWord (toULong channelts) with
    ⟨hswallowed, p, hcut⟩ | ⟨hwhole, w, hcut, hstamp⟩
  · rw [if_pos hswallowed, hcut]
    rfl
  · have hread : readJoin [w, chname, ['+']] = some
        ⟨relayedStamp channelts chname, chname, Mode.zero⟩ := by
      have hnot : ¬(chname.head? = some '&' ∨ (!checkChannelName chname) = true) := by
        rw [hname.chars]
        rintro (hlocal | hbad)
        · exact hname.notLocal hlocal
        · cases hbad
      rw [readJoin, if_neg hnot, hstamp]
      rfl
    have hcreate : ∀ found, getOrCreateChannel b.now chname found = some
        (match found with
        | some chptr => (chptr, false)
        | none => (⟨chname, b.now, Mode.zero, [], [], [], []⟩, true)) := by
      intro found
      have hnot : ¬(chname = [] ∨ CHANNELLEN < chname.length) :=
        not_or.mpr ⟨hname.isWord.ne, not_lt.mpr hname.short⟩
      unfold getOrCreateChannel
      rw [if_neg hnot]
      cases found <;> rfl
    rw [if_neg hwhole, hcut, msJoin, hread]
    simp only [hcreate]
    cases chan <;> rfl

/-- The member that joins: `IsMember` is never true of a server. -/
def View.enter (v : View) (client : Bool) (who : Cid) : View :=
  if client = true ∧ (v.status who).isSome = true then v
  else { v with status := Function.update v.status who (some ∅) }

@[simp] theorem View.enter_ts (v : View) (client : Bool) (who : Cid) :
    (v.enter client who).ts = v.ts := by
  unfold View.enter
  split <;> rfl

@[simp] theorem View.enter_mode (v : View) (client : Bool) (who : Cid) :
    (v.enter client who).mode = v.mode := by
  unfold View.enter
  split <;> rfl

theorem joinBody_view (env : SjoinEnv) (source : Cid) (args : JoinArgs) (chptr : Channel)
    (isnew : Bool) :
    (joinBody env source args chptr isnew).chan.map Channel.view = some
      ((chptr.view.settle (sjoinRule env args.newts chptr isnew) args.mode).enter
        (env.dir.clients source).isClient source) := by
  have hview := view_sjoinChannel (sjoinRule env args.newts chptr isnew) args.mode chptr
  have hadd : ∀ c : Channel, (addUserToChannel env.dir.clients c source ∅).view =
      { c.view with status := Function.update c.view.status source (some ∅) } := by
    intro c
    simp only [addUserToChannel, Channel.view, View.mk.injEq, true_and]
    funext who
    by_cases hwho : who = source
    · subst hwho
      simp [memberStatus]
    · simp [memberStatus, hwho, Ne.symm hwho]
  rw [joinBody]
  simp only [Option.map_some, ← hview, View.enter]
  congr 1
  by_cases hclient : (env.dir.clients source).isClient = true
  · rw [isSome_findChannelLink hclient]
    simp only [hclient, true_and]
    split
    · rfl
    · exact hadd _
  · have hnone : ∀ c : Channel, (findChannelLink env.dir.clients source c).isSome = false := by
      intro c
      simp [findChannelLink, hclient]
    rw [hnone, if_neg Bool.false_ne_true, if_neg fun h => hclient h.1]
    exact hadd _

/-! ### When the servers agree again -/

/-- The stamp of the message becomes the stamp of the channel on both servers. -/
def StampReaches (b : SjoinEnv) (ts : Int) : Prop :=
  Ts6Send.Plain ts ∧ (b.cf.file.ignoreBogusTs = true → 800000000 ≤ ts)

/-- The other server keeps the stamp of the channel against the line that carries
it. A line that its stamp has swallowed says nothing, so that it must have
nothing to say. -/
def StampStays (b : SjoinEnv) (client : Bool) (source : Cid) (chptr : Channel) : Prop :=
  if Swallowed (toULong chptr.channelts) then chptr.view.enter client source = chptr.view
  else
    effectiveTs b.cf (relayedStamp chptr.channelts chptr.chname) chptr.channelts ≠ 0 ∧
      chptr.channelts ≤ effectiveTs b.cf (relayedStamp chptr.channelts chptr.chname) chptr.channelts

/-- What a JOIN with the stamp `newts`, after the bogus stamps are dealt with, and
the modes `mode` has to keep to: it brings no modes where its stamp is taken over,
and none that are not set where the stamps tie. -/
def JoinRelayOk (b : SjoinEnv) (client : Bool) (source : Cid) (newts : Int) (mode : Mode)
    (chptr : Channel) (isnew : Bool) : Prop :=
  if isnew = true then StampReaches b newts ∧ mode = Mode.zero
  else if newts = 0 ∨ chptr.channelts = 0 then
    (b.cf.file.ignoreBogusTs = true → chptr.channelts = 0) ∧ mode ≤ chptr.mode
  else if newts < chptr.channelts then StampReaches b newts ∧ mode = Mode.zero
  else (newts = chptr.channelts → mode ≤ chptr.mode) ∧ StampStays b client source chptr

theorem not_swallowed_of_plain {ts : Int} (h : Ts6Send.Plain ts) : ¬Swallowed (toULong ts) := by
  have h48 : '0'.toNat = 48 := rfl
  have h58 : ':'.toNat = 58 := rfl
  obtain ⟨hlow, hhigh⟩ := h
  rw [Swallowed, toULong_of_bounds hlow hhigh]
  omega

theorem relayedStamp_eq_iff {ts : Int} (chname : CStr) :
    relayedStamp ts chname = ts ↔ Ts6Send.Plain ts :=
  stampRead_eq_iff _

theorem stampStays_of_plain (client : Bool) (hts : Ts6Send.Plain chptr.channelts)
    (hne : chptr.channelts ≠ 0) : StampStays b client source chptr := by
  rw [StampStays, if_neg (not_swallowed_of_plain hts), (relayedStamp_eq_iff _).mpr hts, effectiveTs]
  split
  · rename_i hbogus
    rw [Bool.and_eq_true, decide_eq_true_eq] at hbogus
    exact ⟨by decide, le_of_lt hbogus.2⟩
  · exact ⟨hne, le_rfl⟩

theorem effectiveTs_relayed {ts oldts : Int} (hold : oldts ≠ 0) (chname : CStr) :
    effectiveTs b.cf (relayedStamp ts chname) oldts = ts ↔ StampReaches b ts := by
  rw [StampReaches, ← relayedStamp_eq_iff chname, effectiveTs]
  split
  · rename_i hbogus
    rw [Bool.and_eq_true, decide_eq_true_eq] at hbogus
    constructor
    · intro hts
      have hread : relayedStamp ts chname = ts := by
        rw [relayedStamp_eq_iff, ← hts]
        exact ⟨by decide, by decide⟩
      have hlow := hbogus.2
      omega
    · rintro ⟨hread, hhigh⟩
      have hlow := hbogus.2
      have hle := hhigh hbogus.1
      omega
  · rename_i hbogus
    refine ⟨fun hread => ⟨hread, fun hignore => ?_⟩, fun h => h.1⟩
    rw [hignore, Bool.true_and, decide_eq_true_eq, hread] at hbogus
    exact not_lt.mp hbogus

section Rules

variable {v : View} {mode : Mode} {e o : Int}

theorem tsRule_zero (h : e = 0 ∨ o = 0) : tsRule false e o = ⟨0, 0, true, true⟩ := by
  rw [tsRule, if_neg Bool.false_ne_true, if_pos h]

theorem tsRule_older (h : ¬(e = 0 ∨ o = 0)) (hlt : e < o) : tsRule false e o =
    ⟨e, e, false, true⟩ := by
  rw [tsRule, if_neg Bool.false_ne_true, if_neg h, if_neg hlt.ne, if_pos hlt]

theorem tsRule_newer (h : ¬(e = 0 ∨ o = 0)) (hle : o ≤ e) :
    tsRule false e o = ⟨o, o, true, decide (e = o)⟩ := by
  rw [tsRule, if_neg Bool.false_ne_true, if_neg h, if_neg (not_lt.mpr hle)]
  split
  · rename_i heq
    rw [decide_eq_true heq]
  · rename_i hne
    rw [decide_eq_false hne]

theorem settle_tie (ts tstosend : Int) :
    v.settle ⟨ts, tstosend, true, true⟩ mode = ⟨ts, mode ⊔ v.mode, v.status⟩ := by
  rw [View.settle, keptMode_both]
  rfl

theorem settle_older (ts tstosend : Int) :
    v.settle ⟨ts, tstosend, false, true⟩ mode =
      ⟨ts, mode, fun who => (v.status who).map fun _ => ∅⟩ := rfl

theorem settle_newer (ts tstosend : Int) :
    v.settle ⟨ts, tstosend, true, false⟩ mode = ⟨ts, v.mode, v.status⟩ := rfl

theorem enter_eq_iff {ts : Int} {mode' : Mode} {status : Cid → Option (Finset ChFlag)}
    (client : Bool)
    (who : Cid) :
    (View.mk ts mode status).enter client who = (View.mk ts mode' status).enter client who ↔
      mode = mode' := by
  constructor
  · intro h
    have hmode := congrArg View.mode h
    rwa [View.enter_mode, View.enter_mode] at hmode
  · rintro rfl
    rfl

theorem settle_stays (hold : v.ts = o) (hne : o ≠ 0) (he : e ≠ 0) (hle : o ≤ e) :
    v.settle (tsRule false e o) Mode.zero = v := by
  rw [tsRule_newer (not_or.mpr ⟨he, hne⟩) hle]
  cases heq : decide (e = o) with
  | true =>
    rw [settle_tie, mode_zero_eq_bot, bot_sup_eq, ← hold]
  | false =>
    rw [settle_newer, ← hold]

theorem tsRule_stays_iff (hne : o ≠ 0) :
    (tsRule false e o).channelts = o ↔ e ≠ 0 ∧ o ≤ e := by
  by_cases he : e = 0
  · rw [tsRule_zero (.inl he)]
    exact ⟨fun h => absurd h.symm hne, fun h => absurd he h.1⟩
  · have hboth : ¬(e = 0 ∨ o = 0) := not_or.mpr ⟨he, hne⟩
    rcases lt_or_ge e o with hlt | hle
    · rw [tsRule_older hboth hlt]
      exact ⟨fun h => absurd h hlt.ne, fun h => absurd hlt (not_lt.mpr h.2)⟩
    · rw [tsRule_newer hboth hle]
      exact ⟨fun _ => ⟨he, hle⟩, fun _ => rfl⟩

end Rules

theorem settle_relays {v : View} {client : Bool} {e o : Int} {mode : Mode} (hv : chptr.view = v)
    (ho : chptr.channelts = o) :
    ((v.settle (tsRule false e o) mode).enter client source =
      if Swallowed (toULong (tsRule false e o).channelts) then v
      else (v.settle (tsRule false (effectiveTs b.cf
        (relayedStamp (tsRule false e o).channelts chptr.chname) o) o) Mode.zero).enter client
          source) ↔
      JoinRelayOk b client source e mode chptr false := by
  have hts : v.ts = o := by rw [← hv, ← ho]; rfl
  have hold : chptr.mode = v.mode := by rw [← hv]; rfl
  rw [JoinRelayOk, if_neg Bool.false_ne_true, ho, hold]
  by_cases hzero : e = 0 ∨ o = 0
  · -- a stamp of 0 on either side makes it 0, and the modes are joined
    have hplain : Ts6Send.Plain 0 := ⟨le_rfl, by decide⟩
    rw [if_pos hzero, tsRule_zero hzero, if_neg (not_swallowed_of_plain hplain),
      (relayedStamp_eq_iff _).mpr hplain, settle_tie]
    by_cases hbogus : b.cf.file.ignoreBogusTs = true → o = 0
    · have heff : effectiveTs b.cf 0 o = 0 ∨ o = 0 := by
        cases hignore : b.cf.file.ignoreBogusTs with
        | true => exact .inr (hbogus hignore)
        | false => exact .inl (effectiveTs_of_off hignore 0 o)
      rw [tsRule_zero heff, settle_tie, enter_eq_iff, mode_zero_eq_bot, bot_sup_eq, sup_eq_right]
      exact ⟨fun h => ⟨hbogus, h⟩, fun h => h.2⟩
    · obtain ⟨hignore, hne⟩ := Classical.not_imp.mp hbogus
      refine ⟨fun h => ?_, fun h => absurd h.1 hbogus⟩
      have heff : effectiveTs b.cf 0 o = 800000000 := by
        simp [effectiveTs, hignore, hne]
      have hstamp := congrArg View.ts h
      rw [View.enter_ts, View.enter_ts, heff] at hstamp
      have hrule : (tsRule false 800000000 o).channelts ≠ 0 := by
        rcases lt_or_ge 800000000 o with hlt | hle
        · rw [tsRule_older (not_or.mpr ⟨by decide, hne⟩) hlt]
          exact by decide
        · rw [tsRule_newer (not_or.mpr ⟨by decide, hne⟩) hle]
          exact hne
      exact absurd hstamp.symm hrule
  · rw [if_neg hzero]
    obtain ⟨he, hne⟩ := not_or.mp hzero
    rcases lt_or_ge e o with hlt | hle
    · -- our stamp loses: the modes of the message replace ours
      rw [if_pos hlt, tsRule_older hzero hlt, settle_older]
      have hother : ∀ r, (tsRule false r o).channelts = e ↔ r = e := by
        intro r
        by_cases hr : r = 0
        · rw [tsRule_zero (.inl hr), hr]
        · rcases lt_or_ge r o with hrlt | hrle
          · rw [tsRule_older (not_or.mpr ⟨hr, hne⟩) hrlt]
          · rw [tsRule_newer (not_or.mpr ⟨hr, hne⟩) hrle]
            exact ⟨fun h => absurd h.symm hlt.ne, fun h => absurd (h ▸ hrle) (not_le.mpr hlt)⟩
      split
      · rename_i hswallowed
        refine ⟨fun h => ?_, fun h => absurd hswallowed (not_swallowed_of_plain h.1.1)⟩
        have hstamp := congrArg View.ts h
        rw [View.enter_ts, hts] at hstamp
        exact absurd hstamp hlt.ne
      · by_cases hreach : effectiveTs b.cf (relayedStamp e chptr.chname) o = e
        · rw [hreach, tsRule_older hzero hlt, settle_older, enter_eq_iff]
          exact ⟨fun h => ⟨(effectiveTs_relayed hne _).mp hreach, h⟩, fun h => h.2⟩
        · refine ⟨fun h => ?_, fun h => absurd ((effectiveTs_relayed hne _).mpr h.1) hreach⟩
          have hstamp := congrArg View.ts h
          rw [View.enter_ts, View.enter_ts] at hstamp
          exact absurd ((hother _).mp hstamp.symm) hreach
    · -- our stamp stays
      rw [if_neg (not_lt.mpr hle), tsRule_newer hzero hle, StampStays, hv, ho]
      have hsettle : v.settle ⟨o, o, true, decide (e = o)⟩ mode = v ↔ (e = o → mode ≤ v.mode) := by
        by_cases heq : e = o
        · rw [decide_eq_true heq, settle_tie]
          constructor
          · intro h _
            exact sup_eq_right.mp (congrArg View.mode h)
          · intro h
            rw [sup_eq_right.mpr (h heq), ← hts]
        · rw [decide_eq_false heq, settle_newer]
          exact ⟨fun _ h => absurd h heq, fun _ => by rw [← hts]⟩
      have hparts : v.settle ⟨o, o, true, decide (e = o)⟩ mode =
          ⟨v.ts, (v.settle ⟨o, o, true, decide (e = o)⟩ mode).mode, v.status⟩ := by
        rw [hts]
        rfl
      have hmode : ((v.settle ⟨o, o, true, decide (e = o)⟩ mode).enter client source =
          v.enter client source) ↔ (e = o → mode ≤ v.mode) := by
        rw [← hsettle]
        constructor
        · intro h
          have hm := congrArg View.mode h
          rw [View.enter_mode, View.enter_mode] at hm
          rw [hparts, hm]
        · intro h
          rw [h]
      split
      · constructor
        · intro h
          have hm := congrArg View.mode h
          rw [View.enter_mode] at hm
          have hsame : v.settle ⟨o, o, true, decide (e = o)⟩ mode = v := by rw [hparts, hm]
          rw [hsame] at h
          exact ⟨hsettle.mp hsame, h⟩
        · rintro ⟨hmodes, henter⟩
          rw [hsettle.mpr hmodes]
          exact henter
      · by_cases hstays : effectiveTs b.cf (relayedStamp o chptr.chname) o ≠ 0 ∧
            o ≤ effectiveTs b.cf (relayedStamp o chptr.chname) o
        · rw [settle_stays hts hne hstays.1 hstays.2, hmode]
          exact ⟨fun h => ⟨h, hstays⟩, fun h => h.1⟩
        · refine ⟨fun h => ?_, fun h => absurd h.2 hstays⟩
          have hstamp := congrArg View.ts h
          rw [View.enter_ts, View.enter_ts] at hstamp
          exact absurd ((tsRule_stays_iff hne).mp hstamp.symm) hstays

theorem settle_relays_new (chname : CStr) {e : Int} {mode : Mode} (client : Bool) :
    (some (View.enter ⟨e, mode, fun _ => none⟩ client source) =
      if Swallowed (toULong e) then none
      else some (View.enter
        ⟨effectiveTs b.cf (relayedStamp e chname) b.now, Mode.zero, fun _ => none⟩ client source)) ↔
      JoinRelayOk b client source e mode chptr true := by
  rw [JoinRelayOk, if_pos rfl]
  split
  · rename_i hswallowed
    exact ⟨fun h => absurd h (Option.some_ne_none _),
      fun h => absurd hswallowed (not_swallowed_of_plain h.1.1)⟩
  · rw [Option.some_inj, ← effectiveTs_relayed b.clockSet chname]
    constructor
    · intro h
      have hstamp := congrArg View.ts h
      rw [View.enter_ts, View.enter_ts] at hstamp
      have hstamp : e = effectiveTs b.cf (relayedStamp e chname) b.now := hstamp
      rw [← hstamp, enter_eq_iff] at h
      exact ⟨hstamp.symm, h⟩
    · rintro ⟨hstamp, rfl⟩
      rw [hstamp]

end Relay

/-! ### The hub and the leaf -/

theorem joinLinked_hub_leaf : JoinLinked hubEnv leafEnv 3 2 where
  sourceFound := by decide
  sourceBehind := by decide
  sourceStatus := by decide
  sourceBlank := by decide
  sourceLength := by decide

end Ircd
