import Ircd.SjoinText

/-!
Two servers and one burst: the lines a server relays bring the next server to
the same channel.

What they have to agree on is the view of a channel: its stamp, its modes and
the status of its members. The view changes by what the stamps decide and by the
members that join, and both servers go through the same changes as long as the
relayed lines are read as they were meant.
-/

namespace Ircd

open List

/-! ### Views -/

/-- What two servers have to agree on about a channel. -/
@[ext]
structure View where
  ts : Int
  mode : Mode
  status : Cid → Option (Finset ChFlag)

/-- The status of a client among members: none when it is not one of them. -/
def memberStatus (members : List Membership) (who : Cid) : Option (Finset ChFlag) :=
  (members.find? fun ms => ms.client == who).map fun ms => ms.flags ∩ opFlags

def Channel.view (chptr : Channel) : View := 
  ⟨chptr.channelts, chptr.mode, memberStatus chptr.members⟩

/-- Two servers hold the same channel, or neither has it. -/
def SameChannel (a b : Option Channel) : Prop := a.map Channel.view = b.map Channel.view

def View.join (v : View) (m : Cid × Finset ChFlag) : View :=
  if (v.status m.1).isSome then v
  else { v with status := Function.update v.status m.1 (some (m.2 ∩ opFlags)) }

def View.settle (v : View) (rule : TsRule) (mode : Mode) : View where
  ts := rule.channelts
  mode := keptMode rule mode v.mode
  status := if rule.keepOurModes then v.status else fun who => (v.status who).map fun _ => ∅

theorem memberStatus_map {f : Membership → Membership} (hf : ∀ ms, (f ms).client = ms.client)
    (members : List Membership) (who : Cid) :
    memberStatus (members.map f) who =
      (members.find? fun ms => ms.client == who).map fun ms => (f ms).flags ∩ opFlags := by
  simp [memberStatus, find?_map, Function.comp_def, hf]

theorem view_sjoinChannel (rule : TsRule) (mode : Mode) (chptr : Channel) :
    (sjoinChannel rule mode chptr).view = chptr.view.settle rule mode := by
  unfold sjoinChannel
  split
  · rename_i h
    simp [Channel.view, View.settle, h]
  · rename_i h
    have hempty : ∀ fl : Finset ChFlag,
        (fl \ {.chanop, .halfop, .voice}) ∩ opFlags = ∅ := fun fl =>
      Finset.disjoint_iff_inter_eq_empty.mp Finset.sdiff_disjoint
    simp only [removeOurModes, Channel.view, View.settle, h, View.mk.injEq, true_and]
    funext who
    have hmap := @memberStatus_map
      (fun ms => { ms with flags := ms.flags \ {.chanop, .halfop, .voice} }) (fun _ => rfl)
      chptr.members who
    rw [hmap]
    simp [memberStatus, hempty, Function.comp_def]

theorem clearBan_inter_opFlags (ms : Membership) :
    ms.clearBan.flags ∩ opFlags = ms.flags ∩ opFlags := by
  unfold Membership.clearBan
  split
  · ext f
    cases f <;> simp [opFlags]
  · rfl

theorem view_removeBanLists (chptr : Channel) : (removeBanLists chptr).view = chptr.view := by
  simp only [removeBanLists, clearBanCache, Channel.view, View.mk.injEq, true_and]
  funext who
  rw [memberStatus_map clearBan_client]
  simp [memberStatus, clearBan_inter_opFlags]

theorem isSome_findChannelLink {dir : Directory} {chptr : Channel} {who : Cid}
    (h : (dir.clients who).isClient = true) :
    (findChannelLink dir.clients who chptr).isSome = (chptr.view.status who).isSome := by
  simp [findChannelLink, h, Channel.view, memberStatus]

theorem view_joinMember {dir : Directory} {chptr : Channel} {m : Cid × Finset ChFlag}
    (h : (dir.clients m.1).isClient = true) :
    (joinMember dir chptr m).view = chptr.view.join m := by
  rw [joinMember, View.join, isSome_findChannelLink h]
  split
  · rfl
  · simp only [addUserToChannel, Channel.view, View.mk.injEq, true_and]
    funext who
    by_cases hwho : who = m.1
    · subst hwho
      simp [memberStatus]
    · simp [memberStatus, hwho, Ne.symm hwho]

theorem isClient_of_mem_named {dir : Directory} {client : Cid} {keep : Bool} {ws : List CStr}
    {m : Cid × Finset ChFlag} (h : m ∈ named dir client keep ws) :
    (dir.clients m.1).from = client ∧ (dir.clients m.1).isClient = true := by
  obtain ⟨w, -, hw⟩ := List.mem_filterMap.mp h
  obtain ⟨target, htarget, rfl⟩ := Option.map_eq_some_iff.mp hw
  obtain ⟨-, hcond⟩ := Option.filter_eq_some_iff.mp htarget
  simpa using hcond

theorem view_foldl_joinMember {dir : Directory} {ms : List (Cid × Finset ChFlag)}
    (h : ∀ m ∈ ms, (dir.clients m.1).isClient = true) (chptr : Channel) :
    (ms.foldl (joinMember dir) chptr).view = ms.foldl View.join chptr.view := by
  induction ms generalizing chptr with
  | nil => rfl
  | cons m ms ih =>
    rw [foldl_cons, ih fun m' hm' => h m' (mem_cons_of_mem _ hm'),
      view_joinMember (h m (by simp)), foldl_cons]

/-! ### One burst -/

def sjoinNamed (env : SjoinEnv) (client : Cid) (rule : TsRule) (nicks : CStr) :
    List (Cid × Finset ChFlag) :=
  named env.dir client rule.keepNewModes (nickWords nicks)

theorem sjoinBody_view {env : SjoinEnv} {client source : Cid} {args : SjoinArgs} {chptr : Channel}
    {isnew : Bool} (hnew : isnew = true → chptr.members = []) :
    (sjoinBody env client source args chptr isnew).chan.map Channel.view =
      if sjoinNamed env client (sjoinRule env args.newts chptr isnew) args.nicks = [] ∧ isnew then
        none
      else some ((sjoinNamed env client (sjoinRule env args.newts chptr isnew) args.nicks).foldl
        View.join (chptr.view.settle (sjoinRule env args.newts chptr isnew) args.mode)) := by
  set rule := sjoinRule env args.newts chptr isnew with hrule
  have hclients : ∀ m ∈ sjoinNamed env client rule args.nicks,
      (env.dir.clients m.1).isClient = true := fun m hm => (isClient_of_mem_named hm).2
  have hview := view_foldl_joinMember hclients (sjoinChannel rule args.mode chptr)
  rw [view_sjoinChannel] at hview
  have hmembers : (((sjoinNamed env client rule args.nicks).foldl (joinMember env.dir)
      (sjoinChannel rule args.mode chptr)).members = [] ∧ isnew = true) ↔
      (sjoinNamed env client rule args.nicks = [] ∧ isnew = true) := by
    constructor
    · rintro ⟨hnil, hisnew⟩
      refine ⟨?_, hisnew⟩
      by_contra hne
      exact foldl_joinMember_ne_nil env.dir (.inl hne) hnil
    · rintro ⟨hnil, hisnew⟩
      refine ⟨?_, hisnew⟩
      rw [hnil, foldl_nil]
      unfold sjoinChannel
      split <;> simp [removeOurModes, hnew hisnew]
  unfold sjoinNamed at hmembers hview ⊢
  unfold sjoinBody
  simp only [← hrule, foldl_sjoinNick, foldl_sjoinMember_chptr, hmembers]
  split
  · rfl
  · split
    · simp [hview]
    · split
      · simp [hview, view_removeBanLists]
      · simp [hview]

/-- A word of the relay for servers with `CAP_TS6`. -/
def relayWord (dir : Directory) (m : Cid × Finset ChFlag) : CStr :=
  statusPrefix m.2 ++ (dir.clients m.1).ID

/-- The relay when every line begins with the same header but the first. -/
def plainRelay (dir : Directory) (header first : CStr) (ms : List (Cid × Finset ChFlag)) : Relay :=
  ms.foldl (fun r m => r.add header (relayWord dir m)) ⟨first, []⟩

/-- No member before the last line break of the relay has a status. -/
def HeadersKept (dir : Directory) (header first : CStr) (ms : List (Cid × Finset ChFlag)) : Prop :=
  ∀ xs m ys, ms = xs ++ m :: ys →
    IRCD_BUFSIZE - 2 < (plainRelay dir header first xs).buf.length + (relayWord dir m).length →
    ∀ x ∈ xs, statusPrefix x.2 = []

theorem plainRelay_concat (dir : Directory) (header first : CStr)
    (ms : List (Cid × Finset ChFlag)) (m : Cid × Finset ChFlag) :
    plainRelay dir header first (ms ++ [m]) =
      (plainRelay dir header first ms).add header (relayWord dir m) := by
  simp [plainRelay]

theorem statuses_of_no_status {fl : Finset ChFlag} (h : statusPrefix fl = []) (mb : ModeBuf) :
    mb.statuses fl = mb := by
  simp only [statusPrefix, append_eq_nil_iff, ite_eq_right_iff, cons_ne_self,
    imp_false] at h
  obtain ⟨⟨ho, hh⟩, hv⟩ := h
  simp [ModeBuf.statuses, ho, hh, hv]

theorem foldl_modebuf_of_no_status (dir : Directory) (hd : SjoinHead)
    {ms : List (Cid × Finset ChFlag)} (h : ∀ m ∈ ms, statusPrefix m.2 = []) (st : SjoinLoop) :
    (ms.foldl (fun st m => sjoinMember dir hd st m.1 m.2) st).modebuf = st.modebuf := by
  induction ms generalizing st with
  | nil => rfl
  | cons m ms ih =>
    rw [foldl_cons, ih fun m' hm' => h m' (mem_cons_of_mem _ hm')]
    exact statuses_of_no_status (h m (by simp)) _

theorem foldl_uid (dir : Directory) (hd : SjoinHead) (st : SjoinLoop) (hsent : st.uid.sent = [])
    {ms : List (Cid × Finset ChFlag)}
    (hkept : HeadersKept dir (hd.header (dir.clients hd.source).ID st.modebuf) st.uid.buf ms) :
    (ms.foldl (fun st m => sjoinMember dir hd st m.1 m.2) st).uid =
      plainRelay dir (hd.header (dir.clients hd.source).ID st.modebuf) st.uid.buf ms := by
  induction ms using List.reverseRecOn with
  | nil =>
    change st.uid = ⟨st.uid.buf, []⟩
    rw [← hsent]
  | append_singleton ms m ih =>
    have hkept' : HeadersKept dir (hd.header (dir.clients hd.source).ID st.modebuf) st.uid.buf
        ms := by
      intro xs x ys hms
      exact hkept xs x (ys ++ [m]) (by simp [hms])
    have ih' := ih hkept'
    rw [foldl_append, plainRelay_concat, ← ih']
    change Relay.add _ _ (relayWord dir m) = Relay.add _ _ (relayWord dir m)
    -- a line break prints the header again, and then nothing was written over it
    by_cases hbreak : IRCD_BUFSIZE - 2 <
        (plainRelay dir (hd.header (dir.clients hd.source).ID st.modebuf) st.uid.buf
          ms).buf.length +
          (relayWord dir m).length
    · have hnone := hkept ms m [] rfl hbreak
      rw [foldl_modebuf_of_no_status dir hd hnone]
    · rw [← ih'] at hbreak
      simp only [Relay.add, if_neg hbreak]

/-! ### The lines -/

theorem plainRelay_chunks {dir : Directory} {header first : CStr}
    (hlen : header.length = first.length) {ms : List (Cid × Finset ChFlag)} (hne : ms ≠ [])
    (hfit : ∀ m ∈ ms, header.length + (relayWord dir m).length ≤ IRCD_BUFSIZE - 2) :
    ∃ (ps : List (CStr × List (Cid × Finset ChFlag))) (p : CStr × List (Cid × Finset ChFlag)),
      (plainRelay dir header first ms).sent = ps.map (fun q =>
        q.1 ++ words (q.2.map (relayWord dir))) ∧
      (plainRelay dir header first ms).buf = p.1 ++ words (p.2.map (relayWord dir)) ∧
      (∀ q ∈ ps ++ [p], (q.1 = header ∨ q.1 = first) ∧ q.2 ≠ [] ∧
        (q.1 ++ words (q.2.map (relayWord dir))).length ≤ IRCD_BUFSIZE - 1) ∧
      ((ps ++ [p]).map Prod.snd).flatten = ms := by
  induction ms using List.reverseRecOn with
  | nil => exact absurd rfl hne
  | append_singleton ms m ih =>
    have hm := hfit m (by simp)
    rcases eq_or_ne ms [] with rfl | hms
    · refine ⟨[], (first, [m]), ?_⟩
      have hfits : ¬IRCD_BUFSIZE - 2 < first.length + (relayWord dir m).length := by omega
      simp only [plainRelay, nil_append, foldl_cons, foldl_nil, Relay.add,
        if_neg hfits]
      refine ⟨rfl, by simp [words], ?_, by simp⟩
      intro q hq
      obtain rfl := List.mem_singleton.mp hq
      refine ⟨.inr rfl, by simp, ?_⟩
      simp [words, IRCD_BUFSIZE] at hfits ⊢
      omega
    · obtain ⟨ps, p, hsent, hbuf, hall, hflat⟩ := ih hms fun m' hm' => hfit m' (by simp [hm'])
      rw [plainRelay_concat, Relay.add]
      split
      · -- the word begins a new line
        refine ⟨ps ++ [p], (header, [m]), by simp [hsent, hbuf], by simp [words], ?_, ?_⟩
        · intro q hq
          rcases List.mem_append.mp hq with hq | hq
          · exact hall q hq
          · obtain rfl := List.mem_singleton.mp hq
            refine ⟨.inl rfl, by simp, ?_⟩
            simp [words, IRCD_BUFSIZE] at hm ⊢
            omega
        · rw [map_append, flatten_append, hflat]
          simp
      · rename_i hfits
        obtain ⟨hhead, hchunk, -⟩ := hall p (by simp)
        refine ⟨ps, (p.1, p.2 ++ [m]), hsent, ?_, ?_, ?_⟩
        · simp [hbuf, words]
        · intro q hq
          rcases List.mem_append.mp hq with hq | hq
          · exact hall q (by simp [hq])
          · obtain rfl := List.mem_singleton.mp hq
            refine ⟨hhead, by simp, ?_⟩
            rw [hbuf] at hfits
            simp [words, IRCD_BUFSIZE] at hfits ⊢
            omega
        · rw [← hflat]
          simp

/-- A delivered line: a header and a nick list of the words of a chunk. -/
def IsLine (dir : Directory) (header first line : CStr) (ms : List (Cid × Finset ChFlag)) : Prop :=
  ms ≠ [] ∧ ∃ h t, line = h ++ t ∧ (h = header ∨ h = first) ∧ nickWords t = ms.map (relayWord dir)

/-- The words of a relay are words: they have no blank and are not empty. -/
def RelayWords (dir : Directory) (ms : List (Cid × Finset ChFlag)) : Prop :=
  ∀ m ∈ ms, relayWord dir m ≠ [] ∧ ' ' ∉ relayWord dir m

theorem isLine_sendFormat {dir : Directory} {header first : CStr}
    {p : CStr × List (Cid × Finset ChFlag)} (hhead : p.1 = header ∨ p.1 = first) (hne : p.2 ≠ [])
    (hlen : (p.1 ++ words (p.2.map (relayWord dir))).length ≤ IRCD_BUFSIZE - 1)
    (hws : RelayWords dir p.2) :
    IsLine dir header first (sendFormat (p.1 ++ words (p.2.map (relayWord dir)))) p.2 ∧
      IsLine dir header first (sendFormat (p.1 ++ words (p.2.map (relayWord dir))).dropLast)
        p.2 := by
  have hws' : ∀ w ∈ p.2.map (relayWord dir), w ≠ [] ∧ ' ' ∉ w := by
    intro w hw
    obtain ⟨m, hm, rfl⟩ := List.mem_map.mp hw
    exact hws m hm
  have hwords : words (p.2.map (relayWord dir)) ≠ [] := by
    obtain ⟨m, ms, hms⟩ := exists_cons_of_ne_nil hne
    simp [hms]
  have hdrop : (p.1 ++ words (p.2.map (relayWord dir))).dropLast =
      p.1 ++ (words (p.2.map (relayWord dir))).dropLast :=
    dropLast_append_of_ne_nil hwords
  have hshort : IsLine dir header first (p.1 ++ (words (p.2.map (relayWord dir))).dropLast) p.2 :=
    ⟨hne, _, _, rfl, hhead, nickWords_words_dropLast hws'⟩
  constructor
  · rcases Nat.lt_or_ge (IRCD_BUFSIZE - 2) (p.1 ++ words (p.2.map (relayWord dir))).length with h |
        h
    · have hcut : sendFormat (p.1 ++ words (p.2.map (relayWord dir))) =
          (p.1 ++ words (p.2.map (relayWord dir))).dropLast := by
        have hexact : (p.1 ++ words (p.2.map (relayWord dir))).length - 1 = IRCD_BUFSIZE - 2 := by
          unfold IRCD_BUFSIZE at h hlen ⊢
          omega
        rw [sendFormat, dropLast_eq_take, hexact]
      rw [hcut, hdrop]
      exact hshort
    · rw [sendFormat, take_of_length_le h]
      exact ⟨hne, _, _, rfl, hhead, nickWords_words hws'⟩
  · have hkeep : sendFormat (p.1 ++ words (p.2.map (relayWord dir))).dropLast =
        (p.1 ++ words (p.2.map (relayWord dir))).dropLast := by
      apply take_of_length_le
      rw [length_dropLast]
      unfold IRCD_BUFSIZE at hlen ⊢
      omega
    rw [hkeep, hdrop]
    exact hshort

theorem relay_lines {dir : Directory} {header first : CStr} (hlen : header.length = first.length)
    {ms : List (Cid × Finset ChFlag)} (hne : ms ≠ [])
    (hfit : ∀ m ∈ ms, header.length + (relayWord dir m).length ≤ IRCD_BUFSIZE - 2)
    (hws : RelayWords dir ms) :
    ∃ chunks : List (List (Cid × Finset ChFlag)), chunks.flatten = ms ∧
      List.Forall₂ (IsLine dir header first)
        (((plainRelay dir header first ms).sent ++
          [(plainRelay dir header first ms).buf.dropLast]).map sendFormat) chunks := by
  obtain ⟨ps, p, hsent, hbuf, hall, hflat⟩ := plainRelay_chunks hlen hne hfit
  have hmem : ∀ q ∈ ps ++ [p], RelayWords dir q.2 := by
    intro q hq m hm
    apply hws m
    rw [← hflat]
    exact List.mem_flatten.mpr ⟨q.2, mem_map_of_mem hq, hm⟩
  refine ⟨(ps ++ [p]).map Prod.snd, hflat, ?_⟩
  rw [hsent, hbuf, map_append, map_append]
  apply rel_append
  · rw [map_map, List.forall₂_map_left_iff, List.forall₂_map_right_iff, List.forall₂_same]
    intro q hq
    obtain ⟨hhead, hchunk, hlength⟩ := hall q (by simp [hq])
    exact (isLine_sendFormat hhead hchunk hlength (hmem q (by simp [hq]))).1
  · obtain ⟨hhead, hchunk, hlength⟩ := hall p (by simp)
    exact .cons (isLine_sendFormat hhead hchunk hlength (hmem p (by simp))).2 .nil

/-! ### The receiving server -/

/-- A line that arrives over a server link: `parse` cuts it, looks the sender up,
refuses one from another direction, and calls `ms_sjoin`. -/
def deliver (env : SjoinEnv) (link : Cid) (chan : Option Channel) (line : CStr) : Option Channel :=
  match parseLine line with
  | none => chan
  | some msg =>
    match findSender env.dir link msg.sender with
    | none => chan
    | some source =>
      if (env.dir.clients source).from = link ∧ ircEq msg.command "SJOIN".toList then
        (msSjoin env link source msg.parv chan).chan
      else chan

/-- The header of a line is read as it was meant: the sender and the stamp are
recognised, the channel name is accepted, and the mode string with its
parameters gives `mode` and leaves the nick list. -/
structure Readable (env : SjoinEnv) (link source : Cid) (sender : CStr) (ts : Int)
    (chname modes : CStr) (params : List CStr) (mode : Mode) : Prop where
  found : findSender env.dir link sender = some source
  behind : (env.dir.clients source).from = link
  notClient : (env.dir.clients source).isClient = false
  senderBlank : ' ' ∉ sender
  stampLow : 0 ≤ ts
  stampHigh : ts < 10000000000
  hash : chname.head? = some '#'
  chars : checkChannelName chname = true
  short : chname.length ≤ CHANNELLEN
  modesWord : IsWord modes
  paramWords : ∀ w ∈ params, IsWord w
  fewParams : params.length ≤ 2
  meaning : ∀ nicks, readModes modes Mode.zero (params ++ [nicks]) = some (mode, [nicks])

section Deliver

variable {env : SjoinEnv} {link source : Cid} {sender : CStr} {ts : Int} {chname modes : CStr}
  {params : List CStr} {mode : Mode}

theorem isWord_chname (hhash : chname.head? = some '#') (hchars : checkChannelName chname = true) :
    IsWord chname where
  ne := by
    rintro rfl
    simp at hhash
  noBlank h := by
    have hblank := List.all_eq_true.mp hchars _ h
    exact absurd hblank (by decide)
  noColon := by
    rw [hhash]
    decide

theorem toULong_of_bounds (hlow : 0 ≤ ts) (hhigh : ts < 10000000000) : toULong ts = ts.toNat := by
  obtain ⟨n, rfl⟩ := Int.eq_ofNat_of_zero_le hlow
  rw [toULong, BitVec.toNat_ofInt]
  norm_num
  omega

theorem Readable.parse (h : Readable env link source sender ts chname modes params mode)
    (t : CStr) :
    parseLine (sjoinHeader sender ts chname modes (words params) ++ t) =
      some ⟨sender, "SJOIN".toList,
        [luText (toULong ts), chname, modes] ++ params ++ [t]⟩ := by
  have hlu : IsWord (luText (toULong ts)) := by
    rw [toULong_of_bounds h.stampLow h.stampHigh]
    apply isWord_luText
    have := h.stampHigh
    omega
  have hwords : ∀ w ∈ [luText (toULong ts), chname, modes] ++ params, IsWord w := by
    intro w hw
    rcases List.mem_append.mp hw with hw | hw
    · simp only [mem_cons, not_mem_nil, or_false] at hw
      rcases hw with rfl | rfl | rfl
      · exact hlu
      · exact isWord_chname h.hash h.chars
      · exact h.modesWord
    · exact h.paramWords w hw
  have hline : sjoinHeader sender ts chname modes (words params) ++ t =
      ':' :: sender ++ ' ' :: "SJOIN".toList ++
        ' ' :: (words ([luText (toULong ts), chname, modes] ++ params) ++ ':' :: t) := by
    simp [sjoinHeader]
  have hsjoin : IsWord "SJOIN".toList := ⟨by decide, by decide, by decide⟩
  have hfew : ([luText (toULong ts), chname, modes] ++ params).length ≤ MAXPARA - 2 := by
    have := h.fewParams
    simp [MAXPARA]
    omega
  rw [hline, parseLine_eq h.senderBlank hsjoin, stringToArray_words hwords t hfew]

theorem Readable.deliver (h : Readable env link source sender ts chname modes params mode)
    (t : CStr) (chan : Option Channel) :
    deliver env link chan (sjoinHeader sender ts chname modes (words params) ++ t) =
      match chan with
      | some chptr => (sjoinBody env link source ⟨ts, chname, modes, mode, t⟩ chptr false).chan
      | none =>
        (sjoinBody env link source ⟨ts, chname, modes, mode, t⟩
          ⟨chname, env.now, Mode.zero, [], [], [], []⟩ true).chan := by
  have hstrtol : strtol (luText (toULong ts)) = ts := by
    have hlow := h.stampLow
    have hhigh := h.stampHigh
    rw [toULong_of_bounds hlow hhigh, strtol_luText (by omega)]
    omega
  have hread : readSjoin env.dir source ([luText (toULong ts), chname, modes] ++ params ++ [t]) =
      some ⟨ts, chname, modes, mode, t⟩ := by
    have hmeaning := h.meaning t
    cases hps : params ++ [t] with
    | nil => simp at hps
    | cons nicks rest =>
      rw [hps] at hmeaning
      rw [append_assoc, hps]
      simp [readSjoin, h.notClient, h.hash, h.chars, hmeaning, hstrtol]
  have hne : chname ≠ [] := (isWord_chname h.hash h.chars).ne
  have hlen : ¬CHANNELLEN < chname.length := by
    have := h.short
    omega
  have heq : ircEq "SJOIN".toList "SJOIN".toList = true := by decide
  rw [Ircd.deliver, h.parse t]
  simp only [h.found, h.behind, heq, and_self, if_true]
  rw [msSjoin, hread]
  cases chan <;> simp [getOrCreateChannel, hne, hlen]

end Deliver

/-- The receiving server finds the members that the words of a relay name, and
reads the status before their names. -/
def Resolves (a b : Directory) (link : Cid) (ms : List (Cid × Finset ChFlag)) : Prop :=
  ∀ m ∈ ms, wordTarget b link (relayWord a m) = some m.1 ∧
    (readPrefix (relayWord a m)).1 = m.2 ∩ opFlags

theorem named_relayWords {a b : Directory} {link : Cid} {ms : List (Cid × Finset ChFlag)}
    (hres : Resolves a b link ms) (keep : Bool) :
    named b link keep (ms.map (relayWord a)) =
      ms.map fun m => (m.1, keptFlags keep (m.2 ∩ opFlags)) := by
  induction ms with
  | nil => rfl
  | cons m ms ih =>
    obtain ⟨htarget, hflags⟩ := hres m (by simp)
    have ih' := ih fun m' hm' => hres m' (mem_cons_of_mem _ hm')
    rw [map_cons, map_cons, ← ih', named, filterMap_cons_some, named]
    rw [htarget, hflags]
    rfl

theorem join_congr {v : View} {who : Cid} {fl fl' : Finset ChFlag}
    (h : fl ∩ opFlags = fl' ∩ opFlags) : v.join (who, fl) = v.join (who, fl') := by
  simp [View.join, h]

theorem foldl_join_keptFlags {keep : Bool} {ms : List (Cid × Finset ChFlag)}
    (hkeep : keep = false → ∀ m ∈ ms, m.2 ∩ opFlags = ∅) (v : View) :
    (ms.map fun m => (m.1, keptFlags keep (m.2 ∩ opFlags))).foldl View.join v =
      ms.foldl View.join v := by
  induction ms generalizing v with
  | nil => rfl
  | cons m ms ih =>
    have hflags : keptFlags keep (m.2 ∩ opFlags) ∩ opFlags = m.2 ∩ opFlags := by
      cases keep with
      | true => simp [keptFlags]
      | false => simp [keptFlags, hkeep rfl m (by simp)]
    rw [map_cons, foldl_cons, foldl_cons, join_congr hflags]
    exact ih (fun hk m' hm' => hkeep hk m' (mem_cons_of_mem _ hm')) _

theorem join_fields (v : View) (m : Cid × Finset ChFlag) :
    (v.join m).ts = v.ts ∧ (v.join m).mode = v.mode := by
  unfold View.join
  split <;> exact ⟨rfl, rfl⟩

theorem foldl_join_fields (ms : List (Cid × Finset ChFlag)) (v : View) :
    (ms.foldl View.join v).ts = v.ts ∧ (ms.foldl View.join v).mode = v.mode := by
  induction ms generalizing v with
  | nil => exact ⟨rfl, rfl⟩
  | cons m ms ih =>
    obtain ⟨hts, hmode⟩ := join_fields v m
    obtain ⟨hts', hmode'⟩ := ih (v.join m)
    exact ⟨hts'.trans hts, hmode'.trans hmode⟩

section Lines

variable {a env : SjoinEnv} {link source : Cid} {sender : CStr} {ts : Int}
  {chname modes modes' : CStr}
  {params : List CStr} {mode : Mode} {line : CStr} {ms : List (Cid × Finset ChFlag)}

theorem deliver_isLine (hfirst : Readable env link source sender ts chname modes params mode)
    (hnext : Readable env link source sender ts chname modes' params mode)
    (hline : IsLine a.dir (sjoinHeader sender ts chname modes' (words params))
      (sjoinHeader sender ts chname modes (words params)) line ms) (chan : Option Channel) :
    ∃ args : SjoinArgs, args.newts = ts ∧ args.mode = mode ∧
      nickWords args.nicks = ms.map (relayWord a.dir) ∧
      deliver env link chan line =
        match chan with
        | some chptr => (sjoinBody env link source args chptr false).chan
        | none =>
          (sjoinBody env link source args ⟨chname, env.now, Mode.zero, [], [], [], []⟩
            true).chan := by
  obtain ⟨-, h, t, rfl, rfl | rfl, hwords⟩ := hline
  · exact ⟨_, rfl, rfl, hwords, hnext.deliver t chan⟩
  · exact ⟨_, rfl, rfl, hwords, hfirst.deliver t chan⟩

theorem deliver_some_view (hfirst : Readable env link source sender ts chname modes params mode)
    (hnext : Readable env link source sender ts chname modes' params mode)
    (hline : IsLine a.dir (sjoinHeader sender ts chname modes' (words params))
      (sjoinHeader sender ts chname modes (words params)) line ms)
    (hres : Resolves a.dir env.dir link ms) (chptr : Channel)
    (hkeep : (sjoinRule env ts chptr false).keepNewModes = false → ∀ m ∈ ms, m.2 ∩ opFlags = ∅) :
    (deliver env link (some chptr) line).map Channel.view =
      some (ms.foldl View.join (chptr.view.settle (sjoinRule env ts chptr false) mode)) := by
  obtain ⟨args, rfl, rfl, hwords, hdeliver⟩ := deliver_isLine hfirst hnext hline (some chptr)
  have hview := @sjoinBody_view env link source args chptr false (by simp)
  rw [hdeliver, hview, if_neg (by simp), sjoinNamed, hwords, named_relayWords hres,
    foldl_join_keptFlags hkeep]

theorem deliver_none_view (hfirst : Readable env link source sender ts chname modes params mode)
    (hnext : Readable env link source sender ts chname modes' params mode)
    (hline : IsLine a.dir (sjoinHeader sender ts chname modes' (words params))
      (sjoinHeader sender ts chname modes (words params)) line ms)
    (hres : Resolves a.dir env.dir link ms) :
    (deliver env link none line).map Channel.view =
      some (ms.foldl View.join ⟨effectiveTs env.cf ts env.now, mode, fun _ => none⟩) := by
  obtain ⟨args, rfl, rfl, hwords, hdeliver⟩ := deliver_isLine hfirst hnext hline none
  have hview := @sjoinBody_view env link source args ⟨chname, env.now, Mode.zero, [], [], [], []⟩
      true
    fun _ => rfl
  have hne : ms ≠ [] := hline.1
  have hstart : (Channel.view ⟨chname, env.now, Mode.zero, [], [], [], []⟩).settle
      (sjoinRule env args.newts ⟨chname, env.now, Mode.zero, [], [], [], []⟩ true) args.mode =
      ⟨effectiveTs env.cf args.newts env.now, args.mode, fun _ => none⟩ := by
    simp only [View.settle, sjoinRule, tsRule, if_true, keptMode_both, Channel.view,
      mode_zero_eq_bot,
      sup_bot_eq, View.mk.injEq, true_and]
    rfl
  rw [hdeliver, hview, sjoinNamed, hwords, named_relayWords hres, if_neg (by simp [hne]), hstart,
    foldl_join_keptFlags]
  intro hk
  simp [sjoinRule, tsRule] at hk

theorem tsRule_again (cf : Config) (ts : Int) :
    (tsRule false (effectiveTs cf ts ts) ts).channelts = ts ∧
      (tsRule false (effectiveTs cf ts ts) ts).keepOurModes = true ∧
      ((tsRule false (effectiveTs cf ts ts) ts).keepNewModes = false →
        cf.file.ignoreBogusTs = true ∧ ts < 800000000 ∧ ts ≠ 0) := by
  by_cases hbogus : cf.file.ignoreBogusTs = true ∧ ts < 800000000
  · by_cases hzero : ts = 0
    · simp [effectiveTs, tsRule, hzero]
    · have hlt : ts < 800000000 := hbogus.2
      have hne : (800000000 : Int) ≠ ts := by omega
      have hge : ¬(800000000 : Int) < ts := by omega
      simp [effectiveTs, tsRule, hbogus, hzero, hne, hge]
  · have heff : effectiveTs cf ts ts = ts := by
      rw [effectiveTs, if_neg]
      simpa using hbogus
    rw [heff]
    by_cases hzero : ts = 0
    · simp [tsRule, hzero]
    · simp [tsRule, hzero]

theorem foldl_deliver_view (hfirst : Readable env link source sender ts chname modes params mode)
    (hnext : Readable env link source sender ts chname modes' params mode)
    {lines : List CStr} {chunks : List (List (Cid × Finset ChFlag))}
    (hlines : List.Forall₂ (IsLine a.dir (sjoinHeader sender ts chname modes' (words params))
      (sjoinHeader sender ts chname modes (words params))) lines chunks)
    (hres : Resolves a.dir env.dir link chunks.flatten)
    (hkeep : (tsRule false (effectiveTs env.cf ts ts) ts).keepNewModes = false →
      ∀ m ∈ chunks.flatten, m.2 ∩ opFlags = ∅)
    {chan : Option Channel} {v : View} (hv : chan.map Channel.view = some v) (hts : v.ts = ts)
    (hmode : mode ≤ v.mode) :
    (lines.foldl (deliver env link) chan).map Channel.view =
      some (chunks.flatten.foldl View.join v) := by
  induction hlines generalizing chan v with
  | nil => exact hv
  | @cons line ms lines chunks hline _ ih =>
    obtain ⟨chptr, rfl, rfl⟩ := Option.map_eq_some_iff.mp hv
    have hchan : chptr.channelts = ts := hts
    obtain ⟨hruleTs, hruleOur, -⟩ := tsRule_again env.cf ts
    have hrule : sjoinRule env ts chptr false = tsRule false (effectiveTs env.cf ts ts) ts := by
      rw [sjoinRule, hchan]
    -- what the stamps decide changes nothing any more
    have hsettle : chptr.view.settle (sjoinRule env ts chptr false) mode = chptr.view := by
      have hkept : keptMode (tsRule false (effectiveTs env.cf ts ts) ts) mode chptr.mode =
          chptr.mode := by
        cases hnew : (tsRule false (effectiveTs env.cf ts ts) ts).keepNewModes with
        | false => simp [keptMode, hnew]
        | true => exact (keptMode_join hruleOur hnew _ _).trans (sup_eq_right.mpr hmode)
      rw [hrule]
      simp only [View.settle, hruleTs, hruleOur, if_true, Channel.view, hkept, hchan]
    have hres' : Resolves a.dir env.dir link ms := fun m hm => hres m (by simp [hm])
    have hview := deliver_some_view hfirst hnext hline hres' chptr (by
      rw [hrule]
      exact fun hk m hm => hkeep hk m (by simp [hm]))
    rw [hsettle] at hview
    obtain ⟨htsMs, hmodeMs⟩ := foldl_join_fields ms chptr.view
    rw [foldl_cons, flatten_cons, foldl_append]
    exact ih (fun m hm => hres m (by simp [hm])) (fun hk m hm => hkeep hk m (by simp [hm])) hview
      (htsMs.trans hts) (hmodeMs ▸ hmode)

end Lines

end Ircd
