import Ircd.SjoinRelay

/-!
Two servers that hold the same channel hold the same channel after one has
handled a burst and the other the lines it relayed.
-/

namespace Ircd

open List

/-! ### Names -/

theorem isChanChar_toUpper (c : Char) : isChanChar (toUpper c) = isChanChar c := by
  unfold toUpper
  split
  · rename_i h
    have hvalid : (c.toNat - 0x20).isValidChar := .inl (by omega)
    have hnat := toNat_ofNat hvalid
    have hplain : ∀ d : Char, 0x41 ≤ d.toNat → isChanChar d = true := by
      intro d hd
      have hblank : d ≠ ' ' := by
        rintro rfl
        exact absurd hd (by decide)
      have hcomma : d ≠ ',' := by
        rintro rfl
        exact absurd hd (by decide)
      simp [isChanChar, hblank, hcomma]
      omega
    rw [hplain _ (by rw [hnat]; omega), hplain c (by omega)]
  · rfl

theorem chname_of_ircEq {s t : CStr} (h : ircEq s t = true) (hash : t.head? = some '#')
    (chars : checkChannelName t = true) :
    s.head? = some '#' ∧ checkChannelName s = true ∧ s.length = t.length := by
  have hmap : s.map toUpper = t.map toUpper := by simpa [ircEq] using h
  have hlen : s.length = t.length := by simpa using congrArg List.length hmap
  refine ⟨?_, ?_, hlen⟩
  · obtain ⟨t', rfl⟩ : ∃ t', t = '#' :: t' := by
      cases t with
      | nil => simp at hash
      | cons c t' => exact ⟨t', by simpa using hash⟩
    cases s with
    | nil => simp at hlen
    | cons c s' =>
      have hc : toUpper c = '#' := by
        have hhead := congrArg List.head? hmap
        have hhash : toUpper '#' = '#' := by decide
        simpa [hhash] using hhead
      unfold toUpper at hc
      split at hc
      · rename_i hrange
        have hnat := congrArg Char.toNat hc
        have hvalid : (c.toNat - 0x20).isValidChar := .inl (by omega)
        rw [toNat_ofNat hvalid] at hnat
        have hhash : '#'.toNat = 35 := rfl
        omega
      · simp [hc]
  · have hall : (s.map toUpper).all isChanChar = (t.map toUpper).all isChanChar := by rw [hmap]
    simp only [all_map, Function.comp_def, isChanChar_toUpper] at hall
    exact hall.trans chars

/-! ### What is relayed -/

def stayingMode (env : SjoinEnv) (args : SjoinArgs) (chptr : Channel) (isnew : Bool) : Mode :=
  keptMode (sjoinRule env args.newts chptr isnew) args.mode chptr.mode

/-- The mode string is relayed as modes, not as `0`. -/
def relaysModes (env : SjoinEnv) (args : SjoinArgs) (chptr : Channel) (isnew : Bool) : Prop :=
  args.modes.head? ≠ some '0' ∧ (sjoinRule env args.newts chptr isnew).keepNewModes = true

instance (env : SjoinEnv) (args : SjoinArgs) (chptr : Channel) (isnew : Bool) :
    Decidable (relaysModes env args chptr isnew) := inferInstanceAs (Decidable (_ ∧ _))

def relayedModes (env : SjoinEnv) (args : SjoinArgs) (chptr : Channel) (isnew : Bool) : CStr :=
  if relaysModes env args chptr isnew then modeText (stayingMode env args chptr isnew) else ['0']

def relayedParams (env : SjoinEnv) (args : SjoinArgs) (chptr : Channel) (isnew : Bool) :
    List CStr :=
  if relaysModes env args chptr isnew then
    modeParams (stayingMode env args chptr isnew).limit (stayingMode env args chptr isnew).key
  else []

/-- What the relayed mode string means. -/
def relayedMode (env : SjoinEnv) (args : SjoinArgs) (chptr : Channel) (isnew : Bool) : Mode :=
  if relaysModes env args chptr isnew then stayingMode env args chptr isnew else Mode.zero

def firstHeader (env : SjoinEnv) (source : Cid) (args : SjoinArgs) (chptr : Channel)
    (isnew : Bool) : CStr :=
  sjoinHeader (env.dir.clients source).ID (sjoinRule env args.newts chptr isnew).tstosend
    chptr.chname (relayedModes env args chptr isnew) (words (relayedParams env args chptr isnew))

/-- The header of the lines after it: the loop has put a plus sign at the start of
`modebuf`. -/
def nextHeader (env : SjoinEnv) (source : Cid) (args : SjoinArgs) (chptr : Channel)
    (isnew : Bool) : CStr :=
  sjoinHeader (env.dir.clients source).ID (sjoinRule env args.newts chptr isnew).tstosend
    chptr.chname ('+' :: (relayedModes env args chptr isnew).tail)
    (words (relayedParams env args chptr isnew))

/-- When the relay of a burst is read as it was meant. Either the burst names a
member, or it is about a new channel, or it changes nothing; and where it is
relayed, the stamp has at most ten digits, a mode string that begins with `0`
sets nothing and takes no key away, the key that stays is a word, and no status
is given before the relay begins its last line. -/
structure RelayOk (env : SjoinEnv) (client source : Cid) (args : SjoinArgs) (chptr : Channel)
    (isnew : Bool) : Prop where
  effect : sjoinNamed env client (sjoinRule env args.newts chptr isnew) args.nicks ≠ [] ∨
    isnew = true ∨
    chptr.view.settle (sjoinRule env args.newts chptr isnew) args.mode = chptr.view
  stamp : sjoinNamed env client (sjoinRule env args.newts chptr isnew) args.nicks ≠ [] ∨
      isnew = false ∧ args.nicks ≠ [] →
    0 ≤ (sjoinRule env args.newts chptr isnew).tstosend ∧
      (sjoinRule env args.newts chptr isnew).tstosend < 10000000000
  zero : sjoinNamed env client (sjoinRule env args.newts chptr isnew) args.nicks ≠ [] ∨
      isnew = false ∧ args.nicks ≠ [] →
    args.modes.head? = some '0' → (sjoinRule env args.newts chptr isnew).keepNewModes = true →
    stayingMode env args chptr isnew =
        keptMode (sjoinRule env args.newts chptr isnew) Mode.zero chptr.mode ∧
      ((sjoinRule env args.newts chptr isnew).keepOurModes = true ∨ chptr.mode.key = [])
  key : sjoinNamed env client (sjoinRule env args.newts chptr isnew) args.nicks ≠ [] ∨
      isnew = false ∧ args.nicks ≠ [] →
    relaysModes env args chptr isnew →
    (stayingMode env args chptr isnew).key = [] ∨ IsWord (stayingMode env args chptr isnew).key
  headers : HeadersKept env.dir (nextHeader env source args chptr isnew)
    (firstHeader env source args chptr isnew)
    (sjoinNamed env client (sjoinRule env args.newts chptr isnew) args.nicks)

/-- Two servers on a link agree on the clients behind the one that relays: the
identifiers it relays are words, and the other finds by them the same clients
behind the link. -/
structure Linked (a b : SjoinEnv) (linkA linkB source : Cid) : Prop where
  bogusTs : b.cf.file.ignoreBogusTs = true → a.cf.file.ignoreBogusTs = true
  sourceServer : (a.dir.clients source).isServer = true
  sourceFound : findSender b.dir linkB (a.dir.clients source).ID = some source
  sourceBehind : (b.dir.clients source).from = linkB
  sourceStatus : (b.dir.clients source).isClient = false
  sourceBlank : ' ' ∉ (a.dir.clients source).ID
  sourceLength : (a.dir.clients source).ID.length ≤ HOSTLEN
  memberFound : ∀ c, (a.dir.clients c).from = linkA → (a.dir.clients c).isClient = true →
    findChasing b.dir (b.dir.clients linkB) (a.dir.clients c).ID = some c
  memberBehind : ∀ c, (a.dir.clients c).from = linkA → (a.dir.clients c).isClient = true →
    (b.dir.clients c).from = linkB ∧ (b.dir.clients c).isClient = true
  memberWord : ∀ c, (a.dir.clients c).from = linkA → (a.dir.clients c).isClient = true →
    (a.dir.clients c).ID ≠ [] ∧ ' ' ∉ (a.dir.clients c).ID ∧ NoPrefix (a.dir.clients c).ID ∧
      (a.dir.clients c).ID.length ≤ HOSTLEN

/-! ### The static buffer -/

theorem bufText_putText {text : CStr} (h : '\x00' ∉ text) (buf : CStr) :
    bufText (putText buf text) = text := by
  have hall : ∀ c ∈ text, (decide (c ≠ '\x00')) = true := by
    intro c hc
    have hne : c ≠ '\x00' := fun hnul => h (hnul ▸ hc)
    simpa using hne
  rw [bufText, putText, takeWhile_append_of_pos hall]
  simp

theorem bufText_put_plus {c : Char} {text : CStr} (h : '\x00' ∉ text) (buf : CStr) :
    bufText (ModeBuf.put ⟨putText buf (c :: text), 0, 0⟩ '+').bytes = '+' :: text := by
  have hput : (ModeBuf.put ⟨putText buf (c :: text), 0, 0⟩ '+').bytes = putText buf ('+' :: text) :=
    rfl
  rw [hput, bufText_putText]
  simp [h]

theorem setFinalMode_self (mode : Mode) : (setFinalMode mode mode).2 = [] := by
  have hkey : ¬(mode.key ≠ [] ∧ mode.key = []) := fun h => h.1 h.2
  simp [setFinalMode, hkey]

theorem setFinalMode_zero {old : Mode} (h : old.key = []) : (setFinalMode Mode.zero old).2 =
    [] := by
  simp [setFinalMode, Mode.zero, h]

section Relayed

variable {a : SjoinEnv} {client source : Cid} {args : SjoinArgs} {chptr : Channel} {isnew : Bool}

theorem relayedModes_split : ∃ c text, relayedModes a args chptr isnew = c :: text ∧ '\x00' ∉ text ∧
    c ≠ '\x00' := by
  unfold relayedModes
  split
  · refine ⟨'+', _, rfl, ?_, by decide⟩
    exact fun h => modeText_noNul _ (mem_cons_of_mem _ h)
  · exact ⟨'0', [], rfl, by simp, by decide⟩

theorem sjoinBuffers_text (hserver : (a.dir.clients source).isServer = true)
    (hzero : args.modes.head? = some '0' → (sjoinRule a args.newts chptr isnew).keepNewModes =
      true →
      stayingMode a args chptr isnew =
          keptMode (sjoinRule a args.newts chptr isnew) Mode.zero chptr.mode ∧
        ((sjoinRule a args.newts chptr isnew).keepOurModes = true ∨ chptr.mode.key = [])) :
    ∃ buf, sjoinBuffers a source (sjoinRule a args.newts chptr isnew) args.modes chptr.mode
        (sjoinChannel (sjoinRule a args.newts chptr isnew) args.mode chptr) =
      (putText buf (relayedModes a args chptr isnew), words
        (relayedParams a args chptr isnew)) := by
  have hmode : (sjoinChannel (sjoinRule a args.newts chptr isnew) args.mode chptr).mode =
      stayingMode a args chptr isnew := by
    unfold sjoinChannel
    split <;> rfl
  simp only [sjoinBuffers, hmode, channelModes_of_server hserver]
  by_cases hrelays : relaysModes a args chptr isnew
  · have hcond : args.modes.head? ≠ some '0' ∧
        (sjoinRule a args.newts chptr isnew).keepNewModes = true := hrelays
    rw [if_pos hcond, relayedModes, relayedParams, if_pos hrelays, if_pos hrelays]
    exact ⟨_, rfl⟩
  · have hcond : ¬(args.modes.head? ≠ some '0' ∧
        (sjoinRule a args.newts chptr isnew).keepNewModes = true) := hrelays
    rw [if_neg hcond, relayedModes, relayedParams, if_neg hrelays, if_neg hrelays, words_nil]
    suffices hparams : (setFinalMode (stayingMode a args chptr isnew) chptr.mode).2 = [] by
      rw [hparams]
      exact ⟨_, rfl⟩
    cases hnew : (sjoinRule a args.newts chptr isnew).keepNewModes with
    | false =>
      have hstay : stayingMode a args chptr isnew = chptr.mode := by simp
          [stayingMode, keptMode, hnew]
      rw [hstay]
      exact setFinalMode_self _
    | true =>
      have hhead : args.modes.head? = some '0' := by
        by_contra hne
        exact hrelays ⟨hne, hnew⟩
      obtain ⟨hstay, hkey⟩ := hzero hhead hnew
      cases hour : (sjoinRule a args.newts chptr isnew).keepOurModes with
      | true =>
        rw [hstay, keptMode_join hour hnew, mode_zero_eq_bot, bot_sup_eq]
        exact setFinalMode_self _
      | false =>
        have hstay' : stayingMode a args chptr isnew = Mode.zero := by
          rw [hstay]
          simp [keptMode, hnew, hour]
        have hold : chptr.mode.key = [] := by
          rcases hkey with h | h
          · rw [hour] at h
            exact absurd h (by decide)
          · exact h
        rw [hstay']
        exact setFinalMode_zero hold

/-- The lines that are relayed: none for a new channel that nobody joins and for
an empty nick list, and else those of the relay with unchanged headers. -/
theorem sjoinBody_uidLines (hserver : (a.dir.clients source).isServer = true)
    (hok : RelayOk a client source args chptr isnew)
    (hrelayed : sjoinNamed a client (sjoinRule a args.newts chptr isnew) args.nicks ≠ [] ∨
      isnew = false ∧ args.nicks ≠ []) :
    (sjoinBody a client source args chptr isnew).uidLines =
      ((plainRelay a.dir (nextHeader a source args chptr isnew)
          (firstHeader a source args chptr isnew)
          (sjoinNamed a client (sjoinRule a args.newts chptr isnew) args.nicks)).sent ++
        [(plainRelay a.dir (nextHeader a source args chptr isnew)
          (firstHeader a source args chptr isnew)
          (sjoinNamed a client (sjoinRule a args.newts chptr isnew) args.nicks)).buf.dropLast]).map
        sendFormat := by
  obtain ⟨buf, hbufs⟩ := @sjoinBuffers_text a source args chptr isnew hserver (hok.zero hrelayed)
  obtain ⟨c, text, hmodes, hnul, hc⟩ : ∃ c text, relayedModes a args chptr isnew = c :: text ∧
    '\x00' ∉ text ∧ c ≠ '\x00' := relayedModes_split
  set rule := sjoinRule a args.newts chptr isnew with hrule
  set ms := sjoinNamed a client rule args.nicks with hms
  have hnicks : args.nicks ≠ [] := by
    rcases hrelayed with h | h
    · rintro hnil
      exact h (by rw [hms, sjoinNamed, hnil, nickWords_nil]; rfl)
    · exact h.2
  -- the headers that the loop prints
  let hd : SjoinHead := ⟨client, source, rule.tstosend, chptr.chname,
    words (relayedParams a args chptr isnew), rule.keepNewModes⟩
  let mb : ModeBuf := ⟨putText buf (relayedModes a args chptr isnew), 0, 0⟩
  have hfirst : hd.header (a.dir.clients source).ID mb = firstHeader a source args chptr isnew := by
    have htext : bufText mb.bytes = relayedModes a args chptr isnew := by
      apply bufText_putText
      rw [hmodes]
      simp [hnul, hc.symm]
    rw [SjoinHead.header, htext]
    rfl
  have hnext : hd.header (a.dir.clients source).ID (mb.put '+') =
      nextHeader a source args chptr isnew := by
    have htext : bufText (mb.put '+').bytes = '+' :: (relayedModes a args chptr isnew).tail := by
      simp only [mb, hmodes, tail_cons]
      exact bufText_put_plus hnul buf
    rw [SjoinHead.header, htext]
    rfl
  have huid : (ms.foldl (fun st m => sjoinMember a.dir hd st m.1 m.2)
      ⟨sjoinChannel rule args.mode chptr, mb.put '+', ⟨hd.header (a.dir.clients source).name mb,
        []⟩,
        ⟨hd.header (a.dir.clients source).ID mb, []⟩⟩).uid =
      plainRelay a.dir (nextHeader a source args chptr isnew)
        (firstHeader a source args chptr isnew) ms := by
    have hkept := hok.headers
    rw [← hnext, ← hfirst] at hkept ⊢
    exact foldl_uid a.dir hd _ rfl hkept
  have hmembers : ¬((ms.foldl (joinMember a.dir) (sjoinChannel rule args.mode chptr)).members = [] ∧
      isnew = true) := by
    rintro ⟨hnil, hisnew⟩
    rcases hrelayed with h | h
    · exact foldl_joinMember_ne_nil a.dir (.inl h) hnil
    · simp [h.1] at hisnew
  have hloop : ∀ st : SjoinLoop, (nickWords args.nicks).foldl (sjoinNick a.dir hd) st =
      ms.foldl (fun st m => sjoinMember a.dir hd st m.1 m.2) st := foldl_sjoinNick a.dir hd _
  unfold sjoinBody
  simp only [← hrule, hbufs]
  change SjoinResult.uidLines (if (((nickWords args.nicks).foldl (sjoinNick a.dir hd)
    ⟨sjoinChannel rule args.mode chptr, mb.put '+', ⟨hd.header (a.dir.clients source).name mb, []⟩,
      ⟨hd.header (a.dir.clients source).ID mb, []⟩⟩).chptr.members = [] ∧ isnew = true) then _
    else if args.nicks = [] then _ else _) = _
  rw [hloop, foldl_sjoinMember_chptr, if_neg hmembers, if_neg hnicks]
  simp only [huid]

theorem sjoinBody_uidLines_nil (hnew : isnew = true → chptr.members = [])
    (hnil : sjoinNamed a client (sjoinRule a args.newts chptr isnew) args.nicks = [])
    (hquiet : isnew = true ∨ args.nicks = []) :
    (sjoinBody a client source args chptr isnew).uidLines = [] := by
  unfold sjoinNamed at hnil
  unfold sjoinBody
  simp only [foldl_sjoinNick, hnil, foldl_nil, map_nil]
  rcases hquiet with h | h
  · have hmembers : (sjoinChannel (sjoinRule a args.newts chptr isnew) args.mode chptr).members =
        [] := by
      unfold sjoinChannel
      split <;> simp [removeOurModes, hnew h]
    rw [if_pos ⟨hmembers, h⟩]
  · simp only [h, if_true]
    split <;> rfl

theorem length_nextHeader :
    (nextHeader a source args chptr isnew).length = (firstHeader a source args chptr
      isnew).length := by
  obtain ⟨c, text, hmodes, -, -⟩ := @relayedModes_split a args chptr isnew
  simp [nextHeader, firstHeader, hmodes, sjoinHeader]

theorem length_dText_le (v : Int) : (dText v).length ≤ 13 := by
  have hdrop : ((padDigits 12 v.natAbs).dropWhile (· == '0')).length ≤ 12 := by
    have hsub := (dropWhile_sublist (l := padDigits 12 v.natAbs) (· == '0')).length_le
    simpa using hsub
  unfold dText
  split
  · simp
  · split
    · rw [length_cons]
      omega
    · omega

theorem length_words_modeParams_le {mode : Mode} (hmode : mode.Wf) :
    (words (modeParams mode.limit mode.key)).length ≤ 38 := by
  have hlimit := length_dText_le (limitToInt mode.limit)
  have hkey : mode.key.length < 24 := hmode
  unfold modeParams
  split <;> split <;> simp <;> omega

theorem length_firstHeader_le (hid : (a.dir.clients source).ID.length ≤ HOSTLEN)
    (hname : chptr.chname.length ≤ CHANNELLEN) (hmode : (stayingMode a args chptr isnew).Wf) :
    (firstHeader a source args chptr isnew).length ≤ 182 := by
  have hlu := length_luText_le (toULong (sjoinRule a args.newts chptr isnew).tstosend)
  have hmodes : (relayedModes a args chptr isnew).length ≤ 9 := by
    unfold relayedModes
    split
    · exact length_modeText_le _
    · simp
  have hparams : (words (relayedParams a args chptr isnew)).length ≤ 38 := by
    unfold relayedParams
    split
    · exact length_words_modeParams_le hmode
    · simp
  unfold HOSTLEN at hid
  unfold CHANNELLEN at hname
  simp [firstHeader, sjoinHeader]
  omega

end Relayed

/-! ### What the other server reads -/

theorem behind_of_mem_sjoinNamed {a : SjoinEnv} {linkA : Cid} {rule : TsRule} {nicks : CStr}
    {m : Cid × Finset ChFlag} (h : m ∈ sjoinNamed a linkA rule nicks) :
    (a.dir.clients m.1).from = linkA ∧ (a.dir.clients m.1).isClient = true :=
  isClient_of_mem_named h

theorem no_status_of_mem_sjoinNamed {a : SjoinEnv} {linkA : Cid} {rule : TsRule} {nicks : CStr}
    (hnew : rule.keepNewModes = false) {m : Cid × Finset ChFlag}
    (h : m ∈ sjoinNamed a linkA rule nicks) : m.2 ∩ opFlags = ∅ := by
  obtain ⟨w, -, hw⟩ := List.mem_filterMap.mp h
  obtain ⟨target, -, rfl⟩ := Option.map_eq_some_iff.mp hw
  simp only [keptFlags, hnew, Bool.false_eq_true, if_false]
  split <;> decide

section Reading

variable {a b : SjoinEnv} {linkA linkB source : Cid}

theorem Linked.relayWords (h : Linked a b linkA linkB source) (rule : TsRule) (nicks : CStr) :
    RelayWords a.dir (sjoinNamed a linkA rule nicks) := by
  intro m hm
  obtain ⟨hfrom, hclient⟩ := behind_of_mem_sjoinNamed hm
  obtain ⟨hne, hblank, -, -⟩ := h.memberWord _ hfrom hclient
  constructor
  · simp [relayWord, hne]
  · simp [relayWord, hblank, statusPrefix_noBlank]

theorem Linked.resolves (h : Linked a b linkA linkB source) (rule : TsRule) (nicks : CStr) :
    Resolves a.dir b.dir linkB (sjoinNamed a linkA rule nicks) := by
  intro m hm
  obtain ⟨hfrom, hclient⟩ := behind_of_mem_sjoinNamed hm
  obtain ⟨-, -, hprefix, -⟩ := h.memberWord _ hfrom hclient
  obtain ⟨hfromB, hclientB⟩ := h.memberBehind _ hfrom hclient
  have hread := readPrefix_statusPrefix hprefix m.2
  constructor
  · simp [wordTarget, relayWord, hread, h.memberFound _ hfrom hclient, hfromB, hclientB]
  · rw [relayWord, hread]

theorem Linked.fits (h : Linked a b linkA linkB source) {args : SjoinArgs} {chptr : Channel}
    {isnew : Bool} (hname : chptr.chname.length ≤ CHANNELLEN)
    (hmode : (stayingMode a args chptr isnew).Wf) (rule : TsRule) (nicks : CStr) :
    ∀ m ∈ sjoinNamed a linkA rule nicks,
      (nextHeader a source args chptr isnew).length + (relayWord a.dir m).length ≤
        IRCD_BUFSIZE - 2 := by
  intro m hm
  obtain ⟨hfrom, hclient⟩ := behind_of_mem_sjoinNamed hm
  obtain ⟨-, -, -, hlen⟩ := h.memberWord _ hfrom hclient
  have hheader := @length_firstHeader_le a source args chptr isnew h.sourceLength hname hmode
  have hprefix := length_statusPrefix_le m.2
  unfold HOSTLEN at hlen
  rw [length_nextHeader, relayWord, length_append]
  unfold IRCD_BUFSIZE
  omega

theorem Linked.readable (h : Linked a b linkA linkB source) {args : SjoinArgs} {chptr : Channel}
    {isnew : Bool} (hok : RelayOk a linkA source args chptr isnew)
    (hrelayed : sjoinNamed a linkA (sjoinRule a args.newts chptr isnew) args.nicks ≠ [] ∨
      isnew = false ∧ args.nicks ≠ [])
    (hhash : chptr.chname.head? = some '#') (hchars : checkChannelName chptr.chname = true)
    (hshort : chptr.chname.length ≤ CHANNELLEN) (hmode : (stayingMode a args chptr isnew).Wf) :
    Readable b linkB source (a.dir.clients source).ID (sjoinRule a args.newts chptr isnew).tstosend
        chptr.chname (relayedModes a args chptr isnew) (relayedParams a args chptr isnew)
        (relayedMode a args chptr isnew) ∧
      Readable b linkB source (a.dir.clients source).ID (sjoinRule a args.newts chptr
        isnew).tstosend
        chptr.chname ('+' :: (relayedModes a args chptr isnew).tail)
        (relayedParams a args chptr isnew) (relayedMode a args chptr isnew) := by
  have hparams : ∀ w ∈ relayedParams a args chptr isnew, IsWord w := by
    intro w hw
    unfold relayedParams at hw
    split at hw
    · rename_i hrelays
      rcases List.mem_append.mp hw with hw | hw
      · split at hw
        · simp at hw
        · obtain rfl := List.mem_singleton.mp hw
          obtain ⟨hlow, hhigh⟩ := limitToInt_bounds (stayingMode a args chptr isnew).limit
          exact isWord_dText hlow hhigh
      · split at hw
        · simp at hw
        · rename_i hne
          obtain rfl := List.mem_singleton.mp hw
          exact (hok.key hrelayed hrelays).resolve_left hne
    · simp at hw
  have hfew : (relayedParams a args chptr isnew).length ≤ 2 := by
    unfold relayedParams modeParams
    split
    · split <;> split <;> simp
    · simp
  have hmeaning : ∀ nicks, readModes (relayedModes a args chptr isnew) Mode.zero
      (relayedParams a args chptr isnew ++ [nicks]) = some
        (relayedMode a args chptr isnew, [nicks]) ∧
      readModes ('+' :: (relayedModes a args chptr isnew).tail) Mode.zero
      (relayedParams a args chptr isnew ++ [nicks]) = some
        (relayedMode a args chptr isnew, [nicks]) := by
    intro nicks
    unfold relayedModes relayedParams relayedMode
    split
    · exact ⟨readModes_modeText hmode nicks, readModes_modeText hmode nicks⟩
    · have hzero : Mode.zero.mode ∪ (simpleModeOf '0').toFinset = Mode.zero.mode := by decide
      constructor
      · rw [readModes, hzero]
        · rfl
        · decide
        · decide
      · exact readModes_plus _ _ _
  have hwords : IsWord (relayedModes a args chptr isnew) ∧
      IsWord ('+' :: (relayedModes a args chptr isnew).tail) := by
    unfold relayedModes
    split
    · exact ⟨isWord_modeText _, isWord_modeText _⟩
    · exact ⟨⟨by decide, by decide, by decide⟩, ⟨by decide, by decide, by decide⟩⟩
  obtain ⟨hlow, hhigh⟩ := hok.stamp hrelayed
  exact ⟨⟨h.sourceFound, h.sourceBehind, h.sourceStatus, h.sourceBlank, hlow, hhigh, hhash, hchars,
      hshort, hwords.1, hparams, hfew, fun nicks => (hmeaning nicks).1⟩,
    ⟨h.sourceFound, h.sourceBehind, h.sourceStatus, h.sourceBlank, hlow, hhigh, hhash, hchars,
      hshort, hwords.2, hparams, hfew, fun nicks => (hmeaning nicks).2⟩⟩

end Reading

/-! ### Stamps -/

theorem effectiveTs_of_le {cf : Config} {ts : Int} (h : 800000000 ≤ ts) (oldts : Int) :
    effectiveTs cf ts oldts = ts := by
  have hlt : ¬ts < 800000000 := by omega
  simp [effectiveTs, hlt]

theorem effectiveTs_of_off {cf : Config} (h : cf.file.ignoreBogusTs = false) (ts oldts : Int) :
    effectiveTs cf ts oldts = ts := by
  simp [effectiveTs, h]

theorem effectiveTs_bogus {cf : Config} (h : cf.file.ignoreBogusTs = true) {newts oldts : Int}
    (hlt : effectiveTs cf newts oldts < 800000000) :
    effectiveTs cf newts oldts = 0 ∧ oldts = 0 := by
  unfold effectiveTs at hlt ⊢
  simp only [h, Bool.true_and, decide_eq_true_eq] at hlt ⊢
  split at hlt
  · rename_i hts
    rw [if_pos hts]
    split at hlt
    · rename_i hold
      exact ⟨if_pos hold, hold⟩
    · omega
  · omega

theorem tsRule_cases (eff oldts : Int) :
    (eff = 0 ∨ oldts = 0) ∧ tsRule false eff oldts = ⟨0, 0, true, true⟩ ∨
      oldts ≠ 0 ∧ eff = oldts ∧ tsRule false eff oldts = ⟨oldts, oldts, true, true⟩ ∨
      eff ≠ 0 ∧ oldts ≠ 0 ∧ eff < oldts ∧ tsRule false eff oldts = ⟨eff, eff, false, true⟩ ∨
      eff ≠ 0 ∧ oldts ≠ 0 ∧ oldts < eff ∧ tsRule false eff oldts = ⟨oldts, oldts, true, false⟩ := by
  by_cases hzero : eff = 0 ∨ oldts = 0
  · exact .inl ⟨hzero, by simp [tsRule, hzero]⟩
  · obtain ⟨heff, hold⟩ := not_or.mp hzero
    rcases lt_trichotomy eff oldts with hlt | heq | hgt
    · exact .inr (.inr (.inl ⟨heff, hold, hlt, by simp [tsRule, heff, hold, hlt.ne, hlt]⟩))
    · exact .inr (.inl ⟨hold, heq, by simp [tsRule, heq, hold]⟩)
    · exact .inr (.inr (.inr ⟨heff, hold, hgt, by
        simp [tsRule, heff, hold, hgt.ne', not_lt_of_gt hgt]⟩))

theorem tsRule_relayed {cf : Config} {eff oldts : Int}
    (hbogus : cf.file.ignoreBogusTs = true → eff < 800000000 → eff = 0 ∧ oldts = 0) :
    (tsRule false (effectiveTs cf (tsRule false eff oldts).tstosend oldts) oldts).channelts =
        (tsRule false eff oldts).channelts ∧
      (tsRule false (effectiveTs cf (tsRule false eff oldts).tstosend oldts) oldts).keepOurModes =
        (tsRule false eff oldts).keepOurModes ∧
      ((tsRule false eff oldts).keepNewModes = true →
        tsRule false (effectiveTs cf (tsRule false eff oldts).tstosend oldts) oldts =
          tsRule false eff oldts) := by
  cases hB : cf.file.ignoreBogusTs with
  | false =>
    rw [effectiveTs_of_off hB]
    rcases tsRule_cases eff oldts with ⟨-, h⟩ | ⟨-, rfl, h⟩ | ⟨-, -, -, h⟩ | ⟨-, hold, -, h⟩
    · rw [h]
      simp [tsRule]
    · rw [h]
      simp [h]
    · rw [h]
      simp [h]
    · rw [h]
      simp [tsRule, hold]
  | true =>
    rcases tsRule_cases eff oldts with ⟨hzero, h⟩ | ⟨hold, rfl, h⟩ | ⟨heff, hold, hlt, h⟩ |
      ⟨heff, hold, hgt, h⟩
    · have hold : oldts = 0 := by
        rcases hzero with h0 | h0
        · exact (hbogus hB (by omega)).2
        · exact h0
      rw [h]
      simp [effectiveTs, hB, hold, tsRule]
    · have hge : 800000000 ≤ eff := by
        by_contra hlt
        exact hold (hbogus hB (by omega)).2
      rw [h, effectiveTs_of_le hge]
      simp [h]
    · have hge : 800000000 ≤ eff := by
        by_contra hlt'
        exact hold (hbogus hB (by omega)).2
      rw [h, effectiveTs_of_le hge]
      simp [h]
    · rw [h]
      rcases lt_or_ge oldts 800000000 with hlow | hlow
      · have hbig : effectiveTs cf oldts oldts = 800000000 := by
          simp [effectiveTs, hB, hlow, hold]
        have hne : (800000000 : Int) ≠ oldts := by omega
        have hnot : ¬(800000000 : Int) < oldts := by omega
        rw [hbig]
        simp [tsRule, hold, hne, hnot]
      · rw [effectiveTs_of_le hlow]
        simp [tsRule, hold]

theorem tstosend_eq (isnew : Bool) (eff oldts : Int) :
    (tsRule isnew eff oldts).tstosend = (tsRule isnew eff oldts).channelts := by
  cases isnew with
  | true => rfl
  | false =>
    rcases tsRule_cases eff oldts with ⟨-, h⟩ | ⟨-, -, h⟩ | ⟨-, -, -, h⟩ | ⟨-, -, -, h⟩ <;> rw [h]

theorem keepOur_of_not_keepNew {isnew : Bool} {eff oldts : Int}
    (h : (tsRule isnew eff oldts).keepNewModes = false) :
    (tsRule isnew eff oldts).keepOurModes = true := by
  cases isnew with
  | true => rfl
  | false =>
    rcases tsRule_cases eff oldts with ⟨-, h'⟩ | ⟨-, -, h'⟩ | ⟨-, -, -, h'⟩ | ⟨-, -, -, h'⟩
    · rw [h']
    · rw [h']
    · rw [h'] at h
      simp at h
    · rw [h']

theorem not_keepNew_of_bogus {cf : Config} {eff oldts : Int}
    (hbogus : cf.file.ignoreBogusTs = true → eff < 800000000 → eff = 0 ∧ oldts = 0)
    (hB : cf.file.ignoreBogusTs = true) (hlow : (tsRule false eff oldts).tstosend < 800000000)
    (hne : (tsRule false eff oldts).tstosend ≠ 0) :
    (tsRule false eff oldts).keepNewModes = false := by
  rcases tsRule_cases eff oldts with ⟨-, h⟩ | ⟨hold, rfl, h⟩ | ⟨heff, -, -, h⟩ | ⟨-, -, -, h⟩
  · rw [h] at hne
    simp at hne
  · rw [h] at hlow
    exact absurd (hbogus hB hlow).2 hold
  · rw [h] at hlow
    exact absurd (hbogus hB hlow).1 heff
  · rw [h]

/-! ### The simulation -/

section Simulation

variable {a b : SjoinEnv} {linkA linkB source : Cid} {args : SjoinArgs}

theorem settle_relayed (hlinked : Linked a b linkA linkB source) {chptr chptrB : Channel}
    (hview : chptr.view = chptrB.view)
    (hzero : args.modes.head? = some '0' → (sjoinRule a args.newts chptr false).keepNewModes =
      true →
      stayingMode a args chptr false =
        keptMode (sjoinRule a args.newts chptr false) Mode.zero chptr.mode) :
    chptrB.view.settle (sjoinRule b (sjoinRule a args.newts chptr false).tstosend chptrB false)
        (relayedMode a args chptr false) =
      chptr.view.settle (sjoinRule a args.newts chptr false) args.mode := by
  have hts : chptrB.channelts = chptr.channelts := (congrArg View.ts hview).symm
  obtain ⟨hruleTs, hruleOur, hruleNew⟩ := @tsRule_relayed b.cf
    (effectiveTs a.cf args.newts chptr.channelts) chptr.channelts
    fun hB => effectiveTs_bogus (hlinked.bogusTs hB)
  have hruleB : sjoinRule b (sjoinRule a args.newts chptr false).tstosend chptrB false =
      tsRule false (effectiveTs b.cf (sjoinRule a args.newts chptr false).tstosend chptr.channelts)
        chptr.channelts := by
    rw [sjoinRule, hts]
  rw [hruleB, ← hview]
  set rule := sjoinRule a args.newts chptr false with hrule
  rw [sjoinRule] at hrule
  rw [← hrule] at hruleTs hruleOur hruleNew
  -- the mode string that was relayed leaves the modes that stay
  have hmode : keptMode (tsRule false (effectiveTs b.cf rule.tstosend chptr.channelts)
      chptr.channelts) (relayedMode a args chptr false) chptr.mode = stayingMode a args chptr
        false := by
    cases hnew : rule.keepNewModes with
    | true =>
      rw [hruleNew hnew]
      unfold relayedMode
      split
      · rename_i hrelays
        cases hour : rule.keepOurModes with
        | true =>
          have hstay : stayingMode a args chptr false = args.mode ⊔ chptr.mode :=
            keptMode_join hour hnew _ _
          rw [keptMode_join hour hnew, hstay, sup_assoc, sup_idem]
        | false => simp [keptMode, hnew, hour]
      · rename_i hrelays
        have hhead : args.modes.head? = some '0' := by
          by_contra hne
          exact hrelays ⟨hne, hnew⟩
        exact (hzero hhead hnew).symm
    | false =>
      have hrelays : ¬relaysModes a args chptr false := fun h => by
        have hnew' : rule.keepNewModes = true := h.2
        rw [hnew] at hnew'
        exact absurd hnew' (by decide)
      have hour : rule.keepOurModes = true := keepOur_of_not_keepNew hnew
      have hstay : stayingMode a args chptr false = chptr.mode := by
        change keptMode rule args.mode chptr.mode = chptr.mode
        simp [keptMode, hnew]
      rw [relayedMode, if_neg hrelays, hstay]
      cases hnewB : (tsRule false (effectiveTs b.cf rule.tstosend chptr.channelts)
        chptr.channelts).keepNewModes with
      | true => rw [keptMode_join (hruleOur.trans hour) hnewB, mode_zero_eq_bot, bot_sup_eq]
      | false => simp [keptMode, hnewB]
  simp only [View.settle, hruleTs, hruleOur, Channel.view, hmode]
  rfl

theorem relayedMode_le (chptr : Channel) (isnew : Bool) :
    relayedMode a args chptr isnew ≤ stayingMode a args chptr isnew := by
  unfold relayedMode
  split
  · exact le_rfl
  · exact bot_le

theorem deliver_of_no_nicks (hlinked : Linked a b linkA linkB source) {chptr : Channel}
    {isnew : Bool} (hok : RelayOk a linkA source args chptr isnew)
    (hrelayed : isnew = false ∧ args.nicks ≠ [])
    (hhash : chptr.chname.head? = some '#') (hchars : checkChannelName chptr.chname = true)
    (hshort : chptr.chname.length ≤ CHANNELLEN) (hmode : (stayingMode a args chptr isnew).Wf)
    (chan : Option Channel) :
    deliver b linkB chan (sendFormat (firstHeader a source args chptr isnew).dropLast) = chan := by
  obtain ⟨hread, -⟩ := hlinked.readable hok (.inr hrelayed) hhash hchars hshort hmode
  have hlen := @length_firstHeader_le a source args chptr isnew hlinked.sourceLength hshort hmode
  have hsend : sendFormat (firstHeader a source args chptr isnew).dropLast =
      (firstHeader a source args chptr isnew).dropLast := by
    apply take_of_length_le
    rw [length_dropLast]
    unfold IRCD_BUFSIZE
    omega
  have hlu : IsWord (luText (toULong (sjoinRule a args.newts chptr isnew).tstosend)) := by
    rw [toULong_of_bounds hread.stampLow hread.stampHigh]
    apply isWord_luText
    have := hread.stampHigh
    omega
  have hwords : ∀ w ∈ [luText (toULong (sjoinRule a args.newts chptr isnew).tstosend), chptr.chname,
      relayedModes a args chptr isnew] ++ relayedParams a args chptr isnew, IsWord w := by
    intro w hw
    rcases List.mem_append.mp hw with hw | hw
    · simp only [mem_cons, not_mem_nil, or_false] at hw
      rcases hw with rfl | rfl | rfl
      · exact hlu
      · exact isWord_chname hhash hchars
      · exact hread.modesWord
    · exact hread.paramWords w hw
  have hline : (firstHeader a source args chptr isnew).dropLast =
      ':' :: (a.dir.clients source).ID ++ ' ' :: "SJOIN".toList ++
        ' ' :: words ([luText (toULong (sjoinRule a args.newts chptr isnew).tstosend), chptr.chname,
          relayedModes a args chptr isnew] ++ relayedParams a args chptr isnew) := by
    have hcolon : firstHeader a source args chptr isnew =
        (':' :: (a.dir.clients source).ID ++ ' ' :: "SJOIN".toList ++
          ' ' :: words ([luText (toULong (sjoinRule a args.newts chptr isnew).tstosend),
            chptr.chname, relayedModes a args chptr isnew] ++ relayedParams a args chptr isnew)) ++
          [':'] := by
      simp [firstHeader, sjoinHeader]
    rw [hcolon, dropLast_concat]
  have hsjoin : IsWord "SJOIN".toList := ⟨by decide, by decide, by decide⟩
  have hfew : ([luText (toULong (sjoinRule a args.newts chptr isnew).tstosend), chptr.chname,
      relayedModes a args chptr isnew] ++ relayedParams a args chptr isnew).length ≤ MAXPARA -
        2 := by
    have := hread.fewParams
    simp [MAXPARA]
    omega
  -- the parameters that are there are taken for the modes, and none is left
  have hnone : readSjoin b.dir source
      ([luText (toULong (sjoinRule a args.newts chptr isnew).tstosend), chptr.chname,
        relayedModes a args chptr isnew] ++ relayedParams a args chptr isnew) = none := by
    cases hparams : relayedParams a args chptr isnew with
    | nil => rfl
    | cons p ps =>
      have hrelays : relaysModes a args chptr isnew := by
        by_contra h
        simp [relayedParams, h] at hparams
      have hmodes : readModes (relayedModes a args chptr isnew) Mode.zero (p :: ps) = none := by
        rw [relayedParams, if_pos hrelays] at hparams
        rw [relayedModes, if_pos hrelays]
        exact readModes_modeText_none hparams (by simp)
      simp [readSjoin, hread.notClient, hhash, hchars, hmodes]
  rw [hsend, hline, deliver, parseLine_eq hread.senderBlank hsjoin,
    stringToArray_words_only hwords hfew]
  simp only [hread.found, msSjoin, hnone]
  split <;> rfl

theorem sjoinBody_simulates (hlinked : Linked a b linkA linkB source) {chptr chptrB : Channel}
    (hview : chptr.view = chptrB.view) (hok : RelayOk a linkA source args chptr false)
    (hhash : chptr.chname.head? = some '#') (hchars : checkChannelName chptr.chname = true)
    (hshort : chptr.chname.length ≤ CHANNELLEN) (hmode : (stayingMode a args chptr false).Wf) :
    SameChannel (sjoinBody a linkA source args chptr false).chan
      ((sjoinBody a linkA source args chptr false).uidLines.foldl (deliver b linkB)
        (some chptrB)) := by
  have hviewA := @sjoinBody_view a linkA source args chptr false (by simp)
  rw [if_neg (by simp)] at hviewA
  rw [SameChannel, hviewA]
  set ms := sjoinNamed a linkA (sjoinRule a args.newts chptr false) args.nicks with hms
  rcases eq_or_ne ms [] with hnil | hne
  · -- nobody joins: the burst changed nothing, and no line does
    have hsettle := (hok.effect.resolve_left (not_not.mpr hnil)).resolve_left (by simp)
    rw [hnil, foldl_nil, hsettle]
    by_cases hnicks : args.nicks = []
    · rw [sjoinBody_uidLines_nil (by simp) hnil (.inr hnicks), foldl_nil]
      simp [hview]
    · have hrelayed : false = false ∧ args.nicks ≠ [] := ⟨rfl, hnicks⟩
      rw [sjoinBody_uidLines hlinked.sourceServer hok (.inr hrelayed), ← hms, hnil]
      change _ = Option.map Channel.view (List.foldl (deliver b linkB) (some chptrB)
        [sendFormat (firstHeader a source args chptr false).dropLast])
      rw [foldl_cons, foldl_nil,
        deliver_of_no_nicks hlinked hok hrelayed hhash hchars hshort hmode]
      simp [hview]
  · obtain ⟨hfirst, hnext⟩ := hlinked.readable hok (.inl hne) hhash hchars hshort hmode
    obtain ⟨chunks, hflat, hlines⟩ := relay_lines (@length_nextHeader a source args chptr false) hne
      (hlinked.fits hshort hmode _ _) (hlinked.relayWords _ _)
    rw [← sjoinBody_uidLines hlinked.sourceServer hok (.inl hne)] at hlines
    have hres := hlinked.resolves (sjoinRule a args.newts chptr false) args.nicks
    rw [← hms] at hres
    have hbogus : b.cf.file.ignoreBogusTs = true →
        effectiveTs a.cf args.newts chptr.channelts < 800000000 →
        effectiveTs a.cf args.newts chptr.channelts = 0 ∧ chptr.channelts = 0 :=
      fun hB => effectiveTs_bogus (hlinked.bogusTs hB)
    generalize (sjoinBody a linkA source args chptr false).uidLines = lines at hlines
    cases hlines with
    | nil =>
      rw [flatten_nil] at hflat
      exact absurd hflat.symm hne
    | @cons line c lines cs hline hrest =>
      have hsub : ∀ m ∈ c, m ∈ ms := fun m hm => by
        rw [← hflat]
        simp [hm]
      have hsubs : ∀ m ∈ cs.flatten, m ∈ ms := fun m hm => by
        rw [← hflat, flatten_cons]
        exact mem_append_right _ hm
      -- the first line settles the channel as the burst did
      have hfirstView := deliver_some_view hfirst hnext hline (fun m hm => hres m (hsub m hm))
          chptrB
        (by
          intro hkeep m hm
          cases hnew : (sjoinRule a args.newts chptr false).keepNewModes with
          | false => exact no_status_of_mem_sjoinNamed hnew (hsub m hm)
          | true =>
            have hts : chptrB.channelts = chptr.channelts := (congrArg View.ts hview).symm
            have hsame := (tsRule_relayed hbogus).2.2 hnew
            rw [sjoinRule, hts] at hkeep
            change (tsRule false (effectiveTs b.cf (tsRule false (effectiveTs a.cf args.newts
              chptr.channelts) chptr.channelts).tstosend chptr.channelts)
              chptr.channelts).keepNewModes = false at hkeep
            rw [hsame] at hkeep
            exact absurd (hkeep.symm.trans hnew) (by decide))
      rw [settle_relayed hlinked hview fun hhead hnew =>
        (hok.zero (.inl hne) hhead hnew).1] at hfirstView
      obtain ⟨htsC, hmodeC⟩ := foldl_join_fields c
        (chptr.view.settle (sjoinRule a args.newts chptr false) args.mode)
      -- and the others add their members
      have hall := foldl_deliver_view hfirst hnext hrest (fun m hm => hres m (hsubs m hm))
        (by
          intro hkeep m hm
          obtain ⟨hB, hlow, hzero⟩ := (tsRule_again b.cf _).2.2 hkeep
          exact no_status_of_mem_sjoinNamed (not_keepNew_of_bogus hbogus hB hlow hzero)
            (hsubs m hm))
        hfirstView (htsC.trans (tstosend_eq _ _ _).symm)
        ((relayedMode_le chptr false).trans (le_of_eq hmodeC.symm))
      rw [foldl_cons, hall, ← foldl_append, ← flatten_cons, hflat]

theorem sjoinBody_simulates_new (hlinked : Linked a b linkA linkB source)
    (hok : RelayOk a linkA source args ⟨args.chname, a.now, Mode.zero, [], [], [], []⟩ true)
    (hhash : args.chname.head? = some '#') (hchars : checkChannelName args.chname = true)
    (hshort : args.chname.length ≤ CHANNELLEN)
    (hmode : (stayingMode a args ⟨args.chname, a.now, Mode.zero, [], [], [], []⟩ true).Wf) :
    SameChannel
      (sjoinBody a linkA source args ⟨args.chname, a.now, Mode.zero, [], [], [], []⟩ true).chan
      ((sjoinBody a linkA source args ⟨args.chname, a.now, Mode.zero, [], [], [], []⟩
        true).uidLines.foldl
        (deliver b linkB) none) := by
  set chptr : Channel := ⟨args.chname, a.now, Mode.zero, [], [], [], []⟩ with hchptr
  have hviewA := @sjoinBody_view a linkA source args chptr true fun _ => rfl
  rw [SameChannel, hviewA]
  set ms := sjoinNamed a linkA (sjoinRule a args.newts chptr true) args.nicks with hms
  rcases eq_or_ne ms [] with hnil | hne
  · rw [sjoinBody_uidLines_nil (fun _ => rfl) hnil (.inl rfl), if_pos ⟨hnil, rfl⟩]
    rfl
  · rw [if_neg fun h => hne h.1]
    obtain ⟨hfirst, hnext⟩ := hlinked.readable hok (.inl hne) hhash hchars hshort hmode
    obtain ⟨chunks, hflat, hlines⟩ := relay_lines (@length_nextHeader a source args chptr true) hne
      (hlinked.fits hshort hmode _ _) (hlinked.relayWords _ _)
    rw [← sjoinBody_uidLines hlinked.sourceServer hok (.inl hne)] at hlines
    have hres := hlinked.resolves (sjoinRule a args.newts chptr true) args.nicks
    rw [← hms] at hres
    set eff := effectiveTs a.cf args.newts a.now with heff
    have hrule : sjoinRule a args.newts chptr true = ⟨eff, eff, true, true⟩ := rfl
    -- the stamp counts for the other server as it did for this one
    have hbogus : b.cf.file.ignoreBogusTs = true → 800000000 ≤ eff := fun hB => by
      by_contra hlt
      exact a.clockSet (effectiveTs_bogus (hlinked.bogusTs hB) (not_le.mp hlt)).2
    have heffB : effectiveTs b.cf eff b.now = eff := by
      cases hB : b.cf.file.ignoreBogusTs with
      | false => exact effectiveTs_of_off hB _ _
      | true => exact effectiveTs_of_le (hbogus hB) _
    have hstay : stayingMode a args chptr true = args.mode := by
      change keptMode (sjoinRule a args.newts chptr true) args.mode Mode.zero = args.mode
      rw [keptMode_join rfl rfl, mode_zero_eq_bot, sup_bot_eq]
    have hmeant : relayedMode a args chptr true = args.mode := by
      unfold relayedMode
      split
      · exact hstay
      · rename_i hrelays
        have hhead : args.modes.head? = some '0' := by
          by_contra hzero
          exact hrelays ⟨hzero, rfl⟩
        have hzero := (hok.zero (.inl hne) hhead rfl).1
        rw [hstay] at hzero
        rw [hzero, keptMode_join rfl rfl, mode_zero_eq_bot]
        exact (bot_sup_eq _).symm
    have hsettle : chptr.view.settle (sjoinRule a args.newts chptr true) args.mode =
        ⟨eff, args.mode, fun _ => none⟩ := by
      simp only [View.settle, hrule, if_true, keptMode_both]
      rw [View.mk.injEq]
      refine ⟨rfl, ?_, rfl⟩
      change args.mode ⊔ Mode.zero = args.mode
      rw [mode_zero_eq_bot, sup_bot_eq]
    generalize (sjoinBody a linkA source args chptr true).uidLines = lines at hlines
    cases hlines with
    | nil =>
      rw [flatten_nil] at hflat
      exact absurd hflat.symm hne
    | @cons line c lines cs hline hrest =>
      have hsub : ∀ m ∈ c, m ∈ ms := fun m hm => by
        rw [← hflat]
        simp [hm]
      have hsubs : ∀ m ∈ cs.flatten, m ∈ ms := fun m hm => by
        rw [← hflat, flatten_cons]
        exact mem_append_right _ hm
      have hfirstView := deliver_none_view hfirst hnext hline fun m hm => hres m (hsub m hm)
      rw [hmeant] at hfirstView
      have htosend : (sjoinRule a args.newts chptr true).tstosend = eff := rfl
      rw [htosend, heffB] at hfirstView
      obtain ⟨htsC, hmodeC⟩ := foldl_join_fields c ⟨eff, args.mode, fun _ => none⟩
      have hall := foldl_deliver_view hfirst hnext hrest (fun m hm => hres m (hsubs m hm))
        (by
          intro hkeep
          rw [htosend] at hkeep
          obtain ⟨hB, hlow, -⟩ := (tsRule_again b.cf eff).2.2 hkeep
          exact absurd (hbogus hB) (not_le.mpr hlow))
        hfirstView htsC (le_of_eq (hmeant.trans hmodeC.symm))
      rw [foldl_cons, hall, hsettle, ← foldl_append, ← flatten_cons, hflat]

theorem wf_readSjoin {dir : Directory} {parv : List CStr}
    (h : readSjoin dir source parv = some args) : args.mode.Wf := by
  unfold readSjoin at h
  split at h
  case h_1 ts chname modes nicks rest =>
    split at h
    · simp at h
    · obtain ⟨⟨mode, left⟩, hread, rfl⟩ := Option.map_eq_some_iff.mp h
      exact wf_readModes Mode.wf_zero hread
  case h_2 => simp at h

/-- Two servers that hold the same channel hold the same channel again after one
has handled a burst and the other the lines it relayed, when the relay is read
as it was meant. -/
theorem sjoin_relay_simulates {parv : List CStr} {chanA chanB : Option Channel}
    (hlinked : Linked a b linkA linkB source) (hsame : SameChannel chanA chanB)
    (hname : ∀ chptr ∈ chanA, ∀ args, readSjoin a.dir source parv = some args →
      ircEq chptr.chname args.chname = true)
    (hkey : ∀ chptr ∈ chanA, chptr.mode.Wf)
    (hok : ∀ args chptr isnew, readSjoin a.dir source parv = some args →
      getOrCreateChannel a.now args.chname chanA = some (chptr, isnew) →
      RelayOk a linkA source args chptr isnew) :
    SameChannel (msSjoin a linkA source parv chanA).chan
      ((msSjoin a linkA source parv chanA).uidLines.foldl (deliver b linkB) chanB) := by
  cases hread : readSjoin a.dir source parv with
  | none => simpa [msSjoin, hread] using hsame
  | some args =>
    obtain ⟨hhash, hchars⟩ := readSjoin_chname hread
    cases hcreate : getOrCreateChannel a.now args.chname chanA with
    | none => simpa [msSjoin, hread, hcreate] using hsame
    | some found =>
      obtain ⟨chptr, isnew⟩ := found
      have hbody : msSjoin a linkA source parv chanA =
          sjoinBody a linkA source args chptr isnew := by
        simp [msSjoin, hread, hcreate]
      have hok' := hok args chptr isnew hread hcreate
      rw [hbody]
      unfold getOrCreateChannel at hcreate
      split at hcreate
      · simp at hcreate
      · rename_i hlen
        have hshort : args.chname.length ≤ CHANNELLEN := not_lt.mp (not_or.mp hlen).2
        cases chanA with
        | some chptrA =>
          obtain ⟨rfl, rfl⟩ := Prod.mk.inj (Option.some.inj hcreate)
          obtain ⟨chptrB, rfl, hview⟩ := Option.map_eq_some_iff.mp hsame.symm
          obtain ⟨hhash', hchars', hlen'⟩ :=
            chname_of_ircEq (hname _ rfl args hread) hhash hchars
          exact sjoinBody_simulates hlinked hview.symm hok' hhash' hchars' (hlen' ▸ hshort)
            (wf_keptMode (wf_readSjoin hread) (hkey _ rfl))
        | none =>
          obtain ⟨rfl, rfl⟩ := Prod.mk.inj (Option.some.inj hcreate)
          have hnone : chanB = none := Option.map_eq_none_iff.mp hsame.symm
          rw [hnone]
          exact sjoinBody_simulates_new hlinked hok' hhash hchars hshort
            (wf_keptMode (wf_readSjoin hread) Mode.wf_zero)

end Simulation

/-! ### A hub and a leaf -/

/-- The server on the other side of the link: it sees the hub and its client
behind the server it is linked to. -/
def leafDirectory : Directory where
  clients c :=
    if c = 1 then
      { (default : Client) with
        status := .server, name := "hub.net".toList, id := "1AA".toList, «from» := 3 }
    else if c = 2 then
      { (default : Client) with
        status := .client, name := "nick".toList, id := "1AAAAAAAA".toList, «from» := 3 }
    else if c = 3 then
      { (default : Client) with
        status := .server, name := "mid.net".toList, id := "2BB".toList, «from» := 3 }
    else default
  hashFindId name := if name = "1AAAAAAAA".toList then some 2 else none
  findClient name := if name = "nick".toList then some 2 else none
  findServer name := if name = "1AA".toList then some 1 else none
  getHistory _ := none

def leafEnv : SjoinEnv where
  cf := default
  dir := leafDirectory
  now := 2000
  modebuf := []
  clockSet := by decide

theorem linked_hub_leaf : Linked hubEnv leafEnv 1 3 1 where
  bogusTs h := h
  sourceServer := by decide
  sourceFound := by decide
  sourceBehind := by decide
  sourceStatus := by decide
  sourceBlank := by decide
  sourceLength := by decide
  memberFound c _ hclient := by
    obtain rfl := hub_client hclient
    decide
  memberBehind c _ hclient := by
    obtain rfl := hub_client hclient
    decide
  memberWord c _ hclient := by
    obtain rfl := hub_client hclient
    exact ⟨by decide, by decide, ⟨by decide, by decide, by decide⟩, by decide⟩

def sharedChannel : Channel :=
  ⟨"#c".toList, 200, ⟨{.topiclimit}, 0, "old".toList⟩, [], [], [], []⟩

def keyBurst : List CStr := ["100".toList, "#c".toList, "+nk".toList, "sesame".toList,
    "@nick".toList]

theorem relayOk_keyBurst (args : SjoinArgs) (chptr : Channel) (isnew : Bool)
    (hread : readSjoin hubEnv.dir 1 keyBurst = some args)
    (hcreate : getOrCreateChannel hubEnv.now args.chname (some sharedChannel) = some (chptr, isnew))
      :
    RelayOk hubEnv 1 1 args chptr isnew := by
  have hargs : readSjoin hubEnv.dir 1 keyBurst = some
      ⟨100, "#c".toList, "+nk".toList, ⟨{.noprivmsgs}, 0, "sesame".toList⟩, "@nick".toList⟩ := by
    decide
  obtain rfl := Option.some.inj (hargs.symm.trans hread)
  have hchan : getOrCreateChannel hubEnv.now "#c".toList (some sharedChannel) =
      some (sharedChannel, false) := by decide
  obtain ⟨rfl, rfl⟩ := Prod.mk.inj (Option.some.inj (hchan.symm.trans hcreate))
  have hnamed : sjoinNamed hubEnv 1 (sjoinRule hubEnv 100 sharedChannel false) "@nick".toList =
      [(2, {.chanop})] := by decide
  refine ⟨.inl (by rw [hnamed]; simp), fun _ => by decide, fun _ h => absurd h (by decide),
    fun _ _ => .inr ⟨by decide, by decide, by decide⟩, ?_⟩
  -- a single member needs no second line
  intro xs m ys hms _ x hx
  rw [hnamed] at hms
  cases xs with
  | nil => simp at hx
  | cons y xs =>
    have hlen := congrArg List.length hms
    simp at hlen

/-- The two servers hold the same channel after that burst. -/
theorem sjoin_relay_simulates_keyBurst :
    SameChannel (msSjoin hubEnv 1 1 keyBurst (some sharedChannel)).chan
      ((msSjoin hubEnv 1 1 keyBurst (some sharedChannel)).uidLines.foldl (deliver leafEnv 3)
        (some sharedChannel)) := by
  apply sjoin_relay_simulates linked_hub_leaf rfl
  · intro chptr hchptr args hread
    obtain rfl := Option.some.inj hchptr
    have hargs : readSjoin hubEnv.dir 1 keyBurst = some
        ⟨100, "#c".toList, "+nk".toList, ⟨{.noprivmsgs}, 0, "sesame".toList⟩, "@nick".toList⟩ := by
      decide
    obtain rfl := Option.some.inj (hargs.symm.trans hread)
    decide
  · intro chptr hchptr
    obtain rfl := Option.some.inj hchptr
    unfold Mode.Wf
    decide
  · exact relayOk_keyBurst

/-- An older burst without modes takes the key away and is relayed with the old
key where the nick list belongs: the operator it brings is lost behind the
relay. -/
theorem sjoin_relay_loses_nicks :
    Linked hubEnv leafEnv 1 3 1 ∧
      ¬ SameChannel
        (msSjoin hubEnv 1 1 ["100".toList, "#c".toList, "0".toList, "@nick".toList]
          (some sharedChannel)).chan
        ((msSjoin hubEnv 1 1 ["100".toList, "#c".toList, "0".toList, "@nick".toList]
          (some sharedChannel)).uidLines.foldl (deliver leafEnv 3) (some sharedChannel)) := by
  refine ⟨linked_hub_leaf, fun hsame => ?_⟩
  have hhub : ((msSjoin hubEnv 1 1 ["100".toList, "#c".toList, "0".toList, "@nick".toList]
      (some sharedChannel)).chan.map Channel.view).bind (fun v => v.status 2) =
      some {.chanop} := by decide
  have hleaf : (((msSjoin hubEnv 1 1 ["100".toList, "#c".toList, "0".toList, "@nick".toList]
      (some sharedChannel)).uidLines.foldl (deliver leafEnv 3) (some sharedChannel)).map
      Channel.view).bind (fun v => v.status 2) = none := by decide
  rw [SameChannel] at hsame
  rw [hsame, hleaf] at hhub
  exact absurd hhub (by decide)

end Ircd
