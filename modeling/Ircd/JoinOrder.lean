import Ircd.JoinLists
import Ircd.Lib.FirstCome
import Mathlib.Data.List.DropRight

/-!
The order of a channel list: what `m_join` makes of it, against the entries taken one by one.

The list is read into targets, where a channel has one place and a 0 cuts off what stands in
front of it. `oneByOne` joins the entries behind the last 0 one after the other, off all channels
if there is a 0. `join_order_iff` says when the two put the client on the same channels.
-/

namespace Ircd

open Function List

namespace MemberState

variable {s u : MemberState} {env : MemberEnv} {source : Cid} {ch : Nat} {name text : CStr}
  {key : Option CStr} {a : CStr} {c : ChannelData}

/-! ### One by one -/

/-- The entries of a channel list with the keys that they are given. -/
def listed (channels : CStr) (keys : Option CStr) : List (CStr × Option CStr) :=
  let chans := commaTokens channels
  chans.zip ((joinKeys keys).1 :: List.replicate chans.length (joinKeys keys).2)

def isZero (text : CStr) : Bool := checkChannelName text &&
    (text.head? == some '0' && atoi text == 0)

/-- The part of a list up to its last 0, and the part behind it. -/
def front (channels : CStr) (keys : Option CStr) : List (CStr × Option CStr) :=
  (listed channels keys).rdropWhile fun e => !isZero e.1

def behind (channels : CStr) (keys : Option CStr) : List (CStr × Option CStr) :=
  (listed channels keys).rtakeWhile fun e => !isZero e.1

def leaveAll (s : MemberState) (source : Cid) : MemberState :=
  (s.channel source).foldl (fun s m => s.removeUserFromChannel m) s

/-- Where the entries behind the last 0 start. -/
def afterZeros (s : MemberState) (source : Cid) (channels : CStr) (keys : Option CStr) :
    MemberState :=
  if front channels keys = [] then s else s.leaveAll source

/-- The entries of a list taken one by one: 0 is leaving all channels, so that only those behind
the last one count, and each is a JOIN of its own. -/
def oneByOne (s : MemberState) (env : MemberEnv) (source : Cid) (channels : CStr)
    (keys : Option CStr) :
    MemberState :=
  (behind channels keys).foldl (fun s e => s.mJoin env source (e.1 :: e.2.toList))
    (s.afterZeros source channels keys)

/-! ### What lets a client on a channel -/

/-- How many channels the client may be on. -/
def chanLimit (s : MemberState) (env : MemberEnv) (source : Cid) : Nat :=
  if (s.clients source).isOper then env.maxChansPerUser * 3 else env.maxChansPerUser

/-- The client is on as many channels as it may be. -/
def AtLimit (s : MemberState) (env : MemberEnv) (source : Cid) : Prop :=
  s.chanLimit env source ≤ (s.channel source).length

instance (s : MemberState) (env : MemberEnv) (source : Cid) : Decidable (s.AtLimit env source) :=
  inferInstanceAs (Decidable (_ ≤ _))

/-- The checks of `build_target_list` on a name. -/
def mayName (s : MemberState) (env : MemberEnv) (source : Cid) (chan : CStr) : Bool :=
  let who := s.clients source
  checkChannelName chan && isChanPrefix chan && !(env.disableLocalChannels && chan.head? == some
    '&') &&
    !decide (CHANNELLEN < chan.length) &&
    !(!who.isExemptResv && !(who.isOper && s.cf.file.operPassResv) &&
      (!s.cf.hashFindResv chan) == s.cf.channel.restrictChannels)

/-- The channel is there or may be made, as far as a split and a lazy uplink go. -/
def isOpen (s : MemberState) (env : MemberEnv) (source : Cid) (chan : CStr) : Bool :=
  match s.hashFindChannel chan with
  | some _ => !s.splitBars env source chan env.noJoinOnSplit
  | none =>
    !s.splitBars env source chan (env.noCreateOnSplit || env.noJoinOnSplit) &&
      !(chan.head? != some '&' && env.lazyUplink)

/-- A channel that is open lets the client in: `can_join`, if it is there. -/
def lets (s : MemberState) (env : MemberEnv) (source : Cid) (chan : CStr) (key : Option CStr) :
    Bool :=
  s.isOpen env source chan &&
    match s.hashFindChannel chan with
    | some ch => (s.chans ch).any fun c => s.canJoin env source ch c key
    | none => true

/-- The names of the channels of a list that the client is not on and may join, in order. -/
def joinable (s : MemberState) (env : MemberEnv) (source : Cid)
    (entries : List (CStr × Option CStr)) :
    List CStr :=
  (entries.filter fun e => s.mayName env source e.1 && s.lets env source e.1 e.2 &&
    decide (foldName e.1 ∉ s.channelsOf source)).map fun e => foldName e.1

/-- The entry is a 0, or the channel of a name that passes and is open. -/
def passes (s : MemberState) (env : MemberEnv) (source : Cid) (e : CStr × Option CStr) : Bool :=
  isZero e.1 || (s.mayName env source e.1 && s.isOpen env source e.1)

/-- The names that are taken for repetitions behind this part of a list: those of all entries that
pass but the first. -/
def repeated (s : MemberState) (env : MemberEnv) (source : Cid)
    (entries : List (CStr × Option CStr)) :
    List CStr :=
  ((entries.filter (s.passes env source)).tail.filter fun e => !isZero e.1).map fun e =>
    foldName e.1

/-- The list is joined as one by one. A channel that the client was on and that is named behind a 0
could be joined again; and a channel that may be joined is refused since the client was on as many
as it may be, or dropped as a repetition, exactly if as many may be joined before it. -/
def InOrder (s : MemberState) (env : MemberEnv) (source : Cid) (channels : CStr)
    (keys : Option CStr) :
    Prop :=
  let left := s.afterZeros source channels keys
  let new := left.joinable env source (behind channels keys)
  let dropped := s.repeated env source (front channels keys)
  (¬ s.AtLimit env source → ∀ e ∈ behind channels keys, s.mayName env source e.1 = true →
    s.isOpen env source e.1 = true → foldName e.1 ∈ s.channelsOf source → foldName e.1 ∉ dropped →
    foldName e.1 ∈ left.channelsOf source ∨ foldName e.1 ∈ new) ∧
  ∀ a ∈ new, s.AtLimit env source ∨ a ∈ dropped ↔
    left.chanLimit env source - (left.channel source).length ≤ (FirstCome.before new a).card

/-! ### Reading an entry -/

theorem atLimit_iff : s.AtLimit env source ↔ env.maxChansPerUser ≤ (s.channel source).length ∧
    ((!(s.clients source).isOper) = true ∨ env.maxChansPerUser * 3 ≤
      (s.channel source).length) := by
  unfold AtLimit chanLimit
  split
  · rename_i hoper
    simp only [hoper, Bool.not_true, Bool.false_eq_true, false_or]
    omega
  · rename_i hoper
    simp [Bool.eq_false_iff.mpr hoper]

theorem readEntry_eq (s : MemberState) (env : MemberEnv) (source : Cid) (text : CStr) :
    s.readEntry env source text =
      if isZero text then some .zero
      else if s.mayName env source text = true ∧ ¬ s.AtLimit env source then some (.chan text)
      else none := by
  have hchecks : ∀ (prefixed banned resv : Bool) (long full : Prop) [Decidable long]
      [Decidable full]
      (e : JoinEntry),
      (if !prefixed then none else if banned then none else if long then none else if resv then none
        else if full then none else some e) =
      if (prefixed && !banned && !decide long && !resv) = true ∧ ¬ full then some e else none := by
    intro prefixed banned resv long full _ _ e
    cases prefixed
    · rfl
    · cases banned
      · by_cases hlong : long
        · simp [hlong]
        · cases resv
          · by_cases hfull : full
            · simp [hlong, hfull]
            · simp [hlong, hfull]
          · simp
      · simp
  by_cases hcheck : checkChannelName text = true
  · have hzero : isZero text = true ↔ text.head? = some '0' ∧ atoi text = 0 := by
      simp [isZero, hcheck]
    simp only [readEntry, hcheck, hchecks, hzero, atLimit_iff, mayName, Bool.not_true,
      Bool.false_eq_true, if_false, Bool.true_and]
  · simp [readEntry, isZero, mayName, hcheck]

/-! ### Reading the list -/

/-- While the list is read, new channels are made for open names, and nothing else happens. -/
structure Reads (s : MemberState) (env : MemberEnv) (source : Cid) (u : MemberState) : Prop where
  tabled : u.Tabled
  clients : u.clients = s.clients
  cf : u.cf = s.cf
  channel : u.channel = s.channel
  member : u.member = s.member
  members : u.members = s.members
  old : ∀ {ch c}, s.chans ch = some c → u.chans ch = some c
  new : ∀ {ch c}, u.chans ch = some c → s.chans ch = none →
    c.Blank ∧ s.hashFindChannel c.chname = none ∧ s.isOpen env source c.chname = true
  known : ∀ t ∈ u.targets, ∀ ch, t.chptr = some ch → u.chans ch ≠ none

theorem Tabled.hashFindChannel_congr (h : s.Tabled) (hname : foldName text = foldName name) :
    s.hashFindChannel text = s.hashFindChannel name := by
  refine Option.ext fun ch => ?_
  rw [h.hashFindChannel_iff, h.hashFindChannel_iff, hname]

theorem Tabled.isOpen_congr (h : s.Tabled) (hname : foldName text = foldName name) :
    s.isOpen env source text = s.isOpen env source name := by
  have heq : ircEq text name = true := ircEq_iff_foldName.mpr hname
  have hbne : (text.head? != some '&') = (name.head? != some '&') := by
    rw [Bool.eq_iff_iff, bne_iff_ne, bne_iff_ne, ne_eq, ne_eq, head?_iff_of_ircEq (by decide) heq]
  simp only [isOpen, h.hashFindChannel_congr hname, splitBars_of_ircEq heq, hbne]

theorem Reads.channelName_old (h : s.Reads env source u) (hch : s.channelName ch = some a) :
    u.channelName ch = some a := by
  obtain ⟨c, hc, rfl⟩ := channelName_eq_some.mp hch
  exact channelName_eq_some.mpr ⟨c, h.old hc, rfl⟩

theorem Reads.splitBars (h : s.Reads env source u) (rule : Bool) :
    u.splitBars env source name rule = s.splitBars env source name rule := by
  simp only [MemberState.splitBars, h.clients]

theorem getOrCreateChannel_new (hname : s.mayName env source name = true)
    (hnone : u.hashFindChannel name = none) :
    u.getOrCreateChannel env.now name = some (u.createChannel env.now name, u.nextChan, true) := by
  have hfits : ¬ (name = [] ∨ CHANNELLEN < name.length) := by
    simp only [mayName, Bool.and_eq_true] at hname
    obtain ⟨⟨⟨⟨-, hprefix⟩, -⟩, hlen⟩, -⟩ := hname
    rintro (rfl | hlong)
    · cases hprefix
    · rw [decide_eq_true hlong] at hlen
      cases hlen
  rw [getOrCreateChannel, if_neg hfits, hnone]

theorem Reads.createChannel (h : s.Reads env source u)
    (hopen : s.isOpen env source name = true) (hfind : s.hashFindChannel name = none)
    (hnone : u.hashFindChannel name = none) :
    s.Reads env source (u.createChannel env.now name) ∧
      (u.createChannel env.now name).channelName u.nextChan = some (foldName name) ∧
      ∀ d b, u.channelName d = some b → (u.createChannel env.now name).channelName d = some b := by
  have hfresh := h.tabled.freshChan (Nat.le_refl u.nextChan)
  have hold : ∀ {d e}, u.chans d = some e → (u.createChannel env.now name).chans d = some e := by
    intro d e he
    change update u.chans u.nextChan _ d = some e
    rw [update_of_ne]
    · exact he
    · rintro rfl
      rw [hfresh] at he
      cases he
  have hself : (u.createChannel env.now name).chans u.nextChan =
      some ⟨name, env.now, Mode.zero, [], [], []⟩ := update_self ..
  refine ⟨⟨h.tabled.createChannel env.now hnone, h.clients, h.cf, h.channel, h.member, h.members,
    fun he => hold (h.old he), fun {d e} he hd => ?_, fun t ht d hd => ?_⟩, ?_, fun d b hb => ?_⟩
  · by_cases heq : d = u.nextChan
    · rw [heq, hself] at he
      cases he
      exact ⟨⟨rfl, rfl⟩, hfind, hopen⟩
    · change update u.chans u.nextChan _ d = some e at he
      rw [update_of_ne heq] at he
      exact h.new he hd
  · obtain ⟨e, he⟩ := Option.ne_none_iff_exists'.mp (h.known t ht d hd)
    rw [hold he]
    exact Option.some_ne_none e
  · exact channelName_eq_some.mpr ⟨_, hself, rfl⟩
  · obtain ⟨e, he, rfl⟩ := channelName_eq_some.mp hb
    exact channelName_eq_some.mpr ⟨e, hold he, rfl⟩

theorem Reads.entryChannel (hs : s.Tabled) (h : s.Reads env source u)
    (hname : s.mayName env source name = true) :
    (s.isOpen env source name = false → u.entryChannel env source name = none) ∧
      (s.isOpen env source name = true → ∃ u' ch flags,
        u.entryChannel env source name = some (u', ch, flags) ∧ s.Reads env source u' ∧
          u'.targets = u.targets ∧ u'.channelName ch = some (foldName name) ∧
          ∀ d b, u.channelName d = some b → u'.channelName d = some b) := by
  have hfound : ∀ {d}, u.hashFindChannel name = some d →
      s.splitBars env source name env.noJoinOnSplit = false →
      ∃ u' ch flags, u.entryChannel env source name = some (u', ch, flags) ∧ s.Reads env source u' ∧
        u'.targets = u.targets ∧ u'.channelName ch = some (foldName name) ∧
        ∀ d b, u.channelName d = some b → u'.channelName d = some b := by
    intro d hd hbars
    refine ⟨u, d, if (u.members d).isEmpty then {.chanop} else ∅, ?_, h, rfl,
      h.tabled.hashFindChannel_iff.mp hd, fun _ _ hb => hb⟩
    rw [MemberState.entryChannel, hd]
    simp only [h.splitBars, hbars, Bool.false_eq_true, if_false]
  cases hfind : s.hashFindChannel name with
  | some d =>
    have hd : u.hashFindChannel name = some d :=
      h.tabled.hashFindChannel_iff.mpr (h.channelName_old (hs.hashFindChannel_iff.mp hfind))
    simp only [isOpen, hfind, Bool.not_eq_eq_eq_not, Bool.not_true, Bool.not_false]
    refine ⟨fun hbars => ?_, fun hbars => hfound hd hbars⟩
    rw [MemberState.entryChannel, hd]
    simp only [h.splitBars, hbars, if_true]
  | none =>
    cases hu : u.hashFindChannel name with
    | some d =>
      -- an entry in front of this one has made the channel
      have hname' := h.tabled.hashFindChannel_iff.mp hu
      obtain ⟨c, hc, hsame⟩ := channelName_eq_some.mp hname'
      have hnew : s.chans d = none := by
        cases hd : s.chans d with
        | none => rfl
        | some e =>
          have he := h.old hd
          rw [hc] at he
          cases he
          have hthere := hs.hashFindChannel_iff.mpr (channelName_eq_some.mpr ⟨c, hd, hsame⟩)
          rw [hfind] at hthere
          cases hthere
      have hopen : s.isOpen env source name = true := by
        rw [hs.isOpen_congr hsame.symm]
        exact (h.new hc hnew).2.2
      refine ⟨fun hclosed => ?_, fun _ => hfound hu ?_⟩
      · rw [hopen] at hclosed
        cases hclosed
      · simp only [isOpen, hfind, Bool.and_eq_true, Bool.not_eq_eq_eq_not,
          Bool.not_true] at hopen
        have hbars := hopen.1
        rw [MemberState.splitBars, Bool.and_or_distrib_left, Bool.or_eq_false_iff] at hbars
        exact hbars.2
    | none =>
      refine ⟨fun hclosed => ?_, fun hopen => ?_⟩
      · rw [MemberState.entryChannel, hu]
        simp only [h.splitBars]
        split
        · rfl
        · rename_i hbars
          rw [if_pos]
          simp only [isOpen, hfind, Bool.eq_false_iff.mpr hbars, Bool.not_false, Bool.true_and,
            Bool.not_eq_eq_eq_not] at hclosed
          exact hclosed
      · obtain ⟨hreads, hself, hkeep⟩ := h.createChannel hopen hfind hu
        refine ⟨_, _, {.chanop}, ?_, hreads, rfl, hself, hkeep⟩
        simp only [isOpen, hfind, Bool.and_eq_true, Bool.not_eq_eq_eq_not,
          Bool.not_true] at hopen
        rw [MemberState.entryChannel, hu]
        simp only [h.splitBars, hopen.1, hopen.2, Bool.false_eq_true, if_false,
          getOrCreateChannel_new hname hu, Option.map_some]

/-! ### The list of targets -/

/-- A target by the name of its channel, with its key. -/
abbrev Tag := Option CStr × Option CStr

/-- What the end of the loop of `build_target_list` does to the list: a channel is dropped that has
a place behind the first. -/
def putTag (tags : List Tag) (x : Tag) : List Tag :=
  if x.1.isSome ∧ x.1 ∈ tags.tail.map Prod.fst then tags else tags ++ [x]

def textTag (e : CStr × Option CStr) : Tag := if isZero e.1 then (none, none) else
    (some (foldName e.1), e.2)

def tags (s : MemberState) : List Tag := s.targets.map fun t => (t.chptr.bind s.channelName, t.key)

theorem putTag_ne_nil {T : List Tag} (hT : T ≠ []) (x : Tag) : putTag T x ≠ [] := by
  unfold putTag
  split
  · exact hT
  · exact append_ne_nil_of_left_ne_nil hT _

theorem mem_tail_foldl_putTag {T : List Tag} (hT : T ≠ []) (l : List Tag) (o : Option CStr) :
    o ∈ (l.foldl putTag T).tail.map Prod.fst ↔ o ∈ T.tail.map Prod.fst ∨ o ∈ l.map Prod.fst := by
  induction l generalizing T with
  | nil => simp
  | cons x l ih =>
    rw [foldl_cons, ih (putTag_ne_nil hT x), map_cons, mem_cons]
    unfold putTag
    split
    · rename_i hthere
      constructor
      · rintro (ho | ho)
        · exact Or.inl ho
        · exact Or.inr (Or.inr ho)
      · rintro (ho | rfl | ho)
        · exact Or.inl ho
        · exact Or.inl hthere.2
        · exact Or.inr ho
    · rw [tail_append_of_ne_nil hT, map_append, mem_append, map_singleton,
        mem_singleton, or_assoc]

theorem mem_tail_putTags (x : Tag) (l : List Tag) (o : Option CStr) :
    o ∈ ((x :: l).foldl putTag []).tail.map Prod.fst ↔ o ∈ l.map Prod.fst := by
  have hfirst : putTag [] x = [x] := by simp [putTag]
  rw [foldl_cons, hfirst, mem_tail_foldl_putTag (cons_ne_nil x [])]
  exact or_iff_right not_mem_nil

theorem foldl_putTag_eq {k : Option CStr} {T l : List Tag} (hT : T ≠ [])
    (hl : ∀ x ∈ l, x.1.isSome = true ∧ x.2 = k) :
    ∃ R, l.foldl putTag T = T ++ R ∧ ∀ x, x ∈ R ↔ x ∈ l ∧ x.1 ∉ T.tail.map Prod.fst := by
  induction l generalizing T with
  | nil => exact ⟨[], (append_nil T).symm, fun x => by simp⟩
  | cons y l ih =>
    have hrest : ∀ x ∈ l, x.1.isSome = true ∧ x.2 = k := fun x hx =>
        hl x (mem_cons_of_mem _ hx)
    obtain ⟨hsome, hkey⟩ := hl y mem_cons_self
    by_cases hthere : y.1 ∈ T.tail.map Prod.fst
    · obtain ⟨R, hR, hmem⟩ := ih hT hrest
      refine ⟨R, ?_, fun x => ?_⟩
      · rw [foldl_cons, putTag, if_pos ⟨hsome, hthere⟩, hR]
      · rw [hmem, mem_cons]
        refine and_congr_left fun hx => (or_iff_right ?_).symm
        rintro rfl
        exact hx hthere
    · obtain ⟨R, hR, hmem⟩ := ih (append_ne_nil_of_left_ne_nil hT [y]) hrest
      refine ⟨y :: R, ?_, fun x => ?_⟩
      · rw [foldl_cons, putTag, if_neg (fun h => hthere h.2), hR, append_assoc]
        rfl
      · rw [tail_append_of_ne_nil hT, map_append, map_singleton] at hmem
        rw [mem_cons, mem_cons, hmem, mem_append, mem_singleton, not_or]
        constructor
        · rintro (rfl | ⟨hx, hnot, -⟩)
          · exact ⟨Or.inl rfl, hthere⟩
          · exact ⟨Or.inr hx, hnot⟩
        · rintro ⟨rfl | hx, hnot⟩
          · exact Or.inl rfl
          · by_cases hsame : x.1 = y.1
            · exact Or.inl (Prod.ext hsame ((hrest x hx).2.trans hkey.symm))
            · exact Or.inr ⟨hx, hnot, hsame⟩

theorem le_isTarget_iff {j : Nat} (hj : j ≠ 0) :
    j ≤ s.isTarget ch ↔ ∃ t ∈ s.targets.drop j, t.chptr = some ch := by
  have hgo : ∀ (ts : List Target) (j : Nat),
      (∃ i, isTarget.go ch ts = some i ∧ j ≤ i) ↔ ∃ t ∈ ts.drop j, t.chptr = some ch := by
    intro ts
    induction ts with
    | nil => simp [isTarget.go]
    | cons t ts ih =>
      intro j
      cases j with
      | zero =>
        have hall := ih 0
        simp only [Nat.zero_le, and_true, drop_zero] at hall
        simp only [Nat.zero_le, and_true, drop_zero, mem_cons, exists_eq_or_imp,
          ← hall]
        rw [isTarget.go]
        cases isTarget.go ch ts with
        | none => simp
        | some i => simp
      | succ j =>
        rw [drop_succ_cons, ← ih j, isTarget.go]
        cases isTarget.go ch ts with
        | none =>
          by_cases ht : t.chptr = some ch
          · simp [ht]
          · simp [ht]
        | some i => simp
  rw [← hgo, isTarget]
  cases isTarget.go ch s.targets with
  | none => simp [hj]
  | some i => simp

def entryTag (s : MemberState) (env : MemberEnv) (source : Cid) (e : JoinEntry × Option CStr) :
    Option Tag :=
  match e.1 with
  | .zero => some (none, none)
  | .chan name => if s.isOpen env source name then some (some (foldName name), e.2) else none

theorem tags_congr {v : MemberState} (htargets : v.targets = u.targets)
    (hknown : ∀ t ∈ u.targets, ∀ ch, t.chptr = some ch → u.chans ch ≠ none)
    (hkeep : ∀ d b, u.channelName d = some b → v.channelName d = some b) : v.tags = u.tags := by
  rw [tags, tags, htargets]
  refine map_congr_left fun t ht => ?_
  refine Prod.ext ?_ rfl
  cases hd : t.chptr with
  | none => rfl
  | some d =>
    obtain ⟨e, he⟩ := Option.ne_none_iff_exists'.mp (hknown t ht d hd)
    have hname : u.channelName d = some (foldName e.chname) :=
        channelName_eq_some.mpr ⟨e, he, rfl⟩
    change v.channelName d = u.channelName d
    rw [hkeep d _ hname, hname]

theorem isTarget_ne_zero_iff (hu : u.Tabled) (hname : u.channelName ch = some a) :
    u.isTarget ch ≠ 0 ↔ some a ∈ u.tags.tail.map Prod.fst := by
  rw [← Nat.one_le_iff_ne_zero, le_isTarget_iff Nat.one_ne_zero, drop_one, tags,
    ← map_tail,
    map_map, mem_map]
  refine exists_congr fun t => and_congr_right fun _ => ?_
  change t.chptr = some ch ↔ t.chptr.bind u.channelName = some a
  constructor
  · intro ht
    rw [ht]
    exact hname
  · intro ht
    obtain ⟨d, hd, hname'⟩ := Option.bind_eq_some_iff.mp ht
    rw [hd, hu.channelName_inj hname' hname]

theorem Reads.addTarget (hs : s.Tabled) (h : s.Reads env source u) (key : Option CStr)
    {e : JoinEntry}
    (he : ∀ name, e = .chan name → s.mayName env source name = true) :
    s.Reads env source (u.addTarget env source key e) ∧
      (u.addTarget env source key e).tags =
        (s.entryTag env source (e, key)).toList.foldl putTag u.tags := by
  have happend : ∀ {v : MemberState} (t : Target) (join0 : Option Nat), s.Reads env source v →
      (∀ ch, t.chptr = some ch → v.chans ch ≠ none) →
      s.Reads env source { v with targets := v.targets ++ [t], join0 := join0 } := by
    intro v t join0 hv ht
    refine ⟨hv.tabled.targets _ _, hv.clients, hv.cf, hv.channel, hv.member, hv.members, hv.old,
      hv.new,
      fun t' ht' ch hch => ?_⟩
    rcases List.mem_append.mp ht' with ht' | ht'
    · exact hv.known t' ht' ch hch
    · rw [List.mem_singleton.mp ht'] at hch
      exact ht ch hch
  cases e with
  | zero =>
    refine ⟨happend ⟨none, none, ∅⟩ _ h (fun ch hch => nomatch hch), ?_⟩
    simp only [entryTag, Option.toList_some, foldl_cons, foldl_nil, putTag,
      Option.isSome_none,
      Bool.false_eq_true, false_and, if_false]
    rw [tags, tags, MemberState.addTarget, map_append]
    rfl
  | chan name =>
    obtain ⟨hclosed, hopened⟩ := h.entryChannel hs (he name rfl)
    cases hopen : s.isOpen env source name with
    | false =>
      simp only [MemberState.addTarget, hclosed hopen, entryTag, hopen, Bool.false_eq_true,
        if_false,
        Option.toList_none, foldl_nil]
      exact ⟨h, trivial⟩
    | true =>
      obtain ⟨v, ch, flags, hentry, hv, htargets, hname, hkeep⟩ := hopened hopen
      have htags : v.tags = u.tags := tags_congr htargets h.known hkeep
      simp only [MemberState.addTarget, hentry, entryTag, hopen, if_true, Option.toList_some,
        foldl_cons, foldl_nil, putTag, Option.isSome_some, true_and, ← htags,
        ← isTarget_ne_zero_iff hv.tabled hname]
      split
      · exact ⟨hv, rfl⟩
      · refine ⟨happend ⟨some ch, key, flags⟩ _ hv fun d hd => ?_, ?_⟩
        · cases hd
          obtain ⟨c, hc, -⟩ := channelName_eq_some.mp hname
          rw [hc]
          exact Option.some_ne_none c
        · rw [tags, tags, map_append, map_singleton]
          refine congrArg (List.map _ v.targets ++ [·]) ?_
          exact Prod.ext hname rfl

theorem Reads.addTargets (hs : s.Tabled) {l : Entries} (h : s.Reads env source u)
    (hl : ∀ e ∈ l, ∀ name, e.1 = .chan name → s.mayName env source name = true) :
    s.Reads env source (u.addTargets env source l) ∧
      (u.addTargets env source l).tags = (l.filterMap (s.entryTag env source)).foldl putTag
        u.tags := by
  induction l generalizing u with
  | nil => exact ⟨h, rfl⟩
  | cons e l ih =>
    obtain ⟨hone, htags⟩ := h.addTarget hs e.2 (hl e mem_cons_self)
    obtain ⟨hall, htags'⟩ := ih hone fun e' he' => hl e' (mem_cons_of_mem _ he')
    refine ⟨hall, ?_⟩
    change ((u.addTarget env source e.2 e.1).addTargets env source l).tags = _
    rw [htags', htags, filterMap_cons]
    change (l.filterMap (s.entryTag env source)).foldl putTag
      ((s.entryTag env source e).toList.foldl putTag u.tags) = _
    cases s.entryTag env source e with
    | none => rfl
    | some x => rfl

/-! ### The targets of a list -/

/-- What a part of a list is read as. -/
def entriesOf (s : MemberState) (env : MemberEnv) (source : Cid) (l : List (CStr × Option CStr)) :
    Entries :=
  l.filterMap fun e => (s.readEntry env source e.1).map fun entry => (entry, e.2)

theorem joinEntries_eq (channels : CStr) (keys : Option CStr) :
    s.joinEntries env source channels keys = s.entriesOf env source (listed channels keys) := rfl

theorem mayName_of_mem_entriesOf {l : List (CStr × Option CStr)} {e : JoinEntry × Option CStr}
    (he : e ∈ s.entriesOf env source l) (hname : e.1 = .chan name) : s.mayName env source name =
      true := by
  obtain ⟨e', -, hread⟩ := List.mem_filterMap.mp he
  obtain ⟨entry, hentry, rfl⟩ := Option.map_eq_some_iff.mp hread
  have hname : entry = .chan name := hname
  subst hname
  rw [readEntry_eq] at hentry
  split at hentry
  · cases hentry
  · split at hentry
    · rename_i hmay
      cases hentry
      exact hmay.1
    · cases hentry

theorem tags_entriesOf (hroom : ¬ s.AtLimit env source) (l : List (CStr × Option CStr)) :
    (s.entriesOf env source l).filterMap (s.entryTag env source) =
      (l.filter (s.passes env source)).map textTag := by
  rw [entriesOf, filterMap_filterMap, ← filterMap_eq_map, ← filterMap_eq_filter,
    filterMap_filterMap]
  refine filterMap_congr fun e _ => ?_
  rw [readEntry_eq]
  by_cases hzero : isZero e.1 = true
  · simp [hzero, passes, textTag, entryTag, Option.guard]
  · have hzero : isZero e.1 = false := Bool.eq_false_iff.mpr hzero
    cases hname : s.mayName env source e.1 with
    | false => simp [hzero, hname, passes, Option.guard]
    | true =>
      cases hopen : s.isOpen env source e.1 with
      | false => simp [hzero, hname, hroom, hopen, passes, entryTag, Option.guard]
      | true => simp [hzero, hname, hroom, hopen, passes, textTag, entryTag, Option.guard]

theorem entriesOf_atLimit (hfull : s.AtLimit env source) {l : List (CStr × Option CStr)}
    (hl : ∀ e ∈ l, isZero e.1 = false) : s.entriesOf env source l = [] := by
  rw [entriesOf, filterMap_eq_nil_iff]
  intro e he
  rw [readEntry_eq, hl e he, if_neg Bool.false_ne_true, if_neg (fun h => h.2 hfull)]
  rfl

theorem zero_notMem_entriesOf (s : MemberState) (env : MemberEnv) (source : Cid)
    {l : List (CStr × Option CStr)} (hl : ∀ e ∈ l, isZero e.1 = false) :
    .zero ∉ (s.entriesOf env source l).map Prod.fst := by
  intro hmem
  obtain ⟨e, he, hzero⟩ := List.mem_map.mp hmem
  obtain ⟨e', he', hread⟩ := List.mem_filterMap.mp he
  obtain ⟨entry, hentry, rfl⟩ := Option.map_eq_some_iff.mp hread
  have hzero : entry = .zero := hzero
  subst hzero
  rw [readEntry_eq, hl e' he', if_neg Bool.false_ne_true] at hentry
  split at hentry
  · cases hentry
  · cases hentry

theorem key_of_mem_tail {channels : CStr} {keys : Option CStr} {e : CStr × Option CStr}
    (he : e ∈ (listed channels keys).tail) : e.2 = (joinKeys keys).2 := by
  simp only [listed] at he
  cases hchans : commaTokens channels with
  | nil =>
    rw [hchans] at he
    exact absurd he not_mem_nil
  | cons chan chans =>
    rw [hchans, zip_cons_cons, tail_cons] at he
    exact eq_of_mem_replicate (of_mem_zip (a := e.1) (b := e.2) he).2

theorem front_append_behind (channels : CStr) (keys : Option CStr) :
    front channels keys ++ behind channels keys = listed channels keys :=
  rdropWhile_append_rtakeWhile

theorem not_zero_of_mem_behind {channels : CStr} {keys : Option CStr} {e : CStr × Option CStr}
    (he : e ∈ behind channels keys) : isZero e.1 = false := by
  have hnot := mem_rtakeWhile_imp he
  rwa [Bool.not_eq_true'] at hnot

theorem front_eq_concat {channels : CStr} {keys : Option CStr} (hfront : front channels keys ≠ []) :
    ∃ l z, front channels keys = l ++ [z] ∧ isZero z.1 = true := by
  refine ⟨(front channels keys).dropLast, (front channels keys).getLast hfront,
    (dropLast_append_getLast hfront).symm, ?_⟩
  have hlast := rdropWhile_last_not _ _ hfront
  rw [Bool.not_eq_true', Bool.not_eq_false] at hlast
  exact hlast

theorem addTargets_join0 (u : MemberState) (env : MemberEnv) (source : Cid) {l : Entries}
    (hzero : .zero ∉ l.map Prod.fst) :
    (u.addTargets env source l).join0 = u.join0 := by
  induction l generalizing u with
  | nil => rfl
  | cons e l ih =>
    rw [map_cons, mem_cons, not_or] at hzero
    obtain ⟨-, -, hkeep⟩ := addTarget_clients u env source e.2 e.1
    exact (ih _ hzero.2).trans (hkeep fun h => hzero.1 h.symm)

theorem entriesOf_concat {l : List (CStr × Option CStr)} {z : CStr × Option CStr}
    (hz : isZero z.1 = true) :
    s.entriesOf env source (l ++ [z]) = s.entriesOf env source l ++ [(.zero, z.2)] := by
  rw [entriesOf, filterMap_append, filterMap_cons, readEntry_eq, if_pos hz]
  rfl

theorem addTargets_concat_zero (u : MemberState) (l : Entries) (key : Option CStr) :
    (u.addTargets env source (l ++ [(.zero, key)])).join0 =
        some (u.addTargets env source (l ++ [(.zero, key)])).tags.length ∧
      (u.addTargets env source (l ++ [(.zero, key)])).tags ≠ [] := by
  rw [addTargets_append]
  constructor
  · rw [tags, length_map]
    change some (_ + 1) = some (_ ++ [_]).length
    rw [length_append]
    rfl
  · rw [tags, ne_eq, map_eq_nil_iff]
    exact append_ne_nil_of_right_ne_nil _ (cons_ne_nil _ _)

theorem reads_start (env : MemberEnv) (source : Cid) (hs : s.Tabled) : s.Reads env source
    { s with targets := [], join0 := none } where
  tabled := hs.targets [] none
  clients := rfl
  cf := rfl
  channel := rfl
  member := rfl
  members := rfl
  old hc := hc
  new hc hnone := by
    rw [hnone] at hc
    cases hc
  known t ht := absurd ht not_mem_nil

theorem mem_repeated_iff {l : List (CStr × Option CStr)} :
    some a ∈ ((l.filter (s.passes env source)).map textTag).tail.map Prod.fst ↔
      a ∈ s.repeated env source l := by
  rw [repeated, ← map_tail, map_map, mem_map, mem_map]
  refine exists_congr fun e => ?_
  rw [mem_filter, and_assoc]
  refine and_congr_right fun _ => ?_
  simp only [Function.comp, textTag]
  cases isZero e.1 with
  | true => simp
  | false => simp

theorem mem_tags_behind {channels : CStr} {keys : Option CStr} {x : Tag} :
    x ∈ ((behind channels keys).filter (s.passes env source)).map textTag ↔
      ∃ e ∈ behind channels keys, s.mayName env source e.1 = true ∧ s.isOpen env source e.1 = true ∧
        x = (some (foldName e.1), e.2) := by
  rw [mem_map]
  refine exists_congr fun e => ?_
  rw [mem_filter, and_assoc]
  refine and_congr_right fun he => ?_
  rw [passes, textTag, not_zero_of_mem_behind he, Bool.false_or, Bool.and_eq_true, and_assoc,
    if_neg Bool.false_ne_true, eq_comm (a := x)]

theorem tag_of_mem_tail {channels : CStr} {keys : Option CStr} {l : List (CStr × Option CStr)}
    (hl : ∀ e ∈ l, isZero e.1 = false ∧ e ∈ (listed channels keys).tail) :
    ∀ x ∈ l.map textTag, x.1.isSome = true ∧ x.2 = (joinKeys keys).2 := by
  intro x hx
  obtain ⟨e, he, rfl⟩ := List.mem_map.mp hx
  obtain ⟨hzero, htail⟩ := hl e he
  rw [textTag, if_neg (by rw [hzero]; exact Bool.false_ne_true)]
  exact ⟨rfl, key_of_mem_tail htail⟩

theorem mem_targets_iff (env : MemberEnv) (source : Cid) (hs : s.Tabled) (channels : CStr)
    (keys : Option CStr) :
    let built := s.buildTargetList env source channels keys
    s.Reads env source built ∧ (built.join0.getD 0 = 0 ↔ front channels keys = []) ∧
      ∀ x, x ∈ built.tags.drop (built.join0.getD 0) ↔ ¬ s.AtLimit env source ∧
        ∃ e ∈ behind channels keys, s.mayName env source e.1 = true ∧
          s.isOpen env source e.1 = true ∧
          foldName e.1 ∉ s.repeated env source (front channels keys) ∧
            x = (some (foldName e.1), e.2) := by
  intro built
  -- the list is read up to its last 0, and then the rest of it
  have hmay : ∀ {l : List (CStr × Option CStr)}, ∀ e ∈ s.entriesOf env source l, ∀ name,
      e.1 = .chan name → s.mayName env source name = true := fun e he name =>
        mayName_of_mem_entriesOf he
  obtain ⟨hfirst, htags₁⟩ := (reads_start env source hs).addTargets hs
    (l := s.entriesOf env source (front channels keys)) hmay
  obtain ⟨hread, htags₂⟩ := hfirst.addTargets hs
    (l := s.entriesOf env source (behind channels keys)) hmay
  have hbehind : ∀ e ∈ behind channels keys, isZero e.1 = false := fun e he =>
      not_zero_of_mem_behind he
  have hjoin0 := addTargets_join0 (addTargets { s with targets := [], join0 := none } env source
    (s.entriesOf env source (front channels keys))) env source
      (zero_notMem_entriesOf s env source hbehind)
  have hsplit : built = ((addTargets { s with targets := [], join0 := none } env source
      (s.entriesOf env source (front channels keys))).addTargets env source
        (s.entriesOf env source (behind channels keys))) := by
    have hentries : s.joinEntries env source channels keys = s.entriesOf env source
        (front channels keys) ++
        s.entriesOf env source (behind channels keys) := by
      rw [joinEntries_eq, ← front_append_behind, entriesOf, filterMap_append]
      rfl
    change addTargets _ env source (s.joinEntries env source channels keys) = _
    rw [hentries, addTargets_append]
  rw [← hsplit] at hread htags₂ hjoin0
  refine ⟨hread, ?_⟩
  by_cases hfront : front channels keys = []
  · -- no 0: the first entry has the first place, and the others get theirs behind it
    have hnone : built.join0 = none := by
      rw [hjoin0, hfront]
      rfl
    have hlisted : behind channels keys = listed channels keys := by
      rw [← front_append_behind channels keys, hfront, nil_append]
    rw [hfront] at htags₁ htags₂ ⊢
    rw [hnone, Option.getD_none, drop_zero]
    refine ⟨iff_of_true rfl rfl, fun x => ?_⟩
    have hrepeated : ∀ a, a ∉ s.repeated env source [] := fun _ => not_mem_nil
    simp only [hrepeated, not_false_iff, true_and]
    by_cases hfull : s.AtLimit env source
    · rw [entriesOf_atLimit hfull fun e he => not_zero_of_mem_behind he] at htags₂
      rw [htags₂]
      exact iff_of_false not_mem_nil fun h => h.1 hfull
    · rw [and_iff_right hfull, ← mem_tags_behind, htags₂, tags_entriesOf hfull]
      change x ∈ List.foldl putTag [] _ ↔ _
      cases hentries : (behind channels keys).filter (s.passes env source) with
      | nil => exact Iff.rfl
      | cons e l =>
        have htail : ∀ e' ∈ l, isZero e'.1 = false ∧ e' ∈ (listed channels keys).tail := by
          intro e' he'
          have hmem : e' ∈ (behind channels keys).filter (s.passes env source) := by
            rw [hentries]
            exact mem_cons_of_mem _ he'
          refine ⟨not_zero_of_mem_behind (mem_of_mem_filter hmem), ?_⟩
          have hsub := (filter_sublist (p := s.passes env source)
              (l := behind channels keys)).tail
          rw [hentries, tail_cons, hlisted] at hsub
          exact hsub.subset he'
        obtain ⟨R, hR, hmem⟩ := foldl_putTag_eq (cons_ne_nil (textTag e) [])
            (tag_of_mem_tail htail)
        have hfirst' : putTag [] (textTag e) = [textTag e] := by simp [putTag]
        rw [map_cons, foldl_cons, hfirst', hR, mem_append, mem_singleton,
          mem_cons, hmem]
        exact or_congr_right (and_iff_left not_mem_nil)
  · obtain ⟨l, z, hconcat, hz⟩ := front_eq_concat hfront
    have hplace : built.join0 = some (addTargets { s with targets := [], join0 := none } env source
          (s.entriesOf env source (front channels keys))).tags.length ∧
        (addTargets { s with targets := [], join0 := none } env source
          (s.entriesOf env source (front channels keys))).tags ≠ [] := by
      rw [hjoin0, hconcat, entriesOf_concat hz]
      exact addTargets_concat_zero _ _ _
    generalize addTargets { s with targets := [], join0 := none } env source
      (s.entriesOf env source (front channels keys)) = first at hplace htags₁ htags₂
    obtain ⟨hplace, hne⟩ := hplace
    rw [hplace, Option.getD_some]
    refine ⟨iff_of_false (fun h => hne (List.length_eq_zero_iff.mp h)) hfront, fun x => ?_⟩
    by_cases hfull : s.AtLimit env source
    · rw [entriesOf_atLimit hfull fun e he => not_zero_of_mem_behind he] at htags₂
      rw [htags₂, filterMap_nil, foldl_nil, drop_length]
      exact iff_of_false not_mem_nil fun h => h.1 hfull
    · have htail : ∀ e ∈ (behind channels keys).filter (s.passes env source),
          isZero e.1 = false ∧ e ∈ (listed channels keys).tail := by
        intro e he
        have hmem := mem_of_mem_filter he
        refine ⟨not_zero_of_mem_behind hmem, ?_⟩
        rw [← front_append_behind, tail_append_of_ne_nil hfront]
        exact mem_append_right _ hmem
      obtain ⟨R, hR, hmem⟩ := foldl_putTag_eq hne (tag_of_mem_tail htail)
      -- the names behind the first place when the last 0 has been read
      have hnames : ∀ a, some a ∈ first.tags.tail.map Prod.fst ↔
          a ∈ s.repeated env source (front channels keys) := by
        intro a
        rw [htags₁, tags_entriesOf hfull, ← mem_repeated_iff]
        change some a ∈ (List.foldl putTag [] _).tail.map Prod.fst ↔ _
        cases (front channels keys).filter (s.passes env source) with
        | nil => exact Iff.rfl
        | cons e l => exact mem_tail_putTags (textTag e) (l.map textTag) (some a)
      rw [htags₂, tags_entriesOf hfull, hR, drop_left, hmem, mem_tags_behind,
        and_iff_right hfull]
      constructor
      · rintro ⟨⟨e, he, hname, hopen, rfl⟩, hnew⟩
        exact ⟨e, he, hname, hopen, fun h => hnew ((hnames _).mpr h), rfl⟩
      · rintro ⟨e, he, hname, hopen, hnew, rfl⟩
        exact ⟨⟨e, he, hname, hopen, rfl⟩, fun h => hnew ((hnames _).mp h)⟩

/-! ### Leaving channels -/

/-- A membership ends if its channel is one to be left. -/
def leaveWhere (p : Nat → Bool) (s : MemberState) (m : Nat) : MemberState :=
  if (s.member m).any fun x => p x.chptr then s.removeUserFromChannel m else s

/-- What has become of the state when memberships have ended: channels may have gone with their last
member, and nothing has happened to a channel that none of them was on. -/
structure Leaves (p : Nat → Bool) (l : List Nat) (s u : MemberState) : Prop where
  tabled : u.Tabled
  clients : u.clients = s.clients
  cf : u.cf = s.cf
  targets : u.targets = s.targets
  join0 : u.join0 = s.join0
  member : ∀ m x, u.member m = some x ↔ s.member m = some x ∧ ¬ (m ∈ l ∧ p x.chptr = true)
  chans : ∀ ch, u.chans ch = s.chans ch ∨ u.chans ch = none
  kept : ∀ ch, (∀ m ∈ l, ∀ x, s.member m = some x → x.chptr = ch → p ch = false) →
    u.chans ch = s.chans ch ∧ u.members ch = s.members ch

theorem destroyChannel_frame (s : MemberState) (ch : Nat) :
    (s.destroyChannel ch).member = s.member ∧ (s.destroyChannel ch).members = s.members ∧
      (s.destroyChannel ch).clients = s.clients ∧ (s.destroyChannel ch).cf = s.cf ∧
      (s.destroyChannel ch).targets = s.targets ∧ (s.destroyChannel ch).join0 = s.join0 ∧
      ∀ d, ((s.destroyChannel ch).chans d = s.chans d ∨ (s.destroyChannel ch).chans d = none) ∧
        (d ≠ ch → (s.destroyChannel ch).chans d = s.chans d) := by
  unfold destroyChannel
  split
  · exact ⟨rfl, rfl, rfl, rfl, rfl, rfl, fun d => ⟨Or.inl rfl, fun _ => rfl⟩⟩
  · refine ⟨rfl, rfl, rfl, rfl, rfl, rfl, fun d => ?_⟩
    change (update s.chans ch none d = s.chans d ∨
      update s.chans ch none d = none) ∧
      (d ≠ ch → update s.chans ch none d = s.chans d)
    by_cases hd : d = ch
    · rw [hd, update_self]
      exact ⟨Or.inr rfl, fun hne => absurd rfl hne⟩
    · rw [update_of_ne hd]
      exact ⟨Or.inl rfl, fun _ => rfl⟩

theorem removeUserFromChannel_eq {m : Nat} {x : Member} (hx : s.member m = some x) :
    (s.removeUserFromChannel m).member = update s.member m none ∧
      (s.removeUserFromChannel m).clients = s.clients ∧ (s.removeUserFromChannel m).cf = s.cf ∧
      (s.removeUserFromChannel m).targets = s.targets ∧ (s.removeUserFromChannel m).join0 =
        s.join0 ∧
      ∀ d, ((s.removeUserFromChannel m).chans d = s.chans d ∨
        (s.removeUserFromChannel m).chans d = none) ∧
        (d ≠ x.chptr → (s.removeUserFromChannel m).chans d = s.chans d ∧
          (s.removeUserFromChannel m).members d = s.members d) := by
  have hmembers : ∀ d, d ≠ x.chptr → (s.unlinkMember m x).members d = s.members d :=
    fun d hd => update_of_ne hd _ _
  rw [removeUserFromChannel, hx]
  simp only
  split
  · obtain ⟨hmember, hlist, hclients, hcf, htargets, hjoin0, hchans⟩ :=
      destroyChannel_frame (s.unlinkMember m x) x.chptr
    refine ⟨hmember, hclients, hcf, htargets, hjoin0, fun d =>
      ⟨(hchans d).1, fun hd => ⟨(hchans d).2 hd, ?_⟩⟩⟩
    rw [hlist]
    exact hmembers d hd
  · exact ⟨rfl, rfl, rfl, rfl, rfl, fun d => ⟨Or.inl rfl, fun hd => ⟨rfl, hmembers d hd⟩⟩⟩

theorem Leaves.refl (p : Nat → Bool) (hs : s.Tabled) : Leaves p [] s s :=
  ⟨hs, rfl, rfl, rfl, rfl, fun _ _ => (and_iff_left fun h => not_mem_nil h.1).symm,
    fun _ => Or.inl rfl, fun _ _ => ⟨rfl, rfl⟩⟩

theorem Leaves.cons_of_not {p : Nat → Bool} {l : List Nat} {m : Nat} (h : Leaves p l s u)
    (hm : ∀ x, s.member m = some x → p x.chptr = false) : Leaves p (m :: l) s u := by
  refine ⟨h.tabled, h.clients, h.cf, h.targets, h.join0, fun n y => ?_, h.chans, fun ch hch =>
    h.kept ch
    fun n hn => hch n (mem_cons_of_mem _ hn)⟩
  rw [h.member]
  refine and_congr_right fun hy => not_congr (and_congr_left fun hp => ?_)
  rw [mem_cons]
  refine (or_iff_right ?_).symm
  rintro rfl
  rw [hm y hy] at hp
  cases hp

theorem Leaves.cons_of_left {p : Nat → Bool} {l : List Nat} {m : Nat} {x : Member}
    (h : Leaves p l (s.removeUserFromChannel m) u) (hm : s.member m = some x)
      (hp : p x.chptr = true) :
    Leaves p (m :: l) s u := by
  obtain ⟨hmember, hclients, hcf, htargets, hjoin0, hchans⟩ := removeUserFromChannel_eq hm
  refine ⟨h.tabled, h.clients.trans hclients, h.cf.trans hcf, h.targets.trans htargets,
    h.join0.trans hjoin0, fun n y => ?_, fun ch => ?_, fun ch hch => ?_⟩
  · rw [h.member, hmember, mem_cons]
    by_cases hn : n = m
    · rw [hn, update_self, hm]
      refine iff_of_false (fun hy => nomatch hy.1) ?_
      rintro ⟨hy, hnot⟩
      cases hy
      exact hnot ⟨Or.inl rfl, hp⟩
    · rw [update_of_ne hn, or_iff_right hn]
  · rcases h.chans ch with hsame | hnone
    · rw [hsame]
      exact (hchans ch).1
    · exact Or.inr hnone
  · have hne : ch ≠ x.chptr := by
      rintro rfl
      rw [hch m mem_cons_self x hm rfl] at hp
      cases hp
    obtain ⟨hchan, hlist⟩ := h.kept ch fun n hn y hy hyc => by
      rw [hmember] at hy
      exact hch n (mem_cons_of_mem _ hn) y (of_update_none hy).2 hyc
    obtain ⟨hchan₁, hlist₁⟩ := (hchans ch).2 hne
    exact ⟨hchan.trans hchan₁, hlist.trans hlist₁⟩

theorem leaves_foldl (p : Nat → Bool) (l : List Nat) (hs : s.Tabled) :
    Leaves p l s (l.foldl (leaveWhere p) s) := by
  induction l generalizing s with
  | nil => exact Leaves.refl p hs
  | cons m l ih =>
    rw [foldl_cons]
    cases hm : s.member m with
    | none =>
      have hsame : leaveWhere p s m = s := by
        rw [leaveWhere, hm]
        rfl
      rw [hsame]
      refine (ih hs).cons_of_not fun x hx => ?_
      rw [hm] at hx
      cases hx
    | some x =>
      cases hp : p x.chptr with
      | true =>
        have hleft : leaveWhere p s m = s.removeUserFromChannel m := by
          rw [leaveWhere, hm, Option.any_some, if_pos hp]
        rw [hleft]
        exact (ih (hs.removeUserFromChannel m)).cons_of_left hm hp
      | false =>
        have hsame : leaveWhere p s m = s := by
          rw [leaveWhere, hm, Option.any_some, hp, if_neg Bool.false_ne_true]
        rw [hsame]
        refine (ih hs).cons_of_not fun y hy => ?_
        rw [hm] at hy
        cases hy
        exact hp

theorem leaves_leaveAll (hs : s.Tabled) (source : Cid) :
    Leaves (fun _ => true) (s.channel source) s (s.leaveAll source) := by
  have hsame : (fun (s : MemberState) m => s.removeUserFromChannel m) = leaveWhere fun _ =>
      true := by
    funext s m
    rw [leaveWhere, removeUserFromChannel]
    cases s.member m with
    | none => rfl
    | some x => rfl
  rw [leaveAll, hsame]
  exact leaves_foldl _ _ hs

theorem leaves_doJoin0 (hs : s.Tabled) (source : Cid) :
    Leaves (fun ch => s.join0.any fun j => s.isTarget ch < j) (s.channel source) s
      (s.doJoin0 source) := by
  have hfold : ∀ (l : List Nat) (u : MemberState), u.Tabled → u.targets = s.targets →
      u.join0 = s.join0 →
      l.foldl leaveIfBefore0 u = l.foldl (leaveWhere fun ch => s.join0.any fun j =>
        s.isTarget ch < j) u := by
    intro l
    induction l with
    | nil => exact fun _ _ _ _ => rfl
    | cons m l ih =>
      intro u hu htargets hjoin0
      have hone : leaveIfBefore0 u m =
          leaveWhere (fun ch => s.join0.any fun j => s.isTarget ch < j) u m := by
        simp only [leaveIfBefore0, leaveWhere, isTarget, htargets, hjoin0]
        cases u.member m with
        | none => rfl
        | some x => rfl
      have hnext := leaves_foldl (fun ch => s.join0.any fun j => s.isTarget ch < j) [m] hu
      rw [foldl_cons, foldl_cons, hone]
      exact ih _ hnext.tabled (hnext.targets.trans htargets) (hnext.join0.trans hjoin0)
  rw [doJoin0, hfold _ _ hs rfl rfl]
  exact leaves_foldl _ _ hs

/-! ### Joining the targets -/

theorem isOn_joinTarget (hs : s.Tabled) {t : Target} (hch : t.chptr = some ch)
    (hmay : s.mayJoin env source ch t.key = true) :
    (∀ d, (s.joinTarget env source t).IsOn source d ↔ s.IsOn source d ∨ d = ch) ∧
      ∀ d, (s.joinTarget env source t).channelName d = s.channelName d := by
  obtain ⟨c, hc, hstep⟩ := joinTarget_of_mayJoin hch hmay
  have hmember : (s.joinTarget env source t).member =
      update s.member s.nextMember (some ⟨source, ch, t.flags⟩) := by
    rw [hstep]
    split
    · rfl
    · rfl
  constructor
  · intro d
    rw [IsOn, hmember]
    constructor
    · rintro ⟨m, x, hx, hclient, hd⟩
      by_cases hm : m = s.nextMember
      · rw [hm, update_self] at hx
        cases hx
        exact Or.inr hd.symm
      · rw [update_of_ne hm] at hx
        exact Or.inl ⟨m, x, hx, hclient, hd⟩
    · rintro (⟨m, x, hx, hclient, hd⟩ | rfl)
      · refine ⟨m, x, ?_, hclient, hd⟩
        rw [update_of_ne (Nat.ne_of_lt (hs.below hx))]
        exact hx
      · exact ⟨s.nextMember, _, update_self .., rfl, rfl⟩
  · intro d
    rw [hstep]
    split
    · change (update s.chans ch _ d).map _ = (s.chans d).map _
      by_cases hd : d = ch
      · rw [hd, update_self, hc]
        rfl
      · rw [update_of_ne hd]
    · rfl

theorem channelsOf_joinTargets (hs : s.Tabled) (hclient : (s.clients source).isClient = true)
    (ts : List Target) :
    a ∈ (ts.foldl (fun s t => s.joinTarget env source t) s).channelsOf source ↔
      a ∈ s.channelsOf source ∨ ∃ t ∈ ts, ∃ ch, t.chptr = some ch ∧
        s.mayJoin env source ch t.key = true ∧ s.channelName ch = some a := by
  induction ts generalizing s with
  | nil => simp
  | cons t ts ih =>
    rw [foldl_cons]
    by_cases hmay : ∃ ch, t.chptr = some ch ∧ s.mayJoin env source ch t.key = true
    · obtain ⟨ch, hch, hmay⟩ := hmay
      obtain ⟨-, hclients, hrest⟩ := hs.toOwned.joinTarget_of_mayJoin hclient hch hmay
      obtain ⟨hon, hname⟩ := isOn_joinTarget hs hch hmay
      have hnext := hs.joinTarget env source t
      have hone : a ∈ (s.joinTarget env source t).channelsOf source ↔
          a ∈ s.channelsOf source ∨ s.channelName ch = some a := by
        rw [hnext.mem_channelsOf, hs.mem_channelsOf]
        simp only [hon, hname, or_and_right, exists_or, exists_eq_left]
      rw [ih hnext (hclients ▸ hclient), hone]
      simp only [hrest, hname, Bool.and_eq_true, decide_eq_true_eq, mem_cons]
      constructor
      · rintro ((hold | hself) | ⟨t', ht', d, hd, ⟨hmay', -⟩, ha⟩)
        · exact Or.inl hold
        · exact Or.inr ⟨t, Or.inl rfl, ch, hch, hmay, hself⟩
        · exact Or.inr ⟨t', Or.inr ht', d, hd, hmay', ha⟩
      · rintro (hold | ⟨t', rfl | ht', d, hd, hmay', ha⟩)
        · exact Or.inl (Or.inl hold)
        · rw [hch] at hd
          cases hd
          exact Or.inl (Or.inr ha)
        · by_cases heq : d = ch
          · exact Or.inl (Or.inr (heq ▸ ha))
          · exact Or.inr ⟨t', ht', d, hd, ⟨hmay', heq⟩, ha⟩
    · have hno : ∀ ch, t.chptr = some ch → s.mayJoin env source ch t.key = false :=
        fun ch hch => Bool.eq_false_iff.mpr fun hm => hmay ⟨ch, hch, hm⟩
      rw [joinTarget_of_not hno, ih hs hclient]
      refine or_congr_right ⟨?_, ?_⟩
      · rintro ⟨t', ht', hjoin⟩
        exact ⟨t', mem_cons_of_mem _ ht', hjoin⟩
      · rintro ⟨t', ht', d, hd, hmay', ha⟩
        rcases List.mem_cons.mp ht' with rfl | ht'
        · rw [hno d hd] at hmay'
          cases hmay'
        · exact ⟨t', ht', d, hd, hmay', ha⟩

/-! ### What a list comes to -/

theorem Reads.isOn_iff (h : s.Reads env source u) : u.IsOn source ch ↔ s.IsOn source ch := by
  rw [IsOn, IsOn, h.member]

theorem Reads.mem_channelsOf (hs : s.Tabled) (h : s.Reads env source u) :
    a ∈ u.channelsOf source ↔ a ∈ s.channelsOf source := by
  rw [h.tabled.mem_channelsOf, hs.mem_channelsOf]
  refine exists_congr fun d => ?_
  rw [h.isOn_iff]
  refine and_congr_right fun hon => ⟨fun hname => ?_, h.channelName_old⟩
  obtain ⟨m, x, hx, -, rfl⟩ := hon
  obtain ⟨c, hc⟩ := Option.ne_none_iff_exists'.mp (hs.known hx)
  have hold : s.channelName x.chptr = some (foldName c.chname) :=
      channelName_eq_some.mpr ⟨c, hc, rfl⟩
  rw [hold, ← hname, h.channelName_old hold]

theorem Reads.isOn_name (hs : s.Tabled) (h : s.Reads env source u)
    (hname : u.channelName ch = some a) :
    u.IsOn source ch ↔ a ∈ s.channelsOf source := by
  rw [← h.mem_channelsOf hs, h.tabled.mem_channelsOf]
  constructor
  · exact fun hon => ⟨ch, hon, hname⟩
  · rintro ⟨d, hon, hd⟩
    rwa [h.tabled.channelName_inj hname hd]

theorem Reads.mayJoin_iff (hs : s.Tabled) (h : s.Reads env source u)
    (hclient : (s.clients source).isClient = true) (hopen : s.isOpen env source name = true)
    (hname : u.channelName ch = some (foldName name)) :
    u.mayJoin env source ch key = true ↔
      foldName name ∉ s.channelsOf source ∧ s.lets env source name key = true := by
  obtain ⟨c, hc, hfold⟩ := channelName_eq_some.mp hname
  have hlink : (u.findChannelLink source ch).isSome = true ↔
      foldName name ∈ s.channelsOf source := by
    rw [h.tabled.findChannelLink_isSome (h.clients ▸ hclient), h.isOn_name hs hname]
  have hcan : ∀ c, u.canJoin env source ch c key = s.canJoin env source ch c key := by
    intro c
    simp only [canJoin, h.clients, h.cf, h.members]
  have hlets : s.lets env source name key = u.canJoin env source ch c key := by
    rw [lets, hopen, Bool.true_and]
    cases hold : s.chans ch with
    | some c' =>
      have hsame := h.old hold
      rw [hc] at hsame
      cases hsame
      have hfind : s.hashFindChannel name = some ch :=
        hs.hashFindChannel_iff.mpr (channelName_eq_some.mpr ⟨c, hold, hfold⟩)
      simp only [hfind, hold, Option.any_some, hcan]
    | none =>
      obtain ⟨hblank, hfind, -⟩ := h.new hc hold
      rw [hs.hashFindChannel_congr hfold] at hfind
      simp only [hfind]
      exact (canJoin_of_blank hblank).symm
  rw [mayJoin, hc, Option.any_some, Bool.and_eq_true, hlets, Bool.not_eq_true', ← hlink,
    Bool.not_eq_true]

theorem mem_tags_drop {j : Nat} {k : Option CStr} :
    (some a, k) ∈ u.tags.drop j ↔
      ∃ t ∈ u.targets.drop j, ∃ ch, t.chptr = some ch ∧ u.channelName ch = some a ∧ t.key = k := by
  rw [tags, ← map_drop, mem_map]
  refine exists_congr fun t => and_congr_right fun _ => ?_
  rw [Prod.mk.injEq, Option.bind_eq_some_iff, ← exists_and_right]
  exact exists_congr fun ch => and_assoc

theorem channelsOf_joined (hs : s.Tabled) (hclient : (s.clients source).isClient = true)
    (channels : CStr) (keys : List CStr) (hc : channels ≠ []) :
    let built := s.buildTargetList env source channels keys.head?
    a ∈ (s.mJoin env source (channels :: keys)).channelsOf source ↔
      (front channels keys.head? = [] ∧ a ∈ built.channelsOf source) ∨
        ∃ t ∈ built.targets.drop (built.join0.getD 0), ∃ ch, t.chptr = some ch ∧
          built.channelName ch = some a ∧
            (built.IsOn source ch ∨ built.mayJoin env source ch t.key = true) := by
  intro built
  obtain ⟨hread, hzero, -⟩ : s.Reads env source built ∧
      (built.join0.getD 0 = 0 ↔ front channels keys.head? = []) ∧ _ :=
    mem_targets_iff env source hs channels keys.head?
  have hbclient : (built.clients source).isClient = true := hread.clients ▸ hclient
  rw [mJoin_cons channels keys hc, joinStart_targets]
  by_cases hfront : front channels keys.head? = []
  · have hstart : s.joinStart env source channels keys.head? = built := by
      simp only [joinStart]
      exact if_neg fun hne => hne (hzero.mpr hfront)
    rw [hstart, channelsOf_joinTargets hread.tabled hbclient]
    constructor
    · rintro (hold | ⟨t, ht, d, hd, hmay, hname⟩)
      · exact Or.inl ⟨hfront, hold⟩
      · exact Or.inr ⟨t, ht, d, hd, hname, Or.inr hmay⟩
    · rintro (⟨-, hold⟩ | ⟨t, ht, d, hd, hname, hon | hmay⟩)
      · exact Or.inl hold
      · exact Or.inl (hread.tabled.mem_channelsOf.mpr ⟨d, hon, hname⟩)
      · exact Or.inr ⟨t, ht, d, hd, hmay, hname⟩
  · have hne : built.join0.getD 0 ≠ 0 := fun h => hfront (hzero.mp h)
    have hstart : s.joinStart env source channels keys.head? = built.doJoin0 source := by
      simp only [joinStart]
      exact if_pos hne
    obtain ⟨j, hj⟩ : ∃ j, built.join0 = some j := by
      cases hb : built.join0 with
      | none =>
        rw [hb] at hne
        exact absurd rfl hne
      | some j => exact ⟨j, rfl⟩
    have hleft : Leaves _ _ built (built.doJoin0 source) := leaves_doJoin0 hread.tabled source
    -- a channel is kept that has a target behind the last 0
    have hkeeps : ∀ d, (built.join0.any fun j => decide (built.isTarget d < j)) = false ↔
        ∃ t ∈ built.targets.drop (built.join0.getD 0), t.chptr = some d := by
      intro d
      rw [← le_isTarget_iff hne, hj, Option.any_some, Option.getD_some, decide_eq_false_iff_not,
        not_lt]
    have hon : ∀ d, (built.doJoin0 source).IsOn source d ↔ built.IsOn source d ∧
        ∃ t ∈ built.targets.drop (built.join0.getD 0), t.chptr = some d := by
      intro d
      rw [← hkeeps]
      constructor
      · rintro ⟨m, x, hx, hclient', rfl⟩
        obtain ⟨hold, hnot⟩ := (hleft.member m x).mp hx
        have hmem : m ∈ built.channel source := hread.tabled.mem_channel.mpr ⟨x, hold, hclient'⟩
        exact ⟨⟨m, x, hold, hclient', rfl⟩, Bool.eq_false_iff.mpr fun hp => hnot ⟨hmem, hp⟩⟩
      · rintro ⟨⟨m, x, hx, hclient', rfl⟩, hp⟩
        exact ⟨m, x, (hleft.member m x).mpr ⟨hx, fun h => Bool.eq_false_iff.mp hp h.2⟩, hclient',
          rfl⟩
    have hsame : ∀ d, (∃ t ∈ built.targets.drop (built.join0.getD 0), t.chptr = some d) →
        (built.doJoin0 source).chans d = built.chans d ∧
          (built.doJoin0 source).members d = built.members d :=
      fun d hd => hleft.kept d fun _ _ _ _ _ => (hkeeps d).mpr hd
    have hname : ∀ d, (∃ t ∈ built.targets.drop (built.join0.getD 0), t.chptr = some d) →
        (built.doJoin0 source).channelName d = built.channelName d := by
      intro d hd
      rw [channelName, channelName, (hsame d hd).1]
    have hmay : ∀ d key, (∃ t ∈ built.targets.drop (built.join0.getD 0), t.chptr = some d) →
        (built.doJoin0 source).mayJoin env source d key = built.mayJoin env source d key := by
      intro d key hd
      have hlink : ((built.doJoin0 source).findChannelLink source d).isSome =
          (built.findChannelLink source d).isSome := by
        rw [Bool.eq_iff_iff, hleft.tabled.findChannelLink_isSome (hleft.clients ▸ hbclient),
          hread.tabled.findChannelLink_isSome hbclient, hon, and_iff_left hd]
      simp only [mayJoin, canJoin, hlink, (hsame d hd).1, (hsame d hd).2, hleft.clients, hleft.cf]
    have hnot : ¬ (front channels keys.head? = [] ∧ a ∈ built.channelsOf source) := fun h =>
        hfront h.1
    rw [hstart, channelsOf_joinTargets hleft.tabled (hleft.clients ▸ hbclient), or_iff_right hnot,
      hleft.tabled.mem_channelsOf]
    constructor
    · rintro (⟨d, hond, hd⟩ | ⟨t, ht, d, hd, hmayd, hnamed⟩)
      · obtain ⟨hold, t, ht, htd⟩ := (hon d).mp hond
        rw [hname d ⟨t, ht, htd⟩] at hd
        exact ⟨t, ht, d, htd, hd, Or.inl hold⟩
      · rw [hname d ⟨t, ht, hd⟩] at hnamed
        rw [hmay d _ ⟨t, ht, hd⟩] at hmayd
        exact ⟨t, ht, d, hd, hnamed, Or.inr hmayd⟩
    · rintro ⟨t, ht, d, hd, hnamed, hond | hmayd⟩
      · exact Or.inl ⟨d, (hon d).mpr ⟨hond, t, ht, hd⟩, (hname d ⟨t, ht, hd⟩).trans hnamed⟩
      · exact Or.inr ⟨t, ht, d, hd, (hmay d _ ⟨t, ht, hd⟩).trans hmayd,
          (hname d ⟨t, ht, hd⟩).trans hnamed⟩

/-! ### Off all channels -/

theorem not_isOn_leaveAll (hs : s.Tabled) : ¬ (s.leaveAll source).IsOn source ch := by
  rintro ⟨m, x, hx, hclient, -⟩
  obtain ⟨hold, hnot⟩ := ((leaves_leaveAll hs source).member m x).mp hx
  exact hnot ⟨hs.mem_channel.mpr ⟨x, hold, hclient⟩, rfl⟩

theorem channel_leaveAll (hs : s.Tabled) : (s.leaveAll source).channel source = [] := by
  refine List.eq_nil_iff_forall_not_mem.mpr fun m hm => ?_
  obtain ⟨x, hx, hclient⟩ := (leaves_leaveAll hs source).tabled.mem_channel.mp hm
  exact not_isOn_leaveAll hs ⟨m, x, hx, hclient, rfl⟩

theorem channelsOf_leaveAll (hs : s.Tabled) : (s.leaveAll source).channelsOf source = ∅ := by
  rw [channelsOf, channel_leaveAll hs]
  rfl

theorem kept_leaveAll (hs : s.Tabled) (hnot : ¬ s.IsOn source ch) :
    (s.leaveAll source).chans ch = s.chans ch ∧ (s.leaveAll source).members ch = s.members ch := by
  refine (leaves_leaveAll hs source).kept ch fun m hm x hx hch => ?_
  obtain ⟨y, hy, hclient⟩ := hs.mem_channel.mp hm
  rw [hx] at hy
  cases hy
  exact absurd ⟨m, x, hx, hclient, hch⟩ hnot

theorem hashFindChannel_of_leaveAll (hs : s.Tabled)
    (hfind : (s.leaveAll source).hashFindChannel name = some ch) : s.hashFindChannel name = some
      ch := by
  have hleft := leaves_leaveAll hs source
  obtain ⟨c, hc, heq⟩ := hleft.tabled.indexed.hashFindChannel_eq_some.mp hfind
  rcases hleft.chans ch with hsame | hnone
  · exact hs.indexed.hashFindChannel_eq_some.mpr ⟨c, hsame ▸ hc, heq⟩
  · rw [hnone] at hc
    cases hc

theorem lets_congr (hs : s.Tabled) (hu : u.Tabled) (hclients : u.clients = s.clients)
    (hcf : u.cf = s.cf)
    (hsame : ∀ d, s.channelName d = some (foldName name) ∨ u.channelName d = some (foldName name) →
      u.chans d = s.chans d ∧ u.members d = s.members d) :
    u.lets env source name key = s.lets env source name key := by
  have hfind : u.hashFindChannel name = s.hashFindChannel name := by
    refine Option.ext fun d => ?_
    rw [hu.hashFindChannel_iff, hs.hashFindChannel_iff]
    constructor
    · intro hd
      rwa [channelName, (hsame d (Or.inr hd)).1] at hd
    · intro hd
      rwa [channelName, (hsame d (Or.inl hd)).1]
  cases hold : s.hashFindChannel name with
  | some d =>
    obtain ⟨hchans, hmembers⟩ := hsame d (Or.inl (hs.hashFindChannel_iff.mp hold))
    simp only [lets, isOpen, splitBars, canJoin, hfind, hold, hchans, hmembers, hclients, hcf]
  | none => simp only [lets, isOpen, splitBars, hfind, hold, hclients]

theorem lets_leaveAll (hs : s.Tabled) (hnot : foldName name ∉ s.channelsOf source) :
    (s.leaveAll source).lets env source name key = s.lets env source name key := by
  have hleft := leaves_leaveAll hs source
  refine lets_congr hs hleft.tabled hleft.clients hleft.cf fun d hd => ?_
  refine kept_leaveAll hs fun hon => hnot (hs.mem_channelsOf.mpr ⟨d, hon, ?_⟩)
  rcases hd with hd | hd
  · exact hd
  · exact hs.hashFindChannel_iff.mp (hashFindChannel_of_leaveAll hs
      (hleft.tabled.hashFindChannel_iff.mpr hd))

theorem isOpen_of_leaveAll (hs : s.Tabled) (hlets : (s.leaveAll source).lets env source name key =
    true) :
    s.isOpen env source name = true := by
  have hclients := (leaves_leaveAll hs source).clients
  have hopen := (Bool.and_eq_true_iff.mp hlets).1
  cases hfind : (s.leaveAll source).hashFindChannel name with
  | some ch =>
    simp only [isOpen, splitBars, hfind, hclients] at hopen
    simp only [isOpen, splitBars, hashFindChannel_of_leaveAll hs hfind]
    exact hopen
  | none =>
    simp only [isOpen, splitBars, hfind, hclients, Bool.and_eq_true] at hopen
    cases hold : s.hashFindChannel name with
    | none =>
      simp only [isOpen, splitBars, hold, Bool.and_eq_true]
      exact hopen
    | some ch =>
      have hbars := hopen.1
      rw [Bool.not_eq_true', Bool.and_or_distrib_left, Bool.or_eq_false_iff] at hbars
      simp only [isOpen, splitBars, hold]
      rw [hbars.2]
      rfl

theorem mem_channelsOf_mJoin (env : MemberEnv) (hs : s.Tabled)
    (hclient : (s.clients source).isClient = true)
    (channels : CStr) (keys : List CStr) :
    a ∈ (s.mJoin env source (channels :: keys)).channelsOf source ↔
      a ∈ (s.afterZeros source channels keys.head?).channelsOf source ∨
        ¬ s.AtLimit env source ∧ ∃ e ∈ behind channels keys.head?, s.mayName env source e.1 = true ∧
          s.isOpen env source e.1 = true ∧ a ∉ s.repeated env source (front channels keys.head?) ∧
          foldName e.1 = a ∧ (a ∈ s.channelsOf source ∨ s.lets env source e.1 e.2 = true) := by
  by_cases hc : channels = []
  · subst hc
    have hbehind : behind [] keys.head? = [] := rfl
    have hfront : front [] keys.head? = [] := rfl
    simp [mJoin, afterZeros, hbehind, hfront]
  · obtain ⟨hread, -, htargets⟩ := mem_targets_iff env source hs channels keys.head?
    refine (channelsOf_joined hs hclient channels keys hc).trans (or_congr ?_ ⟨?_, ?_⟩)
    · rw [hread.mem_channelsOf hs, afterZeros]
      by_cases hfront : front channels keys.head? = []
      · rw [and_iff_right hfront, if_pos hfront]
      · rw [if_neg hfront, channelsOf_leaveAll hs]
        exact iff_of_false (fun h => hfront h.1) (Finset.notMem_empty a)
    · rintro ⟨t, ht, ch, hch, hname, hjoined⟩
      obtain ⟨hroom, e, he, hmay, hopen, hnew, htag⟩ :=
        (htargets _).mp (mem_tags_drop.mpr ⟨t, ht, ch, hch, hname, rfl⟩)
      obtain ⟨hfold, hkey⟩ := Prod.mk.inj htag
      have hfold : a = foldName e.1 := Option.some.inj hfold
      subst hfold
      refine ⟨hroom, e, he, hmay, hopen, hnew, rfl, ?_⟩
      rcases hjoined with hon | hmayJoin
      · exact Or.inl ((hread.isOn_name hs hname).mp hon)
      · rw [hkey] at hmayJoin
        exact Or.inr ((hread.mayJoin_iff hs hclient hopen hname).mp hmayJoin).2
    · rintro ⟨hroom, e, he, hmay, hopen, hnew, rfl, hin⟩
      obtain ⟨t, ht, ch, hch, hname, hkey⟩ :=
        mem_tags_drop.mp ((htargets _).mpr ⟨hroom, e, he, hmay, hopen, hnew, rfl⟩)
      refine ⟨t, ht, ch, hch, hname, ?_⟩
      by_cases hold : foldName e.1 ∈ s.channelsOf source
      · exact Or.inl ((hread.isOn_name hs hname).mpr hold)
      · refine Or.inr ((hread.mayJoin_iff hs hclient hopen hname).mpr ⟨hold, ?_⟩)
        rw [hkey]
        exact hin.resolve_left hold

/-! ### A JOIN of one entry -/

theorem commaTokens_of_mem {l : CStr} (h : text ∈ commaTokens l) : commaTokens text = [text] := by
  have hne := ne_nil_of_mem_commaTokens h
  have hcomma := notMem_of_mem_splitOn (List.mem_filter.mp h).1
  have hsplit : text.splitOnP (· == ',') = [text] := by
    apply splitOnP_eq_singleton
    intro c hc
    rw [beq_eq_false_iff_ne]
    rintro rfl
    exact hcomma hc
  rw [commaTokens, hsplit]
  simp [hne]

theorem commaTokens_comma (l : CStr) : commaTokens (',' :: l) = commaTokens l := by
  rw [commaTokens, splitOnP_cons_eq_if_modifyHead, if_pos (beq_self_eq_true ',')]
  rfl

theorem joinKeys_given (keys : Option CStr) :
    (joinKeys (joinKeys keys).1).1 = (joinKeys keys).1 ∧
      (joinKeys (joinKeys keys).2).1 = (joinKeys keys).2 := by
  cases keys with
  | none => exact ⟨rfl, rfl⟩
  | some keys =>
    cases htokens : commaTokens keys with
    | nil => simp [joinKeys, htokens]
    | cons key rest =>
      have hkey : key ∈ commaTokens keys := htokens ▸ mem_cons_self
      have htoken := commaTokens_of_mem hkey
      have hcommas : ∀ commas : CStr, (∀ c ∈ commas, c = ',') →
          commaTokens (commas ++ key) = [key] ∧
          (commas ++ key).takeWhile (· == ',') = commas := by
        intro commas hall
        induction commas with
        | nil =>
          refine ⟨htoken, ?_⟩
          cases key with
          | nil => rfl
          | cons c key =>
            have hc : (c == ',') = false := by
              rw [beq_eq_false_iff_ne]
              rintro rfl
              exact notMem_of_mem_splitOn (List.mem_filter.mp hkey).1
                mem_cons_self
            rw [nil_append, takeWhile_cons, hc]
            rfl
        | cons c commas ih =>
          obtain ⟨htok, htake⟩ := ih fun d hd => hall d (mem_cons_of_mem _ hd)
          rw [hall c mem_cons_self, cons_append]
          refine ⟨(commaTokens_comma _).trans htok, ?_⟩
          rw [takeWhile_cons, htake]
          rfl
      have hfirst := hcommas (keys.takeWhile (· == ',')) fun c hc => by
        simpa using mem_takeWhile_imp hc
      have hsecond := hcommas [] fun c hc => absurd hc not_mem_nil
      simp only [joinKeys, htokens, hfirst.1, hfirst.2]
      rw [nil_append] at hsecond
      simp only [hsecond.1, hsecond.2, nil_append, and_self]

theorem listed_of_mem {channels : CStr} {keys : Option CStr} {e : CStr × Option CStr}
    (he : e ∈ listed channels keys) : listed e.1 e.2 = [e] := by
  obtain ⟨text, key⟩ := e
  obtain ⟨htext, hkey⟩ := of_mem_zip he
  have hgiven : (joinKeys key).1 = key := by
    rcases List.mem_cons.mp hkey with rfl | hkey
    · exact (joinKeys_given keys).1
    · rw [eq_of_mem_replicate hkey]
      exact (joinKeys_given keys).2
  simp only [listed, commaTokens_of_mem htext, hgiven]
  rfl

theorem mJoin_single (hzero : isZero text = false) (hlisted : listed text key = [(text, key)]) :
    u.mJoin env source (text :: key.toList) =
      if u.mayName env source text = true ∧ ¬ u.AtLimit env source then
        (addTarget { u with targets := [], join0 := none } env source key
          (.chan text)).targets.foldl
          (fun s t => s.joinTarget env source t)
          (addTarget { u with targets := [], join0 := none } env source key (.chan text))
      else { u with targets := [], join0 := none } := by
  have hne : text ≠ [] := by
    rintro rfl
    cases hlisted
  have hkey : key.toList.head? = key := by
    cases key with
    | none => rfl
    | some k => rfl
  have hbuilt : u.buildTargetList env source text key =
      addTargets { u with targets := [], join0 := none } env source
        (u.entriesOf env source [(text, key)]) := by
    rw [← hlisted]
    rfl
  have hjoin0 : (u.buildTargetList env source text key).join0 = none := by
    rw [hbuilt, addTargets_join0]
    refine zero_notMem_entriesOf u env source fun e he => ?_
    rw [List.mem_singleton.mp he]
    exact hzero
  have hstart : u.joinStart env source text key = u.buildTargetList env source text key := by
    simp only [joinStart, hjoin0]
    exact if_neg fun h => h rfl
  have hentries : u.entriesOf env source [(text, key)] =
      if u.mayName env source text = true ∧ ¬ u.AtLimit env source then [(.chan text, key)] else
        [] := by
    simp only [entriesOf, filterMap_cons, filterMap_nil, readEntry_eq, hzero,
      Bool.false_eq_true,
      if_false]
    by_cases hmay : u.mayName env source text = true ∧ ¬ u.AtLimit env source
    · rw [if_pos hmay, if_pos hmay]
      rfl
    · rw [if_neg hmay, if_neg hmay]
      rfl
  rw [mJoin_cons text key.toList hne, hkey, hstart, hjoin0, Option.getD_none, drop_zero,
    hbuilt, hentries]
  split
  · rfl
  · rfl

theorem addTarget_open (key : Option CStr) (hu : u.Tabled) (hmay : u.mayName env source text = true)
    (hopen : u.isOpen env source text = true) :
    ∃ t ch, (addTarget { u with targets := [], join0 := none } env source key
      (.chan text)).targets = [t] ∧
      t.chptr = some ch ∧ t.key = key ∧
      (addTarget { u with targets := [], join0 := none } env source key (.chan text)).channelName
        ch =
        some (foldName text) ∧
      (u.channelName ch = some (foldName text) ∨ u.hashFindChannel text = none ∧
        u.chans ch = none) ∧
      ∀ d, d ≠ ch ∨ u.hashFindChannel text ≠ none →
        (addTarget { u with targets := [], join0 := none } env source key (.chan text)).chans d =
          u.chans d := by
  have hstart := reads_start env source hu
  obtain ⟨v, ch, flags, hentry, -, -, hname, -⟩ := (hstart.entryChannel hu hmay).2 hopen
  have hzero : ∀ v : MemberState, v.targets = [] → v.isTarget ch = 0 :=
    fun v hv => isTarget_eq_zero_of_fresh fun t ht => absurd ht (by rw [hv]; exact not_mem_nil)
  cases hfind : u.hashFindChannel text with
  | some d =>
    have hfind' : hashFindChannel { u with targets := [], join0 := none } text = some d := hfind
    rcases entryChannel_found env source hfind' with ⟨-, hdrop⟩ | ⟨flags', hfound⟩
    · rw [hentry] at hdrop
      cases hdrop
    · rw [hentry] at hfound
      cases hfound
      have hadd : addTarget { u with targets := [], join0 := none } env source key (.chan text) =
          { u with targets := [⟨some ch, key, flags⟩], join0 := none } := by
        simp only [addTarget, hentry]
        exact if_neg (not_not_intro (hzero _ rfl))
      rw [hadd]
      exact ⟨⟨some ch, key, flags⟩, ch, rfl, rfl, rfl, hname, Or.inl hname, fun _ _ => rfl⟩
  | none =>
    have hfind' : hashFindChannel { u with targets := [], join0 := none } text = none := hfind
    rcases entryChannel_new env source hfind' with hdrop | ⟨-, hmade⟩
    · rw [hentry] at hdrop
      cases hdrop
    · rw [hentry] at hmade
      cases hmade
      have hadd : addTarget { u with targets := [], join0 := none } env source key (.chan text) =
          { u.createChannel env.now text with
            targets := [⟨some u.nextChan, key, {.chanop}⟩], join0 := none } := by
        simp only [addTarget, hentry]
        exact if_neg (not_not_intro (hzero _ rfl))
      rw [hadd]
      refine ⟨⟨some u.nextChan, key, {.chanop}⟩, u.nextChan, rfl, rfl, rfl, hname,
        Or.inr ⟨rfl, hu.freshChan (Nat.le_refl _)⟩, fun d hd => ?_⟩
      exact update_of_ne (hd.resolve_right fun h => h rfl) _ _

theorem mJoin_refused (hu : u.Tabled) (hclient : (u.clients source).isClient = true)
    (hzero : isZero text = false) (hlisted : listed text key = [(text, key)])
    (hno : ¬ (u.mayName env source text = true ∧ ¬ u.AtLimit env source ∧
      u.lets env source text key = true ∧ foldName text ∉ u.channelsOf source)) :
    (u.mJoin env source (text :: key.toList)).channel = u.channel ∧
      (u.mJoin env source (text :: key.toList)).clients = u.clients ∧
      (u.mJoin env source (text :: key.toList)).cf = u.cf ∧
      ∀ n k, (u.mJoin env source (text :: key.toList)).lets env source n k = u.lets env source n
        k := by
  have hstart := reads_start env source hu
  have hunread : ∀ n k, lets { u with targets := [], join0 := none } env source n k = u.lets env
      source n k :=
    fun n k => lets_congr hu hstart.tabled rfl rfl fun _ _ => ⟨rfl, rfl⟩
  rw [mJoin_single hzero hlisted]
  split
  · rename_i hmay
    cases hopen : u.isOpen env source text with
    | false =>
      have hdrop := (hstart.entryChannel hu hmay.1).1 hopen
      have hadd : addTarget { u with targets := [], join0 := none } env source key (.chan text) =
          { u with targets := [], join0 := none } := by
        simp only [addTarget, hdrop]
      rw [hadd]
      exact ⟨rfl, rfl, rfl, hunread⟩
    | true =>
      obtain ⟨hread, -⟩ := hstart.addTarget hu key (e := .chan text) fun n hn => by
        cases hn
        exact hmay.1
      obtain ⟨t, ch, htargets, hch, hkey, hname, -, hchans⟩ := addTarget_open key hu hmay.1 hopen
      have hrefused : mayJoin (addTarget { u with targets := [], join0 := none } env source key
          (.chan text))
          env source ch key = false := by
        rw [Bool.eq_false_iff]
        intro hjoin
        obtain ⟨hnew, hlets⟩ := (hread.mayJoin_iff hu hclient hopen hname).mp hjoin
        exact hno ⟨hmay.1, hmay.2, hlets, hnew⟩
      have hsame : joinTarget (addTarget { u with targets := [], join0 := none } env source key
          (.chan text))
          env source t = addTarget { u with targets := [], join0 := none } env source key
            (.chan text) := by
        refine joinTarget_of_not fun d hd => ?_
        rw [hch] at hd
        cases hd
        rw [hkey]
        exact hrefused
      -- a new channel would not have refused the client
      have hthere : u.hashFindChannel text ≠ none := by
        intro hnone
        refine hno ⟨hmay.1, hmay.2, ?_, fun hon => ?_⟩
        · rw [lets, hopen, hnone]
          rfl
        · obtain ⟨d, -, hd⟩ := hu.mem_channelsOf.mp hon
          rw [hu.hashFindChannel_iff.mpr hd] at hnone
          cases hnone
      rw [htargets, foldl_cons, foldl_nil, hsame]
      refine ⟨hread.channel, hread.clients, hread.cf, fun n k => ?_⟩
      refine lets_congr hu hread.tabled hread.clients hread.cf fun d _ =>
        ⟨hchans d (Or.inr hthere), ?_⟩
      rw [hread.members]
  · exact ⟨rfl, rfl, rfl, hunread⟩

theorem mJoin_joined (hu : u.Tabled) (hclient : (u.clients source).isClient = true)
    (hzero : isZero text = false) (hlisted : listed text key = [(text, key)])
    (hmay : u.mayName env source text = true) (hroom : ¬ u.AtLimit env source)
    (hlets : u.lets env source text key = true) (hnew : foldName text ∉ u.channelsOf source) :
    ((u.mJoin env source (text :: key.toList)).channel source).length = (u.channel source).length +
      1 ∧
      (u.mJoin env source (text :: key.toList)).clients = u.clients ∧
      (u.mJoin env source (text :: key.toList)).cf = u.cf ∧
      ∀ n k, foldName n ≠ foldName text →
        (u.mJoin env source (text :: key.toList)).lets env source n k = u.lets env source n k := by
  have hstart := reads_start env source hu
  have hopen := (Bool.and_eq_true_iff.mp hlets).1
  obtain ⟨hread, -⟩ := hstart.addTarget hu key (e := .chan text) fun n hn => by
    cases hn
    exact hmay
  obtain ⟨t, ch, htargets, hch, hkey, hname, hold, hchans⟩ := addTarget_open key hu hmay hopen
  rw [mJoin_single hzero hlisted, if_pos ⟨hmay, hroom⟩, htargets, foldl_cons, foldl_nil]
  generalize addTarget { u with targets := [], join0 := none } env source key (.chan text) = w
    at hread hname hchans
  have hjoin : w.mayJoin env source ch t.key = true := by
    rw [hkey]
    exact (hread.mayJoin_iff hu hclient hopen hname).mpr ⟨hnew, hlets⟩
  obtain ⟨hlen, hclients, -⟩ := hread.tabled.toOwned.joinTarget_of_mayJoin (hread.clients ▸ hclient)
      hch hjoin
  obtain ⟨-, hnames⟩ := isOn_joinTarget hread.tabled hch hjoin
  obtain ⟨c, hc, hstep⟩ := joinTarget_of_mayJoin hch hjoin
  have hcf : (w.joinTarget env source t).cf = w.cf := by
    rw [hstep]
    split
    · rfl
    · rfl
  have hrest : ∀ d, d ≠ ch → (w.joinTarget env source t).chans d = w.chans d ∧
      (w.joinTarget env source t).members d = w.members d := by
    intro d hd
    rw [hstep]
    split
    · exact ⟨update_of_ne hd _ _, update_of_ne hd _ _⟩
    · exact ⟨rfl, update_of_ne hd _ _⟩
  refine ⟨?_, hclients.trans hread.clients, hcf.trans hread.cf, fun n k hn => ?_⟩
  · rw [hlen, hread.channel]
  · refine lets_congr hu (hread.tabled.joinTarget env source t) (hclients.trans hread.clients)
      (hcf.trans hread.cf) fun d hd => ?_
    have hne : d ≠ ch := by
      rintro rfl
      rw [hnames, hname] at hd
      rcases hd with hd | hd
      · rcases hold with hold | ⟨-, hnone⟩
        · rw [hold] at hd
          exact hn (Option.some.inj hd).symm
        · rw [channelName, hnone] at hd
          cases hd
      · exact hn (Option.some.inj hd).symm
    obtain ⟨hchan, hmembers⟩ := hrest d hne
    exact ⟨hchan.trans (hchans d (Or.inl hne)), hmembers.trans (congrFun hread.members d)⟩

theorem mem_channelsOf_single (env : MemberEnv) (hu : u.Tabled)
    (hclient : (u.clients source).isClient = true)
    (hzero : isZero text = false) (hlisted : listed text key = [(text, key)]) :
    a ∈ (u.mJoin env source (text :: key.toList)).channelsOf source ↔
      a ∈ u.channelsOf source ∨ ¬ u.AtLimit env source ∧ u.mayName env source text = true ∧
        u.lets env source text key = true ∧ foldName text = a := by
  have hkey : key.toList.head? = key := by
    cases key with
    | none => rfl
    | some k => rfl
  have hfront : front text key = [] := by
    rw [front, hlisted, rdropWhile_singleton, if_pos (by rw [hzero]; rfl)]
  have hbehind : behind text key = [(text, key)] := by
    rw [← hlisted, ← front_append_behind, hfront, nil_append]
  rw [mem_channelsOf_mJoin env hu hclient, hkey, hfront, hbehind, afterZeros, if_pos hfront]
  have hnone : a ∉ u.repeated env source [] := not_mem_nil
  simp only [mem_singleton, exists_eq_left, hnone, not_false_iff, true_and]
  constructor
  · rintro (hold | ⟨hroom, hmay, -, hname, hold | hlets⟩)
    · exact Or.inl hold
    · exact Or.inl hold
    · exact Or.inr ⟨hroom, hmay, hlets, hname⟩
  · rintro (hold | ⟨hroom, hmay, hlets, hname⟩)
    · exact Or.inl hold
    · exact Or.inr ⟨hroom, hmay, (Bool.and_eq_true_iff.mp hlets).1, hname, Or.inr hlets⟩

/-! ### One entry after the other -/

/-- The client has joined these channels since it was on those of `left`. -/
structure Joining (left : MemberState) (env : MemberEnv) (source : Cid) (inside : Finset CStr)
    (u : MemberState) : Prop where
  tabled : u.Tabled
  clients : u.clients = left.clients
  cf : u.cf = left.cf
  mem : ∀ a, a ∈ u.channelsOf source ↔ a ∈ left.channelsOf source ∨ a ∈ inside
  length : (u.channel source).length = (left.channel source).length + inside.card
  lets : ∀ n k, foldName n ∉ u.channelsOf source → u.lets env source n k = left.lets env source n k

theorem mayName_congr (hclients : u.clients = s.clients) (hcf : u.cf = s.cf) :
    u.mayName env source text = s.mayName env source text := by
  simp only [mayName, hclients, hcf]

variable {left : MemberState} {inside : Finset CStr} {e : CStr × Option CStr}

theorem Joining.atLimit_iff (h : Joining left env source inside u) : u.AtLimit env source ↔
    ¬ inside.card < left.chanLimit env source - (left.channel source).length := by
  rw [AtLimit, h.length, chanLimit, chanLimit, h.clients]
  omega

theorem Joining.step (h : Joining left env source inside u)
    (hclient : (left.clients source).isClient = true)
    (hzero : isZero e.1 = false) (hlisted : listed e.1 e.2 = [e]) :
    Joining left env source ((left.joinable env source [e]).foldl
      (FirstCome.serve (left.chanLimit env source - (left.channel source).length)) inside)
      (u.mJoin env source (e.1 :: e.2.toList)) := by
  have huclient : (u.clients source).isClient = true := h.clients ▸ hclient
  have hname : u.mayName env source e.1 = left.mayName env source e.1 :=
      mayName_congr h.clients h.cf
  have hmem := fun a => mem_channelsOf_single (a := a) env h.tabled huclient hzero hlisted
  have htabled := h.tabled.mJoin env source (e.1 :: e.2.toList)
  by_cases hjoin : u.mayName env source e.1 = true ∧ ¬ u.AtLimit env source ∧
      u.lets env source e.1 e.2 = true ∧ foldName e.1 ∉ u.channelsOf source
  · obtain ⟨hmay, hroom, hlets, hnew⟩ := hjoin
    obtain ⟨hlen, hclients, hcf, hrest⟩ := mJoin_joined h.tabled huclient hzero hlisted hmay hroom
        hlets hnew
    have hout := hnew
    rw [h.mem, not_or] at hout
    have hone : left.joinable env source [e] = [foldName e.1] := by
      simp [joinable, ← hname, hmay, ← h.lets _ _ hnew, hlets, hout.1]
    have hserve : FirstCome.serve (left.chanLimit env source - (left.channel source).length) inside
        (foldName e.1) = insert (foldName e.1) inside :=
      if_pos (not_not.mp fun hfull => hroom (h.atLimit_iff.mpr hfull))
    rw [hone, foldl_cons, foldl_nil, hserve]
    refine ⟨htabled, hclients.trans h.clients, hcf.trans h.cf, fun a => ?_, ?_, fun n k hn => ?_⟩
    · rw [hmem, h.mem, Finset.mem_insert, or_assoc, or_comm (a := a = foldName e.1)]
      refine or_congr_right (or_congr_right ?_)
      exact ⟨fun h => h.2.2.2.symm, fun h => ⟨hroom, hmay, hlets, h.symm⟩⟩
    · rw [hlen, h.length, Finset.card_insert_of_notMem hout.2]
      rfl
    · rw [hmem, not_or] at hn
      have hne : foldName n ≠ foldName e.1 := fun heq => hn.2 ⟨hroom, hmay, hlets, heq.symm⟩
      rw [hrest n k hne, h.lets n k hn.1]
  · obtain ⟨hchannel, hclients, hcf, hrest⟩ := mJoin_refused h.tabled huclient hzero hlisted hjoin
    have hsame : ∀ a, a ∈ (u.mJoin env source (e.1 :: e.2.toList)).channelsOf source ↔
        a ∈ u.channelsOf source := by
      intro a
      rw [hmem]
      refine or_iff_left_of_imp ?_
      rintro ⟨hroom, hmay, hlets, rfl⟩
      by_contra hnew
      exact hjoin ⟨hmay, hroom, hlets, hnew⟩
    have hserved : (left.joinable env source [e]).foldl
        (FirstCome.serve (left.chanLimit env source - (left.channel source).length)) inside =
          inside := by
      by_cases hone : left.mayName env source e.1 = true ∧ left.lets env source e.1 e.2 = true ∧
          foldName e.1 ∉ left.channelsOf source
      · have hlist : left.joinable env source [e] = [foldName e.1] := by
          simp [joinable, hone.1, hone.2.1, hone.2.2]
        rw [hlist, foldl_cons, foldl_nil]
        by_cases hin : foldName e.1 ∈ inside
        · exact FirstCome.serve_of_mem hin
        · have hnew : foldName e.1 ∉ u.channelsOf source := by
            rw [h.mem, not_or]
            exact ⟨hone.2.2, hin⟩
          refine if_neg (h.atLimit_iff.mp ?_)
          by_contra hroom
          exact hjoin ⟨hname ▸ hone.1, hroom, (h.lets _ _ hnew).trans hone.2.1, hnew⟩
      · have hlist : left.joinable env source [e] = [] := by
          rw [joinable, map_eq_nil_iff, filter_eq_nil_iff]
          intro e' he'
          rw [List.mem_singleton.mp he', Bool.and_eq_true, Bool.and_eq_true, decide_eq_true_eq,
            and_assoc]
          exact hone
        rw [hlist]
        rfl
    rw [hserved]
    refine ⟨htabled, hclients.trans h.clients, hcf.trans h.cf, fun a => ?_, ?_, fun n k hn => ?_⟩
    · rw [hsame, h.mem]
    · rw [hchannel, h.length]
    · rw [hsame] at hn
      rw [hrest, h.lets n k hn]

theorem Joining.foldl (h : Joining left env source inside u)
    (hclient : (left.clients source).isClient = true)
    {l : List (CStr × Option CStr)} (hl : ∀ e ∈ l, isZero e.1 = false ∧ listed e.1 e.2 = [e]) :
    Joining left env source ((left.joinable env source l).foldl
      (FirstCome.serve (left.chanLimit env source - (left.channel source).length)) inside)
      (l.foldl (fun s e => s.mJoin env source (e.1 :: e.2.toList)) u) := by
  induction l generalizing u inside with
  | nil => exact h
  | cons e l ih =>
    obtain ⟨hzero, hlisted⟩ := hl e mem_cons_self
    have hsplit : left.joinable env source (e :: l) =
        left.joinable env source [e] ++ left.joinable env source l := by
      rw [joinable, ← singleton_append, filter_append, map_append]
      rfl
    rw [hsplit, foldl_append]
    exact ih (h.step hclient hzero hlisted) fun e' he' => hl e' (mem_cons_of_mem _ he')

theorem afterZeros_frame (source : Cid) (hs : s.Tabled) (channels : CStr) (keys : Option CStr) :
    (s.afterZeros source channels keys).Tabled ∧
      (s.afterZeros source channels keys).clients = s.clients ∧
      (s.afterZeros source channels keys).cf = s.cf := by
  unfold afterZeros
  split
  · exact ⟨hs, rfl, rfl⟩
  · have hleft := leaves_leaveAll hs source
    exact ⟨hleft.tabled, hleft.clients, hleft.cf⟩

theorem mem_channelsOf_oneByOne (env : MemberEnv) (hs : s.Tabled)
    (hclient : (s.clients source).isClient = true)
    (channels : CStr) (keys : Option CStr) :
    let left := s.afterZeros source channels keys
    a ∈ (s.oneByOne env source channels keys).channelsOf source ↔
      a ∈ left.channelsOf source ∨ a ∈ FirstCome.served
        (left.chanLimit env source - (left.channel source).length)
        (left.joinable env source (behind channels keys)) := by
  intro left
  obtain ⟨htabled, hclients, -⟩ := afterZeros_frame source hs channels keys
  have hstart : Joining left env source ∅ left :=
    ⟨htabled, rfl, rfl, fun a => by simp, rfl, fun _ _ _ => rfl⟩
  have hl : ∀ e ∈ behind channels keys, isZero e.1 = false ∧ listed e.1 e.2 = [e] := by
    intro e he
    have hmem : e ∈ listed channels keys := by
      rw [← front_append_behind]
      exact mem_append_right _ he
    exact ⟨not_zero_of_mem_behind he, listed_of_mem hmem⟩
  exact (hstart.foldl (hclients ▸ hclient) hl).mem a

/-! ### The order of a list -/

theorem mem_joinable_iff {l : List (CStr × Option CStr)} : a ∈ s.joinable env source l ↔
    ∃ e ∈ l, s.mayName env source e.1 = true ∧ s.lets env source e.1 e.2 = true ∧
      foldName e.1 = a ∧ a ∉ s.channelsOf source := by
  rw [joinable, mem_map]
  refine exists_congr fun e => ?_
  rw [mem_filter, and_assoc]
  refine and_congr_right fun _ => ?_
  rw [Bool.and_eq_true, Bool.and_eq_true, decide_eq_true_eq, and_assoc, and_assoc]
  constructor
  · rintro ⟨hmay, hlets, hnew, rfl⟩
    exact ⟨hmay, hlets, rfl, hnew⟩
  · rintro ⟨hmay, hlets, rfl, hnew⟩
    exact ⟨hmay, hlets, hnew, rfl⟩

theorem lets_afterZeros (env : MemberEnv) (source : Cid) (name : CStr) (key : Option CStr)
    (hs : s.Tabled)
    (channels : CStr) (keys : Option CStr) :
    ((s.afterZeros source channels keys).lets env source name key = true →
      s.isOpen env source name = true) ∧
      (foldName name ∉ s.channelsOf source →
        (s.afterZeros source channels keys).lets env source name key = s.lets env source name
          key) := by
  unfold afterZeros
  split
  · exact ⟨fun hlets => (Bool.and_eq_true_iff.mp hlets).1, fun _ => rfl⟩
  · exact ⟨isOpen_of_leaveAll hs, lets_leaveAll hs⟩

theorem channelsOf_afterZeros (hs : s.Tabled) {channels : CStr} {keys : Option CStr}
    (ha : a ∈ (s.afterZeros source channels keys).channelsOf source) : a ∈ s.channelsOf source := by
  unfold afterZeros at ha
  split at ha
  · exact ha
  · rw [channelsOf_leaveAll hs] at ha
    exact absurd ha (Finset.notMem_empty a)

theorem join_order_of_tabled (hs : s.Tabled) (hclient : (s.clients source).isClient = true)
    (channels : CStr) (keys : List CStr) :
    (s.mJoin env source (channels :: keys)).channelsOf source =
        (s.oneByOne env source channels keys.head?).channelsOf source ↔
      s.InOrder env source channels keys.head? := by
  have hcode := fun a => mem_channelsOf_mJoin (a := a) env hs hclient channels keys
  have hspec := fun a => mem_channelsOf_oneByOne (a := a) env hs hclient channels keys.head?
  have hname : ∀ text, mayName (s.afterZeros source channels keys.head?) env source text =
      s.mayName env source text := by
    obtain ⟨-, hclients, hcf⟩ := afterZeros_frame source hs channels keys.head?
    exact fun text => mayName_congr hclients hcf
  unfold InOrder
  set left := s.afterZeros source channels keys.head? with hleft
  set new := left.joinable env source (behind channels keys.head?) with hnew
  set dropped := s.repeated env source (front channels keys.head?) with hdropped
  simp only at hspec ⊢
  -- a channel that may be joined is joined unless it is refused or dropped
  have hjoined : ∀ a ∈ new, (a ∈ (s.mJoin env source (channels :: keys)).channelsOf source ↔
      ¬ (s.AtLimit env source ∨ a ∈ dropped)) ∧ a ∉ left.channelsOf source := by
    intro a ha
    obtain ⟨e, he, hmay, hlets, hfold, hout⟩ := mem_joinable_iff.mp ha
    refine ⟨?_, hout⟩
    rw [hcode, or_iff_right hout, not_or]
    constructor
    · rintro ⟨hroom, -, -, -, -, hkept, -⟩
      exact ⟨hroom, hkept⟩
    · rintro ⟨hroom, hkept⟩
      obtain ⟨hopen, hsame⟩ := lets_afterZeros env source e.1 e.2 hs
        channels keys.head?
      refine ⟨hroom, e, he, hname e.1 ▸ hmay, hopen hlets, hkept, hfold, ?_⟩
      by_cases hold : a ∈ s.channelsOf source
      · exact Or.inl hold
      · exact Or.inr ((hsame (hfold ▸ hold)).symm.trans hlets)
  have hserved : ∀ a ∈ new, (a ∈ (s.oneByOne env source channels keys.head?).channelsOf source ↔
      ¬ left.chanLimit env source - (left.channel source).length ≤
        (FirstCome.before new a).card) := by
    intro a ha
    rw [hspec, or_iff_right (hjoined a ha).2, FirstCome.mem_served, and_iff_right ha, not_le]
  constructor
  · intro heq
    refine ⟨fun hroom e he hmay hopen hold hkept => ?_, fun a ha => ?_⟩
    · have hin : foldName e.1 ∈ (s.mJoin env source (channels :: keys)).channelsOf source :=
        (hcode _).mpr (Or.inr ⟨hroom, e, he, hmay, hopen, hkept, rfl, Or.inl hold⟩)
      rw [heq, hspec] at hin
      exact hin.imp_right fun h => (FirstCome.mem_served.mp h).1
    · rw [← not_iff_not, ← (hjoined a ha).1, ← hserved a ha, heq]
  · rintro ⟨hstay, hlimit⟩
    have hall : ∀ a ∈ new, (a ∈ (s.mJoin env source (channels :: keys)).channelsOf source ↔
        a ∈ (s.oneByOne env source channels keys.head?).channelsOf source) := by
      intro a ha
      rw [(hjoined a ha).1, hserved a ha, hlimit a ha]
    ext a
    constructor
    · intro hin
      rcases (hcode a).mp hin with hold | ⟨hroom, e, he, hmay, hopen, hkept, rfl, hreason⟩
      · exact (hspec a).mpr (Or.inl hold)
      · have hnamed : foldName e.1 ∈ left.channelsOf source ∨ foldName e.1 ∈ new := by
          by_cases hold : foldName e.1 ∈ s.channelsOf source
          · exact hstay hroom e he hmay hopen hold hkept
          · obtain ⟨-, hsame⟩ := lets_afterZeros env source e.1 e.2 hs
              channels keys.head?
            refine Or.inr (mem_joinable_iff.mpr ⟨e, he, (hname e.1).trans hmay, ?_, rfl,
              fun h => hold (channelsOf_afterZeros hs h)⟩)
            exact (hsame hold).trans (hreason.resolve_left hold)
        rcases hnamed with hold | hmayJoin
        · exact (hspec _).mpr (Or.inl hold)
        · exact (hall _ hmayJoin).mp hin
    · intro hin
      rcases (hspec a).mp hin with hold | hserve
      · exact (hcode a).mpr (Or.inl hold)
      · exact (hall a (FirstCome.mem_served.mp hserve).1).mpr hin

/-- When a JOIN puts a local client on the channels that its entries would one by one, in every
state of every run. -/
theorem join_order_iff (cf : Config) (key : Nat) (ops : List MemberOp) (env : MemberEnv)
    (source : Cid)
    (channels : CStr) (keys : List CStr)
    (hclient : ((Run.exec step (start cf key) ops).clients source).isClient = true) :
    let s := Run.exec step (start cf key) ops
    (s.mJoin env source (channels :: keys)).channelsOf source =
        (s.oneByOne env source channels keys.head?).channelsOf source ↔
      s.InOrder env source channels keys.head? :=
  join_order_of_tabled (tabled_exec cf key ops) hclient channels keys

/-- `quietEnv` with room for ten channels. -/
def roomyEnv : MemberEnv := { quietEnv with maxChansPerUser := 10 }

/-- The client of `oneUser` joins a channel, leaves it and joins another. -/
theorem join_order_oneUser :
    let s := Run.exec step (start default 0) [.introduce localUser]
    (s.mJoin roomyEnv 0 ["#a,0,#b".toList]).channelsOf 0 =
        (s.oneByOne roomyEnv 0 "#a,0,#b".toList none).channelsOf 0 ↔
      s.InOrder roomyEnv 0 "#a,0,#b".toList none :=
  join_order_iff default 0 [.introduce localUser] roomyEnv 0 "#a,0,#b".toList [] (by decide +kernel)

/-- `JOIN #x,#b,0,#b`: the second `#b` is taken for a repetition of the first, which is in front of
the 0, so that the client is on no channel. -/
theorem join_drops_repetition : ¬ ∀ cf key ops env source channels keys,
    ((Run.exec step (start cf key) ops).clients source).myClient = true →
    ((Run.exec step (start cf key) ops).mJoin env source (channels :: keys)).channelsOf source =
      ((Run.exec step (start cf key) ops).oneByOne env source channels keys.head?).channelsOf
        source := by
  intro h
  have hline := h default 0 [.introduce localUser] roomyEnv 0 "#x,#b,0,#b".toList []
      (by decide +kernel)
  have hjoined : ((Run.exec step (start default 0) [.introduce localUser]).mJoin roomyEnv 0
      ["#x,#b,0,#b".toList]).channelsOf 0 = ∅ := by decide +kernel
  have hone : ((Run.exec step (start default 0) [.introduce localUser]).oneByOne roomyEnv 0
      "#x,#b,0,#b".toList none).channelsOf 0 = {"#B".toList} := by decide +kernel
  rw [hjoined] at hline
  exact absurd (hline.trans hone) (by decide)

end MemberState

end Ircd
