import Ircd.HashTables
import Ircd.Match
import Ircd.Membership

/-!
`LIST`: what `do_list` makes of its argument, and `safe_list_channels`, which walks the
chains of the channel table and can stop at any of them until the client has read.

A request is `pending` until its last call. What happens between its calls are events
on the tables and on the data of the channels. `Progress` says what was reported up to
the bucket that the request has come to; one call keeps it (`Progress.next`), and the
other events do not concern it.
-/

namespace Ircd

open List

/-! ### The request -/

/-- `UINT_MAX`. -/
def UINT_MAX : Nat := 0xffffffff

/-- `HASHSIZE`. -/
def HASHSIZE : Nat := 65536

/-- The conversion to `unsigned int`. -/
def unsignedInt (x : Int) : Nat := (x % 4294967296).toNat

/-- `match_chan`: the first characters are the same, and the rest matches. -/
def matchChan (mask name : CStr) : Bool :=
  match mask, name with
  | [], name => name.isEmpty
  | c :: mask, d :: name => c == d && matchEsc mask name
  | _ :: _, [] => false

/-- What a request filters by. -/
structure ListFilters where
  showMask : List CStr := []
  hideMask : List CStr := []
  usersMin : Nat := 0
  usersMax : Nat := UINT_MAX
  createdMin : Nat := 0
  createdMax : Nat := UINT_MAX
  topictsMin : Nat := 0
  topictsMax : Nat := UINT_MAX
  deriving DecidableEq, Repr

/-- `struct ListTask`. -/
structure ListTask extends ListFilters where
  hashIndex : Nat := 0
  deriving DecidableEq, Repr

/-- `has_wildcards`. -/
def hasWildcards (s : CStr) : Bool := s.any isMWildChar

/-- The variables of the loop in `do_list`. -/
structure ListOptions where
  task : ListTask := {}
  noMaskedChannels : Bool := true
  errors : Bool := false
  deriving DecidableEq, Repr

namespace ListOptions

variable (o : ListOptions) (now : Int)

/-- A number that must not be below `least`, or an error. -/
def number (least : Int) (s : CStr) (set : Int → ListTask → ListTask) : ListOptions :=
  if least ≤ atoi s then { o with task := set (atoi s) o.task } else { o with errors := true }

def mask (hide : Bool) (opt : CStr) : ListOptions :=
  let bare := if isChanPrefix opt then opt.tail else opt
  let o :=
    if hasWildcards bare then
      if hide then o else { o with noMaskedChannels := false }
    else if isChanPrefix opt then o
    else { o with errors := true }
  if o.errors then o
  else if hide then { o with task := { o.task with hideMask := opt :: o.task.hideMask } }
  else { o with task := { o.task with showMask := opt :: o.task.showMask } }

def option (opt : CStr) : ListOptions :=
  match opt with
  | '<' :: n => o.number 1 n fun i lt => { lt with usersMax := unsignedInt (i - 1) }
  | '>' :: n => o.number 0 n fun i lt => { lt with usersMin := unsignedInt (i + 1) }
  | '-' :: _ => o
  | 'C' :: n | 'c' :: n =>
    match n with
    | '<' :: n => o.number 0 n fun i lt => { lt with createdMax := unsignedInt (now - 60 * i) }
    | '>' :: n => o.number 0 n fun i lt => { lt with createdMin := unsignedInt (now - 60 * i) }
    | _ => { o with errors := true }
  | 'T' :: n | 't' :: n =>
    match n with
    | '<' :: n => o.number 0 n fun i lt => { lt with topictsMin := unsignedInt (now - 60 * i) }
    | '>' :: n => o.number 0 n fun i lt => { lt with topictsMax := unsignedInt (now - 60 * i) }
    | _ => { o with errors := true }
  | '!' :: opt => o.mask true opt
  | opt => o.mask false opt

end ListOptions

/-- The arguments of a call of `safe_list_channels`. -/
structure ListCall where
  task : ListTask
  onlyUnmaskedChannels : Bool
  remoteRequest : Bool
  deriving DecidableEq, Repr

/-- The first call for the argument of `LIST`; `none` for a bad syntax. -/
def doList (now : Int) (myConnect : Bool) (arg : Option CStr) : Option ListCall :=
  let o : ListOptions := (arg.elim [] commaTokens).foldl (fun o opt => o.option now opt) {}
  if o.errors then none
  else some ⟨o.task, o.noMaskedChannels && !o.task.showMask.isEmpty, !myConnect⟩

/-! ### The channels -/

/-- What `LIST` reads of a channel besides its name. -/
structure ListedChannel where
  secret : Bool
  members : List Nat
  channelts : Int
  topicTime : Int
  topic : Option CStr
  deriving DecidableEq, Repr

/-- A reply to the client. -/
inductive ListReply where
  | list (chname : CStr) (users : Nat) (topic : CStr)
  | listEnd
  deriving DecidableEq, Repr

/-- `list_allow_channel`. -/
def listAllowChannel (chname : CStr) (lt : ListFilters) : Bool :=
  lt.showMask.all (fun mask => matchChan mask chname) &&
    lt.hideMask.all fun mask => !matchChan mask chname

/-- The channel passes the filters of a request by the client `source`. -/
def passesFilters (source : Nat) (lt : ListFilters) (remoteRequest : Bool) (chname : CStr)
    (ch : ListedChannel) : Bool :=
  let users := unsignedInt ch.members.length
  let created := unsignedInt ch.channelts
  let topicts := unsignedInt ch.topicTime
  !(remoteRequest && chname.head? == some '&') && !(ch.secret && !ch.members.contains source) &&
    !(decide (users < lt.usersMin) || decide (lt.usersMax < users) ||
      (ch.channelts != 0 && (decide (created < lt.createdMin) || decide (lt.createdMax < created)))
      || decide (topicts < lt.topictsMin) ||
      decide (lt.topictsMax < if ch.topicTime ≠ 0 then topicts else UINT_MAX)) &&
    listAllowChannel chname lt

/-- `list_one_channel`. -/
def listOneChannel (source : Nat) (lt : ListFilters) (remoteRequest : Bool) (chname : CStr)
    (ch : ListedChannel) : List ListReply :=
  if passesFilters source lt remoteRequest chname ch then
    [.list chname ch.members.length (ch.topic.getD [])]
  else []

/-- A server with the request of one client, and what it has replied. -/
structure ListState where
  tables : HashTables
  chan : Nat → ListedChannel
  pending : Option ListCall
  out : List ListReply

namespace ListState

variable (source fuel : Nat)

/-- `list_one_channel` for the structure at an address. -/
def listAt (lt : ListFilters) (remoteRequest : Bool) (s : ListState) (a : Nat) : List ListReply :=
  listOneChannel source lt remoteRequest ((s.tables.table .channel).name a) (s.chan a)

/-- The loop over the buckets, with the number of those that are left; `exceeding`
gives what `exceeding_sendq` answers at each. The replies, and the bucket where it
stopped. -/
def listBuckets (lt : ListFilters) (remoteRequest : Bool) (exceeding : Nat → Bool)
    (s : ListState) : Nat → Nat → Option (List ListReply × Option Nat)
  | 0, _ => some ([], none)
  | left + 1, i =>
    if exceeding i then some ([], some i)
    else
      ((s.tables.table .channel).chains.walk i fuel).bind fun chain =>
        (listBuckets lt remoteRequest exceeding s left (i + 1)).map fun (replies, stop) =>
          (chain.flatMap (s.listAt source lt remoteRequest) ++ replies, stop)

/-- The loop over the names of a request without masks. -/
def listNamed (lt : ListFilters) (remoteRequest : Bool) (s : ListState) :
    List CStr → HashTables → Option (List ListReply × HashTables)
  | [], tables => some ([], tables)
  | name :: names, tables =>
    (tables.hashFindChannel fuel name).bind fun (found, tables) =>
      (listNamed lt remoteRequest s names tables).map fun (replies, tables') =>
        (found.toList.flatMap ({ s with tables }.listAt source lt remoteRequest) ++ replies,
          tables')

/-- `safe_list_channels`. A request that has stopped is called again for as long as the
client is on `listing_client_list`, where a remote one is not. -/
def safeListChannels (call : ListCall) (exceeding : Nat → Bool) (s : ListState) :
    Option ListState :=
  if call.onlyUnmaskedChannels then
    (s.listNamed source fuel call.task.toListFilters call.remoteRequest call.task.showMask
      s.tables).map fun (replies, tables) =>
        { s with tables, pending := none, out := s.out ++ replies ++ [.listEnd] }
  else
    (s.listBuckets source fuel call.task.toListFilters call.remoteRequest exceeding
      (HASHSIZE - call.task.hashIndex) call.task.hashIndex).map fun (replies, stop) =>
        match stop with
        | some i =>
          { s with
            pending :=
              if call.remoteRequest then none
              else some ⟨{ call.task with hashIndex := i }, false, false⟩
            out := s.out ++ replies }
        | none => { s with pending := none, out := s.out ++ replies ++ [.listEnd] }

end ListState

/-- What happens: an operation on the tables, a change to the data of a channel, or the
next call for the request. -/
inductive ListEvent where
  | hash (op : HashOp)
  | set (a : Nat) (ch : ListedChannel)
  | call (exceeding : Nat → Bool)

def ListState.step (source fuel : Nat) (s : ListState) : ListEvent → Option ListState
  | .hash op => (s.tables.step fuel op).map fun tables => { s with tables }
  | .set a ch => some { s with chan := Function.update s.chan a ch }
  | .call exceeding =>
    match s.pending with
    | none => some s
    | some call => s.safeListChannels source fuel call exceeding

def ListState.run (source fuel : Nat) (s : ListState) (evs : List ListEvent) :
    Option ListState :=
  evs.foldlM (ListState.step source fuel) s

/-! ### What is reported -/

/-- The reply is about the channel with this name. -/
def ListReply.names (m : CStr) : ListReply → Bool
  | .list chname _ _ => ircEq m chname
  | .listEnd => false

def reported (m : CStr) (out : List ListReply) : Nat := out.countP (ListReply.names m)

@[simp] theorem reported_nil (m : CStr) : reported m [] = 0 := rfl

@[simp] theorem reported_append (m : CStr) (out replies : List ListReply) :
    reported m (out ++ replies) = reported m out + reported m replies :=
  countP_append

@[simp] theorem reported_listEnd (m : CStr) : reported m [.listEnd] = 0 := rfl

section Chain

variable {source n fuel : Nat} {lt : ListFilters} {remoteRequest : Bool} {s : ListState}
  {live : LiveNames} {lists : TableName → Nat → List Nat} {m : CStr} {a k : Nat}

theorem reported_listOneChannel (m chname : CStr) (ch : ListedChannel) :
    reported m (listOneChannel source lt remoteRequest chname ch) =
      if passesFilters source lt remoteRequest chname ch ∧ ircEq m chname then 1 else 0 := by
  unfold listOneChannel
  by_cases hpass : passesFilters source lt remoteRequest chname ch = true
  · by_cases hname : ircEq m chname = true
    · simp [hpass, hname, reported, ListReply.names]
    · simp [hpass, hname, reported, ListReply.names]
  · simp [hpass]

theorem reported_flatMap (m : CStr) (l : List Nat) :
    reported m (l.flatMap (s.listAt source lt remoteRequest)) =
      l.countP fun a => passesFilters source lt remoteRequest ((s.tables.table .channel).name a)
        (s.chan a) && ircEq m ((s.tables.table .channel).name a) := by
  induction l with
  | nil => rfl
  | cons a l ih =>
    rw [flatMap_cons, reported_append, ih, countP_cons, ListState.listAt,
      reported_listOneChannel, Nat.add_comm]
    simp only [Bool.and_eq_true]

theorem countP_le_one {p : Nat → Bool} {l : List Nat} (hnd : l.Nodup)
    (hone : ∀ a ∈ l, ∀ b ∈ l, p a = true → p b = true → a = b) : l.countP p ≤ 1 := by
  by_cases hany : ∃ a ∈ l, p a = true
  · obtain ⟨a, ha, hpa⟩ := hany
    have hle : l.countP p ≤ l.count a := by
      apply countP_mono_left
      intro b hb hpb
      rw [hone b hb a ha hpb hpa, beq_self_eq_true]
    exact hle.trans (List.nodup_iff_count_le_one.mp hnd a)
  · have hzero : l.countP p = 0 := by
      rw [countP_eq_zero]
      intro a ha hpa
      exact hany ⟨a, ha, hpa⟩
    omega

theorem Filed.entry (h : Filed n s.tables live lists) (ha : a ∈ lists .channel k) :
    live .channel a = some ((s.tables.table .channel).name a) ∧
      strhash s.tables.ircdRandomKey ((s.tables.table .channel).name a) = k := by
  obtain ⟨nm, hm, hk⟩ := Option.map_eq_some_iff.mp ((h.files .channel).mem.mp ha)
  rw [h.named hm]
  exact ⟨hm, hk⟩

theorem Filed.reported_le (h : Filed n s.tables live lists) (source : Nat) (lt : ListFilters)
    (remoteRequest : Bool) (m : CStr) (k : Nat) :
    reported m ((lists .channel k).flatMap (s.listAt source lt remoteRequest)) ≤
      if strhash s.tables.ircdRandomKey m = k then 1 else 0 := by
  rw [reported_flatMap]
  split
  · apply countP_le_one ((h.files .channel).nodup k)
    intro a ha b hb hpa hpb
    rw [Bool.and_eq_true] at hpa hpb
    exact h.distinct (h.entry ha).1 (h.entry hb).1 (ircEq_trans (ircEq_symm hpa.2) hpb.2)
  · rename_i hk
    rw [Nat.le_zero, countP_eq_zero]
    intro a ha hpa
    rw [Bool.and_eq_true] at hpa
    exact hk ((strhash_eq_of_ircEq hpa.2).trans (h.entry ha).2)

theorem Filed.reported_eq (h : Filed n s.tables live lists) (hm : live .channel a = some m)
    (hpass : passesFilters source lt remoteRequest m (s.chan a) = true)
    (hk : strhash s.tables.ircdRandomKey m = k) :
    reported m ((lists .channel k).flatMap (s.listAt source lt remoteRequest)) = 1 := by
  have hle := h.reported_le source lt remoteRequest m k
  rw [if_pos hk] at hle
  have hmem : a ∈ lists .channel k := by
    rw [(h.files .channel).mem, hm, Option.map_some, hk]
  have hpos : 0 < reported m ((lists .channel k).flatMap (s.listAt source lt remoteRequest)) := by
    rw [reported_flatMap, countP_pos_iff]
    refine ⟨a, hmem, ?_⟩
    rw [h.named hm, hpass, ircEq_refl]
    rfl
  omega

theorem mem_listAt {r : ListReply} (hr : r ∈ s.listAt source lt remoteRequest a) :
    passesFilters source lt remoteRequest ((s.tables.table .channel).name a) (s.chan a) = true ∧
      r = .list ((s.tables.table .channel).name a) (s.chan a).members.length
        ((s.chan a).topic.getD []) := by
  unfold ListState.listAt listOneChannel at hr
  split at hr
  · rename_i hpass
    exact ⟨hpass, List.mem_singleton.mp hr⟩
  · cases hr

/-- The reply is about a channel that exists and passes the filters, with what it has
there. -/
def LiveReply (source : Nat) (lt : ListFilters) (remoteRequest : Bool) (live : LiveNames)
    (chan : Nat → ListedChannel) (m : CStr) (r : ListReply) : Prop :=
  ∃ a, live .channel a = some m ∧ passesFilters source lt remoteRequest m (chan a) = true ∧
    r = .list m (chan a).members.length ((chan a).topic.getD [])

/-- The loop over the buckets. It reports each channel of the buckets that it went
through once at most, and once if the channel passes the filters. -/
theorem Filed.listBuckets (h : Filed n s.tables live lists) (hfuel : n ≤ fuel) (source : Nat)
    (lt : ListFilters) (remoteRequest : Bool) (exceeding : Nat → Bool) (left i : Nat) :
    ∃ replies stop, s.listBuckets source fuel lt remoteRequest exceeding left i =
        some (replies, stop) ∧ i ≤ stop.getD (i + left) ∧ stop.getD (i + left) ≤ i + left ∧
      (∀ m, reported m replies ≤
        if i ≤ strhash s.tables.ircdRandomKey m ∧
          strhash s.tables.ircdRandomKey m < stop.getD (i + left) then 1 else 0) ∧
      (∀ a m, live .channel a = some m →
        passesFilters source lt remoteRequest m (s.chan a) = true →
        i ≤ strhash s.tables.ircdRandomKey m →
        strhash s.tables.ircdRandomKey m < stop.getD (i + left) → reported m replies = 1) ∧
      ∀ r ∈ replies, ∃ m, LiveReply source lt remoteRequest live s.chan m r ∧
        i ≤ strhash s.tables.ircdRandomKey m := by
  induction left generalizing i with
  | zero =>
    refine ⟨[], none, rfl, Nat.le_refl i, Nat.le_refl i, ?_, ?_, ?_⟩
    · simp
    · intro a m hm hpass hle hlt
      exact absurd hlt (Nat.not_lt.mpr hle)
    · simp
  | succ left ih =>
    rw [ListState.listBuckets]
    by_cases hstop : exceeding i = true
    · refine ⟨[], some i, by rw [if_pos hstop], Nat.le_refl i, Nat.le_add_right i _, ?_, ?_, ?_⟩
      · simp
      · intro a m hm hpass hle hlt
        exact absurd hlt (Nat.not_lt.mpr hle)
      · simp
    · obtain ⟨replies, stop, hrest, hge, hle, hmost, hexact, hlive⟩ := ih (i + 1)
      have hend : i + 1 + left = i + (left + 1) := by omega
      rw [hend] at hge hle hmost hexact
      have hwalk : (s.tables.table .channel).chains.walk i fuel = some (lists .channel i) :=
        (h.holds .channel).walk ((h.short .channel i).trans hfuel)
      refine ⟨(lists .channel i).flatMap (s.listAt source lt remoteRequest) ++ replies, stop, ?_,
        by omega, hle, ?_, ?_, ?_⟩
      · rw [if_neg hstop, hwalk, Option.bind_some, hrest, Option.map_some]
      · intro m
        have hhere := h.reported_le source lt remoteRequest m i
        have hthere := hmost m
        rw [reported_append]
        split at hhere <;> split at hthere <;> split <;> omega
      · intro a m hm hpass hi hj
        have hthere := hmost m
        rw [reported_append]
        by_cases hk : strhash s.tables.ircdRandomKey m = i
        · rw [h.reported_eq hm hpass hk]
          rw [if_neg (by omega)] at hthere
          omega
        · have hhere := h.reported_le source lt remoteRequest m i
          rw [if_neg hk] at hhere
          rw [hexact a m hm hpass (by omega) hj]
          omega
      · intro r hr
        rcases List.mem_append.mp hr with hr | hr
        · obtain ⟨a, ha, hr⟩ := List.mem_flatMap.mp hr
          obtain ⟨hpass, rfl⟩ := mem_listAt hr
          exact ⟨_, ⟨a, (h.entry ha).1, hpass, rfl⟩, (h.entry ha).2.ge⟩
        · obtain ⟨m, hm, hi⟩ := hlive r hr
          exact ⟨m, hm, Nat.le_of_succ_le hi⟩

theorem HashTables.hashFind_key {t t' : HashTables} {w : TableName} {want : Nat → Bool}
    {name : CStr} {r : Option Nat} (h : t.hashFind w want fuel name = some (r, t')) :
    t'.ircdRandomKey = t.ircdRandomKey := by
  obtain ⟨found, -, heq⟩ := Option.map_eq_some_iff.mp h
  rw [← (Prod.mk.inj heq).2]
  rfl

/-- The loop over the names. It reports a channel once at most for each time that it is
named, and as often if the channel passes the filters. -/
theorem Filed.listNamed {tables : HashTables} (h : Filed n tables live lists) (hfuel : n ≤ fuel)
    (source : Nat) (lt : ListFilters) (remoteRequest : Bool) (s : ListState) (names : List CStr) :
    ∃ replies tables' lists', s.listNamed source fuel lt remoteRequest names tables =
        some (replies, tables') ∧ Filed n tables' live lists' ∧
      tables'.ircdRandomKey = tables.ircdRandomKey ∧
      (∀ m, reported m replies ≤ names.countP fun name => ircEq name m) ∧
      (∀ a m, live .channel a = some m →
        passesFilters source lt remoteRequest m (s.chan a) = true →
        reported m replies = names.countP fun name => ircEq name m) ∧
      ∀ r ∈ replies, ∃ m, LiveReply source lt remoteRequest live s.chan m r := by
  induction names generalizing tables lists with
  | nil => exact ⟨[], tables, lists, rfl, h, rfl, by simp, by simp, by simp⟩
  | cons name names ih =>
    obtain ⟨found, t, tlists, hfind, ht, hfinds⟩ :=
      h.find hfuel .channel (fun _ => true) name
    obtain ⟨replies, t', tlists', hrest, ht', hkey, hmost, hexact, hlive⟩ := ih ht
    have hfind' : tables.hashFindChannel fuel name = some (found, t) := hfind
    -- the channel that is found is the one with this name
    have hhere : ∀ m, reported m (found.toList.flatMap
        ({ s with tables := t }.listAt source lt remoteRequest)) ≤
          if ircEq name m then 1 else 0 := by
      intro m
      cases found with
      | none => simp
      | some a =>
        obtain ⟨-, nm, hnm, hname⟩ := (hfinds a).mp rfl
        rw [Option.toList_some, flatMap_singleton, ListState.listAt,
          reported_listOneChannel, ht.named hnm]
        split
        · rename_i hboth
          rw [if_pos (ircEq_trans hname (ircEq_symm hboth.2))]
        · exact Nat.zero_le _
    refine ⟨found.toList.flatMap ({ s with tables := t }.listAt source lt remoteRequest) ++
      replies, t', tlists', ?_, ht', hkey.trans (HashTables.hashFind_key hfind), ?_, ?_, ?_⟩
    · rw [ListState.listNamed, hfind', Option.bind_some]
      dsimp only
      rw [hrest, Option.map_some]
    · intro m
      have hm := hhere m
      have hm' := hmost m
      rw [reported_append, countP_cons]
      omega
    · intro a m hm hpass
      rw [reported_append, countP_cons, hexact a m hm hpass, Nat.add_comm]
      congr 1
      by_cases hname : ircEq name m = true
      · have hfound : found = some a := (hfinds a).mpr ⟨rfl, m, hm, hname⟩
        rw [hfound, Option.toList_some, flatMap_singleton, ListState.listAt,
          reported_listOneChannel, ht.named hm, if_pos ⟨hpass, ircEq_refl m⟩, if_pos hname]
      · have hzero := hhere m
        rw [if_neg hname] at hzero ⊢
        exact Nat.le_zero.mp hzero
    · intro r hr
      rcases List.mem_append.mp hr with hr | hr
      · obtain ⟨a, ha, hra⟩ := List.mem_flatMap.mp hr
        obtain rfl : found = some a := Option.mem_toList.mp ha
        obtain ⟨hpass, rfl⟩ := mem_listAt hra
        obtain ⟨-, nm, hnm, -⟩ := (hfinds a).mp rfl
        have hname : (t.table .channel).name a = nm := ht.named hnm
        refine ⟨nm, a, hnm, ?_, ?_⟩
        · rw [← hname]
          exact hpass
        · rw [← hname]
      · exact hlive r hr

end Chain

/-! ### The key and the buckets -/

theorem strhash_lt {key : Nat} (hkey : key < 2 ^ 32) (name : CStr) :
    strhash key name < HASHSIZE := by
  have hfold : ∀ hval < 2 ^ 32, name.foldl (fun hval c =>
      (hval + ((hval <<< 1) + (hval <<< 4) + (hval <<< 7) + (hval <<< 8) + (hval <<< 24))) %
        4294967296 ^^^ ((toLower c).toNat ^^^ key)) hval < 2 ^ 32 := by
    induction name with
    | nil => exact fun hval hlt => hlt
    | cons c name ih =>
      intro hval hlt
      have hchar : (toLower c).toNat < 2 ^ 32 := (toLower c).val.toNat_lt
      apply ih
      exact Nat.xor_lt_two_pow (Nat.mod_lt _ (by decide)) (Nat.xor_lt_two_pow hchar hkey)
  unfold strhash
  split
  · decide
  · have hlow := hfold FNV1_32_INIT (by decide)
    dsimp only
    apply Nat.xor_lt_two_pow (n := 16)
    · rw [Nat.shiftRight_eq_div_pow]
      exact Nat.div_lt_of_lt_mul hlow
    · exact Nat.and_lt_two_pow _ (by decide)

namespace HashTables

variable {fuel : Nat} {t t' : HashTables} {r : Option Nat} {name : CStr}

theorem findMasks_key {masks : List CStr} (h : t.findMasks fuel masks = some (r, t')) :
    t'.ircdRandomKey = t.ircdRandomKey := by
  induction masks generalizing t with
  | nil =>
    obtain ⟨-, rfl⟩ := Prod.mk.inj (Option.some.inj h)
    rfl
  | cons mask masks ih =>
    rw [findMasks] at h
    split at h
    · cases h
    · rename_i a u hfind
      obtain ⟨-, rfl⟩ := Prod.mk.inj (Option.some.inj h)
      exact hashFind_key hfind
    · rename_i u hfind
      exact (ih h).trans (hashFind_key hfind)

theorem findServer_key {isServer : Nat → Bool}
    (h : t.findServer isServer fuel name = some (r, t')) :
    t'.ircdRandomKey = t.ircdRandomKey := by
  obtain ⟨⟨found, u⟩, hid, h⟩ := Option.bind_eq_some_iff.mp h
  have hu : u.ircdRandomKey = t.ircdRandomKey := by
    split at hid
    · exact hashFind_key hid
    · obtain ⟨-, rfl⟩ := Prod.mk.inj (Option.some.inj hid)
      rfl
  dsimp only at h
  split at h
  · obtain ⟨-, rfl⟩ := Prod.mk.inj (Option.some.inj h)
    exact hu
  · obtain ⟨⟨found', v⟩, hname, h⟩ := Option.bind_eq_some_iff.mp h
    have hv : v.ircdRandomKey = t.ircdRandomKey := (hashFind_key hname).trans hu
    dsimp only at h
    split at h
    · obtain ⟨-, rfl⟩ := Prod.mk.inj (Option.some.inj h)
      exact hv
    · rw [hashFindMaskedServer] at h
      split at h
      · obtain ⟨-, rfl⟩ := Prod.mk.inj (Option.some.inj h)
        exact hv
      · exact (findMasks_key h).trans hv

theorem step_key {op : HashOp} (h : t.step fuel op = some t') :
    t'.ircdRandomKey = t.ircdRandomKey := by
  cases op with
  | add w a name =>
    rw [← Option.some.inj h]
    rfl
  | del w a =>
    obtain ⟨chains, -, rfl⟩ := Option.map_eq_some_iff.mp h
    rfl
  | find w name =>
    obtain ⟨⟨r, u⟩, hfind, rfl⟩ := Option.map_eq_some_iff.mp h
    exact hashFind_key hfind
  | findServer isServer name =>
    obtain ⟨⟨r, u⟩, hfind, rfl⟩ := Option.map_eq_some_iff.mp h
    exact findServer_key hfind

theorem run_key {ops : List HashOp} (h : t.run fuel ops = some t') :
    t'.ircdRandomKey = t.ircdRandomKey := by
  induction ops generalizing t with
  | nil =>
    rw [← Option.some.inj h]
  | cons op ops ih =>
    rw [run, foldlM_cons] at h
    obtain ⟨u, hstep, h⟩ := Option.bind_eq_some_iff.mp h
    exact (ih h).trans (step_key hstep)

end HashTables

/-! ### Progress of a request -/

/-- How often a request reports a channel that it lists. -/
def ListCall.times (req : ListCall) (m : CStr) : Nat :=
  if req.onlyUnmaskedChannels then req.task.showMask.countP fun name => ircEq name m else 1

/-- How often a channel is reported by now. -/
def quota (key : Nat) (req : ListCall) (pending : Option ListCall) (m : CStr) : Nat :=
  match pending with
  | none => req.times m
  | some call => if strhash key m < call.task.hashIndex then 1 else 0

/-- The request has come to a bucket, or to its end. -/
structure Progress (n key : Nat) (req : ListCall) (live : LiveNames) (s : ListState) : Prop where
  filed : ∃ lists, Filed n s.tables live lists
  keyed : s.tables.ircdRandomKey = key
  request : ∀ call, s.pending = some call →
    call = { req with task := { req.task with hashIndex := call.task.hashIndex } } ∧
      call.task.hashIndex ≤ HASHSIZE ∧
      (req.onlyUnmaskedChannels = true → call.task.hashIndex = 0)
  most : ∀ m, reported m s.out ≤ quota key req s.pending m
  unfinished : ∀ call, s.pending = some call → .listEnd ∉ s.out

def ReportedAsDue (key : Nat) (req : ListCall) (m : CStr) (s : ListState) : Prop :=
  s.pending ≠ none ∨ .listEnd ∈ s.out → reported m s.out = quota key req s.pending m

section Call

variable {source n fuel key : Nat} {req call : ListCall} {live : LiveNames} {s : ListState}

theorem LiveReply.ne_listEnd {lt : ListFilters} {remoteRequest : Bool}
    {chan : Nat → ListedChannel} {m : CStr} {r : ListReply}
    (h : LiveReply source lt remoteRequest live chan m r) : r ≠ .listEnd := by
  obtain ⟨a, -, -, rfl⟩ := h
  intro hend
  cases hend

/-- What a call leaves: the request is further on, what was reported as due is so still,
and what came is about channels that are there. -/
structure BroughtOn (source n key : Nat) (req call : ListCall) (live : LiveNames)
    (s t : ListState) : Prop where
  progress : Progress n key req live t
  chan : t.chan = s.chan
  due : ∀ a m, live .channel a = some m →
    passesFilters source req.task.toListFilters req.remoteRequest m (s.chan a) = true →
    ReportedAsDue key req m s → ReportedAsDue key req m t
  replies : ∃ replies, t.out = s.out ++ replies ∧ ∀ r ∈ replies, r ≠ .listEnd → ∃ m,
    LiveReply source req.task.toListFilters req.remoteRequest live s.chan m r ∧
      call.task.hashIndex ≤ strhash key m

theorem BroughtOn.ended {tables : HashTables} {lists : TableName → Nat → List Nat}
    {replies : List ListReply} (hfiled : Filed n tables live lists)
    (hkey : tables.ircdRandomKey = key)
    (hmost : ∀ m, reported m (s.out ++ replies) ≤ req.times m)
    (hexact : ∀ a m, live .channel a = some m →
      passesFilters source req.task.toListFilters req.remoteRequest m (s.chan a) = true →
      ReportedAsDue key req m s → reported m (s.out ++ replies) = req.times m)
    (hlive : ∀ r ∈ replies, ∃ m,
      LiveReply source req.task.toListFilters req.remoteRequest live s.chan m r ∧
        call.task.hashIndex ≤ strhash key m) :
    BroughtOn source n key req call live s
      { s with tables, pending := none, out := s.out ++ replies ++ [.listEnd] } := by
  refine ⟨⟨⟨lists, hfiled⟩, hkey, ?_, ?_, ?_⟩, rfl, ?_, replies ++ [.listEnd],
    append_assoc _ _ _, ?_⟩
  · intro call' hnone
    cases hnone
  · intro m
    rw [reported_append, reported_listEnd]
    exact hmost m
  · intro call' hnone
    cases hnone
  · intro a m hm hpass hbefore _
    rw [reported_append, reported_listEnd]
    exact hexact a m hm hpass hbefore
  · intro r hr hne
    rcases List.mem_append.mp hr with hr | hr
    · exact hlive r hr
    · exact absurd (List.mem_singleton.mp hr) hne

variable (source) in
theorem Progress.stretch (h : Progress n key req live s) (hfuel : n ≤ fuel)
    (hcall : s.pending = some call) (exceeding : Nat → Bool) :
    ∃ replies stop, s.listBuckets source fuel req.task.toListFilters req.remoteRequest exceeding
        (HASHSIZE - call.task.hashIndex) call.task.hashIndex = some (replies, stop) ∧
      stop.getD HASHSIZE ≤ HASHSIZE ∧
      (∀ m, reported m (s.out ++ replies) ≤
        if strhash key m < stop.getD HASHSIZE then 1 else 0) ∧
      (∀ a m, live .channel a = some m →
        passesFilters source req.task.toListFilters req.remoteRequest m (s.chan a) = true →
        ReportedAsDue key req m s → reported m (s.out ++ replies) =
          if strhash key m < stop.getD HASHSIZE then 1 else 0) ∧
      ∀ r ∈ replies, ∃ m,
        LiveReply source req.task.toListFilters req.remoteRequest live s.chan m r ∧
          call.task.hashIndex ≤ strhash key m := by
  obtain ⟨lists, hfiled⟩ := h.filed
  have hle := (h.request call hcall).2.1
  have hend : call.task.hashIndex + (HASHSIZE - call.task.hashIndex) = HASHSIZE := by omega
  obtain ⟨replies, stop, hloop, hge, hstop, hmost, hexact, hlive⟩ :=
    hfiled.listBuckets hfuel source req.task.toListFilters req.remoteRequest exceeding
      (HASHSIZE - call.task.hashIndex) call.task.hashIndex
  rw [hend] at hge hstop hmost hexact
  rw [h.keyed] at hmost hexact hlive
  refine ⟨replies, stop, hloop, hstop, ?_, ?_, hlive⟩
  · intro m
    have hm := h.most m
    have hm' := hmost m
    rw [hcall, quota] at hm
    rw [reported_append]
    split at hm <;> split at hm' <;> split <;> omega
  · intro a m hm hpass hdue
    have hbefore := hdue (Or.inl (by rw [hcall]; exact Option.some_ne_none call))
    rw [hcall, quota] at hbefore
    have hthere := hmost m
    rw [reported_append, hbefore]
    by_cases hlow : strhash key m < call.task.hashIndex
    · rw [if_neg (by omega)] at hthere
      rw [if_pos hlow, if_pos (by omega)]
      omega
    · rw [if_neg hlow]
      split
      · rename_i hj
        rw [hexact a m hm hpass (by omega) hj]
      · rename_i hj
        rw [if_neg (by omega)] at hthere
        omega

theorem Progress.walk (h : Progress n key req live s) (hkey : key < 2 ^ 32) (hfuel : n ≤ fuel)
    (hcall : s.pending = some call) (hwalk : req.onlyUnmaskedChannels = false)
    (exceeding : Nat → Bool) :
    ∃ t, s.safeListChannels source fuel call exceeding = some t ∧
      BroughtOn source n key req call live s t := by
  obtain ⟨lists, hfiled⟩ := h.filed
  obtain ⟨heq, -, -⟩ := h.request call hcall
  have honly : call.onlyUnmaskedChannels = false := by rw [heq, hwalk]
  have hremote : call.remoteRequest = req.remoteRequest := by rw [heq]
  have hfilters : call.task.toListFilters = req.task.toListFilters := by rw [heq]
  have htimes : ∀ m, req.times m = 1 := fun m => by simp [ListCall.times, hwalk]
  obtain ⟨replies, stop, hloop, hstop, hsum, hdue, hlive⟩ :=
    h.stretch source hfuel hcall exceeding
  cases stop with
  | none =>
    have hcalled : s.safeListChannels source fuel call exceeding =
        some { s with pending := none, out := s.out ++ replies ++ [.listEnd] } := by
      rw [ListState.safeListChannels, if_neg (by simp [honly]), hremote, hfilters, hloop,
        Option.map_some]
    have hall : ∀ m, (if strhash key m < HASHSIZE then 1 else 0) = req.times m := by
      intro m
      rw [if_pos (strhash_lt hkey m), htimes]
    refine ⟨_, hcalled, .ended hfiled h.keyed ?_ ?_ hlive⟩
    · intro m
      rw [← hall m]
      exact hsum m
    · intro a m hm hpass hbefore
      rw [← hall m]
      exact hdue a m hm hpass hbefore
  | some i =>
    have hcalled : s.safeListChannels source fuel call exceeding =
        some ⟨s.tables, s.chan, if req.remoteRequest then none
          else some ⟨{ call.task with hashIndex := i }, false, false⟩, s.out ++ replies⟩ := by
      rw [ListState.safeListChannels, if_neg (by simp [honly]), hremote, hfilters, hloop,
        Option.map_some]
    have hnoend : .listEnd ∉ s.out ++ replies := by
      rw [mem_append, not_or]
      refine ⟨h.unfinished call hcall, fun hmem => ?_⟩
      obtain ⟨m, hm, -⟩ := hlive _ hmem
      exact hm.ne_listEnd rfl
    refine ⟨_, hcalled, ⟨⟨lists, hfiled⟩, h.keyed, ?_, ?_, ?_⟩, rfl, ?_, replies, rfl,
      fun r hr _ => hlive r hr⟩
    · intro call' hpending
      split at hpending
      · cases hpending
      · rename_i hlocal
        obtain rfl := Option.some.inj hpending
        refine ⟨?_, hstop, ?_⟩
        · rw [heq]
          simp [hwalk, hlocal]
        · simp [hwalk]
    · intro m
      have hm := hsum m
      dsimp only
      by_cases hlocal : req.remoteRequest = true
      · rw [if_pos hlocal, quota, htimes]
        split at hm <;> omega
      · rw [if_neg hlocal]
        exact hm
    · intro call' _
      exact hnoend
    · intro a m hm hpass hbefore hafter
      dsimp only at hafter ⊢
      by_cases hlocal : req.remoteRequest = true
      · rw [if_pos hlocal] at hafter
        rcases hafter with hnone | hmem
        · exact absurd rfl hnone
        · exact absurd hmem hnoend
      · rw [if_neg hlocal]
        exact hdue a m hm hpass hbefore

theorem Progress.named (h : Progress n key req live s) (hfuel : n ≤ fuel)
    (hcall : s.pending = some call) (honly : req.onlyUnmaskedChannels = true)
    (exceeding : Nat → Bool) :
    ∃ t, s.safeListChannels source fuel call exceeding = some t ∧
      BroughtOn source n key req call live s t := by
  obtain ⟨lists, hfiled⟩ := h.filed
  obtain ⟨heq, -, hzero⟩ := h.request call hcall
  have hzero := hzero honly
  obtain ⟨replies, tables, lists', hloop, hfiled', hkey, hmost, hexact, hlive⟩ :=
    hfiled.listNamed hfuel source req.task.toListFilters req.remoteRequest s
      req.task.showMask
  have hnothing : ∀ m, reported m s.out = 0 := by
    intro m
    have hm := h.most m
    rw [hcall, quota, hzero, if_neg (Nat.not_lt_zero _)] at hm
    exact Nat.le_zero.mp hm
  have hcalled : s.safeListChannels source fuel call exceeding =
      some { s with tables, pending := none, out := s.out ++ replies ++ [.listEnd] } := by
    have hpart : s.listNamed source fuel call.task.toListFilters call.remoteRequest
        call.task.showMask s.tables = some (replies, tables) := by
      rw [heq]
      exact hloop
    have honly' : call.onlyUnmaskedChannels = true := by
      rw [heq]
      exact honly
    rw [ListState.safeListChannels, if_pos honly', hpart, Option.map_some]
  refine ⟨_, hcalled, .ended hfiled' (hkey.trans h.keyed) ?_ ?_ ?_⟩
  · intro m
    rw [reported_append, hnothing, ListCall.times, if_pos honly, Nat.zero_add]
    exact hmost m
  · intro a m hm hpass _
    rw [reported_append, hnothing, ListCall.times, if_pos honly, Nat.zero_add]
    exact hexact a m hm hpass
  · intro r hr
    obtain ⟨m, hm⟩ := hlive r hr
    exact ⟨m, hm, hzero ▸ Nat.zero_le _⟩

theorem Progress.next (h : Progress n key req live s) (hkey : key < 2 ^ 32) (hfuel : n ≤ fuel)
    (hcall : s.pending = some call) (exceeding : Nat → Bool) :
    ∃ t, s.safeListChannels source fuel call exceeding = some t ∧
      BroughtOn source n key req call live s t := by
  cases honly : req.onlyUnmaskedChannels with
  | false => exact h.walk hkey hfuel hcall honly exceeding
  | true => exact h.named hfuel hcall honly exceeding

end Call

/-! ### Runs -/

/-- The operations on the tables among the events. -/
def hashOps : List ListEvent → List HashOp
  | [] => []
  | .hash op :: evs => op :: hashOps evs
  | _ :: evs => hashOps evs

/-- The data of the channels after an event. -/
def chanStep (chan : Nat → ListedChannel) : ListEvent → Nat → ListedChannel
  | .set a ch => Function.update chan a ch
  | _ => chan

def liveEvent (live : LiveNames) : ListEvent → LiveNames
  | .hash op => liveStep live op
  | _ => live

/-- The channel exists from the start to the end and passes the filters of the request
all the time. -/
def Stays (source : Nat) (req : ListCall) (a : Nat) (m : CStr) (live : LiveNames)
    (chan : Nat → ListedChannel) : List ListEvent → Prop
  | [] => live .channel a = some m ∧
      passesFilters source req.task.toListFilters req.remoteRequest m (chan a) = true
  | ev :: evs => live .channel a = some m ∧
      passesFilters source req.task.toListFilters req.remoteRequest m (chan a) = true ∧
      Stays source req a m (liveEvent live ev) (chanStep chan ev) evs

section Run

variable {source n fuel key : Nat} {req : ListCall} {live : LiveNames} {s : ListState}

theorem Stays.now {a : Nat} {m : CStr} {chan : Nat → ListedChannel} {evs : List ListEvent}
    (h : Stays source req a m live chan evs) : live .channel a = some m ∧
      passesFilters source req.task.toListFilters req.remoteRequest m (chan a) = true := by
  cases evs with
  | nil => exact h
  | cons ev evs => exact ⟨h.1, h.2.1⟩

theorem Progress.step (h : Progress n key req live s) (hkey : key < 2 ^ 32) (hfuel : n ≤ fuel)
    {ev : ListEvent} (hok : ∀ op, ev = .hash op → Admissible live op) :
    ∃ t, s.step source fuel ev = some t ∧ Progress (n + 1) key req (liveEvent live ev) t ∧
      t.chan = chanStep s.chan ev ∧
      ∀ a m, live .channel a = some m →
        passesFilters source req.task.toListFilters req.remoteRequest m (s.chan a) = true →
        ReportedAsDue key req m s → ReportedAsDue key req m t := by
  cases ev with
  | hash op =>
    obtain ⟨lists, hfiled⟩ := h.filed
    obtain ⟨tables, lists', hstep, hfiled'⟩ := hfiled.step hfuel (hok op rfl)
    refine ⟨{ s with tables }, ?_, ⟨⟨lists', hfiled'⟩, ?_, h.request, h.most, h.unfinished⟩, rfl,
      fun a m _ _ hdue => hdue⟩
    · rw [ListState.step, hstep, Option.map_some]
    · exact (HashTables.step_key hstep).trans h.keyed
  | set a ch =>
    obtain ⟨lists, hfiled⟩ := h.filed
    exact ⟨_, rfl, ⟨⟨lists, hfiled.mono (Nat.le_succ n)⟩, h.keyed, h.request, h.most,
      h.unfinished⟩, rfl, fun a m _ _ hdue => hdue⟩
  | call exceeding =>
    cases hcall : s.pending with
    | none =>
      obtain ⟨lists, hfiled⟩ := h.filed
      exact ⟨s, by rw [ListState.step, hcall], ⟨⟨lists, hfiled.mono (Nat.le_succ n)⟩, h.keyed,
        h.request, h.most, h.unfinished⟩, rfl, fun a m _ _ hdue => hdue⟩
    | some call =>
      obtain ⟨t, hcalled, ht, hchan, hdue, -⟩ := h.next hkey hfuel hcall exceeding
      obtain ⟨lists, hfiled⟩ := ht.filed
      exact ⟨t, by rw [ListState.step, hcall]; exact hcalled,
        ⟨⟨lists, hfiled.mono (Nat.le_succ n)⟩, ht.keyed, ht.request, ht.most, ht.unfinished⟩,
        hchan, hdue⟩

theorem Progress.run (h : Progress n key req live s) (hkey : key < 2 ^ 32) {evs : List ListEvent}
    (hok : AdmissibleRun live (hashOps evs)) (hfuel : n + evs.length ≤ fuel) :
    ∃ t, s.run source fuel evs = some t ∧
      Progress (n + evs.length) key req ((hashOps evs).foldl liveStep live) t ∧
      t.chan = evs.foldl chanStep s.chan ∧
      ∀ a m, Stays source req a m live s.chan evs →
        ReportedAsDue key req m s → ReportedAsDue key req m t := by
  induction evs generalizing n live s with
  | nil => exact ⟨s, rfl, h, rfl, fun a m _ hdue => hdue⟩
  | cons ev evs ih =>
    rw [length_cons] at hfuel
    have hhere : (∀ op, ev = .hash op → Admissible live op) ∧
        AdmissibleRun (liveEvent live ev) (hashOps evs) ∧
        (hashOps (ev :: evs)).foldl liveStep live =
          (hashOps evs).foldl liveStep (liveEvent live ev) := by
      cases ev with
      | hash op =>
        refine ⟨fun op' heq => ?_, hok.2, rfl⟩
        cases heq
        exact hok.1
      | set a ch =>
        refine ⟨fun op heq => ?_, hok, rfl⟩
        cases heq
      | call exceeding =>
        refine ⟨fun op heq => ?_, hok, rfl⟩
        cases heq
    obtain ⟨hadmissible, hrest, hfold⟩ := hhere
    have hn : n ≤ fuel := by omega
    have hn' : n + 1 + evs.length ≤ fuel := by omega
    obtain ⟨u, hstep, hu, hchan, hdue⟩ := h.step hkey hn hadmissible
    obtain ⟨t, hrun, ht, hchan', hdue'⟩ := ih hu hrest hn'
    refine ⟨t, ?_, ?_, ?_, ?_⟩
    · rw [ListState.run, foldlM_cons, hstep]
      exact hrun
    · rw [hfold, length_cons, ← Nat.add_assoc, Nat.add_right_comm]
      exact ht
    · rw [hchan', hchan, foldl_cons]
    · intro a m hstays hbefore
      obtain ⟨hm, hpass⟩ := hstays.now
      apply hdue' a m
      · rw [hchan]
        exact hstays.2.2
      · exact hdue a m hm hpass hbefore

end Run

theorem ListOptions.option_hashIndex (o : ListOptions) (now : Int) (opt : CStr) :
    (o.option now opt).task.hashIndex = o.task.hashIndex := by
  have hnumber : ∀ (least : Int) (n : CStr) (set : Int → ListTask → ListTask),
      (∀ i lt, (set i lt).hashIndex = lt.hashIndex) →
      (o.number least n set).task.hashIndex = o.task.hashIndex := by
    intro least n set hset
    unfold ListOptions.number
    split
    · exact hset _ _
    · rfl
  have hmask : ∀ hide opt, (o.mask hide opt).task.hashIndex = o.task.hashIndex := by
    intro hide opt
    unfold ListOptions.mask
    dsimp only
    repeat' split
    all_goals rfl
  unfold ListOptions.option
  split
  · exact hnumber _ _ _ fun _ _ => rfl
  · exact hnumber _ _ _ fun _ _ => rfl
  · rfl
  -- the four letters of the times have the same two signs behind them
  iterate 4
    · split
      · exact hnumber _ _ _ fun _ _ => rfl
      · exact hnumber _ _ _ fun _ _ => rfl
      · rfl
  · exact hmask true _
  · exact hmask false _

theorem doList_hashIndex {now : Int} {myConnect : Bool} {arg : Option CStr} {req : ListCall}
    (h : doList now myConnect arg = some req) : req.task.hashIndex = 0 := by
  have hfold : ∀ (opts : List CStr) (o : ListOptions),
      (opts.foldl (fun o opt => o.option now opt) o).task.hashIndex = o.task.hashIndex := by
    intro opts
    induction opts with
    | nil => exact fun o => rfl
    | cons opt opts ih => exact fun o => (ih _).trans (o.option_hashIndex now opt)
  unfold doList at h
  dsimp only at h
  split at h
  · cases h
  · rw [← Option.some.inj h]
    exact hfold _ _

/-- A server with one channel on which its creator is. -/
def oneChannel : Nat → ListedChannel := fun _ => ⟨false, [3], 100, 0, none⟩

/-- The request stops on its way, and its channel is looked up before it goes on. -/
def suspendedList : List ListEvent :=
  [.call fun i => i == 40000, .hash (.find .channel "#C".toList), .call fun _ => false]

end Ircd
