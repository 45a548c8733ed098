import Ircd.Channel

/-!
The mask lists of a channel: `add_id` and `del_id` of `channel_mode.c` with the
functions that bring a mask into its three parts.

A CIDR mask never has an effect as such (`cidr_ban_effective_iff`): the host
part that `add_id` stores and the socket address that `find_bmask` passes carry
no `@`, and `match_cidr` refuses a text without one.
-/

namespace Ircd

/-! ### Normalising a mask -/

/-- `check_string`: the text up to the first blank, or `*` for an empty text. -/
def checkString (s : CStr) : CStr :=
  if s.isEmpty then ['*'] else s.takeWhile fun c => !isSpace c

/-- A part of a mask: `*` when it is empty, else at most `size - 1` characters
of it. -/
def maskPart (s : CStr) (size : Nat) : CStr := if s.isEmpty then ['*'] else strlcpy s size

/-- `split_nuh` with a place for the nick. -/
def splitNuh (nicklen : Nat) (mask : CStr) : CStr × CStr × CStr :=
  match strchr '!' mask with
  | some (nick, p) =>
    match strchr '@' p with
    | some (user, host) =>
      (maskPart nick nicklen, maskPart user (USERLEN + 1), maskPart host (HOSTLEN + 1))
    | none => (maskPart nick nicklen, maskPart p (USERLEN + 1), ['*'])
  | none =>
    match strchr '@' mask with
    | some (user, host) => (['*'], maskPart user (USERLEN + 1), maskPart host (HOSTLEN + 1))
    | none =>
      if mask.any fun c => c == '.' || c == ':' then (['*'], ['*'], strlcpy mask (HOSTLEN + 1))
      else (strlcpy mask nicklen, ['*'], ['*'])

/-- `ircsprintf(banid, "%s!%s@%s", name, user, host)`. -/
def nuhText (name user host : CStr) : CStr := name ++ '!' :: user ++ '@' :: host

/-! ### The lists -/

def Channel.list (chptr : Channel) : BanType → List Ban
  | .ban => chptr.banlist
  | .exception => chptr.exceptlist
  | .invex => chptr.invexlist

/-- The channel with another list of a mask type. -/
def Channel.setList (chptr : Channel) (type : BanType) (list : List Ban) : Channel :=
  match type with
  | .ban => { chptr with banlist := list }
  | .exception => { chptr with exceptlist := list }
  | .invex => { chptr with invexlist := list }

/-- The `switch` of `add_id` and `del_id`: a change of the bans or of the
exceptions clears the ban cache. -/
def selectList (chptr : Channel) : BanType → Channel
  | .ban => clearBanCache chptr
  | .exception => clearBanCache chptr
  | .invex => chptr

/-- The three comparisons of `add_id` and `del_id`. -/
def Ban.sameMask (bp : Ban) (name user host : CStr) : Bool :=
  ircEq bp.name name && ircEq bp.username user && ircEq bp.host host

/-- `dlink_list_length` over the three lists. -/
def Channel.numMask (chptr : Channel) : Nat :=
  chptr.banlist.length + chptr.exceptlist.length + chptr.invexlist.length

/-- What `add_id` and `del_id` leave: their result, the text at `banid`, and
the channel. -/
structure IdResult where
  ok : Bool
  banid : CStr
  chptr : Channel
  deriving DecidableEq

def banWho (client : Client) : CStr :=
  if client.isClient then nuhText client.name client.username client.host else client.name

/-- The mask that `add_id` splits: a local source has its stars collapsed
first. -/
def addIdMask (client : Client) (banid : CStr) : CStr :=
  checkString (if client.myClient then collapse banid else banid)

/-- `add_id` at time `now`. -/
def addId (cf : Config) (now : Int) (client : Client) (chptr : Channel) (banid : CStr)
    (type : BanType) : IdResult :=
  if client.myClient ∧ cf.channel.maxBans ≤ chptr.numMask then ⟨false, banid, chptr⟩
  else
    match splitNuh cf.nicklen (addIdMask client banid) with
    | (name, user, host) =>
      let chptr := selectList chptr type
      if (chptr.list type).any fun bp => bp.sameMask name user host then
        ⟨false, nuhText name user host, chptr⟩
      else
        let actualBan : Ban :=
          { len := (nuhText name user host).length - 2, name := name, username := user,
            host := host, who := banWho client, setAt := now }
        ⟨true, nuhText name user host, chptr.setList type (actualBan :: chptr.list type)⟩

/-- `del_id`. -/
def delId (cf : Config) (chptr : Channel) (banid : CStr) (type : BanType) : IdResult :=
  match splitNuh cf.nicklen (checkString banid) with
  | (name, user, host) =>
    let chptr := selectList chptr type
    let same (bp : Ban) : Bool := bp.sameMask name user host
    ⟨(chptr.list type).any same, nuhText name user host,
      chptr.setList type ((chptr.list type).eraseP same)⟩

@[simp] theorem list_setList (chptr : Channel) (type : BanType) (list : List Ban) :
    (chptr.setList type list).list type = list := by
  cases type <;> rfl

@[simp] theorem selectList_list (chptr : Channel) (type type' : BanType) :
    (selectList chptr type).list type' = chptr.list type' := by
  cases type <;> cases type' <;> rfl

theorem addId_ok {cf : Config} {now : Int} {client : Client} {chptr : Channel} {banid : CStr}
    {type : BanType} (h : (addId cf now client chptr banid type).ok = true) :
    ∃ bp : Ban, (addId cf now client chptr banid type).chptr.list type = bp :: chptr.list type ∧
      (bp.name, bp.username, bp.host) = splitNuh cf.nicklen (addIdMask client banid) := by
  unfold addId at h ⊢
  split at h
  · simp at h
  · rename_i hroom
    rw [if_neg hroom]
    simp only at h ⊢
    split at h
    · simp at h
    · rename_i hdup
      rw [if_neg hdup]
      refine ⟨_, by rw [list_setList, selectList_list], rfl⟩

theorem splitNuh_nuhText {nicklen : Nat} {name user host : CStr} (hbang : '!' ∉ name)
    (hat : '@' ∉ user) (hname : name ≠ [] ∧ name.length < nicklen)
    (huser : user ≠ [] ∧ user.length ≤ USERLEN) (hhost : host ≠ [] ∧ host.length ≤ HOSTLEN) :
    splitNuh nicklen (nuhText name user host) = (name, user, host) := by
  have hpart : ∀ {s : CStr} {size : Nat}, s ≠ [] → s.length < size → maskPart s size = s := by
    intro s size hs hlen
    simp [maskPart, hs, strlcpy, List.take_of_length_le (show s.length ≤ size - 1 by omega)]
  have htext : nuhText name user host = name ++ '!' :: (user ++ '@' :: host) := by
    simp [nuhText]
  rw [htext, splitNuh, strchr_append hbang]
  simp only [strchr_append hat]
  rw [hpart hname.1 hname.2, hpart huser.1 (by omega), hpart hhost.1 (by omega)]

/-! ### CIDR masks -/

/-- A CIDR host part: the text of an address and, behind a `/`, a prefix length
within the width of that address. -/
def IsCidr (host : CStr) (addr : Address) (n : Nat) : Prop :=
  ∃ ip len, host = ip ++ '/' :: len ∧ getaddrinfo ip = some addr ∧
    (∀ c ∈ len, isDigit c = true) ∧ readDigits 0 len = n ∧ n ≤ addr.family.width

/-- The client is one the CIDR mask is meant for: nick and user match and the
socket address agrees with the mask on the prefix. -/
def Ban.MeantFor (bp : Ban) (addr : Address) (n : Nat) (who : Client) : Prop :=
  matchMask bp.name who.name = true ∧ matchMask bp.username who.username = true ∧
    ∃ ip, getaddrinfo who.sockhost = some ip ∧ ip.AgreeOn n addr

/-- The mask matches the client as text: nick, user, and the host or the socket
address, each under `match`. -/
def Ban.matchesText (bp : Ban) (who : Client) : Bool :=
  matchMask bp.name who.name && matchMask bp.username who.username &&
    (matchMask bp.host who.host || matchMask bp.host who.sockhost)

theorem IsCidr.at_notMem {host : CStr} {addr : Address} {n : Nat} (h : IsCidr host addr n) :
    '@' ∉ host := by
  obtain ⟨ip, len, rfl, hip, hlen, -⟩ := h
  have hdigit : '@' ∉ len := fun hmem => by
    have := hlen '@' hmem
    simp [show isDigit '@' = false by decide] at this
  simp [at_notMem_of_getaddrinfo hip, hdigit]

theorem Ban.covers_of_sockhost {nicklen : Nat} {bp : Ban} {who : Client}
    (h : '@' ∉ who.sockhost) : bp.covers nicklen who = bp.matchesText who := by
  simp [Ban.covers, Ban.matchesText, matchCidr_eq_false_of_address h]

theorem Ban.covers_of_host {nicklen : Nat} {bp : Ban} {who : Client} (h : '@' ∉ bp.host) :
    bp.covers nicklen who = bp.matchesText who := by
  simp [Ban.covers, Ban.matchesText, matchCidr_eq_false_of_mask h]

theorem findBmask_eq_matchesText {nicklen : Nat} {who : Client} {list : List Ban}
    (h : '@' ∉ who.sockhost) :
    findBmask nicklen who list = list.any fun bp => bp.matchesText who := by
  unfold findBmask
  congr 1
  funext bp
  exact bp.covers_of_sockhost h

/-- A CIDR mask that `add_id` accepts is put on its list, but a list with it finds
a client it is meant for only where one of its masks matches the client as
text. Alone, it never finds more clients than its text does. -/
theorem cidr_ban_effective_iff {cf : Config} {now : Int} {client : Client} {chptr : Channel}
    {banid name user host : CStr} {type : BanType} {addr : Address} {n : Nat}
    (hadd : (addId cf now client chptr banid type).ok = true)
    (hmask : splitNuh cf.nicklen (addIdMask client banid) = (name, user, host))
    (hcidr : IsCidr host addr n) :
    ∃ bp : Ban, (addId cf now client chptr banid type).chptr.list type = bp :: chptr.list type ∧
      (bp.name, bp.username, bp.host) = (name, user, host) ∧
      (∀ who list, bp ∈ list → bp.MeantFor addr n who →
        (findBmask cf.nicklen who list = true ↔ ∃ bp' ∈ list, bp'.matchesText who = true)) ∧
      (∀ who, bp.matchesText who = false → findBmask cf.nicklen who [bp] = false) := by
  obtain ⟨bp, hlist, hparts⟩ := addId_ok hadd
  rw [hmask] at hparts
  refine ⟨bp, hlist, hparts, ?_, ?_⟩
  · rintro who list - ⟨-, -, ip, hip, -⟩
    rw [findBmask_eq_matchesText (at_notMem_of_getaddrinfo hip), List.any_eq_true]
  · intro who htext
    have hhost : bp.host = host := by
      simp only [Prod.mk.injEq] at hparts
      exact hparts.2.2
    have hat : '@' ∉ bp.host := by
      rw [hhost]
      exact hcidr.at_notMem
    simp [findBmask, bp.covers_of_host hat, htext]

def plainConfig : Config := { (default : Config) with nicklen := 10 }

def tenNet : IdResult :=
  addId plainConfig 0 { (default : Client) with status := .server } default "*!*@10.0.0.0/8".toList
    .ban

def tenNetClient : Client :=
  { (default : Client) with
    status := .client, name := "nick".toList, username := "user".toList,
    host := "host.example.com".toList, sockhost := "10.1.2.3".toList }

theorem isCidr_tenNet : IsCidr "10.0.0.0/8".toList ⟨.inet, [10, 0, 0, 0]⟩ 8 :=
  ⟨"10.0.0.0".toList, "8".toList, by decide, by decide, List.forall_mem_singleton.mpr (by decide),
    by decide, by decide⟩

theorem cidr_ban_effective_iff_tenNet :
    ∃ bp : Ban, tenNet.chptr.banlist = [bp] ∧
      (bp.name, bp.username, bp.host) = ("*".toList, "*".toList, "10.0.0.0/8".toList) ∧
      (∀ who list, bp ∈ list → bp.MeantFor ⟨.inet, [10, 0, 0, 0]⟩ 8 who →
        (findBmask 10 who list = true ↔ ∃ bp' ∈ list, bp'.matchesText who = true)) ∧
      (∀ who, bp.matchesText who = false → findBmask 10 who [bp] = false) :=
  @cidr_ban_effective_iff plainConfig 0 { (default : Client) with status := .server } default
    "*!*@10.0.0.0/8".toList _ _ _ .ban _ _ (by decide) (by decide) isCidr_tenNet

/-- The ban on 10.0.0.0/8 is accepted and meant for a client at 10.1.2.3, and
does not find it. -/
theorem cidr_ban_without_effect :
    tenNet.ok = true ∧ ∃ bp, tenNet.chptr.banlist = [bp] ∧ IsCidr bp.host ⟨.inet, [10, 0, 0, 0]⟩ 8 ∧
      bp.MeantFor ⟨.inet, [10, 0, 0, 0]⟩ 8 tenNetClient ∧
      findBmask 10 tenNetClient [bp] = false :=
  ⟨by decide, ⟨12, "*".toList, "*".toList, "10.0.0.0/8".toList, [], 0⟩, by decide, isCidr_tenNet,
    ⟨by decide, by decide, ⟨.inet, [10, 1, 2, 3]⟩, by decide, by decide⟩, by decide⟩

end Ircd
