import Ircd.ModeSend
import Ircd.SjoinText
import Mathlib.Data.Nat.Bitwise

/-!
What is told to a channel as a whole: messages to the members behind other servers
(`sendto_channel_remote` of `send.c`, used by `m_message.c`), and the list of its members
(`channel_member_names` of `channel.c`).

`sendto_channel_remote` goes through the members and not through the links, so a link gets
a copy for every member behind it (`sent_once_iff`).
-/

namespace Ircd

open List

/-! ### Messages to the members behind other servers -/

/-- `CAP_CHW`. -/
def CAP_CHW : Nat := 0x8

/-- The clients, and the capabilities of the servers that are linked. -/
structure Links where
  clients : Clients
  caps : Cid → Nat

namespace Links

variable (lk : Links)

/-- The tests of `sendto_channel_remote` on a member: it has a status that is asked for, and
is not connected here. -/
def isEligible (type : Finset ChFlag) (ms : Membership) : Bool :=
  (decide (type = ∅) || !decide (Disjoint ms.flags type)) && !(lk.clients ms.client).myConnect

def linkOf (ms : Membership) : Cid := (lk.clients ms.client).from

/-- The tests of `sendto_channel_remote` on a link. -/
def takes (one : Cid) (caps nocaps : Nat) (link : Cid) : Bool :=
  link != (lk.clients one).from && (lk.caps (lk.clients link).from &&& caps) == caps &&
    (lk.caps (lk.clients link).from &&& nocaps) == 0

/-- `sendto_channel_remote`: the links that the line is queued to, one after the other. -/
def sendtoChannelRemote (one : Cid) (type : Finset ChFlag) (caps nocaps : Nat)
    (chptr : Channel) : List Cid :=
  ((chptr.members.filter (lk.isEligible type)).map lk.linkOf).filter (lk.takes one caps nocaps)

/-- The status flags that `msg_channel_flags` sends to, and the letter in front of the name of
the channel. -/
def messageType (flags : Finset ChFlag) : Finset ChFlag × Char :=
  if .voice ∈ flags then ({.voice, .halfop, .chanop}, '+')
  else if .halfop ∈ flags then ({.halfop, .chanop}, '%')
  else ({.chanop}, '@')

/-- `":%s %s %c%s :%s"`. -/
def channelLine (sender command : CStr) (c : Char) (chname text : CStr) : CStr :=
  sendFormat (':' :: sender ++ ' ' :: command ++ ' ' :: c :: chname ++ ' ' :: ':' :: text)

/-- `msg_channel_flags`: what is queued to other servers. -/
def msgChannelFlags (source : Cid) (flags : Finset ChFlag) (command : CStr) (chptr : Channel)
    (text : CStr) : List (Cid × CStr) :=
  let (type, c) := messageType flags
  let x := lk.clients source
  if chptr.chname.head? ≠ some '#' then []
  else
    (lk.sendtoChannelRemote source type CAP_CHW CAP_TS6 chptr).map
        (·, channelLine x.name command c chptr.chname text) ++
      (lk.sendtoChannelRemote source type (CAP_CHW ||| CAP_TS6) 0 chptr).map
        (·, channelLine x.ID command c chptr.chname text)

/-- The members that the message is for, behind a link. -/
def behind (type : Finset ChFlag) (chptr : Channel) (link : Cid) : List Membership :=
  chptr.members.filter fun ms => lk.isEligible type ms && lk.linkOf ms == link

variable {lk : Links} {one link : Cid} {type : Finset ChFlag} {caps nocaps : Nat} {chptr : Channel}

theorem count_sendtoChannelRemote : (lk.sendtoChannelRemote one type caps nocaps chptr).count link =
    if lk.takes one caps nocaps link then (lk.behind type chptr link).length else 0 := by
  have hmap : ∀ l : List Membership, (l.map lk.linkOf).count link =
      (l.filter fun ms => lk.linkOf ms == link).length := by
    intro l
    rw [List.count, countP_map, countP_eq_length_filter]
    rfl
  unfold sendtoChannelRemote behind
  cases htakes : lk.takes one caps nocaps link with
  | true =>
    rw [count_filter htakes, hmap, filter_filter, if_pos rfl]
    simp only [Bool.and_comm]
  | false =>
    rw [if_neg (by simp), count_eq_zero]
    intro hmem
    simp [htakes] at hmem

/-- The message is queued once to every link that takes it and has somebody behind it whom it
is for, if and only if it is for one member at most behind each of them. -/
theorem sent_once_iff (lk : Links) (one : Cid) (type : Finset ChFlag) (caps nocaps : Nat)
    (chptr : Channel) :
    (∀ link, (lk.sendtoChannelRemote one type caps nocaps chptr).count link =
      if lk.takes one caps nocaps link ∧ lk.behind type chptr link ≠ [] then 1 else 0) ↔
    ∀ link, lk.takes one caps nocaps link → (lk.behind type chptr link).length ≤ 1 := by
  refine forall_congr' fun link => ?_
  rw [count_sendtoChannelRemote]
  cases htakes : lk.takes one caps nocaps link with
  | false => simp
  | true =>
    have hlen := length_eq_zero_iff (l := lk.behind type chptr link)
    by_cases hnone : lk.behind type chptr link = []
    · simp [hnone]
    · have hpos : (lk.behind type chptr link).length ≠ 0 := fun h => hnone (hlen.mp h)
      simp only [if_true, true_and, ne_eq, hnone, not_false_eq_true, forall_const]
      omega

/-- Two voiced users behind one server, which takes channel messages. -/
def twoBehind : Links where
  clients c := { (default : Client) with status := .client, «from» := if c = 0 then 0 else 5 }
  caps _ := CAP_CHW

def twoVoices : Channel where
  chname := "#c".toList
  channelts := 1
  mode := default
  members := [⟨1, {.voice}, false⟩, ⟨2, {.voice}, false⟩]
  banlist := []
  exceptlist := []
  invexlist := []

/-- A message to `+#c` goes twice to the server of both. -/
theorem two_copies :
    ¬∀ (lk : Links) (one : Cid) (type : Finset ChFlag) (caps nocaps : Nat) (chptr : Channel)
      (link : Cid), (lk.sendtoChannelRemote one type caps nocaps chptr).count link =
        if lk.takes one caps nocaps link ∧ lk.behind type chptr link ≠ [] then 1 else 0 := by
  intro hall
  have hcount := hall twoBehind 0 (messageType {.voice}).1 CAP_CHW CAP_TS6 twoVoices 5
  revert hcount
  decide +kernel

end Links

/-! ### NAMES -/

/-- `get_member_status` of one status. -/
def getMemberStatus (flags : Finset ChFlag) : CStr :=
  if .chanop ∈ flags then ['@']
  else if .halfop ∈ flags then ['%']
  else if .voice ∈ flags then ['+']
  else []

/-- `channel_pub_or_secret`. -/
def channelPubOrSecret (chptr : Channel) : CStr :=
  if .secret ∈ chptr.mode.mode then ['@'] else if .priv ∈ chptr.mode.mode then ['*'] else ['=']

/-- `form_str(RPL_NAMREPLY)`: `":%s 353 %s %s %s :"`. -/
def namesHeader (me who : CStr) (chptr : Channel) : CStr :=
  ':' :: me ++ " 353 ".toList ++ who ++ ' ' :: channelPubOrSecret chptr ++ ' ' :: chptr.chname ++
    [' ', ':']

/-- The buffer of `channel_member_names`: what stands behind the header, and the lines that
were sent from it. `closed` says that the NUL of a line without names has gone over the last
byte of the header, where every later line ends. -/
structure NamesBuf where
  closed : Bool
  body : CStr
  sent : List CStr
  deriving DecidableEq

namespace NamesBuf

variable (header : CStr) (b : NamesBuf)

/-- The text up to the NUL that `*(t - 1) = '\0'` writes. -/
def text : CStr :=
  if b.closed || b.body.isEmpty then header.dropLast else header ++ b.body.dropLast

/-- A line goes out, and the next one starts behind the header. -/
def flush : NamesBuf := ⟨b.closed || b.body.isEmpty, [], b.sent ++ [b.text header]⟩

/-- The loop body for a member that is shown. -/
def add (word : CStr) : NamesBuf :=
  let b := if IRCD_BUFSIZE < header.length + b.body.length + (word.length + 1) then b.flush header
    else b
  { b with body := b.body ++ word ++ [' '] }

end NamesBuf

/-- The members that are shown, each with its status and its nick. -/
def shownMembers (cl : Clients) (chptr : Channel) (isMember : Bool) : List CStr :=
  (chptr.members.filter fun ms => !(cl ms.client).isInvisible || isMember).map fun ms =>
    getMemberStatus ms.flags ++ (cl ms.client).name

/-- `channel_member_names`: the lines that it hands to `sendto_one`. -/
def channelMemberNames (cl : Clients) (me : CStr) (source : Cid) (chptr : Channel) : List CStr :=
  let isMember := (findChannelLink cl source chptr).isSome
  if .secret ∉ chptr.mode.mode ∨ isMember then
    let header := namesHeader me (cl source).name chptr
    let words := shownMembers cl chptr isMember
    if words = [] then []
    else ((words.foldl (NamesBuf.add header) ⟨false, [], []⟩).flush header).sent
  else []

/-! ### What the lines say -/

/-- The members that NAMES may show: none of a secret channel, unless the client is on it. -/
def visibleMembers (cl : Clients) (source : Cid) (chptr : Channel) : List CStr :=
  let isMember := (findChannelLink cl source chptr).isSome
  if .secret ∉ chptr.mode.mode ∨ isMember then shownMembers cl chptr isMember else []

def namesOn (header line : CStr) : List CStr := nickWords (line.drop header.length)

/-- The bytes that a word and its blank take. -/
def width (word : CStr) : Nat := word.length + 1

/-- `h` bytes of header and `used` bytes with the words so far. The words are put on lines in
order, a line ends in front of the word that would bring it over `IRCD_BUFSIZE`, and no line is
filled up to the last byte, nor left without a word. -/
def LinesFit (h : Nat) : Nat → List Nat → Prop
  | used, [] => used < IRCD_BUFSIZE
  | used, w :: ws =>
    if IRCD_BUFSIZE < used + w then h < used ∧ used < IRCD_BUFSIZE ∧ LinesFit h (h + w) ws
    else LinesFit h (used + w) ws

instance decidableLinesFit (h : Nat) : ∀ used ws, Decidable (LinesFit h used ws)
  | used, [] => inferInstanceAs (Decidable (used < IRCD_BUFSIZE))
  | used, w :: ws =>
    have := decidableLinesFit h (h + w) ws
    have := decidableLinesFit h (used + w) ws
    inferInstanceAs (Decidable (if IRCD_BUFSIZE < used + w then
      h < used ∧ used < IRCD_BUFSIZE ∧ LinesFit h (h + w) ws else LinesFit h (used + w) ws))

namespace NamesBuf

variable {header : CStr} {b : NamesBuf} {cur ws : List CStr}

/-- The lines that are sent from a buffer for further words. -/
def finish (header : CStr) (b : NamesBuf) (ws : List CStr) : List CStr :=
  ((ws.foldl (NamesBuf.add header) b).flush header).sent

theorem finish_cons (w : CStr) :
    finish header b (w :: ws) = finish header (b.add header w) ws := rfl

def lineOf (header : CStr) (ws : List CStr) : CStr := header ++ (words ws).dropLast

theorem length_words_pos (h : ws ≠ []) : 0 < (words ws).length := by
  cases ws with
  | nil => exact absurd rfl h
  | cons w ws =>
    rw [words_cons, length_append, length_cons]
    omega

theorem length_lineOf (header : CStr) (h : ws ≠ []) :
    (lineOf header ws).length + 1 = header.length + (words ws).length := by
  have hpos := length_words_pos h
  rw [lineOf, length_append, length_dropLast]
  omega

theorem namesOn_lineOf (hws : ∀ w ∈ ws, w ≠ [] ∧ ' ' ∉ w) :
    namesOn header (lineOf header ws) = ws := by
  rw [namesOn, lineOf, drop_left, nickWords_words_dropLast hws]

theorem text_words (h : cur ≠ []) (sent : List CStr) :
    (⟨false, words cur, sent⟩ : NamesBuf).text header = lineOf header cur := by
  have hbody : (words cur).isEmpty = false := by
    rw [isEmpty_eq_false_iff, ← length_pos_iff]
    exact length_words_pos h
  simp [text, lineOf, hbody]

theorem add_same {w : CStr} (sent : List CStr)
    (h : ¬IRCD_BUFSIZE < header.length + (words cur).length + width w) :
    (⟨false, words cur, sent⟩ : NamesBuf).add header w = ⟨false, words (cur ++ [w]), sent⟩ := by
  rw [add, width] at *
  rw [if_neg h, words_append]
  simp

theorem add_next {w : CStr} (hcur : cur ≠ []) (sent : List CStr)
    (h : IRCD_BUFSIZE < header.length + (words cur).length + width w) :
    (⟨false, words cur, sent⟩ : NamesBuf).add header w =
      ⟨false, words [w], sent ++ [lineOf header cur]⟩ := by
  have hbody : (words cur).isEmpty = false := by
    rw [isEmpty_eq_false_iff, ← length_pos_iff]
    exact length_words_pos hcur
  rw [add, width] at *
  rw [if_pos h, flush, text_words hcur]
  simp [hbody]

theorem finish_of_fit (cur sent : List CStr) (hne : cur ≠ [] ∨ ws ≠ [])
    (hfit : LinesFit header.length (header.length + (words cur).length) (ws.map width)) :
    ∃ groups : List (List CStr), finish header ⟨false, words cur, sent⟩ ws =
        sent ++ groups.map (lineOf header) ∧ groups.flatten = cur ++ ws ∧
      ∀ g ∈ groups, (lineOf header g).length ≤ IRCD_BUFSIZE - 2 := by
  induction ws generalizing cur sent with
  | nil =>
    have hcur : cur ≠ [] := hne.resolve_right (by simp)
    have hlen := length_lineOf header hcur
    simp only [map_nil, LinesFit] at hfit
    refine ⟨[cur], ?_, by simp, ?_⟩
    · rw [finish, foldl_nil, flush, text_words hcur]
      rfl
    · intro g hg
      obtain rfl := List.mem_singleton.mp hg
      omega
  | cons w ws ih =>
    rw [map_cons, LinesFit] at hfit
    rw [finish_cons]
    split at hfit
    · rename_i hfull
      obtain ⟨hused, hroom, hfit⟩ := hfit
      have hcur : cur ≠ [] := by
        rintro rfl
        simp at hused
      have hlen := length_lineOf header hcur
      rw [add_next hcur sent hfull]
      obtain ⟨groups, hlines, hall, hshort⟩ := ih [w] (sent ++ [lineOf header cur])
        (.inl (by simp)) (by simpa [words, width] using hfit)
      refine ⟨cur :: groups, ?_, ?_, ?_⟩
      · rw [hlines]
        simp
      · rw [flatten_cons, hall]
        simp
      · intro g hg
        rcases List.mem_cons.mp hg with rfl | hg
        · omega
        · exact hshort g hg
    · rename_i hroom
      rw [add_same sent hroom]
      obtain ⟨groups, hlines, hall, hshort⟩ := ih (cur ++ [w]) sent (.inl (by simp)) (by
        rw [words_append, length_append, ← Nat.add_assoc]
        simpa [words, width] using hfit)
      exact ⟨groups, hlines, by rw [hall]; simp, hshort⟩

theorem sent_stays (header : CStr) (b : NamesBuf) (ws : List CStr) :
    b.sent <+: finish header b ws := by
  induction ws generalizing b with
  | nil => exact prefix_append _ _
  | cons w ws ih =>
    rw [finish_cons]
    refine List.IsPrefix.trans ?_ (ih (b.add header w))
    unfold add
    split
    · exact prefix_append _ _
    · exact prefix_refl _

theorem finish_closed (header : CStr) {b : NamesBuf} (h : b.closed = true) (ws : List CStr) :
    ∃ n, finish header b ws = b.sent ++ List.replicate n header.dropLast := by
  have htext : ∀ b : NamesBuf, b.closed = true → b.flush header =
      ⟨true, [], b.sent ++ [header.dropLast]⟩ := by
    intro b hb
    simp [flush, text, hb]
  induction ws generalizing b with
  | nil => exact ⟨1, by rw [finish, foldl_nil, htext b h]; rfl⟩
  | cons w ws ih =>
    rw [finish_cons]
    unfold add
    split
    · rw [htext b h]
      obtain ⟨n, hn⟩ := ih (b := ⟨true, [] ++ w ++ [' '], b.sent ++ [header.dropLast]⟩) rfl
      exact ⟨n + 1, by rw [hn, append_assoc]; rfl⟩
    · exact ih h

theorem namesOn_short : namesOn header header.dropLast = [] := by
  rw [namesOn, drop_eq_nil_of_le (by simp), nickWords_nil]

theorem finish_of_not_fit (cur sent : List CStr) (hne : cur ≠ [] ∨ ws ≠ [])
    (hcur : ∀ w ∈ cur, w ≠ [] ∧ ' ' ∉ w) (hws : ∀ w ∈ ws, w ≠ [] ∧ ' ' ∉ w)
    (hfit : ¬LinesFit header.length (header.length + (words cur).length) (ws.map width)) :
    (∃ line ∈ finish header ⟨false, words cur, sent⟩ ws, IRCD_BUFSIZE - 2 < line.length) ∨
      ((finish header ⟨false, words cur, sent⟩ ws).flatMap (namesOn header)).length <
        (sent.flatMap (namesOn header)).length + (cur ++ ws).length := by
  induction ws generalizing cur sent with
  | nil =>
    have hsome : cur ≠ [] := hne.resolve_right (by simp)
    have hlen := length_lineOf header hsome
    have hbuf : IRCD_BUFSIZE = 512 := rfl
    simp only [map_nil, LinesFit] at hfit
    refine .inl ⟨lineOf header cur, ?_, by omega⟩
    rw [finish, foldl_nil, flush, text_words hsome]
    simp
  | cons w ws ih =>
    rw [map_cons, LinesFit] at hfit
    rw [finish_cons]
    have hw := hws w mem_cons_self
    have hws' : ∀ v ∈ ws, v ≠ [] ∧ ' ' ∉ v := fun v hv => hws v (mem_cons_of_mem _ hv)
    split at hfit
    · rename_i hfull
      by_cases hsome : cur = []
      · -- the header and the word alone are too long: the colon goes, and all that follows
        subst hsome
        have hadd : (⟨false, words [], sent⟩ : NamesBuf).add header w =
            ⟨true, w ++ [' '], sent ++ [header.dropLast]⟩ := by
          rw [add, if_pos (by simpa [width] using hfull)]
          simp [flush, text]
        obtain ⟨n, hn⟩ := finish_closed header
          (b := ⟨true, w ++ [' '], sent ++ [header.dropLast]⟩) rfl ws
        refine .inr ?_
        rw [hadd, hn]
        simp [flatMap_append, namesOn_short]
      · have hlen := length_lineOf header hsome
        have hpos := length_words_pos hsome
        rw [add_next hsome sent hfull]
        by_cases hroom : header.length + (words cur).length < IRCD_BUFSIZE
        · have hrest : ¬LinesFit header.length (header.length + (words [w]).length)
              (ws.map width) := by
            intro hrest
            exact hfit ⟨by omega, hroom, by simpa [words, width] using hrest⟩
          have hstep := ih [w] (sent ++ [lineOf header cur]) (.inl (by simp))
            (by simpa using hw) hws' hrest
          refine hstep.imp_right fun hless => ?_
          rw [flatMap_append, flatMap_singleton, namesOn_lineOf hcur] at hless
          simp only [length_append, length_cons, length_nil] at hless ⊢
          omega
        · have hbuf : IRCD_BUFSIZE = 512 := rfl
          refine .inl ⟨lineOf header cur, ?_, by omega⟩
          apply (sent_stays header ⟨false, words [w], sent ++ [lineOf header cur]⟩ ws).subset
          simp
    · rename_i hroom
      rw [add_same sent hroom]
      have hrest : ¬LinesFit header.length (header.length + (words (cur ++ [w])).length)
          (ws.map width) := by
        rw [words_append, length_append, ← Nat.add_assoc]
        simpa [words, width] using hfit
      have hcur' : ∀ v ∈ cur ++ [w], v ≠ [] ∧ ' ' ∉ v := by
        intro v hv
        rcases List.mem_append.mp hv with hv | hv
        · exact hcur v hv
        · exact List.mem_singleton.mp hv ▸ hw
      have hstep := ih (cur ++ [w]) sent (.inl (by simp)) hcur' hws' hrest
      simpa using hstep

end NamesBuf

theorem channelMemberNames_eq (cl : Clients) (me : CStr) (source : Cid) (chptr : Channel) :
    channelMemberNames cl me source chptr =
      if visibleMembers cl source chptr = [] then []
      else NamesBuf.finish (namesHeader me (cl source).name chptr) ⟨false, words [], []⟩
        (visibleMembers cl source chptr) := by
  unfold channelMemberNames visibleMembers
  dsimp only
  split
  · rfl
  · simp

theorem word_of_mem_visibleMembers {cl : Clients} (source : Cid) {chptr : Channel}
    (hnick : ∀ ms ∈ chptr.members, (cl ms.client).name ≠ [] ∧ ' ' ∉ (cl ms.client).name) :
    ∀ w ∈ visibleMembers cl source chptr, w ≠ [] ∧ ' ' ∉ w := by
  intro w hw
  unfold visibleMembers at hw
  dsimp only at hw
  split at hw
  · obtain ⟨ms, hms, rfl⟩ := List.mem_map.mp hw
    obtain ⟨hne, hblank⟩ := hnick ms (List.mem_filter.mp hms).1
    have hstatus : ' ' ∉ getMemberStatus ms.flags := by
      unfold getMemberStatus
      split_ifs <;> simp
    exact ⟨by simp [hne], by simp [hblank, hstatus]⟩
  · cases hw

/-- Every line of NAMES fits into the bytes that `send_format` keeps, and the names on the lines
as they are sent are those of the visible members, each once and in their order, if and only
if no line is filled up to its last byte. -/
theorem names_complete_iff (cl : Clients) (me : CStr) (source : Cid) (chptr : Channel)
    (hnick : ∀ ms ∈ chptr.members, (cl ms.client).name ≠ [] ∧ ' ' ∉ (cl ms.client).name) :
    ((∀ line ∈ channelMemberNames cl me source chptr, line.length ≤ IRCD_BUFSIZE - 2) ∧
      ((channelMemberNames cl me source chptr).map sendFormat).flatMap
        (namesOn (namesHeader me (cl source).name chptr)) = visibleMembers cl source chptr) ↔
    (visibleMembers cl source chptr ≠ [] →
      LinesFit (namesHeader me (cl source).name chptr).length
        (namesHeader me (cl source).name chptr).length
        ((visibleMembers cl source chptr).map width)) := by
  have hwords := word_of_mem_visibleMembers source hnick
  rw [channelMemberNames_eq]
  generalize namesHeader me (cl source).name chptr = header
  generalize visibleMembers cl source chptr = ws at hwords ⊢
  by_cases hne : ws = []
  · simp [hne]
  · have hkeep : ∀ lines : List CStr, (∀ line ∈ lines, line.length ≤ IRCD_BUFSIZE - 2) →
        lines.map sendFormat = lines := by
      intro lines hshort
      conv_rhs => rw [← map_id lines]
      exact map_congr_left fun line hline => take_of_length_le (hshort line hline)
    rw [if_neg hne]
    constructor
    · rintro ⟨hshort, hall⟩ -
      by_contra hfit
      rcases NamesBuf.finish_of_not_fit [] [] (.inr hne) nofun hwords
        (by simpa using hfit) with ⟨line, hline, hlong⟩ | hless
      · have := hshort line hline
        omega
      · rw [← hkeep _ hshort, hall] at hless
        simp at hless
    · intro hfit
      obtain ⟨groups, hlines, hflat, hshort⟩ := NamesBuf.finish_of_fit [] [] (.inr hne)
        (by simpa using hfit hne)
      rw [nil_append] at hlines hflat
      have hfits : ∀ line ∈ groups.map (NamesBuf.lineOf header),
          line.length ≤ IRCD_BUFSIZE - 2 := by
        intro line hline
        obtain ⟨g, hg, rfl⟩ := List.mem_map.mp hline
        exact hshort g hg
      rw [hlines]
      refine ⟨hfits, ?_⟩
      rw [hkeep _ hfits, flatMap_map, ← hflat, ← flatMap_id]
      refine flatMap_congr fun g hg => ?_
      refine NamesBuf.namesOn_lineOf fun w hw => hwords w ?_
      rw [← hflat]
      exact List.mem_flatten.mpr ⟨g, hg, hw⟩

def nineUsers : Clients := fun c =>
  { (default : Client) with status := .client, name := "member".toList ++ padDigits 3 c }

/-- A channel with `n` operators. -/
def opChannel (n : Nat) : Channel :=
  { Links.twoVoices with members := (List.range n).map fun c => ⟨c + 1, {.chanop}, true⟩ }

theorem nineUsers_nick :
    ∀ c : Nat, c < 46 → (nineUsers c).name ≠ [] ∧ ' ' ∉ (nineUsers c).name := by
  decide +kernel

/-- Two operators are on one line. -/
theorem names_complete_two :
    (∀ line ∈ channelMemberNames nineUsers "irc.eu".toList 0 (opChannel 2),
      line.length ≤ IRCD_BUFSIZE - 2) ∧
    ((channelMemberNames nineUsers "irc.eu".toList 0 (opChannel 2)).map sendFormat).flatMap
      (namesOn (namesHeader "irc.eu".toList (nineUsers 0).name (opChannel 2))) =
    visibleMembers nineUsers 0 (opChannel 2) := by
  refine (names_complete_iff nineUsers "irc.eu".toList 0 (opChannel 2) ?_).mpr fun _ => ?_
  · intro ms hms
    obtain ⟨c, hc, rfl⟩ := List.mem_map.mp hms
    have hlt := List.mem_range.mp hc
    exact nineUsers_nick (c + 1) (by omega)
  · decide +kernel

/-- The names of 44 operators and the header take 512 bytes, and the last nick is cut. -/
theorem names_cut :
    ¬∀ (cl : Clients) (me : CStr) (source : Cid) (chptr : Channel),
      (∀ ms ∈ chptr.members, (cl ms.client).name ≠ [] ∧ ' ' ∉ (cl ms.client).name) →
      (∀ line ∈ channelMemberNames cl me source chptr, line.length ≤ IRCD_BUFSIZE - 2) ∧
        ((channelMemberNames cl me source chptr).map sendFormat).flatMap
          (namesOn (namesHeader me (cl source).name chptr)) = visibleMembers cl source chptr := by
  intro hall
  have hnick : ∀ ms ∈ (opChannel 44).members,
      (nineUsers ms.client).name ≠ [] ∧ ' ' ∉ (nineUsers ms.client).name := by
    intro ms hms
    obtain ⟨c, hc, rfl⟩ := List.mem_map.mp hms
    have hlt := List.mem_range.mp hc
    exact nineUsers_nick (c + 1) (by omega)
  have hshort := (hall nineUsers "irc.eu".toList 0 (opChannel 44) hnick).1
  revert hshort
  decide +kernel

end Ircd
