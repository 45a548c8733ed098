import Ircd.MaskBuffer

/-!
A mask keeps its parts on its way through the network.

`split_nuh` leaves a nick without `!` and a user without `@` (`splitNuh_shape`), so the text
`nick!user@host` that `add_id` and `del_id` write is split at the same two places again. What
the first server makes of a mask is what every server makes of it that is sent the text,
whether it comes as a mode or in a burst (`mask_means_same`).
-/

namespace Ircd

/-! ### The parts of a mask -/

/-- Parts that are neither empty nor over their limits. -/
structure PartsFit (nicklen : Nat) (parts : CStr × CStr × CStr) : Prop where
  name_ne : parts.1 ≠ []
  user_ne : parts.2.1 ≠ []
  host_ne : parts.2.2 ≠ []
  name_length : parts.1.length ≤ nicklen - 1
  user_length : parts.2.1.length ≤ USERLEN
  host_length : parts.2.2.length ≤ HOSTLEN

def partsText (parts : CStr × CStr × CStr) : CStr := nuhText parts.1 parts.2.1 parts.2.2

section

variable {s mask : CStr} {size nicklen : Nat} {c : Char}

theorem maskPart_ne_nil (hsize : 2 ≤ size) : maskPart s size ≠ [] := by
  unfold maskPart
  cases s with
  | nil => simp
  | cons d s =>
    have hpos : size - 1 ≠ 0 := by omega
    simp [strlcpy, hpos]

theorem length_maskPart (hsize : 2 ≤ size) : (maskPart s size).length ≤ size - 1 := by
  unfold maskPart
  split
  · simp only [List.length_singleton]
    omega
  · exact List.length_take_le _ _

theorem notMem_maskPart (hs : c ∉ s) (hstar : c ≠ '*') : c ∉ maskPart s size := fun h =>
  (mem_maskPart h).elim hs hstar

theorem strlcpy_eq_maskPart (h : mask ≠ []) : strlcpy mask size = maskPart mask size := by
  simp [maskPart, h]

theorem splitNuh_shape (nicklen : Nat) (hmask : mask ≠ []) : ∃ nick user host,
    '!' ∉ nick ∧ '@' ∉ user ∧ splitNuh nicklen mask =
      (maskPart nick nicklen, maskPart user (USERLEN + 1), maskPart host (HOSTLEN + 1)) := by
  unfold splitNuh
  split
  · rename_i nick p hbang
    have hnick := (strchr_eq_some hbang).2
    split
    · rename_i user host hat
      exact ⟨nick, user, host, hnick, (strchr_eq_some hat).2, rfl⟩
    · rename_i hat
      exact ⟨nick, p, [], hnick, strchr_eq_none_iff.mp hat, rfl⟩
  · rename_i hbang
    split
    · rename_i user host hat
      exact ⟨[], user, host, List.not_mem_nil, (strchr_eq_some hat).2, rfl⟩
    · rw [strlcpy_eq_maskPart hmask, strlcpy_eq_maskPart hmask]
      split
      · exact ⟨[], [], mask, List.not_mem_nil, List.not_mem_nil, rfl⟩
      · exact ⟨mask, [], [], strchr_eq_none_iff.mp hbang, List.not_mem_nil, rfl⟩

theorem splitNuh_fits (hnick : 2 ≤ nicklen) (hmask : mask ≠ []) :
    PartsFit nicklen (splitNuh nicklen mask) := by
  obtain ⟨nick, user, host, -, -, hsplit⟩ := splitNuh_shape nicklen hmask
  have huser : 2 ≤ USERLEN + 1 := by decide
  have hhost : 2 ≤ HOSTLEN + 1 := by decide
  rw [hsplit]
  exact ⟨maskPart_ne_nil hnick, maskPart_ne_nil huser, maskPart_ne_nil hhost,
    length_maskPart hnick, length_maskPart huser, length_maskPart hhost⟩

theorem splitNuh_partsText (hnick : 2 ≤ nicklen) (hmask : mask ≠ []) :
    splitNuh nicklen (partsText (splitNuh nicklen mask)) = splitNuh nicklen mask := by
  have hfit := splitNuh_fits hnick hmask
  obtain ⟨nick, user, host, hbang, hat, hsplit⟩ := splitNuh_shape nicklen hmask
  rw [hsplit] at hfit ⊢
  have hlength := hfit.name_length
  exact splitNuh_nuhText (notMem_maskPart hbang (by decide)) (notMem_maskPart hat (by decide))
    ⟨hfit.name_ne, by omega⟩ ⟨hfit.user_ne, hfit.user_length⟩ ⟨hfit.host_ne, hfit.host_length⟩

end

/-! ### Blanks -/

section

variable {s mask : CStr} {nicklen : Nat} {c : Char}

theorem space_notMem_checkString (hc : isSpace c = true) : c ∉ checkString s := by
  unfold checkString
  split
  · rw [List.mem_singleton]
    rintro rfl
    exact absurd hc (by decide)
  · intro hmem
    have := List.mem_takeWhile_imp hmem
    simp [hc] at this

theorem checkString_eq_self (hs : s ≠ []) (hspace : ∀ c, isSpace c = true → c ∉ s) :
    checkString s = s := by
  unfold checkString
  rw [if_neg (by simpa using hs), List.takeWhile_eq_self_iff]
  intro c hc
  rw [Bool.not_eq_true']
  exact Bool.eq_false_iff.mpr fun h => hspace c h hc

theorem checkString_ne_nil (hblank : ∀ c ∈ s.head?, isSpace c = false) : checkString s ≠ [] := by
  unfold checkString
  cases s with
  | nil => simp
  | cons c s =>
    have hc : isSpace c = false := hblank c rfl
    simp [hc]

theorem head?_collapse (s : CStr) : (collapse s).head? = s.head? := by
  induction s with
  | nil => rfl
  | cons c p ih =>
    unfold collapse
    split
    · rename_i hstar
      rw [ih, hstar.1, hstar.2]
      rfl
    · rfl

theorem partsText_ne_nil (parts : CStr × CStr × CStr) : partsText parts ≠ [] := by
  simp [partsText, nuhText]

theorem space_notMem_partsText (hc : isSpace c = true) (hmask : c ∉ mask) :
    c ∉ partsText (splitNuh nicklen mask) := by
  intro hmem
  rcases mem_nuhText_splitNuh hmem with h | rfl | rfl | rfl
  · exact hmask h
  · exact absurd hc (by decide)
  · exact absurd hc (by decide)
  · exact absurd hc (by decide)

end

/-! ### From server to server -/

/-- What a server does with a mask that it is given. -/
inductive MaskOp where
  | add (now : Int) (source : Client) (chptr : Channel) (type : BanType)
  | del (chptr : Channel) (type : BanType)

namespace MaskOp

variable (cf : Config) (mask : CStr)

/-- `add_id` or `del_id`. -/
def run : MaskOp → IdResult
  | .add now source chptr type => addId cf now source chptr mask type
  | .del chptr type => delId cf chptr mask type

/-- The mask that `split_nuh` is called with. -/
def given : MaskOp → CStr
  | .add _ source _ _ => addIdMask source mask
  | .del .. => checkString mask

/-- The parts that are looked for in the list, added to it or taken from it. -/
def parts (op : MaskOp) : CStr × CStr × CStr := splitNuh cf.nicklen (op.given mask)

/-- The lists of the channel have room for another mask of this source. -/
def Room : MaskOp → Prop
  | .add _ source chptr _ => ¬(source.myClient = true ∧ cf.channel.maxBans ≤ chptr.numMask)
  | .del .. => True

def Relayed : MaskOp → Prop
  | .add _ source _ _ => source.myClient = false
  | .del .. => True

/-- The text that is left after the servers on the way, each of which writes its own over it. -/
def passOn (route : List MaskOp) : CStr := route.foldl (fun text op => (op.run cf text).banid) mask

variable {cf} {mask} {op : MaskOp}

theorem Relayed.room (h : op.Relayed) : op.Room cf := by
  cases op with
  | add now source chptr type =>
    rintro ⟨hlocal, -⟩
    rw [show source.myClient = false from h] at hlocal
    cases hlocal
  | del => trivial

theorem Relayed.given (h : op.Relayed) : op.given mask = checkString mask := by
  cases op with
  | add now source chptr type =>
    have hremote : source.myClient = false := h
    simp [MaskOp.given, addIdMask, hremote]
  | del => rfl

theorem banid_run (h : op.Room cf) : (op.run cf mask).banid = partsText (op.parts cf mask) := by
  cases op with
  | add now source chptr type =>
    rw [run, banid_addId, addText, if_neg h]
    rfl
  | del => rfl

theorem given_ne_nil (hblank : ∀ c ∈ mask.head?, isSpace c = false) : op.given mask ≠ [] := by
  cases op with
  | add now source chptr type =>
    refine checkString_ne_nil fun c hc => hblank c ?_
    split at hc
    · rwa [head?_collapse] at hc
    · exact hc
  | del => exact checkString_ne_nil hblank

theorem space_notMem_given {c : Char} (hc : isSpace c = true) : c ∉ op.given mask := by
  cases op with
  | add => exact space_notMem_checkString hc
  | del => exact space_notMem_checkString hc

theorem parts_partsText {given : CStr} (hnick : 2 ≤ cf.nicklen) (hgiven : given ≠ [])
    (hspace : ∀ c, isSpace c = true → c ∉ given) (h : op.Relayed) :
    op.parts cf (partsText (splitNuh cf.nicklen given)) = splitNuh cf.nicklen given := by
  rw [parts, h.given, checkString_eq_self (partsText_ne_nil _) fun c hc =>
    space_notMem_partsText hc (hspace c hc)]
  exact splitNuh_partsText hnick hgiven

theorem passOn_partsText {given : CStr} (hnick : 2 ≤ cf.nicklen) (hgiven : given ≠ [])
    (hspace : ∀ c, isSpace c = true → c ∉ given) (route : List MaskOp)
    (hroute : ∀ op ∈ route, op.Relayed) :
    passOn cf (partsText (splitNuh cf.nicklen given)) route =
      partsText (splitNuh cf.nicklen given) := by
  induction route with
  | nil => rfl
  | cons op route ih =>
    have hop := hroute op List.mem_cons_self
    rw [passOn, List.foldl_cons, banid_run hop.room, parts_partsText hnick hgiven hspace hop]
    exact ih fun op' hop' => hroute op' (List.mem_cons_of_mem _ hop')

end MaskOp

/-- Every mask is split into parts that are not empty and within their limits, and their text
into the same parts. A server that a mask is relayed to, over any others, takes it for the parts
that the first server found in it; and so does one that gets it from the first server's list. -/
theorem mask_means_same {cf : Config} {mask : CStr} (hnick : 2 ≤ cf.nicklen) (hmask : mask ≠ []) :
    (PartsFit cf.nicklen (splitNuh cf.nicklen mask) ∧
      splitNuh cf.nicklen (partsText (splitNuh cf.nicklen mask)) = splitNuh cf.nicklen mask) ∧
    ((∀ c ∈ mask.head?, isSpace c = false) →
      ∀ route, (∀ op ∈ route, op.Relayed) → ∀ last : MaskOp, last.Relayed →
        (∀ first : MaskOp, first.Room cf → PartsFit cf.nicklen (first.parts cf mask) ∧
          last.parts cf (MaskOp.passOn cf (first.run cf mask).banid route) =
            first.parts cf mask) ∧
        ∀ now source chptr type, (addId cf now source chptr mask type).ok = true →
          ∃ bp, (addId cf now source chptr mask type).chptr.list type = bp :: chptr.list type ∧
            last.parts cf (MaskOp.passOn cf (nuhText bp.name bp.username bp.host) route) =
              (bp.name, bp.username, bp.host)) := by
  refine ⟨⟨splitNuh_fits hnick hmask, splitNuh_partsText hnick hmask⟩, ?_⟩
  intro hblank route hroute last hlast
  have hsame : ∀ first : MaskOp,
      last.parts cf (MaskOp.passOn cf (partsText (first.parts cf mask)) route) =
        first.parts cf mask := by
    intro first
    have hgiven : first.given mask ≠ [] := MaskOp.given_ne_nil hblank
    have hspace : ∀ c, isSpace c = true → c ∉ first.given mask :=
      fun c hc => MaskOp.space_notMem_given hc
    have htext := MaskOp.passOn_partsText hnick hgiven hspace route hroute
    have hparts : last.parts cf (partsText (first.parts cf mask)) = first.parts cf mask :=
      MaskOp.parts_partsText hnick hgiven hspace hlast
    rw [← MaskOp.parts] at htext
    rw [htext, hparts]
  constructor
  · intro first hroom
    refine ⟨splitNuh_fits hnick (MaskOp.given_ne_nil hblank), ?_⟩
    rw [MaskOp.banid_run hroom]
    exact hsame first
  · intro now source chptr type hok
    obtain ⟨bp, hlist, hparts⟩ := addId_ok hok
    have hbp := hsame (.add now source chptr type)
    rw [show (MaskOp.add now source chptr type).parts cf mask = _ from hparts.symm] at hbp
    exact ⟨bp, hlist, hbp⟩

def roomConfig : Config :=
  { plainConfig with channel := { plainConfig.channel with maxBans := 25 } }

def userBans : MaskOp :=
  .add 0 { (default : Client) with status := .client, localClient := some ⟨0, 0⟩ } default .ban

def serverUnbans : MaskOp := .del default .ban

theorem mask_means_same_twice :
    serverUnbans.parts roomConfig (MaskOp.passOn roomConfig
      (userBans.run roomConfig "a!b!c@d@e".toList).banid [serverUnbans]) =
        userBans.parts roomConfig "a!b!c@d@e".toList ∧
      userBans.parts roomConfig "a!b!c@d@e".toList =
        ("a".toList, "b!c".toList, "d@e".toList) := by
  have hmeans := (@mask_means_same roomConfig "a!b!c@d@e".toList (by decide) (by decide)).2
    (fun c hc => by cases hc; rfl) [serverUnbans] (List.forall_mem_singleton.mpr trivial) serverUnbans trivial
  exact ⟨(hmeans.1 userBans fun h => absurd h.2 (by decide)).2, by decide⟩

end Ircd
