import Ircd.ModeAlign

/-!
The lines that `send_mode_changes` and `send_cap_mode_changes` cut a list of changes into.

Both fill a line letter by letter until their test for room fails. The test counts neither the
sign nor the letter nor the blanks that come with a parameter, so that a line of many letters may
get longer than what `send_format` keeps. The lists that `set_channel_mode` builds have too few
letters without a parameter for that (`mode_lines_whole`).
-/

namespace Ircd

open List

/-! ### The lines for local members -/

/-- An entry of `mode_changes` whose parameter is a text. -/
structure ShownChange extends ChModeChange where
  mems : Mems := .allMembers
  deriving DecidableEq, Repr

/-- Who a change comes from: whether it is a server and whether that one is hidden, the name of
this server, the names of the source within the sizes of `struct Client`, and the channel. -/
structure ModeSource where
  server : Bool
  hidden : Bool
  me : CStr
  name : CStr
  username : CStr
  host : CStr
  id : CStr
  chname : CStr
  channelts : Int
  meLen : me.length ≤ HOSTLEN
  nameLen : name.length ≤ HOSTLEN
  userLen : username.length ≤ USERLEN
  hostLen : host.length ≤ HOSTLEN
  idLen : id.length ≤ IDLEN
  chLen : chname.length ≤ CHANNELLEN

/-- A letter with its sign and its parameter is put into the buffers. -/
def CapLoop.add (st : CapLoop) (c : LetterChange CStr) : CapLoop :=
  let sign : CStr := if st.dir = c.dir then [] else [if c.dir = .add then '+' else '-']
  { st with
    modebuf := st.modebuf ++ sign ++ [c.letter]
    dir := c.dir
    nc := st.nc + 1
    parabuf := match c.param with | none => st.parabuf | some arg => st.parabuf ++ arg ++ [' ']
    mc := if c.param.isSome then st.mc + 1 else st.mc }

namespace ModeSource

variable (src : ModeSource)

/-- What `modebuf` of `send_mode_changes` holds before the first change. -/
def firstHeader : CStr :=
  if src.server then
    ':' :: (if src.hidden then src.me else src.name) ++ " MODE ".toList ++ src.chname ++ [' ']
  else ':' :: nuhText src.name src.username src.host ++ " MODE ".toList ++ src.chname ++ [' ']

/-- What it holds after a line was sent. -/
def nextHeader : CStr :=
  if src.server then ':' :: src.me ++ " MODE ".toList ++ src.chname ++ [' ']
  else ':' :: nuhText src.name src.username src.host ++ " MODE ".toList ++ src.chname ++ [' ']

def skips (c : ShownChange) : Bool :=
  c.letter == '\x00' || c.mems == .nonChanops || c.mems == .onlyServers

/-- The line is sent, without a `-` at the end of its letters, and the next one begun. -/
def flush (st : CapLoop) : CapLoop where
  modebuf := src.nextHeader
  sent :=
    let modebuf := if st.modebuf.getLast? = some '-' then st.modebuf.dropLast else st.modebuf
    if st.nc ≠ 0 then st.sent ++ [modebuf ++ ' ' :: st.parabuf] else st.sent

/-- The body of the first loop of `send_mode_changes`. -/
def step (st : CapLoop) (c : ShownChange) : CapLoop :=
  if skips c then st
  else if st.full ((c.arg.getD []).length) then (src.flush st).add ⟨c.dir, c.letter, c.arg⟩
  else st.add ⟨c.dir, c.letter, c.arg⟩

/-- What `send_cap_mode_changes` is called with for a combination of capabilities. -/
def capSend (cap nocap : Nat) : CapSend where
  id := src.id
  name := src.name
  chname := src.chname
  channelts := src.channelts
  cap := cap
  nocap := nocap

/-- `send_mode_changes`: the lines for local members, and those for the servers with each
combination of capabilities that there is. -/
def sendModeChanges (combos : List (Nat × Nat)) (changes : List ShownChange) :
    List CStr × List (List CStr) :=
  if changes.isEmpty then ([], combos.map fun _ => [])
  else
    ((changes.foldl src.step { modebuf := src.firstHeader }).finish,
      combos.map fun (cap, nocap) =>
        sendCapModeChanges (src.capSend cap nocap) (changes.map ShownChange.toChModeChange))

end ModeSource

/-! ### Cutting a list of letters into lines -/

/-- A line with some letters behind its header, and their parameters with a blank behind each of
them, or between them. -/
def CarriesLetters (header : CStr) (group : List (LetterChange CStr)) (line : CStr) : Prop :=
  line = header ++ writeChanges .query group ++ ' ' :: words (paramsOf group) ∨
    line ++ [' '] = header ++ writeChanges .query group ++ ' ' :: words (paramsOf group)

/-- The lines carry the changes, each of them once and in their order, and are within the 510
bytes that `send_format` keeps. -/
def WholeLines (first next : CStr) (changes : List (LetterChange CStr)) (lines : List CStr) :
    Prop :=
  ∃ groups : List (List (LetterChange CStr)), groups.flatten = changes ∧
    List.Forall₂ (fun group line => group ≠ [] ∧ line.length ≤ IRCD_BUFSIZE - 2 ∧
      ∃ header ∈ [first, next], CarriesLetters header group line) groups lines

/-- A change that the loops can write: with a direction, a letter that is no sign, and a parameter
that fits between the others. -/
structure LetterChange.Writable (c : LetterChange CStr) : Prop where
  dir : c.dir ≠ .query
  letter : signDir c.letter = none
  param : ∀ arg ∈ c.param, arg.length + BAN_FUDGE < MODEBUFLEN

namespace CapLoop

/-- A loop that sends what it has before a letter that has no room. -/
def next (flush : CapLoop → CapLoop) (st : CapLoop) (c : LetterChange CStr) : CapLoop :=
  if st.full ((c.param.getD []).length) then (flush st).add c else st.add c

/-- A line of letters that had room. -/
structure Fitted (first next : CStr) (group : List (LetterChange CStr)) (line : CStr) : Prop where
  ne : group ≠ []
  few : (paramsOf group).length ≤ MAXMODEPARAMS
  short : (words (paramsOf group)).length + BAN_FUDGE ≤ MODEBUFLEN
  carries : ∃ header ∈ [first, next], CarriesLetters header group line

/-- The buffers hold some letters behind a header. -/
structure Buffers (first next : CStr) (group : List (LetterChange CStr)) (st : CapLoop) : Prop where
  modebuf : ∃ header ∈ [first, next], st.modebuf = header ++ writeChanges .query group
  parabuf : st.parabuf = words (paramsOf group)
  nc : st.nc = group.length
  dir : st.dir = group.foldl (fun _ c => c.dir) .query

/-- The buffers hold the letters since the last line that was sent. -/
structure Holds (first next : CStr) (groups : List (List (LetterChange CStr)))
    (group : List (LetterChange CStr)) (st : CapLoop) : Prop where
  sent : List.Forall₂ (Fitted first next) groups st.sent
  modebuf : ∃ header ∈ [first, next], st.modebuf = header ++ writeChanges .query group
  parabuf : st.parabuf = words (paramsOf group)
  nc : st.nc = group.length
  mc : st.mc = (paramsOf group).length
  dir : st.dir = group.foldl (fun _ c => c.dir) .query
  few : (paramsOf group).length ≤ MAXMODEPARAMS
  short : (words (paramsOf group)).length + BAN_FUDGE ≤ MODEBUFLEN

variable {first next : CStr} {groups : List (List (LetterChange CStr))}
  {group : List (LetterChange CStr)} {st : CapLoop} {c : LetterChange CStr}

theorem holds_start : Holds first next [] [] { modebuf := first } where
  sent := .nil
  modebuf := ⟨first, by simp, (append_nil first).symm⟩
  parabuf := rfl
  nc := rfl
  mc := rfl
  dir := rfl
  few := Nat.zero_le _
  short := by decide

theorem full_eq_false (arglen : Nat) : st.full arglen = false ↔ st.mc ≠ MAXMODEPARAMS ∧
    arglen + st.modebuf.length + st.parabuf.length + 2 ≤ IRCD_BUFSIZE ∧
      st.parabuf.length + arglen + BAN_FUDGE < MODEBUFLEN := by
  simp [full, and_assoc]

theorem paramsOf_singleton (c : LetterChange CStr) : paramsOf [c] = c.param.toList := by
  cases h : c.param <;> simp [paramsOf, h]

theorem Buffers.add (h : Buffers first next group st) (hdir : c.dir ≠ .query) :
    Buffers first next (group ++ [c]) (st.add c) := by
  obtain ⟨header, hheader, hbuf⟩ := h.modebuf
  have hsign : (if c.dir = .add then '+' else '-') = c.dir.sign := by
    cases hc : c.dir with
    | query => exact absurd hc hdir
    | add => rfl
    | del => rfl
  constructor
  · refine ⟨header, hheader, ?_⟩
    rw [CapLoop.add, hbuf, h.dir, hsign, writeChanges_append]
    simp [writeChanges]
  · rw [paramsOf_append, words_append, paramsOf_singleton, CapLoop.add, h.parabuf]
    cases c.param <;> simp
  · simp [CapLoop.add, h.nc]
  · simp [CapLoop.add]

theorem Holds.add (h : Holds first next groups group st) (hc : c.Writable)
    (hroom : st.full ((c.param.getD []).length) = false) :
    Holds first next groups (group ++ [c]) (st.add c) := by
  obtain ⟨hmc, -, hpara⟩ := (full_eq_false _).mp hroom
  have hbuffers : Buffers first next group st := ⟨h.modebuf, h.parabuf, h.nc, h.dir⟩
  have hadded := hbuffers.add hc.dir
  rw [h.mc] at hmc
  rw [h.parabuf] at hpara
  have hfew := h.few
  constructor
  · exact h.sent
  · exact hadded.modebuf
  · exact hadded.parabuf
  · exact hadded.nc
  · rw [paramsOf_append, paramsOf_singleton, length_append, CapLoop.add, h.mc]
    cases c.param <;> simp
  · exact hadded.dir
  · rw [paramsOf_append, paramsOf_singleton, length_append]
    have hone : c.param.toList.length ≤ 1 := by cases c.param <;> simp
    omega
  · rw [paramsOf_append, words_append, paramsOf_singleton, length_append]
    cases hparam : c.param with
    | none => simpa using h.short
    | some arg =>
      rw [hparam] at hpara
      simp only [Option.getD_some, Option.toList_some, words_cons, words_nil,
        length_append, length_cons, length_nil] at hpara ⊢
      omega

/-- A flush sends what the buffers hold. -/
def Flushes (next : CStr) (flush : CapLoop → CapLoop) : Prop :=
  ∀ st : CapLoop, st.modebuf.getLast? ≠ some '-' → flush st =
    { modebuf := next
      sent := if st.nc ≠ 0 then st.sent ++ [st.modebuf ++ ' ' :: st.parabuf] else st.sent }

theorem getLast?_writeChanges {header : CStr} (hheader : header.getLast? ≠ some '-')
    (hgroup : ∀ c ∈ group, signDir c.letter = none) :
    (header ++ writeChanges .query group).getLast? ≠ some '-' := by
  cases hlast : group.getLast? with
  | none =>
    rw [List.getLast?_eq_none_iff.mp hlast]
    simpa [writeChanges] using hheader
  | some c =>
    obtain ⟨init, rfl⟩ := List.getLast?_eq_some_iff.mp hlast
    have hletter := hgroup c (by simp)
    rw [writeChanges_append]
    simp only [writeChanges, getLast?_append, getLast?_singleton, Option.some_or, ne_eq,
      Option.some.injEq]
    intro hdash
    rw [hdash] at hletter
    cases hletter

theorem Holds.flushed {flush : CapLoop → CapLoop} (hflush : Flushes next flush)
    (hheader : ∀ header ∈ [first, next], header.getLast? ≠ some '-')
    (hgroup : ∀ c ∈ group, c.Writable) (hne : group ≠ [])
    (h : Holds first next groups group st) : Holds first next (groups ++ [group]) []
      (flush st) := by
  obtain ⟨header, hmem, hbuf⟩ := h.modebuf
  have hend : st.modebuf.getLast? ≠ some '-' := by
    rw [hbuf]
    exact getLast?_writeChanges (hheader header hmem) fun c hc => (hgroup c hc).letter
  have hnc : st.nc ≠ 0 := by
    rw [h.nc]
    exact fun h0 => hne (List.length_eq_zero_iff.mp h0)
  rw [hflush st hend, if_pos hnc]
  constructor
  · have hfitted : Fitted first next group (st.modebuf ++ ' ' :: st.parabuf) :=
      ⟨hne, h.few, h.short, header, hmem, .inl (by rw [hbuf, h.parabuf])⟩
    exact rel_append h.sent (.cons hfitted .nil)
  · exact ⟨next, by simp, (append_nil next).symm⟩
  · rfl
  · rfl
  · rfl
  · rfl
  · exact Nat.zero_le _
  · decide

theorem Holds.room (hlen : ∀ header ∈ [first, next], header.length ≤ 196)
    (h : Holds first next groups [] st) (hc : c.Writable) :
    st.full ((c.param.getD []).length) = false := by
  obtain ⟨header, hmem, hbuf⟩ := h.modebuf
  have hheader := hlen header hmem
  have hmode : st.modebuf.length = header.length := by
    rw [hbuf]
    simp [writeChanges]
  have hmc : st.mc = 0 := h.mc
  have hpara : st.parabuf.length = 0 := by
    rw [h.parabuf]
    rfl
  have harg : (c.param.getD []).length + BAN_FUDGE < MODEBUFLEN := by
    cases hparam : c.param with
    | none => decide
    | some arg => exact hc.param arg (by rw [hparam]; rfl)
  have hbuf : IRCD_BUFSIZE = 512 := rfl
  have hmax : MODEBUFLEN = 200 := rfl
  have hparams : MAXMODEPARAMS = 4 := rfl
  rw [full_eq_false]
  omega

theorem Holds.letter {flush : CapLoop → CapLoop} (hflush : Flushes next flush)
    (hheader : ∀ header ∈ [first, next], header.getLast? ≠ some '-')
    (hlen : ∀ header ∈ [first, next], header.length ≤ 196)
    (hgroup : ∀ c ∈ group, c.Writable) (h : Holds first next groups group st)
    (hc : c.Writable) : ∃ groups' group', Holds first next groups' group' (st.next flush c) ∧
      groups'.flatten ++ group' = groups.flatten ++ group ++ [c] ∧ ∀ d ∈ group', d.Writable := by
  have hmore : ∀ d ∈ group ++ [c], d.Writable := by
    intro d hd
    rcases List.mem_append.mp hd with hd | hd
    · exact hgroup d hd
    · exact List.mem_singleton.mp hd ▸ hc
  unfold CapLoop.next
  cases hfull : st.full ((c.param.getD []).length) with
  | false =>
    refine ⟨groups, group ++ [c], h.add hc hfull, ?_, hmore⟩
    rw [append_assoc]
  | true =>
    have hne : group ≠ [] := by
      rintro rfl
      rw [h.room hlen hc] at hfull
      cases hfull
    have hflushed := h.flushed hflush hheader hgroup hne
    have hadd := hflushed.add hc (hflushed.room hlen hc)
    refine ⟨groups ++ [group], [c], hadd, ?_, ?_⟩
    · rw [flatten_append, flatten_singleton]
    · exact fun d hd => List.mem_singleton.mp hd ▸ hc

theorem Holds.foldl {flush : CapLoop → CapLoop} (hflush : Flushes next flush)
    (hheader : ∀ header ∈ [first, next], header.getLast? ≠ some '-')
    (hlen : ∀ header ∈ [first, next], header.length ≤ 196)
    (hgroup : ∀ c ∈ group, c.Writable) (h : Holds first next groups group st)
    {cs : List (LetterChange CStr)} (hcs : ∀ c ∈ cs, c.Writable) :
    ∃ groups' group', Holds first next groups' group' (cs.foldl (CapLoop.next flush) st) ∧
      groups'.flatten ++ group' = groups.flatten ++ group ++ cs := by
  induction cs generalizing groups group st with
  | nil => exact ⟨groups, group, h, (append_nil _).symm⟩
  | cons c cs ih =>
    obtain ⟨groups', group', hnext, heq, hgroup'⟩ :=
      h.letter hflush hheader hlen hgroup (hcs c (by simp))
    obtain ⟨groups'', group'', hlast, heq'⟩ :=
      ih hgroup' hnext fun d hd => hcs d (mem_cons_of_mem _ hd)
    refine ⟨groups'', group'', hlast, ?_⟩
    rw [heq', heq, append_assoc, singleton_append]

theorem Holds.finish (h : Holds first next groups group st) :
    ∃ groups', groups'.flatten = groups.flatten ++ group ∧
      List.Forall₂ (Fitted first next) groups' st.finish := by
  by_cases hne : group = []
  · subst hne
    have hnc : st.nc = 0 := h.nc
    refine ⟨groups, (append_nil _).symm, ?_⟩
    rw [CapLoop.finish, if_neg (not_not_intro hnc)]
    exact h.sent
  · have hnc : st.nc ≠ 0 := by
      rw [h.nc]
      exact fun h0 => hne (List.length_eq_zero_iff.mp h0)
    obtain ⟨header, hmem, hbuf⟩ := h.modebuf
    refine ⟨groups ++ [group], by rw [flatten_append, flatten_singleton], ?_⟩
    rw [CapLoop.finish, if_pos hnc]
    refine rel_append h.sent (.cons ⟨hne, h.few, h.short, header, hmem, ?_⟩ .nil)
    rw [hbuf, CarriesLetters, ← h.parabuf]
    split
    · rename_i hblank
      obtain ⟨init, hinit⟩ := List.getLast?_eq_some_iff.mp hblank
      right
      rw [hinit, dropLast_concat]
      simp
    · exact .inl rfl

theorem length_writeChanges_le (dir : ModeDir) (cs : List (LetterChange CStr)) :
    (writeChanges dir cs).length ≤ 2 * cs.length := by
  induction cs generalizing dir with
  | nil => exact Nat.le_refl _
  | cons c cs ih =>
    have htail := ih c.dir
    rw [writeChanges, length_append, length_cons, length_cons]
    split <;> simp <;> omega

def bare (cs : List (LetterChange CStr)) : Nat := cs.countP fun c => c.param.isNone

theorem length_eq_bare (cs : List (LetterChange CStr)) :
    cs.length = (paramsOf cs).length + bare cs := by
  induction cs with
  | nil => rfl
  | cons c cs ih =>
    cases hparam : c.param with
    | none => simp [paramsOf, bare, hparam] at ih ⊢; omega
    | some arg => simp [paramsOf, bare, hparam] at ih ⊢; omega

theorem Fitted.length_le {line : CStr} (h : Fitted first next group line)
    (hlen : ∀ header ∈ [first, next], header.length ≤ 196) (hbare : bare group ≤ 57) :
    line.length ≤ IRCD_BUFSIZE - 2 := by
  obtain ⟨header, hmem, hcarries⟩ := h.carries
  have hheader := hlen header hmem
  have hletters := length_writeChanges_le .query group
  have hcount := length_eq_bare group
  have hfew := h.few
  have hshort := h.short
  have hline : line.length ≤ header.length + (writeChanges .query group).length +
      ((words (paramsOf group)).length + 1) := by
    rcases hcarries with rfl | heq
    · simp only [length_append, length_cons]
      omega
    · have hle := congrArg List.length heq
      simp only [length_append, length_cons, length_nil] at hle
      omega
  have hbuf : IRCD_BUFSIZE = 512 := rfl
  have hmax : MODEBUFLEN = 200 := rfl
  have hparams : MAXMODEPARAMS = 4 := rfl
  have hfudge : BAN_FUDGE = 10 := rfl
  omega

theorem bare_le_flatten (hmem : group ∈ groups) : bare group ≤ bare groups.flatten :=
  (sublist_flatten_of_mem hmem).countP_le

theorem wholeLines_run {flush : CapLoop → CapLoop} (hflush : Flushes next flush)
    (hheader : ∀ header ∈ [first, next], header.getLast? ≠ some '-')
    (hlen : ∀ header ∈ [first, next], header.length ≤ 196) {cs : List (LetterChange CStr)}
    (hcs : ∀ c ∈ cs, c.Writable) (hbare : bare cs ≤ 57) :
    WholeLines first next cs (cs.foldl (CapLoop.next flush) { modebuf := first }).finish := by
  obtain ⟨groups, group, hholds, heq⟩ :=
    holds_start.foldl hflush hheader hlen (fun c hc => absurd hc not_mem_nil) hcs
  obtain ⟨groups', hflat, hlines⟩ := hholds.finish
  have hall : groups'.flatten = cs := by
    rw [hflat, heq]
    rfl
  refine ⟨groups', hall, ?_⟩
  have hfew : ∀ group ∈ groups', bare group ≤ 57 := by
    intro group hmem
    have hle := bare_le_flatten hmem
    rw [hall] at hle
    exact hle.trans hbare
  refine (List.forall₂_and_left groups' _ |>.mpr ⟨hfew, hlines⟩).imp ?_
  rintro group line ⟨hbare', hfitted⟩
  exact ⟨hfitted.ne, hfitted.length_le hlen hbare', hfitted.carries⟩

end CapLoop

/-! ### The two functions -/

/-- The list of changes as it is sent: with directions, letters that are no signs, parameters and
ids that fit between others, and at most 57 changes without a parameter. -/
structure Sendable (changes : List ShownChange) : Prop where
  dir : ∀ c ∈ changes, c.dir ≠ .query
  letter : ∀ c ∈ changes, signDir c.letter = none
  param : ∀ c ∈ changes, ∀ arg, c.arg = some arg ∨ c.id = some arg →
    arg.length + BAN_FUDGE < MODEBUFLEN
  few : changes.countP (fun c => c.arg.isNone) ≤ 57

/-- The changes that are meant for some receivers, with the parameters that they are sent. -/
def CapSend.letters (env : CapSend) (changes : List ChModeChange) : List (LetterChange CStr) :=
  (changes.filter fun c => !env.skips c).map fun c => ⟨c.dir, c.letter, env.argOf c⟩

theorem argOf_isNone {env : CapSend} {c : ChModeChange} (h : (env.argOf c).isNone = true) :
    c.arg.isNone = true := by
  unfold CapSend.argOf at h
  dsimp only at h
  generalize (if env.cap &&& CAP_TS6 ≠ 0 then c.id.getD [] else []) = arg at h
  split at h
  · exact h
  · cases h

theorem mem_argOf {env : CapSend} {c : ChModeChange} {arg : CStr} (h : env.argOf c = some arg) :
    c.arg = some arg ∨ c.id = some arg := by
  unfold CapSend.argOf at h
  by_cases hts6 : env.cap &&& CAP_TS6 ≠ 0
  · simp only [if_pos hts6] at h
    split at h
    · exact .inl h
    · rename_i hne
      cases hid : c.id with
      | none => simp [hid] at hne
      | some id => exact .inr (by simpa [hid] using h)
  · simp only [if_neg hts6] at h
    exact .inl h

namespace CapSend

variable {env : CapSend}

theorem flushes_flush : CapLoop.Flushes env.nextHeader (CapLoop.flush env) := fun _ _ => rfl

theorem foldl_step (changes : List ChModeChange) (st : CapLoop) :
    changes.foldl (CapLoop.step env) st =
      (env.letters changes).foldl (CapLoop.next (CapLoop.flush env)) st := by
  induction changes generalizing st with
  | nil => rfl
  | cons c changes ih =>
    rw [foldl_cons, ih]
    unfold CapLoop.step letters
    cases hskip : env.skips c with
    | true => simp [hskip]
    | false =>
      simp only [hskip, Bool.not_false, filter_cons_of_pos, map_cons,
        foldl_cons, Bool.false_eq_true, if_false]
      rfl

theorem bare_letters_le (changes : List ChModeChange) :
    CapLoop.bare (env.letters changes) ≤ changes.countP fun c => c.arg.isNone := by
  induction changes with
  | nil => exact Nat.le_refl _
  | cons c changes ih =>
    unfold letters CapLoop.bare at ih ⊢
    rw [countP_cons]
    cases hskip : env.skips c with
    | true =>
      simp only [hskip, Bool.not_true, Bool.false_eq_true, not_false_eq_true,
        filter_cons_of_neg]
      omega
    | false =>
      simp only [hskip, Bool.not_false, filter_cons_of_pos, map_cons,
        countP_cons]
      cases hnone : (env.argOf c).isNone with
      | true =>
        simp only [argOf_isNone hnone, if_true]
        omega
      | false =>
        simp only [Bool.false_eq_true, if_false]
        omega

end CapSend

namespace ModeSource

variable (src : ModeSource)

/-- The changes that are shown to the members. -/
def letters (changes : List ShownChange) : List (LetterChange CStr) :=
  (changes.filter fun c => !skips c).map fun c => ⟨c.dir, c.letter, c.arg⟩

variable {src} {changes : List ShownChange} {cap nocap : Nat}

theorem flushes_flush : CapLoop.Flushes src.nextHeader src.flush := by
  intro st hdash
  unfold flush
  simp only [if_neg hdash]

theorem foldl_step (changes : List ShownChange) (st : CapLoop) :
    changes.foldl src.step st = (letters changes).foldl (CapLoop.next src.flush) st := by
  induction changes generalizing st with
  | nil => rfl
  | cons c changes ih =>
    rw [foldl_cons, ih]
    unfold step letters
    cases hskip : skips c with
    | true => simp [hskip]
    | false =>
      simp only [hskip, Bool.not_false, filter_cons_of_pos, map_cons,
        foldl_cons, Bool.false_eq_true, if_false]
      rfl

theorem bare_letters_le (changes : List ShownChange) :
    CapLoop.bare (letters changes) ≤ changes.countP fun c => c.arg.isNone := by
  unfold letters CapLoop.bare
  rw [countP_map]
  exact List.filter_sublist.countP_le

theorem blank_header (text : CStr) {n : Nat} (hlen : text.length < n) :
    (text ++ [' ']).length ≤ n ∧ (text ++ [' ']).getLast? ≠ some '-' := by
  refine ⟨by simpa using Nat.succ_le_of_lt hlen, ?_⟩
  rw [getLast?_concat]
  decide

theorem header_local {header : CStr} (h : header ∈ [src.firstHeader, src.nextHeader]) :
    header.length ≤ 196 ∧ header.getLast? ≠ some '-' := by
  have hme := src.meLen
  have hname := src.nameLen
  have huser := src.userLen
  have hhost := src.hostLen
  have hch := src.chLen
  have hconst : HOSTLEN = 63 ∧ USERLEN = 10 ∧ CHANNELLEN = 50 := ⟨rfl, rfl, rfl⟩
  have hmode : " MODE ".toList.length = 6 := rfl
  simp only [mem_cons, not_mem_nil, or_false, firstHeader, nextHeader] at h
  have huserHeader : (':' :: nuhText src.name src.username src.host ++ " MODE ".toList ++
      src.chname).length < 196 := by
    simp only [nuhText, length_append, length_cons]
    omega
  have hserver : ∀ name : CStr, name.length ≤ HOSTLEN →
      (':' :: name ++ " MODE ".toList ++ src.chname).length < 196 := by
    intro name hle
    simp only [length_append, length_cons]
    omega
  rcases h with rfl | rfl
  · split
    · refine blank_header _ (hserver _ ?_)
      split
      · exact hme
      · exact hname
    · exact blank_header _ huserHeader
  · split
    · exact blank_header _ (hserver _ hme)
    · exact blank_header _ huserHeader

theorem header_cap {header : CStr} (h : header ∈ [(src.capSend cap nocap).firstHeader,
    (src.capSend cap nocap).nextHeader]) :
    header.length ≤ 196 ∧ header.getLast? ≠ some '-' := by
  have hname := src.nameLen
  have hid := src.idLen
  have hch := src.chLen
  have hlu := length_luText_le (toULong src.channelts)
  have hconst : HOSTLEN = 63 ∧ IDLEN = 12 ∧ CHANNELLEN = 50 := ⟨rfl, rfl, rfl⟩
  have hmode : " MODE ".toList.length = 6 := rfl
  have htmode : " TMODE ".toList.length = 7 := rfl
  have hplain : ∀ name : CStr, name.length ≤ HOSTLEN →
      (':' :: name ++ " MODE ".toList ++ src.chname).length < 196 := by
    intro name hle
    simp only [length_append, length_cons]
    omega
  have hstamp : (':' :: src.id ++ " TMODE ".toList ++ luText (toULong src.channelts) ++
      ' ' :: src.chname).length < 196 := by
    simp only [length_append, length_cons]
    omega
  simp only [mem_cons, not_mem_nil, or_false] at h
  cases hby : (src.capSend cap nocap).byId with
  | true =>
    rcases h with rfl | rfl
    · rw [CapSend.firstHeader, if_pos hby]
      exact blank_header _ hstamp
    · rw [CapSend.nextHeader, if_pos hby]
      exact blank_header _ (hplain src.id (by omega))
  | false =>
    have hnot : ¬(src.capSend cap nocap).byId = true := by simp [hby]
    rcases h with rfl | rfl
    · rw [CapSend.firstHeader, if_neg hnot]
      exact blank_header _ (hplain src.name hname)
    · rw [CapSend.nextHeader, if_neg hnot]
      exact blank_header _ (hplain src.name hname)

theorem wholeLines_local (h : Sendable changes) :
    WholeLines src.firstHeader src.nextHeader (letters changes)
      (changes.foldl src.step { modebuf := src.firstHeader }).finish := by
  rw [foldl_step]
  refine CapLoop.wholeLines_run flushes_flush (fun header hmem => (header_local hmem).2)
    (fun header hmem => (header_local hmem).1) ?_ ((bare_letters_le changes).trans h.few)
  intro c hc
  obtain ⟨d, hd, rfl⟩ := List.mem_map.mp hc
  have hmem := (List.mem_filter.mp hd).1
  exact ⟨h.dir d hmem, h.letter d hmem, fun arg harg => h.param d hmem arg (.inl harg)⟩

theorem wholeLines_cap (h : Sendable changes) :
    WholeLines (src.capSend cap nocap).firstHeader (src.capSend cap nocap).nextHeader
      ((src.capSend cap nocap).letters (changes.map ShownChange.toChModeChange))
      (sendCapModeChanges (src.capSend cap nocap) (changes.map ShownChange.toChModeChange)) := by
  unfold sendCapModeChanges
  rw [CapSend.foldl_step]
  have hfew : (changes.map ShownChange.toChModeChange).countP (fun c => c.arg.isNone) ≤ 57 := by
    rw [countP_map]
    exact h.few
  refine CapLoop.wholeLines_run CapSend.flushes_flush (fun header hmem => (header_cap hmem).2)
    (fun header hmem => (header_cap hmem).1) ?_ ((CapSend.bare_letters_le _).trans hfew)
  intro c hc
  obtain ⟨d, hd, rfl⟩ := List.mem_map.mp hc
  obtain ⟨e, he, rfl⟩ := List.mem_map.mp (List.mem_filter.mp hd).1
  exact ⟨h.dir e he, h.letter e he, fun arg harg => h.param e he arg (mem_argOf harg)⟩

end ModeSource

/-! ### The lists that `set_channel_mode` builds -/

/-- An entry of `mode_changes` when it is sent, with its parameter read from the line. -/
def ModeChange.shown (read : Nat → CStr) (key : CStr) (c : ModeChange) : ShownChange where
  letter := c.letter
  dir := c.dir
  arg :=
    match c.arg with
    | .none => none
    | .text t => some t
    | .param i => some (read i)
    | .key => some key
  id := c.id
  caps := c.caps
  nocaps := c.nocaps
  mems := c.mems

theorem mode_setList (chptr : Channel) (type : BanType) (list : List Ban) :
    (chptr.setList type list).mode = chptr.mode := by
  cases type <;> rfl

theorem mode_selectList (chptr : Channel) (type : BanType) :
    (selectList chptr type).mode = chptr.mode := by
  cases type <;> rfl

theorem mode_addId {cf : Config} {now : Int} {client : Client} {chptr : Channel} {banid : CStr}
    {type : BanType} : (addId cf now client chptr banid type).chptr.mode = chptr.mode := by
  unfold addId
  split
  · rfl
  · dsimp only
    split
    · exact mode_selectList chptr type
    · rw [mode_setList, mode_selectList]

theorem mode_delId {cf : Config} {chptr : Channel} {banid : CStr} {type : BanType} :
    (delId cf chptr banid type).chptr.mode = chptr.mode := by
  unfold delId
  rw [mode_setList, mode_selectList]

theorem card_simpleMode (modes : Finset SimpleMode) : modes.card ≤ 6 := by
  have hall : modes ⊆ {.priv, .secret, .moderated, .topiclimit, .inviteonly, .noprivmsgs} := by
    intro mode _
    cases mode <;> simp
  exact (Finset.card_le_card hall).trans (by decide)

namespace ModeState

/-- Every recorded change has a direction, and a letter that is no sign. -/
def Good (st : ModeState) : Prop :=
  ∀ c ∈ st.modeChanges, c.dir ≠ .query ∧ signDir c.letter = none

/-- The changes without a parameter, and the `-l` that the limit allows. -/
def load (st : ModeState) : Nat :=
  st.modeChanges.countP (fun c => decide (c.arg = .none)) +
    if st.chptr.mode.limit = 0 then 0 else 1

/-- The simple modes and the parameters that were used. -/
def spare (st : ModeState) : Nat := st.simpleModesMask.card + st.parn

/-- A letter records a change without a parameter for a simple mode, or takes a limit away that
a parameter set. -/
structure Advances (st st' : ModeState) : Prop where
  good : st.Good → st'.Good
  load : st'.load + st.spare ≤ st.load + st'.spare

variable {env : ModeEnv} {st st' : ModeState} {arg : Option CStr} {c : Char}

theorem advances_of_eq (hchanges : st'.modeChanges = st.modeChanges)
    (hlimit : st'.chptr.mode.limit = st.chptr.mode.limit) (hspare : st.spare ≤ st'.spare) :
    Advances st st' where
  good h := by
    unfold Good
    rw [hchanges]
    exact h
  load := by
    unfold ModeState.load
    rw [hchanges, hlimit]
    omega

theorem Advances.refl : Advances st st := ⟨id, Nat.le_refl _⟩

theorem Advances.trans {st'' : ModeState} (h : Advances st st') (h' : Advances st' st'') :
    Advances st st'' where
  good := h'.good ∘ h.good
  load := by
    have hle := h.load
    have hle' := h'.load
    omega

theorem advances_answer (err : SmErr) (reply : List ModeReply) :
    Advances st (st.answer err reply) := by
  unfold answer
  split
  · exact .refl
  · exact advances_of_eq rfl rfl (Nat.le_refl _)

theorem advances_push (change : ModeChange) (hdir : change.dir ≠ .query)
    (hletter : signDir change.letter = none) (harg : change.arg ≠ .none)
    (hchanges : st'.modeChanges = st.modeChanges ++ [change])
    (hlimit : st'.chptr.mode.limit = st.chptr.mode.limit) (hspare : st.spare ≤ st'.spare) :
    Advances st st' where
  good h := by
    intro d hd
    rw [hchanges] at hd
    rcases List.mem_append.mp hd with hd | hd
    · exact h d hd
    · rw [List.mem_singleton.mp hd]
      exact ⟨hdir, hletter⟩
  load := by
    unfold ModeState.load
    rw [hchanges, hlimit, countP_append]
    simp only [countP_singleton, harg, decide_false, Bool.false_eq_true, if_false]
    omega

theorem advances_setMask (hdir : st.dir ≠ .query) (hc : signDir c = none) (type : BanType)
    (caps : Nat) (mems : Mems) (mask : CStr) :
    Advances st (st.setMask env type caps mems c mask) := by
  have hspare : ∀ {st' : ModeState}, st'.simpleModesMask = st.simpleModesMask →
      st'.parn = st.parn + 1 → st.spare ≤ st'.spare := by
    intro st' hmask hparn
    unfold spare
    rw [hmask, hparn]
    omega
  unfold setMask
  dsimp only
  split
  · exact advances_of_eq rfl rfl (hspare rfl rfl)
  · cases hd : st.dir with
    | query => exact absurd hd hdir
    | add =>
      dsimp only
      split
      · exact advances_push ⟨c, .add, .param st.parn, none, caps, 0, mems⟩ (by simp) hc
          (by simp) rfl (congrArg Mode.limit mode_addId) (hspare rfl rfl)
      · exact advances_of_eq rfl (congrArg Mode.limit mode_addId) (hspare rfl rfl)
    | del =>
      dsimp only
      split
      · exact advances_push ⟨c, .del, .param st.parn, none, caps, 0, mems⟩ (by simp) hc
          (by simp) rfl (congrArg Mode.limit mode_delId) (hspare rfl rfl)
      · exact advances_of_eq rfl (congrArg Mode.limit mode_delId) (hspare rfl rfl)

theorem advances_dropEarlier : Advances st (st.dropEarlier c) where
  good h := by
    intro d hd
    obtain ⟨e, he, rfl⟩ := List.mem_map.mp hd
    have hgood := h e he
    split
    · exact ⟨hgood.1, rfl⟩
    · exact hgood
  load := by
    have harg : ∀ e : ModeChange, ((if e.letter = c ∧ e.dir = .add then
        { e with letter := '\x00' } else e).arg = .none) = (e.arg = .none) := by
      intro e
      split <;> rfl
    have hload : (st.dropEarlier c).load = st.load := by
      unfold ModeState.load dropEarlier
      simp only [countP_map, Function.comp_def, harg]
    rw [hload]
    exact Nat.le_refl _

theorem advances_limitOff (hc : signDir c = none) (hlimit : st.chptr.mode.limit ≠ 0) :
    Advances st (({ st with chptr := { st.chptr with mode := { st.chptr.mode with limit := 0 } } } :
      ModeState).push { letter := c, dir := .del }) where
  good h d hd := by
    rcases List.mem_append.mp hd with hd | hd
    · exact h d hd
    · rw [List.mem_singleton.mp hd]
      exact ⟨by simp, hc⟩
  load := by
    simp only [ModeState.load, spare, push, countP_append, countP_singleton,
      decide_true, if_true, hlimit, if_false]
    omega

theorem advances_limitOn (hc : signDir c = none) (limit : Fin 4294967296) (back : Option CStr)
    (i : Nat) :
    Advances st
      { st.push { letter := c, dir := .add, arg := .param i } with
        parn := st.parn + 1
        back := back
        chptr := { st.chptr with mode := { st.chptr.mode with limit := limit } } } := by
  have hpush : Advances st (st.push { letter := c, dir := .add, arg := .param i }) :=
    advances_push _ (by simp) hc (by simp) rfl rfl (Nat.le_refl _)
  refine ⟨hpush.good, ?_⟩
  have hload := hpush.load
  have hone : (if limit = 0 then 0 else 1) ≤ 1 := by split <;> decide
  simp only [ModeState.load, spare, push] at hload ⊢
  omega

theorem advances_simple (hc : signDir c = none) {mode : SimpleMode}
    (hnew : mode ∉ st.simpleModesMask) (modes : Finset SimpleMode) {dir : ModeDir}
    (hdir : dir ≠ .query) :
    Advances st (({ st with
      simpleModesMask := insert mode st.simpleModesMask
      chptr := { st.chptr with mode := { st.chptr.mode with mode := modes } } } :
        ModeState).push { letter := c, dir := dir }) where
  good h d hd := by
    rcases List.mem_append.mp hd with hd | hd
    · exact h d hd
    · rw [List.mem_singleton.mp hd]
      exact ⟨hdir, hc⟩
  load := by
    have hcard : (insert mode st.simpleModesMask).card = st.simpleModesMask.card + 1 :=
      Finset.card_insert_of_notMem hnew
    have hone : (({ st with
        simpleModesMask := insert mode st.simpleModesMask
        chptr := { st.chptr with mode := { st.chptr.mode with mode := modes } } } :
          ModeState).push { letter := c, dir := dir }).load = st.load + 1 := by
      unfold ModeState.load push
      rw [countP_append]
      by_cases hlimit : st.chptr.mode.limit = 0
      · simp [hlimit]
      · simp [hlimit]
    rw [hone]
    simp only [spare, push, hcard]
    omega

theorem advances_move (hc : signDir c = none) (h : Move env arg c st st') : Advances st st' := by
  cases h with
  | answer err reply => exact advances_answer err reply
  | count => exact advances_of_eq rfl rfl (Nat.le_refl _)
  | use => exact advances_of_eq rfl rfl (Nat.le_succ _)
  | mask type caps mems hdir => exact advances_setMask hdir hc type caps mems _
  | status who _ hdir =>
    exact advances_push ⟨c, st.dir, .text (env.dir.clients who).name,
      some (env.dir.clients who).id, 0, 0, .allMembers⟩ hdir hc (by simp) rfl rfl (Nat.le_refl _)
  | drop => exact advances_dropEarlier
  | limitOn limit back i => exact advances_limitOn hc limit back i
  | limitOff hlimit => exact advances_limitOff hc hlimit
  | keyOn =>
    exact advances_push ⟨c, .add, .key, none, 0, 0, .allMembers⟩ (by simp) hc (by simp) rfl rfl
      (Nat.le_refl _)
  | keyOff =>
    exact advances_push ⟨c, .del, .text ['*'], none, 0, 0, .allMembers⟩ (by simp) hc (by simp)
      rfl rfl (Nat.le_refl _)
  | simple mode modes hnew hdir => exact advances_simple hc hnew modes hdir
  | seen mode hnew =>
    have hspare : st.spare ≤
        ({ st with simpleModesMask := insert mode st.simpleModesMask } : ModeState).spare := by
      simp only [spare, Finset.card_insert_of_notMem hnew]
      omega
    exact advances_of_eq rfl rfl hspare

theorem advances_moves (hc : signDir c = none) (h : Moves env arg c st st') : Advances st st' := by
  induction h with
  | refl => exact .refl
  | tail _ hmove ih => exact ih.trans (advances_move hc hmove)

theorem advances_modeStep : Advances st (st.modeStep env arg c) := by
  unfold modeStep
  split
  · exact advances_of_eq rfl rfl (Nat.le_refl _)
  · rename_i hc
    have hclear : Advances st { st with back := none } := advances_of_eq rfl rfl (Nat.le_refl _)
    exact hclear.trans (advances_moves hc moves_chmLetter)

end ModeState

namespace ParamStore

variable {σ : Type} {P : ParamStore σ} {env : ModeEnv}

theorem parn_step_le {s : σ × ModeState} (c : Char) (h : s.2.parn ≤ max 1 env.parc) :
    (P.step env s c).2.parn ≤ max 1 env.parc := by
  cases hsign : signDir c with
  | some dir =>
    rw [step_sign hsign]
    exact h
  | none =>
    rw [(step_letter P env s hsign).2]
    split
    · rename_i hreach
      exact le_max_of_le_right hreach.1.2
    · exact h

theorem advances_foldl (P : ParamStore σ) (env : ModeEnv) (modes : CStr) {s : σ × ModeState}
    (h : s.2.parn ≤ max 1 env.parc) :
    s.2.Advances (modes.foldl (P.step env) s).2 ∧
      (modes.foldl (P.step env) s).2.parn ≤ max 1 env.parc := by
  induction modes generalizing s with
  | nil => exact ⟨.refl, h⟩
  | cons c modes ih =>
    obtain ⟨hrest, hparn⟩ := ih (parn_step_le c h)
    have hstep : s.2.Advances (P.step env s c).2 := ModeState.advances_modeStep
    exact ⟨hstep.trans hrest, hparn⟩

theorem good_setChannelMode (P : ParamStore σ) (hparc : env.parc ≤ MAXPARA) (chptr : Channel)
    (params : σ) (modes : CStr) : (P.setChannelMode env chptr params modes).2.Good ∧
      (P.setChannelMode env chptr params modes).2.modeChanges.countP
        (fun c => decide (c.arg = .none)) ≤ 6 + MAXPARA := by
  have hmax : MAXPARA = 15 := rfl
  obtain ⟨hadvances, hparn⟩ := P.advances_foldl env modes (s := (params, { chptr := chptr }))
    (le_max_left _ _)
  refine ⟨hadvances.good fun c hc => absurd hc not_mem_nil, ?_⟩
  have hload := hadvances.load
  have hcard := card_simpleMode (P.setChannelMode env chptr params modes).2.simpleModesMask
  have hone : max 1 env.parc ≤ 15 := by omega
  have hstart : ({ chptr := chptr } : ModeState).load ≤ 1 := by
    simp only [ModeState.load, countP_nil]
    split <;> decide
  have hspare : ({ chptr := chptr } : ModeState).spare = 1 := rfl
  simp only [hspare] at hload
  change (P.setChannelMode env chptr params modes).2.load + 1 ≤
    ({ chptr := chptr } : ModeState).load +
      (P.setChannelMode env chptr params modes).2.spare at hload
  change (P.setChannelMode env chptr params modes).2.parn ≤ max 1 env.parc at hparn
  simp only [ModeState.spare] at hload
  have hcount : (P.setChannelMode env chptr params modes).2.modeChanges.countP
      (fun c => decide (c.arg = .none)) ≤ (P.setChannelMode env chptr params modes).2.load :=
    Nat.le_add_right _ _
  omega

end ParamStore

theorem sendable_setChannelMode {σ : Type} (P : ParamStore σ) {env : ModeEnv}
    (hparc : env.parc ≤ MAXPARA) (chptr : Channel) (params : σ) (modes : CStr)
    (read : Nat → CStr) (key : CStr)
    (hparam : ∀ c ∈ (P.setChannelMode env chptr params modes).2.modeChanges.map
      (ModeChange.shown read key), ∀ arg, c.arg = some arg ∨ c.id = some arg →
        arg.length + BAN_FUDGE < MODEBUFLEN) :
    Sendable ((P.setChannelMode env chptr params modes).2.modeChanges.map
      (ModeChange.shown read key)) := by
  obtain ⟨hgood, hfew⟩ := P.good_setChannelMode hparc chptr params modes
  have hnone : ∀ c : ModeChange, (c.shown read key).arg.isNone = decide (c.arg = .none) := by
    intro c
    unfold ModeChange.shown
    cases c.arg <;> rfl
  refine ⟨fun c hc => ?_, fun c hc => ?_, hparam, ?_⟩
  · obtain ⟨d, hd, rfl⟩ := List.mem_map.mp hc
    exact (hgood d hd).1
  · obtain ⟨d, hd, rfl⟩ := List.mem_map.mp hc
    exact (hgood d hd).2
  · rw [countP_map]
    simp only [Function.comp_def, hnone]
    exact hfew.trans (by decide)

/-- The lines of a list of changes that can be sent carry each change once, with its parameter,
and are not cut off; and each list that `set_channel_mode` builds can be sent. -/
theorem mode_lines_whole (src : ModeSource) :
    (∀ (combos : List (Nat × Nat)) (changes : List ShownChange), Sendable changes →
      WholeLines src.firstHeader src.nextHeader (ModeSource.letters changes)
          (src.sendModeChanges combos changes).1 ∧
        List.Forall₂ (fun combo lines =>
          WholeLines (src.capSend combo.1 combo.2).firstHeader
            (src.capSend combo.1 combo.2).nextHeader
            ((src.capSend combo.1 combo.2).letters (changes.map ShownChange.toChModeChange)) lines)
          combos (src.sendModeChanges combos changes).2) ∧
      ∀ (σ : Type) (P : ParamStore σ) (env : ModeEnv) (chptr : Channel) (params : σ) (modes : CStr),
        env.parc ≤ MAXPARA →
        let s := P.setChannelMode env chptr params modes
        let changes := s.2.modeChanges.map (ModeChange.shown (P.read s.1) s.2.chptr.mode.key)
        (∀ c ∈ changes, ∀ arg, c.arg = some arg ∨ c.id = some arg →
          arg.length + BAN_FUDGE < MODEBUFLEN) → Sendable changes := by
  constructor
  · intro combos changes h
    unfold ModeSource.sendModeChanges
    split
    · rename_i hempty
      obtain rfl := List.isEmpty_iff.mp hempty
      have hnone : ∀ first next : CStr, WholeLines first next [] [] :=
        fun _ _ => ⟨[], rfl, .nil⟩
      refine ⟨hnone _ _, ?_⟩
      rw [List.forall₂_map_right_iff]
      exact List.forall₂_same.mpr fun combo _ => hnone _ _
    · refine ⟨ModeSource.wholeLines_local h, ?_⟩
      rw [List.forall₂_map_right_iff]
      exact List.forall₂_same.mpr fun combo _ => ModeSource.wholeLines_cap h
  · intro σ P env chptr params modes hparc s changes hparam
    exact sendable_setChannelMode P hparc chptr params modes _ _ hparam

def plainSource : ModeSource where
  server := false
  hidden := false
  me := "hub.net".toList
  name := "nick".toList
  username := "user".toList
  host := "host.net".toList
  id := "0AAAAAAAA".toList
  chname := "#channel".toList
  channelts := 1000000000
  meLen := by decide
  nameLen := by decide
  userLen := by decide
  hostLen := by decide
  idLen := by decide
  chLen := by decide

def plainChange (dir : ModeDir) (letter : Char) (arg : Option CStr) : ShownChange where
  letter := letter
  dir := dir
  arg := arg
  id := none
  caps := 0
  nocaps := 0

/-- `+ovl-i` with its parameters. -/
def fewChanges : List ShownChange :=
  [plainChange .add 'o' (some "nick".toList), plainChange .add 'v' (some "nick".toList),
    plainChange .add 'l' (some "5".toList), plainChange .del 'i' none]

theorem sendable_few : Sendable fewChanges where
  dir := by decide
  letter := by decide
  param := by
    have harg : ∀ c ∈ fewChanges, ∀ arg ∈ c.arg, arg.length + BAN_FUDGE < MODEBUFLEN := by decide
    have hid : ∀ c ∈ fewChanges, c.id = none := by decide
    intro c hc arg h
    rcases h with h | h
    · exact harg c hc arg h
    · rw [hid c hc] at h
      cases h
  few := by decide

theorem mode_lines_whole_few :
    WholeLines plainSource.firstHeader plainSource.nextHeader (ModeSource.letters fewChanges)
        (plainSource.sendModeChanges [(CAP_TS6, 0)] fewChanges).1 ∧
      (plainSource.sendModeChanges [(CAP_TS6, 0)] fewChanges).1 =
        [":nick!user@host.net MODE #channel +ovl-i nick nick 5".toList] :=
  ⟨((mode_lines_whole plainSource).1 [(CAP_TS6, 0)] fewChanges sendable_few).1, by decide +kernel⟩

/-- A user with the longest names on a channel with the longest name. -/
def longSource : ModeSource where
  server := false
  hidden := false
  me := "hub.net".toList
  name := List.replicate HOSTLEN 'n'
  username := List.replicate USERLEN 'u'
  host := List.replicate HOSTLEN 'h'
  id := "0AAAAAAAA".toList
  chname := '#' :: List.replicate (CHANNELLEN - 1) 'c'
  channelts := 1000000000
  meLen := by decide
  nameLen := by decide
  userLen := by decide
  hostLen := by decide
  idLen := by decide
  chLen := by decide

/-- A long parameter and 130 letters without a parameter. -/
def manyChanges : List ShownChange :=
  plainChange .add 'k' (some (List.replicate 188 'x')) ::
    List.replicate 130 (plainChange .add 'i' none)

namespace ModeSource

variable (src : ModeSource) {st : CapLoop}

theorem foldl_plain (n : Nat) (hmc : st.mc ≠ MAXMODEPARAMS) (hdir : st.dir = .add)
    (hroom : st.modebuf.length + n + st.parabuf.length + 1 ≤ IRCD_BUFSIZE)
    (hpara : st.parabuf.length + BAN_FUDGE < MODEBUFLEN) :
    (List.replicate n (plainChange .add 'i' none)).foldl src.step st =
      { st with modebuf := st.modebuf ++ List.replicate n 'i', nc := st.nc + n } := by
  induction n generalizing st with
  | zero => simp
  | succ n ih =>
    have hfull : st.full 0 = false :=
      (CapLoop.full_eq_false 0).mpr ⟨hmc, by omega, by omega⟩
    have hstep : src.step st (plainChange .add 'i' none) = st.add ⟨.add, 'i', none⟩ :=
      if_neg (Bool.eq_false_iff.mp hfull)
    have hadd : st.add ⟨.add, 'i', none⟩ =
        { st with modebuf := st.modebuf ++ ['i'], nc := st.nc + 1 } := by
      simp [CapLoop.add, hdir]
    rw [replicate_succ, foldl_cons, hstep, hadd]
    have hroom' : (st.modebuf ++ ['i']).length + n + st.parabuf.length + 1 ≤ IRCD_BUFSIZE := by
      rw [length_append, length_singleton]
      omega
    refine Eq.trans (ih hmc hdir hroom' hpara) ?_
    simp [Nat.add_comm 1, Nat.add_assoc, replicate_succ]

theorem mem_finish_foldl {line : CStr} (h : line ∈ st.sent) (changes : List ShownChange) :
    line ∈ (changes.foldl src.step st).finish := by
  induction changes generalizing st with
  | nil =>
    rw [foldl_nil, CapLoop.finish]
    split
    · exact mem_append_left _ h
    · exact h
  | cons c changes ih =>
    refine ih ?_
    unfold step
    split
    · exact h
    · split
      · unfold flush
        dsimp only [CapLoop.add]
        split
        · exact mem_append_left _ h
        · exact h
      · exact h

theorem sends_long_line {arg : CStr} (hheader : src.firstHeader.length = 196)
    (harg : arg.length = 188) (changes : List ShownChange) :
    src.firstHeader ++ "+k".toList ++ List.replicate 124 'i' ++ ' ' :: (arg ++ [' ']) ∈
      (src.sendModeChanges [] (plainChange .add 'k' (some arg) ::
        (List.replicate 124 (plainChange .add 'i' none) ++
          plainChange .add 'i' none :: changes))).1 := by
  have hconst : MAXMODEPARAMS = 4 ∧ IRCD_BUFSIZE = 512 ∧ MODEBUFLEN = 200 ∧ BAN_FUDGE = 10 :=
    ⟨rfl, rfl, rfl, rfl⟩
  obtain ⟨hparams, hbuf, hmode, hfudge⟩ := hconst
  have hkey : src.step { modebuf := src.firstHeader } (plainChange .add 'k' (some arg)) =
      ⟨src.firstHeader ++ "+k".toList, arg ++ [' '], 1, 1, .add, []⟩ := by
    have hroom : CapLoop.full { modebuf := src.firstHeader } arg.length = false := by
      rw [CapLoop.full_eq_false, hheader, harg, hparams, hbuf, hmode, hfudge]
      simp
    have hstep : src.step { modebuf := src.firstHeader } (plainChange .add 'k' (some arg)) =
        CapLoop.add { modebuf := src.firstHeader } ⟨.add, 'k', some arg⟩ :=
      if_neg (Bool.eq_false_iff.mp hroom)
    rw [hstep]
    simp [CapLoop.add]
  have hletters : (List.replicate 124 (plainChange .add 'i' none)).foldl src.step
      ⟨src.firstHeader ++ "+k".toList, arg ++ [' '], 1, 1, .add, []⟩ =
      ⟨src.firstHeader ++ "+k".toList ++ List.replicate 124 'i', arg ++ [' '], 1 + 124, 1, .add,
        []⟩ := by
    refine src.foldl_plain 124 ?_ rfl ?_ ?_
    · rw [hparams]
      simp
    · simp [hheader, harg, hbuf]
    · simp [harg, hmode, hfudge]
  have hlength : (src.firstHeader ++ "+k".toList ++ List.replicate 124 'i').length = 322 := by
    simp [hheader]
  have hlast : (src.firstHeader ++ "+k".toList ++ List.replicate 124 'i').getLast? = some 'i' := by
    rw [getLast?_append]
    rfl
  unfold sendModeChanges
  rw [if_neg (by simp), foldl_cons, hkey, foldl_append, hletters, foldl_cons]
  refine src.mem_finish_foldl ?_ changes
  generalize src.firstHeader ++ "+k".toList ++ List.replicate 124 'i' = letters at hlength hlast ⊢
  have hfull : CapLoop.full ⟨letters, arg ++ [' '], 1 + 124, 1, .add, []⟩ 0 = true := by
    simp [CapLoop.full, hlength, harg, hbuf]
  have hstep : src.step ⟨letters, arg ++ [' '], 1 + 124, 1, .add, []⟩ (plainChange .add 'i' none) =
      (src.flush ⟨letters, arg ++ [' '], 1 + 124, 1, .add, []⟩).add ⟨.add, 'i', none⟩ :=
    if_pos hfull
  rw [hstep]
  simp [CapLoop.add, flush, hlast]

end ModeSource

/-- They make a line that is too long. -/
theorem mode_line_too_long :
    ∃ line ∈ (longSource.sendModeChanges [] manyChanges).1, ¬line.length ≤ IRCD_BUFSIZE - 2 := by
  have hheader : longSource.firstHeader.length = 196 := by decide +kernel
  have hletters : List.replicate (124 + 6) (plainChange .add 'i' none) =
      List.replicate 124 (plainChange .add 'i' none) ++
        plainChange .add 'i' none :: List.replicate 5 (plainChange .add 'i' none) :=
    replicate_add 124 6 _
  have hmany : manyChanges = plainChange .add 'k' (some (List.replicate 188 'x')) :: _ :=
    congrArg (List.cons _) hletters
  have hbuf : IRCD_BUFSIZE = 512 := rfl
  generalize harg : List.replicate 188 'x' = arg at hmany
  have hlen : arg.length = 188 := by rw [← harg, length_replicate]
  rw [hmany]
  refine ⟨_, longSource.sends_long_line hheader hlen _, ?_⟩
  simp [hheader, hlen, hbuf]

end Ircd
