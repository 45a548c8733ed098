import Ircd.Line
import Ircd.Sjoin

/-!
The mode lines for other servers: `send_cap_mode_changes`, and the test of the
stamp in `ms_tmode`.

The first line to a TS6 link is a TMODE, but the lines that a long change goes on
with are plain MODEs, which no server tests against its stamp.

- `sendCapModeChanges_of_oneLine`: what goes out while nothing has to be cut.
- `tmode_exact`: the changes that go out as TMODEs with the stamp of the channel.
-/

namespace Ircd

open List

/-- `CAP_TS6`. -/
def CAP_TS6 : Nat := 0x400

/-- `MODEBUFLEN`. -/
def MODEBUFLEN : Nat := 200

/-- `BAN_FUDGE`. -/
def BAN_FUDGE : Nat := 10

/-- `MODE_QUERY`, `MODE_ADD` and `MODE_DEL`. -/
inductive ModeDir where
  | query
  | add
  | del
  deriving DecidableEq, Repr

/-- `struct ChModeChange`, as far as servers are concerned. -/
structure ChModeChange where
  letter : Char
  arg : Option CStr
  id : Option CStr
  dir : ModeDir
  caps : Nat
  nocaps : Nat
  deriving DecidableEq, Repr

/-- The arguments of `send_cap_mode_changes`: the name and the id of the source,
the channel with its stamp, and the capabilities the receivers have and lack. -/
structure CapSend where
  id : CStr
  name : CStr
  chname : CStr
  channelts : Int
  cap : Nat
  nocap : Nat
  deriving DecidableEq, Repr

namespace CapSend

variable (env : CapSend)

/-- The receivers have TS6 and the source has an id. -/
def byId : Bool := env.cap &&& CAP_TS6 != 0 && !env.id.isEmpty

/-- What `modebuf` holds before the first change. -/
def firstHeader : CStr :=
  if env.byId then
    ':' :: env.id ++ " TMODE ".toList ++ luText (toULong env.channelts) ++ ' ' :: env.chname ++
      [' ']
  else ':' :: env.name ++ " MODE ".toList ++ env.chname ++ [' ']

/-- What `modebuf` holds after a line was sent. -/
def nextHeader : CStr :=
  if env.byId then ':' :: env.id ++ " MODE ".toList ++ env.chname ++ [' ']
  else ':' :: env.name ++ " MODE ".toList ++ env.chname ++ [' ']

/-- The change is not meant for these receivers. -/
def skips (c : ChModeChange) : Bool :=
  c.letter == '\x00' || env.cap &&& c.caps != c.caps || env.nocap &&& c.nocaps != c.nocaps

/-- The parameter of a change: the id for TS6 receivers where there is one. -/
def argOf (c : ChModeChange) : Option CStr :=
  let arg := if env.cap &&& CAP_TS6 ≠ 0 then c.id.getD [] else []
  if arg.isEmpty then c.arg else some arg

/-- `arglen`. -/
def argLen (c : ChModeChange) : Nat := ((env.argOf c).getD []).length

end CapSend

/-- The buffers and counters of the loop, and the lines sent so far. -/
structure CapLoop where
  modebuf : CStr
  parabuf : CStr := []
  nc : Nat := 0
  mc : Nat := 0
  dir : ModeDir := .query
  sent : List CStr := []
  deriving DecidableEq, Repr

namespace CapLoop

variable (env : CapSend)

/-- No room is left for a change with such a parameter. -/
def full (st : CapLoop) (arglen : Nat) : Bool :=
  st.mc == MAXMODEPARAMS || decide (IRCD_BUFSIZE < arglen + st.modebuf.length + st.parabuf.length +
    2) ||
    decide (MODEBUFLEN ≤ st.parabuf.length + arglen + BAN_FUDGE)

/-- The line in the buffers is sent, if it has a change, and the next one begun. -/
def flush (st : CapLoop) : CapLoop where
  modebuf := env.nextHeader
  sent := if st.nc ≠ 0 then st.sent ++ [st.modebuf ++ ' ' :: st.parabuf] else st.sent

def put (st : CapLoop) (c : ChModeChange) : CapLoop :=
  let sign : CStr := if st.dir = c.dir then [] else [if c.dir = .add then '+' else '-']
  { st with
    modebuf := st.modebuf ++ sign ++ [c.letter]
    dir := c.dir
    nc := st.nc + 1
    parabuf := match env.argOf c with | none => st.parabuf | some arg => st.parabuf ++ arg ++ [' ']
    mc := if (env.argOf c).isSome then st.mc + 1 else st.mc }

def step (st : CapLoop) (c : ChModeChange) : CapLoop :=
  if env.skips c then st
  else if st.full (env.argLen c) then (st.flush env).put env c
  else st.put env c

/-- The lines sent in all; the last one loses the blank at its end. -/
def finish (st : CapLoop) : List CStr :=
  let parabuf := if st.parabuf.getLast? = some ' ' then st.parabuf.dropLast else st.parabuf
  if st.nc ≠ 0 then st.sent ++ [st.modebuf ++ ' ' :: parabuf] else st.sent

end CapLoop

/-- `send_cap_mode_changes`: the lines for the servers with these capabilities. -/
def sendCapModeChanges (env : CapSend) (changes : List ChModeChange) : List CStr :=
  (changes.foldl (CapLoop.step env) { modebuf := env.firstHeader }).finish

/-- The test of the stamp in `ms_tmode`; `ms_mode` has none. -/
def ignoredByTs (channelts : Int) (msg : Message) : Bool :=
  msg.command == "TMODE".toList && decide (channelts < strtol (msg.parv.head?.getD []))

/-! ### What is asked of a line -/

/-- The receiver reads a TMODE with the stamp. -/
def CarriesTs (channelts : Int) (line : CStr) : Prop :=
  ∃ msg, parseLine line = some msg ∧ msg.command = "TMODE".toList ∧
    strtol (msg.parv.head?.getD []) = channelts

/-- A change on behalf of a source with an id, for receivers with TS6. -/
structure Ts6Send extends CapSend where
  ts6 : cap &&& CAP_TS6 ≠ 0
  hasId : id ≠ []
  idNoBlank : ' ' ∉ id

namespace Ts6Send

variable (env : Ts6Send)

/-- The changes that are meant for these receivers. -/
def meant (changes : List ChModeChange) : List ChModeChange :=
  changes.filter fun c => !env.skips c

/-- The number of signs in front of the letters. -/
def signs : ModeDir → List ChModeChange → Nat
  | _, [] => 0
  | dir, c :: cs => (if dir = c.dir then 0 else 1) + signs c.dir cs

def params (cs : List ChModeChange) : Nat := cs.countP fun c => (env.argOf c).isSome

/-- The length of the parameters with a blank behind each. -/
def paramsLen (cs : List ChModeChange) : Nat :=
  (cs.map fun c => if (env.argOf c).isSome then env.argLen c + 1 else 0).sum

/-- Behind `pre` the line has room for `c`: for another parameter, within the
length of a line and within the length of the parameters. -/
def Room (pre : List ChModeChange) (c : ChModeChange) : Prop :=
  env.params pre ≠ MAXMODEPARAMS ∧
    env.argLen c + (env.firstHeader.length + pre.length + signs .query pre) + env.paramsLen pre +
      2 ≤
      IRCD_BUFSIZE ∧
    env.paramsLen pre + env.argLen c + BAN_FUDGE < MODEBUFLEN

/-- Every change that is meant for the receivers has room behind those before it. -/
def OneLine (changes : List ChModeChange) : Prop :=
  ∀ pre c post, env.meant changes = pre ++ c :: post → env.Room pre c

/-- The stamp has at most ten digits and no sign. -/
def Plain (channelts : Int) : Prop := 0 ≤ channelts ∧ channelts < 10000000000

end Ts6Send

/-! ### The stamp on a line -/

theorem head_stringToArray {w rest : CStr} (hw : IsWord w) :
    (stringToArray (w ++ ' ' :: rest)).head? = some w := by
  obtain ⟨c, w, rfl⟩ := exists_cons_of_ne_nil hw.ne
  have hblank : c ≠ ' ' := fun h => hw.noBlank (by simp [h])
  have hdrop : (c :: w ++ ' ' :: rest).dropWhile (· == ' ') = c :: (w ++ ' ' :: rest) :=
    dropWhile_cons_of_neg (by simpa using hblank)
  have hcut := toArrayFrom_word (p := rest) (MAXPARA - 3) hw
  rw [stringToArray, hdrop]
  simp only [MAXPARA, cons_append] at hcut ⊢
  rw [hcut]
  split <;> rfl

/-- What a receiver reads as the stamp when `%lu` printed the number `v`. -/
def stampRead (v : Nat) (rest : CStr) : Int :=
  strtol ((stringToArray (luText v ++ ' ' :: rest)).head?.getD [])

theorem strtol_padDigits {r : Nat} {t : CStr} (ht : t.head?.any isDigit = false)
    (hr : r < 1000000000) : strtol (padDigits 9 r ++ t) = r := by
  rw [strtol_digits_append (by simp [padDigits]) (fun c => isDigit_padDigits) ht,
    readDigits_padDigits, longOfNat]
  have hsum : 0 * 10 ^ 9 + r % 10 ^ 9 = r := by omega
  rw [hsum, if_pos (by unfold LONG_MAX; omega)]

theorem isWord_padDigits (r : Nat) : IsWord (padDigits 9 r) :=
  isWord_digits (by simp [padDigits]) fun c => isDigit_padDigits

theorem strtol_lead (c : Char) {r : Nat} (hr : r < 1000000000) :
    strtol (c :: padDigits 9 r) < 10000000000 ∧
      (strtol (c :: padDigits 9 r) < 0 → c = '-' ∧ -1000000000 < strtol (c :: padDigits 9 r)) := by
  have hdigits := strtol_padDigits (t := []) rfl hr
  rw [append_nil] at hdigits
  have hread : ∀ acc, readDigits acc (padDigits 9 r) = acc * 10 ^ 9 + r := fun acc => by
    rw [readDigits_padDigits, Nat.mod_eq_of_lt (by omega)]
  have hlong : ∀ v : Nat, v ≤ 10000000000 → longOfNat v = v := fun v hv => by
    rw [longOfNat, if_pos (by unfold LONG_MAX; omega)]
  by_cases hspace : isSpace c = true
  · have hskip : strtol (c :: padDigits 9 r) = strtol (padDigits 9 r) := by
      simp only [strtol, dropWhile_cons, hspace, if_true]
    rw [hskip, hdigits]
    omega
  · have hdrop : (c :: padDigits 9 r).dropWhile isSpace = c :: padDigits 9 r :=
      dropWhile_cons_of_neg hspace
    rw [strtol, hdrop]
    split
    · rename_i ds heq
      obtain ⟨rfl, rfl⟩ := List.cons.inj heq
      rw [hread, if_pos (by unfold LONG_MAX; omega)]
      exact ⟨by omega, fun _ => ⟨rfl, by omega⟩⟩
    · rename_i ds heq
      obtain ⟨rfl, rfl⟩ := List.cons.inj heq
      rw [hread, hlong _ (by omega)]
      omega
    · rw [readDigits]
      split
      · rename_i hdigit
        have hval : digitVal c < 10 := by
          simp only [isDigit, Bool.and_eq_true, decide_eq_true_eq] at hdigit
          have hhigh : c.toNat ≤ 57 := hdigit.2
          have h48 : '0'.toNat = 48 := rfl
          rw [digitVal]
          omega
        rw [hread, hlong _ (by omega)]
        omega
      · rw [hlong _ (by omega)]
        omega

theorem stampRead_bounds {v : Nat} (hv : 10000000000 ≤ v) (rest : CStr) :
    stampRead v rest < 10000000000 ∧
      (stampRead v rest < 0 → ('0'.toNat + v / 1000000000) % 256 = '-'.toNat ∧
        -1000000000 < stampRead v rest) := by
  have hr : v % 1000000000 < 1000000000 := Nat.mod_lt _ (by omega)
  have hbyte : (Char.ofNat (('0'.toNat + v / 1000000000) % 256)).toNat =
      ('0'.toNat + v / 1000000000) % 256 := toNat_ofNat (.inl (by omega))
  rw [stampRead, luText, if_neg (by omega), if_pos (by omega)]
  generalize Char.ofNat (('0'.toNat + v / 1000000000) % 256) = c at hbyte
  rw [← hbyte]
  rcases eq_or_ne c ' ' with rfl | hblank
  · have hskip : stringToArray (' ' :: padDigits 9 (v % 1000000000) ++ ' ' :: rest) =
        stringToArray (padDigits 9 (v % 1000000000) ++ ' ' :: rest) := by
      simp [stringToArray]
    have hdigits := strtol_padDigits (t := []) rfl hr
    rw [append_nil] at hdigits
    rw [hskip, head_stringToArray (isWord_padDigits _), Option.getD_some, hdigits]
    omega
  · rcases eq_or_ne c ':' with rfl | hcolon
    · have hlast : stringToArray (':' :: padDigits 9 (v % 1000000000) ++ ' ' :: rest) =
          [padDigits 9 (v % 1000000000) ++ ' ' :: rest] := rfl
      rw [hlast, head?_cons, Option.getD_some, strtol_padDigits (by simp [isDigit]) hr]
      omega
    · have hword : IsWord (c :: padDigits 9 (v % 1000000000)) :=
        ⟨by simp, by simpa [Ne.symm hblank] using (isWord_padDigits _).noBlank, by simpa
          using hcolon⟩
      rw [head_stringToArray hword, Option.getD_some]
      obtain ⟨hhigh, hlow⟩ := strtol_lead c hr
      refine ⟨hhigh, fun hneg => ?_⟩
      obtain ⟨rfl, hlow⟩ := hlow hneg
      exact ⟨rfl, hlow⟩

theorem stampRead_eq_iff {ts : Int} (rest : CStr) :
    stampRead (toULong ts) rest = ts ↔ Ts6Send.Plain ts := by
  have hcast : (toULong ts : Int) = ts % 2 ^ 64 := by
    rw [toULong, BitVec.toNat_ofInt]
    omega
  constructor
  · intro hread
    by_cases hshort : toULong ts < 10000000000
    · rw [stampRead, head_stringToArray (isWord_luText hshort), Option.getD_some,
        strtol_luText hshort] at hread
      exact ⟨by omega, by omega⟩
    · obtain ⟨hhigh, hlow⟩ := stampRead_bounds (Nat.le_of_not_lt hshort) rest
      rw [hread] at hhigh hlow
      refine ⟨?_, hhigh⟩
      by_contra hneg
      obtain ⟨hbyte, hlow⟩ := hlow (by omega)
      have h48 : '0'.toNat = 48 := rfl
      have h45 : '-'.toNat = 45 := rfl
      omega
  · rintro ⟨hlow, hhigh⟩
    have hshort : toULong ts < 10000000000 := by omega
    rw [stampRead, head_stringToArray (isWord_luText hshort), Option.getD_some,
      strtol_luText hshort]
    omega

/-! ### The loop -/

namespace Ts6Send

def lastDir (dir : ModeDir) (cs : List ChModeChange) : ModeDir := cs.foldl (fun _ c => c.dir) dir

theorem signs_append (dir : ModeDir) (cs : List ChModeChange) (c : ChModeChange) :
    signs dir (cs ++ [c]) = signs dir cs + if lastDir dir cs = c.dir then 0 else 1 := by
  induction cs generalizing dir with
  | nil =>
    rw [nil_append, signs, signs, signs, Nat.add_zero, Nat.zero_add]
    rfl
  | cons d cs ih =>
    rw [cons_append, signs, ih, signs, Nat.add_assoc]
    rfl

variable {env : Ts6Send} {st : CapLoop} {pre changes : List ChModeChange} {c : ChModeChange}

theorem byId_eq_true : env.byId = true := by
  have hid : env.id.isEmpty = false := by
    rw [isEmpty_eq_false_iff]
    exact env.hasId
  simp [CapSend.byId, env.ts6, hid]

theorem meant_cons_of_skips (h : env.skips c = true) : env.meant (c :: changes) = env.meant
    changes := by
  simp [meant, h]

theorem meant_cons_of_not_skips (h : env.skips c = false) :
    env.meant (c :: changes) = c :: env.meant changes := by
  simp [meant, h]

/-- The buffers hold the changes so far behind the first header, and nothing was
sent. -/
structure Clean (env : Ts6Send) (pre : List ChModeChange) (st : CapLoop) : Prop where
  sent : st.sent = []
  header : env.firstHeader <+: st.modebuf
  modeLen : st.modebuf.length = env.firstHeader.length + pre.length + signs .query pre
  paraLen : st.parabuf.length = env.paramsLen pre
  nc : st.nc = pre.length
  mc : st.mc = env.params pre
  dir : st.dir = lastDir .query pre

/-- The first line is behind, and the next one holds a change. -/
structure Broken (env : Ts6Send) (st : CapLoop) : Prop where
  header : env.nextHeader <+: st.modebuf
  nc : st.nc ≠ 0

theorem clean_start : env.Clean [] { modebuf := env.firstHeader } where
  sent := rfl
  header := prefix_refl _
  modeLen := rfl
  paraLen := rfl
  nc := rfl
  mc := rfl
  dir := rfl

theorem prefix_put {h : CStr} (hpre : h <+: st.modebuf) : h <+: (st.put env.toCapSend c).modebuf :=
  (hpre.trans (prefix_append _ _)).trans (prefix_append _ _)

theorem Clean.full_iff (h : env.Clean pre st) : st.full (env.argLen c) = true ↔
    ¬ env.Room pre c := by
  simp only [CapLoop.full, Room, h.mc, h.modeLen, h.paraLen, Bool.or_eq_true, beq_iff_eq,
    decide_eq_true_eq]
  omega

theorem Clean.put (h : env.Clean pre st) (c : ChModeChange) :
    env.Clean (pre ++ [c]) (st.put env.toCapSend c) where
  sent := h.sent
  header := prefix_put h.header
  modeLen := by
    have hsign : (if st.dir = c.dir then ([] : CStr) else [if c.dir = .add then '+'
        else '-']).length =
        if lastDir .query pre = c.dir then 0 else 1 := by
      rw [h.dir]
      split <;> rfl
    rw [CapLoop.put, length_append, length_append, hsign, h.modeLen, signs_append,
      length_append, length_singleton, length_singleton]
    omega
  paraLen := by
    rw [CapLoop.put, paramsLen, map_append, sum_append]
    cases harg : env.argOf c with
    | none => simp [harg, h.paraLen, paramsLen]
    | some arg => simp [harg, h.paraLen, paramsLen, CapSend.argLen]
  nc := by simp [CapLoop.put, h.nc]
  mc := by
    cases harg : env.argOf c with
    | none => simp [CapLoop.put, params, harg, h.mc]
    | some arg => simp [CapLoop.put, params, harg, h.mc, countP_append]
  dir := by simp [CapLoop.put, lastDir]

theorem Broken.put (h : env.nextHeader <+: st.modebuf) :
    env.Broken (st.put env.toCapSend c) :=
  ⟨prefix_put h, Nat.succ_ne_zero _⟩

theorem Broken.step (h : env.Broken st) (c : ChModeChange) :
    env.Broken (st.step env.toCapSend c) := by
  unfold CapLoop.step
  split
  · exact h
  · split
    · exact Broken.put (prefix_refl _)
    · exact Broken.put h.header

theorem Broken.foldl (h : env.Broken st) (changes : List ChModeChange) :
    env.Broken (changes.foldl (CapLoop.step env.toCapSend) st) := by
  induction changes generalizing st with
  | nil => exact h
  | cons c changes ih => exact ih (h.step c)

theorem Clean.foldl (h : env.Clean pre st) (changes : List ChModeChange) :
    ((∀ mid c post, env.meant changes = mid ++ c :: post → env.Room (pre ++ mid) c) ∧
        env.Clean (pre ++ env.meant changes) (changes.foldl (CapLoop.step env.toCapSend) st)) ∨
      ((∃ mid c post, env.meant changes = mid ++ c :: post ∧ ¬ env.Room (pre ++ mid) c) ∧
        env.Broken (changes.foldl (CapLoop.step env.toCapSend) st)) := by
  induction changes generalizing pre st with
  | nil =>
    refine .inl ⟨fun mid c post heq => ?_, by simpa [meant] using h⟩
    simp [meant] at heq
  | cons c changes ih =>
    cases hskip : env.skips c with
    | true =>
      have hstep : st.step env.toCapSend c = st := by simp [CapLoop.step, hskip]
      rw [meant_cons_of_skips hskip, foldl_cons, hstep]
      exact ih h
    | false =>
      rw [meant_cons_of_not_skips hskip, foldl_cons]
      by_cases hroom : env.Room pre c
      · have hfull : st.full (env.argLen c) = false := by
          rw [← Bool.not_eq_true, h.full_iff]
          exact not_not_intro hroom
        have hstep : st.step env.toCapSend c = st.put env.toCapSend c := by
          simp [CapLoop.step, hskip, hfull]
        rw [hstep]
        obtain ⟨hall, hclean⟩ | ⟨⟨mid, d, post, heq, hno⟩, hbroken⟩ := ih (h.put c)
        · refine .inl ⟨fun mid d post heq => ?_, by simpa using hclean⟩
          cases mid with
          | nil =>
            obtain ⟨rfl, -⟩ := List.cons.inj heq
            simpa using hroom
          | cons e mid =>
            obtain ⟨rfl, hrest⟩ := List.cons.inj heq
            simpa using hall mid d post hrest
        · exact .inr ⟨⟨c :: mid, d, post, by rw [heq]; rfl, by simpa using hno⟩, hbroken⟩
      · have hfull : st.full (env.argLen c) = true := h.full_iff.mpr hroom
        have hstep : st.step env.toCapSend c = (st.flush env.toCapSend).put env.toCapSend
            c := by
          simp [CapLoop.step, hskip, hfull]
        rw [hstep]
        exact .inr ⟨⟨[], c, env.meant changes, rfl, by simpa using hroom⟩,
          (Broken.put (prefix_refl _)).foldl changes⟩

/-! ### The lines -/

theorem firstHeader_eq (t : CStr) : env.firstHeader ++ t =
    ':' :: env.id ++ ' ' :: "TMODE".toList ++ ' ' ::
      (luText (toULong env.channelts) ++ ' ' :: (env.chname ++ ' ' :: t)) := by
  simp [CapSend.firstHeader, byId_eq_true]

theorem nextHeader_eq (t : CStr) : env.nextHeader ++ t =
    ':' :: env.id ++ ' ' :: "MODE".toList ++ ' ' :: (env.chname ++ ' ' :: t) := by
  simp [CapSend.nextHeader, byId_eq_true]

theorem carriesTs_iff {line : CStr} (h : env.firstHeader <+: line) :
    CarriesTs env.channelts line ↔ Plain env.channelts := by
  obtain ⟨t, rfl⟩ := h
  have hword : IsWord "TMODE".toList := ⟨by decide, by decide, by decide⟩
  have hparse := @parseLine_eq env.id _ (luText (toULong env.channelts) ++ ' ' ::
      (env.chname ++ ' ' :: t))
    env.idNoBlank hword
  rw [← firstHeader_eq] at hparse
  rw [← stampRead_eq_iff (env.chname ++ ' ' :: t)]
  constructor
  · rintro ⟨msg, hmsg, -, hts⟩
    obtain rfl := Option.some.inj (hparse.symm.trans hmsg)
    exact hts
  · intro hts
    exact ⟨_, hparse, rfl, hts⟩

theorem not_carriesTs {line : CStr} (h : env.nextHeader <+: line) :
    ¬ CarriesTs env.channelts line := by
  obtain ⟨t, rfl⟩ := h
  have hword : IsWord "MODE".toList := ⟨by decide, by decide, by decide⟩
  have hother : "MODE".toList ≠ "TMODE".toList := by decide
  have hparse := @parseLine_eq env.id _ (env.chname ++ ' ' :: t) env.idNoBlank hword
  rw [← nextHeader_eq] at hparse
  rintro ⟨msg, hmsg, hcommand, -⟩
  obtain rfl := Option.some.inj (hparse.symm.trans hmsg)
  exact hother hcommand

theorem Clean.finish (h : env.Clean pre st) :
    (pre = [] ∧ st.finish = []) ∨ (pre ≠ [] ∧ ∃ line, st.finish = [line] ∧
      env.firstHeader <+: line) := by
  cases pre with
  | nil =>
    have hnc : st.nc = 0 := h.nc
    exact .inl ⟨rfl, by simp [CapLoop.finish, hnc, h.sent]⟩
  | cons c pre =>
    have hnc : st.nc ≠ 0 := by
      rw [h.nc]
      exact Nat.succ_ne_zero _
    refine .inr ⟨cons_ne_nil _ _, ?_⟩
    rw [CapLoop.finish, if_pos hnc, h.sent, nil_append]
    exact ⟨_, rfl, h.header.trans (prefix_append _ _)⟩

theorem Broken.finish (h : env.Broken st) : ∃ line ∈ st.finish, env.nextHeader <+: line := by
  rw [CapLoop.finish, if_pos h.nc]
  exact ⟨_, mem_append_right _ (mem_singleton_self _),
    h.header.trans (prefix_append _ _)⟩

end Ts6Send

theorem sendCapModeChanges_of_oneLine {env : Ts6Send} {changes : List ChModeChange}
    (h : env.OneLine changes) (hne : env.meant changes ≠ []) :
    ∃ line, sendCapModeChanges env.toCapSend changes = [line] ∧ env.firstHeader <+: line := by
  obtain ⟨-, hclean⟩ | ⟨⟨mid, c, post, heq, hno⟩, -⟩ := Ts6Send.clean_start.foldl changes
  · obtain ⟨hnil, -⟩ | ⟨-, hline⟩ := hclean.finish
    · exact absurd hnil hne
    · exact hline
  · exact absurd (h mid c post heq) hno

theorem sendCapModeChanges_of_not_oneLine {env : Ts6Send} {changes : List ChModeChange}
    (h : ¬ env.OneLine changes) :
    ∃ line ∈ sendCapModeChanges env.toCapSend changes, env.nextHeader <+: line := by
  obtain ⟨hall, -⟩ | ⟨-, hbroken⟩ := Ts6Send.clean_start.foldl changes
  · exact absurd hall h
  · exact hbroken.finish

theorem sendCapModeChanges_of_meant_nil {env : Ts6Send} {changes : List ChModeChange}
    (h : env.meant changes = []) : sendCapModeChanges env.toCapSend changes = [] := by
  obtain ⟨-, hclean⟩ | ⟨⟨mid, c, post, heq, -⟩, -⟩ := Ts6Send.clean_start.foldl changes
  · obtain ⟨-, hsent⟩ | ⟨hne, -⟩ := hclean.finish
    · exact hsent
    · exact absurd h hne
  · simp [h] at heq

/-- Every line is a TMODE with the stamp of the channel just when there is no line,
or when everything fits on one and the stamp is plain. -/
theorem tmode_exact (env : Ts6Send) (changes : List ChModeChange) :
    (∀ line ∈ sendCapModeChanges env.toCapSend changes, CarriesTs env.channelts line) ↔
      env.meant changes = [] ∨ env.OneLine changes ∧ Ts6Send.Plain env.channelts := by
  by_cases hnil : env.meant changes = []
  · simp [hnil, sendCapModeChanges_of_meant_nil hnil]
  · by_cases hone : env.OneLine changes
    · obtain ⟨line, hsent, hheader⟩ := sendCapModeChanges_of_oneLine hone hnil
      have hline := Ts6Send.carriesTs_iff hheader
      simp [hsent, hline, hnil, hone]
    · obtain ⟨line, hline, hheader⟩ := sendCapModeChanges_of_not_oneLine hone
      constructor
      · intro hts
        exact absurd (hts line hline) (Ts6Send.not_carriesTs hheader)
      · rintro (h | ⟨h, -⟩)
        · exact absurd h hnil
        · exact absurd h hone

/-- An operator gives five members the status of a channel operator: the fifth goes
onto a second line. -/
def fiveOps : List ChModeChange :=
  List.replicate 5 ⟨'o', some "nick".toList, some "2BBBBBBBB".toList, .add, 0, 0⟩

/-- The source of `fiveOps`, on a channel with the stamp 1000000000. -/
def fiveOpsSend : Ts6Send where
  id := "1AAAAAAAA".toList
  name := "oper".toList
  chname := "#chan".toList
  channelts := 1000000000
  cap := CAP_TS6
  nocap := 0
  ts6 := by decide
  hasId := by decide
  idNoBlank := by decide

/-- The second line of `fiveOps` is no TMODE. -/
theorem tmode_lost :
    ¬ ∀ line ∈ sendCapModeChanges fiveOpsSend.toCapSend fiveOps,
      CarriesTs fiveOpsSend.channelts line := by
  have hcut : ¬ fiveOpsSend.OneLine fiveOps := fun h =>
    (h (fiveOps.take 4) _ [] rfl).1 rfl
  obtain ⟨line, hline, hheader⟩ := sendCapModeChanges_of_not_oneLine hcut
  exact fun hts => Ts6Send.not_carriesTs hheader (hts line hline)

theorem ignored_all_or_none {channelts : Int} {lines : List CStr}
    (h : ∀ line ∈ lines, CarriesTs channelts line) (peerts : Int) :
    ∀ line ∈ lines, ∃ msg, parseLine line = some msg ∧
      ignoredByTs peerts msg = decide (peerts < channelts) := by
  intro line hline
  obtain ⟨msg, hmsg, hcommand, hts⟩ := h line hline
  exact ⟨msg, hmsg, by simp [ignoredByTs, hcommand, hts]⟩

end Ircd
