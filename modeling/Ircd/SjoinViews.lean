import Ircd.ChannelMode
import Ircd.SjoinRelay
import Mathlib.Data.List.Find

/-!
What the local members of a channel are told of an SJOIN.

A client keeps for each nick on the channel the status that the JOIN and MODE lines give it.
`ms_sjoin` adds only those of its nicks that are not on the channel yet, but sends `+o`, `+h` and
`+v` for the others as well: the views agree with the channel just when every word names a client
with no more than the status it gets or had (`sjoin_announced_iff`).
-/

namespace Ircd

open Function List

/-! ### The view of a client -/

/-- The lines that `ms_sjoin` sends to the members, without the name of the server in front of a
MODE, the notice that the stamp has changed and the `-b` lines of `remove_ban_list`. -/
inductive MemberLine where
  | join (nick user host : CStr)
  | mode (modebuf : CStr) (para : List CStr)
  deriving DecidableEq, Repr

/-- The letters of a MODE line, read with their parameters. -/
def MemberLine.changes : MemberLine → List (LetterChange CStr)
  | .join .. => []
  | .mode modebuf para => (readChanges modeTakes .add modebuf para).1

def statusFlag : Char → Option ChFlag
  | 'o' => some .chanop
  | 'h' => some .halfop
  | 'v' => some .voice
  | _ => none

/-- What a client knows of a channel: the nicks on it with their status. -/
abbrev NickView := CStr → Option (Finset ChFlag)

namespace NickView

/-- A letter gives a nick a status, or takes it away. -/
def change (v : NickView) (c : LetterChange CStr) : NickView :=
  match statusFlag c.letter, c.param with
  | some f, some nick =>
    update v nick
      ((v nick).map fun fl => if c.dir = .add then insert f fl else fl.erase f)
  | _, _ => v

def read (v : NickView) : MemberLine → NickView
  | .join nick _ _ => update v nick (some ∅)
  | .mode modebuf para => (MemberLine.mode modebuf para).changes.foldl change v

end NickView

/-- The nicks on a channel with the status that is stored for them. -/
def nickView (cl : Clients) (members : List Membership) : NickView := fun nick =>
  (members.find? fun ms => decide ((cl ms.client).name = nick)).map fun ms => ms.flags ∩ opFlags

/-- Nobody is on a channel that is not there. -/
def membersOf (chan : Option Channel) : List Membership := (chan.map Channel.members).getD []

/-! ### The lines -/

/-- The letters and nicks since the last MODE line, and the lines so far. -/
structure StatusBatch where
  letters : CStr := []
  para : List CStr := []
  lines : List MemberLine := []
  deriving DecidableEq, Repr

namespace StatusBatch

def flush (dir : ModeDir) (b : StatusBatch) : StatusBatch where
  lines := b.lines ++ [.mode (dir.sign :: b.letters) b.para]

/-- A letter for a nick, and the line when there are `MAXMODEPARAMS` of them. -/
def add (dir : ModeDir) (b : StatusBatch) (letter : Char) (nick : CStr) : StatusBatch :=
  let b := { b with letters := b.letters ++ [letter], para := b.para ++ [nick] }
  if MAXMODEPARAMS ≤ b.para.length then b.flush dir else b

def finish (dir : ModeDir) (b : StatusBatch) : List MemberLine :=
  if b.para.length ≠ 0 then (b.flush dir).lines else b.lines

def join (b : StatusBatch) (who : Client) : StatusBatch :=
  { b with lines := b.lines ++ [.join who.name who.username who.host] }

/-- The letters of the status that a nick gets. -/
def statuses (b : StatusBatch) (nick : CStr) (fl : Finset ChFlag) : StatusBatch :=
  let b := if .chanop ∈ fl then b.add .add 'o' nick else b
  let b := if .halfop ∈ fl then b.add .add 'h' nick else b
  if .voice ∈ fl then b.add .add 'v' nick else b

end StatusBatch

/-- `remove_a_mode`: the members without the status, and the lines. -/
def removeAMode (cl : Clients) (mask : ChFlag) (flag : Char) (members : List Membership) :
    List Membership × List MemberLine :=
  (members.map fun ms => { ms with flags := ms.flags.erase mask },
    (members.foldl
      (fun b ms => if mask ∈ ms.flags then b.add .del flag (cl ms.client).name else b)
      ({} : StatusBatch)).finish .del)

/-- `remove_our_modes` with the lines. -/
def removeOurModesLines (cl : Clients) (members : List Membership) :
    List Membership × List MemberLine :=
  let ops := removeAMode cl .chanop 'o' members
  let halfops := removeAMode cl .halfop 'h' ops.1
  let voices := removeAMode cl .voice 'v' halfops.1
  (voices.1, ops.2 ++ halfops.2 ++ voices.2)

/-- What a client that is named in the nick list shows the members. -/
def showMember (dir : Directory) (chptr : Channel) (b : StatusBatch) (m : Cid × Finset ChFlag) :
    StatusBatch :=
  let who := dir.clients m.1
  let b := if (findChannelLink dir.clients m.1 chptr).isSome then b else b.join who
  b.statuses who.name m.2

/-- The loop over the nick list with the lines for the members. -/
def showNicks (dir : Directory) (chptr : Channel) (b : StatusBatch)
    (ms : List (Cid × Finset ChFlag)) : Channel × StatusBatch :=
  ms.foldl (fun st m => (joinMember dir st.1 m, showMember dir st.1 st.2 m)) (chptr, b)

/-- The lines of `ms_sjoin` behind the creation of the channel. -/
def sjoinLines (env : SjoinEnv) (client : Cid) (args : SjoinArgs) (chptr : Channel)
    (isnew : Bool) : List MemberLine :=
  let rule := sjoinRule env args.newts chptr isnew
  let chptr' := sjoinChannel rule args.mode chptr
  let final := setFinalMode chptr'.mode chptr.mode
  let nicks := sjoinNamed env client rule args.nicks
  (if rule.keepOurModes then [] else (removeOurModesLines env.dir.clients chptr.members).2) ++
    (if final.1 = [] then [] else [.mode final.1 (stringToArray final.2)]) ++
    (showNicks env.dir chptr' {} nicks).2.finish .add

/-- The lines of `ms_sjoin` for the members. -/
def msSjoinLines (env : SjoinEnv) (client source : Cid) (parv : List CStr)
    (chan : Option Channel) : List MemberLine :=
  match readSjoin env.dir source parv with
  | none => []
  | some args =>
    match getOrCreateChannel env.now args.chname chan with
    | none => []
    | some (chptr, isnew) => sjoinLines env client args chptr isnew

/-! ### What is asked of the lines -/

/-- A member that had its view right has it right after the SJOIN, and no status was announced
that is not stored. -/
structure SjoinAnnounced (env : SjoinEnv) (client source : Cid) (parv : List CStr)
    (chan : Option Channel) : Prop where
  views : (msSjoinLines env client source parv chan).foldl NickView.read
      (nickView env.dir.clients (membersOf chan)) =
    nickView env.dir.clients (membersOf (msSjoin env client source parv chan).chan)
  truthful : ∀ line ∈ msSjoinLines env client source parv chan, ∀ c ∈ line.changes,
    c.dir = .add → ∀ f nick, statusFlag c.letter = some f → c.param = some nick →
      ∃ fl, nickView env.dir.clients (membersOf (msSjoin env client source parv chan).chan) nick =
        some fl ∧ f ∈ fl

/-- The status that a client of the nick list has on the channel: what it had there, unless the
SJOIN takes our modes away, or else what the first word that names it says. -/
def heldStatus (rule : TsRule) (members : List Membership) (nicks : List (Cid × Finset ChFlag))
    (who : Cid) : Option (Finset ChFlag) :=
  ((memberStatus members who).map fun fl => if rule.keepOurModes then fl else ∅).or
    ((nicks.find? fun m => m.1 == who).map fun m => m.2 ∩ opFlags)

/-- No word of the nick list says more than the status that the client has. -/
def SjoinFresh (env : SjoinEnv) (client source : Cid) (parv : List CStr) (chan : Option Channel) :
    Prop :=
  ∀ args chptr isnew, readSjoin env.dir source parv = some args →
    getOrCreateChannel env.now args.chname chan = some (chptr, isnew) →
      let rule := sjoinRule env args.newts chptr isnew
      let nicks := sjoinNamed env client rule args.nicks
      ∀ m ∈ nicks, ∀ held, heldStatus rule chptr.members nicks m.1 = some held →
        m.2 ∩ opFlags ⊆ held

/-- The nicks of clients are different, and the members of a channel are clients. -/
structure Named (cl : Clients) (members : List Membership) : Prop where
  names : ∀ a b, (cl a).isClient = true → (cl b).isClient = true → (cl a).name = (cl b).name →
    a = b
  clients : ∀ ms ∈ members, (cl ms.client).isClient = true

/-! ### Letters and their nicks -/

/-- A letter with the nick it is for. -/
def statusChange (dir : ModeDir) (letter : Char) (nick : CStr) : LetterChange CStr :=
  ⟨dir, letter, some nick⟩

theorem letter_of_statusFlag {c : Char} (h : (statusFlag c).isSome) : c = 'o' ∨ c = 'h' ∨
    c = 'v' := by
  unfold statusFlag at h
  split at h <;> simp at h ⊢

theorem readChanges_statuses {dir : ModeDir} (hdir : dir ≠ .query) {letters : CStr}
    {para : List CStr} (hletters : ∀ c ∈ letters, (statusFlag c).isSome)
    (hlen : letters.length = para.length) :
    (readChanges modeTakes dir letters para).1 = List.zipWith (statusChange dir) letters para := by
  induction letters generalizing para with
  | nil => rfl
  | cons c letters ih =>
    obtain ⟨nick, para, rfl⟩ := exists_cons_of_length_eq_add_one hlen.symm
    have htail := ih (fun c' hc' => hletters c' (mem_cons_of_mem _ hc'))
      (Nat.succ.inj hlen)
    have hsign : signDir c = none := by
      rcases letter_of_statusFlag (hletters c (by simp)) with rfl | rfl | rfl <;> rfl
    have htakes : modeTakes dir c = true := by
      rcases letter_of_statusFlag (hletters c (by simp)) with rfl | rfl | rfl <;>
        simp [modeTakes, hdir]
    rw [readChanges, hsign]
    simp only [htakes, if_true, tail_cons, head?_cons, zipWith_cons_cons, htail]
    rfl

namespace StatusBatch

variable {dir : ModeDir} {b : StatusBatch} {letter : Char} {nick : CStr} {v : NickView}

/-- Every letter stands for a status and has its nick. -/
structure Paired (b : StatusBatch) : Prop where
  letters : ∀ c ∈ b.letters, (statusFlag c).isSome
  length : b.letters.length = b.para.length

/-- The changes since the last line. -/
def pending (dir : ModeDir) (b : StatusBatch) : List (LetterChange CStr) :=
  List.zipWith (statusChange dir) b.letters b.para

/-- What the members have been told, with the changes since the last line. -/
def told (dir : ModeDir) (b : StatusBatch) : List (LetterChange CStr) :=
  b.lines.flatMap MemberLine.changes ++ b.pending dir

/-- What a member sees once it has the changes since the last line. -/
def shown (dir : ModeDir) (b : StatusBatch) (v : NickView) : NickView :=
  (b.pending dir).foldl NickView.change (b.lines.foldl NickView.read v)

theorem paired_empty : ({} : StatusBatch).Paired := ⟨by simp, rfl⟩

theorem paired_flush : (b.flush dir).Paired := ⟨by simp [flush], rfl⟩

theorem changes_flush (hdir : dir ≠ .query) (hb : b.Paired) :
    (MemberLine.mode (dir.sign :: b.letters) b.para).changes = b.pending dir := by
  rw [MemberLine.changes, readChanges, signDir_sign]
  exact readChanges_statuses hdir hb.letters hb.length

theorem told_flush (hdir : dir ≠ .query) (hb : b.Paired) :
    (b.flush dir).told dir = b.told dir := by
  simp [told, flush, changes_flush hdir hb, pending]

theorem shown_flush (hdir : dir ≠ .query) (hb : b.Paired) :
    (b.flush dir).shown dir v = b.shown dir v := by
  simp [shown, flush, NickView.read, changes_flush hdir hb, pending]

theorem changes_finish (hdir : dir ≠ .query) (hb : b.Paired) :
    (b.finish dir).flatMap MemberLine.changes = b.told dir := by
  unfold finish
  split
  · rw [← told_flush hdir hb]
    simp [told, flush, pending]
  · rename_i h
    have hempty : b.para = [] := List.length_eq_zero_iff.mp (not_not.mp h)
    simp [told, pending, hempty]

theorem read_finish (hdir : dir ≠ .query) (hb : b.Paired) :
    (b.finish dir).foldl NickView.read v = b.shown dir v := by
  unfold finish
  split
  · rw [← shown_flush hdir hb]
    simp [shown, flush, pending]
  · rename_i h
    have hempty : b.para = [] := List.length_eq_zero_iff.mp (not_not.mp h)
    simp [shown, pending, hempty]

theorem paired_push (hb : b.Paired) (hletter : (statusFlag letter).isSome) :
    ({ b with letters := b.letters ++ [letter], para := b.para ++ [nick] } : StatusBatch).Paired
      where
  letters c hc := by
    rcases List.mem_append.mp hc with hc | hc
    · exact hb.letters c hc
    · obtain rfl := List.mem_singleton.mp hc
      exact hletter
  length := by simp [hb.length]

theorem pending_push (hb : b.Paired) :
    ({ b with letters := b.letters ++ [letter], para := b.para ++ [nick] } : StatusBatch).pending
      dir =
      b.pending dir ++ [statusChange dir letter nick] := by
  simp [pending, zipWith_append hb.length]

theorem paired_add (hb : b.Paired) (hletter : (statusFlag letter).isSome) :
    (b.add dir letter nick).Paired := by
  unfold add
  dsimp only
  split
  · exact paired_flush
  · exact paired_push hb hletter

theorem told_add (hdir : dir ≠ .query) (hb : b.Paired) (hletter : (statusFlag letter).isSome) :
    (b.add dir letter nick).told dir = b.told dir ++ [statusChange dir letter nick] := by
  have hpush : ({ b with letters := b.letters ++ [letter], para := b.para ++ [nick] } :
      StatusBatch).told dir = b.told dir ++ [statusChange dir letter nick] := by
    simp only [told, pending_push hb, append_assoc]
  unfold add
  dsimp only
  split
  · rw [told_flush hdir (paired_push hb hletter), hpush]
  · exact hpush

theorem shown_add (hdir : dir ≠ .query) (hb : b.Paired) (hletter : (statusFlag letter).isSome) :
    (b.add dir letter nick).shown dir v =
      (b.shown dir v).change (statusChange dir letter nick) := by
  have hpush : ({ b with letters := b.letters ++ [letter], para := b.para ++ [nick] } :
      StatusBatch).shown dir v = (b.shown dir v).change (statusChange dir letter nick) := by
    simp only [shown, pending_push hb, foldl_append, foldl_cons, foldl_nil]
  unfold add
  dsimp only
  split
  · rw [shown_flush hdir (paired_push hb hletter), hpush]
  · exact hpush

theorem mem_para_add {n : CStr} (h : n ∈ (b.add dir letter nick).para) : n ∈ b.para ∨ n = nick := by
  unfold add at h
  dsimp only at h
  split at h
  · exact absurd h not_mem_nil
  · simpa using h

/-! ### Many letters -/

/-- Letters with their nicks, one after the other. -/
def addAll (dir : ModeDir) (b : StatusBatch) (cs : List (Char × CStr)) : StatusBatch :=
  cs.foldl (fun b c => b.add dir c.1 c.2) b

variable {cs : List (Char × CStr)}

theorem paired_addAll (hb : b.Paired) (hcs : ∀ c ∈ cs, (statusFlag c.1).isSome) :
    (b.addAll dir cs).Paired := by
  induction cs generalizing b with
  | nil => exact hb
  | cons c cs ih =>
    exact ih (paired_add hb (hcs c (by simp))) fun c' hc' => hcs c' (mem_cons_of_mem _ hc')

theorem told_addAll (hdir : dir ≠ .query) (hb : b.Paired)
    (hcs : ∀ c ∈ cs, (statusFlag c.1).isSome) :
    (b.addAll dir cs).told dir = b.told dir ++ cs.map fun c => statusChange dir c.1 c.2 := by
  induction cs generalizing b with
  | nil => simp [addAll]
  | cons c cs ih =>
    have hc := hcs c (by simp)
    have hnext : (b.add dir c.1 c.2).Paired := paired_add hb hc
    have htail := ih hnext fun c' hc' =>
      hcs c' (mem_cons_of_mem _ hc')
    rw [told_add hdir hb hc] at htail
    simpa [addAll] using htail

theorem shown_addAll (hdir : dir ≠ .query) (hb : b.Paired)
    (hcs : ∀ c ∈ cs, (statusFlag c.1).isSome) :
    (b.addAll dir cs).shown dir v =
      cs.foldl (fun v c => v.change (statusChange dir c.1 c.2)) (b.shown dir v) := by
  induction cs generalizing b with
  | nil => rfl
  | cons c cs ih =>
    have hc := hcs c (by simp)
    have hnext : (b.add dir c.1 c.2).Paired := paired_add hb hc
    have htail := ih hnext fun c' hc' =>
      hcs c' (mem_cons_of_mem _ hc')
    rw [shown_add hdir hb hc] at htail
    exact htail

theorem mem_para_addAll {n : CStr} (h : n ∈ (b.addAll dir cs).para) :
    n ∈ b.para ∨ n ∈ cs.map Prod.snd := by
  induction cs generalizing b with
  | nil => exact .inl h
  | cons c cs ih =>
    rcases ih h with hpara | hmem
    · exact (mem_para_add hpara).imp_right fun heq => by simp [heq]
    · exact .inr (mem_cons_of_mem _ hmem)

def statusLetters (nick : CStr) (fl : Finset ChFlag) : List (Char × CStr) :=
  (if .chanop ∈ fl then [('o', nick)] else []) ++
    ((if .halfop ∈ fl then [('h', nick)] else []) ++ (if .voice ∈ fl then [('v', nick)] else []))

theorem statuses_eq_addAll (b : StatusBatch) (nick : CStr) (fl : Finset ChFlag) :
    b.statuses nick fl = b.addAll .add (statusLetters nick fl) := by
  simp only [statuses, addAll, statusLetters, foldl_append]
  split <;> split <;> split <;> rfl

theorem isSome_of_mem_statusLetters {fl : Finset ChFlag} :
    ∀ c ∈ statusLetters nick fl, (statusFlag c.1).isSome := by
  intro c hc
  simp only [statusLetters, mem_append, mem_ite_nil_right, mem_singleton] at hc
  rcases hc with ⟨-, rfl⟩ | ⟨-, rfl⟩ | ⟨-, rfl⟩ <;> rfl

theorem exists_mem_statusLetters {fl : Finset ChFlag} {f : ChFlag} :
    (∃ c ∈ statusLetters nick fl, statusFlag c.1 = some f) ↔ f ∈ fl ∩ opFlags := by
  simp only [statusLetters, opFlags, mem_append, mem_ite_nil_right, mem_singleton,
    Finset.mem_inter, Finset.mem_insert, Finset.mem_singleton]
  constructor
  · rintro ⟨c, ⟨hf, rfl⟩ | ⟨hf, rfl⟩ | ⟨hf, rfl⟩, hc⟩ <;>
      · obtain rfl := Option.some.inj hc
        exact ⟨hf, by simp⟩
  · rintro ⟨hf, rfl | rfl | rfl⟩
    · exact ⟨_, .inl ⟨hf, rfl⟩, rfl⟩
    · exact ⟨_, .inr (.inl ⟨hf, rfl⟩), rfl⟩
    · exact ⟨_, .inr (.inr ⟨hf, rfl⟩), rfl⟩

theorem eq_of_mem_statusLetters {fl : Finset ChFlag} :
    ∀ c ∈ statusLetters nick fl, c.2 = nick := by
  intro c hc
  simp only [statusLetters, mem_append, mem_ite_nil_right, mem_singleton] at hc
  rcases hc with ⟨-, rfl⟩ | ⟨-, rfl⟩ | ⟨-, rfl⟩ <;> rfl

end StatusBatch

/-! ### What the letters do to a view -/

namespace NickView

variable {v : NickView} {nick : CStr}

theorem change_add {letter : Char} {f : ChFlag} (h : statusFlag letter = some f) :
    v.change (statusChange .add letter nick) =
      update v nick ((v nick).map fun fl => insert f fl) := by
  simp [change, statusChange, h]

theorem change_del {letter : Char} {f : ChFlag} (h : statusFlag letter = some f) :
    v.change (statusChange .del letter nick) =
      update v nick ((v nick).map fun fl => fl.erase f) := by
  simp [change, statusChange, h]

theorem foldl_change_add {cs : List (Char × CStr)} (hnick : ∀ c ∈ cs, c.2 = nick)
    (hcs : ∀ c ∈ cs, (statusFlag c.1).isSome) :
    cs.foldl (fun v c => v.change (statusChange .add c.1 c.2)) v =
      update v nick
        ((v nick).map fun fl => fl ∪ (cs.filterMap fun c => statusFlag c.1).toFinset) := by
  induction cs generalizing v with
  | nil => simp
  | cons c cs ih =>
    obtain ⟨f, hf⟩ := Option.isSome_iff_exists.mp (hcs c (by simp))
    have htail := ih (v := v.change (statusChange .add c.1 c.2))
      (fun c' hc' => hnick c' (mem_cons_of_mem _ hc'))
      fun c' hc' => hcs c' (mem_cons_of_mem _ hc')
    have hflags : (c :: cs).filterMap (fun c => statusFlag c.1) =
        f :: cs.filterMap fun c => statusFlag c.1 := filterMap_cons_some hf
    rw [foldl_cons, htail, hnick c (by simp), change_add hf, hflags]
    simp [comp_def]

theorem foldl_statusLetters (fl : Finset ChFlag) :
    (StatusBatch.statusLetters nick fl).foldl
        (fun v c => v.change (statusChange .add c.1 c.2)) v =
      update v nick ((v nick).map fun old => old ∪ (fl ∩ opFlags)) := by
  have hflags : ((StatusBatch.statusLetters nick fl).filterMap fun c => statusFlag c.1).toFinset =
      fl ∩ opFlags := by
    ext f
    rw [mem_toFinset, mem_filterMap]
    exact StatusBatch.exists_mem_statusLetters
  rw [foldl_change_add StatusBatch.eq_of_mem_statusLetters
    StatusBatch.isSome_of_mem_statusLetters, hflags]

theorem foldl_change_del {letter : Char} {f : ChFlag} (h : statusFlag letter = some f)
    (nicks : List CStr) (n : CStr) :
    nicks.foldl (fun v nick => v.change (statusChange .del letter nick)) v n =
      if n ∈ nicks then (v n).map fun fl => fl.erase f else v n := by
  induction nicks generalizing v with
  | nil => simp
  | cons nick nicks ih =>
    rw [foldl_cons, ih, change_del h]
    by_cases hn : n = nick
    · subst hn
      simp [comp_def]
    · simp [hn]

theorem foldl_change_update {cs : List (LetterChange CStr)} {new : Option (Finset ChFlag)}
    (h : ∀ c ∈ cs, c.param ≠ some nick) :
    cs.foldl change (update v nick new) =
      update (cs.foldl change v) nick new := by
  induction cs generalizing v with
  | nil => rfl
  | cons c cs ih =>
    have hstep : (change (update v nick new) c) =
        update (v.change c) nick new := by
      have hc := h c (by simp)
      unfold change
      split
      · rename_i f n hf hn
        have hne : n ≠ nick := fun heq => hc (by rw [hn, heq])
        rw [update_of_ne hne, update_comm hne.symm]
      · rfl
    rw [foldl_cons, hstep]
    exact ih fun c' hc' => h c' (mem_cons_of_mem _ hc')

end NickView

/-! ### The views of the members -/

section Views

variable {cl : Clients} {members : List Membership}

theorem nickView_name (h : Named cl members) {who : Cid} (hwho : (cl who).isClient = true) :
    nickView cl members (cl who).name = memberStatus members who := by
  have hsame : ∀ ms ∈ members,
      decide ((cl ms.client).name = (cl who).name) = (ms.client == who) := by
    intro ms hms
    rw [Bool.eq_iff_iff, decide_eq_true_iff, beq_iff_eq]
    exact ⟨h.names _ _ (h.clients ms hms) hwho, fun heq => by rw [heq]⟩
  rw [nickView, memberStatus, find?_congr hsame]

theorem nickView_cons (ms : Membership) :
    nickView cl (ms :: members) =
      update (nickView cl members) (cl ms.client).name (some (ms.flags ∩ opFlags)) := by
  funext nick
  by_cases h : nick = (cl ms.client).name
  · subst h
    simp [nickView]
  · simp [nickView, h, Ne.symm h]

theorem nickView_map (cl : Clients) (members : List Membership) {f : Membership → Membership}
    (hf : ∀ ms, (f ms).client = ms.client) (nick : CStr) :
    nickView cl (members.map f) nick =
      (members.find? fun ms => decide ((cl ms.client).name = nick)).map fun ms =>
        (f ms).flags ∩ opFlags := by
  simp [nickView, find?_map, comp_def, hf]

theorem nickView_removeBanLists (chptr : Channel) :
    nickView cl (removeBanLists chptr).members = nickView cl chptr.members := by
  funext nick
  change nickView cl (chptr.members.map Membership.clearBan) nick = _
  rw [nickView_map cl chptr.members clearBan_client]
  simp only [clearBan_inter_opFlags]
  rfl

/-! ### Our modes are removed -/

variable {mask : ChFlag} {flag : Char}

/-- The members that lose a status, with the letter. -/
def losers (cl : Clients) (mask : ChFlag) (members : List Membership) : List CStr :=
  (members.filter fun ms => decide (mask ∈ ms.flags)).map fun ms => (cl ms.client).name

theorem removeAMode_snd :
    (removeAMode cl mask flag members).2 =
      (({} : StatusBatch).addAll .del ((losers cl mask members).map (Prod.mk flag))).finish
        .del := by
  simp [removeAMode, StatusBatch.addAll, losers, foldl_map, foldl_filter]

theorem isSome_of_mem_losers (cl : Clients) (members : List Membership)
    (hf : statusFlag flag = some mask) :
    ∀ c ∈ (losers cl mask members).map (Prod.mk flag), (statusFlag c.1).isSome := by
  intro c hc
  obtain ⟨nick, -, rfl⟩ := List.mem_map.mp hc
  rw [hf]
  rfl

theorem read_removeAMode (hf : statusFlag flag = some mask) :
    (removeAMode cl mask flag members).2.foldl NickView.read (nickView cl members) =
      nickView cl (removeAMode cl mask flag members).1 := by
  have hletters := isSome_of_mem_losers cl members hf
  rw [removeAMode_snd, StatusBatch.read_finish (by decide)
    (StatusBatch.paired_addAll StatusBatch.paired_empty hletters),
    StatusBatch.shown_addAll (by decide) StatusBatch.paired_empty hletters, foldl_map]
  funext nick
  change (losers cl mask members).foldl (fun v n => v.change (statusChange .del flag n))
    (nickView cl members) nick = _
  rw [NickView.foldl_change_del hf]
  dsimp only [removeAMode]
  have hclient : ∀ ms : Membership, { ms with flags := ms.flags.erase mask }.client = ms.client :=
    fun _ => rfl
  have hmap := nickView_map cl members hclient nick
  rw [hmap, nickView]
  cases hfind : members.find? fun ms => decide ((cl ms.client).name = nick) with
  | none => simp
  | some ms =>
    have hmem := mem_of_find?_eq_some hfind
    have hname : (cl ms.client).name = nick := by simpa using find?_some hfind
    split
    · simp [Finset.erase_inter]
    · rename_i hnot
      have hmask : mask ∉ ms.flags := fun hmask => hnot <|
        List.mem_map.mpr ⟨ms, List.mem_filter.mpr ⟨hmem, decide_eq_true hmask⟩, hname⟩
      have hseen : mask ∉ ms.flags ∩ opFlags := fun h => hmask (Finset.mem_inter.mp h).1
      simp [Finset.erase_eq_of_notMem hseen]

theorem dir_of_mem_removeAMode (hf : statusFlag flag = some mask) :
    ∀ line ∈ (removeAMode cl mask flag members).2, ∀ c ∈ line.changes, c.dir = .del := by
  intro line hline c hc
  have hletters := isSome_of_mem_losers cl members hf
  have hmem : c ∈ (removeAMode cl mask flag members).2.flatMap MemberLine.changes :=
    List.mem_flatMap.mpr ⟨line, hline, hc⟩
  rw [removeAMode_snd, StatusBatch.changes_finish (by decide)
    (StatusBatch.paired_addAll StatusBatch.paired_empty hletters),
    StatusBatch.told_addAll (by decide) StatusBatch.paired_empty hletters] at hmem
  obtain ⟨_, -, rfl⟩ := List.mem_map.mp hmem
  rfl

theorem removeOurModesLines_fst (chptr : Channel) :
    (removeOurModesLines cl chptr.members).1 = (removeOurModes chptr).members := by
  simp only [removeOurModesLines, removeAMode, removeOurModes, map_map]
  congr 1
  funext ms
  have hflags : ((ms.flags.erase .chanop).erase .halfop).erase .voice =
      ms.flags \ {.chanop, .halfop, .voice} := by
    ext f
    simp
    tauto
  simp [hflags]

theorem read_removeOurModes :
    (removeOurModesLines cl members).2.foldl NickView.read (nickView cl members) =
      nickView cl (removeOurModesLines cl members).1 := by
  simp only [removeOurModesLines, foldl_append]
  rw [read_removeAMode rfl, read_removeAMode rfl, read_removeAMode rfl]

theorem dir_of_mem_removeOurModes :
    ∀ line ∈ (removeOurModesLines cl members).2, ∀ c ∈ line.changes, c.dir = .del := by
  intro line hline
  simp only [removeOurModesLines, mem_append] at hline
  rcases hline with (hline | hline) | hline
  · exact dir_of_mem_removeAMode rfl line hline
  · exact dir_of_mem_removeAMode rfl line hline
  · exact dir_of_mem_removeAMode rfl line hline

end Views

/-! ### The line of the other modes -/

theorem letter_mem_of_readChanges {takes : ModeDir → Char → Bool} {dir : ModeDir} {s : CStr}
    {params : List CStr} {c : LetterChange CStr} (h : c ∈ (readChanges takes dir s params).1) :
    c.letter ∈ s := by
  induction s generalizing dir params with
  | nil => exact absurd h not_mem_nil
  | cons c' s ih =>
    rw [readChanges] at h
    split at h
    · exact mem_cons_of_mem _ (ih h)
    · rcases List.mem_cons.mp h with rfl | h
      · exact mem_cons_self
      · exact mem_cons_of_mem _ (ih h)

theorem statusFlag_setFinalMode {mode old : Mode} {c : Char} (h : c ∈ (setFinalMode mode old).1) :
    statusFlag c = none := by
  have hletter : ∀ f : SimpleMode, statusFlag f.letter = none := by
    intro f
    cases f <;> rfl
  have hlk : ∀ {p : Prop} [Decidable p] {a : Char}, c ∈ (if p then [a] else []) → c = a :=
    fun hc => List.mem_singleton.mp (List.mem_ite_nil_right.mp hc).2
  have hsign : ∀ (sign : Char) (text : CStr),
      c ∈ (if text = [] then [] else sign :: text) → c = sign ∨ c ∈ text := by
    intro sign text hc
    split at hc
    · exact absurd hc not_mem_nil
    · exact List.mem_cons.mp hc
  have hside : ∀ {fs : List SimpleMode} {p q : Prop} [Decidable p] [Decidable q],
      c ∈ fs.map SimpleMode.letter ++ (if p then ['l'] else []) ++ (if q then ['k'] else []) →
        statusFlag c = none := by
    intro fs p q _ _ hc
    rcases List.mem_append.mp hc with hc | hc
    · rcases List.mem_append.mp hc with hc | hc
      · obtain ⟨f, -, rfl⟩ := List.mem_map.mp hc
        exact hletter f
      · rw [hlk hc]
        rfl
    · rw [hlk hc]
      rfl
  rcases List.mem_append.mp h with h | h
  · rcases hsign _ _ h with rfl | h
    · rfl
    · exact hside h
  · rcases hsign _ _ h with rfl | h
    · rfl
    · exact hside h

theorem statusFlag_of_mem_final (mode old : Mode) (para : List CStr) :
    ∀ c ∈ (MemberLine.mode (setFinalMode mode old).1 para).changes, statusFlag c.letter = none :=
  fun _ hc => statusFlag_setFinalMode (letter_mem_of_readChanges hc)

theorem read_final {mode old : Mode} {para : List CStr} (v : NickView) :
    v.read (.mode (setFinalMode mode old).1 para) = v := by
  have hnone := statusFlag_of_mem_final mode old para
  rw [NickView.read]
  generalize (MemberLine.mode (setFinalMode mode old).1 para).changes = cs at hnone ⊢
  induction cs with
  | nil => rfl
  | cons c cs ih =>
    have hc : v.change c = v := by simp [NickView.change, hnone c (by simp)]
    rw [foldl_cons, hc]
    exact ih fun c' hc' => hnone c' (mem_cons_of_mem _ hc')

/-! ### The nick list -/

theorem status_foldl_join (ms : List (Cid × Finset ChFlag)) (v : View) (who : Cid) :
    (ms.foldl View.join v).status who =
      (v.status who).or ((ms.find? fun m => m.1 == who).map fun m => m.2 ∩ opFlags) := by
  induction ms generalizing v with
  | nil => simp
  | cons m ms ih =>
    rw [foldl_cons, ih]
    by_cases hm : m.1 = who
    · subst hm
      unfold View.join
      split
      · rename_i h
        obtain ⟨fl, hfl⟩ := Option.isSome_iff_exists.mp h
        simp [hfl]
      · rename_i h
        have hnone : v.status m.1 = none := by simpa using h
        simp [hnone]
    · have hstep : (v.join m).status who = v.status who := by
        unfold View.join
        split
        · rfl
        · exact update_of_ne (Ne.symm hm) _ _
      rw [hstep, find?_cons_of_neg (by simpa using hm)]

section Loop

variable {dir : Directory} {chptr : Channel} {b : StatusBatch} {m : Cid × Finset ChFlag}
  {ms : List (Cid × Finset ChFlag)} {v : NickView}

theorem memberStatus_foldl_joinMember (hms : ∀ m ∈ ms, (dir.clients m.1).isClient = true)
    (who : Cid) :
    memberStatus (ms.foldl (joinMember dir) chptr).members who =
      (memberStatus chptr.members who).or
        ((ms.find? fun m => m.1 == who).map fun m => m.2 ∩ opFlags) := by
  have hfinal := congrFun (congrArg View.status (view_foldl_joinMember hms chptr)) who
  rw [status_foldl_join] at hfinal
  exact hfinal

theorem status_of_member {who : Cid} {fl : Finset ChFlag}
    (hms : ∀ m ∈ ms, (dir.clients m.1).isClient = true)
    (h : memberStatus chptr.members who = some fl) :
    memberStatus (ms.foldl (joinMember dir) chptr).members who = some fl := by
  rw [memberStatus_foldl_joinMember hms, h, Option.some_or]

theorem StatusBatch.Paired.join (h : b.Paired) (who : Client) : (b.join who).Paired :=
  ⟨h.letters, h.length⟩

theorem paired_showMember (h : b.Paired) : (showMember dir chptr b m).Paired := by
  unfold showMember
  dsimp only
  rw [StatusBatch.statuses_eq_addAll]
  refine StatusBatch.paired_addAll ?_ StatusBatch.isSome_of_mem_statusLetters
  split
  · exact h
  · exact h.join _

theorem told_showMember (h : b.Paired) :
    (showMember dir chptr b m).told .add =
      b.told .add ++ (StatusBatch.statusLetters (dir.clients m.1).name m.2).map fun c =>
        statusChange .add c.1 c.2 := by
  have hjoin : ∀ who, (b.join who).told .add = b.told .add := by
    intro who
    simp [StatusBatch.told, StatusBatch.join, MemberLine.changes, StatusBatch.pending]
  unfold showMember
  dsimp only
  rw [StatusBatch.statuses_eq_addAll]
  split
  · exact StatusBatch.told_addAll (by decide) h StatusBatch.isSome_of_mem_statusLetters
  · rw [StatusBatch.told_addAll (by decide) (h.join _) StatusBatch.isSome_of_mem_statusLetters,
      hjoin]

theorem told_showNicks (dir : Directory) (chptr : Channel) (ms : List (Cid × Finset ChFlag))
    (h : b.Paired) :
    (showNicks dir chptr b ms).2.Paired ∧
      (showNicks dir chptr b ms).2.told .add =
        b.told .add ++ ms.flatMap fun m =>
          (StatusBatch.statusLetters (dir.clients m.1).name m.2).map fun c =>
            statusChange .add c.1 c.2 := by
  induction ms generalizing chptr b with
  | nil => exact ⟨h, by simp [showNicks]⟩
  | cons m ms ih =>
    have hnext : (showMember dir chptr b m).Paired := paired_showMember h
    obtain ⟨hpaired, htold⟩ := @ih _ (joinMember dir chptr m) hnext
    refine ⟨hpaired, ?_⟩
    rw [told_showMember h] at htold
    simpa [showNicks] using htold

/-- The lines and the letters behind them show a member the channel as it is. -/
structure Tracks (cl : Clients) (v : NickView) (chptr : Channel) (b : StatusBatch) : Prop where
  paired : b.Paired
  view : b.shown .add v = nickView cl chptr.members
  para : ∀ nick ∈ b.para, ∃ ms ∈ chptr.members, (cl ms.client).name = nick
  named : Named cl chptr.members

theorem Named.cons {cl : Clients} {members : List Membership} (h : Named cl members)
    {ms : Membership} (hms : (cl ms.client).isClient = true) : Named cl (ms :: members) where
  names := h.names
  clients := List.forall_mem_cons.mpr ⟨hms, h.clients⟩

theorem param_of_mem_pending {mdir : ModeDir} {c : LetterChange CStr} (h : c ∈ b.pending mdir) :
    ∃ nick ∈ b.para, c.param = some nick := by
  rw [StatusBatch.pending, ← map_uncurry_zip_eq_zipWith] at h
  obtain ⟨p, hp, rfl⟩ := List.mem_map.mp h
  exact ⟨p.2, (of_mem_zip hp).2, rfl⟩

theorem shown_join {who : Client} (h : who.name ∉ b.para) :
    (b.join who).shown .add v = update (b.shown .add v) who.name (some ∅) := by
  simp only [StatusBatch.shown, StatusBatch.join, StatusBatch.pending, foldl_append,
    foldl_cons, foldl_nil, NickView.read]
  refine NickView.foldl_change_update fun c hc heq => ?_
  obtain ⟨nick, hnick, hparam⟩ := param_of_mem_pending hc
  rw [heq] at hparam
  exact h (Option.some.inj hparam ▸ hnick)

theorem shown_statuses (h : b.Paired) (nick : CStr) (fl : Finset ChFlag) :
    (b.statuses nick fl).shown .add v =
      update (b.shown .add v) nick
        ((b.shown .add v nick).map fun old => old ∪ (fl ∩ opFlags)) := by
  rw [StatusBatch.statuses_eq_addAll, StatusBatch.shown_addAll (by decide) h
    StatusBatch.isSome_of_mem_statusLetters, NickView.foldl_statusLetters]

theorem mem_para_statuses {n nick : CStr} {fl : Finset ChFlag} (h : n ∈ (b.statuses nick fl).para) :
    n ∈ b.para ∨ n = nick := by
  rw [StatusBatch.statuses_eq_addAll] at h
  refine (StatusBatch.mem_para_addAll h).imp_right fun hmem => ?_
  obtain ⟨c, hc, rfl⟩ := List.mem_map.mp hmem
  exact StatusBatch.eq_of_mem_statusLetters c hc

theorem Tracks.step (h : Tracks dir.clients v chptr b) (hm : (dir.clients m.1).isClient = true)
    (hmore : ∀ held, memberStatus chptr.members m.1 = some held → m.2 ∩ opFlags ⊆ held) :
    Tracks dir.clients v (joinMember dir chptr m) (showMember dir chptr b m) := by
  have hlink : (findChannelLink dir.clients m.1 chptr).isSome =
      (memberStatus chptr.members m.1).isSome := isSome_findChannelLink hm
  have hname := nickView_name h.named hm
  cases hstatus : memberStatus chptr.members m.1 with
  | some held =>
    rw [hstatus] at hlink hname
    have hjoin : joinMember dir chptr m = chptr := by simp [joinMember, hlink]
    have hshow : showMember dir chptr b m = b.statuses (dir.clients m.1).name m.2 := by
      simp [showMember, hlink]
    rw [hjoin, hshow]
    refine ⟨hshow ▸ paired_showMember h.paired, ?_, ?_, h.named⟩
    · -- the status that is told is part of the one that is seen
      have hsame : held ∪ (m.2 ∩ opFlags) = held := Finset.union_eq_left.mpr (hmore held hstatus)
      rw [shown_statuses h.paired, h.view, hname, Option.map_some, hsame, ← hname,
        update_eq_self]
    · intro n hn
      rcases mem_para_statuses hn with hn | rfl
      · exact h.para n hn
      · obtain ⟨ms, hfind, -⟩ := Option.map_eq_some_iff.mp hstatus
        have hclient : ms.client = m.1 := by simpa using find?_some hfind
        exact ⟨ms, mem_of_find?_eq_some hfind, by rw [hclient]⟩
  | none =>
    rw [hstatus] at hlink
    have hjoin : joinMember dir chptr m = addUserToChannel dir.clients chptr m.1 m.2 := by
      simp [joinMember, hlink]
    have hshow : showMember dir chptr b m =
        (b.join (dir.clients m.1)).statuses (dir.clients m.1).name m.2 := by
      simp [showMember, hlink]
    have hnew : (dir.clients m.1).name ∉ b.para := by
      intro hmem
      obtain ⟨ms, hms, hsame⟩ := h.para _ hmem
      have hclient := h.named.names _ _ (h.named.clients ms hms) hm hsame
      have hnot := List.find?_eq_none.mp (Option.map_eq_none_iff.mp hstatus) ms hms
      exact hnot (by simpa using hclient)
    rw [hjoin, hshow]
    refine ⟨hshow ▸ paired_showMember h.paired, ?_, ?_, h.named.cons hm⟩
    · rw [shown_statuses (h.paired.join _), shown_join hnew, h.view]
      simp [addUserToChannel, nickView_cons]
    · intro n hn
      rcases mem_para_statuses hn with hn | rfl
      · obtain ⟨ms, hms, hsame⟩ := h.para n hn
        exact ⟨ms, mem_cons_of_mem _ hms, hsame⟩
      · exact ⟨_, mem_cons_self, rfl⟩

theorem Tracks.showNicks (h : Tracks dir.clients v chptr b)
    (hms : ∀ m ∈ ms, (dir.clients m.1).isClient = true)
    (hmore : ∀ m ∈ ms, ∀ held,
      memberStatus (ms.foldl (joinMember dir) chptr).members m.1 = some held →
        m.2 ∩ opFlags ⊆ held) :
    Tracks dir.clients v (ms.foldl (joinMember dir) chptr) (Ircd.showNicks dir chptr b ms).2 := by
  induction ms generalizing chptr b with
  | nil => exact h
  | cons m ms ih =>
    have hstep := h.step (hms m (by simp)) fun held hheld =>
      hmore m (by simp) held (status_of_member hms hheld)
    exact ih hstep (fun m' hm' => hms m' (mem_cons_of_mem _ hm'))
      fun m' hm' => hmore m' (mem_cons_of_mem _ hm')

end Loop

/-! ### When the views are right -/

section Announced

variable {env : SjoinEnv} {client source : Cid} {args : SjoinArgs} {chptr : Channel} {isnew : Bool}

theorem nickView_sjoinBody :
    nickView env.dir.clients (membersOf (sjoinBody env client source args chptr isnew).chan) =
      nickView env.dir.clients
        ((sjoinNamed env client (sjoinRule env args.newts chptr isnew) args.nicks).foldl
          (joinMember env.dir)
          (sjoinChannel (sjoinRule env args.newts chptr isnew) args.mode chptr)).members := by
  unfold sjoinBody sjoinNamed
  simp only [foldl_sjoinNick, foldl_sjoinMember_chptr]
  split
  · rename_i h
    rw [h.1]
    rfl
  · split
    · rfl
    · split
      · exact nickView_removeBanLists _
      · rfl

theorem isClient_of_mem_sjoinNamed {rule : TsRule} {nicks : CStr} :
    ∀ m ∈ sjoinNamed env client rule nicks, (env.dir.clients m.1).isClient = true :=
  fun _ hm => (isClient_of_mem_named hm).2

theorem memberStatus_final {rule : TsRule} {mode : Mode} {nicks : CStr} (who : Cid) :
    memberStatus ((sjoinNamed env client rule nicks).foldl (joinMember env.dir)
      (sjoinChannel rule mode chptr)).members who =
      heldStatus rule chptr.members (sjoinNamed env client rule nicks) who := by
  have hview : memberStatus (sjoinChannel rule mode chptr).members who =
      (sjoinChannel rule mode chptr).view.status who := rfl
  rw [memberStatus_foldl_joinMember isClient_of_mem_sjoinNamed, hview, view_sjoinChannel,
    heldStatus]
  congr 1
  cases h : rule.keepOurModes with
  | true => simp [View.settle, h, Channel.view]
  | false => simp [View.settle, h, Channel.view]

theorem Named.sjoinChannel {rule : TsRule} {mode : Mode}
    (h : Named env.dir.clients chptr.members) :
    Named env.dir.clients (Ircd.sjoinChannel rule mode chptr).members where
  names := h.names
  clients := by
    unfold Ircd.sjoinChannel
    split
    · exact h.clients
    · intro ms hms
      obtain ⟨ms', hms', rfl⟩ := List.mem_map.mp hms
      exact h.clients ms' hms'

theorem Named.foldl {chptr : Channel} {ms : List (Cid × Finset ChFlag)}
    (hms : ∀ m ∈ ms, (env.dir.clients m.1).isClient = true)
    (h : Named env.dir.clients chptr.members) :
    Named env.dir.clients (ms.foldl (joinMember env.dir) chptr).members := by
  induction ms generalizing chptr with
  | nil => exact h
  | cons m ms ih =>
    refine ih (fun m' hm' => hms m' (mem_cons_of_mem _ hm')) ?_
    unfold joinMember
    split
    · exact h
    · exact h.cons (hms m (by simp))

theorem read_sjoinChannel (env : SjoinEnv) (chptr : Channel) (rule : TsRule) (mode : Mode) :
    (if rule.keepOurModes then []
      else (removeOurModesLines env.dir.clients chptr.members).2).foldl NickView.read
        (nickView env.dir.clients chptr.members) =
      nickView env.dir.clients (sjoinChannel rule mode chptr).members := by
  unfold sjoinChannel
  split
  · rfl
  · rw [read_removeOurModes, removeOurModesLines_fst]
    rfl

theorem announced_iff {P : ChFlag → CStr → Prop} :
    (∀ line ∈ sjoinLines env client args chptr isnew, ∀ c ∈ line.changes, c.dir = .add →
      ∀ f nick, statusFlag c.letter = some f → c.param = some nick → P f nick) ↔
      ∀ m ∈ sjoinNamed env client (sjoinRule env args.newts chptr isnew) args.nicks,
        ∀ f ∈ m.2 ∩ opFlags, P f (env.dir.clients m.1).name := by
  set rule := sjoinRule env args.newts chptr isnew with hrule
  obtain ⟨hpaired, htold⟩ := told_showNicks env.dir (sjoinChannel rule args.mode chptr)
    (sjoinNamed env client rule args.nicks) StatusBatch.paired_empty
  have hadd : ModeDir.add ≠ .query := by decide
  have hfinish := StatusBatch.changes_finish hadd hpaired
  rw [htold] at hfinish
  unfold sjoinLines
  simp only [← hrule]
  constructor
  · intro hall m hm f hf
    obtain ⟨c, hc, hflag⟩ := StatusBatch.exists_mem_statusLetters.mpr hf
    have hmem : statusChange .add c.1 c.2 ∈
        ((showNicks env.dir (sjoinChannel rule args.mode chptr) {}
          (sjoinNamed env client rule args.nicks)).2.finish .add).flatMap MemberLine.changes := by
      rw [hfinish]
      exact mem_append_right _
        (List.mem_flatMap.mpr ⟨m, hm, List.mem_map.mpr ⟨c, hc, rfl⟩⟩)
    obtain ⟨line, hline, hchange⟩ := List.mem_flatMap.mp hmem
    have hnick := StatusBatch.eq_of_mem_statusLetters c hc
    exact hall line (mem_append_right _ hline) _ hchange rfl f _ hflag (by rw [hnick]; rfl)
  · intro hall line hline c hc hadd f nick hflag hparam
    rcases List.mem_append.mp hline with hline | hline
    · rcases List.mem_append.mp hline with hline | hline
      · -- our modes are only taken away
        split at hline
        · exact absurd hline not_mem_nil
        · rw [dir_of_mem_removeOurModes line hline c hc] at hadd
          exact absurd hadd (by decide)
      · split at hline
        · exact absurd hline not_mem_nil
        · obtain rfl := List.mem_singleton.mp hline
          rw [statusFlag_of_mem_final _ _ _ c hc] at hflag
          exact absurd hflag (Option.some_ne_none f).symm
    · have hmem := List.mem_flatMap.mpr ⟨line, hline, hc⟩
      rw [hfinish] at hmem
      obtain ⟨m, hm, hmem⟩ := List.mem_flatMap.mp hmem
      obtain ⟨l, hl, rfl⟩ := List.mem_map.mp hmem
      obtain rfl := Option.some.inj hparam
      rw [StatusBatch.eq_of_mem_statusLetters l hl]
      exact hall m hm f (StatusBatch.exists_mem_statusLetters.mp ⟨l, hl, hflag⟩)

/-- Past the creation of the channel, the views are right and nothing else is announced just when
no word says more than the status that the client has. -/
theorem sjoinBody_announced_iff (h : Named env.dir.clients chptr.members) :
    ((sjoinLines env client args chptr isnew).foldl NickView.read
        (nickView env.dir.clients chptr.members) =
          nickView env.dir.clients
            (membersOf (sjoinBody env client source args chptr isnew).chan) ∧
      ∀ line ∈ sjoinLines env client args chptr isnew, ∀ c ∈ line.changes, c.dir = .add →
        ∀ f nick, statusFlag c.letter = some f → c.param = some nick →
          ∃ fl, nickView env.dir.clients
            (membersOf (sjoinBody env client source args chptr isnew).chan) nick = some fl ∧
              f ∈ fl) ↔
      ∀ m ∈ sjoinNamed env client (sjoinRule env args.newts chptr isnew) args.nicks, ∀ held,
        heldStatus (sjoinRule env args.newts chptr isnew) chptr.members
          (sjoinNamed env client (sjoinRule env args.newts chptr isnew) args.nicks) m.1 =
            some held → m.2 ∩ opFlags ⊆ held := by
  rw [announced_iff, nickView_sjoinBody]
  set rule := sjoinRule env args.newts chptr isnew with hrule
  set nicks := sjoinNamed env client rule args.nicks with hnicks
  have hclients : ∀ m ∈ nicks, (env.dir.clients m.1).isClient = true := isClient_of_mem_sjoinNamed
  have hnamed : Named env.dir.clients
      (nicks.foldl (joinMember env.dir) (sjoinChannel rule args.mode chptr)).members :=
    Named.foldl hclients h.sjoinChannel
  -- the final view of a nick is the status that its client holds
  have hheld : ∀ m ∈ nicks, nickView env.dir.clients
      (nicks.foldl (joinMember env.dir) (sjoinChannel rule args.mode chptr)).members
        (env.dir.clients m.1).name = heldStatus rule chptr.members nicks m.1 := fun m hm =>
    (nickView_name hnamed (hclients m hm)).trans (memberStatus_final m.1)
  constructor
  · rintro ⟨-, htruthful⟩ m hm held hstatus f hf
    obtain ⟨fl, hfl, hmem⟩ := htruthful m hm f hf
    rw [hheld m hm, hstatus] at hfl
    exact Option.some.inj hfl ▸ hmem
  · intro hfresh
    have hstart : Tracks env.dir.clients
        (nickView env.dir.clients (sjoinChannel rule args.mode chptr).members)
        (sjoinChannel rule args.mode chptr) {} :=
      ⟨StatusBatch.paired_empty, rfl, fun _ hn => absurd hn not_mem_nil, h.sjoinChannel⟩
    have htracks := hstart.showNicks hclients fun m hm held hstatus =>
      hfresh m hm held ((memberStatus_final m.1).symm.trans hstatus)
    constructor
    · unfold sjoinLines
      simp only [← hrule, ← hnicks]
      have hfinal : ∀ v : NickView,
          (if (setFinalMode (sjoinChannel rule args.mode chptr).mode chptr.mode).1 = [] then []
            else [MemberLine.mode
              (setFinalMode (sjoinChannel rule args.mode chptr).mode chptr.mode).1
              (stringToArray (setFinalMode (sjoinChannel rule args.mode chptr).mode
                chptr.mode).2)]).foldl NickView.read v = v := by
        intro v
        split
        · rfl
        · exact read_final v
      have hstamps := read_sjoinChannel env chptr rule args.mode
      rw [foldl_append, foldl_append, hstamps, hfinal,
        StatusBatch.read_finish (by decide) htracks.paired]
      exact htracks.view
    · intro m hm f hf
      obtain ⟨held, hstatus⟩ : ∃ held, heldStatus rule chptr.members nicks m.1 = some held := by
        have hfound : (nicks.find? fun m' => m'.1 == m.1).isSome :=
          List.find?_isSome.mpr ⟨m, hm, by simp⟩
        apply Option.isSome_iff_exists.mp
        simp [heldStatus, hfound]
      exact ⟨held, (hheld m hm).trans hstatus, hfresh m hm held hstatus hf⟩

/-- The local members are told what the SJOIN did, and no status besides, just when each word of
the nick list says no more than the status that the client had on the channel, or has from the
first word that names it. -/
theorem sjoin_announced_iff {parv : List CStr} {chan : Option Channel}
    (h : Named env.dir.clients (membersOf chan)) :
    SjoinAnnounced env client source parv chan ↔ SjoinFresh env client source parv chan := by
  have hparts : SjoinAnnounced env client source parv chan ↔ _ ∧ _ :=
    ⟨fun h => ⟨h.views, h.truthful⟩, fun h => ⟨h.1, h.2⟩⟩
  -- an SJOIN that is not taken is not announced
  have hignored : msSjoinLines env client source parv chan = [] →
      (msSjoin env client source parv chan).chan = chan →
        SjoinAnnounced env client source parv chan := by
    intro hlines hchan
    refine hparts.mpr ⟨?_, ?_⟩
    · rw [hlines, hchan]
      rfl
    · rw [hlines]
      exact fun _ hline => absurd hline not_mem_nil
  cases hread : readSjoin env.dir source parv with
  | none =>
    apply iff_of_true (hignored (by simp [msSjoinLines, hread]) (by simp [msSjoin, hread]))
    intro args chptr isnew hargs
    exact absurd (hread.symm.trans hargs) (Option.some_ne_none _).symm
  | some args =>
    cases hcreate : getOrCreateChannel env.now args.chname chan with
    | none =>
      refine iff_of_true (hignored (by simp [msSjoinLines, hread, hcreate])
        (by simp [msSjoin, hread, hcreate])) ?_
      intro args' chptr isnew hargs hchan
      obtain rfl := Option.some.inj (hread.symm.trans hargs)
      exact absurd (hcreate.symm.trans hchan) (Option.some_ne_none _).symm
    | some created =>
      obtain ⟨chptr, isnew⟩ := created
      have hmembers : membersOf chan = chptr.members := by
        unfold getOrCreateChannel at hcreate
        split at hcreate
        · exact absurd hcreate (by simp)
        · cases chan with
          | some found =>
            obtain ⟨rfl, -⟩ := Prod.mk.inj (Option.some.inj hcreate)
            rfl
          | none =>
            obtain ⟨rfl, -⟩ := Prod.mk.inj (Option.some.inj hcreate)
            rfl
      have hlines : msSjoinLines env client source parv chan =
          sjoinLines env client args chptr isnew := by simp [msSjoinLines, hread, hcreate]
      have hresult : msSjoin env client source parv chan =
          sjoinBody env client source args chptr isnew := by simp [msSjoin, hread, hcreate]
      rw [hmembers] at h
      rw [hparts, hlines, hresult, hmembers, sjoinBody_announced_iff h]
      constructor
      · intro hfresh args' chptr' isnew' hargs hchan
        obtain rfl := Option.some.inj (hread.symm.trans hargs)
        obtain ⟨rfl, rfl⟩ := Prod.mk.inj (Option.some.inj (hcreate.symm.trans hchan))
        exact hfresh
      · intro hfresh
        exact hfresh args chptr isnew hread hcreate

end Announced

/-! ### An operator of a burst -/

theorem named_hub {members : List Membership} (h : ∀ ms ∈ members, ms.client = 2) :
    Named hubEnv.dir.clients members where
  names a b ha hb _ := (hub_client ha).trans (hub_client hb).symm
  clients ms hms := by
    rw [h ms hms]
    decide

/-- A burst that creates the channel shows its operator as one. -/
theorem sjoin_announced_newChannel :
    SjoinAnnounced hubEnv 1 1 ["200".toList, "#c".toList, "+nt".toList, "@nick".toList] none := by
  refine (sjoin_announced_iff (named_hub fun _ hms => absurd hms not_mem_nil)).mpr ?_
  intro args chptr isnew hargs hchan
  have hread : readSjoin hubEnv.dir 1 ["200".toList, "#c".toList, "+nt".toList, "@nick".toList] =
      some ⟨200, "#c".toList, "+nt".toList, ⟨{.noprivmsgs, .topiclimit}, 0, []⟩,
        "@nick".toList⟩ := by decide
  obtain rfl := Option.some.inj (hread.symm.trans hargs)
  have hcreate : getOrCreateChannel hubEnv.now "#c".toList none =
      some (⟨"#c".toList, 1000, Mode.zero, [], [], [], []⟩, true) := by decide
  obtain ⟨rfl, rfl⟩ := Prod.mk.inj (Option.some.inj (hcreate.symm.trans hchan))
  have hnicks : sjoinNamed hubEnv 1 (sjoinRule hubEnv 200
      ⟨"#c".toList, 1000, Mode.zero, [], [], [], []⟩ true) "@nick".toList = [(2, {.chanop})] := by
    decide
  dsimp only
  rw [hnicks]
  intro m hm held hheld
  obtain rfl := List.mem_singleton.mp hm
  obtain rfl : {.chanop} = held := Option.some.inj ((by decide : _ = _).symm.trans hheld)
  decide

/-- A channel with a client that has no status. -/
def plainChannel : Channel := ⟨"#c".toList, 200, Mode.zero, [⟨2, ∅, false⟩], [], [], []⟩

/-- The members are told that the client is an operator now, and it is not. -/
theorem sjoin_tells_op_not_given :
    Named hubEnv.dir.clients (membersOf (some plainChannel)) ∧
      ¬SjoinAnnounced hubEnv 1 1 ["200".toList, "#c".toList, "+".toList, "@nick".toList]
        (some plainChannel) := by
  refine ⟨named_hub (by simp [membersOf, plainChannel]), fun h => ?_⟩
  have htold : MemberLine.mode "+o".toList ["nick".toList] ∈ msSjoinLines hubEnv 1 1
      ["200".toList, "#c".toList, "+".toList, "@nick".toList] (some plainChannel) := by decide
  obtain ⟨fl, hfl, hop⟩ := h.truthful _ htold (statusChange .add 'o' "nick".toList) (by decide) rfl
    .chanop "nick".toList rfl rfl
  have hstored : nickView hubEnv.dir.clients (membersOf (msSjoin hubEnv 1 1
      ["200".toList, "#c".toList, "+".toList, "@nick".toList] (some plainChannel)).chan)
        "nick".toList = some ∅ := by decide
  obtain rfl := Option.some.inj (hstored.symm.trans hfl)
  exact absurd hop (Finset.notMem_empty _)

end Ircd
