import Ircd.UserModes
import Mathlib.Data.Finset.Card

/-!
The buffers that `send_umode` writes to.

The modes of a user that is introduced stand behind one sign, one letter each
(`length_sendUmode_intro`). For a user of this server the mask leaves four of them; for others
nothing is left out, and the twelve bytes of `sendnick_TS` hold ten letters
(`umode_texts_fit_iff`).
-/

namespace Ircd

/-- The size of `ubuf` in `sendnick_TS` and `introduce_client`. -/
def UBUF_SIZE : Nat := 12

/-! ### How a user gets its modes -/

/-- How a user comes to be known: by `register_local_user`, or by a NICK or UID of a server. -/
inductive UmodeStart
  | registered (invisibleOnConnect : Bool)
  | introduced (parv4 : CStr)
  deriving DecidableEq, Repr

def UmodeStart.user : UmodeStart → ModeUser
  | .registered invisibleOnConnect => ⟨if invisibleOnConnect then {.invisible} else ∅, some {}⟩
  | .introduced parv4 => clientFromServer parv4

/-- What changes the modes of a user, under the configuration of the moment: a MODE line, which
comes from its server if it is not on this one, or OPER. -/
inductive UmodeOp
  | mode (conf : UmodeConf) (modes : List CStr)
  | operUp (conf : UmodeConf) (port : OperFlags)

def ModeUser.act (user : ModeUser) : UmodeOp → ModeUser
  | .mode conf modes => (setUserMode conf (!user.myConnect) user modes).1
  | .operUp conf port => if user.myConnect && !user.isOper then operUp conf user port else user

/-- What `send_umode` writes for the user is shorter than the buffer it is written to, in
`sendnick_TS`, and in `send_umode_out` from any earlier modes and with any mask. -/
structure TextsFit (user : ModeUser) : Prop where
  sendnick : (sendUmode user ∅ (sendmask user)).length < UBUF_SIZE
  out : ∀ old mask, (sendUmode user old mask).length < IRCD_BUFSIZE

/-- The user is on this server, or has no more modes than fit. -/
def FewModes (user : ModeUser) : Prop := user.myConnect = true ∨ user.umodes.card ≤ UBUF_SIZE - 2

/-! ### The length of the text -/

/-- The modes of a new user that get into the text. -/
def shownModes (user : ModeUser) (mask : Finset UMode) : Finset UMode :=
  user.umodes.filter fun flag => user.myConnect = true → flag ∈ mask

section

variable {user : ModeUser} {old mask : Finset UMode}

theorem length_umodeText_le (what : Option Bool) (l : List (Char × UMode)) :
    (umodeText user old mask what l).length ≤ 2 * l.length := by
  induction l generalizing what with
  | nil => simp [umodeText]
  | cons p l ih =>
    obtain ⟨i, flag⟩ := p
    have hsame := ih what
    have hdel := ih (some false)
    have hadd := ih (some true)
    unfold umodeText
    simp only [List.length_cons]
    split
    · omega
    · split
      · split
        · simp only [List.length_cons]
          omega
        · simp only [List.length_cons]
          omega
      · split
        · split
          · simp only [List.length_cons]
            omega
          · simp only [List.length_cons]
            omega
        · omega

theorem length_umodeText_intro (l : List (Char × UMode)) :
    (umodeText user ∅ mask (some true) l).length =
      (l.filter fun p => decide (p.2 ∈ shownModes user mask)).length := by
  induction l with
  | nil => rfl
  | cons p l ih =>
    obtain ⟨i, flag⟩ := p
    have hdel : ¬(flag ∈ (∅ : Finset UMode) ∧ flag ∉ user.umodes) := fun h => by simp at h
    have hadd : (flag ∉ (∅ : Finset UMode) ∧ flag ∈ user.umodes) ↔ flag ∈ user.umodes :=
      and_iff_right (Finset.notMem_empty flag)
    rw [umodeText, if_neg hdel]
    by_cases hmask : (user.myConnect && !decide (flag ∈ mask)) = true
    · have hout : flag ∉ shownModes user mask := by
        simp only [Bool.and_eq_true, Bool.not_eq_true', decide_eq_false_iff_not] at hmask
        intro hin
        exact hmask.2 ((Finset.mem_filter.mp hin).2 hmask.1)
      rw [if_pos hmask, List.filter_cons_of_neg (by simpa using hout), ih]
    have hpass : user.myConnect = true → flag ∈ mask := by
      intro hmine
      by_contra hnot
      exact hmask (by simp [hmine, hnot])
    rw [if_neg hmask]
    by_cases hset : flag ∈ user.umodes
    · have hin : flag ∈ shownModes user mask := Finset.mem_filter.mpr ⟨hset, hpass⟩
      rw [if_pos (hadd.mpr hset), if_pos rfl, List.filter_cons_of_pos (by simpa using hin),
        List.length_cons, List.length_cons, ih]
    · have hout : flag ∉ shownModes user mask := fun hin => hset (Finset.mem_filter.mp hin).1
      rw [if_neg (fun h => hset (hadd.mp h)), List.filter_cons_of_neg (by simpa using hout), ih]

theorem length_filter_umodeLetters (modes : Finset UMode) :
    (umodeLetters.filter fun p => decide (p.2 ∈ modes)).length = modes.card := by
  have hnodup : (umodeLetters.map Prod.snd).Nodup := by decide
  have hall : ((umodeLetters.map Prod.snd).filter fun flag => decide (flag ∈ modes)).toFinset =
      modes := by
    ext flag
    obtain ⟨i, hi⟩ := mem_umodeLetters flag
    have hmem : flag ∈ umodeLetters.map Prod.snd := List.mem_map.mpr ⟨(i, flag), hi, rfl⟩
    simp only [List.mem_toFinset, List.mem_filter, hmem, true_and, decide_eq_true_eq]
  have hlength := List.toFinset_card_of_nodup (hnodup.filter fun flag => decide (flag ∈ modes))
  rw [hall, List.filter_map, List.length_map] at hlength
  exact hlength.symm

theorem length_sendUmode_intro :
    (sendUmode user ∅ mask).length < UBUF_SIZE ↔
      (shownModes user mask).card ≤ UBUF_SIZE - 2 := by
  have hcard : (umodeText user ∅ mask (some true) umodeLetters).length =
      (shownModes user mask).card := by
    rw [length_umodeText_intro, length_filter_umodeLetters]
  rw [sendUmode, ← hcard]
  rcases umodeText_intro user mask umodeLetters with ⟨hnone, hsome⟩ | hplus
  · rw [hnone, hsome]
    decide
  · rw [hplus, List.length_cons]
    unfold UBUF_SIZE
    omega

theorem card_shownModes_le (hmask : mask ⊆ SEND_UMODES)
    (huser : user.myConnect = true ∨ user.umodes ⊆ SEND_UMODES) :
    (shownModes user mask).card ≤ UBUF_SIZE - 2 := by
  have hsub : shownModes user mask ⊆ SEND_UMODES := by
    intro flag hflag
    obtain ⟨hset, hshown⟩ := Finset.mem_filter.mp hflag
    exact huser.elim (fun hmine => hmask (hshown hmine)) fun hsend => hsend hset
  exact (Finset.card_le_card hsub).trans (by decide)

theorem shownModes_remote (h : user.myConnect = false) : shownModes user mask = user.umodes :=
  Finset.filter_true_of_mem fun _ _ hmine => by simp [h] at hmine

end

theorem sendmask_subset (user : ModeUser) : sendmask user ⊆ SEND_UMODES := by
  unfold sendmask
  split
  · exact Finset.erase_subset _ _
  · exact Finset.Subset.refl _

theorem length_sendUmode_lt (user : ModeUser) (old mask : Finset UMode) :
    (sendUmode user old mask).length < IRCD_BUFSIZE :=
  (length_umodeText_le none umodeLetters).trans_lt (by decide)

theorem textsFit_iff (user : ModeUser) : TextsFit user ↔ FewModes user := by
  have hfit : TextsFit user ↔ (shownModes user (sendmask user)).card ≤ UBUF_SIZE - 2 := by
    rw [← length_sendUmode_intro]
    exact ⟨TextsFit.sendnick, fun h => ⟨h, length_sendUmode_lt user⟩⟩
  rw [hfit, FewModes]
  by_cases hmine : user.myConnect = true
  · exact iff_of_true (card_shownModes_le (sendmask_subset user) (.inl hmine)) (.inl hmine)
  · rw [shownModes_remote (Bool.eq_false_iff.mpr hmine)]
    exact (or_iff_right hmine).symm

/-! ### Runs -/

theorem umodes_start (start : UmodeStart) : start.user.umodes ⊆ SEND_UMODES := by
  cases start with
  | registered invisibleOnConnect => cases invisibleOnConnect <;> decide
  | introduced parv4 =>
    change parv4.tail.foldl introLetter ∅ ⊆ SEND_UMODES
    have hloop : ∀ (text : CStr) (umodes : Finset UMode), umodes ⊆ SEND_UMODES →
        text.foldl introLetter umodes ⊆ SEND_UMODES := by
      intro text
      induction text with
      | nil => exact fun _ h => h
      | cons m text ih =>
        intro umodes h
        refine ih _ ?_
        unfold introLetter
        split
        · split
          · rename_i hsend
            exact Finset.insert_subset hsend h
          · exact h
        · exact h
    exact hloop _ _ (Finset.empty_subset _)

theorem fewModes_start (start : UmodeStart) : FewModes start.user :=
  .inr ((Finset.card_le_card (umodes_start start)).trans (by decide))

/-- The text of `introduce_client` fits for every user, and all the others do as long as the
user is on this server or no MODE line leaves it with more modes than fit. -/
theorem umode_texts_fit_iff (start : UmodeStart) (ops : List UmodeOp) :
    (sendUmode start.user ∅ SEND_UMODES).length < UBUF_SIZE ∧
      ((∀ done, done <+: ops → TextsFit (Run.exec ModeUser.act start.user done)) ↔
        Run.Guarded ModeUser.act (fun user op => FewModes (user.act op)) start.user ops) := by
  constructor
  · rw [length_sendUmode_intro]
    exact card_shownModes_le (Finset.Subset.refl _) (.inr (umodes_start start))
  · have hrun := @Run.prefixes_iff_guarded _ _ ModeUser.act
      (fun user op => FewModes (user.act op)) FewModes TextsFit (fun _ _ => True)
      (fun _ _ _ hok => hok) (fun user h => (textsFit_iff user).mpr h) (fun _ _ _ _ => trivial)
      (fun user op _ hnot hfit => hnot ((textsFit_iff _).mp hfit)) start.user ops
      (fewModes_start start)
    rw [← hrun]
    exact forall₂_congr fun done _ => (and_iff_left fun _ _ => trivial).symm

def elevenModes : ModeUser :=
  Run.exec ModeUser.act (UmodeStart.introduced ['+']).user
    [.mode ⟨∅, ∅⟩ ["+DGbcdfgikrs".toList]]

theorem eleven_modes_overrun : ¬(sendUmode elevenModes ∅ (sendmask elevenModes)).length <
    UBUF_SIZE := by
  decide

end Ircd
