import Ircd.Ban
import Ircd.Lib.Run

/-!
The mask lists of a channel over runs of `add_id` and `del_id`.

No mask stands twice on a list, the lengths that are kept are right, and `del_id` takes away
the one entry that is equal to the mask it is given. What `add_id` adds is taken away again by
the same text, unless the source was local and its stars were collapsed into another mask
(`ban_lists_lawful`): `del_id` does not collapse.
-/

namespace Ircd

/-- A call of `add_id` or `del_id`. -/
inductive ListOp where
  | add (now : Int) (client : Client) (banid : CStr) (type : BanType)
  | del (banid : CStr) (type : BanType)

def Channel.listStep (cf : Config) (chptr : Channel) : ListOp → Channel
  | .add now client banid type => (addId cf now client chptr banid type).chptr
  | .del banid type => (delId cf chptr banid type).chptr

/-- The entry has the three parts of the mask. -/
def Ban.hasParts (bp : Ban) (parts : CStr × CStr × CStr) : Bool :=
  bp.sameMask parts.1 parts.2.1 parts.2.2

/-- What holds of the three lists between two calls. -/
structure Channel.Lawful (chptr : Channel) : Prop where
  distinct : ∀ type, (chptr.list type).Pairwise fun a b =>
    a.hasParts (b.name, b.username, b.host) = false
  len : ∀ type, ∀ bp ∈ chptr.list type,
    bp.len = (bp.name.length + bp.username.length + bp.host.length : Nat)

section

variable {cf : Config} {now : Int} {client : Client} {chptr : Channel} {banid : CStr}
  {type t : BanType} {bp a b : Ban} {parts : CStr × CStr × CStr}

theorem Ban.hasParts_iff : bp.hasParts parts = true ↔ ircEq bp.name parts.1 = true ∧
    ircEq bp.username parts.2.1 = true ∧ ircEq bp.host parts.2.2 = true := by
  simp [hasParts, sameMask, Bool.and_eq_true, and_assoc]

theorem Ban.hasParts_self : bp.hasParts (bp.name, bp.username, bp.host) = true :=
  hasParts_iff.mpr ⟨ircEq_refl _, ircEq_refl _, ircEq_refl _⟩

theorem Ban.hasParts_symm (h : a.hasParts (b.name, b.username, b.host) = true) :
    b.hasParts (a.name, a.username, a.host) = true := by
  obtain ⟨hn, hu, hh⟩ := hasParts_iff.mp h
  exact hasParts_iff.mpr ⟨ircEq_symm hn, ircEq_symm hu, ircEq_symm hh⟩

theorem Ban.hasParts_trans (ha : a.hasParts parts = true) (hb : b.hasParts parts = true) :
    a.hasParts (b.name, b.username, b.host) = true := by
  obtain ⟨hn, hu, hh⟩ := hasParts_iff.mp ha
  obtain ⟨hn', hu', hh'⟩ := hasParts_iff.mp hb
  exact hasParts_iff.mpr ⟨ircEq_trans hn (ircEq_symm hn'), ircEq_trans hu (ircEq_symm hu'),
    ircEq_trans hh (ircEq_symm hh')⟩

theorem setList_list_other (chptr : Channel) (list : List Ban) (h : t ≠ type) :
    (chptr.setList type list).list t = chptr.list t := by
  cases t <;> cases type <;> first | rfl | exact absurd rfl h

/-! ### What the two functions do to the lists -/

/-- The entry that `add_id` makes. -/
def newBan (cf : Config) (now : Int) (client : Client) (banid : CStr) : Ban :=
  let (name, user, host) := splitNuh cf.nicklen (addIdMask client banid)
  { len := (nuhText name user host).length - 2, name := name, username := user, host := host
    who := banWho client, setAt := now }

/-- There is room for the source, and the mask is not listed. -/
def Accepts (cf : Config) (client : Client) (chptr : Channel) (banid : CStr) (type : BanType) :
    Prop :=
  (client.myClient = true → chptr.numMask < cf.channel.maxBans) ∧
    ∀ bp ∈ chptr.list type, bp.hasParts (splitNuh cf.nicklen (addIdMask client banid)) = false

theorem ok_addId : (addId cf now client chptr banid type).ok = true ↔
    Accepts cf client chptr banid type := by
  unfold addId Accepts
  split
  · rename_i hfull
    refine iff_of_false (by simp) fun h => ?_
    exact absurd (h.1 hfull.1) (by omega)
  · rename_i hroom
    have hspace : client.myClient = true → chptr.numMask < cf.channel.maxBans := by
      intro hmine
      by_contra hfull
      exact hroom ⟨hmine, by omega⟩
    dsimp only
    rw [selectList_list]
    split
    · rename_i hlisted
      refine iff_of_false (by simp) fun h => ?_
      obtain ⟨bp, hbp, hsame⟩ := List.any_eq_true.mp hlisted
      have hnot := h.2 bp hbp
      rw [Ban.hasParts, hsame] at hnot
      cases hnot
    · rename_i hnew
      refine iff_of_true rfl ⟨hspace, fun bp hbp => ?_⟩
      by_contra hsame
      exact hnew (List.any_eq_true.mpr ⟨bp, hbp, by simpa [Ban.hasParts] using hsame⟩)

theorem list_addId (t : BanType) : (addId cf now client chptr banid type).chptr.list t =
    if (addId cf now client chptr banid type).ok = true ∧ t = type then
      newBan cf now client banid :: chptr.list t
    else chptr.list t := by
  unfold addId
  split
  · simp
  · dsimp only
    split
    · simp
    · by_cases ht : t = type
      · subst ht
        simp [newBan]
      · rw [if_neg fun h => ht h.2, setList_list_other _ _ ht, selectList_list]

theorem list_delId (t : BanType) : (delId cf chptr banid type).chptr.list t =
    if t = type then
      (chptr.list t).eraseP fun bp => bp.hasParts (splitNuh cf.nicklen (checkString banid))
    else chptr.list t := by
  unfold delId
  dsimp only
  by_cases ht : t = type
  · subst ht
    rw [if_pos rfl, list_setList, selectList_list]
    rfl
  · rw [if_neg ht, setList_list_other _ _ ht, selectList_list]

theorem newBan_parts (now : Int) :
    ((newBan cf now client banid).name, (newBan cf now client banid).username,
      (newBan cf now client banid).host) = splitNuh cf.nicklen (addIdMask client banid) := rfl

theorem newBan_len : (newBan cf now client banid).len =
    ((newBan cf now client banid).name.length + (newBan cf now client banid).username.length +
      (newBan cf now client banid).host.length : Nat) := by
  simp only [newBan, nuhText, List.length_append, List.length_cons]
  push_cast
  omega

/-! ### The laws -/

theorem eraseP_eq_filter {α : Type*} {p : α → Bool} {l : List α}
    (h : l.Pairwise fun a b => p a = true → p b = false) :
    l.eraseP p = l.filter fun a => !p a := by
  induction l with
  | nil => rfl
  | cons a l ih =>
    obtain ⟨ha, hl⟩ := List.pairwise_cons.mp h
    cases hpa : p a with
    | true =>
      rw [List.eraseP_cons_of_pos hpa, List.filter_cons_of_neg (by simp [hpa])]
      refine (List.filter_eq_self.mpr fun b hb => ?_).symm
      simp [ha b hb hpa]
    | false =>
      rw [List.eraseP_cons_of_neg (by simp [hpa]), List.filter_cons_of_pos (by simp [hpa]),
        ih hl]

theorem Channel.Lawful.eraseP (h : chptr.Lawful) (t : BanType) (parts : CStr × CStr × CStr) :
    ((chptr.list t).eraseP fun bp => bp.hasParts parts) =
      (chptr.list t).filter fun bp => !bp.hasParts parts := by
  refine eraseP_eq_filter ((h.distinct t).imp fun {a b} hab hpa => ?_)
  by_contra hpb
  have hsame := Ban.hasParts_trans hpa (by simpa using hpb)
  rw [hab] at hsame
  cases hsame

theorem Channel.Lawful.listStep (h : chptr.Lawful) (op : ListOp) :
    (chptr.listStep cf op).Lawful := by
  cases op with
  | add now client banid type =>
    constructor
    · intro t
      rw [Channel.listStep, list_addId]
      split
      · rename_i hnew
        obtain ⟨hok, rfl⟩ := hnew
        refine List.pairwise_cons.mpr ⟨fun b hb => ?_, h.distinct t⟩
        by_contra hsame
        have hlisted := (ok_addId.mp hok).2 b hb
        rw [← newBan_parts now, Ban.hasParts_symm (by simpa using hsame)] at hlisted
        cases hlisted
      · exact h.distinct t
    · intro t bp hbp
      rw [Channel.listStep, list_addId] at hbp
      split at hbp
      · rcases List.mem_cons.mp hbp with rfl | hold
        · exact newBan_len
        · exact h.len t bp hold
      · exact h.len t bp hbp
  | del banid type =>
    have hsub : ∀ t, ((chptr.listStep cf (.del banid type)).list t).Sublist (chptr.list t) := by
      intro t
      rw [Channel.listStep, list_delId]
      split
      · exact List.eraseP_sublist
      · exact List.Sublist.refl _
    exact ⟨fun t => (h.distinct t).sublist (hsub t),
      fun t bp hbp => h.len t bp ((hsub t).subset hbp)⟩

theorem numMask_eq (chptr : Channel) : chptr.numMask =
    (chptr.list .ban).length + (chptr.list .exception).length + (chptr.list .invex).length := rfl

theorem numMask_addId : (addId cf now client chptr banid type).chptr.numMask =
    chptr.numMask + if (addId cf now client chptr banid type).ok = true then 1 else 0 := by
  simp only [numMask_eq, list_addId]
  cases type <;> split_ifs <;> simp_all <;> omega

/-- The stars of the mask may be collapsed without a change of its three parts. -/
def KeepsParts (cf : Config) (client : Client) (banid : CStr) : Prop :=
  (newBan cf 0 client banid).hasParts (splitNuh cf.nicklen (checkString banid)) = true

/-- What is asked of the lists of a channel, and of one further mask from a source. -/
structure Channel.BanLaws (cf : Config) (chptr : Channel) (now : Int) (client : Client)
    (banid : CStr) (type : BanType) : Prop where
  lawful : chptr.Lawful
  bounded : client.myClient = true →
    cf.channel.maxBans < (addId cf now client chptr banid type).chptr.numMask →
      (addId cf now client chptr banid type).chptr.numMask = chptr.numMask
  removes : ∀ t, (delId cf chptr banid type).chptr.list t =
    (chptr.list t).filter fun bp =>
      !(decide (t = type) && bp.hasParts (splitNuh cf.nicklen (checkString banid)))
  restores : (addId cf now client chptr banid type).ok = true →
    ∀ t, (delId cf (addId cf now client chptr banid type).chptr banid type).chptr.list t =
      chptr.list t

theorem restores_iff (hok : (addId cf now client chptr banid type).ok = true) :
    (∀ t, (delId cf (addId cf now client chptr banid type).chptr banid type).chptr.list t =
      chptr.list t) ↔ KeepsParts cf client banid := by
  have hparts : (newBan cf now client banid).hasParts (splitNuh cf.nicklen (checkString banid)) =
      (newBan cf 0 client banid).hasParts (splitNuh cf.nicklen (checkString banid)) := rfl
  constructor
  · intro hall
    have htype := hall type
    rw [list_delId, if_pos rfl, list_addId, if_pos ⟨hok, rfl⟩] at htype
    by_contra hdiffer
    -- the new entry stays, and nothing like it was on the list
    rw [List.eraseP_cons_of_neg (by rw [hparts]; exact hdiffer)] at htype
    have hin : newBan cf now client banid ∈ chptr.list type := htype ▸ List.mem_cons_self
    have hnot := (ok_addId.mp hok).2 _ hin
    rw [← newBan_parts now, Ban.hasParts_self] at hnot
    cases hnot
  · intro hkeeps t
    rw [list_delId, list_addId]
    by_cases ht : t = type
    · rw [if_pos ht, if_pos ⟨hok, ht⟩]
      exact List.eraseP_cons_of_pos (hparts.trans hkeeps)
    · rw [if_neg ht, if_neg fun h => ht h.2]

/-- After any calls of `add_id` and `del_id` the laws hold for a further mask if and only if the
mask is refused, or its stars may be collapsed. -/
theorem ban_laws_iff (cf : Config) (chptr : Channel) (hempty : ∀ t, chptr.list t = [])
    (ops : List ListOp) (now : Int) (client : Client) (banid : CStr) (type : BanType) :
    (Run.exec (Channel.listStep cf) chptr ops).BanLaws cf now client banid type ↔
      (Accepts cf client (Run.exec (Channel.listStep cf) chptr ops) banid type →
        KeepsParts cf client banid) := by
  have hstart : chptr.Lawful := ⟨fun t => by simp [hempty], fun t => by simp [hempty]⟩
  have hlawful : (Run.exec (Channel.listStep cf) chptr ops).Lawful :=
    Run.inv_exec (fun _ op h _ => h.listStep op) hstart (Run.guarded_true _ ops)
  generalize Run.exec (Channel.listStep cf) chptr ops = chptr at hlawful ⊢
  constructor
  · intro h hnew
    exact (restores_iff (ok_addId.mpr hnew)).mp (h.restores (ok_addId.mpr hnew))
  · intro hkeeps
    refine
      { lawful := hlawful
        bounded := fun hmine hfull => ?_
        removes := fun t => ?_
        restores := fun hok => (restores_iff hok).mpr (hkeeps (ok_addId.mp hok)) }
    · rw [numMask_addId] at hfull ⊢
      by_cases hok : (addId cf now client chptr banid type).ok = true
      · have hroom := (ok_addId.mp hok).1 hmine
        rw [if_pos hok] at hfull
        omega
      · rw [if_neg hok, Nat.add_zero]
    · rw [list_delId]
      by_cases ht : t = type
      · rw [if_pos ht, hlawful.eraseP]
        simp [ht]
      · rw [if_neg ht]
        simp [ht]

end

def localSource : Client :=
  { (default : Client) with status := .client, localClient := some ⟨0, 0⟩ }

def roomyConfig : Config :=
  { plainConfig with channel := { (default : ConfigChannel) with maxBans := 25 } }

theorem ban_laws_iff_oneStar :
    (Run.exec (Channel.listStep roomyConfig) default
      [.add 5 localSource "a!*@b".toList .ban]).BanLaws
      roomyConfig 7 localSource "*!*@c".toList .ban :=
  (ban_laws_iff roomyConfig default (fun t => by cases t <;> rfl) _ 7 localSource "*!*@c".toList
    .ban).mpr fun _ => by unfold KeepsParts; decide

/-- A user bans `a**b`, which becomes `a*b`, and cannot take it away by the same text. -/
theorem collapsed_ban_stays :
    ¬∀ (cf : Config) (chptr : Channel), (∀ t, chptr.list t = []) →
      ∀ (ops : List ListOp) (now : Int) (client : Client) (banid : CStr) (type : BanType),
        (Run.exec (Channel.listStep cf) chptr ops).BanLaws cf now client banid type := by
  intro hall
  have hlaws := hall roomyConfig default (fun t => by cases t <;> rfl) [] 7 localSource
    "a**b".toList .ban
  have hback := hlaws.restores (by decide) .ban
  revert hback
  decide

end Ircd
