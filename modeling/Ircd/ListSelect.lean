import Ircd.ListChannels

/-!
What `LIST` selects by its options, and what it reports.

`SelectedBy` says what the options ask for: each numeric option is a condition on the channel
of its own, and a channel is shown if one of the masks to show matches. The code keeps one
number of each kind, the last, and asks for all masks. `list_selects_iff` says for which
options and channels this comes to the same.

- `doList_task`: what the loop in `do_list` has stored at its end.
- `reported_pos_iff`: what a request that has come to its end has reported.
-/

namespace Ircd

open List

/-! ### What the options ask for -/

/-- The condition on a channel that a numeric option stands for. -/
def optionAsks (now : Int) (opt : CStr) (ch : ListedChannel) : Prop :=
  match opt with
  | '<' :: n => (ch.members.length : Int) < atoi n
  | '>' :: n => atoi n < ch.members.length
  | 'C' :: '<' :: n | 'c' :: '<' :: n => ch.channelts ≠ 0 → ch.channelts ≤ now - 60 * atoi n
  | 'C' :: '>' :: n | 'c' :: '>' :: n => ch.channelts ≠ 0 → now - 60 * atoi n ≤ ch.channelts
  | 'T' :: '<' :: n | 't' :: '<' :: n => ch.topicTime ≠ 0 ∧ now - 60 * atoi n ≤ ch.topicTime
  | 'T' :: '>' :: n | 't' :: '>' :: n => ch.topicTime ≠ 0 ∧ ch.topicTime ≤ now - 60 * atoi n
  | _ => True

def isShowMask (opt : CStr) : Bool :=
  match opt with
  | [] => false
  | c :: _ => c ∉ ['<', '>', '-', 'C', 'c', 'T', 't', '!']

def showMasks (opts : List CStr) : List CStr := opts.filter isShowMask

def hideMasks (opts : List CStr) : List CStr :=
  opts.filterMap fun opt => if opt.head? = some '!' then some opt.tail else none

/-- The client may see the channel in a list. -/
def listVisible (source : Nat) (remoteRequest : Bool) (chname : CStr) (ch : ListedChannel) : Bool :=
  !(remoteRequest && chname.head? == some '&') && !(ch.secret && !ch.members.contains source)

/-- The options of a request of the client `source` select the channel. -/
structure SelectedBy (source : Nat) (remoteRequest : Bool) (now : Int) (opts : List CStr)
    (chname : CStr) (ch : ListedChannel) : Prop where
  visible : listVisible source remoteRequest chname ch = true
  shown : showMasks opts = [] ∨ ∃ mask ∈ showMasks opts, matchChan mask chname = true
  hidden : ∀ mask ∈ hideMasks opts, matchChan mask chname = false
  bounds : ∀ opt ∈ opts, optionAsks now opt ch

/-! ### What the code keeps -/

/-- The fields of a request that hold a number. -/
inductive BoundKind where
  | usersMax
  | usersMin
  | createdMax
  | createdMin
  | topictsMax
  | topictsMin
  deriving DecidableEq, Repr

def ListFilters.field (lt : ListFilters) : BoundKind → Nat
  | .usersMax => lt.usersMax
  | .usersMin => lt.usersMin
  | .createdMax => lt.createdMax
  | .createdMin => lt.createdMin
  | .topictsMax => lt.topictsMax
  | .topictsMin => lt.topictsMin

/-- What `list_one_channel` compares with the field. -/
def BoundKind.admits (kind : BoundKind) (n : Nat) (ch : ListedChannel) : Bool :=
  match kind with
  | .usersMax => decide (unsignedInt ch.members.length ≤ n)
  | .usersMin => decide (n ≤ unsignedInt ch.members.length)
  | .createdMax => ch.channelts == 0 || decide (unsignedInt ch.channelts ≤ n)
  | .createdMin => ch.channelts == 0 || decide (n ≤ unsignedInt ch.channelts)
  | .topictsMax => decide ((if ch.topicTime ≠ 0 then unsignedInt ch.topicTime else UINT_MAX) ≤ n)
  | .topictsMin => decide (n ≤ unsignedInt ch.topicTime)

def optionSets (now : Int) (opt : CStr) : Option (BoundKind × Nat) :=
  match opt with
  | '<' :: n => some (.usersMax, unsignedInt (atoi n - 1))
  | '>' :: n => some (.usersMin, unsignedInt (atoi n + 1))
  | 'C' :: '<' :: n | 'c' :: '<' :: n => some (.createdMax, unsignedInt (now - 60 * atoi n))
  | 'C' :: '>' :: n | 'c' :: '>' :: n => some (.createdMin, unsignedInt (now - 60 * atoi n))
  | 'T' :: '<' :: n | 't' :: '<' :: n => some (.topictsMin, unsignedInt (now - 60 * atoi n))
  | 'T' :: '>' :: n | 't' :: '>' :: n => some (.topictsMax, unsignedInt (now - 60 * atoi n))
  | _ => none

/-- The number that the last option of a kind sets. -/
def lastOf (now : Int) (kind : BoundKind) (opts : List CStr) : Option Nat :=
  (opts.reverse.filterMap (optionSets now)).lookup kind

/-- The numbers that are kept admit the channel. -/
def WithinLast (now : Int) (opts : List CStr) (ch : ListedChannel) : Prop :=
  ∀ kind n, lastOf now kind opts = some n → kind.admits n ch = true

/-- No mask to show has a wildcard, and there are some. -/
def onlyNames (opts : List CStr) : Prop :=
  showMasks opts ≠ [] ∧ ∀ mask ∈ showMasks opts,
    hasWildcards (if isChanPrefix mask then mask.tail else mask) = false

/-- The channel matches all masks to show, and bears one of their names if they are names. -/
def ShownByAll (opts : List CStr) (chname : CStr) : Prop :=
  (∀ mask ∈ showMasks opts, matchChan mask chname = true) ∧
    (onlyNames opts → ∃ mask ∈ showMasks opts, ircEq mask chname = true)

/-! ### The loop over the options -/

section Options

variable {now : Int} {opts : List CStr} {opt : CStr} {o : ListOptions}

theorem lastOf_concat (now : Int) (kind : BoundKind) (opts : List CStr) (opt : CStr) :
    lastOf now kind (opts ++ [opt]) =
      match optionSets now opt with
      | some (k, n) => if kind = k then some n else lastOf now kind opts
      | none => lastOf now kind opts := by
  unfold lastOf
  rw [reverse_append, reverse_singleton, singleton_append, filterMap_cons]
  cases optionSets now opt with
  | none => rfl
  | some pair =>
    dsimp only
    rw [lookup_cons]
    by_cases hk : kind = pair.1
    · rw [beq_iff_eq.mpr hk, if_pos hk]
    · rw [beq_eq_false_iff_ne.mpr hk, if_neg hk]

/-- What the loop has stored when it has read the options. -/
structure OptionsRead (now : Int) (opts : List CStr) (o : ListOptions) : Prop where
  shows : o.task.showMask = (showMasks opts).reverse
  hides : o.task.hideMask = (hideMasks opts).reverse
  names : o.noMaskedChannels = true ↔ ∀ mask ∈ showMasks opts,
    hasWildcards (if isChanPrefix mask then mask.tail else mask) = false
  fields : ∀ kind, o.task.field kind =
    (lastOf now kind opts).getD (({} : ListFilters).field kind)

theorem optionsRead_nil (now : Int) : OptionsRead now [] {} where
  shows := rfl
  hides := rfl
  names := iff_of_true rfl fun _ hmask => absurd hmask not_mem_nil
  fields _ := rfl

theorem showMasks_concat (opts : List CStr) (opt : CStr) :
    showMasks (opts ++ [opt]) =
      if isShowMask opt then showMasks opts ++ [opt] else showMasks opts := by
  rw [showMasks, filter_append, ← showMasks, filter_singleton]
  split <;> simp_all

theorem hideMasks_concat (opts : List CStr) (opt : CStr) : hideMasks (opts ++ [opt]) =
    if opt.head? = some '!' then hideMasks opts ++ [opt.tail] else hideMasks opts := by
  rw [hideMasks, filterMap_append, ← hideMasks, filterMap_cons]
  split <;> simp_all

theorem OptionsRead.set (h : OptionsRead now opts o) (hshow : isShowMask opt = false)
    (hhide : opt.head? ≠ some '!') {t : ListTask} (hshows : t.showMask = o.task.showMask)
    (hhides : t.hideMask = o.task.hideMask)
    (hfields : ∀ kind, t.field kind =
      match optionSets now opt with
      | some (k, n) => if kind = k then n else o.task.field kind
      | none => o.task.field kind) :
    OptionsRead now (opts ++ [opt]) { o with task := t } where
  shows := by
    rw [showMasks_concat, hshow]
    exact hshows.trans h.shows
  hides := by
    rw [hideMasks_concat, if_neg hhide]
    exact hhides.trans h.hides
  names := by
    rw [showMasks_concat, hshow]
    exact h.names
  fields kind := by
    rw [lastOf_concat]
    refine (hfields kind).trans ?_
    cases optionSets now opt with
    | none => exact h.fields kind
    | some pair =>
      dsimp only
      split
      · rfl
      · exact h.fields kind

theorem ListOptions.number_eq {least : Int} {s : CStr} {set : Int → ListTask → ListTask}
    (h : (o.number least s set).errors = false) :
    o.number least s set = { o with task := set (atoi s) o.task } := by
  unfold ListOptions.number at h ⊢
  split
  · rfl
  · rename_i hless
    rw [if_neg hless] at h
    cases h

/-- A mask without the prefix of channels. -/
def bareMask (mask : CStr) : CStr := if isChanPrefix mask then mask.tail else mask

theorem ListOptions.mask_hide {m : CStr} (h : (o.mask true m).errors = false) :
    o.mask true m = { o with task := { o.task with hideMask := m :: o.task.hideMask } } := by
  unfold ListOptions.mask at h ⊢
  dsimp only at h ⊢
  split_ifs at h ⊢ <;> simp_all

theorem ListOptions.mask_show {m : CStr} (h : (o.mask false m).errors = false) :
    o.mask false m =
      { o with
        noMaskedChannels := o.noMaskedChannels && !hasWildcards (bareMask m)
        task := { o.task with showMask := m :: o.task.showMask } } := by
  unfold ListOptions.mask bareMask at *
  dsimp only at h ⊢
  split_ifs at h ⊢ <;> simp_all

theorem OptionsRead.option (h : OptionsRead now opts o) (hne : opt ≠ [])
    (hgood : (o.option now opt).errors = false) :
    OptionsRead now (opts ++ [opt]) (o.option now opt) := by
  unfold ListOptions.option at hgood ⊢
  split at hgood
  · rw [ListOptions.number_eq hgood]
    exact h.set rfl (by simp) rfl rfl fun kind => by cases kind <;> rfl
  · rw [ListOptions.number_eq hgood]
    exact h.set rfl (by simp) rfl rfl fun kind => by cases kind <;> rfl
  · exact h.set (t := o.task) rfl (by simp) rfl rfl fun _ => rfl
  -- the four letters of the times have the same two signs behind them
  iterate 4
    · split at hgood
      · rw [ListOptions.number_eq hgood]
        exact h.set rfl (by simp) rfl rfl fun kind => by cases kind <;> rfl
      · rw [ListOptions.number_eq hgood]
        exact h.set rfl (by simp) rfl rfl fun kind => by cases kind <;> rfl
      · cases hgood
  · rename_i m
    rw [ListOptions.mask_hide hgood]
    refine ⟨?_, ?_, ?_, ?_⟩
    · rw [showMasks_concat]
      exact h.shows
    · have hhead : ('!' :: m).head? = some '!' := rfl
      rw [hideMasks_concat, if_pos hhead, reverse_append, ← h.hides]
      rfl
    · rw [showMasks_concat]
      exact h.names
    · intro kind
      rw [lastOf_concat]
      exact h.fields kind
  · rename_i hlt hgt hdash hC hc hT ht hbang
    have hshow : isShowMask opt = true := by
      obtain ⟨c, rest, rfl⟩ := exists_cons_of_ne_nil hne
      simp_all [isShowMask]
    have hhide : opt.head? ≠ some '!' := by
      obtain ⟨c, rest, rfl⟩ := exists_cons_of_ne_nil hne
      intro hhead
      exact hbang rest (by rw [Option.some.inj hhead])
    have hsets : optionSets now opt = none := by
      unfold optionSets
      split <;> simp_all
    rw [ListOptions.mask_show hgood]
    refine ⟨?_, ?_, ?_, ?_⟩
    · rw [showMasks_concat, if_pos hshow, reverse_append, ← h.shows]
      rfl
    · rw [hideMasks_concat, if_neg hhide]
      exact h.hides
    · rw [showMasks_concat, if_pos hshow]
      simp only [forall_mem_append, forall_mem_singleton, Bool.and_eq_true, h.names,
        Bool.not_eq_true']
      rfl
    · intro kind
      rw [lastOf_concat, hsets]
      exact h.fields kind

theorem ListOptions.number_errors {least : Int} {s : CStr} {set : Int → ListTask → ListTask}
    (h : (o.number least s set).errors = false) : o.errors = false := by
  rw [ListOptions.number_eq h] at h
  exact h

theorem ListOptions.option_errors (h : (o.option now opt).errors = false) : o.errors = false := by
  unfold ListOptions.option at h
  split at h
  · exact ListOptions.number_errors h
  · exact ListOptions.number_errors h
  · exact h
  iterate 4
    · split at h
      · exact ListOptions.number_errors h
      · exact ListOptions.number_errors h
      · cases h
  · rw [ListOptions.mask_hide h] at h
    exact h
  · rw [ListOptions.mask_show h] at h
    exact h

theorem optionsRead_foldl (hne : ∀ opt ∈ opts, opt ≠ [])
    (hgood : (opts.foldl (fun o opt => o.option now opt) ({} : ListOptions)).errors = false) :
    OptionsRead now opts (opts.foldl (fun o opt => o.option now opt) {}) := by
  induction opts using List.reverseRecOn with
  | nil => exact optionsRead_nil now
  | append_singleton opts opt ih =>
    rw [foldl_append] at hgood ⊢
    have hread := ih (fun opt' hmem => hne opt' (mem_append_left _ hmem))
      (ListOptions.option_errors hgood)
    exact hread.option (hne opt (by simp)) hgood

end Options

/-- The options in the argument of `LIST`. -/
def listOpts (arg : Option CStr) : List CStr := arg.elim [] commaTokens

theorem ne_nil_of_mem_listOpts {arg : Option CStr} {opt : CStr} (h : opt ∈ listOpts arg) :
    opt ≠ [] := by
  cases arg with
  | none => cases h
  | some s => simpa using (List.mem_filter.mp h).2

section Request

variable {source : Nat} {now : Int} {myConnect : Bool} {arg : Option CStr} {req : ListCall}

theorem doList_task (h : doList now myConnect arg = some req) :
    req.remoteRequest = !myConnect ∧
      req.task.showMask = (showMasks (listOpts arg)).reverse ∧
      req.task.hideMask = (hideMasks (listOpts arg)).reverse ∧
      (req.onlyUnmaskedChannels = true ↔ onlyNames (listOpts arg)) ∧
      ∀ kind, req.task.field kind =
        (lastOf now kind (listOpts arg)).getD (({} : ListFilters).field kind) := by
  unfold doList at h
  dsimp only at h
  split at h
  · cases h
  · rename_i hgood
    have hread : OptionsRead now (listOpts arg)
        ((listOpts arg).foldl (fun o opt => o.option now opt) {}) :=
      optionsRead_foldl (fun _ => ne_nil_of_mem_listOpts) (Bool.eq_false_iff.mpr hgood)
    obtain rfl := Option.some.inj h
    refine ⟨rfl, hread.shows, hread.hides, ?_, hread.fields⟩
    have hsome : (!((listOpts arg).foldl (fun o opt => o.option now opt)
        ({} : ListOptions)).task.showMask.isEmpty) = true ↔ showMasks (listOpts arg) ≠ [] := by
      rw [hread.shows]
      simp
    unfold onlyNames
    rw [Bool.and_eq_true, and_comm]
    exact and_congr hsome hread.names

theorem admits_default (kind : BoundKind) (ch : ListedChannel) :
    kind.admits (({} : ListFilters).field kind) ch = true := by
  have hlt : ∀ x : Int, unsignedInt x ≤ UINT_MAX := fun x => by
    unfold unsignedInt UINT_MAX
    omega
  cases kind with
  | usersMax => exact decide_eq_true (hlt _)
  | usersMin => simp [BoundKind.admits, ListFilters.field]
  | createdMax => simp [BoundKind.admits, ListFilters.field, hlt]
  | createdMin => simp [BoundKind.admits, ListFilters.field]
  | topictsMax =>
    refine decide_eq_true ?_
    split
    · exact hlt _
    · exact Nat.le_refl _
  | topictsMin => simp [BoundKind.admits, ListFilters.field]

theorem filters_iff (lt : ListFilters) (remoteRequest : Bool) (chname : CStr) (ch : ListedChannel) :
    passesFilters source lt remoteRequest chname ch = true ↔
      listVisible source remoteRequest chname ch = true ∧
        (∀ kind : BoundKind, kind.admits (lt.field kind) ch = true) ∧
        listAllowChannel chname lt = true := by
  have hkinds : (∀ kind : BoundKind, kind.admits (lt.field kind) ch = true) ↔
      BoundKind.usersMax.admits lt.usersMax ch = true ∧
      BoundKind.usersMin.admits lt.usersMin ch = true ∧
      BoundKind.createdMax.admits lt.createdMax ch = true ∧
      BoundKind.createdMin.admits lt.createdMin ch = true ∧
      BoundKind.topictsMax.admits lt.topictsMax ch = true ∧
      BoundKind.topictsMin.admits lt.topictsMin ch = true := by
    constructor
    · exact fun h => ⟨h .usersMax, h .usersMin, h .createdMax, h .createdMin, h .topictsMax,
        h .topictsMin⟩
    · rintro ⟨h₁, h₂, h₃, h₄, h₅, h₆⟩ kind
      cases kind
      all_goals assumption
  rw [hkinds]
  simp only [passesFilters, listVisible, BoundKind.admits, Bool.and_eq_true, Bool.not_eq_true',
    Bool.or_eq_false_iff, Bool.and_eq_false_iff, decide_eq_false_iff_not, not_lt,
    decide_eq_true_eq, Bool.or_eq_true, beq_iff_eq, bne_eq_false_iff_eq]
  constructor
  · rintro ⟨⟨hvisible, ⟨⟨⟨⟨h₁, h₂⟩, h₃⟩, h₄⟩, h₅⟩⟩, hallow⟩
    refine ⟨hvisible, ⟨h₂, h₁, ?_, ?_, h₅, h₄⟩, hallow⟩
    · exact h₃.imp_right And.right
    · exact h₃.imp_right And.left
  · rintro ⟨hvisible, ⟨h₂, h₁, hmax, hmin, h₅, h₄⟩, hallow⟩
    refine ⟨⟨hvisible, ⟨⟨⟨⟨h₁, h₂⟩, ?_⟩, h₄⟩, h₅⟩⟩, hallow⟩
    rcases hmax with hzero | hmax
    · exact Or.inl hzero
    · exact hmin.imp_right fun hmin => ⟨hmin, hmax⟩

/-- A request passes a channel that the client may see, within the numbers that are kept, that
matches all masks to show and none to hide. -/
theorem passesFilters_iff (h : doList now myConnect arg = some req) (chname : CStr)
    (ch : ListedChannel) :
    passesFilters source req.task.toListFilters req.remoteRequest chname ch = true ↔
      listVisible source (!myConnect) chname ch = true ∧ WithinLast now (listOpts arg) ch ∧
        (∀ mask ∈ showMasks (listOpts arg), matchChan mask chname = true) ∧
        ∀ mask ∈ hideMasks (listOpts arg), matchChan mask chname = false := by
  obtain ⟨hremote, hshow, hhide, -, hfields⟩ := doList_task h
  have hnumbers : WithinLast now (listOpts arg) ch ↔
      ∀ kind : BoundKind, kind.admits (req.task.field kind) ch = true := by
    constructor
    · intro hwithin kind
      rw [hfields]
      cases hlast : lastOf now kind (listOpts arg) with
      | none => exact admits_default kind ch
      | some n => exact hwithin kind n hlast
    · intro hall kind n hlast
      have hkind := hall kind
      rwa [hfields, hlast] at hkind
  have hallow : listAllowChannel chname req.task.toListFilters = true ↔
      (∀ mask ∈ showMasks (listOpts arg), matchChan mask chname = true) ∧
        ∀ mask ∈ hideMasks (listOpts arg), matchChan mask chname = false := by
    rw [listAllowChannel, hshow, hhide, Bool.and_eq_true, all_eq_true, all_eq_true]
    simp only [mem_reverse, Bool.not_eq_true']
  rw [filters_iff, hremote, ← hnumbers, hallow]

end Request

/-! ### What is reported -/

section Replies

variable {source n fuel key : Nat} {req : ListCall} {live : LiveNames} {s : ListState}

def replyAt (chan : Nat → ListedChannel) (a : Nat) (m : CStr) : ListReply :=
  .list m (chan a).members.length ((chan a).topic.getD [])

/-- All that was replied is about channels that are there and pass the filters. -/
def RepliesLive (source : Nat) (req : ListCall) (live : LiveNames) (s : ListState) : Prop :=
  ∀ r ∈ s.out, r ≠ .listEnd → ∃ m,
    LiveReply source req.task.toListFilters req.remoteRequest live s.chan m r

variable (source) in
theorem Progress.calls (h : Progress n key req live s) (hkey : key < 2 ^ 32) (hfuel : n ≤ fuel)
    (hlive : RepliesLive source req live s) (calls : List (Nat → Bool)) :
    ∃ t, s.run source fuel (calls.map .call) = some t ∧ Progress n key req live t ∧
      t.chan = s.chan ∧ RepliesLive source req live t ∧
      ∀ a m, live .channel a = some m →
        passesFilters source req.task.toListFilters req.remoteRequest m (s.chan a) = true →
        ReportedAsDue key req m s → ReportedAsDue key req m t := by
  induction calls generalizing s with
  | nil => exact ⟨s, rfl, h, rfl, hlive, fun _ _ _ _ hdue => hdue⟩
  | cons exceeding calls ih =>
    have hstep : ∃ u, s.step source fuel (.call exceeding) = some u ∧
        Progress n key req live u ∧ u.chan = s.chan ∧ RepliesLive source req live u ∧
        ∀ a m, live .channel a = some m →
          passesFilters source req.task.toListFilters req.remoteRequest m (s.chan a) = true →
          ReportedAsDue key req m s → ReportedAsDue key req m u := by
      cases hcall : s.pending with
      | none =>
        refine ⟨s, ?_, h, rfl, hlive, fun _ _ _ _ hdue => hdue⟩
        rw [ListState.step, hcall]
      | some call =>
        obtain ⟨u, hcalled, hu, hchan, hdue, replies, hout, hnew⟩ :=
          h.next hkey hfuel hcall exceeding
        refine ⟨u, ?_, hu, hchan, ?_, hdue⟩
        · rw [ListState.step, hcall]
          exact hcalled
        · intro r hr hne
          rw [hchan]
          rw [hout] at hr
          rcases List.mem_append.mp hr with hr | hr
          · exact hlive r hr hne
          · obtain ⟨m, hm, -⟩ := hnew r hr hne
            exact ⟨m, hm⟩
    obtain ⟨u, hstep, hu, hchan, hulive, hdue⟩ := hstep
    obtain ⟨t, hrun, ht, hchan', htlive, hdue'⟩ := ih hu hulive
    refine ⟨t, ?_, ht, hchan'.trans hchan, htlive, ?_⟩
    · rw [ListState.run, map_cons, foldlM_cons, hstep]
      exact hrun
    · intro a m hm hpass hbefore
      refine hdue' a m hm ?_ (hdue a m hm hpass hbefore)
      rw [hchan]
      exact hpass

theorem Progress.mem_out_iff (h : Progress n key req live s) (hlive : RepliesLive source req live s)
    (hdue : ∀ a m, live .channel a = some m →
      passesFilters source req.task.toListFilters req.remoteRequest m (s.chan a) = true →
      ReportedAsDue key req m s)
    (hend : .listEnd ∈ s.out) (r : ListReply) :
    r ∈ s.out ↔ r = .listEnd ∨ ∃ a m, live .channel a = some m ∧
      passesFilters source req.task.toListFilters req.remoteRequest m (s.chan a) = true ∧
      (req.onlyUnmaskedChannels = true → ∃ name ∈ req.task.showMask, ircEq name m = true) ∧
      r = replyAt s.chan a m := by
  obtain ⟨lists, hfiled⟩ := h.filed
  have hpending : s.pending = none := by
    by_contra hsome
    obtain ⟨call, hcall⟩ := Option.ne_none_iff_exists'.mp hsome
    exact h.unfinished call hcall hend
  constructor
  · intro hr
    by_cases hne : r = .listEnd
    · exact Or.inl hne
    · right
      obtain ⟨m, a, hm, hpass, heq⟩ := hlive r hr hne
      refine ⟨a, m, hm, hpass, ?_, heq⟩
      intro honly
      have hmost := h.most m
      rw [hpending, quota, ListCall.times, if_pos honly] at hmost
      have hpos : 0 < reported m s.out := by
        rw [reported, countP_pos_iff]
        refine ⟨r, hr, ?_⟩
        rw [heq]
        exact ircEq_refl m
      obtain ⟨name, hname, hboth⟩ := List.countP_pos_iff.mp (hpos.trans_le hmost)
      exact ⟨name, hname, hboth⟩
  · rintro (rfl | ⟨a, m, hm, hpass, hnamed, rfl⟩)
    · exact hend
    · have hcount := hdue a m hm hpass (Or.inr hend)
      have hpos : 0 < reported m s.out := by
        rw [hcount, hpending, quota, ListCall.times]
        split
        · rename_i honly
          obtain ⟨name, hname, heq⟩ := hnamed honly
          exact List.countP_pos_iff.mpr ⟨name, hname, heq⟩
        · exact Nat.one_pos
      obtain ⟨r, hr, hnames⟩ := List.countP_pos_iff.mp hpos
      have hne : r ≠ .listEnd := by
        rintro rfl
        cases hnames
      obtain ⟨m', a', hm', -, rfl⟩ := hlive r hr hne
      have hsame : a = a' := hfiled.distinct hm hm' hnames
      subst hsame
      rw [hm] at hm'
      obtain rfl := Option.some.inj hm'
      exact hr

end Replies

/-- What the options ask for and what the code keeps of them come to the same for a channel. -/
structure OptionsAgree (now : Int) (opts : List CStr) (chname : CStr) (ch : ListedChannel) :
    Prop where
  asked : (showMasks opts = [] ∨ ∃ mask ∈ showMasks opts, matchChan mask chname = true) →
    (∀ opt ∈ opts, optionAsks now opt ch) → ShownByAll opts chname ∧ WithinLast now opts ch
  kept : ShownByAll opts chname → WithinLast now opts ch → ∀ opt ∈ opts, optionAsks now opt ch

section Selection

variable {source : Nat} {now : Int} {myConnect : Bool} {arg : Option CStr} {req : ListCall}

variable (source) in
theorem reports_iff (h : doList now myConnect arg = some req) (chname : CStr) (ch : ListedChannel) :
    (passesFilters source req.task.toListFilters req.remoteRequest chname ch = true ∧
      (req.onlyUnmaskedChannels = true →
        ∃ name ∈ req.task.showMask, ircEq name chname = true)) ↔
      listVisible source (!myConnect) chname ch = true ∧
        (∀ mask ∈ hideMasks (listOpts arg), matchChan mask chname = false) ∧
        ShownByAll (listOpts arg) chname ∧ WithinLast now (listOpts arg) ch := by
  obtain ⟨-, hshow, -, honly, -⟩ := doList_task h
  rw [passesFilters_iff h, honly, hshow]
  simp only [mem_reverse]
  constructor
  · rintro ⟨⟨hvisible, hwithin, hall, hhidden⟩, hnamed⟩
    exact ⟨hvisible, hhidden, ⟨hall, hnamed⟩, hwithin⟩
  · rintro ⟨hvisible, hhidden, ⟨hall, hnamed⟩, hwithin⟩
    exact ⟨⟨hvisible, hwithin, hall, hhidden⟩, hnamed⟩

variable (source) in
theorem reports_as_asked_iff {chname : CStr} {ch : ListedChannel}
    (hvisible : listVisible source (!myConnect) chname ch = true)
    (hhidden : ∀ mask ∈ hideMasks (listOpts arg), matchChan mask chname = false) :
    (ShownByAll (listOpts arg) chname ∧ WithinLast now (listOpts arg) ch ↔
      SelectedBy source (!myConnect) now (listOpts arg) chname ch) ↔
      OptionsAgree now (listOpts arg) chname ch := by
  constructor
  · intro hiff
    constructor
    · intro hshown hbounds
      exact hiff.mpr ⟨hvisible, hshown, hhidden, hbounds⟩
    · intro hall hwithin
      exact (hiff.mp ⟨hall, hwithin⟩).bounds
  · intro hagree
    constructor
    · rintro ⟨hall, hwithin⟩
      refine ⟨hvisible, ?_, hhidden, hagree.kept hall hwithin⟩
      by_cases hnone : showMasks (listOpts arg) = []
      · exact Or.inl hnone
      · obtain ⟨mask, hmask⟩ := exists_mem_of_ne_nil _ hnone
        exact Or.inr ⟨mask, hmask, hall.1 mask hmask⟩
    · intro hselected
      exact hagree.asked hselected.shown hselected.bounds

end Selection

/-- Two channels, and a request that names both. -/
def twoNames : List HashOp := [.add .channel 1 "#a".toList, .add .channel 2 "#b".toList]

end Ircd
