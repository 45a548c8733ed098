import Ircd.Lib.Run
import Ircd.TempLines

/-!
The temporary lines through the steps of a run: what an item that is made, or
deleted, changes on every list and in every table, and the runs in which they stay
in step.
-/

namespace Ircd

open Function List

namespace TempState

open Index (Lists)

/-! ### The invariant -/

/-- Every list and every chain names the items that belong there. -/
structure Inv (s : TempState) : Prop where
  fresh : ∀ i, s.next ≤ i → s.heap i = none
  temporary : ∀ l, Lists s.heap (fun c => c.temporary = true ∧ c.type.tempList = l) (s.temporary l)
  items : ∀ l, Lists s.heap (fun c => c.type.itemList = some l) (s.items l)
  channels : Lists s.heap (fun c => c.type = .cresv) s.resvChannelList
  chains : ∀ h, Lists s.heap (fun c => c.type = .cresv ∧ strhash s.ircdRandomKey c.name = h)
    (s.resvchannelTable h)
  table : ∀ h, Lists s.heap (fun c => c.type.recType.isSome = true ∧ c.bucket = h)
    ((s.table.atable h).map fun arec => arec.aconf.ptr)
  host : ∀ i c, s.heap i = some c → c.temporary = true → c.type.recType.isSome = true → c.host ≠ []
  own : ∀ i c, s.heap i = some c → c.temporary = true → c.inConf = false

theorem Inv.start (key : Nat) (min glineTime : Int) : (TempState.start key min glineTime).Inv where
  fresh _ _ := rfl
  temporary _ := Index.lists_empty
  items _ := Index.lists_empty
  channels := Index.lists_empty
  chains _ := Index.lists_empty
  table _ := Index.lists_empty
  host _ _ h := nomatch h
  own _ _ h := nomatch h

variable {s t : TempState} {c : LineConf} {i : Nat} {now : Int}

theorem Inv.lt_next (h : s.Inv) (hc : s.heap i = some c) : i < s.next := by
  by_contra hlt
  rw [h.fresh i (by omega)] at hc
  cases hc

theorem Inv.found (h : s.Inv) (hc : s.heap i = some c) : s.Found i c := by
  have htable : c.type.recType.isSome = true → ∃ arec ∈ s.table.atable c.bucket,
      arec.aconf.ptr = i := by
    intro htype
    exact List.mem_map.mp (((h.table c.bucket).mem_of_some hc).mpr ⟨htype, rfl⟩)
  have hitems : ∀ l, c.type.itemList = some l → i ∈ s.items l := fun l hl =>
    ((h.items l).mem_of_some hc).mpr hl
  unfold Found
  split <;> rename_i htype
  · exact htable (by rw [htype]; rfl)
  · exact htable (by rw [htype]; rfl)
  · exact htable (by rw [htype]; rfl)
  · exact hitems _ (by rw [htype]; rfl)
  · exact hitems _ (by rw [htype]; rfl)
  · exact hitems _ (by rw [htype]; rfl)
  · exact hitems _ (by rw [htype]; rfl)
  · exact ((h.chains _).mem_of_some hc).mpr ⟨htype, rfl⟩

theorem Inv.inStep (h : s.Inv) : s.InStep where
  listed _ _ hc htemp := iff_of_true (((h.temporary _).mem_of_some hc).mpr ⟨htemp, rfl⟩)
    (h.found hc)
  live :=
    { temporary := fun l _ hi => (h.temporary l).live hi
      items := fun l _ hi => (h.items l).live hi
      table := fun b _ hi => (h.table b).live (mem_map_of_mem hi)
      resvs := fun b _ hi => (h.chains b).live hi
      channels := fun _ hi => h.channels.live hi }

/-! ### A new item -/

/-- `t` is `s` with a new item, which is on no temporary list and not in the address
table. -/
structure Made (s t : TempState) (c : LineConf) : Prop where
  key : t.ircdRandomKey = s.ircdRandomKey
  heap : t.heap = update s.heap s.next (some c)
  next : t.next = s.next + 1
  temporary : t.temporary = s.temporary
  items : ∀ l, t.items l = if c.type.itemList = some l then s.next :: s.items l else s.items l
  channels : t.resvChannelList =
    if c.type = .cresv then s.next :: s.resvChannelList else s.resvChannelList
  chains : ∀ h, t.resvchannelTable h =
    if c.type = .cresv ∧ strhash s.ircdRandomKey c.name = h then s.next :: s.resvchannelTable h
    else s.resvchannelTable h
  table : t.table = s.table

/-- `t` is `s` with a new item, which is wherever it belongs. -/
structure Inserted (s t : TempState) (c : LineConf) : Prop where
  key : t.ircdRandomKey = s.ircdRandomKey
  heap : t.heap = update s.heap s.next (some c)
  next : t.next = s.next + 1
  temporary : ∀ l, t.temporary l =
    if c.temporary = true ∧ c.type.tempList = l then s.next :: s.temporary l else s.temporary l
  items : ∀ l, t.items l = if c.type.itemList = some l then s.next :: s.items l else s.items l
  channels : t.resvChannelList =
    if c.type = .cresv then s.next :: s.resvChannelList else s.resvChannelList
  chains : ∀ h, t.resvchannelTable h =
    if c.type = .cresv ∧ strhash s.ircdRandomKey c.name = h then s.next :: s.resvchannelTable h
    else s.resvchannelTable h
  table : ∀ h, (t.table.atable h).map (fun arec => arec.aconf.ptr) =
    if c.type.recType.isSome = true ∧ c.bucket = h then
      s.next :: (s.table.atable h).map fun arec => arec.aconf.ptr
    else (s.table.atable h).map fun arec => arec.aconf.ptr

theorem Inv.inserted (h : s.Inv) (ht : Inserted s t c)
    (hhost : c.temporary = true → c.type.recType.isSome = true → c.host ≠ [])
    (hown : c.temporary = true → c.inConf = false) : t.Inv := by
  have hnone : s.heap s.next = none := h.fresh _ le_rfl
  -- A list gets the item in front exactly if the item is of its kind.
  have hlists : ∀ {p : LineConf → Prop} [DecidablePred p] {l : List Nat}, Lists s.heap p l →
      Lists t.heap p (if p c then s.next :: l else l) := by
    intro p _ l hl
    rw [ht.heap]
    have hnot := hl.not_mem_of_none hnone
    split
    · rename_i hp
      exact hl.cons hnot hp
    · rename_i hp
      exact hl.skip hnot hp
  have hcell : ∀ {P : LineConf → Prop}, (∀ i d, s.heap i = some d → P d) → P c →
      ∀ i d, t.heap i = some d → P d := by
    intro P hold hnew i d hd
    rw [ht.heap, update_apply] at hd
    split at hd
    · cases hd
      exact hnew
    · exact hold i d hd
  constructor
  · intro i hi
    rw [ht.next] at hi
    rw [ht.heap, update_of_ne (by omega)]
    exact h.fresh i (by omega)
  · intro l
    rw [ht.temporary]
    exact hlists (h.temporary l)
  · intro l
    rw [ht.items]
    exact hlists (h.items l)
  · rw [ht.channels]
    exact hlists h.channels
  · intro b
    rw [ht.chains, ht.key]
    exact hlists (h.chains b)
  · intro b
    rw [ht.table]
    exact hlists (h.table b)
  · exact hcell h.host hhost
  · exact hcell h.own hown

theorem made_makeConfItem (hc : c.type ≠ .cresv) : Made s (s.makeConfItem c) c where
  key := rfl
  heap := rfl
  next := rfl
  temporary := rfl
  items l := by
    unfold makeConfItem
    split <;> rename_i hl
    · rename_i l'
      by_cases heq : l = l'
      · subst heq
        simp [hl]
      · simp [hl, heq, Ne.symm heq]
    · simp [hl]
  channels := (if_neg hc).symm
  chains _ := (if_neg fun hb => hc hb.1).symm
  table := rfl

theorem addConfByAddress_ptrs (table : AddressTable) (type : Nat) (c : LineConf) (i b : Nat) :
    ((addConfByAddress table type (c.access i)).atable b).map (fun arec => arec.aconf.ptr) =
      if c.bucket = b then i :: (table.atable b).map fun arec => arec.aconf.ptr
      else (table.atable b).map fun arec => arec.aconf.ptr := by
  have hbucket : (recMask (confAddress (c.access i))).hash = c.bucket := rfl
  simp only [addConfByAddress, hbucket, update_apply, eq_comm (a := b)]
  split
  · rename_i hb
    rw [hb]
    rfl
  · rfl

theorem addAddress_ptrs (hs : t.table = s.table) (i b : Nat) :
    ((t.addAddress c i).table.atable b).map (fun arec => arec.aconf.ptr) =
      if c.type.recType.isSome = true ∧ c.bucket = b then
        i :: (s.table.atable b).map fun arec => arec.aconf.ptr
      else (s.table.atable b).map fun arec => arec.aconf.ptr := by
  unfold addAddress
  split <;> rename_i htype
  · rw [htype, hs]
    simpa using addConfByAddress_ptrs s.table _ c i b
  · rw [htype, hs]
    simp

theorem addAddress_frame (t : TempState) (c : LineConf) (i : Nat) :
    t.addAddress c i = { t with table := (t.addAddress c i).table } := by
  unfold addAddress
  split <;> rfl

theorem Made.permanent (h : Made s t c) (hc : c.temporary = false) :
    Inserted s (t.addAddress c s.next) c := by
  have htable := addAddress_ptrs (c := c) h.table s.next
  rw [addAddress_frame] at htable ⊢
  constructor
  · exact h.key
  · exact h.heap
  · exact h.next
  · intro l
    rw [if_neg (by simp [hc])]
    exact congrFun h.temporary l
  · exact h.items
  · exact h.channels
  · exact h.chains
  · exact htable

/-- What `add_temp_line` makes of an item. -/
def temporaryConf (c : LineConf) (hold : Int) : LineConf :=
  { c with hold := hold, temporary := true, user := if c.type = .dline then [] else c.user }

theorem Made.temp (h : Made s t c) (hold : Int) :
    Inserted s (t.addTempLine s.next hold) (temporaryConf c hold) := by
  have hheap : t.heap s.next = some c := by rw [h.heap, update_self]
  have heq : t.addTempLine s.next hold =
      { t with
        heap := update t.heap s.next (some (temporaryConf c hold))
        temporary := update t.temporary c.type.tempList
          (s.next :: t.temporary c.type.tempList)
        }.addAddress (temporaryConf c hold) s.next := by
    unfold addTempLine
    rw [hheap]
    rfl
  have htable := addAddress_ptrs (s := s) (c := temporaryConf c hold)
    (t := { t with
        heap := update t.heap s.next (some (temporaryConf c hold))
        temporary := update t.temporary c.type.tempList
          (s.next :: t.temporary c.type.tempList) })
    h.table s.next
  rw [heq]
  rw [addAddress_frame] at htable ⊢
  constructor
  · exact h.key
  · simp [h.heap]
  · exact h.next
  · intro l
    have htype : (temporaryConf c hold).type = c.type := rfl
    simp only [temporaryConf, h.temporary, update_apply, true_and, eq_comm (a := l)]
    split
    · rename_i hl
      rw [hl]
    · rfl
  · exact h.items
  · exact h.channels
  · exact h.chains
  · exact htable

/-! ### An item less -/

/-- `t` is `s` without an item, which is on no list any more. -/
structure Dropped (s t : TempState) (i : Nat) : Prop where
  key : t.ircdRandomKey = s.ircdRandomKey
  heap : t.heap = update s.heap i none
  next : t.next = s.next
  temporary : ∀ l, t.temporary l = (s.temporary l).erase i
  items : ∀ l, t.items l = (s.items l).erase i
  channels : t.resvChannelList = s.resvChannelList.erase i
  chains : ∀ h, t.resvchannelTable h = (s.resvchannelTable h).erase i
  table : ∀ h, (t.table.atable h).map (fun arec => arec.aconf.ptr) =
    ((s.table.atable h).map fun arec => arec.aconf.ptr).erase i

theorem Inv.dropped (h : s.Inv) (ht : Dropped s t i) : t.Inv := by
  have hsub : ∀ {j d}, t.heap j = some d → s.heap j = some d := by
    intro j d hd
    rw [ht.heap, update_apply] at hd
    split at hd
    · cases hd
    · exact hd
  constructor
  · intro j hj
    rw [ht.next] at hj
    rw [ht.heap, update_apply, h.fresh j hj, ite_self]
  · intro l
    rw [ht.temporary, ht.heap]
    exact (h.temporary l).erase i
  · intro l
    rw [ht.items, ht.heap]
    exact (h.items l).erase i
  · rw [ht.channels, ht.heap]
    exact h.channels.erase i
  · intro b
    rw [ht.chains, ht.heap, ht.key]
    exact (h.chains b).erase i
  · intro b
    rw [ht.table, ht.heap]
    exact (h.table b).erase i
  · exact fun j d hd => h.host j d (hsub hd)
  · exact fun j d hd => h.own j d (hsub hd)

theorem Inv.dropped_none (h : s.Inv) (hi : s.heap i = none) : Dropped s s i where
  key := rfl
  heap := by rw [← hi, update_eq_self]
  next := rfl
  temporary l := (erase_of_not_mem ((h.temporary l).not_mem_of_none hi)).symm
  items l := (erase_of_not_mem ((h.items l).not_mem_of_none hi)).symm
  channels := (erase_of_not_mem (h.channels.not_mem_of_none hi)).symm
  chains b := (erase_of_not_mem ((h.chains b).not_mem_of_none hi)).symm
  table b := (erase_of_not_mem ((h.table b).not_mem_of_none hi)).symm

theorem Inv.unlinkTemp_eq (h : s.Inv) (hc : s.heap i = some c) (l : TempList) :
    (s.unlinkTemp c.type.tempList i).temporary l = (s.temporary l).erase i := by
  by_cases hl : l = c.type.tempList
  · subst hl
    exact update_self ..
  · have hnot : i ∉ s.temporary l := by
      rw [(h.temporary l).mem_of_some hc]
      exact fun hb => hl hb.2.symm
    rw [erase_of_not_mem hnot]
    exact update_of_ne hl ..

theorem Inv.not_temporary (h : s.Inv) (hc : s.heap i = some c) (htemp : c.temporary = false)
    (l : TempList) : (s.temporary l).erase i = s.temporary l := by
  apply erase_of_not_mem
  rw [(h.temporary l).mem_of_some hc, htemp]
  exact fun hb => Bool.false_ne_true hb.1

theorem deleteConfItem_of_some (hc : s.heap i = some c) :
    s.deleteConfItem i =
      { s with
        heap := update s.heap i none
        items :=
          match c.type.itemList with
          | some l => update s.items l ((s.items l).erase i)
          | none => s.items } := by
  unfold deleteConfItem
  rewrite [hc]
  rfl

theorem Inv.deleteConfItem_items (h : s.Inv) (hc : s.heap i = some c) (l : ItemList) :
    (s.deleteConfItem i).items l = (s.items l).erase i := by
  have hmem := (h.items l).mem_of_some hc
  rw [deleteConfItem_of_some hc]
  split <;> rename_i hl
  · rename_i l'
    by_cases heq : l = l'
    · subst heq
      exact update_self ..
    · have hnot : i ∉ s.items l := by
        rw [hmem, hl]
        exact fun hb => heq (Option.some.inj hb).symm
      rw [erase_of_not_mem hnot]
      exact update_of_ne heq ..
  · have hnot : i ∉ s.items l := by
      rw [hmem, hl]
      exact nofun
    rw [erase_of_not_mem hnot]

theorem Inv.not_channel (h : s.Inv) (hc : s.heap i = some c) (hresv : c.type ≠ .cresv) :
    i ∉ s.resvChannelList ∧ ∀ b, i ∉ s.resvchannelTable b :=
  ⟨fun hb => hresv ((h.channels.mem_of_some hc).mp hb),
    fun b hb => hresv (((h.chains b).mem_of_some hc).mp hb).1⟩

theorem Inv.dropped_item (h : s.Inv) (hc : s.heap i = some c) (hrec : c.type.recType = none)
    (hresv : c.type ≠ .cresv) {tmp : TempList → List Nat}
    (htemp : ∀ l, tmp l = (s.temporary l).erase i) :
    Dropped s { s.deleteConfItem i with temporary := tmp } i := by
  have hitems := h.deleteConfItem_items hc
  rw [deleteConfItem_of_some hc] at hitems ⊢
  constructor
  · rfl
  · rfl
  · rfl
  · exact htemp
  · exact hitems
  · exact (erase_of_not_mem (h.not_channel hc hresv).1).symm
  · exact fun b => (erase_of_not_mem ((h.not_channel hc hresv).2 b)).symm
  · intro b
    refine (erase_of_not_mem ?_).symm
    rw [(h.table b).mem_of_some hc, hrec]
    exact fun hb => Bool.false_ne_true hb.1

theorem eraseP_ptrs (recs : List AddressRec) (i : Nat) :
    (recs.eraseP fun arec => arec.aconf.ptr == i).map (fun arec => arec.aconf.ptr) =
      (recs.map fun arec => arec.aconf.ptr).erase i := by
  rw [erase_eq_eraseP', eraseP_map]
  rfl

theorem Inv.dropped_address (h : s.Inv) (hc : s.heap i = some c)
    (hrec : c.type.recType.isSome = true)
    {b : Nat} (hb : c.bucket = b) {tmp : TempList → List Nat}
    (htemp : ∀ l, tmp l = (s.temporary l).erase i) :
    Dropped s
      { s.deleteConfItem i with
        temporary := tmp
        table := { s.table with
          atable := update s.table.atable b
            ((s.table.atable b).eraseP fun arec => arec.aconf.ptr == i) } } i := by
  have hitems := h.deleteConfItem_items hc
  rw [deleteConfItem_of_some hc] at hitems ⊢
  have hresv : c.type ≠ .cresv := by
    intro htype
    rw [htype] at hrec
    cases hrec
  constructor
  · rfl
  · rfl
  · rfl
  · exact htemp
  · exact hitems
  · exact (erase_of_not_mem (h.not_channel hc hresv).1).symm
  · exact fun b => (erase_of_not_mem ((h.not_channel hc hresv).2 b)).symm
  · intro b'
    by_cases heq : b' = b
    · subst heq
      simp only [update_self]
      exact eraseP_ptrs _ i
    · simp only [update_of_ne heq]
      rw [erase_of_not_mem]
      rw [(h.table b').mem_of_some hc, hb]
      exact fun hmem => heq hmem.2.symm

theorem Inv.dropped_channel (h : s.Inv) (hc : s.heap i = some c) (hresv : c.type = .cresv)
    {tmp : TempList → List Nat} (htemp : ∀ l, tmp l = (s.temporary l).erase i) :
    Dropped s { s.deleteChannelResv i with temporary := tmp } i := by
  have heq : s.deleteChannelResv i =
      { s.deleteConfItem i with
        resvchannelTable := Buckets.del s.resvchannelTable (strhash s.ircdRandomKey c.name) i
        resvChannelList := s.resvChannelList.erase i } := by
    simp only [deleteChannelResv, deleteConfItem, hc]
  have hitems := h.deleteConfItem_items hc
  rw [heq]
  rw [deleteConfItem_of_some hc] at hitems ⊢
  constructor
  · rfl
  · rfl
  · rfl
  · exact htemp
  · exact hitems
  · rfl
  · intro b
    by_cases hb : b = strhash s.ircdRandomKey c.name
    · subst hb
      exact update_self ..
    · have hnot : i ∉ s.resvchannelTable b := by
        rw [(h.chains b).mem_of_some hc]
        exact fun hmem => hb hmem.2.symm
      exact (update_of_ne hb ..).trans (erase_of_not_mem hnot).symm
  · intro b
    refine (erase_of_not_mem ?_).symm
    rw [(h.table b).mem_of_some hc, hresv]
    exact fun hb => Bool.false_ne_true hb.1

/-! ### Removing one line -/

theorem deleteConfItem_unlinkTemp (s : TempState) (l : TempList) (i : Nat) :
    (s.unlinkTemp l i).deleteConfItem i =
      { s.deleteConfItem i with temporary := (s.unlinkTemp l i).temporary } := by
  have hheap : (s.unlinkTemp l i).heap = s.heap := rfl
  simp only [deleteConfItem, hheap]
  cases s.heap i <;> rfl

theorem deleteOneAddress_unlinkTemp (s : TempState) (l : TempList) (i : Nat) :
    (s.unlinkTemp l i).deleteOneAddress i = (s.deleteOneAddress i).unlinkTemp l i := by
  have hheap : (s.unlinkTemp l i).heap = s.heap := rfl
  have htable : (s.unlinkTemp l i).table = s.table := rfl
  simp only [deleteOneAddress, deleteConfItem, hheap, htable]
  cases s.heap i with
  | none => rfl
  | some c =>
    dsimp only
    split <;> rfl

theorem Inv.dropped_temp_item (h : s.Inv) (hc : s.heap i = some c) (hrec : c.type.recType = none)
    (hresv : c.type ≠ .cresv) : Dropped s ((s.unlinkTemp c.type.tempList i).deleteConfItem i)
      i := by
  rw [deleteConfItem_unlinkTemp]
  exact h.dropped_item hc hrec hresv (h.unlinkTemp_eq hc)

theorem Inv.dropped_temp_address (h : s.Inv) (hc : s.heap i = some c) (htemp : c.temporary = true)
    (hrec : c.type.recType.isSome = true) :
    Dropped s ((s.unlinkTemp c.type.tempList i).deleteOneAddress i) i := by
  have hbucket : c.bucket = (recMask c.host).hash := by
    have hhost : c.host.isEmpty = false := by
      simpa using h.host i c hc htemp hrec
    simp [LineConf.bucket, confAddress, LineConf.access, hhost]
  have hany : ((s.table.atable (recMask c.host).hash).any fun arec => arec.aconf.ptr == i) =
      true := by
    obtain ⟨arec, hmem, hptr⟩ := List.mem_map.mp (((h.table _).mem_of_some hc).mpr ⟨hrec, hbucket⟩)
    exact List.any_eq_true.mpr ⟨arec, hmem, by simpa using hptr⟩
  have heq : (s.unlinkTemp c.type.tempList i).deleteOneAddress i =
      { s.deleteConfItem i with
        temporary := (s.unlinkTemp c.type.tempList i).temporary
        table := { s.table with
          atable := update s.table.atable (recMask c.host).hash
            ((s.table.atable (recMask c.host).hash).eraseP fun arec => arec.aconf.ptr == i)
              } } := by
    have hheap : (s.unlinkTemp c.type.tempList i).heap = s.heap := rfl
    have htable : (s.unlinkTemp c.type.tempList i).table = s.table := rfl
    simp only [deleteOneAddress, deleteConfItem, hheap, htable, hc, hany, if_true]
    rfl
  rw [heq]
  exact h.dropped_address hc hrec hbucket (h.unlinkTemp_eq hc)

theorem Inv.of_mem_temporary (h : s.Inv) {l : TempList} (hi : i ∈ s.temporary l) :
    ∃ c, s.heap i = some c ∧ c.temporary = true ∧ c.type.tempList = l :=
  (h.temporary l).mem.mp hi

theorem Inv.removeFirst (h : s.Inv) {l : TempList} {delete : TempState → Nat → TempState}
    (hdel : ∀ i c, s.heap i = some c → c.temporary = true → c.type.tempList = l →
      Dropped s (delete (s.unlinkTemp l i) i) i) (isMatch : LineConf → Bool) :
    (s.removeFirst l isMatch delete).Inv := by
  unfold TempState.removeFirst
  split
  · exact h
  · rename_i i hfind
    obtain ⟨c, hc, htemp, hl⟩ := h.of_mem_temporary (mem_of_find?_eq_some hfind)
    exact h.dropped (hdel i c hc htemp hl)

theorem Inv.removeFirst_address (h : s.Inv) {l : TempList} (isMatch : LineConf → Bool)
    (hl : ∀ type : LineType, type.tempList = l → type.recType.isSome = true) :
    (s.removeFirst l isMatch deleteOneAddress).Inv := by
  apply h.removeFirst
  rintro i c hc htemp rfl
  exact h.dropped_temp_address hc htemp (hl _ rfl)

theorem Inv.removeFirst_item (h : s.Inv) {l : TempList} (isMatch : LineConf → Bool)
    (hl : ∀ type : LineType, type.tempList = l → type.recType = none ∧ type ≠ .cresv) :
    (s.removeFirst l isMatch deleteConfItem).Inv := by
  apply h.removeFirst
  rintro i c hc - rfl
  exact h.dropped_temp_item hc (hl _ rfl).1 (hl _ rfl).2

/-! ### Placing a line -/

theorem Inv.place (h : s.Inv) (hresv : c.type ≠ .cresv) (hhost : c.type.recType.isSome = true →
    c.host ≠ [])
    (hnew : c.temporary = false) (hown : c.inConf = false) (now tklineTime : Int) :
    (s.place c now tklineTime).Inv := by
  have hmade : Made s (s.makeConfItem c) c := made_makeConfItem hresv
  unfold TempState.place
  split
  · exact h.inserted (hmade.temp _) (fun _ => hhost) fun _ => hown
  · have hperm : c.temporary = true → False := fun htemp =>
        Bool.false_ne_true (hnew.symm.trans htemp)
    exact h.inserted (hmade.permanent hnew) (fun htemp => (hperm htemp).elim) fun htemp =>
      (hperm htemp).elim

theorem made_createChannelResv {name : CStr} {inConf : Bool}
    (hcreate : s.createChannelResv name inConf = some t) :
    Made s t { type := .cresv, name := strlcpy name (CHANNELLEN + 1), inConf := inConf } := by
  unfold createChannelResv at hcreate
  split at hcreate
  · cases hcreate
  · obtain rfl := Option.some.inj hcreate
    refine ⟨rfl, rfl, rfl, rfl, fun _ => rfl, (if_pos rfl).symm, ?_, rfl⟩
    intro b
    by_cases hb : b = strhash s.ircdRandomKey (strlcpy name (CHANNELLEN + 1))
    · subst hb
      rw [if_pos ⟨rfl, rfl⟩]
      exact update_self ..
    · rw [if_neg fun hbucket => hb hbucket.2.symm]
      exact update_of_ne hb ..

theorem made_createNickResv {name : CStr} {inConf : Bool}
    (hcreate : s.createNickResv name inConf = some t) :
    Made s t { type := .nresv, name := name, inConf := inConf } := by
  unfold createNickResv at hcreate
  split at hcreate
  · cases hcreate
  · obtain rfl := Option.some.inj hcreate
    exact made_makeConfItem nofun

theorem Made.resv (h : Made s t c) (hrec : c.type.recType = none) (hnew : c.temporary = false) :
    Inserted s t c := by
  have heq : t.addAddress c s.next = t := by
    unfold addAddress
    rw [hrec]
  have := h.permanent hnew
  rwa [heq] at this

theorem Inv.made_resv (h : s.Inv) (hmade : Made s t c) (hrec : c.type.recType = none)
    (hnew : c.temporary = false) : t.Inv := by
  have hperm : c.temporary = true → False := fun htemp => Bool.false_ne_true (hnew.symm.trans htemp)
  exact h.inserted (hmade.resv hrec hnew) (fun htemp => (hperm htemp).elim) fun htemp =>
    (hperm htemp).elim

theorem Inv.made_temp_resv (h : s.Inv) (hmade : Made s t c) (hrec : c.type.recType = none)
    (hown : c.inConf = false) (hold : Int) : (t.addTempLine s.next hold).Inv := by
  refine h.inserted (hmade.temp hold) (fun _ htype => ?_) fun _ => hown
  have : c.type.recType.isSome = true := htype
  rw [hrec] at this
  cases this

theorem Inv.parseResv (h : s.Inv) (isAdmin : Bool) (name : CStr) (now tklineTime : Int) :
    (s.parseResv isAdmin name now tklineTime).Inv := by
  have hplaced : ∀ t c, Made s t c → c.type.recType = none → c.temporary = false →
      c.inConf = false →
      (if tklineTime ≠ 0 then t.addTempLine s.next (now + tklineTime) else t).Inv := by
    intro t c hmade hrec hnew hown
    split
    · exact h.made_temp_resv hmade hrec hown _
    · exact h.made_resv hmade hrec hnew
  simp only [TempState.parseResv]
  split
  · exact h
  · rename_i t hcreated
    split at hcreated
    · exact hplaced t _ (made_createChannelResv hcreated) rfl rfl rfl
    · split at hcreated
      · cases hcreated
      · split at hcreated
        · cases hcreated
        · exact hplaced t _ (made_createNickResv hcreated) rfl rfl rfl

/-! ### UNRESV -/

theorem Inv.dropped_perm_item (h : s.Inv) (hc : s.heap i = some c) (hrec : c.type.recType = none)
    (hresv : c.type ≠ .cresv) (hperm : c.temporary = false) : Dropped s (s.deleteConfItem i) i := by
  have hdrop := h.dropped_item hc hrec hresv fun l => (h.not_temporary hc hperm l).symm
  have hframe : (s.deleteConfItem i).temporary = s.temporary := by
    rw [deleteConfItem_of_some hc]
  rwa [← hframe] at hdrop

theorem Inv.dropped_perm_channel (h : s.Inv) (hc : s.heap i = some c) (hresv : c.type = .cresv)
    (hperm : c.temporary = false) : Dropped s (s.deleteChannelResv i) i := by
  have hdrop := h.dropped_channel hc hresv fun l => (h.not_temporary hc hperm l).symm
  have hframe : (s.deleteChannelResv i).temporary = s.temporary := by
    simp only [deleteChannelResv, deleteConfItem, hc]
  rwa [← hframe] at hdrop

theorem Inv.resvNamed_some (h : s.Inv) {name : CStr} (hfind : s.resvNamed name = some i) :
    ∃ c, s.heap i = some c ∧ c.type = if isChanPrefix name then .cresv else .nresv := by
  unfold resvNamed at hfind
  split at hfind <;> rename_i hchan
  · obtain ⟨c, hc, htype, -⟩ := (h.chains _).mem.mp (mem_of_find?_eq_some hfind)
    exact ⟨c, hc, htype.trans (if_pos hchan).symm⟩
  · obtain ⟨c, hc, hlist⟩ := (h.items _).mem.mp (mem_of_find?_eq_some hfind)
    refine ⟨c, hc, .trans ?_ (if_neg hchan).symm⟩
    cases htype : c.type <;> rw [htype] at hlist <;> first | rfl | cases hlist

theorem Inv.removeResv_eq (h : s.Inv) (name : CStr) :
    s.removeResv name =
      match s.resvNamed name with
      | none => s
      | some i =>
        if (s.heap i).any (·.inConf) then s
        else if isChanPrefix name then s.deleteChannelResv i else s.deleteConfItem i := by
  cases hchan : isChanPrefix name with
  | false =>
    cases hfind : s.findExactResv name <;>
      simp only [TempState.removeResv, resvNamed, hchan, hfind, Bool.false_eq_true, if_false]
  | true =>
    simp only [TempState.removeResv, resvNamed, hchan, if_true]
    cases hfind : s.hashFindResv name with
    | none => simp
    | some i =>
      obtain ⟨c, hc, htype, -⟩ := (h.chains _).mem.mp (mem_of_find?_eq_some hfind)
      have hmem : i ∈ s.resvChannelList := (h.channels.mem_of_some hc).mpr htype
      rw [if_neg]
      simpa using ne_nil_of_mem hmem

theorem Inv.removeResv (h : s.Inv) {name : CStr} (hspares : s.Spares (.removeResv name)) :
    (s.removeResv name).Inv := by
  rw [h.removeResv_eq]
  split
  · exact h
  · rename_i i hfind
    obtain ⟨c, hc, htype⟩ := h.resvNamed_some hfind
    have hperm : c.temporary = false := by
      by_contra htemp
      rw [Bool.not_eq_false] at htemp
      refine hspares i c ⟨hc, htemp, ?_⟩ hfind
      rw [htype]
      split <;> rfl
    split
    · exact h
    · split at htype <;> rename_i hchan
      · rw [if_pos hchan]
        exact h.dropped (h.dropped_perm_channel hc htype hperm)
      · rw [if_neg hchan]
        exact h.dropped (h.dropped_perm_item hc (by rw [htype]; rfl) (by rw [htype]; exact nofun)
          hperm)

theorem Inv.removeResv_dangles (h : s.Inv) {name : CStr} (hspares : ¬s.Spares (.removeResv name)) :
    ¬(s.removeResv name).NoFreed := by
  simp only [Spares, not_forall, not_not] at hspares
  obtain ⟨i, c, ⟨hc, htemp, hlist⟩, hfind⟩ := hspares
  intro hlive
  have hmem : i ∈ s.temporary .resv := ((h.temporary .resv).mem_of_some hc).mpr ⟨htemp, hlist⟩
  rw [h.removeResv_eq, hfind] at hlive
  have hconf : ((s.heap i).any (·.inConf)) = false := by
    rw [hc]
    exact h.own i c hc htemp
  simp only [hconf, Bool.false_eq_true, if_false] at hlive
  split at hlive
  · have := hlive.temporary .resv i (by simpa [deleteChannelResv, deleteConfItem, hc] using hmem)
    simp [deleteChannelResv, deleteConfItem, hc] at this
  · have := hlive.temporary .resv i (by simpa [deleteConfItem, hc] using hmem)
    simp [deleteConfItem, hc] at this

/-! ### Expiry -/

/-- An item that a step leaves was there before it. -/
def Leaves (s t : TempState) : Prop := ∀ i c, t.heap i = some c → s.heap i = some c

theorem Leaves.refl (s : TempState) : Leaves s s := fun _ _ h => h

theorem Leaves.trans {u : TempState} (h : Leaves s t) (h' : Leaves t u) : Leaves s u :=
  fun i c hc => h i c (h' i c hc)

theorem Dropped.leaves (h : Dropped s t i) : Leaves s t := by
  intro j d hd
  rw [h.heap, update_apply] at hd
  split at hd
  · cases hd
  · exact hd

theorem Dropped.gone (h : Dropped s t i) : t.heap i = none := by
  rw [h.heap, update_self]

theorem Inv.expireOne (h : s.Inv) {l : TempList}
    (hmem : ∀ c, s.heap i = some c → c.temporary = true ∧ c.type.tempList = l)
    (hspares : ∀ c, s.heap i = some c → c.type = .cresv → now < c.hold) :
    (s.expireOne now l i).Inv ∧ Leaves s (s.expireOne now l i) ∧
      ∀ c, (s.expireOne now l i).heap i = some c → now < c.hold := by
  unfold TempState.expireOne
  split
  · rename_i hnone
    refine ⟨h, Leaves.refl s, fun c hc => ?_⟩
    rw [hnone] at hc
    cases hc
  · rename_i c hc
    obtain ⟨htemp, rfl⟩ := hmem c hc
    split
    · rename_i hhold
      have hresv : c.type ≠ .cresv := fun htype => absurd (hspares c hc htype) (not_lt.mpr hhold)
      have hdone : ∀ {t}, Dropped s t i → t.Inv ∧ Leaves s t ∧ ∀ c, t.heap i = some c →
          now < c.hold := by
        intro t ht
        refine ⟨h.dropped ht, ht.leaves, fun d hd => ?_⟩
        rw [ht.gone] at hd
        cases hd
      split
      · rename_i hrec
        rw [← deleteOneAddress_unlinkTemp]
        exact hdone (h.dropped_temp_address hc htemp hrec)
      · rename_i hrec
        exact hdone (h.dropped_temp_item hc (Option.not_isSome_iff_eq_none.mp hrec) hresv)
    · rename_i hhold
      refine ⟨h, Leaves.refl s, fun d hd => ?_⟩
      obtain rfl := Option.some.inj (hc.symm.trans hd)
      exact not_le.mp hhold

theorem Inv.expireSome (h : s.Inv) {l : TempList} (is : List Nat)
    (hmem : ∀ i ∈ is, ∀ c, s.heap i = some c → c.temporary = true ∧ c.type.tempList = l)
    (hspares : ∀ i ∈ is, ∀ c, s.heap i = some c → c.type = .cresv → now < c.hold) :
    (is.foldl (fun s i => s.expireOne now l i) s).Inv ∧
      Leaves s (is.foldl (fun s i => s.expireOne now l i) s) ∧
      ∀ i ∈ is, ∀ c, (is.foldl (fun s i => s.expireOne now l i) s).heap i = some c →
        now < c.hold := by
  induction is generalizing s with
  | nil => exact ⟨h, Leaves.refl s, fun _ hi => nomatch hi⟩
  | cons i is ih =>
    obtain ⟨hinv, hleaves, hkept⟩ :=
      h.expireOne (hmem i mem_cons_self) (hspares i mem_cons_self)
    obtain ⟨hinv', hleaves', hkept'⟩ := ih hinv
      (fun j hj c hc => hmem j (mem_cons_of_mem _ hj) c (hleaves j c hc))
      (fun j hj c hc => hspares j (mem_cons_of_mem _ hj) c (hleaves j c hc))
    refine ⟨hinv', hleaves.trans hleaves', fun j hj c hc => ?_⟩
    rcases List.mem_cons.mp hj with rfl | hj
    · exact hkept c (hleaves' j c hc)
    · exact hkept' j hj c hc

/-- No channel RESV is past its time. -/
def NoChannelDue (s : TempState) (now : Int) : Prop :=
  ∀ i c, s.heap i = some c → c.temporary = true → c.type = .cresv → now < c.hold

theorem NoChannelDue.leaves (h : s.NoChannelDue now) (hleaves : Leaves s t) : t.NoChannelDue now :=
  fun i c hc => h i c (hleaves i c hc)

theorem Inv.expireTklines (h : s.Inv) (hdue : s.NoChannelDue now) (l : TempList) :
    (s.expireTklines now l).Inv ∧ Leaves s (s.expireTklines now l) ∧
      ∀ i c, (s.expireTklines now l).heap i = some c → c.temporary = true → c.type.tempList = l →
        now < c.hold := by
  have hmem : ∀ i ∈ s.temporary l, ∀ c, s.heap i = some c →
      c.temporary = true ∧ c.type.tempList = l :=
    fun i hi c hc => ((h.temporary l).mem_of_some hc).mp hi
  obtain ⟨hinv, hleaves, hkept⟩ := h.expireSome (s.temporary l) hmem fun i hi c hc =>
    hdue i c hc (hmem i hi c hc).1
  refine ⟨hinv, hleaves, fun i c hc htemp hl => ?_⟩
  exact hkept i (((h.temporary l).mem_of_some (hleaves i c hc)).mpr ⟨htemp, hl⟩) c hc

theorem Inv.expireLists (h : s.Inv) (hdue : s.NoChannelDue now) (ls : List TempList) :
    (ls.foldl (fun s l => s.expireTklines now l) s).Inv ∧
      Leaves s (ls.foldl (fun s l => s.expireTklines now l) s) ∧
      ∀ i c, (ls.foldl (fun s l => s.expireTklines now l) s).heap i = some c → c.temporary = true →
        c.type.tempList ∈ ls → now < c.hold := by
  induction ls generalizing s with
  | nil => exact ⟨h, Leaves.refl s, fun _ _ _ _ hl => nomatch hl⟩
  | cons l ls ih =>
    obtain ⟨hinv, hleaves, hkept⟩ := h.expireTklines hdue l
    obtain ⟨hinv', hleaves', hkept'⟩ := ih hinv (hdue.leaves hleaves)
    refine ⟨hinv', hleaves.trans hleaves', fun i c hc htemp hl => ?_⟩
    rcases List.mem_cons.mp hl with hl | hl
    · exact hkept i c (hleaves' i c hc) htemp hl
    · exact hkept' i c hc htemp hl

theorem Inv.cleanupTklines (h : s.Inv) (hdue : s.NoChannelDue now) :
    (s.cleanupTklines now).Inv ∧ (s.cleanupTklines now).NoneExpired now := by
  obtain ⟨hinv, -, hkept⟩ := h.expireLists hdue
    [TempList.glines, .klines, .dlines, .xlines, .rxlines, .rklines, .resv]
  refine ⟨hinv, fun i c hc htemp hhold => ?_⟩
  have hlive : now < c.hold := hkept i c hc htemp (by cases c.type <;> simp [LineType.tempList])
  exact absurd hhold (not_le.mpr hlive)

/-! ### What deletions leave alone -/

/-- `t` is `s` after deletions that touch no temporary list. -/
structure Deletes (s t : TempState) : Prop where
  leaves : Leaves s t
  temporary : t.temporary = s.temporary
  next : t.next = s.next

theorem Deletes.refl (s : TempState) : Deletes s s := ⟨Leaves.refl s, rfl, rfl⟩

theorem Deletes.trans {u : TempState} (h : Deletes s t) (h' : Deletes t u) : Deletes s u :=
  ⟨h.leaves.trans h'.leaves, h'.temporary.trans h.temporary, h'.next.trans h.next⟩

theorem Leaves.gone (h : Leaves s t) (hi : s.heap i = none) : t.heap i = none := by
  cases hc : t.heap i with
  | none => rfl
  | some c => exact (h i c hc).symm.trans hi

theorem deleteConfItem_deletes (s : TempState) (i : Nat) : Deletes s (s.deleteConfItem i) := by
  unfold deleteConfItem
  split
  · exact Deletes.refl s
  · refine ⟨fun j d hd => ?_, rfl, rfl⟩
    simp only [update_apply] at hd
    split at hd
    · cases hd
    · exact hd

theorem deleteConfItem_channels (s : TempState) (i : Nat) :
    (s.deleteConfItem i).resvChannelList = s.resvChannelList := by
  unfold deleteConfItem
  split <;> rfl

theorem deleteConfItem_gone (s : TempState) (i : Nat) : (s.deleteConfItem i).heap i = none := by
  cases hc : s.heap i with
  | none => simp [deleteConfItem, hc]
  | some c => simp [deleteConfItem, hc]

theorem deleteChannelResv_deletes (s : TempState) (i : Nat) : Deletes s
    (s.deleteChannelResv i) := by
  unfold deleteChannelResv
  split
  · exact Deletes.refl s
  · obtain ⟨hleaves, htemp, hnext⟩ := deleteConfItem_deletes
      { s with
        resvchannelTable := Buckets.del s.resvchannelTable (strhash s.ircdRandomKey _) i
        resvChannelList := s.resvChannelList.erase i } i
    exact ⟨hleaves, htemp, hnext⟩

theorem deleteChannelResv_gone (s : TempState) (i : Nat) : (s.deleteChannelResv i).heap i =
    none := by
  unfold deleteChannelResv
  split
  · assumption
  · exact deleteConfItem_gone ..

theorem deleteOneAddress_deletes (s : TempState) (i : Nat) : Deletes s (s.deleteOneAddress i) := by
  unfold deleteOneAddress
  split
  · exact Deletes.refl s
  · split
    · obtain ⟨hleaves, htemp, hnext⟩ := deleteConfItem_deletes
        { s with table := deleteOneAddressConf s.table _ (LineConf.access _ i) } i
      exact ⟨hleaves, htemp, hnext⟩
    · exact Deletes.refl s

theorem deleteOneAddress_channels (s : TempState) (i : Nat) :
    (s.deleteOneAddress i).resvChannelList = s.resvChannelList := by
  unfold deleteOneAddress
  split
  · rfl
  · split
    · exact deleteConfItem_channels ..
    · rfl

section Walks

variable {ι : Type*} {f : TempState → ι → TempState}

theorem foldl_deletes (hf : ∀ s x, Deletes s (f s x)) (s : TempState) (xs : List ι) :
    Deletes s (xs.foldl f s) := by
  induction xs generalizing s with
  | nil => exact Deletes.refl s
  | cons x xs ih => exact (hf s x).trans (ih _)

theorem foldl_leaves (hf : ∀ s x, Leaves s (f s x)) (s : TempState) (xs : List ι) :
    Leaves s (xs.foldl f s) := by
  induction xs generalizing s with
  | nil => exact Leaves.refl s
  | cons x xs ih => exact (hf s x).trans (ih _)

theorem foldl_gone (hf : ∀ s x, Leaves s (f s x)) {x : ι} {xs : List ι} (hx : x ∈ xs)
    {s : TempState}
    (hgone : ∀ t, Leaves s t → (f t x).heap i = none) : (xs.foldl f s).heap i = none := by
  induction xs generalizing s with
  | nil => cases hx
  | cons y ys ih =>
    rcases List.mem_cons.mp hx with rfl | hx
    · exact (foldl_leaves hf _ ys).gone (hgone s (Leaves.refl s))
    · exact ih hx fun t ht => hgone t ((hf s y).trans ht)

theorem foldl_same {β : Type*} {g : TempState → β} (hf : ∀ s x, g (f s x) = g s) (s : TempState)
    (xs : List ι) : g (xs.foldl f s) = g s := by
  induction xs generalizing s with
  | nil => rfl
  | cons x xs ih => exact (ih _).trans (hf s x)

end Walks

/-! ### A channel RESV that expires -/

theorem expireOne_leaves (s : TempState) (now : Int) (l : TempList) (i : Nat) :
    Leaves s (s.expireOne now l i) := by
  unfold TempState.expireOne
  split
  · exact Leaves.refl s
  · split
    · split
      · exact (deleteOneAddress_deletes s i).leaves
      · exact (deleteConfItem_deletes (s.unlinkTemp l i) i).leaves
    · exact Leaves.refl s

theorem expireOne_channels (s : TempState) (now : Int) (l : TempList) (i : Nat) :
    (s.expireOne now l i).resvChannelList = s.resvChannelList := by
  unfold TempState.expireOne
  split
  · rfl
  · split
    · split
      · exact deleteOneAddress_channels s i
      · exact deleteConfItem_channels ..
    · rfl

theorem expireOne_temporary (s : TempState) (now : Int) {l l' : TempList} (hl : l' ≠ l) (i : Nat) :
    (s.expireOne now l i).temporary l' = s.temporary l' := by
  unfold TempState.expireOne
  split
  · rfl
  · split
    · split
      · refine (update_of_ne hl ..).trans ?_
        rw [(deleteOneAddress_deletes s i).temporary]
      · rw [(deleteConfItem_deletes _ i).temporary]
        exact update_of_ne hl ..
    · rfl

theorem Inv.cleanupTklines_dangles (h : s.Inv) (hdue : ¬s.NoChannelDue now) :
    ¬(s.cleanupTklines now).NoFreed := by
  simp only [NoChannelDue, not_forall, not_lt] at hdue
  obtain ⟨i, c, hc, htemp, htype, hhold⟩ := hdue
  have hlist : c.type.tempList = .resv := by rw [htype]; rfl
  have hleaves : ∀ (s : TempState) l, Leaves s (s.expireTklines now l) := fun s l =>
    foldl_leaves (fun s i => expireOne_leaves s now l i) s _
  -- The walk of the last list starts from the state that the other lists leave.
  let others : List TempList := [.glines, .klines, .dlines, .xlines, .rxlines, .rklines]
  let u := others.foldl (fun s l => s.expireTklines now l) s
  have hu : s.cleanupTklines now = u.expireTklines now .resv := rfl
  have hmem : i ∈ u.temporary .resv := by
    have hsame : ∀ ls : List TempList, TempList.resv ∉ ls → ∀ s : TempState,
        (ls.foldl (fun s l => s.expireTklines now l) s).temporary .resv = s.temporary .resv := by
      intro ls
      induction ls with
      | nil => exact fun _ _ => rfl
      | cons l ls ih =>
        intro hnot s
        obtain ⟨hl, hls⟩ := not_or.mp (fun hb => hnot (List.mem_cons.mpr hb))
        refine (ih hls _).trans ?_
        exact foldl_same (g := fun s => s.temporary .resv)
          (fun s i => expireOne_temporary s now hl i) s _
    have heq : u.temporary .resv = s.temporary .resv := hsame others (by simp [others]) s
    rw [heq]
    exact ((h.temporary .resv).mem_of_some hc).mpr ⟨htemp, hlist⟩
  have hgone : (s.cleanupTklines now).heap i = none := by
    rw [hu]
    refine foldl_gone (fun s i => expireOne_leaves s now .resv i) hmem fun t ht => ?_
    have hsub : Leaves s t := (foldl_leaves hleaves s others).trans ht
    cases hd : t.heap i with
    | none => simp [TempState.expireOne, hd]
    | some d =>
      obtain rfl := Option.some.inj (hc.symm.trans (hsub i d hd))
      simp only [TempState.expireOne, hd, if_pos hhold, htype]
      exact deleteConfItem_gone ..
  intro hlive
  have hchannels : (s.cleanupTklines now).resvChannelList = s.resvChannelList :=
    foldl_same (g := fun s => s.resvChannelList) (fun s l =>
      foldl_same (g := fun s => s.resvChannelList) (fun s i => expireOne_channels s now l i) s _) s
        _
  have := hlive.channels i (by rw [hchannels]; exact (h.channels.mem_of_some hc).mpr htype)
  rw [hgone] at this
  cases this

/-! ### Clearing the old configuration -/

theorem Inv.walk {ι : Type*} {f : TempState → ι → TempState} {P : TempState → ι → Prop}
    (hf : ∀ s x, s.Inv → P s x → (f s x).Inv) (hleaves : ∀ s x, Leaves s (f s x))
    (hP : ∀ s t x, Leaves s t → P s x → P t x) (h : s.Inv) {xs : List ι} (hxs : ∀ x ∈ xs, P s x) :
    (xs.foldl f s).Inv := by
  induction xs generalizing s with
  | nil => exact h
  | cons x xs ih =>
    refine ih (hf s x h (hxs x mem_cons_self)) fun y hy => ?_
    exact hP s _ y (hleaves s x) (hxs y (mem_cons_of_mem _ hy))

theorem clearItems_turn (l : ItemList) (s : TempState) (i : Nat) :
    Deletes s
      (if l ≠ .nresv ∧ (s.heap i).any (·.temporary) = true then s else s.deleteConfItem i) := by
  split
  · exact Deletes.refl s
  · exact deleteConfItem_deletes s i

theorem clearItems_deletes (s : TempState) (l : ItemList) : Deletes s (s.clearItems l) :=
  foldl_deletes (clearItems_turn l) s _

theorem Inv.clearItems (h : s.Inv) (l : ItemList)
    (hresv : l = .nresv → ∀ i c, s.heap i = some c → c.type = .nresv → c.temporary = false) :
    (s.clearItems l).Inv := by
  refine Inv.walk
    (P := fun s i => ∀ c, s.heap i = some c →
      c.type.itemList = some l ∧ (l = .nresv → c.temporary = false))
    ?_ (fun s i => (clearItems_turn l s i).leaves) (fun s t i hst hi c hc => hi c (hst i c hc)) h ?_
  · intro s i h hi
    split
    · exact h
    · rename_i hnot
      cases hc : s.heap i with
      | none => simpa only [deleteConfItem, hc] using h
      | some c =>
        obtain ⟨hlist, hperm⟩ := hi c hc
        have htemp : c.temporary = false := by
          by_cases hl : l = .nresv
          · exact hperm hl
          · simpa [hc, hl] using hnot
        have hrec : c.type.recType = none := by
          cases htype : c.type <;> rw [htype] at hlist <;> first | rfl | cases hlist
        have hresv : c.type ≠ .cresv := by
          intro htype
          rw [htype] at hlist
          cases hlist
        exact h.dropped (h.dropped_perm_item hc hrec hresv htemp)
  · intro i hi c hc
    have hlist : c.type.itemList = some l := ((h.items l).mem_of_some hc).mp hi
    refine ⟨hlist, fun hl => hresv hl i c hc ?_⟩
    subst hl
    cases htype : c.type <;> rw [htype] at hlist <;> first | rfl | cases hlist

/-- The turns of `clear_out_address_conf` on a bucket. -/
def clearRecord (b : Nat) (s : TempState) (arec : AddressRec) : TempState :=
  let i := arec.aconf.ptr
  if (s.heap i).any (·.temporary) then s
  else
    { s with
      table := { s.table with
        atable := update s.table.atable b
          ((s.table.atable b).eraseP fun arec => arec.aconf.ptr == i) } }.deleteConfItem i

theorem clearRecord_deletes (b : Nat) (s : TempState) (arec : AddressRec) :
    Deletes s (clearRecord b s arec) := by
  unfold clearRecord
  dsimp only
  split
  · exact Deletes.refl s
  · obtain ⟨hleaves, htemp, hnext⟩ := deleteConfItem_deletes
      { s with
        table := { s.table with
          atable := update s.table.atable b
            ((s.table.atable b).eraseP fun a => a.aconf.ptr == arec.aconf.ptr) } } arec.aconf.ptr
    exact ⟨hleaves, htemp, hnext⟩

theorem clearRecord_channels (b : Nat) (s : TempState) (arec : AddressRec) :
    (clearRecord b s arec).resvChannelList = s.resvChannelList := by
  unfold clearRecord
  dsimp only
  split
  · rfl
  · exact deleteConfItem_channels ..

theorem Inv.clearRecord (h : s.Inv) {b : Nat} {arec : AddressRec}
    (harec : ∀ c, s.heap arec.aconf.ptr = some c → c.type.recType.isSome = true ∧ c.bucket = b) :
    (TempState.clearRecord b s arec).Inv := by
  unfold TempState.clearRecord
  dsimp only
  split
  · exact h
  · rename_i hnot
    cases hc : s.heap arec.aconf.ptr with
    | none =>
      obtain ⟨hkey, hheap, hnext, htemp, hitems, hchannels, hchains, htable⟩ := h.dropped_none hc
      refine h.dropped (i := arec.aconf.ptr) ?_
      simp only [deleteConfItem, hc]
      refine ⟨hkey, hheap, hnext, htemp, hitems, hchannels, hchains, fun b' => ?_⟩
      by_cases hb : b' = b
      · subst hb
        simp only [update_self]
        exact eraseP_ptrs _ _
      · simp only [update_of_ne hb]
        exact htable b'
    | some c =>
      obtain ⟨hrec, hb⟩ := harec c hc
      have hperm : c.temporary = false := by simpa [hc] using hnot
      have hdrop := h.dropped_address hc hrec hb fun l => (h.not_temporary hc hperm l).symm
      refine h.dropped (i := arec.aconf.ptr) ?_
      simp only [deleteConfItem, hc] at hdrop ⊢
      exact hdrop

theorem clearBucket_deletes (s : TempState) (b : Nat) : Deletes s (s.clearBucket b) :=
  foldl_deletes (clearRecord_deletes b) s _

theorem Inv.clearBucket (h : s.Inv) (b : Nat) : (s.clearBucket b).Inv := by
  refine Inv.walk
    (P := fun s (arec : AddressRec) => ∀ c, s.heap arec.aconf.ptr = some c →
      c.type.recType.isSome = true ∧ c.bucket = b)
    (fun s arec h harec => h.clearRecord harec) (fun s arec =>
      (clearRecord_deletes b s arec).leaves)
    (fun s t arec hst harec c hc => harec c (hst _ c hc)) h ?_
  intro arec harec c hc
  exact ((h.table b).mem_of_some hc).mp (mem_map_of_mem harec)

theorem clearOutAddressConf_deletes (s : TempState) : Deletes s s.clearOutAddressConf :=
  foldl_deletes clearBucket_deletes s _

theorem Inv.clearOutAddressConf (h : s.Inv) : s.clearOutAddressConf.Inv :=
  Inv.walk (P := fun _ _ => True) (fun _ b h _ => h.clearBucket b)
    (fun s b => (clearBucket_deletes s b).leaves) (fun _ _ _ _ _ => trivial) h fun _ _ => trivial

theorem clearConfResv_deletes (s : TempState) : Deletes s s.clearConfResv :=
  foldl_deletes deleteChannelResv_deletes s _

theorem Inv.clearConfResv (h : s.Inv)
    (hresv : ∀ i c, s.heap i = some c → c.type = .cresv → c.temporary = false) :
    s.clearConfResv.Inv := by
  refine Inv.walk
    (P := fun s i => ∀ c, s.heap i = some c → c.type = .cresv ∧ c.temporary = false) ?_
    (fun s i => (deleteChannelResv_deletes s i).leaves) (fun s t i hst hi c hc => hi c (hst i c hc))
      h
    fun i hi c hc => ?_
  · intro s i h hi
    cases hc : s.heap i with
    | none => simpa only [deleteChannelResv, hc] using h
    | some c => exact h.dropped (h.dropped_perm_channel hc (hi c hc).1 (hi c hc).2)
  · have htype : c.type = .cresv := (h.channels.mem_of_some hc).mp hi
    exact ⟨htype, hresv i c hc htype⟩

theorem clearConfResv_gone (hi : i ∈ s.resvChannelList) : s.clearConfResv.heap i = none :=
  foldl_gone (fun s i => (deleteChannelResv_deletes s i).leaves) hi fun t _ =>
    deleteChannelResv_gone t i

theorem clearLists_deletes (s : TempState) (ls : List ItemList) :
    Deletes s (ls.foldl (fun s l => s.clearItems l) s) :=
  foldl_deletes clearItems_deletes s _

theorem clearOutOldConf_deletes (s : TempState) : Deletes s s.clearOutOldConf :=
  (clearLists_deletes s _).trans
    ((clearOutAddressConf_deletes _).trans (clearConfResv_deletes _))

theorem Inv.clearOutOldConf (h : s.Inv) (hspares : ∀ i c, ¬s.TempResv i c) :
    s.clearOutOldConf.Inv := by
  have hperm : ∀ {t : TempState}, Leaves s t → ∀ i c, t.heap i = some c → c.type.tempList = .resv →
      c.temporary = false := by
    intro t hst i c hc hlist
    by_contra htemp
    exact hspares i c ⟨hst i c hc, by simpa using htemp, hlist⟩
  have hlists : ∀ (ls : List ItemList) {t : TempState}, Leaves s t → t.Inv →
      (ls.foldl (fun s l => s.clearItems l) t).Inv := by
    intro ls
    induction ls with
    | nil => exact fun _ ht => ht
    | cons l ls ih =>
      intro t hst ht
      refine ih (hst.trans (clearItems_deletes t l).leaves)
        (ht.clearItems l fun _ i c hc htype => ?_)
      exact hperm hst i c hc (by rw [htype]; rfl)
  have hcleared := (hlists [.xconf, .rxconf, .rkconf, .nresv] (Leaves.refl s) h).clearOutAddressConf
  refine hcleared.clearConfResv fun i c hc htype => ?_
  refine hperm ?_ i c hc (by rw [htype]; rfl)
  exact (clearLists_deletes s _).leaves.trans (clearOutAddressConf_deletes _).leaves

/-! ### Reading the configuration -/

theorem Inv.permanent (h : s.Inv) (hresv : c.type ≠ .cresv) (hnew : c.temporary = false) :
    ((s.makeConfItem c).addAddress c s.next).Inv := by
  have hperm : c.temporary = true → False := fun htemp => Bool.false_ne_true (hnew.symm.trans htemp)
  exact h.inserted ((made_makeConfItem hresv).permanent hnew) (fun htemp => (hperm htemp).elim)
    fun htemp => (hperm htemp).elim

theorem Inv.makeConfItem_deleted (h : s.Inv) (hlist : c.type.itemList = none) :
    (s.makeConfItem c).deleteConfItem s.next = { s with next := s.next + 1 } := by
  have hnone : update s.heap s.next none = s.heap := by
    rw [← h.fresh s.next le_rfl, update_eq_self]
  simp only [deleteConfItem, makeConfItem, update_self, update_idem, hlist, hnone]

theorem Inv.skip (h : s.Inv) : ({ s with next := s.next + 1 } : TempState).Inv :=
  ⟨fun i hi => h.fresh i (Nat.le_of_succ_le hi), h.temporary, h.items, h.channels, h.chains,
    h.table,
    h.host, h.own⟩

theorem Inv.readLine (h : s.Inv) (line : ConfLine) : (s.readLine line).Inv := by
  cases line with
  | kline user host =>
    exact h.permanent (c := { type := .kline, user := user, host := host }) nofun rfl
  | dline host =>
    simp only [TempState.readLine]
    split
    · rw [h.makeConfItem_deleted rfl]
      exact h.skip
    · exact h.permanent (c := { type := .dline, host := host }) nofun rfl
  | xline name => exact h.made_resv (made_makeConfItem nofun) rfl rfl
  | rxline name => exact h.made_resv (made_makeConfItem nofun) rfl rfl
  | rkline user host => exact h.made_resv (made_makeConfItem nofun) rfl rfl
  | channelResv name inConf =>
    simp only [TempState.readLine]
    cases hcreate : s.createChannelResv name inConf with
    | none => exact h
    | some t => exact h.made_resv (made_createChannelResv hcreate) rfl rfl
  | nickResv name inConf =>
    simp only [TempState.readLine]
    cases hcreate : s.createNickResv name inConf with
    | none => exact h
    | some t => exact h.made_resv (made_createNickResv hcreate) rfl rfl

theorem Inv.readLines (h : s.Inv) (lines : List ConfLine) :
    (lines.foldl TempState.readLine s).Inv := by
  induction lines generalizing s with
  | nil => exact h
  | cons line lines ih => exact ih (h.readLine line)

theorem Inv.readConf (h : s.Inv) (conf : ConfText) :
    (conf.lines.foldl TempState.readLine { s with
      minNonwildcardSimple := conf.minNonwildcardSimple
      glineTime := conf.glineTime }).Inv := by
  refine Inv.readLines ?_ conf.lines
  exact ⟨h.fresh, h.temporary, h.items, h.channels, h.chains, h.table, h.host, h.own⟩

theorem Inv.rehash (h : s.Inv) {conf : Option ConfText} (hspares : s.Spares (.rehash conf)) :
    (s.rehash conf).Inv := by
  cases conf with
  | none => exact h
  | some conf => exact (h.clearOutOldConf hspares).readConf conf

/-! ### A RESV that meets a rehash -/

/-- `t` is `s` with new items that are not temporary. -/
structure Grows (s t : TempState) : Prop where
  temporary : t.temporary = s.temporary
  next : s.next ≤ t.next
  gone : ∀ i, i < s.next → s.heap i = none → t.heap i = none

theorem Grows.refl (s : TempState) : Grows s s := ⟨rfl, le_rfl, fun _ _ h => h⟩

theorem Grows.trans {u : TempState} (h : Grows s t) (h' : Grows t u) : Grows s u :=
  ⟨h'.temporary.trans h.temporary, h.next.trans h'.next, fun i hi hnone =>
    h'.gone i (hi.trans_le h.next) (h.gone i hi hnone)⟩

theorem makeConfItem_grows (s : TempState) (c : LineConf) : Grows s (s.makeConfItem c) where
  temporary := rfl
  next := Nat.le_succ _
  gone _ hi hnone := (update_of_ne hi.ne ..).trans hnone

theorem Made.grows (h : Made s t c) : Grows s t where
  temporary := h.temporary
  next := h.next ▸ Nat.le_succ _
  gone _ hi hnone := by rw [h.heap, update_of_ne hi.ne, hnone]

theorem addAddress_grows (s : TempState) (c : LineConf) (i : Nat) : Grows s (s.addAddress c i) := by
  rw [addAddress_frame]
  exact ⟨rfl, le_rfl, fun _ _ h => h⟩

theorem Deletes.grows (h : Deletes s t) : Grows s t :=
  ⟨h.temporary, h.next.ge, fun _ _ hnone => h.leaves.gone hnone⟩

theorem readLine_grows (s : TempState) (line : ConfLine) : Grows s (s.readLine line) := by
  cases line with
  | kline user host =>
    simp only [TempState.readLine]
    exact (makeConfItem_grows s _).trans (addAddress_grows _ _ _)
  | dline host =>
    simp only [TempState.readLine]
    split
    · exact (makeConfItem_grows s _).trans (deleteConfItem_deletes _ _).grows
    · exact (makeConfItem_grows s _).trans (addAddress_grows _ _ _)
  | xline name => exact makeConfItem_grows s _
  | rxline name => exact makeConfItem_grows s _
  | rkline user host => exact makeConfItem_grows s _
  | channelResv name inConf =>
    simp only [TempState.readLine]
    cases hcreate : s.createChannelResv name inConf with
    | none => exact Grows.refl s
    | some t => exact (made_createChannelResv hcreate).grows
  | nickResv name inConf =>
    simp only [TempState.readLine]
    cases hcreate : s.createNickResv name inConf with
    | none => exact Grows.refl s
    | some t => exact (made_createNickResv hcreate).grows

theorem readLines_grows (s : TempState) (lines : List ConfLine) :
    Grows s (lines.foldl TempState.readLine s) := by
  induction lines generalizing s with
  | nil => exact Grows.refl s
  | cons line lines ih => exact (readLine_grows s line).trans (ih _)

theorem readConf_grows (s : TempState) (conf : ConfText) :
    Grows s (conf.lines.foldl TempState.readLine { s with
      minNonwildcardSimple := conf.minNonwildcardSimple
      glineTime := conf.glineTime }) := by
  refine Grows.trans ?_ (readLines_grows _ conf.lines)
  exact ⟨rfl, le_rfl, fun _ _ h => h⟩

theorem clearItems_keeps {l : ItemList} (hl : l ≠ .nresv) (hc : s.heap i = some c)
    (htemp : c.temporary = true) : (s.clearItems l).heap i = some c := by
  have hwalk : ∀ (is : List Nat) (t : TempState), t.heap i = some c →
      (is.foldl (fun s i => if l ≠ .nresv ∧ (s.heap i).any (·.temporary) = true then s
        else s.deleteConfItem i) t).heap i = some c := by
    intro is
    induction is with
    | nil => exact fun _ ht => ht
    | cons j is ih =>
      intro t ht
      refine ih _ ?_
      dsimp only
      split
      · exact ht
      · rename_i hnot
        have hne : i ≠ j := by
          rintro rfl
          exact hnot ⟨hl, by rw [ht]; exact htemp⟩
        unfold deleteConfItem
        split
        · exact ht
        · exact (update_of_ne hne ..).trans ht
  exact hwalk _ s hc

theorem clearOutAddressConf_channels (s : TempState) :
    s.clearOutAddressConf.resvChannelList = s.resvChannelList := by
  unfold TempState.clearOutAddressConf
  refine foldl_same (g := fun s : TempState => s.resvChannelList) (fun s b => ?_) s _
  exact foldl_same (g := fun s : TempState => s.resvChannelList) (clearRecord_channels b) s _

theorem clearOutOldConf_eq (s : TempState) :
    s.clearOutOldConf =
      ((((s.clearItems .xconf).clearItems .rxconf).clearItems .rkconf).clearItems
        .nresv).clearOutAddressConf.clearConfResv := by
  simp only [TempState.clearOutOldConf, foldl_cons, foldl_nil]

theorem Inv.clearOutOldConf_gone (h : s.Inv) (hresv : s.TempResv i c) :
    s.clearOutOldConf.heap i = none := by
  obtain ⟨hc, htemp, hlist⟩ := hresv
  have hx := h.clearItems .xconf nofun
  have hrx := hx.clearItems .rxconf nofun
  have hlines := hrx.clearItems .rkconf nofun
  have hkx : (s.clearItems .xconf).heap i = some c := clearItems_keeps nofun hc htemp
  have hkrx : ((s.clearItems .xconf).clearItems .rxconf).heap i = some c :=
    clearItems_keeps nofun hkx htemp
  have hkept : (((s.clearItems .xconf).clearItems .rxconf).clearItems .rkconf).heap i = some c :=
    clearItems_keeps nofun hkrx htemp
  rw [clearOutOldConf_eq]
  generalize ((s.clearItems .xconf).clearItems .rxconf).clearItems .rkconf = lines at hlines hkept ⊢
  cases htype : c.type with
  | nresv =>
    refine ((clearOutAddressConf_deletes _).leaves.trans (clearConfResv_deletes _).leaves).gone ?_
    refine foldl_gone (fun s i => (clearItems_turn .nresv s i).leaves)
      (((hlines.items .nresv).mem_of_some hkept).mpr (by rw [htype]; rfl)) fun t _ => ?_
    rw [if_neg fun hb => hb.1 rfl]
    exact deleteConfItem_gone t i
  | cresv =>
    have hchannels : (lines.clearItems .nresv).clearOutAddressConf.resvChannelList =
        lines.resvChannelList := by
      refine (clearOutAddressConf_channels _).trans ?_
      refine foldl_same (g := fun s : TempState => s.resvChannelList) (fun s i => ?_) _ _
      rw [if_neg fun hb => hb.1 rfl]
      exact deleteConfItem_channels s i
    apply clearConfResv_gone
    rw [hchannels]
    exact (hlines.channels.mem_of_some hkept).mpr htype
  | dline => rw [htype] at hlist; cases hlist
  | kline => rw [htype] at hlist; cases hlist
  | gline => rw [htype] at hlist; cases hlist
  | xline => rw [htype] at hlist; cases hlist
  | rxline => rw [htype] at hlist; cases hlist
  | rkline => rw [htype] at hlist; cases hlist

theorem Inv.rehash_dangles (h : s.Inv) {conf : Option ConfText} (hspares : ¬s.Spares (.rehash conf))
    :
    ¬(s.rehash conf).NoFreed := by
  cases conf with
  | none => exact absurd trivial hspares
  | some conf =>
    simp only [Spares, not_forall, not_not] at hspares
    obtain ⟨i, c, hresv⟩ := hspares
    have hdeletes := clearOutOldConf_deletes s
    have hgrows := readConf_grows s.clearOutOldConf conf
    have hgone : (s.rehash (some conf)).heap i = none := by
      refine hgrows.gone i ?_ (h.clearOutOldConf_gone hresv)
      rw [hdeletes.next]
      exact h.lt_next hresv.1
    have htemp : (s.rehash (some conf)).temporary = s.temporary :=
      hgrows.temporary.trans hdeletes.temporary
    intro hlive
    have hmem : i ∈ s.temporary .resv := ((h.temporary .resv).mem_of_some hresv.1).mpr hresv.2
    have := hlive.temporary .resv i (by rw [htemp]; exact hmem)
    rw [hgone] at this
    cases this

/-! ### Steps and runs -/

theorem noChannelDue_iff : s.NoChannelDue now ↔ s.Spares (.cleanupTklines now) := by
  constructor
  · rintro h i c ⟨hc, htemp, -⟩ htype
    exact h i c hc htemp htype
  · intro h i c hc htemp htype
    exact h i c ⟨hc, htemp, by rw [htype]; rfl⟩ htype

theorem Inv.step (h : s.Inv) (input : TempInput) (hspares : s.Spares input) :
    (s.step input).Inv := by
  cases input with
  | applyKline mask now tklineTime =>
    exact h.place (by nofun) (fun _ => mask.host_ne) rfl rfl now tklineTime
  | applyDline mask now tklineTime =>
    exact h.place (by nofun) (fun _ => mask.host_ne) rfl rfl now tklineTime
  | setLocalGline mask now =>
    exact h.inserted ((made_makeConfItem (by nofun)).temp _) (fun _ _ => mask.host_ne) fun _ =>
      rfl
  | writeXline gecos now tklineTime => exact h.place (by nofun) (by nofun) rfl rfl now tklineTime
  | writeRxline gecos now tklineTime => exact h.place (by nofun) (by nofun) rfl rfl now tklineTime
  | applyRkline user host now tklineTime =>
    exact h.place (by nofun) (by nofun) rfl rfl now tklineTime
  | parseResv isAdmin name now tklineTime => exact h.parseResv isAdmin name now tklineTime
  | removeTklineMatch host user =>
    exact h.removeFirst_address _ fun type hl => by
      cases type <;> first | rfl | cases hl
  | removeTdlineMatch cidr =>
    exact h.removeFirst_address _ fun type hl => by
      cases type <;> first | rfl | cases hl
  | removeGlineMatch user host =>
    exact h.removeFirst_address _ fun type hl => by
      cases type <;> first | rfl | cases hl
  | removeTxlineMatch gecos =>
    exact h.removeFirst_item _ fun type hl => by
      cases type <;> first | (cases hl; done) | exact ⟨rfl, by nofun⟩
  | removeTxline gecos =>
    exact h.removeFirst_item _ fun type hl => by
      cases type <;> first | (cases hl; done) | exact ⟨rfl, by nofun⟩
  | removeTrklineMatch host user =>
    exact h.removeFirst_item _ fun type hl => by
      cases type <;> first | (cases hl; done) | exact ⟨rfl, by nofun⟩
  | removeResv name => exact h.removeResv hspares
  | cleanupTklines now => exact (h.cleanupTklines (noChannelDue_iff.mpr hspares)).1
  | rehash conf => exact h.rehash hspares

theorem Inv.step_dangles (h : s.Inv) (input : TempInput) (hspares : ¬s.Spares input) :
    ¬(s.step input).NoFreed := by
  cases input with
  | removeResv name => exact h.removeResv_dangles hspares
  | cleanupTklines now => exact h.cleanupTklines_dangles (mt noChannelDue_iff.mp hspares)
  | rehash conf => exact h.rehash_dangles hspares
  | _ => exact absurd trivial hspares

/-- `RESV #x` for a minute, and an expiry run two minutes later. -/
def expiringResv : List TempInput :=
  [.parseResv true "#x".toList 0 60, .cleanupTklines 120]

end TempState

end Ircd
