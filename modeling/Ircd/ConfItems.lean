import Ircd.ClassCount
import Ircd.Lib.DList
import Ircd.Lib.Run
import Mathlib.Data.List.Perm.Subperm

/-!
Configuration items in memory: when a rehash or `detach_conf` unlinks and frees
them.

A class is a node of the doubly linked `class_items`; the confs with a class, and the
hub and leaf confs, hold a count of the connections they are attached to.
`check_class` unlinks a dropped class that still has users, and `detach_conf`
unlinks it once more when the last of them leaves.

- `ConfState.Settled`: `class_items` is a list of the configured classes, and the
  items in memory are the configured ones and those in use.
- `conf_items_settled`: the runs in which that stays so.
- `class_unlinked_twice`: the run in which the client of a dropped class leaves.

The CIDR blocks of a class and its limits are in `ClassCount`; whether
`cidr_limit_reached` refuses a client is left open here.
-/

namespace Ircd

open Function List

/-! ### The state -/

/-- A class in memory: `name`, `MaxTotal` and `CurrUserCount`. -/
structure ClassRec where
  name : Option CStr
  maxTotal : Int
  currUserCount : Int
  deriving DecidableEq

/-- A conf in memory. Confs with a class use `clients`, hub and leaf confs
`ref_count`. -/
structure ConfRec where
  type : ConfType
  classPtr : Nat
  clients : Nat := 0
  refCount : Nat := 0
  illegal : Bool := false
  deriving DecidableEq

/-- A conf on the list `confs` of a connection. -/
structure Held where
  conn : Nat
  conf : Nat
  deriving DecidableEq

/-- The items in memory by their address, `class_items`, the confs on
`server_items`, `oconf_items`, `hub_items`, `leaf_items` and in the address table,
what the connections hold, the most recent first, and the class blocks of the
configuration that was read last. -/
structure ConfState where
  classes : Nat → Option ClassRec
  classItems : DList Nat
  confs : Nat → Option ConfRec
  listed : List Nat
  held : List Held
  config : List ClassDef
  nextPtr : Nat

/-- The calls that reach the items. `attach` is of a listed conf, with the answer of
`cidr_limit_reached`; `detach` is `detach_conf` with one type, `exit` with
`CONF_TYPE`. -/
inductive ConfOp where
  | attach (conn place : Nat) (limitReached : Bool)
  | detach (conn : Nat) (type : ConfType)
  | exit (conn : Nat)
  | rehash (defs : List ClassDef) (confs : List ConfDef)

/-- `MAXIMUM_LINKS_DEFAULT`. -/
def MAXIMUM_LINKS_DEFAULT : Int := 0

/-- `find_exact_name_conf` compares the name of a class unless it is empty. -/
def ClassRec.named (c : ClassRec) (name : CStr) : Bool :=
  c.name.any fun n => !n.isEmpty && ircEq n name

/-- `CurrUserCount` goes down unless it is zero. -/
def ClassRec.leave (c : ClassRec) : ClassRec :=
  if 0 < c.currUserCount then { c with currUserCount := c.currUserCount - 1 } else c

/-- What a class keeps while clients come and go. -/
def ClassRec.key (c : ClassRec) : Option CStr × Int := (c.name, c.maxTotal)

/-- A connection holds the conf, as far as its counter tells. -/
def ConfRec.inUse (f : ConfRec) : Bool :=
  if f.type.hasClass then f.clients != 0 else decide (0 < f.refCount)

namespace ConfState

variable (s : ConfState)

/-- The items of `class_items` in order. -/
def walkClasses : List Nat := DList.walk s.classItems.nodes s.nextPtr s.classItems.head

/-- `delete_conf_item` for a class. -/
def deleteClass (p : Nat) : ConfState :=
  { s with classItems := s.classItems.delete p, classes := update s.classes p none }

/-- `delete_conf_item` for a conf: an illegal one is on no list any more. -/
def deleteConf (p : Nat) (c : ConfRec) : ConfState :=
  { s with
    listed := if c.illegal then s.listed else s.listed.erase p
    confs := update s.confs p none }

/-! ### Attaching and detaching -/

/-- `attach_conf`. -/
def attachConf (conn p : Nat) (limitReached : Bool) : ConfState :=
  if ⟨conn, p⟩ ∈ s.held then s
  else
    match s.confs p with
    | none => s
    | some f =>
      if f.type.hasClass then
        if f.illegal then s
        else if f.type = .client then
          match s.classes f.classPtr with
          | none => s
          | some c =>
            if limitReached then s
            else
              { s with
                classes := update s.classes f.classPtr
                  (some { c with currUserCount := c.currUserCount + 1 })
                confs := update s.confs p (some { f with clients := f.clients + 1 })
                held := ⟨conn, p⟩ :: s.held }
        else
          { s with
            confs := update s.confs p (some { f with clients := f.clients + 1 })
            held := ⟨conn, p⟩ :: s.held }
      else
        { s with
          confs := update s.confs p (some { f with refCount := f.refCount + 1 })
          held := ⟨conn, p⟩ :: s.held }

/-- The class of a conf that is detached. -/
def leaveClass (p : Nat) : ConfState :=
  match s.classes p with
  | none => s
  | some c =>
    if c.leave.maxTotal < 0 ∧ c.leave.currUserCount ≤ 0 then
      { s with classes := update s.classes p (some c.leave) }.deleteClass p
    else { s with classes := update s.classes p (some c.leave) }

/-- One conf of the loop of `detach_conf`. -/
def detachHeld (a : Held) : ConfState :=
  let s := { s with held := s.held.erase a }
  match s.confs a.conf with
  | none => s
  | some f =>
    if f.type.hasClass then
      let s := s.leaveClass f.classPtr
      let f := { f with clients := f.clients - 1 }
      let s := { s with confs := update s.confs a.conf (some f) }
      if f.clients = 0 ∧ f.illegal then s.deleteConf a.conf f else s
    else if f.refCount = 0 ∧ f.illegal then s.deleteConf a.conf f
    else s

/-- The confs of a connection that `detach_conf` is about: all, or the first of a
type. -/
def detached (conn : Nat) : Option ConfType → List Held
  | none => s.held.filter fun a => a.conn == conn
  | some type =>
    (s.held.find? fun a => a.conn == conn && (s.confs a.conf).any fun f => f.type == type).toList

/-- `detach_conf`. -/
def detachConf (conn : Nat) (type : Option ConfType) : ConfState :=
  (s.detached conn type).foldl detachHeld s

/-! ### Rehash -/

/-- `clear_out_old_conf` with `clear_out_address_conf`: the confs leave their lists,
and those in use become illegal, the others are freed; the classes but the last are
marked. -/
def clearOutOldConf : ConfState :=
  { s with
    confs := fun p =>
      if p ∈ s.listed then
        (s.confs p).bind fun f => if f.inUse then some { f with illegal := true } else none
      else s.confs p
    listed := []
    classes := fun p =>
      if p ∈ s.walkClasses ∧ s.classItems.tail ≠ some p then
        (s.classes p).map fun c => { c with maxTotal := -1 }
      else s.classes p }

/-- `find_exact_name_conf` for a class. -/
def findClass (name : CStr) : Option Nat :=
  s.walkClasses.find? fun p => (s.classes p).any fun c => c.named name

/-- `make_conf_item` for a class. -/
def makeClass : ConfState :=
  { s with
    classes := update s.classes s.nextPtr (some ⟨none, MAXIMUM_LINKS_DEFAULT, 0⟩)
    classItems := s.classItems.add s.nextPtr
    nextPtr := s.nextPtr + 1 }

/-- `class_entry`: a class of the name is written over and the new item freed;
else the new item gets the name. -/
def classEntry (d : ClassDef) : ConfState :=
  let s' := s.makeClass
  match s'.findClass d.name with
  | some q =>
    { s' with classes := update s'.classes q (some ⟨some d.name, d.maxTotal, 0⟩) }.deleteClass
      s.nextPtr
  | none =>
    { s' with
      classes := update s'.classes s.nextPtr (some ⟨some d.name, d.maxTotal, 0⟩) }

/-- `conf_add_class_to_conf`. -/
def confClass (className : Option CStr) : Nat :=
  match className with
  | none => classDefault
  | some name =>
    match s.findClass name with
    | none => classDefault
    | some p =>
      match s.classes p with
      | none => classDefault
      | some c => if c.maxTotal < 0 then classDefault else p

def confEntry (d : ConfDef) : ConfState :=
  { s with
    confs := update s.confs s.nextPtr (some { type := d.type, classPtr := s.confClass d.className })
    listed := s.nextPtr :: s.listed
    nextPtr := s.nextPtr + 1 }

/-- The body of the loop of `check_class`. -/
def checkOne (p : Nat) : ConfState :=
  match s.classes p with
  | none => s
  | some c =>
    if c.maxTotal < 0 then
      if 0 < c.currUserCount then { s with classItems := s.classItems.delete p } else s.deleteClass
        p
    else s

/-- `check_class`. -/
def checkClass : ConfState := s.walkClasses.foldl checkOne s

/-- `read_conf_files` of a rehash. -/
def rehash (defs : List ClassDef) (confs : List ConfDef) : ConfState :=
  { (confs.foldl confEntry (defs.foldl classEntry s.clearOutOldConf)).checkClass with config := defs }

def step : ConfOp → ConfState
  | .attach conn place limitReached =>
    match s.listed[place]? with
    | none => s
    | some p => s.attachConf conn p limitReached
  | .detach conn type => s.detachConf conn (some type)
  | .exit conn => s.detachConf conn none
  | .rehash defs confs => s.rehash defs confs

end ConfState

/-- The items after `init_class`. -/
def ConfState.start : ConfState where
  classes := fun p =>
    if p = classDefault then some ⟨some "default".toList, MAXIMUM_LINKS_DEFAULT, 0⟩ else none
  classItems := DList.add ⟨fun _ => ⟨none, none⟩, none, none⟩ classDefault
  confs := fun _ => none
  listed := []
  held := []
  config := []
  nextPtr := 1

/-! ### What is asked of the items -/

namespace ConfState

variable (s : ConfState)

/-- A client refers to the class by a conf it holds. -/
def ClassInUse (p : Nat) : Prop :=
  ∃ a ∈ s.held, ∃ f, s.confs a.conf = some f ∧ f.type.hasClass = true ∧ f.classPtr = p

def ConfInUse (p : Nat) : Prop := ∃ a ∈ s.held, a.conf = p

def Has (p : Nat) (name : CStr) : Prop := ∃ c, s.classes p = some c ∧ c.name = some name

/-- The list holds the default class and the classes of the configuration: each
block has one class, the blocks of one name have one together, and there are no
others. -/
structure Configured (xs : List Nat) : Prop where
  default : classDefault ∈ xs
  fromConfig : ∀ p ∈ xs, p = classDefault ∨ ∃ d ∈ s.config, s.Has p d.name
  allOfConfig : ∀ d ∈ s.config, ∃ p ∈ xs, ∃ name, s.Has p name ∧ ircEq name d.name = true
  distinct : ∀ p ∈ xs, ∀ q ∈ xs, ∀ m n, s.Has p m → s.Has q n → m ≠ [] → ircEq m n = true → p = q

/-- `class_items` is a list of the configured classes; a class is in memory while it
is configured or a client refers to it, a conf while it is listed or held. -/
def Settled : Prop :=
  ∃ xs, s.classItems.IsList xs ∧ s.Configured xs ∧
    (∀ p, (s.classes p).isSome = true ↔ p ∈ xs ∨ s.ClassInUse p) ∧
    ∀ p, (s.confs p).isSome = true ↔ p ∈ s.listed ∨ s.ConfInUse p

def holders (p : Nat) : Nat := s.held.countP fun a => a.conf == p

/-- A conf is detached that is not the last counted one of a dropped class, and a
dropped hub or leaf conf not from its last holder. -/
def KeepsDetached (a : Held) : Prop :=
  (∀ f c, s.confs a.conf = some f → f.type.hasClass = true → s.classes f.classPtr = some c →
    c.maxTotal < 0 → 1 < c.currUserCount) ∧
  ∀ f, s.confs a.conf = some f → f.type.hasClass = false → f.illegal = true →
    1 < s.holders a.conf

/-- The call keeps the items settled: a conf that is detached is not the last
counted one of a class that was dropped, and a dropped hub or leaf conf stays
held; a rehash drops no class that a client refers to without being counted, and no
hub or leaf conf that was held before and is not now. -/
def Keeps : ConfOp → Prop
  | .attach _ _ _ => True
  | .detach conn type => Run.Guarded detachHeld KeepsDetached s (s.detached conn (some type))
  | .exit conn => Run.Guarded detachHeld KeepsDetached s (s.detached conn none)
  | .rehash defs _ =>
    (∀ p ∈ s.walkClasses, s.classItems.tail ≠ some p → ∀ c, s.classes p = some c →
      (∀ d ∈ defs, c.named d.name = false) → c.currUserCount ≤ 0 → ¬s.ClassInUse p) ∧
    ∀ p ∈ s.listed, ∀ f, s.confs p = some f → f.type.hasClass = false → 0 < f.refCount →
      s.ConfInUse p

/-! ### The invariant -/

/-- How many connections a class has through client confs. -/
def classUsers (p : Nat) : Nat :=
  s.held.countP fun a => (s.confs a.conf).any fun f => f.type == .client && f.classPtr == p

/-- What holds of the items at any time, also while a configuration is read; `xs` is
what `class_items` holds. A class that is not on the list was dropped and has
users, and an illegal conf is held. -/
structure Inv (xs : List Nat) : Prop where
  list : s.classItems.IsList xs
  last : xs.getLast? = some classDefault
  linked : ∀ {p}, p ∈ xs → (s.classes p).isSome = true
  freshClass : ∀ {p}, s.nextPtr ≤ p → s.classes p = none
  freshConf : ∀ {p}, s.nextPtr ≤ p → s.confs p = none
  dropped : ∀ {p c}, s.classes p = some c → p ∉ xs → c.maxTotal < 0 ∧ 0 < c.currUserCount
  count : ∀ {p c}, s.classes p = some c → 0 ≤ c.currUserCount ∧ c.currUserCount ≤ s.classUsers p
  alive : ∀ {a}, a ∈ s.held → (s.confs a.conf).isSome = true
  listed : ∀ p, p ∈ s.listed ↔ ∃ f, s.confs p = some f ∧ f.illegal = false
  clients : ∀ {p f}, s.confs p = some f → f.type.hasClass = true → f.clients = s.holders p
  refCount : ∀ {p f}, s.confs p = some f → f.type.hasClass = false → s.holders p ≤ f.refCount
  illegal : ∀ {p f}, s.confs p = some f → f.illegal = true → 0 < s.holders p
  classAlive : ∀ {p f}, s.confs p = some f → f.type.hasClass = true →
    (s.classes f.classPtr).isSome = true
  listedClass : ∀ {p f}, s.confs p = some f → f.illegal = false → f.classPtr ∈ xs
  distinct : ∀ {p q m n}, p ∈ xs → q ∈ xs → s.Has p m → s.Has q n → m ≠ [] → ircEq m n = true →
    p = q

variable {s} {xs : List Nat} {p q : Nat} {f : ConfRec} {c : ClassRec} {a : Held}

theorem Inv.walkClasses (h : s.Inv xs) : s.walkClasses = xs := by
  have hsub : xs ⊆ List.range s.nextPtr := by
    intro p hp
    rw [mem_range]
    by_contra hlt
    have hsome := h.linked hp
    rw [h.freshClass (not_lt.mp hlt)] at hsome
    cases hsome
  have hlen := (List.Nodup.subperm h.list.nodup hsub).length_le
  rw [length_range] at hlen
  exact h.list.walk_eq hlen

theorem Inv.default_mem (h : s.Inv xs) : classDefault ∈ xs := mem_of_getLast? h.last

theorem Inv.tail (h : s.Inv xs) : s.classItems.tail = some classDefault := h.list.tail.trans h.last

theorem any_update {confs : Nat → Option ConfRec} (hf : confs p = some f) (f' : ConfRec)
    (g : ConfRec → Bool) (hg : g f' = g f) (q : Nat) :
    (update confs p (some f') q).any g = (confs q).any g := by
  by_cases hq : q = p
  · rw [hq, update_self, hf, Option.any_some, Option.any_some, hg]
  · rw [update_of_ne hq]

theorem conf_of_update {confs : Nat → Option ConfRec} {r : Option ConfRec}
    (h : update confs p r q = some f) : q = p ∧ r = some f ∨ q ≠ p ∧ confs q = some f := by
  by_cases hq : q = p
  · rw [hq, update_self] at h
    exact Or.inl ⟨hq, h⟩
  · rw [update_of_ne hq] at h
    exact Or.inr ⟨hq, h⟩

theorem Inv.fresh_update (h : s.Inv xs) (hf : s.confs p = some f) (r : Option ConfRec)
    (hq : s.nextPtr ≤ q) : update s.confs p r q = none := by
  have hne : q ≠ p := by
    rintro rfl
    rw [h.freshConf hq] at hf
    cases hf
  exact (update_of_ne hne _ _).trans (h.freshConf hq)

theorem classInUse_of_classUsers (h : 0 < s.classUsers p) : s.ClassInUse p := by
  obtain ⟨a, ha, hany⟩ := List.countP_pos_iff.mp h
  obtain ⟨f, hf, hcond⟩ := (Option.any_eq_true _ _).mp hany
  rw [Bool.and_eq_true, beq_iff_eq, beq_iff_eq] at hcond
  exact ⟨a, ha, f, hf, by rw [hcond.1]; rfl, hcond.2⟩

theorem holders_pos (ha : a ∈ s.held) : 0 < s.holders a.conf :=
  List.countP_pos_iff.mpr ⟨a, ha, beq_self_eq_true _⟩

theorem confInUse_iff : s.ConfInUse p ↔ 0 < s.holders p := by
  constructor
  · rintro ⟨a, ha, rfl⟩
    exact holders_pos ha
  · intro hpos
    obtain ⟨a, ha, hconf⟩ := List.countP_pos_iff.mp hpos
    exact ⟨a, ha, eq_of_beq hconf⟩

theorem Inv.setCount (h : s.Inv xs) (hc : s.classes p = some c) {n : Int} (hn : 0 ≤ n)
    (husers : n ≤ s.classUsers p) (hout : p ∉ xs → 0 < n) :
    Inv { s with classes := update s.classes p (some { c with currUserCount := n }) }
      xs := by
  have hsome : ∀ q, (update s.classes p (some { c with currUserCount := n }) q).isSome =
      (s.classes q).isSome := by
    intro q
    by_cases hq : q = p
    · rw [hq, update_self, hc]
      rfl
    · rw [update_of_ne hq]
  have hhas : ∀ {q m}, Has { s with
      classes := update s.classes p (some { c with currUserCount := n })
        } q m → s.Has q m := by
    rintro q m ⟨c', hc', hname⟩
    change update s.classes p _ q = some c' at hc'
    by_cases hq : q = p
    · rw [hq, update_self] at hc'
      cases hc'
      exact ⟨c, hq ▸ hc, hname⟩
    · rw [update_of_ne hq] at hc'
      exact ⟨c', hc', hname⟩
  refine { h with
    linked := fun hp => (hsome _).trans (h.linked hp)
    freshClass := fun {q} hq => ?_
    dropped := fun {q c'} hc' hq => ?_
    count := fun {q c'} hc' => ?_
    classAlive := fun hf hclass => (hsome _).trans (h.classAlive hf hclass)
    distinct := fun hp hq hm hn' => h.distinct hp hq (hhas hm) (hhas hn') }
  · have hnone : s.classes q = none := h.freshClass hq
    have hother := hsome q
    rw [hnone, Option.isSome_none, Option.isSome_eq_false_iff, Option.isNone_iff_eq_none] at hother
    exact hother
  · change update s.classes p _ q = some c' at hc'
    by_cases hqp : q = p
    · rw [hqp, update_self] at hc'
      cases hc'
      exact ⟨(h.dropped hc (hqp ▸ hq)).1, hout (hqp ▸ hq)⟩
    · rw [update_of_ne hqp] at hc'
      exact h.dropped hc' hq
  · change update s.classes p _ q = some c' at hc'
    by_cases hqp : q = p
    · rw [hqp, update_self] at hc'
      cases hc'
      rw [hqp]
      exact ⟨hn, husers⟩
    · rw [update_of_ne hqp] at hc'
      exact h.count hc'

/-! ### Attaching -/

theorem countP_cons_held (g : Held → Bool) (a : Held) (l : List Held) :
    (a :: l).countP g = l.countP g + if g a = true then 1 else 0 := by
  rw [countP_cons]

theorem Inv.hold (h : s.Inv xs) (conn : Nat) (hf : s.confs p = some f) {f' : ConfRec}
    (htype : f'.type = f.type) (hptr : f'.classPtr = f.classPtr) (hlegal : f'.illegal = f.illegal)
    (hclients : f.type.hasClass = true → f'.clients = f.clients + 1)
    (href : f.type.hasClass = false → f'.refCount = f.refCount + 1) :
    Inv { s with confs := update s.confs p (some f'), held := ⟨conn, p⟩ :: s.held }
      xs := by
  have hconf : ∀ {q g}, update s.confs p (some f') q = some g →
      q = p ∧ g = f' ∨ q ≠ p ∧ s.confs q = some g := fun hg =>
    (conf_of_update hg).imp (fun hboth => ⟨hboth.1, (Option.some.inj hboth.2).symm⟩) id
  have hself : update s.confs p (some f') p = some f' := update_self _ _ _
  have hholders : ∀ q, List.countP (fun a : Held => a.conf == q) (⟨conn, p⟩ :: s.held) =
      s.holders q + if p = q then 1 else 0 := by
    intro q
    rw [countP_cons_held]
    simp only [beq_iff_eq]
    rfl
  refine { h with
    freshConf := fun {q} hq => h.fresh_update hf _ hq
    count := fun {q c} hc => ?_
    alive := fun {a} ha => ?_
    listed := fun q => ?_
    clients := fun {q g} hg hclass => ?_
    refCount := fun {q g} hg hclass => ?_
    illegal := fun {q g} hg hill => ?_
    classAlive := fun {q g} hg hclass => ?_
    listedClass := fun {q g} hg hill => ?_ }
  · obtain ⟨hlow, hhigh⟩ := h.count hc
    refine ⟨hlow, hhigh.trans ?_⟩
    have hpred : ∀ a : Held, ((update s.confs p (some f') a.conf).any fun g =>
        g.type == .client && g.classPtr == q) =
        (s.confs a.conf).any fun g => g.type == .client && g.classPtr == q := fun a =>
      any_update hf f' _ (by rw [htype, hptr]) _
    have hmore : s.classUsers q ≤ List.countP (fun a : Held =>
        (update s.confs p (some f') a.conf).any fun g =>
          g.type == .client && g.classPtr == q)
        (⟨conn, p⟩ :: s.held) := by
      simp only [hpred]
      rw [countP_cons_held]
      exact Nat.le_add_right _ _
    exact_mod_cast hmore
  · change (update s.confs p (some f') a.conf).isSome = true
    by_cases hp : a.conf = p
    · rw [hp, hself]
      rfl
    · rw [update_of_ne hp]
      rcases List.mem_cons.mp ha with rfl | ha
      · exact absurd rfl hp
      · exact h.alive ha
  · rw [h.listed q]
    constructor
    · rintro ⟨g, hg, hill⟩
      by_cases hq : q = p
      · rw [hq, hf] at hg
        cases hg
        exact ⟨f', hq ▸ hself, hlegal.trans hill⟩
      · exact ⟨g, (update_of_ne hq _ _).trans hg, hill⟩
    · rintro ⟨g, hg, hill⟩
      rcases hconf hg with ⟨rfl, rfl⟩ | ⟨-, hg⟩
      · exact ⟨f, hf, hlegal.symm.trans hill⟩
      · exact ⟨g, hg, hill⟩
  · change g.clients = List.countP (fun a : Held => a.conf == q) (⟨conn, p⟩ :: s.held)
    rw [hholders]
    rcases hconf hg with ⟨rfl, rfl⟩ | ⟨hne, hg⟩
    · rw [htype] at hclass
      rw [hclients hclass, h.clients hf hclass, if_pos rfl]
    · rw [if_neg (Ne.symm hne), h.clients hg hclass, Nat.add_zero]
  · change List.countP (fun a : Held => a.conf == q) (⟨conn, p⟩ :: s.held) ≤ g.refCount
    rw [hholders]
    rcases hconf hg with ⟨rfl, rfl⟩ | ⟨hne, hg⟩
    · rw [htype] at hclass
      rw [href hclass, if_pos rfl]
      exact Nat.add_le_add_right (h.refCount hf hclass) 1
    · rw [if_neg (Ne.symm hne), Nat.add_zero]
      exact h.refCount hg hclass
  · change 0 < List.countP (fun a : Held => a.conf == q) (⟨conn, p⟩ :: s.held)
    rw [hholders]
    rcases hconf hg with ⟨rfl, rfl⟩ | ⟨hne, hg⟩
    · exact Nat.add_pos_left (h.illegal hf (hlegal ▸ hill)) _
    · exact Nat.add_pos_left (h.illegal hg hill) _
  · rcases hconf hg with ⟨rfl, rfl⟩ | ⟨-, hg⟩
    · rw [hptr]
      exact h.classAlive hf (htype ▸ hclass)
    · exact h.classAlive hg hclass
  · rcases hconf hg with ⟨rfl, rfl⟩ | ⟨-, hg⟩
    · rw [hptr]
      exact h.listedClass hf (hlegal ▸ hill)
    · exact h.listedClass hg hill

theorem Inv.attachConf (h : s.Inv xs) (conn p : Nat) (limitReached : Bool) :
    (s.attachConf conn p limitReached).Inv xs := by
  unfold ConfState.attachConf
  split
  · exact h
  · split
    · exact h
    · rename_i f hf
      split
      · rename_i hclass
        have hnohub : ¬f.type.hasClass = false := by rw [hclass]; exact Bool.noConfusion
        split
        · exact h
        · split
          · rename_i hclient
            split
            · exact h
            · rename_i c hc
              split
              · exact h
              · -- the count goes up after the client is among the users of the class
                have hheld : Inv { s with
                    confs := update s.confs p (some { f with clients := f.clients + 1 })
                    held := ⟨conn, p⟩ :: s.held } xs :=
                  h.hold conn hf rfl rfl rfl (fun _ => rfl) (fun hhub => absurd hhub hnohub)
                have hcount := h.count hc
                refine hheld.setCount (c := c) hc (by omega) ?_ fun hout => ?_
                · have hpred : ∀ a : Held, ((update s.confs p
                      (some { f with clients := f.clients + 1 }) a.conf).any fun g =>
                      g.type == .client && g.classPtr == f.classPtr) =
                      (s.confs a.conf).any fun g => g.type == .client && g.classPtr == f.classPtr :=
                    fun a => any_update hf { f with clients := f.clients + 1 } _ rfl _
                  have hmore : s.classUsers f.classPtr + 1 = List.countP (fun a : Held =>
                      (update s.confs p (some { f with clients := f.clients + 1 })
                        a.conf).any
                        fun g => g.type == .client && g.classPtr == f.classPtr)
                      (⟨conn, p⟩ :: s.held) := by
                    simp only [hpred]
                    rw [countP_cons_held, hf, Option.any_some, hclient, if_pos]
                    · rfl
                    · rw [Bool.and_eq_true, beq_iff_eq, beq_iff_eq]
                      exact ⟨rfl, rfl⟩
                  have hle : c.currUserCount + 1 ≤ ((s.classUsers f.classPtr + 1 : Nat) : Int) := by
                      omega
                  rw [hmore] at hle
                  exact hle
                · have hpos := (h.dropped hc hout).2
                  omega
          · exact h.hold conn hf rfl rfl rfl (fun _ => rfl) (fun hhub => absurd hhub hnohub)
      · rename_i hclass
        exact h.hold conn hf rfl rfl rfl (fun hyes => absurd hyes hclass) (fun _ => rfl)

/-! ### Detaching -/

theorem countP_erase_held (g : Held → Bool) (ha : a ∈ s.held) :
    s.held.countP g = (s.held.erase a).countP g + if g a = true then 1 else 0 := by
  rw [(perm_cons_erase ha).countP_eq g, countP_cons_held]

theorem holders_erase (ha : a ∈ s.held) (q : Nat) :
    s.holders q = (s.held.erase a).countP (fun b => b.conf == q) + if a.conf = q then 1 else 0 := by
  have hcount := countP_erase_held (fun b : Held => b.conf == q) ha
  simp only [beq_iff_eq] at hcount
  exact hcount

theorem classUsers_release (ha : a ∈ s.held) (hf : s.confs a.conf = some f) {r : Option ConfRec}
    (hsame : ∀ f' ∈ r, f'.type = f.type ∧ f'.classPtr = f.classPtr)
    (hfreed : r = none → ∀ b ∈ s.held.erase a, b.conf ≠ a.conf) (q : Nat) :
    (s.held.erase a).countP (fun b => (update s.confs a.conf r b.conf).any fun g =>
        g.type == .client && g.classPtr == q) +
      (if f.type = .client ∧ f.classPtr = q then 1 else 0) = s.classUsers q := by
  have hpred : ∀ b ∈ s.held.erase a, ((update s.confs a.conf r b.conf).any fun g =>
      g.type == .client && g.classPtr == q) = true ↔
      ((s.confs b.conf).any fun g => g.type == .client && g.classPtr == q) = true := by
    intro b hb
    cases hr : r with
    | none => rw [update_of_ne (hfreed hr b hb)]
    | some f' =>
      obtain ⟨htype, hptr⟩ := hsame f' hr
      rw [any_update hf f' _ (by rw [htype, hptr])]
  rw [countP_congr hpred, classUsers, countP_erase_held _ ha, hf, Option.any_some]
  simp only [Bool.and_eq_true, beq_iff_eq]

theorem Inv.release (h : s.Inv xs) (ha : a ∈ s.held) (hf : s.confs a.conf = some f)
    {r : Option ConfRec}
    (hsame : ∀ f' ∈ r, f'.type = f.type ∧ f'.classPtr = f.classPtr ∧ f'.illegal = f.illegal ∧
      f'.refCount = f.refCount ∧ (f.type.hasClass = true → f'.clients = f.clients - 1) ∧
      (f.illegal = true → 1 < s.holders a.conf))
    (hfreed : r = none → f.illegal = true ∧ s.holders a.conf = 1)
    (hcount : f.type = .client → ∀ c, s.classes f.classPtr = some c →
      c.currUserCount < s.classUsers f.classPtr) :
    Inv { s with confs := update s.confs a.conf r, held := s.held.erase a } xs := by
  have hself : update s.confs a.conf r a.conf = r := update_self _ _ _
  have hother : ∀ {q}, q ≠ a.conf → (s.held.erase a).countP (fun b => b.conf == q) = s.holders
      q := by
    intro q hq
    rw [holders_erase ha q, if_neg (Ne.symm hq), Nat.add_zero]
  have hown : (s.held.erase a).countP (fun b => b.conf == a.conf) + 1 = s.holders a.conf := by
    rw [holders_erase ha a.conf, if_pos rfl]
  -- a conf without holders is held by nobody that stays
  have hkept : ∀ b ∈ s.held.erase a, r = none → b.conf ≠ a.conf := by
    intro b hb hr hconf
    have hpos : 0 < (s.held.erase a).countP fun b => b.conf == a.conf :=
      List.countP_pos_iff.mpr ⟨b, hb, beq_iff_eq.mpr hconf⟩
    have hone := (hfreed hr).2
    omega
  refine { h with
    freshConf := fun {q} hq => h.fresh_update hf r hq
    count := fun {q c} hc => ?_
    alive := fun {b} hb => ?_
    listed := fun q => ?_
    clients := fun {q g} hg hclass => ?_
    refCount := fun {q g} hg hclass => ?_
    illegal := fun {q g} hg hill => ?_
    classAlive := fun {q g} hg hclass => ?_
    listedClass := fun {q g} hg hill => ?_ }
  · obtain ⟨hlow, hhigh⟩ := h.count hc
    refine ⟨hlow, ?_⟩
    have hfewer := classUsers_release ha hf (fun f' hr => ⟨(hsame f' hr).1, (hsame f' hr).2.1⟩)
      (fun hr b hb => hkept b hb hr) q
    have hle : c.currUserCount ≤ (List.countP (fun b : Held =>
        (update s.confs a.conf r b.conf).any fun g => g.type == .client && g.classPtr == q)
        (s.held.erase a) : Nat) := by
      split at hfewer
      · rename_i hboth
        obtain ⟨hclient, rfl⟩ := hboth
        have hlt := hcount hclient c hc
        omega
      · omega
    exact hle
  · change (update s.confs a.conf r b.conf).isSome = true
    by_cases hb' : b.conf = a.conf
    · rw [hb', hself]
      cases hr : r with
      | none => exact absurd hb' (hkept b hb hr)
      | some f' => rfl
    · rw [update_of_ne hb']
      exact h.alive (mem_of_mem_erase hb)
  · rw [h.listed q]
    constructor
    · rintro ⟨g, hg, hill⟩
      by_cases hq : q = a.conf
      · rw [hq, hf] at hg
        cases hg
        cases hr : r with
        | none =>
          rw [(hfreed hr).1] at hill
          cases hill
        | some f' =>
          refine ⟨f', ?_, (hsame f' hr).2.2.1.trans hill⟩
          change update s.confs a.conf (some f') q = some f'
          rw [hq, update_self]
      · exact ⟨g, (update_of_ne hq _ _).trans hg, hill⟩
    · rintro ⟨g, hg, hill⟩
      rcases conf_of_update hg with ⟨rfl, hr⟩ | ⟨-, hg⟩
      · exact ⟨f, hf, (hsame g hr).2.2.1.symm.trans hill⟩
      · exact ⟨g, hg, hill⟩
  · change g.clients = (s.held.erase a).countP fun b => b.conf == q
    rcases conf_of_update hg with ⟨rfl, hr⟩ | ⟨hne, hg⟩
    · obtain ⟨htype, -, -, -, hclients, -⟩ := hsame g hr
      rw [htype] at hclass
      rw [hclients hclass, h.clients hf hclass, ← hown, Nat.add_sub_cancel]
    · rw [hother hne]
      exact h.clients hg hclass
  · change ((s.held.erase a).countP fun b => b.conf == q) ≤ g.refCount
    rcases conf_of_update hg with ⟨rfl, hr⟩ | ⟨hne, hg⟩
    · obtain ⟨htype, -, -, href, -⟩ := hsame g hr
      rw [htype] at hclass
      have hle := h.refCount hf hclass
      rw [href]
      omega
    · rw [hother hne]
      exact h.refCount hg hclass
  · change 0 < (s.held.erase a).countP fun b => b.conf == q
    rcases conf_of_update hg with ⟨rfl, hr⟩ | ⟨hne, hg⟩
    · obtain ⟨htype, -, hlegal, -, -, hmore⟩ := hsame g hr
      rw [hlegal] at hill
      have hlt := hmore hill
      omega
    · rw [hother hne]
      exact h.illegal hg hill
  · rcases conf_of_update hg with ⟨rfl, hr⟩ | ⟨-, hg⟩
    · obtain ⟨htype, hptr, -⟩ := hsame g hr
      rw [hptr]
      exact h.classAlive hf (htype ▸ hclass)
    · exact h.classAlive hg hclass
  · rcases conf_of_update hg with ⟨rfl, hr⟩ | ⟨-, hg⟩
    · obtain ⟨-, hptr, hlegal, -⟩ := hsame g hr
      rw [hptr]
      exact h.listedClass hf (hlegal ▸ hill)
    · exact h.listedClass hg hill

theorem leaveClass_eq (hc : s.classes p = some c)
    (hkeeps : c.maxTotal < 0 → 1 < c.currUserCount) :
    s.leaveClass p = { s with
      classes := update s.classes p
        (some { c with currUserCount := c.leave.currUserCount }) } := by
  have hmax : c.leave.maxTotal = c.maxTotal := by
    unfold ClassRec.leave
    split <;> rfl
  have hrest : c.leave = { c with currUserCount := c.leave.currUserCount } := by
    unfold ClassRec.leave
    split <;> rfl
  have hstays : ¬(c.leave.maxTotal < 0 ∧ c.leave.currUserCount ≤ 0) := by
    rintro ⟨hneg, hzero⟩
    have hmany := hkeeps (hmax ▸ hneg)
    unfold ClassRec.leave at hzero
    split at hzero
    · have hzero : c.currUserCount - 1 ≤ 0 := hzero
      omega
    · omega
  unfold leaveClass
  rw [hc]
  simp only
  rw [if_neg hstays, ← hrest]

theorem Inv.detachHeld (h : s.Inv xs) (ha : a ∈ s.held) (hkeeps : s.KeepsDetached a) :
    (s.detachHeld a).Inv xs := by
  obtain ⟨f, hf⟩ := Option.isSome_iff_exists.mp (h.alive ha)
  have hpos := holders_pos ha
  unfold ConfState.detachHeld
  simp only [hf]
  by_cases hclass : f.type.hasClass = true
  · rw [if_pos hclass]
    obtain ⟨c, hc⟩ := Option.isSome_iff_exists.mp (h.classAlive hf hclass)
    have hdropped := hkeeps.1 f c hf hclass hc
    have hclients := h.clients hf hclass
    obtain ⟨hlow, hhigh⟩ := h.count hc
    have hleave : c.leave.currUserCount = if 0 < c.currUserCount then c.currUserCount - 1
        else c.currUserCount := by
      unfold ClassRec.leave
      split <;> rfl
    have hout : f.classPtr ∉ xs → 0 < c.leave.currUserCount := by
      intro hnot
      have hmany := hdropped (h.dropped hc hnot).1
      rw [hleave, if_pos (by omega)]
      omega
    have hlow' : 0 ≤ c.leave.currUserCount := by
      rw [hleave]
      split <;> omega
    have hhigh' : c.leave.currUserCount ≤ s.classUsers f.classPtr := by
      rw [hleave]
      split <;> omega
    -- the class first, while the conf is still held
    have hinv := h.setCount hc (n := c.leave.currUserCount) hlow' hhigh' hout
    rw [leaveClass_eq (s := { s with held := s.held.erase a }) hc hdropped]
    have hbelow : ∀ c', f.type = .client → update s.classes f.classPtr
        (some { c with currUserCount := c.leave.currUserCount }) f.classPtr = some c' →
        c'.currUserCount < s.classUsers f.classPtr := by
      intro c' hclient hc'
      rw [update_self] at hc'
      cases hc'
      have husers : 0 < s.classUsers f.classPtr := by
        refine List.countP_pos_iff.mpr ⟨a, ha, ?_⟩
        rw [hf, Option.any_some, hclient, Bool.and_eq_true, beq_iff_eq, beq_iff_eq]
        exact ⟨rfl, rfl⟩
      change c.leave.currUserCount < _
      rw [hleave]
      split <;> omega
    split
    · rename_i hlast
      obtain ⟨hzero, hill⟩ := hlast
      have hzero : f.clients - 1 = 0 := hzero
      have hill : f.illegal = true := hill
      have hfree := hinv.release (r := none) ha hf (fun _ hr =>
          absurd hr.symm (Option.some_ne_none _))
        (fun _ => ⟨hill, show s.holders a.conf = 1 by omega⟩) (fun hclient c' => hbelow c' hclient)
      unfold deleteConf
      simp only [hill, if_true, update_idem]
      exact hfree
    · rename_i hlast
      refine hinv.release ha hf ?_ (fun hr => absurd hr (Option.some_ne_none _))
        (fun hclient c' => hbelow c' hclient)
      rintro f' hr
      cases hr
      refine ⟨rfl, rfl, rfl, rfl, fun _ => rfl, fun hill => ?_⟩
      change 1 < s.holders a.conf
      by_contra hle
      exact hlast ⟨show f.clients - 1 = 0 by omega, hill⟩
  · rw [if_neg hclass]
    have hnoclass := Bool.eq_false_of_not_eq_true hclass
    have hnot : ¬(f.refCount = 0 ∧ f.illegal = true) := by
      rintro ⟨hzero, -⟩
      have hle := h.refCount hf hnoclass
      omega
    rw [if_neg hnot]
    have hkept := h.release (r := some f) ha hf (fun f' hr => by
      cases hr
      exact ⟨rfl, rfl, rfl, rfl, fun hyes => absurd hyes hclass, hkeeps.2 f hf hnoclass⟩)
        (fun hr => absurd hr (Option.some_ne_none _))
      (fun hclient => absurd (by rw [hclient]; rfl) hclass)
    rwa [← hf, update_eq_self] at hkept

theorem detachHeld_held (s : ConfState) (a : Held) : (s.detachHeld a).held = s.held.erase a := by
  have hleave : ∀ (s : ConfState) (p : Nat), (s.leaveClass p).held = s.held := by
    intro s p
    unfold leaveClass
    split
    · rfl
    · split <;> rfl
  unfold detachHeld
  simp only
  split
  · rfl
  · split
    · split <;> exact hleave _ _
    · split <;> rfl

theorem detachHeld_config (s : ConfState) (a : Held) : (s.detachHeld a).config = s.config := by
  have hleave : ∀ (s : ConfState) (p : Nat), (s.leaveClass p).config = s.config := by
    intro s p
    unfold leaveClass
    split
    · rfl
    · split <;> rfl
  unfold detachHeld
  simp only
  split
  · rfl
  · split
    · split <;> exact hleave _ _
    · split <;> rfl

theorem detached_subperm (s : ConfState) (conn : Nat) (type : Option ConfType) :
    (s.detached conn type).Subperm s.held := by
  cases type with
  | none => exact List.filter_sublist.subperm
  | some type =>
    unfold detached
    simp only
    cases hfind : s.held.find? fun a => a.conn == conn && (s.confs a.conf).any fun f =>
      f.type == type with
    | none => exact nil_subperm
    | some a => exact (List.singleton_sublist.mpr (mem_of_find?_eq_some hfind)).subperm

theorem detach_induction {motive : ConfState → Prop} {l : List Held}
    (hstep : ∀ s a, motive s → a ∈ s.held → s.KeepsDetached a → motive (s.detachHeld a))
    (h : motive s) (hsub : l.Subperm s.held) (hkeeps : Run.Guarded ConfState.detachHeld
      KeepsDetached s l) :
    motive (l.foldl ConfState.detachHeld s) := by
  induction l generalizing s with
  | nil => exact h
  | cons a l ih =>
    obtain ⟨hhead, htail⟩ := hkeeps
    have ha : a ∈ s.held := hsub.subset mem_cons_self
    have hrest : l.Subperm (s.detachHeld a).held := by
      rw [detachHeld_held]
      have herase := hsub.erase a
      rwa [erase_cons_head] at herase
    exact ih (hstep s a h ha hhead) hrest htail

/-! ### Between two rehashes -/

/-- The invariant between two calls: no class on the list is marked, and the list
holds the configured classes. -/
structure Stable (s : ConfState) (xs : List Nat) : Prop where
  inv : s.Inv xs
  unmarked : ∀ {p c}, p ∈ xs → s.classes p = some c → 0 ≤ c.maxTotal
  configured : s.Configured xs

theorem Stable.of_key (h : s.Stable xs) {s' : ConfState} (hinv : s'.Inv xs)
    (hkey : ∀ p, (s'.classes p).map ClassRec.key = (s.classes p).map ClassRec.key)
    (hconfig : s'.config = s.config) : s'.Stable xs := by
  have hsame : ∀ {s₁ s₂ : ConfState}, (∀ p, (s₂.classes p).map ClassRec.key =
      (s₁.classes p).map ClassRec.key) → ∀ {p c}, s₂.classes p = some c →
      ∃ c', s₁.classes p = some c' ∧ c'.name = c.name ∧ c'.maxTotal = c.maxTotal := by
    intro s₁ s₂ hboth p c hc
    have hp := hboth p
    rw [hc] at hp
    obtain ⟨c', hc', hkey'⟩ := Option.map_eq_some_iff.mp hp.symm
    exact ⟨c', hc', congrArg Prod.fst hkey', congrArg Prod.snd hkey'⟩
  have hhas : ∀ {s₁ s₂ : ConfState}, (∀ p, (s₂.classes p).map ClassRec.key =
      (s₁.classes p).map ClassRec.key) → ∀ {p name}, s₂.Has p name → s₁.Has p name := by
    rintro s₁ s₂ hboth p name ⟨c, hc, hname⟩
    obtain ⟨c', hc', hname', -⟩ := hsame hboth hc
    exact ⟨c', hc', hname'.trans hname⟩
  refine ⟨hinv, fun {p c} hp hc => ?_, h.configured.default, fun p hp => ?_, fun d hd => ?_,
    fun p hp q hq m n hm hn => ?_⟩
  · obtain ⟨c', hc', -, hmax⟩ := hsame hkey hc
    rw [← hmax]
    exact h.unmarked hp hc'
  · rcases h.configured.fromConfig p hp with hdef | ⟨d, hd, hname⟩
    · exact .inl hdef
    · exact .inr ⟨d, hconfig ▸ hd, hhas (fun q => (hkey q).symm) hname⟩
  · obtain ⟨p, hp, name, hname, heq⟩ := h.configured.allOfConfig d (hconfig ▸ hd)
    exact ⟨p, hp, name, hhas (fun q => (hkey q).symm) hname, heq⟩
  · exact h.configured.distinct p hp q hq m n (hhas hkey hm) (hhas hkey hn)

theorem key_update {classes : Nat → Option ClassRec} (hc : classes p = some c) (c' : ClassRec)
    (hkey : c'.key = c.key) (q : Nat) :
    (update classes p (some c') q).map ClassRec.key = (classes q).map ClassRec.key := by
  by_cases hq : q = p
  · rw [hq, update_self, hc, Option.map_some, Option.map_some, hkey]
  · rw [update_of_ne hq]

theorem attachConf_key (s : ConfState) (conn p : Nat) (limitReached : Bool) :
    (∀ q, ((s.attachConf conn p limitReached).classes q).map ClassRec.key =
      (s.classes q).map ClassRec.key) ∧
      (s.attachConf conn p limitReached).config = s.config := by
  have hsame : (∀ q, (s.classes q).map ClassRec.key = (s.classes q).map ClassRec.key) ∧
      s.config = s.config := ⟨fun _ => rfl, rfl⟩
  unfold ConfState.attachConf
  split
  · exact hsame
  · split
    · exact hsame
    · split
      · split
        · exact hsame
        · split
          · split
            · exact hsame
            · rename_i c hc
              split
              · exact hsame
              · exact ⟨key_update hc { c with currUserCount := c.currUserCount + 1 } rfl, rfl⟩
          · exact hsame
      · exact hsame

theorem Stable.attachConf (h : s.Stable xs) (conn p : Nat) (limitReached : Bool) :
    (s.attachConf conn p limitReached).Stable xs :=
  h.of_key (h.inv.attachConf conn p limitReached) (attachConf_key s conn p limitReached).1
    (attachConf_key s conn p limitReached).2

theorem detachHeld_key (hf : s.confs a.conf = some f) (hkeeps : s.KeepsDetached a) (q : Nat) :
    ((s.detachHeld a).classes q).map ClassRec.key = (s.classes q).map ClassRec.key := by
  unfold ConfState.detachHeld
  simp only [hf]
  split
  · rename_i hclass
    have hleave : ((leaveClass { s with held := s.held.erase a } f.classPtr).classes q).map
        ClassRec.key = (s.classes q).map ClassRec.key := by
      cases hc : s.classes f.classPtr with
      | none =>
        unfold leaveClass
        simp only [hc]
      | some c =>
        rw [leaveClass_eq (s := { s with held := s.held.erase a }) hc (hkeeps.1 f c hf hclass hc)]
        exact key_update hc { c with currUserCount := c.leave.currUserCount } rfl q
    split <;> exact hleave
  · split <;> rfl

theorem Stable.detachHeld (h : s.Stable xs) (ha : a ∈ s.held) (hkeeps : s.KeepsDetached a) :
    (s.detachHeld a).Stable xs := by
  obtain ⟨f, hf⟩ := Option.isSome_iff_exists.mp (h.inv.alive ha)
  exact h.of_key (h.inv.detachHeld ha hkeeps) (detachHeld_key hf hkeeps) (detachHeld_config s a)

theorem Stable.detachConf (h : s.Stable xs) {conn : Nat} {type : Option ConfType}
    (hkeeps : Run.Guarded ConfState.detachHeld KeepsDetached s (s.detached conn type)) :
    (s.detachConf conn type).Stable xs :=
  detach_induction (motive := fun s => s.Stable xs) (fun _ _ h ha hkeeps => h.detachHeld ha hkeeps)
    h
    (detached_subperm s conn type) hkeeps

theorem Stable.settled (h : s.Stable xs) : s.Settled := by
  refine ⟨xs, h.inv.list, h.configured, fun p => ⟨fun halive => ?_, ?_⟩, fun p =>
    ⟨fun halive => ?_, ?_⟩⟩
  · obtain ⟨c, hc⟩ := Option.isSome_iff_exists.mp halive
    by_cases hp : p ∈ xs
    · exact .inl hp
    · have hpos := (h.inv.dropped hc hp).2
      have hle := (h.inv.count hc).2
      exact .inr (classInUse_of_classUsers (by omega))
  · rintro (hp | ⟨a, -, f, hf, hclass, rfl⟩)
    · exact h.inv.linked hp
    · exact h.inv.classAlive hf hclass
  · obtain ⟨f, hf⟩ := Option.isSome_iff_exists.mp halive
    cases hill : f.illegal with
    | false => exact .inl ((h.inv.listed p).mpr ⟨f, hf, hill⟩)
    | true => exact .inr (confInUse_iff.mpr (h.inv.illegal hf hill))
  · rintro (hlisted | ⟨a, ha, rfl⟩)
    · obtain ⟨f, hf, -⟩ := (h.inv.listed p).mp hlisted
      rw [hf]
      rfl
    · exact h.inv.alive ha

/-! ### Reading a configuration -/

/-- What holds of the items while a configuration is read, in a rehash of `s₀` with
the list `xs₀`, after the class blocks `ds`. The classes that are still marked are
old ones that no block has named. -/
structure Reading (s₀ : ConfState) (xs₀ : List Nat) (s : ConfState) (xs : List Nat)
    (ds : List ClassDef) : Prop where
  inv : s.Inv xs
  inUse : ∀ p, s.ClassInUse p ↔ s₀.ClassInUse p
  legal : ∀ {p f}, s.confs p = some f → f.illegal = false →
    ∃ c, s.classes f.classPtr = some c ∧ 0 ≤ c.maxTotal
  marked : ∀ {p c}, p ∈ xs → s.classes p = some c → c.maxTotal < 0 →
    p ∈ xs₀ ∧ p ≠ classDefault ∧ (∀ d ∈ ds, c.named d.name = false) ∧
      ∃ c₀, s₀.classes p = some c₀ ∧ c₀.name = c.name ∧ c₀.currUserCount = c.currUserCount
  fromConfig : ∀ {p c}, p ∈ xs → s.classes p = some c →
    p = classDefault ∨ c.maxTotal < 0 ∨ ∃ d ∈ ds, c.name = some d.name
  allOfConfig : ∀ d ∈ ds, ∃ p ∈ xs, ∃ c, s.classes p = some c ∧ 0 ≤ c.maxTotal ∧
    ∃ name, c.name = some name ∧ ircEq name d.name = true

theorem Inv.conf_of_cleared (h : s.Inv xs) {g : ConfRec}
    (hg : s.clearOutOldConf.confs p = some g) :
    g.illegal = true ∧ ∃ f, s.confs p = some f ∧ g = { f with illegal := true } := by
  change (if p ∈ s.listed then _ else _) = _ at hg
  split at hg
  · obtain ⟨f, hf, hif⟩ := Option.bind_eq_some_iff.mp hg
    split at hif
    · cases hif
      exact ⟨rfl, f, hf, rfl⟩
    · cases hif
  · rename_i hlisted
    have hill : g.illegal = true := by
      by_contra hill
      exact hlisted ((h.listed p).mpr ⟨g, hg, Bool.eq_false_of_not_eq_true hill⟩)
    exact ⟨hill, g, hg, by rw [← hill]⟩

theorem Inv.cleared_conf (h : s.Inv xs) (hf : s.confs p = some f) (hpos : 0 < s.holders p) :
    s.clearOutOldConf.confs p = some { f with illegal := true } := by
  change (if p ∈ s.listed then _ else _) = _
  split
  · have huse : f.inUse = true := by
      unfold ConfRec.inUse
      split
      · rename_i hclass
        rw [h.clients hf hclass]
        exact bne_iff_ne.mpr hpos.ne'
      · rename_i hclass
        have hle := h.refCount hf (Bool.eq_false_of_not_eq_true hclass)
        exact decide_eq_true (hpos.trans_le hle)
    rw [hf, Option.bind_some, if_pos huse]
  · rename_i hlisted
    have hill : f.illegal = true := by
      by_contra hill
      exact hlisted ((h.listed p).mpr ⟨f, hf, Bool.eq_false_of_not_eq_true hill⟩)
    rw [hf, ← hill]

theorem Inv.holders_cleared (h : s.Inv xs)
    (hhub : ∀ p ∈ s.listed, ∀ f, s.confs p = some f → f.type.hasClass = false → 0 < f.refCount →
      s.ConfInUse p) {g : ConfRec} (hg : s.clearOutOldConf.confs p = some g) :
    0 < s.holders p := by
  obtain ⟨-, f, hf, rfl⟩ := h.conf_of_cleared hg
  by_cases hlisted : p ∈ s.listed
  · change (if p ∈ s.listed then _ else _) = _ at hg
    rw [if_pos hlisted, hf, Option.bind_some] at hg
    split at hg
    · rename_i huse
      unfold ConfRec.inUse at huse
      split at huse
      · rename_i hcl
        rw [h.clients hf hcl] at huse
        exact Nat.pos_of_ne_zero (bne_iff_ne.mp huse)
      · rename_i hcl
        exact confInUse_iff.mp (hhub p hlisted f hf (Bool.eq_false_of_not_eq_true hcl)
          (of_decide_eq_true huse))
    · cases hg
  · have hill : f.illegal = true := by
      by_contra hill
      exact hlisted ((h.listed p).mpr ⟨f, hf, Bool.eq_false_of_not_eq_true hill⟩)
    exact h.illegal hf hill

theorem Inv.cleared_class (h : s.Inv xs) (p : Nat) : s.clearOutOldConf.classes p =
    if p ∈ xs ∧ p ≠ classDefault then (s.classes p).map fun c => { c with maxTotal := -1 }
    else s.classes p := by
  change (if p ∈ s.walkClasses ∧ s.classItems.tail ≠ some p then _ else _) = _
  rw [h.walkClasses, h.tail]
  refine if_congr (and_congr_right fun _ => ?_) rfl rfl
  rw [Ne, Option.some_inj, eq_comm]

theorem Inv.class_of_cleared (h : s.Inv xs) (hc : s.clearOutOldConf.classes p = some c) :
    ∃ c₀, s.classes p = some c₀ ∧ c₀.name = c.name ∧ c₀.currUserCount = c.currUserCount ∧
      (c = c₀ ∧ (p ∉ xs ∨ p = classDefault) ∨ p ∈ xs ∧ p ≠ classDefault ∧ c.maxTotal = -1) := by
  rw [h.cleared_class] at hc
  split at hc
  · rename_i hp
    obtain ⟨c₀, hc₀, rfl⟩ := Option.map_eq_some_iff.mp hc
    exact ⟨c₀, hc₀, rfl, rfl, .inr ⟨hp.1, hp.2, rfl⟩⟩
  · rename_i hp
    rw [not_and_or, not_not] at hp
    exact ⟨c, hc, rfl, rfl, .inl ⟨rfl, hp⟩⟩

theorem Inv.clearOutOldConf (h : s.Inv xs)
    (hhub : ∀ p ∈ s.listed, ∀ f, s.confs p = some f → f.type.hasClass = false → 0 < f.refCount →
      s.ConfInUse p) :
    s.clearOutOldConf.Inv xs := by
  have hsome : ∀ p, (s.clearOutOldConf.classes p).isSome = (s.classes p).isSome := by
    intro p
    rw [h.cleared_class]
    split
    · exact Option.isSome_map
    · rfl
  have hhas : ∀ {p name}, s.clearOutOldConf.Has p name → s.Has p name := by
    rintro p name ⟨c, hc, hname⟩
    obtain ⟨c₀, hc₀, hname₀, -⟩ := h.class_of_cleared hc
    exact ⟨c₀, hc₀, hname₀.trans hname⟩
  have husers : ∀ p, s.clearOutOldConf.classUsers p = s.classUsers p := by
    intro p
    refine countP_congr fun a ha => ?_
    obtain ⟨f, hf⟩ := Option.isSome_iff_exists.mp (h.alive ha)
    rw [h.cleared_conf hf (holders_pos ha), hf, Option.any_some, Option.any_some]
  constructor
  · exact h.list
  · exact h.last
  · exact fun hp => (hsome _).trans (h.linked hp)
  · intro p hp
    have hnone := hsome p
    rw [h.freshClass hp, Option.isSome_none] at hnone
    exact Option.isSome_eq_false_iff.mp hnone |> Option.isNone_iff_eq_none.mp
  · intro p hp
    cases hg : s.clearOutOldConf.confs p with
    | none => rfl
    | some g =>
      obtain ⟨-, f, hf, -⟩ := h.conf_of_cleared hg
      rw [h.freshConf hp] at hf
      cases hf
  · intro p c hc hp
    obtain ⟨c₀, hc₀, -, -, ⟨rfl, -⟩ | ⟨hin, -⟩⟩ := h.class_of_cleared hc
    · exact h.dropped hc₀ hp
    · exact absurd hin hp
  · intro p c hc
    obtain ⟨c₀, hc₀, -, hcount, -⟩ := h.class_of_cleared hc
    rw [husers, ← hcount]
    exact h.count hc₀
  · intro a ha
    obtain ⟨f, hf⟩ := Option.isSome_iff_exists.mp (h.alive ha)
    rw [h.cleared_conf hf (holders_pos ha)]
    rfl
  · intro p
    refine ⟨fun hp => absurd hp not_mem_nil, ?_⟩
    rintro ⟨g, hg, hill⟩
    rw [(h.conf_of_cleared hg).1] at hill
    cases hill
  · intro p f hf hcl
    obtain ⟨-, f₀, hf₀, rfl⟩ := h.conf_of_cleared hf
    have hclients := h.clients hf₀ hcl
    exact hclients
  · intro p f hf hcl
    obtain ⟨-, f₀, hf₀, rfl⟩ := h.conf_of_cleared hf
    have href := h.refCount hf₀ hcl
    exact href
  · exact fun hf _ => h.holders_cleared hhub hf
  · intro p f hf hcl
    obtain ⟨-, f₀, hf₀, rfl⟩ := h.conf_of_cleared hf
    have halive := h.classAlive hf₀ hcl
    exact (hsome _).trans halive
  · intro p f hf hill
    rw [(h.conf_of_cleared hf).1] at hill
    cases hill
  · exact fun hp hq hm hn => h.distinct hp hq (hhas hm) (hhas hn)

theorem Stable.clearOutOldConf (h : s.Stable xs)
    (hhub : ∀ p ∈ s.listed, ∀ f, s.confs p = some f → f.type.hasClass = false → 0 < f.refCount →
      s.ConfInUse p) :
    Reading s xs s.clearOutOldConf xs [] := by
  constructor
  · exact h.inv.clearOutOldConf hhub
  · intro p
    constructor
    · rintro ⟨a, ha, f, hf, hcl, hptr⟩
      obtain ⟨-, f₀, hf₀, rfl⟩ := h.inv.conf_of_cleared hf
      exact ⟨a, ha, f₀, hf₀, hcl, hptr⟩
    · rintro ⟨a, ha, f, hf, hcl, hptr⟩
      exact ⟨a, ha, _, h.inv.cleared_conf hf (holders_pos ha), hcl, hptr⟩
  · intro p f hf hill
    rw [(h.inv.conf_of_cleared hf).1] at hill
    cases hill
  · intro p c hp hc hneg
    obtain ⟨c₀, hc₀, hname, hcount, ⟨rfl, hout | rfl⟩ | ⟨-, hne, -⟩⟩ := h.inv.class_of_cleared hc
    · exact absurd hp hout
    · exact absurd (h.unmarked hp hc₀) (not_le.mpr hneg)
    · exact ⟨hp, hne, fun d hd => absurd hd not_mem_nil, c₀, hc₀, hname, hcount⟩
  · intro p c hp hc
    obtain ⟨c₀, -, -, -, ⟨-, hout | hdef⟩ | ⟨-, -, hmax⟩⟩ := h.inv.class_of_cleared hc
    · exact absurd hp hout
    · exact .inl hdef
    · exact .inr (.inl (by rw [hmax]; decide))
  · intro d hd
    exact absurd hd not_mem_nil

/-! ### Changing the classes -/

theorem Inv.rewrite (h : s.Inv xs) (hp : p ∈ xs) (name : CStr) (maxTotal : Int)
    (hname : ∀ {q n}, q ∈ xs → q ≠ p → s.Has q n → name ≠ [] ∨ n ≠ [] → ircEq name n = false) :
    Inv { s with classes := update s.classes p (some ⟨some name, maxTotal, 0⟩) } xs := by
  have halive : ∀ {q}, (s.classes q).isSome = true →
      (update s.classes p (some ⟨some name, maxTotal, 0⟩) q).isSome = true := by
    intro q hq
    by_cases hqp : q = p
    · rw [hqp, update_self]
      rfl
    · rwa [update_of_ne hqp]
  have hhas : ∀ {q m}, Has { s with
      classes := update s.classes p (some ⟨some name, maxTotal, 0⟩) } q m →
      q = p ∧ m = name ∨ q ≠ p ∧ s.Has q m := by
    rintro q m ⟨c', hc', hm⟩
    change update s.classes p _ q = some c' at hc'
    by_cases hqp : q = p
    · rw [hqp, update_self] at hc'
      cases hc'
      exact .inl ⟨hqp, (Option.some.inj hm).symm⟩
    · rw [update_of_ne hqp] at hc'
      exact .inr ⟨hqp, c', hc', hm⟩
  refine { h with
    linked := fun hq => halive (h.linked hq)
    freshClass := fun {q} hq => ?_
    dropped := fun {q c'} hc' hq => ?_
    count := fun {q c'} hc' => ?_
    classAlive := fun hf hclass => halive (h.classAlive hf hclass)
    distinct := fun {q r m n} hq hr hm hn hne heq => ?_ }
  · have hqp : q ≠ p := by
      rintro rfl
      have hsome := h.linked hp
      rw [h.freshClass hq] at hsome
      cases hsome
    exact (update_of_ne hqp _ _).trans (h.freshClass hq)
  · change update s.classes p _ q = some c' at hc'
    have hqp : q ≠ p := fun heq => hq (heq ▸ hp)
    rw [update_of_ne hqp] at hc'
    exact h.dropped hc' hq
  · change update s.classes p _ q = some c' at hc'
    by_cases hqp : q = p
    · rw [hqp, update_self] at hc'
      cases hc'
      exact ⟨le_rfl, Int.natCast_nonneg _⟩
    · rw [update_of_ne hqp] at hc'
      exact h.count hc'
  · rcases hhas hm with ⟨hqp, rfl⟩ | ⟨hqp, hm'⟩ <;> rcases hhas hn with ⟨hrp, rfl⟩ | ⟨hrp, hn'⟩
    · exact hqp.trans hrp.symm
    · rw [hname hr hrp hn' (.inl hne)] at heq
      cases heq
    · have hsymm := hname hq hqp hm' (.inr hne)
      rw [ircEq_symm heq] at hsymm
      cases hsymm
    · exact h.distinct hq hr hm' hn' hne heq

theorem Inv.takeOff (ys zs : List Nat) (h : s.Inv (ys ++ p :: zs)) (hdefault : p ≠ classDefault)
    (hlegal : ∀ {q f}, s.confs q = some f → f.illegal = false → f.classPtr ≠ p)
      {r : Option ClassRec}
    (hr : (r = none ∧ ∀ {q f}, s.confs q = some f → f.type.hasClass = true → f.classPtr ≠ p) ∨
      ∃ c, r = some c ∧ s.classes p = some c ∧ c.maxTotal < 0 ∧ 0 < c.currUserCount) :
    Inv { s with classItems := s.classItems.delete p, classes := update s.classes p r }
      (ys ++ zs) := by
  have hsub : ∀ {q}, q ∈ ys ++ zs → q ∈ ys ++ p :: zs := fun hq =>
    ((sublist_cons_self p zs).append_left ys).subset hq
  have hother : ∀ {q}, q ≠ p → update s.classes p r q = s.classes q := fun hq =>
    update_of_ne hq _ _
  have hfrom : ∀ {q c}, update s.classes p r q = some c → s.classes q = some c := by
    intro q c hc
    by_cases hq : q = p
    · rw [hq, update_self] at hc
      rcases hr with ⟨hnone, -⟩ | ⟨c', hsome, hc', -⟩
      · rw [hnone] at hc
        cases hc
      · rw [hsome] at hc
        cases hc
        exact hq ▸ hc'
    · rwa [hother hq] at hc
  have hnodup := h.list.nodup
  have hp : p ∉ ys ++ zs := (List.nodup_middle.mp hnodup).notMem
  have hhas : ∀ {q m}, Has { s with
      classItems := s.classItems.delete p, classes := update s.classes p r
        } q m → s.Has q m := by
    rintro q m ⟨c, hc, hm⟩
    exact ⟨c, hfrom hc, hm⟩
  refine { h with
    list := h.list.delete
    last := ?_
    linked := fun {q} hq => ?_
    freshClass := fun {q} hq => ?_
    dropped := fun {q c} hc hq => ?_
    count := fun hc => h.count (hfrom hc)
    classAlive := fun {q f} hf hclass => ?_
    listedClass := fun {q f} hf hill => ?_
    distinct := fun hq hq' hm hn => h.distinct (hsub hq) (hsub hq') (hhas hm) (hhas hn) }
  · have hlast := h.last
    rw [getLast?_append, getLast?_cons] at hlast
    rw [getLast?_append]
    cases hz : zs.getLast? with
    | none =>
      rw [hz] at hlast
      exact absurd (Option.some.inj hlast) hdefault
    | some z =>
      rw [hz] at hlast
      exact hlast
  · have hq' : q ≠ p := fun heq => hp (heq ▸ hq)
    change (update s.classes p r q).isSome = true
    rw [hother hq']
    exact h.linked (hsub hq)
  · have hq' : q ≠ p := by
      rintro rfl
      have hsome := h.linked (mem_append_right ys mem_cons_self)
      rw [h.freshClass hq] at hsome
      cases hsome
    exact (hother hq').trans (h.freshClass hq)
  · by_cases hq' : q = p
    · rcases hr with ⟨hnone, -⟩ | ⟨c', hsome, -, hmarked⟩
      · change update s.classes p r q = some c at hc
        rw [hq', update_self, hnone] at hc
        cases hc
      · change update s.classes p r q = some c at hc
        rw [hq', update_self, hsome] at hc
        cases hc
        exact hmarked
    · refine h.dropped (hfrom hc) fun hin => hq ?_
      rcases List.mem_append.mp hin with hin | hin
      · exact mem_append_left zs hin
      · exact mem_append_right ys ((List.mem_cons.mp hin).resolve_left hq')
  · change (update s.classes p r f.classPtr).isSome = true
    by_cases hq' : f.classPtr = p
    · rcases hr with ⟨-, hnot⟩ | ⟨c', hsome, -, -⟩
      · exact absurd hq' (hnot hf hclass)
      · rw [hq', update_self, hsome]
        rfl
    · rw [hother hq']
      exact h.classAlive hf hclass
  · have hq' := hlegal hf hill
    rcases List.mem_append.mp (h.listedClass hf hill) with hin | hin
    · exact mem_append_left zs hin
    · exact mem_append_right ys ((List.mem_cons.mp hin).resolve_left hq')

theorem Inv.makeClass (h : s.Inv xs) : s.makeClass.Inv (s.nextPtr :: xs) := by
  have hnone : s.classes s.nextPtr = none := h.freshClass le_rfl
  have hout : s.nextPtr ∉ xs := by
    intro hin
    have hsome := h.linked hin
    rw [hnone] at hsome
    cases hsome
  have hself : s.makeClass.classes s.nextPtr = some ⟨none, MAXIMUM_LINKS_DEFAULT, 0⟩ :=
    update_self _ _ _
  have hother : ∀ {q}, q ≠ s.nextPtr → s.makeClass.classes q = s.classes q := fun hq =>
    update_of_ne hq _ _
  have halive : ∀ {q}, (s.classes q).isSome = true → (s.makeClass.classes q).isSome = true := by
    intro q hq
    have hne : q ≠ s.nextPtr := by
      rintro rfl
      rw [hnone] at hq
      cases hq
    rwa [hother hne]
  have hhas : ∀ {q m}, s.makeClass.Has q m → s.Has q m ∧ q ≠ s.nextPtr := by
    rintro q m ⟨c, hc, hm⟩
    by_cases hq : q = s.nextPtr
    · rw [hq, hself] at hc
      cases hc
      cases hm
    · rw [hother hq] at hc
      exact ⟨⟨c, hc, hm⟩, hq⟩
  refine { h with
    list := h.list.add hout
    last := ?_
    linked := fun {q} hq => ?_
    freshClass := fun {q} hq => ?_
    freshConf := fun {q} hq => h.freshConf (Nat.le_of_succ_le hq)
    dropped := fun {q c} hc hq => ?_
    count := fun {q c} hc => ?_
    classAlive := fun hf hclass => halive (h.classAlive hf hclass)
    listedClass := fun hf hill => mem_cons_of_mem _ (h.listedClass hf hill)
    distinct := fun {q r m n} hq hr hm hn => ?_ }
  · rw [getLast?_cons, h.last]
    rfl
  · rcases List.mem_cons.mp hq with rfl | hq
    · rw [hself]
      rfl
    · exact halive (h.linked hq)
  · have hne : q ≠ s.nextPtr := (Nat.lt_of_succ_le hq).ne'
    exact (hother hne).trans (h.freshClass (Nat.le_of_succ_le hq))
  · rw [mem_cons, not_or] at hq
    rw [hother hq.1] at hc
    exact h.dropped hc hq.2
  · by_cases hq : q = s.nextPtr
    · rw [hq, hself] at hc
      cases hc
      exact ⟨le_rfl, Int.natCast_nonneg _⟩
    · rw [hother hq] at hc
      exact h.count hc
  · obtain ⟨hm, hqn⟩ := hhas hm
    obtain ⟨hn, hrn⟩ := hhas hn
    exact h.distinct ((List.mem_cons.mp hq).resolve_left hqn)
      ((List.mem_cons.mp hr).resolve_left hrn)
      hm hn

theorem named_iff {c : ClassRec} {name : CStr} :
    c.named name = true ↔ ∃ n, c.name = some n ∧ n ≠ [] ∧ ircEq n name = true := by
  rw [ClassRec.named, Option.any_eq_true]
  simp only [Bool.and_eq_true, Bool.not_eq_true', isEmpty_eq_false_iff]

theorem findClass_some {name : CStr} (h : s.findClass name = some p) :
    p ∈ s.walkClasses ∧ ∃ c, s.classes p = some c ∧ c.named name = true := by
  unfold findClass at h
  have hany := find?_some h
  exact ⟨mem_of_find?_eq_some h, (Option.any_eq_true _ _).mp hany⟩

theorem Reading.renamed {s₀ s' : ConfState} {xs₀ xs' : List Nat} {ds : List ClassDef} {d : ClassDef}
    (h : Reading s₀ xs₀ s xs ds) (hinv : s'.Inv xs') (hconfs : s'.confs = s.confs)
    (hheld : s'.held = s.held)
    (hafter : ∀ r, s'.classes r =
      if r = q then some ⟨some d.name, d.maxTotal, 0⟩ else s.classes r)
    (hq : q ∈ xs') (hsub : ∀ {r}, r ∈ xs → r ∈ xs') (hback : ∀ {r}, r ∈ xs' → r ≠ q → r ∈ xs)
    (hother : ∀ {r c}, r ∈ xs → r ≠ q → s.classes r = some c → c.named d.name = false)
    (hsame : ∀ {c n}, q ∈ xs → s.classes q = some c → c.name = some n → ircEq d.name n = true) :
    Reading s₀ xs₀ s' xs' (ds ++ [d]) := by
  have hcases : ∀ {r c'}, s'.classes r = some c' →
      r = q ∧ c' = ⟨some d.name, d.maxTotal, 0⟩ ∨ r ≠ q ∧ s.classes r = some c' := by
    intro r c' hc'
    rw [hafter] at hc'
    split at hc'
    · rename_i hr
      cases hc'
      exact .inl ⟨hr, rfl⟩
    · rename_i hr
      exact .inr ⟨hr, hc'⟩
  have hnew : s'.classes q = some ⟨some d.name, d.maxTotal, 0⟩ := (hafter q).trans (if_pos rfl)
  constructor
  · exact hinv
  · intro r
    rw [← h.inUse, ClassInUse, ClassInUse, hconfs, hheld]
  · intro r f hf hill
    rw [hconfs] at hf
    obtain ⟨c', hc', hpos⟩ := h.legal hf hill
    by_cases hr : f.classPtr = q
    · exact ⟨_, hr ▸ hnew, Int.natCast_nonneg _⟩
    · exact ⟨c', (hafter _).trans ((if_neg hr).trans hc'), hpos⟩
  · intro r c' hr hc' hneg
    rcases hcases hc' with ⟨-, rfl⟩ | ⟨hrq, hc'⟩
    · exact absurd hneg (not_lt.mpr (Int.natCast_nonneg _))
    · obtain ⟨hxs₀, hdef, hds, hold⟩ := h.marked (hback hr hrq) hc' hneg
      refine ⟨hxs₀, hdef, fun d' hd' => ?_, hold⟩
      rcases List.mem_append.mp hd' with hd' | hd'
      · exact hds d' hd'
      · rw [List.mem_singleton.mp hd']
        exact hother (hback hr hrq) hrq hc'
  · intro r c' hr hc'
    rcases hcases hc' with ⟨-, rfl⟩ | ⟨hrq, hc'⟩
    · exact .inr (.inr ⟨d, mem_append_right _ mem_cons_self, rfl⟩)
    · rcases h.fromConfig (hback hr hrq) hc' with hdef | hneg | ⟨d', hd', hname'⟩
      · exact .inl hdef
      · exact .inr (.inl hneg)
      · exact .inr (.inr ⟨d', mem_append_left _ hd', hname'⟩)
  · intro d' hd'
    rcases List.mem_append.mp hd' with hd' | hd'
    · obtain ⟨r, hr, c', hc', hpos, m, hm, hmeq⟩ := h.allOfConfig d' hd'
      by_cases hrq : r = q
      · rw [hrq] at hr hc'
        exact ⟨q, hq, _, hnew, Int.natCast_nonneg _, d.name, rfl,
          ircEq_trans (hsame hr hc' hm) hmeq⟩
      · exact ⟨r, hsub hr, c', (hafter r).trans ((if_neg hrq).trans hc'), hpos, m, hm, hmeq⟩
    · rw [List.mem_singleton.mp hd']
      exact ⟨q, hq, _, hnew, Int.natCast_nonneg _, d.name, rfl, ircEq_refl _⟩

theorem Reading.classEntry {s₀ : ConfState} {xs₀ : List Nat} {ds : List ClassDef}
    (h : Reading s₀ xs₀ s xs ds) (d : ClassDef) :
    ∃ xs', Reading s₀ xs₀ (s.classEntry d) xs' (ds ++ [d]) := by
  have hmake := h.inv.makeClass
  have hnone : s.classes s.nextPtr = none := h.inv.freshClass le_rfl
  have hout : ∀ {q}, q ∈ xs → q ≠ s.nextPtr := by
    rintro q hq rfl
    have hsome := h.inv.linked hq
    rw [hnone] at hsome
    cases hsome
  have hself : s.makeClass.classes s.nextPtr = some ⟨none, MAXIMUM_LINKS_DEFAULT, 0⟩ :=
    update_self _ _ _
  have hother : ∀ {q}, q ≠ s.nextPtr → s.makeClass.classes q = s.classes q := fun hq =>
    update_of_ne hq _ _
  unfold ConfState.classEntry
  simp only
  cases hfind : s.makeClass.findClass d.name with
  | some q =>
    simp only
    -- the class of the name: the new item is freed again
    obtain ⟨hq, c, hc, hnamed⟩ := findClass_some hfind
    have hne : q ≠ s.nextPtr := by
      rintro rfl
      rw [hself] at hc
      cases hc
      cases hnamed
    rw [hmake.walkClasses] at hq
    have hqxs : q ∈ xs := (List.mem_cons.mp hq).resolve_left hne
    rw [hother hne] at hc
    obtain ⟨n, hn, hnne, heq⟩ := named_iff.mp hnamed
    have hname : ∀ {r m}, r ∈ s.nextPtr :: xs → r ≠ q → s.makeClass.Has r m →
        d.name ≠ [] ∨ m ≠ [] → ircEq d.name m = false := by
      rintro r m hr hrq ⟨c', hc', hm⟩ -
      by_contra htrue
      have hrn : r ≠ s.nextPtr := by
        rintro rfl
        rw [hself] at hc'
        cases hc'
        cases hm
      rw [hother hrn] at hc'
      refine hrq (h.inv.distinct hqxs ((List.mem_cons.mp hr).resolve_left hrn) ⟨c, hc, hn⟩
        ⟨c', hc', hm⟩ hnne ?_).symm
      exact ircEq_trans heq (Bool.eq_true_of_not_eq_false htrue)
    have hrefers : ∀ {r f}, s.confs r = some f → f.type.hasClass = true →
        f.classPtr ≠ s.nextPtr := by
      rintro r f hf hclass hptr
      have hsome := h.inv.classAlive hf hclass
      rw [hptr, hnone] at hsome
      cases hsome
    have hinv := Inv.takeOff [] xs (hmake.rewrite hq d.name d.maxTotal hname) (r := none)
      (fun hdef => hout (h.inv.default_mem) hdef.symm)
      (fun hf hill => hout (h.inv.listedClass hf hill)) (.inl ⟨rfl, hrefers⟩)
    refine ⟨xs, h.renamed (q := q) hinv rfl rfl (fun r => ?_) hqxs id (fun hr _ => hr)
      (fun {r c'} hr hrq hc' => ?_) fun {c' m} _ hc' hm => ?_⟩
    · change update (update s.makeClass.classes q _) s.nextPtr none r = _
      by_cases hr : r = s.nextPtr
      · rw [hr, update_self, if_neg hne.symm, hnone]
      · rw [update_of_ne hr]
        by_cases hrq : r = q
        · rw [hrq, update_self, if_pos rfl]
        · rw [update_of_ne hrq, if_neg hrq, hother hr]
    · by_contra hnamed'
      obtain ⟨m, hm, hmne, hmeq⟩ := named_iff.mp (Bool.eq_true_of_not_eq_false hnamed')
      exact hrq (h.inv.distinct hr hqxs ⟨c', hc', hm⟩ ⟨c, hc, hn⟩ hmne
        (ircEq_trans hmeq (ircEq_symm heq)))
    · rw [hc] at hc'
      cases hc'
      rw [hn] at hm
      cases hm
      exact ircEq_symm heq
  | none =>
    -- a new class
    simp only
    have hnot : ∀ {r c'}, r ∈ xs → s.classes r = some c' → c'.named d.name = false := by
      intro r c' hr hc'
      have hall := List.find?_eq_none.mp hfind r (by
        rw [hmake.walkClasses]
        exact mem_cons_of_mem _ hr)
      rw [hother (hout hr), hc', Option.any_some] at hall
      exact Bool.eq_false_of_not_eq_true hall
    have hname : ∀ {r m}, r ∈ s.nextPtr :: xs → r ≠ s.nextPtr → s.makeClass.Has r m →
        d.name ≠ [] ∨ m ≠ [] → ircEq d.name m = false := by
      rintro r m hr hrn ⟨c', hc', hm⟩ hne
      rw [hother hrn] at hc'
      by_contra htrue
      have heq := Bool.eq_true_of_not_eq_false htrue
      have hmne : m ≠ [] := by
        rintro rfl
        have hlen := congrArg List.length (ircEq_iff.mp heq)
        rw [length_map, length_map] at hlen
        exact hne.elim (fun hd => hd (List.length_eq_zero_iff.mp hlen)) fun hm => hm rfl
      have hnamed := hnot ((List.mem_cons.mp hr).resolve_left hrn) hc'
      rw [named_iff.mpr ⟨m, hm, hmne, ircEq_symm heq⟩] at hnamed
      cases hnamed
    have hinv := hmake.rewrite mem_cons_self d.name d.maxTotal hname
    refine ⟨s.nextPtr :: xs, h.renamed (q := s.nextPtr) hinv rfl rfl (fun r => ?_)
      mem_cons_self (mem_cons_of_mem _)
      (fun hr hrn => (List.mem_cons.mp hr).resolve_left hrn) (fun hr _ hc' => hnot hr hc')
      fun hin _ _ => absurd rfl (hout hin)⟩
    change update s.makeClass.classes s.nextPtr _ r = _
    by_cases hr : r = s.nextPtr
    · rw [hr, update_self, if_pos rfl]
    · rw [update_of_ne hr, if_neg hr, hother hr]

theorem Reading.default {s₀ : ConfState} {xs₀ : List Nat} {ds : List ClassDef}
    (h : Reading s₀ xs₀ s xs ds) : ∃ c, s.classes classDefault = some c ∧ 0 ≤ c.maxTotal := by
  obtain ⟨c, hc⟩ := Option.isSome_iff_exists.mp (h.inv.linked h.inv.default_mem)
  refine ⟨c, hc, ?_⟩
  by_contra hneg
  exact (h.marked h.inv.default_mem hc (not_le.mp hneg)).2.1 rfl

theorem Reading.confClass {s₀ : ConfState} {xs₀ : List Nat} {ds : List ClassDef}
    (h : Reading s₀ xs₀ s xs ds) (className : Option CStr) :
    s.confClass className ∈ xs ∧ ∃ c, s.classes (s.confClass className) = some c ∧
      0 ≤ c.maxTotal := by
  have hdefault := h.default
  have hmem := h.inv.default_mem
  unfold ConfState.confClass
  cases className with
  | none => exact ⟨hmem, hdefault⟩
  | some name =>
    simp only
    cases hfind : s.findClass name with
    | none => exact ⟨hmem, hdefault⟩
    | some p =>
      obtain ⟨hp, c, hc, -⟩ := findClass_some hfind
      rw [h.inv.walkClasses] at hp
      simp only [hc]
      split
      · exact ⟨hmem, hdefault⟩
      · rename_i hpos
        exact ⟨hp, c, hc, not_lt.mp hpos⟩

theorem Reading.confEntry {s₀ : ConfState} {xs₀ : List Nat} {ds : List ClassDef}
    (h : Reading s₀ xs₀ s xs ds) (d : ConfDef) : Reading s₀ xs₀ (s.confEntry d) xs ds := by
  obtain ⟨hmem, c, hc, hpos⟩ := h.confClass d.className
  have hnone : s.confs s.nextPtr = none := h.inv.freshConf le_rfl
  have hself : (s.confEntry d).confs s.nextPtr =
      some { type := d.type, classPtr := s.confClass d.className } := update_self _ _ _
  have hother : ∀ {q}, q ≠ s.nextPtr → (s.confEntry d).confs q = s.confs q := fun hq =>
    update_of_ne hq _ _
  have hcases : ∀ {q f}, (s.confEntry d).confs q = some f →
      q = s.nextPtr ∧ f = { type := d.type, classPtr := s.confClass d.className } ∨
      q ≠ s.nextPtr ∧ s.confs q = some f := by
    intro q f hf
    by_cases hq : q = s.nextPtr
    · rw [hq, hself] at hf
      cases hf
      exact .inl ⟨hq, rfl⟩
    · rw [hother hq] at hf
      exact .inr ⟨hq, hf⟩
  have hheld : ∀ {a}, a ∈ s.held → a.conf ≠ s.nextPtr := by
    intro a ha heq
    have hsome := h.inv.alive ha
    rw [heq, hnone] at hsome
    cases hsome
  have hholders : s.holders s.nextPtr = 0 := by
    refine List.countP_eq_zero.mpr fun a ha hconf => hheld ha (eq_of_beq hconf)
  have husers : ∀ p, (s.confEntry d).classUsers p = s.classUsers p := by
    intro p
    refine countP_congr fun a ha => ?_
    rw [hother (hheld ha)]
  constructor
  · refine { h.inv with
      freshClass := fun hq => h.inv.freshClass (Nat.le_of_succ_le hq)
      freshConf := fun {q} hq => ?_
      count := fun {p c} hc => ?_
      alive := fun {a} ha => ?_
      listed := fun q => ?_
      clients := fun {q f} hf hclass => ?_
      refCount := fun {q f} hf hclass => ?_
      illegal := fun {q f} hf hill => ?_
      classAlive := fun {q f} hf hclass => ?_
      listedClass := fun {q f} hf hill => ?_ }
    · exact (hother (Nat.lt_of_succ_le hq).ne').trans (h.inv.freshConf (Nat.le_of_succ_le hq))
    · rw [husers]
      exact h.inv.count hc
    · rw [hother (hheld ha)]
      exact h.inv.alive ha
    · change q ∈ s.nextPtr :: s.listed ↔ _
      rw [mem_cons, h.inv.listed q]
      constructor
      · rintro (rfl | ⟨f, hf, hill⟩)
        · exact ⟨_, hself, rfl⟩
        · refine ⟨f, (hother ?_).trans hf, hill⟩
          rintro rfl
          rw [hnone] at hf
          cases hf
      · rintro ⟨f, hf, hill⟩
        rcases hcases hf with ⟨hq, -⟩ | ⟨-, hf⟩
        · exact .inl hq
        · exact .inr ⟨f, hf, hill⟩
    · rcases hcases hf with ⟨rfl, rfl⟩ | ⟨-, hf⟩
      · exact hholders.symm
      · exact h.inv.clients hf hclass
    · rcases hcases hf with ⟨rfl, rfl⟩ | ⟨-, hf⟩
      · exact hholders.le
      · exact h.inv.refCount hf hclass
    · rcases hcases hf with ⟨rfl, rfl⟩ | ⟨-, hf⟩
      · cases hill
      · exact h.inv.illegal hf hill
    · rcases hcases hf with ⟨rfl, rfl⟩ | ⟨-, hf⟩
      · exact h.inv.linked hmem
      · exact h.inv.classAlive hf hclass
    · rcases hcases hf with ⟨rfl, rfl⟩ | ⟨-, hf⟩
      · exact hmem
      · exact h.inv.listedClass hf hill
  · intro p
    rw [← h.inUse p]
    constructor
    · rintro ⟨a, ha, f, hf, hclass, hptr⟩
      rw [hother (hheld ha)] at hf
      exact ⟨a, ha, f, hf, hclass, hptr⟩
    · rintro ⟨a, ha, f, hf, hclass, hptr⟩
      exact ⟨a, ha, f, (hother (hheld ha)).trans hf, hclass, hptr⟩
  · intro q f hf hill
    rcases hcases hf with ⟨rfl, rfl⟩ | ⟨-, hf⟩
    · exact ⟨c, hc, hpos⟩
    · exact h.legal hf hill
  · exact h.marked
  · exact h.fromConfig
  · exact h.allOfConfig

/-! ### `check_class` -/

theorem checkOne_frame (s : ConfState) (p : Nat) : (s.checkOne p).confs = s.confs ∧
    (s.checkOne p).held = s.held ∧ ∀ {q}, q ≠ p → (s.checkOne p).classes q = s.classes q := by
  unfold checkOne
  split
  · exact ⟨rfl, rfl, fun _ => rfl⟩
  · split
    · split
      · exact ⟨rfl, rfl, fun _ => rfl⟩
      · exact ⟨rfl, rfl, fun hq => update_of_ne hq _ _⟩
    · exact ⟨rfl, rfl, fun _ => rfl⟩

theorem Inv.checkTurn (h : s.Inv xs) (hp : p ∈ xs) (hc : s.classes p = some c)
    (hlegal : ∀ {q f}, s.confs q = some f → f.illegal = false →
      ∃ c, s.classes f.classPtr = some c ∧ 0 ≤ c.maxTotal)
    (hdefault : ∀ {c}, s.classes classDefault = some c → 0 ≤ c.maxTotal)
    (huse : c.maxTotal < 0 → c.currUserCount ≤ 0 → ¬s.ClassInUse p) :
    ∃ xs₁, (s.checkOne p).Inv xs₁ ∧ (∀ q, q ∈ xs₁ ↔ q ∈ xs ∧ (q = p → 0 ≤ c.maxTotal)) ∧
      (0 ≤ c.maxTotal → (s.checkOne p).classes p = s.classes p) := by
  by_cases hneg : c.maxTotal < 0
  · obtain ⟨ys, zs, rfl⟩ := append_of_mem hp
    have hnotin : p ∉ ys ++ zs := (List.nodup_middle.mp h.list.nodup).notMem
    have hout : ∀ q, q ∈ ys ++ zs ↔ q ∈ ys ++ p :: zs ∧ (q = p → 0 ≤ c.maxTotal) := by
      intro q
      rw [mem_append, mem_append, mem_cons]
      constructor
      · intro hq
        refine ⟨hq.imp_right .inr, fun heq => absurd ?_ hnotin⟩
        rw [← heq, mem_append]
        exact hq
      · rintro ⟨hq | rfl | hq, hpos⟩
        · exact .inl hq
        · exact absurd hneg (not_lt.mpr (hpos rfl))
        · exact .inr hq
    have hdef : p ≠ classDefault := by
      rintro rfl
      exact absurd (hdefault hc) (not_le.mpr hneg)
    have hleg : ∀ {q f}, s.confs q = some f → f.illegal = false → f.classPtr ≠ p := by
      rintro q f hf hill rfl
      obtain ⟨c', hc', hpos⟩ := hlegal hf hill
      rw [hc] at hc'
      cases hc'
      exact absurd hpos (not_le.mpr hneg)
    refine ⟨ys ++ zs, ?_, hout, fun hpos => absurd hneg (not_lt.mpr hpos)⟩
    unfold ConfState.checkOne
    simp only [hc, hneg, if_true]
    split
    · rename_i hcount
      have hoff := h.takeOff ys zs hdef hleg (.inr ⟨c, rfl, hc, hneg, hcount⟩)
      rwa [← hc, update_eq_self] at hoff
    · rename_i hcount
      refine h.takeOff ys zs hdef hleg (.inl ⟨rfl, ?_⟩)
      rintro q f hf hclass rfl
      cases hill : f.illegal with
      | false => exact hleg hf hill rfl
      | true =>
        obtain ⟨a, ha, hconf⟩ := List.countP_pos_iff.mp (h.illegal hf hill)
        exact huse hneg (not_lt.mp hcount)
          ⟨a, ha, f, (congrArg s.confs (eq_of_beq hconf)).trans hf, hclass, rfl⟩
  · have hsame : s.checkOne p = s := by
      unfold ConfState.checkOne
      simp only [hc, hneg, if_false]
    rw [hsame]
    have hall : ∀ q, q ∈ xs ↔ q ∈ xs ∧ (q = p → 0 ≤ c.maxTotal) := fun q =>
      ⟨fun hq => ⟨hq, fun _ => not_lt.mp hneg⟩, fun hq => hq.1⟩
    exact ⟨xs, h, hall, fun _ => rfl⟩

theorem Inv.checkClasses {l : List Nat} (h : s.Inv xs) (hl : l.Nodup) (hsub : ∀ p ∈ l, p ∈ xs)
    (hlegal : ∀ {q f}, s.confs q = some f → f.illegal = false →
      ∃ c, s.classes f.classPtr = some c ∧ 0 ≤ c.maxTotal)
    (hdefault : ∀ {c}, s.classes classDefault = some c → 0 ≤ c.maxTotal)
    (huse : ∀ {p c}, p ∈ l → s.classes p = some c → c.maxTotal < 0 → c.currUserCount ≤ 0 →
      ¬s.ClassInUse p) :
    ∃ xs', (l.foldl checkOne s).Inv xs' ∧
      (∀ p, p ∈ xs' ↔ p ∈ xs ∧ (p ∈ l → ∀ c, s.classes p = some c → 0 ≤ c.maxTotal)) ∧
      ∀ p ∈ xs', (l.foldl checkOne s).classes p = s.classes p := by
  induction l generalizing s xs with
  | nil => exact ⟨xs, h, fun p => ⟨fun hp => ⟨hp, fun hnil => absurd hnil not_mem_nil⟩,
    fun hp => hp.1⟩,
      fun _ _ => rfl⟩
  | cons p l ih =>
    obtain ⟨hpl, hl⟩ := List.nodup_cons.mp hl
    have hp := hsub p mem_cons_self
    obtain ⟨c, hc⟩ := Option.isSome_iff_exists.mp (h.linked hp)
    obtain ⟨hconfs, hheld, hother⟩ := checkOne_frame s p
    obtain ⟨xs₁, h₁, hmem₁, hclass₁⟩ := h.checkTurn hp hc hlegal hdefault
      (huse mem_cons_self hc)
    have hne : ∀ {q}, q ∈ l → q ≠ p := by
      rintro q hq rfl
      exact hpl hq
    have hlegal₁ : ∀ {q f}, (s.checkOne p).confs q = some f → f.illegal = false →
        ∃ c, (s.checkOne p).classes f.classPtr = some c ∧ 0 ≤ c.maxTotal := by
      intro q f hf hill
      rw [hconfs] at hf
      obtain ⟨c', hc', hpos⟩ := hlegal hf hill
      refine ⟨c', ?_, hpos⟩
      by_cases hptr : f.classPtr = p
      · rw [hptr] at hc' ⊢
        rw [hc] at hc'
        cases hc'
        rw [hclass₁ hpos, hc]
      · rw [hother hptr, hc']
    have hdefault₁ : ∀ {c}, (s.checkOne p).classes classDefault = some c → 0 ≤ c.maxTotal := by
      intro c' hc'
      by_cases hdef : classDefault = p
      · rw [hdef] at hc'
        have hpos := hdefault (hdef ▸ hc)
        rw [hclass₁ hpos, hc] at hc'
        cases hc'
        exact hpos
      · rw [hother hdef] at hc'
        exact hdefault hc'
    have hinUse : ∀ q, (s.checkOne p).ClassInUse q ↔ s.ClassInUse q := by
      intro q
      unfold ClassInUse
      rw [hconfs, hheld]
    obtain ⟨xs', h', hmem', hclass'⟩ := ih h₁ hl
      (fun q hq => (hmem₁ q).mpr ⟨hsub q (mem_cons_of_mem _ hq), fun heq =>
        absurd heq (hne hq)⟩)
      hlegal₁ hdefault₁ (fun {q c'} hq hc' hneg hcount => by
        rw [hother (hne hq)] at hc'
        rw [hinUse]
        exact huse (mem_cons_of_mem _ hq) hc' hneg hcount)
    have hstay : ∀ q, q ∈ xs' → (s.checkOne p).classes q = s.classes q := by
      intro q hq
      obtain ⟨hq₁, -⟩ := (hmem' q).mp hq
      by_cases hqp : q = p
      · rw [hqp]
        exact hclass₁ (((hmem₁ q).mp hq₁).2 hqp)
      · exact hother hqp
    refine ⟨xs', h', fun q => ?_, fun q hq => (hclass' q hq).trans (hstay q hq)⟩
    rw [hmem' q, hmem₁ q, mem_cons]
    constructor
    · rintro ⟨⟨hq, hpq⟩, hql⟩
      refine ⟨hq, ?_⟩
      rintro (rfl | hin) c' hc'
      · rw [hc] at hc'
        cases hc'
        exact hpq rfl
      · exact hql hin c' ((hother (hne hin)).trans hc')
    · rintro ⟨hq, hall⟩
      refine ⟨⟨hq, fun hqp => ?_⟩, fun hin c' hc' => ?_⟩
      · exact hall (.inl hqp) c (hqp ▸ hc)
      · rw [hother (hne hin)] at hc'
        exact hall (.inr hin) c' hc'

theorem Reading.classEntries {s₀ : ConfState} {xs₀ : List Nat} {ds : List ClassDef}
    (h : Reading s₀ xs₀ s xs ds) (defs : List ClassDef) :
    ∃ xs', Reading s₀ xs₀ (defs.foldl ConfState.classEntry s) xs' (ds ++ defs) := by
  induction defs generalizing s xs ds with
  | nil =>
    rw [append_nil]
    exact ⟨xs, h⟩
  | cons d defs ih =>
    obtain ⟨xs₁, h₁⟩ := h.classEntry d
    obtain ⟨xs', h'⟩ := ih h₁
    rw [append_assoc] at h'
    exact ⟨xs', h'⟩

theorem Reading.confEntries {s₀ : ConfState} {xs₀ : List Nat} {ds : List ClassDef}
    (h : Reading s₀ xs₀ s xs ds) (confs : List ConfDef) :
    Reading s₀ xs₀ (confs.foldl ConfState.confEntry s) xs ds := by
  induction confs generalizing s with
  | nil => exact h
  | cons d confs ih => exact ih (h.confEntry d)

theorem Stable.rehash (h : s.Stable xs) {defs : List ClassDef} {confs : List ConfDef}
    (hkeeps : s.Keeps (.rehash defs confs)) : ∃ xs', (s.rehash defs confs).Stable xs' := by
  obtain ⟨hdropped, hhub⟩ := hkeeps
  obtain ⟨xs₁, hclasses⟩ := (h.clearOutOldConf hhub).classEntries defs
  have hread := hclasses.confEntries confs
  rw [nil_append] at hread
  unfold ConfState.rehash ConfState.checkClass
  generalize confs.foldl ConfState.confEntry (defs.foldl ConfState.classEntry s.clearOutOldConf) =
    s₁
    at hread
  have huse : ∀ {p c}, p ∈ xs₁ → s₁.classes p = some c → c.maxTotal < 0 → c.currUserCount ≤ 0 →
      ¬s₁.ClassInUse p := by
    intro p c hp hc hneg hcount
    obtain ⟨hold, hdefault, hnamed, c₀, hc₀, hname, husers⟩ := hread.marked hp hc hneg
    rw [hread.inUse]
    apply hdropped p (h.inv.walkClasses ▸ hold) _ c₀ hc₀ _ (husers ▸ hcount)
    · rw [h.inv.tail]
      intro heq
      exact hdefault (Option.some_inj.mp heq).symm
    · intro d hd
      rw [ClassRec.named, hname]
      exact hnamed d hd
  have hdefault : ∀ {c}, s₁.classes classDefault = some c → 0 ≤ c.maxTotal := by
    intro c hc
    obtain ⟨c', hc', hpos⟩ := hread.default
    rw [hc] at hc'
    cases hc'
    exact hpos
  obtain ⟨xs', hinv, hmem, hclass⟩ := hread.inv.checkClasses hread.inv.list.nodup (fun _ hp => hp)
    hread.legal hdefault huse
  rw [hread.inv.walkClasses]
  have hstay : ∀ {p c}, p ∈ xs' → (xs₁.foldl ConfState.checkOne s₁).classes p = some c →
      p ∈ xs₁ ∧ s₁.classes p = some c ∧ 0 ≤ c.maxTotal := by
    intro p c hp hc
    rw [hclass p hp] at hc
    obtain ⟨hp₁, hpos⟩ := (hmem p).mp hp
    exact ⟨hp₁, hc, hpos hp₁ c hc⟩
  refine ⟨xs', { hinv with }, fun hp hc => (hstay hp hc).2.2, hinv.default_mem, fun p hp => ?_,
    fun d hd => ?_, fun p hp q hq m n hm hn => hinv.distinct hp hq hm hn⟩
  · obtain ⟨c, hc⟩ := Option.isSome_iff_exists.mp (hinv.linked hp)
    obtain ⟨hp₁, hc₁, hpos⟩ := hstay hp hc
    rcases hread.fromConfig hp₁ hc₁ with hdef | hneg | ⟨d, hd, hname⟩
    · exact .inl hdef
    · exact absurd hpos (not_le.mpr hneg)
    · exact .inr ⟨d, hd, c, hc, hname⟩
  · obtain ⟨p, hp, c, hc, hpos, name, hname, heq⟩ := hread.allOfConfig d hd
    have hp' : p ∈ xs' := by
      refine (hmem p).mpr ⟨hp, fun _ c' hc' => ?_⟩
      rw [hc] at hc'
      cases hc'
      exact hpos
    exact ⟨p, hp', name, ⟨c, (hclass p hp').trans hc, hname⟩, heq⟩

/-! ### Runs -/

theorem Stable.step (h : s.Stable xs) (op : ConfOp) (hkeeps : s.Keeps op) :
    ∃ xs', (s.step op).Stable xs' := by
  cases op with
  | attach conn place limitReached =>
    refine ⟨xs, ?_⟩
    unfold ConfState.step
    simp only
    split
    · exact h
    · exact h.attachConf _ _ _
  | detach conn type => exact ⟨xs, h.detachConf hkeeps⟩
  | exit conn => exact ⟨xs, h.detachConf hkeeps⟩
  | rehash defs confs => exact h.rehash hkeeps

theorem Stable.start : ConfState.start.Stable [classDefault] := by
  have hclass : ∀ {p c}, ConfState.start.classes p = some c →
      p = classDefault ∧ c = ⟨some "default".toList, MAXIMUM_LINKS_DEFAULT, 0⟩ := by
    intro p c hc
    change (if p = classDefault then _ else _) = _ at hc
    split at hc
    · rename_i hp
      exact ⟨hp, (Option.some_inj.mp hc).symm⟩
    · cases hc
  have hself : ConfState.start.classes classDefault =
      some ⟨some "default".toList, MAXIMUM_LINKS_DEFAULT, 0⟩ := rfl
  have honly : ∀ {p}, p ∈ [classDefault] → p = classDefault := List.mem_singleton.mp
  constructor
  · constructor
    · exact (DList.isList_nil _).add not_mem_nil
    · rfl
    · intro p hp
      rw [honly hp, hself]
      rfl
    · intro p hp
      refine if_neg ?_
      rintro rfl
      exact absurd hp (by decide)
    · intros
      rfl
    · intro p c hc hp
      exact absurd (List.mem_singleton.mpr (hclass hc).1) hp
    · intro p c hc
      rw [(hclass hc).2]
      exact ⟨le_rfl, le_rfl⟩
    · intro a ha
      cases ha
    · intro p
      constructor
      · intro hp
        cases hp
      · rintro ⟨f, hf, -⟩
        cases hf
    · intro p f hf
      cases hf
    · intro p f hf
      cases hf
    · intro p f hf
      cases hf
    · intro p f hf
      cases hf
    · intro p f hf
      cases hf
    · intro p q m n hp hq _ _ _ _
      rw [honly hp, honly hq]
  · intro p c hp hc
    rw [(hclass hc).2]
    exact le_rfl
  · constructor
    · exact List.mem_singleton.mpr rfl
    · intro p hp
      exact .inl (honly hp)
    · intro d hd
      cases hd
    · intro p hp q hq _ _ _ _ _ _
      rw [honly hp, honly hq]

end ConfState

open ConfState in
/-- While no conf is detached that is the last counted one of a dropped class, and
no rehash drops a class that is in use uncounted or a hub or leaf conf that has
been let go, the items stay settled in every run. -/
theorem conf_items_settled (ops : List ConfOp)
    (hkeeps : Run.Guarded ConfState.step Keeps ConfState.start ops) :
    (Run.exec ConfState.step ConfState.start ops).Settled := by
  have hstep : ∀ (s : ConfState) op, (∃ xs, s.Stable xs) → s.Keeps op →
      ∃ xs, (s.step op).Stable xs := by
    rintro s op ⟨xs, h⟩ hop
    exact h.step op hop
  obtain ⟨xs, h⟩ := Run.inv_exec hstep ⟨_, Stable.start⟩ hkeeps
  exact h.settled

theorem ConfState.keeps_rehash {s : ConfState} (hheld : s.held = [])
    (hlisted : ∀ p ∈ s.listed, (s.confs p).all (fun f => f.type.hasClass) = true)
    (defs : List ClassDef) (confs : List ConfDef) : s.Keeps (.rehash defs confs) := by
  constructor
  · rintro p - - c - - - ⟨a, ha, -⟩
    rw [hheld] at ha
    cases ha
  · intro p hp f hf hclass
    have hall := hlisted p hp
    rw [hf, Option.all_some, hclass] at hall
    cases hall

theorem ConfState.keepsDetached_of_configured {s : ConfState} {a : Held} {f : ConfRec}
    {c : ClassRec}
    (hf : s.confs a.conf = some f) (hclass : f.type.hasClass = true)
    (hc : s.classes f.classPtr = some c) (hpos : 0 ≤ c.maxTotal) : s.KeepsDetached a := by
  constructor
  · intro f' c' hf' _ hc' hneg
    rw [hf] at hf'
    cases hf'
    rw [hc] at hc'
    cases hc'
    exact absurd hpos (not_le.mpr hneg)
  · intro f' hf' hno
    rw [hf] at hf'
    cases hf'
    rw [hclass] at hno
    cases hno

def usersClass : ClassDef := ⟨"users".toList, 10, 0, 0, 0, by decide, by decide⟩

/-- A class is configured, dropped with its conf and configured again while nobody
is in it, and a client comes and leaves. -/
theorem conf_items_settled_users :
    (Run.exec ConfState.step ConfState.start
      [.rehash [usersClass] [⟨.client, some "users".toList, false⟩], .rehash [] [],
        .rehash [usersClass] [⟨.client, some "users".toList, false⟩], .attach 1 0 false,
        .exit 1]).Settled := by
  apply conf_items_settled
  refine ⟨?_, ?_, ?_, trivial, ?_, trivial⟩
  · exact ConfState.keeps_rehash rfl (by decide +kernel) _ _
  · exact ConfState.keeps_rehash (by decide +kernel) (by decide +kernel) _ _
  · exact ConfState.keeps_rehash (by decide +kernel) (by decide +kernel) _ _
  · unfold ConfState.Keeps
    simp only
    generalize hs : ConfState.step _ (.attach 1 0 false) = s
    have hdetached : s.detached 1 none = [⟨1, 4⟩] := by
      rw [← hs]
      decide +kernel
    rw [hdetached]
    refine ⟨ConfState.keepsDetached_of_configured (f := ⟨.client, 3, 1, 0, false⟩)
      (c := ⟨some "users".toList, 10, 1⟩) ?_ rfl ?_ (by decide), trivial⟩
    · rw [← hs]
      decide +kernel
    · rw [← hs]
      decide +kernel

/-- A class is dropped while a client is in it; when the client leaves,
`detach_conf` unlinks the class once more, and `class_items` is empty. -/
theorem class_unlinked_twice :
    ¬(Run.exec ConfState.step ConfState.start
      [.rehash [usersClass] [⟨.client, some "users".toList, false⟩], .attach 1 0 false,
        .rehash [] [], .exit 1]).Settled := by
  rintro ⟨xs, hlist, hconfigured, -⟩
  have hhead : xs.head? = none := hlist.head.symm.trans (by decide +kernel)
  rw [head?_eq_none_iff] at hhead
  have hmem := hconfigured.default
  rw [hhead] at hmem
  cases hmem

end Ircd
