import Ircd.Text
import Ircd.Lib.RefTrie
import Mathlib.Data.Fintype.Basic

/-!
The commands of `parse.c`: the trie of `add_msg_element`, `del_msg_element` and
`msg_tree_parse` under `mod_add_cmd` and `mod_del_cmd`.

Each function is the one of the trie library on the slots of the characters
(`addMsgElement_eq`, `delMsgElement_eq`, `msgTreeParse_eq`). Two alphabetic names have
the same slots exactly when they are equal under `irccmp`, so that the trie is the map
`registered` (`command_trie_refines`).
-/

namespace Ircd

open Function
open RefTrie (Heap Node Kept Sound)

/-- `IsAlpha`: the `ALPHA_C` attribute. -/
def isAlpha (c : Char) : Bool :=
  (decide (0x41 ≤ c.toNat) && decide (c.toNat ≤ 0x5e)) ||
    (decide (0x61 ≤ c.toNat) && decide (c.toNat ≤ 0x7e))

/-- `c & (MAXPTRLEN-1)`. -/
def slot (c : Char) : Fin 32 := ⟨c.toNat % 32, Nat.mod_lt _ (by decide)⟩

/-- A pointer to a `struct Message`, with the name of its command. -/
structure MsgPtr where
  ptr : Nat
  cmd : CStr
  deriving DecidableEq, Repr

/-- The counters of a `struct Message`. -/
structure MsgCounts where
  count : Nat
  rcount : Nat
  bytes : Nat
  deriving DecidableEq, Repr

/-- `struct MessageTree` and the nodes that were allocated for it. The static
`msg_tree` has the address 0. -/
abbrev MessageTree := Heap (Fin 32) MsgPtr

/-- `add_msg_element`: `none` is an access to a freed node. -/
def addMsgElement (msg : MsgPtr) : CStr → Nat → MessageTree → Option MessageTree
  | [], mtree, h =>
    (h.node mtree).map fun t => h.put mtree { t with val := some msg, links := t.links + 1 }
  | c :: cmd, mtree, h =>
    match h.node mtree with
    | none => none
    | some t =>
      match t.kids (slot c) with
      | some ntree => addMsgElement msg cmd ntree h
      | none =>
        addMsgElement msg cmd h.next (h.alloc.put mtree (t.setKid (slot c) (some h.next)))

/-- `del_msg_element`: `none` is an access to a freed node, or behind the text. At the
end of the text, a node without a message is searched at the slot of the NUL. -/
def delMsgElement : CStr → Nat → MessageTree → Option MessageTree
  | [], mtree, h =>
    match h.node mtree with
    | none => none
    | some t =>
      if t.val.isSome then some (h.put mtree { t with val := none, links := t.links - 1 })
      else if (t.kids 0).isSome then none
      else some h
  | c :: cmd, mtree, h =>
    match h.node mtree with
    | none => none
    | some t =>
      match t.kids (slot c) with
      | none => some h
      | some ntree =>
        (delMsgElement cmd ntree h).bind fun h =>
          match h.node ntree, h.node mtree with
          | some child, some t =>
            some (if child.links = 0 then (h.put mtree (t.setKid (slot c) none)).free ntree else h)
          | _, _ => none

/-- `msg_tree_parse`: the outer `none` is an access to a freed node. An empty name
fails the assertion of the source; behind it the NUL is not alphabetic. -/
def msgTreeParse : CStr → Nat → MessageTree → Option (Option MsgPtr)
  | [], root, h => (h.node root).map fun _ => none
  | c :: cmd, root, h =>
    match h.node root with
    | none => none
    | some t =>
      match t.kids (slot c) with
      | none => some none
      | some mtree =>
        if !isAlpha c then some none
        else if cmd = [] then (h.node mtree).map Node.val
        else msgTreeParse cmd mtree h

/-- The tree, and the counters of the messages. -/
structure CommandTable where
  tree : MessageTree
  counts : Nat → MsgCounts

/-- `mod_add_cmd`. -/
def modAddCmd (msg : MsgPtr) (s : CommandTable) : Option CommandTable :=
  match msgTreeParse msg.cmd 0 s.tree with
  | none => none
  | some (some _) => some s
  | some none =>
    (addMsgElement msg msg.cmd 0 s.tree).map fun tree =>
      { tree, counts := update s.counts msg.ptr ⟨0, 0, 0⟩ }

/-- `mod_del_cmd`. -/
def modDelCmd (msg : MsgPtr) (s : CommandTable) : Option CommandTable :=
  (delMsgElement msg.cmd 0 s.tree).map fun tree => { s with tree }

/-- `clear_tree_parse`. -/
def clearTreeParse (counts : Nat → MsgCounts) : CommandTable := ⟨Heap.empty, counts⟩

/-- A call that a module makes when it is loaded or unloaded. -/
inductive CommandOp where
  | add (msg : MsgPtr)
  | del (msg : MsgPtr)
  deriving DecidableEq, Repr

def CommandOp.msg : CommandOp → MsgPtr
  | .add msg => msg
  | .del msg => msg

def CommandTable.step (s : CommandTable) : CommandOp → Option CommandTable
  | .add msg => modAddCmd msg s
  | .del msg => modDelCmd msg s

def CommandTable.run (s : CommandTable) (ops : List CommandOp) : Option CommandTable :=
  ops.foldlM CommandTable.step s

/-! ### The map of the commands -/

/-- What a call does to the map from names to messages. -/
def register (reg : CStr → Option MsgPtr) : CommandOp → CStr → Option MsgPtr
  | .add msg => fun cmd => if ircEq msg.cmd cmd ∧ reg cmd = none then some msg else reg cmd
  | .del msg => fun cmd => if ircEq msg.cmd cmd then none else reg cmd

/-- The message that is registered under a name after the calls. -/
def registered (ops : List CommandOp) : CStr → Option MsgPtr := ops.foldl register fun _ => none

def IsName (cmd : CStr) : Prop := cmd ≠ [] ∧ ∀ c ∈ cmd, isAlpha c = true

instance (cmd : CStr) : Decidable (IsName cmd) :=
  @instDecidableAnd _ _ _ (List.decidableBAll (isAlpha · = true) cmd)

/-! ### Slots -/

theorem toNat_toUpper (c : Char) :
    (toUpper c).toNat =
      if 0x61 ≤ c.toNat ∧ c.toNat ≤ 0x7e then c.toNat - 0x20 else c.toNat := by
  unfold toUpper
  split
  · exact toNat_ofNat (.inl (by omega))
  · rfl

theorem isAlpha_iff {c : Char} :
    isAlpha c = true ↔
      (0x41 ≤ c.toNat ∧ c.toNat ≤ 0x5e) ∨ (0x61 ≤ c.toNat ∧ c.toNat ≤ 0x7e) := by
  simp [isAlpha]

theorem toUpper_eq_iff_slot {c d : Char} (hc : isAlpha c = true) :
    toUpper c = toUpper d ↔ isAlpha d = true ∧ slot c = slot d := by
  rw [isAlpha_iff] at hc
  rw [← Char.toNat_inj, toNat_toUpper, toNat_toUpper, isAlpha_iff, slot, slot, Fin.mk.injEq]
  split <;> split <;> omega

theorem slot_ne_zero {c : Char} (hc : isAlpha c = true) : slot c ≠ 0 := by
  rw [isAlpha_iff] at hc
  intro h
  have hval : c.toNat % 32 = 0 := congrArg Fin.val h
  omega

theorem ircEq_iff_slots {s t : CStr} (hs : IsName s) :
    ircEq s t = true ↔ IsName t ∧ t.map slot = s.map slot := by
  rw [ircEq_iff]
  obtain ⟨hne, halpha⟩ := hs
  have hall : s.map toUpper = t.map toUpper ↔
      (∀ c ∈ t, isAlpha c = true) ∧ t.map slot = s.map slot := by
    clear hne
    induction s generalizing t with
    | nil => cases t <;> simp
    | cons c s ih =>
      cases t with
      | nil => simp
      | cons d t =>
        have hc := halpha c List.mem_cons_self
        have htail := ih (t := t) fun x hx => halpha x (List.mem_cons_of_mem _ hx)
        rw [List.map_cons, List.map_cons, List.cons.injEq, toUpper_eq_iff_slot hc, htail,
          List.forall_mem_cons, List.map_cons, List.map_cons, List.cons.injEq, eq_comm]
        tauto
  rw [hall, IsName]
  constructor
  · rintro ⟨ht, hslots⟩
    refine ⟨⟨?_, ht⟩, hslots⟩
    rintro rfl
    exact hne (List.map_eq_nil_iff.mp hslots.symm)
  · rintro ⟨⟨-, ht⟩, hslots⟩
    exact ⟨ht, hslots⟩

/-! ### The functions and the library -/

theorem addMsgElement_eq (msg : MsgPtr) (cmd : CStr) (mtree : Nat) (h : MessageTree) :
    addMsgElement msg cmd mtree h = RefTrie.insert msg (cmd.map slot) mtree h := by
  induction cmd generalizing mtree h with
  | nil => rfl
  | cons c cmd ih =>
    rw [addMsgElement, List.map_cons, RefTrie.insert]
    cases h.node mtree with
    | none => rfl
    | some t =>
      dsimp only
      cases t.kids (slot c) with
      | none => exact ih _ _
      | some ntree => exact ih _ _

theorem delMsgElement_eq {h : MessageTree} (hnul : ∀ {a t}, h.node a = some t → t.kids 0 = none)
    (cmd : CStr) (mtree : Nat) :
    delMsgElement cmd mtree h = RefTrie.remove (cmd.map slot) mtree h := by
  induction cmd generalizing mtree with
  | nil =>
    rw [delMsgElement, List.map_nil, RefTrie.remove]
    cases ht : h.node mtree with
    | none => rfl
    | some t => simp [hnul ht, apply_ite some]
  | cons c cmd ih =>
    rw [delMsgElement, List.map_cons, RefTrie.remove]
    cases h.node mtree with
    | none => rfl
    | some t =>
      dsimp only
      cases t.kids (slot c) with
      | none => rfl
      | some ntree =>
        dsimp only
        rw [ih]
        congr 1
        funext h
        unfold RefTrie.prune
        cases h.node ntree <;> cases h.node mtree <;> rfl

theorem msgTreeParse_eq {h : MessageTree} {cmd : CStr} (hname : IsName cmd) (mtree : Nat) :
    msgTreeParse cmd mtree h = RefTrie.find h (cmd.map slot) mtree := by
  obtain ⟨hne, halpha⟩ := hname
  induction cmd generalizing mtree with
  | nil => exact absurd rfl hne
  | cons c cmd ih =>
    have hc := halpha c List.mem_cons_self
    rw [msgTreeParse, List.map_cons, RefTrie.find]
    cases h.node mtree with
    | none => rfl
    | some t =>
      dsimp only
      cases t.kids (slot c) with
      | none => rfl
      | some ntree =>
        by_cases hnil : cmd = []
        · simp [hc, hnil, RefTrie.find]
        · have htail := ih ntree hnil fun x hx => halpha x (List.mem_cons_of_mem _ hx)
          simp [hc, hnil, htail]

theorem msgTreeParse_of_not {h : MessageTree} (hs : Sound h) {cmd : CStr} (hname : ¬ IsName cmd)
    {mtree : Nat} (hlive : h.node mtree ≠ none) : msgTreeParse cmd mtree h = some none := by
  induction cmd generalizing mtree with
  | nil =>
    obtain ⟨t, ht⟩ := Option.ne_none_iff_exists'.mp hlive
    simp [msgTreeParse, ht]
  | cons c cmd ih =>
    obtain ⟨t, ht⟩ := Option.ne_none_iff_exists'.mp hlive
    rw [msgTreeParse, ht]
    dsimp only
    cases hkid : t.kids (slot c) with
    | none => rfl
    | some ntree =>
      by_cases hc : isAlpha c = true
      · have hnil : cmd ≠ [] := by
          rintro rfl
          exact hname ⟨by simp, by simpa using hc⟩
        have htail : ¬ IsName cmd := fun h => hname ⟨by simp, by simpa [hc] using h.2⟩
        simpa [hc, hnil] using ih htail (hs.alive _ ht hkid)
      · simp [hc]

/-! ### Runs -/

/-- The tree is the trie of the registered names. -/
structure Refines (s : CommandTable) (reg : CStr → Option MsgPtr)
    (vals : List (Fin 32) → Option MsgPtr) : Prop where
  kept : Kept s.tree vals
  named : ∀ {q}, vals q ≠ none → ∃ name, IsName name ∧ q = name.map slot
  reg_eq : ∀ cmd, reg cmd = if IsName cmd then vals (cmd.map slot) else none

variable {s : CommandTable} {reg : CStr → Option MsgPtr} {vals : List (Fin 32) → Option MsgPtr}

theorem Refines.root_live (r : Refines s reg vals) : s.tree.node 0 ≠ none := by
  obtain ⟨place, shape, -⟩ := r.kept
  obtain ⟨t, ht, -⟩ := shape.node shape.root
  rw [ht]
  exact Option.some_ne_none _

theorem Refines.no_nul (r : Refines s reg vals) {a : Nat} {t : Node (Fin 32) MsgPtr}
    (ht : s.tree.node a = some t) : t.kids 0 = none := by
  by_contra hkid
  obtain ⟨p, q, hval⟩ := r.kept.kid ht hkid
  obtain ⟨name, hname, hq⟩ := r.named hval
  have hmem : (0 : Fin 32) ∈ name.map slot := by
    rw [← hq]
    simp
  obtain ⟨c, hc, hzero⟩ := List.mem_map.mp hmem
  exact slot_ne_zero (hname.2 c hc) hzero

theorem Refines.lookup (r : Refines s reg vals) (cmd : CStr) :
    msgTreeParse cmd 0 s.tree = some (reg cmd) := by
  rw [r.reg_eq]
  by_cases hname : IsName cmd
  · rw [if_pos hname, msgTreeParse_eq hname, r.kept.find]
  · rw [if_neg hname, msgTreeParse_of_not r.kept.sound hname r.root_live]

theorem Refines.update (r : Refines s reg vals) {name : CStr} (hname : IsName name)
    {msg : Option MsgPtr} {tree : MessageTree} (counts : Nat → MsgCounts)
    (hkept : Kept tree (Function.update vals (name.map slot) msg)) :
    Refines ⟨tree, counts⟩ (fun cmd => if ircEq name cmd then msg else reg cmd)
      (Function.update vals (name.map slot) msg) where
  kept := hkept
  named {q} hq := by
    by_cases hqn : q = name.map slot
    · exact ⟨name, hname, hqn⟩
    · rw [update_of_ne hqn] at hq
      exact r.named hq
  reg_eq cmd := by
    have hiff := ircEq_iff_slots hname (t := cmd)
    by_cases heq : ircEq name cmd = true
    · obtain ⟨hcmd, hslots⟩ := hiff.mp heq
      rw [if_pos heq, if_pos hcmd, hslots, update_self]
    · rw [if_neg heq, r.reg_eq]
      by_cases hcmd : IsName cmd
      · have hslots : cmd.map slot ≠ name.map slot := fun h => heq (hiff.mpr ⟨hcmd, h⟩)
        rw [if_pos hcmd, if_pos hcmd, update_of_ne hslots]
      · rw [if_neg hcmd, if_neg hcmd]

theorem Refines.modAddCmd (r : Refines s reg vals) {msg : MsgPtr} (hname : IsName msg.cmd) :
    ∃ s' vals', modAddCmd msg s = some s' ∧ Refines s' (register reg (.add msg)) vals' := by
  have hsame : ∀ cmd, ircEq msg.cmd cmd = true → reg cmd = reg msg.cmd := by
    intro cmd heq
    obtain ⟨hcmd, hslots⟩ := (ircEq_iff_slots hname).mp heq
    rw [r.reg_eq, r.reg_eq, if_pos hcmd, if_pos hname, hslots]
  unfold Ircd.modAddCmd
  rw [r.lookup]
  cases hreg : reg msg.cmd with
  | some found =>
    have hkeep : register reg (.add msg) = reg := by
      funext cmd
      have hnot : ¬ (ircEq msg.cmd cmd = true ∧ reg cmd = none) := by
        rintro ⟨heq, hnone⟩
        rw [hsame cmd heq, hreg] at hnone
        cases hnone
      exact if_neg hnot
    exact ⟨s, vals, rfl, by rwa [hkeep]⟩
  | none =>
    have hfree : vals (msg.cmd.map slot) = none := by
      rw [r.reg_eq, if_pos hname] at hreg
      exact hreg
    obtain ⟨tree, hins, hkept⟩ := r.kept.insert (v := msg) hfree
    have hregister : register reg (.add msg) =
        fun cmd => if ircEq msg.cmd cmd then some msg else reg cmd := by
      funext cmd
      by_cases heq : ircEq msg.cmd cmd = true
      · simp [register, heq, hsame cmd heq, hreg]
      · simp [register, heq]
    rw [hregister]
    refine ⟨⟨tree, Function.update s.counts msg.ptr ⟨0, 0, 0⟩⟩, _, ?_,
      r.update hname _ hkept⟩
    simp only [addMsgElement_eq, hins, Option.map_some]

theorem Refines.modDelCmd (r : Refines s reg vals) {msg : MsgPtr} (hname : IsName msg.cmd) :
    ∃ s' vals', modDelCmd msg s = some s' ∧ Refines s' (register reg (.del msg)) vals' := by
  obtain ⟨tree, hrem, hkept⟩ := r.kept.remove (msg.cmd.map slot)
  refine ⟨⟨tree, s.counts⟩, _, ?_, r.update hname s.counts hkept⟩
  rw [Ircd.modDelCmd, delMsgElement_eq r.no_nul, hrem, Option.map_some]

theorem Refines.step (r : Refines s reg vals) {op : CommandOp} (hname : IsName op.msg.cmd) :
    ∃ s' vals', s.step op = some s' ∧ Refines s' (register reg op) vals' := by
  cases op with
  | add msg => exact r.modAddCmd hname
  | del msg => exact r.modDelCmd hname

theorem Refines.run (r : Refines s reg vals) {ops : List CommandOp}
    (hops : ∀ op ∈ ops, IsName op.msg.cmd) :
    ∃ s' vals', s.run ops = some s' ∧ Refines s' (ops.foldl register reg) vals' := by
  induction ops generalizing s reg vals with
  | nil => exact ⟨s, vals, rfl, r⟩
  | cons op ops ih =>
    obtain ⟨t, tvals, hstep, hr⟩ := r.step (hops op List.mem_cons_self)
    obtain ⟨s', vals', hrun, hr'⟩ := ih hr fun o ho => hops o (List.mem_cons_of_mem _ ho)
    refine ⟨s', vals', ?_, hr'⟩
    rw [CommandTable.run, List.foldlM_cons, hstep]
    exact hrun

theorem refines_clear (counts : Nat → MsgCounts) :
    Refines (clearTreeParse counts) (fun _ => none) fun _ => none where
  kept := RefTrie.kept_empty
  named h := absurd rfl h
  reg_eq cmd := by simp

/-- After any calls with alphabetic names, none of which fails, a lookup gives the
registered message, every count is that of the references, no node in use is freed,
and every node is needed by a command. -/
theorem command_trie_refines (counts : Nat → MsgCounts) {ops : List CommandOp}
    (hops : ∀ op ∈ ops, IsName op.msg.cmd) :
    ∃ s, (clearTreeParse counts).run ops = some s ∧
      (∀ cmd, msgTreeParse cmd 0 s.tree = some (registered ops cmd)) ∧ Sound s.tree := by
  obtain ⟨s, vals, hrun, r⟩ := (refines_clear counts).run hops
  exact ⟨s, hrun, r.lookup, r.kept.sound⟩

/-- A command and one that it is the beginning of, and the removal of the shorter one. -/
def joinAndJo : List CommandOp :=
  [.add ⟨1, "JOIN".toList⟩, .add ⟨2, "jo".toList⟩, .add ⟨3, "Join".toList⟩,
    .del ⟨2, "JO".toList⟩]

theorem command_trie_refines_joinAndJo :
    ∃ s, (clearTreeParse fun _ => ⟨0, 0, 0⟩).run joinAndJo = some s ∧
      (∀ cmd, msgTreeParse cmd 0 s.tree = some (registered joinAndJo cmd)) ∧ Sound s.tree :=
  command_trie_refines _ (by decide)

/-- The first message keeps the name, and the removed one is gone. -/
example : registered joinAndJo "join".toList = some ⟨1, "JOIN".toList⟩ ∧
    registered joinAndJo "jo".toList = none := by decide

end Ircd
