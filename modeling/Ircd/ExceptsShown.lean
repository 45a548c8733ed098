import Ircd.ModeAsserts
import Ircd.ModeLines

/-!
Who is shown the changes of the exception and invex lists.

`chm_except` and `chm_invex` mark their changes as `ONLY_CHANOPS`. `send_mode_changes` leaves
out what is marked as `NON_CHANOPS` or `ONLY_SERVERS`, and sends all the rest to all members.
So two MODE lines look the same to a member just when they make the same changes, those of
the exceptions among them (`except_invex_shown_iff`).
-/

namespace Ircd

open List

/-! ### What a member is sent -/

/-- `IsDeaf`. -/
def Client.isDeaf (x : Client) : Bool := decide (.deaf ∈ x.umodes)

/-- `sendto_channel_local`: the lines for a member. The empty type is `ALL_MEMBERS`. -/
def sendtoChannelLocal (cl : Clients) (type : Finset ChFlag) (nodeaf : Bool) (lines : List CStr)
    (ms : Membership) : List CStr :=
  if type ≠ ∅ ∧ Disjoint ms.flags type then []
  else if (cl ms.client).isDefunct || nodeaf && (cl ms.client).isDeaf then []
  else lines

/-- What `send_mode_changes` sends a local member. -/
def ModeSource.delivered (src : ModeSource) (cl : Clients) (combos : List (Nat × Nat))
    (changes : List ShownChange) (ms : Membership) : List CStr :=
  sendtoChannelLocal cl ∅ false (src.sendModeChanges combos changes).1 ms

/-- `set_channel_mode` on a MODE line. The first of its parameters is the mode string. -/
def TokenLine.run {σ : Type} {parv : List CStr} (L : TokenLine σ parv) (env : ModeEnv)
    (chptr : Channel) : σ × ModeState :=
  L.toParamStore.setChannelMode { env with parc := parv.length } chptr L.line (parv.getD 0 [])

/-- The changes that it hands to `send_mode_changes`. -/
def TokenLine.changes {σ : Type} {parv : List CStr} (L : TokenLine σ parv) (env : ModeEnv)
    (chptr : Channel) : List ShownChange :=
  let s := L.run env chptr
  s.2.modeChanges.map (ModeChange.shown (L.read s.1) s.2.chptr.mode.key)

/-- The letters of a line other than `e` and `I`, with their parameters. -/
def otherLetters (parv : List CStr) : List (LetterChange CStr) :=
  (readChanges modeTakes .add (parv.getD 0 []) parv.tail).1.filter fun c =>
    c.letter != 'e' && c.letter != 'I'

/-- Changes that are told apart in a line: letters that are neither signs nor blanks and have
their parameters, which are without blanks but for one key at most. -/
structure Legible (cs : List (LetterChange CStr)) : Prop where
  dir : ∀ c ∈ cs, c.dir ≠ .query
  signed : Wellsigned modeTakes cs
  letter : ∀ c ∈ cs, c.letter ≠ ' '
  param : ∀ c ∈ cs, (c.letter = 'k' ∧ c.dir = .add) ∨ ∀ arg ∈ c.param, ' ' ∉ arg
  key : cs.countP (fun c => c.letter == 'k' && c.dir == .add) ≤ 1

/-! ### The lines of some changes -/

namespace CapLoop

/-- The buffers hold the letters since the last line, and the lines those before. -/
structure Written (first next : CStr) (groups : List (List (LetterChange CStr)))
    (group : List (LetterChange CStr)) (st : CapLoop) : Prop extends
    Buffers first next group st where
  sent : List.Forall₂ (fun group line => ∃ header ∈ [first, next],
    line = header ++ writeChanges .query group ++ ' ' :: words (paramsOf group)) groups st.sent

variable {first next : CStr} {groups : List (List (LetterChange CStr))}
  {group : List (LetterChange CStr)} {st : CapLoop} {c : LetterChange CStr}

theorem Written.add (h : Written first next groups group st) (hdir : c.dir ≠ .query) :
    Written first next groups (group ++ [c]) (st.add c) :=
  ⟨h.toBuffers.add hdir, h.sent⟩

theorem Written.letter {flush : CapLoop → CapLoop} (hflush : Flushes next flush)
    (hheader : ∀ header ∈ [first, next], header.getLast? ≠ some '-')
    (hgroup : ∀ d ∈ group, signDir d.letter = none) (h : Written first next groups group st)
    (hdir : c.dir ≠ .query) :
    ∃ groups' group', Written first next groups' group' (st.next flush c) ∧
      groups'.flatten ++ group' = groups.flatten ++ group ++ [c] ∧ group' ≠ [] := by
  unfold CapLoop.next
  split
  · obtain ⟨header, hmem, hbuf⟩ := h.modebuf
    have hend : st.modebuf.getLast? ≠ some '-' := by
      rw [hbuf]
      exact getLast?_writeChanges (hheader header hmem) hgroup
    have hempty : ∀ {groups'}, Written first next groups' [] (flush st) →
        Written first next groups' [c] ((flush st).add c) := fun h' => h'.add hdir
    rw [hflush st hend] at hempty ⊢
    by_cases hne : group = []
    · have hnc : ¬st.nc ≠ 0 := by rw [h.nc, hne]; exact fun h => h rfl
      rw [if_neg hnc] at hempty ⊢
      refine ⟨groups, [c], hempty ⟨⟨⟨next, by simp, ?_⟩, rfl, rfl, rfl⟩, h.sent⟩, ?_, by simp⟩
      · exact (append_nil next).symm
      · rw [hne, append_nil]
    · have hnc : st.nc ≠ 0 := by
        rw [h.nc]
        exact fun h0 => hne (List.length_eq_zero_iff.mp h0)
      rw [if_pos hnc] at hempty ⊢
      refine ⟨groups ++ [group], [c], hempty ⟨⟨⟨next, by simp, ?_⟩, rfl, rfl, rfl⟩, ?_⟩, ?_,
        by simp⟩
      · exact (append_nil next).symm
      · exact rel_append h.sent (.cons ⟨header, hmem, by rw [hbuf, h.parabuf]⟩ .nil)
      · rw [flatten_append, flatten_singleton]
  · exact ⟨groups, group ++ [c], h.add hdir, (append_assoc ..).symm, by simp⟩

theorem Written.foldl {flush : CapLoop → CapLoop} (hflush : Flushes next flush)
    (hheader : ∀ header ∈ [first, next], header.getLast? ≠ some '-')
    (h : Written first next groups group st) {cs : List (LetterChange CStr)}
    (hletter : ∀ d ∈ groups.flatten ++ group ++ cs, signDir d.letter = none)
    (hdir : ∀ d ∈ cs, d.dir ≠ .query) (hne : cs = [] → group ≠ []) :
    ∃ groups' group', Written first next groups' group' (cs.foldl (CapLoop.next flush) st) ∧
      groups'.flatten ++ group' = groups.flatten ++ group ++ cs ∧ group' ≠ [] := by
  induction cs generalizing groups group st with
  | nil => exact ⟨groups, group, h, (append_nil _).symm, hne rfl⟩
  | cons c cs ih =>
    have hgroup : ∀ d ∈ group, signDir d.letter = none := fun d hd => hletter d (by simp [hd])
    obtain ⟨groups', group', hnext, heq, hne'⟩ :=
      h.letter hflush hheader hgroup (hdir c (by simp))
    have hall : groups'.flatten ++ group' ++ cs = groups.flatten ++ group ++ c :: cs := by
      rw [heq, append_assoc, singleton_append]
    obtain ⟨groups'', group'', hlast, heq', hne''⟩ :=
      ih hnext (by rwa [hall]) (fun d hd => hdir d (mem_cons_of_mem _ hd)) fun _ => hne'
    exact ⟨groups'', group'', hlast, heq'.trans hall, hne''⟩

theorem getLast?_words {ws : List CStr} (hne : ws ≠ []) : (words ws).getLast? = some ' ' := by
  obtain ⟨init, w, rfl⟩ := (eq_nil_or_concat ws).resolve_left hne
  rw [concat_eq_append, words_append, words_cons, words_nil, getLast?_append,
    getLast?_append]
  rfl

theorem Written.finish (h : Written first next groups group st) (hne : group ≠ []) :
    st.finish = st.sent ++ [st.modebuf ++ ' ' :: (words (paramsOf group)).dropLast] := by
  have hnc : st.nc ≠ 0 := by
    rw [h.nc]
    exact fun h0 => hne (List.length_eq_zero_iff.mp h0)
  rw [CapLoop.finish, if_pos hnc, h.parabuf]
  by_cases hparams : paramsOf group = []
  · rw [hparams]
    rfl
  · rw [if_pos (getLast?_words hparams)]

end CapLoop

/-! ### Lines that are the same -/

theorem append_blank_inj {a b s t : CStr} (ha : ' ' ∉ a) (hb : ' ' ∉ b)
    (h : a ++ ' ' :: s = b ++ ' ' :: t) : a = b ∧ s = t := by
  induction a generalizing b with
  | nil =>
    cases b with
    | nil => exact ⟨rfl, (List.cons.inj h).2⟩
    | cons d b => exact absurd ((List.cons.inj h).1 ▸ mem_cons_self) hb
  | cons c a ih =>
    cases b with
    | nil => exact absurd ((List.cons.inj h).1 ▸ mem_cons_self) ha
    | cons d b =>
      obtain ⟨rfl, hrest⟩ := List.cons.inj h
      obtain ⟨rfl, hst⟩ := ih (not_mem_of_not_mem_cons ha)
        (not_mem_of_not_mem_cons hb) hrest
      exact ⟨rfl, hst⟩

theorem words_behind_inj {p q : List CStr} {x y : CStr} (hlen : p.length = q.length)
    (hp : ∀ a ∈ p, ' ' ∉ a) (hq : ∀ a ∈ q, ' ' ∉ a)
    (h : x ++ p.flatMap (fun a => ' ' :: a) = y ++ q.flatMap (fun a => ' ' :: a)) :
    x = y ∧ p = q := by
  induction p using List.reverseRecOn generalizing q with
  | nil =>
    obtain rfl := List.length_eq_zero_iff.mp hlen.symm
    exact ⟨by simpa using h, rfl⟩
  | append_singleton p a ih =>
    obtain ⟨q, b, rfl⟩ : ∃ init b, q = init ++ [b] := by
      refine (eq_nil_or_concat' q).resolve_left ?_
      rintro rfl
      simp at hlen
    simp only [flatMap_append, flatMap_singleton, ← append_assoc] at h
    have hrev := congrArg List.reverse h
    simp only [reverse_append, reverse_cons, append_assoc,
      singleton_append] at hrev
    have ha : ' ' ∉ a.reverse := by simpa using hp a (by simp)
    have hb : ' ' ∉ b.reverse := by simpa using hq b (by simp)
    obtain ⟨hab, hrest⟩ := append_blank_inj ha hb hrev
    have hback := ih (q := q) (by simpa using hlen) (fun d hd => hp d (by simp [hd]))
      (fun d hd => hq d (by simp [hd])) (by
        apply reverse_injective
        rw [reverse_append, reverse_append]
        exact hrest)
    exact ⟨hback.1, by rw [hback.2, reverse_injective hab]⟩

theorem words_cons_eq (a : CStr) (ps : List CStr) :
    words (a :: ps) = a ++ ps.flatMap (fun b => ' ' :: b) ++ [' '] := by
  induction ps generalizing a with
  | nil => simp
  | cons b ps ih =>
    rw [words_cons, ih, flatMap_cons]
    simp

/-- A change without its parameter. -/
def LetterChange.shape {α : Type} (c : LetterChange α) : ModeDir × Char := (c.dir, c.letter)

theorem map_shape_readChanges {α : Type} (takes : ModeDir → Char → Bool) (r : ModeDir) (s : CStr)
    (p q : List α) : (readChanges takes r s p).1.map LetterChange.shape =
      (readChanges takes r s q).1.map LetterChange.shape := by
  induction s generalizing r p q with
  | nil => rfl
  | cons c s ih =>
    unfold readChanges
    cases signDir c with
    | some dir => exact ih ..
    | none =>
      dsimp only
      rw [map_cons, map_cons]
      exact congrArg₂ List.cons rfl (ih ..)

section

variable {cs ds : List (LetterChange CStr)} {c d : LetterChange CStr} {dir : ModeDir}

theorem Legible.sublist (h : Legible cs) (hds : ds.Sublist cs) : Legible ds where
  dir d hd := h.dir d (hds.subset hd)
  signed := ⟨fun d hd => h.signed.letter d (hds.subset hd),
    fun d hd => h.signed.param d (hds.subset hd)⟩
  letter d hd := h.letter d (hds.subset hd)
  param d hd := h.param d (hds.subset hd)
  key := (hds.countP_le).trans h.key

theorem length_paramsOf (h : Wellsigned modeTakes cs) : (paramsOf cs).length =
    (cs.map LetterChange.shape).countP fun s => modeTakes s.1 s.2 := by
  induction cs with
  | nil => rfl
  | cons c cs ih =>
    have hparam := h.param c mem_cons_self
    rw [map_cons, countP_cons, ← ih h.tail, LetterChange.shape, ← hparam]
    cases hp : c.param <;> simp [paramsOf, hp]

theorem Legible.eq_of_words (hcs : Legible cs) (hds : Legible ds)
    (hshape : cs.map LetterChange.shape = ds.map LetterChange.shape)
    (hwords : words (paramsOf cs) = words (paramsOf ds)) : cs = ds := by
  induction cs generalizing ds with
  | nil => exact (List.map_eq_nil_iff.mp hshape.symm).symm
  | cons c cs ih =>
    cases ds with
    | nil => cases hshape
    | cons d ds =>
      obtain ⟨hhead, htail⟩ := List.cons.inj hshape
      have hcs' := hcs.sublist (sublist_cons_self c cs)
      have hds' := hds.sublist (sublist_cons_self d ds)
      obtain ⟨cdir, cletter, cparam⟩ := c
      obtain ⟨ddir, dletter, dparam⟩ := d
      obtain ⟨rfl, rfl⟩ := Prod.mk.inj hhead
      have hc := hcs.signed.param _ mem_cons_self
      have hd := hds.signed.param _ mem_cons_self
      dsimp only at hc hd
      have hsame : cparam.isSome = dparam.isSome := hc.trans hd.symm
      cases cparam with
      | none =>
        cases dparam with
        | some b => cases hsame
        | none => rw [ih hcs' hds' htail hwords]
      | some a =>
        cases dparam with
        | none => cases hsame
        | some b =>
          have hwords' : words (a :: paramsOf cs) = words (b :: paramsOf ds) := hwords
          by_cases hkey : cletter = 'k' ∧ cdir = .add
          · -- the others are without blanks
            have hfree : ∀ {es : List (LetterChange CStr)} {x : Option CStr},
                Legible (⟨cdir, cletter, x⟩ :: es) → ∀ p ∈ paramsOf es, ' ' ∉ p := by
              intro es x hes p hp
              obtain ⟨e, he, hpe⟩ := List.mem_filterMap.mp hp
              refine (hes.param e (mem_cons_of_mem _ he)).elim (fun hek => ?_)
                fun h => h p hpe
              have hone := hes.key
              rw [countP_cons] at hone
              have hpos : 0 < es.countP fun c => c.letter == 'k' && c.dir == .add :=
                List.countP_pos_iff.mpr ⟨e, he, by simp [hek.1, hek.2]⟩
              simp only [hkey.1, hkey.2, beq_self_eq_true, Bool.and_self, if_true] at hone
              omega
            rw [words_cons_eq, words_cons_eq] at hwords'
            have hlen : (paramsOf cs).length = (paramsOf ds).length := by
              rw [length_paramsOf hcs'.signed, length_paramsOf hds'.signed, htail]
            obtain ⟨rfl, hparams⟩ := words_behind_inj hlen (hfree hcs) (hfree hds)
              (append_cancel_right hwords')
            rw [ih hcs' hds' htail (congrArg words hparams)]
          · have hblank : ∀ {es : List (LetterChange CStr)} {x : CStr},
                Legible (⟨cdir, cletter, some x⟩ :: es) → ' ' ∉ x := fun hes =>
              (hes.param _ mem_cons_self).elim (fun h => absurd h hkey)
                fun h => h _ rfl
            rw [words_cons, words_cons] at hwords'
            obtain ⟨rfl, hrest⟩ := append_blank_inj (hblank hcs) (hblank hds) hwords'
            rw [ih hcs' hds' htail hrest]

theorem blank_notMem_writeChanges (h : ∀ c ∈ cs, c.letter ≠ ' ') : ' ' ∉ writeChanges dir cs := by
  induction cs generalizing dir with
  | nil => exact not_mem_nil
  | cons c cs ih =>
    have hsign : ' ' ≠ c.dir.sign := by cases c.dir <;> decide
    rw [writeChanges, mem_append, mem_cons, not_or, not_or]
    refine ⟨?_, (h c mem_cons_self).symm, ih fun d hd => h d (mem_cons_of_mem _ hd)⟩
    split
    · exact not_mem_nil
    · rw [mem_singleton]
      exact hsign

theorem Legible.shape_of_writeChanges (hcs : Legible cs) (hds : Legible ds)
    (h : writeChanges .query cs = writeChanges .query ds) :
    cs.map LetterChange.shape = ds.map LetterChange.shape := by
  have hread : ∀ {es : List (LetterChange CStr)}, Legible es → es.map LetterChange.shape =
      (readChanges modeTakes .query (writeChanges .query es) ([] : List CStr)).1.map
        LetterChange.shape := by
    intro es hes
    have hback : readChanges modeTakes .query (writeChanges .query es) (paramsOf es ++ []) = _ :=
      readChanges_writeChanges hes.signed (.inl rfl) []
    rw [map_shape_readChanges modeTakes .query _ [] (paramsOf es ++ []), hback]
  rw [hread hcs, hread hds, h]

end

/-- What stands behind the headers of the lines is told from them. -/
def Cancels (first next : CStr) : Prop :=
  ∀ h ∈ [first, next], ∀ h' ∈ [first, next], ∀ r r' : CStr, h ++ r = h' ++ r' → r = r'

namespace CapLoop

variable {first next : CStr} {cs ds : List (LetterChange CStr)}

theorem line_inj (hheader : Cancels first next) {h h' s t : CStr} (hh : h ∈ [first, next])
    (hh' : h' ∈ [first, next]) (hcs : Legible cs) (hds : Legible ds)
    (heq : h ++ writeChanges .query cs ++ ' ' :: s = h' ++ writeChanges .query ds ++ ' ' :: t) :
    cs.map LetterChange.shape = ds.map LetterChange.shape ∧ s = t := by
  rw [append_assoc, append_assoc] at heq
  obtain ⟨hletters, hrest⟩ := append_blank_inj (blank_notMem_writeChanges hcs.letter)
    (blank_notMem_writeChanges hds.letter) (hheader h hh h' hh' _ _ heq)
  exact ⟨hcs.shape_of_writeChanges hds hletters, hrest⟩

theorem groups_inj (hheader : Cancels first next) {groups groups' : List (List (LetterChange CStr))}
    {lines : List CStr}
    (h : List.Forall₂ (fun group line => ∃ header ∈ [first, next],
      line = header ++ writeChanges .query group ++ ' ' :: words (paramsOf group)) groups lines)
    (h' : List.Forall₂ (fun group line => ∃ header ∈ [first, next],
      line = header ++ writeChanges .query group ++ ' ' :: words (paramsOf group)) groups' lines)
    (hlegible : ∀ group ∈ groups, Legible group) (hlegible' : ∀ group ∈ groups', Legible group) :
    groups = groups' := by
  induction h generalizing groups' with
  | nil =>
    cases h'
    rfl
  | cons hline hlines ih =>
    cases h' with
    | cons hline' hlines' =>
      obtain ⟨header, hmem, heq⟩ := hline
      obtain ⟨header', hmem', heq'⟩ := hline'
      have hone := hlegible _ mem_cons_self
      have hone' := hlegible' _ mem_cons_self
      obtain ⟨hshape, hwords⟩ := line_inj hheader hmem hmem' hone hone' (heq.symm.trans heq')
      rw [hone.eq_of_words hone' hshape hwords,
        ih hlines' (fun g hg => hlegible g (mem_cons_of_mem _ hg))
          fun g hg => hlegible' g (mem_cons_of_mem _ hg)]

theorem run_inj {flush : CapLoop → CapLoop} (hflush : Flushes next flush)
    (hdash : ∀ header ∈ [first, next], header.getLast? ≠ some '-') (hheader : Cancels first next)
    (hcs : Legible cs) (hds : Legible ds)
    (h : (cs.foldl (CapLoop.next flush) { modebuf := first }).finish =
      (ds.foldl (CapLoop.next flush) { modebuf := first }).finish) : cs = ds := by
  have hstart : Written first next [] [] { modebuf := first } :=
    ⟨⟨⟨first, by simp, (append_nil first).symm⟩, rfl, rfl, rfl⟩, .nil⟩
  have hrun : ∀ {es : List (LetterChange CStr)}, Legible es → es ≠ [] →
      ∃ groups group, Written first next groups group
        (es.foldl (CapLoop.next flush) { modebuf := first }) ∧
          groups.flatten ++ group = es ∧ group ≠ [] := fun hes hne =>
    hstart.foldl hflush hdash hes.signed.letter hes.dir fun hnil => absurd hnil hne
  have hsome : ∀ {es : List (LetterChange CStr)}, Legible es → es ≠ [] →
      (es.foldl (CapLoop.next flush) { modebuf := first }).finish ≠ [] := by
    intro es hes hne
    obtain ⟨groups, group, hwritten, -, hgroup⟩ := hrun hes hne
    rw [hwritten.finish hgroup]
    simp
  by_cases hnil : cs = []
  · by_contra hne
    refine hsome hds (fun hnil' => hne (hnil.trans hnil'.symm)) ?_
    rw [← h, hnil]
    rfl
  · have hnil' : ds ≠ [] := by
      rintro rfl
      exact hsome hcs hnil h
    obtain ⟨groups, group, hwritten, rfl, hgroup⟩ := hrun hcs hnil
    obtain ⟨groups', group', hwritten', rfl, hgroup'⟩ := hrun hds hnil'
    rw [hwritten.finish hgroup, hwritten'.finish hgroup'] at h
    obtain ⟨hsent, hlast⟩ := append_inj' h rfl
    have hpart : ∀ {gs : List (List (LetterChange CStr))} {g : List (LetterChange CStr)},
        Legible (gs.flatten ++ g) → (∀ g' ∈ gs, Legible g') ∧ Legible g := fun hall =>
      ⟨fun g' hg => hall.sublist ((sublist_flatten_of_mem hg).trans
        (sublist_append_left ..)), hall.sublist (sublist_append_right ..)⟩
    obtain ⟨hcsents, hclast⟩ := hpart hcs
    obtain ⟨hdsents, hdlast⟩ := hpart hds
    have hsents := hwritten.sent
    rw [hsent] at hsents
    have hgroups := groups_inj hheader hsents hwritten'.sent hcsents hdsents
    obtain ⟨header, hmem, hbuf⟩ := hwritten.modebuf
    obtain ⟨header', hmem', hbuf'⟩ := hwritten'.modebuf
    rw [hbuf, hbuf'] at hlast
    obtain ⟨hshape, hrest⟩ :=
      line_inj hheader hmem hmem' hclast hdlast (List.singleton_inj.mp hlast)
    have hlen : (paramsOf group).length = (paramsOf group').length := by
      rw [length_paramsOf hclast.signed, length_paramsOf hdlast.signed, hshape]
    have hwords : words (paramsOf group) = words (paramsOf group') := by
      by_cases hparams : paramsOf group = []
      · rw [hparams] at hlen
        rw [hparams, List.length_eq_zero_iff.mp hlen.symm]
      · have hparams' : paramsOf group' ≠ [] := fun hnone => by
          rw [hnone] at hlen
          exact hparams (List.length_eq_zero_iff.mp hlen)
        rw [← dropLast_append_getLast? _ (getLast?_words hparams), hrest,
          dropLast_append_getLast? _ (getLast?_words hparams')]
    rw [hgroups, hclast.eq_of_words hdlast hshape hwords]

end CapLoop

namespace ModeSource

variable {src : ModeSource} {changes changes' : List ShownChange}

theorem cancels_headers (hsrc : src.server = true → ' ' ∉ src.me ∧ ' ' ∉ src.name) :
    Cancels src.firstHeader src.nextHeader := by
  intro h hh h' hh' r r' heq
  cases hserver : src.server with
  | false =>
    have hsame : src.firstHeader = src.nextHeader := by
      rw [firstHeader, nextHeader, hserver]
      rfl
    rw [hsame, mem_pair, or_self] at hh hh'
    rw [hh, hh'] at heq
    exact append_cancel_left heq
  | true =>
    obtain ⟨hme, hname⟩ := hsrc hserver
    have hform : ∀ g ∈ [src.firstHeader, src.nextHeader], ∃ x : CStr, ' ' ∉ x ∧ ∀ r,
        g ++ r = ':' :: (x ++ ' ' :: ("MODE ".toList ++ src.chname ++ [' '] ++ r)) := by
      intro g hg
      rw [mem_pair, firstHeader, nextHeader, if_pos hserver, if_pos hserver] at hg
      rcases hg with rfl | rfl
      · split
        · exact ⟨src.me, hme, fun r => by simp⟩
        · exact ⟨src.name, hname, fun r => by simp⟩
      · exact ⟨src.me, hme, fun r => by simp⟩
    obtain ⟨x, hx, hxr⟩ := hform h hh
    obtain ⟨y, hy, hyr⟩ := hform h' hh'
    rw [hxr, hyr] at heq
    exact append_cancel_left (append_blank_inj hx hy (List.cons.inj heq).2).2

theorem sendModeChanges_eq (combos : List (Nat × Nat)) (changes : List ShownChange) :
    (src.sendModeChanges combos changes).1 =
      ((letters changes).foldl (CapLoop.next src.flush) { modebuf := src.firstHeader }).finish := by
  unfold sendModeChanges
  split
  · rename_i hempty
    rw [List.isEmpty_iff.mp hempty]
    rfl
  · rw [foldl_step]

theorem delivered_iff (hsrc : src.server = true → ' ' ∉ src.me ∧ ' ' ∉ src.name) {cl : Clients}
    {ms : Membership} (hlive : (cl ms.client).isDefunct = false) (combos : List (Nat × Nat))
    (h : Legible (letters changes)) (h' : Legible (letters changes')) :
    src.delivered cl combos changes ms = src.delivered cl combos changes' ms ↔
      letters changes = letters changes' := by
  have hall : ∀ cs, src.delivered cl combos cs ms = (src.sendModeChanges combos cs).1 := by
    intro cs
    unfold delivered sendtoChannelLocal
    rw [if_neg (fun hnot => hnot.1 rfl), hlive]
    rfl
  rw [hall, hall, sendModeChanges_eq, sendModeChanges_eq]
  constructor
  · exact CapLoop.run_inj flushes_flush (fun header hmem => (header_local hmem).2)
      (cancels_headers hsrc) h h'
  · intro hsame
    rw [hsame]

end ModeSource

/-! ### The changes of a line -/

namespace ModeState

variable {env : ModeEnv} {st st' : ModeState} {arg : Option CStr} {c : Char}

/-- A change that a letter records: it has a parameter when the letter takes one. -/
structure Entry (env : ModeEnv) (c : Char) (change : ModeChange) : Prop where
  letter : change.letter = c
  dir : change.dir ≠ .query
  takes : decide (change.arg ≠ .none) = modeTakes change.dir c
  text : ∀ t, change.arg = .text t → t = ['*'] ∨ ∃ who, t = (env.dir.clients who).name
  key : change.arg = .key → c = 'k' ∧ change.dir = .add
  mems : env.cf.channel.useExcept = true → env.cf.channel.useInvex = true →
    change.mems = .allMembers ∨ change.mems = .onlyChanops

/-- A mask or a limit is written back to where it came from. -/
def WritesBack (st st' : ModeState) (change : ModeChange) : Prop :=
  ∀ i, change.arg = .param i →
    i = st.parn ∧ st'.parn = st.parn + 1 ∧ ∃ text, st'.back = some text ∧ ' ' ∉ text

/-- What a letter does to the changes. A `+k` drops the one before it. -/
inductive Records (env : ModeEnv) (st : ModeState) (c : Char) (st' : ModeState) : Prop where
  | none (h : st'.modeChanges = st.modeChanges)
  | push {change : ModeChange} (h : st'.modeChanges = st.modeChanges ++ [change])
    (hentry : Entry env c change) (hback : WritesBack st st' change)
    (hkey : ¬(c = 'k' ∧ change.dir = .add))
  | replace {change : ModeChange}
    (h : st'.modeChanges = (st.dropEarlier c).modeChanges ++ [change])
    (hentry : Entry env c change) (hback : WritesBack st st' change)

theorem records_answer (err : SmErr) (reply : List ModeReply) :
    Records env st c (st.answer err reply) := by
  refine .none ?_
  unfold answer
  split <;> rfl

theorem records_refuse : Records env st c (st.refuse env) := records_answer ..

theorem records_limited {next : ModeState → ModeState}
    (hnext : ∀ limit, Records env st c (next { st with modeLimit := limit })) :
    Records env st c (st.limited env next) := by
  unfold limited
  split
  · dsimp only
    split
    · exact .none rfl
    · exact hnext _
  · exact hnext st.modeLimit

theorem blank_notMem_nuhText {n : Nat} {mask : CStr} (hmask : ' ' ∉ mask) :
    ' ' ∉ nuhText (splitNuh n mask).1 (splitNuh n mask).2.1 (splitNuh n mask).2.2 := by
  intro hmem
  rcases mem_nuhText_splitNuh hmem with h | h | h | h
  · exact hmask h
  · cases h
  · cases h
  · cases h

theorem blank_notMem_checkString (s : CStr) : ' ' ∉ checkString s := by
  unfold checkString
  split
  · decide
  · intro hmem
    have hnot := mem_takeWhile_imp hmem
    exact absurd hnot (by decide)

theorem blank_notMem_addId {cf : Config} {now : Int} {source : Client} {chptr : Channel}
    {mask : CStr} {type : BanType} (hok : (addId cf now source chptr mask type).ok = true) :
    ' ' ∉ (addId cf now source chptr mask type).banid := by
  rw [banid_addId]
  unfold addText
  split
  · rename_i hfull
    unfold addId at hok
    rw [if_pos hfull] at hok
    cases hok
  · exact blank_notMem_nuhText (blank_notMem_checkString _)

theorem blank_notMem_delText (cf : Config) (mask : CStr) : ' ' ∉ delText cf mask :=
  blank_notMem_nuhText (blank_notMem_checkString _)

theorem records_setMask (hdir : st.dir ≠ .query) (hc : c ∈ ['I', 'b', 'e']) (type : BanType)
    (caps : Nat) {mems : Mems} (hmems : env.cf.channel.useExcept = true →
      env.cf.channel.useInvex = true → mems = .allMembers ∨ mems = .onlyChanops)
    (mask : CStr) (limit : Nat) :
    Records env st c ({ st with modeLimit := limit }.setMask env type caps mems c mask) := by
  have htakes : ∀ dir : ModeDir, dir ≠ .query → modeTakes dir c = true := by
    intro dir hne
    simp only [mem_cons, not_mem_nil, or_false] at hc
    rcases hc with rfl | rfl | rfl <;> simp [modeTakes, hne]
  have hnotkey : ¬c = 'k' := by
    rintro rfl
    exact absurd hc (by decide)
  have hentry : ∀ {dir : ModeDir}, dir ≠ .query →
      Entry env c ⟨c, dir, .param st.parn, none, caps, 0, mems⟩ := fun hne =>
    ⟨rfl, hne, by simp [htakes _ hne], by simp, by simp, hmems⟩
  unfold setMask
  dsimp only
  split
  · exact .none rfl
  · cases hd : st.dir with
    | query => exact absurd hd hdir
    | add =>
      dsimp only
      split
      · rename_i hok
        refine .push rfl (hentry (by simp)) ?_ fun h => hnotkey h.1
        rintro i ⟨⟩
        exact ⟨rfl, rfl, _, rfl, blank_notMem_addId hok⟩
      · exact .none rfl
    | del =>
      dsimp only
      split
      · refine .push rfl (hentry (by simp)) ?_ fun h => hnotkey h.1
        rintro i ⟨⟩
        exact ⟨rfl, rfl, delText env.cf mask, rfl, blank_notMem_delText env.cf mask⟩
      · exact .none rfl

theorem records_chmBan : Records env st 'b' (st.chmBan env arg 'b') := by
  unfold chmBan
  split
  · exact records_answer ..
  · rename_i mask harg
    have hdir : st.dir ≠ .query := by
      intro hquery
      rw [if_pos hquery] at harg
      cases harg
    split
    · exact records_refuse
    · exact records_limited fun limit =>
        records_setMask hdir (by decide) .ban 0 (fun _ _ => .inl rfl) mask limit

theorem records_chmListed (hc : c ∈ ['I', 'b', 'e']) (type : BanType) {enabled : Bool}
    (henabled : env.cf.channel.useExcept = true → env.cf.channel.useInvex = true →
      enabled = true) (err : SmErr) (caps : Nat) :
    Records env st c (st.chmListed env type enabled err caps arg c) := by
  unfold chmListed
  split
  · exact records_answer ..
  · split
    · exact records_refuse
    · split
      · exact records_answer ..
      · rename_i mask harg
        have hdir : st.dir ≠ .query := by
          intro hquery
          rw [if_pos hquery] at harg
          cases harg
        refine records_limited fun limit => records_setMask hdir hc type caps ?_ mask limit
        intro hexcept hinvex
        rw [henabled hexcept hinvex]
        exact .inr rfl

theorem records_chmStatus (hc : c ∈ ['h', 'o', 'v']) (need : ChAccess) (flag : ChFlag)
    (undeop : Finset ChFlag) : Records env st c (st.chmStatus env need flag undeop arg c) := by
  have htakes : ∀ dir : ModeDir, dir ≠ .query → modeTakes dir c = true := by
    intro dir hne
    simp only [mem_cons, not_mem_nil, or_false] at hc
    rcases hc with rfl | rfl | rfl <;> simp [modeTakes, hne]
  have hnotkey : ¬c = 'k' := by
    rintro rfl
    exact absurd hc (by decide)
  unfold chmStatus
  split
  · exact records_refuse
  · split
    · exact .none rfl
    · rename_i opnick harg
      have hdir : st.dir ≠ .query := by
        intro hquery
        rw [if_pos hquery] at harg
        cases harg
      dsimp only
      split
      · exact .none rfl
      · rename_i targ htarg
        split
        · exact .none rfl
        · split
          · exact .none (by unfold answer; split <;> rfl)
          · have hpush : ∀ limit, Records env st c
                ((({ st with parn := st.parn + 1, modeLimit := limit } : ModeState).push
                  { letter := c, dir := st.dir, arg := .text (env.dir.clients targ).name,
                    id := some (env.dir.clients targ).id }).setFlags targ fun flags =>
                      if st.dir = .add then insert flag (flags \ undeop)
                      else flags.erase flag) := by
              intro limit
              refine .push rfl ⟨rfl, hdir, ?_, ?_, by simp, fun _ _ => .inl rfl⟩
                (by simp [WritesBack]) fun h => hnotkey h.1
              · simp [htakes _ hdir]
              · rintro t ⟨⟩
                exact .inr ⟨targ, rfl⟩
            unfold limited
            split
            · dsimp only
              split
              · exact .none rfl
              · split
                · exact .none rfl
                · exact hpush _
            · dsimp only
              split
              · exact .none rfl
              · exact hpush st.modeLimit

theorem blank_notMem_dText (v : Int) : ' ' ∉ dText v := by
  have hblank : isDigit ' ' ≠ true := by decide
  unfold dText
  split
  · decide
  · split
    · rw [mem_cons, not_or]
      exact ⟨by decide, fun hmem => hblank (isDigit_dropWhile hmem)⟩
    · exact fun hmem => hblank (isDigit_dropWhile hmem)

theorem records_chmLimit : Records env st 'l' (st.chmLimit env arg 'l') := by
  unfold chmLimit
  split
  · exact records_refuse
  · split
    · rename_i lstr hdir
      dsimp only
      split
      · exact .none rfl
      · refine .replace rfl ⟨rfl, by simp, by simp [modeTakes], by simp, by simp,
          fun _ _ => .inl rfl⟩ ?_
        rintro i ⟨⟩
        exact ⟨rfl, rfl, _, rfl, blank_notMem_dText _⟩
    · split
      · exact .none rfl
      · exact .push rfl ⟨rfl, by simp, by simp [modeTakes], by simp, by simp,
          fun _ _ => .inl rfl⟩ (by simp [WritesBack]) (by decide)
    · exact .none rfl

theorem records_chmKey : Records env st 'k' (st.chmKey env arg 'k') := by
  unfold chmKey
  split
  · exact records_refuse
  · split
    · rename_i word hdir
      dsimp only
      generalize (if env.mine = true then fixKey word else fixKeyOld word) = key
      split
      · exact .none rfl
      · exact .replace rfl ⟨rfl, by simp, by simp [modeTakes], by simp, fun _ => ⟨rfl, rfl⟩,
          fun _ _ => .inl rfl⟩ (by simp [WritesBack])
    · rename_i param _ _ _
      have hdel : ∀ st₁ : ModeState, st₁.modeChanges = st.modeChanges → Records env st 'k'
          (if st₁.chptr.mode.key = [] then st₁
            else ({ st₁ with chptr := { st₁.chptr with
              mode := { st₁.chptr.mode with key := [] } } } : ModeState).push
                { letter := 'k', dir := .del, arg := .text ['*'] }) := by
        intro st₁ hchanges
        split
        · exact .none hchanges
        · have hentry : Entry env 'k' { letter := 'k', dir := .del, arg := .text ['*'] } :=
            ⟨rfl, by simp, by simp [modeTakes], fun t h => .inl (by cases h; rfl), by simp,
              fun _ _ => .inl rfl⟩
          exact .push (congrArg (· ++ [_]) hchanges) hentry (by simp [WritesBack]) (by simp)
      cases param with
      | none => exact hdel st rfl
      | some key => exact hdel { st with parn := st.parn + 1 } rfl
    · exact .none rfl

theorem records_chmSimple {mode : SimpleMode} (hc : simpleModeOf c = some mode) :
    Records env st c (st.chmSimple env mode c) := by
  have hletter : mode.letter = c := by
    have hfound := find?_some hc
    simpa using hfound
  have htakes : ∀ dir, modeTakes dir c = false := by
    intro dir
    rw [← hletter]
    cases mode <;> simp [modeTakes, SimpleMode.letter]
  have hentry : ∀ {dir : ModeDir}, dir ≠ .query →
      Entry env c { letter := c, dir := dir } := fun hne =>
    ⟨rfl, hne, by simp [htakes], by simp, by simp, fun _ _ => .inl rfl⟩
  have hnotkey : ¬c = 'k' := by
    rintro rfl
    cases mode <;> exact absurd hletter (by decide)
  unfold chmSimple
  split
  · exact records_refuse
  · split
    · exact .none rfl
    · dsimp only
      split
      · exact .push rfl (hentry (by simp)) (by simp [WritesBack]) fun h => hnotkey h.1
      · exact .push rfl (hentry (by simp)) (by simp [WritesBack]) fun h => hnotkey h.1
      · exact .none rfl

theorem records_chmLetter : Records env st c (st.chmLetter env arg c) := by
  unfold chmLetter
  split
  · exact records_chmListed (by decide) .invex (fun _ h => h) .rplI CAP_IE
  · exact records_chmBan
  · exact records_chmListed (by decide) .exception (fun h _ => h) .rplE CAP_EX
  · exact records_chmStatus (by decide) _ _ _
  · exact records_chmKey
  · exact records_chmLimit
  · exact records_chmStatus (by decide) _ _ _
  · exact records_chmStatus (by decide) _ _ _
  · split
    · rename_i mode hmode
      exact records_chmSimple hmode
    · exact records_answer ..

/-! ### The changes of a whole line -/

/-- Every change that was not dropped is of a letter that is neither a sign nor a blank, and
there is one `+k` at most. -/
structure Recorded (env : ModeEnv) (st : ModeState) : Prop where
  entry : ∀ change ∈ st.modeChanges, change.letter ≠ '\x00' →
    change.letter ≠ ' ' ∧ signDir change.letter = none ∧ Entry env change.letter change
  key : st.modeChanges.countP (fun change => change.letter == 'k' && change.dir == .add) ≤ 1

theorem Recorded.of_same (h : Recorded env st) (hsame : st'.modeChanges = st.modeChanges) :
    Recorded env st' where
  entry := by
    rw [hsame]
    exact h.entry
  key := by
    rw [hsame]
    exact h.key

theorem countP_dropEarlier (c : Char) :
    (st.dropEarlier c).modeChanges.countP (fun change => change.letter == 'k' && change.dir == .add)
      ≤ if c = 'k' then 0
        else st.modeChanges.countP fun change => change.letter == 'k' && change.dir == .add := by
  have hkept : ∀ change : ModeChange,
      ((if change.letter = c ∧ change.dir = .add then { change with letter := '\x00' }
        else change).letter == 'k' &&
          (if change.letter = c ∧ change.dir = .add then { change with letter := '\x00' }
            else change).dir == .add) = true →
      c ≠ 'k' ∧ (change.letter == 'k' && change.dir == .add) = true := by
    intro change hkey
    split at hkey
    · simp at hkey
    · rename_i hnot
      rw [Bool.and_eq_true, beq_iff_eq, beq_iff_eq] at hkey
      refine ⟨fun hc => hnot ⟨hkey.1.trans hc.symm, hkey.2⟩, ?_⟩
      rw [Bool.and_eq_true, beq_iff_eq, beq_iff_eq]
      exact hkey
  unfold dropEarlier
  dsimp only
  rw [countP_map]
  split
  · rename_i hc
    rw [Nat.le_zero, countP_eq_zero]
    intro change _ hkey
    exact (hkept change hkey).1 hc
  · exact countP_mono_left fun change _ hkey => (hkept change hkey).2

theorem Recorded.records (h : Recorded env st) (hc : signDir c = none) (hblank : c ≠ ' ')
    (hrecords : Records env st c st') : Recorded env st' := by
  cases hrecords with
  | none hsame => exact h.of_same hsame
  | @push change hchanges hentry _ hkey =>
    obtain rfl := hentry.letter
    constructor
    · intro d hd hne
      rw [hchanges, mem_append, mem_singleton] at hd
      rcases hd with hd | rfl
      · exact h.entry d hd hne
      · exact ⟨hblank, hc, hentry⟩
    · have hnot : ¬(change.letter == 'k' && change.dir == .add) = true := by
        rw [Bool.and_eq_true, beq_iff_eq, beq_iff_eq]
        exact hkey
      rw [hchanges, countP_append, countP_singleton, if_neg hnot]
      exact h.key
  | @replace change hchanges hentry _ =>
    obtain rfl := hentry.letter
    constructor
    · intro d hd hne
      rw [hchanges, mem_append, mem_singleton] at hd
      rcases hd with hd | rfl
      · obtain ⟨e, he, rfl⟩ := List.mem_map.mp hd
        split at hne
        · exact absurd rfl hne
        · rename_i hnot
          rw [if_neg hnot]
          exact h.entry e he hne
      · exact ⟨hblank, hc, hentry⟩
    · have hdrop := st.countP_dropEarlier change.letter
      have hkey := h.key
      rw [hchanges, countP_append, countP_singleton]
      by_cases hk : change.letter = 'k'
      · rw [if_pos hk] at hdrop
        split <;> omega
      · rw [if_neg hk] at hdrop
        simp only [beq_eq_false_iff_ne.mpr hk, Bool.false_and, Bool.false_eq_true, if_false]
        omega

theorem Recorded.modeStep (h : Recorded env st) : Recorded env (st.modeStep env arg c) := by
  have hclear : Recorded env { st with back := none } := ⟨h.entry, h.key⟩
  unfold ModeState.modeStep
  split
  · exact ⟨h.entry, h.key⟩
  · rename_i hc
    by_cases hblank : c = ' '
    · subst hblank
      have hsame : (({ st with back := none } : ModeState).chmNosuch ' ').modeChanges =
          st.modeChanges := by
        unfold chmNosuch answer
        split <;> rfl
      exact hclear.of_same hsame
    · exact hclear.records hc hblank records_chmLetter

theorem recorded_foldl {σ : Type} (P : ParamStore σ) {s : σ × ModeState} (h : Recorded env s.2)
    (modes : CStr) : Recorded env (modes.foldl (P.step env) s).2 := by
  induction modes generalizing s with
  | nil => exact h
  | cons c modes ih => exact ih h.modeStep

/-- What was written back over a parameter stays there. -/
def Kept (s : List CStr × ModeState) : Prop :=
  ∀ change ∈ s.2.modeChanges, ∀ i, change.arg = .param i → i < s.2.parn ∧ ' ' ∉ s.1.getD i []

theorem kept_step {s : List CStr × ModeState} (h : Kept s) : Kept (textStore.step env s c) := by
  cases hsign : signDir c with
  | some dir =>
    rw [ParamStore.step_sign hsign]
    exact h
  | none =>
    have hparn : s.2.parn ≤ (textStore.step env s c).2.parn := by
      rw [(ParamStore.step_letter textStore env s hsign).2]
      split <;> omega
    have hrecords : Records env { s.2 with back := none } c (textStore.step env s c).2 := by
      have hletter : (textStore.step env s c).2 =
          ({ s.2 with back := none } : ModeState).chmLetter env (textStore.next env s) c := by
        simp [ParamStore.step, modeStep, hsign]
      rw [hletter]
      exact records_chmLetter
    -- the parameter that is written over is the next one
    have hother : ∀ i < s.2.parn, (textStore.step env s c).1.getD i [] = s.1.getD i [] := by
      intro i hi
      unfold ParamStore.step
      dsimp only
      split
      · rfl
      · rw [getD_eq_getElem?_getD, getD_eq_getElem?_getD]
        exact congrArg (Option.getD · []) (getElem?_set_ne (Nat.ne_of_gt hi))
    have hold : ∀ change ∈ s.2.modeChanges, ∀ i, change.arg = .param i →
        i < (textStore.step env s c).2.parn ∧ ' ' ∉ (textStore.step env s c).1.getD i [] := by
      intro change hmem i hi
      obtain ⟨hlt, hfree⟩ := h change hmem i hi
      rw [hother i hlt]
      exact ⟨lt_of_lt_of_le hlt hparn, hfree⟩
    have hnew : ∀ change, WritesBack { s.2 with back := none } (textStore.step env s c).2 change →
        ∀ i, change.arg = .param i →
        i < (textStore.step env s c).2.parn ∧ ' ' ∉ (textStore.step env s c).1.getD i [] := by
      intro change hback i hi
      obtain ⟨rfl, hnext, text, htext, hfree⟩ := hback i hi
      refine ⟨by rw [hnext]; exact Nat.lt_succ_self _, ?_⟩
      have hwrite : (textStore.step env s c).1 = s.1.set s.2.parn text := by
        unfold ParamStore.step at htext ⊢
        dsimp only at htext ⊢
        rw [htext]
        rfl
      rw [hwrite, getD_eq_getElem?_getD, getElem?_set_self']
      cases s.1[s.2.parn]? with
      | none => exact not_mem_nil
      | some _ => exact hfree
    cases hrecords with
    | none hsame =>
      unfold Kept
      rw [hsame]
      exact hold
    | push hchanges _ hback _ =>
      intro d hd i hi
      rw [hchanges, mem_append, mem_singleton] at hd
      rcases hd with hd | rfl
      · exact hold d hd i hi
      · exact hnew d hback i hi
    | replace hchanges _ hback =>
      intro d hd i hi
      rw [hchanges, mem_append, mem_singleton] at hd
      rcases hd with hd | rfl
      · obtain ⟨e, he, rfl⟩ := List.mem_map.mp hd
        refine hold e he i ?_
        split at hi <;> exact hi
      · exact hnew d hback i hi

theorem kept_foldl {s : List CStr × ModeState} (h : Kept s) (modes : CStr) :
    Kept (modes.foldl (textStore.step env) s) := by
  induction modes generalizing s with
  | nil => exact h
  | cons c modes ih => exact ih (kept_step h)

theorem Recorded.legible (h : Recorded env st) (hnames : ∀ who, ' ' ∉ (env.dir.clients who).name)
    {read : Nat → CStr} (key : CStr) (hread : ∀ change ∈ st.modeChanges, ∀ i,
      change.arg = .param i → ' ' ∉ read i) :
    Legible (((st.modeChanges.map (ModeChange.shown read key)).filter fun c =>
      c.letter != '\x00').map fun c => ⟨c.dir, c.letter, c.arg⟩) := by
  have hmade : ∀ c ∈ ((st.modeChanges.map (ModeChange.shown read key)).filter fun c =>
      c.letter != '\x00').map (fun c => (⟨c.dir, c.letter, c.arg⟩ : LetterChange CStr)),
      ∃ change ∈ st.modeChanges, c.letter ≠ ' ' ∧ signDir c.letter = none ∧
        Entry env c.letter change ∧
          c = ⟨change.dir, change.letter, (change.shown read key).arg⟩ := by
    intro c hc
    obtain ⟨shown, hshown, rfl⟩ := List.mem_map.mp hc
    obtain ⟨hmem, hne⟩ := List.mem_filter.mp hshown
    obtain ⟨change, hchange, rfl⟩ := List.mem_map.mp hmem
    obtain ⟨hblank, hsign, hentry⟩ := h.entry change hchange (bne_iff_ne.mp hne)
    exact ⟨change, hchange, hblank, hsign, hentry, rfl⟩
  refine ⟨fun c hc => ?_, ⟨fun c hc => ?_, fun c hc => ?_⟩, fun c hc => ?_, fun c hc => ?_, ?_⟩
  · obtain ⟨change, -, -, -, hentry, rfl⟩ := hmade c hc
    exact hentry.dir
  · obtain ⟨-, -, -, hsign, -⟩ := hmade c hc
    exact hsign
  · obtain ⟨change, -, -, -, hentry, rfl⟩ := hmade c hc
    rw [← hentry.takes]
    unfold ModeChange.shown
    cases change.arg <;> rfl
  · obtain ⟨-, -, hblank, -⟩ := hmade c hc
    exact hblank
  · obtain ⟨change, hchange, -, -, hentry, rfl⟩ := hmade c hc
    cases harg : change.arg with
    | key => exact .inl (hentry.key harg)
    | none =>
      refine .inr fun arg hmem => ?_
      simp [ModeChange.shown, harg] at hmem
    | text t =>
      refine .inr fun arg hmem => ?_
      obtain rfl : t = arg := by simpa [ModeChange.shown, harg] using hmem
      rcases hentry.text t harg with rfl | ⟨who, rfl⟩
      · decide
      · exact hnames who
    | param i =>
      refine .inr fun arg hmem => ?_
      obtain rfl : read i = arg := by simpa [ModeChange.shown, harg] using hmem
      exact hread change hchange i harg
  · rw [countP_map]
    refine ((filter_sublist).countP_le).trans ?_
    rw [countP_map]
    exact h.key

end ModeState

/-! ### Two lines on a channel -/

section

variable {σ : Type} {parv : List CStr} (L : TokenLine σ parv) (env : ModeEnv) (chptr : Channel)

/-- The changes that a line makes, those of the exceptions among them. -/
def TokenLine.made : List (LetterChange CStr) :=
  ((L.changes env chptr).filter fun c => c.letter != '\x00').map fun c => ⟨c.dir, c.letter, c.arg⟩

/-- The masks and limits of the changes were not written over. -/
def TokenLine.Separate : Prop :=
  ∀ change ∈ (L.run env chptr).2.modeChanges, ∀ i, change.arg = .param i →
    ' ' ∉ L.read (L.run env chptr).1 i

theorem separate_textLine : (textLine parv).Separate env chptr := by
  have hstart : ModeState.Kept (parv, { chptr := chptr }) := fun _ h => absurd h not_mem_nil
  have hkept : ModeState.Kept ((textLine parv).run env chptr) :=
    ModeState.kept_foldl hstart (parv.getD 0 [])
  exact fun change hchange i hi => (hkept change hchange i hi).2

theorem TokenLine.recorded :
    ModeState.Recorded { env with parc := parv.length } (L.run env chptr).2 := by
  have hstart : ModeState.Recorded { env with parc := parv.length } { chptr := chptr } :=
    ⟨fun _ h => absurd h not_mem_nil, Nat.zero_le _⟩
  exact ModeState.recorded_foldl L.toParamStore (s := (L.line, { chptr := chptr })) hstart _

variable {L env chptr}

theorem TokenLine.letters_changes (hexcept : env.cf.channel.useExcept = true)
    (hinvex : env.cf.channel.useInvex = true) :
    ModeSource.letters (L.changes env chptr) = L.made env chptr := by
  unfold ModeSource.letters TokenLine.made
  congr 1
  apply filter_congr
  intro c hc
  obtain ⟨change, hchange, rfl⟩ := List.mem_map.mp hc
  by_cases hnul : change.letter = '\x00'
  · simp [ModeSource.skips, ModeChange.shown, hnul]
  · obtain ⟨-, -, hentry⟩ := (L.recorded env chptr).entry change hchange hnul
    have hmems : (change.mems == .nonChanops) = false ∧ (change.mems == .onlyServers) = false := by
      rcases hentry.mems hexcept hinvex with h | h <;> rw [h] <;> exact ⟨rfl, rfl⟩
    simp [ModeSource.skips, ModeChange.shown, hmems.1, hmems.2, bne]

theorem TokenLine.legible_made (hnames : ∀ who, ' ' ∉ (env.dir.clients who).name)
    (h : L.Separate env chptr) : Legible (L.made env chptr) :=
  (L.recorded env chptr).legible hnames _ h

end

/-- The lines of two MODE commands on a channel are the same for a member, whatever it is on the
channel, just when both make the same changes, to the lists of the exceptions too. -/
theorem except_invex_shown_iff (src : ModeSource)
    (hsrc : src.server = true → ' ' ∉ src.me ∧ ' ' ∉ src.name) (cl : Clients) (ms : Membership)
    (hlive : (cl ms.client).isDefunct = false) (combos : List (Nat × Nat)) (env : ModeEnv)
    (hnames : ∀ who, ' ' ∉ (env.dir.clients who).name)
    (hexcept : env.cf.channel.useExcept = true) (hinvex : env.cf.channel.useInvex = true)
    (chptr : Channel) :
    (∀ (σ τ : Type) (parv parv' : List CStr) (L : TokenLine σ parv) (L' : TokenLine τ parv'),
        L.Separate env chptr → L'.Separate env chptr →
        (src.delivered cl combos (L.changes env chptr) ms =
            src.delivered cl combos (L'.changes env chptr) ms ↔
          L.made env chptr = L'.made env chptr)) ∧
      ∀ parv : List CStr, (textLine parv).Separate env chptr := by
  refine ⟨fun σ τ parv parv' L L' h h' => ?_, fun parv => separate_textLine env chptr⟩
  have hshown : ModeSource.letters (L.changes env chptr) = L.made env chptr :=
    TokenLine.letters_changes hexcept hinvex
  have hshown' : ModeSource.letters (L'.changes env chptr) = L'.made env chptr :=
    TokenLine.letters_changes hexcept hinvex
  have hlegible : Legible (ModeSource.letters (L.changes env chptr)) := by
    rw [hshown]
    exact TokenLine.legible_made hnames h
  have hlegible' : Legible (ModeSource.letters (L'.changes env chptr)) := by
    rw [hshown']
    exact TokenLine.legible_made hnames h'
  rw [ModeSource.delivered_iff hsrc hlive combos hlegible hlegible', hshown, hshown']

def exceptConfig : Config :=
  { roomyConfig with
    channel := { roomyConfig.channel with useExcept := true, useInvex := true } }

def exceptEnv : ModeEnv where
  cf := exceptConfig
  now := 0
  dir := serverDir
  client := 0
  source := 0
  alev := .chanop
  parc := 0

def plainMember : Membership := ⟨1, ∅, true⟩

theorem except_invex_shown_iff_mask :
    plainSource.delivered serverDir.clients []
        ((textLine ["+e".toList, "*!*@evil.host".toList]).changes exceptEnv default) plainMember ≠
      plainSource.delivered serverDir.clients []
        ((textLine ["+".toList]).changes exceptEnv default) plainMember := by
  have h := except_invex_shown_iff plainSource (by decide) serverDir.clients plainMember rfl []
    exceptEnv (fun _ => not_mem_nil) rfl rfl default
  intro hsame
  have hmade := (h.1 _ _ _ _ _ _ (h.2 _) (h.2 _)).mp hsame
  revert hmade
  decide +kernel

/-- A `+e` is told to a member that is no chanop. -/
theorem except_is_shown :
    ¬∀ (src : ModeSource) (cl : Clients) (ms : Membership) (combos : List (Nat × Nat))
      (env : ModeEnv) (chptr : Channel) (parv parv' : List CStr),
      env.cf.channel.useExcept = true → env.cf.channel.useInvex = true → .chanop ∉ ms.flags →
      otherLetters parv = otherLetters parv' →
      src.delivered cl combos ((textLine parv).changes env chptr) ms =
        src.delivered cl combos ((textLine parv').changes env chptr) ms := by
  intro h
  have hsame := h plainSource serverDir.clients plainMember [] exceptEnv default
    ["+e".toList, "*!*@evil.host".toList] ["+".toList] rfl rfl (by decide) (by decide)
  revert hsame
  decide +kernel

end Ircd
