import Ircd.Resolver
import Ircd.Lib.Run
import Mathlib.Data.List.Find
import Mathlib.Data.List.Nodup

/-!
Each query of the resolver gets one answer.

`Ledger` is what the answers depend on: which request stands for which query, and the log.
On it every operation of the resolver is one of five (`issue`, `make`, `rem`, `delete`,
`called`), and `Ledger.Inv` says that the requests on the list stand for the queries whose
callback is owed. A reply or a timeout breaks that if a request is dropped without its
callback, or if a callback deletes a request that is still used (`dns_answers_once_iff`).
-/

namespace Ircd

open List

/-! ### What should hold -/

/-- The callback of a query was not called, and the query was not deleted. -/
def Resolver.Owed (s : Resolver) (q : Nat) : Prop := ∀ e ∈ s.log, e.query ≠ q

/-- The requests on the list stand for the queries whose callback is owed, one for each; a
callback was called only while it was owed; and no request was used after it was freed. -/
structure AnswersOnce (s : Resolver) : Prop where
  unfreed : s.freed = false
  once : (s.requests.map fun p => p.2.query).Nodup
  owed_iff : ∀ q < s.queries, (∃ p ∈ s.requests, p.2.query = q) ↔ s.Owed q
  calledOwed : s.log.Pairwise fun e f => ∀ q reply, f = .called q reply → e.query ≠ q

/-- A reply drops the request without its callback: it is no error, its answers are not
taken, and the request was never sent. -/
def LosesQuery (p : DnsPacket) (request : Reslist) : Prop :=
  p.rcode = 0 ∧ p.ancount ≠ 0 ∧ (p.answer request).1 = false ∧ request.sent = 0

/-- A reply calls the callback: it is an error after which nothing else is tried, or its
answers are taken and there is no name to look up. -/
def CallsBack (p : DnsPacket) (request : Reslist) : Prop :=
  if p.rcode ≠ 0 ∨ p.ancount = 0 then
    p.rcode ≠ SERVFAIL ∧ ¬(request.state = .aaaa ∧ request.type = T_AAAA) ∧
      ¬(request.type = T_PTR ∧ request.state ≠ .int ∧ request.addr.family = .inet6)
  else
    (p.answer request).1 = true ∧ (request.type = T_PTR → (p.answer request).2.name = none)

/-- The queries that a callback deletes. -/
def deletedBy (does : List ResolverCall) : List Nat :=
  does.filterMap fun
    | .delete q => some q
    | _ => none

/-- No callback that a timeout calls deletes its own query, or the one of the request behind;
`gone` are the queries that were deleted by callbacks before. -/
def WalkKeeps (env : TimeoutEnv) (now : Nat) : List (Nat × Reslist) → List Nat → Prop
  | [], _ => True
  | (n, request) :: behind, gone =>
    if request.query ∈ gone then WalkKeeps env now behind gone
    else if request.givesUp now then
      request.query ∉ deletedBy (env.does n) ∧
        (∀ next, behind.find? (·.2.query ∉ gone) = some next →
          next.2.query ∉ deletedBy (env.does n)) ∧
        WalkKeeps env now behind (gone ++ deletedBy (env.does n))
    else WalkKeeps env now behind gone

def KeepsAnswers (s : Resolver) : ResolverOp → Prop
  | .reply p does =>
    ∀ n request, s.repliedTo p = some (n, request) →
      ¬LosesQuery p request ∧ (CallsBack p request → request.query ∉ deletedBy does)
  | .timeout env => WalkKeeps env s.now s.requests []
  | _ => True

/-! ### The ledger -/

/-- The numbers of the requests on the list with their queries, how many requests and queries
there were, the log, and whether a request was used after it was freed. -/
structure Ledger where
  keys : List (Nat × Nat)
  made : Nat
  queries : Nat
  log : List DnsEvent
  freed : Bool

def Resolver.ledger (s : Resolver) : Ledger :=
  ⟨s.requests.map fun p => (p.1, p.2.query), s.made, s.queries, s.log, s.freed⟩

namespace Ledger

def make (l : Ledger) (q : Nat) : Ledger :=
  { l with keys := (l.made, q) :: l.keys, made := l.made + 1 }

def issue (l : Ledger) : Ledger := { l with queries := l.queries + 1 }.make l.queries

def rem (l : Ledger) (n : Nat) : Ledger :=
  if n ∈ l.keys.map Prod.fst then { l with keys := l.keys.filter (·.1 ≠ n) }
  else { l with freed := true }

def delete (l : Ledger) (q : Nat) : Ledger :=
  { l with keys := l.keys.filter (·.2 ≠ q)
           log := if q < l.queries then l.log ++ [.deleted q] else l.log }

def called (l : Ledger) (q : Nat) (reply : Option DnsReply) : Ledger :=
  { l with log := l.log ++ [.called q reply] }

def call (l : Ledger) : ResolverCall → Ledger
  | .delete q => l.delete q
  | _ => l.issue

/-- The callback of a query is owed. -/
def Owed (l : Ledger) (q : Nat) : Prop := ∀ e ∈ l.log, e.query ≠ q

/-- The requests stand for the queries that are owed, and for one whose callback runs. -/
structure Inv (busy : Option Nat) (l : Ledger) : Prop where
  unfreed : l.freed = false
  numbersNodup : (l.keys.map Prod.fst).Nodup
  numbersLt : ∀ k ∈ l.keys, k.1 < l.made
  once : (l.keys.map Prod.snd).Nodup
  queriesLt : ∀ k ∈ l.keys, k.2 < l.queries
  owed_iff : ∀ q < l.queries, q ∈ l.keys.map Prod.snd ↔ l.Owed q ∨ busy = some q
  busyCalled : ∀ q, busy = some q → ¬l.Owed q
  logLt : ∀ e ∈ l.log, e.query < l.queries
  calledOwed : l.log.Pairwise fun e f => ∀ q reply, f = .called q reply → e.query ≠ q

variable {busy : Option Nat} {l : Ledger} {n q : Nat}

theorem owed_concat {log : List DnsEvent} {e : DnsEvent} :
    (∀ f ∈ log ++ [e], f.query ≠ q) ↔ (∀ f ∈ log, f.query ≠ q) ∧ e.query ≠ q := by
  simp [or_imp, forall_and]

theorem Inv.issue (h : Inv busy l) : Inv busy l.issue where
  unfreed := h.unfreed
  numbersNodup := by
    refine List.nodup_cons.mpr ⟨fun hmem => ?_, h.numbersNodup⟩
    obtain ⟨k, hk, hmade⟩ := List.mem_map.mp hmem
    exact absurd hmade (Nat.ne_of_lt (h.numbersLt k hk))
  numbersLt k hk := by
    obtain rfl | hk := List.mem_cons.mp hk
    · exact Nat.lt_succ_self _
    · exact Nat.lt_succ_of_lt (h.numbersLt k hk)
  once := by
    refine List.nodup_cons.mpr ⟨fun hmem => ?_, h.once⟩
    obtain ⟨k, hk, hquery⟩ := List.mem_map.mp hmem
    exact absurd hquery (Nat.ne_of_lt (h.queriesLt k hk))
  queriesLt k hk := by
    obtain rfl | hk := List.mem_cons.mp hk
    · exact Nat.lt_succ_self _
    · exact Nat.lt_succ_of_lt (h.queriesLt k hk)
  owed_iff q hq := by
    change q ∈ l.queries :: l.keys.map Prod.snd ↔ l.Owed q ∨ busy = some q
    rw [mem_cons]
    by_cases hnew : q = l.queries
    · refine iff_of_true (Or.inl hnew) (Or.inl fun e he => ?_)
      exact hnew ▸ Nat.ne_of_lt (h.logLt e he)
    · rw [or_iff_right hnew]
      exact h.owed_iff q (Nat.lt_of_le_of_ne (Nat.le_of_lt_succ hq) hnew)
  busyCalled := h.busyCalled
  logLt e he := Nat.lt_succ_of_lt (h.logLt e he)
  calledOwed := h.calledOwed

theorem nodup_filter {f : Nat × Nat → Nat} (p : Nat × Nat → Bool) {keys : List (Nat × Nat)}
    (h : (keys.map f).Nodup) : ((keys.filter p).map f).Nodup :=
  h.sublist (List.filter_sublist.map f)

theorem Inv.delete (h : Inv busy l) (hq : busy ≠ some q) : Inv busy (l.delete q) where
  unfreed := h.unfreed
  numbersNodup := nodup_filter _ h.numbersNodup
  numbersLt k hk := h.numbersLt k (mem_of_mem_filter hk)
  once := nodup_filter _ h.once
  queriesLt k hk := h.queriesLt k (mem_of_mem_filter hk)
  owed_iff r hr := by
    have hkeys : r ∈ (l.keys.filter (·.2 ≠ q)).map Prod.snd ↔ r ∈ l.keys.map Prod.snd ∧ r ≠ q := by
      simp only [mem_map, mem_filter, decide_eq_true_eq]
      constructor
      · rintro ⟨k, ⟨hk, hne⟩, rfl⟩
        exact ⟨⟨k, hk, rfl⟩, hne⟩
      · rintro ⟨⟨k, hk, rfl⟩, hne⟩
        exact ⟨k, ⟨hk, hne⟩, rfl⟩
    dsimp only [Ledger.delete, Owed] at hr ⊢
    rw [hkeys, h.owed_iff r hr]
    by_cases hlt : q < l.queries
    · rw [if_pos hlt, owed_concat]
      constructor
      · rintro ⟨howed | hbusy, hne⟩
        · exact Or.inl ⟨howed, Ne.symm hne⟩
        · exact Or.inr hbusy
      · rintro (⟨howed, hne⟩ | hbusy)
        · exact ⟨Or.inl howed, Ne.symm hne⟩
        · exact ⟨Or.inr hbusy, fun heq => hq (heq ▸ hbusy)⟩
    · rw [if_neg hlt]
      have hne : r ≠ q := fun heq => hlt (heq ▸ hr)
      exact and_iff_left hne
  busyCalled r hr howed := by
    apply h.busyCalled r hr
    dsimp only [Ledger.delete, Owed] at howed
    split at howed
    · exact (owed_concat.mp howed).1
    · exact howed
  logLt e he := by
    dsimp only [Ledger.delete] at he ⊢
    split at he
    · next hlt =>
        obtain he | he := List.mem_append.mp he
        · exact h.logLt e he
        · obtain rfl := List.mem_singleton.mp he
          exact hlt
    · exact h.logLt e he
  calledOwed := by
    dsimp only [Ledger.delete]
    split
    · refine List.pairwise_append.mpr ⟨h.calledOwed, pairwise_singleton _ _, ?_⟩
      intro e _ f hf r reply hcalled
      obtain rfl := List.mem_singleton.mp hf
      cases hcalled
    · exact h.calledOwed

theorem Inv.calls (h : Inv busy l) (does : List ResolverCall)
    (hdoes : ∀ q, busy = some q → q ∉ deletedBy does) : Inv busy (does.foldl call l) := by
  induction does generalizing l with
  | nil => exact h
  | cons c does ih =>
    cases c with
    | byName name type sending => exact ih h.issue hdoes
    | byAddr addr sending => exact ih h.issue hdoes
    | delete q =>
      refine ih (h.delete fun hbusy => ?_) fun r hr hmem => ?_
      · exact hdoes q hbusy mem_cons_self
      · exact hdoes r hr (mem_cons_of_mem q hmem)

theorem Inv.owed_of_key (h : Inv none l) (hmem : (n, q) ∈ l.keys) : l.Owed q := by
  have hq : q ∈ l.keys.map Prod.snd := mem_map_of_mem hmem
  exact ((h.owed_iff q (h.queriesLt _ hmem)).mp hq).resolve_right (by simp)

theorem Inv.called (h : Inv none l) (hmem : (n, q) ∈ l.keys) (reply : Option DnsReply) :
    Inv (some q) (l.called q reply) := by
  have hlt := h.queriesLt _ hmem
  have howed := h.owed_of_key hmem
  constructor
  · exact h.unfreed
  · exact h.numbersNodup
  · exact h.numbersLt
  · exact h.once
  · exact h.queriesLt
  · intro r hr
    refine (h.owed_iff r hr).trans ?_
    dsimp only [Owed, Ledger.called]
    rw [owed_concat]
    dsimp only [DnsEvent.query]
    by_cases hrq : r = q
    · subst hrq
      exact iff_of_true (Or.inl howed) (Or.inr rfl)
    · have hne : some q ≠ some r := fun heq => hrq (Option.some.inj heq).symm
      rw [or_iff_left (by simp), or_iff_left hne]
      exact (and_iff_left (Ne.symm hrq)).symm
  · intro r hr howed'
    obtain rfl := Option.some.inj hr
    exact (owed_concat.mp howed').2 rfl
  · intro e he
    obtain he | he := List.mem_append.mp he
    · exact h.logLt e he
    · obtain rfl := List.mem_singleton.mp he
      exact hlt
  · refine List.pairwise_append.mpr ⟨h.calledOwed, pairwise_singleton _ _, ?_⟩
    intro e he f hf r reply' hcalled
    obtain rfl := List.mem_singleton.mp hf
    cases hcalled
    exact howed e he

theorem Inv.key_unique (h : Inv busy l) {k k' : Nat × Nat} (hk : k ∈ l.keys) (hk' : k' ∈ l.keys)
    (heq : k.1 = k'.1 ∨ k.2 = k'.2) : k = k' := by
  obtain heq | heq := heq
  · exact inj_on_of_nodup_map h.numbersNodup hk hk' heq
  · exact inj_on_of_nodup_map h.once hk hk' heq

theorem rem_fields (l : Ledger) (n : Nat) :
    (l.rem n).queries = l.queries ∧ (l.rem n).log = l.log := by
  unfold rem
  split <;> exact ⟨rfl, rfl⟩

theorem mem_rem_iff (h : Inv busy l) (hmem : (n, q) ∈ l.keys) {r : Nat} :
    r ∈ (l.rem n).keys.map Prod.snd ↔ r ∈ l.keys.map Prod.snd ∧ r ≠ q := by
  have hn : n ∈ l.keys.map Prod.fst := mem_map_of_mem hmem
  rw [rem, if_pos hn]
  simp only [mem_map, mem_filter, decide_eq_true_eq]
  constructor
  · rintro ⟨k, ⟨hk, hne⟩, rfl⟩
    refine ⟨⟨k, hk, rfl⟩, fun heq => hne ?_⟩
    rw [h.key_unique hk hmem (Or.inr heq)]
  · rintro ⟨⟨k, hk, rfl⟩, hne⟩
    refine ⟨k, ⟨hk, fun heq => hne ?_⟩, rfl⟩
    rw [h.key_unique hk hmem (Or.inl heq)]

theorem Inv.rem (h : Inv (some q) l) (hmem : (n, q) ∈ l.keys) : Inv none (l.rem n) := by
  have hkeys := fun r => mem_rem_iff h hmem (r := r)
  have hn : n ∈ l.keys.map Prod.fst := mem_map_of_mem hmem
  rw [Ledger.rem, if_pos hn] at hkeys ⊢
  constructor
  · exact h.unfreed
  · exact nodup_filter _ h.numbersNodup
  · exact fun k hk => h.numbersLt k (mem_of_mem_filter hk)
  · exact nodup_filter _ h.once
  · exact fun k hk => h.queriesLt k (mem_of_mem_filter hk)
  · intro r hr
    have howed : r ∈ l.keys.map Prod.snd ↔ l.Owed r ∨ some q = some r := h.owed_iff r hr
    rw [hkeys r, howed]
    constructor
    · rintro ⟨howed | hbusy, hne⟩
      · exact Or.inl howed
      · exact absurd (Option.some.inj hbusy).symm hne
    · rintro (howed | hbusy)
      · exact ⟨Or.inl howed, fun heq => h.busyCalled q rfl (heq ▸ howed)⟩
      · cases hbusy
  · intro r hr
    cases hr
  · exact h.logLt
  · exact h.calledOwed

theorem mem_calls (hmem : (n, q) ∈ l.keys) (does : List ResolverCall)
    (hdoes : q ∉ deletedBy does) : (n, q) ∈ (does.foldl call l).keys := by
  induction does generalizing l with
  | nil => exact hmem
  | cons c does ih =>
    cases c with
    | byName name type sending => exact ih (mem_cons_of_mem _ hmem) hdoes
    | byAddr addr sending => exact ih (mem_cons_of_mem _ hmem) hdoes
    | delete r =>
      have hne : q ≠ r := fun heq => hdoes (heq ▸ mem_cons_self)
      refine ih (List.mem_filter.mpr ⟨hmem, by simpa using hne⟩) fun hin => ?_
      exact hdoes (mem_cons_of_mem r hin)

theorem gone_calls (hlt : n < l.made) (hgone : n ∉ l.keys.map Prod.fst)
    (does : List ResolverCall) : n ∉ (does.foldl call l).keys.map Prod.fst := by
  induction does generalizing l with
  | nil => exact hgone
  | cons c does ih =>
    have hissue : n ∉ (does.foldl call l.issue).keys.map Prod.fst := by
      refine ih (Nat.lt_succ_of_lt hlt) fun hmem => ?_
      obtain heq | hmem := List.mem_cons.mp hmem
      · exact absurd heq (Nat.ne_of_lt hlt)
      · exact hgone hmem
    cases c with
    | byName name type sending => exact hissue
    | byAddr addr sending => exact hissue
    | delete r =>
      refine ih (l := l.delete r) hlt fun hmem => hgone ?_
      obtain ⟨k, hk, rfl⟩ := List.mem_map.mp hmem
      exact mem_map_of_mem (mem_of_mem_filter hk)

theorem deleted_calls (hlt : n < l.made) (honly : ∀ k ∈ l.keys, k.1 = n → k.2 = q)
    (does : List ResolverCall) (hdoes : q ∈ deletedBy does) :
    n ∉ (does.foldl call l).keys.map Prod.fst := by
  induction does generalizing l with
  | nil => cases hdoes
  | cons c does ih =>
    have hissue : q ∈ deletedBy does → n ∉ (does.foldl call l.issue).keys.map Prod.fst := by
      intro hin
      refine ih (Nat.lt_succ_of_lt hlt) (fun k hk hkn => ?_) hin
      obtain rfl | hk := List.mem_cons.mp hk
      · exact absurd hkn.symm (Nat.ne_of_lt hlt)
      · exact honly k hk hkn
    cases c with
    | byName name type sending => exact hissue hdoes
    | byAddr addr sending => exact hissue hdoes
    | delete r =>
      obtain heq | hin := List.mem_cons.mp hdoes
      · refine gone_calls (l := l.delete r) hlt (fun hmem => ?_) does
        obtain ⟨k, hk, hkn⟩ := List.mem_map.mp hmem
        obtain ⟨hk, hne⟩ := List.mem_filter.mp hk
        have hkq := honly k hk hkn
        rw [heq] at hkq
        simp [hkq] at hne
      · exact ih (l := l.delete r) hlt
          (fun k hk => honly k (mem_of_mem_filter hk)) hin

theorem Inv.answer (h : Inv none l) (hmem : (n, q) ∈ l.keys) (reply : Option DnsReply)
    {does : List ResolverCall} (hdoes : q ∉ deletedBy does) :
    Inv none ((does.foldl call (l.called q reply)).rem n) := by
  have hown : ∀ r, some q = some r → r ∉ deletedBy does := by
    intro r hr
    obtain rfl := Option.some.inj hr
    exact hdoes
  have hcalled : Inv (some q) (does.foldl call (l.called q reply)) :=
    (h.called hmem reply).calls does hown
  exact hcalled.rem (mem_calls (l := l.called q reply) hmem does hdoes)

theorem Inv.answer_freed (h : Inv none l) (hmem : (n, q) ∈ l.keys) (reply : Option DnsReply)
    {does : List ResolverCall} (hdoes : q ∈ deletedBy does) :
    ((does.foldl call (l.called q reply)).rem n).freed = true := by
  have honly : ∀ k ∈ l.keys, k.1 = n → k.2 = q := by
    intro k hk hkn
    rw [h.key_unique hk hmem (Or.inl hkn)]
  have hgone : n ∉ (does.foldl call (l.called q reply)).keys.map Prod.fst :=
    deleted_calls (l := l.called q reply) (h.numbersLt _ hmem) honly does hdoes
  rw [Ledger.rem, if_neg hgone]

theorem Inv.handOver (h : Inv none l) (hmem : (n, q) ∈ l.keys) :
    Inv none ((l.make q).rem n) := by
  have hn : n ∈ l.keys.map Prod.fst := mem_map_of_mem hmem
  have hlt : n < l.made := h.numbersLt _ hmem
  have hkeys := fun r => mem_rem_iff h hmem (r := r)
  rw [Ledger.rem, if_pos hn] at hkeys
  have heq : (l.make q).rem n =
      { l with keys := (l.made, q) :: l.keys.filter (·.1 ≠ n), made := l.made + 1 } := by
    have hmade : l.made ≠ n := (Nat.ne_of_lt hlt).symm
    have hin : n ∈ (l.make q).keys.map Prod.fst := mem_cons_of_mem _ hn
    rw [Ledger.rem, if_pos hin]
    simp [Ledger.make, hmade]
  rw [heq]
  constructor
  · exact h.unfreed
  · apply List.nodup_cons.mpr
    refine ⟨fun hin => ?_, nodup_filter _ h.numbersNodup⟩
    obtain ⟨k, hk, hmade⟩ := List.mem_map.mp hin
    exact absurd hmade (Nat.ne_of_lt (h.numbersLt k (mem_of_mem_filter hk)))
  · intro k hk
    obtain rfl | hk := List.mem_cons.mp hk
    · exact Nat.lt_succ_self _
    · exact Nat.lt_succ_of_lt (h.numbersLt k (mem_of_mem_filter hk))
  · apply List.nodup_cons.mpr
    exact ⟨fun hin => ((hkeys q).mp hin).2 rfl, nodup_filter _ h.once⟩
  · intro k hk
    obtain rfl | hk := List.mem_cons.mp hk
    · exact h.queriesLt (n, q) hmem
    · exact h.queriesLt k (mem_of_mem_filter hk)
  · intro r hr
    have howed : r ∈ l.keys.map Prod.snd ↔ l.Owed r ∨ none = some r := h.owed_iff r hr
    refine Iff.trans ?_ howed
    rw [map_cons, mem_cons, hkeys r]
    constructor
    · rintro (rfl | hin)
      · exact mem_map_of_mem hmem
      · exact hin.1
    · intro hin
      by_cases hrq : r = q
      · exact Or.inl hrq
      · exact Or.inr ⟨hin, hrq⟩
  · intro r hr
    cases hr
  · exact h.logLt
  · exact h.calledOwed

end Ledger

/-! ### The resolver on the ledger -/

namespace Resolver

variable {s : Resolver} {n : Nat} {request after : Reslist}

theorem ledger_makeRequest (s : Resolver) (query : Nat) (fill : Reslist → Reslist) :
    (s.makeRequest query fill).ledger = s.ledger.make query := rfl

theorem ledger_numbers (s : Resolver) : s.ledger.keys.map Prod.fst = s.numbers := by
  simp [ledger, numbers]

theorem ledger_queries (s : Resolver) :
    s.ledger.keys.map Prod.snd = s.requests.map fun p => p.2.query := by
  simp [ledger]

theorem mem_ledger (hmem : (n, request) ∈ s.requests) : (n, request.query) ∈ s.ledger.keys :=
  mem_map_of_mem (f := fun p : Nat × Reslist => (p.1, p.2.query)) hmem

theorem ledger_remRequest (s : Resolver) (n : Nat) :
    (s.remRequest n).ledger = s.ledger.rem n := by
  unfold remRequest Ledger.rem
  rw [ledger_numbers]
  by_cases hn : n ∈ s.numbers
  · rw [if_pos hn, if_pos hn]
    simp [ledger, filter_map, Function.comp_def]
  · rw [if_neg hn, if_neg hn]
    rfl

theorem ledger_set (hnodup : s.numbers.Nodup) (hmem : (n, request) ∈ s.requests)
    (hquery : after.query = request.query) : (s.set n after).ledger = s.ledger := by
  have hkeys : (s.set n after).requests.map (fun p => (p.1, p.2.query)) =
      s.requests.map fun p => (p.1, p.2.query) := by
    unfold set
    rw [map_map]
    apply map_congr_left
    intro p hp
    dsimp only [Function.comp_apply]
    split
    · next hn =>
        have hrequest : p = (n, request) := inj_on_of_nodup_map hnodup hp hmem hn
        rw [hrequest, hquery]
    · rfl
  unfold ledger
  rw [hkeys]
  rfl

theorem ledger_call (s : Resolver) (c : ResolverCall) : (s.call c).ledger = s.ledger.call c := by
  cases c with
  | byName name type sending => rfl
  | byAddr addr sending => rfl
  | delete query =>
    unfold call deleteQueries Ledger.call Ledger.delete ledger
    simp [filter_map, Function.comp_def]

theorem ledger_callback (s : Resolver) (query : Nat) (reply : Option DnsReply)
    (does : List ResolverCall) : (s.callback query reply does).ledger =
      does.foldl Ledger.call (s.ledger.called query reply) := by
  have hcalls : ∀ t : Resolver,
      (does.foldl call t).ledger = does.foldl Ledger.call t.ledger := by
    induction does with
    | nil => exact fun t => rfl
    | cons c does ih =>
      intro t
      rw [foldl_cons, ih, ledger_call]
      rfl
  exact hcalls _

end Resolver

/-! ### The query of a request -/

theorem resendQuery_query (request : Reslist) (sending : Sending) :
    (resendQuery request sending).query = request.query := by
  have hname : ∀ r : Reslist, (queryName r sending).query = r.query := by
    intro r
    cases sending <;> rfl
  unfold resendQuery doQueryName
  split_ifs <;> simp only [hname]

/-- A walk over the answers changes neither the query of a request, nor its type, nor how
often it was sent. -/
structure Reslist.Same (after request : Reslist) : Prop where
  query : after.query = request.query
  type : after.type = request.type
  sent : after.sent = request.sent

theorem Reslist.Same.trans {r s t : Reslist} (h : r.Same s) (h' : s.Same t) : r.Same t :=
  ⟨h.query.trans h'.query, h.type.trans h'.type, h.sent.trans h'.sent⟩

/-- The request behind a turn is the same. -/
def AnswerTurn.Keeps (request : Reslist) : AnswerTurn → Prop
  | .stop _ after => after.Same request
  | .next _ after => after.Same request
  | .overread => True

theorem answerTurn_keeps (pkt : Packet) (request : Reslist) (r : DnsRecord) :
    (answerTurn pkt request r).Keeps request := by
  have haddress : ∀ family size, (addressTurn pkt request r family size).Keeps request := by
    intro family size
    unfold addressTurn
    split_ifs
    · exact ⟨rfl, rfl, rfl⟩
    · exact ⟨rfl, rfl, rfl⟩
    · cases copyBytes pkt r.data size with
      | none => trivial
      | some bytes => exact ⟨rfl, rfl, rfl⟩
  have hptr : (ptrTurn pkt request r).Keeps request := by
    unfold ptrTurn
    split_ifs
    · exact ⟨rfl, rfl, rfl⟩
    · split <;> first | trivial | exact ⟨rfl, rfl, rfl⟩
  have hcname : (cnameTurn pkt request r).Keeps request := by
    unfold cnameTurn
    split_ifs
    · exact ⟨rfl, rfl, rfl⟩
    · split <;> first | trivial | exact ⟨rfl, rfl, rfl⟩
    · exact ⟨rfl, rfl, rfl⟩
  unfold answerTurn
  split_ifs
  · exact haddress .inet 4
  · exact haddress .inet6 16
  · exact hptr
  · exact hcname
  · exact ⟨rfl, rfl, rfl⟩

theorem procLoop_keeps {pkt : Packet} {ancount current : Nat} {request : Reslist} {e : AnswerEnd}
    (h : procLoop pkt ancount current request = some e) :
    e.request.Same request := by
  induction ancount generalizing current request e with
  | zero =>
    obtain rfl := Option.some.inj h
    exact ⟨rfl, rfl, rfl⟩
  | succ ancount ih =>
    rw [procLoop] at h
    split at h
    · split at h
      · cases h
      · obtain rfl := Option.some.inj h
        exact ⟨rfl, rfl, rfl⟩
      · next n text _ =>
          split at h
          · split at h
            · cases h
            · next type ttl len _ =>
                dsimp only at h
                have hkeeps := answerTurn_keeps pkt { request with ttl := ttl }
                  ⟨current, type, current + n + ANSWER_FIXED_SIZE, len⟩
                split at h
                · cases h
                · next heq =>
                    obtain rfl := Option.some.inj h
                    rw [heq] at hkeeps
                    exact Reslist.Same.trans hkeeps ⟨rfl, rfl, rfl⟩
                · next heq =>
                    obtain ⟨e', hrun, rfl⟩ := Option.map_eq_some_iff.mp h
                    rw [heq] at hkeeps
                    exact (ih hrun).trans (Reslist.Same.trans hkeeps ⟨rfl, rfl, rfl⟩)
          · obtain rfl := Option.some.inj h
            exact ⟨rfl, rfl, rfl⟩
    · obtain rfl := Option.some.inj h
      exact ⟨rfl, rfl, rfl⟩

theorem answer_keeps (p : DnsPacket) (request : Reslist) : (p.answer request).2.Same request := by
  unfold DnsPacket.answer procAnswer
  cases hskip : skipQuestions p.pkt p.qdcount HFIXEDSZ with
  | none => exact ⟨rfl, rfl, rfl⟩
  | some current =>
    dsimp only
    cases hrun : procLoop p.pkt p.ancount current request with
    | none => exact ⟨rfl, rfl, rfl⟩
    | some e => exact procLoop_keeps hrun

def ReplyTurn.request : ReplyTurn → Reslist
  | .keep request => request
  | .call request _ => request
  | .forward request _ _ => request
  | .drop request => request

theorem replyTurn_query (p : DnsPacket) (request : Reslist) :
    (replyTurn p request).request.query = request.query := by
  have herror : (errorTurn p request).request.query = request.query := by
    unfold errorTurn
    split_ifs
    · exact resendQuery_query _ _
    · exact resendQuery_query _ _
    · exact resendQuery_query _ _
    · rfl
  have hanswered : (answeredTurn p request).request.query = request.query := by
    have hquery := (answer_keeps p request).query
    unfold answeredTurn
    generalize p.answer request = answer at hquery ⊢
    obtain ⟨answered, after⟩ := answer
    dsimp only at hquery ⊢
    split_ifs
    · cases after.name <;> exact hquery
    · cases after.name <;> exact hquery
    · exact hquery
    · exact hquery
    · exact hquery
  unfold replyTurn
  split_ifs
  · exact herror
  · exact hanswered

theorem callsBack_iff (p : DnsPacket) (request : Reslist) :
    CallsBack p request ↔ ∃ after reply, replyTurn p request = .call after reply := by
  unfold CallsBack replyTurn
  by_cases hrcode : p.rcode ≠ 0 ∨ p.ancount = 0
  · rw [if_pos hrcode, if_pos hrcode]
    unfold errorTurn
    split_ifs with hfail haaaa hint
    · simp [hfail]
    · simp [haaaa]
    · simp [hint]
    · exact iff_of_true ⟨hfail, haaaa, hint⟩ ⟨_, _, rfl⟩
  · rw [if_neg hrcode, if_neg hrcode]
    have htype := (answer_keeps p request).type
    unfold answeredTurn
    generalize p.answer request = answer at htype ⊢
    obtain ⟨answered, after⟩ := answer
    dsimp only at htype ⊢
    rw [htype]
    split_ifs with hanswered hptr
    · cases after.name <;> simp [hanswered, hptr]
    · cases after.name <;> simp [hanswered, hptr]
    · simp [hanswered, hptr]
    · simp [hanswered]
    · simp [hanswered]

theorem losesQuery_iff (p : DnsPacket) (request : Reslist) :
    LosesQuery p request ↔ ∃ after, replyTurn p request = .drop after := by
  have herror : ∀ after, errorTurn p request ≠ .drop after := by
    intro after hdrop
    unfold errorTurn at hdrop
    split_ifs at hdrop
  have hanswered : (∃ after, answeredTurn p request = .drop after) ↔
      (p.answer request).1 = false ∧ request.sent = 0 := by
    have hsent := (answer_keeps p request).sent
    unfold answeredTurn
    generalize p.answer request = answer at hsent ⊢
    obtain ⟨answered, after⟩ := answer
    dsimp only at hsent ⊢
    rw [hsent]
    cases answered with
    | true =>
      simp only [if_true, Bool.true_eq_false, false_and, iff_false]
      rintro ⟨r, hdrop⟩
      split at hdrop
      · split at hdrop <;> cases hdrop
      · cases hdrop
    | false =>
      by_cases hzero : request.sent = 0
      · simp [hzero]
      · simp [hzero]
  unfold LosesQuery replyTurn
  by_cases hrcode : p.rcode ≠ 0 ∨ p.ancount = 0
  · rw [if_pos hrcode]
    refine iff_of_false ?_ ?_
    · rintro ⟨hzero, hcount, -⟩
      exact hrcode.elim (fun hne => hne hzero) hcount
    · rintro ⟨after, hdrop⟩
      exact herror after hdrop
  · rw [if_neg hrcode, hanswered]
    push Not at hrcode
    constructor
    · exact fun h => h.2.2
    · exact fun h => ⟨hrcode.1, hrcode.2, h⟩

/-! ### Replies -/

namespace Resolver

variable {s : Resolver} {n : Nat} {request after : Reslist}

theorem numbers_nodup (h : s.ledger.Inv none) : s.numbers.Nodup := by
  rw [← ledger_numbers]
  exact h.numbersNodup

theorem answersOnce_of_inv (h : s.ledger.Inv none) : AnswersOnce s where
  unfreed := h.unfreed
  once := by
    rw [← ledger_queries]
    exact h.once
  owed_iff q hq := by
    have hqueries : q ∈ s.ledger.keys.map Prod.snd ↔ s.ledger.Owed q ∨ none = some q :=
      h.owed_iff q hq
    rw [ledger_queries, mem_map] at hqueries
    rw [hqueries]
    exact or_iff_left (by simp)
  calledOwed := h.calledOwed

theorem ledger_owed_iff (h : AnswersOnce s) (q : Nat) (hq : q < s.ledger.queries) :
    q ∈ s.ledger.keys.map Prod.snd ↔ s.ledger.Owed q := by
  rw [ledger_queries, mem_map]
  exact h.owed_iff q hq

theorem repliedTo_mem {p : DnsPacket} (h : s.repliedTo p = some (n, request)) :
    (n, request) ∈ s.requests := by
  unfold repliedTo at h
  split at h
  · cases h
  · split at h
    · cases h
    · next hfind =>
        split at h
        · obtain rfl := Option.some.inj h
          exact mem_of_find?_eq_some hfind
        · cases h

theorem ledger_call_turn (h : s.ledger.Inv none) (hmem : (n, request) ∈ s.requests)
    (hquery : after.query = request.query) (reply : Option DnsReply) (does : List ResolverCall) :
    (((s.set n after).callback after.query reply does).remRequest n).ledger =
      (does.foldl Ledger.call (s.ledger.called request.query reply)).rem n := by
  rw [ledger_remRequest, ledger_callback, ledger_set (numbers_nodup h) hmem hquery, hquery]

theorem readReply_inv (h : s.ledger.Inv none) {p : DnsPacket} {does : List ResolverCall}
    (hok : KeepsAnswers s (.reply p does)) : (s.readReply p does).ledger.Inv none := by
  unfold readReply
  cases hhit : s.repliedTo p with
  | none => exact h
  | some hit =>
    obtain ⟨n, request⟩ := hit
    obtain ⟨hloses, hdeletes⟩ := hok n request hhit
    have hmem := repliedTo_mem hhit
    have hquery := replyTurn_query p request
    dsimp only
    cases hturn : replyTurn p request with
    | keep after =>
      rw [hturn] at hquery
      dsimp only [ReplyTurn.request] at hquery ⊢
      rw [ledger_set (numbers_nodup h) hmem hquery]
      exact h
    | call after reply =>
      rw [hturn] at hquery
      dsimp only [ReplyTurn.request] at hquery ⊢
      rw [ledger_call_turn h hmem hquery]
      exact h.answer (mem_ledger hmem) reply
        (hdeletes ((callsBack_iff p request).mpr ⟨after, reply, hturn⟩))
    | forward after name type =>
      rw [hturn] at hquery
      dsimp only [ReplyTurn.request] at hquery ⊢
      rw [ledger_remRequest, queryByName, ledger_makeRequest,
        ledger_set (numbers_nodup h) hmem hquery, hquery]
      exact h.handOver (mem_ledger hmem)
    | drop after => exact absurd ((losesQuery_iff p request).mpr ⟨after, hturn⟩) hloses

theorem readReply_breaks (h : s.ledger.Inv none) {p : DnsPacket} {does : List ResolverCall}
    (hright : AnswersOnce (s.readReply p does)) : KeepsAnswers s (.reply p does) := by
  intro n request hhit
  have hmem := repliedTo_mem hhit
  have hquery := replyTurn_query p request
  unfold readReply at hright
  rw [hhit] at hright
  dsimp only at hright
  constructor
  · intro hloses
    obtain ⟨after, hturn⟩ := (losesQuery_iff p request).mp hloses
    rw [hturn] at hquery hright
    dsimp only [ReplyTurn.request] at hquery hright
    have hledger : ((s.set n after).remRequest n).ledger = s.ledger.rem n := by
      rw [ledger_remRequest, ledger_set (numbers_nodup h) hmem hquery]
    -- the query is still owed, and there is no request for it
    have hkey := mem_ledger hmem
    have hrequests := ledger_owed_iff hright request.query
    obtain ⟨hcount, hlog⟩ := Ledger.rem_fields s.ledger n
    rw [hledger, Ledger.mem_rem_iff h hkey, Ledger.Owed, hcount, hlog] at hrequests
    exact ((hrequests (h.queriesLt _ hkey)).mpr (h.owed_of_key hkey)).2 rfl
  · intro hcalls hdeletes
    obtain ⟨after, reply, hturn⟩ := (callsBack_iff p request).mp hcalls
    rw [hturn] at hquery hright
    dsimp only [ReplyTurn.request] at hquery hright
    have hfreed := h.answer_freed (mem_ledger hmem) reply hdeletes
    rw [← ledger_call_turn h hmem hquery] at hfreed
    have hunfreed := hright.unfreed
    exact absurd (hfreed.symm.trans hunfreed) (by decide)

/-! ### Timeouts -/

theorem calls_fields (s : Resolver) (does : List ResolverCall) :
    (does.foldl call s).freed = s.freed ∧ (does.foldl call s).now = s.now := by
  induction does generalizing s with
  | nil => exact ⟨rfl, rfl⟩
  | cons c does ih =>
    have hcall : (s.call c).freed = s.freed ∧ (s.call c).now = s.now := by
      cases c <;> exact ⟨rfl, rfl⟩
    obtain ⟨hfreed, hnow⟩ := ih (s.call c)
    exact ⟨hfreed.trans hcall.1, hnow.trans hcall.2⟩

theorem remRequest_now (s : Resolver) (n : Nat) : (s.remRequest n).now = s.now := by
  unfold remRequest
  split <;> rfl

theorem remRequest_freed (n : Nat) (h : s.freed = true) : (s.remRequest n).freed = true := by
  unfold remRequest
  split
  · exact h
  · rfl

theorem timeoutTurn_now (s : Resolver) (env : TimeoutEnv) (n : Nat) (request : Reslist) :
    (s.timeoutTurn env n request).now = s.now := by
  unfold timeoutTurn
  split_ifs
  · rw [remRequest_now]
    exact (calls_fields _ _).2
  · rfl
  · rfl

theorem timeoutTurn_freed (env : TimeoutEnv) (n : Nat) (request : Reslist)
    (h : s.freed = true) : (s.timeoutTurn env n request).freed = true := by
  unfold timeoutTurn
  split_ifs
  · apply remRequest_freed
    exact (calls_fields _ _).1.trans h
  · exact h
  · exact h

theorem timeoutLoop_freed (env : TimeoutEnv) (ns : List Nat) (h : s.freed = true) :
    (s.timeoutLoop env ns).freed = true := by
  induction ns generalizing s with
  | nil => exact h
  | cons n ns ih =>
    rw [timeoutLoop]
    split
    · exact ih h
    · next request _ =>
        dsimp only
        split
        · exact ih (timeoutTurn_freed env n request h)
        · rfl

theorem mem_calls {p : Nat × Reslist} (hmem : p ∈ s.requests) (does : List ResolverCall)
    (hdoes : p.2.query ∉ deletedBy does) : p ∈ (does.foldl call s).requests := by
  induction does generalizing s with
  | nil => exact hmem
  | cons c does ih =>
    cases c with
    | byName name type sending => exact ih (mem_cons_of_mem _ hmem) hdoes
    | byAddr addr sending => exact ih (mem_cons_of_mem _ hmem) hdoes
    | delete q =>
      have hne : p.2.query ≠ q := fun heq => hdoes (heq ▸ mem_cons_self)
      have hstays : p ∈ (s.deleteQueries q).requests :=
        List.mem_filter.mpr ⟨hmem, by simpa using hne⟩
      exact ih hstays fun hin => hdoes (mem_cons_of_mem q hin)

/-- The requests behind are on the list as they were, but for those whose query callbacks
deleted. -/
structure Linked (behind : List (Nat × Reslist)) (gone : List Nat) (s : Resolver) : Prop where
  inv : s.ledger.Inv none
  nodup : (behind.map Prod.fst).Nodup
  numbersLt : ∀ p ∈ behind, p.1 < s.made
  kept : ∀ p ∈ behind, p.2.query ∉ gone → p ∈ s.requests
  removed : ∀ p ∈ behind, p.2.query ∈ gone → p.1 ∉ s.numbers

variable {behind : List (Nat × Reslist)} {gone : List Nat} {env : TimeoutEnv}

theorem Linked.mem_numbers_iff (h : Linked behind gone s) {p : Nat × Reslist} (hp : p ∈ behind) :
    p.1 ∈ s.numbers ↔ p.2.query ∉ gone := by
  constructor
  · exact fun hmem hgone => h.removed p hp hgone hmem
  · exact fun hgone => mem_map_of_mem (h.kept p hp hgone)

theorem Linked.tail {p : Nat × Reslist} (h : Linked (p :: behind) gone s) :
    Linked behind gone s where
  inv := h.inv
  nodup := (List.nodup_cons.mp h.nodup).2
  numbersLt r hr := h.numbersLt r (mem_cons_of_mem p hr)
  kept r hr := h.kept r (mem_cons_of_mem p hr)
  removed r hr := h.removed r (mem_cons_of_mem p hr)

theorem Linked.ne_head (h : Linked ((n, request) :: behind) gone s) {p : Nat × Reslist}
    (hp : p ∈ behind) : p.1 ≠ n := by
  have hin : p.1 ∈ behind.map Prod.fst := mem_map_of_mem hp
  exact ne_of_mem_of_not_mem hin (List.nodup_cons.mp h.nodup).1

theorem Linked.find_head (h : Linked ((n, request) :: behind) gone s) :
    s.find n = if request.query ∈ gone then none else some request := by
  unfold find
  split
  · next hgone =>
      have hnot := h.removed _ mem_cons_self hgone
      rw [Option.map_eq_none_iff, find?_eq_none]
      intro p hp hn
      have hin : p.1 ∈ s.numbers := mem_map_of_mem hp
      exact ne_of_mem_of_not_mem hin hnot (of_decide_eq_true hn)
  · next hgone =>
      have hmem := h.kept _ mem_cons_self hgone
      cases hfind : s.requests.find? (·.1 = n) with
      | none =>
        rw [find?_eq_none] at hfind
        exact absurd (decide_eq_true rfl) (hfind _ hmem)
      | some p =>
        have hn : p.1 = n := by simpa using find?_some hfind
        have hp := mem_of_find?_eq_some hfind
        rw [inj_on_of_nodup_map (numbers_nodup h.inv) hp hmem hn]
        rfl

theorem Linked.find_next (h : Linked behind gone s) :
    (behind.map Prod.fst).find? (· ∈ s.numbers) =
      (behind.find? (·.2.query ∉ gone)).map Prod.fst := by
  rw [find?_map]
  congr 1
  apply find?_congr
  intro p hp
  rw [Function.comp_apply]
  exact decide_eq_decide.mpr (h.mem_numbers_iff hp)

theorem Linked.set (h : Linked ((n, request) :: behind) gone s)
    (hmem : (n, request) ∈ s.requests) (hquery : after.query = request.query) :
    Linked behind gone (s.set n after) := by
  have hledger := ledger_set (numbers_nodup h.inv) hmem hquery
  have htail := h.tail
  constructor
  · rw [hledger]
    exact htail.inv
  · exact htail.nodup
  · exact htail.numbersLt
  · intro p hp hgone
    exact List.mem_map.mpr ⟨p, htail.kept p hp hgone, if_neg (h.ne_head hp)⟩
  · intro p hp hgone
    rw [← ledger_numbers, hledger, ledger_numbers]
    exact htail.removed p hp hgone

theorem calls_made (s : Resolver) (does : List ResolverCall) :
    s.made ≤ (does.foldl call s).made := by
  induction does generalizing s with
  | nil => exact Nat.le_refl _
  | cons c does ih =>
    have hcall : s.made ≤ (s.call c).made := by
      cases c with
      | byName name type sending => exact Nat.le_succ _
      | byAddr addr sending => exact Nat.le_succ _
      | delete q => exact Nat.le_refl _
    exact hcall.trans (ih (s.call c))

theorem remRequest_made (s : Resolver) (n : Nat) : (s.remRequest n).made = s.made := by
  unfold remRequest
  split <;> rfl

theorem mem_remRequest {p : Nat × Reslist} (hp : p ∈ s.requests) (hne : p.1 ≠ n) :
    p ∈ (s.remRequest n).requests := by
  unfold remRequest
  split
  · exact List.mem_filter.mpr ⟨hp, by simpa using hne⟩
  · exact hp

theorem numbers_remRequest {m : Nat} (hm : m ∉ s.numbers) : m ∉ (s.remRequest n).numbers := by
  unfold remRequest
  split
  · intro hin
    obtain ⟨p, hp, rfl⟩ := List.mem_map.mp hin
    exact hm (mem_map_of_mem (mem_of_mem_filter hp))
  · exact hm

theorem Linked.giveUp (h : Linked ((n, request) :: behind) gone s)
    (hmem : (n, request) ∈ s.requests) (hquery : after.query = request.query)
    {does : List ResolverCall} (hdoes : request.query ∉ deletedBy does) :
    Linked behind (gone ++ deletedBy does)
      (((s.set n after).callback after.query none does).remRequest n) := by
  have hset := h.set hmem hquery
  have hledger := ledger_call_turn h.inv hmem hquery none does
  have hnumbers : ((s.set n after).callback after.query none does).numbers =
      (does.foldl Ledger.call ((s.set n after).ledger.called after.query none)).keys.map
        Prod.fst := by
    rw [← ledger_numbers, ledger_callback]
  -- what other code does starts from the state where the call is in the log
  let t : Resolver := { s.set n after with log := s.log ++ [.called after.query none] }
  constructor
  · rw [hledger]
    exact h.inv.answer (mem_ledger hmem) none hdoes
  · exact hset.nodup
  · intro p hp
    rw [remRequest_made]
    exact Nat.lt_of_lt_of_le (hset.numbersLt p hp) (calls_made t does)
  · intro p hp hgone
    rw [mem_append, not_or] at hgone
    have hkept : p ∈ t.requests := hset.kept p hp hgone.1
    exact mem_remRequest (mem_calls hkept does hgone.2) (h.ne_head hp)
  · intro p hp hgone
    apply numbers_remRequest
    rw [hnumbers]
    have hlt := hset.numbersLt p hp
    by_cases hbefore : p.2.query ∈ gone
    · apply Ledger.gone_calls hlt
      have hnot := hset.removed p hp hbefore
      rw [← ledger_numbers] at hnot
      exact hnot
    · have hkey := mem_ledger (hset.kept p hp hbefore)
      have hdeleted := (List.mem_append.mp hgone).resolve_left hbefore
      refine Ledger.deleted_calls hlt (fun k hk hkn => ?_) does hdeleted
      rw [hset.inv.key_unique hk hkey (Or.inl hkn)]

theorem Linked.next_mem_iff (h : Linked behind gone s) {gone' : List Nat} {t : Resolver}
    (ht : Linked behind gone' t) :
    (∀ m, (behind.map Prod.fst).find? (· ∈ s.numbers) = some m → m ∈ t.numbers) ↔
      ∀ next, behind.find? (·.2.query ∉ gone) = some next → next.2.query ∉ gone' := by
  rw [h.find_next]
  constructor
  · intro hall next hnext
    have hmem := hall next.1 (Option.map_eq_some_iff.mpr ⟨next, hnext, rfl⟩)
    exact (ht.mem_numbers_iff (mem_of_find?_eq_some hnext)).mp hmem
  · intro hall m hm
    obtain ⟨next, hnext, rfl⟩ := Option.map_eq_some_iff.mp hm
    exact (ht.mem_numbers_iff (mem_of_find?_eq_some hnext)).mpr (hall next hnext)

theorem Linked.quiet (h : Linked ((n, request) :: behind) gone s)
    (hmem : (n, request) ∈ s.requests) (hup : request.givesUp s.now = false) :
    Linked behind gone (s.timeoutTurn env n request) := by
  unfold timeoutTurn
  rw [hup, if_neg Bool.false_ne_true]
  split
  · exact h.set hmem (resendQuery_query _ _)
  · exact h.tail

theorem Linked.turn_freed (h : Linked ((n, request) :: behind) gone s)
    (hmem : (n, request) ∈ s.requests) (hup : request.givesUp s.now = true)
    (hdoes : request.query ∈ deletedBy (env.does n)) :
    (s.timeoutTurn env n request).freed = true := by
  have hfreed := h.inv.answer_freed (mem_ledger hmem) none hdoes
  unfold timeoutTurn
  rw [if_pos hup]
  have hquery : ({ request with retries := request.retries - 1 } : Reslist).query =
      request.query := rfl
  rw [← ledger_call_turn h.inv hmem hquery none (env.does n)] at hfreed
  exact hfreed

theorem timeoutLoop_outcome (env : TimeoutEnv) (h : Linked behind gone s) :
    (WalkKeeps env s.now behind gone ∧
        (s.timeoutLoop env (behind.map Prod.fst)).ledger.Inv none) ∨
      (¬WalkKeeps env s.now behind gone ∧
        (s.timeoutLoop env (behind.map Prod.fst)).freed = true) := by
  induction behind generalizing gone s with
  | nil => exact Or.inl ⟨trivial, h.inv⟩
  | cons p behind ih =>
    obtain ⟨n, request⟩ := p
    simp only [map_cons, timeoutLoop, h.find_head, WalkKeeps]
    by_cases hgone : request.query ∈ gone
    · simp only [if_pos hgone]
      exact ih h.tail
    · have hmem := h.kept _ mem_cons_self hgone
      have hnow := timeoutTurn_now s env n request
      have hnext : ∀ next : Nat × Reslist, behind.find? (·.2.query ∉ gone) = some next →
          next.2.query ∉ gone := by
        intro next hfind
        simpa using find?_some hfind
      simp only [if_neg hgone]
      cases hup : request.givesUp s.now with
      | false =>
        have hlinked : Linked behind gone (s.timeoutTurn env n request) := h.quiet hmem hup
        have hcheck := (h.tail.next_mem_iff hlinked).mpr hnext
        have hrest := ih hlinked
        rw [hnow] at hrest
        rw [if_pos hcheck]
        simpa using hrest
      | true =>
        rw [if_pos rfl]
        by_cases hown : request.query ∈ deletedBy (env.does n)
        · refine Or.inr ⟨fun hkeeps => hkeeps.1 hown, ?_⟩
          have hfreed := h.turn_freed hmem hup hown
          split
          · exact timeoutLoop_freed env _ hfreed
          · rfl
        · have hlinked : Linked behind (gone ++ deletedBy (env.does n))
              (s.timeoutTurn env n request) := by
            unfold timeoutTurn
            rw [if_pos hup]
            have hquery : ({ request with retries := request.retries - 1 } : Reslist).query =
                request.query := rfl
            exact h.giveUp hmem hquery hown
          have hcheck := h.tail.next_mem_iff hlinked
          by_cases hkeep : ∀ next, behind.find? (·.2.query ∉ gone) = some next →
              next.2.query ∉ deletedBy (env.does n)
          · have hboth : ∀ next, behind.find? (·.2.query ∉ gone) = some next →
                next.2.query ∉ gone ++ deletedBy (env.does n) := by
              intro next hfind
              rw [mem_append, not_or]
              exact ⟨hnext next hfind, hkeep next hfind⟩
            have hrest := ih hlinked
            rw [hnow] at hrest
            rw [if_pos (hcheck.mpr hboth), and_iff_right hown, and_iff_right hkeep]
            exact hrest
          · refine Or.inr ⟨fun hkeeps => hkeep hkeeps.2.1, ?_⟩
            rw [if_neg]
            intro hall
            apply hkeep
            intro next hfind hin
            exact hcheck.mp hall next hfind (mem_append_right gone hin)

theorem linked_requests (h : s.ledger.Inv none) : Linked s.requests [] s where
  inv := h
  nodup := numbers_nodup h
  numbersLt _ hp := h.numbersLt _ (mem_ledger hp)
  kept _ hp _ := hp
  removed _ _ hgone := absurd hgone not_mem_nil

/-! ### Runs -/

theorem step_inv (h : s.ledger.Inv none) (op : ResolverOp) (hok : KeepsAnswers s op) :
    (s.step op).ledger.Inv none := by
  cases op with
  | call c =>
    have hcalls := h.calls [c]
    rw [foldl_cons, foldl_nil, ← ledger_call] at hcalls
    exact hcalls (by simp)
  | reply p does => exact readReply_inv h hok
  | timeout env =>
    obtain ⟨-, hinv⟩ | ⟨hbad, -⟩ := timeoutLoop_outcome env (linked_requests h)
    · exact hinv
    · exact absurd hok hbad
  | clock now => exact h

theorem step_breaks (h : s.ledger.Inv none) (op : ResolverOp)
    (hright : AnswersOnce (s.step op)) : KeepsAnswers s op := by
  cases op with
  | call c => trivial
  | reply p does => exact readReply_breaks h hright
  | timeout env =>
    obtain ⟨hok, -⟩ | ⟨-, hfreed⟩ := timeoutLoop_outcome env (linked_requests h)
    · exact hok
    · exact absurd (hfreed.symm.trans hright.unfreed) (by decide)
  | clock now => trivial

theorem start_inv (domain : CStr) (now : Nat) : (start domain now).ledger.Inv none where
  unfreed := rfl
  numbersNodup := nodup_nil
  numbersLt _ hk := absurd hk not_mem_nil
  once := nodup_nil
  queriesLt _ hk := absurd hk not_mem_nil
  owed_iff _ hq := absurd hq (Nat.not_lt_zero _)
  busyCalled _ hq := absurd hq (by simp)
  logLt _ he := absurd he not_mem_nil
  calledOwed := List.Pairwise.nil

end Resolver

/-- A run gives each query one answer exactly if no reply drops the request of a query that
was never sent, and no callback deletes its own query or the one a timeout looks at next. -/
theorem dns_answers_once_iff (domain : CStr) (now : Nat) (ops : List ResolverOp) :
    (∀ before, before <+: ops →
        AnswersOnce (Run.exec Resolver.step (Resolver.start domain now) before)) ↔
      Run.Guarded Resolver.step KeepsAnswers (Resolver.start domain now) ops := by
  have hruns : (∀ before, before <+: ops →
      AnswersOnce (Run.exec Resolver.step (Resolver.start domain now) before) ∧
        ∀ op, before.getLast? = some op → True) ↔
      Run.Guarded Resolver.step KeepsAnswers (Resolver.start domain now) ops :=
    Run.prefixes_iff_guarded AnswersOnce (fun _ _ => True)
      (fun s op h hok => Resolver.step_inv h op hok)
      (fun s h => Resolver.answersOnce_of_inv h) (fun _ _ _ _ => trivial)
      (fun s op h hbad hright => hbad (Resolver.step_breaks h op hright))
      (Resolver.start_inv domain now)
  simpa using hruns

/-- A query that could not be sent, and a reply for it of another type. -/
def unsentRun : List ResolverOp :=
  [.call (.byAddr ⟨.inet, [192, 0, 2, 1]⟩ (some (7, 0))),
    .reply ⟨answerPacket 1 [192, 0, 2, 1], 7, 0, 0, 1, true, (false, .idle, ⟨.unspec, []⟩, none),
      none⟩ []]

/-- Two queries time out, and the callback of the first one on the list deletes the other. -/
def deletingRun : List ResolverOp :=
  let env : TimeoutEnv := ⟨fun n => if n = 1 then [.delete 0] else [], fun _ => none⟩
  [.call (.byAddr ⟨.inet, [192, 0, 2, 1]⟩ (some (7, 1))),
    .call (.byAddr ⟨.inet, [192, 0, 2, 2]⟩ (some (8, 1))),
    .clock 4, .timeout env, .clock 12, .timeout env, .clock 28, .timeout env]

/-- In the first run the request is gone and its callback was not called; in the second a
request is used after it was freed. -/
theorem dns_answer_lost :
    ((Run.exec Resolver.step (Resolver.start [] 0) unsentRun).requests = [] ∧
        (Run.exec Resolver.step (Resolver.start [] 0) unsentRun).queries = 1 ∧
        (Run.exec Resolver.step (Resolver.start [] 0) unsentRun).log = []) ∧
      (Run.exec Resolver.step (Resolver.start [] 0) deletingRun).freed = true ∧
      ¬∀ domain now ops, ∀ before, before <+: ops →
        AnswersOnce (Run.exec Resolver.step (Resolver.start domain now) before) := by
  have hfreed : (Run.exec Resolver.step (Resolver.start [] 0) deletingRun).freed = true := by
    decide +kernel
  refine ⟨by decide +kernel, hfreed, fun hall => ?_⟩
  have hright := hall [] 0 deletingRun deletingRun (prefix_refl _)
  exact absurd (hfreed.symm.trans hright.unfreed) (by decide)

end Ircd
