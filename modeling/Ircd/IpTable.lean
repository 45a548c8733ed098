import Ircd.Address
import Ircd.Lib.Run
import Mathlib.Algebra.BigOperators.Group.Finset.Basic
import Mathlib.Algebra.BigOperators.Ring.Finset
import Mathlib.Data.List.Count
import Mathlib.Data.List.Nodup

/-!
The table of connections per address: `find_or_add_ip`, `remove_one_ip` and
`garbage_collect_ip_entries`.

- `IpState.Counted`: the entries of an address count its clients, and
  `ip_entries_count` counts the entries.
- `removeLoop_split`: what `remove_one_ip` leaves of a bucket.
- `ip_table_exact`: the runs in which the table is right after every step.
-/

namespace Ircd

open Function List

/-- `IP_HASH_SIZE`. -/
def IP_HASH_SIZE : Nat := 0x1000

/-- `struct ip_entry`, without its place in the chain. -/
structure IpEntry where
  ip : Address
  count : Nat := 0
  lastAttempt : Int := 0
  deriving DecidableEq, Repr

/-- A word of an address in the order of a little-endian host. -/
def hostWord (bytes : List Nat) (i : Nat) : BitVec 32 :=
  BitVec.ofNat 32 (Bytes.value ((bytes.drop (4 * i)).take 4).reverse)

/-- `hash_ip`; the signed `hash` is shifted with its sign. -/
def hashIp (addr : Address) : Nat :=
  match addr.family with
  | .inet =>
    let ip := BitVec.ofNat 32 (Bytes.value addr.bytes)
    (((ip >>> 12) + ip) &&& BitVec.ofNat 32 (IP_HASH_SIZE - 1)).toNat
  | .inet6 =>
    let hash := hostWord addr.bytes 0 ^^^ hostWord addr.bytes 3
    let hash := hash ^^^ hash.sshiftRight 16
    let hash := hash ^^^ hash.sshiftRight 8
    (hash &&& BitVec.ofNat 32 (IP_HASH_SIZE - 1)).toNat

/-- The table with its count, the addresses of the live clients that are flagged
`IsIpHash`, the clock and `throttle_time`. -/
structure IpState where
  table : Nat → List IpEntry := fun _ => []
  entriesCount : Int := 0
  clients : List Address := []
  currentTime : Int := 0
  throttleTime : Int := 0

namespace IpState

/-- The entry has no connections and its last attempt is long ago. -/
def expired (s : IpState) (e : IpEntry) : Bool :=
  e.count == 0 && decide (s.throttleTime ≤ s.currentTime - e.lastAttempt)

/-- The inner loop of `garbage_collect_ip_entries`: the chain up to `last_ptr`
and the entries still ahead. It returns the chain and how many entries it freed. -/
def collectLoop (s : IpState) : List IpEntry → List IpEntry → List IpEntry × Nat
  | kept, [] => (kept, 0)
  | kept, ptr :: rest =>
    if s.expired ptr then
      let (chain, freed) := collectLoop s kept rest
      (chain, freed + 1)
    else collectLoop s (kept ++ [ptr]) rest

def collectBucket (s : IpState) (i : Nat) : IpState :=
  let (chain, freed) := s.collectLoop [] (s.table i)
  { s with table := update s.table i chain, entriesCount := s.entriesCount - freed }

/-- `garbage_collect_ip_entries`. -/
def garbageCollect (s : IpState) : IpState := (List.range IP_HASH_SIZE).foldl collectBucket s

/-- `find_or_add_ip`; the entry it returns is the first of the address. -/
def findOrAddIp (hardFdlimit : Int) (s : IpState) (ip : Address) : IpState :=
  let i := hashIp ip
  if (s.table i).any (·.ip == ip) then s
  else
    let s := if 2 * hardFdlimit ≤ s.entriesCount then s.garbageCollect else s
    { s with
      table := update s.table i ({ ip := ip } :: s.table i)
      entriesCount := s.entriesCount + 1 }

/-- A change of the entry that `find_or_add_ip` returned. -/
def onEntry (ip : Address) (f : IpEntry → IpEntry) : List IpEntry → List IpEntry
  | [] => []
  | e :: es => if e.ip = ip then f e :: es else e :: onEntry ip f es

/-- The loop of `remove_one_ip`: the entries passed, the chain up to `last_ptr`
when it is set, and the entries ahead. It returns the chain and whether an entry
was freed. -/
def removeLoop (s : IpState) (ip : Address) :
    List IpEntry → Option (List IpEntry) → List IpEntry → List IpEntry × Bool
  | passed, _, [] => (passed, false)
  | passed, last, ptr :: rest =>
    -- the `continue` leaves `last_ptr` where it is
    if ptr.ip ≠ ip then removeLoop s ip (passed ++ [ptr]) last rest
    else
      let ptr := { ptr with count := ptr.count - 1 }
      if s.expired ptr then (last.getD [] ++ rest, true)
      else removeLoop s ip (passed ++ [ptr]) (some (passed ++ [ptr])) rest

/-- `remove_one_ip`. -/
def removeOneIp (s : IpState) (ip : Address) : IpState :=
  let i := hashIp ip
  let (chain, freed) := s.removeLoop ip [] none (s.table i)
  { s with
    table := update s.table i chain
    entriesCount := if freed then s.entriesCount - 1 else s.entriesCount }

end IpState

/-- What happens to the table. -/
inductive IpOp
  /-- `conf_connect_allowed` lets a connection in or throttles it. -/
  | connect (ip : Address)
  /-- `attach_iline` of a new client. -/
  | attach (ip : Address)
  /-- A client exits, given by its place among the live ones. -/
  | exit (n : Nat)
  | collect
  /-- Time passes, and `throttle_time` may be set anew. -/
  | clock (currentTime throttleTime : Int)
  deriving DecidableEq, Repr

def IpState.step (hardFdlimit : Int) (s : IpState) : IpOp → IpState
  | .connect ip =>
    let s := s.findOrAddIp hardFdlimit ip
    { s with
      table := update s.table (hashIp ip)
        (onEntry ip (fun e => { e with lastAttempt := s.currentTime }) (s.table (hashIp ip))) }
  | .attach ip =>
    let s := s.findOrAddIp hardFdlimit ip
    { s with
      table := update s.table (hashIp ip)
        (onEntry ip (fun e => { e with count := e.count + 1 }) (s.table (hashIp ip)))
      clients := ip :: s.clients }
  | .exit n =>
    match s.clients[n]? with
    | none => s
    | some ip => { s.removeOneIp ip with clients := s.clients.eraseIdx n }
  | .collect => s.garbageCollect
  | .clock currentTime throttleTime =>
    { s with currentTime := currentTime, throttleTime := throttleTime }

/-! ### The table is right -/

/-- What the table is for: an address with clients has one entry, which counts
them, and `ip_entries_count` counts the entries. -/
structure IpState.Exact (s : IpState) : Prop where
  entry : ∀ ip ∈ s.clients, ∃ e : IpEntry, e.count = s.clients.count ip ∧
    ∀ i, (s.table i).filter (·.ip = ip) = if i = hashIp ip then [e] else []
  total : s.entriesCount = ∑ i ∈ Finset.range IP_HASH_SIZE, ((s.table i).length : Int)

/-- The exit of a client leaves the entries of all other addresses alone. -/
def IpState.Framed (hardFdlimit : Int) (s : IpState) : IpOp → Prop
  | .exit n => ∀ ip, s.clients[n]? = some ip → ∀ other, other ≠ ip →
    ∀ i, ((s.step hardFdlimit (.exit n)).table i).filter (·.ip = other) =
      (s.table i).filter (·.ip = other)
  | _ => True

/-- The exit frees no entry, or the first of its bucket. -/
def IpState.FreesFirst (s : IpState) : IpOp → Prop
  | .exit n => ∀ ip, s.clients[n]? = some ip → ∀ pre e post,
    s.table (hashIp ip) = pre ++ e :: post → e.ip = ip →
      s.expired { e with count := e.count - 1 } = true → pre = []
  | _ => True

/-- The invariant: every entry counts the clients of its address. -/
structure IpState.Counted (s : IpState) : Prop where
  placed : ∀ i, ∀ e ∈ s.table i, hashIp e.ip = i
  once : ∀ i, ((s.table i).map IpEntry.ip).Nodup
  counts : ∀ i, ∀ e ∈ s.table i, e.count = s.clients.count e.ip
  found : ∀ ip ∈ s.clients, ip ∈ (s.table (hashIp ip)).map IpEntry.ip
  total : s.entriesCount = ∑ i ∈ Finset.range IP_HASH_SIZE, ((s.table i).length : Int)

variable {s : IpState} {ip other : Address} {limit : Int}

theorem hashIp_lt (ip : Address) : hashIp ip < IP_HASH_SIZE := by
  have hand : ∀ v : BitVec 32, (v &&& BitVec.ofNat 32 (IP_HASH_SIZE - 1)).toNat < IP_HASH_SIZE := by
    intro v
    rw [BitVec.toNat_and]
    exact Nat.lt_of_le_of_lt Nat.and_le_right (by decide)
  unfold hashIp
  cases ip.family with
  | inet => exact hand _
  | inet6 => exact hand _

namespace IpState

theorem Counted.bucket (h : s.Counted) {k : Nat} (hk : k < IP_HASH_SIZE) {chain : List IpEntry}
    {clients : List Address} {t : IpState} (htable : t.table = update s.table k chain)
    (hclients : t.clients = clients) (hplaced : ∀ e ∈ chain, hashIp e.ip = k)
    (honce : (chain.map IpEntry.ip).Nodup)
    (hcounts : ∀ e ∈ chain, e.count = clients.count e.ip)
    (hothers : ∀ other, hashIp other ≠ k → clients.count other = s.clients.count other)
    (hfound : ∀ other ∈ clients, hashIp other = k → other ∈ chain.map IpEntry.ip)
    (htotal : t.entriesCount = s.entriesCount + chain.length - (s.table k).length) : t.Counted where
  placed i e he := by
    rw [htable] at he
    by_cases hi : i = k
    · subst hi
      exact hplaced e (by rwa [update_self] at he)
    · exact h.placed i e (by rwa [update_of_ne hi] at he)
  once i := by
    rw [htable]
    by_cases hi : i = k
    · rwa [hi, update_self]
    · rw [update_of_ne hi]
      exact h.once i
  counts i e he := by
    rw [htable] at he
    rw [hclients]
    by_cases hi : i = k
    · subst hi
      exact hcounts e (by rwa [update_self] at he)
    · rw [update_of_ne hi] at he
      rw [h.counts i e he, hothers e.ip (by rw [h.placed i e he]; exact hi)]
  found other hother := by
    rw [hclients] at hother
    rw [htable]
    by_cases hi : hashIp other = k
    · rw [hi, update_self]
      exact hfound other hother hi
    · rw [update_of_ne hi]
      apply h.found
      rw [← count_pos_iff, ← hothers other hi]
      exact List.count_pos_iff.mpr hother
  total := by
    have hmem : k ∈ Finset.range IP_HASH_SIZE := Finset.mem_range.mpr hk
    have hrest : ∑ i ∈ (Finset.range IP_HASH_SIZE).erase k, ((t.table i).length : Int) =
        ∑ i ∈ (Finset.range IP_HASH_SIZE).erase k, ((s.table i).length : Int) := by
      refine Finset.sum_congr rfl fun i hi => ?_
      rw [htable, update_of_ne (Finset.ne_of_mem_erase hi)]
    have hsum := h.total
    rw [← Finset.add_sum_erase _ _ hmem] at hsum
    rw [htotal, ← Finset.add_sum_erase _ _ hmem, hrest, htable, update_self]
    omega

theorem Counted.split (h : s.Counted) (hip : ip ∈ (s.table (hashIp ip)).map IpEntry.ip) :
    ∃ pre e post, s.table (hashIp ip) = pre ++ e :: post ∧ e.ip = ip ∧
      (∀ d ∈ pre, d.ip ≠ ip) ∧ ∀ d ∈ post, d.ip ≠ ip := by
  obtain ⟨e, he, rfl⟩ := List.mem_map.mp hip
  obtain ⟨pre, post, hsplit⟩ := append_of_mem he
  have honce := h.once (hashIp e.ip)
  rw [hsplit, map_append, map_cons, nodup_append, nodup_cons] at honce
  obtain ⟨-, ⟨hpost, -⟩, hpre⟩ := honce
  refine ⟨pre, e, post, hsplit, rfl, fun d hd heq => ?_, fun d hd heq => ?_⟩
  · exact hpre d.ip (mem_map_of_mem hd) e.ip (by simp) heq
  · exact hpost (heq ▸ mem_map_of_mem hd)

theorem filter_of_ne {l : List IpEntry} (h : ∀ d ∈ l, d.ip ≠ ip) : l.filter (·.ip = ip) = [] := by
  rw [filter_eq_nil_iff]
  simpa using h

theorem Counted.exact (h : s.Counted) : s.Exact where
  entry ip hip := by
    obtain ⟨pre, e, post, hsplit, rfl, hpre, hpost⟩ := h.split (h.found ip hip)
    refine ⟨e, h.counts _ e (by rw [hsplit]; simp), fun i => ?_⟩
    split
    · rename_i hi
      rw [hi, hsplit, filter_append, filter_cons, filter_of_ne hpre, filter_of_ne hpost]
      simp
    · rename_i hi
      refine filter_of_ne fun d hd heq => hi ?_
      rw [← heq]
      exact (h.placed i d hd).symm
  total := h.total

/-! ### Collecting -/

theorem collectLoop_eq (s : IpState) (kept entries : List IpEntry) :
    (s.collectLoop kept entries).1 = kept ++ entries.filter (!s.expired ·) ∧
      (s.collectLoop kept entries).2 + (entries.filter (!s.expired ·)).length = entries.length := by
  fun_induction collectLoop s kept entries with
  | case1 kept => simp
  | case2 kept ptr rest hexp chain freed hloop ih =>
    simp only [hloop] at ih
    simp only [filter_cons, hexp, Bool.not_true, Bool.false_eq_true, if_false,
      length_cons]
    exact ⟨ih.1, by omega⟩
  | case3 kept ptr rest hexp ih =>
    simp only [filter_cons, hexp, Bool.not_false, if_true, length_cons]
    refine ⟨ih.1.trans ?_, by omega⟩
    simp

theorem collectLoop_sublist (s : IpState) (entries : List IpEntry) :
    (s.collectLoop [] entries).1.Sublist entries := by
  rw [(collectLoop_eq s [] entries).1, nil_append]
  exact filter_sublist

theorem collectBucket_sublist (s : IpState) (i k : Nat) :
    ((s.collectBucket i).table k).Sublist (s.table k) := by
  by_cases hk : k = i
  · subst hk
    simp only [collectBucket, update_self]
    exact collectLoop_sublist s _
  · simp only [collectBucket, update_of_ne hk]
    exact List.Sublist.refl _

theorem Counted.collectBucket (h : s.Counted) {i : Nat} (hi : i < IP_HASH_SIZE) :
    (s.collectBucket i).Counted := by
  obtain ⟨hchain, hfreed⟩ := collectLoop_eq s [] (s.table i)
  have hsub := collectLoop_sublist s (s.table i)
  refine h.bucket hi rfl rfl (fun e he => h.placed i e (hsub.mem he))
    (hsub.map _ |>.nodup (h.once i))
    (fun e he => h.counts i e (hsub.mem he)) (fun _ _ => rfl) (fun other hother hk => ?_) ?_
  · obtain ⟨e, he, rfl⟩ := List.mem_map.mp (h.found other hother)
    rw [hk] at he
    refine mem_map_of_mem ?_
    have hcount : e.count ≠ 0 := by
      rw [h.counts i e he]
      exact Nat.ne_of_gt (List.count_pos_iff.mpr hother)
    rw [hchain, nil_append, mem_filter]
    exact ⟨he, by simp [expired, hcount]⟩
  · rw [hchain, nil_append]
    simp only [IpState.collectBucket]
    omega

theorem Counted.garbageCollect (h : s.Counted) :
    s.garbageCollect.Counted ∧ s.garbageCollect.clients = s.clients ∧
      ∀ i, (s.garbageCollect.table i).Sublist (s.table i) := by
  have hrun : ∀ (is : List Nat) (t : IpState), t.Counted → (∀ i ∈ is, i < IP_HASH_SIZE) →
      (is.foldl IpState.collectBucket t).Counted ∧
        (is.foldl IpState.collectBucket t).clients = t.clients ∧
          ∀ i, ((is.foldl IpState.collectBucket t).table i).Sublist (t.table i) := by
    intro is
    induction is with
    | nil => exact fun t ht _ => ⟨ht, rfl, fun _ => List.Sublist.refl _⟩
    | cons i is ih =>
      intro t ht his
      obtain ⟨hcounted, hclients, hsub⟩ := ih _ (ht.collectBucket (his i (by simp)))
        fun j hj => his j (by simp [hj])
      exact ⟨hcounted, hclients, fun k => (hsub k).trans (collectBucket_sublist t i k)⟩
  unfold IpState.garbageCollect
  exact hrun (List.range IP_HASH_SIZE) s h fun i hi => List.mem_range.mp hi

theorem Counted.findOrAddIp (h : s.Counted) (limit : Int) (ip : Address) :
    (s.findOrAddIp limit ip).Counted ∧ (s.findOrAddIp limit ip).clients = s.clients ∧
      ip ∈ ((s.findOrAddIp limit ip).table (hashIp ip)).map IpEntry.ip := by
  by_cases hany : (s.table (hashIp ip)).any (·.ip == ip) = true
  · have heq : s.findOrAddIp limit ip = s := by simp only [IpState.findOrAddIp, hany, if_true]
    rw [heq]
    obtain ⟨e, he, hip⟩ := List.any_eq_true.mp hany
    exact ⟨h, rfl, List.mem_map.mpr ⟨e, he, beq_iff_eq.mp hip⟩⟩
  have hnew : ip ∉ (s.table (hashIp ip)).map IpEntry.ip := by
    intro hmem
    obtain ⟨e, he, hip⟩ := List.mem_map.mp hmem
    exact hany (List.any_eq_true.mpr ⟨e, he, beq_iff_eq.mpr hip⟩)
  have hnone : s.clients.count ip = 0 :=
    List.count_eq_zero.mpr fun hmem => hnew (h.found ip hmem)
  -- the new entry, whether or not the table was collected first
  have push : ∀ t : IpState, t.Counted → t.clients = s.clients →
      (∀ i, (t.table i).Sublist (s.table i)) →
      IpState.Counted { t with
        table := update t.table (hashIp ip) ({ ip := ip } :: t.table (hashIp ip))
        entriesCount := t.entriesCount + 1 } := by
    intro t ht hclients hsub
    refine ht.bucket (hashIp_lt ip) rfl rfl (fun e he => ?_) ?_ (fun e he => ?_) (fun _ _ => rfl)
      (fun other hother hk => ?_) ?_
    · rcases List.mem_cons.mp he with rfl | he
      · rfl
      · exact ht.placed _ e he
    · rw [map_cons, nodup_cons]
      exact ⟨fun hmem => hnew ((hsub _).map _ |>.mem hmem), ht.once _⟩
    · rcases List.mem_cons.mp he with rfl | he
      · rw [hclients]
        exact hnone.symm
      · exact ht.counts _ e he
    · rw [map_cons, mem_cons]
      exact .inr (hk ▸ ht.found other hother)
    · rw [length_cons]
      push_cast
      omega
  obtain ⟨hcounted, hclients, hsub⟩ := h.garbageCollect
  simp only [IpState.findOrAddIp, hany, if_false, Bool.false_eq_true]
  split
  · exact ⟨push _ hcounted hclients hsub, hclients, by simp⟩
  · exact ⟨push s h rfl fun _ => List.Sublist.refl _, rfl, by simp⟩

/-! ### The steps -/

theorem onEntry_split {f : IpEntry → IpEntry} {pre post : List IpEntry} {e : IpEntry}
    (he : e.ip = ip)
    (hpre : ∀ d ∈ pre, d.ip ≠ ip) : onEntry ip f (pre ++ e :: post) = pre ++ f e :: post := by
  induction pre with
  | nil => rw [nil_append, onEntry, if_pos he, nil_append]
  | cons d pre ih =>
    rw [cons_append, onEntry, if_neg (hpre d (by simp)), ih fun c hc =>
      hpre c (by simp [hc])]
    rfl

theorem Counted.onEntry (h : s.Counted) {f : IpEntry → IpEntry} (clients : List Address)
    (hip : ip ∈ (s.table (hashIp ip)).map IpEntry.ip) (hf : ∀ e, (f e).ip = e.ip)
    (hcount : ∀ e ∈ s.table (hashIp ip), e.ip = ip → (f e).count = clients.count ip)
    (hclients : ∀ other, other ≠ ip → clients.count other = s.clients.count other) :
    IpState.Counted { s with
      table := update s.table (hashIp ip) (IpState.onEntry ip f (s.table (hashIp ip)))
      clients := clients } := by
  obtain ⟨pre, e, post, hsplit, he, hpre, hpost⟩ := h.split hip
  have hchain : IpState.onEntry ip f (pre ++ e :: post) = pre ++ f e :: post :=
      onEntry_split he hpre
  rw [← hsplit] at hchain
  have hips : (IpState.onEntry ip f (s.table (hashIp ip))).map IpEntry.ip =
      (s.table (hashIp ip)).map IpEntry.ip := by
    rw [hchain, hsplit]
    simp [hf]
  have hmem : ∀ d ∈ IpState.onEntry ip f (s.table (hashIp ip)),
      d = f e ∨ d ∈ s.table (hashIp ip) ∧ d.ip ≠ ip := by
    intro d hd
    rw [hchain, mem_append, mem_cons] at hd
    rcases hd with hd | rfl | hd
    · exact .inr ⟨by rw [hsplit]; simp [hd], hpre d hd⟩
    · exact .inl rfl
    · exact .inr ⟨by rw [hsplit]; simp [hd], hpost d hd⟩
  have hemem : e ∈ s.table (hashIp ip) := by rw [hsplit]; simp
  refine h.bucket (hashIp_lt ip) rfl rfl (fun d hd => ?_) (hips ▸ h.once _) (fun d hd => ?_)
    (fun other hk => hclients other fun heq => hk (heq ▸ rfl)) (fun other hother hk => ?_) ?_
  · rcases hmem d hd with rfl | ⟨hd, -⟩
    · rw [hf, he]
    · exact h.placed _ d hd
  · rcases hmem d hd with rfl | ⟨hd, hne⟩
    · rw [hcount e hemem he, hf, he]
    · rw [h.counts _ d hd, hclients d.ip hne]
  · rw [hips]
    by_cases heq : other = ip
    · exact heq ▸ hip
    · rw [← hk]
      apply h.found
      rw [← count_pos_iff, ← hclients other heq]
      exact List.count_pos_iff.mpr hother
  · rw [hchain, hsplit]
    simp

theorem removeLoop_split (s : IpState) {pre post : List IpEntry} {e : IpEntry} (he : e.ip = ip)
    (hpre : ∀ d ∈ pre, d.ip ≠ ip) (hpost : ∀ d ∈ post, d.ip ≠ ip) :
    s.removeLoop ip [] none (pre ++ e :: post) =
      if s.expired { e with count := e.count - 1 } then (post, true)
      else (pre ++ { e with count := e.count - 1 } :: post, false) := by
  -- entries of other addresses are passed, wherever `last_ptr` stands
  have pass : ∀ (entries passed : List IpEntry) (last : Option (List IpEntry))
      (rest : List IpEntry),
      (∀ d ∈ entries, d.ip ≠ ip) → s.removeLoop ip passed last (entries ++ rest) =
        s.removeLoop ip (passed ++ entries) last rest := by
    intro entries
    induction entries with
    | nil => simp
    | cons d entries ih =>
      intro passed last rest hne
      rw [cons_append, removeLoop, if_pos (hne d (by simp)),
        ih _ _ _ fun c hc => hne c (by simp [hc])]
      simp
  rw [pass pre [] none (e :: post) hpre, nil_append, removeLoop]
  simp only [he, ne_eq, not_true_eq_false, if_false]
  split
  · rfl
  · have := pass post (pre ++ [{ e with count := e.count - 1 }])
      (some (pre ++ [{ e with count := e.count - 1 }])) [] hpost
    rw [append_nil, removeLoop] at this
    simpa [he] using this

theorem count_eraseIdx {l : List Address} {n : Nat} (h : l[n]? = some ip) (other : Address) :
    l.count other = (l.eraseIdx n).count other + if ip = other then 1 else 0 := by
  obtain ⟨hn, hget⟩ := List.getElem?_eq_some_iff.mp h
  have hperm := getElem_cons_eraseIdx_perm hn
  rw [hget] at hperm
  rw [← hperm.count_eq, count_cons]
  simp

theorem step_exit (limit : Int) {n : Nat} (hn : s.clients[n]? = some ip) {pre post : List IpEntry}
    {e : IpEntry}
    (hsplit : s.table (hashIp ip) = pre ++ e :: post) (he : e.ip = ip) (hpre : ∀ d ∈ pre, d.ip ≠ ip)
    (hpost : ∀ d ∈ post, d.ip ≠ ip) :
    s.step limit (.exit n) =
      if s.expired { e with count := e.count - 1 } then
        { s with
          table := update s.table (hashIp ip) post, entriesCount := s.entriesCount - 1
          clients := s.clients.eraseIdx n }
      else
        { s with
          table := update s.table (hashIp ip) (pre ++ { e with count := e.count - 1 } ::
            post)
          clients := s.clients.eraseIdx n } := by
  simp only [IpState.step, hn, removeOneIp, hsplit, removeLoop_split s he hpre hpost]
  cases s.expired { e with count := e.count - 1 } <;> rfl

theorem split_unique {l pre post pre' post' : List IpEntry} {e e' : IpEntry}
    (hsplit : l = pre ++ e :: post) (hpre : ∀ d ∈ pre, d.ip ≠ ip) (hpost : ∀ d ∈ post, d.ip ≠ ip)
    (hsplit' : l = pre' ++ e' :: post') (he' : e'.ip = ip) : pre' = pre ∧ e' = e := by
  rw [hsplit] at hsplit'
  rcases List.append_eq_append_iff.mp hsplit' with ⟨mid, hmid, htail⟩ | ⟨mid, hmid, htail⟩
  · cases mid with
    | nil =>
      rw [append_nil] at hmid
      rw [nil_append] at htail
      exact ⟨hmid, (List.cons.inj htail).1.symm⟩
    | cons d mid =>
      rw [cons_append] at htail
      obtain ⟨-, hpost'⟩ := List.cons.inj htail
      exact absurd he' (hpost e' (by rw [hpost']; simp))
  · cases mid with
    | nil =>
      rw [append_nil] at hmid
      rw [nil_append] at htail
      exact ⟨hmid.symm, (List.cons.inj htail).1⟩
    | cons d mid =>
      rw [cons_append] at htail
      obtain ⟨rfl, -⟩ := List.cons.inj htail
      exact absurd he' (hpre e' (by rw [hmid]; simp))

theorem Counted.exit (h : s.Counted) (limit : Int) {n : Nat} (hn : s.clients[n]? = some ip) :
    (s.FreesFirst (.exit n) → (s.step limit (.exit n)).Counted ∧ s.Framed limit (.exit n)) ∧
      (s.Framed limit (.exit n) → s.FreesFirst (.exit n)) := by
  have hmem : ip ∈ s.clients := mem_of_getElem? hn
  obtain ⟨pre, e, post, hsplit, he, hpre, hpost⟩ := h.split (h.found ip hmem)
  have hstep := step_exit limit hn hsplit he hpre hpost
  have hcount := count_eraseIdx hn
  have hemem : e ∈ s.table (hashIp ip) := by rw [hsplit]; simp
  have hpremem : ∀ d ∈ pre, d ∈ s.table (hashIp ip) := fun d hd => by rw [hsplit]; simp [hd]
  have hpostmem : ∀ d ∈ post, d ∈ s.table (hashIp ip) := fun d hd => by rw [hsplit]; simp [hd]
  have hecount : e.count = (s.clients.eraseIdx n).count ip + 1 := by
    have := hcount ip
    rw [if_pos rfl] at this
    rw [h.counts _ e hemem, he, this]
  have hothers : ∀ other, other ≠ ip →
      (s.clients.eraseIdx n).count other = s.clients.count other := by
    intro other hne
    have := hcount other
    rw [if_neg (Ne.symm hne), Nat.add_zero] at this
    exact this.symm
  have hsub : ∀ other ∈ s.clients.eraseIdx n, other ∈ s.clients := fun other hother =>
    mem_of_mem_eraseIdx hother
  have framed : ∀ {chain : List IpEntry} {t : IpState},
      t.table = update s.table (hashIp ip) chain →
      (∀ other, other ≠ ip → chain.filter (·.ip = other) =
        (s.table (hashIp ip)).filter (·.ip = other)) →
      ∀ other, other ≠ ip → ∀ i, (t.table i).filter (·.ip = other) =
        (s.table i).filter (·.ip = other) := by
    intro chain t ht hchain other hne i
    rw [ht]
    by_cases hi : i = hashIp ip
    · rw [hi, update_self]
      exact hchain other hne
    · rw [update_of_ne hi]
  cases hexp : s.expired { e with count := e.count - 1 } with
  | false =>
    rw [hexp, if_neg Bool.false_ne_true] at hstep
    refine ⟨fun _ => ⟨?_, ?_⟩, fun _ => ?_⟩
    · have hchain : IpState.onEntry ip (fun d => { d with count := d.count - 1 })
          (pre ++ e :: post) =
          pre ++ { e with count := e.count - 1 } :: post := onEntry_split he hpre
      rw [hstep, ← hchain, ← hsplit]
      refine h.onEntry _ (h.found ip hmem) (fun _ => rfl) (fun d hd hdip => ?_) hothers
      have := h.counts _ d hd
      rw [hdip, ← he, ← h.counts _ e hemem, hecount] at this
      simp [this]
    · intro ip' hip'
      obtain rfl := Option.some.inj (hn.symm.trans hip')
      rw [hstep]
      refine framed rfl fun other hne => ?_
      rw [hsplit, filter_append, filter_append, filter_cons, filter_cons]
      simp [he, Ne.symm hne]
    · intro ip' hip' pre' e' post' hsplit' he' hexp'
      obtain rfl := Option.some.inj (hn.symm.trans hip')
      obtain ⟨-, rfl⟩ := split_unique hsplit hpre hpost hsplit' he'
      rw [hexp] at hexp'
      cases hexp'
  | true =>
    rw [hexp, if_pos rfl] at hstep
    have hnone : (s.clients.eraseIdx n).count ip = 0 := by
      have : e.count - 1 = 0 := by
        simp only [expired, Bool.and_eq_true, beq_iff_eq] at hexp
        exact hexp.1
      omega
    refine ⟨fun hfirst => ?_, fun hframed => ?_⟩
    · obtain rfl : pre = [] := hfirst ip hn pre e post hsplit he hexp
      have honce := h.once (hashIp ip)
      rw [nil_append] at hsplit
      rw [hsplit, map_cons, nodup_cons] at honce
      refine ⟨?_, ?_⟩
      · rw [hstep]
        refine h.bucket (hashIp_lt ip) rfl rfl (fun d hd => h.placed _ d (hpostmem d hd)) honce.2
          (fun d hd => ?_) (fun other hk => hothers other fun heq => hk (heq ▸ rfl))
          (fun other hother hk => ?_) ?_
        · rw [h.counts _ d (hpostmem d hd), hothers d.ip (hpost d hd)]
        · have hne : other ≠ ip := by
            rintro rfl
            exact absurd hnone (Nat.ne_of_gt (List.count_pos_iff.mpr hother))
          have := h.found other (hsub other hother)
          rw [hk, hsplit, map_cons, mem_cons, he] at this
          exact this.resolve_left hne
        · rw [hsplit, length_cons]
          push_cast
          omega
      · intro ip' hip'
        obtain rfl := Option.some.inj (hn.symm.trans hip')
        rw [hstep]
        refine framed rfl fun other hne => ?_
        rw [hsplit, filter_cons]
        simp [he, Ne.symm hne]
    · intro ip' hip' pre' e' post' hsplit' he' _
      obtain rfl := Option.some.inj (hn.symm.trans hip')
      obtain ⟨rfl, rfl⟩ := split_unique hsplit hpre hpost hsplit' he'
      -- an entry cut off is the entry of another address
      by_contra hcut
      obtain ⟨d, pre, rfl⟩ := exists_cons_of_ne_nil hcut
      have hlost := hframed ip hn d.ip (hpre d (by simp)) (hashIp ip)
      rw [hstep] at hlost
      simp only [update_self] at hlost
      rw [hsplit] at hlost
      have honce := h.once (hashIp ip)
      rw [hsplit, cons_append, map_cons, nodup_cons] at honce
      have hpostne : ∀ c ∈ post, c.ip ≠ d.ip := fun c hc heq =>
        honce.1 (heq ▸ mem_map_of_mem (by simp [hc]))
      rw [filter_of_ne hpostne, cons_append, filter_cons] at hlost
      simp at hlost

theorem Counted.step (h : s.Counted) (limit : Int) (op : IpOp) :
    (s.FreesFirst op → (s.step limit op).Counted) ∧
      (s.Framed limit op ∧ (s.step limit op).Exact ↔ s.FreesFirst op) := by
  have other : (s.step limit op).Counted → s.Framed limit op → s.FreesFirst op →
      (s.FreesFirst op → (s.step limit op).Counted) ∧
        (s.Framed limit op ∧ (s.step limit op).Exact ↔ s.FreesFirst op) :=
    fun hcounted hframed hfirst =>
      ⟨fun _ => hcounted, fun _ => hfirst, fun _ => ⟨hframed, hcounted.exact⟩⟩
  cases op with
  | connect ip =>
    obtain ⟨hadd, hclients, hip⟩ := h.findOrAddIp limit ip
    exact other (hadd.onEntry _ hip (fun _ => rfl) (fun e he hip => hip ▸ hadd.counts _ e he)
      fun _ _ => rfl) trivial trivial
  | attach ip =>
    obtain ⟨hadd, hclients, hip⟩ := h.findOrAddIp limit ip
    refine other (hadd.onEntry (ip :: (s.findOrAddIp limit ip).clients) hip
      (fun _ => rfl) (fun e he hip => ?_) fun other hne => ?_) trivial trivial
    · have := hadd.counts _ e he
      rw [hip] at this
      rw [count_cons_self, ← this]
    · exact count_cons_of_ne (Ne.symm hne)
  | exit n =>
    cases hn : s.clients[n]? with
    | none =>
      have hstep : s.step limit (.exit n) = s := by simp only [IpState.step, hn]
      refine other (by rw [hstep]; exact h) (fun ip hip => ?_) fun ip hip => ?_
      · rw [hn] at hip
        cases hip
      · rw [hn] at hip
        cases hip
    | some ip =>
      obtain ⟨hgood, hfirst⟩ := h.exit limit hn
      exact ⟨fun hf => (hgood hf).1, fun hboth => hfirst hboth.1,
        fun hf => ⟨(hgood hf).2, (hgood hf).1.exact⟩⟩
  | collect => exact other h.garbageCollect.1 trivial trivial
  | clock currentTime throttleTime =>
    exact other ⟨h.placed, h.once, h.counts, h.found, h.total⟩ trivial trivial

theorem counted_start (currentTime throttleTime : Int) :
    IpState.Counted { currentTime := currentTime, throttleTime := throttleTime } :=
  ⟨fun _ _ he => absurd he not_mem_nil, fun _ => nodup_nil,
    fun _ _ he => absurd he not_mem_nil, fun _ hip => absurd hip not_mem_nil, by simp⟩

end IpState

/-- In a run from the empty table every step leaves the table right, and every
exit leaves the entries of other addresses alone, just when no exit frees an
entry that is not the first of its bucket. -/
theorem ip_table_exact (limit currentTime throttleTime : Int) (ops : List IpOp) :
    Run.Guarded (IpState.step limit)
        (fun s op => s.Framed limit op ∧ (s.step limit op).Exact)
        { currentTime := currentTime, throttleTime := throttleTime } ops ↔
      Run.Guarded (IpState.step limit) IpState.FreesFirst
        { currentTime := currentTime, throttleTime := throttleTime } ops :=
  Run.guarded_iff (fun _ op h => (h.step limit op).2)
    (fun _ op h => (h.step limit op).1) (IpState.counted_start currentTime throttleTime)

/-- Two addresses share a bucket and the one that came first leaves: the entry of
the other is lost with its client still there. -/
theorem ip_table_loses :
    ¬ Run.Guarded (IpState.step 1000)
      (fun s op => s.Framed 1000 op ∧ (s.step 1000 op).Exact)
      { currentTime := 100000, throttleTime := 10 }
      [.attach ⟨.inet, [10, 0, 0, 1]⟩, .attach ⟨.inet, [10, 0, 16, 0]⟩, .exit 1] := by
  rintro ⟨-, -, ⟨-, hexact⟩, -⟩
  obtain ⟨e, -, hentry⟩ := hexact.entry ⟨.inet, [10, 0, 16, 0]⟩ (by decide)
  have hbucket := hentry (hashIp ⟨.inet, [10, 0, 16, 0]⟩)
  rw [if_pos rfl] at hbucket
  have hlength := congrArg List.length hbucket
  rw [length_singleton] at hlength
  exact absurd hlength (by decide)

end Ircd
