import Ircd.Text
import Ircd.Lib.Run
import Mathlib.Data.Fintype.Basic
import Mathlib.Data.List.FinRange
import Mathlib.Logic.Function.Basic

/-!
The table of events and `event_time_min`, the time the main loop waits for.

`event_time_min` is a minimum that is computed when it is asked for and kept afterwards.
Adding an event while it is unknown takes the time of that event for the minimum, and
setting the events back leaves it where it was. A run keeps it right exactly if neither
happens while it matters (`event_time_min_right_iff`).
-/

namespace Ircd

open Function

/-! ### The table -/

def MAX_EVENTS : Nat := 50

/-- An entry; functions and arguments are addresses, `0` for `NULL`. -/
structure EvEntry where
  func : Nat
  arg : Nat
  name : Option CStr
  frequency : Nat
  when : Nat
  active : Bool
  deriving DecidableEq, Repr

/-- `event_table`, `event_time_min` with `none` for -1, `last_event_ran` and `CurrentTime`. -/
structure EvState where
  table : Fin MAX_EVENTS → EvEntry
  timeMin : Option Nat
  lastRan : Option CStr
  now : Nat

/-- The indices in the order of the loops. -/
def evSlots : List (Fin MAX_EVENTS) := List.finRange MAX_EVENTS

/-- A time is taken for the minimum if it is earlier, or if that is unknown. -/
def lowerMin (min : Option Nat) (t : Nat) : Option Nat :=
  match min with
  | none => some t
  | some m => if t < m then some t else some m

def EvState.free (s : EvState) : Option (Fin MAX_EVENTS) :=
  evSlots.find? fun i => !(s.table i).active

/-- `eventAdd`. -/
def eventAdd (s : EvState) (name : CStr) (func arg frequency : Nat) : EvState :=
  match s.free with
  | none => s
  | some i =>
    let entry : EvEntry := ⟨func, arg, some name, frequency, s.now + frequency, true⟩
    { s with
      table := update s.table i entry
      timeMin := lowerMin s.timeMin (s.now + frequency) }

/-- The frequency that `eventAddIsh` asks for, by what `rand` returns. -/
def ishFrequency (rand delta : Nat) : Nat :=
  if 3 ≤ delta then 2 * delta / 3 + rand % 1000 * (2 * delta / 3) / 1000 else delta

/-- `eventAddIsh`. -/
def eventAddIsh (s : EvState) (name : CStr) (func arg delta rand : Nat) : EvState :=
  eventAdd s name func arg (ishFrequency rand delta)

/-- `eventFind`. -/
def eventFind (s : EvState) (func arg : Nat) : Option (Fin MAX_EVENTS) :=
  evSlots.find? fun i =>
    (s.table i).func == func && (s.table i).arg == arg && (s.table i).active

/-- `eventDelete`. -/
def eventDelete (s : EvState) (func arg : Nat) : EvState :=
  match eventFind s func arg with
  | none => s
  | some i =>
    let entry : EvEntry := { s.table i with func := 0, arg := 0, name := none, active := false }
    { s with table := update s.table i entry }

/-- What the function of an event can do to the table. -/
inductive TableOp
  | add (name : CStr) (func arg frequency : Nat)
  | addIsh (name : CStr) (func arg delta rand : Nat)
  | delete (func arg : Nat)

def EvState.apply (s : EvState) : TableOp → EvState
  | .add name func arg frequency => eventAdd s name func arg frequency
  | .addIsh name func arg delta rand => eventAddIsh s name func arg delta rand
  | .delete func arg => eventDelete s func arg

/-- A call of the function of an event. -/
structure EvCall where
  slot : Fin MAX_EVENTS
  func : Nat
  arg : Nat
  deriving DecidableEq, Repr

/-- A turn of the loop of `eventRun`, with what the function called at each index does, and
the calls made so far. -/
def runSlot (does : Fin MAX_EVENTS → List TableOp) (run : EvState × List EvCall)
    (i : Fin MAX_EVENTS) : EvState × List EvCall :=
  if (run.1.table i).active ∧ (run.1.table i).when ≤ run.1.now then
    let call : EvCall := ⟨i, (run.1.table i).func, (run.1.table i).arg⟩
    let s := (does i).foldl EvState.apply { run.1 with lastRan := (run.1.table i).name }
    let entry : EvEntry := { s.table i with when := s.now + (s.table i).frequency }
    ({ s with table := update s.table i entry, timeMin := none }, run.2 ++ [call])
  else run

/-- `eventRun`, with the calls it makes. -/
def eventRun (does : Fin MAX_EVENTS → List TableOp) (s : EvState) : EvState × List EvCall :=
  evSlots.foldl (runSlot does) (s, [])

/-- `eventNextTime`; its result is `event_time_min` afterwards. -/
def eventNextTime (s : EvState) : EvState :=
  match s.timeMin with
  | some _ => s
  | none =>
    let lower := fun min i =>
      if (s.table i).active then lowerMin min (s.table i).when else min
    { s with timeMin := evSlots.foldl lower none }

/-- `set_back_events`. -/
def setBackEvents (s : EvState) (back : Nat) : EvState :=
  let shift := fun entry : EvEntry =>
    { entry with when := if back < entry.when then entry.when - back else 0 }
  { s with table := fun i => shift (s.table i) }

def EvState.setClock (s : EvState) (now : Nat) : EvState := { s with now := now }

/-- An operation of a run. -/
inductive EventOp
  | table (op : TableOp)
  | run (does : Fin MAX_EVENTS → List TableOp)
  | nextTime
  | setBack (back : Nat)
  | clock (now : Nat)

def EvState.step (s : EvState) : EventOp → EvState
  | .table op => s.apply op
  | .run does => (eventRun does s).1
  | .nextTime => eventNextTime s
  | .setBack back => setBackEvents s back
  | .clock now => s.setClock now

def evStart (now : Nat) : EvState :=
  ⟨fun _ => ⟨0, 0, none, 0, 0, false⟩, none, none, now⟩

/-! ### What should hold -/

/-- `event_time_min` is -1 or not later than any active event. -/
def MinRight (s : EvState) : Prop :=
  ∀ t, s.timeMin = some t → ∀ i, (s.table i).active → t ≤ (s.table i).when

/-- `eventNextTime` does not name a time after an active event. -/
def NeverLate (s : EvState) : Prop :=
  ∀ i, (s.table i).active → ∃ t, (eventNextTime s).timeMin = some t ∧ t ≤ (s.table i).when

/-- `eventRun` calls every active event that is due, unless one that it calls deletes it. -/
def RunsDue (s : EvState) : Prop :=
  ∀ does i, (s.table i).active → (s.table i).when ≤ s.now →
    ⟨i, (s.table i).func, (s.table i).arg⟩ ∈ (eventRun does s).2 ∨
      ∃ call ∈ (eventRun does s).2,
        TableOp.delete (s.table i).func (s.table i).arg ∈ does call.slot

/-- An event may be added while `event_time_min` is -1 if no active one is earlier, or if
the table is full. -/
def AddsRight (s : EvState) (frequency : Nat) : Prop :=
  s.timeMin = none → s.free ≠ none → ∀ i, (s.table i).active → s.now + frequency ≤ (s.table i).when

/-- The events may be set back if none of the active ones gets before `event_time_min`. -/
def SetsBackRight (s : EvState) (back : Nat) : Prop :=
  ∀ t, s.timeMin = some t → ∀ i, (s.table i).active → t ≤ (s.table i).when - back

/-- The operations that keep `event_time_min` right. -/
def KeepsMin (s : EvState) : EventOp → Prop
  | .table (.add _ _ _ frequency) => AddsRight s frequency
  | .table (.addIsh _ _ _ delta rand) => AddsRight s (ishFrequency rand delta)
  | .setBack back => SetsBackRight s back
  | _ => True

/-! ### One operation -/

theorem lowerMin_le {min : Option Nat} {t u : Nat} (h : lowerMin min t = some u) : u ≤ t := by
  unfold lowerMin at h
  split at h
  · exact Nat.le_of_eq (Option.some.inj h).symm
  · split at h
    · exact Nat.le_of_eq (Option.some.inj h).symm
    · obtain rfl := Option.some.inj h
      omega

theorem lowerMin_le_of_some {m t u : Nat} (h : lowerMin (some m) t = some u) : u ≤ m := by
  unfold lowerMin at h
  dsimp only at h
  split at h <;> obtain rfl := Option.some.inj h <;> omega

theorem isSome_lowerMin (min : Option Nat) (t : Nat) : (lowerMin min t).isSome := by
  unfold lowerMin
  split
  · rfl
  · split <;> rfl

theorem EvState.free_inactive {s : EvState} {i : Fin MAX_EVENTS} (h : s.free = some i) :
    (s.table i).active = false := by
  have hfound := List.find?_some h
  simpa using hfound

theorem minRight_eventAdd_iff {s : EvState} (h : MinRight s) (name : CStr)
    (func arg frequency : Nat) :
    MinRight (eventAdd s name func arg frequency) ↔ AddsRight s frequency := by
  unfold eventAdd AddsRight
  cases hfree : s.free with
  | none => exact iff_of_true h fun _ hne => absurd rfl hne
  | some i =>
    have hinactive := EvState.free_inactive hfree
    have hother : ∀ j, (s.table j).active → j ≠ i := by
      rintro j hj rfl
      rw [hinactive] at hj
      cases hj
    constructor
    · intro hright hmin _ j hj
      have hkept := hright (s.now + frequency) (by rw [hmin]; rfl) j
      dsimp only at hkept
      rw [update_of_ne (hother j hj)] at hkept
      exact hkept hj
    · intro hadds t ht j hj
      dsimp only at ht hj ⊢
      by_cases hji : j = i
      · subst hji
        rw [update_self]
        exact lowerMin_le ht
      · rw [update_of_ne hji] at hj ⊢
        cases hmin : s.timeMin with
        | none =>
          have hle := hadds hmin (by simp) j hj
          exact (lowerMin_le ht).trans hle
        | some m =>
          rw [hmin] at ht
          exact (lowerMin_le_of_some ht).trans (h m hmin j hj)

theorem minRight_eventDelete {s : EvState} (h : MinRight s) (func arg : Nat) :
    MinRight (eventDelete s func arg) := by
  unfold eventDelete
  split
  · exact h
  · next i _ =>
      intro t ht j hj
      dsimp only at ht hj ⊢
      by_cases hji : j = i
      · subst hji
        rw [update_self] at hj
        cases hj
      · rw [update_of_ne hji] at hj ⊢
        exact h t ht j hj

theorem minRight_setBackEvents_iff (s : EvState) (back : Nat) :
    MinRight (setBackEvents s back) ↔ SetsBackRight s back := by
  have hwhen : ∀ i, ((setBackEvents s back).table i).when = (s.table i).when - back := by
    intro i
    dsimp only [setBackEvents]
    split <;> omega
  constructor
  · intro h t ht i hi
    have hle := h t ht i hi
    rwa [hwhen] at hle
  · intro h t ht i hi
    rw [hwhen]
    exact h t ht i hi

theorem minRight_eventRun {s : EvState} (h : MinRight s) (does : Fin MAX_EVENTS → List TableOp) :
    MinRight (eventRun does s).1 := by
  have hloop : ∀ (l : List (Fin MAX_EVENTS)) (run : EvState × List EvCall), MinRight run.1 →
      MinRight (l.foldl (runSlot does) run).1 := by
    intro l
    induction l with
    | nil => exact fun run h => h
    | cons i l ih =>
      intro run h
      apply ih
      unfold runSlot
      split
      · intro t ht
        cases ht
      · exact h
  exact hloop evSlots (s, []) h

theorem foldl_lower (s : EvState) (l : List (Fin MAX_EVENTS)) (min : Option Nat) :
    let found := l.foldl
      (fun min i => if (s.table i).active then lowerMin min (s.table i).when else min) min
    (∀ m, min = some m → ∃ t, found = some t ∧ t ≤ m) ∧
      ∀ i ∈ l, (s.table i).active → ∃ t, found = some t ∧ t ≤ (s.table i).when := by
  induction l generalizing min with
  | nil => exact ⟨fun m hm => ⟨m, hm, Nat.le_refl m⟩, by simp⟩
  | cons i l ih =>
    dsimp only [List.foldl_cons]
    by_cases hi : (s.table i).active = true
    · rw [if_pos hi]
      obtain ⟨hmin, hmem⟩ := ih (lowerMin min (s.table i).when)
      obtain ⟨m', hm'⟩ := Option.isSome_iff_exists.mp (isSome_lowerMin min (s.table i).when)
      obtain ⟨t, ht, hle⟩ := hmin m' hm'
      refine ⟨?_, List.forall_mem_cons.mpr ⟨?_, hmem⟩⟩
      · rintro m rfl
        exact ⟨t, ht, hle.trans (lowerMin_le_of_some hm')⟩
      · exact fun _ => ⟨t, ht, hle.trans (lowerMin_le hm')⟩
    · rw [if_neg hi]
      obtain ⟨hmin, hmem⟩ := ih min
      exact ⟨hmin, List.forall_mem_cons.mpr ⟨fun h => absurd h hi, hmem⟩⟩

theorem mem_evSlots (i : Fin MAX_EVENTS) : i ∈ evSlots := List.mem_finRange i

theorem MinRight.neverLate {s : EvState} (h : MinRight s) : NeverLate s := by
  intro i hi
  unfold eventNextTime
  cases hmin : s.timeMin with
  | some t => exact ⟨t, hmin, h t hmin i hi⟩
  | none => exact (foldl_lower s evSlots none).2 i (mem_evSlots i) hi

theorem minRight_eventNextTime {s : EvState} (h : MinRight s) : MinRight (eventNextTime s) := by
  have htable : (eventNextTime s).table = s.table := by
    unfold eventNextTime
    split <;> rfl
  intro t ht i hi
  rw [htable] at hi ⊢
  obtain ⟨t', ht', hle⟩ := h.neverLate i hi
  obtain rfl := Option.some.inj (ht'.symm.trans ht)
  exact hle

/-! ### `eventRun` -/

theorem apply_table {s : EvState} {i : Fin MAX_EVENTS} (hi : (s.table i).active) (op : TableOp) :
    (s.apply op).table i = s.table i ∨ op = .delete (s.table i).func (s.table i).arg := by
  have hadd : ∀ name func arg frequency,
      (eventAdd s name func arg frequency).table i = s.table i := by
    intro name func arg frequency
    unfold eventAdd
    cases hfree : s.free with
    | none => rfl
    | some j =>
      have hne : i ≠ j := by
        rintro rfl
        rw [EvState.free_inactive hfree] at hi
        cases hi
      exact update_of_ne hne _ _
  cases op with
  | add name func arg frequency => exact Or.inl (hadd name func arg frequency)
  | addIsh name func arg delta rand => exact Or.inl (hadd name func arg _)
  | delete func arg =>
    dsimp only [EvState.apply, eventDelete]
    cases hfind : eventFind s func arg with
    | none => exact Or.inl rfl
    | some j =>
      by_cases hij : i = j
      · subst hij
        have hfound := List.find?_some hfind
        simp only [Bool.and_eq_true, beq_iff_eq] at hfound
        exact Or.inr (by rw [hfound.1.1, hfound.1.2])
      · exact Or.inl (update_of_ne hij _ _)

theorem apply_now (s : EvState) (op : TableOp) : (s.apply op).now = s.now := by
  have hadd : ∀ name func arg frequency, (eventAdd s name func arg frequency).now = s.now := by
    intro name func arg frequency
    unfold eventAdd
    split <;> rfl
  cases op with
  | add name func arg frequency => exact hadd name func arg frequency
  | addIsh name func arg delta rand => exact hadd name func arg _
  | delete func arg =>
    dsimp only [EvState.apply, eventDelete]
    split <;> rfl

theorem foldl_apply {s : EvState} {i : Fin MAX_EVENTS} (hi : (s.table i).active)
    (ops : List TableOp) :
    (ops.foldl EvState.apply s).now = s.now ∧
      ((ops.foldl EvState.apply s).table i = s.table i ∨
        .delete (s.table i).func (s.table i).arg ∈ ops) := by
  induction ops generalizing s with
  | nil => exact ⟨rfl, Or.inl rfl⟩
  | cons op ops ih =>
    have hnow : ∀ (ops : List TableOp) (s : EvState), (ops.foldl EvState.apply s).now = s.now := by
      intro ops
      induction ops with
      | nil => exact fun s => rfl
      | cons op ops ih => exact fun s => (ih (s.apply op)).trans (apply_now s op)
    refine ⟨hnow (op :: ops) s, ?_⟩
    obtain hsame | hdelete := apply_table hi op
    · obtain ⟨-, hrest⟩ := ih (s := s.apply op) (by rw [hsame]; exact hi)
      rw [hsame] at hrest
      exact hrest.imp id (List.mem_cons_of_mem op)
    · exact Or.inr (hdelete ▸ List.mem_cons_self)

theorem mem_foldl_runSlot {does : Fin MAX_EVENTS → List TableOp} {call : EvCall}
    (l : List (Fin MAX_EVENTS)) {run : EvState × List EvCall} (h : call ∈ run.2) :
    call ∈ (l.foldl (runSlot does) run).2 := by
  induction l generalizing run with
  | nil => exact h
  | cons i l ih =>
    apply ih
    unfold runSlot
    split
    · exact List.mem_append_left _ h
    · exact h

theorem foldl_runSlot_due (does : Fin MAX_EVENTS → List TableOp) {i : Fin MAX_EVENTS} {e : EvEntry}
    (hactive : e.active) (l : List (Fin MAX_EVENTS)) (hi : i ∈ l) (run : EvState × List EvCall)
    (he : run.1.table i = e) (hdue : e.when ≤ run.1.now) :
    ⟨i, e.func, e.arg⟩ ∈ (l.foldl (runSlot does) run).2 ∨
      ∃ call ∈ (l.foldl (runSlot does) run).2, .delete e.func e.arg ∈ does call.slot := by
  induction l generalizing run with
  | nil => cases hi
  | cons j l ih =>
    rw [List.foldl_cons]
    by_cases hj : (run.1.table j).active ∧ (run.1.table j).when ≤ run.1.now
    · have hcall : ⟨j, (run.1.table j).func, (run.1.table j).arg⟩ ∈ (runSlot does run j).2 := by
        rw [runSlot, if_pos hj]
        exact List.mem_append_right _ List.mem_cons_self
      by_cases hji : j = i
      · subst hji
        rw [he] at hcall
        exact Or.inl (mem_foldl_runSlot l hcall)
      · obtain ⟨hnow, hsame | hdelete⟩ := foldl_apply (i := i)
          (s := { run.1 with lastRan := (run.1.table j).name })
          (by dsimp only; rw [he]; exact hactive) (does j)
        · have hmem := (List.mem_cons.mp hi).resolve_left (Ne.symm hji)
          refine ih hmem (runSlot does run j) ?_ ?_
          · rw [runSlot, if_pos hj]
            dsimp only
            rw [update_of_ne (Ne.symm hji)]
            exact hsame.trans he
          · rw [runSlot, if_pos hj]
            dsimp only
            exact hdue.trans (Nat.le_of_eq hnow.symm)
        · dsimp only at hdelete
          rw [he] at hdelete
          exact Or.inr ⟨_, mem_foldl_runSlot l hcall, hdelete⟩
    · have hstays : runSlot does run j = run := by rw [runSlot, if_neg hj]
      have hne : i ≠ j := by
        rintro rfl
        exact hj ⟨he ▸ hactive, he ▸ hdue⟩
      rw [hstays]
      exact ih ((List.mem_cons.mp hi).resolve_left hne) run he hdue

theorem runsDue (s : EvState) : RunsDue s := fun does i hactive hdue =>
  foldl_runSlot_due does hactive evSlots (mem_evSlots i) (s, []) rfl hdue

/-! ### Runs -/

theorem minRight_step_iff {s : EvState} (h : MinRight s) (op : EventOp) :
    MinRight (s.step op) ↔ KeepsMin s op := by
  cases op with
  | table op =>
    cases op with
    | add name func arg frequency => exact minRight_eventAdd_iff h name func arg frequency
    | addIsh name func arg delta rand => exact minRight_eventAdd_iff h name func arg _
    | delete func arg => exact iff_of_true (minRight_eventDelete h func arg) trivial
  | run does => exact iff_of_true (minRight_eventRun h does) trivial
  | nextTime => exact iff_of_true (minRight_eventNextTime h) trivial
  | setBack back => exact minRight_setBackEvents_iff s back
  | clock now => exact iff_of_true h trivial

/-- In every state on the way the minimum is right, `eventNextTime` is not late and
`eventRun` calls what is due. -/
def NeverOversleeps (now : Nat) (ops : List EventOp) : Prop :=
  ∀ before, before <+: ops →
    MinRight (Run.exec EvState.step (evStart now) before) ∧
      NeverLate (Run.exec EvState.step (evStart now) before) ∧
      RunsDue (Run.exec EvState.step (evStart now) before)

/-- A run never oversleeps exactly if each of its operations keeps the minimum right. -/
theorem event_time_min_right_iff (now : Nat) (ops : List EventOp) :
    NeverOversleeps now ops ↔ Run.Guarded EvState.step KeepsMin (evStart now) ops := by
  have hstart : MinRight (evStart now) := by
    intro t ht
    cases ht
  have hruns : (∀ before, before <+: ops → MinRight (Run.exec EvState.step (evStart now) before) ∧
      ∀ op, before.getLast? = some op → True) ↔
      Run.Guarded EvState.step KeepsMin (evStart now) ops :=
    Run.prefixes_iff_guarded MinRight (fun _ _ => True)
      (fun s op h hok => (minRight_step_iff h op).mpr hok) (fun s h => h)
      (fun _ _ _ _ => trivial)
      (fun s op h hok hright => hok ((minRight_step_iff h op).mp hright)) hstart
  rw [← hruns]
  constructor
  · exact fun h before hbefore => ⟨(h before hbefore).1, fun _ _ => trivial⟩
  · intro h before hbefore
    have hright := (h before hbefore).1
    exact ⟨hright, hright.neverLate, runsDue _⟩

/-- An event every five seconds, whose time is asked for, before the clock goes back by an
hour. -/
def setBackRun : List EventOp :=
  [.table (.add "check_pings".toList 1 0 5), .nextTime, .setBack 3600, .clock 400]

/-- The event is due after five seconds, and the main loop waits for an hour longer. -/
theorem set_back_oversleeps :
    ¬NeverOversleeps 4000 setBackRun ∧
      (eventNextTime (Run.exec EvState.step (evStart 4000) setBackRun)).timeMin = some 4005 ∧
      ((Run.exec EvState.step (evStart 4000) setBackRun).table ⟨0, by decide⟩).when = 405 := by
  refine ⟨fun h => ?_, by decide +kernel, by decide +kernel⟩
  have hle := (h setBackRun List.prefix_rfl).1 4005 (by decide +kernel) ⟨0, by decide⟩
    (by decide +kernel)
  revert hle
  decide +kernel

end Ircd
