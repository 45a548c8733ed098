import Ircd.BanLists
import Ircd.ChannelMode

/-!
Which parameter of a MODE line each letter of the mode string uses up.

A letter that takes a parameter should take the next one, whatever becomes of it.
The functions of the letters give up in front of their parameter when the access is
too low, when `+e` or `+I` of a local client is disabled, and for masks when a local
client has made its four changes; the letters behind then get the parameters of
others (`aligned_iff`). For a source that is not local nothing of this applies
(`aligned_of_remote`).
-/

namespace Ircd

/-- Which parameter each letter of the mode string should use up. -/
def fairUses (parc : Nat) (modes : CStr) : List (LetterChange Nat) :=
  (readChanges modeTakes .add modes (List.range' 1 (parc - 1))).1

namespace ParamStore

variable {σ : Type} (P : ParamStore σ) (env : ModeEnv)

/-- Which parameter each letter uses up in a run. -/
def uses (s : σ × ModeState) : CStr → List (LetterChange Nat)
  | [] => []
  | c :: modes =>
    let s' := P.step env s c
    match signDir c with
    | some _ => uses s' modes
    | none =>
      ⟨s.2.dir, c, if s'.2.parn = s.2.parn then none else some s.2.parn⟩ :: uses s' modes

/-- A letter that takes a parameter comes as far as it when one is left. -/
def Fair (s : σ × ModeState) (c : Char) : Prop :=
  modeTakes s.2.dir c = true → s.2.parn < env.parc → s.2.Reaches env c

variable {P} {env}

theorem step_sign {s : σ × ModeState} {c : Char} {dir : ModeDir} (h : signDir c = some dir) :
    P.step env s c = (s.1, { s.2 with dir := dir, back := none }) := by
  simp [step, ModeState.modeStep, h]

theorem isSome_next {s : σ × ModeState} : (P.next env s).isSome = true ↔ s.2.parn < env.parc := by
  unfold next
  split <;> simp_all

theorem step_letter (P : ParamStore σ) (env : ModeEnv) (s : σ × ModeState) {c : Char}
    (h : signDir c = none) :
    (P.step env s c).2.dir = s.2.dir ∧ (P.step env s c).2.parn =
      if (modeTakes s.2.dir c = true ∧ s.2.parn < env.parc) ∧ s.2.Reaches env c then s.2.parn + 1
      else s.2.parn := by
  have hstep : (P.step env s c).2 =
      { s.2 with back := none }.chmLetter env (P.next env s) c := by
    simp [step, ModeState.modeStep, h]
  rw [hstep]
  refine ⟨ModeState.moves_chmLetter.dir, ?_⟩
  simp only [ModeState.parn_chmLetter, isSome_next]
  rfl

theorem modeTakes_sign {c : Char} {dir dir' : ModeDir} (h : signDir c = some dir) :
    modeTakes dir' c = false := by
  unfold signDir at h
  split at h
  · cases dir' <;> decide
  · cases dir' <;> decide
  · cases dir' <;> decide
  · cases h

theorem uses_eq_iff (s : σ × ModeState) (modes : CStr) :
    P.uses env s modes =
        (readChanges modeTakes s.2.dir modes (List.range' s.2.parn (env.parc - s.2.parn))).1 ↔
      Run.Guarded (P.step env) (Fair env) s modes := by
  induction modes generalizing s with
  | nil => simp [uses, readChanges, Run.Guarded]
  | cons c modes ih =>
    cases hsign : signDir c with
    | some dir =>
      have hfair : Fair env s c := by
        intro htakes
        rw [modeTakes_sign hsign] at htakes
        cases htakes
      have htail := ih (P.step env s c)
      simp only [step_sign hsign] at htail
      simp only [uses, readChanges, hsign, Run.Guarded, hfair, true_and, step_sign hsign]
      exact htail
    | none =>
      obtain ⟨hdir, hparn⟩ := step_letter P env s hsign
      have htail := ih (P.step env s c)
      simp only [uses, readChanges, hsign, Run.Guarded]
      by_cases htakes : modeTakes s.2.dir c = true ∧ s.2.parn < env.parc
      · have hrange : List.range' s.2.parn (env.parc - s.2.parn) =
            s.2.parn :: List.range' (s.2.parn + 1) (env.parc - (s.2.parn + 1)) := by
          obtain ⟨n, hn⟩ : ∃ n, env.parc - s.2.parn = n + 1 :=
            ⟨env.parc - s.2.parn - 1, by omega⟩
          have hn' : env.parc - (s.2.parn + 1) = n := by omega
          rw [hn, hn', List.range'_succ]
        by_cases hreaches : s.2.Reaches env c
        · have hfair : Fair env s c := fun _ _ => hreaches
          rw [if_pos ⟨htakes, hreaches⟩] at hparn
          rw [hparn, hdir] at htail
          simp only [hrange, htakes.1, if_true, List.tail_cons, List.head?_cons, hparn,
            if_neg (Nat.succ_ne_self s.2.parn), List.cons.injEq, true_and, hfair]
          exact htail
        · have hunfair : ¬Fair env s c := fun h => hreaches (h htakes.1 htakes.2)
          rw [if_neg fun h => hreaches h.2] at hparn
          simp [hrange, htakes.1, hparn, hunfair]
      · have hfair : Fair env s c := fun h hlt => absurd ⟨h, hlt⟩ htakes
        rw [if_neg fun h => htakes h.1] at hparn
        rw [hparn, hdir] at htail
        have hempty : modeTakes s.2.dir c = true →
            List.range' s.2.parn (env.parc - s.2.parn) = [] := by
          intro h
          have hle : ¬s.2.parn < env.parc := fun hlt => htakes ⟨h, hlt⟩
          have hzero : env.parc - s.2.parn = 0 := by omega
          rw [hzero]
          rfl
        have hnone : (if modeTakes s.2.dir c = true then
            (List.range' s.2.parn (env.parc - s.2.parn)).head? else none) = none := by
          split
          · rw [hempty ‹_›]
            rfl
          · rfl
        have hrest : (if modeTakes s.2.dir c = true then
            (List.range' s.2.parn (env.parc - s.2.parn)).tail else
            List.range' s.2.parn (env.parc - s.2.parn)) =
            List.range' s.2.parn (env.parc - s.2.parn) := by
          split
          · rw [hempty ‹_›]
            rfl
          · rfl
        simp only [hnone, hrest, hparn, if_true, List.cons.injEq, true_and, hfair]
        exact htail

/-- When each letter of a MODE uses up the parameter that the letters and directions
before it leave for it. -/
theorem aligned_iff (P : ParamStore σ) (env : ModeEnv) (chptr : Channel) (params : σ)
    (modes : CStr) :
    P.uses env (params, { chptr := chptr }) modes = fairUses env.parc modes ↔
      Run.Guarded (P.step env) (Fair env) (params, { chptr := chptr }) modes :=
  uses_eq_iff _ modes

/-- A command of a local channel operator with this number of parameters. -/
def opEnv (parc : Nat) : ModeEnv where
  cf := roomyConfig
  now := 1000000000
  dir := ⟨fun _ => localSource, fun _ => none, fun _ => some 0, fun _ => none, fun _ => none⟩
  client := 0
  source := 0
  alev := .chanop
  parc := parc

def opRoom : Channel := { (default : Channel) with members := [⟨0, {.chanop}, true⟩] }

/-- `+bbbbbk` and five masks. -/
def fiveMasks : List CStr :=
  ["+bbbbbk".toList, "a!*@*".toList, "b!*@*".toList, "c!*@*".toList, "d!*@*".toList,
    "e!*@*".toList]

/-- The fifth ban is one too many for a local client, and gives up in front of its
mask, which becomes the key of the channel. -/
theorem fifth_ban_is_key :
    getChannelAccess localSource opRoom.members.head? = (opEnv 6).alev ∧
      textStore.uses (opEnv 6) (fiveMasks, { chptr := opRoom }) "+bbbbbk".toList ≠
        fairUses 6 "+bbbbbk".toList ∧
      (textStore.setChannelMode (opEnv 6) opRoom fiveMasks "+bbbbbk".toList).2.chptr.mode.key =
        "e!*@*".toList := by
  decide +kernel

end ParamStore

end Ircd
