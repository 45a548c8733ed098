import Mathlib.Combinatorics.SimpleGraph.Acyclic

/-!
Routes through a network without cycles.

A route is the list of the places that something passes. It crosses each link at most once
exactly when it never goes back where it came from, and then it comes to each place at most
once.
-/

namespace TreeRoute

variable {V : Type*}

def crossed : List V → List (Sym2 V)
  | a :: b :: l => s(a, b) :: crossed (b :: l)
  | _ => []

/-- From no place does the route go back to the one before. -/
def Onward : List V → Prop
  | a :: b :: c :: l => a ≠ c ∧ Onward (b :: c :: l)
  | _ => True

@[simp] theorem crossed_cons_cons (a b : V) (l : List V) :
    crossed (a :: b :: l) = s(a, b) :: crossed (b :: l) := rfl

theorem onward_cons_cons_cons {a b c : V} {l : List V} :
    Onward (a :: b :: c :: l) ↔ a ≠ c ∧ Onward (b :: c :: l) := Iff.rfl

variable {G : SimpleGraph V}

theorem exists_walk {a : V} {l : List V} (h : (a :: l).IsChain G.Adj) :
    ∃ b, ∃ p : G.Walk a b, p.edges = crossed (a :: l) ∧ p.support = a :: l := by
  induction l generalizing a with
  | nil => exact ⟨a, .nil, rfl, rfl⟩
  | cons c l ih =>
    obtain ⟨hadj, htail⟩ := List.isChain_cons_cons.mp h
    obtain ⟨b, p, hedges, hsupport⟩ := ih htail
    refine ⟨b, .cons hadj p, ?_, ?_⟩
    · rw [SimpleGraph.Walk.edges_cons, hedges, crossed_cons_cons]
    · rw [SimpleGraph.Walk.support_cons, hsupport]

theorem isChain_crossed_iff {l : List V} (h : l.IsChain G.Adj) :
    (crossed l).IsChain (· ≠ ·) ↔ Onward l := by
  induction l with
  | nil => exact iff_of_true .nil trivial
  | cons a l ih =>
    cases l with
    | nil => exact iff_of_true .nil trivial
    | cons b l =>
      cases l with
      | nil => exact iff_of_true (.singleton _) trivial
      | cons c l =>
        obtain ⟨hadj, htail⟩ := List.isChain_cons_cons.mp h
        have hback : s(a, b) ≠ s(b, c) ↔ a ≠ c := by
          rw [Sym2.eq_swap, Ne, Sym2.congr_right]
        rw [crossed_cons_cons, crossed_cons_cons, List.isChain_cons_cons, hback,
          ← crossed_cons_cons, ih htail, onward_cons_cons_cons]

theorem nodup_crossed_iff (hG : G.IsAcyclic) {l : List V} (h : l.IsChain G.Adj) :
    (crossed l).Nodup ↔ Onward l := by
  cases l with
  | nil => exact iff_of_true List.nodup_nil trivial
  | cons a l =>
    obtain ⟨b, p, hedges, -⟩ := exists_walk h
    rw [← isChain_crossed_iff h, ← hedges, ← hG.isPath_iff_isChain, hG.isPath_iff_isTrail,
      SimpleGraph.Walk.isTrail_def]

theorem nodup_iff (hG : G.IsAcyclic) {l : List V} (h : l.IsChain G.Adj) :
    l.Nodup ↔ Onward l := by
  cases l with
  | nil => exact iff_of_true List.nodup_nil trivial
  | cons a l =>
    obtain ⟨b, p, hedges, hsupport⟩ := exists_walk h
    rw [← isChain_crossed_iff h, ← hedges, ← hG.isPath_iff_isChain,
      SimpleGraph.Walk.isPath_def, hsupport]

end TreeRoute
