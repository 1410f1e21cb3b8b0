import FlowMerge.Merge.Run
import FlowMerge.Proofs.Script.Filling

namespace FlowMerge.Script

open FlowMerge.Tree

variable {old new : Tree} {m : Matching}

theorem patched_derive (wo : old.WellFormed) (wn : new.WellFormed) (h : m.OneToOne) :
    ∃ d f, patch old (derive old new m) = .ok d ∧ Patched old new (clean old new m) f d :=
  patched_ofMatching wo wn (clean_clean wo wn h)

/-- A script turns the old tree into the new one. In particular those do that the program derives,
by whichever algorithm and thresholds. -/
theorem patch_derive (wo : old.WellFormed) (wn : new.WellFormed) (uo : old.Unambiguous)
    (un : new.Unambiguous) :
    (∀ m : Matching, m.OneToOne →
      ∃ d, patch old (derive old new m) = .ok d ∧ d.sameContent new = true) ∧
    ∀ {α : Type} [Score α] (config : Config α),
      ∃ d, Diff.deltaTree config old new = .ok d ∧ d.sameContent new = true := by
  have hround (m : Matching) (h : m.OneToOne) :
      ∃ d, patch old (derive old new m) = .ok d ∧ d.sameContent new = true := by
    obtain ⟨d, f, hd, hp⟩ := patched_derive wo wn h
    exact ⟨d, hd, (hp.mirrors uo un).sameContent wn hp.wellFormed⟩
  refine ⟨hround, fun config ↦ ?_⟩
  exact hround (config.matchTrees old new) (config.oneToOne_matchTrees old new)

def callThenLoop : Tree :=
  .ofList { label := "description" } [(0, { label := "call" }), (0, { label := "loop" })]

def callInLoop : Tree :=
  .ofList { label := "description" }
    [(0, { label := "loop" }), (1, { label := "choose" }), (2, { label := "call" })]

/-- Calls and loops are matched crosswise. -/
theorem patch_derive_callInLoop :
    (∃ d, patch callThenLoop (derive callThenLoop callInLoop (.link (.link .empty 1 1) 3 2)) =
      .ok d ∧ d.sameContent callInLoop = true) ∧
    ∃ d, Diff.deltaTree (Config.standard : Config Rat) callThenLoop callInLoop = .ok d ∧
      d.sameContent callInLoop = true := by
  have wo : callThenLoop.WellFormed := wellFormed_ofList _ _ (by decide)
  have wn : callInLoop.WellFormed := wellFormed_ofList _ _ (by decide)
  have h := patch_derive wo wn (by decide +kernel) (by decide +kernel)
  exact ⟨h.1 _ ((Matching.OneToOne.empty.link 1 1).link 3 2), h.2 _⟩

end FlowMerge.Script
