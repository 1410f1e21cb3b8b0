import FlowMerge.Proofs.Matching.Ancestry
import FlowMerge.Proofs.Matching.Costs
import FlowMerge.Proofs.Matching.Promotion
import FlowMerge.Proofs.Script.Coverage

namespace FlowMerge

open FlowMerge.Tree Score

variable {t : Tree} {m : Matching} {x : NodeId}

namespace Script

theorem old?_clean_self (w : t.WellFormed) (h : ∀ x ∈ t.live, m.old? x = some x)
    (hone : m.OneToOne) (hx : x ∈ t.live) : (clean t t m).old? x = some x := by
  have hclean := clean_clean w w hone
  by_cases hr : x = root
  · rw [hr]
    exact hclean.roots
  have hatt : t.isAttached x = true := w.isAttached_iff.2 (w.mem_live.1 hx)
  have hkeep : (m.retain fun n o ↦ (n == root) == (o == root) && t.isAttached n &&
      t.isAttached o).old? x = some x := by
    simp [Matching.old?_retain, h x hx, hatt]
  have hfree : (m.retain fun n o ↦ (n == root) == (o == root) && t.isAttached n &&
      t.isAttached o).new? root ≠ some x := by
    intro hroot
    have hxr := ((hone.retain _) x root).2 hroot
    rw [hkeep] at hxr
    exact hr (Option.some_inj.1 hxr)
  rw [clean, Matching.linkRoots, Matching.old?_link, if_neg hr, if_neg hfree, hkeep]

theorem unchanged_self (w : t.WellFormed) (hm : Clean t t m)
    (h : ∀ x ∈ t.live, m.old? x = some x) : Unchanged t t m := by
  have hself {n o : NodeId} (hno : m.old? n = some o) : o = n :=
    Option.some_inj.1 (hno.symm.trans (h n (hm.live n o hno).1))
  constructor
  case hasNew =>
    intro n hn
    simp [Matching.hasNew, h n hn]
  case hasOld =>
    intro o ho
    exact hm.hasOld_iff.2 ⟨o, h o ho⟩
  case parents =>
    intro n o p hno hp
    obtain rfl := hself hno
    exact ⟨p, h p (w.parent_live (hm.live o o hno).1 hp), hp⟩
  case order =>
    intro x y p ox oy _ _ hx hy hlt
    rwa [hself hx, hself hy]
  case contents =>
    intro n o hno
    rw [hself hno]
    exact Content.same_refl _

end Script

namespace Config

/-- All algorithms but the one from the top down match a process with itself node by node. -/
theorem matchTrees_self (config : Config Rat) (hp : t.IsProcess)
    (hleaf : 0 < config.thresholds.leaf) (hinner : 0 < config.thresholds.inner)
    (halg : config.algorithm ≠ .topDown) :
    ∀ x ∈ t.live, (config.matchTrees t t).old? x = some x := by
  rw [matchTrees, Algorithm.matcher]
  cases ha : config.algorithm with
  | bucket => exact Matching.bucket_self hp (zero_lt hleaf) (zero_lt hinner)
  | path => exact Matching.path_self hp (zero_lt hleaf) (zero_lt hinner)
  | topDown => exact absurd ha halg
  | bottomUp => exact Matching.bottomUp_self hp hleaf hinner
  | exact =>
    obtain ⟨m, hm, hself⟩ := Matching.exact_self hp hleaf
    rwa [Algorithm.matcher?, hm]

end Config

namespace Diff

/-- A process and itself differ in nothing. -/
theorem ofTrees_self (config : Config Rat) (hp : t.IsProcess)
    (hleaf : 0 < config.thresholds.leaf) (hinner : 0 < config.thresholds.inner)
    (halg : config.algorithm ≠ .topDown) :
    (∀ x ∈ t.live, (config.matchTrees t t).areMatched x x = true) ∧
      (ofTrees config t t).script = [] := by
  have w := hp.wellFormed
  have hself := config.matchTrees_self hp hleaf hinner halg
  have hone := config.oneToOne_matchTrees t t
  have hclean := Script.clean_clean w w hone
  refine ⟨fun x hx ↦ by simp [Matching.areMatched, hself x hx], ?_⟩
  exact (Script.ofMatching_eq_nil_iff w w hclean).2
    (Script.unchanged_self w hclean fun x hx ↦ Script.old?_clean_self w hself hone hx)

def loopOfTwins : Tree :=
  .ofList { label := "description" }
    [(0, { label := "loop" }), (1, { label := "call" }), (2, { label := "parameters" }),
      (3, { label := "label", text := some "Pack" }), (1, { label := "call" }),
      (5, { label := "parameters" }), (6, { label := "label", text := some "Pack" })]

theorem ofTrees_self_loopOfTwins :
    let config : Config Rat := { thresholds := .standard, algorithm := .exact }
    loopOfTwins.IsProcess ∧ 0 < config.thresholds.leaf ∧ 0 < config.thresholds.inner ∧
      config.algorithm ≠ .topDown ∧
      (∀ x ∈ loopOfTwins.live, (config.matchTrees loopOfTwins loopOfTwins).areMatched x x = true) ∧
      (ofTrees config loopOfTwins loopOfTwins).script = [] := by
  intro config
  have hp : loopOfTwins.IsProcess := ⟨wellFormed_ofList _ _ (by decide), by decide, by decide⟩
  have hpos : (0 : Rat) < ratio 1 4 := by norm_num [ratio]
  have halg : config.algorithm ≠ .topDown := by decide
  exact ⟨hp, hpos, hpos, halg, ofTrees_self config hp hpos hpos halg⟩

end Diff

end FlowMerge
