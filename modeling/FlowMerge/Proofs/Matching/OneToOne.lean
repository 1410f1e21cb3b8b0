import FlowMerge.Proofs.Matching.Passes
import Mathlib.Tactic.ByContra

namespace FlowMerge

namespace Matching

variable {α : Type} [Score α] {m : Matching} {n o n' o' : NodeId} {old new : Tree}
  {measure : Comparator α} {threshold : α} {thresholds : Thresholds α}

/-- No node is tied twice, and both directions tell the same pairs. -/
def OneToOne (m : Matching) : Prop := ∀ n o, m.old? n = some o ↔ m.new? o = some n

theorem hasNew_eq_false : m.hasNew n = false ↔ m.old? n = none := by
  rw [hasNew, Option.isSome_eq_false_iff, Option.isNone_iff_eq_none]

theorem hasOld_eq_false : m.hasOld o = false ↔ m.new? o = none := by
  rw [hasOld, Option.isSome_eq_false_iff, Option.isNone_iff_eq_none]

theorem getElem?_insert_nat (t : Std.TreeMap NodeId NodeId) (k v x : NodeId) :
    (t.insert k v)[x]? = if x = k then some v else t[x]? := by
  rw [Std.TreeMap.getElem?_insert]
  simp only [Nat.compare_eq_eq, eq_comm (a := k)]

theorem getElem?_erase_nat (t : Std.TreeMap NodeId NodeId) (k x : NodeId) :
    (t.erase k)[x]? = if x = k then none else t[x]? := by
  rw [Std.TreeMap.getElem?_erase]
  simp only [Nat.compare_eq_eq, eq_comm (a := k)]

theorem getElem?_eraseIfOther (keep : NodeId) (t : Std.TreeMap NodeId NodeId) (e : Option NodeId)
    (x : NodeId) :
    (eraseIfOther keep t e)[x]? = if e = some x ∧ x ≠ keep then none else t[x]? := by
  cases e with
  | none => simp [eraseIfOther]
  | some k =>
    rw [eraseIfOther]
    split
    · next h =>
      rw [if_neg]
      rintro ⟨hx, hne⟩
      exact hne ((Option.some_inj.1 hx).symm.trans h)
    · next h =>
      rw [getElem?_erase_nat]
      by_cases hx : x = k
      · rw [if_pos hx, if_pos ⟨congrArg some hx.symm, hx ▸ h⟩]
      · rw [if_neg hx, if_neg]
        rintro ⟨he, -⟩
        exact hx (Option.some_inj.1 he).symm

theorem old?_link (m : Matching) (n o n' : NodeId) : (m.link n o).old? n' =
    if n' = n then some o else if m.new? o = some n' then none else m.old? n' := by
  have h : (m.link n o).old? n' =
      (eraseIfOther n (m.toOld.insert n o) (m.new? o))[n']? := rfl
  rw [h, getElem?_eraseIfOther, getElem?_insert_nat]
  by_cases hn : n' = n <;> simp [hn, old?]

theorem new?_link (m : Matching) (n o o' : NodeId) : (m.link n o).new? o' =
    if o' = o then some n else if m.old? n = some o' then none else m.new? o' := by
  have h : (m.link n o).new? o' =
      ((eraseIfOther o m.toNew (m.old? n)).insert o n)[o']? := rfl
  rw [h, getElem?_insert_nat, getElem?_eraseIfOther]
  by_cases ho : o' = o <;> simp [ho, new?]

theorem new?_link_of_free {m : Matching} {n o o' : NodeId} (hn : m.old? n = none) (ho : o' ≠ o) :
    (m.link n o).new? o' = m.new? o' := by
  rw [new?_link, if_neg ho, hn, if_neg fun h ↦ Option.some_ne_none _ h.symm]

theorem old?_link_of_free {m : Matching} {n o n' o' : NodeId} (hn : m.old? n = none)
    (ho : m.new? o = none) :
    (m.link n o).old? n' = some o' ↔ (n' = n ∧ o' = o) ∨ m.old? n' = some o' := by
  rw [old?_link, ho]
  by_cases h : n' = n
  · rw [if_pos h, h, hn, Option.some_inj]
    simp [eq_comm]
  · rw [if_neg h, if_neg fun h ↦ Option.some_ne_none _ h.symm]
    simp [h]

theorem old?_retain (keep : NodeId → NodeId → Bool) (m : Matching) (n : NodeId) :
    (m.retain keep).old? n = (m.old? n).filter (keep n) := by
  simp only [old?, retain, Std.TreeMap.getElem?_filter']

theorem getElem?_foldl_erase (ps : List (NodeId × NodeId)) (t : Std.TreeMap NodeId NodeId)
    (x : NodeId) :
    (ps.foldl (fun t p ↦ t.erase p.2) t)[x]? = if x ∈ ps.map Prod.snd then none else t[x]? := by
  induction ps generalizing t with
  | nil => rfl
  | cons p ps ih =>
    simp only [List.foldl_cons, ih, getElem?_erase_nat, List.map_cons, List.mem_cons]
    by_cases hps : x ∈ ps.map Prod.snd
    · rw [if_pos hps, if_pos (.inr hps)]
    · simp only [hps, or_false, if_false]

theorem new?_retain (h : m.OneToOne) (keep : NodeId → NodeId → Bool) (o : NodeId) :
    (m.retain keep).new? o = (m.new? o).filter fun n ↦ keep n o := by
  have hfreed : o ∈ (m.pairs.filter fun p ↦ !keep p.1 p.2).map Prod.snd ↔
      ∃ n, m.new? o = some n ∧ keep n o = false := by
    simp only [List.mem_map, List.mem_filter, Bool.not_eq_true', Prod.exists, mem_pairs, h _ _]
    constructor
    · rintro ⟨n, o, ⟨hn, hk⟩, rfl⟩
      exact ⟨n, hn, hk⟩
    · rintro ⟨n, hn, hk⟩
      exact ⟨n, o, ⟨hn, hk⟩, rfl⟩
  rw [new?, retain, getElem?_foldl_erase, ← new?]
  cases hn : m.new? o with
  | none => rw [ite_self, Option.filter_none]
  | some n =>
    rw [hn] at hfreed
    cases hk : keep n o with
    | true =>
      rw [Option.filter_some, hk, if_pos rfl, if_neg]
      rw [hfreed]
      rintro ⟨n', he, hk'⟩
      rw [← Option.some_inj.1 he, hk] at hk'
      cases hk'
    | false =>
      rw [Option.filter_some, hk, if_neg Bool.false_ne_true, if_pos (hfreed.2 ⟨n, rfl, hk⟩)]

namespace OneToOne

theorem new_inj (h : m.OneToOne) (hn : m.old? n = some o) (hn' : m.old? n' = some o) : n = n' :=
  Option.some_inj.1 (((h n o).1 hn).symm.trans ((h n' o).1 hn'))

theorem old_inj (h : m.OneToOne) (ho : m.new? o = some n) (ho' : m.new? o' = some n) : o = o' :=
  Option.some_inj.1 (((h n o).2 ho).symm.trans ((h n o').2 ho'))

theorem empty : OneToOne .empty := by
  intro n o
  simp [old?, new?, Matching.empty]

theorem link (h : m.OneToOne) (n o : NodeId) : (m.link n o).OneToOne := by
  intro n' o'
  rw [old?_link, new?_link]
  by_cases hn : n' = n
  · subst hn
    rw [if_pos rfl, Option.some_inj]
    by_cases ho : o' = o
    · rw [if_pos ho]
      exact ⟨fun _ ↦ rfl, fun _ ↦ ho.symm⟩
    · rw [if_neg ho]
      refine ⟨fun he ↦ absurd he.symm ho, fun he ↦ ?_⟩
      split at he
      · cases he
      · next hold => exact absurd ((h n' o').2 he) hold
  · rw [if_neg hn]
    by_cases ho : o' = o
    · subst ho
      rw [if_pos rfl]
      refine ⟨fun he ↦ ?_, fun he ↦ absurd (Option.some_inj.1 he).symm hn⟩
      split at he
      · cases he
      · next hnew => exact absurd ((h n' o').1 he) hnew
    · rw [if_neg ho]
      -- the partner that `o` had is free now, and so is that of `n`
      have hold : m.new? o = some n' → m.old? n' ≠ some o' := by
        intro he he'
        exact ho (Option.some_inj.1 (he'.symm.trans ((h n' o).2 he)))
      have hnew : m.old? n = some o' → m.new? o' ≠ some n' := by
        intro he he'
        exact hn (Option.some_inj.1 (he'.symm.trans ((h n o').1 he)))
      split
      · next he =>
        refine ⟨nofun, fun hc ↦ ?_⟩
        split at hc
        · cases hc
        · exact absurd ((h n' o').2 hc) (hold he)
      · split
        · next he =>
          exact ⟨fun hc ↦ absurd ((h n' o').1 hc) (hnew he), nofun⟩
        · exact h n' o'

theorem retain (h : m.OneToOne) (keep : NodeId → NodeId → Bool) : (m.retain keep).OneToOne := by
  intro n o
  rw [old?_retain, new?_retain h, Option.filter_eq_some_iff, Option.filter_eq_some_iff, h n o]

theorem linkRoots (h : m.OneToOne) : m.linkRoots.OneToOne := h.link _ _

theorem of_maps (h : m.OneToOne) (proposals : Std.TreeMap NodeId (List NodeId)) :
    OneToOne { m with proposals } := h

theorem ofPairs (ps : List (NodeId × NodeId)) : (ofPairs ps).OneToOne :=
  List.foldlRecOn ps _ empty fun _ h _ _ ↦ h.link _ _

theorem reduce (h : m.OneToOne)
    (resolve : Matching → NodeId → List NodeId → Option NodeId) : (m.reduce resolve).OneToOne :=
  reduce_induction (h.of_maps {}) fun _ _ _ h _ ↦ h.link _ _

theorem propagate (h : m.OneToOne) (old new : Tree) : (m.propagate old new).OneToOne :=
  propagate_induction (R := fun _ _ ↦ True) (fun _ _ _ _ _ _ _ _ _ ↦ trivial)
    (fun _ _ _ h _ _ _ ↦ h.link _ _) h fun _ _ _ ↦ trivial

theorem linkLeaves (h : m.OneToOne) (byLabel : Bool) :
    (linkLeaves measure threshold byLabel old new m).OneToOne :=
  linkLeaves_induction byLabel h fun _ _ _ h _ _ _ _ ↦ h.link _ _

theorem linkInner (h : m.OneToOne) : (linkInner measure threshold old new m).OneToOne :=
  linkInner_induction h fun _ _ _ h _ _ _ _ ↦ h.link _ _

theorem alignAncestors (h : m.OneToOne) (p : NodeId × NodeId) :
    (alignAncestors measure threshold old new m p).OneToOne :=
  alignAncestors_induction p h fun _ _ _ _ _ h _ _ _ _ _ ↦ h.of_maps _

theorem descend (fuel : Nat) (h : m.OneToOne) (queue : List (NodeId × NodeId)) :
    (descend measure threshold old new fuel m queue).OneToOne :=
  descend_induction (fun _ _ _ h _ _ ↦ h.link _ _) fuel h queue

theorem rounds (fuel : Nat) (h : m.OneToOne) :
    (rounds measure threshold old new fuel m).OneToOne :=
  rounds_induction (fun _ _ _ h _ _ ↦ h.link _ _) fuel h

theorem bucket (h : m.OneToOne) : (bucket measure thresholds old new m).OneToOne :=
  ((h.linkRoots.linkLeaves true).linkInner).propagate old new

theorem path (h : m.OneToOne) : (path measure thresholds old new m).OneToOne := by
  refine propagate (reduce ?_ _) old new
  exact List.foldlRecOn _ _ (h.linkRoots.linkLeaves false) fun m h p _ ↦ h.alignAncestors p

theorem topDown (h : m.OneToOne) : (topDown measure thresholds old new m).OneToOne :=
  (h.linkRoots.descend _ _).propagate old new

theorem bottomUp (h : m.OneToOne) : (bottomUp measure thresholds old new m).OneToOne := by
  refine (linkRoots (rounds _ ?_)).propagate old new
  split
  · exact h.linkLeaves true
  · exact h

theorem exact {m' : Matching} (h : m.OneToOne)
    (hm : Matching.exact measure thresholds old new m = some m') : m'.OneToOne := by
  obtain ⟨costs, columns, rfl⟩ := exists_of_exact hm
  exact propagate (linkAssigned_induction _ h.linkRoots fun _ _ _ h _ _ ↦ h.link _ _) old new

end OneToOne

end Matching

theorem Config.oneToOne_matchTrees {α : Type} [Score α] (config : Config α) (old new : Tree) :
    (config.matchTrees old new).OneToOne := by
  unfold Config.matchTrees Algorithm.matcher
  cases config.algorithm with
  | bucket => exact Matching.OneToOne.empty.bucket
  | path => exact Matching.OneToOne.empty.path
  | topDown => exact Matching.OneToOne.empty.topDown
  | bottomUp => exact Matching.OneToOne.empty.bottomUp
  | exact =>
    cases hm : Matching.exact Comparator.process config.thresholds old new .empty with
    | none => simpa [Algorithm.matcher?, hm] using Matching.OneToOne.empty
    | some m => simpa [Algorithm.matcher?, hm] using Matching.OneToOne.empty.exact hm

end FlowMerge
