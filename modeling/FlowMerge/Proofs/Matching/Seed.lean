import FlowMerge.Proofs.Matching.Costs
import FlowMerge.Proofs.Matching.Live
import FlowMerge.Proofs.Tree.Copies

namespace FlowMerge

namespace Matching

open FlowMerge.Tree Score

variable {α : Type} [Score α] {seed m : Matching} {n o : NodeId} {old new : Tree}
  {measure : Comparator α} {threshold : α} {thresholds : Thresholds α}

structure Extends (seed m : Matching) : Prop where
  oneToOne : m.OneToOne
  kept : ∀ n o, seed.old? n = some o → m.old? n = some o

def Free (m : Matching) (n o : NodeId) : Prop := m.hasNew n = false ∧ m.hasOld o = false

def Open (seed m : Matching) : Prop := ∀ n, ∀ o ∈ m.candidates n, seed.Free n o

namespace Extends

theorem refl (hs : seed.OneToOne) : seed.Extends seed := ⟨hs, fun _ _ h ↦ h⟩

theorem trans {m' : Matching} (h : seed.Extends m) (h' : m.Extends m') : seed.Extends m' :=
  ⟨h'.oneToOne, fun n o hno ↦ h'.kept n o (h.kept n o hno)⟩

theorem link_link (hs : seed.OneToOne) (h : seed.Extends m) (n o : NodeId) :
    (seed.link n o).Extends (m.link n o) := by
  refine ⟨h.oneToOne.link n o, fun n' o' hno ↦ ?_⟩
  rw [old?_link] at hno ⊢
  split at hno
  · next hn => rwa [if_pos hn]
  · next hn =>
    split at hno
    · cases hno
    · next hso =>
      have hm := h.kept n' o' hno
      rw [if_neg hn, if_neg, hm]
      intro hmo
      -- the partner that `o` would lose is the one it has in the seed
      obtain rfl := Option.some_inj.1 (hm.symm.trans ((h.oneToOne n' o).2 hmo))
      exact hso ((hs n' o').1 hno)

variable (h : seed.Extends m)
include h

theorem hasNew_eq_false (hn : m.hasNew n = false) : seed.hasNew n = false := by
  rw [Matching.hasNew_eq_false, Option.eq_none_iff_forall_ne_some] at hn ⊢
  exact fun o hno ↦ hn o (h.kept n o hno)

variable (hs : seed.OneToOne)
include hs

theorem hasOld_eq_false (ho : m.hasOld o = false) : seed.hasOld o = false := by
  rw [Matching.hasOld_eq_false, Option.eq_none_iff_forall_ne_some] at ho ⊢
  exact fun n hno ↦ ho n ((h.oneToOne n o).1 (h.kept n o ((hs n o).2 hno)))

theorem free (hf : m.Free n o) : seed.Free n o :=
  ⟨h.hasNew_eq_false hf.1, h.hasOld_eq_false hs hf.2⟩

theorem link (hf : seed.Free n o) : seed.Extends (m.link n o) := by
  refine ⟨h.oneToOne.link n o, fun n' o' hno ↦ ?_⟩
  have hn : n' ≠ n := by
    rintro rfl
    rw [Matching.hasNew_eq_false.1 hf.1] at hno
    cases hno
  have ho : o' ≠ o := by
    rintro rfl
    have hon := (hs n' o').1 hno
    rw [Matching.hasOld_eq_false.1 hf.2] at hon
    cases hon
  have hm := h.kept n' o' hno
  rw [old?_link, if_neg hn, if_neg, hm]
  exact fun hmo ↦ ho (Option.some_inj.1 (hm.symm.trans ((h.oneToOne n' o).2 hmo)))

theorem linkLeaves (byLabel : Bool) :
    seed.Extends (linkLeaves measure threshold byLabel old new m) :=
  linkLeaves_induction byLabel h fun _ _ _ h' _ hn _ ho ↦
    h'.link hs ⟨h'.hasNew_eq_false hn, h.hasOld_eq_false hs ho⟩

theorem linkInner : seed.Extends (linkInner measure threshold old new m) :=
  linkInner_induction h fun _ _ _ h' _ hn _ ho ↦
    h'.link hs ⟨h'.hasNew_eq_false hn, h.hasOld_eq_false hs ho⟩

omit h in
theorem link_free {m' : Matching} (n o : NodeId) (h' : seed.Extends m')
    (hn : m'.hasNew n = false) (ho : m'.hasOld o = false) : seed.Extends (m'.link n o) :=
  h'.link hs (h'.free hs ⟨hn, ho⟩)

theorem propagate : seed.Extends (m.propagate old new) :=
  propagate_induction (R := fun _ _ ↦ True) (fun _ _ _ _ _ _ _ _ _ ↦ trivial)
    (fun _ c oc h' hn ho _ ↦ link_free hs c oc h' hn ho) h fun _ _ _ ↦ trivial

theorem descend (fuel : Nat) (queue : List (NodeId × NodeId)) :
    seed.Extends (descend measure threshold old new fuel m queue) :=
  descend_induction (fun _ ↦ link_free hs) fuel h queue

theorem rounds (fuel : Nat) : seed.Extends (rounds measure threshold old new fuel m) :=
  rounds_induction (fun _ ↦ link_free hs) fuel h

theorem linkAssigned {costs : CostMatrix α} (ps : List (Nat × Nat)) :
    seed.Extends (ps.foldl (linkAssigned threshold costs (freeNodes old m.hasOld)
      (freeNodes new m.hasNew)) m) := by
  have hfree {t : Tree} {taken : NodeId → Bool} {x : NodeId} (hx : x ∈ freeNodes t taken) :
      taken x = false := by
    rw [freeNodes, List.mem_filter, Bool.and_eq_true, Bool.not_eq_true'] at hx
    exact hx.2.2
  exact linkAssigned_induction ps h fun _ _ _ h' hn ho ↦ h'.link hs (h.free hs ⟨hfree hn, hfree ho⟩)

end Extends

theorem candidates_propose (m : Matching) (n o x : NodeId) : (m.propose n o).candidates x =
    if x = n then (if o ∈ m.candidates n then m.candidates n else m.candidates n ++ [o])
    else m.candidates x := by
  rw [candidates, propose]
  dsimp only
  rw [Std.TreeMap.getElem?_insert]
  by_cases hx : x = n
  · rw [if_pos hx, if_pos (Nat.compare_eq_eq.2 hx.symm), Option.getD_some]
  · rw [if_neg hx, if_neg fun he ↦ hx (Nat.compare_eq_eq.1 he).symm, candidates]

theorem proposals_linkLeaves (byLabel : Bool) :
    (linkLeaves measure threshold byLabel old new m).proposals = m.proposals :=
  linkLeaves_induction (P := fun m' ↦ m'.proposals = m.proposals) byLabel rfl
    fun _ _ _ h _ _ _ _ ↦ h

theorem Open.of_proposals {m' : Matching} (h : Open seed m) (he : m'.proposals = m.proposals) :
    Open seed m' := by
  intro n o ho
  rw [candidates, he] at ho
  exact h n o ho

theorem Open.propose (h : Open seed m) (hf : seed.Free n o) : Open seed (m.propose n o) := by
  intro n' o' ho'
  rw [candidates_propose] at ho'
  split at ho'
  · next hn =>
    rw [hn]
    split at ho'
    · exact h n o' ho'
    · rcases List.mem_append.1 ho' with ho' | ho'
      · exact h n o' ho'
      · rwa [List.mem_singleton.1 ho']
  · exact h n' o' ho'

theorem mem_of_container {olds : List NodeId} (h : container (α := α) old new m n olds = some o) :
    o ∈ olds := by
  obtain ⟨⟨r, p⟩, hp, rfl⟩ := Option.map_eq_some_iff.1 h
  refine List.foldlRecOn _ _ (motive := fun b : Option (α × NodeId) ↦
    ∀ r p, b = some (r, p) → p ∈ olds) (fun _ _ he ↦ absurd he (Option.some_ne_none _).symm)
    (fun b hb o ho r p hp ↦ ?_) r p hp
  cases b with
  | none => exact (Prod.mk.inj (Option.some_inj.1 hp)).2 ▸ ho
  | some e =>
    have he := Option.some_inj.1 hp
    split at he
    · exact (Prod.mk.inj he).2 ▸ ho
    · exact hb r p (congrArg some he)

namespace Extends

variable (hs : seed.OneToOne)
include hs

theorem alignAncestors (h : seed.Extends m) (hopen : Open seed m) (p : NodeId × NodeId) :
    seed.Extends (alignAncestors measure threshold old new m p) ∧
      Open seed (alignAncestors measure threshold old new m p) :=
  alignAncestors_induction (P := fun m ↦ seed.Extends m ∧ Open seed m) p ⟨h, hopen⟩
    fun _ _ _ _ _ h' _ _ hn ho _ ↦ ⟨⟨h'.1.oneToOne.of_maps _, h'.1.kept⟩,
      h'.2.propose (h'.1.free hs ⟨hn, ho⟩)⟩

theorem alignAll (measure : Comparator α) (threshold : α) (old new : Tree) (h : seed.Extends m)
    (hopen : Open seed m) (ps : List (NodeId × NodeId)) :
    seed.Extends (ps.foldl (Matching.alignAncestors measure threshold old new) m) ∧
      Open seed (ps.foldl (Matching.alignAncestors measure threshold old new) m) :=
  List.foldlRecOn ps _ (motive := fun m : Matching ↦ seed.Extends m ∧ Open seed m) ⟨h, hopen⟩
    fun _ ⟨h, hopen⟩ p _ ↦ h.alignAncestors hs hopen p

theorem reduce (h : seed.Extends m) (hopen : Open seed m) :
    seed.Extends (m.reduce (container (α := α) old new)) :=
  reduce_induction ⟨h.oneToOne.of_maps _, h.kept⟩ fun _ n o h' ho ↦
    h'.link hs (hopen n o (mem_of_container ho))

end Extends

theorem old?_linkRoots_empty : (linkRoots .empty).old? n = some o ↔ n = root ∧ o = root := by
  rw [linkRoots, old?_link_of_free rfl rfl]
  exact or_iff_left fun h ↦ Option.some_ne_none o h.symm

/-- What an algorithm can start from: the roots are tied to each other or not at all, and what is
still proposed is free. -/
structure Seed (m : Matching) : Prop where
  oneToOne : m.OneToOne
  roots : ∀ n o, m.old? n = some o → (n = root ↔ o = root)
  proposed : ∀ n, ∀ o ∈ m.candidates n, m.Free n o ∧ n ≠ root ∧ o ≠ root

namespace Seed

variable (h : seed.Seed)
include h

theorem extends_linkRoots : seed.Extends seed.linkRoots := by
  refine ⟨h.oneToOne.linkRoots, fun n o hno ↦ ?_⟩
  rw [linkRoots, old?_link]
  split
  · next hn => rw [(h.roots n o hno).1 hn]
  · next hn =>
    rw [if_neg, hno]
    exact fun hroot ↦ hn ((h.roots n root ((h.oneToOne n root).2 hroot)).2 rfl)

theorem open_linkRoots : Open seed.linkRoots seed.linkRoots := by
  intro n o ho
  obtain ⟨⟨hn, ho⟩, hnr, hor⟩ := h.proposed n o ho
  rw [hasNew_eq_false] at hn
  rw [hasOld_eq_false] at ho
  refine ⟨hasNew_eq_false.2 ?_, hasOld_eq_false.2 ?_⟩
  · rw [linkRoots, old?_link, if_neg hnr, hn, ite_self]
  · rw [linkRoots, new?_link, if_neg hor, ho, ite_self]

theorem extends_matcher? {a : Algorithm}
    (hm : a.matcher? measure thresholds old new seed = some m) : seed.linkRoots.Extends m := by
  have hr := h.oneToOne.linkRoots
  have hstart : seed.linkRoots.Extends seed.linkRoots := .refl hr
  cases a with
  | bucket =>
    obtain rfl := Option.some_inj.1 hm
    exact ((hstart.linkLeaves hr true).linkInner hr).propagate hr
  | path =>
    obtain rfl := Option.some_inj.1 hm
    have hleaves : seed.linkRoots.Extends
        (linkLeaves measure thresholds.leaf false old new seed.linkRoots) :=
      hstart.linkLeaves hr false
    obtain ⟨hext, hopen⟩ := hleaves.alignAll hr measure thresholds.inner old new
      (h.open_linkRoots.of_proposals (proposals_linkLeaves false)) _
    exact (hext.reduce hr hopen).propagate hr
  | topDown =>
    obtain rfl := Option.some_inj.1 hm
    exact (hstart.descend hr _ _).propagate hr
  | bottomUp =>
    obtain rfl := Option.some_inj.1 hm
    -- the roots come last here, and may be taken from what was tied to them on the way up
    refine Extends.propagate (.link_link h.oneToOne (.rounds ?_ h.oneToOne _) _ _) hr
    split
    · exact (Extends.refl h.oneToOne).linkLeaves h.oneToOne true
    · exact .refl h.oneToOne
  | exact =>
    obtain ⟨costs, columns, rfl⟩ := exists_of_exact hm
    exact (hstart.linkAssigned hr _).propagate hr

end Seed

def callsInLoop : Tree :=
  .ofList { label := "description" }
    [(0, { label := "loop" }), (1, { label := "call" }), (1, { label := "call" })]

end Matching

end FlowMerge
