import FlowMerge.Proofs.Matching.OneToOne
import FlowMerge.Proofs.Tree.Walks

namespace FlowMerge.Matching

variable {α : Type} [Score α] {m : Matching} {n o : NodeId} {old new : Tree}
  {measure : Comparator α} {threshold : α} {thresholds : Thresholds α}
  {R S : NodeId → NodeId → Prop}

def Within (R : NodeId → NodeId → Prop) (m : Matching) : Prop := ∀ n o, m.old? n = some o → R n o

namespace Within

theorem empty : Within R .empty := nofun

theorem mono (h : Within R m) (hRS : ∀ n o, R n o → S n o) : Within S m :=
  fun n o hno ↦ hRS n o (h n o hno)

theorem link (h : Within R m) (hno : R n o) : Within R (m.link n o) := by
  intro n' o' hno'
  rw [old?_link] at hno'
  split at hno'
  · next hn => rwa [hn, ← Option.some_inj.1 hno']
  · split at hno'
    · cases hno'
    · exact h n' o' hno'

theorem retain (h : Within R m) (keep : NodeId → NodeId → Bool) : Within R (m.retain keep) := by
  intro n o hno
  rw [old?_retain, Option.filter_eq_some_iff] at hno
  exact h n o hno.1

theorem linkLeaves (h : Within R m) (byLabel : Bool)
    (hR : ∀ n ∈ new.leaves, ∀ o ∈ old.leaves, R n o) :
    Within R (linkLeaves measure threshold byLabel old new m) :=
  linkLeaves_induction byLabel h fun _ n o h hn _ ho _ ↦ h.link (hR n hn o ho)

theorem linkInner (h : Within R m) (hR : ∀ n ∈ new.innerNodes, ∀ o ∈ old.innerNodes, R n o) :
    Within R (linkInner measure threshold old new m) :=
  linkInner_induction h fun _ n o h hn _ ho _ ↦ h.link (hR n hn o ho)

theorem propagate (hR : ∀ p q c oc, R p q → c ∈ new.children p → oc ∈ old.children q →
      new.isControlFlow c = false → old.isControlFlow oc = false → R c oc) (h : Within R m) :
    Within R (m.propagate old new) :=
  propagate_induction hR (fun _ _ _ h' _ _ hcoc ↦ h'.link hcoc) h h

end Within

def PairsLive (old new : Tree) (m : Matching) : Prop :=
  ∀ n o, m.old? n = some o → n ∈ new.live ∧ o ∈ old.live

namespace PairsLive

theorem link (h : m.PairsLive old new) (hn : n ∈ new.live) (ho : o ∈ old.live) :
    (m.link n o).PairsLive old new := Within.link h ⟨hn, ho⟩

theorem retain (h : m.PairsLive old new) (keep : NodeId → NodeId → Bool) :
    (m.retain keep).PairsLive old new := Within.retain h keep

theorem linkControlFlow (h : m.PairsLive old new) (byLabel : Bool) (leaf inner : α) :
    (linkInner measure inner old new
      (linkLeaves measure leaf byLabel old new m)).PairsLive old new :=
  Within.linkInner
    (Within.linkLeaves h byLabel fun _ hn _ ho ↦
      ⟨List.mem_of_mem_filter hn, List.mem_of_mem_filter ho⟩)
    fun _ hn _ ho ↦ ⟨List.mem_of_mem_filter hn, List.mem_of_mem_filter ho⟩

theorem bucket (wo : old.WellFormed) (wn : new.WellFormed) (h : m.PairsLive old new) :
    (bucket measure thresholds old new m).PairsLive old new :=
  Within.propagate
    (fun _ _ _ _ hlive hc hoc _ _ ↦ ⟨wn.child_live hlive.1 hc, wo.child_live hlive.2 hoc⟩)
    ((h.link wn.root_mem_live wo.root_mem_live).linkControlFlow true _ _)

end PairsLive

end FlowMerge.Matching
