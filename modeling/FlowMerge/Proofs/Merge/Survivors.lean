import FlowMerge.Proofs.Merge.Loss
import FlowMerge.Proofs.Merge.Unchanged

namespace FlowMerge.Merge

open FlowMerge.Tree

variable {start : Merge} {base a b : Tree} {ma mb : Matching} {k n : Nat}
  {up : NodeId → Option NodeId}

instance (t : Tree) (k : Nat) : Decidable (Holds t k) :=
  inferInstanceAs (Decidable (∃ x ∈ t.live, base? t x = some k))

/-- All nodes of `r` that come from the base are in both branches, and each of them is in `r` only
once. -/
structure Survives (da db r : Tree) : Prop where
  kept : ∀ k, Holds r k → Holds da k ∧ Holds db k
  once : ∀ x ∈ r.live, ∀ y ∈ r.live, ∀ k, base? r x = some k → base? r y = some k → x = y

theorem Ready.survives (h : Ready n up start) :
    Survives start.source start.target start.run.tree := by
  have hbase {x k : NodeId} (hx : base? start.run.tree x = some k) : x = k ∧ x < n := by
    rw [h.branch_or_base] at hx
    split at hx
    · next hlt => exact ⟨Option.some_inj.1 hx, hlt⟩
    · cases hx
  constructor
  · rintro k ⟨x, hx, hxk⟩
    obtain ⟨rfl, hlt⟩ := hbase hxk
    obtain ⟨hs, ht⟩ := h.kept_of_mem_live hx hlt
    exact ⟨(holds_iff h.source.base?).2 ⟨hs, hlt⟩, (holds_iff h.target.base?).2 ⟨ht, hlt⟩⟩
  · intro x _ y _ k hx hy
    exact (hbase hx).1.trans (hbase hy).1.symm

/-- Deletions win over whatever the other branch did, and nothing is there twice. -/
theorem survives_ofDeltas (wo : base.WellFormed) (wa : a.WellFormed) (wb : b.WellFormed)
    (ha : ma.OneToOne) (hb : mb.OneToOne) :
    ∃ da db, Script.patch base (Script.derive base a ma) = .ok da ∧
      Script.patch base (Script.derive base b mb) = .ok db ∧
      ∀ {α : Type} [Score α] (config : Config α),
        Survives da db (ofDeltas config base da db).tree := by
  obtain ⟨da, hda, hA⟩ := branch_derive wo wa ha
  obtain ⟨db, hdb, hB⟩ := branch_derive wo wb hb
  refine ⟨da, db, hda, hdb, fun config ↦ ?_⟩
  have h : Ready _ _ (Merge.start config base da db) := ready_start config hA hB
  obtain ⟨hkept, honce⟩ := h.survives
  refine ⟨fun k hk ↦ ?_, honce⟩
  obtain ⟨hs, ht⟩ := hkept k hk
  exact ⟨(hA.holds_ascribed .branchA k).1 hs, (hB.holds_ascribed .branchB k).1 ht⟩

def emptyLoop : Tree := .ofList { label := "description" } [(0, { label := "loop" })]

def callBesideLoop : Tree :=
  .ofList { label := "description" }
    [(0, callTo "y"), (1, { label := "choose" }), (0, { label := "loop" })]

theorem holds_loopAroundCall :
    ¬ Holds (patched loopAroundCall emptyLoop (.ofPairs [(1, 1)])) 2 ∧
      Holds (patched loopAroundCall callBesideLoop (.ofPairs [(1, 2), (3, 1)])) 2 ∧
      Holds (ofDeltas (Config.standard : Config Rat) loopAroundCall
        (patched loopAroundCall emptyLoop (.ofPairs [(1, 1)]))
        (patched loopAroundCall callBesideLoop (.ofPairs [(1, 2), (3, 1)]))).tree 1 := by
  decide +kernel

/-- Branch A deletes the call, while branch B moves and changes it and inserts a node below it. -/
theorem survives_ofDeltas_callBesideLoop :
    ∃ da db, Script.patch loopAroundCall
        (Script.derive loopAroundCall emptyLoop (.ofPairs [(1, 1)])) = .ok da ∧
      Script.patch loopAroundCall
        (Script.derive loopAroundCall callBesideLoop (.ofPairs [(1, 2), (3, 1)])) = .ok db ∧
      Holds db 2 ∧ ¬ Holds (ofDeltas (Config.standard : Config Rat) loopAroundCall da db).tree 2 ∧
      Holds (ofDeltas (Config.standard : Config Rat) loopAroundCall da db).tree 1 ∧
      Holds da 1 ∧ Holds db 1 := by
  have wo : loopAroundCall.WellFormed := wellFormed_ofList _ _ (by decide)
  have wa : emptyLoop.WellFormed := wellFormed_ofList _ _ (by decide)
  have wb : callBesideLoop.WellFormed := wellFormed_ofList _ _ (by decide)
  obtain ⟨da, db, hda, hdb, h⟩ := survives_ofDeltas wo wa wb
    (.ofPairs [(1, 1)]) (.ofPairs [(1, 2), (3, 1)])
  obtain ⟨hgone, hthere, hloop⟩ := holds_loopAroundCall
  rw [patched_eq hda] at hgone hloop
  rw [patched_eq hdb] at hthere hloop
  have hkept := (h (Config.standard : Config Rat)).kept
  obtain ⟨hla, hlb⟩ := hkept 1 hloop
  refine ⟨da, db, hda, hdb, hthere, fun hcall ↦ hgone ?_, hloop, hla, hlb⟩
  exact (hkept 2 hcall).1

end FlowMerge.Merge
