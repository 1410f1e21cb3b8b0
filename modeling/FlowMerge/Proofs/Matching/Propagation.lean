import FlowMerge.Proofs.Lists
import FlowMerge.Proofs.Matching.Seed

namespace FlowMerge.Matching

open FlowMerge.Tree

variable {m m' m'' : Matching} {old new : Tree} {n o c oc : NodeId}

/-- Whether a child of a new node is tied, or is no property, or has no counterpart of its label
among the free property children of `o`. -/
def Served (old new : Tree) (m : Matching) (o c : NodeId) : Prop :=
  ∀ oc ∈ old.children o, new.isControlFlow c = false → old.isControlFlow oc = false →
    new.label c = old.label oc → m.hasNew c = true ∨ m.hasOld oc = true

def Exhausted (old new : Tree) (m : Matching) (n o : NodeId) : Prop :=
  ∀ c ∈ new.children n, Served old new m o c

structure Inherited (old new : Tree) (m : Matching) (c oc : NodeId) : Prop where
  property : new.isControlFlow c = false
  oldProperty : old.isControlFlow oc = false
  label : new.label c = old.label oc
  above : ∃ n o, new.parent? c = some n ∧ old.parent? oc = some o ∧ m.old? n = some o

/-- The matching `m'` has all pairs of `m`. What it has beyond them are inherited pairs of
properties, below which nothing more can be tied. -/
structure Carried (old new : Tree) (m m' : Matching) : Prop extends Extends m m' where
  inherited : ∀ c oc, m'.old? c = some oc → m.old? c = none → Inherited old new m' c oc
  exhausted : ∀ c oc, m'.old? c = some oc → m.old? c = none → Exhausted old new m' c oc

theorem Extends.hasNew (h : m.Extends m') (hc : m.hasNew c = true) : m'.hasNew c = true := by
  obtain ⟨o, ho⟩ := Option.isSome_iff_exists.1 hc
  exact Option.isSome_iff_exists.2 ⟨o, h.kept c o ho⟩

theorem Extends.hasOld (h : m.Extends m') (hm : m.OneToOne) (ho : m.hasOld o = true) :
    m'.hasOld o = true := by
  obtain ⟨n, hn⟩ := Option.isSome_iff_exists.1 ho
  exact Option.isSome_iff_exists.2 ⟨n, (h.oneToOne n o).1 (h.kept n o ((hm n o).2 hn))⟩

theorem Served.mono (h : Served old new m o c) (hm : m.OneToOne) (he : m.Extends m') :
    Served old new m' o c := fun oc hoc hc hp hl ↦
  (h oc hoc hc hp hl).imp he.hasNew (he.hasOld hm)

theorem Exhausted.mono (h : Exhausted old new m n o) (hm : m.OneToOne) (he : m.Extends m') :
    Exhausted old new m' n o := fun c hc ↦ (h c hc).mono hm he

theorem Inherited.mono (h : Inherited old new m c oc) (he : m.Extends m') :
    Inherited old new m' c oc := by
  obtain ⟨n, o, hn, ho, hno⟩ := h.above
  exact ⟨h.property, h.oldProperty, h.label, n, o, hn, ho, he.kept n o hno⟩

namespace Carried

theorem refl (hm : m.OneToOne) : Carried old new m m where
  toExtends := .refl hm
  inherited c oc h hnone := by
    rw [hnone] at h
    cases h
  exhausted c oc h hnone := by
    rw [hnone] at h
    cases h

theorem trans (h : Carried old new m m') (h' : Carried old new m' m'') :
    Carried old new m m'' := by
  -- a pair that the second stretch keeps is the one that the first one made
  have hmid {c oc x : NodeId} (hx : m'.old? c = some x) (hc : m''.old? c = some oc) :
      m'.old? c = some oc := by
    obtain rfl := Option.some_inj.1 ((h'.kept c x hx).symm.trans hc)
    exact hx
  refine ⟨h.toExtends.trans h'.toExtends, fun c oc hc hnone ↦ ?_, fun c oc hc hnone ↦ ?_⟩
  · cases hx : m'.old? c with
    | none => exact h'.inherited c oc hc hx
    | some x => exact (h.inherited c oc (hmid hx hc) hnone).mono h'.toExtends
  · cases hx : m'.old? c with
    | none => exact h'.exhausted c oc hc hx
    | some x => exact (h.exhausted c oc (hmid hx hc) hnone).mono h.oneToOne h'.toExtends

theorem link (hm : m.OneToOne) (hfree : m.Free c oc)
    (hpair : Inherited old new (m.link c oc) c oc) (h : Carried old new (m.link c oc) m')
    (hbelow : Exhausted old new m' c oc) : Carried old new m m' := by
  have hlink {x y : NodeId} : (m.link c oc).old? x = some y ↔ (x = c ∧ y = oc) ∨
      m.old? x = some y :=
    old?_link_of_free (hasNew_eq_false.1 hfree.1) (hasOld_eq_false.1 hfree.2)
  have hself : m'.old? c = some oc := h.kept c oc (hlink.2 (.inl ⟨rfl, rfl⟩))
  have hrest {x : NodeId} (hx : x ≠ c) (hnone : m.old? x = none) :
      (m.link c oc).old? x = none := by
    rw [Option.eq_none_iff_forall_ne_some]
    intro y hy
    rcases hlink.1 hy with ⟨rfl, -⟩ | hy
    · exact hx rfl
    · rw [hnone] at hy
      cases hy
  have hext : m.Extends (m.link c oc) := ⟨hm.link c oc, fun x y hxy ↦ hlink.2 (.inr hxy)⟩
  refine ⟨hext.trans h.toExtends, fun x y hxy hnone ↦ ?_, fun x y hxy hnone ↦ ?_⟩
  · by_cases hx : x = c
    · subst hx
      obtain rfl := Option.some_inj.1 (hself.symm.trans hxy)
      exact hpair.mono h.toExtends
    · exact h.inherited x y hxy (hrest hx hnone)
  · by_cases hx : x = c
    · subst hx
      obtain rfl := Option.some_inj.1 (hself.symm.trans hxy)
      exact hbelow
    · exact h.exhausted x y hxy (hrest hx hnone)

theorem foldl {ι : Type} {f : Matching → ι → Matching} {steps : List ι}
    (Done : ι → Matching → Prop) (hm : m.OneToOne)
    (hmono : ∀ i {m' m''}, m'.OneToOne → m'.Extends m'' → Done i m' → Done i m'')
    (hf : ∀ i ∈ steps, ∀ m', m.Extends m' →
      Carried old new m' (f m' i) ∧ Done i (f m' i)) :
    Carried old new m (steps.foldl f m) ∧ ∀ i ∈ steps, Done i (steps.foldl f m) :=
  foldl_done (.refl hm) .trans (fun i _ _ h h' ↦ hmono i h.oneToOne h'.toExtends)
    fun pre i _ m' hsplit h _ ↦
      hf i (hsplit ▸ List.mem_append_right pre List.mem_cons_self) m' h.toExtends

end Carried

theorem linkProperties_of_size_le (fuel : Nat) (m : Matching) (hn : new.size ≤ n) :
    linkProperties old new fuel m (n, o) = m := by
  cases fuel with
  | zero => rfl
  | succ fuel => rw [linkProperties, children_of_size_le hn, List.foldl_nil]

section Passes

variable (wo : old.WellFormed) (wn : new.WellFormed)
include wo wn

/-- Below a pair all properties are tied that can be, and so on all the way down. -/
theorem carried_linkProperties (fuel : Nat) (hm : m.OneToOne) (hno : m.old? n = some o)
    (hfuel : new.size ≤ fuel + new.depth n) :
    Carried old new m (linkProperties old new fuel m (n, o)) ∧
      Exhausted old new (linkProperties old new fuel m (n, o)) n o := by
  rcases Nat.lt_or_ge n new.size with hlt | hle
  swap
  · rw [linkProperties_of_size_le fuel m hle]
    refine ⟨.refl hm, fun c hc ↦ ?_⟩
    rw [children_of_size_le hle] at hc
    cases hc
  -- with each level the depth grows by what the fuel shrinks
  induction fuel generalizing m n o with
  | zero =>
    have hdepth := wn.depth_lt hlt
    omega
  | succ fuel ih =>
    rw [linkProperties]
    refine Carried.foldl (fun c m' ↦ Served old new m' o c) hm
      (fun c _ _ hm' he hc ↦ hc.mono hm' he) fun c hc m' he ↦ ?_
    have hparent := wn.mem_children.1 hc
    split
    · next hskip =>
      refine ⟨.refl he.oneToOne, fun oc _ hproperty _ _ ↦ .inl ?_⟩
      rwa [hproperty, Bool.false_or] at hskip
    · next hskip =>
      obtain ⟨hproperty, hnew⟩ := Bool.or_eq_false_iff.1 (Bool.eq_false_iff.2 hskip)
      split
      · next oc hfound =>
        have hoc := wo.mem_children.1 (List.mem_of_find?_eq_some hfound)
        have hfits := List.find?_some hfound
        rw [isFreeProperty, Bool.and_eq_true, Bool.and_eq_true, Bool.not_eq_true',
          Bool.not_eq_true', beq_iff_eq] at hfits
        obtain ⟨⟨holdProperty, hold⟩, hlabel⟩ := hfits
        have hfree : m'.Free c oc := ⟨hnew, hold⟩
        have hone : (m'.link c oc).OneToOne := he.oneToOne.link c oc
        have hself : (m'.link c oc).old? c = some oc := by rw [old?_link, if_pos rfl]
        have hkept : (m'.link c oc).old? n = some o :=
          (old?_link_of_free (hasNew_eq_false.1 hnew) (hasOld_eq_false.1 hold)).2
            (.inr (he.kept n o hno))
        have hdepth := wn.depth_of_parent hparent
        obtain ⟨hcarried, hbelow⟩ := ih hone hself (by omega) (wn.child_lt hc)
        refine ⟨.link he.oneToOne hfree
          ⟨hproperty, holdProperty, hlabel.symm, n, o, hparent, hoc, hkept⟩ hcarried hbelow, ?_⟩
        exact fun _ _ _ _ _ ↦ .inl (hcarried.hasNew (Option.isSome_iff_exists.2 ⟨oc, hself⟩))
      · next hnone =>
        refine ⟨.refl he.oneToOne, fun oc hoc _ holdProperty hlabel ↦ .inr ?_⟩
        have hmiss := List.find?_eq_none.1 hnone oc hoc
        simpa [isFreeProperty, holdProperty, hlabel] using hmiss

theorem carried_pairs (hm : m.OneToOne) :
    Carried old new m (m.propagate old new) ∧
      ∀ p ∈ m.pairs.filter (fun p ↦ new.isControlFlow p.1 && old.isControlFlow p.2),
        Exhausted old new (m.propagate old new) p.1 p.2 := by
  refine Carried.foldl (fun (p : NodeId × NodeId) m' ↦ Exhausted old new m' p.1 p.2) hm
    (fun p _ _ hm' he hp ↦ hp.mono hm' he) fun p hp m' he ↦ ?_
  have hno := mem_pairs.1 (List.mem_filter.1 hp).1
  exact carried_linkProperties wo wn new.size he.oneToOne (he.kept _ _ hno)
    (Nat.le_add_right _ _)

/-- Matches of control flow are carried on to the properties. No pair is given up, the new ones are
of properties of one label below pairs, and below the control flow that was tied and below all new
pairs nothing is left that could be tied. -/
theorem carried_propagate (hm : m.OneToOne) :
    Carried old new m (m.propagate old new) ∧
      ∀ n o, m.old? n = some o → new.isControlFlow n = true → old.isControlFlow o = true →
        Exhausted old new (m.propagate old new) n o := by
  obtain ⟨hcarried, hbelow⟩ := carried_pairs wo wn hm
  refine ⟨hcarried, fun n o hno hn ho ↦ hbelow (n, o) (List.mem_filter.2 ⟨mem_pairs.2 hno, ?_⟩)⟩
  rw [hn, ho]
  rfl

end Passes

def callWith (properties : List String) : Tree :=
  .ofList { label := "description" } ((0, { label := "call" }) :: (1, { label := "parameters" }) ::
    properties.map fun l ↦ (2, { label := l }))

/-- Of two lists of arguments one is tied already. The other one is tied to what is left, and the
label to nothing. -/
theorem carried_propagate_callWith :
    let old := callWith ["method", "arguments", "arguments"]
    let new := callWith ["arguments", "method", "label", "arguments"]
    let m := Matching.ofPairs [(1, 1), (6, 4)]
    (m.propagate old new).old? 6 = some 4 ∧ Inherited old new (m.propagate old new) 3 5 ∧
      Exhausted old new (m.propagate old new) 1 1 ∧
        Exhausted old new (m.propagate old new) 2 2 := by
  intro old new m
  have wo : old.WellFormed := wellFormed_ofList _ _ (by decide)
  have wn : new.WellFormed := wellFormed_ofList _ _ (by decide)
  have hm : m.OneToOne := .ofPairs _
  obtain ⟨hcarried, hbelow⟩ := carried_propagate wo wn hm
  have htied : (m.propagate old new).old? 2 = some 2 ∧ (m.propagate old new).old? 3 = some 5 ∧
      m.old? 2 = none ∧ m.old? 3 = none ∧ m.old? 6 = some 4 ∧ m.old? 1 = some 1 ∧
        new.isControlFlow 1 = true ∧ old.isControlFlow 1 = true := by decide +kernel
  obtain ⟨hparameters, harguments, hfree, hfree', hgiven, hcall, hnew, hold⟩ := htied
  exact ⟨hcarried.kept 6 4 hgiven, hcarried.inherited 3 5 harguments hfree',
    hbelow 1 1 hcall hnew hold, hcarried.exhausted 2 2 hparameters hfree⟩

end FlowMerge.Matching
