import FlowMerge.Proofs.Merge.Branch

namespace FlowMerge.Merge

open FlowMerge.Tree

variable {old new base d t : Tree} {m : Matching} {f : NodeId → NodeId} {p : Provenance}
  {n x : NodeId}

def remains (n : Nat) (t : Tree) (x : NodeId) : Bool := decide (x < n) && t.mark x != .movedHere

/-- The tree `d` is a branch of `base` that says all that it did. -/
structure Edited (n : Nat) (base d : Tree) : Prop extends Branch n base.parent? d where
  root_lt : root < n
  order : ∀ p ∈ d.live, p < n → (d.children p).filter (remains n d) =
    (base.children p).filter fun c ↦ d.live.contains c && d.mark c != .movedHere
  records : ∀ x ∈ d.live, x < n → ∃ y, d.delta? x = some y ∧
    y.updates.Records (base.content x) (d.content x)
  unambiguous : ∀ x ∈ d.live, x < n →
    (base.content x).Unambiguous ∧ (d.content x).Unambiguous

structure Untouched (n : Nat) (base d : Tree) : Prop where
  wellFormed : d.WellFormed
  size : d.size = n
  shape : SameShape d base
  content : ∀ x, d.content x = base.content x
  live : ∀ x, x ∈ d.live ↔ x < n
  blank : ∀ x < n, ∃ y, d.delta? x = some y ∧ y.base = some x ∧ y.mark = .unchanged ∧
    y.updates = []

namespace Untouched

variable (h : Untouched n base d)
include h

theorem mark (hx : x < n) : d.mark x = .unchanged := by
  obtain ⟨y, hy, -, hm, -⟩ := h.blank x hx
  rw [Tree.mark, hy]
  exact hm

theorem branch : Branch n base.parent? d where
  wellFormed := h.wellFormed
  base? x := by
    split
    · next hx =>
      obtain ⟨y, hy, hb, -⟩ := h.blank x hx
      rw [base?, hy]
      exact hb
    · next hx =>
      rw [base?, delta?, overlay, node_of_size_le (h.size ▸ Nat.le_of_not_lt hx)]
      rfl
  recorded x hx := by
    obtain ⟨y, hy, -⟩ := h.blank x ((h.live x).1 hx)
    exact ⟨y, hy⟩
  inserted x hx hle := absurd ((h.live x).1 hx) (Nat.not_lt_of_le hle)
  known x hx hlt := by
    rw [h.mark hlt]
    rfl
  unmoved x _ _ _ := h.shape.parent? x

theorem parent_lt {q : NodeId} (hq : base.parent? x = some q) : q < n :=
  h.size ▸ h.wellFormed.parent_lt ((h.shape.parent? x).trans hq)

theorem ascribed (p : Provenance) : Untouched n base (ascribed d p) := by
  have hs := sameShape_ascribed d p
  exact {
    wellFormed := hs.wellFormed h.wellFormed
    size := hs.size.trans h.size
    shape := hs.trans h.shape
    content x := by
      rw [content_ascribed, h.content]
    live x := by
      rw [hs.live, h.live]
    blank x hx := by
      obtain ⟨y, hy, hrest⟩ := h.blank x hx
      exact ⟨y, delta?_ascribed d p hy, hrest⟩ }

end Untouched

theorem untouched_pristine (w : t.WellFormed) :
    Untouched t.live.length (Script.pristine t) (Script.pristine t) := by
  refine ⟨Script.wellFormed_pristine w, Script.size_pristine w, .refl _, fun _ ↦ rfl, fun x ↦ ?_,
    fun x hx ↦ ?_⟩
  · rw [(Script.pristine_spec w).1.live, toDelta, w.live_rebuild, List.mem_range]
  · obtain ⟨i, hi⟩ := (Script.pristine_spec w).2.2 x hx
    exact ⟨_, hi, rfl, rfl, rfl⟩

theorem Edited.parent_lt_of_remains (h : Edited n base d)
    (hup : ∀ x p, base.parent? x = some p → p < n) {q : NodeId} (hx : x ∈ d.live)
    (hrem : remains n d x = true) (hq : d.parent? x = some q) : q < n := by
  rw [remains, Bool.and_eq_true, decide_eq_true_iff, bne_iff_ne] at hrem
  exact hup x q ((h.unmoved x hx hrem.1 hrem.2).symm.trans hq)

theorem Edited.ascribed (h : Edited n base d) (p : Provenance) :
    Edited n base (ascribed d p) := by
  have hs := sameShape_ascribed d p
  have hb := h.toBranch
  refine ⟨hb.ascribed p, h.root_lt, fun q hq hqn ↦ ?_, fun x hx hxn ↦ ?_, fun x hx hxn ↦ ?_⟩
  · rw [hs.live] at hq
    rw [hs.children, hs.live, List.filter_congr (q := remains n d) fun c hc ↦ ?_,
      h.order q hq hqn]
    · refine List.filter_congr fun c _ ↦ ?_
      by_cases hc : c ∈ d.live
      · rw [hb.mark_ascribed p hc]
      · simp [hc]
    · rw [remains, hb.mark_ascribed p (hb.wellFormed.child_live hq hc), remains]
  · rw [hs.live] at hx
    obtain ⟨y, hy, hrec⟩ := h.records x hx hxn
    refine ⟨y, delta?_ascribed d p hy, ?_⟩
    rwa [content_ascribed]
  · rw [hs.live] at hx
    rw [content_ascribed]
    exact h.unambiguous x hx hxn

theorem remains_image (h : Script.Patched old new m f d) (wo : old.WellFormed)
    (wn : new.WellFormed) (hm : Script.Clean old new m) {pn c : NodeId} (hpl : pn ∈ new.live)
    (hc : c ∈ new.children pn) :
    remains old.live.length d (f c) = (Script.inOrder old new m pn).contains c := by
  rw [remains]
  cases hco : m.old? c with
  | none =>
    have hle := (h.inserted c (wn.child_live hpl hc) hco).1
    rw [decide_eq_false (Nat.not_lt_of_le hle), Bool.false_and, eq_comm, Bool.eq_false_iff,
      ne_eq, List.contains_iff_mem]
    intro hin
    obtain ⟨-, oc, -, -, hoc, -⟩ := Script.mem_inOrder wo hin
    rw [hco] at hoc
    cases hoc
  | some oc =>
    rw [decide_eq_true (h.lt_of_matched hm hco), Bool.true_and, (h.mark_of_matched hm hco).2,
      Bool.eq_iff_iff, Script.stays_iff (wn.mem_children.1 hc), List.contains_iff_mem]

theorem unmoved_iff (h : Script.Patched old new m f d) (wn : new.WellFormed)
    (hm : Script.Clean old new m) {oc : NodeId} (hoc : oc ∈ old.live) :
    (d.live.contains (old.place oc) && d.mark (old.place oc) != .movedHere) = true ↔
      ∃ c, m.old? c = some oc ∧ Script.stays old new m c = true := by
  rw [Bool.and_eq_true, List.contains_iff_mem]
  constructor
  · rintro ⟨hl, hne⟩
    obtain ⟨c, oc', -, hco, hfc, hplace⟩ := h.exists_of_lt wn hl (place_lt hoc)
    obtain rfl := place_inj hoc hplace.symm
    refine ⟨c, hco, ?_⟩
    rw [← (h.mark_of_matched hm hco).2, hfc]
    exact hne
  · rintro ⟨c, hco, hs⟩
    rw [← h.matched c oc hco]
    exact ⟨h.embeds.map_live wn h.wellFormed (hm.live c oc hco).1,
      (h.mark_of_matched hm hco).2.trans hs⟩

/-- What a script leaves in order stands in the order of the old tree. -/
theorem order_of_patched (h : Script.Patched old new m f d) (wo : old.WellFormed)
    (wn : new.WellFormed) (hm : Script.Clean old new m) {pn po : NodeId}
    (hpo : m.old? pn = some po) :
    (d.children (old.place po)).filter (remains old.live.length d) =
      ((Script.pristine old).children (old.place po)).filter fun c ↦
        d.live.contains c && d.mark c != .movedHere := by
  obtain ⟨os, hos, hhome, hstay⟩ := Script.inOrder_counterparts wo wn hm hpo
  obtain ⟨hpl, hpol⟩ := hm.live pn po hpo
  have hsub := (@Script.inOrder_spec old new m pn po hpo).1
  have hright : ∀ oc ∈ old.children po, (d.live.contains (old.place oc) &&
      d.mark (old.place oc) != .movedHere) = os.contains oc := by
    intro oc hoc
    rw [Bool.eq_iff_iff, unmoved_iff h wn hm (wo.child_live hpol hoc), List.contains_iff_mem,
      hstay oc hoc]
  have hmap : (Script.inOrder old new m pn).map f = os.map old.place := by
    rw [← hhome]
    refine List.map_congr_left fun c hc ↦ ?_
    obtain ⟨-, oc, -, -, hoc, -⟩ := Script.mem_inOrder wo hc
    rw [h.matched c oc hoc, Script.home_eq hoc]
  -- on both sides the children in order are left
  calc (d.children (old.place po)).filter (remains old.live.length d)
      = ((new.children pn).filter (remains old.live.length d ∘ f)).map f := by
        rw [← h.matched pn po hpo, h.embeds.children pn hpl, List.filter_map]
    _ = (Script.inOrder old new m pn).map f := by
        refine congrArg _ ((List.filter_congr fun c ↦ remains_image h wo wn hm hpl).trans ?_)
        exact Sequence.filter_contains_of_sublist hsub (wn.nodup_children pn)
    _ = os.map old.place := hmap
    _ = ((old.children po).filter ((fun c ↦ d.live.contains c && d.mark c != .movedHere) ∘
          old.place)).map old.place := by
        refine congrArg _ (((List.filter_congr hright).trans ?_).symm)
        exact Sequence.filter_contains_of_sublist hos (wo.nodup_children po)
    _ = _ := by rw [Script.children_pristine wo hpol, List.filter_map]

/-- The tree that the script of a clean matching makes is an edited branch. -/
theorem edited_of_patched (h : Script.Patched old new m f d) (wo : old.WellFormed)
    (wn : new.WellFormed) (hm : Script.Clean old new m) (uo : old.Unambiguous)
    (un : new.Unambiguous) : Edited old.live.length (Script.pristine old) d := by
  have hroot : root < old.live.length := wo.place_root ▸ place_lt wo.root_mem_live
  refine ⟨branch_of_patched h wo wn hm, hroot, fun p hp hpn ↦ ?_, fun x hx hxn ↦ ?_,
    fun x hx hxn ↦ ?_⟩
  · obtain ⟨pn, po, -, hpo, -, rfl⟩ := h.exists_of_lt wn hp hpn
    exact order_of_patched h wo wn hm hpo
  · obtain ⟨c, oc, -, hco, rfl, hplace⟩ := h.exists_of_lt wn hx hxn
    obtain ⟨us, hus⟩ := h.notes _ hxn
    obtain ⟨y, hy, hyu⟩ := Option.map_eq_some_iff.1 hus
    refine ⟨y, hy, ?_⟩
    rw [← hplace, Script.content_pristine wo (hm.live c oc hco).2, hplace]
    obtain rfl : y.updates = us := congrArg Prod.snd hyu
    exact h.records uo un c oc _ _ hco hus
  · obtain ⟨c, oc, hc, hco, rfl, hplace⟩ := h.exists_of_lt wn hx hxn
    refine ⟨?_, Content.unambiguous_of_same ((h.mirrors uo un).content c hc) (un c hc)⟩
    rw [← hplace, Script.content_pristine wo (hm.live c oc hco).2]
    exact uo oc (hm.live c oc hco).2

theorem edited_derive (wo : old.WellFormed) (wn : new.WellFormed) (h : m.OneToOne)
    (uo : old.Unambiguous) (un : new.Unambiguous) :
    ∃ d, Script.patch old (Script.derive old new m) = .ok d ∧
      Edited old.live.length (Script.pristine old) d := by
  obtain ⟨d, f, hd, hp⟩ := Script.patched_derive wo wn h
  exact ⟨d, hd, edited_of_patched hp wo wn (Script.clean_clean wo wn h) uo un⟩

end FlowMerge.Merge
