import FlowMerge.Proofs.Matching.Itself

namespace FlowMerge

namespace Matching

open Score FlowMerge.Tree

section Size

variable {m m' : Matching} {z : NodeId}

theorem exists_keys (m : Matching) :
    ∃ l : List NodeId, l.Nodup ∧ l.length = m.size ∧ ∀ x, x ∈ l ↔ m.hasNew x = true := by
  refine ⟨m.toOld.keys, Std.TreeMap.nodup_keys, Std.TreeMap.length_keys, fun x ↦ ?_⟩
  rw [Std.TreeMap.mem_keys, Std.TreeMap.mem_iff_isSome_getElem?]
  rfl

theorem size_le {l : List NodeId} (h : ∀ x, m.hasNew x = true → x ∈ l) : m.size ≤ l.length := by
  obtain ⟨ks, hnd, hlen, hks⟩ := m.exists_keys
  rw [← hlen]
  exact (hnd.subperm fun x hx ↦ h x ((hks x).1 hx)).length_le

theorem size_lt {l : List NodeId} (h : ∀ x, m.hasNew x = true → x ∈ l) (hz : z ∈ l)
    (hfree : m.hasNew z = false) : m.size < l.length := by
  obtain ⟨ks, hnd, hlen, hks⟩ := m.exists_keys
  have hz' : z ∉ ks := by simp [hks, hfree]
  have hsub : z :: ks ⊆ l := by
    intro x hx
    rcases List.mem_cons.1 hx with rfl | hx
    · exact hz
    · exact h x ((hks x).1 hx)
  rw [← hlen]
  exact ((List.nodup_cons.2 ⟨hz', hnd⟩).subperm hsub).length_le

end Size

variable {m : Matching} {t : Tree} {c x z : NodeId} {threshold : Rat}

/-- Control flow that is tied to itself, with all leaves. -/
structure Risen (t : Tree) (m : Matching) : Prop where
  selfTied : m.SelfTied
  controlFlow : ∀ x, m.hasNew x = true → x ∈ t.live ∧ t.isControlFlow x = true
  leaves : ∀ x ∈ t.leaves, m.hasNew x = true

def Reaches (t : Tree) (m : Matching) (z : NodeId) : Prop :=
  ∀ d ∈ t.controlFlowBelow z, m.hasNew d = true

namespace Risen

theorem link (h : m.Risen t) (hz : z ∈ t.live) (hcf : t.isControlFlow z = true) :
    (m.link z z).Risen t where
  selfTied := h.selfTied.link z
  controlFlow x hx := by
    rcases (h.selfTied.hasNew_link z x).1 hx with rfl | hx
    · exact ⟨hz, hcf⟩
    · exact h.controlFlow x hx
  leaves x hx := (h.selfTied.hasNew_link z x).2 (.inr (h.leaves x hx))

variable (hp : t.IsProcess)
include hp

theorem promotable (h : m.Risen t) (hpos : 0 < threshold) (hz : z ∈ t.live)
    (hfree : m.hasNew z = false) (hreach : m.Reaches t z) :
    promotable Comparator.process threshold t t m z z = true := by
  have w := hp.wellFormed
  have hold : m.hasOld z = false := by rw [h.selfTied.hasOld, hfree]
  have hcovers : coversHalf t t m z z = true := by
    have hinside : ((t.controlFlowBelow z).countP fun d ↦ (m.new? d).any fun nd ↦
        nd != z && t.isAncestorOrSelf z nd) = (t.controlFlowBelow z).length := by
      rw [List.countP_eq_length]
      intro d hd
      obtain ⟨habove, hne, -⟩ := (w.mem_controlFlowBelow (w.live_lt hz)).1 hd
      have hdd := (h.selfTied.oneToOne d d).1 (h.selfTied.old?_iff.2 (hreach d hd))
      simp [hdd, hne, w.isAncestorOrSelf_iff, habove]
    simp only [coversHalf, hinside, decide_eq_true_eq]
    omega
  simp [Matching.promotable, hfree, hold, Comparator.process_self (.refl t), atLeast_zero hpos,
    hcovers]

theorem promote (h : m.Risen t) (hx : x ∈ t.live) (hcf : t.isControlFlow x = true) :
    (promote Comparator.process threshold t t m (x, x)).Risen t ∧
      ∀ z, m.hasNew z = true →
        (promote Comparator.process threshold t t m (x, x)).hasNew z = true := by
  cases hpx : t.parent? x with
  | none => simpa [Matching.promote, hpx] using h
  | some p =>
    obtain ⟨hpl, hpcf⟩ := hp.parent hx hcf hpx
    simp only [Matching.promote, hpx]
    split
    · exact ⟨h.link hpl hpcf, fun z hz ↦ (h.selfTied.hasNew_link p z).2 (.inr hz)⟩
    · exact ⟨h, fun _ hz ↦ hz⟩

theorem round (h : m.Risen t) (hpos : 0 < threshold) :
    (Matching.round Comparator.process threshold t t m).Risen t ∧
      (∀ x, m.hasNew x = true →
        (Matching.round Comparator.process threshold t t m).hasNew x = true) ∧
      ∀ z c, m.hasNew c = true → t.parent? c = some z → m.Reaches t z →
        (Matching.round Comparator.process threshold t t m).hasNew z = true := by
  suffices hall : (Matching.round Comparator.process threshold t t m).Risen t ∧
      (∀ x, m.hasNew x = true →
        (Matching.round Comparator.process threshold t t m).hasNew x = true) ∧
      ∀ z c, (c, c) ∈ m.pairs → t.parent? c = some z → m.Reaches t z →
        (Matching.round Comparator.process threshold t t m).hasNew z = true from
    ⟨hall.1, hall.2.1, fun z c hc ↦ hall.2.2 z c (mem_pairs.2 (h.selfTied.old?_iff.2 hc))⟩
  refine foldl_induction (P := fun pre (m' : Matching) ↦ m'.Risen t ∧
    (∀ x, m.hasNew x = true → m'.hasNew x = true) ∧
    ∀ z c, (c, c) ∈ pre → t.parent? c = some z → m.Reaches t z → m'.hasNew z = true)
    ⟨h, fun _ hx ↦ hx, fun _ _ hc ↦ absurd hc List.not_mem_nil⟩ ?_
  rintro pre ⟨n, o⟩ post m' hsplit ⟨hrisen, hmono, hready⟩
  have hno : m.old? n = some o := mem_pairs.1 (hsplit ▸ List.mem_append_right _ List.mem_cons_self)
  obtain rfl := h.selfTied.eq n o hno
  obtain ⟨hn, hcf⟩ := h.controlFlow o (h.selfTied.old?_iff.1 hno)
  obtain ⟨hrisen', hmono'⟩ := hrisen.promote hp hn hcf
  refine ⟨hrisen', fun x hx ↦ hmono' x (hmono x hx), fun z c hc hz hreach ↦ ?_⟩
  rcases List.mem_append.1 hc with hc | hc
  · exact hmono' z (hready z c hc hz hreach)
  · obtain ⟨rfl, -⟩ := Prod.mk.inj (List.mem_singleton.1 hc)
    -- a parent that an earlier pair took along has stayed tied
    cases hfree : m'.hasNew z with
    | true => exact hmono' z hfree
    | false =>
      have hready := hrisen.promotable hp hpos (hp.parent hn hcf hz).1 hfree fun d hd ↦
        hmono d (hreach d hd)
      simp only [Matching.promote, hz, hready, if_true]
      exact (hrisen.selfTied.hasNew_link z z).2 (.inl rfl)

theorem all_of_ready (h : m.Risen t)
    (hready : ∀ z c, m.hasNew c = true → t.parent? c = some z → m.Reaches t z →
      m.hasNew z = true) :
    ∀ x ∈ t.live, t.isControlFlow x = true → x ≠ root → m.hasNew x = true := by
  have w := hp.wellFormed
  suffices hall : ∀ x ∈ t.live, ∀ d, t.Above x d → t.isControlFlow d = true → d ≠ root →
      m.hasNew d = true from fun x hx ↦ hall x hx x .refl
  intro x
  induction x using w.down_induction with
  | h x ih =>
    intro hx d had hcf hr
    rcases had.cases_head with rfl | ⟨c, hxc, hcd⟩
    · rcases isLeaf_or_isInner hcf with hl | hi
      · exact h.leaves x (mem_leaves.2 ⟨hx, hr, hl⟩)
      · -- a child that is control flow has its turn in the round, and takes `x` along
        obtain ⟨c, hc, hccf⟩ := List.any_eq_true.1 (Bool.and_eq_true_iff.1 hi).2
        have hxc := w.mem_children.1 hc
        refine hready x c (ih c hc (w.child_live hx hc) c .refl hccf (w.child_ne_root hxc)) hxc ?_
        intro d hd
        obtain ⟨had, hne, hdcf⟩ := (w.mem_controlFlowBelow (w.live_lt hx)).1 hd
        rcases had.cases_head with rfl | ⟨b, hxb, hbd⟩
        · exact absurd rfl hne
        · have hb := w.mem_children.2 hxb
          refine ih b hb (w.child_live hx hb) d hbd hdcf ?_
          rintro rfl
          exact hr (above_of_top w.root_top had)
    · have hc := w.mem_children.2 hxc
      exact ih c hc (w.child_live hx hc) d hcd hcf hr

theorem rounds (h : m.Risen t) (hpos : 0 < threshold) (fuel : Nat)
    (hfuel : t.size ≤ m.size + fuel) :
    (Matching.rounds Comparator.process threshold t t fuel m).Risen t ∧
      ∀ x ∈ t.live, t.isControlFlow x = true → x ≠ root →
        (Matching.rounds Comparator.process threshold t t fuel m).hasNew x = true := by
  have w := hp.wellFormed
  induction fuel generalizing m with
  | zero =>
    refine ⟨h, fun x hx _ _ ↦ ?_⟩
    by_contra hfree
    have hlt := size_lt (l := List.range t.size) (z := x) (m := m)
      (fun y hy ↦ List.mem_range.2 (w.live_lt (h.controlFlow y hy).1))
      (List.mem_range.2 (w.live_lt hx)) (Bool.eq_false_iff.2 hfree)
    rw [List.length_range] at hlt
    omega
  | succ fuel ih =>
    obtain ⟨hrisen, hmono, hready⟩ := h.round hp hpos
    obtain ⟨ks, -, hlen, hks⟩ := (Matching.round Comparator.process threshold t t m).exists_keys
    have hsub (x : NodeId) (hx : m.hasNew x = true) : x ∈ ks := (hks x).2 (hmono x hx)
    have hle := size_le hsub
    rw [Matching.rounds]
    split
    · next he =>
      -- a round that adds nothing has nothing left that is ready
      have hall := h.all_of_ready hp fun z c hc hz hreach ↦ ?_
      · exact ⟨hrisen, fun x hx hcf hr ↦ hmono x (hall x hx hcf hr)⟩
      by_contra hfree
      have hlt := size_lt hsub ((hks z).2 (hready z c hc hz hreach)) (Bool.eq_false_iff.2 hfree)
      omega
    · next hne => exact ih hrisen (by omega)

end Risen

theorem bottomUp_self {thresholds : Thresholds Rat} (hp : t.IsProcess)
    (hleaf : 0 < thresholds.leaf) (hinner : 0 < thresholds.inner) :
    ∀ x ∈ t.live, (bottomUp Comparator.process thresholds t t .empty).old? x = some x := by
  have hstart : (linkLeaves Comparator.process thresholds.leaf true t t .empty).Risen t := by
    obtain ⟨hself, hmem⟩ := SelfTied.empty.linkLeaves (.refl t) (zero_lt hleaf) true
    refine ⟨hself, fun x hx ↦ ?_, fun x hx ↦ (hmem x).2 (.inr hx)⟩
    rw [hmem, hasNew_empty] at hx
    obtain ⟨hx, -, hl⟩ := mem_leaves.1 (hx.resolve_left Bool.false_ne_true)
    exact ⟨hx, (Bool.and_eq_true_iff.1 hl).1⟩
  obtain ⟨hrisen, hall⟩ := hstart.rounds hp hinner (t.size + 1) (by omega)
  have hempty : size .empty = 0 := rfl
  simp only [bottomUp, hempty, if_true]
  refine TiesControlFlow.propagate hp ⟨hrisen.selfTied.link root, fun x ↦ ?_⟩
  rw [linkRoots, hrisen.selfTied.hasNew_link]
  constructor
  · rintro (rfl | hx)
    · exact ⟨hp.wellFormed.root_mem_live, hp.root⟩
    · exact hrisen.controlFlow x hx
  · rintro ⟨hx, hcf⟩
    by_cases hr : x = root
    · exact .inl hr
    · exact .inr (hall x hx hcf hr)

end Matching

end FlowMerge
