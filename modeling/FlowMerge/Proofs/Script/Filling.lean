import FlowMerge.Proofs.Script.Growth
import Mathlib.Data.List.Induction

namespace FlowMerge.Script

open FlowMerge.Tree

variable {old new d g : Tree} {m : Matching} {n o x : NodeId} {pre post : List NodeId}
  {K P K' P' : NodeId → Prop} {f : NodeId → NodeId}

theorem visited_snoc : Visited new m (pre ++ [n]) x ↔
    Visited new m pre x ∨ Came new (wholeNew new m n) n x := by
  constructor
  · rintro ⟨v, hv, hx⟩
    rcases List.mem_append.1 hv with hv | hv
    · exact .inl ⟨v, hv, hx⟩
    · obtain rfl := List.mem_singleton.1 hv
      exact .inr hx
  · rintro (⟨v, hv, hx⟩ | hx)
    · exact ⟨v, List.mem_append_left _ hv, hx⟩
    · exact ⟨n, List.mem_append_right _ List.mem_cons_self, hx⟩

theorem wholeNew_of_matched (hno : m.old? n = some o) : wholeNew new m n = false := by
  rw [wholeNew, Matching.hasNew, hno]
  rfl

def Known (new : Tree) (m : Matching) (pre : List NodeId) (x : NodeId) : Prop :=
  (∃ o, m.old? x = some o) ∨ Visited new m pre x

namespace Grown

theorem congr (h : Grown old new m g K P f d) (hK : ∀ x, K x ↔ K' x) (hP : ∀ x, P x ↔ P' x) :
    Grown old new m g K' P' f d := by
  obtain rfl : K = K' := funext fun x ↦ propext (hK x)
  obtain rfl : P = P' := funext fun x ↦ propext (hP x)
  exact h

theorem keep (h : Grown old new m g K P f d) (wn : new.WellFormed) (hn : K n)
    (hs : stays old new m n = true) : Grown old new m g K (fun x ↦ P x ∨ x = n) f d :=
  { h with
    placed x hx := by
      rcases hx with hx | rfl
      · exact h.placed x hx
      · exact hn
    children x hx := by
      rw [h.children x hx]
      refine congrArg _ (shown_congr fun c hc ↦ ⟨Or.imp_left .inl, ?_⟩)
      rintro ((hP | rfl) | hin)
      · exact .inl hP
      · exact .inr ((stays_iff (wn.mem_children.1 hc)).1 hs)
      · exact .inr hin
    top x hx hPx := h.top x hx fun hP ↦ hPx (.inl hP) }

end Grown

theorem applyAddition_update {c : Change} (h : c.kind = .update) (a : Option NodeId) :
    applyAddition d (c, a) = .ok d := by
  cases a <;> simp only [applyAddition, h]

theorem applyAddition_move {c : Change} (h : c.kind = .move) (x : NodeId) :
    applyAddition d (c, some x) = attach d c x := by
  simp only [applyAddition, h]

theorem applyAddition_insertion {c : Change} {u : Tree} (h : c.kind.isInsertion = true)
    (hu : c.payload = some u) (a : Option NodeId) : applyAddition d (c, a) =
      attach ((d.importSubtree u root).1.markSubtree d.size .inserted) c d.size := by
  have hk : c.kind = .insertion ∨ c.kind = .subtreeInsertion := by
    rwa [ChangeKind.isInsertion, Bool.or_eq_true, beq_iff_eq, beq_iff_eq] at h
  rcases hk with hk | hk
  · cases a <;> simp only [applyAddition, hk, hu] <;> rfl
  · cases a <;> simp only [applyAddition, hk, hu] <;> rfl

/-- The one change at an unmatched node brings it along, with all below it if nothing there is
matched. -/
theorem exists_planted (old : Tree) (w : d.WellFormed) (wn : new.WellFormed) (hn : n ∈ new.live)
    (hno : m.old? n = none) (hroot : d.delta? root ≠ none) :
    ∃ c u k, additionsAt old new m n = [c] ∧ c.kind.isInsertion = true ∧
      c.new = some (new.path n) ∧ c.payload = some u ∧
        Planted new (wholeNew new m n) n d
          ((d.importSubtree u root).1.markSubtree d.size .inserted) k := by
  simp only [additionsAt, hno]
  cases wholeNew new m n with
  | true =>
    obtain ⟨k, hk⟩ := planted_whole w wn hn hroot
    exact ⟨_, _, k, rfl, rfl, rfl, rfl, hk⟩
  | false =>
    obtain ⟨k, hk⟩ := planted_single w new n hroot
    exact ⟨_, _, k, rfl, rfl, rfl, rfl, hk⟩

theorem Came.unmatched (wn : new.WellFormed) (hn : n ∈ new.live) (hno : m.old? n = none)
    (hx : Came new (wholeNew new m n) n x) : m.old? x = none := by
  rcases hx with rfl | ⟨hw, hx⟩
  · exact hno
  · exact (wholeNew_iff wn (wn.live_lt hn)).1 hw x hx

section

variable (wo : old.WellFormed) (wn : new.WellFormed) (hm : Clean old new m)
  (hd : g.delta? root ≠ none)
include wo wn hm

theorem turn_matched (ht : Turn new m pre n) (hno : m.old? n = some o)
    (h : Grown old new m g (Known new m pre) (Visited new m pre) f d) :
    ∃ d', (aimed (pristine old) (additionsAt old new m n)).foldlM applyAddition d = .ok d' ∧
      Grown old new m g (Known new m pre) (fun x ↦ Visited new m pre x ∨ x = n) f d' := by
  have hol := (hm.live n o hno).2
  have hupdate (d' : Tree) : (aimed (pristine old) (updateOf old new n o)).foldlM applyAddition
      d' = .ok d' := by
    rw [updateOf]
    split
    · rfl
    · rw [aimed, List.map_singleton, List.foldlM_cons, applyAddition_update rfl]
      rfl
  have hsplit : aimed (pristine old) (additionsAt old new m n) =
      aimed (pristine old) (moveOf old new m (ordered old new m n) n o) ++
        aimed (pristine old) (updateOf old new n o) := by
    rw [additionsAt, hno, aimed, List.map_append]
    rfl
  rw [hsplit, moveOf_eq wo wn hm hno]
  cases hs : stays old new m n with
  | true => exact ⟨d, hupdate d, h.keep wn (.inl ⟨o, hno⟩) hs⟩
  | false =>
    have hr : n ≠ root := by
      rintro rfl
      rw [stays_root wn] at hs
      cases hs
    obtain ⟨p, hp, -⟩ := wn.exists_parent_of_live ht.live hr
    -- the nodes that stay are those in order, and `n` is not to stay
    have hord : n ∉ ordered old new m n := by
      intro hin
      rw [ordered, hp] at hin
      rw [(stays_iff hp).2 hin] at hs
      cases hs
    obtain ⟨d', hd', h'⟩ := h.attach wn (.inl ⟨o, hno⟩) (ht.unvisited n .refl) hord hp
      (fun a ha hne ↦ (ht.above a ha hne).1) ht.earlier
      (c := { kind := .move, old := some (old.path o), new := some (new.path n) }) rfl
    refine ⟨d', foldlM_append_ok ?_ (hupdate d'), h'⟩
    rw [if_neg Bool.false_ne_true, aimed, List.map_singleton, List.foldlM_cons,
      aim_path wo hol rfl rfl, applyAddition_move rfl, ← h.matched n o hno, hd']
    rfl

include hd

theorem turn_free (ht : Turn new m pre n) (hno : m.old? n = none)
    (h : Grown old new m g (Known new m pre) (Visited new m pre) f d) :
    ∃ d' f', (aimed (pristine old) (additionsAt old new m n)).foldlM applyAddition d = .ok d' ∧
      Grown old new m g (fun x ↦ Known new m pre x ∨ Came new (wholeNew new m n) n x)
        (fun x ↦ Visited new m pre x ∨ Came new (wholeNew new m n) n x) f' d' := by
  have hr : n ≠ root := by
    rintro rfl
    rw [hm.roots] at hno
    cases hno
  obtain ⟨p, hp, -⟩ := wn.exists_parent_of_live ht.live hr
  have hord : n ∉ ordered old new m n := by
    intro hin
    rw [ordered, hp] at hin
    obtain ⟨-, o, -, -, ho, -⟩ := mem_inOrder wo hin
    rw [hno] at ho
    cases ho
  have hroot : d.delta? root ≠ none := by
    obtain ⟨y, hy⟩ := Option.ne_none_iff_exists'.1 hd
    rw [delta?, (h.data root (lt_size_of_delta? hy)).2]
    exact hd
  have hfree (x : NodeId) := Came.unmatched (x := x) wn ht.live hno
  obtain ⟨c, u, k, hc, hkind, hpath, hpayload, hk⟩ :=
    exists_planted old h.wellFormed wn ht.live hno hroot
  -- what comes along with `n` is neither matched nor brought by an earlier turn
  have hunknown : ∀ x, Came new (wholeNew new m n) n x → ¬ Known new m pre x := by
    rintro x hx (⟨o, ho⟩ | hv)
    · rw [hfree x hx] at ho
      cases ho
    · exact ht.unvisited x hx.above hv
  obtain ⟨f', hf', h'⟩ := h.plant hk hunknown wo wn (.inl ⟨_, hm.roots⟩) ht.live hfree
    fun b hb ↦ ht.unvisited b (.single (wn.mem_children.1 hb))
  obtain ⟨d', hd', h''⟩ := h'.attach wn (.inr (.inl rfl))
    (fun hP ↦ hP.elim (ht.unvisited n .refl) fun hP ↦ hP.2 rfl) hord hp
    (fun a ha hne ↦ .inl (ht.above a ha hne).1)
    (fun a q s ha hq hs hlt ↦ .inl (ht.earlier a q s ha hq hs hlt)) hpath
  refine ⟨d', f', ?_, h''.congr (fun _ ↦ .rfl) fun x ↦ ?_⟩
  · rw [hc, aimed, List.map_singleton, List.foldlM_cons,
      applyAddition_insertion hkind hpayload, ← hf']
    rw [← hf'] at hd'
    rw [hd']
    rfl
  · rw [or_assoc]
    refine or_congr_right ⟨?_, fun hx ↦ ?_⟩
    · rintro (⟨hx, -⟩ | rfl)
      · exact hx
      · exact .inl rfl
    · by_cases hxn : x = n
      · exact .inr hxn
      · exact .inl ⟨hx, hxn⟩

theorem turn (ht : Turn new m pre n)
    (h : Grown old new m g (Known new m pre) (Visited new m pre) f d) :
    ∃ d' f', (aimed (pristine old) (additionsAt old new m n)).foldlM applyAddition d = .ok d' ∧
      Grown old new m g (Known new m (pre ++ [n])) (Visited new m (pre ++ [n])) f' d' := by
  have hknown (x : NodeId) : Known new m (pre ++ [n]) x ↔
      Known new m pre x ∨ Came new (wholeNew new m n) n x := by
    rw [Known, visited_snoc, Known, or_assoc]
  cases hno : m.old? n with
  | some o =>
    have hcame (x : NodeId) : Came new (wholeNew new m n) n x ↔ x = n := by
      rw [wholeNew_of_matched hno]
      exact or_iff_left fun hx ↦ Bool.false_ne_true hx.1
    obtain ⟨d', hd', h'⟩ := turn_matched wo wn hm ht hno h
    refine ⟨d', f, hd', h'.congr (fun x ↦ ?_) fun x ↦ ?_⟩
    · rw [hknown, hcame, or_iff_left_of_imp]
      rintro rfl
      exact .inl ⟨o, hno⟩
    · rw [visited_snoc, hcame]
  | none =>
    obtain ⟨d', f', hd', h'⟩ := turn_free wo wn hm hd ht hno h
    exact ⟨d', f', hd', h'.congr (fun x ↦ (hknown x).symm) fun x ↦ visited_snoc.symm⟩

omit hd in
theorem grown_ground (h : Ground old new m g) :
    Grown old new m g (Known new m []) (Visited new m []) (home old m) g := by
  have hnone (x : NodeId) : ¬ Visited new m [] x := fun ⟨_, hv, _⟩ ↦ List.not_mem_nil hv
  have hmatched {x : NodeId} (hx : Known new m [] x) : ∃ o, m.old? x = some o :=
    hx.resolve_right (hnone x)
  have hlt {x o : NodeId} (hx : m.old? x = some o) : old.place o < g.size :=
    Nat.lt_of_lt_of_le (place_lt (hm.live x o hx).2) h.size_le
  exact {
    wellFormed := h.wellFormed
    size_le := Nat.le_refl _
    root := by
      rw [home_eq hm.roots, wo.place_root]
    known x o hx := .inl ⟨o, hx⟩
    placed x hx := absurd hx (hnone x)
    live x hx := by
      obtain ⟨o, ho⟩ := hmatched hx
      exact (hm.live x o ho).1
    matched x o hx := home_eq hx
    fresh x hx hxn := by
      obtain ⟨o, ho⟩ := hmatched hx
      rw [hxn] at ho
      cases ho
    lt x hx := by
      obtain ⟨o, ho⟩ := hmatched hx
      rw [home_eq ho]
      exact hlt ho
    inj x y hx hy he := by
      obtain ⟨o, ho⟩ := hmatched hx
      obtain ⟨o', ho'⟩ := hmatched hy
      exact hm.home_inj ho ho' he
    children x hx := by
      obtain ⟨o, ho⟩ := hmatched hx
      rw [home_eq ho, h.children x o ho]
      refine congrArg _ ?_
      have hsub := (@inOrder_spec old new m x o ho).1
      rw [← Sequence.filter_contains_of_sublist hsub (wn.nodup_children x)]
      refine List.filter_congr fun c _ ↦ ?_
      simp [hnone]
    top x hx _ hxr hxo := by
      obtain ⟨o, ho⟩ := hmatched hx
      obtain ⟨p, hp, -⟩ := wn.exists_parent_of_live (hm.live x o ho).1 hxr
      rw [home_eq ho]
      refine h.top x o ho (Bool.eq_false_iff.2 fun hs ↦ hxo ?_)
      rw [ordered, hp]
      exact (stays_iff hp).1 hs
    content x hx hxn := by
      obtain ⟨o, ho⟩ := hmatched hx
      rw [hxn] at ho
      cases ho
    data y _ := ⟨rfl, rfl⟩
    inserted y hy hy' := absurd hy (Nat.not_le_of_lt hy') }

theorem turns (h : Ground old new m g) (hpre : new.pruned (wholeNew new m) = pre ++ post) :
    ∃ d f, (pre.flatMap fun n ↦ aimed (pristine old) (additionsAt old new m n)).foldlM
        applyAddition g = .ok d ∧
      Grown old new m g (Known new m pre) (Visited new m pre) f d := by
  induction pre using List.reverseRecOn generalizing post with
  | nil => exact ⟨g, home old m, rfl, grown_ground wo wn hm h⟩
  | append_singleton pre n ih =>
    rw [List.append_assoc] at hpre
    obtain ⟨d, f, hdf, hgrown⟩ := ih hpre
    obtain ⟨d', f', hd', hgrown'⟩ := turn wo wn hm hd (turn_of_split wn hpre) hgrown
    refine ⟨d', f', ?_, hgrown'⟩
    rw [List.flatMap_append, List.flatMap_singleton]
    exact foldlM_append_ok hdf hd'

end

theorem applyAddition_removal {c : Change} (hc : c ∈ removalsAt old m o) (a : Option NodeId) :
    applyAddition d (c, a) = .ok d := by
  rw [removalsAt] at hc
  split at hc
  · cases hc
  · split at hc
    · rw [List.mem_singleton.1 hc]
      cases a <;> rfl
    · rw [List.mem_singleton.1 hc]
      cases a <;> rfl

theorem removals_fill_nothing (os : List NodeId) (d : Tree) :
    (os.flatMap fun o ↦ aimed (pristine old) (removalsAt old m o)).foldlM applyAddition d =
      .ok d := by
  have hall : ∀ steps : List Step, (∀ s ∈ steps, ∃ o, s.1 ∈ removalsAt old m o) →
      steps.foldlM applyAddition d = .ok d := by
    intro steps
    induction steps with
    | nil => exact fun _ ↦ rfl
    | cons s steps ih =>
      intro hs
      obtain ⟨o, ho⟩ := hs s List.mem_cons_self
      rw [List.foldlM_cons, applyAddition_removal ho]
      exact ih fun s' hs' ↦ hs s' (List.mem_cons_of_mem _ hs')
  refine hall _ fun s hs ↦ ?_
  obtain ⟨o, -, hs⟩ := List.mem_flatMap.1 hs
  obtain ⟨c, hc, rfl⟩ := List.mem_map.1 hs
  exact ⟨o, hc⟩

/-- What is known of the tree `d` that the script of a clean matching makes. The live nodes of the
new tree have their images along `f`, those of matched nodes where the old ones stood. -/
structure Patched (old new : Tree) (m : Matching) (f : NodeId → NodeId) (d : Tree) : Prop where
  wellFormed : d.WellFormed
  embeds : Embeds f new d
  inj : ∀ x ∈ new.live, ∀ y ∈ new.live, f x = f y → x = y
  matched : ∀ n o, m.old? n = some o → f n = old.place o
  inserted : ∀ n ∈ new.live, m.old? n = none →
    old.live.length ≤ f n ∧ d.delta? (f n) = some { mark := .inserted }
  mirrors : old.Unambiguous → new.Unambiguous → Mirrors f new d
  notes : ∀ x < old.live.length, ∃ us, d.notes x = some (some x, us)
  records : old.Unambiguous → new.Unambiguous → ∀ n o us b, m.old? n = some o →
    d.notes (f n) = some (b, us) → us.Records (old.content o) (d.content (f n))
  fresh : ∀ x, old.live.length ≤ x → (d.notes x).bind Prod.fst = none
  mark : ∀ n o us b, m.old? n = some o → d.notes (f n) = some (b, us) →
    d.mark (f n) = if stays old new m n then
      (if us.isEmpty then .unchanged else .updated) else .movedHere

theorem Grown.patched {K P : NodeId → Prop} (h : Grown old new m g K P f d)
    (wn : new.WellFormed) (hm : Clean old new m) (hg : Ground old new m g)
    (hK : ∀ x ∈ new.live, K x) (hP : ∀ x ∈ new.live, P x) : Patched old new m f d := by
  have hlt {n o : NodeId} (hno : m.old? n = some o) : f n < g.size := by
    rw [h.matched n o hno]
    exact Nat.lt_of_lt_of_le (place_lt (hm.live n o hno).2) hg.size_le
  have hnotes {x : NodeId} (hx : x < g.size) : d.notes x = g.notes x := by
    rw [Tree.notes, delta?, (h.data x hx).2]
    rfl
  have hembeds : Embeds f new d := by
    refine ⟨h.root, fun x hx ↦ ?_⟩
    rw [h.children x (hK x hx), shown_eq_children fun c hc ↦ .inl (hP c (wn.child_live hx hc))]
  exact {
    wellFormed := h.wellFormed
    embeds := hembeds
    inj x hx y hy := h.inj x y (hK x hx) (hK y hy)
    matched := h.matched
    inserted n hn hno := by
      have hfresh := h.fresh n (hK n hn) hno
      exact ⟨Nat.le_trans hg.size_le hfresh, h.inserted _ hfresh (h.lt n (hK n hn))⟩
    mirrors uo un := by
      refine ⟨hembeds, fun x hx ↦ ?_⟩
      cases hno : m.old? x with
      | none =>
        rw [h.content x (hK x hx) hno]
        exact Content.same_refl _
      | some o =>
        rw [(h.data _ (hlt hno)).1, h.matched x o hno]
        exact hg.content uo un x o hno
    notes x hx := by
      rw [hnotes (Nat.lt_of_lt_of_le hx hg.size_le)]
      exact hg.notes x hx
    records uo un n o us b hno hus := by
      rw [hnotes (hlt hno), h.matched n o hno] at hus
      rw [(h.data _ (hlt hno)).1, h.matched n o hno]
      exact hg.records uo un n o us b hno hus
    fresh x hx := by
      by_cases hxg : x < g.size
      · rw [hnotes hxg]
        exact hg.fresh x hx
      · by_cases hxd : x < d.size
        · rw [notes_of_delta? (h.inserted x (Nat.le_of_not_lt hxg) hxd)]
          rfl
        · rw [notes_of_size_le (Nat.le_of_not_lt hxd)]
          rfl
    mark n o us b hno hus := by
      rw [hnotes (hlt hno), h.matched n o hno] at hus
      rw [Tree.mark, delta?, (h.data _ (hlt hno)).2, h.matched n o hno]
      exact hg.mark n o us b hno hus }

namespace Patched

variable (h : Patched old new m f d)
include h

theorem lt_of_matched (hm : Clean old new m) (hno : m.old? n = some o) :
    f n < old.live.length := by
  rw [h.matched n o hno]
  exact place_lt (hm.live n o hno).2

theorem exists_of_lt (wn : new.WellFormed) (hx : x ∈ d.live) (hlt : x < old.live.length) :
    ∃ n o, n ∈ new.live ∧ m.old? n = some o ∧ f n = x ∧ old.place o = x := by
  rw [h.embeds.live_map wn h.wellFormed] at hx
  obtain ⟨n, hn, rfl⟩ := List.mem_map.1 hx
  cases hno : m.old? n with
  | some o => exact ⟨n, o, hn, hno, rfl, (h.matched n o hno).symm⟩
  | none => exact absurd hlt (Nat.not_lt_of_le (h.inserted n hn hno).1)

theorem delta?_of_le (wn : new.WellFormed) (hm : Clean old new m) (hx : x ∈ d.live)
    (hle : old.live.length ≤ x) : d.delta? x = some { mark := .inserted } := by
  rw [h.embeds.live_map wn h.wellFormed] at hx
  obtain ⟨n, hn, rfl⟩ := List.mem_map.1 hx
  cases hno : m.old? n with
  | some o => exact absurd (h.lt_of_matched hm hno) (Nat.not_lt_of_le hle)
  | none => exact (h.inserted n hn hno).2

theorem mark_of_matched (hm : Clean old new m) (hno : m.old? n = some o) :
    (d.mark (f n)).isInsertion = false ∧
      (d.mark (f n) != .movedHere) = stays old new m n := by
  obtain ⟨us, hus⟩ := h.notes _ (h.lt_of_matched hm hno)
  rw [h.mark n o us _ hno hus]
  cases stays old new m n <;> cases us.isEmpty <;> exact ⟨rfl, rfl⟩

end Patched

theorem patched_ofMatching (wo : old.WellFormed) (wn : new.WellFormed) (hm : Clean old new m) :
    ∃ d f, patch old (ofMatching old new m) = .ok d ∧ Patched old new m f d := by
  obtain ⟨d₁, k, g, hmoves, hdeletions, hg⟩ := ground_stepsOf wo wn hm
  have hroot : g.delta? root ≠ none := by
    have hlen := place_lt wo.root_mem_live
    rw [wo.place_root] at hlen
    obtain ⟨us, hus⟩ := hg.notes root hlen
    intro hnone
    rw [notes_eq_none.2 hnone] at hus
    cases hus
  obtain ⟨d, f, hturns, hgrown⟩ := turns wo wn hm hroot hg
    (List.append_nil (new.pruned (wholeNew new m))).symm
  have hvisited : ∀ x ∈ new.live, Visited new m (new.pruned (wholeNew new m)) x := by
    intro x hx
    rcases wn.pruned_or_below (wholeNew new m) hx with hx | ⟨a, ha, hw, hax, -⟩
    · exact ⟨x, hx, .inl rfl⟩
    · exact ⟨a, ha, .inr ⟨hw, hax⟩⟩
  refine ⟨d, f, ?_, hgrown.patched wn hm hg (fun x hx ↦ Or.inr (hvisited x hx)) hvisited⟩
  have hfill : (stepsOf old new m).foldlM applyAddition g = .ok d := by
    rw [stepsOf_eq wn]
    exact foldlM_append_ok hturns (removals_fill_nothing _ d)
  rw [patch_eq _ fun c hc ↦ target_ofMatching wo wn hm hc]
  change (((stepsOf old new m).foldlM applyMove
    ((stepsOf old new m).foldl applyUpdate (pristine old), 0)) >>= fun s ↦
      (stepsOf old new m).foldlM applyDeletion s.1 >>= fun d ↦
        (stepsOf old new m).foldlM applyAddition d) = _
  rw [hmoves]
  change ((stepsOf old new m).foldlM applyDeletion d₁ >>= _) = _
  rw [hdeletions]
  exact hfill

end FlowMerge.Script
