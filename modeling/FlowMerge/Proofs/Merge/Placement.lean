import FlowMerge.Proofs.Merge.Targets

namespace FlowMerge.Merge

open FlowMerge.Tree

variable {start m m' : Merge} {source u u' : Tree} {matching : Matching}
  {seen : List NodeId} {s t tp ps x : NodeId} {n i : Nat} {c : Content}
  {up : NodeId → Option NodeId}

namespace Aligned

variable (h : Aligned n source u matching)
include h

theorem eq_of_lt (hs : Branch n up source) (ht : Branch n up u) (hst : matching.old? s = some t)
    (hlt : s < n) : t = s := by
  have hb := h.base s t hst
  rw [hs.base?, if_pos hlt] at hb
  exact ((base?_eq_some ht).1 hb.symm).1

theorem le_of_le (hs : Branch n up source) (ht : Branch n up u) (hst : matching.old? s = some t)
    (hle : n ≤ s) : n ≤ t := by
  rw [← base?_eq_none ht, ← h.base s t hst]
  exact (base?_eq_none hs).2 hle

theorem congr (hlive : ∀ x, x ∈ u'.live ↔ x ∈ u.live) (hbase : ∀ x, base? u' x = base? u x) :
    Aligned n source u' matching where
  oneToOne := h.oneToOne
  live s t hst := ⟨(h.live s t hst).1, (hlive t).2 (h.live s t hst).2⟩
  base s t hst := (h.base s t hst).trans (hbase t).symm
  known x hx hsx hux := h.known x hx hsx ((hlive x).1 hux)

theorem not_tied (w : u.WellFormed) : matching.new? u.size = none := by
  cases hnew : matching.new? u.size with
  | none => rfl
  | some s =>
    have hlt := w.live_lt (h.live s _ ((h.oneToOne s _).2 hnew)).2
    exact absurd hlt (Nat.lt_irrefl _)

theorem old?_link (w : u.WellFormed) (hs : matching.old? s = none) :
    (matching.link s u.size).old? x = some t ↔
      (x = s ∧ t = u.size) ∨ matching.old? x = some t :=
  Matching.old?_link_of_free hs (h.not_tied w)

theorem added (hu : Branch n up u) (ha : Added c tp i u u') (hs : s ∈ source.live)
    (hfree : matching.old? s = none) (hnone : base? source s = none) :
    Aligned n source u' (matching.link s u.size) where
  oneToOne := h.oneToOne.link s u.size
  live x t hxt := by
    rcases (h.old?_link hu.wellFormed hfree).1 hxt with ⟨rfl, rfl⟩ | hxt
    · exact ⟨hs, (ha.live _).2 (.inr rfl)⟩
    · exact ⟨(h.live x t hxt).1, (ha.live t).2 (.inl (h.live x t hxt).2)⟩
  base x t hxt := by
    have hu' := ha.branch hu
    rcases (h.old?_link hu.wellFormed hfree).1 hxt with ⟨rfl, rfl⟩ | hxt
    · rw [hnone, (base?_eq_none hu').2 hu.le_size]
    · rw [h.base x t hxt, hu.base?, hu'.base?]
  known x hx hsx hux := by
    refine (h.old?_link hu.wellFormed hfree).2 (.inr (h.known x hx hsx ?_))
    exact ((ha.live x).1 hux).resolve_right (Nat.ne_of_lt (hu.lt_size hx))

end Aligned

def Refused (m : Merge) (s : NodeId) : Prop :=
  ∃ c ∈ m.conflicts.pending, c.kind = .move ∧ c.resolution = .branchB ∧ c.base = m.basePaths[s]?

/-- What holds of a merge that began as `start` when the source nodes in `seen` had their turns. -/
structure Placed (n : Nat) (up : NodeId → Option NodeId) (start : Merge) (seen : List NodeId)
    (m : Merge) : Prop where
  source : m.source = start.source
  basePaths : m.basePaths = start.basePaths
  resolved : m.conflicts.resolved = start.conflicts.resolved
  branch : Branch n up m.target
  size_le : start.target.size ≤ m.target.size
  aligned : Aligned n start.source m.target m.matching
  kept : ∀ s t, start.matching.old? s = some t → m.matching.old? s = some t
  live : ∀ x < start.target.size, x ∈ m.target.live ↔ x ∈ start.target.live
  fresh : ∀ x ∈ m.target.live, start.target.size ≤ x → n ≤ x
  awaiting : ∀ x < start.target.size, (x ∈ seen → start.source.mark x ≠ .movedHere) →
    m.target.parent? x = start.target.parent? x
  decided : ∀ s ∈ seen, s < n → start.source.mark s = .movedHere → s ∈ m.target.live →
    ∀ ps, start.source.parent? s = some ps → Refused m s ∨
      ∃ tp, m.matching.old? ps = some tp ∧ m.target.parent? s = some tp ∧
        m.target.mark s = .movedHere

/-- What a turn of `s` may do to the target and to the matching. -/
inductive Reshaped (n : Nat) (m : Merge) (s : NodeId) (m' : Merge) : Prop
  | same (alike : Alike m'.target m.target) (matching : m'.matching = m.matching)
  | moved (tp : NodeId) (i : Nat) (lt : s < n) (matching : m'.matching = m.matching)
      (moved : Moved s tp i m.target m'.target)
  | added (ps tp : NodeId) (i : Nat) (le : n ≤ s) (parent : m.source.parent? s = some ps)
      (above : m.matching.old? ps = some tp) (old : m.matching.old? s = none)
      (matching : m'.matching = m.matching.link s m.target.size)
      (added : Added (m.source.content s) tp i m.target m'.target)

namespace Placed

theorem refl (ht : Branch n up start.target)
    (ha : Aligned n start.source start.target start.matching) : Placed n up start [] start where
  source := rfl
  basePaths := rfl
  resolved := rfl
  branch := ht
  size_le := Nat.le_refl _
  aligned := ha
  kept _ _ h := h
  live _ _ := .rfl
  fresh _ _ hx := Nat.le_trans ht.le_size hx
  awaiting _ _ _ := rfl
  decided _ hs := absurd hs List.not_mem_nil

variable (h : Placed n up start seen m)
include h

theorem drop (s : NodeId) : Placed n up start seen (m.drop s) where
  source := h.source
  basePaths := h.basePaths
  resolved := h.resolved
  branch := h.branch
  size_le := h.size_le
  aligned := h.aligned
  kept := h.kept
  live := h.live
  fresh := h.fresh
  awaiting := h.awaiting
  decided := h.decided

theorem quiet (q : Quiet m m') : Placed n up start seen m' where
  source := q.source.trans h.source
  basePaths := q.basePaths.trans h.basePaths
  resolved := q.resolved.trans h.resolved
  branch := h.branch.alike q.alike
  size_le := q.alike.size ▸ h.size_le
  aligned := by
    rw [q.matching]
    refine h.aligned.congr (fun x ↦ by rw [q.alike.toSameShape.live]) fun x ↦ ?_
    rw [base?, q.alike.delta?, base?]
  kept s t hst := q.matching ▸ h.kept s t hst
  live x hx := by rw [q.alike.toSameShape.live]; exact h.live x hx
  fresh x hx := h.fresh x (q.alike.toSameShape.live ▸ hx)
  awaiting x hx hm := (q.alike.parent? x).trans (h.awaiting x hx hm)
  decided s hs hlt hm hl ps hps := by
    rw [q.matching, q.alike.parent?, q.alike.mark]
    rw [q.alike.toSameShape.live] at hl
    refine (h.decided s hs hlt hm hl ps hps).imp_left ?_
    rintro ⟨c, hc, hk, hr, hb⟩
    exact ⟨c, q.pending.subset hc, hk, hr, q.basePaths ▸ hb⟩

theorem see (hs : s < n → start.source.mark s = .movedHere → s ∈ m.target.live →
    ∀ ps, start.source.parent? s = some ps → Refused m s ∨
      ∃ tp, m.matching.old? ps = some tp ∧ m.target.parent? s = some tp ∧
        m.target.mark s = .movedHere) : Placed n up start (seen ++ [s]) m :=
  { h with
    awaiting x hx hm := h.awaiting x hx fun hseen ↦ hm (List.mem_append_left _ hseen)
    decided x hx := by
      rcases List.mem_append.1 hx with hx | hx
      · exact h.decided x hx
      · obtain rfl := List.mem_singleton.1 hx
        exact hs }

theorem shifted (hm : start.source.mark s = .movedHere) (hnew : s ∉ seen) (hlt : s < n)
    (habove : m.matching.old? ps = some tp) (hps : start.source.parent? s = some ps)
    (hmoved : Moved s tp i m.target m'.target) (hsource : m'.source = m.source)
    (hmatching : m'.matching = m.matching) (hbase : m'.basePaths = m.basePaths)
    (hpending : m'.conflicts = m.conflicts) : Placed n up start (seen ++ [s]) m' := by
  have hb := hmoved.branch h.branch hlt
  exact {
    source := hsource.trans h.source
    basePaths := hbase.trans h.basePaths
    resolved := by
      rw [hpending]
      exact h.resolved
    branch := hb
    size_le := hmoved.size ▸ h.size_le
    aligned := by
      rw [hmatching]
      exact h.aligned.congr hmoved.live fun x ↦ by rw [hb.base?, h.branch.base?]
    kept x t hxt := hmatching ▸ h.kept x t hxt
    live x hx := (hmoved.live x).trans (h.live x hx)
    fresh x hx := h.fresh x ((hmoved.live x).1 hx)
    awaiting x hx hxm := by
      -- the node that moved had its turn
      have hxs : x ≠ s := by
        rintro rfl
        exact hxm (List.mem_append_right _ List.mem_cons_self) hm
      rw [hmoved.parent?, if_neg hxs]
      exact h.awaiting x hx fun hseen ↦ hxm (List.mem_append_left _ hseen)
    decided x hx hxn hxm hl q hq := by
      by_cases hxs : x = s
      · subst hxs
        obtain rfl := Option.some_inj.1 (hps.symm.trans hq)
        obtain ⟨y, hy⟩ := h.branch.recorded x ((hmoved.live x).1 hl)
        refine .inr ⟨tp, hmatching ▸ habove, by rw [hmoved.parent?, if_pos rfl], ?_⟩
        rw [mark, hmoved.delta?, if_pos rfl, hy]
        rfl
      · have hseen : x ∈ seen := (List.mem_append.1 hx).resolve_right fun hx ↦
          hxs (List.mem_singleton.1 hx)
        rw [hmatching, hmoved.parent?, if_neg hxs, mark, hmoved.delta?, if_neg hxs, Refused,
          hpending, hbase]
        exact h.decided x hseen hxn hxm ((hmoved.live x).1 hl) q hq }

theorem grafted (hm : start.source.mark s ≠ .movedHere) (hs : s ∈ start.source.live)
    (hfree : m.matching.old? s = none) (hnone : base? start.source s = none)
    (hadded : Added c tp i m.target m'.target) (hsource : m'.source = m.source)
    (hmatching : m'.matching = m.matching.link s m.target.size)
    (hbase : m'.basePaths = m.basePaths) (hpending : m'.conflicts = m.conflicts) :
    Placed n up start (seen ++ [s]) m' := by
  have w := h.branch.wellFormed
  have hlink {x t : NodeId} (hxt : m.matching.old? x = some t) :
      m'.matching.old? x = some t := by
    rw [hmatching]
    exact (h.aligned.old?_link w hfree).2 (.inr hxt)
  exact {
    source := hsource.trans h.source
    basePaths := hbase.trans h.basePaths
    resolved := by
      rw [hpending]
      exact h.resolved
    branch := hadded.branch h.branch
    size_le := hadded.size ▸ Nat.le_succ_of_le h.size_le
    aligned := by
      rw [hmatching]
      exact h.aligned.added h.branch hadded hs hfree hnone
    kept x t hxt := hlink (h.kept x t hxt)
    live x hx := by
      rw [hadded.live, or_iff_left (Nat.ne_of_lt (Nat.lt_of_lt_of_le hx h.size_le))]
      exact h.live x hx
    fresh x hx hsize := by
      rcases (hadded.live x).1 hx with hx | rfl
      · exact h.fresh x hx hsize
      · exact h.branch.le_size
    awaiting x hx hxm := by
      rw [hadded.parent?, if_neg (Nat.ne_of_lt (Nat.lt_of_lt_of_le hx h.size_le))]
      exact h.awaiting x hx fun hseen ↦ hxm (List.mem_append_left _ hseen)
    decided x hx hxn hxm hl q hq := by
      have hxs : x ≠ s := by
        rintro rfl
        exact hm hxm
      have hseen : x ∈ seen := (List.mem_append.1 hx).resolve_right fun hx ↦
        hxs (List.mem_singleton.1 hx)
      have hold : x ≠ m.target.size := Nat.ne_of_lt (h.branch.lt_size hxn)
      rw [hadded.parent?, if_neg hold, mark, hadded.delta?, if_neg hold, Refused, hpending, hbase]
      have hlive := ((hadded.live x).1 hl).resolve_right hold
      refine (h.decided x hseen hxn hxm hlive q hq).imp_right ?_
      rintro ⟨tp, htp, hp, hxmark⟩
      exact ⟨tp, hlink htp, hp, hxmark⟩ }

theorem turn (hA : Branch n up start.source) (hs : s ∈ start.source.live) (hr : s ≠ root)
    (hnew : s ∉ seen) (ht : Turned m s m') : Placed n up start (seen ++ [s]) m' := by
  obtain ⟨ps, hps, -⟩ := hA.wellFormed.exists_parent_of_live hs hr
  -- moved nodes and their counterparts are from the base, inserted ones are not
  have hlt (hm : start.source.mark s = .movedHere) : s < n := by
    by_contra hle
    rw [hA.inserted s hs (Nat.le_of_not_lt hle)] at hm
    cases hm
  have hself {t : NodeId} (hst : m.matching.old? s = some t) (hsn : s < n) : t = s :=
    h.aligned.eq_of_lt hA h.branch hst hsn
  have hsource := h.source
  cases ht with
  | still q _ why =>
    refine (h.quiet q).see fun hsn hm hl ps' hps' ↦ .inr ?_
    rw [hsource] at why
    rcases why with hnone | ⟨t, hst, hne | ⟨ps'', tp, hps'', habove, hpar, hmark⟩⟩
    · rw [hnone] at hps
      cases hps
    · exact absurd hm hne
    · obtain rfl := hself hst hsn
      obtain rfl := Option.some_inj.1 (hps'.symm.trans hps'')
      exact ⟨tp, q.matching ▸ habove, (q.alike.parent? t).trans hpar,
        (q.alike.mark t).trans hmark⟩
  | refused t ps' q hm _ hst _ logged =>
    refine (h.quiet q).see fun hsn _ _ _ _ ↦ .inl ?_
    obtain rfl := hself hst hsn
    obtain ⟨c, hc, hk, hres, hb⟩ := logged
    refine ⟨c, hc, hk, hres, hb.trans ?_⟩
    rw [basePath?, h.branch.base?, if_pos hsn, Option.bind_some, q.basePaths]
  | shifted t ps' tp q _ hm hps' hst habove hfree =>
    rw [hsource] at hm hps'
    obtain rfl := hself hst (hlt hm)
    have htl := (h.aligned.live t t hst).2
    have htpl := (h.aligned.live ps' tp habove).2
    have hmoved := moved_shift (Quiet.refl (m.shift t t tp)) h.branch.wellFormed htl hr htpl hfree
    exact (h.shifted hm hnew (hlt hm) habove hps' hmoved rfl rfl rfl rfl).quiet q
  | grafted ps' tp q _ hm _ hfree habove =>
    rw [hsource] at hm
    have hsn : n ≤ s := by
      by_contra hsn
      rw [hA.known s hs (Nat.lt_of_not_le hsn)] at hm
      cases hm
    have hne : start.source.mark s ≠ .movedHere := by
      rw [hA.inserted s hs hsn]
      exact nofun
    have htpl := (h.aligned.live ps' tp habove).2
    have hadded := added_graft (Quiet.refl (m.graft s tp)) h.branch.wellFormed htpl
      h.branch.recorded_root
    exact (h.grafted hne hs hfree ((base?_eq_none hA).2 hsn) hadded rfl rfl rfl rfl).quiet q
  | dropped ps' q _ hfree _ =>
    refine ((h.drop s).quiet q).see fun hsn hm hl _ _ ↦ ?_
    rw [q.alike.toSameShape.live] at hl
    have hknown := h.aligned.known s hsn hs hl
    rw [hfree] at hknown
    cases hknown

theorem reshaped (hA : Branch n up start.source) (hs : s ∈ start.source.live) (hr : s ≠ root)
    (ht : Turned m s m') : Reshaped n m s m' := by
  have hsource := h.source
  cases ht with
  | still q => exact .same q.alike q.matching
  | refused _ _ q => exact .same q.alike q.matching
  | shifted t ps tp q _ hm _ hst habove hfree =>
    have hlt : s < n := hA.lt_of_movedHere hs (hsource ▸ hm)
    obtain rfl := h.aligned.eq_of_lt hA h.branch hst hlt
    have htl := (h.aligned.live t t hst).2
    have htpl := (h.aligned.live ps tp habove).2
    exact .moved tp _ hlt q.matching (moved_shift q h.branch.wellFormed htl hr htpl hfree)
  | grafted ps tp q _ hm hps hfree habove =>
    have hle : n ≤ s := (hA.isInsertion_iff hs).1 (hsource ▸ hm)
    have htpl := (h.aligned.live ps tp habove).2
    exact .added ps tp _ hle hps habove hfree q.matching
      (added_graft q h.branch.wellFormed htpl h.branch.recorded_root)
  | dropped _ q => exact .same q.alike q.matching

end Placed

theorem placed_mergePlacement (hA : Branch n up start.source) (ht : Branch n up start.target)
    (ha : Aligned n start.source start.target start.matching) :
    Placed n up start start.source.live.tail start.mergePlacement := by
  rw [mergePlacement_eq]
  refine foldl_induction (.refl ht ha) fun pre s post m hsplit h ↦ ?_
  have hs := hA.wellFormed.due_of_split hsplit
  exact h.turn hA hs.live hs.ne_root hs.unseen (turned_follow _ m s)

end FlowMerge.Merge
