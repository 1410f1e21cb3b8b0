import FlowMerge.Proofs.Matching.Live
import FlowMerge.Proofs.Merge.Branch

namespace FlowMerge.Merge

open FlowMerge.Tree

variable {source target : Tree} {m seed : Matching} {n s t x b : NodeId}
  {up : NodeId → Option NodeId}

/-- What an alignment of two branches of a base of `n` nodes guarantees. -/
structure Aligned (n : Nat) (source target : Tree) (m : Matching) : Prop where
  oneToOne : m.OneToOne
  live : ∀ s t, m.old? s = some t → s ∈ source.live ∧ t ∈ target.live
  base : ∀ s t, m.old? s = some t → base? source s = base? target t
  known : ∀ x < n, x ∈ source.live → x ∈ target.live → m.old? x = some x

theorem base?_eq_some (h : Branch n up target) :
    base? target x = some b ↔ x = b ∧ x < n := by
  rw [h.base?]
  split
  · next hx => simp [hx]
  · next hx => simp [hx]

theorem base?_eq_none (h : Branch n up target) : base? target x = none ↔ n ≤ x := by
  rw [h.base?]
  split
  · next hx => simpa using hx
  · next hx => simpa using Nat.le_of_not_lt hx

def DistinctBases (t : Tree) : Prop :=
  ∀ x ∈ t.live, ∀ y ∈ t.live, base? t x ≠ none → base? t x = base? t y → x = y

instance (t : Tree) : Decidable (DistinctBases t) :=
  inferInstanceAs (Decidable (∀ x ∈ t.live, ∀ y ∈ t.live,
    base? t x ≠ none → base? t x = base? t y → x = y))

structure Kin (source target : Tree) (s t : NodeId) : Prop where
  mem_source : s ∈ source.live
  mem_target : t ∈ target.live
  base : base? source s = base? target t
  known : base? source s ≠ none

theorem Kin.eq_target (ht : DistinctBases target) (h : Kin source target s t)
    (h' : Kin source target s x) : t = x :=
  ht t h.mem_target x h'.mem_target (h.base ▸ h.known) (h.base.symm.trans h'.base)

theorem Kin.eq_source (hs : DistinctBases source) (h : Kin source target s t)
    (h' : Kin source target x t) : s = x :=
  hs s h.mem_source x h'.mem_source h.known (h.base.trans h'.base.symm)

theorem Branch.distinctBases (h : Branch n up target) : DistinctBases target := by
  intro x _ y _ hx hxy
  obtain ⟨b, hb⟩ := Option.ne_none_iff_exists'.1 hx
  rw [hb, eq_comm] at hxy
  rw [((base?_eq_some h).1 hb).1, ((base?_eq_some h).1 hxy).1]

theorem kin_iff (hs : Branch n up source) (ht : Branch n up target) :
    Kin source target s t ↔ s = t ∧ s ∈ source.live ∧ s < n ∧ s ∈ target.live := by
  constructor
  · intro h
    obtain ⟨b, hb⟩ := Option.ne_none_iff_exists'.1 h.known
    obtain ⟨rfl, hlt⟩ := (base?_eq_some hs).1 hb
    obtain ⟨rfl, -⟩ := (base?_eq_some ht).1 (h.base.symm.trans hb)
    exact ⟨rfl, h.mem_source, hlt, h.mem_target⟩
  · rintro ⟨rfl, hsl, hlt, htl⟩
    have hb := (base?_eq_some hs).2 ⟨rfl, hlt⟩
    exact ⟨hsl, htl, hb.trans ((base?_eq_some ht).2 ⟨rfl, hlt⟩).symm, by simp [hb]⟩

theorem ofBase?_eq_some (ht : DistinctBases target) :
    ofBase? target b = some t ↔ t ∈ target.live ∧ base? target t = some b := by
  have hfound {x : NodeId} (hx : ofBase? target b = some x) :
      x ∈ target.live ∧ base? target x = some b :=
    ⟨List.mem_reverse.1 (List.mem_of_find?_eq_some hx), by simpa using List.find?_some hx⟩
  refine ⟨hfound, fun ⟨htl, hb⟩ ↦ ?_⟩
  obtain ⟨x, hx⟩ : ∃ x, ofBase? target b = some x := by
    rw [← Option.isSome_iff_exists, ofBase?, List.find?_isSome]
    exact ⟨t, List.mem_reverse.2 htl, beq_iff_eq.2 hb⟩
  obtain ⟨hxl, hxb⟩ := hfound hx
  rw [hx, ht x hxl t htl (by simp [hxb]) (hxb.trans hb.symm)]

theorem kin_iff_ofBase? (ht : DistinctBases target) : Kin source target s t ↔
    s ∈ source.live ∧ (base? source s).bind (ofBase? target) = some t := by
  rw [Option.bind_eq_some_iff]
  constructor
  · intro h
    obtain ⟨b, hb⟩ := Option.ne_none_iff_exists'.1 h.known
    exact ⟨h.mem_source, b, hb, (ofBase?_eq_some ht).2 ⟨h.mem_target, h.base.symm.trans hb⟩⟩
  · rintro ⟨hsl, b, hb, hst⟩
    obtain ⟨htl, htb⟩ := (ofBase?_eq_some ht).1 hst
    exact ⟨hsl, htl, hb.trans htb.symm, by simp [hb]⟩

theorem spec_baseMatching (hs : DistinctBases source) (ht : DistinctBases target) :
    (baseMatching source target).OneToOne ∧
      ∀ s t, (baseMatching source target).old? s = some t ↔ Kin source target s t := by
  suffices hall : (baseMatching source target).OneToOne ∧ ∀ s t,
      (baseMatching source target).old? s = some t ↔ s ∈ source.live ∧ Kin source target s t from
    ⟨hall.1, fun s t ↦ (hall.2 s t).trans (and_iff_right_of_imp Kin.mem_source)⟩
  refine foldl_induction (P := fun pre (m : Matching) ↦ m.OneToOne ∧
    ∀ s t, m.old? s = some t ↔ s ∈ pre ∧ Kin source target s t) ?_ ?_
  · refine ⟨.empty, fun s t ↦ ⟨fun h ↦ ?_, fun h ↦ absurd h.1 List.not_mem_nil⟩⟩
    simp [Matching.old?, Matching.empty] at h
  · intro pre x post m hlive hm
    have hx : x ∈ source.live := hlive ▸ List.mem_append_right pre List.mem_cons_self
    simp only [List.mem_append, List.mem_singleton, or_and_right]
    cases hbind : (base? source x).bind (ofBase? target) with
    | none =>
      refine ⟨hm.1, fun s t ↦ (hm.2 s t).trans (or_iff_left ?_).symm⟩
      rintro ⟨rfl, h⟩
      rw [((kin_iff_ofBase? ht).1 h).2] at hbind
      cases hbind
    | some y =>
      have hxy : Kin source target x y := (kin_iff_ofBase? ht).2 ⟨hx, hbind⟩
      refine ⟨hm.1.link x y, fun s t ↦ ?_⟩
      rw [Matching.old?_link]
      split
      · next hsx =>
        subst hsx
        rw [Option.some_inj]
        constructor
        · rintro rfl
          exact .inr ⟨rfl, hxy⟩
        · rintro (h | h)
          · exact hxy.eq_target ht h.2
          · exact hxy.eq_target ht h.2
      · next hsx =>
        -- only a node of the same place could lose its partner
        have hfree : m.new? y ≠ some s := fun h ↦
          hsx (((hm.2 s y).1 ((hm.1 s y).2 h)).2.eq_source hs hxy)
        rw [if_neg hfree, hm.2]
        exact (or_iff_left fun h ↦ hsx h.1).symm

def Diagonal (P : NodeId → Prop) (m : Matching) : Prop :=
  m.OneToOne ∧ ∀ s t, m.old? s = some t ↔ s = t ∧ P s

theorem diagonal_baseMatching (hs : Branch n up source) (ht : Branch n up target) :
    Diagonal (fun x ↦ x ∈ source.live ∧ x < n ∧ x ∈ target.live)
      (baseMatching source target) := by
  obtain ⟨hone, hseed⟩ := spec_baseMatching hs.distinctBases ht.distinctBases
  exact ⟨hone, fun s t ↦ (hseed s t).trans (kin_iff hs ht)⟩

def Fits (source target : Tree) (m : Matching) : Prop :=
  m.OneToOne ∧ m.Within fun s t ↦
    Kin source target s t ∨ base? source s = none ∧ base? target t = none

def restore (m : Matching) (p : NodeId × NodeId) : Matching :=
  if !m.hasNew p.1 && !m.hasOld p.2 then m.link p.1 p.2 else m

theorem within_restore {R : NodeId → NodeId → Prop} {p : NodeId × NodeId} (h : m.Within R)
    (hp : R p.1 p.2) : (restore m p).Within R := by
  rw [restore]
  split
  · exact h.link hp
  · exact h

section Restore

variable (hs : DistinctBases source) (ht : DistinctBases target)
include hs ht

/-- A node of the base is tied to nothing but the node that comes from the same place. -/
theorem restore_spec (hst : Kin source target s t) (h : Fits source target m) :
    Fits source target (restore m (s, t)) ∧ (restore m (s, t)).old? s = some t ∧
      ∀ x y, m.old? x = some y → (restore m (s, t)).old? x = some y := by
  obtain ⟨hone, hpairs⟩ := h
  have hwithin := within_restore (p := (s, t)) hpairs (.inl hst)
  rw [restore] at hwithin ⊢
  split
  · next hfree =>
    rw [if_pos hfree] at hwithin
    rw [Bool.and_eq_true, Bool.not_eq_true', Bool.not_eq_true', Matching.hasNew_eq_false,
      Matching.hasOld_eq_false] at hfree
    have hlink {x y : NodeId} : (m.link s t).old? x = some y ↔
        (x = s ∧ y = t) ∨ m.old? x = some y := Matching.old?_link_of_free hfree.1 hfree.2
    exact ⟨⟨hone.link s t, hwithin⟩, hlink.2 (.inl ⟨rfl, rfl⟩), fun x y hxy ↦ hlink.2 (.inr hxy)⟩
  · next hfree =>
    refine ⟨⟨hone, hpairs⟩, ?_, fun _ _ hxy ↦ hxy⟩
    -- one of the two is tied, and from one place of the base to no other node
    by_cases hnew : m.hasNew s = true
    · obtain ⟨y, hy⟩ := Option.isSome_iff_exists.1 hnew
      rcases hpairs s y hy with hsy | hsy
      · rw [hy, hsy.eq_target ht hst]
      · exact absurd hsy.1 hst.known
    · have hold : m.hasOld t = true := by
        by_contra hold
        exact hfree (by rw [Bool.eq_false_iff.2 hnew, Bool.eq_false_iff.2 hold]; rfl)
      obtain ⟨x, hx⟩ := Option.isSome_iff_exists.1 hold
      have hxt := (hone x t).2 hx
      rcases hpairs x t hxt with hxy | hxy
      · rwa [hxy.eq_source hs hst] at hxt
      · exact absurd (hst.base.trans hxy.2) hst.known

theorem restored (ps : List (NodeId × NodeId)) (hps : ∀ p ∈ ps, Kin source target p.1 p.2)
    (h : Fits source target m) : Fits source target (ps.foldl restore m) ∧
      (∀ p ∈ ps, (ps.foldl restore m).old? p.1 = some p.2) ∧
      ∀ x y, m.old? x = some y → (ps.foldl restore m).old? x = some y := by
  induction ps generalizing m with
  | nil => exact ⟨h, fun p hp ↦ absurd hp List.not_mem_nil, fun _ _ hxy ↦ hxy⟩
  | cons p ps ih =>
    obtain ⟨hf, hp, hkeep⟩ := restore_spec hs ht (hps p List.mem_cons_self) h
    obtain ⟨hfs, hall, hkeeps⟩ := ih (fun q hq ↦ hps q (List.mem_cons_of_mem p hq)) hf
    refine ⟨hfs, fun q hq ↦ ?_, fun x y hxy ↦ hkeeps x y (hkeep x y hxy)⟩
    rcases List.mem_cons.1 hq with rfl | hq
    · exact hkeeps q.1 q.2 hp
    · exact hall q hq

/-- Whatever the algorithm makes of the seed, what is kept of it fits, and the seed comes back. -/
theorem fits_align {α : Type} [Score α] (thresholds : Thresholds α) :
    Fits source target (align thresholds source target) ∧
      ∀ s t, Kin source target s t → (align thresholds source target).old? s = some t := by
  obtain ⟨hone, hseed⟩ := spec_baseMatching hs ht
  have hfits : Fits source target ((Matching.bucket Comparator.process thresholds target source
      (baseMatching source target)).retain fun s t ↦
        (baseMatching source target).areMatched t s ||
          ((base? source s).isNone && (base? target t).isNone)) := by
    refine ⟨hone.bucket.retain _, fun s t hst ↦ ?_⟩
    rw [Matching.old?_retain, Option.filter_eq_some_iff, Bool.or_eq_true, Bool.and_eq_true,
      Option.isNone_iff_eq_none, Option.isNone_iff_eq_none, Matching.areMatched, beq_iff_eq,
      hseed] at hst
    exact hst.2
  obtain ⟨hall, hback, -⟩ := restored hs ht (baseMatching source target).pairs
    (fun p hp ↦ (hseed p.1 p.2).1 (Matching.mem_pairs.1 hp)) hfits
  exact ⟨hall, fun s t hst ↦ hback (s, t) (Matching.mem_pairs.2 ((hseed s t).2 hst))⟩

end Restore

theorem pairsLive_align {α : Type} [Score α] (thresholds : Thresholds α)
    (ws : source.WellFormed) (wt : target.WellFormed) (hs : DistinctBases source)
    (ht : DistinctBases target) : (align thresholds source target).PairsLive target source := by
  have hseed : (baseMatching source target).PairsLive target source := fun s t hst ↦
    have hkin := ((spec_baseMatching hs ht).2 s t).1 hst
    ⟨hkin.mem_source, hkin.mem_target⟩
  exact List.foldlRecOn _ _ ((hseed.bucket wt ws).retain _) fun m hm p hp ↦
    within_restore hm (hseed p.1 p.2 (Matching.mem_pairs.1 hp))

theorem aligned_align {α : Type} [Score α] (thresholds : Thresholds α)
    (hs : Branch n up source) (ht : Branch n up target) :
    Aligned n source target (align thresholds source target) := by
  obtain ⟨hfits, hkin⟩ := fits_align hs.distinctBases ht.distinctBases thresholds
  refine ⟨hfits.1, pairsLive_align thresholds hs.wellFormed ht.wellFormed hs.distinctBases
    ht.distinctBases, fun s t hst ↦ ?_, fun x hx hsx htx ↦ ?_⟩
  · rcases hfits.2 s t hst with h | ⟨h, h'⟩
    · exact h.base
    · rw [h, h']
  · exact hkin x x ((kin_iff hs ht).2 ⟨rfl, hsx, hx, htx⟩)

/-- What an alignment makes of the places in the base: nodes that come from one place are tied, and
any other pair ties two nodes that come from nowhere. -/
structure RespectsBases (source target : Tree) (m : Matching) : Prop where
  oneToOne : m.OneToOne
  kin : ∀ s t, Kin source target s t → m.old? s = some t
  others : ∀ s t, m.old? s = some t →
    Kin source target s t ∨ base? source s = none ∧ base? target t = none

/-- Whatever else the branches have in common, a node that both kept is tied to itself. This does
not hang on the roots, since a pair that the algorithm takes apart is tied again. -/
theorem respectsBases_align {α : Type} [Score α] (config : Config α) (hs : DistinctBases source)
    (ht : DistinctBases target) :
    RespectsBases source target (align config.thresholds source target) := by
  obtain ⟨⟨hone, hpairs⟩, hkin⟩ := fits_align hs ht config.thresholds
  exact ⟨hone, hkin, hpairs⟩

def callThenNew (kept new : String) : Tree :=
  ((ofList { label := "description" }
    [(0, { label := "call", attributes := .ofList [("endpoint", kept)] })]).toDelta.addChild root
      { label := "call", attributes := .ofList [("endpoint", new)] }).1

/-- One branch inserts what the other made of the call, but the call is tied to itself. -/
theorem respectsBases_align_lookAlikes :
    DistinctBases (callThenNew "p" "q") ∧ DistinctBases (callThenNew "q" "p") ∧
      Kin (callThenNew "p" "q") (callThenNew "q" "p") 1 1 ∧
      RespectsBases (callThenNew "p" "q") (callThenNew "q" "p")
        (align (Config.standard : Config Rat).thresholds (callThenNew "p" "q")
          (callThenNew "q" "p")) := by
  have hs : DistinctBases (callThenNew "p" "q") := by decide +kernel
  have ht : DistinctBases (callThenNew "q" "p") := by decide +kernel
  have hkin : Kin (callThenNew "p" "q") (callThenNew "q" "p") 1 1 :=
    ⟨by decide +kernel, by decide +kernel, by decide +kernel, by decide +kernel⟩
  exact ⟨hs, ht, hkin, respectsBases_align (Config.standard : Config Rat) hs ht⟩

end FlowMerge.Merge
