import FlowMerge.Proofs.Annotations
import FlowMerge.Proofs.Merge.Loss
import FlowMerge.Proofs.Merge.Uncontested

namespace FlowMerge.Merge

open FlowMerge.Tree

variable {α : Type} [Score α] {base a b u u' : Tree} {ma mb : Matching} {start m m' m'' : Merge}
  {s t x k n : NodeId} {up : NodeId → Option NodeId} {c : Conflict} {key : String} {o d : Content}
  {e : String × Update} {contested : String → Bool} {us : Updates} {path : Path}
  {ps : List (NodeId × NodeId)}

theorem steady_of_reshaped (h : Reshaped n m s m') : Steady m.target m'.target := by
  cases h with
  | same ha => exact .of_alike ha
  | moved tp i _ _ hm =>
    refine .of_map (Nat.le_of_eq hm.size.symm) (fun x _ ↦ hm.content x) fun x _ ↦ ?_
    rw [hm.delta?]
    split
    · exact ⟨_, rfl, fun _ ↦ ⟨rfl, rfl, .inr (.inl rfl)⟩⟩
    · exact ⟨id, Option.map_id_apply.symm, fun _ ↦ ⟨rfl, rfl, .inl rfl⟩⟩
  | added _ _ _ _ _ _ _ _ ha =>
    refine .of_data (by rw [ha.size]; omega) (fun x hx ↦ ?_) fun x hx ↦ ?_
    · rw [ha.content, if_neg (Nat.ne_of_lt hx)]
    · rw [ha.delta?, if_neg (Nat.ne_of_lt hx)]

theorem Ready.steady (h : Ready n up start) : Steady start.target start.mergePlacement.target := by
  refine h.placement_induction (P := fun _ m ↦ Steady start.target m.target) (.refl _) ?_
  intro pre s m hp hs ih
  apply ih.trans
  exact steady_of_reshaped (hp.reshaped h.source hs.live hs.ne_root (turned_follow _ m s))

def FieldLogged (path : Path) (key : String) (cs : List Conflict) : Prop :=
  ∃ c ∈ cs, c.kind = .update ∧ c.base = some path ∧ c.field = some key

theorem fieldLogged_mergeField (hp : m.basePath? m.target t = some path) (key : String) :
    FieldLogged path key (mergeField contested t m e).conflicts.pending ↔
      FieldLogged path key m.conflicts.pending ∨
        key = e.1 ∧ contested key = true ∧ (m.target.content t).field key ≠ e.2.new := by
  have hlog := pending_mergeField contested t m e
  split at hlog
  · next hnew =>
    obtain ⟨c, hc, hd⟩ := hlog
    rw [hc]
    constructor
    · rintro ⟨c', hc', hk, hb, hf⟩
      rcases List.mem_append.1 hc' with hc' | hc'
      · exact .inl ⟨c', hc', hk, hb, hf⟩
      · obtain rfl := List.mem_singleton.1 hc'
        obtain rfl := Option.some_inj.1 (hd.field.symm.trans hf)
        exact .inr ⟨rfl, hnew⟩
    · rintro (⟨c', hc', hrest⟩ | ⟨rfl, -⟩)
      · exact ⟨c', List.mem_append_left _ hc', hrest⟩
      · exact ⟨c, List.mem_append_right _ List.mem_cons_self, hd.kind, hd.base.trans hp, hd.field⟩
  · next hold =>
    rw [hlog]
    refine (or_iff_left ?_).symm
    rintro ⟨rfl, hrest⟩
    exact hold hrest

theorem fieldLogged_foldl (hp : m.basePath? m.target t = some path) (ht : t < m.target.size)
    (hd : ∀ e ∈ us, e.2.new = d.field e.1) (key : String) :
    FieldLogged path key (us.foldl (mergeField contested t) m).conflicts.pending ↔
      FieldLogged path key m.conflicts.pending ∨ key ∈ us.map Prod.fst ∧
        contested key = true ∧ (m.target.content t).field key ≠ d.field key := by
  induction us generalizing m with
  | nil => simp
  | cons e us ih =>
    have hw := Reworded.mergeField contested t m e
    have he := hd e List.mem_cons_self
    have hlabel := Content.ne_none_of_eq_field he
    have hp' := (basePath?_congr hw.basePaths hw.target t).trans hp
    rw [List.foldl_cons, ih hp' (hw.target.shape.size ▸ ht)
      (fun e' he' ↦ hd e' (List.mem_cons_of_mem _ he')), fieldLogged_mergeField hp,
      field_mergeField ht hlabel, or_assoc, List.map_cons, List.mem_cons]
    refine or_congr_right ?_
    by_cases hk : key = e.1
    · subst hk
      rw [if_pos rfl, he]
      simp
    · rw [if_neg hk]
      simp [hk]

theorem field_foldl_mergeField (ht : t < m.target.size) (hd : ∀ e ∈ us, e.2.new = d.field e.1)
    (key : String) : ((us.foldl (mergeField contested t) m).target.content t).field key =
      if key ∈ us.map Prod.fst then d.field key else (m.target.content t).field key := by
  have hfold := Content.field_foldl (f := mergeField contested t)
    (g := fun m' ↦ m'.target.content t) (P := fun m' ↦ t < m'.target.size)
    (fun _ ht' ↦ writes_mergeField ht') hd ht
  exact hfold.2 key

/-- The merge `m'` is `m` up to states, logs, and fields and notes of other target nodes than
`t`. -/
structure Spared (t : NodeId) (m m' : Merge) : Prop extends Reworded m m' where
  content : m'.target.content t = m.target.content t
  delta? : m'.target.delta? t = m.target.delta? t
  provenance? : m'.target.provenance? t = m.target.provenance? t
  logged : ∀ c ∈ m'.conflicts.pending, c ∈ m.conflicts.pending ∨
    ∃ x ≠ t, c.base = m.basePath? m.target x

namespace Spared

theorem refl (t : NodeId) (m : Merge) : Spared t m m :=
  ⟨.refl m, rfl, rfl, rfl, fun _ hc ↦ .inl hc⟩

theorem trans (h : Spared t m m') (h' : Spared t m' m'') : Spared t m m'' where
  toReworded := h.toReworded.trans h'.toReworded
  content := h'.content.trans h.content
  delta? := h'.delta?.trans h.delta?
  provenance? := h'.provenance?.trans h.provenance?
  logged c hc := by
    rcases h'.logged c hc with hc | ⟨x, hx, hb⟩
    · exact h.logged c hc
    · exact .inr ⟨x, hx, hb.trans (basePath?_congr h.basePaths h.target x)⟩

theorem mergeField (hx : x ≠ t) : Spared t m (mergeField contested x m e) := by
  have hr := Retouched.mergeField contested x m e
  refine ⟨hr.toReworded, hr.content t hx.symm, hr.delta? t hx.symm, hr.provenance? t hx.symm,
    fun c hc ↦ ?_⟩
  have hlog := pending_mergeField contested x m e
  split at hlog
  · obtain ⟨c', hc', hd⟩ := hlog
    rw [hc', List.mem_append, List.mem_singleton] at hc
    refine hc.imp_right ?_
    rintro rfl
    exact ⟨x, hx, hd.base⟩
  · exact .inl (hlog ▸ hc)

theorem mergeFields {p : NodeId × NodeId} (hp : p.2 ≠ t) : Spared t m (m.mergeFields p) :=
  List.foldlRecOn _ _ (refl t m) fun _ h _ _ ↦ h.trans (mergeField hp)

theorem foldl (hps : t ∉ ps.map Prod.snd) : Spared t m (ps.foldl Merge.mergeFields m) :=
  List.foldlRecOn _ _ (refl t m) fun _ h _ hp ↦
    h.trans (mergeFields fun he ↦ hps (he ▸ List.mem_map_of_mem hp))

end Spared

/-- All that the merge of fields does to a target node it does when its pair has its turn. -/
theorem exists_turn (hps : (ps.map Prod.snd).Nodup) (hp : (s, t) ∈ ps) :
    ∃ m', Spared t m m' ∧ Spared t (m'.mergeFields (s, t)) (ps.foldl mergeFields m) := by
  obtain ⟨pre, post, rfl⟩ := List.append_of_mem hp
  rw [List.map_append, List.map_cons, List.nodup_append, List.nodup_cons] at hps
  obtain ⟨-, ⟨hpost, -⟩, hpre⟩ := hps
  refine ⟨pre.foldl mergeFields m, .foldl fun ht ↦ ?_, ?_⟩
  · exact hpre t ht t List.mem_cons_self rfl
  · rw [List.foldl_append, List.foldl_cons]
    exact .foldl hpost

namespace Spared

theorem fieldLogged (h : Spared t m m') (ht : ∀ x, m.basePath? m.target x = some path → x = t) :
    FieldLogged path key m'.conflicts.pending ↔ FieldLogged path key m.conflicts.pending := by
  constructor
  · rintro ⟨c, hc, hk, hb, hf⟩
    rcases h.logged c hc with hc | ⟨x, hx, hbx⟩
    · exact ⟨c, hc, hk, hb, hf⟩
    · exact absurd (ht x (hbx.symm.trans hb)) hx
  · rintro ⟨c, hc, hrest⟩
    exact ⟨c, h.pending.subset hc, hrest⟩

end Spared

/-- What a base, two branches and the outcome of their merge hold of a node, and what is logged. -/
structure ThreeWay (o a b r : Content) (path : Path) (log : List Conflict) : Prop where
  field : ∀ k, r.field k = if a.field k = o.field k then b.field k else a.field k
  logged : ∀ k, FieldLogged path k log ↔
    a.field k ≠ o.field k ∧ b.field k ≠ o.field k ∧ a.field k ≠ b.field k
  settled : ∀ c ∈ log, c.kind = .update → c.resolution = .branchA

/-- Both branches changed some fields of a node, and branch A's changes are taken over. -/
theorem threeWay_foldl {ours theirs : Updates} (ho : ours.Records o d)
    (ht : theirs.Records o (m.target.content t)) (hlt : t < m.target.size)
    (hp : m.basePath? m.target t = some path)
    (hnone : ¬ FieldLogged path key m.conflicts.pending)
    (hc : ∀ k, contested k = true ↔ k ∈ theirs.map Prod.fst) :
    (((ours.foldl (mergeField contested t) m).target.content t).field key =
        if d.field key = o.field key then (m.target.content t).field key else d.field key) ∧
      (FieldLogged path key (ours.foldl (mergeField contested t) m).conflicts.pending ↔
        d.field key ≠ o.field key ∧ (m.target.content t).field key ≠ o.field key ∧
          d.field key ≠ (m.target.content t).field key) := by
  constructor
  · rw [field_foldl_mergeField hlt ho.new_eq]
    by_cases hsame : d.field key = o.field key
    · rw [if_pos hsame, if_neg fun hk ↦ ho.mem_keys.1 hk hsame.symm]
    · rw [if_neg hsame, if_pos (ho.mem_keys.2 (Ne.symm hsame))]
  · rw [fieldLogged_foldl hp hlt ho.new_eq, or_iff_right hnone, hc, ho.mem_keys, ht.mem_keys,
      ne_comm, ne_comm (a := o.field key) (b := (m.target.content t).field key),
      ne_comm (a := (m.target.content t).field key) (b := d.field key)]

namespace Ready

variable (h : Ready n up start)
include h

theorem kind_placement : ∀ c ∈ start.mergePlacement.conflicts.pending, c.kind ≠ .update := by
  refine h.placement_induction (P := fun _ m ↦ ∀ c ∈ m.conflicts.pending, c.kind ≠ .update) ?_ ?_
  · intro c hc
    rw [h.pending] at hc
    cases hc
  · intro pre s m _ _ ih c hc
    rcases mem_follow hc with hc | hk | ⟨-, -, halarm⟩
    · exact ih c hc
    · rw [hk]
      exact nofun
    · rw [halarm.kind]
      exact nofun

theorem mem_mergeContent_of_update (hc : c ∈ start.run.conflicts.resolved)
    (hk : c.kind = .update) : c ∈ start.mergePlacement.mergeContent.conflicts.pending := by
  rw [h.resolved_run] at hc
  rcases h.cleared.logged c hc with hc | ⟨t, -, -, hdel, -⟩
  · exact hc
  · rw [hk] at hdel
    cases hdel

theorem fieldLogged_run : FieldLogged path key start.run.conflicts.resolved ↔
    FieldLogged path key start.mergePlacement.mergeContent.conflicts.pending := by
  constructor
  · rintro ⟨c, hc, hk, hrest⟩
    exact ⟨c, h.mem_mergeContent_of_update hc hk, hk, hrest⟩
  · rintro ⟨c, hc, hrest⟩
    exact ⟨c, h.resolved_run ▸ h.cleared.kept.subset hc, hrest⟩

theorem basePath?_eq_some (hpaths : start.basePaths.Nodup) (hpath : start.basePaths[x]? = some path)
    (hxn : x < n) {y : NodeId} : start.mergePlacement.basePath? start.mergePlacement.target y =
      some path ↔ y = x := by
  have hp := h.placed
  rw [basePath?, hp.branch.base?, hp.basePaths]
  constructor
  · intro hy
    split at hy
    · have hlen := (List.getElem?_eq_some_iff.1 hpath).1
      exact ((List.getElem?_inj hlen hpaths).1 (hpath.trans hy.symm)).symm
    · cases hy
  · rintro rfl
    rw [if_pos hxn]
    exact hpath

theorem exists_turn_of_tied (hst : start.mergePlacement.matching.old? s = some t) :
    ∃ m, Spared t start.mergePlacement m ∧
      Spared t (m.mergeFields (s, t)) start.mergePlacement.mergeContent ∧
      m.source = start.source ∧ t < m.target.size := by
  have hp := h.placed
  obtain ⟨hs, ht⟩ := hp.aligned.live s t hst
  obtain ⟨m, hbefore, hafter⟩ := exists_turn
    (nodup_pairs (hp.source ▸ h.source.wellFormed) hp.aligned.oneToOne)
    (mem_pairs.2 ⟨hp.source ▸ hs, hst⟩)
  refine ⟨m, hbefore, hafter, hbefore.source.trans hp.source, ?_⟩
  exact hbefore.target.shape.size ▸ hp.branch.wellFormed.live_lt ht

theorem threeWay (ha : Edited n base start.source) (hb : Edited n base start.target)
    (hpaths : start.basePaths.Nodup) (hpath : start.basePaths[x]? = some path)
    (hx : x ∈ start.source.live) (hxt : x ∈ start.target.live) (hxn : x < n) :
    ThreeWay (base.content x) (start.source.content x) (start.target.content x)
      (start.run.tree.content x) path start.run.conflicts.resolved := by
  have hsize : x < start.target.size := h.target.lt_size hxn
  have htied : start.mergePlacement.matching.old? x = some x :=
    h.placed.aligned.known x hxn hx ((h.placed.live x hsize).2 hxt)
  obtain ⟨m, hbefore, hafter, hsource, hlt⟩ := h.exists_turn_of_tied htied
  have hcontent : m.target.content x = start.target.content x :=
    hbefore.content.trans (h.steady.content x hsize)
  have hself {y : NodeId} : m.basePath? m.target y = some path ↔ y = x := by
    rw [basePath?_congr hbefore.basePaths hbefore.target]
    exact h.basePath?_eq_some hpaths hpath hxn
  -- both branches have recorded how the node differs from the base
  obtain ⟨y, hy, hours⟩ := ha.records x hx hxn
  obtain ⟨z, hz, htheirs⟩ := hb.records x hxt hxn
  rw [← hcontent] at htheirs
  have hboth : m.bothInserted x x = false := by
    rw [bothInserted, hsource, ha.known x hx hxn, Bool.false_and]
  have hfields : m.mergeFields (x, x) = y.updates.foldl
      (mergeField (fun key ↦ (z.updates.get? key).isSome) x) m := by
    obtain ⟨z', hz', -, hu, -⟩ := h.steady.delta x hsize z hz
    rw [mergeFields, sourceUpdates, hboth, hbefore.delta?, hz', if_neg Bool.false_ne_true, hsource,
      hy, ← hu]
    rfl
  have hnone (key : String) : ¬ FieldLogged path key m.conflicts.pending := by
    intro hlog
    have hfirst (v : NodeId) (hv : start.mergePlacement.basePath? start.mergePlacement.target v =
        some path) : v = x := (h.basePath?_eq_some hpaths hpath hxn).1 hv
    obtain ⟨c, hc, hk, -⟩ := (hbefore.fieldLogged hfirst).1 hlog
    exact h.kind_placement c hc hk
  have hcontested (key : String) : (fun key ↦ (z.updates.get? key).isSome) key = true ↔
      key ∈ z.updates.map Prod.fst := Updates.isSome_get?
  have hturn (key : String) := threeWay_foldl hours htheirs hlt (hself.2 rfl) (hnone key) hcontested
  rw [← hfields, hcontent] at hturn
  refine ⟨fun key ↦ ?_, fun key ↦ ?_, fun c hc hk ↦ ?_⟩
  · rw [(alike_run start).content, h.cleared.content, hafter.content]
    exact (hturn key).1
  · have hlast (v : NodeId) (hv : (m.mergeFields (x, x)).basePath? (m.mergeFields (x, x)).target v =
        some path) : v = x := by
      have hw := Reworded.mergeFields m (x, x)
      exact hself.1 ((basePath?_congr hw.basePaths hw.target v).symm.trans hv)
    rw [h.fieldLogged_run, hafter.fieldLogged hlast]
    exact (hturn key).2
  · rcases mem_mergeContent _ c (h.mem_mergeContent_of_update hc hk) with hc | ⟨-, hres⟩
    · exact absurd hk (h.kind_placement c hc)
    · exact hres

end Ready

/-- The fields of all nodes that both branches kept are merged by the three-way rule. -/
theorem threeWay_ofDeltas (wo : base.WellFormed) (wa : a.WellFormed) (wb : b.WellFormed)
    (uo : base.Unambiguous) (ua : a.Unambiguous) (ub : b.Unambiguous)
    (ha : ma.OneToOne) (hb : mb.OneToOne) :
    ∃ da db, Script.patch base (Script.derive base a ma) = .ok da ∧
      Script.patch base (Script.derive base b mb) = .ok db ∧
      ∀ {α : Type} [Score α] (config : Config α), ∀ o ∈ base.live, ∀ x ∈ da.live, ∀ y ∈ db.live,
        base? da x = some (base.place o) → base? db y = some (base.place o) →
          (∃ z, base? (ofDeltas config base da db).tree z = some (base.place o)) ∧
          ∀ z, base? (ofDeltas config base da db).tree z = some (base.place o) →
            ThreeWay (base.content o) (da.content x) (db.content y)
              ((ofDeltas config base da db).tree.content z) (base.path o)
              (ofDeltas config base da db).conflicts.resolved := by
  obtain ⟨da, hda, hA⟩ := edited_derive wo wa ha uo ua
  obtain ⟨db, hdb, hB⟩ := edited_derive wo wb hb uo ub
  refine ⟨da, db, hda, hdb, fun config o ho x hx y hy hxo hyo ↦ ?_⟩
  have h : Ready _ _ (Merge.start config base da db) :=
    ready_start config hA.toBranch hB.toBranch
  obtain ⟨rfl, hlt⟩ := (base?_eq_some hA.toBranch).1 hxo
  obtain ⟨rfl, -⟩ := (base?_eq_some hB.toBranch).1 hyo
  have hbase := h.branch_or_base
  refine ⟨⟨base.place o, (hbase _).trans (if_pos hlt)⟩, fun z hz ↦ ?_⟩
  obtain rfl : z = base.place o := by
    rw [ofDeltas, hbase] at hz
    split at hz
    · exact Option.some_inj.1 hz
    · cases hz
  have hpath : (base.live.map base.path)[base.place o]? = some (base.path o) := by
    rw [List.getElem?_map, place, List.getElem?_idxOf ho]
    rfl
  have hthree := h.threeWay (hA.ascribed .branchA) (hB.ascribed .branchB) wo.nodup_paths hpath
    ((sameShape_ascribed da .branchA).live ▸ hx) ((sameShape_ascribed db .branchB).live ▸ hy) hlt
  rwa [Script.content_pristine wo ho, Merge.start, content_ascribed, content_ascribed] at hthree

def callAlone (endpoint : String) : Tree :=
  .ofList { label := "description" } [(0, callTo endpoint)]

/-- Both branches set the endpoint of a call, and branch A wins. -/
theorem threeWay_ofDeltas_callAlone :
    ∃ da db, Script.patch (callAlone "x")
        (Script.derive (callAlone "x") (callAlone "y") (.ofPairs [(1, 1)])) = .ok da ∧
      Script.patch (callAlone "x")
        (Script.derive (callAlone "x") (callAlone "z") (.ofPairs [(1, 1)])) = .ok db ∧
      ∃ r, base? (ofDeltas (Config.standard : Config Rat) (callAlone "x") da db).tree r = some 1 ∧
        ((ofDeltas (Config.standard : Config Rat) (callAlone "x") da db).tree.content r).field
          "endpoint" = some "y" ∧
        FieldLogged [0] "endpoint"
          (ofDeltas (Config.standard : Config Rat) (callAlone "x") da db).conflicts.resolved := by
  have wf (e : String) : (callAlone e).WellFormed := wellFormed_ofList _ _ (by simp)
  obtain ⟨da, db, hda, hdb, h⟩ := threeWay_ofDeltas (wf "x") (wf "y") (wf "z")
    (by decide +kernel) (by decide +kernel) (by decide +kernel)
    (.ofPairs [(1, 1)]) (.ofPairs [(1, 1)])
  refine ⟨da, db, hda, hdb, ?_⟩
  have ha : 1 ∈ (patched (callAlone "x") (callAlone "y") (.ofPairs [(1, 1)])).live ∧
      base? (patched (callAlone "x") (callAlone "y") (.ofPairs [(1, 1)])) 1 = some 1 ∧
      ((patched (callAlone "x") (callAlone "y") (.ofPairs [(1, 1)])).content 1).field "endpoint" =
        some "y" := by decide +kernel
  have hb : 1 ∈ (patched (callAlone "x") (callAlone "z") (.ofPairs [(1, 1)])).live ∧
      base? (patched (callAlone "x") (callAlone "z") (.ofPairs [(1, 1)])) 1 = some 1 ∧
      ((patched (callAlone "x") (callAlone "z") (.ofPairs [(1, 1)])).content 1).field "endpoint" =
        some "z" := by decide +kernel
  have ho : 1 ∈ (callAlone "x").live ∧ (callAlone "x").place 1 = 1 ∧ (callAlone "x").path 1 = [0] ∧
      ((callAlone "x").content 1).field "endpoint" = some "x" := by decide +kernel
  rw [patched_eq hda] at ha
  rw [patched_eq hdb] at hb
  obtain ⟨hol, hplace, hpath, hold⟩ := ho
  obtain ⟨hal, hab, hafield⟩ := ha
  obtain ⟨hbl, hbb, hbfield⟩ := hb
  obtain ⟨⟨r, hr⟩, hthree⟩ := h (Config.standard : Config Rat) 1 hol 1 hal 1 hbl
    (hplace ▸ hab) (hplace ▸ hbb)
  obtain ⟨hfield, hlogged, -⟩ := hthree r hr
  refine ⟨r, hplace ▸ hr, ?_, ?_⟩
  · rw [hfield, hafield, hold]
    rfl
  · rw [← hpath, hlogged, hafield, hbfield, hold]
    decide

end FlowMerge.Merge
