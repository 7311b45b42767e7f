/-
Where an augment adds, in the model and in the forest. A target path leads from a root down to the
target by local names; below a node that the target does not lie beneath nothing changes. So adding
to the target changes the shape of each node on the path as grafting does, and no other.
-/
import RestSpec.Proofs.DataModel.Grafting

namespace RestSpec.DataModel

open Relation (ReflTransGen)

/-! ## Paths -/

/-- Local names lead from a node to one below it, each to the first of its `children` of that
name. -/
inductive Leads (model : DataModel) : NodeId → List String → NodeId → Prop
  | here {x : NodeId} : Leads model x [] x
  | down {x c t : NodeId} {name : String} {rest : List String} :
      model.childNamed? x name = some c → Leads model c rest t → Leads model x (name :: rest) t

section Paths

variable {model : DataModel} {home target : String}

theorem leads_of_foldlM :
    ∀ (segments : List String) (x t : NodeId),
      segments.foldlM (resolveStep model home target) (some x) = .ok (some t) →
      ∃ keys, segments.mapM (fun s => qualify model.modules s home target) = .ok keys ∧
        model.Leads x (keys.map (·.2)) t
  | [], x, t, h => by
    cases h
    exact ⟨[], rfl, .here⟩
  | segment :: segments, x, t, h => by
    rw [List.foldlM_cons] at h
    obtain ⟨next, hnext, h⟩ := bind_eq_ok.1 h
    unfold resolveStep at hnext
    obtain ⟨key, hkey, hnext⟩ := bind_eq_ok.1 hnext
    dsimp only at hnext
    split at hnext
    · rename_i c hchild
      cases hnext
      obtain ⟨keys, hkeys, hleads⟩ := leads_of_foldlM segments c t h
      refine ⟨key :: keys, ?_, .down hchild hleads⟩
      rw [List.mapM_cons, hkey, hkeys]
      rfl
    · cases hnext

/-- What `resolveTarget` finds is where the names of the path lead: from a root of the module that
the first part says, down by `Leads`. -/
theorem resolveTarget_leads {t : NodeId} (h : resolveTarget model home target = .ok t) :
    ∃ moduleName root rest m r, targetPath model.modules home target =
        .ok ((moduleName, root) :: rest) ∧
      model.module? moduleName = some m ∧
      (m.data ++ m.rpcs).find? (fun id => (model.node id).name == root) = some r ∧
      model.Leads r (rest.map (·.2)) t := by
  obtain ⟨hfold, -⟩ := foldlM_of_resolveTarget h
  unfold targetPath
  generalize (Text.words (· != '/') target.toList).map String.ofList = segments at hfold ⊢
  cases segments with
  | nil => cases hfold
  | cons segment segments =>
    rw [List.foldlM_cons] at hfold
    obtain ⟨next, hnext, hfold⟩ := bind_eq_ok.1 hfold
    unfold resolveStep at hnext
    obtain ⟨⟨moduleName, root⟩, hkey, hnext⟩ := bind_eq_ok.1 hnext
    dsimp only at hnext
    split at hnext
    · rename_i r hroot
      cases hnext
      obtain ⟨m, hm, hr⟩ := Option.bind_eq_some_iff.1 hroot
      obtain ⟨keys, hkeys, hleads⟩ := leads_of_foldlM segments r t hfold
      refine ⟨moduleName, root, keys, m, r, ?_, hm, hr, hleads⟩
      rw [List.mapM_cons, hkey, hkeys]
      rfl
    · cases hnext

end Paths

/-! ## Beneath -/

theorem Beneath.total {model : DataModel} {t x y : NodeId} (h : model.Beneath t x)
    (h' : model.Beneath t y) : model.Beneath x y ∨ model.Beneath y x :=
  ReflTransGen.total_of_right_unique
    (fun _ _ _ hp hq => Option.some.inj (hp.symm.trans hq)) h h'

/-- Nothing lies above a node without a parent. -/
theorem Beneath.eq_of_parentless {model : DataModel} {x y : NodeId} (h : model.Beneath x y)
    (hx : (model.node x).parent = none) : y = x := by
  rcases ReflTransGen.cases_head h with heq | ⟨p, hp, -⟩
  · exact heq.symm
  · rw [hx] at hp
    cases hp

namespace Draft

variable {d d' : Draft} {σ : Setting} {changing : NodeId → Prop} {t : NodeId}

theorem Coherent.leads_beneath (hc : d.Coherent changing) {x : NodeId} {names : List String}
    (h : d.model.Leads x names t) : d.model.Rooted x → d.model.Beneath t x := by
  induction h with
  | here => exact fun _ => .refl
  | @down x c t name rest hchild _ ih =>
    intro hx
    have hmem : c ∈ (d.node x).children := List.mem_of_find?_eq_some hchild
    have hparent := ((hc.regular x hx.lt).below hx.kind c hmem).1
    exact (ih (hc.rooted_child hx hmem)).tail hparent

/-- Of two children of a node the target lies `Beneath` one at most. -/
theorem Coherent.not_beneath_sibling (hc : d.Coherent changing) {x c y : NodeId}
    (hx : d.model.Rooted x) (hmem : c ∈ (d.node x).children) (hmem' : y ∈ (d.node x).children)
    (h : d.model.Beneath t c) (hne : y ≠ c) : ¬ d.model.Beneath t y := by
  have hreg := hc.regular x hx.lt
  -- one of two different children would lie beneath the other, so beneath their parent's child
  have hnot : ∀ a b, a ∈ (d.node x).children → b ∈ (d.node x).children → a ≠ b →
      ¬ d.model.Beneath a b := by
    intro a b ha hb hab hbeneath
    rcases ReflTransGen.cases_head hbeneath with heq | ⟨p, hp, hrest⟩
    · exact hab heq
    · obtain rfl := Option.some.inj ((hreg.below hx.kind a ha).1.symm.trans hp)
      exact absurd (Beneath.le hc.frozen.up hrest) (Nat.not_le.2 (hreg.children b hb).1)
  intro h'
  rcases h.total h' with hcy | hyc
  · exact hnot c y hmem hmem' hne.symm hcy
  · exact hnot y c hmem' hmem hne hyc

/-! ## Grafts -/

section Grafted

variable {ss : List Shape} (hc : d.Coherent changing) (hg : Grafted σ t ss d d')

include hc hg

/-- What lies apart from the target is `SameBelow` in both drafts. -/
theorem Grafted.sameBeside : SameBelow d.model d'.model fun x =>
    d.model.Rooted x ∧ ¬ d.model.Beneath t x := by
  refine ⟨?_, fun x hx => hg.label x hx.1.lt, fun x hx => (hg.kept x hx.1.lt ?_).1⟩
  · rintro x ⟨hx, hnot⟩ c hmem
    refine ⟨hc.rooted_child hx hmem, fun h => hnot ?_⟩
    exact h.tail ((hc.regular x hx.lt).below hx.kind c hmem).1
  · rintro rfl
    exact hx.2 .refl

theorem Grafted.shows_beside {x : NodeId} {s : Shape} (h : d.model.Shows x s)
    (hx : d.model.Rooted x) (hnot : ¬ d.model.Beneath t x) : d'.model.Shows x s :=
  h.frame (hg.sameBeside hc) ⟨hx, hnot⟩

omit hc hg in
/-- Where names are looked up, `onFirst` changes the shape of the first node of the name alone. -/
theorem shows_onFirst {c : NodeId} {name : String} {change : Shape → Shape}
    (hchange : ∀ s, d.model.Shows c s → d'.model.Shows c (change s)) :
    ∀ {ids : List NodeId} {shapes : List Shape}, d.model.ShowsAll ids shapes → ids.Nodup →
      ids.find? (fun id => (d.model.node id).name == name) = some c →
      (∀ y ∈ ids, y ≠ c → ∀ s, d.model.Shows y s → d'.model.Shows y s) →
      d'.model.ShowsAll ids (onFirst Shape.name name change shapes)
  | [], [], _, _, hfind, _ => by cases hfind
  | id :: ids, s :: shapes, .cons hs hrest, hnodup, hfind, hother => by
    obtain ⟨hnot, hnodup⟩ := List.nodup_cons.1 hnodup
    have hname : (d.model.node id).name = s.name := hs.name
    rw [List.find?_cons, hname] at hfind
    by_cases heq : s.name = name
    · rw [beq_iff_eq.2 heq] at hfind
      obtain rfl : id = c := Option.some.inj hfind
      rw [onFirst_here heq]
      refine .cons (hchange s hs) (hrest.imp fun y hy => ?_)
      exact hother y (List.mem_cons_of_mem _ hy) fun hyc => hnot (hyc ▸ hy)
    · rw [beq_eq_false_iff_ne.2 heq] at hfind
      have hmem : c ∈ ids := List.mem_of_find?_eq_some hfind
      rw [onFirst_later heq]
      refine .cons (hother id List.mem_cons_self (fun hic => hnot (hic ▸ hmem)) s hs) ?_
      exact shows_onFirst hchange hrest hnodup hfind fun y hy =>
        hother y (List.mem_cons_of_mem _ hy)

/-- The children of the target stay as they are. -/
theorem Grafted.shows_child {c : NodeId} {s : Shape} (ht : d.model.Rooted t)
    (hmem : c ∈ (d.node t).children) (h : d.model.Shows c s) : d'.model.Shows c s := by
  refine hg.shows_beside hc h (hc.rooted_child ht hmem) fun hbeneath => ?_
  exact absurd (hbeneath.le hc.frozen.up)
    (Nat.not_le.2 ((hc.regular t ht.lt).children c hmem).1)

/-- Along the path to the target each node shows its shape with the new ones grafted on. -/
theorem Grafted.shows_path (hdistinct : ∀ x, (d.node x).children.Nodup) {x : NodeId}
    {names : List String} (hleads : d.model.Leads x names t) :
    ∀ {s : Shape}, d.model.Rooted x → d.model.Shows x s → d'.model.Shows x (s.graft ss names) := by
  induction hleads with
  | @here t =>
    rintro ⟨label, children⟩ hx (⟨hlabel, hbelow⟩)
    obtain ⟨ids, hids, -, hshows⟩ := hg.grown
    refine .node ((hg.label _ hx.lt).trans hlabel) ?_
    have hkept := hbelow.imp fun c hmem s h => hg.shows_child hc hx hmem h
    have hchildren : (d'.model.node t).children = (d.model.node t).children ++ ids := hids
    rw [hchildren]
    exact hkept.append hshows
  | @down x c t name rest hchild hrest ih =>
    rintro ⟨label, children⟩ hx (⟨hlabel, hbelow⟩)
    have hmem : c ∈ (d.node x).children := List.mem_of_find?_eq_some hchild
    have hrooted := hc.rooted_child hx hmem
    have hbeneath := hc.leads_beneath hrest hrooted
    have hxt : x ≠ t := by
      rintro rfl
      exact absurd (hbeneath.le hc.frozen.up)
        (Nat.not_le.2 ((hc.regular x hx.lt).children c hmem).1)
    have hchildren : (d'.model.node x).children = (d.model.node x).children :=
      (hg.kept x hx.lt hxt).1
    refine .node ((hg.label x hx.lt).trans hlabel) ?_
    rw [hchildren]
    refine shows_onFirst (fun s hs => ih hg hrooted hs) hbelow (hdistinct x) hchild
      fun y hy hyc s hs => ?_
    exact hg.shows_beside hc hs (hc.rooted_child hx hy)
      (hc.not_beneath_sibling hx hmem hy hbeneath hyc)

end Grafted

end Draft

end RestSpec.DataModel
