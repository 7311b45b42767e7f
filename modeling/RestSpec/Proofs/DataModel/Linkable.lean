/-
How linking ends. It is stopped by a fault of the modules only: by a name that stands for nothing,
by a name of a grouping that is under way, or by an augment without a target. What is under way is a
chain in which each grouping depends on the next, and this is all that the step from a grouping to
those that it mentions has to keep. So modules without augments are linked if and only if they are
linkable, and a chain that is told of goes round in a circle of dependencies.
-/
import Mathlib.Data.List.Duplicate
import RestSpec.Proofs.Chase
import RestSpec.Proofs.DataModel.Dependency
import RestSpec.Proofs.DataModel.Substitution

namespace RestSpec.DataModel

open Relation (TransGen)

/-! ## Faults -/

/-- Names of groupings from one to the same one, each of which `DependsOn` the next: what
`cyclicGrouping` reports. -/
def Circle (sources : List Source.Module) (names : List GroupingName) : Prop :=
  ∃ g between, names = g :: (between ++ [g]) ∧ List.IsChain (DependsOn sources) names

/-- What is wrong with `sources` for which `link` ends with a `SchemaError`, told of the names that
the error holds. -/
inductive Fault (sources : List Source.Module) : SchemaError → Prop
  | duplicateModule {name : String} : List.Duplicate name (sources.map (·.name)) →
      Fault sources (.duplicateModule name)
  | unknownGrouping {home name location : String} {g : GroupingName} : UsedIn sources home name →
      Denotes sources home name g → declaration? sources g = none →
      Fault sources (.unknownGrouping g.text location)
  | cyclicGrouping {names : List GroupingName} : Circle sources names →
      Fault sources (.cyclicGrouping (names.map GroupingName.text))
  | unknownPrefix {home name before localName location : String} : UsedIn sources home name →
      Prefixed name before localName → prefixModule? sources before = none →
      Fault sources (.unknownPrefix before location)
  | unknownSegment {home segment before localName : String} {a : Source.Augment} :
      (home, a) ∈ placedAugments sources → Prefixed segment before localName →
      prefixModule? sources before = none → Fault sources (.unknownPrefix before a.target)
  | unresolvedAugmentTarget {home : String} {a : Source.Augment} :
      (home, a) ∈ placedAugments sources → Fault sources (.unresolvedAugmentTarget home a.target)

section Faults

variable {sources : List Source.Module}

theorem duplicate_of_firstRepeated {name : String} :
    ∀ (names seen : List String), firstRepeated seen names = some name →
      List.Duplicate name names ∨ name ∈ seen ∧ name ∈ names
  | [], _, h => by cases h
  | n :: names, seen, h => by
    unfold firstRepeated at h
    split at h
    · rename_i hseen
      cases h
      exact .inr ⟨List.contains_iff_mem.1 hseen, List.mem_cons_self⟩
    · rcases duplicate_of_firstRepeated names (n :: seen) h with hdup | ⟨hmem, hmem'⟩
      · exact .inl (hdup.duplicate_cons n)
      · rcases List.mem_cons.1 hmem with rfl | hseen
        · exact .inl (List.Mem.duplicate_cons_self hmem')
        · exact .inr ⟨hseen, List.mem_cons_of_mem _ hmem'⟩

theorem Circle.transGen {names : List GroupingName} (h : Circle sources names) :
    ∃ g, TransGen (DependsOn sources) g g := by
  obtain ⟨g, between, rfl, hchain⟩ := h
  have hpairs := (hchain.imp fun _ _ h => TransGen.single h).pairwise
  exact ⟨g, (List.pairwise_cons.1 hpairs).1 g (by simp)⟩

/-- `Linkable` modules without augments have no `Fault`. -/
theorem Linkable.no_fault (h : Linkable sources) (haugments : placedAugments sources = [])
    (e : SchemaError) : ¬ Fault sources e := by
  intro hfault
  cases hfault with
  | duplicateModule hdup => exact hdup.not_nodup h.names
  | unknownGrouping hused hg hnone =>
    obtain ⟨g', decl, hg', hdecl⟩ := h.resolved _ _ hused
    rw [hg.unique hg', hdecl] at hnone
    cases hnone
  | cyclicGrouping hcircle =>
    obtain ⟨g, hg⟩ := hcircle.transGen
    exact h.acyclic g hg
  | unknownPrefix hused hname hnone =>
    obtain ⟨g, decl, hg, -⟩ := h.resolved _ _ hused
    exact hname.not_denotes hnone g hg
  | unknownSegment hmem => exact absurd (haugments ▸ hmem) List.not_mem_nil
  | unresolvedAugmentTarget hmem => exact absurd (haugments ▸ hmem) List.not_mem_nil

end Faults

/-! ## How deep groupings lie inside each other -/

/-- A grouping is provided; how the groupings inside it are is told by `inner`. -/
def provideOnce (sources : List Source.Module) (inner : List GroupingName → Provide)
    (underWay : List GroupingName) : Provide :=
  fun name location d =>
    match d.built.lookup name with
    | some id => .ok (d, id)
    | none =>
      if name ∈ underWay then .error (.cyclicGrouping (cycleChain underWay name))
      else
        match declaration? sources name with
        | none => .error (.unknownGrouping name.text location)
        | some g => do
          let (d, id) := d.add {
            kind := .grouping
            moduleName := name.moduleName
            name := name.name
            description := g.description
            reference := g.reference }
          let d ← addBody (inner (underWay ++ [name])) name.moduleName id g.body d
          let d := { d with built := (name, id) :: d.built }
          return (d.updateModule name.moduleName fun m =>
            { m with groupings := m.groupings ++ [id] }, id)

/-- Groupings are provided at most as many levels deep inside each other as given, and by `further`
from there on. -/
def provideWithin (sources : List Source.Module) (further : List GroupingName → Provide) :
    Nat → List GroupingName → Provide
  | 0 => further
  | levels + 1 => provideOnce sources (provideWithin sources further levels)

section Levels

variable {sources : List Source.Module} {underWay : List GroupingName}

theorem provideGrouping_eq (sources : List Source.Module) (underWay : List GroupingName) :
    provideGrouping sources underWay = provideOnce sources (provideGrouping sources) underWay := by
  funext name location d
  rw [provideGrouping, provideOnce]
  cases hbuilt : d.built.lookup name with
  | some id => rfl
  | none =>
    dsimp only
    by_cases hnew : name ∈ underWay
    · rw [dif_pos hnew, if_pos hnew]
    · rw [dif_neg hnew, if_neg hnew]
      split
      · rename_i hdecl
        simp only [hdecl]
      · rename_i decl hdecl
        simp only [hdecl]

/-- `provideOnce` asks for the inside of a grouping only under names that are declared and not
`underWay`, so two ways to provide that agree there are as good. -/
theorem provideOnce_congr {inner inner' : List GroupingName → Provide}
    (h : ∀ name ∈ declaredNames sources, name ∉ underWay →
      inner (underWay ++ [name]) = inner' (underWay ++ [name])) :
    provideOnce sources inner underWay = provideOnce sources inner' underWay := by
  funext name location d
  unfold provideOnce
  split
  · rfl
  · split
    · rfl
    · rename_i hnew
      split
      · rfl
      · rename_i decl hdecl
        rw [h name (mem_declaredNames hdecl) hnew]

theorem remaining_nil (sources : List Source.Module) :
    remaining sources [] = (declaredNames sources).length := by
  unfold remaining
  simp

/-- With more `levels` than there are groupings `remaining`, `provideWithin` never comes to its
`further` argument and is `provideGrouping`. -/
theorem provideWithin_eq {further : List GroupingName → Provide} :
    ∀ {levels : Nat} {underWay : List GroupingName}, remaining sources underWay < levels →
      provideWithin sources further levels underWay = provideGrouping sources underWay
  | levels + 1, underWay, h => by
    rw [provideGrouping_eq, provideWithin]
    refine provideOnce_congr fun name hdeclared hnew => provideWithin_eq ?_
    exact lt_of_lt_of_le (remaining_append_lt hdeclared hnew) (Nat.le_of_lt_succ h)

end Levels

namespace Draft

variable {sources : List Source.Module} {d d' : Draft}

/-! ## Names stay what they are -/

mutual

theorem modules_copyTree (moduleName : String) :
    ∀ (t : Tree) (parent : NodeId) (introducer : Option NodeId) (c : Copying),
      (copyTree moduleName parent introducer c t).1.draft.model.modules = c.draft.model.modules
  | .node source children, parent, introducer, c => by
    rw [copyTree]
    exact modules_copyBelow moduleName children _ _

theorem modules_copyBelow (moduleName : String) :
    ∀ (ts : List Tree) (parent : NodeId) (c : Copying),
      (copyBelow moduleName parent c ts).draft.model.modules = c.draft.model.modules
  | [], _, _ => by rw [copyBelow]
  | t :: ts, parent, c => by
    rw [copyBelow]
    exact (modules_copyBelow moduleName ts parent _).trans (modules_copyTree moduleName t _ _ c)

end

theorem modules_copyGrouping (moduleName : String) (target introducer grouping : NodeId)
    (d : Draft) : (copyGrouping moduleName target introducer grouping d).model.modules =
      d.model.modules := by
  unfold copyGrouping
  dsimp only
  generalize (d.model.tree grouping).children = trees
  suffices ∀ c : Copying, c.draft.model.modules = d.model.modules →
      (trees.foldl (placeCopy moduleName target introducer grouping) c).draft.model.modules =
        d.model.modules from this { draft := d } rfl
  induction trees with
  | nil => exact fun _ hc => hc
  | cons t trees ih =>
    intro c hc
    exact ih _ ((modules_copyTree moduleName t _ _ c).trans hc)

/-- The modules of the draft go by the names and prefixes of the `sources`, which is all that
`qualify` reads. -/
def Headed (sources : List Source.Module) (d : Draft) : Prop :=
  d.model.heads = (sources.map emptyModule).map fun m => m.outline.head

theorem Headed.of_modules (h : Headed sources d) (hm : d'.model.modules = d.model.modules) :
    Headed sources d' := by
  unfold Headed DataModel.heads DataModel.outlines
  rw [hm]
  exact h

theorem Headed.updateModule (h : Headed sources d) (name : String) {f : Module → Module}
    (hf : ∀ m, (f m).outline.head = m.outline.head) : Headed sources (d.updateModule name f) := by
  refine Eq.trans ?_ h
  unfold DataModel.heads DataModel.outlines Draft.updateModule
  rw [List.map_map, List.map_map, List.map_map]
  refine List.map_congr_left fun m _ => ?_
  simp only [Function.comp_apply]
  split
  · exact hf m
  · rfl

theorem Headed.qualify (h : Headed sources d) (name home location : String) :
    qualify d.model.modules name home location =
      qualify (sources.map emptyModule) name home location :=
  qualify_of_heads h name home location

/-! ## Uses -/

/-- A step that leaves the draft `Headed`, or ends with a `Fault` of the sources. -/
abbrev Goes (sources : List Source.Module) : Except SchemaError Draft → Prop :=
  Ends (Headed sources) (Fault sources)

/-- A step that also tells of a node, and leaves the draft `Headed` or ends with a `Fault`. -/
abbrev GoesTo (sources : List Source.Module) : Except SchemaError (Draft × NodeId) → Prop :=
  Ends (fun r => Headed sources r.1) (Fault sources)

/-- Wherever a name in the module `home` is used, its use goes well or is a fault. -/
def Usable (sources : List Source.Module) (provide : Provide) (home name : String) : Prop :=
  ∀ target introducer d, Headed sources d →
    Goes sources (applyUse provide home target introducer d name)

theorem usable_of_provide {provide : Provide} {home name : String} (hused : UsedIn sources home name)
    (hprovide : ∀ g, Denotes sources home name g → ∀ location d, Headed sources d →
      GoesTo sources (provide g location d)) : Usable sources provide home name := by
  intro target introducer d h
  unfold applyUse
  dsimp only
  rw [h.qualify]
  obtain ⟨g, hname, hg⟩ | ⟨before, localName, hname, hprefixed, hnone⟩ :=
    qualify_cases sources name home (d.model.schemaPath target)
  · rw [hname]
    refine (hprovide g hg _ d h).bind fun r hr => ?_
    exact hr.of_modules (modules_copyGrouping home target introducer r.2 _)
  · rw [hname]
    exact .unknownPrefix hused hprefixed hnone

/-! ## Statements -/

section Statements

variable {provide : Provide} {home : String}

mutual

theorem addStatement_goes {parent : Option NodeId} :
    ∀ (s : Source.Statement) (d : Draft),
      (∀ name, Mentions ⟨s.children, s.uses⟩ name → Usable sources provide home name) →
      Headed sources d → GoesTo sources (addStatement provide home parent s d)
  | ⟨kind, name, config, description, reference, children, uses⟩, d, husable, h => by
    rw [addStatement]
    refine (addChildren_goes children _ (fun n hn => husable n (mentions_children hn)) ?_).bind
      fun d₁ h₁ => ?_
    · exact h.of_modules rfl
    refine Ends.bind (ends_foldlM uses d₁ (fun n hn b hb => ?_) h₁) fun d₂ h₂ => h₂
    exact husable n (.here hn) _ _ b hb

theorem addChildren_goes {parent : NodeId} :
    ∀ (children : List Source.Statement) (d : Draft),
      (∀ name, Mentions ⟨children, []⟩ name → Usable sources provide home name) →
      Headed sources d → Goes sources (addChildren provide home parent children d)
  | [], d, _, h => by
    rw [addChildren]
    exact h
  | s :: rest, d, husable, h => by
    rw [addChildren]
    refine (addStatement_goes s d (fun n hn => husable n (mentions_cons.2 (.inl hn))) h).bind
      fun r hr => ?_
    exact addChildren_goes rest _ (fun n hn => husable n (mentions_cons.2 (.inr hn)))
      (hr.of_modules rfl)

end

theorem addBody_goes {id : NodeId} {body : Source.Body}
    (husable : ∀ name, Mentions body name → Usable sources provide home name)
    (h : Headed sources d) : Goes sources (addBody provide home id body d) := by
  unfold addBody
  refine (addChildren_goes body.children d (fun n hn => husable n (mentions_children hn)) h).bind
    fun d₁ h₁ => ends_foldlM body.uses d₁ (fun n hn b hb => ?_) h₁
  exact husable n (.here hn) _ _ b hb

end Statements

/-! ## Groupings -/

theorem circle_of_underWay {underWay : List GroupingName} {name : GroupingName}
    (hmem : name ∈ underWay) (hchain : List.IsChain (DependsOn sources) (underWay ++ [name])) :
    Circle sources (underWay.dropWhile (· != name) ++ [name]) := by
  obtain ⟨before, hbefore⟩ := List.dropWhile_suffix (p := (· != name)) (l := underWay)
  obtain ⟨hnot, -⟩ | ⟨between, hdrop⟩ := dropWhile_ne_cases name underWay
  · exact absurd hmem hnot
  · rw [hdrop] at hbefore ⊢
    refine ⟨name, between, List.cons_append, ?_⟩
    rw [← hbefore, List.append_assoc] at hchain
    exact hchain.right_of_append

/-- `provideGrouping` succeeds or tells of a `Fault`: what is `underWay` is a chain of `DependsOn`,
so a name met again closes a `Circle` and a new one makes the chain longer. -/
theorem provideGrouping_goes (underWay : List GroupingName) (name : GroupingName)
    (location : String) (d : Draft)
    (hchain : List.IsChain (DependsOn sources) (underWay ++ [name]))
    (hasked : declaration? sources name = none →
      ∃ home text, UsedIn sources home text ∧ Denotes sources home text name)
    (h : Headed sources d) : GoesTo sources (provideGrouping sources underWay name location d) := by
  rw [provideGrouping]
  split
  · exact h
  · split
    · rename_i hmem
      exact .cyclicGrouping (circle_of_underWay hmem hchain)
    · rename_i hnew
      split
      · rename_i hnone
        obtain ⟨home, text, hused, hg⟩ := hasked hnone
        exact .unknownGrouping hused hg hnone
      · rename_i decl hdecl
        have husable : ∀ text, Mentions decl.body text →
            Usable sources (provideGrouping sources (underWay ++ [name])) name.moduleName text := by
          intro text hmentions
          have hused : UsedIn sources name.moduleName text := ⟨decl.body, .grouping hdecl, hmentions⟩
          refine usable_of_provide hused fun g hg location d hd => ?_
          have hlonger : List.IsChain (DependsOn sources) (underWay ++ [name] ++ [g]) := by
            rw [List.append_assoc]
            exact List.isChain_split.2 ⟨hchain, by simpa using ⟨decl, text, hdecl, hmentions, hg⟩⟩
          exact provideGrouping_goes (underWay ++ [name]) g location d hlonger
            (fun _ => ⟨_, text, hused, hg⟩) hd
        refine Ends.bind (addBody_goes husable ?_) fun d₁ h₁ => ?_
        · exact h.of_modules rfl
        · have hfinished : Headed sources (d₁.finish name d.model.size) := h₁.of_modules rfl
          exact hfinished.updateModule name.moduleName fun _ => rfl
termination_by remaining sources underWay
decreasing_by exact remaining_append_lt (mem_declaredNames ‹_›) ‹_›

/-- A name that is `UsedIn` the top of a module is `Usable` with nothing `underWay`. -/
theorem usable_top {home name : String} (hused : UsedIn sources home name) :
    Usable sources (provideGrouping sources []) home name :=
  usable_of_provide hused fun g hg location d hd => provideGrouping_goes [] g location d
    (List.isChain_singleton g) (fun _ => ⟨home, name, hused, hg⟩) hd

/-! ## Modules -/

theorem exists_declaration {m : Source.Module} (hnames : (sources.map (·.name)).Nodup)
    (hm : m ∈ sources) {g : Source.Grouping} (hg : g ∈ m.groupings) :
    ∃ decl, declaration? sources ⟨m.name, g.name⟩ = some decl := by
  have hfind : sources.find? (·.name == m.name) = some m := by
    cases hfound : sources.find? (·.name == m.name) with
    | none => exact absurd (List.find?_eq_none.1 hfound m hm) (by simp)
    | some m' =>
      have hname : m'.name = m.name := by simpa using List.find?_some hfound
      rw [List.inj_on_of_nodup_map hnames (List.mem_of_find?_eq_some hfound) hm hname]
  have hfirst : (m.groupings.find? (·.name == g.name)).isSome :=
    List.find?_isSome.2 ⟨g, hg, by simp⟩
  obtain ⟨decl, hdecl⟩ := Option.isSome_iff_exists.1 hfirst
  exact ⟨decl, by rw [declaration?, hfind]; exact hdecl⟩

section Modules

variable {m : Source.Module} (hm : m ∈ sources)

theorem addMessage_goes {rpc : NodeId} {kind : Kind} {body : Option Source.Body}
    (hwritten : ∀ b, body = some b → Written sources m.name b) (h : Headed sources d) :
    Goes sources (addMessage (provideGrouping sources []) m.name rpc kind body d) := by
  cases body with
  | none => exact h
  | some body =>
    unfold addMessage
    refine Ends.bind (Q := Headed sources)
      (addBody_goes (fun name hn => usable_top ⟨body, hwritten body rfl, hn⟩) ?_) fun d₁ h₁ => ?_
    · exact h.of_modules rfl
    · exact Headed.of_modules h₁ rfl

include hm

theorem addRpc_goes {rpc : Source.Rpc} (hrpc : rpc ∈ m.rpcs) (h : Headed sources d) :
    GoesTo sources (addRpc (provideGrouping sources []) m.name rpc d) := by
  unfold addRpc
  refine Ends.bind (addMessage_goes (fun b hb => .input hm hrpc hb) ?_) fun d₁ h₁ =>
    (addMessage_goes (fun b hb => .output hm hrpc hb) h₁).bind fun d₂ h₂ => h₂
  exact h.of_modules rfl

theorem addModule_goes (hnames : (sources.map (·.name)).Nodup) (h : Headed sources d) :
    Goes sources (addModule sources d m) := by
  unfold addModule
  refine (ends_foldlM m.groupings d (fun g hg b hb => ?_) h).bind fun d₁ h₁ =>
    (ends_foldlM m.data d₁ (fun s hs b hb => ?_) h₁).bind fun d₂ h₂ =>
      ends_foldlM m.rpcs d₂ (fun r hr b hb => ?_) h₂
  · obtain ⟨decl, hdecl⟩ := exists_declaration hnames hm hg
    refine (provideGrouping_goes [] _ _ b (List.isChain_singleton _) (fun hnone => ?_) hb).bind
      fun r hr => hr
    exact nomatch hdecl.symm.trans hnone
  · refine (addStatement_goes s b (fun name hn => usable_top ?_) hb).bind fun r hr =>
      hr.updateModule m.name fun _ => rfl
    exact ⟨⟨m.data, []⟩, .data hm, .within hs hn⟩
  · exact (addRpc_goes hm hr hb).bind fun r hr => hr.updateModule m.name fun _ => rfl

end Modules

/-! ## Augments -/

theorem resolveTarget_goes {home : String} {a : Source.Augment}
    (ha : (home, a) ∈ placedAugments sources) (h : Headed sources d) :
    Ends (fun _ => True) (Fault sources) (resolveTarget d.model home a.target) := by
  unfold resolveTarget
  refine Ends.bind (ends_foldlM (P := fun _ => True) _ none (fun segment _ current _ => ?_)
    trivial) fun found _ => ?_
  · unfold resolveStep
    rw [h.qualify]
    obtain ⟨g, hname, -⟩ | ⟨before, localName, hname, hprefixed, hnone⟩ :=
      qualify_cases sources segment home a.target
    · rw [hname]
      refine Ends.bind (Q := fun _ => True) trivial fun key _ => ?_
      dsimp only
      split
      · trivial
      · exact .unresolvedAugmentTarget ha
    · rw [hname]
      exact .unknownSegment ha hprefixed hnone
  · split
    · split
      · trivial
      · exact .unresolvedAugmentTarget ha
    · exact .unresolvedAugmentTarget ha

theorem Headed.markAugmented (moduleName : String) (augment : NodeId) :
    ∀ (ids : List NodeId) {d : Draft}, Headed sources d →
      Headed sources (ids.foldl (markAugmented moduleName augment) d)
  | [], _, h => h
  | _ :: ids, _, h => Headed.markAugmented moduleName augment ids (h.of_modules rfl)

theorem addAugment_goes {m : Source.Module} (hm : m ∈ sources) {a : Source.Augment}
    (ha : a ∈ m.augments) (h : Headed sources d) :
    GoesTo sources (addAugment (provideGrouping sources []) m.name a d) := by
  have hplaced : (m.name, a) ∈ placedAugments sources :=
    List.mem_flatMap.2 ⟨m, hm, List.mem_map.2 ⟨a, ha, rfl⟩⟩
  have husable : ∀ name, Mentions a.body name →
      Usable sources (provideGrouping sources []) m.name name := fun name hn =>
    usable_top ⟨a.body, .augment hm ha, hn⟩
  unfold addAugment
  refine (resolveTarget_goes hplaced h).bind fun target _ => ?_
  refine Ends.bind (ends_foldlM (P := Headed sources) a.body.children _ (fun s hs b hb => ?_) ?_)
    fun d₁ h₁ => (ends_foldlM (P := Headed sources) a.body.uses d₁ (fun name hn b hb => ?_)
      h₁).bind fun d₂ h₂ => ?_
  · exact (addStatement_goes s b (fun name hn => husable name (.within hs hn)) hb).bind
      fun r hr => hr.of_modules rfl
  · exact h.of_modules rfl
  · exact (husable name (.here hn) _ _ b hb).bind fun b₁ hb₁ => hb₁.markAugmented _ _ _
  · exact h₂.of_modules (foldl_update_frame _ _ _).2.2

theorem addAugments_goes {m : Source.Module} (hm : m ∈ sources) (h : Headed sources d) :
    Goes sources (addAugments sources d m) :=
  ends_foldlM m.augments d (fun _ ha _ hb => (addAugment_goes hm ha hb).bind
    fun _ hr => hr.updateModule m.name fun _ => rfl) h

/-! ## Everything that is written is expanded -/

variable {since : NodeId}

theorem foldlM_provide_expands {m : Source.Module} :
    ∀ (groupings : List Source.Grouping) (d d' : Draft), Staged sources since d →
      groupings.foldlM (fun d g => do
        let (d, _) ← provideGrouping sources [] ⟨m.name, g.name⟩ ("/" ++ m.name) d
        return d) d = .ok d' →
      ∀ g ∈ groupings, ∃ decl ss, declaration? sources ⟨m.name, g.name⟩ = some decl ∧
        Expands sources m.name m.name decl.body ss
  | [], _, _, _, _ => by simp
  | g :: rest, d, d', h, hok => by
    rw [List.foldlM_cons] at hok
    obtain ⟨d₁, hstep, hok⟩ := bind_eq_ok.1 hok
    obtain ⟨⟨d₂, id⟩, hprovided, hret⟩ := bind_eq_ok.1 hstep
    cases hret
    have hs := provideGrouping_serves ⟨sources, since, d.model.outlines⟩ []
    obtain ⟨hc, hg, hb⟩ := hs.provides _ _ d d₁ id _ h.sound.coherent h.sound.modules hprovided
    have hf := hs.faithful _ _ d d₁ id _ h.sound.coherent h.faithful hprovided
    intro x hx
    rcases List.mem_cons.1 hx with rfl | hx
    · obtain ⟨decl, ss, hdecl, hexpands, -⟩ := (hf.unfolds _ id hb).shapes
      exact ⟨decl, ss, hdecl, hexpands⟩
    · exact foldlM_provide_expands rest d₁ d' (h.grows hc hf hg).1 hok x hx

theorem foldlM_addModule_expands (hnames : (sources.map (·.name)).Nodup) :
    ∀ (modules : List Source.Module) (d d' : Draft) (forest : List ModuleTrees),
      (∀ m ∈ modules, m ∈ sources) → Staged sources since d → d.model.ShowsForest forest →
      modules.foldlM (addModule sources) d = .ok d' →
      ∀ m ∈ modules, ∀ g ∈ m.groupings, ∃ decl ss,
        declaration? sources ⟨m.name, g.name⟩ = some decl ∧
          Expands sources m.name m.name decl.body ss
  | [], _, _, _, _, _, _, _ => by simp
  | m :: rest, d, d', forest, hmem, h, hshows, hok => by
    rw [List.foldlM_cons] at hok
    obtain ⟨d₁, hstep, hok⟩ := bind_eq_ok.1 hok
    have hm := hmem m List.mem_cons_self
    obtain ⟨data, rpcs, -, -, h₁, hshows₁⟩ := addModule_staged hm hnames h hshows hstep
    intro x hx
    rcases List.mem_cons.1 hx with rfl | hx
    · unfold addModule at hstep
      obtain ⟨d₂, hgroupings, -⟩ := bind_eq_ok.1 hstep
      exact foldlM_provide_expands x.groupings d d₂ h hgroupings
    · exact foldlM_addModule_expands hnames rest d₁ d' _
        (fun y hy => hmem y (List.mem_cons_of_mem _ hy)) h₁ hshows₁ hok x hx

end Draft

/-! ## All that is written -/

variable {sources : List Source.Module} {model : DataModel}

theorem Grafts.expands {augments : List (String × Source.Augment)}
    {forest forest' : List ModuleTrees} (h : Grafts sources augments forest forest') :
    ∀ {home : String} {a : Source.Augment}, (home, a) ∈ augments →
      ∃ ss, Expands sources home home a.body ss := by
  induction h with
  | nil => exact fun ha => nomatch ha
  | cons _ hadded _ ih =>
    intro home a ha
    rcases List.mem_cons.1 ha with heq | ha
    · cases heq
      exact ⟨_, hadded⟩
    · exact ih ha

theorem ExpandsMessage.expands {home : String} {kind : Kind} {body : Source.Body} {ss : List Shape}
    (h : ExpandsMessage sources home kind (Option.some body) ss) :
    ∃ below, Expands sources home home body below := by
  cases h with
  | some h => exact ⟨_, h⟩

/-- In modules that `link` accepts, every body that is `Written` somewhere `Expands` to some
shapes. -/
theorem expands_of_link (h : link sources = .ok model) {home : String} {body : Source.Body}
    (hwritten : Written sources home body) : ∃ ss, Expands sources home home body ss := by
  obtain ⟨-, -, forest, -, -, ⟨start, hmodules, hgrafts⟩, -⟩ := Draft.passes_of_link h
  have hrpc : ∀ {m : Source.Module}, m ∈ sources → ∀ rpc ∈ m.rpcs, ∃ s,
      ExpandsRpc sources m.name rpc s := by
    intro m hm rpc hrpc
    obtain ⟨trees, -, hexpands⟩ := forall₂_mem_left hmodules m hm
    obtain ⟨s, -, hs⟩ := forall₂_mem_left hexpands.rpcs rpc hrpc
    exact ⟨s, hs⟩
  cases hwritten with
  | @grouping g decl hdecl =>
    unfold link at h
    split at h
    · cases h
    · rename_i hrepeated
      obtain ⟨hnames, -⟩ := Draft.nodup_of_firstRepeated _ [] hrepeated
      obtain ⟨d₁, hadded, -⟩ := bind_eq_ok.1 h
      obtain ⟨hstart, hshows⟩ := Draft.staged_start sources
      obtain ⟨m, hm, hg⟩ := Option.bind_eq_some_iff.1 hdecl
      have hname : m.name = g.moduleName := by simpa using List.find?_some hm
      have gname : decl.name = g.name := by simpa using List.find?_some hg
      obtain ⟨decl', ss, hdecl', hexpands⟩ := Draft.foldlM_addModule_expands hnames sources _ d₁ _
        (fun _ hm => hm) hstart hshows hadded m (List.mem_of_find?_eq_some hm) _
        (List.mem_of_find?_eq_some hg)
      rw [hname, gname] at hdecl'
      obtain rfl := Option.some.inj (hdecl.symm.trans hdecl')
      exact ⟨ss, hname ▸ hexpands⟩
  | data hm =>
    obtain ⟨trees, -, hexpands⟩ := forall₂_mem_left hmodules _ hm
    exact ⟨_, hexpands.data⟩
  | input hm hmem hinput =>
    obtain ⟨s, hs⟩ := hrpc hm _ hmem
    cases hs with
    | node hin _ => exact (hinput ▸ hin).expands
  | output hm hmem houtput =>
    obtain ⟨s, hs⟩ := hrpc hm _ hmem
    cases hs with
    | node _ hout => exact (houtput ▸ hout).expands
  | augment hm ha =>
    exact hgrafts.expands (List.mem_flatMap.2 ⟨_, hm, List.mem_map.2 ⟨_, ha, rfl⟩⟩)

theorem linkable_of_link (h : link sources = .ok model) : Linkable sources := by
  have hmentions : ∀ {home : String} {body : Source.Body}, Written sources home body →
      ∀ name, Mentions body name → ∃ g decl, Denotes sources home name g ∧
        declaration? sources g = some decl ∧ Acc (fun h g => DependsOn sources g h) g :=
    fun hwritten =>
      let ⟨_, hexpands⟩ := expands_of_link h hwritten
      hexpands.mentions
  have hfounded : WellFounded fun h g => DependsOn sources g h := by
    refine ⟨fun g => ⟨g, ?_⟩⟩
    rintro x ⟨decl, name, hdecl, hname, hx⟩
    obtain ⟨x', -, hx', -, hacc⟩ := hmentions (.grouping hdecl) name hname
    exact hx.unique hx' ▸ hacc
  refine ⟨?_, ?_, not_transGen_of_wellFounded hfounded⟩
  · unfold link at h
    split at h
    · cases h
    · rename_i hrepeated
      exact (Draft.nodup_of_firstRepeated _ [] hrepeated).1
  · rintro home name ⟨body, hwritten, hname⟩
    obtain ⟨g, decl, hg, hdecl, -⟩ := hmentions hwritten name hname
    exact ⟨g, decl, hg, hdecl⟩

/-! ## The whole -/

/-- `link` makes a model or tells of a `Fault` of the sources, and does nothing else. -/
theorem link_goes (sources : List Source.Module) :
    Ends (fun _ => True) (Fault sources) (link sources) := by
  unfold link
  split
  · rename_i name hrepeated
    rcases duplicate_of_firstRepeated _ [] hrepeated with hdup | ⟨hseen, -⟩
    · exact .duplicateModule hdup
    · cases hseen
  · rename_i hrepeated
    obtain ⟨hnames, -⟩ := Draft.nodup_of_firstRepeated _ [] hrepeated
    have hstart : Draft.Headed sources { model := { modules := sources.map emptyModule } } := by
      unfold Draft.Headed heads outlines
      rw [List.map_map]
      rfl
    refine Ends.bind (ends_foldlM sources _ (fun m hm _ hb => Draft.addModule_goes hm hnames hb)
      hstart) fun d₁ h₁ => ?_
    exact (ends_foldlM sources d₁ (fun m hm _ hb => Draft.addAugments_goes hm hb) h₁).bind
      fun _ _ => trivial

/-- The outcome of `link`. Groupings that lie deeper inside each other than there are
`declaredNames` are never asked for; modules without augments are linked if and only if they are
`Linkable`; and the chain of a `cyclicGrouping` error is a `Circle` of dependencies. -/
theorem link_outcome (sources : List Source.Module) :
    (∀ further, provideWithin sources further ((declaredNames sources).length + 1) [] =
        provideGrouping sources []) ∧
      ((∀ m ∈ sources, m.augments = []) →
        ((∃ model, link sources = .ok model) ↔ Linkable sources)) ∧
      ∀ chain, link sources = .error (.cyclicGrouping chain) →
        ∃ names, chain = names.map GroupingName.text ∧ Circle sources names := by
  refine ⟨fun further => provideWithin_eq ?_, fun haugments => ⟨?_, fun h => ?_⟩,
    fun chain herror => ?_⟩
  · rw [remaining_nil]
    exact Nat.lt_succ_self _
  · rintro ⟨model, h⟩
    exact linkable_of_link h
  · have hplaced : placedAugments sources = [] :=
      List.flatMap_eq_nil_iff.2 fun m hm => by rw [haugments m hm, List.map_nil]
    cases hlink : link sources with
    | ok model => exact ⟨model, rfl⟩
    | error e => exact absurd ((link_goes sources).error hlink) (h.no_fault hplaced e)
  · cases (link_goes sources).error herror with
    | cyclicGrouping hcircle => exact ⟨_, rfl, hcircle⟩

/-- Two groupings that use each other, one of them inside a container and under the prefix of their
own module. -/
def circling : List Source.Module :=
  [{ name := "ring", modulePrefix := some "r", namespaceUri := none, revision := none,
     description := none, typedefs := [], data := [], rpcs := [], augments := []
     groupings := [⟨"one", none, none, ⟨[containerOf "inner" [] ["r:two"]], []⟩⟩,
       ⟨"two", none, none, ⟨[leafOf "name" "string"], ["one"]⟩⟩] }]

theorem link_circling :
    link circling = .error (.cyclicGrouping ["ring:one", "ring:two", "ring:one"]) ∧
      ¬ Linkable circling ∧
      ∃ names, ["ring:one", "ring:two", "ring:one"] = names.map GroupingName.text ∧
        Circle circling names := by
  have herror : link circling = .error (.cyclicGrouping ["ring:one", "ring:two", "ring:one"]) :=
    eq_error_of_error? (by decide +kernel)
  obtain ⟨-, hok, hchain⟩ := link_outcome circling
  refine ⟨herror, fun h => ?_, hchain _ herror⟩
  obtain ⟨model, hmodel⟩ := (hok (by decide)).2 h
  exact nomatch herror.symm.trans hmodel

end RestSpec.DataModel
