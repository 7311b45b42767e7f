/-
A document is generated for every data model and for all settings that select a module: building
never meets itself, the document before the passes is well formed, and no list of passes leaves a
reference without a definition.
-/
import RestSpec.Generate
import RestSpec.Proofs.Pass.Pipeline
import RestSpec.Proofs.Resource.Emit

namespace RestSpec

open Document DataModel

/-! ## Walking a module -/

mutual

theorem emitTree_ok {model : DataModel} (s : Settings) (hm : model.Linked) :
    ∀ (t : Tree) (above : Route) (level : Nat) (p : Progress), p.Sound s.strategy model →
      ∃ p', emitTree s model above level t p = .ok p' ∧ p'.Sound s.strategy model
  | .node id children, above, level, p, h => by
    unfold emitTree
    dsimp only
    split
    · exact emitTrees_ok s hm children above level p h
    · split
      · split
        · exact ⟨p, rfl, h⟩
        · obtain ⟨p₁, hdata, h₁⟩ := emitData_ok s hm h (above.toNode model id) id
          rw [hdata]
          exact emitTrees_ok s hm children (above.toNode model id) (level + 1) p₁ h₁
      · exact ⟨p, rfl, h⟩

theorem emitTrees_ok {model : DataModel} (s : Settings) (hm : model.Linked) :
    ∀ (ts : List Tree) (above : Route) (level : Nat) (p : Progress), p.Sound s.strategy model →
      ∃ p', emitTrees s model above level ts p = .ok p' ∧ p'.Sound s.strategy model
  | [], _, _, p, h => ⟨p, rfl, h⟩
  | t :: ts, above, level, p, h => by
    obtain ⟨p₁, htree, h₁⟩ := emitTree_ok s hm t above level p h
    rw [emitTrees, htree]
    exact emitTrees_ok s hm ts above level p₁ h₁

end

/-- On routes of one kind `R`, which go on with every container and list, the handlers of the
settings keep what is true of the `Progress` so far. -/
structure Settings.Keeps (s : Settings) (model : DataModel) (R : Route → Prop)
    (P : Progress → Prop) : Prop where
  toNode : ∀ (above : Route) (id : NodeId), R above → (model.node id).kind.isResource = true →
    R (above.toNode model id)
  emitData : ∀ (above : Route) (id : NodeId) (p p' : Progress), R above →
    (model.node id).kind.isResource = true → P p →
    emitData s model (above.toNode model id) id p = .ok p' → P p'

section Keeps

variable {s : Settings} {model : DataModel} {R : Route → Prop} {P : Progress → Prop}

mutual

/-- What the settings keep at every node, `emitTree` keeps over a whole tree. -/
theorem emitTree_invariant (hkeeps : s.Keeps model R P) :
    ∀ (t : Tree) (above : Route) (level : Nat) (p p' : Progress),
      R above → P p → emitTree s model above level t p = .ok p' → P p'
  | .node id children, above, level, p, p', hr, hp, h => by
    unfold emitTree at h
    dsimp only at h
    split at h
    · exact emitTrees_invariant hkeeps children above level p p' hr hp h
    · split at h
      · rename_i hresource
        split at h
        · cases h
          exact hp
        · obtain ⟨p₁, hfirst, h⟩ := bind_eq_ok.1 h
          exact emitTrees_invariant hkeeps children (above.toNode model id) (level + 1) p₁ p'
            (hkeeps.toNode above id hr hresource)
            (hkeeps.emitData above id p p₁ hr hresource hp hfirst) h
      · cases h
        exact hp

theorem emitTrees_invariant (hkeeps : s.Keeps model R P) :
    ∀ (ts : List Tree) (above : Route) (level : Nat) (p p' : Progress),
      R above → P p → emitTrees s model above level ts p = .ok p' → P p'
  | [], _, _, p, p', _, hp, h => by
    cases h
    exact hp
  | t :: ts, above, level, p, p', hr, hp, h => by
    rw [emitTrees] at h
    obtain ⟨p₁, ht, h⟩ := bind_eq_ok.1 h
    exact emitTrees_invariant hkeeps ts above level p₁ p' hr
      (emitTree_invariant hkeeps t above level p p₁ hr hp ht) h

end

theorem emitModule_invariant (hkeeps : s.Keeps model R P) (htop : R []) {m : Module}
    (hcall : ∀ call ∈ m.rpcs, ∀ p p', P p → emitCall s model call p = .ok p' → P p')
    {p p' : Progress} (hp : P p) (h : emitModule s model p m = .ok p') : P p' := by
  unfold emitModule at h
  obtain ⟨p₁, hroots, hcalls⟩ := bind_eq_ok.1 h
  have hp₁ : P p₁ := by
    unfold emitRoots at hroots
    split at hroots
    · exact emitTrees_invariant hkeeps _ [] 0 p p₁ htop hp hroots
    · cases hroots
      exact hp
  unfold emitCalls at hcalls
  split at hcalls
  · exact foldlM_invariant P m.rpcs p₁ p' hcall hp₁ hcalls
  · cases hcalls
    exact hp₁

end Keeps

section Walk

variable {model : DataModel} (s : Settings) (hm : model.Linked)

include hm

theorem emitRoots_ok (m : Module) {p : Progress} (h : p.Sound s.strategy model) :
    ∃ p', emitRoots s model m p = .ok p' ∧ p'.Sound s.strategy model := by
  unfold emitRoots
  split
  · exact emitTrees_ok s hm (m.data.map model.tree) [] 0 p h
  · exact ⟨p, rfl, h⟩

theorem emitCalls_ok (m : Module) {p : Progress} (h : p.Sound s.strategy model) :
    ∃ p', emitCalls s model m p = .ok p' ∧ p'.Sound s.strategy model := by
  unfold emitCalls
  split
  · exact foldlM_ok (Progress.Sound s.strategy model) m.rpcs p
      (fun call _ b hb => emitCall_ok s hm hb call) h
  · exact ⟨p, rfl, h⟩

theorem emitModule_ok (m : Module) {p : Progress} (h : p.Sound s.strategy model) :
    ∃ p', emitModule s model p m = .ok p' ∧ p'.Sound s.strategy model := by
  obtain ⟨p₁, hroots, h₁⟩ := emitRoots_ok s hm m h
  unfold emitModule
  rw [hroots]
  exact emitCalls_ok s hm m h₁

/-! ## The document -/

theorem rawDocument_ok (hmodules : ∀ m ∈ model.moduleNames, NulFree m.toList)
    (selected : List Module) :
    ∃ doc, rawDocument s model selected = .ok doc ∧ doc.WellFormed := by
  obtain ⟨p, hp, hsound⟩ := foldlM_ok (Progress.Sound s.strategy model) selected {}
    (fun m _ b hb => emitModule_ok s hm m hb) (Progress.sound_empty s.strategy model)
  have hstart : ∀ path m, (heading s selected).operation? path m = none := fun _ _ => rfl
  refine ⟨_, ?_, hsound.wellFormed hm hmodules hstart⟩
  unfold rawDocument
  rw [hp]
  rfl

theorem generateSelected_ok (hmodules : ∀ m ∈ model.moduleNames, NulFree m.toList)
    (selected : List Module) :
    ∃ doc, generateSelected s model selected = .ok doc ∧ doc.WellFormed := by
  obtain ⟨raw, hraw, hwell⟩ := rawDocument_ok s hm hmodules selected
  have hfinal := runAll_wellFormed hwell s.security s.passes
  refine ⟨_, ?_, hfinal⟩
  unfold generateSelected Document.check
  rw [hraw]
  dsimp only [bind, Except.bind]
  -- the passes leave the document closed, so the check finds nothing
  rw [dangling?_eq_none_iff.2 hfinal.closed]
  rfl

end Walk

theorem nulFree_moduleNames {sources : List Source.Module} {model : DataModel}
    (h : link sources = .ok model) (hnul : ∀ m ∈ sources, Char.ofNat 0 ∉ m.name.toList) :
    ∀ m ∈ model.moduleNames, NulFree m.toList := by
  intro n hn
  rw [(linked_of_link h).2] at hn
  obtain ⟨m, hmem, rfl⟩ := List.mem_map.1 hn
  exact hnul m hmem

/-- `generate` makes a document of every linked model, whatever the `strategy`, the modules that are
`selected` and the passes are. -/
theorem generate_ok {sources : List Source.Module} {model : DataModel}
    (h : link sources = .ok model) (hnul : ∀ m ∈ sources, Char.ofNat 0 ∉ m.name.toList)
    (s : Settings) {selected : List Module} (hselected : selectedModules s model = .ok selected) :
    ∃ doc, generate s model = .ok doc := by
  obtain ⟨doc, hdoc, -⟩ := generateSelected_ok s (linked_of_link h).1 (nulFree_moduleNames h hnul)
    selected
  refine ⟨doc, ?_⟩
  unfold generate
  rw [hselected]
  exact hdoc

/-- Settings that ask for the pass `singleParent` a second time, after others. -/
def repeating : Settings :=
  { patch := true, postprocess := [.singleParent, .collapseDuplicates, .removeUnused, .singleParent] }

theorem generate_ok_sharing : ∃ model doc, link sharing = .ok model ∧
    generate repeating model = .ok doc := by
  obtain ⟨model, h⟩ := link_sharing
  have hselected : ((link sharing).toOption.map fun model =>
      (selectedModules repeating model).toOption.isSome) = some true := by decide +kernel
  rw [h] at hselected
  obtain ⟨selected, hselected⟩ := exists_ok_of_isSome (Option.some.inj hselected)
  obtain ⟨doc, hdoc⟩ := generate_ok h (by decide) repeating hselected
  exact ⟨model, doc, h, hdoc⟩

end RestSpec
