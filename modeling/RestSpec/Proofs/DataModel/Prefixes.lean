/-
Two ways to look a prefix up. Linking takes the first module that has the prefix or has it for a
name; types of leaves and references to leaves are looked up in the first module that has the
prefix, and in the module of that name only if there is none. Both find a module in the same cases,
and it is the same one as long as no module that has another prefix is named like the prefix and
stands before the first that has it.
-/
import RestSpec.Proofs.DataModel.Linkable
import RestSpec.Proofs.DataModel.Resolution

namespace RestSpec.DataModel

/-! ## The module of a prefix -/

/-- The module that types and leafref paths take a prefix for: the first whose `modulePrefix`, or
name where it has none, is `before`, or else the module of that name. -/
def calledModule? (sources : List Source.Module) (before : String) : Option Source.Module :=
  (sources.find? fun m => m.modulePrefix.getD m.name == before) <|>
    sources.find? fun m => m.name == before

/-- Some module has the prefix `before`, and one that is named like it stands in front of the first
such module. -/
def Overtaken (sources : List Source.Module) (before : String) : Prop :=
  (∃ m ∈ sources, m.modulePrefix.getD m.name = before) ∧
    ∃ m ∈ sources.takeWhile fun m => m.modulePrefix.getD m.name != before, m.name = before

instance (sources : List Source.Module) (before : String) : Decidable (Overtaken sources before) :=
  inferInstanceAs (Decidable (_ ∧ _))

section Sources

variable {sources : List Source.Module} {before : String}

theorem prefixModule?_eq_none_iff :
    prefixModule? sources before = none ↔ calledModule? sources before = none :=
  find?_or_eq_none_iff

theorem prefixModule?_eq_iff :
    prefixModule? sources before = calledModule? sources before ↔ ¬ Overtaken sources before := by
  unfold prefixModule? calledModule? Overtaken
  rw [find?_or_eq_iff]
  simp [bne]

theorem mem_of_prefixModule? {m : Source.Module} (h : prefixModule? sources before = some m) :
    m ∈ sources := List.mem_of_find?_eq_some h

theorem mem_of_calledModule? {m : Source.Module} (h : calledModule? sources before = some m) :
    m ∈ sources := mem_of_find?_orElse h

end Sources

section Stage

variable {sources : List Source.Module} {model : DataModel} (h : Stage sources model)

include h

/-- What a test on the `Head` of a module finds among the sources it finds among the `modules` of
the model, under the same name. -/
theorem Stage.find?_cases (test : Head → Bool) :
    (sources.find? fun s => test (emptyModule s).outline.head) = none ∧
        (model.modules.find? fun m => test m.outline.head) = none ∨
      ∃ s m, (sources.find? fun s => test (emptyModule s).outline.head) = some s ∧
        (model.modules.find? fun m => test m.outline.head) = some m ∧
        model.module? s.name = some m := by
  have hheads : (model.modules.find? fun m => test m.outline.head).map (fun m => m.outline.head) =
      (sources.find? fun s => test (emptyModule s).outline.head).map
        fun s => (emptyModule s).outline.head := by
    have hfind := congrArg (List.find? test) h.heads
    unfold DataModel.heads outlines at hfind
    rw [List.map_map, List.map_map, List.find?_map, List.find?_map] at hfind
    exact hfind
  cases hs : sources.find? fun s => test (emptyModule s).outline.head with
  | none =>
    rw [hs, Option.map_none, Option.map_eq_none_iff] at hheads
    exact .inl ⟨rfl, hheads⟩
  | some s =>
    rw [hs] at hheads
    obtain ⟨m, hm, hhead⟩ := Option.map_eq_some_iff.1 hheads
    have hname : m.name = s.name := congrArg Head.name hhead
    exact .inr ⟨s, m, rfl, hm, hname ▸ h.module?_name (List.mem_of_find?_eq_some hm)⟩

/-- `moduleCalled?` of the model is the module of the name that `calledModule?` finds among the
sources. -/
theorem Stage.moduleCalled?_eq (before : String) : model.moduleCalled? before =
    (calledModule? sources before).bind fun s => model.module? s.name := by
  unfold moduleCalled? calledModule?
  rcases h.find?_cases fun head => head.modulePrefix == before with ⟨hs, hm⟩ | ⟨s, m, hs, hm, hname⟩
  · rw [show sources.find? (fun m => m.modulePrefix.getD m.name == before) = none from hs,
      show model.moduleOfPrefix? before = none from hm]
    rcases h.find?_cases fun head => head.name == before with ⟨hs, hm⟩ | ⟨s, m, hs, hm, hname⟩
    · rw [show sources.find? (fun m => m.name == before) = none from hs,
        show model.module? before = none from hm]
      rfl
    · rw [show sources.find? (fun m => m.name == before) = some s from hs,
        show model.module? before = some m from hm]
      exact hname.symm
  · rw [show sources.find? (fun m => m.modulePrefix.getD m.name == before) = some s from hs,
      show model.moduleOfPrefix? before = some m from hm]
    exact hname.symm

end Stage

/-! ## Two look-ups -/

theorem typedef?_of_prefixed {model : DataModel} {name before localName : String}
    (h : Prefixed name before localName) (home : String) : model.typedef? name home =
      (model.moduleCalled? before).bind fun m =>
        (m.typedefs.find? localName).map fun t => (t, m.name) := by
  unfold typedef?
  rw [h.splitFirst]
  cases hcalled : model.moduleCalled? before with
  | none => simp [hcalled]
  | some m =>
    cases ht : m.typedefs.find? localName with
    | none => simp [hcalled, ht]
    | some t => simp [hcalled, ht]

/-- The two ways to read a prefix. All the way through `link`, `qualify` takes `prefixModule?`; in
the linked model, `typedef?` and `followPath?` take `calledModule?`. Both are `none` for the same
prefixes, and they are one module if and only if the prefix is not `Overtaken`. -/
theorem link_prefixes {sources : List Source.Module} {model : DataModel}
    (h : link sources = .ok model) (before : String) :
    (∀ done, done <+: placedAugments sources →
      ∃ d, draftAfter sources done = .ok d ∧ Draft.Headed sources d ∧
        (done = placedAugments sources → d.model = model)) ∧
    (∀ name localName, Prefixed name before localName →
      (∀ d, Draft.Headed sources d → ∀ home location,
        qualify d.model.modules name home location =
          match prefixModule? sources before with
          | some m => .ok (m.name, localName)
          | none => .error (.unknownPrefix before location)) ∧
      (∀ home, model.typedef? name home =
        ((calledModule? sources before).bind fun s => model.module? s.name).bind fun m =>
          (m.typedefs.find? localName).map fun t => (t, m.name)) ∧
      ∀ path rest, absoluteSegments? path = some (name :: rest) → ∀ home start,
        model.followPath? path home start =
          (((calledModule? sources before).bind fun s => model.module? s.name).bind fun m =>
            m.data.find? fun id => (model.node id).name == localName).bind fun r =>
              rest.foldlM model.pathStep r) ∧
    (prefixModule? sources before = none ↔ calledModule? sources before = none) ∧
    ((prefixModule? sources before).map (·.name) = (calledModule? sources before).map (·.name) ↔
      ¬ Overtaken sources before) := by
  obtain ⟨d, -, hstage, hall, -⟩ := draftAfter_of_link h (List.prefix_refl _)
  obtain rfl := hall rfl
  refine ⟨fun done hdone => ?_, fun name localName hname =>
    ⟨fun d hd home location => ?_, fun home => ?_, fun path rest habs home start => ?_⟩,
    prefixModule?_eq_none_iff, ?_⟩
  · obtain ⟨d, hd, hstage, hall, -⟩ := draftAfter_of_link h hdone
    exact ⟨d, hd, hstage.heads, hall⟩
  · exact (hd.qualify name home location).trans (qualify_of_prefixed hname home location)
  · rw [typedef?_of_prefixed hname, hstage.moduleCalled?_eq]
  · rw [followPath?_of_absolute habs, List.head?_cons, Option.bind_some,
      pathRoot?_of_prefixed hname, hstage.moduleCalled?_eq]
    rfl
  · rw [← prefixModule?_eq_iff]
    have hnames := (linkable_of_link h).names
    constructor
    · intro hsame
      cases hlinked : prefixModule? sources before with
      | none => exact (prefixModule?_eq_none_iff.1 hlinked).symm
      | some m =>
        rw [hlinked] at hsame
        obtain ⟨m', hcalled, hname⟩ := Option.map_eq_some_iff.1 hsame.symm
        rw [hcalled, List.inj_on_of_nodup_map hnames (mem_of_prefixModule? hlinked)
          (mem_of_calledModule? hcalled) hname.symm]
    · exact congrArg (Option.map Source.Module.name)

/-- Modules `a` and `b` with groupings, types and roots of the same names, where the prefix of `b`
is the name of `a`, and a module `c` that refers to them. -/
def crossed : List Source.Module :=
  [{ name := "a", modulePrefix := some "x", namespaceUri := none, revision := none,
     description := none, rpcs := [], augments := []
     typedefs := [⟨"level", .named "uint8", none, none⟩]
     groupings := [⟨"settings", none, none, ⟨[leafOf "mode" "string"], []⟩⟩]
     data := [containerOf "top" [] []] },
   { name := "b", modulePrefix := some "a", namespaceUri := none, revision := none,
     description := none, rpcs := [], augments := []
     typedefs := [⟨"level", .named "boolean", none, none⟩]
     groupings := [⟨"settings", none, none, ⟨[leafOf "speed" "string"], []⟩⟩]
     data := [containerOf "top" [] []] },
   { name := "c", modulePrefix := none, namespaceUri := none, revision := none,
     description := none, typedefs := [], groupings := [], rpcs := []
     data := [containerOf "box" [] ["a:settings"],
       ⟨.leaf ⟨.restricted "leafref" [] (some "/a:top/c:note") none [], false, none⟩,
         "limit", none, none, none, [], []⟩,
       leafOf "rank" "a:level"]
     augments := [⟨"/a:top", none, ⟨[leafOf "note" "uint32"], []⟩⟩] }]

theorem link_crossed : ∃ model, link crossed = .ok model :=
  exists_ok_of_isSome (by decide +kernel)

/-- The prefix `x` of `crossed`, like which no module is named, is read in one way. -/
theorem link_prefixes_crossed : ∃ model, link crossed = .ok model ∧
    (∀ home location, qualify model.modules "x:settings" home location = .ok ("a", "settings")) ∧
    (model.typedef? "x:level" "c").map (·.2) = some "a" ∧
    (prefixModule? crossed "x").map (·.name) = (calledModule? crossed "x").map (·.name) := by
  obtain ⟨model, h⟩ := link_crossed
  obtain ⟨hstages, hlookups, -, hsame⟩ := link_prefixes h "x"
  obtain ⟨d, -, hheaded, hall⟩ := hstages _ (List.prefix_refl _)
  obtain rfl := hall rfl
  obtain ⟨hqualify, -, -⟩ := hlookups "x:settings" "settings" ⟨by decide, rfl⟩
  obtain ⟨-, htypedef, -⟩ := hlookups "x:level" "level" ⟨by decide, rfl⟩
  refine ⟨d.model, h, hqualify d hheaded, ?_, hsame.2 (by decide)⟩
  rw [htypedef]
  exact map_of_ok h (f := fun model => (((calledModule? crossed "x").bind fun s =>
    model.module? s.name).bind fun m => (m.typedefs.find? "level").map fun t => (t, m.name)).map
      (·.2)) (b := some "a") (by decide +kernel)

/-- The prefix `a` of `crossed` is `Overtaken`: `qualify` takes the first module, so its grouping is
used and its root is augmented, while `typedef?` and `followPath?` take the second and do not find
what `c` has just added under that path. -/
theorem crossed_apart : ∃ model, link crossed = .ok model ∧
    Overtaken crossed "a" ∧
    (prefixModule? crossed "a").map (·.name) = some "a" ∧
    (calledModule? crossed "a").map (·.name) = some "b" ∧
    qualify model.modules "a:settings" "c" "/c:box" = .ok ("a", "settings") ∧
    (model.node 6).uses = [0] ∧ (model.node 0).moduleName = "a" ∧
    (model.typedef? "a:level" "c").map (·.2) = some "b" ∧
    resolveTarget model "c" "/a:top" = .ok 2 ∧ (model.node 2).moduleName = "a" ∧
    model.followPath? "/a:top" "c" 8 = some 5 ∧ (model.node 5).moduleName = "b" ∧
    (model.node 2).children = [11] ∧ (model.convertLeaf 11).type = some .integer ∧
    model.followPath? "/a:top/c:note" "c" 8 = none ∧
    (model.convertLeaf 8).type = some .string := by
  obtain ⟨model, h⟩ := link_crossed
  obtain ⟨hqualify, htarget, hrest⟩ := of_decide_eq_true <| map_of_ok h
    (f := fun model => decide (
      (qualify model.modules "a:settings" "c" "/c:box").toOption = some ("a", "settings") ∧
      (resolveTarget model "c" "/a:top").toOption = some 2 ∧
      (model.node 6).uses = [0] ∧ (model.node 0).moduleName = "a" ∧
      (model.typedef? "a:level" "c").map (·.2) = some "b" ∧ (model.node 2).moduleName = "a" ∧
      model.followPath? "/a:top" "c" 8 = some 5 ∧ (model.node 5).moduleName = "b" ∧
      (model.node 2).children = [11] ∧ (model.convertLeaf 11).type = some .integer ∧
      model.followPath? "/a:top/c:note" "c" 8 = none ∧
      (model.convertLeaf 8).type = some .string)) (b := true) (by decide +kernel)
  obtain ⟨huses, hgrouping, htypedef, hroot, hpath⟩ := hrest
  exact ⟨model, h, by decide, by decide, by decide, eq_ok_of_toOption hqualify, huses, hgrouping,
    htypedef, eq_ok_of_toOption htarget, hroot, hpath⟩

end RestSpec.DataModel
