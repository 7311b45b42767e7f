/-
Which modules can be linked, read off the way they are written. A name that stands in a body denotes
a grouping of the module of its prefix, or of the module it stands in; a grouping depends on those
that its body mentions at any depth. Modules are linkable if their names are distinct, every name
that is mentioned denotes a declared grouping and no grouping depends on itself. What a body expands
to bears this out: only names that are declared and lead round in no circle can be replaced.
-/
import Mathlib.Data.List.Chain
import RestSpec.Proofs.List
import RestSpec.Proofs.DataModel.Expansion

namespace RestSpec.DataModel

open Relation (TransGen)

/-! ## Names -/

/-- A name falls into a part before its first colon and the part after it, as `splitFirst` takes it
apart. -/
def Prefixed (name before localName : String) : Prop :=
  ':' ∉ before.toList ∧ name.toList = before.toList ++ ':' :: localName.toList

/-- The module that a prefix stands for: the first of that prefix or that name, where a module
without a prefix has its name for one. -/
def prefixModule? (sources : List Source.Module) (before : String) : Option Source.Module :=
  sources.find? fun m => m.modulePrefix.getD m.name == before || m.name == before

/-- The grouping that a name in the module `home` denotes. -/
inductive Denotes (sources : List Source.Module) (home : String) : String → GroupingName → Prop
  | plain {name : String} : ':' ∉ name.toList → Denotes sources home name ⟨home, name⟩
  | prefixed {name before localName : String} {m : Source.Module} : Prefixed name before localName →
      prefixModule? sources before = some m → Denotes sources home name ⟨m.name, localName⟩

section Names

variable {sources : List Source.Module} {home name : String}

theorem splitFirst_cases (name : String) :
    splitFirst ':' name = none ∧ ':' ∉ name.toList ∨
      ∃ before localName, splitFirst ':' name = some (before, localName) ∧
        Prefixed name before localName := by
  have hsplit := List.takeWhile_append_dropWhile (p := (· != ':')) (l := name.toList)
  have hbefore : ':' ∉ name.toList.takeWhile (· != ':') := fun hmem => by
    simpa using List.all_eq_true.1 List.all_takeWhile ':' hmem
  have hdrop : name.toList.drop (name.toList.takeWhile (· != ':')).length =
      name.toList.dropWhile (· != ':') := by
    conv_lhs => arg 2; rw [← hsplit]
    exact List.drop_left
  unfold splitFirst
  dsimp only
  rw [hdrop]
  obtain ⟨hnot, hafter⟩ | ⟨after, hafter⟩ := dropWhile_ne_cases ':' name.toList
  · rw [hafter]
    exact .inl ⟨rfl, hnot⟩
  · rw [hafter] at hsplit ⊢
    refine .inr ⟨_, _, rfl, ?_, ?_⟩
    · rw [String.toList_ofList]
      exact hbefore
    · rw [String.toList_ofList, String.toList_ofList, hsplit]

/-- A name is `Prefixed` in one way at most, for its first colon is in one place. -/
theorem Prefixed.unique {before localName before' localName' : String}
    (h : Prefixed name before localName) (h' : Prefixed name before' localName') :
    before = before' ∧ localName = localName' := by
  have htake : ∀ {before localName : String}, Prefixed name before localName →
      name.toList.takeWhile (· != ':') = before.toList := by
    intro before localName h
    have hall : ∀ c ∈ before.toList, (c != ':') = true := fun c hc =>
      bne_iff_ne.2 fun heq => h.1 (heq ▸ hc)
    rw [h.2, List.takeWhile_append_of_pos hall]
    simp
  have hbefore := (htake h).symm.trans (htake h')
  have hrest := h.2.symm.trans h'.2
  rw [hbefore] at hrest
  exact ⟨String.toList_inj.1 hbefore,
    String.toList_inj.1 (List.cons.inj (List.append_cancel_left hrest)).2⟩

theorem Prefixed.mem {before localName : String} (h : Prefixed name before localName) :
    ':' ∈ name.toList := by
  rw [h.2]
  simp

theorem Prefixed.splitFirst {name before localName : String} (h : Prefixed name before localName) :
    splitFirst ':' name = some (before, localName) := by
  rcases splitFirst_cases name with ⟨-, hplain⟩ | ⟨before', localName', hsplit, h'⟩
  · exact absurd h.mem hplain
  · obtain ⟨rfl, rfl⟩ := h.unique h'
    exact hsplit

theorem Prefixed.not_denotes {before localName : String} (h : Prefixed name before localName)
    (hnone : prefixModule? sources before = none) (g : GroupingName) :
    ¬ Denotes sources home name g := by
  intro hg
  cases hg with
  | plain hplain => exact hplain h.mem
  | prefixed hname hm =>
    rw [(h.unique hname).1, hm] at hnone
    cases hnone

theorem Denotes.unique {g h : GroupingName} (hg : Denotes sources home name g)
    (hh : Denotes sources home name h) : g = h := by
  cases hg with
  | plain hplain =>
    cases hh with
    | plain _ => rfl
    | prefixed hname _ => exact absurd hname.mem hplain
  | prefixed hname hm =>
    cases hh with
    | plain hplain => exact absurd hname.mem hplain
    | prefixed hname' hm' =>
      obtain ⟨rfl, rfl⟩ := hname.unique hname'
      rw [Option.some.inj (hm.symm.trans hm')]

theorem find?_emptyModule (sources : List Source.Module) (before : String) :
    ((sources.map emptyModule).find? fun m => m.modulePrefix == before || m.name == before) =
      (prefixModule? sources before).map emptyModule := by
  rw [List.find?_map]
  rfl

theorem qualify_of_prefixed {before localName : String}
    (h : Prefixed name before localName) (home location : String) :
    qualify (sources.map emptyModule) name home location =
      match prefixModule? sources before with
      | some m => .ok (m.name, localName)
      | none => .error (.unknownPrefix before location) := by
  unfold qualify
  rw [h.splitFirst]
  dsimp only
  rw [find?_emptyModule]
  cases prefixModule? sources before with
  | none => rfl
  | some m => rfl

/-- What `qualify` answers: the grouping that the name denotes, or an error for a prefix that no
module goes by. -/
theorem qualify_cases (sources : List Source.Module) (name home location : String) :
    (∃ g, qualify (sources.map emptyModule) name home location = .ok (g.moduleName, g.name) ∧
        Denotes sources home name g) ∨
      ∃ before localName, qualify (sources.map emptyModule) name home location =
          .error (.unknownPrefix before location) ∧
        Prefixed name before localName ∧ prefixModule? sources before = none := by
  obtain ⟨hsplit, hplain⟩ | ⟨before, localName, -, hname⟩ := splitFirst_cases name
  · unfold qualify
    rw [hsplit]
    exact .inl ⟨⟨home, name⟩, rfl, .plain hplain⟩
  · rw [qualify_of_prefixed hname]
    cases hm : prefixModule? sources before with
    | none => exact .inr ⟨before, localName, rfl, hname, hm⟩
    | some m => exact .inl ⟨⟨m.name, localName⟩, rfl, .prefixed hname hm⟩

theorem denotes_of_qualify {location : String} {key : String × String}
    (h : qualify (sources.map emptyModule) name home location = .ok key) :
    Denotes sources home name ⟨key.1, key.2⟩ := by
  obtain ⟨g, hok, hg⟩ | ⟨before, localName, herror, -⟩ := qualify_cases sources name home location
  · obtain rfl := Except.ok.inj (h.symm.trans hok)
    exact hg
  · exact nomatch h.symm.trans herror

end Names

/-! ## Dependencies -/

/-- A body uses a name, itself or in a statement at any depth. -/
inductive Mentions : Source.Body → String → Prop
  | here {body : Source.Body} {name : String} : name ∈ body.uses → Mentions body name
  | within {body : Source.Body} {s : Source.Statement} {name : String} : s ∈ body.children →
      Mentions ⟨s.children, s.uses⟩ name → Mentions body name

/-- A grouping uses another: its `declaration?` mentions a name that denotes the other. -/
def DependsOn (sources : List Source.Module) (g h : GroupingName) : Prop :=
  ∃ decl name, declaration? sources g = some decl ∧ Mentions decl.body name ∧
    Denotes sources g.moduleName name h

/-- The bodies that are written in a module: those of the groupings that a name can denote, its
data, what goes into remote calls and comes out of them, and what augments add. -/
inductive Written (sources : List Source.Module) : String → Source.Body → Prop
  | grouping {g : GroupingName} {decl : Source.Grouping} : declaration? sources g = some decl →
      Written sources g.moduleName decl.body
  | data {m : Source.Module} : m ∈ sources → Written sources m.name ⟨m.data, []⟩
  | input {m : Source.Module} {rpc : Source.Rpc} {body : Source.Body} : m ∈ sources →
      rpc ∈ m.rpcs → rpc.input = some body → Written sources m.name body
  | output {m : Source.Module} {rpc : Source.Rpc} {body : Source.Body} : m ∈ sources →
      rpc ∈ m.rpcs → rpc.output = some body → Written sources m.name body
  | augment {m : Source.Module} {a : Source.Augment} : m ∈ sources → a ∈ m.augments →
      Written sources m.name a.body

/-- A name that a body `Written` in the module mentions. -/
def UsedIn (sources : List Source.Module) (home name : String) : Prop :=
  ∃ body, Written sources home body ∧ Mentions body name

/-- Modules of different names in which every name that is `UsedIn` one denotes a grouping whose
dependencies end. -/
structure Linkable (sources : List Source.Module) : Prop where
  names : (sources.map (·.name)).Nodup
  resolved : ∀ home name, UsedIn sources home name →
    ∃ g decl, Denotes sources home name g ∧ declaration? sources g = some decl
  acyclic : ∀ g, ¬ TransGen (DependsOn sources) g g

section Dependencies

variable {sources : List Source.Module}

theorem mentions_nil {uses : List String} {name : String} :
    Mentions ⟨[], uses⟩ name ↔ name ∈ uses := by
  constructor
  · intro h
    cases h with
    | here h => exact h
    | within hs _ => cases hs
  · exact fun h => .here h

theorem mentions_cons {s : Source.Statement} {rest : List Source.Statement} {uses : List String}
    {name : String} : Mentions ⟨s :: rest, uses⟩ name ↔
      Mentions ⟨s.children, s.uses⟩ name ∨ Mentions ⟨rest, uses⟩ name := by
  constructor
  · intro h
    cases h with
    | here h => exact .inr (.here h)
    | within hs h =>
      rcases List.mem_cons.1 hs with rfl | hs
      · exact .inl h
      · exact .inr (.within hs h)
  · rintro (h | h)
    · exact .within List.mem_cons_self h
    · cases h with
      | here h => exact .here h
      | within hs h => exact .within (List.mem_cons_of_mem _ hs) h

theorem mentions_children {children : List Source.Statement} {uses : List String} {name : String}
    (h : Mentions ⟨children, []⟩ name) : Mentions ⟨children, uses⟩ name := by
  cases h with
  | here h => exact nomatch h
  | within hs h => exact .within hs h

/-- Whatever a body `Mentions` that stands for shapes is declared, and its dependencies end. -/
theorem Expands.mentions {placed home : String} {body : Source.Body} {shapes : List Shape}
    (h : Expands sources placed home body shapes) : ∀ name, Mentions body name →
      ∃ g decl, Denotes sources home name g ∧ declaration? sources g = some decl ∧
        Acc (fun h g => DependsOn sources g h) g := by
  induction h with
  | nil => exact fun name h => nomatch mentions_nil.1 h
  | child _ _ ihbelow ih =>
    intro name h
    rcases mentions_cons.1 h with h | h
    · exact ihbelow name h
    · exact ih name h
  | use hname hdecl _ _ ihblock ih =>
    intro name' h
    rcases List.mem_cons.1 (mentions_nil.1 h) with rfl | h
    · refine ⟨_, _, denotes_of_qualify hname, hdecl, ⟨_, ?_⟩⟩
      rintro h ⟨decl', text, hdecl', hmentions, hh⟩
      obtain rfl := Option.some.inj (hdecl.symm.trans hdecl')
      obtain ⟨h', _, hh', -, hacc⟩ := ihblock text hmentions
      exact hh.unique hh' ▸ hacc
    · exact ih name' (mentions_nil.2 h)

end Dependencies

end RestSpec.DataModel
